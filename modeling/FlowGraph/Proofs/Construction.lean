import FlowGraph.Proofs.Chains
import FlowGraph.Proofs.LayingOut

/-! # The graph of a procedure is well-formed

Building a graph gives up on labels only: on the first one that is declared again, and else on the
first one that is jumped to and not declared.  Otherwise the graph is well-formed, and what leaves
the block of a statement can be read off the statement and the statements behind it: a place in the
list has a block, and the edges lead to the blocks of the places where control goes.
-/
namespace FlowGraph

namespace Layout

theorem mem_declared_iff {ss : List Statement} {l : Label} : l ∈ declared ss ↔ .label l ∈ ss := by
  refine ⟨fun h => ?_, mem_declared⟩
  obtain ⟨s, hs, hl⟩ := List.mem_filterMap.mp h
  cases s with
  | label m =>
    cases hl
    exact hs
  | _ => cases hl

theorem declared_append (ss ss' : List Statement) :
    declared (ss ++ ss') = declared ss ++ declared ss' :=
  List.filterMap_append ..

/-- Where some label is declared twice, there is a first declaration of one that was there before.
-/
theorem exists_first_repeated {ss : List Statement} (h : ¬ (declared ss).Nodup) :
    ∃ front l rest, ss = front ++ .label l :: rest ∧ (declared front).Nodup ∧
    l ∈ declared front := by
  induction ss using List.reverseRecOn with
  | nil => exact absurd List.nodup_nil h
  | append_singleton ss s ih =>
    by_cases hnodup : (declared ss).Nodup
    · rw [declared_append] at h
      cases s with
      | label l =>
        refine ⟨ss, l, [], rfl, hnodup, by_contra fun hnot => h ?_⟩
        exact hnodup.append (List.nodup_singleton l) (List.disjoint_singleton.mpr hnot)
      | _ => exact absurd (by simpa [declared] using hnodup) h
    · obtain ⟨front, l, rest, rfl, hfront, hl⟩ := ih hnodup
      exact ⟨front, l, rest ++ [s], by simp, hfront, hl⟩

end Layout

namespace Graph

open Layout (declared mem_declared_iff)

/-! ### Labels -/

section
variable {table : LabelTable}

theorem isSome_lookup_cons {l m : Label} {b : BlockId} :
    (((m, b) :: table).lookup l).isSome ↔ l = m ∨ (table.lookup l).isSome := by
  by_cases h : l = m
  · simp [h]
  · rw [List.lookup_cons, beq_false_of_ne h]
    simp [h]

/-- New labels, all different, are all entered in the table. -/
theorem exists_declareLabels (procedure : String) (slot : Nat) {ss : List Statement}
    (hnodup : (declared ss).Nodup) (hnew : ∀ l ∈ declared ss, table.lookup l = none) :
    ∃ table', (∀ rest, declareLabels procedure slot table (ss ++ rest) =
        declareLabels procedure (slot + ss.length) table' rest) ∧
      ∀ l, (table'.lookup l).isSome ↔ (table.lookup l).isSome ∨ l ∈ declared ss := by
  induction ss generalizing slot table with
  | nil => exact ⟨table, fun _ => rfl, fun l => by simp [declared]⟩
  | cons s ss ih =>
    have hlength : slot + (s :: ss).length = slot + 1 + ss.length := by
      rw [List.length_cons, Nat.add_assoc, Nat.add_comm 1]
    rw [hlength]
    cases s with
    | label m =>
      obtain ⟨hm, hnodup⟩ : m ∉ declared ss ∧ (declared ss).Nodup := List.nodup_cons.mp hnodup
      have hfree : table.lookup m = none := hnew m List.mem_cons_self
      have hnew' : ∀ l ∈ declared ss, ((m, (⟨slot⟩ : BlockId)) :: table).lookup l = none := by
        intro l hl
        have hne : l ≠ m := fun heq => hm (heq ▸ hl)
        rw [List.lookup_cons, beq_false_of_ne hne]
        exact hnew l (List.mem_cons_of_mem _ hl)
      obtain ⟨table', hdeclare, hlookup⟩ := ih (slot + 1) hnodup hnew'
      refine ⟨table', fun rest => ?_, fun l => ?_⟩
      · rw [← hdeclare, List.cons_append, declareLabels, hfree]
        exact if_neg Bool.false_ne_true
      · have hcons : l ∈ declared (.label m :: ss) ↔ l = m ∨ l ∈ declared ss := List.mem_cons
        rw [hlookup, isSome_lookup_cons, hcons, ← or_assoc, or_comm (a := l = m)]
    | _ => exact ih (slot + 1) hnodup hnew

/-- **The first label that is declared again** is a fault. -/
theorem declareLabels_eq_error (procedure : String) (slot : Nat) {front rest : List Statement}
    {l : Label} (hnodup : (declared front).Nodup) (hl : l ∈ declared front) :
    declareLabels procedure slot [] (front ++ .label l :: rest) =
      .error (.duplicateLabel l procedure) := by
  obtain ⟨table', hdeclare, hlookup⟩ :=
    exists_declareLabels procedure slot hnodup fun _ _ => List.lookup_nil
  rw [hdeclare, declareLabels, if_pos ((hlookup l).mpr (.inr hl))]

/-- Where no label is declared twice, the table has them all. -/
theorem declareLabels_eq_ok (procedure : String) (slot : Nat) {ss : List Statement}
    (hnodup : (declared ss).Nodup) :
    ∃ table, declareLabels procedure slot [] ss = .ok table ∧
      ∀ l, (table.lookup l).isSome ↔ l ∈ declared ss := by
  obtain ⟨table, hdeclare, hlookup⟩ :=
    exists_declareLabels procedure slot hnodup fun _ _ => List.lookup_nil
  refine ⟨table, ?_, fun l => by simpa using hlookup l⟩
  have hall := hdeclare []
  rwa [List.append_nil, declareLabels] at hall

end

/-! ### Edges -/

/-- The edges out of a block that holds a statement, in front of the block `next`. -/
def departures (table : LabelTable) (b next : BlockId) : Statement → Except Fault (List Edge)
  | .goto l => return [⟨b, ← findLabel table l, .always⟩]
  | .branch br => return [⟨b, ← findLabel table br.ifTrue, .onTrue⟩,
      ⟨b, ← findLabel table br.ifFalse, .onFalse⟩]
  | _ => return [⟨b, next, .always⟩]

/-- The edges out of the statements from a slot on, statement by statement. -/
def allDepartures (table : LabelTable) : Nat → List Statement → Except Fault (List Edge)
  | _, [] => .ok []
  | slot, s :: rest => do
    let own ← departures table ⟨slot⟩ (blockFrom (slot + 1) rest) s
    return own ++ (← allDepartures table (slot + 1) rest)

section
variable {table : LabelTable}

/-- The edges come statement by statement: it makes no difference that control which falls out of a
statement is drawn with the next one. -/
theorem flow_eq (above : Option BlockId) (slot : Nat) (ss : List Statement) :
    flow table above slot ss = (allDepartures table slot ss).map
      (above.toList.map (fun a => ⟨a, blockFrom slot ss, .always⟩) ++ ·) := by
  induction ss generalizing above slot with
  | nil => exact congrArg Except.ok (List.append_nil _).symm
  | cons s ss ih =>
    cases s with
    | goto l =>
      simp only [flow, allDepartures, departures, ih]
      cases findLabel table l with
      | error f => rfl
      | ok t =>
        cases allDepartures table (slot + 1) ss with
        | error f => rfl
        | ok es => exact congrArg Except.ok (List.append_assoc ..)
    | branch br =>
      simp only [flow, allDepartures, departures, ih]
      cases findLabel table br.ifTrue with
      | error f => rfl
      | ok t =>
        cases findLabel table br.ifFalse with
        | error f => rfl
        | ok t' =>
          cases allDepartures table (slot + 1) ss with
          | error f => rfl
          | ok es => exact congrArg Except.ok (List.append_assoc ..)
    | _ =>
      simp only [flow, allDepartures, departures, ih]
      cases allDepartures table (slot + 1) ss with
      | error f => rfl
      | ok es => rfl

/-! ### Jumps to labels that are not declared -/

variable {known : List Label} (hknown : ∀ l, (table.lookup l).isSome ↔ l ∈ known)
include hknown

theorem findLabel_eq_error {l : Label} (h : l ∉ known) :
    findLabel table l = .error (.undeclaredLabel l) := by
  have hnone : table.lookup l = none := Option.not_isSome_iff_eq_none.mp (mt (hknown l).mp h)
  rw [findLabel, hnone]

theorem exists_findLabel {l : Label} (h : l ∈ known) : ∃ b, findLabel table l = .ok b := by
  obtain ⟨b, hb⟩ := Option.isSome_iff_exists.mp ((hknown l).mpr h)
  exact ⟨b, by rw [findLabel, hb]⟩

theorem departures_eq_error {b next : BlockId} {s : Statement} {l : Label}
    (h : s.targets.find? (· ∉ known) = some l) :
    departures table b next s = .error (.undeclaredLabel l) := by
  cases s with
  | goto m =>
    obtain ⟨hm, rfl⟩ : m ∉ known ∧ m = l := by simpa [Statement.targets] using h
    rw [departures, findLabel_eq_error hknown hm]
    rfl
  | branch br =>
    by_cases ht : br.ifTrue ∈ known
    · obtain ⟨t, ht'⟩ := exists_findLabel hknown ht
      obtain ⟨hf, rfl⟩ : br.ifFalse ∉ known ∧ br.ifFalse = l := by
        simpa [Statement.targets, ht] using h
      rw [departures, ht', findLabel_eq_error hknown hf]
      rfl
    · obtain rfl : br.ifTrue = l := by simpa [Statement.targets, ht] using h
      rw [departures, findLabel_eq_error hknown ht]
      rfl
  | _ => cases h

theorem exists_departures (b next : BlockId) {s : Statement} (h : ∀ l ∈ s.targets, l ∈ known) :
    ∃ es, departures table b next s = .ok es := by
  cases s with
  | goto m =>
    obtain ⟨t, ht⟩ := exists_findLabel hknown (h m List.mem_cons_self)
    exact ⟨_, by rw [departures, ht]; rfl⟩
  | branch br =>
    obtain ⟨t, ht⟩ := exists_findLabel hknown (h br.ifTrue List.mem_cons_self)
    obtain ⟨f, hf⟩ :=
      exists_findLabel hknown (h br.ifFalse (List.mem_cons_of_mem _ List.mem_cons_self))
    exact ⟨_, by rw [departures, ht, hf]; rfl⟩
  | _ => exact ⟨_, rfl⟩

/-- **The first jump to a label that is not declared** is a fault. -/
theorem allDepartures_eq_error {slot : Nat} {ss : List Statement} {l : Label}
    (h : (ss.flatMap Statement.targets).find? (· ∉ known) = some l) :
    allDepartures table slot ss = .error (.undeclaredLabel l) := by
  induction ss generalizing slot with
  | nil => cases h
  | cons s ss ih =>
    rw [List.flatMap_cons, List.find?_append] at h
    cases hs : s.targets.find? (· ∉ known) with
    | some m =>
      rw [hs] at h
      cases h
      rw [allDepartures, departures_eq_error hknown hs]
      rfl
    | none =>
      rw [hs] at h
      have hdeclared : ∀ m ∈ s.targets, m ∈ known := by simpa using hs
      obtain ⟨es, hes⟩ := exists_departures hknown ⟨slot⟩ (blockFrom (slot + 1) ss) hdeclared
      rw [allDepartures, bind_of_ok hes, ih h]
      rfl

theorem exists_allDepartures (slot : Nat) {ss : List Statement}
    (h : ∀ l ∈ ss.flatMap Statement.targets, l ∈ known) :
    ∃ es, allDepartures table slot ss = .ok es := by
  induction ss generalizing slot with
  | nil => exact ⟨[], rfl⟩
  | cons s ss ih =>
    rw [List.flatMap_cons, List.forall_mem_append] at h
    obtain ⟨own, hown⟩ := exists_departures hknown ⟨slot⟩ (blockFrom (slot + 1) ss) h.1
    obtain ⟨es, hes⟩ := ih (slot + 1) h.2
    exact ⟨own ++ es, by rw [allDepartures, bind_of_ok hown, hes]; rfl⟩

end
/-! ### Places -/

/-- The block in front of which control is when some statements of a list are still to come. -/
def place (ss rest : List Statement) : BlockId := blockFrom (2 + (ss.length - rest.length)) rest

/-- The block that a jump to a label leads to. -/
def landing (ss : List Statement) (l : Label) : BlockId := place ss (ss.dropWhile (· ≠ .label l))

/-- The ways out of the block of a statement, in order. -/
def exitsOf (ss rest : List Statement) : Statement → List (Direction × BlockId)
  | .goto l => [(.always, landing ss l)]
  | .branch br => [(.onTrue, landing ss br.ifTrue), (.onFalse, landing ss br.ifFalse)]
  | _ => [(.always, place ss rest)]

theorem place_append (front rest : List Statement) :
    place (front ++ rest) rest = blockFrom (2 + front.length) rest := by
  rw [place, List.length_append, Nat.add_sub_cancel]

theorem place_append_cons (front rest : List Statement) (s : Statement) :
    place (front ++ s :: rest) rest = blockFrom (2 + front.length + 1) rest := by
  have h := place_append (front ++ [s]) rest
  rwa [List.append_assoc, List.singleton_append, List.length_append, ← Nat.add_assoc] at h

theorem blockFrom_live {slot size : Nat} {rest : List Statement} (h : slot + rest.length = size)
    (hsize : 2 ≤ size) (hslot : 2 ≤ slot) :
    (blockFrom slot rest).slot < size ∧ blockFrom slot rest ≠ entry := by
  cases rest with
  | nil => exact ⟨hsize, nofun⟩
  | cons s rest =>
    rw [List.length_cons] at h
    refine ⟨?_, fun heq => ?_⟩
    · show slot < size
      omega
    · have : slot = 0 := congrArg BlockId.slot heq
      omega

/-- The block of a place is in use, and control never gets back to the entry. -/
theorem place_live {ss rest : List Statement} (h : rest <:+ ss) :
    (place ss rest).slot < 2 + ss.length ∧ place ss rest ≠ entry := by
  obtain ⟨front, rfl⟩ := h
  rw [place_append]
  refine blockFrom_live ?_ (Nat.le_add_right ..) (Nat.le_add_right ..)
  rw [List.length_append, Nat.add_assoc]

theorem exitsOf_live {ss rest : List Statement} {s : Statement} (h : s :: rest <:+ ss)
    {d : Direction} {t : BlockId} (ht : (d, t) ∈ exitsOf ss rest s) :
    t.slot < 2 + ss.length ∧ t ≠ entry := by
  have hlanding : ∀ l, (landing ss l).slot < 2 + ss.length ∧ landing ss l ≠ entry := fun l =>
    place_live (List.dropWhile_suffix _)
  cases s with
  | goto l =>
    cases List.mem_singleton.mp ht
    exact hlanding l
  | branch br =>
    rcases List.mem_pair.mp ht with heq | heq
    · cases heq
      exact hlanding br.ifTrue
    · cases heq
      exact hlanding br.ifFalse
  | _ =>
    cases List.mem_singleton.mp ht
    exact place_live ((List.suffix_cons ..).trans h)

theorem map_fst_exitsOf (ss rest : List Statement) (s : Statement) :
    (exitsOf ss rest s).map Prod.fst = s.kind.directions := by
  cases s <;> rfl

/-- Different places have different blocks. -/
theorem length_eq_of_place_eq {ss rest rest' : List Statement} {s s' : Statement}
    (h : s :: rest <:+ ss) (h' : s' :: rest' <:+ ss)
    (heq : place ss (s :: rest) = place ss (s' :: rest')) : rest.length = rest'.length := by
  have hslot : 2 + (ss.length - (rest.length + 1)) = 2 + (ss.length - (rest'.length + 1)) :=
    congrArg BlockId.slot heq
  have hlen : rest.length + 1 ≤ ss.length := h.length_le
  have hlen' : rest'.length + 1 ≤ ss.length := h'.length_le
  omega

/-- The edges of the last statements of a list. -/
def edgesFrom (ss : List Statement) : List Statement → List Edge
  | [] => []
  | s :: rest => (exitsOf ss rest s).map (fun x => ⟨place ss (s :: rest), x.2, x.1⟩) ++
      edgesFrom ss rest

theorem mem_edgesFrom {ss rest : List Statement} {edge : Edge} : edge ∈ edgesFrom ss rest ↔
    ∃ s rest', s :: rest' <:+ rest ∧ edge.source = place ss (s :: rest') ∧
      (edge.direction, edge.target) ∈ exitsOf ss rest' s := by
  induction rest with
  | nil => simp [edgesFrom]
  | cons s rest ih =>
    rw [edgesFrom, List.mem_append, ih, List.mem_map]
    constructor
    · rintro (⟨⟨d, t⟩, hin, rfl⟩ | ⟨s', rest', hsuffix, hedge⟩)
      · exact ⟨s, rest, List.suffix_refl _, rfl, hin⟩
      · exact ⟨s', rest', hsuffix.trans (List.suffix_cons ..), hedge⟩
    · rintro ⟨s', rest', hsuffix, hsource, hin⟩
      rcases List.suffix_cons_iff.mp hsuffix with heq | hsuffix
      · cases heq
        exact .inl ⟨_, hin, by rw [← hsource]⟩
      · exact .inr ⟨s', rest', hsuffix, hsource, hin⟩

/-- What leaves the block of a place are the edges of its statement. -/
theorem filter_edgesFrom {ss rest rest' : List Statement} {s : Statement} (hss : rest <:+ ss)
    (h : s :: rest' <:+ rest) :
    (edgesFrom ss rest).filter (·.source = place ss (s :: rest')) =
      (exitsOf ss rest' s).map fun x => ⟨place ss (s :: rest'), x.2, x.1⟩ := by
  induction rest with
  | nil => exact absurd (List.suffix_nil.mp h) nofun
  | cons s₀ rest ih =>
    have hrest : rest <:+ ss := (List.suffix_cons ..).trans hss
    rw [edgesFrom, List.filter_append]
    rcases List.suffix_cons_iff.mp h with heq | hsuffix
    · -- The statements behind it stand at other places.
      cases heq
      have hlater : (edgesFrom ss rest').filter (·.source = place ss (s :: rest')) = [] := by
        refine List.filter_eq_nil_iff.mpr fun edge hedge hsource => ?_
        obtain ⟨_, _, hsuffix, hplace, -⟩ := mem_edgesFrom.mp hedge
        have hlength := length_eq_of_place_eq hss (hsuffix.trans hrest)
          ((of_decide_eq_true hsource).symm.trans hplace)
        have hle := hsuffix.length_le
        rw [hlength, List.length_cons] at hle
        exact Nat.not_succ_le_self _ hle
      rw [hlater, List.append_nil]
      refine List.filter_eq_self.mpr fun edge hedge => ?_
      obtain ⟨x, -, rfl⟩ := List.mem_map.mp hedge
      exact decide_eq_true rfl
    · -- The statement before it does too.
      have hfirst : ((exitsOf ss rest s₀).map fun x =>
        (⟨place ss (s₀ :: rest), x.2, x.1⟩ : Edge)).filter
          (·.source = place ss (s :: rest')) = [] := by
        refine List.filter_eq_nil_iff.mpr fun edge hedge hsource => ?_
        obtain ⟨x, -, rfl⟩ := List.mem_map.mp hedge
        have hlength := length_eq_of_place_eq hss (hsuffix.trans hrest) (of_decide_eq_true hsource)
        have hle := hsuffix.length_le
        rw [hlength, List.length_cons] at hle
        exact Nat.not_succ_le_self _ hle
      rw [hfirst, List.nil_append]
      exact ih hrest hsuffix

section
variable {procedure : String} {ss : List Statement} {table : LabelTable}
  (htable : declareLabels procedure 2 [] ss = .ok table)
include htable

/-- A label is found where it is declared. -/
theorem findLabel_eq_landing {l : Label} {b : BlockId} (h : findLabel table l = .ok b) :
    b = landing ss l := by
  obtain ⟨rest, hjump, front, hsplit, rfl⟩ := stands_of_jump htable h
  rcases Layout.jump_cases ss l with ⟨-, hlost⟩ | ⟨rest', hrest', hhere⟩
  · rw [hlost] at hjump
    cases hjump
  · rw [hhere, Control.here.injEq] at hjump
    subst hjump
    rw [landing, hrest']
    conv => rhs; rw [hsplit]
    exact (place_append ..).symm

theorem departures_eq {rest : List Statement} {s : Statement} {b : BlockId} {es : List Edge}
    (h : departures table b (place ss rest) s = .ok es) :
    es = (exitsOf ss rest s).map fun x => ⟨b, x.2, x.1⟩ := by
  cases s with
  | goto l =>
    obtain ⟨t, ht, h⟩ := bind_eq_ok.mp h
    cases h
    rw [findLabel_eq_landing htable ht]
    rfl
  | branch br =>
    obtain ⟨t, ht, h⟩ := bind_eq_ok.mp h
    obtain ⟨f, hf, h⟩ := bind_eq_ok.mp h
    cases h
    rw [findLabel_eq_landing htable ht, findLabel_eq_landing htable hf]
    rfl
  | _ =>
    cases h
    rfl

theorem allDepartures_eq (front : List Statement) {rest : List Statement} {es : List Edge}
    (hsplit : ss = front ++ rest)
    (h : allDepartures table (2 + front.length) rest = .ok es) : es = edgesFrom ss rest := by
  induction rest generalizing front es with
  | nil =>
    cases h
    rfl
  | cons s rest ih =>
    obtain ⟨own, hown, h⟩ := bind_eq_ok.mp h
    obtain ⟨more, hmore, h⟩ := bind_eq_ok.mp h
    cases h
    have hplace : place ss (s :: rest) = ⟨2 + front.length⟩ := by
      rw [hsplit, place_append]
      rfl
    rw [← place_append_cons, ← hsplit, ← hplace] at hown
    have hnext : ss = (front ++ [s]) ++ rest := by
      rw [hsplit, List.append_assoc]
      rfl
    have hlater : more = edgesFrom ss rest := ih _ hnext (by
      rw [List.length_append, ← Nat.add_assoc]
      exact hmore)
    rw [departures_eq htable hown, hlater]
    rfl

end

/-! ### The whole graph -/

/-- **What a graph drawn from a statement list looks like.** -/
def drawn (name : String) (ss : List Statement) : Graph :=
  ((new name).addStatements ss).addEdges (⟨entry, place ss ss, .always⟩ :: edgesFrom ss ss)

theorem flow_eq_edges {procedure : String} {ss : List Statement} {table : LabelTable}
    (htable : declareLabels procedure 2 [] ss = .ok table) {edges : List Edge}
    (h : flow table (some entry) 2 ss = .ok edges) :
    edges = ⟨entry, place ss ss, .always⟩ :: edgesFrom ss ss := by
  rw [flow_eq] at h
  cases hes : allDepartures table 2 ss with
  | error f =>
    rw [hes] at h
    cases h
  | ok es =>
    rw [hes] at h
    cases h
    have hall := allDepartures_eq htable [] rfl hes
    have hfirst : place ss ss = blockFrom 2 ss := by rw [place, Nat.sub_self]
    rw [hfirst, hall]
    rfl

theorem ofProcedure_eq_drawn {p : Procedure} {g : Graph} (h : ofProcedure p = .ok g) :
    g = drawn p.name p.statements := by
  simp only [ofProcedure, bind_eq_ok] at h
  obtain ⟨table, htable, edges, hedges, h⟩ := h
  rw [eq_of_connectAll h, flow_eq_edges htable hedges]
  rfl

section
variable {g : Graph}

/-- The ways out of a block, in the order of its list. -/
def exits (g : Graph) (b : BlockId) : List (Direction × BlockId) :=
  match g.block? b with
  | none => []
  | some block => block.succs.filterMap fun e =>
      (g.edge? e).map fun edge => (edge.direction, edge.target)

theorem exits_of_block? {b : BlockId} {block : Block} (hb : g.block? b = some block) :
    g.exits b = block.succs.filterMap fun e =>
      (g.edge? e).map fun edge => (edge.direction, edge.target) := by
  rw [exits, hb]

theorem map_fst_exits {b : BlockId} {block : Block} (hb : g.block? b = some block) :
    (g.exits b).map Prod.fst = g.outward block := by
  rw [exits_of_block? hb, List.map_filterMap, outward]
  simp only [Option.map_map, Function.comp_def]

theorem map_snd_exits (g : Graph) (b : BlockId) : (g.exits b).map Prod.snd = g.targets b := by
  rw [exits, targets]
  cases g.block? b with
  | none => rfl
  | some block =>
    simp only [List.map_filterMap, Option.map_map, Function.comp_def]

theorem Listed.mem_exits (hg : g.Listed) {b t : BlockId} {d : Direction} :
    (d, t) ∈ g.exits b ↔ ∃ e, g.edge? e = some ⟨b, t, d⟩ := by
  constructor
  · intro h
    rw [exits] at h
    split at h
    · cases h
    · rename_i block hb
      obtain ⟨e, he, hmap⟩ := List.mem_filterMap.mp h
      obtain ⟨⟨b', t', d'⟩, hedge, heq⟩ := Option.map_eq_some_iff.mp hmap
      cases heq
      obtain rfl : b' = b := hg.source_eq hb he hedge
      exact ⟨e, hedge⟩
  · rintro ⟨e, he⟩
    obtain ⟨block, hb⟩ : ∃ block, g.block? b = some block := hg.source_live he
    rw [exits_of_block? hb]
    exact List.mem_filterMap.mpr ⟨e, (hg.mem_succs hb e).mpr ⟨_, he, rfl⟩, by rw [he]; rfl⟩

theorem Listed.exits_addEdge (hg : g.Listed) {b : BlockId} {block : Block}
    (hb : g.block? b = some block) (edge : Edge) :
    (g.addEdge edge).2.exits b =
      g.exits b ++ if edge.source = b then [(edge.direction, edge.target)] else [] := by
  have hb' : (g.addEdge edge).2.block? b =
      some (block.joined g.headOf (b = edge.source) (b = edge.target)) := by
    rw [block?_addEdge, hb]
    rfl
  have hold : block.succs.filterMap (fun e => ((g.addEdge edge).2.edge? e).map
      fun edge => (edge.direction, edge.target)) = g.exits b := by
    rw [exits_of_block? hb]
    refine List.filterMap_congr fun e he => ?_
    have hne : e ≠ ⟨g.edges.size⟩ := fun heq =>
      hg.notMem_succs hb g.edge?_fresh (heq ▸ he)
    rw [edge?_addEdge, if_neg hne]
  rw [exits_of_block? hb', Block.joined, List.filterMap_append, hold]
  by_cases hs : edge.source = b
  · simp [hs, edge?_addEdge, headOf]
  · simp [hs, Ne.symm hs]

/-- New edges come behind the old ones. -/
theorem Listed.addEdges (hg : g.Listed) (es : List Edge)
    (hes : ∀ edge ∈ es, (∃ block, g.block? edge.source = some block) ∧
      ∃ block, g.block? edge.target = some block) :
    (g.addEdges es).Listed ∧ ∀ {b block}, g.block? b = some block → (g.addEdges es).exits b =
      g.exits b ++ (es.filter (·.source = b)).map fun edge => (edge.direction, edge.target) := by
  induction es generalizing g with
  | nil => exact ⟨hg, fun _ => (List.append_nil _).symm⟩
  | cons edge es ih =>
    obtain ⟨⟨⟨source, hsource⟩, target, htarget⟩, hes⟩ := List.forall_mem_cons.mp hes
    have hlive : ∀ {b}, (∃ block, g.block? b = some block) →
        ∃ block, (g.addEdge edge).2.block? b = some block := by
      rintro b ⟨block, hb⟩
      exact ⟨_, by rw [block?_addEdge, hb]; rfl⟩
    obtain ⟨hlisted, hexits⟩ := ih (hg.addEdge hsource htarget) fun edge' h =>
      ⟨hlive (hes edge' h).1, hlive (hes edge' h).2⟩
    refine ⟨hlisted, fun {b block} hb => ?_⟩
    obtain ⟨block', hb'⟩ := hlive ⟨block, hb⟩
    show ((g.addEdge edge).2.addEdges es).exits b = _
    rw [hexits hb', hg.exits_addEdge hb, List.append_assoc, List.filter_cons]
    by_cases hs : edge.source = b
    · simp [hs]
    · simp [hs]

theorem Listed.addStatements (hg : g.Listed) (ss : List Statement) :
    (g.addStatements ss).Listed := by
  induction ss generalizing g with
  | nil => exact hg
  | cons s ss ih => exact ih (hg.addBlock s.kind)

end

theorem edge?_new (name : String) (e : EdgeId) : (new name).edge? e = none := by
  simp [new, edge?]

theorem block?_new {name : String} {b : BlockId} {block : Block}
    (h : (new name).block? b = some block) :
    block.id = b ∧ block.phis = .empty ∧ block.preds = [] ∧ block.succs = [] := by
  match b with
  | ⟨0⟩ =>
    cases h
    exact ⟨rfl, rfl, rfl, rfl⟩
  | ⟨1⟩ =>
    cases h
    exact ⟨rfl, rfl, rfl, rfl⟩
  | ⟨_ + 2⟩ => cases h

theorem listed_new (name : String) : (new name).Listed where
  id_eq hb := (block?_new hb).1
  mem_succs hb e := by simp [(block?_new hb).2.2.2, edge?_new]
  mem_preds hb e := by simp [(block?_new hb).2.2.1, edge?_new]
  nodup_succs hb := by simp [(block?_new hb).2.2.2]
  nodup_preds hb := by simp [(block?_new hb).2.2.1]
  source_live he := by simp [edge?_new] at he
  target_live he := by simp [edge?_new] at he
  args_enter hb name p hp := by
    rw [(block?_new hb).2.1] at hp
    cases hp

section
variable {name : String} {ss : List Statement}

/-- A block of the graph is terminal, or that of a place. -/
theorem slot_cases {b : BlockId} (h : b.slot < 2 + ss.length) :
    b = entry ∨ b = exit ∨ ∃ front s rest, ss = front ++ s :: rest ∧ b = ⟨2 + front.length⟩ := by
  match b with
  | ⟨0⟩ => exact .inl rfl
  | ⟨1⟩ => exact .inr (.inl rfl)
  | ⟨n + 2⟩ =>
    have hn : n < ss.length := by
      have hlt : n + 2 < 2 + ss.length := h
      omega
    refine .inr (.inr ⟨ss.take n, ss[n], ss.drop (n + 1), ?_, ?_⟩)
    · rw [← List.drop_eq_getElem_cons hn, List.take_append_drop]
    · rw [List.length_take_of_le (Nat.le_of_lt hn), Nat.add_comm 2]

variable (name) in
theorem block?_addStatements_new {b : BlockId} (h : b.slot < 2 + ss.length) :
    ∃ block, ((new name).addStatements ss).block? b = some block ∧ block.succs = [] := by
  rcases slot_cases h with rfl | rfl | ⟨front, s, rest, rfl, rfl⟩
  · exact ⟨_, block?_addStatements_of_lt (g := new name) (by decide : (0 : Nat) < 2), rfl⟩
  · exact ⟨_, block?_addStatements_of_lt (g := new name) (by decide : (1 : Nat) < 2), rfl⟩
  · exact ⟨_, block?_addStatements (g := new name), rfl⟩

/-- The edges that are drawn join blocks of the graph, and lead neither to the entry nor away from
the exit. -/
theorem mem_drawn_edges {edge : Edge}
    (h : edge ∈ (⟨entry, place ss ss, .always⟩ : Edge) :: edgesFrom ss ss) :
    edge.source.slot < 2 + ss.length ∧ edge.target.slot < 2 + ss.length ∧
      edge.source ≠ exit ∧ edge.target ≠ entry := by
  rcases List.mem_cons.mp h with rfl | h
  · obtain ⟨hlt, hne⟩ := place_live (List.suffix_refl ss)
    exact ⟨Nat.lt_of_lt_of_le Nat.two_pos (Nat.le_add_right ..), hlt, nofun, hne⟩
  · obtain ⟨s, rest, hsuffix, hsource, hin⟩ := mem_edgesFrom.mp h
    obtain ⟨hlt, hne⟩ := exitsOf_live hsuffix hin
    rw [hsource]
    refine ⟨(place_live hsuffix).1, hlt, fun heq => ?_, hne⟩
    have hslot : 2 + (ss.length - (rest.length + 1)) = 1 := congrArg BlockId.slot heq
    omega

/-- The edges that are drawn join blocks in use. -/
theorem drawn_edges_live (name : String) {edge : Edge}
    (h : edge ∈ (⟨entry, place ss ss, .always⟩ : Edge) :: edgesFrom ss ss) :
    (∃ block, ((new name).addStatements ss).block? edge.source = some block) ∧
      ∃ block, ((new name).addStatements ss).block? edge.target = some block := by
  obtain ⟨hs, ht, -⟩ := mem_drawn_edges h
  obtain ⟨source, hsource, -⟩ := block?_addStatements_new name hs
  obtain ⟨target, htarget, -⟩ := block?_addStatements_new name ht
  exact ⟨⟨source, hsource⟩, target, htarget⟩

variable (name ss) in
/-- The lists of the graph are in order, and every block has the exits that were drawn. -/
theorem listed_drawn : (drawn name ss).Listed ∧ ∀ {b}, b.slot < 2 + ss.length →
    (drawn name ss).exits b = (((⟨entry, place ss ss, .always⟩ : Edge) :: edgesFrom ss ss).filter
      (·.source = b)).map fun edge => (edge.direction, edge.target) := by
  have hlisted := (listed_new name).addStatements ss
  obtain ⟨hg, hexits⟩ := hlisted.addEdges (⟨entry, place ss ss, .always⟩ :: edgesFrom ss ss)
    fun edge hedge => drawn_edges_live name hedge
  refine ⟨hg, fun {b} hlt => ?_⟩
  obtain ⟨block, hb, hsuccs⟩ := block?_addStatements_new name hlt
  rw [drawn, hexits hb, exits_of_block? hb, hsuccs]
  rfl

theorem kind?_drawn_place {rest : List Statement} {s : Statement} (h : s :: rest <:+ ss) :
    (drawn name ss).kind? (place ss (s :: rest)) = some s.kind := by
  obtain ⟨front, rfl⟩ := h
  rw [drawn, kind?_of_body (body_addEdges ..), place_append]
  exact kind?_of_block? block?_addStatements

theorem kind?_drawn_entry : (drawn name ss).kind? entry = some .entry := by
  rw [drawn, kind?_of_body (body_addEdges ..)]
  exact kind?_of_block? (block?_addStatements_of_lt (g := new name) (by decide : (0 : Nat) < 2))

theorem kind?_drawn_exit : (drawn name ss).kind? exit = some .exit := by
  rw [drawn, kind?_of_body (body_addEdges ..)]
  exact kind?_of_block? (block?_addStatements_of_lt (g := new name) (by decide : (1 : Nat) < 2))

theorem exits_drawn_entry : (drawn name ss).exits entry = [(.always, place ss ss)] := by
  have hother : (edgesFrom ss ss).filter (·.source = entry) = [] := by
    refine List.filter_eq_nil_iff.mpr fun edge hedge hsource => ?_
    obtain ⟨s, rest, hsuffix, hplace, -⟩ := mem_edgesFrom.mp hedge
    exact (place_live hsuffix).2 (hplace.symm.trans (of_decide_eq_true hsource))
  have hlt : entry.slot < 2 + ss.length := Nat.lt_of_lt_of_le Nat.two_pos (Nat.le_add_right ..)
  rw [(listed_drawn name ss).2 hlt, List.filter_cons_of_pos (by simp), hother]
  rfl

theorem exits_drawn_exit : (drawn name ss).exits exit = [] := by
  have hlt : exit.slot < 2 + ss.length := Nat.lt_of_lt_of_le Nat.one_lt_two (Nat.le_add_right ..)
  rw [(listed_drawn name ss).2 hlt, List.map_eq_nil_iff, List.filter_eq_nil_iff]
  exact fun edge hedge hsource => (mem_drawn_edges hedge).2.2.1 (of_decide_eq_true hsource)

/-- **What leaves the block of a statement.** -/
theorem exits_drawn_place {rest : List Statement} {s : Statement} (h : s :: rest <:+ ss) :
    (drawn name ss).exits (place ss (s :: rest)) = exitsOf ss rest s := by
  have hfirst : entry ≠ place ss (s :: rest) := Ne.symm (place_live h).2
  rw [(listed_drawn name ss).2 (place_live h).1, List.filter_cons_of_neg (by simpa using hfirst),
    filter_edgesFrom (List.suffix_refl _) h, List.map_map]
  exact List.map_id _

/-- A block that is in use has the slot of a terminal block or of a statement. -/
theorem slot_lt_of_drawn {b : BlockId} {block : Block} (h : (drawn name ss).block? b = some block) :
    b.slot < 2 + ss.length := by
  have hbody := body_addEdges ((new name).addStatements ss)
    (⟨entry, place ss ss, .always⟩ :: edgesFrom ss ss) b
  rw [← drawn, h, Option.map_some, eq_comm, Option.map_eq_some_iff] at hbody
  obtain ⟨block', hb', -⟩ := hbody
  have hlt := slot_lt_of_block? hb'
  rwa [size_addStatements] at hlt

/-- Every block has the exits that its kind demands, in order. -/
theorem outward_drawn {b : BlockId} {block : Block} (h : (drawn name ss).block? b = some block) :
    (drawn name ss).outward block = block.kind.directions := by
  have hk := kind?_of_block? h
  rw [← map_fst_exits h]
  rcases slot_cases (slot_lt_of_drawn h) with rfl | rfl | ⟨front, s, rest, hsplit, hb⟩
  · rw [kind?_drawn_entry, Option.some.injEq] at hk
    rw [exits_drawn_entry, ← hk]
    rfl
  · rw [kind?_drawn_exit, Option.some.injEq] at hk
    rw [exits_drawn_exit, ← hk]
    rfl
  · have hsuffix : s :: rest <:+ ss := ⟨front, hsplit.symm⟩
    obtain rfl : b = place ss (s :: rest) := by
      rw [hb, hsplit, place_append]
      rfl
    rw [kind?_drawn_place hsuffix, Option.some.injEq] at hk
    rw [exits_drawn_place hsuffix, map_fst_exitsOf, hk]

/-- **A graph drawn from statements** passes the structural check. -/
theorem wired_drawn : (drawn name ss).Wired := by
  obtain ⟨hg, hexits⟩ := listed_drawn name ss
  have hedge : ∀ {e edge}, (drawn name ss).edge? e = some edge →
      edge ∈ (⟨entry, place ss ss, .always⟩ : Edge) :: edgesFrom ss ss := by
    rintro e ⟨b, t, d⟩ he
    obtain ⟨block, hb⟩ : ∃ block, (drawn name ss).block? b = some block := hg.source_live he
    have hin := hg.mem_exits.mpr ⟨e, he⟩
    rw [hexits (slot_lt_of_drawn hb)] at hin
    obtain ⟨⟨b', t', d'⟩, hmem, heq⟩ := List.mem_map.mp hin
    cases heq
    obtain ⟨hmem', hsource⟩ := List.mem_filter.mp hmem
    obtain rfl : b' = b := of_decide_eq_true hsource
    exact hmem'
  have hways : ∀ {b k}, (drawn name ss).kind? b = some k →
      (∀ d, (∃ e t, (drawn name ss).edge? e = some ⟨b, t, d⟩) ↔ d ∈ k.directions) ∧
      ∀ {d e e' t t'}, (drawn name ss).edge? e = some ⟨b, t, d⟩ →
        (drawn name ss).edge? e' = some ⟨b, t', d⟩ → e = e' := by
    intro b k hk
    obtain ⟨block, hb, rfl⟩ := block?_of_kind? hk
    exact (hg.outward_perm_iff hb (Kind.nodup_directions _)).mp (.of_eq (outward_drawn hb))
  exact { hg with
    entry_kind := kind?_drawn_entry
    entry_closed := fun he => (mem_drawn_edges (hedge he)).2.2.2
    exit_kind := kind?_drawn_exit
    exit_closed := fun he => (mem_drawn_edges (hedge he)).2.2.1
    ways := fun hk _ => (hways hk).1
    one_way := fun hk _ => (hways hk).2 }

end

/-- **The graph of a procedure is well-formed.** -/
theorem WellFormed.ofProcedure {p : Procedure} {g : Graph} (h : ofProcedure p = .ok g) :
    g.WellFormed :=
  wellFormed_of_ofProcedure h (ofProcedure_eq_drawn h ▸ wired_drawn)

/-! ### Which procedures have a graph -/

section
variable {p : Procedure}

/-- A label that is declared again is found first, whatever else is wrong. -/
theorem ofProcedure_of_repeated {front rest : List Statement} {l : Label}
    (hsplit : p.statements = front ++ .label l :: rest) (hnodup : (declared front).Nodup)
    (hl : l ∈ declared front) : ofProcedure p = .error (.duplicateLabel l p.name) := by
  rw [ofProcedure, hsplit, declareLabels_eq_error p.name 2 hnodup hl]
  rfl

variable (hnodup : (declared p.statements).Nodup)
include hnodup

theorem ofProcedure_of_undeclared {l : Label}
    (h : (p.statements.flatMap Statement.targets).find? (· ∉ declared p.statements) = some l) :
    ofProcedure p = .error (.undeclaredLabel l) := by
  obtain ⟨table, htable, hknown⟩ := declareLabels_eq_ok p.name 2 hnodup
  rw [ofProcedure, bind_of_ok htable, flow_eq, allDepartures_eq_error hknown h]
  rfl

theorem ofProcedure_eq_ok
    (h : ∀ l ∈ p.statements.flatMap Statement.targets, l ∈ declared p.statements) :
    ofProcedure p = .ok (drawn p.name p.statements) := by
  obtain ⟨table, htable, hknown⟩ := declareLabels_eq_ok p.name 2 hnodup
  obtain ⟨es, hes⟩ := exists_allDepartures hknown 2 h
  obtain ⟨edges, hedges⟩ : ∃ edges, flow table (some entry) 2 p.statements = .ok edges := by
    rw [flow_eq, hes]
    exact ⟨_, rfl⟩
  rw [ofProcedure, bind_of_ok htable, bind_of_ok hedges, flow_eq_edges htable hedges]
  exact connectAll_eq fun edge hedge => drawn_edges_live p.name hedge

end

end Graph
end FlowGraph
