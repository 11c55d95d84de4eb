import FlowGraph.Proofs.Paths
import Mathlib.Data.List.TakeWhile

/-! # The graph of a procedure is in step with the procedure

Statement `i` has block `i + 2`, and a walk through the graph moves whenever the list moves: after
one move more, because of the entry, it is at the block of the place that the list has come to.
Both follow the same outcomes, and a return is passed by.
-/
namespace FlowGraph

variable {P Q V : Type}

/-- The same control in other places. -/
def Control.map (f : P → Q) : Control P → Control Q
  | .here p => .here (f p)
  | .ended e => .ended e

/-- The same moment in other places. -/
def Moment.map (f : P → Q) (t : Moment P V) : Moment Q V := ⟨t.control.map f, t.memory⟩

theorem Moment.map_eq_here {f : P → Q} {t : Moment P V} {q : Q} {m : Memory V} :
    t.map f = ⟨.here q, m⟩ ↔ ∃ p, t = ⟨.here p, m⟩ ∧ f p = q := by
  obtain ⟨p | e, u⟩ := t
  · simp [Moment.map, Control.map, and_comm, eq_comm]
  · simp [Moment.map, Control.map]

namespace System

variable {S S' : System V} {keeps : S.Place → Prop}

/-- **Runs in step.**  Where each move of one system is a move of another between the places that
belong to its places, so is each run. -/
theorem steps_map {f : S.Place → S'.Place}
    (hmoves : ∀ {p m q m'}, keeps p → S.move p m = ⟨.here q, m'⟩ → keeps q)
    (hstep : ∀ {p} m, keeps p → S'.move (f p) m = (S.move p m).map f) (n : Nat) {p : S.Place}
    (hp : keeps p) (m : Memory V) :
    steps S'.next n ⟨.here (f p), m⟩ = (steps S.next n ⟨.here p, m⟩).map (Moment.map f) := by
  induction n generalizing p m with
  | zero => rfl
  | succ n ih =>
    rw [steps_here, steps_here, hstep m hp]
    rcases hmove : S.move p m with ⟨⟨q⟩ | ⟨e⟩, m'⟩
    · exact ih (hmoves hp hmove) m'
    · cases n <;> rfl

end System

namespace Layout

/-- A jump to a label that is declared leads to the declaration. -/
theorem jump_of_declared {ss : List Statement} {l : Label} (h : l ∈ declared ss) :
    jump ss l = .here (ss.dropWhile (· ≠ .label l)) := by
  rcases jump_cases ss l with ⟨hnil, -⟩ | ⟨rest, hdrop, hjump⟩
  · have hnot := List.dropWhile_eq_nil_iff.mp hnil _ (mem_declared_iff.mp h)
    simp at hnot
  · rw [hjump, hdrop]

/-- **Where the list goes, the graph has an edge**: behind a statement, or to the label of a jump.
-/
theorem exists_onward {M : Manner V} (hstops : M.stops = false) {ss rest : List Statement}
    {s : Statement} (h : s :: rest <:+ ss) (hs : ∀ l ∈ s.targets, l ∈ declared ss) (m : Memory V) :
    ∃ rest', M.onward ss m rest s = .here rest' ∧ rest' <:+ ss ∧
      (M.way m s.kind, Graph.place ss rest') ∈ Graph.exitsOf ss rest s := by
  have hrest : rest <:+ ss := (List.suffix_cons ..).trans h
  cases s with
  | ret x => exact ⟨rest, M.onward_passes hstops, hrest, List.mem_singleton.mpr rfl⟩
  | goto l =>
    have hl : l ∈ declared ss := hs l List.mem_cons_self
    exact ⟨_, jump_of_declared hl, List.dropWhile_suffix _, List.mem_singleton.mpr rfl⟩
  | branch br =>
    cases houtcome : M.outcome br.cond m with
    | true =>
      have hl : br.ifTrue ∈ declared ss := hs _ List.mem_cons_self
      refine ⟨_, ?_, List.dropWhile_suffix (· ≠ .label br.ifTrue), ?_⟩
      · rw [Manner.onward, houtcome]
        exact jump_of_declared hl
      · rw [Statement.kind, Manner.way, houtcome]
        exact List.mem_cons_self
    | false =>
      have hl : br.ifFalse ∈ declared ss := hs _ (List.mem_cons_of_mem _ List.mem_cons_self)
      refine ⟨_, ?_, List.dropWhile_suffix (· ≠ .label br.ifFalse), ?_⟩
      · rw [Manner.onward, houtcome]
        exact jump_of_declared hl
      · rw [Statement.kind, Manner.way, houtcome]
        exact List.mem_cons_of_mem _ List.mem_cons_self
  | _ => exact ⟨rest, rfl, hrest, List.mem_singleton.mpr rfl⟩

end Layout

namespace Graph

open Layout (declared)

/-! ### Places by number -/

/-- The block of a place in a statement list, by number.  Behind the last statement is the exit. -/
def blockAt (ss : List Statement) (i : Nat) : BlockId := if i < ss.length then ⟨i + 2⟩ else exit

/-- **The numbers of the places where control can go** from statement `i`, with the directions. -/
def waysAt (ss : List Statement) (i : Nat) : Statement → List (Direction × Nat)
  | .goto l => [(.always, ss.idxOf (.label l))]
  | .branch br => [(.onTrue, ss.idxOf (.label br.ifTrue)), (.onFalse, ss.idxOf (.label br.ifFalse))]
  | _ => [(.always, i + 1)]

/-- The edges out of the statements from number `i` on. -/
def edgesAt (ss : List Statement) (i : Nat) (rest : List Statement) : List Edge :=
  (rest.zipIdx i).flatMap fun x => (waysAt ss x.2 x.1).map fun way =>
    ⟨⟨x.2 + 2⟩, blockAt ss way.2, way.1⟩

section
variable {ss : List Statement}

theorem place_drop (ss : List Statement) (i : Nat) : place ss (ss.drop i) = blockAt ss i := by
  by_cases hi : i < ss.length
  · rw [place, blockAt, if_pos hi, List.drop_eq_getElem_cons hi,
      blockFrom, ← List.drop_eq_getElem_cons hi, List.length_drop]
    congr 1
    omega
  · rw [blockAt, if_neg hi, List.drop_eq_nil_of_le (Nat.le_of_not_lt hi)]
    rfl

/-- Different places have different blocks. -/
theorem drop_eq_of_blockAt_eq {i j : Nat} (h : blockAt ss i = blockAt ss j) :
    ss.drop i = ss.drop j := by
  unfold blockAt at h
  split at h <;> split at h
  · obtain rfl : i = j := Nat.add_right_cancel (congrArg BlockId.slot h)
    rfl
  · exact absurd (congrArg BlockId.slot h) (Nat.succ_ne_succ_iff.mpr (Nat.succ_ne_zero i))
  · exact absurd (congrArg BlockId.slot h).symm (Nat.succ_ne_succ_iff.mpr (Nat.succ_ne_zero j))
  · rename_i hi hj
    rw [List.drop_eq_nil_of_le (Nat.le_of_not_lt hi), List.drop_eq_nil_of_le (Nat.le_of_not_lt hj)]

theorem landing_eq_blockAt (ss : List Statement) (l : Label) :
    landing ss l = blockAt ss (ss.idxOf (.label l)) := by
  have hdrop : ss.dropWhile (· ≠ .label l) = ss.drop (ss.idxOf (.label l)) := by
    have hnot : (fun s : Statement => !decide (s ≠ .label l)) = (· == .label l) := by
      funext s
      by_cases hs : s = .label l <;> simp [hs]
    rw [List.dropWhile_eq_drop_findIdx_not, hnot, List.idxOf]
  rw [landing, hdrop, place_drop]

theorem exitsOf_drop (ss : List Statement) (i : Nat) (s : Statement) :
    exitsOf ss (ss.drop (i + 1)) s = (waysAt ss i s).map fun way => (way.1, blockAt ss way.2) := by
  cases s <;> simp [exitsOf, waysAt, landing_eq_blockAt, place_drop]

/-- The edges, statement by statement, are those between the places. -/
theorem edgesFrom_eq_edgesAt {i : Nat} {rest : List Statement} (h : ss.drop i = rest) :
    edgesFrom ss rest = edgesAt ss i rest := by
  induction rest generalizing i with
  | nil => rfl
  | cons s rest ih =>
    have hi : i < ss.length := by
      refine Nat.lt_of_not_le fun hle => ?_
      rw [List.drop_eq_nil_of_le hle] at h
      cases h
    have hrest : ss.drop (i + 1) = rest := by rw [← List.tail_drop, h, List.tail_cons]
    have hplace : place ss (s :: rest) = ⟨i + 2⟩ := by rw [← h, place_drop, blockAt, if_pos hi]
    have hexits := exitsOf_drop ss i s
    rw [hrest] at hexits
    rw [edgesFrom, hexits, hplace, ih hrest, List.map_map]
    rfl

theorem edges_addStatements (g : Graph) (ss : List Statement) :
    (g.addStatements ss).edges = g.edges := by
  induction ss generalizing g with
  | nil => rfl
  | cons s ss ih => exact ih _

theorem edges_addEdges (g : Graph) (es : List Edge) :
    (g.addEdges es).edges.toList = g.edges.toList ++ es.map some := by
  induction es generalizing g with
  | nil => simp [addEdges]
  | cons edge es ih =>
    have hpush : (g.addEdge edge).2.edges = g.edges.push (some edge) := rfl
    refine (ih _).trans ?_
    rw [hpush]
    simp

end

/-! ### Walks -/

section
variable {name : String} {ss : List Statement} (hg : (drawn name ss).WellFormed)
  (hdeclared : ∀ l ∈ ss.flatMap Statement.targets, l ∈ declared ss)
include hdeclared

theorem exists_move {M : Manner V} (hstops : M.stops = false) {rest : List Statement}
    {s : Statement} (h : s :: rest <:+ ss) (m : Memory V) :
    ∃ rest', (Layout.systemBy M ss).move (s :: rest) m = ⟨.here rest', M.perform m s.kind⟩ ∧
      rest' <:+ ss ∧ (M.way m s.kind, place ss rest') ∈ exitsOf ss rest s := by
  have hs : ∀ l ∈ s.targets, l ∈ declared ss := fun l hl =>
    hdeclared l (List.mem_flatMap.mpr ⟨s, h.subset List.mem_cons_self, hl⟩)
  obtain ⟨rest', honward, hsuffix, hexit⟩ := Layout.exists_onward hstops h hs m
  exact ⟨rest', Layout.moveBy_cons honward, hsuffix, hexit⟩

/-- The list stays within its statements. -/
theorem suffix_of_move {M : Manner V} (hstops : M.stops = false) {rest rest' : List Statement}
    {m m' : Memory V} (h : rest <:+ ss)
    (hmove : (Layout.systemBy M ss).move rest m = ⟨.here rest', m'⟩) : rest' <:+ ss := by
  cases rest with
  | nil => cases hmove
  | cons s rest =>
    obtain ⟨next, hnext, hsuffix, -⟩ := exists_move hdeclared hstops h m
    cases hnext.symm.trans hmove
    exact hsuffix

include hg

/-- **One move of the list is one move of the graph.** -/
theorem move_place {M : Manner V} (hstops : M.stops = false) {rest : List Statement} (m : Memory V)
    (h : rest <:+ ss) :
    ((drawn name ss).systemBy M).move (place ss rest) m =
      ((Layout.systemBy M ss).move rest m).map (place ss) := by
  cases rest with
  | nil => exact moveBy_exit kind?_drawn_exit
  | cons s rest =>
    obtain ⟨next, hnext, -, hexit⟩ := exists_move hdeclared hstops h m
    obtain ⟨e, he⟩ := hg.listed.mem_exits.mp ((exits_drawn_place h).symm ▸ hexit)
    rw [hnext]
    exact hg.moveBy_edge (kind?_drawn_place h) (by rw [hstops, Bool.and_false]) he

/-- **A walk from the entry is in step with the list**, after one move. -/
theorem steps_drawn {M : Manner V} (hstops : M.stops = false) (n : Nat) (m : Memory V) :
    steps ((drawn name ss).systemBy M).next (n + 1) ⟨.here entry, m⟩ =
      (steps (Layout.systemBy M ss).next n ⟨.here ss, m⟩).map (Moment.map (place ss)) := by
  obtain ⟨e, he⟩ : ∃ e, (drawn name ss).edge? e = some ⟨entry, place ss ss, .always⟩ := by
    refine hg.listed.mem_exits.mp ?_
    rw [exits_drawn_entry]
    exact List.mem_singleton.mpr rfl
  have hfirst : (drawn name ss).moveBy M entry m = ⟨.here (place ss ss), m⟩ :=
    hg.moveBy_edge kind?_drawn_entry rfl he
  refine (congrArg (steps ((drawn name ss).systemBy M).next n) hfirst).trans ?_
  exact System.steps_map (suffix_of_move hdeclared hstops) (move_place hg hdeclared hstops) n
    (List.suffix_refl ss) m

/-- **A walk is at the block of a place when the list is at the place.** -/
theorem steps_drawn_eq_iff {M : Manner V} (hstops : M.stops = false) {n i : Nat} {m m' : Memory V} :
    steps ((drawn name ss).systemBy M).next (n + 1) ⟨.here entry, m⟩ =
    some ⟨.here (blockAt ss i), m'⟩ ↔
      steps (Layout.systemBy M ss).next n ⟨.here ss, m⟩ = some ⟨.here (ss.drop i), m'⟩ := by
  have hstep := steps_drawn hg hdeclared hstops n m
  constructor
  · intro h
    obtain ⟨t, ht, hmap⟩ := Option.map_eq_some_iff.mp (hstep.symm.trans h)
    obtain ⟨rest, rfl, hplace⟩ := Moment.map_eq_here.mp hmap
    have hsuffix : rest <:+ ss :=
      System.keeps_steps (suffix_of_move hdeclared hstops) (List.suffix_refl ss) ht
    have hdrop := List.suffix_iff_eq_drop.mp hsuffix
    rw [hdrop, place_drop] at hplace
    obtain rfl : rest = ss.drop i := hdrop.trans (drop_eq_of_blockAt_eq hplace)
    exact ht
  · intro h
    refine hstep.trans (Option.map_eq_some_iff.mpr ⟨_, h, ?_⟩)
    exact Moment.map_eq_here.mpr ⟨_, rfl, place_drop ss i⟩

omit hg in
/-- The list ends by running off its end, and in no other way. -/
theorem steps_list_eq_ended_iff {M : Manner V} (hstops : M.stops = false) {n : Nat} {e : Ending}
    {m m' : Memory V} :
    steps (Layout.systemBy M ss).next (n + 1) ⟨.here ss, m⟩ = some ⟨.ended e, m'⟩ ↔
      e = .ranOff ∧ steps (Layout.systemBy M ss).next n ⟨.here ss, m⟩ = some ⟨.here [], m'⟩ := by
  constructor
  · intro h
    obtain ⟨rest, u, hrest, hmove⟩ := System.exists_move_of_ended h
    have hsuffix : rest <:+ ss :=
      System.keeps_steps (suffix_of_move hdeclared hstops) (List.suffix_refl ss) hrest
    cases rest with
    | nil =>
      cases hmove
      exact ⟨rfl, hrest⟩
    | cons s rest =>
      obtain ⟨next, hnext, -⟩ := exists_move hdeclared hstops hsuffix u
      cases hnext.symm.trans hmove
  · rintro ⟨rfl, h⟩
    rw [steps_next, h]
    rfl

end

/-! ### In step -/

/-- A walk from the entry after some moves, if it goes on that long.  The tests have the given
outcomes. -/
def follow (g : Graph) (outcomes : Nat → Bool) (σ : Store Deed) (n : Nat) :
    Option (Moment BlockId Deed) :=
  steps (g.systemBy (.path outcomes)).next n ⟨.here entry, ⟨σ, []⟩⟩

end Graph

/-- A statement list from its beginning after some moves, if it goes on that long.  The tests have
the given outcomes. -/
def Layout.follow (ss : List Statement) (outcomes : Nat → Bool) (σ : Store Deed) (n : Nat) :
    Option (Moment (List Statement) Deed) :=
  steps (Layout.systemBy (.path outcomes) ss).next n ⟨.here ss, ⟨σ, []⟩⟩

/-- **A graph in step with a statement list.**  Statement `i` has block `i + 2`. -/
structure Graph.InStep (g : Graph) (ss : List Statement) : Prop where
  wellFormed : g.WellFormed
  phiFree : g.PhiFree
  size_blocks : g.blocks.size = ss.length + 2
  empty_kind : ∀ {i l}, ss[i]? = some (.label l) ∨ ss[i]? = some (.goto l) →
    g.kind? ⟨i + 2⟩ = some .empty
  branch_kind : ∀ {i br}, ss[i]? = some (.branch br) → g.kind? ⟨i + 2⟩ = some (.branch br)
  statement_kind : ∀ {i s}, ss[i]? = some s → (∀ l, s ≠ .label l ∧ s ≠ .goto l) →
    (∀ br, s ≠ .branch br) → g.kind? ⟨i + 2⟩ = some (.statement s)
  /-- There are the edges between the places of the list, in their order, and no others. -/
  edges_eq : g.edges.toList =
    ((⟨entry, blockAt ss 0, .always⟩ : Edge) :: edgesAt ss 0 ss).map some
  /-- The walk is at the block of a statement whenever the list is at the statement, one move later
  and having done the same. -/
  visits_iff : ∀ outcomes σ n m {i}, i < ss.length →
    (g.follow outcomes σ (n + 1) = some ⟨.here ⟨i + 2⟩, m⟩ ↔
      Layout.follow ss outcomes σ n = some ⟨.here (ss.drop i), m⟩)
  /-- The walk is at the exit when the list has run off its end. -/
  exit_iff : ∀ outcomes σ n m, g.follow outcomes σ (n + 1) = some ⟨.here exit, m⟩ ↔
    Layout.follow ss outcomes σ (n + 1) = some ⟨.ended .ranOff, m⟩
  /-- There is no other way in which the list ends. -/
  ranOff_of_ended : ∀ {outcomes σ n ending m},
    Layout.follow ss outcomes σ n = some ⟨.ended ending, m⟩ → ending = .ranOff

namespace Graph

section
variable {name : String} {ss : List Statement}

theorem kind?_drawn_of_getElem? {i : Nat} {s : Statement} (h : ss[i]? = some s) :
    (drawn name ss).kind? ⟨i + 2⟩ = some s.kind := by
  obtain ⟨hi, rfl⟩ := List.getElem?_eq_some_iff.mp h
  have hdrop := List.drop_eq_getElem_cons hi
  have hplace : place ss (ss[i] :: ss.drop (i + 1)) = ⟨i + 2⟩ := by
    rw [← hdrop, place_drop, blockAt, if_pos hi]
  rw [← hplace]
  exact kind?_drawn_place (hdrop ▸ List.drop_suffix i ss)

theorem edges_drawn (name : String) (ss : List Statement) : (drawn name ss).edges.toList =
    ((⟨entry, blockAt ss 0, .always⟩ : Edge) :: edgesAt ss 0 ss).map some := by
  have hfirst : place ss ss = blockAt ss 0 := place_drop ss 0
  rw [drawn, edges_addEdges, edges_addStatements, edgesFrom_eq_edgesAt List.drop_zero, hfirst]
  rfl

theorem size_blocks_addEdges (g : Graph) (es : List Edge) :
    (g.addEdges es).blocks.size = g.blocks.size := by
  induction es generalizing g with
  | nil => rfl
  | cons edge es ih => exact (ih _).trans (size_blocks_addEdge g edge)

theorem InStep.drawn (hg : (drawn name ss).WellFormed) (hp : (drawn name ss).PhiFree)
    (hdeclared : ∀ l ∈ ss.flatMap Statement.targets, l ∈ Layout.declared ss) :
    (Graph.drawn name ss).InStep ss where
  wellFormed := hg
  phiFree := hp
  size_blocks := by
    rw [Graph.drawn, size_blocks_addEdges, size_addStatements, Nat.add_comm]
    rfl
  empty_kind := by
    rintro i l (h | h)
    · exact kind?_drawn_of_getElem? h
    · exact kind?_drawn_of_getElem? h
  branch_kind := kind?_drawn_of_getElem?
  statement_kind := by
    intro i s h hjump hbranch
    have hkind : s.kind = .statement s := by
      cases s with
      | label l => exact absurd rfl (hjump l).1
      | goto l => exact absurd rfl (hjump l).2
      | branch br => exact absurd rfl (hbranch br)
      | _ => rfl
    rw [← hkind]
    exact kind?_drawn_of_getElem? h
  edges_eq := edges_drawn name ss
  visits_iff := by
    intro outcomes σ n m i hi
    have hblock : blockAt ss i = ⟨i + 2⟩ := if_pos hi
    rw [← hblock]
    exact steps_drawn_eq_iff hg hdeclared rfl
  exit_iff := by
    intro outcomes σ n m
    -- Behind the last statement stands the exit, and a list that has run out ends one step later.
    have hblock : blockAt ss ss.length = exit := if_neg (Nat.lt_irrefl _)
    have hplace : ss.drop ss.length = [] := List.drop_length
    have hwalk : (Graph.drawn name ss).follow outcomes σ (n + 1) =
        some ⟨.here (blockAt ss ss.length), m⟩ ↔
        Layout.follow ss outcomes σ n = some ⟨.here (ss.drop ss.length), m⟩ :=
      steps_drawn_eq_iff hg hdeclared rfl
    have hended : Layout.follow ss outcomes σ (n + 1) = some ⟨.ended .ranOff, m⟩ ↔
        Ending.ranOff = .ranOff ∧ Layout.follow ss outcomes σ n = some ⟨.here [], m⟩ :=
      steps_list_eq_ended_iff hdeclared rfl
    rw [hblock, hplace] at hwalk
    rw [hwalk, hended, and_iff_right rfl]
  ranOff_of_ended := by
    intro outcomes σ n ending m h
    cases n with
    | zero => cases h
    | succ n => exact ((steps_list_eq_ended_iff hdeclared rfl).mp h).1

end
end Graph

/-- **The graph of a procedure is in step with it**, if every label is declared once and the jumps
are to labels that are declared. -/
theorem Routine.ofProcedure_inStep {p : Procedure} (hnodup : (Layout.declared p.statements).Nodup)
    (hdeclared : ∀ l ∈ p.statements.flatMap Statement.targets, l ∈ Layout.declared p.statements) :
    ∃ r, (Routine.ofProcedure p).outcome = .ok r ∧ r.graph.InStep p.statements := by
  have hok := Graph.ofProcedure_eq_ok hnodup hdeclared
  exact ⟨_, Routine.ofProcedure_of_ok hok,
    .drawn (.ofProcedure hok) (Graph.phiFree_of_ofProcedure hok) hdeclared⟩

/-- A return that is passed by, a branch to one label whatever the outcome, statements that are not
reached, and labels at both ends. -/
def Procedure.meander : Procedure where
  name := "meander"
  statements := [.label "top", .ret (.var (.plain "n")), .branch ⟨.plain "more", "on", "on"⟩,
    .eval (.call "skip" []), .label "on", .branch ⟨.plain "again", "top", "out"⟩, .goto "top",
    .label "out"]

/-- Back to the top once, and then to the exit. -/
theorem Routine.ofProcedure_inStep_meander :
    (Layout.declared Procedure.meander.statements).Nodup ∧
    ∃ r, (Routine.ofProcedure .meander).outcome = .ok r ∧
      (∀ σ, ∃ m, r.graph.follow (· = 1) σ 6 = some ⟨.here ⟨2⟩, m⟩) ∧
      ∀ σ, ∃ m, r.graph.follow (· = 1) σ 12 = some ⟨.here Graph.exit, m⟩ := by
  have hnodup : (Layout.declared Procedure.meander.statements).Nodup := by decide
  obtain ⟨r, hok, hstep⟩ := ofProcedure_inStep hnodup (by decide)
  refine ⟨hnodup, r, hok, fun σ => ?_, fun σ => ?_⟩
  · exact ⟨_, (hstep.visits_iff _ σ 5 _ (by decide)).mpr rfl⟩
  · exact ⟨_, (hstep.exit_iff _ σ 11 _).mpr rfl⟩

end FlowGraph
