import FlowGraph.Proofs.Behaviour
import FlowGraph.Proofs.ConversionMeaning

/-! # The graph of a procedure behaves like the procedure

Statement `i` has the block in slot `i + 2`, so a place in the statement list and a block belong
together, and at such a pair list and graph move in step.  A jump leads to the declaration of its
label on both sides: a label has one declaration, and its block is the one that the table of labels
holds.
-/
namespace FlowGraph

/-- What is in a block, its lists of edges apart. -/
def Block.body (b : Block) : Kind × Phis := (b.kind, b.phis)

theorem Statement.defs_kind (s : Statement) : s.kind.defs = s.defs := by cases s <;> rfl

theorem Statement.uses_kind (s : Statement) : s.kind.uses = s.uses := by cases s <;> rfl

/-- **Blocks hold no statements that direct control**: what these say is in the edges. -/
def Graph.Straight (g : Graph) : Prop :=
  ∀ ⦃b s⦄, g.kind? b = some (.statement s) → s.kind = .statement s

/-- The variables of a procedure. -/
def Procedure.occurrences (p : Procedure) : List Var :=
  p.statements.flatMap fun s => s.defs ++ s.uses

namespace Graph

/-! ### Labels -/

/-- What the table of labels holds is the place of the first declaration. -/
theorem declareLabels_spec {procedure : String} {ss : List Statement} {slot : Nat}
    {table table' : LabelTable} (h : declareLabels procedure slot table ss = .ok table') {l : Label}
    {b : BlockId} (hl : table'.lookup l = some b) :
    table.lookup l = some b ∨ table.lookup l = none ∧ ∃ front rest,
      ss = front ++ .label l :: rest ∧ .label l ∉ front ∧ b = ⟨slot + front.length⟩ := by
  induction ss generalizing slot table with
  | nil =>
    cases h
    exact .inl hl
  | cons s ss ih =>
    -- A statement that declares nothing changes nothing.
    have hskip : s ≠ .label l → (table.lookup l = some b ∨ table.lookup l = none ∧ ∃ front rest,
        ss = front ++ .label l :: rest ∧ .label l ∉ front ∧ b = ⟨slot + 1 + front.length⟩) →
        table.lookup l = some b ∨ table.lookup l = none ∧ ∃ front rest,
          s :: ss = front ++ .label l :: rest ∧ .label l ∉ front ∧ b = ⟨slot + front.length⟩ := by
      rintro hs (hin | ⟨hnone, front, rest, rfl, hnot, rfl⟩)
      · exact .inl hin
      · refine .inr ⟨hnone, s :: front, rest, rfl, ?_, ?_⟩
        · exact List.not_mem_cons_of_ne_of_not_mem (Ne.symm hs) hnot
        · rw [List.length_cons, Nat.add_assoc, Nat.add_comm 1]
    cases s with
    | label name =>
      rw [declareLabels] at h
      split at h
      · cases h
      · rename_i hnew
        have hnone : table.lookup name = none := Option.not_isSome_iff_eq_none.mp hnew
        by_cases hname : name = l
        · subst hname
          rcases ih h with hin | ⟨hnone', -⟩
          · rw [List.lookup_cons_self] at hin
            cases hin
            exact .inr ⟨hnone, [], ss, rfl, List.not_mem_nil, rfl⟩
          · rw [List.lookup_cons_self] at hnone'
            cases hnone'
        · have hne : (l == name) = false := beq_false_of_ne (Ne.symm hname)
          have hcons : ((name, (⟨slot⟩ : BlockId)) :: table).lookup l = table.lookup l := by
            rw [List.lookup_cons, hne]
          have := ih h
          rw [hcons] at this
          exact hskip (fun heq => hname (Statement.label.inj heq)) this
    | _ => exact hskip nofun (ih h)

/-- Control that falls into some statements gets here. -/
def blockFrom (slot : Nat) : List Statement → BlockId
  | [] => exit
  | _ :: _ => ⟨slot⟩

/-- Where the edges of a statement lead, in front of the block `next`. -/
def Flows (table : LabelTable) (edges : List Edge) (b next : BlockId) : Statement → Prop
  | .goto l => ∃ t, findLabel table l = .ok t ∧ ⟨b, t, .always⟩ ∈ edges
  | .branch br => ∃ t f, findLabel table br.ifTrue = .ok t ∧ findLabel table br.ifFalse = .ok f ∧
      ⟨b, t, .onTrue⟩ ∈ edges ∧ ⟨b, f, .onFalse⟩ ∈ edges
  | _ => ⟨b, next, .always⟩ ∈ edges

theorem Flows.mono {table : LabelTable} {es es' : List Edge} (hsub : ∀ e ∈ es, e ∈ es')
    {b next : BlockId} {s : Statement} (h : Flows table es b next s) :
    Flows table es' b next s := by
  cases s with
  | goto l =>
    obtain ⟨t, ht, he⟩ := h
    exact ⟨t, ht, hsub _ he⟩
  | branch br =>
    obtain ⟨t, f, ht, hf, he, he'⟩ := h
    exact ⟨t, f, ht, hf, hsub _ he, hsub _ he'⟩
  | _ => exact hsub _ h

/-- **The edges of a statement list.** -/
theorem flow_spec {table : LabelTable} {ss : List Statement} {above : Option BlockId} {slot : Nat}
    {edges : List Edge} (h : flow table above slot ss = .ok edges) :
    (∀ a, above = some a → ⟨a, blockFrom slot ss, .always⟩ ∈ edges) ∧
      ∀ front s rest, ss = front ++ s :: rest →
        Flows table edges ⟨slot + front.length⟩ (blockFrom (slot + front.length + 1) rest) s := by
  induction ss generalizing above slot edges with
  | nil =>
    cases h
    refine ⟨?_, fun front s rest hss => by simp at hss⟩
    rintro a rfl
    exact List.mem_singleton.mpr rfl
  | cons s ss ih =>
    -- Whatever the first statement is, its own edges come between the fall into it and the rest.
    have hsplit : ∃ above' es own, flow table above' (slot + 1) ss = .ok es ∧
        edges = above.toList.map (fun a => ⟨a, ⟨slot⟩, .always⟩) ++ own ++ es ∧
        Flows table edges ⟨slot⟩ (blockFrom (slot + 1) ss) s := by
      cases s with
      | goto l =>
        simp only [flow, bind_eq_ok] at h
        obtain ⟨t, ht, es, hes, h⟩ := h
        cases h
        exact ⟨none, es, _, hes, rfl, t, ht, by simp⟩
      | branch br =>
        simp only [flow, bind_eq_ok] at h
        obtain ⟨t, ht, f, hf, es, hes, h⟩ := h
        cases h
        exact ⟨none, es, _, hes, rfl, t, f, ht, hf, by simp, by simp⟩
      | _ =>
        simp only [flow, bind_eq_ok] at h
        obtain ⟨es, hes, h⟩ := h
        cases h
        refine ⟨some ⟨slot⟩, es, [], hes, by rw [List.append_nil], ?_⟩
        exact List.mem_append_right _ ((ih hes).1 _ rfl)
    obtain ⟨above', es, own, hes, rfl, hown⟩ := hsplit
    refine ⟨?_, fun front s' rest hss => ?_⟩
    · rintro a rfl
      simp [blockFrom]
    · cases front with
      | nil =>
        cases hss
        exact hown
      | cons s'' front =>
        cases hss
        have hrest := (ih hes).2 front s' rest rfl
        rw [Nat.add_assoc slot 1, Nat.add_comm 1] at hrest
        exact hrest.mono fun e he => List.mem_append_right _ he

/-! ### Blocks and edges -/

section
variable {g : Graph}

/-- The graph with a block for each of some statements. -/
def addStatements (g : Graph) (ss : List Statement) : Graph :=
  ss.foldl (fun g s => (g.addBlock s.kind).2) g

@[simp] theorem size_addStatements (g : Graph) (ss : List Statement) :
    (g.addStatements ss).blocks.size = g.blocks.size + ss.length := by
  induction ss generalizing g with
  | nil => rfl
  | cons s ss ih =>
    show ((g.addBlock s.kind).2.addStatements ss).blocks.size = _
    rw [ih, size_addBlock, List.length_cons, Nat.add_assoc, Nat.add_comm 1]

theorem block?_addStatements_of_lt {ss : List Statement} {b : BlockId}
    (h : b.slot < g.blocks.size) : (g.addStatements ss).block? b = g.block? b := by
  induction ss generalizing g with
  | nil => rfl
  | cons s ss ih =>
    have hne : b ≠ ⟨g.blocks.size⟩ := fun hb => Nat.lt_irrefl _ (hb ▸ h)
    refine (ih ?_).trans ?_
    · rw [size_addBlock]
      exact Nat.lt_succ_of_lt h
    · rw [block?_addBlock, if_neg hne]

/-- A statement gets the next free slot. -/
theorem block?_addStatements {front rest : List Statement} {s : Statement} :
    (g.addStatements (front ++ s :: rest)).block? ⟨g.blocks.size + front.length⟩ =
      some { id := ⟨g.blocks.size + front.length⟩, kind := s.kind } := by
  have hfold : g.addStatements (front ++ s :: rest) =
      ((g.addStatements front).addBlock s.kind).2.addStatements rest := by
    unfold addStatements
    rw [List.foldl_append, List.foldl_cons]
  have hsize := size_addStatements g front
  rw [hfold, block?_addStatements_of_lt, block?_addBlock, hsize, if_pos rfl]
  rw [size_addBlock, hsize]
  exact Nat.lt_succ_self _

/-- A block is one that was there, or that of a statement. -/
theorem block?_addStatements_eq_some {ss : List Statement} {b : BlockId} {block : Block}
    (h : (g.addStatements ss).block? b = some block) :
    g.block? b = some block ∨ block.phis = .empty ∧ ∃ s ∈ ss, block.kind = s.kind := by
  induction ss generalizing g with
  | nil => exact .inl h
  | cons s ss ih =>
    rcases ih h with hb | ⟨hp, s', hs', hk⟩
    · rw [block?_addBlock] at hb
      split at hb
      · cases hb
        exact .inr ⟨rfl, s, List.mem_cons_self, rfl⟩
      · exact .inl hb
    · exact .inr ⟨hp, s', List.mem_cons_of_mem _ hs', hk⟩

theorem edge?_addEdge (g : Graph) (edge : Edge) (e : EdgeId) :
    (g.addEdge edge).2.edge? e = if e = ⟨g.edges.size⟩ then some edge else g.edge? e :=
  edge?_addUnlistedEdge g edge e

theorem body_modifyBlock {f : Block → Block} (hf : ∀ block, (f block).body = block.body)
    (b c : BlockId) :
    ((g.modifyBlock b f).block? c).map Block.body = (g.block? c).map Block.body := by
  rw [block?_modifyBlock]
  split
  · rw [Option.map_map]
    exact congrArg (Option.map · (g.block? c)) (funext hf)
  · rfl

/-- The graph with some more edges. -/
def addEdges (g : Graph) (edges : List Edge) : Graph :=
  edges.foldl (fun g edge => (g.addEdge edge).2) g

/-- New edges change nothing but lists of edges. -/
theorem body_addEdges (g : Graph) (edges : List Edge) (b : BlockId) :
    ((g.addEdges edges).block? b).map Block.body = (g.block? b).map Block.body := by
  induction edges generalizing g with
  | nil => rfl
  | cons edge edges ih =>
    refine (ih _).trans ((body_modifyBlock ?_ edge.target b).trans
      (body_modifyBlock ?_ edge.source b))
    · exact fun _ => rfl
    · exact fun _ => rfl

theorem exists_block_addEdges (edges : List Edge) {b : BlockId}
    (hb : ∃ block, g.block? b = some block) :
    ∃ block, (g.addEdges edges).block? b = some block := by
  obtain ⟨block, hb⟩ := hb
  have hbody := body_addEdges g edges b
  rw [hb, Option.map_some] at hbody
  obtain ⟨block', hb', -⟩ := Option.map_eq_some_iff.mp hbody
  exact ⟨block', hb'⟩

theorem eq_of_connectAll {edges : List Edge} {g' : Graph} (h : g.connectAll edges = .ok g') :
    g' = g.addEdges edges := by
  refine eq_foldl_of_foldlM (fun {g edge g'} hstep => ?_) h
  obtain ⟨r, hr, hlast⟩ := bind_eq_ok.mp hstep
  obtain ⟨-, -, rfl⟩ := connect_eq_ok.mp hr
  exact pure_eq_ok.mp hlast

/-- Edges between blocks in use are added one after the other. -/
theorem connectAll_eq {edges : List Edge}
    (h : ∀ edge ∈ edges, (∃ block, g.block? edge.source = some block) ∧
      ∃ block, g.block? edge.target = some block) :
      g.connectAll edges = .ok (g.addEdges edges) := by
  refine foldlM_eq_foldl (fun g' : Graph => ∀ {b}, (∃ block, g.block? b = some block) →
    ∃ block, g'.block? b = some block) (fun hb => hb) fun edge hedge g' hlive => ?_
  obtain ⟨hs, ht⟩ := h edge hedge
  have hconnect : g'.connect edge = .ok (g'.addEdge edge) :=
    connect_eq_ok.mpr ⟨hlive hs, hlive ht, rfl⟩
  exact ⟨bind_of_ok hconnect _, fun hb => exists_block_addEdges [edge] (hlive hb)⟩

theorem edge?_addEdges_of_some {edges : List Edge} {e : EdgeId} {edge : Edge}
    (h : g.edge? e = some edge) : (g.addEdges edges).edge? e = some edge := by
  induction edges generalizing g with
  | nil => exact h
  | cons edge' edges ih =>
    refine ih ?_
    rw [edge?_addEdge, if_neg, h]
    rintro rfl
    rw [edge?_fresh] at h
    cases h

theorem exists_edge?_addEdges {edges : List Edge} {edge : Edge} (h : edge ∈ edges) :
    ∃ e, (g.addEdges edges).edge? e = some edge := by
  induction edges generalizing g with
  | nil => cases h
  | cons edge' edges ih =>
    rcases List.mem_cons.mp h with rfl | h
    · have hnew : (g.addEdge edge).2.edge? ⟨g.edges.size⟩ = some edge := by
        rw [edge?_addEdge, if_pos rfl]
      refine ⟨⟨g.edges.size⟩, ?_⟩
      show ((g.addEdge edge).2.addEdges edges).edge? _ = _
      exact edge?_addEdges_of_some hnew
    · exact ih h

theorem kind?_of_body {g' : Graph} {b : BlockId}
    (h : (g'.block? b).map Block.body = (g.block? b).map Block.body) : g'.kind? b = g.kind? b := by
  have := congrArg (Option.map Prod.fst) h
  rwa [Option.map_map, Option.map_map] at this

end

/-! ### The graph of a statement list -/

/-- The block in front of which control is when some statements are still to come. -/
def Stands (ss rest : List Statement) (b : BlockId) : Prop :=
  ∃ front, ss = front ++ rest ∧ b = blockFrom (2 + front.length) rest

theorem Stands.next {ss front rest : List Statement} {s : Statement} (h : ss = front ++ s :: rest) :
    Stands ss rest (blockFrom (2 + front.length + 1) rest) := by
  refine ⟨front ++ [s], ?_, ?_⟩
  · rw [h, List.append_assoc, List.singleton_append]
  · rw [List.length_append, List.length_singleton, Nat.add_assoc]

/-- **A graph draws a statement list.** -/
structure Draws (g : Graph) (ss : List Statement) : Prop where
  start : ∃ e, g.edge? e = some ⟨entry, blockFrom 2 ss, .always⟩
  kind_eq : ∀ {front s rest}, ss = front ++ s :: rest →
    g.kind? ⟨2 + front.length⟩ = some s.kind
  onward : ∀ {V : Type} (I : Interpretation V) (σ : Store V) {front s rest},
    ss = front ++ s :: rest → s.kind.isReturn = false →
    ∃ rest' e b, Layout.onward I ss σ rest s = .here rest' ∧ Stands ss rest' b ∧
      g.edge? e = some ⟨⟨2 + front.length⟩, b, s.kind.way I σ⟩

/-- A jump leads to the block of its label. -/
theorem stands_of_jump {procedure : String} {ss : List Statement} {table : LabelTable}
    (h : declareLabels procedure 2 [] ss = .ok table) {l : Label} {b : BlockId}
    (hl : findLabel table l = .ok b) :
    ∃ rest, Layout.jump ss l = .here rest ∧ Stands ss rest b := by
  have hlookup : table.lookup l = some b := by
    unfold findLabel at hl
    split at hl
    · cases hl
      assumption
    · cases hl
  rcases declareLabels_spec h hlookup with hnil | ⟨-, front, rest, rfl, hnot, rfl⟩
  · cases hnil
  · exact ⟨.label l :: rest, Layout.jump_of_notMem hnot, front, rfl, rfl⟩

theorem draws_of_ofProcedure {p : Procedure} {g : Graph} (h : ofProcedure p = .ok g) :
    g.Draws p.statements := by
  simp only [ofProcedure, bind_eq_ok] at h
  obtain ⟨table, htable, edges, hedges, h⟩ := h
  have hg : g = ((new p.name).addStatements p.statements).addEdges edges := eq_of_connectAll h
  obtain ⟨hfirst, hflows⟩ := flow_spec hedges
  subst hg
  refine ⟨exists_edge?_addEdges (hfirst _ rfl), fun {front s rest} hss => ?_,
    fun {V} I σ front s rest hss hret => ?_⟩
  · rw [kind?_of_body (body_addEdges ..), hss]
    exact kind?_of_block? block?_addStatements
  · have hflow := hflows front s rest hss
    cases s with
    | goto l =>
      obtain ⟨t, ht, he⟩ := hflow
      obtain ⟨rest', hjump, hstands⟩ := stands_of_jump htable ht
      obtain ⟨e, he⟩ := exists_edge?_addEdges he
      exact ⟨rest', e, t, hjump, hstands, he⟩
    | branch br =>
      obtain ⟨t, f, ht, hf, het, hef⟩ := hflow
      simp only [Layout.onward, Statement.kind, Kind.way]
      cases br.outcome I σ with
      | true =>
        obtain ⟨rest', hjump, hstands⟩ := stands_of_jump htable ht
        obtain ⟨e, he⟩ := exists_edge?_addEdges het
        exact ⟨rest', e, t, hjump, hstands, he⟩
      | false =>
        obtain ⟨rest', hjump, hstands⟩ := stands_of_jump htable hf
        obtain ⟨e, he⟩ := exists_edge?_addEdges hef
        exact ⟨rest', e, f, hjump, hstands, he⟩
    | ret x => cases hret
    | _ =>
      obtain ⟨e, he⟩ := exists_edge?_addEdges hflow
      exact ⟨rest, e, _, rfl, .next hss, he⟩

/-- A block of the graph is terminal, or it is that of a statement. -/
theorem block?_of_ofProcedure {p : Procedure} {g : Graph} (h : ofProcedure p = .ok g) {b : BlockId}
    {block : Block} (hb : g.block? b = some block) :
    block.phis = .empty ∧ (b = entry ∧ block.kind = .entry ∨ b = exit ∧ block.kind = .exit ∨
      ∃ s ∈ p.statements, block.kind = s.kind) := by
  simp only [ofProcedure, bind_eq_ok] at h
  obtain ⟨table, -, edges, -, h⟩ := h
  have hg : g = ((new p.name).addStatements p.statements).addEdges edges := eq_of_connectAll h
  have hbody := body_addEdges ((new p.name).addStatements p.statements) edges b
  rw [← hg, hb, Option.map_some, eq_comm, Option.map_eq_some_iff] at hbody
  obtain ⟨block', hb', hbody⟩ := hbody
  have hkind : block'.kind = block.kind := congrArg Prod.fst hbody
  have hphis : block'.phis = block.phis := congrArg Prod.snd hbody
  rw [← hkind, ← hphis]
  rcases block?_addStatements_eq_some hb' with hnew | ⟨hp, hs⟩
  · match b with
    | ⟨0⟩ =>
      cases hnew
      exact ⟨rfl, .inl ⟨rfl, rfl⟩⟩
    | ⟨1⟩ =>
      cases hnew
      exact ⟨rfl, .inr (.inl ⟨rfl, rfl⟩)⟩
    | ⟨slot + 2⟩ => cases hnew
  · exact ⟨hp, .inr (.inr hs)⟩

section
variable {p : Procedure} {g : Graph} (h : ofProcedure p = .ok g)
include h

theorem phiFree_of_ofProcedure : g.PhiFree := fun _ _ hb => (block?_of_ofProcedure h hb).1

theorem wellFormed_of_ofProcedure (hwired : g.Wired) : g.WellFormed := by
  have hkind : ∀ s : Statement, s.kind ≠ .entry ∧ s.kind ≠ .exit := by
    intro s
    cases s <;> exact ⟨nofun, nofun⟩
  refine ⟨checkWiring_iff.mpr hwired, fun {b} hk => ?_, fun {b} hk => ?_⟩
  · obtain ⟨block, hb, hblock⟩ := block?_of_kind? hk
    rcases (block?_of_ofProcedure h hb).2 with ⟨rfl, -⟩ | ⟨-, hx⟩ | ⟨s, -, hs⟩
    · rfl
    · rw [hblock] at hx
      cases hx
    · exact absurd (hs.symm.trans hblock) (hkind s).1
  · obtain ⟨block, hb, hblock⟩ := block?_of_kind? hk
    rcases (block?_of_ofProcedure h hb).2 with ⟨-, hx⟩ | ⟨rfl, -⟩ | ⟨s, -, hs⟩
    · rw [hblock] at hx
      cases hx
    · rfl
    · exact absurd (hs.symm.trans hblock) (hkind s).2

theorem straight_of_ofProcedure : g.Straight := by
  intro b s hk
  obtain ⟨block, hb, hblock⟩ := block?_of_kind? hk
  rcases (block?_of_ofProcedure h hb).2 with ⟨-, hx⟩ | ⟨-, hx⟩ | ⟨s', -, hs⟩
  · rw [hblock] at hx
    cases hx
  · rw [hblock] at hx
    cases hx
  · rw [hblock] at hs
    cases s' <;> cases hs <;> rfl

/-- The variables of the graph stand in the statements. -/
theorem mem_occurrences_of_ofProcedure {v : Var} (hv : g.Occurs v) : v ∈ p.occurrences := by
  obtain ⟨b, block, hb, hv⟩ := hv
  obtain ⟨hphis, hkind⟩ := block?_of_ofProcedure h hb
  rcases Block.mem_occurrences.mp hv with ⟨name, φ, hφ, -⟩ | hv
  · rw [hphis] at hφ
    cases hφ
  · rcases hkind with ⟨-, hk⟩ | ⟨-, hk⟩ | ⟨s, hs, hk⟩
    · rw [hk] at hv
      simp [Kind.defs, Kind.uses] at hv
    · rw [hk] at hv
      simp [Kind.defs, Kind.uses] at hv
    · rw [hk, Statement.defs_kind, Statement.uses_kind] at hv
      exact List.mem_flatMap.mpr ⟨s, hs, List.mem_append.mpr hv⟩

/-- **The graph of a procedure behaves like the procedure.** -/
theorem sameBehaviour_of_ofProcedure (hg : g.WellFormed) {V : Type} (I : Interpretation V)
    (m : Memory V) :
    System.SameBehaviour (Layout.system I p.statements) (g.system I) ⟨.here p.statements, m⟩
      ⟨.here entry, m⟩ := by
  have hdraws := draws_of_ofProcedure h
  have hp := phiFree_of_ofProcedure h
  let R : List Statement → Memory V → BlockId → Memory V → Prop :=
    fun rest m b m' => m = m' ∧ Stands p.statements rest b
  have hsim : @System.Simulates V (Layout.system I p.statements) (g.system I) R := by
    refine ⟨fun hr => congrArg Memory.shown hr.1, ?_⟩
    rintro rest m b _ ⟨rfl, front, hss, rfl⟩
    refine ⟨0, 0, (Layout.system I p.statements).move rest m, g.move I _ m, rfl, rfl, ?_⟩
    cases rest with
    | nil =>
      rw [blockFrom, move_exit hg.wired.exit_kind]
      exact .ended rfl
    | cons s rest =>
      have hk := hdraws.kind_eq hss
      cases hret : s.kind.isReturn with
      | true =>
        cases s with
        | ret x =>
          rw [blockFrom, move_return hk rfl]
          exact .ended rfl
        | _ => cases hret
      | false =>
        obtain ⟨rest', e, b, honward, hstands, he⟩ := hdraws.onward I m.store hss hret
        rw [blockFrom, hg.move_edge hp hk hret he, Layout.move_cons honward]
        exact .here ⟨rfl, hstands⟩
  -- The graph needs one move more, from its entry to the block of the first statement.
  obtain ⟨e, he⟩ := hdraws.start
  have hentry : steps (g.system I).next 1 ⟨.here entry, m⟩ =
      some ⟨.here (blockFrom 2 p.statements), m⟩ :=
    congrArg some (hg.move_edge hp hg.wired.entry_kind rfl he)
  exact (hsim.sameBehaviour (.here ⟨rfl, [], rfl, rfl⟩)).trans (.symm (.of_steps hentry))

end

end Graph
end FlowGraph
