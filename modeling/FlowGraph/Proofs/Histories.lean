import FlowGraph.Proofs.Batches
import FlowGraph.Proofs.Conversions
import FlowGraph.Proofs.PassageBehaviour

/-! # Histories of a routine

Whatever was done before, an operation keeps a well-formed graph well-formed and gives out no handle
twice, or it is refused for its arguments (`ends_act`).  By induction over a history the same holds
of any number of operations, from the graph of a procedure on (`acts_sound`).  The check that ends
most operations never fails but at the end of a batch.
-/
namespace FlowGraph

open FlowGraph.Graph (Evolves Maintains)

/-- **An operation that leaves no phi function without an argument**: any but the conversions, which
make phi functions and remove them, and batches in which a step is not gentle. -/
def Action.Gentle (g : Graph) : Action → Prop
  | .batch steps => g.Gently steps
  | .toSsa => False
  | .outOfSsa => False
  | _ => True

instance (g : Graph) : (a : Action) → Decidable (a.Gentle g)
  | .batch steps => inferInstanceAs (Decidable (g.Gently steps))
  | .toSsa => .isFalse id
  | .outOfSsa => .isFalse id
  | .putBetween .. | .putOnEdge .. | .replace .. | .simplifySolo _ | .forgetPhis _ | .tidy
  | .resolveBranch .. | .setStatement .. | .setBranch .. | .setCond .. | .setPhiVersion ..
  | .refreshDominance | .needDominance | .needWeb | .rebuildWeb => .isTrue trivial

/-- **What an operation keeps.** -/
structure Action.Keeps (a : Action) (g g' : Graph) : Prop extends Evolves g g' where
  complete : a.Gentle g → g.PhisComplete → g'.PhisComplete

theorem Graph.Maintains.keeps {g g' : Graph} (h : Maintains g g') (a : Action) : a.Keeps g g' :=
  ⟨h.evolves, fun _ => h.complete⟩

/-! ### Blocks on edges -/

namespace Graph

variable {g : Graph} {bad : Fault → Prop}

theorem WellFormed.ends_splice (hg : g.WellFormed) {e : EdgeId} {k : Kind}
    (hstale : g.edge? e = none → bad (.violation (.staleEdge e)))
    (hkind : k.isBranch = true ∨ k.isTerminal = true → bad .unspliceable) :
    (g.splice e k).Ends (fun s => Maintains g s.graph) bad := by
  rw [splice]
  split
  · rename_i h
    exact .fail (hkind (Bool.or_eq_true_iff.mp h))
  · rename_i h
    rw [Bool.or_eq_true, not_or, Bool.not_eq_true, Bool.not_eq_true] at h
    refine (ends_edge (fun _ => id) hstale).bind fun edge he => ?_
    apply Run.Ends.bind_ok (hg.listed.joined.split_eq he k)
    apply Run.Ends.report
    exact .pure (Grows.splitEdge hg he (Kind.straight_of h.1 h.2)).toMaintains

theorem Listed.findEdge_eq (hg : g.Listed) {a : BlockId} {block : Block}
    (ha : g.block? a = some block) (b : BlockId) :
    g.findEdge a b = .ok (block.succs.find? fun e => (g.edge? e).any (·.target = b)) := by
  rw [findEdge, bind_of_ok (block_eq_ok ha)]
  exact findM?_edge_eq (hg.succs_live ha)

/-- **The first edge between two blocks.** -/
theorem WellFormed.ends_edgeBetween (hg : g.WellFormed) {a b : BlockId}
    (hstale : g.block? a = none → bad (.violation (.staleBlock a)))
    (hnone : ¬ g.Leads a b → bad (.noEdge a b)) :
    (liftM (g.edgeBetween a b) : Run EdgeId).Ends (fun e => ∃ edge, g.edge? e = some edge) bad := by
  cases ha : g.block? a with
  | none =>
    refine .of_error ?_ (hstale ha)
    rw [Run.outcome_liftM, edgeBetween, findEdge, Graph.block, ha]
    rfl
  | some block =>
    cases hfind : block.succs.find? fun e => (g.edge? e).any (·.target = b) with
    | none =>
      refine .of_error ?_ (hnone ?_)
      · rw [Run.outcome_liftM, edgeBetween, hg.listed.findEdge_eq ha, hfind]
        rfl
      rintro ⟨e, d, he⟩
      have hout := List.find?_eq_none.mp hfind e ((hg.listed.mem_succs ha e).mpr ⟨_, he, rfl⟩)
      simp [he] at hout
    | some e =>
      obtain ⟨edge, he, -⟩ := (hg.listed.mem_succs ha e).mp (List.mem_of_find?_eq_some hfind)
      refine .of_ok ?_ ⟨edge, he⟩
      rw [Run.outcome_liftM, edgeBetween, hg.listed.findEdge_eq ha, hfind]
      rfl

theorem WellFormed.ends_simplifySolo (hg : g.WellFormed) {b : BlockId}
    (hstale : g.block? b = none → bad (.violation (.staleBlock b))) :
    (g.simplifySolo b).Ends (Maintains g) bad := by
  cases hb : g.block? b with
  | none => exact .bind_error (by rw [Graph.block, hb]) (hstale hb)
  | some block =>
    obtain ⟨g', hok, hgrows⟩ := hg.grows_simplifySolo hb
    exact .of_ok hok hgrows.toMaintains

end Graph

/-! ### One operation -/

namespace Routine

variable {bad : Fault → Prop}

/-- The check of a sound graph passes. -/
theorem ends_settle_of_wellFormed (r : Routine) {g : Graph} (hg : g.WellFormed)
    {good : Routine → Prop} (h : good (r.withGraph g)) : (r.settle g).Ends good bad :=
  .of_ok (r.settle_spec hg) h

theorem ends_tidy (r : Routine) (hg : r.graph.WellFormed) :
    r.tidy.Ends (fun x => Maintains r.graph x.2.graph) bad := by
  refine hg.ends_tidy.bind ?_
  rintro ⟨count, g⟩ h
  apply Run.Ends.bind_ok (Graph.demandConnected_eq_ok h.wellFormed h.reached)
  exact .pure h.toMaintains

theorem ends_putOnEdge (r : Routine) (hg : r.graph.WellFormed) {e : EdgeId} {k : Kind}
    (hstale : r.graph.edge? e = none → bad (.violation (.staleEdge e)))
    (hkind : k.isBranch = true ∨ k.isTerminal = true → bad .unspliceable) :
    (r.putOnEdge e k).Ends (fun x => Maintains r.graph x.2.graph) bad := by
  refine (hg.ends_splice hstale hkind).bind fun s h => ?_
  exact (r.ends_settle_of_wellFormed h.wellFormed h).bind fun r' h' => .pure h'

theorem ends_putBetween (r : Routine) (hg : r.graph.WellFormed) (a b : BlockId) (k : Kind) :
    (r.putBetween a b k).Ends (fun x => Maintains r.graph x.2.graph)
      ((Action.putBetween a b k).Refused r.graph) := by
  refine (hg.ends_edgeBetween (.staleBlock rfl) .noEdge).bind ?_
  rintro e ⟨edge, he⟩
  refine r.ends_putOnEdge hg (fun hnone => ?_) .unspliceableBetween
  rw [he] at hnone
  cases hnone

theorem ends_replace (r : Routine) (hg : r.graph.WellFormed) (b : BlockId)
    (chain : List Graph.Replacement) :
    (r.replace b chain).Ends (fun x => Maintains r.graph x.2.graph)
      ((Action.replace b chain).Refused r.graph) := by
  unfold Routine.replace
  split
  · exact .pure (.refl hg)
  · refine (hg.ends_bypass (.staleBlock rfl) .unremovable .unroutable .ownSuccessor).bind ?_
    rintro g ⟨h, -⟩
    exact (r.ends_settle_of_wellFormed h.wellFormed h).bind fun r' h' => .pure h'
  · rename_i hitself _
    have hblock : (Action.replace b chain).block? = some b := if_neg hitself
    refine (hg.ends_replaceByChain (.staleBlock hblock) .irreplaceable .repeatedInChain
      .branchInChain .terminalInChain).bind ?_
    rintro ⟨_, g⟩ h
    exact (r.ends_settle_of_wellFormed h.wellFormed h).bind fun r' h' => .pure h'

end Routine

/-- Whether an operation changes what a block does, and nothing else. -/
def Action.restates : Action → Bool
  | .setStatement .. | .setBranch .. | .setCond .. | .setPhiVersion .. => true
  | _ => false

/-- **A block that does something else** along the same edges, with the same arguments to its phi
functions. -/
def Block.Restates (block block' : Block) : Prop :=
  ∃ k ps, block' = { block with kind := k, phis := ps } ∧ k.shape = block.kind.shape ∧
    ∀ ⦃name p'⦄, ps.get? name = some p' → ∃ p, block.phis.get? name = some p ∧ p'.args = p.args

theorem Block.Restates.of_kind {block : Block} {k : Kind} (h : k.shape = block.kind.shape) :
    block.Restates { block with kind := k } :=
  ⟨k, block.phis, rfl, h, fun _ p' hp' => ⟨p', hp', rfl⟩⟩

theorem Block.Restates.of_version {block : Block} {name : String} {p : Phi}
    (hp : block.phis.get? name = some p) (v : Option Nat) :
    block.Restates { block with phis := block.phis.insert name { p with version := v } } := by
  refine ⟨block.kind, _, rfl, rfl, fun name' p' hp' => ?_⟩
  rw [OrdMap.get?_insert] at hp'
  split at hp'
  · rename_i heq
    cases hp'
    exact ⟨p, heq ▸ hp, rfl⟩
  · exact ⟨p', hp', rfl⟩

namespace Graph

variable {g : Graph} {b : BlockId} {block block' : Block}

theorem modifyBlock_of_block? (hb : g.block? b = some block) (f : Block → Block) :
    g.modifyBlock b (fun _ => f block) = g.modifyBlock b f := by
  refine modifyBlock_congr fun {old} hold => ?_
  rw [hb] at hold
  cases hold
  rfl

theorem outline_restated (hb : g.block? b = some block) (h : block.Restates block') :
    SameOutline g (g.modifyBlock b fun _ => block') := by
  obtain ⟨k, ps, rfl, -⟩ := h
  rw [modifyBlock_of_block? hb fun old => { old with kind := k, phis := ps }]
  exact .modifyBlock _ _ fun _ => rfl

theorem maintains_restated (hg : g.WellFormed) (hb : g.block? b = some block)
    (h : block.Restates block') : Maintains g (g.modifyBlock b fun _ => block') := by
  obtain ⟨k, ps, rfl, hshape, hargs⟩ := h
  rw [modifyBlock_of_block? hb fun old => { old with kind := k, phis := ps }]
  suffices hgrows : Grows g (g.modifyBlock b fun old => { old with kind := k, phis := ps }) from
    hgrows.toMaintains
  refine .modifyBlock hg b (fun _ => rfl) ?_ ?_ ?_
  · intro old hold
    rw [hb] at hold
    cases hold
    exact hshape
  · intro old hold name p' hp' e v hv
    rw [hb] at hold
    cases hold
    obtain ⟨p, hp, heq⟩ := hargs hp'
    rw [Phi.arg?, heq] at hv
    exact hg.listed.args_enter hb hp hv
  · intro old hold hc name p' hp' e he
    rw [hb] at hold
    cases hold
    obtain ⟨p, hp, heq⟩ := hargs hp'
    rw [Phi.arg?, heq]
    exact hc hp e he

end Graph

namespace Routine

variable {bad : Fault → Prop}

/-- **A routine with a block that does something else.** -/
structure Restates (r r' : Routine) : Prop where
  maintains : Maintains r.graph r'.graph
  outline : r.graph.SameOutline r'.graph
  dominance_eq : r'.dominance = r.dominance
  web_eq : r'.web = none

theorem ends_changeBlock (r : Routine) (hg : r.graph.WellFormed) {b : BlockId}
    {f : Block → Option Block}
    (hstale : r.graph.block? b = none → bad (.violation (.staleBlock b)))
    (hf : ∀ {block block'}, f block = some block' → block.Restates block') :
    (r.changeBlock b f).Ends (fun x => r.Restates x.2) bad := by
  refine (Graph.ends_block (fun _ => id) hstale).bind fun block hb => ?_
  cases h : f block with
  | none => exact .pure ⟨.refl hg, .refl _, rfl, rfl⟩
  | some block' =>
    exact .pure ⟨Graph.maintains_restated hg hb (hf h), Graph.outline_restated hb (hf h), rfl, rfl⟩

theorem ends_restating (r : Routine) (hg : r.graph.WellFormed) {a : Action}
    (ha : a.restates = true) :
    (r.act a).Ends r.Restates (a.Refused r.graph) := by
  cases a with
  | setStatement b _ | setBranch b _ | setCond b _ =>
    refine (r.ends_changeBlock hg (.staleBlock rfl) ?_).bind fun x h => .pure h
    intro block block' h
    split at h
    · rename_i hk
      cases h
      exact .of_kind (by rw [hk]; rfl)
    · cases h
  | setPhiVersion b lhs =>
    refine (r.ends_changeBlock hg (.staleBlock rfl) ?_).bind fun x h => .pure h
    intro block block' h
    obtain ⟨p, hp, rfl⟩ := Option.map_eq_some_iff.mp h
    exact .of_version hp _
  | _ => cases ha

/-- **One operation**: it keeps the graph sound, or is refused for its arguments. -/
theorem ends_act (r : Routine) (hg : r.graph.WellFormed) (a : Action) :
    (r.act a).Ends (fun r' => a.Keeps r.graph r'.graph) (a.Refused r.graph) := by
  cases a with
  | batch steps =>
    refine (r.ends_runBatch hg steps).bind ?_
    rintro ⟨_, r'⟩ ⟨hsteps, hwf⟩
    have hedits := Graph.edits_of_performs hsteps
    exact .pure ⟨⟨hwf, hedits.follows⟩, fun h hc => (hedits.gentle h hg.listed hc).2⟩
  | putBetween source target kind =>
    exact (r.ends_putBetween hg source target kind).bind fun x h => .pure (h.keeps _)
  | putOnEdge e kind =>
    exact (r.ends_putOnEdge hg .staleEdge .unspliceable).bind fun x h => .pure (h.keeps _)
  | replace b chain => exact (r.ends_replace hg b chain).bind fun x h => .pure (h.keeps _)
  | simplifySolo b =>
    refine (hg.ends_simplifySolo (.staleBlock rfl)).bind fun g h => ?_
    exact r.ends_settle_of_wellFormed h.wellFormed (h.keeps _)
  | forgetPhis b =>
    refine (Graph.ends_block (fun _ => id) (.staleBlock rfl)).bind fun block hb => ?_
    exact .pure ((Graph.Grows.forget hg b).toMaintains.keeps _)
  | tidy => exact (r.ends_tidy hg).bind fun x h => .pure (h.keeps _)
  | resolveBranch b outcome =>
    refine (hg.ends_resolveBranch (.staleBlock rfl) .notBranch).bind fun g h => ?_
    refine ({ r with graph := g : Routine }.ends_tidy h.wellFormed).bind fun x h' => ?_
    exact .pure ((h.trans h').keeps _)
  | toSsa =>
    -- Without phi functions the conversion succeeds, so a missing version tells of some.
    by_cases hfree : r.graph.PhiFree
    · obtain ⟨r', g, stops, hok, -⟩ := r.toSsa_spec hg hfree
      have hall : r.toSsa.Ends (fun r' => Evolves r.graph r'.graph ∧ r'.Fresh) (fun _ => True) :=
        r.ends_toSsa hg fun _ _ _ => trivial
      exact .of_ok hok ⟨(hall.ok hok).1, False.elim⟩
    · exact (r.ends_toSsa hg (.missingVersion hfree)).imp
        (fun r' h => ⟨h.1, False.elim⟩) fun _ => id
  | outOfSsa =>
    refine (r.ends_outOfSsa hg ?_).imp (fun r' h => ⟨h, False.elim⟩) fun _ => id
    intro b block hb e he name p hp hnone
    exact .missingArgument hb hp he hnone
  | setStatement | setBranch | setCond | setPhiVersion =>
    exact (r.ends_restating hg rfl).imp (fun r' h => h.maintains.keeps _) fun _ => id
  | refreshDominance =>
    obtain ⟨d, hd, -⟩ := refreshDominance_spec hg
    exact .of_ok (Run.outcome_bind_of_ok hd _) ((Maintains.refl hg).keeps _)
  | needDominance =>
    have hneed : r.needDominance.Ends (fun x => Maintains r.graph x.2.graph)
        (Action.needDominance.Refused r.graph) := by
      obtain ⟨d, hd, -⟩ := refreshDominance_spec hg
      rw [needDominance]
      split
      · exact .pure (.refl hg)
      · exact .of_ok hd (.refl hg)
    exact hneed.bind fun x h => .pure (h.keeps _)
  | needWeb =>
    have hneed : r.needWeb.Ends (fun x => Maintains r.graph x.2.graph)
        (Action.needWeb.Refused r.graph) := by
      rw [needWeb]
      split
      · exact .pure (.refl hg)
      · exact .of_ok rfl (.refl hg)
    exact hneed.bind fun x h => .pure (h.keeps _)
  | rebuildWeb => exact .of_ok rfl ((Maintains.refl hg).keeps _)

/-! ### Many operations -/

variable {r r' : Routine} {a : Action} {as : List Action}

theorem acts_cons : (r.acts (a :: as)).outcome = .ok r' ↔
    ∃ r₁, (r.act a).outcome = .ok r₁ ∧ (r₁.acts as).outcome = .ok r' := by
  rw [acts, List.foldlM_cons, Run.outcome_bind, Graph.bind_eq_ok]
  rfl

/-- **Any number of operations** keep a graph sound. -/
theorem evolves_acts (hg : r.graph.WellFormed) (h : (r.acts as).outcome = .ok r') :
    Evolves r.graph r'.graph := by
  induction as generalizing r with
  | nil =>
    cases h
    exact .refl hg
  | cons a as ih =>
    obtain ⟨r₁, hone, hrest⟩ := acts_cons.mp h
    have hkeeps := (r.ends_act hg a).ok hone
    exact hkeeps.toEvolves.trans (ih hkeeps.wellFormed hrest)

theorem follows_during {m : Graph} (hm : m ∈ a.during r.graph) : r.graph.Follows m := by
  cases a with
  | batch steps => exact Graph.follows_during hm
  | _ => cases hm

/-- The result of an operation follows all that comes about while it is carried out. -/
theorem during_follows (hg : r.graph.WellFormed) (h : (r.act a).outcome = .ok r') {m : Graph}
    (hm : m ∈ a.during r.graph) : m.Follows r'.graph := by
  cases a with
  | batch steps =>
    have hsteps : (r.act (.batch steps)).Ends (fun r' => r.graph.performs steps = .ok r'.graph)
        ((Action.batch steps).Refused r.graph) :=
      (r.ends_runBatch hg steps).bind fun x hx => .pure hx.1
    exact Graph.during_follows (hsteps.ok h) hm
  | _ => cases hm

theorem pairwise_during (r : Routine) (a : Action) : (a.during r.graph).Pairwise Graph.Follows := by
  cases a with
  | batch steps => exact Graph.pairwise_during ..
  | _ => exact .nil

theorem mem_moments_cons {m : Graph} : m ∈ r.moments (a :: as) ↔
    m = r.graph ∨ m ∈ a.during r.graph ∨
      ∃ r₁, (r.act a).outcome = .ok r₁ ∧ m ∈ r₁.moments as := by
  rw [moments, List.mem_cons, List.mem_append]
  cases (r.act a).outcome with
  | ok r₁ => simp
  | error f => simp

theorem follows_moments (hg : r.graph.WellFormed) {m : Graph} (hm : m ∈ r.moments as) :
    r.graph.Follows m := by
  induction as generalizing r with
  | nil =>
    rw [List.mem_singleton.mp hm]
    exact .refl _
  | cons a as ih =>
    rcases mem_moments_cons.mp hm with rfl | hm | ⟨r₁, hone, hm⟩
    · exact .refl _
    · exact follows_during hm
    · have hkeeps := (r.ends_act hg a).ok hone
      exact hkeeps.follows.trans (ih hkeeps.wellFormed hm)

/-- **Every moment follows those before it.** -/
theorem pairwise_moments (hg : r.graph.WellFormed) (as : List Action) :
    (r.moments as).Pairwise Graph.Follows := by
  induction as generalizing r with
  | nil => exact .cons (fun _ h => by cases h) .nil
  | cons a as ih =>
    have hall : ∀ m ∈ r.moments (a :: as), r.graph.Follows m := fun m hm => follows_moments hg hm
    rw [moments] at hall ⊢
    refine .cons (fun m hm => hall m (List.mem_cons_of_mem _ hm)) ?_
    cases hone : (r.act a).outcome with
    | error f =>
      exact List.pairwise_append.mpr ⟨r.pairwise_during a, .nil, fun _ _ _ h => by cases h⟩
    | ok r₁ =>
      -- what comes about during the operation comes before its result, and so before all the rest
      have hwf := ((r.ends_act hg a).ok hone).wellFormed
      refine List.pairwise_append.mpr ⟨r.pairwise_during a, ih hwf, fun m hm m' hm' => ?_⟩
      exact (during_follows hg hone hm).trans (follows_moments hwf hm')

/-- **The last moment follows all others.** -/
theorem moments_follows (hg : r.graph.WellFormed) (h : (r.acts as).outcome = .ok r') {m : Graph}
    (hm : m ∈ r.moments as) : m.Follows r'.graph := by
  induction as generalizing r with
  | nil =>
    cases h
    rw [List.mem_singleton.mp hm]
    exact .refl _
  | cons a as ih =>
    obtain ⟨r₁, hone, hrest⟩ := acts_cons.mp h
    have hkeeps := (r.ends_act hg a).ok hone
    rcases mem_moments_cons.mp hm with rfl | hm | ⟨r₂, htwo, hm⟩
    · exact (evolves_acts hg h).follows
    · exact (during_follows hg hone hm).trans (evolves_acts hkeeps.wellFormed hrest).follows
    · rw [hone] at htwo
      cases htwo
      exact ih hkeeps.wellFormed hrest hm

/-- **Every run is sound**: after any number of operations on the graph of a procedure, the graph
passes the structural check, its entry and its exit are the blocks that they were at the start and
no others, and a handle that was removed at any moment is still stale.  The next operation, whatever
it is, can be refused for its arguments only; none but a batch can leave the graph unsound. -/
theorem acts_sound {p : Procedure} {r₀ r : Routine} {as : List Action}
    (h₀ : (ofProcedure p).outcome = .ok r₀) (h : (r₀.acts as).outcome = .ok r) :
    r.graph.checkWiring = .ok () ∧
      (∀ b, r.graph.kind? b = some .entry ↔ b = Graph.entry) ∧
      (∀ b, r.graph.kind? b = some .exit ↔ b = Graph.exit) ∧
      (∀ {m m'}, [m, m'].Sublist (r₀.moments as) →
        (∀ {b block}, m.block? b = some block → m'.block? b = none → r.graph.block? b = none) ∧
        ∀ {e edge}, m.edge? e = some edge → m'.edge? e = none → r.graph.edge? e = none) ∧
      ∀ {a f}, (r.act a).outcome = .error f → a.Refused r.graph f := by
  have hg₀ : r₀.graph.WellFormed := (Passage.layable_of_ofProcedure h₀).2.wellFormed
  have hg := (evolves_acts hg₀ h).wellFormed
  refine ⟨hg.checked, fun b => ⟨hg.entry_only, ?_⟩, fun b => ⟨hg.exit_only, ?_⟩, ?_, ?_⟩
  · rintro rfl
    exact hg.wired.entry_kind
  · rintro rfl
    exact hg.wired.exit_kind
  · intro m m' hsub
    have hbefore : m.Follows m' :=
      List.rel_of_pairwise_cons ((pairwise_moments hg₀ as).sublist hsub)
      (List.mem_singleton_self m')
    have hafter : m'.Follows r.graph := moments_follows hg₀ h (hsub.subset (by simp))
    exact ⟨fun hlive hgone => hbefore.block?_stale hafter hlive hgone,
      fun hlive hgone => hbefore.edge?_stale hafter hlive hgone⟩
  · exact (r.ends_act hg _).error

/-- Operations in the course of which block 13 comes and goes. -/
def rework : List Action := [
  .toSsa,
  .replace ⟨5⟩ [],
  .batch [.addBlock .empty, .addEdge ⟨13⟩ ⟨12⟩, .removeBlock ⟨13⟩],
  .putBetween ⟨2⟩ ⟨3⟩ .empty,
  .outOfSsa,
  .tidy]

theorem rework_sound : ∃ r₀ r m m',
    (ofProcedure Passage.swapLoop).outcome = .ok r₀ ∧ (r₀.acts rework).outcome = .ok r ∧
      [m, m'].Sublist (r₀.moments rework) ∧ (m.block? ⟨13⟩).isSome = true ∧ m'.block? ⟨13⟩ = none ∧
      r.graph.checkWiring = .ok () ∧ r.graph.block? ⟨13⟩ = none ∧
      ∃ f, (r.act (.resolveBranch ⟨13⟩ true)).outcome = .error f ∧
        (Action.resolveBranch ⟨13⟩ true).Refused r.graph f := by
  have hrun : ((ofProcedure Passage.swapLoop).outcome.toOption.any fun r₀ =>
      (r₀.acts rework).outcome.toOption.any fun r =>
        ((r₀.moments rework).take 5).any (fun m => (m.block? ⟨13⟩).isSome) &&
        ((r₀.moments rework).drop 5).any (fun m => (m.block? ⟨13⟩).isNone) &&
        !(r.act (.resolveBranch ⟨13⟩ true)).outcome.isOk) = true := by
    decide +kernel
  obtain ⟨r₀, h₀, hrun⟩ := Run.exists_ok_of_any hrun
  obtain ⟨r, h, hrun⟩ := Run.exists_ok_of_any hrun
  simp only [Bool.and_eq_true, List.any_eq_true, Option.isNone_iff_eq_none, Bool.not_eq_true']
    at hrun
  obtain ⟨⟨⟨m, hm, hlive⟩, m', hm', hgone⟩, hact⟩ := hrun
  obtain ⟨hcheck, -, -, hstale, hrefused⟩ := acts_sound h₀ h
  have hsub : [m, m'].Sublist (r₀.moments rework) := by
    rw [← List.take_append_drop 5 (r₀.moments rework)]
    exact (List.singleton_sublist.mpr hm).append (List.singleton_sublist.mpr hm')
  obtain ⟨block, hblock⟩ := Option.isSome_iff_exists.mp hlive
  refine ⟨r₀, r, m, m', h₀, h, hsub, hlive, hgone, hcheck, (hstale hsub).1 hblock hgone, ?_⟩
  cases hf : (r.act (.resolveBranch ⟨13⟩ true)).outcome with
  | ok r' =>
    rw [hf] at hact
    cases hact
  | error f => exact ⟨f, rfl, hrefused hf⟩

end Routine
end FlowGraph
