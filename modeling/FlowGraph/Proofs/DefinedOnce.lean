import FlowGraph.Proofs.SingleAssignment
import FlowGraph.Web

/-! # Definitions that come once, and first

What single assignment form owes to the definitions of variables does not depend on versions: each
variable has one definition at most, and that comes before all uses.  Dominance is decided by a
search that keeps away from a block, and the definitions of a graph are listed in its web, so this
can be checked of a given graph.
-/
namespace FlowGraph
namespace Graph

variable {g : Graph}

/-- **Every variable has at most one definition**, which comes before its uses.  Variables need not
carry versions. -/
structure DefinedOnce (g : Graph) : Prop where
  unique : ∀ {v site site'}, g.Defines site v → g.Defines site' v → site' = site
  before_use : ∀ {b k v site}, g.kind? b = some k → v ∈ k.uses → g.Defines site v →
    g.Dominates site.block b
  /-- A phi function uses an argument at the end of the source of the edge. -/
  before_arg : ∀ {b name p e v a d site}, g.phi? b name = some p → p.arg? e = some v →
    g.edge? e = some ⟨a, b, d⟩ → g.Defines site v → g.Dominates site.block a

/-! ### Dominance by search -/

/-- The blocks that the entry reaches without passing through a block. -/
def around (g : Graph) (b : BlockId) : List BlockId :=
  DepthFirst.preorder (fun a => (g.targets a).filter (· ≠ b)) g.blocks.size [entry]

theorem WellFormed.mem_around (hg : g.WellFormed) {b c : BlockId} (hb : b ≠ entry) :
    c ∈ g.around b ↔ ∃ p, g.Route p c ∧ b ∉ p := by
  have hclosed : ∀ v ∈ g.handles, ∀ w ∈ (g.targets v).filter (· ≠ b), w ∈ g.handles :=
    fun v hv w hw => hg.handles_closed v hv w (List.mem_of_mem_filter hw)
  rw [around, DepthFirst.mem_preorder_iff hclosed (Nat.le_of_eq length_handles)
    hg.entry_mem_handles]
  simp only [List.mem_singleton, exists_eq_left]
  constructor
  · intro h
    induction h with
    | refl => exact ⟨[entry], .start, fun hin => hb (List.mem_singleton.mp hin)⟩
    | @tail v w _ hstep ih =>
      obtain ⟨p, hp, hnot⟩ := ih
      obtain ⟨hin, hne⟩ := List.mem_filter.mp hstep
      refine ⟨w :: p, .step hp (hg.listed.mem_targets.mp hin), fun hmem => ?_⟩
      rcases List.mem_cons.mp hmem with rfl | hmem
      · exact of_decide_eq_true hne rfl
      · exact hnot hmem
  · rintro ⟨p, hp, hnot⟩
    induction hp with
    | start => exact .refl
    | @step p a c _ hl ih =>
      rw [List.mem_cons, not_or] at hnot
      exact (ih hnot.2).tail (List.mem_filter.mpr
        ⟨hg.listed.mem_targets.mpr hl, decide_eq_true (Ne.symm hnot.1)⟩)

/-- Whether a search around a block misses another. -/
def Guards (g : Graph) (b c : BlockId) : Prop := b = entry ∨ c ∉ g.around b

instance (g : Graph) (b c : BlockId) : Decidable (g.Guards b c) :=
  inferInstanceAs (Decidable (b = entry ∨ c ∉ g.around b))

/-- **Dominance is decided** by a search around the block. -/
theorem WellFormed.dominates_iff (hg : g.WellFormed) {b c : BlockId} :
    g.Dominates b c ↔ g.Guards b c := by
  by_cases hb : b = entry
  · exact iff_of_true (hb ▸ .of_entry c) (.inl hb)
  · rw [Guards, or_iff_right hb, hg.mem_around hb]
    constructor
    · rintro h ⟨p, hp, hnot⟩
      exact hnot (h p hp)
    · intro h p hp
      exact by_contra fun hnot => h ⟨p, hp, hnot⟩

/-! ### Definitions by block -/

theorem mem_definitions {block : Block} {v : Var} {site : Site} :
    (v, site) ∈ block.definitions ↔
      (∃ name p, block.phis.get? name = some p ∧ v = Phis.lhs name p ∧ site = .phi block.id v) ∨
        ∃ s, block.kind = .statement s ∧ v ∈ s.defs ∧ site = .statement block.id := by
  rw [Block.definitions, List.mem_append]
  refine or_congr ?_ ?_
  · simp only [Phis.toList, List.map_map, List.mem_map, Function.comp_apply, Prod.exists,
      Prod.mk.injEq, OrdMap.get?_eq_some_iff]
    constructor
    · rintro ⟨name, p, hp, rfl, rfl⟩
      exact ⟨name, p, hp, rfl, rfl⟩
    · rintro ⟨name, p, hp, rfl, rfl⟩
      exact ⟨name, p, hp, rfl, rfl⟩
  · cases hkind : block.kind with
    | statement s =>
      simp only [List.mem_map, Prod.mk.injEq, Kind.statement.injEq, exists_eq_left']
      constructor
      · rintro ⟨_, hv, rfl, rfl⟩
        exact ⟨hv, rfl⟩
      · rintro ⟨hv, rfl⟩
        exact ⟨v, hv, rfl, rfl⟩
    | _ => simp only [List.not_mem_nil, reduceCtorEq, false_and, exists_false]

/-- The web of a graph lists its definitions. -/
theorem Listed.mem_defs (hg : g.Listed) {v : Var} {site : Site} :
    (v, site) ∈ (Web.ofGraph g).defs ↔ g.Defines site v := by
  simp only [Web.ofGraph, List.mem_flatMap, mem_liveBlocks, mem_definitions]
  constructor
  · rintro ⟨block, ⟨b, hb⟩, ⟨name, p, hp, rfl, rfl⟩ | ⟨s, hs, hv, rfl⟩⟩
    · rw [hg.id_eq hb]
      exact .phi ((phi?_of_block? hb name).trans hp)
    · rw [hg.id_eq hb]
      exact .statement (hs ▸ kind?_of_block? hb) hv
  · intro h
    cases h with
    | @statement b s _ hk hv =>
      obtain ⟨block, hb, hkind⟩ := block?_of_kind? hk
      exact ⟨block, ⟨b, hb⟩, .inr ⟨s, hkind, hv, by rw [hg.id_eq hb]⟩⟩
    | @phi b name p hp =>
      obtain ⟨block, hb, hp⟩ := Option.bind_eq_some_iff.mp hp
      exact ⟨block, ⟨b, hb⟩, .inl ⟨name, p, hp, rfl, by rw [hg.id_eq hb]⟩⟩

/-! ### The check -/

/-- The definitions of a variable, as far as the web lists them, come before the end of a block. -/
def DefsGuard (g : Graph) (v : Var) (b : BlockId) : Prop :=
  ∀ d ∈ (Web.ofGraph g).defs, d.1 = v → g.Guards d.2.block b

instance (g : Graph) (v : Var) (b : BlockId) : Decidable (g.DefsGuard v b) :=
  inferInstanceAs (Decidable (∀ d ∈ (Web.ofGraph g).defs, d.1 = v → g.Guards d.2.block b))

theorem WellFormed.defsGuard_iff (hg : g.WellFormed) {v : Var} {b : BlockId} :
    g.DefsGuard v b ↔ ∀ site, g.Defines site v → g.Dominates site.block b := by
  simp only [hg.dominates_iff, ← hg.listed.mem_defs]
  constructor
  · intro h site hdef
    exact h _ hdef rfl
  · rintro h ⟨_, site⟩ hd rfl
    exact h site hd

/-- **Single definitions can be checked** block by block. -/
theorem WellFormed.definedOnce_iff (hg : g.WellFormed) : g.DefinedOnce ↔
    (∀ d ∈ (Web.ofGraph g).defs, ∀ d' ∈ (Web.ofGraph g).defs, d'.1 = d.1 → d'.2 = d.2) ∧
    (∀ block ∈ g.liveBlocks, ∀ v ∈ block.kind.uses, g.DefsGuard v block.id) ∧
    ∀ block ∈ g.liveBlocks, ∀ e ∈ block.preds, ∀ c ∈ block.phis.copiesFor e,
      ∀ edge ∈ g.edge? e, g.DefsGuard c.src edge.source := by
  constructor
  · refine fun h => ⟨fun d hd d' hd' heq => ?_, fun block hblock v hv => ?_,
      fun block hblock e he c hc edge hedge => ?_⟩
    · exact h.unique (hg.listed.mem_defs.mp hd) (hg.listed.mem_defs.mp (heq ▸ hd'))
    · obtain ⟨b, hb⟩ := mem_liveBlocks.mp hblock
      rw [hg.listed.id_eq hb]
      exact hg.defsGuard_iff.mpr fun _ => h.before_use (kind?_of_block? hb) hv
    · obtain ⟨b, hb⟩ := mem_liveBlocks.mp hblock
      obtain ⟨⟨a, _, d⟩, hedge', rfl⟩ := (hg.listed.mem_preds hb e).mp he
      cases hedge'.symm.trans hedge
      obtain ⟨name, p, hp, -, harg⟩ := Phis.mem_copiesFor.mp hc
      exact hg.defsGuard_iff.mpr fun _ =>
        h.before_arg ((phi?_of_block? hb name).trans hp) harg hedge
  · rintro ⟨hunique, huse, harg⟩
    refine ⟨fun hdef hdef' => ?_, fun hk hv => ?_, fun {b name p e v _ _ _} hp hv he => ?_⟩
    · exact hunique _ (hg.listed.mem_defs.mpr hdef) _ (hg.listed.mem_defs.mpr hdef') rfl
    · obtain ⟨block, hb, rfl⟩ := block?_of_kind? hk
      rw [← hg.listed.id_eq hb]
      exact hg.defsGuard_iff.mp (huse block (mem_liveBlocks.mpr ⟨_, hb⟩) _ hv) _
    · obtain ⟨block, hb, hp⟩ := Option.bind_eq_some_iff.mp hp
      have hin := (hg.listed.mem_preds hb e).mpr ⟨_, he, rfl⟩
      have hc : (⟨Phis.lhs name p, v⟩ : Ssa.Copy) ∈ block.phis.copiesFor e :=
        Phis.mem_copiesFor.mpr ⟨name, p, hp, rfl, hv⟩
      exact hg.defsGuard_iff.mp (harg block (mem_liveBlocks.mpr ⟨b, hb⟩) e hin _ hc _ he) _

end Graph
end FlowGraph
