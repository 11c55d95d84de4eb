import FlowGraph.Proofs.Renaming
import FlowGraph.Routine

/-! # Conversion to single assignment form

What the steps of the conversion add up to (`Versioned`), for a graph in which nothing but the exit
may be out of reach: which phi functions there are, which versions are in force where, and what
became of every block.  The conversion of a well-formed graph without phi functions gives such a
graph (`toSsa_spec`); neither the checks at its end nor anything before them can fail.
-/
namespace FlowGraph

/-! ### Occurrences of variables -/

theorem Block.mem_occurrences {block : Block} {v : Var} :
    v ∈ block.occurrences ↔
      (∃ name p, block.phis.get? name = some p ∧
        (v = Phis.lhs name p ∨ ∃ e, p.arg? e = some v)) ∨
      v ∈ block.kind.defs ∨ v ∈ block.kind.uses := by
  unfold Block.occurrences
  rw [List.mem_append]
  refine or_congr ?_ ?_
  · simp only [Phis.toList, List.flatMap_map, List.mem_flatMap, Prod.exists, List.mem_cons,
      List.mem_map, exists_eq_right, OrdMap.get?_eq_some_iff, Phi.arg?]
  · cases block.kind with
    | statement s => exact List.mem_append
    | branch b => simp [Kind.defs, Kind.uses]
    | _ => simp [Kind.defs, Kind.uses]

namespace Graph

variable {g : Graph}

/-- A variable occurs somewhere in a graph. -/
def Occurs (g : Graph) (v : Var) : Prop :=
  ∃ b block, g.block? b = some block ∧ v ∈ block.occurrences

theorem mem_occurrences {v : Var} : v ∈ g.liveBlocks.flatMap Block.occurrences ↔ g.Occurs v := by
  simp only [List.mem_flatMap, mem_liveBlocks]
  constructor
  · rintro ⟨block, ⟨b, hb⟩, hv⟩
    exact ⟨b, block, hb, hv⟩
  · rintro ⟨b, block, hb, hv⟩
    exact ⟨block, ⟨b, hb⟩, hv⟩

theorem occurs_of_use {b : BlockId} {k : Kind} (hk : g.kind? b = some k)
    {v : Var} (hv : v ∈ k.uses) :
    g.Occurs v := by
  obtain ⟨block, hb, rfl⟩ := block?_of_kind? hk
  exact ⟨b, block, hb, Block.mem_occurrences.mpr (.inr (.inr hv))⟩

theorem occurs_of_def {b : BlockId} {k : Kind} (hk : g.kind? b = some k)
    {v : Var} (hv : v ∈ k.defs) :
    g.Occurs v := by
  obtain ⟨block, hb, rfl⟩ := block?_of_kind? hk
  exact ⟨b, block, hb, Block.mem_occurrences.mpr (.inr (.inl hv))⟩

theorem occurs_iff {v : Var} :
    g.Occurs v ↔ (∃ b name p, g.phi? b name = some p ∧
        (v = Phis.lhs name p ∨ ∃ e, p.arg? e = some v)) ∨
      ∃ b k, g.kind? b = some k ∧ (v ∈ k.defs ∨ v ∈ k.uses) := by
  constructor
  · rintro ⟨b, block, hb, hv⟩
    rcases Block.mem_occurrences.mp hv with ⟨name, p, hp, hv⟩ | hv
    · exact .inl ⟨b, name, p, by rw [phi?, hb]; exact hp, hv⟩
    · exact .inr ⟨b, block.kind, kind?_of_block? hb, hv⟩
  · rintro (⟨b, name, p, hp, hv⟩ | ⟨b, k, hk, hv | hv⟩)
    · obtain ⟨block, hb, hp⟩ := Option.bind_eq_some_iff.mp hp
      exact ⟨b, block, hb, Block.mem_occurrences.mpr (.inl ⟨name, p, hp, hv⟩)⟩
    · exact occurs_of_def hk hv
    · exact occurs_of_use hk hv

theorem checkVersions_iff : g.checkVersions = .ok () ↔ ∀ v, g.Occurs v → v.isVersioned = true := by
  simp only [checkVersions, forM_eq_ok, demand_eq_ok, mem_liveBlocks]
  constructor
  · rintro h v ⟨b, block, hb, hv⟩
    exact h block ⟨b, hb⟩ v hv
  · rintro h block ⟨b, hb⟩ v hv
    exact h v ⟨b, block, hb, hv⟩

end Graph

namespace Ssa

open FlowGraph.Graph (SameOutline)

/-- **A graph in single assignment form** made from a graph without phi functions. -/
structure Versioned (g g' : Graph) (names names' : NameSupply) (stops : List Stop) : Prop where
  outline : SameOutline g g'
  /-- One stop for each block that the entry reaches. -/
  stop_iff : ∀ b, b ∈ stops.map Stop.block ↔ g.Reachable b
  nodup : (stops.map Stop.block).Nodup
  /-- The versions in force at a block are those of its immediate dominator. -/
  inn_eq : ∀ a ∈ stops, a.block = Graph.entry ∧ a.inn = [] ∨
    ∃ p ∈ stops, g.ImmediatelyDominates p.block a.block ∧ a.inn = p.out
  kind?_stop : ∀ a ∈ stops, g'.kind? a.block = (g.kind? a.block).map
    (Kind.rename (fun v => a.mid.current v.name) (fun v => a.out.current v.name))
  kind?_other : ∀ b, ¬ g.Reachable b → g'.kind? b = g.kind? b
  lhs_eq : ∀ a ∈ stops, ∀ {name p}, g'.phi? a.block name = some p →
    Phis.lhs name p = a.mid.current name
  arg?_iff : ∀ {b name p}, g'.phi? b name = some p → ∀ {e v}, p.arg? e = some v ↔
    ∃ a ∈ stops, ∃ dir, g.edge? e = some ⟨a.block, b, dir⟩ ∧ v = a.out.current name
  merged_iff : ∀ a ∈ stops, ∀ name, name ∈ a.merged.map Prod.fst ↔ g'.hasPhi a.block name = true
  merged_nodup : ∀ a ∈ stops, (a.merged.map Prod.fst).Nodup
  own_names : ∀ a ∈ stops, ∀ {k}, g.kind? a.block = some k →
    a.own.map Prod.fst = k.defs.map Var.name
  gains : Gains names (stops.flatMap fun a => a.own ++ a.merged) names'
  /-- Phi functions stand where definitions meet. -/
  hasPhi_iff : ∀ {b n}, g'.hasPhi b n = true ↔ g.Joins n b

theorem Placed.phi?_bare {g₀ g : Graph} (h : Placed g₀ g) {b : BlockId} {name : String} {p : Phi}
    (hp : g.phi? b name = some p) : p = .new none := by
  obtain ⟨block, hb, hp⟩ := Option.bind_eq_some_iff.mp hp
  exact h.bare hb hp

theorem Placed.wellFormed {g₀ g : Graph} (hg : g₀.WellFormed) (h : Placed g₀ g) : g.WellFormed := by
  refine hg.of_outline h.outline (fun b => by rw [h.kind?_eq]) ?_
  intro b block hb name p hp e v hv
  rw [h.bare hb hp] at hv
  cases hv

/-- **Placement and renaming together.** -/
theorem convert_spec {g : Graph} (hg : g.WellFormed) (hp : g.PhiFree) {d : Dominance}
    (hd : d.Describes g) (names : NameSupply) :
    ∃ count g₁ names' g' stops, PlacesAll d g count g₁ ∧
      (rename d names g₁).outcome = .ok (names', g') ∧ Versioned g g' names names' stops := by
  obtain ⟨count, g₁, hplace⟩ := place_spec hg hp hd
  have hplaced := hplace.placed
  obtain ⟨stops, ⟨names', g'⟩, hrename, htrek, hgrove⟩ := rename_spec hg hd names hplaced.outline
  have hprog := Progress.trek (hplaced.wellFormed hg).listed htrek
    (.start (fun hp => hplaced.phi?_bare hp) names) hgrove.nodup (fun _ _ => List.not_mem_nil)
  rw [List.append_nil] at hprog
  -- `Progress` has the latest stop first; nothing below depends on the order.
  have hmem : ∀ {a}, a ∈ stops ↔ a ∈ stops.reverse := List.mem_reverse.symm
  have hstop : ∀ b, b ∈ stops.map Stop.block ↔ g.Reachable b := by
    intro b
    rw [hgrove.mem_iff]
    exact ⟨fun h => h.1, fun h => ⟨h, Graph.entry, List.mem_singleton.mpr rfl, .of_entry b⟩⟩
  refine ⟨count, g₁, names', g', stops, hplace, hrename, hplaced.outline.trans hprog.outline, hstop,
    hgrove.nodup, ?_, ?_, ?_, ?_, ?_, ?_, ?_, ?_, ?_, ?_⟩
  · intro a ha
    exact (hgrove.inn_eq a ha).imp_left fun h => ⟨List.mem_singleton.mp h.1, h.2⟩
  · intro a ha
    rw [hprog.kind?_done a (hmem.mp ha), hplaced.kind?_eq]
  · intro b hb
    rw [hprog.kind?_other b, hplaced.kind?_eq]
    rw [List.map_reverse, List.mem_reverse, hstop]
    exact hb
  · exact fun a ha => hprog.lhs_eq a (hmem.mp ha)
  · intro b name p hp e v
    rw [hprog.arg?_iff hp]
    simp only [List.mem_reverse, hplaced.outline.edge?_eq]
  · intro a ha name
    rw [hprog.merged_iff a (hmem.mp ha), hprog.hasPhi_eq]
  · exact fun a ha => hprog.merged_nodup a (hmem.mp ha)
  · intro a ha k hk
    exact hprog.own_names a (hmem.mp ha) (hplaced.kind?_eq _ ▸ hk)
  · exact hprog.gains.perm ((List.reverse_perm stops).flatMap_right _)
  · intro b n
    rw [hprog.hasPhi_eq]
    exact hplace.hasPhi_iff b n

namespace Versioned

variable {g g' : Graph} {names names' : NameSupply} {stops : List Stop}
  (h : Versioned g g' names names' stops)
include h

theorem exists_stop {b : BlockId} (hb : g.Reachable b) : ∃ a ∈ stops, a.block = b :=
  List.mem_map.mp ((h.stop_iff b).mpr hb)

theorem reachable {a : Stop} (ha : a ∈ stops) : g.Reachable a.block :=
  (h.stop_iff _).mp (List.mem_map_of_mem ha)

/-- What the block of a stop does, before and after. -/
theorem exists_kind (hg : g.WellFormed) {a : Stop} (ha : a ∈ stops) :
    ∃ k, g.kind? a.block = some k ∧ g'.kind? a.block =
      some (k.rename (fun v => a.mid.current v.name) (fun v => a.out.current v.name)) := by
  obtain ⟨block, hb⟩ := hg.live_of_reachable (h.reachable ha)
  have hk := Graph.kind?_of_block? hb
  exact ⟨block.kind, hk, by rw [h.kind?_stop a ha, hk, Option.map_some]⟩

theorem stop_unique {a a' : Stop} (ha : a ∈ stops) (ha' : a' ∈ stops) (heq : a.block = a'.block) :
    a = a' :=
  List.inj_on_of_nodup_map h.nodup ha ha' heq

theorem phi?_reachable {b : BlockId} {name : String} {p : Phi} (hp : g'.phi? b name = some p) :
    g.Reachable b := by
  refine (h.hasPhi_iff (n := name).mp ?_).reachable
  rw [Graph.hasPhi_eq_isSome, hp]
  rfl

/-- Blocks stay of their kind. -/
theorem kind_name (b : BlockId) : (g'.kind? b).map Kind.name = (g.kind? b).map Kind.name := by
  by_cases hb : g.Reachable b
  · obtain ⟨a, ha, rfl⟩ := h.exists_stop hb
    rw [h.kind?_stop a ha, Option.map_map]
    exact congrArg (Option.map · _) (funext Kind.name_rename)
  · rw [h.kind?_other b hb]

theorem wellFormed (hg : g.WellFormed) : g'.WellFormed := by
  refine hg.of_outline h.outline (fun b => Kind.map_shape_of_name (h.kind_name b)) ?_
  intro b block hb name p hp e v hv
  obtain ⟨a, -, dir, he, -⟩ := (h.arg?_iff (by rw [Graph.phi?, hb]; exact hp)).mp hv
  obtain ⟨block₀, hb₀, -, hpreds, -⟩ := h.outline.exists_block hb
  rw [hpreds]
  exact (hg.listed.mem_preds hb₀ e).mpr ⟨_, he, rfl⟩

/-- What a block of the result does comes from a stop, since nothing but the exit is out of reach.
-/
theorem stop_of_kind? (hg : g.WellFormed) (hr : g.Reached) {b : BlockId} {k : Kind}
    (hk : g'.kind? b = some k) (hne : k ≠ .exit) : ∃ a ∈ stops, a.block = b ∧ ∃ k₀,
      g.kind? b = some k₀ ∧
        k₀.rename (fun v => a.mid.current v.name) (fun v => a.out.current v.name) = k := by
  have hb : g.Reachable b := by
    by_contra hb
    rw [h.kind?_other b hb] at hk
    exact hb (hg.reachable_of_kind? hr hk hne)
  obtain ⟨a, ha, rfl⟩ := h.exists_stop hb
  rw [h.kind?_stop a ha] at hk
  exact ⟨a, ha, rfl, Option.map_eq_some_iff.mp hk⟩

/-- Everything carries a version. -/
theorem versioned (hg : g.WellFormed) (hr : g.Reached) {v : Var} (hv : g'.Occurs v) :
    v.isVersioned = true := by
  rcases Graph.occurs_iff.mp hv with ⟨b, name, p, hp, hv⟩ | ⟨b, k, hk, hv⟩
  · rcases hv with rfl | ⟨e, hv⟩
    · obtain ⟨a, ha, rfl⟩ := h.exists_stop (h.phi?_reachable hp)
      rw [h.lhs_eq a ha hp]
      rfl
    · obtain ⟨a, -, dir, -, rfl⟩ := (h.arg?_iff hp).mp hv
      rfl
  · have hne : k ≠ .exit := by
      rintro rfl
      simp [Kind.defs, Kind.uses] at hv
    obtain ⟨a, -, -, k₀, -, rfl⟩ := h.stop_of_kind? hg hr hk hne
    rw [Kind.defs_rename, Kind.uses_rename] at hv
    rcases hv with hv | hv <;>
    · obtain ⟨u, -, rfl⟩ := List.mem_map.mp hv
      rfl

end Versioned
end Ssa

/-! ### The whole conversion -/

namespace Routine

theorem settle_spec (r : Routine) {g : Graph} (hg : g.WellFormed) :
    (r.settle g).outcome = .ok (r.withGraph g) :=
  Run.outcome_bind_of_ok hg.wired.demandConsistent _

/-- **Pruning** a routine, the graph of which has no phi functions. -/
theorem exists_prune (r : Routine) (hg : r.graph.WellFormed) (hp : r.graph.PhiFree) :
    ∃ r', r.prune.outcome = .ok r' ∧ r'.names = r.names ∧
      r'.graph = r.graph.unreachable.foldl Graph.removeBlock r.graph := by
  have hprune := hg.outcome_pruneUnreachable hp
  by_cases h0 : 0 < r.graph.unreachable.length
  · refine ⟨r.withGraph _, (Run.outcome_bind_of_ok hprune _).trans ?_, rfl, rfl⟩
    simp only [if_pos h0]
    exact r.settle_spec (hg.restricts_unreachable (hg.listed.foldl_removeBlock _)).1
  · refine ⟨r, (Run.outcome_bind_of_ok hprune _).trans ?_, rfl, ?_⟩
    · simp only [if_neg h0]
      rfl
    · rw [List.eq_nil_of_length_eq_zero (Nat.eq_zero_of_not_pos h0)]
      rfl

theorem prune_spec (r : Routine) (hg : r.graph.WellFormed) (hp : r.graph.PhiFree) :
    ∃ r', r.prune.outcome = .ok r' ∧ r'.names = r.names ∧
      Graph.Restricts r.graph r'.graph (· ∈ r.graph.unreachable) := by
  obtain ⟨r', hprune, hnames, hgraph⟩ := r.exists_prune hg hp
  exact ⟨r', hprune, hnames, hgraph ▸ hg.listed.foldl_removeBlock _⟩

/-- **The conversion step by step.** -/
theorem outcome_toSsa {r r₁ : Routine} {d : Dominance} {count : Nat} {g₁ g' : Graph}
    {names' : NameSupply}
    (hprune : r.prune.outcome = .ok r₁) (hd : Dominance.ofGraph r₁.graph = .ok d)
    (hplace : (Ssa.place d (Web.ofGraph r₁.graph) r₁.graph).outcome = .ok (count, g₁))
    (hrename : (Ssa.rename d r₁.names g₁).outcome = .ok (names', g'))
    (hversions : g'.checkVersions = .ok ()) (hg' : g'.WellFormed) :
    r.toSsa.outcome = .ok ⟨g', names', some d, some (Web.ofGraph g')⟩ := by
  have hdom : r₁.refreshDominance.outcome = .ok (d, { r₁ with dominance := some d }) :=
    Run.outcome_bind_of_ok hd _
  refine (Run.outcome_bind_of_ok hprune _).trans ?_
  refine (Run.outcome_bind_of_ok hdom _).trans ?_
  refine (Run.outcome_bind_of_ok rfl _).trans ?_
  refine (Run.outcome_bind_of_ok hplace _).trans ?_
  refine (Run.outcome_bind_of_ok rfl _).trans ?_
  refine (Run.outcome_bind_of_ok hrename _).trans ?_
  simp only [hversions]
  exact Run.outcome_bind_of_ok hg'.wired.demandConsistent _

/-- **The steps of the conversion**, none of which fails. -/
theorem toSsa_steps (r : Routine) (hg : r.graph.WellFormed) (hp : r.graph.PhiFree) :
    ∃ r₁ d count g₁ r' stops, r.prune.outcome = .ok r₁ ∧
      Graph.Restricts r.graph r₁.graph (· ∈ r.graph.unreachable) ∧
      Dominance.ofGraph r₁.graph = .ok d ∧ Ssa.PlacesAll d r₁.graph count g₁ ∧
      r.toSsa.outcome = .ok r' ∧ .phisInserted count g₁.name ∈ r.toSsa.events ∧
      Ssa.Versioned r₁.graph r'.graph r.names r'.names stops := by
  obtain ⟨r₁, hprune, hnames, hres⟩ := r.prune_spec hg hp
  obtain ⟨hg₁, -, hreached⟩ := hg.restricts_unreachable hres
  obtain ⟨d, hd, hdesc⟩ := Dominance.ofGraph_spec hg₁
  obtain ⟨count, g₁, names', g', stops, hplace, hrename, hver⟩ :=
    Ssa.convert_spec hg₁ (hres.phiFree hp) hdesc r₁.names
  have hversions := Graph.checkVersions_iff.mpr fun v hv =>
    hver.versioned hg₁ hreached hv
  have hdom : r₁.refreshDominance.outcome = .ok (d, { r₁ with dominance := some d }) :=
    Run.outcome_bind_of_ok hd _
  refine ⟨r₁, d, count, g₁, ⟨g', names', some d, some (Web.ofGraph g')⟩, stops, hprune, hres, hd,
    hplace, outcome_toSsa hprune hd hplace.run hrename hversions (hver.wellFormed hg₁),
    ?_, hnames ▸ hver⟩
  · rw [toSsa, Run.events_bind_of_ok hprune, Run.events_bind_of_ok hdom, Run.events_bind_of_ok rfl,
      Run.events_bind_of_ok hplace.run, Run.events_bind_of_ok rfl]
    simp only [List.mem_append]
    exact .inr (.inr (.inr (.inr (.inl (List.mem_singleton.mpr rfl)))))

/-- **The conversion succeeds** on every well-formed graph without phi functions. -/
theorem toSsa_spec (r : Routine) (hg : r.graph.WellFormed) (hp : r.graph.PhiFree) :
    ∃ r' g stops, r.toSsa.outcome = .ok r' ∧
      Graph.Restricts r.graph g (· ∈ r.graph.unreachable) ∧
      Ssa.Versioned g r'.graph r.names r'.names stops := by
  obtain ⟨r₁, d, count, g₁, r', stops, -, hres, -, -, hok, -, hver⟩ := r.toSsa_steps hg hp
  exact ⟨r', r₁.graph, stops, hok, hres, hver⟩

end Routine

/-- A loop that changes a variable, with a block out of reach that leads into it. -/
def Graph.countdown : Graph where
  name := "countdown"
  blocks := #[
    some { id := ⟨0⟩, kind := .entry, succs := [⟨0⟩] },
    some { id := ⟨1⟩, kind := .exit, preds := [⟨4⟩] },
    some { id := ⟨2⟩, kind := .statement (.assign (.plain "n") false (.lit (.int 3)))
           preds := [⟨0⟩], succs := [⟨1⟩] },
    some { id := ⟨3⟩, kind := .branch ⟨.plain "n", "more", "done"⟩
           preds := [⟨1⟩, ⟨3⟩, ⟨5⟩], succs := [⟨2⟩, ⟨4⟩] },
    some { id := ⟨4⟩,
           kind := .statement (.assign (.plain "n") false (.unary "dec" (.var (.plain "n"))))
           preds := [⟨2⟩], succs := [⟨3⟩] },
    some { id := ⟨5⟩, kind := .statement (.eval (.var (.plain "n"))), succs := [⟨5⟩] }]
  edges := #[some ⟨⟨0⟩, ⟨2⟩, .always⟩, some ⟨⟨2⟩, ⟨3⟩, .always⟩, some ⟨⟨3⟩, ⟨4⟩, .onTrue⟩,
    some ⟨⟨4⟩, ⟨3⟩, .always⟩, some ⟨⟨3⟩, ⟨1⟩, .onFalse⟩, some ⟨⟨5⟩, ⟨3⟩, .always⟩]

end FlowGraph
