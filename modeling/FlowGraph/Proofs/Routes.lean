import FlowGraph.Proofs.DepthFirst
import FlowGraph.Proofs.LookUps
import FlowGraph.Graph.Traversal

/-! # Routes through a graph

A route follows edges from the entry.  A block is *reachable* if a route leads to it, and it
*dominates* another if every route to the other passes through it.  These are the notions that the
searches and the dominator tree of the library compute; here they are related to each other, and the
searches to reachability.
-/
namespace FlowGraph
namespace Graph

/-- Some edge leads from one block to another. -/
def Leads (g : Graph) (a b : BlockId) : Prop := ∃ e d, g.edge? e = some ⟨a, b, d⟩

/-- **A route** from the entry to a block: the blocks that it passes, the latest first. -/
inductive Route (g : Graph) : List BlockId → BlockId → Prop
  | start : Route g [entry] entry
  | step {p : List BlockId} {a b : BlockId} : Route g p a → g.Leads a b → Route g (b :: p) b

/-- Some route leads to a block. -/
def Reachable (g : Graph) (b : BlockId) : Prop := ∃ p, g.Route p b

/-- **Dominance**: every route to `b` passes through `a`. -/
def Dominates (g : Graph) (a b : BlockId) : Prop := ∀ p, g.Route p b → a ∈ p

/-- **Immediate dominance**: the closest dominator of a reachable block other than itself. -/
structure ImmediatelyDominates (g : Graph) (a b : BlockId) : Prop where
  reachable : g.Reachable b
  dominates : g.Dominates a b
  ne : a ≠ b
  closest : ∀ {c}, g.Dominates c b → c ≠ b → g.Dominates c a

variable {g : Graph}

/-! ### Routes -/

namespace Route

variable {p : List BlockId} {a b c : BlockId}

theorem mem_self (h : g.Route p b) : b ∈ p := by
  cases h <;> exact List.mem_cons_self ..

theorem entry_mem (h : g.Route p b) : entry ∈ p := by
  induction h with
  | start => exact List.mem_singleton.mpr rfl
  | step _ _ ih => exact List.mem_cons_of_mem _ ih

/-- The part of a route up to a block that it passes. -/
theorem upTo (h : g.Route p b) (ha : a ∈ p) : ∃ q, g.Route q a ∧ q <:+ p := by
  induction h with
  | start =>
    rw [List.mem_singleton.mp ha]
    exact ⟨_, .start, List.suffix_refl _⟩
  | @step p c b hp hl ih =>
    rcases List.mem_cons.mp ha with rfl | ha
    · exact ⟨_, .step hp hl, List.suffix_refl _⟩
    · obtain ⟨q, hq, hs⟩ := ih ha
      exact ⟨q, hq, hs.trans (List.suffix_cons b p)⟩

theorem reachable_of_mem (h : g.Route p b) (ha : a ∈ p) : g.Reachable a := by
  obtain ⟨q, hq, -⟩ := h.upTo ha
  exact ⟨q, hq⟩

/-- Without its loops a route passes no block twice. -/
theorem simple (h : g.Route p b) : ∃ q, g.Route q b ∧ q.Nodup ∧ q ⊆ p := by
  induction h with
  | start => exact ⟨_, .start, List.nodup_singleton _, List.Subset.refl _⟩
  | @step p c b _ hl ih =>
    obtain ⟨q, hq, hn, hs⟩ := ih
    by_cases hb : b ∈ q
    · obtain ⟨r, hr, hrq⟩ := hq.upTo hb
      exact ⟨r, hr, hrq.sublist.nodup hn,
        fun x hx => List.mem_cons_of_mem _ (hs (hrq.subset hx))⟩
    · exact ⟨b :: q, .step hq hl, List.nodup_cons.mpr ⟨hb, hn⟩, List.cons_subset_cons b hs⟩

end Route

theorem Reachable.entry : g.Reachable entry := ⟨_, .start⟩

theorem Reachable.step {a b : BlockId} (ha : g.Reachable a) (h : g.Leads a b) : g.Reachable b := by
  obtain ⟨p, hp⟩ := ha
  exact ⟨_, .step hp h⟩

theorem reachable_iff_reflTransGen {b : BlockId} :
    g.Reachable b ↔ Relation.ReflTransGen g.Leads entry b := by
  constructor
  · rintro ⟨p, hp⟩
    induction hp with
    | start => exact .refl
    | step _ hl ih => exact ih.tail hl
  · intro h
    induction h with
    | refl => exact .entry
    | tail _ hl ih => exact ih.step hl

/-- A reachable block other than the entry has a reachable predecessor. -/
theorem Reachable.pred {b : BlockId} (hb : g.Reachable b) (hne : b ≠ Graph.entry) :
    ∃ a, g.Reachable a ∧ g.Leads a b := by
  obtain ⟨p, hp⟩ := hb
  cases hp with
  | start => exact absurd rfl hne
  | step hp hl => exact ⟨_, ⟨_, hp⟩, hl⟩

/-! ### Dominance -/

namespace Dominates

variable {a b c : BlockId}

theorem refl (b : BlockId) : g.Dominates b b := fun _ h => h.mem_self

theorem of_entry (b : BlockId) : g.Dominates entry b := fun _ h => h.entry_mem

theorem trans (hab : g.Dominates a b) (hbc : g.Dominates b c) : g.Dominates a c := by
  intro p hp
  obtain ⟨q, hq, hs⟩ := hp.upTo (hbc p hp)
  exact hs.subset (hab q hq)

theorem reachable (hab : g.Dominates a b) (hb : g.Reachable b) : g.Reachable a := by
  obtain ⟨p, hp⟩ := hb
  exact hp.reachable_of_mem (hab p hp)

/-- Nothing else dominates the entry. -/
theorem eq_entry (h : g.Dominates a entry) : a = entry :=
  List.mem_singleton.mp (h _ .start)

/-- What dominates a block dominates its predecessors, the block itself apart. -/
theorem pred (hab : g.Dominates a b) (hne : a ≠ b) (hcb : g.Leads c b) : g.Dominates a c := by
  intro p hp
  exact (List.mem_cons.mp (hab _ (.step hp hcb))).resolve_left hne

theorem antisymm (hab : g.Dominates a b) (hba : g.Dominates b a) (hb : g.Reachable b) : a = b := by
  refine Classical.byContradiction fun hne => ?_
  obtain ⟨p, hp⟩ := hb
  -- every route to `b` has a shorter one inside, by way of `a`
  have descend : ∀ n p, g.Route p b → p.length ≤ n → False := by
    intro n
    induction n with
    | zero =>
      intro p hp hlen
      have := List.length_pos_of_mem hp.mem_self
      omega
    | succ n ih =>
      intro p hp hlen
      cases hp with
      | start => exact hne hab.eq_entry
      | @step q c _ hq hl =>
        have haq : a ∈ q := (List.mem_cons.mp (hab _ (.step hq hl))).resolve_left hne
        obtain ⟨r, hr, hrq⟩ := hq.upTo haq
        obtain ⟨s, hs, hsr⟩ := hr.upTo (hba r hr)
        have h1 := hsr.length_le
        have h2 := hrq.length_le
        rw [List.length_cons] at hlen
        exact ih s hs (by omega)
  exact descend p.length p hp (Nat.le_refl _)

end Dominates

theorem ImmediatelyDominates.unique {a a' b : BlockId} (h : g.ImmediatelyDominates a b)
    (h' : g.ImmediatelyDominates a' b) : a = a' :=
  (h'.closest h.dominates h.ne).antisymm (h.closest h'.dominates h'.ne)
    (h'.dominates.reachable h'.reachable)

/-! ### Listings of neighbours -/

namespace Listed

theorem mem_targets (hg : g.Listed) {a b : BlockId} : b ∈ g.targets a ↔ g.Leads a b := by
  unfold targets
  constructor
  · intro h
    cases ha : g.block? a with
    | none => simp [ha] at h
    | some block =>
      simp only [ha, List.mem_filterMap, Option.map_eq_some_iff] at h
      obtain ⟨e, he, edge, hedge, rfl⟩ := h
      rw [← hg.source_eq ha he hedge]
      exact ⟨e, edge.direction, hedge⟩
  · rintro ⟨e, d, he⟩
    obtain ⟨block, ha⟩ := hg.source_live he
    simp only at ha
    simp only [ha, List.mem_filterMap, Option.map_eq_some_iff]
    exact ⟨e, (hg.mem_succs ha e).mpr ⟨_, he, rfl⟩, _, he, rfl⟩

theorem reaches_targets_iff (hg : g.Listed) {a b : BlockId} :
    DepthFirst.Reaches g.targets a b ↔ Relation.ReflTransGen g.Leads a b := by
  have hrel : (fun a b => b ∈ g.targets a) = g.Leads := by
    funext a b
    exact propext hg.mem_targets
  rw [DepthFirst.Reaches, hrel]

theorem mem_sources (hg : g.Listed) {a b : BlockId} : a ∈ g.sources b ↔ g.Leads a b := by
  unfold sources
  constructor
  · intro h
    cases hb : g.block? b with
    | none => simp [hb] at h
    | some block =>
      simp only [hb, List.mem_filterMap, Option.map_eq_some_iff] at h
      obtain ⟨e, he, edge, hedge, rfl⟩ := h
      rw [← hg.target_eq hb he hedge]
      exact ⟨e, edge.direction, hedge⟩
  · rintro ⟨e, d, he⟩
    obtain ⟨block, hb⟩ := hg.target_live he
    simp only at hb
    simp only [hb, List.mem_filterMap, Option.map_eq_some_iff]
    exact ⟨e, (hg.mem_preds hb e).mpr ⟨_, he, rfl⟩, _, he, rfl⟩

theorem mapM_edge_eq {α : Type} (f : Edge → α) {es : List EdgeId}
    (h : ∀ e ∈ es, ∃ edge, g.edge? e = some edge) :
    (es.mapM fun e => do return f (← g.edge e)) =
      (.ok (es.filterMap fun e => (g.edge? e).map f) : Answer (List α)) := by
  induction es with
  | nil => rfl
  | cons e es ih =>
    obtain ⟨⟨edge, he⟩, h⟩ := List.forall_mem_cons.mp h
    rw [List.mapM_cons, ih h, List.filterMap_cons, Graph.edge, he]
    rfl

/-- Where a block in use leads can be asked. -/
theorem successors_eq (hg : g.Listed) {b : BlockId} {block : Block} (hb : g.block? b = some block) :
    g.successors b = .ok (g.targets b) := by
  rw [successors, Graph.block, targets, hb]
  exact mapM_edge_eq (·.target) (hg.succs_live hb)

/-- Where a block in use is entered from can be asked. -/
theorem predecessors_eq (hg : g.Listed) {b : BlockId} {block : Block}
    (hb : g.block? b = some block) : g.predecessors b = .ok (g.sources b) := by
  rw [predecessors, Graph.block, sources, hb]
  exact mapM_edge_eq (·.source) (hg.preds_live hb)

theorem live_of_leads (hg : g.Listed) {a b : BlockId} (h : g.Leads a b) :
    ∃ block, g.block? b = some block := by
  obtain ⟨e, d, he⟩ := h
  exact hg.target_live he

theorem live_of_reachable (hg : g.Listed) (hentry : ∃ block, g.block? entry = some block)
    {b : BlockId} (h : g.Reachable b) : ∃ block, g.block? b = some block := by
  obtain ⟨p, hp⟩ := h
  cases hp with
  | start => exact hentry
  | step _ hl => exact hg.live_of_leads hl

theorem mem_blockIds (hg : g.Listed) {b : BlockId} :
    b ∈ g.blockIds ↔ ∃ block, g.block? b = some block := by
  simp only [blockIds, List.mem_map, mem_liveBlocks]
  constructor
  · rintro ⟨block, ⟨c, hc⟩, rfl⟩
    exact ⟨block, (hg.id_eq hc).symm ▸ hc⟩
  · rintro ⟨block, hb⟩
    exact ⟨block, ⟨b, hb⟩, hg.id_eq hb⟩

theorem sorted_blockIds (hg : g.Listed) : g.blockIds.Pairwise fun b c => b.slot < c.slot := by
  refine List.pairwise_map.mpr (List.pairwise_filterMap.mpr (List.pairwise_iff_getElem.mpr ?_))
  intro i j hi hj hij a ha b hb
  have hid : ∀ {k : Nat} (hk : k < g.blocks.toList.length) {block : Block},
      g.blocks.toList[k] = some block → block.id.slot = k := fun {k} hk {block} h => by
    refine congrArg BlockId.slot (hg.id_eq (b := ⟨k⟩) ?_)
    rw [block?, ← Array.getElem?_toList, List.getElem?_eq_getElem hk, h]
    rfl
  rwa [hid hi ha, hid hj hb]

theorem nodup_blockIds (hg : g.Listed) : g.blockIds.Nodup :=
  hg.sorted_blockIds.imp fun hlt heq => Nat.ne_of_lt hlt (congrArg BlockId.slot heq)

end Listed

/-! ### Searches -/

/-- The blocks that the entry reaches, in the order in which a search meets them. -/
def reachable (g : Graph) : List BlockId :=
  DepthFirst.preorder g.targets g.blocks.size [entry]

/-- The blocks that the entry reaches, in the order in which a search leaves them. -/
def postorder (g : Graph) : List BlockId :=
  DepthFirst.postorder g.targets g.blocks.size [entry]

/-- All blocks in the order in which a search meets them that starts at the entry and then at every
block it has not met, in the order of their slots. -/
def layoutOrder (g : Graph) : List BlockId :=
  DepthFirst.preorder g.targets g.blocks.size (entry :: g.blockIds)

/-- **No search fails** where edges are listed as they should be. -/
theorem Listed.searchFrom_eq (hg : g.Listed) {roots : List BlockId}
    (hroots : ∀ r ∈ roots, ∃ block, g.block? r = some block) :
    g.searchFrom roots = .ok (DepthFirst.search g.targets g.blocks.size roots) := by
  have hnext : ∀ b ∈ g.blockIds, g.successors b = .ok (g.targets b) := fun b hb => by
    obtain ⟨block, hb⟩ := hg.mem_blockIds.mp hb
    exact hg.successors_eq hb
  refine DepthFirst.searchM_eq hnext (fun b _ c hc => ?_) _
    fun r hr => hg.mem_blockIds.mpr (hroots r hr)
  exact hg.mem_blockIds.mpr (hg.live_of_leads (hg.mem_targets.mp hc))

/-- All handles below the size of the table. -/
def handles (g : Graph) : List BlockId := (List.range g.blocks.size).map BlockId.mk

theorem mem_handles {b : BlockId} : b ∈ g.handles ↔ b.slot < g.blocks.size := by
  simp only [handles, List.mem_map, List.mem_range]
  constructor
  · rintro ⟨i, hi, rfl⟩
    exact hi
  · exact fun h => ⟨b.slot, h, rfl⟩

theorem length_handles : g.handles.length = g.blocks.size := by simp [handles]

theorem nodup_handles (g : Graph) : g.handles.Nodup :=
  List.nodup_range.map fun _ _ h => congrArg BlockId.slot h

section Search
variable (hg : g.WellFormed)
include hg

theorem WellFormed.entry_live : ∃ block, g.block? entry = some block := by
  obtain ⟨block, hb, -⟩ := block?_of_kind? hg.wired.entry_kind
  exact ⟨block, hb⟩

theorem WellFormed.exit_live : ∃ block, g.block? exit = some block := by
  obtain ⟨block, hb, -⟩ := block?_of_kind? hg.wired.exit_kind
  exact ⟨block, hb⟩

theorem WellFormed.live_of_reachable {b : BlockId} (h : g.Reachable b) :
    ∃ block, g.block? b = some block :=
  hg.listed.live_of_reachable hg.entry_live h

theorem WellFormed.searchFrom_entry :
    g.searchFrom [entry] = .ok (DepthFirst.search g.targets g.blocks.size [entry]) :=
  hg.listed.searchFrom_eq fun _ hr => List.mem_singleton.mp hr ▸ hg.entry_live

theorem WellFormed.reachableFromEntry_eq : g.reachableFromEntry = .ok g.reachable := by
  rw [reachableFromEntry, hg.searchFrom_entry]
  rfl

theorem WellFormed.postorderFromEntry_eq : g.postorderFromEntry = .ok g.postorder := by
  rw [postorderFromEntry, hg.searchFrom_entry]
  rfl

theorem WellFormed.root_live {r : BlockId} (hr : r ∈ entry :: g.blockIds) :
    ∃ block, g.block? r = some block := by
  rcases List.mem_cons.mp hr with rfl | hr
  · exact hg.entry_live
  · exact hg.listed.mem_blockIds.mp hr

theorem WellFormed.roots_mem_handles : ∀ r ∈ entry :: g.blockIds, r ∈ g.handles := by
  intro r hr
  obtain ⟨block, hb⟩ := hg.root_live hr
  exact mem_handles.mpr (slot_lt_of_block? hb)

/-- A search from the entry and then from every block meets every block, and nothing else. -/
theorem WellFormed.reaches_roots_iff {b : BlockId} :
    (∃ r ∈ entry :: g.blockIds, DepthFirst.Reaches g.targets r b) ↔
      ∃ block, g.block? b = some block := by
  constructor
  · rintro ⟨r, hr, hreach⟩
    cases hreach with
    | refl => exact hg.root_live hr
    | tail _ hlast => exact hg.listed.live_of_leads (hg.listed.mem_targets.mp hlast)
  · exact fun h => ⟨b, List.mem_cons_of_mem _ (hg.listed.mem_blockIds.mpr h), .refl⟩

theorem WellFormed.layoutFromEntry_eq : g.layoutFromEntry = .ok g.layoutOrder := by
  rw [layoutFromEntry, hg.listed.searchFrom_eq fun _ => hg.root_live]
  rfl

/-- **The entry reaches every block** but perhaps the exit. -/
def Reached (g : Graph) : Prop := ∀ ⦃b block⦄, g.block? b = some block → b = exit ∨ g.Reachable b

theorem WellFormed.reachable_of_kind? (hr : g.Reached) {b : BlockId} {k : Kind}
    (hk : g.kind? b = some k) (hne : k ≠ .exit) : g.Reachable b := by
  obtain ⟨block, hb, -⟩ := block?_of_kind? hk
  exact (hr hb).resolve_left (hg.ne_exit hk hne)

theorem WellFormed.handles_closed : ∀ v ∈ g.handles, ∀ w ∈ g.targets v, w ∈ g.handles := by
  intro v _ w hw
  obtain ⟨block, hb⟩ := hg.listed.live_of_leads (hg.listed.mem_targets.mp hw)
  exact mem_handles.mpr (slot_lt_of_block? hb)

theorem WellFormed.entry_mem_handles : ∀ r ∈ [entry], r ∈ g.handles := by
  intro r hr
  obtain ⟨block, hb⟩ := hg.entry_live
  rw [List.mem_singleton.mp hr]
  exact mem_handles.mpr (slot_lt_of_block? hb)

theorem WellFormed.reaches_iff {b : BlockId} :
    (∃ r ∈ [entry], DepthFirst.Reaches g.targets r b) ↔ g.Reachable b := by
  rw [reachable_iff_reflTransGen, ← hg.listed.reaches_targets_iff]
  constructor
  · rintro ⟨r, hr, h⟩
    exact List.mem_singleton.mp hr ▸ h
  · exact fun h => ⟨entry, List.mem_singleton.mpr rfl, h⟩

/-- The search from the entry meets the reachable blocks. -/
theorem WellFormed.mem_reachable {b : BlockId} : b ∈ g.reachable ↔ g.Reachable b := by
  rw [reachable, DepthFirst.mem_preorder_iff hg.handles_closed (Nat.le_of_eq length_handles)
    hg.entry_mem_handles, hg.reaches_iff]

theorem WellFormed.mem_postorder {b : BlockId} : b ∈ g.postorder ↔ g.Reachable b := by
  rw [postorder, DepthFirst.mem_postorder_iff hg.handles_closed (Nat.le_of_eq length_handles)
    hg.entry_mem_handles, hg.reaches_iff]

end Search
end Graph
end FlowGraph
