import FlowGraph.Proofs.Frontier
import FlowGraph.Proofs.OrdMap
import FlowGraph.Proofs.Outline
import FlowGraph.Proofs.Removal
import FlowGraph.Proofs.TopDown
import FlowGraph.Ssa.Entering
import Mathlib.Data.List.ProdSigma
import Mathlib.Data.Set.Card

/-! # Where phi functions are placed

The placement gives a block a phi function for a variable if and only if definitions of the variable
meet there, phi functions counting as definitions (`Joins`, `place_spec`).  On the way all blocks
but the pending ones have the phi functions on their frontiers, and there are no others than those
that have to be there.  Every step takes one block from the list of pending ones and puts back those
that got a phi function they did not have, so the number of pending blocks and of missing phi
functions falls together.  A phi function is counted when it is missing no more.
-/
namespace FlowGraph

theorem Graph.hasPhi_of_block? {g : Graph} {b : BlockId} {block : Block}
    (hb : g.block? b = some block) (name : String) :
    g.hasPhi b name = block.phis.contains name := by
  rw [hasPhi, hb]
  rfl

theorem Graph.PhiFree.hasPhi {g : Graph} (hp : g.PhiFree) (b : BlockId) (name : String) :
    g.hasPhi b name = false := by
  unfold Graph.hasPhi
  cases hb : g.block? b with
  | none => rfl
  | some block =>
    rw [Option.any_some, hp hb]
    rfl

/-- The order from the top down exists and holds every block. -/
theorem Graph.WellFormed.topDown_spec {g : Graph} (hg : g.WellFormed) :
    ∃ order, g.topDown = .ok order ∧ (∀ b, b ∈ order ↔ ∃ block, g.block? b = some block) ∧
      order.length ≤ g.blocks.size := by
  obtain ⟨order, hrun, hnodup, hmem, -⟩ := hg.exists_topDown
  refine ⟨order, hrun, hmem, ?_⟩
  have hsub : order ⊆ g.handles := by
    intro b hb
    obtain ⟨block, hblock⟩ := (hmem b).mp hb
    exact mem_handles.mpr (slot_lt_of_block? hblock)
  calc order.length ≤ g.handles.length := (List.subperm_of_subset hnodup hsub).length_le
    _ = g.blocks.size := length_handles

namespace Ssa

open FlowGraph.Graph (SameOutline)

/-- **A graph with new phi functions**: they have neither version nor arguments yet, and all else
is as in the graph before. -/
structure Placed (g₀ g : Graph) : Prop where
  outline : SameOutline g₀ g
  kind?_eq : ∀ b, g.kind? b = g₀.kind? b
  bare : ∀ {b block}, g.block? b = some block → ∀ {name p}, block.phis.get? name = some p →
    p = .new none

theorem Placed.exists_block {g₀ g : Graph} (h : Placed g₀ g) {b : BlockId}
    (hb : ∃ block, g₀.block? b = some block) : ∃ block, g.block? b = some block := by
  obtain ⟨block, hb⟩ := hb
  obtain ⟨block', hb', -⟩ := h.outline.symm.exists_block hb
  exact ⟨block', hb'⟩

theorem Placed.refl {g : Graph} (hp : g.PhiFree) : Placed g g := by
  refine ⟨.refl g, fun _ => rfl, fun {b block} hb {name p} h => ?_⟩
  rw [hp hb] at h
  cases h

/-- A block gets a phi function. -/
theorem Placed.insert {g₀ g : Graph} (h : Placed g₀ g) (y : BlockId) (name : String) :
    Placed g₀ (g.modifyBlock y fun b => { b with phis := b.phis.insert name (.new none) }) := by
  refine ⟨h.outline.trans (.modifyBlock _ _ fun _ => rfl), fun b => ?_, ?_⟩
  · rw [← h.kind?_eq, Graph.kind?, Graph.kind?, Graph.block?_modifyBlock]
    split
    · rw [Option.map_map]
      rfl
    · rfl
  · intro b block hb name' p hp
    rw [Graph.block?_modifyBlock] at hb
    split at hb
    · obtain ⟨block', hb', rfl⟩ := Option.map_eq_some_iff.mp hb
      rw [OrdMap.get?_insert] at hp
      split at hp
      · exact (Option.some.inj hp).symm
      · exact h.bare hb' hp
    · exact h.bare hb hp

theorem hasPhi_insert {g : Graph} {y : BlockId} (hy : ∃ block, g.block? y = some block)
    (name : String) (b : BlockId) (n : String) :
    (g.modifyBlock y fun b => { b with phis := b.phis.insert name (.new none) }).hasPhi b n = true ↔
      g.hasPhi b n = true ∨ b = y ∧ n = name := by
  obtain ⟨block, hy⟩ := hy
  by_cases hb : b = y
  · subst hb
    rw [Graph.hasPhi_of_block? hy, Graph.hasPhi, Graph.block?_modifyBlock, if_pos rfl, hy,
      Option.map_some, Option.any_some, OrdMap.contains, OrdMap.contains, OrdMap.get?_insert]
    by_cases hn : n = name <;> simp [hn]
  · rw [Graph.hasPhi, Graph.block?_modifyBlock, if_neg hb]
    exact ⟨.inl, fun h => h.resolve_right fun h => hb h.1⟩

/-- The places where phi functions may still be missing. -/
def missing (names : List String) (g₀ g : Graph) : List (BlockId × String) :=
  (g₀.handles ×ˢ names).filter fun (b, n) => !g.hasPhi b n

/-- A new phi function is missing no more. -/
theorem length_missing_insert {g₀ g : Graph} {all : List String} (hall : all.Nodup) {y : BlockId}
    (hy₀ : ∃ block, g₀.block? y = some block) (hy : ∃ block, g.block? y = some block)
    {name : String} (hname : name ∈ all) (hnew : g.hasPhi y name = false) :
    (missing all g₀ (g.modifyBlock y fun b =>
      { b with phis := b.phis.insert name (.new none) })).length + 1 =
      (missing all g₀ g).length := by
  obtain ⟨block, hb⟩ := hy₀
  have hnodup : (missing all g₀ g).Nodup := (g₀.nodup_handles.product hall).filter _
  have hin : (y, name) ∈ missing all g₀ g := List.mem_filter.mpr ⟨List.mem_product.mpr
    ⟨Graph.mem_handles.mpr (Graph.slot_lt_of_block? hb), hname⟩, by simp [hnew]⟩
  have herase : missing all g₀ (g.modifyBlock y fun b =>
      { b with phis := b.phis.insert name (.new none) }) = (missing all g₀ g).erase (y, name) := by
    rw [hnodup.erase_eq_filter, missing, missing, List.filter_filter]
    refine List.filter_congr fun x _ => ?_
    rw [Bool.eq_iff_iff, Bool.not_eq_true', ← Bool.not_eq_true, hasPhi_insert hy]
    simp [Prod.ext_iff, and_comm]
  rw [herase, List.length_erase_of_mem hin]
  exact Nat.sub_add_cancel (List.length_pos_of_mem hin)

/-! ### One block of a frontier -/

/-- What giving a block phi functions for some names does. -/
structure Added (g₀ : Graph) (all : List String) (y : BlockId) (names : List String)
    (s s' : Nat × Graph) : Prop where
  placed : Placed g₀ s'.2
  hasPhi_iff : ∀ b n, s'.2.hasPhi b n = true ↔ s.2.hasPhi b n = true ∨ b = y ∧ n ∈ names
  count_le : s.1 ≤ s'.1
  same : s'.1 = s.1 → s'.2 = s.2
  /-- What is counted is missing no more. -/
  counted : s'.1 + (missing all g₀ s'.2).length = s.1 + (missing all g₀ s.2).length

section
variable {g₀ : Graph} {all : List String} (hall : all.Nodup)
include hall

theorem addPhi_spec {y : BlockId} (hy : ∃ block, g₀.block? y = some block) {s : Nat × Graph}
    (hs : Placed g₀ s.2) {name : String} (hname : name ∈ all) :
    ∃ s', (addPhi y s name).outcome = .ok s' ∧ Added g₀ all y [name] s s' := by
  obtain ⟨count, g⟩ := s
  have hlive : ∃ block, g.block? y = some block := hs.exists_block hy
  obtain ⟨block, hb⟩ := id hlive
  rw [addPhi, Run.outcome_liftM_bind (Graph.block_eq_ok hb)]
  by_cases h : g.hasPhi y name = true
  · refine ⟨(count, g), by simp [h], hs, fun b n => ?_, Nat.le_refl _, fun _ => rfl, rfl⟩
    rw [List.mem_singleton]
    refine ⟨.inl, ?_⟩
    rintro (h' | ⟨rfl, rfl⟩)
    · exact h'
    · exact h
  · refine ⟨(count + 1, g.modifyBlock y fun b => { b with phis := b.phis.insert name (.new none) }),
      by simp [h]; rfl, hs.insert y name, fun b n => ?_, Nat.le_succ _,
      fun heq => absurd heq (Nat.succ_ne_self count), ?_⟩
    · rw [hasPhi_insert hlive, List.mem_singleton]
    · have hlen := length_missing_insert hall hy hlive hname (by simpa using h)
      dsimp only
      omega

theorem foldlM_addPhi {y : BlockId} (hy : ∃ block, g₀.block? y = some block) {s : Nat × Graph}
    (hs : Placed g₀ s.2) {names : List String} (hnames : names ⊆ all) :
    ∃ s', names.foldlM (fun s name => (addPhi y s name).outcome) s = .ok s' ∧
      Added g₀ all y names s s' := by
  induction names generalizing s with
  | nil => exact ⟨s, rfl, hs, by simp, Nat.le_refl _, fun _ => rfl, rfl⟩
  | cons name names ih =>
    obtain ⟨hname, hnames⟩ := List.cons_subset.mp hnames
    obtain ⟨s₁, h₁, a₁⟩ := addPhi_spec hall hy hs hname
    obtain ⟨s₂, h₂, a₂⟩ := ih a₁.placed hnames
    refine ⟨s₂, by rw [List.foldlM_cons, h₁]; exact h₂, a₂.placed, fun b n => ?_,
      Nat.le_trans a₁.count_le a₂.count_le, fun heq => ?_, a₂.counted.trans a₁.counted⟩
    · rw [a₂.hasPhi_iff, a₁.hasPhi_iff, List.mem_singleton, List.mem_cons]
      tauto
    · have h₁₂ := a₁.count_le
      have h₂₃ := a₂.count_le
      rw [a₂.same (by omega), a₁.same (by omega)]

/-! ### One frontier -/

omit hall in
/-- What giving the blocks of a frontier phi functions for some names does. -/
structure Spread (g₀ : Graph) (all names : List String) (ys : List BlockId) (s s' : Placing) :
    Prop where
  placed : Placed g₀ s'.graph
  hasPhi_iff : ∀ b n, s'.graph.hasPhi b n = true ↔
    s.graph.hasPhi b n = true ∨ b ∈ ys ∧ n ∈ names
  pending_sub : s.pending ⊆ s'.pending
  pending_new : s'.pending ⊆ s.pending ++ ys
  /-- What got a phi function is looked at again. -/
  same : ∀ b, b ∉ s'.pending → ∀ n, s'.graph.hasPhi b n = true → s.graph.hasPhi b n = true
  measure : s'.pending.length + (missing all g₀ s'.graph).length ≤
    s.pending.length + (missing all g₀ s.graph).length
  counted : s'.added + (missing all g₀ s'.graph).length =
    s.added + (missing all g₀ s.graph).length

theorem placeOn_spec {names : List String} (hnames : names ⊆ all) {y : BlockId}
    (hy : ∃ block, g₀.block? y = some block) {s : Placing} (hs : Placed g₀ s.graph) :
    ∃ s', (placeOn names s y).outcome = .ok s' ∧ Spread g₀ all names [y] s s' := by
  obtain ⟨⟨count, g⟩, hok, hadd⟩ := foldlM_addPhi hall (s := (0, s.graph)) hy hs hnames
  have hsame : count = 0 → g = s.graph := hadd.same
  have hcounted : count + (missing all g₀ g).length = 0 + (missing all g₀ s.graph).length :=
    hadd.counted
  refine ⟨⟨s.added + count, if count = 0 then s.pending else s.pending ++ [y], g⟩, ?_,
    hadd.placed, fun b n => ?_, ?_, ?_, ?_, ?_, ?_⟩
  · rw [placeOn, Run.outcome_bind, addPhis, Run.outcome_foldlM, hok]
    rfl
  · rw [hadd.hasPhi_iff, List.mem_singleton]
  · dsimp only
    split
    · exact List.Subset.refl _
    · exact List.subset_append_left ..
  · dsimp only
    split
    · exact List.subset_append_left ..
    · exact List.Subset.refl _
  · intro b hb n hn
    by_cases h0 : count = 0
    · exact hsame h0 ▸ hn
    · simp only [h0, if_false, List.mem_append, List.mem_singleton, not_or] at hb
      exact ((hadd.hasPhi_iff b n).mp hn).resolve_right fun h => hb.2 h.1
  · dsimp only
    split
    · omega
    · rw [List.length_append, List.length_singleton]
      omega
  · dsimp only
    omega

theorem foldlM_placeOn {names : List String} (hnames : names ⊆ all) {ys : List BlockId}
    (hys : ∀ y ∈ ys, ∃ block, g₀.block? y = some block) {s : Placing} (hs : Placed g₀ s.graph) :
    ∃ s', ys.foldlM (fun s y => (placeOn names s y).outcome) s = .ok s' ∧
      Spread g₀ all names ys s s' := by
  induction ys generalizing s with
  | nil =>
    exact ⟨s, rfl, hs, by simp, List.Subset.refl _, by simp, fun _ _ _ h => h, Nat.le_refl _, rfl⟩
  | cons y ys ih =>
    obtain ⟨hy, hys⟩ := List.forall_mem_cons.mp hys
    obtain ⟨s₁, h₁, a₁⟩ := placeOn_spec hall hnames hy hs
    obtain ⟨s₂, h₂, a₂⟩ := ih hys a₁.placed
    refine ⟨s₂, by rw [List.foldlM_cons, h₁]; exact h₂, a₂.placed, fun b n => ?_,
      List.Subset.trans a₁.pending_sub a₂.pending_sub, fun b hb => ?_, fun b hb n hn => ?_,
      Nat.le_trans a₂.measure a₁.measure, a₂.counted.trans a₁.counted⟩
    · rw [a₂.hasPhi_iff, a₁.hasPhi_iff, List.mem_singleton, List.mem_cons]
      tauto
    · rcases List.mem_append.mp (a₂.pending_new hb) with hb | hb
      · rcases List.mem_append.mp (a₁.pending_new hb) with hb | hb
        · exact List.mem_append_left _ hb
        · exact List.mem_append_right _ (List.mem_singleton.mp hb ▸ List.mem_cons_self)
      · exact List.mem_append_right _ (List.mem_cons_of_mem y hb)
    · exact a₁.same b (fun h => hb (a₂.pending_sub h)) n (a₂.same b hb n hn)

end

/-! ### All frontiers -/

theorem mem_definedNames {w : Web} {g : Graph} {x : BlockId} {n : String} :
    n ∈ definedNames w g x ↔ n ∈ w.blockDefs x ∨ g.hasPhi x n = true := by
  unfold definedNames Graph.hasPhi
  rw [OrdMap.mem_keys_ofList]
  simp only [List.map_map, List.mem_map, List.mem_append, Function.comp_apply, exists_eq_right]
  refine or_congr_right ?_
  cases hb : g.block? x with
  | none => simp
  | some block =>
    rw [Option.any_some, OrdMap.contains_iff_mem_keys]
    rfl

/-- **In the midst of the placement**: what is not pending has all phi functions on its frontier,
and there are none but those that have to be there. -/
structure Closing (d : Dominance) (w : Web) (all : List String) (needed : BlockId → String → Prop)
    (g₀ : Graph) (s : Placing) : Prop where
  placed : Placed g₀ s.graph
  live : ∀ x ∈ s.pending, ∃ block, g₀.block? x = some block
  closed : ∀ x, x ∉ s.pending → ∀ y ∈ d.frontierOf x, ∀ n ∈ definedNames w s.graph x,
    s.graph.hasPhi y n = true
  known : ∀ b n, s.graph.hasPhi b n = true → n ∈ all
  needed : ∀ b n, s.graph.hasPhi b n = true → needed b n
  counted : s.added + (missing all g₀ s.graph).length = (missing all g₀ g₀).length

/-- **The placement without a bound on its steps**: pending blocks are looked at until there are
none. -/
inductive Empties (d : Dominance) (w : Web) : Placing → Nat × Graph → Prop
  | done {s : Placing} : s.pending = [] → Empties d w s (s.added, s.graph)
  | turn {s s' : Placing} {x : BlockId} {rest : List BlockId} {result : Nat × Graph} :
    s.pending = x :: rest → (placeAt d w x { s with pending := rest }).outcome = .ok s' →
      Empties d w s' result → Empties d w s result

section
variable {d : Dominance} {w : Web} {all : List String} {needed : BlockId → String → Prop}
  {g₀ : Graph}
  (hall : all.Nodup) (hlive : ∀ x, ∀ y ∈ d.frontierOf x, ∃ block, g₀.block? y = some block)
  (hdefs : ∀ x, w.blockDefs x ⊆ all)
  (hneeded : ∀ x, ∀ y ∈ d.frontierOf x, ∀ n, n ∈ w.blockDefs x ∨ needed x n → needed y n)
include hall hlive hdefs hneeded

/-- A step of the placement. -/
theorem placeAt_spec {x : BlockId} {rest : List BlockId} {s : Placing}
    (hs : Closing d w all needed g₀ s) (hpending : s.pending = x :: rest) :
    ∃ s', (placeAt d w x { s with pending := rest }).outcome = .ok s' ∧
      Closing d w all needed g₀ s' ∧
      s'.pending.length + (missing all g₀ s'.graph).length <
        s.pending.length + (missing all g₀ s.graph).length := by
  have hnames : definedNames w s.graph x ⊆ all := by
    intro n hn
    rcases mem_definedNames.mp hn with hn | hn
    · exact hdefs x hn
    · exact hs.known x n hn
  obtain ⟨s', hok, hspread⟩ :=
    foldlM_placeOn hall hnames (hlive x) (s := { s with pending := rest })
    hs.placed
  have hpending_live := hs.live
  rw [hpending, List.forall_mem_cons] at hpending_live
  obtain ⟨block, hx⟩ := hs.placed.exists_block hpending_live.1
  have hlook : d.frontierIn s.graph x = .ok (d.frontierOf x) := by
    rw [Dominance.frontierIn, Graph.bind_of_ok (Graph.block_eq_ok hx)]
    rfl
  refine ⟨s', ?_, ⟨hspread.placed, ?_, ?_, ?_, ?_, hspread.counted.trans hs.counted⟩, ?_⟩
  · rw [placeAt, Run.outcome_liftM_bind hlook, Run.outcome_foldlM]
    exact hok
  · intro z hz
    rcases List.mem_append.mp (hspread.pending_new hz) with hz | hz
    · exact hpending_live.2 z hz
    · exact hlive x z hz
  · intro z hz y hy n hn
    rw [hspread.hasPhi_iff]
    -- `z` got no phi function, so its definitions are those it had before
    have hn' : n ∈ definedNames w s.graph z :=
      mem_definedNames.mpr ((mem_definedNames.mp hn).imp_right (hspread.same z hz n))
    by_cases hzx : z = x
    · subst hzx
      exact .inr ⟨hy, hn'⟩
    · refine .inl (hs.closed z ?_ y hy n hn')
      rw [hpending, List.mem_cons, not_or]
      exact ⟨hzx, fun h => hz (hspread.pending_sub h)⟩
  · intro b n hn
    rcases (hspread.hasPhi_iff b n).mp hn with h | ⟨-, h⟩
    · exact hs.known b n h
    · exact hnames h
  · intro b n hn
    rcases (hspread.hasPhi_iff b n).mp hn with h | ⟨hb, h⟩
    · exact hs.needed b n h
    · exact hneeded x b hb n ((mem_definedNames.mp h).imp_right (hs.needed x n))
  · have := hspread.measure
    simp only at this
    rw [hpending, List.length_cons]
    omega

/-- **A whole placement** ends with nothing pending. -/
theorem placeAll_spec {fuel : Nat} {s : Placing} (hs : Closing d w all needed g₀ s)
    (hfuel : s.pending.length + (missing all g₀ s.graph).length < fuel) :
    ∃ count g, (placeAll d w fuel s).outcome = .ok (count, g) ∧ Empties d w s (count, g) ∧
      Closing d w all needed g₀ ⟨count, [], g⟩ := by
  induction fuel generalizing s with
  | zero => omega
  | succ fuel ih =>
    rw [placeAll]
    split
    · rename_i hnil
      exact ⟨s.added, s.graph, rfl, .done hnil, hs.placed, nofun, hnil ▸ hs.closed, hs.known,
        hs.needed, hs.counted⟩
    · rename_i x rest hpending
      obtain ⟨s', hok, hs', hlt⟩ := placeAt_spec hall hlive hdefs hneeded hs hpending
      obtain ⟨count, g, hrun, hempties, hclosed⟩ := ih hs' (by omega)
      exact ⟨count, g, by rw [Run.outcome_bind, hok]; exact hrun,
        .turn hpending hok hempties, hclosed⟩

end

/-! ### The start -/

/-- The base names that a graph defines. -/
def allNames (w : Web) : List String := (OrdMap.ofList (w.defs.map fun (v, _) => (v.name, ()))).keys

theorem blockDefs_subset (w : Web) (x : BlockId) : w.blockDefs x ⊆ allNames w := by
  intro n hn
  rw [Web.blockDefs, Web.namesIn, OrdMap.mem_keys_ofList] at hn
  rw [allNames, OrdMap.mem_keys_ofList]
  simp only [List.mem_map, List.mem_filterMap, Option.ite_none_right_eq_some, Prod.exists,
    Option.some.injEq] at hn ⊢
  obtain ⟨_, _, ⟨v, site, hmem, -, heq⟩, rfl⟩ := hn
  exact ⟨v.name, (), ⟨v, site, hmem, rfl⟩, congrArg Prod.fst heq⟩

/-- The definitions of a block without phi functions. -/
theorem mem_definitions {block : Block} (hp : block.phis = .empty) {v : Var} {site : Site} :
    (v, site) ∈ block.definitions ↔ v ∈ block.kind.defs ∧ site = .statement block.id := by
  rw [Block.definitions, hp]
  cases block.kind <;> simp [Phis.toList, OrdMap.empty, Kind.defs, eq_comm]

/-- What a block defines, by the web of a graph without phi functions. -/
theorem mem_blockDefs {g : Graph} (hg : g.Listed) (hp : g.PhiFree) {x : BlockId} {n : String} :
    n ∈ (Web.ofGraph g).blockDefs x ↔ ∃ k v, g.kind? x = some k ∧ v ∈ k.defs ∧ v.name = n := by
  rw [Web.blockDefs, Web.namesIn, OrdMap.mem_keys_ofList]
  simp only [List.mem_map, List.mem_filterMap, Option.ite_none_right_eq_some, Prod.exists,
    Option.some.injEq, Web.ofGraph, List.mem_flatMap, Graph.mem_liveBlocks]
  constructor
  · rintro ⟨_, _, ⟨v, site, ⟨block, ⟨b, hb⟩, hmem⟩, rfl, heq⟩, rfl⟩
    obtain ⟨hv, rfl⟩ := (mem_definitions (hp hb)).mp hmem
    exact ⟨block.kind, v, Graph.kind?_of_block? (hg.id_eq hb ▸ hb), hv, congrArg Prod.fst heq⟩
  · rintro ⟨k, v, hk, hv, rfl⟩
    obtain ⟨block, hb, rfl⟩ := Graph.block?_of_kind? hk
    exact ⟨v.name, (), ⟨v, .statement block.id, ⟨block, ⟨x, hb⟩,
      (mem_definitions (hp hb)).mpr ⟨hv, rfl⟩⟩, hg.id_eq hb, rfl⟩, rfl⟩

end Ssa

/-- **The iterated frontier** of the blocks that assign a variable: where its definitions meet. -/
inductive Graph.Joins (g : Graph) (n : String) : BlockId → Prop
  | assigned {x y : BlockId} {k : Kind} {v : Var} : g.Reachable x →
      g.kind? x = some k → v ∈ k.defs →
    v.name = n → g.InFrontier x y → g.Joins n y
  | again {x y : BlockId} : g.Joins n x → g.InFrontier x y → g.Joins n y

namespace Graph.Joins

variable {g : Graph} {n : String} {y : BlockId}

theorem exists_pred (h : g.Joins n y) : ∃ p, g.Reachable p ∧ g.Leads p y := by
  cases h with
  | assigned _ _ _ _ hf =>
    obtain ⟨⟨p, hp, -, hl⟩, -⟩ := hf
    exact ⟨p, hp, hl⟩
  | again _ hf =>
    obtain ⟨⟨p, hp, -, hl⟩, -⟩ := hf
    exact ⟨p, hp, hl⟩

theorem reachable (h : g.Joins n y) : g.Reachable y := by
  obtain ⟨p, hp, hl⟩ := h.exists_pred
  exact hp.step hl

theorem ne_entry (hg : g.WellFormed) (h : g.Joins n y) : y ≠ Graph.entry := by
  obtain ⟨p, -, e, dir, he⟩ := h.exists_pred
  exact hg.wired.entry_closed he

end Graph.Joins

namespace Ssa

/-- **What the placement does**: it looks at blocks until none is pending, and it adds the phi
functions of the iterated frontiers, each of which it counts. -/
structure PlacesAll (d : Dominance) (g : Graph) (count : Nat) (g' : Graph) : Prop where
  run : (place d (Web.ofGraph g) g).outcome = .ok (count, g')
  empties : ∃ order, g.topDown = .ok order ∧ Empties d (Web.ofGraph g) ⟨0, order, g⟩ (count, g')
  placed : Placed g g'
  hasPhi_iff : ∀ y n, g'.hasPhi y n = true ↔ g.Joins n y
  count_eq : count = {p : BlockId × String | g.Joins p.2 p.1}.ncard

/-- The places with a phi function and those where one is missing. -/
theorem count_eq_ncard {all : List String} (hall : all.Nodup) {g₀ g : Graph} (hp : g₀.PhiFree)
    (hplaced : Placed g₀ g) (hknown : ∀ b n, g.hasPhi b n = true → n ∈ all) {count : Nat}
    (hcounted : count + (missing all g₀ g).length = (missing all g₀ g₀).length) :
    count = {p : BlockId × String | g.hasPhi p.1 p.2 = true}.ncard := by
  have hset : {p : BlockId × String | g.hasPhi p.1 p.2 = true} =
      ((g₀.handles ×ˢ all).filter fun p => g.hasPhi p.1 p.2).toFinset := by
    ext ⟨b, n⟩
    rw [List.coe_toFinset, Set.mem_ofPred_eq, Set.mem_ofPred_eq, List.mem_filter, List.mem_product]
    refine ⟨fun h => ⟨⟨?_, hknown b n h⟩, h⟩, fun h => h.2⟩
    obtain ⟨block, hb, -⟩ := (Option.any_eq_true ..).mp h
    exact Graph.mem_handles.mpr (hplaced.outline.size_eq ▸ Graph.slot_lt_of_block? hb)
  rw [hset, Set.ncard_coe_finset,
    List.toFinset_card_of_nodup ((g₀.nodup_handles.product hall).filter _)]
  have hsplit := List.length_eq_length_filter_add (l := g₀.handles ×ˢ all) fun p => g.hasPhi p.1 p.2
  have hnone : (missing all g₀ g₀) = g₀.handles ×ˢ all := List.filter_eq_self.mpr fun x _ => by
    simp [hp.hasPhi]
  rw [hnone] at hcounted
  simp only [missing] at hcounted
  omega

/-- **Phi functions are placed where they are needed**, and nowhere else. -/
theorem place_spec {d : Dominance} {g : Graph} (hg : g.WellFormed) (hp : g.PhiFree)
    (hd : d.Describes g) : ∃ count g', PlacesAll d g count g' := by
  have hlive := hd.frontierOf_live hg
  have hall : (allNames (Web.ofGraph g)).Nodup := OrdMap.nodup_keys _
  have hneeded : ∀ x, ∀ y ∈ d.frontierOf x, ∀ n,
      n ∈ (Web.ofGraph g).blockDefs x ∨ g.Joins n x → g.Joins n y := by
    intro x y hy n hn
    obtain ⟨hx, hf⟩ := hd.mem_frontierOf.mp hy
    rcases hn with hn | hn
    · obtain ⟨k, v, hk, hv, hn⟩ := (mem_blockDefs hg.listed hp).mp hn
      exact .assigned hx hk hv hn hf
    · exact .again hn hf
  obtain ⟨order, horder, hholds, hlen⟩ := hg.topDown_spec
  have hstart : Closing d (Web.ofGraph g) (allNames (Web.ofGraph g)) (fun b n => g.Joins n b) g
      ⟨0, order, g⟩ := by
    have hnone : ∀ {P : Prop} (b n), g.hasPhi b n = true → P := fun b n hn => by
      rw [hp.hasPhi] at hn
      cases hn
    refine ⟨.refl hp, fun x hx => (hholds x).mp hx, ?_, fun b n => hnone b n, fun b n => hnone b n,
      Nat.zero_add _⟩
    intro x hx y hy
    have hreach := (hd.mem_frontierOf.mp hy).1
    exact absurd ((hholds x).mpr (hg.live_of_reachable hreach)) hx
  -- Every turn takes a block off the list or adds a phi function that was missing.
  have hfuel : order.length + (missing (allNames (Web.ofGraph g)) g g).length <
      g.blocks.size * ((allNames (Web.ofGraph g)).length + 1) + 1 := by
    have : (missing (allNames (Web.ofGraph g)) g g).length ≤
        g.blocks.size * (allNames (Web.ofGraph g)).length := by
      refine Nat.le_trans (List.length_filter_le ..) (Nat.le_of_eq ?_)
      rw [List.length_product, Graph.length_handles]
    rw [Nat.mul_add, Nat.mul_one]
    omega
  obtain ⟨count, g', hok, hempties, hclosed⟩ :=
    placeAll_spec hall hlive (blockDefs_subset _) hneeded hstart hfuel
  have hrun : (place d (Web.ofGraph g) g).outcome = .ok (count, g') := by
    rw [place]
    simp only [Run.outcome_bind]
    show (g.topDown >>= fun _ => _) = _
    rw [horder]
    have hsize : (OrdMap.ofList ((Web.ofGraph g).defs.map fun (v, _) => (v.name, ()))).size =
        (allNames (Web.ofGraph g)).length := (List.length_map ..).symm
    rw [hsize]
    exact hok
  -- With no block left on the list, the frontiers of all blocks are taken care of.
  have hiff : ∀ y n, g'.hasPhi y n = true ↔ g.Joins n y := by
    refine fun y n => ⟨hclosed.needed y n, fun h => ?_⟩
    induction h with
    | assigned hx hk hv hn hf =>
      exact hclosed.closed _ List.not_mem_nil _ (hd.mem_frontierOf.mpr ⟨hx, hf⟩) n
        (mem_definedNames.mpr (.inl ((mem_blockDefs hg.listed hp).mpr ⟨_, _, hk, hv, hn⟩)))
    | again hx hf ih =>
      exact hclosed.closed _ List.not_mem_nil _ (hd.mem_frontierOf.mpr ⟨hx.reachable, hf⟩) n
        (mem_definedNames.mpr (.inr ih))
  refine ⟨count, g', hrun, ⟨order, horder, hempties⟩, hclosed.placed, hiff, ?_⟩
  have hcount := count_eq_ncard hall hp hclosed.placed hclosed.known hclosed.counted
  simpa only [hiff] using hcount

end Ssa
end FlowGraph
