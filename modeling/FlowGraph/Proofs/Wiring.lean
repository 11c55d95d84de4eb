import FlowGraph.Proofs.Tables
import FlowGraph.Graph.Query
import Mathlib.Data.List.Nodup

/-! # Well-formed graphs

What `checkWiring` checks, said in terms of blocks and edges alone.  `Listed` says that the lists of
the blocks and the table of edges agree: it holds throughout an operation, also where a block has
too many or too few outgoing edges for a while.  `Wired` adds the terminal blocks and the outgoing
edges that each kind of block demands, one for each of its directions.

In a wired graph an edge is found by its source and its direction, so control is known from `kind?`
and `edge?` alone and the order of the lists plays no part in it.
-/
namespace FlowGraph

/-- The directions in which control leaves a block. -/
def Kind.directions : Kind → List Direction
  | .exit => []
  | .branch _ => [.onTrue, .onFalse]
  | _ => [.always]

theorem Kind.nodup_directions (k : Kind) : k.directions.Nodup := by
  cases k <;> simp [directions]

namespace Graph

/-- **The lists of the blocks and the table of edges agree.** -/
structure Listed (g : Graph) : Prop where
  id_eq : ∀ {b block}, g.block? b = some block → block.id = b
  mem_succs : ∀ {b block}, g.block? b = some block →
    ∀ e, e ∈ block.succs ↔ ∃ edge, g.edge? e = some edge ∧ edge.source = b
  mem_preds : ∀ {b block}, g.block? b = some block →
    ∀ e, e ∈ block.preds ↔ ∃ edge, g.edge? e = some edge ∧ edge.target = b
  nodup_succs : ∀ {b block}, g.block? b = some block → block.succs.Nodup
  nodup_preds : ∀ {b block}, g.block? b = some block → block.preds.Nodup
  source_live : ∀ {e edge}, g.edge? e = some edge → ∃ block, g.block? edge.source = some block
  target_live : ∀ {e edge}, g.edge? e = some edge → ∃ block, g.block? edge.target = some block
  /-- Phi functions have arguments for incoming edges only. -/
  args_enter : ∀ {b block}, g.block? b = some block → ∀ {name p}, block.phis.get? name = some p →
    ∀ {e v}, p.arg? e = some v → e ∈ block.preds

/-- **What the structural check asks for.** -/
structure Wired (g : Graph) : Prop extends g.Listed where
  entry_kind : g.kind? entry = some .entry
  entry_closed : ∀ {e edge}, g.edge? e = some edge → edge.target ≠ entry
  exit_kind : g.kind? exit = some .exit
  exit_closed : ∀ {e edge}, g.edge? e = some edge → edge.source ≠ exit
  /-- A block has an outgoing edge for each of its directions and for no other. -/
  ways : ∀ {b k}, g.kind? b = some k → k ≠ .exit →
    ∀ d, (∃ e t, g.edge? e = some ⟨b, t, d⟩) ↔ d ∈ k.directions
  /-- It has one at most for each direction. -/
  one_way : ∀ {b k}, g.kind? b = some k → k ≠ .exit →
    ∀ {d e e' t t'}, g.edge? e = some ⟨b, t, d⟩ → g.edge? e' = some ⟨b, t', d⟩ → e = e'

/-! ### When checks pass -/

section Checks
variable {ε α β : Type}

theorem bind_of_ok {x : Except ε α} {a : α} (h : x = .ok a) (f : α → Except ε β) :
    (x >>= f) = f a := by
  rw [h]
  rfl

theorem bind_eq_ok {x : Except ε α} {f : α → Except ε β} {b : β} :
    (x >>= f) = .ok b ↔ ∃ a, x = .ok a ∧ f a = .ok b := by
  cases x with
  | error e => exact ⟨nofun, nofun⟩
  | ok a =>
    refine ⟨fun h => ⟨a, rfl, h⟩, ?_⟩
    rintro ⟨_, ⟨⟩, h⟩
    exact h

theorem forM_eq_ok {xs : List α} {f : α → Except ε Unit} {u : Unit} :
    xs.forM f = .ok u ↔ ∀ x ∈ xs, f x = .ok () := by
  induction xs with
  | nil => exact ⟨fun _ _ h => absurd h List.not_mem_nil, fun _ => rfl⟩
  | cons x xs ih =>
    have hstep : (x :: xs).forM f = (f x >>= fun _ => xs.forM f) := rfl
    rw [hstep, bind_eq_ok, List.forall_mem_cons]
    constructor
    · rintro ⟨⟨⟩, hx, hxs⟩
      exact ⟨hx, ih.mp hxs⟩
    · rintro ⟨hx, hxs⟩
      exact ⟨(), hx, ih.mpr hxs⟩

/-- A check of several things fails at one of them. -/
theorem forM_eq_error {xs : List α} {f : α → Except ε Unit} {e : ε} (h : xs.forM f = .error e) :
    ∃ x ∈ xs, f x = .error e := by
  induction xs with
  | nil => cases h
  | cons x xs ih =>
    have hstep : (x :: xs).forM f = (f x >>= fun _ => xs.forM f) := rfl
    cases hx : f x with
    | error e' =>
      rw [hstep, hx] at h
      cases h
      exact ⟨x, List.mem_cons_self .., hx⟩
    | ok u =>
      rw [hstep, bind_of_ok hx] at h
      obtain ⟨y, hy, hfy⟩ := ih h
      exact ⟨y, List.mem_cons_of_mem _ hy, hfy⟩

theorem demand_eq_ok {c : Bool} {v : Violation} {u : Unit} : demand c v = .ok u ↔ c = true := by
  cases c
  · exact ⟨nofun, nofun⟩
  · exact ⟨fun _ => rfl, fun _ => rfl⟩

end Checks

section
variable {g : Graph}

theorem tryBlock_eq_ok {b : BlockId} {block : Block} :
    g.tryBlock b = .ok block ↔ g.block? b = some block := by
  unfold tryBlock
  cases g.block? b with
  | none => exact ⟨nofun, nofun⟩
  | some x => simp

theorem tryEdge_eq_ok {e : EdgeId} {edge : Edge} :
    g.tryEdge e = .ok edge ↔ g.edge? e = some edge := by
  unfold tryEdge
  cases g.edge? e with
  | none => exact ⟨nofun, nofun⟩
  | some x => simp

theorem checkLists_eq_ok {block : Block} {slot : Nat} :
    g.checkLists block slot = .ok () ↔
      block.id.slot = slot ∧
      (∀ e ∈ block.preds, ∃ edge, g.edge? e = some edge ∧ edge.target = block.id) ∧
      (∀ e ∈ block.succs, ∃ edge, g.edge? e = some edge ∧ edge.source = block.id) ∧
      ∀ name p, block.phis.get? name = some p → ∀ e v, p.arg? e = some v → e ∈ block.preds := by
  have hargs : (∀ x ∈ block.phis.entries, ∀ e ∈ x.2.args.keys, e ∈ block.preds) ↔
      ∀ name p, block.phis.get? name = some p → ∀ e v, p.arg? e = some v → e ∈ block.preds := by
    simp only [Prod.forall, ← OrdMap.get?_eq_some_iff, OrdMap.mem_keys_iff, forall_exists_index,
      Phi.arg?]
  simp only [checkLists, bind_eq_ok, forM_eq_ok, demand_eq_ok, tryEdge_eq_ok, decide_eq_true_eq]
  constructor
  · rintro ⟨⟨⟩, hid, ⟨⟩, hp, ⟨⟩, hs, ha⟩
    exact ⟨hid, hp, hs, hargs.mp ha⟩
  · rintro ⟨hid, hp, hs, ha⟩
    exact ⟨(), hid, (), hp, (), hs, hargs.mpr ha⟩

theorem checkEdge_eq_ok {e : EdgeId} {edge : Edge} :
    g.checkEdge e edge = .ok () ↔ ∃ source target, g.block? edge.source = some source ∧
      g.block? edge.target = some target ∧ source.succs.count e = 1 ∧
        target.preds.count e = 1 := by
  simp only [checkEdge, bind_eq_ok, demand_eq_ok, tryBlock_eq_ok, Bool.and_eq_true,
    decide_eq_true_eq]
  constructor
  · rintro ⟨s, hs, t, ht, h⟩
    exact ⟨s, t, hs, ht, h⟩
  · rintro ⟨s, t, hs, ht, h⟩
    exact ⟨s, hs, t, ht, h⟩

theorem checkTerminals_eq_ok :
    g.checkTerminals = .ok () ↔
      (∃ first, g.block? entry = some first ∧ first.kind = .entry ∧ first.preds = []) ∧
      ∃ last, g.block? exit = some last ∧ last.kind = .exit ∧ last.succs = [] := by
  simp only [checkTerminals, bind_eq_ok, demand_eq_ok, tryBlock_eq_ok, decide_eq_true_eq,
    List.isEmpty_iff]
  constructor
  · rintro ⟨f, hf, ⟨⟩, hk, ⟨⟩, hp, l, hl, ⟨⟩, hlk, hs⟩
    exact ⟨⟨f, hf, hk, hp⟩, l, hl, hlk, hs⟩
  · rintro ⟨⟨f, hf, hk, hp⟩, l, hl, hlk, hs⟩
    exact ⟨f, hf, (), hk, (), hp, l, hl, (), hlk, hs⟩

/-- The directions of the outgoing edges of a block, in the order of its list. -/
def outward (g : Graph) (block : Block) : List Direction :=
  block.succs.filterMap fun e => (g.edge? e).map (·.direction)

theorem checkOutgoing_eq_ok {block : Block} :
    g.checkOutgoing block = .ok () ↔
      (block.kind ≠ .exit → (g.outward block).Perm block.kind.directions) := by
  have two : ∀ ds : List Direction, (ds.length = 2 ∧ .onTrue ∈ ds) ∧ .onFalse ∈ ds ↔
      ds.Perm [.onTrue, .onFalse] := by
    intro ds
    constructor
    · rintro ⟨⟨hlen, ht⟩, hf⟩
      match ds, hlen with
      | [a, b], _ =>
        cases a <;> cases b <;> simp_all [List.Perm.swap]
    · intro h
      exact ⟨⟨h.length_eq, h.mem_iff.mpr (by decide)⟩, h.mem_iff.mpr (by decide)⟩
  unfold checkOutgoing outward
  cases hk : block.kind with
  | exit => exact ⟨fun _ h => absurd rfl h, fun _ => rfl⟩
  | branch b =>
    simp only [demand_eq_ok, Bool.and_eq_true, decide_eq_true_eq, two, Kind.directions]
    exact ⟨fun h _ => h, fun h => h (by simp)⟩
  | entry =>
    simp only [demand_eq_ok, decide_eq_true_eq, Kind.directions, List.perm_singleton]
    exact ⟨fun h _ => h, fun h => h (by simp)⟩
  | statement s =>
    simp only [demand_eq_ok, decide_eq_true_eq, Kind.directions, List.perm_singleton]
    exact ⟨fun h _ => h, fun h => h (by simp)⟩
  | empty =>
    simp only [demand_eq_ok, decide_eq_true_eq, Kind.directions, List.perm_singleton]
    exact ⟨fun h _ => h, fun h => h (by simp)⟩

/-! ### Outgoing edges -/

namespace Listed
variable (hg : g.Listed) {b : BlockId} {block : Block} (hb : g.block? b = some block) {e : EdgeId}
include hg hb

theorem source_eq (he : e ∈ block.succs) {edge : Edge} (hedge : g.edge? e = some edge) :
    edge.source = b := by
  obtain ⟨_, hedge', rfl⟩ := (hg.mem_succs hb e).mp he
  rw [hedge, Option.some.injEq] at hedge'
  rw [hedge']

theorem target_eq (he : e ∈ block.preds) {edge : Edge} (hedge : g.edge? e = some edge) :
    edge.target = b := by
  obtain ⟨_, hedge', rfl⟩ := (hg.mem_preds hb e).mp he
  rw [hedge, Option.some.injEq] at hedge'
  rw [hedge']

/-- No list holds a handle that is not in use. -/
theorem notMem_succs (he : g.edge? e = none) : e ∉ block.succs := fun hin => by
  obtain ⟨edge, hedge, -⟩ := (hg.mem_succs hb e).mp hin
  rw [he] at hedge
  cases hedge

theorem notMem_preds (he : g.edge? e = none) : e ∉ block.preds := fun hin => by
  obtain ⟨edge, hedge, -⟩ := (hg.mem_preds hb e).mp hin
  rw [he] at hedge
  cases hedge

omit hb

/-- No edge leaves or enters a block that is not in use. -/
theorem source_ne {edge : Edge} (he : g.edge? e = some edge) (hb : g.block? b = none) :
    edge.source ≠ b := by
  rintro rfl
  obtain ⟨block, hlive⟩ := hg.source_live he
  cases hb.symm.trans hlive

theorem target_ne {edge : Edge} (he : g.edge? e = some edge) (hb : g.block? b = none) :
    edge.target ≠ b := by
  rintro rfl
  obtain ⟨block, hlive⟩ := hg.target_live he
  cases hb.symm.trans hlive

end Listed

theorem Listed.outward_eq_map (hg : g.Listed) {b : BlockId} {block : Block}
    (hb : g.block? b = some block) :
    ∃ dir : EdgeId → Direction, g.outward block = block.succs.map dir ∧
      ∀ e ∈ block.succs, ∃ t, g.edge? e = some ⟨b, t, dir e⟩ := by
  refine ⟨fun e => ((g.edge? e).map (·.direction)).getD .always, ?_, fun e he => ?_⟩
  · unfold outward
    rw [← List.filterMap_eq_map]
    refine List.filterMap_congr fun e he => ?_
    obtain ⟨edge, hedge, -⟩ := (hg.mem_succs hb e).mp he
    simp [hedge]
  · obtain ⟨⟨s, t, d⟩, hedge, rfl⟩ := (hg.mem_succs hb e).mp he
    exact ⟨t, by simp [hedge]⟩

/-- The list of directions of a block says which outgoing edges it has. -/
theorem Listed.outward_perm_iff (hg : g.Listed) {b : BlockId} {block : Block}
    (hb : g.block? b = some block) {ds : List Direction} (hds : ds.Nodup) :
    (g.outward block).Perm ds ↔
      (∀ d, (∃ e t, g.edge? e = some ⟨b, t, d⟩) ↔ d ∈ ds) ∧
      ∀ {d e e' t t'}, g.edge? e = some ⟨b, t, d⟩ → g.edge? e' = some ⟨b, t', d⟩ → e = e' := by
  obtain ⟨dir, hmap, hdir⟩ := hg.outward_eq_map hb
  have hmem : ∀ {e t d}, g.edge? e = some ⟨b, t, d⟩ → e ∈ block.succs ∧ dir e = d := by
    intro e t d h
    have he : e ∈ block.succs := (hg.mem_succs hb e).mpr ⟨_, h, rfl⟩
    obtain ⟨t', h'⟩ := hdir e he
    rw [h] at h'
    simp only [Option.some.injEq, Edge.mk.injEq, true_and] at h'
    exact ⟨he, h'.2.symm⟩
  have hways : ∀ d, (∃ e t, g.edge? e = some ⟨b, t, d⟩) ↔ d ∈ g.outward block := by
    intro d
    rw [hmap, List.mem_map]
    constructor
    · rintro ⟨e, t, h⟩
      exact ⟨e, hmem h⟩
    · rintro ⟨e, he, rfl⟩
      exact ⟨e, hdir e he⟩
  constructor
  · intro hperm
    refine ⟨fun d => (hways d).trans hperm.mem_iff, fun {d e e' t t'} h h' => ?_⟩
    -- As the list holds each direction once, no two edges in it have the same one.
    have hnodup : (block.succs.map dir).Nodup := hmap ▸ hperm.nodup_iff.mpr hds
    obtain ⟨he, hd⟩ := hmem h
    obtain ⟨he', hd'⟩ := hmem h'
    exact List.inj_on_of_nodup_map hnodup he he' (hd.trans hd'.symm)
  · rintro ⟨hw, hone⟩
    have hnodup : (g.outward block).Nodup := by
      rw [hmap]
      refine (hg.nodup_succs hb).map_on fun e he e' he' heq => ?_
      obtain ⟨t, h⟩ := hdir e he
      obtain ⟨t', h'⟩ := hdir e' he'
      rw [← heq] at h'
      exact hone h h'
    exact (List.perm_ext_iff_of_nodup hnodup hds).mpr fun d => (hways d).symm.trans (hw d)

/-! ### The check is exact -/

/-- The lists agree with the table when the first two rounds of the check pass. -/
theorem listed_of_checks
    (hlists : ∀ b block, g.block? b = some block → g.checkLists block b.slot = .ok ())
    (hedges : ∀ e edge, g.edge? e = some edge → g.checkEdge e edge = .ok ()) : g.Listed := by
  have id_eq : ∀ {b block}, g.block? b = some block → block.id = b := fun {b block} hb =>
    BlockId.ext (checkLists_eq_ok.mp (hlists b block hb)).1
  have succs_live : ∀ {b block}, g.block? b = some block → ∀ e ∈ block.succs,
      ∃ edge, g.edge? e = some edge ∧ edge.source = b := fun {b block} hb =>
    id_eq hb ▸ (checkLists_eq_ok.mp (hlists b block hb)).2.2.1
  have preds_live : ∀ {b block}, g.block? b = some block → ∀ e ∈ block.preds,
      ∃ edge, g.edge? e = some edge ∧ edge.target = b := fun {b block} hb =>
    id_eq hb ▸ (checkLists_eq_ok.mp (hlists b block hb)).2.1
  have succs_count : ∀ {b block}, g.block? b = some block → ∀ {e edge}, g.edge? e = some edge →
      edge.source = b → block.succs.count e = 1 := by
    rintro b block hb e edge he rfl
    obtain ⟨s, t, hs, -, hcount, -⟩ := checkEdge_eq_ok.mp (hedges e edge he)
    rw [hb] at hs
    cases hs
    exact hcount
  have preds_count : ∀ {b block}, g.block? b = some block → ∀ {e edge}, g.edge? e = some edge →
      edge.target = b → block.preds.count e = 1 := by
    rintro b block hb e edge he rfl
    obtain ⟨s, t, -, ht, -, hcount⟩ := checkEdge_eq_ok.mp (hedges e edge he)
    rw [hb] at ht
    cases ht
    exact hcount
  refine ⟨id_eq, fun {b block} hb e => ⟨succs_live hb e, ?_⟩,
    fun {b block} hb e => ⟨preds_live hb e, ?_⟩, fun {b block} hb => ?_, fun {b block} hb => ?_,
    fun {e edge} he => ?_, fun {e edge} he => ?_, fun {b block} hb name p hp e v => ?_⟩
  · rintro ⟨edge, he, hs⟩
    exact List.count_pos_iff.mp (by rw [succs_count hb he hs]; exact Nat.one_pos)
  · rintro ⟨edge, he, ht⟩
    exact List.count_pos_iff.mp (by rw [preds_count hb he ht]; exact Nat.one_pos)
  · refine List.nodup_iff_count_eq_one.mpr fun e he => ?_
    obtain ⟨edge, hedge, hs⟩ := succs_live hb e he
    exact succs_count hb hedge hs
  · refine List.nodup_iff_count_eq_one.mpr fun e he => ?_
    obtain ⟨edge, hedge, ht⟩ := preds_live hb e he
    exact preds_count hb hedge ht
  · obtain ⟨s, t, hs, -⟩ := checkEdge_eq_ok.mp (hedges e edge he)
    exact ⟨s, hs⟩
  · obtain ⟨s, t, -, ht, -⟩ := checkEdge_eq_ok.mp (hedges e edge he)
    exact ⟨t, ht⟩
  · exact (checkLists_eq_ok.mp (hlists b block hb)).2.2.2 name p hp e v

theorem Listed.checkLists (hg : g.Listed) {b : BlockId} {block : Block}
    (hb : g.block? b = some block) : g.checkLists block b.slot = .ok () := by
  have hid := hg.id_eq hb
  refine checkLists_eq_ok.mpr ⟨congrArg BlockId.slot hid, fun e he => ?_, fun e he => ?_,
    fun name p hp e v hv => hg.args_enter hb hp hv⟩
  · rw [hid]
    exact (hg.mem_preds hb e).mp he
  · rw [hid]
    exact (hg.mem_succs hb e).mp he

theorem Listed.checkEdge (hg : g.Listed) {e : EdgeId} {edge : Edge}
    (he : g.edge? e = some edge) : g.checkEdge e edge = .ok () := by
  obtain ⟨s, hs⟩ := hg.source_live he
  obtain ⟨t, ht⟩ := hg.target_live he
  exact checkEdge_eq_ok.mpr ⟨s, t, hs, ht,
    List.count_eq_one_of_mem (hg.nodup_succs hs) ((hg.mem_succs hs e).mpr ⟨edge, he, rfl⟩),
    List.count_eq_one_of_mem (hg.nodup_preds ht) ((hg.mem_preds ht e).mpr ⟨edge, he, rfl⟩)⟩

/-- The terminal blocks in terms of their lists and in terms of edges. -/
theorem Listed.checkTerminals_iff (hg : g.Listed) :
    g.checkTerminals = .ok () ↔
      (g.kind? entry = some .entry ∧ ∀ e edge, g.edge? e = some edge → edge.target ≠ entry) ∧
      g.kind? exit = some .exit ∧ ∀ e edge, g.edge? e = some edge → edge.source ≠ exit := by
  rw [checkTerminals_eq_ok]
  constructor
  · rintro ⟨⟨f, hf, hfk, hp⟩, l, hl, hlk, hs⟩
    refine ⟨⟨by rw [kind?_of_block? hf, hfk], fun e edge he ht => ?_⟩,
      by rw [kind?_of_block? hl, hlk], fun e edge he hsrc => ?_⟩
    · have := (hg.mem_preds hf e).mpr ⟨edge, he, ht⟩
      rw [hp] at this
      cases this
    · have := (hg.mem_succs hl e).mpr ⟨edge, he, hsrc⟩
      rw [hs] at this
      cases this
  · rintro ⟨⟨hek, hec⟩, hxk, hxc⟩
    obtain ⟨f, hf, hfk⟩ := block?_of_kind? hek
    obtain ⟨l, hl, hlk⟩ := block?_of_kind? hxk
    refine ⟨⟨f, hf, hfk, List.eq_nil_iff_forall_not_mem.mpr fun e he => ?_⟩,
      l, hl, hlk, List.eq_nil_iff_forall_not_mem.mpr fun e he => ?_⟩
    · obtain ⟨edge, hedge, ht⟩ := (hg.mem_preds hf e).mp he
      exact hec e edge hedge ht
    · obtain ⟨edge, hedge, hs⟩ := (hg.mem_succs hl e).mp he
      exact hxc e edge hedge hs

/-- **The structural check passes exactly on well-formed graphs.** -/
theorem checkWiring_iff : g.checkWiring = .ok () ↔ g.Wired := by
  have hsplit : g.checkWiring = .ok () ↔
      (∀ b block, g.block? b = some block → g.checkLists block b.slot = .ok ()) ∧
      (∀ e edge, g.edge? e = some edge → g.checkEdge e edge = .ok ()) ∧
      g.checkTerminals = .ok () ∧
      ∀ b block, g.block? b = some block → g.checkOutgoing block = .ok () := by
    simp only [checkWiring, bind_eq_ok, forM_eq_ok, Prod.forall, mem_liveSlots, mem_liveEdges,
      mem_liveBlocks]
    constructor
    · rintro ⟨⟨⟩, h1, ⟨⟩, h2, ⟨⟩, h3, h4⟩
      exact ⟨fun b block hb => h1 block b.slot hb, h2, h3, fun b block hb => h4 block ⟨b, hb⟩⟩
    · rintro ⟨h1, h2, h3, h4⟩
      exact ⟨(), fun block slot hb => h1 ⟨slot⟩ block hb, (), h2, (), h3,
        fun block ⟨b, hb⟩ => h4 b block hb⟩
  rw [hsplit]
  constructor
  · rintro ⟨hlists, hedges, hterm, hout⟩
    have hg := listed_of_checks hlists hedges
    obtain ⟨⟨hek, hec⟩, hxk, hxc⟩ := hg.checkTerminals_iff.mp hterm
    have hways : ∀ {b k}, g.kind? b = some k → k ≠ .exit →
        (∀ d, (∃ e t, g.edge? e = some ⟨b, t, d⟩) ↔ d ∈ k.directions) ∧
        ∀ {d e e' t t'}, g.edge? e = some ⟨b, t, d⟩ → g.edge? e' = some ⟨b, t', d⟩ → e = e' := by
      rintro b k hk hne
      obtain ⟨block, hb, rfl⟩ := block?_of_kind? hk
      exact (hg.outward_perm_iff hb (Kind.nodup_directions _)).mp
        (checkOutgoing_eq_ok.mp (hout b block hb) hne)
    exact ⟨hg, hek, fun he => hec _ _ he, hxk, fun he => hxc _ _ he,
      fun hk hne => (hways hk hne).1, fun hk hne => (hways hk hne).2⟩
  · intro hw
    refine ⟨fun b block hb => hw.toListed.checkLists hb, fun e edge he => hw.toListed.checkEdge he,
      hw.toListed.checkTerminals_iff.mpr ⟨⟨hw.entry_kind, fun _ _ he => hw.entry_closed he⟩,
        hw.exit_kind, fun _ _ he => hw.exit_closed he⟩, fun b block hb => ?_⟩
    refine checkOutgoing_eq_ok.mpr fun hne => ?_
    have hk := kind?_of_block? hb
    exact (hw.toListed.outward_perm_iff hb (Kind.nodup_directions _)).mpr
      ⟨hw.ways hk hne, hw.one_way hk hne⟩

theorem Wired.demandConsistent (h : g.Wired) : g.demandConsistent = .ok () := by
  rw [Graph.demandConsistent, checkWiring_iff.mpr h]

end

/-- **A well-formed graph** passes the structural check, and no other block than its own entry and
exit is one. -/
structure WellFormed (g : Graph) : Prop where
  checked : g.checkWiring = .ok ()
  entry_only : ∀ {b}, g.kind? b = some .entry → b = entry
  exit_only : ∀ {b}, g.kind? b = some .exit → b = exit

namespace WellFormed
variable {g : Graph}

theorem wired (hg : g.WellFormed) : g.Wired := checkWiring_iff.mp hg.checked

theorem listed (hg : g.WellFormed) : g.Listed := hg.wired.toListed

theorem ne_entry (hg : g.WellFormed) {b : BlockId} {k : Kind} (hk : g.kind? b = some k)
    (hne : k ≠ .entry) : b ≠ entry := by
  rintro rfl
  rw [hg.wired.entry_kind] at hk
  exact hne (Option.some.inj hk).symm

theorem ne_exit (hg : g.WellFormed) {b : BlockId} {k : Kind} (hk : g.kind? b = some k)
    (hne : k ≠ .exit) : b ≠ exit := by
  rintro rfl
  rw [hg.wired.exit_kind] at hk
  exact hne (Option.some.inj hk).symm

/-- Control leaves every block but the exit. -/
theorem kind_ne_exit (hg : g.WellFormed) {e : EdgeId} {edge : Edge} (he : g.edge? e = some edge)
    {k : Kind} (hk : g.kind? edge.source = some k) : k ≠ .exit := by
  rintro rfl
  exact hg.wired.exit_closed he (hg.exit_only hk)

theorem edge_unique (hg : g.WellFormed) {b t t' : BlockId} {d : Direction} {e e' : EdgeId}
    (h : g.edge? e = some ⟨b, t, d⟩) (h' : g.edge? e' = some ⟨b, t', d⟩) : e = e' := by
  obtain ⟨block, hb⟩ := hg.listed.source_live h
  have hk := kind?_of_block? hb
  exact hg.wired.one_way hk (hg.kind_ne_exit h hk) h h'

/-- Whether a graph is well-formed can be checked block by block. -/
theorem iff_forall_blocks : g.WellFormed ↔ g.checkWiring = .ok () ∧
    ∀ block ∈ g.liveBlocks,
      (block.kind = .entry → block.id = entry) ∧ (block.kind = .exit → block.id = exit) := by
  constructor
  · refine fun hg => ⟨hg.checked, fun block hblock => ?_⟩
    obtain ⟨b, hb⟩ := mem_liveBlocks.mp hblock
    rw [hg.listed.id_eq hb]
    exact ⟨fun hk => hg.entry_only (hk ▸ kind?_of_block? hb),
      fun hk => hg.exit_only (hk ▸ kind?_of_block? hb)⟩
  · rintro ⟨hchecked, hall⟩
    have hwired := checkWiring_iff.mp hchecked
    refine ⟨hchecked, fun {b} hk => ?_, fun {b} hk => ?_⟩
    · obtain ⟨block, hb, hkind⟩ := block?_of_kind? hk
      rw [← hwired.id_eq hb]
      exact (hall block (mem_liveBlocks.mpr ⟨b, hb⟩)).1 hkind
    · obtain ⟨block, hb, hkind⟩ := block?_of_kind? hk
      rw [← hwired.id_eq hb]
      exact (hall block (mem_liveBlocks.mpr ⟨b, hb⟩)).2 hkind

instance (g : Graph) : Decidable g.WellFormed := decidable_of_iff _ iff_forall_blocks.symm

end WellFormed
end Graph
end FlowGraph
