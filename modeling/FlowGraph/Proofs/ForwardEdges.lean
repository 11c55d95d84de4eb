import FlowGraph.Proofs.InverseOrder
import FlowGraph.Proofs.Routes
import Mathlib.Algebra.GroupWithZero.Nat
import Mathlib.Algebra.Order.BigOperators.Group.List
import Mathlib.Algebra.Order.Group.Nat

/-! # Forward edges

The search for forward edges colours the blocks.  The gray ones are those on the way by which it
came, and each of them leads to all that come later on the way (`Surveyed.climbs`); so the target of
an edge that is dropped leads back to its source.  A forward edge from a gray block leads to a block
that was left, or to one further on the way (`Surveyed.within`).  So when a block is left, its
forward edges lead to blocks that were left before it.  In the order in which they were left, the
blocks other than the entry are stacked (`Surveyed.stacked`), and a stack has no cycle.  Nothing
leads to the entry, so neither do the edges that the search adds to it close one.

Every step does one of three things to the state: it puts a block on the way (`Surveyed.enter`),
counts one more edge as followed (`Surveyed.advance`), or leaves the last block on the way
(`Surveyed.leave`).  The load of a state is the number of steps left to do.
-/
namespace FlowGraph

namespace Digraph

variable {g g' : Digraph}

theorem mem_successors_addEdge {v w i j : Nat} :
    j ∈ (g.addEdge v w).successors i ↔ j ∈ g.successors i ∨ i = v ∧ j = w := by
  rw [successors_addEdge]
  by_cases hi : i = v <;> simp [hi]

theorem size_addEdge_of_lt {v w : Nat} (hv : v < g.size) (hw : w < g.size) :
    (g.addEdge v w).size = g.size := by
  rw [size_addEdge, Nat.max_eq_left hv, Nat.max_eq_left hw]

/-- A stack stays one while its nodes get no new edges. -/
theorem Stacked.mono {done : List Nat} (h : g.Stacked done) (hsize : g'.size = g.size)
    (hsub : ∀ v ∈ done, ∀ w ∈ g'.successors v, w ∈ g.successors v) : g'.Stacked done := by
  induction h with
  | nil => exact .nil
  | cons node fresh below _ ih =>
    obtain ⟨hv, hsub⟩ := List.forall_mem_cons.mp hsub
    exact .cons (hsize ▸ node) fresh (fun w hw => below w (hv w hw)) (ih hsub)

end Digraph

namespace Graph

variable {g : Graph}

theorem Listed.successorEdges_eq {b : BlockId} {block : Block} (hb : g.block? b = some block) :
    g.successorEdges b = .ok block.succs := by
  rw [successorEdges, Graph.block, hb]
  rfl

theorem stepsAt_of_block? {b : BlockId} {block : Block} (hb : g.block? b = some block) :
    g.stepsAt b = block.succs.length + 1 := by
  rw [stepsAt, hb]

namespace Forward

variable {s s' : Forward} {left : List BlockId} {a b t : BlockId}

/-- The blocks on the way, the last one first. -/
def path (s : Forward) : List BlockId := s.way.map Prod.fst

/-- A block was entered. -/
def Met (s : Forward) (b : BlockId) : Prop := ∃ c, s.colors[b.slot]? = some c ∧ c ≠ .white

/-- The `k`-th edge of a block was followed. -/
def Passed (s : Forward) (b : BlockId) (k : Nat) : Prop :=
  s.colors[b.slot]? = some .black ∨ ∃ n, (b, n) ∈ s.way ∧ k < n

/-- **The state of the search between two steps.**  The blocks `left` are the black ones other than
the entry, the last one first. -/
structure Surveyed (g : Graph) (s : Forward) (left : List BlockId) : Prop where
  size_edges : s.edges.size = g.blocks.size
  size_colors : s.colors.size = g.blocks.size
  gray_iff : ∀ b : BlockId, s.colors[b.slot]? = some .gray ↔ b ∈ s.path
  left_iff : ∀ b, b ∈ left ↔ b ≠ entry ∧ s.colors[b.slot]? = some .black
  live : ∀ ⦃b⦄, s.Met b → ∃ block, g.block? b = some block
  nodup : s.path.Nodup
  counted : ∀ ⦃b n⦄, (b, n) ∈ s.way → n < g.stepsAt b
  stacked : s.edges.Stacked (left.map BlockId.slot)
  climbs : s.path.Pairwise fun x y => Relation.ReflTransGen g.Leads y x
  within : ∀ front ⦃b rest⦄, s.path = front ++ b :: rest → ∀ ⦃t : BlockId⦄,
    t.slot ∈ s.edges.successors b.slot → t ∈ left ∨ t ∈ front
  followed : ∀ ⦃b block⦄, g.block? b = some block → ∀ ⦃k e edge⦄, block.succs[k]? = some e →
    g.edge? e = some edge → s.Passed b k →
    edge.target.slot ∈ s.edges.successors b.slot ∨ Relation.ReflTransGen g.Leads edge.target b
  entered : ∀ ⦃b⦄, b ≠ entry → s.Met b → ∃ a, s.Met a ∧ b.slot ∈ s.edges.successors a.slot
  forward : ∀ ⦃a t : BlockId⦄, t.slot ∈ s.edges.successors a.slot →
    s.Met a ∧ t ≠ entry ∧ t.slot < g.blocks.size

theorem getElem?_paint {c : Color} (ht : t.slot < s.colors.size) :
    (s.paint t c).colors[b.slot]? = if b = t then some c else s.colors[b.slot]? := by
  rw [paint, Array.getElem?_setIfInBounds]
  by_cases hb : b = t
  · rw [if_pos (congrArg BlockId.slot hb).symm, if_pos ht, if_pos hb]
  · have hslot : t.slot ≠ b.slot := fun h => hb (BlockId.ext h.symm)
    rw [if_neg hslot, if_neg hb]

theorem met_paint {c : Color} (hc : c ≠ .white) (ht : t.slot < s.colors.size) :
    (s.paint t c).Met b ↔ s.Met b ∨ b = t := by
  rw [Met, getElem?_paint ht]
  by_cases hb : b = t
  · rw [if_pos hb]
    exact iff_of_true ⟨c, rfl, hc⟩ (.inr hb)
  · rw [if_neg hb, or_iff_left hb]
    rfl

namespace Surveyed

section
variable (h : Surveyed g s left)
include h

theorem lt_size (hb : ∃ block, g.block? b = some block) : b.slot < s.colors.size := by
  obtain ⟨block, hb⟩ := hb
  exact h.size_colors ▸ slot_lt_of_block? hb

theorem met_of_path (hb : b ∈ s.path) : s.Met b := ⟨.gray, (h.gray_iff b).mpr hb, nofun⟩

theorem not_left_of_path (hb : b ∈ s.path) : b ∉ left := by
  intro hin
  have hblack := ((h.left_iff b).mp hin).2
  rw [(h.gray_iff b).mpr hb] at hblack
  cases hblack

theorem color_eq (hb : ∃ block, g.block? b = some block) :
    ∃ c, s.colors[b.slot]? = some c ∧ s.color b = .ok c := by
  have hc := Array.getElem?_eq_getElem (h.lt_size hb)
  exact ⟨_, hc, by rw [color, hc]⟩

/-- Every block on the way leads to the last one. -/
theorem leads_to_last {rest : List (BlockId × Nat)} {next : Nat} (hway : s.way = (b, next) :: rest)
    (ha : a ∈ s.path) : Relation.ReflTransGen g.Leads a b := by
  have hclimbs := h.climbs
  rw [path, hway] at ha hclimbs
  rcases List.mem_cons.mp ha with rfl | ha
  · exact .refl
  · exact (List.pairwise_cons.mp hclimbs).1 a ha

/-- New edges of a block that was not left make no difference to those that were. -/
theorem stacked_of_edges {edges : Digraph} (hsize : edges.size = s.edges.size) (ha : a ∉ left)
    (hedges : ∀ v w, w ∈ edges.successors v → w ∈ s.edges.successors v ∨ v = a.slot) :
    edges.Stacked (left.map BlockId.slot) := by
  refine h.stacked.mono hsize fun v hv w hw => (hedges v w hw).resolve_right ?_
  rintro rfl
  obtain ⟨x, hx, hslot⟩ := List.mem_map.mp hv
  obtain rfl : x = a := BlockId.ext hslot
  exact ha hx

/-- A white block is put on the way, with an edge from `a` unless it is the entry. -/
theorem enter {edges : Digraph} (hsize : edges.size = s.edges.size)
    (hedges : ∀ v w, w ∈ edges.successors v ↔
      w ∈ s.edges.successors v ∨ t ≠ entry ∧ v = a.slot ∧ w = t.slot)
    (ha : t ≠ entry → s.Met a ∧ a ∉ left) (ht : s.colors[t.slot]? = some .white)
    (hlive : ∃ block, g.block? t = some block)
    (hreach : ∀ x ∈ s.path, Relation.ReflTransGen g.Leads x t) :
    Surveyed g (descend { s with edges } t) left := by
  have hcolor : ∀ b : BlockId, (descend { s with edges } t).colors[b.slot]? =
      if b = t then some .gray else s.colors[b.slot]? := fun b =>
    getElem?_paint (s := { s with edges }) (h.lt_size hlive)
  have hunmet : ¬ s.Met t := by
    rintro ⟨c, hc, hne⟩
    exact hne (Option.some.inj (hc.symm.trans ht))
  have hmet : ∀ b, (descend { s with edges } t).Met b ↔ s.Met b ∨ b = t := fun b =>
    met_paint (s := { s with edges }) nofun (h.lt_size hlive)
  have hpath : t ∉ s.path := fun hin => hunmet (h.met_of_path hin)
  constructor
  case size_edges => exact hsize.trans h.size_edges
  case size_colors => exact Array.size_setIfInBounds.trans h.size_colors
  case gray_iff =>
    intro b
    rw [hcolor]
    by_cases hb : b = t
    · simp [hb, path, descend]
    · rw [if_neg hb, h.gray_iff]
      exact (List.mem_cons.trans (or_iff_right hb)).symm
  case left_iff =>
    intro b
    rw [hcolor, h.left_iff]
    by_cases hb : b = t
    · simp [hb, ht]
    · rw [if_neg hb]
  case live =>
    intro b hb
    rcases (hmet b).mp hb with hb | rfl
    · exact h.live hb
    · exact hlive
  case nodup => exact List.nodup_cons.mpr ⟨hpath, h.nodup⟩
  case counted =>
    intro b n hin
    rcases List.mem_cons.mp hin with heq | hin
    · obtain ⟨rfl, rfl⟩ := Prod.mk.inj heq
      obtain ⟨block, hb⟩ := hlive
      rw [stepsAt_of_block? hb]
      exact Nat.succ_pos _
    · exact h.counted hin
  case stacked =>
    by_cases hne : t = entry
    · exact h.stacked.mono hsize fun v _ w hw =>
        ((hedges v w).mp hw).resolve_right fun hnew => hnew.1 hne
    · exact h.stacked_of_edges hsize (ha hne).2 fun v w hw =>
        ((hedges v w).mp hw).imp_right fun hnew => hnew.2.1
  case climbs => exact List.pairwise_cons.mpr ⟨hreach, h.climbs⟩
  case within =>
    intro front b rest hsplit u hu
    rcases (hedges _ _).mp hu with hu | ⟨hne, hb, htarget⟩
    · cases front with
      | nil =>
        obtain ⟨rfl, -⟩ := List.cons.inj hsplit
        exact absurd (h.forward hu).1 hunmet
      | cons x front =>
        exact (h.within front (List.cons.inj hsplit).2 hu).imp_right (List.mem_cons_of_mem x)
    · -- The new edge leads to the last block on the way.
      obtain rfl : u = t := BlockId.ext htarget
      obtain rfl : b = a := BlockId.ext hb
      cases front with
      | nil =>
        obtain ⟨rfl, -⟩ := List.cons.inj hsplit
        exact absurd (ha hne).1 hunmet
      | cons x front =>
        obtain ⟨rfl, -⟩ := List.cons.inj hsplit
        exact .inr List.mem_cons_self
  case followed =>
    intro b block hb k e edge hk he hpassed
    have hold : s.Passed b k := by
      rcases hpassed with hblack | ⟨n, hin, hlt⟩
      · rw [hcolor] at hblack
        split at hblack
        · cases hblack
        · exact .inl hblack
      · rcases List.mem_cons.mp hin with heq | hin
        · rw [(Prod.mk.inj heq).2] at hlt
          cases hlt
        · exact .inr ⟨n, hin, hlt⟩
    exact (h.followed hb hk he hold).imp_left fun hin => (hedges _ _).mpr (.inl hin)
  case entered =>
    intro b hne hb
    rcases (hmet b).mp hb with hb | rfl
    · obtain ⟨p, hp, hedge⟩ := h.entered hne hb
      exact ⟨p, (hmet p).mpr (.inl hp), (hedges _ _).mpr (.inl hedge)⟩
    · exact ⟨a, (hmet a).mpr (.inl (ha hne).1), (hedges _ _).mpr (.inr ⟨hne, rfl, rfl⟩)⟩
  case forward =>
    intro b u hedge
    rcases (hedges _ _).mp hedge with hedge | ⟨hne, hb, hu⟩
    · obtain ⟨hmetb, hu⟩ := h.forward hedge
      exact ⟨(hmet b).mpr (.inl hmetb), hu⟩
    · obtain rfl : u = t := BlockId.ext hu
      obtain rfl : b = a := BlockId.ext hb
      obtain ⟨block, hlive⟩ := hlive
      exact ⟨(hmet b).mpr (.inl (ha hne).1), hne, slot_lt_of_block? hlive⟩

/-- A forward edge to a block that was left. -/
theorem addEdge {edges : Digraph} (hsize : edges.size = s.edges.size)
    (hedges : ∀ v w, w ∈ edges.successors v ↔
      w ∈ s.edges.successors v ∨ v = b.slot ∧ w = t.slot)
    (hb : b ∈ s.path) (ht : t ∈ left) : Surveyed g { s with edges } left := by
  obtain ⟨hne, hblack⟩ := (h.left_iff t).mp ht
  obtain ⟨block, hlive⟩ := h.live ⟨_, hblack, nofun⟩
  have hlt : t.slot < g.blocks.size := slot_lt_of_block? hlive
  constructor
  case size_edges => exact hsize.trans h.size_edges
  case size_colors => exact h.size_colors
  case gray_iff => exact h.gray_iff
  case left_iff => exact h.left_iff
  case live => exact h.live
  case nodup => exact h.nodup
  case counted => exact h.counted
  case climbs => exact h.climbs
  case stacked =>
    exact h.stacked_of_edges hsize (h.not_left_of_path hb) fun v w hw =>
      ((hedges v w).mp hw).imp_right And.left
  case within =>
    intro front c rest hsplit u hu
    rcases (hedges _ _).mp hu with hu | ⟨-, hu⟩
    · exact h.within front hsplit hu
    · obtain rfl : u = t := BlockId.ext hu
      exact .inl ht
  case followed =>
    intro c block hc k e edge hk he hpassed
    exact (h.followed hc hk he hpassed).imp_left fun hin => (hedges _ _).mpr (.inl hin)
  case entered =>
    intro c hc hmet
    obtain ⟨p, hp, hedge⟩ := h.entered hc hmet
    exact ⟨p, hp, (hedges _ _).mpr (.inl hedge)⟩
  case forward =>
    intro c u hedge
    rcases (hedges _ _).mp hedge with hedge | ⟨hc, hu⟩
    · exact h.forward hedge
    · obtain rfl : u = t := BlockId.ext hu
      obtain rfl : c = b := BlockId.ext hc
      exact ⟨h.met_of_path hb, hne, hlt⟩

/-- One more edge of a block on the way was followed. -/
theorem advance (front : List (BlockId × Nat)) {rest : List (BlockId × Nat)} {next : Nat}
    {block : Block} {e : EdgeId} {edge : Edge} (hway : s.way = front ++ (b, next) :: rest)
    (hb : g.block? b = some block)
    (hnext : block.succs[next]? = some e) (he : g.edge? e = some edge)
    (hfollowed : edge.target.slot ∈ s.edges.successors b.slot ∨
      Relation.ReflTransGen g.Leads edge.target b) :
    Surveyed g { s with way := front ++ (b, next + 1) :: rest } left := by
  have hpath : path { s with way := front ++ (b, next + 1) :: rest } = s.path := by
    simp [path, hway]
  have hmem : ∀ {c n}, (c, n) ∈ front ++ (b, next + 1) :: rest →
      (c, n) ∈ s.way ∨ c = b ∧ n = next + 1 := by
    intro c n hin
    rw [hway]
    rcases List.mem_append.mp hin with hin | hin
    · exact .inl (List.mem_append_left _ hin)
    · rcases List.mem_cons.mp hin with heq | hin
      · exact .inr (Prod.mk.inj heq)
      · exact .inl (List.mem_append_right _ (List.mem_cons_of_mem _ hin))
  exact {
    h with
    gray_iff := fun c => hpath ▸ h.gray_iff c
    nodup := hpath ▸ h.nodup
    counted := fun c n hin => by
      rcases hmem hin with hin | ⟨rfl, rfl⟩
      · exact h.counted hin
      · rw [stepsAt_of_block? hb]
        exact Nat.succ_lt_succ (List.getElem?_eq_some_iff.mp hnext).1
    climbs := hpath ▸ h.climbs
    within := fun front' c rest' hsplit => h.within front' (hpath ▸ hsplit)
    followed := fun c block' hc k e' edge' hk he' hpassed => by
      rcases hpassed with hblack | ⟨n, hin, hlt⟩
      · exact h.followed hc hk he' (.inl hblack)
      · rcases hmem hin with hin | ⟨rfl, rfl⟩
        · exact h.followed hc hk he' (.inr ⟨n, hin, hlt⟩)
        · rcases Nat.lt_succ_iff_lt_or_eq.mp hlt with hlt | rfl
          · refine h.followed hc hk he' (.inr ⟨next, ?_, hlt⟩)
            rw [hway]
            exact List.mem_append_right _ List.mem_cons_self
          · obtain rfl := Option.some.inj (hb.symm.trans hc)
            obtain rfl := Option.some.inj (hnext.symm.trans hk)
            obtain rfl := Option.some.inj (he.symm.trans he')
            exact hfollowed }

/-- The last block on the way is left, when all its edges were followed. -/
theorem leave {rest : List (BlockId × Nat)} {next : Nat} {block : Block}
    (hway : s.way = (b, next) :: rest) (hb : g.block? b = some block)
    (hnext : block.succs[next]? = none) :
    Surveyed g { s.paint b .black with way := rest } (if b = entry then left else b :: left) := by
  have hpath : s.path = b :: rest.map Prod.fst := by rw [path, hway]; rfl
  have hgray : s.colors[b.slot]? = some .gray := (h.gray_iff b).mpr (hpath ▸ List.mem_cons_self)
  have hcolor : ∀ c : BlockId, (s.paint b .black).colors[c.slot]? =
      if c = b then some .black else s.colors[c.slot]? := fun c =>
    getElem?_paint (h.lt_size ⟨block, hb⟩)
  have hmem : ∀ c, c ∈ (if b = entry then left else b :: left) ↔ c ∈ left ∨ c = b ∧ b ≠ entry := by
    intro c
    split
    · rename_i heq
      exact (or_iff_left fun hc => hc.2 heq).symm
    · rename_i hne
      rw [List.mem_cons, or_comm, and_iff_left hne]
  have hmet : ∀ c, Met { s.paint b .black with way := rest } c ↔ s.Met c := by
    intro c
    have hpainted : (s.paint b .black).Met c ↔ s.Met c ∨ c = b :=
      met_paint nofun (h.lt_size ⟨block, hb⟩)
    refine hpainted.trans (or_iff_left_of_imp ?_)
    rintro rfl
    exact ⟨_, hgray, nofun⟩
  have hnodup := h.nodup
  rw [hpath, List.nodup_cons] at hnodup
  constructor
  case size_edges => exact h.size_edges
  case size_colors => exact Array.size_setIfInBounds.trans h.size_colors
  case gray_iff =>
    intro c
    show (s.paint b .black).colors[c.slot]? = _ ↔ c ∈ rest.map Prod.fst
    rw [hcolor]
    by_cases hc : c = b
    · subst hc
      rw [if_pos rfl]
      exact iff_of_false nofun hnodup.1
    · rw [if_neg hc, h.gray_iff, hpath, List.mem_cons, or_iff_right hc]
  case left_iff =>
    intro c
    show _ ↔ c ≠ entry ∧ (s.paint b .black).colors[c.slot]? = _
    rw [hmem, hcolor, h.left_iff]
    by_cases hc : c = b
    · subst hc
      simp [hgray]
    · simp [hc]
  case live => exact fun c hc => h.live ((hmet c).mp hc)
  case nodup => exact hnodup.2
  case counted =>
    intro c n hin
    refine h.counted ?_
    rw [hway]
    exact List.mem_cons_of_mem _ hin
  case stacked =>
    split
    · exact h.stacked
    · -- Nothing is further on the way, so all edges of the block lead to blocks that were left.
      refine .cons (h.size_edges ▸ slot_lt_of_block? hb) ?_ (fun w hw => ?_) h.stacked
      · intro hin
        obtain ⟨x, hx, hslot⟩ := List.mem_map.mp hin
        obtain rfl : x = b := BlockId.ext hslot
        exact h.not_left_of_path (hpath ▸ List.mem_cons_self) hx
      · have hleft := (h.within [] hpath (t := ⟨w⟩) hw).resolve_right List.not_mem_nil
        exact List.mem_map.mpr ⟨_, hleft, rfl⟩
  case climbs =>
    have hclimbs := h.climbs
    rw [hpath] at hclimbs
    exact (List.pairwise_cons.mp hclimbs).2
  case within =>
    intro front c rest' hsplit t ht
    have hfull : s.path = (b :: front) ++ c :: rest' := hpath.trans (congrArg (b :: ·) hsplit)
    rw [hmem]
    rcases h.within _ hfull ht with hin | hin
    · exact .inl (.inl hin)
    · rcases List.mem_cons.mp hin with rfl | hin
      · exact .inl (.inr ⟨rfl, (h.forward ht).2.1⟩)
      · exact .inr hin
  case followed =>
    intro c block' hc k e edge hk he hpassed
    refine h.followed hc hk he ?_
    rcases hpassed with hblack | ⟨n, hin, hlt⟩
    · by_cases hcb : c = b
      · subst hcb
        obtain rfl := Option.some.inj (hb.symm.trans hc)
        refine .inr ⟨next, hway ▸ List.mem_cons_self, ?_⟩
        have hlen := List.getElem?_eq_none_iff.mp hnext
        exact Nat.lt_of_lt_of_le (List.getElem?_eq_some_iff.mp hk).1 hlen
      · exact .inl ((if_neg hcb).symm.trans ((hcolor c).symm.trans hblack))
    · exact .inr ⟨n, hway ▸ List.mem_cons_of_mem _ hin, hlt⟩
  case entered =>
    intro c hne hc
    obtain ⟨a, ha, hedge⟩ := h.entered hne ((hmet c).mp hc)
    exact ⟨a, (hmet a).mpr ha, hedge⟩
  case forward =>
    intro a t hedge
    obtain ⟨ha, ht⟩ := h.forward hedge
    exact ⟨(hmet a).mpr ha, ht⟩

end
end Surveyed

/-! ### How many steps are left -/

/-- The steps to spend on blocks that were not entered. -/
def ahead (g : Graph) (colors : Array Color) : Nat :=
  ((List.range g.blocks.size).map fun slot =>
    if colors[slot]? = some .white then g.stepsAt ⟨slot⟩ else 0).sum

/-- **The steps left to do**: those to spend on blocks that were not entered, and what is left to do
for the blocks on the way. -/
def load (g : Graph) (s : Forward) : Nat :=
  (s.way.map fun x => g.stepsAt x.1 - x.2).sum + ahead g s.colors

theorem ahead_le (g : Graph) (colors : Array Color) : ahead g colors ≤ g.searchSteps := by
  have hsum : g.searchSteps =
      ((List.range g.blocks.size).map fun slot => g.stepsAt ⟨slot⟩).sum := by
    rw [searchSteps, List.sum, List.foldr_map]
  rw [hsum]
  refine List.sum_le_sum fun slot _ => ?_
  split
  · exact Nat.le_refl _
  · exact Nat.zero_le _

theorem sum_map_range_of_eq_zero {f f' : Nat → Nat} {k n : Nat} (hk : k < n) (hzero : f' k = 0)
    (hsame : ∀ i, i ≠ k → f' i = f i) :
    ((List.range n).map f).sum = ((List.range n).map f').sum + f k := by
  induction n with
  | zero => cases hk
  | succ n ih =>
    rw [List.range_succ, List.map_append, List.map_append, List.sum_append, List.sum_append]
    rcases Nat.lt_succ_iff_lt_or_eq.mp hk with hlt | rfl
    · have hn := hsame n (Nat.ne_of_gt hlt)
      simp only [ih hlt, List.map_cons, List.map_nil, List.sum_singleton, hn]
      omega
    · have hbelow : (List.range k).map f = (List.range k).map f' :=
        List.map_congr_left fun i hi => (hsame i (Nat.ne_of_lt (List.mem_range.mp hi))).symm
      simp [hbelow, hzero]

/-- A white block that gets another color takes its steps with it. -/
theorem ahead_paint {c : Color} (hc : c ≠ .white) (ht : s.colors[t.slot]? = some .white)
    (hsize : s.colors.size = g.blocks.size) :
    ahead g s.colors = ahead g (s.paint t c).colors + g.stepsAt t := by
  have hlt := (Array.getElem?_eq_some_iff.mp ht).1
  have hcolor : ∀ slot, (s.paint t c).colors[slot]? =
      if slot = t.slot then some c else s.colors[slot]? := fun slot =>
    (getElem?_paint (b := ⟨slot⟩) hlt).trans (if_congr BlockId.ext_iff rfl rfl)
  have hsum : ahead g s.colors = ahead g (s.paint t c).colors +
      if s.colors[t.slot]? = some .white then g.stepsAt t else 0 :=
    sum_map_range_of_eq_zero (hsize ▸ hlt) (by simp [hcolor, hc])
      (fun slot hne => by simp [hcolor, hne])
  rw [hsum, if_pos ht]

/-- Colors other than white make no difference to the blocks that were not entered. -/
theorem ahead_repaint {c d : Color} (hc : c ≠ .white) (hd : d ≠ .white)
    (ht : s.colors[t.slot]? = some d) : ahead g (s.paint t c).colors = ahead g s.colors := by
  have hlt := (Array.getElem?_eq_some_iff.mp ht).1
  refine congrArg List.sum (List.map_congr_left fun slot _ => ?_)
  have hcolor : (s.paint t c).colors[slot]? = if slot = t.slot then some c else s.colors[slot]? :=
    (getElem?_paint (b := ⟨slot⟩) hlt).trans (if_congr BlockId.ext_iff rfl rfl)
  by_cases hslot : slot = t.slot
  · subst hslot
    simp [hcolor, hc, ht, hd]
  · rw [hcolor, if_neg hslot]

theorem load_descend (edges : Digraph) (ht : s.colors[t.slot]? = some .white)
    (hsize : s.colors.size = g.blocks.size) :
    load g (descend { s with edges } t) = load g s := by
  have hahead := ahead_paint (c := .gray) nofun ht hsize
  have hload : load g (descend { s with edges } t) =
      (g.stepsAt t - 0) + (s.way.map fun x => g.stepsAt x.1 - x.2).sum +
        ahead g (s.paint t .gray).colors := rfl
  rw [hload, load]
  omega

theorem load_advance (front : List (BlockId × Nat)) {rest : List (BlockId × Nat)} {next : Nat}
    (hway : s.way = front ++ (b, next) :: rest) (hnext : next < g.stepsAt b) :
    load g { s with way := front ++ (b, next + 1) :: rest } + 1 = load g s := by
  simp only [load, hway, List.map_append, List.map_cons, List.sum_append, List.sum_cons]
  omega

theorem load_leave {rest : List (BlockId × Nat)} {next : Nat} (hway : s.way = (b, next) :: rest)
    (hnext : g.stepsAt b = next + 1) (hgray : s.colors[b.slot]? = some .gray) :
    load g { s.paint b .black with way := rest } + 1 = load g s := by
  have hahead : ahead g (s.paint b .black).colors = ahead g s.colors :=
    ahead_repaint (d := .gray) nofun nofun hgray
  simp only [load, hway, List.map_cons, List.sum_cons, hahead, hnext]
  omega

/-! ### Steps and runs -/

/-- **What comes of some steps**: a state between two steps, in which no block is forgotten. -/
structure Reached (g : Graph) (s s' : Forward) (left : List BlockId) : Prop where
  surveyed : Surveyed g s' left
  met : ∀ ⦃b⦄, s.Met b → s'.Met b

section
variable {next : Nat} {rest : List (BlockId × Nat)} {block : Block} {e : EdgeId} {edge : Edge}
  (hway : s.way = (b, next) :: rest) (hb : g.block? b = some block)
include hway hb

theorem step_leave (hnext : block.succs[next]? = none) :
    s.step g = .ok { s.paint b .black with way := rest } := by
  rw [Forward.step, hway]
  simp only [Listed.successorEdges_eq hb, bind, Except.bind, hnext]
  rfl

variable (hnext : block.succs[next]? = some e) (he : g.edge? e = some edge)
include hnext he

theorem step_gray (hcolor : s.color edge.target = .ok .gray) :
    s.step g = .ok { s with way := (b, next + 1) :: rest } := by
  have hcolor' : color { s with way := (b, next + 1) :: rest } edge.target = .ok .gray := hcolor
  rw [Forward.step, hway]
  simp only [Listed.successorEdges_eq hb, Graph.edge, he, bind, Except.bind, hnext, hcolor']
  rfl

theorem step_black {edges : Digraph} (hcolor : s.color edge.target = .ok .black)
    (hedges : s.edges.addEdge b.slot edge.target.slot = edges) :
    s.step g = .ok { s with edges, way := (b, next + 1) :: rest } := by
  have hcolor' : color { s with way := (b, next + 1) :: rest } edge.target = .ok .black := hcolor
  rw [Forward.step, hway]
  simp only [Listed.successorEdges_eq hb, Graph.edge, he, bind, Except.bind, hnext, hcolor',
    Forward.addEdge, hedges]
  rfl

theorem step_white {edges : Digraph} (hcolor : s.color edge.target = .ok .white)
    (hedges : s.edges.addEdge b.slot edge.target.slot = edges) :
    s.step g = .ok { descend { s with edges } edge.target with
      way := (edge.target, 0) :: (b, next + 1) :: rest } := by
  have hcolor' : color { s with way := (b, next + 1) :: rest } edge.target = .ok .white := hcolor
  rw [Forward.step, hway]
  simp only [Listed.successorEdges_eq hb, Graph.edge, he, bind, Except.bind, hnext, hcolor',
    Forward.addEdge, hedges]
  rfl

end

/-- The edges with one more, of which no more is used than this. -/
theorem Surveyed.exists_edges {block : Block} (h : Surveyed g s left) (ha : g.block? a = some block)
    (ht : ∃ block, g.block? t = some block) :
    ∃ edges : Digraph, edges.size = s.edges.size ∧ (∀ v w, w ∈ edges.successors v ↔
      w ∈ s.edges.successors v ∨ v = a.slot ∧ w = t.slot) ∧
      s.edges.addEdge a.slot t.slot = edges := by
  obtain ⟨block', ht⟩ := ht
  exact ⟨_, Digraph.size_addEdge_of_lt (h.size_edges ▸ slot_lt_of_block? ha)
    (h.size_edges ▸ slot_lt_of_block? ht), fun _ _ => Digraph.mem_successors_addEdge, rfl⟩

/-- A block stays entered when a block gets a color other than white. -/
theorem Met.paint {c : Color} (hb : s.Met b) (ht : t.slot < s.colors.size) (hc : c ≠ .white) :
    ∃ d, (s.paint t c).colors[b.slot]? = some d ∧ d ≠ .white := by
  obtain ⟨d, hd, hne⟩ := hb
  by_cases heq : b = t
  · exact ⟨c, (getElem?_paint ht).trans (if_pos heq), hc⟩
  · exact ⟨d, (getElem?_paint ht).trans ((if_neg heq).trans hd), hne⟩

section
variable (hg : g.WellFormed)
include hg

/-- **One step** goes through, and leaves one step less to do. -/
theorem Surveyed.step (h : Surveyed g s left) (hway : s.way ≠ []) :
    ∃ s' left', s.step g = .ok s' ∧ Reached g s s' left' ∧ s'.load g + 1 = s.load g := by
  obtain ⟨⟨b, next⟩, rest, hway⟩ := List.exists_cons_of_ne_nil hway
  have hpath : b ∈ s.path := by
    rw [path, hway]
    exact List.mem_cons_self
  obtain ⟨block, hb⟩ := h.live (h.met_of_path hpath)
  have hcount : next < g.stepsAt b := h.counted (hway ▸ List.mem_cons_self)
  cases hnext : block.succs[next]? with
  | none =>
    have hlast : g.stepsAt b = next + 1 := by
      have hsteps := stepsAt_of_block? hb
      have hlen := List.getElem?_eq_none_iff.mp hnext
      omega
    have hgray := (h.gray_iff b).mpr hpath
    refine ⟨_, _, step_leave hway hb hnext, ⟨h.leave hway hb hnext, ?_⟩,
      load_leave hway hlast hgray⟩
    exact fun c hc => hc.paint (h.lt_size ⟨block, hb⟩) nofun
  | some e =>
    obtain ⟨edge, he, hsource⟩ := (hg.listed.mem_succs hb e).mp (List.mem_of_getElem? hnext)
    have hleads : g.Leads b edge.target := ⟨e, edge.direction, hsource ▸ he⟩
    have hentry : edge.target ≠ entry := hg.wired.entry_closed he
    have hlive := hg.listed.target_live he
    obtain ⟨c, hc, hcolor⟩ := h.color_eq hlive
    cases c with
    | gray =>
      -- The target is on the way, so it leads to the end of it.
      have hback := h.leads_to_last hway ((h.gray_iff _).mp hc)
      exact ⟨_, left, step_gray hway hb hnext he hcolor,
        ⟨h.advance [] hway hb hnext he (.inr hback), fun _ hb => hb⟩, load_advance [] hway hcount⟩
    | black =>
      have hleft : edge.target ∈ left := (h.left_iff _).mpr ⟨hentry, hc⟩
      obtain ⟨edges, hsize, hedges, hrun⟩ := h.exists_edges hb hlive
      have hadded := h.addEdge hsize hedges hpath hleft
      have hin := (hedges _ _).mpr (.inr ⟨rfl, rfl⟩)
      exact ⟨_, left, step_black hway hb hnext he hcolor hrun,
        ⟨hadded.advance [] hway hb hnext he (.inl hin), fun _ hb => hb⟩,
        load_advance [] hway hcount⟩
    | white =>
      have hreach : ∀ x ∈ s.path, Relation.ReflTransGen g.Leads x edge.target := fun x hx =>
        (h.leads_to_last hway hx).tail hleads
      obtain ⟨edges, hsize, hedges, hrun⟩ := h.exists_edges hb hlive
      have hentered := h.enter hsize
        (fun v w => (hedges v w).trans (or_congr_right (and_iff_right hentry).symm))
        (fun _ => ⟨h.met_of_path hpath, h.not_left_of_path hpath⟩) hc hlive hreach
      have hin := (hedges _ _).mpr (.inr ⟨rfl, rfl⟩)
      have hway' := congrArg ((edge.target, 0) :: ·) hway
      refine ⟨_, left, step_white hway hb hnext he hcolor hrun,
        ⟨hentered.advance [(edge.target, 0)] hway' hb hnext he (.inl hin), ?_⟩, ?_⟩
      · exact fun x hx => hx.paint (h.lt_size hlive) nofun
      · rw [← load_descend edges hc h.size_colors]
        exact load_advance [(edge.target, 0)] hway' hcount

/-- **A search ends**, with an empty way, when the bound covers the steps left to do. -/
theorem Surveyed.run (fuel : Nat) (h : Surveyed g s left) (hfuel : s.load g ≤ fuel) :
    ∃ s' left', s.run g fuel = .ok s' ∧ Reached g s s' left' ∧ s'.way = [] := by
  induction fuel generalizing s left with
  | zero =>
    refine ⟨s, left, rfl, ⟨h, fun _ hb => hb⟩, ?_⟩
    by_contra hway
    obtain ⟨_, _, -, -, hload⟩ := h.step hg hway
    omega
  | succ fuel ih =>
    rw [Forward.run]
    by_cases hway : s.way = []
    · rw [if_pos (by rw [hway]; rfl)]
      exact ⟨s, left, rfl, ⟨h, fun _ hb => hb⟩, hway⟩
    · rw [if_neg (by rw [List.isEmpty_iff]; exact hway)]
      obtain ⟨s₁, left₁, hstep, h₁, hload⟩ := h.step hg hway
      obtain ⟨s₂, left₂, hrun, h₂, hempty⟩ := ih h₁.surveyed (by omega)
      refine ⟨s₂, left₂, ?_, ⟨h₂.surveyed, fun _ hb => h₂.met (h₁.met hb)⟩, hempty⟩
      rw [hstep]
      exact hrun

/-- **The search from a root** enters it, if it was not entered before. -/
theorem Surveyed.searchFrom {root : BlockId} (h : Surveyed g s left) (hway : s.way = [])
    (hlive : ∃ block, g.block? root = some block) (hroot : root = entry ∨ s.Met entry) :
    ∃ s' left', s.searchFrom g root = .ok s' ∧ Reached g s s' left' ∧ s'.way = [] ∧
    s'.Met root := by
  obtain ⟨c, hc, hcolor⟩ := h.color_eq hlive
  have hpath : s.path = [] := by
    rw [path, hway]
    rfl
  by_cases hwhite : c = .white
  · subst hwhite
    have hfuel : load g s ≤ g.searchSteps := by
      rw [load, hway]
      exact Nat.le_trans (Nat.le_of_eq (Nat.zero_add _)) (ahead_le g s.colors)
    -- The edge from the entry goes only to roots other than the entry.
    obtain ⟨edges, hsize, hedges, hstate⟩ : ∃ edges : Digraph, edges.size = s.edges.size ∧
        (∀ v w, w ∈ edges.successors v ↔
          w ∈ s.edges.successors v ∨ root ≠ entry ∧ v = entry.slot ∧ w = root.slot) ∧
        (if root = entry then s else s.addEdge entry root) = { s with edges } := by
      by_cases heq : root = entry
      · exact ⟨s.edges, rfl, fun v w => (or_iff_left fun hne => hne.1 heq).symm, if_pos heq⟩
      · obtain ⟨first, hfirst⟩ := hg.entry_live
        obtain ⟨edges, hsize, hedges, rfl⟩ := h.exists_edges hfirst hlive
        exact ⟨_, hsize, fun v w => (hedges v w).trans
          (or_congr_right (and_iff_right heq).symm), if_neg heq⟩
    have hentered := h.enter (a := entry) hsize hedges
      (fun hne => ⟨hroot.resolve_left hne, fun hin => ((h.left_iff _).mp hin).1 rfl⟩) hc hlive
      (by rw [hpath]; nofun)
    obtain ⟨s', left', hrun, hreached, hempty⟩ := hentered.run hg g.searchSteps
      (Nat.le_trans (Nat.le_of_eq (load_descend edges hc h.size_colors)) hfuel)
    refine ⟨s', left', ?_, ⟨hreached.surveyed, fun x hx => hreached.met ?_⟩, hempty,
      hreached.met ⟨.gray, ?_, nofun⟩⟩
    · rw [Forward.searchFrom, hcolor]
      show Forward.run g g.searchSteps
        ((if root = entry then s else s.addEdge entry root).descend root) = _
      rw [hstate, hrun]
    · exact hx.paint (h.lt_size hlive) nofun
    · exact (getElem?_paint (s := { s with edges }) (h.lt_size hlive)).trans (if_pos rfl)
  · refine ⟨s, left, ?_, ⟨h, fun _ hb => hb⟩, hway, c, hc, hwhite⟩
    rw [Forward.searchFrom, hcolor]
    cases c with
    | white => exact absurd rfl hwhite
    | gray => rfl
    | black => rfl

theorem Surveyed.foldlM_searchFrom (roots : List BlockId) (h : Surveyed g s left)
    (hway : s.way = []) (hlive : ∀ r ∈ roots, ∃ block, g.block? r = some block)
    (hentry : s.Met entry) :
    ∃ s' left', roots.foldlM (Forward.searchFrom g) s = .ok s' ∧ Reached g s s' left' ∧
      s'.way = [] ∧ ∀ r ∈ roots, s'.Met r := by
  induction roots generalizing s left with
  | nil => exact ⟨s, left, rfl, ⟨h, fun _ hb => hb⟩, hway, nofun⟩
  | cons root roots ih =>
    obtain ⟨hroot, hroots⟩ := List.forall_mem_cons.mp hlive
    obtain ⟨s₁, left₁, hrun₁, h₁, hway₁, hmet₁⟩ := h.searchFrom hg hway hroot (.inr hentry)
    obtain ⟨s₂, left₂, hrun₂, h₂, hway₂, hmet₂⟩ :=
      ih h₁.surveyed hway₁ hroots (h₁.met hentry)
    refine ⟨s₂, left₂, ?_, ⟨h₂.surveyed, fun _ hb => h₂.met (h₁.met hb)⟩, hway₂,
      List.forall_mem_cons.mpr ⟨h₂.met hmet₁, hmet₂⟩⟩
    rw [List.foldlM_cons, hrun₁]
    exact hrun₂

end
end Forward

/-! ### The graph of forward edges -/

theorem surveyed_start (g : Graph) : Forward.Surveyed g
    ⟨.ofSize g.blocks.size, Array.replicate g.blocks.size .white, []⟩ [] := by
  have hwhite : ∀ {slot : Nat} {c : Color},
      (Array.replicate g.blocks.size Color.white)[slot]? = some c →
      c = .white := fun {slot c} h => by
    rw [Array.getElem?_replicate] at h
    split at h
    · exact (Option.some.inj h).symm
    · cases h
  constructor
  case size_edges => exact Digraph.size_ofSize _
  case size_colors => exact Array.size_replicate
  case gray_iff => exact fun b => iff_of_false (fun h => absurd (hwhite h) nofun) List.not_mem_nil
  case left_iff => exact fun b => iff_of_false List.not_mem_nil fun h => absurd (hwhite h.2) nofun
  case live =>
    rintro b ⟨c, hc, hne⟩
    exact absurd (hwhite hc) hne
  case nodup => exact .nil
  case counted => exact fun b n h => nomatch h
  case stacked => exact .nil
  case climbs => exact .nil
  case within =>
    intro front b rest h
    exact (List.append_ne_nil_of_right_ne_nil front (List.cons_ne_nil b rest) h.symm).elim
  case followed =>
    rintro b block - k e edge - - (hblack | ⟨n, hin, -⟩)
    · exact absurd (hwhite hblack) nofun
    · cases hin
  case entered =>
    rintro b - ⟨c, hc, hne⟩
    exact absurd (hwhite hc) hne
  case forward =>
    intro a t h
    rw [Digraph.successors_ofSize] at h
    cases h

/-- **A graph of forward edges**: no cycle, an edge to every block but the entry, and all edges but
those that close loops. -/
structure Forwards (g : Graph) (edges : Digraph) : Prop where
  size_eq : edges.size = g.blocks.size
  closed : edges.Closed
  acyclic : ∀ v, ¬ edges.OnCycle v
  entered : ∀ ⦃b block⦄, g.block? b = some block → b ≠ entry →
    ∃ a, (∃ block, g.block? a = some block) ∧ b.slot ∈ edges.successors a.slot
  covers : ∀ ⦃a b⦄, g.Leads a b →
    b.slot ∈ edges.successors a.slot ∨ Relation.ReflTransGen g.Leads b a

/-- **The graph of forward edges is found.** -/
theorem WellFormed.forwardGraph_spec (hg : g.WellFormed) :
    ∃ edges, g.forwardGraph = .ok edges ∧ g.Forwards edges := by
  obtain ⟨s₁, left₁, hrun₁, h₁, hway₁, hentry₁⟩ :=
    (surveyed_start g).searchFrom hg rfl hg.entry_live (.inl rfl)
  obtain ⟨s, left, hrun, h, hway, hmet⟩ := h₁.surveyed.foldlM_searchFrom hg
    (g.blockIds.filter (· ≠ entry)) hway₁
    (fun r hr => hg.listed.mem_blockIds.mp (List.mem_filter.mp hr).1) hentry₁
  have hs := h.surveyed
  have hall : ∀ {b block}, g.block? b = some block → s.colors[b.slot]? = some .black := by
    intro b block hb
    have hin : s.Met b := by
      by_cases heq : b = entry
      · exact heq ▸ h.met hentry₁
      · exact hmet b (List.mem_filter.mpr
          ⟨hg.listed.mem_blockIds.mpr ⟨block, hb⟩, decide_eq_true heq⟩)
    obtain ⟨c, hc, hne⟩ := hin
    cases c with
    | white => exact absurd rfl hne
    | gray =>
      have hpath := (hs.gray_iff b).mp hc
      rw [Forward.path, hway] at hpath
      cases hpath
    | black => exact hc
  have hrun' : g.forwardGraph = .ok s.edges := by
    rw [forwardGraph, List.foldlM_cons, hrun₁]
    show (List.foldlM (Forward.searchFrom g) s₁ (g.blockIds.filter (· ≠ entry)) >>= _) = _
    rw [hrun]
    rfl
  refine ⟨s.edges, hrun', hs.size_edges, fun v w hw => ?_, fun v hcycle => ?_,
    fun b block hb hne => ?_, fun a b hl => ?_⟩
  · exact hs.size_edges ▸ (hs.forward (a := ⟨v⟩) (t := ⟨w⟩) hw).2.2
  · -- No edge leads to the entry, and the other blocks are stacked.
    obtain ⟨w, hout, -⟩ := Relation.TransGen.head'_iff.mp hcycle
    obtain ⟨u, -, hin⟩ := Relation.TransGen.tail'_iff.mp hcycle
    have hne : (⟨v⟩ : BlockId) ≠ entry := (hs.forward (a := ⟨u⟩) (t := ⟨v⟩) hin).2.1
    obtain ⟨block, hb⟩ := hs.live (hs.forward (a := ⟨v⟩) (t := ⟨w⟩) hout).1
    have hleft : (⟨v⟩ : BlockId) ∈ left := (hs.left_iff _).mpr ⟨hne, hall hb⟩
    exact hs.stacked.not_onCycle (List.mem_map.mpr ⟨_, hleft, rfl⟩) hcycle
  · obtain ⟨a, ha, hedge⟩ := hs.entered hne ⟨_, hall hb, nofun⟩
    exact ⟨a, hs.live ha, hedge⟩
  · obtain ⟨e, d, he⟩ := hl
    obtain ⟨block, ha⟩ := hg.listed.source_live he
    obtain ⟨k, hk⟩ := List.getElem?_of_mem ((hg.listed.mem_succs ha e).mpr ⟨_, he, rfl⟩)
    exact hs.followed ha hk he (.inl (hall ha))

end Graph
end FlowGraph
