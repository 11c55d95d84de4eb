import FlowGraph.Proofs.DominatorTree

/-! # Frontiers

The frontier of a block holds the places where its dominance ends.  It is computed from what the
block leads to and from the frontiers of its children in the dominator tree, in passes until nothing
changes; here that is shown to be the same thing (`mem_frontiers`), and with it what
`Dominance.ofGraph` says of a well-formed graph (`Describes`).
-/
namespace FlowGraph

/-- **The frontier of `x`**: the blocks that `x` does not strictly dominate, with a reachable
predecessor that it dominates. -/
def Graph.InFrontier (g : Graph) (x y : BlockId) : Prop :=
  (∃ p, g.Reachable p ∧ g.Dominates x p ∧ g.Leads p y) ∧ ¬ (g.Dominates x y ∧ x ≠ y)

namespace Dominance

open FlowGraph.Graph (InFrontier ImmediatelyDominates)

variable {g : Graph}

/-! ### The tree of dominators -/

section Tree
variable (hg : g.WellFormed)
include hg

/-- Going up the tree ends: what passes from the immediate dominator of a block to the block holds
of all blocks that the entry reaches. -/
theorem tree_induction {P : BlockId → Prop} (entry : P Graph.entry)
    (step : ∀ a b, g.ImmediatelyDominates a b → P a → P b) {b : BlockId} (hb : g.Reachable b) :
    P b := by
  induction hn : place g b using Nat.strongRecOn generalizing b with
  | ind n ih =>
    by_cases hne : b = Graph.entry
    · exact hne ▸ entry
    · obtain ⟨a, ha⟩ := exists_immediate hg hb hne
      have hlt := place_lt_of_immediate hg ha
      exact step a b ha (ih (place g a) (hn ▸ hlt) (ha.dominates.reachable hb) rfl)

/-- The dominators of a block dominate each other. -/
theorem dominates_total {a b c : BlockId} (hc : g.Reachable c) (hac : g.Dominates a c)
    (hbc : g.Dominates b c) : g.Dominates a b ∨ g.Dominates b a := by
  revert hac hbc
  refine tree_induction hg (P := fun c => g.Dominates a c → g.Dominates b c → _) ?_ ?_ hc
  · intro ha hb
    rw [ha.eq_entry, hb.eq_entry]
    exact .inl (.refl _)
  · intro d c hi ih ha hb
    by_cases hac : a = c
    · exact .inr (hac ▸ hb)
    · by_cases hbc : b = c
      · exact .inl (hbc ▸ ha)
      · exact ih (hi.closest ha hac) (hi.closest hb hbc)

/-- A block dominates another by way of one of its children. -/
theorem exists_child {x p : BlockId} (hp : g.Reachable p) (h : g.Dominates x p) (hne : x ≠ p) :
    ∃ c, g.ImmediatelyDominates x c ∧ g.Dominates c p := by
  revert h hne
  refine tree_induction hg (P := fun p => g.Dominates x p → x ≠ p →
    ∃ c, g.ImmediatelyDominates x c ∧ g.Dominates c p) ?_ ?_ hp
  · intro h hne
    exact absurd h.eq_entry hne
  · intro d p hi ih h hne
    by_cases hxd : x = d
    · exact ⟨p, hxd ▸ hi, .refl p⟩
    · obtain ⟨c, hc, hcd⟩ := ih (hi.closest h hne) hxd
      exact ⟨c, hc, hcd.trans hi.dominates⟩

/-! ### The frontier of a block and those of its children -/

/-- A frontier is what the block leads to and what the frontiers of its children hold, but for the
children. -/
theorem inFrontier_iff {x y : BlockId} (hx : g.Reachable x) :
    g.InFrontier x y ↔
      (g.Leads x y ∨ ∃ c, g.ImmediatelyDominates x c ∧ g.InFrontier c y) ∧
        ¬ g.ImmediatelyDominates x y := by
  constructor
  · rintro ⟨⟨p, hp, hxp, hl⟩, hns⟩
    refine ⟨?_, fun hi => hns ⟨hi.dominates, hi.ne⟩⟩
    by_cases hne : x = p
    · exact .inl (hne ▸ hl)
    · obtain ⟨c, hc, hcp⟩ := exists_child hg hp hxp hne
      refine .inr ⟨c, hc, ⟨p, hp, hcp, hl⟩, fun ⟨hcy, _⟩ => hns ⟨hc.dominates.trans hcy, ?_⟩⟩
      rintro rfl
      exact hc.ne (hc.dominates.antisymm hcy hc.reachable)
  · rintro ⟨hnear, hni⟩
    have hpred : ∃ p, g.Reachable p ∧ g.Dominates x p ∧ g.Leads p y := by
      rcases hnear with hl | ⟨c, hc, ⟨p, hp, hcp, hl⟩, -⟩
      · exact ⟨x, hx, .refl x, hl⟩
      · exact ⟨p, hp, hc.dominates.trans hcp, hl⟩
    refine ⟨hpred, fun ⟨hxy, hne⟩ => ?_⟩
    -- some `z` other than `x` dominates `y` immediately, and lies below `x`
    obtain ⟨p, hp, hxp, hl⟩ := hpred
    have hy := hp.step hl
    have hye : y ≠ Graph.entry := by
      rintro rfl
      exact hne hxy.eq_entry
    obtain ⟨z, hz⟩ := exists_immediate hg hy hye
    have hxz := hz.closest hxy hne
    have hzx : ¬ g.Dominates z x := fun h =>
      hni (hxz.antisymm h (hz.dominates.reachable hy) ▸ hz)
    rcases hnear with hl | ⟨c, hc, ⟨q, hq, hcq, hlq⟩, hns⟩
    · exact hzx (hz.dominates.pred hz.ne hl)
    · rcases dominates_total hg hq hcq (hz.dominates.pred hz.ne hlq) with hcz | hzc
      · refine hns ⟨hcz.trans hz.dominates, ?_⟩
        rintro rfl
        exact hz.ne (hz.dominates.antisymm hcz hy)
      · by_cases hzc' : z = c
        · subst hzc'
          exact hns ⟨hz.dominates, hz.ne⟩
        · exact hzx (hc.closest hzc hzc')

end Tree

/-! ### The table of frontiers -/

/-- The frontier recorded for a block. -/
def recorded (known : Array (List BlockId)) (x : BlockId) : List BlockId := known[x.slot]?.getD []

theorem recorded_set {known : Array (List BlockId)} {b x : BlockId} {ys : List BlockId}
    (hb : b.slot < known.size) :
    recorded (known.setIfInBounds b.slot ys) x = if x = b then ys else recorded known x := by
  unfold recorded
  rw [Array.getElem?_setIfInBounds]
  by_cases h : x = b
  · subst h
    rw [if_pos rfl, if_pos hb, if_pos rfl]
    rfl
  · rw [if_neg fun hs => h (BlockId.ext hs.symm), if_neg h]

theorem mem_childrenIn {idom : Array (Option BlockId)} {x c : BlockId} :
    c ∈ childrenIn idom x ↔ idom[c.slot]?.join = some x := by
  unfold childrenIn
  simp only [List.mem_filterMap, Prod.exists, List.mem_zipIdx_iff_getElem?, Array.getElem?_toList,
    Option.ite_none_right_eq_some, Option.some.injEq, Option.join_eq_some_iff]
  constructor
  · rintro ⟨_, _, h, rfl, rfl⟩
    exact h
  · intro h
    exact ⟨_, _, h, rfl, rfl⟩

/-- Filling a table block by block. -/
theorem recorded_foldl {f : BlockId → List BlockId} {bs : List BlockId}
    {known : Array (List BlockId)} (hbs : ∀ b ∈ bs, b.slot < known.size) (x : BlockId) :
    recorded (bs.foldl (fun known b => known.setIfInBounds b.slot (f b)) known) x =
      if x ∈ bs then f x else recorded known x := by
  induction bs generalizing known with
  | nil => rfl
  | cons b bs ih =>
    obtain ⟨hb, hbs⟩ := List.forall_mem_cons.mp hbs
    rw [List.foldl_cons, ih (by simpa using hbs), recorded_set hb]
    by_cases hx : x = b
    · subst hx
      simp
    · simp [hx]

theorem size_foldl {f : BlockId → List BlockId} (bs : List BlockId) (known : Array (List BlockId)) :
    (bs.foldl (fun known b => known.setIfInBounds b.slot (f b)) known).size = known.size :=
  List.foldlRecOn (motive := fun t : Array (List BlockId) => t.size = known.size) _ _ rfl
    fun t ht b _ => by rw [Array.size_setIfInBounds, ht]

theorem filter_mem_filter (ids : List BlockId) (p : BlockId → Bool) :
    ids.filter (· ∈ ids.filter p) = ids.filter p :=
  List.filter_congr fun y hy => by simp [hy]

section Table
variable (hg : g.WellFormed) {idom : Array (Option BlockId)}
  (hidom : ∀ a b, idom[b.slot]?.join = some a ↔ g.ImmediatelyDominates a b)
include hg

theorem slot_lt_of_mem_postorder {b : BlockId} (hb : b ∈ g.postorder) : b.slot < g.blocks.size := by
  obtain ⟨block, hlive⟩ := hg.live_of_reachable (hg.mem_postorder.mp hb)
  exact Graph.slot_lt_of_block? hlive

include hidom

/-- In postorder the children of a block come before it. -/
theorem child_mem_front {done rest : List BlockId} {b c : BlockId}
    (h : g.postorder = done ++ b :: rest) (hc : c ∈ childrenIn idom b) : c ∈ done := by
  have hi := (hidom b c).mp (mem_childrenIn.mp hc)
  have hmem : c ∈ g.postorder := (hg.mem_postorder).mpr hi.reachable
  rw [h] at hmem
  refine (List.mem_append.mp hmem).resolve_right fun hlate => ?_
  rcases List.mem_cons.mp hlate with hcb | hlate
  · exact hi.ne hcb.symm
  · have horder : g.postorder.reverse = rest.reverse ++ b :: done.reverse := by
      rw [h]
      simp
    have := place_lt_of_mem_front hg horder (List.mem_reverse.mpr hlate)
    have := place_lt_of_immediate hg hi
    omega

end Table

/-- **Frontiers in the making**, of which those of the blocks `done` are whole: a frontier holds no
block that does not belong there, and at least what its own block leads to. -/
structure Widening (g : Graph) (done : List BlockId) (known : Array (List BlockId)) : Prop where
  size_eq : known.size = g.blocks.size
  listed : ∀ x, g.blockIds.filter (· ∈ recorded known x) = recorded known x
  sound : ∀ {x y}, y ∈ recorded known x → g.Reachable x ∧ g.InFrontier x y
  own : ∀ {x y}, g.Reachable x → g.Leads x y → ¬ g.ImmediatelyDominates x y → y ∈ recorded known x
  whole : ∀ {x y}, x ∈ done → g.InFrontier x y → y ∈ recorded known x

namespace Widening

variable (hg : g.WellFormed) {idom : Array (Option BlockId)}
  (hidom : ∀ a b, idom[b.slot]?.join = some a ↔ g.ImmediatelyDominates a b)
include hg hidom

/-- What the blocks make themselves is where it begins. -/
theorem start : Widening g [] (ownFrontiers g g.postorder idom) := by
  have hrec : ∀ x, recorded (ownFrontiers g g.postorder idom) x =
      if x ∈ g.postorder then ownFrontier g g.blockIds idom x else [] := by
    intro x
    rw [ownFrontiers, recorded_foldl fun b hb => ?_]
    · congr 1
      rw [recorded, Array.getElem?_replicate]
      split <;> rfl
    · rw [Array.size_replicate]
      exact slot_lt_of_mem_postorder hg hb
  have hmem : ∀ x y, y ∈ recorded (ownFrontiers g g.postorder idom) x ↔
      g.Reachable x ∧ g.Leads x y ∧ ¬ g.ImmediatelyDominates x y := by
    intro x y
    rw [hrec, ← hg.mem_postorder (b := x)]
    split
    · rename_i hx
      rw [ownFrontier, List.mem_filter, Bool.and_eq_true, decide_eq_true_eq, decide_eq_true_eq,
        hg.listed.mem_targets, Ne, hidom]
      refine ⟨fun h => ⟨hx, h.2⟩, fun h => ⟨?_, h.2⟩⟩
      exact hg.listed.mem_blockIds.mpr (hg.listed.live_of_leads h.2.1)
    · rename_i hx
      exact iff_of_false List.not_mem_nil fun h => hx h.1
  refine ⟨?_, fun x => ?_, fun {x y} h => ?_, fun hx hl hi => (hmem _ _).mpr ⟨hx, hl, hi⟩, nofun⟩
  · rw [ownFrontiers, size_foldl, Array.size_replicate]
  · rw [hrec]
    split
    · exact filter_mem_filter ..
    · simp
  · obtain ⟨hx, hl, hi⟩ := (hmem x y).mp h
    exact ⟨hx, (inFrontier_iff hg hx).mpr ⟨.inl hl, hi⟩⟩

variable {done rest : List BlockId} {known : Array (List BlockId)}

/-- With what whole frontiers of its children hand up, a frontier is whole. -/
theorem mem_handedUp (h : Widening g done known) {b y : BlockId} (hb : g.Reachable b)
    (hch : ∀ c ∈ childrenIn idom b, c ∈ done) :
    y ∈ handedUp g.blockIds idom known b ↔ g.InFrontier b y := by
  have hbelow : (∃ c ∈ childrenIn idom b, y ∈ recorded known c) ↔
      ∃ c, g.ImmediatelyDominates b c ∧ g.InFrontier c y := by
    refine exists_congr fun c => ?_
    rw [mem_childrenIn, hidom]
    refine and_congr_right fun hi => ⟨fun hy => (h.sound hy).2, h.whole (hch c ?_)⟩
    exact mem_childrenIn.mpr ((hidom b c).mpr hi)
  have hlive : g.InFrontier b y → y ∈ g.blockIds := by
    rintro ⟨⟨p, -, -, hl⟩, -⟩
    exact hg.listed.mem_blockIds.mpr (hg.listed.live_of_leads hl)
  have hiff : y ∈ handedUp g.blockIds idom known b ↔ y ∈ g.blockIds ∧
      (y ∈ recorded known b ∨
        (∃ c ∈ childrenIn idom b, y ∈ recorded known c) ∧ ¬ g.ImmediatelyDominates b y) := by
    simp only [handedUp, recorded, List.mem_filter, Bool.or_eq_true, Bool.and_eq_true,
      decide_eq_true_eq, List.mem_flatMap, ne_eq, hidom]
  rw [hiff, hbelow]
  constructor
  · rintro ⟨-, hy | ⟨hc, hi⟩⟩
    · exact (h.sound hy).2
    · exact (inFrontier_iff hg hb).mpr ⟨.inr hc, hi⟩
  · intro hy
    refine ⟨hlive hy, ?_⟩
    obtain ⟨hl | hc, hi⟩ := (inFrontier_iff hg hb).mp hy
    · exact .inl (h.own hb hl hi)
    · exact .inr ⟨hc, hi⟩

/-- One step of a pass makes one more frontier whole. -/
theorem next (h : Widening g done known) {b : BlockId} (hpost : g.postorder = done ++ b :: rest)
    (changed : Bool) :
    Widening g (done ++ [b]) (widenAt g.blockIds idom (changed, known) b).2 := by
  have hmem : b ∈ g.postorder := hpost ▸ List.mem_append_right _ (List.mem_cons_self ..)
  have hb := hg.mem_postorder.mp hmem
  have hslot : b.slot < known.size := h.size_eq ▸ slot_lt_of_mem_postorder hg hmem
  have hhanded := fun y => h.mem_handedUp hg hidom (y := y) hb fun c hc =>
    child_mem_front hg hidom hpost hc
  have hsize : (widenAt g.blockIds idom (changed, known) b).2.size = known.size := by
    rw [widenAt]
    split
    · rfl
    · exact Array.size_setIfInBounds
  -- Only what is recorded of `b` changes, and it is the same whether or not the table is written
  -- to.
  have hrec : ∀ x, recorded (widenAt g.blockIds idom (changed, known) b).2 x =
      if x = b then handedUp g.blockIds idom known b else recorded known x := by
    intro x
    rw [widenAt]
    split
    · rename_i heq
      split
      · rename_i hx
        exact hx ▸ heq
      · rfl
    · exact recorded_set hslot
  refine ⟨hsize.trans h.size_eq, fun x => ?_, fun {x y} hy => ?_, fun {x y} hx hl hi => ?_,
    fun {x y} hx hy => ?_⟩
  · rw [hrec]
    split
    · exact filter_mem_filter ..
    · exact h.listed x
  · rw [hrec] at hy
    split at hy
    · rename_i hxb
      exact hxb ▸ ⟨hb, (hhanded y).mp hy⟩
    · exact h.sound hy
  · rw [hrec]
    split
    · rename_i hxb
      subst hxb
      exact (hhanded y).mpr ((inFrontier_iff hg hb).mpr ⟨.inl hl, hi⟩)
    · exact h.own hx hl hi
  · rw [hrec]
    split
    · rename_i hxb
      exact (hhanded y).mpr (hxb ▸ hy)
    · rename_i hxb
      refine h.whole ((List.mem_append.mp hx).resolve_right fun hx => ?_) hy
      exact hxb (List.mem_singleton.mp hx)

/-- **A pass makes all frontiers whole.** -/
theorem foldl_widenAt (h : Widening g done known) (hpost : g.postorder = done ++ rest)
    (changed : Bool) :
    Widening g g.postorder (rest.foldl (widenAt g.blockIds idom) (changed, known)).2 := by
  induction rest generalizing done known changed with
  | nil =>
    rw [List.append_nil] at hpost
    exact hpost ▸ h
  | cons b rest ih =>
    have hpost' : g.postorder = (done ++ [b]) ++ rest := by
      rw [hpost, List.append_assoc, List.singleton_append]
    exact ih (h.next hg hidom hpost changed) hpost' _

/-- Whole frontiers stay as they are. -/
theorem widen_eq (h : Widening g g.postorder known) :
    widen g.blockIds g.postorder idom known = (false, known) := by
  have hat : ∀ b ∈ g.postorder, widenAt g.blockIds idom (false, known) b = (false, known) := by
    intro b hmem
    have hb := hg.mem_postorder.mp hmem
    have hch : ∀ c ∈ childrenIn idom b, c ∈ g.postorder := fun c hc =>
      hg.mem_postorder.mpr ((hidom b c).mp (mem_childrenIn.mp hc)).reachable
    have hhanded : handedUp g.blockIds idom known b = recorded known b := by
      rw [← h.listed b, handedUp, ← filter_mem_filter, ← handedUp]
      refine List.filter_congr fun y _ => decide_eq_decide.mpr ?_
      rw [h.mem_handedUp hg hidom hb hch]
      exact ⟨h.whole hmem, fun hy => (h.sound hy).2⟩
    rw [widenAt, hhanded]
    exact if_pos rfl
  exact List.foldlRecOn (motive := fun s => s = (false, known)) _ _ rfl
    fun s hs b hb => hs ▸ hat b hb

/-- **The passes come to rest** with the second at the latest: the first makes all frontiers whole,
since in postorder children come before their dominator. -/
theorem rests_widen : ∃ n known, n ≤ 2 ∧
    Rests (m := Id) (pure <| widen g.blockIds g.postorder idom ·) n
      (ownFrontiers g g.postorder idom) known ∧ Widening g g.postorder known := by
  have hwhole := (start hg hidom).foldl_widenAt hg hidom (List.nil_append _).symm false
  cases hrun : widen g.blockIds g.postorder idom (ownFrontiers g g.postorder idom) with
  | mk changed known =>
    have hknown : Widening g g.postorder known := by
      rw [widen] at hrun
      rwa [hrun] at hwhole
    cases changed with
    | false => exact ⟨1, known, by omega, .stop (congrArg pure hrun), hknown⟩
    | true =>
      have hstay := hknown.widen_eq hg hidom
      exact ⟨2, known, by omega, .go (congrArg pure hrun) (.stop (congrArg pure hstay)), hknown⟩

end Widening

/-- The bound on the passes leaves room for two. -/
theorem two_le_bound (hg : g.WellFormed) : 2 ≤ g.blocks.size * g.blocks.size + 1 := by
  obtain ⟨block, hlive⟩ := hg.entry_live
  have hsize : 0 < g.blocks.size := Nat.zero_lt_of_lt (Graph.slot_lt_of_block? hlive)
  exact Nat.succ_le_succ (Nat.mul_pos hsize hsize)

/-- **The frontiers are found.** -/
theorem mem_frontiers (hg : g.WellFormed) {idom : Array (Option BlockId)}
    (hidom : ∀ a b, idom[b.slot]?.join = some a ↔ g.ImmediatelyDominates a b) {x y : BlockId} :
    y ∈ recorded (frontiers g g.postorder idom) x ↔ g.Reachable x ∧ g.InFrontier x y := by
  obtain ⟨n, known, hn, hrest, hknown⟩ := Widening.rests_widen hg hidom
  have heq : frontiers g g.postorder idom = known :=
    hrest.untilStable (Nat.le_trans hn (two_le_bound hg))
  rw [heq]
  exact ⟨hknown.sound, fun h => hknown.whole (hg.mem_postorder.mpr h.1) h.2⟩

/-! ### What the analysis says of a graph -/

/-- **The dominance of a graph**: the immediate dominators of the blocks that the entry reaches, and
their frontiers. -/
structure Describes (d : Dominance) (g : Graph) : Prop where
  postorder_eq : d.postorder = g.postorder
  size_eq : d.idom.size = g.blocks.size
  parent?_iff : ∀ {a b}, d.parent? b = some a ↔ g.ImmediatelyDominates a b
  mem_frontierOf : ∀ {x y}, y ∈ d.frontierOf x ↔ g.Reachable x ∧ g.InFrontier x y

/-- The blocks of a frontier are in use. -/
theorem Describes.frontierOf_live {d : Dominance} (hd : d.Describes g) (hg : g.WellFormed)
    (x y : BlockId) (hy : y ∈ d.frontierOf x) : ∃ block, g.block? y = some block := by
  obtain ⟨-, ⟨p, -, -, hl⟩, -⟩ := hd.mem_frontierOf.mp hy
  exact hg.listed.live_of_leads hl

/-- **The dominance of every well-formed graph is found.** -/
theorem ofGraph_spec (hg : g.WellFormed) : ∃ d, ofGraph g = .ok d ∧ d.Describes g := by
  obtain ⟨idom, hok, hsize, hidom⟩ := immediate_spec hg
  have hlive := Graph.demandLive_eq_ok fun b hb => hg.listed.mem_blockIds.mp hb
  refine ⟨⟨g.postorder, idom, frontiers g g.postorder idom⟩, ?_, rfl, hsize,
    fun {a b} => hidom a b, mem_frontiers hg hidom⟩
  rw [ofGraph, Graph.bind_of_ok hg.postorderFromEntry_eq, Graph.bind_of_ok hok,
    Graph.bind_of_ok hlive]
  rfl

end Dominance
end FlowGraph
