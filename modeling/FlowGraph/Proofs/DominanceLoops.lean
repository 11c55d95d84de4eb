import FlowGraph.Proofs.Dominators

/-! # The loops behind dominance end

Dominance is computed by loops over a tree that changes under way.  The outer ones make passes until
nothing changes.  The inner ones put two fingers on blocks of the tree and move the later one up
until they meet.  Nothing in a loop itself says that a block which it looks up is there, nor that it
ends.

Here the loops are followed step by step: with which trees a pass begins (`Begins`), with which tree
it comes to a block (`Comes`), for which blocks a common ancestor is asked then (`Asks`), and where
the fingers come (`Fingers`).  At every step the tree is `Rooted`, since it is a tree in the making
(`Partial`): whoever has a dominator in it has one that is earlier in reverse postorder.  So every
block that is looked up is there, the fingers meet, and the passes come to rest, long before the
bounds that the functions carry.
-/
namespace FlowGraph
namespace Dominance

variable {g : Graph} {t : Tree}

/-! ### The course of the improvement -/

/-- The places of the blocks. -/
abbrev ranksOf (g : Graph) : Array (Option Nat) := ranks g.blocks.size g.postorder.reverse

/-- The blocks behind the entry, in the order in which a pass comes to them. -/
abbrev behindEntry (g : Graph) : List BlockId := g.postorder.reverse.filter (· ≠ Graph.entry)

/-- The tree of the entry alone. -/
abbrev firstTree (g : Graph) : Tree :=
  (Array.replicate g.blocks.size none).setIfInBounds Graph.entry.slot (some Graph.entry)

/-- **A pass begins with the tree**: it is the first one, or that of a pass that has changed it. -/
inductive Begins (g : Graph) : Tree → Prop
  | first : Begins g (firstTree g)
  | again {t t' : Tree} (before : Begins g t)
      (pass : improve g (ranksOf g) (behindEntry g) t = .ok (true, t')) : Begins g t'

/-- **A pass comes to a block**, with what its steps before have made of the tree. -/
def Comes (g : Graph) (b : BlockId) (t : Tree) : Prop :=
  ∃ t₀ done rest changed, Begins g t₀ ∧ behindEntry g = done ++ b :: rest ∧
    done.foldlM (improveAt g (ranksOf g)) (false, t₀) = .ok (changed, t)

/-- **A common ancestor is asked for**, of a predecessor of the block and of what was found for the
predecessors before it. -/
def Asks (g : Graph) (b : BlockId) (t : Tree) (p other : BlockId) : Prop :=
  ∃ first front rest,
    (g.sources b).filter (fun q => (t.get? q).isSome) = first :: (front ++ p :: rest) ∧
    front.foldlM (fun other q => commonAncestor (ranksOf g) t (2 * t.size + 1) q other) first =
      some other

/-- **Where two fingers come**: of two blocks the one that is later in reverse postorder gives way
to its dominator. -/
inductive Fingers (rank : Array (Option Nat)) (t : Tree) (p q : BlockId) : BlockId → BlockId → Prop
  | put : Fingers rank t p q p q
  | left {a b a' : BlockId} {i j : Nat} (before : Fingers rank t p q a b)
      (ha : rank[a.slot]?.join = some i) (hb : rank[b.slot]?.join = some j) (later : j < i)
      (up : t.get? a = some a') : Fingers rank t p q a' b
  | right {a b b' : BlockId} {i j : Nat} (before : Fingers rank t p q a b)
      (ha : rank[a.slot]?.join = some i) (hb : rank[b.slot]?.join = some j) (later : i < j)
      (up : t.get? b = some b') : Fingers rank t p q a b'

/-! ### What holds at every step -/

/-- **A rooted tree**: the entry is its own dominator, and every other block that has been given one
is reachable, later in reverse postorder than the one it has been given, and that one has been given
a dominator as well. -/
structure Rooted (g : Graph) (t : Tree) : Prop where
  entry_self : t.get? Graph.entry = some Graph.entry
  reachable : ∀ {b d}, Up t b d → g.Reachable b
  known : ∀ {b d}, Up t b d → Known t d
  earlier : ∀ {b d}, Up t b d →
    ∃ i j, (ranksOf g)[d.slot]?.join = some i ∧ (ranksOf g)[b.slot]?.join = some j ∧ i < j

/-- **Two fingers meet**: wherever they come, they stand on blocks of the tree and of the table of
places, and with every bound that leaves them room they end on the same block above both. -/
structure Meet (g : Graph) (t : Tree) (p q : BlockId) : Prop where
  lookups : ∀ {a b}, Fingers (ranksOf g) t p q a b → Known t a ∧ Known t b ∧
    (∃ i, (ranksOf g)[a.slot]?.join = some i) ∧ ∃ j, (ranksOf g)[b.slot]?.join = some j
  ancestor : ∃ c, (∀ fuel, 2 * t.size < fuel → commonAncestor (ranksOf g) t fuel p q = some c) ∧
    Above t p c ∧ Above t q c

/-- A finger that has found its block keeps it when there is more room. -/
theorem commonAncestor_mono {rank : Array (Option Nat)} {fuel fuel' : Nat} {a b c : BlockId}
    (h : commonAncestor rank t fuel a b = some c) (hle : fuel ≤ fuel') :
    commonAncestor rank t fuel' a b = some c := by
  induction fuel generalizing fuel' a b with
  | zero => cases h
  | succ fuel ih =>
    obtain ⟨fuel', rfl⟩ := Nat.exists_eq_add_of_le' (Nat.le_of_add_left_le hle)
    have hle' : fuel ≤ fuel' := Nat.le_of_succ_le_succ hle
    rw [commonAncestor] at h ⊢
    split at h
    · rename_i hab
      rw [if_pos hab, h]
    · rename_i hab
      simp only [Option.bind_eq_bind, Option.bind_eq_some_iff] at h
      obtain ⟨i, hi, j, hj, h⟩ := h
      simp only [if_neg hab, hi, hj, Option.bind_eq_bind, Option.bind_some]
      split at h
      · rename_i hlt
        obtain ⟨a', ha', h⟩ := Option.bind_eq_some_iff.mp h
        rw [if_pos hlt, ha', Option.bind_some, ih h hle']
      · rename_i hlt
        obtain ⟨b', hb', h⟩ := Option.bind_eq_some_iff.mp h
        rw [if_neg hlt, hb', Option.bind_some, ih h hle']

section
variable (hg : g.WellFormed)
include hg

theorem Partial.rooted (h : Partial g t) : Rooted g t where
  entry_self := h.entry_self
  reachable hup := h.reachable ⟨_, hup.2⟩
  known := h.known
  earlier {b d} hup := ⟨place g d, place g b, ranks_reachable hg (h.reachable (h.known hup)),
    ranks_reachable hg (h.reachable ⟨d, hup.2⟩), h.earlier hup⟩

/-- The fingers stay on blocks of the tree. -/
theorem Partial.known_of_fingers (h : Partial g t) {p q : BlockId} (hp : Known t p) (hq : Known t q)
    {a b : BlockId} (hfingers : Fingers (ranksOf g) t p q a b) : Known t a ∧ Known t b := by
  -- A finger that is later than the other one does not stand on the entry.
  have known_up : ∀ {x x' : BlockId} {i j : Nat}, (ranksOf g)[x.slot]?.join = some i → j < i →
      t.get? x = some x' → Known t x' := by
    intro x x' i j hx hlt hup
    refine h.known ⟨?_, hup⟩
    rintro rfl
    rw [ranks_reachable hg .entry, place_entry hg] at hx
    cases hx
    omega
  induction hfingers with
  | put => exact ⟨hp, hq⟩
  | left _ ha _ later up ih => exact ⟨known_up ha later up, ih.2⟩
  | right _ _ hb later up ih => exact ⟨ih.1, known_up hb later up⟩

theorem Partial.meet (h : Partial g t) {p q : BlockId} (hp : Known t p) (hq : Known t q) :
    Meet g t p q := by
  refine ⟨fun hfingers => ?_, ?_⟩
  · obtain ⟨ha, hb⟩ := h.known_of_fingers hg hp hq hfingers
    exact ⟨ha, hb, ⟨_, ranks_reachable hg (h.reachable ha)⟩, _, ranks_reachable hg (h.reachable hb)⟩
  · obtain ⟨c, hc, hpc, hqc, -⟩ := h.commonAncestor_spec hg hp hq (Nat.lt_succ_self _)
    refine ⟨c, fun fuel hfuel => commonAncestor_mono hc ?_, hpc, hqc⟩
    have := h.place_bound hg hp
    have := h.place_bound hg hq
    omega

/-! ### The steps -/

theorem Begins.passed (h : Begins g t) : Partial g t ∧ ∃ k, Passed g k t := by
  induction h with
  | first => exact ⟨.start hg, 0, fun _ _ _ hlt => absurd hlt (Nat.not_lt_zero _)⟩
  | again _ pass ih =>
    obtain ⟨hp, k, hpassed⟩ := ih
    obtain ⟨s, hs, hmid⟩ := improve_spec hg hp hpassed
    cases pass.symm.trans hs
    exact ⟨hmid.sound, k + 1, hmid.passed hg⟩

/-- A pass that comes to a block is in the midst of the improvement. -/
theorem Comes.midway {b : BlockId} (h : Comes g b t) :
    b ≠ Graph.entry ∧ ∃ k t₀ done rest changed,
      g.postorder.reverse = done ++ b :: rest ∧ Midway g k t₀ done (changed, t) := by
  obtain ⟨t₀, done, rest, changed, hbegins, hsplit, hrun⟩ := h
  have hne : b ≠ Graph.entry := by
    have hmem : b ∈ behindEntry g := hsplit ▸ List.mem_append_right _ (List.mem_cons_self ..)
    exact of_decide_eq_true (List.mem_filter.mp hmem).2
  have horder : g.postorder.reverse = [Graph.entry] ++ (done ++ b :: rest) := by
    rw [← hsplit]
    exact order_eq_entry_cons hg
  obtain ⟨hp, k, hpassed⟩ := hbegins.passed hg
  obtain ⟨s, hs, hmid⟩ := foldlM_improve hg hpassed horder (List.mem_singleton.mpr rfl) (.start hp)
  cases hrun.symm.trans hs
  exact ⟨hne, k, t₀, _, rest, changed, by rw [horder, List.append_assoc], hmid⟩

/-- Ancestors are asked for of blocks of the tree. -/
theorem Asks.known (h : Partial g t) {b p other : BlockId} (hasks : Asks g b t p other) :
    Known t p ∧ Known t other := by
  obtain ⟨first, front, rest, hsources, hfold⟩ := hasks
  have hknown : ∀ q ∈ first :: (front ++ p :: rest), Known t q := fun q hq => by
    rw [← hsources] at hq
    exact Option.isSome_iff_exists.mp (List.mem_filter.mp hq).2
  obtain ⟨hfirst, hothers⟩ := List.forall_mem_cons.mp hknown
  obtain ⟨d, hd, hfd, -⟩ := h.foldlM_commonAncestor hg hfirst fun q hq =>
    hothers q (List.mem_append_left _ hq)
  obtain rfl : d = other := Option.some.inj (hd.symm.trans hfold)
  exact ⟨hothers p (List.mem_append_right _ (List.mem_cons_self ..)), h.known_above hfirst hfd⟩

end

/-! ### The loops -/

/-- **The loops behind dominance end and find what they look up.**  Whenever a pass comes to a block
of a well-formed graph, the tree is rooted, the block has a candidate, and for whichever blocks a
common ancestor is asked, the fingers meet.  So every pass gets through.  The passes come to rest,
those for the tree after one more than there are blocks and those for the frontiers after two at the
latest, and the computation returns what they come to. -/
theorem ofGraph_comes_to_rest (g : Graph) (hg : g.WellFormed) :
    (∀ b t, Comes g b t → Rooted g t ∧ (∃ d, candidate g (ranksOf g) t b = .ok d) ∧
      ∀ p other, Asks g b t p other → Meet g t p other) ∧
    (∀ t, Begins g t → ∃ s, improve g (ranksOf g) (behindEntry g) t = .ok s) ∧
    ∃ n t idom k known,
      n ≤ g.blocks.size + 1 ∧
      Rests (improve g (ranksOf g) (behindEntry g)) n (firstTree g) t ∧
      idom = t.setIfInBounds Graph.entry.slot none ∧
      k ≤ 2 ∧
      Rests (m := Id) (pure <| widen g.blockIds g.postorder idom ·) k
        (ownFrontiers g g.postorder idom) known ∧
      ofGraph g = .ok ⟨g.postorder, idom, known⟩ := by
  refine ⟨?_, ?_, ?_⟩
  · intro b t hcomes
    obtain ⟨hne, k, t₀, done, rest, changed, horder, hmid⟩ := hcomes.midway hg
    obtain ⟨d, hd, -⟩ := hmid.sound.candidate_spec hg (hmid.exists_known_pred hg horder hne)
    refine ⟨hmid.sound.rooted hg, ⟨d, hd⟩, fun p other hasks => ?_⟩
    obtain ⟨hp, hother⟩ := hasks.known hg hmid.sound
    exact hmid.sound.meet hg hp hother
  · intro t hbegins
    obtain ⟨hp, k, hpassed⟩ := hbegins.passed hg
    obtain ⟨s, hs, -⟩ := improve_spec hg hp hpassed
    exact ⟨s, hs⟩
  · obtain ⟨n, t, hn, hrest, hsettled⟩ := exists_rest hg
    obtain ⟨k, known, hk, hrest', -⟩ := Widening.rests_widen hg hsettled.join_eq_some_iff
    refine ⟨n, t, _, k, known, hn, hrest, rfl, hk, hrest', ?_⟩
    have htree : untilStable (improve g (ranksOf g) (behindEntry g))
        (g.blocks.size * g.blocks.size + g.blocks.size + 1) (firstTree g) = .ok t :=
      hrest.untilStable (by omega)
    have hfrontiers : frontiers g g.postorder (t.setIfInBounds Graph.entry.slot none) = known :=
      hrest'.untilStable (Nat.le_trans hk (two_le_bound hg))
    have hidom : immediate g g.postorder = .ok (t.setIfInBounds Graph.entry.slot none) :=
      Graph.bind_of_ok htree _
    have hlive := Graph.demandLive_eq_ok fun b hb => hg.listed.mem_blockIds.mp hb
    rw [ofGraph, Graph.bind_of_ok hg.postorderFromEntry_eq, Graph.bind_of_ok hidom,
      Graph.bind_of_ok hlive, hfrontiers]
    rfl

/-- The tree that the first pass over the tangle makes. -/
def tangleTree : Tree :=
  #[some ⟨0⟩, some ⟨6⟩, some ⟨0⟩, some ⟨2⟩, some ⟨2⟩, some ⟨3⟩, some ⟨5⟩, none]

/-- In the second pass the block that leads to itself is asked for its own ancestors, and there one
finger finds the other. -/
theorem ofGraph_comes_to_rest_tangle : Routine.tangle.graph.WellFormed ∧
    Comes Routine.tangle.graph ⟨5⟩ tangleTree ∧ Asks Routine.tangle.graph ⟨5⟩ tangleTree ⟨5⟩ ⟨3⟩ ∧
    Rooted Routine.tangle.graph tangleTree ∧ Meet Routine.tangle.graph tangleTree ⟨5⟩ ⟨3⟩ ∧
    ∃ d, ofGraph Routine.tangle.graph = .ok d := by
  have hg : Routine.tangle.graph.WellFormed := by decide
  have hcomes : Comes Routine.tangle.graph ⟨5⟩ tangleTree :=
    ⟨tangleTree, [⟨2⟩, ⟨3⟩], [⟨6⟩, ⟨1⟩, ⟨4⟩], false, .again .first rfl, rfl, rfl⟩
  have hasks : Asks Routine.tangle.graph ⟨5⟩ tangleTree ⟨5⟩ ⟨3⟩ := ⟨⟨3⟩, [], [], rfl, rfl⟩
  obtain ⟨hsteps, -, _, _, _, _, _, -, -, -, -, -, hok⟩ := ofGraph_comes_to_rest _ hg
  obtain ⟨hrooted, -, hmeet⟩ := hsteps ⟨5⟩ tangleTree hcomes
  exact ⟨hg, hcomes, hasks, hrooted, hmeet ⟨5⟩ ⟨3⟩ hasks, _, hok⟩

end Dominance
end FlowGraph
