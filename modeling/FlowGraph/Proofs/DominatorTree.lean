import FlowGraph.Proofs.Routes
import FlowGraph.Dominance
import Mathlib.Data.List.Perm.Subperm

/-! # The dominator tree is right

Dominators are found by improvement, so in the midst of it the tree holds wrong ones.  Two things
are true of it all the time (`Partial`): a block that has been given a dominator is later in reverse
postorder than that dominator, and every true dominator of the block also dominates the one that it
has been given.  So no true dominator is ever lost, and what the tree says at the end is compared
with the routes of the graph.

How long that takes is counted in edges that lead back in reverse postorder.  After `k` passes the
ancestors of a block lie on every route to it with fewer than `k` such edges (`Passed`).  A route
that passes no block twice has fewer of them than there are blocks, so by then the tree is finished,
and one more pass changes nothing (`rests_improve`).
-/
namespace FlowGraph
namespace Dominance

open FlowGraph.Graph (Leads Route Reachable)

variable {g : Graph}

/-! ### Reverse postorder -/

/-- The place of a block in reverse postorder. -/
def place (g : Graph) (b : BlockId) : Nat := g.postorder.reverse.idxOf b

theorem idxOf_append_cons {α : Type} [DecidableEq α] {front rest : List α} {x : α}
    (h : x ∉ front) : (front ++ x :: rest).idxOf x = front.length := by
  rw [List.idxOf_append_of_notMem h, List.idxOf_cons_self, Nat.add_zero]

theorem idxOf_lt_of_mem_front {α : Type} [DecidableEq α] {front rest : List α} {y : α}
    (h : y ∈ front) : (front ++ rest).idxOf y < front.length := by
  rw [List.idxOf_append_of_mem h]
  exact List.idxOf_lt_length_of_mem h

theorem mem_front_of_idxOf_lt {α : Type} [DecidableEq α] {front rest : List α} {y : α}
    (h : (front ++ rest).idxOf y < front.length) : y ∈ front := by
  refine Classical.byContradiction fun hn => ?_
  rw [List.idxOf_append_of_notMem hn] at h
  omega

theorem reverse_postorder (g : Graph) :
    g.postorder.reverse = (DepthFirst.search g.targets g.blocks.size [Graph.entry]).left := by
  rw [Graph.postorder, DepthFirst.postorder, List.reverse_reverse]

section Order
variable (hg : g.WellFormed)
include hg

theorem order_stretch : DepthFirst.Stretch g.targets [Graph.entry] ⟨[], []⟩
    (DepthFirst.search g.targets g.blocks.size [Graph.entry]) g.postorder.reverse := by
  rw [reverse_postorder]
  exact DepthFirst.search_stretch hg.handles_closed (Nat.le_of_eq Graph.length_handles)
    hg.entry_mem_handles

theorem mem_order {b : BlockId} : b ∈ g.postorder.reverse ↔ g.Reachable b := by
  rw [List.mem_reverse, hg.mem_postorder]

theorem nodup_order : g.postorder.reverse.Nodup := (order_stretch hg).nodup

theorem length_order_le : g.postorder.reverse.length ≤ g.blocks.size := by
  rw [← Graph.length_handles]
  refine (List.subperm_of_subset (nodup_order hg) fun b hb => ?_).length_le
  obtain ⟨block, hlive⟩ := hg.live_of_reachable ((mem_order hg).mp hb)
  exact Graph.mem_handles.mpr (Graph.slot_lt_of_block? hlive)

theorem place_lt {b : BlockId} (hb : g.Reachable b) : place g b < g.postorder.reverse.length :=
  List.idxOf_lt_length_of_mem ((mem_order hg).mpr hb)

/-- The entry comes first. -/
theorem order_eq_cons : ∃ rest, g.postorder.reverse = Graph.entry :: rest := by
  cases h : g.postorder.reverse with
  | nil =>
    have := (mem_order hg).mpr (Reachable.entry (g := g))
    rw [h] at this
    cases this
  | cons b rest =>
    have hsplit : g.postorder.reverse = [] ++ b :: rest := h
    rcases (order_stretch hg).parent hsplit with hb | ⟨p, hp, -⟩
    · exact ⟨rest, by rw [List.mem_singleton.mp hb]⟩
    · cases hp

theorem place_entry : place g Graph.entry = 0 := by
  obtain ⟨rest, h⟩ := order_eq_cons hg
  rw [place, h, List.idxOf_cons_self]

theorem place_eq_length {front rest : List BlockId} {b : BlockId}
    (h : g.postorder.reverse = front ++ b :: rest) : place g b = front.length := by
  have hn := nodup_order hg
  rw [h] at hn
  rw [place, h]
  exact idxOf_append_cons fun hin =>
    (List.nodup_append'.mp hn).2.2 hin (List.mem_cons_self ..)

/-- A search comes to every block by way of an earlier one. -/
theorem exists_earlier_pred {b : BlockId} (hb : g.Reachable b) (hne : b ≠ Graph.entry) :
    ∃ p, g.Leads p b ∧ g.Reachable p ∧ place g p < place g b := by
  obtain ⟨front, rest, h⟩ := List.append_of_mem ((mem_order hg).mpr hb)
  rcases (order_stretch hg).parent h with heq | ⟨p, hp, hpb⟩
  · exact absurd (List.mem_singleton.mp heq) hne
  · refine ⟨p, hg.listed.mem_targets.mp hpb, (mem_order hg).mp (h ▸ List.mem_append_left _ hp), ?_⟩
    rw [place_eq_length hg h, place, h]
    exact idxOf_lt_of_mem_front hp

/-- What is earlier than a block stands in front of it. -/
theorem mem_front_of_place_lt {front rest : List BlockId} {b c : BlockId}
    (h : g.postorder.reverse = front ++ b :: rest) (hlt : place g c < place g b) : c ∈ front := by
  rw [place_eq_length hg h, place, h] at hlt
  exact mem_front_of_idxOf_lt hlt

theorem place_lt_of_mem_front {front rest : List BlockId} {b c : BlockId}
    (h : g.postorder.reverse = front ++ b :: rest) (hc : c ∈ front) :
    place g c < place g b := by
  rw [place_eq_length hg h, place, h]
  exact idxOf_lt_of_mem_front hc

end Order

/-! ### The table of places -/

theorem foldl_set_of_notMem {l : List (BlockId × Nat)} {t : Array (Option Nat)} {b : BlockId}
    (h : b ∉ l.map (·.1)) :
    (l.foldl (fun t x => t.setIfInBounds x.1.slot (some x.2)) t)[b.slot]? = t[b.slot]? := by
  induction l generalizing t with
  | nil => rfl
  | cons x l ih =>
    rw [List.map_cons, List.mem_cons, not_or] at h
    rw [List.foldl_cons, ih h.2, Array.getElem?_setIfInBounds_ne]
    exact fun hs => h.1 (BlockId.ext hs.symm)

theorem foldl_set_of_mem {l : List (BlockId × Nat)} {t : Array (Option Nat)} {b : BlockId} {i : Nat}
    (hn : (l.map (·.1)).Nodup) (h : (b, i) ∈ l) (hb : b.slot < t.size) :
    (l.foldl (fun t x => t.setIfInBounds x.1.slot (some x.2)) t)[b.slot]? = some (some i) := by
  induction l generalizing t with
  | nil => cases h
  | cons x l ih =>
    rw [List.map_cons, List.nodup_cons] at hn
    rw [List.foldl_cons]
    rcases List.mem_cons.mp h with rfl | h
    · rw [foldl_set_of_notMem hn.1, Array.getElem?_setIfInBounds_self_of_lt hb]
    · exact ih hn.2 h (by simpa using hb)

/-- The table gives every reachable block its place. -/
theorem ranks_reachable (hg : g.WellFormed) {b : BlockId} (hb : g.Reachable b) :
    (ranks g.blocks.size g.postorder.reverse)[b.slot]?.join = some (place g b) := by
  have hmem := (mem_order hg).mpr hb
  have hlt := List.idxOf_lt_length_of_mem hmem
  obtain ⟨block, hlive⟩ := hg.live_of_reachable hb
  have h := foldl_set_of_mem (l := g.postorder.reverse.zipIdx)
    (t := Array.replicate g.blocks.size none) (b := b) (i := place g b)
    (by simpa using nodup_order hg)
    (List.mem_zipIdx_iff_getElem?.mpr (by
      show g.postorder.reverse[g.postorder.reverse.idxOf b]? = some b
      rw [List.getElem?_eq_getElem hlt, List.getElem_idxOf hlt]))
    (by simpa using Graph.slot_lt_of_block? hlive)
  rw [ranks, h]
  rfl

/-- What stands in the table is the place of the block in the order. -/
theorem getElem?_of_ranks {size : Nat} {order : List BlockId} {b : BlockId} {i : Nat}
    (h : (ranks size order)[b.slot]?.join = some i) : order[i]? = some b := by
  rw [ranks] at h
  refine List.foldlRecOn (motive := fun t : Array (Option Nat) => t[b.slot]?.join = some i →
    order[i]? = some b) _ _ (fun hstart => ?_) (fun t ih x hx hnext => ?_) h
  · rw [Array.getElem?_replicate] at hstart
    split at hstart <;> cases hstart
  · rw [Array.getElem?_setIfInBounds] at hnext
    split at hnext
    · rename_i hslot
      split at hnext
      · cases hnext
        rw [← BlockId.ext hslot]
        exact List.mem_zipIdx_iff_getElem?.mp hx
      · cases hnext
    · exact ih hnext

/-- **Different blocks have different places**: of two of them one is later. -/
theorem eq_of_ranks {size : Nat} {order : List BlockId} {a b : BlockId} {i : Nat}
    (ha : (ranks size order)[a.slot]?.join = some i)
    (hb : (ranks size order)[b.slot]?.join = some i) : a = b :=
  Option.some.inj ((getElem?_of_ranks ha).symm.trans (getElem?_of_ranks hb))

/-! ### Trees in the making -/

/-- One step up in a tree. -/
def Up (t : Tree) (b d : BlockId) : Prop := b ≠ Graph.entry ∧ t.get? b = some d

/-- `a` is met on the way up from `b`. -/
abbrev Above (t : Tree) (b a : BlockId) : Prop := Relation.ReflTransGen (Up t) b a

/-- A block that has been given a dominator. -/
def Known (t : Tree) (b : BlockId) : Prop := ∃ d, t.get? b = some d

theorem Known.up {t : Tree} {b : BlockId} (hb : Known t b) (hne : b ≠ Graph.entry) :
    ∃ d, Up t b d := by
  obtain ⟨d, hd⟩ := hb
  exact ⟨d, hne, hd⟩

theorem get?_set {t : Tree} {b c d : BlockId} (hb : b.slot < t.size) :
    Tree.get? (t.setIfInBounds b.slot (some d)) c = if c = b then some d else t.get? c := by
  unfold Tree.get?
  rw [Array.getElem?_setIfInBounds]
  by_cases h : c = b
  · subst h
    rw [if_pos rfl, if_pos hb, if_pos rfl]
    rfl
  · rw [if_neg fun hs => h (BlockId.ext hs.symm), if_neg h]

/-- **What holds of the tree throughout its improvement.** -/
structure Partial (g : Graph) (t : Tree) : Prop where
  size_eq : t.size = g.blocks.size
  entry_self : t.get? Graph.entry = some Graph.entry
  reachable : ∀ {b}, Known t b → g.Reachable b
  earlier : ∀ {b d}, Up t b d → place g d < place g b
  known : ∀ {b d}, Up t b d → Known t d
  /-- No dominator is lost. -/
  keeps : ∀ {b d}, Up t b d → ∀ {a}, g.Dominates a b → a ≠ b → g.Dominates a d

namespace Partial

variable {t : Tree} (h : Partial g t)
include h

theorem above_place_le {a b : BlockId} (hab : Above t b a) : place g a ≤ place g b := by
  induction hab with
  | refl => exact Nat.le_refl _
  | tail _ hup ih => exact Nat.le_trans (Nat.le_of_lt (h.earlier hup)) ih

theorem known_above {a b : BlockId} (hb : Known t b) (hab : Above t b a) : Known t a := by
  cases hab with
  | refl => exact hb
  | tail _ hup => exact h.known hup

/-- Every dominator of a block that has been given one is above it. -/
theorem above_of_dominates {a b : BlockId} (hb : Known t b) (hab : g.Dominates a b) :
    Above t b a := by
  induction hn : place g b using Nat.strongRecOn generalizing b with
  | ind n ih =>
    by_cases hne : a = b
    · exact hne ▸ .refl
    · by_cases hentry : b = Graph.entry
      · subst hentry
        exact absurd hab.eq_entry hne
      · obtain ⟨d, hup⟩ := hb.up hentry
        exact .head hup (ih (place g d) (hn ▸ h.earlier hup) (h.known hup)
          (h.keeps hup hab hne) rfl)

/-- The two-finger climb finds the nearest block above both. -/
theorem commonAncestor_spec (hg : g.WellFormed) {fuel : Nat} {a b : BlockId} (ha : Known t a)
    (hb : Known t b) (hfuel : place g a + place g b < fuel) :
    ∃ c, commonAncestor (ranks g.blocks.size g.postorder.reverse) t fuel a b = some c ∧
      Above t a c ∧ Above t b c ∧ ∀ d, g.Dominates d a → g.Dominates d b → g.Dominates d c := by
  induction fuel generalizing a b with
  | zero => omega
  | succ fuel ih =>
    rw [commonAncestor]
    by_cases hab : a = b
    · subst hab
      rw [if_pos rfl]
      exact ⟨a, rfl, .refl, .refl, fun d hd _ => hd⟩
    have ne_entry : ∀ {x y : BlockId}, place g y < place g x → x ≠ Graph.entry := by
      intro x y hlt heq
      rw [heq, place_entry hg] at hlt
      omega
    -- a common dominator is not the later of the two blocks
    have keeps_later : ∀ {x y p d : BlockId}, Known t y → x ≠ y → place g y < place g x →
        Up t x p → g.Dominates d x → g.Dominates d y → g.Dominates d p := by
      intro x y p d hy hxy hlt hup hdx hdy
      refine h.keeps hup hdx fun hd => ?_
      have := h.above_place_le (h.above_of_dominates hy hdy)
      rw [hd] at this
      omega
    rw [if_neg hab, ranks_reachable hg (h.reachable ha), ranks_reachable hg (h.reachable hb)]
    simp only [Option.bind_eq_bind, Option.bind_some]
    by_cases hlt : place g b < place g a
    · rw [if_pos hlt]
      obtain ⟨p, hup⟩ := ha.up (ne_entry hlt)
      have hearlier := h.earlier hup
      obtain ⟨c, hc, hac, hbc, hdom⟩ := ih (h.known hup) hb (by omega)
      rw [hup.2, Option.bind_some]
      exact ⟨c, hc, .head hup hac, hbc,
        fun d hda hdb => hdom d (keeps_later hb hab hlt hup hda hdb) hdb⟩
    · rw [if_neg hlt]
      have hlt' : place g a < place g b := by
        have hne : place g a ≠ place g b := fun heq =>
          hab (eq_of_ranks (ranks_reachable hg (h.reachable ha))
            (heq ▸ ranks_reachable hg (h.reachable hb)))
        omega
      obtain ⟨p, hup⟩ := hb.up (ne_entry hlt')
      have hearlier := h.earlier hup
      obtain ⟨c, hc, hac, hbc, hdom⟩ := ih ha (h.known hup) (by omega)
      rw [hup.2, Option.bind_some]
      exact ⟨c, hc, hac, .head hup hbc,
        fun d hda hdb => hdom d hda (keeps_later ha (Ne.symm hab) hlt' hup hdb hda)⟩

theorem place_bound (hg : g.WellFormed) {b : BlockId} (hb : Known t b) :
    place g b < t.size := by
  rw [h.size_eq]
  exact Nat.lt_of_lt_of_le (place_lt hg (h.reachable hb)) (length_order_le hg)

theorem foldlM_commonAncestor (hg : g.WellFormed) {ps : List BlockId} {first : BlockId}
    (hfirst : Known t first) (hps : ∀ p ∈ ps, Known t p) :
    ∃ d, ps.foldlM (fun other p => commonAncestor (ranks g.blocks.size g.postorder.reverse) t
        (2 * t.size + 1) p other) first = some d ∧
      Above t first d ∧ (∀ p ∈ ps, Above t p d) ∧
      ∀ a, g.Dominates a first → (∀ p ∈ ps, g.Dominates a p) → g.Dominates a d := by
  induction ps generalizing first with
  | nil => exact ⟨first, rfl, .refl, nofun, fun _ ha _ => ha⟩
  | cons p ps ih =>
    obtain ⟨hp, hps⟩ := List.forall_mem_cons.mp hps
    have hbound := h.place_bound hg hp
    have hbound' := h.place_bound hg hfirst
    have hfuel : place g p + place g first < 2 * t.size + 1 := by omega
    obtain ⟨c, hc, hpc, hfc, hdom⟩ := h.commonAncestor_spec hg hp hfirst hfuel
    obtain ⟨d, hd, hcd, hall, hdom'⟩ := ih (h.known_above hp hpc) hps
    refine ⟨d, by rw [List.foldlM_cons, hc]; exact hd, hfc.trans hcd, ?_, fun a ha hps => ?_⟩
    · intro q hq
      rcases List.mem_cons.mp hq with rfl | hq
      · exact hpc.trans hcd
      · exact hall q hq
    · obtain ⟨hap, haps⟩ := List.forall_mem_cons.mp hps
      exact hdom' a (hdom a hap ha) haps

/-- **The candidate for a block** is above all its predecessors, and every dominator of them all
dominates it. -/
theorem candidate_spec (hg : g.WellFormed) {b : BlockId}
    (hpred : ∃ p, g.Leads p b ∧ Known t p ∧ place g p < place g b) :
    ∃ d, candidate g (ranks g.blocks.size g.postorder.reverse) t b = .ok d ∧ Known t d ∧
      place g d < place g b ∧ (∀ p, g.Leads p b → Known t p → Above t p d) ∧
      ∀ a, (∀ p, g.Leads p b → Known t p → g.Dominates a p) → g.Dominates a d := by
  have hmem : ∀ p, p ∈ (g.sources b).filter (fun p => (t.get? p).isSome) ↔
      g.Leads p b ∧ Known t p := by
    intro p
    rw [List.mem_filter, hg.listed.mem_sources, Option.isSome_iff_exists]
    rfl
  obtain ⟨p₀, hl₀, hk₀, hlt₀⟩ := hpred
  have hp₀ := (hmem p₀).mpr ⟨hl₀, hk₀⟩
  obtain ⟨block, hb⟩ := hg.listed.live_of_leads hl₀
  cases hs : (g.sources b).filter (fun p => (t.get? p).isSome) with
  | nil =>
    rw [hs] at hp₀
    cases hp₀
  | cons p ps =>
    rw [hs] at hmem hp₀
    have hp : Known t p := ((hmem p).mp (List.mem_cons_self ..)).2
    have hps : ∀ q ∈ ps, Known t q := fun q hq => ((hmem q).mp (List.mem_cons_of_mem _ hq)).2
    obtain ⟨d, hd, hpd, hpsd, hdom⟩ := h.foldlM_commonAncestor hg hp hps
    have habove : ∀ q ∈ p :: ps, Above t q d := List.forall_mem_cons.mpr ⟨hpd, hpsd⟩
    have hrun : candidate g (ranks g.blocks.size g.postorder.reverse) t b = .ok d := by
      rw [candidate, hg.listed.predecessors_eq hb]
      simp only [bind, Except.bind, hs, hd]
      rfl
    refine ⟨d, hrun, h.known_above hk₀ (habove p₀ hp₀),
      Nat.lt_of_le_of_lt (h.above_place_le (habove p₀ hp₀)) hlt₀,
      fun q hl hk => habove q ((hmem q).mpr ⟨hl, hk⟩), fun a ha => ?_⟩
    have hall : ∀ q ∈ p :: ps, g.Dominates a q :=
      fun q hq => ha q ((hmem q).mp hq).1 ((hmem q).mp hq).2
    exact hdom a (hall p (List.mem_cons_self ..)) fun q hq => hall q (List.mem_cons_of_mem _ hq)

/-- Giving a block its candidate keeps all that holds of the tree. -/
theorem set (hg : g.WellFormed) {b d : BlockId} (hb : g.Reachable b) (hne : b ≠ Graph.entry)
    (hd : Known t d) (hlt : place g d < place g b)
    (hdom : ∀ a, (∀ p, g.Leads p b → Known t p → g.Dominates a p) → g.Dominates a d) :
    Partial g (t.setIfInBounds b.slot (some d)) := by
  obtain ⟨block, hlive⟩ := hg.live_of_reachable hb
  have hslot : b.slot < t.size := by
    rw [h.size_eq]
    exact Graph.slot_lt_of_block? hlive
  have hget := fun c => get?_set (t := t) (c := c) (d := d) hslot
  have hknown : ∀ {c}, Known t c → Known (t.setIfInBounds b.slot (some d)) c := by
    rintro c ⟨x, hx⟩
    by_cases hcb : c = b
    · exact ⟨d, by rw [hget, if_pos hcb]⟩
    · exact ⟨x, by rw [hget, if_neg hcb, hx]⟩
  -- Every step up the new tree is the new one or one of the old tree.
  have hup : ∀ {c x}, Up (t.setIfInBounds b.slot (some d)) c x → c = b ∧ x = d ∨ Up t c x := by
    rintro c x ⟨hce, hx⟩
    rw [hget] at hx
    by_cases hcb : c = b
    · rw [if_pos hcb] at hx
      exact .inl ⟨hcb, (Option.some.inj hx).symm⟩
    · rw [if_neg hcb] at hx
      exact .inr ⟨hce, hx⟩
  refine ⟨by rw [Array.size_setIfInBounds, h.size_eq], ?_, ?_, ?_, ?_, ?_⟩
  · rw [hget, if_neg (Ne.symm hne), h.entry_self]
  · rintro c ⟨x, hx⟩
    rw [hget] at hx
    by_cases hcb : c = b
    · exact hcb ▸ hb
    · rw [if_neg hcb] at hx
      exact h.reachable ⟨x, hx⟩
  · intro c x hcx
    rcases hup hcx with ⟨rfl, rfl⟩ | hcx
    · exact hlt
    · exact h.earlier hcx
  · intro c x hcx
    rcases hup hcx with ⟨rfl, rfl⟩ | hcx
    · exact hknown hd
    · exact hknown (h.known hcx)
  · intro c x hcx a hac hne'
    rcases hup hcx with ⟨rfl, rfl⟩ | hcx
    · exact hdom a fun p hl _ => hac.pred hne' hl
    · exact h.keeps hcx hac hne'

end Partial

/-! ### Passes -/

/-- How many steps of a route, given with its latest block first, do not lead on to a later place.
-/
def backs (g : Graph) : List BlockId → Nat
  | b :: a :: p => (if place g b ≤ place g a then 1 else 0) + backs g (a :: p)
  | _ => 0

theorem backs_le_cons (b : BlockId) (p : List BlockId) : backs g p ≤ backs g (b :: p) := by
  cases p with
  | nil => exact Nat.le_refl _
  | cons a p => exact Nat.le_add_left ..

theorem backs_le_of_suffix {p q : List BlockId} (h : q <:+ p) : backs g q ≤ backs g p := by
  obtain ⟨front, rfl⟩ := h
  induction front with
  | nil => exact Nat.le_refl _
  | cons b front ih => exact Nat.le_trans ih (backs_le_cons b _)

theorem backs_lt_length {p : List BlockId} {b : BlockId} (h : g.Route p b) :
    backs g p < p.length := by
  induction h with
  | start => exact Nat.zero_lt_one
  | @step p a b hp hl ih =>
    cases p with
    | nil => cases hp
    | cons c p =>
      rw [backs, List.length_cons]
      split <;> omega

/-- **What `k` passes establish**: the blocks above a block lie on all routes to it that lead back
fewer than `k` times. -/
def Passed (g : Graph) (k : Nat) (t : Tree) : Prop :=
  ∀ b p, g.Route p b → backs g p < k → Known t b ∧ ∀ a, Above t b a → a ∈ p

/-- Above the entry there is nothing else. -/
theorem above_entry {t : Tree} {a : BlockId} (h : Above t Graph.entry a) : a = Graph.entry := by
  rcases Relation.ReflTransGen.cases_head h with rfl | ⟨d, hup, -⟩
  · rfl
  · exact absurd rfl hup.1

/-- What is above an earlier block does not depend on what a later one has been given. -/
theorem Partial.above_frame {t t' : Tree} (ht' : Partial g t') {b c a : BlockId}
    (hframe : ∀ c, c ≠ b → t'.get? c = t.get? c) (hlt : place g c < place g b)
    (h : Above t' c a) : Above t c a := by
  induction h using Relation.ReflTransGen.head_induction_on with
  | refl => exact .refl
  | @head c x hup _ ih =>
    have hne : c ≠ b := by
      rintro rfl
      exact Nat.lt_irrefl _ hlt
    exact .head ⟨hup.1, hframe c hne ▸ hup.2⟩ (ih (Nat.lt_trans (ht'.earlier hup) hlt))

/-- **In the midst of a pass** that began with the tree `t₀` and has come past the blocks `done`. -/
structure Midway (g : Graph) (k : Nat) (t₀ : Tree) (done : List BlockId) (s : Bool × Tree) :
    Prop where
  sound : Partial g s.2
  known : ∀ b ∈ done, Known s.2 b
  routes : ∀ b ∈ done, ∀ p, g.Route p b → backs g p < k + 1 → ∀ a, Above s.2 b a → a ∈ p
  others : ∀ b, b ∉ done → s.2.get? b = t₀.get? b
  /-- As long as nothing has changed, every block passed has its candidate. -/
  stable : s.1 = false → s.2 = t₀ ∧ ∀ b ∈ done, b ≠ Graph.entry →
    ∃ d, Up t₀ b d ∧ ∀ p, g.Leads p b → Known t₀ p → Above t₀ p d

namespace Midway

variable {k : Nat} {t₀ : Tree} {done : List BlockId} {s : Bool × Tree}

theorem start (hp : Partial g t₀) : Midway g k t₀ [Graph.entry] (false, t₀) := by
  refine ⟨hp, ?_, ?_, fun _ _ => rfl, fun _ => ⟨rfl, ?_⟩⟩
  · intro b hb
    rw [List.mem_singleton.mp hb]
    exact ⟨_, hp.entry_self⟩
  · intro b hb p hr _ a ha
    rw [List.mem_singleton.mp hb] at ha
    rw [above_entry ha]
    exact hr.entry_mem
  · intro b hb hne
    exact absurd (List.mem_singleton.mp hb) hne

variable (h : Midway g k t₀ done s)
include h

/-- What is above a block now lies on every route to it that leads back fewer than `k` times. -/
theorem mem_of_above (hpassed : Passed g k t₀) {q a : BlockId} (ha : Above s.2 q a)
    {p : List BlockId} (hr : g.Route p q) (hlt : backs g p < k) : a ∈ p := by
  induction ha using Relation.ReflTransGen.head_induction_on generalizing p with
  | refl => exact hr.mem_self
  | @head q x hup hxa ih =>
    by_cases hq : q ∈ done
    · exact h.routes q hq p hr (by omega) a (.head hup hxa)
    · have hup₀ : Up t₀ q x := ⟨hup.1, h.others q hq ▸ hup.2⟩
      obtain ⟨p', hr', hs⟩ := hr.upTo ((hpassed q p hr hlt).2 x (.single hup₀))
      exact hs.subset (ih hr' (Nat.lt_of_le_of_lt (backs_le_of_suffix hs) hlt))

theorem known_of_route (hpassed : Passed g k t₀) {q : BlockId} {p : List BlockId}
    (hr : g.Route p q) (hlt : backs g p < k) : Known s.2 q := by
  by_cases hq : q ∈ done
  · exact h.known q hq
  · obtain ⟨d, hd⟩ := (hpassed q p hr hlt).1
    exact ⟨d, by rw [h.others q hq, hd]⟩

/-- A block that is next, once it has been given its candidate, is like those passed before. -/
theorem routes_next (hg : g.WellFormed) (hpassed : Passed g k t₀) {rest : List BlockId}
    {b d : BlockId} (horder : g.postorder.reverse = done ++ b :: rest) (hne : b ≠ Graph.entry)
    (habove : ∀ p, g.Leads p b → Known s.2 p → Above s.2 p d) {p : List BlockId}
    (hr : g.Route p b) (hlt : backs g p < k + 1) {a : BlockId} (ha : Above s.2 d a) : a ∈ p := by
  cases hr with
  | start => exact absurd rfl hne
  | @step p q _ hr hl =>
    refine List.mem_cons_of_mem _ ?_
    by_cases hback : place g b ≤ place g q
    · have hlt' : backs g p < k := by
        cases p with
        | nil => cases hr
        | cons c p =>
          have hc : c = q := by cases hr <;> rfl
          rw [backs, hc, if_pos hback] at hlt
          rw [hc]
          omega
      exact h.mem_of_above hpassed ((habove q hl (h.known_of_route hpassed hr hlt')).trans ha)
        hr hlt'
    · have hq : q ∈ done := mem_front_of_place_lt hg horder (Nat.lt_of_not_le hback)
      exact h.routes q hq p hr (Nat.lt_of_le_of_lt (backs_le_cons b p) hlt) a
        ((habove q hl (h.known q hq)).trans ha)

/-- One step of a pass. -/
theorem next (hg : g.WellFormed) (hpassed : Passed g k t₀) {rest : List BlockId} {b d : BlockId}
    (horder : g.postorder.reverse = done ++ b :: rest) (hne : b ≠ Graph.entry)
    (habove : ∀ p, g.Leads p b → Known s.2 p → Above s.2 p d) (s' : Bool × Tree)
    (hs' : Partial g s'.2) (hgive : s'.2.get? b = some d)
    (hframe : ∀ c, c ≠ b → s'.2.get? c = s.2.get? c)
    (hflag : s'.1 = false → s' = s) : Midway g k t₀ (done ++ [b]) s' := by
  have hearlier := hs'.earlier ⟨hne, hgive⟩
  refine ⟨hs', ?_, ?_, ?_, ?_⟩
  · intro c hc
    by_cases hcb : c = b
    · exact ⟨d, hcb ▸ hgive⟩
    · have hc := (List.mem_append.mp hc).resolve_right fun hc => hcb (List.mem_singleton.mp hc)
      obtain ⟨x, hx⟩ := h.known c hc
      exact ⟨x, by rw [hframe c hcb, hx]⟩
  · intro c hc p hr hlt a ha
    rcases List.mem_append.mp hc with hc | hc
    · exact h.routes c hc p hr hlt a
        (hs'.above_frame hframe (place_lt_of_mem_front hg horder hc) ha)
    · rw [List.mem_singleton] at hc
      subst hc
      -- What is above `b` is `b` itself, or above its candidate and so on the routes to the
      -- predecessors.
      rcases Relation.ReflTransGen.cases_head ha with rfl | ⟨x, hup, hxa⟩
      · exact hr.mem_self
      · have hx : x = d := Option.some.inj (hup.2.symm.trans hgive)
        subst hx
        exact h.routes_next hg hpassed horder hne habove hr hlt
          (hs'.above_frame hframe hearlier hxa)
  · intro c hc
    rw [List.mem_append, not_or, List.mem_singleton] at hc
    rw [hframe c hc.2, h.others c hc.1]
  · intro hfalse
    have hs := hflag hfalse
    rw [hs] at hfalse hgive ⊢
    obtain ⟨ht, hdone⟩ := h.stable hfalse
    refine ⟨ht, fun c hc hce => ?_⟩
    rcases List.mem_append.mp hc with hc | hc
    · exact hdone c hc hce
    · rw [List.mem_singleton.mp hc]
      exact ⟨d, ⟨hne, ht ▸ hgive⟩, ht ▸ habove⟩

end Midway

/-! ### Finished trees -/

/-- **A finished tree**: what is above a block is what dominates it. -/
structure Settled (g : Graph) (t : Tree) : Prop extends Partial g t where
  all : ∀ {b}, g.Reachable b → Known t b
  dominates : ∀ {b a}, g.Reachable b → Above t b a → g.Dominates a b

/-- **The tree of a finished improvement** holds the immediate dominators of the blocks that the
entry reaches, and nothing else. -/
theorem Settled.up_iff {t : Tree} (h : Settled g t) {a b : BlockId} :
    Up t b a ↔ g.ImmediatelyDominates a b := by
  have mp : ∀ {a b}, Up t b a → g.ImmediatelyDominates a b := by
    intro a b hup
    have hb := h.reachable ⟨a, hup.2⟩
    refine ⟨hb, h.dominates hb (.single hup), ?_, h.keeps hup⟩
    rintro rfl
    exact Nat.lt_irrefl _ (h.earlier hup)
  refine ⟨mp, fun hi => ?_⟩
  have hne : b ≠ Graph.entry := by
    rintro rfl
    exact hi.ne hi.dominates.eq_entry
  obtain ⟨d, hup⟩ := (h.all hi.reachable).up hne
  rwa [hi.unique (mp hup)]

/-- So does the tree without the entry, which is nobody's. -/
theorem Settled.join_eq_some_iff {t : Tree} (h : Settled g t) (a b : BlockId) :
    (t.setIfInBounds Graph.entry.slot none)[b.slot]?.join = some a ↔
    g.ImmediatelyDominates a b := by
  rw [← h.up_iff, Up, Tree.get?, Array.getElem?_setIfInBounds]
  by_cases hb : b = Graph.entry
  · subst hb
    rw [if_pos rfl]
    split <;> simp
  · rw [if_neg fun hslot => hb (BlockId.ext hslot.symm)]
    exact ⟨fun h => ⟨hb, h⟩, fun h => h.2⟩

/-! ### Passes until nothing changes -/

/-- **A loop of passes comes to rest.**  A pass tells whether it changed anything, and the `n`-th is
the first that did not. -/
inductive Rests {m : Type → Type} [Monad m] {σ : Type} (pass : σ → m (Bool × σ)) :
    Nat → σ → σ → Prop
  | stop {s s' : σ} (h : pass s = pure (false, s')) : Rests pass 1 s s'
  | go {n : Nat} {s s' s'' : σ} (h : pass s = pure (true, s')) (rest : Rests pass n s' s'') :
      Rests pass (n + 1) s s''

/-- The bound on the passes does not matter when it is no less than the passes that there are. -/
theorem Rests.untilStable {m : Type → Type} [Monad m] [LawfulMonad m] {σ : Type}
    {pass : σ → m (Bool × σ)} {n fuel : Nat} {s s' : σ} (h : Rests pass n s s') (hfuel : n ≤ fuel) :
    untilStable pass fuel s = pure s' := by
  induction h generalizing fuel with
  | stop h =>
    obtain ⟨fuel, rfl⟩ := Nat.exists_eq_add_of_le' hfuel
    rw [Dominance.untilStable, h, pure_bind]
    rfl
  | go h _ ih =>
    obtain ⟨fuel, rfl⟩ := Nat.exists_eq_add_of_le' (Nat.le_of_add_left_le hfuel)
    rw [Dominance.untilStable, h, pure_bind]
    exact ih (Nat.le_of_succ_le_succ hfuel)

section Passes
variable (hg : g.WellFormed)
include hg

/-- A pass comes to a block after one that leads to it. -/
theorem Midway.exists_known_pred {k : Nat} {t₀ : Tree} {done rest : List BlockId} {s : Bool × Tree}
    (h : Midway g k t₀ done s) {b : BlockId} (horder : g.postorder.reverse = done ++ b :: rest)
    (hne : b ≠ Graph.entry) : ∃ p, g.Leads p b ∧ Known s.2 p ∧ place g p < place g b := by
  have hb : g.Reachable b := (mem_order hg).mp (by
    rw [horder]
    exact List.mem_append_right _ (List.mem_cons_self ..))
  obtain ⟨p, hl, -, hlt⟩ := exists_earlier_pred hg hb hne
  exact ⟨p, hl, h.known p (mem_front_of_place_lt hg horder hlt), hlt⟩

theorem foldlM_improve {k : Nat} {t₀ : Tree} (hpassed : Passed g k t₀)
    {mid rest done : List BlockId} {s : Bool × Tree}
    (horder : g.postorder.reverse = done ++ (mid ++ rest))
    (hentry : Graph.entry ∈ done) (h : Midway g k t₀ done s) :
    ∃ s', mid.foldlM (improveAt g (ranks g.blocks.size g.postorder.reverse)) s = .ok s' ∧
      Midway g k t₀ (done ++ mid) s' := by
  induction mid generalizing done s with
  | nil => exact ⟨s, rfl, (List.append_nil done).symm ▸ h⟩
  | cons b mid ih =>
    obtain ⟨changed, t⟩ := s
    have hb : g.Reachable b := (mem_order hg).mp (by
      rw [horder]
      exact List.mem_append_right _ (List.mem_cons_self ..))
    have hne : b ≠ Graph.entry := by
      rintro rfl
      have hn := nodup_order hg
      rw [horder] at hn
      exact (List.nodup_append'.mp hn).2.2 hentry (List.mem_cons_self ..)
    obtain ⟨d, hd, hknown, hlt, habove, hdom⟩ :=
      h.sound.candidate_spec hg (h.exists_known_pred hg horder hne)
    have horder' : g.postorder.reverse = (done ++ [b]) ++ (mid ++ rest) := by
      rw [horder, List.append_assoc, List.singleton_append, List.cons_append]
    have hdone : done ++ b :: mid = (done ++ [b]) ++ mid := by
      rw [List.append_assoc, List.singleton_append]
    rw [List.foldlM_cons, improveAt, hd, hdone]
    by_cases heq : t.get? b = some d
    · -- The block has its candidate already, and the tree stays.
      have hnext := h.next hg hpassed horder hne habove (changed, t) h.sound heq
        (fun _ _ => rfl) fun _ => rfl
      obtain ⟨s', hs', hmid⟩ := ih horder' (List.mem_append_left _ hentry) hnext
      refine ⟨s', ?_, hmid⟩
      show (if t.get? b = some d then _ else _ : Except Fault _) >>= _ = _
      rw [if_pos heq]
      exact hs'
    · obtain ⟨block, hlive⟩ := hg.live_of_reachable hb
      have hslot : b.slot < t.size := by
        rw [h.sound.size_eq]
        exact Graph.slot_lt_of_block? hlive
      have hnext := h.next hg hpassed horder hne habove (true, t.setIfInBounds b.slot (some d))
        (h.sound.set hg hb hne hknown hlt hdom) (by rw [get?_set hslot, if_pos rfl])
        (fun c hc => by rw [get?_set hslot, if_neg hc]) nofun
      obtain ⟨s', hs', hmid⟩ := ih horder' (List.mem_append_left _ hentry) hnext
      refine ⟨s', ?_, hmid⟩
      show (if t.get? b = some d then _ else _ : Except Fault _) >>= _ = _
      rw [if_neg heq]
      exact hs'

/-- A pass goes over what comes after the entry. -/
theorem order_eq_entry_cons :
    g.postorder.reverse = Graph.entry :: g.postorder.reverse.filter (· ≠ Graph.entry) := by
  obtain ⟨rest, horder⟩ := order_eq_cons hg
  have hn := nodup_order hg
  rw [horder, List.nodup_cons] at hn
  have hrest : rest.filter (· ≠ Graph.entry) = rest := by
    rw [List.filter_eq_self]
    intro b hb
    simp only [ne_eq, decide_eq_true_eq]
    rintro rfl
    exact hn.1 hb
  rw [horder, List.filter_cons_of_neg (by simp), hrest]

/-- **A pass succeeds** and takes what is above a block further into all routes to it. -/
theorem improve_spec {k : Nat} {t : Tree} (hp : Partial g t) (hpassed : Passed g k t) :
    ∃ s, improve g (ranks g.blocks.size g.postorder.reverse)
        (g.postorder.reverse.filter (· ≠ Graph.entry)) t = .ok s ∧
      Midway g k t g.postorder.reverse s := by
  have horder := order_eq_entry_cons hg
  have hsplit : g.postorder.reverse =
      [Graph.entry] ++ (g.postorder.reverse.filter (· ≠ Graph.entry) ++ []) := by
    rw [List.append_nil]
    exact horder
  obtain ⟨s, hs, hmid⟩ :=
    foldlM_improve hg hpassed hsplit (List.mem_singleton.mpr rfl) (.start hp)
  exact ⟨s, hs, horder ▸ hmid⟩

/-- What a whole pass establishes. -/
theorem Midway.passed {k : Nat} {t₀ : Tree} {s : Bool × Tree}
    (h : Midway g k t₀ g.postorder.reverse s) : Passed g (k + 1) s.2 := fun b p hr hlt =>
  have hb := (mem_order hg).mpr ⟨p, hr⟩
  ⟨h.known b hb, h.routes b hb p hr hlt⟩

/-- A pass that changes nothing finishes the tree. -/
theorem Midway.settled {k : Nat} {t₀ : Tree} {s : Bool × Tree}
    (h : Midway g k t₀ g.postorder.reverse s) (hs : s.1 = false) : Settled g s.2 := by
  obtain ⟨ht, hstable⟩ := h.stable hs
  have hknown : ∀ {b}, g.Reachable b → Known s.2 b := fun hb => h.known _ ((mem_order hg).mpr hb)
  refine ⟨h.sound, hknown, fun {b a} _ ha p hr => ?_⟩
  induction hr with
  | start => exact List.mem_singleton.mpr (above_entry ha)
  | @step p q b hr hl ih =>
    rcases Relation.ReflTransGen.cases_head ha with rfl | ⟨x, hup, hxa⟩
    · exact List.mem_cons_self ..
    · have hb : g.Reachable b := ⟨_, .step hr hl⟩
      obtain ⟨d, hd, habove⟩ := hstable b ((mem_order hg).mpr hb) hup.1
      rw [← ht] at hd habove
      have hx : x = d := Option.some.inj (hup.2.symm.trans hd.2)
      subst hx
      exact List.mem_cons_of_mem _ (ih ⟨_, hr⟩ ((habove q hl (hknown ⟨_, hr⟩)).trans hxa))

/-- So do as many passes as there are blocks. -/
theorem Passed.settled {k : Nat} {t : Tree} (hp : Partial g t) (hpassed : Passed g k t)
    (hk : g.blocks.size ≤ k) : Settled g t := by
  have hshort : ∀ {p b}, g.Route p b → p.Nodup → backs g p < k := by
    intro p b hr hn
    have hsub : p.length ≤ g.postorder.reverse.length :=
      (List.subperm_of_subset hn fun c hc => (mem_order hg).mpr (hr.reachable_of_mem hc)).length_le
    have := length_order_le hg
    have := backs_lt_length hr
    omega
  refine ⟨hp, fun ⟨p, hr⟩ => ?_, fun _ ha p hr => ?_⟩
  · obtain ⟨q, hq, hn, -⟩ := hr.simple
    exact (hpassed _ q hq (hshort hq hn)).1
  · obtain ⟨q, hq, hn, hs⟩ := hr.simple
    exact hs ((hpassed _ q hq (hshort hq hn)).2 _ ha)

/-- In a finished tree every block has its candidate. -/
theorem Settled.candidate_eq {t : Tree} (h : Settled g t) {b : BlockId} (hb : g.Reachable b)
    (hne : b ≠ Graph.entry) :
    ∃ d, candidate g (ranks g.blocks.size g.postorder.reverse) t b = .ok d ∧ t.get? b = some d := by
  obtain ⟨q, hl, hq, hlt⟩ := exists_earlier_pred hg hb hne
  obtain ⟨d, hd, -, hdlt, habove, hdom⟩ := h.candidate_spec hg ⟨q, hl, h.all hq, hlt⟩
  have hdb : g.ImmediatelyDominates d b := by
    refine ⟨hb, fun p hr => ?_, ?_, fun {a} hab hne' => hdom a fun p hl _ => hab.pred hne' hl⟩
    · cases hr with
      | start => exact absurd rfl hne
      | step hr hl =>
        have hdq := h.dominates ⟨_, hr⟩ (habove _ hl (h.all ⟨_, hr⟩))
        exact List.mem_cons_of_mem _ (hdq _ hr)
    · rintro rfl
      exact Nat.lt_irrefl _ hdlt
  exact ⟨d, hd, (h.up_iff.mpr hdb).2⟩

/-- **A finished tree stays**: a pass over it changes nothing. -/
theorem Settled.improve_eq {t : Tree} (h : Settled g t) :
    improve g (ranks g.blocks.size g.postorder.reverse)
      (g.postorder.reverse.filter (· ≠ Graph.entry)) t = .ok (false, t) := by
  have hall : ∀ bs : List BlockId, (∀ b ∈ bs, g.Reachable b ∧ b ≠ Graph.entry) →
      bs.foldlM (improveAt g (ranks g.blocks.size g.postorder.reverse)) (false, t) =
        .ok (false, t) := by
    intro bs hbs
    induction bs with
    | nil => rfl
    | cons b bs ih =>
      obtain ⟨⟨hb, hne⟩, hbs⟩ := List.forall_mem_cons.mp hbs
      obtain ⟨d, hd, hget⟩ := h.candidate_eq hg hb hne
      rw [List.foldlM_cons, improveAt, hd]
      show (if t.get? b = some d then _ else _ : Except Fault _) >>= _ = _
      rw [if_pos hget]
      exact ih hbs
  refine hall _ fun b hb => ?_
  obtain ⟨hb, hne⟩ := List.mem_filter.mp hb
  exact ⟨(mem_order hg).mp hb, of_decide_eq_true hne⟩

/-- **The passes come to rest** with a finished tree, at the latest when there have been as many of
them as there are blocks and one more. -/
theorem rests_improve {k : Nat} {t : Tree} (hp : Partial g t) (hpassed : Passed g k t)
    (hk : k ≤ g.blocks.size) :
    ∃ n t', n + k ≤ g.blocks.size + 1 ∧
      Rests (improve g (ranks g.blocks.size g.postorder.reverse)
        (g.postorder.reverse.filter (· ≠ Graph.entry))) n t t' ∧ Settled g t' := by
  induction hm : g.blocks.size - k generalizing k t with
  | zero =>
    have hs := hpassed.settled hg hp (by omega)
    exact ⟨1, t, by omega, .stop (hs.improve_eq hg), hs⟩
  | succ m ih =>
    obtain ⟨⟨changed, t'⟩, hs, hmid⟩ := improve_spec hg hp hpassed
    cases changed with
    | false => exact ⟨1, t', by omega, .stop hs, hmid.settled hg rfl⟩
    | true =>
      obtain ⟨n, t'', hn, hrest, hsettled⟩ :=
        ih hmid.sound (hmid.passed hg) (by omega) (by omega)
      exact ⟨n + 1, t'', by omega, .go hs hrest, hsettled⟩

end Passes

/-! ### Immediate dominators -/

/-- The start of the improvement: only the entry has a dominator. -/
theorem get?_start (hg : g.WellFormed) {b d : BlockId} :
    Tree.get? ((Array.replicate g.blocks.size none).setIfInBounds Graph.entry.slot
      (some Graph.entry)) b = some d ↔ b = Graph.entry ∧ d = Graph.entry := by
  obtain ⟨block, hlive⟩ := hg.entry_live
  rw [get?_set (by simpa using Graph.slot_lt_of_block? hlive)]
  by_cases hb : b = Graph.entry
  · simp [hb, eq_comm]
  · rw [if_neg hb, Tree.get?, Array.getElem?_replicate]
    split <;> simp [hb]

theorem Partial.start (hg : g.WellFormed) :
    Partial g ((Array.replicate g.blocks.size none).setIfInBounds Graph.entry.slot
      (some Graph.entry)) := by
  have hup : ∀ {b d}, ¬ Up ((Array.replicate g.blocks.size none).setIfInBounds Graph.entry.slot
      (some Graph.entry)) b d := fun hup => hup.1 ((get?_start hg).mp hup.2).1
  refine ⟨by simp, (get?_start hg).mpr ⟨rfl, rfl⟩, ?_, fun h => absurd h hup,
    fun h => absurd h hup, fun h => absurd h hup⟩
  rintro b ⟨d, hd⟩
  rw [((get?_start hg).mp hd).1]
  exact .entry

section Immediate
variable (hg : g.WellFormed)
include hg

/-- The passes come to rest, beginning with the tree of the entry alone. -/
theorem exists_rest :
    ∃ n t, n ≤ g.blocks.size + 1 ∧
      Rests (improve g (ranks g.blocks.size g.postorder.reverse)
        (g.postorder.reverse.filter (· ≠ Graph.entry))) n
        ((Array.replicate g.blocks.size none).setIfInBounds Graph.entry.slot (some Graph.entry)) t ∧
      Settled g t :=
  rests_improve hg (.start hg) (fun _ _ _ hlt => absurd hlt (Nat.not_lt_zero _)) (Nat.zero_le _)

theorem exists_settled :
    ∃ t, untilStable (improve g (ranks g.blocks.size g.postorder.reverse)
        (g.postorder.reverse.filter (· ≠ Graph.entry)))
      (g.blocks.size * g.blocks.size + g.blocks.size + 1)
      ((Array.replicate g.blocks.size none).setIfInBounds Graph.entry.slot (some Graph.entry)) =
        .ok t ∧ Settled g t := by
  obtain ⟨n, t, hn, hrest, hs⟩ := exists_rest hg
  exact ⟨t, hrest.untilStable (by omega), hs⟩

theorem exists_immediate {b : BlockId} (hb : g.Reachable b) (hne : b ≠ Graph.entry) :
    ∃ a, g.ImmediatelyDominates a b := by
  obtain ⟨t, -, hs⟩ := exists_settled hg
  obtain ⟨a, hup⟩ := (hs.all hb).up hne
  exact ⟨a, hs.up_iff.mp hup⟩

theorem place_lt_of_immediate {a b : BlockId} (h : g.ImmediatelyDominates a b) :
    place g a < place g b := by
  obtain ⟨t, -, hs⟩ := exists_settled hg
  exact hs.earlier (hs.up_iff.mpr h)

/-- **The immediate dominators are found**, in every well-formed graph. -/
theorem immediate_spec :
    ∃ idom, immediate g g.postorder = .ok idom ∧ idom.size = g.blocks.size ∧
      ∀ a b, idom[b.slot]?.join = some a ↔ g.ImmediatelyDominates a b := by
  obtain ⟨t, ht, hs⟩ := exists_settled hg
  refine ⟨t.setIfInBounds Graph.entry.slot none, ?_, ?_, hs.join_eq_some_iff⟩
  · rw [immediate, ht]
    rfl
  · rw [Array.size_setIfInBounds, hs.size_eq]

end Immediate
end Dominance
end FlowGraph
