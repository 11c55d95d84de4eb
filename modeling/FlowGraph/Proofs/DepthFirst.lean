import FlowGraph.Graph.Traversal
import Mathlib.Logic.Relation
import Mathlib.Data.List.Nodup

/-! # What a depth-first search records

A search is cut into stretches: the visit of a node, and the visits of several nodes in turn.
During a stretch the search leaves exactly the nodes that it enters (`Stretch`), so the list of
nodes left grows by one block in front.  Two facts about that block are all that the rest of the
library uses: it is closed under edges, and every node in it but the first ones stands behind a node
that leads to it (`parent`).

The depth of a search is bounded by a number.  The bound is never met in a graph of that many nodes.
-/
namespace FlowGraph
namespace DepthFirst

variable {α : Type} [DecidableEq α] {next : α → List α}

/-! ### Searches that cannot fail -/

/-- The visit of a node where the nodes that it leads to are always known. -/
def visit (next : α → List α) : Nat → Trail α → α → Trail α
  | 0, trail, _ => trail
  | fuel + 1, trail, v =>
    if v ∈ trail.entered then trail
    else
      let inner := (next v).foldl (visit next fuel) { trail with entered := v :: trail.entered }
      { inner with left := v :: inner.left }

/-- The search from each of the roots in turn. -/
def search (next : α → List α) (size : Nat) (roots : List α) : Trail α :=
  roots.foldl (visit next size) ⟨[], []⟩

/-- The nodes in the order in which the search enters them. -/
def preorder (next : α → List α) (size : Nat) (roots : List α) : List α :=
  (search next size roots).entered.reverse

/-- The nodes in the order in which the search leaves them. -/
def postorder (next : α → List α) (size : Nat) (roots : List α) : List α :=
  (search next size roots).left.reverse

section
variable {ε : Type} {all : List α} {nextM : α → Except ε (List α)}
  (hnext : ∀ v ∈ all, nextM v = .ok (next v)) (hall : ∀ v ∈ all, ∀ w ∈ next v, w ∈ all)

omit [DecidableEq α] in
/-- Several visits in turn, if each of them is one that cannot fail. -/
theorem foldlM_eq_ok {f : Trail α → α → Except ε (Trail α)} {f' : Trail α → α → Trail α}
    (hf : ∀ t, ∀ v ∈ all, f t v = .ok (f' t v)) {vs : List α} (hvs : ∀ v ∈ vs, v ∈ all)
    (t : Trail α) : vs.foldlM f t = .ok (vs.foldl f' t) := by
  induction vs generalizing t with
  | nil => rfl
  | cons v vs ih =>
    obtain ⟨hv, hvs⟩ := List.forall_mem_cons.mp hvs
    rw [List.foldlM_cons, hf t v hv]
    exact ih hvs (f' t v)

include hnext hall

theorem visitM_eq (fuel : Nat) (t : Trail α) {v : α} (hv : v ∈ all) :
    visitM nextM fuel t v = .ok (visit next fuel t v) := by
  induction fuel generalizing t v with
  | zero => rfl
  | succ fuel ih =>
    rw [visitM, visit]
    split
    · rfl
    · rw [hnext v hv]
      have hinner := foldlM_eq_ok (fun t v hv => ih t hv) (hall v hv)
        { t with entered := v :: t.entered }
      show (do let inner ← (next v).foldlM (visitM nextM fuel) _; _) = _
      rw [hinner]
      rfl

/-- **A search does not fail** among nodes for which it is known where they lead. -/
theorem searchM_eq (size : Nat) {roots : List α} (hroots : ∀ r ∈ roots, r ∈ all) :
    searchM nextM size roots = .ok (search next size roots) :=
  foldlM_eq_ok (fun t _ hv => visitM_eq hnext hall size t hv) hroots ⟨[], []⟩

end

/-- **Reachability** along edges. -/
abbrev Reaches (next : α → List α) : α → α → Prop := Relation.ReflTransGen fun a b => b ∈ next a

/-- **A stretch of a search**, in which the nodes `vs` are visited in turn and the nodes `new` are
left, the newest first. -/
structure Stretch (next : α → List α) (vs : List α) (t t' : Trail α) (new : List α) : Prop where
  left_eq : t'.left = new ++ t.left
  mem_entered : ∀ {x}, x ∈ t'.entered ↔ x ∈ new ∨ x ∈ t.entered
  older : t.entered <:+ t'.entered
  nodup_entered : t.entered.Nodup → t'.entered.Nodup
  fresh : ∀ {x}, x ∈ new → x ∉ t.entered
  nodup : new.Nodup
  origin : ∀ {x}, x ∈ new → ∃ v ∈ vs, Reaches next v x
  closed : ∀ {x}, x ∈ new → ∀ {y}, y ∈ next x → y ∈ t'.entered
  covers : ∀ {v}, v ∈ vs → v ∈ t'.entered
  parent : ∀ {front x rest}, new = front ++ x :: rest → x ∈ vs ∨ ∃ p ∈ front, x ∈ next p

namespace Stretch

variable {vs ws new new' : List α} {t t' t'' : Trail α}

omit [DecidableEq α] in
theorem nil (t : Trail α) : Stretch next [] t t [] where
  left_eq := rfl
  mem_entered := by simp
  older := List.suffix_refl _
  nodup_entered := id
  fresh h := by cases h
  nodup := .nil
  origin h := by cases h
  closed h := by cases h
  covers h := by cases h
  parent h := by simp at h

omit [DecidableEq α] in
/-- The visit of a node that was entered before. -/
theorem met {v : α} (hv : v ∈ t.entered) : Stretch next [v] t t [] :=
  { nil t with
    covers := fun hw => List.mem_singleton.mp hw ▸ hv
    origin := fun h => by cases h
    parent := fun h => by simp at h }

omit [DecidableEq α] in
/-- A place in two blocks is in the one or in the other. -/
theorem split_append {as bs front rest : List α} {x : α} (h : as ++ bs = front ++ x :: rest) :
    (∃ mid, as = front ++ x :: mid ∧ rest = mid ++ bs) ∨
      ∃ mid, front = as ++ mid ∧ bs = mid ++ x :: rest := by
  rcases List.append_eq_append_iff.mp h with ⟨mid, rfl, hbs⟩ | ⟨mid, rfl, hbs⟩
  · exact .inr ⟨mid, rfl, hbs⟩
  · cases mid with
    | nil => exact .inr ⟨[], by simp, by simpa using hbs.symm⟩
    | cons y mid =>
      rw [List.cons_append, List.cons.injEq] at hbs
      obtain ⟨rfl, rfl⟩ := hbs
      exact .inl ⟨mid, rfl, rfl⟩

omit [DecidableEq α] in
/-- One stretch after another. -/
theorem append (h : Stretch next vs t t' new) (h' : Stretch next ws t' t'' new') :
    Stretch next (vs ++ ws) t t'' (new' ++ new) where
  left_eq := by rw [h'.left_eq, h.left_eq, List.append_assoc]
  mem_entered := by
    intro x
    rw [h'.mem_entered, h.mem_entered, List.mem_append, or_assoc]
  older := h.older.trans h'.older
  nodup_entered hn := h'.nodup_entered (h.nodup_entered hn)
  fresh hx hold := by
    rcases List.mem_append.mp hx with hx | hx
    · exact h'.fresh hx (h.mem_entered.mpr (.inr hold))
    · exact h.fresh hx hold
  nodup := by
    refine List.nodup_append'.mpr ⟨h'.nodup, h.nodup, fun x hx' hx => ?_⟩
    exact h'.fresh hx' (h.mem_entered.mpr (.inl hx))
  origin hx := by
    rcases List.mem_append.mp hx with hx | hx
    · obtain ⟨v, hv, hr⟩ := h'.origin hx
      exact ⟨v, List.mem_append_right _ hv, hr⟩
    · obtain ⟨v, hv, hr⟩ := h.origin hx
      exact ⟨v, List.mem_append_left _ hv, hr⟩
  closed hx y hy := by
    rcases List.mem_append.mp hx with hx | hx
    · exact h'.closed hx hy
    · exact h'.mem_entered.mpr (.inr (h.closed hx hy))
  covers hv := by
    rcases List.mem_append.mp hv with hv | hv
    · exact h'.mem_entered.mpr (.inr (h.covers hv))
    · exact h'.covers hv
  parent heq := by
    rcases split_append heq with ⟨mid, hnew, -⟩ | ⟨mid, rfl, hnew⟩
    · exact (h'.parent hnew).imp_left (List.mem_append_right _)
    · refine (h.parent hnew).imp (List.mem_append_left _) ?_
      rintro ⟨p, hp, hx⟩
      exact ⟨p, List.mem_append_right _ hp, hx⟩

omit [DecidableEq α] in
/-- The visit of a new node, around the visits of what it leads to. -/
theorem visited {v : α} (hv : v ∉ t.entered)
    (h : Stretch next (next v) { t with entered := v :: t.entered } t' new) :
    Stretch next [v] t { t' with left := v :: t'.left } (v :: new) where
  left_eq := by rw [h.left_eq]; rfl
  mem_entered := by
    intro x
    rw [h.mem_entered, List.mem_cons, List.mem_cons]
    exact or_left_comm.trans or_assoc.symm
  older := (List.suffix_cons v t.entered).trans h.older
  nodup_entered hn := h.nodup_entered (List.nodup_cons.mpr ⟨hv, hn⟩)
  fresh hx hold := by
    rcases List.mem_cons.mp hx with rfl | hx
    · exact hv hold
    · exact h.fresh hx (List.mem_cons_of_mem _ hold)
  nodup := List.nodup_cons.mpr ⟨fun hin => h.fresh hin (List.mem_cons_self ..), h.nodup⟩
  origin hx := by
    refine ⟨v, List.mem_singleton.mpr rfl, ?_⟩
    rcases List.mem_cons.mp hx with rfl | hx
    · exact .refl
    · obtain ⟨w, hw, hr⟩ := h.origin hx
      exact .head hw hr
  closed hx y hy := by
    rcases List.mem_cons.mp hx with rfl | hx
    · exact h.covers hy
    · exact h.closed hx hy
  covers hw := by
    rw [List.mem_singleton.mp hw]
    exact h.mem_entered.mpr (.inr (List.mem_cons_self ..))
  parent {front x rest} heq := by
    cases front with
    | nil =>
      rw [List.nil_append, List.cons.injEq] at heq
      exact .inl (List.mem_singleton.mpr heq.1.symm)
    | cons w front =>
      rw [List.cons_append, List.cons.injEq] at heq
      obtain ⟨rfl, hnew⟩ := heq
      right
      rcases h.parent hnew with hx | ⟨p, hp, hx⟩
      · exact ⟨v, List.mem_cons_self .., hx⟩
      · exact ⟨p, List.mem_cons_of_mem _ hp, hx⟩

end Stretch

/-! ### The search -/

omit [DecidableEq α] in
theorem length_filter_lt {p q : α → Bool} {xs : List α} {x : α} (h : ∀ x, p x = true → q x = true)
    (hx : x ∈ xs) (hq : q x = true) (hp : p x ≠ true) :
    (xs.filter p).length < (xs.filter q).length := by
  have hsub : (xs.filter p).Sublist (xs.filter q) := List.monotone_filter_right xs h
  refine Nat.lt_of_le_of_ne hsub.length_le fun hlen => hp ?_
  have hin : x ∈ xs.filter q := List.mem_filter.mpr ⟨hx, hq⟩
  rw [← hsub.eq_of_length hlen] at hin
  exact (List.mem_filter.mp hin).2

/-- The nodes of a list that are still to be entered. -/
def unmet (all : List α) (t : Trail α) : List α := all.filter (· ∉ t.entered)

theorem unmet_le {all : List α} {t t' : Trail α} (h : t.entered <:+ t'.entered) :
    (unmet all t').length ≤ (unmet all t).length := by
  refine List.Sublist.length_le (List.monotone_filter_right all fun x hx => ?_)
  simp only [decide_eq_true_eq] at hx ⊢
  exact fun hin => hx (h.subset hin)

theorem unmet_lt {all : List α} {t : Trail α} {v : α} (hv : v ∈ all) (hnew : v ∉ t.entered) :
    (unmet all { t with entered := v :: t.entered }).length < (unmet all t).length := by
  refine length_filter_lt (fun x hx => ?_) hv (by simpa using hnew) (by simp)
  simp only [decide_eq_true_eq] at hx ⊢
  exact fun hin => hx (List.mem_cons_of_mem _ hin)

theorem mem_entered_of_unmet {all : List α} {t : Trail α} {v : α} (hv : v ∈ all)
    (h : (unmet all t).length ≤ 0) : v ∈ t.entered := by
  refine Classical.byContradiction fun hnot => ?_
  have hin : v ∈ unmet all t := List.mem_filter.mpr ⟨hv, decide_eq_true hnot⟩
  exact absurd (List.length_pos_of_mem hin) (Nat.not_lt.mpr h)

omit [DecidableEq α] in
theorem entered_suffix_foldl {f : Trail α → α → Trail α}
    (hf : ∀ t v, t.entered <:+ (f t v).entered) (vs : List α) (t : Trail α) :
    t.entered <:+ (vs.foldl f t).entered := by
  induction vs generalizing t with
  | nil => exact List.suffix_refl _
  | cons v vs ih => exact (hf t v).trans (ih (f t v))

/-- A search forgets nothing. -/
theorem entered_suffix_visit (fuel : Nat) (t : Trail α) (v : α) :
    t.entered <:+ (visit next fuel t v).entered := by
  induction fuel generalizing t v with
  | zero => exact List.suffix_refl _
  | succ fuel ih =>
    rw [visit]
    split
    · exact List.suffix_refl _
    · exact (List.suffix_cons v _).trans (entered_suffix_foldl ih (next v) ⟨v :: t.entered, t.left⟩)

/-- A search begins with its first root. -/
theorem preorder_cons (size : Nat) (r : α) (rs : List α) :
    ∃ rest, preorder next (size + 1) (r :: rs) = r :: rest := by
  have hfirst : [r] <:+ (visit next (size + 1) ⟨[], []⟩ r).entered := by
    rw [visit, if_neg List.not_mem_nil]
    exact entered_suffix_foldl (entered_suffix_visit size) (next r) ⟨[r], []⟩
  have hall : [r] <:+ (search next (size + 1) (r :: rs)).entered :=
    hfirst.trans (entered_suffix_foldl (entered_suffix_visit (size + 1)) rs _)
  obtain ⟨rest, hrest⟩ := List.reverse_prefix.mpr hall
  exact ⟨rest, hrest.symm⟩

section Search
variable {all : List α}

/-- Several visits in turn, if each of them is a stretch. -/
theorem foldl_stretch {fuel : Nat}
    (hvisit : ∀ t v, v ∈ all → (unmet all t).length ≤ fuel →
      ∃ new, Stretch next [v] t (visit next fuel t v) new)
    (vs : List α) (t : Trail α) (hvs : ∀ v ∈ vs, v ∈ all) (hfuel : (unmet all t).length ≤ fuel) :
    ∃ new, Stretch next vs t (vs.foldl (visit next fuel) t) new := by
  induction vs generalizing t with
  | nil => exact ⟨[], .nil t⟩
  | cons v vs ih =>
    obtain ⟨hv, hvs⟩ := List.forall_mem_cons.mp hvs
    obtain ⟨new, hnew⟩ := hvisit t v hv hfuel
    obtain ⟨new', hnew'⟩ := ih (visit next fuel t v) hvs
      (Nat.le_trans (unmet_le hnew.older) hfuel)
    exact ⟨new' ++ new, hnew.append hnew'⟩

variable (hall : ∀ v ∈ all, ∀ w ∈ next v, w ∈ all)
include hall

/-- **A visit is a stretch** when the bound covers the nodes still to be entered. -/
theorem visit_stretch (fuel : Nat) (t : Trail α) (v : α) (hv : v ∈ all)
    (hfuel : (unmet all t).length ≤ fuel) :
    ∃ new, Stretch next [v] t (visit next fuel t v) new := by
  induction fuel generalizing t v with
  | zero => exact ⟨[], .met (mem_entered_of_unmet hv hfuel)⟩
  | succ fuel ih =>
    rw [visit]
    split
    · rename_i hin
      exact ⟨[], .met hin⟩
    · rename_i hnew
      have hlt := unmet_lt hv hnew
      obtain ⟨new, hstretch⟩ := foldl_stretch ih (next v)
        { t with entered := v :: t.entered } (hall v hv) (by omega)
      exact ⟨v :: new, hstretch.visited hnew⟩

/-- **A whole search is a stretch.** -/
theorem search_stretch {size : Nat} (hsize : all.length ≤ size) {roots : List α}
    (hroots : ∀ r ∈ roots, r ∈ all) :
    Stretch next roots ⟨[], []⟩ (search next size roots) (search next size roots).left := by
  obtain ⟨new, h⟩ := foldl_stretch (visit_stretch hall size) roots ⟨[], []⟩ hroots
    (Nat.le_trans (List.length_filter_le ..) hsize)
  have hleft : (search next size roots).left = new := by
    have := h.left_eq
    rwa [List.append_nil] at this
  rw [hleft]
  exact h

/-- What a search enters is what its roots reach. -/
theorem mem_search_iff {size : Nat} (hsize : all.length ≤ size) {roots : List α}
    (hroots : ∀ r ∈ roots, r ∈ all) {x : α} :
    x ∈ (search next size roots).left ↔ ∃ r ∈ roots, Reaches next r x := by
  have h := search_stretch hall hsize hroots
  have hmem : ∀ {y}, y ∈ (search next size roots).entered → y ∈ (search next size roots).left :=
    fun hy => (h.mem_entered.mp hy).resolve_right List.not_mem_nil
  constructor
  · exact h.origin
  · rintro ⟨r, hr, hx⟩
    induction hx with
    | refl => exact hmem (h.covers hr)
    | tail _ hstep ih => exact hmem (h.closed ih hstep)

theorem mem_preorder_iff {size : Nat} (hsize : all.length ≤ size) {roots : List α}
    (hroots : ∀ r ∈ roots, r ∈ all) {x : α} :
    x ∈ preorder next size roots ↔ ∃ r ∈ roots, Reaches next r x := by
  rw [← mem_search_iff hall hsize hroots, preorder, List.mem_reverse,
    (search_stretch hall hsize hroots).mem_entered]
  exact or_iff_left List.not_mem_nil

theorem nodup_preorder {size : Nat} (hsize : all.length ≤ size) {roots : List α}
    (hroots : ∀ r ∈ roots, r ∈ all) : (preorder next size roots).Nodup :=
  List.nodup_reverse.mpr ((search_stretch hall hsize hroots).nodup_entered .nil)

theorem mem_postorder_iff {size : Nat} (hsize : all.length ≤ size) {roots : List α}
    (hroots : ∀ r ∈ roots, r ∈ all) {x : α} :
    x ∈ postorder next size roots ↔ ∃ r ∈ roots, Reaches next r x := by
  rw [← mem_search_iff hall hsize hroots, postorder, List.mem_reverse]

/-! ### Larger bounds -/

omit hall in
/-- Several visits in turn, if the bound makes no difference to each of them. -/
theorem foldl_visit_succ {fuel : Nat}
    (hvisit : ∀ t v, v ∈ all → (unmet all t).length ≤ fuel →
      visit next (fuel + 1) t v = visit next fuel t v)
    (vs : List α) (t : Trail α) (hvs : ∀ v ∈ vs, v ∈ all) (hfuel : (unmet all t).length ≤ fuel) :
    vs.foldl (visit next (fuel + 1)) t = vs.foldl (visit next fuel) t := by
  induction vs generalizing t with
  | nil => rfl
  | cons v vs ih =>
    obtain ⟨hv, hvs⟩ := List.forall_mem_cons.mp hvs
    rw [List.foldl_cons, List.foldl_cons, hvisit t v hv hfuel]
    exact ih _ hvs (Nat.le_trans (unmet_le (entered_suffix_visit fuel t v)) hfuel)

theorem visit_succ (fuel : Nat) (t : Trail α) (v : α) (hv : v ∈ all)
    (hfuel : (unmet all t).length ≤ fuel) : visit next (fuel + 1) t v = visit next fuel t v := by
  induction fuel generalizing t v with
  | zero => exact if_pos (mem_entered_of_unmet hv hfuel)
  | succ fuel ih =>
    rw [visit, visit]
    split
    · rfl
    · rename_i hnew
      have hlt := unmet_lt hv hnew
      rw [foldl_visit_succ ih (next v) { t with entered := v :: t.entered } (hall v hv) (by omega)]

/-- **A bound that covers all nodes** is as good as a larger one. -/
theorem preorder_of_le {size size' : Nat} (hsize : all.length ≤ size) (hle : size ≤ size')
    {roots : List α} (hroots : ∀ r ∈ roots, r ∈ all) :
    preorder next size' roots = preorder next size roots := by
  induction hle with
  | refl => rfl
  | @step size' hle ih =>
    have hfuel : (unmet all (⟨[], []⟩ : Trail α)).length ≤ size' :=
      Nat.le_trans (Nat.le_trans (List.length_filter_le ..) hsize) hle
    rw [← ih, preorder, search, foldl_visit_succ (visit_succ hall size') roots _ hroots hfuel]
    rfl

end Search

/-! ### Renamed nodes -/

section Renamed
variable {β : Type} [DecidableEq β] {next' : β → List β} {f : α → β} {all : List α}

/-- The record of a search under other names. -/
def Trail.map (f : α → β) (t : Trail α) : Trail β := ⟨t.entered.map f, t.left.map f⟩

theorem foldl_visit_map {fuel : Nat}
    (hvisit : ∀ t v, v ∈ all → (∀ x ∈ t.entered, x ∈ all) →
      visit next' fuel (t.map f) (f v) = (visit next fuel t v).map f ∧
        ∀ x ∈ (visit next fuel t v).entered, x ∈ all)
    (vs : List α) (t : Trail α) (hvs : ∀ v ∈ vs, v ∈ all) (ht : ∀ x ∈ t.entered, x ∈ all) :
    (vs.map f).foldl (visit next' fuel) (t.map f) = (vs.foldl (visit next fuel) t).map f ∧
      ∀ x ∈ (vs.foldl (visit next fuel) t).entered, x ∈ all := by
  induction vs generalizing t with
  | nil => exact ⟨rfl, ht⟩
  | cons v vs ih =>
    obtain ⟨hv, hvs⟩ := List.forall_mem_cons.mp hvs
    obtain ⟨hmap, hin⟩ := hvisit t v hv ht
    rw [List.map_cons, List.foldl_cons, List.foldl_cons, hmap]
    exact ih _ hvs hin

variable (hall : ∀ v ∈ all, ∀ w ∈ next v, w ∈ all) (hnext : ∀ v ∈ all, next' (f v) = (next v).map f)
  (hinj : ∀ x ∈ all, ∀ y ∈ all, f x = f y → x = y)
include hall hnext hinj

theorem visit_map (fuel : Nat) (t : Trail α) (v : α) (hv : v ∈ all)
    (ht : ∀ x ∈ t.entered, x ∈ all) :
    visit next' fuel (t.map f) (f v) = (visit next fuel t v).map f ∧
      ∀ x ∈ (visit next fuel t v).entered, x ∈ all := by
  induction fuel generalizing t v with
  | zero => exact ⟨rfl, ht⟩
  | succ fuel ih =>
    have hmem : f v ∈ (t.map f).entered ↔ v ∈ t.entered := by
      refine ⟨fun hin => ?_, List.mem_map_of_mem⟩
      obtain ⟨x, hx, heq⟩ := List.mem_map.mp hin
      exact hinj x (ht x hx) v hv heq ▸ hx
    rw [visit, visit]
    by_cases hin : v ∈ t.entered
    · rw [if_pos hin, if_pos (hmem.mpr hin)]
      exact ⟨rfl, ht⟩
    · obtain ⟨hmap, hinner⟩ := foldl_visit_map ih (next v) { t with entered := v :: t.entered }
        (hall v hv) (List.forall_mem_cons.mpr ⟨hv, ht⟩)
      rw [if_neg hin, if_neg (mt hmem.mp hin), hnext v hv]
      exact ⟨congrArg (fun inner => ({ inner with left := f v :: inner.left } : Trail β)) hmap,
        hinner⟩

/-- **A search under other names** meets the renamed nodes in the same order. -/
theorem preorder_map (size : Nat) {roots : List α} (hroots : ∀ r ∈ roots, r ∈ all) :
    preorder next' size (roots.map f) = (preorder next size roots).map f := by
  have hsearch : search next' size (roots.map f) = (search next size roots).map f :=
    (foldl_visit_map (visit_map hall hnext hinj size) roots ⟨[], []⟩ hroots nofun).1
  rw [preorder, hsearch, preorder, List.map_reverse]
  rfl

end Renamed
end DepthFirst
end FlowGraph
