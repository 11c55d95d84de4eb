import FlowGraph.Proofs.Bypass

/-! # Contracting a graph along its empty blocks

A block that does nothing can be taken out for good, and then every edge into it leads to where it
led.  Doing so again and again gives each block of the graph a block that stands for it: the one
itself as long as it is there, and else the one where control gets from it through blocks that do
nothing.

What is left when no more block can be taken out is therefore known without following the passes: in
it every empty block leads to itself, and an edge leads to what stands for its old target.
-/
namespace FlowGraph
namespace Graph

variable {g g' g'' : Graph}

/-- Control passes a block that does nothing. -/
def Passes (g : Graph) (a b : BlockId) : Prop := g.kind? a = some .empty ∧ g.Leads a b

/-- **A graph is contracted**: some of its empty blocks are taken out, and `onto` tells which block
stands for a block now. -/
structure Contracts (g g' : Graph) (onto : BlockId → BlockId) : Prop where
  kind?_eq : ∀ {b k}, g'.kind? b = some k → g.kind? b = some k
  kept : ∀ {b k}, g.Reachable b → g.kind? b = some k → k ≠ .empty → g'.kind? b = some k
  edge : ∀ {e b t d}, g'.edge? e = some ⟨b, t, d⟩ →
    ∃ e' t', g.edge? e' = some ⟨b, t', d⟩ ∧ t = onto t'
  fixed : ∀ {b k}, g'.kind? b = some k → onto b = b
  reachable : ∀ {b}, g.Reachable b → g'.Reachable (onto b)
  passes : ∀ {b}, g.Reachable b → Relation.ReflTransGen g.Passes b (onto b)
  gone : ∀ {b c}, g.Reachable b → g.kind? b = some .empty → g'.kind? b = none → g.Leads b c →
    onto b = onto c

theorem Reachable.passes {a b : BlockId} (ha : g.Reachable a)
    (h : Relation.ReflTransGen g.Passes a b) : g.Reachable b := by
  induction h with
  | refl => exact ha
  | tail _ hlast ih => exact ih.step hlast.2

/-- An empty block leads one way. -/
theorem WellFormed.eq_of_passes (hg : g.WellFormed) {a b c : BlockId} (hk : g.kind? a = some .empty)
    (hb : g.Leads a b) (hc : g.Leads a c) : b = c := by
  obtain ⟨e, s, he⟩ := (hg.wired.ways hk nofun .always).mpr List.mem_cons_self
  rw [hg.eq_of_leads_empty hk he hb, hg.eq_of_leads_empty hk he hc]

namespace Contracts

variable {onto onto' : BlockId → BlockId}

theorem refl (g : Graph) : Contracts g g id where
  kind?_eq := id
  kept _ hk _ := hk
  edge he := ⟨_, _, he, rfl⟩
  fixed _ := rfl
  reachable := id
  passes _ := .refl
  gone _ hk hnone _ := by
    rw [hk] at hnone
    cases hnone

/-- Nothing is reached that was not reached before. -/
theorem reachable_before (h : Contracts g g' onto) {b : BlockId} (hb : g'.Reachable b) :
    g.Reachable b := by
  obtain ⟨p, hp⟩ := hb
  induction hp with
  | start => exact .entry
  | step _ hl ih =>
    obtain ⟨e, d, he⟩ := hl
    obtain ⟨e', t, he', rfl⟩ := h.edge he
    have ht := ih.step ⟨e', d, he'⟩
    exact ht.passes (h.passes ht)

/-- Passing empty blocks of the contracted graph is passing empty blocks. -/
theorem passes_before (h : Contracts g g' onto) {a b : BlockId} (ha : g'.Reachable a)
    (hpasses : Relation.ReflTransGen g'.Passes a b) : Relation.ReflTransGen g.Passes a b := by
  induction hpasses with
  | refl => exact .refl
  | @tail c b hac hlast ih =>
    obtain ⟨hk, e, d, he⟩ := hlast
    obtain ⟨e', t, he', rfl⟩ := h.edge he
    have hc := h.reachable_before (ha.passes hac)
    have ht := hc.step ⟨e', d, he'⟩
    exact (ih.tail ⟨h.kind?_eq hk, e', d, he'⟩).trans (h.passes ht)

theorem trans (h : Contracts g g' onto) (h' : Contracts g' g'' onto') (hg : g.WellFormed)
    (hg' : g'.WellFormed) : Contracts g g'' (onto' ∘ onto) where
  kind?_eq hk := h.kind?_eq (h'.kind?_eq hk)
  kept {b k} hb hk hne := by
    have hk' := h.kept hb hk hne
    have hb' : g'.Reachable b := h.fixed hk' ▸ h.reachable hb
    exact h'.kept hb' hk' hne
  edge he := by
    obtain ⟨e₁, t₁, he₁, rfl⟩ := h'.edge he
    obtain ⟨e₂, t₂, he₂, rfl⟩ := h.edge he₁
    exact ⟨e₂, t₂, he₂, rfl⟩
  fixed {b k} hk := by
    rw [Function.comp_apply, h.fixed (h'.kind?_eq hk), h'.fixed hk]
  reachable hb := h'.reachable (h.reachable hb)
  passes hb := (h.passes hb).trans (h.passes_before (h.reachable hb) (h'.passes (h.reachable hb)))
  gone {b c} hb hk hnone hl := by
    cases hk' : g'.kind? b with
    | none => exact congrArg onto' (h.gone hb hk hk' hl)
    | some k =>
      -- The block is still there after the first part, with its edge led on.
      obtain rfl : .empty = k := Option.some.inj (hk.symm.trans (h.kind?_eq hk'))
      obtain ⟨e, t, he⟩ := (hg'.wired.ways hk' nofun .always).mpr List.mem_cons_self
      obtain ⟨e', t', he', rfl⟩ := h.edge he
      obtain rfl : t' = c := hg.eq_of_passes hk ⟨e', _, he'⟩ hl
      have hfixed := h.fixed hk'
      have hb' : g'.Reachable b := hfixed ▸ h.reachable hb
      rw [Function.comp_apply, Function.comp_apply, hfixed]
      exact h'.gone hb' hk' hnone ⟨e, _, he⟩

/-- An edge leads to what stands for its old target. -/
theorem exists_edge (h : Contracts g g' onto) (hg : g.WellFormed) (hg' : g'.WellFormed) {e : EdgeId}
    {b t : BlockId} {d : Direction} (he : g.edge? e = some ⟨b, t, d⟩) {k : Kind}
    (hk : g'.kind? b = some k) : ∃ e', g'.edge? e' = some ⟨b, onto t, d⟩ := by
  have hk₀ := h.kind?_eq hk
  have hne := hg.kind_ne_exit he hk₀
  have hd := (hg.wired.ways hk₀ hne d).mp ⟨e, t, he⟩
  obtain ⟨e', t', he'⟩ := (hg'.wired.ways hk hne d).mpr hd
  obtain ⟨e₁, t₁, he₁, rfl⟩ := h.edge he'
  obtain rfl := hg.edge_unique he₁ he
  rw [he] at he₁
  cases he₁
  exact ⟨e', he'⟩

end Contracts

/-! ### Blocks that lead to themselves -/

/-- A block cannot be taken out: if it is empty, it leads to itself. -/
def SettledAt (g : Graph) (b : BlockId) : Prop :=
  g.kind? b = some .empty → ∀ ⦃t⦄, g.Leads b t → t = b

/-- **No empty block can be taken out**: each leads to itself. -/
def Settled (g : Graph) : Prop := ∀ b, g.SettledAt b

/-- What cannot be taken out stays so. -/
theorem Contracts.settledAt {onto : BlockId → BlockId} (h : Contracts g g' onto) {b : BlockId}
    (hb : g.SettledAt b) : g'.SettledAt b := by
  rintro hk t ⟨e, d, he⟩
  obtain ⟨e', t', he', rfl⟩ := h.edge he
  rw [hb (h.kind?_eq hk) ⟨e', d, he'⟩, h.fixed hk]

/-- Where no more block can be taken out, one thing stands for an empty block and for its successor.
-/
theorem Contracts.onto_eq {onto : BlockId → BlockId} (h : Contracts g g' onto) (hg : g.WellFormed)
    (hg' : g'.WellFormed) (hsettled : g'.Settled) {b c : BlockId} (hb : g.Reachable b)
    (hk : g.kind? b = some .empty) (hl : g.Leads b c) : onto b = onto c := by
  cases hk' : g'.kind? b with
  | none => exact h.gone hb hk hk' hl
  | some k =>
    obtain rfl : .empty = k := Option.some.inj (hk.symm.trans (h.kind?_eq hk'))
    obtain ⟨e, d, he⟩ := hl
    obtain ⟨e', he'⟩ := h.exists_edge hg hg' he hk'
    rw [h.fixed hk', hsettled b hk' ⟨e', d, he'⟩]

/-! ### The steps of a contraction -/

/-- Removing what is not reached takes out nothing that matters. -/
theorem Restricts.contracts (hg : g.WellFormed) (h : Restricts g g' (· ∈ g.unreachable)) :
    Contracts g g' id where
  kind?_eq hk := (h.kind?_eq_some hk).2
  kept hb hk _ := (h.kind?_of_left (hg.notMem_unreachable hb)).trans hk
  edge he := ⟨_, _, (h.edge?_iff.mp he).1, rfl⟩
  fixed _ := rfl
  reachable hb := ((hg.restricts_unreachable h).2.1 _).mpr hb
  passes _ := .refl
  gone hb hk hnone _ := by
    rw [h.kind?_of_left (hg.notMem_unreachable hb), hk] at hnone
    cases hnone

theorem mem_of_redirectAll {s : BlockId} {es : List EdgeId} {old new : EdgeId}
    (h : (old, new) ∈ (g.redirectAll s es).1) : old ∈ es := by
  induction es generalizing g with
  | nil => cases h
  | cons e es ih =>
    rw [redirectAll] at h
    split at h
    · exact List.mem_cons_of_mem _ (ih h)
    · rcases List.mem_cons.mp h with heq | h
      · cases heq
        exact List.mem_cons_self
      · exact List.mem_cons_of_mem _ (ih h)

/-- **The edges led to another target** are the old ones but for their ends and handles. -/
theorem edge?_redirectAll {x s : BlockId} (hsx : s ≠ x) {es : List EdgeId} (hnodup : es.Nodup)
    (hes : ∀ e ∈ es, ∃ a d, g.edge? e = some ⟨a, x, d⟩) {e : EdgeId} {edge : Edge} :
    (g.redirectAll s es).2.edge? e = some edge ↔
      g.edge? e = some edge ∧ e ∉ es ∨ ∃ old a d, (old, e) ∈ (g.redirectAll s es).1 ∧
        g.edge? old = some ⟨a, x, d⟩ ∧ edge = ⟨a, s, d⟩ := by
  induction es generalizing g with
  | nil => simp [redirectAll]
  | cons e₁ es ih =>
    obtain ⟨⟨a₁, d₁, he₁⟩, hes⟩ := List.forall_mem_cons.mp hes
    obtain ⟨hnotin, hnodup⟩ := List.nodup_cons.mp hnodup
    have hafter : ∀ {e' y}, (g.redirect e₁ ⟨a₁, x, d₁⟩ s).2.edge? e' = some y ↔
        e' ≠ e₁ ∧ g.edge? e' = some y ∨ e' = g.headOf ∧ y = ⟨a₁, s, d₁⟩ :=
      edge?_redirect_eq_some he₁
    have hother : ∀ {e'}, e' ∈ es → e' ≠ e₁ := fun hin heq => hnotin (heq ▸ hin)
    -- The new handle is not waiting to be led elsewhere itself.
    have hfresh : g.headOf ∉ es := fun hin => by
      obtain ⟨a, d, he'⟩ := hes _ hin
      rw [edge?_headOf] at he'
      cases he'
    have heq : g.redirectAll s (e₁ :: es) =
        ((e₁, g.headOf) :: ((g.redirect e₁ ⟨a₁, x, d₁⟩ s).2.redirectAll s es).1,
          ((g.redirect e₁ ⟨a₁, x, d₁⟩ s).2.redirectAll s es).2) := by
      rw [redirectAll, he₁]
      rfl
    rw [heq, ih hnodup (edge?_redirect_others he₁ hnotin hes), hafter]
    constructor
    · rintro (⟨⟨hne, he⟩ | ⟨rfl, rfl⟩, hnot⟩ | ⟨old, a, d, hin, hold, rfl⟩)
      · exact .inl ⟨he, List.not_mem_cons_of_ne_of_not_mem hne hnot⟩
      · exact .inr ⟨e₁, a₁, d₁, List.mem_cons_self, he₁, rfl⟩
      · rcases hafter.mp hold with ⟨-, hold⟩ | ⟨-, hnew⟩
        · exact .inr ⟨old, a, d, List.mem_cons_of_mem _ hin, hold, rfl⟩
        · cases hnew
          exact absurd rfl hsx
    · rintro (⟨he, hnot⟩ | ⟨old, a, d, hin, hold, rfl⟩)
      · rw [List.mem_cons, not_or] at hnot
        exact .inl ⟨.inl ⟨hnot.1, he⟩, hnot.2⟩
      · rcases List.mem_cons.mp hin with hfirst | hin
        · cases hfirst
          rw [he₁] at hold
          cases hold
          exact .inl ⟨.inr ⟨rfl, rfl⟩, hfresh⟩
        · have hne := hother (mem_of_redirectAll hin)
          exact .inr ⟨old, a, d, hin, hafter.mpr (.inl ⟨hne, hold⟩), rfl⟩

section
variable (hg : g.WellFormed) {x s : BlockId} {link : EdgeId} (hx : g.kind? x = some .empty)
  (hlink : g.edge? link = some ⟨x, s, .always⟩) (hsx : s ≠ x)
include hg hx hlink hsx

/-- **Taking an empty block out** lets its successor stand for it. -/
theorem LeadsPast.contracts (h : LeadsPast g g' x)
    (hedge : ∀ {e a t d}, g'.edge? e = some ⟨a, t, d⟩ →
      ∃ e' t', g.edge? e' = some ⟨a, t', d⟩ ∧ (t = t' ∨ t' = x ∧ t = s))
    (hclosed : ∀ {e a d}, g'.edge? e ≠ some ⟨a, x, d⟩) :
    Contracts g (g'.removeBlock x) fun b => if b = x then s else b where
  kind?_eq {b k} hk := by
    have hk' := ((h.wellFormed.listed.removeBlock x).kind?_eq_some hk).2
    exact (h.kind?_eq b).symm.trans hk'
  kept {b k} hb hk hne := by
    have hbx : b ≠ x := fun heq => by
      rw [heq, hx] at hk
      exact hne (Option.some.inj hk).symm
    rw [(h.wellFormed.listed.removeBlock x).kind?_of_left hbx, h.kind?_eq, hk]
  edge {e a t d} he := by
    obtain ⟨he', -, htx⟩ := (h.wellFormed.listed.removeBlock x).edge?_iff.mp he
    obtain ⟨e', t', hold, rfl | ⟨rfl, rfl⟩⟩ := hedge he'
    · exact ⟨e', t, hold, (if_neg htx).symm⟩
    · exact ⟨e', t', hold, (if_pos rfl).symm⟩
  fixed {b k} hk := if_neg ((h.wellFormed.listed.removeBlock x).kind?_eq_some hk).1
  reachable {b} hb := by
    have hentry : ¬ entry = x := fun heq => hg.ne_entry hx nofun heq.symm
    rw [(h.wellFormed.listed.removeBlock x).reachable_iff hentry fun he _ htx => hclosed (htx ▸ he)]
    split
    · rename_i heq
      exact h.reachable hsx ((heq ▸ hb).step ⟨link, _, hlink⟩)
    · rename_i hne
      exact h.reachable hne hb
  passes {b} hb := by
    split
    · rename_i heq
      subst heq
      exact .single ⟨hx, link, _, hlink⟩
    · exact .refl
  gone {b c} hb hk hnone hl := by
    have hbx : b = x := by_contra fun hne => by
      rw [(h.wellFormed.listed.removeBlock x).kind?_of_left hne, h.kind?_eq, hk] at hnone
      cases hnone
    subst hbx
    obtain rfl := hg.eq_of_leads_empty hx hlink hl
    rw [if_pos rfl, if_neg hsx]

end

end Graph
end FlowGraph
