import FlowGraph.Proofs.Trimming

/-! # Where blocks stand in the full list

Before anything is left out, each block but the exit has a segment of the full statement list, which
begins with the label of the block.  The segments come in the order of the layout, so what stays of
a later one when the list is trimmed comes behind what stays of an earlier one.
-/
namespace FlowGraph

namespace Graph

/-- In one direction a block leads to one block. -/
theorem WellFormed.target_unique {g : Graph} (hg : g.WellFormed) {b t t' : BlockId} {d : Direction}
    {e e' : EdgeId} (h : g.edge? e = some ⟨b, t, d⟩) (h' : g.edge? e' = some ⟨b, t', d⟩) :
    t = t' := by
  rw [hg.edge_unique h h', h'] at h
  cases h
  rfl

end Graph

namespace Layout

variable {g : Graph}

/-- The statements of a list from the label of a block on. -/
def fromBlock (g : Graph) (all : List Statement) (b : BlockId) : List Statement :=
  all.dropWhile (· ≠ .label (labelOf (labels g) b))

/-- A block is laid out in one way. -/
theorem Emits.eq (hg : g.WellFormed) {b : BlockId} {ss ss' : List Statement} {k : Kind}
    (h : Emits g b ss k) (h' : Emits g b ss' k) : ss = ss' := by
  cases k with
  | exit => exact Eq.trans h (Eq.symm h')
  | branch br =>
    obtain ⟨e₁, t₁, e₂, t₂, h₁, h₂, rfl⟩ := h
    obtain ⟨e₁', t₁', e₂', t₂', h₁', h₂', rfl⟩ := h'
    rw [hg.target_unique h₁ h₁', hg.target_unique h₂ h₂']
  | _ =>
    obtain ⟨e, t, he, rfl⟩ := h
    obtain ⟨e', t', he', rfl⟩ := h'
    rw [hg.target_unique he he']

/-- A block jumps to labels of the blocks that it leads to. -/
theorem Emits.targets (hs : g.Straight) {b : BlockId} {ss : List Statement} {k : Kind}
    (hk : g.kind? b = some k) (h : Emits g b ss k) {l : Label}
    (hl : l ∈ ss.flatMap Statement.targets) :
    ∃ e t d, g.edge? e = some ⟨b, t, d⟩ ∧ l = labelOf (labels g) t := by
  cases k with
  | exit =>
    obtain rfl : ss = [] := h
    cases hl
  | branch br =>
    obtain ⟨e₁, t₁, e₂, t₂, h₁, h₂, rfl⟩ := h
    have hl : l = labelOf (labels g) t₁ ∨ l = labelOf (labels g) t₂ := by
      simpa [Statement.targets] using hl
    rcases hl with rfl | rfl
    · exact ⟨e₁, t₁, _, h₁, rfl⟩
    · exact ⟨e₂, t₂, _, h₂, rfl⟩
  | statement s =>
    obtain ⟨e, t, he, rfl⟩ := h
    have hkind := hs hk
    have hnone : s.targets = [] := by
      cases s with
      | goto l => cases hkind
      | branch br => cases hkind
      | _ => rfl
    have hl : l ∈ s.targets ++ [labelOf (labels g) t] := by simpa [Statement.targets] using hl
    rw [hnone] at hl
    exact ⟨e, t, _, he, List.mem_singleton.mp hl⟩
  | _ =>
    obtain ⟨e, t, he, rfl⟩ := h
    have hl : l = labelOf (labels g) t := by simpa [Statement.targets] using hl
    exact ⟨e, t, _, he, hl⟩

/-- Control is at the segment of a block when it comes to its label. -/
theorem Emits.fromBlock_eq {all front rest ss : List Statement} (honce : DeclaresOnce all)
    {b : BlockId} {k : Kind} (h : Emits g b ss k) (hne : k ≠ .exit)
    (hsplit : all = front ++ (ss ++ rest)) : fromBlock g all b = ss ++ rest := by
  obtain ⟨tail, rfl⟩ := h.eq_cons hne
  exact dropWhile_of_suffix honce ⟨front, hsplit.symm⟩

namespace Laid

theorem exists_kind {order : List BlockId} {blocks : List (List Statement)}
    (h : Laid g order blocks) {b : BlockId} (hb : b ∈ order) : ∃ k, g.kind? b = some k := by
  induction h with
  | nil => cases hb
  | cons hhead _ ih =>
    rcases List.mem_cons.mp hb with rfl | hb
    · exact ⟨hhead.choose, hhead.choose_spec.1⟩
    · exact ih hb

theorem targets (hs : g.Straight) {order : List BlockId} {blocks : List (List Statement)}
    (h : Laid g order blocks) {l : Label} (hl : l ∈ blocks.flatten.flatMap Statement.targets) :
    ∃ e b t d, g.edge? e = some ⟨b, t, d⟩ ∧ l = labelOf (labels g) t := by
  induction h with
  | nil => cases hl
  | cons hhead _ ih =>
    rw [List.flatten_cons, List.flatMap_append, List.mem_append] at hl
    rcases hl with hl | hl
    · obtain ⟨k, hk, hemits⟩ := hhead
      obtain ⟨e, t, d, he, heq⟩ := hemits.targets hs hk hl
      exact ⟨e, _, t, d, he, heq⟩
    · exact ih hl

/-- **Segments come in the order of the blocks**: a later one stands in what follows an earlier one.
-/
theorem pairwise (hg : g.WellFormed) {order : List BlockId} {blocks : List (List Statement)}
    (h : Laid g order blocks) {all front tail : List Statement} (honce : DeclaresOnce all)
    (hsplit : all = front ++ (blocks.flatten ++ tail)) :
    order.Pairwise fun b b' => b ≠ Graph.exit → b' ≠ Graph.exit →
      ∃ k seg after, g.kind? b = some k ∧ Emits g b seg k ∧ fromBlock g all b = seg ++ after ∧
        fromBlock g all b' <:+ after := by
  induction h generalizing front with
  | nil => exact .nil
  | @cons b seg order blocks hhead hrest ih =>
    have hnext : all = (front ++ seg) ++ (blocks.flatten ++ tail) := by
      rw [hsplit, List.flatten_cons, List.append_assoc, List.append_assoc]
    refine .cons (fun b' hb' hne hne' => ?_) (ih hnext)
    obtain ⟨k, hk, hemits⟩ := hhead
    obtain ⟨k', hk'⟩ := exists_kind hrest hb'
    have hkexit : k ≠ .exit := fun heq => hne (hg.exit_only (heq ▸ hk))
    have hkexit' : k' ≠ .exit := fun heq => hne' (hg.exit_only (heq ▸ hk'))
    have hfrom : fromBlock g all b = seg ++ (blocks.flatten ++ tail) :=
      hemits.fromBlock_eq honce hkexit (hnext.trans (List.append_assoc ..))
    refine ⟨k, seg, blocks.flatten ++ tail, hk, hemits, hfrom, ?_⟩
    obtain ⟨front', seg', rest', hflat, hemits'⟩ := exists_split hrest hb' hk'
    have hsplit' : all = (front ++ seg ++ front') ++ (seg' ++ (rest' ++ tail)) := by
      rw [hnext, hflat]
      simp only [List.append_assoc]
    rw [hemits'.fromBlock_eq honce hkexit' hsplit', hflat]
    exact ⟨front', by simp only [List.append_assoc]⟩

end Laid

section
variable {blocks : List (List Statement)} (hg : g.WellFormed) (hs : g.Straight)
  (h : Laid g g.layoutOrder blocks)
include hg hs h

/-- The label of every block is declared. -/
theorem mem_whole_label {b : BlockId} {block : Block} (hb : g.block? b = some block) :
    .label (labelOf (labels g) b) ∈ whole g blocks := by
  by_cases hexit : b = Graph.exit
  · rw [hexit]
    exact List.mem_append_right _ (List.mem_singleton.mpr rfl)
  · refine List.mem_append_left _ (mem_declared_iff.mp ?_)
    rw [h.declared_eq hg hs]
    have hin : b ∈ g.layoutOrder := hg.mem_layoutOrder.mpr ⟨block, hb⟩
    exact List.mem_map_of_mem (List.mem_filter.mpr ⟨hin, decide_eq_true hexit⟩)

/-- Every label that is jumped to is declared. -/
theorem declared_of_target {l : Label} (hl : l ∈ (whole g blocks).flatMap Statement.targets) :
    l ∈ declared (whole g blocks) := by
  have hl : l ∈ blocks.flatten.flatMap Statement.targets := by
    rw [whole, List.flatMap_append, List.mem_append] at hl
    rcases hl with hl | hl
    · exact hl
    · simp [Statement.targets] at hl
  obtain ⟨e, b, t, d, he, rfl⟩ := h.targets hs hl
  obtain ⟨block, ht⟩ := hg.listed.target_live he
  exact mem_declared (mem_whole_label hg hs h ht)

/-- The full list has a segment for every block but the exit. -/
theorem exists_segment {b : BlockId} {k : Kind} (hk : g.kind? b = some k) (hne : k ≠ .exit) :
    ∃ seg after, Emits g b seg k ∧ fromBlock g (whole g blocks) b = seg ++ after := by
  obtain ⟨block, hb, -⟩ := Graph.block?_of_kind? hk
  obtain ⟨front, seg, rest, hflat, hemits⟩ :=
    h.exists_split (hg.mem_layoutOrder.mpr ⟨block, hb⟩) hk
  have hsplit : whole g blocks =
      front ++ (seg ++ (rest ++ [.label (labelOf (labels g) Graph.exit)])) := by
    rw [whole, hflat]
    simp only [List.append_assoc]
  exact ⟨seg, _, hemits, hemits.fromBlock_eq (declaresOnce_whole hg hs h) hne hsplit⟩

theorem fromBlock_exit : fromBlock g (whole g blocks) Graph.exit =
    [.label (labelOf (labels g) Graph.exit)] :=
  dropWhile_of_suffix (declaresOnce_whole hg hs h) ⟨blocks.flatten, rfl⟩

theorem fromBlock_entry : fromBlock g (whole g blocks) Graph.entry = whole g blocks := by
  obtain ⟨rest, horder⟩ := hg.layoutOrder_eq_cons
  have hlaid := h
  rw [Laid, horder] at hlaid
  cases hlaid with
  | @cons _ seg _ blocks hentry _ =>
    obtain ⟨k, hk, hemits⟩ := hentry
    rw [hg.wired.entry_kind] at hk
    cases hk
    have hsplit : whole g (seg :: blocks) =
        seg ++ (blocks.flatten ++ [.label (labelOf (labels g) Graph.exit)]) := by
      rw [whole, List.flatten_cons, List.append_assoc]
    rw [hsplit]
    exact hemits.fromBlock_eq (hsplit ▸ declaresOnce_whole hg hs h) Kind.noConfusion
      (List.nil_append _).symm

end
end Layout
end FlowGraph
