import FlowGraph.Proofs.Rebuilding

/-! # A layout is clean

No label is declared twice or for nothing, no jump leads nowhere or to the statement behind it, and
what blocks do stands in the list once for each of them.

Labels are left out after jumps, so a label that goes might leave a jump in front of its own label.
It does not: a label behind a jump that stays is that of a block which is entered from somewhere
else, and the jump from there stays too.  Only the label of the exit may go from behind a jump, and
nothing follows it.
-/
namespace FlowGraph

/-- Whether a statement is more than a label or a jump. -/
def Statement.works : Statement → Bool
  | .label _ | .goto _ => false
  | _ => true

/-- A block that is not terminal is entered, if that was checked. -/
theorem Graph.WellFormed.exists_entering {g : Graph} (hg : g.WellFormed)
    (hentered : g.checkEntered = .ok ()) {b : BlockId} {block : Block}
    (hb : g.block? b = some block)
    (hentry : b ≠ entry) (hexit : b ≠ exit) : ∃ e a d, g.edge? e = some ⟨a, b, d⟩ := by
  obtain ⟨-, -, hall⟩ := bind_eq_ok.mp hentered
  have hdemand := demand_eq_ok.mp (forM_eq_ok.mp hall block (mem_liveBlocks.mpr ⟨b, hb⟩))
  rw [(hg.isTerminal_eq_false_iff (kind?_of_block? hb)).mpr ⟨hentry, hexit⟩, Bool.false_or,
    Bool.not_eq_true', List.isEmpty_eq_false_iff] at hdemand
  obtain ⟨e, he⟩ := List.exists_mem_of_ne_nil _ hdemand
  obtain ⟨⟨a, _, d⟩, hedge, rfl⟩ := (hg.listed.mem_preds hb e).mp he
  exact ⟨e, a, d, hedge⟩

namespace Layout

/-- **A clean statement list.** -/
structure Clean (ss : List Statement) : Prop where
  /-- No label is declared twice. -/
  nodup : (declared ss).Nodup
  /-- No jump leads nowhere. -/
  declared_of_target : ∀ s ∈ ss, ∀ l ∈ s.targets, l ∈ declared ss
  /-- No label is declared for nothing. -/
  target_of_declared : ∀ l ∈ declared ss, ∃ s ∈ ss, l ∈ s.targets
  /-- No jump leads to the statement behind it. -/
  not_onward : ∀ l, ¬ [.goto l, .label l] <:+: ss

/-- **What a block says**: its own statement, or its branch toward the labels of where it leads. -/
inductive Says (g : Graph) (b : BlockId) : Statement → Prop where
  | statement {s : Statement} : g.kind? b = some (.statement s) → Says g b s
  | branch {br : Branch} {e e' : EdgeId} {t f : BlockId} : g.kind? b = some (.branch br) →
      g.edge? e = some ⟨b, t, .onTrue⟩ → g.edge? e' = some ⟨b, f, .onFalse⟩ →
      Says g b (.branch { br with ifTrue := labelOf (labels g) t, ifFalse := labelOf (labels g) f })

/-! ### What stands behind a jump -/

/-- What is next to each other after filtering was so before, or something else stood between. -/
theorem infix_of_filter {α : Type} {p : α → Bool} {x y : α} {xs : List α}
    (h : [x, y] <:+: xs.filter p) :
    [x, y] <:+: xs ∨ ∃ z w, p z = false ∧ [x, z, w] <:+: xs := by
  induction xs with
  | nil => simp at h
  | cons z xs ih =>
    have hrest : [x, y] <:+: xs.filter p →
        [x, y] <:+: z :: xs ∨ ∃ z' w, p z' = false ∧ [x, z', w] <:+: z :: xs := by
      intro h
      refine (ih h).imp (·.trans (List.suffix_cons ..).isInfix) ?_
      rintro ⟨z', w, hz', hin⟩
      exact ⟨z', w, hz', hin.trans (List.suffix_cons ..).isInfix⟩
    cases hz : p z with
    | false =>
      rw [List.filter_cons_of_neg (by simp [hz])] at h
      exact hrest h
    | true =>
      rw [List.filter_cons_of_pos hz] at h
      rcases List.infix_cons_iff.mp h with hhead | htail
      · obtain ⟨rfl, hy⟩ := List.cons_prefix_cons.mp hhead
        cases xs with
        | nil => simp at hy
        | cons w ys =>
          cases hw : p w with
          | true =>
            rw [List.filter_cons_of_pos hw] at hy
            obtain ⟨rfl, -⟩ := List.cons_prefix_cons.mp hy
            exact .inl ⟨[], ys, rfl⟩
          | false =>
            -- The next element goes, and another one comes behind it.
            rw [List.filter_cons_of_neg (by simp [hw])] at hy
            cases ys with
            | nil => simp at hy
            | cons w' ys => exact .inr ⟨w, w', hw, [], ys, rfl⟩
      · exact hrest htail

/-- Every jump stands in front of a label. -/
def JumpsLast (ss : List Statement) : Prop :=
  ∀ ⦃l s⦄, [.goto l, s] <:+: ss → ∃ m, s = .label m

theorem JumpsLast.tail {s : Statement} {ss : List Statement} (h : JumpsLast (s :: ss)) :
    JumpsLast ss :=
  fun _ _ hin => h (hin.trans (List.suffix_cons ..).isInfix)

theorem JumpsLast.cons {ss : List Statement} (h : JumpsLast ss) {s : Statement}
    (hs : ∀ l, s ≠ .goto l) : JumpsLast (s :: ss) := by
  intro l s' hin
  rcases List.infix_cons_iff.mp hin with hhead | htail
  · exact absurd (List.cons_prefix_cons.mp hhead).1.symm (hs l)
  · exact h htail

theorem JumpsLast.goto {m : Label} {ss : List Statement} (h : JumpsLast (.label m :: ss))
    (l : Label) :
    JumpsLast (.goto l :: .label m :: ss) := by
  intro l' s hin
  rcases List.infix_cons_iff.mp hin with hhead | htail
  · obtain ⟨-, hs⟩ := List.cons_prefix_cons.mp hhead
    exact ⟨m, (List.cons_prefix_cons.mp hs).1⟩
  · exact h htail

/-- A jump that stays does not lead to the label behind it. -/
theorem infix_of_dropFallthrough {ss : List Statement} (hjumps : JumpsLast ss) {l : Label}
    {s : Statement} (h : [.goto l, s] <:+: dropFallthrough ss) :
    [.goto l, s] <:+: ss ∧ s ≠ .label l := by
  induction ss with
  | nil => simp [dropFallthrough] at h
  | cons x ss ih =>
    have hrest : [.goto l, s] <:+: dropFallthrough ss → [.goto l, s] <:+: x :: ss ∧ s ≠ .label l :=
      fun h => (ih hjumps.tail h).imp_left (·.trans (List.suffix_cons ..).isInfix)
    rcases dropFallthrough_cases x ss with ⟨m, rest, rfl, rfl⟩ | hcons
    · rw [dropFallthrough_goto, ← dropFallthrough_label] at h
      exact hrest h
    · have hstays := hcons
      rw [hcons] at h
      rcases List.infix_cons_iff.mp h with hhead | htail
      · obtain ⟨rfl, hs⟩ := List.cons_prefix_cons.mp hhead
        cases ss with
        | nil => simp [dropFallthrough] at hs
        | cons y ss =>
          obtain ⟨m, rfl⟩ := @hjumps l y ⟨[], ss, rfl⟩
          rw [dropFallthrough_label] at hs
          obtain ⟨rfl, -⟩ := List.cons_prefix_cons.mp hs
          refine ⟨⟨[], ss, rfl⟩, ?_⟩
          rintro ⟨⟩
          rw [dropFallthrough_goto] at hstays
          cases hstays
      · exact hrest htail

/-- A statement goes only if it is a jump to the label behind it. -/
theorem mem_dropFallthrough_or {ss : List Statement} {s : Statement} (h : s ∈ ss) :
    s ∈ dropFallthrough ss ∨ ∃ l, s = .goto l ∧ [.goto l, .label l] <:+: ss := by
  induction ss with
  | nil => cases h
  | cons x ss ih =>
    have hrest : s ∈ ss →
        s ∈ dropFallthrough ss ∨ ∃ l, s = .goto l ∧ [.goto l, .label l] <:+: x :: ss := by
      intro h
      refine (ih h).imp_right ?_
      rintro ⟨l, rfl, hin⟩
      exact ⟨l, rfl, hin.trans (List.suffix_cons ..).isInfix⟩
    rcases dropFallthrough_cases x ss with ⟨l, rest, rfl, rfl⟩ | hcons
    · rcases List.mem_cons.mp h with rfl | h
      · exact .inr ⟨l, rfl, [], rest, rfl⟩
      · rw [dropFallthrough_goto, ← dropFallthrough_label]
        exact hrest h
    · rw [hcons]
      rcases List.mem_cons.mp h with rfl | h
      · exact .inl List.mem_cons_self
      · exact (hrest h).imp_left (List.mem_cons_of_mem _)

/-- In front of a label that is declared once stands one statement. -/
theorem DeclaresOnce.infix_unique {ss : List Statement} (h : DeclaresOnce ss) {x y : Statement}
    {l : Label} (hx : [x, .label l] <:+: ss) (hy : [y, .label l] <:+: ss) : x = y := by
  obtain ⟨front, rest, heq⟩ := hx
  obtain ⟨front', rest', heq'⟩ := hy
  have hrest : ss.dropWhile (· ≠ .label l) = .label l :: rest :=
    dropWhile_of_suffix h ⟨front ++ [x], by simp [← heq]⟩
  have hrest' : ss.dropWhile (· ≠ .label l) = .label l :: rest' :=
    dropWhile_of_suffix h ⟨front' ++ [y], by simp [← heq']⟩
  obtain rfl : rest = rest' := (List.cons.inj (hrest.symm.trans hrest')).2
  have hsame : front ++ [x, .label l] = front' ++ [y, .label l] :=
    List.append_cancel_right (heq.trans heq'.symm)
  exact (List.cons.inj (List.append_inj_right' hsame rfl)).1

/-- Nothing stands in front of the first label. -/
theorem DeclaresOnce.not_infix_head {l : Label} {rest : List Statement}
    (h : DeclaresOnce (.label l :: rest)) (x : Statement) :
    ¬ [x, .label l] <:+: .label l :: rest := by
  rintro ⟨front, rest', heq⟩
  have hnot : .label l ∉ front ++ [x] := h (by simp [← heq] : _ = _ ++ .label l :: rest')
  cases front with
  | nil =>
    obtain rfl : x = .label l := (List.cons.inj heq).1
    exact hnot List.mem_cons_self
  | cons y front =>
    obtain rfl : y = .label l := (List.cons.inj heq).1
    exact hnot List.mem_cons_self

/-- Nothing stands behind the last label. -/
theorem DeclaresOnce.not_sublist_last {l : Label} {front : List Statement}
    (h : DeclaresOnce (front ++ [.label l])) (s : Statement) :
    ¬ [.label l, s].Sublist (front ++ [.label l]) := by
  intro hsub
  obtain ⟨xs, ys, heq, hxs, hys⟩ := List.sublist_append_iff.mp hsub
  cases xs with
  | nil =>
    have hlength := hys.length_le
    rw [← List.nil_append ys, ← heq] at hlength
    simp at hlength
  | cons x xs =>
    obtain rfl : .label l = x := (List.cons.inj heq).1
    exact h rfl (hxs.subset List.mem_cons_self)

/-! ### Labels that stay -/

/-- A label that is mentioned besides its only declaration is jumped to. -/
theorem exists_target_of_count {ss : List Statement} (h : (declared ss).Nodup) {l : Label}
    (hdeclared : .label l ∈ ss) (hcount : (ss.flatMap mentioned).count l ≠ 1) :
    ∃ s ∈ ss, l ∈ s.targets := by
  obtain ⟨front, rest, rfl⟩ := List.append_of_mem hdeclared
  have hself : (mentioned (.label l)).count l = 1 := by simp [mentioned]
  have hpos : 0 < ((front ++ rest).flatMap mentioned).count l := by
    simp only [List.flatMap_append, List.flatMap_cons, List.count_append] at hcount ⊢
    omega
  have hnot : l ∉ declared (front ++ rest) := by
    have hperm : (declared (front ++ .label l :: rest)).Perm (l :: declared (front ++ rest)) :=
      List.perm_middle.filterMap _
    exact (List.nodup_cons.mp (hperm.nodup_iff.mp h)).1
  obtain ⟨s, hs, hl⟩ := List.mem_flatMap.mp (List.count_pos_iff.mp hpos)
  refine ⟨s, by simpa using Or.imp_right .inr (List.mem_append.mp hs), ?_⟩
  cases s with
  | label m =>
    obtain rfl : l = m := List.mem_singleton.mp hl
    exact absurd (mem_declared hs) hnot
  | _ => exact hl

theorem filter_works_dropFallthrough (ss : List Statement) :
    (dropFallthrough ss).filter Statement.works = ss.filter Statement.works := by
  induction ss with
  | nil => rfl
  | cons s ss ih =>
    rcases dropFallthrough_cases s ss with ⟨l, rest, rfl, rfl⟩ | hcons
    · rw [dropFallthrough_goto, ← dropFallthrough_label, ih]
      rfl
    · rw [hcons, List.filter_cons, List.filter_cons, ih]

/-- What is more than a label or a jump stays. -/
theorem filter_works_trim (all : List Statement) :
    (trim all).filter Statement.works = all.filter Statement.works := by
  rw [← filter_works_dropFallthrough all, trim, trimFrom, shorten, List.filter_filter]
  refine List.filter_congr fun s _ => ?_
  cases s <;> rfl

/-! ### What blocks are laid out as -/

section
variable {g : Graph}

theorem works_of_straight (hs : g.Straight) {b : BlockId} {s : Statement}
    (hk : g.kind? b = some (.statement s)) : s.works = true := by
  have hkind := hs hk
  cases s with
  | label l => cases hkind
  | goto l => cases hkind
  | _ => rfl

/-- A block jumps to every block that it leads to. -/
theorem Emits.exists_jump (hg : g.WellFormed) {b t : BlockId} {ss : List Statement} {k : Kind}
    (hk : g.kind? b = some k) (h : Emits g b ss k) {e : EdgeId} {d : Direction}
    (he : g.edge? e = some ⟨b, t, d⟩) : ∃ s ∈ ss, labelOf (labels g) t ∈ s.targets := by
  have hne : k ≠ .exit := fun hx => hg.wired.exit_closed he (hg.exit_only (hx ▸ hk))
  have hd : d ∈ k.directions := (hg.wired.ways hk hne d).mp ⟨e, t, he⟩
  cases k with
  | exit => exact absurd rfl hne
  | branch br =>
    obtain ⟨e₁, t₁, e₂, t₂, h₁, h₂, rfl⟩ := h
    refine ⟨_, List.mem_cons_of_mem _ List.mem_cons_self, ?_⟩
    rcases (by simpa [Kind.directions] using hd : d = .onTrue ∨ d = .onFalse) with rfl | rfl
    · rw [hg.target_unique he h₁]
      exact List.mem_cons_self
    · rw [hg.target_unique he h₂]
      exact List.mem_cons_of_mem _ List.mem_cons_self
  | statement s =>
    obtain ⟨e₁, t₁, h₁, rfl⟩ := h
    obtain rfl : d = .always := by simpa [Kind.directions] using hd
    rw [hg.target_unique he h₁]
    exact ⟨.goto _, by simp, List.mem_singleton.mpr rfl⟩
  | _ =>
    obtain ⟨e₁, t₁, h₁, rfl⟩ := h
    obtain rfl : d = .always := by simpa [Kind.directions] using hd
    rw [hg.target_unique he h₁]
    exact ⟨.goto _, by simp, List.mem_singleton.mpr rfl⟩

/-- What a block is laid out as begins with a label, and if it jumps, it does so at its end. -/
theorem Emits.jumpsLast (hs : g.Straight) {b : BlockId} {ss : List Statement} {k : Kind}
    (hk : g.kind? b = some k) (h : Emits g b ss k) {m : Label} {rest : List Statement}
    (hrest : JumpsLast (.label m :: rest)) :
    (∃ m' rest', ss ++ .label m :: rest = .label m' :: rest') ∧
    JumpsLast (ss ++ .label m :: rest) := by
  cases k with
  | exit =>
    obtain rfl : ss = [] := h
    exact ⟨⟨m, rest, rfl⟩, hrest⟩
  | branch br =>
    obtain ⟨_, _, _, _, -, -, rfl⟩ := h
    exact ⟨⟨_, _, rfl⟩, (hrest.cons (s := .branch _) nofun).cons nofun⟩
  | statement s =>
    obtain ⟨_, _, -, rfl⟩ := h
    have hgoto : ∀ l, s ≠ .goto l := by
      rintro l rfl
      cases works_of_straight hs hk
    exact ⟨⟨_, _, rfl⟩, ((hrest.goto _).cons hgoto).cons nofun⟩
  | _ =>
    obtain ⟨_, _, -, rfl⟩ := h
    exact ⟨⟨_, _, rfl⟩, (hrest.goto _).cons nofun⟩

/-- What a block is laid out as says what the block says. -/
theorem Emits.filter_works (hs : g.Straight) {b : BlockId} {ss : List Statement} {k : Kind}
    (hk : g.kind? b = some k) (h : Emits g b ss k) :
    (∃ s, Says g b s ∧ ss.filter Statement.works = [s]) ∨
      (∀ s, ¬ Says g b s) ∧ ss.filter Statement.works = [] := by
  have hnone : (∀ s, k ≠ .statement s) → (∀ br, k ≠ .branch br) → ∀ s, ¬ Says g b s := by
    rintro hst hbr s (hk' | ⟨hk', -, -⟩)
    · exact hst _ (Option.some.inj (hk.symm.trans hk'))
    · exact hbr _ (Option.some.inj (hk.symm.trans hk'))
  cases k with
  | branch br =>
    obtain ⟨_, _, _, _, he, he', rfl⟩ := h
    refine .inl ⟨_, .branch hk he he', ?_⟩
    simp [Statement.works]
  | statement s =>
    obtain ⟨_, _, -, rfl⟩ := h
    refine .inl ⟨s, .statement hk, ?_⟩
    rw [List.filter_cons_of_neg (by simp [Statement.works]),
      List.filter_cons_of_pos (works_of_straight hs hk)]
    rfl
  | exit =>
    obtain rfl : ss = [] := h
    exact .inr ⟨hnone (fun _ => by simp) fun _ => by simp, rfl⟩
  | _ =>
    obtain ⟨_, _, -, rfl⟩ := h
    refine .inr ⟨hnone (fun _ => by simp) fun _ => by simp, ?_⟩
    simp [Statement.works]

/-- In the full list every jump stands in front of a label. -/
theorem Laid.jumpsLast (hs : g.Straight) {order : List BlockId} {blocks : List (List Statement)}
    (h : Laid g order blocks) : (∃ m rest, whole g blocks = .label m :: rest) ∧
      JumpsLast (whole g blocks) := by
  induction h with
  | nil =>
    refine ⟨⟨_, [], rfl⟩, fun l s hin => ?_⟩
    have hlength := hin.length_le
    simp [whole] at hlength
  | @cons b ss order blocks hb _ ih =>
    obtain ⟨k, hk, hemits⟩ := hb
    obtain ⟨⟨m, rest, hwhole⟩, hjumps⟩ := ih
    have hcons : whole g (ss :: blocks) = ss ++ .label m :: rest := by
      rw [← hwhole, whole, whole, List.flatten_cons, List.append_assoc]
    rw [hwhole] at hjumps
    rw [hcons]
    exact hemits.jumpsLast hs hk hjumps

/-- **The full list says what the blocks say**, each of them once. -/
theorem Laid.says (hs : g.Straight) {order : List BlockId} {blocks : List (List Statement)}
    (h : Laid g order blocks) : ∃ order' : List BlockId, order'.Sublist order ∧
      (∀ b, b ∈ order' ↔ b ∈ order ∧ ∃ s, Says g b s) ∧
      List.Forall₂ (Says g) order' ((whole g blocks).filter Statement.works) := by
  induction h with
  | nil => exact ⟨[], List.Sublist.refl _, fun b => by simp, .nil⟩
  | @cons b ss order blocks hb _ ih =>
    obtain ⟨k, hk, hemits⟩ := hb
    obtain ⟨order', hsub, hmem, hsays⟩ := ih
    have hcons : (whole g (ss :: blocks)).filter Statement.works =
        ss.filter Statement.works ++ (whole g blocks).filter Statement.works := by
      rw [← List.filter_append, whole, whole, List.flatten_cons, List.append_assoc]
    rw [hcons]
    rcases hemits.filter_works hs hk with ⟨s, hsaid, hss⟩ | ⟨hnot, hss⟩
    · rw [hss]
      refine ⟨b :: order', hsub.cons_cons b, fun c => ?_, .cons hsaid hsays⟩
      rw [List.mem_cons, List.mem_cons, hmem, or_and_right]
      exact or_congr_left ⟨fun hc => ⟨hc, s, hc ▸ hsaid⟩, And.left⟩
    · rw [hss]
      refine ⟨order', hsub.cons b, fun c => ?_, hsays⟩
      rw [hmem, List.mem_cons, or_and_right]
      refine ⟨.inr, Or.rec ?_ id⟩
      rintro ⟨rfl, t, hsaid⟩
      exact absurd hsaid (hnot t)

theorem exists_says_iff (hg : g.WellFormed) {b : BlockId} : (∃ s, Says g b s) ↔
    (∃ s, g.kind? b = some (.statement s)) ∨ ∃ br, g.kind? b = some (.branch br) := by
  constructor
  · rintro ⟨_, hk | ⟨hk, -, -⟩⟩
    · exact .inl ⟨_, hk⟩
    · exact .inr ⟨_, hk⟩
  · rintro (⟨s, hk⟩ | ⟨br, hk⟩)
    · exact ⟨s, .statement hk⟩
    · obtain ⟨e, t, he⟩ := (hg.wired.ways hk nofun .onTrue).mpr (by simp [Kind.directions])
      obtain ⟨e', f, he'⟩ := (hg.wired.ways hk nofun .onFalse).mpr (by simp [Kind.directions])
      exact ⟨_, .branch hk he he'⟩

/-! ### The trimmed list -/

variable {blocks : List (List Statement)} (hg : g.WellFormed) (hs : g.Straight)
  (h : Laid g g.layoutOrder blocks)
include hg hs h

omit hs in
/-- What a block leads to is jumped to. -/
theorem exists_jump_whole {e : EdgeId} {b t : BlockId} {d : Direction}
    (he : g.edge? e = some ⟨b, t, d⟩) : ∃ s ∈ whole g blocks, labelOf (labels g) t ∈ s.targets := by
  obtain ⟨block, hb⟩ := hg.listed.source_live he
  have hk := Graph.kind?_of_block? hb
  obtain ⟨front, ss, rest, hflat, hemits⟩ :=
    h.exists_split (hg.mem_layoutOrder.mpr ⟨block, hb⟩) hk
  obtain ⟨s, hs, hl⟩ := hemits.exists_jump hg hk he
  refine ⟨s, List.mem_append_left _ ?_, hl⟩
  rw [hflat]
  exact List.mem_append_right _ (List.mem_append_left _ hs)

omit hs in
/-- The label of the entry stands first. -/
theorem whole_eq_cons :
    ∃ rest, whole g blocks = .label (labelOf (labels g) Graph.entry) :: rest := by
  obtain ⟨rest, horder⟩ := hg.layoutOrder_eq_cons
  rw [Laid, horder] at h
  cases h with
  | cons hentry _ =>
    obtain ⟨k, hk, hemits⟩ := hentry
    rw [hg.wired.entry_kind] at hk
    cases hk
    have hne : Kind.entry ≠ .exit := by decide
    obtain ⟨tail, rfl⟩ := hemits.eq_cons hne
    exact ⟨_, rfl⟩

/-- Every label is that of a block. -/
theorem exists_block_of_label {l : Label} (hl : .label l ∈ whole g blocks) :
    ∃ b block, g.block? b = some block ∧ l = labelOf (labels g) b := by
  rcases List.mem_append.mp hl with hl | hl
  · rw [← mem_declared_iff, h.declared_eq hg hs] at hl
    obtain ⟨b, hb, rfl⟩ := List.mem_map.mp hl
    obtain ⟨block, hb⟩ := hg.mem_layoutOrder.mp (List.mem_of_mem_filter hb)
    exact ⟨b, block, hb, rfl⟩
  · obtain ⟨block, hb⟩ := hg.exit_live
    cases List.mem_singleton.mp hl
    exact ⟨Graph.exit, block, hb, rfl⟩

/-- **A label behind a jump stays**, unless it is the last statement. -/
theorem needed_of_adjacent (hentered : g.checkEntered = .ok ()) {l m : Label} {s : Statement}
    (hin : [.goto l, .label m, s] <:+: dropFallthrough (whole g blocks)) :
    needed ((dropFallthrough (whole g blocks)).flatMap mentioned) (.label m) = true := by
  have honce := declaresOnce_whole hg hs h
  have hbefore : [.goto l, .label m] <:+: [.goto l, .label m, s] := ⟨[], [s], rfl⟩
  have hbehind : [.label m, s].Sublist [.goto l, .label m, s] := List.sublist_cons_self ..
  obtain ⟨hpair, hne⟩ := infix_of_dropFallthrough (h.jumpsLast hs).2 (hbefore.trans hin)
  have hlater : [.label m, s].Sublist (whole g blocks) :=
    (hbehind.trans hin.sublist).trans (dropFallthrough_sublist _)
  have hdeclared : .label m ∈ whole g blocks := hlater.subset List.mem_cons_self
  obtain ⟨b, block, hb, rfl⟩ := exists_block_of_label hg hs h hdeclared
  have hentry : b ≠ Graph.entry := by
    rintro rfl
    obtain ⟨rest, hwhole⟩ := whole_eq_cons hg h
    rw [hwhole] at honce hpair
    exact honce.not_infix_head _ hpair
  have hexit : b ≠ Graph.exit := by
    rintro rfl
    exact honce.not_sublist_last s hlater
  obtain ⟨e, a, d, he⟩ := hg.exists_entering hentered hb hentry hexit
  obtain ⟨t, ht, hl⟩ := exists_jump_whole hg h he
  refine decide_eq_true (count_mentioned_ne_one ?_ hl (mem_dropFallthrough_label hdeclared))
  -- The jump from there would go only if it stood in front of the label itself.
  refine (mem_dropFallthrough_or ht).resolve_right ?_
  rintro ⟨l', rfl, hin'⟩
  cases List.mem_singleton.mp hl
  cases honce.infix_unique hin' hpair
  exact hne rfl

/-- **A trimmed layout is clean** if every block between the terminal ones is entered. -/
theorem clean_trim_whole (hentered : g.checkEntered = .ok ()) : Clean (trim (whole g blocks)) := by
  have hnodup := nodup_declared_whole hg hs h
  refine ⟨hnodup.sublist ((trim_sublist _).filterMap _), fun s hs' l hl => ?_, fun l hl => ?_, ?_⟩
  · have hin := declared_of_target hg hs h
      (List.mem_flatMap.mpr ⟨s, (trim_sublist _).subset hs', hl⟩)
    exact mem_declared (mem_trim_label hs' hl (mem_declared_iff.mp hin))
  · obtain ⟨hin, hneeded⟩ := List.mem_filter.mp (mem_declared_iff.mp hl)
    obtain ⟨s, hs', hl⟩ := exists_target_of_count
      (hnodup.sublist ((dropFallthrough_sublist _).filterMap _)) hin (of_decide_eq_true hneeded)
    refine ⟨s, List.mem_filter.mpr ⟨hs', ?_⟩, hl⟩
    cases s with
    | label m => cases hl
    | _ => rfl
  · intro l hin
    rcases infix_of_filter hin with hin | ⟨z, s, hz, hin⟩
    · exact (infix_of_dropFallthrough (h.jumpsLast hs).2 hin).2 rfl
    · cases z with
      | label m => rw [needed_of_adjacent hg hs h hentered hin] at hz; cases hz
      | _ => cases hz

end
end Layout

/-- **A layout is clean.**  If every block but the terminal ones has a predecessor and the others
hold no statement that directs control, laying the graph out succeeds.  No label is declared twice,
none is jumped to without a declaration or declared without a jump, and no jump leads to the
statement behind it.  But for labels and jumps, the list holds what the blocks say, once for each of
them: a statement as it is, and a branch with its condition and the labels of the blocks it leads
to. -/
theorem Graph.layOut_clean (g : Graph) (hg : g.WellFormed) (hentered : g.checkEntered = .ok ())
    (hs : g.Straight) :
    ∃ ss, g.layOut.outcome = .ok ss ∧ Layout.Clean ss ∧ ∃ order : List BlockId, order.Nodup ∧
      (∀ b, b ∈ order ↔
        (∃ s, g.kind? b = some (.statement s)) ∨ ∃ br, g.kind? b = some (.branch br)) ∧
      List.Forall₂ (Layout.Says g) order (ss.filter Statement.works) := by
  obtain ⟨blocks, hlaid, hout⟩ := hg.exists_layOut
  rw [Layout.dropUnusedLabels_dropFallthrough] at hout
  obtain ⟨order, hsub, hmem, hsays⟩ := hlaid.says hs
  refine ⟨_, hout, Layout.clean_trim_whole hg hs hlaid hentered, order,
    hg.nodup_layoutOrder.sublist hsub, fun b => ?_, by rwa [Layout.filter_works_trim]⟩
  rw [hmem, ← Layout.exists_says_iff hg]
  refine and_iff_right_of_imp fun hsome => ?_
  obtain ⟨k, hk⟩ : ∃ k, g.kind? b = some k := by
    rcases (Layout.exists_says_iff hg).mp hsome with ⟨_, hk⟩ | ⟨_, hk⟩
    · exact ⟨_, hk⟩
    · exact ⟨_, hk⟩
  obtain ⟨block, hb, -⟩ := block?_of_kind? hk
  exact hg.mem_layoutOrder.mpr ⟨block, hb⟩

/-- A loop that is left for the exit, and beside it one that nothing leads to. -/
def Graph.sideLoop : Graph where
  name := "sideLoop"
  blocks := #[
    some { id := ⟨0⟩, kind := .entry, succs := [⟨0⟩] },
    some { id := ⟨1⟩, kind := .exit, preds := [⟨2⟩] },
    some { id := ⟨2⟩,
           kind := .statement (.ret (.var (.plain "n"))), preds := [⟨1⟩], succs := [⟨3⟩] },
    none,
    some { id := ⟨4⟩, kind := .branch ⟨.plain "more", "", ""⟩
           preds := [⟨0⟩, ⟨4⟩], succs := [⟨1⟩, ⟨2⟩] },
    some { id := ⟨5⟩,
           kind := .statement (.eval (.call "next" [])), preds := [⟨3⟩], succs := [⟨4⟩] },
    some { id := ⟨6⟩, kind := .empty, preds := [⟨6⟩], succs := [⟨5⟩] },
    some { id := ⟨7⟩,
           kind := .statement (.eval (.call "wait" [])), preds := [⟨5⟩], succs := [⟨6⟩] }]
  edges := #[some ⟨⟨0⟩, ⟨4⟩, .always⟩, some ⟨⟨4⟩, ⟨2⟩, .onTrue⟩, some ⟨⟨4⟩, ⟨1⟩, .onFalse⟩,
    some ⟨⟨2⟩, ⟨5⟩, .always⟩, some ⟨⟨5⟩, ⟨4⟩, .always⟩, some ⟨⟨6⟩, ⟨7⟩, .always⟩,
    some ⟨⟨7⟩, ⟨6⟩, .always⟩]

theorem Graph.layOut_clean_sideLoop :
    sideLoop.WellFormed ∧ sideLoop.checkEntered = .ok () ∧ sideLoop.Straight ∧
    ∃ ss, sideLoop.layOut.outcome = .ok ss ∧ Layout.Clean ss ∧ ∃ order : List BlockId, order.Nodup ∧
      (∀ b, b ∈ order ↔ (∃ s, sideLoop.kind? b = some (.statement s)) ∨
        ∃ br, sideLoop.kind? b = some (.branch br)) ∧
      List.Forall₂ (Layout.Says sideLoop) order (ss.filter Statement.works) := by
  have hg : sideLoop.WellFormed := by decide
  have hentered : sideLoop.checkEntered = .ok () := by decide
  have hs : sideLoop.Straight := by decide
  exact ⟨hg, hentered, hs, layOut_clean sideLoop hg hentered hs⟩

end FlowGraph
