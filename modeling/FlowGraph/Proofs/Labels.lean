import FlowGraph.Layout
import FlowGraph.Proofs.Manners

/-! # Jumps and labels that are not needed

A jump to the label that follows it may be left out, and so may a label that nothing jumps to.  Both
keep the behaviour of a statement list in whatever manner it is gone through, the first one if no
label is declared twice: a jump leads to the first declaration of its label.

Places of the two lists belong together when the statements still to come on one side are those of
the other with the same left out.
-/
namespace FlowGraph
namespace Layout

/-- **No label is declared twice.** -/
def DeclaresOnce (ss : List Statement) : Prop :=
  ∀ ⦃front l rest⦄, ss = front ++ .label l :: rest → .label l ∉ front

variable {V : Type} {M : Manner V}

/-- Places that belong together: on one side stands what `f` leaves of the other. -/
def Shortened (f : List Statement → List Statement) (all rest : List Statement) (m : Memory V)
    (rest' : List Statement) (m' : Memory V) : Prop :=
  m = m' ∧ rest' = f rest ∧ rest <:+ all

/-- A jump leads to places that belong together, if its label stays where it is. -/
theorem linked_jump {f : List Statement → List Statement} {all : List Statement} {l : Label}
    (hnil : f [] = [])
    (hdrop : (f all).dropWhile (· ≠ .label l) = f (all.dropWhile (· ≠ .label l)))
    (hstays : .label l ∈ all → ∀ rest, f (.label l :: rest) = .label l :: f rest) (m : Memory V) :
    @System.Linked V (systemBy M all) (systemBy M (f all)) (Shortened f all) ⟨jump all l, m⟩
      ⟨jump (f all) l, m⟩ := by
  rcases jump_cases all l with ⟨hnone, hlost⟩ | ⟨rest, hrest, hhere⟩
  · rw [hnone, hnil] at hdrop
    rw [hlost, jump, hdrop]
    exact .ended rfl
  · have hsuffix : .label l :: rest <:+ all := hrest ▸ List.dropWhile_suffix _
    have hlabel := hstays (hsuffix.mem List.mem_cons_self) rest
    rw [hrest, hlabel] at hdrop
    rw [hhere, jump, hdrop]
    exact .here ⟨rfl, hlabel.symm, hsuffix⟩

/-! ### Jumps to the next statement -/

@[simp] theorem dropFallthrough_label (l : Label) (rest : List Statement) :
    dropFallthrough (.label l :: rest) = .label l :: dropFallthrough rest := by
  rw [dropFallthrough]
  exact nofun

theorem dropFallthrough_goto (l : Label) (rest : List Statement) :
    dropFallthrough (.goto l :: .label l :: rest) = .label l :: dropFallthrough rest := by
  rw [dropFallthrough, if_pos rfl, dropFallthrough_label]

/-- Only a jump to the next statement goes. -/
theorem dropFallthrough_cases (s : Statement) (rest : List Statement) :
    (∃ l rest', s = .goto l ∧ rest = .label l :: rest') ∨
      dropFallthrough (s :: rest) = s :: dropFallthrough rest := by
  rw [dropFallthrough.eq_def]
  split
  · rename_i l m rest' heq
    cases heq
    by_cases hlm : l = m
    · exact .inl ⟨l, rest', rfl, by rw [hlm]⟩
    · exact .inr (if_neg hlm)
  · rename_i heq
    cases heq
    exact .inr rfl
  · rename_i heq
    cases heq

/-- Jumps lead to the same place. -/
theorem dropWhile_dropFallthrough (l : Label) (ss : List Statement) :
    (dropFallthrough ss).dropWhile (· ≠ .label l) =
      dropFallthrough (ss.dropWhile (· ≠ .label l)) := by
  induction ss with
  | nil => rfl
  | cons s ss ih =>
    by_cases hl : s = .label l
    · subst hl
      simp
    · have hpass : ∀ rest, (s :: rest).dropWhile (· ≠ .label l) = rest.dropWhile (· ≠ .label l) :=
        fun rest => List.dropWhile_cons_of_pos (by simpa using hl)
      rw [hpass, ← ih]
      rcases dropFallthrough_cases s ss with ⟨k, rest, rfl, rfl⟩ | hstays
      · rw [dropFallthrough_goto, dropFallthrough_label]
      · rw [hstays, hpass]

/-- **Leaving out jumps to the next statement** keeps the behaviour. -/
theorem sameBehaviour_dropFallthrough {ss : List Statement} (honce : DeclaresOnce ss)
    (m : Memory V) :
    System.SameBehaviour (systemBy M ss) (systemBy M (dropFallthrough ss)) ⟨.here ss, m⟩
      ⟨.here (dropFallthrough ss), m⟩ := by
  have hsim : @System.Simulates V (systemBy M ss) (systemBy M (dropFallthrough ss))
      (Shortened dropFallthrough ss) := by
    refine ⟨fun hr => congrArg Memory.shown hr.1, ?_⟩
    rintro (rest : List Statement) m _ _ ⟨rfl, rfl, front, hsplit⟩
    cases rest with
    | nil => exact ⟨0, 0, _, _, rfl, rfl, .ended rfl⟩
    | cons s rest =>
      rcases dropFallthrough_cases s rest with ⟨l, rest', rfl, rfl⟩ | hstays
      · -- One side jumps to the label and passes it, the other is there already.
        have hnot : .label l ∉ front ++ [.goto l] := honce (by simpa using hsplit.symm)
        have hjump : M.onward ss m (.label l :: rest') (.goto l) = .here (.label l :: rest') := by
          have h := @jump_of_notMem _ rest' l hnot
          rwa [List.append_assoc, List.singleton_append, hsplit] at h
        rw [dropFallthrough_goto]
        refine ⟨1, 0, ⟨.here rest', m⟩, ⟨.here (dropFallthrough rest'), m⟩, ?_,
          rfl, .here ⟨rfl, rfl, ?_⟩⟩
        · show steps (systemBy M ss).next 1
            ((systemBy M ss).move (.goto l :: .label l :: rest') m) = _
          rw [moveBy_cons hjump]
          rfl
        · exact ⟨front ++ [.goto l, .label l], by simpa using hsplit⟩
      · refine ⟨0, 0, (systemBy M ss).move (s :: rest) m, _, rfl, rfl, ?_⟩
        rw [hstays]
        refine linked_move
          (fun m => ⟨rfl, rfl, front ++ [s], by simpa using hsplit⟩) fun l _ m => ?_
        exact linked_jump rfl (dropWhile_dropFallthrough l ss) (fun _ => dropFallthrough_label l) m
  exact hsim.sameBehaviour (.here ⟨rfl, rfl, List.suffix_refl _⟩)

/-! ### Labels that nothing jumps to -/

section
variable {ss : List Statement} {p : Statement → Bool}

/-- Jumps lead to the same place if their labels stay. -/
theorem dropWhile_filter {l : Label} (h : .label l ∈ ss → p (.label l) = true) :
    (ss.filter p).dropWhile (· ≠ .label l) = (ss.dropWhile (· ≠ .label l)).filter p := by
  induction ss with
  | nil => rfl
  | cons s ss ih =>
    by_cases hl : s = .label l
    · subst hl
      simp [h List.mem_cons_self]
    · have hpass : ∀ rest, (s :: rest).dropWhile (· ≠ .label l) = rest.dropWhile (· ≠ .label l) :=
        fun rest => List.dropWhile_cons_of_pos (by simpa using hl)
      rw [hpass, ← ih fun hin => h (List.mem_cons_of_mem _ hin), List.filter_cons]
      split
      · rw [hpass]
      · rfl

variable (hlabel : ∀ s, p s = false → ∃ l, s = .label l)
include hlabel

/-- Control passes the labels in front of the next statement that stays. -/
theorem exists_steps_filter (M : Manner V) (all rest : List Statement) (m : Memory V) :
    ∃ n tail, steps (systemBy M all).next n ⟨.here rest, m⟩ = some ⟨.here tail, m⟩ ∧
      tail.filter p = rest.filter p ∧ tail <:+ rest ∧
      (tail = [] ∨ ∃ s tail', tail = s :: tail' ∧ p s = true) := by
  induction rest with
  | nil => exact ⟨0, [], rfl, rfl, List.suffix_refl _, .inl rfl⟩
  | cons s rest ih =>
    cases hs : p s with
    | true => exact ⟨0, s :: rest, rfl, rfl, List.suffix_refl _, .inr ⟨s, rest, rfl, hs⟩⟩
    | false =>
      obtain ⟨l, rfl⟩ := hlabel s hs
      obtain ⟨n, tail, hsteps, hfilter, hsuffix, htail⟩ := ih
      refine ⟨n + 1, tail, hsteps, ?_, hsuffix.trans (List.suffix_cons _ _), htail⟩
      rw [hfilter, List.filter_cons_of_neg (by rw [hs]; exact Bool.false_ne_true)]

/-- **Leaving out labels** keeps the behaviour if nothing jumps to them. -/
theorem sameBehaviour_filter
    (hkept : ∀ s ∈ ss, ∀ l ∈ s.targets, .label l ∈ ss → p (.label l) = true) (m : Memory V) :
    System.SameBehaviour (systemBy M ss) (systemBy M (ss.filter p)) ⟨.here ss, m⟩
      ⟨.here (ss.filter p), m⟩ := by
  have hsim : @System.Simulates V (systemBy M ss) (systemBy M (ss.filter p))
      (Shortened (List.filter p) ss) := by
    refine ⟨fun hr => congrArg Memory.shown hr.1, ?_⟩
    rintro (rest : List Statement) m _ _ ⟨rfl, rfl, hsuffix⟩
    obtain ⟨n, tail, hsteps, hfilter, htail, hstays⟩ := exists_steps_filter hlabel M ss rest m
    rw [← hfilter]
    refine ⟨n, 0, (systemBy M ss).move tail m, (systemBy M (ss.filter p)).move (tail.filter p) m,
      ?_, rfl, ?_⟩
    · rw [steps_add, hsteps]
      rfl
    · rcases hstays with rfl | ⟨s, tail', rfl, hs⟩
      · exact .ended rfl
      · rw [List.filter_cons_of_pos hs]
        have hin := htail.trans hsuffix
        refine linked_move (fun m => ⟨rfl, rfl, (List.suffix_cons _ _).trans hin⟩) fun l hl m => ?_
        have hstays := hkept s (hin.mem List.mem_cons_self) l hl
        exact linked_jump rfl (dropWhile_filter hstays)
          (fun hl rest => List.filter_cons_of_pos (hstays hl)) m
  exact hsim.sameBehaviour (.here ⟨rfl, rfl, List.suffix_refl _⟩)

end

/-- A label that is jumped to is mentioned at least twice. -/
theorem count_mentioned_ne_one {ss : List Statement} {s : Statement} (hs : s ∈ ss) {l : Label}
    (hl : l ∈ s.targets) (hdeclared : .label l ∈ ss) : (ss.flatMap mentioned).count l ≠ 1 := by
  obtain ⟨front, rest, rfl⟩ := List.append_of_mem hdeclared
  have hne : s ≠ .label l := by
    rintro rfl
    cases hl
  have hin : l ∈ (front ++ rest).flatMap mentioned := by
    refine List.mem_flatMap.mpr ⟨s, by simpa [hne] using hs, ?_⟩
    cases s with
    | label name => cases hl
    | _ => exact hl
  have hpos := List.count_pos_iff.mpr hin
  simp only [List.flatMap_append, List.flatMap_cons, List.count_append] at hpos ⊢
  have hself : (mentioned (.label l)).count l = 1 := by simp [mentioned]
  omega

/-- **Leaving out labels that nothing jumps to** keeps the behaviour. -/
theorem sameBehaviour_dropUnusedLabels (ss : List Statement) (m : Memory V) :
    System.SameBehaviour (systemBy M ss) (systemBy M (dropUnusedLabels ss)) ⟨.here ss, m⟩
      ⟨.here (dropUnusedLabels ss), m⟩ := by
  refine sameBehaviour_filter (fun s hs => ?_) (fun s hs l hl hin => ?_) m
  · cases s with
    | label name => exact ⟨name, rfl⟩
    | _ => cases hs
  · exact decide_eq_true (count_mentioned_ne_one hs hl hin)

end Layout
end FlowGraph
