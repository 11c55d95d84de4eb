import FlowGraph.Proofs.Construction

/-! # The graph of a trimmed list

A statement list is trimmed by leaving out jumps to the next statement and labels that nothing jumps
to.  What stays of the last statements of the list are the last statements of what stays of it, so a
place in the full list has a block in the graph of the trimmed one.  From there control passes
labels and jumps of the full list, whether they stay or not, without doing anything.
-/
namespace FlowGraph
namespace Layout

/-! ### What stays of a list -/

/-- Whether a statement stays when the labels that are mentioned are known. -/
def needed (mentions : List Label) : Statement → Bool
  | .label l => mentions.count l ≠ 1
  | _ => true

/-- Leaves out jumps to the next statement and all statements but those to keep. -/
def shorten (keep : Statement → Bool) (ss : List Statement) : List Statement :=
  (dropFallthrough ss).filter keep

/-- What stays of the last statements of a list when the list is trimmed. -/
def trimFrom (all rest : List Statement) : List Statement :=
  shorten (needed ((dropFallthrough all).flatMap mentioned)) rest

/-- **The trimmed list.** -/
def trim (all : List Statement) : List Statement := trimFrom all all

theorem dropUnusedLabels_dropFallthrough (all : List Statement) :
    dropUnusedLabels (dropFallthrough all) = trim all := by
  refine List.filter_congr fun s _ => ?_
  cases s <;> rfl

section
variable {keep : Statement → Bool}

theorem shorten_label {l : Label} (h : keep (.label l) = true) (rest : List Statement) :
    shorten keep (.label l :: rest) = .label l :: shorten keep rest := by
  rw [shorten, dropFallthrough_label, List.filter_cons_of_pos h, shorten]

theorem shorten_label_of_not {l : Label} (h : keep (.label l) = false) (rest : List Statement) :
    shorten keep (.label l :: rest) = shorten keep rest := by
  rw [shorten, dropFallthrough_label, List.filter_cons_of_neg (by simp [h]), shorten]

theorem shorten_goto (l : Label) (rest : List Statement) :
    shorten keep (.goto l :: .label l :: rest) = shorten keep (.label l :: rest) := by
  rw [shorten, shorten, dropFallthrough_goto, dropFallthrough_label]

/-- A statement that is kept stays unless it jumps to the next one. -/
theorem shorten_cons {s : Statement} (h : keep s = true) (rest : List Statement) :
    (∃ l rest', s = .goto l ∧ rest = .label l :: rest') ∨
      shorten keep (s :: rest) = s :: shorten keep rest := by
  refine (dropFallthrough_cases s rest).imp_right fun hcons => ?_
  rw [shorten, hcons, List.filter_cons_of_pos h, shorten]

/-- What stays of the last statements stands last. -/
theorem shorten_suffix {rest all : List Statement} (h : rest <:+ all) :
    shorten keep rest <:+ shorten keep all := by
  obtain ⟨front, rfl⟩ := h
  induction front with
  | nil => exact List.suffix_refl _
  | cons s front ih =>
    refine ih.trans (List.IsSuffix.filter _ ?_)
    rw [List.cons_append]
    rcases dropFallthrough_cases s (front ++ rest) with ⟨l, rest', rfl, heq⟩ | hcons
    · rw [heq, dropFallthrough_goto, dropFallthrough_label]
    · rw [hcons]
      exact List.suffix_cons ..

end

theorem dropFallthrough_sublist (ss : List Statement) : (dropFallthrough ss).Sublist ss := by
  induction ss with
  | nil => exact List.Sublist.refl _
  | cons s ss ih =>
    rcases dropFallthrough_cases s ss with ⟨l, rest, rfl, rfl⟩ | hcons
    · rw [dropFallthrough_goto, ← dropFallthrough_label]
      exact ih.cons _
    · rw [hcons]
      exact ih.cons_cons _

theorem trim_sublist (all : List Statement) : (trim all).Sublist all :=
  List.filter_sublist.trans (dropFallthrough_sublist all)

/-- No label goes with a jump. -/
theorem mem_dropFallthrough_label {l : Label} {ss : List Statement} (h : .label l ∈ ss) :
    .label l ∈ dropFallthrough ss := by
  induction ss with
  | nil => cases h
  | cons s ss ih =>
    rcases dropFallthrough_cases s ss with ⟨m, rest, rfl, rfl⟩ | hcons
    · rw [dropFallthrough_goto, ← dropFallthrough_label]
      exact ih (by simpa using h)
    · rw [hcons]
      rcases List.mem_cons.mp h with rfl | h
      · exact List.mem_cons_self
      · exact List.mem_cons_of_mem _ (ih h)

section
variable {all : List Statement}

/-- A statement that is no label stays unless it jumps to the next one. -/
theorem trimFrom_cons (all : List Statement) {s : Statement} (h : ∀ l, s ≠ .label l)
    (rest : List Statement) : (∃ l rest', s = .goto l ∧ rest = .label l :: rest') ∨
      trimFrom all (s :: rest) = s :: trimFrom all rest := by
  refine shorten_cons ?_ rest
  cases s with
  | label l => exact absurd rfl (h l)
  | _ => rfl

/-- A label that is jumped to stays. -/
theorem needed_of_target {s : Statement} (hs : s ∈ trim all) {l : Label} (hl : l ∈ s.targets)
    (hdeclared : .label l ∈ all) :
    needed ((dropFallthrough all).flatMap mentioned) (.label l) = true :=
  decide_eq_true (count_mentioned_ne_one (List.mem_of_mem_filter hs) hl
    (mem_dropFallthrough_label hdeclared))

/-- A jump leads to what stays of the statements from its label on. -/
theorem dropWhile_trim {s : Statement} (hs : s ∈ trim all) {l : Label} (hl : l ∈ s.targets)
    (hdeclared : .label l ∈ all) :
    (trim all).dropWhile (· ≠ .label l) = trimFrom all (all.dropWhile (· ≠ .label l)) := by
  have hkeep := needed_of_target hs hl hdeclared
  rw [trim, trimFrom, shorten, dropWhile_filter fun _ => hkeep, dropWhile_dropFallthrough]
  rfl

theorem mem_trim_label {s : Statement} (hs : s ∈ trim all) {l : Label} (hl : l ∈ s.targets)
    (hdeclared : .label l ∈ all) : .label l ∈ trim all :=
  List.mem_filter.mpr ⟨mem_dropFallthrough_label hdeclared, needed_of_target hs hl hdeclared⟩

theorem dropWhile_of_suffix (honce : DeclaresOnce all) {l : Label} {rest : List Statement}
    (h : .label l :: rest <:+ all) : all.dropWhile (· ≠ .label l) = .label l :: rest := by
  obtain ⟨front, rfl⟩ := h
  have hnot : .label l ∉ front := honce rfl
  rw [List.dropWhile_append_of_pos, List.dropWhile_cons_of_neg (by simp)]
  intro s hs
  have hne : s ≠ .label l := fun heq => hnot (heq ▸ hs)
  simpa using hne

end
end Layout

namespace Graph

open Layout (trim trimFrom DeclaresOnce)

/-- The block that a place in the full list has in the graph of the trimmed one. -/
def spot (all rest : List Statement) : BlockId := place (trim all) (trimFrom all rest)

section
variable {name : String} {all rest : List Statement}

theorem trimFrom_suffix (h : rest <:+ all) : trimFrom all rest <:+ trim all :=
  Layout.shorten_suffix h

/-- The way out of a block that leads one way only. -/
theorem leads_of_exits {g : Graph} (hg : g.Listed) {b t : BlockId} {d : Direction}
    (h : g.exits b = [(d, t)]) : g.Leads b t := by
  have hin : (d, t) ∈ g.exits b := by
    rw [h]
    exact List.mem_singleton.mpr rfl
  obtain ⟨e, he⟩ := hg.mem_exits.mp hin
  exact ⟨e, d, he⟩

section
variable {s : Statement} (h : s :: rest <:+ all)
  (hstays : trimFrom all (s :: rest) = s :: trimFrom all rest)
include h hstays

theorem stays_suffix : s :: trimFrom all rest <:+ trim all := hstays ▸ trimFrom_suffix h

/-- A statement that stays has its block. -/
theorem kind?_spot : (drawn name (trim all)).kind? (spot all (s :: rest)) = some s.kind := by
  rw [spot, hstays]
  exact kind?_drawn_place (stays_suffix h hstays)

theorem exits_spot :
    (drawn name (trim all)).exits (spot all (s :: rest)) =
    exitsOf (trim all) (trimFrom all rest) s := by
  rw [spot, hstays]
  exact exits_drawn_place (stays_suffix h hstays)

/-- A jump of a statement that stays leads to the statements from the label on. -/
theorem landing_trim {l : Label} (hl : l ∈ s.targets) (hdeclared : .label l ∈ all) :
    landing (trim all) l = spot all (all.dropWhile (· ≠ .label l)) := by
  rw [landing, Layout.dropWhile_trim ((stays_suffix h hstays).mem List.mem_cons_self) hl hdeclared]
  rfl

end

/-- A label is passed, whether it stays or not. -/
theorem passes_label {l : Label} (h : .label l :: rest <:+ all) :
    Relation.ReflTransGen (drawn name (trim all)).Passes (spot all (.label l :: rest))
      (spot all rest) := by
  cases hkeep : Layout.needed ((Layout.dropFallthrough all).flatMap Layout.mentioned)
    (.label l) with
  | false =>
    rw [spot, trimFrom, Layout.shorten_label_of_not hkeep]
    exact .refl
  | true =>
    have hstays : trimFrom all (.label l :: rest) = .label l :: trimFrom all rest :=
      Layout.shorten_label hkeep rest
    exact .single ⟨kind?_spot h hstays, leads_of_exits wired_drawn.toListed (exits_spot h hstays)⟩

/-- **A jump is passed**, whether it stays or not. -/
theorem passes_goto (honce : DeclaresOnce all) {l : Label} (h : .goto l :: rest <:+ all)
    (hdeclared : .label l ∈ all) :
    Relation.ReflTransGen (drawn name (trim all)).Passes (spot all (.goto l :: rest))
      (spot all (all.dropWhile (· ≠ .label l))) := by
  rcases Layout.trimFrom_cons all (s := .goto l) nofun rest with ⟨_, rest', heq, rfl⟩ | hstays
  · cases heq
    have hlabel : .label l :: rest' <:+ all := (List.suffix_cons ..).trans h
    have hsame : trimFrom all (.goto l :: .label l :: rest') = trimFrom all (.label l :: rest') :=
      Layout.shorten_goto l rest'
    rw [Layout.dropWhile_of_suffix honce hlabel, spot, hsame]
    exact .refl
  · rw [← landing_trim h hstays (List.mem_singleton.mpr rfl) hdeclared]
    exact .single ⟨kind?_spot h hstays, leads_of_exits wired_drawn.toListed (exits_spot h hstays)⟩

variable (name) in
/-- A statement that does not direct control stays. -/
theorem spot_statement {s : Statement} (hs : s.kind = .statement s) (h : s :: rest <:+ all) :
    trimFrom all (s :: rest) = s :: trimFrom all rest ∧
      (drawn name (trim all)).kind? (spot all (s :: rest)) = some (.statement s) ∧
      (drawn name (trim all)).exits (spot all (s :: rest)) = [(.always, spot all rest)] := by
  have hlabel : ∀ l, s ≠ .label l := by
    rintro l rfl
    cases hs
  rcases Layout.trimFrom_cons all hlabel rest with ⟨l, rest', rfl, -⟩ | hstays
  · cases hs
  · refine ⟨hstays, (kind?_spot h hstays).trans (congrArg some hs), (exits_spot h hstays).trans ?_⟩
    cases s with
    | label l => cases hs
    | goto l => cases hs
    | branch br => cases hs
    | _ => rfl

variable (name) in
/-- A branch stays, and leads to the statements behind its labels. -/
theorem spot_branch {br : Branch} (h : .branch br :: rest <:+ all) (ht : .label br.ifTrue ∈ all)
    (hf : .label br.ifFalse ∈ all) :
    trimFrom all (.branch br :: rest) = .branch br :: trimFrom all rest ∧
      (drawn name (trim all)).kind? (spot all (.branch br :: rest)) = some (.branch br) ∧
      (drawn name (trim all)).exits (spot all (.branch br :: rest)) =
        [(.onTrue, spot all (all.dropWhile (· ≠ .label br.ifTrue))),
          (.onFalse, spot all (all.dropWhile (· ≠ .label br.ifFalse)))] := by
  rcases Layout.trimFrom_cons all (s := .branch br) nofun rest with ⟨_, _, heq, -⟩ | hstays
  · cases heq
  · refine ⟨hstays, kind?_spot h hstays, ?_⟩
    rw [exits_spot h hstays, exitsOf, landing_trim h hstays List.mem_cons_self ht,
      landing_trim h hstays (List.mem_cons_of_mem _ List.mem_cons_self) hf]

variable (name) in
/-- A label with a jump to itself behind it stays, and so does the jump. -/
theorem spot_loop (honce : DeclaresOnce all) {l : Label} (h : .label l :: .goto l :: rest <:+ all) :
    trimFrom all (.label l :: .goto l :: rest) = .label l :: trimFrom all (.goto l :: rest) ∧
      trimFrom all (.goto l :: rest) = .goto l :: trimFrom all rest ∧
      (drawn name (trim all)).exits (spot all (.label l :: .goto l :: rest)) =
        [(.always, spot all (.goto l :: rest))] ∧
      (drawn name (trim all)).exits (spot all (.goto l :: rest)) =
        [(.always, spot all (.label l :: .goto l :: rest))] := by
  have hjump : .goto l :: rest <:+ all := (List.suffix_cons ..).trans h
  -- No second declaration of the label follows, so the jump stays, and with it the label.
  have hgoto : trimFrom all (.goto l :: rest) = .goto l :: trimFrom all rest := by
    rcases Layout.trimFrom_cons all (s := .goto l) nofun rest with ⟨_, rest', heq, rfl⟩ | hstays
    · cases heq
      obtain ⟨front, hsplit⟩ := h
      have hagain : all = (front ++ [.label l, .goto l]) ++ .label l :: rest' := by
        rw [← hsplit]
        simp
      exact absurd (List.mem_append_right _ List.mem_cons_self) (honce hagain)
    · exact hstays
  have hdeclared : .label l ∈ all := h.mem List.mem_cons_self
  have hin := (stays_suffix hjump hgoto).mem List.mem_cons_self
  have hlabel : trimFrom all (.label l :: .goto l :: rest) =
      .label l :: trimFrom all (.goto l :: rest) :=
    Layout.shorten_label (Layout.needed_of_target hin (List.mem_singleton.mpr rfl) hdeclared) _
  refine ⟨hlabel, hgoto, exits_spot h hlabel, ?_⟩
  rw [exits_spot hjump hgoto, exitsOf, landing_trim hjump hgoto (List.mem_singleton.mpr rfl)
    hdeclared, Layout.dropWhile_of_suffix honce h]

end

/-- **A trimmed list has a graph** if the full one declares each label that it jumps to, and once.
-/
theorem ofProcedure_trim (name : String) {all : List Statement}
    (hnodup : (Layout.declared all).Nodup)
    (hdeclared : ∀ l ∈ all.flatMap Statement.targets, l ∈ Layout.declared all) :
    ofProcedure ⟨name, trim all⟩ = .ok (drawn name (trim all)) := by
  refine ofProcedure_eq_ok (p := ⟨name, trim all⟩) ?_ fun l hl => ?_
  · exact hnodup.sublist ((Layout.trim_sublist all).filterMap _)
  · obtain ⟨s, hs, hl⟩ := List.mem_flatMap.mp hl
    have hin := hdeclared l (List.mem_flatMap.mpr ⟨s, (Layout.trim_sublist all).subset hs, hl⟩)
    exact Layout.mem_declared (Layout.mem_trim_label hs hl (Layout.mem_declared_iff.mp hin))

end Graph
end FlowGraph
