import FlowGraph.Proofs.PassageFaults
import FlowGraph.Proofs.Segments

/-! # Building a graph from its own layout

A graph whose empty blocks all lead to themselves is laid out, and a graph is built from the list
and tidied.  The labels and jumps of the list became empty blocks, which tidying takes out again:
what is left are the blocks of the old graph.  A block that does something has the block of its
statement, and an empty block has that of its label or of its jump, whichever of the two stays.

The blocks come in the order of the layout, since places in the list do.
-/
namespace FlowGraph

/-- What a block does: in a graph the labels of a branch have no meaning. -/
def Kind.unlabelled : Kind → Kind
  | .branch br => .branch { br with ifTrue := "", ifFalse := "" }
  | k => k

namespace Kind

/-- Whether a block holds no statement that directs control. -/
def isPlain : Kind → Bool
  | .statement s => s.kind = .statement s
  | _ => true

theorem directions_unlabelled (k : Kind) : k.unlabelled.directions = k.directions := by
  cases k <;> rfl

theorem unlabelled_eq_entry {k : Kind} : k.unlabelled = .entry ↔ k = .entry := by
  cases k <;> simp [unlabelled]

theorem unlabelled_eq_exit {k : Kind} : k.unlabelled = .exit ↔ k = .exit := by
  cases k <;> simp [unlabelled]

end Kind

namespace Graph

open Layout (trim trimFrom fromBlock whole labels labelOf Laid Emits)

namespace WellFormed

variable {g : Graph} (hg : g.WellFormed)
include hg

theorem eq_entry_iff {b : BlockId} {k : Kind} (hk : g.kind? b = some k) :
    b = entry ↔ k = .entry := by
  constructor
  · rintro rfl
    exact Option.some.inj (hk.symm.trans hg.wired.entry_kind)
  · rintro rfl
    exact hg.entry_only hk

theorem eq_exit_iff {b : BlockId} {k : Kind} (hk : g.kind? b = some k) : b = exit ↔ k = .exit := by
  constructor
  · rintro rfl
    exact Option.some.inj (hk.symm.trans hg.wired.exit_kind)
  · rintro rfl
    exact hg.exit_only hk

theorem isTerminal_eq_false_iff {b : BlockId} {k : Kind} (hk : g.kind? b = some k) :
    k.isTerminal = false ↔ b ≠ entry ∧ b ≠ exit := by
  rw [Ne, Ne, hg.eq_entry_iff hk, hg.eq_exit_iff hk]
  cases k <;> simp [Kind.isTerminal]

/-- A block has the exits that its kind demands. -/
theorem outward_perm {b : BlockId} {block : Block} (hb : g.block? b = some block) :
    (g.outward block).Perm block.kind.directions := by
  have hk := kind?_of_block? hb
  refine (hg.listed.outward_perm_iff hb (Kind.nodup_directions _)).mpr
    ⟨fun d => ?_, fun he he' => hg.edge_unique he he'⟩
  by_cases hexit : block.kind = .exit
  · obtain rfl := hg.exit_only (hexit ▸ hk)
    rw [hexit]
    refine ⟨?_, nofun⟩
    rintro ⟨e, t, he⟩
    exact absurd rfl (hg.wired.exit_closed he)
  · exact hg.wired.ways hk hexit d

theorem nodup_map_fst_exits (b : BlockId) : ((g.exits b).map Prod.fst).Nodup := by
  cases hb : g.block? b with
  | none =>
    rw [exits, hb]
    exact List.nodup_nil
  | some block =>
    rw [map_fst_exits hb]
    exact (hg.outward_perm hb).nodup_iff.mpr (Kind.nodup_directions _)

end WellFormed

/-- The blocks of a graph that are in use. -/
def live (g : Graph) : Set BlockId := {b | ∃ block, g.block? b = some block}

/-- **Two graphs are the same but for their handles**: `f` renames the blocks. -/
structure Isomorphism (g g' : Graph) (f : BlockId → BlockId) : Prop where
  entry_eq : f entry = entry
  exit_eq : f exit = exit
  bijOn : Set.BijOn f g.live g'.live
  kind_eq : ∀ {b}, b ∈ g.live → (g'.kind? (f b)).map Kind.unlabelled =
    (g.kind? b).map Kind.unlabelled
  exits_perm : ∀ {b}, b ∈ g.live → (g'.exits (f b)).Perm ((g.exits b).map fun x => (x.1, f x.2))

/-- **A graph is built again**: its layout is trimmed, and the graph of the list is contracted. -/
structure Rebuilt (g g' : Graph) (name : String) (all : List Statement) (onto : BlockId → BlockId) :
    Prop where
  before : g.WellFormed
  straight : g.Straight
  reached : g.Reached
  settled : g.Settled
  laid : ∃ blocks, Laid g g.layoutOrder blocks ∧ all = whole g blocks
  between : (drawn name (trim all)).WellFormed
  contracts : Contracts (drawn name (trim all)) g' onto
  order : KeepsOrder (drawn name (trim all)) g'
  after : g'.WellFormed
  reached_after : g'.Reached
  settled_after : g'.Settled

/-- Where control is in the graph of the trimmed list when it comes to a block. -/
def home (g : Graph) (all : List Statement) (b : BlockId) : BlockId := spot all (fromBlock g all b)

/-- **The block that stands for a block** in the new graph. -/
def image (g : Graph) (all : List Statement) (onto : BlockId → BlockId) (b : BlockId) : BlockId :=
  if b = entry ∨ b = exit then b else onto (home g all b)

theorem image_entry {g : Graph} {all : List Statement} {onto : BlockId → BlockId} :
    image g all onto entry = entry := if_pos (.inl rfl)

theorem image_exit {g : Graph} {all : List Statement} {onto : BlockId → BlockId} :
    image g all onto exit = exit := if_pos (.inr rfl)

theorem image_of_ne {g : Graph} {all : List Statement} {onto : BlockId → BlockId} {b : BlockId}
    (hentry : b ≠ entry) (hexit : b ≠ exit) : image g all onto b = onto (home g all b) :=
  if_neg (not_or.mpr ⟨hentry, hexit⟩)

/-- The block stands for a statement of a block that is laid out. -/
def Within (g : Graph) (all : List Statement) (b z : BlockId) : Prop :=
  ∃ k seg after, g.kind? b = some k ∧ Emits g b seg k ∧ fromBlock g all b = seg ++ after ∧
    ∃ s rest, s :: rest <:+ seg ++ after ∧ after <:+ rest ∧
      trimFrom all (s :: rest) = s :: trimFrom all rest ∧ z = spot all (s :: rest)

theorem eq_of_leads_exits {g : Graph} (hg : g.Listed) {b c t : BlockId} {d : Direction}
    (h : g.exits b = [(d, t)]) (hl : g.Leads b c) : c = t := by
  obtain ⟨e, d', he⟩ := hl
  have hin := hg.mem_exits.mpr ⟨e, he⟩
  rw [h] at hin
  cases List.mem_singleton.mp hin
  rfl

namespace Rebuilt

variable {g g' : Graph} {name : String} {all : List Statement} {onto : BlockId → BlockId}
  (h : Rebuilt g g' name all onto)
include h

/-! ### What a block becomes in the graph of the list -/

theorem declaresOnce : Layout.DeclaresOnce all := by
  obtain ⟨blocks, hlaid, rfl⟩ := h.laid
  exact Layout.declaresOnce_whole h.before h.straight hlaid

theorem mem_label {e : EdgeId} {b t : BlockId} {d : Direction} (he : g.edge? e = some ⟨b, t, d⟩) :
    .label (labelOf (labels g) t) ∈ all := by
  obtain ⟨blocks, hlaid, rfl⟩ := h.laid
  obtain ⟨block, ht⟩ := h.before.listed.target_live he
  exact Layout.mem_whole_label h.before h.straight hlaid ht

theorem exists_segment {b : BlockId} {k : Kind} (hk : g.kind? b = some k) (hne : k ≠ .exit) :
    ∃ seg after, Emits g b seg k ∧ fromBlock g all b = seg ++ after ∧ seg ++ after <:+ all := by
  obtain ⟨blocks, hlaid, rfl⟩ := h.laid
  obtain ⟨seg, after, hemits, hfrom⟩ := Layout.exists_segment h.before h.straight hlaid hk hne
  exact ⟨seg, after, hemits, hfrom, hfrom ▸ List.dropWhile_suffix _⟩

theorem home_entry : home g all entry = place (trim all) (trim all) := by
  obtain ⟨blocks, hlaid, rfl⟩ := h.laid
  rw [home, Layout.fromBlock_entry h.before h.straight hlaid]
  rfl

theorem passes_home_exit :
    Relation.ReflTransGen (drawn name (trim all)).Passes (home g all exit) exit := by
  obtain ⟨blocks, hlaid, rfl⟩ := h.laid
  have hfrom := Layout.fromBlock_exit h.before h.straight hlaid
  have hsuffix : [.label (labelOf (labels g) exit)] <:+ whole g blocks :=
    hfrom ▸ List.dropWhile_suffix _
  rw [home, hfrom]
  exact passes_label hsuffix

/-- From the entry control gets to where it led. -/
theorem passes_home_entry {e : EdgeId} {t : BlockId} {d : Direction}
    (he : g.edge? e = some ⟨entry, t, d⟩) :
    Relation.ReflTransGen (drawn name (trim all)).Passes (home g all entry) (home g all t) := by
  have hk := h.before.wired.entry_kind
  obtain ⟨seg, after, ⟨e', t', he', rfl⟩, hfrom, hsuffix⟩ := h.exists_segment hk nofun
  have hd := (h.before.wired.ways hk nofun d).mp ⟨e, t, he⟩
  obtain rfl : d = .always := List.mem_singleton.mp hd
  obtain rfl := h.before.target_unique he he'
  rw [home, hfrom]
  exact (passes_label hsuffix).trans
    (passes_goto h.declaresOnce ((List.suffix_cons ..).trans hsuffix) (h.mem_label he))

/-- **A block that does something** has the block of its statement. -/
theorem exists_host {b : BlockId} {k : Kind} (hk : g.kind? b = some k)
    (hterm : k.isTerminal = false) (hempty : k ≠ .empty) :
    ∃ z k', Relation.ReflTransGen (drawn name (trim all)).Passes (home g all b) z ∧
      Within g all b z ∧ (drawn name (trim all)).kind? z = some k' ∧ k'.unlabelled = k.unlabelled ∧
      ∀ {e t d}, g.edge? e = some ⟨b, t, d⟩ →
        ∃ e' t', (drawn name (trim all)).edge? e' = some ⟨z, t', d⟩ ∧
          Relation.ReflTransGen (drawn name (trim all)).Passes t' (home g all t) := by
  have hexit : k ≠ .exit := fun hx => by
    rw [hx] at hterm
    cases hterm
  obtain ⟨seg, after, hemits, hfrom, hsuffix⟩ := h.exists_segment hk hexit
  have hlisted := h.between.listed
  have hdirection : ∀ {e t d}, g.edge? e = some ⟨b, t, d⟩ → d ∈ k.directions := fun {e t d} he =>
    (h.before.wired.ways hk hexit d).mp ⟨e, t, he⟩
  cases k with
  | entry => cases hterm
  | exit => cases hterm
  | empty => exact absurd rfl hempty
  | statement s =>
    have hemits' := hemits
    obtain ⟨e₁, t₁, he₁, rfl⟩ := hemits
    have hown := (List.suffix_cons ..).trans hsuffix
    obtain ⟨hstays, hkind, hexits⟩ := spot_statement name (h.straight hk) hown
    refine ⟨_, _, ?_, ⟨_, _, after, hk, hemits', hfrom, s, _, List.suffix_cons ..,
      List.suffix_cons .., hstays, rfl⟩, hkind, rfl, fun {e t d} he => ?_⟩
    · rw [home, hfrom]
      exact passes_label hsuffix
    · obtain rfl : d = .always := List.mem_singleton.mp (hdirection he)
      obtain rfl := h.before.target_unique he he₁
      obtain ⟨e', he'⟩ := hlisted.mem_exits.mp (hexits ▸ List.mem_singleton.mpr rfl)
      -- The way on is over the jump behind the statement.
      exact ⟨e', _, he', passes_goto h.declaresOnce ((List.suffix_cons ..).trans hown)
        (h.mem_label he)⟩
  | branch br =>
    have hemits' := hemits
    obtain ⟨e₁, t₁, e₂, t₂, he₁, he₂, rfl⟩ := hemits
    have hown := (List.suffix_cons ..).trans hsuffix
    obtain ⟨hstays, hkind, hexits⟩ :=
      spot_branch name hown (h.mem_label he₁) (h.mem_label he₂)
    refine ⟨_, _, ?_, ⟨_, _, after, hk, hemits', hfrom, _, _, List.suffix_cons ..,
      List.suffix_refl _, hstays, rfl⟩, hkind, rfl, fun {e t d} he => ?_⟩
    · rw [home, hfrom]
      exact passes_label hsuffix
    · rcases List.mem_pair.mp (hdirection he) with rfl | rfl
      · obtain rfl := h.before.target_unique he he₁
        obtain ⟨e', he'⟩ := hlisted.mem_exits.mp (hexits ▸ List.mem_cons_self)
        exact ⟨e', _, he', .refl⟩
      · obtain rfl := h.before.target_unique he he₂
        obtain ⟨e', he'⟩ :=
          hlisted.mem_exits.mp (hexits ▸ List.mem_cons_of_mem _ List.mem_cons_self)
        exact ⟨e', _, he', .refl⟩

/-- **An empty block** leads to itself, so its label and its jump both stay, and control never gets
out of the two. -/
theorem passes_home_empty {b : BlockId} (hk : g.kind? b = some .empty) {z : BlockId}
    (hpasses : Relation.ReflTransGen (drawn name (trim all)).Passes (home g all b) z) :
    Within g all b z ∧ (drawn name (trim all)).kind? z = some .empty := by
  obtain ⟨seg, after, hemits, hfrom, hsuffix⟩ := h.exists_segment hk nofun
  have hemits' := hemits
  obtain ⟨e, t, he, rfl⟩ := hemits
  obtain rfl := h.settled b hk ⟨e, _, he⟩
  have hjump := (List.suffix_cons ..).trans hsuffix
  obtain ⟨hlabel, hgoto, hexits, hexits'⟩ := spot_loop name h.declaresOnce hsuffix
  have htwo :
      z = spot all (.label (labelOf (labels g) t) :: .goto (labelOf (labels g) t) :: after) ∨
      z = spot all (.goto (labelOf (labels g) t) :: after) := by
    rw [home, hfrom] at hpasses
    induction hpasses with
    | refl => exact .inl rfl
    | tail _ hlast ih =>
      rcases ih with rfl | rfl
      · exact .inr (eq_of_leads_exits h.between.listed hexits hlast.2)
      · exact .inl (eq_of_leads_exits h.between.listed hexits' hlast.2)
  rcases htwo with rfl | rfl
  · exact ⟨⟨_, _, after, hk, hemits', hfrom, _, _, List.suffix_refl _, List.suffix_cons ..,
      hlabel, rfl⟩, kind?_spot hsuffix hlabel⟩
  · exact ⟨⟨_, _, after, hk, hemits', hfrom, _, _, List.suffix_cons .., List.suffix_refl _,
      hgoto, rfl⟩, kind?_spot hjump hgoto⟩

/-- Control leaves the entry, an empty block that leads to itself, or a block that does something.
-/
theorem source_cases {e : EdgeId} {b t : BlockId} {d : Direction}
    (he : g.edge? e = some ⟨b, t, d⟩) :
    b = entry ∨ g.kind? b = some .empty ∧ t = b ∨
      ∃ k, g.kind? b = some k ∧ k.isTerminal = false ∧ k ≠ .empty := by
  obtain ⟨block, hb⟩ : ∃ block, g.block? b = some block := h.before.listed.source_live he
  have hk := kind?_of_block? hb
  cases hkind : block.kind with
  | entry => exact .inl (h.before.entry_only (hkind ▸ hk))
  | exit => exact absurd (h.before.exit_only (hkind ▸ hk)) (h.before.wired.exit_closed he)
  | empty =>
    rw [hkind] at hk
    exact .inr (.inl ⟨hk, h.settled b hk ⟨e, d, he⟩⟩)
  | _ =>
    rw [hkind] at hk
    exact .inr (.inr ⟨_, hk, rfl, nofun⟩)

/-- Control comes to every block that it came to. -/
theorem reachable_home {b : BlockId} (hb : g.Reachable b) :
    (drawn name (trim all)).Reachable (home g all b) := by
  obtain ⟨p, hp⟩ := hb
  induction hp with
  | start =>
    rw [h.home_entry]
    exact Reachable.entry.step (leads_of_exits h.between.listed exits_drawn_entry)
  | @step p b t _ hl ih =>
    obtain ⟨e, d, he⟩ := hl
    rcases h.source_cases he with rfl | ⟨-, rfl⟩ | ⟨k, hk, hterm, hempty⟩
    · exact ih.passes (h.passes_home_entry he)
    · exact ih
    · obtain ⟨z, k', hz, -, -, -, hedges⟩ := h.exists_host hk hterm hempty
      obtain ⟨e', t', he', ht'⟩ := hedges he
      exact ((ih.passes hz).step ⟨e', d, he'⟩).passes ht'

/-! ### What it becomes when that is tidied -/

/-- One block stands for all the blocks that control passes. -/
theorem onto_eq_of_passes {a z : BlockId} (ha : (drawn name (trim all)).Reachable a)
    (hpasses : Relation.ReflTransGen (drawn name (trim all)).Passes a z) : onto a = onto z := by
  induction hpasses with
  | refl => rfl
  | tail hac hlast ih =>
    exact ih.trans (h.contracts.onto_eq h.between h.after h.settled_after (ha.passes hac)
      hlast.1 hlast.2)

/-- An edge leads to the block that stands for its target. -/
theorem onto_eq_image {e : EdgeId} {b t z : BlockId} {d : Direction}
    (he : g.edge? e = some ⟨b, t, d⟩) (hz : (drawn name (trim all)).Reachable z)
    (hpasses : Relation.ReflTransGen (drawn name (trim all)).Passes z (home g all t)) :
    onto z = image g all onto t := by
  have hentry : t ≠ entry := h.before.wired.entry_closed he
  by_cases hexit : t = exit
  · subst hexit
    rw [h.onto_eq_of_passes hz (hpasses.trans h.passes_home_exit), image_exit]
    exact h.contracts.fixed h.after.wired.exit_kind
  · rw [h.onto_eq_of_passes hz hpasses, image_of_ne hentry hexit]

section
variable {b : BlockId} {k : Kind} (hk : g.kind? b = some k) (hterm : k.isTerminal = false)
include hk hterm

theorem image_eq_onto : image g all onto b = onto (home g all b) := by
  obtain ⟨hentry, hexit⟩ := (h.before.isTerminal_eq_false_iff hk).mp hterm
  exact image_of_ne hentry hexit

theorem reachable_before : g.Reachable b := by
  refine h.before.reachable_of_kind? h.reached hk ?_
  rintro rfl
  cases hterm

/-- A block that does something is the block of its statement. -/
theorem image_solid (hempty : k ≠ .empty) :
    ∃ k', Within g all b (image g all onto b) ∧ g'.kind? (image g all onto b) = some k' ∧
      k'.unlabelled = k.unlabelled ∧ ∀ {e t d}, g.edge? e = some ⟨b, t, d⟩ →
        ∃ e', g'.edge? e' = some ⟨image g all onto b, image g all onto t, d⟩ := by
  obtain ⟨z, k', hz, hwithin, hk', hsame, hedges⟩ := h.exists_host hk hterm hempty
  have hhome := h.reachable_home (h.reachable_before hk hterm)
  have hreach := hhome.passes hz
  have hsolid : k' ≠ .empty := by
    rintro rfl
    cases k with
    | empty => exact hempty rfl
    | _ => cases hsame
  have hkept := h.contracts.kept hreach hk' hsolid
  have himage : image g all onto b = z := by
    rw [h.image_eq_onto hk hterm, h.onto_eq_of_passes hhome hz, h.contracts.fixed hkept]
  rw [himage]
  refine ⟨k', hwithin, hkept, hsame, fun {e t d} he => ?_⟩
  obtain ⟨e', t', he', ht'⟩ := hedges he
  rw [← h.onto_eq_image he (hreach.step ⟨e', d, he'⟩) ht']
  exact h.contracts.exists_edge h.between h.after he' hkept

end

/-- An empty block is its label or its jump. -/
theorem image_empty {b : BlockId} (hk : g.kind? b = some .empty) :
    Within g all b (image g all onto b) ∧ g'.kind? (image g all onto b) = some .empty := by
  have hhome := h.reachable_home (h.reachable_before hk rfl)
  obtain ⟨hwithin, hkind⟩ := h.passes_home_empty hk (h.contracts.passes hhome)
  rw [h.image_eq_onto hk rfl]
  obtain ⟨block, hlive⟩ := h.after.live_of_reachable (h.contracts.reachable hhome)
  have hk' := kind?_of_block? hlive
  refine ⟨hwithin, hk'.trans ?_⟩
  rw [← h.contracts.kind?_eq hk', hkind]

/-! ### The blocks and edges of the new graph -/

theorem exists_kind {b : BlockId} {k : Kind} (hk : g.kind? b = some k) :
    ∃ k', g'.kind? (image g all onto b) = some k' ∧ k'.unlabelled = k.unlabelled := by
  cases k with
  | entry =>
    obtain rfl := h.before.entry_only hk
    exact ⟨_, h.after.wired.entry_kind, rfl⟩
  | exit =>
    obtain rfl := h.before.exit_only hk
    exact ⟨_, h.after.wired.exit_kind, rfl⟩
  | empty => exact ⟨_, (h.image_empty hk).2, rfl⟩
  | _ =>
    obtain ⟨k', -, hk', hsame, -⟩ := h.image_solid hk rfl nofun
    exact ⟨k', hk', hsame⟩

theorem exists_edge {e : EdgeId} {b t : BlockId} {d : Direction} (he : g.edge? e = some ⟨b, t, d⟩) :
    ∃ e', g'.edge? e' = some ⟨image g all onto b, image g all onto t, d⟩ := by
  rcases h.source_cases he with rfl | ⟨hk, rfl⟩ | ⟨k, hk, hterm, hempty⟩
  · obtain rfl : d = .always :=
      List.mem_singleton.mp ((h.before.wired.ways h.before.wired.entry_kind nofun d).mp ⟨e, t, he⟩)
    have hin : (.always, home g all entry) ∈ (drawn name (trim all)).exits entry := by
      rw [exits_drawn_entry, h.home_entry]
      exact List.mem_singleton.mpr rfl
    obtain ⟨e', he'⟩ := h.between.listed.mem_exits.mp hin
    rw [← h.onto_eq_image he (h.reachable_home .entry) (h.passes_home_entry he), image_entry]
    exact h.contracts.exists_edge h.between h.after he' h.after.wired.entry_kind
  · have hk' := (h.image_empty hk).2
    obtain ⟨e', t', he'⟩ := (h.after.wired.ways hk' nofun .always).mpr List.mem_cons_self
    obtain rfl : d = .always :=
      List.mem_singleton.mp ((h.before.wired.ways hk nofun d).mp ⟨e, _, he⟩)
    rw [h.settled_after _ hk' ⟨e', _, he'⟩] at he'
    exact ⟨e', he'⟩
  · obtain ⟨k', -, -, -, hedges⟩ := h.image_solid hk hterm hempty
    exact hedges he

/-- **The edges** of a block that is left are those of the old one. -/
theorem edge_iff {b t' : BlockId} {d : Direction} {k : Kind} (hk : g.kind? b = some k) :
    (∃ e, g'.edge? e = some ⟨image g all onto b, t', d⟩) ↔
      ∃ e t, g.edge? e = some ⟨b, t, d⟩ ∧ t' = image g all onto t := by
  constructor
  · rintro ⟨e, he⟩
    obtain ⟨k', hk', hsame⟩ := h.exists_kind hk
    have hne' := h.after.kind_ne_exit he hk'
    have hd := (h.after.wired.ways hk' hne' d).mp ⟨e, t', he⟩
    rw [← Kind.directions_unlabelled, hsame, Kind.directions_unlabelled] at hd
    have hne : k ≠ .exit := by
      rintro rfl
      cases hd
    obtain ⟨e₁, t, he₁⟩ := (h.before.wired.ways hk hne d).mpr hd
    obtain ⟨e₂, he₂⟩ := h.exists_edge he₁
    exact ⟨e₁, t, he₁, h.after.target_unique he he₂⟩
  · rintro ⟨e, t, he, rfl⟩
    exact h.exists_edge he

/-! ### The blocks come in the order of the layout -/

theorem within_image {b : BlockId} {k : Kind} (hk : g.kind? b = some k)
    (hterm : k.isTerminal = false) : Within g all b (image g all onto b) := by
  by_cases hempty : k = .empty
  · exact (h.image_empty (hempty ▸ hk)).1
  · obtain ⟨_, hwithin, -⟩ := h.image_solid hk hterm hempty
    exact hwithin

/-- What a later segment stands for comes later. -/
theorem slot_lt_of_within {b b' z z' : BlockId} (hz : Within g all b z) (hz' : Within g all b' z')
    {k : Kind} {seg after : List Statement} (hk : g.kind? b = some k) (hemits : Emits g b seg k)
    (hfrom : fromBlock g all b = seg ++ after) (hlater : fromBlock g all b' <:+ after) :
    z.slot < z'.slot := by
  obtain ⟨k₁, seg₁, after₁, hk₁, hemits₁, hfrom₁, s, rest, hsuffix, hafter, hstays, rfl⟩ := hz
  obtain ⟨k₂, seg₂, after₂, -, -, hfrom₂, s', rest', hsuffix', -, hstays', rfl⟩ := hz'
  obtain rfl : k = k₁ := Option.some.inj (hk.symm.trans hk₁)
  obtain rfl := hemits.eq h.before hemits₁
  obtain rfl : after = after₁ := List.append_cancel_left (hfrom.symm.trans hfrom₁)
  rw [← hfrom₂] at hsuffix'
  have hbehind : trimFrom all (s' :: rest') <:+ trimFrom all rest :=
    Layout.shorten_suffix ((hsuffix'.trans hlater).trans hafter)
  have hwhole : trimFrom all (s :: rest) <:+ trim all :=
    trimFrom_suffix (hsuffix.trans (hfrom ▸ List.dropWhile_suffix _))
  rw [hstays'] at hbehind
  rw [hstays] at hwhole
  have hlt := hbehind.length_le
  have hle := hwhole.length_le
  rw [List.length_cons] at hlt hle
  rw [spot, spot, hstays, hstays']
  show 2 + ((trim all).length - (trimFrom all rest).length.succ) <
    2 + ((trim all).length - (trimFrom all rest').length.succ)
  omega

/-- **The new blocks are numbered in the order of the layout.** -/
theorem pairwise_image : g.layoutOrder.Pairwise fun b b' =>
    b ≠ entry ∧ b ≠ exit → b' ≠ entry ∧ b' ≠ exit →
      (image g all onto b).slot < (image g all onto b').slot := by
  have hwithin : ∀ {b}, b ∈ g.layoutOrder → b ≠ entry ∧ b ≠ exit →
      Within g all b (image g all onto b) := by
    intro b hb hne
    obtain ⟨block, hlive⟩ := h.before.mem_layoutOrder.mp hb
    have hk := kind?_of_block? hlive
    exact h.within_image hk ((h.before.isTerminal_eq_false_iff hk).mpr hne)
  obtain ⟨blocks, hlaid, hall⟩ := h.laid
  have hspots := hlaid.pairwise h.before h.declaresOnce (hall.trans (List.nil_append _).symm)
  refine hspots.imp_of_mem ?_
  intro b b' hb hb' hsegments hne hne'
  obtain ⟨k, seg, after, hk, hemits, hfrom, hlater⟩ := hsegments hne.2 hne'.2
  exact h.slot_lt_of_within (hwithin hb hne) (hwithin hb' hne') hk hemits hfrom hlater

/-! ### The isomorphism -/

theorem mapsTo_image : Set.MapsTo (image g all onto) g.live g'.live := by
  rintro b ⟨block, hb⟩
  obtain ⟨k', hk', -⟩ := h.exists_kind (kind?_of_block? hb)
  obtain ⟨block', hb', -⟩ := block?_of_kind? hk'
  exact ⟨block', hb'⟩

theorem injOn_image : Set.InjOn (image g all onto) g.live := by
  rintro b ⟨block, hb⟩ b' ⟨block', hb'⟩ heq
  have hk := kind?_of_block? hb
  have hk' := kind?_of_block? hb'
  obtain ⟨k₁, hk₁, hsame₁⟩ := h.exists_kind hk
  obtain ⟨k₂, hk₂, hsame₂⟩ := h.exists_kind hk'
  rw [heq, hk₂, Option.some.injEq] at hk₁
  have hsame : block.kind.unlabelled = block'.kind.unlabelled := by rw [← hsame₁, ← hk₁, hsame₂]
  have hentry : b = entry ↔ b' = entry := by
    rw [h.before.eq_entry_iff hk, h.before.eq_entry_iff hk', ← Kind.unlabelled_eq_entry, hsame,
      Kind.unlabelled_eq_entry]
  have hexit : b = exit ↔ b' = exit := by
    rw [h.before.eq_exit_iff hk, h.before.eq_exit_iff hk', ← Kind.unlabelled_eq_exit, hsame,
      Kind.unlabelled_eq_exit]
  by_cases hb₀ : b = entry
  · rw [hb₀, hentry.mp hb₀]
  by_cases hb₁ : b = exit
  · rw [hb₁, hexit.mp hb₁]
  -- Two blocks that are not terminal come one behind the other.
  by_contra hne
  have hdiffer : g.layoutOrder.Pairwise fun b b' => b ≠ entry ∧ b ≠ exit → b' ≠ entry ∧ b' ≠ exit →
      image g all onto b ≠ image g all onto b' :=
    h.pairwise_image.imp fun hlt hb hb' heq => Nat.ne_of_lt (hlt hb hb') (congrArg BlockId.slot heq)
  have hsymm : Std.Symm fun b b' => b ≠ entry ∧ b ≠ exit → b' ≠ entry ∧ b' ≠ exit →
      image g all onto b ≠ image g all onto b' :=
    ⟨fun _ _ hbb hb' hb => Ne.symm (hbb hb hb')⟩
  exact hdiffer.forall (h.before.mem_layoutOrder.mpr ⟨block, hb⟩)
    (h.before.mem_layoutOrder.mpr ⟨block', hb'⟩) hne ⟨hb₀, hb₁⟩
    ⟨mt hentry.mpr hb₀, mt hexit.mpr hb₁⟩ heq

/-- Every block that is left stands for an old one. -/
theorem surjOn_image : Set.SurjOn (image g all onto) g.live g'.live := by
  have hreach : ∀ {z}, g'.Reachable z → ∃ b, b ∈ g.live ∧ image g all onto b = z := by
    rintro z ⟨p, hp⟩
    induction hp with
    | start => exact ⟨entry, h.before.entry_live, image_entry⟩
    | @step p a z _ hl ih =>
      obtain ⟨b, ⟨block, hb⟩, rfl⟩ := ih
      obtain ⟨e, d, he⟩ := hl
      obtain ⟨e', t, he', rfl⟩ := (h.edge_iff (kind?_of_block? hb)).mp ⟨e, he⟩
      exact ⟨t, h.before.listed.target_live he', rfl⟩
  rintro z ⟨block, hz⟩
  rcases h.reached_after hz with rfl | hz
  · exact ⟨exit, h.before.exit_live, image_exit⟩
  · exact hreach hz

/-- **The new graph is the old one** but for its handles. -/
theorem isomorphism : Isomorphism g g' (image g all onto) where
  entry_eq := image_entry
  exit_eq := image_exit
  bijOn := ⟨h.mapsTo_image, h.injOn_image, h.surjOn_image⟩
  kind_eq {b} hb := by
    obtain ⟨block, hb⟩ := hb
    have hk := kind?_of_block? hb
    obtain ⟨k', hk', hsame⟩ := h.exists_kind hk
    rw [hk', hk, Option.map_some, Option.map_some, hsame]
  exits_perm {b} hb := by
    obtain ⟨block, hb⟩ := hb
    have hk := kind?_of_block? hb
    have hnodup : (((g.exits b).map fun x => (x.1, image g all onto x.2)).map Prod.fst).Nodup := by
      rw [List.map_map]
      exact h.before.nodup_map_fst_exits b
    refine (List.perm_ext_iff_of_nodup (h.after.nodup_map_fst_exits _).of_map hnodup.of_map).mpr ?_
    · rintro ⟨d, t'⟩
      rw [h.after.listed.mem_exits, h.edge_iff hk, List.mem_map]
      constructor
      · rintro ⟨e, t, he, rfl⟩
        exact ⟨(d, t), h.before.listed.mem_exits.mpr ⟨e, he⟩, rfl⟩
      · rintro ⟨⟨d', t⟩, hin, heq⟩
        cases heq
        obtain ⟨e, he⟩ := h.before.listed.mem_exits.mp hin
        exact ⟨e, t, he, rfl⟩

end Rebuilt

/-- **A graph can be built again** from its layout. -/
theorem WellFormed.exists_rebuilt {g : Graph} (name : String) (hg : g.WellFormed) (hs : g.Straight)
    (hr : g.Reached) (hsettled : g.Settled) :
    ∃ all count g' onto, g.layOut.outcome = .ok (trim all) ∧
      Graph.ofProcedure ⟨name, trim all⟩ = .ok (drawn name (trim all)) ∧
      (drawn name (trim all)).tidy.outcome = .ok (count, g') ∧
      (drawn name (trim all)).Tidies g' ∧ Rebuilt g g' name all onto := by
  obtain ⟨blocks, hlaid, hout⟩ := hg.exists_layOut
  have hbuilt := ofProcedure_trim name (Layout.nodup_declared_whole hg hs hlaid)
    fun _ => Layout.declared_of_target hg hs hlaid
  have hbetween := WellFormed.ofProcedure hbuilt
  obtain ⟨count, g', htidy, htidies, hsettled'⟩ :=
    hbetween.settles_tidy (phiFree_of_ofProcedure hbuilt)
  obtain ⟨onto, hcontracts⟩ := htidies.contracts
  rw [Layout.dropUnusedLabels_dropFallthrough] at hout
  exact ⟨_, count, g', onto, hout, hbuilt, htidy, htidies, hg, hs, hr, hsettled,
    ⟨blocks, hlaid, rfl⟩, hbetween, hcontracts, htidies.order, htidies.wellFormed, htidies.reached,
    hsettled'⟩

/-! ### Conditions that can be checked -/

theorem straight_iff_forall_blocks {g : Graph} :
    g.Straight ↔ ∀ block ∈ g.liveBlocks, block.kind.isPlain = true := by
  constructor
  · intro h block hblock
    obtain ⟨b, hb⟩ := mem_liveBlocks.mp hblock
    cases hkind : block.kind with
    | statement s => exact decide_eq_true (h (hkind ▸ kind?_of_block? hb))
    | _ => rfl
  · intro h b s hk
    obtain ⟨block, hb, hkind⟩ := block?_of_kind? hk
    have hplain := h block (mem_liveBlocks.mpr ⟨b, hb⟩)
    rw [hkind] at hplain
    exact of_decide_eq_true hplain

instance (g : Graph) : Decidable g.Straight := decidable_of_iff _ straight_iff_forall_blocks.symm

namespace WellFormed

variable {g : Graph} (hg : g.WellFormed)
include hg

theorem reached_iff : g.Reached ↔ g.unreachable = [] := by
  rw [List.eq_nil_iff_forall_not_mem]
  constructor
  · intro hr b hb
    obtain ⟨⟨block, hlive⟩, hexit, hnot⟩ := hg.mem_unreachable.mp hb
    exact hnot ((hr hlive).resolve_left hexit)
  · intro hnone b block hb
    by_contra hnot
    rw [not_or] at hnot
    exact hnone b (hg.mem_unreachable.mpr ⟨⟨block, hb⟩, hnot⟩)

theorem settled_iff : g.Settled ↔
    ∀ b ∈ g.blockIds, g.kind? b = some .empty → ∀ t ∈ g.targets b, t = b := by
  constructor
  · exact fun h b _ hk t ht => h b hk (hg.listed.mem_targets.mp ht)
  · intro h b hk t hl
    obtain ⟨block, hb, -⟩ := block?_of_kind? hk
    exact h b (hg.listed.mem_blockIds.mpr ⟨block, hb⟩) hk t (hg.listed.mem_targets.mpr hl)

end WellFormed
end Graph

namespace Routine

/-- **Building undoes laying out.**  If every block but the terminal ones is reached, the empty
blocks lead to themselves and the others hold no statement that directs control, then a graph can be
built from the layout, and tidied it is the old graph but for its handles: a renaming of the blocks
keeps what they do and all their ways out.  Phi functions, if there are any, are not laid out. -/
theorem layOut_rebuilt (r : Routine) (name : String) (hg : r.graph.WellFormed)
    (hr : r.graph.Reached) (hsettled : r.graph.Settled) (hs : r.graph.Straight) :
    ∃ ss built count tidied f, r.layOut.outcome = .ok ss ∧
      (ofProcedure ⟨name, ss⟩).outcome = .ok built ∧
      built.tidy.outcome = .ok (count, tidied) ∧ r.graph.Isomorphism tidied.graph f := by
  obtain ⟨all, count, g', onto, hout, hbuilt, htidy, htidies, h⟩ :=
    hg.exists_rebuilt name hs hr hsettled
  have hroutine := ofProcedure_of_ok hbuilt
  exact ⟨_, _, count, _, _, hout, hroutine, tidy_eq_ok htidy htidies, h.isomorphism⟩

/-- A loop that is left only for a block which leads to itself: the exit is not reached.  The branch
lists the way out of the loop first. -/
def spinning : Routine where
  names := .new
  dominance := none
  web := none
  graph :=
    { name := "spinning"
      blocks := #[
        some { id := ⟨0⟩, kind := .entry, succs := [⟨3⟩] },
        some { id := ⟨1⟩, kind := .exit },
        some { id := ⟨2⟩, kind := .empty, preds := [⟨1⟩, ⟨4⟩], succs := [⟨4⟩] },
        none,
        some { id := ⟨4⟩, kind := .statement (.eval (.call "next" [])),
               preds := [⟨0⟩], succs := [⟨2⟩] },
        some { id := ⟨5⟩, kind := .branch ⟨.plain "more", "", ""⟩
               preds := [⟨2⟩, ⟨3⟩], succs := [⟨1⟩, ⟨0⟩] }]
      edges := #[some ⟨⟨5⟩, ⟨4⟩, .onTrue⟩, some ⟨⟨5⟩, ⟨2⟩, .onFalse⟩, some ⟨⟨4⟩, ⟨5⟩, .always⟩,
        some ⟨⟨0⟩, ⟨5⟩, .always⟩, some ⟨⟨2⟩, ⟨2⟩, .always⟩] }

theorem spinning_rebuilt : spinning.graph.WellFormed ∧ spinning.graph.Reached ∧
    spinning.graph.Settled ∧ spinning.graph.Straight ∧
    ∃ ss built count tidied f, spinning.layOut.outcome = .ok ss ∧
      (ofProcedure ⟨"again", ss⟩).outcome = .ok built ∧
      built.tidy.outcome = .ok (count, tidied) ∧ spinning.graph.Isomorphism tidied.graph f := by
  have hg : spinning.graph.WellFormed := by decide
  have hr : spinning.graph.Reached := hg.reached_iff.mpr (by decide)
  have hsettled : spinning.graph.Settled := hg.settled_iff.mpr (by decide)
  have hs : spinning.graph.Straight := by decide
  exact ⟨hg, hr, hsettled, hs, layOut_rebuilt spinning "again" hg hr hsettled hs⟩

end Routine
end FlowGraph
