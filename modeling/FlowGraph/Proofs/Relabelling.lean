import FlowGraph.Proofs.Rebuilding
import Mathlib.Logic.Equiv.Fintype

/-! # Graphs that differ in their handles are laid out alike

A search meets the blocks of isomorphic graphs in the same order, as long as each block lists its
ways out in the same order in both.  So their layouts differ in the labels only, and a renaming of
labels takes one to the other, also after jumps and labels that are not needed have been left out.
-/
namespace FlowGraph

/-- A statement under other labels. -/
def Statement.relabel (σ : Label → Label) : Statement → Statement
  | .label l => .label (σ l)
  | .goto l => .goto (σ l)
  | .branch br => .branch { br with ifTrue := σ br.ifTrue, ifFalse := σ br.ifFalse }
  | s => s

/-- **A procedure under other labels.** -/
def Procedure.relabel (σ : Label → Label) (p : Procedure) : Procedure :=
  ⟨p.name, p.statements.map (Statement.relabel σ)⟩

namespace Statement

@[simp] theorem relabel_label (σ : Label → Label) (l : Label) :
    (label l).relabel σ = label (σ l) := rfl

@[simp] theorem relabel_goto (σ : Label → Label) (l : Label) :
    (goto l).relabel σ = goto (σ l) := rfl

@[simp] theorem relabel_branch (σ : Label → Label) (br : Branch) : (branch br).relabel σ =
    branch { br with ifTrue := σ br.ifTrue, ifFalse := σ br.ifFalse } := rfl

theorem relabel_id (s : Statement) : s.relabel id = s := by cases s <;> rfl

theorem relabel_of_straight {s : Statement} (h : s.kind = .statement s) (σ : Label → Label) :
    s.relabel σ = s := by
  cases s with
  | label l => cases h
  | goto l => cases h
  | branch br => cases h
  | _ => rfl

theorem relabel_eq_goto {σ : Label → Label} {s : Statement} {l : Label} :
    s.relabel σ = .goto l ↔ ∃ m, s = .goto m ∧ σ m = l := by
  cases s <;> simp [relabel]

theorem relabel_eq_label {σ : Label → Label} {s : Statement} {l : Label} :
    s.relabel σ = .label l ↔ ∃ m, s = .label m ∧ σ m = l := by
  cases s <;> simp [relabel]

end Statement

namespace Layout

/-! ### Lists -/

section
variable {σ : Label → Label}

theorem mentioned_relabel (s : Statement) : mentioned (s.relabel σ) = (mentioned s).map σ := by
  cases s <;> rfl

variable (hσ : Function.Injective σ)
include hσ

theorem dropFallthrough_relabel (ss : List Statement) :
    dropFallthrough (ss.map (Statement.relabel σ)) =
      (dropFallthrough ss).map (Statement.relabel σ) := by
  induction ss with
  | nil => rfl
  | cons s ss ih =>
    rcases dropFallthrough_cases s ss with ⟨l, rest, rfl, rfl⟩ | hstays
    · rw [dropFallthrough_goto, ← dropFallthrough_label, ← ih]
      exact dropFallthrough_goto (σ l) _
    · rw [hstays, List.map_cons, List.map_cons, ← ih]
      refine (dropFallthrough_cases _ _).resolve_left ?_
      rintro ⟨l, rest, hgoto, hlabel⟩
      obtain ⟨m, rfl, hm⟩ := Statement.relabel_eq_goto.mp hgoto
      obtain ⟨s', ss', rfl, hs', -⟩ := List.map_eq_cons_iff.mp hlabel
      obtain ⟨m', rfl, hm'⟩ := Statement.relabel_eq_label.mp hs'
      rw [hσ (hm'.trans hm.symm), dropFallthrough_goto] at hstays
      cases hstays

/-- **What is left out** does not depend on the names of the labels. -/
theorem dropUnusedLabels_relabel (ss : List Statement) :
    dropUnusedLabels (ss.map (Statement.relabel σ)) =
      (dropUnusedLabels ss).map (Statement.relabel σ) := by
  have hmentions : (ss.map (Statement.relabel σ)).flatMap mentioned =
      (ss.flatMap mentioned).map σ := by
    rw [List.flatMap_map, List.map_flatMap]
    exact List.flatMap_congr fun s _ => mentioned_relabel s
  rw [dropUnusedLabels, dropUnusedLabels, hmentions, List.filter_map]
  refine congrArg _ (List.filter_congr fun s _ => ?_)
  cases s with
  | label l =>
    simp only [Function.comp_apply, Statement.relabel_label, List.count_map_of_injective _ σ hσ]
  | _ => rfl

end
end Layout

namespace Graph

variable {g g' : Graph} {f : BlockId → BlockId}

/-! ### The order of the blocks -/

/-- **Every block lists its ways out in the order of the directions of its kind.** -/
def InOrder (g : Graph) : Prop :=
  ∀ ⦃b block⦄, g.block? b = some block → g.outward block = block.kind.directions

/-- A graph from which things are taken out stays in order, if no way out is missing. -/
theorem KeepsOrder.inOrder (h : KeepsOrder g g') (hg : g.InOrder) (hg' : g'.WellFormed)
    (hkind : ∀ {b k}, g'.kind? b = some k → g.kind? b = some k) : g'.InOrder := by
  intro b block' hb'
  obtain ⟨block, hb, hsub⟩ := h.outward hb'
  have hsame : block'.kind = block.kind :=
    Option.some.inj ((hkind (kind?_of_block? hb')).symm.trans (kind?_of_block? hb))
  rw [hg hb, ← hsame] at hsub
  exact hsub.eq_of_length (hg'.outward_perm hb').length_eq

/-- What comes after the reachable blocks in the layout is the exit, if anything does. -/
theorem WellFormed.layoutOrder_eq_append (hg : g.WellFormed) (hr : g.Reached) :
    ∃ rest, g.layoutOrder = g.reachable ++ rest ∧ ∀ b ∈ rest, b = exit := by
  obtain ⟨new, hnew⟩ : (DepthFirst.search g.targets g.blocks.size [entry]).entered <:+
      (DepthFirst.search g.targets g.blocks.size (entry :: g.blockIds)).entered :=
    DepthFirst.entered_suffix_foldl (DepthFirst.entered_suffix_visit _) g.blockIds _
  have hsplit : g.layoutOrder = g.reachable ++ new.reverse := by
    rw [layoutOrder, DepthFirst.preorder, ← hnew, List.reverse_append]
    rfl
  refine ⟨new.reverse, hsplit, fun b hb => ?_⟩
  obtain ⟨block, hlive⟩ := hg.mem_layoutOrder.mp (hsplit ▸ List.mem_append_right _ hb)
  refine (hr hlive).resolve_right fun hreach => ?_
  exact List.disjoint_of_nodup_append (hsplit ▸ hg.nodup_layoutOrder)
    (hg.mem_reachable.mpr hreach) hb

theorem WellFormed.filter_layoutOrder (hg : g.WellFormed) (hr : g.Reached) :
    g.layoutOrder.filter (· ≠ exit) = g.reachable.filter (· ≠ exit) := by
  obtain ⟨rest, hsplit, hrest⟩ := hg.layoutOrder_eq_append hr
  have hnone : rest.filter (· ≠ exit) = [] :=
    List.filter_eq_nil_iff.mpr fun b hb => by simpa using hrest b hb
  rw [hsplit, List.filter_append, hnone, List.append_nil]

/-- Two lists of the same pairs are equal if their keys, all different, come in the same order. -/
theorem eq_of_perm_of_map_fst {α β : Type} {xs ys : List (α × β)} (hperm : xs.Perm ys)
    (hfst : xs.map Prod.fst = ys.map Prod.fst) (hnodup : (ys.map Prod.fst).Nodup) : xs = ys := by
  refine List.ext_getElem hperm.length_eq fun i hi hi' => ?_
  have hkey : xs[i].1 = ys[i].1 := by
    have h := List.getElem_of_eq hfst (by rwa [List.length_map])
    rwa [List.getElem_map, List.getElem_map] at h
  exact List.inj_on_of_nodup_map hnodup (hperm.subset (List.getElem_mem hi)) (List.getElem_mem hi')
    hkey

namespace Isomorphism

variable (h : Isomorphism g g' f)
include h

theorem eq_entry_iff (hg : g.WellFormed) {b : BlockId} (hb : b ∈ g.live) :
    f b = entry ↔ b = entry := by
  refine ⟨fun heq => h.bijOn.injOn hb hg.entry_live (heq.trans h.entry_eq.symm), ?_⟩
  rintro rfl
  exact h.entry_eq

theorem eq_exit_iff (hg : g.WellFormed) {b : BlockId} (hb : b ∈ g.live) :
    f b = exit ↔ b = exit := by
  refine ⟨fun heq => h.bijOn.injOn hb hg.exit_live (heq.trans h.exit_eq.symm), ?_⟩
  rintro rfl
  exact h.exit_eq

theorem kind_unlabelled {b : BlockId} {k k' : Kind} (hk : g.kind? b = some k)
    (hk' : g'.kind? (f b) = some k') : k'.unlabelled = k.unlabelled := by
  obtain ⟨block, hb, -⟩ := block?_of_kind? hk
  have heq := h.kind_eq ⟨block, hb⟩
  rw [hk, hk'] at heq
  exact Option.some.inj heq

theorem exists_kind {b : BlockId} {k : Kind} (hk : g.kind? b = some k) :
    ∃ k', g'.kind? (f b) = some k' ∧ k'.unlabelled = k.unlabelled := by
  obtain ⟨block, hb, -⟩ := block?_of_kind? hk
  obtain ⟨block', hb'⟩ := h.bijOn.mapsTo ⟨block, hb⟩
  have hk' := kind?_of_block? hb'
  exact ⟨_, hk', h.kind_unlabelled hk hk'⟩

variable (hg : g.WellFormed) (hg' : g'.WellFormed)
include hg hg'

theorem exists_edge {e : EdgeId} {b t : BlockId} {d : Direction} (he : g.edge? e = some ⟨b, t, d⟩) :
    ∃ e', g'.edge? e' = some ⟨f b, f t, d⟩ := by
  refine hg'.listed.mem_exits.mp ((h.exits_perm (hg.listed.source_live he)).mem_iff.mpr ?_)
  exact List.mem_map.mpr ⟨(d, t), hg.listed.mem_exits.mpr ⟨e, he⟩, rfl⟩

variable (ho : g.InOrder) (ho' : g'.InOrder)
include ho ho'

omit hg in
theorem targets_eq {b : BlockId} (hb : b ∈ g.live) : g'.targets (f b) = (g.targets b).map f := by
  obtain ⟨block, hlive⟩ := hb
  obtain ⟨block', hlive'⟩ := h.bijOn.mapsTo ⟨block, hlive⟩
  have hsame := h.kind_unlabelled (kind?_of_block? hlive) (kind?_of_block? hlive')
  have hfst : (g'.exits (f b)).map Prod.fst =
      ((g.exits b).map fun x => (x.1, f x.2)).map Prod.fst := by
    rw [List.map_map, map_fst_exits hlive', ho' hlive', ← Kind.directions_unlabelled, hsame,
      Kind.directions_unlabelled, ← ho hlive, ← map_fst_exits hlive]
    rfl
  have hexits := eq_of_perm_of_map_fst (h.exits_perm ⟨block, hlive⟩) hfst
    (hfst ▸ hg'.nodup_map_fst_exits (f b))
  rw [← map_snd_exits, hexits, ← map_snd_exits, List.map_map, List.map_map]
  rfl

/-- **A search meets the blocks in the same order.** -/
theorem reachable_eq : g'.reachable = g.reachable.map f := by
  have hlive : ∀ {b}, b ∈ g.blockIds ↔ b ∈ g.live := hg.listed.mem_blockIds
  have hclosed : ∀ v ∈ g.blockIds, ∀ w ∈ g.targets v, w ∈ g.blockIds := fun v _ w hw =>
    hg.listed.mem_blockIds.mpr (hg.listed.live_of_leads (hg.listed.mem_targets.mp hw))
  have hnext : ∀ v ∈ g.blockIds, g'.targets (f v) = (g.targets v).map f := fun v hv =>
    h.targets_eq hg' ho ho' (hlive.mp hv)
  have hinj : ∀ x ∈ g.blockIds, ∀ y ∈ g.blockIds, f x = f y → x = y := fun x hx y hy =>
    h.bijOn.injOn (hlive.mp hx) (hlive.mp hy)
  have hroot : ∀ r ∈ [entry], r ∈ g.blockIds := fun r hr =>
    List.mem_singleton.mp hr ▸ hg.listed.mem_blockIds.mpr hg.entry_live
  -- The tables may differ in size, which is no more than a bound to either search.
  have hbound := DepthFirst.preorder_of_le hg.handles_closed (Nat.le_of_eq length_handles)
    (Nat.le_max_left g.blocks.size g'.blocks.size) hg.entry_mem_handles
  have hbound' := DepthFirst.preorder_of_le hg'.handles_closed (Nat.le_of_eq length_handles)
    (Nat.le_max_right g.blocks.size g'.blocks.size) hg'.entry_mem_handles
  have hmap := DepthFirst.preorder_map hclosed hnext hinj (max g.blocks.size g'.blocks.size) hroot
  rw [List.map_singleton, h.entry_eq, hbound, hbound'] at hmap
  exact hmap

theorem filter_layoutOrder (hr : g.Reached) (hr' : g'.Reached) :
    g'.layoutOrder.filter (· ≠ exit) = (g.layoutOrder.filter (· ≠ exit)).map f := by
  rw [hg'.filter_layoutOrder hr', hg.filter_layoutOrder hr, h.reachable_eq hg hg' ho ho',
    List.filter_map]
  refine congrArg _ (List.filter_congr fun b hb => ?_)
  have hiff := h.eq_exit_iff hg (hg.live_of_reachable (hg.mem_reachable.mp hb))
  simp only [Function.comp_apply, ne_eq, hiff]

end Isomorphism
end Graph

namespace Layout

variable {g g' : Graph} {f : BlockId → BlockId}

/-! ### The statements of the blocks -/

/-- The blocks are laid out in one way. -/
theorem Laid.eq (hg : g.WellFormed) {order : List BlockId} {blocks blocks' : List (List Statement)}
    (h : Laid g order blocks) (h' : Laid g order blocks') : blocks = blocks' := by
  induction h generalizing blocks' with
  | nil =>
    cases h'
    rfl
  | cons hb _ ih =>
    cases h' with
    | cons hb' hrest =>
      obtain ⟨k, hk, hemits⟩ := hb
      obtain ⟨k', hk', hemits'⟩ := hb'
      obtain rfl : k = k' := Option.some.inj (hk.symm.trans hk')
      rw [hemits.eq hg hemits', ih hrest]

/-- The exit is laid out as nothing. -/
theorem Laid.filter (hg : g.WellFormed) {order : List BlockId} {blocks : List (List Statement)}
    (h : Laid g order blocks) :
    ∃ blocks', Laid g (order.filter (· ≠ Graph.exit)) blocks' ∧
      blocks'.flatten = blocks.flatten := by
  induction h with
  | nil => exact ⟨[], .nil, rfl⟩
  | @cons b seg order blocks hb _ ih =>
    obtain ⟨blocks', hlaid, hflat⟩ := ih
    by_cases hexit : b = Graph.exit
    · obtain ⟨k, hk, hemits⟩ := hb
      obtain rfl := (hg.eq_exit_iff hk).mp hexit
      obtain rfl : seg = [] := hemits
      refine ⟨blocks', ?_, hflat⟩
      rwa [List.filter_cons_of_neg (by simpa using hexit)]
    · refine ⟨seg :: blocks', ?_, by rw [List.flatten_cons, List.flatten_cons, hflat]⟩
      rw [List.filter_cons_of_pos (by simpa using hexit)]
      exact .cons hb hlaid

section
variable (h : Graph.Isomorphism g g' f) (hg : g.WellFormed) (hg' : g'.WellFormed)
include h hg hg'

/-- Some renaming takes the label of each block to that of its image. -/
theorem exists_relabelling : ∃ σ : Equiv.Perm Label, ∀ b ∈ g.live,
    σ (labelOf (labels g) b) = labelOf (labels g') (f b) := by
  have hin : ∀ {b}, b ∈ g.live → f b ∈ g'.blockIds := fun hb =>
    hg'.listed.mem_blockIds.mpr (h.bijOn.mapsTo hb)
  obtain ⟨σ, hσ⟩ := Equiv.Perm.exists_extending_pair
    (fun b : { b // b ∈ g.blockIds } => labelOf (labels g) b.1)
    (fun b : { b // b ∈ g.blockIds } => labelOf (labels g') (f b.1))
    (fun b c heq => Subtype.ext (labelOf_injective b.2 c.2 heq))
    (fun b c heq => by
      have hb := hg.listed.mem_blockIds.mp b.2
      have hc := hg.listed.mem_blockIds.mp c.2
      exact Subtype.ext (h.bijOn.injOn hb hc (labelOf_injective (hin hb) (hin hc) heq)))
  exact ⟨σ, fun b hb => hσ ⟨b, hg.listed.mem_blockIds.mpr hb⟩⟩

variable (hs : g.Straight) {σ : Label → Label}
  (hσ : ∀ b ∈ g.live, σ (labelOf (labels g) b) = labelOf (labels g') (f b))
include hs hσ

/-- The image of a block is laid out as the block, under other labels. -/
theorem Emits.relabel {b : BlockId} {seg : List Statement} {k k' : Kind} (hk : g.kind? b = some k)
    (hsame : k'.unlabelled = k.unlabelled) (hemits : Emits g b seg k) :
    Emits g' (f b) (seg.map (Statement.relabel σ)) k' := by
  obtain ⟨block, hb, -⟩ := Graph.block?_of_kind? hk
  have hown := hσ b ⟨block, hb⟩
  have htarget : ∀ {e t d}, g.edge? e = some ⟨b, t, d⟩ →
      σ (labelOf (labels g) t) = labelOf (labels g') (f t) := fun he =>
    hσ _ (hg.listed.target_live he)
  cases k with
  | exit =>
    obtain rfl := Kind.unlabelled_eq_exit.mp hsame
    obtain rfl : seg = [] := hemits
    rfl
  | branch br =>
    obtain ⟨e₁, t₁, e₂, t₂, he₁, he₂, rfl⟩ := hemits
    obtain ⟨e₁', he₁'⟩ := h.exists_edge hg hg' he₁
    obtain ⟨e₂', he₂'⟩ := h.exists_edge hg hg' he₂
    cases k' with
    | branch br' =>
      refine ⟨e₁', f t₁, e₂', f t₂, he₁', he₂', ?_⟩
      have hcond : br'.cond = br.cond := by
        simp only [Kind.unlabelled, Kind.branch.injEq, Branch.mk.injEq] at hsame
        exact hsame.1
      simp [hown, htarget he₁, htarget he₂, hcond]
    | _ => cases hsame
  | statement s =>
    obtain ⟨e, t, he, rfl⟩ := hemits
    obtain ⟨e', he'⟩ := h.exists_edge hg hg' he
    cases k' with
    | statement s' =>
      obtain rfl : s' = s := Kind.statement.inj hsame
      refine ⟨e', f t, he', ?_⟩
      simp [Statement.relabel_of_straight (hs hk), hown, htarget he]
    | _ => cases hsame
  | entry =>
    obtain ⟨e, t, he, rfl⟩ := hemits
    obtain ⟨e', he'⟩ := h.exists_edge hg hg' he
    obtain rfl := Kind.unlabelled_eq_entry.mp hsame
    exact ⟨e', f t, he', by simp [hown, htarget he]⟩
  | empty =>
    obtain ⟨e, t, he, rfl⟩ := hemits
    obtain ⟨e', he'⟩ := h.exists_edge hg hg' he
    cases k' with
    | empty => exact ⟨e', f t, he', by simp [hown, htarget he]⟩
    | _ => cases hsame

theorem Laid.relabel {order : List BlockId} {blocks : List (List Statement)}
    (hlaid : Laid g order blocks) :
    Laid g' (order.map f) (blocks.map (List.map (Statement.relabel σ))) := by
  induction hlaid with
  | nil => exact .nil
  | cons hb _ ih =>
    obtain ⟨k, hk, hemits⟩ := hb
    obtain ⟨k', hk', hsame⟩ := h.exists_kind hk
    exact .cons ⟨k', hk', hemits.relabel h hg hg' hs hσ hk hsame⟩ ih

/-- **The layouts of isomorphic graphs** differ in their labels only. -/
theorem whole_relabel (horder : g'.layoutOrder.filter (· ≠ Graph.exit) =
      (g.layoutOrder.filter (· ≠ Graph.exit)).map f)
    {blocks blocks' : List (List Statement)} (hlaid : Laid g g.layoutOrder blocks)
    (hlaid' : Laid g' g'.layoutOrder blocks') :
    whole g' blocks' = (whole g blocks).map (Statement.relabel σ) := by
  obtain ⟨inner, hinner, hflat⟩ := hlaid.filter hg
  obtain ⟨inner', hinner', hflat'⟩ := hlaid'.filter hg'
  rw [horder] at hinner'
  have hsame := hinner'.eq hg' (hinner.relabel h hg hg' hs hσ)
  rw [whole, whole, ← hflat, ← hflat', hsame, ← List.map_flatten, List.map_append]
  rw [List.map_singleton, Statement.relabel_label, hσ _ hg.exit_live, h.exit_eq]

end
end Layout

/-- **Isomorphic graphs are laid out alike**, but for the labels. -/
theorem Graph.Isomorphism.layOut_relabel {g g' : Graph} {f : BlockId → BlockId}
    (h : Isomorphism g g' f) (hg : g.WellFormed) (hg' : g'.WellFormed) (ho : g.InOrder)
    (ho' : g'.InOrder) (hr : g.Reached) (hr' : g'.Reached) (hs : g.Straight) (σ : Label → Label)
    (hinj : Function.Injective σ)
    (hσ : ∀ b ∈ g.live, σ (Layout.labelOf (Layout.labels g) b) =
      Layout.labelOf (Layout.labels g') (f b)) {ss : List Statement}
    (hss : g.layOut.outcome = .ok ss) : g'.layOut.outcome = .ok (ss.map (Statement.relabel σ)) := by
  obtain ⟨blocks, hlaid, hout⟩ := hg.exists_layOut
  obtain ⟨blocks', hlaid', hout'⟩ := hg'.exists_layOut
  rw [hout, Except.ok.injEq] at hss
  rw [hout', Layout.whole_relabel h hg hg' hs hσ (h.filter_layoutOrder hg hg' ho ho' hr hr') hlaid
    hlaid', Layout.dropFallthrough_relabel hinj, Layout.dropUnusedLabels_relabel hinj, hss]

end FlowGraph
