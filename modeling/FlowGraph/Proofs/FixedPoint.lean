import FlowGraph.Proofs.Relabelling

/-! # A passage comes to rest

What a passage without single assignment form gives is the layout of a tidied graph.  The next
passage builds that graph again, with its blocks numbered in the order of the layout, so it gives
the same list under other labels.  From then on the numbering is the same each time, and so are the
labels.
-/
namespace FlowGraph
namespace Graph

variable {g g' : Graph}

/-- **What tidying leaves of a graph that was built.** -/
structure Neat (g : Graph) : Prop where
  wellFormed : g.WellFormed
  straight : g.Straight
  reached : g.Reached
  settled : g.Settled
  inOrder : g.InOrder

/-- A graph that is built from statements and tidied is neat. -/
theorem neat_of_tidies {name : String} {ss : List Statement} (hg : (drawn name ss).Straight)
    (h : (drawn name ss).Tidies g') (hsettled : g'.Settled) : g'.Neat where
  wellFormed := h.wellFormed
  straight := h.straight hg
  reached := h.reached
  settled := hsettled
  inOrder := h.order.inOrder (fun _ _ => outward_drawn) h.wellFormed h.kind?_eq

theorem name_addStatements (g : Graph) (ss : List Statement) :
    (g.addStatements ss).name = g.name := by
  induction ss generalizing g with
  | nil => rfl
  | cons s ss ih => exact ih _

theorem name_addEdges (g : Graph) (es : List Edge) : (g.addEdges es).name = g.name := by
  induction es generalizing g with
  | nil => rfl
  | cons e es ih => exact ih _

theorem name_drawn (name : String) (ss : List Statement) : (drawn name ss).name = name := by
  rw [drawn, name_addEdges, name_addStatements]
  rfl

theorem exists_neat {p : Procedure} (h : ofProcedure p = .ok g) :
    ∃ count g', g.tidy.outcome = .ok (count, g') ∧ g.Tidies g' ∧ g'.Neat ∧ g'.name = p.name := by
  obtain ⟨count, g', htidy, htidies, hsettled⟩ :=
    (WellFormed.ofProcedure h).settles_tidy (phiFree_of_ofProcedure h)
  have hstraight := straight_of_ofProcedure h
  obtain rfl := ofProcedure_eq_drawn h
  exact ⟨count, g', htidy, htidies, neat_of_tidies hstraight htidies hsettled,
    htidies.order.name_eq.trans (name_drawn ..)⟩

/-! ### Blocks numbered in the order of the layout -/

/-- Whether a block is neither the entry nor the exit. -/
def isInner (b : BlockId) : Bool := b ≠ entry ∧ b ≠ exit

/-- **The blocks are numbered in the order of the layout.** -/
def Numbered (g : Graph) : Prop := g.blockIds.filter isInner = g.layoutOrder.filter isInner

theorem isInner_iff {b : BlockId} : isInner b = true ↔ b ≠ entry ∧ b ≠ exit := decide_eq_true_iff

/-- Blocks have one order of their slots. -/
theorem eq_of_sorted {bs cs : List BlockId} (hbs : bs.Pairwise fun b c => b.slot < c.slot)
    (hcs : cs.Pairwise fun b c => b.slot < c.slot) (h : ∀ b, b ∈ bs ↔ b ∈ cs) : bs = cs := by
  have hnodup : ∀ {ds : List BlockId}, (ds.Pairwise fun b c => b.slot < c.slot) → ds.Nodup :=
    fun hds => hds.imp fun hlt heq => Nat.ne_of_lt hlt (congrArg BlockId.slot heq)
  have hperm := (List.perm_ext_iff_of_nodup (hnodup hbs) (hnodup hcs)).mpr h
  exact hperm.eq_of_pairwise (fun _ _ _ _ hlt hgt => absurd hlt (Nat.lt_asymm hgt)) hbs hcs

/-- The terminal blocks come first. -/
theorem WellFormed.blockIds_eq (hg : g.WellFormed) :
    g.blockIds = entry :: exit :: g.blockIds.filter isInner := by
  have hsorted := hg.listed.sorted_blockIds
  have hlate : ∀ {b}, b ∈ g.blockIds.filter isInner → exit.slot < b.slot := by
    intro b hb
    obtain ⟨hentry, hexit⟩ := isInner_iff.mp (List.mem_filter.mp hb).2
    have hzero : b.slot ≠ 0 := fun heq => hentry (BlockId.ext heq)
    have hone : b.slot ≠ 1 := fun heq => hexit (BlockId.ext heq)
    show 1 < b.slot
    omega
  refine eq_of_sorted hsorted
    (.cons ?_ (.cons (fun b hb => hlate hb) (hsorted.filter _))) fun b => ?_
  · intro b hb
    rcases List.mem_cons.mp hb with rfl | hb
    · exact Nat.zero_lt_one
    · exact Nat.lt_trans Nat.zero_lt_one (hlate hb)
  · rw [List.mem_cons, List.mem_cons, List.mem_filter, isInner_iff]
    constructor
    · tauto
    · rintro (rfl | rfl | ⟨hb, -⟩)
      · exact hg.listed.mem_blockIds.mpr hg.entry_live
      · exact hg.listed.mem_blockIds.mpr hg.exit_live
      · exact hb

theorem Isomorphism.isInner_eq {f : BlockId → BlockId} (h : Isomorphism g g' f) (hg : g.WellFormed)
    {b : BlockId} (hb : b ∈ g.live) : isInner (f b) = isInner b := by
  simp only [isInner, ne_eq, h.eq_entry_iff hg hb, h.eq_exit_iff hg hb]

/-- The blocks of isomorphic graphs are laid out in the same order. -/
theorem Isomorphism.filter_isInner {f : BlockId → BlockId} (h : Isomorphism g g' f) (hg : g.Neat)
    (hg' : g'.Neat) : g'.layoutOrder.filter isInner = (g.layoutOrder.filter isInner).map f := by
  have hsplit : ∀ bs : List BlockId, bs.filter isInner = (bs.filter (· ≠ exit)).filter isInner := by
    intro bs
    rw [List.filter_filter]
    refine List.filter_congr fun b _ => ?_
    simp [isInner]
  rw [hsplit, h.filter_layoutOrder hg.wellFormed hg'.wellFormed hg.inOrder hg'.inOrder hg.reached
    hg'.reached, hsplit g.layoutOrder, List.filter_map]
  refine congrArg _ (List.filter_congr fun b hb => ?_)
  exact h.isInner_eq hg.wellFormed (hg.wellFormed.mem_layoutOrder.mp (List.mem_of_mem_filter hb))

namespace Rebuilt

variable {name : String} {all : List Statement} {onto : BlockId → BlockId}
  (h : Rebuilt g g' name all onto)
include h

theorem filter_blockIds :
    g'.blockIds.filter isInner = (g.layoutOrder.filter isInner).map (image g all onto) := by
  refine eq_of_sorted (h.after.listed.sorted_blockIds.filter _) ?_ fun z => ?_
  · refine List.pairwise_map.mpr ((h.pairwise_image.filter _).imp_of_mem fun hb hb' hlt => ?_)
    exact hlt (isInner_iff.mp (List.mem_filter.mp hb).2) (isInner_iff.mp (List.mem_filter.mp hb').2)
  · rw [List.mem_filter, List.mem_map, h.after.listed.mem_blockIds]
    constructor
    · rintro ⟨hz, hinner⟩
      obtain ⟨b, hb, rfl⟩ := h.isomorphism.bijOn.surjOn hz
      rw [h.isomorphism.isInner_eq h.before hb] at hinner
      exact ⟨b, List.mem_filter.mpr ⟨h.before.mem_layoutOrder.mpr hb, hinner⟩, rfl⟩
    · rintro ⟨b, hin, rfl⟩
      obtain ⟨hb, hinner⟩ := List.mem_filter.mp hin
      have hlive := h.before.mem_layoutOrder.mp hb
      rw [h.isomorphism.isInner_eq h.before hlive]
      exact ⟨h.isomorphism.bijOn.mapsTo hlive, hinner⟩

/-- **The blocks of a graph that is built again** are numbered in the order of its layout. -/
theorem numbered (hg : g.Neat) (hg' : g'.Neat) : g'.Numbered :=
  h.filter_blockIds.trans (h.isomorphism.filter_isInner hg hg').symm

/-- If they were so numbered before, they are numbered as they were. -/
theorem blockIds_eq (hnumbered : g.Numbered) : g'.blockIds = g.blockIds.map (image g all onto) := by
  rw [h.after.blockIds_eq, h.filter_blockIds, ← hnumbered]
  conv => rhs; rw [h.before.blockIds_eq]
  rw [List.map_cons, List.map_cons, image_entry, image_exit]

end Rebuilt

end Graph

namespace Layout

/-- Blocks that are numbered alike have the same labels. -/
theorem labelOf_map {g g' : Graph} {f : BlockId → BlockId} (hnodup : g'.blockIds.Nodup)
    (hids : g'.blockIds = g.blockIds.map f) {b : BlockId} (hb : b ∈ g.blockIds) :
    labelOf (labels g') (f b) = labelOf (labels g) b := by
  obtain ⟨n, hn, hlabel⟩ := exists_lookup hb
  obtain ⟨m, hm, hlabel'⟩ := exists_lookup (hids ▸ List.mem_map_of_mem hb : f b ∈ g'.blockIds)
  have hn' : g'.blockIds[n]? = some (f b) := by rw [hids, List.getElem?_map, hn, Option.map_some]
  have hsame : m = n := by
    obtain ⟨hlt, -⟩ := List.getElem?_eq_some_iff.mp hm
    exact (List.getElem?_inj hlt hnodup).mp (hm.trans hn'.symm)
  rw [labelOf, labelOf, hlabel, hlabel', hsame]

end Layout

/-! ### Passages -/

namespace Graph

/-- **Building a neat graph again** gives a neat graph with the same layout but for the labels. -/
theorem Neat.exists_rebuilt {g : Graph} (hg : g.Neat) :
    ∃ ss g₁ count g', g.layOut.outcome = .ok ss ∧ ofProcedure ⟨g.name, ss⟩ = .ok g₁ ∧
      g₁.tidy.outcome = .ok (count, g') ∧ g₁.Tidies g' ∧ g'.Neat ∧ g'.name = g.name ∧ g'.Numbered ∧
      (∃ σ : Equiv.Perm Label, g'.layOut.outcome = .ok (ss.map (Statement.relabel σ))) ∧
      (g.Numbered → g'.layOut.outcome = .ok ss) := by
  obtain ⟨all, count, g', onto, hout, hbuilt, htidy, htidies, h⟩ :=
    hg.wellFormed.exists_rebuilt g.name hg.straight hg.reached hg.settled
  have hg' : g'.Neat :=
    neat_of_tidies (straight_of_ofProcedure hbuilt) htidies h.settled_after
  have hrelabel := h.isomorphism.layOut_relabel hg.wellFormed hg'.wellFormed hg.inOrder hg'.inOrder
    hg.reached hg'.reached hg.straight
  refine ⟨_, _, count, g', hout, hbuilt, htidy, htidies, hg',
    htidies.order.name_eq.trans (name_drawn ..), h.numbered hg hg', ?_, fun hnumbered => ?_⟩
  · obtain ⟨σ, hσ⟩ := Layout.exists_relabelling h.isomorphism hg.wellFormed hg'.wellFormed
    exact ⟨σ, hrelabel σ σ.injective hσ hout⟩
  · have hlabels : ∀ b ∈ g.live, Layout.labelOf (Layout.labels g) b =
        Layout.labelOf (Layout.labels g') (image g all onto b) := fun b hb =>
      (Layout.labelOf_map h.after.listed.nodup_blockIds (h.blockIds_eq hnumbered)
        (hg.wellFormed.listed.mem_blockIds.mpr hb)).symm
    have hsame := hrelabel id Function.injective_id hlabels hout
    rwa [funext Statement.relabel_id, List.map_id'] at hsame

end Graph

namespace Passage

/-- Without single assignment form a passage gives the layout of the tidied graph. -/
theorem run_of_neat {o : Options} (ho : o.ssa = false) {p : Procedure} {g g' : Graph} {count : Nat}
    {ss : List Statement} (hbuilt : Graph.ofProcedure p = .ok g)
    (htidy : g.tidy.outcome = .ok (count, g')) (htidies : g.Tidies g')
    (hout : g'.layOut.outcome = .ok ss) :
    ∃ out, (run o p).outcome = .ok out ∧ out.procedure = ⟨g'.name, ss⟩ := by
  refine run_of_stages o (· = ⟨g'.name, ss⟩) (Routine.ofProcedure_of_ok hbuilt) htidy htidies
    fun r hr => ?_
  refine ⟨[], r, ss, ?_, by rw [hr, hout], by rw [hr]⟩
  rw [convert, ho]
  rfl

/-- **A passage without single assignment form comes to rest.**  What it gives has a graph again;
the second passage gives the same statements under other labels, and the third the same procedure.
-/
theorem run_comes_to_rest (o : Options) (ho : o.ssa = false) (p : Procedure) (r : Routine)
    (h : (Routine.ofProcedure p).outcome = .ok r) :
    ∃ out₁ out₂ out₃, (run o p).outcome = .ok out₁ ∧ (run o out₁.procedure).outcome = .ok out₂ ∧
      (run o out₂.procedure).outcome = .ok out₃ ∧
      (∃ σ : Equiv.Perm Label, out₂.procedure = out₁.procedure.relabel σ) ∧
      out₃.procedure = out₂.procedure := by
  obtain ⟨hbuilt, -⟩ := layable_of_ofProcedure h
  obtain ⟨count, g₁, htidy, htidies, hneat₁, -⟩ := Graph.exists_neat hbuilt
  obtain ⟨ss₁, _, count₂, g₂, hout₁, hbuilt₂, htidy₂, htidies₂, hneat₂, hname₂, hnumbered₂,
    ⟨σ, hout₂⟩, -⟩ := hneat₁.exists_rebuilt
  obtain ⟨ss₂, _, count₃, g₃, hout₂', hbuilt₃, htidy₃, htidies₃, hneat₃, hname₃, -, -, hsame⟩ :=
    hneat₂.exists_rebuilt
  obtain rfl : ss₁.map (Statement.relabel σ) = ss₂ := Except.ok.inj (hout₂.symm.trans hout₂')
  obtain ⟨out₁, hrun₁, hp₁⟩ := run_of_neat ho hbuilt htidy htidies hout₁
  obtain ⟨out₂, hrun₂, hp₂⟩ := run_of_neat ho hbuilt₂ htidy₂ htidies₂ hout₂
  obtain ⟨out₃, hrun₃, hp₃⟩ := run_of_neat ho hbuilt₃ htidy₃ htidies₃ (hsame hnumbered₂)
  refine ⟨out₁, out₂, out₃, hrun₁, by rw [hp₁, hrun₂], by rw [hp₂, hrun₃], ⟨σ, ?_⟩, ?_⟩
  · rw [hp₂, hp₁, hname₂]
    rfl
  · rw [hp₃, hp₂, hname₃]

/-- A loop with two ways in and an endless one behind it: the exit is not reached, and the blocks
are not numbered in the order of the layout. -/
def unsettled : Procedure :=
  ⟨"unsettled", [.branch ⟨.plain "a", "in", "back"⟩, .label "spin", .goto "spin", .label "back",
    .eval (.call "step" []), .goto "in", .label "unused", .label "in",
    .branch ⟨.plain "b", "back", "spin"⟩]⟩

theorem unsettled_comes_to_rest : ∃ r, (Routine.ofProcedure unsettled).outcome = .ok r ∧
    ∃ out₁ out₂ out₃, (run ⟨false, false, false⟩ unsettled).outcome = .ok out₁ ∧
      (run ⟨false, false, false⟩ out₁.procedure).outcome = .ok out₂ ∧
      (run ⟨false, false, false⟩ out₂.procedure).outcome = .ok out₃ ∧
      (∃ σ : Equiv.Perm Label, out₂.procedure = out₁.procedure.relabel σ) ∧
      out₃.procedure = out₂.procedure := by
  have hbuilt := Routine.ofProcedure_of_ok
    (Graph.ofProcedure_eq_ok (p := unsettled) (by decide) (by decide))
  exact ⟨_, hbuilt, run_comes_to_rest _ rfl unsettled _ hbuilt⟩

end Passage
end FlowGraph
