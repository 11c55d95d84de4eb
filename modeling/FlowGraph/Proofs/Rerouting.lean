import FlowGraph.Proofs.Growth

/-! # Taking a block out, phi functions and all

A block that is taken out hands its phi functions on to its successor.  The edges that entered it
lead to the successor instead, one after the other (`Rerouted`), and get an argument there from the
phi functions of both blocks.

On the way the block taken out has phi functions with arguments for edges that enter it no more.  It
is about to be removed, so they may as well be forgotten before the first edge is moved: that gives
the same graph in the end, and one that is well-formed throughout.
-/
namespace FlowGraph

/-! ### The phi functions of the successor -/

/-- A phi function with an argument passed on from an edge to the one that takes its place. -/
def Phi.passArg (value : EdgeId → Option Var) (p : Phi) (x : EdgeId × EdgeId) : Phi :=
  match value x.1 with
  | some v => p.setArg x.2 v
  | none => p

theorem Phi.arg?_passArg (value : EdgeId → Option Var) (p : Phi) (x : EdgeId × EdgeId)
    (e : EdgeId) :
    (p.passArg value x).arg? e = if e = x.2 then (value x.1).or (p.arg? e) else p.arg? e := by
  unfold passArg
  cases value x.1 with
  | none => simp
  | some v => rw [arg?_setArg, Option.some_or]

namespace Graph

section
variable {pairs : List (EdgeId × EdgeId)} {e : EdgeId}

theorem mergedPhi_eq (name : String) (own : Phi) (passed : Option Phi) (link : EdgeId)
    (pairs : List (EdgeId × EdgeId)) : mergedPhi name own passed link pairs =
      pairs.foldl (Phi.passArg (passedValue name own passed link)) own := rfl

theorem movedPhi_eq (name : String) (passed : Phi) (pairs : List (EdgeId × EdgeId))
    (others : List EdgeId) : movedPhi name passed pairs others =
      others.foldl (fun p e => p.setArg e (Phis.lhs name passed))
        (pairs.foldl (Phi.passArg passed.arg?) (.new passed.version)) := rfl

/-- Arguments passed on from edges to those that take their place. -/
theorem isSome_arg?_foldl_passArg (value : EdgeId → Option Var) (p : Phi) :
    ((pairs.foldl (Phi.passArg value) p).arg? e).isSome ↔
      (p.arg? e).isSome ∨ ∃ old, (old, e) ∈ pairs ∧ (value old).isSome := by
  induction pairs generalizing p with
  | nil => simp
  | cons x pairs ih =>
    obtain ⟨old, new⟩ := x
    have hstep : ((p.passArg value (old, new)).arg? e).isSome ↔
        (p.arg? e).isSome ∨ e = new ∧ (value old).isSome := by
      rw [Phi.arg?_passArg]
      by_cases he : e = new <;> simp [he, or_comm]
    rw [List.foldl_cons, ih, hstep, or_assoc]
    refine or_congr_right ⟨?_, ?_⟩
    · rintro (⟨rfl, hv⟩ | ⟨old', hin, hv⟩)
      · exact ⟨old, List.mem_cons_self, hv⟩
      · exact ⟨old', List.mem_cons_of_mem _ hin, hv⟩
    · rintro ⟨old', hin, hv⟩
      rcases List.mem_cons.mp hin with heq | hin
      · cases heq
        exact .inl ⟨rfl, hv⟩
      · exact .inr ⟨old', hin, hv⟩

theorem arg?_foldl_setArg (es : List EdgeId) (v : Var) (p : Phi) :
    (es.foldl (fun p e => p.setArg e v) p).arg? e = if e ∈ es then some v else p.arg? e := by
  induction es generalizing p with
  | nil => simp
  | cons e' es ih =>
    rw [List.foldl_cons, ih, Phi.arg?_setArg]
    grind

theorem isSome_passedValue {name : String} {own : Phi} {passed : Option Phi} {link old : EdgeId} :
    (passedValue name own passed link old).isSome ↔ (own.arg? link).isSome := by
  unfold passedValue
  cases own.arg? link with
  | none => rfl
  | some arg =>
    cases passed with
    | none => rfl
    | some p =>
      simp only
      split <;> rfl

/-- A phi function of the successor has an argument for an edge that enters the block no more if it
had one for the link. -/
theorem isSome_arg?_mergedPhi {name : String} {own : Phi} {passed : Option Phi} {link : EdgeId} :
    ((mergedPhi name own passed link pairs).arg? e).isSome ↔
      (own.arg? e).isSome ∨ (∃ old, (old, e) ∈ pairs) ∧ (own.arg? link).isSome := by
  rw [mergedPhi_eq, isSome_arg?_foldl_passArg]
  simp only [isSome_passedValue, exists_and_right]

theorem isSome_arg?_movedPhi {name : String} {passed : Phi} {others : List EdgeId} :
    ((movedPhi name passed pairs others).arg? e).isSome ↔
      (∃ old, (old, e) ∈ pairs ∧ (passed.arg? old).isSome) ∨ e ∈ others := by
  rw [movedPhi_eq, arg?_foldl_setArg]
  by_cases he : e ∈ others
  · simp [he]
  · rw [if_neg he, isSome_arg?_foldl_passArg]
    simp [he, Phi.new, Phi.arg?]

end

/-- **The successor has its own phi functions**, and those of the block taken out for all other
variables. -/
theorem get?_bypassedPhis {own passed : Phis} {link : EdgeId} {pairs : List (EdgeId × EdgeId)}
    {others : List EdgeId} (name : String) :
    (bypassedPhis own passed link pairs others).get? name =
      ((own.get? name).map fun p => mergedPhi name p (passed.get? name) link pairs).or
        ((passed.get? name).map fun p => movedPhi name p pairs others) := by
  have hlookup : (passed.entries.filter fun x => !own.contains x.1).lookup name =
      if own.contains name then none else passed.get? name := by
    split
    · rename_i hown
      refine OrdMap.lookup_eq_none_iff.mpr fun p hin => ?_
      rw [List.mem_filter, hown] at hin
      exact Bool.noConfusion hin.2
    · rename_i hown
      cases hp : passed.get? name with
      | none =>
        refine OrdMap.lookup_eq_none_iff.mpr fun p hin => ?_
        exact OrdMap.lookup_eq_none_iff.mp hp p (List.mem_of_mem_filter hin)
      | some p =>
        refine OrdMap.lookup_eq_some_of_mem (passed.sorted.filter _) (List.mem_filter.mpr ⟨?_, ?_⟩)
        · exact OrdMap.get?_eq_some_iff.mp hp
        · simpa using hown
  refine (OrdMap.get?_foldl_insert (fun name p => movedPhi name p pairs others)
    (passed.sorted.filter _) _ name).trans ?_
  rw [hlookup, OrdMap.get?_mapValues, OrdMap.contains]
  cases own.get? name <;> simp

theorem of_get?_bypassedPhis {own passed : Phis} {link : EdgeId} {pairs : List (EdgeId × EdgeId)}
    {others : List EdgeId} {name : String} {q : Phi}
    (h : (bypassedPhis own passed link pairs others).get? name = some q) :
    (∃ p, own.get? name = some p ∧ q = mergedPhi name p (passed.get? name) link pairs) ∨
      ∃ p, passed.get? name = some p ∧ q = movedPhi name p pairs others := by
  rw [get?_bypassedPhis, Option.or_eq_some_iff] at h
  simp only [Option.map_eq_some_iff] at h
  rcases h with ⟨p, hp, rfl⟩ | ⟨-, p, hp, rfl⟩
  · exact .inl ⟨p, hp, rfl⟩
  · exact .inr ⟨p, hp, rfl⟩

/-! ### Forgetting phi functions beforehand -/

variable {g : Graph}

theorem modifyBlock_comm (g : Graph) {a b : BlockId} {f f' : Block → Block}
    (h : a = b → ∀ block, f (f' block) = f' (f block)) :
    (g.modifyBlock a f).modifyBlock b f' = (g.modifyBlock b f').modifyBlock a f := by
  unfold modifyBlock
  refine congrArg (fun blocks => { g with blocks }) (Array.ext_getElem? fun i => ?_)
  simp only [Array.getElem?_modify]
  by_cases ha : a.slot = i <;> by_cases hb : b.slot = i
  · have hcomm := h (BlockId.ext (ha.trans hb.symm))
    simp only [if_pos ha, if_pos hb, Option.map_map, Function.comp_def, hcomm]
  · simp only [if_pos ha, if_neg hb]
  · simp only [if_neg ha, if_pos hb]
  · simp only [if_neg ha, if_neg hb]

section
variable (g) (x : BlockId)

theorem modifyBlock_forget {b : BlockId} {f : Block → Block}
    (h : x = b → ∀ block : Block, { f block with phis := .empty } =
      f { block with phis := .empty }) :
    (g.forget x).modifyBlock b f = (g.modifyBlock b f).forget x :=
  modifyBlock_comm g h

theorem edge?_forget (e : EdgeId) : (g.forget x).edge? e = g.edge? e := rfl

theorem removeEdge_forget (e : EdgeId) : (g.forget x).removeEdge e = (g.removeEdge e).forget x := by
  rw [removeEdge, removeEdge, edge?_forget]
  cases g.edge? e with
  | none => rfl
  | some edge =>
    simp only
    rw [modifyBlock_forget g x fun _ _ => rfl, modifyBlock_forget _ x fun _ _ => rfl]
    rfl

theorem clearBlock_forget : (g.forget x).clearBlock x = g.clearBlock x := by
  unfold forget modifyBlock clearBlock
  refine congrArg (fun blocks => { g with blocks }) (Array.ext_getElem? fun i => ?_)
  simp only [Array.getElem?_setIfInBounds, Array.getElem?_modify, Array.size_modify]
  by_cases hi : x.slot = i
  · simp only [if_pos hi]
  · simp only [if_neg hi]

/-- **A block that is removed** may forget its phi functions beforehand. -/
theorem removeBlock_forget : (g.forget x).removeBlock x = g.removeBlock x := by
  unfold removeBlock
  rw [forget, block?_modifyBlock, if_pos rfl]
  cases hx : g.block? x with
  | none =>
    exact modifyBlock_eq_self fun hb => by
      rw [hx] at hb
      cases hb
  | some block =>
    show ((block.preds ++ block.succs).foldl removeEdge (g.forget x)).clearBlock x = _
    rw [List.foldl_hom (forget · x) (removeEdge_forget · x), clearBlock_forget]

theorem redirect_forget (e : EdgeId) (edge : Edge) (t : BlockId) :
    (g.forget x).redirect e edge t =
      ((g.redirect e edge t).1, (g.redirect e edge t).2.forget x) := by
  have hadd : ∀ edge, (g.forget x).addUnlistedEdge edge =
      ((g.addUnlistedEdge edge).1, (g.addUnlistedEdge edge).2.forget x) := fun _ => rfl
  unfold redirect
  simp only [hadd]
  rw [modifyBlock_forget _ x fun _ _ => rfl, modifyBlock_forget _ x fun _ _ => rfl,
    modifyBlock_forget _ x fun _ _ => rfl]
  rfl

theorem redirectAll_forget (t : BlockId) (es : List EdgeId) :
    (g.forget x).redirectAll t es =
      ((g.redirectAll t es).1, (g.redirectAll t es).2.forget x) := by
  induction es generalizing g with
  | nil => rfl
  | cons e es ih =>
    rw [redirectAll, redirectAll, edge?_forget]
    cases g.edge? e with
    | none => exact ih g
    | some edge =>
      simp only
      rw [redirect_forget]
      simp only
      rw [ih]

end

/-! ### Leading the edges past the block -/

/-- **A graph in which some edges lead past a block** to its successor.  `pairs` are these edges
with their new handles. -/
structure Rerouted (g g' : Graph) (x s : BlockId) (es : List EdgeId)
    (pairs : List (EdgeId × EdgeId)) : Prop where
  wellFormed : g'.WellFormed
  follows : g.Follows g'
  body_eq : ∀ b, (g'.block? b).map Block.body = (g.block? b).map Block.body
  olds_eq : pairs.map Prod.fst = es
  onward : ∀ {e}, g.edge? e = some ⟨x, s, .always⟩ → g'.edge? e = some ⟨x, s, .always⟩
  into : ∀ {e a d}, g'.edge? e = some ⟨a, x, d⟩ → g.edge? e = some ⟨a, x, d⟩ ∧ e ∉ es
  mem_preds : ∀ {b block block'}, b ≠ x → g.block? b = some block → g'.block? b = some block' →
    ∀ e, e ∈ block'.preds ↔ e ∈ block.preds ∨ b = s ∧ ∃ old, (old, e) ∈ pairs
  reachable : g.kind? x = some .empty → ∀ {b}, b ≠ x → g.Reachable b → g'.Reachable b

namespace Rerouted

variable {g' g'' : Graph} {x s : BlockId} {es es' : List EdgeId}
  {pairs pairs' : List (EdgeId × EdgeId)}

theorem refl (hg : g.WellFormed) : Rerouted g g x s [] [] where
  wellFormed := hg
  follows := .refl g
  body_eq _ := rfl
  olds_eq := rfl
  onward := id
  into he := ⟨he, List.not_mem_nil⟩
  mem_preds {b block block'} _ hb hb' e := by
    rw [hb] at hb'
    cases hb'
    simp
  reachable _ _ _ := id

theorem exists_block (h : Rerouted g g' x s es pairs) {b : BlockId} {block : Block}
    (hb : g.block? b = some block) :
    ∃ block', g'.block? b = some block' ∧ block'.body = block.body := by
  have hbody := h.body_eq b
  rw [hb, Option.map_some] at hbody
  exact Option.map_eq_some_iff.mp hbody

theorem exists_block_before (h : Rerouted g g' x s es pairs) {b : BlockId} {block' : Block}
    (hb' : g'.block? b = some block') :
    ∃ block, g.block? b = some block ∧ block.body = block'.body := by
  have hbody := h.body_eq b
  rw [hb', Option.map_some] at hbody
  exact Option.map_eq_some_iff.mp hbody.symm

theorem phis_eq (h : Rerouted g g' x s es pairs) {b : BlockId} {block block' : Block}
    (hb : g.block? b = some block) (hb' : g'.block? b = some block') :
    block'.phis = block.phis := by
  have hbody := h.body_eq b
  rw [hb, hb'] at hbody
  exact congrArg Prod.snd (Option.some.inj hbody)

theorem trans (h : Rerouted g g' x s es pairs) (h' : Rerouted g' g'' x s es' pairs') :
    Rerouted g g'' x s (es ++ es') (pairs ++ pairs') where
  wellFormed := h'.wellFormed
  follows := h.follows.trans h'.follows
  body_eq b := (h'.body_eq b).trans (h.body_eq b)
  olds_eq := by rw [List.map_append, h.olds_eq, h'.olds_eq]
  onward he := h'.onward (h.onward he)
  into he := by
    obtain ⟨he', hnot'⟩ := h'.into he
    obtain ⟨he, hnot⟩ := h.into he'
    exact ⟨he, List.not_mem_append hnot hnot'⟩
  mem_preds {b block block''} hbx hb hb'' e := by
    obtain ⟨block', hb', -⟩ := h.exists_block hb
    rw [h'.mem_preds hbx hb' hb'' e, h.mem_preds hbx hb hb' e, or_assoc, ← and_or_left,
      ← exists_or]
    simp only [List.mem_append]
  reachable hk _ hbx hreach :=
    h'.reachable ((kind?_of_body (h.body_eq x)).trans hk) hbx (h.reachable hk hbx hreach)

section
variable (hg : g.WellFormed) {old : Block} (hx : g.block? x = some old) (hbare : old.phis = .empty)
  {link : EdgeId} (hlink : g.edge? link = some ⟨x, s, .always⟩) (hsx : s ≠ x)
include hg hx hbare hlink hsx

/-- **One edge is led past the block.** -/
theorem redirect {e : EdgeId} {a : BlockId} {d : Direction} (he : g.edge? e = some ⟨a, x, d⟩) :
    Rerouted g (g.redirect e ⟨a, x, d⟩ s).2 x s [e] [(e, g.headOf)] where
  wellFormed := by
    obtain ⟨target, ht⟩ := hg.listed.target_live hlink
    refine hg.redirect he (fun {block} hb => ?_) ht (hg.wired.entry_closed hlink)
    rw [hx] at hb
    cases hb
    exact hbare
  follows := .redirect ..
  body_eq b := by
    rw [hg.listed.block?_redirect he, Option.map_map]
    rfl
  olds_eq := rfl
  onward hlink := edge?_redirect_link hlink hsx he
  into {e' a' d'} he' := by
    obtain ⟨hold, hne⟩ := edge?_redirect_into hsx he he'
    exact ⟨hold, fun hin => hne (List.mem_singleton.mp hin)⟩
  mem_preds {b block block'} hbx hb hb' e' := by
    rw [hg.listed.block?_redirect he, hb, Option.map_some, Option.some.injEq] at hb'
    subst hb'
    have hnotin : e ∉ block.preds := fun hin => hbx (hg.listed.target_eq hb hin he).symm
    rw [Block.reroute, filter_ne_eq_self hnotin, List.mem_append]
    by_cases hbs : b = s
    · simp [hbs]
    · simp [hbs]
  reachable hk b hbx hreach := (reachable_redirect hg hk hlink hsx he hreach).1 hbx

/-- **All edges that enter the block** are led past it. -/
theorem redirectAll (hnodup : es.Nodup) (hes : ∀ e ∈ es, ∃ a d, g.edge? e = some ⟨a, x, d⟩) :
    Rerouted g (g.redirectAll s es).2 x s es (g.redirectAll s es).1 := by
  induction es generalizing g old with
  | nil => exact .refl hg
  | cons e es ih =>
    obtain ⟨⟨a, d, he⟩, hes⟩ := List.forall_mem_cons.mp hes
    obtain ⟨hnotin, hnodup⟩ := List.nodup_cons.mp hnodup
    have hone := redirect hg hx hbare hlink hsx he
    obtain ⟨old', hx', hbody⟩ := hone.exists_block hx
    have hrest := ih hone.wellFormed hx' ((congrArg Prod.snd hbody).trans hbare)
      (hone.onward hlink) hnodup (edge?_redirect_others he hnotin hes)
    rw [Graph.redirectAll, he]
    exact hone.trans hrest

end
end Rerouted

/-! ### Removing a block that nothing enters -/

/-- Phi arguments for the edges that stay make the graph complete. -/
theorem Listed.phisComplete_removeBlock (hg : g.Listed) {x : BlockId} {old : Block}
    (hx : g.block? x = some old)
    (h : ∀ {b block}, b ≠ x → g.block? b = some block → ∀ ⦃name p⦄, block.phis.get? name = some p →
      ∀ e ∈ block.preds, e ∉ old.preds ++ old.succs → ∃ v, p.arg? e = some v) :
    (g.removeBlock x).PhisComplete := by
  intro b block' hb'
  rw [hg.block?_removeBlock hx] at hb'
  split at hb'
  · cases hb'
  · rename_i hbx
    obtain ⟨block, hb, rfl⟩ := Option.map_eq_some_iff.mp hb'
    exact Block.complete_foldl_without (h hbx hb)

section
variable (hg : g.WellFormed) {x : BlockId} {old : Block} (hx : g.block? x = some old)
  (hkind : old.kind.isTerminal = false) (hclosed : ∀ {e a d}, g.edge? e ≠ some ⟨a, x, d⟩)
include hg hx hkind hclosed

/-- **A block that nothing enters** can be removed, and what is reached stays so. -/
theorem WellFormed.removeBlock_of_closed :
    (g.removeBlock x).WellFormed ∧ ∀ b, (g.removeBlock x).Reachable b ↔ g.Reachable b := by
  have hrestricts := hg.listed.removeBlock x
  have hk := kind?_of_block? hx
  have hentry : ¬ entry = x := fun heq => hg.ne_entry hk (fun h => by rw [h] at hkind; cases hkind)
    heq.symm
  have hexit : ¬ exit = x := fun heq => hg.ne_exit hk (fun h => by rw [h] at hkind; cases hkind)
    heq.symm
  have hstays : ∀ {e a b d}, g.edge? e = some ⟨a, b, d⟩ → ¬ a = x → ¬ b = x := by
    intro e a b d he _ hbx
    exact hclosed (hbx ▸ he)
  exact ⟨hrestricts.wellFormed hentry hstays hg hexit,
    fun _ => hrestricts.reachable_iff hentry hstays⟩

theorem WellFormed.maintains_removeBlock : Maintains g (g.removeBlock x) where
  wellFormed := (hg.removeBlock_of_closed hx hkind hclosed).1
  follows := .removeBlock ..
  complete hc := hg.listed.phisComplete_removeBlock hx fun _ hb _ _ hp e he _ => hc hb hp e he

end

/-! ### Taking a block out -/

section
variable {x s : BlockId} {old : Block} {link : EdgeId} {g' : Graph} {pairs : List (EdgeId × EdgeId)}
  {succ : Block}

/-- The phi functions of the successor have arguments for edges that enter it only. -/
theorem Rerouted.args_enter (h : Rerouted g g' x s old.preds pairs) (hg : g.Listed)
    (hs : g.block? s = some succ) (hsx : s ≠ x) {succ' : Block} (hs' : g'.block? s = some succ')
    {name : String} {q : Phi}
    (hq : (bypassedPhis succ'.phis old.phis link pairs (succ.preds.filter (· ≠ link))).get? name =
      some q) {e : EdgeId} {v : Var} (hv : q.arg? e = some v) : e ∈ succ'.preds := by
  have hmem := h.mem_preds hsx hs hs' e
  have hsome : (q.arg? e).isSome := by rw [hv]; rfl
  rw [h.phis_eq hs hs'] at hq
  rcases of_get?_bypassedPhis hq with ⟨p, hp, rfl⟩ | ⟨p, hp, rfl⟩
  · rcases isSome_arg?_mergedPhi.mp hsome with hown | ⟨hnew, -⟩
    · obtain ⟨w, hw⟩ := Option.isSome_iff_exists.mp hown
      exact hmem.mpr (.inl (hg.args_enter hs hp hw))
    · exact hmem.mpr (.inr ⟨rfl, hnew⟩)
  · rcases isSome_arg?_movedPhi.mp hsome with ⟨o, hin, -⟩ | hother
    · exact hmem.mpr (.inr ⟨rfl, o, hin⟩)
    · exact hmem.mpr (.inl (List.mem_of_mem_filter hother))

/-- They have one for each edge that enters it, the link to the block taken out left aside. -/
theorem Rerouted.exists_arg (h : Rerouted g g' x s old.preds pairs)
    (hs : g.block? s = some succ) (hsx : s ≠ x) {succ' : Block} (hs' : g'.block? s = some succ')
    (hlink : link ∈ succ.preds) (hsucc : succ.Complete) (hold : old.Complete) {name : String}
    {q : Phi}
    (hq : (bypassedPhis succ'.phis old.phis link pairs (succ.preds.filter (· ≠ link))).get? name =
      some q) {e : EdgeId} (he : e ∈ succ'.preds) (hne : e ≠ link) : ∃ v, q.arg? e = some v := by
  apply Option.isSome_iff_exists.mp
  rw [h.phis_eq hs hs'] at hq
  have hmem := (h.mem_preds hsx hs hs' e).mp he
  rcases of_get?_bypassedPhis hq with ⟨p, hp, rfl⟩ | ⟨p, hp, rfl⟩
  · apply isSome_arg?_mergedPhi.mpr
    rcases hmem with hin | ⟨-, hnew⟩
    · exact .inl (Option.isSome_iff_exists.mpr (hsucc hp e hin))
    · exact .inr ⟨hnew, Option.isSome_iff_exists.mpr (hsucc hp link hlink)⟩
  · apply isSome_arg?_movedPhi.mpr
    rcases hmem with hin | ⟨-, o, hin⟩
    · exact .inr (List.mem_filter.mpr ⟨hin, decide_eq_true hne⟩)
    · have ho : o ∈ old.preds := h.olds_eq ▸ List.mem_map_of_mem hin
      exact .inl ⟨o, hin, Option.isSome_iff_exists.mpr (hold hp o ho)⟩

/-- The successor with the phi functions that it gets. -/
def passOn (old : Block) (link : EdgeId) (pairs : List (EdgeId × EdgeId)) (others : List EdgeId)
    (succ : Block) : Block :=
  { succ with phis := bypassedPhis succ.phis old.phis link pairs others }

theorem block?_forget_of_ne {b : BlockId} (h : b ≠ x) : (g.forget x).block? b = g.block? b := by
  rw [forget, block?_modifyBlock, if_neg h]

theorem block?_forget_self (hx : g.block? x = some old) :
    (g.forget x).block? x = some { old with phis := .empty } := by
  rw [forget, block?_modifyBlock, if_pos rfl, hx]
  rfl

section
variable (hg : g.WellFormed) (hx : g.block? x = some old) (hkind : old.kind.isTerminal = false)
  (hsx : s ≠ x) (hs : g.block? s = some succ) (h : Rerouted (g.forget x) g' x s old.preds pairs)
include hg hx hkind hsx hs h

variable (link) in
/-- The graph with the new phi functions is well-formed, and nothing leads to the block any more. -/
theorem Rerouted.removable :
    (g'.modifyBlock s (passOn old link pairs (succ.preds.filter (· ≠ link)))).WellFormed ∧
      (∃ old', (g'.modifyBlock s (passOn old link pairs (succ.preds.filter (· ≠ link)))).block? x =
        some old' ∧ old'.kind.isTerminal = false) ∧
      ∀ {e a d}, g'.edge? e ≠ some ⟨a, x, d⟩ := by
  refine ⟨?wellFormed, ?live, fun {e a d} he => ?closed⟩
  case wellFormed =>
    refine h.wellFormed.modifyBlock s (fun _ => rfl) (fun _ => rfl) fun hs' _ _ hq _ _ hv => ?_
    exact h.args_enter (Grows.forget hg x).wellFormed.listed
      ((block?_forget_of_ne hsx).trans hs) hsx
      hs' hq hv
  case live =>
    obtain ⟨old', hx', hbody⟩ := h.exists_block (block?_forget_self hx)
    have hkind' : old'.kind = old.kind := congrArg Prod.fst hbody
    exact ⟨old', by rw [block?_modifyBlock, if_neg (Ne.symm hsx), hx'], hkind' ▸ hkind⟩
  case closed =>
    obtain ⟨he₀, hnotin⟩ := h.into he
    exact hnotin ((hg.listed.mem_preds hx e).mpr ⟨_, he₀, rfl⟩)

/-- **The edges led past the block**, it can be removed. -/
theorem Rerouted.maintains (hlink : g.edge? link = some ⟨x, s, .always⟩) : Maintains g
    ((g'.modifyBlock s (passOn old link pairs (succ.preds.filter (· ≠ link)))).removeBlock x) := by
  obtain ⟨hg'', ⟨old', hx', hkind'⟩, hclosed⟩ := h.removable link hg hx hkind hsx hs
  refine ⟨(hg''.removeBlock_of_closed hx' hkind' hclosed).1, ?follows, fun hc => ?complete⟩
  case follows =>
    have hforget := (Grows.forget hg x).follows
    exact ((hforget.trans h.follows).trans (.modifyBlock ..)).trans (.removeBlock ..)
  case complete =>
    refine hg''.listed.phisComplete_removeBlock hx'
      fun {b block'} hbx hb' name q hq e he hnotin => ?_
    rcases block?_modifyBlock_eq_some hb' with ⟨hbs, hb'⟩ | ⟨succ', rfl, hs', rfl⟩
    · -- any other block is entered by the same edges as before
      obtain ⟨block, hb, -⟩ := h.exists_block_before hb'
      have hin : e ∈ block.preds := by
        rcases (h.mem_preds hbx hb hb' e).mp he with hin | ⟨heq, -⟩
        · exact hin
        · exact absurd heq hbs
      rw [h.phis_eq hb hb'] at hq
      exact hc (block?_forget_of_ne hbx ▸ hb) hq e hin
    · -- the link leaves with the block, so no argument is asked for it
      have hne : e ≠ link := fun heq => by
        have hout := (hg''.listed.mem_succs hx' e).mpr ⟨_, heq ▸ h.onward hlink, rfl⟩
        exact hnotin (List.mem_append_right _ hout)
      have hin : link ∈ succ.preds := (hg.listed.mem_preds hs link).mpr ⟨_, hlink, rfl⟩
      exact h.exists_arg ((block?_forget_of_ne hsx).trans hs) hsx hs' hin (hc hs) (hc hx) hq he hne

/-- Past a block that does nothing, the same blocks are reached. -/
theorem Rerouted.reached (hempty : old.kind = .empty) (hr : g.Reached) :
    ((g'.modifyBlock s (passOn old link pairs (succ.preds.filter (· ≠ link)))).removeBlock
      x).Reached := by
  obtain ⟨hg'', ⟨old', hx', hkind'⟩, hclosed⟩ := h.removable link hg hx hkind hsx hs
  intro b block' hb'
  have hk := (hg''.listed.removeBlock x).kind?_eq_some (kind?_of_block? hb')
  obtain ⟨block₁, hb₁, -⟩ := block?_of_kind? hk.2
  have hsame : SameOutline g'
      (g'.modifyBlock s (passOn old link pairs (succ.preds.filter (· ≠ link)))) :=
    .modifyBlock g' s fun _ => rfl
  obtain ⟨block₂, hb₂, -⟩ := hsame.exists_block hb₁
  obtain ⟨block, hb, -⟩ := h.exists_block_before hb₂
  have hforget : SameOutline g (g.forget x) := .modifyBlock g x fun _ => rfl
  have hempty' : (g.forget x).kind? x = some .empty :=
    (kind?_of_block? (block?_forget_self hx)).trans (congrArg some hempty)
  refine (hforget.reached hr hb).imp_right fun hreach => ?_
  rw [(hg''.removeBlock_of_closed hx' hkind' hclosed).2, hsame.reachable_iff]
  exact h.reachable hempty' hk.1 hreach

theorem Rerouted.live :
    ∃ succ', ((g'.modifyBlock s (passOn old link pairs (succ.preds.filter (· ≠ link)))).removeBlock
      x).block? s = some succ' := by
  obtain ⟨hg'', -⟩ := h.removable link hg hx hkind hsx hs
  obtain ⟨succ', hs', -⟩ := h.exists_block ((block?_forget_of_ne hsx).trans hs)
  apply (hg''.listed.removeBlock x).exists_block hsx
  rw [block?_modifyBlock, if_pos rfl, hs', Option.map_some]

end

/-! ### The operation -/

/-- The graph in which all edges that enter a block are led past it, and it is removed. -/
def leadPast (g : Graph) (x s : BlockId) (link : EdgeId) (old succ : Block) : Graph :=
  ((g.redirectAll s old.preds).2.modifyBlock s (passOn old link (g.redirectAll s old.preds).1
    (succ.preds.filter (· ≠ link)))).removeBlock x

/-- The graph before the block is removed, its phi functions forgotten. -/
def detour (g : Graph) (x s : BlockId) (link : EdgeId) (old succ : Block) : Graph :=
  ((g.redirectAll s old.preds).2.forget x).modifyBlock s (passOn old link
    (g.redirectAll s old.preds).1 (succ.preds.filter (· ≠ link)))

/-- The phi functions of the block go with it, forgotten or not. -/
theorem leadPast_eq (hsx : s ≠ x) :
    g.leadPast x s link old succ = (g.detour x s link old succ).removeBlock x := by
  rw [leadPast, ← removeBlock_forget, ← modifyBlock_forget _ _ fun heq => absurd heq.symm hsx]
  rfl

/-- **A graph from which a block is taken out** in front of another. -/
structure TakesOut (g g' : Graph) (b s : BlockId) : Prop extends Maintains g g' where
  reached : g.kind? b = some .empty → g.Reached → g'.Reached
  live : ∃ succ, g'.block? s = some succ

/-- The phi functions of the successor may have become solo. -/
theorem TakesOut.ends_simplifySolo {b : BlockId} {bad : Fault → Prop} (h : TakesOut g g' b s) :
    (g'.simplifySolo s).Ends (fun g'' => Maintains g g'' ∧
      (g.kind? b = some .empty → g.Reached → g''.Reached)) bad := by
  obtain ⟨succ, hs⟩ := h.live
  obtain ⟨g'', hok, hgrows⟩ := h.wellFormed.grows_simplifySolo hs
  exact .of_ok hok ⟨h.toMaintains.trans hgrows.toMaintains,
    fun hempty hr => hgrows.reached (h.reached hempty hr)⟩

section
variable (hg : g.WellFormed) (hx : g.block? x = some old) (hkind : old.kind.isTerminal = false)
  (hlink : g.edge? link = some ⟨x, s, .always⟩) (hsx : s ≠ x) (hs : g.block? s = some succ)
include hg hx hkind hsx hs

/-- No edge enters the block. -/
theorem WellFormed.takesOut_orphan (hpreds : old.preds = []) :
    TakesOut g (g.removeBlock x) x s := by
  have hclosed : ∀ {e a d}, g.edge? e ≠ some ⟨a, x, d⟩ := by
    intro e a d he
    have hin := (hg.listed.mem_preds hx e).mpr ⟨_, he, rfl⟩
    rw [hpreds] at hin
    cases hin
  exact ⟨hg.maintains_removeBlock hx hkind hclosed,
    fun _ hr => absurd hpreds (hr.preds_ne_nil hg hx hkind),
    (hg.listed.removeBlock x).exists_block hsx hs⟩

include hlink

omit hkind hs in
/-- The edges that enter the block, led past it once its phi functions are forgotten. -/
theorem WellFormed.rerouted : Rerouted (g.forget x) ((g.redirectAll s old.preds).2.forget x) x s
    old.preds (g.redirectAll s old.preds).1 := by
  have hes : ∀ e ∈ old.preds, ∃ a d, (g.forget x).edge? e = some ⟨a, x, d⟩ := by
    intro e he
    obtain ⟨⟨a, t, d⟩, hedge, rfl⟩ := (hg.listed.mem_preds hx e).mp he
    exact ⟨a, d, hedge⟩
  have hlink₀ : (g.forget x).edge? link = some ⟨x, s, .always⟩ := hlink
  have h := Rerouted.redirectAll (Grows.forget hg x).wellFormed (block?_forget_self hx)
    rfl hlink₀ hsx
    (hg.listed.nodup_preds hx) hes
  rwa [redirectAll_forget] at h

/-- All edges that enter the block are led past it. -/
theorem WellFormed.takesOut_rerouted : TakesOut g (g.leadPast x s link old succ) x s := by
  have h := hg.rerouted hx hlink hsx
  rw [leadPast_eq hsx]
  exact ⟨h.maintains hg hx hkind hsx hs hlink, fun hempty => h.reached hg hx hkind hsx hs (by
    rw [kind?_of_block? hx] at hempty
    exact Option.some.inj hempty), h.live hg hx hkind hsx hs⟩

end

/-- A block that is no branch and not terminal leads one way. -/
theorem WellFormed.exists_onward (hg : g.WellFormed) {b : BlockId} {block : Block}
    (hb : g.block? b = some block) (hbranch : block.kind.isBranch = false)
    (hterm : block.kind.isTerminal = false) : ∃ link s, block.kind.directions = [.always] ∧
      g.edge? link = some ⟨b, s, .always⟩ := by
  have hd := (Kind.straight_of hbranch hterm).directions_eq
  have hne := (Kind.straight_of hbranch hterm).ne_exit
  have hin : Direction.always ∈ block.kind.directions := hd ▸ List.mem_singleton.mpr rfl
  obtain ⟨link, s, hlink⟩ := (hg.wired.ways (kind?_of_block? hb) hne .always).mpr hin
  exact ⟨link, s, hd, hlink⟩

/-- **Taking a block out** keeps the graph sound.  It is refused for the terminal blocks, for a
branch and for a block that leads to itself. -/
theorem WellFormed.ends_bypass (hg : g.WellFormed) {b : BlockId} {bad : Fault → Prop}
    (hstale : g.block? b = none → bad (.violation (.staleBlock b)))
    (hterminal : ∀ {k}, g.kind? b = some k → k.isTerminal = true → bad (.unremovable b))
    (hbranch : ∀ {k}, g.kind? b = some k → k.isBranch = true → bad (.unroutable b))
    (hloop : g.Leads b b → bad (.ownSuccessor b)) :
    (g.bypass b).Ends (fun g' => Maintains g g' ∧
      (g.kind? b = some .empty → g.Reached → g'.Reached)) bad := by
  refine Run.Ends.bind (ends_block (fun old hb => hb) hstale) fun old hb => ?_
  have hk := kind?_of_block? hb
  split
  · rename_i hterm
    exact .fail (hterminal hk hterm)
  split
  · rename_i hbr
    exact .fail (hbranch hk hbr)
  rename_i hterm hbr
  rw [Bool.not_eq_true] at hterm hbr
  obtain ⟨link, s, hd, hlink⟩ := hg.exists_onward hb hbr hterm
  rw [if_neg (by simp [hg.succs_eq hb hd hlink])]
  apply Run.Ends.bind_ok (hg.onwardEdge_eq_ok hb hd hlink)
  apply Run.Ends.bind_ok (edge_eq_ok hlink)
  dsimp only
  obtain ⟨succ, hs⟩ : ∃ succ, g.block? s = some succ := hg.listed.target_live hlink
  split
  · rename_i hsb
    exact .fail (hloop ⟨link, .always, hsb ▸ hlink⟩)
  rename_i hsb
  split
  · rename_i hpreds
    apply Run.Ends.report
    apply Run.Ends.bind_ok (hg.listed.joined.discard_eq hb)
    exact (hg.takesOut_orphan hb hterm hsb hs (List.isEmpty_iff.mp hpreds)).ends_simplifySolo
  · obtain ⟨hreroute, hdiscard⟩ := hg.listed.rerouteAll_preds hb hs
    apply Run.Ends.bind_ok (block_eq_ok hs)
    apply Run.Ends.bind_ok hreroute
    apply Run.Ends.report
    apply Run.Ends.bind_ok (hdiscard _)
    exact (hg.takesOut_rerouted hb hterm hlink hsb hs).ends_simplifySolo

end

end Graph
end FlowGraph
