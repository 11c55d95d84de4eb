import FlowGraph.Proofs.HandingOn

/-! # Solo phi functions

The phi functions of a block with a single predecessor become copies on the edge that enters it, one
after the other in the order of base names.  A copy reads what its phi function would have read,
unless an earlier copy has written it.
-/
namespace FlowGraph

namespace Ssa

variable {V : Type} {cs : List Copy} {v w : Var}

/-! ### Copies one after the other -/

theorem inOrder_of_notMem (h : v ∉ cs.map Copy.dst) (σ : Store V) : inOrder cs σ v = σ v := by
  induction cs generalizing σ with
  | nil => rfl
  | cons c cs ih =>
    rw [List.map_cons, List.mem_cons, not_or] at h
    rw [inOrder_cons, ih h.2, Store.set_of_ne _ _ h.1]

/-- A copy reads the old value of what no copy writes. -/
theorem inOrder_of_mem (hdst : (cs.map Copy.dst).Nodup) (hin : ⟨v, w⟩ ∈ cs)
    (hw : w ∉ cs.map Copy.dst) (σ : Store V) : inOrder cs σ v = σ w := by
  induction cs generalizing σ with
  | nil => cases hin
  | cons c cs ih =>
    obtain ⟨hnot, hdst⟩ := List.nodup_cons.mp hdst
    rw [List.map_cons, List.mem_cons, not_or] at hw
    rw [inOrder_cons]
    rcases List.mem_cons.mp hin with rfl | hin
    · rw [inOrder_of_notMem hnot, Store.set_self]
    · rw [ih hdst hin hw.2, Store.set_of_ne _ _ hw.1]

/-- A copy reads the new value of what an earlier copy writes. -/
theorem inOrder_of_mem_of_mem (hsorted : cs.Pairwise fun c c' => c.dst.name < c'.dst.name) {y : Var}
    (hin : ⟨v, y⟩ ∈ cs) (hbefore : ⟨y, w⟩ ∈ cs) (hlt : y.name < v.name) (hw : w ∉ cs.map Copy.dst)
    (σ : Store V) : inOrder cs σ v = σ w := by
  obtain ⟨pre, post, rfl⟩ := List.append_of_mem hbefore
  obtain ⟨-, hpost, hpre⟩ := List.pairwise_append.mp hsorted
  obtain ⟨hbehind, hpost⟩ := List.pairwise_cons.mp hpost
  have hin : ⟨v, y⟩ ∈ post := by
    rcases List.mem_append.mp hin with hin | hin
    · exact absurd (OrderedKey.trans hlt (hpre _ hin _ List.mem_cons_self)) OrderedKey.irrefl
    · refine (List.mem_cons.mp hin).resolve_left fun heq => ?_
      cases heq
      exact OrderedKey.irrefl hlt
  have hy : y ∉ post.map Copy.dst := fun hmem => by
    obtain ⟨c, hc, hdst⟩ := List.mem_map.mp hmem
    exact OrderedKey.irrefl (hdst ▸ hbehind c hc)
  rw [List.map_append, List.mem_append, not_or] at hw
  rw [inOrder_append, inOrder_cons, inOrder_of_mem (nodup_dst_of_sorted hpost) hin hy,
    Store.set_self, inOrder_of_notMem hw.1]

end Ssa

/-! ### The copies for solo phi functions -/

namespace Graph

/-- The copies that solo phi functions become. -/
def soloChain (ps : Phis) : List Ssa.Copy := (soloCopies ps).map fun x => ⟨x.1, x.2⟩

/-- A phi function with arguments for one edge only. -/
theorem head?_args {p : Phi} {e : EdgeId} (h : ∀ {e' w}, p.arg? e' = some w → e' = e) :
    p.args.entries.head? = (p.arg? e).map (e, ·) := by
  cases hes : p.args.entries with
  | nil =>
    have hnone : p.arg? e = none := by rw [Phi.arg?, OrdMap.get?, hes]; rfl
    rw [hnone]
    rfl
  | cons x es =>
    obtain ⟨e', w⟩ := x
    have hw : p.arg? e' = some w :=
      OrdMap.get?_eq_some_iff.mpr (hes ▸ List.mem_cons_self)
    cases h hw
    rw [hw]
    rfl

/-- They are those on the only edge, but for the copies of a variable to itself. -/
theorem soloChain_eq {ps : Phis} {e : EdgeId}
    (h : ∀ {name p}, ps.get? name = some p → ∀ {e' w}, p.arg? e' = some w → e' = e) :
    soloChain ps = (ps.copiesFor e).filter fun c => c.src ≠ c.dst := by
  rw [soloChain, soloCopies, Phis.copiesFor, Phis.toList, List.map_filterMap, List.filter_filterMap,
    List.filterMap_map, List.filterMap_map]
  refine List.filterMap_congr fun x hx => ?_
  have hhead := head?_args (h (OrdMap.get?_eq_some_iff.mpr hx))
  simp only [Function.comp_apply, hhead]
  cases x.2.arg? e with
  | none => rfl
  | some w =>
    by_cases hw : w = Phis.lhs x.1 x.2 <;> simp [Option.filter, hw]

/-! ### Phi functions handed on and made into copies -/

section
variable {ps own passed : Phis} {link e e' : EdgeId}
  (hps : ∀ v, ps.given e' v = handed own passed link e v)
include hps

theorem mem_filter_copiesFor {v w : Var} :
    ⟨v, w⟩ ∈ (ps.copiesFor e').filter (fun c => c.src ≠ c.dst) ↔
    handed own passed link e v = some w ∧ w ≠ v := by
  rw [List.mem_filter, Phis.mem_copiesFor_iff_given, hps, decide_eq_true_eq]

theorem notMem_dst {v : Var} (h : ∀ {w}, handed own passed link e v = some w → w = v) :
    v ∉ ((ps.copiesFor e').filter (fun c => c.src ≠ c.dst)).map Ssa.Copy.dst := by
  intro hmem
  obtain ⟨⟨_, w⟩, hc, rfl⟩ := List.mem_map.mp hmem
  obtain ⟨hw, hne⟩ := (mem_filter_copiesFor hps).mp hc
  exact hne (h hw)

theorem notMem_dst_of_none {v : Var} (h : handed own passed link e v = none) :
    v ∉ ((ps.copiesFor e').filter (fun c => c.src ≠ c.dst)).map Ssa.Copy.dst :=
  notMem_dst hps fun hw => by rw [h] at hw; cases hw

omit hps in
theorem nodup_dst_filter (e' : EdgeId) :
    (((ps.copiesFor e').filter (fun c => c.src ≠ c.dst)).map Ssa.Copy.dst).Nodup :=
  Ssa.nodup_dst_of_sorted ((ps.sorted_copiesFor e').filter _)

variable (hread : ∀ {v w}, passed.given e v = some w → handed own passed link e w = none)
  (hown : ∀ {v w p}, own.given link v = some w → own.get? w.name = some p → Phis.lhs w.name p ≠ w)
include hread hown

omit hps in
/-- No copy writes what the phi functions read. -/
theorem handed_source {v : Var} (hne : passed.source e (own.source link v) ≠ v) :
    handed own passed link e (passed.source e (own.source link v)) = none := by
  cases hz : passed.given e (own.source link v) with
  | some z =>
    rw [Phis.source, hz, Option.getD_some]
    exact hread hz
  | none =>
    rw [Phis.source, hz, Option.getD_none] at hne ⊢
    cases hw : own.given link v with
    | none =>
      rw [Phis.source, hw] at hne
      exact absurd rfl hne
    | some w =>
      rw [Phis.source, hw, Option.getD_some] at hz ⊢
      cases hp : own.get? w.name with
      | none => rw [handed_of_get?_eq_none hp, hz]
      | some p => exact handed_of_ne_lhs hp (hown hw hp) e

/-- A variable whose phi functions are fused gets its value in one copy. -/
theorem inOrder_fused {v : Var}
    (hfused : (handed own passed link e v).getD v = passed.source e (own.source link v))
    {V : Type} (σ : Store V) :
    Ssa.inOrder ((ps.copiesFor e').filter fun c => c.src ≠ c.dst) σ v =
      σ (passed.source e (own.source link v)) := by
  by_cases hself : passed.source e (own.source link v) = v
  · rw [hself] at hfused ⊢
    refine Ssa.inOrder_of_notMem (notMem_dst hps fun h => ?_) σ
    rwa [h, Option.getD_some] at hfused
  · have hhanded : handed own passed link e v = some (passed.source e (own.source link v)) := by
      cases h : handed own passed link e v with
      | none =>
        rw [h, Option.getD_none] at hfused
        exact absurd hfused.symm hself
      | some w => rw [← hfused, h, Option.getD_some]
    exact Ssa.inOrder_of_mem (nodup_dst_filter e') ((mem_filter_copiesFor hps).mpr ⟨hhanded, hself⟩)
      (notMem_dst_of_none hps (handed_source hread hown hself)) σ

omit hown in
/-- An argument that moves to the successor is merged by a copy of its own, which comes first if its
base name does. -/
theorem inOrder_moved {v w : Var} (hw : own.given link v = some w) (hlt : w.name < v.name)
    (hnone : own.get? w.name = none) {V : Type} (σ : Store V) :
    Ssa.inOrder ((ps.copiesFor e').filter fun c => c.src ≠ c.dst) σ v =
      σ (passed.source e (own.source link v)) := by
  have hne : w.name ≠ v.name := fun heq => OrderedKey.irrefl (heq ▸ hlt)
  have hmoved : handed own passed link e w = passed.given e w := handed_of_get?_eq_none hnone e
  have hlast := (mem_filter_copiesFor hps).mpr ⟨handed_of_arg hw
    (fun _ heq => hne (congrArg Var.name heq).symm) e, fun heq => hne (congrArg Var.name heq)⟩
  have hsource : own.source link v = w := by rw [Phis.source, hw, Option.getD_some]
  rw [hsource]
  cases hz : passed.given e w with
  | none =>
    rw [Phis.source, hz, Option.getD_none]
    exact Ssa.inOrder_of_mem (nodup_dst_filter e') hlast
      (notMem_dst_of_none hps (hmoved.trans hz)) σ
  | some z =>
    rw [Phis.source, hz, Option.getD_some]
    have hunread := hread hz
    have hself : z ≠ w := by
      rintro rfl
      rw [hmoved, hz] at hunread
      cases hunread
    exact Ssa.inOrder_of_mem_of_mem ((ps.sorted_copiesFor e').filter _) hlast
      ((mem_filter_copiesFor hps).mpr ⟨hmoved.trans hz, hself⟩) hlt
      (notMem_dst_of_none hps hunread) σ

/-- **Copies one after the other** do what the phi functions of the block and its successor did.  An
argument that the block defines under another base name has to come earlier. -/
theorem inOrder_handed {v : Var}
    (hv : ∀ {p q}, own.get? v.name = some p → passed.get? v.name = some q → Phis.lhs v.name q ≠ v)
    (hname : ∀ {w q}, own.given link v = some w → passed.get? w.name = some q →
      Phis.lhs w.name q = w → w.name = v.name ∨ w.name < v.name ∧ own.get? w.name = none)
    {V : Type} (σ : Store V) :
    Ssa.inOrder ((ps.copiesFor e').filter fun c => c.src ≠ c.dst) σ v =
      σ (passed.source e (own.source link v)) := by
  by_cases hother : ∃ w q, own.given link v = some w ∧ passed.get? w.name = some q ∧
      Phis.lhs w.name q = w ∧ w.name ≠ v.name
  · obtain ⟨w, q, hw, hq, hlhs, hne⟩ := hother
    obtain ⟨hlt, hnone⟩ := (hname hw hq hlhs).resolve_left hne
    exact inOrder_moved hps hread hw hlt hnone σ
  · refine inOrder_fused hps hread hown (getD_handed hv (fun {w q} hw hq hlhs => ?_) e) σ
    by_contra hne
    exact hother ⟨w, q, hw, hq, hlhs, hne⟩

end

/-! ### The operation -/

variable {g : Graph} {b : BlockId} {block : Block} {e : EdgeId}

/-- Copies for solo phi functions are put onto an edge like any others. -/
theorem outcome_foldlM_soloCopies {put : EdgeId × Graph → Var × Var → Run (EdgeId × Graph)}
    (hput : ∀ s x, (put s x).outcome = (Ssa.spliceNext e s ⟨x.1, x.2⟩).outcome) (ps : Phis)
    (s : EdgeId × Graph) : ((soloCopies ps).foldlM put s).outcome =
      ((soloChain ps).foldlM (Ssa.spliceNext e) s).outcome := by
  rw [Run.outcome_foldlM, Run.outcome_foldlM, soloChain, List.foldlM_map]
  exact congrArg (fun f => List.foldlM f s (soloCopies ps))
    (funext fun s => funext fun x => hput s x)

theorem kind?_forget (g : Graph) (b c : BlockId) : (g.forget b).kind? c = g.kind? c := by
  rw [kind?, kind?, forget, block?_modifyBlock]
  split
  · rw [Option.map_map]
    rfl
  · rfl

/-- **A graph with solo phi functions made into copies.** -/
structure SoloCopied (g g' : Graph) (b : BlockId) : Prop where
  wellFormed : g'.WellFormed
  kind?_eq : ∀ {c k}, g.kind? c = some k → g'.kind? c = some k
  inserted : ∀ {c k}, g'.kind? c = some k → g.kind? c = none →
    ∃ cp : Ssa.Copy, k = .statement (.copy cp.dst cp.src)
  kept : ∀ {e a t d}, g.edge? e = some ⟨a, t, d⟩ → t ≠ b →
    g'.edge? e = some ⟨a, t, d⟩ ∧ ∀ v, g'.source t e v = g.source t e v
  /-- Neither the block nor a copy has phi functions. -/
  bare : ∀ {e a t d}, g'.edge? e = some ⟨a, t, d⟩ → g.kind? t = none ∨ t = b → g'.phiCopies e = []

theorem CopiesOnto.soloCopied {g' : Graph} (h : CopiesOnto (g.forget b) e g') (hg : g.WellFormed)
    (hb : g.block? b = some block) {a : BlockId} {d : Direction} (he : g.edge? e = some ⟨a, b, d⟩) :
    SoloCopied g g' b := by
  have hnone : ∀ {c}, g.kind? c = none → (g.forget b).block? c = none := fun hc =>
    Option.map_eq_none_iff.mp ((kind?_forget g b _).trans hc)
  refine ⟨h.wellFormed, fun {c k} hk => ?kind, fun {c k} hk hc => ?inserted,
    fun {e₁ a₁ t d₁} he₁ htb => ?kept, fun {e₁ a₁ t d₁} he₁ ht => ?bare⟩
  case kind =>
    obtain ⟨block₁, hb₁, rfl⟩ := block?_of_kind? ((kind?_forget g b c).trans hk)
    obtain ⟨block', hb', hkind, -⟩ := h.block?_of_live hb₁
    rw [kind?_of_block? hb', hkind]
  case inserted =>
    obtain ⟨block', hb', rfl⟩ := block?_of_kind? hk
    exact (h.block?_inserted hb' (hnone hc)).2
  case kept =>
    have hne : e₁ ≠ e := fun heq => by
      rw [heq, he] at he₁
      cases he₁
      exact htb rfl
    obtain ⟨block₁, hb₁⟩ : ∃ block₁, g.block? t = some block₁ := hg.listed.target_live he₁
    obtain ⟨block', hb', -, -, hsame⟩ := h.block?_of_live ((block?_forget_of_ne htb).trans hb₁)
    have hphis := (hsame fun hin => htb (hg.listed.target_eq hb₁ hin he).symm).2
    refine ⟨h.edge?_of_ne hne he₁, fun v => ?_⟩
    rw [source, source, given_of_block? hb', given_of_block? hb₁, hphis]
  case bare =>
    obtain ⟨block', hb'⟩ : ∃ block', g'.block? t = some block' :=
      h.wellFormed.listed.target_live he₁
    have hempty : block'.phis = .empty := by
      rcases ht with ht | rfl
      · exact (h.block?_inserted hb' (hnone ht)).1
      · obtain ⟨block₁, hb₁, -, hphis, -⟩ := h.block?_of_live (block?_forget_self hb)
        rw [hb'] at hb₁
        cases hb₁
        exact hphis rfl
    rw [phiCopies_eq he₁ hb', hempty]
    rfl

theorem outcome_simplifySolo (hb : g.block? b = some block) (hpreds : block.preds = [e])
    {tail : EdgeId}
    {g' : Graph} (h : ((soloChain block.phis).foldlM (Ssa.spliceNext e) (e, g.forget b)).outcome =
      .ok (tail, g')) : (g.simplifySolo b).outcome = .ok g' := by
  rw [simplifySolo, Run.outcome_liftM_bind (block_eq_ok hb), hpreds]
  refine Run.outcome_bind_of_ok (a := (tail, g')) ?_ _
  refine (outcome_foldlM_soloCopies ?_ _ _).trans h
  exact fun _ _ => rfl

/-- **The phi functions of a block with a single predecessor** become a chain of copies. -/
theorem WellFormed.simplifySolo_chain (hg : g.WellFormed) (hb : g.block? b = some block)
    (hpreds : block.preds = [e]) {a : BlockId} {d : Direction} (he : g.edge? e = some ⟨a, b, d⟩) :
    ∃ g', (g.simplifySolo b).outcome = .ok g' ∧ SoloCopied g g' b ∧
      CopyChain g' (fun c => g.kind? c = none) a d (soloChain block.phis) b := by
  have he' : (g.forget b).edge? e = some ⟨a, b, d⟩ := he
  obtain ⟨tail, g', hok, honto, hchain⟩ :=
    Ssa.foldlM_spliceNext (Grows.forget hg b).wellFormed he' e (soloChain block.phis)
  refine ⟨g', outcome_simplifySolo hb hpreds hok, honto.soloCopied hg hb he,
    hchain.mono id (fun _ => id) fun {c k} hc hk => ⟨?_, hk⟩⟩
  rw [← kind?_forget g b, kind?, hc]
  rfl

/-- Other blocks keep theirs. -/
theorem simplifySolo_of_ne (hb : g.block? b = some block) (h : ∀ e, block.preds ≠ [e]) :
    (g.simplifySolo b).outcome = .ok g := by
  rw [simplifySolo, Run.outcome_liftM_bind (block_eq_ok hb)]
  split
  · rename_i e hpreds
    exact absurd hpreds (h e)
  · rfl

end Graph
end FlowGraph
