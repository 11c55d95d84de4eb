import FlowGraph.Proofs.Rerouting

/-! # Handing on phi functions

A block that is taken out hands its phi functions on to its successor.  What the successor gives a
variable on an edge that used to enter the block is said here in full (`Phis.handed`), and the edges
of the graph with it (`Bypassed`).
-/
namespace FlowGraph

/-! ### What phi functions give -/

namespace Phis

/-- What phi functions give a variable on an edge, if they give it anything. -/
def given (ps : Phis) (e : EdgeId) (v : Var) : Option Var :=
  (ps.get? v.name).bind fun p => if lhs v.name p = v then p.arg? e else none

variable {ps : Phis} {e : EdgeId} {v w : Var}

theorem given_eq_some_iff : ps.given e v = some w ↔
    ∃ p, ps.get? v.name = some p ∧ lhs v.name p = v ∧ p.arg? e = some w := by
  simp only [given, Option.bind_eq_some_iff, Option.ite_none_right_eq_some]

theorem mem_copiesFor_iff_given : ⟨v, w⟩ ∈ ps.copiesFor e ↔ ps.given e v = some w := by
  rw [mem_copiesFor, given_eq_some_iff]
  constructor
  · rintro ⟨name, p, hp, rfl, hw⟩
    exact ⟨p, hp, rfl, hw⟩
  · rintro ⟨p, hp, hlhs, hw⟩
    exact ⟨v.name, p, hp, hlhs.symm, hw⟩

/-- The variable whose value a variable gets on an edge. -/
def source (ps : Phis) (e : EdgeId) (v : Var) : Var := (ps.given e v).getD v

theorem origin_copiesFor (ps : Phis) (e : EdgeId) (v : Var) :
    Ssa.origin (ps.copiesFor e) v = ps.source e v := by
  rw [source]
  cases hw : ps.given e v with
  | none =>
    refine Ssa.origin_of_notMem fun hin => ?_
    obtain ⟨⟨_, w⟩, hc, rfl⟩ := List.mem_map.mp hin
    rw [mem_copiesFor_iff_given, hw] at hc
    cases hc
  | some w =>
    obtain ⟨p, hp, hlhs, hw⟩ := given_eq_some_iff.mp hw
    have horigin := atOnce_lhs (fun v => v) hp hw
    rwa [Ssa.atOnce_apply, hlhs] at horigin

theorem given_eq_none (h : ∀ {p}, ps.get? v.name = some p → lhs v.name p ≠ v) :
    ps.given e v = none := by
  rw [given]
  cases hp : ps.get? v.name with
  | none => rfl
  | some p => exact if_neg (h hp)

theorem given_of_lhs {p : Phi} (hp : ps.get? v.name = some p) (hlhs : lhs v.name p = v) :
    ps.given e v = p.arg? e := by
  rw [given, hp, Option.bind_some, if_pos hlhs]

/-- Arguments for other edges do not matter. -/
theorem given_map_dropArg {e' : EdgeId} (h : e ≠ e') (v : Var) :
    Phis.given (ps.map (·.dropArg e')) e v = ps.given e v := by
  rw [given, given, Phis.map, OrdMap.get?_mapValues]
  cases ps.get? v.name with
  | none => rfl
  | some p =>
    simp only [Option.map_some, Option.bind_some, Phi.arg?_dropArg, if_neg h]
    rfl

end Phis

/-! ### Arguments along new edges -/

namespace Graph

section
variable {pairs : List (EdgeId × EdgeId)} {e : EdgeId}

theorem version_foldl_passArg (value : EdgeId → Option Var) (p : Phi) :
    (pairs.foldl (Phi.passArg value) p).version = p.version := by
  induction pairs generalizing p with
  | nil => rfl
  | cons x pairs ih =>
    rw [List.foldl_cons, ih, Phi.passArg]
    cases value x.1 <;> rfl

theorem version_foldl_setArg (es : List EdgeId) (v : Var) (p : Phi) :
    (es.foldl (fun p e => p.setArg e v) p).version = p.version := by
  induction es generalizing p with
  | nil => rfl
  | cons e es ih =>
    rw [List.foldl_cons, ih]
    rfl

/-- An edge that takes no other's place gets no new argument. -/
theorem arg?_foldl_passArg_of_notMem (value : EdgeId → Option Var) (h : ∀ old, (old, e) ∉ pairs)
    (p : Phi) : (pairs.foldl (Phi.passArg value) p).arg? e = p.arg? e := by
  induction pairs generalizing p with
  | nil => rfl
  | cons x pairs ih =>
    have hne : e ≠ x.2 := fun heq => h x.1 (heq ▸ List.mem_cons_self)
    rw [List.foldl_cons, ih fun old hin => h old (List.mem_cons_of_mem _ hin), Phi.arg?_passArg,
      if_neg hne]

/-- An edge gets the argument of the one whose place it takes. -/
theorem arg?_foldl_passArg_of_mem (value : EdgeId → Option Var) {old : EdgeId}
    (hin : (old, e) ∈ pairs) (hsole : ∀ {o}, (o, e) ∈ pairs → o = old) (p : Phi) :
    (pairs.foldl (Phi.passArg value) p).arg? e = (value old).or (p.arg? e) := by
  induction pairs generalizing p with
  | nil => cases hin
  | cons x pairs ih =>
    have hrest : ∀ {o}, (o, e) ∈ pairs → o = old := fun h => hsole (List.mem_cons_of_mem _ h)
    -- the argument is set at the last of the pairs at the latest, and to the same each time
    have hstep : (value old).or ((p.passArg value x).arg? e) = (value old).or (p.arg? e) := by
      rw [Phi.arg?_passArg]
      split
      · rename_i heq
        obtain rfl : x.1 = old := hsole (heq ▸ List.mem_cons_self)
        rw [← Option.or_assoc, Option.or_self]
      · rfl
    rw [List.foldl_cons]
    by_cases hmore : (old, e) ∈ pairs
    · rw [ih hmore hrest, hstep]
    · have hx : x = (old, e) := ((List.mem_cons.mp hin).resolve_right hmore).symm
      rw [arg?_foldl_passArg_of_notMem value fun o ho => hmore (hrest ho ▸ ho), hx,
        Phi.arg?_passArg, if_pos rfl]

end

section
variable {pairs : List (EdgeId × EdgeId)} {others : List EdgeId} {name : String} {own : Phi}
  {passed : Option Phi} {moved : Phi} {link : EdgeId}

theorem lhs_mergedPhi :
    Phis.lhs name (mergedPhi name own passed link pairs) = Phis.lhs name own := by
  rw [Phis.lhs, mergedPhi_eq, version_foldl_passArg, Phis.lhs]

theorem lhs_movedPhi : Phis.lhs name (movedPhi name moved pairs others) = Phis.lhs name moved := by
  rw [Phis.lhs, movedPhi_eq, version_foldl_setArg, version_foldl_passArg, Phis.lhs, Phi.new]

section
variable {old new : EdgeId} (hin : (old, new) ∈ pairs) (hsole : ∀ {o}, (o, new) ∈ pairs → o = old)
include hin hsole

theorem arg?_mergedPhi_new (hfresh : own.arg? new = none) :
    (mergedPhi name own passed link pairs).arg? new = passedValue name own passed link old := by
  rw [mergedPhi_eq, arg?_foldl_passArg_of_mem _ hin hsole, hfresh, Option.or_none]

theorem arg?_movedPhi_new (hother : new ∉ others) :
    (movedPhi name moved pairs others).arg? new = moved.arg? old := by
  have hnone : (Phi.new moved.version).arg? new = none := rfl
  rw [movedPhi_eq, arg?_foldl_setArg, if_neg hother, arg?_foldl_passArg_of_mem _ hin hsole, hnone,
    Option.or_none]

end

theorem arg?_mergedPhi_other {e : EdgeId} (hnot : ∀ old, (old, e) ∉ pairs) :
    (mergedPhi name own passed link pairs).arg? e = own.arg? e :=
  arg?_foldl_passArg_of_notMem _ hnot own

theorem arg?_movedPhi_other {e : EdgeId} (hin : e ∈ others) :
    (movedPhi name moved pairs others).arg? e = some (Phis.lhs name moved) := by
  rw [movedPhi_eq, arg?_foldl_setArg, if_pos hin]

end

/-! ### What the successor gives -/

section
variable {own passed : Phis} {link : EdgeId} {pairs : List (EdgeId × EdgeId)} {others : List EdgeId}

/-- **What the successor gives a variable** on an edge that used to enter the block taken out.  The
phi function of the block is looked up under the base name of the variable. -/
def handed (own passed : Phis) (link e : EdgeId) (v : Var) : Option Var :=
  match own.get? v.name with
  | some p =>
    if Phis.lhs v.name p = v then passedValue v.name p (passed.get? v.name) link e else none
  | none => passed.given e v

theorem handed_of_lhs {v : Var} {p : Phi} (hp : own.get? v.name = some p)
    (hlhs : Phis.lhs v.name p = v) (e : EdgeId) :
    handed own passed link e v = passedValue v.name p (passed.get? v.name) link e := by
  simp only [handed, hp, if_pos hlhs]

theorem handed_of_ne_lhs {v : Var} {p : Phi} (hp : own.get? v.name = some p)
    (hlhs : Phis.lhs v.name p ≠ v) (e : EdgeId) : handed own passed link e v = none := by
  simp only [handed, hp, if_neg hlhs]

theorem handed_of_get?_eq_none {v : Var} (hp : own.get? v.name = none) (e : EdgeId) :
    handed own passed link e v = passed.given e v := by
  simp only [handed, hp]

/-- An argument that the block does not define under the base name is handed on as it is. -/
theorem handed_of_arg {v w : Var} (hw : own.given link v = some w)
    (hpassed : ∀ {q}, passed.get? v.name = some q → Phis.lhs v.name q ≠ w) (e : EdgeId) :
    handed own passed link e v = some w := by
  obtain ⟨p, hp, hlhs, hw⟩ := Phis.given_eq_some_iff.mp hw
  rw [handed_of_lhs hp hlhs]
  cases hq : passed.get? v.name with
  | none => simp only [passedValue, hw]
  | some q => simp only [passedValue, hw, if_neg (hpassed hq)]

/-- Instead of an argument that it does define so, what it takes itself is handed on. -/
theorem handed_of_passed {v w : Var} {q : Phi} (hw : own.given link v = some w)
    (hq : passed.get? v.name = some q) (hlhs : Phis.lhs v.name q = w) (e : EdgeId) :
    handed own passed link e v = some (passed.source e w) := by
  obtain ⟨p, hp, hown, hw⟩ := Phis.given_eq_some_iff.mp hw
  have hname : w.name = v.name := (congrArg Var.name hlhs).symm
  rw [handed_of_lhs hp hown, Phis.source, Phis.given_of_lhs (hname ▸ hq) (hname ▸ hlhs)]
  simp only [passedValue, hw, hq, if_pos hlhs]

/-- **Two parallel assignments in a row.**  What is handed on is what the block and then its
successor give, unless the block defines an argument of the successor under another base name, or a
variable whose base name the successor merges too. -/
theorem getD_handed {v : Var}
    (hv : ∀ {p q}, own.get? v.name = some p → passed.get? v.name = some q → Phis.lhs v.name q ≠ v)
    (hname : ∀ {w q}, own.given link v = some w → passed.get? w.name = some q →
      Phis.lhs w.name q = w → w.name = v.name) (e : EdgeId) :
    (handed own passed link e v).getD v = passed.source e (own.source link v) := by
  cases hw : own.given link v with
  | some w =>
    have hsource : own.source link v = w := by rw [Phis.source, hw, Option.getD_some]
    rw [hsource]
    -- Either the block defines the argument under the same base name, or it does not define it.
    by_cases hq : ∃ q, passed.get? v.name = some q ∧ Phis.lhs v.name q = w
    · obtain ⟨q, hq, hlhs⟩ := hq
      rw [handed_of_passed hw hq hlhs, Option.getD_some]
    · have hnone : passed.given e w = none := Phis.given_eq_none fun {q} hget hlhs => by
        have hsame := hname hw hget hlhs
        exact hq ⟨q, hsame ▸ hget, hsame ▸ hlhs⟩
      rw [handed_of_arg hw fun hget hlhs => hq ⟨_, hget, hlhs⟩, Phis.source, hnone,
        Option.getD_some, Option.getD_none]
  | none =>
    have hsource : own.source link v = v := by rw [Phis.source, hw, Option.getD_none]
    rw [hsource, Phis.source]
    cases hp : own.get? v.name with
    | none => rw [handed_of_get?_eq_none hp]
    | some p =>
      rw [Phis.given_eq_none (hv hp)]
      by_cases hlhs : Phis.lhs v.name p = v
      · have harg : p.arg? link = none := (Phis.given_of_lhs hp hlhs).symm.trans hw
        simp only [handed_of_lhs hp hlhs, passedValue, harg]
      · rw [handed_of_ne_lhs hp hlhs]

theorem given_bypassedPhis_new {old new : EdgeId} (hin : (old, new) ∈ pairs)
    (hsole : ∀ {o}, (o, new) ∈ pairs → o = old) (hother : new ∉ others)
    (hfresh : ∀ {name p}, own.get? name = some p → p.arg? new = none) (v : Var) :
    Phis.given (bypassedPhis own passed link pairs others) new v =
    handed own passed link old v := by
  rw [Phis.given, get?_bypassedPhis, handed]
  cases hp : own.get? v.name with
  | some p =>
    simp only [Option.map_some, Option.some_or, Option.bind_some, lhs_mergedPhi,
      arg?_mergedPhi_new hin hsole (hfresh hp)]
  | none =>
    rw [Phis.given]
    cases passed.get? v.name with
    | none => rfl
    | some q =>
      simp only [Option.map_none, Option.map_some, Option.none_or, Option.bind_some, lhs_movedPhi,
        arg?_movedPhi_new hin hsole hother]

/-- On the other edges a variable that the successor did not merge before keeps its value. -/
theorem source_bypassedPhis_other {e : EdgeId} (hnot : ∀ old, (old, e) ∉ pairs) (hin : e ∈ others)
    (v : Var) : Phis.source (bypassedPhis own passed link pairs others) e v = own.source e v := by
  rw [Phis.source, Phis.source, Phis.given, Phis.given, get?_bypassedPhis]
  cases own.get? v.name with
  | some p =>
    simp only [Option.map_some, Option.some_or, Option.bind_some, lhs_mergedPhi,
      arg?_mergedPhi_other hnot]
  | none =>
    cases passed.get? v.name with
    | none => rfl
    | some q =>
      simp only [Option.map_none, Option.map_some, Option.none_or, Option.bind_some,
        Option.bind_none, Option.getD_none, lhs_movedPhi, arg?_movedPhi_other hin]
      split
      · assumption
      · rfl

end

/-! ### The graph -/

variable {g : Graph}

/-- What the phi functions of a block give a variable on an edge. -/
def given (g : Graph) (b : BlockId) (e : EdgeId) (v : Var) : Option Var :=
  (g.block? b).bind (·.phis.given e v)

/-- The variable whose value a variable gets on an edge into a block. -/
def source (g : Graph) (b : BlockId) (e : EdgeId) (v : Var) : Var := (g.given b e v).getD v

theorem given_of_block? {b : BlockId} {block : Block} (hb : g.block? b = some block) (e : EdgeId)
    (v : Var) : g.given b e v = block.phis.given e v := by
  rw [given, hb, Option.bind_some]

theorem given_of_body {g' : Graph} {b : BlockId} {body : Kind × Phis}
    (h : (g'.block? b).map Block.body = some body) (e : EdgeId) (v : Var) :
    g'.given b e v = body.2.given e v := by
  obtain ⟨block, hb, rfl⟩ := Option.map_eq_some_iff.mp h
  exact given_of_block? hb e v

theorem origin_phiCopies {e : EdgeId} {a b : BlockId} {d : Direction}
    (he : g.edge? e = some ⟨a, b, d⟩) (v : Var) :
    Ssa.origin (g.phiCopies e) v = g.source b e v := by
  rw [phiCopies, he, Option.bind_some, source, given]
  cases g.block? b with
  | none => rfl
  | some block => exact Phis.origin_copiesFor block.phis e v

theorem given_foldl_without {es : List EdgeId} {e : EdgeId} (he : e ∉ es)
    (block : Block) (v : Var) :
    (es.foldl (fun block e => block.without e) block).phis.given e v = block.phis.given e v := by
  induction es generalizing block with
  | nil => rfl
  | cons e' es ih =>
    rw [List.mem_cons, not_or] at he
    obtain ⟨hne, he⟩ := he
    rw [List.foldl_cons, ih he]
    exact Phis.given_map_dropArg hne v

/-- On an edge that stays, the phi functions of a block that stays give the same. -/
theorem Listed.given_removeBlock (hg : g.Listed) {x a b : BlockId} {block : Block}
    (hx : g.block? x = some block) {e : EdgeId} {d : Direction} (he : g.edge? e = some ⟨a, b, d⟩)
    (ha : a ≠ x) (hb : b ≠ x) (v : Var) : (g.removeBlock x).given b e v = g.given b e v := by
  have hnot : e ∉ block.preds ++ block.succs := by
    rw [List.mem_append, hg.mem_preds hx, hg.mem_succs hx]
    rintro (⟨_, he', rfl⟩ | ⟨_, he', rfl⟩)
    · rw [he] at he'
      cases he'
      exact hb rfl
    · rw [he] at he'
      cases he'
      exact ha rfl
  rw [given, given, hg.block?_removeBlock hx, if_neg hb]
  cases g.block? b with
  | none => rfl
  | some block' => exact given_foldl_without hnot block' v

/-! ### Edges led past a block -/

/-- **An empty block in front of another**, in a well-formed graph. -/
structure EmptyBefore (g : Graph) (x s : BlockId) (link : EdgeId) (old succ : Block) : Prop where
  wellFormed : g.WellFormed
  block_eq : g.block? x = some old
  empty : old.kind = .empty
  link_eq : g.edge? link = some ⟨x, s, .always⟩
  succ_eq : g.block? s = some succ
  ne : s ≠ x

/-- **A graph with a block taken out** in front of another: what became of its edges, and what the
phi functions at their ends give. -/
structure Bypassed (g g' : Graph) (x s : BlockId) (link : EdgeId) (old succ : Block) : Prop where
  wellFormed : g'.WellFormed
  kind?_iff : ∀ {b k}, g'.kind? b = some k ↔ b ≠ x ∧ g.kind? b = some k
  kept : ∀ {e a t d}, g.edge? e = some ⟨a, t, d⟩ → a ≠ x → t ≠ x →
    g'.edge? e = some ⟨a, t, d⟩ ∧ ∀ v, g'.source t e v = g.source t e v
  led : ∀ {e a d}, g.edge? e = some ⟨a, x, d⟩ → ∃ e', g'.edge? e' = some ⟨a, s, d⟩ ∧
    ∀ v, g'.given s e' v = handed succ.phis old.phis link e v
  /-- Nothing else enters the successor. -/
  into : ∀ {e a d}, g'.edge? e = some ⟨a, s, d⟩ →
    e ≠ link ∧ g.edge? e = some ⟨a, s, d⟩ ∨ ∃ e', g.edge? e' = some ⟨a, x, d⟩

namespace EmptyBefore

variable {x s : BlockId} {link : EdgeId} {old succ : Block} (h : g.EmptyBefore x s link old succ)
include h

theorem kind?_eq : g.kind? x = some .empty :=
  (kind?_of_block? h.block_eq).trans (congrArg some h.empty)

theorem isTerminal_eq : old.kind.isTerminal = false := by
  rw [h.empty]
  rfl

theorem ne_entry : x ≠ entry := h.wellFormed.ne_entry h.kind?_eq Kind.noConfusion

/-- The block is left by the link only. -/
theorem eq_link {e : EdgeId} {t : BlockId} {d : Direction} (he : g.edge? e = some ⟨x, t, d⟩) :
    e = link := by
  have hd : d ∈ Kind.empty.directions :=
    (h.wellFormed.wired.ways h.kind?_eq Kind.noConfusion d).mp ⟨e, t, he⟩
  cases List.mem_singleton.mp hd
  exact h.wellFormed.edge_unique he h.link_eq

/-- It does not lead to itself. -/
theorem source_ne {e : EdgeId} {a : BlockId} {d : Direction} (he : g.edge? e = some ⟨a, x, d⟩) :
    a ≠ x := by
  rintro rfl
  rw [h.eq_link he, h.link_eq] at he
  cases he
  exact h.ne rfl

theorem ne_link {e : EdgeId} {a t : BlockId} {d : Direction} (he : g.edge? e = some ⟨a, t, d⟩)
    (hax : a ≠ x) : e ≠ link := by
  rintro rfl
  rw [h.link_eq] at he
  cases he
  exact hax rfl

/-- The edges once those that enter the block are led past it. -/
theorem edge?_led {e : EdgeId} {edge : Edge} :
    (g.redirectAll s old.preds).2.edge? e = some edge ↔
      g.edge? e = some edge ∧ e ∉ old.preds ∨ ∃ o a d, (o, e) ∈ (g.redirectAll s old.preds).1 ∧
        g.edge? o = some ⟨a, x, d⟩ ∧ edge = ⟨a, s, d⟩ := by
  have hg := h.wellFormed.listed
  refine edge?_redirectAll h.ne (hg.nodup_preds h.block_eq) fun e he => ?_
  obtain ⟨⟨a, _, d⟩, hedge, rfl⟩ := (hg.mem_preds h.block_eq e).mp he
  exact ⟨a, d, hedge⟩

/-- An edge that is led past the block has a new handle, which leads to the successor. -/
theorem edge?_new {o e : EdgeId} (hin : (o, e) ∈ (g.redirectAll s old.preds).1) :
    ∃ a d, g.edge? o = some ⟨a, x, d⟩ ∧
      (g.redirectAll s old.preds).2.edge? e = some ⟨a, s, d⟩ := by
  obtain ⟨⟨a, _, d⟩, hedge, rfl⟩ :=
    (h.wellFormed.listed.mem_preds h.block_eq o).mp (mem_of_redirectAll hin)
  exact ⟨a, d, hedge, h.edge?_led.mpr (.inr ⟨o, a, d, hin, hedge, rfl⟩)⟩

theorem old_unique {o o' e : EdgeId} (hin : (o, e) ∈ (g.redirectAll s old.preds).1)
    (hin' : (o', e) ∈ (g.redirectAll s old.preds).1) : o' = o := by
  obtain ⟨a, d, ho, he⟩ := h.edge?_new hin
  obtain ⟨a', d', ho', he'⟩ := h.edge?_new hin'
  rw [he] at he'
  cases he'
  exact h.wellFormed.edge_unique ho' ho

/-- The new handle was no handle of an edge into the successor. -/
theorem new_notMem {o e : EdgeId} (hin : (o, e) ∈ (g.redirectAll s old.preds).1) :
    e ∉ succ.preds := by
  intro hmem
  have hg := h.wellFormed
  obtain ⟨⟨a, _, d⟩, he, rfl⟩ := (hg.listed.mem_preds h.succ_eq e).mp hmem
  obtain ⟨a', d', ho, he'⟩ := h.edge?_new hin
  have hnot : e ∉ old.preds := fun hpred => h.ne (hg.listed.target_eq h.block_eq hpred he)
  rw [h.edge?_led.mpr (.inl ⟨he, hnot⟩)] at he'
  cases he'
  rw [hg.edge_unique he ho, ho] at he
  cases he
  exact h.ne rfl

/-! ### The phi functions at their ends -/

theorem rerouted : Rerouted (g.forget x) ((g.redirectAll s old.preds).2.forget x) x s old.preds
    (g.redirectAll s old.preds).1 :=
  h.wellFormed.rerouted h.block_eq h.link_eq h.ne

theorem body_detour {b : BlockId} (hbx : b ≠ x) (hbs : b ≠ s) :
    ((g.detour x s link old succ).block? b).map Block.body = (g.block? b).map Block.body := by
  rw [detour, block?_modifyBlock, if_neg hbs, h.rerouted.body_eq, block?_forget_of_ne hbx]

/-- The successor has the phi functions that are handed on to it. -/
theorem body_detour_self : ((g.detour x s link old succ).block? s).map Block.body =
    some (succ.kind, bypassedPhis succ.phis old.phis link (g.redirectAll s old.preds).1
      (succ.preds.filter (· ≠ link))) := by
  obtain ⟨succ', hs', hbody⟩ :=
    h.rerouted.exists_block ((block?_forget_of_ne h.ne).trans h.succ_eq)
  obtain ⟨hkind, hphis⟩ := Prod.mk.inj hbody
  rw [detour, block?_modifyBlock, if_pos rfl, hs', ← hkind, ← hphis]
  rfl

theorem kind?_detour {b : BlockId} (hbx : b ≠ x) :
    (g.detour x s link old succ).kind? b = g.kind? b := by
  by_cases hbs : b = s
  · obtain ⟨succ', hs', hbody⟩ := Option.map_eq_some_iff.mp h.body_detour_self
    rw [hbs, kind?_of_block? h.succ_eq, kind?_of_block? hs']
    exact congrArg (fun body => some body.1) hbody
  · exact kind?_of_body (h.body_detour hbx hbs)

/-- An edge that stays gives what it gave before. -/
theorem source_detour {e : EdgeId} {a t : BlockId} {d : Direction}
    (he : g.edge? e = some ⟨a, t, d⟩) (hax : a ≠ x) (htx : t ≠ x) (v : Var) :
    (g.detour x s link old succ).source t e v = g.source t e v := by
  by_cases hts : t = s
  · subst hts
    have hin := (h.wellFormed.listed.mem_preds h.succ_eq e).mpr ⟨_, he, rfl⟩
    rw [source, source, given_of_body h.body_detour_self, given_of_block? h.succ_eq]
    exact source_bypassedPhis_other (fun o hnew => h.new_notMem hnew hin)
      (List.mem_filter.mpr ⟨hin, decide_eq_true (h.ne_link he hax)⟩) v
  · obtain ⟨block, hb⟩ : ∃ block, g.block? t = some block := h.wellFormed.listed.target_live he
    have hbody := h.body_detour htx hts
    rw [hb, Option.map_some] at hbody
    rw [source, source, given_of_body hbody, given_of_block? hb]
    rfl

/-- An edge led past the block gives what is handed on. -/
theorem given_detour {o e : EdgeId} (hin : (o, e) ∈ (g.redirectAll s old.preds).1) (v : Var) :
    (g.detour x s link old succ).given s e v = handed succ.phis old.phis link o v := by
  have hfresh := h.new_notMem hin
  rw [given_of_body h.body_detour_self]
  refine given_bypassedPhis_new hin (h.old_unique hin)
    (fun hother => hfresh (List.mem_of_mem_filter hother)) (fun {name p} hp => ?_) v
  cases hv : p.arg? e with
  | none => rfl
  | some w => exact absurd (h.wellFormed.listed.args_enter h.succ_eq hp hv) hfresh

/-- **Taking an empty block out** leads the edges past it, and hands its phi functions on. -/
theorem bypassed : Bypassed g (g.leadPast x s link old succ) x s link old succ := by
  have hg := h.wellFormed
  have hremovable := h.rerouted.removable link hg h.block_eq h.isTerminal_eq h.ne h.succ_eq
  have hmid : (g.detour x s link old succ).WellFormed := hremovable.1
  obtain ⟨old', hx'⟩ : ∃ old', (g.detour x s link old succ).block? x = some old' :=
    hremovable.2.1.imp fun _ => And.left
  have hwf := (hg.takesOut_rerouted h.block_eq h.isTerminal_eq h.link_eq h.ne h.succ_eq).wellFormed
  rw [leadPast_eq h.ne] at hwf ⊢
  have hrestricts := hmid.listed.removeBlock x
  have hleft : ∀ {e a t d}, (g.detour x s link old succ).edge? e = some ⟨a, t, d⟩ → a ≠ x → t ≠ x →
      ((g.detour x s link old succ).removeBlock x).edge? e = some ⟨a, t, d⟩ :=
    fun he hax htx => hrestricts.edge?_iff.mpr ⟨he, hax, htx⟩
  refine ⟨hwf, fun {b k} => ?kind, fun {e a t d} he hax htx => ?kept, fun {e a d} he => ?led,
    fun {e a d} he => ?into⟩
  case kind =>
    constructor
    · intro hk
      obtain ⟨hbx, hk⟩ := hrestricts.kind?_eq_some hk
      exact ⟨hbx, h.kind?_detour hbx ▸ hk⟩
    · rintro ⟨hbx, hk⟩
      rw [hrestricts.kind?_of_left hbx, h.kind?_detour hbx, hk]
  case kept =>
    have hnot : e ∉ old.preds := fun hin => htx (hg.listed.target_eq h.block_eq hin he)
    have he' : (g.detour x s link old succ).edge? e = some ⟨a, t, d⟩ :=
      h.edge?_led.mpr (.inl ⟨he, hnot⟩)
    refine ⟨hleft he' hax htx, fun v => ?_⟩
    rw [source, hmid.listed.given_removeBlock hx' he' hax htx]
    exact h.source_detour he hax htx v
  case led =>
    -- Every edge that entered the block is one of the pairs, beside its new handle.
    have hax := h.source_ne he
    have hin := (hg.listed.mem_preds h.block_eq e).mpr ⟨_, he, rfl⟩
    rw [← h.rerouted.olds_eq] at hin
    obtain ⟨⟨_, new⟩, hpair, rfl⟩ := List.mem_map.mp hin
    have hnew : (g.detour x s link old succ).edge? new = some ⟨a, s, d⟩ :=
      h.edge?_led.mpr (.inr ⟨_, a, d, hpair, he, rfl⟩)
    refine ⟨new, hleft hnew hax h.ne, fun v => ?_⟩
    rw [hmid.listed.given_removeBlock hx' hnew hax h.ne]
    exact h.given_detour hpair v
  case into =>
    obtain ⟨he', hax, -⟩ := hrestricts.edge?_iff.mp he
    rcases h.edge?_led.mp he' with ⟨he, -⟩ | ⟨o, a', d', -, ho, heq⟩
    · exact .inl ⟨h.ne_link he hax, he⟩
    · cases heq
      exact .inr ⟨o, ho⟩

end EmptyBefore
end Graph
end FlowGraph
