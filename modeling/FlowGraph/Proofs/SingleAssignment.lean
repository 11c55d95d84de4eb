import FlowGraph.Proofs.Conversion
import Mathlib.Data.List.Pairwise

/-! # Single assignment form

In single assignment form every variable carries a version, every version but 0 is defined in one
place, and that place comes before all uses of the version: its block dominates the block of the
use.  A phi function uses its argument for an edge at the end of the block that the edge comes from.

All versions are drawn from one supply, so no two places define the same one.  A version in force at
a block was put in force there or at a block that dominates it (`origin`), and only versions in
force are ever used.
-/
namespace FlowGraph

namespace Graph

/-- **A place that defines a variable.** -/
inductive Defines (g : Graph) : Site → Var → Prop
  | statement {b : BlockId} {s : Statement} {v : Var} :
      g.kind? b = some (.statement s) → v ∈ s.defs → Defines g (.statement b) v
  | phi {b : BlockId} {name : String} {p : Phi} :
      g.phi? b name = some p → Defines g (.phi b (Phis.lhs name p)) (Phis.lhs name p)

/-- **Single assignment form.** -/
structure SingleAssignment (g : Graph) : Prop where
  versioned : ∀ {v}, g.Occurs v → v.isVersioned = true
  /-- Every version but 0 has one definition. -/
  defined : ∀ {name n}, g.Occurs (.versioned name n) → 0 < n →
    ∃! site, g.Defines site (.versioned name n)
  /-- Version 0 stands for the value on entry. -/
  initial : ∀ name site, ¬ g.Defines site (.versioned name 0)
  /-- A definition comes before the uses in what blocks do.  In the same block it is a phi function.
  -/
  before_use : ∀ {b k v site}, g.kind? b = some k → v ∈ k.uses → g.Defines site v →
    g.Dominates site.block b ∧ (site.block = b → ∃ lhs, site = .phi b lhs)
  /-- It comes before the uses in phi functions, at the ends of the edges' sources. -/
  before_arg : ∀ {b name p e v a d site}, g.phi? b name = some p → p.arg? e = some v →
    g.edge? e = some ⟨a, b, d⟩ → g.Defines site v → g.Dominates site.block a
  /-- A phi function has an argument for each incoming edge and for no other. -/
  complete : ∀ {b block name p}, g.block? b = some block → block.phis.get? name = some p →
    ∀ e, (∃ v, p.arg? e = some v) ↔ e ∈ block.preds

end Graph

namespace Ssa

/-! ### Versions in force -/

namespace Versions

theorem lookup_append (env env' : Versions) (x : String) :
    (env ++ env').lookup x = (env.lookup x).or (env'.lookup x) := by
  induction env with
  | nil => rfl
  | cons e env ih =>
    obtain ⟨y, n⟩ := e
    rw [List.cons_append, List.lookup_cons, List.lookup_cons]
    split
    · rfl
    · exact ih

/-- A version in force is in the list. -/
theorem mem_of_current {env : Versions} {x y : String} {n : Nat} (hn : 0 < n)
    (h : env.current x = .versioned y n) : x = y ∧ (y, n) ∈ env := by
  simp only [current, Var.versioned, Var.mk.injEq, Option.some.injEq] at h
  obtain ⟨rfl, h⟩ := h
  cases hl : env.lookup x with
  | none =>
    rw [hl, Option.getD_none] at h
    omega
  | some m =>
    rw [hl, Option.getD_some] at h
    exact ⟨rfl, h ▸ OrdMap.mem_of_lookup_eq_some hl⟩

/-- What was put in force last is in force. -/
theorem current_append_of_mem {gain : Versions} (hn : (gain.map Prod.fst).Nodup) {x : String}
    {n : Nat} (h : (x, n) ∈ gain) (env : Versions) :
    Versions.current (gain ++ env) x = .versioned x n := by
  have hlookup : gain.lookup x = some n := by
    induction gain with
    | nil => cases h
    | cons e gain ih =>
      obtain ⟨y, m⟩ := e
      rw [List.map_cons, List.nodup_cons] at hn
      rcases List.mem_cons.mp h with heq | hin
      · cases heq
        simp
      · have hne : x ≠ y := by
          rintro rfl
          exact hn.1 (List.mem_map.mpr ⟨(x, n), hin, rfl⟩)
        rw [List.lookup_cons, beq_false_of_ne hne]
        exact ih hn.2 hin
  rw [current, lookup_append, hlookup]
  rfl

/-- What was not put in force lately was in force before. -/
theorem current_append_of_notMem {gain : Versions} {x : String} (h : x ∉ gain.map Prod.fst)
    (env : Versions) : Versions.current (gain ++ env) x = env.current x := by
  have hlookup : gain.lookup x = none := OrdMap.lookup_eq_none_iff.mpr fun n hin =>
    h (List.mem_map.mpr ⟨(x, n), hin, rfl⟩)
  rw [current, lookup_append, hlookup]
  rfl

end Versions

/-! ### Where versions come from -/

/-- **The places that put versions in force at a stop.** -/
inductive Stop.Puts (a : Stop) : Site → String → Nat → Prop
  | own {x : String} {n : Nat} : (x, n) ∈ a.own → Puts a (.statement a.block) x n
  | merged {x : String} {n : Nat} :
      (x, n) ∈ a.merged → Puts a (.phi a.block (.versioned x n)) x n

namespace Stop.Puts

variable {a : Stop} {site : Site} {x : String} {n : Nat}

theorem block_eq (h : a.Puts site x n) : site.block = a.block := by
  cases h <;> rfl

theorem mem (h : a.Puts site x n) : (x, n) ∈ a.own ++ a.merged := by
  cases h with
  | own h => exact List.mem_append_left _ h
  | merged h => exact List.mem_append_right _ h

theorem of_mem (h : (x, n) ∈ a.own ++ a.merged) : ∃ site, a.Puts site x n := by
  rcases List.mem_append.mp h with h | h
  · exact ⟨_, .own h⟩
  · exact ⟨_, .merged h⟩

end Stop.Puts

namespace Versioned

variable {g g' : Graph} {names names' : NameSupply} {stops : List Stop}
  (h : Versioned g g' names names' stops)
include h

/-- Each version is put in force at one stop. -/
theorem gain_unique {a a' : Stop} (ha : a ∈ stops) (ha' : a' ∈ stops) {x : String × Nat}
    (hx : x ∈ a.own ++ a.merged) (hx' : x ∈ a'.own ++ a'.merged) : a = a' := by
  by_contra hne
  have : Std.Symm (Function.onFun List.Disjoint fun a : Stop => a.own ++ a.merged) :=
    ⟨fun _ _ hd _ hx hx' => hd hx' hx⟩
  exact (List.nodup_flatMap.mp h.gains.nodup).2.forall ha ha' hne hx hx'

/-- By the phi functions or by what the block does. -/
theorem gain_disjoint {a : Stop} (ha : a ∈ stops) {x : String × Nat} (hown : x ∈ a.own)
    (hmerged : x ∈ a.merged) : False :=
  (List.nodup_append'.mp ((List.nodup_flatMap.mp h.gains.nodup).1 a ha)).2.2 hown hmerged

theorem gain_pos {a : Stop} (ha : a ∈ stops) {x : String} {n : Nat}
    (hx : (x, n) ∈ a.own ++ a.merged) :
    0 < n :=
  h.gains.pos (List.mem_flatMap.mpr ⟨a, ha, hx⟩)

/-- **A version in force on entry to a block** was put in force at a block above it. -/
theorem origin (hg : g.WellFormed) {a : Stop} (ha : a ∈ stops) {x : String × Nat} (hx : x ∈ a.inn) :
    ∃ p ∈ stops, x ∈ p.own ++ p.merged ∧ g.Dominates p.block a.block ∧ p.block ≠ a.block := by
  have key : ∀ {b}, g.Reachable b → ∀ a ∈ stops, a.block = b → x ∈ a.inn →
      ∃ p ∈ stops, x ∈ p.own ++ p.merged ∧ g.Dominates p.block b ∧ p.block ≠ b := by
    intro b hb
    refine Dominance.tree_induction hg (P := fun b => ∀ a ∈ stops, a.block = b → x ∈ a.inn →
      ∃ p ∈ stops, x ∈ p.own ++ p.merged ∧ g.Dominates p.block b ∧ p.block ≠ b) ?_ ?_ hb
    · rintro a ha hb hx
      rcases h.inn_eq a ha with ⟨-, hinn⟩ | ⟨p, -, hi, -⟩
      · rw [hinn] at hx
        cases hx
      · exact absurd (hb ▸ hi.dominates : g.Dominates p.block Graph.entry).eq_entry
          (hb ▸ hi.ne)
    · rintro d b hdb ih a ha rfl hx
      rcases h.inn_eq a ha with ⟨-, hinn⟩ | ⟨p, hp, hi, hinn⟩
      · rw [hinn] at hx
        cases hx
      · have hpd := hi.unique hdb
        rw [hinn, Stop.out, Stop.mid, ← List.append_assoc] at hx
        rcases List.mem_append.mp hx with hx | hx
        · exact ⟨p, hp, hx, hi.dominates, hi.ne⟩
        · obtain ⟨q, hq, hxq, hdom, hne⟩ := ih p hp hpd hx
          refine ⟨q, hq, hxq, hdom.trans hdb.dominates, ?_⟩
          rintro heq
          exact hdb.ne (hdb.dominates.antisymm (heq ▸ hdom) hdb.reachable)
  exact key (h.reachable ha) a ha rfl hx

/-! ### Definitions -/

/-- What a block defines itself. -/
theorem own_eq {a : Stop} (ha : a ∈ stops) {k : Kind} (hk : g.kind? a.block = some k) {v : Var}
    (hv : v ∈ k.defs) :
    ∃ n, a.own = [(v.name, n)] ∧ a.out.current v.name = .versioned v.name n := by
  have hnames := h.own_names a ha hk
  cases k with
  | statement s =>
    cases s with
    | assign lhs byRef rhs =>
      rw [List.mem_singleton.mp hv]
      obtain ⟨⟨x, n⟩, hown, hx⟩ := List.map_eq_singleton_iff.mp hnames
      cases hx
      exact ⟨n, hown, by rw [Stop.out, hown]; exact current_cons_self ..⟩
    | _ => cases hv
  | _ => cases hv

/-- **The definitions are the places that put versions in force.** -/
theorem defines_iff (hg : g.WellFormed) (hr : g.Reached) {site : Site} {v : Var} :
    g'.Defines site v ↔ ∃ a ∈ stops, ∃ x n, a.Puts site x n ∧ v = .versioned x n := by
  constructor
  · intro hdef
    cases hdef with
    | @statement b s _ hk hv =>
      obtain ⟨a, ha, rfl, k, hk, hren⟩ := h.stop_of_kind? hg hr hk nofun
      have hv : v ∈ (Kind.statement s).defs := hv
      rw [← hren, Kind.defs_rename] at hv
      obtain ⟨u, hu, rfl⟩ := List.mem_map.mp hv
      obtain ⟨n, hown, hcur⟩ := h.own_eq ha hk hu
      exact ⟨a, ha, u.name, n, .own (by rw [hown]; exact List.mem_singleton.mpr rfl), hcur⟩
    | @phi b name p hp =>
      obtain ⟨a, ha, rfl⟩ := h.exists_stop (h.phi?_reachable hp)
      have hname : name ∈ a.merged.map Prod.fst := by
        rw [h.merged_iff a ha, Graph.hasPhi_eq_isSome, hp]
        rfl
      obtain ⟨⟨_, n⟩, hin, rfl⟩ := List.mem_map.mp hname
      have hlhs : Phis.lhs _ p = .versioned _ n := (h.lhs_eq a ha hp).trans
        (Versions.current_append_of_mem (h.merged_nodup a ha) hin a.inn)
      rw [hlhs]
      exact ⟨a, ha, _, n, .merged hin, rfl⟩
  · rintro ⟨a, ha, x, n, hputs, rfl⟩
    cases hputs with
    | own hin =>
      obtain ⟨k, hk, hk'⟩ := h.exists_kind hg ha
      have hx : x ∈ k.defs.map Var.name := by
        rw [← h.own_names a ha hk]
        exact List.mem_map.mpr ⟨(x, n), hin, rfl⟩
      obtain ⟨u, hu, rfl⟩ := List.mem_map.mp hx
      obtain ⟨m, hown, hcur⟩ := h.own_eq ha hk hu
      rw [hown] at hin
      cases List.mem_singleton.mp hin
      -- Statements alone define variables of their own.
      cases k with
      | statement s =>
        refine .statement hk' ?_
        rw [← hcur, Statement.defs_rename]
        exact List.mem_map.mpr ⟨u, hu, rfl⟩
      | _ => cases hu
    | merged hin =>
      have hhas : g'.hasPhi a.block x = true :=
        (h.merged_iff a ha x).mp (List.mem_map.mpr ⟨(x, n), hin, rfl⟩)
      rw [Graph.hasPhi_eq_isSome, Option.isSome_iff_exists] at hhas
      obtain ⟨p, hp⟩ := hhas
      have hlhs : Phis.lhs x p = .versioned x n := (h.lhs_eq a ha hp).trans
        (Versions.current_append_of_mem (h.merged_nodup a ha) hin a.inn)
      have hdef := Graph.Defines.phi hp
      rwa [hlhs] at hdef

/-- Different places put different versions in force. -/
theorem puts_unique {a a' : Stop} (ha : a ∈ stops) (ha' : a' ∈ stops) {site site' : Site}
    {x : String}
    {n : Nat} (hp : a.Puts site x n) (hp' : a'.Puts site' x n) : a = a' ∧ site = site' := by
  have heq := h.gain_unique ha ha' hp.mem hp'.mem
  subst heq
  refine ⟨rfl, ?_⟩
  cases hp with
  | own hown =>
    cases hp' with
    | own => rfl
    | merged hmerged => exact (h.gain_disjoint ha hown hmerged).elim
  | merged hmerged =>
    cases hp' with
    | own hown => exact (h.gain_disjoint ha hown hmerged).elim
    | merged => rfl

/-- **A version in force has a definition above.** -/
theorem exists_puts (hg : g.WellFormed) {a : Stop} (ha : a ∈ stops) {x : String} {n : Nat}
    (hx : (x, n) ∈ a.out) :
    ∃ p ∈ stops, ∃ site, p.Puts site x n ∧ g.Dominates p.block a.block ∧
      (p.block = a.block → p = a) := by
  rw [Stop.out, Stop.mid, ← List.append_assoc] at hx
  rcases List.mem_append.mp hx with hx | hx
  · obtain ⟨site, hputs⟩ := Stop.Puts.of_mem hx
    exact ⟨a, ha, site, hputs, .refl _, fun _ => rfl⟩
  · obtain ⟨p, hp, hx, hdom, hne⟩ := h.origin hg ha hx
    obtain ⟨site, hputs⟩ := Stop.Puts.of_mem hx
    exact ⟨p, hp, site, hputs, hdom, fun heq => absurd heq hne⟩

/-- Only versions in force are used. -/
theorem mem_out_of_occurs (hg : g.WellFormed) (hr : g.Reached)
    {x : String} {n : Nat} (hn : 0 < n) (hocc : g'.Occurs (.versioned x n)) :
    ∃ a ∈ stops, (x, n) ∈ a.out := by
  have hout : ∀ {a : Stop}, ∀ e ∈ a.mid, e ∈ a.out := fun e he => List.mem_append_right _ he
  rcases Graph.occurs_iff.mp hocc with ⟨b, name, p, hp, hv⟩ | ⟨b, k, hk, hv⟩
  · rcases hv with hv | ⟨e, hv⟩
    · obtain ⟨a, ha, rfl⟩ := h.exists_stop (h.phi?_reachable hp)
      rw [h.lhs_eq a ha hp] at hv
      exact ⟨a, ha, hout _ (Versions.mem_of_current hn hv.symm).2⟩
    · obtain ⟨a, ha, dir, -, hv⟩ := (h.arg?_iff hp).mp hv
      exact ⟨a, ha, (Versions.mem_of_current hn hv.symm).2⟩
  · have hne : k ≠ .exit := by
      rintro rfl
      simp [Kind.defs, Kind.uses] at hv
    obtain ⟨a, ha, -, k₀, -, rfl⟩ := h.stop_of_kind? hg hr hk hne
    rw [Kind.defs_rename, Kind.uses_rename] at hv
    rcases hv with hv | hv
    · obtain ⟨u, -, hu⟩ := List.mem_map.mp hv
      exact ⟨a, ha, (Versions.mem_of_current hn hu).2⟩
    · obtain ⟨u, -, hu⟩ := List.mem_map.mp hv
      exact ⟨a, ha, hout _ (Versions.mem_of_current hn hu).2⟩

/-- The definition of a version in force is above. -/
theorem dominates_of_mem_out (hg : g.WellFormed) {a p : Stop} (ha : a ∈ stops) (hp : p ∈ stops)
    {site : Site} {x : String} {n : Nat} (hputs : p.Puts site x n) (hx : (x, n) ∈ a.out) :
    g.Dominates site.block a.block ∧ (site.block = a.block → p = a) := by
  obtain ⟨q, hq, site', hputs', hdom, heq⟩ := h.exists_puts hg ha hx
  obtain ⟨rfl, rfl⟩ := h.puts_unique hp hq hputs hputs'
  rw [hputs.block_eq]
  exact ⟨hdom, heq⟩

/-- A version that a block uses is in force before the block defines its own. -/
theorem before_use (hg : g.WellFormed) (hr : g.Reached) {b : BlockId} {k : Kind} {v : Var}
    {site : Site} (hk : g'.kind? b = some k) (hv : v ∈ k.uses) (hdef : g'.Defines site v) :
    g.Dominates site.block b ∧ (site.block = b → ∃ lhs, site = .phi b lhs) := by
  obtain ⟨p, hp, x, n, hputs, rfl⟩ := (h.defines_iff hg hr).mp hdef
  have hne : k ≠ .exit := by
    rintro rfl
    cases hv
  obtain ⟨a, ha, rfl, k₀, -, rfl⟩ := h.stop_of_kind? hg hr hk hne
  rw [Kind.uses_rename] at hv
  obtain ⟨u, -, hu⟩ := List.mem_map.mp hv
  have hmid := (Versions.mem_of_current (h.gain_pos hp hputs.mem) hu).2
  obtain ⟨hdom, hsame⟩ := h.dominates_of_mem_out hg ha hp hputs (List.mem_append_right _ hmid)
  refine ⟨hdom, fun heq => ?_⟩
  have hpa := hsame heq
  subst hpa
  cases hputs with
  | merged => exact ⟨_, rfl⟩
  | own hown =>
    -- the version would be in force before the statement that defines it
    rcases List.mem_append.mp hmid with hmerged | hinn
    · exact (h.gain_disjoint ha hown hmerged).elim
    · obtain ⟨q, hq, hx, -, hne⟩ := h.origin hg ha hinn
      exact absurd (congrArg Stop.block (h.gain_unique hq ha hx (List.mem_append_left _ hown))) hne

/-- **The result is in single assignment form.** -/
theorem singleAssignment (hg : g.WellFormed) (hr : g.Reached) : g'.SingleAssignment := by
  have hdefs : ∀ {site v}, g'.Defines site v ↔
      ∃ a ∈ stops, ∃ x n, a.Puts site x n ∧ v = .versioned x n := h.defines_iff hg hr
  constructor
  case versioned => exact h.versioned hg hr
  case defined =>
    intro x n hocc hn
    obtain ⟨a, ha, hx⟩ := h.mem_out_of_occurs hg hr hn hocc
    obtain ⟨p, hp, site, hputs, -⟩ := h.exists_puts hg ha hx
    refine ⟨site, hdefs.mpr ⟨p, hp, x, n, hputs, rfl⟩, fun site' hdef' => ?_⟩
    obtain ⟨p', hp', x', n', hputs', heq⟩ := hdefs.mp hdef'
    cases heq
    exact (h.puts_unique hp' hp hputs' hputs).2
  case initial =>
    intro x site hdef
    obtain ⟨p, hp, x', n', hputs, heq⟩ := hdefs.mp hdef
    cases heq
    exact Nat.lt_irrefl 0 (h.gain_pos hp hputs.mem)
  case before_use =>
    intro b k v site hk hv hdef
    rw [h.outline.dominates_iff]
    exact h.before_use hg hr hk hv hdef
  case before_arg =>
    intro b name p e v c dir site hphi harg hedge hdef
    obtain ⟨q, hq, x, n, hputs, rfl⟩ := hdefs.mp hdef
    obtain ⟨a, ha, dir', he, hv⟩ := (h.arg?_iff hphi).mp harg
    rw [h.outline.edge?_eq] at hedge
    rw [hedge] at he
    cases he
    -- the argument is the version in force at the end of the edge's source
    have hx := (Versions.mem_of_current (h.gain_pos hq hputs.mem) hv.symm).2
    rw [h.outline.dominates_iff]
    exact (h.dominates_of_mem_out hg ha hq hputs hx).1
  case complete =>
    intro b block name p hb hp e
    have hphi : g'.phi? b name = some p := by rw [Graph.phi?, hb]; exact hp
    obtain ⟨block₀, hb₀, -, hpreds, -⟩ := h.outline.exists_block hb
    rw [hpreds, hg.listed.mem_preds hb₀]
    constructor
    · rintro ⟨v, hv⟩
      obtain ⟨a, -, dir, he, -⟩ := (h.arg?_iff hphi).mp hv
      exact ⟨_, he, rfl⟩
    · rintro ⟨⟨c, _, dir⟩, he, rfl⟩
      obtain ⟨block', hc⟩ := hg.listed.source_live he
      have hcreach := (hr hc).resolve_left (hg.wired.exit_closed he)
      obtain ⟨a, ha, rfl⟩ := h.exists_stop hcreach
      exact ⟨_, (h.arg?_iff hphi).mpr ⟨a, ha, dir, he, rfl⟩⟩

end Versioned
end Ssa

/-- **Conversion establishes single assignment form**, for every well-formed graph without phi
functions, whatever versions its variables carry and whatever was derived from it before.  The
blocks that the entry reaches stay in place. -/
theorem Routine.toSsa_singleAssignment (r : Routine) (hg : r.graph.WellFormed)
    (hp : r.graph.PhiFree) :
    ∃ r', r.toSsa.outcome = .ok r' ∧ r'.graph.WellFormed ∧ r'.graph.SingleAssignment ∧
      ∀ b, r.graph.Reachable b →
        (r'.graph.kind? b).map Kind.name = (r.graph.kind? b).map Kind.name := by
  obtain ⟨r', g, stops, hok, hres, hver⟩ := r.toSsa_spec hg hp
  obtain ⟨hg₁, -, hreached⟩ := hg.restricts_unreachable hres
  refine ⟨r', hok, hver.wellFormed hg₁, hver.singleAssignment hg₁ hreached, fun b hb => ?_⟩
  rw [hver.kind_name, hres.kind?_of_left fun hmem => (hg.mem_unreachable.mp hmem).2.2 hb]

theorem Routine.countdown_singleAssignment :
    Graph.countdown.WellFormed ∧ Graph.countdown.PhiFree ∧
      ∃ r', (Routine.mk Graph.countdown .new none none).toSsa.outcome = .ok r' ∧
        r'.graph.WellFormed ∧ r'.graph.SingleAssignment ∧
        ∀ b, Graph.countdown.Reachable b →
          (r'.graph.kind? b).map Kind.name = (Graph.countdown.kind? b).map Kind.name :=
  ⟨by decide, by decide, Routine.toSsa_singleAssignment _ (by decide) (by decide)⟩

end FlowGraph
