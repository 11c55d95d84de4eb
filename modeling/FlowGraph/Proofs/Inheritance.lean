import FlowGraph.Proofs.BranchMeaning
import FlowGraph.Proofs.Completeness

/-! # No use loses its definition

Tidying removes blocks, and with them the variables they define; it makes phi functions into copies,
and drops those that would copy a variable to itself.  Still every variable that is used in a
reachable block of the result, and that had a definition, has one: the same, or the copy that a phi
function became (`Heir`).  For a definition dominates the uses of its variable, so it is as
reachable as they are, and a reachable phi function with a single argument does not take what it
defines.

So single definitions that come before their uses stay with their uses when a graph is tidied up and
when a branch is resolved (`Routine.keepsForm_tidy_resolveBranch`).
-/
namespace FlowGraph
namespace Graph

variable {g g' g'' : Graph}

/-- **A block where a variable is used**: by what the block does, or at its end, by a phi function.
-/
inductive UsedIn (g : Graph) (v : Var) : BlockId → Prop
  | kind {b : BlockId} {k : Kind} : g.kind? b = some k → v ∈ k.uses → UsedIn g v b
  | arg {a b : BlockId} {e : EdgeId} {d : Direction} {name : String} {p : Phi} :
      g.edge? e = some ⟨a, b, d⟩ → g.phi? b name = some p → p.arg? e = some v → UsedIn g v a

/-- **A variable that a walk may come to use.** -/
def Needs (g : Graph) (v : Var) : Prop := ∃ b, g.UsedIn v b ∧ g.Reachable b

/-- **What takes the place of a definition**: the definition itself, or a new copy if it is a phi
function. -/
inductive Heir (g g' : Graph) (v : Var) : Site → Site → Prop
  | itself {site : Site} : g'.Defines site v → Heir g g' v site site
  | copy {b c : BlockId} {w : Var} : g.kind? c = none → g'.kind? c = some (.statement (.copy v w)) →
      Heir g g' v (.phi b v) (.statement c)

theorem Heir.defines {v : Var} {site site' : Site} (h : Heir g g' v site site') :
    g'.Defines site' v := by
  cases h with
  | itself h => exact h
  | copy _ hk => exact .statement hk (List.mem_singleton.mpr rfl)

/-- **No statement uses what it defines.** -/
def ReadsFirst (g : Graph) : Prop :=
  ∀ ⦃b s v⦄, g.kind? b = some (.statement s) → v ∈ s.uses → v ∉ s.defs

/-- **A change that leaves every use its definition.** -/
structure Bequeaths (g g' : Graph) : Prop where
  follows : g.Follows g'
  statement_eq : ∀ {b s k}, g.kind? b = some (.statement s) → g'.kind? b = some k → k = .statement s
  needs : ∀ {v}, g'.Needs v → g.Needs v
  heir : ∀ {v site}, g'.Needs v → g.Defines site v → ∃ site', Heir g g' v site site'
  readsFirst : g.ReadsFirst → g'.ReadsFirst

namespace Bequeaths

theorem refl (g : Graph) : Bequeaths g g where
  follows := .refl g
  statement_eq hk hk' := Option.some.inj (hk'.symm.trans hk)
  needs := id
  heir _ hdef := ⟨_, .itself hdef⟩
  readsFirst := id

/-- The heir of an heir is one. -/
theorem heir_trans (h : Bequeaths g g') (h' : Bequeaths g' g'') {v : Var} {site site' site'' : Site}
    (hfirst : Heir g g' v site site') (hnext : Heir g' g'' v site' site'') :
    Heir g g'' v site site'' := by
  cases hnext with
  | itself hdef =>
    cases hfirst with
    | itself => exact .itself hdef
    | copy hfresh hk =>
      cases hdef with
      | statement hk'' =>
        rw [h'.statement_eq hk hk''] at hk''
        exact .copy hfresh hk''
  | @copy b c w hfresh hk'' =>
    cases hfirst with
    | itself =>
      refine .copy ?_ hk''
      -- A handle that had been given out before would be stale.
      cases hlive : g.kind? c with
      | none => rfl
      | some k =>
        rw [h.follows.kind?_stale h'.follows hlive hfresh] at hk''
        cases hk''

theorem trans (h : Bequeaths g g') (h' : Bequeaths g' g'') : Bequeaths g g'' where
  follows := h.follows.trans h'.follows
  statement_eq {b s k} hk hk'' := by
    cases hmid : g'.kind? b with
    | none =>
      rw [h.follows.kind?_stale h'.follows hk hmid] at hk''
      cases hk''
    | some k' =>
      rw [h.statement_eq hk hmid] at hmid
      exact h'.statement_eq hmid hk''
  needs hv := h.needs (h'.needs hv)
  heir hv hdef := by
    obtain ⟨site', hfirst⟩ := h.heir (h'.needs hv) hdef
    obtain ⟨site'', hnext⟩ := h'.heir hv hfirst.defines
    exact ⟨site'', h.heir_trans h' hfirst hnext⟩
  readsFirst hread := h'.readsFirst (h.readsFirst hread)

end Bequeaths

/-- **A definition of what is needed is reachable.** -/
theorem DefinedOnce.reachable (h : g.DefinedOnce) {v : Var} (hv : g.Needs v) {site : Site}
    (hdef : g.Defines site v) : g.Reachable site.block := by
  obtain ⟨b, hused, hb⟩ := hv
  cases hused with
  | kind hk hin => exact (h.before_use hk hin hdef).reachable hb
  | arg he hp harg => exact (h.before_arg hp harg he hdef).reachable hb

/-- Only the exit may be out of reach, and it uses nothing. -/
theorem WellFormed.reachable_of_usedIn (hg : g.WellFormed) (hr : g.Reached) {v : Var} {b : BlockId}
    (h : g.UsedIn v b) : g.Reachable b := by
  have hlive : (∃ block, g.block? b = some block) ∧ b ≠ exit := by
    cases h with
    | kind hk hv =>
      obtain ⟨block, hb, -⟩ := block?_of_kind? hk
      refine ⟨⟨block, hb⟩, ?_⟩
      rintro rfl
      cases hk.symm.trans hg.wired.exit_kind
      cases hv
    | arg he => exact ⟨hg.listed.source_live he, hg.wired.exit_closed he⟩
  obtain ⟨⟨block, hb⟩, hexit⟩ := hlive
  exact (hr hb).resolve_left hexit

/-! ### Less of a graph -/

/-- A phi function that loses arguments keeps its version. -/
theorem Block.version_foldl_without (es : List EdgeId) (block : Block) (name : String) :
    ((es.foldl (fun block e => block.without e) block).phis.get? name).map Phi.version =
      (block.phis.get? name).map Phi.version := by
  induction es generalizing block with
  | nil => rfl
  | cons e es ih =>
    rw [List.foldl_cons, ih, Block.without, Phis.map, OrdMap.get?_mapValues, Option.map_map]
    rfl

/-- What a phi function defines is told by its version. -/
theorem defines_phi_iff {b : BlockId} {v w : Var} :
    g.Defines (.phi b w) v ↔ v = w ∧ (g.phi? b v.name).map Phi.version = some v.version := by
  constructor
  · intro h
    generalize hsite : Site.phi b w = site at h
    cases h with
    | statement => cases hsite
    | @phi b' name p hp =>
      cases hsite
      exact ⟨rfl, Option.map_eq_some_iff.mpr ⟨p, hp, rfl⟩⟩
  · rintro ⟨rfl, h⟩
    obtain ⟨p, hp, hversion⟩ := Option.map_eq_some_iff.mp h
    have hlhs : Phis.lhs v.name p = v := congrArg (Var.mk v.name) hversion
    have hdef : g.Defines (.phi b (Phis.lhs v.name p)) (Phis.lhs v.name p) := .phi hp
    rwa [hlhs] at hdef

/-- **Uses keep their definitions** in a graph with fewer edges and statements, if reachable
definitions are still there. -/
theorem Bequeaths.of_less (hdef : g.DefinedOnce) (hfollows : g.Follows g') (hthins : g.Thins g')
    (hkind : ∀ {b k}, g'.kind? b = some k →
      g.kind? b = some k ∨ k = .empty ∧ ∀ s, g.kind? b ≠ some (.statement s))
    (hstay : ∀ {site v}, g.Defines site v → g.Reachable site.block → g'.Defines site v) :
    Bequeaths g g' := by
  have hneeds : ∀ {v}, g'.Needs v → g.Needs v := by
    rintro v ⟨b, hused, q, hq⟩
    refine ⟨b, ?_, q, hthins.route hq⟩
    cases hused with
    | kind hk hv =>
      rcases hkind hk with hk | ⟨rfl, -⟩
      · exact .kind hk hv
      · cases hv
    | arg he hp harg =>
      obtain ⟨d', he'⟩ := hthins.exists_edge he
      obtain ⟨p', hp', -, harg'⟩ :=
        phi?_of_given ((hthins.given_eq he _).symm.trans (given_of_phi? hp harg))
      exact .arg he' hp' harg'
  refine ⟨hfollows, fun hk hk' => ?_, hneeds,
    fun hv hsite => ⟨_, .itself (hstay hsite (hdef.reachable (hneeds hv) hsite))⟩,
    fun hread b s v hk => ?_⟩
  · rcases hkind hk' with hsame | ⟨-, hnot⟩
    · exact Option.some.inj (hsame.symm.trans hk)
    · exact absurd hk (hnot _)
  · rcases hkind hk with hsame | ⟨heq, -⟩
    · exact hread hsame
    · cases heq

/-- A block that is left keeps the versions of its phi functions. -/
theorem Listed.version_removeBlock (hg : g.Listed) {x b : BlockId} (hbx : b ≠ x) (name : String) :
    ((g.removeBlock x).phi? b name).map Phi.version = (g.phi? b name).map Phi.version := by
  cases hx : g.block? x with
  | none => rw [Graph.removeBlock, hx]
  | some block =>
    rw [phi?, phi?, hg.block?_removeBlock hx, if_neg hbx]
    cases g.block? b with
    | none => rfl
    | some block' => exact Block.version_foldl_without _ _ name

theorem Listed.version_foldl_removeBlock (hg : g.Listed) {xs : List BlockId} {b : BlockId}
    (hb : b ∉ xs) (name : String) :
    ((xs.foldl Graph.removeBlock g).phi? b name).map Phi.version =
      (g.phi? b name).map Phi.version := by
  induction xs generalizing g with
  | nil => rfl
  | cons x xs ih =>
    rw [List.mem_cons, not_or] at hb
    rw [List.foldl_cons, ih (hg.removeBlock x).listed hb.2, hg.version_removeBlock hb.1]

/-- **Unreachable blocks** may go. -/
theorem DefinedOnce.bequeaths_pruned (hdef : g.DefinedOnce) (hg : g.WellFormed) :
    Bequeaths g g.pruned := by
  refine .of_less hdef g.follows_pruned hg.thins_pruned
    (fun hk => .inl (hg.restricts_pruned.kind?_eq_some hk).2) fun {site v} hsite hreach => ?_
  cases site with
  | statement b =>
    cases hsite with
    | statement hk hv => exact .statement ((hg.kind?_pruned hreach).trans hk) hv
  | branch b => cases hsite
  | phi b w =>
    obtain ⟨rfl, hversion⟩ := defines_phi_iff.mp hsite
    refine defines_phi_iff.mpr ⟨rfl, ?_⟩
    have hb : b ∉ g.unreachable := hg.notMem_unreachable hreach
    rw [pruned, hg.listed.version_foldl_removeBlock hb, hversion]

/-- **A branch** may be resolved. -/
theorem DefinedOnce.bequeaths_resolved (hdef : g.DefinedOnce) (hg : g.WellFormed) {b t : BlockId}
    {br : Branch} {d : Direction} {kept dropped : EdgeId} (hk : g.kind? b = some (.branch br))
    (hkept : g.edge? kept = some ⟨b, t, d⟩) (hne : kept ≠ dropped)
    (hfollows : g.Follows (g.resolved b kept dropped)) :
    Bequeaths g (g.resolved b kept dropped) := by
  refine .of_less hdef hfollows (hg.thins_resolved hkept hne) (fun {c k} hc => ?kind)
    fun {site v} hsite _ => ?stay
  case kind =>
    rw [hg.kind?_resolved] at hc
    split at hc
    · rename_i hcb
      obtain ⟨_, -, rfl⟩ := Option.map_eq_some_iff.mp hc
      refine .inr ⟨rfl, fun s hs => ?_⟩
      rw [hcb, hk] at hs
      cases hs
    · exact .inl hc
  case stay =>
    cases site with
    | statement c =>
      cases hsite with
      | statement hc hv =>
        have hcb : c ≠ b := by
          rintro rfl
          rw [hk] at hc
          cases hc
        exact .statement (by rw [hg.kind?_resolved, if_neg hcb, hc]) hv
    | branch c => cases hsite
    | phi c w =>
      obtain ⟨rfl, hversion⟩ := defines_phi_iff.mp hsite
      obtain ⟨p, hp, hp'⟩ := Option.map_eq_some_iff.mp hversion
      obtain ⟨block, hc, hp⟩ := Option.bind_eq_some_iff.mp hp
      have hphis := hg.phis_resolved b c kept dropped
      rw [hc, Option.map_some] at hphis
      obtain ⟨block', hc', hphis⟩ := Option.map_eq_some_iff.mp hphis
      refine defines_phi_iff.mpr ⟨rfl, ?_⟩
      rw [phi?_of_block? hc', hphis]
      refine (Block.version_foldl_without [dropped] block v.name).trans ?_
      rw [hp, Option.map_some, hp']

/-! ### A block led past -/

section
variable {x s : BlockId} {link : EdgeId} {old succ : Block} (hx : g.EmptyBefore x s link old succ)
include hx

/-- The phi functions of the successor, before the block is removed. -/
theorem EmptyBefore.phi?_detour_self (name : String) : (g.detour x s link old succ).phi? s name =
    ((g.phi? s name).map fun p =>
        mergedPhi name p (g.phi? x name) link (g.redirectAll s old.preds).1).or
      ((g.phi? x name).map fun p =>
        movedPhi name p (g.redirectAll s old.preds).1 (succ.preds.filter (· ≠ link))) := by
  obtain ⟨succ', hs', hbody⟩ := Option.map_eq_some_iff.mp hx.body_detour_self
  have hphis : succ'.phis = _ := congrArg Prod.snd hbody
  rw [phi?_of_block? hs', phi?_of_block? hx.succ_eq, phi?_of_block? hx.block_eq, hphis,
    get?_bypassedPhis]

theorem EmptyBefore.phi?_detour {b : BlockId} (hbx : b ≠ x) (hbs : b ≠ s) (name : String) :
    (g.detour x s link old succ).phi? b name = g.phi? b name := by
  have hbody := congrArg (Option.map Prod.snd) (hx.body_detour hbx hbs)
  rw [Option.map_map, Option.map_map] at hbody
  have hphis : ((g.detour x s link old succ).block? b).map Block.phis =
      (g.block? b).map Block.phis :=
    hbody
  have hbind : ∀ g : Graph, g.phi? b name = ((g.block? b).map Block.phis).bind (·.get? name) := by
    intro g
    rw [phi?]
    cases g.block? b <;> rfl
  rw [hbind, hbind, hphis]

/-- **The successor keeps the versions of its phi functions**, and has those of the block as well
unless it has its own. -/
theorem EmptyBefore.version_leadPast {b : BlockId} (hbx : b ≠ x) (name : String) :
    ((g.leadPast x s link old succ).phi? b name).map Phi.version =
      ((g.phi? b name).or (if b = s then g.phi? x name else none)).map Phi.version := by
  rw [leadPast_eq hx.ne, hx.wellFormed_detour.listed.version_removeBlock hbx]
  by_cases hbs : b = s
  · subst hbs
    rw [hx.phi?_detour_self, if_pos rfl]
    cases g.phi? b name with
    | some p => exact congrArg (fun v : Var => some v.version) (@lhs_mergedPhi _ name p _ link)
    | none =>
      cases g.phi? x name with
      | some p => exact congrArg (fun v : Var => some v.version) (@lhs_movedPhi _ _ name p)
      | none => rfl
  · rw [hx.phi?_detour hbx hbs, if_neg hbs, Option.or_none]

/-- **A block without phi functions** may be led past. -/
theorem EmptyBefore.bequeaths_leadPast (hbare : old.phis = .empty) :
    Bequeaths g (g.leadPast x s link old succ) := by
  have hg := hx.wellFormed
  have hneater := (Neatens.passed hx hbare).neater hg
  have hkind : ∀ {b k}, (g.leadPast x s link old succ).kind? b = some k → g.kind? b = some k :=
    fun hk => (hx.bypassed.kind?_iff.mp hk).2
  refine ⟨hneater.follows, fun hk hk' => Option.some.inj ((hkind hk').symm.trans hk), ?needs,
    fun {v site} _ hsite => ⟨site, .itself ?stay⟩, fun hread b s v hk => hread (hkind hk)⟩
  case needs =>
    rintro v ⟨b, hused, hreach⟩
    have hback : ∀ {c}, (g.leadPast x s link old succ).Reachable c → g.Reachable c := by
      rintro c ⟨q, hq⟩
      obtain ⟨p, hp, -⟩ := hx.exists_route hq
      exact ⟨p, hp⟩
    cases hused with
    | kind hk hv => exact ⟨b, .kind (hkind hk) hv, hback hreach⟩
    | @arg _ _ d _ _ he hp harg =>
      have hgiven := given_of_phi? hp harg
      obtain ⟨-, -, ⟨he, hsame⟩ | ⟨rfl, ⟨o, ho⟩, hlink⟩⟩ := hx.edge?_leadPast hbare he
      · obtain ⟨p', hp', -, harg'⟩ := phi?_of_given ((hsame _).symm.trans hgiven)
        exact ⟨b, .arg he hp' harg', hback hreach⟩
      · obtain ⟨p', hp', -, harg'⟩ := phi?_of_given ((hlink _).symm.trans hgiven)
        exact ⟨x, .arg hx.link_eq hp' harg', (hback hreach).step ⟨o, d, ho⟩⟩
  case stay =>
    -- The block itself defines nothing.
    cases site with
    | statement b =>
      cases hsite with
      | statement hk hv => exact .statement (hneater.kind?_eq hk nofun) hv
    | branch b => cases hsite
    | phi b w =>
      obtain ⟨rfl, hversion⟩ := defines_phi_iff.mp hsite
      have hbx : b ≠ x := by
        rintro rfl
        rw [phi?_of_block? hx.block_eq, hbare] at hversion
        cases hversion
      obtain ⟨p, hp, hp'⟩ := Option.map_eq_some_iff.mp hversion
      refine defines_phi_iff.mpr ⟨rfl, ?_⟩
      rw [hx.version_leadPast hbx, hp, Option.some_or, Option.map_some, hp']

end

/-! ### Solo phi functions -/

/-- What is reachable with a block on an edge was so without it, and the new block is where the
source is. -/
theorem WellFormed.reachable_splitEdge (hg : g.WellFormed) {e : EdgeId} {a t : BlockId}
    {d : Direction} (he : g.edge? e = some ⟨a, t, d⟩) {k : Kind} {b : BlockId}
    (h : (g.splitEdge e ⟨a, t, d⟩ k).graph.Reachable b) :
    b ≠ g.nextBlock ∧ g.Reachable b ∨ b = g.nextBlock ∧ g.Reachable a := by
  obtain ⟨q, hq⟩ := h
  obtain ⟨hold, hfresh⟩ := hg.exists_route_splitEdge he hq
  by_cases hb : b = g.nextBlock
  · obtain ⟨p, hp, -⟩ := hfresh hb
    exact .inr ⟨hb, p, hp⟩
  · obtain ⟨p, hp, -⟩ := hold hb
    exact .inl ⟨hb, p, hp⟩

/-- **What copies put onto an edge** leave of a graph: they come last on it, nothing else is put
there, and what is reachable was so before. -/
theorem foldlM_spliceNext_cases (hg : g.WellFormed) {e₀ e : EdgeId} {a t : BlockId} {d : Direction}
    (he : g.edge? e = some ⟨a, t, d⟩) {cs : List Ssa.Copy} {tail : EdgeId}
    (hok : (cs.foldlM (Ssa.spliceNext e₀) (e, g)).outcome = .ok (tail, g')) :
    (∀ {b k}, g'.kind? b = some k → g.kind? b = some k ∨
      g.kind? b = none ∧ ∃ c ∈ cs, k = .statement (.copy c.dst c.src)) ∧
    ∀ {b}, g'.Reachable b → g.Reachable b ∨ g.kind? b = none ∧ g.Reachable a := by
  induction cs generalizing g e a d with
  | nil =>
    cases hok
    exact ⟨.inl, .inl⟩
  | cons c cs ih =>
    rw [List.foldlM_cons, Run.outcome_bind_of_ok (Ssa.outcome_spliceNext hg.listed he e₀ c)] at hok
    have htail := (edge?_splitEdge_eq_some he (k := .statement (.copy c.dst c.src))).mpr
      (.inr (.inr ⟨rfl, rfl⟩))
    have hg₁ := hg.splitEdge he (k := .statement (.copy c.dst c.src)) rfl nofun
    obtain ⟨hkind, hreach⟩ := ih hg₁ htail hok
    have hnew := kind?_nextBlock g
    refine ⟨fun {b k} hk => ?_, fun {b} hb => ?_⟩
    · rcases hkind hk with hk | ⟨hnone, c', hc', rfl⟩
      · rw [hg.listed.kind?_splitEdge he] at hk
        split at hk
        · rename_i hb
          cases hk
          exact .inr ⟨hb ▸ hnew, c, List.mem_cons_self, rfl⟩
        · exact .inl hk
      · rw [hg.listed.kind?_splitEdge he] at hnone
        split at hnone
        · cases hnone
        · exact .inr ⟨hnone, c', List.mem_cons_of_mem _ hc', rfl⟩
    · rcases hreach hb with hb | ⟨hnone, ha⟩
      · rcases hg.reachable_splitEdge he hb with ⟨-, hb⟩ | ⟨rfl, ha⟩
        · exact .inl hb
        · exact .inr ⟨hnew, ha⟩
      · rw [hg.listed.kind?_splitEdge he] at hnone
        split at hnone
        · cases hnone
        · exact .inr ⟨hnone, ((hg.reachable_splitEdge he ha).resolve_left fun h => h.1 rfl).2⟩

/-- Every copy of a chain is made somewhere on it. -/
theorem CopyChain.exists_of_mem {inner : BlockId → Prop} {a t : BlockId} {d : Direction}
    {cs : List Ssa.Copy} (h : CopyChain g inner a d cs t) {c : Ssa.Copy} (hc : c ∈ cs) :
    ∃ b, inner b ∧ g.kind? b = some (.statement (.copy c.dst c.src)) := by
  induction h with
  | nil => cases hc
  | cons _ hb hk _ ih =>
    rcases List.mem_cons.mp hc with rfl | hc
    · exact ⟨_, hb, hk⟩
    · exact ih hc

section
variable {b a : BlockId} {block : Block} {e : EdgeId} {d : Direction} (hg : g.WellFormed)
  (hb : g.block? b = some block) (he : g.edge? e = some ⟨a, b, d⟩)
include hg hb he

/-- Copies put in front of a block that has forgotten its phi functions leave those of others. -/
theorem WellFormed.phi?_copiesOnto (honto : CopiesOnto (g.forget b) e g') {c : BlockId}
    {name : String} {p : Phi} : g'.phi? c name = some p ↔ c ≠ b ∧ g.phi? c name = some p := by
  have hother : ∀ {old}, c ≠ b → g.block? c = some old →
      ∃ block', g'.block? c = some block' ∧ block'.phis = old.phis := by
    intro old hcb hc
    obtain ⟨block', hc', -, -, hsame⟩ := honto.block?_of_live ((block?_forget_of_ne hcb).trans hc)
    exact ⟨block', hc', (hsame fun hin => hcb (hg.listed.target_eq hc hin he).symm).2⟩
  constructor
  · intro hp
    obtain ⟨block', hc', hp⟩ := Option.bind_eq_some_iff.mp hp
    have hcb : c ≠ b := by
      rintro rfl
      obtain ⟨new, hnew, -, hbare, -⟩ := honto.block?_of_live (block?_forget_self hb)
      cases hc'.symm.trans hnew
      rw [hbare rfl] at hp
      cases hp
    cases hc : g.block? c with
    | none =>
      rw [(honto.block?_inserted hc' ((block?_forget_of_ne hcb).trans hc)).1] at hp
      cases hp
    | some old =>
      obtain ⟨new, hnew, hphis⟩ := hother hcb hc
      cases hc'.symm.trans hnew
      exact ⟨hcb, (phi?_of_block? hc name).trans (hphis ▸ hp)⟩
  · rintro ⟨hcb, hp⟩
    obtain ⟨old, hc, hp⟩ := Option.bind_eq_some_iff.mp hp
    obtain ⟨block', hc', hphis⟩ := hother hcb hc
    rw [phi?_of_block? hc', hphis, hp]

variable (hpreds : block.preds = [e])
include hpreds

/-- **A reachable solo phi function** does not take what it defines, so it becomes a copy. -/
theorem DefinedOnce.exists_mem_soloChain (hdef : g.DefinedOnce) (hc : g.PhisComplete) {v : Var}
    (hsite : g.Defines (.phi b v) v) (hreach : g.Reachable b) :
    ∃ w, ⟨v, w⟩ ∈ soloChain block.phis := by
  have hsole := hg.listed.solitary_of_preds hb hpreds
  have hentry : b ≠ entry := hg.wired.entry_closed he
  obtain ⟨a', ha, e', d', he'⟩ := hreach.pred hentry
  cases hsole he he'
  cases he.symm.trans he'
  obtain ⟨p, hp, hversion⟩ := Option.map_eq_some_iff.mp (defines_phi_iff.mp hsite).2
  have hlhs : Phis.lhs v.name p = v := congrArg (Var.mk v.name) hversion
  have hget : block.phis.get? v.name = some p := (phi?_of_block? hb _).symm.trans hp
  obtain ⟨w, hw⟩ := hc hb hget e (hpreds ▸ List.mem_singleton.mpr rfl)
  have hwv : w ≠ v := by
    rintro rfl
    exact hsole.not_dominates hentry he (hsole.source_ne hentry he ha) hreach
      (hdef.before_arg hp hw he hsite)
  refine ⟨w, ?_⟩
  rw [hg.soloChain_eq hb hpreds]
  exact List.mem_filter.mpr ⟨Phis.mem_copiesFor.mpr ⟨_, p, hget, hlhs.symm, hw⟩, decide_eq_true hwv⟩

/-- **What copies take over from solo phi functions** was needed before, by the phi functions
themselves. -/
theorem WellFormed.needs_soloChain {tail : EdgeId} (honto : CopiesOnto (g.forget b) e g')
    (hfold : ((soloChain block.phis).foldlM (Ssa.spliceNext e) (e, g.forget b)).outcome =
      .ok (tail, g')) {v : Var} (hv : g'.Needs v) : g.Needs v := by
  obtain ⟨hkind, hreach⟩ := foldlM_spliceNext_cases (Grows.forget hg b).wellFormed
    (show (g.forget b).edge? e = some ⟨a, b, d⟩ from he) hfold
  simp only [kind?_forget] at hkind hreach
  have hback : ∀ {c}, (g.forget b).Reachable c → g.Reachable c := fun ⟨q, hq⟩ => ⟨q, hq.mono id⟩
  -- A block is reachable if it was there, and the source of the edge is if it was not.
  have hold : ∀ {c k}, g.kind? c = some k → g'.Reachable c → g.Reachable c := by
    intro c k hk hc'
    rcases hreach hc' with hc' | ⟨hnone, -⟩
    · exact hback hc'
    · rw [hk] at hnone
      cases hnone
  have hnew : ∀ {c}, g.kind? c = none → g'.Reachable c → g.Reachable a := by
    intro c hnone hc'
    rcases hreach hc' with hc' | ⟨-, ha⟩
    · obtain ⟨_, hlive⟩ := hg.live_of_reachable (hback hc')
      rw [kind?_of_block? hlive] at hnone
      cases hnone
    · exact hback ha
  obtain ⟨c, hused, hc'⟩ := hv
  cases hused with
  | kind hk hv =>
    rcases hkind hk with hk | ⟨hnone, cp, hcp, rfl⟩
    · exact ⟨c, .kind hk hv, hold hk hc'⟩
    · cases List.mem_singleton.mp hv
      obtain ⟨p, hp, -, harg⟩ := phi?_of_given (hg.given_of_mem_soloChain hb hpreds hcp)
      exact ⟨a, .arg he hp harg, hnew hnone hc'⟩
  | @arg t e₁ _ _ _ he₁ hp harg =>
    obtain ⟨htb, hp⟩ := (hg.phi?_copiesOnto hb he honto).mp hp
    obtain ⟨block₁, ht, hget⟩ := Option.bind_eq_some_iff.mp hp
    obtain ⟨⟨c', _, d'⟩, he₀, rfl⟩ :=
      (hg.listed.mem_preds ht e₁).mp (hg.listed.args_enter ht hget harg)
    cases ((honto.soloCopied hg hb he).kept he₀ htb).1.symm.trans he₁
    obtain ⟨_, hlive⟩ := hg.listed.source_live he₀
    exact ⟨c, .arg he₀ hp harg, hold (kind?_of_block? hlive) hc'⟩

/-- **Solo phi functions** may become copies. -/
theorem DefinedOnce.bequeaths_simplifySolo (hdef : g.DefinedOnce) (hc : g.PhisComplete)
    (hok : (g.simplifySolo b).outcome = .ok g') : Bequeaths g g' := by
  have hfollows := ((Neatens.copied hb hok).neater hg).follows
  have he' : (g.forget b).edge? e = some ⟨a, b, d⟩ := he
  have hg' := (Grows.forget hg b).wellFormed
  obtain ⟨tail, g₁, hfold, honto, hchain⟩ := Ssa.foldlM_spliceNext hg' he' e (soloChain block.phis)
  rw [outcome_simplifySolo hb hpreds hfold] at hok
  cases hok
  have hcopied := honto.soloCopied hg hb he
  have hneeds : ∀ {v}, g'.Needs v → g.Needs v := hg.needs_soloChain hb he hpreds honto hfold
  refine ⟨hfollows, fun hk hk' => ?stays, hneeds,
    fun {v site} hv hsite => ?heir, fun hread c s v hk => ?reads⟩
  case stays => exact Option.some.inj (hk'.symm.trans (hcopied.kind?_eq hk))
  case heir =>
    have hsiteReach := hdef.reachable (hneeds hv) hsite
    cases site with
    | statement c =>
      cases hsite with
      | statement hk hin => exact ⟨_, .itself (.statement (hcopied.kind?_eq hk) hin)⟩
    | branch c => cases hsite
    | phi c w =>
      obtain ⟨rfl, hversion⟩ := defines_phi_iff.mp hsite
      by_cases hcb : c = b
      · subst hcb
        obtain ⟨w, hw⟩ := hdef.exists_mem_soloChain hg hb he hpreds hc hsite hsiteReach
        obtain ⟨x, hx, hkx⟩ := hchain.exists_of_mem hw
        exact ⟨_, .copy ((kind?_forget g c x).symm.trans (Option.map_eq_none_iff.mpr hx)) hkx⟩
      · obtain ⟨p, hp, hp'⟩ := Option.map_eq_some_iff.mp hversion
        refine ⟨_, .itself (defines_phi_iff.mpr ⟨rfl, ?_⟩)⟩
        rw [(hg.phi?_copiesOnto hb he honto).mpr ⟨hcb, hp⟩, Option.map_some, hp']
  case reads =>
    rcases (foldlM_spliceNext_cases hg' he' hfold).1 hk with hk | ⟨-, cp, hcp, heq⟩
    · rw [kind?_forget] at hk
      exact hread hk
    · cases heq
      intro hv hv'
      rw [hg.soloChain_eq hb hpreds] at hcp
      have hne : cp.src ≠ cp.dst := of_decide_eq_true (List.mem_filter.mp hcp).2
      exact hne ((List.mem_singleton.mp hv).symm.trans (List.mem_singleton.mp hv'))

end

/-! ### Tidying up, and resolving a branch -/

/-- **Every step of tidying up** leaves uses their definitions. -/
theorem Neatens.bequeaths (hstep : Neatens g g') (hg : g.WellFormed) (hc : g.PhisComplete)
    (hdef : g.DefinedOnce) : Bequeaths g g' := by
  cases hstep with
  | copied hb hok =>
    rcases hg.simplifySolo_cases hb hok with rfl | ⟨e, a, d, hpreds, he, -⟩
    · exact .refl g'
    · exact hdef.bequeaths_simplifySolo hg hb he hpreds hc hok
  | passed hx hbare => exact hx.bequeaths_leadPast hbare

theorem bequeaths_of_neatens (hg : g.WellFormed) (hc : g.PhisComplete) (hdef : g.DefinedOnce)
    (hchain : Relation.ReflTransGen Neatens g g') : Bequeaths g g' := by
  induction hchain with
  | refl => exact .refl g
  | tail hchain hlast ih =>
    have hneater := neater_of_neatens hg hchain
    have hdef' := (definedOnceIn_true_iff.mpr hdef).of_neatens hg hchain
    exact ih.trans (hlast.bequeaths hneater.wellFormed (hneater.complete hc)
      (definedOnceIn_true_iff.mp hdef'))

/-- **A change that keeps single assignment form**: phi functions are complete, every variable has
at most one definition, which comes before all its uses, and no use has lost the definition it had.
-/
structure KeepsForm (g g' : Graph) : Prop where
  wellFormed : g'.WellFormed
  complete : g'.Complete
  definedOnce : g'.DefinedOnce
  /-- A use is in the remaining graph only if a walk may come to it. -/
  reachable : ∀ {v b}, g'.UsedIn v b → g'.Reachable b
  heir : ∀ {v b site}, g'.UsedIn v b → g.Defines site v →
    ∃ site', Heir g g' v site site' ∧ g'.Dominates site'.block b
  /-- A definition and a use in one block stay in order. -/
  readsFirst : g.ReadsFirst → g'.ReadsFirst

theorem Bequeaths.keepsForm (h : Bequeaths g g') (hg' : g'.WellFormed) (hc' : g'.PhisComplete)
    (hdef' : g'.DefinedOnce) (hreached : g'.Reached) : KeepsForm g g' := by
  refine ⟨hg', hg'.listed.complete_iff.mpr hc', hdef', hg'.reachable_of_usedIn hreached,
    fun hused hsite => ?_, h.readsFirst⟩
  obtain ⟨site', hheir⟩ := h.heir ⟨_, hused, hg'.reachable_of_usedIn hreached hused⟩ hsite
  refine ⟨site', hheir, ?_⟩
  cases hused with
  | kind hk hv => exact hdef'.before_use hk hv hheir.defines
  | arg he hp harg => exact hdef'.before_arg hp harg he hheir.defines

/-- **Tidying up** leaves uses their definitions. -/
theorem WellFormed.exists_tidy_bequeaths (hg : g.WellFormed) (hc : g.PhisComplete)
    (hdef : g.DefinedOnce) : ∃ count g', g.tidy.outcome = .ok (count, g') ∧ Tends g g' ∧
      g'.DefinedOnce ∧ Bequeaths g g' := by
  obtain ⟨count, g', hok, hchain, -⟩ := hg.exists_tidy
  have hpruned := (definedOnceIn_true_iff.mpr hdef).pruned hg
  have hchained := bequeaths_of_neatens hg.pruned (hg.listed.phisComplete_foldl_removeBlock hc _)
    (definedOnceIn_true_iff.mp hpruned) hchain
  exact ⟨count, g', hok, hg.tends_of_neatens hchain,
    definedOnceIn_true_iff.mp (hpruned.of_neatens hg.pruned hchain),
    (hdef.bequeaths_pruned hg).trans hchained⟩

/-- **Resolving a branch** does so too. -/
theorem WellFormed.exists_resolveBranch_bequeaths (hg : g.WellFormed) (hc : g.PhisComplete)
    (hdef : g.DefinedOnce) {b : BlockId} {br : Branch} (hk : g.kind? b = some (.branch br))
    (outcome : Bool) : ∃ g', (g.resolveBranch b outcome).outcome = .ok g' ∧ Maintains g g' ∧
      g'.DefinedOnce ∧ Bequeaths g g' := by
  obtain ⟨kept, t, hkept⟩ := hg.exists_outcome hk outcome
  obtain ⟨dropped, o, hdropped⟩ := hg.exists_outcome hk !outcome
  have hd := ofOutcome_ne outcome
  have hne := ne_of_directions hkept hdropped hd
  have hresolved := hg.maintains_resolved hk hkept hdropped hd
  have hdef' := (definedOnceIn_true_iff.mpr hdef).resolved hg hkept hne
  obtain ⟨g', hok, hstep⟩ := hg.exists_resolveBranch hk hkept hdropped
  have hcopied := hstep.bequeaths hresolved.wellFormed (hresolved.complete hc)
    (definedOnceIn_true_iff.mp hdef')
  exact ⟨g', hok, hresolved.trans (hstep.neater hresolved.wellFormed).toMaintains,
    definedOnceIn_true_iff.mp (hstep.definedOnceIn hresolved.wellFormed hdef'),
    (hdef.bequeaths_resolved hg hk hkept hne hresolved.follows).trans hcopied⟩

end Graph

/-- **Tidying up and resolving a branch keep single assignment form**, whatever outcome the branch
is given.  For a graph with complete phi functions in which every variable has at most one
definition, which comes before its uses, both succeed and leave such a graph.  All uses that remain
are reachable, and each has the definition it had, or the copy that this phi function has become. -/
theorem Routine.keepsForm_tidy_resolveBranch (r : Routine) (hg : r.graph.WellFormed)
    (hc : r.graph.Complete) (hdef : r.graph.DefinedOnce) :
    (∃ count r', r.tidy.outcome = .ok (count, r') ∧ r.graph.KeepsForm r'.graph) ∧
      ∀ {b br}, r.graph.kind? b = some (.branch br) → ∀ outcome,
        ∃ r', (r.resolveBranch b outcome).outcome = .ok r' ∧ r.graph.KeepsForm r'.graph := by
  have hphis := hg.listed.complete_iff.mp hc
  constructor
  · obtain ⟨count, g', hok, htends, hdef', hbequeaths⟩ := hg.exists_tidy_bequeaths hphis hdef
    exact ⟨count, r.withGraph g', r.outcome_tidy hok htends.wellFormed htends.reached,
      hbequeaths.keepsForm htends.wellFormed (htends.complete hphis) hdef' htends.reached⟩
  · intro b br hk outcome
    obtain ⟨g₁, hok₁, hmaintains, hdef₁, hresolves⟩ :=
      hg.exists_resolveBranch_bequeaths hphis hdef hk outcome
    obtain ⟨count, g', hok, htends, hdef', hbequeaths⟩ :=
      hmaintains.wellFormed.exists_tidy_bequeaths (hmaintains.complete hphis) hdef₁
    refine ⟨({ r with graph := g₁ } : Routine).withGraph g', ?_,
      (hresolves.trans hbequeaths).keepsForm
      htends.wellFormed (htends.complete (hmaintains.complete hphis)) hdef' htends.reached⟩
    rw [Routine.resolveBranch, Run.outcome_bind_of_ok hok₁]
    exact Run.outcome_bind_of_ok
      (Routine.outcome_tidy { r with graph := g₁ } hok htends.wellFormed htends.reached) _

theorem Routine.keepsForm_cluttered :
    Graph.cluttered.WellFormed ∧ Graph.cluttered.Complete ∧ Graph.cluttered.DefinedOnce ∧
      (∃ count r', (Routine.mk Graph.cluttered .new none none).tidy.outcome = .ok (count, r') ∧
        Graph.cluttered.KeepsForm r'.graph) ∧
      ∀ outcome, ∃ r',
        ((Routine.mk Graph.cluttered .new none none).resolveBranch ⟨2⟩ outcome).outcome = .ok r' ∧
          Graph.cluttered.KeepsForm r'.graph := by
  have hg : Graph.cluttered.WellFormed := by decide
  have hc : Graph.cluttered.Complete := hg.listed.complete_iff.mpr (by decide)
  have hdef : Graph.cluttered.DefinedOnce := hg.definedOnce_iff.mpr (by decide)
  obtain ⟨htidy, hresolve⟩ :=
    Routine.keepsForm_tidy_resolveBranch (.mk Graph.cluttered .new none none) hg hc hdef
  exact ⟨hg, hc, hdef, htidy, hresolve (b := ⟨2⟩) rfl⟩

end FlowGraph
