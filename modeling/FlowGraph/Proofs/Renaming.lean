import FlowGraph.Proofs.Placement
import FlowGraph.Proofs.Substitution

/-! # What renaming does

The blocks are renamed one after the other, from the root of the dominator tree down.  Each of them
is a `Stop`: the versions in force when the block is entered, those that its phi functions put in
force, and those that it defines itself.  A stop changes the graph in a way that does not depend on
where in the tree it is (`Stop.Renames`), so the work falls in two parts: which stops there are, and
in what versions each of them starts (`tours_spec`), and what any sequence of stops at different
blocks adds up to (`Progress`).  When the walk has left a block again, the versions in force are
those with which it entered the block (`Versions.foldl_pop_pushed`).
-/
namespace FlowGraph

/-- The phi function of a block for a variable. -/
def Graph.phi? (g : Graph) (b : BlockId) (name : String) : Option Phi :=
  (g.block? b).bind (·.phis.get? name)

theorem Graph.phi?_of_block? {g : Graph} {b : BlockId} {block : Block}
    (hb : g.block? b = some block) (name : String) : g.phi? b name = block.phis.get? name := by
  rw [phi?, hb]
  rfl

theorem Graph.hasPhi_eq_isSome (g : Graph) (b : BlockId) (name : String) :
    g.hasPhi b name = (g.phi? b name).isSome := by
  unfold Graph.hasPhi Graph.phi?
  cases g.block? b <;> rfl

/-! ### Fresh versions -/

namespace NameSupply

theorem lastVersion_freshVersion (names : NameSupply) (x y : String) :
    (names.freshVersion x).2.lastVersion y =
      if y = x then names.lastVersion x + 1 else names.lastVersion y := by
  unfold freshVersion lastVersion
  simp only [OrdMap.get?_insert]
  split <;> rfl

end NameSupply

namespace Ssa

open FlowGraph.Graph (SameOutline)

/-- **Versions drawn from a supply.** -/
structure Gains (names : NameSupply) (gain : Versions) (names' : NameSupply) : Prop where
  mono : ∀ x, names.lastVersion x ≤ names'.lastVersion x
  fresh : ∀ {x n}, (x, n) ∈ gain → names.lastVersion x < n ∧ n ≤ names'.lastVersion x
  nodup : gain.Nodup

namespace Gains

theorem nil (names : NameSupply) : Gains names [] names :=
  ⟨fun _ => Nat.le_refl _, nofun, .nil⟩

theorem single (names : NameSupply) (x : String) :
    Gains names [(x, names.lastVersion x + 1)] (names.freshVersion x).2 := by
  refine ⟨fun y => ?_, fun {y n} h => ?_, List.nodup_singleton _⟩
  · rw [NameSupply.lastVersion_freshVersion]
    split
    · rename_i h
      rw [h]
      exact Nat.le_succ _
    · exact Nat.le_refl _
  · simp only [List.mem_singleton, Prod.mk.injEq] at h
    obtain ⟨rfl, rfl⟩ := h
    rw [NameSupply.lastVersion_freshVersion, if_pos rfl]
    exact ⟨Nat.lt_succ_self _, Nat.le_refl _⟩

theorem append {names names' names'' : NameSupply} {gain gain' : Versions}
    (h : Gains names gain names') (h' : Gains names' gain' names'') :
    Gains names (gain' ++ gain) names'' := by
  refine ⟨fun x => Nat.le_trans (h.mono x) (h'.mono x), fun {x n} hin => ?_, ?_⟩
  · rcases List.mem_append.mp hin with hin | hin
    · exact ⟨Nat.lt_of_le_of_lt (h.mono x) (h'.fresh hin).1, (h'.fresh hin).2⟩
    · exact ⟨(h.fresh hin).1, Nat.le_trans (h.fresh hin).2 (h'.mono x)⟩
  · refine List.nodup_append'.mpr ⟨h'.nodup, h.nodup, fun ⟨x, n⟩ hnew hold => ?_⟩
    have := (h'.fresh hnew).1
    have := (h.fresh hold).2
    omega

theorem perm {names names' : NameSupply} {gain gain' : Versions} (h : Gains names gain names')
    (hp : gain.Perm gain') : Gains names gain' names' :=
  ⟨h.mono, fun hin => h.fresh (hp.mem_iff.mpr hin), hp.nodup_iff.mp h.nodup⟩

/-- Versions drawn from a supply are never 0. -/
theorem pos {names names' : NameSupply} {gain : Versions} (h : Gains names gain names') {x : String}
    {n : Nat} (hin : (x, n) ∈ gain) : 0 < n :=
  Nat.lt_of_le_of_lt (Nat.zero_le _) (h.fresh hin).1

end Gains

theorem gains_freshDefs (names : NameSupply) (k : Kind) :
    Gains names (freshDefs names k) (namesAfter names k) := by
  cases k with
  | statement s =>
    cases s with
    | assign lhs byRef rhs => exact .single names lhs.name
    | _ => exact .nil names
  | _ => exact .nil names

/-! ### Phi functions -/

/-- Putting fresh versions of some variables in force. -/
theorem define_run (xs : List String) (names : NameSupply) (env : Versions) :
    ∃ gain names', ((xs.forM fun x => do let _ ← define x) : Renamer Unit).run (names, env) =
        ((), (names', gain ++ env)) ∧
      gain.map Prod.fst = xs.reverse ∧ Gains names gain names' := by
  induction xs generalizing names env with
  | nil => exact ⟨[], names, rfl, rfl, .nil names⟩
  | cons x xs ih =>
    obtain ⟨gain, names', hrun, hfst, hgains⟩ := ih (names.freshVersion x).2
      ((x, names.lastVersion x + 1) :: env)
    refine ⟨gain ++ [(x, names.lastVersion x + 1)], names', ?_, by simp [hfst],
      (Gains.single names x).append hgains⟩
    rw [List.append_assoc, List.singleton_append, ← hrun]
    rfl

theorem renamePhis_run (ps : Phis) (names : NameSupply) (env : Versions) :
    ∃ gain names', (renamePhis ps).run (names, env) =
        (ps.mapValues fun name p =>
          { p with version := (Versions.current (gain ++ env) name).version },
          (names', gain ++ env)) ∧
      gain.map Prod.fst = ps.keys.reverse ∧ Gains names gain names' := by
  obtain ⟨gain, names', hrun, hfst, hgains⟩ := define_run ps.keys names env
  refine ⟨gain, names', ?_, hfst, hgains⟩
  rw [renamePhis, StateT.run_bind, hrun]
  rfl

/-! ### One block -/

/-- **The renaming of one block**: the versions in force when it is entered, and those that it adds.
-/
structure Stop where
  block : BlockId
  /-- In force when the block is entered. -/
  inn : Versions
  /-- Put in force by its phi functions. -/
  merged : Versions
  /-- Put in force by what it does. -/
  own : Versions

/-- Gives the phi functions at the end of an edge, if it is in use, their arguments for it. -/
def fillArgs (env : Versions) (g : Graph) (e : EdgeId) : Graph :=
  match g.edge? e with
  | none => g
  | some edge => g.modifyBlock edge.target fun t =>
    { t with phis := t.phis.mapValues fun name p => p.setArg e (env.current name) }

namespace Stop

/-- The versions in force behind the phi functions. -/
def mid (a : Stop) : Versions := a.merged ++ a.inn

/-- The versions in force when the block is left. -/
def out (a : Stop) : Versions := a.own ++ a.mid

/-- The block under its new names. -/
def renamed (a : Stop) (b : Block) : Block :=
  { b with
    phis := b.phis.mapValues fun name p => { p with version := (a.mid.current name).version }
    kind := b.kind.rename (fun v => a.mid.current v.name) (fun v => a.out.current v.name) }

/-- **What a stop does.** -/
structure Renames (a : Stop) (block : Block) (s s' : NameSupply × Graph) : Prop where
  live : s.2.block? a.block = some block
  merged_names : a.merged.map Prod.fst = block.phis.keys.reverse
  own_names : a.own.map Prod.fst = block.kind.defs.map Var.name
  gains : Gains s.1 (a.own ++ a.merged) s'.1
  graph_eq : s'.2 = block.succs.foldl (fillArgs a.out) (s.2.modifyBlock a.block a.renamed)

end Stop

theorem renameBody_run {b : BlockId} (block : Block) (names : NameSupply) (env : Versions) :
    ∃ (a : Stop) (names' : NameSupply), (renameBody block).run (names, env) =
        (a.renamed block, (names', a.out)) ∧ a.block = b ∧ a.inn = env ∧
      a.merged.map Prod.fst = block.phis.keys.reverse ∧
      a.own.map Prod.fst = block.kind.defs.map Var.name ∧
      Gains names (a.own ++ a.merged) names' := by
  obtain ⟨merged, names₁, hphis, hmerged, hgains⟩ := renamePhis_run block.phis names env
  have hkind := renameKind_run block.kind names₁ (merged ++ env)
  have hown : (freshDefs names₁ block.kind).map Prod.fst = block.kind.defs.map Var.name := by
    rw [freshDefs, List.map_map]
    rfl
  refine ⟨⟨b, env, merged, freshDefs names₁ block.kind⟩, namesAfter names₁ block.kind, ?_, rfl, rfl,
    hmerged, hown, hgains.append (gains_freshDefs ..)⟩
  simp only [renameBody, StateT.run_bind, hphis]
  show (StateT.run (renameKind block.kind) (names₁, merged ++ env) >>= fun r => _) = _
  rw [hkind]
  rfl

theorem passArgs_eq (env : Versions) {g : Graph} {e : EdgeId} {edge : Edge}
    (he : g.edge? e = some edge) (ht : ∃ block, g.block? edge.target = some block) :
    passArgs env g e = .ok (fillArgs env g e) := by
  rw [passArgs, Graph.bind_of_ok (Graph.edge_eq_ok he), fillArgs, he]
  exact Graph.update_eq_ok.mpr ⟨ht, rfl⟩

theorem sameOutline_fillArgs (env : Versions) (g : Graph) (e : EdgeId) :
    SameOutline g (fillArgs env g e) := by
  unfold fillArgs
  split
  · exact .refl g
  · exact .modifyBlock _ _ fun _ => rfl

theorem sameOutline_foldl_fillArgs (env : Versions) (es : List EdgeId) (g : Graph) :
    SameOutline g (es.foldl (fillArgs env) g) := by
  induction es generalizing g with
  | nil => exact .refl g
  | cons e es ih => exact (sameOutline_fillArgs env g e).trans (ih _)

/-- No look-up fails while arguments are passed on, by the outline of a graph. -/
theorem foldlM_passArgs {g₀ g : Graph} (hg : g₀.Listed) (hs : SameOutline g₀ g) (env : Versions)
    {es : List EdgeId} (hes : ∀ e ∈ es, ∃ edge, g₀.edge? e = some edge) :
    es.foldlM (passArgs env) g = .ok (es.foldl (fillArgs env) g) := by
  refine Graph.foldlM_eq_foldl (SameOutline g₀) hs fun e he g hs =>
    ⟨?_, hs.trans (sameOutline_fillArgs env g e)⟩
  obtain ⟨edge, hedge⟩ := hes e he
  obtain ⟨block, hb⟩ := hg.target_live hedge
  obtain ⟨block', hb', -⟩ := hs.symm.exists_block hb
  exact passArgs_eq env (hs.edge?_eq e ▸ hedge) ⟨block', hb'⟩

/-- **One block is renamed**, in a graph with the outline of a graph whose lists agree. -/
theorem renameBlock_spec {g₀ g : Graph} (hg : g₀.Listed) (hs : SameOutline g₀ g) {b : BlockId}
    {block : Block} (hb : g.block? b = some block) (names : NameSupply) (env : Versions) :
    ∃ (a : Stop) (g' : Graph) (names' : NameSupply), renameBlock names env g b =
        .ok (g', names', a.out) ∧
      a.block = b ∧ a.inn = env ∧ a.Renames block (names, g) (names', g') := by
  obtain ⟨a, names', hrun, rfl, rfl, hmerged, hown, hgains⟩ :=
    renameBody_run (b := b) block names env
  have hmod : (g.modifyBlock a.block fun _ => a.renamed block) =
      g.modifyBlock a.block a.renamed := Graph.modifyBlock_congr fun hb' => by
    rw [hb] at hb'
    cases hb'
    rfl
  have houtline : SameOutline g₀ (g.modifyBlock a.block a.renamed) :=
    hs.trans (.modifyBlock _ _ fun _ => rfl)
  obtain ⟨block₀, hb₀, -, -, hsuccs⟩ := hs.exists_block hb
  have hlive := hg.succs_live hb₀
  rw [← hsuccs] at hlive
  refine ⟨a, _, names', ?_, rfl, rfl, hb, hmerged, hown, hgains, rfl⟩
  rw [renameBlock, Graph.bind_of_ok (Graph.block_eq_ok hb), hrun]
  show ((a.renamed block).succs.foldlM (passArgs a.out)
    (g.modifyBlock a.block fun _ => a.renamed block) >>= _) = _
  rw [hmod]
  exact Graph.bind_of_ok (foldlM_passArgs hg houtline _ hlive) _

/-! ### The tree -/

/-- **Some stops, one after the other.** -/
inductive Trek : NameSupply × Graph → List Stop → NameSupply × Graph → Prop
  | nil (s : NameSupply × Graph) : Trek s [] s
  | cons {a : Stop} {block : Block} {rest : List Stop} {s s₁ s' : NameSupply × Graph} :
      a.Renames block s s₁ → Trek s₁ rest s' → Trek s (a :: rest) s'

theorem Trek.append {s s₁ s' : NameSupply × Graph} {as bs : List Stop} (h : Trek s as s₁)
    (h' : Trek s₁ bs s') : Trek s (as ++ bs) s' := by
  induction h with
  | nil => exact h'
  | cons ha _ ih => exact .cons ha (ih h')

/-- **The stops at all that some blocks dominate.**  The versions in force at a block are those of
its immediate dominator. -/
structure Grove (g : Graph) (roots : List BlockId) (env : Versions) (stops : List Stop) : Prop where
  mem_iff : ∀ c, c ∈ stops.map Stop.block ↔ g.Reachable c ∧ ∃ r ∈ roots, g.Dominates r c
  nodup : (stops.map Stop.block).Nodup
  inn_eq : ∀ a ∈ stops, a.block ∈ roots ∧ a.inn = env ∨
    ∃ p ∈ stops, g.ImmediatelyDominates p.block a.block ∧ a.inn = p.out

theorem Stop.Renames.outline {a : Stop} {block : Block} {s s' : NameSupply × Graph}
    (h : a.Renames block s s') : SameOutline s.2 s'.2 := by
  rw [h.graph_eq]
  exact (SameOutline.modifyBlock _ _ (f := a.renamed) fun _ => rfl).trans
    (sameOutline_foldl_fillArgs ..)

theorem Trek.outline {s s' : NameSupply × Graph} {stops : List Stop} (h : Trek s stops s') :
    SameOutline s.2 s'.2 := by
  induction h with
  | nil => exact .refl _
  | cons ha _ ih => exact ha.outline.trans ih

theorem nodup_children (d : Dominance) (b : BlockId) : (d.children b).Nodup := by
  unfold Dominance.children Dominance.childrenIn
  refine List.Nodup.filterMap ?_ (List.Nodup.of_map Prod.snd ?_)
  · rintro ⟨p, i⟩ ⟨p', i'⟩ c h h'
    simp only [Option.mem_def, Option.ite_none_right_eq_some, Option.some.injEq] at h h'
    obtain ⟨rfl, rfl⟩ := h
    obtain ⟨rfl, hi⟩ := h'
    rw [BlockId.mk.inj hi]
  · rw [List.zipIdx_map_snd]
    exact List.nodup_range'

/-! ### Tasks -/

theorem Versions.foldl_pop_of_perm {ns : List String} {new env : Versions}
    (h : ns.Perm (new.map Prod.fst)) : ns.foldl Versions.pop (new ++ env) = env := by
  induction ns generalizing new with
  | nil =>
    rw [List.map_eq_nil_iff.mp (List.nil_perm.mp h)]
    rfl
  | cons n ns ih =>
    obtain ⟨hin, hrest⟩ := List.cons_perm_iff_perm_erase.mp h
    obtain ⟨x, hx, hname⟩ := List.mem_map.mp hin
    have hpop : Versions.pop (new ++ env) n = new.eraseP (·.1 = n) ++ env :=
      List.eraseP_append_left (by simp [hname]) env hx
    have hpred : (fun y : String × Nat => decide (y.1 = n)) = (n == ·) ∘ Prod.fst := by
      funext y
      simp [beq_eq_decide, eq_comm]
    have herase : (new.eraseP (·.1 = n)).map Prod.fst = (new.map Prod.fst).erase n := by
      rw [List.erase_eq_eraseP, List.eraseP_map, hpred]
    rw [List.foldl_cons, hpop]
    exact ih (herase ▸ hrest)

/-- When a block is left, the versions are in force that were when it was entered. -/
theorem Versions.foldl_pop_pushed (new env : Versions) :
    (Versions.pushed env (new ++ env)).foldl Versions.pop (new ++ env) = env := by
  refine Versions.foldl_pop_of_perm ?_
  rw [Versions.pushed, List.length_append, Nat.add_sub_cancel, List.take_left]
  exact List.reverse_perm _

section Tasks
variable {d : Dominance} {env : Versions} {s s₁ s' : NameSupply × Graph}

theorem Renaming.outcome_run_nil {fuel : Nat} {x : Renaming} (h : x.todo = []) :
    (Renaming.run d fuel x).outcome = .ok x := by
  cases fuel with
  | zero => rfl
  | succ fuel =>
    rw [Renaming.run, h]
    rfl

/-- **Some tasks are carried out with these stops**, whatever comes after them.  At each stop a
block is entered, and it is left again. -/
def Tours (d : Dominance) (env : Versions) (s : NameSupply × Graph) (tasks : List Task)
    (stops : List Stop) (s' : NameSupply × Graph) : Prop :=
  ∀ fuel rest, (Renaming.run d (2 * stops.length + fuel) ⟨tasks ++ rest, s.1, env, s.2⟩).outcome =
    (Renaming.run d fuel ⟨rest, s'.1, env, s'.2⟩).outcome

theorem Tours.nil : Tours d env s [] [] s := fun fuel rest => by
  rw [List.length_nil, Nat.mul_zero, Nat.zero_add]
  rfl

theorem Tours.append {ts ts' : List Task} {stops stops' : List Stop} (h : Tours d env s ts stops s₁)
    (h' : Tours d env s₁ ts' stops' s') : Tours d env s (ts ++ ts') (stops ++ stops') s' := by
  intro fuel rest
  rw [List.length_append, Nat.mul_add, Nat.add_assoc, List.append_assoc, h, h']

/-- **A block** is entered, its children are done with, and it is left. -/
theorem Tours.cons {a : Stop} {g g' : Graph} {names names' : NameSupply} {stops : List Stop}
    (h : Tours d a.out (names', g') ((d.children a.block).map .enter) stops s')
    (hrun : renameBlock names a.inn g a.block = .ok (g', names', a.out)) :
    Tours d a.inn (names, g) [.enter a.block] (a :: stops) s' := by
  intro fuel rest
  have hsteps : 2 * (a :: stops).length + fuel = (2 * stops.length + (fuel + 1)) + 1 := by
    rw [List.length_cons]
    omega
  have hout : a.out = (a.own ++ a.merged) ++ a.inn := (List.append_assoc ..).symm
  have hpop : (a.inn.pushed a.out).foldl Versions.pop a.out = a.inn := by
    rw [hout, Versions.foldl_pop_pushed]
  have henter : (Renaming.carryOut d ⟨rest, names, a.inn, g⟩ (.enter a.block)).outcome =
      .ok ⟨(d.children a.block).map .enter ++ .leave (a.inn.pushed a.out) :: rest,
        names', a.out, g'⟩ := by
    rw [Renaming.carryOut, Run.outcome_liftM_bind hrun]
    rfl
  rw [hsteps, Renaming.run]
  refine (Run.outcome_bind_of_ok henter _).trans ((h (fuel + 1) _).trans ?_)
  rw [Renaming.run]
  refine (Run.outcome_bind_of_ok rfl _).trans ?_
  rw [hpop]

end Tasks

section Tree
variable {g : Graph} (hg : g.WellFormed) {d : Dominance} (hd : d.Describes g)
include hg

/-- Two children of a block have nothing below them in common. -/
theorem children_disjoint {b c c' x : BlockId} (hc : g.ImmediatelyDominates b c)
    (hc' : g.ImmediatelyDominates b c') (hx : g.Reachable x) (h : g.Dominates c x)
    (h' : g.Dominates c' x) : c = c' := by
  have key : ∀ {c c'}, g.ImmediatelyDominates b c → g.ImmediatelyDominates b c' →
      g.Dominates c c' → c = c' := by
    intro c c' hc hc' hdom
    by_contra hne
    exact hc.ne (hc.dominates.antisymm (hc'.closest hdom hne) hc.reachable)
  rcases Dominance.dominates_total hg hx h h' with hdom | hdom
  · exact key hc hc' hdom
  · exact (key hc' hc hdom).symm

/-- What is below a block, the block itself apart, is below its children. -/
theorem exists_child_dominates_iff {b x : BlockId} {cs : List BlockId}
    (hcs : ∀ c, c ∈ cs ↔ g.ImmediatelyDominates b c) (hx : g.Reachable x) :
    (∃ c ∈ cs, g.Dominates c x) ↔ g.Dominates b x ∧ x ≠ b := by
  constructor
  · rintro ⟨c, hc, hdom⟩
    have hi := (hcs c).mp hc
    refine ⟨hi.dominates.trans hdom, ?_⟩
    rintro rfl
    exact hi.ne (hi.dominates.antisymm hdom hi.reachable)
  · rintro ⟨hdom, hne⟩
    obtain ⟨c, hc, hcx⟩ := Dominance.exists_child hg hx hdom (Ne.symm hne)
    exact ⟨c, (hcs c).mpr hc, hcx⟩

/-- The groves below several children of a block, in turn. -/
theorem tours_children {env : Versions} {b : BlockId}
    (htree : ∀ s c, g.ImmediatelyDominates b c → SameOutline g s.2 →
      ∃ stops s', Tours d env s [.enter c] stops s' ∧ Trek s stops s' ∧ Grove g [c] env stops)
    {cs : List BlockId} (hcs : ∀ c ∈ cs, g.ImmediatelyDominates b c) (hn : cs.Nodup)
    {s : NameSupply × Graph} (hs : SameOutline g s.2) :
    ∃ stops s', Tours d env s (cs.map .enter) stops s' ∧ Trek s stops s' ∧
    Grove g cs env stops := by
  induction cs generalizing s with
  | nil => exact ⟨[], s, .nil, .nil s, by simp, .nil, nofun⟩
  | cons c cs ih =>
    obtain ⟨hc, hcs⟩ := List.forall_mem_cons.mp hcs
    obtain ⟨hnotin, hn⟩ := List.nodup_cons.mp hn
    obtain ⟨stops₁, s₁, htours₁, htrek₁, hgrove₁⟩ := htree s c hc hs
    obtain ⟨stops₂, s₂, htours₂, htrek₂, hgrove₂⟩ := ih hcs hn (hs.trans htrek₁.outline)
    refine ⟨stops₁ ++ stops₂, s₂, htours₁.append htours₂, htrek₁.append htrek₂, ?_, ?_, ?_⟩
    · intro x
      rw [List.map_append, List.mem_append, hgrove₁.mem_iff, hgrove₂.mem_iff]
      simp only [List.mem_cons, exists_eq_or_imp]
      tauto
    · rw [List.map_append]
      refine List.nodup_append'.mpr ⟨hgrove₁.nodup, hgrove₂.nodup, fun x h₁ h₂ => ?_⟩
      -- No block is below two children of another.
      obtain ⟨hx, r, hr, hdom⟩ := (hgrove₁.mem_iff x).mp h₁
      obtain ⟨-, r', hr', hdom'⟩ := (hgrove₂.mem_iff x).mp h₂
      rw [List.mem_singleton.mp hr] at hdom
      exact hnotin (children_disjoint hg hc (hcs r' hr') hx hdom hdom' ▸ hr')
    · intro a ha
      rcases List.mem_append.mp ha with ha | ha
      · rcases hgrove₁.inn_eq a ha with ⟨hr, hinn⟩ | ⟨p, hp, hi⟩
        · exact .inl ⟨List.mem_cons.mpr (.inl (List.mem_singleton.mp hr)), hinn⟩
        · exact .inr ⟨p, List.mem_append_left _ hp, hi⟩
      · rcases hgrove₂.inn_eq a ha with ⟨hr, hinn⟩ | ⟨p, hp, hi⟩
        · exact .inl ⟨List.mem_cons_of_mem _ hr, hinn⟩
        · exact .inr ⟨p, List.mem_append_right _ hp, hi⟩

include hd

/-- **The stops of a tree.** -/
theorem tours_spec {height : Nat} {b : BlockId} (hb : g.Reachable b)
    (hheight : g.blocks.size ≤ height + Dominance.place g b) (env : Versions)
    {s : NameSupply × Graph} (hs : SameOutline g s.2) :
    ∃ stops s', Tours d env s [.enter b] stops s' ∧ Trek s stops s' ∧ Grove g [b] env stops := by
  have hplace := Nat.lt_of_lt_of_le (Dominance.place_lt hg hb) (Dominance.length_order_le hg)
  -- The induction is on the height: a child comes later in the order than its parent.
  induction height generalizing env b s with
  | zero => omega
  | succ height ih =>
    obtain ⟨names, h⟩ := s
    obtain ⟨block₀, hlive₀⟩ := hg.live_of_reachable hb
    obtain ⟨block, hlive, -⟩ := hs.symm.exists_block hlive₀
    obtain ⟨a, h', names', hrun, rfl, rfl, hren⟩ := renameBlock_spec hg.listed hs hlive names env
    have hchild : ∀ c, c ∈ d.children a.block ↔ g.ImmediatelyDominates a.block c := fun c =>
      Dominance.mem_childrenIn.trans hd.parent?_iff
    have htree : ∀ s c, g.ImmediatelyDominates a.block c → SameOutline g s.2 →
        ∃ stops s', Tours d a.out s [.enter c] stops s' ∧ Trek s stops s' ∧
          Grove g [c] a.out stops := by
      intro s c hc hs
      have hlt := Dominance.place_lt_of_immediate hg hc
      exact ih hc.reachable (by omega) a.out hs
        (Nat.lt_of_lt_of_le (Dominance.place_lt hg hc.reachable) (Dominance.length_order_le hg))
    obtain ⟨stops, s', htours, htrek, hgrove⟩ := tours_children hg htree
      (fun c hc => (hchild c).mp hc) (nodup_children d a.block) (hs.trans hren.outline)
    have hbelow := fun {x} => exists_child_dominates_iff hg hchild (x := x)
    refine ⟨a :: stops, s', htours.cons hrun, .cons hren htrek, ?_, ?_, ?_⟩
    · intro x
      rw [List.map_cons, List.mem_cons, hgrove.mem_iff]
      simp only [List.mem_singleton, exists_eq_left]
      constructor
      · rintro (rfl | ⟨hx, hr⟩)
        · exact ⟨hb, .refl _⟩
        · exact ⟨hx, ((hbelow hx).mp hr).1⟩
      · rintro ⟨hx, hdom⟩
        by_cases hne : x = a.block
        · exact .inl hne
        · exact .inr ⟨hx, (hbelow hx).mpr ⟨hdom, hne⟩⟩
    · rw [List.map_cons, List.nodup_cons]
      refine ⟨fun hin => ?_, hgrove.nodup⟩
      obtain ⟨hx, hr⟩ := (hgrove.mem_iff _).mp hin
      exact ((hbelow hx).mp hr).2 rfl
    · intro c hc
      rcases List.mem_cons.mp hc with rfl | hc
      · exact .inl ⟨List.mem_singleton.mpr rfl, rfl⟩
      · right
        rcases hgrove.inn_eq c hc with ⟨hr, hinn⟩ | ⟨p, hp, hi⟩
        · exact ⟨a, List.mem_cons_self .., (hchild _).mp hr, hinn⟩
        · exact ⟨p, List.mem_cons_of_mem _ hp, hi⟩

/-- **All blocks that the entry reaches are renamed**, each one once. -/
theorem rename_spec (names : NameSupply) {h : Graph} (hs : SameOutline g h) :
    ∃ stops s', (rename d names h).outcome = .ok s' ∧ Trek (names, h) stops s' ∧
      Grove g [Graph.entry] [] stops := by
  obtain ⟨stops, s', htours, htrek, hgrove⟩ := tours_spec hg hd .entry (Nat.le_add_right ..) []
    (s := (names, h)) hs
  have hsub : stops.map Stop.block ⊆ g.handles := fun b hb => by
    obtain ⟨block, hlive⟩ := hg.live_of_reachable ((hgrove.mem_iff b).mp hb).1
    exact Graph.mem_handles.mpr (Graph.slot_lt_of_block? hlive)
  have hlen := (List.subperm_of_subset hgrove.nodup hsub).length_le
  rw [List.length_map, Graph.length_handles, ← hs.size_eq] at hlen
  have hrun := htours (2 * h.blocks.size - 2 * stops.length) []
  rw [Nat.add_sub_cancel' (Nat.mul_le_mul_left 2 hlen)] at hrun
  refine ⟨stops, s', ?_, htrek, hgrove⟩
  exact Run.outcome_bind_of_ok (hrun.trans (Renaming.outcome_run_nil rfl)) _

end Tree
/-! ### What stops add up to -/

section Effects
variable {g : Graph} {c : BlockId} {name : String}

theorem kind?_fillArgs (env : Versions) (es : List EdgeId) (g : Graph) (c : BlockId) :
    (es.foldl (fillArgs env) g).kind? c = g.kind? c := by
  induction es generalizing g with
  | nil => rfl
  | cons e es ih =>
    rw [List.foldl_cons, ih, fillArgs]
    split
    · rfl
    · rw [Graph.kind?, Graph.kind?, Graph.block?_modifyBlock]
      split
      · rw [Option.map_map]
        rfl
      · rfl

theorem phi?_fillArgs (env : Versions) (g : Graph) (e : EdgeId) (c : BlockId) (name : String) :
    (fillArgs env g e).phi? c name = (g.phi? c name).map fun p =>
      if (g.edge? e).any (·.target = c) then p.setArg e (env.current name) else p := by
  unfold fillArgs
  cases he : g.edge? e with
  | none => simp
  | some edge =>
    simp only [Graph.phi?, Graph.block?_modifyBlock, Option.any_some, decide_eq_true_eq]
    cases hb : g.block? c with
    | none => simp
    | some block =>
      by_cases hc : c = edge.target
      · simp [hc]
      · simp [hc, Ne.symm hc]

/-- The arguments that several edges bring. -/
theorem phi?_foldl_fillArgs (env : Versions) (es : List EdgeId) (g : Graph) (c : BlockId)
    (name : String) :
    ∃ f : Phi → Phi, (es.foldl (fillArgs env) g).phi? c name = (g.phi? c name).map f ∧
      ∀ p, (f p).version = p.version ∧ ∀ e, (f p).arg? e =
        if e ∈ es ∧ (g.edge? e).any (·.target = c) = true then some (env.current name)
        else p.arg? e := by
  induction es generalizing g with
  | nil => exact ⟨id, by simp, fun p => ⟨rfl, by simp⟩⟩
  | cons e es ih =>
    obtain ⟨f, hf, hspec⟩ := ih (fillArgs env g e)
    refine ⟨_, by rw [List.foldl_cons, hf, phi?_fillArgs, Option.map_map], fun p => ?_⟩
    have hedge : ∀ e', (fillArgs env g e).edge? e' = g.edge? e' :=
      (sameOutline_foldl_fillArgs env [e] g).edge?_eq
    refine ⟨?_, fun e' => ?_⟩
    · rw [Function.comp_apply, (hspec _).1]
      split <;> rfl
    · rw [Function.comp_apply, (hspec _).2, hedge]
      by_cases hin : e' ∈ es ∧ (g.edge? e').any (·.target = c) = true
      · rw [if_pos hin, if_pos ⟨List.mem_cons_of_mem _ hin.1, hin.2⟩]
      · rw [if_neg hin]
        by_cases he : e' = e
        · subst he
          by_cases ht : (g.edge? e').any (·.target = c) = true
          · rw [if_pos ht, Phi.arg?_setArg, if_pos rfl, if_pos ⟨List.mem_cons_self .., ht⟩]
          · rw [if_neg ht, if_neg fun h => ht h.2]
        · have hin' : ¬ (e' ∈ e :: es ∧ (g.edge? e').any (·.target = c) = true) := fun h =>
            hin ⟨(List.mem_cons.mp h.1).resolve_left he, h.2⟩
          rw [if_neg hin']
          split
          · rw [Phi.arg?_setArg, if_neg he]
          · rfl

/-- **How far renaming has come** when it has stopped at the blocks `done`, the latest first. -/
structure Progress (g₀ : Graph) (names₀ : NameSupply) (done : List Stop) (s : NameSupply × Graph) :
    Prop where
  outline : SameOutline g₀ s.2
  kind?_done : ∀ a ∈ done, s.2.kind? a.block = (g₀.kind? a.block).map
    (Kind.rename (fun v => a.mid.current v.name) (fun v => a.out.current v.name))
  kind?_other : ∀ b, b ∉ done.map Stop.block → s.2.kind? b = g₀.kind? b
  hasPhi_eq : ∀ b name, s.2.hasPhi b name = g₀.hasPhi b name
  lhs_eq : ∀ a ∈ done, ∀ {name p}, s.2.phi? a.block name = some p →
    Phis.lhs name p = a.mid.current name
  /-- A phi function has arguments for the edges from those blocks. -/
  arg?_iff : ∀ {b name p}, s.2.phi? b name = some p → ∀ {e v}, p.arg? e = some v ↔
    ∃ a ∈ done, ∃ dir, g₀.edge? e = some ⟨a.block, b, dir⟩ ∧ v = a.out.current name
  merged_iff : ∀ a ∈ done, ∀ name, name ∈ a.merged.map Prod.fst ↔ g₀.hasPhi a.block name = true
  merged_nodup : ∀ a ∈ done, (a.merged.map Prod.fst).Nodup
  own_names : ∀ a ∈ done, ∀ {k}, g₀.kind? a.block = some k →
    a.own.map Prod.fst = k.defs.map Var.name
  gains : Gains names₀ (done.flatMap fun a => a.own ++ a.merged) s.1

theorem Progress.start {g₀ : Graph}
    (hbare : ∀ {b name p}, g₀.phi? b name = some p → p = .new none) (names₀ : NameSupply) :
    Progress g₀ names₀ [] (names₀, g₀) := by
  refine ⟨.refl _, nofun, fun _ _ => rfl, fun _ _ => rfl, nofun, ?_, nofun, nofun, nofun, .nil _⟩
  intro b name p hp e v
  rw [hbare hp]
  exact ⟨nofun, nofun⟩

theorem phi?_renamed (g : Graph) (a : Stop) (c : BlockId) (name : String) :
    (g.modifyBlock a.block a.renamed).phi? c name = (g.phi? c name).map fun p =>
      if c = a.block then { p with version := (a.mid.current name).version } else p := by
  unfold Graph.phi?
  rw [Graph.block?_modifyBlock]
  cases hb : g.block? c with
  | none => simp
  | some block =>
    by_cases hc : c = a.block
    · simp [hc, Stop.renamed]
    · simp [hc]

/-- The phi functions after a stop. -/
theorem Stop.Renames.phi? {a : Stop} {block : Block} {s s' : NameSupply × Graph}
    (h : a.Renames block s s') (c : BlockId) (name : String) :
    ∃ f : Phi → Phi, s'.2.phi? c name = (s.2.phi? c name).map f ∧ ∀ p,
      (f p).version = (if c = a.block then (a.mid.current name).version else p.version) ∧
      ∀ e, (f p).arg? e = if e ∈ block.succs ∧ (s.2.edge? e).any (·.target = c) = true then
        some (a.out.current name) else p.arg? e := by
  obtain ⟨f, hf, hspec⟩ := phi?_foldl_fillArgs a.out block.succs
    (s.2.modifyBlock a.block a.renamed) c name
  refine ⟨_, by rw [h.graph_eq, hf, phi?_renamed, Option.map_map], fun p => ⟨?_, fun e => ?_⟩⟩
  · rw [Function.comp_apply, (hspec _).1]
    split <;> rfl
  · rw [Function.comp_apply, (hspec _).2, Graph.edge?_modifyBlock]
    have hargs : Phi.arg? (if c = a.block then
        { p with version := (a.mid.current name).version } else p) e = p.arg? e := by
      split <;> rfl
    rw [hargs]

theorem Stop.Renames.kind? {a : Stop} {block : Block} {s s' : NameSupply × Graph}
    (h : a.Renames block s s') (c : BlockId) :
    s'.2.kind? c = if c = a.block then (s.2.kind? c).map
      (Kind.rename (fun v => a.mid.current v.name) (fun v => a.out.current v.name))
    else s.2.kind? c := by
  rw [h.graph_eq, kind?_fillArgs, Graph.kind?, Graph.kind?, Graph.block?_modifyBlock]
  split
  · rw [Option.map_map, Option.map_map]
    rfl
  · rfl

section
variable {g₀ : Graph} (hg : g₀.Listed) {names₀ : NameSupply} {done : List Stop}
  {s s' : NameSupply × Graph} (hs : Progress g₀ names₀ done s) {a : Stop} {block : Block}
  (h : a.Renames block s s') (hnew : a.block ∉ done.map Stop.block)
include hg hs h hnew

/-- A stop fills in the arguments for the edges that leave its block, and no others. -/
theorem Progress.arg?_next {b : BlockId} {name : String} {p' : Phi}
    (hp' : s'.2.phi? b name = some p') {e : EdgeId} {v : Var} : p'.arg? e = some v ↔
      ∃ a' ∈ a :: done, ∃ dir, g₀.edge? e = some ⟨a'.block, b, dir⟩ ∧ v = a'.out.current name := by
  have hsuccs : ∀ e, e ∈ block.succs ↔ ∃ edge, g₀.edge? e = some edge ∧ edge.source = a.block := by
    intro e
    obtain ⟨block₀, hb₀, -, -, heq⟩ := hs.outline.exists_block h.live
    rw [heq, hg.mem_succs hb₀]
  obtain ⟨f, hf, hspec⟩ := h.phi? b name
  rw [hf] at hp'
  obtain ⟨p, hp, rfl⟩ := Option.map_eq_some_iff.mp hp'
  rw [(hspec p).2, hs.outline.edge?_eq]
  by_cases hfrom : e ∈ block.succs ∧ (g₀.edge? e).any (·.target = b) = true
  · -- the edge comes from the new block, and from no other
    rw [if_pos hfrom]
    rw [hsuccs] at hfrom
    obtain ⟨⟨⟨src, tgt, dir⟩, he, rfl⟩, ht⟩ := hfrom
    rw [he, Option.any_some, decide_eq_true_eq] at ht
    subst ht
    constructor
    · rintro ⟨⟩
      exact ⟨a, List.mem_cons_self .., dir, he, rfl⟩
    · rintro ⟨a', ha', dir', he', rfl⟩
      rw [he] at he'
      have hsource : a.block = a'.block := congrArg Edge.source (Option.some.inj he')
      rcases List.mem_cons.mp ha' with rfl | ha'
      · rfl
      · exact absurd (hsource ▸ List.mem_map_of_mem ha') hnew
  · rw [if_neg hfrom, hs.arg?_iff hp]
    constructor
    · rintro ⟨a', ha', hrest⟩
      exact ⟨a', List.mem_cons_of_mem _ ha', hrest⟩
    · rintro ⟨a', ha', dir, he, rfl⟩
      rcases List.mem_cons.mp ha' with rfl | ha'
      · exact absurd ⟨(hsuccs e).mpr ⟨_, he, rfl⟩, by rw [he]; simp⟩ hfrom
      · exact ⟨a', ha', dir, he, rfl⟩

/-- **A stop at a new block takes renaming further.** -/
theorem Progress.next : Progress g₀ names₀ (a :: done) s' := by
  have hne : ∀ {a'}, a' ∈ done → a'.block ≠ a.block := fun ha' heq =>
    hnew (heq ▸ List.mem_map_of_mem ha')
  constructor
  case outline => exact hs.outline.trans h.outline
  case kind?_done =>
    intro a' ha'
    rw [h.kind?]
    rcases List.mem_cons.mp ha' with rfl | ha'
    · rw [if_pos rfl, hs.kind?_other _ hnew]
    · rw [if_neg (hne ha'), hs.kind?_done a' ha']
  case kind?_other =>
    intro b hb
    rw [List.map_cons, List.mem_cons, not_or] at hb
    rw [h.kind?, if_neg hb.1, hs.kind?_other b hb.2]
  case hasPhi_eq =>
    intro b name
    obtain ⟨f, hf, -⟩ := h.phi? b name
    rw [← hs.hasPhi_eq, Graph.hasPhi_eq_isSome, Graph.hasPhi_eq_isSome, hf, Option.isSome_map]
  case lhs_eq =>
    intro a' ha' name p' hp'
    obtain ⟨f, hf, hspec⟩ := h.phi? a'.block name
    rw [hf] at hp'
    obtain ⟨p, hp, rfl⟩ := Option.map_eq_some_iff.mp hp'
    rw [Phis.lhs, (hspec p).1]
    rcases List.mem_cons.mp ha' with rfl | ha'
    · rw [if_pos rfl]
      rfl
    · rw [if_neg (hne ha')]
      exact hs.lhs_eq a' ha' hp
  case arg?_iff => exact fun hp => hs.arg?_next hg h hnew hp
  case merged_iff =>
    intro a' ha' name
    rcases List.mem_cons.mp ha' with rfl | ha'
    · rw [h.merged_names, List.mem_reverse, ← hs.hasPhi_eq, Graph.hasPhi_of_block? h.live,
        OrdMap.contains_iff_mem_keys]
    · exact hs.merged_iff a' ha' name
  case merged_nodup =>
    intro a' ha'
    rcases List.mem_cons.mp ha' with rfl | ha'
    · rw [h.merged_names]
      exact List.nodup_reverse.mpr (OrdMap.nodup_keys _)
    · exact hs.merged_nodup a' ha'
  case own_names =>
    intro a' ha' k hk
    rcases List.mem_cons.mp ha' with rfl | ha'
    · rw [← hs.kind?_other _ hnew, Graph.kind?_of_block? h.live] at hk
      cases hk
      exact h.own_names
    · exact hs.own_names a' ha' hk
  case gains =>
    rw [List.flatMap_cons]
    exact hs.gains.append h.gains

end

/-- **A whole trek.** -/
theorem Progress.trek {g₀ : Graph} (hg : g₀.Listed) {names₀ : NameSupply} {stops done : List Stop}
    {s s' : NameSupply × Graph} (h : Trek s stops s') (hs : Progress g₀ names₀ done s)
    (hn : (stops.map Stop.block).Nodup) (hdis : ∀ a ∈ stops, a.block ∉ done.map Stop.block) :
    Progress g₀ names₀ (stops.reverse ++ done) s' := by
  induction h generalizing done with
  | nil => exact hs
  | @cons a block rest s s₁ s' ha htrek ih =>
    rw [List.map_cons, List.nodup_cons] at hn
    rw [List.reverse_cons, List.append_assoc, List.singleton_append]
    refine ih (hs.next hg ha (hdis a (List.mem_cons_self ..))) hn.2 fun c hc => ?_
    rw [List.map_cons, List.mem_cons, not_or]
    refine ⟨fun heq => hn.1 ?_, hdis c (List.mem_cons_of_mem _ hc)⟩
    exact heq ▸ List.mem_map_of_mem hc

end Effects
end Ssa
end FlowGraph
