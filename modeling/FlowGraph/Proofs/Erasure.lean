import FlowGraph.Proofs.Freshness
import FlowGraph.Proofs.Keeping

/-! # Conversion changes versions, and asks for none

Conversion into single assignment form gives every variable a version, and phi functions to some
blocks.  Apart from versions and phi functions the result is the part of the graph that the entry
reaches, slot by slot and list by list.  And it does not matter what versions the variables had
before.

Both are shown on two conversions side by side, of a graph and of the same graph without versions.
At each step the two graphs are the same but for blocks that are still without versions in the
second (`Echoes`).  In the end no variable is without a version, so there are no such blocks any
more.
-/
namespace FlowGraph

/-! ### Without versions -/

/-- A variable without its version. -/
def Var.erase (v : Var) : Var := .plain v.name

/-- What a block does, without versions. -/
def Kind.erase (k : Kind) : Kind := k.rename Var.erase Var.erase

/-- A phi function without versions. -/
def Phi.erase (p : Phi) : Phi := ⟨none, p.args.mapValues fun _ v => v.erase⟩

/-- A block without versions. -/
def Block.erase (x : Block) : Block := { x with kind := x.kind.erase, phis := x.phis.map Phi.erase }

namespace Kind

/-- Names that depend on base names take no notice of versions. -/
theorem rename_erase (use define : String → Var) (k : Kind) :
    k.erase.rename (fun v => use v.name) (fun v => define v.name) =
      k.rename (fun v => use v.name) (fun v => define v.name) :=
  rename_rename ..

/-- Versions are all that renaming brings in. -/
theorem erase_rename (use define : String → Var) (huse : ∀ name, (use name).name = name)
    (hdefine : ∀ name, (define name).name = name) (k : Kind) :
    (k.rename (fun v => use v.name) fun v => define v.name).erase = k.erase := by
  have herase : ∀ {f : String → Var}, (∀ name, (f name).name = name) →
      (Var.erase ∘ fun v : Var => f v.name) = Var.erase := fun hf =>
    funext fun v => congrArg Var.plain (hf v.name)
  rw [erase, rename_rename, herase huse, herase hdefine]
  rfl

theorem erase_erase (k : Kind) : k.erase.erase = k.erase := rename_rename ..

/-- What a block without versions does not mention has no version to lose. -/
theorem erase_eq_self {k : Kind}
    (h : ∀ v, v ∈ k.erase.defs ∨ v ∈ k.erase.uses → v.isVersioned = true) :
    k.erase = k := by
  have hnone : ∀ vs : List Var, (∀ v ∈ vs.map Var.erase, v.isVersioned = true) → vs = [] := by
    intro vs hvs
    cases vs with
    | nil => rfl
    | cons v vs => cases hvs v.erase (List.mem_cons_self ..)
  refine rename_eq_self (hnone _ fun v hv => h v (.inr ?_)) (hnone _ fun v hv => h v (.inl ?_))
  · rw [erase, uses_rename]
    exact hv
  · rw [erase, defs_rename]
    exact hv

end Kind

namespace Graph

variable {g q : Graph} {b : BlockId}

/-- **The graph without versions.** -/
def erase (g : Graph) : Graph := g.mapBlocks Block.erase

theorem block?_erase (g : Graph) (b : BlockId) : g.erase.block? b = (g.block? b).map Block.erase :=
  block?_mapBlocks ..

theorem kind?_erase (g : Graph) (b : BlockId) : g.erase.kind? b = (g.kind? b).map Kind.erase := by
  rw [kind?, kind?, block?_erase, Option.map_map, Option.map_map]
  rfl

theorem sameOutline_erase (g : Graph) : SameOutline g g.erase := by
  refine ⟨rfl, Array.size_map, fun b => ?_⟩
  rw [block?_erase, Option.map_map]
  rfl

theorem PhiFree.erase (hp : g.PhiFree) : g.erase.PhiFree := by
  intro b y hy
  rw [block?_erase] at hy
  obtain ⟨x, hx, rfl⟩ := Option.map_eq_some_iff.mp hy
  simp only [Block.erase, hp hx, Phis.map, OrdMap.mapValues_empty]

theorem WellFormed.erase (hg : g.WellFormed) (hp : g.PhiFree) : g.erase.WellFormed := by
  refine hg.of_outline (sameOutline_erase g) (fun b => Kind.map_shape_of_name ?_) ?_
  · rw [kind?_erase, Option.map_map]
    exact congrArg (Option.map · _) (funext Kind.name_rename)
  · intro b y hy name p hp'
    rw [hp.erase hy] at hp'
    cases hp'

/-- Parts of the graph without versions. -/
theorem erase_keeping (g : Graph) (keep : BlockId → Bool) :
    g.erase.keeping keep = (g.keeping keep).erase := by
  refine ext_block? rfl rfl ?_ fun b => ?_
  · rw [size_blocks_keeping, (sameOutline_erase _).size_eq, (sameOutline_erase _).size_eq,
      size_blocks_keeping]
  · rw [block?_keeping, block?_erase, block?_erase, block?_keeping]
    cases g.block? b with
    | none => rfl
    | some x =>
      have hid : x.erase.id = x.id := rfl
      simp only [Option.map_some, Option.filter_some, hid]
      cases keep x.id <;> rfl

/-! ### Cores -/

/-- **The core of a graph**: all but versions and phi functions. -/
def core (g : Graph) : Graph := g.erase.withoutPhis

theorem block?_core (g : Graph) (b : BlockId) :
    g.core.block? b = (g.block? b).map fun x => x.erase.withoutPhis := by
  rw [core, withoutPhis, block?_mapBlocks, block?_erase, Option.map_map]
  rfl

theorem size_core (g : Graph) : g.core.blocks.size = g.blocks.size := by
  simp [core, withoutPhis, erase, mapBlocks]

theorem PhiFree.core_eq (hp : g.PhiFree) : g.core = g.erase := by
  refine ext_block? rfl rfl Array.size_map fun b => ?_
  rw [block?_core, block?_erase]
  cases hb : g.block? b with
  | none => rfl
  | some x =>
    have hempty : x.erase.phis = .empty := hp.erase ((block?_erase ..).trans (congrArg _ hb))
    rw [Option.map_some, Option.map_some, Block.withoutPhis, ← hempty]

theorem core_modifyBlock {f : Block → Block}
    (hf : ∀ {x}, g.block? b = some x → (f x).erase.withoutPhis = x.erase.withoutPhis) :
    (g.modifyBlock b f).core = g.core := by
  refine ext_block? rfl rfl ?_ fun c => ?_
  · rw [size_core, size_core, size_modifyBlock]
  · rw [block?_core, block?_core, block?_modifyBlock]
    split
    · rename_i hc
      subst hc
      cases hb : g.block? c with
      | none => rfl
      | some x => exact congrArg some (hf hb)
    · rfl

/-! ### Two conversions side by side -/

/-- **Two graphs that are the same** but for blocks of the second that have no versions.  Both have
the core `c`. -/
structure Echoes (c g q : Graph) : Prop where
  left : g.core = c
  right : q.core = c
  phis_eq : ∀ {b x y}, g.block? b = some x → q.block? b = some y → y.phis = x.phis
  kind_eq : ∀ {b x y}, g.block? b = some x → q.block? b = some y →
    y.kind = x.kind ∨ y.kind = x.kind.erase

namespace Echoes

variable {c : Graph}

theorem start (hp : g.PhiFree) : Echoes g.erase g g.erase := by
  have hpair : ∀ {b x y}, g.block? b = some x → g.erase.block? b = some y → y = x.erase := by
    intro b x y hx hy
    rw [block?_erase, hx] at hy
    exact (Option.some.inj hy).symm
  constructor
  case left => exact hp.core_eq
  case right =>
    rw [hp.erase.core_eq]
    refine ext_block? rfl rfl Array.size_map fun b => ?_
    rw [block?_erase]
    cases hb : g.erase.block? b with
    | none => rfl
    | some y =>
      have hempty := hp.erase hb
      rw [block?_erase] at hb
      obtain ⟨x, hx, rfl⟩ := Option.map_eq_some_iff.mp hb
      rw [Option.map_some, Block.erase, hempty]
      simp only [Block.erase, Kind.erase_erase, Phis.map, OrdMap.mapValues_empty, hp hx]
  case phis_eq =>
    intro b x y hx hy
    rw [hp.erase hy, hp hx]
  case kind_eq =>
    intro b x y hx hy
    rw [hpair hx hy]
    exact .inr rfl

variable (h : Echoes c g q)
include h

theorem edges_eq : q.edges = g.edges := by
  have hcore := congrArg Graph.edges (h.right.trans h.left.symm)
  exact hcore

theorem outline : SameOutline g q := by
  have hcore := h.right.trans h.left.symm
  refine ⟨h.edges_eq, ?_, fun b => ?_⟩
  · rw [← size_core, hcore, size_core]
  · have hblock := congrArg (fun g : Graph => (g.block? b).map Block.outline) hcore
    simp only [block?_core, Option.map_map] at hblock
    exact hblock

theorem exists_block {x : Block} (hx : g.block? b = some x) : ∃ y, q.block? b = some y := by
  obtain ⟨y, hy, -⟩ := h.outline.symm.exists_block hx
  exact ⟨y, hy⟩

theorem block?_eq_none (hb : g.block? b = none) : q.block? b = none :=
  h.outline.symm.block?_eq_none hb

/-- Both have the same phi functions. -/
theorem map_phis : (q.block? b).map Block.phis = (g.block? b).map Block.phis := by
  cases hb : g.block? b with
  | none => rw [h.block?_eq_none hb]
  | some x =>
    obtain ⟨y, hy⟩ := h.exists_block hb
    rw [hy, Option.map_some, Option.map_some, h.phis_eq hb hy]

theorem hasPhi_eq (b : BlockId) (name : String) : q.hasPhi b name = g.hasPhi b name := by
  have hany : ∀ o : Option Block, o.any (·.phis.contains name) =
      (o.map Block.phis).any (·.contains name) := by
    intro o
    cases o <;> rfl
  rw [Graph.hasPhi, Graph.hasPhi, hany, hany, h.map_phis]

/-- **A change of a block**, the same on both sides. -/
theorem modifyBlock {f f' : Block → Block}
    (hf : ∀ {x y}, g.block? b = some x → q.block? b = some y →
      (f x).erase.withoutPhis = x.erase.withoutPhis ∧
      (f' y).erase.withoutPhis = y.erase.withoutPhis)
    (hphis : ∀ {x y}, g.block? b = some x → q.block? b = some y → (f' y).phis = (f x).phis)
    (hkind : ∀ {x y}, g.block? b = some x → q.block? b = some y →
      (f' y).kind = (f x).kind ∨ (f' y).kind = (f x).kind.erase) :
    Echoes c (g.modifyBlock b f) (q.modifyBlock b f') := by
  have hcases : ∀ {a x' y'}, (g.modifyBlock b f).block? a = some x' →
      (q.modifyBlock b f').block? a = some y' →
        (∃ x y, g.block? b = some x ∧ q.block? b = some y ∧ x' = f x ∧ y' = f' y) ∨
          g.block? a = some x' ∧ q.block? a = some y' := by
    intro a x' y' hx' hy'
    rw [block?_modifyBlock] at hx' hy'
    split at hx'
    · rename_i ha
      subst ha
      rw [if_pos rfl] at hy'
      obtain ⟨x, hx, rfl⟩ := Option.map_eq_some_iff.mp hx'
      obtain ⟨y, hy, rfl⟩ := Option.map_eq_some_iff.mp hy'
      exact .inl ⟨x, y, hx, hy, rfl, rfl⟩
    · rename_i ha
      rw [if_neg ha] at hy'
      exact .inr ⟨hx', hy'⟩
  constructor
  case left =>
    rw [← h.left]
    refine core_modifyBlock fun {x} hx => ?_
    obtain ⟨y, hy⟩ := h.exists_block hx
    exact (hf hx hy).1
  case right =>
    rw [← h.right]
    refine core_modifyBlock fun {y} hy => ?_
    obtain ⟨x, hx, -⟩ := h.outline.exists_block hy
    exact (hf hx hy).2
  case phis_eq =>
    intro a x' y' hx' hy'
    rcases hcases hx' hy' with ⟨x, y, hx, hy, rfl, rfl⟩ | ⟨hx, hy⟩
    · exact hphis hx hy
    · exact h.phis_eq hx hy
  case kind_eq =>
    intro a x' y' hx' hy'
    rcases hcases hx' hy' with ⟨x, y, hx, hy, rfl, rfl⟩ | ⟨hx, hy⟩
    · exact hkind hx hy
    · exact h.kind_eq hx hy

/-- A change of phi functions alone. -/
theorem modifyPhis (f : Phis → Phis) :
    Echoes c (g.modifyBlock b fun x => { x with phis := f x.phis })
      (q.modifyBlock b fun x => { x with phis := f x.phis }) :=
  h.modifyBlock (fun _ _ => ⟨rfl, rfl⟩) (fun hx hy => congrArg f (h.phis_eq hx hy)) h.kind_eq

/-- A block is in use on both sides or on neither. -/
theorem block (b : BlockId) : Run.Agrees (fun x y => g.block? b = some x ∧ q.block? b = some y)
    (liftM (g.block b) : Run Block) (liftM (q.block b)) := by
  cases hb : g.block? b with
  | none =>
    refine .inl ⟨.violation (.staleBlock b), ?_, ?_⟩
    · rw [Run.outcome_liftM, Graph.block, hb]
    · rw [Run.outcome_liftM, Graph.block, h.block?_eq_none hb]
  | some x =>
    obtain ⟨y, hy⟩ := h.exists_block hb
    refine .inr ⟨x, y, ?_, ?_, rfl, hy⟩
    · rw [Run.outcome_liftM, block_eq_ok hb]
    · rw [Run.outcome_liftM, block_eq_ok hy]

/-- **With versions everywhere** the graphs are the same. -/
theorem eq_of_versioned (hq : ∀ v, q.Occurs v → v.isVersioned = true) : q = g := by
  have hname := congrArg Graph.name (h.right.trans h.left.symm)
  refine ext_block? hname h.edges_eq h.outline.size_eq fun b => ?_
  cases hx : g.block? b with
  | none => exact h.block?_eq_none hx
  | some x =>
    obtain ⟨y, hy, hid, hpreds, hsuccs⟩ := h.outline.symm.exists_block hx
    have hkind : y.kind = x.kind := by
      rcases h.kind_eq hx hy with hsame | herased
      · exact hsame
      · -- nothing that is mentioned is without a version, so nothing is mentioned
        rw [herased]
        refine Kind.erase_eq_self fun v hv =>
          hq v (occurs_iff.mpr (.inr ⟨b, _, kind?_of_block? hy, ?_⟩))
        rw [herased]
        exact hv
    rw [hy]
    obtain ⟨id, kind, phis, preds, succs⟩ := x
    obtain ⟨id', kind', phis', preds', succs'⟩ := y
    cases hid
    cases hpreds
    cases hsuccs
    cases hkind
    cases h.phis_eq hx hy
    rfl

end Echoes

/-! ### The order from the top down -/

section
variable (h : SameOutline g q)
include h

theorem SameOutline.run_eq (fuel : Nat) (s : Forward) : s.run q fuel = s.run g fuel := by
  induction fuel generalizing s with
  | zero => rfl
  | succ fuel ih =>
    simp only [Forward.run, Forward.step, h.successorEdges_eq, h.edge_eq, ih]

theorem SameOutline.searchSteps_eq : q.searchSteps = g.searchSteps := by
  have hsteps : ∀ b, q.stepsAt b = g.stepsAt b := fun b => by
    rw [stepsAt, stepsAt]
    cases hb : g.block? b with
    | none => rw [h.symm.block?_eq_none hb]
    | some x =>
      obtain ⟨y, hy, -, -, hsuccs⟩ := h.symm.exists_block hb
      simp only [hy, hsuccs]
  simp only [searchSteps, hsteps, h.size_eq]

/-- The order from the top down depends on the edges only. -/
theorem SameOutline.topDown_eq : q.topDown = g.topDown := by
  have hsearch : Forward.searchFrom q = Forward.searchFrom g := by
    funext s root
    simp only [Forward.searchFrom, h.searchSteps_eq, h.run_eq]
  simp only [topDown, forwardGraph, hsearch, h.size_eq, h.blockIds_eq, h.isLive_eq]

end

end Graph

open FlowGraph.Graph (Echoes)

/-! ### Definitions -/

namespace Web

variable {g : Graph}

theorem defs_ofGraph_erase (hp : g.PhiFree) :
    (ofGraph g.erase).defs = (ofGraph g).defs.map fun d => (d.1.erase, d.2) := by
  have hlive : g.erase.liveBlocks = g.liveBlocks.map Block.erase := by
    simp only [Graph.liveBlocks, Graph.erase, Graph.mapBlocks, Array.toList_map, List.filterMap_map,
      List.map_filterMap]
    refine List.filterMap_congr fun slot _ => ?_
    cases slot <;> rfl
  rw [ofGraph, ofGraph, hlive, List.flatMap_map, List.map_flatMap]
  refine List.flatMap_congr fun x hx => ?_
  obtain ⟨b, hb⟩ := Graph.mem_liveBlocks.mp hx
  have hempty := hp hb
  obtain ⟨id, kind, phis, preds, succs⟩ := x
  cases hempty
  cases kind with
  | statement s =>
    show (s.rename Var.erase Var.erase).defs.map _ = List.map _ (s.defs.map _)
    rw [Statement.defs_rename, List.map_map, List.map_map]
    rfl
  | _ => rfl

/-- Which base names a block defines does not depend on versions. -/
theorem blockDefs_erase (hp : g.PhiFree) : (ofGraph g.erase).blockDefs = (ofGraph g).blockDefs := by
  funext b
  rw [blockDefs, blockDefs, defs_ofGraph_erase hp, namesIn, namesIn, List.filterMap_map]
  rfl

theorem names_erase (hp : g.PhiFree) : ((ofGraph g.erase).defs.map fun (v, _) => (v.name, ())) =
    (ofGraph g).defs.map fun (v, _) => (v.name, ()) := by
  rw [defs_ofGraph_erase hp, List.map_map]
  rfl

end Web

/-! ### The steps of the conversion -/

namespace Ssa

variable {c g q : Graph} {d : Dominance} {w w' : Web}

theorem definedNames_echo (h : Echoes c g q) (hw : w'.blockDefs = w.blockDefs) (x : BlockId) :
    definedNames w' q x = definedNames w g x := by
  have hkeys := congrArg (fun o : Option Phis => (o.map OrdMap.keys).getD []) (h.map_phis (b := x))
  simp only [Option.map_map] at hkeys
  rw [definedNames, definedNames, hw]
  exact congrArg (fun ns => (OrdMap.ofList ((w.blockDefs x ++ ns).map (·, ()))).keys) hkeys

theorem addPhi_echo {count : Nat} (h : Echoes c g q) (y : BlockId) (name : String) :
    Run.Agrees (fun s t => t.1 = s.1 ∧ Echoes c s.2 t.2) (addPhi y (count, g) name)
      (addPhi y (count, q) name) := by
  rw [addPhi, addPhi, h.hasPhi_eq]
  refine (h.block y).bind fun _ _ _ => ?_
  split
  · exact .pure ⟨rfl, h⟩
  · exact .report (.pure ⟨rfl, h.modifyPhis fun ps => ps.insert name (.new none)⟩)

/-- Two states of the placement. -/
structure Placing.Echo (c : Graph) (s t : Placing) : Prop where
  added : t.added = s.added
  pending : t.pending = s.pending
  graph : Echoes c s.graph t.graph

theorem placeOn_echo {s t : Placing} (h : s.Echo c t) (names : List String) (y : BlockId) :
    Run.Agrees (Placing.Echo c) (placeOn names s y) (placeOn names t y) := by
  have hadd : Run.Agrees (fun s t => t.1 = s.1 ∧ Echoes c s.2 t.2) (addPhis y names s.graph)
      (addPhis y names t.graph) := by
    refine .foldlM ?_ ⟨rfl, h.graph⟩
    rintro name ⟨count, g⟩ ⟨_, q⟩ ⟨rfl, hgraph⟩
    exact addPhi_echo hgraph y name
  refine hadd.bind ?_
  rintro ⟨_, g⟩ ⟨count, q⟩ ⟨rfl, hgraph⟩
  refine .pure ⟨?_, ?_, hgraph⟩
  · exact congrArg (· + count) h.added
  · show (if count = 0 then t.pending else t.pending ++ [y]) = _
    rw [h.pending]

theorem placeAll_echo (hw : w'.blockDefs = w.blockDefs) (fuel : Nat) {s t : Placing}
    (h : s.Echo c t) :
    Run.Agrees (fun s t => t.1 = s.1 ∧ Echoes c s.2 t.2) (placeAll d w fuel s)
    (placeAll d w' fuel t) := by
  induction fuel generalizing s t with
  | zero => exact .pure ⟨h.added, h.graph⟩
  | succ fuel ih =>
    rw [placeAll, placeAll, h.pending]
    cases s.pending with
    | nil => exact .pure ⟨h.added, h.graph⟩
    | cons x rest =>
      have hat : Run.Agrees (Placing.Echo c) (placeAt d w x { s with pending := rest })
          (placeAt d w' x { t with pending := rest }) := by
        rw [placeAt, placeAt, definedNames_echo h.graph hw]
        have hfrontier : Run.Agrees Eq (liftM (d.frontierIn s.graph x) : Run (List BlockId))
            (liftM (d.frontierIn t.graph x)) := (h.graph.block x).lift_bind fun _ _ _ => .pure rfl
        refine hfrontier.bind ?_
        rintro ys _ rfl
        exact .foldlM (fun y s t hst => placeOn_echo hst _ y) ⟨h.added, rfl, h.graph⟩
      exact hat.bind fun _ _ => ih

/-- **Placing phi functions.** -/
theorem place_echo (hp : g.PhiFree) :
    Run.Agrees (fun s t => t.1 = s.1 ∧ Echoes g.erase s.2 t.2) (place d (Web.ofGraph g) g)
      (place d (Web.ofGraph g.erase) g.erase) := by
  have hout := g.sameOutline_erase
  rw [place, place, Web.names_erase hp, hout.size_eq, hout.topDown_eq]
  refine (Run.Agrees.refl _).bind ?_
  rintro order _ rfl
  exact placeAll_echo (Web.blockDefs_erase hp) _ ⟨rfl, rfl, .start hp⟩

/-- **What a block does is renamed alike** with and without versions. -/
theorem renameKind_erase (k : Kind) : renameKind k.erase = renameKind k := by
  refine StateT.ext fun ⟨names, env⟩ => ?_
  have hdefs : k.erase.defs = k.defs.map Var.erase := Kind.defs_rename k
  have hfresh : freshDefs names k.erase = freshDefs names k := by
    rw [freshDefs, freshDefs, hdefs, List.map_map]
    rfl
  have hafter : namesAfter names k.erase = namesAfter names k := by
    rw [namesAfter, namesAfter, hdefs, List.foldl_map]
    rfl
  rw [renameKind_run, renameKind_run, hfresh, hafter]
  exact congrArg (·, _)
    (Kind.rename_erase env.current (Versions.current (freshDefs names k ++ env)) k)

theorem erase_renameKind (k : Kind) (s : NameSupply × Versions) :
    ((renameKind k).run s).1.erase = k.erase := by
  obtain ⟨names, env⟩ := s
  rw [renameKind_run]
  exact Kind.erase_rename env.current (Versions.current (freshDefs names k ++ env)) (fun _ => rfl)
    (fun _ => rfl) k

theorem passArgs_echo (h : Echoes c g q) (env : Versions) (es : List EdgeId) :
    Run.Agrees (Echoes c) (liftM (es.foldlM (passArgs env) g) : Run Graph)
      (liftM (es.foldlM (passArgs env) q)) := by
  induction es generalizing g q with
  | nil => exact .pure h
  | cons e es ih =>
    have hone : Run.Agrees (Echoes c) (liftM (passArgs env g e) : Run Graph)
        (liftM (passArgs env q e)) := by
      rw [passArgs, passArgs, h.outline.edge_eq]
      refine (Run.Agrees.refl _).lift_bind ?_
      rintro edge _ rfl
      refine (h.block edge.target).lift_bind fun _ _ _ => .pure ?_
      exact h.modifyPhis fun ps => ps.mapValues fun name p => p.setArg e (env.current name)
    rw [List.foldlM_cons, List.foldlM_cons]
    exact hone.lift_bind fun _ _ => ih

/-- The renaming of what a block holds, phi functions first. -/
theorem renameBody_eq (x : Block) (s : NameSupply × Versions) : (renameBody x).run s =
    ({ x with
        phis := ((renamePhis x.phis).run s).1
        kind := ((renameKind x.kind).run ((renamePhis x.phis).run s).2).1 },
      ((renameKind x.kind).run ((renamePhis x.phis).run s).2).2) := rfl

/-- **One block.** -/
theorem renameBlock_echo (h : Echoes c g q) (names : NameSupply) (env : Versions) (b : BlockId) :
    Run.Agrees (fun s t => t.2 = s.2 ∧ Echoes c s.1 t.1)
      (liftM (renameBlock names env g b) : Run (Graph × NameSupply × Versions))
      (liftM (renameBlock names env q b)) := by
  refine (h.block b).lift_bind ?_
  rintro x y ⟨hx, hy⟩
  have hsuccs : y.succs = x.succs := by
    obtain ⟨y', hy', -, -, hsuccs⟩ := h.outline.symm.exists_block hx
    cases hy.symm.trans hy'
    exact hsuccs.symm
  have hkind : renameKind y.kind = renameKind x.kind := by
    rcases h.kind_eq hx hy with hsame | herased
    · rw [hsame]
    · rw [herased, renameKind_erase]
  have herase : y.kind.erase = x.kind.erase := by
    rcases h.kind_eq hx hy with hsame | herased
    · rw [hsame]
    · rw [herased, Kind.erase_erase]
  rw [renameBody_eq, renameBody_eq, h.phis_eq hx hy, hkind]
  dsimp only
  rw [hsuccs]
  refine (passArgs_echo ?_ _ x.succs).lift_bind fun _ _ h' => .pure ⟨rfl, h'⟩
  refine h.modifyBlock (fun hx' hy' => ?_) (fun _ _ => rfl) fun _ _ => .inl rfl
  cases hx.symm.trans hx'
  cases hy.symm.trans hy'
  simp only [Block.erase, Block.withoutPhis, erase_renameKind, herase, hsuccs]
  exact ⟨trivial, trivial⟩

/-- Two states of the renaming. -/
structure Renaming.Echo (c : Graph) (s t : Renaming) : Prop where
  todo : t.todo = s.todo
  names : t.names = s.names
  env : t.env = s.env
  graph : Echoes c s.graph t.graph

/-- **One task.** -/
theorem carryOut_echo {s t : Renaming} (h : s.Echo c t) (task : Task) :
    Run.Agrees (Renaming.Echo c) (s.carryOut d task) (t.carryOut d task) := by
  obtain ⟨_, _, _, g⟩ := s
  obtain ⟨todo, names, env, q⟩ := t
  obtain ⟨rfl, rfl, rfl, hgraph⟩ := h
  cases task with
  | leave pushed => exact .pure ⟨rfl, rfl, rfl, hgraph⟩
  | enter b =>
    refine (renameBlock_echo hgraph names env b).bind ?_
    rintro ⟨g', names', inner⟩ ⟨q', _⟩ ⟨rfl, hgraph'⟩
    exact .report (.pure ⟨rfl, rfl, rfl, hgraph'⟩)

/-- **All tasks.** -/
theorem run_echo (fuel : Nat) {s t : Renaming} (h : s.Echo c t) :
    Run.Agrees (Renaming.Echo c) (s.run d fuel) (t.run d fuel) := by
  induction fuel generalizing s t with
  | zero => exact .pure h
  | succ fuel ih =>
    rw [Renaming.run, Renaming.run, h.todo]
    cases s.todo with
    | nil => exact .pure h
    | cons task rest =>
      have hrest : Renaming.Echo c { s with todo := rest } { t with todo := rest } :=
        ⟨rfl, h.names, h.env, h.graph⟩
      exact (carryOut_echo hrest task).bind fun _ _ => ih

theorem rename_echo (h : Echoes c g q) (names : NameSupply) :
    Run.Agrees (fun s t => t.1 = s.1 ∧ Echoes c s.2 t.2) (rename d names g) (rename d names q) := by
  rw [rename, rename, h.outline.size_eq]
  have hstart : Renaming.Echo c ⟨[.enter Graph.entry], names, [], g⟩
      ⟨[.enter Graph.entry], names, [], q⟩ := ⟨rfl, rfl, rfl, h⟩
  exact (run_echo _ hstart).bind fun _ _ h' => .pure ⟨h'.names, h'.graph⟩

/-- **Placement and renaming** come to the same end with and without versions. -/
theorem convert_erase (hg : g.WellFormed) (hp : g.PhiFree) (hr : g.Reached)
    (hd : Dominance.ofGraph g = .ok d) (names : NameSupply) :
    ∃ s t names' g', (place d (Web.ofGraph g) g).outcome = .ok s ∧
      (place d (Web.ofGraph g.erase) g.erase).outcome = .ok t ∧
      (rename d names s.2).outcome = .ok (names', g') ∧
      (rename d names t.2).outcome = .ok (names', g') ∧
      g'.WellFormed ∧ g'.checkVersions = .ok () ∧ g'.core = g.erase := by
  have hout := g.sameOutline_erase
  have hgq := hg.erase hp
  have hrq : g.erase.Reached := by
    intro b y hy
    obtain ⟨x, hx, -⟩ := hout.exists_block hy
    exact (hr hx).imp_right fun ⟨p, hroute⟩ => ⟨p, hout.route_iff.mpr hroute⟩
  obtain ⟨_, hd', hdesc⟩ := Dominance.ofGraph_spec hg
  cases hd.symm.trans hd'
  obtain ⟨_, hdq, hdescq⟩ := Dominance.ofGraph_spec hgq
  cases hdq.symm.trans ((Dominance.ofGraph_of_outline hout).trans hd)
  obtain ⟨count, g₁, names', g', stops, hplace, hrename, hver⟩ := convert_spec hg hp hdesc names
  obtain ⟨count', q₁, namesq', q', stopsq, hplaceq, hrenameq, hverq⟩ :=
    convert_spec hgq hp.erase hdescq names
  -- neither conversion fails, so the two runs can be compared step by step
  obtain ⟨-, hecho⟩ := (place_echo hp).of_ok hplace.run hplaceq.run
  obtain ⟨hnames, hecho'⟩ := (rename_echo hecho names).of_ok hrename hrenameq
  cases hnames
  cases hecho'.eq_of_versioned fun v hv => hverq.versioned hgq hrq hv
  exact ⟨_, _, names', g', hplace.run, hplaceq.run, hrename, hrenameq, hver.wellFormed hg,
    Graph.checkVersions_iff.mpr fun v hv => hver.versioned hg hr hv, hecho'.left⟩

end Ssa

/-! ### The whole conversion -/

namespace Routine

open FlowGraph.Graph (sameOutline_erase erase_keeping)

variable {r q : Routine} {keep : BlockId → Bool}

/-- **Pruning** leaves the same with and without versions. -/
theorem exists_prune_erase (hg : r.graph.WellFormed) (hp : r.graph.PhiFree)
    (hq : q.graph = r.graph.erase)
    (hkeep : ∀ b, keep b = true ↔ b = Graph.exit ∨ r.graph.Reachable b) :
    ∃ r₁ q₁, r.prune.outcome = .ok r₁ ∧ q.prune.outcome = .ok q₁ ∧ r₁.names = r.names ∧
      q₁.names = q.names ∧ r₁.graph = r.graph.keeping keep ∧ q₁.graph = r₁.graph.erase := by
  have hgq : q.graph.WellFormed := hq ▸ hg.erase hp
  have hpq : q.graph.PhiFree := hq ▸ hp.erase
  have hkeepq : ∀ b, keep b = true ↔ b = Graph.exit ∨ q.graph.Reachable b := by
    intro b
    rw [hkeep, hq]
    exact or_congr_right (exists_congr fun p => (sameOutline_erase r.graph).route_iff.symm)
  obtain ⟨r₁, hprune, hnames, hr₁⟩ := r.exists_prune hg hp
  obtain ⟨q₁, hpruneq, hnamesq, hq₁⟩ := q.exists_prune hgq hpq
  rw [hg.foldl_unreachable_eq hp hkeep] at hr₁
  rw [hgq.foldl_unreachable_eq hpq hkeepq, hq, erase_keeping, ← hr₁] at hq₁
  exact ⟨r₁, q₁, hprune, hpruneq, hnames, hnamesq, hr₁, hq₁⟩

/-- **Two conversions** of a graph, with and without versions, from equal names. -/
theorem exists_toSsa_erase (hg : r.graph.WellFormed) (hp : r.graph.PhiFree)
    (hq : q.graph = r.graph.erase)
    (hnames : q.names = r.names)
    (hkeep : ∀ b, keep b = true ↔ b = Graph.exit ∨ r.graph.Reachable b) :
    ∃ r' q', r.toSsa.outcome = .ok r' ∧ q.toSsa.outcome = .ok q' ∧ q'.graph = r'.graph ∧
      q'.names = r'.names ∧ r'.graph.core = r.graph.erase.keeping keep := by
  obtain ⟨r₁, q₁, hprune, hpruneq, hnames₁, hnamesq, hr₁, hq₁⟩ := exists_prune_erase hg hp hq hkeep
  have hres : r.graph.Restricts r₁.graph (· ∈ r.graph.unreachable) := by
    rw [hr₁, ← hg.foldl_unreachable_eq hp hkeep]
    exact hg.listed.foldl_removeBlock _
  obtain ⟨hg₁, -, hreached⟩ := hg.restricts_unreachable hres
  obtain ⟨d, hd, -⟩ := Dominance.ofGraph_spec hg₁
  obtain ⟨s, t, names', g', hplace, hplaceq, hrename, hrenameq, hwf, hversions, hcore⟩ :=
    Ssa.convert_erase hg₁ (hres.phiFree hp) hreached hd r₁.names
  have hdq : Dominance.ofGraph q₁.graph = .ok d := by
    rw [hq₁]
    exact (Dominance.ofGraph_of_outline (sameOutline_erase r₁.graph)).trans hd
  have hsame : q₁.names = r₁.names := by rw [hnamesq, hnames, hnames₁]
  refine ⟨_, _, outcome_toSsa hprune hd hplace hrename hversions hwf,
    outcome_toSsa hpruneq hdq (hq₁ ▸ hplaceq) (hsame ▸ hrenameq) hversions hwf, rfl, rfl, ?_⟩
  rw [erase_keeping, ← hr₁]
  exact hcore

/-- **Conversion into single assignment form changes nothing but versions and phi functions, and
ignores the versions that there are.**  Without versions and phi functions the result is the graph
without versions, of which exactly the blocks that the entry reaches are left, and the exit: they
are where they were, with their lists in order, and do what they did.  And the graph without
versions, converted with the same names at hand, gives the same result, versions included. -/
theorem toSsa_erase (r : Routine) (hg : r.graph.WellFormed) (hp : r.graph.PhiFree) :
    ∃ r' keep, r.toSsa.outcome = .ok r' ∧
      (∀ b, keep b = true ↔ b = Graph.exit ∨ r.graph.Reachable b) ∧
      r'.graph.erase.withoutPhis = r.graph.erase.keeping keep ∧
      ∀ q : Routine, q.graph = r.graph.erase → q.names = r.names →
        ∃ q', q.toSsa.outcome = .ok q' ∧ q'.graph = r'.graph ∧ q'.names = r'.names := by
  have hkeep : ∀ b, (decide (b = Graph.exit) || decide (b ∈ r.graph.reachable)) = true ↔
      b = Graph.exit ∨ r.graph.Reachable b := by
    intro b
    rw [Bool.or_eq_true, decide_eq_true_eq, decide_eq_true_eq, hg.mem_reachable]
  obtain ⟨r', -, hok, -, -, -, hcore⟩ :=
    exists_toSsa_erase (q := { r with graph := r.graph.erase }) hg hp rfl rfl hkeep
  refine ⟨r', _, hok, hkeep, hcore, fun q hq hnames => ?_⟩
  obtain ⟨r'', q', hok', hokq, hgraph, hnames', -⟩ := exists_toSsa_erase hg hp hq hnames hkeep
  cases hok.symm.trans hok'
  exact ⟨q', hokq, hgraph, hnames'⟩

end Routine

/-- The loop of `countdown`, with versions left over from elsewhere. -/
def Graph.recount : Graph where
  name := "countdown"
  blocks := #[
    some { id := ⟨0⟩, kind := .entry, succs := [⟨0⟩] },
    some { id := ⟨1⟩, kind := .exit, preds := [⟨4⟩] },
    some { id := ⟨2⟩, kind := .statement (.assign (.versioned "n" 4) false (.lit (.int 3)))
           preds := [⟨0⟩], succs := [⟨1⟩] },
    some { id := ⟨3⟩, kind := .branch ⟨.plain "n", "more", "done"⟩
           preds := [⟨1⟩, ⟨3⟩, ⟨5⟩], succs := [⟨2⟩, ⟨4⟩] },
    some { id := ⟨4⟩
           kind := .statement (.assign (.versioned "n" 4) false
             (.unary "dec" (.var (.versioned "n" 0))))
           preds := [⟨2⟩], succs := [⟨3⟩] },
    some { id := ⟨5⟩, kind := .statement (.eval (.var (.versioned "n" 2))), succs := [⟨5⟩] }]
  edges := Graph.countdown.edges

theorem Routine.toSsa_erase_recount :
    Graph.recount.WellFormed ∧ Graph.recount.PhiFree ∧ Graph.recount.erase = Graph.countdown ∧
      ∃ r' q' keep, (Routine.mk Graph.recount .new none none).toSsa.outcome = .ok r' ∧
        (Routine.mk Graph.countdown .new none none).toSsa.outcome = .ok q' ∧ q'.graph = r'.graph ∧
        (∀ b, keep b = true ↔ b = Graph.exit ∨ Graph.recount.Reachable b) ∧
        r'.graph.erase.withoutPhis = Graph.countdown.keeping keep := by
  have herase : Graph.recount.erase = Graph.countdown := by decide +kernel
  obtain ⟨r', keep, hok, hkeep, hcore, hsame⟩ :=
    Routine.toSsa_erase (.mk Graph.recount .new none none) (by decide) (by decide)
  obtain ⟨q', hokq, hgraph, -⟩ := hsame (.mk Graph.countdown .new none none) herase.symm rfl
  exact ⟨by decide, by decide, herase, r', q', keep, hok, hokq, hgraph, hkeep, herase ▸ hcore⟩

end FlowGraph
