import FlowGraph.Proofs.ComponentGraph
import FlowGraph.Proofs.Renaming
import Mathlib.Data.List.Iterate
import Mathlib.Dynamics.PeriodicPts.Defs

/-! # Parallel copies in sequence do the same

At once, copies give every variable the value of its `origin`.  The graph of copies leads from a
variable to its origin, so its components are single variables and cycles of `origin`.  In the order
of the schedule, a variable outside the cycles is written before the one that it reads, and a cycle
is turned through a fresh temporary (`copiesOf_spec`).  So the sequence leaves in every variable
what the parallel copies leave there, the new temporaries apart (`schedule_spec`).
-/
namespace FlowGraph

/-! ### Graphs on values -/

namespace NamedGraph

variable {α : Type} [DecidableEq α] {g : NamedGraph α}

omit [DecidableEq α] in
theorem sound_empty : (empty : NamedGraph α).Sound where
  nodup := .nil
  size_eq := rfl
  closed := fun v w h => by simp [empty] at h

omit [DecidableEq α] in
/-- More values do not change what is at the positions of a graph. -/
theorem valuesAt_append (hg : g.Sound) (more : List α) (graph : Digraph) {vs : List Nat}
    (hvs : ∀ v ∈ vs, v < g.graph.size) :
    (⟨g.names ++ more, graph⟩ : NamedGraph α).valuesAt vs = g.valuesAt vs := by
  refine List.filterMap_congr fun v hv => ?_
  have := hvs v hv
  rw [hg.size_eq] at this
  exact List.getElem?_append_left this

theorem next_of_notMem (hg : g.Sound) {a : α} (ha : a ∉ g.names) : g.next a = [] :=
  List.eq_nil_iff_forall_not_mem.mpr fun _ hb => ha (hg.mem_names_of_next hb).1

theorem mem_names_addNode {a b : α} : b ∈ (g.addNode a).names ↔ b ∈ g.names ∨ b = a := by
  rw [addNode]
  split
  · rename_i ha
    exact ⟨.inl, fun h => h.elim id fun h => h ▸ ha⟩
  · rw [List.mem_append, List.mem_singleton]

theorem Sound.addNode (hg : g.Sound) (a : α) : (g.addNode a).Sound := by
  rw [NamedGraph.addNode]
  split
  · exact hg
  · rename_i ha
    have hsize : (g.graph.grow g.names.length).size = g.names.length + 1 := by
      rw [Digraph.size_grow, hg.size_eq]
      exact Nat.max_eq_right (Nat.le_succ _)
    refine ⟨?_, ?_, fun v w hedge => ?_⟩
    · exact List.nodup_append.mpr ⟨hg.nodup, List.nodup_singleton a,
        fun x hx y hy => by rintro rfl; exact ha (List.mem_singleton.mp hy ▸ hx)⟩
    · rw [hsize, List.length_append, List.length_singleton]
    · rw [Digraph.successors_grow] at hedge
      rw [hsize, ← hg.size_eq]
      exact Nat.lt_succ_of_lt (hg.closed hedge)

theorem next_addNode (hg : g.Sound) (a b : α) : (g.addNode a).next b = g.next b := by
  rw [addNode]
  split
  · rfl
  · by_cases hb : b ∈ g.names
    · simp only [next, List.idxOf_append_of_mem hb, Digraph.successors_grow]
      exact valuesAt_append hg _ _ fun _ hv => hg.closed hv
    · have hpos : g.names.length ≤ (g.names ++ [a]).idxOf b := by
        rw [List.idxOf_append_of_notMem hb]
        exact Nat.le_add_right ..
      have hnone : g.graph.successors ((g.names ++ [a]).idxOf b) = [] :=
        List.eq_nil_iff_forall_not_mem.mpr fun _ hw =>
          absurd (Digraph.lt_size_of_successor hw) (by rw [hg.size_eq]; omega)
      rw [next_of_notMem hg hb, next, Digraph.successors_grow, hnone]
      rfl

theorem Sound.addEdge (hg : g.Sound) (a b : α) : (g.addEdge a b).Sound ∧
    ∀ c, (g.addEdge a b).next c = if c = a then g.next a ++ [b] else g.next c := by
  have hg' := (hg.addNode a).addNode b
  have hnext : ∀ c, ((g.addNode a).addNode b).next c = g.next c := fun c => by
    rw [next_addNode (hg.addNode a), next_addNode hg]
  have ha : a ∈ ((g.addNode a).addNode b).names :=
    mem_names_addNode.mpr (.inl (mem_names_addNode.mpr (.inr rfl)))
  have hb : b ∈ ((g.addNode a).addNode b).names := mem_names_addNode.mpr (.inr rfl)
  rw [NamedGraph.addEdge]
  revert hg' hnext ha hb
  generalize (g.addNode a).addNode b = h
  intro hg' hnext ha hb
  have ha' := getElem?_idxOf ha
  have hb' := getElem?_idxOf hb
  have hsize : (h.graph.addEdge (h.names.idxOf a) (h.names.idxOf b)).size = h.graph.size := by
    rw [Digraph.size_addEdge, Nat.max_eq_left (hg'.lt_size ha'), Nat.max_eq_left (hg'.lt_size hb')]
  refine ⟨⟨hg'.nodup, hsize.trans hg'.size_eq, fun v w hedge => ?_⟩, fun c => ?_⟩
  · rw [hsize]
    rw [Digraph.successors_addEdge] at hedge
    split at hedge
    · rcases List.mem_append.mp hedge with hedge | hedge
      · exact hg'.closed hedge
      · exact List.mem_singleton.mp hedge ▸ hg'.lt_size hb'
    · exact hg'.closed hedge
  · rw [← hnext a, ← hnext c]
    simp only [next, Digraph.successors_addEdge]
    by_cases hc : c = a
    · subst hc
      rw [if_pos rfl, if_pos rfl]
      simp only [valuesAt, List.filterMap_append, List.filterMap_cons, hb', List.filterMap_nil]
    · have hne : h.names.idxOf c ≠ h.names.idxOf a := fun heq =>
        hc ((List.idxOf_inj ha).mp heq.symm).symm
      simp only [if_neg hc, if_neg hne, valuesAt]

/-- The first successor of a value is the first of its successors. -/
theorem Sound.firstSuccessor?_eq (hg : g.Sound) (a : α) :
    g.firstSuccessor? a = (g.next a).head? := by
  rw [firstSuccessor?, index?]
  cases hi : g.names.idxOf? a with
  | none =>
    rw [next_of_notMem hg (List.idxOf?_eq_none_iff.mp hi)]
    rfl
  | some v =>
    obtain ⟨hv, ha, -⟩ := List.idxOf?_eq_some_iff.mp hi
    rw [next, hg.idxOf_eq (List.getElem?_eq_some_iff.mpr ⟨hv, ha⟩)]
    cases hs : g.graph.successors v with
    | nil => simp [hs, valuesAt]
    | cons w ws =>
      have hw : w < g.names.length :=
        hg.size_eq ▸ hg.closed (by rw [hs]; exact List.mem_cons_self ..)
      simp [hs, valuesAt, List.getElem?_eq_getElem hw]

end NamedGraph

/-! ### Temporaries -/

namespace NameSupply

variable {names names' names'' : NameSupply} {v : Var}

/-- **The temporaries that a supply has not handed out yet.** -/
def Unused (names : NameSupply) (v : Var) : Prop :=
  ∃ n, v = .versioned temporaryName n ∧ names.lastVersion temporaryName < n

/-- **The temporaries that were handed out** between two states of a supply. -/
def HandedOut (names names' : NameSupply) (v : Var) : Prop := names.Unused v ∧ ¬ names'.Unused v

/-- No temporary is handed out twice. -/
def Later (names names' : NameSupply) : Prop := ∀ v, names'.Unused v → names.Unused v

theorem Later.refl (names : NameSupply) : names.Later names := fun _ => id

theorem Later.trans (h : names.Later names') (h' : names'.Later names'') : names.Later names'' :=
  fun v hv => h v (h' v hv)

theorem HandedOut.first (h' : names'.Later names'') (hv : names.HandedOut names' v) :
    names.HandedOut names'' v := ⟨hv.1, fun hu => hv.2 (h' v hu)⟩

theorem HandedOut.second (h : names.Later names') (hv : names'.HandedOut names'' v) :
    names.HandedOut names'' v := ⟨h v hv.1, hv.2⟩

theorem not_handedOut_of_used (h : ¬ names.Unused v) :
    ¬ names.HandedOut names' v := fun hv => h hv.1

theorem lastVersion_freshTemporary (names : NameSupply) :
    names.freshTemporary.2.lastVersion temporaryName = names.lastVersion temporaryName + 1 := by
  rw [freshTemporary]
  exact (lastVersion_freshVersion ..).trans (if_pos rfl)

/-- What is no temporary, or one of a version that was handed out, is no unused temporary. -/
theorem not_unused_iff : ¬ names.Unused v ↔
    (v.name = temporaryName → ∀ n ∈ v.version, n ≤ names.lastVersion temporaryName) := by
  constructor
  · intro h hname n hn
    refine Nat.le_of_not_lt fun hlt => h ⟨n, ?_, hlt⟩
    rw [Var.versioned, ← hname, ← hn]
  · rintro h ⟨n, rfl, hlt⟩
    exact absurd (h rfl n rfl) (Nat.not_le_of_lt hlt)

theorem handedOut_iff : names.HandedOut names' v ↔
    ∃ n, v = .versioned temporaryName n ∧ names.lastVersion temporaryName < n ∧
      n ≤ names'.lastVersion temporaryName := by
  constructor
  · rintro ⟨⟨n, rfl, hlt⟩, hnot⟩
    exact ⟨n, rfl, hlt, not_unused_iff.mp hnot rfl n rfl⟩
  · rintro ⟨n, rfl, hlt, hle⟩
    refine ⟨⟨n, rfl, hlt⟩, not_unused_iff.mpr fun _ m hm => ?_⟩
    cases hm
    exact hle

/-- What a fresh temporary is. -/
theorem freshTemporary_spec (names : NameSupply) :
    names.Later names.freshTemporary.2 ∧
      ∀ v, names.HandedOut names.freshTemporary.2 v ↔ v = names.freshTemporary.1 := by
  have hlast := names.lastVersion_freshTemporary
  refine ⟨fun v => ?_, fun v => ?_⟩
  · rintro ⟨n, rfl, hn⟩
    exact ⟨n, rfl, by omega⟩
  · rw [handedOut_iff, hlast]
    constructor
    · rintro ⟨n, rfl, hlt, hle⟩
      rw [Nat.le_antisymm hle hlt]
      rfl
    · rintro rfl
      exact ⟨_, rfl, Nat.lt_succ_self _, Nat.le_refl _⟩

end NameSupply

namespace Ssa

variable {copies : List Copy}

/-! ### The graph of copies -/

/-- The variable whose value a variable gets by copies that happen at once. -/
def origin (copies : List Copy) (v : Var) : Var :=
  ((copies.find? (·.dst = v)).map Copy.src).getD v

theorem atOnce_apply {V : Type} (copies : List Copy) (σ : Store V) (v : Var) :
    atOnce copies σ v = σ (origin copies v) := by
  rw [atOnce, origin]
  cases copies.find? (·.dst = v) <;> rfl

theorem origin_cons (c : Copy) (cs : List Copy) (v : Var) :
    origin (c :: cs) v = if c.dst = v then c.src else origin cs v := by
  rw [origin, List.find?_cons]
  by_cases h : c.dst = v <;> simp [h, origin]

/-- A variable that is no destination keeps its value. -/
theorem origin_of_notMem {v : Var} (h : v ∉ copies.map Copy.dst) : origin copies v = v := by
  have : copies.find? (·.dst = v) = none := List.find?_eq_none.mpr fun c hc hv =>
    h (List.mem_map.mpr ⟨c, hc, of_decide_eq_true hv⟩)
  rw [origin, this]
  rfl

theorem mem_of_origin_ne {v : Var} (h : origin copies v ≠ v) : ⟨v, origin copies v⟩ ∈ copies := by
  rw [origin] at h ⊢
  cases hf : copies.find? (·.dst = v) with
  | none => simp [hf] at h
  | some c =>
    have hin := List.mem_of_find?_eq_some hf
    obtain rfl : c.dst = v := by simpa using List.find?_some hf
    exact hin

theorem foldl_addCopy (cs : List Copy) (g : NamedGraph Var) (hdst : (cs.map Copy.dst).Nodup)
    (hg : g.Sound) (hnew : ∀ v ∈ cs.map Copy.dst, g.next v = []) :
    (cs.foldl addCopy g).Sound ∧ ∀ v, (cs.foldl addCopy g).next v =
      if origin cs v = v then g.next v else [origin cs v] := by
  induction cs generalizing g with
  | nil => exact ⟨hg, fun v => (if_pos rfl).symm⟩
  | cons c cs ih =>
    obtain ⟨hnot, hdst⟩ := List.nodup_cons.mp hdst
    obtain ⟨hc, hnew⟩ := List.forall_mem_cons.mp hnew
    have hcs : origin cs c.dst = c.dst := origin_of_notMem hnot
    rw [List.foldl_cons, addCopy]
    split
    · rename_i hself
      obtain ⟨hs, hn⟩ := ih g hdst hg hnew
      refine ⟨hs, fun v => ?_⟩
      rw [hn, origin_cons]
      by_cases hv : c.dst = v
      · subst hv
        rw [if_pos hcs, if_pos rfl, if_pos hself.symm]
      · rw [if_neg hv]
    · rename_i hne
      obtain ⟨hg', hnext⟩ := hg.addEdge c.dst c.src
      obtain ⟨hs, hn⟩ := ih _ hdst hg' fun v hv => by
        have hv' : v ≠ c.dst := fun h => hnot (h ▸ hv)
        rw [hnext, if_neg hv', hnew v hv]
      refine ⟨hs, fun v => ?_⟩
      rw [hn, hnext, origin_cons]
      by_cases hv : c.dst = v
      · subst hv
        rw [if_pos hcs, if_pos rfl, if_pos rfl, if_neg (Ne.symm hne), hc]
        rfl
      · rw [if_neg (Ne.symm hv), if_neg hv]

variable (hdst : (copies.map Copy.dst).Nodup)
include hdst

/-- The graph of copies leads from each variable to its origin, if that is another one. -/
theorem copyGraph_spec : (copyGraph copies).Sound ∧ ∀ v, (copyGraph copies).next v =
    if origin copies v = v then [] else [origin copies v] := by
  have hempty : ∀ v, (.empty : NamedGraph Var).next v = [] := fun v =>
    NamedGraph.next_of_notMem NamedGraph.sound_empty List.not_mem_nil
  obtain ⟨hs, hn⟩ := foldl_addCopy copies .empty hdst NamedGraph.sound_empty fun v _ => hempty v
  exact ⟨hs, fun v => (hn v).trans (by rw [hempty])⟩

theorem origin_mem_next {v : Var} (h : origin copies v ≠ v) :
    origin copies v ∈ (copyGraph copies).next v := by
  rw [(copyGraph_spec hdst).2, if_neg h]
  exact List.mem_singleton.mpr rfl

theorem mem_names_of_origin_ne {v : Var} (h : origin copies v ≠ v) : v ∈ (copyGraph copies).names :=
  ((copyGraph_spec hdst).1.mem_names_of_next (origin_mem_next hdst h)).1

theorem firstSuccessor?_copyGraph (v : Var) : (copyGraph copies).firstSuccessor? v =
    if origin copies v = v then none else some (origin copies v) := by
  obtain ⟨hs, hn⟩ := copyGraph_spec hdst
  rw [hs.firstSuccessor?_eq, hn]
  split <;> rfl

/-- Ways in the graph of copies are iterations of `origin`. -/
theorem reaches_copyGraph {a b : Var} :
    DepthFirst.Reaches (copyGraph copies).next a b ↔ ∃ n, (origin copies)^[n] a = b := by
  have hnext := (copyGraph_spec hdst).2
  constructor
  · intro h
    induction h with
    | refl => exact ⟨0, rfl⟩
    | @tail c d _ hedge ih =>
      obtain ⟨n, rfl⟩ := ih
      rw [hnext] at hedge
      split at hedge
      · cases hedge
      · refine ⟨n + 1, ?_⟩
        rw [Function.iterate_succ_apply', List.mem_singleton.mp hedge]
  · rintro ⟨n, rfl⟩
    induction n with
    | zero => exact .refl
    | succ n ih =>
      rw [Function.iterate_succ_apply']
      by_cases hfix : origin copies ((origin copies)^[n] a) = (origin copies)^[n] a
      · rw [hfix]
        exact ih
      · exact ih.tail (origin_mem_next hdst hfix)

/-! ### Cycles -/

/-- **A component of more than one variable is a cycle**: it is the orbit of its first variable. -/
theorem orbit_of_layer {first second : Var} {rest : List Var}
    (hlayer : NamedGraph.IsLayer (copyGraph copies).next (first :: second :: rest)) :
    Function.minimalPeriod (origin copies) first = rest.length + 2 ∧
      ∀ v, v ∈ first :: second :: rest ↔ v ∈ Function.periodicOrbit (origin copies) first := by
  have hnodup := hlayer.nodup
  have htogether := hlayer.mem_iff (List.mem_cons_self ..)
  simp only [reaches_copyGraph hdst] at htogether
  have hperiodic : first ∈ Function.periodicPts (origin copies) := by
    obtain ⟨⟨m, hm⟩, n, hn⟩ := (htogether second).mp (by simp)
    have hpos : 0 < n + m := by
      rcases Nat.eq_zero_or_pos m with rfl | hpos
      · exact absurd (List.mem_cons.mpr (.inl hm)) (List.nodup_cons.mp hnodup).1
      · omega
    refine Function.mk_mem_periodicPts hpos ?_
    rw [Function.IsPeriodicPt, Function.IsFixedPt, Function.iterate_add_apply, hm, hn]
  have hmem : ∀ v, v ∈ first :: second :: rest ↔
      v ∈ Function.periodicOrbit (origin copies) first := by
    intro v
    rw [Function.mem_periodicOrbit_iff hperiodic, htogether]
    refine and_iff_left_of_imp ?_
    rintro ⟨n, rfl⟩
    -- `n` steps lead away from `first`, and the rest of `n` turns leads back.
    have hle := Nat.le_mul_of_pos_right n (Function.minimalPeriod_pos_of_mem_periodicPts hperiodic)
    refine ⟨n * Function.minimalPeriod (origin copies) first - n, ?_⟩
    rw [← Function.iterate_add_apply, Nat.sub_add_cancel hle]
    exact (Function.isPeriodicPt_minimalPeriod ..).const_mul n
  refine ⟨?_, hmem⟩
  have horbit := Function.nodup_periodicOrbit (f := origin copies) (x := first)
  simp only [Function.periodicOrbit_def, Cycle.mem_coe_iff, Cycle.nodup_coe_iff] at hmem horbit
  have hlen := ((List.perm_ext_iff_of_nodup hnodup horbit).mpr hmem).length_eq
  rw [List.length_map, List.length_range] at hlen
  exact hlen.symm

/-- From the first variable of a cycle on, `origin` passes through all of them and comes back. -/
theorem cycle_of_layer {first second : Var} {rest : List Var}
    (hlayer : NamedGraph.IsLayer (copyGraph copies).next (first :: second :: rest)) :
    (∀ v, v ∈ first :: second :: rest ↔ ∃ k ≤ rest.length + 1, (origin copies)^[k] first = v) ∧
      (∀ i ≤ rest.length + 1, ∀ j ≤ rest.length + 1,
        (origin copies)^[i] first = (origin copies)^[j] first → i = j) ∧
      (origin copies)^[rest.length + 2] first = first := by
  obtain ⟨hperiod, hmem⟩ := orbit_of_layer hdst hlayer
  refine ⟨fun v => ?_, ?_, ?_⟩
  · rw [hmem, Function.periodicOrbit_def, Cycle.mem_coe_iff, hperiod]
    simp only [List.mem_map, List.mem_range, Nat.lt_succ_iff]
  · intro i hi j hj h
    refine Function.iterate_injOn_Iio_minimalPeriod ?_ ?_ h <;>
      (rw [hperiod]; exact Nat.lt_succ_of_le ‹_›)
  · rw [← hperiod]
    exact Function.iterate_minimalPeriod

/-! ### The copies of a component -/

/-- **The copies of a turn**, written out. -/
theorem rotate_eq (temporary : Var) {n : Nat} {dst : Var}
    (hmoves : ∀ k < n, (origin copies)^[k + 1] dst ≠ (origin copies)^[k] dst) :
    rotate (copyGraph copies) temporary n dst =
      .ok ((List.iterate (origin copies) dst n).map (fun v => ⟨v, origin copies v⟩) ++
        [⟨(origin copies)^[n] dst, temporary⟩]) := by
  induction n generalizing dst with
  | zero => rfl
  | succ n ih =>
    have hfirst : origin copies dst ≠ dst := hmoves 0 n.succ_pos
    rw [rotate, firstSuccessor?_copyGraph hdst, if_neg hfirst]
    simp only [ih fun k hk => hmoves (k + 1) (Nat.succ_lt_succ hk)]
    rfl

/-- The copy of a component of one variable, unless the variable keeps its value. -/
theorem copiesOf_single (names : NameSupply) (dst : Var) :
    copiesOf (copyGraph copies) names [dst] =
      .ok (([dst].filter fun v => origin copies v ≠ v).map (fun v => ⟨v, origin copies v⟩),
        names) := by
  rw [copiesOf, firstSuccessor?_copyGraph hdst]
  by_cases hfix : origin copies dst = dst
  · simp [hfix]
  · simp [hfix]

/-- The copies of a cycle. -/
theorem copiesOf_long (names : NameSupply) {first second : Var} {rest : List Var}
    (hlayer : NamedGraph.IsLayer (copyGraph copies).next (first :: second :: rest)) :
    copiesOf (copyGraph copies) names (first :: second :: rest) =
      .ok (⟨names.freshTemporary.1, first⟩ ::
        ((List.iterate (origin copies) first (rest.length + 1)).map
            (fun v => ⟨v, origin copies v⟩) ++
          [⟨(origin copies)^[rest.length + 1] first, names.freshTemporary.1⟩]),
        names.freshTemporary.2) := by
  obtain ⟨-, hinj, -⟩ := cycle_of_layer hdst hlayer
  have hmoves : ∀ k < rest.length + 1,
      (origin copies)^[k + 1] first ≠ (origin copies)^[k] first := fun k hk h =>
    absurd (hinj (k + 1) hk k (Nat.le_of_lt hk) h) (Nat.succ_ne_self k)
  simp only [copiesOf, List.length_cons, rotate_eq hdst names.freshTemporary.1 hmoves]
  rfl

omit hdst in
/-- **Copies from the origins**, in an order in which none reads what was written before it. -/
theorem inOrder_origins {vs : List Var} (h : vs.Pairwise fun a b => origin copies b ≠ a) {V : Type}
    (σ : Store V) (v : Var) : inOrder (vs.map fun v => ⟨v, origin copies v⟩) σ v =
      if v ∈ vs then σ (origin copies v) else σ v := by
  induction vs generalizing σ with
  | nil => rfl
  | cons a vs ih =>
    obtain ⟨hunread, h⟩ := List.pairwise_cons.mp h
    rw [List.map_cons, inOrder_cons, ih h]
    by_cases hin : v ∈ vs
    · rw [if_pos hin, if_pos (List.mem_cons_of_mem _ hin), Store.set_of_ne σ _ (hunread v hin)]
    · rw [if_neg hin]
      by_cases hva : v = a
      · rw [if_pos (hva ▸ List.mem_cons_self ..), hva, Store.set_self]
      · rw [if_neg fun hv => (List.mem_cons.mp hv).elim hva hin, Store.set_of_ne σ _ hva]

omit hdst in
/-- Around a cycle no variable but the last reads one that comes before it. -/
theorem pairwise_iterate {n : Nat} {first : Var}
    (hinj : ∀ i ≤ n, ∀ j ≤ n, (origin copies)^[i] first = (origin copies)^[j] first → i = j) :
    (List.iterate (origin copies) first n).Pairwise fun a b => origin copies b ≠ a := by
  rw [← List.range_map_iterate, List.pairwise_map]
  refine List.pairwise_lt_range.imp_of_mem fun {i j} _ hj hij h => ?_
  have hj := List.mem_range.mp hj
  have heq := hinj (j + 1) hj i (by omega) ((Function.iterate_succ_apply' ..).trans h)
  omega

omit hdst in
theorem inOrder_append {V : Type} (cs ds : List Copy) (σ : Store V) :
    inOrder (cs ++ ds) σ = inOrder ds (inOrder cs σ) := List.foldl_append

omit hdst in
/-- **A turn of a cycle** through a temporary gives each of its variables the value of its origin.
-/
theorem inOrder_turn {temporary first : Var} {n : Nat}
    (hinj : ∀ i ≤ n, ∀ j ≤ n, (origin copies)^[i] first = (origin copies)^[j] first → i = j)
    (hback : (origin copies)^[n + 1] first = first)
    (htemp : ∀ k ≤ n, (origin copies)^[k] first ≠ temporary) {V : Type} (σ : Store V) {v : Var}
    (hv : v ≠ temporary) :
    inOrder (⟨temporary, first⟩ ::
        ((List.iterate (origin copies) first n).map (fun v => ⟨v, origin copies v⟩) ++
          [⟨(origin copies)^[n] first, temporary⟩])) σ v =
      if ∃ k ≤ n, (origin copies)^[k] first = v then σ (origin copies v) else σ v := by
  have hpairwise := pairwise_iterate hinj
  rw [inOrder_cons, inOrder_append, inOrder_cons, inOrder_nil]
  by_cases hlast : v = (origin copies)^[n] first
  · -- The last variable gets the value of the first by way of the temporary.
    have hunwritten : temporary ∉ List.iterate (origin copies) first n := fun hin => by
      obtain ⟨k, hk, h⟩ := List.mem_iterate.mp hin
      exact htemp k (Nat.le_of_lt hk) h.symm
    rw [hlast, if_pos ⟨n, Nat.le_refl n, rfl⟩, Store.set_self, inOrder_origins hpairwise,
      if_neg hunwritten, Store.set_self, ← Function.iterate_succ_apply' (origin copies), hback]
  · rw [Store.set_of_ne _ _ hlast, inOrder_origins hpairwise]
    by_cases hin : v ∈ List.iterate (origin copies) first n
    · obtain ⟨k, hk, rfl⟩ := List.mem_iterate.mp hin
      rw [if_pos hin, if_pos ⟨k, Nat.le_of_lt hk, rfl⟩,
        ← Function.iterate_succ_apply' (origin copies), Store.set_of_ne σ _ (htemp (k + 1) hk)]
    · have hout : ¬ ∃ k ≤ n, (origin copies)^[k] first = v := by
        rintro ⟨k, hk, rfl⟩
        rcases Nat.lt_or_eq_of_le hk with hlt | rfl
        · exact hin (List.mem_iterate.mpr ⟨k, hlt, rfl⟩)
        · exact hlast rfl
      rw [if_neg hin, if_neg hout, Store.set_of_ne σ _ hv]

/-- **The copies of one component** give each of its variables the value of its origin. -/
theorem copiesOf_spec {names : NameSupply} {layer : List Var}
    (hlayer : NamedGraph.IsLayer (copyGraph copies).next layer)
    (hold : ∀ c ∈ copies, ¬ names.Unused c.dst) :
    ∃ more names', copiesOf (copyGraph copies) names layer = .ok (more, names') ∧
      names.Later names' ∧ ∀ {V : Type} (σ : Store V) (v : Var), ¬ names.HandedOut names' v →
        inOrder more σ v = if v ∈ layer then σ (origin copies v) else σ v := by
  obtain ⟨first, rest, rfl⟩ := List.exists_cons_of_ne_nil hlayer.nonempty
  cases rest with
  | nil =>
    refine ⟨_, names, copiesOf_single hdst names first, .refl _, fun σ v _ => ?_⟩
    rw [inOrder_origins ((List.pairwise_singleton ..).filter _)]
    by_cases hfix : origin copies v = v
    · simp [hfix]
    · simp [hfix]
  | cons second rest => ?_
  obtain ⟨hmem, hinj, hback⟩ := cycle_of_layer hdst hlayer
  obtain ⟨hlater, hout⟩ := names.freshTemporary_spec
  have htemp : ∀ k ≤ rest.length + 1, (origin copies)^[k] first ≠ names.freshTemporary.1 := by
    intro k hk h
    -- A variable of the cycle is the destination of a copy, which the temporary is not.
    have hmoves : origin copies ((origin copies)^[k] first) ≠ (origin copies)^[k] first := by
      intro hfix
      have hfix := (Function.iterate_succ_apply' (origin copies) k first).trans hfix
      rcases Nat.lt_or_eq_of_le hk with hlt | rfl
      · exact absurd (hinj (k + 1) hlt k hk hfix) (Nat.succ_ne_self k)
      · exact absurd (hinj 0 (Nat.zero_le _) _ hk (hback.symm.trans hfix)) (by omega)
    exact hold _ (mem_of_origin_ne hmoves) ((hout _).mpr h).1
  refine ⟨_, _, copiesOf_long hdst names hlayer, hlater, fun σ v hv => ?_⟩
  rw [inOrder_turn hinj hback htemp σ fun h => hv ((hout v).mpr h)]
  simp only [hmem]

/-- What is in sequence when the components `done` are: their variables have the value of their
origin, and the others are unchanged. -/
structure Sequenced (copies : List Copy) (names : NameSupply) (done : List (List Var))
    (s : List Copy × NameSupply) : Prop where
  later : names.Later s.2
  written : ∀ {V : Type} (σ : Store V) {layer : List Var} {v : Var}, ¬ names.HandedOut s.2 v →
    layer ∈ done → v ∈ layer → inOrder s.1 σ v = σ (origin copies v)
  kept : ∀ {V : Type} (σ : Store V) {v : Var}, ¬ names.HandedOut s.2 v →
    (∀ layer ∈ done, v ∉ layer) → inOrder s.1 σ v = σ v

/-- One more component. -/
theorem Sequenced.append {names : NameSupply} {done todo : List (List Var)} {layer : List Var}
    {s : List Copy × NameSupply} (h : Sequenced copies names done s)
    (hsplit : (copyGraph copies).components.names = todo ++ layer :: done.reverse)
    (hold : ∀ c ∈ copies, ¬ names.Unused c.dst ∧ ¬ names.Unused c.src) :
    ∃ s', appendCopies (copyGraph copies) s layer = .ok s' ∧
      Sequenced copies names (done ++ [layer]) s' := by
  have hlayers := (copyGraph_spec hdst).1.layered_components
  have hin : layer ∈ (copyGraph copies).components.names := by rw [hsplit]; simp
  obtain ⟨cs, names₁⟩ := s
  obtain ⟨more, names₂, hmore, hlater, hspec⟩ := copiesOf_spec hdst (hlayers.isLayer hin)
    fun c hc hu => (hold c hc).1 (h.later _ hu)
  -- What a variable of the component reads was not written yet.
  have hlow : ∀ v ∈ layer, ∀ other ∈ done, origin copies v ∉ other := by
    intro v hv other hother hvo
    have hdisjoint := hlayers.disjoint
    rw [hsplit, List.pairwise_append, List.pairwise_cons] at hdisjoint
    have hother := List.mem_reverse.mpr hother
    by_cases hfix : origin copies v = v
    · exact hdisjoint.2.1.1 other hother hv (hfix ▸ hvo)
    · rcases hlayers.before hsplit hv (origin_mem_next hdst hfix) with hin | ⟨low, hlow, hin⟩
      · exact hdisjoint.2.1.1 other hother hin hvo
      · exact hdisjoint.2.2 low hlow other (List.mem_cons_of_mem _ hother) hin hvo
  have horigin : ∀ {v}, ¬ names.HandedOut names₁ v →
      ¬ names.HandedOut names₁ (origin copies v) := by
    intro v hv
    by_cases hfix : origin copies v = v
    · rwa [hfix]
    · exact NameSupply.not_handedOut_of_used (hold _ (mem_of_origin_ne hfix)).2
  refine ⟨(cs ++ more, names₂), ?_, h.later.trans hlater, fun σ other v hv hother hvo => ?_,
    fun σ v hv hnot => ?_⟩
  · simp only [appendCopies, hmore]
    rfl
  · have hfirst := fun hh => hv (NameSupply.HandedOut.first hlater hh)
    rw [inOrder_append, hspec _ v fun hh => hv (NameSupply.HandedOut.second h.later hh)]
    split
    · rename_i hvl
      exact h.kept σ (horigin hfirst) (hlow v hvl)
    · rename_i hvl
      refine h.written σ hfirst ((List.mem_append.mp hother).resolve_right fun hl => hvl ?_) hvo
      exact List.mem_singleton.mp hl ▸ hvo
  · have hvl : v ∉ layer := hnot layer (List.mem_append_right _ (List.mem_singleton.mpr rfl))
    rw [inOrder_append, hspec _ v fun hh => hv (NameSupply.HandedOut.second h.later hh), if_neg hvl]
    exact h.kept σ (fun hh => hv (NameSupply.HandedOut.first hlater hh))
      fun other hother => hnot other (List.mem_append_left _ hother)

theorem foldlM_appendCopies {names : NameSupply} {todo done : List (List Var)}
    {s : List Copy × NameSupply} (h : Sequenced copies names done s)
    (hsplit : (copyGraph copies).components.names.reverse = done ++ todo)
    (hold : ∀ c ∈ copies, ¬ names.Unused c.dst ∧ ¬ names.Unused c.src) :
    ∃ s', todo.foldlM (appendCopies (copyGraph copies)) s = .ok s' ∧
      Sequenced copies names (done ++ todo) s' := by
  induction todo generalizing done s with
  | nil => exact ⟨s, rfl, by rwa [List.append_nil]⟩
  | cons layer todo ih =>
    have hback : (copyGraph copies).components.names = todo.reverse ++ layer :: done.reverse := by
      rw [← List.reverse_reverse (copyGraph copies).components.names, hsplit]
      simp
    obtain ⟨s₁, hs₁, h₁⟩ := h.append hdst hback hold
    obtain ⟨s₂, hs₂, h₂⟩ := ih h₁ (by rw [hsplit, List.append_assoc]; rfl)
    refine ⟨s₂, ?_, by rwa [List.append_assoc] at h₂⟩
    rw [List.foldlM_cons, hs₁]
    exact hs₂

/-- The components are in order already, so the schedule takes them from the last one to the first.
-/
theorem schedule_eq (names : NameSupply) : schedule copies names =
    (copyGraph copies).components.names.reverse.foldlM (appendCopies (copyGraph copies))
    ([], names) := by
  rw [schedule, (copyGraph_spec hdst).1.inverseOrder_components]

/-- **Putting parallel copies in sequence succeeds, and the sequence does what the copies do at
once**, apart from the temporaries that it takes. -/
theorem schedule_spec {names : NameSupply}
    (hold : ∀ c ∈ copies, ¬ names.Unused c.dst ∧ ¬ names.Unused c.src) :
    ∃ cs names', schedule copies names = .ok (cs, names') ∧ names.Later names' ∧
      ∀ {V : Type} (σ : Store V) (v : Var), ¬ names.HandedOut names' v →
        inOrder cs σ v = atOnce copies σ v := by
  have hstart : Sequenced copies names [] ([], names) :=
    ⟨.refl _, fun _ _ _ _ h => (List.not_mem_nil h).elim, fun _ _ _ _ => rfl⟩
  obtain ⟨⟨cs, names'⟩, hcs, hseq⟩ := foldlM_appendCopies hdst hstart (List.nil_append _).symm hold
  refine ⟨cs, names', (schedule_eq hdst names).trans hcs, hseq.later, fun σ v hv => ?_⟩
  rw [atOnce_apply]
  by_cases hin : ∃ layer ∈ (copyGraph copies).components.names, v ∈ layer
  · obtain ⟨layer, hlayer, hvl⟩ := hin
    exact hseq.written σ hv (List.mem_reverse.mpr hlayer) hvl
  · have hfix : origin copies v = v := by
      by_contra hmoves
      have hlayers := (copyGraph_spec hdst).1.layered_components
      exact hin ((hlayers.mem_iff v).mp (mem_names_of_origin_ne hdst hmoves))
    rw [hfix]
    exact hseq.kept σ hv fun layer hlayer hvl => hin ⟨layer, List.mem_reverse.mp hlayer, hvl⟩

end Ssa
end FlowGraph
