import FlowGraph.Proofs.Schedule
import Mathlib.Data.Set.Card

/-! # The turns of parallel copies

Among parallel copies there can be cycles: variables each of which gets the value of the next one
(`IsCycle`).  They are the orbits of `origin` of two or more variables, and so are the components of
two or more variables in the graph of copies (`orbit_spec`, `mem_orbits`).  The sequence for a list
of components is made of their copies, but in each cycle one copy goes through the next temporary
(`Turned`).  For all components together, this is what the parallel assignment takes besides its own
copies: a temporary of its own, and one more copy, for each cycle (`schedule_parallel`).
-/
namespace FlowGraph
namespace Ssa

variable {copies : List Copy}

/-! ### Cycles of copies -/

/-- **A cycle of copies**: two or more variables, each of which gets the value of the next. -/
structure IsCycle (copies : List Copy) (c : Cycle Var) : Prop where
  nodup : c.Nodup
  two_le : 2 ≤ c.length
  chain : c.Chain fun dst src => ⟨dst, src⟩ ∈ copies

theorem eq_iterate_of_isChain {α : Type} {f : α → α} {a : α} {l : List α}
    (h : (a :: l).IsChain fun x y => f x = y) : a :: l = List.iterate f a (l.length + 1) := by
  induction l generalizing a with
  | nil => rfl
  | cons b l ih =>
    obtain ⟨rfl, hrest⟩ := List.isChain_cons_cons.mp h
    exact congrArg (a :: ·) (ih hrest)

/-- A cycle on which a function leads from each value to the next is an orbit of it. -/
theorem exists_periodicOrbit {α : Type} {f : α → α} {c : Cycle α} (hne : c ≠ Cycle.nil)
    (hnodup : c.Nodup) (hchain : c.Chain fun x y => f x = y) :
    ∃ a, Function.periodicOrbit f a = c := by
  induction c using Cycle.induction_on with
  | nil => exact absurd rfl hne
  | cons a l =>
    have hiterate := eq_iterate_of_isChain ((Cycle.chain_coe_cons _ a l).mp hchain)
    rw [List.length_append, List.length_singleton, List.iterate_add, ← List.cons_append] at hiterate
    obtain ⟨hlist, hback⟩ := List.append_inj hiterate (by simp)
    have hperiodic : Function.IsPeriodicPt f (l.length + 1) a := (List.cons.inj hback).1.symm
    have hle := hperiodic.minimalPeriod_le (Nat.succ_pos _)
    have hpos := hperiodic.minimalPeriod_pos (Nat.succ_pos _)
    have hperiod : Function.minimalPeriod f a = l.length + 1 := by
      refine Nat.le_antisymm hle (Nat.le_of_not_lt fun hlt => ?_)
      -- otherwise `a` stands twice in the list
      have hnot := (List.nodup_cons.mp (Cycle.nodup_coe_iff.mp hnodup)).1
      rw [(List.cons.inj hlist).2, List.mem_iterate] at hnot
      refine hnot ⟨Function.minimalPeriod f a - 1, by omega, ?_⟩
      rw [← Function.iterate_succ_apply, Nat.succ_eq_add_one, Nat.sub_add_cancel hpos,
        Function.iterate_minimalPeriod]
    refine ⟨a, ?_⟩
    rw [Function.periodicOrbit_def, hperiod, List.range_map_iterate, hlist]

/-- An orbit of two or more values holds no fixed point. -/
theorem apply_ne_of_mem_periodicOrbit {α : Type} {f : α → α} {a b : α}
    (htwo : 2 ≤ (Function.periodicOrbit f a).length) (hb : b ∈ Function.periodicOrbit f a) :
    f b ≠ b := by
  intro hfix
  rw [Function.periodicOrbit_length] at htwo
  have hperiodic : a ∈ Function.periodicPts f :=
    Function.minimalPeriod_pos_iff_mem_periodicPts.mp (by omega)
  obtain ⟨n, rfl⟩ := (Function.mem_periodicOrbit_iff hperiodic).mp hb
  have hone := Function.minimalPeriod_eq_one_iff_isFixedPt.mpr hfix
  rw [Function.minimalPeriod_apply_iterate hperiodic] at hone
  omega

variable (hdst : (copies.map Copy.dst).Nodup)
include hdst

theorem origin_eq_of_mem {v w : Var} (h : ⟨v, w⟩ ∈ copies) : origin copies v = w := by
  induction copies with
  | nil => cases h
  | cons c cs ih =>
    obtain ⟨hnot, hdst⟩ := List.nodup_cons.mp hdst
    rw [origin_cons]
    rcases List.mem_cons.mp h with rfl | h
    · exact if_pos rfl
    · have hne : c.dst ≠ v := fun heq => hnot (heq ▸ List.mem_map_of_mem h)
      rw [if_neg hne, ih hdst h]

/-- **The cycles of copies are the orbits of `origin`** of two or more variables. -/
theorem isCycle_iff {c : Cycle Var} : IsCycle copies c ↔
    2 ≤ c.length ∧ ∃ v, Function.periodicOrbit (origin copies) v = c := by
  constructor
  · rintro ⟨hnodup, htwo, hchain⟩
    have hne : c ≠ Cycle.nil := by
      rintro rfl
      exact absurd htwo (by decide)
    exact ⟨htwo, exists_periodicOrbit hne hnodup (hchain.imp fun _ _ => origin_eq_of_mem hdst)⟩
  · rintro ⟨htwo, v, rfl⟩
    refine ⟨Function.nodup_periodicOrbit, htwo, (Function.periodicOrbit_chain _).mpr fun n _ => ?_⟩
    have hperiodic : v ∈ Function.periodicPts (origin copies) := by
      rw [Function.periodicOrbit_length] at htwo
      exact Function.minimalPeriod_pos_iff_mem_periodicPts.mp (by omega)
    rw [Function.iterate_succ_apply']
    exact mem_of_origin_ne (apply_ne_of_mem_periodicOrbit htwo
      (Function.iterate_mem_periodicOrbit hperiodic n))

/-! ### Turns -/

/-- **A turn of a cycle**: the cycle, the copy at which it is opened, and the temporary that takes
part in it. -/
structure Turn where
  cycle : Cycle Var
  opened : Copy
  temporary : Var

/-- The copies that a turn has in place of the one at which it opens the cycle. -/
def Turn.through (turn : Turn) : List Copy :=
  [⟨turn.temporary, turn.opened.src⟩, ⟨turn.opened.dst, turn.temporary⟩]

omit hdst in
theorem length_flatMap_through (turns : List Turn) :
    (turns.flatMap Turn.through).length = 2 * turns.length := by
  induction turns with
  | nil => rfl
  | cons turn turns ih =>
    rw [List.flatMap_cons, List.length_append, ih, List.length_cons]
    simp only [Turn.through, List.length_cons, List.length_nil]
    omega

/-- The copies that give the variables of components the value of their origins. -/
def moves (copies : List Copy) (layers : List (List Var)) : List Copy :=
  (layers.flatten.filter fun v => origin copies v ≠ v).map fun v => ⟨v, origin copies v⟩

/-- The cycle of a component, from its first variable on. -/
def orbit (copies : List Copy) : List Var → Cycle Var
  | [] => Cycle.nil
  | first :: rest => List.iterate (origin copies) first (rest.length + 1)

/-- **What the sequence for some components is made of**: their copies, where each component of two
or more variables has one of them replaced by two through the next temporary. -/
structure Turned (copies : List Copy) (layers : List (List Var)) (names : NameSupply)
    (cs : List Copy) (names' : NameSupply) (turns : List Turn) : Prop where
  perm : (cs ++ turns.map Turn.opened).Perm (moves copies layers ++ turns.flatMap Turn.through)
  cycles : turns.map Turn.cycle = (layers.filter fun layer => 2 ≤ layer.length).map (orbit copies)
  opened : ∀ turn ∈ turns, turn.opened ∈ copies ∧ turn.opened.dst ∈ turn.cycle ∧
    turn.opened.src ∈ turn.cycle
  temporaries : turns.map Turn.temporary =
    (List.range' (names.lastVersion NameSupply.temporaryName + 1) turns.length).map
      (.versioned NameSupply.temporaryName)
  lastVersion_eq : names'.lastVersion NameSupply.temporaryName =
    names.lastVersion NameSupply.temporaryName + turns.length

namespace Turned

omit hdst

variable {layers more : List (List Var)} {names names' names'' : NameSupply} {cs ds : List Copy}
  {turns further : List Turn}

theorem nil (copies : List Copy) (names : NameSupply) : Turned copies [] names [] names [] where
  perm := .refl _
  cycles := rfl
  opened := nofun
  temporaries := rfl
  lastVersion_eq := rfl

/-- Sequences one after the other. -/
theorem append (h : Turned copies layers names cs names' turns)
    (h' : Turned copies more names' ds names'' further) :
    Turned copies (layers ++ more) names (cs ++ ds) names'' (turns ++ further) where
  perm := by
    have hmoves : moves copies (layers ++ more) = moves copies layers ++ moves copies more := by
      simp only [moves, List.flatten_append, List.filter_append, List.map_append]
    rw [hmoves, List.map_append, List.flatMap_append]
    refine List.perm_iff_count.mpr fun c => ?_
    have hfirst := h.perm.count_eq c
    have hsecond := h'.perm.count_eq c
    simp only [List.count_append] at hfirst hsecond ⊢
    omega
  cycles := by rw [List.map_append, h.cycles, h'.cycles, List.filter_append, List.map_append]
  opened := fun turn hturn => (List.mem_append.mp hturn).elim (h.opened turn) (h'.opened turn)
  temporaries := by
    rw [List.map_append, h.temporaries, h'.temporaries, h.lastVersion_eq, ← List.map_append,
      List.length_append, ← List.range'_append_1]
    rw [Nat.add_right_comm]
  lastVersion_eq := by
    rw [h'.lastVersion_eq, h.lastVersion_eq, List.length_append, Nat.add_assoc]

end Turned

include hdst

/-- **A component of two or more variables is the orbit of each of them.** -/
theorem orbit_spec {layer : List Var} (htwo : 2 ≤ layer.length)
    (hlayer : NamedGraph.IsLayer (copyGraph copies).next layer) :
    (orbit copies layer).length = layer.length ∧ (∀ v, v ∈ orbit copies layer ↔ v ∈ layer) ∧
      ∀ v ∈ layer, Function.periodicOrbit (origin copies) v = orbit copies layer := by
  match layer with
  | [] => exact absurd htwo (by decide)
  | [_] => exact absurd htwo (Nat.not_succ_le_self 1)
  | first :: second :: rest =>
    obtain ⟨hperiod, hmem⟩ := orbit_of_layer hdst hlayer
    have horbit : orbit copies (first :: second :: rest) =
        Function.periodicOrbit (origin copies) first := by
      rw [Function.periodicOrbit_def, hperiod, List.range_map_iterate]
      rfl
    have hperiodic : first ∈ Function.periodicPts (origin copies) :=
      Function.minimalPeriod_pos_iff_mem_periodicPts.mp (by omega)
    rw [horbit]
    refine ⟨Function.periodicOrbit_length.trans hperiod, fun v => (hmem v).symm, fun v hv => ?_⟩
    obtain ⟨n, rfl⟩ := (Function.mem_periodicOrbit_iff hperiodic).mp ((hmem v).mp hv)
    exact Function.periodicOrbit_apply_iterate_eq hperiodic n

/-- The copies of a cycle that happen at once. -/
theorem moves_of_layer {first second : Var} {rest : List Var}
    (hlayer : NamedGraph.IsLayer (copyGraph copies).next (first :: second :: rest)) :
    (moves copies [first :: second :: rest]).Perm
      ((List.iterate (origin copies) first (rest.length + 1)).map (fun v => ⟨v, origin copies v⟩) ++
        [⟨(origin copies)^[rest.length + 1] first, first⟩]) := by
  have htwo : 2 ≤ (first :: second :: rest).length := Nat.le_add_left ..
  obtain ⟨hlen, hmem, horbit⟩ := orbit_spec hdst htwo hlayer
  obtain ⟨-, -, hback⟩ := cycle_of_layer hdst hlayer
  have hfirst := horbit first (List.mem_cons_self ..)
  have hmoves : ∀ v ∈ first :: second :: rest, decide (origin copies v ≠ v) = true := fun v hv =>
    decide_eq_true (apply_ne_of_mem_periodicOrbit (by rw [hfirst, hlen]; exact htwo)
      (hfirst ▸ (hmem v).mpr hv))
  have hperm : (first :: second :: rest).Perm
      (List.iterate (origin copies) first (rest.length + 1 + 1)) := by
    have hnodup' : (orbit copies (first :: second :: rest)).Nodup :=
      hfirst ▸ Function.nodup_periodicOrbit
    exact (List.perm_ext_iff_of_nodup hlayer.nodup (Cycle.nodup_coe_iff.mp hnodup')).mpr
      fun v => (hmem v).symm
  have hlast : origin copies ((origin copies)^[rest.length + 1] first) = first :=
    (Function.iterate_succ_apply' ..).symm.trans hback
  rw [moves, List.flatten_singleton, List.filter_eq_self.mpr hmoves]
  refine (hperm.map _).trans (.of_eq ?_)
  rw [List.iterate_add (origin copies) first (rest.length + 1) 1, List.map_append]
  simp only [List.iterate, List.map_cons, List.map_nil, hlast]

/-- **The copies of one component.** -/
theorem turned_copiesOf {layer : List Var}
    (hlayer : NamedGraph.IsLayer (copyGraph copies).next layer) (names : NameSupply) :
    ∃ cs names' turns, copiesOf (copyGraph copies) names layer = .ok (cs, names') ∧
      Turned copies [layer] names cs names' turns := by
  match layer with
  | [] => exact absurd rfl hlayer.nonempty
  | [dst] =>
    exact ⟨_, _, [], copiesOf_single hdst names dst, ⟨.refl _, rfl, nofun, rfl, rfl⟩⟩
  | first :: second :: rest =>
    obtain ⟨-, hmem, -⟩ := orbit_spec hdst (Nat.le_add_left ..) hlayer
    have hmoves := moves_of_layer hdst hlayer
    let last := (origin copies)^[rest.length + 1] first
    -- the cycle is opened at the copy of its first variable
    have hopened : ⟨last, first⟩ ∈ moves copies [first :: second :: rest] :=
      hmoves.mem_iff.mpr (List.mem_append_right _ (List.mem_singleton.mpr rfl))
    obtain ⟨v, hv, heq⟩ := List.mem_map.mp hopened
    obtain ⟨hv, hne⟩ := List.mem_filter.mp hv
    obtain ⟨rfl, hsrc⟩ := Copy.mk.inj heq
    let turn : Turn :=
      ⟨orbit copies (first :: second :: rest), ⟨last, first⟩, names.freshTemporary.1⟩
    refine ⟨_, _, [turn], copiesOf_long hdst names hlayer, ?_, rfl,
      ?_, rfl, names.lastVersion_freshTemporary⟩
    · refine List.perm_iff_count.mpr fun c => ?_
      have hmoves := hmoves.count_eq c
      simp only [turn, last, Turn.through, List.count_append, List.map_cons, List.map_nil,
        List.flatMap_cons, List.flatMap_nil, List.count_cons, List.count_nil] at hmoves ⊢
      omega
    · intro t ht
      obtain rfl := List.mem_singleton.mp ht
      rw [List.flatten_singleton] at hv
      refine ⟨?_, (hmem last).mpr hv, (hmem first).mpr (List.mem_cons_self ..)⟩
      have hin := mem_of_origin_ne (of_decide_eq_true hne)
      rwa [hsrc] at hin

/-- **The copies of components** in sequence. -/
theorem turned_foldlM {layers todo : List (List Var)}
    (hlayers : NamedGraph.Layered (copyGraph copies).next (copyGraph copies).names layers)
    (hall : ∀ layer ∈ todo, layer ∈ layers) (done : List Copy) (names : NameSupply) :
    ∃ cs names' turns, todo.foldlM (appendCopies (copyGraph copies)) (done, names) =
      .ok (done ++ cs, names') ∧ Turned copies todo names cs names' turns := by
  induction todo generalizing done names with
  | nil => exact ⟨[], names, [], by rw [List.append_nil]; rfl, .nil copies names⟩
  | cons layer todo ih =>
    obtain ⟨hlayer, htodo⟩ := List.forall_mem_cons.mp hall
    obtain ⟨cs, names₁, turns, hcs, hturns⟩ :=
      turned_copiesOf hdst (hlayers.isLayer hlayer) names
    obtain ⟨ds, names₂, further, hds, hfurther⟩ := ih htodo (done ++ cs) names₁
    refine ⟨cs ++ ds, names₂, turns ++ further, ?_, hturns.append hfurther⟩
    rw [List.foldlM_cons, appendCopies, hcs, ← List.append_assoc]
    exact hds

/-- **Parallel copies with different destinations can be put in sequence**, whichever names are
handed out already. -/
theorem exists_schedule (names : NameSupply) : ∃ s, schedule copies names = .ok s := by
  obtain ⟨_, _, _, hok, -⟩ := turned_foldlM hdst (copyGraph_spec hdst).1.layered_components
    (fun _ => List.mem_reverse.mp) [] names
  exact ⟨_, (schedule_eq hdst names).trans hok⟩

/-- **The components have just the copies that are none of a variable to itself.** -/
theorem moves_perm {layers : List (List Var)}
    (hlayers : NamedGraph.Layered (copyGraph copies).next (copyGraph copies).names layers) :
    (moves copies layers).Perm (copies.filter fun c => c.dst ≠ c.src) := by
  have hnodup : layers.flatten.Nodup :=
    List.nodup_flatten.mpr ⟨fun _ h => hlayers.nodup h, hlayers.disjoint⟩
  refine (List.perm_ext_iff_of_nodup ?_ ((List.Nodup.of_map _ hdst).filter _)).mpr fun c => ?_
  · exact (hnodup.filter _).map fun v w h => (Copy.mk.inj h).1
  · simp only [moves, List.mem_map, List.mem_filter, List.mem_flatten, decide_eq_true_eq]
    constructor
    · rintro ⟨v, ⟨-, hmoves⟩, rfl⟩
      exact ⟨mem_of_origin_ne hmoves, hmoves.symm⟩
    · rintro ⟨hin, hne⟩
      have horigin : origin copies c.dst = c.src := origin_eq_of_mem hdst hin
      have hmoves : origin copies c.dst ≠ c.dst := fun h => hne (h.symm.trans horigin)
      refine ⟨c.dst, ⟨(hlayers.mem_iff _).mp (mem_names_of_origin_ne hdst hmoves), hmoves⟩, ?_⟩
      rw [horigin]

section

variable {layers : List (List Var)}
  (hlayers : NamedGraph.Layered (copyGraph copies).next (copyGraph copies).names layers)
include hlayers

theorem nodup_orbits :
    ((layers.filter fun layer => 2 ≤ layer.length).map (orbit copies)).Nodup := by
  rw [List.Nodup, List.pairwise_map]
  refine (hlayers.disjoint.filter _).imp_of_mem ?_
  intro a b ha hb hdisjoint heq
  obtain ⟨ha, htwo⟩ := List.mem_filter.mp ha
  obtain ⟨hb, htwo'⟩ := List.mem_filter.mp hb
  have hmem := (orbit_spec hdst (of_decide_eq_true htwo) (hlayers.isLayer ha)).2.1
  have hmem' := (orbit_spec hdst (of_decide_eq_true htwo') (hlayers.isLayer hb)).2.1
  obtain ⟨v, hv⟩ :=
    List.exists_mem_of_length_pos (Nat.lt_of_lt_of_le Nat.two_pos (of_decide_eq_true htwo))
  exact hdisjoint hv ((hmem' v).mp (heq ▸ (hmem v).mpr hv))

/-- **The cycles are the components of two or more variables.** -/
theorem mem_orbits {c : Cycle Var} :
    c ∈ (layers.filter fun layer => 2 ≤ layer.length).map (orbit copies) ↔ IsCycle copies c := by
  rw [isCycle_iff hdst]
  simp only [List.mem_map, List.mem_filter, decide_eq_true_eq]
  constructor
  · rintro ⟨layer, ⟨hin, htwo⟩, rfl⟩
    obtain ⟨hlen, -, horbit⟩ := orbit_spec hdst htwo (hlayers.isLayer hin)
    obtain ⟨v, hv⟩ := List.exists_mem_of_length_pos (Nat.lt_of_lt_of_le Nat.two_pos htwo)
    exact ⟨hlen ▸ htwo, v, horbit v hv⟩
  · rintro ⟨htwo, v, rfl⟩
    have hperiodic : v ∈ Function.periodicPts (origin copies) := by
      rw [Function.periodicOrbit_length] at htwo
      exact Function.minimalPeriod_pos_iff_mem_periodicPts.mp (by omega)
    have hmoves := apply_ne_of_mem_periodicOrbit htwo (Function.self_mem_periodicOrbit hperiodic)
    obtain ⟨layer, hin, hv⟩ := (hlayers.mem_iff v).mp (mem_names_of_origin_ne hdst hmoves)
    -- the component of `v` holds the variable that `v` reads as well
    have hnext : origin copies v ∈ layer := by
      refine (hlayers.together hin hv _).mpr ⟨(reaches_copyGraph hdst).mpr ⟨1, rfl⟩,
        (reaches_copyGraph hdst).mpr ⟨Function.minimalPeriod (origin copies) v - 1, ?_⟩⟩
      rw [← Function.iterate_succ_apply, Nat.succ_eq_add_one,
        Nat.sub_add_cancel (Function.minimalPeriod_pos_of_mem_periodicPts hperiodic),
        Function.iterate_minimalPeriod]
    have htwo : 2 ≤ layer.length := by
      match layer with
      | [] => cases hv
      | [_] =>
        have hsame := (List.mem_singleton.mp hnext).trans (List.mem_singleton.mp hv).symm
        exact absurd hsame hmoves
      | _ :: _ :: _ => exact Nat.le_add_left ..
    have horbit := (orbit_spec hdst htwo (hlayers.isLayer hin)).2.2
    exact ⟨layer, ⟨hin, htwo⟩, (horbit v hv).symm⟩

end

/-! ### Parallel assignment -/

/-- **Each cycle is turned once, by a temporary of its own.**  A sequence has the copies that are
none of a variable to itself, where one copy of each cycle is replaced by two through its temporary.
-/
structure TurnsEach (copies : List Copy) (names : NameSupply) (cs : List Copy) (names' : NameSupply)
    (turns : List Turn) : Prop where
  cycles_nodup : (turns.map Turn.cycle).Nodup
  mem_cycles : ∀ c, c ∈ turns.map Turn.cycle ↔ IsCycle copies c
  temporaries_nodup : (turns.map Turn.temporary).Nodup
  mem_temporaries : ∀ v, v ∈ turns.map Turn.temporary ↔ names.HandedOut names' v
  fresh : ∀ turn ∈ turns, ∀ c ∈ copies, c.dst ≠ turn.temporary ∧ c.src ≠ turn.temporary
  opened : ∀ turn ∈ turns, turn.opened ∈ copies ∧ turn.opened.dst ∈ turn.cycle ∧
    turn.opened.src ∈ turn.cycle
  perm : (cs ++ turns.map Turn.opened).Perm
    ((copies.filter fun c => c.dst ≠ c.src) ++ turns.flatMap Turn.through)

theorem Turned.turnsEach {layers : List (List Var)} {names names' : NameSupply} {cs : List Copy}
    {turns : List Turn} (h : Turned copies layers.reverse names cs names' turns)
    (hlayers : NamedGraph.Layered (copyGraph copies).next (copyGraph copies).names layers)
    (hused : ∀ c ∈ copies, ¬ names.Unused c.dst ∧ ¬ names.Unused c.src) :
    TurnsEach copies names cs names' turns := by
  have hout : ∀ v, v ∈ turns.map Turn.temporary ↔ names.HandedOut names' v := by
    intro v
    rw [h.temporaries, NameSupply.handedOut_iff, h.lastVersion_eq]
    simp only [List.mem_map, List.mem_range'_1]
    constructor
    · rintro ⟨n, hn, rfl⟩
      exact ⟨n, rfl, by omega⟩
    · rintro ⟨n, rfl, hn⟩
      exact ⟨n, by omega, rfl⟩
  refine ⟨?_, fun c => ?_, ?_, hout, fun turn hturn c hc => ?_, h.opened, ?_⟩
  · rw [h.cycles, List.filter_reverse, List.map_reverse]
    exact List.nodup_reverse.mpr (nodup_orbits hdst hlayers)
  · rw [h.cycles, List.filter_reverse, List.map_reverse, List.mem_reverse, mem_orbits hdst hlayers]
  · rw [h.temporaries]
    exact (List.nodup_range' ..).map fun m n hmn => Option.some.inj (congrArg Var.version hmn)
  · have hunused := ((hout _).mp (List.mem_map_of_mem hturn)).1
    exact ⟨fun heq => (hused c hc).1 (heq ▸ hunused), fun heq => (hused c hc).2 (heq ▸ hunused)⟩
  · refine h.perm.trans (.append_right _ (.trans ?_ (moves_perm hdst hlayers)))
    exact (layers.reverse_perm.flatten.filter _).map _

omit hdst in
theorem TurnsEach.length_eq {names names' : NameSupply} {cs : List Copy} {turns : List Turn}
    (h : TurnsEach copies names cs names' turns) :
    cs.length = (copies.filter fun c => c.dst ≠ c.src).length + {c | IsCycle copies c}.ncard := by
  have hcard : {c | IsCycle copies c}.ncard = turns.length := by
    have hcoe : {c | IsCycle copies c} = (turns.map Turn.cycle).toFinset :=
      Set.ext fun c => by
        rw [List.coe_toFinset]
        exact (h.mem_cycles c).symm
    rw [hcoe, Set.ncard_coe_finset, List.toFinset_card_of_nodup h.cycles_nodup, List.length_map]
  have hlen := h.perm.length_eq
  rw [List.length_append, List.length_append, List.length_map, length_flatMap_through] at hlen
  omega

/-- **Putting parallel copies in sequence implements the parallel assignment.**  It succeeds, in
every variable but the new temporaries the sequence leaves what the copies leave there at once, and
it has one copy for each of them that is none of a variable to itself and one more for each cycle.
Each cycle is turned by a temporary of its own.  The supply counts without a bound: this speaks of
schedules in which no counter of it overflows. -/
theorem schedule_parallel {names : NameSupply}
    (hold : ∀ c ∈ copies, ∀ v ∈ [c.dst, c.src], v.name = NameSupply.temporaryName →
      ∀ n ∈ v.version, n ≤ names.lastVersion NameSupply.temporaryName) :
    ∃ (cs : List Copy) (names' : NameSupply) (turns : List Turn),
      schedule copies names = .ok (cs, names') ∧
      (∀ {V : Type} (σ : Store V) (v : Var), v ∉ turns.map Turn.temporary →
        inOrder cs σ v = atOnce copies σ v) ∧
      cs.length = (copies.filter fun c => c.dst ≠ c.src).length + {c | IsCycle copies c}.ncard ∧
      TurnsEach copies names cs names' turns := by
  have hlayers := (copyGraph_spec hdst).1.layered_components
  have hused : ∀ c ∈ copies, ¬ names.Unused c.dst ∧ ¬ names.Unused c.src := fun c hc =>
    ⟨NameSupply.not_unused_iff.mpr (hold c hc c.dst (by simp)),
      NameSupply.not_unused_iff.mpr (hold c hc c.src (by simp))⟩
  obtain ⟨cs, names', hcs, -, hstore⟩ := schedule_spec hdst hused
  obtain ⟨cs', names'', turns, hcs', hturned⟩ := turned_foldlM hdst hlayers
    (fun _ => List.mem_reverse.mp) [] names
  rw [← schedule_eq hdst] at hcs'
  obtain ⟨rfl, rfl⟩ := Prod.mk.inj (Except.ok.inj (hcs.symm.trans hcs'))
  have heach := hturned.turnsEach hdst hlayers hused
  exact ⟨_, _, turns, hcs', fun σ v hv => hstore σ v (mt (heach.mem_temporaries v).mpr hv),
    heach.length_eq, heach⟩

omit hdst

/-- Two cycles, a chain of readers that hangs off one of them, a copy of a variable to itself and
one of a temporary. -/
def shuffle : List Copy :=
  [⟨.plain "a", .plain "b"⟩, ⟨.plain "b", .plain "a"⟩, ⟨.plain "c", .plain "d"⟩,
    ⟨.plain "d", .plain "e"⟩, ⟨.plain "e", .plain "c"⟩, ⟨.plain "f", .plain "a"⟩,
    ⟨.plain "g", .plain "f"⟩, ⟨.plain "h", .plain "h"⟩, ⟨.plain "i", .versioned "__tmp" 1⟩]

theorem schedule_parallel_shuffle : {c | IsCycle shuffle c}.ncard = 2 ∧ ∃ cs names' turns,
    schedule shuffle NameSupply.new.freshTemporary.2 = .ok (cs, names') ∧
      TurnsEach shuffle NameSupply.new.freshTemporary.2 cs names' turns := by
  obtain ⟨cs, names', turns, hcs, -, hlen, heach⟩ :=
    @schedule_parallel shuffle (by decide) NameSupply.new.freshTemporary.2 (by decide)
  refine ⟨?_, cs, names', turns, hcs, heach⟩
  have hrun : (schedule shuffle NameSupply.new.freshTemporary.2).map (·.1.length) = .ok 10 := by
    decide +kernel
  rw [hcs] at hrun
  have hten : cs.length = 10 := Except.ok.inj hrun
  have height : (shuffle.filter fun c => c.dst ≠ c.src).length = 8 := by decide
  omega

end Ssa
end FlowGraph
