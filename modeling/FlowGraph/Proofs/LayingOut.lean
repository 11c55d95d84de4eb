import FlowGraph.Proofs.Labels
import FlowGraph.Proofs.Tidying
import FlowGraph.Proofs.TopDown

/-! # A laid out graph behaves like the graph

In the full statement list, before anything is left out, every block has its label once and stands
there with an explicit jump.  A place in the graph and a place in the list belong together when the
list is at the label of the block; a move in the graph is two or three moves in the list.
-/
namespace FlowGraph

theorem NameSupply.labelNumbered_injective {m n : Nat} (h : labelNumbered m = labelNumbered n) :
    m = n := by
  have hlist := congrArg String.toList h
  simp only [labelNumbered, String.toList_append, Nat.toList_repr] at hlist
  have hdigits := congrArg (Nat.ofDigitChars 10 · 0) (List.append_cancel_left hlist)
  simpa only [Nat.ofDigitChars_ten_toDigits] using hdigits

namespace Graph
section
variable {g : Graph} (hg : g.WellFormed)
include hg

/-! ### The order of the blocks -/

theorem WellFormed.mem_layoutOrder {b : BlockId} :
    b ∈ g.layoutOrder ↔ ∃ block, g.block? b = some block := by
  rw [layoutOrder, DepthFirst.mem_preorder_iff hg.handles_closed (Nat.le_of_eq length_handles)
    hg.roots_mem_handles, hg.reaches_roots_iff]

theorem WellFormed.nodup_layoutOrder : g.layoutOrder.Nodup :=
  DepthFirst.nodup_preorder hg.handles_closed (Nat.le_of_eq length_handles) hg.roots_mem_handles

theorem WellFormed.layoutOrder_eq_cons : ∃ rest, g.layoutOrder = entry :: rest := by
  obtain ⟨block, hb⟩ := hg.entry_live
  obtain ⟨size, hsize⟩ := Nat.exists_eq_succ_of_ne_zero
    (Nat.ne_zero_of_lt (slot_lt_of_block? hb))
  rw [layoutOrder, hsize]
  exact DepthFirst.preorder_cons size entry g.blockIds

/-! ### Where blocks lead -/

theorem WellFormed.successor_eq_ok {b t : BlockId} {block : Block} {e : EdgeId}
    (hb : g.block? b = some block) (hd : block.kind.directions = [.always])
    (he : g.edge? e = some ⟨b, t, .always⟩) : g.successor b = .ok t := by
  rw [successor, hg.onwardEdge_eq_ok hb hd he]
  show (g.edge e >>= fun edge => _) = _
  rw [edge_eq_ok he]
  rfl

theorem WellFormed.branchTarget_eq_ok {b t : BlockId} {block : Block} {e : EdgeId} {outcome : Bool}
    (hb : g.block? b = some block) (hk : block.kind.isBranch = true)
    (he : g.edge? e = some ⟨b, t, .ofOutcome outcome⟩) : g.branchTarget b outcome = .ok t := by
  rw [branchTarget, hg.directedEdge_eq_ok hb hk he]
  show (g.edge e >>= fun edge => _) = _
  rw [edge_eq_ok he]
  rfl

end
end Graph

namespace Layout

/-! ### Labels of blocks -/

section
variable {g : Graph}

/-- A supply numbers the labels that are drawn from it. -/
theorem drawLabels_eq (names : NameSupply) (bs : List BlockId) :
    drawLabels names bs =
      (bs.zipIdx names.labels).map fun p => (p.1, NameSupply.labelNumbered p.2) := by
  induction bs generalizing names with
  | nil => rfl
  | cons b bs ih => exact congrArg (_ :: ·) (ih _)

/-- The label that a table gives a block, empty where it gives none. -/
def labelOf (table : List (BlockId × Label)) (b : BlockId) : Label := (table.lookup b).getD ""

/-- The label of a block that is in use. -/
theorem exists_lookup {b : BlockId} (hb : b ∈ g.blockIds) : ∃ n : Nat, g.blockIds[n]? = some b ∧
    (labels g).lookup b = some (NameSupply.labelNumbered n) := by
  have hmem : ∀ {c : BlockId} {l : Label}, (c, l) ∈ labels g →
      ∃ n : Nat, g.blockIds[n]? = some c ∧ l = NameSupply.labelNumbered n := by
    intro c l hin
    rw [labels, drawLabels_eq] at hin
    obtain ⟨⟨c', n⟩, hzip, heq⟩ := List.mem_map.mp hin
    cases heq
    exact ⟨n, List.mem_zipIdx_iff_getElem?.mp hzip, rfl⟩
  cases hl : (labels g).lookup b with
  | none =>
    obtain ⟨n, hn⟩ := List.mem_iff_getElem?.mp hb
    have hin : (b, NameSupply.labelNumbered n) ∈ labels g := by
      rw [labels, drawLabels_eq]
      exact List.mem_map.mpr ⟨(b, n), List.mem_zipIdx_iff_getElem?.mpr hn, rfl⟩
    simpa using List.lookup_eq_none_iff.mp hl _ hin
  | some l =>
    obtain ⟨front, rest, hsplit, -⟩ := List.lookup_eq_some_iff.mp hl
    obtain ⟨n, hn, rfl⟩ := hmem (c := b) (l := l) (by rw [hsplit]; simp)
    exact ⟨n, hn, rfl⟩

theorem labelFor_eq_ok {b : BlockId} (hb : b ∈ g.blockIds) :
    labelFor (labels g) b = .ok (labelOf (labels g) b) := by
  obtain ⟨n, -, hlabel⟩ := exists_lookup hb
  rw [labelFor, labelOf, hlabel]
  rfl

theorem labelOf_injective {b c : BlockId} (hb : b ∈ g.blockIds) (hc : c ∈ g.blockIds)
    (h : labelOf (labels g) b = labelOf (labels g) c) : b = c := by
  obtain ⟨m, hm, hlabel⟩ := exists_lookup hb
  obtain ⟨n, hn, hlabel'⟩ := exists_lookup hc
  rw [labelOf, labelOf, hlabel, hlabel', Option.getD_some, Option.getD_some] at h
  rw [NameSupply.labelNumbered_injective h, hn, Option.some.injEq] at hm
  exact hm.symm

/-! ### The statements of a block -/

/-- **What a block is laid out as.** -/
def Emits (g : Graph) (b : BlockId) (ss : List Statement) : Kind → Prop
  | .exit => ss = []
  | .branch br =>
    ∃ e t e' f, g.edge? e = some ⟨b, t, .onTrue⟩ ∧ g.edge? e' = some ⟨b, f, .onFalse⟩ ∧
      ss = [.label (labelOf (labels g) b), .branch
        { br with ifTrue := labelOf (labels g) t, ifFalse := labelOf (labels g) f }]
  | .statement s => ∃ e t, g.edge? e = some ⟨b, t, .always⟩ ∧
      ss = [.label (labelOf (labels g) b), s, .goto (labelOf (labels g) t)]
  | _ => ∃ e t, g.edge? e = some ⟨b, t, .always⟩ ∧
      ss = [.label (labelOf (labels g) b), .goto (labelOf (labels g) t)]

theorem emit_eq_ok (hg : g.WellFormed) {b : BlockId} {block : Block}
    (hb : g.block? b = some block) :
    ∃ ss, emit g (labels g) b = .ok ss ∧ Emits g b ss block.kind := by
  have hk := Graph.kind?_of_block? hb
  have hown : labelFor (labels g) b = .ok (labelOf (labels g) b) :=
    labelFor_eq_ok (hg.listed.mem_blockIds.mpr ⟨block, hb⟩)
  have htarget : ∀ {e t d}, g.edge? e = some ⟨b, t, d⟩ →
      labelFor (labels g) t = .ok (labelOf (labels g) t) := fun he =>
    labelFor_eq_ok (hg.listed.mem_blockIds.mpr (hg.listed.target_live he))
  have honward : block.kind.directions = [.always] → ∃ e t, g.edge? e = some ⟨b, t, .always⟩ ∧
      g.successor b = .ok t := by
    intro hd
    have hne : block.kind ≠ .exit := fun hx => by rw [hx] at hd; cases hd
    obtain ⟨e, t, he⟩ := (hg.wired.ways hk hne .always).mpr (by rw [hd]; exact List.mem_cons_self)
    exact ⟨e, t, he, hg.successor_eq_ok hb hd he⟩
  cases hkind : block.kind with
  | exit =>
    refine ⟨[], Graph.bind_eq_ok.mpr ⟨block, Graph.block_eq_ok hb, ?_⟩, rfl⟩
    simp only [hkind]
    rfl
  | branch br =>
    have hne : block.kind ≠ .exit := fun hx => by rw [hx] at hkind; cases hkind
    have hways := hg.wired.ways hk hne
    rw [hkind] at hways
    obtain ⟨e, t, he⟩ := (hways .onTrue).mpr List.mem_cons_self
    obtain ⟨e', f, he'⟩ := (hways .onFalse).mpr (List.mem_cons_of_mem _ List.mem_cons_self)
    have hbranch : block.kind.isBranch = true := by rw [hkind]; rfl
    have ht : g.branchTarget b true = .ok t := hg.branchTarget_eq_ok hb hbranch he
    have hf : g.branchTarget b false = .ok f := hg.branchTarget_eq_ok hb hbranch he'
    refine ⟨_, Graph.bind_eq_ok.mpr ⟨block, Graph.block_eq_ok hb, ?_⟩, e, t, e', f, he, he', rfl⟩
    simp only [hkind, hown, ht, hf]
    show (labelFor (labels g) t >>= fun _ => labelFor (labels g) f >>= _) = _
    rw [htarget he, htarget he']
    rfl
  | statement s =>
    obtain ⟨e, t, he, hsucc⟩ := honward (by rw [hkind]; rfl)
    refine ⟨_, Graph.bind_eq_ok.mpr ⟨block, Graph.block_eq_ok hb, ?_⟩, e, t, he, rfl⟩
    simp only [hkind, hown, hsucc]
    show ((labelFor (labels g) t >>= _) >>= _) = _
    rw [htarget he]
    rfl
  | _ =>
    obtain ⟨e, t, he, hsucc⟩ := honward (by rw [hkind]; rfl)
    refine ⟨_, Graph.bind_eq_ok.mpr ⟨block, Graph.block_eq_ok hb, ?_⟩, e, t, he, rfl⟩
    simp only [hkind, hown, hsucc]
    show ((labelFor (labels g) t >>= _) >>= _) = _
    rw [htarget he]
    rfl

theorem Emits.eq_cons {b : BlockId} {ss : List Statement} {k : Kind} (h : Emits g b ss k)
    (hne : k ≠ .exit) : ∃ rest, ss = .label (labelOf (labels g) b) :: rest := by
  cases k with
  | exit => exact absurd rfl hne
  | branch br =>
    obtain ⟨_, _, _, _, -, -, rfl⟩ := h
    exact ⟨_, rfl⟩
  | _ =>
    obtain ⟨_, _, -, rfl⟩ := h
    exact ⟨_, rfl⟩

section
variable {V : Type} {M : Manner V} {b : BlockId} {ss : List Statement} {k : Kind}
  (all rest : List Statement) (m : Memory V)

/-- A block that returns ends the run, if returns do. -/
theorem Emits.steps_return (h : Emits g b ss k) (hret : (k.isReturn && M.stops) = true) :
    steps (systemBy M all).next 2 ⟨.here (ss ++ rest), m⟩ =
      some ⟨.ended .returned, M.perform m k⟩ := by
  obtain ⟨hret, hstops⟩ := Bool.and_eq_true_iff.mp hret
  cases k with
  | statement s =>
    obtain ⟨_, _, -, rfl⟩ := h
    cases s with
    | ret x => exact congrArg some (moveBy_cons (M.onward_ret hstops))
    | _ => cases hret
  | _ => cases hret

/-- **The statements of a block** do what the block does, and jump to where it leads. -/
theorem Emits.steps_jump (hs : g.Straight) (hk : g.kind? b = some k) (hne : k ≠ .exit)
    (h : Emits g b ss k) (hret : (k.isReturn && M.stops) = false) :
    ∃ j e t, g.edge? e = some ⟨b, t, M.way m k⟩ ∧
      steps (systemBy M all).next (j + 1) ⟨.here (ss ++ rest), m⟩ =
        some ⟨jump all (labelOf (labels g) t), M.perform m k⟩ := by
  cases k with
  | exit => exact absurd rfl hne
  | branch br =>
    obtain ⟨e, t, e', f, he, he', rfl⟩ := h
    cases hout : M.outcome br.cond m with
    | true =>
      refine ⟨1, e, t, ?_, ?_⟩
      · simp only [Manner.way, hout]
        exact he
      · exact congrArg some (moveBy_cons (congrArg (jump all) (if_pos hout)))
    | false =>
      refine ⟨1, e', f, ?_, ?_⟩
      · simp only [Manner.way, hout]
        exact he'
      · exact congrArg some (moveBy_cons (congrArg (jump all) (if_neg (Bool.eq_false_iff.mp hout))))
  | statement s =>
    obtain ⟨e, t, he, rfl⟩ := h
    have hkind := hs hk
    refine ⟨2, e, t, he, ?_⟩
    cases s with
    | label l => cases hkind
    | goto l => cases hkind
    | branch br => cases hkind
    | ret x =>
      -- Control passes the return and comes to the jump behind it.
      show steps _ 1 ((systemBy M all).move (.ret x :: .goto _ :: rest) m) = _
      rw [moveBy_cons (M.onward_passes hret)]
      rfl
    | _ => rfl
  | _ =>
    obtain ⟨e, t, he, rfl⟩ := h
    exact ⟨1, e, t, he, rfl⟩

end

/-! ### The full list -/

/-- The labels that are declared in a statement list. -/
def declared (ss : List Statement) : List Label :=
  ss.filterMap fun
    | .label l => some l
    | _ => none

theorem mem_declared {ss : List Statement} {l : Label} (h : .label l ∈ ss) : l ∈ declared ss :=
  List.mem_filterMap.mpr ⟨_, h, rfl⟩

theorem declaresOnce_of_nodup {ss : List Statement} (h : (declared ss).Nodup) :
    DeclaresOnce ss := by
  rintro front l rest rfl hin
  rw [declared, List.filterMap_append] at h
  exact List.disjoint_of_nodup_append h (mem_declared hin) (mem_declared List.mem_cons_self)

/-- A block declares its own label and no other. -/
theorem Emits.declared_eq (hs : g.Straight) {b : BlockId} {ss : List Statement} {k : Kind}
    (hk : g.kind? b = some k) (hne : k ≠ .exit) (h : Emits g b ss k) :
    declared ss = [labelOf (labels g) b] := by
  cases k with
  | exit => exact absurd rfl hne
  | branch br =>
    obtain ⟨_, _, _, _, -, -, rfl⟩ := h
    rfl
  | statement s =>
    obtain ⟨_, _, -, rfl⟩ := h
    have hkind := hs hk
    cases s with
    | label l => cases hkind
    | _ => rfl
  | _ =>
    obtain ⟨_, _, -, rfl⟩ := h
    rfl

/-- The statements of the blocks, in the order of the layout. -/
def Laid (g : Graph) (order : List BlockId) (blocks : List (List Statement)) : Prop :=
  List.Forall₂ (fun b ss => ∃ k, g.kind? b = some k ∧ Emits g b ss k) order blocks

theorem exists_laid (hg : g.WellFormed) {order : List BlockId}
    (hlive : ∀ b ∈ order, ∃ block, g.block? b = some block) :
    ∃ blocks, order.mapM (emit g (labels g)) = .ok blocks ∧ Laid g order blocks := by
  induction order with
  | nil => exact ⟨[], rfl, .nil⟩
  | cons b order ih =>
    obtain ⟨⟨block, hb⟩, hlive⟩ := List.forall_mem_cons.mp hlive
    obtain ⟨ss, hss, hemits⟩ := emit_eq_ok hg hb
    obtain ⟨blocks, hblocks, hlaid⟩ := ih hlive
    refine ⟨ss :: blocks, ?_, .cons ⟨_, Graph.kind?_of_block? hb, hemits⟩ hlaid⟩
    rw [List.mapM_cons, hss, hblocks]
    rfl

/-- Every block but the exit declares its label. -/
theorem Laid.declared_eq (hg : g.WellFormed) (hs : g.Straight) {order : List BlockId}
    {blocks : List (List Statement)} (h : Laid g order blocks) :
    declared blocks.flatten =
      (order.filter (· ≠ Graph.exit)).map (labelOf (labels g)) := by
  induction h with
  | nil => rfl
  | @cons b ss order blocks hb _ ih =>
    obtain ⟨k, hk, hemits⟩ := hb
    have hsplit : declared (ss :: blocks).flatten = declared ss ++ declared blocks.flatten :=
      List.filterMap_append ..
    rw [hsplit, ih]
    by_cases hexit : b = Graph.exit
    · subst hexit
      rw [hg.wired.exit_kind] at hk
      cases hk
      obtain rfl : ss = [] := hemits
      rw [List.filter_cons_of_neg (by simp)]
      rfl
    · have hne : k ≠ .exit := fun hx => hexit (hg.exit_only (hx ▸ hk))
      rw [hemits.declared_eq hs hk hne, List.filter_cons_of_pos (by simpa using hexit)]
      rfl

/-- What a block is laid out as stands somewhere in the list. -/
theorem Laid.exists_split {order : List BlockId} {blocks : List (List Statement)}
    (h : Laid g order blocks) {b : BlockId} (hb : b ∈ order) {k : Kind} (hk : g.kind? b = some k) :
    ∃ front ss rest, blocks.flatten = front ++ (ss ++ rest) ∧ Emits g b ss k := by
  induction h with
  | nil => cases hb
  | @cons c ss order blocks hc _ ih =>
    rcases List.mem_cons.mp hb with rfl | hb
    · obtain ⟨k', hk', hemits⟩ := hc
      rw [hk] at hk'
      cases hk'
      exact ⟨[], ss, blocks.flatten, rfl, hemits⟩
    · obtain ⟨front, ss', rest, hsplit, hemits⟩ := ih hb
      exact ⟨ss ++ front, ss', rest, by rw [List.flatten_cons, hsplit, List.append_assoc], hemits⟩

/-- The whole list: behind the blocks stands the label of the exit. -/
def whole (g : Graph) (blocks : List (List Statement)) : List Statement :=
  blocks.flatten ++ [.label (labelOf (labels g) Graph.exit)]

section
variable {blocks : List (List Statement)} (hg : g.WellFormed) (hs : g.Straight)
  (h : Laid g g.layoutOrder blocks)
include hg hs h

theorem nodup_declared_whole : (declared (whole g blocks)).Nodup := by
  have hsplit : declared (whole g blocks) =
      declared blocks.flatten ++ [labelOf (labels g) Graph.exit] := List.filterMap_append ..
  have hin : ∀ {b}, b ∈ g.layoutOrder → b ∈ g.blockIds := fun hb =>
    hg.listed.mem_blockIds.mpr (hg.mem_layoutOrder.mp hb)
  have hexit : Graph.exit ∈ g.blockIds := hg.listed.mem_blockIds.mpr hg.exit_live
  rw [hsplit, h.declared_eq hg hs]
  refine List.Nodup.append ?_ (List.nodup_singleton _) (List.disjoint_singleton.mpr fun hmem => ?_)
  · refine (hg.nodup_layoutOrder.filter _).map_on fun b hb c hc heq => ?_
    exact labelOf_injective (hin (List.mem_of_mem_filter hb)) (hin (List.mem_of_mem_filter hc)) heq
  · obtain ⟨b, hb, heq⟩ := List.mem_map.mp hmem
    obtain ⟨hb, hne⟩ := List.mem_filter.mp hb
    exact of_decide_eq_true hne (labelOf_injective (hin hb) hexit heq)

theorem declaresOnce_whole : DeclaresOnce (whole g blocks) :=
  declaresOnce_of_nodup (nodup_declared_whole hg hs h)

/-- A jump to the label of a block leads to what the block is laid out as. -/
theorem jump_whole {b : BlockId} {k : Kind} (hk : g.kind? b = some k) (hne : k ≠ .exit) :
    ∃ ss rest, Emits g b ss k ∧
      jump (whole g blocks) (labelOf (labels g) b) = .here (ss ++ rest) := by
  obtain ⟨block, hb, -⟩ := Graph.block?_of_kind? hk
  obtain ⟨front, ss, rest, hsplit, hemits⟩ :=
    h.exists_split (hg.mem_layoutOrder.mpr ⟨block, hb⟩) hk
  obtain ⟨tail, rfl⟩ := hemits.eq_cons hne
  have hwhole : whole g blocks = front ++ .label (labelOf (labels g) b) ::
      (tail ++ (rest ++ [.label (labelOf (labels g) Graph.exit)])) := by
    simp [whole, hsplit]
  refine ⟨_, rest ++ [.label (labelOf (labels g) Graph.exit)], hemits, ?_⟩
  rw [hwhole]
  exact jump_of_notMem (declaresOnce_whole hg hs h hwhole)

theorem jump_whole_exit : jump (whole g blocks) (labelOf (labels g) Graph.exit) =
    .here [.label (labelOf (labels g) Graph.exit)] :=
  jump_of_notMem (declaresOnce_whole hg hs h rfl)

omit hs in
/-- The list begins with the entry. -/
theorem jump_whole_entry :
    jump (whole g blocks) (labelOf (labels g) Graph.entry) = .here (whole g blocks) := by
  obtain ⟨rest, horder⟩ := hg.layoutOrder_eq_cons
  rw [Laid, horder] at h
  cases h with
  | @cons _ ss _ blocks hentry _ =>
    obtain ⟨k, hk, hemits⟩ := hentry
    rw [hg.wired.entry_kind] at hk
    cases hk
    obtain ⟨tail, rfl⟩ := hemits.eq_cons nofun
    exact @jump_of_notMem [] _ _ List.not_mem_nil

/-- **The whole list behaves like the graph.** -/
theorem sameBehaviour_whole {V : Type} (M : Manner V) (m : Memory V) :
    System.SameBehaviour (g.systemBy M) (systemBy M (whole g blocks)) ⟨.here Graph.entry, m⟩
      ⟨.here (whole g blocks), m⟩ := by
  let R : BlockId → Memory V → List Statement → Memory V → Prop := fun b m rest m' =>
    m = m' ∧ (∃ k, g.kind? b = some k) ∧
      jump (whole g blocks) (labelOf (labels g) b) = .here rest
  -- Wherever control goes in the graph, the list has somewhere to jump to.
  have hlinked : ∀ {e : EdgeId} {b t : BlockId} {d : Direction} (m : Memory V),
      g.edge? e = some ⟨b, t, d⟩ → @System.Linked V (g.systemBy M) (systemBy M (whole g blocks)) R
        ⟨.here t, m⟩ ⟨jump (whole g blocks) (labelOf (labels g) t), m⟩ := by
    intro e b t d m he
    obtain ⟨block, hb⟩ : ∃ block, g.block? t = some block := hg.listed.target_live he
    have hk := Graph.kind?_of_block? hb
    by_cases hne : block.kind = .exit
    · obtain rfl := hg.exit_only (hne ▸ hk)
      rw [jump_whole_exit hg hs h]
      exact .here ⟨rfl, ⟨_, hk⟩, jump_whole_exit hg hs h⟩
    · obtain ⟨ss, rest, -, hjump⟩ := jump_whole hg hs h hk hne
      rw [hjump]
      exact .here ⟨rfl, ⟨_, hk⟩, hjump⟩
  have hsim : @System.Simulates V (g.systemBy M) (systemBy M (whole g blocks)) R := by
    refine ⟨fun hr => congrArg Memory.shown hr.1, ?_⟩
    rintro (b : BlockId) m (rest : List Statement) _ ⟨rfl, ⟨k, hk⟩, hhere⟩
    by_cases hne : k = .exit
    · subst hne
      obtain rfl := hg.exit_only hk
      rw [jump_whole_exit hg hs h] at hhere
      cases hhere
      exact ⟨0, 1, _, _, congrArg some (Graph.moveBy_exit hk), rfl, .ended rfl⟩
    · obtain ⟨ss, rest', hemits, hjump⟩ := jump_whole hg hs h hk hne
      rw [hhere, Control.here.injEq] at hjump
      subst hjump
      cases hret : k.isReturn && M.stops with
      | true =>
        exact ⟨0, 1, _, _, congrArg some (Graph.moveBy_return hk hret),
          hemits.steps_return _ rest' m hret, .ended rfl⟩
      | false =>
        obtain ⟨j, e, t, he, hsteps⟩ := hemits.steps_jump (whole g blocks) rest' m hs hk hne hret
        exact ⟨0, j, _, _, congrArg some (hg.moveBy_edge hk hret he), hsteps, hlinked _ he⟩
  exact hsim.sameBehaviour (.here ⟨rfl, ⟨_, hg.wired.entry_kind⟩, jump_whole_entry hg h⟩)

end

end

end Layout

/-- **Laying a graph out** succeeds on every well-formed graph. -/
theorem Graph.WellFormed.exists_layOut {g : Graph} (hg : g.WellFormed) :
    ∃ blocks, Layout.Laid g g.layoutOrder blocks ∧ g.layOut.outcome =
      .ok (Layout.dropUnusedLabels (Layout.dropFallthrough (Layout.whole g blocks))) := by
  obtain ⟨blocks, hblocks, hlaid⟩ := Layout.exists_laid hg fun _ hb => hg.mem_layoutOrder.mp hb
  refine ⟨blocks, hlaid, ?_⟩
  have hexit := Layout.labelFor_eq_ok (hg.listed.mem_blockIds.mpr hg.exit_live)
  have hrest : ((liftM g.layoutFromEntry : Run _) >>= fun order =>
      (liftM (order.mapM (Layout.emit g (Layout.labels g))) : Run _) >>= fun blocks =>
      (liftM (Layout.labelFor (Layout.labels g) Graph.exit) : Run _) >>= fun label =>
      (pure (Layout.dropUnusedLabels (Layout.dropFallthrough (blocks.flatten ++ [.label label]))) :
        Run (List Statement))).outcome =
      .ok (Layout.dropUnusedLabels (Layout.dropFallthrough (Layout.whole g blocks))) := by
    rw [Run.outcome_liftM_bind hg.layoutFromEntry_eq, Run.outcome_liftM_bind hblocks,
      Run.outcome_liftM_bind hexit]
    rfl
  rw [Graph.layOut]
  split
  · exact (Run.outcome_bind_of_ok (Run.outcome_report _) _).trans hrest
  · exact hrest

/-- **A laid out graph** behaves like the graph, in whatever manner both are gone through. -/
theorem Graph.WellFormed.exists_behaves {g : Graph} (hg : g.WellFormed) (hs : g.Straight) :
    ∃ ss, g.layOut.outcome = .ok ss ∧ ∀ {V : Type} (M : Manner V) (m : Memory V),
      System.SameBehaviour (g.systemBy M) (Layout.systemBy M ss) ⟨.here Graph.entry, m⟩
        ⟨.here ss, m⟩ := by
  obtain ⟨blocks, hlaid, hout⟩ := hg.exists_layOut
  refine ⟨_, hout, fun M m => ?_⟩
  have hwhole := Layout.sameBehaviour_whole hg hs hlaid M m
  have hjumps := Layout.sameBehaviour_dropFallthrough (M := M)
    (Layout.declaresOnce_whole hg hs hlaid) m
  exact (hwhole.trans hjumps).trans (Layout.sameBehaviour_dropUnusedLabels _ m)

/-- **A laid out graph** without phi functions is performed like the graph. -/
theorem Graph.WellFormed.layOut_behaves {g : Graph} (hg : g.WellFormed) (hs : g.Straight)
    (hp : g.PhiFree) :
    ∃ ss, g.layOut.outcome = .ok ss ∧ ∀ {V : Type} (I : Interpretation V) (m : Memory V),
      System.SameBehaviour (g.system I) (Layout.system I ss) ⟨.here Graph.entry, m⟩
        ⟨.here ss, m⟩ := by
  obtain ⟨ss, hout, hsame⟩ := hg.exists_behaves hs
  refine ⟨ss, hout, fun I m => ?_⟩
  exact ((hp.sameBehaviour_of I _).symm.trans (hsame (.of I) m)).trans
    (Layout.sameBehaviour_of I ss _)

end FlowGraph
