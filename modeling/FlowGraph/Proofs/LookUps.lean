import FlowGraph.Proofs.Wiring
import FlowGraph.Graph.Rewire

/-! # Look-ups

A change that looks up the handles it touches fails, or gives what the change without look-ups
gives.  Where the lists of the blocks and the table of edges agree, the end points of an edge in use
are in use, so the change fails only if the handle it is given is not.
-/
namespace FlowGraph
namespace Graph

/-! ### Loops -/

section Loops
variable {ε α σ : Type} {f : σ → α → Except ε σ} {h : σ → α → σ}

/-- A loop gives what its steps give. -/
theorem eq_foldl_of_foldlM (hstep : ∀ {s x s'}, f s x = .ok s' → s' = h s x) {xs : List α}
    {s s' : σ} (hrun : xs.foldlM f s = .ok s') : s' = xs.foldl h s := by
  induction xs generalizing s with
  | nil => exact (Except.ok.inj hrun).symm
  | cons x xs ih =>
    rw [List.foldlM_cons, bind_eq_ok] at hrun
    obtain ⟨s₁, hx, hrest⟩ := hrun
    rw [List.foldl_cons, ← hstep hx]
    exact ih hrest

/-- A loop does not fail if its steps do not, as long as they keep what they need. -/
theorem foldlM_eq_foldl {xs : List α} {s : σ} (inv : σ → Prop) (hs : inv s)
    (hstep : ∀ x ∈ xs, ∀ s, inv s → f s x = .ok (h s x) ∧ inv (h s x)) :
    xs.foldlM f s = .ok (xs.foldl h s) := by
  induction xs generalizing s with
  | nil => rfl
  | cons x xs ih =>
    obtain ⟨hx, hxs⟩ := List.forall_mem_cons.mp hstep
    obtain ⟨hok, hinv⟩ := hx s hs
    rw [List.foldlM_cons, bind_of_ok hok]
    exact ih hinv hxs

theorem mapM_eq_ok {β : Type} {f : α → Except ε β} {h : α → β} {xs : List α}
    (hf : ∀ x ∈ xs, f x = .ok (h x)) : xs.mapM f = .ok (xs.map h) := by
  induction xs with
  | nil => rfl
  | cons x xs ih =>
    obtain ⟨hx, hxs⟩ := List.forall_mem_cons.mp hf
    rw [List.mapM_cons, bind_of_ok hx, bind_of_ok (ih hxs)]
    rfl

theorem findM?_eq_ok {p : α → Bool} {q : α → Except ε Bool} {xs : List α}
    (hq : ∀ x ∈ xs, q x = .ok (p x)) : xs.findM? q = .ok (xs.find? p) := by
  induction xs with
  | nil => rfl
  | cons x xs ih =>
    obtain ⟨hx, hxs⟩ := List.forall_mem_cons.mp hq
    rw [List.findM?, bind_of_ok hx, List.find?_cons, ih hxs]
    cases p x <;> rfl

end Loops

variable {g g' : Graph} {b : BlockId} {e : EdgeId} {α : Type}

/-! ### Handles in use -/

theorem block_eq_ok {block : Block} (hb : g.block? b = some block) : g.block b = .ok block := by
  rw [Graph.block, hb]

theorem edge_eq_ok {edge : Edge} (he : g.edge? e = some edge) : g.edge e = .ok edge := by
  rw [Graph.edge, he]

theorem block_bind_eq_ok {f : Block → Answer α} {a : α} :
    (g.block b >>= f) = .ok a ↔ ∃ block, g.block? b = some block ∧ f block = .ok a := by
  have hlive : ∀ block, g.block b = .ok block ↔ g.block? b = some block := fun block => by
    rw [Graph.block]
    cases g.block? b <;> simp
  simp only [bind_eq_ok, hlive]

theorem edge_bind_eq_ok {f : Edge → Answer α} {a : α} :
    (g.edge e >>= f) = .ok a ↔ ∃ edge, g.edge? e = some edge ∧ f edge = .ok a := by
  have hlive : ∀ edge, g.edge e = .ok edge ↔ g.edge? e = some edge := fun edge => by
    rw [Graph.edge]
    cases g.edge? e <;> simp
  simp only [bind_eq_ok, hlive]

theorem pure_eq_ok {a a' : α} : (pure a : Answer α) = .ok a' ↔ a' = a :=
  ⟨fun h => (Except.ok.inj h).symm, fun h => congrArg Except.ok h.symm⟩

theorem demandLive_eq_ok {bs : List BlockId} (h : ∀ b ∈ bs, ∃ block, g.block? b = some block) :
    g.demandLive bs = .ok () := by
  refine forM_eq_ok.mpr fun b hb => ?_
  obtain ⟨block, hb⟩ := h b hb
  rw [block_eq_ok hb]
  rfl

theorem Listed.demandListed_eq_ok (hg : g.Listed) : g.demandListed = .ok () := by
  refine forM_eq_ok.mpr fun block hblock => forM_eq_ok.mpr fun e he => ?_
  obtain ⟨b, hb⟩ := mem_liveBlocks.mp hblock
  obtain ⟨edge, hedge, -⟩ := (hg.mem_succs hb e).mp he
  rw [edge_eq_ok hedge]
  rfl

/-- The first edge of a kind among edges in use. -/
theorem findM?_edge_eq {p : Edge → Bool} {es : List EdgeId}
    (h : ∀ e ∈ es, ∃ edge, g.edge? e = some edge) :
    (es.findM? fun e => return p (← g.edge e) : Answer _) =
      .ok (es.find? fun e => (g.edge? e).any p) := by
  refine findM?_eq_ok fun e he => ?_
  obtain ⟨edge, hedge⟩ := h e he
  rw [edge_eq_ok hedge, hedge]
  rfl

theorem Listed.succs_live (hg : g.Listed) {block : Block} (hb : g.block? b = some block) :
    ∀ e ∈ block.succs, ∃ edge, g.edge? e = some edge := fun e he => by
  obtain ⟨edge, hedge, -⟩ := (hg.mem_succs hb e).mp he
  exact ⟨edge, hedge⟩

theorem Listed.preds_live (hg : g.Listed) {block : Block} (hb : g.block? b = some block) :
    ∀ e ∈ block.preds, ∃ edge, g.edge? e = some edge := fun e he => by
  obtain ⟨edge, hedge, -⟩ := (hg.mem_preds hb e).mp he
  exact ⟨edge, hedge⟩

/-! ### What the changes give -/

theorem update_eq_ok {f : Block → Block} :
    g.update b f = .ok g' ↔ (∃ block, g.block? b = some block) ∧ g' = g.modifyBlock b f := by
  rw [update, block_bind_eq_ok]
  simp only [pure_eq_ok, exists_and_right]

theorem updateEdge_eq_ok {f : Edge → Edge} :
    g.updateEdge e f = .ok g' ↔ (∃ edge, g.edge? e = some edge) ∧ g' = g.modifyEdge e f := by
  rw [updateEdge, edge_bind_eq_ok]
  simp only [pure_eq_ok, exists_and_right]

theorem connect_eq_ok {edge : Edge} {r : EdgeId × Graph} :
    g.connect edge = .ok r ↔ (∃ block, g.block? edge.source = some block) ∧
      (∃ block, g.block? edge.target = some block) ∧ r = g.addEdge edge := by
  rw [connect, block_bind_eq_ok]
  simp only [block_bind_eq_ok, pure_eq_ok, exists_and_right]

theorem disconnect_eq_ok : g.disconnect e = .ok g' ↔ ∃ edge, g.edge? e = some edge ∧
    (∃ block, g.block? edge.source = some block) ∧
      (∃ block, g.block? edge.target = some block) ∧ g' = g.removeEdge e := by
  rw [disconnect, edge_bind_eq_ok]
  simp only [block_bind_eq_ok, pure_eq_ok, exists_and_right]

theorem reroute_eq_ok {target : BlockId} {r : EdgeId × Graph} :
    g.reroute target e = .ok r ↔ ∃ edge, g.edge? e = some edge ∧
      (∃ block, g.block? edge.source = some block) ∧ (∃ block, g.block? edge.target = some block) ∧
        (∃ block, g.block? target = some block) ∧ r = g.redirect e edge target := by
  rw [reroute, edge_bind_eq_ok]
  simp only [block_bind_eq_ok, pure_eq_ok, exists_and_right]

theorem exists_block_addBlock (k : Kind) (hb : ∃ block, g.block? b = some block) :
    ∃ block, (g.addBlock k).2.block? b = some block := by
  obtain ⟨block, hb⟩ := hb
  rw [block?_addBlock]
  split
  · exact ⟨_, rfl⟩
  · exact ⟨block, hb⟩

theorem eq_of_discard (h : g.discard b = .ok g') : g' = g.removeBlock b := by
  rw [discard, block_bind_eq_ok] at h
  obtain ⟨block, hb, hrest⟩ := h
  obtain ⟨rest, hedges, hclear⟩ := bind_eq_ok.mp hrest
  rw [removeBlock, hb, pure_eq_ok.mp hclear]
  refine congrArg (Graph.clearBlock · b) (eq_foldl_of_foldlM (fun {g e g'} hstep => ?_) hedges)
  split at hstep
  · obtain ⟨-, -, -, -, heq⟩ := disconnect_eq_ok.mp hstep
    exact heq
  · rename_i hnone
    rw [Option.not_isSome_iff_eq_none] at hnone
    rw [removeEdge, hnone, pure_eq_ok.mp hstep]

/-- Leads some edges to another target, one after the other, those that are not in use left out. -/
def redirectAll (g : Graph) (target : BlockId) :
    List EdgeId → List (EdgeId × EdgeId) × Graph
  | [] => ([], g)
  | e :: es =>
    match g.edge? e with
    | none => g.redirectAll target es
    | some edge =>
      let (new, g) := g.redirect e edge target
      let (pairs, g) := g.redirectAll target es
      ((e, new) :: pairs, g)

/-- Adds blocks in a row behind a block, in use or not; gives their handles. -/
def extendChain (g : Graph) (last : BlockId) : List Kind → List BlockId × Graph
  | [] => ([], g)
  | kind :: rest =>
    let (b, g) := g.addBlock kind
    let (_, g) := g.addEdge ⟨last, b, .always⟩
    let (chain, g) := g.extendChain b rest
    (b :: chain, g)

/-! ### Edges that join blocks in use -/

@[simp] theorem isLive_modifyBlock (g : Graph) (b : BlockId) (f : Block → Block) (c : BlockId) :
    (g.modifyBlock b f).isLive c = g.isLive c := by
  rw [isLive, isLive, block?_modifyBlock]
  split
  · exact Option.isSome_map ..
  · rfl

@[simp] theorem isLive_clearEdge (g : Graph) (e : EdgeId) (b : BlockId) :
    (g.clearEdge e).isLive b = g.isLive b := rfl

@[simp] theorem isLive_addUnlistedEdge (g : Graph) (edge : Edge) (b : BlockId) :
    (g.addUnlistedEdge edge).2.isLive b = g.isLive b := rfl

theorem isLive_removeEdge (g : Graph) (e : EdgeId) (b : BlockId) :
    (g.removeEdge e).isLive b = g.isLive b := by
  rw [removeEdge]
  cases g.edge? e with
  | none => rfl
  | some edge => simp only [isLive_clearEdge, isLive_modifyBlock]

theorem isLive_redirect (g : Graph) (e : EdgeId) (edge : Edge) (t b : BlockId) :
    (g.redirect e edge t).2.isLive b = g.isLive b := by
  simp only [redirect, isLive_clearEdge, isLive_modifyBlock, isLive_addUnlistedEdge]

@[simp] theorem edge?_removeEdge (g : Graph) (e e' : EdgeId) :
    (g.removeEdge e).edge? e' = if e' = e then none else g.edge? e' := by
  unfold removeEdge
  cases he : g.edge? e with
  | none =>
    by_cases heq : e' = e
    · rw [if_pos heq, heq, he]
    · rw [if_neg heq]
  | some edge => exact edge?_clearEdge ..

theorem edge?_removeEdge_eq_some {e e' : EdgeId} {x : Edge} :
    (g.removeEdge e).edge? e' = some x ↔ e' ≠ e ∧ g.edge? e' = some x := by
  rw [edge?_removeEdge]
  by_cases h : e' = e
  · simp [h]
  · simp [h]

/-- **Every edge joins blocks in use.** -/
def Joined (g : Graph) : Prop :=
  ∀ ⦃e edge⦄, g.edge? e = some edge → g.isLive edge.source = true ∧ g.isLive edge.target = true

theorem Listed.joined (hg : g.Listed) : g.Joined := fun _ _ he =>
  ⟨isLive_iff.mpr (hg.source_live he), isLive_iff.mpr (hg.target_live he)⟩

namespace Joined

theorem modifyBlock (hg : g.Joined) (b : BlockId) (f : Block → Block) :
    (g.modifyBlock b f).Joined := by
  intro e edge he
  rw [isLive_modifyBlock, isLive_modifyBlock]
  exact hg he

theorem removeEdge (hg : g.Joined) (e : EdgeId) : (g.removeEdge e).Joined := by
  intro e' edge he
  rw [isLive_removeEdge, isLive_removeEdge]
  exact hg (edge?_removeEdge_eq_some.mp he).2

theorem redirect (hg : g.Joined) {edge : Edge} (he : g.edge? e = some edge) {t : BlockId}
    (ht : g.isLive t = true) : (g.redirect e edge t).2.Joined := by
  intro e' edge' he'
  simp only [Graph.redirect, edge?_clearEdge, edge?_modifyBlock, edge?_addUnlistedEdge] at he'
  rw [isLive_redirect, isLive_redirect]
  split at he'
  · cases he'
  · split at he'
    · cases he'
      exact ⟨(hg he).1, ht⟩
    · exact hg he'

theorem disconnect_eq (hg : g.Joined) {edge : Edge} (he : g.edge? e = some edge) :
    g.disconnect e = .ok (g.removeEdge e) :=
  disconnect_eq_ok.mpr ⟨edge, he, isLive_iff.mp (hg he).1, isLive_iff.mp (hg he).2, rfl⟩

theorem discard_eq (hg : g.Joined) {block : Block} (hb : g.block? b = some block) :
    g.discard b = .ok (g.removeBlock b) := by
  have hstep : ∀ e ∈ block.preds ++ block.succs, ∀ g : Graph, g.Joined →
      (if (g.edge? e).isSome then g.disconnect e else return g) = .ok (g.removeEdge e) ∧
        (g.removeEdge e).Joined := by
    intro e _ g hg
    refine ⟨?_, hg.removeEdge e⟩
    cases he : g.edge? e with
    | none =>
      rw [Graph.removeEdge, he]
      rfl
    | some edge => exact hg.disconnect_eq he
  rw [discard, bind_of_ok (block_eq_ok hb), bind_of_ok (foldlM_eq_foldl Joined hg hstep),
    removeBlock, hb]
  rfl

theorem reroute_eq (hg : g.Joined) {edge : Edge} (he : g.edge? e = some edge) {t : BlockId}
    (ht : g.isLive t = true) : g.reroute t e = .ok (g.redirect e edge t) :=
  reroute_eq_ok.mpr ⟨edge, he, isLive_iff.mp (hg he).1, isLive_iff.mp (hg he).2,
    isLive_iff.mp ht, rfl⟩

/-- Different edges in use are led elsewhere one after the other. -/
theorem rerouteAll_eq (hg : g.Joined) {t : BlockId} (ht : g.isLive t = true) {es : List EdgeId}
    (hnodup : es.Nodup) (hes : ∀ e ∈ es, ∃ edge, g.edge? e = some edge) :
    g.rerouteAll t es = .ok (g.redirectAll t es) ∧ (g.redirectAll t es).2.Joined ∧
      ∀ b, (g.redirectAll t es).2.isLive b = g.isLive b := by
  induction es generalizing g with
  | nil => exact ⟨rfl, hg, fun _ => rfl⟩
  | cons e es ih =>
    obtain ⟨⟨edge, he⟩, hes⟩ := List.forall_mem_cons.mp hes
    obtain ⟨hfresh, hnodup⟩ := List.nodup_cons.mp hnodup
    have hstill : ∀ e' ∈ es, ∃ edge', (g.redirect e edge t).2.edge? e' = some edge' := by
      intro e' he'
      obtain ⟨edge', hedge'⟩ := hes e' he'
      have hne : e' ≠ e := fun heq => hfresh (heq ▸ he')
      have hold : e' ≠ ⟨g.edges.size⟩ := fun heq => by
        rw [heq, edge?_fresh] at hedge'
        cases hedge'
      refine ⟨edge', ?_⟩
      simp only [Graph.redirect, edge?_clearEdge, edge?_modifyBlock, edge?_addUnlistedEdge]
      rw [if_neg hne, if_neg hold, hedge']
    obtain ⟨hrest, hjoined, hlive⟩ :=
      ih (hg.redirect he ht) ((isLive_redirect g e edge t t).trans ht) hnodup hstill
    rw [rerouteAll, bind_of_ok (hg.reroute_eq he ht), redirectAll, he]
    exact ⟨bind_of_ok hrest _, hjoined, fun b => (hlive b).trans (isLive_redirect ..)⟩

theorem split_eq (hg : g.Joined) {edge : Edge} (he : g.edge? e = some edge) (kind : Kind) :
    g.split e kind = .ok (g.splitEdge e edge kind) := by
  obtain ⟨source, hsource⟩ := exists_block_addBlock kind (isLive_iff.mp (hg he).1)
  obtain ⟨target, htarget⟩ := exists_block_addBlock kind (isLive_iff.mp (hg he).2)
  rw [split, bind_of_ok (edge_eq_ok he)]
  exact (bind_of_ok (block_eq_ok hsource) _).trans (bind_of_ok (block_eq_ok htarget) _)

end Joined

/-- The edges that enter a block are led past it, and the block is removed. -/
theorem Listed.rerouteAll_preds (hg : g.Listed) {x s : BlockId} {old succ : Block}
    (hx : g.block? x = some old) (hs : g.block? s = some succ) :
    g.rerouteAll s old.preds = .ok (g.redirectAll s old.preds) ∧
      ∀ f, ((g.redirectAll s old.preds).2.modifyBlock s f).discard x =
        .ok (((g.redirectAll s old.preds).2.modifyBlock s f).removeBlock x) := by
  obtain ⟨hreroute, hjoined, hlive⟩ := hg.joined.rerouteAll_eq (isLive_iff.mpr ⟨succ, hs⟩)
    (hg.nodup_preds hx) (hg.preds_live hx)
  refine ⟨hreroute, fun f => ?_⟩
  obtain ⟨block, hblock⟩ := isLive_iff.mp
    (((isLive_modifyBlock _ s f x).trans (hlive x)).trans (isLive_iff.mpr ⟨old, hx⟩))
  exact (hjoined.modifyBlock s f).discard_eq hblock

end Graph
end FlowGraph
