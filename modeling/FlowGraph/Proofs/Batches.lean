import FlowGraph.Proofs.Actions
import FlowGraph.Proofs.Chains
import FlowGraph.Proofs.Upkeep

/-! # Batches of changes

A batch may do almost anything to a graph while it runs; that the graph is sound is checked only
when it is over.  Three things hold all the way: no handle is given out twice, no block becomes an
entry or an exit (`KeepsTerminals`), and the lists of the blocks agree with the table of edges,
though phi functions can have arguments for any edges.  Together with the check they make the graph
well-formed again.

`Step.Performs` says what each step does when it is carried out, and is all that is known of a step
from then on.  Steps that add no argument-less edge to a block with phi functions are `Gentle`: with
them phi functions stay complete.
-/
namespace FlowGraph
namespace Graph

variable {g g' g'' : Graph}

/-! ### Terminal blocks -/

/-- **No block becomes an entry or an exit.** -/
def KeepsTerminals (g g' : Graph) : Prop :=
  ∀ ⦃b k⦄, g'.kind? b = some k → k.isTerminal = true → g.kind? b = some k

namespace KeepsTerminals

theorem refl (g : Graph) : KeepsTerminals g g := fun _ _ hk _ => hk

theorem trans (h : KeepsTerminals g g') (h' : KeepsTerminals g' g'') : KeepsTerminals g g'' :=
  fun _ _ hk ht => h (h' hk ht) ht

theorem modifyBlock (g : Graph) (b : BlockId) {f : Block → Block}
    (hf : ∀ block, (f block).kind = block.kind) : KeepsTerminals g (g.modifyBlock b f) := by
  intro c k hk _
  obtain ⟨block', hc, rfl⟩ := block?_of_kind? hk
  rcases block?_modifyBlock_eq_some hc with ⟨-, hc⟩ | ⟨block, rfl, hb, rfl⟩
  · exact kind?_of_block? hc
  · rw [hf]
    exact kind?_of_block? hb

theorem addBlock (g : Graph) {k : Kind} (hk : k.isTerminal = false) :
    KeepsTerminals g (g.addBlock k).2 := by
  intro c k' hk' ht
  rw [kind?, block?_addBlock] at hk'
  split at hk'
  · cases hk'
    rw [hk] at ht
    cases ht
  · exact hk'

theorem clearBlock (g : Graph) (b : BlockId) : KeepsTerminals g (g.clearBlock b) := by
  intro c k hk _
  rw [kind?, block?_clearBlock] at hk
  split at hk
  · cases hk
  · exact hk

theorem addEdge (g : Graph) (edge : Edge) : KeepsTerminals g (g.addEdge edge).2 := by
  intro c k hk _
  obtain ⟨block', hc, rfl⟩ := block?_of_kind? hk
  rw [block?_addEdge] at hc
  obtain ⟨block, hb, rfl⟩ := Option.map_eq_some_iff.mp hc
  rw [kind?_of_block? hb]
  rfl

theorem removeEdge (g : Graph) (e : EdgeId) : KeepsTerminals g (g.removeEdge e) := by
  unfold Graph.removeEdge
  cases g.edge? e with
  | none => exact refl g
  | some edge =>
    intro c k hk ht
    refine modifyBlock g edge.source (fun _ => ?_)
      (modifyBlock _ edge.target (fun _ => ?_) hk ht) ht
    · rfl
    · rfl

theorem removeBlock (g : Graph) (b : BlockId) : KeepsTerminals g (g.removeBlock b) := by
  have hedges : ∀ (es : List EdgeId) (g : Graph), KeepsTerminals g
      (es.foldl Graph.removeEdge g) := by
    intro es
    induction es with
    | nil => exact refl
    | cons e es ih => exact fun g => (removeEdge g e).trans (ih _)
  unfold Graph.removeBlock
  cases g.block? b with
  | none => exact refl g
  | some block => exact (hedges _ g).trans (clearBlock _ b)

end KeepsTerminals

/-- **The check at the end of a batch** makes a graph well-formed again. -/
theorem WellFormed.of_keepsTerminals (hg : g.WellFormed) (h : KeepsTerminals g g')
    (hcheck : g'.checkWiring = .ok ()) : g'.WellFormed where
  checked := hcheck
  entry_only hk := hg.entry_only (h hk rfl)
  exit_only hk := hg.exit_only (h hk rfl)

/-! ### One step -/

/-- **What a step does** when it is carried out. -/
inductive Step.Performs (g : Graph) : Step → Graph → Prop
  | addBlock {k} (h : k.isTerminal = false) : Performs g (.addBlock k) (g.addBlock k).2
  | addEdge {s t source target} (hs : g.block? s = some source) (ht : g.block? t = some target) :
      Performs g (.addEdge s t) (g.addEdge ⟨s, t, .always⟩).2
  | addConditionalEdges {s t f source target g₁ source₁ target₁}
      (hs : g.block? s = some source) (ht : g.block? t = some target)
      (h₁ : g₁ = (g.addEdge ⟨s, t, .onTrue⟩).2)
      (hs₁ : g₁.block? s = some source₁) (hf₁ : g₁.block? f = some target₁) :
      Performs g (.addConditionalEdges s t f) (g₁.addEdge ⟨s, f, .onFalse⟩).2
  | removeEdge {e} : Performs g (.removeEdge e) (g.removeEdge e)
  | removeBlock {b} : Performs g (.removeBlock b) (g.removeBlock b)
  | keepPhi {b v} : Performs g (.addPhi b v) g
  | addPhi {b v} : Performs g (.addPhi b v) (g.modifyBlock b fun block =>
      { block with phis := block.phis.insert v.name (.new none) })
  | setPhiArg {b v e value} {p : Phi} : Performs g (.setPhiArg b v e value)
      (g.modifyBlock b fun block =>
      { block with phis := block.phis.insert v.name (p.setArg e value) })

/-- Adding an edge fails for want of an end point. -/
theorem ends_connect (g : Graph) (edge : Edge) {bad : Fault → Prop}
    (hs : g.block? edge.source = none → bad (.violation (.staleBlock edge.source)))
    (ht : g.block? edge.target = none → bad (.violation (.staleBlock edge.target))) :
    (liftM (g.connect edge) : Run (EdgeId × Graph)).Ends
      (fun x => x = g.addEdge edge ∧ (∃ block, g.block? edge.source = some block) ∧
        ∃ block, g.block? edge.target = some block) bad := by
  apply Run.Ends.lift_bind (ends_block (fun _ => id) hs)
  intro source hsource
  apply Run.Ends.lift_bind (ends_block (fun _ => id) ht)
  intro target htarget
  exact .of_ok rfl ⟨rfl, ⟨source, hsource⟩, ⟨target, htarget⟩⟩

/-- Edges join blocks in use, whatever phi functions there are. -/
theorem joined_of_withoutPhis (hg : g.withoutPhis.Listed) : g.Joined := by
  have hlive : ∀ {b}, g.withoutPhis.isLive b = true → g.isLive b = true := fun {b} hb => by
    rwa [isLive, block?_withoutPhis, Option.isSome_map] at hb
  intro e edge he
  obtain ⟨hsource, htarget⟩ := hg.joined (e := e) he
  exact ⟨hlive hsource, hlive htarget⟩

/-- Removing an edge fails for want of it, if the others join blocks in use. -/
theorem ends_disconnect (g : Graph) (e : EdgeId) {bad : Fault → Prop}
    (hstale : g.edge? e = none → bad (.violation (.staleEdge e))) :
    (liftM (g.disconnect e) : Run Graph).Ends (· = g.removeEdge e) fun f => g.Joined → bad f := by
  apply Run.Ends.lift_bind (ends_edge (fun _ => id) fun he _ => hstale he)
  intro edge he
  have hend : ∀ b, (g.Joined → g.isLive b = true) → (liftM (g.block b) : Run Block).Ends
      (fun _ => True) fun f => g.Joined → bad f := fun b hlive =>
    ends_block (fun _ _ => trivial) fun hnone hg => by
      rw [isLive, hnone] at hlive
      cases hlive hg
  refine .lift_bind (hend edge.source fun hg => (hg he).1) fun _ _ => ?_
  exact .lift_bind (hend edge.target fun hg => (hg he).2) fun _ _ => .of_ok rfl rfl

/-- Removing a block that is in use does not fail, if edges join blocks in use. -/
theorem ends_discard {b : BlockId} {block : Block} (hb : g.block? b = some block)
    {bad : Fault → Prop} :
    (liftM (g.discard b) : Run Graph).Ends (· = g.removeBlock b) fun f => g.Joined → bad f := by
  cases hd : g.discard b with
  | ok g' => exact .of_ok rfl (eq_of_discard hd)
  | error f =>
    refine .of_error rfl fun hg => ?_
    cases hd.symm.trans (hg.discard_eq hb)

/-- **A step** is carried out or refused. -/
theorem ends_perform (g : Graph) (s : Step) :
    (liftM (g.perform s) : Run (StepResult × Graph)).Ends (fun x => s.Performs g x.2)
      fun f => g.Joined → s.Refused g f := by
  have hblock : ∀ b ∈ s.blocks, (liftM (g.block b) : Run Block).Ends
      (fun block => g.block? b = some block) fun f => g.Joined → s.Refused g f := fun b hb =>
    ends_block (fun _ => id) fun hnone _ => .staleBlock hb hnone
  cases s with
  | addBlock k =>
    rw [perform]
    split
    · rename_i h
      exact .of_error rfl fun _ => .extraTerminal h
    · rename_i h
      exact .of_ok rfl (.addBlock (Bool.eq_false_iff.mpr h))
  | addEdge s t =>
    refine .lift_bind (g.ends_connect ⟨s, t, .always⟩
      (fun hnone _ => .staleBlock (by simp [Step.blocks]) hnone)
      fun hnone _ => .staleBlock (by simp [Step.blocks]) hnone) ?_
    rintro _ ⟨rfl, ⟨source, hs⟩, target, ht⟩
    exact .of_ok rfl (.addEdge hs ht)
  | addConditionalEdges s t f =>
    refine .lift_bind (hblock s (by simp [Step.blocks])) fun source hs => ?_
    split
    · refine .lift_bind (g.ends_connect ⟨s, t, .onTrue⟩
        (fun hnone _ => .staleBlock (by simp [Step.blocks]) hnone)
        fun hnone _ => .staleBlock (by simp [Step.blocks]) hnone) ?_
      rintro _ ⟨rfl, -, target, ht⟩
      -- The edge on true makes no block come or go.
      have hsame : ∀ c, (g.addEdge ⟨s, t, .onTrue⟩).2.block? c = none → g.block? c = none := by
        intro c hnone
        rw [block?_addEdge] at hnone
        exact Option.map_eq_none_iff.mp hnone
      refine .lift_bind (ends_connect (g.addEdge ⟨s, t, .onTrue⟩).2 ⟨s, f, .onFalse⟩
        (fun hnone _ => .staleBlock (by simp [Step.blocks]) (hsame s hnone))
        fun hnone _ => .staleBlock (by simp [Step.blocks]) (hsame f hnone)) ?_
      rintro _ ⟨rfl, ⟨source₁, hs₁⟩, target₁, hf₁⟩
      exact .of_ok rfl (.addConditionalEdges hs ht rfl hs₁ hf₁)
    · rename_i h
      exact .of_error rfl fun _ => .notBranch (kind?_of_block? hs) (Bool.eq_false_iff.mpr h)
  | removeEdge e =>
    refine .lift_bind (ends_disconnect g e .staleEdge) ?_
    rintro _ rfl
    exact .of_ok rfl .removeEdge
  | removeBlock b =>
    refine .lift_bind (hblock b (by simp [Step.blocks])) fun block hb => ?_
    split
    · rename_i h
      exact .of_error rfl fun _ => .terminal (kind?_of_block? hb) h
    · refine .lift_bind (ends_discard hb) ?_
      rintro _ rfl
      exact .of_ok rfl .removeBlock
  | addPhi b v =>
    refine .lift_bind (hblock b (by simp [Step.blocks])) fun block hb => ?_
    split
    · exact .of_ok rfl .keepPhi
    · exact .of_ok rfl .addPhi
  | setPhiArg b v e value =>
    refine .lift_bind (hblock b (by simp [Step.blocks])) fun block hb => ?_
    cases hp : block.phis.get? v.name with
    | none => exact .of_error rfl fun _ => .noPhi hb hp
    | some p => exact .of_ok rfl .setPhiArg

theorem listed_addEdge {edge : Edge} {source target : Block} (hg : g.withoutPhis.Listed)
    (hs : g.block? edge.source = some source) (ht : g.block? edge.target = some target) :
    (g.addEdge edge).2.withoutPhis.Listed := by
  have live : ∀ {b block}, g.block? b = some block →
      g.withoutPhis.block? b = some block.withoutPhis := fun hb => by
    rw [block?_withoutPhis, hb, Option.map_some]
  rw [withoutPhis_addEdge]
  exact hg.addEdge (live hs) (live ht)

namespace Step.Performs

variable {s : Step}

theorem follows (h : s.Performs g g') : g.Follows g' := by
  cases h with
  | addBlock => exact .addBlock ..
  | addEdge => exact .addEdge ..
  | addConditionalEdges _ _ h₁ =>
    subst h₁
    exact (Follows.addEdge ..).trans (.addEdge ..)
  | removeEdge => exact .removeEdge ..
  | removeBlock => exact .removeBlock ..
  | keepPhi => exact .refl g
  | addPhi => exact .modifyBlock ..
  | setPhiArg => exact .modifyBlock ..

theorem keepsTerminals (h : s.Performs g g') : KeepsTerminals g g' := by
  cases h with
  | addBlock h => exact .addBlock g h
  | addEdge => exact .addEdge ..
  | addConditionalEdges _ _ h₁ =>
    subst h₁
    exact (KeepsTerminals.addEdge ..).trans (.addEdge ..)
  | removeEdge => exact .removeEdge ..
  | removeBlock => exact .removeBlock ..
  | keepPhi => exact .refl g
  | addPhi => exact .modifyBlock g _ fun _ => rfl
  | setPhiArg => exact .modifyBlock g _ fun _ => rfl

/-- Phi functions aside, the lists of the blocks and the table of edges agree after every step. -/
theorem listed (h : s.Performs g g') (hg : g.withoutPhis.Listed) :
    g'.withoutPhis.Listed := by
  cases h with
  | addBlock =>
    rw [withoutPhis_addBlock]
    exact hg.addBlock _
  | addEdge hs ht => exact listed_addEdge hg hs ht
  | addConditionalEdges hs ht h₁ hs₁ hf₁ =>
    subst h₁
    exact listed_addEdge (listed_addEdge hg hs ht) hs₁ hf₁
  | removeEdge =>
    rw [withoutPhis_removeEdge]
    exact hg.removeEdge _
  | removeBlock =>
    rw [withoutPhis_removeBlock]
    exact (hg.removeBlock _).listed
  | keepPhi => exact hg
  | addPhi | setPhiArg =>
    rw [withoutPhis_modifyPhis]
    · exact hg
    · exact fun _ => rfl

end Step.Performs

/-! ### Gentle steps -/

/-- **A step that leaves no phi function without an argument**: it adds blocks, removes edges or
blocks, or adds edges to blocks without phi functions. -/
def Step.Gentle (g : Graph) : Step → Prop
  | .addBlock _ => True
  | .addEdge _ target => g.Philess target
  | .addConditionalEdges _ ifTrue ifFalse => g.Philess ifTrue ∧ g.Philess ifFalse
  | .removeEdge _ => True
  | .removeBlock _ => True
  | .addPhi _ _ => False
  | .setPhiArg _ _ _ _ => False

instance (g : Graph) : (s : Step) → Decidable (s.Gentle g)
  | .addBlock _ => .isTrue trivial
  | .addEdge _ target => inferInstanceAs (Decidable (g.Philess target))
  | .addConditionalEdges _ t f => inferInstanceAs (Decidable (g.Philess t ∧ g.Philess f))
  | .removeEdge _ => .isTrue trivial
  | .removeBlock _ => .isTrue trivial
  | .addPhi _ _ => .isFalse id
  | .setPhiArg _ _ _ _ => .isFalse id

/-- **Phi functions stay complete** over a gentle step. -/
theorem Step.Performs.gentle {s : Step} (h : s.Performs g g') (hs : s.Gentle g) (hg : g.Listed)
    (hc : g.PhisComplete) : g'.Listed ∧ g'.PhisComplete := by
  cases h with
  | addBlock => exact ⟨hg.addBlock _, phisComplete_addBlock hc _⟩
  | addEdge hsource htarget => exact ⟨hg.addEdge hsource htarget, phisComplete_addEdge hc hs⟩
  | addConditionalEdges hsource htarget h₁ hsource₁ htarget₁ =>
    subst h₁
    exact ⟨(hg.addEdge hsource htarget).addEdge hsource₁ htarget₁,
      phisComplete_addEdge (phisComplete_addEdge hc hs.1) (hs.2.addEdge _)⟩
  | removeEdge => exact ⟨hg.removeEdge _, hg.phisComplete_removeEdge hc _⟩
  | @removeBlock b =>
    exact ⟨(hg.removeBlock b).listed, hg.phisComplete_foldl_removeBlock hc [b]⟩
  | keepPhi => exact hs.elim
  | addPhi => exact hs.elim
  | setPhiArg => exact hs.elim

/-! ### Several steps -/

/-- Steps each of which is gentle when its turn comes. -/
def Gently (g : Graph) : List Step → Prop
  | [] => True
  | s :: rest => s.Gentle g ∧ ∀ result g', g.perform s = .ok (result, g') → g'.Gently rest

instance decidableGently (g : Graph) : (steps : List Step) → Decidable (g.Gently steps)
  | [] => .isTrue trivial
  | s :: rest =>
    match h : g.perform s with
    | .ok (_, g') =>
      have := decidableGently g' rest
      decidable_of_iff (s.Gentle g ∧ g'.Gently rest) (by simp [Gently, h])
    | .error _ => decidable_of_iff (s.Gentle g) (by simp [Gently, h])

theorem performs_cons {s : Step} {rest : List Step} :
    g.performs (s :: rest) = .ok g' ↔
      ∃ result g₁, g.perform s = .ok (result, g₁) ∧ g₁.performs rest = .ok g' := by
  have hcons : g.performs (s :: rest) =
      (g.perform s >>= fun x => (x.2.performs rest : Answer Graph)) := by
    rw [performs, List.foldlM_cons, bind_assoc]
    rfl
  rw [hcons, bind_eq_ok, Prod.exists]

theorem performs_append {front : List Step} (h : g.performs front = .ok g') (rest : List Step) :
    g.performs (front ++ rest) = g'.performs rest := by
  rw [performs, List.foldlM_append]
  exact bind_of_ok h _

/-- **What steps of a batch keep.** -/
structure Edits (steps : List Step) (g g' : Graph) : Prop where
  follows : g.Follows g'
  keepsTerminals : KeepsTerminals g g'
  listed : g.withoutPhis.Listed → g'.withoutPhis.Listed
  gentle : g.Gently steps → g.Listed → g.PhisComplete → g'.Listed ∧ g'.PhisComplete

theorem edits_of_performs {steps : List Step} (h : g.performs steps = .ok g') :
    Edits steps g g' := by
  induction steps generalizing g with
  | nil =>
    cases h
    exact ⟨.refl _, .refl _, id, fun _ hg hc => ⟨hg, hc⟩⟩
  | cons s rest ih =>
    obtain ⟨result, g₁, hs, hrest⟩ := performs_cons.mp h
    have hone := (g.ends_perform s).ok hs
    have hmore := ih hrest
    refine ⟨hone.follows.trans hmore.follows, hone.keepsTerminals.trans hmore.keepsTerminals,
      fun hg => hmore.listed (hone.listed hg), ?_⟩
    rintro ⟨hgentle, hgently⟩ hg hc
    obtain ⟨hg₁, hc₁⟩ := hone.gentle hgentle hg hc
    exact hmore.gentle (hgently result g₁ hs) hg₁ hc₁

/-! ### Moments of a batch -/

theorem follows_during {steps : List Step} {m : Graph} (hm : m ∈ g.during steps) : g.Follows m := by
  induction steps generalizing g with
  | nil => cases hm
  | cons s rest ih =>
    rw [during] at hm
    cases hs : g.perform s with
    | error f =>
      rw [hs] at hm
      cases hm
    | ok x =>
      have hone := ((g.ends_perform s).ok hs).follows
      rw [hs] at hm
      rcases List.mem_cons.mp hm with rfl | hm
      · exact hone
      · exact hone.trans (ih hm)

theorem pairwise_during (g : Graph) (steps : List Step) : (g.during steps).Pairwise Follows := by
  induction steps generalizing g with
  | nil => exact .nil
  | cons s rest ih =>
    rw [during]
    split
    · exact .cons (fun m hm => follows_during hm) (ih _)
    · exact .nil

/-- The end of a batch follows all that comes about while it runs. -/
theorem during_follows {steps : List Step} (h : g.performs steps = .ok g') {m : Graph}
    (hm : m ∈ g.during steps) : m.Follows g' := by
  induction steps generalizing g with
  | nil => cases hm
  | cons s rest ih =>
    obtain ⟨result, g₁, hs, hrest⟩ := performs_cons.mp h
    rw [during, hs] at hm
    rcases List.mem_cons.mp hm with rfl | hm
    · exact (edits_of_performs hrest).follows
    · exact ih hrest hm

end Graph

/-! ### Batches as a whole -/

namespace Routine

variable {bad : Fault → Prop}

theorem ends_settle (r : Routine) {g : Graph} {good : Routine → Prop}
    (hok : g.checkWiring = .ok () → good (r.withGraph g))
    (herror : ∀ {v}, g.checkWiring = .error v → bad (.inconsistent g v)) :
    (r.settle g).Ends good bad := by
  rw [settle]
  cases hcheck : g.checkWiring with
  | ok u => exact .bind_ok (by rw [Graph.demandConsistent, hcheck]) (.pure (hok hcheck))
  | error v => exact .bind_error (by rw [Graph.demandConsistent, hcheck]) (herror hcheck)

/-- The steps of a batch from some point on. -/
theorem ends_performAll {g : Graph} (hg : g.Listed) {front : List Graph.Step} {r : Routine}
    (hfront : g.performs front = .ok r.graph) (steps : List Graph.Step) :
    (r.performAll steps).Ends (fun s => g.performs (front ++ steps) = .ok s.2.graph)
      ((Action.batch (front ++ steps)).Refused g) := by
  -- `front` collects the steps behind, so that a refusal names the graph it met
  induction steps generalizing front r with
  | nil => exact .pure (by rw [List.append_nil]; exact hfront)
  | cons s rest ih =>
    have hone : (r.perform s).Ends (fun x => r.graph.perform s = .ok (x.1, x.2.graph))
        ((Action.batch (front ++ s :: rest)).Refused g) := by
      rw [perform]
      cases hs : r.graph.perform s with
      | ok x => exact .bind_ok rfl (.pure rfl)
      | error f =>
        have hlisted := (Graph.edits_of_performs hfront).listed hg.withoutPhis
        exact .bind_error rfl (.step hfront
          ((r.graph.ends_perform s).error hs (Graph.joined_of_withoutPhis hlisted)))
    rw [performAll]
    refine hone.bind fun x hx => ?_
    have hnext : g.performs (front ++ [s]) = .ok x.2.graph := by
      rw [Graph.performs_append hfront]
      exact Graph.performs_cons.mpr ⟨x.1, x.2.graph, hx, rfl⟩
    have hmore := ih hnext
    rw [List.append_assoc, List.singleton_append] at hmore
    exact hmore.bind fun y hy => .pure hy

/-- **A batch** is refused for one of its steps, or because it leaves the graph unsound. -/
theorem ends_runBatch (r : Routine) (hg : r.graph.WellFormed) (steps : List Graph.Step) :
    (r.runBatch steps).Ends
      (fun x => r.graph.performs steps = .ok x.2.graph ∧ x.2.graph.WellFormed)
      ((Action.batch steps).Refused r.graph) := by
  rw [runBatch, batch]
  have hstart : r.graph.performs [] = .ok r.graph := rfl
  refine (ends_performAll hg.listed hstart steps).bind ?_
  rintro ⟨results, r'⟩ hr'
  have hkeeps := (Graph.edits_of_performs hr').keepsTerminals
  have hsettle : (r'.settle r'.graph).Ends
      (fun r'' => r''.graph = r'.graph ∧ r'.graph.WellFormed)
      ((Action.batch steps).Refused r.graph) :=
    r'.ends_settle (fun hcheck => ⟨rfl, hg.of_keepsTerminals hkeeps hcheck⟩)
      fun herror => .unsound hr' herror
  refine hsettle.bind ?_
  rintro r'' ⟨heq, hwf⟩
  exact .pure ⟨heq ▸ hr', heq ▸ hwf⟩

end Routine
end FlowGraph
