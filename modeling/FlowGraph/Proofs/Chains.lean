import FlowGraph.Proofs.Rerouting

/-! # Replacing a block by a chain

A chain is built from its first block on, and the edge to the old successor is moved to its end last
of all.  On the way the first block has an edge too many and the last one an edge too few; the rest
of the graph is in order.  `Open` says so, and that closing the chain gives a well-formed graph.
-/
namespace FlowGraph

/-- A block that an edge leaves or enters, last in its lists. -/
def Block.joined (e : EdgeId) (leaves enters : Bool) (b : Block) : Block :=
  { b with
    succs := b.succs ++ if leaves then [e] else []
    preds := b.preds ++ if enters then [e] else [] }

section
variable {es : List EdgeId} {e new : EdgeId} {joins : Bool}

theorem mem_append_if :
    e ∈ es ++ (if joins then [new] else []) ↔ e ∈ es ∨ joins = true ∧ e = new := by
  cases joins with
  | false => simp
  | true => simp

theorem nodup_append_if (hes : es.Nodup) (hnew : new ∉ es) :
    (es ++ if joins then [new] else []).Nodup := by
  cases joins with
  | false => simpa using hes
  | true => exact hes.append (List.nodup_singleton _) (List.disjoint_singleton.mpr hnew)

end

namespace Graph

variable {g : Graph}

/-! ### New blocks and edges -/

theorem Listed.addBlock (hg : g.Listed) (k : Kind) : (g.addBlock k).2.Listed := by
  have hinv : ∀ {c block}, (g.addBlock k).2.block? c = some block →
      g.block? c = some block ∨ c = ⟨g.blocks.size⟩ ∧
      block = { id := ⟨g.blocks.size⟩, kind := k } := by
    intro c block hc
    rw [block?_addBlock] at hc
    split at hc
    · rename_i heq
      exact .inr ⟨heq, (Option.some.inj hc).symm⟩
    · exact .inl hc
  have hlive : ∀ {c}, (∃ block, g.block? c = some block) →
      ∃ block, (g.addBlock k).2.block? c = some block := by
    rintro c ⟨block, hc⟩
    have hne : c ≠ ⟨g.blocks.size⟩ := ne_nextBlock hc
    exact ⟨block, by rw [block?_addBlock, if_neg hne, hc]⟩
  constructor
  case id_eq =>
    intro c block hc
    rcases hinv hc with hc | ⟨rfl, rfl⟩
    · exact hg.id_eq hc
    · rfl
  case mem_succs =>
    intro c block hc e
    rcases hinv hc with hc | ⟨rfl, rfl⟩
    · exact hg.mem_succs hc e
    · -- No edge can leave the new block yet, since its slot was free.
      exact ⟨nofun, fun ⟨edge, he, hs⟩ => absurd hs (hg.source_ne_nextBlock he)⟩
  case mem_preds =>
    intro c block hc e
    rcases hinv hc with hc | ⟨rfl, rfl⟩
    · exact hg.mem_preds hc e
    · exact ⟨nofun, fun ⟨edge, he, ht⟩ => absurd ht (hg.target_ne_nextBlock he)⟩
  case nodup_succs =>
    intro c block hc
    rcases hinv hc with hc | ⟨rfl, rfl⟩
    · exact hg.nodup_succs hc
    · exact List.nodup_nil
  case nodup_preds =>
    intro c block hc
    rcases hinv hc with hc | ⟨rfl, rfl⟩
    · exact hg.nodup_preds hc
    · exact List.nodup_nil
  case source_live => exact fun he => hlive (hg.source_live he)
  case target_live => exact fun he => hlive (hg.target_live he)
  case args_enter =>
    intro c block hc name p hp
    rcases hinv hc with hc | ⟨rfl, rfl⟩
    · exact hg.args_enter hc hp
    · cases hp

theorem block?_addEdge (g : Graph) (edge : Edge) (c : BlockId) :
    (g.addEdge edge).2.block? c =
      (g.block? c).map (Block.joined g.headOf (c = edge.source) (c = edge.target)) := by
  have hnew : (g.addUnlistedEdge edge).1 = g.headOf := rfl
  unfold Graph.addEdge
  simp only [block?_modifyBlock, block?_addUnlistedEdge, hnew]
  cases g.block? c with
  | none => simp
  | some block =>
    simp only [Option.map_some, Block.joined, decide_eq_true_eq]
    split
    · split
      · rfl
      · simp
    · split
      · simp
      · simp

theorem edge?_addEdge_eq_some {edge : Edge} {e : EdgeId} {x : Edge} :
    (g.addEdge edge).2.edge? e = some x ↔ g.edge? e = some x ∨ e = g.headOf ∧ x = edge := by
  rw [edge?_addEdge]
  show (if e = g.headOf then some edge else g.edge? e) = some x ↔ _
  by_cases he : e = g.headOf
  · simp [he, edge?_headOf, eq_comm]
  · simp [he]

theorem Listed.addEdge (hg : g.Listed) {edge : Edge} {source target : Block}
    (hs : g.block? edge.source = some source) (ht : g.block? edge.target = some target) :
    (g.addEdge edge).2.Listed := by
  have hinv : ∀ {c block'}, (g.addEdge edge).2.block? c = some block' → ∃ block,
      g.block? c = some block ∧
        block' = block.joined g.headOf (c = edge.source) (c = edge.target) := by
    intro c block' hc
    rw [block?_addEdge] at hc
    obtain ⟨block, hb, rfl⟩ := Option.map_eq_some_iff.mp hc
    exact ⟨block, hb, rfl⟩
  have hlive : ∀ {c block}, g.block? c = some block →
      ∃ block', (g.addEdge edge).2.block? c = some block' := fun {c block} hb =>
    ⟨_, by rw [block?_addEdge, hb]; rfl⟩
  constructor
  case id_eq =>
    intro c block' hc
    obtain ⟨block, hb, rfl⟩ := hinv hc
    have hid : block.id = c := hg.id_eq hb
    exact hid
  case mem_succs =>
    intro c block' hc e
    obtain ⟨block, hb, rfl⟩ := hinv hc
    simp only [Block.joined, mem_append_if, hg.mem_succs hb, edge?_addEdge_eq_some]
    constructor
    · rintro (⟨x, hx, hsrc⟩ | ⟨hc, he⟩)
      · exact ⟨x, .inl hx, hsrc⟩
      · exact ⟨edge, .inr ⟨he, rfl⟩, (of_decide_eq_true hc).symm⟩
    · rintro ⟨x, hx | ⟨he, rfl⟩, hsrc⟩
      · exact .inl ⟨x, hx, hsrc⟩
      · exact .inr ⟨decide_eq_true hsrc.symm, he⟩
  case mem_preds =>
    intro c block' hc e
    obtain ⟨block, hb, rfl⟩ := hinv hc
    simp only [Block.joined, mem_append_if, hg.mem_preds hb, edge?_addEdge_eq_some]
    constructor
    · rintro (⟨x, hx, htgt⟩ | ⟨hc, he⟩)
      · exact ⟨x, .inl hx, htgt⟩
      · exact ⟨edge, .inr ⟨he, rfl⟩, (of_decide_eq_true hc).symm⟩
    · rintro ⟨x, hx | ⟨he, rfl⟩, htgt⟩
      · exact .inl ⟨x, hx, htgt⟩
      · exact .inr ⟨decide_eq_true htgt.symm, he⟩
  case nodup_succs =>
    intro c block' hc
    obtain ⟨block, hb, rfl⟩ := hinv hc
    exact nodup_append_if (hg.nodup_succs hb) (hg.notMem_succs hb g.edge?_headOf)
  case nodup_preds =>
    intro c block' hc
    obtain ⟨block, hb, rfl⟩ := hinv hc
    exact nodup_append_if (hg.nodup_preds hb) (hg.notMem_preds hb g.edge?_headOf)
  case source_live =>
    intro e x he
    rcases edge?_addEdge_eq_some.mp he with he | ⟨-, rfl⟩
    · obtain ⟨block, hb⟩ := hg.source_live he
      exact hlive hb
    · exact hlive hs
  case target_live =>
    intro e x he
    rcases edge?_addEdge_eq_some.mp he with he | ⟨-, rfl⟩
    · obtain ⟨block, hb⟩ := hg.target_live he
      exact hlive hb
    · exact hlive ht
  case args_enter =>
    intro c block' hc name p hp e v hv
    obtain ⟨block, hb, rfl⟩ := hinv hc
    exact List.mem_append_left _ (hg.args_enter hb hp hv)

/-- A block has no phi functions, if it is there. -/
def Philess (g : Graph) (b : BlockId) : Prop :=
  ∀ block, g.block? b = some block → block.phis = .empty

instance (g : Graph) (b : BlockId) : Decidable (g.Philess b) :=
  match h : g.block? b with
  | some block => decidable_of_iff (block.phis = .empty) (by simp [Philess, h])
  | none => .isTrue fun _ hb => by rw [h] at hb; cases hb

theorem phisComplete_addBlock (hc : g.PhisComplete) (k : Kind) : (g.addBlock k).2.PhisComplete := by
  intro b block hb
  rw [block?_addBlock] at hb
  split at hb
  · cases hb
    exact Block.complete_of_empty rfl
  · exact hc hb

/-- An edge to a block without phi functions needs no arguments. -/
theorem phisComplete_addEdge (hc : g.PhisComplete) {edge : Edge} (ht : g.Philess edge.target) :
    (g.addEdge edge).2.PhisComplete := by
  intro b block' hb'
  rw [block?_addEdge] at hb'
  obtain ⟨block, hb, rfl⟩ := Option.map_eq_some_iff.mp hb'
  by_cases heq : b = edge.target
  · exact Block.complete_of_empty (ht block (heq ▸ hb))
  · intro name p hp e he
    rcases mem_append_if.mp he with he | ⟨henters, -⟩
    · exact hc hb hp e he
    · exact absurd (of_decide_eq_true henters) heq

theorem Philess.addEdge {b : BlockId} (h : g.Philess b) (edge : Edge) :
    (g.addEdge edge).2.Philess b := by
  intro block' hb'
  rw [block?_addEdge] at hb'
  obtain ⟨block, hb, rfl⟩ := Option.map_eq_some_iff.mp hb'
  exact h block hb

/-! ### A chain in the making -/

/-- **A graph with a chain in the making**: `last` has no way on yet, and `link` leads to `succ`
from a block that has another way on already, unless it is `last` itself. -/
structure Open (g : Graph) (succ last : BlockId) (link : EdgeId) : Prop extends g.Listed where
  entry_iff : ∀ {b}, g.kind? b = some .entry ↔ b = entry
  entry_closed : ∀ {e edge}, g.edge? e = some edge → edge.target ≠ entry
  exit_iff : ∀ {b}, g.kind? b = some .exit ↔ b = exit
  exit_closed : ∀ {e edge}, g.edge? e = some edge → edge.source ≠ exit
  link_live : ∃ a, g.edge? link = some ⟨a, succ, .always⟩
  last_kind : ∃ k, g.kind? last = some k ∧ k.Straight
  last_open : ∀ {e t d}, g.edge? e = some ⟨last, t, d⟩ → e = link
  ways : ∀ {b k}, g.kind? b = some k → k ≠ .exit → b ≠ last →
    ∀ d, (∃ e t, e ≠ link ∧ g.edge? e = some ⟨b, t, d⟩) ↔ d ∈ k.directions
  one_way : ∀ {b d e e' t t'}, e ≠ link → e' ≠ link → g.edge? e = some ⟨b, t, d⟩ →
    g.edge? e' = some ⟨b, t', d⟩ → e = e'

section
variable {succ last b : BlockId} {link : EdgeId} {k : Kind}

/-- The chain starts with a block of a well-formed graph. -/
theorem WellFormed.open (hg : g.WellFormed) (hk : g.kind? b = some k) (hs : k.Straight)
    (hlink : g.edge? link = some ⟨b, succ, .always⟩) : Open g succ b link where
  toListed := hg.listed
  entry_iff := ⟨hg.entry_only, fun h => h ▸ hg.wired.entry_kind⟩
  entry_closed := hg.wired.entry_closed
  exit_iff := ⟨hg.exit_only, fun h => h ▸ hg.wired.exit_kind⟩
  exit_closed := hg.wired.exit_closed
  link_live := ⟨b, hlink⟩
  last_kind := ⟨k, hk, hs⟩
  last_open {e t d} he := by
    have hd := (hg.wired.ways hk hs.ne_exit d).mp ⟨e, t, he⟩
    rw [hs.directions_eq, List.mem_singleton] at hd
    subst hd
    exact hg.edge_unique he hlink
  ways {c k'} hk' hne hcb d := by
    rw [← hg.wired.ways hk' hne d]
    constructor
    · rintro ⟨e, t, -, he⟩
      exact ⟨e, t, he⟩
    · rintro ⟨e, t, he⟩
      refine ⟨e, t, ?_, he⟩
      rintro rfl
      rw [hlink] at he
      cases he
      exact hcb rfl
  one_way _ _ he he' := hg.edge_unique he he'

end

section
variable {succ last t : BlockId} {link new : EdgeId} (h : Open g succ last link)
include h

theorem Open.last_ne_exit : last ≠ exit := by
  obtain ⟨k, hk, hs⟩ := h.last_kind
  intro heq
  rw [h.exit_iff.mpr heq] at hk
  exact hs.ne_exit (Option.some.inj hk).symm

/-- **With one more edge, the one that `last` lacks**, every block has the ways on that it should.
-/
theorem Open.ways_onward (hnew : new ≠ link) {c : BlockId} {k : Kind} (hk : g.kind? c = some k)
    (hexit : k ≠ .exit) (d : Direction) :
    (∃ e t', e ≠ link ∧ (g.edge? e = some ⟨c, t', d⟩ ∨
      e = new ∧ (⟨c, t', d⟩ : Edge) = ⟨last, t, .always⟩)) ↔ d ∈ k.directions := by
  by_cases hc : c = last
  · subst hc
    obtain ⟨klast, hlast, hstraight⟩ := h.last_kind
    rw [hlast] at hk
    cases hk
    rw [hstraight.directions_eq, List.mem_singleton]
    constructor
    · rintro ⟨e, t', hel, he | ⟨-, heq⟩⟩
      · exact absurd (h.last_open he) hel
      · cases heq
        rfl
    · rintro rfl
      exact ⟨new, t, hnew, .inr ⟨rfl, rfl⟩⟩
  · rw [← h.ways hk hexit hc d]
    constructor
    · rintro ⟨e, t', hel, he | ⟨-, heq⟩⟩
      · exact ⟨e, t', hel, he⟩
      · cases heq
        exact absurd rfl hc
    · rintro ⟨e, t', hel, he⟩
      exact ⟨e, t', hel, .inl he⟩

theorem Open.one_way_onward {c : BlockId} {d : Direction} {e e' : EdgeId} {t₁ t₂ : BlockId}
    (he : e ≠ link ∧ (g.edge? e = some ⟨c, t₁, d⟩ ∨
      e = new ∧ (⟨c, t₁, d⟩ : Edge) = ⟨last, t, .always⟩))
    (he' : e' ≠ link ∧ (g.edge? e' = some ⟨c, t₂, d⟩ ∨
      e' = new ∧ (⟨c, t₂, d⟩ : Edge) = ⟨last, t, .always⟩)) : e = e' := by
  obtain ⟨hel, he⟩ := he
  obtain ⟨hel', he'⟩ := he'
  rcases he with he | ⟨rfl, heq⟩ <;> rcases he' with he' | ⟨rfl, heq'⟩
  · exact h.one_way hel hel' he he'
  · cases heq'
    exact absurd (h.last_open he) hel
  · cases heq
    exact absurd (h.last_open he') hel'
  · rfl

end

/-! ### One more block -/

/-- The graph with a new block behind another. -/
def appended (g : Graph) (last : BlockId) (k : Kind) : Graph :=
  ((g.addBlock k).2.addEdge ⟨last, g.nextBlock, .always⟩).2

section
variable {succ last : BlockId} {link : EdgeId} {k : Kind}

theorem block?_appended (c : BlockId) : (g.appended last k).block? c =
    ((if c = g.nextBlock then some { id := g.nextBlock, kind := k } else g.block? c).map
      (Block.joined g.headOf (c = last) (c = g.nextBlock))) := by
  rw [appended, block?_addEdge, block?_addBlock]
  rfl

theorem kind?_appended (c : BlockId) :
    (g.appended last k).kind? c = if c = g.nextBlock then some k else g.kind? c := by
  rw [kind?, block?_appended, Option.map_map]
  split
  · rfl
  · rfl

theorem edge?_appended {e : EdgeId} {x : Edge} : (g.appended last k).edge? e = some x ↔
    g.edge? e = some x ∨ e = g.headOf ∧ x = ⟨last, g.nextBlock, .always⟩ :=
  edge?_addEdge_eq_some

theorem block?_addBlock_nextBlock (g : Graph) (k : Kind) :
    (g.addBlock k).2.block? g.nextBlock = some { id := g.nextBlock, kind := k } := by
  rw [block?_addBlock]
  exact if_pos rfl

theorem Listed.appended (hg : g.Listed) {k' : Kind} (hlast : g.kind? last = some k') :
    (g.appended last k).Listed := by
  obtain ⟨block, hb, -⟩ := block?_of_kind? hlast
  have hsource : (g.addBlock k).2.block? last = some block := by
    rw [block?_addBlock]
    exact (if_neg (ne_nextBlock hb)).trans hb
  exact (hg.addBlock k).addEdge hsource (block?_addBlock_nextBlock g k)

theorem phisComplete_appended (hc : g.PhisComplete) : (g.appended last k).PhisComplete := by
  refine phisComplete_addEdge (phisComplete_addBlock hc k) fun block hb => ?_
  have hnew := (block?_addBlock_nextBlock g k).symm.trans hb
  cases hnew
  rfl

/-- **The chain grows by a block.** -/
theorem Open.appended (h : Open g succ last link) (hs : k.Straight) :
    Open (g.appended last k) succ g.nextBlock link := by
  obtain ⟨klast, hlast, hstraight⟩ := h.last_kind
  obtain ⟨a, hlink⟩ := h.link_live
  -- a block that leads one way adds no entry and no exit
  have hold : ∀ {c k'}, k' ≠ k → ((g.appended last k).kind? c = some k' ↔ g.kind? c = some k') := by
    intro c k' hk'
    rw [kind?_appended]
    split
    · rename_i hc
      rw [hc, kind?_nextBlock]
      exact ⟨fun heq => absurd (Option.some.inj heq).symm hk', nofun⟩
    · rfl
  have hnew : g.headOf ≠ link := fun heq => by
    rw [← heq, edge?_headOf] at hlink
    cases hlink
  refine { h.toListed.appended hlast with
    entry_iff := (hold hs.ne_entry.symm).trans h.entry_iff, entry_closed := ?entry_closed
    exit_iff := (hold hs.ne_exit.symm).trans h.exit_iff, exit_closed := ?exit_closed
    link_live := ⟨a, edge?_appended.mpr (.inl hlink)⟩
    last_kind := ⟨k, by rw [kind?_appended, if_pos rfl], hs⟩
    last_open := ?last_open, ways := ?ways, one_way := ?one_way }
  case entry_closed =>
    intro e x he
    rcases edge?_appended.mp he with he | ⟨-, rfl⟩
    · exact h.entry_closed he
    · show g.nextBlock ≠ entry
      intro heq
      have hentry := h.entry_iff.mpr heq
      rw [kind?_nextBlock] at hentry
      cases hentry
  case exit_closed =>
    intro e x he
    rcases edge?_appended.mp he with he | ⟨-, rfl⟩
    · exact h.exit_closed he
    · exact h.last_ne_exit
  case last_open =>
    intro e t d he
    rcases edge?_appended.mp he with he | ⟨-, heq⟩
    · exact absurd rfl (h.toListed.source_ne_nextBlock he)
    · cases heq
      rw [kind?_nextBlock] at hlast
      cases hlast
  case ways =>
    intro c k' hk' hexit hc d
    rw [kind?_appended, if_neg hc] at hk'
    simp only [edge?_appended]
    exact h.ways_onward hnew hk' hexit d
  case one_way =>
    intro c d e e' t t' hel hel' he he'
    exact h.one_way_onward ⟨hel, edge?_appended.mp he⟩ ⟨hel', edge?_appended.mp he'⟩

/-- **The chain grows block by block.** -/
theorem Open.extendChain (h : Open g succ last link) {ks : List Kind} (hks : ∀ k ∈ ks, k.Straight) :
    Open (g.extendChain last ks).2 succ ((g.extendChain last ks).1.getLast?.getD last) link := by
  induction ks generalizing g last with
  | nil => exact h
  | cons k ks ih =>
    obtain ⟨hk, hks⟩ := List.forall_mem_cons.mp hks
    have hrest := ih (h.appended hk) hks
    show Open ((g.appended last k).extendChain g.nextBlock ks).2 succ
      ((g.nextBlock :: ((g.appended last k).extendChain g.nextBlock ks).1).getLast?.getD last) link
    rw [List.getLast?_cons]
    exact hrest

/-- The blocks that a chain leads between are in use when they are connected. -/
theorem Open.appendChain_eq (h : Open g succ last link) {ks : List Kind}
    (hks : ∀ k ∈ ks, k.Straight) : g.appendChain last ks = .ok (g.extendChain last ks) := by
  induction ks generalizing g last with
  | nil => rfl
  | cons k ks ih =>
    obtain ⟨hk, hks⟩ := List.forall_mem_cons.mp hks
    obtain ⟨k', hlast, -⟩ := h.last_kind
    obtain ⟨block, hb, -⟩ := block?_of_kind? hlast
    have hconnect : (g.addBlock k).2.connect ⟨last, g.nextBlock, .always⟩ =
        .ok ((g.addBlock k).2.addEdge ⟨last, g.nextBlock, .always⟩) :=
      connect_eq_ok.mpr ⟨exists_block_addBlock k ⟨block, hb⟩,
        ⟨_, block?_addBlock_nextBlock g k⟩, rfl⟩
    rw [appendChain]
    exact (bind_of_ok hconnect _).trans (bind_of_ok (ih (h.appended hk) hks) _)

theorem phisComplete_extendChain (hc : g.PhisComplete) (ks : List Kind) :
    (g.extendChain last ks).2.PhisComplete := by
  induction ks generalizing g last with
  | nil => exact hc
  | cons k ks ih => exact ih (phisComplete_appended hc)

/-! ### Closing the chain -/

/-- The graph with the way on moved to the end of the chain. -/
def close (g : Graph) (succ last : BlockId) (link : EdgeId) : Graph :=
  ((g.addEdge ⟨last, succ, .always⟩).2.modifyBlock succ fun s =>
    { s with phis := s.phis.map (·.moveArg link g.headOf) }).removeEdge link

/-- The graph with the chain closed, if there is more of it than the block that it starts with. -/
def closeBehind (g : Graph) (succ : BlockId) (last : Option BlockId) (link : EdgeId) : Graph :=
  match last with
  | none => g
  | some last => g.close succ last link

theorem edge?_close {e : EdgeId} {x : Edge} : (g.close succ last link).edge? e = some x ↔
    e ≠ link ∧ (g.edge? e = some x ∨ e = g.headOf ∧ x = ⟨last, succ, .always⟩) := by
  rw [close, edge?_removeEdge_eq_some, edge?_modifyBlock, edge?_addEdge_eq_some]

section
variable (h : Open g succ last link)
include h

/-- No phi function has an argument for an edge that is new. -/
theorem Open.arg?_headOf {c : BlockId} {block : Block} (hc : g.block? c = some block)
    {name : String} {p : Phi} (hp : block.phis.get? name = some p) : p.arg? g.headOf = none := by
  cases harg : p.arg? g.headOf with
  | none => rfl
  | some v => exact absurd (h.args_enter hc hp harg) (h.toListed.notMem_preds hc g.edge?_headOf)

/-- Before the old way on is gone, the lists are in order. -/
theorem Open.listed_moved : ((g.addEdge ⟨last, succ, .always⟩).2.modifyBlock succ fun s =>
    { s with phis := s.phis.map (·.moveArg link g.headOf) }).Listed := by
  obtain ⟨k, hlast, -⟩ := h.last_kind
  obtain ⟨lastBlock, hb, -⟩ := block?_of_kind? hlast
  obtain ⟨a, hlink⟩ := h.link_live
  obtain ⟨succBlock, hs⟩ := h.target_live hlink
  have hlisted : (g.addEdge ⟨last, succ, .always⟩).2.Listed := h.toListed.addEdge hb hs
  have hsame : SameOutline _ ((g.addEdge ⟨last, succ, .always⟩).2.modifyBlock succ fun s =>
      { s with phis := s.phis.map (·.moveArg link g.headOf) }) := .modifyBlock _ succ fun _ => rfl
  refine hlisted.of_outline hsame fun {c block'} hc' {name p'} hp' {e v} hv => ?_
  rcases block?_modifyBlock_eq_some hc' with ⟨-, hc⟩ | ⟨block, -, hc, rfl⟩
  · exact hlisted.args_enter hc hp' hv
  · -- an argument of the successor is the moved one, or was there before
    simp only [Phis.map, OrdMap.get?_mapValues, Option.map_eq_some_iff] at hp'
    obtain ⟨p, hp, rfl⟩ := hp'
    rw [block?_addEdge] at hc
    obtain ⟨old, hold, rfl⟩ := Option.map_eq_some_iff.mp hc
    rw [Phi.arg?_moveArg (h.arg?_headOf hold hp)] at hv
    apply mem_append_if.mpr
    split at hv
    · rename_i heq
      exact .inr ⟨decide_eq_true rfl, heq⟩
    · split at hv
      · cases hv
      · exact .inl (h.args_enter hold hp hv)

omit h in
theorem Open.attachChain_eq {last? : Option BlockId} (h : Open g succ (last?.getD b) link) :
    g.attachChain last? link succ = .ok (g.closeBehind succ last? link) := by
  cases last? with
  | none => rfl
  | some last =>
    obtain ⟨k, hlast, -⟩ := h.last_kind
    obtain ⟨block, hb, -⟩ := block?_of_kind? hlast
    obtain ⟨a, hlink⟩ := h.link_live
    obtain ⟨target, hsucc⟩ : ∃ block, g.block? succ = some block := h.target_live hlink
    have hconnect : g.connect ⟨last, succ, .always⟩ = .ok (g.addEdge ⟨last, succ, .always⟩) :=
      connect_eq_ok.mpr ⟨⟨block, hb⟩, ⟨target, hsucc⟩, rfl⟩
    have hstill : ∃ block, (g.addEdge ⟨last, succ, .always⟩).2.block? succ = some block :=
      ⟨_, by rw [block?_addEdge, hsucc]; rfl⟩
    rw [attachChain, bind_of_ok hconnect]
    refine (bind_of_ok (update_eq_ok.mpr ⟨hstill, rfl⟩) _).trans ?_
    exact h.listed_moved.joined.disconnect_eq (edge?_addEdge_eq_some.mpr (.inl hlink))

theorem Open.kind?_close (c : BlockId) : (g.close succ last link).kind? c = g.kind? c := by
  have hadded : (g.addEdge ⟨last, succ, .always⟩).2.kind? c = g.kind? c := by
    rw [kind?, block?_addEdge, Option.map_map]
    rfl
  rw [close, h.listed_moved.kind?_removeEdge, ← hadded, kind?, block?_modifyBlock]
  split
  · rw [Option.map_map]
    rfl
  · rfl

/-- **A closed chain** leaves the graph well-formed. -/
theorem Open.wellFormed_close : (g.close succ last link).WellFormed := by
  obtain ⟨a, hlink⟩ := h.link_live
  have hnew : g.headOf ≠ link := fun heq => by
    rw [← heq, edge?_headOf] at hlink
    cases hlink
  have hkind := h.kind?_close
  refine ⟨checkWiring_iff.mpr { h.listed_moved.removeEdge link with
    entry_kind := (hkind _).trans (h.entry_iff.mpr rfl), entry_closed := ?entry_closed
    exit_kind := (hkind _).trans (h.exit_iff.mpr rfl), exit_closed := ?exit_closed
    ways := ?ways, one_way := ?one_way }, fun hk => h.entry_iff.mp ((hkind _).symm.trans hk),
    fun hk => h.exit_iff.mp ((hkind _).symm.trans hk)⟩
  case entry_closed =>
    intro e x he
    rcases (edge?_close.mp he).2 with he | ⟨-, rfl⟩
    · exact h.entry_closed he
    · have hsucc : succ ≠ entry := h.entry_closed hlink
      exact hsucc
  case exit_closed =>
    intro e x he
    rcases (edge?_close.mp he).2 with he | ⟨-, rfl⟩
    · exact h.exit_closed he
    · exact h.last_ne_exit
  case ways =>
    intro c k hk hexit d
    rw [hkind] at hk
    simp only [edge?_close]
    exact h.ways_onward hnew hk hexit d
  case one_way =>
    intro c k hk hexit d e e' t t' he he'
    exact h.one_way_onward (edge?_close.mp he) (edge?_close.mp he')

/-- The argument for the old way on is the one for the new way on. -/
theorem Open.phisComplete_close (hc : g.PhisComplete) : (g.close succ last link).PhisComplete := by
  obtain ⟨a, hlink⟩ := h.link_live
  intro c block' hb'
  rw [close, h.listed_moved.block?_removeEdge] at hb'
  obtain ⟨block₁, hb₁, rfl⟩ := Option.map_eq_some_iff.mp hb'
  show ([link].foldl (fun b e => b.without e) block₁).Complete
  refine Block.complete_foldl_without fun name p' hp' e he hne => ?_
  rw [List.mem_singleton] at hne
  rcases block?_modifyBlock_eq_some hb₁ with ⟨hcs, hb₁⟩ | ⟨block, rfl, hb, rfl⟩
  · rw [block?_addEdge] at hb₁
    obtain ⟨old, hold, rfl⟩ := Option.map_eq_some_iff.mp hb₁
    rcases mem_append_if.mp he with hin | ⟨heq, -⟩
    · exact hc hold hp' e hin
    · exact absurd (of_decide_eq_true heq) hcs
  · rw [block?_addEdge] at hb
    obtain ⟨old, hold, rfl⟩ := Option.map_eq_some_iff.mp hb
    simp only [Phis.map, OrdMap.get?_mapValues, Option.map_eq_some_iff] at hp'
    obtain ⟨p, hp, rfl⟩ := hp'
    apply Phi.exists_arg?_moveArg (hc hold hp)
    rcases mem_append_if.mp he with hin | ⟨-, rfl⟩
    · exact mem_renameIn.mpr (.inl ⟨hin, hne⟩)
    · exact mem_renameIn.mpr (.inr ⟨rfl, (h.mem_preds hold link).mpr ⟨_, hlink, rfl⟩⟩)

end

end

/-! ### The operation -/

/-- A chain that starts with a block of a given kind. -/
def chainFrom (k : Kind) (rest : Answer (List Kind)) : Answer (List Kind) :=
  if k.isBranch then .error .branchInChain
  else if k.isTerminal then .error .terminalInChain
  else do return k :: (← rest)

section
variable {b : BlockId} {own : Option Kind} {k : Kind} {rs : List Replacement}
  {ks : List Kind} {f : Fault}
  {rest : Answer (List Kind)}

theorem chainKinds_itself :
    chainKinds b (some k) (.itself :: rs) = chainFrom k (chainKinds b none rs) := by
  rw [chainKinds]
  rfl

theorem chainKinds_block :
    chainKinds b own (.block k :: rs) = chainFrom k (chainKinds b own rs) := by
  rw [chainKinds]
  rfl

theorem chainFrom_eq_ok (h : chainFrom k rest = .ok ks) :
    k.Straight ∧ ∃ ks', rest = .ok ks' ∧ ks = k :: ks' := by
  rw [chainFrom] at h
  split at h
  · cases h
  split at h
  · cases h
  rename_i hbranch hterm
  rw [Bool.not_eq_true] at hbranch hterm
  cases rest with
  | error f => cases h
  | ok ks' => exact ⟨Kind.straight_of hbranch hterm, ks', rfl, (Except.ok.inj h).symm⟩

theorem chainFrom_eq_error (h : chainFrom k rest = .error f) :
    k.isBranch = true ∧ f = .branchInChain ∨ k.isTerminal = true ∧ f = .terminalInChain ∨
      rest = .error f := by
  rw [chainFrom] at h
  split at h
  · rename_i hbranch
    exact .inl ⟨hbranch, (Except.error.inj h).symm⟩
  split at h
  · rename_i hterm
    exact .inr (.inl ⟨hterm, (Except.error.inj h).symm⟩)
  cases rest with
  | error f' => exact .inr (.inr (congrArg _ (Except.error.inj h)))
  | ok ks' => cases h

/-- **A chain is made of blocks that lead one way.** -/
theorem straight_of_chainKinds (h : chainKinds b own rs = .ok ks) : ∀ k ∈ ks, k.Straight := by
  have hcons : ∀ {k rest ks}, chainFrom k rest = .ok ks →
      (∀ {ks'}, rest = .ok ks' → ∀ k' ∈ ks', k'.Straight) → ∀ k' ∈ ks, k'.Straight := by
    intro k rest ks h hrest
    obtain ⟨hk, ks', hks', rfl⟩ := chainFrom_eq_ok h
    exact List.forall_mem_cons.mpr ⟨hk, hrest hks'⟩
  induction rs generalizing own ks with
  | nil =>
    cases h
    exact fun _ hk => absurd hk List.not_mem_nil
  | cons r rs ih =>
    cases r with
    | block k => exact hcons (chainKinds_block ▸ h) ih
    | itself =>
      cases own with
      | none => cases h
      | some k => exact hcons (chainKinds_itself ▸ h) ih

/-- **Why a chain is refused**: it uses the block twice, or has a branch or a terminal block. -/
theorem chainKinds_error (hown : ∀ {k}, own = some k → k.Straight)
    (h : chainKinds b own rs = .error f) :
    f = .repeatedInChain b ∧ (if own.isSome then 2 else 1) ≤ rs.count .itself ∨
      f = .branchInChain ∧ (∃ k, .block k ∈ rs ∧ k.isBranch = true) ∨
      f = .terminalInChain ∧ ∃ k, .block k ∈ rs ∧ k.isTerminal = true := by
  induction rs generalizing own with
  | nil => cases h
  | cons r rs ih =>
    have hmem : ∀ {P : Kind → Prop}, (∃ k, .block k ∈ rs ∧ P k) → ∃ k, .block k ∈ r :: rs ∧ P k :=
      fun ⟨k, hin, hk⟩ => ⟨k, List.mem_cons_of_mem _ hin, hk⟩
    cases r with
    | block k =>
      rw [chainKinds_block] at h
      rcases chainFrom_eq_error h with ⟨hk, rfl⟩ | ⟨hk, rfl⟩ | hrest
      · exact .inr (.inl ⟨rfl, k, List.mem_cons_self, hk⟩)
      · exact .inr (.inr ⟨rfl, k, List.mem_cons_self, hk⟩)
      · have hcount : (Replacement.block k :: rs).count .itself = rs.count .itself :=
          List.count_cons_of_ne fun heq => by cases heq
        rw [hcount]
        exact (ih hown hrest).imp_right fun h => h.imp (.imp_right hmem) (.imp_right hmem)
    | itself =>
      rw [List.count_cons_self]
      cases own with
      | none =>
        cases h
        exact .inl ⟨rfl, Nat.le_add_left 1 _⟩
      | some k =>
        rw [chainKinds_itself] at h
        have hk : k.Straight := hown rfl
        rcases chainFrom_eq_error h with ⟨hb, -⟩ | ⟨ht, -⟩ | hrest
        · rw [hk.isBranch_eq] at hb
          cases hb
        · rw [hk.isTerminal_eq] at ht
          cases ht
        · refine (ih (fun heq => by cases heq) hrest).imp (.imp_right fun hcount => ?_)
            fun h => h.imp (.imp_right hmem) (.imp_right hmem)
          exact Nat.add_le_add_right hcount 1

end

section
variable (hg : g.WellFormed) {b s : BlockId} {old : Block} {link : EdgeId}
  {k : Kind} {ks : List Kind}
  (hb : g.block? b = some old) (hold : old.kind.Straight)
  (hlink : g.edge? link = some ⟨b, s, .always⟩) (hk : k.Straight) (hks : ∀ k ∈ ks, k.Straight)
include hg hb hold hk

theorem WellFormed.grows_first :
    Grows g (g.modifyBlock b fun block => { block with kind := k }) := by
  refine .modifyBlock hg b (fun _ => rfl) (fun {block} hb' => ?_)
    (fun hb' => hg.listed.args_enter hb') fun _ hc => hc
  rw [hb] at hb'
  cases hb'
  exact hk.trans hold.symm

include hlink

theorem WellFormed.open_first :
    Open (g.modifyBlock b fun block => { block with kind := k }) s b link := by
  have hkind : (g.modifyBlock b fun block => { block with kind := k }).kind? b = some k := by
    rw [kind?, block?_modifyBlock, if_pos rfl, hb]
    rfl
  exact (hg.grows_first hb hold hk).wellFormed.open hkind hk hlink

include hks

/-- The block becomes the first of the chain, and the way on moves to the last. -/
theorem WellFormed.maintains_chain :
    Maintains g (((g.modifyBlock b fun block => { block with kind := k }).extendChain b
      ks).2.closeBehind s ((g.modifyBlock b fun block => { block with kind := k }).extendChain b
        ks).1.getLast? link) := by
  have hfirst : Grows g (g.modifyBlock b fun block => { block with kind := k }) :=
    hg.grows_first hb hold hk
  cases ks with
  | nil => exact hfirst.toMaintains
  | cons k' ks =>
    have hopen := (hg.open_first hb hold hlink hk).extendChain hks
    obtain ⟨last, hlast⟩ :
        ∃ last, ((g.modifyBlock b fun block => { block with kind := k }).extendChain
        b (k' :: ks)).1.getLast? = some last := ⟨_, List.getLast?_cons⟩
    rw [hlast] at hopen ⊢
    refine ⟨hopen.wellFormed_close, ?_, fun hc => ?_⟩
    · exact ((((Follows.modifyBlock ..).trans (.extendChain ..)).trans (.addEdge ..)).trans
        (.modifyBlock ..)).trans (.removeEdge ..)
    · exact hopen.phisComplete_close (phisComplete_extendChain (hfirst.complete hc) _)

end

/-- **Replacing a block by a chain.** -/
theorem WellFormed.ends_replaceByChain (hg : g.WellFormed) {b : BlockId} {rs : List Replacement}
    {bad : Fault → Prop} (hstale : g.block? b = none → bad (.violation (.staleBlock b)))
    (hkind : ∀ {k}, g.kind? b = some k → k.isTerminal = true ∨ k.isBranch = true →
      bad (.irreplaceable k b))
    (hrepeated : 2 ≤ rs.count .itself → bad (.repeatedInChain b))
    (hbranch : ∀ {k}, .block k ∈ rs → k.isBranch = true → bad .branchInChain)
    (hterminal : ∀ {k}, .block k ∈ rs → k.isTerminal = true → bad .terminalInChain) :
    (g.replaceByChain b rs).Ends (fun s => Maintains g s.2) bad := by
  refine Run.Ends.bind (ends_block (fun old hb => hb) hstale) fun old hb => ?_
  have hk := kind?_of_block? hb
  split
  · rename_i hcond
    rw [Bool.or_eq_true] at hcond
    exact .fail (hkind hk hcond)
  rename_i hcond
  rw [Bool.or_eq_true, not_or, Bool.not_eq_true, Bool.not_eq_true] at hcond
  obtain ⟨link, s, hd, hlink⟩ := hg.exists_onward hb hcond.2 hcond.1
  apply Run.Ends.bind_ok (hg.onwardEdge_eq_ok hb hd hlink)
  apply Run.Ends.bind_ok (edge_eq_ok hlink)
  have hstraight := Kind.straight_of hcond.2 hcond.1
  cases hchain : chainKinds b (some old.kind) rs with
  | error f =>
    apply Run.Ends.bind_error rfl
    rcases chainKinds_error (fun heq => Option.some.inj heq ▸ hstraight) hchain with
      ⟨rfl, hcount⟩ | ⟨rfl, k, hin, hk⟩ | ⟨rfl, k, hin, hk⟩
    · exact hrepeated hcount
    · exact hbranch hin hk
    · exact hterminal hin hk
  | ok ks =>
    apply Run.Ends.bind_ok rfl
    have hks := straight_of_chainKinds hchain
    match ks with
    | [] => exact .pure (.refl hg)
    | k :: ks =>
      obtain ⟨hk, hks⟩ := List.forall_mem_cons.mp hks
      have hopen := hg.open_first hb hstraight hlink hk
      apply Run.Ends.bind_ok (hopen.appendChain_eq hks)
      apply Run.Ends.bind_ok (hopen.extendChain hks).attachChain_eq
      apply Run.Ends.report
      apply Run.Ends.pure
      exact hg.maintains_chain hb hstraight hlink hk hks

end Graph
end FlowGraph
