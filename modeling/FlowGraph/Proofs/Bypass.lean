import FlowGraph.Proofs.Behaviour
import FlowGraph.Proofs.Splicing

/-! # Leading edges past an empty block

An edge into an empty block may as well lead to where the block leads: control gets there one move
earlier and nothing else changes.  Once no edge leads into the block any more, nothing reaches it
and it can be removed.

A graph in which the entry reaches every block stays one, so a pass over its blocks never finds one
that has lost its edges.
-/
namespace FlowGraph

/-- A block that mentions an edge by its new handle, or the block where it now leads. -/
def Block.reroute (e new : EdgeId) (entered : Bool) (b : Block) : Block :=
  { b with
    preds := b.preds.filter (· ≠ e) ++ if entered then [new] else []
    succs := Graph.renameIn e new b.succs }

namespace Graph

variable {g : Graph}

section
variable {e : EdgeId} {edge : Edge}

theorem edge?_redirect_eq_some (he : g.edge? e = some edge) {t : BlockId} {e' : EdgeId} {x : Edge} :
    (g.redirect e edge t).2.edge? e' = some x ↔
      e' ≠ e ∧ g.edge? e' = some x ∨ e' = g.headOf ∧ x = ⟨edge.source, t, edge.direction⟩ := by
  have hnew : g.headOf ≠ e := fun h => by rw [← h, edge?_headOf] at he; cases he
  have hedge : (g.redirect e edge t).2.edge? e' = if e' = e then none
      else if e' = g.headOf then some ⟨edge.source, t, edge.direction⟩ else g.edge? e' := by
    rw [redirect]
    simp only [edge?_clearEdge, edge?_modifyBlock, edge?_addUnlistedEdge]
    rfl
  rw [hedge]
  by_cases h₀ : e' = e
  · subst h₀
    simp [Ne.symm hnew]
  by_cases h₁ : e' = g.headOf
  · subst h₁
    simp [hnew, edge?_headOf, eq_comm]
  simp [h₀, h₁]

variable (hg : g.Listed) (he : g.edge? e = some edge)
include hg he

/-- **Leading an edge elsewhere** gives it its new handle everywhere. -/
theorem Listed.block?_redirect (t c : BlockId) :
    (g.redirect e edge t).2.block? c = (g.block? c).map (Block.reroute e g.headOf (c = t)) := by
  have hnew : (g.addUnlistedEdge { edge with target := t }).1 = g.headOf := rfl
  rw [redirect]
  simp only [block?_clearEdge, block?_modifyBlock, block?_addUnlistedEdge, hnew]
  cases hb : g.block? c with
  | none => simp
  | some block =>
    have hsucc : c ≠ edge.source → renameIn e g.headOf block.succs = block.succs := fun hcs =>
      renameIn_eq_self fun hin => hcs (hg.source_eq hb hin he).symm
    have hpred : c ≠ edge.target → block.preds.filter (· ≠ e) = block.preds := fun hct =>
      filter_ne_eq_self fun hin => hct (hg.target_eq hb hin he).symm
    have hleft : (if c = edge.source then
        (some block).map fun b => { b with succs := renameIn e g.headOf b.succs }
        else some block) = some { block with succs := renameIn e g.headOf block.succs } := by
      split
      · rfl
      · rename_i hcs
        rw [hsucc hcs]
    have hgone : ∀ b : Block, b.preds = block.preds →
        (if c = edge.target then (some b).map fun b => { b with preds := b.preds.filter (· ≠ e) }
        else some b) = some { b with preds := block.preds.filter (· ≠ e) } := by
      intro b hb
      split
      · rw [← hb]
        rfl
      · rename_i hct
        rw [hpred hct, ← hb]
    rw [hleft, hgone { block with succs := renameIn e g.headOf block.succs } rfl]
    by_cases hc : c = t
    · simp [hc, Block.reroute]
    · simp [hc, Block.reroute]

theorem Listed.mem_succs_reroute {t c : BlockId} {old : Block} (hold : g.block? c = some old)
    (e' : EdgeId) : e' ∈ (old.reroute e g.headOf (c = t)).succs ↔
      ∃ x, (g.redirect e edge t).2.edge? e' = some x ∧ x.source = c := by
  simp only [edge?_redirect_eq_some he]
  rw [Block.reroute, mem_renameIn, hg.mem_succs hold, hg.mem_succs hold]
  constructor
  · rintro (⟨⟨x, hx, hsrc⟩, hne⟩ | ⟨rfl, x, hx, hsrc⟩)
    · exact ⟨x, .inl ⟨hne, hx⟩, hsrc⟩
    · rw [he] at hx
      cases hx
      exact ⟨_, .inr ⟨rfl, rfl⟩, hsrc⟩
  · rintro ⟨x, ⟨hne, hx⟩ | ⟨rfl, rfl⟩, hsrc⟩
    · exact .inl ⟨⟨x, hx, hsrc⟩, hne⟩
    · exact .inr ⟨rfl, edge, he, hsrc⟩

theorem Listed.mem_preds_reroute {t c : BlockId} {old : Block} (hold : g.block? c = some old)
    (e' : EdgeId) : e' ∈ (old.reroute e g.headOf (c = t)).preds ↔
      ∃ x, (g.redirect e edge t).2.edge? e' = some x ∧ x.target = c := by
  simp only [edge?_redirect_eq_some he]
  rw [Block.reroute, List.mem_append, List.mem_filter, hg.mem_preds hold, decide_eq_true_eq]
  constructor
  · rintro (⟨⟨x, hx, htgt⟩, hne⟩ | hin)
    · exact ⟨x, .inl ⟨hne, hx⟩, htgt⟩
    · split at hin
      · rename_i hc
        exact ⟨_, .inr ⟨List.mem_singleton.mp hin, rfl⟩, (of_decide_eq_true hc).symm⟩
      · cases hin
  · rintro ⟨x, ⟨hne, hx⟩ | ⟨rfl, rfl⟩, htgt⟩
    · exact .inl ⟨⟨x, hx, htgt⟩, hne⟩
    · right
      rw [if_pos (decide_eq_true htgt.symm)]
      exact List.mem_singleton.mpr rfl

/-- The lists stay in order when the block that the edge enters has no phi functions. -/
theorem Listed.redirect (hbare : ∀ {block}, g.block? edge.target = some block → block.phis = .empty)
    {t : BlockId} {target : Block} (ht : g.block? t = some target) :
    (g.redirect e edge t).2.Listed := by
  have hlive : ∀ {c block}, g.block? c = some block →
      ∃ block', (g.redirect e edge t).2.block? c = some block' := fun {c block} hb =>
    ⟨_, by rw [hg.block?_redirect he, hb]; rfl⟩
  have hold : ∀ {c block}, (g.redirect e edge t).2.block? c = some block →
      ∃ old, g.block? c = some old ∧ block = old.reroute e g.headOf (c = t) := by
    intro c block hb
    rw [hg.block?_redirect he, Option.map_eq_some_iff] at hb
    obtain ⟨old, hold, rfl⟩ := hb
    exact ⟨old, hold, rfl⟩
  constructor
  case id_eq =>
    intro c block hb
    obtain ⟨old, hold, rfl⟩ := hold hb
    have hid : old.id = c := hg.id_eq hold
    exact hid
  case mem_succs =>
    intro c block hb
    obtain ⟨old, hold, rfl⟩ := hold hb
    exact hg.mem_succs_reroute he hold
  case mem_preds =>
    intro c block hb
    obtain ⟨old, hold, rfl⟩ := hold hb
    exact hg.mem_preds_reroute he hold
  case nodup_succs =>
    intro c block hb
    obtain ⟨old, hold, rfl⟩ := hold hb
    exact nodup_renameIn (hg.nodup_succs hold) (hg.notMem_succs hold g.edge?_headOf)
  case nodup_preds =>
    intro c block hb
    obtain ⟨old, hold, rfl⟩ := hold hb
    have hnew : g.headOf ∉ old.preds.filter (· ≠ e) := fun hin =>
      hg.notMem_preds hold g.edge?_headOf (List.mem_of_mem_filter hin)
    refine ((hg.nodup_preds hold).filter _).append ?_ ?_
    · split
      · exact List.nodup_singleton _
      · exact List.nodup_nil
    · split
      · exact List.disjoint_singleton.mpr hnew
      · exact List.disjoint_nil_right _
  case source_live =>
    intro e' x hx
    rcases (edge?_redirect_eq_some he).mp hx with ⟨-, hx⟩ | ⟨-, rfl⟩
    · exact hlive (hg.source_live hx).choose_spec
    · exact hlive (hg.source_live he).choose_spec
  case target_live =>
    intro e' x hx
    rcases (edge?_redirect_eq_some he).mp hx with ⟨-, hx⟩ | ⟨-, rfl⟩
    · exact hlive (hg.target_live hx).choose_spec
    · exact hlive ht
  case args_enter =>
    intro c block hb name p hφ e' v hv
    obtain ⟨old, hc, rfl⟩ := hold hb
    have hφ : old.phis.get? name = some p := hφ
    have hin : e' ∈ old.preds := hg.args_enter hc hφ hv
    -- A phi function with an argument for the edge would stand in the block that it entered.
    have hne : e' ≠ e := fun heq => by
      rw [hbare (hg.target_eq hc (heq ▸ hin) he ▸ hc)] at hφ
      cases hφ
    exact List.mem_append_left _ (List.mem_filter.mpr ⟨hin, decide_eq_true hne⟩)

theorem Listed.kind?_redirect (t c : BlockId) : (g.redirect e edge t).2.kind? c = g.kind? c := by
  rw [kind?, hg.block?_redirect he, Option.map_map]
  rfl

/-- The edge takes its place among the ways out of its source. -/
theorem Listed.keepsOrder_redirect (t : BlockId) : KeepsOrder g (g.redirect e edge t).2 := by
  refine ⟨rfl, fun {c block'} hc => ?_⟩
  rw [hg.block?_redirect he] at hc
  obtain ⟨block, hb, rfl⟩ := Option.map_eq_some_iff.mp hc
  refine ⟨block, hb, ?_⟩
  suffices houtward : (g.redirect e edge t).2.outward (block.reroute e g.headOf (c = t)) =
      g.outward block by rw [houtward]
  rw [outward, outward, Block.reroute, renameIn, List.filterMap_map]
  refine List.filterMap_congr fun e' he' => ?_
  by_cases heq : e' = e
  · have hnew := (edge?_redirect_eq_some (t := t) he).mpr (.inr ⟨rfl, rfl⟩)
    simp only [Function.comp_apply, if_pos heq, hnew]
    rw [heq, he]
    rfl
  · obtain ⟨x, hx, -⟩ := (hg.mem_succs hb e').mp he'
    have hstill := (edge?_redirect_eq_some (t := t) he).mpr (.inl ⟨heq, hx⟩)
    simp only [Function.comp_apply, if_neg heq, hstill, hx]

theorem Listed.phiFree_redirect (hp : g.PhiFree) (t : BlockId) :
    (g.redirect e edge t).2.PhiFree := by
  intro c block hb
  rw [hg.block?_redirect he, Option.map_eq_some_iff] at hb
  obtain ⟨old, hold, rfl⟩ := hb
  have hphis : old.phis = .empty := hp hold
  exact hphis

end

theorem WellFormed.redirect (hg : g.WellFormed) {e : EdgeId} {edge : Edge}
    (he : g.edge? e = some edge)
    (hbare : ∀ {block}, g.block? edge.target = some block → block.phis = .empty)
    {t : BlockId} {target : Block} (ht : g.block? t = some target) (hentry : t ≠ entry) :
    (g.redirect e edge t).2.WellFormed := by
  have hkind := hg.listed.kind?_redirect he t
  have hsource : edge.source ≠ exit := hg.wired.exit_closed he
  refine ⟨checkWiring_iff.mpr { hg.listed.redirect he hbare ht with
    entry_kind := (hkind _).trans hg.wired.entry_kind, entry_closed := ?entry_closed
    exit_kind := (hkind _).trans hg.wired.exit_kind, exit_closed := ?exit_closed
    ways := ?ways, one_way := ?one_way }, fun hk => hg.entry_only ((hkind _).symm.trans hk),
    fun hk => hg.exit_only ((hkind _).symm.trans hk)⟩
  case entry_closed =>
    intro e' x hx
    rcases (edge?_redirect_eq_some he).mp hx with ⟨-, hx⟩ | ⟨-, rfl⟩
    · exact hg.wired.entry_closed hx
    · exact hentry
  case exit_closed =>
    intro e' x hx
    rcases (edge?_redirect_eq_some he).mp hx with ⟨-, hx⟩ | ⟨-, rfl⟩
    · exact hg.wired.exit_closed hx
    · exact hsource
  case ways =>
    intro b k hk hne d
    rw [hkind] at hk
    rw [← hg.wired.ways hk hne d]
    constructor
    · rintro ⟨e', t', hx⟩
      rcases (edge?_redirect_eq_some he).mp hx with ⟨-, hx⟩ | ⟨-, hx⟩
      · exact ⟨e', t', hx⟩
      · cases hx
        exact ⟨e, _, he⟩
    · rintro ⟨e', t', hx⟩
      by_cases heq : e' = e
      · -- The new edge leaves the same block in the same direction.
        rw [heq, he] at hx
        cases hx
        exact ⟨_, t, (edge?_redirect_eq_some he).mpr (.inr ⟨rfl, rfl⟩)⟩
      · exact ⟨e', t', (edge?_redirect_eq_some he).mpr (.inl ⟨heq, hx⟩)⟩
  case one_way =>
    intro b k hk hne d e₁ e₂ t₁ t₂ h₁ h₂
    rcases (edge?_redirect_eq_some he).mp h₁ with ⟨hne₁, hold₁⟩ | ⟨hnew₁, hx₁⟩ <;>
      rcases (edge?_redirect_eq_some he).mp h₂ with ⟨hne₂, hold₂⟩ | ⟨hnew₂, hx₂⟩
    · exact hg.edge_unique hold₁ hold₂
    · cases hx₂
      exact absurd (hg.edge_unique hold₁ he) hne₁
    · cases hx₁
      exact absurd (hg.edge_unique hold₂ he) hne₂
    · exact hnew₁.trans hnew₂.symm

/-! ### Past an empty block -/

/-- **A graph in which some edges lead past a block** that does nothing. -/
structure LeadsPast (g g' : Graph) (x : BlockId) : Prop where
  wellFormed : g'.WellFormed
  phiFree : g'.PhiFree
  kind?_eq : ∀ b, g'.kind? b = g.kind? b
  order : KeepsOrder g g'
  reachable : ∀ {b}, b ≠ x → g.Reachable b → g'.Reachable b
  behaves : ∀ {V : Type} (I : Interpretation V) (m : Memory V),
    System.SameBehaviour (g.system I) (g'.system I) ⟨.here entry, m⟩ ⟨.here entry, m⟩

theorem LeadsPast.refl (hg : g.WellFormed) (hp : g.PhiFree) (x : BlockId) : LeadsPast g g x :=
  ⟨hg, hp, fun _ => rfl, .refl g, fun _ h => h, fun _ _ => .refl _⟩

theorem LeadsPast.trans {g' g'' : Graph} {x : BlockId} (h : LeadsPast g g' x)
    (h' : LeadsPast g' g'' x) : LeadsPast g g'' x where
  wellFormed := h'.wellFormed
  phiFree := h'.phiFree
  kind?_eq := fun b => (h'.kind?_eq b).trans (h.kind?_eq b)
  order := h.order.trans h'.order
  reachable := fun hb hr => h'.reachable hb (h.reachable hb hr)
  behaves := fun I m => (h.behaves I m).trans (h'.behaves I m)

section
variable (hg : g.WellFormed) (hp : g.PhiFree) {x s a : BlockId} {link e : EdgeId} {d : Direction}
  (hx : g.kind? x = some .empty) (hlink : g.edge? link = some ⟨x, s, .always⟩) (hsx : s ≠ x)
  (he : g.edge? e = some ⟨a, x, d⟩)

section
include hlink hsx he

/-- The block itself still leads where it led. -/
theorem edge?_redirect_link : (g.redirect e ⟨a, x, d⟩ s).2.edge? link = some ⟨x, s, .always⟩ := by
  have hne : link ≠ e := by
    rintro rfl
    rw [hlink] at he
    cases he
    exact hsx rfl
  exact (edge?_redirect_eq_some he).mpr (.inl ⟨hne, hlink⟩)

omit hlink

/-- No edges but those that entered the block do afterwards. -/
theorem edge?_redirect_into {e' : EdgeId} {a' : BlockId} {d' : Direction}
    (he' : (g.redirect e ⟨a, x, d⟩ s).2.edge? e' = some ⟨a', x, d'⟩) :
    g.edge? e' = some ⟨a', x, d'⟩ ∧ e' ≠ e := by
  rcases (edge?_redirect_eq_some he).mp he' with ⟨hne, hold⟩ | ⟨-, hnew⟩
  · exact ⟨hold, hne⟩
  · cases hnew
    exact absurd rfl hsx

omit hsx

/-- The other edges that enter the block still do. -/
theorem edge?_redirect_others {es : List EdgeId} (hnotin : e ∉ es)
    (hes : ∀ e' ∈ es, ∃ a' d', g.edge? e' = some ⟨a', x, d'⟩) :
    ∀ e' ∈ es, ∃ a' d', (g.redirect e ⟨a, x, d⟩ s).2.edge? e' = some ⟨a', x, d'⟩ := by
  intro e' hin
  obtain ⟨a', d', he'⟩ := hes e' hin
  have hne : e' ≠ e := fun heq => hnotin (heq ▸ hin)
  exact ⟨a', d', (edge?_redirect_eq_some he).mpr (.inl ⟨hne, he'⟩)⟩

end

include hg hx hlink

/-- What leads from the block leads to its successor. -/
theorem WellFormed.eq_of_leads_empty {b : BlockId} (h : g.Leads x b) : b = s := by
  obtain ⟨e, d, he⟩ := h
  have hd : d ∈ Kind.empty.directions := (hg.wired.ways hx nofun d).mp ⟨e, b, he⟩
  cases List.mem_singleton.mp hd
  have heq := hg.edge_unique he hlink
  rw [heq, hlink] at he
  cases he
  rfl

include hsx he

/-- Where the block was on the way, its successor is reached all the same. -/
theorem reachable_redirect {b : BlockId} (hb : g.Reachable b) :
    (b ≠ x → (g.redirect e ⟨a, x, d⟩ s).2.Reachable b) ∧
      (b = x → (g.redirect e ⟨a, x, d⟩ s).2.Reachable s) := by
  have hlink' := edge?_redirect_link hlink hsx he
  obtain ⟨p, hp⟩ := hb
  induction hp with
  | start =>
    exact ⟨fun _ => .entry, fun heq => absurd heq.symm (hg.ne_entry hx nofun)⟩
  | @step p c b hp hl ih =>
    by_cases hc : c = x
    · obtain rfl : b = s := hg.eq_of_leads_empty hx hlink (hc ▸ hl)
      exact ⟨fun _ => ih.2 hc, fun h => absurd h hsx⟩
    · have hreach := ih.1 hc
      obtain ⟨e', d', he'⟩ := hl
      by_cases heq : e' = e
      · rw [heq, he] at he'
        cases he'
        have hnew := (edge?_redirect_eq_some (t := s) he).mpr (.inr ⟨rfl, rfl⟩)
        exact ⟨fun h => absurd rfl h, fun _ => hreach.step ⟨_, _, hnew⟩⟩
      · have hstill := (edge?_redirect_eq_some (t := s) he).mpr (.inl ⟨heq, he'⟩)
        have hb := hreach.step ⟨e', d', hstill⟩
        refine ⟨fun _ => hb, ?_⟩
        rintro rfl
        exact hb.step ⟨link, .always, hlink'⟩

include hp

omit hsx in
/-- **Control gets past the block one move earlier.** -/
theorem sameBehaviour_redirect {V : Type} (I : Interpretation V) (m : Memory V) :
    System.SameBehaviour (g.system I) ((g.redirect e ⟨a, x, d⟩ s).2.system I) ⟨.here entry, m⟩
      ⟨.here entry, m⟩ := by
  obtain ⟨target, ht⟩ : ∃ target, g.block? s = some target := hg.listed.target_live hlink
  have hg' := hg.redirect he (fun hb => hp hb) ht (hg.wired.entry_closed hlink)
  have hp' := hg.listed.phiFree_redirect he hp s
  have hkind := hg.listed.kind?_redirect he s
  let R : BlockId → Memory V → BlockId → Memory V → Prop := fun b m b' m' =>
    b = b' ∧ m = m' ∧ ∃ k, g.kind? b = some k
  have hsim : @System.Simulates V (g.system I) ((g.redirect e ⟨a, x, d⟩ s).2.system I) R := by
    refine ⟨fun hr => congrArg Memory.shown hr.2.1, ?_⟩
    rintro (b : BlockId) m _ _ ⟨rfl, rfl, k, hk⟩
    refine exists_linked hk ((hkind b).trans hk) rfl .rfl rfl rfl fun hret hne => ?_
    obtain ⟨e', t, hl⟩ := hg.exists_leads hk hne (Kind.way_mem_directions I m.store hne)
    have he' := hg.leads_iff.mp hl
    have hmove := hg.move_edge hp hk hret he'
    by_cases heq : e' = e
    · -- Control takes the edge: on to the block and past it, or past it at once.
      rw [heq, he, Option.some.injEq, Edge.mk.injEq] at he'
      obtain ⟨rfl, rfl, hd⟩ := he'
      have hnew : (g.redirect e ⟨a, x, d⟩ s).2.edge? g.headOf = some ⟨a, s, k.way I m.store⟩ :=
        (edge?_redirect_eq_some he).mpr (.inr ⟨rfl, by rw [hd]⟩)
      have hpast : (g.redirect e ⟨a, x, d⟩ s).2.move I a m = ⟨.here s, k.perform I m⟩ :=
        hg'.move_edge hp' ((hkind a).trans hk) hret hnew
      have hon : g.move I x (k.perform I m) = ⟨.here s, k.perform I m⟩ :=
        hg.move_edge hp hx rfl hlink
      refine ⟨1, 0, ⟨.here s, k.perform I m⟩, ⟨.here s, k.perform I m⟩, ?_, congrArg some hpast,
        .here ⟨rfl, rfl, _, kind?_of_block? ht⟩⟩
      show steps (g.system I).next 1 (g.move I a m) = _
      rw [hmove]
      exact congrArg some hon
    · have hstill := (edge?_redirect_eq_some (t := s) he).mpr (.inl ⟨heq, he'⟩)
      have hmove' : (g.redirect e ⟨a, x, d⟩ s).2.move I b m = ⟨.here t, k.perform I m⟩ :=
        hg'.move_edge hp' ((hkind b).trans hk) hret hstill
      obtain ⟨block, hb⟩ := hg.listed.target_live he'
      exact ⟨0, 0, _, _, congrArg some hmove, congrArg some hmove',
        .here ⟨rfl, rfl, _, kind?_of_block? hb⟩⟩
  exact hsim.sameBehaviour (.here ⟨rfl, rfl, _, hg.wired.entry_kind⟩)

theorem LeadsPast.redirect : LeadsPast g (g.redirect e ⟨a, x, d⟩ s).2 x where
  wellFormed := by
    obtain ⟨target, ht⟩ := hg.listed.target_live hlink
    exact hg.redirect he (fun hb => hp hb) ht (hg.wired.entry_closed hlink)
  phiFree := hg.listed.phiFree_redirect he hp s
  kind?_eq := hg.listed.kind?_redirect he s
  order := hg.listed.keepsOrder_redirect he s
  reachable := fun hb hr => (reachable_redirect hg hx hlink hsx he hr).1 hb
  behaves := fun I m => sameBehaviour_redirect hg hp hx hlink he I m

end

/-- **Leading several edges past a block.** -/
theorem LeadsPast.redirectAll {x s : BlockId} {link : EdgeId} {es : List EdgeId} (hg : g.WellFormed)
    (hp : g.PhiFree) (hx : g.kind? x = some .empty) (hlink : g.edge? link = some ⟨x, s, .always⟩)
    (hsx : s ≠ x) (hnodup : es.Nodup) (hes : ∀ e ∈ es, ∃ a d, g.edge? e = some ⟨a, x, d⟩) :
    LeadsPast g (g.redirectAll s es).2 x ∧
      ∀ {e a d}, (g.redirectAll s es).2.edge? e = some ⟨a, x, d⟩ →
        g.edge? e = some ⟨a, x, d⟩ ∧ e ∉ es := by
  induction es generalizing g with
  | nil => exact ⟨.refl hg hp x, fun he => ⟨he, List.not_mem_nil⟩⟩
  | cons e es ih =>
    obtain ⟨⟨a, d, he⟩, hes⟩ := List.forall_mem_cons.mp hes
    obtain ⟨hnotin, hnodup⟩ := List.nodup_cons.mp hnodup
    have hpast := LeadsPast.redirect hg hp hx hlink hsx he
    obtain ⟨hrest, hinto⟩ := ih hpast.wellFormed hpast.phiFree ((hpast.kind?_eq x).trans hx)
      (edge?_redirect_link hlink hsx he) hnodup (edge?_redirect_others he hnotin hes)
    have heq : (g.redirectAll s (e :: es)).2 =
        ((g.redirect e ⟨a, x, d⟩ s).2.redirectAll s es).2 := by
      rw [Graph.redirectAll, he]
    rw [heq]
    refine ⟨hpast.trans hrest, fun {e' a' d'} he' => ?_⟩
    obtain ⟨hstill, hnotin'⟩ := hinto he'
    obtain ⟨hold, hne⟩ := edge?_redirect_into hsx he hstill
    exact ⟨hold, List.not_mem_cons_of_ne_of_not_mem hne hnotin'⟩

end Graph
end FlowGraph
