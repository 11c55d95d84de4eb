import FlowGraph.Proofs.Leaving
import FlowGraph.Proofs.Rerouting
import FlowGraph.Proofs.Turns
import Mathlib.Logic.Function.Basic

/-! # Leaving single assignment form keeps the shape of a graph

The conversion out of single assignment form puts chains of copies onto edges, one copy at a time.
Each copy splits the last edge of a chain in two, so that in the end every edge of the graph before
has become a strand: a first edge, which leaves the same block in the same direction, copies in a
row, and a last edge, which enters the same block (`Strand`).

`Thread` names the first and the last edge of each strand and the copies between, and `Strung` says
how a graph is strung together from strands.  One copy more keeps that (`Strung.push`), and
everything about the shape of the result is read off it: contracting the strands gives the edges
back, and routes lead through the same blocks in the same order.
-/
namespace FlowGraph
namespace Graph

variable {g g' : Graph} {inner : BlockId → Prop}

/-! ### Strands -/

/-- A block between two edges that makes a copy. -/
def copyBlock (b : BlockId) (c : Ssa.Copy) (e e' : EdgeId) : Block :=
  { id := b, kind := .statement (.copy c.dst c.src), preds := [e], succs := [e'] }

theorem resplit_copyBlock (b : BlockId) (c : Ssa.Copy) (e e' l head tail : EdgeId) :
    (copyBlock b c e e').resplit l head tail =
      copyBlock b c (if e = l then tail else e) (if e' = l then head else e') := rfl

/-- **A strand**: an edge from a block in a direction, followed through inner blocks, each of which
makes a copy, to a block that is no inner one. -/
inductive Strand (g : Graph) (inner : BlockId → Prop) :
    EdgeId → BlockId → Direction → List (BlockId × Ssa.Copy) → EdgeId → BlockId → Prop
  | nil {e : EdgeId} {a t : BlockId} {d : Direction} (he : g.edge? e = some ⟨a, t, d⟩)
      (ht : ¬ inner t) : Strand g inner e a d [] e t
  | cons {e e' last : EdgeId} {a b t : BlockId} {d : Direction} {c : Ssa.Copy}
      {cs : List (BlockId × Ssa.Copy)} (he : g.edge? e = some ⟨a, b, d⟩) (hb : inner b)
      (hblock : g.block? b = some (copyBlock b c e e'))
      (h : Strand g inner e' b .always cs last t) : Strand g inner e a d ((b, c) :: cs) last t

namespace Strand

variable {e last : EdgeId} {a t : BlockId} {d : Direction} {cs : List (BlockId × Ssa.Copy)}
  (h : Strand g inner e a d cs last t)
include h

theorem last_edge : ∃ s d', g.edge? last = some ⟨s, t, d'⟩ := by
  induction h with
  | nil he => exact ⟨_, _, he⟩
  | cons _ _ _ _ ih => exact ih

theorem not_inner : ¬ inner t := by
  induction h with
  | nil _ ht => exact ht
  | cons _ _ _ _ ih => exact ih

/-- The first edge leads to the first copy, or there is none. -/
theorem first_edge : ∃ x, g.edge? e = some ⟨a, x, d⟩ ∧
    (cs = [] ∧ x = t ∨ inner x ∧ x ∈ cs.map Prod.fst) := by
  cases h with
  | nil he => exact ⟨t, he, .inl ⟨rfl, rfl⟩⟩
  | cons he hb => exact ⟨_, he, .inr ⟨hb, List.mem_cons_self⟩⟩

omit h in
theorem head_eq (h : Strand g inner e a d [] last t) : e = last := by
  cases h
  rfl

/-- An edge that leads to no inner block is a strand by itself. -/
theorem eq_of_not_inner {s x : BlockId} {d' : Direction} (he : g.edge? e = some ⟨s, x, d'⟩)
    (hx : ¬ inner x) : cs = [] ∧ last = e ∧ t = x := by
  cases h with
  | nil he' =>
    cases he.symm.trans he'
    exact ⟨rfl, rfl, rfl⟩
  | cons he' hb =>
    cases he.symm.trans he'
    exact absurd hb hx

/-- **A strand is determined by its first edge.** -/
theorem unique {last' : EdgeId} {a' t' : BlockId} {d' : Direction} {cs' : List (BlockId × Ssa.Copy)}
    (h' : Strand g inner e a' d' cs' last' t') : a' = a ∧ d' = d ∧ t' = t := by
  induction h generalizing a' d' cs' with
  | nil he ht =>
    obtain ⟨-, -, rfl⟩ := h'.eq_of_not_inner he ht
    obtain ⟨x, he', -⟩ := h'.first_edge
    cases he.symm.trans he'
    exact ⟨rfl, rfl, rfl⟩
  | cons he hb hblock _ ih =>
    cases h' with
    | nil he' ht' =>
      cases he.symm.trans he'
      exact absurd hb ht'
    | cons he' _ hblock' hrest' =>
      cases he.symm.trans he'
      have hsuccs : [_] = [_] := congrArg Block.succs (Option.some.inj (hblock.symm.trans hblock'))
      cases hsuccs
      exact ⟨rfl, rfl, (ih hrest').2.2⟩

theorem block?_of_mem {p : BlockId × Ssa.Copy} (hp : p ∈ cs) :
    inner p.1 ∧ ∃ e e', g.block? p.1 = some (copyBlock p.1 p.2 e e') := by
  induction h with
  | nil => cases hp
  | cons _ hb hblock _ ih =>
    rcases List.mem_cons.mp hp with rfl | hp
    · exact ⟨hb, _, _, hblock⟩
    · exact ih hp

/-- **A copy leads** to another copy of the strand, or to its end. -/
theorem next (hg : g.Listed) {e' : EdgeId} {b x : BlockId} {d' : Direction}
    (hb : b ∈ cs.map Prod.fst)
    (he' : g.edge? e' = some ⟨b, x, d'⟩) : x ∈ cs.map Prod.fst ∨ x = t := by
  induction h with
  | nil => cases hb
  | cons _ _ hblock hrest ih =>
    rcases List.mem_cons.mp hb with rfl | hb
    · have hin : e' ∈ [_] := (hg.mem_succs hblock e').mpr ⟨_, he', rfl⟩
      cases List.mem_singleton.mp hin
      obtain ⟨y, hy, hcases⟩ := hrest.first_edge
      cases hy.symm.trans he'
      rcases hcases with ⟨-, rfl⟩ | ⟨-, hmem⟩
      · exact .inr rfl
      · exact .inl (List.mem_cons_of_mem _ hmem)
    · exact (ih hb).imp_left (List.mem_cons_of_mem _)

/-- A route goes on along a strand. -/
theorem exists_route {p : List BlockId} (hp : g.Route p a) :
    ∃ p', g.Route p' t ∧ ∀ c ∈ p', c ∈ p ∨ c = t ∨ inner c := by
  induction h generalizing p with
  | @nil e _ t d he =>
    refine ⟨t :: p, .step hp ⟨e, d, he⟩, List.forall_mem_cons.mpr ⟨.inr (.inl rfl), ?_⟩⟩
    exact fun c hc => .inl hc
  | @cons e _ _ _ b _ d _ _ he hb _ _ ih =>
    obtain ⟨p', hp', hmem⟩ := ih (.step hp ⟨e, d, he⟩)
    refine ⟨p', hp', fun c hc => ?_⟩
    rcases hmem c hc with hc | hc
    · rcases List.mem_cons.mp hc with rfl | hc
      · exact .inr (.inr hb)
      · exact .inl hc
    · exact .inr hc

end Strand

/-! ### Splitting the last edge of a strand -/

section
variable {e l last : EdgeId} {a s t t' : BlockId} {d d' : Direction} {k : Kind} {c : Ssa.Copy}
  {cs : List (BlockId × Ssa.Copy)}

/-- Only the last edge of a strand leads out of it. -/
theorem Strand.ne_of_last (h : Strand g inner e a d cs last t') (hl : g.edge? l = some ⟨s, t, d'⟩)
    (ht : ¬ inner t) (hne : last ≠ l) : e ≠ l := by
  rintro rfl
  exact hne (h.eq_of_not_inner hl ht).2.1

/-- **Other strands** stay as they are. -/
theorem Strand.splitEdge (h : Strand g inner e a d cs last t') (hg : g.Listed)
    (hl : g.edge? l = some ⟨s, t, d'⟩) (ht : ¬ inner t) (hne : last ≠ l) :
    Strand (g.splitEdge l ⟨s, t, d'⟩ k).graph inner e a d cs last t' := by
  induction h with
  | nil he ht' => exact .nil ((edge?_splitEdge_eq_some hl).mpr (.inl ⟨hne, he⟩)) ht'
  | cons he hb hblock hrest ih =>
    have hel := (Strand.cons he hb hblock hrest).ne_of_last hl ht hne
    have hel' := hrest.ne_of_last hl ht hne
    refine .cons ((edge?_splitEdge_eq_some hl).mpr (.inl ⟨hel, he⟩)) hb ?_ (ih hne)
    refine (hg.block?_splitEdge_eq_some hl).mpr (.inr ⟨_, hblock, ?_⟩)
    rw [resplit_copyBlock, if_neg hel, if_neg hel']

/-- **The strand itself** gets another copy. -/
theorem Strand.extend (h : Strand g inner e a d cs last t) (hg : g.Listed)
    (hl : g.edge? last = some ⟨s, t, d'⟩) (hnew : inner g.nextBlock) :
    Strand (g.splitEdge last ⟨s, t, d'⟩ (.statement (.copy c.dst c.src))).graph inner
      (if cs.isEmpty then g.headOf else e) a d (cs ++ [(g.nextBlock, c)]) g.tailOf t := by
  induction h with
  | nil he ht =>
    cases he.symm.trans hl
    refine .cons ((edge?_splitEdge_eq_some hl).mpr (.inr (.inl ⟨rfl, rfl⟩))) hnew
      ((hg.block?_splitEdge_eq_some hl).mpr (.inl ⟨rfl, rfl⟩)) ?_
    exact .nil ((edge?_splitEdge_eq_some hl).mpr (.inr (.inr ⟨rfl, rfl⟩))) ht
  | @cons e e' last _ b t _ _ cs he hb hblock hrest ih =>
    have hel : e ≠ last := fun heq => hrest.not_inner (by
      rw [heq, hl] at he
      cases he
      exact hb)
    refine .cons ((edge?_splitEdge_eq_some hl).mpr (.inl ⟨hel, he⟩)) hb ?_ (ih hl)
    refine (hg.block?_splitEdge_eq_some hl).mpr (.inr ⟨_, hblock, ?_⟩)
    have hnext : e' = last ↔ cs.isEmpty = true := by
      cases hrest with
      | nil => exact iff_of_true rfl rfl
      | cons he' hb' _ hmore =>
        refine iff_of_false (fun heq => hmore.not_inner ?_) Bool.false_ne_true
        rw [heq, hl] at he'
        cases he'
        exact hb'
    simp only [resplit_copyBlock, if_neg hel, hnext, List.isEmpty_cons,
      Bool.false_eq_true, if_false]

end

/-! ### Graphs strung together -/

/-- **What has become of each edge**: the first and the last edge of its strand, and the copies
between. -/
structure Thread where
  head : EdgeId → EdgeId
  last : EdgeId → EdgeId
  chain : EdgeId → List (BlockId × Ssa.Copy)

namespace Thread

/-- Nothing has become of them yet. -/
def plain : Thread := ⟨id, id, fun _ => []⟩

/-- **One copy more on an edge**, for which the last edge of its strand in `g` is split. -/
def push (th : Thread) (g : Graph) (e : EdgeId) (c : Ssa.Copy) : Thread where
  head := Function.update th.head e (if (th.chain e).isEmpty then g.headOf else th.head e)
  last := Function.update th.last e g.tailOf
  chain := Function.update th.chain e (th.chain e ++ [(g.nextBlock, c)])

/-- Nothing happens to other edges. -/
theorem push_of_ne (th : Thread) {e e' : EdgeId} {c : Ssa.Copy} (hne : e' ≠ e) :
    (th.push g e c).head e' = th.head e' ∧ (th.push g e c).last e' = th.last e' ∧
      (th.push g e c).chain e' = th.chain e' :=
  ⟨Function.update_of_ne hne .., Function.update_of_ne hne .., Function.update_of_ne hne ..⟩

theorem mem_chain_push {th : Thread} {e e' : EdgeId} {c : Ssa.Copy} {p : BlockId × Ssa.Copy} :
    p ∈ (th.push g e c).chain e' ↔ p ∈ th.chain e' ∨ e' = e ∧ p = (g.nextBlock, c) := by
  by_cases he : e' = e
  · subst he
    simp [push]
  · simp [push, he]

end Thread

/-- **A graph strung together** from strands in place of the edges of another.  The `cleared` blocks
have lost their phi functions. -/
structure Strung (g g' : Graph) (th : Thread) (cleared : BlockId → Prop) : Prop where
  wellFormed : g'.WellFormed
  /-- Every block does what it did, and the edges around it are in the order they were. -/
  block?_eq : ∀ {b block}, g.block? b = some block → ∃ phis, g'.block? b =
      some { block with phis, preds := block.preds.map th.last, succs := block.succs.map th.head } ∧
    (cleared b → phis = .empty) ∧ (¬ cleared b → phis = block.phis)
  strand : ∀ {e a t d}, g.edge? e = some ⟨a, t, d⟩ →
    g'.Strand (Ssa.Inserted g) (th.head e) a d (th.chain e) (th.last e) t
  /-- All other blocks are on strands. -/
  inserted : ∀ {b block}, g'.block? b = some block → Ssa.Inserted g b → ∃ e c, (b, c) ∈ th.chain e
  live : ∀ {e p}, p ∈ th.chain e → (∃ x, g.edge? e = some x) ∧ ∃ block, g'.block? p.1 = some block
  nodup : ∀ e, ((th.chain e).map Prod.fst).Nodup
  /-- No two strands have a block in common. -/
  apart : ∀ {e e' p p'}, p ∈ th.chain e → p' ∈ th.chain e' → p.1 = p'.1 → e = e'

namespace Strung

variable {th : Thread} {cleared : BlockId → Prop}

theorem start (hg : g.WellFormed) : Strung g g .plain fun _ => False where
  wellFormed := hg
  block?_eq {b block} hb := by
    refine ⟨block.phis, ?_, False.elim, fun _ => rfl⟩
    simp only [Thread.plain, List.map_id]
    exact hb
  strand he := .nil he fun hnone => hg.listed.target_ne he hnone rfl
  inserted hb hnone := by cases hnone.symm.trans hb
  live hp := by cases hp
  nodup _ := List.nodup_nil
  apart hp := by cases hp

section
variable (h : Strung g g' th cleared) (hg : g.Listed)
include h hg

/-- Strands of different edges end in different edges. -/
theorem last_inj {e e' : EdgeId} {x x' : Edge} (he : g.edge? e = some x)
    (he' : g.edge? e' = some x') (heq : th.last e = th.last e') : e = e' := by
  obtain ⟨s, d, hlast⟩ := (h.strand he).last_edge
  obtain ⟨s', d', hlast'⟩ := (h.strand he').last_edge
  rw [heq, hlast'] at hlast
  obtain ⟨block, ht⟩ := hg.target_live he
  obtain ⟨phis, ht', -⟩ := h.block?_eq ht
  have htarget : x'.target = x.target := (Edge.mk.inj (Option.some.inj hlast)).2.1
  exact List.inj_on_of_nodup_map (h.wellFormed.listed.nodup_preds ht')
    ((hg.mem_preds ht e).mpr ⟨x, he, rfl⟩) ((hg.mem_preds ht e').mpr ⟨x', he', htarget⟩) heq

/-- They begin with different edges. -/
theorem head_inj {e e' : EdgeId} {x x' : Edge} (he : g.edge? e = some x)
    (he' : g.edge? e' = some x') (heq : th.head e = th.head e') : e = e' := by
  obtain ⟨y, hhead, -⟩ := (h.strand he).first_edge
  obtain ⟨y', hhead', -⟩ := (h.strand he').first_edge
  rw [heq, hhead'] at hhead
  obtain ⟨block, hs⟩ := hg.source_live he
  obtain ⟨phis, hs', -⟩ := h.block?_eq hs
  have hsource : x'.source = x.source := (Edge.mk.inj (Option.some.inj hhead)).1
  exact List.inj_on_of_nodup_map (h.wellFormed.listed.nodup_succs hs')
    ((hg.mem_succs hs e).mpr ⟨x, he, rfl⟩) ((hg.mem_succs hs e').mpr ⟨x', he', hsource⟩) heq

end

section
variable (h : Strung g g' th cleared) (hg : g.Listed) {e : EdgeId} {a t s : BlockId}
  {d d' : Direction}
  (he : g.edge? e = some ⟨a, t, d⟩) (hlast : g'.edge? (th.last e) = some ⟨s, t, d'⟩) (c : Ssa.Copy)
include h hg he hlast

/-- The lists of edges around a block follow the thread. -/
theorem map_push {b : BlockId} {block : Block} (hb : g.block? b = some block) :
    renameIn (th.last e) g'.tailOf (block.preds.map th.last) =
    block.preds.map (th.push g' e c).last ∧
      renameIn (th.last e) g'.headOf (block.succs.map th.head) =
        block.succs.map (th.push g' e c).head := by
  simp only [renameIn, List.map_map]
  refine ⟨List.map_congr_left fun e' he' => ?_, List.map_congr_left fun e' he' => ?_⟩
  · obtain ⟨x, hx, -⟩ := (hg.mem_preds hb e').mp he'
    by_cases heq : e' = e
    · simp [heq, Thread.push]
    · have hne : th.last e' ≠ th.last e := fun hsame => heq (h.last_inj hg hx he hsame)
      simp [heq, hne, Thread.push]
  · obtain ⟨x, hx, -⟩ := (hg.mem_succs hb e').mp he'
    have hnot := (h.strand he).not_inner
    by_cases heq : e' = e
    · subst heq
      -- The first edge of the strand changes only while it is the last one too.
      by_cases hempty : th.chain e' = []
      · have hhead := (hempty ▸ h.strand he).head_eq
        simp [hempty, hhead, Thread.push]
      · have hne : th.head e' ≠ th.last e' := fun hsame =>
          hempty ((h.strand he).eq_of_not_inner (hsame ▸ hlast) hnot).1
        simp [hempty, hne, Thread.push]
    · have hne : th.head e' ≠ th.last e := fun hsame => by
        have hsole := ((h.strand hx).eq_of_not_inner (hsame ▸ hlast) hnot).2.1
        exact heq (h.last_inj hg hx he (hsole.trans hsame))
      simp [heq, hne, Thread.push]

/-- **One copy more** keeps the graph strung together. -/
theorem push (hclear : cleared t) : Strung g
    (g'.splitEdge (th.last e) ⟨s, t, d'⟩ (.statement (.copy c.dst c.src))).graph (th.push g' e c)
      cleared := by
  have hg' := h.wellFormed.listed
  have hfresh : ∀ {e' p}, p ∈ th.chain e' → p.1 ≠ g'.nextBlock := fun hp => by
    obtain ⟨-, block, hb⟩ := h.live hp
    exact ne_nextBlock hb
  have hnew : Ssa.Inserted g g'.nextBlock := by
    cases hb : g.block? g'.nextBlock with
    | none => exact hb
    | some block =>
      obtain ⟨phis, hb', -⟩ := h.block?_eq hb
      exact absurd rfl (ne_nextBlock hb')
  have hkept : ∀ {b block}, g'.block? b = some block → ∃ block',
      (g'.splitEdge (th.last e) ⟨s, t, d'⟩ (.statement (.copy c.dst c.src))).graph.block? b =
        some block' := fun hb =>
    ⟨_, (hg'.block?_splitEdge_eq_some hlast).mpr (.inr ⟨_, hb, rfl⟩)⟩
  constructor
  case wellFormed => exact h.wellFormed.splitEdge hlast rfl nofun
  case block?_eq =>
    intro b block hb
    obtain ⟨phis, hb', hcleared, hkeeps⟩ := h.block?_eq hb
    obtain ⟨hpreds, hsuccs⟩ := h.map_push hg he hlast c hb
    refine ⟨phis.map (·.moveArg (th.last e) g'.tailOf), ?_, fun hcl => ?_, fun hcl => ?_⟩
    · refine (hg'.block?_splitEdge_eq_some hlast).mpr (.inr ⟨_, hb', ?_⟩)
      rw [Block.resplit, hpreds, hsuccs]
    · rw [hcleared hcl]
      rfl
    · rw [← hkeeps hcl]
      -- Only the phi functions of `t` mention the edge, and they are gone.
      have hbt : b ≠ t := fun heq => hcl (heq ▸ hclear)
      exact hg'.map_moveArg hb' fun hin => hbt (hg'.target_eq hb' hin hlast).symm
  case strand =>
    intro e' a' t' d'' he'
    by_cases heq : e' = e
    · subst heq
      cases he.symm.trans he'
      simpa [Thread.push] using (h.strand he).extend (c := c) hg' hlast hnew
    · -- Strands do not cross, so the others do not run over the edge that is split.
      have hne : th.last e' ≠ th.last e := fun hsame => heq (h.last_inj hg he' he hsame)
      simpa [Thread.push, heq] using
        (h.strand he').splitEdge (k := .statement (.copy c.dst c.src)) hg' hlast
        (h.strand he).not_inner hne
  case inserted =>
    intro b block hb hins
    rcases (hg'.block?_splitEdge_eq_some hlast).mp hb with ⟨rfl, -⟩ | ⟨old, hold, -⟩
    · exact ⟨e, c, Thread.mem_chain_push.mpr (.inr ⟨rfl, rfl⟩)⟩
    · obtain ⟨e', c', hc'⟩ := h.inserted hold hins
      exact ⟨e', c', Thread.mem_chain_push.mpr (.inl hc')⟩
  case live =>
    intro e' p hp
    rcases Thread.mem_chain_push.mp hp with hp | ⟨rfl, rfl⟩
    · obtain ⟨hx, block, hb⟩ := h.live hp
      exact ⟨hx, hkept hb⟩
    · exact ⟨⟨_, he⟩, _, (hg'.block?_splitEdge_eq_some hlast).mpr (.inl ⟨rfl, rfl⟩)⟩
  case nodup =>
    intro e'
    by_cases heq : e' = e
    · subst heq
      simp only [Thread.push, Function.update_self, List.map_append, List.map_cons, List.map_nil]
      refine List.nodup_append'.mpr ⟨h.nodup e', List.nodup_singleton _, fun b hb hb' => ?_⟩
      obtain ⟨p, hp, rfl⟩ := List.mem_map.mp hb
      exact hfresh hp (List.mem_singleton.mp hb')
    · simp only [Thread.push, Function.update_of_ne heq]
      exact h.nodup e'
  case apart =>
    intro e₁ e₂ p₁ p₂ hp₁ hp₂ hsame
    rcases Thread.mem_chain_push.mp hp₁ with hold₁ | ⟨he₁, heq₁⟩ <;>
      rcases Thread.mem_chain_push.mp hp₂ with hold₂ | ⟨he₂, heq₂⟩
    · exact h.apart hold₁ hold₂ hsame
    · exact absurd (hsame.trans (congrArg Prod.fst heq₂)) (hfresh hold₁)
    · exact absurd (hsame.symm.trans (congrArg Prod.fst heq₁)) (hfresh hold₂)
    · exact he₁.trans he₂.symm

end

/-- **Several copies more on an edge.** -/
theorem foldlM_spliceNext (h : Strung g g' th cleared) (hg : g.Listed) {e : EdgeId} {a t : BlockId}
    {d : Direction} (he : g.edge? e = some ⟨a, t, d⟩) (hclear : cleared t) (e₀ : EdgeId)
    (cs : List Ssa.Copy) :
    ∃ g'' th', (cs.foldlM (Ssa.spliceNext e₀) (th.last e, g')).outcome = .ok (th'.last e, g'') ∧
      Strung g g'' th' cleared ∧ (th'.chain e).map Prod.snd = (th.chain e).map Prod.snd ++ cs ∧
      ∀ e' ≠ e, th'.head e' = th.head e' ∧ th'.last e' = th.last e' ∧
      th'.chain e' = th.chain e' := by
  induction cs generalizing g' th with
  | nil => exact ⟨g', th, rfl, h, (List.append_nil _).symm, fun _ _ => ⟨rfl, rfl, rfl⟩⟩
  | cons c cs ih =>
    obtain ⟨s, d', hlast⟩ := (h.strand he).last_edge
    obtain ⟨g'', th', hok, hstrung, hchain, hother⟩ := ih (h.push hg he hlast c hclear)
    have htail : (th.push g' e c).last e = g'.tailOf := Function.update_self ..
    have hcopies : (th.push g' e c).chain e = th.chain e ++ [(g'.nextBlock, c)] :=
      Function.update_self ..
    refine ⟨g'', th', ?_, hstrung, ?_, fun e' hne => ?_⟩
    · rw [List.foldlM_cons,
        Run.outcome_bind_of_ok (Ssa.outcome_spliceNext h.wellFormed.listed hlast e₀ c), ← htail]
      exact hok
    · rw [hchain, hcopies, List.map_append, List.append_assoc]
      rfl
    · obtain ⟨hhead', hlast', hchain'⟩ := hother e' hne
      obtain ⟨hhead'', hlast'', hchain''⟩ := th.push_of_ne (g := g') (c := c) hne
      exact ⟨hhead'.trans hhead'', hlast'.trans hlast'', hchain'.trans hchain''⟩

/-- **A block may lose its phi functions.** -/
theorem forget (h : Strung g g' th cleared) {b : BlockId} {old : Block}
    (hb : g.block? b = some old) :
    Strung g (g'.forget b) th fun c => cleared c ∨ c = b := by
  have hne : ∀ {c}, Ssa.Inserted g c → c ≠ b := by
    rintro c hc rfl
    cases hc.symm.trans hb
  have hlive : ∀ {c block}, (g'.forget b).block? c = some block →
      ∃ block', g'.block? c = some block' := by
    intro c block hc
    rcases block?_modifyBlock_eq_some hc with ⟨-, hc⟩ | ⟨block', rfl, hc, -⟩
    · exact ⟨_, hc⟩
    · exact ⟨_, hc⟩
  have hstrand : ∀ {e a d cs last t}, g'.Strand (Ssa.Inserted g) e a d cs last t →
      (g'.forget b).Strand (Ssa.Inserted g) e a d cs last t := by
    intro e a d cs last t hs
    induction hs with
    | nil he ht => exact .nil he ht
    | cons he hc hblock _ ih => exact .cons he hc ((block?_forget_of_ne (hne hc)).trans hblock) ih
  constructor
  case wellFormed => exact (Grows.forget h.wellFormed b).wellFormed
  case block?_eq =>
    intro c block hc
    obtain ⟨phis, hc', hcleared, hkeeps⟩ := h.block?_eq hc
    by_cases hcb : c = b
    · subst hcb
      exact ⟨.empty, block?_forget_self hc', fun _ => rfl, fun hnot => absurd (.inr rfl) hnot⟩
    · refine ⟨phis, (block?_forget_of_ne hcb).trans hc',
        fun hcl => hcleared (hcl.resolve_right hcb),
        fun hnot => hkeeps fun hcl => hnot (.inl hcl)⟩
  case strand => exact fun he => hstrand (h.strand he)
  case inserted =>
    intro c block hc hins
    obtain ⟨block', hc'⟩ := hlive hc
    exact h.inserted hc' hins
  case live =>
    intro e p hp
    obtain ⟨⟨⟨a, t, d⟩, he⟩, block, hblock⟩ := h.live hp
    have hins := ((h.strand he).block?_of_mem hp).1
    exact ⟨⟨_, he⟩, block, (block?_forget_of_ne (hne hins)).trans hblock⟩
  case nodup => exact h.nodup
  case apart => exact h.apart

/-- **A block without phi functions** has none to lose. -/
theorem clear_of_empty (h : Strung g g' th cleared) {b : BlockId} {old : Block}
    (hb : g.block? b = some old) (hempty : old.phis = .empty) :
    Strung g g' th fun c => cleared c ∨ c = b := by
  refine { h with block?_eq := fun {c block} hc => ?_ }
  obtain ⟨phis, hc', hcleared, hkeeps⟩ := h.block?_eq hc
  refine ⟨phis, hc', ?_, fun hnot => hkeeps fun hcl => hnot (.inl hcl)⟩
  rintro (hcl | rfl)
  · exact hcleared hcl
  · cases hb.symm.trans hc
    by_cases hcl : cleared c
    · exact hcleared hcl
    · rw [hkeeps hcl, hempty]

/-! ### What the shape of the result is -/

section
variable (h : Strung g g' th cleared) (hg : g.WellFormed)
include h hg

/-- An edge that leaves a block of before begins a strand. -/
theorem exists_head {e' : EdgeId} {a x : BlockId} {d : Direction} (ha : ¬ Ssa.Inserted g a)
    (he' : g'.edge? e' = some ⟨a, x, d⟩) : ∃ e t, g.edge? e = some ⟨a, t, d⟩ ∧ th.head e = e' := by
  obtain ⟨block, hblock⟩ := Option.ne_none_iff_exists'.mp ha
  obtain ⟨phis, hblock', -⟩ := h.block?_eq hblock
  have hin := (h.wellFormed.listed.mem_succs hblock' e').mpr ⟨_, he', rfl⟩
  obtain ⟨e, he, rfl⟩ := List.mem_map.mp hin
  obtain ⟨⟨_, t, d₀⟩, he, rfl⟩ := (hg.listed.mem_succs hblock e).mp he
  obtain ⟨y, hy, -⟩ := (h.strand he).first_edge
  cases hy.symm.trans he'
  exact ⟨e, t, he, rfl⟩

end

end Strung

/-- **An edge of a graph with inner blocks contracted**: one that leaves another block, and is
followed through inner blocks to its end. -/
def Bridges (g : Graph) (inner : BlockId → Prop) (e : EdgeId) (x : Edge) : Prop :=
  ¬ inner x.source ∧ ∃ cs last, g.Strand inner e x.source x.direction cs last x.target

namespace Strung

variable {th : Thread} {cleared : BlockId → Prop} (h : Strung g g' th cleared) (hg : g.WellFormed)
include h hg

/-- **Contracting the strands** gives the edges back. -/
theorem bridges_iff {e : EdgeId} {x : Edge} :
    g'.Bridges (Ssa.Inserted g) e x ↔ ∃ o, th.head o = e ∧ g.edge? o = some x := by
  constructor
  · rintro ⟨hsource, cs, last, hstrand⟩
    obtain ⟨y, hy, -⟩ := hstrand.first_edge
    obtain ⟨o, t, ho, rfl⟩ := h.exists_head hg hsource hy
    obtain ⟨-, -, rfl⟩ := hstrand.unique (h.strand ho)
    exact ⟨o, rfl, ho⟩
  · rintro ⟨o, rfl, ho⟩
    exact ⟨fun hnone => hg.listed.source_ne ho hnone rfl, _, _, h.strand ho⟩

omit hg in
/-- A route becomes one through strands. -/
theorem exists_route {p : List BlockId} {b : BlockId} (hp : g.Route p b) :
    ∃ p', g'.Route p' b ∧ ∀ c ∈ p', ¬ Ssa.Inserted g c → c ∈ p := by
  induction hp with
  | start => exact ⟨_, .start, fun c hc _ => hc⟩
  | @step p a b _ hl ih =>
    obtain ⟨e, d, he⟩ := hl
    obtain ⟨p₁, hp₁, hmem⟩ := ih
    obtain ⟨p', hp', hmem'⟩ := (h.strand he).exists_route hp₁
    refine ⟨p', hp', fun c hc hold => ?_⟩
    rcases hmem' c hc with hc | rfl | hins
    · exact List.mem_cons_of_mem _ (hmem c hc hold)
    · exact List.mem_cons_self
    · exact absurd hins hold

/-- **A route through strands** comes from one along the edges.  Inside a strand it comes from one
to its source. -/
theorem of_route {p' : List BlockId} {b : BlockId} (hp' : g'.Route p' b) :
    (¬ Ssa.Inserted g b → ∃ p, g.Route p b ∧ p ⊆ p') ∧
      (Ssa.Inserted g b → ∃ e x p, g.edge? e = some x ∧ b ∈ (th.chain e).map Prod.fst ∧
        g.Route p x.source ∧ p ⊆ p') := by
  induction hp' with
  | start =>
    obtain ⟨block, hentry⟩ := hg.entry_live
    exact ⟨fun _ => ⟨_, .start, fun _ => id⟩, fun hins => by cases hins.symm.trans hentry⟩
  | @step p' c b _ hl ih =>
    obtain ⟨e', d', he'⟩ := hl
    by_cases hc : Ssa.Inserted g c
    · obtain ⟨e, x, p, he, hmem, hp, hsub⟩ := ih.2 hc
      have hstrand := h.strand he
      rcases hstrand.next h.wellFormed.listed hmem he' with hmem' | rfl
      · obtain ⟨q, hq, rfl⟩ := List.mem_map.mp hmem'
        refine ⟨fun hold => absurd (hstrand.block?_of_mem hq).1 hold, fun _ => ?_⟩
        exact ⟨e, x, p, he, hmem', hp, fun _ hin => List.mem_cons_of_mem _ (hsub hin)⟩
      · refine ⟨fun _ => ?_, fun hins => absurd hins hstrand.not_inner⟩
        exact ⟨_, .step hp ⟨e, x.direction, he⟩, List.cons_subset_cons _ hsub⟩
    · obtain ⟨p, hp, hsub⟩ := ih.1 hc
      obtain ⟨e, t, he, rfl⟩ := h.exists_head hg hc he'
      have hstrand := h.strand he
      obtain ⟨y, hy, hcases⟩ := hstrand.first_edge
      cases hy.symm.trans he'
      rcases hcases with ⟨-, rfl⟩ | ⟨hins, hmem⟩
      · refine ⟨fun _ => ?_, fun hins => absurd hins hstrand.not_inner⟩
        exact ⟨_, .step hp ⟨e, d', he⟩, List.cons_subset_cons _ hsub⟩
      · refine ⟨fun hold => absurd hins hold, fun _ => ?_⟩
        exact ⟨e, _, p, he, hmem, hp, fun _ hin => List.mem_cons_of_mem _ (hsub hin)⟩

/-- **Reachability** stays. -/
theorem reachable_iff {b : BlockId} (hb : ¬ Ssa.Inserted g b) : g'.Reachable b ↔ g.Reachable b := by
  constructor
  · rintro ⟨p', hp'⟩
    obtain ⟨p, hp, -⟩ := (h.of_route hg hp').1 hb
    exact ⟨p, hp⟩
  · rintro ⟨p, hp⟩
    obtain ⟨p', hp', -⟩ := h.exists_route hp
    exact ⟨p', hp'⟩

/-- **Dominance** stays. -/
theorem dominates_iff {a b : BlockId} (ha : ¬ Ssa.Inserted g a) (hb : ¬ Ssa.Inserted g b) :
    g'.Dominates a b ↔ g.Dominates a b := by
  constructor
  · intro hab p hp
    obtain ⟨p', hp', hmem⟩ := h.exists_route hp
    exact hmem a (hab p' hp') ha
  · intro hab p' hp'
    obtain ⟨p, hp, hsub⟩ := (h.of_route hg hp').1 hb
    exact hsub (hab p hp)

end Strung

end Graph

/-! ### The conversion -/

namespace Ssa

variable {g : Graph} {th : Graph.Thread} {passed passed' : EdgeId → Prop} {cleared : BlockId → Prop}
  {s : Leaving}

/-- **The state of the conversion** of `g`.  It is strung together.  The strand of an edge that was
passed makes the copies that the phi functions at its end were put in sequence as; the others are as
they were. -/
structure Unravels (g : Graph) (th : Graph.Thread) (passed : EdgeId → Prop)
    (cleared : BlockId → Prop)
    (s : Leaving) : Prop where
  strung : g.Strung s.graph th cleared
  waiting : ∀ {e}, ¬ passed e → th.head e = e ∧ th.last e = e ∧ th.chain e = []
  scheduled : ∀ {e}, passed e →
    ∃ names names', schedule (g.phiCopies e) names = .ok ((th.chain e).map Prod.snd, names')

/-- The edges for which copies are made when some blocks are gone through: those that enter such a
block and find phi functions there. -/
def Laden (g : Graph) (blocks : BlockId → Prop) (e : EdgeId) : Prop :=
  ∃ x block, g.edge? e = some x ∧ blocks x.target ∧ g.block? x.target = some block ∧
  block.phis ≠ .empty

theorem laden_or {b : BlockId} {block : Block} (hg : g.Listed) (hb : g.block? b = some block)
    (e : EdgeId) : Laden g (fun c => cleared c ∨ c = b) e ↔
      Laden g cleared e ∨ block.phis ≠ .empty ∧ e ∈ block.preds := by
  constructor
  · rintro ⟨x, block', he, hcl | rfl, hx, hphis⟩
    · exact .inl ⟨x, block', he, hcl, hx, hphis⟩
    · cases hb.symm.trans hx
      exact .inr ⟨hphis, (hg.mem_preds hb e).mpr ⟨x, he, rfl⟩⟩
  · rintro (⟨x, block', he, hcl, hx⟩ | ⟨hphis, hin⟩)
    · exact ⟨x, block', he, .inl hcl, hx⟩
    · obtain ⟨x, he, rfl⟩ := (hg.mem_preds hb e).mp hin
      exact ⟨x, block, he, .inr rfl, hb, hphis⟩

namespace Unravels

theorem congr (h : Unravels g th passed cleared s) (hp : ∀ e, passed' e ↔ passed e) :
    Unravels g th passed' cleared s := by
  obtain rfl : passed' = passed := funext fun e => propext (hp e)
  exact h

/-- **One edge.** -/
theorem leaveEdge (h : Unravels g th passed cleared s) (hg : g.WellFormed) (hphis : g.PhisComplete)
    {e : EdgeId} {a b : BlockId} {d : Direction} (he : g.edge? e = some ⟨a, b, d⟩) {block : Block}
    (hb : g.block? b = some block) (hclear : cleared b) (hnew : ¬ passed e) :
    ∃ s', (leaveEdge b block.phis s e).outcome = .ok s' ∧
      ∃ th', Unravels g th' (fun e' => passed e' ∨ e' = e) cleared s' := by
  have hnodup : ((g.phiCopies e).map Copy.dst).Nodup := by
    rw [Graph.phiCopies_eq he hb]
    exact block.phis.nodup_copiesFor e
  obtain ⟨⟨cs, names'⟩, hsched⟩ := exists_schedule hnodup s.names
  obtain ⟨-, hlast, hempty⟩ := h.waiting hnew
  obtain ⟨g', th', hsplice, hstrung, hchain, hother⟩ :=
    h.strung.foldlM_spliceNext hg.listed he hclear e cs
  rw [hlast] at hsplice
  rw [hempty, List.map_nil, List.nil_append] at hchain
  refine ⟨⟨s.copies + cs.length, names', g'⟩, ?_, th', hstrung, fun {e'} hnot => ?_, ?_⟩
  · exact outcome_leaveEdge (copiesOn_eq_ok hg hphis he hb) hsched hsplice
  · obtain ⟨hnot, hne⟩ := not_or.mp hnot
    obtain ⟨hhead', hlast', hchain'⟩ := hother e' hne
    rw [hhead', hlast', hchain']
    exact h.waiting hnot
  · intro e' hp
    by_cases heq : e' = e
    · subst heq
      exact ⟨s.names, names', hchain ▸ hsched⟩
    · rw [(hother e' heq).2.2]
      exact h.scheduled (hp.resolve_right heq)

/-- Several edges that enter a block. -/
theorem leaveEdges (h : Unravels g th passed cleared s) (hg : g.WellFormed) (hphis : g.PhisComplete)
    {b : BlockId} {block : Block} (hb : g.block? b = some block) (hclear : cleared b)
    {es : List EdgeId} (hes : ∀ e ∈ es, ∃ x, g.edge? e = some x ∧ x.target = b) (hnodup : es.Nodup)
    (hnew : ∀ e ∈ es, ¬ passed e) :
    ∃ s', (es.foldlM (Ssa.leaveEdge b block.phis) s).outcome = .ok s' ∧
      ∃ th', Unravels g th' (fun e => passed e ∨ e ∈ es) cleared s' := by
  refine Run.exists_foldlM (fun passed s => ∃ th, Unravels g th passed cleared s) hnodup hnew
    (fun {passed s} ⟨th, h⟩ e he hpassed => ?_) ⟨th, h⟩
  obtain ⟨⟨a, _, d⟩, he, rfl⟩ := hes e he
  exact h.leaveEdge hg hphis he hb hclear hpassed

/-- **One block.** -/
theorem leaveBlock (h : Unravels g th (Laden g cleared) cleared s) (hg : g.WellFormed)
    (hphis : g.PhisComplete) {b : BlockId} {block : Block} (hb : g.block? b = some block)
    (hnew : ¬ cleared b) :
    ∃ s', (leaveBlock s b).outcome = .ok s' ∧
      ∃ th', Unravels g th' (Laden g fun c => cleared c ∨ c = b)
        (fun c => cleared c ∨ c = b) s' := by
  have hapart : ∀ e ∈ block.preds, ¬ Laden g cleared e := by
    rintro e hin ⟨y, -, hy, hc, -⟩
    obtain ⟨x, hx, rfl⟩ := (hg.listed.mem_preds hb e).mp hin
    cases hx.symm.trans hy
    exact hnew hc
  obtain ⟨phis, hb', -, hkeeps⟩ := h.strung.block?_eq hb
  obtain rfl := hkeeps hnew
  -- No edge that enters the block has been passed, so they all are as they were.
  have hpreds : block.preds.map th.last = block.preds :=
    List.map_congr_left (g := id) (fun e he => (h.waiting (hapart e he)).2.1) |>.trans
    (List.map_id _)
  rw [hpreds] at hb'
  have hlook : s.graph.block b = .ok { block with succs := block.succs.map th.head } := by
    rw [Graph.block, hb']
  by_cases hempty : block.phis.isEmpty = true
  · have hnone := OrdMap.isEmpty_iff.mp hempty
    refine ⟨s, ?_, th, Unravels.congr ⟨?_, h.waiting, h.scheduled⟩ fun e => ?_⟩
    · rw [Ssa.leaveBlock, Run.outcome_liftM_bind hlook, if_pos hempty]
      rfl
    · exact h.strung.clear_of_empty hb hnone
    · rw [laden_or hg.listed hb]
      exact or_iff_left fun hp => hp.1 hnone
  · have hclear : Unravels g th (Laden g cleared) (fun c => cleared c ∨ c = b)
        { s with graph := s.graph.forget b } := ⟨h.strung.forget hb, h.waiting, h.scheduled⟩
    obtain ⟨s', hok, th', h'⟩ := hclear.leaveEdges hg hphis hb (.inr rfl)
      (fun e he => (hg.listed.mem_preds hb e).mp he) (hg.listed.nodup_preds hb) hapart
    refine ⟨s', ?_, th', h'.congr fun e => ?_⟩
    · rw [Ssa.leaveBlock, Run.outcome_liftM_bind hlook, if_neg hempty]
      exact hok
    · rw [laden_or hg.listed hb, and_iff_right (mt OrdMap.isEmpty_iff.mpr hempty)]

/-- Several blocks. -/
theorem leaveBlocks (h : Unravels g th (Laden g cleared) cleared s) (hg : g.WellFormed)
    (hphis : g.PhisComplete) {bs : List BlockId}
    (hlive : ∀ b ∈ bs, ∃ block, g.block? b = some block) (hnodup : bs.Nodup)
    (hnew : ∀ b ∈ bs, ¬ cleared b) :
    ∃ s', (bs.foldlM Ssa.leaveBlock s).outcome = .ok s' ∧
      ∃ th', Unravels g th' (Laden g fun c => cleared c ∨ c ∈ bs)
        (fun c => cleared c ∨ c ∈ bs) s' := by
  refine Run.exists_foldlM (fun cleared s => ∃ th, Unravels g th (Laden g cleared) cleared s)
    hnodup hnew
    (fun {cleared s} ⟨th, h⟩ b hb hnotyet => ?_) ⟨th, h⟩
  obtain ⟨block, hb⟩ := hlive b hb
  exact h.leaveBlock hg hphis hb hnotyet

end Unravels

/-- **The whole conversion.** -/
theorem exists_leave_unravels (names : NameSupply) (hg : g.WellFormed) (hphis : g.PhisComplete) :
    ∃ s th, (leave names g).outcome = .ok (s.names, s.graph) ∧
      Unravels g th (Laden g (· ∈ g.blockIds)) (· ∈ g.blockIds) s := by
  have hstart : Unravels g .plain (Laden g fun _ => False) (fun _ => False) ⟨0, names, g⟩ :=
    ⟨.start hg, fun _ => ⟨rfl, rfl, rfl⟩, fun ⟨_, _, _, hno, _⟩ => hno.elim⟩
  obtain ⟨s, hok, th, h⟩ := hstart.leaveBlocks hg hphis
    (fun b hb => hg.listed.mem_blockIds.mp hb) hg.listed.nodup_blockIds fun _ _ => id
  refine ⟨s, th, ?_, by simpa only [false_or] using h⟩
  rw [leave, Run.outcome_bind_of_ok hok]
  rfl

end Ssa

/-! ### The shape of the result -/

/-- **A graph has the shape of another**, of which `th` tells what has become of its edges. -/
structure Graph.KeepsShape (g g' : Graph) (th : Graph.Thread) : Prop where
  wellFormed : g'.WellFormed
  /-- Every block is still there and does what it did, without its phi functions.  The edges around
  it are the ends of the strands of those that were, in their order. -/
  block?_eq : ∀ {b block}, g.block? b = some block → g'.block? b =
    some { block with
      phis := .empty, preds := block.preds.map th.last, succs := block.succs.map th.head }
  /-- Contracting the inserted blocks gives the edges back, with their directions. -/
  bridges_iff : ∀ {e x}, g'.Bridges (Ssa.Inserted g) e x ↔ ∃ o, th.head o = e ∧ g.edge? o = some x
  head_inj : ∀ {o o' x x'}, g.edge? o = some x → g.edge? o' = some x' →
    th.head o = th.head o' → o = o'
  reachable_iff : ∀ {b block}, g.block? b = some block → (g'.Reachable b ↔ g.Reachable b)
  dominates_iff : ∀ {a b block block'}, g.block? a = some block → g.block? b = some block' →
    (g'.Dominates a b ↔ g.Dominates a b)
  /-- Every edge has become its strand, through the blocks of its chain in order. -/
  strand : ∀ {o x}, g.edge? o = some x →
    g'.Strand (Ssa.Inserted g) (th.head o) x.source x.direction (th.chain o) (th.last o) x.target
  /-- Every inserted block has one edge in, one edge out and a copy to make, and is on one chain. -/
  inserted : ∀ {b block}, g'.block? b = some block → Ssa.Inserted g b →
    ∃ c e e' o x, block = Graph.copyBlock b c e e' ∧ g.edge? o = some x ∧ (b, c) ∈ th.chain o ∧
      ∀ o' c', (b, c') ∈ th.chain o' → o' = o
  nodup_chain : ∀ o, ((th.chain o).map Prod.fst).Nodup
  /-- The chain of an edge that enters a block with phi functions makes the copies they were put in
  sequence as. -/
  scheduled : ∀ {o x block}, g.edge? o = some x → g.block? x.target = some block →
    block.phis ≠ .empty →
    ∃ names names', Ssa.schedule (g.phiCopies o) names = .ok ((th.chain o).map Prod.snd, names')
  /-- All other edges are untouched. -/
  untouched : ∀ {o x block}, g.edge? o = some x → g.block? x.target = some block →
    block.phis = .empty → th.head o = o ∧ th.last o = o ∧ th.chain o = []

theorem Ssa.Unravels.keepsShape {g : Graph} {th : Graph.Thread} {s : Ssa.Leaving}
    (h : Ssa.Unravels g th (Ssa.Laden g (· ∈ g.blockIds)) (· ∈ g.blockIds) s) (hg : g.WellFormed) :
    g.KeepsShape s.graph th := by
  have hold : ∀ {b block}, g.block? b = some block → ¬ Ssa.Inserted g b := by
    intro b block hb hins
    cases hins.symm.trans hb
  have hstrung := h.strung
  constructor
  case wellFormed => exact hstrung.wellFormed
  case block?_eq =>
    intro b block hb
    obtain ⟨phis, hb', hcleared, -⟩ := hstrung.block?_eq hb
    obtain rfl := hcleared (hg.listed.mem_blockIds.mpr ⟨_, hb⟩)
    exact hb'
  case bridges_iff => exact hstrung.bridges_iff hg
  case head_inj => exact hstrung.head_inj hg.listed
  case reachable_iff => exact fun hb => hstrung.reachable_iff hg (hold hb)
  case dominates_iff => exact fun ha hb => hstrung.dominates_iff hg (hold ha) (hold hb)
  case strand => exact hstrung.strand
  case inserted =>
    intro b block hb hins
    obtain ⟨o, c, hmem⟩ := hstrung.inserted hb hins
    obtain ⟨⟨x, ho⟩, -⟩ := hstrung.live hmem
    obtain ⟨-, e, e', hcopy⟩ := (hstrung.strand ho).block?_of_mem hmem
    cases hb.symm.trans hcopy
    exact ⟨c, e, e', o, x, rfl, ho, hmem, fun o' c' hmem' => hstrung.apart hmem' hmem rfl⟩
  case nodup_chain => exact hstrung.nodup
  case scheduled =>
    intro o x block ho hb hphis
    exact h.scheduled ⟨x, block, ho, hg.listed.mem_blockIds.mpr ⟨_, hb⟩, hb, hphis⟩
  case untouched =>
    intro o x block ho hb hphis
    refine h.waiting ?_
    rintro ⟨y, block', hy, -, hb', hne⟩
    cases ho.symm.trans hy
    cases hb.symm.trans hb'
    exact hne hphis

/-- **Leaving single assignment form keeps the shape of the graph.**  On a well-formed graph with
complete phi functions the conversion succeeds.  Every block of the graph stays, with its kind and
the order of its edges.  Each edge into a block with phi functions becomes a chain of copies, each a
block of its own with one edge in and one out, and contracting these blocks gives back the graph,
edge by edge and with all directions.  Reachability and dominance between the blocks of the graph
are the same as before. -/
theorem Routine.outOfSsa_shape (r : Routine) (hg : r.graph.WellFormed)
    (hphis : r.graph.PhisComplete) :
    ∃ r' th, r.outOfSsa.outcome = .ok r' ∧ r.graph.KeepsShape r'.graph th := by
  obtain ⟨s, th, hok, h⟩ := Ssa.exists_leave_unravels r.names hg hphis
  refine ⟨Routine.withGraph { r with names := s.names } s.graph, th, ?_, h.keepsShape hg⟩
  rw [Routine.outOfSsa, Run.outcome_bind_of_ok hok]
  exact Routine.settle_spec _ h.strung.wellFormed

theorem Routine.outOfSsa_shape_swapping :
    Graph.swapping.WellFormed ∧ Graph.swapping.PhisComplete ∧
      ∃ r' th, (Routine.mk Graph.swapping .new none none).outOfSsa.outcome = .ok r' ∧
        Graph.swapping.KeepsShape r'.graph th :=
  ⟨by decide, by decide,
    Routine.outOfSsa_shape (.mk Graph.swapping .new none none) (by decide) (by decide)⟩

end FlowGraph
