import FlowGraph.Proofs.SingleAssignment

/-! # Conversion keeps the meaning of a graph

A walk of the converted graph goes hand in hand with a walk of the graph before.  When both are at a
block, every variable has the value that its version in force behind the phi functions of the block
has (`Agrees`).

On the way from one block to the next, a variable with a phi function there takes its value from the
version in force at the end of the first block.  For a variable without one, that version is the one
in force at the immediate dominator of the next block: had a block in between defined the variable,
the next block would lie on its frontier and have a phi function (`current_of_no_phi`).
-/
namespace FlowGraph

/-- **No two variables of a graph share a base name.** -/
def Graph.NamesApart (g : Graph) : Prop :=
  ∀ ⦃v w⦄, g.Occurs v → g.Occurs w → v.name = w.name → v = w

theorem Graph.namesApart_iff_forall {g : Graph} : g.NamesApart ↔
    ∀ v ∈ g.liveBlocks.flatMap Block.occurrences, ∀ w ∈ g.liveBlocks.flatMap Block.occurrences,
      v.name = w.name → v = w := by
  simp only [mem_occurrences, NamesApart]
  exact ⟨fun h v hv w hw => h hv hw, fun h v w hv hw => h v hv w hw⟩

instance (g : Graph) : Decidable g.NamesApart :=
  decidable_of_iff _ Graph.namesApart_iff_forall.symm

namespace Ssa
namespace Versioned

variable {g g' : Graph} {names names' : NameSupply} {stops : List Stop}
  (h : Versioned g g' names names' stops)
include h

/-! ### The version that reaches a block -/

/-- A block that does not define a variable passes its version on. -/
theorem current_pass {a : Stop} (ha : a ∈ stops) {x : String} (hphi : g'.hasPhi a.block x = false)
    (hdefs : ∀ {k v}, g.kind? a.block = some k → v ∈ k.defs → v.name ≠ x)
    (hg : g.WellFormed) : a.out.current x = a.inn.current x := by
  have hown : x ∉ a.own.map Prod.fst := by
    obtain ⟨block, hb⟩ := hg.live_of_reachable (h.reachable ha)
    have hk := Graph.kind?_of_block? hb
    rw [h.own_names a ha hk]
    rintro hx
    obtain ⟨v, hv, hname⟩ := List.mem_map.mp hx
    exact hdefs hk hv hname
  have hmerged : x ∉ a.merged.map Prod.fst := by
    rw [h.merged_iff a ha, hphi]
    exact Bool.false_ne_true
  rw [Stop.out, Versions.current_append_of_notMem hown, Stop.mid,
    Versions.current_append_of_notMem hmerged]

/-- **Without a phi function** the version that reaches a block along an edge is that of its
immediate dominator. -/
theorem current_of_no_phi (hg : g.WellFormed) {a p : Stop} (ha : a ∈ stops) (hp : p ∈ stops)
    {t : BlockId} (hl : g.Leads a.block t) (hi : g.ImmediatelyDominates p.block t) {x : String}
    (hphi : g'.hasPhi t x = false) : a.out.current x = p.out.current x := by
  -- going up from `a`, nothing below `p` defines the variable
  have key : ∀ {b}, g.Reachable b → ∀ c ∈ stops, c.block = b → g.Dominates p.block b →
      g.Dominates b a.block → c.out.current x = p.out.current x := by
    intro b hb
    refine Dominance.tree_induction hg (P := fun b => ∀ c ∈ stops, c.block = b →
      g.Dominates p.block b → g.Dominates b a.block → c.out.current x = p.out.current x) ?_ ?_ hb
    · intro c hc hcb hpb _
      rw [h.stop_unique hc hp (hcb.trans hpb.eq_entry.symm)]
    · rintro d b hdb ih c hc rfl hpb hba
      by_cases hcp : c.block = p.block
      · rw [h.stop_unique hc hp hcp]
      · have hfrontier : g.InFrontier c.block t := by
          refine ⟨⟨a.block, h.reachable ha, hba, hl⟩, fun ⟨hct, hne⟩ => ?_⟩
          exact hcp ((hi.closest hct hne).antisymm hpb (h.reachable hp))
        have hno : ∀ {n}, g'.hasPhi t n = false →
            ¬ ((∃ k v, g.kind? c.block = some k ∧ v ∈ k.defs ∧ v.name = n) ∨
              g'.hasPhi c.block n = true) := by
          intro n hn hdef
          have hjoin : g.Joins n t := by
            rcases hdef with ⟨k, v, hk, hv, hname⟩ | hphi
            · exact .assigned hdb.reachable hk hv hname hfrontier
            · exact .again (h.hasPhi_iff.mp hphi) hfrontier
          rw [h.hasPhi_iff.mpr hjoin] at hn
          cases hn
        have hpass := h.current_pass (x := x) hc
          (Bool.eq_false_iff.mpr fun hc => hno hphi (.inr hc))
          (fun hk hv hname => hno hphi (.inl ⟨_, _, hk, hv, hname⟩)) hg
        rcases h.inn_eq c hc with ⟨hentry, -⟩ | ⟨q, hq, hqi, hinn⟩
        · exact absurd (hentry ▸ hdb.dominates : g.Dominates d Graph.entry).eq_entry
            (hentry ▸ hdb.ne)
        · rw [hpass, hinn]
          have hqd := hqi.unique hdb
          exact ih q hq hqd (hdb.closest hpb (Ne.symm hcp)) (hdb.dominates.trans hba)
  exact key (h.reachable ha) a ha rfl (hi.dominates.pred hi.ne hl) (.refl _)

end Versioned

/-! ### Walks hand in hand -/

section Walks
variable {V : Type} {I : Interpretation V}

/-- **Two walks are at the same block**, and every variable has the value of its version there. -/
structure Agrees (g : Graph) (a : Stop) (u u' : Visit V) : Prop where
  block_eq : u.block = a.block
  block_eq' : u'.block = a.block
  shown_eq : u'.memory.shown = u.memory.shown
  store_eq : ∀ v, g.Occurs v → u'.memory.store (a.mid.current v.name) = u.memory.store v

variable {g g' : Graph} {names names' : NameSupply} {stops : List Stop}
  (h : Versioned g g' names names' stops) (hg : g.WellFormed) (hn : g.NamesApart)
include h

/-- Behind what the block does, the versions in force when it is left have the values. -/
theorem Agrees.store_after {a : Stop} (ha : a ∈ stops) (hn : g.NamesApart) {u u' : Visit V}
    (hu : Agrees g a u u') {k : Kind} (hk : g.kind? a.block = some k) {v : Var} (hv : g.Occurs v) :
    ((k.rename (fun v => a.mid.current v.name)
        (fun v => a.out.current v.name)).perform I u'.memory).store (a.out.current v.name) =
      (k.perform I u.memory).store v := by
  have huse : ∀ v ∈ k.uses, u'.memory.store (a.mid.current v.name) = u.memory.store v :=
    fun v hv => hu.store_eq v (Graph.occurs_of_use hk hv)
  have hnames : ∀ u ∈ k.defs, u.name = v.name → u = v := fun u hu =>
    hn (Graph.occurs_of_def hk hu) hv
  refine k.store_rename hu.shown_eq huse (fun hnot => ?_) fun u hu => ?_
  · have hown : v.name ∉ a.own.map Prod.fst := by
      rw [h.own_names a ha hk]
      intro hin
      obtain ⟨u, hu, hname⟩ := List.mem_map.mp hin
      exact hnot (hnames u hu hname ▸ hu)
    rw [Stop.out, Versions.current_append_of_notMem hown]
    exact hu.store_eq v hv
  · refine ⟨fun heq => hnames u hu ?_, fun heq => heq ▸ rfl⟩
    exact (Var.mk.inj heq).1

/-- **On an edge** the phi functions at its end hand the values over. -/
theorem store_on_edge (hg : g.WellFormed) {a c : Stop} (ha : a ∈ stops) (hc : c ∈ stops)
    {e : EdgeId}
    {d : Direction} (he : g.edge? e = some ⟨a.block, c.block, d⟩) (σ : Store V) (x : String) :
    atOnce (g'.phiCopies e) σ (c.mid.current x) = σ (a.out.current x) := by
  obtain ⟨block, hb⟩ := hg.live_of_reachable (h.reachable hc)
  obtain ⟨block', hb', -⟩ := h.outline.symm.exists_block hb
  have hcopies : g'.phiCopies e = block'.phis.copiesFor e := by
    simp only [Graph.phiCopies, h.outline.edge?_eq, he, Option.bind_some, hb']
  rw [hcopies]
  cases hp : block'.phis.get? x with
  | some p =>
    have hphi : g'.phi? c.block x = some p := by rw [Graph.phi?, hb']; exact hp
    have harg : p.arg? e = some (a.out.current x) := (h.arg?_iff hphi).mpr ⟨a, ha, d, he, rfl⟩
    rw [← h.lhs_eq c hc hphi]
    exact Phis.atOnce_lhs σ hp harg
  | none =>
    have hphi : g'.hasPhi c.block x = false := by
      rw [Graph.hasPhi_of_block? hb', OrdMap.contains, hp]
      rfl
    have hmerged : x ∉ c.merged.map Prod.fst := by
      rw [h.merged_iff c hc, hphi]
      exact Bool.false_ne_true
    have hmid : c.mid.current x = a.out.current x := by
      rw [Stop.mid, Versions.current_append_of_notMem hmerged]
      rcases h.inn_eq c hc with ⟨hentry, -⟩ | ⟨p, hp, hi, hinn⟩
      · exact absurd hentry (hg.wired.entry_closed he)
      · rw [hinn]
        exact (h.current_of_no_phi hg ha hp ⟨e, d, he⟩ hi hphi).symm
    rw [Phis.atOnce_other σ (by exact hp), hmid]

/-- **A step of both walks.** -/
theorem Agrees.advance (hg : g.WellFormed) (hp : g.PhiFree) (hn : g.NamesApart) {a : Stop}
    (ha : a ∈ stops) {u u' : Visit V} (hu : Agrees g a u u') :
    g.advance I u = none ∧ g'.advance I u' = none ∨
      ∃ c ∈ stops, ∃ w w', g.advance I u = some w ∧ g'.advance I u' = some w' ∧
        Agrees g c w w' := by
  have hg' := h.wellFormed hg
  obtain ⟨k, hk, hk'⟩ := h.exists_kind hg ha
  have huse : ∀ v ∈ k.uses, u'.memory.store (a.mid.current v.name) = u.memory.store v :=
    fun v hv => hu.store_eq v (Graph.occurs_of_use hk hv)
  by_cases hexit : a.block = Graph.exit
  · left
    exact ⟨hg.advanceBy_eq_none_iff.mpr (.inr (hu.block_eq.trans hexit)),
      hg'.advanceBy_eq_none_iff.mpr (.inr (hu.block_eq'.trans hexit))⟩
  · right
    have hne : k ≠ .exit := fun hx => hexit (hg.exit_only (hx ▸ hk))
    obtain ⟨e, t, hl⟩ := hg.exists_leads hk hne (Kind.way_mem_directions I u.memory.store hne)
    have he := hg.leads_iff.mp hl
    obtain ⟨c, hc, rfl⟩ := h.exists_stop ((h.reachable ha).step ⟨e, _, he⟩)
    -- What is used has the same value in both walks, so both take the same edge.
    have hway : (k.rename (fun v => a.mid.current v.name)
        (fun v => a.out.current v.name)).way I u'.memory.store =
        k.way I u.memory.store := k.way_rename huse
    have he' : g'.edge? e = some ⟨u'.block, c.block, (k.rename
        (fun v => a.mid.current v.name) (fun v => a.out.current v.name)).way I
          u'.memory.store⟩ := by
      rw [h.outline.edge?_eq, hway, hu.block_eq', he]
    rw [← hu.block_eq] at hk he
    rw [← hu.block_eq'] at hk'
    refine ⟨c, hc, ⟨c.block, _⟩, ⟨c.block, _⟩, hg.advanceBy_eq_some_iff.mpr ⟨_, e, hk, he, rfl⟩,
      hg'.advanceBy_eq_some_iff.mpr ⟨_, e, hk', he', rfl⟩, rfl, rfl, ?_, fun v hv => ?_⟩
    · exact k.shown_rename hu.shown_eq huse
    · rw [hu.block_eq] at hk he
      simp only [hp.phiCopies, atOnce_nil]
      rw [store_on_edge h hg ha hc he]
      exact hu.store_after h ha hn hk hv

/-- **Whole walks.** -/
theorem walks_agree (hg : g.WellFormed) (hp : g.PhiFree) (hn : g.NamesApart) {σ σ' : Store V}
    (hσ : ∀ v, g.Occurs v → σ' (.versioned v.name 0) = σ v) (n : Nat) :
    g.walk I σ n = none ∧ g'.walk I σ' n = none ∨
      ∃ a ∈ stops, ∃ u u', g.walk I σ n = some u ∧ g'.walk I σ' n = some u' ∧ Agrees g a u u' := by
  induction n with
  | zero =>
    right
    obtain ⟨a, ha, hentry⟩ := h.exists_stop .entry
    refine ⟨a, ha, _, _, rfl, rfl, hentry.symm, hentry.symm, rfl, fun v hv => ?_⟩
    -- nothing is in force at the entry
    have hmerged : v.name ∉ a.merged.map Prod.fst := by
      rw [h.merged_iff a ha]
      exact fun hphi => (h.hasPhi_iff.mp hphi).ne_entry hg hentry
    have hinn : a.inn = [] := by
      rcases h.inn_eq a ha with ⟨-, hinn⟩ | ⟨p, -, hi, -⟩
      · exact hinn
      · exact absurd (hentry ▸ hi.dominates : g.Dominates p.block Graph.entry).eq_entry
          (hentry ▸ hi.ne)
    rw [Stop.mid, Versions.current_append_of_notMem hmerged, hinn]
    exact hσ v hv
  | succ n ih =>
    rcases ih with ⟨hu, hu'⟩ | ⟨a, ha, u, u', hu, hu', hagree⟩
    · exact .inl ⟨by rw [Graph.walk, hu]; rfl, by rw [Graph.walk, hu']; rfl⟩
    · simp only [Graph.walk, hu, hu', Option.bind_some]
      exact hagree.advance h hg hp hn ha

/-- Walks that agree read and write the same. -/
theorem Agrees.view_eq (hg : g.WellFormed) (hn : g.NamesApart) {a : Stop} (ha : a ∈ stops)
    {u u' : Visit V} (hu : Agrees g a u u') :
    (u'.block, g'.reads u', g'.writes I u', u'.memory.shown) =
      (u.block, g.reads u, g.writes I u, u.memory.shown) := by
  obtain ⟨k, hk, hk'⟩ := h.exists_kind hg ha
  have hreads : g'.reads u' = g.reads u := by
    simp only [Graph.reads, hu.block_eq, hu.block_eq', hk, hk', Kind.uses_rename, List.map_map]
    exact List.map_congr_left fun v hv => hu.store_eq v (Graph.occurs_of_use hk hv)
  have hwrites : g'.writes I u' = g.writes I u := by
    simp only [Graph.writes, hu.block_eq, hu.block_eq', hk, hk', Kind.defs_rename, List.map_map]
    exact List.map_congr_left fun v hv => hu.store_after h ha hn hk (Graph.occurs_of_def hk hv)
  rw [hu.block_eq, hu.block_eq', hreads, hwrites, hu.shown_eq]

end Walks
end Ssa

/-! ### The whole conversion -/

/-- What is left of a graph has no other variables. -/
theorem Graph.Restricts.occurs {g g' : Graph} {gone : BlockId → Prop}
    (h : Graph.Restricts g g' gone) (hp : g.PhiFree) {v : Var} (hv : g'.Occurs v) : g.Occurs v := by
  rcases Graph.occurs_iff.mp hv with ⟨b, name, p, hphi, -⟩ | ⟨b, k, hk, hv⟩
  · obtain ⟨block, hb, hget⟩ := Option.bind_eq_some_iff.mp hphi
    rw [h.phiFree hp hb] at hget
    cases hget
  · exact Graph.occurs_iff.mpr (.inr ⟨b, k, (h.kind?_eq_some hk).2, hv⟩)

/-- **Conversion keeps the meaning of a graph.**  The walk of the graph before and that of the graph
in single assignment form, from a store that gives version 0 of every variable its value, visit the
same blocks, and at each visit read, write and show the same. -/
theorem Routine.toSsa_walk (r : Routine) (hg : r.graph.WellFormed) (hp : r.graph.PhiFree)
    (hn : r.graph.NamesApart) :
    ∃ r', r.toSsa.outcome = .ok r' ∧ ∀ {V : Type} (I : Interpretation V) (σ σ' : Store V),
      (∀ v, r.graph.Occurs v → σ' (.versioned v.name 0) = σ v) → ∀ n,
        (r'.graph.walk I σ' n).map
            (fun u => (u.block, r'.graph.reads u, r'.graph.writes I u, u.memory.shown)) =
          (r.graph.walk I σ n).map
            (fun u => (u.block, r.graph.reads u, r.graph.writes I u, u.memory.shown)) := by
  obtain ⟨r', g, stops, hok, hres, hver⟩ := r.toSsa_spec hg hp
  obtain ⟨hg₁, -, -⟩ := hg.restricts_unreachable hres
  have hp₁ := hres.phiFree hp
  have hn₁ : g.NamesApart := fun v w hv hw => hn (hres.occurs hp hv) (hres.occurs hp hw)
  refine ⟨r', hok, fun {V} I σ σ' hσ n => ?_⟩
  rw [← hg.walk_of_restricts hp hres σ n]
  rcases Ssa.walks_agree hver hg₁ hp₁ hn₁ (I := I) (fun v hv => hσ v (hres.occurs hp hv)) n with
    ⟨hu, hu'⟩ | ⟨a, ha, u, u', hu, hu', hagree⟩
  · rw [hu, hu']
    rfl
  · rw [hu, hu', Option.map_some, Option.map_some, hagree.view_eq hver hg₁ hn₁ ha]
    -- a block that is visited has been left as it was
    have hkind : g.kind? u.block = r.graph.kind? u.block := by
      refine hres.kind?_of_left fun hmem => (hg.mem_unreachable.mp hmem).2.2 ?_
      have hwalk := hg.walk_of_restricts hp hres (I := I) σ n
      exact hg.reachable_of_walk (hwalk ▸ hu)
    simp only [Graph.reads, Graph.writes, hkind]

/-- Numbers, with one operator that counts down and a test for zero. -/
def Interpretation.counting : Interpretation Int where
  literal
    | .int n => n.toInt
    | _ => 0
  unary _ x := x - 1
  binary _ x y := x + y
  truth x := x != 0
  call _ _ _ := 0

theorem Routine.countdown_walk :
    Graph.countdown.WellFormed ∧ Graph.countdown.PhiFree ∧ Graph.countdown.NamesApart ∧
      ∃ r', (Routine.mk Graph.countdown .new none none).toSsa.outcome = .ok r' ∧ ∀ n,
        (r'.graph.walk .counting (fun _ => 7) n).map
            (fun u => (u.block, r'.graph.reads u, r'.graph.writes .counting u, u.memory.shown)) =
          (Graph.countdown.walk .counting (fun _ => 7) n).map (fun u =>
            (u.block, Graph.countdown.reads u, Graph.countdown.writes .counting u,
              u.memory.shown)) := by
  refine ⟨by decide, by decide, by decide, ?_⟩
  obtain ⟨r', hok, hwalk⟩ := Routine.toSsa_walk (.mk Graph.countdown .new none none)
    (by decide) (by decide) (by decide)
  exact ⟨r', hok, hwalk .counting _ _ fun _ _ => rfl⟩

end FlowGraph
