import FlowGraph.Proofs.LayingOut
import FlowGraph.Proofs.Rebuilding

/-! # Paths through a laid out graph

To follow a path, no values are needed: a sequence of outcomes tells every branch where to go, and
what is done on the way is recorded.  A return is done like any other statement and control goes on
behind it, as the edges of a graph do.  A graph and its layout take the same paths.
-/
namespace FlowGraph

/-- **What is done on a path**: statements are performed, and conditions are tested. -/
inductive Deed where
  | performed (s : Statement)
  | tested (cond : Var) (outcome : Bool)

namespace Deed

/-- The number of tests among what was done. -/
def tests (done : List (Observation Deed)) : Nat :=
  done.countP fun
    | .evaluated (.tested _ _) => true
    | _ => false

/-- Adds something to what was done. -/
def record (d : Deed) (m : Memory Deed) : Memory Deed := ⟨m.store, m.shown ++ [.evaluated d]⟩

end Deed

/-- **To follow a path**: the tests have the given outcomes, one after the other.  The store plays
no part. -/
def Manner.path (outcomes : Nat → Bool) : Manner Deed where
  execute s m := (Deed.performed s).record m
  test cond m := (Deed.tested cond (outcomes (Deed.tests m.shown))).record m
  outcome _ m := outcomes (Deed.tests m.shown)
  stops := false
  grows_execute _ _ := List.prefix_append ..
  grows_test _ _ := List.prefix_append ..

variable {V : Type}

/-- **A run comes to a place**, and has shown this before. -/
def System.Comes (S : System V) (s : Moment S.Place V) (place : S.Place)
    (shown : List (Observation V)) : Prop :=
  ∃ n m, steps S.next n s = some ⟨.here place, m⟩ ∧ m.shown = shown

namespace Graph.WellFormed

variable {g : Graph} (hg : g.WellFormed) {M : Manner V} (hstops : M.stops = false)
include hg hstops

/-- Where returns do not end a run, it is over at the exit and goes on from any other block. -/
theorem moveBy_cases {b : BlockId} {k : Kind} (hk : g.kind? b = some k) (m : Memory V) :
    b = exit ∧ g.moveBy M b m = ⟨.ended .ranOff, m⟩ ∨
      ∃ t k', g.kind? t = some k' ∧ g.moveBy M b m = ⟨.here t, M.perform m k⟩ := by
  by_cases hne : k = .exit
  · subst hne
    exact .inl ⟨hg.exit_only hk, moveBy_exit hk⟩
  · obtain ⟨e, t, hleads⟩ := hg.exists_leads hk hne (M.way_mem_directions m hne)
    have he := hg.leads_iff.mp hleads
    obtain ⟨block, hb⟩ : ∃ block, g.block? t = some block := hg.listed.target_live he
    refine .inr ⟨t, _, kind?_of_block? hb, hg.moveBy_edge hk ?_ he⟩
    rw [hstops, Bool.and_false]

/-- **A walk ends at the exit**, and in no other way. -/
theorem ends_iff_comes {b : BlockId} {k : Kind} (hk : g.kind? b = some k) {m : Memory V}
    {ending : Ending} {shown : List (Observation V)} :
    (g.systemBy M).Ends ⟨.here b, m⟩ ending shown ↔
      ending = .ranOff ∧ (g.systemBy M).Comes ⟨.here b, m⟩ exit shown := by
  constructor
  · rintro ⟨n, m', hn, rfl⟩
    have hmoves : ∀ {b m t m'}, (∃ k, g.kind? b = some k) → g.moveBy M b m = ⟨.here t, m'⟩ →
        ∃ k, g.kind? t = some k := by
      rintro b m t m' ⟨k, hk⟩ hmove
      rcases hg.moveBy_cases hstops hk m with ⟨-, h⟩ | ⟨t', k', hk', h⟩
      · cases h.symm.trans hmove
      · cases h.symm.trans hmove
        exact ⟨k', hk'⟩
    obtain ⟨i, c, u, ⟨k', hk'⟩, hi, hlast⟩ :=
      System.exists_last (S := g.systemBy M) hmoves ⟨k, hk⟩ hn
    -- The last move can only have been one from the exit.
    have hover : g.moveBy M c u = ⟨.ended ending, m'⟩ := hlast
    rcases hg.moveBy_cases hstops hk' u with ⟨rfl, h⟩ | ⟨t, k'', -, h⟩
    · cases h.symm.trans hover
      exact ⟨rfl, i, _, hi, rfl⟩
    · cases h.symm.trans hover
  · rintro ⟨rfl, n, m', hn, rfl⟩
    refine ⟨n + 1, m', ?_, rfl⟩
    rw [steps_add, hn]
    exact congrArg some (moveBy_exit hg.wired.exit_kind)

omit hstops in
/-- **A laid out graph takes the paths of the graph.**  Laying out succeeds on every well-formed
graph whose blocks hold no statement that directs control.  Whatever the outcomes of the tests are,
the list performs the same statements and tests the same conditions as a walk from the entry, in the
same order.  It runs off its end if and only if the walk comes to the exit, having done the same,
and there is no other way in which it stops. -/
theorem layOut_keepsPaths (hs : g.Straight) :
    ∃ ss, g.layOut.outcome = .ok ss ∧ ∀ (outcomes : Nat → Bool) (σ : Store Deed),
      (∀ done, (g.systemBy (.path outcomes)).Shows ⟨.here entry, ⟨σ, []⟩⟩ done ↔
        (Layout.systemBy (.path outcomes) ss).Shows ⟨.here ss, ⟨σ, []⟩⟩ done) ∧
      (∀ done, (g.systemBy (.path outcomes)).Comes ⟨.here entry, ⟨σ, []⟩⟩ exit done ↔
        (Layout.systemBy (.path outcomes) ss).Ends ⟨.here ss, ⟨σ, []⟩⟩ .ranOff done) ∧
      ∀ ending done, (Layout.systemBy (.path outcomes) ss).Ends ⟨.here ss, ⟨σ, []⟩⟩ ending done →
        ending = .ranOff := by
  obtain ⟨ss, hout, hsame⟩ := hg.exists_behaves hs
  refine ⟨ss, hout, fun outcomes σ => ?_⟩
  have hpath := hsame (.path outcomes) ⟨σ, []⟩
  have hends : ∀ {ending done},
      (g.systemBy (.path outcomes)).Ends ⟨.here entry, ⟨σ, []⟩⟩ ending done ↔
      ending = .ranOff ∧ (g.systemBy (.path outcomes)).Comes ⟨.here entry, ⟨σ, []⟩⟩ exit done :=
    hg.ends_iff_comes rfl hg.wired.entry_kind
  refine ⟨hpath.shows_iff, fun done => ?_, fun ending done h => ?_⟩
  · rw [← hpath.ends_iff, hends, and_iff_right rfl]
  · exact (hends.mp ((hpath.ends_iff ending done).mpr h)).1

end Graph.WellFormed

/-- A loop with a return in it, which goes on, and a block out of reach that leads into it. -/
def Graph.roundabout : Graph where
  name := "roundabout"
  blocks := #[
    some { id := ⟨0⟩, kind := .entry, succs := [⟨0⟩] },
    some { id := ⟨1⟩, kind := .exit, preds := [⟨2⟩] },
    some { id := ⟨2⟩,
           kind := .statement (.ret (.var (.plain "n"))), preds := [⟨1⟩], succs := [⟨3⟩] },
    none,
    some { id := ⟨4⟩, kind := .branch ⟨.plain "more", "", ""⟩
           preds := [⟨0⟩, ⟨4⟩, ⟨5⟩], succs := [⟨1⟩, ⟨2⟩] },
    some { id := ⟨5⟩,
           kind := .statement (.eval (.call "next" [])), preds := [⟨3⟩], succs := [⟨4⟩] },
    some { id := ⟨6⟩, kind := .empty, succs := [⟨5⟩] }]
  edges := #[some ⟨⟨0⟩, ⟨4⟩, .always⟩, some ⟨⟨4⟩, ⟨2⟩, .onTrue⟩, some ⟨⟨4⟩, ⟨1⟩, .onFalse⟩,
    some ⟨⟨2⟩, ⟨5⟩, .always⟩, some ⟨⟨5⟩, ⟨4⟩, .always⟩, some ⟨⟨6⟩, ⟨4⟩, .always⟩]

/-- Once round the loop, past the return, and off the end. -/
theorem Graph.layOut_keepsPaths_roundabout :
    ∃ ss, roundabout.layOut.outcome = .ok ss ∧ ∀ σ,
      (Layout.systemBy (.path (· = 0)) ss).Ends ⟨.here ss, ⟨σ, []⟩⟩ .ranOff
        [.evaluated (.tested (.plain "more") true),
          .evaluated (.performed (.ret (.var (.plain "n")))),
          .evaluated (.performed (.eval (.call "next" []))),
          .evaluated (.tested (.plain "more") false)] := by
  have hg : roundabout.WellFormed := by decide
  obtain ⟨ss, hout, hpaths⟩ := hg.layOut_keepsPaths (by decide)
  exact ⟨ss, hout, fun σ => ((hpaths _ σ).2.1 _).mp ⟨5, _, rfl, rfl⟩⟩

end FlowGraph
