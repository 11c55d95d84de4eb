import FlowGraph.CommandLine.Session
import FlowGraph.Proofs.JsonText

/-! # Procedures are read back from their JSON text

Every form of statement, expression and literal is decoded from what it is encoded as, and the
values in between nest only a few levels deep and hold no number that a text cannot (`Within`).
With `JsonText` this makes reading the inverse of writing, for a procedure and for a whole file.

A file with a list of procedures is never taken for a single procedure, although an array could be
the fields of one: the first field would have to be a name, and a procedure is written as an object.
-/
namespace FlowGraph

/-- A variable whose version, if it has one, has 32 bits. -/
def Var.Fits (v : Var) : Prop := (v.version.getD 0 : Int) ≤ Var.versionLimit

/-- **A procedure whose versions have 32 bits.** -/
def Procedure.VersionsFit (p : Procedure) : Prop :=
  ∀ s ∈ p.statements, ∀ v ∈ s.defs ++ s.uses, v.Fits

instance (v : Var) : Decidable v.Fits := inferInstanceAs (Decidable (_ ≤ _))

instance (p : Procedure) : Decidable p.VersionsFit :=
  inferInstanceAs (Decidable (∀ s ∈ p.statements, ∀ v ∈ s.defs ++ s.uses, v.Fits))

/-! ### Numbers and lists -/

theorem Numeral.toInt?_ofInt (n : Int) : (Numeral.ofInt n).toInt? = some n := by
  unfold Numeral.ofInt
  rcases Int.lt_or_le n 0 with hneg | hpos
  · obtain ⟨m, hm⟩ : ∃ m, n.natAbs = m + 1 := ⟨n.natAbs - 1, by omega⟩
    rw [decide_eq_true hneg, hm]
    simp only [Numeral.toInt?]
    congr 1
    omega
  · rw [decide_eq_false (by omega)]
    simp only [Numeral.toInt?]
    congr 1
    omega

namespace Json

theorem intBetween?_int {low high n : Int} (hlow : low ≤ n) (hhigh : n ≤ high) :
    (Json.int n).intBetween? low high = some n := by
  simp [Json.int, intBetween?, Numeral.toInt?_ofInt, hlow, hhigh]

/-- A list is decoded if each of its items is. -/
theorem listOf?_map {α : Type} {encode : α → Json} {decode : Json → Option α} {xs : List α}
    (h : ∀ x ∈ xs, decode (encode x) = some x) :
    (Json.arr (xs.map encode)).listOf? decode = some xs := by
  rw [listOf?]
  induction xs with
  | nil => rfl
  | cons x xs ih =>
    obtain ⟨hx, hxs⟩ := List.forall_mem_cons.mp h
    rw [List.map_cons, List.mapM_cons, hx, ih hxs]
    rfl

end Json

/-! ### Decoding undoes encoding -/

theorem Var.ofJson?_toJson {v : Var} (hv : v.Fits) : Var.ofJson? v.toJson = some v := by
  obtain ⟨name, _ | n⟩ := v
  · rfl
  · have hversion : Var.version? (.int n) = some (some n) := by
      have hn := Json.intBetween?_int (Int.natCast_nonneg n) hv
      simp_all [Json.int, Var.version?]
    simp [Var.toJson, Var.ofJson?, Json.fields?, Json.field?, Json.string?, hversion]

theorem Literal.ofJson?_toJson (l : Literal) : Literal.ofJson? l.toJson = some l := by
  cases l with
  | int n =>
    have hn := Json.intBetween?_int (Int64.minValue_le_toInt n) (Int64.toInt_le n)
    simp only [Literal.toJson, Literal.ofJson?, Json.choice?, Option.bind_eq_bind, Option.bind_some,
      ↓reduceIte, hn, Int64.ofInt_toInt]
    rfl
  | bool b => rfl
  | str s => rfl
  | nil => rfl

theorem Operand.ofJson?_toJson {o : Operand} (ho : ∀ v ∈ o.uses, v.Fits) :
    Operand.ofJson? o.toJson = some o := by
  cases o with
  | var v =>
    simp [Operand.toJson, Operand.ofJson?, Json.choice?, Var.ofJson?_toJson (ho v (by simp [uses]))]
  | lit l => simp [Operand.toJson, Operand.ofJson?, Json.choice?, Literal.ofJson?_toJson l]

theorem Expr.ofJson?_toJson {e : Expr} (he : ∀ v ∈ e.uses, v.Fits) :
    Expr.ofJson? e.toJson = some e := by
  cases e with
  | var v =>
    have hv := Var.ofJson?_toJson (he v (by simp [uses]))
    simp [Expr.toJson, Expr.ofJson?, Json.choice?, hv]
  | lit l => simp [Expr.toJson, Expr.ofJson?, Json.choice?, Literal.ofJson?_toJson l]
  | binary op left right =>
    have hleft := Operand.ofJson?_toJson fun v hv => he v (List.mem_append_left _ hv)
    have hright := Operand.ofJson?_toJson fun v hv => he v (List.mem_append_right _ hv)
    simp [Expr.toJson, Expr.ofJson?, Json.choice?, Json.fields?, Json.field?, Json.string?, hleft,
      hright]
  | unary op operand =>
    have hoperand := Operand.ofJson?_toJson he
    simp [Expr.toJson, Expr.ofJson?, Json.choice?, Json.fields?, Json.field?,
      Json.string?, hoperand]
  | call function args =>
    have hargs := Json.listOf?_map fun o ho => Operand.ofJson?_toJson fun v hv =>
      he v (List.mem_flatMap.mpr ⟨o, ho, hv⟩)
    simp [Expr.toJson, Expr.ofJson?, Json.choice?, Json.fields?, Json.field?, Json.string?, hargs]

theorem Branch.ofJson?_members {b : Branch} (hb : b.cond.Fits) :
    Branch.ofJson? (.obj b.members) = some b := by
  have hcond := Var.ofJson?_toJson hb
  simp [Branch.members, Branch.ofJson?, Json.fields?, Json.field?, Json.string?, hcond]

theorem Statement.ofJson?_toJson {s : Statement} (hs : ∀ v ∈ s.defs ++ s.uses, v.Fits)
    (form : KindForm) : Statement.ofJson? form s.toJson = some s := by
  cases s with
  | label name =>
    simp [Statement.toJson, Statement.ofJson?, Json.field?, Statement.kind?, Statement.ofBody?,
      Json.fields?, Json.string?]
  | goto target =>
    simp [Statement.toJson, Statement.ofJson?, Json.field?, Statement.kind?, Statement.ofBody?,
      Json.fields?, Json.string?]
  | branch b =>
    have hb := Branch.ofJson?_members (hs b.cond (by simp [defs, uses]))
    rw [Branch.members] at hb
    simp [Statement.toJson, Statement.ofJson?, Branch.members, Json.field?, Statement.kind?,
      Statement.ofBody?, hb]
  | assign lhs byRef rhs =>
    have hlhs := Var.ofJson?_toJson (hs lhs (by simp [defs]))
    have hrhs := Expr.ofJson?_toJson fun v hv => hs v (List.mem_append_right _ hv)
    simp [Statement.toJson, Statement.ofJson?, Json.field?, Statement.kind?, Statement.ofBody?,
      Json.fields?, Json.bool?, hlhs, hrhs]
  | eval e =>
    have he := Expr.ofJson?_toJson fun v hv => hs v (List.mem_append_right _ hv)
    simp [Statement.toJson, Statement.ofJson?, Json.field?, Statement.kind?, Statement.ofBody?,
      Json.fields?, he]
  | ret value =>
    have hvalue := Operand.ofJson?_toJson fun v hv => hs v (List.mem_append_right _ hv)
    simp [Statement.toJson, Statement.ofJson?, Json.field?, Statement.kind?, Statement.ofBody?,
      Json.fields?, hvalue]

theorem Procedure.ofJson?_toJson {p : Procedure} (hp : p.VersionsFit) (form : KindForm) :
    Procedure.ofJson? form p.toJson = some p := by
  have hstatements := Json.listOf?_map fun s hs => Statement.ofJson?_toJson (hp s hs) form
  simp [Procedure.toJson, Procedure.ofJson?, Json.fields?, Json.field?, Json.string?, hstatements]

/-- No list of procedures is a procedure. -/
theorem Procedure.ofJson?_list (ps : List Procedure) (form : KindForm) :
    Procedure.ofJson? form (.arr (ps.map Procedure.toJson)) = none := by
  match ps with
  | [] => rfl
  | [p] => rfl
  | [p, q] => rfl
  | p :: q :: r :: ps => simp [Procedure.ofJson?, Json.fields?]

/-! ### What is written can be held by a text -/

namespace Json

/-- **A value that a text can hold**, with at most `n` arrays and objects around each part of it. -/
def Within (n : Nat) (j : Json) : Prop := j.Fits ∧ j.depth ≤ n

variable {n : Nat}

theorem within_str (s : String) : Within n (.str s) := ⟨trivial, Nat.zero_le n⟩

theorem within_bool (b : Bool) : Within n (.bool b) := ⟨trivial, Nat.zero_le n⟩

theorem within_int {i : Int} (hi : i.natAbs < Numeral.wordLimit) : Within n (.int i) :=
  ⟨hi, Nat.zero_le n⟩

theorem within_arr {items : List Json} (h : ∀ v ∈ items, Within n v) :
    Within (n + 1) (.arr items) := by
  suffices hall : ItemsFit items ∧ depthOfItems items ≤ n from ⟨hall.1, Nat.succ_le_succ hall.2⟩
  induction items with
  | nil => exact ⟨trivial, Nat.zero_le n⟩
  | cons v vs ih =>
    obtain ⟨hv, hvs⟩ := List.forall_mem_cons.mp h
    obtain ⟨hfit, hdepth⟩ := ih hvs
    exact ⟨⟨hv.1, hfit⟩, Nat.max_le.mpr ⟨hv.2, hdepth⟩⟩

theorem within_obj {members : List (String × Json)} (h : ∀ m ∈ members, Within n m.2) :
    Within (n + 1) (.obj members) := by
  suffices hall : MembersFit members ∧ depthOfMembers members ≤ n from
    ⟨hall.1, Nat.succ_le_succ hall.2⟩
  induction members with
  | nil => exact ⟨trivial, Nat.zero_le n⟩
  | cons m ms ih =>
    obtain ⟨hm, hms⟩ := List.forall_mem_cons.mp h
    obtain ⟨hfit, hdepth⟩ := ih hms
    exact ⟨⟨hm.1, hfit⟩, Nat.max_le.mpr ⟨hm.2, hdepth⟩⟩

end Json

section Within
variable (n : Nat)

open Json

theorem Var.within {v : Var} (hv : v.Fits) : v.toJson.Within (n + 1) := by
  obtain ⟨name, _ | version⟩ := v
  · exact within_obj (by simp [within_str])
  · have hversion : (version : Int).natAbs < Numeral.wordLimit := by
      simp only [Var.Fits, Option.getD_some, Var.versionLimit] at hv
      simp only [Int.natAbs_natCast, Numeral.wordLimit]
      omega
    exact within_obj (by simp [within_str, within_int hversion])

theorem Literal.within (l : Literal) : l.toJson.Within (n + 1) := by
  cases l with
  | int i =>
    have hi : i.toInt.natAbs < Numeral.wordLimit := by
      have hlow := i.le_toInt
      have hhigh := i.toInt_lt
      simp only [Numeral.wordLimit]
      omega
    exact within_obj (by simp [within_int hi])
  | bool b => exact within_obj (by simp [within_bool])
  | str s => exact within_obj (by simp [within_str])
  | nil => exact within_str _

theorem Operand.within {o : Operand} (ho : ∀ v ∈ o.uses, v.Fits) : o.toJson.Within (n + 2) := by
  cases o with
  | var v => exact within_obj (by simp [Var.within n (ho v (by simp [uses]))])
  | lit l => exact within_obj (by simp [Literal.within n l])

theorem Expr.within {e : Expr} (he : ∀ v ∈ e.uses, v.Fits) : e.toJson.Within (n + 5) := by
  cases e with
  | var v => exact within_obj (by simp [Var.within (n + 3) (he v (by simp [uses]))])
  | lit l => exact within_obj (by simp [Literal.within (n + 3) l])
  | binary op left right =>
    have hleft := Operand.within (n + 1) fun v hv => he v (List.mem_append_left _ hv)
    have hright := Operand.within (n + 1) fun v hv => he v (List.mem_append_right _ hv)
    have hbody : Within (n + 4) (.obj
        [("op", .str op), ("left", left.toJson), ("right", right.toJson)]) :=
      within_obj (by simp [within_str, hleft, hright])
    exact within_obj (by simp [hbody])
  | unary op operand =>
    have hoperand := Operand.within (n + 1) he
    have hbody : Within (n + 4) (.obj [("op", .str op), ("operand", operand.toJson)]) :=
      within_obj (by simp [within_str, hoperand])
    exact within_obj (by simp [hbody])
  | call function args =>
    have hargs : Within (n + 3) (.arr (args.map Operand.toJson)) := within_arr fun j hj => by
      obtain ⟨o, ho, rfl⟩ := List.mem_map.mp hj
      exact Operand.within n fun v hv => he v (List.mem_flatMap.mpr ⟨o, ho, hv⟩)
    have hbody : Within (n + 4) (.obj
        [("name", .str function), ("args", .arr (args.map Operand.toJson))]) :=
      within_obj (by simp [within_str, hargs])
    exact within_obj (by simp [hbody])

theorem Statement.within {s : Statement} (hs : ∀ v ∈ s.defs ++ s.uses, v.Fits) :
    s.toJson.Within (n + 6) := by
  cases s with
  | label name => exact within_obj (by simp [within_str])
  | goto target => exact within_obj (by simp [within_str])
  | branch b =>
    have hcond := Var.within (n + 4) (hs b.cond (by simp [defs, uses]))
    exact within_obj (by simp [Branch.members, within_str, hcond])
  | assign lhs byRef rhs =>
    have hlhs := Var.within (n + 4) (hs lhs (by simp [defs]))
    have hrhs := Expr.within n fun v hv => hs v (List.mem_append_right _ hv)
    exact within_obj (by simp [within_str, within_bool, hlhs, hrhs])
  | eval e =>
    have he := Expr.within n fun v hv => hs v (List.mem_append_right _ hv)
    exact within_obj (by simp [within_str, he])
  | ret value =>
    have hvalue := Operand.within (n + 3) fun v hv => hs v (List.mem_append_right _ hv)
    exact within_obj (by simp [within_str, hvalue])

theorem Procedure.within {p : Procedure} (hp : p.VersionsFit) : p.toJson.Within (n + 8) := by
  have hstatements : Within (n + 7) (.arr (p.statements.map Statement.toJson)) :=
    within_arr fun j hj => by
      obtain ⟨s, hs, rfl⟩ := List.mem_map.mp hj
      exact Statement.within n (hp s hs)
  exact within_obj (by simp [within_str, hstatements])

end Within

/-! ### Texts -/

/-- **A procedure** is read back from its compact text. -/
theorem Procedure.read_write {p : Procedure} (hp : p.VersionsFit) :
    Procedure.read p.write = some p := by
  obtain ⟨hfits, hdepth⟩ := Procedure.within 0 hp
  have htext : Json.read (fun k => k ≠ "name" ∧ k ≠ "statements") p.write = some p.toJson := by
    refine Json.read_compact hfits (Nat.le_trans hdepth (by decide)) ?_
    rintro _ ⟨⟩
    simp
  rw [Procedure.read, htext]
  exact Procedure.ofJson?_toJson hp .byName

namespace CommandLine
namespace Programs

theorem within (n : Nat) {ps : Programs} (hps : ∀ p ∈ ps.toList, p.VersionsFit) :
    ps.toJson.Within (n + 9) := by
  cases ps with
  | one p => exact Procedure.within (n + 1) (hps p (by simp [toList]))
  | many ps =>
    refine Json.within_arr fun j hj => ?_
    obtain ⟨p, hp, rfl⟩ := List.mem_map.mp hj
    exact Procedure.within n (hps p hp)

/-- **A file** is read back from its pretty text, in the shape that it had. -/
theorem read_jsonText {ps : Programs} (hps : ∀ p ∈ ps.toList, p.VersionsFit) :
    Programs.read ps.jsonText = some ps := by
  obtain ⟨hfits, hdepth⟩ := within 0 hps
  have htext : Json.parse ps.jsonText = some ps.toJson :=
    Json.parse_pretty hfits (Nat.le_trans hdepth (by decide))
  rw [Programs.read, htext]
  cases ps with
  | one p =>
    have hp := Procedure.ofJson?_toJson (hps p (by simp [toList])) .byNameOrPlace
    simp [toJson, hp]
  | many ps =>
    have hlist : (Json.arr (ps.map Procedure.toJson)).listOf?
        (Procedure.ofJson? .byNameOrPlace) = some ps :=
      Json.listOf?_map fun p hp => Procedure.ofJson?_toJson (hps p hp) .byNameOrPlace
    simp [toJson, Procedure.ofJson?_list, hlist]

/-- **Reading JSON undoes writing it.**  A procedure is read back from its compact text, whatever
its strings, integers and versions are.  So is a file from its pretty text: a single procedure as a
single procedure, and a list of procedures, however short, as a list. -/
theorem read_written :
    (∀ p : Procedure, p.VersionsFit → Procedure.read p.write = some p) ∧
      ∀ ps : Programs, (∀ p ∈ ps.toList, p.VersionsFit) → Programs.read ps.jsonText = some ps :=
  ⟨fun _ => Procedure.read_write, fun _ => read_jsonText⟩

/-- Every form of statement, expression and literal, with the largest version, the smallest integer
and strings that need escapes. -/
def sampler : Procedure where
  name := "\"f\"\\"
  statements := [
    .label "L\n0",
    .assign (.versioned "x" 4294967295) true (.call "g\x01" []),
    .assign (.plain "𝔵") false
      (.binary "<<" (.lit (.int Int64.minValue)) (.var (.versioned "x" 0))),
    .eval (.unary "-" (.lit (.str "\t/\x7f"))),
    .eval (.lit (.bool false)),
    .branch ⟨.plain "", "L\n0", "é"⟩,
    .goto "L\n0",
    .ret (.lit .nil)]

theorem read_written_sampler : sampler.VersionsFit ∧ Procedure.read sampler.write = some sampler ∧
    Programs.read (one sampler).jsonText = some (one sampler) ∧
    Programs.read (many []).jsonText = some (many []) ∧
    Programs.read (many [sampler, sampler]).jsonText = some (many [sampler, sampler]) := by
  have hfits : sampler.VersionsFit := by decide
  refine ⟨hfits, read_written.1 _ hfits, read_written.2 _ ?_, read_written.2 _ ?_,
    read_written.2 _ ?_⟩
  · simpa [toList] using hfits
  · simp [toList]
  · simpa [toList] using hfits

end Programs
end CommandLine
end FlowGraph
