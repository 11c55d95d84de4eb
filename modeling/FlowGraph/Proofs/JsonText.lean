import FlowGraph.Json.Reader
import FlowGraph.Json.Value
import Mathlib.Data.List.Basic

/-! # Reading undoes writing

Every JSON value that a text can hold is read back from its text, whatever the layout: blanks may
stand between the parts of a text, but not within a string or a number.  Each part is read in front
of an arbitrary rest of the text, so that the parts can be put together; only a number asks
something of the rest, namely not to go on with it (`Parted`).

The bound on the recursion of the reader is no obstacle, because every second step takes a character
and the text is at least as long as what is written of the value.
-/
namespace FlowGraph
namespace Json

/-! ### Strings -/

theorem hexDigit?_hexDigit : ∀ d < 16, hexDigit? (hexDigit d) = some d := by decide

/-- A control character is read back from its code unit. -/
theorem codeUnit?_of_lt {n : Nat} (h : n < 32) :
    codeUnit? '0' '0' (hexDigit (n / 16)) (hexDigit (n % 16)) = some n := by
  have hzero : hexDigit? '0' = some 0 := by decide
  have hhigh := hexDigit?_hexDigit (n / 16) (by omega)
  have hlow := hexDigit?_hexDigit (n % 16) (by omega)
  rw [codeUnit?, hzero, hhigh, hlow]
  show some _ = some n
  congr 1
  omega

theorem readUnits_short {x : Char} {u : Nat} (h : shortEscape? x = some u) (cs : List Char) :
    readUnits ('\\' :: x :: cs) = (readUnits cs).map fun p => (u :: p.1, p.2) := by
  have hx : x ≠ 'u' := by
    rintro rfl
    cases h
  rw [readUnits, h]
  · cases readUnits cs <;> rfl
  · intro _ _ _ _ _ hu
    exact absurd hu hx

theorem readUnits_code {a b c d : Char} {u : Nat} (h : codeUnit? a b c d = some u)
    (cs : List Char) :
    readUnits ('\\' :: 'u' :: a :: b :: c :: d :: cs) =
      (readUnits cs).map fun p => (u :: p.1, p.2) := by
  rw [readUnits, h]
  cases readUnits cs <;> rfl

theorem readUnits_plain {c : Char} (hquote : c ≠ '"') (hslash : c ≠ '\\') (h : ¬ c.toNat < 0x20)
    (cs : List Char) : readUnits (c :: cs) = (readUnits cs).map fun p => (c.toNat :: p.1, p.2) := by
  rw [readUnits, if_neg h]
  · cases readUnits cs <;> rfl
  · exact hquote
  · intro _ _ _ _ _ hc
    exact absurd hc hslash
  · intro _ _ hc
    exact absurd hc hslash

/-- What stands for a character is read as the character, in front of the rest. -/
theorem readUnits_escape (c : Char) (cs : List Char) :
    readUnits (escape c ++ cs) = (readUnits cs).map fun p => (c.toNat :: p.1, p.2) := by
  unfold escape
  split_ifs with hquote hslash hb hf hn hr ht hcontrol
  · subst hquote; exact readUnits_short rfl cs
  · subst hslash; exact readUnits_short rfl cs
  · subst hb; exact readUnits_short rfl cs
  · subst hf; exact readUnits_short rfl cs
  · subst hn; exact readUnits_short rfl cs
  · subst hr; exact readUnits_short rfl cs
  · subst ht; exact readUnits_short rfl cs
  · exact readUnits_code (codeUnit?_of_lt hcontrol) cs
  · exact readUnits_plain hquote hslash hcontrol cs

theorem readUnits_flatMap (s rest : List Char) :
    readUnits (s.flatMap escape ++ '"' :: rest) = some (s.map Char.toNat, rest) := by
  induction s with
  | nil => simp [readUnits]
  | cons c s ih => simp only [List.flatMap_cons, List.append_assoc, readUnits_escape, ih]; rfl

/-- No character is half of a surrogate pair. -/
theorem isHalf_toNat (c : Char) : isHighHalf c.toNat = false ∧ isLowHalf c.toNat = false := by
  have hvalid : c.toNat < 0xd800 ∨ 0xdfff < c.toNat ∧ c.toNat < 0x110000 := c.valid
  rw [isHighHalf, isLowHalf]
  simp only [Bool.and_eq_false_iff, decide_eq_false_iff_not]
  omega

theorem charsOfUnits_cons {u : Nat} (hu : isHighHalf u = false ∧ isLowHalf u = false)
    (us : List Nat) : charsOfUnits (u :: us) = (charsOfUnits us).map (Char.ofNat u :: ·) := by
  cases us <;> simp [charsOfUnits, hu]

theorem charsOfUnits_map (s : List Char) : charsOfUnits (s.map Char.toNat) = some s := by
  induction s with
  | nil => rfl
  | cons c s ih => rw [List.map_cons, charsOfUnits_cons (isHalf_toNat c), ih]; simp

/-- **A string** is read back from its literal. -/
theorem readString_quote (s : String) (rest : List Char) :
    ∃ body, quote s ++ rest = '"' :: body ∧ readString .keep body = some (s, rest) := by
  refine ⟨s.toList.flatMap escape ++ '"' :: rest, by simp [quote], ?_⟩
  simp [readString, readUnits_flatMap, charsOfUnits_map]

/-! ### Numbers -/

/-- **Where a number can end**: the text does not go on with a digit, a point or an exponent mark.
-/
def Parted (rest : List Char) : Prop :=
  ∀ c ∈ rest.head?, c.isDigit = false ∧ c ≠ '.' ∧ c ≠ 'e' ∧ c ≠ 'E'

/-- A digit is none of the characters that mean something else at the start of a value. -/
theorem ne_of_isDigit {c d : Char} (hc : c.isDigit = true) (hd : d.isDigit = false) : c ≠ d := by
  rintro rfl
  rw [hc] at hd
  cases hd

theorem exists_toDigits (n : Nat) : ∃ d ds, Nat.toDigits 10 n = d :: ds ∧ d.isDigit = true := by
  obtain ⟨d, ds, h⟩ := List.exists_cons_of_ne_nil (Nat.toDigits_ne_nil (n := n) (b := 10))
  refine ⟨d, ds, h, Nat.isDigit_of_mem_toDigits (b := 10) (n := n) (by decide) (by decide) ?_⟩
  rw [h]
  exact List.mem_cons_self ..

theorem readDigits_toDigits (n : Nat) {rest : List Char}
    (hrest : ∀ c ∈ rest.head?, c.isDigit = false) :
    readDigits (Nat.toDigits 10 n ++ rest) = some (Nat.toDigits 10 n, rest) := by
  have hdigits : ∀ c ∈ Nat.toDigits 10 n, c.isDigit = true := fun c =>
    Nat.isDigit_of_mem_toDigits (by decide) (by decide)
  have hstop : rest.takeWhile Char.isDigit = [] ∧ rest.dropWhile Char.isDigit = rest := by
    cases rest with
    | nil => exact ⟨rfl, rfl⟩
    | cons c cs =>
      have hc := hrest c rfl
      exact ⟨List.takeWhile_cons_of_neg (by simp [hc]), List.dropWhile_cons_of_neg (by simp [hc])⟩
  obtain ⟨d, ds, h, -⟩ := exists_toDigits n
  rw [readDigits, List.takeWhile_append_of_pos hdigits, List.dropWhile_append_of_pos hdigits,
    hstop.1, hstop.2, List.append_nil, h]

/-- No number but zero starts with a zero. -/
theorem head?_toDigits {n : Nat} (hn : 0 < n) : (Nat.toDigits 10 n).head? ≠ some '0' := by
  induction n using Nat.strongRecOn with
  | ind n ih =>
    by_cases hlt : n < 10
    · rw [Nat.toDigits_of_lt_base hlt, List.head?_cons, ne_eq, Option.some.injEq,
        Nat.digitChar_eq_zero]
      omega
    · have hrec := ih (n / 10) (by omega) (by omega)
      obtain ⟨d, ds, h, -⟩ := exists_toDigits (n / 10)
      rw [Nat.toDigits_of_base_le (by decide) (by omega), h]
      rwa [h] at hrec

theorem appendDigits_eq {ds : List Char} {n : Nat}
    (h : Nat.ofDigitChars 10 ds n < Numeral.wordLimit) :
    appendDigits n ds = (Nat.ofDigitChars 10 ds n, 0) := by
  induction ds generalizing n with
  | nil => rfl
  | cons d ds ih =>
    rw [Nat.ofDigitChars_cons] at h ⊢
    have hle : 10 * n + (d.toNat - '0'.toNat) ≤
        Nat.ofDigitChars 10 ds (10 * n + (d.toNat - '0'.toNat)) := by
      rw [Nat.ofDigitChars_eq_ofDigitChars_zero]
      exact Nat.le_trans (Nat.le_mul_of_pos_left _ (Nat.pow_pos (Nat.zero_lt_succ 9)))
        (Nat.le_add_right ..)
    rw [appendDigits]
    exact (if_pos (Nat.lt_of_le_of_lt hle h)).trans (ih h)

theorem appendDigits_toDigits {n : Nat} (h : n < Numeral.wordLimit) :
    appendDigits 0 (Nat.toDigits 10 n) = (n, 0) := by
  have hvalue : Nat.ofDigitChars 10 (Nat.toDigits 10 n) 0 = n := Nat.ofDigitChars_ten_toDigits
  rw [appendDigits_eq (hvalue.symm ▸ h), hvalue]

theorem natOfDigits_toDigits (n : Nat) : natOfDigits (Nat.toDigits 10 n) = n := by
  rw [natOfDigits, ← Nat.ofDigitChars_eq_foldl, Nat.ofDigitChars_ten_toDigits]

theorem readFraction_of_parted {rest : List Char} (hrest : ∀ c ∈ rest.head?, c ≠ '.') :
    readFraction rest = some (none, rest) := by
  cases rest with
  | nil => rfl
  | cons c cs =>
    rw [readFraction]
    intro _ hc
    exact absurd (List.cons.inj hc).1 (hrest c rfl)

theorem readExponent_of_parted {rest : List Char} (hrest : Parted rest) :
    readExponent rest = some (none, rest) := by
  cases rest with
  | nil => rfl
  | cons c cs =>
    obtain ⟨-, -, he, hE⟩ := hrest c rfl
    simp [readExponent, he, hE]

/-- The power of ten is read back from its exponent. -/
theorem readExponent_power (power : Int) {rest : List Char} (hrest : Parted rest) :
    readExponent
        ('e' :: ((if power < 0 then ['-'] else []) ++ Nat.toDigits 10 power.natAbs ++ rest)) =
      some (some power, rest) := by
  have hread := readDigits_toDigits power.natAbs fun c hc => (hrest c hc).1
  split_ifs with hneg
  · have hvalue : -(power.natAbs : Int) = power := by omega
    simp only [List.cons_append, List.nil_append, readExponent, hread]
    rw [if_pos (by decide), Option.map_some, natOfDigits_toDigits, hvalue]
  · -- Without a sign the exponent starts with a digit.
    obtain ⟨d, ds, hdigits, hd⟩ := exists_toDigits power.natAbs
    have hminus : d ≠ '-' := ne_of_isDigit hd (by decide)
    have hplus : d ≠ '+' := ne_of_isDigit hd (by decide)
    have hvalue := natOfDigits_toDigits power.natAbs
    rw [hdigits] at hread hvalue ⊢
    simp only [List.cons_append, List.nil_append, readExponent] at hread ⊢
    rw [if_pos (by decide)]
    split
    · simp_all
    · simp_all
    · rw [hread, Option.map_some, hvalue]
      congr 3
      omega

/-- The digits of a number, in front of an exponent or of the rest of the text. -/
theorem readMagnitude_toDigits (negative : Bool) (n : Nat) {tail rest : List Char}
    {exponent : Option Int} (htail : ∀ c ∈ tail.head?, c.isDigit = false ∧ c ≠ '.')
    (hexponent : readExponent tail = some (exponent, rest)) :
    readMagnitude negative (Nat.toDigits 10 n ++ tail) =
      some (numeralOf negative (Nat.toDigits 10 n) none exponent, rest) := by
  have hzero : ¬ (1 < (Nat.toDigits 10 n).length ∧ (Nat.toDigits 10 n).head? = some '0') := by
    rintro ⟨hlong, hhead⟩
    refine head?_toDigits (Nat.pos_of_ne_zero ?_) hhead
    rintro rfl
    exact absurd hlong (by decide)
  rw [readMagnitude, readDigits_toDigits n fun c hc => (htail c hc).1]
  simp only [Option.bind_eq_bind, Option.bind_some, if_neg hzero,
    readFraction_of_parted fun c hc => (htail c hc).2, hexponent]
  rfl

/-- The sign of a number in front of its digits. -/
theorem readNumeral_sign (negative : Bool) (n : Nat) (rest : List Char) :
    readNumeral ((if negative then ['-'] else []) ++ Nat.toDigits 10 n ++ rest) =
      readMagnitude negative (Nat.toDigits 10 n ++ rest) := by
  cases negative with
  | true => rfl
  | false =>
    obtain ⟨d, ds, hdigits, hd⟩ := exists_toDigits n
    simp only [Bool.false_eq_true, if_false, List.nil_append]
    rw [hdigits, List.cons_append, readNumeral]
    intro _ h
    exact absurd (List.cons.inj h).1 (ne_of_isDigit hd (by decide))

end Json

/-- **A number that a text can hold**: its digits fit into a word, and its value into a double. -/
def Numeral.Fits : Numeral → Prop
  | .whole _ n => n < Numeral.wordLimit
  | .scaled negative n power =>
    n < Numeral.wordLimit ∧ (Numeral.scaled negative n power).isOutOfRange = false

theorem Numeral.Fits.inRange {n : Numeral} (h : n.Fits) : n.isOutOfRange = false := by
  cases n with
  | whole => rfl
  | scaled => exact h.2

namespace Json

/-- **A number** is read back from its digits. -/
theorem readNumeral_numeralChars {n : Numeral} (hn : n.Fits) {rest : List Char}
    (hrest : Parted rest) : readNumeral (numeralChars n ++ rest) = some (n, rest) := by
  cases n with
  | whole negative n =>
    rw [numeralChars, readNumeral_sign, readMagnitude_toDigits negative n
      (fun c hc => ⟨(hrest c hc).1, (hrest c hc).2.1⟩) (readExponent_of_parted hrest)]
    simp [numeralOf, appendDigits_toDigits hn]
  | scaled negative n power =>
    have htext : numeralChars (.scaled negative n power) ++ rest =
        (if negative then ['-'] else []) ++ Nat.toDigits 10 n ++
          'e' :: ((if power < 0 then ['-'] else []) ++ Nat.toDigits 10 power.natAbs ++ rest) := by
      simp [numeralChars]
    rw [htext, readNumeral_sign, readMagnitude_toDigits negative n (by simp)
      (readExponent_power power hrest)]
    simp [numeralOf, appendDigits_toDigits hn.1, appendDigits]

/-! ### Values -/

mutual
/-- **A value that a text can hold**: all its numbers are such. -/
def Fits : Json → Prop
  | .num n => n.Fits
  | .arr items => ItemsFit items
  | .obj members => MembersFit members
  | _ => True
termination_by structural j => j
/-- All items fit. -/
def ItemsFit : List Json → Prop
  | [] => True
  | v :: vs => v.Fits ∧ ItemsFit vs
termination_by structural vs => vs
/-- All members fit. -/
def MembersFit : List (String × Json) → Prop
  | [] => True
  | (_, v) :: ms => v.Fits ∧ MembersFit ms
termination_by structural ms => ms
end

/-- **A layout puts nothing but blanks between the parts of a text.** -/
structure Layout.Blank (l : Layout) : Prop where
  lead : ∀ level, ∀ c ∈ l.lead level, isBlank c = true
  colon : ∃ blanks, l.colon = ':' :: blanks ∧ ∀ c ∈ blanks, isBlank c = true

theorem Layout.blank_compact : Layout.compact.Blank where
  lead _ _ h := absurd h List.not_mem_nil
  colon := ⟨[], rfl, fun _ h => absurd h List.not_mem_nil⟩

theorem Layout.blank_pretty : Layout.pretty.Blank where
  lead level c hc := by
    rcases List.mem_cons.mp hc with rfl | hc
    · rfl
    · rw [List.eq_of_mem_replicate hc]
      rfl
  colon := ⟨[' '], rfl, by simp [isBlank]⟩

theorem skipBlanks_append {blanks : List Char} (h : ∀ c ∈ blanks, isBlank c = true)
    (cs : List Char) : skipBlanks (blanks ++ cs) = skipBlanks cs :=
  List.dropWhile_append_of_pos h

theorem skipBlanks_cons {c : Char} (h : isBlank c = false) (cs : List Char) :
    skipBlanks (c :: cs) = c :: cs :=
  List.dropWhile_cons_of_neg (by simp [h])

/-- Items without what stands around them. -/
def listed (l : Layout) (level : Nat) : List Json → List Char
  | [] => []
  | v :: vs => chars l level v ++ itemChars l level vs

/-- Members without what stands around them. -/
def enrolled (l : Layout) (level : Nat) : List (String × Json) → List Char
  | [] => []
  | (k, v) :: ms => quote k ++ l.colon ++ chars l level v ++ memberChars l level ms

variable {l : Layout} {level fuel : Nat} {rest : List Char}

theorem itemChars_cons (v : Json) (vs : List Json) :
    itemChars l level (v :: vs) = ',' :: (l.lead level ++ listed l level (v :: vs)) := by
  simp [itemChars, listed]

theorem memberChars_cons (m : String × Json) (ms : List (String × Json)) :
    memberChars l level (m :: ms) = ',' :: (l.lead level ++ enrolled l level (m :: ms)) := by
  simp [memberChars, enrolled]

theorem exists_numeralChars (n : Numeral) :
    ∃ c cs, numeralChars n = c :: cs ∧ (c = '-' ∨ c.isDigit = true) := by
  have hsign : ∀ (negative : Bool) (n : Nat) (tail : List Char), ∃ c cs,
      (if negative then ['-'] else []) ++ Nat.toDigits 10 n ++ tail = c :: cs ∧
        (c = '-' ∨ c.isDigit = true) := by
    rintro (_ | _) n tail
    · obtain ⟨d, ds, h, hd⟩ := exists_toDigits n
      exact ⟨d, ds ++ tail, by simp [h], .inr hd⟩
    · exact ⟨'-', Nat.toDigits 10 n ++ tail, by simp, .inl rfl⟩
  cases n with
  | whole negative n => simpa [numeralChars] using hsign negative n []
  | scaled negative n power =>
    simpa only [numeralChars, List.append_assoc] using hsign negative n
      (['e'] ++ ((if power < 0 then ['-'] else []) ++ Nat.toDigits 10 power.natAbs))

/-- A value starts with a character that is no blank and closes nothing, and only an object starts
with a brace. -/
theorem exists_chars (l : Layout) (level : Nat) (j : Json) :
    ∃ c cs, chars l level j = c :: cs ∧ isBlank c = false ∧ c ≠ ']' ∧
      (c = '\x7b' → ∃ ms, j = .obj ms) := by
  cases j with
  | num n =>
    obtain ⟨c, cs, h, hc⟩ := exists_numeralChars n
    refine ⟨c, cs, by rw [chars, h], ?_⟩
    rcases hc with rfl | hc
    · exact ⟨by decide, by decide, fun h => absurd h (by decide)⟩
    · have hne := fun d hd => ne_of_isDigit (d := d) hc hd
      exact ⟨by simp [isBlank, hne], hne ']' (by decide), fun h => absurd h (hne _ (by decide))⟩
  | null => exact ⟨'n', _, rfl, by decide, by decide, fun h => absurd h (by decide)⟩
  | bool b =>
    cases b <;> exact ⟨_, _, rfl, by decide, by decide, fun h => absurd h (by decide)⟩
  | str s => exact ⟨'"', _, rfl, by decide, by decide, fun h => absurd h (by decide)⟩
  | arr items =>
    cases items <;> exact ⟨'[', _, rfl, by decide, by decide, fun h => absurd h (by decide)⟩
  | obj members =>
    rcases members with _ | ⟨⟨k, v⟩, ms⟩ <;>
      exact ⟨'\x7b', _, rfl, by decide, by decide, fun _ => ⟨_, rfl⟩⟩

theorem skipBlanks_chars (j : Json) (cs : List Char) :
    skipBlanks (chars l level j ++ cs) = chars l level j ++ cs := by
  obtain ⟨c, tail, h, hblank, -⟩ := exists_chars l level j
  rw [h, List.cons_append]
  exact skipBlanks_cons hblank _

theorem skipBlanks_listed (v : Json) (vs : List Json) (cs : List Char) :
    skipBlanks (listed l level (v :: vs) ++ cs) = listed l level (v :: vs) ++ cs := by
  rw [listed, List.append_assoc, skipBlanks_chars]

theorem skipBlanks_enrolled (m : String × Json) (ms : List (String × Json)) (cs : List Char) :
    skipBlanks (enrolled l level (m :: ms) ++ cs) = enrolled l level (m :: ms) ++ cs :=
  skipBlanks_cons (c := '"') (by decide) _

/-- What follows the last part of an array or object. -/
theorem skipBlanks_close (hl : l.Blank) (outer : Nat) {c : Char} (hc : isBlank c = false)
    (rest : List Char) : skipBlanks (l.lead outer ++ c :: rest) = c :: rest :=
  (skipBlanks_append (hl.lead outer) _).trans (skipBlanks_cons hc rest)

/-! ### Steps of the reader -/

theorem readValue_quote (s : String) :
    readValue .keep (fuel + 1) (quote s ++ rest) = some (.str s, rest) := by
  obtain ⟨body, htext, hread⟩ := readString_quote s rest
  rw [htext, readValue, hread]
  rfl

theorem readValue_numeral {n : Numeral} (hn : n.Fits) (hrest : Parted rest) :
    readValue .keep (fuel + 1) (numeralChars n ++ rest) = some (.num n, rest) := by
  have hread := readNumeral_numeralChars hn hrest
  obtain ⟨c, cs, h, hc⟩ := exists_numeralChars n
  have hne : ∀ d, d.isDigit = false → d ≠ '-' → c ≠ d := by
    rintro d hd hminus
    rcases hc with rfl | hc
    · exact hminus.symm
    · exact ne_of_isDigit hc hd
  rw [h, List.cons_append] at hread ⊢
  rw [readValue, hread]
  · simp [hn.inRange]
  all_goals
    intros
    simp_all

theorem readValue_arr (hl : l.Blank) {v : Json} {vs : List Json}
    (h : readItems .keep fuel (listed l (level + 1) (v :: vs) ++ (l.lead level ++ ']' :: rest)) =
      some (v :: vs, rest)) :
    readValue .keep (fuel + 1) (chars l level (.arr (v :: vs)) ++ rest) =
      some (.arr (v :: vs), rest) := by
  have htext : chars l level (.arr (v :: vs)) ++ rest = '[' :: (l.lead (level + 1) ++
      (listed l (level + 1) (v :: vs) ++ (l.lead level ++ ']' :: rest))) := by simp [chars, listed]
  obtain ⟨c, cs, hhead, hblank, hclose, -⟩ := exists_chars l (level + 1) v
  rw [listed, hhead, List.cons_append, List.cons_append] at h htext
  rw [htext, readValue, skipBlanks_append (hl.lead _), skipBlanks_cons hblank]
  split
  · exact absurd (List.cons.inj ‹_›).1 hclose
  · rw [h]
    rfl

theorem readValue_obj (hl : l.Blank) {k : String} {v : Json} {ms : List (String × Json)}
    (h : readMembers .keep fuel (enrolled l (level + 1) ((k, v) :: ms) ++
      (l.lead level ++ '\x7d' :: rest)) = some ((k, v) :: ms, rest)) :
    readValue .keep (fuel + 1) (chars l level (.obj ((k, v) :: ms)) ++ rest) =
      some (.obj ((k, v) :: ms), rest) := by
  have htext : chars l level (.obj ((k, v) :: ms)) ++ rest = '\x7b' :: (l.lead (level + 1) ++
      (enrolled l (level + 1) ((k, v) :: ms) ++ (l.lead level ++ '\x7d' :: rest))) := by
    simp [chars, enrolled]
  rw [htext, readValue, skipBlanks_append (hl.lead _), skipBlanks_enrolled]
  split
  · exact absurd (List.cons.inj ‹_›).1 (by decide)
  · rw [h]
    rfl

theorem readItems_last {cs tail : List Char} {v : Json}
    (hv : readValue .keep fuel (skipBlanks cs) = some (v, tail))
    (hclose : skipBlanks tail = ']' :: rest) :
    readItems .keep (fuel + 1) cs = some ([v], rest) := by
  simp [readItems, hv, hclose]

theorem readItems_next {cs tail tail' : List Char} {v : Json} {vs : List Json}
    (hv : readValue .keep fuel (skipBlanks cs) = some (v, tail))
    (hcomma : skipBlanks tail = ',' :: tail')
    (hvs : readItems .keep fuel tail' = some (vs, rest)) :
    readItems .keep (fuel + 1) cs = some (v :: vs, rest) := by
  simp [readItems, hv, hcomma, hvs]

theorem readMembers_last {cs body tail : List Char} {k : String} {v : Json}
    (hk : readKey .keep cs = some (k, body))
    (hv : readValue .keep fuel (skipBlanks body) = some (v, tail))
    (hclose : skipBlanks tail = '\x7d' :: rest) :
    readMembers .keep (fuel + 1) cs = some ([(k, v)], rest) := by
  simp [readMembers, hk, hv, hclose]

theorem readMembers_next {cs body tail tail' : List Char} {k : String} {v : Json}
    {ms : List (String × Json)} (hk : readKey .keep cs = some (k, body))
    (hv : readValue .keep fuel (skipBlanks body) = some (v, tail))
    (hcomma : skipBlanks tail = ',' :: tail')
    (hms : readMembers .keep fuel tail' = some (ms, rest)) :
    readMembers .keep (fuel + 1) cs = some ((k, v) :: ms, rest) := by
  simp [readMembers, hk, hv, hcomma, hms]

/-- A key is read up to the colon after it. -/
theorem readKey_quote (hl : l.Blank) {k : String} {cs tail : List Char}
    (h : skipBlanks cs = quote k ++ l.colon ++ tail) :
    ∃ body, readKey .keep cs = some (k, body) ∧ skipBlanks body = skipBlanks tail := by
  obtain ⟨blanks, hcolon, hblanks⟩ := hl.colon
  obtain ⟨body, htext, hread⟩ := readString_quote k (l.colon ++ tail)
  refine ⟨blanks ++ tail, ?_, skipBlanks_append hblanks tail⟩
  rw [List.append_assoc] at h
  have hskip : skipBlanks (l.colon ++ tail) = ':' :: (blanks ++ tail) := by
    rw [hcolon, List.cons_append]
    exact skipBlanks_cons (by decide) _
  simp [readKey, h, htext, hread, hskip]

/-! ### Whole values -/

theorem parted_append {blanks cs : List Char} (hblanks : ∀ c ∈ blanks, isBlank c = true)
    (hcs : Parted cs) : Parted (blanks ++ cs) := by
  cases blanks with
  | nil => exact hcs
  | cons b bs =>
    rintro c ⟨⟩
    have hb : ((b = ' ' ∨ b = '\t') ∨ b = '\n') ∨ b = '\r' := by
      simpa [isBlank] using hblanks b (List.mem_cons_self ..)
    rcases hb with ((rfl | rfl) | rfl) | rfl <;> decide

theorem parted_nil : Parted [] := by
  rintro _ ⟨⟩

theorem parted_cons {c : Char} (hc : c.isDigit = false ∧ c ≠ '.' ∧ c ≠ 'e' ∧ c ≠ 'E')
    (cs : List Char) : Parted (c :: cs) := by
  rintro _ ⟨⟩
  exact hc

mutual
/-- **A value** is read back from its text. -/
theorem readValue_chars (hl : l.Blank) : ∀ (j : Json) {level fuel : Nat} {rest : List Char},
    j.Fits → 2 * (chars l level j).length ≤ fuel → Parted rest →
      readValue .keep fuel (chars l level j ++ rest) = some (j, rest)
  | j, level, 0, _, _, hfuel, _ => by
    obtain ⟨c, cs, h, -⟩ := exists_chars l level j
    rw [h, List.length_cons] at hfuel
    omega
  | .null, _, fuel + 1, _, _, _, _ => by simp [chars, readValue]
  | .bool true, _, fuel + 1, _, _, _, _ => by simp [chars, readValue]
  | .bool false, _, fuel + 1, _, _, _, _ => by simp [chars, readValue]
  | .num n, _, fuel + 1, _, hfits, _, hrest => readValue_numeral hfits hrest
  | .str s, _, fuel + 1, _, _, _, _ => readValue_quote s
  | .arr [], _, fuel + 1, rest, _, _, _ => by
    have hskip : skipBlanks (']' :: rest) = ']' :: rest := skipBlanks_cons (by decide) rest
    simp [chars, readValue, hskip]
  | .arr (v :: vs), level, fuel + 1, rest, hfits, hfuel, _ => by
    have hlen : 2 * (listed l (level + 1) (v :: vs)).length + 1 ≤ fuel := by
      simp only [chars, listed, List.length_append, List.length_cons, List.length_nil] at hfuel ⊢
      omega
    exact readValue_arr hl (readItems_listed hl (v :: vs) (by simp) hfits hlen
      (skipBlanks_listed v vs _))
  | .obj [], _, fuel + 1, rest, _, _, _ => by
    have hskip : skipBlanks ('\x7d' :: rest) = '\x7d' :: rest := skipBlanks_cons (by decide) rest
    simp [chars, readValue, hskip]
  | .obj ((k, v) :: ms), level, fuel + 1, rest, hfits, hfuel, _ => by
    have hlen : 2 * (enrolled l (level + 1) ((k, v) :: ms)).length + 1 ≤ fuel := by
      simp only [chars, enrolled, List.length_append, List.length_cons, List.length_nil] at hfuel ⊢
      omega
    exact readValue_obj hl (readMembers_enrolled hl ((k, v) :: ms) (by simp) hfits hlen
      (skipBlanks_enrolled (k, v) ms _))
termination_by structural j => j
/-- Items are read back up to the bracket that closes them. -/
theorem readItems_listed (hl : l.Blank) : ∀ (vs : List Json) {level outer fuel : Nat}
    {cs rest : List Char}, vs ≠ [] → ItemsFit vs → 2 * (listed l level vs).length + 1 ≤ fuel →
      skipBlanks cs = listed l level vs ++ (l.lead outer ++ ']' :: rest) →
      readItems .keep fuel cs = some (vs, rest)
  | [], _, _, _, _, _, hne, _, _, _ => absurd rfl hne
  | [v], level, outer, fuel + 1, cs, rest, _, hfits, hfuel, hcs => by
    simp only [listed, itemChars, List.append_nil] at hcs hfuel
    have hv : readValue .keep fuel (chars l level v ++ (l.lead outer ++ ']' :: rest)) =
        some (v, l.lead outer ++ ']' :: rest) :=
      readValue_chars hl v hfits.1 (by omega)
        (parted_append (hl.lead outer) (parted_cons (by decide) rest))
    exact readItems_last (hcs ▸ hv) (skipBlanks_close hl outer (by decide) rest)
  | v :: w :: ws, level, outer, fuel + 1, cs, rest, _, hfits, hfuel, hcs => by
    let tail := l.lead level ++ (listed l level (w :: ws) ++ (l.lead outer ++ ']' :: rest))
    rw [listed, itemChars_cons] at hcs hfuel
    simp only [List.length_append, List.length_cons, List.append_assoc, List.cons_append]
      at hcs hfuel
    have hv : readValue .keep fuel (chars l level v ++ ',' :: tail) = some (v, ',' :: tail) :=
      readValue_chars hl v hfits.1 (by omega) (parted_cons (by decide) tail)
    have hlen : 2 * (listed l level (w :: ws)).length + 1 ≤ fuel := by omega
    have hws : readItems .keep fuel tail = some (w :: ws, rest) :=
      readItems_listed hl (w :: ws) (by simp) hfits.2 hlen
        ((skipBlanks_append (hl.lead level) _).trans (skipBlanks_listed w ws _))
    exact readItems_next (hcs ▸ hv) (skipBlanks_cons (by decide) _) hws
termination_by structural vs => vs
/-- Members are read back up to the brace that closes them. -/
theorem readMembers_enrolled (hl : l.Blank) : ∀ (ms : List (String × Json)) {level outer fuel : Nat}
    {cs rest : List Char}, ms ≠ [] → MembersFit ms → 2 * (enrolled l level ms).length + 1 ≤ fuel →
      skipBlanks cs = enrolled l level ms ++ (l.lead outer ++ '\x7d' :: rest) →
      readMembers .keep fuel cs = some (ms, rest)
  | [], _, _, _, _, _, hne, _, _, _ => absurd rfl hne
  | [(k, v)], level, outer, fuel + 1, cs, rest, _, hfits, hfuel, hcs => by
    simp only [enrolled, memberChars, List.append_nil, List.length_append] at hcs hfuel
    have hv : readValue .keep fuel (chars l level v ++ (l.lead outer ++ '\x7d' :: rest)) =
        some (v, l.lead outer ++ '\x7d' :: rest) :=
      readValue_chars hl v hfits.1 (by omega)
        (parted_append (hl.lead outer) (parted_cons (by decide) rest))
    obtain ⟨body, hk, hbody⟩ := readKey_quote hl (hcs.trans (List.append_assoc ..))
    rw [skipBlanks_chars] at hbody
    exact readMembers_last hk (hbody ▸ hv) (skipBlanks_close hl outer (by decide) rest)
  | (k, v) :: m :: ms, level, outer, fuel + 1, cs, rest, _, hfits, hfuel, hcs => by
    let tail := l.lead level ++ (enrolled l level (m :: ms) ++ (l.lead outer ++ '\x7d' :: rest))
    rw [enrolled, memberChars_cons] at hcs hfuel
    simp only [List.length_append, List.length_cons] at hfuel
    have hv : readValue .keep fuel (chars l level v ++ ',' :: tail) = some (v, ',' :: tail) :=
      readValue_chars hl v hfits.1 (by omega) (parted_cons (by decide) tail)
    have hlen : 2 * (enrolled l level (m :: ms)).length + 1 ≤ fuel := by omega
    have hms : readMembers .keep fuel tail = some (m :: ms, rest) :=
      readMembers_enrolled hl (m :: ms) (by simp) hfits.2 hlen
        ((skipBlanks_append (hl.lead level) _).trans (skipBlanks_enrolled m ms _))
    have htext : skipBlanks cs = quote k ++ l.colon ++ (chars l level v ++ ',' :: tail) := by
      simpa [tail] using hcs
    obtain ⟨body, hk, hbody⟩ := readKey_quote hl htext
    rw [skipBlanks_chars] at hbody
    exact readMembers_next hk (hbody ▸ hv) (skipBlanks_cons (by decide) _) hms
termination_by structural ms => ms
end

/-! ### Whole texts -/

/-- An object all of whose members are of use is read as any other object. -/
theorem readRecord_of_readMembers {unused : String → Bool} {cs : List Char}
    {ms : List (String × Json)} (h : readMembers .keep fuel cs = some (ms, rest))
    (hused : ∀ m ∈ ms, unused m.1 = false) : readRecord unused fuel cs = some (ms, rest) := by
  induction fuel generalizing cs ms with
  | zero => cases h
  | succ fuel ih =>
    simp only [readMembers, Option.bind_eq_bind, Option.bind_eq_some_iff, Prod.exists] at h
    obtain ⟨k, body, hk, v, tail, hv, h⟩ := h
    split at h
    · next tail' htail =>
      obtain ⟨⟨ms', rest'⟩, hms, ⟨⟩⟩ := Option.bind_eq_some_iff.mp h
      obtain ⟨hkey, hrest⟩ := List.forall_mem_cons.mp hused
      simp only at hkey
      simp [readRecord, hk, hkey, hv, htail, ih hms hrest]
    · next htail =>
      cases h
      have hkey : unused k = false := hused (k, v) (List.mem_cons_self ..)
      simp [readRecord, hk, hkey, hv, htail]
    · cases h

/-- The outermost value is read back, if no member that it has is passed over. -/
theorem readOutermost_chars (hl : l.Blank) {unused : String → Bool} {j : Json} (hfits : j.Fits)
    (hused : ∀ ms, j = .obj ms → ∀ m ∈ ms, unused m.1 = false)
    (hfuel : 2 * (chars l level j).length ≤ fuel) (hrest : Parted rest) :
    readOutermost unused fuel (chars l level j ++ rest) = some (j, rest) := by
  by_cases hobj : ∃ ms, j = .obj ms
  · obtain ⟨ms, rfl⟩ := hobj
    rcases ms with _ | ⟨⟨k, v⟩, ms⟩
    · have hskip : skipBlanks ('\x7d' :: rest) = '\x7d' :: rest := skipBlanks_cons (by decide) rest
      simp [chars, readOutermost, hskip]
    · have htext : chars l level (.obj ((k, v) :: ms)) ++ rest = '\x7b' :: (l.lead (level + 1) ++
          (enrolled l (level + 1) ((k, v) :: ms) ++ (l.lead level ++ '\x7d' :: rest))) := by
        simp [chars, enrolled]
      have hlen : 2 * (enrolled l (level + 1) ((k, v) :: ms)).length + 1 ≤ fuel := by
        simp only [chars, enrolled, List.length_append, List.length_cons,
          List.length_nil] at hfuel ⊢
        omega
      have hmembers := readMembers_enrolled hl ((k, v) :: ms) (by simp) hfits hlen
        (skipBlanks_enrolled (k, v) ms (l.lead level ++ '\x7d' :: rest))
      rw [htext, readOutermost, skipBlanks_append (hl.lead _), skipBlanks_enrolled]
      split
      · exact absurd (List.cons.inj ‹_›).1 (by decide)
      · rw [readRecord_of_readMembers hmembers (hused _ rfl)]
        rfl
  · -- Anything else is read as a value within another one.
    have hvalue := readValue_chars hl j hfits hfuel hrest
    obtain ⟨c, cs, h, -, -, hbrace⟩ := exists_chars l level j
    rw [h, List.cons_append] at hvalue ⊢
    rw [readOutermost, hvalue]
    intro _ hc
    exact hobj (hbrace (List.cons.inj hc).1)

/-- **Reading undoes writing**, in any layout and with blanks at the end of the text. -/
theorem read_chars (hl : l.Blank) {unused : String → Bool} {j : Json} (hfits : j.Fits)
    (hdepth : j.depth ≤ depthLimit) (hused : ∀ ms, j = .obj ms → ∀ m ∈ ms, unused m.1 = false)
    {blanks : List Char} (hblanks : ∀ c ∈ blanks, isBlank c = true) :
    read unused (String.ofList (chars l 0 j ++ blanks)) = some j := by
  have hparted : Parted blanks := by
    simpa using parted_append hblanks parted_nil
  have hend : skipBlanks blanks = [] := by
    rw [← List.append_nil blanks, skipBlanks_append hblanks]
    rfl
  have hfuel : 2 * (chars l 0 j).length ≤ 2 * (chars l 0 j ++ blanks).length + 2 := by
    simp only [List.length_append]
    omega
  rw [read, String.toList_ofList, skipBlanks_chars,
    readOutermost_chars hl hfits hused hfuel hparted]
  simp [hend, hdepth]

/-- The compact text of a value. -/
theorem read_compact {unused : String → Bool} {j : Json} (hfits : j.Fits)
    (hdepth : j.depth ≤ depthLimit) (hused : ∀ ms, j = .obj ms → ∀ m ∈ ms, unused m.1 = false) :
    read unused j.compact = some j := by
  have h := read_chars Layout.blank_compact hfits hdepth hused (List.forall_mem_nil _)
  rwa [List.append_nil] at h

/-- The pretty text of a value, with a line end behind it. -/
theorem parse_pretty {j : Json} (hfits : j.Fits) (hdepth : j.depth ≤ depthLimit) :
    parse (j.pretty ++ "\n") = some j := by
  have h : read (fun _ => false) (String.ofList (chars .pretty 0 j ++ ['\n'])) = some j :=
    read_chars Layout.blank_pretty hfits hdepth (fun _ _ _ _ => rfl) (by simp [isBlank])
  rwa [String.ofList_append] at h

end Json
end FlowGraph
