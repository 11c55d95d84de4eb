import FlowGraph.Json.Value

/-! # Reading JSON text

One strict value between blanks: no comments, no trailing commas, no leading zeros, no raw control
characters, no half of a surrogate pair, no number too large for a double, and at most
`Json.depthLimit` arrays and objects around a value.

A caller may name members of the outermost object that it has no use for.  Those are checked
against the grammar only and left out, so what they hold may be of any depth and any magnitude, and
may name half of a surrogate pair.
-/
namespace FlowGraph
namespace Json

/-- How many arrays and objects may lie around a value. -/
def depthLimit : Nat := 127

/-- Whether a value is read to be kept or only to be passed over. -/
inductive Care where
  | keep
  | skim
deriving DecidableEq, Repr

/-! ### Characters -/

/-- Blanks between the parts of a text. -/
def isBlank (c : Char) : Bool :=
  c = ' ' || c = '\t' || c = '\n' || c = '\r'

/-- A text from its first character that is not blank. -/
def skipBlanks (cs : List Char) : List Char := cs.dropWhile isBlank

/-- The value of a hexadecimal digit. -/
def hexDigit? (c : Char) : Option Nat :=
  if '0' ≤ c ∧ c ≤ '9' then some (c.toNat - '0'.toNat)
  else if 'a' ≤ c ∧ c ≤ 'f' then some (c.toNat - 'a'.toNat + 10)
  else if 'A' ≤ c ∧ c ≤ 'F' then some (c.toNat - 'A'.toNat + 10)
  else none

/-- The code unit of four hexadecimal digits. -/
def codeUnit? (a b c d : Char) : Option Nat := do
  return (((← hexDigit? a) * 16 + (← hexDigit? b)) * 16 + (← hexDigit? c)) * 16 + (← hexDigit? d)

/-- The character that a backslash and `c` stand for. -/
def shortEscape? (c : Char) : Option Nat :=
  match c with
  | '"' => some 0x22
  | '\\' => some 0x5c
  | '/' => some 0x2f
  | 'b' => some 0x08
  | 'f' => some 0x0c
  | 'n' => some 0x0a
  | 'r' => some 0x0d
  | 't' => some 0x09
  | _ => none

/-! ### Strings -/

/-- The code points and code units of a string literal, after its opening quote, and what follows
the closing one. -/
def readUnits : List Char → Option (List Nat × List Char)
  | [] => none
  | '"' :: cs => some ([], cs)
  | '\\' :: 'u' :: a :: b :: c :: d :: cs => do
    let u ← codeUnit? a b c d
    let (us, rest) ← readUnits cs
    return (u :: us, rest)
  | '\\' :: c :: cs => do
    let u ← shortEscape? c
    let (us, rest) ← readUnits cs
    return (u :: us, rest)
  | c :: cs =>
    if c.toNat < 0x20 then none
    else do
      let (us, rest) ← readUnits cs
      return (c.toNat :: us, rest)

/-- The first half of a surrogate pair. -/
def isHighHalf (u : Nat) : Bool := 0xd800 ≤ u && u < 0xdc00

/-- The second half of a surrogate pair. -/
def isLowHalf (u : Nat) : Bool := 0xdc00 ≤ u && u < 0xe000

/-- The code point of a surrogate pair. -/
def joinHalves (high low : Nat) : Nat :=
  0x10000 + (high - 0xd800) * 0x400 + (low - 0xdc00)

/-- The characters of a sequence of units, `none` if half of a pair stands alone. -/
def charsOfUnits : List Nat → Option (List Char)
  | [] => some []
  | [u] => if isHighHalf u || isLowHalf u then none else some [Char.ofNat u]
  | u :: v :: us =>
    if isHighHalf u then
      if isLowHalf v then (charsOfUnits us).map (Char.ofNat (joinHalves u v) :: ·) else none
    else if isLowHalf u then none
    else (charsOfUnits (v :: us)).map (Char.ofNat u :: ·)

/-- A string literal after its opening quote. -/
def readString (care : Care) (cs : List Char) : Option (String × List Char) := do
  let (units, rest) ← readUnits cs
  match care with
  | .keep => return (String.ofList (← charsOfUnits units), rest)
  | .skim => return ("", rest)

/-! ### Numbers -/

/-- The natural number of a list of decimal digits. -/
def natOfDigits (ds : List Char) : Nat :=
  ds.foldl (fun n d => 10 * n + (d.toNat - '0'.toNat)) 0

/-- Appends digits to a number as long as it fits into a word.  Gives the number and how many digits
are left. -/
def appendDigits (n : Nat) : List Char → Nat × Nat
  | [] => (n, 0)
  | d :: ds =>
    let m := 10 * n + (d.toNat - '0'.toNat)
    if m < Numeral.wordLimit then appendDigits m ds else (n, ds.length + 1)

/-- At least one digit, and what follows the digits. -/
def readDigits (cs : List Char) : Option (List Char × List Char) :=
  match cs.takeWhile Char.isDigit with
  | [] => none
  | ds => some (ds, cs.dropWhile Char.isDigit)

/-- The digits after a point, if there is a point. -/
def readFraction : List Char → Option (Option (List Char) × List Char)
  | '.' :: cs => (readDigits cs).map fun (ds, rest) => (some ds, rest)
  | cs => some (none, cs)

/-- The power of ten after an exponent mark, if there is a mark. -/
def readExponent : List Char → Option (Option Int × List Char)
  | c :: cs =>
    if c = 'e' || c = 'E' then
      match cs with
      | '-' :: cs => (readDigits cs).map fun (ds, rest) => (some (-natOfDigits ds : Int), rest)
      | '+' :: cs => (readDigits cs).map fun (ds, rest) => (some (natOfDigits ds : Int), rest)
      | cs => (readDigits cs).map fun (ds, rest) => (some (natOfDigits ds : Int), rest)
    else some (none, c :: cs)
  | [] => some (none, [])

/-- The numeral of the parts of a number.  Digits in front of the point that do not fit into a word
count as zeros, and those after it as if they were not there. -/
def numeralOf (negative : Bool) (whole : List Char) (fraction : Option (List Char))
    (exponent : Option Int) : Numeral :=
  match appendDigits 0 whole, fraction, exponent with
  | (n, 0), none, none => .whole negative n
  | (n, zeros), _, _ =>
    let places := fraction.getD []
    let (n, unread) := appendDigits n places
    .scaled negative n (exponent.getD 0 + zeros - (places.length - unread : Nat))

/-- A number without its sign. -/
def readMagnitude (negative : Bool) (cs : List Char) : Option (Numeral × List Char) := do
  let (whole, cs) ← readDigits cs
  if 1 < whole.length ∧ whole.head? = some '0' then none
  else
    let (fraction, cs) ← readFraction cs
    let (exponent, cs) ← readExponent cs
    return (numeralOf negative whole fraction exponent, cs)

/-- A number. -/
def readNumeral : List Char → Option (Numeral × List Char)
  | '-' :: cs => readMagnitude true cs
  | cs => readMagnitude false cs

/-! ### Values

The first argument bounds the recursion.  Every second step of it takes a character, so twice the
length of the text is enough; `Json.read` supplies that. -/

/-- A key and the colon after it. -/
def readKey (care : Care) (cs : List Char) : Option (String × List Char) :=
  match skipBlanks cs with
  | '"' :: cs => do
    let (k, cs) ← readString care cs
    match skipBlanks cs with
    | ':' :: cs => return (k, cs)
    | _ => none
  | _ => none

mutual
/-- A value at the start of a text that is not blank there. -/
def readValue (care : Care) : Nat → List Char → Option (Json × List Char)
  | 0, _ => none
  | fuel + 1, cs =>
    match cs with
    | '"' :: cs => (readString care cs).map fun (s, rest) => (.str s, rest)
    | '[' :: cs =>
      match skipBlanks cs with
      | ']' :: cs => some (.arr [], cs)
      | cs => (readItems care fuel cs).map fun (vs, rest) => (.arr vs, rest)
    | '\x7b' :: cs =>
      match skipBlanks cs with
      | '\x7d' :: cs => some (.obj [], cs)
      | cs => (readMembers care fuel cs).map fun (ms, rest) => (.obj ms, rest)
    | 'n' :: 'u' :: 'l' :: 'l' :: cs => some (.null, cs)
    | 't' :: 'r' :: 'u' :: 'e' :: cs => some (.bool true, cs)
    | 'f' :: 'a' :: 'l' :: 's' :: 'e' :: cs => some (.bool false, cs)
    | cs => do
      let (n, rest) ← readNumeral cs
      if care = .keep ∧ n.isOutOfRange then none else return (.num n, rest)
/-- The items of an array up to its closing bracket, at least one. -/
def readItems (care : Care) : Nat → List Char → Option (List Json × List Char)
  | 0, _ => none
  | fuel + 1, cs => do
    let (v, cs) ← readValue care fuel (skipBlanks cs)
    match skipBlanks cs with
    | ',' :: cs =>
      let (vs, rest) ← readItems care fuel cs
      return (v :: vs, rest)
    | ']' :: rest => return ([v], rest)
    | _ => none
/-- The members of an object up to its closing brace, at least one. -/
def readMembers (care : Care) : Nat → List Char → Option (List (String × Json) × List Char)
  | 0, _ => none
  | fuel + 1, cs => do
    let (k, cs) ← readKey care cs
    let (v, cs) ← readValue care fuel (skipBlanks cs)
    match skipBlanks cs with
    | ',' :: cs =>
      let (ms, rest) ← readMembers care fuel cs
      return ((k, v) :: ms, rest)
    | '\x7d' :: rest => return ([(k, v)], rest)
    | _ => none
end

/-- The members of the outermost object.  Those whose key is `unused` are skimmed and left out. -/
def readRecord (unused : String → Bool) : Nat → List Char →
    Option (List (String × Json) × List Char)
  | 0, _ => none
  | fuel + 1, cs => do
    let (k, cs) ← readKey .keep cs
    let care := if unused k then .skim else .keep
    let (v, cs) ← readValue care fuel (skipBlanks cs)
    let kept := if unused k then [] else [(k, v)]
    match skipBlanks cs with
    | ',' :: cs =>
      let (ms, rest) ← readRecord unused fuel cs
      return (kept ++ ms, rest)
    | '\x7d' :: rest => return (kept, rest)
    | _ => none

/-- The outermost value. -/
def readOutermost (unused : String → Bool) (fuel : Nat) (cs : List Char) :
    Option (Json × List Char) :=
  match cs with
  | '\x7b' :: cs =>
    match skipBlanks cs with
    | '\x7d' :: cs => some (.obj [], cs)
    | cs => (readRecord unused fuel cs).map fun (ms, rest) => (.obj ms, rest)
  | cs => readValue .keep fuel cs

/-- **The value that a text names**, or `none` if the text breaks a rule.  Members of the outermost
object that are `unused` are left out. -/
def read (unused : String → Bool) (text : String) : Option Json := do
  let cs := text.toList
  let (v, rest) ← readOutermost unused (2 * cs.length + 2) (skipBlanks cs)
  if (skipBlanks rest).isEmpty ∧ v.depth ≤ depthLimit then some v else none

/-- The value that a text names, with nothing left out. -/
def parse (text : String) : Option Json := read (fun _ => false) text

end Json
end FlowGraph
