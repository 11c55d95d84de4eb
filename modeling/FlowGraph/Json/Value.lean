/-! # JSON values and their text

The tree that a JSON text names.  Members of an object keep their order and may repeat, because a
reader of records has to notice both.  A number is kept as it was written, since a fraction or an
exponent rules it out as an integer even where its value is whole.

There are two layouts of the text of a value: compact, without any blanks, and pretty, one item to a
line with two blanks of indentation for each level.  Quotes, backslashes and control characters are
escaped, every other character is written as it is.
-/
namespace FlowGraph

/-- **A number as written**: an integer, or digits scaled by a power of ten. -/
inductive Numeral where
  /-- An integer that fits into a word, without fraction and exponent. -/
  | whole (negative : Bool) (magnitude : Nat)
  /-- `digits · 10 ^ power`, from any other text.  The digits are those in front, as many as fit
  into a word. -/
  | scaled (negative : Bool) (digits : Nat) (power : Int)
deriving DecidableEq, Repr

namespace Numeral

/-- The integer that a numeral spells.  A fraction, an exponent and the sign of a negative zero
belong to no integer. -/
def toInt? : Numeral → Option Int
  | .whole false n => some n
  | .whole true 0 => none
  | .whole true n => some (-n)
  | .scaled .. => none

/-- The numeral of an integer. -/
def ofInt (n : Int) : Numeral :=
  .whole (n < 0) n.natAbs

/-- A word holds the numbers below this one: it has 64 bits. -/
def wordLimit : Nat := 18446744073709551616

/-! ### Range

A number is held as a double: the product of its digits and of the power of ten, both of which are
doubles already. -/

/-- How many significant bits a double has. -/
def precision : Nat := 53

/-- The nearest number of the precision of a double.  Of two equally near ones it is the one whose
last bit is 0. -/
def nearest (n : Nat) : Nat :=
  let unit := Nat.pow 2 (n.log2 + 1 - precision)
  let q := n / unit
  let r := n % unit
  if 2 * r < unit then q * unit
  else if unit < 2 * r then (q + 1) * unit
  else (q + q % 2) * unit

/-- The smallest product that rounds past the largest double. -/
def doubleLimit : Nat := Nat.pow 2 1024 - Nat.pow 2 970

/-- The largest power of ten below that limit. -/
def powerLimit : Int := 308

/-- Whether a number is too large for a double. -/
def isOutOfRange : Numeral → Bool
  | .whole .. => false
  | .scaled _ digits power =>
    if digits = 0 || power < 0 then false
    else if powerLimit < power then true
    else doubleLimit ≤ nearest digits * nearest (Nat.pow 10 power.toNat)

end Numeral

/-- **A JSON value.** -/
inductive Json where
  | null
  | bool (value : Bool)
  | num (value : Numeral)
  | str (value : String)
  | arr (items : List Json)
  | obj (members : List (String × Json))
deriving Inhabited

namespace Json

/-- The number of an integer. -/
def int (n : Int) : Json := .num (.ofInt n)

mutual
/-- How many arrays and objects lie around the innermost value. -/
def depth : Json → Nat
  | .arr items => depthOfItems items + 1
  | .obj members => depthOfMembers members + 1
  | _ => 0
termination_by structural j => j
/-- The greatest depth in a list. -/
def depthOfItems : List Json → Nat
  | [] => 0
  | v :: vs => max v.depth (depthOfItems vs)
termination_by structural vs => vs
/-- The greatest depth among the values of members. -/
def depthOfMembers : List (String × Json) → Nat
  | [] => 0
  | (_, v) :: ms => max v.depth (depthOfMembers ms)
termination_by structural ms => ms
end

/-! ### Records

A record is an object with known field names, or the array of its fields in order.  Unknown members
are passed over, a field given twice is refused, and a missing field is reported as `none`. -/

/-- The value of a field among the members: `none` when it is given twice, `some none` when it is
missing. -/
def field? (members : List (String × Json)) (name : String) : Option (Option Json) :=
  match members.filter (·.1 = name) with
  | [] => some none
  | [(_, v)] => some (some v)
  | _ => none

/-- The fields of a record, in the order of `names`. -/
def fields? (names : List String) : Json → Option (List (Option Json))
  | .obj members => names.mapM (field? members)
  | .arr items =>
    if items.length ≤ names.length then
      some (items.map some ++ List.replicate (names.length - items.length) none)
    else none
  | _ => none

end Json

/-! ### Text -/

namespace Json

/-- The lower-case hexadecimal digit of a number below sixteen. -/
def hexDigit (n : Nat) : Char := Nat.digitChar n

/-- The characters that stand for `c` in a string literal. -/
def escape (c : Char) : List Char :=
  if c = '"' then ['\\', '"']
  else if c = '\\' then ['\\', '\\']
  else if c = '\x08' then ['\\', 'b']
  else if c = '\x0c' then ['\\', 'f']
  else if c = '\n' then ['\\', 'n']
  else if c = '\r' then ['\\', 'r']
  else if c = '\t' then ['\\', 't']
  else if c.toNat < 0x20 then
    ['\\', 'u', '0', '0', hexDigit (c.toNat / 16), hexDigit (c.toNat % 16)]
  else [c]

/-- A string literal. -/
def quote (s : String) : List Char :=
  ['"'] ++ s.toList.flatMap escape ++ ['"']

/-- A number.  The power of ten of a scaled number is written as an exponent. -/
def numeralChars : Numeral → List Char
  | .whole negative n => (if negative then ['-'] else []) ++ Nat.toDigits 10 n
  | .scaled negative n power =>
    (if negative then ['-'] else []) ++ Nat.toDigits 10 n ++ ['e'] ++
      (if power < 0 then ['-'] else []) ++ Nat.toDigits 10 power.natAbs

/-- **The layout of a text**: what stands in front of an item at some level of indentation, and what
stands between a key and its value. -/
structure Layout where
  /-- What separates an item from what is in front of it, by level. -/
  lead : Nat → List Char
  /-- What follows a key. -/
  colon : List Char

/-- No blanks at all. -/
def Layout.compact : Layout := ⟨fun _ => [], [':']⟩

/-- Each item on a line of its own, two blanks deeper than what holds it. -/
def Layout.pretty : Layout := ⟨fun n => '\n' :: List.replicate (2 * n) ' ', [':', ' ']⟩

mutual
/-- The characters of a value that stands at some level of indentation. -/
def chars (l : Layout) (level : Nat) : Json → List Char
  | .null => ['n', 'u', 'l', 'l']
  | .bool true => ['t', 'r', 'u', 'e']
  | .bool false => ['f', 'a', 'l', 's', 'e']
  | .num n => numeralChars n
  | .str s => quote s
  | .arr [] => ['[', ']']
  | .arr (v :: vs) =>
    ['['] ++ l.lead (level + 1) ++ chars l (level + 1) v ++ itemChars l (level + 1) vs ++
      l.lead level ++ [']']
  | .obj [] => ['\x7b', '\x7d']
  | .obj ((k, v) :: ms) =>
    ['\x7b'] ++ l.lead (level + 1) ++ quote k ++ l.colon ++ chars l (level + 1) v ++
      memberChars l (level + 1) ms ++ l.lead level ++ ['\x7d']
termination_by structural j => j
/-- The items after the first. -/
def itemChars (l : Layout) (level : Nat) : List Json → List Char
  | [] => []
  | v :: vs => [','] ++ l.lead level ++ chars l level v ++ itemChars l level vs
termination_by structural vs => vs
/-- The members after the first. -/
def memberChars (l : Layout) (level : Nat) : List (String × Json) → List Char
  | [] => []
  | (k, v) :: ms =>
    [','] ++ l.lead level ++ quote k ++ l.colon ++ chars l level v ++ memberChars l level ms
termination_by structural ms => ms
end

/-- **The compact text** of a value. -/
def compact (j : Json) : String := String.ofList (chars .compact 0 j)

/-- **The pretty text** of a value. -/
def pretty (j : Json) : String := String.ofList (chars .pretty 0 j)

end Json
end FlowGraph
