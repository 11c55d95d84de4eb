/-! # Text without control sequences

Diagnostics go to readers that understand no control sequences, so what only a terminal would act on
is left out: control characters, and every sequence that an escape character starts.  What follows
the escape character tells how far a sequence goes.

* After `[`, up to a character between `@` and `~`.
* After `]`, up to a bell.
* After `P`, through a header up to the end of a string; after `X`, `^` and `_` the string comes at
  once.  A string goes up to the string terminator, which is looked for byte by byte.
* After anything else, up to a character between `0` and `~`.

Wherever it stands, an escape character starts a sequence anew, and a cancel or substitute character
ends the sequence.  Tabs and ends of lines and pages are kept, except within strings and their
headers and after `]`.  A kept one puts the sequence on hold: what follows is text until the next
control character, with which the sequence goes on unless a character outside of ASCII has ended it.
-/
namespace FlowGraph
namespace Text

/-- **A sequence that has been started**, by what has been read of it. -/
inductive Sequence where
  /-- The escape character. -/
  | escape
  /-- The escape character and characters between the blank and `/`. -/
  | intermediate
  /-- The escape character and `[`. -/
  | control
  /-- The escape character and `]`. -/
  | command
  /-- The escape character and `P`. -/
  | header
  /-- A header with parameters. -/
  | headerParameters
  /-- A header with characters between the blank and `/` after its parameters. -/
  | headerIntermediate
  /-- A part of a string. -/
  | string
deriving DecidableEq, Repr, Inhabited

/-- **Where a reader of text is.** -/
inductive Place where
  /-- In text. -/
  | text
  /-- In a sequence. -/
  | inside (s : Sequence)
  /-- In text that follows a character kept from a sequence. -/
  | onHold (s : Sequence)
deriving DecidableEq, Repr, Inhabited

/-- Whether a character lies between two others. -/
def between (low high c : Char) : Bool := low ≤ c && c ≤ high

/-- The control characters that are kept: tabs and ends of lines and pages. -/
def isKeptControl (c : Char) : Bool :=
  c = '\t' || c = '\n' || c = '\x0c' || c = '\r'

/-- Whether a character is text. -/
def isText (c : Char) : Bool := between ' ' '~' c || isKeptControl c || 0x7f < c.toNat

/-- Whether one of the bytes of a character is the string terminator. -/
def terminatesString (c : Char) : Bool := (String.utf8EncodeChar c).any (· = 0x9c)

namespace Sequence

/-- Whether characters that text keeps are kept within the sequence. -/
def keepsControls : Sequence → Bool
  | .escape => true
  | .intermediate => true
  | .control => true
  | _ => false

/-- Where a reader is after a character of a sequence. -/
def next : Sequence → Char → Place
  | .escape, c =>
    if c = '[' then .inside .control
    else if c = ']' then .inside .command
    else if c = 'P' then .inside .header
    else if c = 'X' || c = '^' || c = '_' then .inside .string
    else if between ' ' '/' c then .inside .intermediate
    else if between '0' '~' c then .text
    else .inside .escape
  | .intermediate, c => if between '0' '~' c then .text else .inside .intermediate
  | .control, c => if between '@' '~' c then .text else .inside .control
  | .command, c => if c = '\x07' then .text else .inside .command
  | .header, c =>
    if between ' ' '/' c then .inside .headerIntermediate
    else if between '0' '?' c then .inside .headerParameters
    else if between '@' '~' c then .inside .string
    else .inside .header
  | .headerParameters, c =>
    if between ' ' '/' c then .inside .headerIntermediate
    else if between '<' '~' c then .inside .string
    else .inside .headerParameters
  | .headerIntermediate, c =>
    if between '0' '~' c then .inside .string else .inside .headerIntermediate
  | .string, c => if terminatesString c then .text else .inside .string

end Sequence

namespace Place

/-- Whether a character is shown, and where a reader is after it. -/
def step (p : Place) (c : Char) : Bool × Place :=
  if c = '\x1b' then (false, .inside .escape)
  else if c = '\x18' || c = '\x1a' then (false, .text)
  else
    match p with
    | .text => (isText c, .text)
    | .inside s =>
      if s.keepsControls && isKeptControl c then (true, .onHold s) else (false, s.next c)
    | .onHold s =>
      if 0x7f < c.toNat then (true, .text)
      else if isText c then (true, .onHold s)
      else (false, .inside s)

/-- The characters that are shown from a place on. -/
def shown : Place → List Char → List Char
  | _, [] => []
  | p, c :: cs =>
    let (visible, p) := p.step c
    if visible then c :: p.shown cs else p.shown cs

end Place

/-- **A text without its control sequences.** -/
def plain (s : String) : String := String.ofList (Place.text.shown s.toList)

end Text
end FlowGraph
