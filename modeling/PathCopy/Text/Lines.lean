/-!
A text as lines. A line keeps the character that ends it; a carriage return together with the line
feed after it ends one line. An offset counts characters, and the offset behind the last one belongs
to the last line.
-/

namespace PathCopy

def endsLine (c : Char) : Bool :=
  let n := c.toNat
  (10 ≤ n && n ≤ 13) || n == 0x85 || n == 0x2028 || n == 0x2029

/-- The lines of a text, each with its end. -/
def splitLines : List Char → List (List Char)
  | [] => []
  | '\r' :: '\n' :: cs => ['\r', '\n'] :: splitLines cs
  | c :: cs =>
    if endsLine c then [c] :: splitLines cs
    else match splitLines cs with
      | [] => [[c]]
      | line :: lines => (c :: line) :: lines

/-- A line of a text: its number, counted from zero, the offset of its first character, and its
characters. -/
structure Line where
  index : Nat
  offset : Nat
  chars : List Char
  deriving Inhabited

namespace Line

def stop (l : Line) : Nat := l.offset + l.chars.length

def holds (l : Line) (offset : Nat) : Bool := l.offset ≤ offset && offset < l.stop

end Line

/-- The lines `lines` of a text, the first of which has number `index` and begins at `offset`. -/
def numberLines (index offset : Nat) : List (List Char) → List Line
  | [] => []
  | l :: lines => ⟨index, offset, l⟩ :: numberLines (index + 1) (offset + l.length) lines

/-- The lines of a text; an empty text has one empty line. -/
def linesOf (text : List Char) : List Line :=
  if text.isEmpty then [⟨0, 0, []⟩] else numberLines 0 0 (splitLines text)

/-- The line of an offset, if the text reaches that far. -/
def lineAt? (lines : List Line) (offset : Nat) : Option Line :=
  match (lines.filter fun l => l.offset ≤ offset).getLast? with
  | some l => if offset ≤ l.stop then some l else none
  | none => none

end PathCopy
