import PathCopy.Number.Numeral
import PathCopy.Procedure.Token

/-!
The words of the source text. At each position the text goes on with a gap (blanks or a comment) or
with a lexeme; both take the longest stretch that fits. `Piece.next?` finds the stretch, and
`Lexeme.scan` cuts a whole text into lexemes. Nothing but gaps lies between them.
-/

namespace PathCopy

/-- A word of the source, before its text is interned. -/
inductive Lexeme
  | number (value : Float)
  | string (text : String)
  | word (text : String)
  | keyword (word : Keyword)
  | symbol (symbol : Symbol)

inductive LexError
  | unexpectedCharacter (char : Char) (span : Span)
  | unterminatedString (span : Span)
  | unterminatedComment (span : Span)
  deriving DecidableEq

namespace LexError

def span : LexError → Span
  | unexpectedCharacter _ span => span
  | unterminatedString span => span
  | unterminatedComment span => span

def message : LexError → String
  | unexpectedCharacter char _ => "unexpected character `" ++ char.toString ++ "`"
  | unterminatedString _ => "unterminated string literal"
  | unterminatedComment _ => "unterminated block comment"

/-- Why no piece begins with `c`, found at byte `offset` and followed by `cs`: a comment that is
never closed, a string that is not closed on its line, or a character without meaning. -/
def ofFailure (c : Char) (cs : List Char) (offset : Nat) : LexError :=
  if c = '/' ∧ cs.head? = some '*' then
    .unterminatedComment (Span.ofRange offset (offset + utf8Length (c :: cs)))
  else if c = '"' ∨ c = '\'' then
    .unterminatedString
      (Span.ofRange offset (offset + utf8Length ((c :: cs).takeWhile (· ≠ '\n'))))
  else .unexpectedCharacter c (Span.ofRange offset (offset + c.utf8Size))

end LexError

namespace Lexeme

def isBlank (c : Char) : Bool :=
  c == ' ' || c == '\t' || c == '\r' || c == '\n' || c == '\x0c'

def isWordStart (c : Char) : Bool := c.isAlpha || c == '_' || c == '$'

def isWordPart (c : Char) : Bool := isWordStart c || c.isDigit

def isHexDigit (c : Char) : Bool :=
  c.isDigit || ('a' ≤ c && c ≤ 'f') || ('A' ≤ c && c ≤ 'F')

def hexDigitValue (c : Char) : Nat :=
  if c.isDigit then c.toNat - '0'.toNat
  else if 'a' ≤ c then c.toNat - 'a'.toNat + 10
  else c.toNat - 'A'.toNat + 10

/-- The value of a row of hexadecimal digits, rounded after each digit. -/
def hexValue (ds : List Char) : Float :=
  ds.foldl (fun x c => x * 16 + Float.ofNat (hexDigitValue c)) 0

/-- How many characters a block comment takes after its opener, up to the first closer. -/
def commentTail? : List Char → Option Nat
  | '*' :: '/' :: _ => some 2
  | _ :: cs => (commentTail? cs).map (· + 1)
  | [] => none

/-- How many characters a string takes after the quote that opens it. A backslash takes the next
character with it; no line end may stand inside. -/
def stringTail? (quote : Char) : List Char → Option Nat
  | '\\' :: c :: cs => if c = '\n' then none else (stringTail? quote cs).map (· + 2)
  | c :: cs =>
    if c = quote then some 1
    else if c = '\n' || c = '\\' then none
    else (stringTail? quote cs).map (· + 1)
  | [] => none

/-- The text that the inside of a string spells: `\n`, `\r`, `\t` and `\0` are control characters
and any other character after a backslash is itself. -/
def unescape : List Char → List Char
  | '\\' :: c :: cs =>
    let plain := match c with
      | 'n' => '\n'
      | 'r' => '\r'
      | 't' => '\t'
      | '0' => '\x00'
      | c => c
    plain :: unescape cs
  | c :: cs => c :: unescape cs
  | [] => []

def exponentLength (cs : List Char) : Nat :=
  match Number.readExponent? cs with
  | some (_, rest) => cs.length - rest.length
  | none => 0

def fractionLength : List Char → Nat
  | '.' :: cs =>
    let n := (cs.takeWhile Char.isDigit).length
    if n = 0 then 0 else n + 1
  | _ => 0

/-- How many characters a number takes after its first one, a digit or a point before a digit. -/
def numberTail? (c : Char) (cs : List Char) : Option Nat :=
  if c.isDigit then
    let whole := (cs.takeWhile Char.isDigit).length
    let fraction := fractionLength (cs.drop whole)
    some (whole + fraction + exponentLength (cs.drop (whole + fraction)))
  else if c = '.' then
    let fraction := fractionLength (c :: cs) - 1
    if fraction = 0 then none
    else some (fraction + exponentLength (cs.drop fraction))
  else none

def hexTail? (c : Char) (cs : List Char) : Option Nat :=
  match c, cs with
  | '0', x :: ds =>
    let n := (ds.takeWhile isHexDigit).length
    if (x = 'x' ∨ x = 'X') ∧ n ≠ 0 then some (n + 1) else none
  | _, _ => none

def ofWord (text : String) : Lexeme :=
  match Keyword.ofText? text with
  | some k => .keyword k
  | none => .word text

/-- The lexeme that begins with `c` and goes on into `cs`, with the number of characters that it
takes from `cs`. -/
def next? (c : Char) (cs : List Char) : Option (Lexeme × Nat) :=
  if isWordStart c then
    let part := cs.takeWhile isWordPart
    some (ofWord (String.ofList (c :: part)), part.length)
  else if c = '"' ∨ c = '\'' then
    (stringTail? c cs).map fun n => (.string (String.ofList (unescape (cs.take (n - 1)))), n)
  else match hexTail? c cs with
    | some n => some (.number (hexValue ((cs.drop 1).take (n - 1))), n)
    | none => match numberTail? c cs with
      | some n =>
        some (.number ((Number.read? (String.ofList (c :: cs.take n))).getD 0), n)
      | none => match cs.head?.bind (Symbol.ofPair? c) with
        | some s => some (.symbol s, 1)
        | none => (Symbol.ofChar? c).map fun s => (.symbol s, 0)

/-- The gap that begins with `c` and goes on into `cs`, as the number of characters that it takes
from `cs`; nothing if no gap begins there, and failure for a comment that is never closed. -/
def gapTail? (c : Char) (cs : List Char) : Option Nat :=
  if isBlank c then some (cs.takeWhile isBlank).length
  else match c, cs with
    | '/', '/' :: ds => some (1 + (ds.takeWhile (· ≠ '\n')).length)
    | '/', '*' :: ds => (commentTail? ds).map (1 + ·)
    | _, _ => none

/-- Whether a comment opens here, so that no operator does. -/
def opensComment (c : Char) (cs : List Char) : Bool := c == '/' && cs.head? == some '*'

end Lexeme

/-- A stretch of source: a gap or a lexeme. -/
inductive Piece
  | gap
  | lexeme (lexeme : Lexeme)

def Piece.next? (c : Char) (cs : List Char) : Option (Piece × Nat) :=
  match Lexeme.gapTail? c cs with
  | some n => some (.gap, n)
  | none =>
    if Lexeme.opensComment c cs then none
    else (Lexeme.next? c cs).map fun (l, n) => (.lexeme l, n)

namespace Lexeme

/-- Cuts a text into lexemes with their spans; `offset` is the byte offset of the text. -/
def scan : List Char → Nat → Except LexError (List (Lexeme × Span))
  | [], _ => .ok []
  | c :: cs, offset =>
    match Piece.next? c cs with
    | none => .error (LexError.ofFailure c cs offset)
    | some (piece, n) =>
      let stop := offset + utf8Length (c :: cs.take n)
      match piece with
      | .gap => scan (cs.drop n) stop
      | .lexeme l => (scan (cs.drop n) stop).map ((l, Span.ofRange offset stop) :: ·)
  termination_by cs => cs.length
  decreasing_by all_goals simp only [List.length_drop, List.length_cons]; omega

end Lexeme

end PathCopy
