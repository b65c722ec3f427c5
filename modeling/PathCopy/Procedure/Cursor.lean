import PathCopy.Procedure.ParseError

/-!
A position among tokens, as the tokens behind it and those ahead. The end-of-input token is never
passed, so a cursor that starts before one always has a current token.
-/

namespace PathCopy

/-- A position in a row of tokens: `behind` holds what has been consumed, the latest first. -/
structure Cursor where
  behind : List Token
  ahead : List Token

namespace Cursor

def ofTokens (tokens : List Token) : Cursor := ⟨[], tokens⟩

/-- The token to be consumed next; an empty row reads as the end of input. -/
def current (c : Cursor) : Token := c.ahead.headD ⟨.endOfInput, Span.origin⟩

def kind (c : Cursor) : TokenKind := c.current.kind

def peek (c : Cursor) (offset : Nat) : TokenKind :=
  ((c.ahead[offset]?).map (·.kind)).getD .endOfInput

def previousSpan (c : Cursor) : Span := (c.behind.head?.map (·.span)).getD Span.origin

def atEnd (c : Cursor) : Bool := c.kind == .endOfInput

def atIdent (c : Cursor) : Bool :=
  match c.kind with
  | .ident _ => true
  | _ => false

/-- The position after the current token; the end of input stays where it is. -/
def advance (c : Cursor) : Cursor :=
  match c.ahead with
  | [] => c
  | t :: rest => if t.kind = .endOfInput then c else ⟨t :: c.behind, rest⟩

def check (c : Cursor) (kind : TokenKind) : Bool := c.kind == kind

def eat (c : Cursor) (kind : TokenKind) : Bool × Cursor :=
  if c.check kind then (true, c.advance) else (false, c)

def expect (c : Cursor) (kind : TokenKind) : Except ParseError (Span × Cursor) :=
  if c.check kind then .ok (c.current.span, c.advance)
  else .error (.found (.token kind) c.current)

/-- Number of tokens ahead, the end of input included. -/
def left (c : Cursor) : Nat := c.ahead.length

theorem left_advance_lt (c : Cursor) (h : c.kind ≠ .endOfInput) : c.advance.left < c.left := by
  rcases c with ⟨behind, _ | ⟨t, rest⟩⟩
  · exact absurd rfl h
  · have ht : t.kind ≠ .endOfInput := h
    simp [advance, left, ht]

theorem left_advance_le (c : Cursor) : c.advance.left ≤ c.left := by
  by_cases h : c.kind = .endOfInput
  · rcases c with ⟨behind, _ | ⟨t, rest⟩⟩
    · exact Nat.le_refl _
    · have ht : t.kind = .endOfInput := h
      simp [advance, left, ht]
  · exact Nat.le_of_lt (c.left_advance_lt h)

end Cursor

end PathCopy
