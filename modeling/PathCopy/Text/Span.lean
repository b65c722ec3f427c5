/-!
Source positions. Every place in a source text is a pair of UTF-8 byte offsets, and `Span.snippet`
is the text between them.
-/

namespace PathCopy

/-- Number of bytes that a list of characters takes in UTF-8. -/
def utf8Length : List Char → Nat
  | [] => 0
  | c :: cs => c.utf8Size + utf8Length cs

@[simp] theorem utf8Length_append (cs ds : List Char) :
    utf8Length (cs ++ ds) = utf8Length cs + utf8Length ds := by
  induction cs with
  | nil => simp [utf8Length]
  | cons c cs ih => simp [utf8Length, ih, Nat.add_assoc]

/-- The characters from byte offset `n` on, if `n` is a character boundary of the text. -/
def dropBytes : List Char → Nat → Option (List Char)
  | cs, 0 => some cs
  | [], _ + 1 => none
  | c :: cs, n + 1 => if c.utf8Size ≤ n + 1 then dropBytes cs (n + 1 - c.utf8Size) else none

/-- The characters before byte offset `n`, if `n` is a character boundary of the text. -/
def takeBytes : List Char → Nat → Option (List Char)
  | _, 0 => some []
  | [], _ + 1 => none
  | c :: cs, n + 1 =>
    if c.utf8Size ≤ n + 1 then (takeBytes cs (n + 1 - c.utf8Size)).map (c :: ·) else none

/-- A stretch of source text, by the byte offsets of its start (inclusive) and stop (exclusive). -/
structure Span where
  start : Nat
  stop : Nat
  deriving DecidableEq, Inhabited

namespace Span

/-- The largest offset that a span records. -/
def limit : Nat := UInt32.size - 1

/-- The span from `start` to `stop`, where an offset beyond the limit counts as the limit. -/
def ofRange (start stop : Nat) : Span := ⟨min start limit, min stop limit⟩

/-- The span used where nothing has been read yet. -/
def origin : Span := ⟨0, 0⟩

def point (offset : Nat) : Span := ⟨offset, offset⟩

def length (s : Span) : Nat := s.stop - s.start

def isEmpty (s : Span) : Bool := s.start == s.stop

/-- The smallest span that covers both. -/
def merge (s t : Span) : Span := ⟨min s.start t.start, max s.stop t.stop⟩

/-- The text under a span; nothing if the span is out of bounds or cuts a character. -/
def chars? (s : Span) (source : List Char) : Option (List Char) :=
  if s.start ≤ s.stop then
    (dropBytes source s.start).bind (takeBytes · (s.stop - s.start))
  else none

/-- The text under a span, empty where `chars?` finds none. -/
def snippet (s : Span) (source : List Char) : String :=
  String.ofList ((s.chars? source).getD [])

def text (s : Span) : String := toString s.start ++ ".." ++ toString s.stop

end Span

end PathCopy
