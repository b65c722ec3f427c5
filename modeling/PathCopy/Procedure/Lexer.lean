import PathCopy.Procedure.Lexeme

/-!
From source text to tokens: the lexemes in order, with the texts of identifiers and strings
interned, and one end-of-input token after them.
-/

namespace PathCopy

namespace Token

def ofLexeme (names : NameTable) (lexeme : Lexeme) (span : Span) : Token × NameTable :=
  match lexeme with
  | .number x => (⟨.number x.toBits, span⟩, names)
  | .string text =>
    let (name, names) := names.intern text
    (⟨.string name, span⟩, names)
  | .word text =>
    let (name, names) := names.intern text
    (⟨.ident name, span⟩, names)
  | .keyword k => (⟨.keyword k, span⟩, names)
  | .symbol s => (⟨.symbol s, span⟩, names)

def ofLexemes (names : NameTable) : List (Lexeme × Span) → List Token × NameTable
  | [] => ([], names)
  | (lexeme, span) :: rest =>
    let (token, names) := ofLexeme names lexeme span
    let (tokens, names) := ofLexemes names rest
    (token :: tokens, names)

/-- The tokens of a source text, the last one being the end of input, and the texts in them. -/
def ofSource (source : String) (names : NameTable) : Except LexError (List Token × NameTable) :=
  (Lexeme.scan source.toList 0).map fun lexemes =>
    let (tokens, names) := ofLexemes names lexemes
    let stop := utf8Length source.toList
    (tokens ++ [⟨.endOfInput, Span.ofRange stop stop⟩], names)

end Token

end PathCopy
