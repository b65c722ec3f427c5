import PathCopy.Proofs.Layout

/-!
Every text has a string literal in either quote, and this literal is read back as the text.
-/

namespace PathCopy

namespace Lexeme

open Pattern Computability

/-- One character inside a literal: the quote and the backslash stand after a backslash, and a line
end is written `\n`. -/
def escapeChar (quote c : Char) : List Char :=
  if c = quote ∨ c = '\\' then ['\\', c]
  else if c = '\n' then ['\\', 'n']
  else [c]

def escape (quote : Char) (text : List Char) : List Char := text.flatMap (escapeChar quote)

def literal (quote : Char) (text : List Char) : List Char := quote :: (escape quote text ++ [quote])

section Quote

variable {quote : Char}

theorem ne_backslash_of_quote (hquote : quote = '"' ∨ quote = '\'') : quote ≠ '\\' := by
  rcases hquote with rfl | rfl <;> decide

theorem ne_newline_of_quote (hquote : quote = '"' ∨ quote = '\'') : quote ≠ '\n' := by
  rcases hquote with rfl | rfl <;> decide

/-- What stands for one character is one part of a string, so it neither ends the string nor breaks
it off. -/
theorem escapeChar_mem (hquote : quote = '"' ∨ quote = '\'') (c : Char) :
    escapeChar quote c ∈ letter quote := by
  have hescaped : ∀ d, d ≠ '\n' → ['\\', d] ∈ letter quote := fun d hd =>
    Or.inr (Language.append_mem_mul (a := ['\\']) rfl (singleton_mem_oneOf.mpr (by simpa using hd)))
  unfold escapeChar
  split
  · rename_i hc
    refine hescaped c ?_
    rcases hc with rfl | rfl
    · exact ne_newline_of_quote hquote
    · decide
  · split
    · exact hescaped 'n' (by decide)
    · rename_i hc hline
      obtain ⟨hend, hslash⟩ := not_or.mp hc
      exact Or.inl (singleton_mem_oneOf.mpr (by simp [hend, hslash, hline]))

theorem escape_mem (hquote : quote = '"' ∨ quote = '\'') (text : List Char) :
    escape quote text ∈ (letter quote)∗ := by
  induction text with
  | nil => exact Language.nil_mem_kstar _
  | cons c text ih => exact cons_mem_kstar (escapeChar_mem hquote c) ih

theorem unescape_escapeChar (hquote : quote = '"' ∨ quote = '\'') (c : Char) (rest : List Char) :
    unescape (escapeChar quote c ++ rest) = c :: unescape rest := by
  unfold escapeChar
  split
  · rename_i hc
    -- Neither quote is a letter that names a control character after a backslash.
    rcases hc with rfl | rfl
    · rcases hquote with rfl | rfl <;> rfl
    · rfl
  · split
    · rename_i hline
      rw [hline]
      rfl
    · rename_i hc _
      simp [unescape, (not_or.mp hc).2]

theorem unescape_escape (hquote : quote = '"' ∨ quote = '\'') (text : List Char) :
    unescape (escape quote text) = text := by
  induction text with
  | nil => rfl
  | cons c text ih => rw [escape, List.flatMap_cons, unescape_escapeChar hquote, ← escape, ih]

theorem next?_literal (hquote : quote = '"' ∨ quote = '\'') (text rest : List Char) :
    next? quote (escape quote text ++ quote :: rest) =
      some (.string (String.ofList text), (escape quote text).length + 1) := by
  have hword : ¬ isWordStart quote := by rcases hquote with rfl | rfl <;> decide
  have htail := stringTail?_of_mem (ne_backslash_of_quote hquote) (escape_mem hquote text) rest
  rw [next?, if_neg hword, if_pos hquote, htail, Option.map_some, Nat.add_sub_cancel,
    List.take_left, unescape_escape hquote]

theorem spells_literal (hquote : quote = '"' ∨ quote = '\'') (text : List Char) :
    Spells (.string (String.ofList text)) (literal quote text) := by
  have hgap : gapTail? quote (escape quote text ++ [quote]) = none := by
    rcases hquote with rfl | rfl <;> rfl
  have hcomment : opensComment quote (escape quote text ++ [quote]) = false := by
    rcases hquote with rfl | rfl <;> rfl
  have hnext : Piece.next? quote (escape quote text ++ [quote]) =
      some (.lexeme (.string (String.ofList text)), (escape quote text).length + 1) := by
    rw [Piece.next?, hgap, hcomment, next?_literal hquote text []]
    rfl
  have hspells := spells_of_next? hnext
  rw [List.take_of_length_le (by simp)] at hspells
  exact hspells

end Quote

end Lexeme

/-- A literal is one string token, over all its bytes, and the token's text is the text that the
literal was made of. -/
theorem Token.ofSource_literal {quote : Char} (hquote : quote = '"' ∨ quote = '\'') (text : String)
    (names : NameTable) :
    ∃ name names' stop, stop = utf8Length (Lexeme.literal quote text.toList) ∧
      ofSource (String.ofList (Lexeme.literal quote text.toList)) names =
        .ok ([⟨.string name, .ofRange 0 stop⟩, ⟨.endOfInput, .ofRange stop stop⟩], names') ∧
      names'.lookup name = text := by
  have hspells := Lexeme.spells_literal hquote text.toList
  have hsource := ofSource_of_spells hspells names
  rw [String.ofList_toList] at hsource
  exact ⟨_, _, _, rfl, hsource, (names.knows_intern text).lookup⟩

def awkward : String := "\\'\"\\\\'\r\n\t\x00é€😀\\"

theorem Token.ofSource_literal_awkward :
    String.ofList (Lexeme.literal '\'' awkward.toList) =
        "'\\\\\\'\"\\\\\\\\\\'\r\\n\t\x00é€😀\\\\'" ∧
      ∃ name names' stop, stop = utf8Length (Lexeme.literal '\'' awkward.toList) ∧
        ofSource "'\\\\\\'\"\\\\\\\\\\'\r\\n\t\x00é€😀\\\\'" .initial =
          .ok ([⟨.string name, .ofRange 0 stop⟩, ⟨.endOfInput, .ofRange stop stop⟩], names') ∧
        names'.lookup name = awkward := by
  have hliteral : String.ofList (Lexeme.literal '\'' awkward.toList) =
      "'\\\\\\'\"\\\\\\\\\\'\r\\n\t\x00é€😀\\\\'" := by decide +kernel
  have hquote : '\'' = '"' ∨ '\'' = '\'' := .inr rfl
  have hread := ofSource_literal hquote awkward .initial
  rw [hliteral] at hread
  exact ⟨hliteral, hread⟩

end PathCopy
