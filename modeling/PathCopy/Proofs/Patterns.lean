import Mathlib.Computability.Language
import Mathlib.Data.List.TakeWhile
import PathCopy.Procedure.Lexer

/-!
The texts of tokens and of the gaps between them, as languages. Each text that the scanner takes is in
the language of its lexeme, and where the scanner takes nothing the text goes on with no word of any
of them.
-/

namespace PathCopy

open Computability

/-! ### Languages of characters -/

namespace Pattern

def oneOf (p : Char → Bool) : Language Char := {text | ∃ c, p c ∧ text = [c]}

/-- One or more characters of a class. -/
def many (p : Char → Bool) : Language Char := oneOf p * (oneOf p)∗

def optional (pattern : Language Char) : Language Char := 1 + pattern

def fraction : Language Char := {['.']} * many Char.isDigit

def exponent : Language Char :=
  oneOf (fun c => c = 'e' || c = 'E') * optional (oneOf fun c => c = '-' || c = '+') *
    many Char.isDigit

def decimal : Language Char :=
  many Char.isDigit * optional fraction * optional exponent + fraction * optional exponent

def hexadecimal : Language Char :=
  {['0']} * oneOf (fun c => c = 'x' || c = 'X') * many Lexeme.isHexDigit

/-- What may stand in a string between its quotes: a plain character, or any after a backslash. -/
def letter (quote : Char) : Language Char :=
  oneOf (fun c => c ≠ quote && c ≠ '\\' && c ≠ '\n') + {['\\']} * oneOf (· ≠ '\n')

def quoted (quote : Char) : Language Char := {[quote]} * (letter quote)∗ * {[quote]}

def word : Language Char := oneOf Lexeme.isWordStart * (oneOf Lexeme.isWordPart)∗

section Classes

variable {p : Char → Bool} {c : Char} {text : List Char}

theorem mem_oneOf : text ∈ oneOf p ↔ ∃ c, p c ∧ text = [c] := Iff.rfl

@[simp] theorem singleton_mem_oneOf : [c] ∈ oneOf p ↔ p c := by
  simp [mem_oneOf]

@[simp] theorem mem_literal {literal : List Char} :
    text ∈ ({literal} : Language Char) ↔ text = literal := Iff.rfl

theorem mem_kstar_oneOf : text ∈ (oneOf p)∗ ↔ ∀ c ∈ text, p c := by
  constructor
  · rintro ⟨parts, rfl, hparts⟩ c hc
    obtain ⟨part, hpart, hc⟩ := List.mem_flatten.mp hc
    obtain ⟨d, hd, rfl⟩ := hparts part hpart
    rwa [List.mem_singleton.mp hc]
  · intro h
    have hsplit : (text.map fun c => [c]).flatten = text := by
      rw [← List.flatMap_def, List.flatMap_singleton']
    rw [← hsplit]
    refine Language.join_mem_kstar fun part hpart => ?_
    obtain ⟨c, hc, rfl⟩ := List.mem_map.mp hpart
    exact singleton_mem_oneOf.mpr (h c hc)

theorem cons_mem_many (hc : p c) (htext : ∀ d ∈ text, p d) : c :: text ∈ many p :=
  Language.append_mem_mul (singleton_mem_oneOf.mpr hc) (mem_kstar_oneOf.mpr htext)

theorem mem_many : text ∈ many p ↔ text ≠ [] ∧ ∀ c ∈ text, p c := by
  constructor
  · rintro ⟨_, ⟨c, hc, rfl⟩, rest, hrest, rfl⟩
    refine ⟨by simp, ?_⟩
    simpa [hc] using mem_kstar_oneOf.mp hrest
  · rintro ⟨hne, h⟩
    cases text with
    | nil => exact absurd rfl hne
    | cons c text =>
        obtain ⟨hc, htext⟩ := List.forall_mem_cons.mp h
        exact cons_mem_many hc htext

theorem takeWhile_mem_many (h : text.takeWhile p ≠ []) : text.takeWhile p ∈ many p :=
  mem_many.mpr ⟨h, fun _ hc => List.mem_takeWhile_imp hc⟩

theorem nil_mem_optional {pattern : Language Char} : [] ∈ optional pattern := Or.inl rfl

theorem mem_optional_of_mem {pattern : Language Char} (h : text ∈ pattern) :
    text ∈ optional pattern := Or.inr h

end Classes

end Pattern

/-- The texts that a token of a kind may have. No text is invalid, and the end of the input has none. -/
def TokenKind.pattern : TokenKind → Language Char
  | .number _ => Pattern.decimal + Pattern.hexadecimal
  | .string _ => Pattern.quoted '"' + Pattern.quoted '\''
  | .ident _ => {text | text ∈ Pattern.word ∧ Keyword.ofText? (String.ofList text) = none}
  | .keyword k => {k.text.toList}
  | .symbol s => {s.chars}
  | .invalid => 0
  | .endOfInput => 0

namespace Lexeme

open Pattern

/-! ### The parts of a number -/

theorem take_length_takeWhile (p : Char → Bool) (cs : List Char) :
    cs.take (cs.takeWhile p).length = cs.takeWhile p :=
  (List.prefix_iff_eq_take.mp (List.takeWhile_prefix p)).symm

theorem drop_length_takeWhile (p : Char → Bool) (cs : List Char) :
    cs.drop (cs.takeWhile p).length = cs.dropWhile p := by
  have h := @List.drop_left _ (cs.takeWhile p) (cs.dropWhile p)
  rwa [List.takeWhile_append_dropWhile] at h

theorem take_fractionLength {cs : List Char} (h : fractionLength cs ≠ 0) :
    cs.take (fractionLength cs) ∈ fraction := by
  unfold fractionLength at h ⊢
  split at h
  · rename_i ds
    by_cases hdigits : (ds.takeWhile Char.isDigit).length = 0
    · simp [hdigits] at h
    · simp only [if_neg hdigits, List.take_succ_cons, take_length_takeWhile]
      have hne : ds.takeWhile Char.isDigit ≠ [] := by simpa using hdigits
      exact Language.append_mem_mul (a := ['.']) rfl (takeWhile_mem_many hne)
  · exact absurd rfl h

theorem take_fractionLength_optional (cs : List Char) :
    cs.take (fractionLength cs) ∈ optional fraction := by
  by_cases h : fractionLength cs = 0
  · rw [h]
    exact nil_mem_optional
  · exact mem_optional_of_mem (take_fractionLength h)

theorem readExponent?_some {cs rest : List Char} {x : Int}
    (h : Number.readExponent? cs = some (x, rest)) : ∃ text ∈ exponent, cs = text ++ rest := by
  cases cs with
  | nil => cases h
  | cons m cs =>
      simp only [Number.readExponent?] at h
      split at h
      · rename_i hmark
        -- What remains to be read after the sign, whichever sign it is.
        have hdigits : ∀ sign ∈ optional (oneOf fun c => c = '-' || c = '+'), ∀ ds (n : Int),
            (if (ds.takeWhile Char.isDigit).isEmpty then none
              else some (n, ds.dropWhile Char.isDigit)) = some (x, rest) →
            ∃ text ∈ exponent, m :: (sign ++ ds) = text ++ rest := by
          intro sign hsign ds n hread
          split at hread
          · cases hread
          · rename_i hne
            cases hread
            refine ⟨[m] ++ sign ++ ds.takeWhile Char.isDigit, ?_, ?_⟩
            · refine Language.append_mem_mul (Language.append_mem_mul ?_ hsign)
                (takeWhile_mem_many (by simpa using hne))
              simpa using hmark
            · simp [List.takeWhile_append_dropWhile]
        split at h
        · exact hdigits ['-'] (mem_optional_of_mem (by simp)) _ _ h
        · exact hdigits ['+'] (mem_optional_of_mem (by simp)) _ _ h
        · exact hdigits [] nil_mem_optional _ _ h
      · cases h

theorem take_exponentLength (cs : List Char) :
    cs.take (exponentLength cs) ∈ optional exponent := by
  unfold exponentLength
  split
  · rename_i rest hread
    obtain ⟨text, htext, rfl⟩ := readExponent?_some hread
    rw [List.length_append, Nat.add_sub_cancel, List.take_left]
    exact mem_optional_of_mem htext
  · exact nil_mem_optional

theorem numberTail?_mem {c : Char} {cs : List Char} {n : Nat} (h : numberTail? c cs = some n) :
    c :: cs.take n ∈ decimal := by
  unfold numberTail? at h
  split at h
  · rename_i hc
    cases h
    left
    rw [List.take_add, List.take_add, take_length_takeWhile, ← List.cons_append,
      ← List.cons_append]
    refine Language.append_mem_mul (Language.append_mem_mul ?_ ?_) (take_exponentLength _)
    · exact cons_mem_many hc fun _ hd => List.mem_takeWhile_imp hd
    · exact take_fractionLength_optional _
  · split at h
    · rename_i hpoint
      by_cases hfraction : fractionLength (c :: cs) - 1 = 0
      · simp only [hfraction, if_true] at h
        cases h
      · simp only [if_neg hfraction] at h
        cases h
        right
        have hlength : fractionLength (c :: cs) = (fractionLength (c :: cs) - 1) + 1 := by omega
        have hne : fractionLength (c :: cs) ≠ 0 := by omega
        have htext := take_fractionLength hne
        rw [hlength, List.take_succ_cons] at htext
        rw [List.take_add, ← List.cons_append]
        exact Language.append_mem_mul htext (take_exponentLength _)
    · cases h

theorem hexTail?_mem {c : Char} {cs : List Char} {n : Nat} (h : hexTail? c cs = some n) :
    c :: cs.take n ∈ hexadecimal := by
  unfold hexTail? at h
  split at h
  · rename_i x ds
    obtain ⟨hx, hn⟩ := Option.ite_none_right_eq_some.mp h
    cases hn
    rw [List.take_succ_cons, take_length_takeWhile]
    have hne : ds.takeWhile isHexDigit ≠ [] := by simpa using hx.2
    refine Language.append_mem_mul (a := ['0', x]) ?_ (takeWhile_mem_many hne)
    exact Language.append_mem_mul (a := ['0']) rfl (by simpa using hx.1)
  · cases h

/-! ### Strings -/

section Strings

variable {quote : Char} {cs : List Char}

theorem cons_mem_kstar {pattern : Language Char} {part text : List Char} (hpart : part ∈ pattern)
    (htext : text ∈ pattern∗) : part ++ text ∈ pattern∗ := by
  obtain ⟨parts, rfl, hparts⟩ := htext
  exact ⟨part :: parts, rfl, List.forall_mem_cons.mpr ⟨hpart, hparts⟩⟩

theorem stringTail?_some {n : Nat} (h : stringTail? quote cs = some n) :
    ∃ body ∈ (letter quote)∗, cs.take n = body ++ [quote] := by
  fun_induction stringTail? quote cs generalizing n with
  | case1 => cases h
  | case2 c cs hc ih =>
      obtain ⟨n, hn, rfl⟩ := Option.map_eq_some_iff.mp h
      obtain ⟨body, hbody, htake⟩ := ih hn
      refine ⟨['\\', c] ++ body, cons_mem_kstar (Or.inr ?_) hbody, by simp [htake]⟩
      exact Language.append_mem_mul (a := ['\\']) rfl (by simpa using hc)
  | case3 =>
      cases h
      exact ⟨[], Language.nil_mem_kstar _, rfl⟩
  | case4 c cs hescape hquote hbad => cases h
  | case5 c cs hescape hquote hplain ih =>
      obtain ⟨n, hn, rfl⟩ := Option.map_eq_some_iff.mp h
      obtain ⟨body, hbody, htake⟩ := ih hn
      refine ⟨[c] ++ body, cons_mem_kstar (Or.inl ?_) hbody, by simp [htake]⟩
      simp only [Bool.or_eq_true, decide_eq_true_eq, not_or] at hplain
      exact singleton_mem_oneOf.mpr (by simp [hquote, hplain])
  | case6 => cases h

/-- The end of a string is found wherever there is one. -/
theorem stringTail?_of_mem (hquote : quote ≠ '\\') {body : List Char}
    (hbody : body ∈ (letter quote)∗) (rest : List Char) :
    stringTail? quote (body ++ quote :: rest) = some (body.length + 1) := by
  obtain ⟨parts, rfl, hparts⟩ := hbody
  induction parts with
  | nil => simp [stringTail?, hquote]
  | cons part parts ih =>
      obtain ⟨hpart, hrest⟩ := List.forall_mem_cons.mp hparts
      have hfound := ih hrest
      rcases hpart with ⟨c, hc, rfl⟩ | ⟨_, rfl, _, ⟨c, hc, rfl⟩, rfl⟩
      · simp only [Bool.and_eq_true, decide_eq_true_eq] at hc
        have hstep : stringTail? quote (c :: (parts.flatten ++ quote :: rest)) =
            (stringTail? quote (parts.flatten ++ quote :: rest)).map (· + 1) := by
          simp [stringTail?, hc]
        simp [hstep, hfound]
      · simp only [decide_eq_true_eq] at hc
        simp [stringTail?, hc, hfound]

theorem stringTail?_none (hquote : quote ≠ '\\') (h : stringTail? quote cs = none)
    {text rest : List Char} (hcs : cs = text ++ rest) : quote :: text ∉ quoted quote := by
  rintro ⟨_, ⟨_, rfl, body, hbody, rfl⟩, _, rfl, htext⟩
  obtain rfl : text = body ++ [quote] := by simpa using htext.symm
  have hfound := stringTail?_of_mem hquote hbody rest
  rw [hcs, List.append_assoc, List.singleton_append, hfound] at h
  cases h

end Strings

/-! ### The text of a lexeme -/

section Texts

variable (names : NameTable) (span : Span)

theorem text_of_ofText? {text : String} {k : Keyword} (h : Keyword.ofText? text = some k) :
    k.text = text := by
  simpa using List.find?_some h

theorem mem_pattern_ofWord {text : List Char} (h : text ∈ Pattern.word) :
    text ∈ (Token.ofLexeme names (ofWord (String.ofList text)) span).1.kind.pattern := by
  unfold ofWord
  split
  · rename_i k hk
    show text = k.text.toList
    rw [text_of_ofText? hk, String.toList_ofList]
  · rename_i hnone
    exact ⟨h, hnone⟩

theorem chars_of_ofPair? {c d : Char} {s : Symbol} (h : Symbol.ofPair? c d = some s) :
    s.chars = [c, d] := by
  unfold Symbol.ofPair? at h
  split at h <;> cases h <;> rfl

theorem chars_of_ofChar? {c : Char} {s : Symbol} (h : Symbol.ofChar? c = some s) :
    s.chars = [c] := by
  unfold Symbol.ofChar? at h
  split at h <;> cases h <;> rfl

/-- What the scanner takes for a lexeme is a text that its token may have. -/
theorem next?_mem {c : Char} {cs : List Char} {l : Lexeme} {n : Nat}
    (h : next? c cs = some (l, n)) :
    c :: cs.take n ∈ (Token.ofLexeme names l span).1.kind.pattern := by
  unfold next? at h
  -- The cases come in the order in which `next?` tries its readers.
  split at h
  · rename_i hc
    obtain ⟨rfl, rfl⟩ := Prod.mk.inj (Option.some.inj h)
    rw [take_length_takeWhile]
    refine mem_pattern_ofWord names span (Language.append_mem_mul (singleton_mem_oneOf.mpr hc) ?_)
    exact mem_kstar_oneOf.mpr fun _ hd => List.mem_takeWhile_imp hd
  split at h
  · rename_i hquote
    obtain ⟨n, htail, h⟩ := Option.map_eq_some_iff.mp h
    cases h
    obtain ⟨body, hbody, htake⟩ := stringTail?_some htail
    have hmem : c :: cs.take n ∈ quoted c := by
      rw [htake, ← List.cons_append]
      exact Language.append_mem_mul (Language.append_mem_mul (a := [c]) rfl hbody) rfl
    rcases hquote with rfl | rfl
    · exact Or.inl hmem
    · exact Or.inr hmem
  split at h
  · rename_i hhex
    cases h
    exact Or.inr (hexTail?_mem hhex)
  split at h
  · rename_i hnumber
    cases h
    exact Or.inl (numberTail?_mem hnumber)
  split at h
  · rename_i s hpair
    cases h
    obtain ⟨d, hd, hpair⟩ := Option.bind_eq_some_iff.mp hpair
    obtain ⟨ds, rfl⟩ : ∃ ds, cs = d :: ds := by
      cases cs with
      | nil => cases hd
      | cons e ds => cases hd; exact ⟨ds, rfl⟩
    exact (chars_of_ofPair? hpair).symm
  · obtain ⟨s, hs, h⟩ := Option.map_eq_some_iff.mp h
    cases h
    exact (chars_of_ofChar? hs).symm

end Texts

/-! ### Where no lexeme begins -/

def Opens (c : Char) : Prop :=
  isWordStart c ∨ c = '"' ∨ c = '\'' ∨ c.isDigit ∨ (Symbol.ofChar? c).isSome

section Openings

variable {c : Char} {text : List Char}

theorem first_of_mem_mul {l m : Language Char} {p : Char → Prop} (h : c :: text ∈ l * m)
    (hl : ∀ word ∈ l, ∃ d ds, word = d :: ds ∧ p d) : p c := by
  obtain ⟨a, ha, b, -, hab⟩ := h
  obtain ⟨d, ds, rfl, hd⟩ := hl a ha
  obtain ⟨rfl, -⟩ := List.cons.inj hab
  exact hd

theorem first_of_mem_many {p : Char → Bool} : ∀ word ∈ many p, ∃ d ds, word = d :: ds ∧ p d := by
  rintro _ ⟨_, ⟨d, hd, rfl⟩, ds, -, rfl⟩
  exact ⟨d, ds, rfl, hd⟩

theorem first_of_mem_literal {p : Char → Prop} {d : Char} (hd : p d) :
    ∀ word ∈ ({[d]} : Language Char), ∃ e es, word = e :: es ∧ p e := by
  rintro _ rfl
  exact ⟨d, [], rfl, hd⟩

theorem isDigit_or_of_mem_decimal (h : c :: text ∈ decimal) : c.isDigit ∨ c = '.' := by
  rcases h with h | h
  · rw [mul_assoc] at h
    exact Or.inl (first_of_mem_mul h first_of_mem_many)
  · rw [fraction, mul_assoc] at h
    exact Or.inr (first_of_mem_mul (p := (· = '.')) h (first_of_mem_literal rfl))

theorem isDigit_of_mem_hexadecimal (h : c :: text ∈ hexadecimal) : c.isDigit := by
  rw [hexadecimal, mul_assoc] at h
  exact first_of_mem_mul h (first_of_mem_literal (p := fun c => c.isDigit) (by decide))

theorem eq_of_mem_quoted {quote : Char} (h : c :: text ∈ quoted quote) : c = quote := by
  rw [quoted, mul_assoc] at h
  exact first_of_mem_mul (p := (· = quote)) h (first_of_mem_literal rfl)

theorem isWordStart_of_mem_word (h : c :: text ∈ Pattern.word) : isWordStart c := by
  refine first_of_mem_mul (p := fun c => isWordStart c) h ?_
  rintro _ ⟨d, hd, rfl⟩
  exact ⟨d, [], rfl, hd⟩

theorem keyword_isWordStart (k : Keyword) :
    ∃ c text, k.text.toList = c :: text ∧ isWordStart c := by
  cases k <;> exact ⟨_, _, rfl, rfl⟩

theorem symbol_isSome {s : Symbol} (h : s.chars = c :: text) : (Symbol.ofChar? c).isSome := by
  cases s <;> cases h <;> rfl

theorem opens_of_mem_pattern {kind : TokenKind} (h : c :: text ∈ kind.pattern) : Opens c := by
  cases kind with
  | number bits =>
      rcases h with h | h
      · rcases isDigit_or_of_mem_decimal h with hc | rfl
        · exact Or.inr (Or.inr (Or.inr (Or.inl hc)))
        · exact Or.inr (Or.inr (Or.inr (Or.inr rfl)))
      · exact Or.inr (Or.inr (Or.inr (Or.inl (isDigit_of_mem_hexadecimal h))))
  | string name =>
      rcases h with h | h
      · exact Or.inr (Or.inl (eq_of_mem_quoted h))
      · exact Or.inr (Or.inr (Or.inl (eq_of_mem_quoted h)))
  | ident name => exact Or.inl (isWordStart_of_mem_word h.1)
  | keyword k =>
      obtain ⟨d, ds, hk, hd⟩ := keyword_isWordStart k
      obtain ⟨rfl, -⟩ := List.cons.inj (hk.symm.trans (mem_literal.mp h).symm)
      exact Or.inl hd
  | symbol s => exact Or.inr (Or.inr (Or.inr (Or.inr (symbol_isSome (mem_literal.mp h).symm))))
  | invalid => exact absurd h (Language.notMem_zero _)
  | endOfInput => exact absurd h (Language.notMem_zero _)

theorem stringTail?_of_next? {cs : List Char} (h : next? c cs = none)
    (hquote : c = '"' ∨ c = '\'') : stringTail? c cs = none := by
  have hword : ¬ isWordStart c := by rcases hquote with rfl | rfl <;> decide
  simpa [next?, hword, hquote] using h

/-- Where the scanner takes no lexeme, a string may begin, but nothing else. -/
theorem not_opens_of_next? {cs : List Char} (h : next? c cs = none) (hdouble : c ≠ '"')
    (hsingle : c ≠ '\'') : ¬ Opens c := by
  unfold next? at h
  split at h
  · cases h
  rename_i hword
  split at h
  · rename_i hquote
    exact absurd hquote (by simp [hdouble, hsingle])
  split at h
  · cases h
  split at h
  · cases h
  rename_i hnumber
  split at h
  · cases h
  rename_i hpair
  have hsymbol : Symbol.ofChar? c = none := Option.map_eq_none_iff.mp h
  have hdigit : ¬ c.isDigit := by
    intro hc
    simp [numberTail?, hc] at hnumber
  simp [Opens, hword, hdouble, hsingle, hdigit, hsymbol]

end Openings

end Lexeme

end PathCopy
