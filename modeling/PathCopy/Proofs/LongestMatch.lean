import PathCopy.Proofs.Patterns

/-!
The scanner takes the longest match: no text of any token that stands where a lexeme was taken is
longer than it.
-/

namespace PathCopy

namespace Lexeme

open Pattern

variable {c : Char} {cs text : List Char} {n : Nat}

/-! ### Numbers -/

/-- A row of characters of a class with something else after it goes on with the class as long as it
can, unless it stops there. -/
theorem takeWhile_of_prefix {p : Char → Bool} {ds rest : List Char} (h : ds ++ rest <+: cs)
    (hds : ∀ c ∈ ds, p c) (hrest : ∀ c ∈ rest.head?, ¬ p c) :
    rest = [] ∧ ds.length ≤ (cs.takeWhile p).length ∨
      ds = cs.takeWhile p ∧ rest <+: cs.dropWhile p := by
  induction ds generalizing cs with
  | nil =>
      cases rest with
      | nil => exact .inl ⟨rfl, Nat.zero_le _⟩
      | cons c rest =>
          obtain ⟨tail, rfl⟩ := h
          have hc : ¬ p c := hrest c rfl
          right
          simp [hc]
  | cons d ds ih =>
      obtain ⟨tail, rfl⟩ := h
      obtain ⟨hd, hds⟩ := List.forall_mem_cons.mp hds
      have hrest : ds ++ rest <+: ds ++ rest ++ tail := ⟨tail, rfl⟩
      simpa [hd] using ih hrest hds

theorem length_le_of_many {p : Char → Bool} {m : Language Char} {k : Nat}
    (h : text ∈ many p * m) (hbegins : text <+: cs) (hm : ∀ c word, c :: word ∈ m → ¬ p c)
    (hk : ∀ word ∈ m, word <+: cs.dropWhile p → word.length ≤ k) :
    text.length ≤ (cs.takeWhile p).length + k := by
  obtain ⟨ds, hds, rest, hrest, rfl⟩ := h
  have hfirst : ∀ c ∈ rest.head?, ¬ p c := by
    intro c hc
    obtain ⟨word, rfl⟩ := List.head?_eq_some_iff.mp hc
    exact hm c word hrest
  rcases takeWhile_of_prefix hbegins (mem_many.mp hds).2 hfirst with ⟨rfl, hle⟩ | ⟨rfl, hdrop⟩
  · simp only [List.append_nil]
    omega
  · have := hk rest hrest hdrop
    simp only [List.length_append]
    omega

theorem readExponent?_of_digit {m d : Char} {sign rest : List Char} (hm : m = 'e' ∨ m = 'E')
    (hsign : sign ∈ optional (oneOf fun c => c = '-' || c = '+')) (hd : d.isDigit) :
    ∃ x, Number.readExponent? (m :: (sign ++ d :: rest)) = some (x, rest.dropWhile Char.isDigit) := by
  have hminus : d ≠ '-' := by rintro rfl; cases hd
  have hplus : d ≠ '+' := by rintro rfl; cases hd
  rcases hsign with rfl | ⟨e, he, rfl⟩
  · simp [Number.readExponent?, hm, hminus, hplus, hd]
  · simp only [Bool.or_eq_true, decide_eq_true_eq] at he
    rcases he with rfl | rfl <;> simp [Number.readExponent?, hm, hd]

theorem length_le_exponentLength (h : text ∈ optional exponent) (hbegins : text <+: cs) :
    text.length ≤ exponentLength cs := by
  rcases h with rfl | ⟨_, ⟨_, ⟨m, hm, rfl⟩, sign, hsign, rfl⟩, ds, hds, rfl⟩
  · exact Nat.zero_le _
  obtain ⟨tail, rfl⟩ := hbegins
  obtain ⟨d, ds, rfl, hd⟩ := first_of_mem_many ds hds
  obtain ⟨x, hx⟩ : ∃ x, Number.readExponent? (m :: (sign ++ d :: (ds ++ tail))) =
      some (x, (ds ++ tail).dropWhile Char.isDigit) :=
    readExponent?_of_digit (by simpa using hm) hsign hd
  have hdigits : ∀ c ∈ ds, c.isDigit := fun c hc =>
    (mem_many.mp hds).2 c (List.mem_cons_of_mem _ hc)
  have hdrop : ((ds ++ tail).dropWhile Char.isDigit).length ≤ tail.length := by
    rw [List.dropWhile_append_of_pos hdigits]
    exact (List.dropWhile_suffix _).length_le
  simp only [List.append_assoc, List.cons_append, List.nil_append, exponentLength, hx]
  simp only [List.length_cons, List.length_append] at hdrop ⊢
  omega

theorem mark_of_mem_exponent {word : List Char} (h : c :: word ∈ optional exponent) :
    c = 'e' ∨ c = 'E' := by
  rcases h with h | h
  · cases h
  · rw [exponent, mul_assoc] at h
    refine first_of_mem_mul (p := fun c => c = 'e' ∨ c = 'E') h ?_
    rintro _ ⟨d, hd, rfl⟩
    exact ⟨d, [], rfl, by simpa using hd⟩

theorem not_isDigit_of_mem_exponent {word : List Char} (h : c :: word ∈ optional exponent) :
    ¬ c.isDigit := by
  rcases mark_of_mem_exponent h with rfl | rfl <;> decide

theorem length_le_fractionLength (h : text ∈ optional fraction * optional exponent)
    (hbegins : text <+: cs) :
    text.length ≤ fractionLength cs + exponentLength (cs.drop (fractionLength cs)) := by
  obtain ⟨point, hpoint, rest, hrest, rfl⟩ := h
  rcases hpoint with rfl | ⟨_, rfl, ds, hds, rfl⟩
  · have hnone : rest = [] ∨ fractionLength cs = 0 := by
      cases rest with
      | nil => exact .inl rfl
      | cons m rest =>
          obtain ⟨tail, rfl⟩ := hbegins
          right
          rcases mark_of_mem_exponent hrest with rfl | rfl <;> rfl
    rcases hnone with rfl | hnone
    · exact Nat.zero_le _
    · rw [hnone, Nat.zero_add, List.drop_zero]
      exact length_le_exponentLength hrest hbegins
  · obtain ⟨tail, rfl⟩ := hbegins
    have hne : ((ds ++ rest ++ tail).takeWhile Char.isDigit).length ≠ 0 := by
      obtain ⟨d, ds, rfl, hd⟩ := first_of_mem_many ds hds
      simp [hd]
    have hlength := length_le_of_many (Language.append_mem_mul hds hrest)
      (List.prefix_append (ds ++ rest) tail) (fun c word => not_isDigit_of_mem_exponent)
      (fun word => length_le_exponentLength)
    have hfraction : fractionLength ('.' :: (ds ++ rest ++ tail)) =
        ((ds ++ rest ++ tail).takeWhile Char.isDigit).length + 1 := by
      simp only [fractionLength, if_neg hne]
    rw [← drop_length_takeWhile] at hlength
    simp only [List.cons_append, List.nil_append, hfraction, List.drop_succ_cons, List.length_cons]
    omega

theorem first_of_fraction_exponent {word : List Char}
    (h : c :: word ∈ optional fraction * optional exponent) : ¬ c.isDigit := by
  obtain ⟨_ | ⟨d, point⟩, hpoint, rest, hrest, hword⟩ := h
  · obtain rfl : rest = c :: word := hword
    exact not_isDigit_of_mem_exponent hrest
  · obtain ⟨rfl, -⟩ := List.cons.inj hword
    rcases hpoint with h | ⟨_, rfl, _, -, h⟩
    · cases h
    · obtain ⟨rfl, -⟩ := List.cons.inj h
      decide

/-- Where a decimal stands, the scanner finds one that is at least as long. -/
theorem numberTail?_longest (h : c :: text ∈ decimal) (hbegins : text <+: cs) :
    ∃ n, numberTail? c cs = some n ∧ text.length ≤ n := by
  rcases h with h | h
  · rw [mul_assoc] at h
    have hc : c.isDigit := first_of_mem_mul h first_of_mem_many
    have hcons : c :: text <+: c :: cs := List.cons_prefix_cons.mpr ⟨rfl, hbegins⟩
    have hlength := length_le_of_many h hcons (fun d word => first_of_fraction_exponent)
      fun word => length_le_fractionLength
    rw [List.takeWhile_cons_of_pos hc, List.dropWhile_cons_of_pos hc, ← drop_length_takeWhile,
      List.drop_drop] at hlength
    refine ⟨_, by rw [numberTail?, if_pos hc], ?_⟩
    simp only [List.length_cons] at hlength
    omega
  · obtain ⟨_, ⟨_, rfl, ds, hds, rfl⟩, rest, hrest, htext⟩ := h
    obtain ⟨rfl, rfl⟩ : '.' = c ∧ ds ++ rest = text := List.cons.inj htext
    obtain ⟨tail, rfl⟩ := hbegins
    have hne : ((ds ++ rest ++ tail).takeWhile Char.isDigit).length ≠ 0 := by
      obtain ⟨d, ds, rfl, hd⟩ := first_of_mem_many ds hds
      simp [hd]
    obtain ⟨k, hk, hfraction⟩ : ∃ k, k ≠ 0 ∧ fractionLength ('.' :: (ds ++ rest ++ tail)) = k + 1 :=
      ⟨_, hne, by simp only [fractionLength, if_neg hne]⟩
    have hlength := length_le_fractionLength
      ⟨'.' :: ds, Or.inr (Language.append_mem_mul (a := ['.']) rfl hds), rest, hrest, rfl⟩
      (List.prefix_append ('.' :: (ds ++ rest)) tail)
    have hnext : numberTail? '.' (ds ++ rest ++ tail) =
        some (k + exponentLength ((ds ++ rest ++ tail).drop k)) := by
      have hdigit : ¬ '.'.isDigit := by decide
      simp only [numberTail?, if_neg hdigit, if_true, hfraction, Nat.add_sub_cancel, if_neg hk]
    refine ⟨_, hnext, ?_⟩
    rw [List.cons_append, hfraction, List.drop_succ_cons] at hlength
    simp only [List.cons_append, List.length_cons] at hlength
    omega

theorem hexTail?_longest (h : c :: text ∈ hexadecimal) (hbegins : text <+: cs) :
    ∃ n, hexTail? c cs = some n ∧ text.length ≤ n := by
  rw [hexadecimal, mul_assoc] at h
  obtain ⟨_, rfl, _, ⟨_, ⟨x, hx, rfl⟩, ds, hds, rfl⟩, htext⟩ := h
  obtain ⟨rfl, rfl⟩ : '0' = c ∧ x :: ds = text := List.cons.inj htext
  obtain ⟨tail, rfl⟩ := hbegins
  obtain ⟨hne, hdigits⟩ := mem_many.mp hds
  have hlength : ds.length ≤ ((ds ++ tail).takeWhile isHexDigit).length := by
    rw [List.takeWhile_append_of_pos hdigits, List.length_append]
    exact Nat.le_add_right ..
  have hpos := List.length_pos_iff.mpr hne
  have hnext : hexTail? '0' (x :: (ds ++ tail)) =
      some (((ds ++ tail).takeWhile isHexDigit).length + 1) :=
    if_pos ⟨by simpa using hx, by omega⟩
  refine ⟨_, hnext, ?_⟩
  simp only [List.length_cons]
  omega

/-- A hexadecimal number begins with a decimal that is no longer. -/
theorem numberTail?_of_hexTail? (h : hexTail? c cs = some n) : numberTail? c cs = some 0 := by
  unfold hexTail? at h
  split at h
  · rename_i x ds
    obtain ⟨⟨rfl | rfl, -⟩, -⟩ := Option.ite_none_right_eq_some.mp h <;> rfl
  · cases h

/-! ### Words and symbols -/

theorem not_isWordStart_of_isDigit (h : c.isDigit) : ¬ isWordStart c := by
  intro hword
  have hdigit : c.toNat ≤ 57 := (Char.isDigit_iff_toNat.mp h).2
  simp only [isWordStart, Bool.or_eq_true, beq_iff_eq] at hword
  rcases hword with (hletter | rfl) | rfl
  · rcases Bool.or_eq_true_iff.mp hletter with hupper | hlower
    · have hle : 65 ≤ c.toNat := (of_decide_eq_true hupper).1
      omega
    · have hle : 97 ≤ c.toNat := of_decide_eq_true (Bool.and_eq_true_iff.mp hlower).1
      omega
  · cases h
  · cases h

/-- A symbol is one character, or a pair that is no other token. -/
theorem symbol_cases {s : Symbol} (h : s.chars = c :: text) :
    text = [] ∨ ∃ d, text = [d] ∧ Symbol.ofPair? c d = some s := by
  cases s <;> cases h <;> first | exact .inl rfl | exact .inr ⟨_, rfl, rfl⟩

/-- No number begins like a symbol of two characters. -/
theorem next?_of_ofPair? {d : Char} {s : Symbol} (h : Symbol.ofPair? c d = some s)
    (cs : List Char) : ¬ isWordStart c ∧ ¬ (c = '"' ∨ c = '\'') ∧ hexTail? c cs = none ∧
      numberTail? c cs = none := by
  have hfirst : c ∈ ['=', '+', '-', '*', '/', '%'] := by
    unfold Symbol.ofPair? at h
    split at h <;> first | cases h; decide | cases h
  simp only [List.mem_cons, List.not_mem_nil, or_false] at hfirst
  rcases hfirst with rfl | rfl | rfl | rfl | rfl | rfl <;>
    exact ⟨by decide, by decide, rfl, rfl⟩

theorem isWordPart_of_keyword (k : Keyword) : ∀ c ∈ k.text.toList, isWordPart c := by
  have hall : k.text.toList.all isWordPart := by
    cases k <;> decide
  exact List.all_eq_true.mp hall

theorem not_isWordStart_of_decimal (h : c.isDigit ∨ c = '.') : ¬ isWordStart c := by
  rcases h with h | rfl
  · exact not_isWordStart_of_isDigit h
  · decide

/-- What the scanner takes where neither a word nor a string begins. -/
theorem next?_plain (hword : ¬ isWordStart c) (hquote : ¬ (c = '"' ∨ c = '\'')) :
    (next? c cs).map Prod.snd = (hexTail? c cs <|> numberTail? c cs <|>
      ((cs.head?.bind (Symbol.ofPair? c)).map fun _ => 1) <|>
      (Symbol.ofChar? c).map fun _ => 0) := by
  simp only [next?, if_neg hword, if_neg hquote]
  cases hexTail? c cs with
  | some n => rfl
  | none =>
      cases numberTail? c cs with
      | some n => rfl
      | none =>
          cases cs.head?.bind (Symbol.ofPair? c) with
          | some s => rfl
          | none => cases Symbol.ofChar? c <;> rfl

theorem length_le_takeWhile {p : Char → Bool} (hbegins : text <+: cs) (h : ∀ c ∈ text, p c) :
    text.length ≤ (cs.takeWhile p).length := by
  rw [← List.append_nil text] at hbegins
  rcases takeWhile_of_prefix hbegins h (by simp) with ⟨-, hle⟩ | ⟨rfl, -⟩
  · exact hle
  · exact le_rfl

/-- No token that begins where a lexeme was taken is longer than it. -/
theorem next?_longest {l : Lexeme} (h : next? c cs = some (l, n)) {kind : TokenKind}
    (hmem : c :: text ∈ kind.pattern) (hbegins : text <+: cs) : text.length ≤ n := by
  have hwords : isWordStart c → (∀ d ∈ text, isWordPart d) → text.length ≤ n := by
    intro hc hparts
    rw [next?, if_pos hc] at h
    cases h
    exact length_le_takeWhile hbegins hparts
  have hplain : ¬ isWordStart c → ¬ (c = '"' ∨ c = '\'') → some n = _ := fun hword hquote =>
    (congrArg (Option.map Prod.snd) h).symm.trans (next?_plain hword hquote)
  -- The kind of the longer token says by which reader its text would be taken.
  cases kind with
  | number bits =>
      rcases hmem with hmem | hmem
      · have hfirst := isDigit_or_of_mem_decimal hmem
        have hquote : ¬ (c = '"' ∨ c = '\'') := by
          rintro (rfl | rfl) <;> simp at hfirst
        obtain ⟨m, hm, hle⟩ := numberTail?_longest hmem hbegins
        have hn := hplain (not_isWordStart_of_decimal hfirst) hquote
        cases hhex : hexTail? c cs with
        | some k =>
            -- Where the hexadecimal reader succeeds, the decimal one would stop at the zero.
            rw [numberTail?_of_hexTail? hhex] at hm
            cases hm
            omega
        | none =>
            rw [hhex, hm] at hn
            cases hn
            exact hle
      · obtain ⟨m, hm, hle⟩ := hexTail?_longest hmem hbegins
        have hdigit := isDigit_of_mem_hexadecimal hmem
        have hquote : ¬ (c = '"' ∨ c = '\'') := by
          rintro (rfl | rfl) <;> cases hdigit
        have hn := hplain (not_isWordStart_of_isDigit hdigit) hquote
        rw [hm] at hn
        cases hn
        exact hle
  | string name =>
      have hquoted : c :: text ∈ quoted c ∧ (c = '"' ∨ c = '\'') := by
        rcases hmem with hmem | hmem
        · obtain rfl := eq_of_mem_quoted hmem
          exact ⟨hmem, .inl rfl⟩
        · obtain rfl := eq_of_mem_quoted hmem
          exact ⟨hmem, .inr rfl⟩
      obtain ⟨⟨_, ⟨_, rfl, body, hbody, rfl⟩, _, rfl, htext⟩, hquote⟩ := hquoted
      obtain rfl : body ++ [c] = text := (List.cons.inj htext).2
      obtain ⟨tail, rfl⟩ := hbegins
      have hword : ¬ isWordStart c := by rcases hquote with rfl | rfl <;> decide
      have hslash : c ≠ '\\' := by rcases hquote with rfl | rfl <;> decide
      rw [next?, if_neg hword, if_pos hquote, List.append_assoc, List.singleton_append,
        stringTail?_of_mem hslash hbody tail] at h
      cases h
      simp
  | ident name =>
      obtain ⟨⟨_, ⟨d, hd, rfl⟩, rest, hrest, htext⟩, -⟩ := hmem
      obtain ⟨rfl, rfl⟩ : d = c ∧ rest = text := List.cons.inj htext
      exact hwords hd (mem_kstar_oneOf.mp hrest)
  | keyword k =>
      obtain ⟨d, rest, hk, hd⟩ := keyword_isWordStart k
      have hparts := isWordPart_of_keyword k
      rw [← mem_literal.mp hmem] at hk hparts
      obtain ⟨rfl, rfl⟩ := List.cons.inj hk
      exact hwords hd (List.forall_mem_cons.mp hparts).2
  | symbol s => 
      -- One character is never too long. For two, no reader before that of the pairs succeeds.
      rcases symbol_cases (mem_literal.mp hmem).symm with rfl | ⟨d, rfl, hpair⟩
      · exact Nat.zero_le _
      · obtain ⟨tail, rfl⟩ := hbegins
        obtain ⟨hword, hquote, hhex, hnumber⟩ := next?_of_ofPair? hpair ([d] ++ tail)
        have hn := hplain hword hquote
        rw [hhex, hnumber] at hn
        simp only [List.singleton_append, List.head?_cons, Option.bind_some, hpair] at hn
        cases hn
        exact le_rfl
  | invalid => exact absurd hmem (Language.notMem_zero _)
  | endOfInput => exact absurd hmem (Language.notMem_zero _)

theorem length_le_of_next? {l : Lexeme} (h : next? c cs = some (l, n)) {kind : TokenKind}
    (hmem : text ∈ kind.pattern) (hbegins : text <+: c :: cs) :
    text.length ≤ (c :: cs.take n).length := by
  cases text with
  | nil => exact Nat.zero_le _
  | cons d text =>
      obtain ⟨rfl, htail⟩ := List.cons_prefix_cons.mp hbegins
      have hle := next?_longest h hmem htail
      have hcs := htail.length_le
      simp only [List.length_cons, List.length_take]
      omega

end Lexeme

end PathCopy
