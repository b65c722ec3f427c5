import PathCopy.Proofs.Tiling

/-!
A blank parts a lexeme from what follows. What the scanner takes for a lexeme it takes again wherever
the same text stands before a blank or at the end of the source.
-/

namespace PathCopy

namespace Lexeme

open Pattern

variable {c : Char} {cs rest text : List Char} {n : Nat}

/-! ### Before a blank -/

/-- A text that parts the word before it from what follows: it is empty or begins with a blank. -/
def Parts (rest : List Char) : Prop := ∀ d ∈ rest.head?, isBlank d

theorem parts_nil : Parts [] := nofun

theorem parts_space (text : List Char) : Parts (' ' :: text) := by
  rintro d ⟨⟩
  rfl

theorem Parts.ends {p : Char → Bool} (hrest : Parts rest) (hp : ∀ d, isBlank d → ¬ p d) :
    ∀ d ∈ rest.head?, ¬ p d := fun d hd => hp d (hrest d hd)

theorem blank_cases (h : isBlank c) : c = ' ' ∨ c = '\t' ∨ c = '\r' ∨ c = '\n' ∨ c = '\x0c' := by
  simpa [isBlank, or_assoc] using h

theorem not_isWordPart_of_isBlank (h : isBlank c) : ¬ isWordPart c := by
  rcases blank_cases h with rfl | rfl | rfl | rfl | rfl <;> decide

theorem not_isHexDigit_of_isBlank (h : isBlank c) : ¬ isHexDigit c := by
  rcases blank_cases h with rfl | rfl | rfl | rfl | rfl <;> decide

theorem not_isDigit_of_isBlank (h : isBlank c) : ¬ c.isDigit := by
  rcases blank_cases h with rfl | rfl | rfl | rfl | rfl <;> decide

theorem ofPair?_of_isBlank {d : Char} (h : isBlank d) : Symbol.ofPair? c d = none := by
  unfold Symbol.ofPair?
  split <;> first | rfl | exact absurd h (by decide)

/-- What holds of the first character of a text, and of what parts it from the rest, holds of the
first character of both together. -/
theorem head_append {P : Char → Prop} (htext : ∀ d ds, text = d :: ds → P d)
    (hrest : ∀ d ∈ rest.head?, P d) : ∀ d ∈ (text ++ rest).head?, P d := by
  cases text with
  | nil => exact hrest
  | cons d ds =>
      rintro e ⟨⟩
      exact htext d ds rfl

theorem takeWhile_stop {p : Char → Bool} (hrest : ∀ d ∈ rest.head?, ¬ p d) :
    rest.takeWhile p = [] := by
  cases rest with
  | nil => rfl
  | cons d ds => exact List.takeWhile_cons_of_neg (hrest d rfl)

theorem takeWhile_append_stop {p : Char → Bool} (htext : ∀ d ∈ text, p d)
    (hrest : ∀ d ∈ rest.head?, ¬ p d) : (text ++ rest).takeWhile p = text := by
  rw [List.takeWhile_append_of_pos htext, takeWhile_stop hrest, List.append_nil]

theorem takeWhile_takeWhile_append {p : Char → Bool} (hrest : ∀ d ∈ rest.head?, ¬ p d) :
    (cs.takeWhile p ++ rest).takeWhile p = cs.takeWhile p :=
  takeWhile_append_stop (fun _ hd => List.mem_takeWhile_imp hd) hrest

theorem not_head_dropWhile (p : Char → Bool) (cs : List Char) :
    ∀ d ∈ (cs.dropWhile p).head?, ¬ p d := by
  intro d hd
  have hstop := List.head?_dropWhile_not p cs
  rw [Option.mem_def.mp hd] at hstop
  simpa using hstop

theorem take_take_append {k : Nat} (hn : n ≤ cs.length) (hk : k ≤ n) :
    (cs.take n ++ rest).take k = cs.take k := by
  rw [List.take_append_of_le_length (by rwa [List.length_take_of_le hn]), List.take_take,
    Nat.min_eq_left hk]

theorem head?_of_take (h : cs.take n = c :: text) : cs.head? = some c := by
  cases cs with
  | nil => simp at h
  | cons d ds =>
      cases n with
      | zero => cases h
      | succ n => exact congrArg some (List.cons.inj h).1

/-! ### Numbers -/

theorem fractionLength_eq_zero (h : ∀ d ∈ rest.head?, d ≠ '.') : fractionLength rest = 0 := by
  unfold fractionLength
  split
  · exact absurd rfl (h '.' rfl)
  · rfl

theorem fractionLength_take (hdigit : ∀ d ∈ rest.head?, ¬ d.isDigit)
    (hpoint : ∀ d ∈ rest.head?, d ≠ '.') :
    fractionLength (cs.take (fractionLength cs) ++ rest) = fractionLength cs := by
  by_cases h : fractionLength cs = 0
  · rw [h]
    exact fractionLength_eq_zero hpoint
  · unfold fractionLength at h
    split at h
    · rename_i ds
      by_cases hdigits : (ds.takeWhile Char.isDigit).length = 0
      · simp [hdigits] at h
      · have hlength : fractionLength ('.' :: ds) = (ds.takeWhile Char.isDigit).length + 1 := by
          simp only [fractionLength, if_neg hdigits]
        rw [hlength, List.take_succ_cons, take_length_takeWhile]
        simp only [List.cons_append, fractionLength, takeWhile_takeWhile_append hdigit,
          if_neg hdigits]
    · exact absurd rfl h

theorem fractionLength_le (cs : List Char) : fractionLength cs ≤ cs.length := by
  unfold fractionLength
  split
  · rename_i ds
    have := (List.takeWhile_prefix Char.isDigit (l := ds)).length_le
    dsimp only
    split <;> simp only [List.length_cons] <;> omega
  · exact Nat.zero_le _

/-- An exponent ends where its digits do. -/
theorem exponentLength_append (htext : text ∈ exponent) (hdigit : ∀ d ∈ rest.head?, ¬ d.isDigit) :
    exponentLength (text ++ rest) = text.length := by
  obtain ⟨_, ⟨_, ⟨m, hm, rfl⟩, sign, hsign, rfl⟩, ds, hds, rfl⟩ := htext
  obtain ⟨d, ds, rfl, hd⟩ := first_of_mem_many ds hds
  obtain ⟨x, hx⟩ : ∃ x, Number.readExponent? (m :: (sign ++ d :: (ds ++ rest))) =
      some (x, (ds ++ rest).dropWhile Char.isDigit) :=
    readExponent?_of_digit (by simpa using hm) hsign hd
  have hdigits : ∀ c ∈ ds, c.isDigit := fun c hc =>
    (mem_many.mp hds).2 c (List.mem_cons_of_mem _ hc)
  have hdrop : (ds ++ rest).dropWhile Char.isDigit = rest := by
    rw [List.dropWhile_append_of_pos hdigits]
    cases rest with
    | nil => rfl
    | cons d ds => exact List.dropWhile_cons_of_neg (hdigit d rfl)
  rw [hdrop] at hx
  simp only [List.append_assoc, List.cons_append, List.nil_append, exponentLength, hx]
  simp only [List.length_cons, List.length_append]
  omega

theorem exponentLength_le (cs : List Char) : exponentLength cs ≤ cs.length := by
  unfold exponentLength
  split <;> omega

theorem exponentLength_take (hdigit : ∀ d ∈ rest.head?, ¬ d.isDigit)
    (hmark : ∀ d ∈ rest.head?, ¬ (d = 'e' ∨ d = 'E')) :
    exponentLength (cs.take (exponentLength cs) ++ rest) = exponentLength cs := by
  have hlength : (cs.take (exponentLength cs)).length = exponentLength cs :=
    List.length_take_of_le (exponentLength_le cs)
  rcases take_exponentLength cs with hnone | hexponent
  · have hzero : exponentLength rest = 0 := by
      cases rest with
      | nil => rfl
      | cons d ds => simp [exponentLength, Number.readExponent?, hmark d rfl]
    have hnil : cs.take (exponentLength cs) = [] := hnone
    rw [hnil] at hlength ⊢
    exact hzero.trans hlength
  · rw [exponentLength_append hexponent hdigit, hlength]

/-- A fraction and an exponent after it are found again before a blank. -/
theorem fraction_exponent_take (hrest : Parts rest) (cs : List Char) {f e : Nat}
    (hf : fractionLength cs = f) (he : exponentLength (cs.drop f) = e) :
    fractionLength (cs.take (f + e) ++ rest) = f ∧
      exponentLength ((cs.take (f + e) ++ rest).drop f) = e := by
  have hdigit := hrest.ends (p := Char.isDigit) fun _ => not_isDigit_of_isBlank
  have hmark : ∀ d ∈ rest.head?, ¬ (d = 'e' ∨ d = 'E') := by
    rintro d hd (rfl | rfl) <;> cases hrest _ hd
  -- Only a mark may follow the digits of a fraction, or what parts it from the rest.
  have hnext : ∀ d ∈ ((cs.drop f).take e ++ rest).head?, ¬ d.isDigit ∧ d ≠ '.' := by
    refine head_append (fun d word hword => ?_) fun d hd => ⟨hdigit d hd, ?_⟩
    · have hmem := take_exponentLength (cs.drop f)
      rw [he, hword] at hmem
      rcases mark_of_mem_exponent hmem with rfl | rfl <;> decide
    · rintro rfl
      cases hrest _ hd
  have hlength : (cs.take f).length = f := List.length_take_of_le (hf ▸ fractionLength_le cs)
  rw [List.take_add, List.append_assoc]
  constructor
  · rw [← hf] at hnext ⊢
    exact fractionLength_take (fun d hd => (hnext d hd).1) fun d hd => (hnext d hd).2
  · rw [List.drop_left' hlength, ← he]
    exact exponentLength_take hdigit hmark

/-- A number that begins with a digit: more digits, a fraction and an exponent. -/
theorem numberTail?_digits {ds after : List Char} (hc : c.isDigit) (hds : ∀ d ∈ ds, d.isDigit)
    (hafter : ∀ d ∈ after.head?, ¬ d.isDigit) :
    numberTail? c (ds ++ after) = some (ds.length +
      (fractionLength after + exponentLength (after.drop (fractionLength after)))) := by
  have hwhole : (ds ++ after).takeWhile Char.isDigit = ds := takeWhile_append_stop hds hafter
  simp only [numberTail?, if_pos hc, hwhole, List.drop_left, ← List.drop_drop, Nat.add_assoc]

/-- A number that begins with a point: a fraction and an exponent. -/
theorem numberTail?_point {k : Nat} (hfraction : fractionLength ('.' :: cs) = k + 1) (hk : k ≠ 0) :
    numberTail? '.' cs = some (k + exponentLength (cs.drop k)) := by
  have hdigit : ¬ '.'.isDigit := by decide
  simp only [numberTail?, if_neg hdigit, if_true, hfraction, Nat.add_sub_cancel, if_neg hk]

theorem numberTail?_cases (h : numberTail? c cs = some n) :
    (c.isDigit ∧ ∃ ds after, cs = ds ++ after ∧ (∀ d ∈ ds, d.isDigit) ∧
      (∀ d ∈ after.head?, ¬ d.isDigit) ∧
      n = ds.length + (fractionLength after + exponentLength (after.drop (fractionLength after)))) ∨
    (c = '.' ∧ ∃ k, k ≠ 0 ∧ fractionLength ('.' :: cs) = k + 1 ∧
      n = k + exponentLength (cs.drop k)) := by
  by_cases hc : c.isDigit
  · have hds : ∀ d ∈ cs.takeWhile Char.isDigit, d.isDigit := fun _ hd => List.mem_takeWhile_imp hd
    have hnext := numberTail?_digits hc hds (not_head_dropWhile Char.isDigit cs)
    rw [List.takeWhile_append_dropWhile, h] at hnext
    exact .inl ⟨hc, _, _, List.takeWhile_append_dropWhile.symm, hds, not_head_dropWhile _ _,
      Option.some.inj hnext⟩
  · rw [numberTail?, if_neg hc] at h
    obtain ⟨rfl, h⟩ := Option.ite_none_right_eq_some.mp h
    obtain ⟨hne, h⟩ := Option.ite_none_left_eq_some.mp h
    exact .inr ⟨rfl, _, hne, by omega, (Option.some.inj h).symm⟩

theorem numberTail?_le (h : numberTail? c cs = some n) : n ≤ cs.length := by
  rcases numberTail?_cases h with ⟨-, ds, after, rfl, -, -, rfl⟩ | ⟨-, k, -, hk, rfl⟩
  · have hfraction := fractionLength_le after
    have hexponent := exponentLength_le (after.drop (fractionLength after))
    rw [List.length_drop] at hexponent
    rw [List.length_append]
    omega
  · have hfraction := fractionLength_le ('.' :: cs)
    have hexponent := exponentLength_le (cs.drop k)
    rw [List.length_drop] at hexponent
    rw [hk, List.length_cons] at hfraction
    omega

theorem numberTail?_take (hrest : Parts rest) (h : numberTail? c cs = some n) :
    numberTail? c (cs.take n ++ rest) = some n := by
  rcases numberTail?_cases h with ⟨hc, ds, after, rfl, hds, hafter, rfl⟩ | ⟨rfl, k, hne, hk, rfl⟩
  · obtain ⟨hfraction, hexponent⟩ := fraction_exponent_take hrest after rfl rfl
    rw [List.take_length_add_append, List.append_assoc, numberTail?_digits hc hds ?_, hfraction,
      hexponent]
    exact head_append (fun d word hword => hafter d (head?_of_take hword))
      (hrest.ends fun _ => not_isDigit_of_isBlank)
  · obtain ⟨hfraction, hexponent⟩ := fraction_exponent_take hrest _ hk rfl
    simp only [Nat.add_right_comm k 1, List.take_succ_cons, List.cons_append,
      List.drop_succ_cons] at hfraction hexponent
    rw [numberTail?_point hfraction hne, hexponent]

theorem hexTail?_le (h : hexTail? c cs = some n) : n ≤ cs.length := by
  unfold hexTail? at h
  split at h
  · rename_i x ds
    obtain ⟨-, hn⟩ := Option.ite_none_right_eq_some.mp h
    cases hn
    exact Nat.succ_le_succ (List.takeWhile_prefix isHexDigit).length_le
  · cases h

theorem hexTail?_take (hrest : Parts rest) (h : hexTail? c cs = some n) :
    hexTail? c (cs.take n ++ rest) = some n := by
  have hdigit := hrest.ends (p := isHexDigit) fun _ => not_isHexDigit_of_isBlank
  unfold hexTail? at h
  split at h
  · rename_i x ds
    obtain ⟨hx, hn⟩ := Option.ite_none_right_eq_some.mp h
    cases hn
    rw [List.take_succ_cons, take_length_takeWhile, List.cons_append]
    simp only [hexTail?, takeWhile_takeWhile_append hdigit, if_pos hx]
  · cases h

/-- What is taken as a decimal does not begin like a hexadecimal number. -/
theorem hexTail?_take_decimal (hrest : Parts rest) (h : numberTail? c cs = some n) :
    hexTail? c (cs.take n ++ rest) = none := by
  have hmark : ∀ d ∈ (cs.take n ++ rest).head?, c = '0' → ¬ (d = 'x' ∨ d = 'X') := by
    refine head_append (fun d word hword => ?_) fun d hd _ => ?_
    · obtain ⟨ds, rfl⟩ := List.head?_eq_some_iff.mp (head?_of_take hword)
      -- The zero before such a mark is a number by itself.
      rintro rfl (rfl | rfl) <;> cases h <;> cases hword
    · rintro (rfl | rfl) <;> cases hrest _ hd
  unfold hexTail?
  split
  · rename_i x ds heq
    exact if_neg fun hx => hmark x (by rw [heq]; rfl) rfl hx.1
  · rfl

/-! ### Strings -/

theorem stringTail?_take {quote : Char} (hquote : quote ≠ '\\') (h : stringTail? quote cs = some n) :
    stringTail? quote (cs.take n ++ rest) = some n := by
  fun_induction stringTail? quote cs generalizing n with
  | case1 => cases h
  | case2 c cs hc ih =>
      obtain ⟨n, hn, rfl⟩ := Option.map_eq_some_iff.mp h
      simp [stringTail?, hc, ih hn]
  | case3 =>
      cases h
      simp [stringTail?, hquote]
  | case4 => cases h
  | case5 c cs hescape hc hplain ih =>
      obtain ⟨n, hn, rfl⟩ := Option.map_eq_some_iff.mp h
      simp only [Bool.or_eq_true, decide_eq_true_eq, not_or] at hplain
      simp [stringTail?, hc, hplain, ih hn]
  | case6 => cases h

theorem stringTail?_le {quote : Char} (h : stringTail? quote cs = some n) : n ≤ cs.length := by
  fun_induction stringTail? quote cs generalizing n with
  | case1 => cases h
  | case2 c cs hc ih =>
      obtain ⟨n, hn, rfl⟩ := Option.map_eq_some_iff.mp h
      simpa using ih hn
  | case3 =>
      cases h
      simp
  | case4 => cases h
  | case5 c cs hescape hc hplain ih =>
      obtain ⟨n, hn, rfl⟩ := Option.map_eq_some_iff.mp h
      simpa using ih hn
  | case6 => cases h

/-! ### Symbols -/

theorem not_isDigit_of_numberTail? (h : numberTail? c cs = none) : ¬ c.isDigit := by
  intro hc
  simp [numberTail?, hc] at h

/-- What parts a character from the rest does not make a number of it. -/
theorem not_number_of_parts (hrest : Parts rest) (hc : ¬ c.isDigit) :
    hexTail? c rest = none ∧ numberTail? c rest = none := by
  have hdigit := hrest.ends (p := Char.isDigit) fun _ => not_isDigit_of_isBlank
  have hfraction : fractionLength ('.' :: rest) = 0 := by
    simp [fractionLength, takeWhile_stop hdigit]
  constructor
  · unfold hexTail?
    split
    · exact absurd rfl hc
    · rfl
  · rw [numberTail?, if_neg hc]
    split
    · rename_i hpoint
      simp [hpoint, hfraction]
    · rfl

/-! ### Lexemes -/

theorem next?_le {l : Lexeme} (h : next? c cs = some (l, n)) : n ≤ cs.length := by
  -- The cases come in the order in which `next?` tries its readers.
  by_cases hword : isWordStart c
  · rw [next?, if_pos hword] at h
    cases h
    exact (List.takeWhile_prefix isWordPart).length_le
  by_cases hquote : c = '"' ∨ c = '\''
  · rw [next?, if_neg hword, if_pos hquote] at h
    obtain ⟨n, htail, h⟩ := Option.map_eq_some_iff.mp h
    cases h
    exact stringTail?_le htail
  have hplain : (next? c cs).map Prod.snd = _ := next?_plain hword hquote
  rw [h] at hplain
  cases hhex : hexTail? c cs with
  | some k =>
      rw [hhex] at hplain
      cases hplain
      exact hexTail?_le hhex
  | none =>
      cases hnumber : numberTail? c cs with
      | some k =>
          rw [hhex, hnumber] at hplain
          cases hplain
          exact numberTail?_le hnumber
      | none =>
          rw [hhex, hnumber] at hplain
          cases hpair : cs.head?.bind (Symbol.ofPair? c) with
          | some s =>
              obtain ⟨d, hd, -⟩ := Option.bind_eq_some_iff.mp hpair
              obtain ⟨ds, rfl⟩ := List.head?_eq_some_iff.mp hd
              rw [hpair] at hplain
              cases hplain
              exact Nat.succ_le_succ (Nat.zero_le _)
          | none =>
              rw [hpair] at hplain
              cases hsymbol : Symbol.ofChar? c with
              | some s =>
                  rw [hsymbol] at hplain
                  cases hplain
                  exact Nat.zero_le _
              | none =>
                  rw [hsymbol] at hplain
                  cases hplain

/-- What is taken for a lexeme is taken again before a blank or at the end. -/
theorem next?_take (hrest : Parts rest) {l : Lexeme} (h : next? c cs = some (l, n)) :
    next? c (cs.take n ++ rest) = some (l, n) := by
  -- The cases come in the order in which `next?` tries its readers. The readers before
  -- the one that succeeds fail on the shorter text too.
  by_cases hword : isWordStart c
  · rw [next?, if_pos hword] at h
    cases h
    have hpart := hrest.ends (p := isWordPart) fun _ => not_isWordPart_of_isBlank
    rw [next?, if_pos hword, take_length_takeWhile, takeWhile_takeWhile_append hpart]
  by_cases hquote : c = '"' ∨ c = '\''
  · rw [next?, if_neg hword, if_pos hquote] at h
    obtain ⟨n, htail, h⟩ := Option.map_eq_some_iff.mp h
    cases h
    have hne : c ≠ '\\' := by rcases hquote with rfl | rfl <;> decide
    rw [next?, if_neg hword, if_pos hquote, stringTail?_take hne htail, Option.map_some,
      take_take_append (stringTail?_le htail) (Nat.sub_le n 1)]
  rw [next?, if_neg hword, if_neg hquote] at h ⊢
  cases hhex : hexTail? c cs with
  | some k =>
      rw [hhex] at h
      cases h
      simp only [hexTail?_take hrest hhex, ← List.drop_take,
        take_take_append (hexTail?_le hhex) le_rfl]
  | none =>
      rw [hhex] at h
      cases hnumber : numberTail? c cs with
      | some k =>
          rw [hnumber] at h
          cases h
          simp only [hexTail?_take_decimal hrest hnumber, numberTail?_take hrest hnumber,
            take_take_append (numberTail?_le hnumber) le_rfl]
      | none =>
          rw [hnumber] at h
          cases hpair : cs.head?.bind (Symbol.ofPair? c) with
          | some s =>
              rw [hpair] at h
              cases h
              obtain ⟨d, hd, hs⟩ := Option.bind_eq_some_iff.mp hpair
              obtain ⟨ds, rfl⟩ := List.head?_eq_some_iff.mp hd
              obtain ⟨-, -, hhex, hnumber⟩ := next?_of_ofPair? hs (d :: rest)
              simp only [List.take_succ_cons, List.take_zero, List.cons_append, List.nil_append,
                hhex, hnumber, List.head?_cons, Option.bind_some, hs]
          | none =>
              rw [hpair] at h
              obtain ⟨s, hs, h⟩ := Option.map_eq_some_iff.mp h
              cases h
              obtain ⟨hhex, hnumber⟩ := not_number_of_parts hrest (not_isDigit_of_numberTail? hnumber)
              have hpair : rest.head?.bind (Symbol.ofPair? c) = none := by
                rw [Option.bind_eq_none_iff]
                exact fun d hd => ofPair?_of_isBlank (hrest d hd)
              simp only [List.take_zero, List.nil_append, hhex, hnumber, hpair, hs, Option.map_some]

end Lexeme

/-! ### Pieces -/

section Pieces

open Lexeme

variable {c : Char} {cs rest : List Char} {n : Nat} {l : Lexeme}

theorem Piece.not_gap (h : Piece.next? c cs = some (.lexeme l, n)) :
    ¬ isBlank c ∧ ∀ d ∈ cs.head?, c = '/' → ¬ (d = '/' ∨ d = '*') := by
  have hnext : gapTail? c cs = none ∧ opensComment c cs = false := by
    unfold Piece.next? at h
    split at h
    · cases h
    · rename_i hgap
      split at h
      · cases h
      · rename_i hopens
        exact ⟨hgap, by simpa using hopens⟩
  obtain ⟨hgap, hopens⟩ := hnext
  constructor
  · intro hblank
    simp [gapTail?, hblank] at hgap
  · rintro d hd rfl (rfl | rfl)
    · obtain ⟨ds, rfl⟩ := List.head?_eq_some_iff.mp hd
      simp [gapTail?, isBlank] at hgap
    · simp [opensComment, Option.mem_def.mp hd] at hopens

theorem Piece.next?_of_next? (hblank : ¬ isBlank c)
    (hslash : ∀ d ∈ cs.head?, c = '/' → ¬ (d = '/' ∨ d = '*'))
    (h : Lexeme.next? c cs = some (l, n)) : Piece.next? c cs = some (.lexeme l, n) := by
  have hgap : gapTail? c cs = none := by
    unfold gapTail?
    rw [if_neg hblank]
    split
    · exact absurd (.inl rfl) (hslash _ rfl rfl)
    · exact absurd (.inr rfl) (hslash _ rfl rfl)
    · rfl
  have hopens : ¬ opensComment c cs := by
    simp only [opensComment, Bool.and_eq_true, beq_iff_eq]
    rintro ⟨hc, hd⟩
    exact hslash _ hd hc (.inr rfl)
  rw [Piece.next?, hgap]
  simp [hopens, h]

/-- What is taken for a lexeme is no part of a gap before a blank either. -/
theorem Piece.next?_take (hrest : Parts rest) (h : Piece.next? c cs = some (.lexeme l, n)) :
    Piece.next? c (cs.take n ++ rest) = some (.lexeme l, n) := by
  obtain ⟨hblank, hslash⟩ := Piece.not_gap h
  refine Piece.next?_of_next? hblank ?_ (Lexeme.next?_take hrest (Piece.next?_lexeme h))
  refine head_append (fun d word hword => hslash d (head?_of_take hword)) fun d hd _ => ?_
  rintro (rfl | rfl) <;> cases hrest _ hd

end Pieces

end PathCopy
