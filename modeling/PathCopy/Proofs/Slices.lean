import PathCopy.Proofs.Building
import PathCopy.Proofs.Tiling

/-!
Slices of a text. A span is a slice if it is in order, ends within the text and cuts no character at
either end. Tokens are slices, and what is merged from slices is one; so the places that the grammar
marks are slices, both those of phrases and those where a text is refused.
-/

namespace PathCopy

/-- An offset that lies before, between or after the characters of a text. -/
def IsBoundary (text : List Char) (offset : Nat) : Prop :=
  ∃ before after, text = before ++ after ∧ utf8Length before = offset

/-- A span that marks a stretch of a text. -/
structure Span.IsSlice (text : List Char) (span : Span) : Prop where
  ordered : span.start ≤ span.stop
  within : span.stop ≤ utf8Length text
  opens : IsBoundary text span.start
  closes : IsBoundary text span.stop

theorem isBoundary_zero (text : List Char) : IsBoundary text 0 := ⟨[], text, rfl, rfl⟩

theorem dropBytes_some {cs ds : List Char} {n : Nat} (h : dropBytes cs n = some ds) :
    ∃ before, cs = before ++ ds ∧ utf8Length before = n := by
  induction cs generalizing n with
  | nil =>
      cases n with
      | zero =>
          cases h
          exact ⟨[], rfl, rfl⟩
      | succ n => cases h
  | cons c cs ih =>
      cases n with
      | zero =>
          cases h
          exact ⟨[], rfl, rfl⟩
      | succ n =>
          rw [dropBytes] at h
          obtain ⟨hsize, h⟩ := Option.ite_none_right_eq_some.mp h
          obtain ⟨before, rfl, hlength⟩ := ih h
          refine ⟨c :: before, rfl, ?_⟩
          rw [utf8Length, hlength]
          omega

theorem takeBytes_some {cs ds : List Char} {n : Nat} (h : takeBytes cs n = some ds) :
    ∃ after, cs = ds ++ after ∧ utf8Length ds = n := by
  induction cs generalizing n ds with
  | nil =>
      cases n with
      | zero =>
          cases h
          exact ⟨[], rfl, rfl⟩
      | succ n => cases h
  | cons c cs ih =>
      cases n with
      | zero =>
          cases h
          exact ⟨c :: cs, rfl, rfl⟩
      | succ n =>
          rw [takeBytes] at h
          obtain ⟨hsize, h⟩ := Option.ite_none_right_eq_some.mp h
          obtain ⟨inner, hinner, rfl⟩ := Option.map_eq_some_iff.mp h
          obtain ⟨after, rfl, hlength⟩ := ih hinner
          refine ⟨after, rfl, ?_⟩
          rw [utf8Length, hlength]
          omega

namespace Span

variable {text before inner after : List Char} {x y span : Span}

theorem isSlice_append (before inner after : List Char) :
    IsSlice (before ++ inner ++ after) ⟨utf8Length before, utf8Length (before ++ inner)⟩ where
  ordered := by simp
  within := by simp
  opens := ⟨before, inner ++ after, List.append_assoc .., rfl⟩
  closes := ⟨before ++ inner, after, rfl, rfl⟩

/-- The slices of a text are the spans with a text under them. -/
theorem isSlice_iff : span.IsSlice text ↔ ∃ inner, span.chars? text = some inner := by
  constructor
  · rintro ⟨hordered, -, ⟨before, rest, rfl, hopens⟩, before', after, hsplit, hcloses⟩
    have hprefix : before <+: before' := by
      refine (List.prefix_or_prefix_of_prefix (List.prefix_append before rest)
        (hsplit ▸ List.prefix_append before' after)).elim id ?_
      rintro ⟨more, rfl⟩
      rw [utf8Length_append] at hopens
      obtain rfl : more = [] := by
        cases more with
        | nil => rfl
        | cons c cs =>
            have := utf8Length_cons_pos c cs
            omega
      rw [List.append_nil]
    obtain ⟨inner, rfl⟩ := hprefix
    obtain ⟨start, stop⟩ := span
    obtain rfl : utf8Length before = start := hopens
    obtain rfl : utf8Length (before ++ inner) = stop := hcloses
    rw [hsplit]
    exact ⟨inner, chars?_append before inner after⟩
  · rintro ⟨inner, h⟩
    obtain ⟨hordered, h⟩ := Option.ite_none_right_eq_some.mp h
    obtain ⟨rest, hdrop, htake⟩ := Option.bind_eq_some_iff.mp h
    obtain ⟨before, rfl, hopens⟩ := dropBytes_some hdrop
    obtain ⟨after, rfl, hlength⟩ := takeBytes_some htake
    have hspan : span = ⟨utf8Length before, utf8Length (before ++ inner)⟩ := by
      rw [utf8Length_append, hopens, hlength, Nat.add_sub_cancel' hordered]
    rw [hspan, ← List.append_assoc]
    exact isSlice_append before inner after

theorem isSlice_origin (text : List Char) : origin.IsSlice text :=
  ⟨le_rfl, Nat.zero_le _, isBoundary_zero text, isBoundary_zero text⟩

theorem IsSlice.merge (hx : x.IsSlice text) (hy : y.IsSlice text) : (x.merge y).IsSlice text where
  ordered := (Nat.min_le_left ..).trans (hx.ordered.trans (Nat.le_max_left ..))
  within := Nat.max_le.mpr ⟨hx.within, hy.within⟩
  opens := by
    rcases min_choice x.start y.start with h | h
    · exact (congrArg (IsBoundary text) h).mpr hx.opens
    · exact (congrArg (IsBoundary text) h).mpr hy.opens
  closes := by
    rcases max_choice x.stop y.stop with h | h
    · exact (congrArg (IsBoundary text) h).mpr hx.closes
    · exact (congrArg (IsBoundary text) h).mpr hy.closes

end Span

/-! ### Tokens -/

namespace Token

/-- The place where a lexer is stuck is a slice of the source. -/
theorem Stuck.isSlice {before rest : List Char} {e : LexError}
    (h : Stuck (utf8Length before) rest e) : e.span.IsSlice (before ++ rest) := by
  cases h with
  | @comment cs _ =>
      have hslice := Span.isSlice_append before ('/' :: '*' :: cs) []
      rwa [List.append_nil, utf8Length_append] at hslice
  | @string quote cs _ _ =>
      have hslice := Span.isSlice_append before ((quote :: cs).takeWhile (· ≠ '\n'))
        ((quote :: cs).dropWhile (· ≠ '\n'))
      rwa [List.append_assoc, List.takeWhile_append_dropWhile, utf8Length_append] at hslice
  | @character c cs _ _ =>
      have hslice := Span.isSlice_append before [c] cs
      rwa [List.append_assoc, utf8Length_append] at hslice

variable {source : String} {names names' : NameTable}

/-- The tokens of a source are slices of it, the end of the input included. -/
theorem ofSource_isSlice {tokens : List Token} (hshort : utf8Length source.toList < 2 ^ 32)
    (h : ofSource source names = .ok (tokens, names')) :
    ∀ token ∈ tokens, token.span.IsSlice source.toList := by
  obtain ⟨lexemes, hscan, hresult⟩ := except_map_ok h
  obtain ⟨rfl, -⟩ := Prod.mk.inj hresult
  obtain ⟨q, hcuts⟩ := Lexeme.scan_ok hscan
  obtain ⟨htiled, -⟩ := tiled_of_cuts hcuts [] (List.nil_append _).symm rfl hshort names
  refine List.forall_mem_append.mpr ⟨fun token htoken => ?_, List.forall_mem_singleton.mpr ?_⟩
  · obtain ⟨text, -, htext⟩ := htiled.texts token htoken
    exact Span.isSlice_iff.mpr ⟨text, htext⟩
  · have hend := Span.isSlice_append source.toList [] []
    rw [List.append_nil, List.append_nil] at hend
    rwa [ofRange_of_lt hshort hshort]

theorem ofSource_error_isSlice {e : LexError} (hshort : utf8Length source.toList < 2 ^ 32)
    (h : ofSource source names = .error e) : e.span.IsSlice source.toList := by
  obtain ⟨lexemes, c, rest, q, hcuts, hnext, rfl⟩ := Lexeme.scan_error (except_map_error h)
  obtain ⟨-, before, hbefore, rfl⟩ :=
    tiled_of_cuts hcuts [] (List.nil_append _).symm rfl hshort names
  rw [hbefore] at hshort ⊢
  rw [utf8Length_append] at hshort
  exact (stuck_of_next? hnext hshort).isSlice

end Token

end PathCopy
