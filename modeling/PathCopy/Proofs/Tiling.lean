import PathCopy.Proofs.LongestMatch
import PathCopy.Proofs.Outcomes

/-!
Lexing tiles the source: the spans of the tokens and the gaps between them cover the text without
overlap. A text that is not cut to its end is tiled up to the place where no piece begins.
-/

namespace PathCopy

/-! ### Offsets and the text between them -/

theorem utf8Length_cons_pos (c : Char) (cs : List Char) : 0 < utf8Length (c :: cs) := by
  have := c.utf8Size_pos
  simp only [utf8Length]
  omega

/-- An offset cuts a text in one way. -/
theorem append_inj_of_utf8Length {cs cs' ds ds' : List Char} (h : cs ++ ds = cs' ++ ds')
    (hlength : utf8Length cs = utf8Length cs') : cs = cs' ∧ ds = ds' := by
  induction cs generalizing cs' with
  | nil =>
      cases cs' with
      | nil => exact ⟨rfl, h⟩
      | cons c' cs' =>
          have := utf8Length_cons_pos c' cs'
          simp only [utf8Length] at this hlength
          omega
  | cons c cs ih =>
      cases cs' with
      | nil =>
          have := utf8Length_cons_pos c cs
          simp only [utf8Length] at this hlength
          omega
      | cons c' cs' =>
          obtain ⟨rfl, hrest⟩ : c = c' ∧ cs ++ ds = cs' ++ ds' := List.cons.inj h
          obtain ⟨rfl, rfl⟩ := ih hrest (by simpa [utf8Length] using hlength)
          exact ⟨rfl, rfl⟩

theorem dropBytes_append (cs ds : List Char) : dropBytes (cs ++ ds) (utf8Length cs) = some ds := by
  induction cs with
  | nil => cases ds <;> rfl
  | cons c cs ih =>
      obtain ⟨n, hn⟩ := Nat.exists_eq_succ_of_ne_zero (utf8Length_cons_pos c cs).ne'
      have hn' : c.utf8Size + utf8Length cs = n + 1 := hn
      have hrest : n + 1 - c.utf8Size = utf8Length cs := by omega
      rw [hn, List.cons_append, dropBytes, if_pos (by omega), hrest, ih]

theorem takeBytes_append (cs ds : List Char) : takeBytes (cs ++ ds) (utf8Length cs) = some cs := by
  induction cs with
  | nil => cases ds <;> rfl
  | cons c cs ih =>
      obtain ⟨n, hn⟩ := Nat.exists_eq_succ_of_ne_zero (utf8Length_cons_pos c cs).ne'
      have hn' : c.utf8Size + utf8Length cs = n + 1 := hn
      have hrest : n + 1 - c.utf8Size = utf8Length cs := by omega
      rw [hn, List.cons_append, takeBytes, if_pos (by omega), hrest, ih]
      rfl

theorem chars?_append (before text rest : List Char) :
    Span.chars? ⟨utf8Length before, utf8Length (before ++ text)⟩ (before ++ text ++ rest) =
      some text := by
  have hlength : utf8Length (before ++ text) - utf8Length before = utf8Length text := by simp
  simp only [Span.chars?, hlength, List.append_assoc, dropBytes_append, Option.bind_some,
    takeBytes_append]
  simp

theorem ofRange_of_lt {start stop : Nat} (hstart : start < 2 ^ 32) (hstop : stop < 2 ^ 32) :
    Span.ofRange start stop = ⟨start, stop⟩ := by
  have hlimit : Span.limit = 2 ^ 32 - 1 := rfl
  simp only [Span.ofRange, hlimit, Span.mk.injEq]
  omega

/-! ### Gaps -/

/-- A text without meaning, where `rest` follows it: blanks, line comments that go on to the end of
their line, and block comments that end at the first closer. -/
inductive Gap : List Char → List Char → Prop
  | nil {rest} : Gap [] rest
  | blank {c text rest} : Lexeme.isBlank c → Gap text rest → Gap (c :: text) rest
  | line {body text rest} : '\n' ∉ body → (∀ c ∈ (text ++ rest).head?, c = '\n') → Gap text rest →
      Gap ('/' :: '/' :: (body ++ text)) rest
  | block {body text rest} : ¬ ['*', '/'] <:+: body → Gap text rest →
      Gap ('/' :: '*' :: (body ++ '*' :: '/' :: text)) rest

namespace Lexeme

theorem commentTail?_some {cs : List Char} {n : Nat} (h : commentTail? cs = some n) :
    ∃ body, ¬ ['*', '/'] <:+: body ∧ cs.take n = body ++ ['*', '/'] := by
  fun_induction commentTail? cs generalizing n with
  | case1 cs =>
      cases h
      exact ⟨[], by simp, rfl⟩
  | case2 c cs hcloser ih =>
      obtain ⟨n, hn, rfl⟩ := Option.map_eq_some_iff.mp h
      obtain ⟨body, hbody, htake⟩ := ih hn
      refine ⟨c :: body, ?_, by simp [htake]⟩
      rw [List.infix_cons_iff]
      rintro (hhead | htail)
      · obtain ⟨tail, htail⟩ := hhead
        obtain ⟨rfl, rfl⟩ := List.cons.inj htail
        cases cs with
        | nil => simp at htake
        | cons d cs =>
          cases n with
          | zero => simp at htake
          | succ n =>
            obtain ⟨rfl, -⟩ := List.cons.inj htake
            exact hcloser cs rfl rfl
      · exact hbody htail
  | case3 => cases h

theorem commentTail?_none {cs : List Char} (h : commentTail? cs = none) :
    ¬ ['*', '/'] <:+: cs := by
  fun_induction commentTail? cs with
  | case1 cs => cases h
  | case2 c cs hcloser ih =>
      rw [List.infix_cons_iff]
      rintro (hhead | htail)
      · obtain ⟨tail, htail⟩ := hhead
        obtain ⟨rfl, rfl⟩ := List.cons.inj htail
        exact hcloser tail rfl rfl
      · exact ih (Option.map_eq_none_iff.mp h) htail
  | case3 => simp

theorem gap_of_blanks {blanks text rest : List Char} (hblanks : ∀ c ∈ blanks, isBlank c)
    (hgap : Gap text rest) : Gap (blanks ++ text) rest := by
  induction blanks with
  | nil => exact hgap
  | cons c blanks ih =>
      obtain ⟨hc, hblanks⟩ := List.forall_mem_cons.mp hblanks
      exact .blank hc (ih hblanks)

/-- What the scanner skips is a gap, together with the gap that follows it. -/
theorem gapTail?_gap {c : Char} {cs text rest : List Char} {n : Nat} (h : gapTail? c cs = some n)
    (hcs : cs.drop n = text ++ rest) (hgap : Gap text rest) :
    Gap (c :: cs.take n ++ text) rest := by
  unfold gapTail? at h
  split at h
  · rename_i hc
    cases h
    rw [take_length_takeWhile]
    exact .blank hc (gap_of_blanks (fun d hd => List.mem_takeWhile_imp hd) hgap)
  split at h
  · rename_i ds _
    cases h
    rw [Nat.add_comm 1, List.drop_succ_cons] at hcs
    rw [Nat.add_comm 1, List.take_succ_cons, take_length_takeWhile]
    refine .line ?_ ?_ hgap
    · intro hmem
      simpa using List.mem_takeWhile_imp hmem
    · rw [← hcs, drop_length_takeWhile]
      intro c hc
      have hstop := List.head?_dropWhile_not (· ≠ '\n') ds
      rw [Option.mem_def.mp hc] at hstop
      simpa using hstop
  · obtain ⟨n, hn, rfl⟩ := Option.map_eq_some_iff.mp h
    obtain ⟨body, hbody, htake⟩ := commentTail?_some hn
    rw [Nat.add_comm 1, List.take_succ_cons, htake]
    simpa using Gap.block hbody hgap
  · cases h

/-- A comment opener without a closer is where the scanner stops. -/
theorem not_gap_of_gapTail? {c : Char} {cs text rest : List Char} (h : gapTail? c cs = none)
    (hc : c ≠ '/') : ¬ Gap (c :: text) rest := by
  intro hgap
  cases hgap with
  | blank hblank _ => simp [gapTail?, hblank] at h
  | line _ _ _ => exact hc rfl
  | block _ _ => exact hc rfl

end Lexeme

/-! ### Cutting a text -/

open Lexeme in
/-- The pieces of `cs` from offset `p` on: the lexemes among them, and what is left at offset `q`. -/
inductive Cuts : List Char → Nat → List (Lexeme × Span) → List Char → Nat → Prop
  | nil {cs p} : Cuts cs p [] cs p
  | gap {c cs p n lexemes rest q} : gapTail? c cs = some n →
      Cuts (cs.drop n) (p + utf8Length (c :: cs.take n)) lexemes rest q →
      Cuts (c :: cs) p lexemes rest q
  | lexeme {c cs p l n lexemes rest q} : Lexeme.next? c cs = some (l, n) →
      Cuts (cs.drop n) (p + utf8Length (c :: cs.take n)) lexemes rest q →
      Cuts (c :: cs) p
        ((l, Span.ofRange p (p + utf8Length (c :: cs.take n))) :: lexemes) rest q

/-- The spans of the lexemes are in order, and they end before what is left. -/
theorem Cuts.ordered {cs rest : List Char} {p q : Nat} {lexemes : List (Lexeme × Span)}
    (h : Cuts cs p lexemes rest q) : p ≤ q ∧ p + utf8Length cs = q + utf8Length rest ∧
      (∀ x ∈ lexemes, min p Span.limit ≤ x.2.start ∧ x.2.start ≤ x.2.stop ∧
        x.2.stop ≤ min q Span.limit) ∧
      lexemes.Pairwise fun x y => x.2.stop ≤ y.2.start := by
  have hsplit : ∀ (c : Char) (cs : List Char) (n : Nat),
      utf8Length (c :: cs) = utf8Length (c :: cs.take n) + utf8Length (cs.drop n) := by
    intro c cs n
    rw [← utf8Length_append, List.cons_append, List.take_append_drop]
  induction h with
  | nil => exact ⟨le_rfl, rfl, by simp, .nil⟩
  | @gap c cs p n lexemes rest q _ _ ih =>
      obtain ⟨hle, hlength, hproper, hapart⟩ := ih
      have := hsplit c cs n
      refine ⟨by omega, by omega, fun x hx => ?_, hapart⟩
      have := hproper x hx
      omega
  | @lexeme c cs p l n lexemes rest q _ _ ih =>
      obtain ⟨hle, hlength, hproper, hapart⟩ := ih
      have := hsplit c cs n
      refine ⟨by omega, by omega, List.forall_mem_cons.mpr ⟨?_, fun x hx => ?_⟩, .cons ?_ hapart⟩
      · simp only [Span.ofRange]
        omega
      · have := hproper x hx
        omega
      · intro x hx
        exact (hproper x hx).1

theorem Cuts.length_le {cs rest : List Char} {p q : Nat} {lexemes : List (Lexeme × Span)}
    (h : Cuts cs p lexemes rest q) : p + lexemes.length ≤ q := by
  induction h with
  | nil => simp
  | gap _ _ ih => omega
  | @lexeme c cs p l n lexemes rest q _ _ ih =>
      have := utf8Length_cons_pos c (cs.take n)
      rw [List.length_cons]
      omega

theorem Piece.next?_gap {c : Char} {cs : List Char} {n : Nat}
    (h : Piece.next? c cs = some (.gap, n)) : Lexeme.gapTail? c cs = some n := by
  unfold Piece.next? at h
  split at h
  · rename_i hgap
    cases h
    exact hgap
  · split at h
    · cases h
    · obtain ⟨⟨l, m⟩, -, h⟩ := Option.map_eq_some_iff.mp h
      cases h

theorem Piece.next?_lexeme {c : Char} {cs : List Char} {l : Lexeme} {n : Nat}
    (h : Piece.next? c cs = some (.lexeme l, n)) : Lexeme.next? c cs = some (l, n) := by
  unfold Piece.next? at h
  split at h
  · cases h
  · split at h
    · cases h
    · obtain ⟨⟨l', m⟩, hnext, h⟩ := Option.map_eq_some_iff.mp h
      cases h
      exact hnext

namespace Lexeme

theorem scan_ok {cs : List Char} {p : Nat} {lexemes : List (Lexeme × Span)}
    (h : scan cs p = .ok lexemes) : ∃ q, Cuts cs p lexemes [] q := by
  fun_induction scan cs p generalizing lexemes with
  | case1 p =>
      cases h
      exact ⟨p, .nil⟩
  | case2 c cs p hnext => cases h
  | case3 c cs p n _ hnext =>
      rename_i ih
      obtain ⟨q, hq⟩ := ih h
      exact ⟨q, .gap (Piece.next?_gap hnext) hq⟩
  | case4 c cs p n _ l hnext =>
      rename_i ih
      obtain ⟨rest, hrest, rfl⟩ := except_map_ok h
      obtain ⟨q, hq⟩ := ih hrest
      exact ⟨q, .lexeme (Piece.next?_lexeme hnext) hq⟩

theorem scan_error {cs : List Char} {p : Nat} {e : LexError} (h : scan cs p = .error e) :
    ∃ lexemes c rest q, Cuts cs p lexemes (c :: rest) q ∧ Piece.next? c rest = none ∧
      e = .ofFailure c rest q := by
  fun_induction scan cs p with
  | case1 p => cases h
  | case2 c cs p hnext =>
      cases h
      exact ⟨[], c, cs, p, .nil, hnext, rfl⟩
  | case3 c cs p n _ hnext =>
      rename_i ih
      obtain ⟨lexemes, d, rest, q, hcuts, hstuck⟩ := ih h
      exact ⟨lexemes, d, rest, q, .gap (Piece.next?_gap hnext) hcuts, hstuck⟩
  | case4 c cs p n _ l hnext =>
      rename_i ih
      obtain ⟨lexemes, d, rest, q, hcuts, hstuck⟩ := ih (except_map_error h)
      exact ⟨_, d, rest, q, .lexeme (Piece.next?_lexeme hnext) hcuts, hstuck⟩

end Lexeme

namespace Token

theorem ofLexemes_cons (names : NameTable) (l : Lexeme) (span : Span)
    (lexemes : List (Lexeme × Span)) :
    (ofLexemes names ((l, span) :: lexemes)).1 =
      (ofLexeme names l span).1 :: (ofLexemes (ofLexeme names l span).2 lexemes).1 := rfl

theorem ofLexeme_span (names : NameTable) (l : Lexeme) (span : Span) :
    (ofLexeme names l span).1.span = span := by
  cases l <;> rfl

theorem ofLexemes_spans (names : NameTable) (lexemes : List (Lexeme × Span)) :
    (ofLexemes names lexemes).1.map Token.span = lexemes.map Prod.snd := by
  induction lexemes generalizing names with
  | nil => rfl
  | cons x lexemes ih => rw [ofLexemes_cons, List.map_cons, List.map_cons, ih, ofLexeme_span]

theorem ofLexemes_not_endOfInput (names : NameTable) (lexemes : List (Lexeme × Span)) :
    ∀ token ∈ (ofLexemes names lexemes).1, token.kind ≠ .endOfInput := by
  induction lexemes generalizing names with
  | nil => exact fun _ h => absurd h List.not_mem_nil
  | cons x lexemes ih =>
      obtain ⟨l, span⟩ := x
      rw [ofLexemes_cons]
      refine List.forall_mem_cons.mpr ⟨?_, ih _⟩
      cases l <;> exact nofun

/-! ### Tiles -/

/-- Nothing but a gap lies from offset `start` to offset `stop`. -/
def GapBetween (source : List Char) (start stop : Nat) : Prop :=
  ∃ before text rest, source = before ++ text ++ rest ∧ utf8Length before = start ∧
    utf8Length (before ++ text) = stop ∧ Gap text rest

/-- The tokens tile the source from offset `start` to offset `stop`: each covers a text of its kind,
and no text of any kind that begins with it is longer; they follow each other, and gaps lie before,
between and after them. -/
structure Tiled (source : List Char) (start : Nat) (tokens : List Token) (stop : Nat) : Prop where
  texts : ∀ token ∈ tokens, ∃ text ∈ token.kind.pattern, token.span.chars? source = some text
  longest : ∀ token ∈ tokens, ∀ before text rest kind, source = before ++ text ++ rest →
    utf8Length before = token.span.start → text ∈ TokenKind.pattern kind →
      utf8Length (before ++ text) ≤ token.span.stop
  proper : ∀ token ∈ tokens, token.span.start < token.span.stop
  within : ∀ token ∈ tokens, start ≤ token.span.start ∧ token.span.stop ≤ stop
  ordered : tokens.Pairwise fun t u => t.span.stop ≤ u.span.start
  gaps : List.Forall₂ (GapBetween source) (start :: tokens.map (·.span.stop))
    (tokens.map (·.span.start) ++ [stop])

namespace Tiled

variable {source before text rest : List Char} {token : Token} {tokens : List Token} {stop : Nat}

theorem nil (hsource : source = before ++ rest) :
    Tiled source (utf8Length before) [] (utf8Length before) where
  texts := by simp
  longest := by simp
  proper := by simp
  within := by simp
  ordered := .nil
  gaps := .cons ⟨before, [], rest, by simpa using hsource, rfl, by simp, .nil⟩ .nil

theorem le {start : Nat} (h : Tiled source start tokens stop) : start ≤ stop := by
  cases tokens with
  | nil =>
      obtain ⟨⟨before, text, rest, -, rfl, rfl, -⟩, -⟩ := List.forall₂_cons.mp h.gaps
      simp
  | cons token tokens =>
      have hwithin := h.within token List.mem_cons_self
      have hproper := h.proper token List.mem_cons_self
      omega

theorem cons (hsource : source = before ++ text ++ rest) (htext : text ∈ token.kind.pattern)
    (hlongest : ∀ kind longer, longer ∈ TokenKind.pattern kind → longer <+: text ++ rest →
      longer.length ≤ text.length)
    (hne : text ≠ []) (hspan : token.span = ⟨utf8Length before, utf8Length (before ++ text)⟩)
    (h : Tiled source (utf8Length (before ++ text)) tokens stop) :
    Tiled source (utf8Length before) (token :: tokens) stop := by
  have hstart : token.span.start = utf8Length before := by rw [hspan]
  have hstop : token.span.stop = utf8Length (before ++ text) := by rw [hspan]
  have hlt : token.span.start < token.span.stop := by
    obtain ⟨c, cs, rfl⟩ := List.exists_cons_of_ne_nil hne
    have := utf8Length_cons_pos c cs
    rw [hstart, hstop, utf8Length_append]
    omega
  have hle : utf8Length (before ++ text) ≤ stop := h.le
  constructor
  · refine List.forall_mem_cons.mpr ⟨⟨text, htext, ?_⟩, h.texts⟩
    rw [hspan, hsource]
    exact chars?_append before text rest
  · refine List.forall_mem_cons.mpr ⟨fun before' longer rest' kind hsplit hbefore hkind => ?_,
      h.longest⟩
    obtain ⟨rfl, hrest⟩ := append_inj_of_utf8Length
      ((List.append_assoc ..).symm.trans (hsplit.symm.trans (hsource.trans (List.append_assoc ..))))
      (hbefore.trans hstart)
    have hhead : longer <+: text ++ rest := ⟨rest', hrest⟩
    obtain ⟨more, rfl⟩ := List.prefix_of_prefix_length_le hhead (List.prefix_append text rest)
      (hlongest kind longer hkind hhead)
    rw [hstop, utf8Length_append, utf8Length_append, utf8Length_append]
    omega
  · exact List.forall_mem_cons.mpr ⟨hlt, h.proper⟩
  · refine List.forall_mem_cons.mpr ⟨⟨hstart.ge, hstop.trans_le hle⟩, fun u hu => ?_⟩
    have := h.within u hu
    omega
  · exact .cons (fun u hu => hstop.trans_le (h.within u hu).1) h.ordered
  · rw [← hstop] at h
    refine .cons ⟨before, [], text ++ rest, by simpa using hsource, rfl, ?_, .nil⟩ h.gaps
    rw [List.append_nil]
    exact hstart.symm

theorem gap (hsource : source = before ++ text ++ rest)
    (hgap : ∀ text' rest', rest = text' ++ rest' → Gap text' rest' → Gap (text ++ text') rest')
    (h : Tiled source (utf8Length (before ++ text)) tokens stop) :
    Tiled source (utf8Length before) tokens stop := by
  have hle : utf8Length before ≤ utf8Length (before ++ text) := by simp
  refine ⟨h.texts, h.longest, h.proper, fun token htoken => ?_, h.ordered, ?_⟩
  · have := h.within token htoken
    omega
  have hgaps := h.gaps
  generalize tokens.map (·.span.start) ++ [stop] = starts at hgaps ⊢
  cases hgaps with
  | cons hfirst hgaps =>
      obtain ⟨before', text', rest', hsplit, hbefore, hstop, htail⟩ := hfirst
      obtain ⟨rfl, rfl⟩ := append_inj_of_utf8Length
        (hsource.symm.trans (hsplit.trans (List.append_assoc ..))) hbefore.symm
      refine .cons ⟨before, text ++ text', rest', by simp [hsource], rfl, ?_, hgap _ _ rfl htail⟩
        hgaps
      rw [← hstop, List.append_assoc]

end Tiled

/-- Why the source goes on with no piece at offset `p`, where `rest` is left: a comment opener
without a closer after it, a quote that begins no string, or a character that begins no token, no
comment and no blank. -/
inductive Stuck (p : Nat) : List Char → LexError → Prop
  | comment {cs} : ¬ ['*', '/'] <:+: cs →
      Stuck p ('/' :: '*' :: cs)
        (.unterminatedComment ⟨p, p + utf8Length ('/' :: '*' :: cs)⟩)
  | string {quote cs} : quote = '"' ∨ quote = '\'' →
      (∀ text rest, cs = text ++ rest → quote :: text ∉ Pattern.quoted quote) →
      Stuck p (quote :: cs)
        (.unterminatedString ⟨p, p + utf8Length ((quote :: cs).takeWhile (· ≠ '\n'))⟩)
  | character {c cs} : (∀ kind text, c :: text ∉ TokenKind.pattern kind) →
      (∀ text rest, ¬ Gap (c :: text) rest) →
      Stuck p (c :: cs) (.unexpectedCharacter c ⟨p, p + c.utf8Size⟩)

/-- What a lexer makes of a source: tokens that tile it with the end of the input after them, or a
place up to which tokens tile it and where no piece begins. -/
def Accounts (source : List Char) : Except LexError (List Token × NameTable) → Prop
  | .ok (tokens, _) =>
    ∃ words, tokens = words ++ [⟨.endOfInput, ⟨utf8Length source, utf8Length source⟩⟩] ∧
      (∀ token ∈ words, token.kind ≠ .endOfInput) ∧ Tiled source 0 words (utf8Length source)
  | .error error =>
    ∃ words before rest, source = before ++ rest ∧ Tiled source 0 words (utf8Length before) ∧
      Stuck (utf8Length before) rest error

/-- The lexemes that are cut from a source tile it. -/
theorem tiled_of_cuts {cs rest : List Char} {p q : Nat} {lexemes : List (Lexeme × Span)}
    (h : Cuts cs p lexemes rest q) {source : List Char} (before : List Char)
    (hsource : source = before ++ cs) (hp : p = utf8Length before)
    (hshort : utf8Length source < 2 ^ 32) (names : NameTable) :
    Tiled source p (ofLexemes names lexemes).1 q ∧
      ∃ before', source = before' ++ rest ∧ q = utf8Length before' := by
  induction h generalizing before names with
  | nil =>
      subst hp
      exact ⟨.nil hsource, before, hsource, rfl⟩
  | @gap c cs p n lexemes rest q hn _ ih =>
      have hcut : source = before ++ (c :: cs.take n) ++ cs.drop n := by simp [hsource]
      have hstop : p + utf8Length (c :: cs.take n) = utf8Length (before ++ (c :: cs.take n)) := by
        rw [hp, utf8Length_append]
      obtain ⟨htiled, hrest⟩ := ih _ hcut hstop names
      rw [hstop] at htiled
      subst hp
      exact ⟨htiled.gap hcut fun _ _ => Lexeme.gapTail?_gap hn, hrest⟩
  | @lexeme c cs p l n lexemes rest q hn _ ih =>
      have hcut : source = before ++ (c :: cs.take n) ++ cs.drop n := by simp [hsource]
      have hstop : p + utf8Length (c :: cs.take n) = utf8Length (before ++ (c :: cs.take n)) := by
        rw [hp, utf8Length_append]
      have hlong : utf8Length (before ++ (c :: cs.take n)) < 2 ^ 32 := by
        rw [hcut, utf8Length_append] at hshort
        omega
      -- In a short source no offset is cut off.
      have hspan : Span.ofRange p (p + utf8Length (c :: cs.take n)) =
          ⟨utf8Length before, utf8Length (before ++ (c :: cs.take n))⟩ := by
        rw [ofRange_of_lt (by omega) (by omega), hstop, hp]
      generalize Span.ofRange p (p + utf8Length (c :: cs.take n)) = span at hspan ⊢
      rw [ofLexemes_cons]
      obtain ⟨htiled, hrest⟩ := ih _ hcut hstop (ofLexeme names l span).2
      rw [hstop] at htiled
      have hlongest : ∀ kind longer, longer ∈ TokenKind.pattern kind →
          longer <+: c :: cs.take n ++ cs.drop n → longer.length ≤ (c :: cs.take n).length := by
        intro kind longer hkind hhead
        rw [List.cons_append, List.take_append_drop] at hhead
        exact Lexeme.length_le_of_next? hn hkind hhead
      subst hp
      exact ⟨htiled.cons hcut (Lexeme.next?_mem names span hn) hlongest (by simp)
        ((ofLexeme_span ..).trans hspan), hrest⟩

theorem stuck_of_next? {c : Char} {cs : List Char} {p : Nat} (h : Piece.next? c cs = none)
    (hshort : p + utf8Length (c :: cs) < 2 ^ 32) :
    Stuck p (c :: cs) (.ofFailure c cs p) := by
  have hsize := c.utf8Size_pos
  have hlength : utf8Length (c :: cs) = c.utf8Size + utf8Length cs := rfl
  unfold Piece.next? at h
  split at h
  · cases h
  rename_i hgap
  by_cases hcomment : c = '/' ∧ cs.head? = some '*'
  · obtain ⟨rfl, hhead⟩ := hcomment
    obtain ⟨ds, rfl⟩ := List.head?_eq_some_iff.mp hhead
    rw [LexError.ofFailure, if_pos ⟨rfl, hhead⟩, ofRange_of_lt (by omega) hshort]
    have htail : Lexeme.commentTail? ds = none := by
      simpa [Lexeme.gapTail?, Lexeme.isBlank] using hgap
    exact .comment (Lexeme.commentTail?_none htail)
  have hnext : Lexeme.next? c cs = none := by simpa [Lexeme.opensComment, hcomment] using h
  rw [LexError.ofFailure, if_neg hcomment]
  split
  · rename_i hquote
    have hline : utf8Length ((c :: cs).takeWhile (· ≠ '\n')) ≤ utf8Length (c :: cs) := by
      conv_rhs => rw [← @List.takeWhile_append_dropWhile _ (· ≠ '\n') (c :: cs), utf8Length_append]
      exact Nat.le_add_right ..
    rw [ofRange_of_lt (by omega) (by omega)]
    refine .string hquote fun text rest hcs => ?_
    have hne : c ≠ '\\' := by rcases hquote with rfl | rfl <;> decide
    exact Lexeme.stringTail?_none hne (Lexeme.stringTail?_of_next? hnext hquote) hcs
  · rename_i hquote
    obtain ⟨hdouble, hsingle⟩ := not_or.mp hquote
    have hopens := Lexeme.not_opens_of_next? hnext hdouble hsingle
    rw [ofRange_of_lt (by omega) (by omega)]
    refine .character (fun kind text hmem => hopens (Lexeme.opens_of_mem_pattern hmem)) ?_
    refine fun text rest => Lexeme.not_gap_of_gapTail? hgap ?_
    rintro rfl
    exact hopens (Or.inr (Or.inr (Or.inr (Or.inr rfl))))

/-- Lexing tiles the source, or tiles it up to the place of the error. -/
theorem ofSource_accounts (source : String) (names : NameTable)
    (hshort : utf8Length source.toList < 2 ^ 32) :
    Accounts source.toList (ofSource source names) := by
  unfold ofSource
  cases hscan : Lexeme.scan source.toList 0 with
  | ok lexemes =>
      obtain ⟨q, hcuts⟩ := Lexeme.scan_ok hscan
      obtain ⟨htiled, before, hbefore, rfl⟩ :=
        tiled_of_cuts hcuts [] (List.nil_append _).symm rfl hshort names
      obtain rfl : source.toList = before := hbefore.trans (List.append_nil _)
      refine ⟨(ofLexemes names lexemes).1, ?_, ofLexemes_not_endOfInput names lexemes, htiled⟩
      rw [ofRange_of_lt hshort hshort]
  | error e =>
      obtain ⟨lexemes, c, rest, q, hcuts, hnext, rfl⟩ := Lexeme.scan_error hscan
      obtain ⟨htiled, before, hbefore, rfl⟩ :=
        tiled_of_cuts hcuts [] (List.nil_append _).symm rfl hshort names
      refine ⟨_, before, c :: rest, hbefore, htiled, stuck_of_next? hnext ?_⟩
      rwa [hbefore, utf8Length_append] at hshort

theorem ofSource_accounts_unclosed :
    utf8Length "a /*".toList < 2 ^ 32 ∧
      Accounts "a /*".toList (.error (.unterminatedComment ⟨2, 4⟩)) := by
  have hshort : utf8Length "a /*".toList < 2 ^ 32 := by decide
  have hfails : (ofSource "a /*" .initial).map (fun _ => ()) =
      .error (.unterminatedComment ⟨2, 4⟩) := by
    decide +kernel
  have hresult := except_map_error hfails
  exact ⟨hshort, hresult ▸ ofSource_accounts "a /*" .initial hshort⟩

end Token

end PathCopy
