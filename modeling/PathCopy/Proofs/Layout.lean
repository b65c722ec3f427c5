import PathCopy.Proofs.Interning
import PathCopy.Proofs.Parting

/-!
Tokens do not depend on the layout: the texts of the tokens of a source with a space between each two
are cut into the same tokens, and each of these texts alone is one token that says the same.
-/

namespace PathCopy

namespace Lexeme

/-! ### Cutting the texts again -/

/-- The text is cut as this lexeme wherever nothing or a blank follows it. -/
structure Spells (l : Lexeme) (text : List Char) : Prop where
  starts : ∃ c cs, text = c :: cs ∧ ¬ isBlank c
  scan : ∀ rest p, Parts rest → scan (text ++ rest) p =
    (scan rest (p + utf8Length text)).map ((l, Span.ofRange p (p + utf8Length text)) :: ·)

theorem spells_of_next? {c : Char} {cs : List Char} {l : Lexeme} {n : Nat}
    (h : Piece.next? c cs = some (.lexeme l, n)) : Spells l (c :: cs.take n) where
  starts := ⟨c, cs.take n, rfl, (Piece.not_gap h).1⟩
  scan rest p hrest := by
    have hn : (cs.take n).length = n := List.length_take_of_le (next?_le (Piece.next?_lexeme h))
    rw [List.cons_append, Lexeme.scan, Piece.next?_take hrest h]
    simp only [List.drop_left' hn, List.take_left' hn]

theorem Spells.scan_alone {l : Lexeme} {text : List Char} (h : Spells l text) (p : Nat) :
    Lexeme.scan text p = .ok [(l, Span.ofRange p (p + utf8Length text))] := by
  have hscan := h.scan [] p parts_nil
  rw [List.append_nil] at hscan
  rw [hscan, Lexeme.scan]
  rfl

/-- The texts of the lexemes of a source. -/
def slices : List Char → List (List Char)
  | [] => []
  | c :: cs =>
    match Piece.next? c cs with
    | none => []
    | some (.gap, n) => slices (cs.drop n)
    | some (.lexeme _, n) => (c :: cs.take n) :: slices (cs.drop n)
  termination_by cs => cs.length
  decreasing_by all_goals simp only [List.length_drop, List.length_cons]; omega

/-- Each of these texts spells its lexeme. -/
theorem spells_slices {cs : List Char} {p : Nat} {lexemes : List (Lexeme × Span)}
    (h : scan cs p = .ok lexemes) :
    List.Forall₂ Spells (lexemes.map Prod.fst) (slices cs) := by
  fun_induction scan cs p generalizing lexemes with
  | case1 p =>
      cases h
      rw [slices]
      exact .nil
  | case2 c cs p hnext => cases h
  | case3 c cs p n _ hnext =>
      rename_i ih
      rw [slices, hnext]
      exact ih h
  | case4 c cs p n _ l hnext =>
      rename_i ih
      obtain ⟨lexemes, hrest, rfl⟩ := except_map_ok h
      rw [slices, hnext]
      exact .cons (spells_of_next? hnext) (ih hrest)

def spaced (texts : List (List Char)) : List Char := [' '].intercalate texts

theorem spaced_cons_cons (text next : List Char) (texts : List (List Char)) :
    spaced (text :: next :: texts) = text ++ ' ' :: spaced (next :: texts) := by
  simp [spaced, List.intercalate_cons_cons]

theorem head?_spaced {c : Char} {cs : List Char} (texts : List (List Char)) :
    (spaced ((c :: cs) :: texts)).head? = some c := by
  cases texts with
  | nil => rw [spaced, List.intercalate_singleton, List.head?_cons]
  | cons next texts => rw [spaced_cons_cons, List.cons_append, List.head?_cons]

theorem gapTail?_of_isBlank {c : Char} (h : isBlank c) (cs : List Char) :
    gapTail? c cs = some (cs.takeWhile isBlank).length := by
  rcases blank_cases h with rfl | rfl | rfl | rfl | rfl <;> rfl

theorem scan_space {text : List Char} {p : Nat} (h : ∀ c ∈ text.head?, ¬ isBlank c) :
    scan (' ' :: text) p = scan text (p + 1) := by
  have hnext : Piece.next? ' ' text = some (.gap, 0) := by
    rw [Piece.next?, gapTail?_of_isBlank rfl, takeWhile_stop h]
    rfl
  rw [scan, hnext]
  rfl

theorem scan_blanks {blanks : List Char} (h : ∀ c ∈ blanks, isBlank c) (p : Nat) :
    scan blanks p = .ok [] := by
  cases blanks with
  | nil => rw [scan]
  | cons c cs =>
      have hall : cs.takeWhile isBlank = cs :=
        List.takeWhile_eq_self_iff.mpr fun d hd => h d (.tail c hd)
      have hnext : Piece.next? c cs = some (.gap, cs.length) := by
        rw [Piece.next?, gapTail?_of_isBlank (h c (.head cs)), hall]
      rw [scan, hnext]
      show scan (cs.drop cs.length) _ = _
      rw [List.drop_length, scan]

/-- Texts that spell lexemes are cut into these when a space stands between each two, whatever blanks
stand behind the last. -/
theorem scan_spaced {lexemes : List Lexeme} {texts : List (List Char)}
    (h : List.Forall₂ Spells lexemes texts) {blanks : List Char} (hblanks : ∀ c ∈ blanks, isBlank c)
    (p : Nat) :
    ∃ found, scan (spaced texts ++ blanks) p = .ok found ∧ found.map Prod.fst = lexemes := by
  induction h generalizing p with
  | nil =>
      refine ⟨[], ?_, rfl⟩
      rw [spaced, List.intercalate_nil, List.nil_append, scan_blanks hblanks]
  | @cons l text lexemes texts hl hrest ih =>
      cases hrest with
      | nil =>
          have hparts : Parts blanks := fun d hd => hblanks d (List.mem_of_mem_head? hd)
          rw [spaced, List.intercalate_singleton, hl.scan _ _ hparts, scan_blanks hblanks]
          exact ⟨_, rfl, rfl⟩
      | @cons l' text' lexemes texts hl' hrest =>
          obtain ⟨c, cs, rfl, hc⟩ := hl'.starts
          obtain ⟨found, hfound, hmap⟩ := ih (p + utf8Length text + 1)
          have hstart : ∀ d ∈ (spaced ((c :: cs) :: texts) ++ blanks).head?, ¬ isBlank d := by
            simpa [List.head?_append, head?_spaced] using hc
          refine ⟨(l, Span.ofRange p (p + utf8Length text)) :: found, ?_, ?_⟩
          · rw [spaced_cons_cons, List.append_assoc, List.cons_append, hl.scan _ _ (parts_space _),
              scan_space hstart, hfound]
            rfl
          · rw [List.map_cons, hmap]

/-- The texts of the lexemes are what stands in the source under their spans, as long as spans can
record the offsets. -/
theorem chars?_slices {cs : List Char} {p : Nat} {lexemes : List (Lexeme × Span)}
    (h : scan cs p = .ok lexemes) {source before : List Char} (hsource : source = before ++ cs)
    (hp : p = utf8Length before) (hshort : utf8Length source < 2 ^ 32) :
    List.Forall₂ (fun span text => Span.chars? span source = some text)
      (lexemes.map Prod.snd) (slices cs) := by
  have hcut : ∀ (before : List Char) (c : Char) (cs : List Char) (n : Nat),
      before ++ c :: cs = before ++ (c :: cs.take n) ++ cs.drop n := by simp
  fun_induction scan cs p generalizing lexemes before with
  | case1 p =>
      cases h
      rw [slices]
      exact .nil
  | case2 c cs p hnext => cases h
  | case3 c cs p n stop hnext =>
      rename_i ih
      rw [slices, hnext]
      exact ih h (hsource.trans (hcut ..)) (by rw [utf8Length_append, ← hp])
  | case4 c cs p n stop l hnext =>
      rename_i ih
      obtain ⟨lexemes, hrest, rfl⟩ := except_map_ok h
      have hstop : stop = utf8Length (before ++ (c :: cs.take n)) := by
        rw [utf8Length_append, ← hp]
      have hlong : stop < 2 ^ 32 := by
        rw [hsource, hcut before c cs n, utf8Length_append, ← hstop] at hshort
        omega
      have hle : p ≤ stop := Nat.le_add_right ..
      rw [slices, hnext]
      refine .cons ?_ (ih hrest (hsource.trans (hcut ..)) hstop)
      show (Span.ofRange p stop).chars? source = _
      rw [ofRange_of_lt (by omega) hlong, hp, hstop, hsource, hcut before c cs n]
      exact chars?_append ..

end Lexeme

/-! ### Tokens -/

/-- Whether two tokens say the same, the first with its texts in `names` and the second with its texts
in `names'`. -/
def TokenKind.Agrees (names names' : NameTable) : TokenKind → TokenKind → Prop
  | .string name, .string name' => names.lookup name = names'.lookup name'
  | .ident name, .ident name' => names.lookup name = names'.lookup name'
  | kind, kind' => kind = kind'

namespace Token

variable {names names' : NameTable}

theorem extends_ofLexeme (names : NameTable) (l : Lexeme) (span : Span) :
    names.Extends (ofLexeme names l span).2 := by
  cases l with
  | string text | word text => exact names.extends_intern text
  | number | keyword | symbol => exact .refl names

theorem extends_ofLexemes (names : NameTable) (lexemes : List (Lexeme × Span)) :
    names.Extends (ofLexemes names lexemes).2 := by
  induction lexemes generalizing names with
  | nil => exact .refl names
  | cons x lexemes ih => exact (extends_ofLexeme names x.1 x.2).trans (ih _)

/-- The token of a lexeme says the same in all tables that know its text. -/
theorem ofLexeme_agrees {l : Lexeme} {span span' : Span} {known known' : NameTable}
    (hknown : (ofLexeme names l span).2.Extends known)
    (hknown' : (ofLexeme names' l span').2.Extends known') :
    TokenKind.Agrees known known' (ofLexeme names l span).1.kind
      (ofLexeme names' l span').1.kind := by
  cases l with
  | string text | word text =>
      exact (hknown _ _ (names.knows_intern text)).lookup.trans
        (hknown' _ _ (names'.knows_intern text)).lookup.symm
  | number | keyword | symbol => rfl

/-- The kinds of the tokens and the table after them do not depend on where the lexemes stand. -/
theorem ofLexemes_congr {lexemes lexemes' : List (Lexeme × Span)}
    (h : lexemes.map Prod.fst = lexemes'.map Prod.fst) (names : NameTable) :
    (ofLexemes names lexemes).1.map Token.kind = (ofLexemes names lexemes').1.map Token.kind ∧
      (ofLexemes names lexemes).2 = (ofLexemes names lexemes').2 := by
  have hone : ∀ (names : NameTable) (l : Lexeme) (span span' : Span),
      (ofLexeme names l span).1.kind = (ofLexeme names l span').1.kind ∧
        (ofLexeme names l span).2 = (ofLexeme names l span').2 := by
    intro names l span span'
    cases l <;> exact ⟨rfl, rfl⟩
  induction lexemes generalizing lexemes' names with
  | nil =>
      cases lexemes' with
      | nil => exact ⟨rfl, rfl⟩
      | cons y lexemes' => cases h
  | cons x lexemes ih =>
      cases lexemes' with
      | nil => cases h
      | cons y lexemes' =>
          obtain ⟨l, span⟩ := x
          obtain ⟨l', span'⟩ := y
          obtain ⟨rfl, hrest⟩ : l = l' ∧ lexemes.map Prod.fst = lexemes'.map Prod.fst :=
            List.cons.inj h
          obtain ⟨hkind, hnames⟩ := hone names l span span'
          obtain ⟨hkinds, hafter⟩ := ih hrest (ofLexeme names l span).2
          constructor
          · rw [ofLexemes_cons, ofLexemes_cons, List.map_cons, List.map_cons, hkind, hkinds, hnames]
          · show (ofLexemes (ofLexeme names l span).2 lexemes).2 =
              (ofLexemes (ofLexeme names l span').2 lexemes').2
            rw [hafter, hnames]

/-- The text alone is one token, and this token says the same as the given one, whose text `known`
has. -/
def Says (known : NameTable) (token : Token) (text : List Char) : Prop :=
  ∀ other, ∃ alone other',
    ofSource (String.ofList text) other =
      .ok ([alone, ⟨.endOfInput, Span.ofRange (utf8Length text) (utf8Length text)⟩], other') ∧
    TokenKind.Agrees other' known alone.kind token.kind

theorem ofSource_of_spells {l : Lexeme} {text : List Char} (h : l.Spells text) (other : NameTable) :
    ofSource (String.ofList text) other =
      .ok ([(ofLexeme other l (Span.ofRange 0 (utf8Length text))).1,
          ⟨.endOfInput, Span.ofRange (utf8Length text) (utf8Length text)⟩],
        (ofLexeme other l (Span.ofRange 0 (utf8Length text))).2) := by
  rw [ofSource, String.toList_ofList, h.scan_alone 0, Nat.zero_add]
  rfl

/-- The tokens of a row of lexemes say what the texts of these lexemes say alone. -/
theorem says_ofLexemes {lexemes : List (Lexeme × Span)} {texts : List (List Char)}
    (h : List.Forall₂ Lexeme.Spells (lexemes.map Prod.fst) texts) {known : NameTable}
    (hknown : (ofLexemes names lexemes).2.Extends known) :
    List.Forall₂ (Says known) (ofLexemes names lexemes).1 texts := by
  induction lexemes generalizing names texts with
  | nil =>
      cases h
      exact .nil
  | cons x lexemes ih =>
      obtain ⟨l, span⟩ := x
      cases h with
      | cons hl hrest =>
          rw [ofLexemes_cons]
          refine .cons (fun other => ⟨_, _, ofSource_of_spells hl other, ?_⟩) (ih hrest hknown)
          exact ofLexeme_agrees (.refl _) ((extends_ofLexemes _ lexemes).trans hknown)

/-- The tokens of a source do not depend on its layout. The texts of the tokens with a space between
each two are cut into tokens of the same kinds, under the same handles, and leave the same table,
whatever blanks stand behind the last, before the empty text of the end; each text alone is one token
that says the same. -/
theorem ofSource_spaced {source : String} {tokens : List Token}
    (h : ofSource source names = .ok (tokens, names')) :
    ∃ words stop, tokens = words ++ [⟨.endOfInput, stop⟩] ∧
      (∀ blanks : List Char, (∀ c ∈ blanks, Lexeme.isBlank c) → ∃ again,
        ofSource (String.ofList (Lexeme.spaced (Lexeme.slices source.toList) ++ blanks)) names =
          .ok (again, names') ∧ again.map Token.kind = tokens.map Token.kind) ∧
      List.Forall₂ (Says names') words (Lexeme.slices source.toList) ∧
      (utf8Length source.toList < 2 ^ 32 →
        List.Forall₂ (fun word text => word.span.chars? source.toList = some text) words
          (Lexeme.slices source.toList)) := by
  obtain ⟨lexemes, hscan, hread⟩ := except_map_ok h
  obtain ⟨htokens, hnames⟩ := Prod.mk.inj hread
  have hspells := Lexeme.spells_slices hscan
  refine ⟨_, _, htokens.symm, fun blanks hblanks => ?_, says_ofLexemes hspells ?_, fun hshort => ?_⟩
  · obtain ⟨found, hfound, hmap⟩ := Lexeme.scan_spaced hspells hblanks 0
    obtain ⟨hkinds, hafter⟩ := ofLexemes_congr hmap names
    let stop := utf8Length (Lexeme.spaced (Lexeme.slices source.toList) ++ blanks)
    refine ⟨(ofLexemes names found).1 ++ [⟨.endOfInput, Span.ofRange stop stop⟩], ?_, ?_⟩
    · rw [ofSource, String.toList_ofList, hfound]
      exact congrArg Except.ok (congrArg (Prod.mk _) (hafter.trans hnames))
    · rw [← htokens, List.map_append, List.map_append, hkinds]
      rfl
  · rw [hnames]
    exact .refl names'
  · have hslices := Lexeme.chars?_slices hscan source.toList.nil_append.symm rfl hshort
    rw [← ofLexemes_spans names, List.forall₂_map_left_iff] at hslices
    exact hslices

def crowded : String := "a.b=1.5.e2+++/*c*/0x1f/.5e1'//'"

theorem ofSource_spaced_crowded :
    Lexeme.spaced (Lexeme.slices crowded.toList) =
        "a . b = 1.5 . e2 ++ + 0x1f / .5e1 '//'".toList ∧
      ∃ tokens names', ofSource crowded .initial = .ok (tokens, names') ∧
        ∃ again, ofSource "a . b = 1.5 . e2 ++ + 0x1f / .5e1 '//'" .initial =
          .ok (again, names') ∧ again.map Token.kind = tokens.map Token.kind := by
  have htext : Lexeme.spaced (Lexeme.slices crowded.toList) =
      "a . b = 1.5 . e2 ++ + 0x1f / .5e1 '//'".toList := by decide +kernel
  have hlexes : (ofSource crowded .initial).toOption.isSome := by decide +kernel
  obtain ⟨⟨tokens, names'⟩, hread⟩ := Option.isSome_iff_exists.mp hlexes
  have h := eq_ok_of_mem_toOption hread
  obtain ⟨words, stop, -, hspaced, -⟩ := ofSource_spaced h
  obtain ⟨again, hagain, hkinds⟩ := hspaced [] nofun
  rw [List.append_nil, htext, String.ofList_toList] at hagain
  exact ⟨htext, tokens, names', h, again, hagain, hkinds⟩

end Token

end PathCopy
