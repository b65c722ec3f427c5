import PathCopy.Proofs.Analysis
import PathCopy.Proofs.Interner
import PathCopy.Proofs.Layout
import PathCopy.Proofs.Pointwise
import PathCopy.Proofs.Spelling
import PathCopy.Proofs.Totality

/-!
The names of a parsed procedure. Each is written in the source, as a word, a string, a keyword or a
number, in the place where the phrase says it, and two of them are equal exactly if they are written
as the same text. It makes no difference that the texts of keywords and numbers are interned when
the words and strings have been.
-/

namespace PathCopy

/-! ### Rows side by side -/

section Rows

variable {α β : Type} {R : α → β → Prop} {as : List α} {bs : List β}

theorem exists_infix_of_forall₂ (h : List.Forall₂ R as bs) {cs : List β} (hwithin : cs <:+: bs) :
    ∃ xs, xs <:+: as ∧ List.Forall₂ R xs cs := by
  obtain ⟨before, later, rfl⟩ := hwithin
  rw [List.append_assoc] at h
  have hrest := List.forall₂_drop_append _ _ _ h
  have hcs := List.forall₂_take_append _ _ _ hrest
  refine ⟨(as.drop before.length).take cs.length, ?_, hcs⟩
  exact (List.take_prefix _ _).isInfix.trans (List.drop_suffix _ _).isInfix

end Rows

/-! ### Tokens and lexemes -/

/-- The text that a lexeme gives to a name: what a word or a string says, and what stands in the
source for a keyword or a number. -/
def Lexeme.text? (source : List Char) : Lexeme × Span → Option String
  | (.word text, _) => some text
  | (.string text, _) => some text
  | (.keyword k, _) => some k.text
  | (.number _, span) => some (span.snippet source)
  | (.symbol _, _) => none

namespace Token

/-- The token is this lexeme, and its text is known. -/
inductive Carries (known : NameTable) (span : Span) : Lexeme → Token → Prop
  | number (x) : Carries known span (.number x) ⟨.number x.toBits, span⟩
  | string {text name} (h : known.Knows name text) :
      Carries known span (.string text) ⟨.string name, span⟩
  | word {text name} (h : known.Knows name text) :
      Carries known span (.word text) ⟨.ident name, span⟩
  | keyword (word) : Carries known span (.keyword word) ⟨.keyword word, span⟩
  | symbol (x) : Carries known span (.symbol x) ⟨.symbol x, span⟩

variable {known names : NameTable}

theorem carries_ofLexeme {l : Lexeme} {span : Span}
    (hknown : (ofLexeme names l span).2.Extends known) :
    Carries known span l (ofLexeme names l span).1 := by
  cases l with
  | number x => exact .number x
  | string text => exact .string (hknown _ _ (names.knows_intern text))
  | word text => exact .word (hknown _ _ (names.knows_intern text))
  | keyword word => exact .keyword word
  | symbol x => exact .symbol x

theorem carries_ofLexemes {lexemes : List (Lexeme × Span)}
    (hknown : (ofLexemes names lexemes).2.Extends known) :
    List.Forall₂ (fun x token => Carries known x.2 x.1 token) lexemes
      (ofLexemes names lexemes).1 := by
  induction lexemes generalizing names with
  | nil => exact .nil
  | cons x lexemes ih =>
      obtain ⟨l, span⟩ := x
      rw [ofLexemes_cons]
      exact .cons (carries_ofLexeme ((extends_ofLexemes _ lexemes).trans hknown)) (ih hknown)

theorem ofLexemes_internAll (names : NameTable) (lexemes : List (Lexeme × Span)) :
    ∃ texts, (ofLexemes names lexemes).2 = names.internAll texts := by
  induction lexemes generalizing names with
  | nil => exact ⟨[], rfl⟩
  | cons x lexemes ih =>
      obtain ⟨l, span⟩ := x
      obtain ⟨texts, htexts⟩ := ih (ofLexeme names l span).2
      cases l with
      | string text | word text => exact ⟨text :: texts, htexts⟩
      | number | keyword | symbol => exact ⟨texts, htexts⟩

/-- A token that is how a name is written has the text of its lexeme. -/
theorem Carries.text? {source : List Char} {x : Lexeme × Span} {token : Token} {name : Name}
    (h : Carries known x.2 x.1 token) (hname : token.Names source known name) :
    ∃ text, Lexeme.text? source x = some text ∧ known.Knows name text := by
  obtain ⟨l, span⟩ := x
  cases h with
  | number x => exact ⟨_, rfl, hname⟩
  | @string text _ hknows =>
      obtain rfl := hname
      exact ⟨text, rfl, hknows⟩
  | @word text _ hknows =>
      obtain rfl := hname
      exact ⟨text, rfl, hknows⟩
  | keyword word => exact ⟨_, rfl, hname⟩
  | symbol x => exact hname.elim

theorem Carries.span {x : Lexeme × Span} {token : Token} (h : Carries known x.2 x.1 token) :
    token.span = x.2 := by
  obtain ⟨l, span⟩ := x
  cases h <;> rfl

end Token

/-! ### The names of phrases -/

/-- The names that a phrase says besides its parts. -/
def Phrase.names : Phrase → List Name
  | .expr (.ident _ name) | .expr (.string _ name) | .expr (.member _ _ name) => [name]
  | .expr (.object _ entries) => entries.map Property.key
  | .stmt (.declare _ name _ _) => [name]
  | _ => []

/-- The names of a phrase stand in the source, in their places and as these texts: an identifier and
a string where the phrase stands, a property where the member ends, a key where its entry begins,
and a variable behind the keyword that declares it. -/
def Phrase.NamesStand (source : List Char) (lexemes : List (Lexeme × Span))
    (textOf : Name → String) : Phrase → Prop
  | .expr (.ident site name) => (.word (textOf name), site.span) ∈ lexemes
  | .expr (.string site name) => (.string (textOf name), site.span) ∈ lexemes
  | .expr (.member site base name) => ∃ x ∈ lexemes,
      site.span = base.span.merge x.2 ∧ Lexeme.text? source x = some (textOf name)
  | .expr (.object _ entries) => ∀ entry ∈ entries, ∃ x ∈ lexemes,
      entry.span = x.2.merge entry.value.span ∧ Lexeme.text? source x = some (textOf entry.key)
  | .stmt (.declare span name _ _) => ∃ word first place last, span = first.merge last ∧
      [(.keyword word, first), (.word (textOf name), place)] <:+: lexemes
  | _ => True

namespace Procedure

def said (p : Procedure) : List Name := p.params.map Param.name ++ p.phrases.flatMap Phrase.names

end Procedure

section Stand

variable {source : List Char} {lexemes : List (Lexeme × Span)} {known : NameTable} {name : Name}
  {span : Span}

/-- The tokens are these lexemes, and the end of the input follows. -/
def Token.Row (known : NameTable) (lexemes : List (Lexeme × Span)) (tokens : List Token) : Prop :=
  ∃ words stop, tokens = words ++ [stop] ∧ stop.kind = .endOfInput ∧
    List.Forall₂ (fun x token => Token.Carries known x.2 x.1 token) lexemes words

variable {tokens : List Token}

theorem Token.Row.mem (h : Token.Row known lexemes tokens) {token : Token} (htoken : token ∈ tokens)
    (hkind : token.kind ≠ .endOfInput) : ∃ x ∈ lexemes, Token.Carries known x.2 x.1 token := by
  obtain ⟨words, stop, rfl, hstop, hwords⟩ := h
  have hmem : token ∈ words := by
    rcases List.mem_append.mp htoken with hmem | hmem
    · exact hmem
    · rw [List.mem_singleton.mp hmem] at hkind
      exact absurd hstop hkind
  exact exists_of_forall₂ hwords.flip hmem

theorem Token.Row.ident (h : Token.Row known lexemes tokens) (hmem : ⟨.ident name, span⟩ ∈ tokens) :
    ∃ text, (.word text, span) ∈ lexemes ∧ known.Knows name text := by
  obtain ⟨⟨l, place⟩, hx, hcarries⟩ := h.mem hmem nofun
  cases hcarries with
  | word hknows => exact ⟨_, hx, hknows⟩

theorem Token.Row.string (h : Token.Row known lexemes tokens)
    (hmem : ⟨.string name, span⟩ ∈ tokens) :
    ∃ text, (.string text, span) ∈ lexemes ∧ known.Knows name text := by
  obtain ⟨⟨l, place⟩, hx, hcarries⟩ := h.mem hmem nofun
  cases hcarries with
  | string hknows => exact ⟨_, hx, hknows⟩

theorem Token.Row.names (h : Token.Row known lexemes tokens) {token : Token} (hmem : token ∈ tokens)
    (hname : token.Names source known name) :
    ∃ x ∈ lexemes, token.span = x.2 ∧
      ∃ text, Lexeme.text? source x = some text ∧ known.Knows name text := by
  have hkind : token.kind ≠ .endOfInput := by
    intro hend
    rw [Token.Names, hend] at hname
    exact hname
  obtain ⟨x, hx, hcarries⟩ := h.mem hmem hkind
  exact ⟨x, hx, hcarries.span, hcarries.text? hname⟩

theorem Token.Row.declared (h : Token.Row known lexemes tokens) {word : Keyword} {first : Span}
    (hwithin : [⟨.keyword word, first⟩, ⟨.ident name, span⟩] <:+: tokens) :
    ∃ text, [(.keyword word, first), (.word text, span)] <:+: lexemes ∧ known.Knows name text := by
  obtain ⟨words, stop, rfl, hstop, hwords⟩ := h
  -- The name is not the end of the input, so both tokens are words.
  have hinner : [⟨.keyword word, first⟩, ⟨.ident name, span⟩] <:+: words := by
    rcases List.infix_concat_iff.mp hwithin with ⟨before, heq⟩ | hinner
    · have hlast := congrArg List.getLast? heq
      simp only [List.getLast?_append, List.getLast?_cons_cons, List.getLast?_singleton,
        Option.some_or, Option.some.injEq] at hlast
      rw [← hlast] at hstop
      cases hstop
    · exact hinner
  obtain ⟨xs, hxs, hrow⟩ := exists_infix_of_forall₂ hwords hinner
  obtain _ | ⟨hkeyword, _ | ⟨hname, hnil⟩⟩ := hrow
  cases hnil
  rename_i x y
  obtain ⟨l, place⟩ := x
  obtain ⟨l', place'⟩ := y
  cases hkeyword
  cases hname with
  | word hknows => exact ⟨_, hxs, hknows⟩

/-- The names of a phrase that is written in tokens stand in the lexemes, and have handles. -/
theorem Phrase.WrittenIn.namesStand (hrow : Token.Row known lexemes tokens) {q : Phrase}
    (h : q.WrittenIn source tokens known) :
    q.NamesStand source lexemes known.lookup ∧ ∀ name ∈ q.names, ∃ text, known.Knows name text := by
  cases q with
  | expr e =>
      cases e with
      | ident site name =>
          obtain ⟨text, hmem, hknows⟩ := hrow.ident h
          refine ⟨?_, List.forall_mem_singleton.mpr ⟨text, hknows⟩⟩
          rwa [NamesStand, hknows.lookup]
      | string site name =>
          obtain ⟨text, hmem, hknows⟩ := hrow.string h
          refine ⟨?_, List.forall_mem_singleton.mpr ⟨text, hknows⟩⟩
          rwa [NamesStand, hknows.lookup]
      | member site base name =>
          obtain ⟨token, htoken, hspan, hname⟩ := h
          obtain ⟨x, hx, hplace, text, htext, hknows⟩ := hrow.names htoken hname
          refine ⟨⟨x, hx, hplace ▸ hspan, ?_⟩, List.forall_mem_singleton.mpr ⟨text, hknows⟩⟩
          rw [htext, hknows.lookup]
      | object site entries =>
          have hentry : ∀ entry ∈ entries, ∃ x ∈ lexemes, ∃ text,
              entry.span = x.2.merge entry.value.span ∧ Lexeme.text? source x = some text ∧
                known.Knows entry.key text := by
            intro entry hentry
            obtain ⟨token, htoken, hspan, hname⟩ := h entry hentry
            obtain ⟨x, hx, hplace, text, htext, hknows⟩ := hrow.names htoken hname
            exact ⟨x, hx, text, hplace ▸ hspan, htext, hknows⟩
          constructor
          · intro entry hmem
            obtain ⟨x, hx, text, hspan, htext, hknows⟩ := hentry entry hmem
            exact ⟨x, hx, hspan, htext.trans (congrArg some hknows.lookup.symm)⟩
          · intro name hname
            obtain ⟨entry, hmem, rfl⟩ := List.mem_map.mp hname
            obtain ⟨x, -, text, -, -, hknows⟩ := hentry entry hmem
            exact ⟨text, hknows⟩
      | _ => exact ⟨trivial, nofun⟩
  | stmt st =>
      cases st with
      | declare span name assignable initial =>
          obtain ⟨word, first, place, last, hspan, hwithin⟩ := h
          obtain ⟨text, hwritten, hknows⟩ := hrow.declared hwithin
          refine ⟨⟨word, first, place, last, hspan, ?_⟩,
            List.forall_mem_singleton.mpr ⟨text, hknows⟩⟩
          rwa [hknows.lookup]
      | _ => exact ⟨trivial, nofun⟩

end Stand

/-! ### Parsing -/

namespace Procedure

/-- The names of a procedure come into a table one after the other, first those of words and strings
and then those of keywords and numbers. -/
theorem parse_internAll {source : String} {p : Procedure} (h : parse source = .ok p) :
    ∃ texts, p.names = NameTable.initial.internAll texts := by
  rw [parse] at h
  split at h
  · cases h
  · rename_i tokens names hlex
    obtain ⟨lexemes, -, hrow⟩ := except_map_ok hlex
    obtain ⟨-, rfl⟩ := Prod.mk.inj hrow
    obtain ⟨texts, htexts⟩ := Token.ofLexemes_internAll .initial lexemes
    obtain ⟨t, ⟨-, texts', hforward⟩, hnames⟩ := Descent.procedure_forward h
    refine ⟨texts ++ texts', ?_⟩
    rw [hnames, hforward, NameTable.internAll_append, ← htexts]

end Procedure

/-- An interner gives each text a handle of its own, at every point of every row of calls that is
short enough for the handles. A parsed procedure has its names from such a row: they stand in the
source as their texts, and two of them are equal exactly if their texts are. -/
theorem interning_oneToOne :
    (∀ calls : List Interner.Call, calls.length < 2 ^ 32 → Interner.Keeps calls) ∧
    ∀ (source : String) (p : Procedure), Procedure.parse source = .ok p →
      ∃ texts lexemes, p.names = NameTable.initial.internAll texts ∧
        (texts.length < 2 ^ 32 →
          (Interner.after (texts.map .intern)).texts = p.names.texts) ∧
        Lexeme.scan source.toList 0 = .ok lexemes ∧
        (∀ x ∈ p.params, (.word (p.nameText x.name), x.span) ∈ lexemes) ∧
        (∀ q ∈ p.phrases, q.NamesStand source.toList lexemes p.nameText) ∧
        ∀ name ∈ p.said, ∀ name' ∈ p.said, name = name' ↔ p.nameText name = p.nameText name' := by
  refine ⟨fun calls h => Interner.keeps h, fun source p h => ?_⟩
  obtain ⟨texts, htexts⟩ := Procedure.parse_internAll h
  obtain ⟨tokens, names, hlex, hextends, -, hparams, hwritten⟩ := Procedure.parse_written h
  obtain ⟨lexemes, hscan, hlex⟩ := except_map_ok hlex
  obtain ⟨htokens, rfl⟩ := Prod.mk.inj hlex
  have hrow : Token.Row p.names lexemes tokens :=
    ⟨_, _, htokens.symm, rfl, Token.carries_ofLexemes hextends⟩
  have hparam : ∀ x ∈ p.params, ∃ text, (.word text, x.span) ∈ lexemes ∧
      p.names.Knows x.name text := fun x hx => hrow.ident (hparams x hx)
  -- A name comes from a parameter or a phrase, and in both cases a word of the source writes it.
  have hsaid : ∀ name ∈ p.said, ∃ text, p.names.Knows name text := by
    intro name hname
    rcases List.mem_append.mp hname with hmem | hmem
    · obtain ⟨x, hx, rfl⟩ := List.mem_map.mp hmem
      exact (hparam x hx).imp fun _ => And.right
    · obtain ⟨q, hq, hmem⟩ := List.mem_flatMap.mp hmem
      exact ((hwritten q hq).namesStand hrow).2 name hmem
  have hnodup : p.names.texts.toList.Nodup := by
    rw [htexts]
    exact NameTable.nodup_internAll (by decide) texts
  refine ⟨texts, lexemes, htexts, fun hlength => ?_, hscan, fun x hx => ?_, fun q hq => ?_, ?_⟩
  · have hcalls : (texts.map Interner.Call.intern).length < 2 ^ 32 := by rwa [List.length_map]
    rw [(Interner.keeps hcalls).table.1, htexts, Interner.tabled, List.filterMap_map]
    exact congrArg (fun row => (NameTable.initial.internAll row).texts) (List.filterMap_some)
  · obtain ⟨text, hmem, hknows⟩ := hparam x hx
    rwa [Procedure.nameText, hknows.lookup]
  · exact ((hwritten q hq).namesStand hrow).1
  · intro name hname name' hname'
    obtain ⟨text, hknows⟩ := hsaid name hname
    obtain ⟨text', hknows'⟩ := hsaid name' hname'
    rw [Procedure.nameText, Procedure.nameText, hknows.lookup, hknows'.lookup]
    exact hknows.eq_iff hnodup hknows'

def conditional : String := "s => \x7b s.if = \x7b if: 'if', 7: s \x7d \x7d"

theorem conditional_parses : (Procedure.parse conditional).toOption.isSome := by decide +kernel

theorem interning_oneToOne_conditional :
    Interner.Keeps [.intern "if", .get "s", .intern "if"] ∧
    ((Procedure.ofText conditional conditional_parses).said.map
      (Procedure.ofText conditional conditional_parses).nameText =
        ["s", "if", "s", "if", "7", "if", "s"]) ∧
    ∀ name ∈ (Procedure.ofText conditional conditional_parses).said,
      ∀ name' ∈ (Procedure.ofText conditional conditional_parses).said, name = name' ↔
        (Procedure.ofText conditional conditional_parses).nameText name =
          (Procedure.ofText conditional conditional_parses).nameText name' := by
  obtain ⟨hkeeps, hparse⟩ := interning_oneToOne
  obtain ⟨texts, lexemes, -, -, -, -, -, hnames⟩ :=
    hparse conditional _ (Procedure.parse_ofText conditional_parses)
  exact ⟨hkeeps _ (by decide), by decide +kernel, hnames⟩

end PathCopy
