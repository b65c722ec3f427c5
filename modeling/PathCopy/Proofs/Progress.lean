import PathCopy.Proofs.Totality
import PathCopy.Proofs.Tiling

/-!
The grammar always makes progress. Wherever a function of the grammar is started in a row of tokens,
it ends with a value or with an error: it has moved the cursor neither backwards nor behind the last
token, and with a value it has consumed at least one token. So a row of tokens is read to its end,
with at most as many blocks, expressions and operands inside each other as there are tokens.
-/

namespace PathCopy

namespace Descent

open PathCopy.Parser

/-! ### Places in a row of tokens -/

/-- The end of the input is the last token and no other. -/
def EndsOnce (tokens : List Token) : Prop :=
  ∃ body stop, tokens = body ++ [stop] ∧ stop.kind = .endOfInput ∧
    ∀ token ∈ body, token.kind ≠ .endOfInput

/-- The cursor is at a place in a row of tokens: so many of them are behind it. -/
structure At (tokens : List Token) (place : ℕ) (s : State) : Prop where
  behind : s.cursor.behind = (tokens.take place).reverse
  ahead : s.cursor.ahead = tokens.drop place

section Places

variable {tokens : List Token} {place : ℕ} {s t : State}

theorem At.left (h : At tokens place s) : s.left = tokens.length - place := by
  rw [State.left, Cursor.left, h.ahead, List.length_drop]

theorem At.words_le (h : At tokens place s) : s.words ≤ tokens.length := by
  have hleft := h.left
  have hwords := s.words_le_left
  omega

theorem At.stop_mem (htokens : EndsOnce tokens) (hplace : place < tokens.length)
    (h : At tokens place s) : ∃ stop ∈ s.cursor.ahead, stop.kind = .endOfInput := by
  obtain ⟨body, stop, rfl, hstop, -⟩ := htokens
  have hle : place ≤ body.length := by simpa [Nat.lt_succ_iff] using hplace
  refine ⟨stop, ?_, hstop⟩
  simp [h.ahead, List.drop_append_of_le_length hle]

theorem At.words_lt (htokens : EndsOnce tokens) (hplace : place < tokens.length)
    (h : At tokens place s) : s.words < tokens.length := by
  obtain ⟨stop, hmem, hstop⟩ := h.stop_mem htokens hplace
  have hne : s.words ≠ s.left := by
    intro heq
    have hself := (List.takeWhile_prefix _).eq_of_length heq
    have hall := List.takeWhile_eq_self_iff.mp hself stop hmem
    simp [hstop] at hall
  have hleft := h.left
  have hwords := s.words_le_left
  omega

theorem At.forward (htokens : EndsOnce tokens) (hplace : place < tokens.length)
    (h : At tokens place s) (hst : Forward s t) :
    ∃ place', At tokens place' t ∧ place' + t.left = place + s.left ∧ place' < tokens.length := by
  obtain ⟨⟨passed, hpassed⟩, -⟩ := hst
  obtain ⟨stop, hmem, hstop⟩ := h.stop_mem htokens hplace
  have hdrop : passed ++ t.cursor.ahead = tokens.drop place := hpassed.ahead.symm.trans h.ahead
  have hahead : t.cursor.ahead = tokens.drop (place + passed.length) := by
    rw [← List.drop_drop, ← hdrop, List.drop_left]
  have htake : tokens.take (place + passed.length) = tokens.take place ++ passed := by
    rw [List.take_add, ← hdrop, List.take_left]
  -- The last token is not passed.
  have hnext : stop ∈ t.cursor.ahead := by
    rw [hpassed.ahead, List.mem_append] at hmem
    exact hmem.resolve_left fun hin => hpassed.words stop hin hstop
  have hlength := List.length_pos_of_mem hnext
  rw [hahead, List.length_drop] at hlength
  refine ⟨place + passed.length, ⟨?_, hahead⟩, ?_, by omega⟩
  · rw [hpassed.behind, h.behind, htake, List.reverse_append]
  · rw [State.left, State.left, Cursor.left, Cursor.left, hpassed.ahead, List.length_append]
    omega

end Places

/-! ### The functions of the grammar -/

variable {α : Type} {tokens : List Token} {place least : ℕ}

/-- What a total reader gives: a value with the state in which it ends, or an error. -/
def outcome {n : ℕ} (x : Except ParseError (Parsed n α)) : Except ParseError (α × State) :=
  x.map fun r => (r.value, r.state)

/-- At a place in a row of tokens the program gives a value or finds fault with the tokens, as the
total reader does; it does not come to a limit. It leaves the cursor at a place in the row that is
no earlier, and when it gives a value it has consumed so many tokens at least. -/
def Proceeds (tokens : List Token) (place least : ℕ) (reader : Reader α)
    (total : State → Except ParseError (α × State)) : Prop :=
  ∀ s, At tokens place s →
    (∃ value t place', reader s = .ok value t ∧ total s = .ok (value, t) ∧
      At tokens place' t ∧ place + least ≤ place' ∧ place' < tokens.length) ∨
    ∃ e t place', reader s = .error (.fault e) t ∧ total s = .error e ∧
      At tokens place' t ∧ place ≤ place' ∧ place' < tokens.length

def inside (source : List Char) {n : ℕ} : Below n := fun t _ => Parser.expr source t

def insideBlock (source : List Char) {n : ℕ} : BlockBelow n := fun t _ => Parser.blockRest source t

/-- The total reader of a declaration, from its keyword on. -/
def declared (source : List Char) (constant : Bool) (s : State) :
    Except ParseError (Parsed s.left Stmt) :=
  if h : s.kind = .endOfInput then .error (.found .variableName s.current)
  else do
    let declared ← Parser.declaration source constant s.current.span (s.take h).state
    .ok (declared.weaken (Nat.le_of_lt (s.take h).shorter))

def oneParam (s : State) : Except ParseError (Param × State) :=
  match s.kind with
  | .ident name => .ok (⟨name, s.current.span⟩, { s with cursor := s.cursor.advance })
  | _ => .error (.found .parameterName s.current)

/-- The functions of the grammar: programs with their limits, and the total readers. Each consumes a
token at least if it succeeds, apart from those that only continue what has been read. -/
inductive Grammar (source : List Char) (rounds depth : ℕ) :
    {α : Type} → ℕ → Reader α → (State → Except ParseError (α × State)) → Prop
  | advance : Grammar source rounds depth 0 advance
      fun s => .ok (s.current, { s with cursor := s.cursor.advance })
  | eat (x) : Grammar source rounds depth 0 (eat x)
      fun s => .ok (decide (s.kind = .symbol x), s.eat x)
  | expect (x) : Grammar source rounds depth 1 (expect x) fun s => outcome (s.expect x)
  | propertyName : Grammar source rounds depth 1 propertyName
      fun s => outcome (Parser.propertyName s)
  | entryKey : Grammar source rounds depth 1 (entryKey source)
      fun s => outcome (Parser.entryKey source s)
  | items (close) : Grammar source rounds depth 1
      (items (level source rounds depth).expr close rounds)
      fun s => outcome (Parser.items (inside source) close s s.left.lt_succ_self)
  | entry : Grammar source rounds depth 1 (entry source (level source rounds depth).expr)
      fun s => outcome (Parser.entry source (inside source) s s.left.lt_succ_self)
  | entries : Grammar source rounds depth 1
      (entries source (level source rounds depth).expr rounds)
      fun s => outcome (Parser.entries source (inside source) s s.left.lt_succ_self)
  | primary : Grammar source rounds depth 1
      (primary source rounds (level source rounds depth).expr)
      fun s => outcome (Parser.primary source (inside source) s s.left.le_refl)
  | chain (e) : Grammar source rounds depth 0
      (chain (level source rounds depth).expr
        (Descent.items (level source rounds depth).expr .rparen rounds) rounds e)
      fun s => outcome
        (Parser.chain (inside source) (s.left + 1).le_refl e s s.left.lt_succ_self)
  | postfixed : Grammar source rounds depth 1
      (postfixed source rounds (level source rounds depth).expr)
      fun s => outcome (do
        let base ← Parser.primary source (inside source) s s.left.le_refl
        Parser.chain (inside source) s.left.le_refl base.value base.state base.shorter)
  | operand : Grammar source rounds depth 1 (level source rounds depth).operand
      fun s => outcome (Parser.operand source (inside source) s s.left.le_refl)
  | factors (left) : Grammar source rounds depth 0
      (infixed productOp? (Descent.operand source rounds (level source rounds depth)) rounds left)
      fun s => outcome
        (Parser.factors source (inside source) (s.left + 1).le_refl left s s.left.lt_succ_self)
  | product : Grammar source rounds depth 1 (product source rounds (level source rounds depth))
      fun s => outcome (Parser.product source (inside source) s s.left.le_refl)
  | terms (left) : Grammar source rounds depth 0
      (infixed sumOp? (Descent.product source rounds (level source rounds depth)) rounds left)
      fun s => outcome
        (Parser.terms source (inside source) (s.left + 1).le_refl left s s.left.lt_succ_self)
  | sum : Grammar source rounds depth 1 (sum source rounds (level source rounds depth))
      fun s => outcome (Parser.sum source (inside source) s s.left.le_refl)
  | expr : Grammar source rounds depth 1 (level source rounds depth).expr
      fun s => outcome (Parser.expr source s)
  | initialValue (constant) : Grammar source rounds depth 0
      (initialValue (level source rounds depth).expr constant)
      fun s => outcome (Parser.initialValue source constant s s.left.lt_succ_self)
  | declaration (constant) : Grammar source rounds depth 1
      (declaration (level source rounds depth).expr constant)
      fun s => outcome (declared source constant s)
  | stmt : Grammar source rounds depth 1
      (stmt (level source rounds depth).expr (blockRest source rounds depth))
      fun s => outcome (Parser.stmt source (insideBlock source) s s.left.le_refl)
  | stmts : Grammar source rounds depth 1
      (stmts (Descent.stmt (level source rounds depth).expr (blockRest source rounds depth)) rounds)
      fun s => outcome (Parser.stmts source (insideBlock source) s s.left.le_refl)
  | block : Grammar source rounds depth 1 (block source rounds depth)
      fun s => outcome (Parser.block source s)
  | param : Grammar source rounds depth 1 param oneParam
  | params : Grammar source rounds depth 1 (params rounds) fun s => outcome (Parser.params s)
  | arrowBody : Grammar source rounds depth 1 (arrowBody source rounds depth)
      fun s => outcome (Parser.arrowBody source s)
  | signature : Grammar source rounds depth 1 (signature source rounds depth)
      fun s => outcome (Parser.signature source s)
  | procedure : Grammar source rounds depth 1 (procedure source rounds depth)
      fun s => outcome (closed source s)

/-- The program ends, and as a total reader does: with the same value or with the same error. -/
inductive Agrees (reader : Reader α) (s : State) : Except ParseError α → Prop
  | ok {value : α} {t : State} (h : reader s = .ok value t) : Agrees reader s (.ok value)
  | error {e : ParseError} {t : State} (h : reader s = .error (.fault e) t) :
      Agrees reader s (.error e)

theorem Meets.agrees {n : ℕ} {reader : Reader α} {s : State} {x : Except ParseError (Parsed n α)}
    (h : Meets reader s x) : Agrees reader s (x.map Parsed.value) := by
  cases h with
  | ok r hrun _ => exact .ok hrun
  | error hrun _ => exact .error hrun

/-- The program meets a total reader that gives this and consumes so many tokens at least. -/
def Reads (least : ℕ) (reader : Reader α) (s : State) (y : Except ParseError (α × State)) : Prop :=
  ∃ (n : ℕ) (x : Except ParseError (Parsed n α)),
    n + least ≤ s.left + 1 ∧ Meets reader s x ∧ outcome x = y

section Reads

variable {reader : Reader α} {s : State}

theorem Meets.reads {x : Except ParseError (Parsed s.left α)} (h : Meets reader s x) :
    Reads 1 reader s (outcome x) :=
  ⟨_, x, Nat.le_refl _, h, rfl⟩

theorem Meets.continues {x : Except ParseError (Parsed (s.left + 1) α)} (h : Meets reader s x) :
    Reads 0 reader s (outcome x) :=
  ⟨_, x, Nat.le_refl _, h, rfl⟩

theorem Reads.proceeds {total : State → Except ParseError (α × State)}
    (htokens : EndsOnce tokens) (hplace : place < tokens.length)
    (h : ∀ s, At tokens place s → Reads least reader s (total s)) :
    Proceeds tokens place least reader total := by
  intro s hs
  obtain ⟨n, x, hbound, hx, htotal⟩ := h s hs
  cases hx with
  | ok r hrun hforward =>
      obtain ⟨place', hat, hleft, hlt⟩ := hs.forward htokens hplace hforward
      have hshorter := r.shorter
      exact .inl ⟨r.value, r.state, place', hrun, htotal.symm, hat, by omega, hlt⟩
  | @error e t hrun hforward =>
      obtain ⟨place', hat, hleft, hlt⟩ := hs.forward htokens hplace hforward
      have hle := hforward.left_le
      exact .inr ⟨e, t, place', hrun, htotal.symm, hat, by omega, hlt⟩

end Reads

theorem advance_reads (s : State) :
    Reads 0 advance s (.ok (s.current, { s with cursor := s.cursor.advance })) := by
  by_cases hend : s.kind = .endOfInput
  · have hadvance := advance_end hend
    obtain ⟨-, hstate⟩ := EStateM.Result.ok.inj hadvance
    rw [hstate]
    exact Meets.continues (.ok ⟨s.current, s, Nat.lt_succ_self _⟩ hadvance (.refl s))
  · have hlt := Nat.lt_succ_of_lt (s.take hend).shorter
    exact Meets.continues (.ok ⟨s.current, (s.take hend).state, hlt⟩ rfl (.take hend))

theorem eat_reads (s : State) (x : Symbol) :
    Reads 0 (eat x) s (.ok (decide (s.kind = .symbol x), s.eat x)) :=
  Meets.continues (.ok ⟨_, s.eat x, Nat.lt_succ_of_le (s.left_eat_le x)⟩ (eat_run s x) (.eat s x))

theorem oneParam_reads (s : State) : Reads 1 param s (oneParam s) := by
  unfold oneParam
  split
  · rename_i name hkind
    have hne := State.ne_end_of_eq hkind (by simp)
    exact Meets.reads (.ok ⟨_, (s.take hne).state, (s.take hne).shorter⟩ (param_pos hkind)
      (.take hne))
  · rename_i hident
    exact Meets.reads (.error (param_neg hident) (.refl s))

section Grammar

variable {source : List Char} {rounds depth : ℕ} {s : State}

/-- Also where it is not called: at the end of the input a declaration lacks its name. -/
theorem declared_meets (hrounds : s.words < rounds) (hdepth : s.words < depth) (constant : Bool) :
    Meets (declaration (level source rounds depth).expr constant) s
      (declared source constant s) := by
  unfold declared
  split
  · rename_i hend
    have hcurrent : s.current.kind = .endOfInput := hend
    refine .look (advance_end hend) (.look rfl ?_)
    simp only [hcurrent]
    exact .fail _
  · rename_i hend
    exact declaration_meets (expr_meets source rounds depth) constant s hend (by omega)

theorem grammar_reads {reader : Reader α} {total : State → Except ParseError (α × State)}
    (h : Grammar source rounds depth least reader total) (hrounds : s.words < rounds)
    (hdepth : s.words < depth) : Reads least reader s (total s) := by
  have hlt : s.left < s.left + 1 := Nat.lt_succ_self _
  have hle : s.left ≤ s.left := Nat.le_refl _
  have hmore : s.left + 1 ≤ s.left + 1 := Nat.le_refl _
  have hinner := level_meets source rounds depth s.left
  have hlevel := level_meets source rounds depth (s.left + 1)
  have hexpr := expr_meets source rounds depth
  have hblock := blockRest_meetsBlock source rounds depth s.left
  cases h with
  | advance => exact advance_reads s
  | eat x => exact eat_reads s x
  | expect x => exact (expect_meets s x).reads
  | propertyName => exact (propertyName_meets s).reads
  | entryKey => exact (entryKey_meets source s).reads
  | items close => exact (items_meets hlevel.expr s hlt (by omega) hrounds).reads
  | entry => exact (entry_meets hlevel.expr s hlt (by omega)).reads
  | entries => exact (entries_meets hlevel.expr s hlt (by omega) hrounds).reads
  | primary => exact (primary_meets hinner.expr s hle (by omega) (by omega)).reads
  | chain e =>
      exact (chain_meets hlevel.expr hmore e s hlt (by omega) (by omega) hrounds).continues
  | postfixed => exact (postfixed_meets hinner.expr s hle (by omega) (by omega)).reads
  | operand => exact (hinner.operand s hle (by omega)).reads
  | factors left =>
      exact (factors_meets hlevel hmore left s hlt (by omega) (by omega) hrounds).continues
  | product => exact (product_meets hinner s hle (by omega) (by omega)).reads
  | terms left =>
      exact (terms_meets hlevel hmore left s hlt (by omega) (by omega) hrounds).continues
  | sum => exact (sum_meets hinner s hle (by omega) (by omega)).reads
  | expr => exact (hexpr s (by omega)).reads
  | initialValue constant => exact (initialValue_meets hexpr constant s hlt (by omega)).continues
  | declaration constant => exact (declared_meets hrounds hdepth constant).reads
  | stmt => exact (stmt_meets hexpr hblock s hle (by omega)).reads
  | stmts => exact (stmts_meets hexpr hblock s hle (by omega) hrounds).reads
  | block => exact (block_meets s hdepth (by omega)).reads
  | param => exact oneParam_reads s
  | params => exact (params_meets s hrounds).reads
  | arrowBody => exact (arrowBody_meets s hdepth (by omega)).reads
  | signature => exact (signature_meets s (by omega) (by omega)).reads
  | procedure => exact (procedure_meets s (by omega) (by omega)).reads

theorem procedure_agrees (hrounds : s.words ≤ rounds) (hdepth : s.words ≤ depth) :
    Agrees (procedure source rounds depth) s (Parser.procedure source s) := by
  rw [← closed_value]
  exact (procedure_meets s hdepth hrounds).agrees

/-- The tokens of a source text end once, and parsing it is to run the program on them with a round
and a reader for each. -/
theorem parse_agrees {source : String} {tokens : List Token} {names : NameTable}
    (h : Token.ofSource source NameTable.initial = .ok (tokens, names)) :
    EndsOnce tokens ∧ Agrees (procedure source.toList tokens.length tokens.length)
      ⟨Cursor.ofTokens tokens, names, 0, 0⟩ (Procedure.parse source) := by
  constructor
  · obtain ⟨lexemes, -, hsource⟩ := except_map_ok h
    obtain ⟨rfl, -⟩ := Prod.mk.inj hsource
    exact ⟨_, _, rfl, rfl, Token.ofLexemes_not_endOfInput _ lexemes⟩
  · have hstart : At tokens 0 ⟨Cursor.ofTokens tokens, names, 0, 0⟩ := ⟨rfl, rfl⟩
    rw [Procedure.parse, h]
    exact procedure_agrees hstart.words_le hstart.words_le

/-- Wherever in a row of tokens a function of the grammar is started, it ends as its total reader
does and makes progress, with no more rounds and no more readers inside each other than there are
tokens. And whatever the tokens are, a procedure or an error comes of them. -/
theorem grammar_proceeds {tokens : List Token} (source : List Char)
    (hrounds : tokens.length ≤ rounds) (hdepth : tokens.length ≤ depth) :
    (EndsOnce tokens →
      ∀ {α : Type} {least : ℕ} {reader : Reader α} {total : State → Except ParseError (α × State)},
        Grammar source rounds depth least reader total → ∀ place < tokens.length,
          Proceeds tokens place least reader total) ∧
    ∀ s, At tokens 0 s →
      Agrees (procedure source rounds depth) s (Parser.procedure source s) := by
  refine ⟨fun htokens α least reader total hreader place hplace => ?_, fun s hs => ?_⟩
  · refine Reads.proceeds htokens hplace fun s hs => ?_
    have hwords := hs.words_lt htokens hplace
    exact grammar_reads hreader (by omega) (by omega)
  · have hwords := hs.words_le
    exact procedure_agrees (by omega) (by omega)

def arrowTokens (span : Span) : List Token :=
  [⟨.ident ⟨1⟩, span⟩, ⟨.symbol .arrow, span⟩, ⟨.ident ⟨1⟩, span⟩, ⟨.endOfInput, span⟩]

theorem grammar_proceeds_arrow :
    (arrowTokens Span.origin).length ≤ 4 ∧ EndsOnce (arrowTokens Span.origin) ∧
    (∀ place < 4, Proceeds (arrowTokens Span.origin) place 1 (level [] 4 4).expr
      fun s => outcome (Parser.expr [] s)) ∧
    ∀ s, At (arrowTokens Span.origin) 0 s →
      Agrees (procedure [] 4 4) s (Parser.procedure [] s) := by
  have hlength : (arrowTokens Span.origin).length ≤ 4 := by decide
  have hends : EndsOnce (arrowTokens Span.origin) :=
    ⟨(arrowTokens Span.origin).take 3, ⟨.endOfInput, Span.origin⟩, rfl, rfl, by decide⟩
  obtain ⟨hproceeds, hagrees⟩ := grammar_proceeds [] hlength hlength
  exact ⟨hlength, hends, hproceeds hends .expr, hagrees⟩

/-- An expression in parentheses does not come to an end with one reader alone. -/
example (names : NameTable) (span : Span) :
    let tokens := [⟨.symbol .lparen, span⟩, ⟨.ident ⟨1⟩, span⟩, ⟨.symbol .rparen, span⟩]
    ∃ t, (level [] 3 1).expr ⟨⟨[], tokens⟩, names, 0, 0⟩ = .error .limit t :=
  ⟨_, rfl⟩

end Grammar

end Descent

end PathCopy
