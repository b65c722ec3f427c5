import Mathlib.Data.List.Nodup
import PathCopy.Proofs.Writing

/-!
Reading. What each reader of the parser makes of a row of tokens, seen from the kinds of the tokens
that it meets and of those that it leaves.
-/

namespace PathCopy

/-- Whether a token goes on with a chain of accesses. -/
def TokenKind.chains : TokenKind → Bool
  | .symbol .dot | .symbol .lbracket | .symbol .lparen => true
  | .symbol .plusPlus | .symbol .minusMinus => true
  | _ => false

def TokenKind.isPrefix : TokenKind → Bool
  | .symbol .minus | .symbol .bang | .symbol .plusPlus | .symbol .minusMinus => true
  | _ => false

namespace Parser

def State.kinds (s : State) : List TokenKind := s.cursor.ahead.map Token.kind

/-- The state stands before tokens of these kinds, and knows these names. -/
structure State.At (s : State) (names : NameTable) (kinds : List TokenKind) : Prop where
  kinds_eq : s.kinds = kinds
  names_eq : s.names = names

/-- A reader comes to a value with this property, and stops before tokens of these kinds. -/
def Yields {α : Type} {n : Nat} (x : Except ParseError (Parsed n α)) (names : NameTable)
    (rest : List TokenKind) (P : α → Prop) : Prop :=
  ∃ r, x = .ok r ∧ P r.value ∧ r.state.At names rest

abbrev nested (source : List Char) (n : Nat) : Below n := fun t _ => expr source t

variable {α β : Type} {m n : Nat} {source : List Char} {names : NameTable} {s : State}
  {k : TokenKind} {ks rest rest' : List TokenKind} {x : Symbol} {e : Expr} {rec : Below n}
  {P : α → Prop} {Q : β → Prop}

/-! ### Single tokens -/

theorem State.At.kind_eq (h : s.At names ks) : s.kind = ks.headD .endOfInput := by
  obtain ⟨rfl, -⟩ := h
  obtain ⟨⟨behind, ahead⟩, _, _, _⟩ := s
  cases ahead <;> rfl

theorem State.At.kind (h : s.At names (k :: ks)) : s.kind = k := h.kind_eq

theorem State.At.take (h : s.At names (k :: ks)) (hk : k ≠ .endOfInput) :
    State.At { s with cursor := s.cursor.advance } names ks := by
  obtain ⟨hkinds, hnames⟩ := h
  refine ⟨?_, hnames⟩
  obtain ⟨⟨behind, ahead⟩, _, _, _⟩ := s
  cases ahead with
  | nil => cases hkinds
  | cons t ts =>
      cases hkinds
      simp [State.kinds, Cursor.advance, hk]

theorem State.At.node {exprs : ExprTable} (h : s.At names ks) :
    State.At { s with exprs := exprs } names ks :=
  ⟨h.kinds_eq, h.names_eq⟩

theorem State.At.expect (h : s.At names (.symbol x :: ks)) :
    Yields (s.expect x) names ks fun _ => True := by
  unfold State.expect
  rw [dif_pos h.kind]
  exact ⟨_, rfl, trivial, h.take (by simp)⟩

theorem State.At.eat (h : s.At names (.symbol x :: ks)) : (s.eat x).At names ks := by
  unfold State.eat
  rw [dif_pos h.kind]
  exact h.take (by simp)

theorem Yields.bind {x : Except ParseError (Parsed m α)}
    {f : Parsed m α → Except ParseError (Parsed n β)} (h : Yields x names rest P)
    (hf : ∀ r, P r.value → r.state.At names rest → Yields (f r) names rest' Q) :
    Yields (x >>= f) names rest' Q := by
  obtain ⟨r, rfl, hr, hat⟩ := h
  exact hf r hr hat

theorem Yields.of_at {v : α} (h : s.At names ks) (hlt : s.left < n) (hv : P v) :
    Yields (.ok ⟨v, s, hlt⟩) names ks P :=
  ⟨_, rfl, hv, h⟩

@[simp] theorem value_node (p : Parsed n α) (span : Span) (make : Site → Expr) :
    (p.node span make).value = make ⟨span, p.state.exprs.next⟩ := rfl

/-! ### Names -/

theorem get?_lookup {name : Name} (hnodup : names.texts.toList.Nodup)
    (hlt : name.index < names.size) : names.get? (names.lookup name) = some name := by
  have hget : names.lookup name = names.texts[name.index] := by
    rw [NameTable.lookup, Array.getD_eq_getD_getElem?, Array.getElem?_eq_getElem hlt]
    rfl
  have hindex : names.texts.finIdxOf? (names.lookup name) = some ⟨name.index, hlt⟩ := by
    rw [Array.finIdxOf?_eq_some_iff, hget]
    refine ⟨rfl, fun j hj heq => ?_⟩
    have hij : (j : ℕ) = name.index := hnodup.getElem_inj_iff.mp heq
    exact absurd hj (by simp [Fin.lt_def, hij])
  rw [NameTable.get?, hindex]
  rfl

/-- A name that is spelled like a keyword is known under the text of the keyword. -/
theorem get?_keyword {name : Name} {word : Keyword} (hnodup : names.texts.toList.Nodup)
    (hword : Keyword.ofText? (names.lookup name) = some word) :
    names.get? word.text = some name := by
  have htext : word.text = names.lookup name := by
    simpa using List.find?_some hword
  rw [htext]
  refine get?_lookup hnodup (Nat.lt_of_not_le fun hle => ?_)
  have hempty : names.lookup name = "" := by
    rw [NameTable.lookup, Array.getD_eq_getD_getElem?, Array.getElem?_eq_none hle]
    rfl
  rw [hempty] at hword
  have hnone : Keyword.ofText? "" = none := by decide
  simp [hnone] at hword

theorem State.At.intern {text : String} {name : Name} (h : s.At names ks)
    (hname : names.get? text = some name) :
    (s.intern text).1 = name ∧ (s.intern text).2.At names ks := by
  obtain ⟨hkinds, rfl⟩ := h
  simp only [State.intern, NameTable.intern, hname]
  exact ⟨trivial, hkinds, rfl⟩

theorem propertyName_yields {name : Name} (hnodup : names.texts.toList.Nodup)
    (h : s.At names (names.word name :: ks)) : Yields (propertyName s) names ks (· = name) := by
  unfold NameTable.word at h
  unfold propertyName
  cases hword : Keyword.ofText? (names.lookup name) with
  | none =>
      simp only [hword] at h
      split
      · next hk =>
        cases h.kind.symm.trans hk
        exact ⟨_, rfl, rfl, h.take (by simp)⟩
      · next hk => exact absurd (h.kind.symm.trans hk) (by simp)
      · next hk _ => exact absurd h.kind (hk _)
  | some word =>
      simp only [hword] at h
      split
      · next hk => exact absurd (h.kind.symm.trans hk) (by simp)
      · next hk =>
        cases h.kind.symm.trans hk
        obtain ⟨hname, hat⟩ := (h.take (by simp)).intern (get?_keyword hnodup hword)
        exact ⟨_, rfl, hname, hat⟩
      · next _ hk => exact absurd h.kind (hk _)

theorem key_ne_symbol {w : Wording} {name : Name} {span : Span} :
    w.key names name span ≠ .symbol x := by
  unfold Wording.key NameTable.word
  split
  · simp
  · split <;> simp

theorem entryKey_eq (hstring : ∀ text, s.kind ≠ .string text)
    (hnumber : ∀ bits, s.kind ≠ .number bits) : entryKey source s = propertyName s := by
  unfold entryKey
  split
  · next hk => exact absurd hk (hstring _)
  · next hk => exact absurd hk (hnumber _)
  · rfl

theorem entryKey_ident {name : Name} (h : s.At names (.ident name :: ks)) :
    Yields (entryKey source s) names ks (· = name) := by
  rw [entryKey_eq (by simp [h.kind]) (by simp [h.kind])]
  unfold propertyName
  split
  · next hk =>
    cases h.kind.symm.trans hk
    exact .of_at (h.take (by simp)) _ rfl
  · next hk => exact absurd (h.kind.symm.trans hk) (by simp)
  · next hk _ => exact absurd h.kind (hk _)

theorem entryKey_yields {w : Wording} {name : Name} {span : Span}
    (hnodup : names.texts.toList.Nodup) (h : s.At names (w.key names name span :: ks)) :
    Yields (entryKey source s) names ks (· = name) := by
  unfold Wording.key at h
  split at h
  · unfold entryKey
    split
    · next hk =>
      cases h.kind.symm.trans hk
      exact .of_at (h.take (by simp)) _ rfl
    · next hk => exact absurd (h.kind.symm.trans hk) (by simp)
    · next hk _ => exact absurd h.kind (hk _)
  · have hword : (∀ text, names.word name ≠ .string text) ∧
        ∀ bits, names.word name ≠ .number bits := by
      unfold NameTable.word
      split <;> simp
    rw [entryKey_eq (h.kind ▸ hword.1) (h.kind ▸ hword.2)]
    exact propertyName_yields hnodup h

/-! ### What may follow an expression -/

/-- The token cannot be taken for more of an expression of this level, or of a tighter one. -/
structure Follows (level : Nat) (k : TokenKind) : Prop where
  arrow : k ≠ .symbol .arrow
  chain : level ≤ 4 → k.chains = false
  product : level ≤ 2 → productOp? k = none
  sum : level ≤ 1 → sumOp? k = none
  assign : level = 0 → assignOp? k = none

theorem Follows.mono {level level' : Nat} (h : Follows level k) (hle : level ≤ level') :
    Follows level' k where
  arrow := h.arrow
  chain _ := h.chain (by omega)
  product _ := h.product (by omega)
  sum _ := h.sum (by omega)
  assign _ := h.assign (by omega)

/-- After an expression that nothing can break up only an arrow is out of place. -/
theorem follows_five (h : k ≠ .symbol .arrow) : Follows 5 k where
  arrow := h
  chain hle := absurd hle (by decide)
  product hle := absurd hle (by decide)
  sum hle := absurd hle (by decide)
  assign hle := absurd hle (by decide)

theorem follows_comma : Follows 0 (.symbol .comma) := by constructor <;> decide

theorem follows_rparen : Follows 0 (.symbol .rparen) := by constructor <;> decide

theorem follows_rbracket : Follows 0 (.symbol .rbracket) := by constructor <;> decide

theorem follows_rbrace : Follows 0 (.symbol .rbrace) := by constructor <;> decide

theorem follows_semicolon : Follows 0 (.symbol .semicolon) := by constructor <;> decide

/-- The outcome `x` is that of another reader which goes on from the expression. -/
def Leads {m : Nat} (x : Except ParseError (Parsed m Expr))
    (reader : Expr → (t : State) → t.left < m → Except ParseError (Parsed m Expr))
    (names : NameTable) (rest : List TokenKind) (e : Expr) : Prop :=
  ∃ e' t ht, x = reader e' t ht ∧ e'.erase = e.erase ∧ t.At names rest

theorem Leads.bind {reader : Expr → (t : State) → t.left < n → Except ParseError (Parsed n Expr)}
    {x : Except ParseError (Parsed m α)} {f : Parsed m α → Except ParseError (Parsed n Expr)}
    (h : Yields x names rest P)
    (hf : ∀ r, P r.value → r.state.At names rest → Leads (f r) reader names rest' e) :
    Leads (x >>= f) reader names rest' e := by
  obtain ⟨r, rfl, hr, hat⟩ := h
  exact hf r hr hat

/-- The tokens `tokens` are read as the expression by the reader for a level, up to where the reader
looks for more: the reader for operands at an access, the one for products at a factor, the one for
sums at a term. -/
def Reads (source : List Char) (names : NameTable) (level : Nat) (e : Expr)
    (tokens : List TokenKind) : Prop :=
  match level with
  | 0 => ∀ s rest, s.At names (tokens ++ rest) → Follows 0 (rest.headD .endOfInput) →
      Yields (expr source s) names rest (·.erase = e.erase)
  | 1 => ∀ n s (h : s.left ≤ n) rest, s.At names (tokens ++ rest) →
      Follows 2 (rest.headD .endOfInput) →
      Leads (sum source (nested source n) s h) (terms source (nested source n) h) names rest e
  | 2 => ∀ n s (h : s.left ≤ n) rest, s.At names (tokens ++ rest) →
      Follows 3 (rest.headD .endOfInput) →
      Leads (product source (nested source n) s h) (factors source (nested source n) h) names rest e
  | 3 | 4 => ∀ n s (h : s.left ≤ n) rest, s.At names (tokens ++ rest) →
      Follows 3 (rest.headD .endOfInput) →
      Yields (operand source (nested source n) s h) names rest (·.erase = e.erase)
  | _ => ∀ n s (h : s.left ≤ n) rest, s.At names (tokens ++ rest) →
      Follows 5 (rest.headD .endOfInput) →
      Leads (operand source (nested source n) s h) (chain (nested source n) h) names rest e

theorem chain_stop (hmn : m ≤ n) (h : s.left < m) (hk : s.kind.chains = false) :
    chain rec hmn e s h = .ok ⟨e, s, h⟩ := by
  rw [chain.eq_def]
  split
  all_goals first | rfl | (next heq => simp [heq, TokenKind.chains] at hk)

theorem factors_stop (hmn : m ≤ n) (h : s.left < m) (hk : productOp? s.kind = none) :
    factors source rec hmn e s h = .ok ⟨e, s, h⟩ := by
  rw [factors.eq_def]
  split
  · rfl
  · next heq => simp [hk] at heq

theorem terms_stop (hmn : m ≤ n) (h : s.left < m) (hk : sumOp? s.kind = none) :
    terms source rec hmn e s h = .ok ⟨e, s, h⟩ := by
  rw [terms.eq_def]
  split
  · rfl
  · next heq => simp [hk] at heq

theorem expr_eq (source : List Char) (s : State) :
    expr source s = exprWith source (nested source s.left) s (Nat.le_refl _) := by
  rw [expr]

variable {level : Nat} {tokens : List TokenKind}

theorem Reads.operand (h : Reads source names 5 e tokens) : Reads source names 4 e tokens := by
  intro n s hn rest hs hrest
  obtain ⟨e', t, ht, heq, he, hat⟩ := h n s hn rest hs (hrest.mono (by omega))
  rw [heq, chain_stop hn ht (hat.kind_eq ▸ hrest.chain (by omega))]
  exact .of_at hat ht he

theorem Reads.product (h : Reads source names 3 e tokens) : Reads source names 2 e tokens := by
  intro n s hn rest hs hrest
  obtain ⟨r, heq, he, hat⟩ := h n s hn rest hs hrest
  refine ⟨r.value, r.state, r.shorter, ?_, he, hat⟩
  rw [Parser.product, heq]
  rfl

theorem Reads.yields_product (h : Reads source names 2 e tokens) (hn : s.left ≤ n)
    (hs : s.At names (tokens ++ rest)) (hrest : Follows 2 (rest.headD .endOfInput)) :
    Yields (Parser.product source (nested source n) s hn) names rest (·.erase = e.erase) := by
  obtain ⟨e', t, ht, heq, he, hat⟩ := h n s hn rest hs (hrest.mono (by omega))
  rw [heq, factors_stop hn ht (hat.kind_eq ▸ hrest.product (by omega))]
  exact .of_at hat ht he

theorem Reads.sum (h : Reads source names 2 e tokens) : Reads source names 1 e tokens := by
  intro n s hn rest hs hrest
  obtain ⟨r, heq, he, hat⟩ := h.yields_product hn hs hrest
  refine ⟨r.value, r.state, r.shorter, ?_, he, hat⟩
  rw [Parser.sum, heq]
  rfl

theorem Reads.yields_sum (h : Reads source names 1 e tokens) (hn : s.left ≤ n)
    (hs : s.At names (tokens ++ rest)) (hrest : Follows 1 (rest.headD .endOfInput)) :
    Yields (Parser.sum source (nested source n) s hn) names rest (·.erase = e.erase) := by
  obtain ⟨e', t, ht, heq, he, hat⟩ := h n s hn rest hs (hrest.mono (by omega))
  rw [heq, terms_stop hn ht (hat.kind_eq ▸ hrest.sum (by omega))]
  exact .of_at hat ht he

theorem Reads.expr (h : Reads source names 1 e tokens) : Reads source names 0 e tokens := by
  intro s rest hs hrest
  rw [expr_eq, exprWith]
  refine (h.yields_sum _ hs (hrest.mono (by omega))).bind fun r hr hat => ?_
  have hassign : assignOp? r.state.kind = none := hat.kind_eq ▸ hrest.assign rfl
  split
  · exact .of_at hat r.shorter hr
  · next heq => simp [hassign] at heq

theorem Reads.lower (h : Reads source names (level + 1) e tokens) (hle : level ≤ 4) :
    Reads source names level e tokens := by
  match level, hle with
  | 0, _ => exact h.expr
  | 1, _ => exact h.sum
  | 2, _ => exact h.product
  | 3, _ => exact h
  | 4, _ => exact h.operand

theorem Reads.mono {level' : Nat} (h : Reads source names level' e tokens) (hle : level ≤ level')
    (hfive : level' ≤ 5) : Reads source names level e tokens := by
  induction hle with
  | refl => exact h
  | step _ ih => exact ih (h.lower (by omega)) (by omega)

/-! ### Rows -/

/-- The items of a row are read up to the bracket that closes it. -/
theorem items_yields {w : Wording} {close : Symbol} {es : List Expr}
    (hclose : close = .rparen ∨ close = .rbracket)
    (hes : ∀ e ∈ es, Reads source names 0 e (e.write w names false)) (h : s.left < n)
    (hs : s.At names (Expr.tokensOfList w names es ++ .symbol close :: rest)) :
    Yields (items (nested source n) close s h) names rest
      (Expr.eraseList · = Expr.eraseList es) := by
  have hcloses : Follows 0 (.symbol close) ∧ ¬ (TokenKind.symbol close).opens ∧
      close ≠ .comma := by
    rcases hclose with rfl | rfl
    · exact ⟨follows_rparen, by decide, by decide⟩
    · exact ⟨follows_rbracket, by decide, by decide⟩
  induction es generalizing s with
  | nil =>
      rw [items.eq_def, dif_pos hs.kind]
      exact .of_at (hs.take (by simp)) _ rfl
  | cons e es ih =>
      obtain ⟨he, hes⟩ := List.forall_mem_cons.mp hes
      rw [Expr.tokensOfList, List.append_assoc] at hs
      -- No item begins with the bracket.
      have hkind : s.kind ≠ .symbol close := by
        obtain ⟨k, ks, hk, hopens, -⟩ := e.opening_write w names false
        rw [Expr.write] at hk
        rw [hk] at hs
        rw [hs.kind]
        rintro rfl
        exact hcloses.2.1 hopens
      rw [items.eq_def, dif_neg hkind]
      -- A comma stands behind every item but the last.
      cases es with
      | nil =>
          refine Yields.bind (he s _ hs hcloses.1) fun item hitem hat => ?_
          have hcomma : item.state.kind ≠ .symbol .comma := by
            rw [hat.kind]
            simp [hcloses.2.2]
          rw [dif_neg hcomma]
          refine Yields.bind hat.expect fun closed _ hclosed => ?_
          exact .of_at hclosed _ (by simp [Expr.eraseList, hitem])
      | cons e' es =>
          refine Yields.bind (he s _ hs follows_comma) fun item hitem hat => ?_
          rw [dif_pos hat.kind]
          refine Yields.bind (ih hes _ (hat.take (by simp))) fun tail htail hrest => ?_
          refine .of_at hrest _ ?_
          show item.value.erase :: Expr.eraseList tail.value = e.erase :: Expr.eraseList (e' :: es)
          rw [hitem, htail]

theorem entry_yields {w : Wording} {key : Name} {span : Span} {value : Expr}
    (hnodup : names.texts.toList.Nodup)
    (hvalue : Reads source names 0 value (value.write w names false)) (h : s.left < n)
    (hs : s.At names
      (Property.write w names (value.write w names false) (.entry key span value) ++ rest))
    (hrest : Follows 0 (rest.headD .endOfInput))
    (hcolon : rest.headD .endOfInput ≠ .symbol .colon) :
    Yields (entry source (nested source n) s h) names rest
      (·.erase = (Property.entry key span value).erase) := by
  unfold entry
  -- An entry may be written as a name alone, which is its key and its value.
  rcases Property.write_cases w names key span value (value.write w names false) with
    ⟨site, rfl, heq⟩ | heq
  · rw [heq] at hs
    refine Yields.bind (entryKey_ident hs) fun read hread hat => ?_
    rw [dif_neg (hat.kind_eq ▸ hcolon)]
    split
    · next hk =>
      cases hs.kind.symm.trans hk
      exact .of_at hat.node _ (by rw [hread]; rfl)
    · next hk => exact absurd hs.kind (hk _)
  · rw [heq] at hs
    refine Yields.bind (entryKey_yields hnodup hs) fun read hread hat => ?_
    rw [dif_pos hat.kind]
    refine Yields.bind (hvalue _ _ (hat.take (by simp)) hrest) fun v hv hend => ?_
    exact .of_at hend _ (by simp [Property.erase, hread, hv])

theorem entries_yields {w : Wording} {ps : List Property} (hnodup : names.texts.toList.Nodup)
    (hps : ∀ p ∈ ps, Reads source names 0 p.value (p.value.write w names false)) (h : s.left < n)
    (hs : s.At names (Expr.tokensOfEntries w names ps ++ .symbol .rbrace :: rest)) :
    Yields (entries source (nested source n) s h) names rest
      (Expr.eraseEntries · = Expr.eraseEntries ps) := by
  induction ps generalizing s with
  | nil =>
      rw [entries.eq_def, dif_pos hs.kind]
      exact .of_at (hs.take (by simp)) _ rfl
  | cons p ps ih =>
      obtain ⟨key, span, value⟩ := p
      have hvalue : Reads source names 0 value (value.write w names false) :=
        hps _ List.mem_cons_self
      have hrest := fun p hp => hps p (List.mem_cons_of_mem _ hp)
      rw [Expr.tokensOfEntries, List.append_assoc] at hs
      -- No entry begins with the brace.
      have hkind : s.kind ≠ .symbol .rbrace := by
        rcases Property.write_cases w names key span value (value.write w names false) with
          ⟨_, _, heq⟩ | heq
        · rw [Expr.write] at heq
          rw [heq] at hs
          rw [hs.kind]
          simp
        · rw [Expr.write] at heq
          rw [heq] at hs
          rw [hs.kind]
          exact key_ne_symbol
      rw [entries.eq_def, dif_neg hkind]
      cases ps with
      | nil =>
          have hcolon : TokenKind.symbol .rbrace ≠ .symbol .colon := by simp
          refine Yields.bind (entry_yields hnodup hvalue _ hs follows_rbrace hcolon)
            fun first hfirst hat => ?_
          have hcomma : first.state.kind ≠ .symbol .comma := by
            rw [hat.kind]
            simp
          rw [dif_neg hcomma]
          refine Yields.bind hat.expect fun closed _ hclosed => ?_
          refine .of_at hclosed _ ?_
          rw [Expr.eraseEntries_cons, Expr.eraseEntries_cons, hfirst]
      | cons p' ps =>
          have hcolon : TokenKind.symbol .comma ≠ .symbol .colon := by simp
          refine Yields.bind (entry_yields hnodup hvalue _ hs follows_comma hcolon)
            fun first hfirst hat => ?_
          rw [dif_pos hat.kind]
          refine Yields.bind (ih hrest _ (hat.take (by simp))) fun tail htail hend => ?_
          refine .of_at hend _ ?_
          rw [Expr.eraseEntries_cons, Expr.eraseEntries_cons, hfirst, htail]

/-! ### Operands -/

theorem State.At.peek (h : s.At names (k :: ks)) : s.cursor.peek 1 = ks.headD .endOfInput := by
  obtain ⟨hkinds, -⟩ := h
  obtain ⟨⟨behind, ahead⟩, _, _, _⟩ := s
  cases ahead with
  | nil => cases hkinds
  | cons t ts =>
      cases hkinds
      cases ts <;> rfl

/-- What begins without a prefix operator begins with a primary expression. -/
theorem leads_primary (hs : s.At names (k :: ks)) (hk : k.isPrefix = false) (h : s.left ≤ n)
    (hprimary : Yields (primary source (nested source n) s h) names rest (·.erase = e.erase)) :
    Leads (operand source (nested source n) s h) (chain (nested source n) h) names rest e := by
  obtain ⟨r, heq, hr, hat⟩ := hprimary
  refine ⟨r.value, r.state, r.shorter, ?_, hr, hat⟩
  rw [← hs.kind] at hk
  rw [operand.eq_def]
  split
  all_goals first | (next hk' => simp [hk', TokenKind.isPrefix] at hk) | skip
  rw [heq]
  rfl

def leaf? : TokenKind → Option (Site → Expr)
  | .number bits => some (.number · bits)
  | .string text => some (.string · text)
  | .ident name => some (.ident · name)
  | .keyword .trueWord => some (.bool · true)
  | .keyword .falseWord => some (.bool · false)
  | .keyword .nullWord => some .null
  | .keyword .undefinedWord => some .undefined
  | _ => none

theorem State.At.exists_eq (hs : s.At names (k :: ks)) :
    ∃ behind span ahead known exprs blocks,
      s = ⟨⟨behind, ⟨k, span⟩ :: ahead⟩, known, exprs, blocks⟩ := by
  have hk := hs.kind
  have hkinds := hs.kinds_eq
  obtain ⟨⟨behind, ahead⟩, known, exprs, blocks⟩ := s
  cases ahead with
  | nil => cases hkinds
  | cons t ahead =>
      obtain ⟨kind, span⟩ := t
      cases hk
      exact ⟨behind, span, ahead, known, exprs, blocks, rfl⟩

theorem reads_leaf {site : Site} (make : Site → Expr) (hk : leaf? k = some make)
    (hmake : ∀ site', (make site').erase = (make site).erase) :
    Reads source names 5 (make site) [k] := by
  intro n s h rest hs hrest
  have hprefix : k.isPrefix = false := by
    cases k with
    | symbol x => cases hk
    | _ => rfl
  have hend : k ≠ .endOfInput := by
    rintro rfl
    cases hk
  refine leads_primary hs hprefix h ?_
  have hpeek : s.cursor.peek 1 ≠ .symbol .arrow := hs.peek ▸ hrest.arrow
  have hread := hs.take hend
  obtain ⟨behind, span, ahead, known, exprs, blocks, rfl⟩ := hs.exists_eq
  cases k with
  | number bits =>
      cases hk
      exact .of_at hread.node _ (hmake _)
  | string text =>
      cases hk
      exact .of_at hread.node _ (hmake _)
  | ident name =>
      cases hk
      show Yields (if _ then _ else _) names rest _
      rw [if_neg hpeek]
      exact .of_at hread.node _ (hmake _)
  | keyword word =>
      cases word with
      | trueWord | falseWord | nullWord | undefinedWord =>
          cases hk
          exact .of_at hread.node _ (hmake _)
      | _ => cases hk
  | _ => cases hk

theorem Reads.parens (h : Reads source names 0 e tokens) :
    Reads source names 5 e (.symbol .lparen :: (tokens ++ [.symbol .rparen])) := by
  intro n s hn rest hs hrest
  refine leads_primary hs rfl hn ?_
  have hinner : State.At { s with cursor := s.cursor.advance } names
      (tokens ++ .symbol .rparen :: rest) := by
    simpa using hs.take (by simp)
  obtain ⟨behind, span, ahead, known, exprs, blocks, rfl⟩ := hs.exists_eq
  refine Yields.bind (h _ _ hinner follows_rparen) fun inner hi hat => ?_
  refine Yields.bind hat.expect fun closed _ hclosed => ?_
  rw [if_neg (hclosed.kind_eq ▸ hrest.arrow)]
  exact .of_at hclosed _ hi

theorem reads_array {w : Wording} {site : Site} {es : List Expr}
    (hes : ∀ e ∈ es, Reads source names 0 e (e.write w names false)) :
    Reads source names 5 (.array site es)
      (.symbol .lbracket :: (Expr.tokensOfList w names es ++ [.symbol .rbracket])) := by
  intro n s hn rest hs hrest
  refine leads_primary hs rfl hn ?_
  have hinner : State.At { s with cursor := s.cursor.advance } names
      (Expr.tokensOfList w names es ++ .symbol .rbracket :: rest) := by
    simpa using hs.take (by simp)
  obtain ⟨behind, span, ahead, known, exprs, blocks, rfl⟩ := hs.exists_eq
  refine Yields.bind (items_yields (.inr rfl) hes _ hinner) fun list hlist hat => ?_
  exact .of_at hat.node _ (congrArg (Expr.array default) hlist)

theorem reads_object {w : Wording} {site : Site} {ps : List Property}
    (hnodup : names.texts.toList.Nodup)
    (hps : ∀ p ∈ ps, Reads source names 0 p.value (p.value.write w names false)) :
    Reads source names 5 (.object site ps)
      (.symbol .lbrace :: (Expr.tokensOfEntries w names ps ++ [.symbol .rbrace])) := by
  intro n s hn rest hs hrest
  refine leads_primary hs rfl hn ?_
  have hinner : State.At { s with cursor := s.cursor.advance } names
      (Expr.tokensOfEntries w names ps ++ .symbol .rbrace :: rest) := by
    simpa using hs.take (by simp)
  obtain ⟨behind, span, ahead, known, exprs, blocks, rfl⟩ := hs.exists_eq
  refine Yields.bind (entries_yields hnodup hps _ hinner) fun list hlist hat => ?_
  exact .of_at hat.node _ (congrArg (Expr.object default) hlist)

/-! ### Accesses, calls and steps -/

theorem reads_member {site : Site} {property : Name} (hnodup : names.texts.toList.Nodup)
    (h : Reads source names 5 e tokens) :
    Reads source names 5 (.member site e property)
      (tokens ++ [.symbol .dot, names.word property]) := by
  intro n s hn rest hs hrest
  rw [List.append_assoc] at hs
  obtain ⟨e', t, ht, heq, he, hat⟩ := h n s hn _ hs (follows_five (by simp))
  rw [heq, chain.eq_def]
  obtain ⟨behind, span, ahead, known, exprs, blocks, rfl⟩ := hat.exists_eq
  refine Leads.bind (propertyName_yields hnodup (hat.take (by simp))) fun read hread hend => ?_
  exact ⟨_, _, _, rfl, by simp [Expr.erase, he, hread], hend.node⟩

theorem reads_index {site : Site} {key : Expr} {keyTokens : List TokenKind}
    (h : Reads source names 5 e tokens) (hkey : Reads source names 0 key keyTokens) :
    Reads source names 5 (.index site e key)
      (tokens ++ .symbol .lbracket :: (keyTokens ++ [.symbol .rbracket])) := by
  intro n s hn rest hs hrest
  obtain ⟨e', t, ht, heq, he, hat⟩ := h n s hn
    (.symbol .lbracket :: (keyTokens ++ .symbol .rbracket :: rest)) (by simpa using hs)
    (follows_five (by simp))
  rw [heq, chain.eq_def]
  obtain ⟨behind, span, ahead, known, exprs, blocks, rfl⟩ := hat.exists_eq
  refine Leads.bind (hkey _ _ (hat.take (by simp)) follows_rbracket) fun inner hinner hclose => ?_
  refine Leads.bind hclose.expect fun closed _ hend => ?_
  exact ⟨_, _, _, rfl, by simp [Expr.erase, he, hinner], hend.node⟩

theorem reads_call {w : Wording} {site : Site} {args : List Expr}
    (h : Reads source names 5 e tokens)
    (hargs : ∀ arg ∈ args, Reads source names 0 arg (arg.write w names false)) :
    Reads source names 5 (.call site e args)
      (tokens ++ .symbol .lparen :: (Expr.tokensOfList w names args ++ [.symbol .rparen])) := by
  intro n s hn rest hs hrest
  obtain ⟨e', t, ht, heq, he, hat⟩ := h n s hn
    (.symbol .lparen :: (Expr.tokensOfList w names args ++ .symbol .rparen :: rest))
    (by simpa using hs) (follows_five (by simp))
  rw [heq, chain.eq_def]
  obtain ⟨behind, span, ahead, known, exprs, blocks, rfl⟩ := hat.exists_eq
  refine Leads.bind (items_yields (.inl rfl) hargs _ (hat.take (by simp))) fun list hlist hend => ?_
  exact ⟨_, _, _, rfl, by simp [Expr.erase, he, hlist], hend.node⟩

theorem isTarget_erase (e : Expr) : e.erase.isTarget = e.isTarget := by cases e <;> rfl

theorem checkTarget_ok {e' : Expr} (he : e.isTarget) (heq : e'.erase = e.erase) :
    checkTarget e' = .ok () := by
  rw [← isTarget_erase, ← heq, isTarget_erase] at he
  rw [checkTarget, if_pos he]

theorem reads_step_after {site : Site} {op : StepOp} (htarget : e.isTarget)
    (h : Reads source names 5 e tokens) :
    Reads source names 4 (.step site op .after e) (tokens ++ [.symbol op.symbol]) := by
  intro n s hn rest hs hrest
  rw [List.append_assoc] at hs
  obtain ⟨e', t, ht, heq, he, hat⟩ := h n s hn _ hs (follows_five (by cases op <;> simp [StepOp.symbol]))
  rw [heq, chain.eq_def]
  cases op with
  | increment =>
      obtain ⟨behind, span, ahead, known, exprs, blocks, rfl⟩ := hat.exists_eq
      rw [checkTarget_ok htarget he]
      exact .of_at (hat.take (by simp)).node _ (by simp [Expr.erase, he])
  | decrement =>
      obtain ⟨behind, span, ahead, known, exprs, blocks, rfl⟩ := hat.exists_eq
      rw [checkTarget_ok htarget he]
      exact .of_at (hat.take (by simp)).node _ (by simp [Expr.erase, he])

/-! ### Operators -/

theorem reads_unary {site : Site} {op : UnaryOp} (h : Reads source names 3 e tokens) :
    Reads source names 3 (.unary site op e) (.symbol op.symbol :: tokens) := by
  intro n s hn rest hs hrest
  rw [operand.eq_def]
  cases op with
  | neg =>
      obtain ⟨behind, span, ahead, known, exprs, blocks, rfl⟩ := hs.exists_eq
      refine Yields.bind (h n _ _ _ (hs.take (by simp)) hrest) fun inner hinner hend => ?_
      exact .of_at hend.node _ (by simp [Expr.erase, hinner])
  | not =>
      obtain ⟨behind, span, ahead, known, exprs, blocks, rfl⟩ := hs.exists_eq
      refine Yields.bind (h n _ _ _ (hs.take (by simp)) hrest) fun inner hinner hend => ?_
      exact .of_at hend.node _ (by simp [Expr.erase, hinner])

theorem reads_step_before {site : Site} {op : StepOp} (htarget : e.isTarget)
    (h : Reads source names 3 e tokens) :
    Reads source names 3 (.step site op .before e) (.symbol op.symbol :: tokens) := by
  intro n s hn rest hs hrest
  rw [operand.eq_def]
  cases op with
  | increment =>
      obtain ⟨behind, span, ahead, known, exprs, blocks, rfl⟩ := hs.exists_eq
      refine Yields.bind (h n _ _ _ (hs.take (by simp)) hrest) fun inner hinner hend => ?_
      rw [checkTarget_ok htarget hinner]
      exact .of_at hend.node _ (by simp [Expr.erase, hinner])
  | decrement =>
      obtain ⟨behind, span, ahead, known, exprs, blocks, rfl⟩ := hs.exists_eq
      refine Yields.bind (h n _ _ _ (hs.take (by simp)) hrest) fun inner hinner hend => ?_
      rw [checkTarget_ok htarget hinner]
      exact .of_at hend.node _ (by simp [Expr.erase, hinner])

theorem reads_product {site : Site} {op : BinaryOp} {right : Expr} {rightTokens : List TokenKind}
    (hop : op.level = 2) (h : Reads source names 2 e tokens)
    (hright : Reads source names 3 right rightTokens) :
    Reads source names 2 (.binary site op e right)
      (tokens ++ .symbol op.symbol :: rightTokens) := by
  intro n s hn rest hs hrest
  have hsymbol : productOp? (.symbol op.symbol) = some op ∧ Follows 3 (.symbol op.symbol) := by
    cases op with
    | add => cases hop
    | sub => cases hop
    | _ => exact ⟨rfl, by constructor <;> decide⟩
  rw [List.append_assoc] at hs
  obtain ⟨e', t, ht, heq, he, hat⟩ := h n s hn _ hs hsymbol.2
  rw [heq, factors.eq_def]
  have hk : productOp? t.kind = some op := hat.kind ▸ hsymbol.1
  split
  · next hnone => simp [hk] at hnone
  · next op' hop' =>
    obtain rfl : op = op' := Option.some.inj (hk.symm.trans hop')
    refine Leads.bind (hright n _ _ _ (hat.take (by simp)) hrest) fun r hr hend => ?_
    exact ⟨_, _, _, rfl, by simp [Expr.erase, he, hr], hend.node⟩

theorem reads_sum {site : Site} {op : BinaryOp} {right : Expr} {rightTokens : List TokenKind}
    (hop : op.level = 1) (h : Reads source names 1 e tokens)
    (hright : Reads source names 2 right rightTokens) :
    Reads source names 1 (.binary site op e right)
      (tokens ++ .symbol op.symbol :: rightTokens) := by
  intro n s hn rest hs hrest
  have hsymbol : sumOp? (.symbol op.symbol) = some op ∧ Follows 2 (.symbol op.symbol) := by
    cases op with
    | add => exact ⟨rfl, by constructor <;> decide⟩
    | sub => exact ⟨rfl, by constructor <;> decide⟩
    | _ => cases hop
  rw [List.append_assoc] at hs
  obtain ⟨e', t, ht, heq, he, hat⟩ := h n s hn _ hs hsymbol.2
  rw [heq, terms.eq_def]
  have hk : sumOp? t.kind = some op := hat.kind ▸ hsymbol.1
  split
  · next hnone => simp [hk] at hnone
  · next op' hop' =>
    obtain rfl : op = op' := Option.some.inj (hk.symm.trans hop')
    refine Leads.bind (hright.yields_product _ (hat.take (by simp)) hrest) fun r hr hend => ?_
    exact ⟨_, _, _, rfl, by simp [Expr.erase, he, hr], hend.node⟩

theorem reads_assign {site : Site} {op : AssignOp} {value : Expr} {valueTokens : List TokenKind}
    (htarget : e.isTarget) (h : Reads source names 1 e tokens)
    (hvalue : Reads source names 0 value valueTokens) :
    Reads source names 0 (.assign site op e value)
      (tokens ++ .symbol op.symbol :: valueTokens) := by
  intro s rest hs hrest
  have hsymbol : assignOp? (.symbol op.symbol) = some op ∧ Follows 1 (.symbol op.symbol) := by
    cases op with
    | plain => exact ⟨rfl, by constructor <;> decide⟩
    | compound op => cases op <;> exact ⟨rfl, by constructor <;> decide⟩
  rw [List.append_assoc] at hs
  rw [expr_eq, exprWith]
  refine (h.yields_sum _ hs hsymbol.2).bind fun t ht hat => ?_
  have hk : assignOp? t.state.kind = some op := hat.kind ▸ hsymbol.1
  split
  · next hnone => simp [hk] at hnone
  · next op' hop' =>
    obtain rfl : op = op' := Option.some.inj (hk.symm.trans hop')
    rw [checkTarget_ok htarget ht]
    refine Yields.bind (hvalue _ _ (hat.take (by simp)) hrest) fun v hv hend => ?_
    exact .of_at hend.node _ (by simp [Expr.erase, ht, hv])

end Parser
end PathCopy
