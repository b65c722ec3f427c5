import PathCopy.Proofs.Building
import PathCopy.Proofs.Descent
import PathCopy.Proofs.Interning

/-!
The programs of the grammar against its total readers. A program moves the cursor over the tokens
ahead of it and never over the end of the input, and it does not succeed where it stands still. So a
loop has a round for each token at most, and readers stand inside each other at most once for each
token: with limits of this size no program comes to a limit, and each does what the total reader
says.
-/

namespace PathCopy

namespace Parser

/-! ### Moving forward -/

namespace State

/-- How many tokens are ahead before the end of the input. -/
def words (s : State) : ℕ := (s.cursor.ahead.takeWhile (·.kind ≠ .endOfInput)).length

theorem words_le_left (s : State) : s.words ≤ s.left := (List.takeWhile_prefix _).length_le

end State

/-- From `s` to `t` tokens are passed, not the end of the input, and texts are interned. -/
structure Forward (s t : State) : Prop where
  passes : ∃ tokens, Between s t tokens
  interns : ∃ texts, t.names = s.names.internAll texts

namespace Forward

variable {s t u : State}

theorem refl (s : State) : Forward s s := ⟨⟨[], rfl, rfl, by simp⟩, [], rfl⟩

theorem trans (hst : Forward s t) (htu : Forward t u) : Forward s u := by
  obtain ⟨⟨ts, hts⟩, texts, htexts⟩ := hst
  obtain ⟨⟨us, hus⟩, texts', htexts'⟩ := htu
  refine ⟨⟨ts ++ us, hts.append hus⟩, texts ++ texts', ?_⟩
  rw [htexts', htexts, NameTable.internAll_append]

theorem take (h : s.kind ≠ .endOfInput) : Forward s (s.take h).state :=
  ⟨⟨_, between_take h⟩, [], rfl⟩

theorem eat (s : State) (x : Symbol) : Forward s (s.eat x) := by
  unfold State.eat
  split
  · exact .take _
  · exact .refl s

theorem intern (s : State) (text : String) : Forward s (s.intern text).2 :=
  ⟨⟨[], rfl, rfl, by simp⟩, [text], rfl⟩

theorem tables (h : Forward s t) (exprs : ExprTable) (stmts : StmtTable) :
    Forward s { t with exprs, stmts } :=
  ⟨h.passes.imp fun _ hts => ⟨hts.ahead, hts.behind, hts.words⟩, h.interns⟩

theorem words_add_left (h : Forward s t) : s.words + t.left = t.words + s.left := by
  obtain ⟨⟨tokens, htokens⟩, -⟩ := h
  have hwords : ∀ token ∈ tokens, decide (token.kind ≠ .endOfInput) = true := by
    simpa using htokens.words
  simp only [State.words, State.left, Cursor.left, htokens.ahead,
    List.takeWhile_append_of_pos hwords, List.length_append]
  omega

theorem left_le (h : Forward s t) : t.left ≤ s.left := by
  obtain ⟨⟨tokens, htokens⟩, -⟩ := h
  simp [State.left, Cursor.left, htokens.ahead]

theorem words_le (h : Forward s t) : t.words ≤ s.words := by
  have hwords := h.words_add_left
  have hleft := h.left_le
  omega

theorem words_lt (h : Forward s t) (hlt : t.left < s.left) : t.words < s.words := by
  have hwords := h.words_add_left
  omega

theorem words_take_lt (h : s.kind ≠ .endOfInput) : (s.take h).state.words < s.words :=
  (take h).words_lt (s.take h).shorter

end Forward

end Parser

namespace Descent

open PathCopy.Parser

/-! ### Programs that meet total readers -/

variable {α β : Type} {m n : ℕ} {s : State}

/-- From `s` the program does what a total reader says: it succeeds in the same state with the same
value, or it fails with the same error. Either way it has moved forward. -/
inductive Meets (reader : Reader α) (s : State) : Except ParseError (Parsed n α) → Prop
  | ok (r : Parsed n α) (hrun : reader s = .ok r.value r.state) (hforward : Forward s r.state) :
      Meets reader s (.ok r)
  | error {e : ParseError} {t : State} (hrun : reader s = .error (.fault e) t)
      (hforward : Forward s t) : Meets reader s (.error e)

namespace Meets

variable {reader : Reader α} {next : α → Reader β} {x : Except ParseError (Parsed n α)}
  {y : Except ParseError (Parsed m β)}

theorem pure (a : α) (h : s.left < n) : Meets (pure a) s (.ok (⟨a, s, h⟩ : Parsed n α)) :=
  .ok _ rfl (.refl s)

theorem fail (e : ParseError) : Meets (fail e : Reader α) s (.error e : Except _ (Parsed n α)) :=
  .error rfl (.refl s)

theorem step {a : α} {t : State} (hstep : reader s = .ok a t) (hst : Forward s t)
    (h : Meets (next a) t y) : Meets (reader >>= next) s y := by
  have hbind : (reader >>= next) s = next a t := by
    show EStateM.bind reader next s = next a t
    rw [EStateM.bind, hstep]
  cases h with
  | ok r hrun hforward => exact .ok r (hbind.trans hrun) (hst.trans hforward)
  | error hrun hforward => exact .error (hbind.trans hrun) (hst.trans hforward)

theorem look {a : α} (hlook : reader s = .ok a s) (h : Meets (next a) s y) :
    Meets (reader >>= next) s y :=
  step hlook (.refl s) h

theorem stop {e : ParseError} {t : State} (hstop : reader s = .error (.fault e) t)
    (hst : Forward s t) : Meets (reader >>= next) s (.error e : Except _ (Parsed m β)) := by
  refine .error (t := t) ?_ hst
  show EStateM.bind reader next s = .error (.fault e) t
  rw [EStateM.bind, hstop]

theorem bind {f : Parsed n α → Except ParseError (Parsed m β)} (h : Meets reader s x)
    (hnext : ∀ r : Parsed n α, Forward s r.state → Meets (next r.value) r.state (f r)) :
    Meets (reader >>= next) s (x >>= f) := by
  cases h with
  | ok r hrun hforward => exact step hrun hforward (hnext r hforward)
  | error hrun hforward => exact stop hrun hforward

theorem weaken (h : Meets reader s x) (hle : n ≤ m) :
    Meets reader s (x >>= fun r => .ok (r.weaken hle)) := by
  cases h with
  | ok r hrun hforward => exact .ok (r.weaken hle) hrun hforward
  | error hrun hforward => exact .error hrun hforward

end Meets

/-! ### Tokens -/

theorem Meets.take {next : Token → Reader β} {y : Except ParseError (Parsed m β)}
    (h : s.kind ≠ .endOfInput) (hnext : Meets (next s.current) (s.take h).state y) :
    Meets (advance >>= next) s y :=
  .step rfl (.take h) hnext

theorem advance_end (h : s.kind = .endOfInput) : advance s = .ok s.current s := by
  have hcursor : s.cursor.advance = s.cursor := by
    obtain ⟨⟨behind, _ | ⟨token, rest⟩⟩, names, exprs, stmts⟩ := s
    · rfl
    · have htoken : token.kind = .endOfInput := h
      simp [Cursor.advance, htoken]
  rw [advance, hcursor]

theorem eat_run (s : State) (x : Symbol) :
    eat x s = .ok (decide (s.kind = .symbol x)) (s.eat x) := by
  unfold eat Cursor.eat State.eat
  by_cases h : s.kind = .symbol x
  · have hcheck : s.cursor.check (.symbol x) = true := beq_iff_eq.mpr h
    simp [h, hcheck, State.take]
  · have hcheck : s.cursor.check (.symbol x) = false := beq_eq_false_iff_ne.mpr h
    simp [h, hcheck]

theorem eat_pos {x : Symbol} (h : s.kind = .symbol x) :
    eat x s = .ok true (s.take (State.ne_end_of_eq h (by simp))).state := by
  rw [eat_run, decide_eq_true h, State.eat, dif_pos h]

theorem eat_neg {x : Symbol} (h : s.kind ≠ .symbol x) : eat x s = .ok false s := by
  rw [eat_run, decide_eq_false h, State.eat, dif_neg h]

theorem expect_pos {x : Symbol} (h : s.kind = .symbol x) :
    expect x s = .ok s.current.span (s.take (State.ne_end_of_eq h (by simp))).state := by
  have hcheck : s.cursor.check (.symbol x) = true := beq_iff_eq.mpr h
  simp [expect, Cursor.expect, hcheck, State.take, State.current]

theorem expect_neg {x : Symbol} (h : s.kind ≠ .symbol x) :
    expect x s = .error (.fault (.found (.token (.symbol x)) s.current)) s := by
  have hcheck : s.cursor.check (.symbol x) = false := beq_eq_false_iff_ne.mpr h
  simp [expect, Cursor.expect, hcheck, State.current]

theorem expect_meets (s : State) (x : Symbol) : Meets (expect x) s (s.expect x) := by
  unfold State.expect
  split
  · rename_i h
    exact .ok _ (expect_pos h) (.take (State.ne_end_of_eq h (by simp)))
  · rename_i h
    exact .error (expect_neg h) (.refl s)

theorem leaf_meets (h : s.kind ≠ .endOfInput) (make : Site → Expr) :
    Meets (leaf make) s (.ok (s.leaf h make)) :=
  .ok _ rfl ((Forward.take h).tables _ _)

/-- An expression is completed at the end of a program. -/
theorem node_meets {span : Span} {make : Site → Expr} (r : Parsed n α) (hle : n ≤ m) :
    Meets (node span make) r.state (.ok ((r.node span make).weaken hle)) :=
  .ok _ rfl ((Forward.refl r.state).tables _ _)

theorem Meets.node {span : Span} {make : Site → Expr} {next : Expr → Reader β}
    {y : Except ParseError (Parsed m β)}
    (h : Meets (next (s.node span make).1) (s.node span make).2 y) :
    Meets (Descent.node span make >>= next) s y :=
  .step rfl ((Forward.refl s).tables _ _) h

theorem Meets.checkTarget {e : Expr} {next : Unit → Reader β}
    {y : Except ParseError (Parsed m β)} (h : Meets (next ()) s y) :
    Meets (Descent.checkTarget e >>= next) s (Parser.checkTarget e >>= fun _ => y) := by
  unfold Descent.checkTarget Parser.checkTarget
  split
  · exact h
  · exact .error rfl (.refl s)

/-! ### Lists -/

section Lists

variable {first : α} {rest : Reader (List α)} {close : Symbol}
  {tail : (h : s.kind = .symbol .comma) →
    Except ParseError (Parsed (s.take (State.ne_end_of_eq h (by simp))).state.left (List α))}

/-- After an element of a list come a comma and the rest, or the symbol that closes the list. -/
theorem Meets.separated (h : s.left ≤ n)
    (hrest : ∀ hcomma, (s.take (State.ne_end_of_eq hcomma (by simp))).state.words < s.words →
      Meets rest (s.take (State.ne_end_of_eq hcomma (by simp))).state (tail hcomma)) :
    Meets
      (do
        if ← eat .comma then
          let rest ← rest
          return first :: rest
        else
          let _ ← expect close
          return [first]) s
      (if hcomma : s.kind = .symbol .comma then do
        let rest ← tail hcomma
        .ok (⟨first :: rest.value, rest.state, Nat.lt_of_lt_of_le rest.shorter
          (Nat.le_trans (Nat.le_of_lt (Parsed.shorter _)) h)⟩ : Parsed n (List α))
      else do
        let closed ← s.expect close
        .ok ⟨[first], closed.state, Nat.lt_of_lt_of_le closed.shorter h⟩) := by
  by_cases hcomma : s.kind = .symbol .comma
  · have hne := State.ne_end_of_eq hcomma (by simp)
    rw [dif_pos hcomma]
    refine .step (eat_pos hcomma) (.take hne) ?_
    exact .bind (hrest hcomma (Forward.words_take_lt hne)) fun rest _ => .pure ..
  · rw [dif_neg hcomma]
    refine .look (eat_neg hcomma) ?_
    exact .bind (expect_meets _ _) fun closed _ => .pure ..

end Lists

/-! ### Expressions -/

theorem propertyName_meets (s : State) : Meets propertyName s (Parser.propertyName s) := by
  unfold Parser.propertyName
  split
  · rename_i name hkind
    have hcurrent : s.current.kind = .ident name := hkind
    refine .look rfl ?_
    simp only [hcurrent]
    exact .take (State.ne_end_of_eq hkind (by simp)) (.pure ..)
  · rename_i word hkind
    have hcurrent : s.current.kind = .keyword word := hkind
    refine .look rfl ?_
    simp only [hcurrent]
    refine .step rfl (.intern s word.text) ?_
    exact .take (State.ne_end_of_eq hkind (by simp)) (.pure ..)
  · rename_i hident hkeyword
    refine .look rfl ?_
    split
    · rename_i hkind
      exact (hident _ hkind).elim
    · rename_i hkind
      exact (hkeyword _ hkind).elim
    · exact .fail _

theorem entryKey_meets (source : List Char) (s : State) :
    Meets (entryKey source) s (Parser.entryKey source s) := by
  unfold Parser.entryKey
  split
  · rename_i text hkind
    have hcurrent : s.current.kind = .string text := hkind
    refine .look rfl ?_
    simp only [hcurrent]
    exact .take (State.ne_end_of_eq hkind (by simp)) (.pure ..)
  · rename_i x hkind
    have hcurrent : s.current.kind = .number x := hkind
    refine .look rfl ?_
    simp only [hcurrent]
    refine .step rfl (.intern s (s.current.span.snippet source)) ?_
    exact .take (State.ne_end_of_eq hkind (by simp)) (.pure ..)
  · rename_i hstring hnumber
    refine .look rfl ?_
    split
    · rename_i hkind
      exact (hstring _ hkind).elim
    · rename_i hkind
      exact (hnumber _ hkind).elim
    · exact propertyName_meets s

/-- The program meets a reader of expressions where fewer than `k` words are ahead. -/
def MeetsBelow (item : Reader Expr) (rec : Below n) (k : ℕ) : Prop :=
  ∀ s h, s.words < k → Meets item s (rec s h)

section Expressions

variable {source : List Char} {item : Reader Expr} {rec : Below n} {k rounds : ℕ}

theorem items_meets (hitem : MeetsBelow item rec k) {close : Symbol} (s : State) (h : s.left < n)
    (hk : s.words < k) (hrounds : s.words < rounds) :
    Meets (items item close rounds) s (Parser.items rec close s h) := by
  induction rounds generalizing s with
  | zero => exact absurd hrounds (Nat.not_lt_zero _)
  | succ rounds ih =>
      rw [items, Parser.items]
      refine .look rfl ?_
      by_cases hclose : s.kind = .symbol close
      · rw [if_pos hclose, dif_pos hclose]
        exact .step (expect_pos hclose) (.take _) (.pure ..)
      · rw [if_neg hclose, dif_neg hclose]
        refine .bind (hitem s h hk) fun first hfirst => ?_
        have hwords := hfirst.words_lt first.shorter
        refine .separated (Nat.le_of_lt first.shorter) fun hcomma htake => ?_
        exact ih _ _ (by omega) (by omega)

theorem entry_meets (hitem : MeetsBelow item rec k) (s : State) (h : s.left < n)
    (hk : s.words < k) : Meets (entry source item) s (Parser.entry source rec s h) := by
  unfold Parser.entry
  refine .look rfl ?_
  refine .bind (entryKey_meets source s) fun key hkey => ?_
  have hwords := hkey.words_lt key.shorter
  by_cases hcolon : key.state.kind = .symbol .colon
  · have hne := State.ne_end_of_eq hcolon (by simp)
    have htake := Forward.words_take_lt hne
    simp only [dif_pos hcolon]
    refine .step (eat_pos hcolon) (.take hne) ?_
    exact .bind (hitem _ _ (by omega)) fun value _ => .pure ..
  · simp only [dif_neg hcolon]
    refine .look (eat_neg hcolon) ?_
    cases hkind : s.kind with
    | ident name =>
        have hcurrent : s.current.kind = .ident name := hkind
        simp only [hcurrent]
        exact .node (.pure ..)
    | number | string | keyword | symbol | endOfInput | invalid =>
        have hcurrent : s.current.kind = _ := hkind
        simp only [hcurrent]
        exact .look rfl (.fail _)

theorem entries_meets (hitem : MeetsBelow item rec k) (s : State) (h : s.left < n)
    (hk : s.words < k) (hrounds : s.words < rounds) :
    Meets (entries source item rounds) s (Parser.entries source rec s h) := by
  induction rounds generalizing s with
  | zero => exact absurd hrounds (Nat.not_lt_zero _)
  | succ rounds ih =>
      rw [entries, Parser.entries]
      refine .look rfl ?_
      by_cases hclose : s.kind = .symbol .rbrace
      · rw [if_pos hclose, dif_pos hclose]
        exact .step (expect_pos hclose) (.take _) (.pure ..)
      · rw [if_neg hclose, dif_neg hclose]
        refine .bind (entry_meets hitem s h hk) fun first hfirst => ?_
        have hwords := hfirst.words_lt first.shorter
        refine .separated (Nat.le_of_lt first.shorter) fun hcomma htake => ?_
        exact ih _ _ (by omega) (by omega)

theorem primary_meets (hitem : MeetsBelow item rec k) (s : State) (h : s.left ≤ n)
    (hk : s.words ≤ k) (hrounds : s.words ≤ rounds) :
    Meets (primary source rounds item) s (Parser.primary source rec s h) := by
  -- After the first token fewer than `k` words are ahead.
  have hopened (hne : s.kind ≠ .endOfInput) : (s.take hne).state.words < k :=
    Nat.lt_of_lt_of_le (Forward.words_take_lt hne) hk
  have hrounds' (hne : s.kind ≠ .endOfInput) : (s.take hne).state.words < rounds :=
    Nat.lt_of_lt_of_le (Forward.words_take_lt hne) hrounds
  refine .look rfl ?_
  obtain ⟨⟨behind, _ | ⟨⟨kind, span⟩, rest⟩⟩, names, exprs, stmts⟩ := s
  · exact .fail _
  cases kind with
  | number | string => exact leaf_meets _ _
  | ident name =>
      refine .look rfl ?_
      show Meets (if _ then _ else _) _ (if _ then _ else _)
      split
      · exact .fail _
      · exact leaf_meets _ _
  | keyword word =>
      cases word
      case trueWord | falseWord | nullWord | undefinedWord => exact leaf_meets _ _
      all_goals exact .fail _
  | symbol x =>
      cases x
      case lparen =>
        refine .take TokenKind.noConfusion ?_
        refine .bind (hitem _ _ (hopened _)) fun inner _ => ?_
        refine .bind (expect_meets _ _) fun closed _ => ?_
        refine .look rfl ?_
        show Meets (if _ then _ else _) _ (if _ then _ else _)
        split
        · exact .fail _
        · exact .pure ..
      case lbracket =>
        refine .take TokenKind.noConfusion ?_
        refine .bind (items_meets hitem _ _ (hopened _) (hrounds' _)) fun list _ => ?_
        exact .look rfl (node_meets list _)
      case lbrace =>
        refine .take TokenKind.noConfusion ?_
        refine .bind (entries_meets hitem _ _ (hopened _) (hrounds' _)) fun list _ => ?_
        exact .look rfl (node_meets list _)
      all_goals exact .fail _
  | endOfInput | invalid => exact .fail _

variable {args : ℕ}

/-- What follows an expression is bounded as the whole chain is. -/
theorem chain_meets (hitem : MeetsBelow item rec k) (hmn : m ≤ n) (e : Expr) (s : State)
    (h : s.left < m) (hk : s.words ≤ k) (hargs : s.words ≤ args) (hrounds : s.words < rounds) :
    Meets (chain item (items item .rparen args) rounds e) s (Parser.chain rec hmn e s h) := by
  induction rounds generalizing e s with
  | zero => exact absurd hrounds (Nat.not_lt_zero _)
  | succ rounds ih =>
      -- One round ends where fewer words are ahead than where it began.
      have hround {next : Expr} {t : State} (ht : t.left < m) (hwords : t.words < s.words) :
          Meets (chain item (items item .rparen args) rounds next) t
            (Parser.chain rec hmn next t ht) :=
        ih next t ht (by omega) (by omega) (by omega)
      rw [Parser.chain]
      split
      -- A point and the name of a property.
      · rename_i hkind
        have hne := State.ne_end_of_eq hkind (by simp)
        have htake := Forward.words_take_lt hne
        rw [chain]
        refine .look rfl ?_
        simp only [hkind]
        refine .take hne (.look rfl ?_)
        refine .bind (propertyName_meets _) fun property hproperty => ?_
        exact .node (hround _ (Nat.lt_trans (hproperty.words_lt property.shorter) htake))
      -- A key in brackets.
      · rename_i hkind
        have hne := State.ne_end_of_eq hkind (by simp)
        have htake := Forward.words_take_lt hne
        rw [chain]
        refine .look rfl ?_
        simp only [hkind]
        refine .take hne ?_
        refine .bind (hitem _ _ (by omega)) fun key hkey => ?_
        have hinner := hkey.words_lt key.shorter
        refine .bind (expect_meets _ _) fun closed hclosed => ?_
        have hclose := hclosed.words_lt closed.shorter
        exact .node (hround _ (Nat.lt_trans hclose (Nat.lt_trans hinner htake)))
      -- The arguments of a call.
      · rename_i hkind
        have hne := State.ne_end_of_eq hkind (by simp)
        have htake := Forward.words_take_lt hne
        rw [chain]
        refine .look rfl ?_
        simp only [hkind]
        refine .take hne ?_
        refine .bind (items_meets hitem _ _ (by omega) (by omega)) fun list hlist => ?_
        exact .look rfl (.node (hround _ (Nat.lt_trans (hlist.words_lt list.shorter) htake)))
      -- The two step operators end the chain.
      iterate 2
        · rename_i hkind
          have hne := State.ne_end_of_eq hkind (by simp)
          rw [chain]
          refine .look rfl ?_
          simp only [hkind]
          exact .checkTarget (.take hne (node_meets (s.take hne) _))
      -- Every other token is left to the caller.
      · rw [chain]
        refine .look rfl ?_
        split <;> first | contradiction | exact .pure ..

theorem postfixed_meets (hitem : MeetsBelow item rec k) (s : State) (h : s.left ≤ n)
    (hk : s.words ≤ k) (hrounds : s.words ≤ rounds) :
    Meets (postfixed source rounds item) s (do
      let base ← Parser.primary source rec s h
      Parser.chain rec h base.value base.state base.shorter) := by
  refine .bind (primary_meets hitem s h hk hrounds) fun base hbase => ?_
  have hwords := hbase.words_lt base.shorter
  exact chain_meets hitem h base.value base.state base.shorter (by omega) (by omega) (by omega)

/-- The programs of a level meet the readers of expressions and of operands where fewer than `k`
words are ahead. -/
structure Level.Meets (inner : Level) (source : List Char) (rec : Below n) (k : ℕ) : Prop where
  expr : MeetsBelow inner.expr rec k
  operand : ∀ s (h : s.left ≤ n), s.words < k →
    Descent.Meets inner.operand s (Parser.operand source rec s h)

variable {inner : Level}

theorem operand_meets (hinner : inner.Meets source rec k) (s : State) (h : s.left ≤ n)
    (hk : s.words ≤ k) (hrounds : s.words ≤ rounds) :
    Meets (operand source rounds inner) s (Parser.operand source rec s h) := by
  have hopened (hne : s.kind ≠ .endOfInput) : (s.take hne).state.words < k :=
    Nat.lt_of_lt_of_le (Forward.words_take_lt hne) hk
  rw [Parser.operand]
  dsimp only
  split
  -- The operators that only wrap their operand.
  iterate 2
    · rename_i hkind
      refine .look rfl (.look rfl ?_)
      simp only [hkind]
      refine .take (State.ne_end_of_eq hkind (by simp)) ?_
      exact .bind (hinner.operand _ _ (hopened _)) fun e _ => node_meets e _
  -- The operators that also write to it.
  iterate 2
    · rename_i hkind
      refine .look rfl (.look rfl ?_)
      simp only [hkind]
      refine .take (State.ne_end_of_eq hkind (by simp)) ?_
      exact .bind (hinner.operand _ _ (hopened _)) fun e _ => .checkTarget (node_meets e _)
  · refine .look rfl (.look rfl ?_)
    split <;> first | contradiction | exact postfixed_meets hinner.expr s h hk hrounds

section Infixed

variable {op? : TokenKind → Option BinaryOp} {part : Reader Expr} {left : Expr} {more : ℕ}

theorem Meets.infixed_none (hop : op? s.kind = none) (h : s.left < n) :
    Meets (infixed op? part (more + 1) left) s (.ok (⟨left, s, h⟩ : Parsed n Expr)) := by
  rw [infixed]
  refine .look rfl ?_
  simp only [hop]
  exact .pure ..

/-- After an operator come an operand and whatever follows both. -/
theorem Meets.infixed_some {op : BinaryOp} (hop : op? s.kind = some op) (hne : s.kind ≠ .endOfInput)
    {x : Except ParseError (Parsed (s.take hne).state.left Expr)}
    {f : Parsed (s.take hne).state.left Expr → Except ParseError (Parsed m Expr)}
    (hright : Meets part (s.take hne).state x)
    (hnext : ∀ right : Parsed (s.take hne).state.left Expr,
      let whole := right.node (left.span.merge right.value.span) (.binary · op left right.value)
      whole.state.words < s.words →
        Meets (infixed op? part more whole.value) whole.state (f right)) :
    Meets (infixed op? part (more + 1) left) s (x >>= f) := by
  rw [infixed]
  refine .look rfl ?_
  simp only [hop]
  refine .take hne (.bind hright fun right hforward => ?_)
  have hwords := Nat.lt_trans (hforward.words_lt right.shorter) (Forward.words_take_lt hne)
  exact .node (hnext right hwords)

end Infixed

variable {more : ℕ}

theorem factors_meets (hinner : inner.Meets source rec k) (hmn : m ≤ n) (left : Expr) (s : State)
    (h : s.left < m) (hk : s.words ≤ k) (hrounds : s.words ≤ rounds) (hmore : s.words < more) :
    Meets (infixed productOp? (operand source rounds inner) more left) s
      (Parser.factors source rec hmn left s h) := by
  induction more generalizing left s with
  | zero => exact absurd hmore (Nat.not_lt_zero _)
  | succ more ih =>
      rw [Parser.factors]
      split
      · rename_i hop
        exact .infixed_none hop h
      · rename_i op hop
        have hne := ne_end_of_productOp hop
        have htake := Forward.words_take_lt hne
        refine .infixed_some hop hne (operand_meets hinner _ _ ?_ ?_) fun right hwords => ?_
        · exact Nat.le_trans (Nat.le_of_lt htake) hk
        · exact Nat.le_trans (Nat.le_of_lt htake) hrounds
        · exact ih _ _ _ (by omega) (by omega) (by omega)

theorem product_meets (hinner : inner.Meets source rec k) (s : State) (h : s.left ≤ n)
    (hk : s.words ≤ k) (hrounds : s.words ≤ rounds) :
    Meets (product source rounds inner) s (Parser.product source rec s h) := by
  refine .bind (operand_meets hinner s h hk hrounds) fun first hfirst => ?_
  have hwords := hfirst.words_lt first.shorter
  exact factors_meets hinner h _ _ first.shorter (by omega) (by omega) (by omega)

theorem terms_meets (hinner : inner.Meets source rec k) (hmn : m ≤ n) (left : Expr) (s : State)
    (h : s.left < m) (hk : s.words ≤ k) (hrounds : s.words ≤ rounds) (hmore : s.words < more) :
    Meets (infixed sumOp? (product source rounds inner) more left) s
      (Parser.terms source rec hmn left s h) := by
  induction more generalizing left s with
  | zero => exact absurd hmore (Nat.not_lt_zero _)
  | succ more ih =>
      rw [Parser.terms]
      split
      · rename_i hop
        exact .infixed_none hop h
      · rename_i op hop
        have hne := ne_end_of_sumOp hop
        have htake := Forward.words_take_lt hne
        refine .infixed_some hop hne (product_meets hinner _ _ ?_ ?_) fun right hwords => ?_
        · exact Nat.le_trans (Nat.le_of_lt htake) hk
        · exact Nat.le_trans (Nat.le_of_lt htake) hrounds
        · exact ih _ _ _ (by omega) (by omega) (by omega)

theorem sum_meets (hinner : inner.Meets source rec k) (s : State) (h : s.left ≤ n)
    (hk : s.words ≤ k) (hrounds : s.words ≤ rounds) :
    Meets (sum source rounds inner) s (Parser.sum source rec s h) := by
  refine .bind (product_meets hinner s h hk hrounds) fun first hfirst => ?_
  have hwords := hfirst.words_lt first.shorter
  exact terms_meets hinner h _ _ first.shorter (by omega) (by omega) (by omega)

theorem exprWith_meets (hinner : inner.Meets source rec k) (s : State) (h : s.left ≤ n)
    (hk : s.words ≤ k) (hrounds : s.words ≤ rounds) :
    Meets (expr source rounds inner) s (exprWith source rec s h) := by
  refine .bind (sum_meets hinner s h hk hrounds) fun target htarget => ?_
  have hwords := htarget.words_lt target.shorter
  dsimp only
  split
  · rename_i hop
    refine .look rfl ?_
    simp only [hop]
    exact .pure _ target.shorter
  · rename_i op hop
    have hne := ne_end_of_assignOp hop
    have htake := Forward.words_take_lt hne
    refine .look rfl ?_
    simp only [hop]
    refine .checkTarget (.take hne ?_)
    exact .bind (hinner.expr _ _ (by omega)) fun value _ => node_meets value _

end Expressions

/-- Programs with these limits meet the readers of expressions and of operands where fewer words are
ahead. -/
theorem level_meets (source : List Char) (rounds depth n : ℕ) :
    (level source rounds depth).Meets source (n := n) (fun t _ => Parser.expr source t)
      (min depth (rounds + 1)) := by
  induction depth generalizing n with
  | zero => exact ⟨fun _ _ h => by omega, fun _ _ h => by omega⟩
  | succ depth ih =>
      refine ⟨fun s hs hwords => ?_, fun s hs hwords => ?_⟩
      · rw [Parser.expr]
        exact exprWith_meets (ih _) s _ (by omega) (by omega)
      · exact operand_meets (ih _) s hs (by omega) (by omega)

/-! ### Statements -/

section Statements

variable {source : List Char} {item : Reader Expr} {k rounds : ℕ}

def MeetsExpr (item : Reader Expr) (source : List Char) (k : ℕ) : Prop :=
  ∀ s, s.words < k → Meets item s (Parser.expr source s)

theorem initialValue_meets (hitem : MeetsExpr item source k) (constant : Bool) (s : State)
    (h : s.left < n) (hk : s.words ≤ k) :
    Meets (initialValue item constant) s (Parser.initialValue source constant s h) := by
  unfold initialValue Parser.initialValue
  by_cases hassign : s.kind = .symbol .assign
  · have hne := State.ne_end_of_eq hassign (by simp)
    have htake := Forward.words_take_lt hne
    rw [dif_pos hassign]
    cases constant
    · refine .step (eat_pos hassign) (.take hne) ?_
      exact .bind (hitem _ (by omega)) fun value _ => .pure ..
    · refine .step (expect_pos hassign) (.take hne) ?_
      exact .bind (hitem _ (by omega)) fun value _ => .pure ..
  · rw [dif_neg hassign]
    cases constant
    · exact .look (eat_neg hassign) (.pure ..)
    · exact .stop (expect_neg hassign) (.refl s)

/-- The keyword is consumed by the declaration here. -/
theorem declaration_meets (hitem : MeetsExpr item source k) (constant : Bool) (s : State)
    (h : s.kind ≠ .endOfInput) (hk : s.words ≤ k) :
    Meets (declaration item constant) s (do
      let declared ← Parser.declaration source constant s.current.span (s.take h).state
      .ok (declared.weaken (Nat.le_of_lt (s.take h).shorter))) := by
  refine .take h ?_
  refine .weaken ?_ _
  unfold Parser.declaration
  split
  · rename_i name hkind
    have hcurrent : (s.take h).state.current.kind = .ident name := hkind
    have hne := State.ne_end_of_eq hkind (by simp)
    have hwords := Nat.lt_trans (Forward.words_take_lt hne) (Forward.words_take_lt h)
    refine .look rfl ?_
    simp only [hcurrent]
    refine .take hne ?_
    refine .bind (initialValue_meets hitem _ _ _ (by omega)) fun initial _ => ?_
    refine .step (eat_run _ _) (.eat _ _) ?_
    exact .look rfl (.pure ..)
  · rename_i hident
    refine .look rfl ?_
    split
    · rename_i hkind
      exact (hident _ hkind).elim
    · exact .fail _

variable {inner : Reader (Nat × List Stmt)} {rec : BlockBelow n}

/-- The program meets a reader of blocks where one word more than those ahead is below `k`: it is
the opening brace. -/
def MeetsBlock (inner : Reader (Nat × List Stmt)) (rec : BlockBelow n) (k : ℕ) : Prop :=
  ∀ s h, s.words + 1 < k → Meets inner s (rec s h)

theorem stmt_meets (hitem : MeetsExpr item source k) (hinner : MeetsBlock inner rec k) (s : State)
    (h : s.left ≤ n) (hk : s.words < k) :
    Meets (stmt item inner) s (Parser.stmt source rec s h) := by
  unfold Parser.stmt
  dsimp only
  split
  -- A semicolon by itself, and a block.
  · rename_i hkind
    refine .look rfl (.look rfl ?_)
    simp only [hkind]
    exact .take (State.ne_end_of_eq hkind (by simp)) (.pure ..)
  · rename_i hkind
    have hne := State.ne_end_of_eq hkind (by simp)
    have htake := Forward.words_take_lt hne
    refine .look rfl (.look rfl ?_)
    simp only [hkind]
    refine .step (expect_pos hkind) (.take hne) ?_
    refine .bind (hinner _ _ (by omega)) fun body _ => ?_
    exact .look rfl (.pure ..)
  -- The three words that declare a name.
  iterate 3
    · rename_i hkind
      refine .look rfl (.look rfl ?_)
      simp only [hkind]
      exact declaration_meets hitem _ s (State.ne_end_of_eq hkind (by simp)) (by omega)
  -- A `return`. What may end it is looked at before a value is read.
  · rename_i hkind
    have hne := State.ne_end_of_eq hkind (by simp)
    have htake := Forward.words_take_lt hne
    refine .look rfl (.look rfl ?_)
    simp only [hkind]
    refine .take hne (.look rfl ?_)
    split
    · refine .step (eat_run _ _) (.eat _ _) ?_
      exact .look rfl (.pure _ ((s.take hne).eat .semicolon).shorter)
    · refine .bind (hitem _ (by omega)) fun value _ => ?_
      refine .step (eat_run _ _) (.eat _ _) ?_
      exact .look rfl (.pure ..)
  · rename_i hkind
    refine .look rfl (.look rfl ?_)
    simp only [hkind]
    exact .fail _
  · refine .look rfl (.look rfl ?_)
    split <;> try contradiction
    by_cases hreserved : s.kind.isReserved
    · rw [if_pos hreserved, if_pos hreserved]
      exact .fail _
    · rw [if_neg hreserved, if_neg hreserved]
      refine .bind (hitem s hk) fun value _ => ?_
      refine .step (eat_run _ _) (.eat _ _) ?_
      exact .look rfl (.pure ..)

theorem stmts_meets (hitem : MeetsExpr item source k) (hinner : MeetsBlock inner rec k) (s : State)
    (h : s.left ≤ n) (hk : s.words < k) (hrounds : s.words < rounds) :
    Meets (stmts (stmt item inner) rounds) s (Parser.stmts source rec s h) := by
  induction rounds generalizing s with
  | zero => exact absurd hrounds (Nat.not_lt_zero _)
  | succ rounds ih =>
      rw [stmts, Parser.stmts]
      refine .look rfl ?_
      by_cases hclose : s.kind = .symbol .rbrace
      · rw [if_pos hclose, dif_pos hclose]
        exact .step (expect_pos hclose) (.take _) (.pure ..)
      · rw [if_neg hclose, dif_neg hclose]
        refine .look rfl ?_
        by_cases hend : s.cursor.atEnd
        · rw [if_pos hend, if_pos hend]
          exact .look rfl (.fail _)
        · rw [if_neg hend, if_neg hend]
          refine .bind (stmt_meets hitem hinner s h hk) fun first hfirst => ?_
          have hwords := hfirst.words_lt first.shorter
          exact .bind (ih _ _ (by omega) (by omega)) fun rest _ => .pure ..

end Statements

theorem expr_meets (source : List Char) (rounds depth : ℕ) :
    MeetsExpr (level source rounds depth).expr source (min depth (rounds + 1)) :=
  fun s h => (level_meets source rounds depth (s.left + 1)).expr s (Nat.lt_succ_self _) h

theorem blockRest_meets (source : List Char) (rounds depth : ℕ) (s : State)
    (hdepth : s.words + 1 < depth) (hrounds : s.words < rounds) :
    Meets (blockRest source rounds depth) s (Parser.blockRest source s) := by
  induction depth generalizing s with
  | zero => exact absurd hdepth (Nat.not_lt_zero _)
  | succ depth ih =>
      have hinner : MeetsBlock (n := s.left) (blockRest source rounds depth)
          (fun t _ => Parser.blockRest source t) (min depth (rounds + 1)) :=
        fun t _ hwords => ih t (by omega) (by omega)
      rw [blockRest, Parser.blockRest]
      refine .bind (stmts_meets (expr_meets source rounds depth) hinner s _ (by omega) hrounds)
        fun body hbody => ?_
      exact .ok _ rfl ((Forward.refl _).tables _ _)

theorem blockRest_meetsBlock (source : List Char) (rounds depth n : ℕ) :
    MeetsBlock (n := n) (blockRest source rounds depth) (fun t _ => Parser.blockRest source t)
      (min depth (rounds + 1)) :=
  fun s _ hwords => blockRest_meets source rounds depth s (by omega) (by omega)

/-! ### Procedures -/

section Procedures

variable {source : List Char} {rounds depth : ℕ}

theorem block_meets (s : State) (hdepth : s.words < depth) (hrounds : s.words ≤ rounds) :
    Meets (block source rounds depth) s (Parser.block source s) := by
  refine .bind (expect_meets s .lbrace) fun opened hopened => ?_
  have hwords := hopened.words_lt opened.shorter
  refine .bind (blockRest_meets source rounds depth _ (by omega) (by omega)) fun body _ => ?_
  exact .pure ..

theorem param_pos {name : Name} (h : s.kind = .ident name) :
    param s = .ok ⟨name, s.current.span⟩ (s.take (State.ne_end_of_eq h (by simp))).state := by
  have hcurrent : s.current.kind = .ident name := h
  unfold param
  show EStateM.bind current _ s = _
  simp only [EStateM.bind, current, hcurrent]
  rfl

theorem param_neg (h : ∀ name, s.kind ≠ .ident name) :
    param s = .error (.fault (.found .parameterName s.current)) s := by
  unfold param
  show EStateM.bind current _ s = _
  simp only [EStateM.bind, current]
  cases hkind : s.current.kind with
  | ident name => exact (h name hkind).elim
  | number | string | keyword | symbol | endOfInput | invalid => rfl

theorem params_meets (s : State) (hrounds : s.words < rounds) :
    Meets (params rounds) s (Parser.params s) := by
  induction rounds generalizing s with
  | zero => exact absurd hrounds (Nat.not_lt_zero _)
  | succ rounds ih =>
      rw [params, Parser.params]
      refine .look rfl ?_
      by_cases hclose : s.kind = .symbol .rparen
      · rw [if_pos hclose, dif_pos hclose]
        exact .step (expect_pos hclose) (.take _) (.pure ..)
      · rw [if_neg hclose, dif_neg hclose]
        split
        · rename_i name hkind
          have hne := State.ne_end_of_eq hkind (by simp)
          have htake := Forward.words_take_lt hne
          refine .step (param_pos hkind) (.take hne) ?_
          refine .separated (Nat.le_of_lt (s.take hne).shorter) fun hcomma hcommaTake => ?_
          exact ih _ (by omega)
        · rename_i hident
          exact .stop (param_neg hident) (.refl s)

theorem arrowBody_meets (s : State) (hdepth : s.words < depth) (hrounds : s.words ≤ rounds) :
    Meets (arrowBody source rounds depth) s (Parser.arrowBody source s) := by
  unfold arrowBody Parser.arrowBody
  refine .look rfl ?_
  by_cases hbrace : s.kind = .symbol .lbrace
  · rw [if_pos hbrace, if_pos hbrace]
    exact block_meets s hdepth hrounds
  · rw [if_neg hbrace, if_neg hbrace]
    exact .bind (expr_meets source rounds depth s (by omega)) fun value _ => .pure ..

theorem ne_end_of_atIdent (h : s.cursor.atIdent = true) : s.kind ≠ .endOfInput := by
  intro hend
  have hkind : s.cursor.kind = .endOfInput := hend
  simp [Cursor.atIdent, hkind] at h

/-- The state after the name of a function, which does not have to be there. -/
def afterName (s : State) : State :=
  if s.cursor.atIdent then { s with cursor := s.cursor.advance } else s

theorem forward_afterName (s : State) : Forward s (afterName s) := by
  unfold afterName
  split
  · rename_i hident
    exact .take (ne_end_of_atIdent hident)
  · exact .refl s

theorem Meets.name {reader : Reader α} {y : Except ParseError (Parsed m α)}
    (h : Meets reader (afterName s) y) :
    Meets (if s.cursor.atIdent then do
      let _ ← advance
      reader else reader) s y := by
  unfold afterName at h
  split
  · rename_i hident
    rw [if_pos hident] at h
    exact .take (ne_end_of_atIdent hident) h
  · rename_i hident
    rwa [if_neg hident] at h

theorem peek_one (h : s.kind ≠ .endOfInput) : s.cursor.peek 1 = (s.take h).state.kind := by
  obtain ⟨⟨behind, _ | ⟨token, rest⟩⟩, names, exprs, stmts⟩ := s
  · exact absurd rfl h
  · have htoken : token.kind ≠ .endOfInput := h
    cases rest <;> simp [Cursor.peek, State.take, Cursor.advance, htoken, State.kind, Cursor.kind,
      Cursor.current]

theorem signature_meets (s : State) (hdepth : s.words ≤ depth) (hrounds : s.words ≤ rounds) :
    Meets (signature source rounds depth) s (Parser.signature source s) := by
  unfold Parser.signature
  split
  -- The keyword `function`, which a name may follow.
  · rename_i hkind
    have hne := State.ne_end_of_eq hkind (by simp)
    have htake := Forward.words_take_lt hne
    have hrest {t : State} (ht : t.words < s.words) (hleft : t.left < s.left) :
        Meets (do
          let _ ← expect .lparen
          let list ← params rounds
          let body ← block source rounds depth
          return (list, body)) t (do
          let opened ← t.expect .lparen
          let list ← Parser.params opened.state
          let body ← Parser.block source list.state
          .ok (⟨(list.value, body.value), body.state, Nat.lt_trans body.shorter
            (Nat.lt_trans list.shorter (Nat.lt_trans opened.shorter hleft))⟩ :
            Parsed s.left (List Param × ProcedureBody))) := by
      refine .bind (expect_meets t .lparen) fun opened hopened => ?_
      have hopen := hopened.words_lt opened.shorter
      refine .bind (params_meets _ (by omega)) fun list hlist => ?_
      have hparams := hlist.words_lt list.shorter
      exact .bind (block_meets _ (by omega) (by omega)) fun body _ => .pure ..
    refine .look rfl ?_
    simp only [hkind]
    refine .take hne (.look rfl ?_)
    refine .name (hrest (Nat.lt_of_le_of_lt ?_ htake) (Nat.lt_of_le_of_lt ?_ (s.take hne).shorter))
    · exact (forward_afterName _).words_le
    · exact (forward_afterName _).left_le
  -- The parameters of an arrow function in parentheses.
  · rename_i hkind
    have hne := State.ne_end_of_eq hkind (by simp)
    have htake := Forward.words_take_lt hne
    refine .look rfl ?_
    simp only [hkind]
    refine .take hne ?_
    refine .bind (params_meets _ (by omega)) fun list hlist => ?_
    have hparams := hlist.words_lt list.shorter
    refine .bind (expect_meets _ _) fun arrow harrow => ?_
    have hopened := harrow.words_lt arrow.shorter
    exact .bind (arrowBody_meets _ (by omega) (by omega)) fun body _ => .pure ..
  -- A parameter by itself. Whether an arrow follows is seen before the name is read.
  · rename_i name hkind
    have hne := State.ne_end_of_eq hkind (by simp)
    have htake := Forward.words_take_lt hne
    refine .look rfl ?_
    simp only [hkind]
    refine .look rfl ?_
    have hpeek := peek_one hne
    by_cases harrow : (s.take hne).state.kind = .symbol .arrow
    · have hneArrow := State.ne_end_of_eq harrow (by simp)
      have harrowTake := Forward.words_take_lt hneArrow
      rw [if_pos (hpeek.trans harrow)]
      simp only [dif_pos harrow]
      refine .take hne (.take hneArrow ?_)
      exact .bind (arrowBody_meets _ (by omega) (by omega)) fun body _ => .pure ..
    · rw [if_neg (hpeek ▸ harrow)]
      simp only [dif_neg harrow]
      exact .look rfl (.fail _)
  -- No other token begins a procedure.
  · rename_i hident
    refine .look rfl ?_
    split <;> first | contradiction | exact (hident _ ‹_›).elim | exact .look rfl (.fail _)

/-- The total reader of a procedure with the state in which it ends. -/
def closed (source : List Char) (s : State) : Except ParseError (Parsed s.left Procedure) := do
  let whole ← Parser.signature source s
  let done := whole.eat .semicolon
  if done.state.cursor.atEnd then
    .ok
      ⟨{ params := done.value.1
         body := done.value.2
         exprs := done.state.exprs
         stmts := done.state.stmts
         names := done.state.names
         source
         span := s.current.span.merge done.state.previousSpan }, done.state, done.shorter⟩
  else .error (.trailingInput done.state.current.span)

theorem closed_value (source : List Char) (s : State) :
    (closed source s).map Parsed.value = Parser.procedure source s := by
  unfold closed Parser.procedure
  cases Parser.signature source s with
  | error e => rfl
  | ok whole =>
      show Except.map _ (if (whole.state.eat .semicolon).cursor.atEnd then _ else _) =
        if (whole.state.eat .semicolon).cursor.atEnd then _ else _
      split <;> rfl

theorem procedure_meets (s : State) (hdepth : s.words ≤ depth) (hrounds : s.words ≤ rounds) :
    Meets (procedure source rounds depth) s (closed source s) := by
  refine .look rfl ?_
  refine .bind (signature_meets s hdepth hrounds) fun whole _ => ?_
  refine .step (eat_run _ _) (.eat _ _) (.look rfl ?_)
  show Meets (if (whole.state.eat .semicolon).cursor.atEnd then _ else _) _
    (if (whole.state.eat .semicolon).cursor.atEnd then _ else _)
  split
  · exact .look rfl (.pure _ (whole.eat .semicolon).shorter)
  · exact .look rfl (.fail _)

/-- Reading a procedure moves forward, and the procedure keeps the names known in the end. -/
theorem procedure_forward {s : State} {p : Procedure} (h : Parser.procedure source s = .ok p) :
    ∃ t, Forward s t ∧ p.names = t.names := by
  rw [← closed_value] at h
  obtain ⟨r, hr, rfl⟩ := except_map_ok h
  have hmeets : Meets (procedure source s.words s.words) s (closed source s) :=
    procedure_meets s (Nat.le_refl _) (Nat.le_refl _)
  rw [hr] at hmeets
  cases hmeets with
  | ok r _ hforward =>
      refine ⟨r.state, hforward, ?_⟩
      obtain ⟨whole, -, hr⟩ := except_bind_ok hr
      dsimp only at hr
      split at hr
      · cases hr
        rfl
      · cases hr

end Procedures

end Descent

end PathCopy
