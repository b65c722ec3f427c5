import PathCopy.Procedure.Parser
import PathCopy.Proofs.Outcomes
import PathCopy.Proofs.Phrases

/-!
What reading adds to the state. `Completes s row spare t` says that from `s` to `t` the phrases of
`row` are completed side by side, each after its children and none of them anywhere else, and that
besides the tokens that a phrase is charged with `spare` more have been consumed. Every reader of
the grammar only takes such steps, so what each step preserves holds of all that is read.
-/

namespace PathCopy

namespace Parser

/-- A span that begins with the current token of `s` or the first phrase of a row, and ends with the
token consumed before `t` or the last phrase of the row. -/
def Frames (s : State) (row : List Phrase) (t : State) (span : Span) : Prop :=
  ∃ left right, span = left.merge right ∧
    (left = s.current.span ∨ left ∈ row.head?.map Phrase.span) ∧
    (right = t.previousSpan ∨ right ∈ row.getLast?.map Phrase.span)

inductive Completes : State → List Phrase → Nat → State → Prop
  | nil (s) : Completes s [] 0 s
  | names (s names) : Completes s [] 0 { s with names }
  | take {s} (h : s.kind ≠ .endOfInput) : Completes s [] 1 (s.take h).state
  | append {s t u ps qs j k} : Completes s ps j t → Completes t qs k u →
      Completes s (ps ++ qs) (j + k) u
  /-- An expression is charged with a token that is not part of its children. -/
  | expr {s t k e} : Completes s (e.children.map .expr) (k + 1) t →
      Frames s (e.children.map .expr) t e.span → e.num = t.exprs.next →
      Completes s [.expr e] k { t with exprs := t.exprs.add e }
  /-- A statement with a token of its own, such as a keyword. -/
  | stmt {s t k st} : Completes s (Stmt.children st) (k + 1) t →
      Frames s (Stmt.children st) t (Stmt.span st) →
      (∀ span first body, st ≠ .block span first body) →
      Completes s [.stmt st] k t
  /-- A statement that is an expression may have no other token. -/
  | exprStmt {s t k e span} : Completes s [.expr e] k t → Frames s [.expr e] t span →
      Completes s [.stmt (.expr span e)] k t
  | block {s t k body span} : Completes s (body.map .stmt) (k + 1) t →
      Frames s (body.map .stmt) t span →
      Completes s [.stmt (.block span t.stmts.next body)] k { t with stmts := t.stmts.add body }

def Builds (s : State) (row : List Phrase) (t : State) : Prop := ∃ k, Completes s row k t

def BuildsMore (s : State) (row : List Phrase) (t : State) : Prop := ∃ k, Completes s row (k + 1) t

variable {s t u : State} {row ps qs : List Phrase} {k : Nat} {tokens ts us : List Token}

theorem Builds.append (hst : Builds s ps t) (htu : Builds t qs u) : Builds s (ps ++ qs) u := by
  obtain ⟨j, hst⟩ := hst
  obtain ⟨k, htu⟩ := htu
  exact ⟨j + k, .append hst htu⟩

theorem BuildsMore.builds (h : BuildsMore s row t) : Builds s row t := by
  obtain ⟨k, h⟩ := h
  exact ⟨k + 1, h⟩

theorem BuildsMore.append (hst : BuildsMore s ps t) (htu : Builds t qs u) :
    BuildsMore s (ps ++ qs) u := by
  obtain ⟨j, hst⟩ := hst
  obtain ⟨k, htu⟩ := htu
  exact ⟨j + k, by simpa only [Nat.add_right_comm] using hst.append htu⟩

theorem Builds.append_more (hst : Builds s ps t) (htu : BuildsMore t qs u) :
    BuildsMore s (ps ++ qs) u := by
  obtain ⟨j, hst⟩ := hst
  obtain ⟨k, htu⟩ := htu
  exact ⟨j + k, hst.append htu⟩

theorem buildsMore_take (h : s.kind ≠ .endOfInput) : BuildsMore s [] (s.take h).state :=
  ⟨0, .take h⟩

/-! ### The tokens that a step consumes -/

/-- The tokens between two states. The end of the input is not among them. -/
structure Between (s t : State) (tokens : List Token) : Prop where
  ahead : s.cursor.ahead = tokens ++ t.cursor.ahead
  behind : t.cursor.behind = tokens.reverse ++ s.cursor.behind
  words : ∀ token ∈ tokens, token.kind ≠ .endOfInput

theorem Between.append (hst : Between s t ts) (htu : Between t u us) : Between s u (ts ++ us) where
  ahead := by rw [hst.ahead, htu.ahead, List.append_assoc]
  behind := by rw [htu.behind, hst.behind, List.reverse_append, List.append_assoc]
  words := List.forall_mem_append.mpr ⟨hst.words, htu.words⟩

theorem between_take (h : s.kind ≠ .endOfInput) : Between s (s.take h).state [s.current] := by
  obtain ⟨⟨behind, _ | ⟨token, rest⟩⟩, names, exprs, stmts⟩ := s
  · exact absurd rfl h
  · have htoken : token.kind ≠ .endOfInput := h
    constructor <;>
      simp [State.take, Cursor.advance, htoken, State.current, Cursor.current]

theorem Between.current {token : Token} (h : Between s t (token :: ts)) : s.current = token := by
  simp [State.current, Cursor.current, h.ahead]

theorem Between.previousSpan {token : Token} (h : Between s t (ts ++ [token])) :
    t.previousSpan = token.span := by
  simp [State.previousSpan, Cursor.previousSpan, h.behind]

/-- Every phrase is charged with a token of its own. -/
theorem Completes.between (h : Completes s row k t) :
    ∃ tokens, Between s t tokens ∧ row.length + k ≤ tokens.length := by
  induction h with
  | nil s => exact ⟨[], ⟨rfl, rfl, by simp⟩, Nat.le_refl _⟩
  | names s names => exact ⟨[], ⟨rfl, rfl, by simp⟩, Nat.le_refl _⟩
  | take h => exact ⟨_, between_take h, by simp⟩
  | append _ _ ihst ihtu =>
      obtain ⟨ts, hts, htslen⟩ := ihst
      obtain ⟨us, hus, huslen⟩ := ihtu
      refine ⟨ts ++ us, hts.append hus, ?_⟩
      simp only [List.length_append]
      omega
  | expr _ _ _ ih | stmt _ _ _ ih | exprStmt _ _ ih | block _ _ ih =>
      obtain ⟨tokens, ⟨hahead, hbehind, hwords⟩, hlength⟩ := ih
      refine ⟨tokens, ⟨hahead, hbehind, hwords⟩, ?_⟩
      simp only [List.length_singleton] at hlength ⊢
      omega

theorem Between.unique (h : Between s t ts) (h' : Between s t us) : ts = us :=
  List.append_cancel_right (h.ahead.symm.trans h'.ahead)

theorem Completes.tokens_ne_nil (h : Completes s row k t) (hbetween : Between s t tokens)
    (hpos : 0 < row.length + k) : tokens ≠ [] := by
  obtain ⟨ts, hts, hlength⟩ := h.between
  obtain rfl := hbetween.unique hts
  exact List.ne_nil_of_length_pos (Nat.lt_of_lt_of_le hpos hlength)

/-! ### Tokens -/

theorem previousSpan_take (h : s.kind ≠ .endOfInput) :
    (s.take h).state.previousSpan = s.current.span := by
  obtain ⟨⟨behind, _ | ⟨token, rest⟩⟩, names, exprs, stmts⟩ := s
  · exact absurd rfl h
  · have htoken : token.kind ≠ .endOfInput := h
    simp [State.take, Cursor.advance, htoken, State.previousSpan, Cursor.previousSpan,
      State.current, Cursor.current]

/-- A token is consumed that phrases can be charged with. -/
def Passes (s t : State) : Prop := BuildsMore s [] t ∧ t.previousSpan = s.current.span

theorem passes_take (h : s.kind ≠ .endOfInput) : Passes s (s.take h).state :=
  ⟨buildsMore_take h, previousSpan_take h⟩

theorem Passes.names (h : Passes s t) (names : NameTable) : Passes s { t with names } := by
  refine ⟨?_, h.2⟩
  exact h.1.append ⟨0, .names t names⟩

theorem passes_expect {x : Symbol} {r : Parsed s.left Span} (h : s.expect x = .ok r) :
    Passes s r.state ∧ r.value = s.current.span := by
  unfold State.expect at h
  split at h
  · rename_i hkind
    cases h
    exact ⟨passes_take (State.ne_end_of_eq hkind (by simp)), rfl⟩
  · cases h

theorem builds_eat (s : State) (x : Symbol) : Builds s [] (s.eat x) := by
  unfold State.eat
  split
  · rename_i hkind
    exact (buildsMore_take (State.ne_end_of_eq hkind (by simp))).builds
  · exact ⟨0, .nil s⟩

theorem builds_ident (s : State) : Builds s []
    (if s.cursor.atIdent then { s with cursor := s.cursor.advance } else s) := by
  split
  · rename_i hident
    have hne : s.kind ≠ .endOfInput := by
      intro hend
      have hkind : s.cursor.kind = .endOfInput := hend
      simp [Cursor.atIdent, hkind] at hident
    exact (buildsMore_take hne).builds
  · exact ⟨0, .nil s⟩

theorem passes_propertyName {r : Parsed s.left Name} (h : propertyName s = .ok r) :
    Passes s r.state := by
  unfold propertyName at h
  split at h
  · rename_i hkind
    cases h
    exact passes_take (State.ne_end_of_eq hkind (by simp))
  · rename_i hkind
    cases h
    exact (passes_take (State.ne_end_of_eq hkind (by simp))).names _
  · cases h

theorem passes_entryKey {source : List Char} {r : Parsed s.left Name}
    (h : entryKey source s = .ok r) : Passes s r.state := by
  unfold entryKey at h
  split at h
  · rename_i hkind
    cases h
    exact passes_take (State.ne_end_of_eq hkind (by simp))
  · rename_i hkind
    cases h
    exact (passes_take (State.ne_end_of_eq hkind (by simp))).names _
  · exact passes_propertyName h

/-! ### Expressions -/

theorem Frames.mk {left right : Span}
    (hleft : left = s.current.span ∨ left ∈ row.head?.map Phrase.span)
    (hright : right = t.previousSpan ∨ right ∈ row.getLast?.map Phrase.span) :
    Frames s row t (left.merge right) := ⟨left, right, rfl, hleft, hright⟩

theorem Passes.frames (h : Passes s t) : Frames s [] t s.current.span := by
  have hmerge : s.current.span = s.current.span.merge s.current.span := by
    simp [Span.merge]
  exact ⟨_, _, hmerge, .inl rfl, .inl h.2.symm⟩

theorem BuildsMore.node {span : Span} (make : Site → Expr) (es : List Expr)
    (h : BuildsMore s (es.map .expr) t) (hframes : Frames s (es.map .expr) t span)
    (hsite : ∀ site, (make site).site = site) (hchildren : ∀ site, (make site).children = es) :
    Builds s [.expr (t.node span make).1] (t.node span make).2 := by
  obtain ⟨k, h⟩ := h
  refine ⟨k, .expr ?_ ?_ ?_⟩
  · rwa [State.node, hchildren]
  · rwa [State.node, hchildren, Expr.span, hsite]
  · simp only [State.node, Expr.num, hsite]

def Sound {n : Nat} (rec : Below n) : Prop :=
  ∀ s h r, rec s h = .ok r → Builds s [.expr r.value] r.state

section Expressions

variable {n : Nat} {rec : Below n} {source : List Char}

theorem items_builds (hrec : Sound rec) {close : Symbol} (s : State) (h : s.left < n)
    {r : Parsed s.left (List Expr)} (hr : items rec close s h = .ok r) :
    BuildsMore s (r.value.map .expr) r.state := by
  rw [items] at hr
  split at hr
  · rename_i hclose
    cases hr
    exact buildsMore_take (State.ne_end_of_eq hclose (by simp))
  · obtain ⟨item, hitem, hr⟩ := except_bind_ok hr
    have hbuilt := hrec _ _ _ hitem
    split at hr
    · rename_i hcomma
      have hne := State.ne_end_of_eq hcomma (by simp)
      obtain ⟨rest, hrest, hr⟩ := except_bind_ok hr
      cases hr
      exact hbuilt.append_more ((buildsMore_take hne).append (items_builds hrec _ _ hrest).builds)
    · obtain ⟨closed, hclosed, hr⟩ := except_bind_ok hr
      cases hr
      exact hbuilt.append_more (passes_expect hclosed).1.1
termination_by s.left
decreasing_by exact Nat.lt_trans (Parsed.shorter _) item.shorter

theorem entry_builds (hrec : Sound rec) (s : State) (h : s.left < n) {r : Parsed s.left Property}
    (hr : entry source rec s h = .ok r) : Builds s [.expr r.value.value] r.state := by
  unfold entry at hr
  obtain ⟨key, hkey, hr⟩ := except_bind_ok hr
  have hpasses := passes_entryKey hkey
  dsimp only at hr
  split at hr
  · rename_i hcolon
    have hne := State.ne_end_of_eq hcolon (by simp)
    obtain ⟨value, hvalue, hr⟩ := except_bind_ok hr
    cases hr
    exact (hpasses.1.append (buildsMore_take hne).builds).builds.append (hrec _ _ _ hvalue)
  · split at hr
    · rename_i name _
      cases hr
      exact hpasses.1.node (.ident · name) [] hpasses.frames (fun _ => rfl) fun _ => rfl
    · cases hr

theorem entries_builds (hrec : Sound rec) (s : State) (h : s.left < n)
    {r : Parsed s.left (List Property)} (hr : entries source rec s h = .ok r) :
    BuildsMore s ((r.value.map Property.value).map .expr) r.state := by
  rw [entries] at hr
  split at hr
  · rename_i hclose
    cases hr
    exact buildsMore_take (State.ne_end_of_eq hclose (by simp))
  · obtain ⟨first, hfirst, hr⟩ := except_bind_ok hr
    have hbuilt := entry_builds hrec _ _ hfirst
    split at hr
    · rename_i hcomma
      have hne := State.ne_end_of_eq hcomma (by simp)
      obtain ⟨rest, hrest, hr⟩ := except_bind_ok hr
      cases hr
      exact hbuilt.append_more
        ((buildsMore_take hne).append (entries_builds hrec _ _ hrest).builds)
    · obtain ⟨closed, hclosed, hr⟩ := except_bind_ok hr
      cases hr
      exact hbuilt.append_more (passes_expect hclosed).1.1
termination_by s.left
decreasing_by exact Nat.lt_trans (Parsed.shorter _) first.shorter

theorem leaf_builds (h : s.kind ≠ .endOfInput) (make : Site → Expr)
    (hsite : ∀ site, (make site).site = site) (hchildren : ∀ site, (make site).children = []) :
    Builds s [.expr (s.leaf h make).value] (s.leaf h make).state :=
  (passes_take h).1.node make [] (passes_take h).frames hsite hchildren

theorem primary_builds (hrec : Sound rec) (s : State) (h : s.left ≤ n) {r : Parsed s.left Expr}
    (hr : primary source rec s h = .ok r) : Builds s [.expr r.value] r.state := by
  -- With the first token given, the reader computes down to what it does at this token.
  obtain ⟨⟨behind, _ | ⟨⟨kind, span⟩, rest⟩⟩, names, exprs, stmts⟩ := s
  · cases hr
  cases kind with
  | number | string =>
      cases hr
      exact leaf_builds _ _ (fun _ => rfl) fun _ => rfl
  | ident name =>
      have hr : (if _ then _ else _) = Except.ok r := hr
      split at hr
      · cases hr
      · cases hr
        exact leaf_builds _ _ (fun _ => rfl) fun _ => rfl
  | keyword word =>
      cases word
      case trueWord | falseWord | nullWord | undefinedWord =>
        cases hr
        exact leaf_builds _ _ (fun _ => rfl) fun _ => rfl
      all_goals cases hr
  | symbol x =>
      cases x
      case lparen =>
        obtain ⟨inner, hinner, hr⟩ := except_bind_ok hr
        obtain ⟨closed, hclosed, hr⟩ := except_bind_ok hr
        dsimp only at hr
        split at hr
        · cases hr
        · cases hr
          exact ((buildsMore_take _).append (hrec _ _ _ hinner)).builds.append
            (passes_expect hclosed).1.1.builds
      case lbracket =>
        obtain ⟨list, hlist, hr⟩ := except_bind_ok hr
        cases hr
        exact ((buildsMore_take _).append (items_builds hrec _ _ hlist).builds).node
          (.array · list.value) list.value (.mk (.inl rfl) (.inl rfl)) (fun _ => rfl) fun _ => rfl
      case lbrace =>
        obtain ⟨list, hlist, hr⟩ := except_bind_ok hr
        cases hr
        exact ((buildsMore_take _).append (entries_builds hrec _ _ hlist).builds).node
          (.object · list.value) (list.value.map Property.value) (.mk (.inl rfl) (.inl rfl))
          (fun _ => rfl) fun _ => rfl
      all_goals cases hr
  | endOfInput | invalid => cases hr

variable {m : Nat} {s₀ : State}

/-- What follows an expression is read after it, and takes it as its first child. -/
theorem chain_builds (hrec : Sound rec) (hmn : m ≤ n) {e : Expr} (s : State) (h : s.left < m)
    (he : Builds s₀ [.expr e] s) {r : Parsed m Expr} (hr : chain rec hmn e s h = .ok r) :
    Builds s₀ [.expr r.value] r.state := by
  rw [chain] at hr
  split at hr
  -- A point and the name of a property.
  · rename_i hkind
    have hne := State.ne_end_of_eq hkind (by simp)
    obtain ⟨property, hproperty, hr⟩ := except_bind_ok hr
    have hpasses := passes_propertyName hproperty
    refine chain_builds hrec hmn _ _ ?_ hr
    exact ((he.append_more (buildsMore_take hne)).append hpasses.1.builds).node
      (.member · e property.value) [e] (.mk (.inr rfl) (.inl hpasses.2.symm)) (fun _ => rfl)
      fun _ => rfl
  -- A key in brackets.
  · rename_i hkind
    have hne := State.ne_end_of_eq hkind (by simp)
    obtain ⟨key, hkey, hr⟩ := except_bind_ok hr
    obtain ⟨closed, hclosed, hr⟩ := except_bind_ok hr
    obtain ⟨hpasses, hspan⟩ := passes_expect hclosed
    refine chain_builds hrec hmn _ _ ?_ hr
    exact (((he.append_more (buildsMore_take hne)).append (hrec _ _ _ hkey)).append
      hpasses.1.builds).node (.index · e key.value) [e, key.value]
      (.mk (.inr rfl) (.inl (hspan.trans hpasses.2.symm))) (fun _ => rfl) fun _ => rfl
  -- The arguments of a call.
  · rename_i hkind
    have hne := State.ne_end_of_eq hkind (by simp)
    obtain ⟨args, hargs, hr⟩ := except_bind_ok hr
    refine chain_builds hrec hmn _ _ ?_ hr
    exact ((he.append_more (buildsMore_take hne)).append (items_builds hrec _ _ hargs).builds).node
      (.call · e args.value) (e :: args.value) (.mk (.inr rfl) (.inl rfl)) (fun _ => rfl)
      fun _ => rfl
  -- The two step operators end the chain.
  · rename_i hkind
    have hne := State.ne_end_of_eq hkind (by simp)
    obtain ⟨-, -, hr⟩ := except_bind_ok hr
    cases hr
    exact (he.append_more (buildsMore_take hne)).node (.step · .increment .after e) [e]
      (.mk (.inr rfl) (.inl (previousSpan_take hne).symm)) (fun _ => rfl) fun _ => rfl
  · rename_i hkind
    have hne := State.ne_end_of_eq hkind (by simp)
    obtain ⟨-, -, hr⟩ := except_bind_ok hr
    cases hr
    exact (he.append_more (buildsMore_take hne)).node (.step · .decrement .after e) [e]
      (.mk (.inr rfl) (.inl (previousSpan_take hne).symm)) (fun _ => rfl) fun _ => rfl
  · cases hr
    exact he
termination_by s.left
decreasing_by
  · exact Nat.lt_trans (Parsed.shorter _) (Parsed.shorter _)
  · exact Nat.lt_trans (Parsed.shorter _) (Nat.lt_trans (Parsed.shorter _) (Parsed.shorter _))
  · exact Nat.lt_trans (Parsed.shorter _) (Parsed.shorter _)

theorem prefix_builds (h : s.kind ≠ .endOfInput) {e : Expr}
    (he : Builds (s.take h).state [.expr e] t) (make : Site → Expr)
    (hsite : ∀ site, (make site).site = site) (hchildren : ∀ site, (make site).children = [e]) :
    Builds s [.expr (t.node (s.current.span.merge e.span) make).1]
      (t.node (s.current.span.merge e.span) make).2 :=
  ((buildsMore_take h).append he).node make [e] (.mk (.inl rfl) (.inr rfl)) hsite hchildren

theorem operand_builds (hrec : Sound rec) (s : State) (h : s.left ≤ n) {r : Parsed s.left Expr}
    (hr : operand source rec s h = .ok r) : Builds s [.expr r.value] r.state := by
  rw [operand] at hr
  dsimp only at hr
  split at hr
  · rename_i hkind
    have hne := State.ne_end_of_eq hkind (by simp)
    obtain ⟨inner, hinner, hr⟩ := except_bind_ok hr
    cases hr
    exact prefix_builds hne (operand_builds hrec _ _ hinner) (.unary · .neg inner.value)
      (fun _ => rfl) fun _ => rfl
  · rename_i hkind
    have hne := State.ne_end_of_eq hkind (by simp)
    obtain ⟨inner, hinner, hr⟩ := except_bind_ok hr
    cases hr
    exact prefix_builds hne (operand_builds hrec _ _ hinner) (.unary · .not inner.value)
      (fun _ => rfl) fun _ => rfl
  · rename_i hkind
    have hne := State.ne_end_of_eq hkind (by simp)
    obtain ⟨inner, hinner, hr⟩ := except_bind_ok hr
    obtain ⟨-, -, hr⟩ := except_bind_ok hr
    cases hr
    exact prefix_builds hne (operand_builds hrec _ _ hinner)
      (.step · .increment .before inner.value) (fun _ => rfl) fun _ => rfl
  · rename_i hkind
    have hne := State.ne_end_of_eq hkind (by simp)
    obtain ⟨inner, hinner, hr⟩ := except_bind_ok hr
    obtain ⟨-, -, hr⟩ := except_bind_ok hr
    cases hr
    exact prefix_builds hne (operand_builds hrec _ _ hinner)
      (.step · .decrement .before inner.value) (fun _ => rfl) fun _ => rfl
  · obtain ⟨base, hbase, hr⟩ := except_bind_ok hr
    exact chain_builds hrec h _ base.shorter (primary_builds hrec _ _ hbase) hr
termination_by s.left
decreasing_by all_goals exact Parsed.shorter _

theorem infix_builds {left right : Expr} (hleft : Builds s₀ [.expr left] s)
    (h : s.kind ≠ .endOfInput) (hright : Builds (s.take h).state [.expr right] t)
    (make : Site → Expr) (hsite : ∀ site, (make site).site = site)
    (hchildren : ∀ site, (make site).children = [left, right]) :
    Builds s₀ [.expr (t.node (left.span.merge right.span) make).1]
      (t.node (left.span.merge right.span) make).2 :=
  ((hleft.append_more (buildsMore_take h)).append hright).node make [left, right]
    (.mk (.inr rfl) (.inr rfl)) hsite hchildren

theorem factors_builds (hrec : Sound rec) (hmn : m ≤ n) {left : Expr} (s : State) (h : s.left < m)
    (hleft : Builds s₀ [.expr left] s) {r : Parsed m Expr}
    (hr : factors source rec hmn left s h = .ok r) : Builds s₀ [.expr r.value] r.state := by
  rw [factors] at hr
  split at hr
  · cases hr
    exact hleft
  · rename_i op hop
    have hne := ne_end_of_productOp hop
    obtain ⟨right, hright, hr⟩ := except_bind_ok hr
    refine factors_builds hrec hmn _ _ ?_ hr
    exact infix_builds hleft hne (operand_builds hrec _ _ hright) (.binary · op left right.value)
      (fun _ => rfl) fun _ => rfl
termination_by s.left
decreasing_by exact Nat.lt_trans (Parsed.shorter _) (Parsed.shorter _)

theorem product_builds (hrec : Sound rec) (s : State) (h : s.left ≤ n) {r : Parsed s.left Expr}
    (hr : product source rec s h = .ok r) : Builds s [.expr r.value] r.state := by
  obtain ⟨first, hfirst, hr⟩ := except_bind_ok hr
  exact factors_builds hrec h _ first.shorter (operand_builds hrec _ _ hfirst) hr

theorem terms_builds (hrec : Sound rec) (hmn : m ≤ n) {left : Expr} (s : State) (h : s.left < m)
    (hleft : Builds s₀ [.expr left] s) {r : Parsed m Expr}
    (hr : terms source rec hmn left s h = .ok r) : Builds s₀ [.expr r.value] r.state := by
  rw [terms] at hr
  split at hr
  · cases hr
    exact hleft
  · rename_i op hop
    have hne := ne_end_of_sumOp hop
    obtain ⟨right, hright, hr⟩ := except_bind_ok hr
    refine terms_builds hrec hmn _ _ ?_ hr
    exact infix_builds hleft hne (product_builds hrec _ _ hright) (.binary · op left right.value)
      (fun _ => rfl) fun _ => rfl
termination_by s.left
decreasing_by exact Nat.lt_trans (Parsed.shorter _) (Parsed.shorter _)

theorem sum_builds (hrec : Sound rec) (s : State) (h : s.left ≤ n) {r : Parsed s.left Expr}
    (hr : sum source rec s h = .ok r) : Builds s [.expr r.value] r.state := by
  obtain ⟨first, hfirst, hr⟩ := except_bind_ok hr
  exact terms_builds hrec h _ first.shorter (product_builds hrec _ _ hfirst) hr

theorem exprWith_builds (hrec : Sound rec) (s : State) (h : s.left ≤ n) {r : Parsed s.left Expr}
    (hr : exprWith source rec s h = .ok r) : Builds s [.expr r.value] r.state := by
  obtain ⟨target, htarget, hr⟩ := except_bind_ok hr
  have hbuilt := sum_builds hrec _ _ htarget
  dsimp only at hr
  split at hr
  · cases hr
    exact hbuilt
  · rename_i op hop
    have hne := ne_end_of_assignOp hop
    obtain ⟨-, -, hr⟩ := except_bind_ok hr
    obtain ⟨value, hvalue, hr⟩ := except_bind_ok hr
    cases hr
    exact infix_builds hbuilt hne (hrec _ _ _ hvalue) (.assign · op target.value value.value)
      (fun _ => rfl) fun _ => rfl

theorem expr_builds (s : State) {r : Parsed s.left Expr} (hr : expr source s = .ok r) :
    Builds s [.expr r.value] r.state := by
  rw [expr] at hr
  exact exprWith_builds (fun t _ _ ht => expr_builds t ht) _ _ hr
termination_by s.left

end Expressions

/-! ### Statements -/

theorem BuildsMore.stmt {st : Stmt} (h : BuildsMore s st.children t)
    (hframes : Frames s st.children t st.span)
    (hblock : ∀ span first body, st ≠ .block span first body) : Builds s [.stmt st] t := by
  obtain ⟨k, h⟩ := h
  exact ⟨k, .stmt h hframes hblock⟩

/-- The statements of a block are completed, and then stored from the number `first` on. -/
def Closes (s : State) (first : Nat) (body : List Stmt) (u : State) : Prop :=
  ∃ t, BuildsMore s (body.map .stmt) t ∧ first = t.stmts.next ∧
    u = { t with stmts := t.stmts.add body }

theorem Closes.stmt {first : Nat} {body : List Stmt} (hst : BuildsMore s [] t)
    (hbody : Closes t first body u) :
    Builds s [.stmt (.block (s.current.span.merge u.previousSpan) first body)] u := by
  obtain ⟨t', hstmts, rfl, rfl⟩ := hbody
  obtain ⟨k, hbuilt⟩ := hst.append hstmts.builds
  exact ⟨k, .block hbuilt (.mk (.inl rfl) (.inl rfl))⟩

def SoundBlock {n : Nat} (rec : BlockBelow n) : Prop :=
  ∀ s h r, rec s h = .ok r → Closes s r.value.1 r.value.2 r.state

section Statements

variable {n : Nat} {rec : BlockBelow n} {source : List Char} {s₀ : State}

theorem initialValue_builds {constant : Bool} (s : State) (h : s.left < n)
    {r : Parsed n (Option Expr)} (hr : initialValue source constant s h = .ok r) :
    Builds s (r.value.toList.map .expr) r.state := by
  unfold initialValue at hr
  split at hr
  · rename_i hassign
    have hne := State.ne_end_of_eq hassign (by simp)
    obtain ⟨value, hvalue, hr⟩ := except_bind_ok hr
    cases hr
    exact ((buildsMore_take hne).append (expr_builds _ hvalue)).builds
  · split at hr
    · cases hr
    · cases hr
      exact ⟨0, .nil s⟩

theorem declaration_builds {constant : Bool} (h : s₀.kind ≠ .endOfInput)
    {r : Parsed (s₀.take h).state.left Stmt}
    (hr : declaration source constant s₀.current.span (s₀.take h).state = .ok r) :
    Builds s₀ [.stmt r.value] r.state := by
  unfold declaration at hr
  split at hr
  · rename_i name hkind
    have hne := State.ne_end_of_eq hkind (by simp)
    obtain ⟨initial, hinitial, hr⟩ := except_bind_ok hr
    cases hr
    have hbuilt := (((buildsMore_take h).append (buildsMore_take hne).builds).append
      (initialValue_builds _ _ hinitial)).append (builds_eat initial.state .semicolon)
    rw [List.append_nil] at hbuilt
    exact hbuilt.stmt (.mk (.inl rfl) (.inl rfl)) (by simp)
  · cases hr

theorem stmt_builds (hrec : SoundBlock rec) (s : State) (h : s.left ≤ n) {r : Parsed s.left Stmt}
    (hr : stmt source rec s h = .ok r) : Builds s [.stmt r.value] r.state := by
  unfold stmt at hr
  dsimp only at hr
  split at hr
  · rename_i hkind
    have hne := State.ne_end_of_eq hkind (by simp)
    cases hr
    exact (buildsMore_take hne).stmt (passes_take hne).frames (by simp)
  · rename_i hkind
    have hne := State.ne_end_of_eq hkind (by simp)
    obtain ⟨body, hbody, hr⟩ := except_bind_ok hr
    cases hr
    exact Closes.stmt (buildsMore_take hne) (hrec _ _ _ hbody)
  -- The three words that declare a name are read alike.
  iterate 3
    · rename_i hkind
      have hne := State.ne_end_of_eq hkind (by simp)
      obtain ⟨declared, hdeclared, hr⟩ := except_bind_ok hr
      cases hr
      exact declaration_builds hne hdeclared
  · rename_i hkind
    have hne := State.ne_end_of_eq hkind (by simp)
    split at hr
    · cases hr
      exact ((buildsMore_take hne).append (builds_eat _ .semicolon)).stmt
        (.mk (.inl rfl) (.inl rfl)) (by simp)
    · obtain ⟨value, hvalue, hr⟩ := except_bind_ok hr
      cases hr
      exact (((buildsMore_take hne).append (expr_builds _ hvalue)).append
        (builds_eat _ .semicolon)).stmt (.mk (.inl rfl) (.inl rfl)) (by simp)
  · cases hr
  · split at hr
    · cases hr
    · obtain ⟨value, hvalue, hr⟩ := except_bind_ok hr
      cases hr
      obtain ⟨k, hbuilt⟩ := (expr_builds _ hvalue).append (builds_eat value.state .semicolon)
      exact ⟨k, .exprStmt hbuilt (.mk (.inl rfl) (.inl rfl))⟩

theorem stmts_builds (hrec : SoundBlock rec) (s : State) (h : s.left ≤ n)
    {r : Parsed s.left (List Stmt)} (hr : stmts source rec s h = .ok r) :
    BuildsMore s (r.value.map .stmt) r.state := by
  rw [stmts] at hr
  split at hr
  · rename_i hclose
    cases hr
    exact buildsMore_take (State.ne_end_of_eq hclose (by simp))
  · split at hr
    · cases hr
    · obtain ⟨first, hfirst, hr⟩ := except_bind_ok hr
      obtain ⟨rest, hrest, hr⟩ := except_bind_ok hr
      cases hr
      exact (stmt_builds hrec _ _ hfirst).append_more (stmts_builds hrec _ _ hrest)
termination_by s.left
decreasing_by exact first.shorter

theorem blockRest_closes (s : State) {r : Parsed s.left (Nat × List Stmt)}
    (hr : blockRest source s = .ok r) : Closes s r.value.1 r.value.2 r.state := by
  rw [blockRest] at hr
  obtain ⟨body, hbody, hr⟩ := except_bind_ok hr
  cases hr
  exact ⟨body.state, stmts_builds (fun t _ _ ht => blockRest_closes t ht) _ _ hbody, rfl, rfl⟩
termination_by s.left

end Statements

/-! ### Procedures -/

/-- The phrase that a body is: its expression, or its block as a statement. -/
def IsRoot (root : Phrase) : ProcedureBody → Prop
  | .expr value => root = .expr value
  | .block first body => ∃ span, root = .stmt (.block span first body)

def BuildsBody (s : State) (body : ProcedureBody) (u : State) : Prop :=
  ∃ root, IsRoot root body ∧ Builds s [root] u

section Procedures

variable {source : List Char} {body : ProcedureBody}

theorem BuildsBody.before (hst : Builds s [] t) (h : BuildsBody t body u) :
    BuildsBody s body u := by
  obtain ⟨root, hroot, hbuilt⟩ := h
  exact ⟨root, hroot, hst.append hbuilt⟩

theorem BuildsBody.after (h : BuildsBody s body t) (htu : Builds t [] u) : BuildsBody s body u := by
  obtain ⟨root, hroot, hbuilt⟩ := h
  exact ⟨root, hroot, hbuilt.append htu⟩

theorem block_builds (s : State) {r : Parsed s.left ProcedureBody} (hr : block source s = .ok r) :
    BuildsBody s r.value r.state := by
  obtain ⟨opened, hopened, hr⟩ := except_bind_ok hr
  obtain ⟨body, hbody, hr⟩ := except_bind_ok hr
  cases hr
  exact ⟨_, ⟨_, rfl⟩, Closes.stmt (passes_expect hopened).1.1 (blockRest_closes _ hbody)⟩

theorem params_builds (s : State) {r : Parsed s.left (List Param)} (hr : params s = .ok r) :
    Builds s [] r.state := by
  rw [params] at hr
  split at hr
  · rename_i hclose
    cases hr
    exact (buildsMore_take (State.ne_end_of_eq hclose (by simp))).builds
  · split at hr
    · rename_i hkind
      have hne := State.ne_end_of_eq hkind (by simp)
      have htake := (buildsMore_take hne).builds
      dsimp only at hr
      split at hr
      · rename_i hcomma
        have hcommaNe := State.ne_end_of_eq hcomma (by simp)
        obtain ⟨rest, hrest, hr⟩ := except_bind_ok hr
        cases hr
        exact htake.append ((buildsMore_take hcommaNe).builds.append (params_builds _ hrest))
      · obtain ⟨closed, hclosed, hr⟩ := except_bind_ok hr
        cases hr
        exact htake.append (passes_expect hclosed).1.1.builds
    · cases hr
termination_by s.left
decreasing_by exact Nat.lt_trans (Parsed.shorter _) (Parsed.shorter _)

theorem arrowBody_builds (s : State) {r : Parsed s.left ProcedureBody}
    (hr : arrowBody source s = .ok r) : BuildsBody s r.value r.state := by
  unfold arrowBody at hr
  split at hr
  · exact block_builds s hr
  · obtain ⟨value, hvalue, hr⟩ := except_bind_ok hr
    cases hr
    exact ⟨_, rfl, expr_builds s hvalue⟩

theorem signature_builds (s : State) {r : Parsed s.left (List Param × ProcedureBody)}
    (hr : signature source s = .ok r) : BuildsBody s r.value.2 r.state := by
  unfold signature at hr
  split at hr
  · rename_i hkind
    have hne := State.ne_end_of_eq hkind (by simp)
    obtain ⟨opened, hopened, hr⟩ := except_bind_ok hr
    obtain ⟨list, hlist, hr⟩ := except_bind_ok hr
    obtain ⟨body, hbody, hr⟩ := except_bind_ok hr
    cases hr
    have hopen := (builds_ident (s.take hne).state).append (passes_expect hopened).1.1.builds
    exact (block_builds _ hbody).before
      ((buildsMore_take hne).builds.append (hopen.append (params_builds _ hlist)))
  · rename_i hkind
    have hne := State.ne_end_of_eq hkind (by simp)
    obtain ⟨list, hlist, hr⟩ := except_bind_ok hr
    obtain ⟨arrow, harrow, hr⟩ := except_bind_ok hr
    obtain ⟨body, hbody, hr⟩ := except_bind_ok hr
    cases hr
    exact ((arrowBody_builds _ hbody).before (passes_expect harrow).1.1.builds).before
      ((buildsMore_take hne).builds.append (params_builds _ hlist))
  · rename_i hkind
    have hne := State.ne_end_of_eq hkind (by simp)
    dsimp only at hr
    split at hr
    · rename_i harrow
      have harrowNe := State.ne_end_of_eq harrow (by simp)
      obtain ⟨body, hbody, hr⟩ := except_bind_ok hr
      cases hr
      exact (arrowBody_builds _ hbody).before
        ((buildsMore_take hne).builds.append (buildsMore_take harrowNe).builds)
    · cases hr
  · cases hr

/-- What a procedure's body says has been completed, and its tables hold what was stored. -/
theorem procedure_builds {s : State} {p : Procedure} (hp : procedure source s = .ok p) :
    ∃ u, BuildsBody s p.body u ∧ p.exprs = u.exprs ∧ p.stmts = u.stmts ∧
      p.span = s.current.span.merge u.previousSpan := by
  obtain ⟨whole, hwhole, hp⟩ := except_bind_ok hp
  dsimp only at hp
  split at hp
  · cases hp
    exact ⟨_, (signature_builds s hwhole).after (builds_eat _ .semicolon), rfl, rfl, rfl⟩
  · cases hp

end Procedures

end Parser

end PathCopy
