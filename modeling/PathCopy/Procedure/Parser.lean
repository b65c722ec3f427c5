import PathCopy.Procedure.Basic
import PathCopy.Procedure.Cursor
import PathCopy.Procedure.Lexer
import PathCopy.Procedure.ParseError

/-!
From tokens to a procedure, by recursive descent. From loosest to tightest an expression is an
assignment (right associative), a sum, a product, a prefixed operand, a chain of accesses, a
primary. Each function returns with its result that fewer tokens are left than before, which is
what ends every loop and the nesting: a nested expression is read by the function `rec`, which
serves positions with fewer than `n` tokens left.
-/

namespace PathCopy

namespace Parser

/-- A position in the tokens, the names known so far, and the expressions and statements stored so
far. -/
structure State where
  cursor : Cursor
  names : NameTable
  exprs : ExprTable
  stmts : StmtTable

namespace State

def left (s : State) : Nat := s.cursor.left

def kind (s : State) : TokenKind := s.cursor.kind

def current (s : State) : Token := s.cursor.current

def previousSpan (s : State) : Span := s.cursor.previousSpan

end State

/-- A value that was read, and the state after it with fewer than `n` tokens left. -/
structure Parsed (n : Nat) (α : Type) where
  value : α
  state : State
  shorter : state.left < n

/-- A reader of expressions for positions with fewer than `n` tokens left. -/
abbrev Below (n : Nat) : Type := (s : State) → s.left < n → Except ParseError (Parsed s.left Expr)

namespace State

def take (s : State) (h : s.kind ≠ .endOfInput) : Parsed s.left Token :=
  ⟨s.current, { s with cursor := s.cursor.advance }, s.cursor.left_advance_lt h⟩

theorem ne_end_of_eq {s : State} {k : TokenKind} (h : s.kind = k) (hk : k ≠ .endOfInput) :
    s.kind ≠ .endOfInput := h ▸ hk

def expect (s : State) (x : Symbol) : Except ParseError (Parsed s.left Span) :=
  if h : s.kind = .symbol x then
    let t := s.take (ne_end_of_eq h nofun)
    .ok ⟨t.value.span, t.state, t.shorter⟩
  else .error (.found (.token (.symbol x)) s.current)

def eat (s : State) (x : Symbol) : State :=
  if h : s.kind = .symbol x then (s.take (ne_end_of_eq h nofun)).state else s

theorem left_eat_le (s : State) (x : Symbol) : (s.eat x).left ≤ s.left := by
  unfold eat
  split
  · exact Nat.le_of_lt (Parsed.shorter _)
  · exact Nat.le_refl _

def intern (s : State) (text : String) : Name × State :=
  let (name, names) := s.names.intern text
  (name, { s with names })

/-- Completes an expression: it gets the next number and is stored. -/
def node (s : State) (span : Span) (make : Site → Expr) : Expr × State :=
  let e := make ⟨span, s.exprs.next⟩
  (e, { s with exprs := s.exprs.add e })

def leaf (s : State) (h : s.kind ≠ .endOfInput) (make : Site → Expr) : Parsed s.left Expr :=
  let t := s.take h
  let done := t.state.node t.value.span make
  ⟨done.1, done.2, t.shorter⟩

end State

namespace Parsed

variable {α : Type} {m n : Nat}

def node (p : Parsed n α) (span : Span) (make : Site → Expr) : Parsed n Expr :=
  let done := p.state.node span make
  ⟨done.1, done.2, p.shorter⟩

def weaken (p : Parsed m α) (h : m ≤ n) : Parsed n α :=
  ⟨p.value, p.state, Nat.lt_of_lt_of_le p.shorter h⟩

def eat (p : Parsed n α) (x : Symbol) : Parsed n α :=
  ⟨p.value, p.state.eat x, Nat.lt_of_le_of_lt (p.state.left_eat_le x) p.shorter⟩

end Parsed

def checkTarget (e : Expr) : Except ParseError Unit :=
  if e.isTarget then .ok () else .error (.invalidTarget e.span)

/-- The name of a property: an identifier or a keyword. -/
def propertyName (s : State) : Except ParseError (Parsed s.left Name) :=
  match h : s.kind with
  | .ident name =>
    let t := s.take (State.ne_end_of_eq h nofun)
    .ok ⟨name, t.state, t.shorter⟩
  | .keyword k =>
    let t := s.take (State.ne_end_of_eq h nofun)
    let name := t.state.intern k.text
    .ok ⟨name.1, name.2, t.shorter⟩
  | _ => .error (.found .propertyName s.current)

/-- The key of an object entry: a property name, a string, or a number as it is written. -/
def entryKey (source : List Char) (s : State) : Except ParseError (Parsed s.left Name) :=
  match h : s.kind with
  | .string text =>
    let t := s.take (State.ne_end_of_eq h nofun)
    .ok ⟨text, t.state, t.shorter⟩
  | .number _ =>
    let t := s.take (State.ne_end_of_eq h nofun)
    let name := t.state.intern (t.value.span.snippet source)
    .ok ⟨name.1, name.2, t.shorter⟩
  | _ => propertyName s

/-- Expressions with commas between them, and `close` after the last one. A comma may stand before
`close`. -/
def items {n : Nat} (rec : Below n) (close : Symbol) (s : State) (h : s.left < n) :
    Except ParseError (Parsed s.left (List Expr)) :=
  if hc : s.kind = .symbol close then
    .ok ⟨[], (s.take (State.ne_end_of_eq hc nofun)).state, Parsed.shorter _⟩
  else do
    let item ← rec s h
    have hi := item.shorter
    if hcomma : item.state.kind = .symbol .comma then
      let comma := item.state.take (State.ne_end_of_eq hcomma nofun)
      have := comma.shorter
      let rest ← items rec close comma.state (by omega)
      have := rest.shorter
      .ok ⟨item.value :: rest.value, rest.state, by omega⟩
    else
      let closed ← item.state.expect close
      have := closed.shorter
      .ok ⟨[item.value], closed.state, by omega⟩
  termination_by s.left
  decreasing_by exact Nat.lt_trans (Parsed.shorter _) hi

/-- The entry of an object literal that begins here. Only an identifier can do without a value. -/
def entry {n : Nat} (source : List Char) (rec : Below n) (s : State) (h : s.left < n) :
    Except ParseError (Parsed s.left Property) := do
  let key ← entryKey source s
  let span := s.current.span
  if hcolon : key.state.kind = .symbol .colon then
    let colon := key.state.take (State.ne_end_of_eq hcolon nofun)
    have hlt := Nat.lt_trans colon.shorter key.shorter
    let value ← rec colon.state (Nat.lt_trans hlt h)
    .ok ⟨.entry key.value (span.merge value.value.span) value.value, value.state,
      Nat.lt_trans value.shorter hlt⟩
  else match s.kind with
    | .ident name =>
      let value := key.node span (.ident · name)
      .ok ⟨.entry key.value (span.merge value.value.span) value.value, value.state, value.shorter⟩
    | _ => .error (.found (.token (.symbol .colon)) key.state.current)

def entries {n : Nat} (source : List Char) (rec : Below n) (s : State) (h : s.left < n) :
    Except ParseError (Parsed s.left (List Property)) :=
  if hc : s.kind = .symbol .rbrace then
    .ok ⟨[], (s.take (State.ne_end_of_eq hc nofun)).state, Parsed.shorter _⟩
  else do
    let first ← entry source rec s h
    have hi := first.shorter
    if hcomma : first.state.kind = .symbol .comma then
      let comma := first.state.take (State.ne_end_of_eq hcomma nofun)
      have := comma.shorter
      let rest ← entries source rec comma.state (by omega)
      have := rest.shorter
      .ok ⟨first.value :: rest.value, rest.state, by omega⟩
    else
      let closed ← first.state.expect .rbrace
      have := closed.shorter
      .ok ⟨[first.value], closed.state, by omega⟩
  termination_by s.left
  decreasing_by exact Nat.lt_trans (Parsed.shorter _) hi

def primary {n : Nat} (source : List Char) (rec : Below n) (s : State) (h : s.left ≤ n) :
    Except ParseError (Parsed s.left Expr) :=
  let start := s.current.span
  match hk : s.kind with
  | .number bits => .ok (s.leaf (State.ne_end_of_eq hk nofun) (.number · bits))
  | .string text => .ok (s.leaf (State.ne_end_of_eq hk nofun) (.string · text))
  | .ident name =>
    if s.cursor.peek 1 = .symbol .arrow then .error (.unsupported .nestedArrow start)
    else .ok (s.leaf (State.ne_end_of_eq hk nofun) (.ident · name))
  | .keyword .trueWord => .ok (s.leaf (State.ne_end_of_eq hk nofun) (.bool · true))
  | .keyword .falseWord => .ok (s.leaf (State.ne_end_of_eq hk nofun) (.bool · false))
  | .keyword .nullWord => .ok (s.leaf (State.ne_end_of_eq hk nofun) .null)
  | .keyword .undefinedWord => .ok (s.leaf (State.ne_end_of_eq hk nofun) .undefined)
  | .keyword .functionWord => .error (.unsupported .nestedFunction start)
  | .symbol .lparen => do
    let opened := s.take (State.ne_end_of_eq hk nofun)
    have := opened.shorter
    let inner ← rec opened.state (by omega)
    have := inner.shorter
    let closed ← inner.state.expect .rparen
    have := closed.shorter
    if closed.state.kind = .symbol .arrow then .error (.unsupported .nestedArrow start)
    else .ok ⟨inner.value, closed.state, by omega⟩
  | .symbol .lbracket => do
    let opened := s.take (State.ne_end_of_eq hk nofun)
    have := opened.shorter
    let list ← items rec .rbracket opened.state (by omega)
    let whole := list.node (start.merge list.state.previousSpan) (.array · list.value)
    .ok (whole.weaken (by omega))
  | .symbol .lbrace => do
    let opened := s.take (State.ne_end_of_eq hk nofun)
    have := opened.shorter
    let list ← entries source rec opened.state (by omega)
    let whole := list.node (start.merge list.state.previousSpan) (.object · list.value)
    .ok (whole.weaken (by omega))
  | kind =>
    if kind.isReserved then .error (.unsupported (.word kind) start)
    else .error (.found .expression s.current)

/-- The accesses, calls and the trailing step operator that follow the expression `e`. A step
operator ends the chain. -/
def chain {m n : Nat} (rec : Below n) (hmn : m ≤ n) (e : Expr) (s : State) (h : s.left < m) :
    Except ParseError (Parsed m Expr) :=
  match hk : s.kind with
  | .symbol .dot => do
    let dot := s.take (State.ne_end_of_eq hk nofun)
    have := dot.shorter
    let span := e.span.merge dot.state.current.span
    let property ← propertyName dot.state
    have := property.shorter
    let next := property.node span (.member · e property.value)
    have := next.shorter
    chain rec hmn next.value next.state (by omega)
  | .symbol .lbracket => do
    let opened := s.take (State.ne_end_of_eq hk nofun)
    have := opened.shorter
    let key ← rec opened.state (by omega)
    have := key.shorter
    let closed ← key.state.expect .rbracket
    have := closed.shorter
    let next := closed.node (e.span.merge closed.value) (.index · e key.value)
    have := next.shorter
    chain rec hmn next.value next.state (by omega)
  | .symbol .lparen => do
    let opened := s.take (State.ne_end_of_eq hk nofun)
    have := opened.shorter
    let args ← items rec .rparen opened.state (by omega)
    have := args.shorter
    let next := args.node (e.span.merge args.state.previousSpan) (.call · e args.value)
    have := next.shorter
    chain rec hmn next.value next.state (by omega)
  | .symbol .plusPlus => do
    checkTarget e
    let op := s.take (State.ne_end_of_eq hk nofun)
    let whole := op.node (e.span.merge op.value.span) (.step · .increment .after e)
    .ok (whole.weaken (by omega))
  | .symbol .minusMinus => do
    checkTarget e
    let op := s.take (State.ne_end_of_eq hk nofun)
    let whole := op.node (e.span.merge op.value.span) (.step · .decrement .after e)
    .ok (whole.weaken (by omega))
  | _ => .ok ⟨e, s, h⟩
  termination_by s.left
  decreasing_by
    · exact Nat.lt_trans (Parsed.shorter _) (Parsed.shorter _)
    · exact Nat.lt_trans (Parsed.shorter _) (Nat.lt_trans (Parsed.shorter _) (Parsed.shorter _))
    · exact Nat.lt_trans (Parsed.shorter _) (Parsed.shorter _)

def operand {n : Nat} (source : List Char) (rec : Below n) (s : State) (h : s.left ≤ n) :
    Except ParseError (Parsed s.left Expr) :=
  let start := s.current.span
  match hk : s.kind with
  | .symbol .minus => do
    let op := s.take (State.ne_end_of_eq hk nofun)
    have := op.shorter
    let inner ← operand source rec op.state (by omega)
    let whole := inner.node (start.merge inner.value.span) (.unary · .neg inner.value)
    .ok (whole.weaken (by omega))
  | .symbol .bang => do
    let op := s.take (State.ne_end_of_eq hk nofun)
    have := op.shorter
    let inner ← operand source rec op.state (by omega)
    let whole := inner.node (start.merge inner.value.span) (.unary · .not inner.value)
    .ok (whole.weaken (by omega))
  | .symbol .plusPlus => do
    let op := s.take (State.ne_end_of_eq hk nofun)
    have := op.shorter
    let inner ← operand source rec op.state (by omega)
    checkTarget inner.value
    let whole :=
      inner.node (start.merge inner.value.span) (.step · .increment .before inner.value)
    .ok (whole.weaken (by omega))
  | .symbol .minusMinus => do
    let op := s.take (State.ne_end_of_eq hk nofun)
    have := op.shorter
    let inner ← operand source rec op.state (by omega)
    checkTarget inner.value
    let whole :=
      inner.node (start.merge inner.value.span) (.step · .decrement .before inner.value)
    .ok (whole.weaken (by omega))
  | _ => do
    let base ← primary source rec s h
    chain rec h base.value base.state base.shorter
  termination_by s.left
  decreasing_by all_goals exact Parsed.shorter _

def productOp? : TokenKind → Option BinaryOp
  | .symbol .star => some .mul
  | .symbol .slash => some .div
  | .symbol .percent => some .rem
  | _ => none

def sumOp? : TokenKind → Option BinaryOp
  | .symbol .plus => some .add
  | .symbol .minus => some .sub
  | _ => none

def assignOp? : TokenKind → Option AssignOp
  | .symbol .assign => some .plain
  | .symbol .plusAssign => some (.compound .add)
  | .symbol .minusAssign => some (.compound .sub)
  | .symbol .starAssign => some (.compound .mul)
  | .symbol .slashAssign => some (.compound .div)
  | .symbol .percentAssign => some (.compound .rem)
  | _ => none

theorem ne_end_of_productOp {k : TokenKind} {op : BinaryOp} (h : productOp? k = some op) :
    k ≠ .endOfInput := by
  rintro rfl
  cases h

theorem ne_end_of_sumOp {k : TokenKind} {op : BinaryOp} (h : sumOp? k = some op) :
    k ≠ .endOfInput := by
  rintro rfl
  cases h

theorem ne_end_of_assignOp {k : TokenKind} {op : AssignOp} (h : assignOp? k = some op) :
    k ≠ .endOfInput := by
  rintro rfl
  cases h

def factors {m n : Nat} (source : List Char) (rec : Below n) (hmn : m ≤ n) (left : Expr)
    (s : State) (h : s.left < m) : Except ParseError (Parsed m Expr) :=
  match hop : productOp? s.kind with
  | none => .ok ⟨left, s, h⟩
  | some op => do
    let mark := s.take (ne_end_of_productOp hop)
    have := mark.shorter
    let right ← operand source rec mark.state (by omega)
    have := right.shorter
    let whole :=
      right.node (left.span.merge right.value.span) (.binary · op left right.value)
    have := whole.shorter
    factors source rec hmn whole.value whole.state (by omega)
  termination_by s.left
  decreasing_by exact Nat.lt_trans (Parsed.shorter _) (Parsed.shorter _)

/-- A product, grouped to the left. -/
def product {n : Nat} (source : List Char) (rec : Below n) (s : State) (h : s.left ≤ n) :
    Except ParseError (Parsed s.left Expr) := do
  let first ← operand source rec s h
  factors source rec h first.value first.state first.shorter

def terms {m n : Nat} (source : List Char) (rec : Below n) (hmn : m ≤ n) (left : Expr)
    (s : State) (h : s.left < m) : Except ParseError (Parsed m Expr) :=
  match hop : sumOp? s.kind with
  | none => .ok ⟨left, s, h⟩
  | some op => do
    let mark := s.take (ne_end_of_sumOp hop)
    have := mark.shorter
    let right ← product source rec mark.state (by omega)
    have := right.shorter
    let whole :=
      right.node (left.span.merge right.value.span) (.binary · op left right.value)
    have := whole.shorter
    terms source rec hmn whole.value whole.state (by omega)
  termination_by s.left
  decreasing_by exact Nat.lt_trans (Parsed.shorter _) (Parsed.shorter _)

def sum {n : Nat} (source : List Char) (rec : Below n) (s : State) (h : s.left ≤ n) :
    Except ParseError (Parsed s.left Expr) := do
  let first ← product source rec s h
  terms source rec h first.value first.state first.shorter

/-- One expression, where `rec` reads the expressions inside it. The target of an assignment is
checked before its operator is passed. -/
def exprWith {n : Nat} (source : List Char) (rec : Below n) (s : State) (h : s.left ≤ n) :
    Except ParseError (Parsed s.left Expr) := do
  let target ← sum source rec s h
  have ht := target.shorter
  match hop : assignOp? target.state.kind with
  | none => .ok target
  | some op => do
    checkTarget target.value
    let mark := target.state.take (ne_end_of_assignOp hop)
    have := mark.shorter
    let value ← rec mark.state (by omega)
    have := value.shorter
    let whole := value.node (target.value.span.merge value.value.span)
      (.assign · op target.value value.value)
    .ok (whole.weaken (by omega))

def expr (source : List Char) (s : State) : Except ParseError (Parsed s.left Expr) :=
  exprWith source (fun t _ => expr source t) s (Nat.le_refl _)
  termination_by s.left

/-- A reader of the rest of a block, after its opening brace. -/
abbrev BlockBelow (n : Nat) : Type :=
  (s : State) → s.left < n → Except ParseError (Parsed s.left (Nat × List Stmt))

/-- The value of a variable that is declared; a constant has to have one. -/
def initialValue (source : List Char) (constant : Bool) {n : Nat} (s : State) (h : s.left < n) :
    Except ParseError (Parsed n (Option Expr)) :=
  if hassign : s.kind = .symbol .assign then do
    let mark := s.take (State.ne_end_of_eq hassign nofun)
    have := mark.shorter
    let value ← expr source mark.state
    have := value.shorter
    .ok ⟨some value.value, value.state, by omega⟩
  else if constant then .error (.found (.token (.symbol .assign)) s.current)
  else .ok ⟨none, s, h⟩

def declaration (source : List Char) (constant : Bool) (start : Span) (s : State) :
    Except ParseError (Parsed s.left Stmt) :=
  match hk : s.kind with
  | .ident name => do
    let t := s.take (State.ne_end_of_eq hk nofun)
    let initial ← initialValue source constant t.state t.shorter
    let done := initial.eat .semicolon
    have := done.shorter
    .ok ⟨.declare (start.merge done.state.previousSpan) name (!constant) done.value, done.state,
      by omega⟩
  | _ => .error (.found .variableName s.current)

def endsReturn : TokenKind → Bool
  | .symbol .semicolon | .symbol .rbrace | .endOfInput => true
  | _ => false

/-- One statement, where `rec` reads the blocks inside it. -/
def stmt {n : Nat} (source : List Char) (rec : BlockBelow n) (s : State) (h : s.left ≤ n) :
    Except ParseError (Parsed s.left Stmt) :=
  let start := s.current.span
  match hk : s.kind with
  | .symbol .semicolon =>
    let t := s.take (State.ne_end_of_eq hk nofun)
    .ok ⟨.empty start, t.state, t.shorter⟩
  | .symbol .lbrace => do
    let opened := s.take (State.ne_end_of_eq hk nofun)
    have := opened.shorter
    let body ← rec opened.state (by omega)
    have := body.shorter
    .ok ⟨.block (start.merge body.state.previousSpan) body.value.1 body.value.2, body.state,
      by omega⟩
  | .keyword .letWord | .keyword .varWord => do
    let t := s.take (State.ne_end_of_eq hk nofun)
    let declared ← declaration source false start t.state
    .ok (declared.weaken (Nat.le_of_lt t.shorter))
  | .keyword .constWord => do
    let t := s.take (State.ne_end_of_eq hk nofun)
    let declared ← declaration source true start t.state
    .ok (declared.weaken (Nat.le_of_lt t.shorter))
  | .keyword .returnWord => do
    let t := s.take (State.ne_end_of_eq hk nofun)
    have ht := t.shorter
    if endsReturn t.state.kind then
      let done := t.eat .semicolon
      .ok ⟨.ret (start.merge done.state.previousSpan) none, done.state, done.shorter⟩
    else
      let value ← expr source t.state
      let done := value.eat .semicolon
      have := done.shorter
      .ok ⟨.ret (start.merge done.state.previousSpan) (some done.value), done.state, by omega⟩
  | .keyword .functionWord => .error (.unsupported .nestedFunction start)
  | kind =>
    if kind.isReserved then .error (.unsupported (.word kind) start)
    else do
      let value ← expr source s
      let done := value.eat .semicolon
      .ok ⟨.expr (start.merge done.state.previousSpan) done.value, done.state, done.shorter⟩

def stmts {n : Nat} (source : List Char) (rec : BlockBelow n) (s : State) (h : s.left ≤ n) :
    Except ParseError (Parsed s.left (List Stmt)) :=
  if hc : s.kind = .symbol .rbrace then
    .ok ⟨[], (s.take (State.ne_end_of_eq hc nofun)).state, Parsed.shorter _⟩
  else if s.cursor.atEnd then .error (.found (.token (.symbol .rbrace)) s.current)
  else do
    let first ← stmt source rec s h
    have := first.shorter
    let rest ← stmts source rec first.state (by omega)
    have := rest.shorter
    .ok ⟨first.value :: rest.value, rest.state, by omega⟩
  termination_by s.left

/-- The rest of a block after its opening brace, with the number of its first statement. Its
statements are stored together when it is closed. -/
def blockRest (source : List Char) (s : State) :
    Except ParseError (Parsed s.left (Nat × List Stmt)) := do
  let body ← stmts source (fun t _ => blockRest source t) s (Nat.le_refl _)
  let s' := { body.state with stmts := body.state.stmts.add body.value }
  .ok ⟨(body.state.stmts.next, body.value), s', body.shorter⟩
  termination_by s.left

def block (source : List Char) (s : State) : Except ParseError (Parsed s.left ProcedureBody) := do
  let opened ← s.expect .lbrace
  let body ← blockRest source opened.state
  .ok ⟨.block body.value.1 body.value.2, body.state, Nat.lt_trans body.shorter opened.shorter⟩

def params (s : State) : Except ParseError (Parsed s.left (List Param)) :=
  if hc : s.kind = .symbol .rparen then
    .ok ⟨[], (s.take (State.ne_end_of_eq hc nofun)).state, Parsed.shorter _⟩
  else match hk : s.kind with
    | .ident name => do
      let t := s.take (State.ne_end_of_eq hk nofun)
      have := t.shorter
      let param : Param := ⟨name, t.value.span⟩
      if hcomma : t.state.kind = .symbol .comma then
        let comma := t.state.take (State.ne_end_of_eq hcomma nofun)
        have := comma.shorter
        let rest ← params comma.state
        have := rest.shorter
        .ok ⟨param :: rest.value, rest.state, by omega⟩
      else
        let closed ← t.state.expect .rparen
        have := closed.shorter
        .ok ⟨[param], closed.state, by omega⟩
    | _ => .error (.found .parameterName s.current)
  termination_by s.left
  decreasing_by exact Nat.lt_trans (Parsed.shorter _) (Parsed.shorter _)

def arrowBody (source : List Char) (s : State) : Except ParseError (Parsed s.left ProcedureBody) :=
  if s.kind = .symbol .lbrace then block source s
  else do
    let value ← expr source s
    .ok ⟨.expr value.value, value.state, value.shorter⟩

/-- The parameters and the body of a procedure in one of its three forms: `function name (a) {}`,
`(a) => …` and `a => …`. -/
def signature (source : List Char) (s : State) :
    Except ParseError (Parsed s.left (List Param × ProcedureBody)) :=
  match hk : s.kind with
  | .keyword .functionWord => do
    let t := s.take (State.ne_end_of_eq hk nofun)
    have := t.shorter
    let named := if t.state.cursor.atIdent then
      { t.state with cursor := t.state.cursor.advance } else t.state
    have : named.left ≤ t.state.left := by
      simp only [named]
      split
      · exact Cursor.left_advance_le _
      · exact Nat.le_refl _
    let opened ← named.expect .lparen
    have := opened.shorter
    let list ← params opened.state
    have := list.shorter
    let body ← block source list.state
    have := body.shorter
    .ok ⟨(list.value, body.value), body.state, by omega⟩
  | .symbol .lparen => do
    let t := s.take (State.ne_end_of_eq hk nofun)
    have := t.shorter
    let list ← params t.state
    have := list.shorter
    let arrow ← list.state.expect .arrow
    have := arrow.shorter
    let body ← arrowBody source arrow.state
    have := body.shorter
    .ok ⟨(list.value, body.value), body.state, by omega⟩
  | .ident name => do
    let t := s.take (State.ne_end_of_eq hk nofun)
    have := t.shorter
    if harrow : t.state.kind = .symbol .arrow then
      let arrow := t.state.take (State.ne_end_of_eq harrow nofun)
      have := arrow.shorter
      let body ← arrowBody source arrow.state
      have := body.shorter
      .ok ⟨([⟨name, t.value.span⟩], body.value), body.state, by omega⟩
    else .error (.found .procedure s.current)
  | _ => .error (.found .procedure s.current)

/-- One complete procedure with an optional semicolon, and nothing after it. -/
def procedure (source : List Char) (s : State) : Except ParseError Procedure := do
  let whole ← signature source s
  let s' := whole.state.eat .semicolon
  if s'.cursor.atEnd then
    .ok
      { params := whole.value.1
        body := whole.value.2
        exprs := s'.exprs
        stmts := s'.stmts
        names := s'.names
        source
        span := s.current.span.merge s'.previousSpan }
  else .error (.trailingInput s'.current.span)

end Parser

/-- The procedure that a source text spells. -/
def Procedure.parse (source : String) : Except ParseError Procedure :=
  match Token.ofSource source NameTable.initial with
  | .error e => .error (.lex e)
  | .ok (tokens, names) =>
    Parser.procedure source.toList ⟨Cursor.ofTokens tokens, names, 0, 0⟩

end PathCopy
