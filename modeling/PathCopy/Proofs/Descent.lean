import PathCopy.Procedure.Parser

/-!
The grammar as it runs. Here a reader is a program on the state of the parser: it moves the cursor
as it goes, and it leaves the cursor where it is when it fails. Nothing in these programs says that
they end. So loops are held to a number of rounds and readers inside each other to a depth, and a
program that comes to such a limit stops there without an answer.
-/

namespace PathCopy

namespace Descent

open PathCopy.Parser (State)

/-- Why a reader stops: the tokens are wrong, or it has come to a limit. -/
inductive Halt
  | fault (error : ParseError)
  | limit

/-- A program that reads from the state; the state is left as it is at a failure. -/
abbrev Reader (α : Type) : Type := EStateM Halt State α

/-! ### The cursor -/

section Cursor

variable {α : Type}

def fail (error : ParseError) : Reader α := throw (.fault error)

def cut : Reader α := throw .limit

def current : Reader Token := fun s => .ok s.current s

def kind : Reader TokenKind := fun s => .ok s.kind s

def peek (offset : Nat) : Reader TokenKind := fun s => .ok (s.cursor.peek offset) s

def previousSpan : Reader Span := fun s => .ok s.previousSpan s

def atEnd : Reader Bool := fun s => .ok s.cursor.atEnd s

def advance : Reader Token := fun s => .ok s.current { s with cursor := s.cursor.advance }

def eat (x : Symbol) : Reader Bool := fun s =>
  let (found, cursor) := s.cursor.eat (.symbol x)
  .ok found { s with cursor }

def expect (x : Symbol) : Reader Span := fun s =>
  match s.cursor.expect (.symbol x) with
  | .ok (span, cursor) => .ok span { s with cursor }
  | .error e => .error (.fault e) s

end Cursor

/-! ### Expressions -/

def intern (text : String) : Reader Name := fun s => .ok (s.intern text).1 (s.intern text).2

def node (span : Span) (make : Site → Expr) : Reader Expr := fun s =>
  .ok (s.node span make).1 (s.node span make).2

def leaf (make : Site → Expr) : Reader Expr := do
  let token ← advance
  node token.span make

def checkTarget (e : Expr) : Reader Unit :=
  if e.isTarget then pure () else fail (.invalidTarget e.span)

def propertyName : Reader Name := do
  let token ← current
  match token.kind with
  | .ident name => do
    let _ ← advance
    return name
  | .keyword word => do
    let name ← intern word.text
    let _ ← advance
    return name
  | _ => fail (.found .propertyName token)

def entryKey (source : List Char) : Reader Name := do
  let token ← current
  match token.kind with
  | .string text => do
    let _ ← advance
    return text
  | .number _ => do
    let name ← intern (token.span.snippet source)
    let _ ← advance
    return name
  | _ => propertyName

/-- Expressions with commas between them up to `close`, in at most so many rounds. -/
def items (item : Reader Expr) (close : Symbol) : Nat → Reader (List Expr)
  | 0 => cut
  | rounds + 1 => do
    if (← kind) = .symbol close then
      let _ ← expect close
      return []
    else
      let first ← item
      if ← eat .comma then
        let rest ← items item close rounds
        return first :: rest
      else
        let _ ← expect close
        return [first]

def entry (source : List Char) (item : Reader Expr) : Reader Property := do
  let token ← current
  let key ← entryKey source
  if ← eat .colon then
    let value ← item
    return .entry key (token.span.merge value.span) value
  else match token.kind with
    | .ident name => do
      let value ← node token.span (.ident · name)
      return .entry key (token.span.merge value.span) value
    | _ => do fail (.found (.token (.symbol .colon)) (← current))

def entries (source : List Char) (item : Reader Expr) : Nat → Reader (List Property)
  | 0 => cut
  | rounds + 1 => do
    if (← kind) = .symbol .rbrace then
      let _ ← expect .rbrace
      return []
    else
      let first ← entry source item
      if ← eat .comma then
        let rest ← entries source item rounds
        return first :: rest
      else
        let _ ← expect .rbrace
        return [first]

def primary (source : List Char) (rounds : Nat) (item : Reader Expr) : Reader Expr := do
  let token ← current
  match token.kind with
  | .number bits => leaf (.number · bits)
  | .string text => leaf (.string · text)
  | .ident name => do
    if (← peek 1) = .symbol .arrow then fail (.unsupported .nestedArrow token.span)
    else leaf (.ident · name)
  | .keyword .trueWord => leaf (.bool · true)
  | .keyword .falseWord => leaf (.bool · false)
  | .keyword .nullWord => leaf .null
  | .keyword .undefinedWord => leaf .undefined
  | .keyword .functionWord => fail (.unsupported .nestedFunction token.span)
  | .symbol .lparen => do
    let _ ← advance
    let inner ← item
    let _ ← expect .rparen
    if (← kind) = .symbol .arrow then fail (.unsupported .nestedArrow token.span)
    else return inner
  | .symbol .lbracket => do
    let _ ← advance
    let list ← items item .rbracket rounds
    node (token.span.merge (← previousSpan)) (.array · list)
  | .symbol .lbrace => do
    let _ ← advance
    let list ← entries source item rounds
    node (token.span.merge (← previousSpan)) (.object · list)
  | kind =>
    if kind.isReserved then fail (.unsupported (.word kind) token.span)
    else fail (.found .expression token)

def chain (item : Reader Expr) (args : Reader (List Expr)) : Nat → Expr → Reader Expr
  | 0, _ => cut
  | rounds + 1, e => do
    match ← kind with
    | .symbol .dot => do
      let _ ← advance
      let span := e.span.merge (← current).span
      let property ← propertyName
      let next ← node span (.member · e property)
      chain item args rounds next
    | .symbol .lbracket => do
      let _ ← advance
      let key ← item
      let close ← expect .rbracket
      let next ← node (e.span.merge close) (.index · e key)
      chain item args rounds next
    | .symbol .lparen => do
      let _ ← advance
      let list ← args
      let next ← node (e.span.merge (← previousSpan)) (.call · e list)
      chain item args rounds next
    | .symbol .plusPlus => do
      checkTarget e
      let op ← advance
      node (e.span.merge op.span) (.step · .increment .after e)
    | .symbol .minusMinus => do
      checkTarget e
      let op ← advance
      node (e.span.merge op.span) (.step · .decrement .after e)
    | _ => return e

def postfixed (source : List Char) (rounds : Nat) (item : Reader Expr) : Reader Expr := do
  let base ← primary source rounds item
  chain item (items item .rparen rounds) rounds base

/-- The readers that call each other: of expressions, and of operands with the operators before
them. -/
structure Level where
  expr : Reader Expr
  operand : Reader Expr

def operand (source : List Char) (rounds : Nat) (inner : Level) : Reader Expr := do
  let start := (← current).span
  match ← kind with
  | .symbol .minus => do
    let _ ← advance
    let e ← inner.operand
    node (start.merge e.span) (.unary · .neg e)
  | .symbol .bang => do
    let _ ← advance
    let e ← inner.operand
    node (start.merge e.span) (.unary · .not e)
  | .symbol .plusPlus => do
    let _ ← advance
    let e ← inner.operand
    checkTarget e
    node (start.merge e.span) (.step · .increment .before e)
  | .symbol .minusMinus => do
    let _ ← advance
    let e ← inner.operand
    checkTarget e
    node (start.merge e.span) (.step · .decrement .before e)
  | _ => postfixed source rounds inner.expr

/-- The operands that follow `left` with the operators that `op?` knows. -/
def infixed (op? : TokenKind → Option BinaryOp) (part : Reader Expr) : Nat → Expr → Reader Expr
  | 0, _ => cut
  | rounds + 1, left => do
    match op? (← kind) with
    | none => return left
    | some op => do
      let _ ← advance
      let right ← part
      let whole ← node (left.span.merge right.span) (.binary · op left right)
      infixed op? part rounds whole

def product (source : List Char) (rounds : Nat) (inner : Level) : Reader Expr := do
  let first ← operand source rounds inner
  infixed Parser.productOp? (operand source rounds inner) rounds first

def sum (source : List Char) (rounds : Nat) (inner : Level) : Reader Expr := do
  let first ← product source rounds inner
  infixed Parser.sumOp? (product source rounds inner) rounds first

def expr (source : List Char) (rounds : Nat) (inner : Level) : Reader Expr := do
  let target ← sum source rounds inner
  match Parser.assignOp? (← kind) with
  | none => return target
  | some op => do
    checkTarget target
    let _ ← advance
    let value ← inner.expr
    node (target.span.merge value.span) (.assign · op target value)

/-- Readers for `depth` expressions and operands inside each other. -/
def level (source : List Char) (rounds : Nat) : Nat → Level
  | 0 => ⟨cut, cut⟩
  | depth + 1 =>
    let inner := level source rounds depth
    ⟨expr source rounds inner, operand source rounds inner⟩

/-! ### Statements -/

def initialValue (item : Reader Expr) (constant : Bool) : Reader (Option Expr) := do
  if constant then
    let _ ← expect .assign
    let value ← item
    return some value
  else if ← eat .assign then
    let value ← item
    return some value
  else return none

def declaration (item : Reader Expr) (constant : Bool) : Reader Stmt := do
  let start ← advance
  let token ← current
  match token.kind with
  | .ident name => do
    let _ ← advance
    let initial ← initialValue item constant
    let _ ← eat .semicolon
    return .declare (start.span.merge (← previousSpan)) name (!constant) initial
  | _ => fail (.found .variableName token)

def stmt (item : Reader Expr) (inner : Reader (Nat × List Stmt)) : Reader Stmt := do
  let start := (← current).span
  match ← kind with
  | .symbol .semicolon => do
    let _ ← advance
    return .empty start
  | .symbol .lbrace => do
    let _ ← expect .lbrace
    let body ← inner
    return .block (start.merge (← previousSpan)) body.1 body.2
  | .keyword .letWord | .keyword .varWord => declaration item false
  | .keyword .constWord => declaration item true
  | .keyword .returnWord => do
    let _ ← advance
    if Parser.endsReturn (← kind) then
      let _ ← eat .semicolon
      return .ret (start.merge (← previousSpan)) none
    else
      let value ← item
      let _ ← eat .semicolon
      return .ret (start.merge (← previousSpan)) (some value)
  | .keyword .functionWord => fail (.unsupported .nestedFunction start)
  | kind =>
    if kind.isReserved then fail (.unsupported (.word kind) start)
    else do
      let value ← item
      let _ ← eat .semicolon
      return .expr (start.merge (← previousSpan)) value

def stmts (one : Reader Stmt) : Nat → Reader (List Stmt)
  | 0 => cut
  | rounds + 1 => do
    if (← kind) = .symbol .rbrace then
      let _ ← expect .rbrace
      return []
    else if ← atEnd then fail (.found (.token (.symbol .rbrace)) (← current))
    else
      let first ← one
      let rest ← stmts one rounds
      return first :: rest

def store (body : List Stmt) : Reader (Nat × List Stmt) := fun s =>
  .ok (s.stmts.next, body) { s with stmts := s.stmts.add body }

/-- The rest of a block after its opening brace, with `depth` blocks and expressions inside each
other. -/
def blockRest (source : List Char) (rounds : Nat) : Nat → Reader (Nat × List Stmt)
  | 0 => cut
  | depth + 1 => do
    let one := stmt (level source rounds depth).expr (blockRest source rounds depth)
    let body ← stmts one rounds
    store body

/-! ### Procedures -/

section Procedures

variable (source : List Char) (rounds depth : Nat)

def block : Reader ProcedureBody := do
  let _ ← expect .lbrace
  let body ← blockRest source rounds depth
  return .block body.1 body.2

def param : Reader Param := do
  let token ← current
  match token.kind with
  | .ident name => do
    let _ ← advance
    return ⟨name, token.span⟩
  | _ => fail (.found .parameterName token)

def params : Nat → Reader (List Param)
  | 0 => cut
  | rounds + 1 => do
    if (← kind) = .symbol .rparen then
      let _ ← expect .rparen
      return []
    else
      let first ← param
      if ← eat .comma then
        let rest ← params rounds
        return first :: rest
      else
        let _ ← expect .rparen
        return [first]

def arrowBody : Reader ProcedureBody := do
  if (← kind) = .symbol .lbrace then block source rounds depth
  else
    let value ← (level source rounds depth).expr
    return .expr value

def signature : Reader (List Param × ProcedureBody) := do
  match ← kind with
  | .keyword .functionWord => do
    let _ ← advance
    if (← current).kind matches .ident _ then
      let _ ← advance
    let _ ← expect .lparen
    let list ← params rounds
    let body ← block source rounds depth
    return (list, body)
  | .symbol .lparen => do
    let _ ← advance
    let list ← params rounds
    let _ ← expect .arrow
    let body ← arrowBody source rounds depth
    return (list, body)
  | .ident name => do
    if (← peek 1) = .symbol .arrow then
      let token ← advance
      let _ ← advance
      let body ← arrowBody source rounds depth
      return ([⟨name, token.span⟩], body)
    else fail (.found .procedure (← current))
  | _ => fail (.found .procedure (← current))

/-- One complete procedure with an optional semicolon, and nothing after it. -/
def procedure : Reader Procedure := do
  let start := (← current).span
  let whole ← signature source rounds depth
  let _ ← eat .semicolon
  if ← atEnd then
    let s ← get
    return {
      params := whole.1
      body := whole.2
      exprs := s.exprs
      stmts := s.stmts
      names := s.names
      source
      span := start.merge s.previousSpan }
  else fail (.trailingInput (← current).span)

end Procedures

end Descent

end PathCopy
