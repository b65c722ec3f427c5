import PathCopy.Procedure.Parser
import PathCopy.Procedure.Walk

/-!
Writing procedures. A tree becomes a row of tokens, with a semicolon after each declaration, return
and expression statement, and with parentheses only where an expression would be read differently
without. What a tree does not determine, such as the form of a procedure, is chosen by a wording.
-/

namespace PathCopy

/-! ### Trees without their places -/

mutual

/-- The expression without spans and numbers. -/
def Expr.erase : Expr → Expr
  | .number _ bits => .number default bits
  | .string _ text => .string default text
  | .bool _ value => .bool default value
  | .null _ => .null default
  | .undefined _ => .undefined default
  | .ident _ name => .ident default name
  | .member _ base property => .member default base.erase property
  | .index _ base key => .index default base.erase key.erase
  | .call _ callee args => .call default callee.erase (Expr.eraseList args)
  | .assign _ op target value => .assign default op target.erase value.erase
  | .step _ op fixity target => .step default op fixity target.erase
  | .binary _ op left right => .binary default op left.erase right.erase
  | .unary _ op operand => .unary default op operand.erase
  | .array _ items => .array default (Expr.eraseList items)
  | .object _ entries => .object default (Expr.eraseEntries entries)

def Expr.eraseList : List Expr → List Expr
  | [] => []
  | e :: es => e.erase :: Expr.eraseList es

def Expr.eraseEntries : List Property → List Property
  | [] => []
  | .entry key _ value :: rest => .entry key default value.erase :: Expr.eraseEntries rest

end

def Property.erase : Property → Property
  | .entry key _ value => .entry key default value.erase

theorem Expr.eraseEntries_cons (p : Property) (ps : List Property) :
    Expr.eraseEntries (p :: ps) = p.erase :: Expr.eraseEntries ps := by
  cases p
  rfl

mutual

def Stmt.erase : Stmt → Stmt
  | .expr _ value => .expr default value.erase
  | .declare _ name assignable initial =>
      .declare default name assignable (initial.map Expr.erase)
  | .ret _ value => .ret default (value.map Expr.erase)
  | .block _ _ body => .block default 0 (Stmt.eraseList body)
  | .empty _ => .empty default

def Stmt.eraseList : List Stmt → List Stmt
  | [] => []
  | s :: rest => s.erase :: Stmt.eraseList rest

end

def ProcedureBody.erase : ProcedureBody → ProcedureBody
  | .expr value => .expr value.erase
  | .block _ body => .block 0 (Stmt.eraseList body)

def Procedure.erase (p : Procedure) : Procedure where
  params := p.params.map fun param => { param with span := default }
  body := p.body.erase
  exprs := 0
  stmts := 0
  names := p.names
  source := []
  span := default

/-! ### Trees of the language -/

/-- What is assigned or stepped can be, and a constant has a value. -/
def Phrase.isProper : Phrase → Bool
  | .expr (.assign _ _ target _) => target.isTarget
  | .expr (.step _ _ _ target) => target.isTarget
  | .stmt (.declare _ _ false none) => false
  | _ => true

/-! ### Levels -/

def BinaryOp.level : BinaryOp → Nat
  | add | sub => 1
  | mul | div | rem => 2

/-- How tightly an expression holds together: an assignment least, then sums, products, prefixed
operands, operands with a step after them, and everything else. -/
def Expr.level : Expr → Nat
  | .assign .. => 0
  | .binary _ op _ _ => op.level
  | .unary .. => 3
  | .step _ _ .before _ => 3
  | .step _ _ .after _ => 4
  | _ => 5

def Expr.isObject : Expr → Bool
  | .object .. => true
  | _ => false

/-! ### Tokens -/

/-- How a procedure is introduced: by the keyword and perhaps a name, by its parameters in
parentheses, or by one parameter without. -/
inductive Introduction
  | function (name : Option Name)
  | arrow
  | bare

/-- What a writer is free to choose: the introduction of the procedure, `var` in place of `let`,
string keys of entries, and the short form of entries. The choice may differ from place to place. -/
structure Wording where
  introduction : Introduction
  var : Span → Bool
  quoted : Span → Bool
  short : Span → Bool

/-- The token of a property name: a keyword, or an identifier. -/
def NameTable.word (names : NameTable) (name : Name) : TokenKind :=
  match Keyword.ofText? (names.lookup name) with
  | some k => .keyword k
  | none => .ident name

def commaBefore {α : Type} (rest : List α) : List TokenKind :=
  if rest.isEmpty then [] else [.symbol .comma]

/-- An expression where `level` is asked for, given how it is written at and away from the start of a
statement: in parentheses if it holds together less tightly, or if it would be taken for a block. -/
def Expr.within (e : Expr) (level : Nat) (start : Bool) (tokens : Bool → List TokenKind) :
    List TokenKind :=
  if e.level < level ∨ start ∧ e.isObject then
    .symbol .lparen :: (tokens false ++ [.symbol .rparen])
  else tokens start

def Wording.key (w : Wording) (names : NameTable) (key : Name) (span : Span) : TokenKind :=
  if w.quoted span then .string key else names.word key

/-- The entry of an object literal; `tokens` is how its value is written. An identifier under its own
name may stand alone. -/
def Property.write (w : Wording) (names : NameTable) (tokens : List TokenKind) :
    Property → List TokenKind
  | .entry key span (.ident _ name) =>
      if w.short span ∧ name = key then [.ident key]
      else w.key names key span :: .symbol .colon :: tokens
  | .entry key span _ => w.key names key span :: .symbol .colon :: tokens

theorem Property.write_cases (w : Wording) (names : NameTable) (key : Name) (span : Span)
    (value : Expr) (tokens : List TokenKind) :
    (∃ site, value = .ident site key ∧
      Property.write w names tokens (.entry key span value) = [.ident key]) ∨
    Property.write w names tokens (.entry key span value) =
      w.key names key span :: .symbol .colon :: tokens := by
  unfold write
  split
  · next key' span' site name heq =>
    cases heq
    split
    · next hshort => exact .inl ⟨site, by rw [hshort.2], rfl⟩
    · exact .inr rfl
  · next heq =>
    cases heq
    exact .inr rfl

mutual

/-- The tokens of an expression that no parentheses enclose. -/
def Expr.tokens (w : Wording) (names : NameTable) (start : Bool) : Expr → List TokenKind
  | .number _ bits => [.number bits]
  | .string _ text => [.string text]
  | .bool _ value => [.keyword (if value then .trueWord else .falseWord)]
  | .null _ => [.keyword .nullWord]
  | .undefined _ => [.keyword .undefinedWord]
  | .ident _ name => [.ident name]
  | .member _ base property =>
      base.within 5 start (base.tokens w names ·) ++ [.symbol .dot, names.word property]
  | .index _ base key =>
      base.within 5 start (base.tokens w names ·) ++
        .symbol .lbracket :: (key.within 0 false (key.tokens w names ·) ++ [.symbol .rbracket])
  | .call _ callee args =>
      callee.within 5 start (callee.tokens w names ·) ++
        .symbol .lparen :: (Expr.tokensOfList w names args ++ [.symbol .rparen])
  | .assign _ op target value =>
      target.within 5 start (target.tokens w names ·) ++
        .symbol op.symbol :: value.within 0 false (value.tokens w names ·)
  | .step _ op .before target =>
      .symbol op.symbol :: target.within 5 false (target.tokens w names ·)
  | .step _ op .after target =>
      target.within 5 start (target.tokens w names ·) ++ [.symbol op.symbol]
  | .binary _ op left right =>
      left.within op.level start (left.tokens w names ·) ++
        .symbol op.symbol :: right.within (op.level + 1) false (right.tokens w names ·)
  | .unary _ op operand =>
      .symbol op.symbol :: operand.within 3 false (operand.tokens w names ·)
  | .array _ items => .symbol .lbracket :: (Expr.tokensOfList w names items ++ [.symbol .rbracket])
  | .object _ entries =>
      .symbol .lbrace :: (Expr.tokensOfEntries w names entries ++ [.symbol .rbrace])

def Expr.tokensOfList (w : Wording) (names : NameTable) : List Expr → List TokenKind
  | [] => []
  | e :: es =>
      e.within 0 false (e.tokens w names ·) ++ (commaBefore es ++ Expr.tokensOfList w names es)

def Expr.tokensOfEntries (w : Wording) (names : NameTable) : List Property → List TokenKind
  | [] => []
  | .entry key span value :: rest =>
      Property.write w names (value.within 0 false (value.tokens w names ·))
          (.entry key span value) ++
        (commaBefore rest ++ Expr.tokensOfEntries w names rest)

end

/-- The tokens of an expression where any may stand; `start` says whether a brace would open a
block. -/
def Expr.write (w : Wording) (names : NameTable) (start : Bool) (e : Expr) : List TokenKind :=
  e.within 0 start (e.tokens w names ·)

mutual

def Stmt.write (w : Wording) (names : NameTable) : Stmt → List TokenKind
  | .expr _ value => value.write w names true ++ [.symbol .semicolon]
  | .declare span name assignable initial =>
      .keyword (if assignable then (if w.var span then .varWord else .letWord) else .constWord) ::
        .ident name ::
        ((initial.elim [] fun value => .symbol .assign :: value.write w names false) ++
          [.symbol .semicolon])
  | .ret _ value =>
      .keyword .returnWord ::
        ((value.elim [] fun value => value.write w names false) ++ [.symbol .semicolon])
  | .block _ _ body =>
      .symbol .lbrace :: (Stmt.writeList w names body ++ [.symbol .rbrace])
  | .empty _ => [.symbol .semicolon]

def Stmt.writeList (w : Wording) (names : NameTable) : List Stmt → List TokenKind
  | [] => []
  | s :: rest => s.write w names ++ Stmt.writeList w names rest

end

def Param.writeList : List Param → List TokenKind
  | [] => []
  | p :: ps => .ident p.name :: (commaBefore ps ++ Param.writeList ps)

def ProcedureBody.write (w : Wording) (names : NameTable) : ProcedureBody → List TokenKind
  | .expr value => value.write w names true
  | .block _ body => .symbol .lbrace :: (Stmt.writeList w names body ++ [.symbol .rbrace])

/-- The tokens of a procedure. With an expression for its body only an arrow can introduce it, and
only one parameter can go without parentheses. -/
def Procedure.write (w : Wording) (p : Procedure) : List TokenKind :=
  let params := .symbol .lparen :: (Param.writeList p.params ++ [.symbol .rparen])
  match w.introduction, p.params, p.body with
  | .function name, _, .block .. =>
      .keyword .functionWord :: ((name.map TokenKind.ident).toList ++ (params ++
        p.body.write w p.names))
  | .bare, [param], _ => .ident param.name :: .symbol .arrow :: p.body.write w p.names
  | _, _, _ => params ++ .symbol .arrow :: p.body.write w p.names

/-! ### Where an expression begins -/

def TokenKind.opens : TokenKind → Bool
  | .number _ | .string _ | .ident _ => true
  | .keyword .trueWord | .keyword .falseWord | .keyword .nullWord
  | .keyword .undefinedWord => true
  | .symbol .lparen | .symbol .lbracket | .symbol .lbrace => true
  | .symbol .minus | .symbol .bang | .symbol .plusPlus | .symbol .minusMinus => true
  | _ => false

/-- The row begins with a token that can begin an expression, and at the start of a statement not
with a brace. -/
def Opening (start : Bool) (tokens : List TokenKind) : Prop :=
  ∃ k ks, tokens = k :: ks ∧ k.opens ∧ (start → k ≠ .symbol .lbrace)

variable {w : Wording} {names : NameTable} {start : Bool} {tokens : List TokenKind}

theorem Opening.append (h : Opening start tokens) (rest : List TokenKind) :
    Opening start (tokens ++ rest) := by
  obtain ⟨k, ks, rfl, hk⟩ := h
  exact ⟨k, ks ++ rest, rfl, hk⟩

theorem Expr.opening_within {e : Expr} {level : Nat} {row : Bool → List TokenKind}
    (h : ∀ b : Bool, ¬ (b ∧ e.isObject) → Opening b (row b)) :
    Opening start (e.within level start row) := by
  unfold within
  split
  · exact ⟨_, _, rfl, rfl, by simp⟩
  · next hplain => exact h start fun hobject => hplain (.inr hobject)

/-- An expression begins with a token that can begin one; at the start of a statement it does not
begin with a brace, since an object that stands there, or first in there, is in parentheses. -/
theorem Expr.opening_tokens (e : Expr) (start : Bool) (h : ¬ (start ∧ e.isObject)) :
    Opening start (e.tokens w names start) := by
  cases e with
  | number _ bits => exact ⟨_, _, rfl, rfl, by simp⟩
  | string _ text => exact ⟨_, _, rfl, rfl, by simp⟩
  | bool _ value => cases value <;> exact ⟨_, _, rfl, rfl, by simp⟩
  | null _ => exact ⟨_, _, rfl, rfl, by simp⟩
  | undefined _ => exact ⟨_, _, rfl, rfl, by simp⟩
  | ident _ name => exact ⟨_, _, rfl, rfl, by simp⟩
  | member _ base property =>
      rw [tokens]
      exact (opening_within base.opening_tokens).append _
  | index _ base key =>
      rw [tokens]
      exact (opening_within base.opening_tokens).append _
  | call _ callee args =>
      rw [tokens]
      exact (opening_within callee.opening_tokens).append _
  | assign _ op target value =>
      rw [tokens]
      exact (opening_within target.opening_tokens).append _
  | step _ op fixity target =>
      cases fixity with
      | before => cases op <;> exact ⟨_, _, rfl, rfl, by simp [StepOp.symbol]⟩
      | after =>
          rw [tokens]
          exact (opening_within target.opening_tokens).append _
  | binary _ op left right =>
      rw [tokens]
      exact (opening_within left.opening_tokens).append _
  | unary _ op operand => cases op <;> exact ⟨_, _, rfl, rfl, by simp [UnaryOp.symbol]⟩
  | array _ items => exact ⟨_, _, rfl, rfl, by simp⟩
  | object _ entries => exact ⟨_, _, rfl, rfl, fun hstart => absurd ⟨hstart, rfl⟩ h⟩

theorem Expr.opening_write (e : Expr) (w : Wording) (names : NameTable) (start : Bool) :
    Opening start (e.write w names start) :=
  opening_within e.opening_tokens

end PathCopy
