import PathCopy.Procedure.Token

/-!
Procedures as trees. A node carries its span and its number: expressions are numbered in the order
in which they are completed, so a node comes after everything inside it, and the statements of a
block are numbered together when the block is closed. Parentheses leave no node.
-/

namespace PathCopy

/-- Where a node stands in the source, and its number among the nodes of its procedure. -/
structure Site where
  span : Span
  number : Nat
  deriving DecidableEq, Inhabited

inductive BinaryOp
  | add | sub | mul | div | rem
  deriving DecidableEq

def BinaryOp.symbol : BinaryOp → Symbol
  | add => .plus
  | sub => .minus
  | mul => .star
  | div => .slash
  | rem => .percent

inductive AssignOp
  | plain
  | compound (op : BinaryOp)
  deriving DecidableEq

def AssignOp.symbol : AssignOp → Symbol
  | plain => .assign
  | compound .add => .plusAssign
  | compound .sub => .minusAssign
  | compound .mul => .starAssign
  | compound .div => .slashAssign
  | compound .rem => .percentAssign

inductive StepOp
  | increment | decrement
  deriving DecidableEq

def StepOp.symbol : StepOp → Symbol
  | increment => .plusPlus
  | decrement => .minusMinus

inductive UnaryOp
  | neg | not
  deriving DecidableEq

def UnaryOp.symbol : UnaryOp → Symbol
  | neg => .minus
  | not => .bang

/-- On which side of its operand an operator stands; the value of a step differs between them. -/
inductive Fixity
  | before | after
  deriving DecidableEq

mutual

inductive Expr
  | number (site : Site) (bits : UInt64)
  | string (site : Site) (text : Name)
  | bool (site : Site) (value : Bool)
  | null (site : Site)
  | undefined (site : Site)
  | ident (site : Site) (name : Name)
  | member (site : Site) (object : Expr) (property : Name)
  | index (site : Site) (object key : Expr)
  | call (site : Site) (callee : Expr) (args : List Expr)
  | assign (site : Site) (op : AssignOp) (target value : Expr)
  | step (site : Site) (op : StepOp) (fixity : Fixity) (target : Expr)
  | binary (site : Site) (op : BinaryOp) (left right : Expr)
  | unary (site : Site) (op : UnaryOp) (operand : Expr)
  | array (site : Site) (items : List Expr)
  | object (site : Site) (entries : List Property)

/-- An entry of an object literal. In the short form `{ x }` the value is the identifier `x`. -/
inductive Property
  | entry (key : Name) (span : Span) (value : Expr)

end

namespace Expr

def site : Expr → Site
  | number site _ | string site _ | bool site _ | null site | undefined site | ident site _
  | member site _ _ | index site _ _ | call site _ _ | assign site _ _ _ | step site _ _ _
  | binary site _ _ _ | unary site _ _ | array site _ | object site _ => site

def span (e : Expr) : Span := e.site.span

def isTarget : Expr → Bool
  | ident .. | member .. | index .. => true
  | _ => false

end Expr

def Property.key : Property → Name
  | .entry key _ _ => key

def Property.span : Property → Span
  | .entry _ span _ => span

def Property.value : Property → Expr
  | .entry _ _ value => value

inductive Stmt
  | expr (span : Span) (value : Expr)
  | declare (span : Span) (name : Name) (assignable : Bool) (initial : Option Expr)
  | ret (span : Span) (value : Option Expr)
  | block (span : Span) (first : Nat) (body : List Stmt)
  | empty (span : Span)

def Stmt.span : Stmt → Span
  | expr span _ | declare span _ _ _ | ret span _ | block span _ _ | empty span => span

end PathCopy
