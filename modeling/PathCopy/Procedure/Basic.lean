import PathCopy.Procedure.Arena

/-!
A procedure: its parameters and its body, with the tables that hold the phrases of the body and the
text that it was read from.
-/

namespace PathCopy

structure Param where
  name : Name
  span : Span
  deriving DecidableEq

/-- The body of a procedure: one expression, or a block whose statements are numbered from
`first`. -/
inductive ProcedureBody
  | expr (value : Expr)
  | block (first : Nat) (body : List Stmt)

/-- A procedure with everything needed to analyse and run it. -/
structure Procedure where
  params : List Param
  body : ProcedureBody
  exprs : ExprTable
  stmts : StmtTable
  names : NameTable
  source : List Char
  span : Span

namespace Procedure

def nameText (p : Procedure) (name : Name) : String := p.names.lookup name

def exprCount (p : Procedure) : Nat := p.exprs.rows.size

def stmtCount (p : Procedure) : Nat := p.stmts.rows.size

def snippet (p : Procedure) (span : Span) : String := span.snippet p.source

end Procedure

end PathCopy
