import PathCopy.Procedure.Basic

/-!
The phrases of a procedure in reading order: a phrase comes before its children and children come
from left to right.
-/

namespace PathCopy

inductive Phrase
  | stmt (stmt : Stmt)
  | expr (expr : Expr)

namespace Phrase

def span : Phrase → Span
  | stmt s => s.span
  | expr e => e.span

end Phrase

mutual

/-- An expression and everything inside it. -/
def Expr.nodes : Expr → List Expr
  | e@(.number ..) | e@(.string ..) | e@(.bool ..) | e@(.null ..) | e@(.undefined ..)
  | e@(.ident ..) => [e]
  | e@(.member _ base _) => e :: base.nodes
  | e@(.index _ base key) => e :: (base.nodes ++ key.nodes)
  | e@(.call _ callee args) => e :: (callee.nodes ++ Expr.nodesOfList args)
  | e@(.assign _ _ target value) => e :: (target.nodes ++ value.nodes)
  | e@(.step _ _ _ target) => e :: target.nodes
  | e@(.binary _ _ left right) => e :: (left.nodes ++ right.nodes)
  | e@(.unary _ _ operand) => e :: operand.nodes
  | e@(.array _ items) => e :: Expr.nodesOfList items
  | e@(.object _ entries) => e :: Expr.nodesOfEntries entries

def Expr.nodesOfList : List Expr → List Expr
  | [] => []
  | e :: es => e.nodes ++ Expr.nodesOfList es

def Expr.nodesOfEntries : List Property → List Expr
  | [] => []
  | .entry _ _ value :: rest => value.nodes ++ Expr.nodesOfEntries rest

end

def Expr.nodesOfOption : Option Expr → List Expr
  | some e => e.nodes
  | none => []

mutual

def Stmt.phrases : Stmt → List Phrase
  | s@(.expr _ value) => .stmt s :: value.nodes.map .expr
  | s@(.declare _ _ _ initial) => .stmt s :: (Expr.nodesOfOption initial).map .expr
  | s@(.ret _ value) => .stmt s :: (Expr.nodesOfOption value).map .expr
  | s@(.block _ _ body) => .stmt s :: Stmt.phrasesOfList body
  | s@(.empty _) => [.stmt s]

def Stmt.phrasesOfList : List Stmt → List Phrase
  | [] => []
  | s :: rest => s.phrases ++ Stmt.phrasesOfList rest

end

def ProcedureBody.phrases : ProcedureBody → List Phrase
  | .expr value => value.nodes.map .expr
  | .block _ body => Stmt.phrasesOfList body

/-- The phrases of a procedure's body in reading order. -/
def Procedure.phrases (p : Procedure) : List Phrase := p.body.phrases

end PathCopy
