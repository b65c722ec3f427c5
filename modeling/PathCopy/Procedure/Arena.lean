import PathCopy.Procedure.Expr

/-!
Flat storage for the phrases of a procedure. Each expression has a row in a table, and the row holds
the numbers of the expressions inside it; the arguments of a call, the items of an array and the
entries of an object are stretches of further tables, and so are the statements of a block. Rows are
only ever appended: an expression when it is complete, the statements of a block when it is closed.
-/

namespace PathCopy

/-- A stretch of a table, by its first place and its length. -/
structure Extent where
  start : Nat
  length : Nat
  deriving DecidableEq

namespace Extent

/-- Where the next row of a table with `size` rows goes. Places are counted like offsets, and beyond
the limit all are the same. -/
def place (size : Nat) : Nat := min size Span.limit

def upTo (start size : Nat) : Extent := ⟨start, place size - start⟩

def stop (x : Extent) : Nat := x.start + x.length

variable {α : Type}

def rows? (x : Extent) (table : Array α) : Option (List α) :=
  if x.stop ≤ table.size then some (table.extract x.start x.stop).toList else none

end Extent

/-- An expression with numbers in place of the expressions inside it. -/
inductive ExprForm
  | number (bits : UInt64)
  | string (text : Name)
  | bool (value : Bool)
  | null
  | undefined
  | ident (name : Name)
  | member (object : Nat) (property : Name)
  | index (object key : Nat)
  | call (callee : Nat) (args : Extent)
  | assign (op : AssignOp) (target value : Nat)
  | step (op : StepOp) (fixity : Fixity) (target : Nat)
  | binary (op : BinaryOp) (left right : Nat)
  | unary (op : UnaryOp) (operand : Nat)
  | array (items : Extent)
  | object (entries : Extent)
  deriving DecidableEq

structure ExprRow where
  form : ExprForm
  span : Span
  deriving DecidableEq

structure EntryRow where
  key : Name
  value : Nat
  span : Span
  deriving DecidableEq

/-- A statement with the numbers of its expressions, and a stretch in place of a block. -/
inductive StmtForm
  | expr (value : Nat)
  | declare (name : Name) (assignable : Bool) (initial : Option Nat)
  | ret (value : Option Nat)
  | block (body : Extent)
  | empty
  deriving DecidableEq

structure StmtRow where
  form : StmtForm
  span : Span
  deriving DecidableEq

/-- The expressions of a procedure, the numbers of the expressions in its lists, and the entries of
its objects. -/
structure ExprTable where
  rows : Array ExprRow
  lists : Array Nat
  entries : Array EntryRow

structure StmtTable where
  rows : Array StmtRow

instance : Zero ExprTable := ⟨⟨#[], #[], #[]⟩⟩

instance : Zero StmtTable := ⟨⟨#[]⟩⟩

def Expr.num (e : Expr) : Nat := e.site.number

def Property.row (p : Property) : EntryRow := ⟨p.key, p.value.num, p.span⟩

namespace ExprTable

def next (t : ExprTable) : Nat := Extent.place t.rows.size

def addList (t : ExprTable) (es : List Expr) : Extent × ExprTable :=
  let lists := t.lists ++ es.map Expr.num
  (.upTo (Extent.place t.lists.size) lists.size, { t with lists })

def addEntries (t : ExprTable) (ps : List Property) : Extent × ExprTable :=
  let entries := t.entries ++ ps.map Property.row
  (.upTo (Extent.place t.entries.size) entries.size, { t with entries })

/-- The form of an expression whose parts have been stored, after its list or its entries have
been. -/
def form (t : ExprTable) : Expr → ExprForm × ExprTable
  | .number _ bits => (.number bits, t)
  | .string _ text => (.string text, t)
  | .bool _ value => (.bool value, t)
  | .null _ => (.null, t)
  | .undefined _ => (.undefined, t)
  | .ident _ name => (.ident name, t)
  | .member _ base property => (.member base.num property, t)
  | .index _ base key => (.index base.num key.num, t)
  | .call _ callee args =>
    let (list, t) := t.addList args
    (.call callee.num list, t)
  | .assign _ op target value => (.assign op target.num value.num, t)
  | .step _ op fixity target => (.step op fixity target.num, t)
  | .binary _ op left right => (.binary op left.num right.num, t)
  | .unary _ op operand => (.unary op operand.num, t)
  | .array _ items =>
    let (list, t) := t.addList items
    (.array list, t)
  | .object _ entries =>
    let (list, t) := t.addEntries entries
    (.object list, t)

def add (t : ExprTable) (e : Expr) : ExprTable :=
  let (form, t) := t.form e
  { t with rows := t.rows.push ⟨form, e.span⟩ }

end ExprTable

/-- The row of a statement. A block has been stored before, from its first number on. -/
def Stmt.row : Stmt → StmtRow
  | .expr span value => ⟨.expr value.num, span⟩
  | .declare span name assignable initial =>
    ⟨.declare name assignable (initial.map Expr.num), span⟩
  | .ret span value => ⟨.ret (value.map Expr.num), span⟩
  | .block span first body => ⟨.block (.upTo first (first + body.length)), span⟩
  | .empty span => ⟨.empty, span⟩

namespace StmtTable

def next (t : StmtTable) : Nat := Extent.place t.rows.size

def add (t : StmtTable) (body : List Stmt) : StmtTable := ⟨t.rows ++ body.map Stmt.row⟩

end StmtTable

end PathCopy
