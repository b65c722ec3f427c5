import PathCopy.Procedure.Basic
import PathCopy.Run.Machine
import PathCopy.Value.Arithmetic

/-!
Running a procedure. Expressions are evaluated from left to right; the keys of a place before the
value that is written to it. While a part of an expression is evaluated, the values already computed
for the expression are in `held`, so a write inside that part sees that they are shared.
-/

namespace PathCopy

/-- How a statement ends: the next one follows, or the procedure returns. -/
inductive Flow
  | next
  | returned
  deriving DecidableEq

namespace Run

mutual

def eval (names : NameTable) (held : List Value) : Expr → Run Value
  | .number _ bits => pure (.number (Float.ofBits bits))
  | .string _ text => pure (.text (names.lookup text))
  | .bool _ b => pure (.bool b)
  | .null _ => pure (.scalar .null)
  | .undefined _ => pure .undefined
  | .ident site name => lookup names name site.span
  | .member site base prop => do
    let v ← eval names held base
    property v (names.lookup prop) site.span
  | .index site base index => do
    let v ← eval names held base
    let k ← eval names (v :: held) index
    let k ← key k index.span
    property v k site.span
  | .call site (.member _ base prop) args =>
    match names.lookup prop, args with
    | "set", [index, value] => do
      let p ← place names held base
      let k ← eval names held index
      let k ← key k index.span
      let v ← eval names held value
      mapSet names held p k v site.span
    | "delete", [index] => do
      let p ← place names held base
      let k ← eval names held index
      let k ← key k index.span
      mapDelete names held p k site.span
    | name, args => do
      let receiver ← eval names held base
      let vs ← evalList names (receiver :: held) args
      method receiver name vs site.span
  | .call site _ _ => fail .notCallable site.span
  | .assign site op target value => do
    let p ← place names held target
    let v ← eval names held value
    let new ← match op with
      | .plain => pure v
      | .compound op => do
        let old ← readPlace names p site.span
        pure ((← get).store.binary op old v)
    writePlace names (v :: held) p new site.span
    pure new
  | .step site op fixity target => do
    let p ← place names held target
    let v ← readPlace names p site.span
    let old := (← get).store.toNumber v
    let new := match op with
      | .increment => old + 1
      | .decrement => old - 1
    writePlace names held p (.number new) site.span
    pure (.number (match fixity with
      | .before => new
      | .after => old))
  | .binary _ op left right => do
    let v ← eval names held left
    let w ← eval names (v :: held) right
    pure ((← get).store.binary op v w)
  | .unary _ op operand => do
    let v ← eval names held operand
    pure ((← get).store.unary op v)
  | .array _ items => do
    let vs ← evalList names held items
    alloc (.list vs)
  | .object _ entries => do
    let fields ← evalEntries names held .empty entries
    alloc (.record none fields)

def evalList (names : NameTable) (held : List Value) : List Expr → Run (List Value)
  | [] => pure []
  | e :: es => do
    let v ← eval names held e
    let vs ← evalList names (v :: held) es
    pure (v :: vs)

/-- The fields of an object literal, on top of those computed before. -/
def evalEntries (names : NameTable) (held : List Value) (fields : Table Value) :
    List Property → Run (Table Value)
  | [] => pure fields
  | .entry name _ value :: rest => do
    let v ← eval names (fields.values ++ held) value
    evalEntries names held (fields.insert (names.lookup name) v) rest

def place (names : NameTable) (held : List Value) : Expr → Run Place
  | .ident _ name => pure ⟨name, []⟩
  | .member _ base prop => do
    let p ← place names held base
    pure { p with steps := p.steps ++ [.key (names.lookup prop)] }
  | .index _ base index => do
    let p ← place names held base
    let k ← eval names held index
    let k ← key k index.span
    pure { p with steps := p.steps ++ [.key k] }
  | .call site (.member _ base prop) [index] =>
    if names.lookup prop = "get" then do
      let p ← place names held base
      let k ← eval names held index
      let k ← key k index.span
      pure { p with steps := p.steps ++ [.entry k] }
    else fail .notAPlace site.span
  | e => fail .notAPlace e.span

end

mutual

def exec (names : NameTable) (held : List Value) : Stmt → Run Flow
  | .expr _ value => do
    let _ ← eval names held value
    pure .next
  | .declare _ name assignable initial => do
    let v ← match initial with
      | some e => eval names held e
      | none => pure .undefined
    define name v assignable
    pure .next
  | .ret _ value => do
    match value with
    | some e => do
      let _ ← eval names held e
      pure .returned
    | none => pure .returned
  | .block _ _ body => inScope (execList names held body)
  | .empty _ => pure .next

/-- Executes statements up to the first one that returns. -/
def execList (names : NameTable) (held : List Value) : List Stmt → Run Flow
  | [] => pure .next
  | s :: rest => do
    match ← exec names held s with
    | .returned => pure .returned
    | .next => execList names held rest

end

def execBody (names : NameTable) (held : List Value) : ProcedureBody → Run Flow
  | .expr value => do
    let _ ← eval names held value
    pure .next
  | .block _ body => inScope (execList names held body)

end Run

namespace Procedure

/-- The outermost scope of a run: the captures whose names occur in the text. -/
def captureScope (p : Procedure) (captures : List (String × Value)) : Scope :=
  captures.foldl (fun s (text, v) =>
    match p.names.get? text with
    | some name => s.put name ⟨v, false⟩
    | none => s) []

/-- The scope of the parameters. A second parameter without an argument is undefined. -/
def parameterScope (p : Procedure) (state : Value) (arg : Option Value) : Scope :=
  match p.params with
  | [] => []
  | [s] => [(s.name, ⟨state, true⟩)]
  | s :: a :: _ =>
    Scope.put a.name ⟨arg.getD .undefined, true⟩ [(s.name, ⟨state, true⟩)]

/-- The argument of a procedure that has no parameter for it. Nobody can reach it, but it is held
until the procedure ends. -/
def spareArgument (p : Procedure) (arg : Option Value) : List Value :=
  match p.params with
  | [_] => arg.toList
  | _ => []

def initial (p : Procedure) (captures : List (String × Value)) (state : Value)
    (arg : Option Value) (st : Store) : Machine :=
  ⟨st, [p.parameterScope state arg, p.captureScope captures], []⟩

/-- Executes the body of a procedure on a state. `held` holds the handles of the caller. -/
def execute (p : Procedure) (held : List Value) (captures : List (String × Value)) (state : Value)
    (arg : Option Value) (st : Store) : EStateM.Result EvalError Machine Flow :=
  Run.execBody p.names (p.spareArgument arg ++ held) p.body (p.initial captures state arg st)

/-- Runs a procedure on a state. The result is what the state parameter holds in the end; a
procedure without parameters leaves the state as it is. -/
def run (p : Procedure) (held : List Value) (captures : List (String × Value)) (state : Value)
    (arg : Option Value) (st : Store) : Except EvalError Value × Store :=
  match p.params with
  | [] => (.ok state, st)
  | s :: _ =>
    match p.execute held captures state arg st with
    | .ok _ m => (.ok (((m.scopes.find? s.name).map Binding.value).getD .undefined), m.store)
    | .error e m => (.error e, m.store)

end Procedure

end PathCopy
