import PathCopy.Number.Numeral
import PathCopy.Path.Basic
import PathCopy.Procedure.Basic

/-!
The writes of a procedure, read off its text. A write goes through a chain of accesses that starts
at the state parameter: an assignment to such a chain, or a `set` or `delete` call on one. Every key
along the chain has to be known from the text or from the argument; a write that is not of this
form is refused, and the first one refused in reading order is reported.
-/

namespace PathCopy

/-- Why the writes of a procedure cannot be known before it runs. -/
inductive AnalysisError
  | tooManyParameters (count : Nat) (span : Span)
  | missingStateParameter (span : Span)
  | duplicateParameter (name : String) (span : Span)
  | compoundAssignment (operator : Symbol) (span : Span)
  | unanalyzableKey (key : String) (span : Span)
  | unsupportedCall (method : String) (arity : Nat) (span : Span)
  | shadowedParameter (name : String) (span : Span)
  | stateReassignment (span : Span)
  deriving DecidableEq

namespace AnalysisError

def span : AnalysisError → Span
  | tooManyParameters _ span | missingStateParameter span | duplicateParameter _ span
  | compoundAssignment _ span | unanalyzableKey _ span | unsupportedCall _ _ span
  | shadowedParameter _ span | stateReassignment span => span

def message : AnalysisError → String
  | tooManyParameters count _ =>
    "too many parameters: expected at most 2 (state, args), found " ++ toString count
  | missingStateParameter _ => "a state parameter is required"
  | duplicateParameter name _ => "parameter `" ++ name ++ "` is declared twice"
  | compoundAssignment operator _ => "unsupported assignment operator `" ++ operator.text ++ "`"
  | unanalyzableKey key _ => "cannot determine key `" ++ key ++ "` before running the procedure"
  | unsupportedCall method arity _ =>
    "unsupported call `" ++ method ++ "` with " ++ toString arity
      ++ " argument(s); only get/1, set/2 and delete/1 are allowed on state"
  | shadowedParameter name _ => "`" ++ name ++ "` shadows a procedure parameter"
  | stateReassignment _ => "the state parameter itself cannot be reassigned"

def label : AnalysisError → String
  | tooManyParameters .. => "extra parameter"
  | missingStateParameter .. => "no parameters declared"
  | duplicateParameter .. => "declared again here"
  | compoundAssignment .. => "use a plain `=` assignment"
  | unanalyzableKey .. => "keys must be literals, the args parameter, or a field of it"
  | unsupportedCall .. => "called on state here"
  | shadowedParameter .. => "shadowing declaration"
  | stateReassignment .. => "assigns the state parameter"

end AnalysisError

structure Roles where
  state : Name
  args : Option Name
  deriving DecidableEq

namespace Roles

def isArgs (roles : Roles) (name : Name) : Bool := roles.args == some name

def isParameter (roles : Roles) (name : Name) : Bool := name == roles.state || roles.isArgs name

end Roles

/-- The parameters of a procedure in their roles: one or two, with different names. -/
def Procedure.roles (p : Procedure) : Except AnalysisError Roles :=
  match p.params with
  | [] => .error (.missingStateParameter p.span)
  | [state] => .ok ⟨state.name, none⟩
  | [state, args] =>
    if state.name = args.name then .error (.duplicateParameter (p.nameText args.name) args.span)
    else .ok ⟨state.name, some args.name⟩
  | _ :: _ :: extra :: _ => .error (.tooManyParameters p.params.length extra.span)

namespace Procedure

/-- The segment that a key expression stands for, if it is a literal, the argument, or a field of
the argument. -/
def segment? (p : Procedure) (roles : Roles) : Expr → Option Segment
  | .number _ bits => some (.key (Number.keyText (Float.ofBits bits)))
  | .string _ text => some (.key (p.nameText text))
  | .ident _ name => if roles.isArgs name then some .whole else none
  | .member _ (.ident _ name) property =>
    if roles.isArgs name then some (.named (p.nameText property)) else none
  | .index _ (.ident _ name) (.string _ text) =>
    if roles.isArgs name then some (.named (p.nameText text)) else none
  | .index _ (.ident _ name) (.number _ bits) =>
    if roles.isArgs name then some (.named (Number.keyText (Float.ofBits bits))) else none
  | _ => none

def segment (p : Procedure) (roles : Roles) (key : Expr) : Except AnalysisError Segment :=
  match p.segment? roles key with
  | some s => .ok s
  | none => .error (.unanalyzableKey (p.snippet key.span) key.span)

/-- The segments of a chain of accesses that starts at the state, in the order in which they are
followed. A chain that starts elsewhere has none. The only call inside a chain is `get` with one
argument. -/
def stateChain (p : Procedure) (roles : Roles) : Expr → Except AnalysisError (Option (List Segment))
  | .ident _ name => .ok (if name = roles.state then some [] else none)
  | .member _ base property => do
    match ← p.stateChain roles base with
    | none => .ok none
    | some segments => .ok (some (segments ++ [.key (p.nameText property)]))
  | .index _ base key => do
    match ← p.stateChain roles base with
    | none => .ok none
    | some segments => do
      let s ← p.segment roles key
      .ok (some (segments ++ [s]))
  | .call site (.member _ base property) args => do
    match ← p.stateChain roles base with
    | none => .ok none
    | some segments =>
      match p.nameText property, args with
      | "get", [key] => do
        let s ← p.segment roles key
        .ok (some (segments ++ [s]))
      | method, args => .error (.unsupportedCall method args.length site.span)
  | .call site callee args => do
    match ← p.stateChain roles callee with
    | none => .ok none
    | some _ => .error (.unsupportedCall (p.snippet callee.span) args.length site.span)
  | _ => .ok none

/-- The write that a call makes by itself, its operands apart. -/
def callWrites (p : Procedure) (roles : Roles) (site : Site) (callee : Expr) (args : List Expr) :
    Except AnalysisError (List WritePath) :=
  match callee with
  | .member _ base property => do
    match ← p.stateChain roles base with
    | none => .ok []
    | some segments =>
      match p.nameText property, args with
      | "get", [_] => .ok []
      | "set", [key, _] => do
        let s ← p.segment roles key
        .ok [⟨segments ++ [s], .mapSet⟩]
      | "delete", [key] => do
        let s ← p.segment roles key
        .ok [⟨segments ++ [s], .mapDelete⟩]
      | method, args => .error (.unsupportedCall method args.length site.span)
  | callee => do
    match ← p.stateChain roles callee with
    | none => .ok []
    | some _ => .error (.unsupportedCall (p.snippet callee.span) args.length site.span)

mutual

/-- The writes of an expression in reading order. -/
def exprWrites (p : Procedure) (roles : Roles) : Expr → Except AnalysisError (List WritePath)
  | .number .. | .string .. | .bool .. | .null .. | .undefined .. | .ident .. => .ok []
  | .member _ base _ => p.exprWrites roles base
  | .index _ base key => do
    let ws ← p.exprWrites roles base
    let vs ← p.exprWrites roles key
    .ok (ws ++ vs)
  | .call site callee args => do
    let own ← p.callWrites roles site callee args
    let ws ← p.exprWrites roles callee
    let vs ← p.listWrites roles args
    .ok (own ++ ws ++ vs)
  | .assign site op target value => do
    match ← p.stateChain roles target with
    | some segments =>
      if op ≠ .plain then .error (.compoundAssignment op.symbol site.span)
      else if segments = [] then .error (.stateReassignment site.span)
      else do
        let vs ← p.exprWrites roles value
        .ok (⟨segments, .assign⟩ :: vs)
    | none => do
      let ws ← p.exprWrites roles target
      let vs ← p.exprWrites roles value
      .ok (ws ++ vs)
  | .step site op _ target => do
    match ← p.stateChain roles target with
    | some _ => .error (.compoundAssignment op.symbol site.span)
    | none => p.exprWrites roles target
  | .binary _ _ left right => do
    let ws ← p.exprWrites roles left
    let vs ← p.exprWrites roles right
    .ok (ws ++ vs)
  | .unary _ _ operand => p.exprWrites roles operand
  | .array _ items => p.listWrites roles items
  | .object _ entries => p.entriesWrites roles entries

def listWrites (p : Procedure) (roles : Roles) :
    List Expr → Except AnalysisError (List WritePath)
  | [] => .ok []
  | e :: es => do
    let ws ← p.exprWrites roles e
    let vs ← p.listWrites roles es
    .ok (ws ++ vs)

def entriesWrites (p : Procedure) (roles : Roles) :
    List Property → Except AnalysisError (List WritePath)
  | [] => .ok []
  | .entry _ _ value :: es => do
    let ws ← p.exprWrites roles value
    let vs ← p.entriesWrites roles es
    .ok (ws ++ vs)

end

def optionWrites (p : Procedure) (roles : Roles) :
    Option Expr → Except AnalysisError (List WritePath)
  | none => .ok []
  | some e => p.exprWrites roles e

mutual

/-- The writes of a statement in reading order. No declaration may hide a parameter. -/
def stmtWrites (p : Procedure) (roles : Roles) : Stmt → Except AnalysisError (List WritePath)
  | .expr _ value => p.exprWrites roles value
  | .declare span name _ initial =>
    if roles.isParameter name then .error (.shadowedParameter (p.nameText name) span)
    else p.optionWrites roles initial
  | .ret _ value => p.optionWrites roles value
  | .block _ _ body => p.stmtsWrites roles body
  | .empty _ => .ok []

def stmtsWrites (p : Procedure) (roles : Roles) :
    List Stmt → Except AnalysisError (List WritePath)
  | [] => .ok []
  | s :: rest => do
    let ws ← p.stmtWrites roles s
    let vs ← p.stmtsWrites roles rest
    .ok (ws ++ vs)

end

def bodyWrites (p : Procedure) (roles : Roles) : Except AnalysisError (List WritePath) :=
  match p.body with
  | .expr value => p.exprWrites roles value
  | .block _ body => p.stmtsWrites roles body

/-- The write paths of a procedure, each once, in the order of their first appearance. -/
def writePaths (p : Procedure) : Except AnalysisError (List WritePath) := do
  let roles ← p.roles
  let writes ← p.bodyWrites roles
  .ok writes.eraseDups

/-! ### Keys -/

section Keys

variable {p : Procedure} {roles : Roles} {e : Expr}

theorem exprWrites_of_segment? {s : Segment} (h : p.segment? roles e = some s) :
    p.exprWrites roles e = .ok [] := by
  unfold segment? at h
  split at h
  · rw [exprWrites]
  · rw [exprWrites]
  · rw [exprWrites]
  · rw [exprWrites, exprWrites]
  · rw [exprWrites, exprWrites, exprWrites]
    rfl
  · rw [exprWrites, exprWrites, exprWrites]
    rfl
  · simp at h

end Keys

end Procedure

end PathCopy
