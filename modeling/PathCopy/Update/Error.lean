import PathCopy.Path.Resolve
import PathCopy.Run.Error
import PathCopy.Update.Cache

/-!
Why an update fails.
-/

namespace PathCopy

inductive UpdateError
  | parse (error : ParseError)
  | analysis (error : AnalysisError)
  | emptyUpdate
  | argument (error : ArgumentError)
  | eval (error : EvalError)
  deriving DecidableEq

namespace UpdateError

def ofCompile : CompileError → UpdateError
  | .parse e => parse e
  | .analysis e => analysis e

/-- The place of the failure, if it lies in the text. -/
def span? : UpdateError → Option Span
  | parse e => some e.span
  | analysis e => some e.span
  | eval e => some e.span
  | emptyUpdate | argument _ => none

/-- Whether the update failed before the procedure ran. -/
def isStatic : UpdateError → Bool
  | eval _ => false
  | _ => true

def message : UpdateError → String
  | parse e => e.message
  | analysis e => e.message
  | emptyUpdate => "the procedure does not contain any assignments to its state parameter"
  | argument e => e.message
  | eval e => e.message

def label : UpdateError → String
  | parse e => e.label
  | analysis e => e.label
  | emptyUpdate => "no write through the state parameter"
  | argument _ => "called with an incompatible argument"
  | eval _ => "failed while running"

end UpdateError

end PathCopy
