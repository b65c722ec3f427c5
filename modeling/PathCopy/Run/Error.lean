import PathCopy.Text.Span
import PathCopy.Value.Write

/-!
Why a running procedure stops.
-/

namespace PathCopy

inductive EvalFault
  | undefinedVariable (name : String)
  | immutableBinding (name : String)
  | sharedWrite
  | frozenWrite
  | write (error : WriteError)
  | readOfNullish (key : String) (found : Kind)
  | unknownMethod (method : String) (receiver : Kind) (arity : Nat)
  | notCallable
  | notAPlace
  | invalidKey (found : Kind)
  deriving DecidableEq

/-- A refused write. Writes to frozen and to shared nodes are faults of their own. -/
def EvalFault.ofWrite : WriteError → EvalFault
  | .frozen => frozenWrite
  | .shared => sharedWrite
  | error => write error

def EvalFault.message : EvalFault → String
  | undefinedVariable name => "`" ++ name ++ "` is not defined"
  | immutableBinding name =>
    "cannot assign to `" ++ name ++ "`, it was declared with `const`"
  | sharedWrite => "write reaches a node shared with the original state; "
      ++ "only paths known before the update can be written"
  | frozenWrite => "write reaches a frozen node"
  | write error => error.message
  | readOfNullish key found => "cannot read `" ++ key ++ "` of " ++ found.text
  | unknownMethod method receiver arity =>
    receiver.text ++ " has no method `" ++ method ++ "` taking " ++ toString arity ++ " argument(s)"
  | notCallable => "only methods can be called"
  | notAPlace => "writes must go through a variable or one of its fields"
  | invalidKey found => "a " ++ found.text ++ " cannot be used as a key"

/-- A fault with the expression at which it arose. -/
structure EvalError where
  fault : EvalFault
  span : Span
  deriving DecidableEq

def EvalError.message (e : EvalError) : String := e.fault.message

end PathCopy
