import PathCopy.Procedure.Lexeme

/-!
Why a source text is no procedure.
-/

namespace PathCopy

inductive Expected
  | token (kind : TokenKind)
  | procedure
  | parameterName
  | variableName
  | propertyName
  | expression
  deriving DecidableEq

def Expected.text : Expected → String
  | token kind => kind.describe
  | procedure => "a function or arrow function"
  | parameterName => "a parameter name"
  | variableName => "a variable name"
  | propertyName => "a property name"
  | expression => "an expression"

inductive Construct
  | nestedArrow
  | nestedFunction
  | word (kind : TokenKind)
  deriving DecidableEq

def Construct.text : Construct → String
  | nestedArrow => "nested arrow function"
  | nestedFunction => "nested function"
  | word kind => kind.describe

inductive ParseError
  | lex (error : LexError)
  | unexpected (expected : Expected) (found : TokenKind) (span : Span)
  | unsupported (construct : Construct) (span : Span)
  | invalidTarget (span : Span)
  | trailingInput (span : Span)
  deriving DecidableEq

namespace ParseError

def span : ParseError → Span
  | lex error => error.span
  | unexpected _ _ span => span
  | unsupported _ span => span
  | invalidTarget span => span
  | trailingInput span => span

def message : ParseError → String
  | lex error => error.message
  | unexpected expected found _ => "expected " ++ expected.text ++ ", found " ++ found.describe
  | unsupported construct _ => "unsupported syntax: " ++ construct.text
  | invalidTarget _ => "invalid assignment target"
  | trailingInput _ => "unexpected input after the procedure"

def label : ParseError → String
  | lex _ => "here"
  | unexpected expected _ _ => "expected " ++ expected.text
  | unsupported construct _ => construct.text ++ " is not allowed in a mutation procedure"
  | invalidTarget _ => "only variables, fields and indices can be assigned"
  | trailingInput _ => "procedure already ended"

end ParseError

namespace ParseError

def found (expected : Expected) (token : Token) : ParseError :=
  .unexpected expected token.kind token.span

end ParseError

end PathCopy
