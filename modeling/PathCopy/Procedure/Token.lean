import PathCopy.Text.Span
import PathCopy.Procedure.Name

/-!
The tokens of a procedure's source. Words and symbols are closed types, so the tables of their
texts can be searched in both directions.
-/

namespace PathCopy

inductive Keyword
  | trueWord | falseWord | nullWord | undefinedWord | functionWord
  | letWord | constWord | varWord | returnWord
  | ifWord | elseWord | forWord | whileWord | doWord | switchWord | breakWord | continueWord
  | newWord | thisWord | classWord | throwWord | tryWord
  deriving DecidableEq

namespace Keyword

def text : Keyword → String
  | trueWord => "true"
  | falseWord => "false"
  | nullWord => "null"
  | undefinedWord => "undefined"
  | functionWord => "function"
  | letWord => "let"
  | constWord => "const"
  | varWord => "var"
  | returnWord => "return"
  | ifWord => "if"
  | elseWord => "else"
  | forWord => "for"
  | whileWord => "while"
  | doWord => "do"
  | switchWord => "switch"
  | breakWord => "break"
  | continueWord => "continue"
  | newWord => "new"
  | thisWord => "this"
  | classWord => "class"
  | throwWord => "throw"
  | tryWord => "try"

def used : List Keyword :=
  [trueWord, falseWord, nullWord, undefinedWord, functionWord, letWord, constWord, varWord,
    returnWord]

/-- The words that are recognised only to be refused. -/
def reserved : List Keyword :=
  [ifWord, elseWord, forWord, whileWord, doWord, switchWord, breakWord, continueWord, newWord,
    thisWord, classWord, throwWord, tryWord]

def all : List Keyword := used ++ reserved

def isReserved (k : Keyword) : Bool := reserved.contains k

def ofText? (text : String) : Option Keyword := all.find? (·.text == text)

end Keyword

inductive Symbol
  | lparen | rparen | lbrace | rbrace | lbracket | rbracket
  | comma | colon | semicolon | dot | arrow
  | assign | plusAssign | minusAssign | starAssign | slashAssign | percentAssign
  | plusPlus | minusMinus
  | plus | minus | star | slash | percent | bang
  deriving DecidableEq

namespace Symbol

def chars : Symbol → List Char
  | lparen => ['(']
  | rparen => [')']
  | lbrace => ['{']
  | rbrace => ['}']
  | lbracket => ['[']
  | rbracket => [']']
  | comma => [',']
  | colon => [':']
  | semicolon => [';']
  | dot => ['.']
  | arrow => ['=', '>']
  | assign => ['=']
  | plusAssign => ['+', '=']
  | minusAssign => ['-', '=']
  | starAssign => ['*', '=']
  | slashAssign => ['/', '=']
  | percentAssign => ['%', '=']
  | plusPlus => ['+', '+']
  | minusMinus => ['-', '-']
  | plus => ['+']
  | minus => ['-']
  | star => ['*']
  | slash => ['/']
  | percent => ['%']
  | bang => ['!']

def text (s : Symbol) : String := String.ofList s.chars

def all : List Symbol :=
  [lparen, rparen, lbrace, rbrace, lbracket, rbracket, comma, colon, semicolon, dot, arrow,
    assign, plusAssign, minusAssign, starAssign, slashAssign, percentAssign, plusPlus, minusMinus,
    plus, minus, star, slash, percent, bang]

def ofPair? : Char → Char → Option Symbol
  | '=', '>' => some arrow
  | '+', '=' => some plusAssign
  | '-', '=' => some minusAssign
  | '*', '=' => some starAssign
  | '/', '=' => some slashAssign
  | '%', '=' => some percentAssign
  | '+', '+' => some plusPlus
  | '-', '-' => some minusMinus
  | _, _ => none

def ofChar? : Char → Option Symbol
  | '(' => some lparen
  | ')' => some rparen
  | '{' => some lbrace
  | '}' => some rbrace
  | '[' => some lbracket
  | ']' => some rbracket
  | ',' => some comma
  | ':' => some colon
  | ';' => some semicolon
  | '.' => some dot
  | '=' => some assign
  | '+' => some plus
  | '-' => some minus
  | '*' => some star
  | '/' => some slash
  | '%' => some percent
  | '!' => some bang
  | _ => none

end Symbol

/-- What a token is. A number is kept as the bits of its double, so that equal kinds are
identical. -/
inductive TokenKind
  | number (bits : UInt64)
  | string (text : Name)
  | ident (name : Name)
  | keyword (word : Keyword)
  | symbol (symbol : Symbol)
  | invalid
  | endOfInput
  deriving DecidableEq

namespace TokenKind

def keywordText? : TokenKind → Option String
  | keyword k => some k.text
  | _ => none

def isReserved : TokenKind → Bool
  | keyword k => k.isReserved
  | _ => false

def describe : TokenKind → String
  | number _ => "number"
  | string _ => "string"
  | ident _ => "identifier"
  | keyword k => k.text
  | symbol s => "`" ++ s.text ++ "`"
  | invalid => "invalid token"
  | endOfInput => "end of input"

/-- The kinds that carry no payload, in their fixed order. -/
def plain : List TokenKind :=
  Keyword.all.map keyword ++ Symbol.all.map symbol ++ [invalid, endOfInput]

end TokenKind

structure Token where
  kind : TokenKind
  span : Span
  deriving DecidableEq

end PathCopy
