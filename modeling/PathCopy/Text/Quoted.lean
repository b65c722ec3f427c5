import PathCopy.Text.Unprintable

/-!
Quoted texts. The quote, the backslash and the common controls have short escapes; every other
unprintable character is written by its number in hexadecimal.
-/

namespace PathCopy

namespace Quoted

/-- One character between double quotes. -/
def escape (c : Char) : List Char :=
  match c with
  | '\x00' => ['\\', '0']
  | '\t' => ['\\', 't']
  | '\r' => ['\\', 'r']
  | '\n' => ['\\', 'n']
  | '"' => ['\\', '"']
  | '\\' => ['\\', '\\']
  | c =>
    if ' ' ≤ c && c ≤ '~' then [c]
    else if isUnprintable c then
      '\\' :: 'u' :: '\x7b' :: (Nat.toDigits 16 c.toNat ++ ['\x7d'])
    else [c]

def encode (text : String) : String :=
  String.ofList ('"' :: text.toList.flatMap escape ++ ['"'])

end Quoted

end PathCopy
