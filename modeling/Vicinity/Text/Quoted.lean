import Vicinity.Text.Unprintable

/-!
# Quoted text

Text between double quotes in which every character can be told apart: quotes,
backslashes and the common controls are escaped by a letter, and characters
that do not stand for themselves by their number.
-/

set_option autoImplicit false

namespace Vicinity.Quoted

def escape (c : Char) : List Char :=
  match c with
  | '"' => ['\\', '"']
  | '\\' => ['\\', '\\']
  | '\t' => ['\\', 't']
  | '\r' => ['\\', 'r']
  | '\n' => ['\\', 'n']
  | '\x00' => ['\\', '0']
  | c =>
    if Unprintable.contains c then
      ['\\', 'u', '\x7b'] ++ Nat.toDigits 16 c.toNat ++ ['\x7d']
    else [c]

def encode (s : String) : String :=
  String.ofList ('"' :: s.toList.flatMap escape ++ ['"'])

end Vicinity.Quoted
