import Reachability.Text.Concealed

/-! Text between double quotes, with escapes for what could not be read back.

A backslash and a double quote are written behind a backslash, the usual control
characters by their letters, and every other concealed character by its number in
hexadecimal. A single quote stands for itself. -/
namespace Reachability.Text.Quoted

def byNumber (c : Char) : List Char :=
  ['\\', 'u', '\x7b'] ++ Nat.toDigits 16 c.toNat ++ ['\x7d']

def escape (c : Char) : List Char :=
  if c = '\x00' then ['\\', '0']
  else if c = '\t' then ['\\', 't']
  else if c = '\r' then ['\\', 'r']
  else if c = '\n' then ['\\', 'n']
  else if c = '\\' then ['\\', '\\']
  else if c = '"' then ['\\', '"']
  else if isConcealed c then byNumber c
  else [c]

def encode (s : String) : String :=
  String.ofList (['"'] ++ s.toList.flatMap escape ++ ['"'])

end Reachability.Text.Quoted
