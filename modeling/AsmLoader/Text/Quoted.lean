import AsmLoader.Text.Numeral
import AsmLoader.Text.Printable
/-!
# Quoted text

A text between double quotes in which every character can be seen: quotes and backslashes have a
backslash before them, a few controls have a letter of their own, and a character that cannot be
printed is written by its code point.
-/

namespace AsmLoader.Text

def quotedChar (c : Char) : List Char :=
  if c = '\x00' then ['\\', '0']
  else if c = '\t' then ['\\', 't']
  else if c = '\r' then ['\\', 'r']
  else if c = '\n' then ['\\', 'n']
  else if c = '\\' ∨ c = '"' then ['\\', c]
  else if isPrintable c then [c]
  else ['\\', 'u', '\x7b'] ++ (hexDigits c.toNat).map Char.toLower ++ ['\x7d']

def quoted (s : String) : String :=
  String.ofList (['"'] ++ s.toList.flatMap quotedChar ++ ['"'])

end AsmLoader.Text
