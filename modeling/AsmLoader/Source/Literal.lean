import AsmLoader.Symbol.Name
import AsmLoader.Text.Numeral
/-!
# Number literals

The words of a source that are numbers: decimal, hexadecimal after `0x` or `$` or before `h`,
binary after `0b` or before `b`, in letters of any case. A number has 64 bits and is read as
signed.
-/

namespace AsmLoader.Source

def readMarked? (word : List Char) : Option UInt64 :=
  if word.getLast? = some 'h' then Text.readUInt64? 16 word.dropLast
  else match word with
    | '0' :: 'b' :: digits => Text.readUInt64? 2 digits
    | word =>
      if word.getLast? = some 'b' then Text.readUInt64? 2 word.dropLast
      else Text.readUInt64? 10 word

def readLower? : List Char → Option UInt64
  | '0' :: 'x' :: digits => Text.readUInt64? 16 digits
  | '$' :: digits => Text.readUInt64? 16 digits
  | c :: rest => if Symbol.isDigit c then readMarked? (c :: rest) else none
  | [] => none

def readLiteral? (word : List Char) : Option Int64 :=
  (readLower? (word.map Char.toLower)).map UInt64.toInt64

example : readLiteral? "0FFh".toList = some 255 ∧ readLiteral? "101010b".toList = some 42 := by
  decide +kernel
example : readLiteral? "0xFFFFFFFFFFFFFFFF".toList = some (-1) := by decide +kernel
example : readLiteral? "12x".toList = none := by decide +kernel

end AsmLoader.Source
