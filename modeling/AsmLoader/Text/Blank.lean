/-!
# Blank characters

The characters that separate words, and a text without those at its two ends. The class is the
Unicode property `White_Space`, so it holds more than the characters a keyboard writes.
-/

namespace AsmLoader.Text

/-- A character with the Unicode property `White_Space`. -/
def isBlank (c : Char) : Bool :=
  let n := c.toNat
  (0x09 ≤ n && n ≤ 0x0D) || n == 0x20 || n == 0x85 || n == 0xA0 || n == 0x1680 ||
    (0x2000 ≤ n && n ≤ 0x200A) || n == 0x2028 || n == 0x2029 || n == 0x202F ||
    n == 0x205F || n == 0x3000

def trimStart (cs : List Char) : List Char :=
  cs.dropWhile isBlank

def trim (cs : List Char) : List Char :=
  (trimStart (trimStart cs).reverse).reverse

def trimString (s : String) : String :=
  String.ofList (trim s.toList)

example : trimString " \t a b\u3000\r" = "a b" := by decide +kernel

end AsmLoader.Text
