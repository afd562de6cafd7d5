/-!
# Lines

A text as its list of lines. A line ends at a newline, which may have one carriage return before
it; neither belongs to the line. A text that ends in a newline has no empty line after it.
-/

namespace AsmLoader.Text

def lines : List Char → List (List Char)
  | [] => []
  | '\r' :: '\n' :: rest => [] :: lines rest
  | '\n' :: rest => [] :: lines rest
  | c :: rest =>
    match lines rest with
    | [] => [[c]]
    | line :: more => (c :: line) :: more

def linesOf (s : String) : List String :=
  (lines s.toList).map String.ofList

example : linesOf "" = [] := by decide +kernel
example : linesOf "a\r\n\nb\r" = ["a", "", "b\r"] := by decide +kernel

end AsmLoader.Text
