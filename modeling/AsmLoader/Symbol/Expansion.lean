import AsmLoader.Symbol.Table
import AsmLoader.Text.Numeral
/-!
# Expansion

Replaces each word of a source that a table knows by its value, written in hexadecimal. A source
is first cut into pieces: words are the longest runs of name characters outside quotes and
comments, and all else is kept as it is. A comment runs from a semicolon to the end of its line;
a quoted text to the same quote or, if that does not follow on the line, to the end of the line.
-/

namespace AsmLoader.Symbol

inductive Piece where
  | word (cs : List Char)
  | verbatim (cs : List Char)
  deriving DecidableEq, Repr

/-- What follows an opening quote up to and with the closing quote, or up to the end of the line,
and the rest of the text. -/
def quotedSpan (quote : Char) : List Char → List Char × List Char
  | [] => ([], [])
  | c :: rest =>
    if c = quote then ([c], rest)
    else if c = '\n' then ([], c :: rest)
    else
      let (body, after) := quotedSpan quote rest
      (c :: body, after)

theorem quotedSpan_append (quote : Char) (cs : List Char) :
    (quotedSpan quote cs).1 ++ (quotedSpan quote cs).2 = cs := by
  induction cs with
  | nil => rfl
  | cons c rest ih =>
    unfold quotedSpan
    split
    · simp
    · split
      · simp
      · simp [ih]

theorem length_quotedSpan_le (quote : Char) (cs : List Char) :
    (quotedSpan quote cs).2.length ≤ cs.length := by
  conv => rhs; rw [← quotedSpan_append quote cs]
  simp

theorem length_dropWhile_le (p : Char → Bool) (cs : List Char) :
    (cs.dropWhile p).length ≤ cs.length :=
  (List.dropWhile_suffix p).length_le

def pieces (cs : List Char) : List Piece :=
  match cs with
  | [] => []
  | c :: rest =>
    if c = ';' then
      .verbatim (c :: rest.takeWhile (· ≠ '\n')) :: pieces (rest.dropWhile (· ≠ '\n'))
    else if c = '\'' ∨ c = '"' then
      .verbatim (c :: (quotedSpan c rest).1) :: pieces (quotedSpan c rest).2
    else if isNameChar c then
      .word (c :: rest.takeWhile isNameChar) :: pieces (rest.dropWhile isNameChar)
    else
      .verbatim [c] :: pieces rest
termination_by cs.length
decreasing_by
  · exact Nat.lt_succ_of_le (length_dropWhile_le _ rest)
  · exact Nat.lt_succ_of_le (length_quotedSpan_le c rest)
  · exact Nat.lt_succ_of_le (length_dropWhile_le _ rest)
  · exact Nat.lt_succ_self _

def renderAddress (value : UInt64) : String :=
  "0x" ++ Text.hexUpper value.toNat

namespace Table

def expandPiece (t : Table) : Piece → List Char
  | .verbatim cs => cs
  | .word cs =>
    match t.find? (String.ofList cs) with
    | some value => (renderAddress value).toList
    | none => cs

def expand (t : Table) (cs : List Char) : List Char :=
  (pieces cs).flatMap t.expandPiece

def expandString (t : Table) (source : String) : String :=
  String.ofList (t.expand source.toList)

end Table

end AsmLoader.Symbol
