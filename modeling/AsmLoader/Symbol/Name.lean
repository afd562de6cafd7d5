/-!
# Names

The characters of a name, and which texts are names. A name is what source text can mention as
one word that is not a number.
-/

namespace AsmLoader.Symbol

def isLetter (c : Char) : Bool :=
  ('a' ≤ c && c ≤ 'z') || ('A' ≤ c && c ≤ 'Z')

def isDigit (c : Char) : Bool :=
  '0' ≤ c && c ≤ '9'

/-- A character that can stand in a name: an ASCII letter or digit, or one of five marks. -/
def isNameChar (c : Char) : Bool :=
  isLetter c || isDigit c || c == '_' || c == '.' || c == '@' || c == '?' || c == '$'

/-- A text that is one word of a source and does not start as a number does. -/
def isName : List Char → Bool
  | [] => false
  | c :: rest => isNameChar c && !isDigit c && rest.all isNameChar

def isValidName (name : String) : Bool :=
  isName name.toList

theorem all_isNameChar_of_isName {cs : List Char} (h : isName cs) : ∀ c ∈ cs, isNameChar c := by
  cases cs with
  | nil => simp [isName] at h
  | cons c rest =>
    simp only [isName, Bool.and_eq_true, List.all_eq_true] at h
    simpa [h.1.1] using h.2

end AsmLoader.Symbol
