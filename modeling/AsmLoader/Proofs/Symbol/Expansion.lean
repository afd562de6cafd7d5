import AsmLoader.Proofs.Symbol.Pieces
import AsmLoader.Proofs.Text.Numeral
import Mathlib.Data.List.Basic
/-!
# The text of an expansion

What expansion makes of a text, read from its start: a comment and a quoted text stand as they
are, a word is looked up, and any other character is copied. What is written for a word is again
a run of name characters, so that it neither joins with what follows nor falls apart.
-/

namespace AsmLoader.Symbol

theorem isNameChar_hexDigit {n : Nat} (h : n < 16) : isNameChar (Text.hexDigit n) := by
  have hall : ∀ i : Fin 16, isNameChar (Text.hexDigit i) := by decide
  exact hall ⟨n, h⟩

theorem toList_renderAddress (value : UInt64) :
    (renderAddress value).toList = '0' :: 'x' :: Text.hexDigits value.toNat := by
  simp [renderAddress, Text.hexUpper]

theorem all_isNameChar_renderAddress (value : UInt64) :
    ∀ c ∈ (renderAddress value).toList, isNameChar c := by
  rw [toList_renderAddress]
  intro c hc
  rcases List.mem_cons.mp hc with rfl | hc
  · decide
  rcases List.mem_cons.mp hc with rfl | hc
  · decide
  obtain ⟨d, hd, rfl⟩ := Text.exists_hexDigit_of_mem hc
  exact isNameChar_hexDigit hd

theorem isValidName_renderAddress (value : UInt64) : isValidName (renderAddress value) =
    false := by
  rw [isValidName, toList_renderAddress]
  simp [isName, isDigit]

theorem isWord_renderAddress (value : UInt64) : IsWord (renderAddress value).toList := by
  refine ⟨?_, all_isNameChar_renderAddress value⟩
  rw [toList_renderAddress]
  exact List.cons_ne_nil _ _

namespace Table

variable (t : Table)

/-! ## From the start of a text -/

def expandQuoted (quote : Char) (cs : List Char) : List Char :=
  (quotedSpan quote cs).1 ++ t.expand (quotedSpan quote cs).2

@[simp] theorem expand_nil : t.expand [] = [] := by
  simp [expand]

theorem expand_comment (rest : List Char) :
    t.expand (';' :: rest) =
      ';' :: rest.takeWhile (· ≠ '\n') ++ t.expand (rest.dropWhile (· ≠ '\n')) := by
  simp [expand, pieces_comment, expandPiece]

theorem expand_quote {c : Char} (hc : c = '\'' ∨ c = '"') (rest : List Char) :
    t.expand (c :: rest) = c :: t.expandQuoted c rest := by
  rw [expand, pieces_quote hc, List.flatMap_cons]
  rfl

theorem expand_word {c : Char} (hc : isNameChar c) (rest : List Char) :
    t.expand (c :: rest) =
      t.expandPiece (.word (c :: rest.takeWhile isNameChar)) ++
        t.expand (rest.dropWhile isNameChar) := by
  rw [expand, pieces_word hc, List.flatMap_cons]
  rfl

theorem expand_other {c : Char} (hcomment : c ≠ ';') (hquote : ¬(c = '\'' ∨ c = '"'))
    (hname : ¬isNameChar c) (rest : List Char) : t.expand (c :: rest) = c :: t.expand rest := by
  rw [expand, pieces_other hcomment hquote hname, List.flatMap_cons]
  rfl

theorem expandPiece_congr {t u : Table} {word : List Char}
    (h : t.find? (String.ofList word) = u.find? (String.ofList word)) :
    t.expandPiece (.word word) = u.expandPiece (.word word) := by
  rw [expandPiece, expandPiece, h]

/-- Tables that write the same for the words of a text expand it to the same. -/
theorem expand_congr {t u : Table} {cs : List Char}
    (h : ∀ word, .word word ∈ pieces cs →
      t.expandPiece (.word word) = u.expandPiece (.word word)) :
    t.expand cs = u.expand cs := by
  unfold expand
  apply List.flatMap_congr
  intro piece hpiece
  cases piece with
  | word word => exact h word hpiece
  | verbatim _ => rfl

@[simp] theorem toList_expandString (source : String) :
    (t.expandString source).toList = t.expand source.toList := by
  rw [expandString, String.toList_ofList]

/-! ## Inside quotes -/

section Quoted

variable {quote c : Char} {rest : List Char}

@[simp] theorem expandQuoted_nil : t.expandQuoted quote [] = [] := by
  simp [expandQuoted, quotedSpan]

theorem expandQuoted_cons_of_ne (hc : c ≠ quote) (hline : c ≠ '\n') :
    t.expandQuoted quote (c :: rest) = c :: t.expandQuoted quote rest := by
  simp [expandQuoted, quotedSpan, hc, hline]

theorem expandQuoted_cons_self :
    t.expandQuoted quote (quote :: rest) = quote :: t.expand rest := by
  simp [expandQuoted, quotedSpan]

end Quoted

/-! ## Words -/

theorem expandPiece_word_ne_nil {word : List Char} (h : word ≠ []) :
    t.expandPiece (.word word) ≠ [] := by
  simp only [expandPiece]
  split
  next value _ =>
    rw [toList_renderAddress]
    exact List.cons_ne_nil _ _
  next => exact h

theorem all_isNameChar_expandPiece {word : List Char} (h : ∀ c ∈ word, isNameChar c) :
    ∀ c ∈ t.expandPiece (.word word), isNameChar c := by
  simp only [expandPiece]
  split
  next value _ => exact all_isNameChar_renderAddress value
  next => exact h

theorem isWord_expandPiece {word : List Char} (h : IsWord word) :
    IsWord (t.expandPiece (.word word)) :=
  ⟨t.expandPiece_word_ne_nil h.ne_nil, t.all_isNameChar_expandPiece h.isNameChar⟩

theorem expand_word_append {word rest : List Char} (hword : IsWord word)
    (hrest : rest.head?.any isNameChar = false) :
    t.expand (word ++ rest) = t.expandPiece (.word word) ++ t.expand rest := by
  rw [expand, pieces_word_append hword hrest, List.flatMap_cons]
  rfl

theorem expand_of_isWord {word : List Char} (h : IsWord word) :
    t.expand word = t.expandPiece (.word word) := by
  have hexpand : t.expand (word ++ []) = t.expandPiece (.word word) ++ t.expand [] :=
    t.expand_word_append h rfl
  rwa [List.append_nil, expand_nil, List.append_nil] at hexpand

theorem head?_expand (cs : List Char) :
    (t.expand cs).head? = cs.head? ∨
      cs.head?.any isNameChar ∧ (t.expand cs).head?.any isNameChar := by
  cases cs with
  | nil => simp
  | cons c rest =>
      by_cases hcomment : c = ';'
      · subst hcomment
        simp [expand_comment]
      by_cases hquote : c = '\'' ∨ c = '"'
      · simp [t.expand_quote hquote]
      by_cases hname : isNameChar c
      · right
        have hword := t.isWord_expandPiece (isWord_cons_takeWhile hname rest)
        obtain ⟨d, more, heq⟩ := List.exists_cons_of_ne_nil hword.ne_nil
        have hd := hword.isNameChar d (heq ▸ List.mem_cons_self)
        rw [t.expand_word hname, heq]
        simp [hd, hname]
      · simp [t.expand_other hcomment hquote hname]

theorem head?_expand_ne {c : Char} {cs : List Char} (hc : ¬isNameChar c)
    (h : cs.head? ≠ some c) : (t.expand cs).head? ≠ some c := by
  rcases t.head?_expand cs with hsame | ⟨-, hname⟩
  · rwa [hsame]
  · intro hhead
    rw [hhead] at hname
    exact hc hname

theorem head?_any_expand_of {p : Char → Bool} (hp : ∀ c, isNameChar c → p c) (cs : List Char) :
    (t.expand cs).head?.any p = cs.head?.any p := by
  have hany {o : Option Char} (h : o.any isNameChar) : o.any p := by
    cases o with
    | none => exact h
    | some c => exact hp c h
  rcases t.head?_expand cs with hsame | ⟨hname, hname'⟩
  · rw [hsame]
  · rw [hany hname, hany hname']

theorem head?_any_expand (cs : List Char) :
    (t.expand cs).head?.any isNameChar = cs.head?.any isNameChar :=
  t.head?_any_expand_of (fun _ hc => hc) cs

end Table

end AsmLoader.Symbol
