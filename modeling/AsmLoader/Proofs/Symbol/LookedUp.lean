import AsmLoader.Proofs.Symbol.Expansion
/-!
# Names that are looked up

The names that expansion replaces are the words of sources. Every valid name is one; but a text
that starts with a digit, which is no valid name, may be one as well, and then an entry for it
rewrites numbers.
-/

namespace AsmLoader.Symbol

/-- A text that is one word of a source and starts as a number does. -/
def isNumberWord : List Char → Bool
  | [] => false
  | c :: rest => isDigit c && rest.all isNameChar

theorem isNameChar_of_isDigit {c : Char} (h : isDigit c) : isNameChar c := by
  simp [isNameChar, h]

/-- A word starts with a digit, or it is a valid name. -/
theorem isWord_iff (cs : List Char) : IsWord cs ↔ isName cs ∨ isNumberWord cs := by
  cases cs with
  | nil =>
      constructor
      · intro h
        exact absurd rfl h.ne_nil
      · simp [isName, isNumberWord]
  | cons c rest =>
      have hword : IsWord (c :: rest) ↔ isNameChar c ∧ rest.all isNameChar := by
        constructor
        · intro h
          refine ⟨h.isNameChar c List.mem_cons_self, List.all_eq_true.mpr fun d hd => ?_⟩
          exact h.isNameChar d (List.mem_cons_of_mem c hd)
        · rintro ⟨hc, hrest⟩
          exact ⟨List.cons_ne_nil c rest, List.forall_mem_cons.mpr
            ⟨hc, List.all_eq_true.mp hrest⟩⟩
      rw [hword]
      by_cases hdigit : isDigit c
      · simp [isName, isNumberWord, hdigit, isNameChar_of_isDigit hdigit]
      · simp [isName, isNumberWord, hdigit]

namespace Table

variable (t : Table)

theorem renderAddress_ne {name : String} (h : isValidName name) (value : UInt64) :
    renderAddress value ≠ name := by
  rintro rfl
  rw [isValidName_renderAddress] at h
  cases h

theorem expandPiece_insert {name : String} (value : UInt64) {word : List Char}
    (h : String.ofList word ≠ name) :
    (t.insert name value).expandPiece (.word word) = t.expandPiece (.word word) := by
  apply expandPiece_congr
  rw [find?_insert, if_neg h]

theorem toList_expandString_of_isWord {name : String} (h : IsWord name.toList) :
    (t.expandString name).toList = t.expandPiece (.word name.toList) := by
  rw [toList_expandString, expand_of_isWord _ h]

theorem expandString_insert_self {name : String} (h : IsWord name.toList) (value : UInt64) :
    (t.insert name value).expandString name = renderAddress value := by
  apply String.toList_injective
  rw [toList_expandString_of_isWord _ h, expandPiece, String.ofList_toList, find?_insert,
    if_pos rfl]

theorem expandString_insert_of_not_isWord {name : String} (h : ¬IsWord name.toList)
    (value : UInt64)
    (source : String) : (t.insert name value).expandString source = t.expandString source := by
  apply String.toList_injective
  rw [toList_expandString, toList_expandString]
  apply expand_congr
  intro word hword
  apply t.expandPiece_insert
  rintro rfl
  rw [String.toList_ofList] at h
  exact h (isWord_of_mem_pieces hword)

/-- An entry is of no effect if the table wrote the same for its name before. -/
theorem expandString_insert_of_eq {name : String} (h : IsWord name.toList) {value : UInt64}
    (hwritten : t.expandString name = renderAddress value) (source : String) :
    (t.insert name value).expandString source = t.expandString source := by
  apply String.toList_injective
  rw [toList_expandString, toList_expandString]
  apply expand_congr
  intro word _
  by_cases hname : String.ofList word = name
  · obtain rfl : word = name.toList := by rw [← hname, String.toList_ofList]
    rw [← toList_expandString_of_isWord _ h, ← toList_expandString_of_isWord _ h,
      expandString_insert_self _ h, hwritten]
  · exact t.expandPiece_insert value hname

/-- An entry changes no source just if its name is neither valid nor a word that starts with a
digit, or if the table wrote the same for the name before. An entry with a valid name is written
in the source that is the name alone. -/
theorem expandString_insert (name : String) (value : UInt64) :
    ((∀ source, (t.insert name value).expandString source = t.expandString source) ↔
        (isValidName name = false ∧ isNumberWord name.toList = false) ∨
          t.expandString name = renderAddress value) ∧
      (isValidName name →
        (t.insert name value).expandString name = renderAddress value ∧
          renderAddress value ≠ name) := by
  have hword := isWord_iff name.toList
  refine ⟨⟨?_, ?_⟩, ?_⟩
  · intro hsame
    by_cases h : IsWord name.toList
    · right
      rw [← hsame name, t.expandString_insert_self h]
    · left
      simpa [hword, isValidName] using h
  · rintro (⟨hvalid, hnumber⟩ | hwritten) source
    · have h : ¬IsWord name.toList := by
        rw [isValidName] at hvalid
        simp [hword, hvalid, hnumber]
      exact t.expandString_insert_of_not_isWord h value source
    · by_cases h : IsWord name.toList
      · exact t.expandString_insert_of_eq h hwritten source
      · exact t.expandString_insert_of_not_isWord h value source
  · intro hvalid
    exact ⟨t.expandString_insert_self (hword.mpr (.inl hvalid)) value,
      renderAddress_ne hvalid value⟩

/-- An entry for the number ten rewrites it, one for two words with a blank between them is never
found, and one for a valid name is written. -/
theorem expandString_insert_digits :
    (isValidName "10" = false ∧
        ¬∀ source, (empty.insert "10" 5).expandString source = empty.expandString source) ∧
      (isValidName "a b" = false ∧
        ∀ source, (empty.insert "a b" 5).expandString source = empty.expandString source) ∧
      isValidName "x" ∧ (empty.insert "x" 5).expandString "x" = "0x5" := by
  refine ⟨⟨rfl, ?_⟩, ⟨rfl, ?_⟩, rfl, ?_⟩
  · rw [(expandString_insert empty "10" 5).1]
    decide +kernel
  · rw [(expandString_insert empty "a b" 5).1]
    exact .inl ⟨rfl, rfl⟩
  · rw [((expandString_insert empty "x" 5).2 rfl).1]
    decide +kernel

end Table

end AsmLoader.Symbol
