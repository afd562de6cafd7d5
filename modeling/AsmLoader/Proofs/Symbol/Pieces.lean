import AsmLoader.Symbol.Expansion
import Mathlib.Data.List.TakeWhile
/-!
# The pieces of a text

A text is cut from its start on, and its pieces put together are the text again. A word has at
least one character, and all of its characters can stand in a name. No piece reaches over the end
of a line.
-/

namespace AsmLoader.Symbol

/-! ## Runs of characters -/

section Runs

variable {α : Type} {p : α → Bool} {xs ys : List α}

theorem head?_any_dropWhile (p : α → Bool) (xs : List α) :
    (xs.dropWhile p).head?.any p = false := by
  have hnot := List.head?_dropWhile_not p xs
  cases hhead : (xs.dropWhile p).head? <;> simp_all

theorem takeWhile_append_of_head? (hxs : ∀ x ∈ xs, p x) (hys : ys.head?.any p = false) :
    (xs ++ ys).takeWhile p = xs := by
  rw [List.takeWhile_append_of_pos hxs]
  cases ys <;> simp_all

theorem dropWhile_append_of_head? (hxs : ∀ x ∈ xs, p x) (hys : ys.head?.any p = false) :
    (xs ++ ys).dropWhile p = ys := by
  rw [List.dropWhile_append_of_pos hxs]
  cases ys <;> simp_all

theorem takeWhile_append_cons {y : α} (hy : p y = false) :
    (xs ++ y :: ys).takeWhile p = xs.takeWhile p := by
  induction xs with
  | nil => simp [hy]
  | cons x xs ih => simp [List.takeWhile_cons, ih]

theorem dropWhile_append_cons {y : α} (hy : p y = false) :
    (xs ++ y :: ys).dropWhile p = xs.dropWhile p ++ y :: ys := by
  induction xs with
  | nil => simp [hy]
  | cons x xs ih =>
      rw [List.cons_append, List.dropWhile_cons, List.dropWhile_cons, ih]
      split <;> rfl

end Runs

/-! ## From the start of a text -/

section Start

variable {c : Char} {rest : List Char}

theorem not_isNameChar_of_quote (h : c = '\'' ∨ c = '"') : ¬isNameChar c := by
  rcases h with rfl | rfl <;> decide

theorem ne_semicolon_of_isNameChar (h : isNameChar c) : c ≠ ';' := by
  rintro rfl
  revert h
  decide

@[simp] theorem pieces_nil : pieces [] = [] := by
  rw [pieces]

theorem pieces_comment (rest : List Char) :
    pieces (';' :: rest) =
      .verbatim (';' :: rest.takeWhile (· ≠ '\n')) :: pieces (rest.dropWhile (· ≠ '\n')) := by
  rw [pieces, if_pos rfl]

theorem pieces_quote (hc : c = '\'' ∨ c = '"') (rest : List Char) :
    pieces (c :: rest) = .verbatim (c :: (quotedSpan c rest).1) :: pieces
      (quotedSpan c rest).2 := by
  have hcomment : c ≠ ';' := by rcases hc with rfl | rfl <;> decide
  rw [pieces, if_neg hcomment, if_pos hc]

theorem pieces_word (hc : isNameChar c) (rest : List Char) :
    pieces (c :: rest) =
      .word (c :: rest.takeWhile isNameChar) :: pieces (rest.dropWhile isNameChar) := by
  have hquote : ¬(c = '\'' ∨ c = '"') := fun hq => not_isNameChar_of_quote hq hc
  rw [pieces, if_neg (ne_semicolon_of_isNameChar hc), if_neg hquote, if_pos hc]

theorem pieces_other (hcomment : c ≠ ';')
    (hquote : ¬(c = '\'' ∨ c = '"')) (hname : ¬isNameChar c)
    (rest : List Char) : pieces (c :: rest) = .verbatim [c] :: pieces rest := by
  rw [pieces, if_neg hcomment, if_neg hquote, if_neg hname]

end Start

/-! ## The whole text -/

def Piece.text : Piece → List Char
  | .word cs => cs
  | .verbatim cs => cs

theorem flatMap_text_pieces (cs : List Char) : (pieces cs).flatMap Piece.text = cs := by
  induction cs using pieces.induct with
  | case1 => rw [pieces_nil, List.flatMap_nil]
  | case2 rest ih =>
      rw [pieces_comment, List.flatMap_cons, ih, Piece.text, List.cons_append,
        List.takeWhile_append_dropWhile]
  | case3 c rest _ hquote ih =>
      rw [pieces_quote hquote, List.flatMap_cons, ih, Piece.text, List.cons_append,
        quotedSpan_append]
  | case4 c rest _ _ hname ih =>
      rw [pieces_word hname, List.flatMap_cons, ih, Piece.text, List.cons_append,
        List.takeWhile_append_dropWhile]
  | case5 c rest hcomment hquote hname ih =>
      rw [pieces_other hcomment hquote hname, List.flatMap_cons, ih]
      rfl

/-! ## Words -/

structure IsWord (cs : List Char) : Prop where
  ne_nil : cs ≠ []
  isNameChar : ∀ c ∈ cs, isNameChar c

theorem IsWord.not_mem {cs : List Char} (h : IsWord cs) {c : Char}
    (hc : ¬Symbol.isNameChar c) : c ∉ cs :=
  fun hmem => hc (h.isNameChar c hmem)

theorem isWord_of_isName {cs : List Char} (h : isName cs) : IsWord cs := by
  refine ⟨?_, all_isNameChar_of_isName h⟩
  rintro rfl
  cases h

theorem isWord_cons_takeWhile {c : Char} (hc : isNameChar c) (rest : List Char) :
    IsWord (c :: rest.takeWhile isNameChar) := by
  refine ⟨List.cons_ne_nil _ _, ?_⟩
  intro d hd
  rcases List.mem_cons.mp hd with rfl | hd
  · exact hc
  · exact List.mem_takeWhile_imp hd

theorem isWord_of_mem_pieces {cs word : List Char} (h : .word word ∈ pieces cs) :
    IsWord word := by
  induction cs using pieces.induct with
  | case1 => simp at h
  | case2 rest ih =>
      rw [pieces_comment] at h
      exact ih (by simpa using h)
  | case3 c rest _ hquote ih =>
      rw [pieces_quote hquote] at h
      exact ih (by simpa using h)
  | case4 c rest _ _ hname ih =>
      rw [pieces_word hname, List.mem_cons] at h
      rcases h with heq | hmem
      · cases heq
        exact isWord_cons_takeWhile hname rest
      · exact ih hmem
  | case5 c rest hcomment hquote hname ih =>
      rw [pieces_other hcomment hquote hname] at h
      exact ih (by simpa using h)

theorem pieces_word_append {word rest : List Char} (hword : IsWord word)
    (hrest : rest.head?.any isNameChar = false) :
    pieces (word ++ rest) = .word word :: pieces rest := by
  obtain ⟨c, more, rfl⟩ := List.exists_cons_of_ne_nil hword.ne_nil
  have hmore : ∀ d ∈ more, isNameChar d := fun d hd =>
    hword.isNameChar d (List.mem_cons_of_mem c hd)
  rw [List.cons_append, pieces_word (hword.isNameChar c List.mem_cons_self),
    takeWhile_append_of_head? hmore hrest, dropWhile_append_of_head? hmore hrest]

/-! ## Lines -/

theorem quotedSpan_append_newline {quote : Char} (hquote : quote ≠ '\n') (cs after : List Char) :
    quotedSpan quote (cs ++ '\n' :: after) =
      ((quotedSpan quote cs).1, (quotedSpan quote cs).2 ++ '\n' :: after) := by
  induction cs with
  | nil => simp [quotedSpan, hquote.symm]
  | cons c rest ih =>
      rw [List.cons_append, quotedSpan, quotedSpan, ih]
      split_ifs <;> rfl

theorem pieces_append_newline (before after : List Char) :
    pieces (before ++ '\n' :: after) = pieces before ++ .verbatim ['\n'] :: pieces after := by
  induction before using pieces.induct with
  | case1 => rw [List.nil_append, pieces_nil, List.nil_append, pieces_other] <;> decide
  | case2 rest ih =>
      rw [List.cons_append, pieces_comment, pieces_comment, takeWhile_append_cons (by decide),
        dropWhile_append_cons (by decide), ih]
      rfl
  | case3 c rest _ hquote ih =>
      have hnewline : c ≠ '\n' := by rcases hquote with rfl | rfl <;> decide
      rw [List.cons_append, pieces_quote hquote, pieces_quote hquote,
        quotedSpan_append_newline hnewline, ih]
      rfl
  | case4 c rest _ _ hname ih =>
      rw [List.cons_append, pieces_word hname, pieces_word hname,
        takeWhile_append_cons (by decide), dropWhile_append_cons (by decide), ih]
      rfl
  | case5 c rest hcomment hquote hname ih =>
      rw [List.cons_append, pieces_other hcomment hquote hname,
        pieces_other hcomment hquote hname, ih]
      rfl

end AsmLoader.Symbol
