import AsmLoader.Proofs.Symbol.Expansion
import AsmLoader.Proofs.Text.Lines
/-!
# Expansion of lines

Expansion works on each line alone: a quoted text that is not closed and a comment end with their
line. The lines of an expanded text are the expanded lines of the text, each in its place, so
that a line of one has the number that it has in the other.
-/

namespace AsmLoader.Symbol

/-! ## One more character -/

theorem span_concat (p : Char → Bool) (cs : List Char) (c : Char) :
    ((cs ++ [c]).takeWhile p = cs.takeWhile p ∧
        (cs ++ [c]).dropWhile p = cs.dropWhile p ++ [c]) ∨
      (p c ∧ cs.takeWhile p = cs ∧ cs.dropWhile p = [] ∧
        (cs ++ [c]).takeWhile p = cs ++ [c] ∧ (cs ++ [c]).dropWhile p = []) := by
  induction cs with
  | nil => cases hc : p c <;> simp [hc]
  | cons d rest ih =>
      cases hd : p d with
      | false => simp [hd]
      | true => simpa [hd] using ih

theorem getLast?_any_append {p : Char → Bool} (xs : List Char) {ys : List Char}
    (h : ys.getLast?.any p) : (xs ++ ys).getLast?.any p := by
  rw [List.getLast?_append]
  cases hys : ys.getLast? <;> simp_all

theorem quotedSpan_concat (quote : Char) (cs : List Char) (c : Char) :
    quotedSpan quote (cs ++ [c]) = ((quotedSpan quote cs).1, (quotedSpan quote cs).2 ++ [c]) ∨
      (quotedSpan quote cs = (cs, []) ∧ quotedSpan quote (cs ++ [c]) = (cs ++ [c], [])) := by
  induction cs with
  | nil =>
      simp only [List.nil_append, quotedSpan]
      split_ifs <;> simp
  | cons d rest ih =>
      rw [List.cons_append, quotedSpan, quotedSpan]
      split_ifs with hquote hline
      · exact .inl rfl
      · exact .inl rfl
      · rcases ih with h | ⟨h, h'⟩
        · simp [h]
        · simp [h, h']

namespace Table

variable (t : Table)

theorem getLast?_expandPiece {word : List Char} (h : IsWord word) :
    (t.expandPiece (.word word)).getLast?.any isNameChar := by
  have hpiece := t.isWord_expandPiece h
  rw [List.getLast?_eq_some_getLast hpiece.ne_nil]
  exact hpiece.isNameChar _ (List.getLast_mem hpiece.ne_nil)

theorem expand_concat (cs : List Char) (c : Char) :
    t.expand (cs ++ [c]) = t.expand cs ++ [c] ∨
      (isNameChar c ∧ (t.expand (cs ++ [c])).getLast?.any isNameChar) := by
  induction cs using pieces.induct with
  | case1 =>
      by_cases hcomment : c = ';'
      · subst hcomment
        simp [expand_comment]
      by_cases hquote : c = '\'' ∨ c = '"'
      · simp [t.expand_quote hquote]
      by_cases hname : isNameChar c
      · right
        refine ⟨hname, ?_⟩
        rw [List.nil_append, t.expand_word hname, List.dropWhile_nil, expand_nil,
          List.append_nil]
        exact t.getLast?_expandPiece (isWord_cons_takeWhile hname [])
      · simp [t.expand_other hcomment hquote hname]
  | case2 rest ih =>
      rw [List.cons_append, t.expand_comment, t.expand_comment]
      rcases span_concat (· ≠ '\n') rest c with ⟨htake, hdrop⟩ | ⟨-, htake, hdrop,
        htake', hdrop'⟩
      · rw [htake, hdrop]
        rcases ih with h | ⟨hname, h⟩
        · exact .inl (by rw [h, List.append_assoc])
        · exact .inr ⟨hname, getLast?_any_append _ h⟩
      · exact .inl
          (by simp only [htake, hdrop, htake', hdrop', expand_nil, List.append_nil]; rfl)
  | case3 d rest _ hquote ih =>
      rw [List.cons_append, t.expand_quote hquote, t.expand_quote hquote, expandQuoted,
        expandQuoted]
      rcases quotedSpan_concat d rest c with h | ⟨h, h'⟩
      · rw [h]
        dsimp only
        rcases ih with hcopied | ⟨hname, hend⟩
        · exact .inl (by rw [hcopied, ← List.append_assoc]; rfl)
        · exact .inr ⟨hname, getLast?_any_append (d :: (quotedSpan d rest).1) hend⟩
      · exact .inl (by rw [h, h', expand_nil, List.append_nil, List.append_nil]; rfl)
  | case4 d rest _ _ hname ih =>
      rw [List.cons_append, t.expand_word hname, t.expand_word hname]
      rcases span_concat isNameChar rest c with ⟨htake, hdrop⟩ | ⟨hc, -, -, htake, hdrop⟩
      · rw [htake, hdrop]
        rcases ih with h | ⟨hc, h⟩
        · exact .inl (by rw [h, List.append_assoc])
        · exact .inr ⟨hc, getLast?_any_append _ h⟩
      · right
        have hlonger := isWord_cons_takeWhile hname (rest ++ [c])
        rw [htake] at hlonger
        rw [htake, hdrop, expand_nil, List.append_nil]
        exact ⟨hc, t.getLast?_expandPiece hlonger⟩
  | case5 d rest hcomment hquote hname ih =>
      rw [List.cons_append, t.expand_other hcomment hquote hname,
        t.expand_other hcomment hquote hname]
      rcases ih with h | ⟨hc, h⟩
      · exact .inl (by rw [h]; rfl)
      · exact .inr ⟨hc, getLast?_any_append [d] h⟩

/-! ## Lines -/

theorem expand_append_newline (before after : List Char) :
    t.expand (before ++ '\n' :: after) = t.expand before ++ '\n' :: t.expand after := by
  rw [expand, pieces_append_newline, List.flatMap_append, List.flatMap_cons]
  rfl

theorem mem_of_mem_expand {cs : List Char} {c : Char} (h : c ∈ t.expand cs)
    (hc : ¬isNameChar c) : c ∈ cs := by
  obtain ⟨piece, hpiece, hmem⟩ := List.mem_flatMap.mp h
  rw [← flatMap_text_pieces cs]
  refine List.mem_flatMap.mpr ⟨piece, hpiece, ?_⟩
  cases piece with
  | verbatim ds => exact hmem
  | word word =>
      have hword := t.isWord_expandPiece (isWord_of_mem_pieces hpiece)
      exact absurd hmem (hword.not_mem hc)

theorem expand_ne_nil {cs : List Char} (h : cs ≠ []) : t.expand cs ≠ [] := by
  obtain ⟨c, rest, rfl⟩ := List.exists_cons_of_ne_nil h
  intro hnil
  have hhead := t.head?_expand (c :: rest)
  simp [hnil] at hhead

theorem dropReturn_expand (line : List Char) :
    Text.dropReturn (t.expand line) = t.expand (Text.dropReturn line) := by
  rcases List.eq_nil_or_concat' line with rfl | ⟨before, c, rfl⟩
  · rw [expand_nil, Text.dropReturn_of_getLast? (by simp), expand_nil]
  · by_cases hreturn : c = '\r'
    · subst hreturn
      have hcopied : t.expand (before ++ ['\r']) = t.expand before ++ ['\r'] :=
        (t.expand_concat before '\r').resolve_right fun h => absurd h.1 (by decide)
      rw [hcopied, Text.dropReturn_concat, Text.dropReturn_concat]
    · have hline : (before ++ [c]).getLast? ≠ some '\r' := by simpa using hreturn
      have hexpanded : (t.expand (before ++ [c])).getLast? ≠ some '\r' := by
        rcases t.expand_concat before c with h | ⟨-, h⟩
        · simpa [h] using hreturn
        · intro heq
          rw [heq] at h
          revert h
          decide
      rw [Text.dropReturn_of_getLast? hline, Text.dropReturn_of_getLast? hexpanded]

theorem lines_expand (cs : List Char) :
    Text.lines (t.expand cs) = (Text.lines cs).map t.expand := by
  have hnewline {line : List Char} (hline : '\n' ∉ line) : '\n' ∉ t.expand line := fun hmem =>
    hline (t.mem_of_mem_expand hmem (by decide))
  induction hlength : cs.length using Nat.strongRecOn generalizing cs with
  | ind n ih =>
      by_cases hmem : '\n' ∈ cs
      · obtain ⟨line, rest, rfl, hline⟩ := List.eq_append_cons_of_mem hmem
        have hshorter : rest.length < n := by
          rw [← hlength, List.length_append, List.length_cons]
          omega
        rw [t.expand_append_newline, Text.lines_append_newline (hnewline hline),
          Text.lines_append_newline hline, List.map_cons, t.dropReturn_expand,
          ih _ hshorter rest rfl]
      · by_cases hempty : cs = []
        · rw [hempty, expand_nil]
          rfl
        · rw [Text.lines_of_not_mem (hnewline hmem) (t.expand_ne_nil hempty),
            Text.lines_of_not_mem hmem hempty]
          rfl

/-- What stands before a newline is expanded as if nothing came after it, and what comes after it
as if nothing stood before it; and the lines of an expanded source are those of the source, each
expanded. -/
theorem expandString_append_newline (before after source : String) :
    t.expandString (before ++ "\n" ++ after) =
        t.expandString before ++ "\n" ++ t.expandString after ∧
      Text.linesOf (t.expandString source) = (Text.linesOf source).map t.expandString := by
  constructor
  · apply String.toList_injective
    simp [t.expand_append_newline]
  · rw [Text.linesOf, toList_expandString, t.lines_expand, Text.linesOf, List.map_map,
      List.map_map]
    apply List.map_congr_left
    intro line _
    simp [expandString]

/-- A quote that is not closed, and a comment, each on a line of its own. -/
example : (Table.empty.insert "x" 1).expandString "x'x\r\nx;x\nx" = "0x1'x\r\n0x1;x\n0x1" := by
  decide +kernel

end Table

end AsmLoader.Symbol
