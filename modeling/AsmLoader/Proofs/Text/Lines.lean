import AsmLoader.Text.Lines
import Mathlib.Data.List.Basic
/-!
# Lines of a text

The first line of a text and the lines of the rest. What stands before a newline is a line
without the carriage return at its end, and what stands after the last one is a line as it is,
unless it is empty. A text can be put together from others between its lines.
-/

namespace AsmLoader.Text

def dropReturn (line : List Char) : List Char :=
  if line.getLast? = some '\r' then line.dropLast else line

@[simp] theorem dropReturn_concat (line : List Char) : dropReturn (line ++ ['\r']) = line := by
  simp [dropReturn]

theorem dropReturn_of_getLast? {line : List Char} (h : line.getLast? ≠ some '\r') :
    dropReturn line = line := by
  rw [dropReturn, if_neg h]

theorem dropReturn_cons {line : List Char} (c : Char) (h : line ≠ []) :
    dropReturn (c :: line) = c :: dropReturn line := by
  obtain ⟨d, rest, rfl⟩ := List.exists_cons_of_ne_nil h
  simp only [dropReturn, List.getLast?_cons_cons, List.dropLast_cons_cons]
  split <;> rfl

theorem lines_cons {c : Char} {rest : List Char} (hline : c ≠ '\n')
    (hreturn : c = '\r' → rest.head? ≠ some '\n') :
    lines (c :: rest) =
      match lines rest with
      | [] => [[c]]
      | line :: more => (c :: line) :: more := by
  rw [lines.eq_def]
  split
  next heq => cases heq
  next after heq =>
    cases heq
    exact absurd rfl (hreturn rfl)
  next after heq =>
    cases heq
    exact absurd rfl hline
  next heq =>
    cases heq
    rfl

theorem lines_append_newline {line : List Char} (hline : '\n' ∉ line) (rest : List Char) :
    lines (line ++ '\n' :: rest) = dropReturn line :: lines rest := by
  induction line with
  | nil => simp [lines, dropReturn]
  | cons c line ih =>
      have hc : c ≠ '\n' := fun heq => hline (heq ▸ List.mem_cons_self)
      have hrest := ih fun hmem => hline (List.mem_cons_of_mem c hmem)
      by_cases hempty : line = []
      · subst hempty
        by_cases hreturn : c = '\r'
        · subst hreturn
          simp [lines, dropReturn]
        · rw [List.cons_append, lines_cons hc (fun heq => absurd heq hreturn), hrest]
          simp [dropReturn, hreturn]
      · have hhead : (line ++ '\n' :: rest).head? ≠ some '\n' := by
          obtain ⟨d, more, rfl⟩ := List.exists_cons_of_ne_nil hempty
          rintro ⟨⟩
          exact hline (List.mem_cons_of_mem c List.mem_cons_self)
        rw [List.cons_append, lines_cons hc (fun _ => hhead), hrest, dropReturn_cons c hempty]

theorem lines_of_not_mem {line : List Char} (hline : '\n' ∉ line) (hne : line ≠ []) :
    lines line = [line] := by
  induction line with
  | nil => exact absurd rfl hne
  | cons c rest ih =>
      have hc : c ≠ '\n' := fun heq => hline (heq ▸ List.mem_cons_self)
      have hrest : '\n' ∉ rest := fun hmem => hline (List.mem_cons_of_mem c hmem)
      have hhead : rest.head? ≠ some '\n' := fun hsome => hrest (List.mem_of_mem_head? hsome)
      rw [lines_cons hc fun _ => hhead]
      by_cases hempty : rest = []
      · rw [hempty, lines]
      · rw [ih hrest hempty]

/-! ## Complete lines -/

def IsComplete (cs : List Char) : Prop :=
  ∀ c ∈ cs.getLast?, c = '\n'

theorem IsComplete.eq_nil {cs : List Char} (h : IsComplete cs) (hline : '\n' ∉ cs) :
    cs = [] := by
  by_contra hne
  have hlast := h _ (List.getLast?_eq_some_getLast hne)
  exact hline (hlast ▸ List.getLast_mem hne)

theorem exists_isComplete_append (cs : List Char) :
    ∃ before last, cs = before ++ last ∧ IsComplete before ∧ '\n' ∉ last := by
  induction cs with
  | nil => exact ⟨[], [], rfl, by simp [IsComplete], by simp⟩
  | cons c rest ih =>
      obtain ⟨before, last, rfl, hbefore, hlast⟩ := ih
      by_cases hline : before = [] ∧ c ≠ '\n'
      · obtain ⟨rfl, hc⟩ := hline
        exact ⟨[], c :: last, rfl, hbefore, by simp [hlast, hc.symm]⟩
      · refine ⟨c :: before, last, rfl, ?_, hlast⟩
        intro d hd
        cases before with
        | nil =>
            have hc : c = '\n' := by simpa using hline
            exact (Option.some.inj hd).symm.trans hc
        | cons e before => exact hbefore d (by rwa [List.getLast?_cons_cons] at hd)

/-- The lines after complete ones do not depend on them. -/
theorem lines_append {before : List Char} (h : IsComplete before) (rest : List Char) :
    lines (before ++ rest) = lines before ++ lines rest := by
  induction hlength : before.length using Nat.strongRecOn generalizing before with
  | ind n ih =>
      by_cases hmem : '\n' ∈ before
      · obtain ⟨line, more, rfl, hline⟩ := List.eq_append_cons_of_mem hmem
        have hmore : IsComplete more := by
          intro c hc
          apply h
          rw [List.getLast?_append, List.getLast?_cons, Option.mem_def.mp hc]
          rfl
        have hshorter : more.length < n := by
          rw [← hlength, List.length_append, List.length_cons]
          omega
        rw [List.append_assoc, List.cons_append, lines_append_newline hline,
          lines_append_newline hline, ih _ hshorter hmore rfl, List.cons_append]
      · rw [h.eq_nil hmem]
        rfl

/-! ## Strings -/

theorem linesOf_of_not_mem {line : String} (hline : '\n' ∉ line.toList)
    (hne : line.toList ≠ []) : linesOf line = [line] := by
  rw [linesOf, lines_of_not_mem hline hne, List.map_cons, String.ofList_toList, List.map_nil]

theorem linesOf_append_newline {line : String} (hline : '\n' ∉ line.toList) (rest : String) :
    linesOf (line ++ "\n" ++ rest) =
      String.ofList (dropReturn line.toList) :: linesOf rest := by
  have htext : (line ++ "\n" ++ rest).toList = line.toList ++ '\n' :: rest.toList := by simp
  rw [linesOf, htext, lines_append_newline hline, List.map_cons, linesOf]

theorem linesOf_append {before : String} (h : IsComplete before.toList) (rest : String) :
    linesOf (before ++ rest) = linesOf before ++ linesOf rest := by
  rw [linesOf, String.toList_append, lines_append h, List.map_append, linesOf, linesOf]

end AsmLoader.Text
