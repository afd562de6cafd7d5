import AsmLoader.Text.Blank
import Mathlib.Data.List.TakeWhile
/-!
# A text without the blanks around it

What is left of a text is the part of it that neither starts nor ends with a blank and has only
blanks before and after it.
-/

namespace AsmLoader.Text

/-- A text is its core with blanks around it, and the core has none at its ends. -/
structure TrimsTo (cs core : List Char) : Prop where
  between : ∃ before after, cs = before ++ core ++ after ∧
    (∀ c ∈ before, isBlank c) ∧ ∀ c ∈ after, isBlank c
  head : ∀ c, core.head? = some c → ¬isBlank c
  last : ∀ c, core.getLast? = some c → ¬isBlank c

theorem trimStart_append {blanks : List Char} (h : ∀ c ∈ blanks, isBlank c) (cs : List Char) :
    trimStart (blanks ++ cs) = trimStart cs :=
  List.dropWhile_append_of_pos h

theorem trimStart_of_head {cs : List Char} (h : ∀ c, cs.head? = some c → ¬isBlank c) :
    trimStart cs = cs := by
  cases cs with
  | nil => rfl
  | cons c rest => exact List.dropWhile_cons_of_neg (h c rfl)

theorem head_trimStart (cs : List Char) (c : Char) (h : (trimStart cs).head? = some c) :
    ¬isBlank c := by
  have hnone := List.head?_dropWhile_not isBlank cs
  rw [← trimStart, h] at hnone
  simpa using hnone

theorem exists_blanks_append_trimStart (cs : List Char) :
    ∃ blanks, cs = blanks ++ trimStart cs ∧ ∀ c ∈ blanks, isBlank c :=
  ⟨cs.takeWhile isBlank, List.takeWhile_append_dropWhile.symm, fun _ hc =>
    List.mem_takeWhile_imp hc⟩

theorem trimsTo_trim (cs : List Char) : TrimsTo cs (trim cs) := by
  obtain ⟨before, hbefore, hblank⟩ := exists_blanks_append_trimStart cs
  obtain ⟨after, hafter, hblank'⟩ := exists_blanks_append_trimStart (trimStart cs).reverse
  have hsplit : trimStart cs = trim cs ++ after.reverse := by
    rw [trim, ← List.reverse_append, ← hafter, List.reverse_reverse]
  refine ⟨⟨before, after.reverse, ?_, hblank, ?_⟩, ?_, ?_⟩
  · rw [List.append_assoc, ← hsplit]
    exact hbefore
  · intro c hc
    exact hblank' c (List.mem_reverse.mp hc)
  · intro c hc
    apply head_trimStart cs c
    rw [hsplit, List.head?_append, hc, Option.some_or]
  · intro c hc
    rw [trim, List.getLast?_reverse] at hc
    exact head_trimStart _ c hc

theorem trimsTo_iff {cs core : List Char} : TrimsTo cs core ↔ trim cs = core := by
  constructor
  · rintro ⟨⟨before, after, rfl, hbefore, hafter⟩, hhead, hlast⟩
    rw [trim, List.append_assoc, trimStart_append hbefore]
    cases core with
    | nil =>
        have hblank : trimStart after = [] := by
          have hall := trimStart_append hafter []
          rwa [List.append_nil] at hall
        rw [List.nil_append, hblank]
        rfl
    | cons first rest =>
        have hstart : trimStart (first :: rest ++ after) = first :: rest ++ after :=
          trimStart_of_head fun c hc => hhead c hc
        have hend : trimStart (first :: rest).reverse = (first :: rest).reverse :=
          trimStart_of_head fun c hc => hlast c (by rwa [List.head?_reverse] at hc)
        rw [hstart, List.reverse_append,
          trimStart_append (fun c hc => hafter c (List.mem_reverse.mp hc)), hend,
          List.reverse_reverse]
  · rintro rfl
    exact trimsTo_trim cs

end AsmLoader.Text
