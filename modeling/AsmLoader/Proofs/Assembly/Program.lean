import AsmLoader.Proofs.Assembly.Arrangement
/-!
# Accepted sources

When a source is assembled, its code size is that of the target, every statement emits something
or nothing, and the code is that of a block of what they emit. A source has no more statements
than characters, so that its places can be numbered.
-/

namespace AsmLoader.Source

open Text (lines linesOf)

theorem length_lines_le (cs : List Char) : (lines cs).length ≤ cs.length := by
  fun_induction lines cs with
  | case1 => exact Nat.le_refl _
  | case2 rest ih =>
      simp only [List.length_cons]
      omega
  | case3 rest ih =>
      simp only [List.length_cons]
      omega
  | case4 c rest _ _ hrest ih => simp
  | case5 c rest _ _ line more hrest ih =>
      rw [hrest] at ih
      simp only [List.length_cons] at ih ⊢
      omega

theorem length_readLines_le (scope : Scope) (number : Nat) (sources : List String) :
    (readLines scope number sources).1.length ≤ sources.length := by
  induction sources generalizing scope number with
  | nil => exact Nat.le_refl _
  | cons line rest ih =>
      rw [readLines]
      dsimp only
      have hrest := ih (readLine scope line.toList).1 (number + 1)
      split <;> simp only [List.length_cons] <;> omega

theorem length_statements_le {source : String} {statements : List Statement}
    (h : parse source = .ok statements) : statements.length ≤ source.length := by
  have hlines := length_readLines_le none 1 (linesOf source)
  have hchars := length_lines_le source.toList
  unfold parse at h
  split at h
  next hread =>
    cases h
    rw [hread, linesOf, List.length_map] at hlines
    exact hlines.trans hchars
  next => cases h

end AsmLoader.Source

namespace AsmLoader.Assembly

open Machine (CodeSize)
open Source (Statement)

/-! ## The code size -/

theorem selectCodeSize_some (bitness : Nat) (size : CodeSize) (statements : List Statement) :
    (selectCodeSize bitness (some size) statements).1 = some size := by
  induction statements with
  | nil => rfl
  | cons s rest ih =>
      unfold selectCodeSize
      split
      next heq =>
        cases heq
        dsimp only
        split <;> exact ih
      next heq => cases heq
      next => exact ih

theorem bits_selectCodeSize {bitness : Nat} {statements : List Statement}
    (h : (selectCodeSize bitness none statements).2 = []) :
    (selectCodeSize bitness none statements).1.elim bitness CodeSize.bits = bitness := by
  induction statements with
  | nil => rfl
  | cons s rest ih =>
      unfold selectCodeSize at h ⊢
      cases hbody : s.body with
      | mode size =>
          simp only [hbody] at h ⊢
          split at h
          next hbits =>
            rw [if_pos hbits, selectCodeSize_some]
            exact hbits
          next => cases h
      | _ =>
          simp only [hbody] at h ⊢
          exact ih h

theorem bits_of_ofBits? {bits : Nat} {codeSize : CodeSize}
    (h : CodeSize.ofBits? bits = some codeSize) : codeSize.bits = bits := by
  unfold CodeSize.ofBits? at h
  split at h <;> cases h <;> rfl

/-! ## The block of a source -/

theorem laid_lastEntry (codeSize : CodeSize) (base : UInt64) (place : PlaceId) :
    Laid codeSize base (lastEntry place) ((lastEntry place).map fun _ => []) [] := by
  unfold lastEntry
  split
  next => exact ⟨List.nil_prefix, rfl, fun i e he => by simp at he⟩
  next =>
    refine ⟨List.nil_prefix, rfl, ?_⟩
    intro i e he
    cases i with
    | zero =>
        cases he
        exact ⟨[], .absent, rfl, .mark, fun target htarget => by cases htarget⟩
    | succ i => simp at he

theorem exists_laid_of_writeEmissions {codeSize : CodeSize} {base : UInt64} {code : Code}
    {statements : List Statement} {es : List Emission}
    (h : writeEmissions codeSize base
      (((bindLabels statements).2.1.zip es).filter fun p => p.2 ≠ .nothing)
      (bindLabels statements).2.2 = .ok code) :
    ∃ parts, Laid codeSize base (itemsOf codeSize statements es).reduceOption parts code := by
  rw [reduceOption_itemsOf]
  unfold writeEmissions at h
  split at h
  next hempty =>
    cases h
    rw [List.isEmpty_iff.mp hempty]
    exact ⟨_, laid_lastEntry codeSize base (bindLabels statements).2.2⟩
  next =>
    split at h
    next => cases h
    next hblock =>
      cases h
      exact exists_laid hblock

theorem exists_laid_of_assemble {source : String} {target : Target} {code : Code}
    (h : assemble source target = .ok code) :
    ∃ statements codeSize es parts, Source.parse source = .ok statements ∧
      codeSize.bits = target.bitness ∧ Emitted codeSize target.capacity statements es ∧
      Laid codeSize target.base (itemsOf codeSize statements es).reduceOption parts code := by
  unfold assemble at h
  split at h
  next => cases h
  next statements hparse =>
    unfold assembleStatements at h
    dsimp only at h
    split at h
    next => cases h
    next codeSize hsize =>
      split at h
      next hreports =>
        rw [List.isEmpty_iff, List.append_eq_nil_iff, List.append_eq_nil_iff,
          List.map_eq_nil_iff]
          at hreports
        obtain ⟨⟨hconflicts, -⟩, hfailures⟩ := hreports
        have hbits := (bits_of_ofBits? hsize).trans (bits_selectCodeSize hconflicts)
        have hlength := length_places statements
        obtain ⟨es, hes, hemitted⟩ := emissions_spec hfailures
        rw [List.map_fst_zip (Nat.le_of_eq hlength.symm)] at hes
        rw [List.map_snd_zip (Nat.le_of_eq hlength)] at hemitted
        rw [hemitted] at h
        obtain ⟨parts, hlaid⟩ := exists_laid_of_writeEmissions h
        exact ⟨statements, codeSize, es, parts, hparse, hbits, hes, hlaid⟩
      next => cases h

end AsmLoader.Assembly
