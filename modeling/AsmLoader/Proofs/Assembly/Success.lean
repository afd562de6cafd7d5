import AsmLoader.Proofs.Assembly.Repetitions
/-!
# When statements have code

Statements have code just if every code size that they select is that of the target, their labels
are defined once each, each of them has an emission, and the block of these can be written. The
lines of the source, and the numbers of the lines that the statements stand on, do not matter.
-/

namespace AsmLoader.Assembly

open Machine (CodeSize)
open Source (Statement)

/-! ## Labels that are defined once -/

theorem repetitions_eq_nil_iff {statements : List Statement} :
    (bindLabels statements).1.repetitions = [] ↔
      (statements.flatMap Statement.labels).Nodup := by
  refine ⟨nodup_labels, fun h => ?_⟩
  rw [repetitions_bindLabels, repetitionsOf_eq_nil]
  rwa [map_fst_marksOf]

/-! ## Code sizes that agree -/

theorem exists_bits_eq_iff {bitness : Nat} :
    (∃ codeSize : CodeSize, codeSize.bits = bitness) ↔ bitness = 32 ∨ bitness = 64 := by
  constructor
  · rintro ⟨codeSize, rfl⟩
    cases codeSize <;> simp [CodeSize.bits]
  · rintro (rfl | rfl)
    · exact ⟨.bits32, rfl⟩
    · exact ⟨.bits64, rfl⟩

theorem conflicts_of_modes {bitness : Nat} {selected : Option CodeSize}
    {statements : List Statement} (hselected : ∀ size ∈ selected, size.bits = bitness)
    (h : ∀ s ∈ statements, ∀ size, s.body = .mode size → size.bits = bitness) :
    (selectCodeSize bitness selected statements).2 = [] := by
  induction statements generalizing selected with
  | nil => rfl
  | cons s rest ih =>
      have hrest := fun s' hs' => h s' (List.mem_cons_of_mem s hs')
      unfold selectCodeSize
      split
      next size first hbody =>
        have hsame : first = size := by
          have hbits := (hselected first rfl).trans (h s List.mem_cons_self size hbody).symm
          have hofBits := congrArg CodeSize.ofBits? hbits
          rwa [CodeSize.ofBits?_bits, CodeSize.ofBits?_bits, Option.some.injEq] at hofBits
        dsimp only
        rw [if_pos hsame]
        exact ih hselected hrest
      next size hbody =>
        have hbits := h s List.mem_cons_self size hbody
        dsimp only
        rw [if_pos hbits]
        exact ih (by rintro _ ⟨⟩; exact hbits) hrest
      next => exact ih hselected hrest

theorem conflicts_eq_nil_iff {bitness : Nat} {statements : List Statement} :
    (selectCodeSize bitness none statements).2 = [] ↔
      ∀ s ∈ statements, ∀ size, s.body = .mode size → size.bits = bitness :=
  ⟨fun h _ hs _ hbody => bits_of_mode h (by simp) hs hbody, conflicts_of_modes (by simp)⟩

/-! ## Statements with code -/

/-- Statements are assembled, by way of what they emit, to some code. -/
structure Assembles (codeSize : CodeSize) (target : Target) (statements : List Statement)
    (es : List Emission) (code : Code) : Prop where
  bits_eq : codeSize.bits = target.bitness
  modes_eq : ∀ s ∈ statements, ∀ size, s.body = .mode size → size.bits = target.bitness
  labels_nodup : (statements.flatMap Statement.labels).Nodup
  emitted : Emitted codeSize target.capacity statements es
  written : writeBlock codeSize target.base (itemsOf codeSize statements es).reduceOption =
    .ok code

section

variable {codeSize : CodeSize} {target : Target} {statements : List Statement}
  {es : List Emission} {code : Code} {lines : List String}

theorem exists_assembles (h : assembleStatements lines target statements = .ok code) :
    ∃ codeSize es, Assembles codeSize target statements es code := by
  obtain ⟨codeSize, hsize, hreports⟩ := no_reports_of_assembleStatements h
  obtain ⟨es, hes, hassemble⟩ := assembleStatements_eq_writeBlock hsize hreports
  have hbits := bits_of_no_reports hsize hreports
  rw [reportsOf, List.append_eq_nil_iff, List.append_eq_nil_iff, List.map_eq_nil_iff,
    List.map_eq_nil_iff] at hreports
  obtain ⟨⟨hconflicts, hrepetitions⟩, -⟩ := hreports
  refine ⟨codeSize, es, hbits, conflicts_eq_nil_iff.mp hconflicts,
    repetitions_eq_nil_iff.mp hrepetitions, hes, ?_⟩
  rw [hassemble] at h
  cases hblock :
      writeBlock codeSize target.base (itemsOf codeSize statements es).reduceOption with
  | ok code' =>
      rw [hblock] at h
      cases h
      rfl
  | error e =>
      rw [hblock] at h
      cases h

theorem Assembles.assembleStatements_eq (h : Assembles codeSize target statements es code)
    (lines : List String) : assembleStatements lines target statements = .ok code := by
  have hconflicts := conflicts_eq_nil_iff.mpr h.modes_eq
  have hsize : effectiveSize? target statements = some codeSize := by
    rw [effectiveSize?, bits_selectCodeSize hconflicts, ← h.bits_eq, CodeSize.ofBits?_bits]
  have hfailures : (emissions (contextOf codeSize statements) target.capacity lines
      (statements.zip (bindLabels statements).2.1)).2 = [] := by
    apply reports_emissions_of_ok
    intro p hp
    obtain ⟨e, -, he⟩ := exists_mem_of_forall₂ h.emitted (List.of_mem_zip hp).1
    exact ⟨e, he⟩
  have hreports : reportsOf codeSize lines target statements = [] := by
    rw [reportsOf, hconflicts, repetitions_eq_nil_iff.mpr h.labels_nodup, hfailures]
    rfl
  obtain ⟨es', hes', hassemble⟩ := assembleStatements_eq_writeBlock hsize hreports
  obtain rfl : es' = es :=
    Except.ok.inj ((mapM_eq_ok_iff.mpr hes').symm.trans (mapM_eq_ok_iff.mpr h.emitted))
  rw [hassemble, h.written]
  rfl

/-- Statements have code just if they are assembled to it by way of some emissions. -/
theorem assembleStatements_eq_ok_iff :
    assembleStatements lines target statements = .ok code ↔
      ∃ codeSize es, Assembles codeSize target statements es code :=
  ⟨exists_assembles, fun ⟨_, _, h⟩ => h.assembleStatements_eq lines⟩

end

end AsmLoader.Assembly
