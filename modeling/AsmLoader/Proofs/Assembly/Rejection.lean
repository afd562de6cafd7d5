import AsmLoader.Proofs.Assembly.FixedBlock
import AsmLoader.Proofs.Assembly.Program
/-!
# Rejected sources

A source has code only if nothing at all is reported of its statements. Whatever is reported of
one of them is among the diagnostics, however many others are in order.
-/

namespace AsmLoader.Assembly

open Machine (CodeSize)
open Source (Statement)

/-- The code size that the statements of a source are encoded for, if it is one that there is. -/
def effectiveSize? (target : Target) (statements : List Statement) : Option CodeSize :=
  CodeSize.ofBits?
    ((selectCodeSize target.bitness none statements).1.elim target.bitness CodeSize.bits)

/-- What is reported of statements: the code sizes that they select, labels that are defined
again, and statements that have no code. -/
def reportsOf (codeSize : CodeSize) (lines : List String) (target : Target)
    (statements : List Statement) : List Diagnostic :=
  (selectCodeSize target.bitness none statements).2.map
      (fun c => reportAt lines c.line c.message) ++
    (bindLabels statements).1.repetitions.map (fun r => reportAt lines r.line r.message) ++
    (emissions (contextOf codeSize statements) target.capacity lines
      (statements.zip (bindLabels statements).2.1)).2

section

variable {source : String} {target : Target} {code : Code} {statements : List Statement}
  {codeSize : CodeSize}

theorem assembleStatements_eq (hsize : effectiveSize? target statements = some codeSize)
    (lines : List String) :
    assembleStatements lines target statements =
      if (reportsOf codeSize lines target statements).isEmpty then
        writeEmissions codeSize target.base
          (emissions (contextOf codeSize statements) target.capacity lines
            (statements.zip (bindLabels statements).2.1)).1
          (bindLabels statements).2.2
      else .error (reportsOf codeSize lines target statements) := by
  unfold effectiveSize? at hsize
  simp only [assembleStatements, hsize]
  rfl

theorem assemble_of_parse (hparse : Source.parse source = .ok statements) (target : Target) :
    assemble source target = assembleStatements (Text.linesOf source) target statements := by
  rw [assemble, hparse]

theorem assemble_eq_ok_iff :
    assemble source target = .ok code ↔ ∃ statements, Source.parse source = .ok statements ∧
      assembleStatements (Text.linesOf source) target statements = .ok code := by
  unfold assemble
  cases Source.parse source with
  | error reports => simp
  | ok statements => simp

theorem assemble_eq (hparse : Source.parse source = .ok statements)
    (hsize : effectiveSize? target statements = some codeSize) :
    assemble source target =
      if (reportsOf codeSize (Text.linesOf source) target statements).isEmpty then
        writeEmissions codeSize target.base
          (emissions (contextOf codeSize statements) target.capacity (Text.linesOf source)
            (statements.zip (bindLabels statements).2.1)).1
          (bindLabels statements).2.2
      else .error (reportsOf codeSize (Text.linesOf source) target statements) := by
  rw [assemble_of_parse hparse, assembleStatements_eq hsize]

theorem exists_effectiveSize (h : target.bitness = 32 ∨ target.bitness = 64)
    (statements : List Statement) :
    ∃ codeSize, effectiveSize? target statements = some codeSize := by
  unfold effectiveSize?
  cases (selectCodeSize target.bitness none statements).1 with
  | some size => exact ⟨size, CodeSize.ofBits?_bits size⟩
  | none => rcases h with h | h <;> exact ⟨_, by rw [Option.elim_none, h]; rfl⟩

theorem writeBlock_lastEntry (codeSize : CodeSize) (base : UInt64) (place : PlaceId) :
    writeBlock codeSize base (lastEntry place) = .ok [] := by
  unfold lastEntry
  split
  next => exact writeBlock_of_bytes? .nil base
  next =>
    have hmark : List.Forall₂ (fun (e : Entry) part => e.fragment.bytes? = some part)
        [⟨place, .mark⟩] [[]] := .cons rfl .nil
    exact writeBlock_of_bytes? hmark base

theorem bits_of_no_reports (hsize : effectiveSize? target statements = some codeSize)
    {lines : List String} (hreports : reportsOf codeSize lines target statements = []) :
    codeSize.bits = target.bitness := by
  rw [reportsOf, List.append_eq_nil_iff, List.append_eq_nil_iff, List.map_eq_nil_iff] at hreports
  exact (bits_of_ofBits? hsize).trans (bits_selectCodeSize hreports.1.1)

/-- Statements of which nothing is reported are the block of what they emit. -/
theorem assembleStatements_eq_writeBlock
    (hsize : effectiveSize? target statements = some codeSize)
    {lines : List String} (hreports : reportsOf codeSize lines target statements = []) :
    ∃ es, Emitted codeSize target.capacity statements es ∧
      assembleStatements lines target statements =
        (writeBlock codeSize target.base (itemsOf codeSize statements es).reduceOption).mapError
          fun e => [.general e.message] := by
  have hlength := length_places statements
  obtain ⟨es, hes, hemitted⟩ := emissions_spec (List.append_eq_nil_iff.mp hreports).2
  rw [List.map_fst_zip (Nat.le_of_eq hlength.symm)] at hes
  rw [List.map_snd_zip (Nat.le_of_eq hlength)] at hemitted
  refine ⟨es, hes, ?_⟩
  rw [assembleStatements_eq hsize, hreports, if_pos List.isEmpty_nil, hemitted,
    reduceOption_itemsOf, writeEmissions]
  split
  next hempty =>
    rw [List.isEmpty_iff.mp hempty]
    change _ =
      (writeBlock codeSize target.base (lastEntry (bindLabels statements).2.2)).mapError _
    rw [writeBlock_lastEntry]
    rfl
  next =>
    split
    next hblock => rw [hblock]; rfl
    next hblock => rw [hblock]; rfl

theorem assemble_eq_writeBlock (hparse : Source.parse source = .ok statements)
    (hsize : effectiveSize? target statements = some codeSize)
    (hreports : reportsOf codeSize (Text.linesOf source) target statements = []) :
    ∃ es, Emitted codeSize target.capacity statements es ∧
      assemble source target =
        (writeBlock codeSize target.base (itemsOf codeSize statements es).reduceOption).mapError
          fun e => [.general e.message] := by
  rw [assemble_of_parse hparse]
  exact assembleStatements_eq_writeBlock hsize hreports

theorem exists_error_of_report (hparse : Source.parse source = .ok statements)
    (hsize : effectiveSize? target statements = some codeSize) {d : Diagnostic}
    (hd : d ∈ reportsOf codeSize (Text.linesOf source) target statements) :
    ∃ reports, assemble source target = .error reports ∧ d ∈ reports := by
  refine ⟨_, ?_, hd⟩
  rw [assemble_eq hparse hsize, if_neg]
  rw [List.isEmpty_iff]
  exact List.ne_nil_of_mem hd

theorem no_reports_of_assembleStatements {lines : List String}
    (h : assembleStatements lines target statements = .ok code) :
    ∃ codeSize, effectiveSize? target statements = some codeSize ∧
      reportsOf codeSize lines target statements = [] := by
  cases hsize : effectiveSize? target statements with
  | none =>
      unfold effectiveSize? at hsize
      simp [assembleStatements, hsize] at h
  | some codeSize =>
      rw [assembleStatements_eq hsize] at h
      split at h
      next hreports => exact ⟨codeSize, rfl, List.isEmpty_iff.mp hreports⟩
      next => cases h

theorem no_reports_of_assemble (h : assemble source target = .ok code) :
    ∃ statements codeSize, Source.parse source = .ok statements ∧
      effectiveSize? target statements = some codeSize ∧
      reportsOf codeSize (Text.linesOf source) target statements = [] := by
  obtain ⟨statements, hparse, h⟩ := assemble_eq_ok_iff.mp h
  obtain ⟨codeSize, hsize, hreports⟩ := no_reports_of_assembleStatements h
  exact ⟨statements, codeSize, hparse, hsize, hreports⟩

/-- A source is never refused without a diagnostic. -/
theorem reports_ne_nil {reports : List Diagnostic}
    (h : assemble source target = .error reports) : reports ≠ [] := by
  unfold assemble at h
  split at h
  next hparse =>
    cases h
    unfold Source.parse at hparse
    generalize Source.readLines none 1 (Text.linesOf source) = read at hparse
    rcases read with ⟨statements, _ | ⟨d, rest⟩⟩
    · cases hparse
    · cases hparse
      exact List.cons_ne_nil d rest
  next =>
    unfold assembleStatements at h
    dsimp only at h
    split at h
    next =>
      cases h
      simp
    next =>
      split at h
      next =>
        unfold writeEmissions at h
        split at h
        next => cases h
        next =>
          split at h
          next =>
            cases h
            simp
          next => cases h
      next hreports =>
        cases h
        simpa using hreports

end

/-! ## Statements without code -/

theorem mem_emissions_of_error {c : Context} {capacity : UInt64} {lines : List String}
    {numbered : List (Statement × PlaceId)} {s : Statement} {place : PlaceId}
    {e : StatementError} (hs : (s, place) ∈ numbered) (he : emission c capacity s = .error e) :
    reportAt lines s.line e.message ∈ (emissions c capacity lines numbered).2 := by
  induction numbered with
  | nil => cases hs
  | cons p rest ih =>
      rw [emissions]
      dsimp only
      rcases List.mem_cons.mp hs with rfl | hs
      · rw [he]
        exact List.mem_cons_self
      · have hrest := ih hs
        split
        next => exact hrest
        next => exact hrest
        next => exact List.mem_cons_of_mem _ hrest

theorem exists_error_of_emission {source : String} {target : Target}
    {statements : List Statement}
    {codeSize : CodeSize} (hparse : Source.parse source = .ok statements)
    (hsize : effectiveSize? target statements = some codeSize) {s : Statement}
    (hs : s ∈ statements) {e : StatementError}
    (he : emission (contextOf codeSize statements) target.capacity s = .error e) :
    ∃ reports, assemble source target = .error reports ∧
      reportAt (Text.linesOf source) s.line e.message ∈ reports := by
  obtain ⟨i, hi, rfl⟩ := List.mem_iff_getElem.mp hs
  have hplaces : i < (bindLabels statements).2.1.length := by rwa [length_places]
  have hzip : (statements[i], (bindLabels statements).2.1[i]) ∈
      statements.zip (bindLabels statements).2.1 := by
    rw [List.mem_iff_getElem]
    exact ⟨i, by simp [hi, hplaces], by simp⟩
  apply exists_error_of_report hparse hsize
  exact List.mem_append_right _ (mem_emissions_of_error hzip he)

end AsmLoader.Assembly
