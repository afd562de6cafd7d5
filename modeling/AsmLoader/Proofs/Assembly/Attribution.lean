import AsmLoader.Proofs.Assembly.Repetitions
/-!
# Where diagnostics stand

What is reported of a line or of a statement names a line of the source and shows it. A block
that cannot be written is reported as a whole: its only diagnostic names no line.
-/

namespace AsmLoader

/-- The diagnostic names a line of a source, counted from 1, and shows that line. -/
def Diagnostic.Locates (d : Diagnostic) (source : String) : Prop :=
  ∃ line text, d.line = some line ∧ 0 < line ∧ (Text.linesOf source)[line - 1]? = some text ∧
    d.source = some text

namespace Source

/-! ## Lines and statements -/

section

variable {scope : Scope} {number : Nat} {lines : List String}

theorem exists_line_of_statement {s : Statement} (hs : s ∈ (readLines scope number lines).1) :
    ∃ i < lines.length, s.line = number + i := by
  induction lines generalizing scope number with
  | nil => cases hs
  | cons line rest ih =>
      have hrest (hs : s ∈ (readLines (readLine scope line.toList).1 (number + 1) rest).1) :
          ∃ i < (line :: rest).length, s.line = number + i := by
        obtain ⟨i, hi, hline⟩ := ih hs
        refine ⟨i + 1, Nat.succ_lt_succ hi, ?_⟩
        omega
      rw [readLines] at hs
      dsimp only at hs
      split at hs
      next =>
        rcases List.mem_cons.mp hs with rfl | hs
        · exact ⟨0, Nat.zero_lt_succ _, rfl⟩
        · exact hrest hs
      next => exact hrest hs
      next => exact hrest hs

theorem exists_line_of_report {d : Diagnostic} (hd : d ∈ (readLines scope number lines).2) :
    ∃ i text, lines[i]? = some text ∧ d.line = some (number + i) ∧ d.source = some text := by
  induction lines generalizing scope number with
  | nil => cases hd
  | cons line rest ih =>
      have hrest (hd : d ∈ (readLines (readLine scope line.toList).1 (number + 1) rest).2) :
          ∃ i text, (line :: rest)[i]? = some text ∧ d.line = some (number + i) ∧
            d.source = some text := by
        obtain ⟨i, text, htext, hline, hsource⟩ := ih hd
        refine ⟨i + 1, text, htext, ?_, hsource⟩
        rw [hline, Nat.add_right_comm, Nat.add_assoc]
      rw [readLines] at hd
      dsimp only at hd
      split at hd
      next => exact hrest hd
      next => exact hrest hd
      next =>
        rcases List.mem_cons.mp hd with rfl | hd
        · exact ⟨0, line, rfl, rfl, rfl⟩
        · exact hrest hd

end

theorem line_of_mem_parse {source : String} {statements : List Statement}
    (h : parse source = .ok statements) {s : Statement} (hs : s ∈ statements) :
    0 < s.line ∧ s.line ≤ (Text.linesOf source).length := by
  unfold parse at h
  split at h
  next hread =>
    cases h
    have hmem : s ∈ (readLines none 1 (Text.linesOf source)).1 := by rwa [hread]
    obtain ⟨i, hi, hline⟩ := exists_line_of_statement hmem
    omega
  next => cases h

theorem locates_of_mem_parse {source : String} {reports : List Diagnostic}
    (h : parse source = .error reports) {d : Diagnostic} (hd : d ∈ reports) :
    d.Locates source := by
  unfold parse at h
  split at h
  next => cases h
  next hread =>
    cases h
    have hmem : d ∈ (readLines none 1 (Text.linesOf source)).2 := by rwa [hread]
    obtain ⟨i, text, htext, hline, hsource⟩ := exists_line_of_report hmem
    refine ⟨1 + i, text, hline, by omega, ?_, hsource⟩
    rwa [Nat.add_sub_cancel_left]

end Source

namespace Assembly

open Machine (CodeSize Instruction Refusal)
open Source (Statement)

/-! ## Reports of statements -/

theorem exists_statement_of_conflict {bitness : Nat} {selected : Option CodeSize}
    {statements : List Statement} {c : SizeConflict}
    (hc : c ∈ (selectCodeSize bitness selected statements).2) :
    ∃ s ∈ statements, c.line = s.line := by
  induction statements generalizing selected with
  | nil => simp [selectCodeSize] at hc
  | cons s rest ih =>
      have hrest {selected' : Option CodeSize}
          (hc : c ∈ (selectCodeSize bitness selected' rest).2) :
          ∃ s' ∈ s :: rest, c.line = s'.line := by
        obtain ⟨s', hs', hline⟩ := ih hc
        exact ⟨s', List.mem_cons_of_mem s hs', hline⟩
      have hhead {message : String} {selected' : Option CodeSize}
          (hc : c ∈ ⟨s.line, message⟩ :: (selectCodeSize bitness selected' rest).2) :
          ∃ s' ∈ s :: rest, c.line = s'.line := by
        rcases List.mem_cons.mp hc with rfl | hc
        · exact ⟨s, List.mem_cons_self, rfl⟩
        · exact hrest hc
      unfold selectCodeSize at hc
      split at hc
      next =>
        dsimp only at hc
        split at hc
        next => exact hrest hc
        next => exact hhead hc
      next =>
        dsimp only at hc
        split at hc
        next => exact hrest hc
        next => exact hhead hc
      next => exact hrest hc

theorem exists_statement_of_repetition {statements : List Statement} {r : Repetition}
    (hr : r ∈ (bindLabels statements).1.repetitions) : ∃ s ∈ statements, r.line = s.line := by
  rw [repetitions_bindLabels, mem_repetitionsOf_iff] at hr
  obtain ⟨i, hi, -⟩ := hr
  obtain ⟨s, hs, hmark⟩ := List.mem_flatMap.mp (List.mem_of_getElem? hi)
  obtain ⟨name, -, heq⟩ := List.mem_map.mp hmark
  exact ⟨s, hs, (congrArg Prod.snd heq).symm⟩

theorem exists_statement_of_failure {c : Context} {capacity : UInt64} {lines : List String}
    {numbered : List (Statement × PlaceId)} {d : Diagnostic}
    (hd : d ∈ (emissions c capacity lines numbered).2) :
    ∃ s ∈ numbered.map Prod.fst, ∃ message, d = reportAt lines s.line message := by
  induction numbered with
  | nil => cases hd
  | cons p rest ih =>
      have hrest (hd : d ∈ (emissions c capacity lines rest).2) :
          ∃ s ∈ (p :: rest).map Prod.fst, ∃ message, d = reportAt lines s.line message := by
        obtain ⟨s, hs, message, hmessage⟩ := ih hd
        exact ⟨s, List.mem_cons_of_mem _ hs, message, hmessage⟩
      rw [emissions] at hd
      dsimp only at hd
      split at hd
      next => exact hrest hd
      next => exact hrest hd
      next =>
        rcases List.mem_cons.mp hd with rfl | hd
        · exact ⟨p.1, List.mem_cons_self, _, rfl⟩
        · exact hrest hd

section

variable {source : String} {target : Target} {statements : List Statement} {codeSize : CodeSize}

theorem locates_reportAt (hparse : Source.parse source = .ok statements) {s : Statement}
    (hs : s ∈ statements) (message : String) :
    (reportAt (Text.linesOf source) s.line message).Locates source := by
  obtain ⟨hpos, hle⟩ := Source.line_of_mem_parse hparse hs
  have hlt : s.line - 1 < (Text.linesOf source).length := by omega
  exact ⟨s.line, _, rfl, hpos, List.getElem?_eq_getElem hlt, List.getElem?_eq_getElem hlt⟩

theorem locates_of_mem_reportsOf (hparse : Source.parse source = .ok statements) {d : Diagnostic}
    (hd : d ∈ reportsOf codeSize (Text.linesOf source) target statements) :
    d.Locates source := by
  rw [reportsOf, List.mem_append, List.mem_append, List.mem_map, List.mem_map] at hd
  rcases hd with (⟨c, hc, rfl⟩ | ⟨r, hr, rfl⟩) | hd
  · obtain ⟨s, hs, hline⟩ := exists_statement_of_conflict hc
    rw [hline]
    exact locates_reportAt hparse hs c.message
  · obtain ⟨s, hs, hline⟩ := exists_statement_of_repetition hr
    rw [hline]
    exact locates_reportAt hparse hs r.message
  · obtain ⟨s, hs, message, rfl⟩ := exists_statement_of_failure hd
    rw [List.map_fst_zip (Nat.le_of_eq (length_places statements).symm)] at hs
    exact locates_reportAt hparse hs message

/-! ## Blocks that cannot be written -/

/-- Nothing is reported of the statements of a source, and yet the block of what they emit cannot
be written. -/
def RefusedAsBlock (source : String) (target : Target) (e : BlockError) : Prop :=
  ∃ statements codeSize es, Source.parse source = .ok statements ∧
    effectiveSize? target statements = some codeSize ∧
    reportsOf codeSize (Text.linesOf source) target statements = [] ∧
    Emitted codeSize target.capacity statements es ∧
    writeBlock codeSize target.base (itemsOf codeSize statements es).reduceOption = .error e

theorem assemble_of_refusedAsBlock {e : BlockError} (h : RefusedAsBlock source target e) :
    assemble source target = .error [.general e.message] := by
  obtain ⟨statements, codeSize, es, hparse, hsize, hreports, hes, hblock⟩ := h
  obtain ⟨es', hes', hassemble⟩ := assemble_eq_writeBlock hparse hsize hreports
  have hsame := (mapM_eq_ok_iff.mpr hes).symm.trans (mapM_eq_ok_iff.mpr hes')
  cases hsame
  rw [hassemble, hblock]
  rfl

theorem exists_error_of_formless (hparse : Source.parse source = .ok statements)
    (hsize : effectiveSize? target statements = some codeSize) {s : Statement}
    (hs : s ∈ statements) {i : Instruction PlaceId} {refusal : Refusal}
    (he : emission (contextOf codeSize statements) target.capacity s = .ok (.instruction i))
    (hencode : i.encode codeSize = .error refusal) :
    ∃ reports, assemble source target = .error reports := by
  by_cases hreports : reportsOf codeSize (Text.linesOf source) target statements = []
  · obtain ⟨es, hes, hassemble⟩ := assemble_eq_writeBlock hparse hsize hreports
    rw [hassemble]
    cases hblock :
        writeBlock codeSize target.base (itemsOf codeSize statements es).reduceOption with
    | error e => exact ⟨_, rfl⟩
    | ok code =>
        obtain ⟨parts, hlaid⟩ := exists_laid hblock
        obtain ⟨k, hk⟩ := List.getElem?_of_mem hs
        obtain ⟨e, part, d, he', -, hwritten, -⟩ := written_partsOf hes hlaid hk
        cases he.symm.trans he'
        simp only [Emission.Written, Emission.fragment?, Fragment.ofInstruction,
          hencode] at hwritten
        cases hwritten
  · rw [assemble_eq hparse hsize, if_neg (by rwa [List.isEmpty_iff])]
    exact ⟨_, rfl⟩

end

/-- Where the diagnostics of a refused source stand. There is at least one; all of them show
lines of the source, or the only one is of a block that cannot be written, and names no line.
What is said of a statement alone is reported at its line. An instruction that has no form is
refused, but by the block. -/
structure Attributes (source : String) (target : Target) : Prop where
  ne_nil : ∀ reports, assemble source target = .error reports → reports ≠ []
  locates : ∀ reports, assemble source target = .error reports →
    (∀ d ∈ reports, d.Locates source) ∨
      ∃ e, RefusedAsBlock source target e ∧ reports = [.general e.message]
  block : ∀ e, RefusedAsBlock source target e →
    assemble source target = .error [.general e.message]
  statement : ∀ statements codeSize s e, Source.parse source = .ok statements →
    effectiveSize? target statements = some codeSize → s ∈ statements →
      emission (contextOf codeSize statements) target.capacity s = .error e →
        ∃ reports, assemble source target = .error reports ∧
          reportAt (Text.linesOf source) s.line e.message ∈ reports
  formless : ∀ statements codeSize s i refusal, Source.parse source = .ok statements →
    effectiveSize? target statements = some codeSize → s ∈ statements →
      emission (contextOf codeSize statements) target.capacity s = .ok (.instruction i) →
        i.encode codeSize = .error refusal → ∃ reports, assemble source target = .error reports

theorem assemble_attributes (source : String) {target : Target}
    (hbits : target.bitness = 32 ∨ target.bitness = 64) : Attributes source target := by
  refine ⟨fun _ => reports_ne_nil, ?_, fun _ => assemble_of_refusedAsBlock,
    fun _ _ _ _ hparse hsize hs he => exists_error_of_emission hparse hsize hs he,
    fun _ _ _ _ _ hparse hsize hs he => exists_error_of_formless hparse hsize hs he⟩
  intro reports h
  cases hparse : Source.parse source with
  | error errors =>
      simp only [assemble, hparse] at h
      cases h
      exact .inl fun d hd => Source.locates_of_mem_parse hparse hd
  | ok statements =>
      obtain ⟨codeSize, hsize⟩ := exists_effectiveSize hbits statements
      by_cases hreports : reportsOf codeSize (Text.linesOf source) target statements = []
      · right
        obtain ⟨es, hes, hassemble⟩ := assemble_eq_writeBlock hparse hsize hreports
        rw [hassemble] at h
        cases hblock : writeBlock codeSize target.base
            (itemsOf codeSize statements es).reduceOption with
        | ok code => cases (congrArg (Except.mapError _) hblock).symm.trans h
        | error e =>
            refine ⟨e, ⟨statements, codeSize, es, hparse, hsize, hreports, hes, hblock⟩, ?_⟩
            rw [hblock] at h
            cases h
            rfl
      · left
        rw [assemble_eq hparse hsize, if_neg (by rwa [List.isEmpty_iff])] at h
        cases h
        exact fun d hd => locates_of_mem_reportsOf hparse hd

/-- The second line has an instruction, but one without a form. -/
theorem assemble_attributes_high_byte :
    Attributes "nop\nmov ah, r8b" ⟨0x10000000, 0x1000, 64⟩ ∧
      assemble "nop\nmov ah, r8b" ⟨0x10000000, 0x1000, 64⟩ =
        .error [⟨none, "Registers AH, CH, DH, BH can't be used if there's a REX prefix. " ++
          "Use AL, CL, DL, BL, SPL, BPL, SIL, DIL, R8L-R15L instead. : 0x0 mov ah,r8b", none⟩] :=
  ⟨assemble_attributes _ (.inr rfl), by decide +kernel⟩

end Assembly

end AsmLoader
