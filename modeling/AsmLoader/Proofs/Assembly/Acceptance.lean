import AsmLoader.Proofs.Assembly.Rejection
/-!
# What is accepted

A source that is assembled says nothing that has no meaning for its target: all its lines can be
read, its labels are defined once each, whatever it names is defined, and its registers,
instructions and numbers are there in the code that it asks for. One line that breaks this is
enough for the source to be refused.
-/

namespace AsmLoader.Source

open Machine (Register)

def Operand.registers : Operand → List Register
  | register r => [r]
  | memory _ (.indexed base index _) => base.toList ++ (index.map Prod.fst).toList
  | memory _ (.label _) | memory _ (.absolute _) | immediate _ | symbol _ => []

def scopeAfter (scope : Scope) (lines : List String) : Scope :=
  lines.foldl (fun scope line => (readLine scope line.toList).1) scope

/-- What a statement may say in code for a target of some bitness, if the source has
some labels. -/
structure Statement.Acceptable (bitness : Nat) (labels : List String) (s : Statement) :
    Prop where
  references_defined : ∀ name ∈ s.references, name ∈ labels
  mode_eq : ∀ size, s.body = .mode size → size.bits = bitness
  registers_available : bitness = 32 → ∀ mnemonic operands,
    s.body = .instruction mnemonic operands →
      ∀ operand ∈ operands, ∀ r ∈ operand.registers, ¬r.isLongModeOnly
  mnemonic_available : bitness = 32 → ∀ mnemonic operands,
    s.body = .instruction mnemonic operands → mnemonic ∉ ["cqo", "cdqe", "movsxd"]
  values_fit : ∀ unit items, s.body = .data unit items → ∀ value, .value value ∈ items →
    -2 ^ (unit.bits - 1) ≤ value.toInt ∧ value.toInt < 2 ^ unit.bits

/-- A source whose lines can all be read, whose labels are defined once each, and whose
statements all say what they may. -/
def Acceptable (source : String) (bitness : Nat) : Prop :=
  (∀ before line after, Text.linesOf source = before ++ line :: after →
    ∃ read, (readLine (scopeAfter none before) line.toList).2 = .ok read) ∧
  ∃ statements, parse source = .ok statements ∧
    (statements.flatMap Statement.labels).Nodup ∧
    ∀ s ∈ statements, s.Acceptable bitness (statements.flatMap Statement.labels)

theorem exists_read_of_readLines {scope : Scope} {number : Nat} {lines : List String}
    (h : (readLines scope number lines).2 = []) {before after : List String} {line : String}
    (hlines : lines = before ++ line :: after) :
    ∃ read, (readLine (scopeAfter scope before) line.toList).2 = .ok read := by
  induction before generalizing scope number lines with
  | nil =>
      subst hlines
      rw [List.nil_append, readLines] at h
      dsimp only at h
      split at h
      next heq => exact ⟨_, heq⟩
      next heq => exact ⟨_, heq⟩
      next => cases h
  | cons first before ih =>
      subst hlines
      rw [List.cons_append, readLines] at h
      dsimp only at h
      split at h
      next => exact ih h rfl
      next => exact ih h rfl
      next => cases h

theorem exists_read_of_parse {source : String} {statements : List Statement}
    (h : parse source = .ok statements) {before after : List String} {line : String}
    (hlines : Text.linesOf source = before ++ line :: after) :
    ∃ read, (readLine (scopeAfter none before) line.toList).2 = .ok read := by
  unfold parse at h
  split at h
  next hread =>
    apply exists_read_of_readLines _ hlines
    · exact 1
    · rw [hread]
  next => cases h

end AsmLoader.Source

namespace AsmLoader.Assembly

open Machine (CodeSize Register Width)
open Source (DataItem Operand Statement)

/-! ## Labels -/

namespace Labels

variable {labels : Labels}

def names (labels : Labels) : List String :=
  labels.defined.map Prod.fst

theorem lookup_defined_eq_none_iff {name : String} :
    labels.defined.lookup name = none ↔ name ∉ labels.names := by
  rw [List.lookup_eq_none_iff]
  constructor
  · intro h hmem
    obtain ⟨p, hp, rfl⟩ := List.mem_map.mp hmem
    have hne := h p hp
    simp at hne
  · intro h p hp
    have hne : name ≠ p.1 := fun heq => h (heq ▸ List.mem_map_of_mem hp)
    simpa using hne

theorem nodup_define (line : Nat) (name : String) (h : labels.names.Nodup) :
    (labels.define line name).names.Nodup := by
  unfold define
  split
  next => exact h
  next hfree =>
    have hconcat := h.concat (lookup_defined_eq_none_iff.mp hfree)
    rw [List.concat_eq_append] at hconcat
    simpa [names] using hconcat

theorem names_define {line : Nat} {name : String}
    (h : (labels.define line name).repetitions = []) :
    labels.repetitions = [] ∧ (labels.define line name).names = labels.names ++ [name] := by
  unfold define at h ⊢
  split at h
  next => simp at h
  next => exact ⟨h, by simp [names]⟩

theorem nodup_defineAll (line : Nat) (added : List String) (h : labels.names.Nodup) :
    (added.foldl (define line) labels).names.Nodup := by
  induction added generalizing labels with
  | nil => exact h
  | cons name added ih => exact ih (nodup_define line name h)

theorem names_defineAll {line : Nat} {added : List String}
    (h : (added.foldl (define line) labels).repetitions = []) :
    labels.repetitions = [] ∧
      (added.foldl (define line) labels).names = labels.names ++ added := by
  induction added generalizing labels with
  | nil => exact ⟨h, (List.append_nil _).symm⟩
  | cons name added ih =>
      obtain ⟨hfirst, hnames⟩ := ih h
      obtain ⟨hlabels, hname⟩ := names_define hfirst
      refine ⟨hlabels, ?_⟩
      rw [List.foldl_cons, hnames, hname, List.append_assoc]
      rfl

theorem names_settle (labels : Labels) : labels.settle.1.names = labels.names := by
  rw [names, defined_settle, names]

theorem repetitions_settle (labels : Labels) :
    labels.settle.1.repetitions = labels.repetitions := by
  unfold settle
  split <;> rfl

theorem nodup_statement (s : Statement) (h : labels.names.Nodup) :
    (labels.statement s).1.names.Nodup := by
  have hdefined := nodup_defineAll s.line s.labels h
  unfold statement
  dsimp only
  split
  next => rwa [names_settle]
  next => exact hdefined

theorem names_statement {s : Statement} (h : (labels.statement s).1.repetitions = []) :
    labels.repetitions = [] ∧ (labels.statement s).1.names = labels.names ++ s.labels := by
  unfold statement at h ⊢
  dsimp only at h ⊢
  split at h
  next hemits =>
    rw [repetitions_settle] at h
    rw [if_pos hemits, names_settle]
    exact names_defineAll h
  next hemits =>
    rw [if_neg hemits]
    exact names_defineAll h

theorem nodup_statements (statements : List Statement) (h : labels.names.Nodup) :
    (labels.statements statements).1.names.Nodup := by
  induction statements generalizing labels with
  | nil => exact h
  | cons s rest ih => exact ih (nodup_statement s h)

theorem names_statements {statements : List Statement}
    (h : (labels.statements statements).1.repetitions = []) :
    labels.repetitions = [] ∧
      (labels.statements statements).1.names =
        labels.names ++ statements.flatMap Statement.labels := by
  induction statements generalizing labels with
  | nil => exact ⟨h, (List.append_nil _).symm⟩
  | cons s rest ih =>
      rw [statements_cons] at h ⊢
      obtain ⟨hfirst, hnames⟩ := ih h
      obtain ⟨hlabels, hname⟩ := names_statement hfirst
      refine ⟨hlabels, ?_⟩
      rw [hnames, hname, List.flatMap_cons, List.append_assoc]

end Labels

theorem nodup_labels {statements : List Statement}
    (h : (bindLabels statements).1.repetitions = []) :
    (statements.flatMap Statement.labels).Nodup := by
  have hempty : Labels.empty.names.Nodup := .nil
  have hnodup := Labels.nodup_statements statements hempty
  change (Labels.empty.statements statements).1.settle.1.repetitions = [] at h
  rw [Labels.repetitions_settle] at h
  rwa [(Labels.names_statements h).2] at hnodup

theorem mem_labels_of_find? {statements : List Statement} {name : String} {place : PlaceId}
    (h : (bindLabels statements).1.find? name = some place) :
    name ∈ statements.flatMap Statement.labels := by
  obtain ⟨k, hlocation, -⟩ := location?_of_find? h
  obtain ⟨j, hj, -⟩ := Option.map_eq_some_iff.mp hlocation
  obtain ⟨hlt, hname, -⟩ := List.findIdx?_eq_some_iff_getElem.mp hj
  exact List.mem_flatMap.mpr ⟨_, List.getElem_mem hlt, of_decide_eq_true hname⟩

/-! ## Code sizes -/

theorem bits_of_mode {bitness : Nat} {selected : Option CodeSize} {statements : List Statement}
    (h : (selectCodeSize bitness selected statements).2 = [])
    (hselected : ∀ size ∈ selected, size.bits = bitness) {s : Statement} (hs : s ∈ statements)
    {size : CodeSize} (hbody : s.body = .mode size) : size.bits = bitness := by
  induction statements generalizing selected with
  | nil => cases hs
  | cons first rest ih =>
      unfold selectCodeSize at h
      split at h
      next size' first' hfirst =>
        dsimp only at h
        split at h
        next heq =>
          rcases List.mem_cons.mp hs with rfl | hs
          · cases hfirst.symm.trans hbody
            exact heq ▸ hselected first' rfl
          · exact ih h hselected hs
        next => cases h
      next size' hfirst =>
        dsimp only at h
        split at h
        next hbits =>
          rcases List.mem_cons.mp hs with rfl | hs
          · cases hfirst.symm.trans hbody
            exact hbits
          · apply ih h _ hs
            rintro _ ⟨⟩
            exact hbits
        next => cases h
      next hnone hsome =>
        rcases List.mem_cons.mp hs with rfl | hs
        · have hselected :=
            Option.eq_none_iff_forall_ne_some.mpr fun first => hnone size first hbody
          exact (hsome size hbody hselected).elim
        · exact ih h hselected hs

/-! ## Registers, mnemonics and numbers -/

section Emission

variable {c : Context} {capacity : UInt64} {s : Statement} {e : Emission}

theorem not_isLongModeOnly_of_checkRegister {r : Register} {u : Unit}
    (hsize : c.codeSize = .bits32) (h : c.checkRegister r = .ok u) : ¬r.isLongModeOnly := by
  unfold Context.checkRegister at h
  split at h
  next => cases h
  next hnot => exact fun hlong => hnot ⟨hsize, hlong⟩

theorem not_isLongModeOnly_of_argument {operand : Operand} {a : Argument}
    (hsize : c.codeSize = .bits32) (h : c.argument operand = .ok a) {r : Register}
    (hr : r ∈ operand.registers) : ¬r.isLongModeOnly := by
  cases operand with
  | register r' =>
      obtain ⟨_, hcheck, -⟩ := bind_eq_ok_iff.mp h
      cases List.mem_singleton.mp hr
      exact not_isLongModeOnly_of_checkRegister hsize hcheck
  | immediate value => cases hr
  | symbol name => cases hr
  | memory size location =>
      obtain ⟨address, haddress, -⟩ := bind_eq_ok_iff.mp h
      unfold Context.address at haddress
      split at haddress
      next => cases hr
      next => cases hr
      next base displacement =>
        obtain ⟨_, hbase, -⟩ := bind_eq_ok_iff.mp haddress
        cases List.mem_singleton.mp hr
        exact not_isLongModeOnly_of_checkRegister hsize hbase
      next base index scale displacement =>
        obtain ⟨_, hbase, haddress⟩ := bind_eq_ok_iff.mp haddress
        obtain ⟨_, hindex, -⟩ := bind_eq_ok_iff.mp haddress
        rcases List.mem_cons.mp hr with rfl | hr
        · exact not_isLongModeOnly_of_checkRegister hsize hbase
        · cases List.mem_singleton.mp hr
          exact not_isLongModeOnly_of_checkRegister hsize hindex
      next index scale displacement =>
        obtain ⟨_, hindex, -⟩ := bind_eq_ok_iff.mp haddress
        cases List.mem_singleton.mp hr
        exact not_isLongModeOnly_of_checkRegister hsize hindex
      next => cases hr

theorem registers_of_emission (h : emission c capacity s = .ok e) (hsize : c.codeSize = .bits32)
    {mnemonic : String} {operands : List Operand}
    (hbody : s.body = .instruction mnemonic operands)
    {operand : Operand} (hoperand : operand ∈ operands) {r : Register}
    (hr : r ∈ operand.registers) : ¬r.isLongModeOnly := by
  simp only [emission, hbody] at h
  obtain ⟨args, hargs, -⟩ := bind_eq_ok_iff.mp h
  obtain ⟨a, -, ha⟩ := exists_mem_of_forall₂ (mapM_eq_ok_iff.mp hargs) hoperand
  exact not_isLongModeOnly_of_argument hsize ha hr

theorem select_longModeOnly {name : String} {mnemonic : Mnemonic}
    (hname : Mnemonic.ofName? name = some mnemonic) (hlong : mnemonic.isLongModeOnly)
    (args : List Argument) : select .bits32 name args = .error (.longModeOnly name) := by
  simp [select_of_ofName? hname, hlong]

theorem mnemonic_of_emission (h : emission c capacity s = .ok e) (hsize : c.codeSize = .bits32)
    {mnemonic : String} {operands : List Operand}
    (hbody : s.body = .instruction mnemonic operands) :
    mnemonic ∉ ["cqo", "cdqe", "movsxd"] := by
  simp only [emission, hbody] at h
  obtain ⟨args, -, h⟩ := bind_eq_ok_iff.mp h
  obtain ⟨selected, hselected, -⟩ := bind_eq_ok_iff.mp h
  rw [hsize] at hselected
  have hcqo : Mnemonic.ofName? "cqo" = some (.bare .cqo) := rfl
  have hcdqe : Mnemonic.ofName? "cdqe" = some (.bare .cdqe) := rfl
  have hmovsxd : Mnemonic.ofName? "movsxd" = some .movsxd := rfl
  intro hmem
  simp only [List.mem_cons, List.not_mem_nil, or_false] at hmem
  rcases hmem with rfl | rfl | rfl
  · cases (select_longModeOnly hcqo rfl args).symm.trans hselected
  · cases (select_longModeOnly hcdqe rfl args).symm.trans hselected
  · cases (select_longModeOnly hmovsxd rfl args).symm.trans hselected

theorem bounds_of_wrapImmediate {w : Width} {value value' : Int64}
    (h : wrapImmediate w value = .ok value') :
    -2 ^ (w.bits - 1) ≤ value.toInt ∧ value.toInt < 2 ^ w.bits := by
  unfold wrapImmediate at h
  split at h
  next hbounds => cases w <;> exact hbounds
  next => cases h

theorem bounds_of_itemBytes {unit : Width} {value : Int64} {bytes : List UInt8}
    (h : itemBytes unit (.value value) = .ok bytes) :
    -2 ^ (unit.bits - 1) ≤ value.toInt ∧ value.toInt < 2 ^ unit.bits := by
  by_cases hunit : unit = .qword
  · subst hunit
    have hlow := value.le_toInt
    have hhigh := value.toInt_lt
    simp only [Width.bits, Width.bytes]
    omega
  · simp only [itemBytes, ne_eq, hunit, not_false_eq_true, if_true] at h
    obtain ⟨value', hvalue, -⟩ := bind_eq_ok_iff.mp h
    exact bounds_of_wrapImmediate hvalue

theorem values_of_emission (h : emission c capacity s = .ok e) {unit : Width}
    {items : List DataItem} (hbody : s.body = .data unit items) {value : Int64}
    (hvalue : .value value ∈ items) :
    -2 ^ (unit.bits - 1) ≤ value.toInt ∧ value.toInt < 2 ^ unit.bits := by
  simp only [emission, hbody] at h
  obtain ⟨parts, hparts, -⟩ := bind_eq_ok_iff.mp h
  obtain ⟨bytes, -, hbytes⟩ := exists_mem_of_forall₂ (mapM_eq_ok_iff.mp hparts) hvalue
  exact bounds_of_itemBytes hbytes

end Emission

/-! ## Whole sources -/

theorem acceptable_of_assemble {source : String} {target : Target} {code : Code}
    (h : assemble source target = .ok code) : Source.Acceptable source target.bitness := by
  obtain ⟨statements, codeSize, es, parts, hparse, hbits, hes, -⟩ := exists_laid_of_assemble h
  obtain ⟨statements', codeSize', hparse', -, hreports⟩ := no_reports_of_assemble h
  cases hparse.symm.trans hparse'
  rw [reportsOf, List.append_eq_nil_iff, List.append_eq_nil_iff, List.map_eq_nil_iff,
    List.map_eq_nil_iff] at hreports
  obtain ⟨⟨hconflicts, hrepetitions⟩, -⟩ := hreports
  refine ⟨fun _ _ _ => Source.exists_read_of_parse hparse, statements, hparse,
    nodup_labels hrepetitions, ?_⟩
  intro s hs
  obtain ⟨e, -, he⟩ := exists_mem_of_forall₂ hes hs
  have hsize (hbitness : target.bitness = 32) : codeSize = .bits32 := by
    rw [hbitness] at hbits
    cases codeSize with
    | bits32 => rfl
    | bits64 => cases hbits
  refine ⟨?_, ?_, ?_, ?_, ?_⟩
  · intro name hname
    obtain ⟨place, hplace, -⟩ := reference?_emission he hname
    exact mem_labels_of_find? hplace
  · intro size hbody
    exact bits_of_mode hconflicts (by simp) hs hbody
  · intro hbitness mnemonic operands hbody operand hoperand r hr
    exact registers_of_emission he (hsize hbitness) hbody hoperand hr
  · intro hbitness mnemonic operands hbody
    exact mnemonic_of_emission he (hsize hbitness) hbody
  · intro unit items hbody value hvalue
    exact values_of_emission he hbody hvalue

/-- Only an acceptable source has code. A source with a line or a statement that is not
acceptable is refused, with a diagnostic. -/
theorem assemble_accepts (source : String) (target : Target) :
    (∀ code, assemble source target = .ok code → Source.Acceptable source target.bitness) ∧
      (¬Source.Acceptable source target.bitness →
        ∃ reports, assemble source target = .error reports ∧ reports ≠ []) := by
  refine ⟨fun code h => acceptable_of_assemble h, ?_⟩
  intro hnot
  cases h : assemble source target with
  | ok code => exact absurd (acceptable_of_assemble h) hnot
  | error reports => exact ⟨reports, rfl, reports_ne_nil h⟩

/-- A forward reference is accepted, and a label that is defined again is not, whatever stands
around it. -/
theorem assemble_accepts_forward_not_repeated :
    Source.Acceptable "use64\njmp x\nmov al, 255\nx: db 1" 64 ∧
      ∃ reports, assemble "x: nop\nx: ret" ⟨0x10000000, 0x1000, 64⟩ = .error reports ∧
        reports ≠ [] := by
  have haccepted : assemble "use64\njmp x\nmov al, 255\nx: db 1" ⟨0x10000000, 0x1000, 64⟩ =
      .ok [0xEB, 0x02, 0xB0, 0xFF, 0x01] := by decide +kernel
  have hparse : Source.parse "x: nop\nx: ret" =
      .ok [⟨1, ["x"], .instruction "nop" []⟩, ⟨2, ["x"], .instruction "ret" []⟩] := by
    decide +kernel
  refine ⟨(assemble_accepts _ _).1 _ haccepted, (assemble_accepts _ _).2 ?_⟩
  rintro ⟨-, statements, hstatements, hnodup, -⟩
  cases hparse.symm.trans hstatements
  simp at hnodup

end AsmLoader.Assembly
