import AsmLoader.Proofs.Source.Evaluation
import AsmLoader.Proofs.Source.Grammar
import AsmLoader.Source.Operand
/-!
# Addresses in brackets

Numbers, texts and registers that are accepted in brackets become an address of their value:
whatever the registers hold, the base, the scaled index and the displacement add up to it. Such a
base and index are registers that can address memory, of one size, and the stack pointer is no
index.
-/

namespace AsmLoader.Source

open Machine (Register Scale Width)

/-! ## Registers without symbols -/

def NamesRegisters (tokens : List Token) : Prop :=
  ∀ name, .word name ∈ tokens → (Register.ofName? name).isSome

theorem NamesRegisters.mono {tokens tokens' : List Token} (h : NamesRegisters tokens')
    (hsubset : tokens ⊆ tokens') : NamesRegisters tokens :=
  fun name hname => h name (hsubset hname)

namespace Formula

variable {scope : Scope} {t : Formula}

theorem subset_enclose (needed : Bool) (tokens : List Token) :
    tokens ⊆ enclose needed tokens := by
  cases needed with
  | true =>
      intro token htoken
      simp [enclose, htoken]
  | false => exact List.Subset.refl tokens

theorem left_subset_operation (tokens tokens' : List Token) (token : Token) (needed : Bool) :
    tokens ⊆ tokens ++ token :: enclose needed tokens' :=
  List.subset_append_left _ _

theorem right_subset_operation (tokens tokens' : List Token) (token : Token) (needed : Bool) :
    tokens' ⊆ tokens ++ token :: enclose needed tokens' :=
  List.subset_append_of_subset_right _
    (List.subset_cons_of_subset _ (subset_enclose needed tokens'))

theorem symbols_of_fold (hnames : NamesRegisters t.tokens) {l : Linear}
    (h : t.fold scope = .ok l) : l.symbols = [] := by
  induction t generalizing l with
  | number value =>
      cases h
      rfl
  | text bytes =>
      rw [fold, operandOf_text (isOperand_of_operandOf_text h)] at h
      cases h
      rfl
  | word name =>
      obtain ⟨r, hr⟩ := Option.isSome_iff_exists.mp (hnames name List.mem_cons_self)
      rw [fold, operandOf, hr] at h
      cases h
      rfl
  | group t ih => exact ih (hnames.mono (subset_enclose true _)) h
  | plus t ih => exact ih (hnames.mono (right_subset_operation [] _ _ _)) h
  | minus t ih =>
      obtain ⟨a, ha, h⟩ := bind_eq_ok_iff.mp h
      have hsymbols : a.symbols = [] := ih (hnames.mono (right_subset_operation [] _ _ _)) ha
      cases h
      exact Linear.symbols_scale hsymbols (-1)
  | add a b iha ihb =>
      obtain ⟨l, hl, h⟩ := bind_eq_ok_iff.mp h
      obtain ⟨r, hr, h⟩ := bind_eq_ok_iff.mp h
      have hleft : l.symbols = [] := iha (hnames.mono (left_subset_operation _ _ _ _)) hl
      have hright : r.symbols = [] := ihb (hnames.mono (right_subset_operation _ _ _ _)) hr
      cases h
      exact Linear.symbols_add hleft hright
  | sub a b iha ihb =>
      obtain ⟨l, hl, h⟩ := bind_eq_ok_iff.mp h
      obtain ⟨r, hr, h⟩ := bind_eq_ok_iff.mp h
      have hleft : l.symbols = [] := iha (hnames.mono (left_subset_operation _ _ _ _)) hl
      have hright : r.symbols = [] := ihb (hnames.mono (right_subset_operation _ _ _ _)) hr
      cases h
      exact Linear.symbols_add hleft (Linear.symbols_scale hright (-1))
  | mul a b iha ihb =>
      obtain ⟨l, hl, h⟩ := bind_eq_ok_iff.mp h
      obtain ⟨r, hr, h⟩ := bind_eq_ok_iff.mp h
      have hfactor : a.tokens ⊆ (mul a b).tokens :=
        List.Subset.trans (subset_enclose a.isSum _) (left_subset_operation _ _ _ _)
      have hleft : l.symbols = [] := iha (hnames.mono hfactor) hl
      have hright : r.symbols = [] := ihb (hnames.mono (right_subset_operation _ _ _ _)) hr
      exact Linear.symbols_mul hleft hright h

end Formula

/-! ## Bases and indices -/

section Registers

variable {registers : List (Register × Int64)}

/-- The orders in which the registers of an address can stand. The base has the coefficient one,
and a single register with another coefficient is the index. -/
inductive Ordered : List (Register × Int64) → Option Register → Option (Register × Int64) →
    Prop where
  | none : Ordered [] none none
  | base (b : Register) : Ordered [(b, 1)] (some b) none
  | index (r : Register) (factor : Int64) : Ordered [(r, factor)] none (some (r, factor))
  | baseFirst (b r : Register) (factor : Int64) :
      Ordered [(b, 1), (r, factor)] (some b) (some (r, factor))
  | indexFirst (b r : Register) (factor : Int64) :
      Ordered [(r, factor), (b, 1)] (some b) (some (r, factor))

theorem ordered_of_baseAndIndex {base : Option Register} {index : Option (Register × Int64)}
    (h : baseAndIndex registers = .ok (base, index)) : Ordered registers base index := by
  unfold baseAndIndex at h
  split at h
  next =>
    cases h
    exact .none
  next r factor =>
    split at h
    next hone =>
      cases h
      exact hone ▸ .base r
    next =>
      cases h
      exact .index r factor
  next first firstFactor second secondFactor =>
    split at h
    next hones =>
      obtain ⟨rfl, rfl, -⟩ := hones
      cases h
      exact .indexFirst second first 1
    next =>
      split at h
      next hone =>
        cases h
        exact hone ▸ .baseFirst first second secondFactor
      next =>
        split at h
        next hone =>
          cases h
          exact hone ▸ .indexFirst second first firstFactor
        next => cases h
  next => cases h

/-- The base and the index that the registers of an address are split into: they are among the
registers, and together they are their sum. -/
structure Splits (registers : List (Register × Int64)) (base : Option Register)
    (index : Option (Register × Int64)) : Prop where
  sum : ∀ register, evalTerms register registers =
    base.elim 0 register + index.elim 0 fun (r, factor) => register r * factor
  base_mem : ∀ r, base = some r → r ∈ registers.map Prod.fst
  index_mem : ∀ r factor, index = some (r, factor) → r ∈ registers.map Prod.fst

theorem splits_base_index (base r : Register) (factor : Int64) :
    Splits [(base, 1), (r, factor)] (some base) (some (r, factor)) := by
  refine ⟨fun register => ?_, by simp, by simp⟩
  simp only [evalTerms, Option.elim]
  grind

theorem splits_index_base (base r : Register) (factor : Int64) :
    Splits [(r, factor), (base, 1)] (some base) (some (r, factor)) := by
  refine ⟨fun register => ?_, by simp, by simp⟩
  simp only [evalTerms, Option.elim]
  grind

theorem splits_of_baseAndIndex {base : Option Register} {index : Option (Register × Int64)}
    (h : baseAndIndex registers = .ok (base, index)) : Splits registers base index := by
  cases ordered_of_baseAndIndex h with
  | none => exact ⟨fun _ => rfl, nofun, nofun⟩
  | base b =>
      refine ⟨fun register => ?_, by simp, nofun⟩
      simp [evalTerms]
  | index r factor =>
      refine ⟨fun register => ?_, nofun, by simp⟩
      simp [evalTerms, Int64.mul_comm]
  | baseFirst b r factor => exact splits_base_index b r factor
  | indexFirst b r factor => exact splits_index_base b r factor

theorem eq_of_scaleOf {factor : Int64} {scale : Scale} (h : scaleOf? factor = some scale) :
    Int64.ofNat scale.factor = factor := by
  simpa using List.find?_some h

theorem scaleOf?_factor (scale : Scale) : scaleOf? (Int64.ofNat scale.factor) = some scale := by
  cases scale <;> decide

theorem checkIndex_eq_ok_iff {base : Option Register} {r : Register} {factor : Int64}
    {checked : Register × Scale} : checkIndex base r factor = .ok checked ↔
      ∃ scale : Scale, checked = (r, scale) ∧ factor = Int64.ofNat scale.factor ∧
        r.number.val ≠ 4 ∧ ∀ b ∈ base, b.width = r.width := by
  constructor
  · intro h
    rw [checkIndex] at h
    split at h
    next => cases h
    next scale hscale =>
      split at h
      next => cases h
      next hnumber =>
        split at h
        next => cases h
        next hwidth =>
          cases h
          refine ⟨scale, rfl, (eq_of_scaleOf hscale).symm, hnumber, ?_⟩
          rintro b rfl
          simpa using hwidth
  · rintro ⟨scale, rfl, rfl, hnumber, hwidth⟩
    have hsame : (base.any fun b => b.width ≠ r.width) = false := by
      cases base with
      | none => rfl
      | some b => simpa using hwidth b rfl
    rw [checkIndex, scaleOf?_factor]
    simp only [hnumber, if_false, hsame, Bool.false_eq_true]

/-- What is accepted as the index of an address beside its base, where the registers were split
into these: it adds the same, and it is no stack pointer and has the size of the base. -/
structure Checks (base : Option Register) (index : Option (Register × Int64))
    (checked : Option (Register × Scale)) : Prop where
  sum : ∀ register : Register → Int64,
    (checked.elim 0 fun (r, scale) => register r * Int64.ofNat scale.factor) =
      index.elim 0 fun (r, factor) => register r * factor
  mem : ∀ r scale, checked = some (r, scale) → ∃ factor, index = some (r, factor)
  number_ne : ∀ r scale, checked = some (r, scale) → r.number.val ≠ 4
  width_eq : ∀ b r scale, base = some b → checked = some (r, scale) → b.width = r.width

theorem Checks.none (base : Option Register) : Checks base .none .none :=
  ⟨fun _ => rfl, nofun, nofun, nofun⟩

theorem checks_of_checkIndex {base : Option Register} {r : Register} {factor : Int64}
    {checked : Register × Scale} (h : checkIndex base r factor = .ok checked) :
    Checks base (some (r, factor)) (some checked) := by
  obtain ⟨scale, rfl, rfl, hnumber, hwidth⟩ := checkIndex_eq_ok_iff.mp h
  refine ⟨fun register => rfl, ?_, ?_, ?_⟩
  · rintro i s ⟨⟩
    exact ⟨_, rfl⟩
  · rintro i s ⟨⟩
    exact hnumber
  · rintro b i s rfl ⟨⟩
    exact hwidth b rfl

theorem isHigh_of_isAddressable {r : Register} (h : isAddressable r) :
    r.isHigh = false ∧ (r.width = .dword ∨ r.width = .qword) := by
  have hwidth : r.width = .dword ∨ r.width = .qword := by simpa [isAddressable] using h
  cases r with
  | low width number => exact ⟨rfl, hwidth⟩
  | high number => exact absurd hwidth (by simp [Register.width])

theorem name_of_number {r : Register} (h : r.number.val ≠ 4) :
    r.name ≠ "rsp" ∧ r.name ≠ "esp" := by
  cases r with
  | low width number =>
      revert number
      cases width <;> decide
  | high number =>
      revert number
      decide

/-! ## Locations -/

def Location.address? (register : Register → Int64) : Location → Option Int64
  | .label _ => none
  | .absolute address => some address
  | .indexed base index displacement =>
    some (base.elim 0 register +
      (index.elim 0 fun (r, scale) => register r * Int64.ofNat scale.factor) + displacement)

/-- What a base, an index and a displacement are in an address: registers of one size that can
address memory, of which the index is no stack pointer, and 32 bits. -/
structure IsAddress (base : Option Register) (index : Option (Register × Scale))
    (displacement : Int64) : Prop where
  wide : ∀ r, base = some r ∨ (∃ scale, index = some (r, scale)) →
    r.isHigh = false ∧ (r.width = .dword ∨ r.width = .qword)
  width_eq : ∀ b r scale, base = some b → index = some (r, scale) → b.width = r.width
  index_ne : ∀ r scale, index = some (r, scale) → r.name ≠ "rsp" ∧ r.name ≠ "esp"
  scale_mem : ∀ r scale, index = some (r, scale) → scale.factor ∈ [1, 2, 4, 8]
  displacement_range : -0x80000000 ≤ displacement.toInt ∧ displacement.toInt < 0x80000000

theorem isAddress_of_checks {base : Option Register} {index : Option (Register × Int64)}
    {checked : Option (Register × Scale)} {displacement : Int64}
    (haddressable : ∀ r ∈ registers.map Prod.fst, isAddressable r)
    (hsplits : Splits registers base index) (hchecks : Checks base index checked)
    (hfits : Machine.fitsDword displacement) : IsAddress base checked displacement := by
  refine ⟨?wide, hchecks.width_eq, ?index_ne, ?scale_mem, ?displacement_range⟩
  case wide =>
    rintro r (hr | ⟨scale, hr⟩)
    · exact isHigh_of_isAddressable (haddressable r (hsplits.base_mem r hr))
    · obtain ⟨factor, hfactor⟩ := hchecks.mem r scale hr
      exact isHigh_of_isAddressable (haddressable r (hsplits.index_mem r factor hfactor))
  case index_ne => exact fun r scale hr => name_of_number (hchecks.number_ne r scale hr)
  case scale_mem =>
    intro r scale _
    cases scale <;> decide
  case displacement_range => simpa [Machine.fitsDword] using hfits

/-- How the registers of a sum become a location: they can all address memory, they are split
into a base and an index that is accepted, and with neither of them the displacement is the
address. -/
theorem ofRegisters_cases {displacement : Int64} {location : Location}
    (h : Location.ofRegisters registers displacement = .ok location) :
    (∀ r ∈ registers.map Prod.fst, isAddressable r) ∧ ∃ base index checked,
      Splits registers base index ∧ Checks base index checked ∧
        ((base = none ∧ checked = none ∧ location = .absolute displacement) ∨
          (Machine.fitsDword displacement ∧ location = .indexed base checked displacement)) := by
  rw [Location.ofRegisters] at h
  split at h
  next => cases h
  next hnone =>
    refine ⟨?_, ?_⟩
    · intro r hr
      obtain ⟨term, hterm, rfl⟩ := List.mem_map.mp hr
      simpa using List.find?_eq_none.mp hnone term hterm
    · obtain ⟨⟨base, index⟩, hsplit, h⟩ := bind_eq_ok_iff.mp h
      obtain ⟨checked, hchecks, h⟩ : ∃ checked, Checks base index checked ∧
          (if base.isNone && checked.isNone then .ok (.absolute displacement)
          else if Machine.fitsDword displacement then .ok (.indexed base checked displacement)
          else .error (.displacementRange displacement) : Except LineError Location) =
            .ok location := by
        cases index with
        | none => exact ⟨none, .none base, h⟩
        | some term =>
            obtain ⟨checked, hchecked, h⟩ := bind_eq_ok_iff.mp h
            obtain ⟨i, hi, rfl⟩ := map_eq_ok_iff.mp hchecked
            exact ⟨some i, checks_of_checkIndex hi, h⟩
      refine ⟨base, index, checked, splits_of_baseAndIndex hsplit, hchecks, ?_⟩
      split at h
      next hempty =>
        obtain ⟨hbase, hindex⟩ : base = none ∧ checked = none := by simpa using hempty
        cases h
        exact .inl ⟨hbase, hindex, rfl⟩
      next =>
        split at h
        next hfits =>
          cases h
          exact .inr ⟨hfits, rfl⟩
        next => cases h

structure Locates (registers : List (Register × Int64)) (displacement : Int64)
    (location : Location) : Prop where
  address : ∀ register, location.address? register =
    some (displacement + evalTerms register registers)
  indexed : ∀ base index offset, location = .indexed base index offset →
    IsAddress base index offset

theorem locates_of_ofRegisters {displacement : Int64} {location : Location}
    (h : Location.ofRegisters registers displacement = .ok location) :
    Locates registers displacement location := by
  obtain ⟨haddressable, base, index, checked, hsplits, hchecks, hlocation⟩ := ofRegisters_cases h
  have hsum (register : Register → Int64) : evalTerms register registers = base.elim 0 register +
      checked.elim 0 fun (r, scale) => register r * Int64.ofNat scale.factor := by
    rw [hsplits.sum, hchecks.sum]
  rcases hlocation with ⟨rfl, rfl, rfl⟩ | ⟨hfits, rfl⟩
  · refine ⟨fun register => ?_, nofun⟩
    rw [hsum]
    simp [Location.address?]
  · refine ⟨fun register => ?_, ?_⟩
    · rw [hsum, Int64.add_comm]
      rfl
    · rintro base' index' offset ⟨⟩
      exact isAddress_of_checks haddressable hsplits hchecks hfits

end Registers

/-! ## Brackets -/

theorem readOperand_brackets {scope : Scope} {tokens inner : List Token} {size : Option Width}
    (h : sizeOverride tokens = (size, .mark '[' :: (inner ++ [.mark ']']))) :
    readOperand scope tokens = readExpression scope inner >>= fun l =>
      Location.ofLinear l >>= fun location => .ok (.memory size location) := by
  simp only [readOperand, h]
  rw [if_pos List.getLast?_concat, List.dropLast_concat]
  rfl

/-- What tokens in brackets become: they are those of a formula, and the location has an address
that an instruction can have and that is the formula's value, whatever the registers hold. -/
structure Addresses (scope : Scope) (inner : List Token) (location : Location) : Prop where
  formula : ∃ t : Formula, t.tokens = inner
  value : ∀ t : Formula, t.tokens = inner → ∀ register symbol,
    location.address? register = some (Int64.ofInt (t.value scope register symbol))
  isAddress : ∀ base index displacement, location = .indexed base index displacement →
    IsAddress base index displacement

/-- What is accepted in brackets, with or without a size before them, and has no words but
registers is the memory at its value. -/
theorem readOperand_addresses (scope : Scope) {tokens inner : List Token} {size : Option Width}
    (hbrackets : sizeOverride tokens = (size, .mark '[' :: (inner ++ [.mark ']'])))
    (hnames : NamesRegisters inner) {operand : Operand}
    (h : readOperand scope tokens = .ok operand) :
    ∃ location, operand = .memory size location ∧ Addresses scope inner location := by
  rw [readOperand_brackets hbrackets] at h
  obtain ⟨l, hread, h⟩ := bind_eq_ok_iff.mp h
  obtain ⟨location, hlocation, h⟩ := bind_eq_ok_iff.mp h
  cases h
  obtain ⟨t, rfl, hfold⟩ := readExpression_eq_ok_iff.mp hread
  have hsymbols : l.symbols = [] := Formula.symbols_of_fold hnames hfold
  have hregisters : Location.ofRegisters l.registers l.constant = .ok location := by
    rw [Location.ofLinear, hsymbols] at hlocation
    exact hlocation
  have hlocates : Locates l.registers l.constant location := locates_of_ofRegisters hregisters
  refine ⟨location, rfl, ⟨t, rfl⟩, fun t' ht' register symbol => ?_, hlocates.indexed⟩
  have hfold' : t'.fold scope = .ok l := by
    rw [← Formula.readExpression_eq_fold, ht', hread]
  calc location.address? register
      = some (l.constant + evalTerms register l.registers) := hlocates.address register
    _ = some (l.eval register symbol) := by rw [Linear.eval_of_symbols register symbol hsymbols]
    _ = some (Int64.ofInt (t'.value scope register symbol)) := by
        rw [Formula.eval_of_fold hfold' register symbol]

/-- The stack pointer is the base wherever it is written. -/
theorem readOperand_addresses_stack_pointer :
    let inner := [.word "rax", .mark '+', .word "rsp", .mark '-', .number 8]
    let location := .indexed (some (.low .qword 4)) (some (.low .qword 0, .one)) (-8)
    readOperand none (.word "dword" :: .mark '[' :: (inner ++ [.mark ']'])) =
      .ok (.memory (some .dword) location) ∧ Addresses none inner location := by
  intro inner location
  have hbrackets : sizeOverride (.word "dword" :: .mark '[' :: (inner ++ [.mark ']'])) =
      (some .dword, .mark '[' :: (inner ++ [.mark ']'])) := by
    decide +kernel
  have hnames : NamesRegisters inner := by
    intro name hname
    have hcases : name = "rax" ∨ name = "rsp" := by simpa [inner] using hname
    rcases hcases with rfl | rfl <;> decide +kernel
  have hread : readOperand none (.word "dword" :: .mark '[' :: (inner ++ [.mark ']'])) =
      .ok (.memory (some .dword) location) := by
    decide +kernel
  obtain ⟨location', hlocation, haddresses⟩ := readOperand_addresses none hbrackets hnames hread
  cases hlocation
  exact ⟨hread, haddresses⟩

end AsmLoader.Source
