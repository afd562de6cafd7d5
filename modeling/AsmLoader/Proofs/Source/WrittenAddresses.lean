import Mathlib.Algebra.BigOperators.Group.List.Basic
import Mathlib.Algebra.Ring.Int.Defs
import AsmLoader.Proofs.Source.AddressForms
import AsmLoader.Proofs.Source.Coefficients
/-!
# Addresses as they are written

A base, an index with its scale and a displacement are accepted in whatever order they are
written, as the memory at their sum. The exception is an index that is the base as well: the two
are added up before they are told apart, so that only the scale of one is left as a scale.
-/

namespace AsmLoader.Source

open Machine (Register Scale Width)

/-! ## Sums of terms -/

structure SignedTerm where
  negative : Bool
  term : Formula

namespace SignedTerm

def value (scope : Scope) (register : Register → Int64) (symbol : String → Int64)
    (t : SignedTerm) : Int :=
  if t.negative then -t.term.value scope register symbol else t.term.value scope register symbol

def leading (t : SignedTerm) : Formula :=
  if t.negative then .minus t.term else t.term

def joined (sum : Formula) (t : SignedTerm) : Formula :=
  if t.negative then .sub sum t.term else .add sum t.term

def sum (first : SignedTerm) (rest : List SignedTerm) : Formula :=
  rest.foldl joined first.leading

variable {scope : Scope} (register : Register → Int64) (symbol : String → Int64)

theorem value_leading (t : SignedTerm) :
    t.leading.value scope register symbol = t.value scope register symbol := by
  obtain ⟨negative, term⟩ := t
  cases negative <;> rfl

theorem value_joined (a : Formula) (t : SignedTerm) : (joined a t).value scope register symbol =
    a.value scope register symbol + t.value scope register symbol := by
  obtain ⟨negative, term⟩ := t
  cases negative with
  | false => rfl
  | true =>
      change a.value scope register symbol - term.value scope register symbol =
        a.value scope register symbol + -term.value scope register symbol
      omega

theorem value_sum (first : SignedTerm) (rest : List SignedTerm) :
    (sum first rest).value scope register symbol =
      ((first :: rest).map (value scope register symbol)).sum := by
  have hfold (a : Formula) : (rest.foldl joined a).value scope register symbol =
      a.value scope register symbol + (rest.map (value scope register symbol)).sum := by
    induction rest generalizing a with
    | nil => exact (Int.add_zero _).symm
    | cons t rest ih =>
        rw [List.foldl_cons, ih, value_joined, List.map_cons, List.sum_cons]
        omega
  rw [sum, hfold, value_leading, List.map_cons, List.sum_cons]

theorem exists_fold_leading {t : SignedTerm} (h : ∃ l, t.term.fold scope = .ok l) :
    ∃ l, t.leading.fold scope = .ok l := by
  obtain ⟨negative, term⟩ := t
  obtain ⟨l, hl⟩ := h
  cases negative with
  | false => exact ⟨l, hl⟩
  | true => exact ⟨l.scale (-1), by rw [leading, if_pos rfl, Formula.fold, hl]; rfl⟩

theorem exists_fold_joined {a : Formula} {t : SignedTerm} {l : Linear}
    (ha : a.fold scope = .ok l) (h : ∃ l, t.term.fold scope = .ok l) :
    ∃ l, (joined a t).fold scope = .ok l ∧ l.Reduced := by
  obtain ⟨negative, term⟩ := t
  obtain ⟨r, hr⟩ := h
  cases negative with
  | false =>
      refine ⟨l.add r, ?_, Linear.reduced_add l r⟩
      rw [joined, if_neg (by simp), Formula.fold, ha, hr]
      rfl
  | true =>
      refine ⟨l.add (r.scale (-1)), ?_, Linear.reduced_add l (r.scale (-1))⟩
      rw [joined, if_pos rfl, Formula.fold, ha, hr]
      rfl

theorem exists_fold_sum {first : SignedTerm} {rest : List SignedTerm} (hrest : rest ≠ [])
    (h : ∀ t ∈ first :: rest, ∃ l, t.term.fold scope = .ok l) :
    ∃ l, (sum first rest).fold scope = .ok l ∧ l.Reduced := by
  have hfold (a : Formula) (l : Linear) (ha : a.fold scope = .ok l) (hreduced : l.Reduced)
      (terms : List SignedTerm) (hterms : ∀ t ∈ terms, ∃ l, t.term.fold scope = .ok l) :
      ∃ l, (terms.foldl joined a).fold scope = .ok l ∧ l.Reduced := by
    induction terms generalizing a l with
    | nil => exact ⟨l, ha, hreduced⟩
    | cons t terms ih =>
        obtain ⟨m, hm, hreduced⟩ := exists_fold_joined ha (hterms t List.mem_cons_self)
        exact ih (joined a t) m hm hreduced fun t ht => hterms t (List.mem_cons_of_mem _ ht)
  obtain ⟨t, terms, rfl⟩ := List.exists_cons_of_ne_nil hrest
  obtain ⟨l, hl⟩ := exists_fold_leading (h first List.mem_cons_self)
  obtain ⟨m, hm, hreduced⟩ := exists_fold_joined hl (h t (by simp))
  exact hfold _ m hm hreduced terms fun t ht => h t (by simp [ht])

end SignedTerm

/-! ## Bases, indices and displacements -/

section Written

variable {scope : Scope} {b i : Register} {scale : Scale} {displacement : Int64} {t : SignedTerm}

inductive IsBase (b : Register) : SignedTerm → Prop where
  | word {name : String} (hname : Register.ofName? name = some b) : IsBase b ⟨false, .word name⟩

/-- An index with its scale on either side. The scale of one can be left out. -/
inductive IsIndex (i : Register) : Scale → SignedTerm → Prop where
  | right {name : String} (scale : Scale) (hname : Register.ofName? name = some i) :
      IsIndex i scale ⟨false, .mul (.word name) (.number (Int64.ofNat scale.factor))⟩
  | left {name : String} (scale : Scale) (hname : Register.ofName? name = some i) :
      IsIndex i scale ⟨false, .mul (.number (Int64.ofNat scale.factor)) (.word name)⟩
  | alone {name : String} (hname : Register.ofName? name = some i) :
      IsIndex i .one ⟨false, .word name⟩

/-- A displacement that is added, or its opposite that is subtracted. -/
inductive IsDisplacement (displacement : Int64) : SignedTerm → Prop where
  | added : IsDisplacement displacement ⟨false, .number displacement⟩
  | subtracted : IsDisplacement displacement ⟨true, .number (-displacement)⟩

/-- The tokens of a base, an index with its scale and a displacement, in any order. -/
def IsWritten (b i : Register) (scale : Scale) (displacement : Int64) (tokens : List Token) :
    Prop :=
  ∃ base index offset first rest, IsBase b base ∧ IsIndex i scale index ∧
    IsDisplacement displacement offset ∧ (first :: rest).Perm [base, index, offset] ∧
      tokens = (SignedTerm.sum first rest).tokens

structure Adds (scope : Scope) (t : SignedTerm) (part : (Register → Int64) → Int64) : Prop where
  read : ∃ l, t.term.fold scope = .ok l
  value : ∀ register symbol, Int64.ofInt (t.value scope register symbol) = part register

theorem adds_word {name : String} (hname : Register.ofName? name = some b) :
    Adds scope ⟨false, .word name⟩ fun register => register b := by
  refine ⟨⟨.ofRegister b, ?_⟩, fun register symbol => ?_⟩
  · rw [Formula.fold, operandOf, hname]
  · simp [SignedTerm.value, Formula.value, hname]

theorem IsBase.adds (h : IsBase b t) : Adds scope t fun register => register b := by
  obtain ⟨hname⟩ := h
  exact adds_word hname

theorem IsIndex.adds (h : IsIndex i scale t) :
    Adds scope t fun register => register i * Int64.ofNat scale.factor := by
  cases h with
  | right scale hname =>
      refine ⟨⟨(Linear.ofRegister i).scale (Int64.ofNat scale.factor), ?_⟩,
        fun register symbol => ?_⟩
      · simp only [Formula.fold, operandOf, hname]
        rfl
      · simp only [SignedTerm.value, Formula.value, hname, Bool.false_eq_true, if_false,
          Int64.ofInt_mul, Int64.ofInt_toInt]
  | left scale hname =>
      refine ⟨⟨(Linear.ofRegister i).scale (Int64.ofNat scale.factor), ?_⟩,
        fun register symbol => ?_⟩
      · simp only [Formula.fold, operandOf, hname]
        rfl
      · simp only [SignedTerm.value, Formula.value, hname, Bool.false_eq_true, if_false,
          Int64.ofInt_mul, Int64.ofInt_toInt]
        exact Int64.mul_comm _ _
  | alone hname =>
      obtain ⟨hread, hvalue⟩ : Adds scope ⟨false, .word _⟩ fun register => register i :=
        adds_word hname
      refine ⟨hread, fun register symbol => ?_⟩
      rw [hvalue register symbol]
      exact (Int64.mul_one _).symm

theorem IsDisplacement.adds (h : IsDisplacement displacement t) :
    Adds scope t fun _ => displacement := by
  cases h with
  | added => exact ⟨⟨_, rfl⟩, fun register symbol => by simp [SignedTerm.value, Formula.value]⟩
  | subtracted =>
      refine ⟨⟨_, rfl⟩, fun register symbol => ?_⟩
      simp only [SignedTerm.value, Formula.value, if_true, Int64.ofInt_neg, Int64.ofInt_toInt]
      exact Int64.neg_neg

/-- What is written as an address is read as a form of its value, without terms of zero. -/
theorem exists_read_of_isWritten (scope : Scope) {tokens : List Token}
    (h : IsWritten b i scale displacement tokens) :
    ∃ l, readExpression scope tokens = .ok l ∧ l.Reduced ∧ ∀ register symbol,
      l.eval register symbol =
        register b + register i * Int64.ofNat scale.factor + displacement := by
  obtain ⟨base, index, offset, first, rest, hbase, hindex, hoffset, horder, rfl⟩ := h
  have hadds : ∀ t ∈ first :: rest, ∃ l, t.term.fold scope = .ok l := by
    intro t ht
    have hmem : t = base ∨ t = index ∨ t = offset := by simpa using horder.mem_iff.mp ht
    rcases hmem with rfl | rfl | rfl
    · exact hbase.adds.read
    · exact hindex.adds.read
    · exact hoffset.adds.read
  have hrest : rest ≠ [] := by
    rintro rfl
    simpa using horder.length_eq
  obtain ⟨l, hfold, hreduced⟩ := SignedTerm.exists_fold_sum hrest hadds
  refine ⟨l, by rw [Formula.readExpression_eq_fold, hfold], hreduced, fun register symbol => ?_⟩
  have hvalue : (SignedTerm.sum first rest).value scope register symbol =
      base.value scope register symbol +
        (index.value scope register symbol + (offset.value scope register symbol + 0)) := by
    rw [SignedTerm.value_sum]
    exact (horder.map _).sum_eq
  rw [Formula.eval_of_fold hfold, hvalue, Int64.ofInt_add, Int64.ofInt_add, Int64.ofInt_add,
    hbase.adds.value, hindex.adds.value, hoffset.adds.value]
  change _ + (_ + (_ + 0)) = _
  rw [Int64.add_zero, Int64.add_assoc]

def Linear.ofAddress (b i : Register) (scale : Scale) (displacement : Int64) : Linear :=
  ⟨displacement,
    if b = i then [(b, Int64.ofNat (scale.factor + 1))]
    else [(b, 1), (i, Int64.ofNat scale.factor)],
    []⟩

theorem Linear.eval_ofAddress (register : Register → Int64) (symbol : String → Int64) :
    (Linear.ofAddress b i scale displacement).eval register symbol =
      register b + register i * Int64.ofNat scale.factor + displacement := by
  have hsucc : Int64.ofNat (scale.factor + 1) = Int64.ofNat scale.factor + 1 :=
    Int64.ofNat_add _ _
  rw [Linear.ofAddress, Linear.eval_of_symbols register symbol rfl]
  split
  next heq =>
    subst heq
    simp only [evalTerms, hsucc]
    grind
  next =>
    simp only [evalTerms]
    grind

theorem Linear.distinct_ofAddress : (Linear.ofAddress b i scale displacement).Distinct := by
  refine ⟨?_, List.nodup_nil⟩
  rw [Linear.ofAddress]
  split
  next => exact List.nodup_singleton b
  next hne => simpa using hne

theorem Linear.reduced_ofAddress : (Linear.ofAddress b i scale displacement).Reduced := by
  have hfactor : Int64.ofNat scale.factor ≠ 0 ∧ Int64.ofNat (scale.factor + 1) ≠ 0 := by
    cases scale <;> decide
  refine ⟨?_, nofun⟩
  rw [Linear.ofAddress]
  split
  next => simpa using hfactor.2
  next => simpa using hfactor.1

/-- What is written as an address is read as its linear form, up to the order of the terms. -/
theorem exists_perm_of_isWritten (scope : Scope) {tokens : List Token}
    (h : IsWritten b i scale displacement tokens) :
    ∃ registers, readExpression scope tokens = .ok ⟨displacement, registers, []⟩ ∧
      registers.Perm (Linear.ofAddress b i scale displacement).registers := by
  obtain ⟨l, hread, hreduced, heval⟩ := exists_read_of_isWritten scope h
  have hagrees : l.Agrees (Linear.ofAddress b i scale displacement) := by
    refine Linear.agrees_of_eval fun register symbol => ?_
    rw [heval, Linear.eval_ofAddress]
  have hdistinct : l.Distinct := distinct_of_readExpression hread
  have hsymbols : l.symbols = [] :=
    (hagrees.perm_symbols hdistinct Linear.distinct_ofAddress hreduced
      Linear.reduced_ofAddress).eq_nil
  obtain ⟨constant, registers, symbols⟩ := l
  obtain rfl : constant = displacement := hagrees.constant
  obtain rfl : symbols = [] := hsymbols
  exact ⟨registers, hread,
    hagrees.perm_registers hdistinct Linear.distinct_ofAddress hreduced Linear.reduced_ofAddress⟩

/-- A scale that has the register of the base added to it is refused, except for the scale of
one. -/
theorem ofRegisters_repeated (hwide : isAddressable b) (hscale : scale ≠ .one) :
    Location.ofRegisters [(b, Int64.ofNat (scale.factor + 1))] displacement =
      .error (.invalidScale (Int64.ofNat (scale.factor + 1))) := by
  have hne : Int64.ofNat (scale.factor + 1) ≠ 1 := by
    cases scale <;> decide
  have hnone : scaleOf? (Int64.ofNat (scale.factor + 1)) = none := by
    cases scale with
    | one => exact absurd rfl hscale
    | _ => decide
  have hrefused : checkIndex none b (Int64.ofNat (scale.factor + 1)) =
      .error (.invalidScale (Int64.ofNat (scale.factor + 1))) := by
    rw [checkIndex, hnone]
  rw [ofRegisters_eq (by simpa using hwide), baseAndIndex, if_neg hne]
  simp only [ok_bind, Option.elim, hrefused, Except.map, error_bind]

theorem number_ne_of_name (hwide : i.width = .dword ∨ i.width = .qword)
    (hname : i.name ≠ "rsp" ∧ i.name ≠ "esp") : i.number.val ≠ 4 := by
  cases i with
  | low width number =>
      cases width with
      | byte | word => simp [Register.width] at hwide
      | dword | qword =>
          clear hwide
          revert number
          decide
  | high number => simp [Register.width] at hwide

theorem addressForm_ofAddress (displacement : Int64) (haddressable : isAddressable i)
    (hwidth : b.width = i.width) (hnumber : i.number.val ≠ 4) (hcase : b ≠ i ∨ scale = .one) :
    (∀ r ∈ (Linear.ofAddress b i scale displacement).registers.map Prod.fst, isAddressable r) ∧
      AddressForm (Linear.ofAddress b i scale displacement).registers := by
  have hbase : isAddressable b := by rwa [isAddressable, hwidth]
  by_cases heq : b = i
  · obtain rfl : scale = .one := hcase.resolve_left (not_not_intro heq)
    rw [Linear.ofAddress, if_pos heq]
    refine ⟨by simpa using hbase, ?_⟩
    exact .index .two (heq ▸ hnumber)
  · rw [Linear.ofAddress, if_neg heq]
    exact ⟨by simp [hbase, haddressable], .both scale hnumber hwidth (List.Perm.refl _)⟩

/-- A base and an index of one width, of 32 or 64 bits, and a displacement of 32 bits are
accepted in whatever order they are written, and are the memory at their sum. If the base is the
index, only the scale of one is accepted, and any other is refused as one more than it is. -/
theorem readOperand_isWritten (scope : Scope) {tokens inner : List Token} {size : Option Width}
    (hbrackets : sizeOverride tokens = (size, .mark '[' :: (inner ++ [.mark ']'])))
    (hwidth : b.width = i.width) (hwide : i.width = .dword ∨ i.width = .qword)
    (hname : i.name ≠ "rsp" ∧ i.name ≠ "esp")
    (hrange : -0x80000000 ≤ displacement.toInt ∧ displacement.toInt < 0x80000000)
    (hwritten : IsWritten b i scale displacement inner) :
    (b ≠ i ∨ scale = .one → ∃ location, readOperand scope tokens = .ok (.memory size location) ∧
      ∀ register, location.address? register =
        some (register b + register i * Int64.ofNat scale.factor + displacement)) ∧
    (b = i → scale ≠ .one →
      readOperand scope tokens = .error (.invalidScale (Int64.ofNat (scale.factor + 1)))) := by
  obtain ⟨registers, hread, horder⟩ := exists_perm_of_isWritten scope hwritten
  have hoperand : readOperand scope tokens = Location.ofRegisters registers displacement >>=
      fun location => .ok (.memory size location) := by
    rw [readOperand_brackets hbrackets, hread]
    rfl
  have haddressable : isAddressable i := by simpa [isAddressable] using hwide
  constructor
  · intro hcase
    obtain ⟨haddressables, hform⟩ := addressForm_ofAddress displacement
      haddressable hwidth (number_ne_of_name hwide hname) hcase
    have haccepted : ∀ r ∈ registers.map Prod.fst, isAddressable r :=
      fun r hr => haddressables r ((horder.map Prod.fst).mem_iff.mp hr)
    have hfits : Machine.fitsDword displacement := by simpa [Machine.fitsDword] using hrange
    obtain ⟨location, hlocation⟩ :=
      exists_ofRegisters_iff.mpr ⟨haccepted, hform.perm horder.symm, .inr hfits⟩
    refine ⟨location, by rw [hoperand, hlocation]; rfl, fun register => ?_⟩
    calc location.address? register
        = some (displacement + evalTerms register registers) :=
          (locates_of_ofRegisters hlocation).address register
      _ = some ((Linear.ofAddress b i scale displacement).eval register fun _ => 0) := by
          rw [evalTerms_perm register horder, Linear.eval_of_symbols register _ rfl]
          rfl
      _ = some (register b + register i * Int64.ofNat scale.factor + displacement) := by
          rw [Linear.eval_ofAddress]
  · rintro rfl hscale
    have hregisters : registers = [(b, Int64.ofNat (scale.factor + 1))] := by
      simpa [Linear.ofAddress] using horder
    rw [hoperand, hregisters, ofRegisters_repeated haddressable hscale]
    rfl

/-- A base that is the index with the scale two: the scale of their sum is three. -/
theorem readOperand_isWritten_repeated :
    let inner :=
      [.word "rax", .mark '+', .word "RAX", .mark '*', .number 2, .mark '+', .number 4]
    IsWritten (.low .qword 0) (.low .qword 0) .two 4 inner ∧
      readOperand none (.mark '[' :: (inner ++ [.mark ']'])) = .error (.invalidScale 3) := by
  intro inner
  have hbrackets : sizeOverride (.mark '[' :: (inner ++ [.mark ']'])) =
      (none, .mark '[' :: (inner ++ [.mark ']'])) := rfl
  have hwritten : IsWritten (.low .qword 0) (.low .qword 0) .two 4 inner :=
    ⟨_, _, _, _, _, .word (by decide +kernel : Register.ofName? "rax" = _),
      .right .two (by decide +kernel : Register.ofName? "RAX" = _), .added, List.Perm.refl _,
      rfl⟩
  have hread := readOperand_isWritten none hbrackets rfl (.inr rfl) (by decide +kernel)
    (by decide) hwritten
  exact ⟨hwritten, hread.2 rfl (by decide)⟩

end Written

end AsmLoader.Source
