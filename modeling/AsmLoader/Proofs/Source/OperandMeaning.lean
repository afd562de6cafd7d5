import AsmLoader.Proofs.Source.AddressForms
import AsmLoader.Proofs.Source.Coefficients
/-!
# Operands of one meaning

Two expressions that mean the same are the same operand, and in brackets the same memory, if
neither has a term of zero. Sums have none, but a product keeps the terms that its constant makes
zero, and outside brackets such a term is always refused.
-/

namespace AsmLoader.Source

open Machine (Register Width)

variable {scope scope' : Scope} {tokens tokens' inner inner' : List Token} {l l' : Linear}

/-! ## Outside brackets -/

section Outside

variable {operand : Operand}

theorem ofLinear_cases (h : Operand.ofLinear l = .ok operand) :
    l.Reduced ∧ l.registers.length ≤ 1 ∧ l.symbols.length ≤ 1 := by
  obtain ⟨constant, registers, symbols⟩ := l
  unfold Operand.ofLinear at h
  split at h
  next hregisters hsymbols =>
    obtain rfl : registers = [] := hregisters
    obtain rfl : symbols = [] := hsymbols
    exact ⟨⟨nofun, nofun⟩, by simp, by simp⟩
  next r coefficient hregisters hsymbols =>
    obtain rfl : registers = [(r, coefficient)] := hregisters
    obtain rfl : symbols = [] := hsymbols
    split at h
    next hone => exact ⟨⟨by simp [hone.1], nofun⟩, by simp, by simp⟩
    next => cases h
  next name coefficient hregisters hsymbols =>
    obtain rfl : registers = [] := hregisters
    obtain rfl : symbols = [(name, coefficient)] := hsymbols
    split at h
    next hone => exact ⟨⟨nofun, by simp [hone.1]⟩, by simp, by simp⟩
    next => cases h
  next => cases h

theorem eq_of_perm_of_length_le_one {α : Type} {xs ys : List α} (h : xs.Perm ys)
    (hlength : xs.length ≤ 1) : xs = ys := by
  cases xs with
  | nil => exact h.nil_eq
  | cons x xs =>
      obtain rfl : xs = [] := by simpa using hlength
      exact h.singleton_eq

theorem Linear.Agrees.ofLinear_eq (h : l.Agrees l') (hdistinct : l.Distinct)
    (hdistinct' : l'.Distinct)
    (hreduced' : l'.Reduced) (hoperand : Operand.ofLinear l = .ok operand) :
    Operand.ofLinear l' = .ok operand := by
  obtain ⟨hreduced, hregisters, hsymbols⟩ := ofLinear_cases hoperand
  have hperm := h.perm_registers hdistinct hdistinct' hreduced hreduced'
  have hperm' := h.perm_symbols hdistinct hdistinct' hreduced hreduced'
  have heq : l = l' := by
    obtain ⟨constant, registers, symbols⟩ := l
    obtain ⟨constant', registers', symbols'⟩ := l'
    rw [Linear.mk.injEq]
    exact ⟨h.constant, eq_of_perm_of_length_le_one hperm hregisters,
      eq_of_perm_of_length_le_one hperm' hsymbols⟩
  rwa [← heq]

theorem readOperand_plain (h : sizeOverride tokens = (none, inner))
    (hread : readExpression scope inner = .ok l) :
    readOperand scope tokens = Operand.ofLinear l := by
  unfold readOperand
  rw [h]
  split
  next heq =>
    cases heq
    cases hread
  next heq =>
    cases heq
    cases hread
  next heq => cases heq
  next heq =>
    cases heq
    rw [hread]
    rfl

end Outside

/-! ## In brackets -/

section Brackets

variable {location : Location}

/-- Two locations are the same label, or the same address whatever the registers hold. -/
structure Location.Alike (a b : Location) : Prop where
  label : ∀ name, a = .label name ↔ b = .label name
  address : ∀ register, a.address? register = b.address? register

theorem Location.Alike.refl (a : Location) : a.Alike a :=
  ⟨fun _ => Iff.rfl, fun _ => rfl⟩

theorem ne_label_of_address {register : Register → Int64} {address : Int64}
    (h : location.address? register = some address) (name : String) :
    location ≠ .label name := by
  rintro rfl
  cases h

theorem ofRegisters_alike {registers registers' : List (Register × Int64)} {displacement : Int64}
    (hperm : registers.Perm registers')
    (h : Location.ofRegisters registers displacement = .ok location) :
    ∃ location', Location.ofRegisters registers' displacement = .ok location' ∧
      location.Alike location' := by
  obtain ⟨haddressable, hform, hfits⟩ := exists_ofRegisters_iff.mp ⟨location, h⟩
  have haddressable' : ∀ r ∈ registers'.map Prod.fst, isAddressable r :=
    fun r hr => haddressable r ((hperm.map Prod.fst).mem_iff.mpr hr)
  have hfits' : registers' = [] ∨ Machine.fitsDword displacement := by
    rcases hfits with rfl | hfits
    · exact .inl hperm.nil_eq.symm
    · exact .inr hfits
  obtain ⟨location', h'⟩ :=
    exists_ofRegisters_iff.mpr ⟨haddressable', hform.perm hperm, hfits'⟩
  have hlocates : Locates registers displacement location := locates_of_ofRegisters h
  have hlocates' : Locates registers' displacement location' := locates_of_ofRegisters h'
  refine ⟨location', h', fun name => ?_, fun register => ?_⟩
  · have hne := ne_label_of_address (hlocates.address fun _ => 0) name
    have hne' := ne_label_of_address (hlocates'.address fun _ => 0) name
    exact iff_of_false hne hne'
  · rw [hlocates.address, hlocates'.address, evalTerms_perm register hperm]

theorem addressSymbols_perm {symbols symbols' : List (String × Int64)}
    (h : symbols.Perm symbols') : (addressSymbols symbols).Perm (addressSymbols symbols') := by
  unfold addressSymbols
  rw [h.length_eq]
  split
  next => exact h.filter _
  next => exact h

theorem Linear.Agrees.ofLinear_alike (h : l.Agrees l') (hdistinct : l.Distinct)
    (hdistinct' : l'.Distinct) (hreduced : l.Reduced) (hreduced' : l'.Reduced)
    (hlocation : Location.ofLinear l = .ok location) :
    ∃ location', Location.ofLinear l' = .ok location' ∧ location.Alike location' := by
  have hregisters := h.perm_registers hdistinct hdistinct' hreduced hreduced'
  have hsymbols := addressSymbols_perm (h.perm_symbols hdistinct hdistinct' hreduced hreduced')
  unfold Location.ofLinear at hlocation ⊢
  split at hlocation
  next hnone =>
    rw [hnone] at hsymbols
    rw [← hsymbols.nil_eq, ← h.constant]
    exact ofRegisters_alike hregisters hlocation
  next name coefficient hone =>
    rw [hone] at hsymbols
    rw [← hsymbols.singleton_eq, ← h.constant, ← hregisters.isEmpty_eq]
    exact ⟨location, hlocation, .refl location⟩
  next => cases hlocation

end Brackets

/-! ## Expressions -/

/-- What is accepted of one expression is accepted of another: outside brackets as the same
operand, and in brackets, with any sizes before them, as the same memory. -/
structure Follows (scope scope' : Scope) (inner inner' : List Token) : Prop where
  outside : ∀ tokens tokens', sizeOverride tokens = (none, inner) →
    sizeOverride tokens' = (none, inner') → ∀ operand,
      readOperand scope tokens = .ok operand → readOperand scope' tokens' = .ok operand
  brackets : ∀ tokens tokens' size size',
    sizeOverride tokens = (size, .mark '[' :: (inner ++ [.mark ']'])) →
    sizeOverride tokens' = (size', .mark '[' :: (inner' ++ [.mark ']'])) → ∀ location,
      readOperand scope tokens = .ok (.memory size location) →
        ∃ location', readOperand scope' tokens' = .ok (.memory size' location') ∧
          location.Alike location'

theorem follows_of_agrees (hread : readExpression scope inner = .ok l)
    (hread' : readExpression scope' inner' = .ok l') (hagrees : l.Agrees l')
    (hreduced : l.Reduced) (hreduced' : l'.Reduced) : Follows scope scope' inner inner' := by
  have hdistinct : l.Distinct := distinct_of_readExpression hread
  have hdistinct' : l'.Distinct := distinct_of_readExpression hread'
  refine ⟨?outside, ?brackets⟩
  case outside =>
    intro tokens tokens' hplain hplain' operand h
    rw [readOperand_plain hplain hread] at h
    rw [readOperand_plain hplain' hread']
    exact hagrees.ofLinear_eq hdistinct hdistinct' hreduced' h
  case brackets =>
    intro tokens tokens' size size' hbrackets hbrackets' location h
    rw [readOperand_brackets hbrackets, hread, ok_bind] at h
    obtain ⟨found, hfound, h⟩ := bind_eq_ok_iff.mp h
    cases h
    obtain ⟨location', hlocation', halike⟩ :=
      hagrees.ofLinear_alike hdistinct hdistinct' hreduced hreduced' hfound
    refine ⟨location', ?_, halike⟩
    rw [readOperand_brackets hbrackets', hread', ok_bind, hlocation']
    rfl

/-- Two expressions whose linear forms mean the same are accepted alike, outside brackets as the
same operand and in brackets as the same memory, if neither form has a term of zero. Outside
brackets a form that has one is refused, whatever it means. -/
theorem readOperand_of_agrees (hread : readExpression scope inner = .ok l)
    (hread' : readExpression scope' inner' = .ok l') (hagrees : l.Agrees l') :
    (l.Reduced → l'.Reduced →
      Follows scope scope' inner inner' ∧ Follows scope' scope inner' inner) ∧
    (¬l.Reduced → ∀ tokens, sizeOverride tokens = (none, inner) → ∀ operand,
      readOperand scope tokens ≠ .ok operand) := by
  constructor
  · intro hreduced hreduced'
    exact ⟨follows_of_agrees hread hread' hagrees hreduced hreduced',
      follows_of_agrees hread' hread hagrees.symm hreduced' hreduced⟩
  · intro hnot tokens hplain operand h
    rw [readOperand_plain hplain hread] at h
    exact hnot (ofLinear_cases h).1

/-- A stack pointer and another register in either order, and a product that is zero but no
number. -/
theorem readOperand_of_agrees_zero_times :
    let sum := [.word "rsp", .mark '+', .word "rax"]
    let sum' :=
      [.number 2, .mark '*', .word "rax", .mark '-', .word "rax", .mark '+', .word "rsp"]
    let product := [.number 0, .mark '*', .word "rcx"]
    (Follows none none sum sum' ∧ Follows none none sum' sum) ∧
      (Linear.mk 0 [(.low .qword 1, 0)] []).Agrees (.ofConstant 0) ∧
      ∀ operand, readOperand none product ≠ .ok operand := by
  intro sum sum' product
  have hsum :
      readExpression none sum = .ok ⟨0, [(.low .qword 4, 1), (.low .qword 0, 1)], []⟩ := by
    decide +kernel
  have hsum' :
      readExpression none sum' = .ok ⟨0, [(.low .qword 0, 1), (.low .qword 4, 1)], []⟩ := by
    decide +kernel
  have hproduct : readExpression none product = .ok ⟨0, [(.low .qword 1, 0)], []⟩ := by
    decide +kernel
  have hzero : readExpression none [.number 0] = .ok (.ofConstant 0) := rfl
  have hagrees : (Linear.mk 0 [(.low .qword 4, 1), (.low .qword 0, 1)] []).Agrees
      ⟨0, [(.low .qword 0, 1), (.low .qword 4, 1)], []⟩ := by
    refine Linear.agrees_of_eval fun register symbol => ?_
    simp only [Linear.eval, evalTerms]
    grind
  have hagrees' : (Linear.mk 0 [(.low .qword 1, 0)] []).Agrees (.ofConstant 0) := by
    refine Linear.agrees_of_eval fun register symbol => ?_
    simp [Linear.eval, evalTerms, Linear.ofConstant]
  have halike :=
    (readOperand_of_agrees hsum hsum' hagrees).1 ⟨by decide, by simp⟩ ⟨by decide, by simp⟩
  have hrefused := (readOperand_of_agrees hproduct hzero hagrees').2
    (fun hreduced => hreduced.registers _ List.mem_cons_self rfl) product (by decide +kernel)
  exact ⟨halike, hagrees', hrefused⟩

end AsmLoader.Source
