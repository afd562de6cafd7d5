import AsmLoader.Proofs.Source.Folding
/-!
# The value of what is read

The tokens of a formula are read as a linear form with the formula's value, or refused for a
product of which neither factor is a constant. A formula of numbers and texts is always read.
-/

namespace AsmLoader.Source

open Machine (Register)

namespace Formula

variable {scope : Scope} {t : Formula}

/-! ## Operands -/

theorem operandOf_text {bytes : List UInt8} (h : (text bytes).isOperand) :
    operandOf scope (.text bytes) =
      .ok (.ofConstant (Int64.ofInt (Machine.ofLowBytes bytes))) := by
  have hbounds : 1 ≤ bytes.length ∧ bytes.length ≤ 8 := by simpa [isOperand] using h
  have hlength : (bytes.isEmpty || 8 < bytes.length) = false := by
    have hne : bytes ≠ [] := List.ne_nil_of_length_pos hbounds.1
    simp [hne, hbounds.2]
  have hvalue : (UInt64.ofNat (Machine.ofLowBytes bytes)).toInt64 =
      Int64.ofInt (Machine.ofLowBytes bytes) := by
    rw [UInt64.toInt64_ofNat', Int64.ofInt_eq_ofNat]
  rw [operandOf, characterConstant, hlength, hvalue]
  rfl

theorem isOperand_of_operandOf_text {bytes : List UInt8} {l : Linear}
    (h : operandOf scope (.text bytes) = .ok l) : (text bytes).isOperand := by
  have hlength : (bytes.isEmpty || 8 < bytes.length) = false := by
    by_contra hnot
    rw [Bool.not_eq_false] at hnot
    rw [operandOf, characterConstant, hnot] at h
    cases h
  have hbounds : bytes ≠ [] ∧ bytes.length ≤ 8 := by simpa using hlength
  have hpos : 1 ≤ bytes.length := List.length_pos_iff.mpr hbounds.1
  simp [isOperand, hpos, hbounds.2]

theorem eval_operandOf_word {name : String} {l : Linear}
    (h : operandOf scope (.word name) = .ok l)
    (register : Register → Int64) (symbol : String → Int64) :
    l.eval register symbol = Int64.ofInt ((word name).value scope register symbol) := by
  cases hregister : Register.ofName? name with
  | some r =>
      simp only [operandOf, hregister, Except.ok.injEq] at h
      rw [← h, Linear.eval_ofRegister]
      simp only [value, hregister, Int64.ofInt_toInt]
  | none =>
      simp only [operandOf, hregister] at h
      split at h
      next => cases h
      next =>
        cases h
        rw [Linear.eval_ofSymbol]
        simp only [value, hregister, Int64.ofInt_toInt]

theorem exists_operandOf_word {name : String} (h : (word name).isOperand) :
    ∃ l, operandOf scope (.word name) = .ok l := by
  rw [operandOf]
  cases hregister : Register.ofName? name with
  | some r => exact ⟨_, rfl⟩
  | none =>
      have hreserved : isReserved name = false := by simpa [isOperand, hregister] using h
      exact ⟨.ofSymbol (scope.qualify name), by simp [hreserved]⟩

/-! ## Values -/

theorem eval_of_fold {l : Linear} (h : t.fold scope = .ok l) (register : Register → Int64)
    (symbol : String → Int64) :
    l.eval register symbol = Int64.ofInt (t.value scope register symbol) := by
  induction t generalizing l with
  | number value =>
      cases h
      rw [Linear.eval_ofConstant, Formula.value, Int64.ofInt_toInt]
  | text bytes =>
      have hoperand : (text bytes).isOperand := isOperand_of_operandOf_text h
      rw [fold, operandOf_text hoperand] at h
      cases h
      rw [Linear.eval_ofConstant, value]
  | word name => exact eval_operandOf_word h register symbol
  | group t ih | plus t ih => exact ih h
  | minus t ih =>
      obtain ⟨a, ha, h⟩ := bind_eq_ok_iff.mp h
      cases h
      rw [Linear.eval_scale, ih ha, value, Int64.ofInt_neg]
      grind
  | add a b iha ihb =>
      obtain ⟨l, hl, h⟩ := bind_eq_ok_iff.mp h
      obtain ⟨r, hr, h⟩ := bind_eq_ok_iff.mp h
      cases h
      rw [Linear.eval_add, iha hl, ihb hr, value, Int64.ofInt_add]
  | sub a b iha ihb =>
      obtain ⟨l, hl, h⟩ := bind_eq_ok_iff.mp h
      obtain ⟨r, hr, h⟩ := bind_eq_ok_iff.mp h
      cases h
      rw [Linear.eval_add, Linear.eval_scale, iha hl, ihb hr, value, Int64.ofInt_sub]
      grind
  | mul a b iha ihb =>
      obtain ⟨l, hl, h⟩ := bind_eq_ok_iff.mp h
      obtain ⟨r, hr, h⟩ := bind_eq_ok_iff.mp h
      rw [Linear.eval_mul register symbol h, iha hl, ihb hr, value, Int64.ofInt_mul]

/-! ## Refusals -/

/-- A product whose factors can be read and are no constants. -/
def IsVariableProduct (scope : Scope) (t : Formula) : Prop :=
  ∃ a b l r, t = .mul a b ∧ readExpression scope a.tokens = .ok l ∧
    readExpression scope b.tokens = .ok r ∧ l.isConstant = false ∧ r.isConstant = false

theorem mem_parts_self (t : Formula) : t ∈ t.parts := by
  cases t <;> exact List.mem_cons_self

theorem exists_fold_of_mem_parts {p : Formula} (hp : p ∈ t.parts) {l : Linear}
    (h : t.fold scope = .ok l) : ∃ m, p.fold scope = .ok m := by
  induction t generalizing l with
  | number | text | word =>
      cases List.mem_singleton.mp hp
      exact ⟨l, h⟩
  | group t ih | plus t ih =>
      rcases List.mem_cons.mp hp with rfl | hp
      · exact ⟨l, h⟩
      · exact ih hp h
  | minus t ih =>
      rcases List.mem_cons.mp hp with rfl | hp
      · exact ⟨l, h⟩
      · obtain ⟨a, ha, -⟩ := bind_eq_ok_iff.mp h
        exact ih hp ha
  | add a b iha ihb | sub a b iha ihb | mul a b iha ihb =>
      rcases List.mem_cons.mp hp with rfl | hp
      · exact ⟨l, h⟩
      · obtain ⟨m, hm, h⟩ := bind_eq_ok_iff.mp h
        obtain ⟨n, hn, -⟩ := bind_eq_ok_iff.mp h
        rcases List.mem_append.mp hp with hp | hp
        · exact iha hp hm
        · exact ihb hp hn

theorem fold_of_isVariableProduct {p : Formula} (hp : p ∈ t.parts)
    (hproduct : IsVariableProduct scope p) {l : Linear} : t.fold scope ≠ .ok l := by
  intro h
  obtain ⟨m, hm⟩ := exists_fold_of_mem_parts hp h
  obtain ⟨a, b, l, r, rfl, hl, hr, hlc, hrc⟩ := hproduct
  rw [readExpression_eq_fold] at hl hr
  rw [fold, hl, hr] at hm
  have hrefused : l.mul r = .error .productOfVariables :=
    Linear.mul_eq_error_iff.mpr ⟨rfl, by simp [hlc], by simp [hrc]⟩
  cases hrefused.symm.trans hm

def Refused (scope : Scope) (t : Formula) (e : LineError) : Prop :=
  e = .productOfVariables ∧ ∃ p ∈ t.parts, IsVariableProduct scope p

theorem Refused.of_part {s : Formula} {e : LineError} (hparts : s.parts ⊆ t.parts)
    (h : Refused scope s e) : Refused scope t e := by
  obtain ⟨he, p, hp, hproduct⟩ := h
  exact ⟨he, p, hparts hp, hproduct⟩

theorem parts_left_subset (a b : Formula) (t : Formula) : a.parts ⊆ t :: (a.parts ++ b.parts) :=
  List.subset_cons_of_subset _ (List.subset_append_left _ _)

theorem parts_right_subset (a b : Formula) (t : Formula) : b.parts ⊆ t :: (a.parts ++ b.parts) :=
  List.subset_cons_of_subset _ (List.subset_append_right _ _)

theorem refused_of_operation {a b : Formula} {g : Linear → Linear → Except LineError Linear}
    {e : LineError} (ha : a.fold scope = .error e → Refused scope a e)
    (hb : b.fold scope = .error e → Refused scope b e)
    (h : (a.fold scope >>= fun l => b.fold scope >>= fun r => g l r) = .error e) :
    (e = .productOfVariables ∧ ∃ p ∈ a.parts ++ b.parts, IsVariableProduct scope p) ∨
      ∃ l r, a.fold scope = .ok l ∧ b.fold scope = .ok r ∧ g l r = .error e := by
  rcases bind_eq_error_iff.mp h with h | ⟨l, hl, h⟩
  · obtain ⟨he, p, hp, hproduct⟩ := ha h
    exact .inl ⟨he, p, List.mem_append_left _ hp, hproduct⟩
  · rcases bind_eq_error_iff.mp h with h | ⟨r, hr, h⟩
    · obtain ⟨he, p, hp, hproduct⟩ := hb h
      exact .inl ⟨he, p, List.mem_append_right _ hp, hproduct⟩
    · exact .inr ⟨l, r, hl, hr, h⟩

theorem refused_of_fold {e : LineError} (hoperands : ∀ p ∈ t.parts, p.isOperand)
    (h : t.fold scope = .error e) : Refused scope t e := by
  induction t with
  | number value => cases h
  | text bytes =>
      rw [fold, operandOf_text (hoperands _ (mem_parts_self _))] at h
      cases h
  | word name =>
      obtain ⟨l, hl⟩ := exists_operandOf_word (hoperands _ (mem_parts_self _))
      rw [fold, hl] at h
      cases h
  | group t ih | plus t ih =>
      have hpart : Refused scope t e :=
        ih (fun p hp => hoperands p (List.mem_cons_of_mem _ hp)) h
      exact hpart.of_part (List.subset_cons_self _ _)
  | minus t ih =>
      rcases bind_eq_error_iff.mp h with h | ⟨l, -, h⟩
      · have hpart : Refused scope t e :=
          ih (fun p hp => hoperands p (List.mem_cons_of_mem _ hp)) h
        exact hpart.of_part (List.subset_cons_self _ _)
      · cases h
  | add a b iha ihb | sub a b iha ihb =>
      have ha := iha fun p hp => hoperands p (parts_left_subset a b _ hp)
      have hb := ihb fun p hp => hoperands p (parts_right_subset a b _ hp)
      rcases refused_of_operation ha hb h with ⟨he, p, hp, hproduct⟩ | ⟨l, r, -, -, h⟩
      · exact ⟨he, p, List.mem_cons_of_mem _ hp, hproduct⟩
      · cases h
  | mul a b iha ihb =>
      have ha := iha fun p hp => hoperands p (parts_left_subset a b _ hp)
      have hb := ihb fun p hp => hoperands p (parts_right_subset a b _ hp)
      rcases refused_of_operation ha hb h with ⟨he, p, hp, hproduct⟩ | ⟨l, r, hl, hr, h⟩
      · exact ⟨he, p, List.mem_cons_of_mem _ hp, hproduct⟩
      · obtain ⟨he, hlc, hrc⟩ := Linear.mul_eq_error_iff.mp h
        have hproduct : IsVariableProduct scope (mul a b) := by
          refine ⟨a, b, l, r, rfl, ?_, ?_, by simpa using hlc, by simpa using hrc⟩
          · rw [readExpression_eq_fold, hl]
          · rw [readExpression_eq_fold, hr]
        exact ⟨he, mul a b, mem_parts_self _, hproduct⟩

/-! ## Constants -/

theorem exists_fold_ofConstant (hoperands : ∀ p ∈ t.parts, p.isOperand)
    (hwords : ∀ p ∈ t.parts, p.isWord = false) : ∃ c, t.fold scope = .ok (.ofConstant c) := by
  induction t with
  | number value => exact ⟨value, rfl⟩
  | text bytes => exact ⟨_, operandOf_text (hoperands _ (mem_parts_self _))⟩
  | word name => cases hwords _ (mem_parts_self _)
  | group t ih | plus t ih =>
      exact ih (fun p hp => hoperands p (List.mem_cons_of_mem _ hp))
        (fun p hp => hwords p (List.mem_cons_of_mem _ hp))
  | minus t ih =>
      obtain ⟨c, hc⟩ := ih (fun p hp => hoperands p (List.mem_cons_of_mem _ hp))
        (fun p hp => hwords p (List.mem_cons_of_mem _ hp))
      exact ⟨c * -1, by rw [fold, hc]; rfl⟩
  | add a b iha ihb | sub a b iha ihb | mul a b iha ihb =>
      obtain ⟨c, hc⟩ := iha (fun p hp => hoperands p (parts_left_subset a b _ hp))
        (fun p hp => hwords p (parts_left_subset a b _ hp))
      obtain ⟨d, hd⟩ := ihb (fun p hp => hoperands p (parts_right_subset a b _ hp))
        (fun p hp => hwords p (parts_right_subset a b _ hp))
      rw [fold, hc, hd]
      exact ⟨_, rfl⟩

/-! ## Formulas -/

/-- What the tokens of a formula are read as: if there is an answer, it has the formula's value
for all values of registers and symbols; there is none just if the formula has a product of which
neither factor is a constant, and always one if it has no register and no symbol. -/
structure Folds (scope : Scope) (t : Formula) : Prop where
  value : ∀ l, readExpression scope t.tokens = .ok l → ∀ register symbol,
    l.eval register symbol = Int64.ofInt (t.value scope register symbol)
  refused : ∀ e, readExpression scope t.tokens = .error e ↔ Refused scope t e
  constant : (∀ p ∈ t.parts, p.isWord = false) → ∀ register symbol,
    readExpression scope t.tokens =
      .ok (.ofConstant (Int64.ofInt (t.value scope register symbol)))

/-- The tokens of every formula whose operands can stand in one are folded. -/
theorem readExpression_folds (scope : Scope) (t : Formula)
    (hoperands : ∀ p ∈ t.parts, p.isOperand) : Folds scope t := by
  refine ⟨?value, ?refused, ?constant⟩
  case value =>
    intro l h register symbol
    rw [readExpression_eq_fold] at h
    exact eval_of_fold h register symbol
  case refused =>
    intro e
    rw [readExpression_eq_fold]
    constructor
    · exact refused_of_fold hoperands
    · rintro ⟨rfl, p, hp, hproduct⟩
      cases h : t.fold scope with
      | ok l => exact absurd h (fold_of_isVariableProduct hp hproduct)
      | error e =>
          have he : e = .productOfVariables := (refused_of_fold hoperands h).1
          rw [he]
  case constant =>
    intro hwords register symbol
    obtain ⟨c, hc⟩ : ∃ c, t.fold scope = .ok (.ofConstant c) :=
      exists_fold_ofConstant hoperands hwords
    have hvalue : c = Int64.ofInt (t.value scope register symbol) := by
      rw [← eval_of_fold hc register symbol, Linear.eval_ofConstant]
    rw [readExpression_eq_fold, hc, hvalue]

/-- A product of a difference and a constant, to which a local name is added. -/
theorem readExpression_folds_product :
    let t : Formula := .add (.mul (.minus (.sub (.word "RAX") (.number 2)))
      (.sub (.number 1) (.text [65]))) (.word ".x")
    (∀ p ∈ t.parts, p.isOperand) ∧ Folds (some "main") t := by
  intro t
  have hoperands : ∀ p ∈ t.parts, p.isOperand := by decide +kernel
  exact ⟨hoperands, readExpression_folds (some "main") t hoperands⟩

end Formula

end AsmLoader.Source
