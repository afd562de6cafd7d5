import AsmLoader.Proofs.Outcome
import AsmLoader.Source.Linear
/-!
# The value of linear forms

Sums, multiples and products of linear forms have the sum, multiple and product of their values,
for all values of registers and symbols. No term is lost whose coefficient is not zero.
-/

namespace AsmLoader.Source

open Machine (Register)

section Terms

variable {κ : Type} [DecidableEq κ] (value : κ → Int64)

theorem evalTerms_addTerm (key : κ) (coefficient : Int64) (terms : List (κ × Int64)) :
    evalTerms value (addTerm key coefficient terms) =
      evalTerms value terms + coefficient * value key := by
  induction terms with
  | nil => simp [addTerm, evalTerms]
  | cons term terms ih =>
      obtain ⟨other, old⟩ := term
      rw [addTerm]
      split
      next heq =>
        subst heq
        simp only [evalTerms]
        grind
      next =>
        simp only [evalTerms, ih]
        grind

omit [DecidableEq κ] in
theorem evalTerms_filter (terms : List (κ × Int64)) :
    evalTerms value (terms.filter (·.2 ≠ 0)) = evalTerms value terms := by
  induction terms with
  | nil => rfl
  | cons term terms ih =>
      obtain ⟨key, coefficient⟩ := term
      by_cases hzero : coefficient = 0
      · rw [List.filter_cons_of_neg (by simpa using hzero), ih, evalTerms, hzero, Int64.zero_mul,
          Int64.zero_add]
      · rw [List.filter_cons_of_pos (by simpa using hzero), evalTerms, evalTerms, ih]

theorem evalTerms_addTerms (terms others : List (κ × Int64)) :
    evalTerms value (addTerms terms others) =
      evalTerms value terms + evalTerms value others := by
  rw [addTerms, evalTerms_filter]
  induction others generalizing terms with
  | nil => simp [evalTerms]
  | cons term others ih =>
      rw [List.foldl_cons, ih, evalTerms_addTerm, evalTerms]
      grind

omit [DecidableEq κ] in
theorem evalTerms_scaleTerms (factor : Int64) (terms : List (κ × Int64)) :
    evalTerms value (scaleTerms factor terms) = evalTerms value terms * factor := by
  induction terms with
  | nil => simp [scaleTerms, evalTerms]
  | cons term terms ih =>
      change term.2 * factor * value term.1 + evalTerms value (scaleTerms factor terms) =
        (term.2 * value term.1 + evalTerms value terms) * factor
      rw [ih]
      grind

end Terms

namespace Linear

variable (register : Register → Int64) (symbol : String → Int64)

@[simp] theorem eval_ofConstant (value : Int64) : (ofConstant value).eval register symbol =
    value := by
  simp [eval, ofConstant, evalTerms]

@[simp] theorem eval_ofRegister (r : Register) :
    (ofRegister r).eval register symbol = register r := by
  simp [eval, ofRegister, evalTerms]

@[simp] theorem eval_ofSymbol (name : String) :
    (ofSymbol name).eval register symbol = symbol name := by
  simp [eval, ofSymbol, evalTerms]

@[simp] theorem eval_add (a b : Linear) :
    (a.add b).eval register symbol = a.eval register symbol + b.eval register symbol := by
  simp only [eval, add, evalTerms_addTerms]
  grind

@[simp] theorem eval_scale (a : Linear) (factor : Int64) :
    (a.scale factor).eval register symbol = a.eval register symbol * factor := by
  simp only [eval, scale, evalTerms_scaleTerms]
  grind

theorem eq_ofConstant {a : Linear} (h : a.isConstant) : a = ofConstant a.constant := by
  obtain ⟨constant, registers, symbols⟩ := a
  simp only [isConstant, Bool.and_eq_true, List.isEmpty_iff] at h
  obtain ⟨rfl, rfl⟩ := h
  rfl

theorem mul_eq_ok_iff {a b l : Linear} : a.mul b = .ok l ↔
    (b.isConstant ∧ l = a.scale b.constant) ∨
      (¬b.isConstant ∧ a.isConstant ∧ l = b.scale a.constant) := by
  unfold mul
  split
  next hb => simp [hb, eq_comm (a := l)]
  next hb =>
    split
    next ha => simp [ha, hb, eq_comm (a := l)]
    next ha => simp [ha, hb]

theorem mul_eq_error_iff {a b : Linear} {e : LineError} : a.mul b = .error e ↔
    e = .productOfVariables ∧ ¬a.isConstant ∧ ¬b.isConstant := by
  unfold mul
  split
  next hb => simp [hb]
  next hb =>
    split
    next ha => simp [ha]
    next ha => simp [ha, hb, eq_comm]

theorem eval_mul {a b l : Linear} (h : a.mul b = .ok l) :
    l.eval register symbol = a.eval register symbol * b.eval register symbol := by
  rcases mul_eq_ok_iff.mp h with ⟨hb, rfl⟩ | ⟨-, ha, rfl⟩
  · rw [eval_scale, eq_ofConstant hb, eval_ofConstant, ofConstant]
  · rw [eval_scale, eq_ofConstant ha, eval_ofConstant, ofConstant, Int64.mul_comm]

/-! ## Forms without symbols -/

theorem symbols_scale {a : Linear} (h : a.symbols = []) (factor : Int64) :
    (a.scale factor).symbols = [] := by
  rw [scale, h]
  rfl

theorem symbols_add {a b : Linear} (ha : a.symbols = []) (hb : b.symbols = []) :
    (a.add b).symbols = [] := by
  rw [add, ha, hb]
  rfl

theorem symbols_mul {a b l : Linear} (ha : a.symbols = []) (hb : b.symbols = [])
    (h : a.mul b = .ok l) : l.symbols = [] := by
  rcases mul_eq_ok_iff.mp h with ⟨-, rfl⟩ | ⟨-, -, rfl⟩
  · exact symbols_scale ha b.constant
  · exact symbols_scale hb a.constant

theorem eval_of_symbols {a : Linear} (h : a.symbols = []) :
    a.eval register symbol = a.constant + evalTerms register a.registers := by
  rw [eval, h, evalTerms, Int64.add_zero]

/-! ## Signs -/

theorem scale_neg_one_scale_neg_one (a : Linear) : (a.scale (-1)).scale (-1) = a := by
  have hsign (x : Int64) : x * -1 * -1 = x := by
    rw [Int64.mul_assoc]
    exact Int64.mul_one x
  have hterms {κ : Type} (terms : List (κ × Int64)) :
      scaleTerms (-1) (scaleTerms (-1) terms) = terms := by
    induction terms with
    | nil => rfl
    | cons term terms ih =>
        change (term.1, term.2 * -1 * -1) :: scaleTerms (-1) (scaleTerms (-1) terms) =
          term :: terms
        rw [hsign, ih]
  obtain ⟨constant, registers, symbols⟩ := a
  change (⟨constant * -1 * -1, scaleTerms (-1) (scaleTerms (-1) registers),
    scaleTerms (-1) (scaleTerms (-1) symbols)⟩ : Linear) = ⟨constant, registers, symbols⟩
  rw [hsign, hterms, hterms]

end Linear

end AsmLoader.Source
