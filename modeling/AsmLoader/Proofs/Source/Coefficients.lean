import Mathlib.Data.List.Nodup
import AsmLoader.Proofs.Source.Grammar
/-!
# Coefficients

The meaning of a linear form: its constant, and the total coefficient of every register and of
every symbol, which is zero where there is no term. What is read has one term for each name. If
none of these is zero, as after every sum, the meaning determines the terms up to their order.
-/

namespace AsmLoader.Source

open Machine (Register)

section Terms

variable {κ : Type} [DecidableEq κ] {terms others : List (κ × Int64)}

def coefficient (key : κ) (terms : List (κ × Int64)) : Int64 :=
  ((terms.filter (·.1 = key)).map Prod.snd).sum

@[simp] theorem coefficient_nil (key : κ) : coefficient key [] = 0 :=
  rfl

theorem coefficient_cons (key other : κ) (old : Int64) (terms : List (κ × Int64)) :
    coefficient key ((other, old) :: terms) =
      if other = key then old + coefficient key terms else coefficient key terms := by
  by_cases h : other = key
  · simp [coefficient, h]
  · simp [coefficient, h]

theorem evalTerms_indicator (key : κ) (terms : List (κ × Int64)) :
    evalTerms (fun other => if other = key then 1 else 0) terms = coefficient key terms := by
  induction terms with
  | nil => rfl
  | cons term terms ih =>
      obtain ⟨other, old⟩ := term
      rw [evalTerms, ih, coefficient_cons]
      by_cases h : other = key
      · rw [if_pos h, if_pos h, Int64.mul_one]
      · rw [if_neg h, if_neg h, Int64.mul_zero, Int64.zero_add]

omit [DecidableEq κ] in
theorem evalTerms_zero (terms : List (κ × Int64)) : evalTerms (fun _ => 0) terms = 0 := by
  induction terms with
  | nil => rfl
  | cons term terms ih => rw [evalTerms, ih, Int64.mul_zero, Int64.add_zero]

omit [DecidableEq κ] in
theorem evalTerms_perm (value : κ → Int64) (h : terms.Perm others) :
    evalTerms value terms = evalTerms value others := by
  induction h with
  | nil => rfl
  | cons term _ ih => rw [evalTerms, evalTerms, ih]
  | swap first second terms =>
      simp only [evalTerms]
      grind
  | trans _ _ ih ih' => rw [ih, ih']

/-! ## One term for each key -/

theorem map_fst_addTerm (key : κ) (new : Int64) (terms : List (κ × Int64)) :
    (addTerm key new terms).map Prod.fst =
      if key ∈ terms.map Prod.fst then terms.map Prod.fst else terms.map Prod.fst ++ [key] := by
  induction terms with
  | nil => rfl
  | cons term terms ih =>
      obtain ⟨other, old⟩ := term
      by_cases h : other = key
      · simp [addTerm, h]
      · have hne : key ≠ other := fun heq => h heq.symm
        simp only [addTerm, if_neg h, List.map_cons, ih, List.mem_cons, hne, false_or]
        split <;> rfl

theorem nodup_addTerm (key : κ) (new : Int64) (h : (terms.map Prod.fst).Nodup) :
    ((addTerm key new terms).map Prod.fst).Nodup := by
  rw [map_fst_addTerm]
  split
  next => exact h
  next hnew =>
    refine List.nodup_append.mpr ⟨h, List.nodup_singleton key, fun other hother last hlast => ?_⟩
    rw [List.mem_singleton.mp hlast]
    exact fun heq => hnew (heq ▸ hother)

theorem nodup_addTerms (h : (terms.map Prod.fst).Nodup) (others : List (κ × Int64)) :
    ((addTerms terms others).map Prod.fst).Nodup := by
  have hsum : ((others.foldl (fun sum term => addTerm term.1 term.2 sum) terms).map
      Prod.fst).Nodup := by
    induction others generalizing terms with
    | nil => exact h
    | cons term others ih => exact ih (nodup_addTerm term.1 term.2 h)
  exact hsum.sublist (List.filter_sublist.map Prod.fst)

omit [DecidableEq κ] in
theorem map_fst_scaleTerms (factor : Int64) (terms : List (κ × Int64)) :
    (scaleTerms factor terms).map Prod.fst = terms.map Prod.fst := by
  rw [scaleTerms, List.map_map]
  rfl

theorem coefficient_of_not_mem {key : κ} (h : key ∉ terms.map Prod.fst) :
    coefficient key terms = 0 := by
  have hnone : terms.filter (·.1 = key) = [] := by
    rw [List.filter_eq_nil_iff]
    intro term hterm
    have hne : term.1 ≠ key := fun heq => h (heq ▸ List.mem_map_of_mem hterm)
    simpa using hne
  rw [coefficient, hnone]
  rfl

theorem coefficient_of_mem {key : κ} {old : Int64} (hdistinct : (terms.map Prod.fst).Nodup)
    (h : (key, old) ∈ terms) : coefficient key terms = old := by
  induction terms with
  | nil => cases h
  | cons term terms ih =>
      rw [List.map_cons, List.nodup_cons] at hdistinct
      rw [coefficient_cons key term.1 term.2 terms]
      rcases List.mem_cons.mp h with rfl | h
      · rw [if_pos rfl, coefficient_of_not_mem hdistinct.1, Int64.add_zero]
      · have hne : term.1 ≠ key := fun heq => hdistinct.1 (heq ▸ List.mem_map_of_mem h)
        rw [if_neg hne, ih hdistinct.2 h]

theorem mem_iff_coefficient (hdistinct : (terms.map Prod.fst).Nodup)
    (hzero : ∀ term ∈ terms, term.2 ≠ 0) (key : κ) (old : Int64) :
    (key, old) ∈ terms ↔ old ≠ 0 ∧ coefficient key terms = old := by
  constructor
  · intro h
    exact ⟨hzero _ h, coefficient_of_mem hdistinct h⟩
  · rintro ⟨hne, rfl⟩
    have hkey : key ∈ terms.map Prod.fst := by
      by_contra hnot
      exact hne (coefficient_of_not_mem hnot)
    obtain ⟨⟨other, old⟩, hterm, rfl⟩ := List.mem_map.mp hkey
    rwa [coefficient_of_mem hdistinct hterm]

theorem perm_of_coefficient (hdistinct : (terms.map Prod.fst).Nodup)
    (hdistinct' : (others.map Prod.fst).Nodup) (hzero : ∀ term ∈ terms, term.2 ≠ 0)
    (hzero' : ∀ term ∈ others, term.2 ≠ 0)
    (h : ∀ key, coefficient key terms = coefficient key others) : terms.Perm others := by
  rw [List.perm_ext_iff_of_nodup hdistinct.of_map hdistinct'.of_map]
  rintro ⟨key, old⟩
  rw [mem_iff_coefficient hdistinct hzero, mem_iff_coefficient hdistinct' hzero', h]

end Terms

namespace Linear

variable {a b l : Linear}

/-! ## Meaning -/

/-- Two forms mean the same: they have the same constant, and every register and every symbol has
the same coefficient in both. -/
structure Agrees (a b : Linear) : Prop where
  constant : a.constant = b.constant
  registers : ∀ r, coefficient r a.registers = coefficient r b.registers
  symbols : ∀ name, coefficient name a.symbols = coefficient name b.symbols

theorem Agrees.symm (h : a.Agrees b) : b.Agrees a :=
  ⟨h.constant.symm, fun r => (h.registers r).symm, fun name => (h.symbols name).symm⟩

/-- Forms that always have the same value mean the same. -/
theorem agrees_of_eval (h : ∀ register symbol, a.eval register symbol = b.eval register symbol) :
    a.Agrees b := by
  have hconstant : a.constant = b.constant := by
    have hzero := h (fun _ => 0) (fun _ => 0)
    simp only [eval, evalTerms_zero, Int64.add_zero] at hzero
    exact hzero
  refine ⟨hconstant, fun r => ?_, fun name => ?_⟩
  · have hone := h (fun other => if other = r then 1 else 0) (fun _ => 0)
    simp only [eval, evalTerms_zero, evalTerms_indicator, Int64.add_zero, hconstant] at hone
    exact (Int64.add_right_inj _).mp hone
  · have hone := h (fun _ => 0) (fun other => if other = name then 1 else 0)
    simp only [eval, evalTerms_zero, evalTerms_indicator, Int64.add_zero, hconstant] at hone
    exact (Int64.add_right_inj _).mp hone

/-! ## Reduced forms -/

structure Distinct (l : Linear) : Prop where
  registers : (l.registers.map Prod.fst).Nodup
  symbols : (l.symbols.map Prod.fst).Nodup

structure Reduced (l : Linear) : Prop where
  registers : ∀ term ∈ l.registers, term.2 ≠ 0
  symbols : ∀ term ∈ l.symbols, term.2 ≠ 0

theorem reduced_add (a b : Linear) : (a.add b).Reduced := by
  have hterms {κ : Type} [DecidableEq κ] (terms others : List (κ × Int64)) :
      ∀ term ∈ addTerms terms others, term.2 ≠ 0 := by
    intro term hterm
    simpa using (List.mem_filter.mp hterm).2
  exact ⟨hterms a.registers b.registers, hterms a.symbols b.symbols⟩

theorem distinct_ofConstant (value : Int64) : (ofConstant value).Distinct :=
  ⟨List.nodup_nil, List.nodup_nil⟩

theorem Distinct.add (h : a.Distinct) (b : Linear) : (a.add b).Distinct :=
  ⟨nodup_addTerms h.registers b.registers, nodup_addTerms h.symbols b.symbols⟩

theorem Distinct.scale (h : a.Distinct) (factor : Int64) : (a.scale factor).Distinct := by
  refine ⟨?_, ?_⟩
  · rw [Linear.scale, map_fst_scaleTerms]
    exact h.registers
  · rw [Linear.scale, map_fst_scaleTerms]
    exact h.symbols

theorem Distinct.mul (ha : a.Distinct) (hb : b.Distinct) (h : a.mul b = .ok l) : l.Distinct := by
  rcases mul_eq_ok_iff.mp h with ⟨-, rfl⟩ | ⟨-, -, rfl⟩
  · exact ha.scale b.constant
  · exact hb.scale a.constant

theorem Agrees.perm_registers (h : a.Agrees b) (ha : a.Distinct) (hb : b.Distinct)
    (hreduced : a.Reduced) (hreduced' : b.Reduced) : a.registers.Perm b.registers :=
  perm_of_coefficient ha.registers hb.registers hreduced.registers hreduced'.registers
    h.registers

theorem Agrees.perm_symbols (h : a.Agrees b) (ha : a.Distinct) (hb : b.Distinct)
    (hreduced : a.Reduced) (hreduced' : b.Reduced) : a.symbols.Perm b.symbols :=
  perm_of_coefficient ha.symbols hb.symbols hreduced.symbols hreduced'.symbols h.symbols

end Linear

/-! ## What is read -/

theorem distinct_of_operandOf {scope : Scope} {token : Token} {l : Linear}
    (h : operandOf scope token = .ok l) : l.Distinct := by
  unfold operandOf at h
  split at h
  next value =>
    cases h
    exact Linear.distinct_ofConstant value
  next bytes =>
    obtain ⟨value, -, rfl⟩ := map_eq_ok_iff.mp h
    exact Linear.distinct_ofConstant value
  next name =>
    split at h
    next r _ =>
      cases h
      exact ⟨List.nodup_singleton r, List.nodup_nil⟩
    next =>
      split at h
      next => cases h
      next =>
        cases h
        exact ⟨List.nodup_nil, List.nodup_singleton (scope.qualify name)⟩
  next => cases h

theorem Formula.distinct_of_fold {scope : Scope} {t : Formula} {l : Linear}
    (h : t.fold scope = .ok l) : l.Distinct := by
  induction t generalizing l with
  | number | text | word => exact distinct_of_operandOf h
  | group t ih | plus t ih => exact ih h
  | minus t ih =>
      obtain ⟨a, ha, h⟩ := bind_eq_ok_iff.mp h
      cases h
      exact (ih ha).scale (-1)
  | add a b iha ihb =>
      obtain ⟨l, hl, h⟩ := bind_eq_ok_iff.mp h
      obtain ⟨r, hr, h⟩ := bind_eq_ok_iff.mp h
      cases h
      exact (iha hl).add r
  | sub a b iha ihb =>
      obtain ⟨l, hl, h⟩ := bind_eq_ok_iff.mp h
      obtain ⟨r, hr, h⟩ := bind_eq_ok_iff.mp h
      cases h
      exact (iha hl).add (r.scale (-1))
  | mul a b iha ihb =>
      obtain ⟨l, hl, h⟩ := bind_eq_ok_iff.mp h
      obtain ⟨r, hr, h⟩ := bind_eq_ok_iff.mp h
      exact (iha hl).mul (ihb hr) h

theorem distinct_of_readExpression {scope : Scope} {tokens : List Token} {l : Linear}
    (h : readExpression scope tokens = .ok l) : l.Distinct := by
  obtain ⟨t, -, hfold⟩ := readExpression_eq_ok_iff.mp h
  exact Formula.distinct_of_fold hfold

end AsmLoader.Source
