import AsmLoader.Proofs.Source.Linear
import AsmLoader.Source.Formula
/-!
# Formulas are folded

Reading the tokens of a formula gives the linear form that is put together from those of its
parts. Its value is that of the formula, in 64 bits. It exists unless a product has two factors
of which neither is a constant.
-/

namespace AsmLoader.Source

open Machine (Register)

def Reading.run (scope : Scope) (r : Reading) (tokens : List Token) : Except LineError Reading :=
  tokens.foldlM (Reading.step scope) r

namespace Formula

/-- The linear form of a formula, from those of its parts. -/
def fold (scope : Scope) : Formula → Except LineError Linear
  | number value => operandOf scope (.number value)
  | text bytes => operandOf scope (.text bytes)
  | word name => operandOf scope (.word name)
  | group t | plus t => t.fold scope
  | minus t => do
    let l ← t.fold scope
    return l.scale (-1)
  | add a b => do
    let l ← a.fold scope
    let r ← b.fold scope
    return l.add r
  | sub a b => do
    let l ← a.fold scope
    let r ← b.fold scope
    return l.add (r.scale (-1))
  | mul a b => do
    let l ← a.fold scope
    let r ← b.fold scope
    l.mul r

/-- What has been read of an expression at the end of a formula: the last term stands apart, as
it may still be multiplied. -/
def frame (scope : Scope) : Formula → Except LineError Frame
  | add a b => do
    let l ← a.fold scope
    let r ← b.fold scope
    return ⟨some l, false, some r, false⟩
  | sub a b => do
    let l ← a.fold scope
    let r ← b.fold scope
    return ⟨some l, true, some r, false⟩
  | t => do
    let l ← t.fold scope
    return ⟨none, false, some l, false⟩

section Reading

variable {scope : Scope} {t : Formula}

theorem isSum_eq_false (h : t.isOperation = false) : t.isSum = false := by
  cases t <;> first | rfl | cases h

theorem frame_of_not_isSum (h : t.isSum = false) :
    t.frame scope = t.fold scope >>= fun l => .ok ⟨none, false, some l, false⟩ := by
  cases t <;> first | rfl | cases h

theorem frame_bind_value {α : Type} (g : Linear → Except LineError α) :
    (t.frame scope >>= fun f => g f.value) = t.fold scope >>= g := by
  by_cases hsum : t.isSum
  · cases t with
    | add a b | sub a b =>
        simp only [frame, fold, bind_assoc, pure_bind]
        rfl
    | _ => cases hsum
  · rw [frame_of_not_isSum (Bool.not_eq_true _ ▸ hsum), bind_assoc]
    rfl

theorem run_cons (r : Reading) (token : Token) (tokens : List Token) :
    r.run scope (token :: tokens) = r.step scope token >>= fun r => r.run scope tokens :=
  List.foldlM_cons

theorem run_append (r : Reading) (tokens tokens' : List Token) :
    r.run scope (tokens ++ tokens') = r.run scope tokens >>= fun r => r.run scope tokens' :=
  List.foldlM_append

/-- How the tokens of a formula are read: at the start of an expression, where a term is missing
if the formula is no sum, and where a factor is missing if it is no operation at all. -/
structure Reads (scope : Scope) (t : Formula) : Prop where
  start : ∀ outer, Reading.run scope ⟨outer, .start, false⟩ t.tokens =
    t.frame scope >>= fun f => .ok ⟨outer, f, true⟩
  term : t.isSum = false → ∀ outer sum subtract,
    Reading.run scope ⟨outer, ⟨sum, subtract, none, false⟩, false⟩ t.tokens =
      t.fold scope >>= fun l => .ok ⟨outer, ⟨sum, subtract, some l, false⟩, true⟩
  factor : t.isOperation = false → ∀ outer f, Reading.run scope ⟨outer, f, false⟩ t.tokens =
    t.fold scope >>= fun l => f.factor l >>= fun f => .ok ⟨outer, f, true⟩

namespace Reads

theorem of_term (hsum : t.isSum = false) (hoperation : t.isOperation)
    (h : ∀ outer sum subtract,
      Reading.run scope ⟨outer, ⟨sum, subtract, none, false⟩, false⟩ t.tokens =
        t.fold scope >>= fun l => .ok ⟨outer, ⟨sum, subtract, some l, false⟩, true⟩) :
    Reads scope t := by
  refine ⟨?_, fun _ => h, fun hnot => by simp [hoperation] at hnot⟩
  intro outer
  rw [frame_of_not_isSum hsum, bind_assoc]
  exact h outer none false

theorem of_factor (hoperation : t.isOperation = false)
    (h : ∀ outer f, Reading.run scope ⟨outer, f, false⟩ t.tokens =
      t.fold scope >>= fun l => f.factor l >>= fun f => .ok ⟨outer, f, true⟩) :
    Reads scope t := by
  have hsum : t.isSum = false := isSum_eq_false hoperation
  refine ⟨?_, fun _ outer sum subtract => h outer ⟨sum, subtract, none, false⟩, fun _ => h⟩
  intro outer
  rw [frame_of_not_isSum hsum, bind_assoc]
  exact h outer .start

theorem parenthesized (h : Reads scope t) (outer : List Frame) (f : Frame) :
    Reading.run scope ⟨outer, f, false⟩ (enclose true t.tokens) =
      t.fold scope >>= fun l => f.factor l >>= fun f => .ok ⟨outer, f, true⟩ := by
  have hclose (f' : Frame) : Reading.run scope ⟨f :: outer, f', true⟩ [.mark ')'] =
      f.factor f'.value >>= fun f => .ok ⟨outer, f, true⟩ := by
    rw [run_cons]
    change (f.factor f'.value >>= _) >>= _ = _
    rw [bind_assoc]
    rfl
  calc Reading.run scope ⟨outer, f, false⟩ (enclose true t.tokens)
      = Reading.run scope ⟨f :: outer, .start, false⟩ (t.tokens ++ [.mark ')']) := rfl
    _ = t.frame scope >>= fun f' => Reading.run scope ⟨f :: outer, f', true⟩ [.mark ')'] := by
        rw [run_append, h.start, bind_assoc]
        rfl
    _ = t.frame scope >>= fun f' => f.factor f'.value >>= fun f => .ok ⟨outer, f, true⟩ := by
        simp only [hclose]
    _ = t.fold scope >>= fun l => f.factor l >>= fun f => .ok ⟨outer, f, true⟩ :=
        frame_bind_value fun l => f.factor l >>= fun f => .ok (Reading.mk outer f true)

theorem asFactor (h : Reads scope t) (outer : List Frame) (f : Frame) :
    Reading.run scope ⟨outer, f, false⟩ (enclose t.isOperation t.tokens) =
      t.fold scope >>= fun l => f.factor l >>= fun f => .ok ⟨outer, f, true⟩ := by
  cases hoperation : t.isOperation with
  | true => exact h.parenthesized outer f
  | false => exact h.factor hoperation outer f

theorem asTerm (h : Reads scope t) (outer : List Frame) (sum : Option Linear) (subtract : Bool) :
    Reading.run scope ⟨outer, ⟨sum, subtract, none, false⟩, false⟩ (enclose t.isSum t.tokens) =
      t.fold scope >>= fun l => .ok ⟨outer, ⟨sum, subtract, some l, false⟩, true⟩ := by
  cases hsum : t.isSum with
  | true => exact h.parenthesized outer ⟨sum, subtract, none, false⟩
  | false => exact h.term hsum outer sum subtract

theorem operand {token : Token} (htokens : t.tokens = [token])
    (hfold : t.fold scope = operandOf scope token) (hoperation : t.isOperation = false)
    (hstep : ∀ outer f, Reading.step scope ⟨outer, f, false⟩ token =
      operandOf scope token >>= fun l => f.factor l >>= fun f => .ok ⟨outer, f, true⟩) :
    Reads scope t := by
  refine of_factor hoperation fun outer f => ?_
  rw [htokens, run_cons, hstep, hfold, bind_assoc]
  simp only [bind_assoc]
  rfl

theorem sum {a b : Formula} (ha : Reads scope a) (hb : Reads scope b) {token : Token}
    {subtract : Bool} (outer : List Frame)
    (hstep : ∀ f, Reading.step scope ⟨outer, f, true⟩ token =
      .ok ⟨outer, f.nextTerm subtract, false⟩) :
    Reading.run scope ⟨outer, .start, false⟩ (a.tokens ++ token :: enclose b.isSum b.tokens) =
      a.fold scope >>= fun l => b.fold scope >>= fun r =>
        .ok ⟨outer, ⟨some l, subtract, some r, false⟩, true⟩ := by
  have hterm (f : Frame) :
      Reading.run scope ⟨outer, f, true⟩ (token :: enclose b.isSum b.tokens) =
      b.fold scope >>= fun r => .ok ⟨outer, ⟨some f.value, subtract, some r, false⟩, true⟩ := by
    rw [run_cons, hstep]
    exact hb.asTerm outer (some f.value) subtract
  calc Reading.run scope ⟨outer, .start, false⟩ (a.tokens ++ token :: enclose b.isSum b.tokens)
      = a.frame scope >>= fun f =>
          Reading.run scope ⟨outer, f, true⟩ (token :: enclose b.isSum b.tokens) := by
        rw [run_append, ha.start, bind_assoc]
        rfl
    _ = a.frame scope >>= fun f => b.fold scope >>= fun r =>
          .ok ⟨outer, ⟨some f.value, subtract, some r, false⟩, true⟩ := by
        simp only [hterm]
    _ = a.fold scope >>= fun l => b.fold scope >>= fun r =>
          .ok ⟨outer, ⟨some l, subtract, some r, false⟩, true⟩ :=
        frame_bind_value fun l => b.fold scope >>= fun r =>
          .ok (Reading.mk outer ⟨some l, subtract, some r, false⟩ true)

end Reads

theorem factor_negate (f : Frame) (l : Linear) :
    Frame.factor { f with negate := !f.negate } l = f.factor (l.scale (-1)) := by
  obtain ⟨sum, subtract, product, negate⟩ := f
  cases negate with
  | false => simp only [Frame.factor, Bool.not_false, if_true, Bool.false_eq_true, if_false]
  | true =>
      simp only [Frame.factor, Bool.not_true, if_true, Bool.false_eq_true, if_false,
        Linear.scale_neg_one_scale_neg_one]

theorem reads (scope : Scope) (t : Formula) : Reads scope t := by
  induction t with
  | number value => exact .operand rfl rfl rfl fun _ _ => rfl
  | text bytes => exact .operand rfl rfl rfl fun _ _ => rfl
  | word name => exact .operand rfl rfl rfl fun _ _ => rfl
  | group t ih => exact .of_factor rfl ih.parenthesized
  | plus t ih => exact .of_factor rfl ih.asFactor
  | minus t ih =>
      refine .of_factor rfl fun outer f => ?_
      calc Reading.run scope ⟨outer, f, false⟩ (minus t).tokens
          = Reading.run scope ⟨outer, { f with negate := !f.negate }, false⟩
              (enclose t.isOperation t.tokens) := rfl
        _ = t.fold scope >>= fun l => Frame.factor { f with negate := !f.negate } l >>=
              fun f => .ok ⟨outer, f, true⟩ := ih.asFactor outer _
        _ = (minus t).fold scope >>= fun l => f.factor l >>= fun f => .ok ⟨outer, f, true⟩ := by
            simp only [factor_negate, fold, bind_assoc, pure_bind]
  | add a b iha ihb =>
      refine ⟨fun outer => ?_, nofun, nofun⟩
      simp only [frame, bind_assoc]
      exact iha.sum ihb outer fun _ => rfl
  | sub a b iha ihb =>
      refine ⟨fun outer => ?_, nofun, nofun⟩
      simp only [frame, bind_assoc]
      exact iha.sum ihb outer fun _ => rfl
  | mul a b iha ihb =>
      refine .of_term rfl rfl fun outer sum subtract => ?_
      have hfactor (l : Linear) : Reading.run scope ⟨outer, ⟨sum, subtract, some l, false⟩, true⟩
          (.mark '*' :: enclose b.isOperation b.tokens) =
            b.fold scope >>= fun r => l.mul r >>= fun product =>
              .ok ⟨outer, ⟨sum, subtract, some product, false⟩, true⟩ := by
        rw [run_cons]
        change Reading.run scope ⟨outer, ⟨sum, subtract, some l, false⟩, false⟩ _ = _
        rw [ihb.asFactor]
        simp only [Frame.factor, bind_assoc]
        rfl
      simp only [tokens, fold, run_append, iha.asTerm, bind_assoc]
      change (a.fold scope >>= fun l => Reading.run scope
        ⟨outer, ⟨sum, subtract, some l, false⟩, true⟩
          (.mark '*' :: enclose b.isOperation b.tokens)) = _
      simp only [hfactor]

/-- Reading the tokens of a formula folds it. -/
theorem readExpression_eq_fold (scope : Scope) (t : Formula) :
    readExpression scope t.tokens = t.fold scope := by
  have hfinish (f : Frame) : Reading.finish ⟨[], f, true⟩ = .ok f.value := rfl
  calc readExpression scope t.tokens
      = Reading.run scope .start t.tokens >>= Reading.finish := rfl
    _ = t.frame scope >>= fun f => .ok f.value := by
        rw [Reading.start, (reads scope t).start, bind_assoc]
        rfl
    _ = t.fold scope := by
        rw [frame_bind_value]
        exact bind_pure (t.fold scope)

end Reading

end Formula

end AsmLoader.Source
