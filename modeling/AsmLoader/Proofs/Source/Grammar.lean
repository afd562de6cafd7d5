import AsmLoader.Proofs.Source.Folding
/-!
# What is read is a formula

Tokens are read as an expression just if they are those of a formula with a linear form. Where a
factor is missing, what is accepted starts with one; where an expression may end, it goes on with
terms and factors up to the end or to the parenthesis that closes it. Both are proved together by
induction on the number of tokens, since a factor can be an expression in parentheses.
-/

namespace AsmLoader.Source

variable {scope : Scope} {outer : List Frame} {f : Frame} {r : Reading} {token : Token}
  {tokens : List Token}

/-! ## Steps -/

namespace Reading

def Accepts (scope : Scope) (r : Reading) (tokens : List Token) : Prop :=
  ∃ l, (r.run scope tokens >>= finish) = .ok l

theorem accepts_cons (h : r.Accepts scope (token :: tokens)) :
    ∃ r', r.step scope token = .ok r' ∧ r'.Accepts scope tokens := by
  obtain ⟨l, h⟩ := h
  rw [Formula.run_cons, bind_assoc] at h
  obtain ⟨r', hstep, h⟩ := bind_eq_ok_iff.mp h
  exact ⟨r', hstep, l, h⟩

theorem accepts_nil (h : r.Accepts scope []) : r.complete ∧ r.outer = [] := by
  obtain ⟨l, h⟩ := h
  change r.finish = .ok l at h
  unfold finish at h
  split at h
  next => cases h
  next hcomplete =>
    split at h
    next houter => exact ⟨by simpa using hcomplete, by simpa using houter⟩
    next => cases h

theorem exists_formula_of_operandOf {l : Linear} (h : operandOf scope token = .ok l) :
    ∃ t : Formula, t.isOperation = false ∧ t.tokens = [token] := by
  cases token with
  | number value => exact ⟨.number value, rfl, rfl⟩
  | text bytes => exact ⟨.text bytes, rfl, rfl⟩
  | word name => exact ⟨.word name, rfl, rfl⟩
  | mark c => cases h

theorem step_incomplete (h : step scope ⟨outer, f, false⟩ token = .ok r) :
    ((token = .mark '+' ∨ token = .mark '-') ∧ ∃ f', r = ⟨outer, f', false⟩) ∨
      (token = .mark '(' ∧ r = ⟨f :: outer, .start, false⟩) ∨
      (∃ t : Formula, t.isOperation = false ∧ t.tokens = [token]) ∧
      ∃ f', r = ⟨outer, f', true⟩ := by
  change stepFactor scope ⟨outer, f, false⟩ token = .ok r at h
  unfold stepFactor at h
  split at h
  next =>
    cases h
    exact .inl ⟨.inr rfl, _, rfl⟩
  next =>
    cases h
    exact .inl ⟨.inl rfl, _, rfl⟩
  next =>
    cases h
    exact .inr (.inl ⟨rfl, rfl⟩)
  next =>
    obtain ⟨l, hl, h⟩ := bind_eq_ok_iff.mp h
    obtain ⟨f', hf', h⟩ := bind_eq_ok_iff.mp h
    cases h
    exact .inr (.inr ⟨exists_formula_of_operandOf hl, f', rfl⟩)

theorem step_complete (h : step scope ⟨outer, f, true⟩ token = .ok r) :
    ((token = .mark '+' ∨ token = .mark '-' ∨ token = .mark '*') ∧
      ∃ f', r = ⟨outer, f', false⟩) ∨
      token = .mark ')' ∧ ∃ frame rest f', outer = frame :: rest ∧ r = ⟨rest, f', true⟩ := by
  change stepOperator ⟨outer, f, true⟩ token = .ok r at h
  unfold stepOperator at h
  split at h
  next =>
    cases h
    exact .inl ⟨.inl rfl, _, rfl⟩
  next =>
    cases h
    exact .inl ⟨.inr (.inl rfl), _, rfl⟩
  next =>
    cases h
    exact .inl ⟨.inr (.inr rfl), f, rfl⟩
  next =>
    right
    cases outer with
    | nil => cases h
    | cons frame rest =>
        dsimp only at h
        split at h
        next hclose =>
          obtain ⟨f', hf', h⟩ := bind_eq_ok_iff.mp h
          cases h
          exact ⟨hclose, frame, rest, f', rfl, rfl⟩
        next => cases h

end Reading

/-! ## Formulas that go on -/

namespace Formula

def times : Formula → Formula → Formula
  | add a p, b => add a (mul p b)
  | sub a p, b => sub a (mul p b)
  | p, b => mul p b

theorem tokens_times {b : Formula} (hb : b.isOperation = false) (u : Formula) :
    (u.times b).tokens = u.tokens ++ .mark '*' :: b.tokens := by
  have hproduct (p : Formula) :
      (mul p b).tokens = enclose p.isSum p.tokens ++ .mark '*' :: b.tokens := by
    rw [tokens, hb]
    rfl
  cases u with
  | add a p =>
      calc (add a (mul p b)).tokens
          = a.tokens ++ .mark '+' :: (mul p b).tokens := rfl
        _ = (add a p).tokens ++ .mark '*' :: b.tokens := by
            rw [hproduct, tokens, List.append_assoc, List.cons_append]
  | sub a p =>
      calc (sub a (mul p b)).tokens
          = a.tokens ++ .mark '-' :: (mul p b).tokens := rfl
        _ = (sub a p).tokens ++ .mark '*' :: b.tokens := by
            rw [hproduct, tokens, List.append_assoc, List.cons_append]
  | _ => exact hproduct _

theorem exists_tokens_operation {b : Formula} (hb : b.isOperation = false) (u : Formula)
    (htoken : token = .mark '+' ∨ token = .mark '-' ∨ token = .mark '*') :
    ∃ t : Formula, t.tokens = u.tokens ++ token :: b.tokens := by
  have hsum : b.isSum = false := isSum_eq_false hb
  rcases htoken with rfl | rfl | rfl
  · exact ⟨.add u b, by rw [tokens, hsum]; rfl⟩
  · exact ⟨.sub u b, by rw [tokens, hsum]; rfl⟩
  · exact ⟨u.times b, tokens_times hb u⟩

end Formula

/-! ## Expressions -/

/-- Where an expression may end: at the end of all tokens, or at a closing parenthesis from which
the expression around it is accepted. -/
def Ends (scope : Scope) (outer : List Frame) (tokens : List Token) : Prop :=
  (outer = [] ∧ tokens = []) ∨
    ∃ frame rest f' tokens', outer = frame :: rest ∧ tokens = .mark ')' :: tokens' ∧
      Reading.Accepts scope ⟨rest, f', true⟩ tokens'

/-- What tokens that are accepted start with: a factor where one is missing, and what completes
any formula read before them where an expression may end. -/
structure Grammatical (scope : Scope) (tokens : List Token) : Prop where
  factor : ∀ outer f, Reading.Accepts scope ⟨outer, f, false⟩ tokens →
    ∃ (t : Formula) (f' : Frame) (rest : List Token), t.isOperation = false ∧
      tokens = t.tokens ++ rest ∧ Reading.Accepts scope ⟨outer, f', true⟩ rest
  expression : ∀ (u : Formula) outer f, Reading.Accepts scope ⟨outer, f, true⟩ tokens →
    ∃ (t : Formula) (rest : List Token), u.tokens ++ tokens = t.tokens ++ rest ∧
      Ends scope outer rest

section Grammatical

variable (ih : ∀ shorter : List Token, shorter.length < tokens.length →
  Grammatical scope shorter)

include ih

theorem exists_factor_of_shorter (h : Reading.Accepts scope ⟨outer, f, false⟩ tokens) :
    ∃ (t : Formula) (f' : Frame) (rest : List Token), t.isOperation = false ∧
      tokens = t.tokens ++ rest ∧ Reading.Accepts scope ⟨outer, f', true⟩ rest := by
  cases tokens with
  | nil => cases (Reading.accepts_nil h).1
  | cons token tokens =>
      have hshorter : tokens.length < (token :: tokens).length := Nat.lt_succ_self _
      obtain ⟨r, hstep, hrest⟩ := Reading.accepts_cons h
      rcases Reading.step_incomplete hstep with
        ⟨hsign, f', rfl⟩ | ⟨rfl, rfl⟩ | ⟨⟨t, hoperation, ht⟩, f', rfl⟩
      · obtain ⟨t, f'', rest, hoperation, rfl, haccepts⟩ :=
          (ih tokens hshorter).factor outer f' hrest
        rcases hsign with rfl | rfl
        · exact ⟨.plus t, f'', rest, rfl, by rw [Formula.tokens, hoperation]; rfl, haccepts⟩
        · exact ⟨.minus t, f'', rest, rfl, by rw [Formula.tokens, hoperation]; rfl, haccepts⟩
      · obtain ⟨t, f', rest, -, rfl, haccepts⟩ := (ih tokens hshorter).factor _ _ hrest
        have hrest_shorter : rest.length < (Token.mark '(' :: (t.tokens ++ rest)).length := by
          simp only [List.length_cons, List.length_append]
          omega
        obtain ⟨t', rest', htokens, hends⟩ := (ih rest hrest_shorter).expression t _ _ haccepts
        rcases hends with ⟨hnil, -⟩ | ⟨frame, outer', f'', tokens', houter, rfl, haccepts⟩
        · cases hnil
        · cases houter
          refine ⟨.group t', f'', tokens', rfl, ?_, haccepts⟩
          rw [htokens, Formula.tokens, Formula.enclose]
          simp
      · exact ⟨t, f', tokens, hoperation, by rw [ht]; rfl, hrest⟩

theorem exists_expression_of_shorter (u : Formula)
    (h : Reading.Accepts scope ⟨outer, f, true⟩ tokens) :
    ∃ (t : Formula) (rest : List Token), u.tokens ++ tokens = t.tokens ++ rest ∧
      Ends scope outer rest := by
  cases tokens with
  | nil => exact ⟨u, [], rfl, .inl ⟨(Reading.accepts_nil h).2, rfl⟩⟩
  | cons token tokens =>
      have hshorter : tokens.length < (token :: tokens).length := Nat.lt_succ_self _
      obtain ⟨r, hstep, hrest⟩ := Reading.accepts_cons h
      rcases Reading.step_complete hstep with
        ⟨hoperation, f', rfl⟩ | ⟨rfl, frame, outer', f', rfl, rfl⟩
      · obtain ⟨b, f'', rest, hb, rfl, haccepts⟩ := (ih tokens hshorter).factor outer f' hrest
        obtain ⟨u', hu'⟩ := Formula.exists_tokens_operation hb u hoperation
        have hrest_shorter : rest.length < (token :: (b.tokens ++ rest)).length := by
          simp only [List.length_cons, List.length_append]
          omega
        obtain ⟨t, rest', htokens, hends⟩ :=
          (ih rest hrest_shorter).expression u' outer f'' haccepts
        refine ⟨t, rest', ?_, hends⟩
        rw [← htokens, hu']
        simp
      · exact ⟨u, .mark ')' :: tokens, rfl, .inr ⟨frame, outer', f', tokens, rfl, rfl, hrest⟩⟩

end Grammatical

theorem grammatical (scope : Scope) (tokens : List Token) : Grammatical scope tokens := by
  induction hlength : tokens.length using Nat.strongRecOn generalizing tokens with
  | ind n ih =>
      have hshorter (shorter : List Token) (hlt : shorter.length < tokens.length) :
          Grammatical scope shorter := ih shorter.length (hlength ▸ hlt) shorter rfl
      exact ⟨fun _ _ => exists_factor_of_shorter hshorter,
        fun u _ _ => exists_expression_of_shorter hshorter u⟩

/-- Tokens are read as an expression just if they are those of a formula, whose linear form it
is. -/
theorem readExpression_eq_ok_iff {l : Linear} : readExpression scope tokens = .ok l ↔
    ∃ t : Formula, t.tokens = tokens ∧ t.fold scope = .ok l := by
  constructor
  · intro h
    obtain ⟨u, f, rest, -, rfl, haccepts⟩ := (grammatical scope tokens).factor [] .start ⟨l, h⟩
    obtain ⟨t, rest', htokens, hends⟩ := (grammatical scope rest).expression u [] f haccepts
    rcases hends with ⟨-, rfl⟩ | ⟨_, _, _, _, hnil, -⟩
    · have ht : t.tokens = u.tokens ++ rest := by rw [htokens, List.append_nil]
      exact ⟨t, ht, by rw [← Formula.readExpression_eq_fold, ht, h]⟩
    · cases hnil
  · rintro ⟨t, rfl, h⟩
    rw [Formula.readExpression_eq_fold, h]

end AsmLoader.Source
