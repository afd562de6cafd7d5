import AsmLoader.Proofs.Assembly.Reference
import AsmLoader.Proofs.Source.Addressing
import AsmLoader.Proofs.Source.Coefficients
import AsmLoader.Proofs.Source.Definitions
/-!
# References to labels

A reference is qualified as a definition is: what a line refers to are names in the scope of the
labels up to the end of that line.
-/

namespace AsmLoader.Source

/-! ## Symbols of expressions -/

section Terms

variable {κ : Type} [DecidableEq κ]

theorem mem_of_mem_addTerms {key : κ} {terms others : List (κ × Int64)}
    (h : key ∈ (addTerms terms others).map Prod.fst) :
    key ∈ terms.map Prod.fst ∨ key ∈ others.map Prod.fst := by
  have hsum :
      key ∈ (others.foldl (fun sum term => addTerm term.1 term.2 sum) terms).map Prod.fst :=
    (List.filter_sublist.map Prod.fst).subset h
  clear h
  induction others generalizing terms with
  | nil => exact .inl hsum
  | cons term others ih =>
      rcases ih hsum with hfirst | hrest
      · rw [map_fst_addTerm] at hfirst
        split at hfirst
        next => exact .inl hfirst
        next =>
          rcases List.mem_append.mp hfirst with hfirst | hfirst
          · exact .inl hfirst
          · exact .inr (by simp [List.mem_singleton.mp hfirst])
      · exact .inr (List.mem_cons_of_mem _ hrest)

end Terms

/-- A name that is written as a word among tokens, as it is in a scope. -/
def Writes (scope : Scope) (tokens : List Token) (name : String) : Prop :=
  ∃ written, .word written ∈ tokens ∧ name = scope.qualify written

def Linear.WrittenIn (scope : Scope) (tokens : List Token) (l : Linear) : Prop :=
  ∀ symbol ∈ l.symbols.map Prod.fst, Writes scope tokens symbol

section

variable {scope : Scope} {a b l : Linear} {tokens tokens' : List Token}

theorem Writes.mono {name : String} (h : Writes scope tokens name) (hsubset : tokens ⊆ tokens') :
    Writes scope tokens' name := by
  obtain ⟨written, hwritten, hname⟩ := h
  exact ⟨written, hsubset hwritten, hname⟩

namespace Linear.WrittenIn

theorem scale (h : a.WrittenIn scope tokens) (factor : Int64) :
    (a.scale factor).WrittenIn scope tokens := by
  intro symbol hsymbol
  rw [Linear.scale, map_fst_scaleTerms] at hsymbol
  exact h symbol hsymbol

theorem add (ha : a.WrittenIn scope tokens) (hb : b.WrittenIn scope tokens) :
    (a.add b).WrittenIn scope tokens := by
  intro symbol hsymbol
  rcases mem_of_mem_addTerms hsymbol with hsymbol | hsymbol
  · exact ha symbol hsymbol
  · exact hb symbol hsymbol

theorem mul (ha : a.WrittenIn scope tokens) (hb : b.WrittenIn scope tokens)
    (h : a.mul b = .ok l) : l.WrittenIn scope tokens := by
  rcases mul_eq_ok_iff.mp h with ⟨-, rfl⟩ | ⟨-, -, rfl⟩
  · exact ha.scale b.constant
  · exact hb.scale a.constant

theorem of_operandOf {token : Token} (h : operandOf scope token = .ok l)
    (htoken : token ∈ tokens) : l.WrittenIn scope tokens := by
  unfold operandOf at h
  split at h
  next =>
    cases h
    simp [WrittenIn, ofConstant]
  next =>
    obtain ⟨value, -, rfl⟩ := map_eq_ok_iff.mp h
    simp [WrittenIn, ofConstant]
  next name =>
    split at h
    next =>
      cases h
      simp [WrittenIn, ofRegister]
    next =>
      split at h
      next => cases h
      next =>
        cases h
        intro symbol hsymbol
        exact ⟨name, htoken, by simpa [ofSymbol] using hsymbol⟩
  next => cases h

theorem of_fold {t : Formula} (h : t.fold scope = .ok l) (htokens : t.tokens ⊆ tokens) :
    l.WrittenIn scope tokens := by
  induction t generalizing l with
  | number | text | word => exact of_operandOf h (htokens List.mem_cons_self)
  | group t ih => exact ih h (List.Subset.trans (Formula.subset_enclose true _) htokens)
  | plus t ih => exact ih h (List.Subset.trans (Formula.right_subset_operation [] _ _ _) htokens)
  | minus t ih =>
      obtain ⟨a, ha, h⟩ := bind_eq_ok_iff.mp h
      cases h
      have hoperand :=
        ih ha (List.Subset.trans (Formula.right_subset_operation [] _ _ _) htokens)
      exact hoperand.scale (-1)
  | add a b iha ihb =>
      obtain ⟨l, hl, h⟩ := bind_eq_ok_iff.mp h
      obtain ⟨r, hr, h⟩ := bind_eq_ok_iff.mp h
      have hleft := iha hl (List.Subset.trans (Formula.left_subset_operation _ _ _ _) htokens)
      have hright := ihb hr (List.Subset.trans (Formula.right_subset_operation _ _ _ _) htokens)
      cases h
      exact hleft.add hright
  | sub a b iha ihb =>
      obtain ⟨l, hl, h⟩ := bind_eq_ok_iff.mp h
      obtain ⟨r, hr, h⟩ := bind_eq_ok_iff.mp h
      have hleft := iha hl (List.Subset.trans (Formula.left_subset_operation _ _ _ _) htokens)
      have hright := ihb hr (List.Subset.trans (Formula.right_subset_operation _ _ _ _) htokens)
      cases h
      exact hleft.add (hright.scale (-1))
  | mul a b iha ihb =>
      obtain ⟨l, hl, h⟩ := bind_eq_ok_iff.mp h
      obtain ⟨r, hr, h⟩ := bind_eq_ok_iff.mp h
      have hfactor := List.Subset.trans (Formula.subset_enclose a.isSum a.tokens)
        (List.subset_append_left _ (.mark '*' :: Formula.enclose b.isOperation b.tokens))
      have hleft := iha hl (List.Subset.trans hfactor htokens)
      have hright := ihb hr (List.Subset.trans (Formula.right_subset_operation _ _ _ _) htokens)
      exact hleft.mul hright h

theorem of_readExpression (h : readExpression scope tokens = .ok l) :
    l.WrittenIn scope tokens := by
  obtain ⟨t, rfl, hfold⟩ := readExpression_eq_ok_iff.mp h
  exact of_fold hfold (List.Subset.refl _)

end Linear.WrittenIn

/-! ## Labels of operands -/

theorem addressSymbols_subset {symbols : List (String × Int64)} :
    addressSymbols symbols ⊆ symbols := by
  unfold addressSymbols
  split
  · exact List.filter_subset_self _
  · exact List.Subset.refl symbols

theorem reference?_of_ofLinear {operand : Operand} {name : String}
    (h : Operand.ofLinear l = .ok operand) (hname : operand.reference? = some name) :
    name ∈ l.symbols.map Prod.fst := by
  unfold Operand.ofLinear at h
  split at h
  next =>
    cases h
    cases hname
  next =>
    split at h
    · cases h
      cases hname
    · cases h
  next symbol coefficient hregisters hsymbols =>
    split at h
    · cases h
      cases hname
      simp [hsymbols]
    · cases h
  next => cases h

theorem ofRegisters_ne_label {registers : List (Machine.Register × Int64)} {displacement : Int64}
    {name : String} : Location.ofRegisters registers displacement ≠ .ok (.label name) := by
  intro h
  obtain ⟨-, base, index, checked, -, -, ⟨-, -, hlocation⟩ | ⟨-, hlocation⟩⟩ :=
    ofRegisters_cases h
  · cases hlocation
  · cases hlocation

theorem label_of_ofLinear {name : String} (h : Location.ofLinear l = .ok (.label name)) :
    name ∈ l.symbols.map Prod.fst := by
  unfold Location.ofLinear at h
  split at h
  next => exact absurd h ofRegisters_ne_label
  next symbol coefficient hsymbols =>
    have hmem : (symbol, coefficient) ∈ l.symbols :=
      addressSymbols_subset (by simp [hsymbols])
    split at h
    · cases h
    · split at h
      · cases h
        exact List.mem_map_of_mem hmem
      · cases h
  next => cases h

theorem sizeOverride_subset (tokens : List Token) : (sizeOverride tokens).2 ⊆ tokens := by
  unfold sizeOverride
  split
  next word rest =>
    have hrest : rest ⊆ .word word :: rest := List.subset_cons_self _ _
    split
    next =>
      split
      next next after =>
        split
        · exact List.Subset.trans (List.subset_cons_self _ _) hrest
        · exact hrest
      next => exact hrest
    next => exact hrest
    next => exact List.Subset.refl _
  next => exact List.Subset.refl _

theorem writes_of_readOperand {operand : Operand} {name : String}
    (h : readOperand scope tokens = .ok operand) (hname : operand.reference? = some name) :
    Writes scope tokens name := by
  have hsubset := sizeOverride_subset tokens
  unfold readOperand at h
  split at h
  next => cases h
  next size rest heq =>
    split at h
    next =>
      obtain ⟨l, hl, h⟩ := bind_eq_ok_iff.mp h
      obtain ⟨location, hlocation, h⟩ := bind_eq_ok_iff.mp h
      cases h
      cases location with
      | label label =>
          cases hname
          have hwrites : Writes scope rest.dropLast name :=
            Linear.WrittenIn.of_readExpression hl name (label_of_ofLinear hlocation)
          rw [heq] at hsubset
          refine hwrites.mono (List.Subset.trans (List.dropLast_subset rest) ?_)
          exact List.Subset.trans (List.subset_cons_self _ _) hsubset
      | absolute | indexed => cases hname
    next => cases h
  next => cases h
  next rest _ _ heq =>
    obtain ⟨l, hl, h⟩ := bind_eq_ok_iff.mp h
    have hwrites : Writes scope rest name :=
      Linear.WrittenIn.of_readExpression hl name (reference?_of_ofLinear h hname)
    rw [heq] at hsubset
    exact hwrites.mono hsubset

/-! ## Labels of lines -/

theorem subset_of_mem_splitCommas {part : List Token} (h : part ∈ splitCommas tokens) :
    part ⊆ tokens := by
  induction tokens generalizing part with
  | nil => simp_all [splitCommas]
  | cons token rest ih =>
      unfold splitCommas at h
      split at h
      next =>
        rcases List.mem_cons.mp h with rfl | h
        · exact List.nil_subset _
        · exact List.Subset.trans (ih h) (List.subset_cons_self _ _)
      next =>
        split at h
        next first parts heq =>
          rw [heq] at ih
          rcases List.mem_cons.mp h with rfl | h
          · exact List.cons_subset_cons _ (ih List.mem_cons_self)
          · exact List.Subset.trans (ih (List.mem_cons_of_mem _ h)) (List.subset_cons_self _ _)
        next =>
          rw [List.mem_singleton.mp h]
          exact List.cons_subset_cons _ (List.nil_subset _)

theorem writes_of_readBody {s : Statement} {word : String}
    (h : readBody scope word tokens = .ok s.body) {name : String} (hname : name ∈ s.references) :
    Writes scope tokens name := by
  unfold Statement.references at hname
  split at hname
  next mnemonic operands hbody =>
    -- only an instruction has operands, so that the first word is no keyword of the assembler
    obtain ⟨operand, hoperand, hname⟩ := List.mem_filterMap.mp hname
    rw [hbody] at h
    unfold readBody at h
    dsimp only at h
    split at h
    next => split at h <;> cases h
    next =>
      obtain ⟨items, -, h⟩ := map_eq_ok_iff.mp h
      cases h
    next =>
      obtain ⟨count, -, h⟩ := bind_eq_ok_iff.mp h
      split at h <;> cases h
    next =>
      split at h
      next => cases h
      next =>
        obtain ⟨operands', hoperands, h⟩ := map_eq_ok_iff.mp h
        cases h
        unfold readOperands at hoperands
        split at hoperands
        next =>
          cases hoperands
          cases hoperand
        next =>
          obtain ⟨part, hpart, hread⟩ :=
            exists_mem_of_forall₂ (mapM_eq_ok_iff.mp hoperands).flip hoperand
          exact (writes_of_readOperand hread hname).mono (subset_of_mem_splitCommas hpart)
  next => cases hname

theorem writes_of_readRest {labels : List String} {s : Statement}
    (h : readRest scope labels tokens = .ok (some (s.labels, s.body))) {name : String}
    (hname : name ∈ s.references) : Writes scope tokens name := by
  unfold readRest at h
  split at h
  next =>
    split at h
    · cases h
    · have hempty : s.body = .empty :=
        (Prod.mk.inj (Option.some.inj (Except.ok.inj h))).2.symm
      simp [Statement.references, hempty] at hname
  next word rest =>
    obtain ⟨body, hbody, heq⟩ := map_eq_ok_iff.mp h
    cases heq
    exact (writes_of_readBody hbody hname).mono (List.subset_cons_self _ _)
  next => cases h

theorem subset_of_readLabels {next : Scope} {labels : List String}
    (h : readLabels scope tokens = (next, .ok (labels, tokens'))) : tokens' ⊆ tokens := by
  fun_induction readLabels scope tokens generalizing next labels tokens' with
  | case1 => cases h
  | case2 scope name tokens hreserved next' result hread ih =>
      obtain ⟨rfl, hresult⟩ := Prod.mk.inj h
      obtain ⟨⟨labels', rest⟩, rfl, heq⟩ := map_eq_ok_iff.mp hresult
      cases heq
      exact List.Subset.trans (ih hread)
        (List.Subset.trans (List.subset_cons_self _ _) (List.subset_cons_self _ _))
  | case3 =>
      cases h
      exact List.Subset.refl _

theorem subset_of_dataName? {name : String} (h : dataName? tokens = some (name, tokens')) :
    tokens' ⊆ tokens := by
  unfold dataName? at h
  split at h
  next =>
    split at h
    next =>
      cases h
      exact List.subset_cons_self _ _
    next => cases h
  next => cases h

theorem writes_of_readLine {next : Scope} {line : List Char} {s : Statement}
    (h : readLine scope line = (next, .ok (some (s.labels, s.body)))) {name : String}
    (hname : name ∈ s.references) :
    ∃ tokens, tokenize line = .ok tokens ∧ Writes next tokens name := by
  unfold readLine at h
  split at h
  next => cases h
  next tokens htokens =>
    refine ⟨tokens, htokens, ?_⟩
    split at h
    next => cases h
    next hlabels =>
      have hsubset := subset_of_readLabels hlabels
      split at h
      next hdata =>
        obtain ⟨rfl, hrest⟩ := Prod.mk.inj h
        exact (writes_of_readRest hrest hname).mono
          (List.Subset.trans (subset_of_dataName? hdata) hsubset)
      next =>
        obtain ⟨rfl, hrest⟩ := Prod.mk.inj h
        exact (writes_of_readRest hrest hname).mono hsubset

/-! ## Labels of sources -/

theorem line_eq_of_mem_definitionsOn {number : Nat} {line : String} {d : Definition}
    (h : d ∈ definitionsOn number line) : d.line = number := by
  unfold definitionsOn at h
  split at h
  next =>
    obtain ⟨name, -, rfl⟩ := List.mem_map.mp h
    rfl
  next => cases h

theorem le_line_of_mem_definitionsFrom {number : Nat} {lines : List String} {d : Definition}
    (h : d ∈ definitionsFrom number lines) : number ≤ d.line := by
  induction lines generalizing number with
  | nil => cases h
  | cons line rest ih =>
      rcases List.mem_append.mp h with h | h
      · exact Nat.le_of_eq (line_eq_of_mem_definitionsOn h).symm
      · exact Nat.le_of_succ_le (ih h)

theorem filter_definitionsFrom_cons {number last : Nat} (hlast : number ≤ last) (line : String)
    (rest : List String) :
    (definitionsFrom number (line :: rest)).filter (fun d => d.line ≤ last) =
      definitionsOn number line ++
        (definitionsFrom (number + 1) rest).filter (fun d => d.line ≤ last) := by
  rw [definitionsFrom, List.filter_append]
  congr 1
  rw [List.filter_eq_self]
  intro d hd
  simpa [line_eq_of_mem_definitionsOn hd] using hlast

theorem filter_definitionsFrom_of_lt {number last : Nat} (hlast : last < number)
    (lines : List String) :
    (definitionsFrom number lines).filter (fun d => d.line ≤ last) = [] := by
  rw [List.filter_eq_nil_iff]
  intro d hd
  have hle := le_line_of_mem_definitionsFrom hd
  simp
  omega

theorem writes_of_readLines {number : Nat} {lines : List String}
    (h : (readLines scope number lines).2 = []) {s : Statement}
    (hs : s ∈ (readLines scope number lines).1) :
    number ≤ s.line ∧ ∀ name ∈ s.references, ∃ line tokens, lines[s.line - number]? = some line ∧
      tokenize line.toList = .ok tokens ∧ Writes (scope.afterAll
        ((definitionsFrom number lines).filter fun d => d.line ≤ s.line)) tokens name := by
  induction lines generalizing scope number with
  | nil => cases hs
  | cons line rest ih =>
      obtain ⟨read, hline⟩ := exists_readLine_eq h
      have hnext := (readLine_eq_ok hline number).2
      rw [readLines_cons hline] at h hs
      rcases List.mem_append.mp hs with hs | hs
      · -- the labels of later lines are left out
        cases read with
        | none => cases hs
        | some p =>
            obtain rfl : s = ⟨number, p.1, p.2⟩ := by simpa [statementOf] using hs
            refine ⟨Nat.le_refl _, fun name hname => ?_⟩
            obtain ⟨tokens, htokens, hwrites⟩ := writes_of_readLine hline hname
            refine ⟨line, tokens, by simp, htokens, ?_⟩
            rwa [filter_definitionsFrom_cons (Nat.le_refl _),
              filter_definitionsFrom_of_lt (Nat.lt_succ_self _), List.append_nil, ← hnext]
      · -- the labels of this line come before those of the later ones
        obtain ⟨hle, hnames⟩ := ih h hs
        refine ⟨Nat.le_of_succ_le hle, fun name hname => ?_⟩
        obtain ⟨line', tokens, hline', htokens, hwrites⟩ := hnames name hname
        refine ⟨line', tokens, ?_, htokens, ?_⟩
        · have hindex : s.line - number = s.line - (number + 1) + 1 := by omega
          rw [hindex, List.getElem?_cons_succ, hline']
        · rwa [filter_definitionsFrom_cons (Nat.le_of_succ_le hle), Scope.afterAll_append,
            ← hnext]

end

/-- What a statement of a source refers to is written on its line, under the most recent global
label up to the end of the line. -/
theorem writes_of_parse {source : String} {statements : List Statement}
    (h : parse source = .ok statements) {s : Statement} (hs : s ∈ statements) {name : String}
    (hname : name ∈ s.references) : ∃ line tokens,
      (Text.linesOf source)[s.line - 1]? = some line ∧ tokenize line.toList = .ok tokens ∧
        Writes (lastGlobal ((definitionsOf source).filter fun d => d.line ≤ s.line)) tokens
          name := by
  rw [parse_eq_ok_iff] at h
  have hreports := congrArg Prod.snd h
  have hmem : s ∈ (readLines none 1 (Text.linesOf source)).1 := by rwa [h]
  have hnames := (writes_of_readLines hreports hmem).2 name hname
  rwa [Scope.afterAll_none] at hnames

end AsmLoader.Source
