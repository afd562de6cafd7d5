import AsmLoader.Proofs.Source.Addressing
import AsmLoader.Proofs.Source.Coefficients
/-!
# Symbols in addresses

Symbols in brackets that are accepted are a label by itself, with the coefficient one. Beside
other symbols the name `rip` is left out, whatever its coefficient and however often it is
spelled another way, so that what is accepted is the label alone only if it is there once.
-/

namespace AsmLoader.Source

open Machine (Register Width)

/-- The name that says of an address that it is relative, in letters of any case. -/
def IsRelative (name : String) : Prop :=
  name.toLower = "rip"

instance (name : String) : Decidable (IsRelative name) :=
  inferInstanceAs (Decidable (_ = _))

/-! ## Labels among symbols -/

section Symbols

variable {symbols : List (String × Int64)} {name : String}

/-- A symbol with the coefficient one, beside which there are none but spellings of another name
that says that the address is relative. -/
structure NamesLabel (symbols : List (String × Int64)) (name : String) : Prop where
  one : coefficient name symbols = 1
  others : ∀ other ∈ symbols.map Prod.fst, other ≠ name → IsRelative other ∧ ¬IsRelative name

/-- The name of a relative address is there with one spelling and the coefficient one, or not at
all. -/
def RelativeOnce (symbols : List (String × Int64)) : Prop :=
  ∀ relative ∈ symbols.map Prod.fst, IsRelative relative → coefficient relative symbols = 1 ∧
    ∀ other ∈ symbols.map Prod.fst, IsRelative other → other = relative

theorem mem_of_coefficient_eq_one (hdistinct : (symbols.map Prod.fst).Nodup)
    (hone : coefficient name symbols = 1) : (name, 1) ∈ symbols := by
  have hmem : name ∈ symbols.map Prod.fst := by
    by_contra hnot
    rw [coefficient_of_not_mem hnot] at hone
    exact absurd hone (by decide)
  obtain ⟨⟨other, old⟩, hterm, rfl⟩ := List.mem_map.mp hmem
  rw [coefficient_of_mem hdistinct hterm] at hone
  rwa [← hone]

theorem eq_one_of_mem (hdistinct : (symbols.map Prod.fst).Nodup) {old : Int64}
    (hone : coefficient name symbols = 1) (hmem : (name, old) ∈ symbols) : old = 1 := by
  rw [← coefficient_of_mem hdistinct hmem, hone]

theorem exists_other_of_length (hdistinct : (symbols.map Prod.fst).Nodup)
    (hseveral : 1 < symbols.length) (name : String) :
    ∃ other ∈ symbols.map Prod.fst, other ≠ name := by
  obtain ⟨first, second, rest, rfl⟩ :
      ∃ first second rest, symbols = first :: second :: rest := by
    match symbols, hseveral with
    | first :: second :: rest, _ => exact ⟨first, second, rest, rfl⟩
  have hne : first.1 ≠ second.1 := by
    intro heq
    simp [heq] at hdistinct
  by_cases hfirst : first.1 = name
  · exact ⟨second.1, by simp, fun hsecond => hne (hfirst.trans hsecond.symm)⟩
  · exact ⟨first.1, by simp, hfirst⟩

theorem addressSymbols_eq_singleton_iff (hdistinct : (symbols.map Prod.fst).Nodup) :
    addressSymbols symbols = [(name, 1)] ↔ NamesLabel symbols name := by
  have hfilter : symbols.filter (fun term => term.1.toLower ≠ "rip") = [(name, 1)] ↔
      ∀ term, (term ∈ symbols ∧ ¬IsRelative term.1) ↔ term = (name, 1) := by
    rw [← List.perm_singleton,
      List.perm_ext_iff_of_nodup (hdistinct.of_map.filter _) (List.nodup_singleton _)]
    simp [IsRelative]
  unfold addressSymbols
  split
  next hseveral =>
    refine hfilter.trans ?_
    constructor
    · intro h
      obtain ⟨hmem, hname⟩ := (h (name, 1)).mpr rfl
      refine ⟨coefficient_of_mem hdistinct hmem, fun other hother hne => ⟨?_, hname⟩⟩
      obtain ⟨term, hterm, rfl⟩ := List.mem_map.mp hother
      by_contra hnot
      exact hne (congrArg Prod.fst ((h term).mp ⟨hterm, hnot⟩))
    · rintro ⟨hone, hothers⟩ ⟨other, old⟩
      obtain ⟨another, hanother, hne⟩ := exists_other_of_length hdistinct hseveral name
      have hname : ¬IsRelative name := (hothers another hanother hne).2
      constructor
      · rintro ⟨hterm, hnot⟩
        have heq : other = name := by
          by_contra hne
          exact hnot (hothers other (List.mem_map_of_mem hterm) hne).1
        subst heq
        rw [eq_one_of_mem hdistinct hone hterm]
      · rintro ⟨⟩
        exact ⟨mem_of_coefficient_eq_one hdistinct hone, hname⟩
  next hsingle =>
    constructor
    · rintro rfl
      refine ⟨by simp [coefficient_cons], fun other hother hne => ?_⟩
      exact absurd (by simpa using hother) hne
    · rintro ⟨hone, -⟩
      have hmem : (name, 1) ∈ symbols := mem_of_coefficient_eq_one hdistinct hone
      have hpos : 0 < symbols.length := List.length_pos_of_mem hmem
      obtain ⟨term, rfl⟩ := List.length_eq_one_iff.mp (show symbols.length = 1 by omega)
      rw [List.mem_singleton.mp hmem]

theorem addressSymbols_eq_nil_iff (hne : symbols ≠ []) : addressSymbols symbols = [] ↔
    1 < symbols.length ∧ ∀ name ∈ symbols.map Prod.fst, IsRelative name := by
  unfold addressSymbols
  split
  next hseveral => simp [IsRelative, List.filter_eq_nil_iff, hseveral]
  next hone => simp [hne, hone]

theorem perm_of_coefficients_one {names : List String} (hdistinct : (symbols.map Prod.fst).Nodup)
    (hnames : names.Nodup) (honly : ∀ name ∈ symbols.map Prod.fst, name ∈ names)
    (hone : ∀ name ∈ names, coefficient name symbols = 1) :
    symbols.Perm (names.map fun name => (name, 1)) := by
  have hterms : (names.map fun name => (name, (1 : Int64))).Nodup :=
    hnames.map fun _ _ heq => (Prod.mk.inj heq).1
  rw [List.perm_ext_iff_of_nodup hdistinct.of_map hterms]
  rintro ⟨name, old⟩
  constructor
  · intro hterm
    have hname : name ∈ names := honly name (List.mem_map_of_mem hterm)
    rw [eq_one_of_mem hdistinct (hone name hname) hterm]
    exact List.mem_map_of_mem hname
  · intro hterm
    obtain ⟨_, hname, ⟨⟩⟩ := List.mem_map.mp hterm
    exact mem_of_coefficient_eq_one hdistinct (hone name hname)

theorem namesLabel_iff_of_relativeOnce (hdistinct : (symbols.map Prod.fst).Nodup)
    (hrelative : RelativeOnce symbols) : NamesLabel symbols name ↔
      symbols = [(name, 1)] ∨ ∃ relative, IsRelative relative ∧ ¬IsRelative name ∧
        symbols.Perm [(name, 1), (relative, 1)] := by
  constructor
  · rintro ⟨hone, hothers⟩
    by_cases hother : ∃ relative ∈ symbols.map Prod.fst, relative ≠ name
    · obtain ⟨relative, hkey, hne⟩ := hother
      obtain ⟨hname, hnot⟩ := hothers relative hkey hne
      obtain ⟨hcoefficient, hunique⟩ := hrelative relative hkey hname
      have hnames : [name, relative].Nodup := by simpa using hne.symm
      refine .inr ⟨relative, hname, hnot, perm_of_coefficients_one hdistinct hnames ?_ ?_⟩
      · intro other hkey
        by_cases heq : other = name
        · simp [heq]
        · simp [hunique other hkey (hothers other hkey heq).1]
      · simpa using ⟨hone, hcoefficient⟩
    · have honly : ∀ other ∈ symbols.map Prod.fst, other ∈ [name] := by
        intro other hkey
        by_contra hne
        exact hother ⟨other, hkey, by simpa using hne⟩
      exact .inl (List.perm_singleton.mp
        (perm_of_coefficients_one hdistinct (List.nodup_singleton name) honly
          (by simpa using hone)))
  · rintro (rfl | ⟨relative, hname, hnot, hperm⟩)
    · refine ⟨by simp [coefficient_cons], fun other hother hne => ?_⟩
      exact absurd (by simpa using hother) hne
    · refine ⟨coefficient_of_mem hdistinct (hperm.mem_iff.mpr (by simp)), fun other hother hne =>
        ?_⟩
      have hcases : other = name ∨ other = relative := by
        simpa using (hperm.map Prod.fst).mem_iff.mp hother
      rw [hcases.resolve_left hne]
      exact ⟨hname, hnot⟩

theorem not_forall_isRelative (hdistinct : (symbols.map Prod.fst).Nodup)
    (hrelative : RelativeOnce symbols) (hseveral : 1 < symbols.length) :
    ¬∀ name ∈ symbols.map Prod.fst, IsRelative name := by
  intro hall
  obtain ⟨first, hfirst⟩ : ∃ first, first ∈ symbols :=
    List.exists_mem_of_length_pos (by omega)
  have hmem : first.1 ∈ symbols.map Prod.fst := List.mem_map_of_mem hfirst
  obtain ⟨other, hother, hne⟩ := exists_other_of_length hdistinct hseveral first.1
  exact hne ((hrelative first.1 hmem (hall _ hmem)).2 other hother (hall _ hother))

end Symbols

/-! ## Symbolic addresses -/

variable {l : Linear}

/-- What a form with symbols is accepted as: a label without anything beside it, or, where all
symbols are spellings of the name of a relative address, what is left without them. -/
inductive IsSymbolic (l : Linear) : Location → Prop where
  | label {name : String} (hregisters : l.registers = []) (hconstant : l.constant = 0)
      (hname : NamesLabel l.symbols name) : IsSymbolic l (.label name)
  | dropped {location : Location} (hseveral : 1 < l.symbols.length)
      (hrelative : ∀ name ∈ l.symbols.map Prod.fst, IsRelative name)
      (hlocation : Location.ofRegisters l.registers l.constant = .ok location) :
      IsSymbolic l location

theorem ofLinear_eq_ok_iff (hdistinct : l.Distinct) (hsymbols : l.symbols ≠ [])
    {location : Location} : Location.ofLinear l = .ok location ↔ IsSymbolic l location := by
  constructor
  · intro h
    unfold Location.ofLinear at h
    split at h
    next hnone =>
      obtain ⟨hseveral, hrelative⟩ := (addressSymbols_eq_nil_iff hsymbols).mp hnone
      exact .dropped hseveral hrelative h
    next name coefficient hlabel =>
      split at h
      next => cases h
      next hone =>
        split at h
        next halone =>
          obtain ⟨hregisters, hconstant⟩ :
              l.registers = [] ∧ l.constant = 0 := by simpa using halone
          obtain rfl : coefficient = 1 := by simpa using hone
          cases h
          exact .label hregisters hconstant
            ((addressSymbols_eq_singleton_iff hdistinct.symbols).mp hlabel)
        next => cases h
    next => cases h
  · intro h
    cases h with
    | label hregisters hconstant hname =>
        rw [Location.ofLinear, (addressSymbols_eq_singleton_iff hdistinct.symbols).mpr hname,
          hregisters, hconstant]
        rfl
    | dropped hseveral hrelative hlocation =>
        rw [Location.ofLinear, (addressSymbols_eq_nil_iff hsymbols).mpr ⟨hseveral, hrelative⟩]
        exact hlocation

/-- Brackets in which a symbol is left with a coefficient are accepted just if they are a label,
beside which only the name of a relative address is left out. If this is there once at most, they
are the label by itself or together with that name, and the memory is at the label. -/
theorem readOperand_symbolic (scope : Scope) {tokens inner : List Token} {size : Option Width}
    (hbrackets : sizeOverride tokens = (size, .mark '[' :: (inner ++ [.mark ']']))) {l : Linear}
    (hread : readExpression scope inner = .ok l)
    (hsymbol : ∃ name, coefficient name l.symbols ≠ 0) :
    (∀ operand, readOperand scope tokens = .ok operand ↔
      ∃ location, operand = .memory size location ∧ IsSymbolic l location) ∧
    (RelativeOnce l.symbols → ∀ operand, readOperand scope tokens = .ok operand ↔
      ∃ name, operand = .memory size (.label name) ∧ l.registers = [] ∧ l.constant = 0 ∧
        (l.symbols = [(name, 1)] ∨ ∃ relative, IsRelative relative ∧ ¬IsRelative name ∧
          l.symbols.Perm [(name, 1), (relative, 1)])) := by
  have hdistinct : l.Distinct := distinct_of_readExpression hread
  have hsymbols : l.symbols ≠ [] := by
    intro hnil
    obtain ⟨name, hname⟩ := hsymbol
    rw [hnil] at hname
    exact hname rfl
  have haccepted (operand : Operand) : readOperand scope tokens = .ok operand ↔
      ∃ location, operand = .memory size location ∧ IsSymbolic l location := by
    rw [readOperand_brackets hbrackets, hread, ok_bind, bind_eq_ok_iff]
    constructor
    · rintro ⟨location, hlocation, ⟨⟩⟩
      exact ⟨location, rfl, (ofLinear_eq_ok_iff hdistinct hsymbols).mp hlocation⟩
    · rintro ⟨location, rfl, hsymbolic⟩
      exact ⟨location, (ofLinear_eq_ok_iff hdistinct hsymbols).mpr hsymbolic, rfl⟩
  refine ⟨haccepted, fun hrelative operand => ?_⟩
  rw [haccepted]
  constructor
  · rintro ⟨location, rfl, hsymbolic⟩
    cases hsymbolic with
    | label hregisters hconstant hname =>
        exact ⟨_, rfl, hregisters, hconstant,
          (namesLabel_iff_of_relativeOnce hdistinct.symbols hrelative).mp hname⟩
    | dropped hseveral hall _ =>
        exact absurd hall (not_forall_isRelative hdistinct.symbols hrelative hseveral)
  · rintro ⟨name, rfl, hregisters, hconstant, hname⟩
    exact ⟨.label name, rfl, .label hregisters hconstant
      ((namesLabel_iff_of_relativeOnce hdistinct.symbols hrelative).mpr hname)⟩

/-- A difference that is taken for its first label, and a sum with the name of a relative
address, which is its label. -/
theorem readOperand_symbolic_subtracted :
    let brackets (inner : List Token) := .mark '[' :: (inner ++ [.mark ']'])
    let difference := [.word "msg", .mark '-', .word "Rip"]
    let sum := [.word "rip", .mark '+', .word "msg"]
    (readExpression none difference = .ok ⟨0, [], [("msg", 1), ("Rip", -1)]⟩ ∧
      readOperand none (brackets difference) = .ok (.memory none (.label "msg"))) ∧
    (readExpression none sum = .ok ⟨0, [], [("rip", 1), ("msg", 1)]⟩ ∧
      RelativeOnce [("rip", 1), ("msg", 1)] ∧
      readOperand none (brackets sum) = .ok (.memory none (.label "msg"))) := by
  intro brackets difference sum
  have hbrackets (inner : List Token) : sizeOverride (brackets inner) = (none, brackets inner) :=
    rfl
  have hdifference :
      readExpression none difference = .ok ⟨0, [], [("msg", 1), ("Rip", -1)]⟩ := by
    decide +kernel
  have hsum :
      readExpression none sum = .ok ⟨0, [], [("rip", 1), ("msg", 1)]⟩ := by decide +kernel
  have hmsg : ¬IsRelative "msg" := by decide +kernel
  refine ⟨⟨hdifference, ?_⟩, hsum, ?_⟩
  · have hname : NamesLabel [("msg", 1), ("Rip", -1)] "msg" := by
      refine ⟨by decide +kernel, fun other hother hne => ⟨?_, hmsg⟩⟩
      have hcases : other = "msg" ∨ other = "Rip" := by simpa using hother
      rw [hcases.resolve_left hne]
      decide +kernel
    have haccepted := (readOperand_symbolic none (hbrackets difference) hdifference
      ⟨"msg", by decide +kernel⟩).1
    exact (haccepted _).mpr ⟨_, rfl, .label rfl rfl hname⟩
  · have honce : RelativeOnce [("rip", 1), ("msg", 1)] := by
      intro relative hrelative hrip
      have hcases : relative = "rip" ∨ relative = "msg" := by simpa using hrelative
      obtain rfl := hcases.resolve_right fun hmsg' => hmsg (hmsg' ▸ hrip)
      refine ⟨by decide +kernel, fun other hother hrip' => ?_⟩
      have hcases' : other = "rip" ∨ other = "msg" := by simpa using hother
      exact hcases'.resolve_right fun hmsg' => hmsg (hmsg' ▸ hrip')
    have haccepted := (readOperand_symbolic none (hbrackets sum) hsum
      ⟨"msg", by decide +kernel⟩).2 honce
    refine ⟨honce, (haccepted _).mpr ⟨"msg", rfl, rfl, rfl, .inr ⟨"rip", ?_, hmsg, .swap _ _ _⟩⟩⟩
    decide +kernel

end AsmLoader.Source
