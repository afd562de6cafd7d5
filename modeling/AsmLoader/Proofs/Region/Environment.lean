import AsmLoader.Proofs.Outcome
import AsmLoader.Proofs.Text.Digits
import AsmLoader.Proofs.Text.Trimming
import AsmLoader.Region.Environment
/-!
# What the environment may say

The texts that the two variables may have, as a grammar, and the configuration that they ask for.
A text is read just if it is in the grammar; of texts that are not, the first is reported as it
stands.
-/

namespace AsmLoader.Text

def IsUnsigned (base : Nat) (cs : List Char) (n : Nat) : Prop :=
  IsNumeral base cs n ∨ ∃ digits, cs = '+' :: digits ∧ IsNumeral base digits n

theorem not_isNumeral_plus {base n : Nat} {rest : List Char} (hbase : base ≤ 16) :
    ¬IsNumeral base ('+' :: rest) n := by
  have hsign : ∀ d : Fin 16, '+'.toLower ≠ Nat.digitChar d := by decide
  intro h
  exact not_mem_of_isNumeral h (fun d hd => hsign ⟨d, by omega⟩) List.mem_cons_self

theorem readUInt64?_eq_some_iff_isUnsigned {base : Nat} (hbase : base ≤ 16) {cs : List Char}
    {value : UInt64} :
    readUInt64? base cs = some value ↔ IsUnsigned base cs value.toNat := by
  have hdigits {digits : List Char} : ((readNumeral? base digits).bind fun n =>
      if n < UInt64.size then some (UInt64.ofNat n) else none) = some value ↔
        IsNumeral base digits value.toNat := by
    rw [Option.bind_eq_some_iff]
    constructor
    · rintro ⟨n, hn, hvalue⟩
      split at hvalue
      next hlt =>
        cases hvalue
        rw [UInt64.toNat_ofNat_of_lt' hlt]
        exact (readNumeral?_eq_some_iff hbase).mp hn
      next => cases hvalue
    · intro h
      refine ⟨value.toNat, (readNumeral?_eq_some_iff hbase).mpr h, ?_⟩
      rw [if_pos value.toNat_lt, UInt64.ofNat_toNat]
  unfold readUInt64?
  split
  next rest =>
    rw [IsUnsigned, or_iff_right (not_isNumeral_plus hbase)]
    refine hdigits.trans ⟨fun h => ⟨rest, rfl, h⟩, ?_⟩
    rintro ⟨_, ⟨⟩, h⟩
    exact h
  next hsign =>
    rw [IsUnsigned, or_iff_left]
    · exact hdigits
    · rintro ⟨rest, rfl, -⟩
      exact hsign rest rfl

end AsmLoader.Text

namespace AsmLoader.Region

open Text (IsNumeral IsUnsigned TrimsTo)

/-! ## The grammar -/

/-- The two forms of a number: decimal, or hexadecimal after a mark. -/
inductive IsNumber : List Char → Nat → Prop where
  | decimal {digits : List Char} {n : Nat} (h : IsUnsigned 10 digits n) : IsNumber digits n
  | hexadecimal {mark : Char} {digits : List Char} {n : Nat} (hmark : mark = 'x' ∨ mark = 'X')
      (h : IsUnsigned 16 digits n) : IsNumber ('0' :: mark :: digits) n

/-- The text is a number: the blanks around it do not count, and then neither do underscores. -/
def Denotes (text : String) (value : UInt64) : Prop :=
  ∃ core, TrimsTo text.toList core ∧ IsNumber (core.filter (· ≠ '_')) value.toNat

def SaysAny (text : String) : Prop :=
  ∃ a n y, TrimsTo text.toList [a, n, y] ∧
    (a = 'a' ∨ a = 'A') ∧ (n = 'n' ∨ n = 'N') ∧ (y = 'y' ∨ y = 'Y')

/-- The capacity that is asked for by the text of its variable, if that is set. -/
inductive AsksCapacity : Option String → UInt64 → Prop where
  | default : AsksCapacity none Config.defaultCapacity
  | number {text : String} {n : UInt64} (h : Denotes text n) : AsksCapacity (some text) n

/-- The placement that is asked for by the text of its variable, if that is set. -/
inductive AsksPlacement : Option String → Placement → Prop where
  | default : AsksPlacement none .anywhere
  | any {text : String} (h : SaysAny text) : AsksPlacement (some text) .anywhere
  | number {text : String} {n : UInt64} (h : Denotes text n) :
      AsksPlacement (some text) (.fixed n)

/-! ## Reading a text -/

theorem not_isUnsigned_marked {mark : Char} {digits : List Char} {n : Nat}
    (hmark : mark = 'x' ∨ mark = 'X') : ¬IsUnsigned 10 ('0' :: mark :: digits) n := by
  have hletter : ∀ d < 10, mark.toLower ≠ Nat.digitChar d := by
    rcases hmark with rfl | rfl <;> decide
  rintro (h | ⟨_, ⟨⟩, -⟩)
  exact Text.not_mem_of_isNumeral h hletter (by simp)

theorem readNumber?_eq_some_iff {text : String} {value : UInt64} :
    readNumber? text.toList = some value ↔ Denotes text value := by
  have hcore : Denotes text value ↔
      IsNumber ((Text.trim text.toList).filter (· ≠ '_')) value.toNat := by
    simp only [Denotes, Text.trimsTo_iff, exists_eq_left']
  have hmarked {mark : Char} {digits : List Char} (hmark : mark = 'x' ∨ mark = 'X') :
      Text.readUInt64? 16 digits = some value ↔
      IsNumber ('0' :: mark :: digits) value.toNat := by
    rw [Text.readUInt64?_eq_some_iff_isUnsigned (by decide)]
    refine ⟨.hexadecimal hmark, ?_⟩
    intro h
    cases h with
    | decimal h => exact absurd h (not_isUnsigned_marked hmark)
    | hexadecimal _ h => exact h
  rw [hcore, readNumber?]
  generalize (Text.trim text.toList).filter (· ≠ '_') = cs
  split
  next => exact hmarked (.inl rfl)
  next => exact hmarked (.inr rfl)
  next hlower hupper =>
    rw [Text.readUInt64?_eq_some_iff_isUnsigned (by decide)]
    refine ⟨.decimal, ?_⟩
    intro h
    cases h with
    | decimal h => exact h
    | hexadecimal hmark h =>
      rcases hmark with rfl | rfl
      · exact absurd rfl (hlower _)
      · exact absurd rfl (hupper _)

theorem numberIn_eq_ok_iff {name text : String} {value : UInt64} :
    numberIn name text = .ok value ↔ Denotes text value := by
  rw [← readNumber?_eq_some_iff, numberIn]
  cases readNumber? text.toList <;> simp

theorem numberIn_eq_error_iff {name text : String} {e : InvalidNumber} :
    numberIn name text = .error e ↔ e = ⟨name, text⟩ ∧ ∀ value, ¬Denotes text value := by
  simp only [← readNumber?_eq_some_iff, numberIn]
  cases readNumber? text.toList <;> simp [eq_comm]

theorem toLower_ascii : ∀ n : Fin 128, ∀ word ∈ [('a', 'A'), ('n', 'N'), ('y', 'Y')],
    (Char.ofNat n).toLower = word.1 ↔ Char.ofNat n = word.1 ∨ Char.ofNat n = word.2 := by
  decide +kernel

theorem toLower_eq_iff {c lower upper : Char}
    (hword : (lower, upper) ∈ [('a', 'A'), ('n', 'N'), ('y', 'Y')]) :
    c.toLower = lower ↔ c = lower ∨ c = upper := by
  by_cases hascii : c.toNat < 128
  · have h := toLower_ascii ⟨c.toNat, hascii⟩ _ hword
    rwa [Char.ofNat_toNat] at h
  · have hlower : c.toLower = c := by
      refine dif_neg fun hupper => hascii ?_
      have hle : c.toNat ≤ 90 := hupper.2
      omega
    have hne : c ≠ upper := by
      rintro rfl
      simp only [List.mem_cons, Prod.mk.injEq, List.not_mem_nil, or_false] at hword
      rcases hword with ⟨-, rfl⟩ | ⟨-, rfl⟩ | ⟨-, rfl⟩ <;> exact hascii (by decide)
    rw [hlower, or_iff_left hne]

theorem isAny_iff {text : String} : isAny text ↔ SaysAny text := by
  simp only [isAny, SaysAny, Text.trimsTo_iff, beq_iff_eq]
  constructor
  · intro h
    obtain ⟨a, rest, hcore, ha, h⟩ := List.map_eq_cons_iff.mp h
    obtain ⟨n, rest, rfl, hn, h⟩ := List.map_eq_cons_iff.mp h
    obtain ⟨y, rest, rfl, hy, h⟩ := List.map_eq_cons_iff.mp h
    rw [List.map_eq_nil_iff.mp h] at hcore
    exact ⟨a, n, y, hcore, (toLower_eq_iff (by simp)).mp ha, (toLower_eq_iff (by simp)).mp hn,
      (toLower_eq_iff (by simp)).mp hy⟩
  · rintro ⟨a, n, y, hcore, ha, hn, hy⟩
    have hlower_a : a.toLower = 'a' := (toLower_eq_iff (by simp)).mpr ha
    have hlower_n : n.toLower = 'n' := (toLower_eq_iff (by simp)).mpr hn
    have hlower_y : y.toLower = 'y' := (toLower_eq_iff (by simp)).mpr hy
    rw [hcore, List.map_cons, List.map_cons, List.map_cons, hlower_a, hlower_n, hlower_y]
    rfl

theorem not_denotes_of_saysAny {text : String} {value : UInt64} (h : SaysAny text) :
    ¬Denotes text value := by
  obtain ⟨a, n, y, hcore, ha, hn, hy⟩ := h
  rintro ⟨core, hcore', hnumber⟩
  obtain rfl := (Text.trimsTo_iff.mp hcore).symm.trans (Text.trimsTo_iff.mp hcore')
  have hletter : ∀ d < 10, n.toLower ≠ Nat.digitChar d := by
    rcases hn with rfl | rfl <;> decide
  have hplain : [a, n, y].filter (· ≠ '_') = [a, n, y] := by
    rcases ha with rfl | rfl <;> rcases hn with rfl | rfl <;> rcases hy with rfl | rfl <;> rfl
  rw [hplain] at hnumber
  cases hnumber with
  | decimal h =>
      rcases h with h | ⟨_, hsign, -⟩
      · exact Text.not_mem_of_isNumeral h hletter (by simp)
      · cases hsign
        rcases ha with ha | ha <;> cases ha
  | hexadecimal => rcases ha with ha | ha <;> cases ha

theorem placementIn_eq_ok_iff {text : String} {placement : Placement} :
    placementIn text = .ok placement ↔ AsksPlacement (some text) placement := by
  unfold placementIn
  split
  next hany =>
    have hsays := isAny_iff.mp hany
    constructor
    · rintro ⟨⟩
      exact .any hsays
    · intro h
      cases h with
      | any => rfl
      | number h => exact absurd h (not_denotes_of_saysAny hsays)
  next hany =>
    have hsays : ¬SaysAny text := fun h => hany (isAny_iff.mpr h)
    constructor
    · intro h
      cases hnumber : numberIn baseVariable text with
      | ok n =>
          rw [hnumber] at h
          cases h
          exact .number (numberIn_eq_ok_iff.mp hnumber)
      | error e =>
          rw [hnumber] at h
          cases h
    · intro h
      cases h with
      | any h => exact absurd h hsays
      | number h =>
          rw [numberIn_eq_ok_iff.mpr h]
          rfl

theorem placementIn_eq_error_iff {text : String} {e : InvalidNumber} :
    placementIn text = .error e ↔
      e = ⟨baseVariable, text⟩ ∧ ∀ placement, ¬AsksPlacement (some text) placement := by
  simp only [← placementIn_eq_ok_iff]
  unfold placementIn
  split
  next => simp
  next =>
    cases hnumber : numberIn baseVariable text with
    | ok n => simp [Except.map]
    | error e' =>
        obtain ⟨rfl, -⟩ := numberIn_eq_error_iff.mp hnumber
        simp [Except.map, eq_comm]

/-! ## The configuration -/

def capacityFrom : Option String → Except InvalidNumber UInt64
  | some text => numberIn capacityVariable text
  | none => .ok Config.default.capacity

def placementFrom : Option String → Except InvalidNumber Placement
  | some text => placementIn text
  | none => .ok Config.default.placement

theorem ofEnvironment_eq (lookup : String → Option String) : Config.ofEnvironment lookup = do
    let capacity ← capacityFrom (lookup capacityVariable)
    let placement ← placementFrom (lookup baseVariable)
    return ⟨capacity, placement⟩ := by
  unfold Config.ofEnvironment
  cases lookup capacityVariable <;> cases lookup baseVariable <;> rfl

theorem capacityFrom_eq_ok_iff {text? : Option String} {n : UInt64} :
    capacityFrom text? = .ok n ↔ AsksCapacity text? n := by
  cases text? with
  | none =>
      constructor
      · rintro ⟨⟩
        exact .default
      · rintro ⟨⟩
        rfl
  | some text =>
      rw [capacityFrom, numberIn_eq_ok_iff]
      constructor
      · exact .number
      · intro h
        cases h with
        | number hnumber => exact hnumber

theorem capacityFrom_eq_error_iff {text? : Option String} {e : InvalidNumber} :
    capacityFrom text? = .error e ↔
      text? = some e.value ∧ e.name = capacityVariable ∧ ∀ n, ¬Denotes e.value n := by
  cases text? with
  | none => simp [capacityFrom]
  | some text =>
      rw [capacityFrom, numberIn_eq_error_iff]
      constructor
      · rintro ⟨rfl, hno⟩
        exact ⟨rfl, rfl, hno⟩
      · rintro ⟨htext, hname, hno⟩
        cases htext
        exact ⟨by rw [← hname], hno⟩

theorem placementFrom_eq_ok_iff {text? : Option String} {placement : Placement} :
    placementFrom text? = .ok placement ↔ AsksPlacement text? placement := by
  cases text? with
  | none =>
      constructor
      · rintro ⟨⟩
        exact .default
      · rintro ⟨⟩
        rfl
  | some text => exact placementIn_eq_ok_iff

theorem placementFrom_eq_error_iff {text? : Option String} {e : InvalidNumber} :
    placementFrom text? = .error e ↔ text? = some e.value ∧ e.name = baseVariable ∧
      ∀ placement, ¬AsksPlacement (some e.value) placement := by
  cases text? with
  | none => simp [placementFrom]
  | some text =>
      rw [placementFrom, placementIn_eq_error_iff]
      constructor
      · rintro ⟨rfl, hno⟩
        exact ⟨rfl, rfl, hno⟩
      · rintro ⟨htext, hname, hno⟩
        cases htext
        exact ⟨by rw [← hname], hno⟩

/-- For any texts of the two variables: the configuration is what both ask for, each by itself.
If it fails, the variable of the capacity has a text that is no number, or that variable is fine
and the other has a text that is neither a number nor the word; what is reported is that text. -/
theorem ofEnvironment_reads (lookup : String → Option String) :
    (∀ config, Config.ofEnvironment lookup = .ok config ↔
        AsksCapacity (lookup capacityVariable) config.capacity ∧
          AsksPlacement (lookup baseVariable) config.placement) ∧
      ∀ e, Config.ofEnvironment lookup = .error e ↔
        (lookup capacityVariable = some e.value ∧ e.name = capacityVariable ∧
            ∀ n, ¬Denotes e.value n) ∨
          (∃ n, AsksCapacity (lookup capacityVariable) n) ∧
            lookup baseVariable = some e.value ∧ e.name = baseVariable ∧
              ∀ placement, ¬AsksPlacement (some e.value) placement := by
  rw [ofEnvironment_eq]
  constructor
  · rintro ⟨capacity, placement⟩
    simp only [bind_eq_ok_iff, capacityFrom_eq_ok_iff, placementFrom_eq_ok_iff]
    constructor
    · rintro ⟨_, hcapacity, _, hplacement, ⟨⟩⟩
      exact ⟨hcapacity, hplacement⟩
    · rintro ⟨hcapacity, hplacement⟩
      exact ⟨capacity, hcapacity, placement, hplacement, rfl⟩
  · intro e
    simp only [bind_eq_error_iff, capacityFrom_eq_ok_iff, capacityFrom_eq_error_iff,
      placementFrom_eq_ok_iff, placementFrom_eq_error_iff]
    refine or_congr_right ⟨?_, ?_⟩
    · rintro ⟨n, hn, hbase | ⟨_, -, ⟨⟩⟩⟩
      exact ⟨⟨n, hn⟩, hbase⟩
    · rintro ⟨⟨n, hn⟩, hbase⟩
      exact ⟨n, hn, .inl hbase⟩

-- A byte order mark is no blank, and neither digits of other scripts nor a second sign are read.
example : numberIn baseVariable "\uFEFF1" = .error ⟨baseVariable, "\uFEFF1"⟩ := by decide +kernel
example : numberIn baseVariable "++1" = .error ⟨baseVariable, "++1"⟩ := by decide +kernel
example : Config.ofEnvironment
    (fun name => if name = baseVariable then some "\u3000_0_X_+1_f_ " else none) =
      .ok ⟨Config.defaultCapacity, .fixed 31⟩ := by decide +kernel

end AsmLoader.Region
