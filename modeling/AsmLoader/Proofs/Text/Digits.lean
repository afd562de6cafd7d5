import Mathlib.Data.Nat.Digits.Defs
import AsmLoader.Text.Numeral
/-!
# What numerals denote

Reading a numeral answers just the number that its digits denote in its base, in letters of any
case. A sign is read only before an unsigned number.
-/

namespace AsmLoader.Text

/-- The digits of a numeral in a base up to sixteen, of which there is at least one, and the
number that they denote, the last digit being the lowest. -/
def IsNumeral (base : Nat) (cs : List Char) (n : Nat) : Prop :=
  ∃ digits : List Nat, digits ≠ [] ∧ (∀ d ∈ digits, d < base) ∧
    cs.map Char.toLower = digits.map Nat.digitChar ∧ n = Nat.ofDigits base digits.reverse

/-! ## Digits -/

theorem digitValue?_ascii : ∀ n : Fin 128, ∀ d : Fin 16,
    digitValue? (Char.ofNat n) = some d.val ↔ (Char.ofNat n).toLower = Nat.digitChar d := by
  decide +kernel

theorem digitChar_lt : ∀ d : Fin 16, (Nat.digitChar d).toNat < 128 := by
  decide

theorem digitValue?_eq_some_iff {c : Char} {d : Nat} (hd : d < 16) :
    digitValue? c = some d ↔ c.toLower = Nat.digitChar d := by
  by_cases hascii : c.toNat < 128
  · have h := digitValue?_ascii ⟨c.toNat, hascii⟩ ⟨d, hd⟩
    rwa [Char.ofNat_toNat] at h
  · -- beyond these characters there are no digits and no letters that change their case
    have hlarge (last : Char) (hlast : last.toNat < 128) : ¬c ≤ last := by
      intro hle
      have hnat : c.toNat ≤ last.toNat := hle
      omega
    have hnone : digitValue? c = none := by
      simp [digitValue?, hlarge '9' (by decide), hlarge 'z' (by decide), hlarge 'Z' (by decide)]
    have hlower : c.toLower = c := dif_neg fun hupper => hlarge 'Z' (by decide) hupper.2
    have hne : c ≠ Nat.digitChar d := by
      rintro rfl
      exact hascii (digitChar_lt ⟨d, hd⟩)
    simp [hnone, hlower, hne]

theorem digitIn?_eq_some_iff {base d : Nat} (hbase : base ≤ 16) {c : Char} :
    digitIn? base c = some d ↔ d < base ∧ c.toLower = Nat.digitChar d := by
  rw [digitIn?, Option.filter_eq_some_iff, decide_eq_true_eq, and_comm]
  refine and_congr_right fun hd => ?_
  exact digitValue?_eq_some_iff (by omega)

/-! ## Numerals -/

theorem readDigits?_eq_some_iff {base m n : Nat} (hbase : base ≤ 16) {cs : List Char} :
    readDigits? base m cs = some n ↔ ∃ digits : List Nat, (∀ d ∈ digits, d < base) ∧
      cs.map Char.toLower = digits.map Nat.digitChar ∧
        n = digits.foldl (fun n d => d + base * n) m := by
  induction cs generalizing m with
  | nil =>
      constructor
      · intro h
        exact ⟨[], nofun, rfl, (Option.some.inj h).symm⟩
      · rintro ⟨digits, -, hdigits, rfl⟩
        obtain rfl : digits = [] := by simpa using hdigits
        rfl
  | cons c rest ih =>
      simp only [readDigits?, Option.bind_eq_bind, Option.bind_eq_some_iff,
        digitIn?_eq_some_iff hbase, ih]
      constructor
      · rintro ⟨d, ⟨hd, hc⟩, digits, hdigits, hrest, rfl⟩
        refine ⟨d :: digits, by simpa using ⟨hd, hdigits⟩, by simp [hc, hrest], ?_⟩
        rw [List.foldl_cons, Nat.mul_comm, Nat.add_comm]
      · rintro ⟨digits, hdigits, hchars, rfl⟩
        cases digits with
        | nil => simp at hchars
        | cons d digits =>
            obtain ⟨hc, hrest⟩ := List.cons.inj hchars
            refine ⟨d, ⟨hdigits d List.mem_cons_self, hc⟩, digits,
              fun e he => hdigits e (List.mem_cons_of_mem _ he), hrest, ?_⟩
            rw [List.foldl_cons, Nat.mul_comm m, Nat.add_comm]

theorem readNumeral?_eq_some_iff {base n : Nat} (hbase : base ≤ 16) {cs : List Char} :
    readNumeral? base cs = some n ↔ IsNumeral base cs n := by
  have hvalue (digits : List Nat) :
      digits.foldl (fun n d => d + base * n) 0 = Nat.ofDigits base digits.reverse := by
    rw [Nat.ofDigits_eq_foldr, List.foldr_reverse]
    rfl
  cases cs with
  | nil =>
      refine iff_of_false nofun ?_
      rintro ⟨digits, hne, -, hdigits, -⟩
      exact hne (by simpa using hdigits.symm)
  | cons c rest =>
      rw [readNumeral?, readDigits?_eq_some_iff hbase]
      constructor
      · rintro ⟨digits, hdigits, hchars, rfl⟩
        refine ⟨digits, ?_, hdigits, hchars, hvalue digits⟩
        rintro rfl
        simp at hchars
      · rintro ⟨digits, -, hdigits, hchars, rfl⟩
        exact ⟨digits, hdigits, hchars, (hvalue digits).symm⟩

theorem readUInt64?_eq_some_iff {base : Nat} (hbase : base ≤ 16) {cs : List Char}
    (hsign : '+' ∉ cs) {value : UInt64} : readUInt64? base cs = some value ↔
      ∃ n < UInt64.size, IsNumeral base cs n ∧ value = UInt64.ofNat n := by
  have hread : readUInt64? base cs =
      (readNumeral? base cs).bind fun n =>
        if n < UInt64.size then some (UInt64.ofNat n) else none := by
    unfold readUInt64?
    split
    next rest => exact absurd List.mem_cons_self hsign
    next => rfl
  rw [hread, Option.bind_eq_some_iff]
  simp only [readNumeral?_eq_some_iff hbase]
  constructor
  · rintro ⟨n, hn, hvalue⟩
    split at hvalue
    next hlt => exact ⟨n, hlt, hn, (Option.some.inj hvalue).symm⟩
    next => cases hvalue
  · rintro ⟨n, hlt, hn, rfl⟩
    exact ⟨n, hn, if_pos hlt⟩

theorem not_mem_of_isNumeral {base n : Nat} {cs : List Char} (h : IsNumeral base cs n) {c : Char}
    (hc : ∀ d < base, c.toLower ≠ Nat.digitChar d) : c ∉ cs := by
  obtain ⟨digits, -, hdigits, hchars, -⟩ := h
  intro hmem
  have hlower : c.toLower ∈ digits.map Nat.digitChar := hchars ▸ List.mem_map_of_mem hmem
  obtain ⟨d, hd, heq⟩ := List.mem_map.mp hlower
  exact hc d (hdigits d hd) heq.symm

theorem ne_nil_of_isNumeral {base n : Nat} {cs : List Char} (h : IsNumeral base cs n) :
    cs ≠ [] := by
  obtain ⟨digits, hne, -, hchars, -⟩ := h
  rintro rfl
  exact hne (by simpa using hchars.symm)

end AsmLoader.Text
