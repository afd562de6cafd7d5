import AsmLoader.Text.Numeral
/-!
# Numerals read back

A number that is written in hexadecimal is read again as the same number, whatever the case of
its digits.
-/

namespace AsmLoader.Text

theorem readDigits?_append (base n : Nat) (cs ds : List Char) :
    readDigits? base n (cs ++ ds) =
      (readDigits? base n cs).bind fun m => readDigits? base m ds := by
  induction cs generalizing n with
  | nil => rfl
  | cons c rest ih =>
      simp only [List.cons_append, readDigits?, Option.bind_eq_bind, Option.bind_assoc]
      congr 1
      funext d
      exact ih (n * base + d)

/-! ## Hexadecimal digits -/

theorem digitIn?_toLower_hexDigit {n : Nat} (h : n < 16) :
    digitIn? 16 (hexDigit n).toLower = some n := by
  have hall : ∀ i : Fin 16, digitIn? 16 (hexDigit i).toLower = some i.val := by decide
  exact hall ⟨n, h⟩

theorem hexDigits_ne_nil (n : Nat) : hexDigits n ≠ [] := by
  unfold hexDigits
  split <;> simp

theorem readDigits?_map_hexDigits {f : Char → Char}
    (hf : ∀ d < 16, digitIn? 16 (f (hexDigit d)) = some d) (n : Nat) :
    readDigits? 16 0 ((hexDigits n).map f) = some n := by
  induction n using Nat.strongRecOn with
  | ind n ih =>
      unfold hexDigits
      split
      next hsmall =>
        simp [readDigits?, hf n hsmall]
      next hlarge =>
        have hlast : n % 16 < 16 := Nat.mod_lt n (by decide)
        have hvalue : n / 16 * 16 + n % 16 = n := by omega
        rw [List.map_append, readDigits?_append, ih (n / 16) (by omega), Option.bind_some]
        simp [readDigits?, hf _ hlast, hvalue]

theorem readDigits?_toLower_hexDigits (n : Nat) :
    readDigits? 16 0 ((hexDigits n).map Char.toLower) = some n :=
  readDigits?_map_hexDigits (fun _ => digitIn?_toLower_hexDigit) n

theorem readDigits?_hexDigits (n : Nat) : readDigits? 16 0 (hexDigits n) = some n := by
  have hdigit : ∀ d : Fin 16, digitIn? 16 (hexDigit d) = some d.val := by decide
  have hread := readDigits?_map_hexDigits (f := id) (fun d hd => hdigit ⟨d, hd⟩) n
  rwa [List.map_id] at hread

theorem exists_hexDigit_of_mem {n : Nat} {c : Char} (h : c ∈ hexDigits n) :
    ∃ d < 16, c = hexDigit d := by
  induction n using Nat.strongRecOn with
  | ind n ih =>
      unfold hexDigits at h
      split at h
      next hsmall => exact ⟨n, hsmall, by simpa using h⟩
      next hlarge =>
        rcases List.mem_append.mp h with hfront | hlast
        · exact ih (n / 16) (by omega) hfront
        · exact ⟨n % 16, Nat.mod_lt n (by decide), by simpa using hlast⟩

/-! ## Numerals without a sign -/

theorem readUInt64?_of_readNumeral? {base n : Nat} {cs : List Char}
    (h : readNumeral? base cs = some n) (hn : n < UInt64.size) :
    readUInt64? base cs = some (UInt64.ofNat n) := by
  unfold readUInt64?
  split
  next rest =>
    have hdigit : digitIn? base '+' = none := by simp [digitIn?, digitValue?]
    simp [readNumeral?, readDigits?, hdigit] at h
  next => simp [h, hn]

theorem readUInt64?_toLower_hexDigits (value : UInt64) :
    readUInt64? 16 ((hexDigits value.toNat).map Char.toLower) = some value := by
  have hread : readNumeral? 16 ((hexDigits value.toNat).map Char.toLower) =
      some value.toNat := by
    rw [← readDigits?_toLower_hexDigits value.toNat]
    cases hdigits : (hexDigits value.toNat).map Char.toLower with
    | nil => exact absurd (List.map_eq_nil_iff.mp hdigits) (hexDigits_ne_nil value.toNat)
    | cons c rest => rfl
  rw [readUInt64?_of_readNumeral? hread value.toNat_lt, UInt64.ofNat_toNat]

/-! ## Padded numerals -/

theorem readNumeral?_hexPadded (width n : Nat) :
    readNumeral? 16 (hexPadded width n).toList = some n := by
  have hzeros (count : Nat) (cs : List Char) :
      readDigits? 16 0 (List.replicate count '0' ++ cs) = readDigits? 16 0 cs := by
    induction count with
    | zero => rfl
    | succ count ih =>
        have hzero : digitIn? 16 '0' = some 0 := by decide
        simpa [List.replicate_succ, readDigits?, hzero] using ih
  have hread : readDigits? 16 0 (hexPadded width n).toList = some n := by
    rw [hexPadded, String.toList_ofList, hzeros, readDigits?_hexDigits]
  cases hchars : (hexPadded width n).toList with
  | nil =>
      rw [hexPadded, String.toList_ofList, List.append_eq_nil_iff] at hchars
      exact absurd hchars.2 (hexDigits_ne_nil n)
  | cons c rest =>
      rw [hchars] at hread
      exact hread

theorem hexPadded_byte (b : UInt8) :
    (hexPadded 2 b.toNat).toList = [hexDigit (b.toNat / 16), hexDigit (b.toNat % 16)] := by
  have hlt := b.toNat_lt
  rw [hexPadded, String.toList_ofList]
  unfold hexDigits
  split
  next hsmall =>
    rw [Nat.div_eq_of_lt hsmall, Nat.mod_eq_of_lt hsmall]
    rfl
  next hlarge =>
    unfold hexDigits
    rw [if_pos (by omega)]
    rfl

theorem exists_hexDigit_of_mem_hexPadded {width n : Nat} {c : Char}
    (h : c ∈ (hexPadded width n).toList) : ∃ d < 16, c = hexDigit d := by
  rw [hexPadded, String.toList_ofList, List.mem_append] at h
  rcases h with hzero | hdigit
  · exact ⟨0, by decide, List.eq_of_mem_replicate hzero⟩
  · exact exists_hexDigit_of_mem hdigit

theorem not_mem_hexPadded {c : Char} (hc : ∀ d : Fin 16, hexDigit d ≠ c) (width n : Nat) :
    c ∉ (hexPadded width n).toList := by
  intro h
  obtain ⟨d, hd, rfl⟩ := exists_hexDigit_of_mem_hexPadded h
  exact hc ⟨d, hd⟩ rfl

end AsmLoader.Text
