import AsmLoader.Proofs.Text.Digits
import AsmLoader.Source.Literal
/-!
# Words that are numbers

A word is a number just if it is a numeral in one of five forms, with one exception: `0b` is the
start of a binary number without digits, and not the digit zero in binary. Where the forms look
alike, at most one of them has digits of its base.
-/

namespace AsmLoader.Source

open Text (IsNumeral)

variable {cs word : List Char} {n : Nat} {value : UInt64}

/-- The forms of a number in lower case: decimal, hexadecimal after `0x` or a dollar sign or
before `h` if the first digit is a decimal one, and binary after `0b` or before `b`. -/
inductive IsLiteral : List Char → Nat → Prop where
  | decimal {digits : List Char} {n : Nat} (h : IsNumeral 10 digits n) : IsLiteral digits n
  | hexMarked {digits : List Char} {n : Nat} (h : IsNumeral 16 digits n) :
      IsLiteral ('0' :: 'x' :: digits) n
  | hexDollar {digits : List Char} {n : Nat} (h : IsNumeral 16 digits n) :
      IsLiteral ('$' :: digits) n
  | hexEnding {first : Char} {digits : List Char} {n : Nat} (hfirst : Symbol.isDigit first)
      (h : IsNumeral 16 (first :: digits) n) : IsLiteral (first :: digits ++ ['h']) n
  | binaryMarked {digits : List Char} {n : Nat} (h : IsNumeral 2 digits n) :
      IsLiteral ('0' :: 'b' :: digits) n
  | binaryEnding {digits : List Char} {n : Nat} (h : IsNumeral 2 digits n) :
      IsLiteral (digits ++ ['b']) n

/-! ## Reading the forms -/

theorem isDigit_of_isNumeral {base : Nat} (hbase : base ≤ 10) {c : Char} {rest : List Char}
    (h : IsNumeral base (c :: rest) n) : Symbol.isDigit c := by
  obtain ⟨digits, hne, hdigits, hchars, -⟩ := h
  obtain ⟨d, digits, rfl⟩ := List.exists_cons_of_ne_nil hne
  have hd : d < base := hdigits d List.mem_cons_self
  have hvalue : Text.digitValue? c = some d :=
    (Text.digitValue?_eq_some_iff (by omega)).mpr (List.cons.inj hchars).1
  by_contra hnot
  have hdecimal : ¬('0' ≤ c ∧ c ≤ '9') := by simpa [Symbol.isDigit] using hnot
  rw [Text.digitValue?, if_neg hdecimal] at hvalue
  split at hvalue
  next hlower =>
    have hle : 97 ≤ c.toNat := hlower.1
    have heq : c.toNat - 87 = d := Option.some.inj hvalue
    omega
  next =>
    split at hvalue
    next hupper =>
      have hle : 65 ≤ c.toNat := hupper.1
      have heq : c.toNat - 55 = d := Option.some.inj hvalue
      omega
    next => cases hvalue

theorem readLower?_of_isDigit {first : Char} {rest : List Char} (hfirst : Symbol.isDigit first)
    (hmarked : 'x' ∉ rest) :
    readLower? (first :: rest) = readMarked? (first :: rest) := by
  unfold readLower?
  split
  next heq =>
    cases heq
    exact absurd List.mem_cons_self hmarked
  next heq =>
    cases heq
    exact absurd hfirst (by decide)
  next heq =>
    cases heq
    rw [if_pos hfirst]
  next heq => cases heq

theorem readMarked?_hexEnding (digits : List Char) :
    readMarked? (digits ++ ['h']) = Text.readUInt64? 16 digits := by
  unfold readMarked?
  rw [if_pos List.getLast?_concat, List.dropLast_concat]

theorem readMarked?_binaryMarked {digits : List Char}
    (hlast : ('0' :: 'b' :: digits).getLast? ≠ some 'h') :
    readMarked? ('0' :: 'b' :: digits) = Text.readUInt64? 2 digits := by
  rw [readMarked?, if_neg hlast]

theorem readMarked?_of_not_marked (hlast : cs.getLast? ≠ some 'h')
    (hmarked : ∀ digits, cs ≠ '0' :: 'b' :: digits) : readMarked? cs =
      if cs.getLast? = some 'b' then
        Text.readUInt64? 2 cs.dropLast else Text.readUInt64? 10 cs := by
  unfold readMarked?
  rw [if_neg hlast]
  split
  next => exact absurd rfl (hmarked _)
  next => rfl

theorem exists_digits_of_isLiteral (h : IsLiteral cs n) (hexception : cs ≠ ['0', 'b']) :
    ∃ base ≤ 16, ∃ digits ⊆ cs, IsNumeral base digits n ∧
      readLower? cs = Text.readUInt64? base digits := by
  cases h with
  | decimal h =>
      have hx : 'x' ∉ cs := Text.not_mem_of_isNumeral h (by decide)
      have hh : 'h' ∉ cs := Text.not_mem_of_isNumeral h (by decide)
      have hb : 'b' ∉ cs := Text.not_mem_of_isNumeral h (by decide)
      obtain ⟨first, rest, rfl⟩ := List.exists_cons_of_ne_nil (Text.ne_nil_of_isNumeral h)
      refine ⟨10, by decide, _, List.Subset.refl _, h, ?_⟩
      rw [readLower?_of_isDigit (isDigit_of_isNumeral (by decide) h), readMarked?_of_not_marked,
        if_neg]
      · exact fun hlast => hb (List.mem_of_getLast? hlast)
      · exact fun hlast => hh (List.mem_of_getLast? hlast)
      · intro digits heq
        exact hb (heq ▸ by simp)
      · exact fun hmem => hx (List.mem_cons_of_mem _ hmem)
  | @hexMarked digits _ h =>
      exact ⟨16, by decide, digits, fun c hc => by simp [hc], h, rfl⟩
  | @hexDollar digits _ h => exact ⟨16, by decide, digits, fun c hc => by simp [hc], h, rfl⟩
  | @hexEnding first digits _ hfirst h =>
      have hx : 'x' ∉ first :: digits := Text.not_mem_of_isNumeral h (by decide)
      refine ⟨16, by decide, first :: digits, List.subset_append_left _ _, h, ?_⟩
      rw [List.cons_append, readLower?_of_isDigit hfirst, ← List.cons_append,
        readMarked?_hexEnding]
      intro hmem
      exact hx (List.mem_cons_of_mem _ (by simpa using hmem))
  | @binaryMarked digits _ h =>
      have hx : 'x' ∉ digits := Text.not_mem_of_isNumeral h (by decide)
      have hh : 'h' ∉ digits := Text.not_mem_of_isNumeral h (by decide)
      refine ⟨2, by decide, digits, fun c hc => by simp [hc], h, ?_⟩
      rw [readLower?_of_isDigit (by decide) (by simpa using hx), readMarked?_binaryMarked]
      intro hlast
      have hmem : 'h' ∈ '0' :: 'b' :: digits := List.mem_of_getLast? hlast
      exact hh (by simpa using hmem)
  | @binaryEnding digits _ h =>
      have hx : 'x' ∉ digits := Text.not_mem_of_isNumeral h (by decide)
      have hb : 'b' ∉ digits := Text.not_mem_of_isNumeral h (by decide)
      obtain ⟨first, rest, rfl⟩ := List.exists_cons_of_ne_nil (Text.ne_nil_of_isNumeral h)
      refine ⟨2, by decide, first :: rest, List.subset_append_left _ _, h, ?_⟩
      rw [List.cons_append, readLower?_of_isDigit (isDigit_of_isNumeral (by decide) h),
        ← List.cons_append, readMarked?_of_not_marked, if_pos List.getLast?_concat,
        List.dropLast_concat]
      · rw [List.getLast?_concat]
        simp
      · intro after heq
        obtain ⟨rfl, hrest⟩ := List.cons.inj heq
        cases rest with
        | nil => exact hexception rfl
        | cons second rest =>
            obtain rfl : second = 'b' := (List.cons.inj hrest).1
            exact hb (by simp)
      · intro hmem
        exact hx (List.mem_cons_of_mem _ (by simpa using hmem))

theorem exists_isLiteral_of_readLower? (hsign : '+' ∉ cs) (h : readLower? cs = some value) :
    ∃ n < UInt64.size, IsLiteral cs n ∧ value = UInt64.ofNat n := by
  have hform {base : Nat} (hbase : base ≤ 16) {digits : List Char} (hsubset : digits ⊆ cs)
      (hread : Text.readUInt64? base digits = some value)
      (hliteral : ∀ n, IsNumeral base digits n → IsLiteral cs n) :
      ∃ n < UInt64.size, IsLiteral cs n ∧ value = UInt64.ofNat n := by
    have hdigits : '+' ∉ digits := fun hmem => hsign (hsubset hmem)
    obtain ⟨n, hlt, hn, hvalue⟩ := (Text.readUInt64?_eq_some_iff hbase hdigits).mp hread
    exact ⟨n, hlt, hliteral n hn, hvalue⟩
  unfold readLower? at h
  split at h
  next digits => exact hform (by decide) (fun c hc => by simp [hc]) h fun n => .hexMarked
  next digits => exact hform (by decide) (fun c hc => by simp [hc]) h fun n => .hexDollar
  next first rest _ _ =>
    split at h
    next hfirst =>
      unfold readMarked? at h
      split at h
      next hlast =>
        obtain ⟨digits, hword⟩ := List.getLast?_eq_some_iff.mp hlast
        rw [hword, List.dropLast_concat] at h
        refine hform (by decide) (hword ▸ List.subset_append_left _ _) h fun n hn => ?_
        obtain ⟨second, digits, rfl⟩ := List.exists_cons_of_ne_nil (Text.ne_nil_of_isNumeral hn)
        obtain rfl : first = second := (List.cons.inj hword).1
        exact hword ▸ .hexEnding hfirst hn
      next =>
        split at h
        next digits heq =>
          rw [heq]
          rw [heq] at hform
          exact hform (by decide) (fun c hc => by simp [hc]) h fun n => .binaryMarked
        next =>
          split at h
          next hlast =>
            obtain ⟨digits, hword⟩ := List.getLast?_eq_some_iff.mp hlast
            rw [hword, List.dropLast_concat] at h
            refine hform (by decide) (hword ▸ List.subset_append_left _ _) h fun n hn => ?_
            exact hword ▸ .binaryEnding hn
          next => exact hform (by decide) (List.Subset.refl _) h fun n => .decimal
    next => cases h
  next => cases h

/-! ## Words -/

theorem toLower_ne_sign {c : Char} (hc : Symbol.isNameChar c) : c.toLower ≠ '+' := by
  intro heq
  unfold Char.toLower at heq
  split at heq
  next hupper =>
    have hvalue : (c.val + ('a'.val - 'A'.val)).toNat = 43 := congrArg Char.toNat heq
    have hlow : 65 ≤ c.val.toNat := hupper.1
    have hhigh : c.val.toNat ≤ 90 := hupper.2
    rw [UInt32.toNat_add, show ('a'.val - 'A'.val).toNat = 32 from rfl] at hvalue
    omega
  next =>
    subst heq
    exact absurd hc (by decide)

/-- A word is a number just if, in lower case, it is in one of the forms and of 64 bits, and is
not `0b`. Its value is the number with its highest bit as a sign. -/
theorem readLiteral?_eq_some_iff (hword : ∀ c ∈ word, Symbol.isNameChar c) {value : Int64} :
    readLiteral? word = some value ↔ word.map Char.toLower ≠ ['0', 'b'] ∧
      ∃ n < UInt64.size, IsLiteral (word.map Char.toLower) n ∧ value = Int64.ofNat n := by
  have hsign : '+' ∉ word.map Char.toLower := by
    intro hmem
    obtain ⟨c, hc, heq⟩ := List.mem_map.mp hmem
    exact toLower_ne_sign (hword c hc) heq
  rw [readLiteral?, Option.map_eq_some_iff]
  constructor
  · rintro ⟨bits, hread, rfl⟩
    obtain ⟨n, hlt, hliteral, rfl⟩ := exists_isLiteral_of_readLower? hsign hread
    refine ⟨?_, n, hlt, hliteral, UInt64.toInt64_ofNat'⟩
    intro hexception
    rw [hexception] at hread
    cases hread
  · rintro ⟨hexception, n, hlt, hliteral, rfl⟩
    obtain ⟨base, hbase, digits, hsubset, hn, hread⟩ :=
      exists_digits_of_isLiteral hliteral hexception
    have hdigits : '+' ∉ digits := fun hmem => hsign (hsubset hmem)
    have hbits : Text.readUInt64? base digits = some (UInt64.ofNat n) :=
      (Text.readUInt64?_eq_some_iff hbase hdigits).mpr ⟨n, hlt, hn, rfl⟩
    exact ⟨UInt64.ofNat n, hread.trans hbits, UInt64.toInt64_ofNat'⟩

/-- The digit zero in binary, which is no number, while the digit one is. -/
theorem readLiteral?_eq_some_iff_zero :
    (∀ c ∈ ['0', 'B'], Symbol.isNameChar c) ∧ IsLiteral ['0', 'b'] 0 ∧
      readLiteral? ['0', 'B'] = none ∧ readLiteral? ['1', 'B'] = some 1 := by
  have hword : ∀ c ∈ ['0', 'B'], Symbol.isNameChar c := List.all_eq_true.mp rfl
  have hone : ∀ c ∈ ['1', 'B'], Symbol.isNameChar c := List.all_eq_true.mp rfl
  have hzero : IsNumeral 2 ['0'] 0 := ⟨[0], by decide, by decide, by decide, by decide⟩
  have hdigit : IsNumeral 2 ['1'] 1 := ⟨[1], by decide, by decide, by decide, by decide⟩
  refine ⟨hword, .binaryEnding hzero, ?_, ?_⟩
  · refine Option.eq_none_iff_forall_ne_some.mpr fun value hread => ?_
    exact ((readLiteral?_eq_some_iff hword).mp hread).1 rfl
  · exact (readLiteral?_eq_some_iff hone).mpr
      ⟨by decide, 1, by decide, .binaryEnding hdigit, rfl⟩

end AsmLoader.Source
