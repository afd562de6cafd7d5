import AsmLoader.Machine.Decoding
import AsmLoader.Proofs.Machine.Dissection
/-!
# What readers take

A reader takes some bytes if it answers and leaves what follows them, whatever that is. Readers
one after the other take their bytes one after the other. The readers of operands take an operand
byte with its address, as long as the byte tells.
-/

namespace AsmLoader.Machine

namespace Reader

variable {α β : Type} {r : Reader α} {f : α → Reader β} {front back bytes : List UInt8}

/-- The reader makes this answer of the bytes and leaves what follows them. -/
def Reads (r : Reader α) (bytes : List UInt8) (a : α) : Prop :=
  ∀ rest, r.run (bytes ++ rest) = .ok (a, rest)

def Takes (r : Reader α) (bytes : List UInt8) : Prop :=
  ∃ a, r.Reads bytes a

/-! ## Readers one after the other -/

theorem Reads.bind {a : α} (hr : r.Reads front a) (hf : (f a).Takes back) :
    (r >>= f).Takes (front ++ back) := by
  obtain ⟨b, hb⟩ := hf
  refine ⟨b, fun rest => ?_⟩
  rw [List.append_assoc, StateT.run_bind, hr]
  exact hb rest

theorem Takes.bind (hr : r.Takes front) (hf : ∀ a, (f a).Takes back) :
    (r >>= f).Takes (front ++ back) := by
  obtain ⟨a, ha⟩ := hr
  exact ha.bind (hf a)

theorem takes_pure (a : α) : (pure a : Reader α).Takes [] :=
  ⟨a, fun _ => rfl⟩

theorem Takes.then_pure {g : α → Reader β} (hr : r.Takes bytes)
    (hg : ∀ a, ∃ b, g a = pure b) : (r >>= g).Takes bytes := by
  rw [← List.append_nil bytes]
  apply hr.bind
  intro a
  obtain ⟨b, hb⟩ := hg a
  rw [hb]
  exact takes_pure b

theorem reads_byte (b : UInt8) : byte.Reads [b] b :=
  fun _ => rfl

theorem takes_byte {count : UInt8} : byte.Takes [count] :=
  ⟨count, reads_byte count⟩

theorem takes_bytes {count : Nat} (h : bytes.length = count) :
    (Reader.bytes count).Takes bytes := by
  subst h
  refine ⟨bytes, fun rest => ?_⟩
  have hle : bytes.length ≤ (bytes ++ rest).length := by simp
  change (if _ then _ else _) = _
  rw [if_pos hle, List.take_left, List.drop_left]

theorem takes_signed {count : Nat} (h : bytes.length = count) : (signed count).Takes bytes :=
  (takes_bytes h).then_pure fun _ => ⟨_, rfl⟩

/-! ## Operands -/

section Operands

variable {p : Prefixes} {w : Width} {o : UInt8} {field : Nat} {memory : Bool}
  {tail operand immediate : List UInt8}

theorem reads_operandByte (p : Prefixes) (o : UInt8) :
    (operandByte p).Reads [o]
      ⟨o.toNat / 64, o.toNat / 8 % 8 + 8 * p.bit 2, o.toNat % 8⟩ :=
  fun _ => rfl

def displacementLength : Nat → Nat
  | 0 => 0
  | 1 => 1
  | _ => 4

theorem takes_displacement {mode : Nat} (h : bytes.length = displacementLength mode) :
    (displacement mode).Takes bytes := by
  unfold displacement
  split
  next =>
    obtain rfl := List.eq_nil_of_length_eq_zero h
    exact takes_pure _
  next => exact (takes_signed h).then_pure fun _ => ⟨_, rfl⟩
  next hzero hone =>
    have hlength : displacementLength mode = 4 := by
      unfold displacementLength
      split
      next => exact absurd rfl hzero
      next => exact absurd rfl hone
      next => rfl
    exact (takes_signed (h.trans hlength)).then_pure fun _ => ⟨_, rfl⟩

theorem addressLength_cons {mode : Nat} (hmode : mode ≠ 3) (b : UInt8) (rest : List UInt8) :
    addressLength mode 4 (b :: rest) =
      1 + if mode = 0 ∧ b.toNat % 8 = 5 then 4 else displacementLength mode := by
  simp only [addressLength, if_neg hmode, if_true, List.headD_cons]
  rcases mode with _ | _ | mode <;> simp [displacementLength]

theorem addressLength_of_ne {mode place : Nat} (hmode : mode ≠ 3) (hplace : place ≠ 4)
    (rest : List UInt8) :
    addressLength mode place rest =
      if mode = 0 ∧ place = 5 then 4 else displacementLength mode := by
  simp only [addressLength, if_neg hmode, if_neg hplace]
  rcases mode with _ | _ | mode <;> simp [displacementLength]

theorem addressLength_register (place : Nat) (rest : List UInt8) :
    addressLength 3 place rest = 0 :=
  rfl

theorem addressLength_le (mode place : Nat) (rest : List UInt8) :
    addressLength mode place rest ≤ 5 := by
  have hdisplacement : displacementLength mode ≤ 4 := by
    unfold displacementLength
    split <;> decide
  by_cases hmode : mode = 3
  · rw [hmode, addressLength_register]
    exact Nat.zero_le 5
  by_cases hplace : place = 4
  · have hcons (b : UInt8) (rest : List UInt8) : addressLength mode 4 (b :: rest) ≤ 5 := by
      rw [addressLength_cons hmode]
      split <;> omega
    rw [hplace]
    cases rest with
    | nil => exact hcons 0 []
    | cons b rest => exact hcons b rest
  · rw [addressLength_of_ne hmode hplace]
    split <;> omega

theorem takes_scaledAddress {mode : Nat} (hmode : mode ≠ 3)
    (h : addressLength mode 4 bytes = bytes.length) : (scaledAddress p mode).Takes bytes := by
  cases bytes with
  | nil => simp [addressLength, hmode] at h
  | cons b bytes =>
      rw [addressLength_cons hmode, List.length_cons] at h
      refine (reads_byte b).bind ?_
      dsimp only
      split
      next hnone =>
        have hlength : bytes.length = displacementLength 2 := by
          rw [if_pos hnone] at h
          exact (by omega : bytes.length = 4)
        apply (takes_displacement hlength).then_pure
        intro d
        split <;> exact ⟨_, rfl⟩
      next hsome =>
        have hlength : bytes.length = displacementLength mode := by
          rw [if_neg hsome] at h
          omega
        apply (takes_displacement hlength).then_pure
        intro d
        split <;> exact ⟨_, rfl⟩

theorem takes_address {o : OperandByte} (hmode : o.mode ≠ 3)
    (h : addressLength o.mode o.place bytes = bytes.length) : (address p o).Takes bytes := by
  unfold address
  split
  next hplace =>
    rw [hplace] at h
    exact takes_scaledAddress hmode h
  next hplace =>
    rw [addressLength_of_ne hmode hplace] at h
    split
    next hnone =>
      rw [if_pos hnone] at h
      exact (takes_signed h.symm).then_pure fun _ => ⟨_, rfl⟩
    next hsome =>
      rw [if_neg hsome] at h
      exact (takes_displacement h.symm).then_pure fun _ => ⟨_, rfl⟩

theorem takes_placeAfter (h : IsOperandByte field memory o tail) (number : Nat) :
    (placeAfter p w ⟨o.toNat / 64, number, o.toNat % 8⟩).Takes tail := by
  have hlength := h.2.2 []
  rw [List.append_nil] at hlength
  unfold placeAfter
  dsimp only
  split
  next hmode =>
    rw [hmode, addressLength_register] at hlength
    obtain rfl := List.eq_nil_of_length_eq_zero hlength.symm
    exact takes_pure _
  next hmode =>
    have haddress :=
      takes_address (p := p) (o := ⟨o.toNat / 64, number, o.toNat % 8⟩) hmode hlength
    exact haddress.then_pure fun _ => ⟨_, rfl⟩

theorem takes_place (h : IsOperand (some (field, memory)) operand) :
    (place p w).Takes operand := by
  obtain ⟨o, tail, rfl, ho⟩ := h
  refine (reads_operandByte p o).bind ?_
  exact (takes_placeAfter ho _).then_pure fun _ => ⟨_, rfl⟩

theorem takes_memory (h : IsOperand (some (field, true)) operand) :
    (Reader.memory p).Takes operand := by
  obtain ⟨o, tail, rfl, ho⟩ := h
  have hmode : o.toNat / 64 ≠ 3 := by simpa using ho.2.1
  have hlength := ho.2.2 []
  rw [List.append_nil] at hlength
  refine (reads_operandByte p o).bind ?_
  dsimp only
  rw [if_neg hmode]
  have haddress := takes_address (p := p)
    (o := ⟨o.toNat / 64, o.toNat / 8 % 8 + 8 * p.bit 2, o.toNat % 8⟩) hmode hlength
  exact haddress.then_pure fun _ => ⟨_, rfl⟩

theorem takes_group {choose : Nat → Option (Width × (Place Reference → Reader α))}
    {next : Place Reference → Reader α} (h : IsOperand (some (field, memory)) operand)
    (hchoose : choose field = some (w, next)) (hnext : ∀ place, (next place).Takes immediate) :
    (group p choose).Takes (operand ++ immediate) := by
  obtain ⟨o, tail, rfl, ho⟩ := h
  have hfield : (o.toNat / 8 % 8 + 8 * p.bit 2) % 8 = field := by
    rw [← ho.1]
    omega
  refine (reads_operandByte p o).bind ?_
  dsimp only
  rw [hfield, hchoose]
  exact (takes_placeAfter ho _).bind hnext

end Operands

end Reader

end AsmLoader.Machine
