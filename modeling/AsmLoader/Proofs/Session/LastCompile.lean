import AsmLoader.Proofs.Session.Effect
/-!
# Since a unit was last compiled

The places of a history where a unit is compiled and where its code is discarded, and what the
state after the history has to do with them. A unit holds code exactly if it has not been
discarded since it was last compiled. The region of its manager still holds that code if no unit
has been compiled for the manager since.
-/

namespace AsmLoader.Session

variable {σ : Type}

/-- At this place of a history stands an operation that has the property, for the session in
which it is performed. -/
def Occurs (e : Engine σ) (operations : List (Operation σ))
    (P : Session σ → Operation σ → Prop) (i : Nat) : Prop :=
  ∃ operation, operations[i]? = some operation ∧ P (after e (operations.take i)) operation

def OccursSince (e : Engine σ) (operations : List (Operation σ))
    (P : Session σ → Operation σ → Prop) (i : Nat) : Prop :=
  ∃ j, i < j ∧ Occurs e operations P j

/-- At this place the unit is compiled for the last time: for this manager, to so many bytes. -/
def LastCompiled (e : Engine σ) (operations : List (Operation σ)) (unit manager : Handle)
    (size i : Nat) : Prop :=
  Occurs e operations (Compiles e unit manager size) i ∧
    ¬OccursSince e operations (fun s operation => ∃ k n, Compiles e unit k n s operation) i

def DiscardedSince (e : Engine σ) (operations : List (Operation σ)) (unit : Handle) (i : Nat) :
    Prop :=
  OccursSince e operations (Discards e unit) i

def CompiledSince (e : Engine σ) (operations : List (Operation σ)) (manager : Handle) (i : Nat) :
    Prop :=
  OccursSince e operations (fun s operation => ∃ unit n, Compiles e unit manager n s operation) i

section Places

variable {e : Engine σ} {operations : List (Operation σ)} {operation : Operation σ}
  {P : Session σ → Operation σ → Prop} {i : Nat}

theorem not_occurs_nil : ¬Occurs e [] P i := by
  rintro ⟨operation, hi, -⟩
  cases hi

theorem Occurs.lt_length (h : Occurs e operations P i) : i < operations.length := by
  obtain ⟨operation, hi, -⟩ := h
  exact (List.getElem?_eq_some_iff.mp hi).1

theorem occurs_concat : Occurs e (operations ++ [operation]) P i ↔
    Occurs e operations P i ∨ i = operations.length ∧ P (after e operations) operation := by
  unfold Occurs
  rcases Nat.lt_trichotomy i operations.length with hlt | rfl | hgt
  · rw [List.getElem?_append_left hlt, List.take_append_of_le_length hlt.le]
    simp [hlt.ne]
  · simp
  · rw [List.getElem?_eq_none (by simp; omega), List.getElem?_eq_none (by omega)]
    simp [hgt.ne']

theorem occursSince_concat (hi : i < operations.length) :
    OccursSince e (operations ++ [operation]) P i ↔
      OccursSince e operations P i ∨ P (after e operations) operation := by
  constructor
  · rintro ⟨j, hij, hoccurs⟩
    rcases occurs_concat.mp hoccurs with hold | ⟨-, hnew⟩
    · exact Or.inl ⟨j, hij, hold⟩
    · exact Or.inr hnew
  · rintro (⟨j, hij, hold⟩ | hnew)
    · exact ⟨j, hij, occurs_concat.mpr (Or.inl hold)⟩
    · exact ⟨operations.length, hi, occurs_concat.mpr (Or.inr ⟨rfl, hnew⟩)⟩

theorem not_occursSince_last :
    ¬OccursSince e (operations ++ [operation]) P operations.length := by
  rintro ⟨j, hj, hoccurs⟩
  have hlt := hoccurs.lt_length
  simp at hlt
  omega

end Places

/-! ## The place of the code that a unit holds -/

/-- At this place the unit is compiled for the last time, and its code is not discarded later. -/
def Current (e : Engine σ) (operations : List (Operation σ)) (unit manager : Handle)
    (size i : Nat) : Prop :=
  LastCompiled e operations unit manager size i ∧ ¬DiscardedSince e operations unit i

section Current

variable {e : Engine σ} {operations : List (Operation σ)} {operation : Operation σ}
  {unit k : Handle} {n i : Nat}

theorem current_concat : Current e (operations ++ [operation]) unit k n i ↔
    (Current e operations unit k n i ∧
      (∀ k n, ¬Compiles e unit k n (after e operations) operation) ∧
        ¬Discards e unit (after e operations) operation) ∨
      i = operations.length ∧ Compiles e unit k n (after e operations) operation := by
  unfold Current LastCompiled DiscardedSince
  rw [occurs_concat]
  constructor
  · rintro ⟨⟨hold | hnew, hlast⟩, hkept⟩
    · rw [occursSince_concat hold.lt_length] at hlast hkept
      push Not at hlast hkept
      exact Or.inl ⟨⟨⟨hold, hlast.1⟩, hkept.1⟩, hlast.2, hkept.2⟩
    · exact Or.inr hnew
  · rintro (⟨⟨⟨hold, hlast⟩, hkept⟩, hcompiles, hdiscards⟩ | ⟨rfl, hnew⟩)
    · rw [occursSince_concat hold.lt_length, occursSince_concat hold.lt_length]
      push Not
      exact ⟨⟨Or.inl hold, hlast, hcompiles⟩, hkept, hdiscards⟩
    · exact ⟨⟨Or.inr ⟨rfl, hnew⟩, not_occursSince_last⟩, not_occursSince_last⟩

theorem LastCompiled.unique {k' : Handle} {n' i' : Nat}
    (h : LastCompiled e operations unit k n i) (h' : LastCompiled e operations unit k' n' i') :
    i = i' ∧ k = k' ∧ n = n' := by
  have hle : ¬i < i' := by
    intro hlt
    obtain ⟨operation, hi, hc⟩ := h'.1
    exact h.2 ⟨i', hlt, operation, hi, k', n', hc⟩
  have hge : ¬i' < i := by
    intro hlt
    obtain ⟨operation, hi, hc⟩ := h.1
    exact h'.2 ⟨i, hlt, operation, hi, k, n, hc⟩
  obtain rfl : i = i' := by omega
  obtain ⟨operation, hi, hc⟩ := h.1
  obtain ⟨operation', hi', hc'⟩ := h'.1
  rw [hi] at hi'
  cases hi'
  exact ⟨rfl, hc.unique hc'⟩

theorem exists_lastCompiled (h : Occurs e operations (Compiles e unit k n) i) :
    ∃ k n i, LastCompiled e operations unit k n i := by
  induction operations using List.reverseRecOn with
  | nil => exact absurd h not_occurs_nil
  | append_singleton operations operation ih =>
      by_cases hnew : ∃ k n, Compiles e unit k n (after e operations) operation
      · obtain ⟨k, n, hc⟩ := hnew
        exact ⟨k, n, operations.length, occurs_concat.mpr (Or.inr ⟨rfl, hc⟩),
          not_occursSince_last⟩
      · rcases occurs_concat.mp h with hold | ⟨-, hc⟩
        · obtain ⟨k, n, i, hoccurs, hlast⟩ := ih hold
          refine ⟨k, n, i, occurs_concat.mpr (Or.inl hoccurs), ?_⟩
          rw [occursSince_concat hoccurs.lt_length]
          exact not_or.mpr ⟨hlast, hnew⟩
        · exact absurd ⟨k, n, hc⟩ hnew

/-- A unit has no current code exactly if it was never compiled or its code was
discarded since. -/
theorem forall_not_current_iff : (∀ k n i, ¬Current e operations unit k n i) ↔
    (∀ k n i, ¬Occurs e operations (Compiles e unit k n) i) ∨
      ∃ k n i, LastCompiled e operations unit k n i ∧ DiscardedSince e operations unit i := by
  constructor
  · intro hnone
    by_cases hever : ∃ k n i, Occurs e operations (Compiles e unit k n) i
    · obtain ⟨k, n, i, hoccurs⟩ := hever
      obtain ⟨k, n, i, hlast⟩ := exists_lastCompiled hoccurs
      exact Or.inr ⟨k, n, i, hlast, not_not.mp fun hkept => hnone k n i ⟨hlast, hkept⟩⟩
    · push Not at hever
      exact Or.inl hever
  · rintro (hnever | ⟨k', n', i', hlast, hdiscarded⟩) k n i hcurrent
    · exact hnever k n i hcurrent.1.1
    · obtain ⟨rfl, -, -⟩ := hlast.unique hcurrent.1
      exact hcurrent.2 hdiscarded

theorem Current.exists_iff (h : Current e operations unit k n i)
    (Q : Handle → Nat → Nat → Prop) :
    (∃ k n i, LastCompiled e operations unit k n i ∧ ¬DiscardedSince e operations unit i ∧
      Q k n i) ↔ Q k n i := by
  constructor
  · rintro ⟨k', n', i', hlast, -, hq⟩
    obtain ⟨rfl, rfl, rfl⟩ := hlast.unique h.1
    exact hq
  · intro hq
    exact ⟨k, n, i, h.1, h.2, hq⟩

end Current

/-! ## Histories and states -/

section State

variable {s : Session σ} {e : Engine σ} {operations : List (Operation σ)}
  {operation : Operation σ} {unit k : Handle} {u : CompilationUnit σ}

theorem next_le_perform (hs : s.Sound) (e : Engine σ) (operation : Operation σ) :
    s.units.next ≤ (s.perform e operation).units.next ∧
      s.managers.next ≤ (s.perform e operation).managers.next := by
  have hsame : s.units.next ≤ s.units.next ∧ s.managers.next ≤ s.managers.next :=
    ⟨Nat.le_refl _, Nat.le_refl _⟩
  have hmodify (h : Handle) (f : CompilationUnit σ → CompilationUnit σ) :
      s.units.next ≤ (s.modifyUnit h f).units.next ∧
        s.managers.next ≤ (s.modifyUnit h f).managers.next := by
    unfold modifyUnit
    split <;> exact hsame
  cases operation with
  | openManager host config =>
      simp only [perform]
      split
      next hopen => exact ⟨(units_openManager hopen ▸ Nat.le_refl _), next_le_openManager hopen⟩
      next => exact hsame
  | release k =>
      change _ ≤ (s.release k).units.next ∧ _ ≤ (s.release k).managers.next
      unfold release
      split <;> exact hsame
  | createUnit engine => exact ⟨Nat.le_succ _, Nat.le_refl _⟩
  | dropUnit h => exact hsame
  | setSource h source => exact hmodify h _
  | setEngine h engine => exact hmodify h _
  | attach h k =>
      change _ ≤ (s.attach h k).units.next ∧ _ ≤ (s.attach h k).managers.next
      unfold attach
      split
      next => exact hsame
      next => exact hmodify h _
  | detach h => exact hmodify h _
  | predefine h name address => exact hmodify h _
  | undefine h name => exact hmodify h _
  | clearPredefinitions h => exact hmodify h _
  | assemble h =>
      simp only [perform]
      split
      next hassemble => cases attempt_of_assemble hs hassemble <;> exact hsame
      next => exact hsame
  | run h guarded => exact hsame

theorem lt_next_of_occurs {n i : Nat} (h : Occurs e operations (Compiles e unit k n) i) :
    unit < (after e operations).units.next := by
  induction operations using List.reverseRecOn with
  | nil => exact absurd h not_occurs_nil
  | append_singleton operations operation ih =>
      have hs := sound_after e operations
      have hle := (next_le_perform hs e operation).1
      rw [after_concat]
      rcases occurs_concat.mp h with hold | ⟨-, -, ⟨u, hu, -⟩, -⟩
      · exact Nat.lt_of_lt_of_le (ih hold) hle
      · exact Nat.lt_of_lt_of_le (hs.units_issued unit u hu) hle

theorem not_current_of_blob_eq_none {n i : Nat}
    (hu : (after e operations).units.find? unit = some u) (hblob : u.blob = none) :
    ¬Current e operations unit k n i := by
  induction operations using List.reverseRecOn generalizing u with
  | nil => cases hu
  | append_singleton operations operation ih =>
      have hs := sound_after e operations
      rw [after_concat] at hu
      rw [current_concat]
      rintro (⟨hcurrent, hcompiles, hdiscards⟩ | ⟨-, hcompiles⟩)
      · rcases effect_perform hs hu with ⟨hfresh, -⟩ | ⟨old, hold, heffect⟩
        · exact absurd (lt_next_of_occurs hcurrent.1.1) (hfresh ▸ Nat.lt_irrefl _)
        · cases heffect with
          | kept hkept => exact ih hold (hkept ▸ hblob) hcurrent
          | taken _ _ hd => exact hdiscards hd
          | failed _ _ _ hd => exact hdiscards hd
          | loaded _ _ _ _ _ _ _ _ _ hloads => exact hcompiles _ _ hloads.1
      · rcases effect_perform hs hu with ⟨hfresh, -⟩ | ⟨old, hold, heffect⟩
        · obtain ⟨-, ⟨old, hold, -⟩, -⟩ := hcompiles
          exact absurd (hs.units_issued unit old hold) (hfresh ▸ Nat.lt_irrefl _)
        · cases heffect with
          | kept _ _ _ _ _ hnot => exact hnot _ _ hcompiles
          | taken _ _ _ hnot => exact hnot _ _ hcompiles
          | failed _ _ _ _ hnot => exact hnot _ _ hcompiles
          | loaded _ _ _ _ _ heq =>
              rw [heq] at hblob
              cases hblob

/-- Code that a unit holds is that of the place where it was last compiled. Its manager is
the one that loaded it there, and still holds it if no unit has been compiled for that
manager since. -/
theorem current_of_blob {blob : Blob} (hu : (after e operations).units.find? unit = some u)
    (hblob : u.blob = some blob) :
    ∃ i k m, u.manager = some k ∧ (after e operations).managers.find? k = some m ∧
      m.Backs blob ∧ Current e operations unit k blob.bytes.length i ∧
      Occurs e operations (Loads e unit k blob.bytes blob.generation) i ∧
      (¬CompiledSince e operations k i →
        m.region.read? 0 (UInt64.ofNat blob.bytes.length) = some blob.bytes) := by
  induction operations using List.reverseRecOn generalizing u with
  | nil => cases hu
  | append_singleton operations operation ih =>
      have hs := sound_after e operations
      rw [after_concat] at hu ⊢
      obtain ⟨k', m', hk', hm', hbacks⟩ :=
        ((hs.perform e operation).unit_sound unit u hu).blob_backed blob hblob
      rcases held_or_loaded hs hu hblob with
        ⟨old, hold, holdBlob, hmanager, hne, hdiscards⟩ | ⟨old, k, m, -, -, huk, -, -, -, hloads⟩
      · obtain ⟨i, k, m, hk, hm, -, hcurrent, hoccurs, hread⟩ := ih hold holdBlob
        obtain rfl : k' = k := by
          rw [hmanager, hk] at hk'
          exact (Option.some.inj hk').symm
        refine ⟨i, k', m', hk', hm', hbacks, ?_, occurs_concat.mpr (Or.inl hoccurs), ?_⟩
        · exact current_concat.mpr (Or.inl ⟨hcurrent, not_compiles_of_ne hne, hdiscards⟩)
        · unfold CompiledSince at hread ⊢
          rw [occursSince_concat hoccurs.lt_length, not_or]
          rintro ⟨hnone, hnot⟩
          rcases manager_perform hs hm hm' with ⟨rfl, -⟩ | ⟨other, code, hcompiles, -⟩
          · exact hread hnone
          · exact absurd ⟨other, _, hcompiles⟩ hnot
      · obtain ⟨m, after, -, hload, hafter⟩ := hloads.2
        obtain rfl : k' = k := Option.some.inj (hk'.symm.trans huk)
        obtain rfl : m' = after := Option.some.inj (hm'.symm.trans hafter)
        refine ⟨operations.length, k', m', huk, hafter, hbacks, ?_, ?_, ?_⟩
        · exact current_concat.mpr (Or.inr ⟨rfl, hloads.1⟩)
        · exact occurs_concat.mpr (Or.inr ⟨rfl, hloads⟩)
        · intro _
          exact (Manager.loaded_of_load? (Manager.load_eq_some_iff.mp hload).1).read?_eq

end State

end AsmLoader.Session
