import AsmLoader.Proofs.Session.LastCompile
/-!
# The numbers of loads

A manager counts its loads in 64 bits, and code is known by the number of its load. The number
that a manager has reached is that of its loads in the whole history, and the number that a unit
keeps that of the loads up to the place where it was last compiled. As long as no manager has
loaded code so often that 64 bits cannot count it, equal numbers mean that there was no load in
between.
-/

namespace AsmLoader.Session

variable {σ : Type} {s : Session σ} {e : Engine σ} {operations : List (Operation σ)}
  {operation : Operation σ} {unit k : Handle} {m : Manager}

/-! ## Counting -/

theorem loadsFor_iff : s.loadsFor e k operation = true ↔
    ∃ unit n, Compiles e unit k n s operation := by
  constructor
  · intro h
    cases operation with
    | assemble unit =>
        simp only [loadsFor] at h
        split at h
        next entry n next hassemble =>
          obtain ⟨u, hu, hk⟩ := (Option.any_eq_true _ _).mp h
          exact ⟨unit, n, rfl, ⟨u, hu, of_decide_eq_true hk⟩, entry, next, hassemble⟩
        next => cases h
    | _ => cases h
  · rintro ⟨unit, n, rfl, ⟨u, hu, hk⟩, entry, next, hassemble⟩
    simp [loadsFor, hassemble, hu, hk]

theorem loadsFrom_concat (s : Session σ) :
    loadsFrom e s k (operations ++ [operation]) =
      loadsFrom e s k operations +
        ((operations.foldl (perform e) s).loadsFor e k operation).toNat := by
  induction operations generalizing s with
  | nil => simp [loadsFrom]
  | cons first rest ih =>
      rw [List.cons_append, loadsFrom, ih, loadsFrom, List.foldl_cons, Nat.add_assoc]

@[simp] theorem loadCount_concat : loadCount e (operations ++ [operation]) k =
    loadCount e operations k + ((after e operations).loadsFor e k operation).toNat :=
  loadsFrom_concat empty

theorem loadCount_le_length : loadCount e operations k ≤ operations.length := by
  induction operations using List.reverseRecOn with
  | nil => exact Nat.le_refl _
  | append_singleton operations operation ih =>
      have hone := Bool.toNat_le ((after e operations).loadsFor e k operation)
      rw [loadCount_concat, List.length_append, List.length_singleton]
      omega

theorem fewLoads_of_length_lt (h : operations.length < UInt64.size) : FewLoads e operations :=
  fun _ => loadCount_le_length.trans_lt h

theorem loadCount_take (i : Nat) (hi : i < operations.length) :
    loadCount e (operations.take (i + 1)) k ≤ loadCount e operations k ∧
      (loadCount e (operations.take (i + 1)) k = loadCount e operations k ↔
        ¬CompiledSince e operations k i) := by
  induction operations using List.reverseRecOn with
  | nil => cases hi
  | append_singleton operations operation ih =>
      rw [List.length_append, List.length_singleton] at hi
      by_cases hlast : i = operations.length
      · subst hlast
        rw [List.take_of_length_le (by simp)]
        exact ⟨Nat.le_refl _, iff_of_true rfl not_occursSince_last⟩
      · have hbefore : i < operations.length := by omega
        obtain ⟨hle, heq⟩ := ih hbefore
        unfold CompiledSince at heq ⊢
        rw [List.take_append_of_le_length (by omega), loadCount_concat,
          occursSince_concat hbefore, ← loadsFor_iff, not_or, ← heq]
        cases (after e operations).loadsFor e k operation with
        | false => exact ⟨hle, by simp⟩
        | true => exact ⟨by simp; omega, by simp; omega⟩

theorem loadCount_eq_zero (h : (after e operations).managers.next ≤ k) :
    loadCount e operations k = 0 := by
  induction operations using List.reverseRecOn with
  | nil => rfl
  | append_singleton operations operation ih =>
      have hs := sound_after e operations
      rw [after_concat] at h
      have hle := (next_le_perform hs e operation).2.trans h
      have hnone : (after e operations).loadsFor e k operation = false := by
        rw [← Bool.not_eq_true, loadsFor_iff]
        rintro ⟨unit, n, -, ⟨u, hu, hk⟩, -⟩
        obtain ⟨m, hm⟩ := (hs.unit_sound unit u hu).manager_live k hk
        exact Nat.not_lt.mpr hle (hs.managers_issued k m hm)
      rw [loadCount_concat, ih hle, hnone]
      rfl

/-! ## What a manager has counted -/

theorem manager_before_or_new (hs : s.Sound)
    (hm : (s.perform e operation).managers.find? k = some m) :
    (∃ m, s.managers.find? k = some m) ∨
      k = s.managers.next ∧ m.generation = 0 ∧ ∀ unit, operation ≠ .assemble unit := by
  have hmodify {h : Handle} {f : CompilationUnit σ → CompilationUnit σ}
      (hm : (s.modifyUnit h f).managers.find? k = some m) : ∃ m, s.managers.find? k = some m :=
    ⟨m, managers_modifyUnit s h f ▸ hm⟩
  cases operation with
  | openManager host config =>
      simp only [perform] at hm
      split at hm
      next hopen =>
        unfold openManager at hopen
        split at hopen
        next => cases hopen
        next =>
          split at hopen
          next => cases hopen
          next new hnew =>
            cases hopen
            dsimp only at hm
            rw [Registry.find?_add hs.managers_issued] at hm
            split at hm
            next hk =>
              cases hm
              refine Or.inr ⟨hk, Manager.generation_of_create hnew, fun unit h => ?_⟩
              cases h
            next => exact Or.inl ⟨m, hm⟩
      next => exact Or.inl ⟨m, hm⟩
  | release k' =>
      change (s.release k').managers.find? k = some m at hm
      unfold release at hm
      split at hm
      next => exact Or.inl ⟨m, hm⟩
      next =>
        dsimp only at hm
        rw [Registry.find?_erase] at hm
        split at hm
        next => cases hm
        next => exact Or.inl ⟨m, hm⟩
  | createUnit engine => exact Or.inl ⟨m, hm⟩
  | dropUnit h => exact Or.inl ⟨m, hm⟩
  | setSource h source => exact Or.inl (hmodify hm)
  | setEngine h engine => exact Or.inl (hmodify hm)
  | attach h k' =>
      change (s.attach h k').managers.find? k = some m at hm
      unfold attach at hm
      split at hm
      next => exact Or.inl ⟨m, hm⟩
      next => exact Or.inl (hmodify hm)
  | detach h => exact Or.inl (hmodify hm)
  | predefine h name address => exact Or.inl (hmodify hm)
  | undefine h name => exact Or.inl (hmodify hm)
  | clearPredefinitions h => exact Or.inl (hmodify hm)
  | assemble h =>
      left
      cases hassemble : s.assemble e h with
      | none =>
          simp only [perform, hassemble] at hm
          exact ⟨m, hm⟩
      | some answer =>
          obtain ⟨result, next⟩ := answer
          rw [perform_assemble hassemble] at hm
          rcases find?_managers_assemble hs hassemble with
            ⟨hsame, -⟩ | ⟨k', m', _, _, -, hm', -, hmanagers⟩
          · exact ⟨m, hsame k ▸ hm⟩
          · rw [hmanagers] at hm
            split at hm
            next hk => exact ⟨m', hk ▸ hm'⟩
            next => exact ⟨m, hm⟩
  | run h guarded => exact Or.inl ⟨m, hm⟩

/-- The number that a manager has reached is that of its loads in the history. -/
theorem generation_after (hm : (after e operations).managers.find? k = some m) :
    m.generation = UInt64.ofNat (loadCount e operations k) := by
  induction operations using List.reverseRecOn generalizing m with
  | nil => cases hm
  | append_singleton operations operation ih =>
      have hs := sound_after e operations
      rw [after_concat] at hm
      have hloads (hnot : ∀ unit n, ¬Compiles e unit k n (after e operations) operation) :
          (after e operations).loadsFor e k operation = false := by
        rw [← Bool.not_eq_true, loadsFor_iff]
        rintro ⟨unit, n, hcompiles⟩
        exact hnot unit n hcompiles
      rw [loadCount_concat]
      rcases manager_before_or_new hs hm with ⟨old, hold⟩ | ⟨hk, hzero, hne⟩
      · rcases manager_perform hs hold hm with ⟨rfl, hnot⟩ | ⟨unit, code, hcompiles, hload⟩
        · rw [hloads hnot, ih hold]
          rfl
        · rw [loadsFor_iff.mpr ⟨unit, _, hcompiles⟩,
            (Manager.loaded_of_load? hload).generation_eq, ih hold, UInt64.ofNat_add]
          rfl
      · rw [hloads fun unit n => not_compiles_of_ne (hne unit) k n,
          loadCount_eq_zero hk.ge, hzero]
        rfl

theorem toNat_generation_after (hfew : FewLoads e operations)
    (hm : (after e operations).managers.find? k = some m) :
    m.generation.toNat = loadCount e operations k := by
  rw [generation_after hm, UInt64.toNat_ofNat_of_lt' (hfew k)]

/-! ## The number of the code that a unit holds -/

section Blob

variable {bytes : Code} {number : UInt64} {i : Nat}

theorem after_take_succ (hi : operations[i]? = some operation) :
    after e (operations.take (i + 1)) = (after e (operations.take i)).perform e operation := by
  rw [List.take_add_one, hi, Option.toList_some, after_concat]

theorem number_of_loads (h : Occurs e operations (Loads e unit k bytes number) i) :
    number = UInt64.ofNat (loadCount e (operations.take (i + 1)) k) ∧
      1 ≤ loadCount e (operations.take (i + 1)) k := by
  obtain ⟨operation, hi, hcompiles, m, loaded, -, hload, hloaded⟩ := h
  obtain ⟨-, rfl⟩ := Manager.load_eq_some_iff.mp hload
  constructor
  · rw [← after_take_succ hi] at hloaded
    exact generation_after hloaded
  · rw [List.take_add_one, hi, Option.toList_some, loadCount_concat,
      loadsFor_iff.mpr ⟨unit, _, hcompiles⟩]
    exact Nat.le_add_left _ _

variable (hfew : FewLoads e operations) (hm : (after e operations).managers.find? k = some m)
  (hloads : Occurs e operations (Loads e unit k bytes number) i)

include hfew hloads

theorem toNat_number_of_loads :
    number.toNat = loadCount e (operations.take (i + 1)) k := by
  have hle := (loadCount_take i hloads.lt_length (e := e) (k := k)).1
  rw [(number_of_loads hloads).1, UInt64.toNat_ofNat_of_lt' (hle.trans_lt (hfew k))]

include hm

/-- A manager has reached a later number exactly if a unit has been compiled for it since. -/
theorem generation_eq_iff : m.generation = number ↔ ¬CompiledSince e operations k i := by
  rw [← (loadCount_take i hloads.lt_length).2, ← UInt64.toNat_inj,
    toNat_generation_after hfew hm, toNat_number_of_loads hfew hloads, eq_comm]

theorem number_between : 1 ≤ number ∧ number ≤ m.generation := by
  rw [UInt64.le_iff_toNat_le, UInt64.le_iff_toNat_le, toNat_generation_after hfew hm,
    toNat_number_of_loads hfew hloads]
  exact ⟨(number_of_loads hloads).2, (loadCount_take i hloads.lt_length).1⟩

end Blob

end AsmLoader.Session
