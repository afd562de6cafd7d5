import AsmLoader.Proofs.Session.LoadNumbers
import AsmLoader.Region.Host
/-!
# What an attempt to run is answered

Whether the code of a unit may be run is decided by a number that the unit keeps and one that its
manager counts. The answer is the same as if the whole history were looked at: whether the unit
was compiled, what was done to it since, and which units were compiled for its manager since.
-/

namespace AsmLoader.Session

open Region (Host)

variable {σ : Type} {e : Engine σ} {operations : List (Operation σ)} {unit : Handle}
  {u : CompilationUnit σ}

theorem run_eq_of_blob_eq_none (hu : (after e operations).units.find? unit = some u)
    (hblob : u.blob = none) (guarded : Bool) :
    (after e operations).run unit guarded = some (.error .notCompiled) := by
  simp [run, hu, CompilationUnit.run, hblob]

theorem run_eq_of_blob {blob : Blob} {k : Handle} {m : Manager}
    (hu : (after e operations).units.find? unit = some u) (hblob : u.blob = some blob)
    (hk : u.manager = some k) (hm : (after e operations).managers.find? k = some m)
    (guarded : Bool) :
    (after e operations).run unit guarded = some
      (if blob.bytes.length = 0 then .error .emptyProgram
      else if m.generation = blob.generation then .ok ⟨blob.entry, guarded⟩
      else .error .overwritten) := by
  have hmanager := managerOf_eq_some.mpr ⟨k, hk, hm⟩
  simp only [run, hu, Option.bind_eq_bind, Option.bind_some, CompilationUnit.run, hblob,
    hmanager]
  by_cases hempty : blob.bytes = []
  · simp [hempty]
  · simp [hempty]

/-- After any operations on any managers and units, what an attempt to run a unit is answered
tells, and is told by, what has happened: the unit was never compiled, or its code was discarded
since; else it was compiled to no bytes; else some unit was compiled for its manager since; else
it runs. The last two are told apart by numbers, so no manager may have loaded code as often as
64 bits can count. Attempts of other units to assemble that fail do not matter. -/
theorem run_answers (e : Engine σ) (operations : List (Operation σ)) (unit : Handle)
    (guarded : Bool) (hunit : ((after e operations).units.find? unit).isSome) :
    let s := after e operations
    (s.run unit guarded = some (.error .notCompiled) ↔
        (∀ k n i, ¬Occurs e operations (Compiles e unit k n) i) ∨
          ∃ k n i, LastCompiled e operations unit k n i ∧ DiscardedSince e operations unit i) ∧
      (s.run unit guarded = some (.error .emptyProgram) ↔
        ∃ k i, LastCompiled e operations unit k 0 i ∧ ¬DiscardedSince e operations unit i) ∧
      (FewLoads e operations →
        (s.run unit guarded = some (.error .overwritten) ↔
          ∃ k n i, LastCompiled e operations unit k n i ∧ ¬DiscardedSince e operations unit i ∧
            n ≠ 0 ∧ CompiledSince e operations k i) ∧
        ((∃ call, s.run unit guarded = some (.ok call)) ↔
          ∃ k n i, LastCompiled e operations unit k n i ∧ ¬DiscardedSince e operations unit i ∧
            n ≠ 0 ∧ ¬CompiledSince e operations k i)) ∧
      s.run unit guarded ≠ some (.error .noManager) ∧
      ∀ other result next, other ≠ unit → s.assemble e other = some (result, next) →
        (∀ entry size, result ≠ .ok (.compiled entry size)) →
          next.run unit guarded = s.run unit guarded := by
  intro s
  obtain ⟨u, hu⟩ := Option.isSome_iff_exists.mp hunit
  have hframe : ∀ other result next, other ≠ unit → s.assemble e other = some (result, next) →
      (∀ entry size, result ≠ .ok (.compiled entry size)) →
        next.run unit guarded = s.run unit guarded := by
    intro other result next hne hassemble hresult
    obtain ⟨-, hothers⟩ := assemble_frame (sound_after e operations) hassemble hresult
    exact (hothers unit hne.symm).2 guarded
  -- All four answers in the form: of the last time the unit was compiled, this is true.
  have hempty : (∃ k i, LastCompiled e operations unit k 0 i ∧
      ¬DiscardedSince e operations unit i) ↔
        ∃ k n i, LastCompiled e operations unit k n i ∧ ¬DiscardedSince e operations unit i ∧
          n = 0 := by
    constructor
    · rintro ⟨k, i, hlast, hkept⟩
      exact ⟨k, 0, i, hlast, hkept, rfl⟩
    · rintro ⟨k, n, i, hlast, hkept, rfl⟩
      exact ⟨k, i, hlast, hkept⟩
  rw [← forall_not_current_iff, hempty]
  cases hblob : u.blob with
  | none =>
      have hnone (k : Handle) (n i : Nat) : ¬Current e operations unit k n i :=
        not_current_of_blob_eq_none hu hblob
      have hnot (Q : Handle → Nat → Nat → Prop) : ¬∃ k n i,
          LastCompiled e operations unit k n i ∧ ¬DiscardedSince e operations unit i ∧
          Q k n i := by
        rintro ⟨k, n, i, hlast, hkept, -⟩
        exact hnone k n i ⟨hlast, hkept⟩
      have hrun : s.run unit guarded = some (.error .notCompiled) :=
        run_eq_of_blob_eq_none hu hblob guarded
      exact ⟨iff_of_true hrun hnone, iff_of_false (by simp [hrun]) (hnot _),
        fun _ => ⟨iff_of_false (by simp [hrun]) (hnot _), iff_of_false (by simp [hrun])
          (hnot _)⟩,
        by simp [hrun], hframe⟩
  | some blob =>
      obtain ⟨i, k, m, hk, hm, -, hcurrent, hloads, -⟩ := current_of_blob hu hblob
      have hrun : s.run unit guarded = _ := run_eq_of_blob hu hblob hk hm guarded
      have hsome : ¬∀ k n i, ¬Current e operations unit k n i := fun hnone =>
        hnone k blob.bytes.length i hcurrent
      have hlater (hfew : FewLoads e operations) :
          CompiledSince e operations k i ↔ m.generation ≠ blob.generation := by
        rw [Ne, generation_eq_iff hfew hm hloads, not_not]
      rw [hcurrent.exists_iff fun _ n _ => n = 0,
        hcurrent.exists_iff fun k n i => n ≠ 0 ∧ CompiledSince e operations k i,
        hcurrent.exists_iff fun k n i => n ≠ 0 ∧ ¬CompiledSince e operations k i]
      -- What is left compares the length of the code with zero and two load numbers.
      by_cases hsize : blob.bytes.length = 0
      · rw [if_pos hsize] at hrun
        exact ⟨iff_of_false (by simp [hrun]) hsome, by simp [hrun, hsize],
          fun _ => by simp [hrun, hsize], by simp [hrun], hframe⟩
      · rw [if_neg hsize] at hrun
        by_cases hsame : m.generation = blob.generation
        · rw [if_pos hsame] at hrun
          exact ⟨iff_of_false (by simp [hrun]) hsome, by simp [hrun, hsize],
            fun hfew => by simp [hrun, hsize, hlater hfew, hsame], by simp [hrun], hframe⟩
        · rw [if_neg hsame] at hrun
          exact ⟨iff_of_false (by simp [hrun]) hsome, by simp [hrun, hsize],
            fun hfew => by simp [hrun, hsize, hlater hfew, hsame], by simp [hrun], hframe⟩

/-- A unit that shares its manager with another one, which is then assembled to no bytes at all,
finds its code overwritten. -/
theorem run_answers_overwritten_by_no_bytes :
    let e := Engine.ofFunction fun source _ => .ok (if source = "" then [] else [0x90, 0xC3])
    let operations : List (Operation Unit) :=
      [.openManager Host.standard (.ofCapacity 4096), .createUnit (), .createUnit (),
        .attach 0 0, .attach 1 0, .setSource 0 "nop", .assemble 0, .assemble 1]
    ((after e operations).units.find? 0).isSome ∧ FewLoads e operations ∧
      (after e operations).run 0 true = some (.error .overwritten) ∧
      ∃ k n i, LastCompiled e operations 0 k n i ∧ ¬DiscardedSince e operations 0 i ∧ n ≠ 0 ∧
        CompiledSince e operations k i := by
  intro e operations
  have hunit : ((after e operations).units.find? 0).isSome := by decide +kernel
  have hrun : (after e operations).run 0 true = some (.error .overwritten) := by decide +kernel
  have hfew : FewLoads e operations := fewLoads_of_length_lt (by decide)
  obtain ⟨-, -, hnumbers, -⟩ := run_answers e operations 0 true hunit
  exact ⟨hunit, hfew, hrun, (hnumbers hfew).1.mp hrun⟩

end AsmLoader.Session
