import AsmLoader.Proofs.Session.Effect
import AsmLoader.Region.Host
/-!
# Failing touches nothing that is shared

An attempt to assemble fails if there is no manager, if the engine refuses the source, or if its
code is too long. In none of these cases a manager or another unit changes; all that is left of
the attempt are the diagnostics of the unit.
-/

namespace AsmLoader

open Region (Host)

namespace CompilationUnit

variable {σ : Type} (u : CompilationUnit σ) (diagnostics : List Diagnostic)

theorem diagnostics_fail_ne_nil : (u.fail diagnostics).diagnostics ≠ [] := by
  unfold fail
  cases diagnostics <;> simp

end CompilationUnit

namespace Session

variable {σ : Type} {s : Session σ} {h : Handle} {e : Engine σ}

theorem Attempt.eq_of_noManager {next : Session σ}
    (hattempt : Attempt e s h (.error .noManager) next) : next = s := by
  cases hattempt with
  | detached => rfl

theorem Attempt.unit_of_failed {next : Session σ} (hattempt : Attempt e s h (.ok .failed) next) :
    ∃ u v m, s.units.find? h = some u ∧ s.managerOf u = some m ∧
      Refused (e.assemble u.engine u.expandedSource m.target).1 m ∧
      next.units.find? h = some v ∧ v.code? = none ∧ v.diagnostics ≠ [] ∧
      v.errors = Diagnostic.render v.diagnostics := by
  cases hattempt with
  | failed u k m answer engine diagnostics hu hk hm hasked hrefused =>
      refine ⟨u, (u.reset.setEngine engine).fail diagnostics, m, hu,
        managerOf_eq_some.mpr ⟨k, hk, hm⟩, ?_, ?_, rfl,
        CompilationUnit.diagnostics_fail_ne_nil _ _, rfl⟩
      · rw [hasked]
        exact hrefused
      · dsimp only
        rw [Registry.find?_set, if_pos rfl, hu]
        rfl

/-- After any operations, an attempt to assemble a unit that fails leaves every manager as it is,
its region and the number of its loads included, and every other unit with what it would be
answered when it is run. Without a manager the unit itself is left as it is; otherwise the engine
refused its source or gave too much code, and the unit has diagnostics and their text in place of
code. -/
theorem failed_assemble_frame (e : Engine σ) (operations : List (Operation σ)) (unit : Handle)
    (result : Except UnitError Outcome) (next : Session σ)
    (hassemble : (after e operations).assemble e unit = some (result, next))
    (hfails : result = .ok .failed ∨ result = .error .noManager) :
    let s := after e operations
    (∀ k, next.managers.find? k = s.managers.find? k) ∧
      (∀ other, other ≠ unit → next.units.find? other = s.units.find? other ∧
        ∀ guarded, next.run other guarded = s.run other guarded) ∧
      (result = .error .noManager → next.units.find? unit = s.units.find? unit) ∧
      (result = .ok .failed → ∃ u v m, s.units.find? unit = some u ∧ s.managerOf u = some m ∧
        Refused (e.assemble u.engine u.expandedSource m.target).1 m ∧
        next.units.find? unit = some v ∧ v.code? = none ∧ v.diagnostics ≠ [] ∧
        v.errors = Diagnostic.render v.diagnostics) := by
  intro s
  have hs : s.Sound := sound_after e operations
  have hresult : ∀ entry n, result ≠ .ok (.compiled entry n) := by
    rintro entry n rfl
    rcases hfails with heq | heq <;> cases heq
  obtain ⟨hmanagers, hothers⟩ := assemble_frame hs hassemble hresult
  refine ⟨hmanagers, hothers, ?_, ?_⟩
  · rintro rfl
    rw [(attempt_of_assemble hs hassemble).eq_of_noManager]
  · rintro rfl
    exact (attempt_of_assemble hs hassemble).unit_of_failed

/-- A unit whose code is one byte too long for the manager that it shares with another one, which
may still be run. -/
theorem failed_assemble_frame_too_long :
    let e := Engine.ofFunction fun source _ =>
      .ok (if source = "" then [0xC3] else List.replicate 17 0x90)
    let operations : List (Operation Unit) :=
      [.openManager Host.standard (.ofCapacity 16), .createUnit (), .createUnit (),
        .attach 0 0, .attach 1 0, .assemble 0, .setSource 1 "nop"]
    ∃ next, (after e operations).assemble e 1 = some (.ok .failed, next) ∧
      (∀ k, next.managers.find? k = (after e operations).managers.find? k) ∧
      next.run 0 true = some (.ok ⟨0x7F0000000000, true⟩) ∧
      ∃ v, next.units.find? 1 = some v ∧ v.code? = none ∧ v.diagnostics ≠ [] ∧
        v.errors = Diagnostic.render v.diagnostics := by
  intro e operations
  have hfailed : ((after e operations).assemble e 1).map Prod.fst = some (.ok .failed) := by
    decide +kernel
  have hrun : (after e operations).run 0 true = some (.ok ⟨0x7F0000000000, true⟩) := by
    decide +kernel
  obtain ⟨⟨result, next⟩, hassemble, rfl⟩ := Option.map_eq_some_iff.mp hfailed
  obtain ⟨hmanagers, hothers, -, hunit⟩ :=
    failed_assemble_frame e operations 1 _ next hassemble (Or.inl rfl)
  obtain ⟨u, v, m, -, -, -, hv, hcode, hdiagnostics, herrors⟩ := hunit rfl
  have hsame : next.run 0 true = (after e operations).run 0 true :=
    (hothers 0 (by decide)).2 true
  exact ⟨next, hassemble, hmanagers, hsame.trans hrun, v, hv, hcode, hdiagnostics, herrors⟩

end Session

end AsmLoader
