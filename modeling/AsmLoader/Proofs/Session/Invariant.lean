import AsmLoader.Proofs.Manager.Loads
import AsmLoader.Session.History
/-!
# What holds of a session at all times

A manager has room for its capacity and for its last load. A unit that holds code is attached to
a live manager, at whose base the code starts. Every operation on any unit or manager keeps this.
-/

namespace AsmLoader

open Region (Config Host)

/-- The code starts where the manager loads code, and the manager has the capacity for it. -/
structure Manager.Backs (m : Manager) (blob : Blob) : Prop where
  entry_eq : blob.entry = m.base
  length_le : blob.bytes.length ≤ m.capacity.toNat

namespace Manager

variable {m after : Manager} {code : Code}

theorem Loaded.backs (h : Loaded m code after) :
    after.Backs ⟨m.base, code, after.generation⟩ := by
  refine ⟨h.base_eq.symm, ?_⟩
  rw [capacity, h.config_eq]
  exact h.length_le

theorem Backs.load {blob : Blob} (hb : m.Backs blob) (h : Loaded m code after) :
    after.Backs blob := by
  constructor
  · rw [hb.entry_eq, h.base_eq]
  · rw [capacity, h.config_eq]
    exact hb.length_le

end Manager

/-- Why assembling fails: the engine refuses the source, or its code is too long for
the manager. -/
def Refused (answer : Answer) (m : Manager) : Prop :=
  (∃ diagnostics, answer = .error diagnostics) ∨
    ∃ code, answer = .ok code ∧ m.capacity.toNat < code.length

/-- A unit fails with diagnostics, and its manager is left alone, or it succeeds with code that
the engine gave and the manager loaded. -/
theorem CompilationUnit.assemble_cases {σ : Type} (e : Engine σ) {m : Manager} (hm : m.HasRoom)
    (u : CompilationUnit σ) :
    let asked := e.assemble u.engine u.expandedSource m.target
    (∃ diagnostics, Refused asked.1 m ∧
        u.assemble e m = (.failed, m, (u.reset.setEngine asked.2).fail diagnostics)) ∨
      ∃ code loaded, asked.1 = .ok code ∧ m.load? code = some loaded ∧
        u.assemble e m = (.compiled m.base code.length, loaded,
          (u.reset.setEngine asked.2).succeed ⟨m.base, code, loaded.generation⟩) := by
  intro asked
  unfold assemble
  split
  next diagnostics engine hasked =>
    have hanswer : asked.1 = .error diagnostics := congrArg Prod.fst hasked
    have hengine : asked.2 = engine := congrArg Prod.snd hasked
    rw [hanswer, hengine]
    exact Or.inl ⟨diagnostics, Or.inl ⟨diagnostics, rfl⟩, rfl⟩
  next code engine hasked =>
    have hanswer : asked.1 = .ok code := congrArg Prod.fst hasked
    have hengine : asked.2 = engine := congrArg Prod.snd hasked
    rw [hanswer, hengine]
    rcases hm.load_cases code with ⟨hlt, -, hload⟩ | ⟨loaded, hsome, hload⟩
    · refine Or.inl ⟨[outOfMemory code.length m.capacity], Or.inr ⟨code, rfl, hlt⟩, ?_⟩
      rw [hload]
    · refine Or.inr ⟨code, loaded, rfl, hsome, ?_⟩
      rw [hload, ← (Manager.loaded_of_load? hsome).base_eq]

namespace Session

variable {σ : Type} {s : Session σ} {u : CompilationUnit σ} {h : Handle}

structure UnitSound (managers : Registry Manager) (u : CompilationUnit σ) : Prop where
  manager_live : ∀ k, u.manager = some k → ∃ m, managers.find? k = some m
  blob_backed : ∀ blob, u.blob = some blob →
    ∃ k m, u.manager = some k ∧ managers.find? k = some m ∧ m.Backs blob

structure Sound (s : Session σ) : Prop where
  managers_issued : s.managers.Issued
  units_issued : s.units.Issued
  hasRoom : ∀ k m, s.managers.find? k = some m → m.HasRoom
  unit_sound : ∀ h u, s.units.find? h = some u → UnitSound s.managers u

theorem managerOf_eq_some {m : Manager} :
    s.managerOf u = some m ↔ ∃ k, u.manager = some k ∧ s.managers.find? k = some m := by
  rw [managerOf, Option.bind_eq_some_iff]

/-! ## Units -/

namespace UnitSound

variable {managers after : Registry Manager}

theorem mono (hu : UnitSound managers u)
    (hafter : ∀ k m, u.manager = some k → managers.find? k = some m →
      after.find? k = some m ∨
        ∃ code m', after.find? k = some m' ∧ Manager.Loaded m code m') :
    UnitSound after u := by
  constructor
  · intro k hk
    obtain ⟨m, hm⟩ := hu.manager_live k hk
    rcases hafter k m hk hm with hsame | ⟨code, m', hm', -⟩
    · exact ⟨m, hsame⟩
    · exact ⟨m', hm'⟩
  · intro blob hblob
    obtain ⟨k, m, hk, hm, hbacks⟩ := hu.blob_backed blob hblob
    rcases hafter k m hk hm with hsame | ⟨code, m', hm', hload⟩
    · exact ⟨k, m, hk, hsame, hbacks⟩
    · exact ⟨k, m', hk, hm', hbacks.load hload⟩

theorem create (engine : σ) : UnitSound managers (CompilationUnit.create engine) := by
  constructor
  · intro k hk
    cases hk
  · intro blob hblob
    cases hblob

theorem detach (u : CompilationUnit σ) : UnitSound managers u.detach := by
  constructor
  · intro k hk
    cases hk
  · intro blob hblob
    cases hblob

theorem congr {v : CompilationUnit σ} (hu : UnitSound managers u)
    (hmanager : v.manager = u.manager) (hblob : v.blob = u.blob) : UnitSound managers v := by
  constructor
  · intro k hk
    exact hu.manager_live k (hmanager ▸ hk)
  · intro blob hb
    rw [hmanager]
    exact hu.blob_backed blob (hblob ▸ hb)

theorem of_blob_eq_none (hblob : u.blob = none)
    (hlive : ∀ k, u.manager = some k → ∃ m, managers.find? k = some m) :
    UnitSound managers u := by
  refine ⟨hlive, ?_⟩
  intro blob hb
  rw [hblob] at hb
  cases hb

theorem attach {k : Handle} {m : Manager} (hu : UnitSound managers u)
    (hm : managers.find? k = some m) : UnitSound managers (u.attach k) := by
  have hlive : ∀ k', some k = some k' → ∃ m, managers.find? k' = some m := by
    rintro _ ⟨⟩
    exact ⟨m, hm⟩
  unfold CompilationUnit.attach
  split
  next => exact of_blob_eq_none rfl hlive
  next hsame =>
    refine ⟨hlive, ?_⟩
    intro blob hblob
    obtain ⟨k', m', hk', hm', hbacks⟩ := hu.blob_backed blob hblob
    have hkk : k' = k := by simpa [hk'] using hsame
    subst hkk
    exact ⟨k', m', rfl, hm', hbacks⟩

end UnitSound

/-! ## Operations -/

theorem sound_empty : (empty : Session σ).Sound := by
  refine ⟨Registry.issued_empty, Registry.issued_empty, ?_, ?_⟩
  · intro k m hm
    cases hm
  · intro h u hu
    cases hu

theorem managers_modifyUnit (s : Session σ) (h : Handle)
    (f : CompilationUnit σ → CompilationUnit σ) : (s.modifyUnit h f).managers = s.managers := by
  unfold modifyUnit
  split <;> rfl

theorem find?_units_modifyUnit (s : Session σ) (h other : Handle)
    (f : CompilationUnit σ → CompilationUnit σ) :
    (s.modifyUnit h f).units.find? other =
      if other = h then (s.units.find? other).map f else s.units.find? other := by
  unfold modifyUnit
  split
  next hnone =>
    by_cases hother : other = h
    · rw [if_pos hother, hother, hnone, Option.map_none]
    · rw [if_neg hother]
  next u hu =>
    change (s.units.set h (f u)).find? other = _
    rw [Registry.find?_set]
    by_cases hother : other = h
    · rw [if_pos hother, if_pos hother, hother, hu, Option.map_some, Option.map_some]
    · rw [if_neg hother, if_neg hother]

theorem issued_units_modifyUnit (hs : s.units.Issued) (h : Handle)
    (f : CompilationUnit σ → CompilationUnit σ) : (s.modifyUnit h f).units.Issued := by
  unfold modifyUnit
  split
  next => exact hs
  next u _ => exact hs.set h (f u)

/-- An attempt to assemble a unit, with its answer and the session it leaves: nothing is done for
a unit without a manager; else the engine is asked for the target of the manager, and only code
that the manager loads touches anything but the unit. -/
inductive Attempt (e : Engine σ) (s : Session σ) (h : Handle) :
    Except UnitError Outcome → Session σ → Prop where
  | detached (u : CompilationUnit σ)
      (unit_eq : s.units.find? h = some u) (manager_eq : s.managerOf u = none) :
      Attempt e s h (.error .noManager) s
  | failed (u : CompilationUnit σ) (k : Handle) (m : Manager) (answer : Answer) (engine : σ)
      (diagnostics : List Diagnostic)
      (unit_eq : s.units.find? h = some u) (manager_eq : u.manager = some k)
      (find_eq : s.managers.find? k = some m)
      (asked_eq : e.assemble u.engine u.expandedSource m.target = (answer, engine))
      (refused : Refused answer m) :
      Attempt e s h (.ok .failed)
        ⟨s.managers.set k m, s.units.set h ((u.reset.setEngine engine).fail diagnostics),
          s.fixedLive⟩
  | compiled (u : CompilationUnit σ) (k : Handle) (m loaded : Manager) (code : Code) (engine : σ)
      (unit_eq : s.units.find? h = some u) (manager_eq : u.manager = some k)
      (find_eq : s.managers.find? k = some m)
      (asked_eq : e.assemble u.engine u.expandedSource m.target = (.ok code, engine))
      (load_eq : m.load? code = some loaded) :
      Attempt e s h (.ok (.compiled m.base code.length))
        ⟨s.managers.set k loaded,
          s.units.set h ((u.reset.setEngine engine).succeed ⟨m.base, code, loaded.generation⟩),
          s.fixedLive⟩

theorem exists_attempt (hs : s.Sound) (e : Engine σ) (hu : s.units.find? h = some u) :
    ∃ result next, s.assemble e h = some (result, next) ∧ Attempt e s h result next := by
  cases hmanager : s.managerOf u with
  | none =>
      refine ⟨_, _, ?_, .detached u hu hmanager⟩
      simp only [assemble, hu, hmanager, Option.bind_eq_bind, Option.bind_some]
      split
      next _ _ _ hfalse => cases hfalse
      next => rfl
  | some m =>
      obtain ⟨k, hk, hm⟩ := managerOf_eq_some.mp hmanager
      have hassemble : s.assemble e h = some (.ok (u.assemble e m).1,
          ⟨s.managers.set k (u.assemble e m).2.1, s.units.set h (u.assemble e m).2.2,
            s.fixedLive⟩) := by
        simp only [assemble, hu, hmanager, hk, Option.bind_eq_bind, Option.bind_some]
        rfl
      refine ⟨_, _, hassemble, ?_⟩
      rcases u.assemble_cases e (hs.hasRoom k m hm) with
        ⟨diagnostics, hrefused, heq⟩ | ⟨code, loaded, hcode, hload, heq⟩
      · rw [heq]
        exact .failed u k m _ _ diagnostics hu hk hm rfl hrefused
      · rw [heq]
        exact .compiled u k m loaded code _ hu hk hm (Prod.ext hcode rfl) hload

theorem attempt_of_assemble (hs : s.Sound) {e : Engine σ} {result : Except UnitError Outcome}
    {next : Session σ} (hassemble : s.assemble e h = some (result, next)) :
    Attempt e s h result next := by
  cases hu : s.units.find? h with
  | none => simp [assemble, hu] at hassemble
  | some u =>
      obtain ⟨result', next', heq, hattempt⟩ := exists_attempt hs e hu
      rw [heq] at hassemble
      cases hassemble
      exact hattempt

namespace Sound

theorem openManager (hs : s.Sound) {host : Host} {config : Config} {next : Session σ}
    (hopen : s.openManager host config = .ok (h, next)) : next.Sound := by
  unfold Session.openManager at hopen
  split at hopen
  next => cases hopen
  next =>
    split at hopen
    next => cases hopen
    next m hm =>
      cases hopen
      refine ⟨hs.managers_issued.add m, hs.units_issued, ?_, ?_⟩
      · intro k m' hm'
        dsimp only at hm'
        rw [Registry.find?_add hs.managers_issued] at hm'
        split at hm'
        next =>
          cases hm'
          exact .create hm
        next => exact hs.hasRoom k m' hm'
      · intro h u hu
        apply (hs.unit_sound h u hu).mono
        intro k m' _ hm'
        left
        have hlt : k ≠ s.managers.next := Nat.ne_of_lt (hs.managers_issued k m' hm')
        rw [Registry.find?_add hs.managers_issued, if_neg hlt, hm']

theorem release (hs : s.Sound) (k : Handle) : (s.release k).Sound := by
  unfold Session.release
  split
  next => exact hs
  next m hm =>
    refine ⟨hs.managers_issued.erase k, hs.units_issued.map _, ?_, ?_⟩
    · intro k' m' hm'
      dsimp only at hm'
      rw [Registry.find?_erase] at hm'
      split at hm'
      next => cases hm'
      next => exact hs.hasRoom k' m' hm'
    · intro h u hu
      dsimp only at hu ⊢
      rw [Registry.find?_map, Option.map_eq_some_iff] at hu
      obtain ⟨v, hv, rfl⟩ := hu
      split
      next => exact .detach v
      next hk =>
        apply (hs.unit_sound h v hv).mono
        intro k' m' hk' hm'
        have hne : k' ≠ k := by
          rintro rfl
          exact hk hk'
        rw [Registry.find?_erase, if_neg hne]
        exact Or.inl hm'

theorem createUnit (hs : s.Sound) (engine : σ) : (s.createUnit engine).2.Sound := by
  refine ⟨hs.managers_issued, hs.units_issued.add _, hs.hasRoom, ?_⟩
  intro h u hu
  change (s.units.add (.create engine)).find? h = some u at hu
  rw [Registry.find?_add hs.units_issued] at hu
  split at hu
  next =>
    cases hu
    exact .create engine
  next => exact hs.unit_sound h u hu

theorem dropUnit (hs : s.Sound) (h : Handle) : (s.dropUnit h).Sound := by
  refine ⟨hs.managers_issued, hs.units_issued.erase h, hs.hasRoom, ?_⟩
  intro other u hu
  change (s.units.erase h).find? other = some u at hu
  rw [Registry.find?_erase] at hu
  split at hu
  next => cases hu
  next => exact hs.unit_sound other u hu

theorem modifyUnit (hs : s.Sound) {f : CompilationUnit σ → CompilationUnit σ}
    (hf : ∀ u, UnitSound s.managers u → UnitSound s.managers (f u)) :
    (s.modifyUnit h f).Sound := by
  refine ⟨?_, issued_units_modifyUnit hs.units_issued h f, ?_, ?_⟩
  · rw [managers_modifyUnit]
    exact hs.managers_issued
  · rw [managers_modifyUnit]
    exact hs.hasRoom
  · intro other u hu
    rw [managers_modifyUnit]
    rw [find?_units_modifyUnit] at hu
    split at hu
    next =>
      obtain ⟨v, hv, rfl⟩ := Option.map_eq_some_iff.mp hu
      exact hf v (hs.unit_sound other v hv)
    next => exact hs.unit_sound other u hu

theorem attach (hs : s.Sound) (h k : Handle) : (s.attach h k).Sound := by
  unfold Session.attach
  split
  next => exact hs
  next m hm => exact hs.modifyUnit fun u hu => hu.attach hm

theorem set (hs : s.Sound) {k : Handle} {m m' : Manager} {fixedLive : Bool}
    (hm : s.managers.find? k = some m) (hload : m' = m ∨ ∃ code, Manager.Loaded m code m')
    (hu : UnitSound (s.managers.set k m') u) :
    Sound ⟨s.managers.set k m', s.units.set h u, fixedLive⟩ := by
  have hroom : m'.HasRoom := by
    rcases hload with rfl | ⟨code, hload⟩
    · exact hs.hasRoom k m' hm
    · exact (hs.hasRoom k m hm).load hload
  refine ⟨hs.managers_issued.set k m', hs.units_issued.set h u, ?_, ?_⟩
  · intro other m'' hm''
    dsimp only at hm''
    rw [Registry.find?_set] at hm''
    split at hm''
    next =>
      obtain ⟨_, -, rfl⟩ := Option.map_eq_some_iff.mp hm''
      exact hroom
    next => exact hs.hasRoom other m'' hm''
  · intro other v hv
    dsimp only at hv ⊢
    rw [Registry.find?_set] at hv
    split at hv
    next =>
      obtain ⟨w, -, rfl⟩ := Option.map_eq_some_iff.mp hv
      exact hu
    next =>
      apply (hs.unit_sound other v hv).mono
      intro k' m'' _ hm''
      rw [Registry.find?_set]
      by_cases hk : k' = k
      · rw [if_pos hk, hm'', Option.map_some]
        rw [hk, hm] at hm''
        cases hm''
        rcases hload with rfl | ⟨code, hload⟩
        · exact Or.inl rfl
        · exact Or.inr ⟨code, m', rfl, hload⟩
      · rw [if_neg hk]
        exact Or.inl hm''

theorem attempt (hs : s.Sound) {e : Engine σ} {result : Except UnitError Outcome}
    {next : Session σ} (hattempt : Attempt e s h result next) : next.Sound := by
  have hlive {k : Handle} {m : Manager} (hm : s.managers.find? k = some m) (m' : Manager) :
      ∀ k', some k = some k' → ∃ m, (s.managers.set k m').find? k' = some m := by
    rintro _ ⟨⟩
    rw [Registry.find?_set, if_pos rfl, hm]
    exact ⟨m', rfl⟩
  cases hattempt with
  | detached => exact hs
  | failed u k m answer engine diagnostics hu hk hm =>
      apply hs.set hm (Or.inl rfl)
      apply UnitSound.of_blob_eq_none rfl
      intro k' hk'
      exact hlive hm m k' (hk ▸ hk')
  | compiled u k m loaded code engine hu hk hm hasked hload =>
      have hloaded := Manager.loaded_of_load? hload
      apply hs.set hm (Or.inr ⟨code, hloaded⟩)
      refine ⟨fun k' hk' => hlive hm loaded k' (hk ▸ hk'), ?_⟩
      intro blob hblob
      cases hblob
      refine ⟨k, loaded, hk, ?_, hloaded.backs⟩
      rw [Registry.find?_set, if_pos rfl, hm]
      rfl

/-- Every operation keeps a session sound. -/
theorem perform (hs : s.Sound) (e : Engine σ) (operation : Operation σ) :
    (s.perform e operation).Sound := by
  cases operation with
  | openManager host config =>
      simp only [Session.perform]
      split
      next hopen => exact hs.openManager hopen
      next => exact hs
  | release k => exact hs.release k
  | createUnit engine => exact hs.createUnit engine
  | dropUnit h => exact hs.dropUnit h
  | setSource h source => exact hs.modifyUnit fun u hu => hu.congr rfl rfl
  | setEngine h engine => exact hs.modifyUnit fun u hu => hu.congr rfl rfl
  | attach h k => exact hs.attach h k
  | detach h => exact hs.modifyUnit fun u _ => .detach u
  | predefine h name address => exact hs.modifyUnit fun u hu => hu.congr rfl rfl
  | undefine h name => exact hs.modifyUnit fun u hu => hu.congr rfl rfl
  | clearPredefinitions h => exact hs.modifyUnit fun u hu => hu.congr rfl rfl
  | assemble h =>
      simp only [Session.perform]
      split
      next hassemble => exact hs.attempt (attempt_of_assemble hs hassemble)
      next => exact hs
  | run h guarded => exact hs

end Sound

/-- Every session that operations lead to is sound. -/
theorem sound_after (e : Engine σ) (operations : List (Operation σ)) :
    (after e operations).Sound := by
  induction operations using List.reverseRecOn with
  | nil => exact sound_empty
  | append_singleton operations operation ih =>
      rw [after_concat]
      exact ih.perform e operation

end Session

end AsmLoader
