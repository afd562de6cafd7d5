import AsmLoader.Proofs.Session.Effect
import AsmLoader.Region.Host
/-!
# The slot for a fixed region

At most one live manager has a region at a fixed address. The slot that sees to this is claimed
before anything else is checked, it is given back on every way out of a construction that fails,
and it is free again once its holder is released.
-/

namespace AsmLoader

open Region (AllocationError Config Host Placement)

theorem Manager.create_ne_fixedRegionInUse {host : Host} {live : List Region.Span}
    {config : Config} (address : UInt64) :
    create host live config ≠ .error (.fixedRegionInUse address) := by
  have hallocate : Region.allocate host live config ≠ .error (.fixedRegionInUse address) := by
    intro h
    cases Region.refusal_of_allocate h
  unfold create
  cases hregion : Region.allocate host live config with
  | ok region => simp [Except.map]
  | error e =>
      rw [hregion] at hallocate
      simpa [Except.map] using hallocate

theorem Manager.config_of_create {host : Host} {live : List Region.Span} {config : Config}
    {m : Manager} (h : create host live config = .ok m) : m.config = config := by
  unfold create at h
  cases hregion : Region.allocate host live config with
  | error e => simp [hregion, Except.map] at h
  | ok region =>
      simp only [hregion, Except.map, Except.ok.injEq] at h
      rw [← h]

namespace Session

variable {σ : Type} {s next : Session σ} {k : Handle} {e : Engine σ}

def HoldsFixed (s : Session σ) (k : Handle) : Prop :=
  ∃ m, s.managers.find? k = some m ∧ m.isFixed

/-! ## A construction, step by step -/

def claimSlot (s : Session σ) : Placement → Except AllocationError (Session σ)
  | .anywhere => .ok s
  | .fixed address =>
    if s.fixedLive then .error (.fixedRegionInUse address) else .ok { s with fixedLive := true }

def giveBackSlot (s : Session σ) : Placement → Session σ
  | .anywhere => s
  | .fixed _ => { s with fixedLive := false }

/-- The construction of a manager in the order of its steps, with what it leaves behind: a claim
that fails takes nothing, and one that has been made is given back if there is no region. -/
def construct (host : Host) (s : Session σ) (config : Config) :
    Except AllocationError Handle × Session σ :=
  match s.claimSlot config.placement with
  | .error e => (.error e, s)
  | .ok claimed =>
    match Manager.create host claimed.spans config with
    | .error e => (.error e, claimed.giveBackSlot config.placement)
    | .ok m => (.ok claimed.managers.next, { claimed with managers := claimed.managers.add m })

/-- Opening a manager is this construction: nothing is left behind by one that fails. -/
theorem construct_eq (host : Host) (s : Session σ) (config : Config) :
    s.construct host config =
      match s.openManager host config with
      | .ok (k, next) => (.ok k, next)
      | .error e => (.error e, s) := by
  unfold construct openManager
  cases hplacement : config.placement with
  | anywhere =>
      simp only [claimSlot]
      cases Manager.create host s.spans config <;> simp [giveBackSlot, Placement.address?]
  | fixed address =>
      cases hlive : s.fixedLive with
      | true => simp [claimSlot, hlive]
      | false =>
          have hspans : spans { s with fixedLive := true } = s.spans := rfl
          simp only [claimSlot, hlive, Bool.false_eq_true, if_false, hspans]
          cases Manager.create host s.spans config with
          | error e => simp [giveBackSlot, ← hlive]
          | ok m => simp [Placement.address?]

theorem perform_openManager (host : Host) (config : Config) :
    s.perform e (.openManager host config) = (s.construct host config).2 := by
  rw [construct_eq, perform]
  cases s.openManager host config with
  | error reason => rfl
  | ok answer => rfl

/-- What a construction leaves behind: either nothing, or one more manager, which holds the slot
if and only if its placement needs it. -/
theorem construct_cases (host : Host) (s : Session σ) (config : Config) :
    (∃ reason, s.construct host config = (.error reason, s)) ∨
      ∃ m, m.config = config ∧ (m.isFixed → s.fixedLive = false) ∧
        s.construct host config = (.ok s.managers.next,
          { s with managers := s.managers.add m, fixedLive := s.fixedLive || m.isFixed }) := by
  rw [construct_eq]
  cases hopen : s.openManager host config with
  | error reason => exact .inl ⟨reason, rfl⟩
  | ok answer =>
      right
      unfold openManager at hopen
      split at hopen
      next => cases hopen
      next placement live hfree =>
        split at hopen
        next => cases hopen
        next m hm =>
          cases hopen
          have hconfig := Manager.config_of_create hm
          refine ⟨m, hconfig, ?_, ?_⟩
          · intro hfixed
            unfold Manager.isFixed at hfixed
            rw [hconfig] at hfixed
            cases hplacement : config.placement with
            | anywhere =>
                rw [hplacement] at hfixed
                cases hfixed
            | fixed address => simpa using hfree address hplacement
          · rw [Manager.isFixed, hconfig]

theorem construct_eq_fixedRegionInUse_iff {host : Host} {config : Config} {address : UInt64} :
    (s.construct host config).1 = .error (.fixedRegionInUse address) ↔
      config.placement = .fixed address ∧ s.fixedLive = true := by
  have hcreate : Manager.create host s.spans config ≠ .error (.fixedRegionInUse address) :=
    Manager.create_ne_fixedRegionInUse address
  unfold construct
  cases hplacement : config.placement with
  | anywhere =>
      simp only [claimSlot]
      split
      next reason hreason =>
        rw [hreason] at hcreate
        simpa using hcreate
      next => simp
  | fixed address' =>
      have hspans : spans { s with fixedLive := true } = s.spans := rfl
      cases hlive : s.fixedLive with
      | true => simp [claimSlot, hlive]
      | false =>
          simp only [claimSlot, hlive, Bool.false_eq_true, if_false, hspans]
          split
          next reason hreason =>
            rw [hreason] at hcreate
            simpa using hcreate
          next => simp

/-! ## The slot and its holder -/

/-- The slot is taken just while some live manager holds it, and one manager at most does. -/
structure SlotHeld (s : Session σ) : Prop where
  taken_iff : s.fixedLive = true ↔ ∃ k, s.HoldsFixed k
  unique : ∀ k k', s.HoldsFixed k → s.HoldsFixed k' → k = k'

/-! ## What operations do to the holders -/

theorem holdsFixed_congr (h : ∀ k, next.managers.find? k = s.managers.find? k) :
    next.HoldsFixed k ↔ s.HoldsFixed k := by
  unfold HoldsFixed
  rw [h]

theorem holdsFixed_add (hissued : s.managers.Issued) {m : Manager}
    (hmanagers : next.managers = s.managers.add m) :
    next.HoldsFixed k ↔ (k = s.managers.next ∧ m.isFixed) ∨ s.HoldsFixed k := by
  unfold HoldsFixed
  rw [hmanagers, Registry.find?_add hissued]
  by_cases hk : k = s.managers.next
  · have hnone : ∀ m, s.managers.find? k ≠ some m :=
      fun m hm => absurd (hissued k m hm) (by simp [hk])
    simp [hk, hk ▸ hnone]
  · simp [hk]

theorem holdsFixed_release {released : Handle} :
    (s.release released).HoldsFixed k ↔ k ≠ released ∧ s.HoldsFixed k := by
  unfold HoldsFixed release
  cases hreleased : s.managers.find? released with
  | none =>
      have hne {m : Manager} (hm : s.managers.find? k = some m) : k ≠ released := by
        rintro rfl
        rw [hreleased] at hm
        cases hm
      constructor
      · rintro ⟨m, hm, hfixed⟩
        exact ⟨hne hm, m, hm, hfixed⟩
      · rintro ⟨-, h⟩
        exact h
  | some m =>
      dsimp only
      rw [Registry.find?_erase]
      by_cases hk : k = released <;> simp [hk]

theorem holdsFixed_assemble (hs : s.Sound) {unit : Handle} {result : Except UnitError Outcome}
    (hassemble : s.assemble e unit = some (result, next)) :
    next.HoldsFixed k ↔ s.HoldsFixed k := by
  rcases find?_managers_assemble hs hassemble with
    ⟨hsame, -⟩ | ⟨k', m, code, after, -, hm, hload, hmanagers⟩
  · exact holdsFixed_congr hsame
  · have hfixed : after.isFixed = m.isFixed := by
      rw [Manager.isFixed, Manager.isFixed, (Manager.loaded_of_load? hload).config_eq]
    unfold HoldsFixed
    rw [hmanagers]
    by_cases hk : k = k'
    · simp [hk, hm, hfixed]
    · simp [hk]

theorem fixedLive_assemble (hs : s.Sound) {unit : Handle} {result : Except UnitError Outcome}
    (hassemble : s.assemble e unit = some (result, next)) : next.fixedLive = s.fixedLive := by
  cases attempt_of_assemble hs hassemble <;> rfl

theorem fixedLive_modifyUnit (h : Handle) (f : CompilationUnit σ → CompilationUnit σ) :
    (s.modifyUnit h f).fixedLive = s.fixedLive := by
  unfold modifyUnit
  split <;> rfl

theorem fixedLive_release_of_not_holdsFixed (h : ¬s.HoldsFixed k) :
    (s.release k).fixedLive = s.fixedLive := by
  unfold release
  split
  next => rfl
  next m hm =>
    have hfixed : m.isFixed = false := by
      rw [← Bool.not_eq_true]
      exact fun hfixed => h ⟨m, hm, hfixed⟩
    simp [hfixed]

theorem fixedLive_release_of_holdsFixed (h : s.HoldsFixed k) :
    (s.release k).fixedLive = false := by
  obtain ⟨m, hm, hfixed⟩ := h
  simp [release, hm, hfixed]

namespace SlotHeld

theorem empty : (empty : Session σ).SlotHeld := by
  have hnone (k : Handle) : ¬(Session.empty : Session σ).HoldsFixed k := by
    rintro ⟨m, hm, -⟩
    cases hm
  refine ⟨⟨?_, ?_⟩, ?_⟩
  · intro htaken
    cases htaken
  · rintro ⟨k, hk⟩
    exact absurd hk (hnone k)
  · intro k k' hk
    exact absurd hk (hnone k)

theorem congr (hs : s.SlotHeld) (hlive : next.fixedLive = s.fixedLive)
    (hholds : ∀ k, next.HoldsFixed k ↔ s.HoldsFixed k) : next.SlotHeld := by
  constructor
  · rw [hlive, hs.taken_iff]
    simp only [hholds]
  · intro k k' hk hk'
    exact hs.unique k k' ((hholds k).mp hk) ((hholds k').mp hk')

theorem construct (hs : s.SlotHeld) (hissued : s.managers.Issued) (host : Host)
    (config : Config) : (s.construct host config).2.SlotHeld := by
  rcases construct_cases host s config with ⟨reason, heq⟩ | ⟨m, -, hfree, heq⟩
  · rw [heq]
    exact hs
  · have hholds (k : Handle) :
        (s.construct host config).2.HoldsFixed k ↔
          (k = s.managers.next ∧ m.isFixed) ∨ s.HoldsFixed k := by
      rw [heq]
      exact holdsFixed_add hissued rfl
    have hnone (hfixed : m.isFixed) (k : Handle) : ¬s.HoldsFixed k := by
      intro hk
      have htaken := hs.taken_iff.mpr ⟨k, hk⟩
      rw [hfree hfixed] at htaken
      cases htaken
    constructor
    · simp only [hholds]
      rw [heq, Bool.or_eq_true, hs.taken_iff]
      constructor
      · rintro (⟨k, hk⟩ | hfixed)
        · exact ⟨k, .inr hk⟩
        · exact ⟨_, .inl ⟨rfl, hfixed⟩⟩
      · rintro ⟨k, ⟨-, hfixed⟩ | hk⟩
        · exact .inr hfixed
        · exact .inl ⟨k, hk⟩
    · intro k k' hk hk'
      rcases (hholds k).mp hk with ⟨rfl, hfixed⟩ | hold
      · rcases (hholds k').mp hk' with ⟨rfl, -⟩ | hold'
        · rfl
        · exact absurd hold' (hnone hfixed k')
      · rcases (hholds k').mp hk' with ⟨rfl, hfixed⟩ | hold'
        · exact absurd hold (hnone hfixed k)
        · exact hs.unique k k' hold hold'

theorem release (hs : s.SlotHeld) (released : Handle) : (s.release released).SlotHeld := by
  constructor
  · simp only [holdsFixed_release]
    by_cases hholds : s.HoldsFixed released
    · rw [fixedLive_release_of_holdsFixed hholds]
      have hnone : ¬∃ k, k ≠ released ∧ s.HoldsFixed k := by
        rintro ⟨k, hne, hk⟩
        exact hne (hs.unique k released hk hholds)
      simp [hnone]
    · rw [fixedLive_release_of_not_holdsFixed hholds, hs.taken_iff]
      constructor
      · rintro ⟨k, hk⟩
        refine ⟨k, ?_, hk⟩
        rintro rfl
        exact hholds hk
      · rintro ⟨k, -, hk⟩
        exact ⟨k, hk⟩
  · intro k k' hk hk'
    exact hs.unique k k' (holdsFixed_release.mp hk).2 (holdsFixed_release.mp hk').2

/-- Every operation keeps the slot and its holder together. -/
theorem perform (hslot : s.SlotHeld) (hs : s.Sound) (e : Engine σ) (operation : Operation σ) :
    (s.perform e operation).SlotHeld := by
  have hmodify (h : Handle) (f : CompilationUnit σ → CompilationUnit σ) :
      (s.modifyUnit h f).SlotHeld := by
    apply hslot.congr (fixedLive_modifyUnit h f)
    intro k
    apply holdsFixed_congr
    intro k
    rw [managers_modifyUnit]
  cases operation with
  | openManager host config =>
      rw [perform_openManager]
      exact hslot.construct hs.managers_issued host config
  | release k => exact hslot.release k
  | createUnit engine => exact hslot.congr rfl fun _ => Iff.rfl
  | dropUnit h => exact hslot.congr rfl fun _ => Iff.rfl
  | setSource h source => exact hmodify h _
  | setEngine h engine => exact hmodify h _
  | attach h k =>
      change (s.attach h k).SlotHeld
      unfold attach
      split
      next => exact hslot
      next => exact hmodify h _
  | detach h => exact hmodify h _
  | predefine h name address => exact hmodify h _
  | undefine h name => exact hmodify h _
  | clearPredefinitions h => exact hmodify h _
  | assemble h =>
      simp only [Session.perform]
      split
      next hassemble =>
        exact hslot.congr (fixedLive_assemble hs hassemble)
          fun _ => holdsFixed_assemble hs hassemble
      next => exact hslot
  | run h guarded => exact hslot

end SlotHeld

theorem slotHeld_after (e : Engine σ) (operations : List (Operation σ)) :
    (after e operations).SlotHeld := by
  induction operations using List.reverseRecOn with
  | nil => exact .empty
  | append_singleton operations operation ih =>
      rw [after_concat]
      exact ih.perform (sound_after e operations) e operation

/-- After any operations, whatever the hosts answered: the slot is taken just while exactly one
live manager is at a fixed address, and free just while none is; there are never two. A
construction is refused the slot, whatever else is wrong with its request, just when it is to be
at a fixed address and a live manager is already. Any other construction at a fixed address found
the slot free, and if it fails it leaves the slot free; one that may be anywhere leaves the slot
as it is, and so does the release of a manager that may be anywhere. -/
theorem fixed_slot (e : Engine σ) (operations : List (Operation σ)) :
    let s := after e operations
    (s.fixedLive = true ↔ ∃! k, s.HoldsFixed k) ∧
      (s.fixedLive = false ↔ ∀ k, ¬s.HoldsFixed k) ∧
      (∀ k k', s.HoldsFixed k → s.HoldsFixed k' → k = k') ∧
      (∀ host config, s.perform e (.openManager host config) = (s.construct host config).2) ∧
      (∀ host config address,
        (s.construct host config).1 = .error (.fixedRegionInUse address) ↔
          config.placement = .fixed address ∧ ∃ k, s.HoldsFixed k) ∧
      (∀ host config address, config.placement = .fixed address →
        (s.construct host config).1 ≠ .error (.fixedRegionInUse address) →
          s.fixedLive = false ∧
            ∀ reason, (s.construct host config).1 = .error reason →
              (s.construct host config).2.fixedLive = false) ∧
      (∀ host config, config.placement = .anywhere →
        (s.construct host config).2.fixedLive = s.fixedLive) ∧
      ∀ k, ¬s.HoldsFixed k → (s.release k).fixedLive = s.fixedLive := by
  intro s
  have hslot : s.SlotHeld := slotHeld_after e operations
  refine ⟨?_, ?_, hslot.unique, fun host config => perform_openManager host config, ?_, ?_, ?_,
    fun k => fixedLive_release_of_not_holdsFixed⟩
  · rw [hslot.taken_iff]
    constructor
    · rintro ⟨k, hk⟩
      exact ⟨k, hk, fun k' hk' => hslot.unique k' k hk' hk⟩
    · rintro ⟨k, hk, -⟩
      exact ⟨k, hk⟩
  · rw [← Bool.not_eq_true, hslot.taken_iff, not_exists]
  · intro host config address
    rw [construct_eq_fixedRegionInUse_iff, hslot.taken_iff]
  · intro host config address hplacement hclaimed
    have hfree : s.fixedLive = false := by
      rw [← Bool.not_eq_true]
      exact fun htaken =>
        hclaimed (construct_eq_fixedRegionInUse_iff.mpr ⟨hplacement, htaken⟩)
    refine ⟨hfree, ?_⟩
    intro reason hreason
    rcases construct_cases host s config with ⟨_, heq⟩ | ⟨m, -, -, heq⟩
    · rw [heq]
      exact hfree
    · rw [heq] at hreason
      cases hreason
  · intro host config hplacement
    rcases construct_cases host s config with ⟨_, heq⟩ | ⟨m, hconfig, -, heq⟩
    · rw [heq]
    · have hfixed : m.isFixed = false := by
        rw [Manager.isFixed, hconfig, hplacement]
        rfl
      simp [heq, hfixed]

/-- The slot is refused to a second manager, given back by the first and by three that fail, two
of them because of what the host has mapped, and then held by another. -/
theorem fixed_slot_handed_on :
    let e := Engine.ofFunction fun _ _ => .ok []
    let operations : List (Operation Unit) :=
      [.openManager Host.standard ⟨4096, .fixed 0x10000000⟩,
        .openManager Host.standard ⟨4096, .fixed 0x20000000⟩, .release 0,
        .openManager Host.standard ⟨0, .fixed 0x10000000⟩,
        .openManager ⟨0x1000, fun _ _ _ => .ok 0x30000000⟩ ⟨4096, .fixed 0x10000000⟩,
        .openManager ⟨0x1000, fun _ _ _ => .ok 0⟩ ⟨4096, .fixed 0x10000000⟩,
        .openManager Host.standard ⟨4096, .fixed 0x20000000⟩]
    (after e operations).fixedLive = true ∧
      ∀ k, (after e operations).HoldsFixed k ↔ k = 1 := by
  intro e operations
  have hlive : (after e operations).fixedLive = true := by decide +kernel
  have hholder : (((after e operations).managers.find? 1).any Manager.isFixed) = true := by
    decide +kernel
  obtain ⟨m, hm, hfixed⟩ := (Option.any_eq_true _ _).mp hholder
  refine ⟨hlive, fun k => ⟨fun hk => ?_, ?_⟩⟩
  · exact (fixed_slot e operations).2.2.1 k 1 hk ⟨m, hm, hfixed⟩
  · rintro rfl
    exact ⟨m, hm, hfixed⟩

end Session

end AsmLoader
