/-!
# Registries

Live objects under handles. A handle is given out once: it is not used again after its object is
gone.
-/

namespace AsmLoader

abbrev Handle := Nat

structure Registry (α : Type) where
  next : Handle
  live : List (Handle × α)

namespace Registry

variable {α : Type}

def empty : Registry α := ⟨0, []⟩

def find? (r : Registry α) (h : Handle) : Option α :=
  r.live.lookup h

def add (r : Registry α) (a : α) : Registry α :=
  ⟨r.next + 1, r.live ++ [(r.next, a)]⟩

def set (r : Registry α) (h : Handle) (a : α) : Registry α :=
  { r with live := r.live.map fun entry => if entry.1 = h then (h, a) else entry }

def map (r : Registry α) (f : α → α) : Registry α :=
  { r with live := r.live.map fun entry => (entry.1, f entry.2) }

def erase (r : Registry α) (h : Handle) : Registry α :=
  { r with live := r.live.filter (·.1 ≠ h) }

def values (r : Registry α) : List α :=
  r.live.map (·.2)

/-! ## Lookup after an operation -/

@[simp] theorem find?_empty (h : Handle) : (empty : Registry α).find? h = none := rfl

theorem find?_map (r : Registry α) (f : α → α) (h : Handle) :
    (r.map f).find? h = (r.find? h).map f := by
  obtain ⟨next, live⟩ := r
  simp only [find?, map]
  induction live with
  | nil => rfl
  | cons entry rest ih =>
      obtain ⟨key, value⟩ := entry
      rw [List.map_cons, List.lookup_cons, List.lookup_cons, ih]
      cases h == key <;> rfl

theorem find?_set (r : Registry α) (h other : Handle) (a : α) :
    (r.set h a).find? other =
      if other = h then (r.find? other).map fun _ => a else r.find? other := by
  obtain ⟨next, live⟩ := r
  simp only [find?, set]
  induction live with
  | nil => simp
  | cons entry rest ih =>
      obtain ⟨key, value⟩ := entry
      rw [List.map_cons, List.lookup_cons]
      by_cases hkey : key = h
      · rw [if_pos hkey, List.lookup_cons, ih, hkey]
        by_cases hother : other = h
        · simp [hother]
        · simp [hother, beq_eq_false_iff_ne.mpr hother]
      · rw [if_neg hkey, List.lookup_cons, ih]
        by_cases hother : other = key
        · have hne : ¬other = h := by rw [hother]; exact hkey
          simp [hother, hkey]
        · simp [beq_eq_false_iff_ne.mpr hother]

theorem find?_set_of_find? {r : Registry α} {h : Handle} {a : α} (hfind : r.find? h = some a)
    (other : Handle) : (r.set h a).find? other = r.find? other := by
  rw [find?_set]
  by_cases hother : other = h
  · rw [if_pos hother, hother, hfind, Option.map_some]
  · rw [if_neg hother]

theorem find?_erase (r : Registry α) (h other : Handle) :
    (r.erase h).find? other = if other = h then none else r.find? other := by
  obtain ⟨next, live⟩ := r
  simp only [find?, erase]
  induction live with
  | nil => simp
  | cons entry rest ih =>
      obtain ⟨key, value⟩ := entry
      by_cases hkey : key = h
      · rw [List.filter_cons_of_neg (by simpa using hkey), ih, List.lookup_cons, hkey]
        by_cases hother : other = h
        · simp [hother]
        · simp [hother, beq_eq_false_iff_ne.mpr hother]
      · rw [List.filter_cons_of_pos (by simpa using hkey), List.lookup_cons, ih,
          List.lookup_cons]
        by_cases hother : other = key
        · simp [hother, hkey]
        · simp [beq_eq_false_iff_ne.mpr hother]

def Issued (r : Registry α) : Prop :=
  ∀ h a, r.find? h = some a → h < r.next

theorem issued_empty : (empty : Registry α).Issued := by
  intro h a hfind
  cases hfind

theorem find?_add {r : Registry α} (hr : r.Issued) (a : α) (h : Handle) :
    (r.add a).find? h = if h = r.next then some a else r.find? h := by
  have happend : (r.add a).find? h = (r.find? h).or ([(r.next, a)].lookup h) := by
    simp only [find?, add]
    rw [List.lookup_append]
  rw [happend]
  by_cases hnext : h = r.next
  · rw [if_pos hnext]
    cases hfind : r.find? h with
    | none => simp [hnext]
    | some b =>
        exact absurd (hr h b hfind) (hnext ▸ Nat.lt_irrefl _)
  · rw [if_neg hnext]
    have hbeq : (h == r.next) = false := beq_eq_false_iff_ne.mpr hnext
    rw [List.lookup_cons, hbeq]
    cases r.find? h <;> rfl

theorem Issued.add {r : Registry α} (hr : r.Issued) (a : α) : (r.add a).Issued := by
  intro h b hfind
  rw [find?_add hr] at hfind
  by_cases hnext : h = r.next
  · exact hnext ▸ Nat.lt_succ_self _
  · rw [if_neg hnext] at hfind
    exact Nat.lt_succ_of_lt (hr h b hfind)

theorem Issued.map {r : Registry α} (hr : r.Issued) (f : α → α) : (r.map f).Issued := by
  intro h b hfind
  rw [find?_map, Option.map_eq_some_iff] at hfind
  obtain ⟨a, ha, -⟩ := hfind
  exact hr h a ha

theorem Issued.set {r : Registry α} (hr : r.Issued) (h : Handle) (a : α) :
    (r.set h a).Issued := by
  intro other b hfind
  rw [find?_set] at hfind
  cases hold : r.find? other with
  | none =>
      rw [hold] at hfind
      split at hfind <;> cases hfind
  | some c => exact hr other c hold

theorem Issued.erase {r : Registry α} (hr : r.Issued) (h : Handle) : (r.erase h).Issued := by
  intro other b hfind
  rw [find?_erase] at hfind
  split at hfind
  next => cases hfind
  next => exact hr other b hfind

end Registry

end AsmLoader
