import AsmLoader.Symbol.Name
/-!
# Symbol tables

A table gives 64-bit values to names. Each name stands in it once, in the order of the names, so
a table shows its entries in one way. Any text is taken as a name; one that `isValidName` refuses
is kept and never found in a source.
-/

namespace AsmLoader.Symbol

structure Table where
  entries : List (String × UInt64)
  deriving DecidableEq, Repr, Inhabited

namespace Table

def empty : Table := ⟨[]⟩

def find? (t : Table) (name : String) : Option UInt64 :=
  t.entries.lookup name

def put (name : String) (value : UInt64) : List (String × UInt64) → List (String × UInt64)
  | [] => [(name, value)]
  | (other, old) :: rest =>
    if name = other then (name, value) :: rest
    else if name < other then (name, value) :: (other, old) :: rest
    else (other, old) :: put name value rest

def insert (t : Table) (name : String) (value : UInt64) : Table :=
  ⟨put name value t.entries⟩

def erase (t : Table) (name : String) : Table :=
  ⟨t.entries.filter (·.1 ≠ name)⟩

def size (t : Table) : Nat :=
  t.entries.length

def ofList (entries : List (String × UInt64)) : Table :=
  entries.foldl (fun t (name, value) => t.insert name value) empty

@[simp] theorem find?_empty (name : String) : empty.find? name = none := rfl

theorem lookup_cons_eq (name first : String) (value : UInt64) (rest : List (String × UInt64)) :
    ((first, value) :: rest).lookup name =
      if name = first then some value else rest.lookup name := by
  rw [List.lookup_cons]
  split <;> simp_all

theorem lookup_put (name other : String) (value : UInt64) (entries : List (String × UInt64)) :
    (put name value entries).lookup other =
      if other = name then some value else entries.lookup other := by
  induction entries with
  | nil => simp [put, lookup_cons_eq]
  | cons entry rest ih =>
    obtain ⟨first, old⟩ := entry
    unfold put
    split
    · next h =>
      subst h
      simp only [lookup_cons_eq]
      split <;> rfl
    · split
      · rw [lookup_cons_eq]
      · next hne _ =>
        simp only [lookup_cons_eq, ih]
        by_cases h : other = first
        · subst h
          simp [Ne.symm hne]
        · simp [h]

@[simp] theorem find?_insert (t : Table) (name other : String) (value : UInt64) :
    (t.insert name value).find? other = if other = name then some value else t.find? other :=
  lookup_put name other value t.entries

@[simp] theorem find?_erase (t : Table) (name other : String) :
    (t.erase name).find? other = if other = name then none else t.find? other := by
  obtain ⟨entries⟩ := t
  simp only [erase, find?]
  induction entries with
  | nil => simp
  | cons entry rest ih =>
    obtain ⟨first, old⟩ := entry
    by_cases hf : first = name
    · subst hf
      rw [List.filter_cons_of_neg (by simp), ih, lookup_cons_eq]
      split <;> rfl
    · rw [List.filter_cons_of_pos (by simpa using hf), lookup_cons_eq, ih, lookup_cons_eq]
      by_cases ho : other = first
      · subst ho
        simp [hf]
      · simp [ho]

end Table

end AsmLoader.Symbol
