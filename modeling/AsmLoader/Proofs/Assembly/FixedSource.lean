import AsmLoader.Proofs.Assembly.Success
/-!
# Sources of fixed bytes

A source whose statements all have the same bytes wherever they stand is assembled, at any base,
to these bytes in the order of the statements.
-/

namespace AsmLoader.Assembly

open Machine (CodeSize)
open Source (Statement)

variable {codeSize : CodeSize} {es : List Emission} {parts : List (List UInt8)}

def Emission.bytes? (codeSize : CodeSize) (e : Emission) : Option (List UInt8) :=
  (e.fragment? codeSize).elim (some []) Fragment.bytes?

theorem bytes?_ofBytes (codeSize : CodeSize) (bytes : List UInt8) :
    (Emission.ofBytes bytes).bytes? codeSize = some bytes := by
  unfold Emission.ofBytes
  split
  next hempty =>
    rw [List.isEmpty_iff.mp hempty]
    rfl
  next => rfl

/-! ## Entries -/

def itemBytes? (item : Option Entry) : Option (List UInt8) :=
  item.elim (some []) fun e => e.fragment.bytes?

theorem itemBytes?_item? (place : PlaceId) (e : Emission) :
    itemBytes? (e.item? codeSize place) = e.bytes? codeSize := by
  unfold Emission.item? Emission.bytes?
  cases e.fragment? codeSize <;> rfl

theorem itemBytes?_lastItem? (place : PlaceId) : itemBytes? (lastItem? place) = some [] := by
  unfold lastItem?
  split <;> rfl

theorem forall₂_items {places : List PlaceId} (hlength : places.length = es.length)
    (h : List.Forall₂ (fun e part => e.bytes? codeSize = some part) es parts) :
    List.Forall₂ (fun item part => itemBytes? item = some part)
      ((places.zip es).map fun p => p.2.item? codeSize p.1) parts := by
  induction h generalizing places with
  | nil => simp
  | cons hpart _ ih =>
      cases places with
      | nil => cases hlength
      | cons place places =>
          refine .cons ?_ (ih (Nat.succ.inj hlength))
          rwa [itemBytes?_item?]

theorem forall₂_reduceOption {items : List (Option Entry)}
    (h : List.Forall₂ (fun item part => itemBytes? item = some part) items parts) :
    ∃ written, List.Forall₂ (fun e part => e.fragment.bytes? = some part) items.reduceOption
      written ∧
      written.flatten = parts.flatten := by
  induction h with
  | nil => exact ⟨[], .nil, rfl⟩
  | @cons item part _ _ hpart _ ih =>
      obtain ⟨written, hwritten, hflatten⟩ := ih
      cases item with
      | none =>
          cases hpart
          exact ⟨written, hwritten, hflatten⟩
      | some e => exact ⟨part :: written, .cons hpart hwritten, by simp [hflatten]⟩

/-! ## Statements -/

/-- A statement has code, and its bytes are the given ones wherever it stands. -/
def FixedBytes (codeSize : CodeSize) (c : Context) (capacity : UInt64) (s : Statement)
    (part : List UInt8) : Prop :=
  ∃ e, emission c capacity s = .ok e ∧ e.bytes? codeSize = some part

theorem exists_emissions_of_fixedBytes {c : Context} {capacity : UInt64}
    {statements : List Statement}
    (h : List.Forall₂ (FixedBytes codeSize c capacity) statements parts) :
    ∃ es, List.Forall₂ (fun s e => emission c capacity s = .ok e) statements es ∧
      List.Forall₂ (fun e part => e.bytes? codeSize = some part) es parts := by
  induction h with
  | nil => exact ⟨[], .nil, .nil⟩
  | cons hfixed _ ih =>
      obtain ⟨e, he, hpart⟩ := hfixed
      obtain ⟨es, hes, hparts⟩ := ih
      exact ⟨e :: es, .cons he hes, .cons hpart hparts⟩

/-- A source that is in order and whose statements have fixed bytes is these bytes, whatever the
base. -/
theorem assemble_of_fixedBytes {source : String} {target : Target} {statements : List Statement}
    (hparse : Source.parse source = .ok statements) (hbits : codeSize.bits = target.bitness)
    (hmodes : ∀ s ∈ statements, ∀ size, s.body = .mode size → size.bits = target.bitness)
    (hlabels : (statements.flatMap Statement.labels).Nodup)
    (hfixed : List.Forall₂ (FixedBytes codeSize (contextOf codeSize statements) target.capacity)
      statements parts) : assemble source target = .ok parts.flatten := by
  obtain ⟨es, hes, hbytes⟩ := exists_emissions_of_fixedBytes hfixed
  have hlength : (bindLabels statements).2.1.length = es.length := by
    rw [length_places, hes.length_eq]
  have hitems := List.rel_append (forall₂_items hlength hbytes)
    (.cons (itemBytes?_lastItem? (bindLabels statements).2.2) .nil)
  obtain ⟨written, hwritten, hflatten⟩ := forall₂_reduceOption hitems
  have hblock : writeBlock codeSize target.base (itemsOf codeSize statements es).reduceOption =
      .ok parts.flatten := by
    rw [itemsOf, writeBlock_of_bytes? hwritten, hflatten, List.flatten_append]
    simp
  have hassembles : Assembles codeSize target statements es parts.flatten :=
    ⟨hbits, hmodes, hlabels, hes, hblock⟩
  rw [assemble_of_parse hparse, hassembles.assembleStatements_eq]

end AsmLoader.Assembly
