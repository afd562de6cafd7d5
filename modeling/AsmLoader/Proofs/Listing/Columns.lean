import AsmLoader.Proofs.Listing.Rows
import AsmLoader.Proofs.Machine.Display
import AsmLoader.Proofs.Text.Lines
/-!
# The columns of a listing

A listing is read back from its text. It has a line for each row, of which the first word is the
address and the second the bytes, two digits each; what the row does stands after these.
-/

namespace AsmLoader.Listing

open Text (Unbroken unbroken_append hexDigit hexPadded)

/-! ## Reading -/

def address? (line : String) : Option UInt64 :=
  Text.readUInt64? 16 (line.toList.takeWhile (· ≠ ' '))

def readBytes? : List Char → Option (List UInt8)
  | [] => some []
  | [_] => none
  | high :: low :: rest => do
    let n ← Text.readNumeral? 16 [high, low]
    let bytes ← readBytes? rest
    return UInt8.ofNat n :: bytes

/-- The bytes that are the second word of a line. -/
def bytes? (line : String) : Option (List UInt8) :=
  readBytes? (((line.toList.dropWhile (· ≠ ' ')).drop 1).takeWhile (· ≠ ' '))

section Words

variable {word : List Char} (h : ' ' ∉ word) (rest : List Char)
include h

theorem takeWhile_word : (word ++ ' ' :: rest).takeWhile (· ≠ ' ') = word := by
  rw [List.takeWhile_append_of_pos]
  · simp
  · intro c hc
    simpa using fun heq : c = ' ' => h (heq ▸ hc)

theorem dropWhile_word : (word ++ ' ' :: rest).dropWhile (· ≠ ' ') = ' ' :: rest := by
  rw [List.dropWhile_append_of_pos]
  · simp
  · intro c hc
    simpa using fun heq : c = ' ' => h (heq ▸ hc)

end Words

/-! ## Bytes -/

theorem readBytes?_byteText (b : UInt8) (rest : List Char) :
    readBytes? ((byteText b).toList ++ rest) = (readBytes? rest).map (b :: ·) := by
  have hread := Text.readNumeral?_hexPadded 2 b.toNat
  rw [Text.hexPadded_byte] at hread
  rw [byteText, Text.hexPadded_byte, List.cons_append, List.cons_append, List.nil_append,
    readBytes?, hread]
  cases readBytes? rest <;> simp

theorem readBytes?_join (bytes : List UInt8) :
    readBytes? (String.join (bytes.map byteText)).toList = some bytes := by
  induction bytes with
  | nil => rfl
  | cons b bytes ih =>
      rw [List.map_cons, String.join_cons, String.toList_append, readBytes?_byteText, ih]
      rfl

theorem not_mem_join {c : Char} (hc : ∀ d : Fin 16, hexDigit d ≠ c) (bytes : List UInt8) :
    c ∉ (String.join (bytes.map byteText)).toList := by
  rw [String.toList_join, List.mem_flatMap]
  rintro ⟨s, hs, hmem⟩
  obtain ⟨b, -, rfl⟩ := List.mem_map.mp hs
  exact Text.not_mem_hexPadded hc 2 b.toNat hmem

/-! ## Lines -/

def Line.what (l : Line) : String :=
  match l.decoded with
  | some decoded => decoded.text
  | none => "(bad)"

def Line.shown (l : Line) : String :=
  hexPadded 16 l.address.toNat ++ " " ++
    padRight bytesWidth (String.join (l.bytes.map byteText)) ++ " " ++ l.what

theorem Line.text_eq (l : Line) : l.text = l.shown ++ "\n" :=
  rfl

theorem Line.unbroken_shown (l : Line) : Unbroken l.shown := by
  have hbytes : Unbroken (String.join (l.bytes.map byteText)) :=
    ⟨not_mem_join (by decide) l.bytes, not_mem_join (by decide) l.bytes⟩
  have hblanks (count : Nat) : Unbroken (String.ofList (List.replicate count ' ')) := by
    simp [Unbroken]
  have hwhat : Unbroken l.what := by
    unfold what
    split
    next => exact Machine.unbroken_decoded _
    next => decide
  have hspace : Unbroken " " := by decide
  simp [shown, padRight, Text.unbroken_hexPadded, hbytes, hblanks, hwhat, hspace]

theorem Line.exists_shown_eq (l : Line) : ∃ rest, l.shown.toList =
    (hexPadded 16 l.address.toNat).toList ++ ' ' ::
      ((String.join (l.bytes.map byteText)).toList ++ ' ' :: rest) := by
  obtain ⟨count, hcount⟩ : ∃ count, padRight bytesWidth (String.join (l.bytes.map byteText)) =
      String.join (l.bytes.map byteText) ++ String.ofList (List.replicate count ' ') := ⟨_, rfl⟩
  have hblanks : List.replicate count ' ' ++ ' ' :: l.what.toList =
      ' ' :: (List.replicate count ' ' ++ l.what.toList) := by
    rw [← List.singleton_append, ← List.append_assoc, ← List.replicate_succ',
      List.replicate_succ, List.cons_append]
  refine ⟨List.replicate count ' ' ++ l.what.toList, ?_⟩
  rw [shown, hcount, ← hblanks]
  simp

theorem Line.address?_shown (l : Line) : address? l.shown = some l.address := by
  obtain ⟨rest, hrest⟩ := l.exists_shown_eq
  rw [address?, hrest, takeWhile_word (Text.not_mem_hexPadded (by decide) 16 _),
    Text.readUInt64?_of_readNumeral? (Text.readNumeral?_hexPadded 16 _) l.address.toNat_lt,
    UInt64.ofNat_toNat]

theorem Line.bytes?_shown (l : Line) : bytes? l.shown = some l.bytes := by
  obtain ⟨rest, hrest⟩ := l.exists_shown_eq
  rw [bytes?, hrest, dropWhile_word (Text.not_mem_hexPadded (by decide) 16 _), List.drop_one,
    List.tail_cons, takeWhile_word (not_mem_join (by decide) l.bytes), readBytes?_join]

theorem map_bytes?_shown (rows : List Line) :
    (rows.map Line.shown).map bytes? = (rows.map Line.bytes).map some := by
  simp [Line.bytes?_shown]

/-! ## Texts -/

theorem linesOf_join_text (rows : List Line) :
    Text.linesOf (String.join (rows.map Line.text)) = rows.map Line.shown := by
  induction rows with
  | nil => rfl
  | cons l rows ih =>
      obtain ⟨hnewline, hreturn⟩ := l.unbroken_shown
      have hdrop : Text.dropReturn l.shown.toList = l.shown.toList :=
        Text.dropReturn_of_getLast? fun heq => hreturn (List.mem_of_getLast? heq)
      rw [List.map_cons, String.join_cons, Line.text_eq, Text.linesOf_append_newline hnewline,
        ih, hdrop, String.ofList_toList, List.map_cons]

theorem linesOf_render (address : UInt64) (code : List UInt8) :
    Text.linesOf (render address code) = (lines address code).map Line.shown :=
  linesOf_join_text _

end AsmLoader.Listing
