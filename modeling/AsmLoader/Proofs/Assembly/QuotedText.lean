import AsmLoader.Proofs.Assembly.FixedSource
import AsmLoader.Proofs.Source.LineEnds
/-!
# Quoted texts as data

A text in quotes, with each quote in it written twice, is put into the code as its UTF-8 bytes.
Expansion takes a quote that is written twice for the end of one quoted text and the start of
another, and so changes nothing in either; the text is read as one.
-/

namespace AsmLoader.Source

open AsmLoader.Symbol (Table)

def doubled (quote : Char) (cs : List Char) : List Char :=
  cs.flatMap fun c => if c = quote then [c, c] else [c]

/-- The line of data that is one text in quotes. -/
def textLine (quote : Char) (text : String) : String :=
  "db " ++ String.ofList (quote :: (doubled quote text.toList ++ [quote]))

section Doubled

variable {quote : Char} {cs : List Char}

theorem doubled_cons_self :
    doubled quote (quote :: cs) = quote :: quote :: doubled quote cs := by
  simp [doubled]

theorem doubled_cons_of_ne {c : Char} (hc : c ≠ quote) :
    doubled quote (c :: cs) = c :: doubled quote cs := by
  simp [doubled, hc]

theorem mem_doubled {c : Char} : c ∈ doubled quote cs ↔ c ∈ cs := by
  induction cs with
  | nil => simp [doubled]
  | cons d cs ih =>
      by_cases hd : d = quote
      · rw [hd, doubled_cons_self, List.mem_cons, List.mem_cons, List.mem_cons, ih, or_self_left]
      · rw [doubled_cons_of_ne hd, List.mem_cons, List.mem_cons, ih]

theorem quotedBody?_doubled_append (quote : Char) (cs : List Char) :
    quotedBody? quote (doubled quote cs ++ [quote]) = some (cs, []) := by
  induction cs with
  | nil => exact quotedBody?_closed (by simp)
  | cons c cs ih =>
      by_cases hc : c = quote
      · subst hc
        rw [doubled_cons_self, List.cons_append, List.cons_append, quotedBody?_doubled, ih]
        rfl
      · rw [doubled_cons_of_ne hc, List.cons_append, quotedBody?_cons_of_ne hc, ih]
        rfl

theorem expandQuoted_doubled_append (t : Table) (hquote : quote = '\'' ∨ quote = '"')
    (hline : '\n' ∉ cs) :
    t.expandQuoted quote (doubled quote cs ++ [quote]) = doubled quote cs ++ [quote] := by
  induction cs with
  | nil =>
      have hclosing : t.expandQuoted quote [quote] = quote :: t.expand [] :=
        t.expandQuoted_cons_self
      rwa [t.expand_nil] at hclosing
  | cons c cs ih =>
      have hrest := ih fun hmem => hline (List.mem_cons_of_mem c hmem)
      by_cases hc : c = quote
      · subst hc
        rw [doubled_cons_self, List.cons_append, List.cons_append, t.expandQuoted_cons_self,
          t.expand_quote hquote, hrest]
      · have hcline : c ≠ '\n' := fun heq => hline (heq ▸ List.mem_cons_self)
        rw [doubled_cons_of_ne hc, List.cons_append, t.expandQuoted_cons_of_ne hc hcline, hrest]

end Doubled

/-! ## The line -/

section TextLine

variable {quote : Char} {text : String}

theorem toList_textLine (quote : Char) (text : String) :
    (textLine quote text).toList =
      "db".toList ++ ' ' :: quote :: (doubled quote text.toList ++ [quote]) := by
  simp [textLine]

theorem isPlainWord_db : IsPlainWord "db" :=
  ⟨by decide, rfl, by decide⟩

theorem expandString_textLine {t : Table} (hdb : t.find? "db" = none)
    (hquote : quote = '\'' ∨ quote = '"') (htext : '\n' ∉ text.toList) :
    t.expandString (textLine quote text) = textLine quote text := by
  have hdbWord := Symbol.isWord_of_isName isPlainWord_db.isName
  have hword : t.expandPiece (.word "db".toList) = "db".toList := by
    rw [Table.expandPiece, String.ofList_toList, hdb]
  apply String.toList_injective
  rw [Table.toList_expandString, toList_textLine, t.expand_word_append hdbWord rfl, hword,
    t.expand_other (by decide) (by decide) (by decide), t.expand_quote hquote,
    expandQuoted_doubled_append t hquote htext]

theorem tokenize_textLine (hquote : quote = '\'' ∨ quote = '"') (text : String) :
    tokenize (textLine quote text).toList =
      .ok [.word "db", .text (utf8Bytes text.toList)] := by
  have htext : tokenize (' ' :: quote :: (doubled quote text.toList ++ [quote])) =
      .ok [.text (utf8Bytes text.toList)] := by
    rw [tokenize_blank (by decide), tokenize_quote hquote, quotedBody?_doubled_append]
    simp only [tokenize_nil]
    rfl
  rw [toList_textLine, isPlainWord_db.tokenize_append rfl htext]

theorem parse_textLine (hquote : quote = '\'' ∨ quote = '"') (htext : '\n' ∉ text.toList) :
    parse (textLine quote text) =
      .ok [⟨1, [], .data .byte [.bytes (utf8Bytes text.toList)]⟩] := by
  have hline : '\n' ∉ (textLine quote text).toList := by
    have hne : '\n' ≠ quote := by rcases hquote with rfl | rfl <;> decide
    rw [toList_textLine]
    simp [mem_doubled, htext, hne]
  apply parse_of_line hline
  have hdb : Keyword.ofWord? "db" = some (.data .byte) := isPlainWord_db.ofWord?_eq
  have hlabels : readLabels none [.word "db", .text (utf8Bytes text.toList)] =
      (none, .ok ([], [.word "db", .text (utf8Bytes text.toList)])) := rfl
  have hitem : (splitCommas [.text (utf8Bytes text.toList)]).mapM
      (readDataItem none "db".toLower .byte) = .ok [.bytes (utf8Bytes text.toList)] := rfl
  simp only [readLine, tokenize_textLine hquote, hlabels, dataName?, readRest, readBody,
    hdb, hitem]
  rfl

end TextLine

end AsmLoader.Source

namespace AsmLoader.Assembly

open Source (expandString_textLine parse_textLine textLine)

theorem toUTF8_eq (text : String) : text.toUTF8.data.toList = Source.utf8Bytes text.toList := by
  rw [String.toUTF8_eq_toByteArray, ← String.utf8Encode_toList, List.utf8Encode,
    List.data_toByteArray]
  rfl

/-- A text in quotes is assembled to its UTF-8 bytes, whatever the text: it may have comments,
quotes and names of the table in it. -/
theorem assemble_textLine {t : Symbol.Table} (hdb : t.find? "db" = none) {quote : Char}
    (hquote : quote = '\'' ∨ quote = '"') {text : String} (htext : '\n' ∉ text.toList)
    {target : Target} (hbitness : target.bitness = 32 ∨ target.bitness = 64) :
    assemble (t.expandString (textLine quote text)) target = .ok text.toUTF8.data.toList := by
  obtain ⟨codeSize, hbits⟩ := exists_bits_eq_iff.mpr hbitness
  rw [expandString_textLine hdb hquote htext, toUTF8_eq]
  have hfixed : FixedBytes codeSize
      (contextOf codeSize [⟨1, [], .data .byte [.bytes (Source.utf8Bytes text.toList)]⟩])
      target.capacity ⟨1, [], .data .byte [.bytes (Source.utf8Bytes text.toList)]⟩
      (Source.utf8Bytes text.toList) := by
    refine ⟨.ofBytes [Source.utf8Bytes text.toList].flatten, rfl, ?_⟩
    rw [bytes?_ofBytes, List.flatten_singleton]
  have hcode := assemble_of_fixedBytes (parse_textLine hquote htext) hbits (by simp) (by simp)
    (.cons hfixed .nil)
  rwa [List.flatten_singleton] at hcode

/-- A text with a name of the table, a semicolon, both quotes and a letter of two bytes. -/
theorem assemble_textLine_names :
    assemble ((Symbol.Table.empty.insert "mov" 0x7FFF).expandString "db 'mov; \"it''s\" \u00e9'")
        ⟨0x10000000, 0x1000, 64⟩ =
      .ok [0x6D, 0x6F, 0x76, 0x3B, 0x20, 0x22, 0x69, 0x74, 0x27, 0x73, 0x22, 0x20, 0xC3,
        0xA9] := by
  have hline : "db 'mov; \"it''s\" \u00e9'" = textLine '\'' "mov; \"it's\" \u00e9" := by
    decide +kernel
  have hbytes : "mov; \"it's\" \u00e9".toUTF8.data.toList =
      [0x6D, 0x6F, 0x76, 0x3B, 0x20, 0x22, 0x69, 0x74, 0x27, 0x73, 0x22, 0x20, 0xC3, 0xA9] := by
    decide +kernel
  rw [hline, ← hbytes]
  exact assemble_textLine (by decide +kernel) (.inl rfl) (by decide +kernel) (.inr rfl)

end AsmLoader.Assembly
