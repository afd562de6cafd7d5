import AsmLoader.Proofs.Assembly.Acceptance
import AsmLoader.Proofs.Source.LineEnds
/-!
# Padding

Lines of a source that say nothing, and comments at the ends of others. A source with more of
them is read as the same statements, on other lines and with statements among them that say
nothing either.
-/

namespace AsmLoader.Source

open Machine (CodeSize Width)

/-! ## Lines that say nothing -/

/-- What says nothing to a target of some bitness: nothing at all, the code size that it has
anyway, an empty text, and a reservation of no elements. -/
def Body.IsSilent (bitness : Nat) : Body → Prop
  | empty => True
  | mode size => size.bits = bitness
  | instruction .. => False
  | data _ items => items = [.bytes []]
  | reserve _ count => count = 0

inductive SilentTokens (bitness : Nat) : List Token → Prop where
  | nothing : SilentTokens bitness []
  | mode {word : String} {size : CodeSize} (h : Keyword.ofWord? word = some (.code size))
      (hsize : size.bits = bitness) : SilentTokens bitness [.word word]
  | data {word : String} (h : Keyword.ofWord? word = some (.data .byte)) :
      SilentTokens bitness [.word word, .text []]
  | reserve {word : String} {unit : Width} (h : Keyword.ofWord? word = some (.reserve unit)) :
      SilentTokens bitness [.word word, .number 0]

def silentTexts (bitness : Nat) : List String :=
  ["", "db ''", "db \"\"", "rb 0", "rw 0", "rd 0", "rq 0", "use" ++ toString bitness]

/-- A line that says nothing to a target of some bitness: one of a few texts with blanks around
it and a comment after it, if there is any. -/
def IsSilent (bitness : Nat) (line : String) : Prop :=
  ∃ before text after comment, text ∈ silentTexts bitness ∧
    line.toList = before ++ text.toList ++ after ++ comment ∧
      (∀ c ∈ before, Text.isBlank c) ∧ (∀ c ∈ after, Text.isBlank c) ∧
      ∀ c ∈ comment.head?, c = ';'

def IsComment (text : String) : Prop :=
  ∃ blanks comment, text.toList = blanks ++ ';' :: comment ∧ ∀ c ∈ blanks, Text.isBlank c

section Silent

variable {bitness : Nat} {tokens : List Token}

theorem readRest_silent (scope : Scope) (h : SilentTokens bitness tokens) :
    ∃ read, readRest scope [] tokens = .ok read ∧
      ∀ p ∈ read, p.1 = [] ∧ p.2.IsSilent bitness := by
  cases h with
  | nothing => exact ⟨none, rfl, by simp⟩
  | @mode word size hword hsize =>
      refine ⟨some ([], .mode size), ?_, by simpa [Body.IsSilent] using hsize⟩
      simp [readRest, readBody, hword, Except.map]
  | @data word hword =>
      refine ⟨some ([], .data .byte [.bytes []]), ?_, by simp [Body.IsSilent]⟩
      have hitems : (splitCommas [.text []]).mapM (readDataItem scope word.toLower .byte) =
          .ok [.bytes []] := rfl
      simp [readRest, readBody, hword, hitems, Except.map]
  | @reserve word unit hword =>
      refine ⟨some ([], .reserve unit 0), ?_, by simp [Body.IsSilent]⟩
      have hcount : readConstant scope [.number 0] = .ok 0 := rfl
      simp [readRest, readBody, hword, hcount, ok_bind, Except.map]
      rfl

theorem readLine_silent {line : List Char} (hline : tokenize line = .ok tokens)
    (h : SilentTokens bitness tokens) (scope : Scope) :
    ∃ read, readLine scope line = (scope, .ok read) ∧
      ∀ p ∈ read, p.1 = [] ∧ p.2.IsSilent bitness := by
  have hlabels : readLabels scope tokens = (scope, .ok ([], tokens)) := by cases h <;> rfl
  have hname : dataName? tokens = none := by cases h <;> rfl
  obtain ⟨read, hread, hsilent⟩ := readRest_silent scope h
  refine ⟨read, ?_, hsilent⟩
  simp only [readLine, hline, hlabels, hname, hread]

theorem tokenize_empty_text {quote : Char} (hquote : quote = '\'' ∨ quote = '"') :
    tokenize [' ', quote, quote] = .ok [.text []] := by
  rw [tokenize_blank (by decide), tokenize_quote hquote, quotedBody?_closed (by simp)]
  simp only [tokenize_nil]
  rfl

theorem tokenize_zero : tokenize [' ', '0'] = .ok [.number 0] := by
  have hzero : wordToken ['0'] = .ok (.number 0) := rfl
  rw [tokenize_blank (by decide), tokenize_name (by decide), List.takeWhile_nil, hzero,
    List.dropWhile_nil, tokenize_nil]
  rfl

theorem tokens_empty_text {quote : Char} (hquote : quote = '\'' ∨ quote = '"') :
    ∃ tokens, tokenize ("db".toList ++ [' ', quote, quote]) = .ok tokens ∧
      SilentTokens bitness tokens := by
  have hdb : IsPlainWord "db" := ⟨by decide, rfl, by decide⟩
  exact ⟨_, hdb.tokenize_append rfl (tokenize_empty_text hquote), .data hdb.ofWord?_eq⟩

theorem tokens_reserve {word : String} {unit : Width} (hword : IsPlainWord word)
    (hunit : Keyword.ofLower? word = some (.reserve unit)) :
    ∃ tokens, tokenize (word.toList ++ [' ', '0']) = .ok tokens ∧ SilentTokens bitness tokens :=
  ⟨_, hword.tokenize_append rfl tokenize_zero, .reserve (hword.ofWord?_eq.trans hunit)⟩

theorem tokens_mode {word : String} {size : CodeSize} (hword : IsPlainWord word)
    (hsize : Keyword.ofLower? word = some (.code size)) (hbits : size.bits = bitness) :
    ∃ tokens, tokenize (word.toList ++ []) = .ok tokens ∧ SilentTokens bitness tokens :=
  ⟨_, hword.tokenize_append rfl tokenize_nil, .mode (hword.ofWord?_eq.trans hsize) hbits⟩

theorem tokens_of_mem_silentTexts (hbitness : bitness = 32 ∨ bitness = 64) {text : String}
    (h : text ∈ silentTexts bitness) :
    ∃ tokens, tokenize text.toList = .ok tokens ∧ SilentTokens bitness tokens := by
  have hrb : IsPlainWord "rb" := ⟨by decide, rfl, by decide⟩
  have hrw : IsPlainWord "rw" := ⟨by decide, rfl, by decide⟩
  have hrd : IsPlainWord "rd" := ⟨by decide, rfl, by decide⟩
  have hrq : IsPlainWord "rq" := ⟨by decide, rfl, by decide⟩
  have huse32 : IsPlainWord "use32" := ⟨by decide, rfl, by decide⟩
  have huse64 : IsPlainWord "use64" := ⟨by decide, rfl, by decide⟩
  simp only [silentTexts, List.mem_cons, List.not_mem_nil, or_false] at h
  rcases h with rfl | rfl | rfl | rfl | rfl | rfl | rfl | rfl
  · exact ⟨[], tokenize_nil, .nothing⟩
  · exact tokens_empty_text (.inl rfl)
  · exact tokens_empty_text (.inr rfl)
  · exact tokens_reserve hrb rfl
  · exact tokens_reserve hrw rfl
  · exact tokens_reserve hrd rfl
  · exact tokens_reserve hrq rfl
  · rcases hbitness with rfl | rfl
    · exact tokens_mode huse32 rfl rfl
    · exact tokens_mode huse64 rfl rfl

theorem tokens_of_isSilent (hbitness : bitness = 32 ∨ bitness = 64) {line : String}
    (h : IsSilent bitness line) :
    ∃ tokens, tokenize line.toList = .ok tokens ∧ SilentTokens bitness tokens := by
  obtain ⟨before, text, after, comment, htext, hline, hbefore, hafter, hcomment⟩ := h
  obtain ⟨tokens, htokens, hsilent⟩ := tokens_of_mem_silentTexts hbitness htext
  have hblanks : tokenize (before ++ text.toList ++ after) = .ok tokens := by
    rw [tokenize_append_blanks _ hafter, tokenize_blanks_append hbefore, htokens]
  refine ⟨tokens, ?_, hsilent⟩
  cases comment with
  | nil => rwa [hline, List.append_nil]
  | cons c comment =>
      obtain rfl : c = ';' := hcomment c rfl
      rw [hline, tokenize_append_comment hblanks]

end Silent

/-! ## More lines -/

/-- Lines among others that say nothing, where a line may be another one that has the same
tokens. -/
inductive LinesPadded (bitness : Nat) : List String → List String → Prop where
  | nil : LinesPadded bitness [] []
  | line {line line' : String} {lines lines' : List String}
      (h : ∀ tokens, tokenize line.toList = .ok tokens → tokenize line'.toList = .ok tokens)
      (rest : LinesPadded bitness lines lines') :
      LinesPadded bitness (line :: lines) (line' :: lines')
  | silent {line' : String} {tokens : List Token} {lines lines' : List String}
      (h : tokenize line'.toList = .ok tokens) (hsilent : SilentTokens bitness tokens)
      (rest : LinesPadded bitness lines lines') : LinesPadded bitness lines (line' :: lines')

inductive StatementsPadded (bitness : Nat) : List Statement → List Statement → Prop where
  | nil : StatementsPadded bitness [] []
  | statement {s s' : Statement} {statements statements' : List Statement}
      (hlabels : s'.labels = s.labels) (hbody : s'.body = s.body)
      (rest : StatementsPadded bitness statements statements') :
      StatementsPadded bitness (s :: statements) (s' :: statements')
  | silent {s' : Statement} {statements statements' : List Statement} (hlabels : s'.labels = [])
      (hbody : s'.body.IsSilent bitness)
      (rest : StatementsPadded bitness statements statements') :
      StatementsPadded bitness statements (s' :: statements')

namespace LinesPadded

variable {bitness : Nat} {lines lines' more more' : List String}

theorem refl (lines : List String) : LinesPadded bitness lines lines := by
  induction lines with
  | nil => exact .nil
  | cons line lines ih => exact .line (fun _ h => h) ih

theorem append (h : LinesPadded bitness lines lines') (hmore : LinesPadded bitness more more') :
    LinesPadded bitness (lines ++ more) (lines' ++ more') := by
  induction h with
  | nil => exact hmore
  | line h _ ih => exact .line h ih
  | silent h hsilent _ ih => exact .silent h hsilent ih

end LinesPadded

/-! ## Padded sources -/

/-- A source with one more line that says nothing, after any number of complete lines or after
the last line of all, or with a comment at the end of some line. -/
inductive Padded (bitness : Nat) : String → String → Prop where
  | line {before line after : String} (hbefore : Text.IsComplete before.toList)
      (hline : '\n' ∉ line.toList) (hsilent : IsSilent bitness line) :
      Padded bitness (before ++ after) (before ++ (line ++ "\n" ++ after))
  | last {before line : String} (hbefore : Text.IsComplete before.toList)
      (hline : '\n' ∉ line.toList) (hsilent : IsSilent bitness line) :
      Padded bitness before (before ++ line)
  | afterLast {source line : String} (hline : '\n' ∉ line.toList)
      (hsilent : IsSilent bitness line) : Padded bitness source (source ++ "\n" ++ line)
  | comment {before comment after : String} (hline : '\n' ∉ comment.toList)
      (hcomment : IsComment comment)
      (hafter : after = "" ∨ ∃ rest, after = "\n" ++ rest ∨ after = "\r\n" ++ rest) :
      Padded bitness (before ++ after) (before ++ (comment ++ after))

section Padded

variable {bitness : Nat} {lines lines' : List String} {line line' : String}

theorem exists_isComplete_append_last (source : String) :
    ∃ before last : String, source = before ++ last ∧ Text.IsComplete before.toList ∧
      '\n' ∉ last.toList := by
  obtain ⟨before, last, hsource, hbefore, hlast⟩ := Text.exists_isComplete_append source.toList
  refine ⟨String.ofList before, String.ofList last, String.toList_injective ?_, ?_, ?_⟩
  · rw [hsource, String.toList_append, String.toList_ofList, String.toList_ofList]
  · rwa [String.toList_ofList]
  · rwa [String.toList_ofList]

theorem tokenize_append_of_isComment {line : List Char} {comment : String} {tokens : List Token}
    (hline : tokenize line = .ok tokens) (h : IsComment comment) :
    tokenize (line ++ comment.toList) = .ok tokens := by
  obtain ⟨blanks, rest, htext, hblanks⟩ := h
  rw [htext, ← List.append_assoc]
  exact tokenize_append_comment ((tokenize_append_blanks line hblanks).trans hline) rest

theorem tokenize_ofList_dropReturn (line : List Char) :
    tokenize (String.ofList (Text.dropReturn line)).toList = tokenize line := by
  rw [String.toList_ofList, tokenize_dropReturn]

namespace LinesPadded

theorem of_isSilent (hbitness : bitness = 32 ∨ bitness = 64) (h : IsSilent bitness line)
    (hline : tokenize line'.toList = tokenize line.toList)
    (rest : LinesPadded bitness lines lines') : LinesPadded bitness lines (line' :: lines') := by
  obtain ⟨tokens, htokens, hsilent⟩ := tokens_of_isSilent hbitness h
  exact .silent (hline.trans htokens) hsilent rest

theorem linesOf_of_isSilent (hbitness : bitness = 32 ∨ bitness = 64) (h : IsSilent bitness line)
    (hline : '\n' ∉ line.toList) : LinesPadded bitness [] (Text.linesOf line) := by
  by_cases hne : line.toList = []
  · rw [Text.linesOf, hne]
    exact .nil
  · rw [Text.linesOf_of_not_mem hline hne]
    exact of_isSilent hbitness h rfl .nil

theorem linesOf_append_newline (hline : '\n' ∉ line.toList) {rest : String}
    (hrest : LinesPadded bitness [] (Text.linesOf rest)) :
    LinesPadded bitness (Text.linesOf line) (Text.linesOf (line ++ "\n" ++ rest)) := by
  rw [Text.linesOf_append_newline hline]
  by_cases hne : line.toList = []
  · rw [Text.linesOf, hne]
    exact .silent ((tokenize_ofList_dropReturn []).trans tokenize_nil) .nothing hrest
  · rw [Text.linesOf_of_not_mem hline hne]
    refine .line (fun tokens htokens => ?_) hrest
    rwa [tokenize_ofList_dropReturn]

theorem linesOf_append_comment (hline : '\n' ∉ line.toList) {comment : String}
    (hcline : '\n' ∉ comment.toList) (hcomment : IsComment comment) :
    LinesPadded bitness (Text.linesOf line) (Text.linesOf (line ++ comment)) := by
  have hlines : Text.linesOf (line ++ comment) = [line ++ comment] := by
    obtain ⟨blanks, rest, htext, -⟩ := hcomment
    exact Text.linesOf_of_not_mem (by simp [hline, hcline]) (by simp [htext])
  rw [hlines]
  by_cases hne : line.toList = []
  · rw [Text.linesOf, hne]
    refine .silent ?_ .nothing .nil
    rw [String.toList_append]
    exact tokenize_append_of_isComment (hne ▸ tokenize_nil) hcomment
  · rw [Text.linesOf_of_not_mem hline hne]
    refine .line (fun tokens htokens => ?_) .nil
    rw [String.toList_append]
    exact tokenize_append_of_isComment htokens hcomment

theorem linesOf_append_comment_newline (hline : '\n' ∉ line.toList) {comment : String}
    (hcline : '\n' ∉ comment.toList) (hcomment : IsComment comment) (blanks : String)
    (hblanks : '\n' ∉ blanks.toList) (hblank : ∀ c ∈ blanks.toList, Text.isBlank c)
    (rest : String) :
    LinesPadded bitness (Text.linesOf (line ++ blanks ++ "\n" ++ rest))
      (Text.linesOf (line ++ comment ++ blanks ++ "\n" ++ rest)) := by
  rw [Text.linesOf_append_newline (by simp [hline, hblanks]),
    Text.linesOf_append_newline (by simp [hline, hcline, hblanks])]
  refine .line (fun tokens htokens => ?_) (refl _)
  rw [tokenize_ofList_dropReturn, String.toList_append,
    tokenize_append_blanks _ hblank] at htokens ⊢
  rw [String.toList_append]
  exact tokenize_append_of_isComment htokens hcomment

theorem of_padded (hbitness : bitness = 32 ∨ bitness = 64) {source source' : String}
    (h : Padded bitness source source') :
    LinesPadded bitness (Text.linesOf source) (Text.linesOf source') := by
  cases h with
  | @line before line after hbefore hline hsilent =>
      rw [Text.linesOf_append hbefore, Text.linesOf_append hbefore,
        Text.linesOf_append_newline hline]
      exact (refl _).append
        (of_isSilent hbitness hsilent (tokenize_ofList_dropReturn _) (refl _))
  | @last before line hbefore hline hsilent =>
      have hmore := (refl (Text.linesOf source) : LinesPadded bitness _ _).append
        (linesOf_of_isSilent hbitness hsilent hline)
      rwa [List.append_nil, ← Text.linesOf_append hbefore] at hmore
  | @afterLast source line hline hsilent =>
      obtain ⟨before, last, rfl, hbefore, hlast⟩ := exists_isComplete_append_last source
      have htext : before ++ last ++ "\n" ++ line = before ++ (last ++ "\n" ++ line) := by
        simp only [String.append_assoc]
      rw [htext, Text.linesOf_append hbefore, Text.linesOf_append hbefore]
      exact (refl _).append
        (linesOf_append_newline hlast (linesOf_of_isSilent hbitness hsilent hline))
  | @comment start comment after hcline hcomment hafter =>
      obtain ⟨before, last, rfl, hbefore, hlast⟩ := exists_isComplete_append_last start
      simp only [String.append_assoc]
      rw [Text.linesOf_append hbefore, Text.linesOf_append hbefore]
      refine (refl _).append ?_
      rcases hafter with rfl | ⟨rest, rfl | rfl⟩
      · have hmore : LinesPadded bitness _ _ := linesOf_append_comment hlast hcline hcomment
        simpa only [String.append_empty] using hmore
      · have hmore : LinesPadded bitness _ _ :=
          linesOf_append_comment_newline hlast hcline hcomment "" (by simp) (by simp) rest
        simpa only [String.append_assoc, String.empty_append] using hmore
      · have hmore : LinesPadded bitness _ _ :=
          linesOf_append_comment_newline hlast hcline hcomment "\r" (by simp)
          (by simp; decide) rest
        have hreturn : "\r\n" = "\r" ++ "\n" := by decide
        simpa only [hreturn, String.append_assoc] using hmore

end LinesPadded

end Padded

/-! ## Reading them -/

def statementOf (number : Nat) (read : Option (List String × Body)) : List Statement :=
  (read.map fun p => ⟨number, p.1, p.2⟩).toList

theorem readLines_cons {scope next : Scope} {line : String} {read : Option (List String × Body)}
    (h : readLine scope line.toList = (next, .ok read)) (number : Nat) (rest : List String) :
    readLines scope number (line :: rest) =
      (statementOf number read ++ (readLines next (number + 1) rest).1,
        (readLines next (number + 1) rest).2) := by
  rw [readLines, h]
  cases read <;> rfl

theorem exists_readLine_eq {scope : Scope} {number : Nat} {line : String} {rest : List String}
    (h : (readLines scope number (line :: rest)).2 = []) :
    ∃ read, readLine scope line.toList = ((readLine scope line.toList).1, .ok read) := by
  obtain ⟨read, hread⟩ := exists_read_of_readLines h (List.nil_append _).symm
  exact ⟨read, Prod.ext rfl hread⟩

/-- Lines that say nothing bring in no report, and no other statements than such as
say nothing. -/
theorem readLines_padded {bitness : Nat} {lines lines' : List String}
    (h : LinesPadded bitness lines lines') {scope : Scope} {number : Nat}
    (hread : (readLines scope number lines).2 = []) (number' : Nat) :
    (readLines scope number' lines').2 = [] ∧
      StatementsPadded bitness (readLines scope number lines).1
        (readLines scope number' lines').1 := by
  induction h generalizing scope number number' with
  | nil => exact ⟨rfl, .nil⟩
  | @line line line' lines lines' htokens _ ih =>
      obtain ⟨read, hfirst⟩ := exists_readLine_eq hread
      have hsecond :
          readLine scope line'.toList = ((readLine scope line.toList).1, .ok read) := by
        cases h : tokenize line.toList with
        | error e =>
            rw [readLine, h] at hfirst
            cases hfirst
        | ok tokens => rw [readLine_congr ((htokens tokens h).trans h.symm), ← hfirst]
      rw [readLines_cons hfirst] at hread
      obtain ⟨hreports, hrest⟩ := ih hread (number' + 1)
      rw [readLines_cons hfirst, readLines_cons hsecond]
      refine ⟨hreports, ?_⟩
      cases read with
      | none => exact hrest
      | some p => exact .statement rfl rfl hrest
  | @silent line' tokens lines lines' htokens hsilent _ ih =>
      obtain ⟨read, hline, hbody⟩ := readLine_silent htokens hsilent scope
      obtain ⟨hreports, hrest⟩ := ih hread (number' + 1)
      rw [readLines_cons hline]
      refine ⟨hreports, ?_⟩
      cases read with
      | none => exact hrest
      | some p => exact .silent (hbody p rfl).1 (hbody p rfl).2 hrest

theorem parse_eq_ok_iff {source : String} {statements : List Statement} :
    parse source = .ok statements ↔
    readLines none 1 (Text.linesOf source) = (statements, []) := by
  unfold parse
  split
  next heq => simp [heq]
  next statements' diagnostics hne heq =>
    rw [heq]
    constructor
    · intro h
      cases h
    · intro h
      exact (hne (Prod.mk.inj h).2).elim

theorem parse_padded {bitness : Nat} {source source' : String} {statements : List Statement}
    (hparse : parse source = .ok statements)
    (h : LinesPadded bitness (Text.linesOf source) (Text.linesOf source')) :
    ∃ statements', parse source' = .ok statements' ∧
      StatementsPadded bitness statements statements' := by
  rw [parse_eq_ok_iff] at hparse
  obtain ⟨hreports, hpadded⟩ := readLines_padded h (congrArg Prod.snd hparse) 1
  rw [hparse] at hpadded
  exact ⟨_, parse_eq_ok_iff.mpr (Prod.ext rfl hreports), hpadded⟩

end AsmLoader.Source
