import AsmLoader.Machine.Register
import AsmLoader.Source.Literal
import AsmLoader.Text.Blank
/-!
# Tokens

A line of source as words, numbers, quoted texts and marks. Blanks separate tokens and a
semicolon ends the line. In a quoted text the quote itself is written twice.

The causes for which a line is refused are collected here, from its tokens to its operands.
-/

namespace AsmLoader.Source

inductive Token where
  | word (name : String)
  | number (value : Int64)
  | text (bytes : List UInt8)
  | mark (c : Char)
  deriving DecidableEq, Repr

def describe : Option Token → String
  | none => "end of line"
  | some (.word name) => "'" ++ name ++ "'"
  | some (.number value) => "'" ++ toString value.toInt ++ "'"
  | some (.text _) => "string"
  | some (.mark c) => "'" ++ c.toString ++ "'"

inductive LineError where
  | unclosedText
  | invalidNumber (word : String)
  | unexpectedCharacter (c : Char)
  | reservedLabel (name : String)
  | expectedInstruction (found : Token)
  | takesNoOperands (keyword : String)
  | missingValue (keyword : String)
  | textTooLong (keyword : String)
  | negativeCount (count : Int64)
  | unexpectedWord (word : String)
  | missingOperand
  | unclosedMemory
  | sizeWithoutMemory
  | reservedInExpression (name : String)
  | expectedExpression (found : Option Token)
  | unclosedParenthesis (found : Option Token)
  | afterExpression (found : Token)
  | characterConstantLength
  | productOfVariables
  | notConstant (name : String)
  | registerInConstant (r : Machine.Register)
  | labelArithmetic (name : String)
  | registerArithmetic
  | labelCombined (name : String)
  | labelExpression
  | notAddressable (r : Machine.Register)
  | bothScaled
  | tooManyRegisters
  | invalidScale (scale : Int64)
  | notIndexable (r : Machine.Register)
  | mixedAddressSizes
  | displacementRange (displacement : Int64)
  deriving DecidableEq, Repr

def LineError.message : LineError → String
  | unclosedText => "unterminated string"
  | invalidNumber word => s!"invalid number '{word}'"
  | unexpectedCharacter c => s!"unexpected character '{c}'"
  | reservedLabel name => s!"'{name}' is a reserved word and cannot be a label"
  | expectedInstruction found => "expected instruction but found " ++ describe (some found)
  | takesNoOperands keyword => s!"'{keyword}' takes no operands"
  | missingValue keyword => s!"missing value in '{keyword}'"
  | textTooLong keyword => s!"string does not fit in a '{keyword}' element"
  | negativeCount count => "reservation count " ++ toString count.toInt ++ " is negative"
  | unexpectedWord word => s!"unexpected '{word}'"
  | missingOperand => "missing operand"
  | unclosedMemory => "expected ']' at end of memory operand"
  | sizeWithoutMemory => "size override requires a memory operand"
  | reservedInExpression name => s!"unexpected '{name}' in expression"
  | expectedExpression found => "expected expression but found " ++ describe found
  | unclosedParenthesis found => "expected ')' but found " ++ describe found
  | afterExpression found => "unexpected " ++ describe (some found) ++ " after expression"
  | characterConstantLength => "character constant must hold 1 to 8 bytes"
  | productOfVariables => "multiplication requires a constant operand"
  | notConstant name => s!"'{name}' is not a constant"
  | registerInConstant r => "register '" ++ r.name ++ "' is not allowed here"
  | labelArithmetic name => s!"arithmetic on label '{name}' is not supported"
  | registerArithmetic => "register expressions are only allowed inside brackets"
  | labelCombined name => s!"label '{name}' cannot be combined with registers or a displacement"
  | labelExpression => "invalid label expression in memory operand"
  | notAddressable r => "'" ++ r.name ++ "' cannot be used for addressing"
  | bothScaled => "only one register can be scaled"
  | tooManyRegisters => "too many registers in memory operand"
  | invalidScale scale =>
    "invalid scale " ++ toString scale.toInt ++ ", expected 1, 2, 4 or 8"
  | notIndexable r => "'" ++ r.name ++ "' cannot be an index register"
  | mixedAddressSizes => "base and index registers must have the same size"
  | displacementRange displacement =>
    "displacement " ++ Text.hexLower displacement.toUInt64.toNat ++ " is out of range"

def quotedBody? (quote : Char) : List Char → Option (List Char × List Char)
  | [] => none
  | c :: rest =>
    if c ≠ quote then
      (quotedBody? quote rest).map fun (body, after) => (c :: body, after)
    else
      match rest with
      | d :: rest =>
        if d = quote then
          (quotedBody? quote rest).map fun (body, after) => (quote :: body, after)
        else some ([], d :: rest)
      | [] => some ([], [])

theorem length_lt_of_quotedBody? {quote : Char} {cs body after : List Char}
    (h : quotedBody? quote cs = some (body, after)) : after.length < cs.length := by
  fun_induction quotedBody? quote cs generalizing body after with
  | case1 => simp at h
  | case2 c rest _ ih =>
    obtain ⟨⟨body', after'⟩, hr, he⟩ := Option.map_eq_some_iff.1 h
    simp only [Prod.mk.injEq] at he
    have := ih hr
    simp only [← he.2, List.length_cons]
    omega
  | case3 c rest _ ih =>
    obtain ⟨⟨body', after'⟩, hr, he⟩ := Option.map_eq_some_iff.1 h
    simp only [Prod.mk.injEq] at he
    have := ih hr
    simp only [← he.2, List.length_cons]
    omega
  | case4 => simp_all
  | case5 => simp_all

def utf8Bytes (cs : List Char) : List UInt8 :=
  cs.flatMap String.utf8EncodeChar

def isMark (c : Char) : Bool :=
  c ∈ [',', '[', ']', '+', '-', '*', '(', ')', ':']

def wordToken (word : List Char) : Except LineError Token :=
  match readLiteral? word with
  | some value => .ok (.number value)
  | none =>
    if word.head?.any Symbol.isDigit then .error (.invalidNumber (String.ofList word))
    else .ok (.word (String.ofList word))

def tokenize (cs : List Char) : Except LineError (List Token) :=
  match cs with
  | [] => .ok []
  | c :: rest =>
    if Text.isBlank c then tokenize rest
    else if c = ';' then .ok []
    else if c = '\'' ∨ c = '"' then
      match _h : quotedBody? c rest with
      | none => .error .unclosedText
      | some (body, after) => do
        let tokens ← tokenize after
        return .text (utf8Bytes body) :: tokens
    else if Symbol.isNameChar c then do
      let token ← wordToken (c :: rest.takeWhile Symbol.isNameChar)
      let tokens ← tokenize (rest.dropWhile Symbol.isNameChar)
      return token :: tokens
    else if isMark c then do
      let tokens ← tokenize rest
      return .mark c :: tokens
    else .error (.unexpectedCharacter c)
termination_by cs.length
decreasing_by
  · exact Nat.lt_succ_self _
  · exact Nat.lt_succ_of_lt (length_lt_of_quotedBody? _h)
  · exact Nat.lt_succ_of_le (List.dropWhile_suffix _).length_le
  · exact Nat.lt_succ_self _

end AsmLoader.Source
