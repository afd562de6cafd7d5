import AsmLoader.Machine.Instruction
/-!
# Names of instructions

The names under which instructions with like operands are selected, and, apart from these, the
list of the names that are handled at all. Names are written in lower case.
-/

namespace AsmLoader.Assembly

open Machine (Bare Arith Shift Unary Condition)

def bareNames : List (String × Bare) :=
  [("nop", .nop), ("int3", .int3), ("leave", .leave), ("cdq", .cdq), ("cqo", .cqo),
   ("cdqe", .cdqe), ("cld", .cld), ("std", .std), ("ud2", .ud2), ("pause", .pause),
   ("ret", .ret)]

def arithNames : List (String × Arith) :=
  [("add", .add), ("sub", .sub), ("and", .and), ("or", .or), ("xor", .xor), ("cmp", .cmp),
   ("adc", .adc), ("sbb", .sbb)]

def shiftNames : List (String × Shift) :=
  [("shl", .shl), ("sal", .shl), ("shr", .shr), ("sar", .sar), ("rol", .rol), ("ror", .ror)]

def unaryNames : List (String × Unary) :=
  [("inc", .inc), ("dec", .dec), ("neg", .neg), ("not", .not), ("mul", .mul), ("div", .div),
   ("idiv", .idiv), ("imul", .imul)]

def longModeNames : List String :=
  ["cqo", "cdqe", "movsxd"]

def after? : List Char → List Char → Option (List Char)
  | [], cs => some cs
  | _, [] => none
  | p :: ps, c :: cs => if p = c then after? ps cs else none

def suffix? (start name : String) : Option String :=
  (after? start.toList name.toList).map String.ofList

/-! ## Known names -/

def plainNames : List String :=
  ["nop", "int3", "leave", "cdq", "cqo", "cdqe", "cld", "std", "ud2", "pause", "ret",
   "mov", "add", "sub", "and", "or", "xor", "cmp", "adc", "sbb", "test", "xchg", "lea", "movzx",
   "movsx", "movsxd", "shl", "sal", "shr", "sar", "rol", "ror", "inc", "dec", "neg", "not",
   "mul", "div", "idiv", "imul", "push", "pop", "call", "jmp"]

def familyStarts : List String :=
  ["j", "set", "cmov"]

/-- Whether a name is handled at all, which tells operands that do not fit from unknown names. -/
def isKnown (name : String) : Bool :=
  plainNames.contains name ||
    familyStarts.any fun start =>
      (suffix? start name).any fun suffix => (Condition.ofSuffix? suffix).isSome

end AsmLoader.Assembly
