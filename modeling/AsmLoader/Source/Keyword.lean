import AsmLoader.Machine.Register
/-!
# Keywords

The words of a source that have a meaning of their own, in letters of any case. Together with the
names of registers they are reserved: nothing else can have their names.
-/

namespace AsmLoader.Source

open Machine (CodeSize Width Register)

inductive Keyword where
  | code (size : CodeSize)
  | data (unit : Width)
  | reserve (unit : Width)
  | size (width : Width)
  | pointer
  | distance
  deriving DecidableEq, Repr

def Keyword.ofLower? : String → Option Keyword
  | "use32" => some (.code .bits32)
  | "use64" => some (.code .bits64)
  | "db" => some (.data .byte)
  | "dw" => some (.data .word)
  | "dd" => some (.data .dword)
  | "dq" => some (.data .qword)
  | "rb" => some (.reserve .byte)
  | "rw" => some (.reserve .word)
  | "rd" => some (.reserve .dword)
  | "rq" => some (.reserve .qword)
  | "byte" => some (.size .byte)
  | "word" => some (.size .word)
  | "dword" => some (.size .dword)
  | "qword" => some (.size .qword)
  | "ptr" => some .pointer
  | "short" => some .distance
  | "near" => some .distance
  | _ => none

def Keyword.ofWord? (word : String) : Option Keyword :=
  Keyword.ofLower? word.toLower

def isReserved (word : String) : Bool :=
  (Register.ofName? word).isSome || (Keyword.ofWord? word).isSome

end AsmLoader.Source
