import AsmLoader.Assembly.Selection
/-!
# Labels

Where the labels of a source are. A label waits for the next statement that emits something and
then names its place; labels that wait together name one place. Labels that still wait at the end
name the place after the code. A name that is defined again keeps its first place and is
reported.
-/

namespace AsmLoader.Assembly

open Source (Body DataItem Statement)

def takesRoom : DataItem → Bool
  | .bytes [] => false
  | _ => true

def emits (s : Statement) : Bool :=
  match s.body with
  | .instruction .. => true
  | .data _ items => items.any takesRoom
  | .reserve _ count => count != 0
  | .empty | .mode _ => false

structure Repetition where
  line : Nat
  name : String
  firstLine : Nat
  deriving DecidableEq, Repr

def Repetition.message (r : Repetition) : String :=
  "label '" ++ r.name ++ s!"' is already defined on line {r.firstLine}"

/-- The labels after some statements: the line of each name's first definition, the names that
wait for a place, the names that have one, and the number of places. -/
structure Labels where
  defined : List (String × Nat)
  waiting : List String
  placed : List (String × PlaceId)
  places : Nat
  repetitions : List Repetition
  deriving DecidableEq, Repr

namespace Labels

def empty : Labels := ⟨[], [], [], 0, []⟩

def define (line : Nat) (labels : Labels) (name : String) : Labels :=
  match labels.defined.lookup name with
  | some firstLine =>
    { labels with repetitions := labels.repetitions ++ [⟨line, name, firstLine⟩] }
  | none =>
    { labels with
      defined := labels.defined ++ [(name, line)]
      waiting := labels.waiting ++ [name] }

def settle (labels : Labels) : Labels × PlaceId :=
  if labels.waiting.isEmpty then (labels, 0)
  else
    let place := UInt64.ofNat (labels.places + 1)
    ({ labels with
        waiting := []
        placed := labels.placed ++ labels.waiting.map (·, place)
        places := labels.places + 1 }, place)

def statement (labels : Labels) (s : Statement) : Labels × PlaceId :=
  let labels := s.labels.foldl (define s.line) labels
  if emits s then labels.settle else (labels, 0)

def statements (labels : Labels) : List Statement → Labels × List PlaceId
  | [] => (labels, [])
  | s :: rest =>
    let (labels, place) := labels.statement s
    let (labels, places) := labels.statements rest
    (labels, place :: places)

def find? (labels : Labels) (name : String) : Option PlaceId :=
  labels.placed.lookup name

end Labels

/-- The labels of a whole source, the number of the place of each statement, and that of the
place after the code, which is 0 if no label names it. -/
def bindLabels (statements : List Statement) : Labels × List PlaceId × PlaceId :=
  let (labels, places) := Labels.empty.statements statements
  let (labels, last) := labels.settle
  (labels, places, last)

end AsmLoader.Assembly
