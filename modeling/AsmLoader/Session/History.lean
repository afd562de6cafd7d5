import AsmLoader.Session
/-!
# Histories

What can be done to the managers and units of a process, one operation after the other. An
operation on what is not there changes nothing; that of running code does not either, because
generated code is taken to leave the regions alone.
-/

namespace AsmLoader.Session

open Region (Config Host)

variable {σ : Type}

/-- An operation on a session whose engine has states of type `σ`. Each request for a region is
answered by a host of its own, so that any outcome of mapping may occur at any time. -/
inductive Operation (σ : Type) where
  | openManager (host : Host) (config : Config)
  | release (manager : Handle)
  | createUnit (engine : σ)
  | dropUnit (unit : Handle)
  | setSource (unit : Handle) (source : String)
  | setEngine (unit : Handle) (engine : σ)
  | attach (unit manager : Handle)
  | detach (unit : Handle)
  | predefine (unit : Handle) (name : String) (address : UInt64)
  | undefine (unit : Handle) (name : String)
  | clearPredefinitions (unit : Handle)
  | assemble (unit : Handle)
  | run (unit : Handle) (guarded : Bool)

def perform (e : Engine σ) (s : Session σ) : Operation σ → Session σ
  | .openManager host config =>
    match s.openManager host config with
    | .ok (_, next) => next
    | .error _ => s
  | .release manager => s.release manager
  | .createUnit engine => (s.createUnit engine).2
  | .dropUnit unit => s.dropUnit unit
  | .setSource unit source => s.modifyUnit unit (·.setSource source)
  | .setEngine unit engine => s.modifyUnit unit (·.setEngine engine)
  | .attach unit manager => s.attach unit manager
  | .detach unit => s.modifyUnit unit (·.detach)
  | .predefine unit name address =>
    s.modifyUnit unit (·.mapSymbols (·.insert name address))
  | .undefine unit name => s.modifyUnit unit (·.mapSymbols (·.erase name))
  | .clearPredefinitions unit => s.modifyUnit unit (·.mapSymbols fun _ => .empty)
  | .assemble unit =>
    match s.assemble e unit with
    | some (_, next) => next
    | none => s
  | .run _ _ => s

def after (e : Engine σ) (operations : List (Operation σ)) : Session σ :=
  operations.foldl (perform e) empty

@[simp] theorem after_concat (e : Engine σ) (operations : List (Operation σ))
    (operation : Operation σ) :
    after e (operations ++ [operation]) = (after e operations).perform e operation := by
  rw [after, List.foldl_append]
  rfl

def loadsFor (e : Engine σ) (s : Session σ) (manager : Handle) : Operation σ → Bool
  | .assemble unit =>
    match s.assemble e unit with
    | some (.ok (.compiled _ _), _) => (s.units.find? unit).any (·.manager = some manager)
    | _ => false
  | _ => false

def loadsFrom (e : Engine σ) (s : Session σ) (manager : Handle) : List (Operation σ) → Nat
  | [] => 0
  | operation :: rest =>
    (s.loadsFor e manager operation).toNat + loadsFrom e (s.perform e operation) manager rest

def loadCount (e : Engine σ) (operations : List (Operation σ)) (manager : Handle) : Nat :=
  loadsFrom e empty manager operations

/-- No manager has loaded code as often as 64 bits can count. -/
def FewLoads (e : Engine σ) (operations : List (Operation σ)) : Prop :=
  ∀ manager, loadCount e operations manager < UInt64.size

end AsmLoader.Session
