import AsmLoader.Diagnostic
/-!
# Engines

An engine turns source text into machine code for a target. It may carry a state of its own from
one request to the next; what it answers is either code or the diagnostics of a source it
refuses.
-/

namespace AsmLoader

abbrev Code := List UInt8

/-- Where code is to run: the address of its first byte, the room there is for it, and the code
size of sources that do not select one, which is 32 or 64 bits. -/
structure Target where
  base : UInt64
  capacity : UInt64
  bitness : Nat
  deriving DecidableEq, Repr, Inhabited

def Target.hostBitness : Nat := 64

abbrev Answer := Except (List Diagnostic) Code

/-- A way to assemble with states of type `σ`: from a state, a source and a target to an answer
and the next state. -/
structure Engine (σ : Type) where
  assemble : σ → String → Target → Answer × σ

def Engine.ofFunction (f : String → Target → Answer) : Engine Unit :=
  ⟨fun _ source target => (f source target, ())⟩

def Engine.sum {σ τ : Type} (e : Engine σ) (f : Engine τ) : Engine (σ ⊕ τ) where
  assemble state source target :=
    match state with
    | .inl state =>
      let (answer, next) := e.assemble state source target
      (answer, .inl next)
    | .inr state =>
      let (answer, next) := f.assemble state source target
      (answer, .inr next)

/-- The state of an engine that gives a prepared answer whatever it is asked, and remembers what
it was asked, in order. -/
structure Script where
  answer : Answer
  seen : List (String × Target)

def Script.defaultAnswer : Answer := .ok [0xC3]

def Script.start : Script := ⟨defaultAnswer, []⟩

def Engine.scripted : Engine Script :=
  ⟨fun script source target =>
    (script.answer, { script with seen := script.seen ++ [(source, target)] })⟩

end AsmLoader
