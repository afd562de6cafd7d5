import AsmLoader.Text.Blank
/-!
# Diagnostics

What an assembler says about a source it cannot assemble, and how that is shown to a reader.
-/

namespace AsmLoader

/-- One problem of a source: where it stands, counted from line 1, what it is, and the text of
its line. -/
structure Diagnostic where
  line : Option Nat
  message : String
  source : Option String
  deriving DecidableEq, Repr, Inhabited

namespace Diagnostic

def general (message : String) : Diagnostic :=
  ⟨none, message, none⟩

def text (d : Diagnostic) : String :=
  let place := match d.line with
    | some line => s!"line {line}: error: "
    | none => "error: "
  let shown := match d.source with
    | some source => "\n    " ++ Text.trimString source
    | none => ""
  place ++ d.message ++ shown

def render (diagnostics : List Diagnostic) : String :=
  String.intercalate "\n" (diagnostics.map text)

theorem text_ne_empty (d : Diagnostic) : d.text ≠ "" := by
  unfold text
  cases d.line <;> simp [String.append_eq_empty_iff]

theorem render_eq_empty_iff {diagnostics : List Diagnostic} :
    render diagnostics = "" ↔ diagnostics = [] := by
  match diagnostics with
  | [] => simp [render]
  | [d] => simp [render, d.text_ne_empty]
  | d :: d' :: rest => simp [render, String.append_eq_empty_iff, d.text_ne_empty]

end Diagnostic

end AsmLoader
