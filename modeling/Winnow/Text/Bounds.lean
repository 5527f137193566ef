/-!
# Character classes as lists of bounds

A class of code points is given by the increasing list of the places where membership changes. Long
lists are written as the lengths of these runs (`ofRuns`).
-/

namespace Winnow.Text

/-- The bounds of runs of these lengths. -/
def ofRuns : (start : Nat) → (runs : List Nat) → List Nat
  | _, [] => []
  | start, run :: runs => (start + run) :: ofRuns (start + run) runs

/-- Whether bounds enclose a code point. -/
def inside : (bounds : List Nat) → (code : Nat) → Bool
  | [], _ => false
  | bound :: bounds, code => if code < bound then false else !inside bounds code

end Winnow.Text
