import Winnow.Data.Yaml.Cursor

/-!
# Gaps inside scalars

On one line the blanks between two words count as they are. Across lines one line break counts as a
blank, and of several all but the first one count.
-/

namespace Winnow.Yaml

/-- The blanks and line breaks between two words. -/
structure Gap where
  blanks : List Nat := []
  leading : List Nat := []
  trailing : List Nat := []
  isBroken : Bool := false

namespace Gap

/-- What a gap counts as. -/
def codes (g : Gap) : List Nat :=
  if !g.isBroken then g.blanks
  else if g.leading ≠ [10] then (g.leading ++ g.trailing).reverse
  else if g.trailing.isEmpty then [32]
  else g.trailing.reverse

def withBreak (g : Gap) (codes : List Nat) : Gap :=
  if g.isBroken then { g with trailing := g.trailing ++ codes }
  else { g with blanks := [], leading := codes, isBroken := true }

def scan (start : Mark) (column : Nat) : (steps : Nat) → Gap → Scan Gap
  | 0, g => return g
  | n + 1, g => do
    let code ← Scan.current
    if isBlank code then
      if g.isBroken && code = 9 && (← Scan.mark).column < column then
        Scan.fail start "found a tab character that violates indentation"
      Scan.skip
      Scan.need 1
      scan start column n (if g.isBroken then g else { g with blanks := code :: g.blanks })
    else if isBreak code then
      Scan.need 2
      let codes ← Scan.takeBreak
      Scan.need 1
      scan start column n (g.withBreak codes)
    else return g

end Gap

end Winnow.Yaml
