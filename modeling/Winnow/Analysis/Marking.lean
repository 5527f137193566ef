import Winnow.Analysis.Inclusion

/-!
# Marking

Includes the variables that the entries export and walks all modules in execution order, again and
again as long as something asks for it. How deep questions may nest on the way is given.
-/

namespace Winnow.Marking

structure Options where
  treeshake : Bool := true
  /-- The most passes there may be; zero or less stands for a hundred. -/
  maxPasses : Int := 100
  deriving DecidableEq, Repr

def Options.limit (o : Options) : Nat := if o.maxPasses ≤ 0 then 100 else o.maxPasses.toNat

/-- How many top-level statements there are, how many of them are included, and how many passes it
took. -/
structure Stats where
  passes : Nat := 0
  statements : Nat := 0
  included : Nat := 0
  deriving DecidableEq, Repr

def Stats.removed (s : Stats) : Nat := s.statements - s.included

def countStatements (g : Graph) (p : Program) : Nat × Nat :=
  (p.body.length, (p.body.filter fun s => g.isIncluded s.info.id).length)

def count (g : Graph) (passes : Nat) : Stats :=
  let counts := (g.order.filterMap g.module?).map fun m => countStatements g m.program
  { passes
    statements := counts.foldl (fun n c => n + c.1) 0
    included := counts.foldl (fun n c => n + c.2) 0 }

/-- Includes the variables behind the exports of the entries. Whoever imports the bundle may change
exported objects, so nothing is assumed about their properties. -/
def includeEntryExports (depth : Nat) : Query Unit := do
  (← get).entries.forM fun m => do
    (← Query.link (Graph.entryExports m)).forM fun e => do
      Query.link (Inclusion.includeVariable e.2)
      (Queries.ofDepth depth).forget (.var e.2) Path.unknown

def walkModules (depth : Nat) (recursive : Bool) : Query Unit := do
  (← get).order.forM fun m => do
    match (← get).module? m with
    | some mod =>
      let _ ← Inclusion.includeNode depth recursive (.program mod.program)
    | none => return

def pass (depth : Nat) : Query Unit := do
  modify fun g => { g with needsPass := false }
  walkModules depth false

/-- Passes until none is asked for. Answers with how many there were, or with nothing if there are
more than allowed. -/
def settle (depth : Nat) : (left done : Nat) → Query (Option Nat)
  | 0, _ => return none
  | left + 1, done => do
    pass depth
    modify fun g => g.note "inclusion pass"
      [.mk (utf8 "pass") (.int (done + 1 : Nat)),
       .mk (utf8 "included") (.int (count g 0).included)]
    if (← get).needsPass then settle depth left (done + 1) else return some (done + 1)

inductive Outcome where
  | marked (stats : Stats)
  /-- Another pass was asked for after the last that was allowed. -/
  | unsettled (passes : Nat)
  deriving DecidableEq, Repr

def unsettledMessage (passes : Nat) : Bytes :=
  utf8 "dce: inclusion did not settle after " ++ Bytes.ofNat passes ++ utf8 " passes"

def mark (depth : Nat) (o : Options) : Query Outcome := do
  if o.treeshake then
    includeEntryExports depth
    match ← settle depth o.limit 0 with
    | some passes => return .marked (count (← get) passes)
    | none => return .unsettled o.limit
  else
    walkModules depth true
    includeEntryExports depth
    let stats := count (← get) 1
    modify fun g => g.note "tree-shaking disabled"
      [.mk (utf8 "statements") (.int stats.statements)]
    return .marked stats

end Winnow.Marking
