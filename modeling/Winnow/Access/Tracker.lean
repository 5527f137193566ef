import Winnow.Access.Path

/-!
# Recursion guards

`Tracker` remembers the questions that are being answered right now. One that is asked again before
it is answered gets a fixed answer, so the analysis does not run in circles. `Seen` remembers the
questions that were asked at all during one search for effects.
-/

namespace Winnow

structure Tracker (α : Type) where
  inFlight : List (α × Bytes) := []
  deriving DecidableEq, Repr

namespace Tracker

variable {α : Type} [BEq α]

def holds (t : Tracker α) (entity : α) (path : Path) : Bool :=
  t.inFlight.contains (entity, path.fingerprint)

def enter (t : Tracker α) (entity : α) (path : Path) : Tracker α :=
  ⟨(entity, path.fingerprint) :: t.inFlight⟩

def leave (t : Tracker α) (entity : α) (path : Path) : Tracker α :=
  ⟨t.inFlight.erase (entity, path.fingerprint)⟩

end Tracker

/-- A question, the questions it leads to in order, and whether it is given up after them. -/
inductive Inquiry (α : Type) where
  | ask (entity : α) (path : Path) (fails : Bool) (inner : List (Inquiry α))

/-- How a call ended, with what the calls in it were answered. -/
inductive Answer where
  | tracked
  | failed (inner : List Answer)
  | answered (inner : List Answer)
  deriving Repr

mutual

/-- Runs an inquiry under a tracker: unless it is in flight, it enters, the inner inquiries run one
after the other, and it leaves, also when it fails. -/
def Inquiry.run {α : Type} [BEq α] (t : Tracker α) : Inquiry α → Answer × Tracker α
  | .ask entity path fails inner =>
    if t.holds entity path then (.tracked, t)
    else
      let (answers, t) := Inquiry.runAll (t.enter entity path) inner
      (if fails then .failed answers else .answered answers, t.leave entity path)

def Inquiry.runAll {α : Type} [BEq α] (t : Tracker α) : List (Inquiry α) → List Answer × Tracker α
  | [] => ([], t)
  | i :: rest =>
    let (answer, t) := Inquiry.run t i
    let (answers, t) := Inquiry.runAll t rest
    (answer :: answers, t)

end

/-- The questions asked so far: an entity, a path and, where it matters, which use was meant. -/
structure Seen (α δ : Type) where
  entries : List (α × Option δ × Bytes) := []
  deriving Repr

namespace Seen

variable {α δ : Type} [BEq α] [BEq δ]

def holds (s : Seen α δ) (path : Path) (entity : α) (use : Option δ) : Bool :=
  s.entries.contains (entity, use, path.fingerprint)

/-- Asks a question: whether it was asked before, and the questions asked from now on. -/
def ask (s : Seen α δ) (path : Path) (entity : α) (use : Option δ) : Bool × Seen α δ :=
  if s.holds path entity use then (true, s)
  else (false, ⟨(entity, use, path.fingerprint) :: s.entries⟩)

def size (s : Seen α δ) : Nat := s.entries.length

end Seen

end Winnow
