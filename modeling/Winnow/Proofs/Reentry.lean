import Winnow.Access.Tracker

/-!
# The tracker is a stack

Inquiries on one tracker nest, repeat each other and fail. What a call is answered, and what the calls
in it are, is a matter of the calls around that are still running (`answer`): `runs_by_around` says
that a run gives these answers on every tracker, and leaves the tracker as it found it. So no call that
ended before, by an answer or by a failure, counts.
-/

namespace Winnow.Inquiry

variable {α : Type}

/-- What the tracker tells calls apart by. -/
def key : Inquiry α → α × Bytes
  | ask entity path _ _ => (entity, path.fingerprint)

variable [DecidableEq α]

mutual

/-- What a call is answered while the calls with the keys `around` are running, the innermost first.
The calls in it run while it is running as well. -/
def answer (around : List (α × Bytes)) : Inquiry α → Answer
  | ask entity path fails inner =>
    if (entity, path.fingerprint) ∈ around then .tracked
    else
      let inside := answers ((entity, path.fingerprint) :: around) inner
      if fails then .failed inside else .answered inside

def answers (around : List (α × Bytes)) : List (Inquiry α) → List Answer
  | [] => []
  | i :: rest => answer around i :: answers around rest

end

theorem answers_eq_map (around : List (α × Bytes)) (calls : List (Inquiry α)) :
    answers around calls = calls.map (answer around) := by
  induction calls with
  | nil => rfl
  | cons i rest ih => rw [answers, ih, List.map_cons]

theorem answer_tracked_iff (around : List (α × Bytes)) (i : Inquiry α) :
    answer around i = .tracked ↔ i.key ∈ around := by
  obtain ⟨entity, path, fails, inner⟩ := i
  rw [key, answer]
  split
  · next h => simp [h]
  · next h => cases fails <;> simp [h]

theorem leave_enter (t : Tracker α) (entity : α) (path : Path) :
    (t.enter entity path).leave entity path = t := by
  simp [Tracker.enter, Tracker.leave]

-- A call enters and leaves around its inner calls, so these find it on top of the tracker, and the
-- next call finds the tracker without it.
mutual

theorem run_eq (t : Tracker α) : ∀ i : Inquiry α, i.run t = (answer t.inFlight i, t)
  | ask entity path fails inner => by
    have hholds : t.holds entity path = true ↔ (entity, path.fingerprint) ∈ t.inFlight := by
      rw [Tracker.holds, List.contains_iff_mem]
    rw [run, answer]
    by_cases h : (entity, path.fingerprint) ∈ t.inFlight
    · rw [if_pos h, if_pos (hholds.mpr h)]
    · rw [if_neg h, if_neg (mt hholds.mp h), runAll_eq (t.enter entity path) inner]
      show (_, (t.enter entity path).leave entity path) = _
      rw [leave_enter]
      rfl

theorem runAll_eq (t : Tracker α) :
    ∀ calls : List (Inquiry α), runAll t calls = (answers t.inFlight calls, t)
  | [] => rfl
  | i :: rest => by
    rw [runAll, run_eq t i]
    show (_ :: (runAll t rest).1, (runAll t rest).2) = _
    rw [runAll_eq t rest, answers]

end

/-- **The tracker is a stack.** Calls that are run one after the other on a tracker are answered as the
calls running around each of them say, also inside of calls that fail, and leave the tracker as it was.
A call is answered as tracked exactly if a call with its key is running around it. -/
theorem runs_by_around (t : Tracker α) (calls : List (Inquiry α)) :
    runAll t calls = (calls.map (answer t.inFlight), t) ∧
      ∀ (around : List (α × Bytes)) (i : Inquiry α), answer around i = .tracked ↔ i.key ∈ around := by
  refine ⟨?_, answer_tracked_iff⟩
  rw [runAll_eq, answers_eq_map]

/-- Inside a call, one with another key fails after the first was asked again in it. Then both are
asked again: the outer one is tracked, the one that failed is not. -/
example :
    let outer : Inquiry Nat := ask 0 [[97]] false []
    let failing : Inquiry Nat := ask 1 [] true [outer]
    runAll {} [ask 0 [[97]] false [failing, outer, failing]] =
      ([.answered [.failed [.tracked], .tracked, .failed [.tracked]]], {}) := rfl

end Winnow.Inquiry
