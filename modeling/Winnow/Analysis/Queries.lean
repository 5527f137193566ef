import Winnow.Analysis.Effects
import Winnow.Analysis.Forget
import Winnow.Analysis.Literal
import Winnow.Analysis.Receiver
import Winnow.Analysis.Returned

/-!
# Answering questions

The circle of questions closed: every question is answered by questions that may nest one level less
deep. Questions that nest too deep halt the analysis.
-/

namespace Winnow.Queries

def ofDepth : (depth : Nat) → Queries
  | 0 => {
      literal := fun _ _ _ => throw .exhausted
      forget := fun _ _ => throw .exhausted
      exposeReceiver := fun _ _ _ => throw .exhausted
      returned := fun _ _ _ _ => throw .exhausted
      interact := fun _ _ _ => throw .exhausted
      effects := fun _ => throw .exhausted
      invalidate := fun _ => throw .exhausted }
  | depth + 1 => {
      literal := fun e path origin => Query.literal (ofDepth depth) e path origin
      forget := fun e path => Query.forget (ofDepth depth) e path
      exposeReceiver := fun e i path => Query.exposeReceiver (ofDepth depth) e i path
      returned := fun e path i origin => Query.returned (ofDepth depth) e path i origin
      interact := fun e path i => Query.interact (ofDepth depth) e path i
      effects := fun n => Query.effects (ofDepth depth) n
      invalidate := fun origin => Query.invalidate (ofDepth depth) origin }

/-- How deep questions may nest where nobody says otherwise. -/
def usualDepth : Nat := 1000000

end Winnow.Queries
