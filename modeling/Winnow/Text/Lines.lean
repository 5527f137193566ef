import Winnow.Text.Utf8

/-!
# Lines of a source

A line ends with LF, CR or CRLF; a terminator at the very end of the source opens no further line.
Lines and columns are counted from zero, columns in bytes or in UTF-16 code units.
-/

namespace Winnow.Text

/-- A source and the offsets where its lines start. -/
structure Lines where
  source : Bytes
  starts : List Nat
  deriving Repr

namespace Lines

/-- The offsets behind line breaks. -/
def breaks (offset : Nat) : Bytes → List Nat
  | [] => []
  | 13 :: 10 :: s => (offset + 2) :: breaks (offset + 2) s
  | b :: s => if b == 13 || b == 10 then (offset + 1) :: breaks (offset + 1) s
    else breaks (offset + 1) s

/-- The lines of a source. The first starts at zero, the others after a terminator that is not
the end of the source. -/
def ofSource (source : Bytes) : Lines :=
  ⟨source, 0 :: (breaks 0 source).filter (· < source.length)⟩

def count (lines : Lines) : Nat := lines.starts.length

/-- The nearest offset inside the source. -/
def clamp (lines : Lines) (offset : Int) : Nat := min offset.toNat lines.source.length

/-- The line an offset is on. -/
def lineOf (lines : Lines) (offset : Nat) : Nat :=
  (lines.starts.takeWhile (· ≤ offset)).length - 1

def start (lines : Lines) (line : Nat) : Nat := lines.starts.getD line 0

/-- The number of UTF-16 code units of the characters that start below a byte offset, the
first `skip` bytes belonging to a character already counted. -/
def units16Below : (offset skip : Nat) → Bytes → Nat
  | 0, _, _ => 0
  | _, _, [] => 0
  | offset + 1, skip + 1, _ :: s => units16Below offset skip s
  | offset + 1, 0, b :: s =>
    Utf8.units16 (Utf8.first b s).code + units16Below offset ((Utf8.first b s).bytes.length - 1) s

/-- The line and column of an offset, in bytes. -/
def position (lines : Lines) (offset : Int) : Nat × Nat :=
  let offset := lines.clamp offset
  let line := lines.lineOf offset
  (line, offset - lines.start line)

/-- The line and column of an offset, in UTF-16 units. -/
def position16 (lines : Lines) (offset : Int) : Nat × Nat :=
  let offset := lines.clamp offset
  let line := lines.lineOf offset
  let start := lines.start line
  (line, units16Below (offset - start) 0 (lines.source.drop start))

def chomp (s : Bytes) : Bytes := (s.reverse.dropWhile fun b => b == 13 || b == 10).reverse

/-- A line without its end. -/
def text (lines : Lines) (line : Int) : Bytes :=
  match line with
  | .negSucc _ => []
  | .ofNat line =>
    match lines.starts[line]? with
    | none => []
    | some start =>
      chomp (lines.source.slice start (lines.starts.getD (line + 1) lines.source.length))

end Lines

end Winnow.Text
