import Winnow.Text.Cluster
import Winnow.Text.Utf8

/-!
# Width in terminal cells

Two for wide East Asian characters, none for control characters and combining marks, one for the
rest. A grapheme cluster takes the width of its first code point that has any. The widths are those
of version 13 of the Unicode standard; a code point that is younger takes one cell.
-/

namespace Winnow.Text

def unshownBounds : List Nat :=
  [0x0, 0x20, 0x7F, 0xA0, 0xAD, 0xAE, 0x70F, 0x710, 0x180B, 0x180F, 0x200B, 0x2010, 0x2028,
   0x202F, 0x206A, 0x2070, 0xD800, 0xE000, 0xFEFF, 0xFF00, 0xFFF9, 0xFFFC, 0xFFFE, 0x10000]

def overlaidBounds : List Nat := ofRuns 0
  [768,112,275,7,865,9,1036,1,3,1,251,2,1627,3,1823,1,48,17,170,9,588,58,1,5,720,33,3070,3,238,32,
   665,2,30164,4,1,10,32,2,80,2,494,18,21806,16,973,1,376,5,2864,2,153,11,943,2,57,2,41,7,3,5,22395,
   5,26224,5,3,6,8,8,2,7,30,4,148,3,3515,7,1,17,2,7,1,2,1,5,2213,7]

def wideBounds : List Nat := ofRuns 0
  [4352,96,4538,2,13,2,190,4,3,1,2,1,521,2,21,2,50,12,43,1,19,1,13,1,8,2,17,2,5,2,8,1,5,1,21,1,7,2,
   1,1,4,1,2,1,7,1,4,2,28,1,35,1,1,1,4,3,1,1,61,3,24,1,14,1,859,2,51,1,4,1,810,26,1,89,12,214,26,12,
   4,63,2,86,2,103,5,43,1,94,1,84,12,47,1,40,8,7024,64,22157,3,55,1177,29,643,11172,8540,512,784,10,
   22,35,1,19,1,4,149,96,127,7,28665,5,11,2,14,6136,8,1238,42,9,8951,287,49,3,17,4,8,396,15624,1,
   202,1,190,1,2,10,101,3,13,44,4,9,7,2,14,6,154,33,12,9,1,70,1,22,12,43,4,5,12,17,3,1,3,71,1,1,1,
   187,2,63,13,4,1,24,18,1,26,2,13,1,86,85,48,70,6,1,3,3,2,3,19,2,7,9,227,12,288,47,1,10,1,50,1,82,
   1,51,112,5,3,3,5,7,9,25,7,7,9,3,13,7,1321,65534,2,65534]

def narrowBounds : List Nat := [0x27E6, 0x27EE, 0x2985, 0x2987]

def codeWidth (code : Nat) : Nat :=
  if code < 0x20 ∨ (0x7F ≤ code ∧ code < 0xA0) ∨ code = 0xAD then 0
  else if code < 0x300 || inside narrowBounds code then 1
  else if inside unshownBounds code || inside overlaidBounds code then 0
  else if inside wideBounds code then 2
  else 1

def clusterWidth (cluster : List Nat) : Nat := ((cluster.map codeWidth).find? (· > 0)).getD 0

def width (s : Bytes) : Nat :=
  (clusters ((Utf8.runes s).map Rune.code)).foldl (fun n c => n + clusterWidth c) 0

/-- A text filled up with blanks. -/
def padRight (columns : Nat) (s : Bytes) : Bytes :=
  s ++ List.replicate (columns - width s) 32

end Winnow.Text
