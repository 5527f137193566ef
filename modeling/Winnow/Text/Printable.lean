import Winnow.Text.Digit
import Winnow.Text.Letter
import Winnow.Text.Mark

/-!
# Printable characters

The code points that are shown as themselves in quoted text; of the blanks only the ASCII space.
-/

namespace Winnow.Text

/-- Punctuation, symbols and numbers, with the letters, marks and digits between them. -/
def signBounds : List Nat := ofRuns 0
  [33,94,34,12,1,712,8,1,5,4,110,148,208,49,2,3,46,9,44,2,17,22,1,184,9,48,232,4,4,2,48,15,31,1,41,
   1,219,13,129,12,120,1,121,2,126,8,120,11,124,14,202,1,8,7,17,10,122,1,74,29,165,61,71,1,56,15,1,
   13,111,86,91,1,612,29,19,10,102,623,44,2,78,6,68,2,157,8,20,10,6,11,309,1,3,2,148,1,3,34,30,2,
   128,14,16,1,143,50,124,4,59,5,62,2,64,8,11,1,745,5,11,3,13,19,13,2,17,24,8,47,17,1,3,27,17,34,27,
   8,27,140,4,666,22,11,21,1812,2,373,14,7,112,1,143,94,34,26,1,89,12,214,26,16,1,63,91,97,148,86,9,
   48,1,7136,22160,55,55,274,96,136,8,139,157,4,4,10,58,4,86,2,40,56,47,1,97,13,16,2,124,30,100,20,
   105,17,127,1,20285,1,136,542,44,30,22,35,1,19,1,4,149,101,122,7,1,7,13,2,258,3,4,45,3,88,1,13,3,
   1,47,45,228,27,36,4,29,10,84,1,48,6,409,1,743,41,39,9,75,33,3,1,31,1,124,20,2,46,64,9,7,9,36,35,
   40,1,34,12,66,7,24,8,24,8,25,4,12,7,330,6,110,1,31,2,208,31,46,1,34,9,68,10,42,9,44,4,59,7,123,7,
   4,20,85,2,1,4,126,4,48,2,79,27,1,20,67,6,107,1,298,2,1,2,114,17,1,1,104,1,250,23,105,3,28,13,76,
   1,128,6,251,1,174,9,81,3,155,1,92,8,83,9,93,10,215,1,95,5,20,19,3,2,645,2,74,13,112,50,13,1,1024,
   111,1,5,2940,2,14971,2,133,1,65,15,21,7,523,3,272,27,327,1,17,3,19621,4,3936,253,3,436,6,23,15,
   17,95,116,60,246,10,39,2,68,22,104,21,70,122,20,12,20,12,87,9,25,840,259,60,652,1731,1,431,1,767,
   1,711,9,142,2,785,68,76,61,434,2,270,44,4,100,12,15,2,15,1,15,1,37,10,174,56,29,13,44,4,9,7,2,14,
   6,154,985,3,17,3,13,3,218,6,12,4,1,15,12,4,56,8,10,6,40,8,30,2,12,4,2,14,9,39,344,8,14,2,13,3,11,
   3,57,1,1,4,16,2,12,4,10,7,147,1,103]

/-- Whether a code point is shown as itself in quoted text. -/
def isPrintable (code : Nat) : Bool :=
  code == 0x20 || inside signBounds code || isLetter code || isMark code || isDigit code

end Winnow.Text
