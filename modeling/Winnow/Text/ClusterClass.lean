import Winnow.Text.Mark

/-!
# Classes of code points in grapheme clusters

The classes are those of version 12 of the Unicode standard; a code point that is younger is an
ordinary character here.
-/

namespace Winnow.Text

/-- What a code point does to a cluster. -/
inductive ClusterClass where
  | carriageReturn | lineFeed | control | extend | joiner | regional | prepend | spacing
  | leading | vowel | trailing | openSyllable | closedSyllable
  | pictograph | other
  deriving DecidableEq, Repr

def controlBounds : List Nat :=
  [0x0, 0xA, 0xB, 0xD, 0xE, 0x20, 0x7F, 0xA0, 0xAD, 0xAE, 0x61C, 0x61D, 0x180E, 0x180F, 0x200B,
   0x200C, 0x200E, 0x2010, 0x2028, 0x202F, 0x2060, 0x2070, 0xFEFF, 0xFF00, 0xFFF0, 0xFFFC,
   0x13430, 0x13439, 0x1BCA0, 0x1BCA4, 0x1D173, 0x1D17B, 0xE0000, 0xE0020, 0xE0080, 0xE0100,
   0xE01F0, 0xE1000]

/-- The code points that extend a cluster but are no nonspacing marks, or the other way round. -/
def extenderExceptions : List Nat := ofRuns 0
  [1160,2,1037,9,42,9,235,1,24,1,358,1,22,1,1,1,102,1,24,1,100,1,133,1,18,2,103,1,24,1,41,1,77,1,15,
   1,238,1,2149,1,218,1,686,32,2,12,73,1,708,1,529,1,208,4,1,3,3913,2,30272,3,441,1,22385,2,3529,5,
   317,2,77,6,130,4,234,1,2,2,77,1,268,1,113,1,252,1,24,1,99,6,13,1,1,1,1,1,14,2,205,1,12,1,241,1,
   366,1,540,2,1,1,4,1,540,1,1,3,1,1,921,2,52,5,5,1,1,1,23,1,5349,1,6,15,11464,12,3,3,3764,1,24347,
   46,2,23,542,1,8,5,3868,1,542,1,573,4,254,2,243,1,2,1,7,2,5,1,3333,5,789536,96]

/-- The code points that attach to a cluster but are no spacing marks, or the other way round. -/
def attachedExceptions : List Nat := ofRuns 0
  [2494,1,24,1,358,1,24,1,102,1,24,1,234,1,18,2,28,1,74,1,24,1,119,1,15,1,83,1,127,1,375,2,11,1,41,
   3,2,7,21,1,3,6,2,1,10,3,1656,1,30,1,812,1,1,2,208,1,5368,2,31307,1,1,1,26448,1,367,1,24,1,96,3,7,
   1,2,1,1,4,1,2,1,1,224,1,12,1,241,1,366,1,529,6,1,2,4,1,2,1,1,1,542,1,3,1,1,1,923,1,48,2,8,2,1,1,
   16872,3,3779,2,24947,1,8,5]

def prependBounds : List Nat :=
  [0x600, 0x606, 0x6DD, 0x6DE, 0x70F, 0x710, 0x8E2, 0x8E3, 0xD4E, 0xD4F, 0x110BD, 0x110BE,
   0x110CD, 0x110CE, 0x111C2, 0x111C4, 0x11A3A, 0x11A3B, 0x11A84, 0x11A8A, 0x11D46, 0x11D47]

def pictographBounds : List Nat := ofRuns 0
  [169,1,4,1,8077,1,12,1,216,1,22,1,90,6,15,2,367,2,12,1,95,1,70,1,25,11,4,3,199,1,231,2,10,1,9,1,
   58,4,1,6,1,12,1,114,10,118,2,11,1,1,1,1,6,1,3,1,6,1,10,2,15,1,2,1,4,1,1,1,4,3,1,1,11,5,45,3,9,1,
   14,1,14,1,372,2,463,3,19,2,51,1,4,1,1242,1,12,1,601,1,1,1,114022,256,13,3,31,1,60,6,12,2,14,1,2,
   10,18,57,27,15,10,1,20,1,2,9,1,4,9,434,5,318,8,266,48,128,116,12,85,43,12,4,56,8,10,6,40,8,30,82,
   12,47,1,10,1,1719]

/-- The class of a part of a Korean syllable. -/
def hangulClass? (code : Nat) : Option ClusterClass :=
  if inside [0x1100, 0x1160, 0xA960, 0xA97D] code then some .leading
  else if inside [0x1160, 0x11A8, 0xD7B0, 0xD7C7] code then some .vowel
  else if inside [0x11A8, 0x1200, 0xD7CB, 0xD7FC] code then some .trailing
  else if 0xAC00 ≤ code ∧ code < 0xD7A4 then
    some (if (code - 0xAC00) % 28 = 0 then .openSyllable else .closedSyllable)
  else none

def clusterClass (code : Nat) : ClusterClass :=
  if code = 0x0D then .carriageReturn
  else if code = 0x0A then .lineFeed
  else if code = 0x200D then .joiner
  else if inside controlBounds code then .control
  else if code < 0xA9 then .other
  else if inside extenderExceptions code != inside nonspacingBounds code then .extend
  else if 0x1F1E6 ≤ code ∧ code < 0x1F200 then .regional
  else match hangulClass? code with
    | some c => c
    | none =>
      if inside prependBounds code then .prepend
      else if inside attachedExceptions code != inside spacingBounds code then .spacing
      else if inside pictographBounds code then .pictograph
      else .other

end Winnow.Text
