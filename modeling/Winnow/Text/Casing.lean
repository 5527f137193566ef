import Winnow.Text.Bounds

/-!
# Upper and lower case

A row (skip, span, step, shift) moves a run of code points by the shift: the run begins `skip`
places behind the end of the run before it, ends `span` places further on and takes one code point
in `step`.
-/

namespace Winnow.Text

def upperRows : List (Nat × Nat × Nat × Int) :=
  [(97,25,1,-32),(59,0,1,743),(43,22,1,-32),(2,6,1,-32),(1,0,1,121),(2,46,2,-1),(2,0,1,-232),
   (2,4,2,-1),(3,14,2,-1),(3,44,2,-1),(3,4,2,-1),(1,0,1,-300),(1,0,1,195),(3,2,2,-1),(3,0,1,-1),
   (4,0,1,-1),(6,0,1,-1),(3,0,1,97),(4,0,1,-1),(1,0,1,163),(1,0,1,42561),(3,0,1,130),(3,4,2,-1),
   (3,0,1,-1),(5,0,1,-1),(3,0,1,-1),(4,2,2,-1),(3,0,1,-1),(4,0,1,-1),(2,0,1,56),(6,0,1,-1),
   (1,0,1,-2),(2,0,1,-1),(1,0,1,-2),(2,0,1,-1),(1,0,1,-2),(2,14,2,-1),(1,0,1,-79),(2,16,2,-1),
   (3,0,1,-1),(1,0,1,-2),(2,0,1,-1),(4,38,2,-1),(4,16,2,-1),(9,0,1,-1),(3,1,1,10815),(2,0,1,-1),
   (5,8,2,-1),(1,0,1,10783),(1,0,1,10780),(1,0,1,10782),(1,0,1,-210),(1,0,1,-206),(2,1,1,-205),
   (2,0,1,-202),(2,0,1,-203),(1,0,1,42319),(4,0,1,-205),(1,0,1,42315),(2,0,1,-207),(1,0,1,42343),
   (1,0,1,42280),(1,0,1,42308),(2,0,1,-209),(1,0,1,-211),(1,0,1,42308),(1,0,1,10743),(1,0,1,42305),
   (3,0,1,-211),(2,0,1,10749),(1,0,1,-213),(3,0,1,-214),(8,0,1,10727),(3,0,1,-218),(2,0,1,42307),
   (1,0,1,-218),(4,0,1,42282),(1,0,1,-218),(1,0,1,-69),(1,1,1,-217),(1,0,1,-71),(6,0,1,-219),
   (11,0,1,42261),(1,0,1,42258),(167,0,1,84),(44,2,2,-1),(4,0,1,-1),(4,2,1,130),(47,0,1,-38),
   (1,2,1,-37),(2,16,1,-32),(1,0,1,-31),(1,8,1,-32),(1,0,1,-64),(1,1,1,-63),(2,0,1,-62),(1,0,1,-57),
   (4,0,1,-47),(1,0,1,-54),(1,0,1,-8),(2,22,2,-1),(1,0,1,-86),(1,0,1,-80),(1,0,1,7),(1,0,1,-116),
   (2,0,1,-96),(3,0,1,-1),(3,0,1,-1),(53,31,1,-32),(1,15,1,-80),(2,32,2,-1),(10,52,2,-1),
   (3,12,2,-1),(1,0,1,-15),(2,94,2,-1),(50,37,1,-48),(2890,42,1,3008),(3,2,1,3008),(761,5,1,-8),
   (2179,0,1,-6254),(1,0,1,-6253),(1,0,1,-6244),(1,1,1,-6242),(1,0,1,-6243),(1,0,1,-6236),
   (1,0,1,-6181),(1,0,1,35266),(2,0,1,-1),(239,0,1,35332),(4,0,1,3814),(17,0,1,35384),
   (115,148,2,-1),(6,0,1,-59),(6,94,2,-1),(1,7,1,8),(9,5,1,8),(11,7,1,8),(9,7,1,8),(9,5,1,8),
   (12,6,2,8),(9,7,1,8),(9,1,1,74),(1,3,1,86),(1,1,1,100),(1,1,1,128),(1,1,1,112),(1,1,1,126),
   (3,7,1,8),(9,7,1,8),(9,7,1,8),(9,1,1,8),(2,0,1,9),(11,0,1,-7205),(5,0,1,9),(13,1,1,8),(15,1,1,8),
   (4,0,1,7),(14,0,1,9),(347,0,1,-28),(34,15,1,-16),(5,0,1,-1),(844,25,1,-26),(1863,47,1,-48),
   (2,0,1,-1),(4,0,1,-10795),(1,0,1,-10792),(2,4,2,-1),(7,0,1,-1),(3,0,1,-1),(11,98,2,-1),
   (9,2,2,-1),(5,0,1,-1),(13,37,1,-7264),(2,0,1,-7264),(6,0,1,-7264),(30996,44,2,-1),(20,26,2,-1),
   (136,12,2,-1),(4,60,2,-1),(11,2,2,-1),(3,8,2,-1),(5,0,1,-1),(5,2,2,-1),(1,0,1,48),(3,18,2,-1),
   (12,14,2,-1),(5,2,2,-1),(3,14,2,-1),(27,0,1,-1),(861,0,1,-928),(29,79,1,-38864),(21378,25,1,-32),
   (1230,39,1,-40),(137,35,1,-40),(156,10,1,-39),(2,14,1,-39),(2,6,1,-39),(2,1,1,-39),
   (1796,50,1,-64),(126,21,1,-32),(2875,31,1,-32),(21889,31,1,-32),(60,24,1,-27),(31311,33,1,-34)]

/-- The code points whose lower case is not the one letter that has them as its upper case. -/
def lowerExceptions : List (Nat × Nat) :=
  [(0x130,0x69),(0x1c4,0x1c6),(0x1c5,0x1c6),(0x1c7,0x1c9),(0x1c8,0x1c9),(0x1ca,0x1cc),(0x1cb,0x1cc),
   (0x1f1,0x1f3),(0x1f2,0x1f3),(0x399,0x3b9),(0x39c,0x3bc),(0x3a3,0x3c3),(0x3f4,0x3b8),
   (0x1e9e,0xdf),(0x2126,0x3c9),(0x212a,0x6b),(0x212b,0xe5),(0xa64a,0xa64b)]

/-- Moves a code point by the first row that takes it, or back by the first that leads to it. -/
def mapCase (isBack : Bool) :
    (start : Nat) → (rows : List (Nat × Nat × Nat × Int)) → (code : Nat) → Nat
  | _, [], code => code
  | start, (skip, span, step, shift) :: rows, code =>
    let low := start + skip
    let moved := ((code : Int) + (if isBack then -shift else shift)).toNat
    let place := if isBack then moved else code
    if low ≤ place ∧ place ≤ low + span ∧ (place - low) % step = 0 then moved
    else mapCase isBack (low + span) rows code

/-- The upper case of a code point. -/
def toUpper (code : Nat) : Nat := mapCase false 0 upperRows code

/-- The lower case of a code point. -/
def toLower (code : Nat) : Nat :=
  (lowerExceptions.lookup code).getD (mapCase true 0 upperRows code)

end Winnow.Text
