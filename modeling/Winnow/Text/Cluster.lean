import Winnow.Text.ClusterClass

/-!
# Grapheme clusters

The cuts are found in one pass from the front by a machine that keeps one of a few states
(`ClusterState.step`). A state remembers only the construct that a code point began, so a construct
behind a control character or behind a sign that belongs to what follows is not recognised.
-/

namespace Winnow.Text

/-- What is known of the cluster so far. -/
inductive ClusterState where
  | ordinary | carriageReturn | control | prepend
  | leading | vowel | trailing
  | pictograph | joinedPictograph
  | oddRegional | evenRegional
  deriving DecidableEq, Repr

/-- The state after a first code point. -/
def ClusterClass.begins : ClusterClass → ClusterState
  | carriageReturn => .carriageReturn
  | lineFeed | control => .control
  | prepend => .prepend
  | leading => .leading
  | vowel | openSyllable => .vowel
  | trailing | closedSyllable => .trailing
  | pictograph => .pictograph
  | regional => .oddRegional
  | extend | joiner | spacing | other => .ordinary

/-- The next state, and whether the code point joins the cluster. -/
def ClusterState.step : ClusterState → ClusterClass → ClusterState × Bool
  | .carriageReturn, .lineFeed => (.ordinary, true)
  | .carriageReturn, _ | .control, _ => (.ordinary, false)
  | _, .carriageReturn => (.carriageReturn, false)
  | _, .lineFeed | _, .control => (.control, false)
  | .leading, .leading => (.leading, true)
  | .leading, .vowel | .leading, .openSyllable | .vowel, .vowel => (.vowel, true)
  | .leading, .closedSyllable | .vowel, .trailing | .trailing, .trailing => (.trailing, true)
  | .pictograph, .extend | .joinedPictograph, .pictograph => (.pictograph, true)
  | .pictograph, .joiner => (.joinedPictograph, true)
  | .oddRegional, .regional => (.evenRegional, true)
  | _, .extend | _, .joiner | _, .spacing | .prepend, _ => (.ordinary, true)
  | _, c => (c.begins, false)

/-- The clusters of a text, the first of which has begun. -/
def clustersFrom (s : ClusterState) (read : List Nat) : List Nat → List (List Nat)
  | [] => [read.reverse]
  | code :: rest =>
    let (next, joins) := s.step (clusterClass code)
    if joins then clustersFrom next (code :: read) rest
    else read.reverse :: clustersFrom next [code] rest

def clusters : List Nat → List (List Nat)
  | [] => []
  | code :: rest => clustersFrom (clusterClass code).begins [code] rest

end Winnow.Text
