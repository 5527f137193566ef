import Winnow.Access.Tracker
import Winnow.Syntax.Symbols

/-!
# Entities and interactions

What the analysis can be asked about, and the ways in which a value is used.
-/

namespace Winnow

inductive Entity where
  | node (id : NodeId)
  | var (id : VarId)
  | unknown
  | undefined
  | fresh (receiver : VarId)
  /-- One of several values, by the number under which they are listed. -/
  | union (number : Nat)
  deriving DecidableEq, Repr, Inhabited

inductive Use where
  | accessed | assigned | called
  deriving DecidableEq, Repr

/-- Which call an interaction belongs to. Two calls of one function are told apart by it. -/
inductive Site where
  | call (node : NodeId)
  | given (number : Nat)
  deriving DecidableEq, Repr

structure Interaction where
  use : Use
  /-- The object a method is called on or a property is read from; none for plain calls. -/
  receiver : Option Entity := none
  arguments : List Entity := []
  isNew : Bool := false
  site : Option Site := none
  deriving DecidableEq, Repr

namespace Interaction

def access (receiver : Entity) : Interaction := { use := .accessed, receiver := some receiver }

def assignment (receiver : Entity) : Interaction := { use := .assigned, receiver := some receiver }

def unknownAccess : Interaction := access .unknown

def unknownAssignment : Interaction := assignment .unknown

end Interaction

/-- Which branch of a conditional construct is taken. It is found out at most once, and a branch
that was found out can only be lost again. For logical operators the consequent is the left
operand. -/
inductive BranchState where
  | unresolved | consequent | alternate | unknown
  deriving DecidableEq, Repr

def BranchState.text : BranchState → String
  | unresolved => "unresolved"
  | consequent => "consequent"
  | alternate => "alternate"
  | unknown => "unknown"

end Winnow
