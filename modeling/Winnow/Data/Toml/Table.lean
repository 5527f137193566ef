import Winnow.Data.Toml.Basic

/-!
# What is set in TOML

A key can be set only once, and a table can be opened only once. What has been set is kept as a tree
of slots (`Slot`). A table that came about by a key with points can be added to by other such keys,
until the next heading; a table that has a heading of its own cannot. The data itself is kept apart
from that (`place`).
-/

namespace Winnow.Toml

/-- What a key has been set to. -/
inductive SlotKind where
  | value
  | table
  | tables
  deriving DecidableEq, Repr

def SlotKind.name : SlotKind → String
  | value => "value"
  | table => "table"
  | tables => "array table"

/-- A key that has been set, with those below it. -/
inductive Slot where
  | mk (kind : SlotKind) (isClosed isDotted : Bool) (inner : List (Bytes × Slot))

namespace Slot

def kind : Slot → SlotKind
  | mk kind _ _ _ => kind

def isClosed : Slot → Bool
  | mk _ isClosed _ _ => isClosed

def inner : Slot → List (Bytes × Slot)
  | mk _ _ _ inner => inner

def withInner : Slot → List (Bytes × Slot) → Slot
  | mk kind isClosed isDotted _, inner => mk kind isClosed isDotted inner

end Slot

abbrev Slots := List (Bytes × Slot)

namespace Slots

def set (k : Bytes) (slot : Slot) : Slots → Slots
  | [] => [(k, slot)]
  | (name, old) :: rest =>
    if name = k then (name, slot) :: rest else (name, old) :: set k slot rest

/-- Changes the slots below a path. -/
def changeAt (f : Slots → Except Fault Slots) : (path : List Bytes) → Slots → Except Fault Slots
  | [], slots => f slots
  | k :: path, slots =>
    match slots.lookup k with
    | none => do return set k (.mk .table false false (← changeAt f path [])) slots
    | some slot =>
      if slot.kind = .value then .error (.noTable k slot.kind.name)
      else do return set k (slot.withInner (← changeAt f path slot.inner)) slots

/-- Sets a key of a line. -/
def define : (path : List Bytes) → Slots → Except Fault Slots
  | [], slots => .ok slots
  | [k], slots =>
    match slots.lookup k with
    | none => .ok (set k (.mk .value false true []) slots)
    | some _ => .error (.taken k)
  | k :: path, slots =>
    match slots.lookup k with
    | none => do return set k (.mk .table false true (← define path [])) slots
    | some slot =>
      if slot.kind ≠ .table then .error (.noTable k slot.kind.name)
      else if slot.isClosed then .error (.closed k)
      else do return set k (slot.withInner (← define path slot.inner)) slots

def openTable (k : Bytes) (slots : Slots) : Except Fault Slots :=
  match slots.lookup k with
  | none => .ok (set k (.mk .table true false []) slots)
  | some slot =>
    if slot.kind ≠ .table then .error (.opensNoTable k slot.kind.name)
    else if slot.isClosed then .error (.opened k)
    else .ok (set k (.mk .table true false slot.inner) slots)

def openTables (k : Bytes) (slots : Slots) : Except Fault Slots :=
  match slots.lookup k with
  | none => .ok (set k (.mk .tables true false []) slots)
  | some slot =>
    if slot.kind ≠ .tables then .error (.opensNoList k slot.kind.name)
    else .ok (set k (slot.withInner []) slots)

mutual

def closeSlot : Slot → Slot
  | .mk kind isClosed isDotted inner => .mk kind (isClosed || isDotted) false (close inner)

/-- Closes the tables that keys with points made. -/
def close : Slots → Slots
  | [] => []
  | (k, slot) :: rest => (k, closeSlot slot) :: close rest

end

end Slots

mutual

/-- Changes the value at a path. -/
def place (f : Option Datum → Datum) (path : List Bytes) (fields : List (Bytes × Datum)) :
    List (Bytes × Datum) :=
  match path with
  | [] => fields
  | [k] => Datum.setField k (f (fields.lookup k)) fields
  | k :: more => Datum.setField k (placeIn f more ((fields.lookup k).getD (.record []))) fields

def placeIn (f : Option Datum → Datum) (path : List Bytes) (d : Datum) : Datum :=
  match path with
  | [] => d
  | k :: more =>
    match d with
    | .record fields => .record (place f (k :: more) fields)
    | .list items =>
      match items.getLast? with
      | some (.record fields) => .list (items.dropLast ++ [.record (place f (k :: more) fields)])
      | _ => d
    | _ => d

end

def recordOr : Option Datum → Datum
  | none => .record []
  | some d => d

def withRecord : Option Datum → Datum
  | some (.list items) => .list (items ++ [.record []])
  | _ => .list [.record []]

end Winnow.Toml
