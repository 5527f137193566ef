import Winnow.Proofs.Closure

/-!
# Which statements execution can reach

Execution starts at the top of a program or of the body of a function and goes from statement to
statement. It never falls through `return` and `throw`; it falls through a block if it falls through
every statement of it; at a branch it goes the way that was found out, or either way if that is not
known (`Stmt.falls`). A statement is reachable if execution can come to it (`Graph.Reachable`).

Nothing here mentions how a walk decides what to leave out.
-/

namespace Winnow

open Winnow.Graph Node

/-- Whether execution may go to a side of a branch: the consequent (`true`) or the alternate. -/
def BranchState.permits (side : Bool) : BranchState → Bool
  | .consequent => side
  | .alternate => !side
  | _ => true

namespace Stmt

mutual

/-- Whether execution can fall through a statement, where every branch goes the way it is said to. -/
def falls (branch : NodeId → BranchState) : Stmt → Bool
  | .ret .. | .raise .. => false
  | .block _ ss => allFall branch ss
  | .branch i _ x y =>
    (branch i.id).permits true && falls branch x ||
      (branch i.id).permits false && optionalFalls branch y
  | .exportDeclaration _ d => falls branch d
  | _ => true

/-- Whether execution can fall through all statements of a list. -/
def allFall (branch : NodeId → BranchState) : List Stmt → Bool
  | [] => true
  | s :: ss => falls branch s && allFall branch ss

/-- Whether execution can fall through a statement that may be missing. -/
def optionalFalls (branch : NodeId → BranchState) : Option Stmt → Bool
  | none => true
  | some s => falls branch s

end

theorem allFall_append (branch : NodeId → BranchState) : ∀ ss ts : List Stmt,
    allFall branch (ss ++ ts) = (allFall branch ss && allFall branch ts)
  | [], _ => rfl
  | s :: ss, ts => by
    rw [List.cons_append, allFall, allFall, allFall_append branch ss ts, Bool.and_assoc]

end Stmt

/-- The statements that a program or a block runs one after the other. -/
def Node.sequence? : Node → Option (List Stmt)
  | .program p => some p.body
  | .stmt (.block _ ss) => some ss
  | _ => none

/-- Whether execution may start at a node: at a program, or at a function that is called. -/
def Node.starts : Node → Bool
  | .program _ | .expr (.function _) => true
  | _ => false

namespace Graph

/-- The branch of every construct, as far as it was found out. -/
def branchAt (g : Graph) (k : NodeId) : BranchState := (g.facts k).branch

/-- Execution that comes to a node can go on to a statement. -/
inductive Flows (g : Graph) : Node → Stmt → Prop
  | sequence {n : Node} {s : Stmt} {before after : List Stmt} :
    n.sequence? = some (before ++ s :: after) → Stmt.allFall g.branchAt before = true → Flows g n s
  | body {f : Func} {i : Info} {ss : List Stmt} : f.body = .block i ss →
    Flows g (.expr (.function f)) (.block i ss)
  | consequent {i : Info} {t : Expr} {x : Stmt} {y : Option Stmt} :
    (g.branchAt i.id).permits true = true → Flows g (.stmt (.branch i t x y)) x
  | alternate {i : Info} {t : Expr} {x y : Stmt} :
    (g.branchAt i.id).permits false = true → Flows g (.stmt (.branch i t x (some y))) y
  | exported {i : Info} {d : Stmt} : Flows g (.stmt (.exportDeclaration i d)) d

/-- Execution can come to a statement: from the top of a program or function, or from another
statement. -/
inductive Reachable (g : Graph) : Stmt → Prop
  | start {n : Node} {s : Stmt} : Held g.node? n → n.starts = true → g.Flows n s → Reachable g s
  | step {r s : Stmt} : Reachable g r → g.Flows (.stmt r) s → Reachable g s

/-! ## Where execution comes from -/

end Graph

theorem Node.children_sequence {n : Node} {ss : List Stmt} (h : n.sequence? = some ss) :
    n.children = ss.map ofStmt := by
  cases n with
  | program p =>
    cases h
    exact children_program p
  | stmt r =>
    cases r with
    | block i ss =>
      cases h
      exact children_block i ss
    | _ => cases h
  | _ => cases h

namespace Graph

variable {g : Graph} {n : Node} {r s : Stmt}

theorem Flows.child (h : g.Flows n s) : ofStmt s ∈ n.children := by
  cases h with
  | sequence hn _ => simp [children_sequence hn]
  | body hf => simp [hf, ofBody, ofStmt]
  | consequent _ => simp
  | alternate _ => simp
  | exported => simp

theorem Flows.ofStmt (h : g.Flows (.stmt r) s) : ofStmt r = .stmt r := by
  cases h with
  | sequence hn _ =>
    cases r with
    | block i ss => rfl
    | _ => cases hn
  | _ => rfl

theorem Reachable.source (hg : g.Placed) (h : g.Reachable s) : ∃ n, Held g.node? n ∧ g.Flows n s ∧
    (n.starts = true ∨ ∃ r, n = .stmt r ∧ g.Reachable r) := by
  induction h with
  | start hn hstarts hflows => exact ⟨_, hn, hflows, .inl hstarts⟩
  | step hr hflows ih =>
    obtain ⟨n, hn, hbefore, -⟩ := ih
    have hheld := hg.covers.child hn hbefore.child
    rw [hflows.ofStmt] at hheld
    exact ⟨_, hheld, hflows, .inr ⟨_, rfl, hr⟩⟩

/-- Since a statement stands in one place, execution comes to it from the node around it. -/
theorem Reachable.from (hg : g.Placed) (hn : Held g.node? n) (hs : ofStmt s ∈ n.children)
    (h : g.Reachable s) :
    g.Flows n s ∧ (n.starts = true ∨ ∃ r, n = .stmt r ∧ g.Reachable r) := by
  obtain ⟨n', hn', hflows, hbefore⟩ := h.source hg
  have hparent := hg.child_parent hn hs
  rw [hg.child_parent hn' hflows.child] at hparent
  have hsame : n' = n := by
    rw [Held, Option.some.inj hparent, hn] at hn'
    exact (Option.some.inj hn').symm
  subst hsame
  exact ⟨hflows, hbefore⟩

theorem Reachable.around (hg : g.Placed) (hr : Held g.node? (.stmt r))
    (hs : ofStmt s ∈ (stmt r).children) (h : g.Reachable s) : g.Reachable r := by
  obtain ⟨-, hstarts | ⟨r', heq, hreach⟩⟩ := h.from hg hr hs
  · cases hstarts
  · cases heq
    exact hreach

theorem Reachable.before_fall (hg : g.Placed) (hn : Held g.node? n) {before after : List Stmt}
    (hseq : n.sequence? = some (before ++ s :: after)) (h : g.Reachable s) :
    Stmt.allFall g.branchAt before = true := by
  have hchildren := children_sequence hseq
  obtain ⟨hflows, -⟩ := h.from hg hn (by simp [hchildren])
  cases hflows with
  | sequence hseq' hfall =>
    -- The statement occurs once, so both splits are the same.
    have hids := hg.children_nodup hn
    rw [hchildren, List.map_map] at hids
    obtain ⟨-, hafter, hdisjoint⟩ := List.nodup_append.mp hids.of_map
    have hsplit := Option.some.inj (hseq.symm.trans hseq')
    obtain ⟨rfl, -, -⟩ := (List.append_cons_inj_of_notMem
      (fun hmem => hdisjoint _ hmem _ List.mem_cons_self rfl)
      (List.nodup_cons.mp hafter).1).mp hsplit
    exact hfall
  | _ => cases hseq

end Graph

end Winnow
