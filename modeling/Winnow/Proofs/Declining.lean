import Winnow.Proofs.Including
import Winnow.Proofs.Learning

/-!
# Precision is only lost

Whatever is asked of a program or done to it, what it knows afterwards is no more than what it knew
before, apart from what was never asked (`Declines`). Branches and results of calls are found out
once and can only become unknown; what was included, reassigned or forgotten stays so.

While the test of a branch is asked the branch counts as unknown, and is found out only then. But
the questions asked meanwhile only learn (`Learns`), so nobody loses anything over a preliminary
answer.
-/

namespace Winnow

open Winnow.Graph Query Conduct Inclusion Keeps

/-! ## Knowing less -/

/-- How the branch of a construct may change. -/
inductive BranchState.Declines : BranchState → BranchState → Prop
  | same (s : BranchState) : Declines s s
  | found (s : BranchState) : Declines .unresolved s
  | lost (s : BranchState) : Declines s .unknown

theorem BranchState.Declines.trans {a b c : BranchState} (h : a.Declines b) (h' : b.Declines c) :
    a.Declines c := by
  cases h with
  | same => exact h'
  | found => exact .found c
  | lost =>
    cases h' with
    | same => exact .lost a
    | lost => exact .lost a

inductive ResultDeclines : Option Entity → Option Entity → Prop
  | same (r : Option Entity) : ResultDeclines r r
  | found (e : Entity) : ResultDeclines none (some e)
  | lost (e : Entity) : ResultDeclines (some e) (some .unknown)

theorem ResultDeclines.trans {a b c : Option Entity} (h : ResultDeclines a b)
    (h' : ResultDeclines b c) : ResultDeclines a c := by
  cases h with
  | same => exact h'
  | found e =>
    cases h' with
    | same => exact .found e
    | lost => exact .found .unknown
  | lost e =>
    cases h' with
    | same => exact .lost e
    | lost => exact .lost e

/-- What is known of a node later. -/
structure Facts.Declines (f f' : Facts) : Prop where
  included : f.included = true → f'.included = true
  forgotten : f.forgotten = true → f'.forgotten = true
  forgottenKeys : f.forgottenKeys ⊆ f'.forgottenKeys
  branch : f.branch.Declines f'.branch
  returned : ResultDeclines f.returned f'.returned

theorem Facts.Declines.refl (f : Facts) : f.Declines f := ⟨id, id, fun _ => id, .same _, .same _⟩

theorem Facts.Declines.trans {a b c : Facts} (h : a.Declines b) (h' : b.Declines c) :
    a.Declines c where
  included := fun ha => h'.included (h.included ha)
  forgotten := fun ha => h'.forgotten (h.forgotten ha)
  forgottenKeys := fun _ ha => h'.forgottenKeys (h.forgottenKeys ha)
  branch := h.branch.trans h'.branch
  returned := h.returned.trans h'.returned

/-- A graph later: its nodes stand where they were, variables and modules keep what they are and the
flags that were set (`Evolves`), and of no node anything is known anew that was lost. -/
structure Declines (g g' : Graph) : Prop extends Evolves g g' where
  facts : ∀ n, (g.facts n).Declines (g'.facts n)

namespace Declines

variable {g g' g'' : Graph}

theorem refl (g : Graph) : Declines g g where
  toEvolves := .refl g
  facts := fun _ => .refl _

theorem trans (h : Declines g g') (h' : Declines g' g'') : Declines g g'' where
  toEvolves := h.toEvolves.trans h'.toEvolves
  facts := fun n => (h.facts n).trans (h'.facts n)

theorem learnt (h : Drifts g g') (hl : Learns g g') : Declines g g' where
  toEvolves := h.toEvolves
  facts := fun n => {
    included := fun ha => (h.facts n).included.trans ha
    forgotten := (h.facts n).forgotten
    forgottenKeys := (h.facts n).forgottenKeys
    branch := by
      by_cases hb : (g.facts n).branch = .unresolved
      · rw [hb]
        exact .found _
      · rw [(hl.facts n).branch hb]
        exact .same _
    returned := by
      cases hr : (g.facts n).returned with
      | none =>
        cases (g'.facts n).returned with
        | none => exact .same _
        | some e => exact .found e
      | some e =>
        rw [(hl.facts n).returned hr]
        exact .same _ }

theorem included (h : Includes g g') : Declines g g' where
  toEvolves := h.toEvolves
  facts := fun n => by
    have hincluded : (g.facts n).included = true → (g'.facts n).included = true := h.included
    rw [h.facts n]
    exact ⟨hincluded, id, fun _ => id, .same _, .same _⟩

end Declines

theorem Facts.Loses.declines {f f' : Facts} (h : f.Loses f') : f.Declines f' := by
  cases h with
  | returned =>
    refine ⟨id, id, fun _ => id, .same _, ?_⟩
    cases f.returned with
    | none => exact .found .unknown
    | some e => exact .lost e
  | forgotten => exact ⟨id, fun _ => rfl, fun _ => id, .same _, .same _⟩
  | forgottenKey key => exact ⟨id, id, List.subset_append_left _ _, .same _, .same _⟩
  | _ => exact ⟨id, id, fun _ => id, .same _, .same _⟩

/-! ## Questions -/

/-- Where every node has its place in a frame, less and less is known. -/
def declining (frame : Places) : Conduct where
  holds := (drifting frame).holds
  allows := Declines
  refl := Declines.refl
  trans := Declines.trans

section

variable {frame : Places}

theorem Conduct.Keeps.declining_of_learning {α : Type} {m : Query α} (h : (learning frame).Keeps m) :
    (declining frame).Keeps m := h.imp rfl fun h => .learnt h.1 h.2

/-- A question that drifts declines if what it leaves to know of each node does. -/
theorem Conduct.Keeps.declining_of_drifting {α : Type} {m : Query α} (h : (drifting frame).Keeps m)
    (hfacts : ∀ g a g', m g = .ok (a, g') → ∀ n, (g.facts n).Declines (g'.facts n)) :
    (declining frame).Keeps m := by
  intro g a g' hg hrun
  obtain ⟨hg', hd⟩ := h g a g' hg hrun
  exact ⟨hg', hd.toEvolves, hfacts g a g' hrun⟩

theorem modifyFacts_declines (n : NodeId) {f : Facts → Facts} (hd : ∀ x : Facts, x.Drifts (f x))
    (hf : ∀ x : Facts, x.Declines (f x)) : (declining frame).Keeps (modifyFacts n f) := by
  refine (modifyFacts_drifts n hd).declining_of_drifting fun g a g' hrun k => ?_
  cases hrun
  rcases facts_modifyFacts_cases g n f k with h | ⟨-, h⟩
  · rw [h]
    exact .refl _
  · rw [h]
    exact hf _

theorem request_declines (asked : Graph → Bool) :
    (declining frame).Keeps (modify fun g => if asked g then g.requestPass else g) := by
  refine (request_drifts asked).declining_of_drifting fun g a g' hrun k => ?_
  cases hrun
  dsimp only
  split <;> exact .refl _

theorem declining_losesAt (v : VarId) : LosesAt (declining frame) v := fun hf => by
  refine (drifting_losesAt v hf).declining_of_drifting fun g a g' hrun k => ?_
  cases hrun
  exact .refl _

theorem declining_losses : Losses (declining frame) (tableOf frame) where
  facts := fun n f hf => modifyFacts_declines n (fun x => (hf x).drifts) fun x => (hf x).declines
  dependents := fun v => declining_losesAt v .dependents
  var := declining_losesAt
  request := request_declines
  branch := fun _ hrest =>
    bind' (modifyFacts_declines _
      (fun _ => ⟨rfl, id, id, fun _ => id⟩)
      fun _ => ⟨id, id, fun _ => id, .lost _, .same _⟩)
      fun _ => bind' hrest fun _ => request_declines _
  observer := fun n => by
    refine (drifting_losses.observer n).declining_of_drifting fun g a g' hrun k => ?_
    cases hrun
    exact .refl _

section

variable (hc : Covers (tableOf frame))
include hc

theorem declining_rules : Rules (declining frame) (tableOf frame) :=
  .of_learning hc (.all fun _ => trivial)
    ⟨drifting_tracks.holds, fun h => h.tracker, fun h => { h with tracker := rfl }⟩
    (fun _ => id) declining_of_learning

-- Where a branch or a result is found out, the preliminary answer is gone in the end.
theorem declining_stage (n : Nat)
    (hq : Answers (declining frame) (tableOf frame) (fun _ => Declines) (Queries.ofDepth n)) :
    Stage (declining frame) (tableOf frame) (fun _ => Declines) (Queries.ofDepth n) :=
  declining_losses.stage (declining_rules hc) (.of_learning hc n declining_of_learning) hq

theorem declining_answers (n : Nat) :
    Answers (declining frame) (tableOf frame) (fun _ => Declines) (Queries.ofDepth n) :=
  (declining_rules hc).answers n (fun k _ => declining_stage hc k) n (Nat.le_refl n)

end

/-! ## Walks -/

theorem declining_absorbs : Absorbs (declining frame) frame := ⟨rfl, .included⟩

end

/-! ## Operations -/

/-- What can be asked of a program and done to it. Searches for effects and walks may start anywhere
and with any context. -/
inductive Operation where
  | literal (e : Entity) (path : Path) (origin : Option Origin)
  | forget (e : Entity) (path : Path)
  | exposeReceiver (e : Entity) (i : Interaction) (path : Path)
  | returned (e : Entity) (path : Path) (i : Interaction) (origin : Option Origin)
  | interact (e : Entity) (path : Path) (i : Interaction) (context : EffectContext)
  | effects (n : NodeId) (context : EffectContext)
  | branchState (n : NodeId)
  | invalidate (origin : Origin)
  | walk (n : NodeId) (recursive : Bool) (context : Context)
  | includeVariable (v : VarId)
  | includeAllExports (m : ModuleId)

/-- Carries out an operation, with questions and walks that go down to a depth. -/
def Operation.run (depth : Nat) (op : Operation) : Query Unit := do
  let q := Queries.ofDepth depth
  match op with
  | .literal e path origin => let _ ← q.literal e path origin
  | .forget e path => q.forget e path
  | .exposeReceiver e i path => q.exposeReceiver e i path
  | .returned e path i origin => let _ ← q.returned e path i origin
  | .interact e path i context => let _ ← (q.interact e path i).run context
  | .effects n context =>
    match (← get).node? n with
    | some node => let _ ← (q.effects node).run context
    | none => return
  | .branchState n =>
    match (← get).node? n with
    | some node => let _ ← branchState? q node
    | none => return
  | .invalidate origin => q.invalidate origin
  | .walk n recursive context =>
    match (← get).node? n with
    | some node => let _ ← (Inclusion.walk q depth recursive node).run context
    | none => return
  | .includeVariable v => link (Inclusion.includeVariable v)
  | .includeAllExports m => link (Inclusion.includeAllExports m)

section

variable {frame : Places} {c : Conduct} {depth : Nat} (hc : Covers (tableOf frame))

theorem branchState?_keeps (hq : Finds c (tableOf frame) (Queries.ofDepth depth)) {n : Node}
    (hn : Held (tableOf frame) n) : c.Keeps (branchState? (Queries.ofDepth depth) n) := by
  have hbranch := fun t choose => hq.branchOf n t choose hn
  unfold branchState?
  split
  · exact map' (hbranch _ _ rfl)
  · exact map' (hbranch _ _ rfl)
  · exact map' (hbranch _ _ rfl)
  · exact pure' _

include hc

/-- A conduct that allows including and is kept wherever something is found out or lost is kept by
every operation, if it lets questions forget at the path that the operation names. -/
theorem Operation.run_keeps (ha : Absorbs c frame) (r : Rules c (tableOf frame))
    (hq : Stage c (tableOf frame) (fun _ => c.allows) (Queries.ofDepth depth)) (op : Operation)
    (hpath : ∀ e path, op = .forget e path → c.paths path) : c.Keeps (op.run depth) := by
  -- A node that is looked up is a node of the frame.
  have hheld : ∀ {g n node}, c.holds g → g.node? n = some node → Held (tableOf frame) node := by
    intro g n node hg hn
    rw [r.same g hg] at hn
    exact hc.held hn
  cases op with
  | literal e path origin => exact bind' (hq.literal _ _ _) fun _ => pure' _
  | forget e path => exact hq.forget _ _ (hpath e path rfl)
  | exposeReceiver e i path => exact hq.exposeReceiver _ _ _
  | returned e path i origin => exact bind' (hq.returned _ _ _ _) fun _ => pure' _
  | interact e path i context =>
    exact bind' (hq.interact e path i context) fun _ => pure' _
  | effects n context =>
    refine get_bind fun g hg => ?_
    cases hn : g.node? n with
    | none => exact pure' _ g
    | some node =>
      exact bind' (hq.effects node (hheld hg hn) context) (fun _ => pure' _) g
  | branchState n =>
    refine get_bind fun g hg => ?_
    cases hn : g.node? n with
    | none => exact pure' _ g
    | some node =>
      exact bind' (branchState?_keeps hq.toFinds (hheld hg hn)) (fun _ => pure' _) g
  | invalidate origin => exact hq.invalidate origin
  | walk n recursive context =>
    refine get_bind fun g hg => ?_
    cases hn : g.node? n with
    | none => exact pure' _ g
    | some node =>
      exact From.bind (walk_keeps hc ha.marks (hq.serves r) depth recursive (hheld hg hn) context g
        trivial) fun _ g' _ _ => pure' _ g'
  | includeVariable v => exact ha.link_includeVariable v
  | includeAllExports m =>
    exact Steps.keeps fun g => Steps.get_bind fun _ => allExportsIn_steps ha.admits _ m g

theorem Operation.run_declines (depth : Nat) (op : Operation) :
    (declining frame).Keeps (op.run depth) :=
  op.run_keeps hc declining_absorbs (declining_rules hc)
    (declining_stage hc depth (declining_answers hc depth)) fun _ _ _ => trivial

end

/-- The graphs that sequences of operations lead to. -/
inductive Follows (g : Graph) : Graph → Prop
  | start : Follows g g
  | step {g₁ g₂ : Graph} (depth : Nat) (op : Operation) : Follows g g₁ →
    op.run depth g₁ = .ok ((), g₂) → Follows g g₂

theorem Follows.declines {frame : Places}
    (hc : Covers (tableOf frame)) {g g' : Graph} (h : Follows g g')
    (hg : (declining frame).holds g) : (declining frame).holds g' ∧ Declines g g' := by
  induction h with
  | start => exact ⟨hg, .refl g⟩
  | step depth op _ hrun ih =>
    obtain ⟨hg1, h1⟩ := ih
    obtain ⟨hg2, h2⟩ := op.run_declines hc depth _ _ _ hg1 hrun
    exact ⟨hg2, h1.trans h2⟩

/-- **The analysis only loses precision.** Between any two moments of any sequence of operations on a
program whose names are resolved, nothing that was included, reassigned or forgotten is so no longer;
a branch moves from unresolved to one side or to unknown, and from a side to unknown at most; and the
result of a call, once it was asked for, stays or becomes unknown. -/
theorem precision_declines {g₀ g g' : Graph} (h₀ : g₀.Bound) (h : Follows g₀ g)
    (h' : Follows g g') : Declines g g' := by
  have hbuilt := h₀.built
  have hc : Covers (tableOf g₀.frame) := by
    rw [tableOf_frame]
    exact hbuilt.placed.covers
  obtain ⟨hg, -⟩ := h.declines hc ⟨hbuilt.sound, rfl⟩
  exact (h'.declines hc hg).2

def lateWrite : Files := [(utf8 "m", utf8 "var x = true; x ? f() : h(); x = y;")]

set_option maxRecDepth 100000 in
/-- The branch is asked for and is known. A walk then comes to the assignment, so the branch becomes
unknown, the variable reassigned and the program included. -/
theorem precision_declines_lateWrite : ∃ g₀ g g', g₀.Bound ∧ Follows g₀ g ∧ Follows g g' ∧
    (g.facts 10).branch = .consequent ∧ (g'.facts 10).branch = .unknown ∧
    (g.facts 0).included = false ∧ (g'.facts 0).included = true ∧
    (g'.var? 0).map Variable.reassigned = some true ∧ Declines g g' := by
  let g₀ : Graph := .ofFiles lateWrite [utf8 "m"] {}
  let g := g₀.after ((Operation.branchState 10).run 12)
  let g' := g.after ((Operation.walk 0 false {}).run 12)
  have hbound : g₀.Bound := .modules (Graph.builtFrom_ofFiles lateWrite [utf8 "m"] {}
    (by decide +kernel))
  have hasked : Follows g₀ g := by
    obtain ⟨_, hrun⟩ := Graph.run_after (g := g₀) (m := (Operation.branchState 10).run 12)
      (by decide +kernel)
    exact .step 12 _ .start hrun
  have hwalked : Follows g g' := by
    obtain ⟨_, hrun⟩ := Graph.run_after (g := g) (m := (Operation.walk 0 false {}).run 12)
      (by decide +kernel)
    exact .step 12 _ .start hrun
  have hfacts : (g.facts 10).branch = .consequent ∧ (g'.facts 10).branch = .unknown ∧
      (g.facts 0).included = false ∧ (g'.facts 0).included = true ∧
      (g'.var? 0).map Variable.reassigned = some true := by
    decide +kernel
  obtain ⟨hbefore, hafter, hout, hin, hwritten⟩ := hfacts
  exact ⟨g₀, g, g', hbound, hasked, hwalked, hbefore, hafter, hout, hin, hwritten,
    precision_declines hbound hasked hwalked⟩

end Winnow
