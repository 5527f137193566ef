import Winnow.Proofs.Learning

/-!
# What known values rest on

Whoever finds a value out becomes a dependent of everything it was derived from: variables by their
initial values, objects by a property, calls by their result, conditional expressions by their
branch. `Stands o` says that what `o` is a dependent of is still so. A value rests on that: as long
as it stands, asking again gives the same value (`literal_rests`), whatever else was learnt or lost
in between.
-/

namespace Winnow

open Winnow.Graph Query Conduct Queries BranchState Variable

variable {g g' g₁ : Graph} {n n' : Nat} {e : Entity} {x : Expr} {i : Info}
  {flight : List (Entity × Bytes)} {m : Node} {id : NodeId} {path : Path} {q : Queries}
  {t : Tracker Entity} {v : Value} {choose : Value → Option Bool} {w : Variable}

/-! ## What an origin relies on -/

def BranchState.ofChoice (b : Bool) : BranchState := if b then .consequent else .alternate

/-- What an origin is a dependent of in one graph is still so in another: variables keep their
initial values, objects their properties, calls their results and conditional expressions their
branches. -/
structure Stands (o : Origin) (g g' : Graph) : Prop where
  frame : g'.frame = g.frame
  vars : ∀ {v w}, g.var? v = some w → ∃ w', g'.var? v = some w' ∧ w'.name = w.name ∧
    w'.form = w.form ∧ (w.reassigned = false → o ∈ w.dependents →
      w'.reassigned = false ∧ o ∈ w'.dependents)
  keys : ∀ {i l k}, Held g.node? (.expr (.object i l)) → (g.facts i.id).forgotten = false →
    k ∉ (g.facts i.id).forgottenKeys → o ∈ (g.facts i.id).dependentsAt k →
    (g'.facts i.id).forgotten = false ∧ k ∉ (g'.facts i.id).forgottenKeys ∧
      o ∈ (g'.facts i.id).dependentsAt k
  calls : ∀ {i b c l e}, Held g.node? (.expr (.call i b c l)) →
    (g.facts i.id).returned = some e → e ≠ .unknown → o ∈ (g.facts i.id).dependents →
    (g'.facts i.id).returned = some e ∧ o ∈ (g'.facts i.id).dependents
  branches : ∀ {x b}, Held g.node? (.expr x) → (Node.expr x).test?.isSome = true →
    (g.facts x.info.id).branch = .ofChoice b → o ∈ (g.facts x.info.id).dependents →
    (g'.facts x.info.id).branch = .ofChoice b ∧ o ∈ (g'.facts x.info.id).dependents

theorem BranchState.ofChoice_ne_unresolved (b : Bool) : ofChoice b ≠ .unresolved := by
  cases b <;> nofun

theorem BranchState.ofChoice_ne_unknown (b : Bool) : ofChoice b ≠ .unknown := by
  cases b <;> nofun

namespace Stands

variable {o : Origin} {g g' g'' : Graph}

theorem trans (h : Stands o g g') (h' : Stands o g' g'') : Stands o g g'' := by
  have hnode := node?_of_frame h.frame
  refine ⟨h'.frame.trans h.frame, ?_, ?_, ?_, ?_⟩
  · intro v w hw
    obtain ⟨w', hw', hname, hform, hkeep⟩ := h.vars hw
    obtain ⟨w'', hw'', hname', hform', hkeep'⟩ := h'.vars hw'
    refine ⟨w'', hw'', hname'.trans hname, hform'.trans hform, fun hr ho => ?_⟩
    obtain ⟨hr', ho'⟩ := hkeep hr ho
    exact hkeep' hr' ho'
  · intro i ps key hn hf hk ho
    obtain ⟨hf', hk', ho'⟩ := h.keys hn hf hk ho
    exact h'.keys (hnode ▸ hn) hf' hk' ho'
  · intro i isNew callee as e hn hr he ho
    obtain ⟨hr', ho'⟩ := h.calls hn hr he ho
    exact h'.calls (hnode ▸ hn) hr' he ho'
  · intro x b hn ht hb ho
    obtain ⟨hb', ho'⟩ := h.branches hn ht hb ho
    exact h'.branches (hnode ▸ hn) ht hb' ho'

theorem learns (he : Evolves g g') (h : Learns g g') : Stands o g g' where
  frame := he.frame
  vars := fun hw => by
    obtain ⟨w', hw', hl⟩ := h.vars hw
    refine ⟨w', hw', ?_, ?_, fun hr ho => ⟨?_, hl.dependents ho⟩⟩
    all_goals rw [hl.rest]
    exact hr
  keys := fun {i ps key} _ hf hk ho =>
    ⟨(h.facts i.id).forgotten.trans hf, (h.facts i.id).forgottenKeys ▸ hk,
      (h.facts i.id).dependentsAt key ho⟩
  calls := fun {i isNew callee as e} _ hr _ ho =>
    ⟨(h.facts i.id).returned hr, (h.facts i.id).dependents ho⟩
  branches := fun {x b} _ _ hb ho =>
    ⟨((h.facts x.info.id).branch (hb ▸ ofChoice_ne_unresolved b)).trans hb,
      (h.facts x.info.id).dependents ho⟩

theorem tracker (t : Tracker Entity) (h : Stands o g g') : Stands o g { g' with tracker := t } :=
  ⟨h.frame, h.vars, h.keys, h.calls, h.branches⟩

theorem of_tracker (h : Stands o { g with tracker := t } g') : Stands o g g' :=
  ⟨h.frame, h.vars, h.keys, h.calls, h.branches⟩

end Stands

/-! ## Answers that rest on something -/

section

variable {frame : Places} {o : Origin}

/-- The value of an entity at a path rests on what an origin is a dependent of: as long as that
stands, whoever asks gets this value, unless what was in flight matters. -/
def Rests (frame : Places) (o : Origin)
    (flight : List (Entity × Bytes)) (n : Nat) (g : Graph) (e : Entity) (path : Path)
    (v : Value) : Prop :=
  ∀ g', (drifting frame).holds g' → Stands o g g' → g'.tracker.inFlight ⊆ flight →
    ∀ n', n ≤ n' → ∀ origin, ∃ g'', (Queries.ofDepth n').literal e path origin g' = .ok (v, g'')

theorem Rests.stands (h : Rests frame o flight n g e path v) (hs : Stands o g g') :
    Rests frame o flight n g' e path v :=
  fun g'' hg'' hs' => h g'' hg'' (hs.trans hs')

theorem Rests.mono (h : Rests frame o flight n g e path v) (hn : n ≤ n') :
    Rests frame o flight n' g e path v :=
  fun g' hg' hs ht m hm => h g' hg' hs ht m (Nat.le_trans hn hm)

/-- Every value that is found out on behalf of an origin rests on what it becomes a dependent of. -/
def Resting (frame : Places) (o : Origin)
    (n : Nat) : Prop :=
  ∀ ⦃e path g v g₁⦄, (drifting frame).holds g →
    (Queries.ofDepth n).literal e path (some o) g = .ok (v, g₁) → v ≠ .unknown →
    Rests frame o g.tracker.inFlight n g₁ e path v

theorem Stands.of_literal (hc : Covers (tableOf frame)) {origin : Option Origin}
    (hg : (drifting frame).holds g) (h : (ofDepth n).literal e path origin g = .ok (v, g')) :
    (drifting frame).holds g' ∧ Stands o g g' ∧ g'.tracker = g.tracker := by
  obtain ⟨hg', hd, hl⟩ := (learning_asks hc n).literal e path origin g v g' hg h
  exact ⟨hg', .learns hd.toEvolves hl, hd.tracker⟩

theorem literal_var {id : VarId} (h : g.var? id = some w) (path : Path) (origin : Option Origin) :
    Query.literal q (.var id) path origin g = literalOfVar q id w path origin g := by
  unfold Query.literal
  dsimp only
  rw [bind_run get_run, h]

theorem literal_expr (h : g.node? id = some (.expr x)) (path : Path) (origin : Option Origin) :
    Query.literal q (.node id) path origin g = literalOfExpr q x path origin g := by
  unfold Query.literal
  dsimp only
  rw [bind_run get_run, h]

theorem literalOfVar_declared (h : w.isDeclared = true) (q : Queries) (id : VarId) (path : Path)
    (origin : Option Origin) : literalOfVar q id w path origin =
      match w.knownInit? with
      | none => pure .unknown
      | some node => tracked (.var id) path .unknown (do
        addVarDependent id origin
        q.literal (.node node) path origin) := by
  unfold isDeclared at h
  unfold literalOfVar
  split at h
  · rename_i heq
    cases w.knownInit? <;> simp [heq]
  · cases h

/-- Entering a dependent: it always works, and leaves standing what anyone relies on. -/
def Enters (frame : Places)
    (enter : Option Origin → Query Unit) : Prop :=
  ∀ origin g, (drifting frame).holds g → ∃ g', enter origin g = .ok ((), g') ∧
    (drifting frame).holds g' ∧ (∀ o, Stands o g g') ∧ g'.tracker = g.tracker

theorem Enters.of_keeps {enter : Option Origin → Query Unit}
    (hrun : ∀ origin g, ∃ g', enter origin g = .ok ((), g'))
    (h : ∀ origin, (learning frame).Keeps (enter origin)) : Enters frame enter := by
  intro origin g hg
  obtain ⟨g', hrun⟩ := hrun origin g
  obtain ⟨hg', hd, hl⟩ := h origin g () g' hg hrun
  exact ⟨g', hrun, hg', fun o => .learns hd.toEvolves hl, hd.tracker⟩

theorem addVarDependent_enters (hc : Covers (tableOf frame)) (v : VarId) :
    Enters frame (addVarDependent v) :=
  .of_keeps (fun _ _ => ⟨_, rfl⟩) ((learning_rules hc).addVarDependent v)

theorem addDependent_enters (hc : Covers (tableOf frame)) (n : NodeId) :
    Enters frame (addDependent n) :=
  .of_keeps (fun _ _ => ⟨_, rfl⟩) ((learning_rules hc).addDependent n)

theorem addKeyDependent_enters (hc : Covers (tableOf frame)) (n : NodeId) (key : Key) :
    Enters frame (addKeyDependent n key) :=
  .of_keeps (fun origin _ => by cases origin <;> exact ⟨_, rfl⟩)
    ((learning_rules hc).addKeyDependent n key)

section

variable (hc : Covers (tableOf frame)) {n : Nat} (ih : Resting frame o n) {subject inner : Entity}
  {path rest : Path} {enter : Option Origin → Query Unit} (henter : Enters frame enter)

include hc ih henter in
/-- A value that was found out behind an entry rests on something, and the entry lasts. -/
theorem Resting.entered (hg : (drifting frame).holds g) (hv : v ≠ .unknown) (h : (do
      enter (some o)
      (ofDepth n).literal inner rest (some o)) g = .ok (v, g₁)) :
    ∃ g0, enter (some o) g = .ok ((), g0) ∧ Stands o g0 g₁ ∧
      Rests frame o g.tracker.inFlight n g₁ inner rest v := by
  obtain ⟨_, g0, hrun, h⟩ := bind_ok.mp h
  obtain ⟨_, hrun', hg0, -, ht⟩ := henter (some o) g hg
  rw [hrun] at hrun'
  cases hrun'
  obtain ⟨-, hs, -⟩ := Stands.of_literal (o := o) hc hg0 h
  exact ⟨g0, hrun, hs, ht ▸ ih hg0 h hv⟩

include henter in
theorem Rests.entered (h : Rests frame o flight n g inner rest v) (hg' : (drifting frame).holds g')
    (hs : Stands o g g') (hflight : g'.tracker.inFlight ⊆ flight) (hn : n ≤ n')
    (origin : Option Origin) : ∃ g'', (do
      enter origin
      (ofDepth n').literal inner rest origin) g' = .ok (v, g'') := by
  obtain ⟨g₁, hrun, hg1, hs1, ht1⟩ := henter origin g' hg'
  obtain ⟨g'', hrun'⟩ := h g₁ hg1 (hs.trans (hs1 o)) (ht1 ▸ hflight) n' hn origin
  exact ⟨g'', (bind_run hrun).trans hrun'⟩

include hc ih henter in
theorem Resting.tracked (hg : (drifting frame).holds g) (hv : v ≠ .unknown)
    (h : Query.tracked subject path .unknown (do
      enter (some o)
      (ofDepth n).literal inner rest (some o)) g = .ok (v, g₁)) :
    g.tracker.holds subject path = false ∧
      ∃ g0, enter (some o) { g with tracker := g.tracker.enter subject path } = .ok ((), g0) ∧
        Stands o g0 g₁ ∧
        Rests frame o (g.tracker.enter subject path).inFlight n g₁ inner rest v := by
  rcases tracked_ok h with ⟨-, rfl, -⟩ | ⟨hnot, g2, h2, rfl⟩
  · exact absurd rfl hv
  · obtain ⟨g0, hrun, hs, hrests⟩ := ih.entered hc henter (holds_tracker hg _) hv h2
    exact ⟨hnot, g0, hrun, hs.tracker _, fun g' hg' hs' => hrests g' hg' hs'.of_tracker⟩

include henter in
theorem Rests.tracked (h : Rests frame o (t.enter subject path).inFlight n g inner rest v)
    (hnot : t.holds subject path = false) (hg' : (drifting frame).holds g') (hs : Stands o g g')
    (hflight : g'.tracker.inFlight ⊆ t.inFlight) (hn : n ≤ n') (origin : Option Origin) :
    ∃ g'', Query.tracked subject path .unknown (do
      enter origin
      (ofDepth n').literal inner rest origin) g' = .ok (v, g'') := by
  have hnot' : g'.tracker.holds subject path = false := by
    simp only [Tracker.holds, List.contains_eq_mem, decide_eq_false_iff_not] at hnot ⊢
    exact fun hmem => hnot (hflight hmem)
  obtain ⟨g'', hrun⟩ := h.entered henter (holds_tracker hg' (g'.tracker.enter subject path))
    (hs.tracker _) (List.cons_subset_cons _ hflight) hn origin
  exact ⟨_, tracked_run hnot' hrun⟩

/-! ## Every known value rests on something -/

theorem knownInit?_congr {w' : Variable} (hform : w'.form = w.form)
    (hr : w'.reassigned = w.reassigned) : w'.knownInit? = w.knownInit? := by
  simp [knownInit?, init?, hform, hr]

theorem reassigned_of_knownInit? {node : NodeId} (h : w.knownInit? = some node) :
    w.reassigned = false := by
  unfold knownInit? at h
  split at h
  · cases h
  · exact Bool.not_eq_true _ ▸ ‹_›

include hc ih in
theorem literalOfVar_rests {id : VarId} (hg : (drifting frame).holds g) (hw : g.var? id = some w)
    (hrun : literalOfVar (ofDepth n) id w path (some o) g = .ok (v, g₁)) (hv : v ≠ .unknown) :
    Rests frame o g.tracker.inFlight (n + 1) g₁ (.var id) path v := by
  rintro g' hg' hs hflight (_ | m) hm origin
  · cases hm
  show ∃ g'', Query.literal (ofDepth m) (.var id) path origin g' = .ok (v, g'')
  have hm := Nat.le_of_succ_le_succ hm
  cases hf : w.form with
  | declared kind ds init =>
    have hdeclared : w.isDeclared = true := by simp [isDeclared, hf]
    rw [literalOfVar_declared hdeclared] at hrun
    cases hk : w.knownInit? with
    | none =>
      rw [hk] at hrun
      exact absurd (pure_ok.mp hrun).1 hv
    | some node =>
      rw [hk] at hrun
      obtain ⟨hnot, g0, henter, hs0, hrests⟩ :=
        ih.tracked hc (addVarDependent_enters hc id) hg hv hrun
      cases henter
      obtain ⟨w', hw', -, hform, hkeep⟩ := (hs0.trans hs).vars (v := id)
        (by rw [var?_modifyVar, if_pos rfl]; exact congrArg _ hw)
      obtain ⟨hr, -⟩ := hkeep (reassigned_of_knownInit? hk) (by simp)
      have hk' : w'.knownInit? = some node :=
        (knownInit?_congr hform (hr.trans (reassigned_of_knownInit? hk).symm)).trans hk
      have hdeclared' : w'.isDeclared = true := by
        simp only [isDeclared, hform, hf]
      rw [literal_var hw', literalOfVar_declared hdeclared', hk']
      exact hrests.tracked (addVarDependent_enters hc id) hnot hg' hs hflight hm origin
  | global =>
    simp only [literalOfVar, hf] at hrun
    obtain ⟨rfl, rfl⟩ := pure_ok.mp hrun
    obtain ⟨w', hw', hname, hform, -⟩ := hs.vars hw
    rw [literal_var hw']
    simp only [literalOfVar, hform, hf, hname]
    exact ⟨_, rfl⟩
  | moduleNamespace merged =>
    simp only [literalOfVar, hf] at hrun
    obtain ⟨rfl, rfl⟩ := pure_ok.mp hrun
    obtain ⟨w', hw', -, hform, -⟩ := hs.vars hw
    rw [literal_var hw']
    simp only [literalOfVar, hform, hf]
    exact ⟨_, rfl⟩
  | receiver k | external source imported =>
    simp only [literalOfVar, hf] at hrun
    exact absurd (pure_ok.mp hrun).1 hv

/-- What an expression is asked for rests on something if it does in all graphs of the frame. -/
theorem Rests.of_expr (hg : (drifting frame).holds g) (hx : Held g.node? (.expr x))
    (h : ∀ {g'} m origin, (drifting frame).holds g' → Stands o g₁ g' →
      g'.tracker.inFlight ⊆ flight → n ≤ m →
      ∃ g'', literalOfExpr (ofDepth m) x path origin g' = .ok (v, g'')) :
    Rests frame o flight (n + 1) g₁ x.entity path v := by
  rintro g' hg' hs hflight (_ | m) hm origin
  · cases hm
  obtain ⟨g'', hrun⟩ := h m origin hg' hs hflight (Nat.le_of_succ_le_succ hm)
  exact ⟨g'', (literal_expr (node?_of_frame (hg'.2.trans hg.2.symm) ▸ hx) path origin).trans hrun⟩

theorem pick_eq_some {α : Type} {x y used : α} {state : BranchState}
    (h : pick x y state = some used) :
    ∃ b, state = .ofChoice b ∧ used = if b then x else y := by
  cases state with
  | consequent => exact ⟨true, rfl, (Option.some.inj h).symm⟩
  | alternate => exact ⟨false, rfl, (Option.some.inj h).symm⟩
  | _ => cases h

theorem branchOf_written {t : Expr} {state : BranchState} {b : Bool}
    (h : branchOf q m.id t choose g = .ok (state, g')) (hstate : state = .ofChoice b) :
    (g'.facts m.id).branch = .ofChoice b := by
  rcases branchOf_ok h with ⟨-, rfl, rfl⟩ | ⟨-, v, g₁, -, ⟨-, rfl, -⟩ | ⟨b', -, -, rfl⟩⟩
  · exact hstate
  · exact absurd hstate.symm (ofChoice_ne_unknown b)
  · exact hstate

theorem branchOf_known {b : Bool} (h : (g.facts id).branch = .ofChoice b) (t : Expr)
    (choose : Value → Option Bool) : branchOf q id t choose g = .ok (.ofChoice b, g) := by
  unfold branchOf
  rw [bind_run get_run, if_pos (h ▸ ofChoice_ne_unresolved b), h]
  rfl

theorem returnOf_written {isNew : Bool} {callee : Expr} {as : List Expr}
    (hi : (g'.node? i.id).isSome = true) (h : returnOf q i isNew callee as g = .ok (e, g')) :
    (g'.facts i.id).returned = some e := by
  rcases returnOf_ok h with ⟨hr, rfl⟩ | ⟨-, use, g₁, -, rfl⟩
  · exact hr
  · obtain ⟨m, hm⟩ := Option.isSome_iff_exists.mp hi
    rw [node?_of_frame (frame_modifyFacts g₁ _ _)] at hm
    rw [facts_modifyFacts_self hm]

theorem returnOf_known (h : (g.facts i.id).returned = some e) (isNew : Bool) (callee : Expr)
    (as : List Expr) : returnOf q i isNew callee as g = .ok (e, g) := by
  unfold returnOf
  rw [bind_run get_run, h]
  rfl

theorem facts_addDependent {g0 : Graph} (hm : g.node? id = some m)
    (h : addDependent id (some o) g = .ok ((), g0)) :
    g0.frame = g.frame ∧ (g0.facts id).branch = (g.facts id).branch ∧
      (g0.facts id).returned = (g.facts id).returned ∧ o ∈ (g0.facts id).dependents := by
  cases h
  rw [facts_modifyFacts_self hm]
  simp

theorem facts_addKeyDependent {key : Key} {g0 : Graph} (hm : g.node? id = some m)
    (h : addKeyDependent id key (some o) g = .ok ((), g0)) :
    g0.frame = g.frame ∧ (g0.facts id).forgotten = (g.facts id).forgotten ∧
      (g0.facts id).forgottenKeys = (g.facts id).forgottenKeys ∧
      o ∈ (g0.facts id).dependentsAt key := by
  cases h
  rw [facts_modifyFacts_self hm, dependentsAt_insert]
  simp

theorem unaryValue_unknown {op : UnaryOp} (h : op ≠ .void) : unaryValue op .unknown = .unknown := by
  cases op <;> first | rfl | exact absurd rfl h

include hc ih in
/-- The branch of a conditional expression, or the operand of a logical one, that a value was found
in. -/
theorem branch_rests {l r : Expr} {t : Expr} (hg : (drifting frame).holds g)
    (hx : Held g.node? (.expr x)) (ht : (Node.expr x).test? = some (t, choose))
    (hself : ∀ q origin, literalOfExpr q x path origin = (do
      match pick l r (← branchOf q x.info.id t choose) with
      | none => return .unknown
      | some used =>
        addDependent x.info.id origin
        q.literal used.entity path origin))
    (hrun : literalOfExpr (ofDepth n) x path (some o) g = .ok (v, g₁)) (hv : v ≠ .unknown) :
    Rests frame o g.tracker.inFlight (n + 1) g₁ x.entity path v := by
  rw [hself] at hrun
  obtain ⟨state, g2, hbranch, hrun⟩ := bind_ok.mp hrun
  obtain ⟨hg2, hd2, -⟩ := branchOf_learns hc (learning_asks hc n) _ _ _ _ _ _ hg hbranch
  have hx2 : Held g2.node? (.expr x) := node?_of_frame hd2.frame ▸ hx
  cases hpick : pick l r state with
  | none =>
    rw [hpick] at hrun
    exact absurd (pure_ok.mp hrun).1 hv
  | some used =>
    rw [hpick] at hrun
    obtain ⟨b, hstate, -⟩ := pick_eq_some hpick
    obtain ⟨g0, henter, hs0, hrests⟩ := ih.entered hc (addDependent_enters hc _) hg2 hv hrun
    obtain ⟨hframe0, hbranch0, -, ho⟩ := facts_addDependent hx2 henter
    refine .of_expr hg hx fun {g'} m origin hg' hs hflight hm => ?_
    -- What was written down is what is asked for again.
    have hbranch' : (g'.facts x.info.id).branch = .ofChoice b :=
      ((hs0.trans hs).branches (x := x) (node?_of_frame hframe0 ▸ hx2) (by rw [ht]; rfl)
        (hbranch0.trans (branchOf_written (m := .expr x) hbranch hstate)) ho).1
    rw [hself, bind_run (branchOf_known hbranch' t choose), ← hstate, hpick]
    exact hrests.entered (addDependent_enters hc _) hg' hs (hd2.tracker.symm ▸ hflight) hm origin

include hc ih in
theorem object_rests {ps : List Property} {key : Key} (hg : (drifting frame).holds g)
    (hx : Held g.node? (.expr (.object i ps)))
    (hrun : literalOfExpr (ofDepth n) (.object i ps) (key :: rest) (some o) g =
      .ok (v, g₁)) (hv : v ≠ .unknown) :
    Rests frame o g.tracker.inFlight (n + 1) g₁ (.node i.id) (key :: rest) v := by
  simp only [literalOfExpr] at hrun
  rw [bind_run (knownProperty?_run _ _ _ _)] at hrun
  cases hp : knownProperty g i.id ps key with
  | none =>
    rw [hp] at hrun
    exact absurd (pure_ok.mp hrun).1 hv
  | some p =>
    rw [hp] at hrun
    obtain ⟨hnot, g0, henter, hs0, hrests⟩ :=
      ih.tracked hc (addKeyDependent_enters hc _ _) hg hv hrun
    obtain ⟨hframe0, hforgotten0, hkeys0, ho⟩ := facts_addKeyDependent
      (m := .expr (.object i ps)) (by exact hx) henter
    have hknown : key.isKnown = true ∧ (g.facts i.id).forgotten = false ∧
        key ∉ (g.facts i.id).forgottenKeys ∧ property? ps key = some p := by
      unfold knownProperty at hp
      split at hp
      · cases hp
      · simp_all
    refine .of_expr hg hx fun {g'} m origin hg' hs hflight hm => ?_
    have hp' : knownProperty g' i.id ps key = some p := by
      obtain ⟨hf, hk, -⟩ := (hs0.trans hs).keys (i := i) (l := ps) (k := key)
        (node?_of_frame hframe0 ▸ hx) (hforgotten0.trans hknown.2.1) (hkeys0 ▸ hknown.2.2.1) ho
      simp [knownProperty, hknown, hf, hk]
    simp only [literalOfExpr]
    rw [bind_run (knownProperty?_run _ _ _ _), hp']
    exact hrests.tracked (addKeyDependent_enters hc _ _) hnot hg' hs hflight hm origin

include hc ih in
theorem call_rests {isNew : Bool} {callee : Expr} {as : List Expr} (hg : (drifting frame).holds g)
    (hx : Held g.node? (.expr (.call i isNew callee as)))
    (hrun : literalOfExpr (ofDepth n) (.call i isNew callee as) path (some o) g =
      .ok (v, g₁)) (hv : v ≠ .unknown) :
    Rests frame o g.tracker.inFlight (n + 1) g₁ (.node i.id) path v := by
  obtain ⟨result, g2, hreturn, hrun⟩ := bind_ok.mp hrun
  obtain ⟨hg2, hd2, -⟩ := returnOf_learns (learning_asks hc n) _ _ _ _ _ _ _ hg hreturn
  have hx2 : g2.node? i.id = some (.expr (.call i isNew callee as)) :=
    node?_of_frame hd2.frame ▸ hx
  have hwritten := returnOf_written (by rw [hx2]; rfl) hreturn
  split at hrun
  · exact absurd (pure_ok.mp hrun).1 hv
  rename_i hresult
  obtain ⟨hnot, g0, henter, hs0, hrests⟩ := ih.tracked hc (addDependent_enters hc _) hg2 hv hrun
  obtain ⟨hframe0, -, hreturned0, ho⟩ := facts_addDependent
    (m := .expr (.call i isNew callee as)) (by exact hx2) henter
  refine .of_expr hg hx fun {g'} m origin hg' hs hflight hm => ?_
  have hreturned : (g'.facts i.id).returned = some result :=
    ((hs0.trans hs).calls (i := i) (b := isNew) (c := callee) (l := as)
      (node?_of_frame hframe0 ▸ hx2) (hreturned0.trans hwritten) hresult ho).1
  simp only [literalOfExpr]
  rw [bind_run (returnOf_known hreturned _ _ _), if_neg hresult]
  exact hrests.tracked (addDependent_enters hc _) hnot hg' hs (hd2.tracker.symm ▸ hflight) hm origin

include hc ih in
theorem operands_rest {op : BinaryOp} {a b : Expr} (hg : (drifting frame).holds g)
    (hx : Held g.node? (.expr (.binary i op a b)))
    (hrun : literalOfExpr (ofDepth n) (.binary i op a b) path (some o) g = .ok (v, g₁))
    (hv : v ≠ .unknown) : Rests frame o g.tracker.inFlight (n + 1) g₁ (.node i.id) path v := by
  simp only [literalOfExpr] at hrun
  split at hrun
  · exact absurd (pure_ok.mp hrun).1 hv
  rename_i hpath
  obtain ⟨va, g2, hruna, hrun⟩ := bind_ok.mp hrun
  split at hrun
  · exact absurd (pure_ok.mp hrun).1 hv
  rename_i hva
  obtain ⟨vb, g3, hrunb, hrun⟩ := bind_ok.mp hrun
  split at hrun
  · exact absurd (pure_ok.mp hrun).1 hv
  rename_i hvb
  obtain ⟨rfl, rfl⟩ := pure_ok.mp hrun
  obtain ⟨hg2, -, ht2⟩ := Stands.of_literal (o := o) hc hg hruna
  obtain ⟨-, hs3, -⟩ := Stands.of_literal (o := o) hc hg2 hrunb
  have hresta := (ih hg hruna (by rintro rfl; exact hva rfl)).stands hs3
  have hrestb := ih hg2 hrunb (by rintro rfl; exact hvb rfl)
  refine .of_expr hg hx fun {g'} m origin hg' hs hflight hm => ?_
  obtain ⟨g4, hrun4⟩ := hresta g' hg' hs hflight m hm origin
  obtain ⟨hg4, hs4, ht4⟩ := Stands.of_literal (o := o) hc hg' hrun4
  obtain ⟨g5, hrun5⟩ := hrestb g4 hg4 (hs.trans hs4) (by rw [ht4, ht2]; exact hflight) m hm origin
  refine ⟨g5, ?_⟩
  simp only [literalOfExpr]
  rw [if_neg hpath, bind_run hrun4, if_neg hva, bind_run hrun5, if_neg hvb]
  rfl

include hc ih in
theorem literalOfExpr_rests (hg : (drifting frame).holds g) (hx : Held g.node? (.expr x))
    (hrun : literalOfExpr (ofDepth n) x path (some o) g = .ok (v, g₁)) (hv : v ≠ .unknown) :
    Rests frame o g.tracker.inFlight (n + 1) g₁ x.entity path v := by
  -- What the node refers to is the same in every graph of the frame.
  have hresolution : ∀ {g'}, (drifting frame).holds g' → g'.resolution = g.resolution :=
    fun hg' => resolution_of_frame (hg'.2.trans hg.2.symm)
  have hpure : ∀ u, (∀ q origin, literalOfExpr q x path origin = pure u) →
      Rests frame o g.tracker.inFlight (n + 1) g₁ x.entity path v := by
    intro u hu
    rw [hu] at hrun
    obtain ⟨rfl, rfl⟩ := pure_ok.mp hrun
    exact .of_expr hg hx fun {g'} m origin hg' hs hflight hm => ⟨g', by rw [hu]; rfl⟩
  have hpassed : ∀ {e path'}, (∀ {q origin g'}, (drifting frame).holds g' →
      literalOfExpr q x path origin g' = q.literal e path' origin g') →
      Rests frame o g.tracker.inFlight (n + 1) g₁ x.entity path v := by
    intro e path' heq
    rw [heq hg] at hrun
    refine .of_expr hg hx fun {g'} m origin hg' hs hflight hm => ?_
    rw [heq hg']
    exact ih hg hrun hv _ hg' hs hflight m hm origin
  cases x with
  | ident i =>
    exact hpassed fun hg' => (bind_run (nameTarget_run _ _)).trans (by rw [hresolution hg'])
  | receiver i scope =>
    exact hpassed fun hg' => (bind_run (receiverTarget_run _ _)).trans (by rw [hresolution hg'])
  | literal i value raw => exact hpure (literalAt value path) fun _ _ => rfl
  | object i ps =>
    cases path with
    | nil => exact hpure .truthy fun _ _ => rfl
    | cons key rest => exact object_rests hc ih hg hx hrun hv
  | member i object name | index i object key =>
    cases hr : g.resolution i.id <;> exact hpassed fun hg' =>
      (bind_run (memberTarget?_run _ _)).trans (by rw [hresolution hg', hr])
  | call i isNew callee as => exact call_rests hc ih hg hx hrun hv
  | unary i op a =>
    simp only [literalOfExpr] at hrun
    by_cases hpath : (!path.isEmpty) = true
    · rw [if_pos hpath] at hrun
      exact absurd (pure_ok.mp hrun).1 hv
    by_cases hop : op = .void
    · exact hpure .undefined fun _ _ => by simp only [literalOfExpr, if_neg hpath, if_pos hop]
    rw [if_neg hpath, if_neg hop] at hrun
    obtain ⟨va, g2, hruna, hrun⟩ := bind_ok.mp hrun
    obtain ⟨rfl, rfl⟩ := pure_ok.mp hrun
    have hrest := ih hg hruna (by rintro rfl; exact hv (unaryValue_unknown hop))
    refine .of_expr hg hx fun {g'} m origin hg' hs hflight hm => ?_
    obtain ⟨g'', hrun''⟩ := hrest g' hg' hs hflight m hm origin
    refine ⟨g'', ?_⟩
    simp only [literalOfExpr]
    rw [if_neg hpath, if_neg hop, bind_run hrun'']
    rfl
  | binary i op a b => exact operands_rest hc ih hg hx hrun hv
  | logical i op l r =>
    refine branch_rests hc ih (l := l) (r := r) hg hx rfl (fun q origin => ?_) hrun hv
    simp only [literalOfExpr, usedOperand, bind_assoc, pure_bind]
    rfl
  | conditional i t l r =>
    refine branch_rests hc ih (l := l) (r := r) hg hx rfl (fun q origin => ?_) hrun hv
    simp only [literalOfExpr, usedBranch, bind_assoc, pure_bind]
    rfl
  | assign i op target value => exact absurd (pure_ok.mp hrun).1 hv
  | function f | classDef d => exact hpure (objectAt path) fun _ _ => rfl

end

/-- Every value that is found out on behalf of an origin rests on what it becomes a dependent of. -/
theorem literal_rests (hc : Covers (tableOf frame)) : ∀ n, Resting frame o n
  | 0 => fun _ _ _ _ _ _ hrun => absurd hrun throw_ok
  | n + 1 => by
    have ih : Resting frame o n := literal_rests hc n
    intro e path g v g₁ hg hrun hv
    change Query.literal (ofDepth n) e path (some o) g = .ok (v, g₁) at hrun
    cases e with
    | undefined =>
      obtain ⟨rfl, rfl⟩ := pure_ok.mp hrun
      rintro g' - - - (_ | m) hm origin
      · cases hm
      · exact ⟨g', rfl⟩
    | var id =>
      cases hw : g.var? id with
      | none =>
        simp only [Query.literal] at hrun
        rw [bind_run get_run, hw] at hrun
        exact absurd (pure_ok.mp hrun).1 hv
      | some w =>
        rw [literal_var hw] at hrun
        exact literalOfVar_rests hc ih hg hw hrun hv
    | node id =>
      cases hn : g.node? id with
      | none =>
        simp only [Query.literal] at hrun
        rw [bind_run get_run, hn] at hrun
        exact absurd (pure_ok.mp hrun).1 hv
      | some m =>
        have hown : m.id = id := hc.own (by rw [← hg.2, tableOf_frame]; exact hn)
        cases m with
        | expr x =>
          rw [literal_expr hn] at hrun
          have hrest := literalOfExpr_rests hc ih hg
            (show g.node? (Node.expr x).id = _ by rw [hown]; exact hn) hrun hv
          rwa [Expr.entity, show x.info.id = id from hown] at hrest
        | binder b =>
          have hforward : ∀ m g' origin, (drifting frame).holds g' →
              Query.literal (ofDepth m) (.node id) path origin g' =
                (ofDepth m).literal (.var b.var) path origin g' := by
            intro m g' origin hg'
            have hn' : g'.node? id = some (.binder b) :=
              node?_of_frame (hg'.2.trans hg.2.symm) ▸ hn
            simp only [Query.literal]
            rw [bind_run get_run, hn']
          rw [hforward n g _ hg] at hrun
          rintro g' hg' hs hflight (_ | m) hm origin
          · cases hm
          obtain ⟨g'', hrun'⟩ :=
            ih hg hrun hv g' hg' hs hflight m (Nat.le_of_succ_le_succ hm) origin
          exact ⟨g'', (hforward m g' origin hg').trans hrun'⟩
        | _ =>
          simp only [Query.literal] at hrun
          rw [bind_run get_run, hn] at hrun
          exact absurd (pure_ok.mp hrun).1 hv
    | _ => exact absurd (pure_ok.mp hrun).1 hv

end

end Winnow
