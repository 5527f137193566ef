import Winnow.Proofs.Nodes
import Winnow.Proofs.Runs

/-!
# What questions do to the graph

All questions of the analysis change the graph in a few places only. `Rules` and `Stage` list these
places: entering dependents, looking up members of namespaces, finding out a branch or the result of
a call, and the ways to forget. A conduct that is kept there is kept by every question
(`Rules.answers`). What follows from telling somebody that a fact is lost is stated apart (`told`),
since between the loss and the telling a conduct may be broken.
-/

namespace Winnow

open Query

variable {g g' : Graph} {d : ClassDef} {e : Expr} {i : Info} {path : Path} {α : Type}

/-- The questions that find something out follow a conduct. They never take anything back. -/
structure Asks (c : Conduct) (q : Queries) : Prop where
  literal : ∀ e path origin, c.Keeps (q.literal e path origin)
  returned : ∀ e path i origin, c.Keeps (q.returned e path i origin)

/-- So do the two questions whose answers are written down. -/
structure Finds (c : Conduct) (table : NodeId → Option Node) (q : Queries) : Prop extends
    Asks c q where
  branchOf : ∀ n t choose, Held table n → n.test? = some (t, choose) →
    c.Keeps (branchOf q n.id t choose)
  returnOf : ∀ i isNew callee arguments, Held table (.expr (.call i isNew callee arguments)) →
    c.Keeps (returnOf q i isNew callee arguments)

/-- All questions follow a conduct; telling `o` of a loss changes the graph as `told o` says. -/
structure Answers (c : Conduct) (table : NodeId → Option Node)
    (told : Origin → Graph → Graph → Prop) (q : Queries) : Prop extends Asks c q where
  forget : ∀ e path, c.paths path → c.Keeps (q.forget e path)
  exposeReceiver : ∀ e i path, c.Keeps (q.exposeReceiver e i path)
  interact : ∀ e path i, c.KeepsAll (q.interact e path i)
  effects : ∀ n, Held table n → c.KeepsAll (q.effects n)
  invalidate : ∀ o g a g', c.holds g → q.invalidate o g = .ok (a, g') → c.holds g' ∧ told o g g'

/-- A conduct is kept where questions find something out or lose it. -/
structure Stage (c : Conduct) (table : NodeId → Option Node)
    (told : Origin → Graph → Graph → Prop) (q : Queries) : Prop extends
    Answers c table told q, Finds c table q where
  forgetDeclared : ∀ g id v path, c.paths path → g.var? id = some v → v.isDeclared = true →
    c.From g (forgetDeclared q id v path)
  forgetObject : ∀ i ps path, c.paths path → Held table (.expr (.object i ps)) →
    c.Keeps (forgetObject q i.id ps path)
  forgetClass : ∀ d path, c.paths path → Held table (.expr (.classDef d)) →
    c.Keeps (forgetClass q d path)
  told : ∀ o g a g', c.holds g → Query.invalidate q o g = .ok (a, g') → c.holds g' ∧ told o g g'

/-- A conduct lets questions forget at the paths they come to: a variable or everything below a
value first, from there through property accesses to objects, and from objects to properties. -/
structure Roads (c : Conduct) (table : NodeId → Option Node) : Prop where
  nil : c.paths []
  unknown : c.paths Path.unknown
  tail : ∀ {key path}, c.paths (key :: path) → c.paths path
  member : ∀ {i object name path}, Held table (.expr (.member i object name)) → c.paths path →
    c.paths (name :: path)
  index : ∀ {i object key path}, Held table (.expr (.index i object key)) → c.paths path →
    c.paths (indexKey key :: path)

theorem Roads.all {c : Conduct} {table : NodeId → Option Node} (h : ∀ path, c.paths path) :
    Roads c table := ⟨h _, h _, fun _ => h _, fun _ _ => h _, fun _ _ => h _⟩

/-- A conduct does not mind which questions are in flight, as long as they leave again. -/
structure Tracks (c : Conduct) : Prop where
  holds : ∀ {g} (t : Tracker Entity), c.holds g → c.holds { g with tracker := t }
  tracker : ∀ {g g'}, c.allows g g' → g'.tracker = g.tracker
  within : ∀ {g g'} {t : Tracker Entity}, c.allows { g with tracker := t } g' →
    c.allows g { g' with tracker := g.tracker }

/-- A conduct allows what questions do on their way. -/
structure Rules (c : Conduct) (table : NodeId → Option Node) : Prop where
  roads : Roads c table
  same : ∀ g, c.holds g → g.node? = table
  covers : Covers table
  member : ∀ m key, c.Keeps (link (Graph.namespaceMember? m key))
  tracks : Tracks c
  addVarDependent : ∀ v o, c.Keeps (addVarDependent v o)
  addDependent : ∀ n o, c.Keeps (addDependent n o)
  addKeyDependent : ∀ n key o, c.Keeps (addKeyDependent n key o)
  newUnion : ∀ es, c.Keeps (newUnion es)
  applied : ∀ n, c.Keeps (modifyFacts n fun f => { f with applied := true })

section

variable {c : Conduct} {table : NodeId → Option Node} {told : Origin → Graph → Graph → Prop}
  {q : Queries}

open Conduct

/-! ## Looking things up -/

theorem nameTarget_run (n : NodeId) (g : Graph) : nameTarget n g = .ok
    (match g.resolution n with
      | .bound v => .var v
      | _ => .unknown, g) := by
  show (match g.resolution n with
    | .bound v => pure (.var v)
    | _ => pure .unknown : Query Entity) g = _
  cases g.resolution n <;> rfl

theorem receiverTarget_run (n : NodeId) (g : Graph) : receiverTarget n g = .ok
    (match g.resolution n with
      | .bound v => .var v
      | _ => .undefined, g) := by
  show (match g.resolution n with
    | .bound v => pure (.var v)
    | _ => pure .undefined : Query Entity) g = _
  cases g.resolution n <;> rfl

theorem memberTarget?_run (n : NodeId) (g : Graph) : memberTarget? n g = .ok
    (match g.resolution n with
      | .bound v => some (.var v)
      | .missing => some .undefined
      | .nothing => none, g) := by
  show (match g.resolution n with
    | .bound v => pure (some (.var v))
    | .missing => pure (some .undefined)
    | .nothing => pure none : Query (Option Entity)) g = _
  cases g.resolution n <;> rfl

/-- The property that an object has under a key, as far as the graph still knows it. -/
def knownProperty (g : Graph) (id : NodeId) (ps : List Property) (key : Key) : Option Property :=
  if !key.isKnown || (g.facts id).forgotten || (g.facts id).forgottenKeys.contains key then none
  else property? ps key

theorem knownProperty?_run (id : NodeId) (ps : List Property) (key : Key) (g : Graph) :
    knownProperty? id ps key g = .ok (knownProperty g id ps key, g) := by
  simp only [knownProperty]
  show (if _ then pure none else pure (property? ps key) : Query (Option Property)) g = _
  split <;> rfl

/-- The static member that a class has under a key, as far as the graph still knows it. -/
def staticMember (g : Graph) (d : ClassDef) (key : Key) : Option ClassMember :=
  if !key.isKnown || (g.facts d.info.id).forgotten then none
  else d.members.reverse.find? fun m => m.isStatic && m.key = key

theorem staticMember?_run (d : ClassDef) (key : Key) (g : Graph) :
    staticMember? d key g = .ok (staticMember g d key, g) := by
  simp only [staticMember]
  show (if _ then pure none else pure _ : Query (Option ClassMember)) g = _
  split <;> rfl

/-- The receiver of a call, if it is called on something. -/
def callReceiver (g : Graph) : Expr → Option Entity
  | .member i object _ | .index i object _ =>
    if g.resolution i.id = .nothing then some object.entity else none
  | _ => none

theorem callInteraction_run (i : Info) (isNew : Bool) (callee : Expr) (as : List Expr)
    (g : Graph) : callInteraction i isNew callee as g = .ok ({
      use := .called, receiver := callReceiver g callee, arguments := as.map Expr.entity, isNew,
      site := some (.call i.id) }, g) := by
  cases callee with
  | member j object name | index j object key =>
    simp only [callInteraction, callReceiver]
    rw [bind_run (map_run (memberTarget?_run _ _))]
    cases g.resolution j.id <;> rfl
  | _ => rfl

theorem nameTarget_keeps (n : NodeId) : c.Keeps (nameTarget n) :=
  .of_same fun g => ⟨_, nameTarget_run n g⟩

theorem receiverTarget_keeps (n : NodeId) : c.Keeps (receiverTarget n) :=
  .of_same fun g => ⟨_, receiverTarget_run n g⟩

theorem memberTarget?_keeps (n : NodeId) : c.Keeps (memberTarget? n) :=
  .of_same fun g => ⟨_, memberTarget?_run n g⟩

theorem knownProperty?_keeps (id : NodeId) (ps : List Property) (key : Key) :
    c.Keeps (knownProperty? id ps key) :=
  .of_same fun g => ⟨_, knownProperty?_run id ps key g⟩

theorem staticMember?_keeps (d : ClassDef) (key : Key) : c.Keeps (staticMember? d key) :=
  .of_same fun g => ⟨_, staticMember?_run d key g⟩

theorem callInteraction_keeps (i : Info) (isNew : Bool) (callee : Expr) (as : List Expr) :
    c.Keeps (callInteraction i isNew callee as) :=
  .of_same fun g => ⟨_, callInteraction_run i isNew callee as g⟩

theorem read_keeps (f : Graph → α) : c.Keeps (read f) :=
  .of_same fun _ => ⟨_, rfl⟩

theorem namespaceMember?_keeps (r : Rules c table) (ns : Variable) (key : Key) :
    c.Keeps (namespaceMember? ns key) := by
  unfold namespaceMember?
  cases ns.module with
  | none => exact .pure' _
  | some m => exact .bind' (r.member m key) fun _ => .pure' _

/-! ## Questions in flight -/

/-- A tracked question is in flight already, or it is asked while it is in flight. -/
theorem tracked_ok {e : Entity} {a b : α} {ask : Query α} (h : tracked e path a ask g = .ok (b, g')) :
    g.tracker.holds e path = true ∧ b = a ∧ g' = g ∨
      g.tracker.holds e path = false ∧ ∃ g1,
        ask { g with tracker := g.tracker.enter e path } = .ok (b, g1) ∧
          g' = { g1 with tracker := g1.tracker.leave e path } := by
  replace h := get_ok h
  split at h
  · obtain ⟨rfl, rfl⟩ := pure_ok.mp h
    exact .inl ⟨‹_›, rfl, rfl⟩
  · replace h := modify_ok h
    obtain ⟨_, g1, hask, h⟩ := bind_ok.mp h
    replace h := modify_ok h
    obtain ⟨rfl, rfl⟩ := pure_ok.mp h
    exact .inr ⟨Bool.not_eq_true _ ▸ ‹_›, g1, hask, rfl⟩

theorem tracked_run {e : Entity} {a b : α} {ask : Query α} {g1 : Graph}
    (hnot : g.tracker.holds e path = false)
    (h : ask { g with tracker := g.tracker.enter e path } = .ok (b, g1)) :
    tracked e path a ask g = .ok (b, { g1 with tracker := g1.tracker.leave e path }) := by
  unfold tracked
  rw [bind_run get_run, hnot, if_neg Bool.false_ne_true, bind_run (modify_run _), bind_run h]
  rfl

/-- A question on behalf of a node is asked under the tracker there is, or under a new one. -/
theorem onBehalfOf_ok {n : NodeId} {b : α} {ask : Query α} (h : onBehalfOf n ask g = .ok (b, g')) :
    ask g = .ok (b, g') ∨ ∃ g1, ask { g with tracker := {} } = .ok (b, g1) ∧
      g' = { g1 with tracker := g.tracker } := by
  replace h := get_ok h
  split at h
  · exact .inl h
  · obtain ⟨_, _, hset, h⟩ := bind_ok.mp h
    cases hset
    obtain ⟨_, g1, hask, h⟩ := bind_ok.mp h
    replace h := modify_ok h
    obtain ⟨rfl, rfl⟩ := pure_ok.mp h
    exact .inr ⟨g1, hask, rfl⟩

theorem Tracks.tracked (h : Tracks c) (e : Entity) (path : Path) (a : α) {ask : Query α}
    (hask : c.Keeps ask) : c.Keeps (Query.tracked e path a ask) := by
  intro g b g' hg hrun
  rcases tracked_ok hrun with ⟨-, -, rfl⟩ | ⟨-, g1, h1, rfl⟩
  · exact ⟨hg, c.refl _⟩
  · obtain ⟨hg1, hask⟩ := hask _ _ _ (h.holds _ hg) h1
    have htracker : g1.tracker.leave e path = g.tracker := by
      rw [show g1.tracker = g.tracker.enter e path from h.tracker hask]
      simp [Tracker.leave, Tracker.enter]
    rw [htracker]
    exact ⟨h.holds _ hg1, h.within hask⟩

theorem Tracks.onBehalfOf (h : Tracks c) (n : NodeId) {ask : Query α} (hask : c.Keeps ask) :
    c.Keeps (Query.onBehalfOf n ask) := by
  intro g b g' hg hrun
  rcases onBehalfOf_ok hrun with h1 | ⟨g1, h1, rfl⟩
  · exact hask g b g' hg h1
  · obtain ⟨hg1, hask⟩ := hask _ _ _ (h.holds _ hg) h1
    exact ⟨h.holds _ hg1, h.within hask⟩

theorem Tracks.also (h : Tracks c) {rel : Graph → Graph → Prop} {refl : ∀ g, rel g g}
    {trans : ∀ {a b c}, rel a b → rel b c → rel a c}
    (hrel : ∀ {g g' : Graph} (t t' : Tracker Entity), rel { g with tracker := t } g' →
      rel g { g' with tracker := t' }) : Tracks (c.also rel refl trans) where
  holds := h.holds
  tracker := fun hg => h.tracker hg.1
  within := fun hg => ⟨h.within hg.1, hrel _ _ hg.2⟩

/-! ## Values and results -/

theorem usedBranch_keeps (hq : Finds c table q) {t x y : Expr}
    (h : Held table (.expr (.conditional i t x y))) : c.Keeps (usedBranch q i t x y) :=
  .bind' (hq.branchOf (.expr (.conditional i t x y)) t _ h rfl) fun _ => .pure' _

theorem usedBranch_ok {t x y : Expr} {used : Option Expr}
    (h : usedBranch q i t x y g = .ok (used, g')) : ∃ state, used = BranchState.pick x y state := by
  obtain ⟨state, _, _, hpure⟩ := bind_ok.mp h
  exact ⟨state, (pure_ok.mp hpure).1⟩

theorem usedOperand_keeps (hq : Finds c table q) {op : LogicalOp} {l r : Expr}
    (h : Held table (.expr (.logical i op l r))) : c.Keeps (usedOperand q i op l r) :=
  .bind' (hq.branchOf _ l _ h rfl) fun _ => .pure' _

theorem returnedByFunction_keeps (r : Rules c table) (f : Func) :
    c.Keeps (returnedByFunction f) := by
  unfold returnedByFunction
  cases f.body with
  | result e => exact .pure' _
  | block i ss =>
    refine .get_bind fun g _ => ?_
    dsimp only
    split
    · exact Keeps.pure' _ g
    · exact r.newUnion _ g

section

variable (r : Rules c table) (hq : Finds c table q)

include r hq

theorem literalOfVar_keeps (id : VarId)
    (v : Variable) (path : Path) (o : Option Origin) : c.Keeps (literalOfVar q id v path o) := by
  unfold literalOfVar
  cases v.form with
  | declared kind ds init =>
    cases v.knownInit? with
    | none => exact .pure' _
    | some init => exact r.tracks.tracked _ _ _ (.bind' (r.addVarDependent _ _) fun _ =>
        hq.literal _ _ _)
  | _ => exact .pure' _

theorem literalOfExpr_keeps (he : Held table (.expr e))
    (path : Path) (o : Option Origin) : c.Keeps (literalOfExpr q e path o) := by
  cases e with
  | ident i => exact .bind' (nameTarget_keeps _) fun _ => hq.literal _ _ _
  | receiver i s => exact .bind' (receiverTarget_keeps _) fun _ => hq.literal _ _ _
  | object i ps =>
    cases path with
    | nil => exact .pure' _
    | cons key rest =>
      refine .bind' (knownProperty?_keeps _ _ _) fun found => ?_
      cases found with
      | none => exact .pure' _
      | some p => exact r.tracks.tracked _ _ _ (.bind' (r.addKeyDependent _ _ _) fun _ =>
          hq.literal _ _ _)
  | member i object name | index i object key =>
    refine .bind' (memberTarget?_keeps _) fun target => ?_
    cases target <;> exact hq.literal _ _ _
  | call i isNew callee as =>
    refine .bind' (hq.returnOf i isNew callee as he) fun result => ?_
    refine .ite' (fun _ => .pure' _) fun _ => ?_
    exact r.tracks.tracked _ _ _ (.bind' (r.addDependent _ _) fun _ => hq.literal _ _ _)
  | unary i op a =>
    refine .ite' (fun _ => .pure' _) fun _ => ?_
    refine .ite' (fun _ => .pure' _) fun _ => ?_
    exact .bind' (hq.literal _ _ _) fun _ => .pure' _
  | binary i op a b =>
    refine .ite' (fun _ => .pure' _) fun _ => ?_
    refine .bind' (hq.literal _ _ _) fun x => ?_
    refine .ite' (fun _ => .pure' _) fun _ => ?_
    refine .bind' (hq.literal _ _ _) fun y => ?_
    exact .ite' (fun _ => .pure' _) fun _ => .pure' _
  | logical i op a b =>
    refine .bind' (usedOperand_keeps hq he) fun used => ?_
    cases used with
    | none => exact .pure' _
    | some e => exact .bind' (r.addDependent _ _) fun _ => hq.literal _ _ _
  | conditional i t x y =>
    refine .bind' (usedBranch_keeps hq he) fun used => ?_
    cases used with
    | none => exact .pure' _
    | some e => exact .bind' (r.addDependent _ _) fun _ => hq.literal _ _ _
  | _ => exact .pure' _

theorem literal_keeps (e : Entity) (path : Path)
    (o : Option Origin) : c.Keeps (Query.literal q e path o) := by
  cases e with
  | var id =>
    refine Keeps.get_bind fun g _ => ?_
    cases g.var? id with
    | none => exact Keeps.pure' _ g
    | some v => exact literalOfVar_keeps r hq id v path o g
  | node id =>
    refine Keeps.get_bind fun g hg => ?_
    cases hn : g.node? id with
    | none => exact Keeps.pure' _ g
    | some n =>
      cases n with
      | expr x => exact literalOfExpr_keeps r hq (r.covers.held (r.same g hg ▸ hn)) path o g
      | binder b => exact hq.literal _ _ _ g
      | _ => exact Keeps.pure' _ g
  | _ => exact Keeps.pure' _

theorem returnedByVar_keeps (id : VarId)
    (v : Variable) (path : Path) (i : Interaction) (o : Option Origin) :
    c.Keeps (returnedByVar q id v path i o) := by
  unfold returnedByVar
  cases v.form with
  | declared kind ds init =>
    cases v.knownInit? with
    | none => exact .pure' _
    | some init => exact r.tracks.tracked _ _ _ (.bind' (r.addVarDependent _ _) fun _ =>
        hq.returned _ _ _ _)
  | moduleNamespace _ =>
    cases path with
    | nil => exact .pure' _
    | cons key rest =>
      refine .ite' (fun _ => .pure' _) fun _ => ?_
      refine .bind' (namespaceMember?_keeps r v key) fun found => ?_
      cases found with
      | none => exact .pure' _
      | some member => exact hq.returned _ _ _ _
  | _ => exact .pure' _

theorem returnedByExpr_keeps (he : Held table (.expr e))
    (path : Path) (i : Interaction) (o : Option Origin) :
    c.Keeps (returnedByExpr q e path i o) := by
  cases e with
  | ident n => exact .bind' (nameTarget_keeps _) fun _ => hq.returned _ _ _ _
  | receiver n s => exact .bind' (receiverTarget_keeps _) fun _ => hq.returned _ _ _ _
  | object n ps =>
    cases path with
    | nil => exact .pure' _
    | cons key rest =>
      refine .bind' (knownProperty?_keeps _ _ _) fun found => ?_
      cases found with
      | none => exact .pure' _
      | some p => exact .bind' (r.addKeyDependent _ _ _) fun _ => hq.returned _ _ _ _
  | member n object name | index n object key =>
    refine .bind' (memberTarget?_keeps _) fun target => ?_
    cases target <;> exact hq.returned _ _ _ _
  | call n isNew callee as =>
    refine .bind' (hq.returnOf n isNew callee as he) fun result => ?_
    refine .ite' (fun _ => .pure' _) fun _ => ?_
    exact r.tracks.tracked _ _ _ (.bind' (r.addDependent _ _) fun _ => hq.returned _ _ _ _)
  | logical n op a b =>
    refine .bind' (usedOperand_keeps hq he) fun used => ?_
    cases used with
    | some e => exact .bind' (r.addDependent _ _) fun _ => hq.returned _ _ _ _
    | none => exact .bind' (hq.returned _ _ _ _) fun _ =>
        .bind' (hq.returned _ _ _ _) fun _ => r.newUnion _
  | conditional n t x y =>
    refine .bind' (usedBranch_keeps hq he) fun used => ?_
    cases used with
    | some e => exact .bind' (r.addDependent _ _) fun _ => hq.returned _ _ _ _
    | none => exact .bind' (hq.returned _ _ _ _) fun _ =>
        .bind' (hq.returned _ _ _ _) fun _ => r.newUnion _
  | function f =>
    exact .ite' (fun _ => returnedByFunction_keeps r f) fun _ => .pure' _
  | classDef d =>
    simp only [returnedByExpr]
    split
    · refine .bind' (staticMember?_keeps _ _) fun found => ?_
      split
      · exact .bind' (r.addDependent _ _) fun _ => hq.returned _ _ _ _
      · exact .pure' _
    · exact .pure' _
  | _ => exact .pure' _

theorem returned_keeps (e : Entity) (path : Path)
    (i : Interaction) (o : Option Origin) : c.Keeps (Query.returned q e path i o) := by
  cases e with
  | union n =>
    refine .bind' (read_keeps _) fun members => ?_
    exact .bind' (Keeps.mapM' (fun _ => hq.returned _ _ _ _) members) fun _ => r.newUnion _
  | var id =>
    refine Keeps.get_bind fun g _ => ?_
    cases g.var? id with
    | none => exact Keeps.pure' _ g
    | some v => exact returnedByVar_keeps r hq id v path i o g
  | node id =>
    refine Keeps.get_bind fun g hg => ?_
    cases hn : g.node? id with
    | none => exact Keeps.pure' _ g
    | some n =>
      cases n with
      | expr x => exact returnedByExpr_keeps r hq (r.covers.held (r.same g hg ▸ hn)) path i o g
      | binder b => exact hq.returned _ _ _ _ g
      | _ => exact Keeps.pure' _ g
  | _ => exact Keeps.pure' _

end

/-- The questions that find something out follow a conduct, however deep they nest, if finding a
branch and finding the result of a call do. -/
theorem Rules.asks (r : Rules c table)
    (finds : ∀ n, Asks c (Queries.ofDepth n) → Finds c table (Queries.ofDepth n)) :
    ∀ n, Asks c (Queries.ofDepth n)
  | 0 => ⟨fun _ _ _ => .throw' _, fun _ _ _ _ => .throw' _⟩
  | n + 1 =>
    have hq := finds n (r.asks finds n)
    ⟨literal_keeps r hq, returned_keeps r hq⟩

/-! ## Losses -/

theorem forgetReceiver_keeps (r : Rules c table) (hq : Answers c table told q) (i : Interaction) :
    c.Keeps (forgetReceiver q i) := by
  unfold forgetReceiver
  cases i.receiver with
  | none => exact .pure' _
  | some e => exact hq.forget e _ r.roads.unknown

section

variable (r : Rules c table) (hq : Stage c table told q)

include r hq

theorem forgetVar_keeps {id : VarId} {v : Variable}
    (hv : g.var? id = some v) (hp : c.paths path) : c.From g (forgetVar q id v path) := by
  cases hf : v.form with
  | declared kind ds init =>
    simp only [forgetVar, hf]
    exact hq.forgetDeclared g id v path hp hv (by simp [Variable.isDeclared, hf])
  | moduleNamespace _ =>
    simp only [forgetVar, hf]
    split
    · refine Keeps.ite' (fun _ => Keeps.pure' _) (fun _ => ?_) g
      refine Keeps.bind' (namespaceMember?_keeps r v _) fun found => ?_
      cases found with
      | none => exact Keeps.pure' _
      | some member => exact hq.forget _ _ (r.roads.tail hp)
    · exact Keeps.pure' _ g
  | _ => simpa only [forgetVar, hf] using Keeps.pure' _ g

theorem forgetExpr_keeps (he : Held table (.expr e))
    (hp : c.paths path) : c.Keeps (forgetExpr q e path) := by
  cases e with
  | ident n => exact .bind' (nameTarget_keeps _) fun _ => hq.forget _ _ hp
  | receiver n s => exact .bind' (receiverTarget_keeps _) fun _ => hq.forget _ _ hp
  | object n ps => exact hq.forgetObject n ps path hp he
  | member n object name =>
    refine .bind' (memberTarget?_keeps _) fun target => ?_
    cases target with
    | some target => exact hq.forget _ _ hp
    | none => exact hq.forget _ _ (r.roads.member he hp)
  | index n object key =>
    refine .bind' (memberTarget?_keeps _) fun target => ?_
    cases target with
    | some target => exact hq.forget _ _ hp
    | none => exact hq.forget _ _ (r.roads.index he hp)
  | call n isNew callee as =>
    refine .ite' (fun _ => .pure' _) fun _ => r.tracks.onBehalfOf _ ?_
    refine .bind' (hq.returnOf n isNew callee as he) fun result => ?_
    exact .ite' (fun _ => .pure' _) fun _ => r.tracks.tracked _ _ _ (hq.forget _ _ hp)
  | logical n op a b =>
    refine .bind' (usedOperand_keeps hq.toFinds he) fun used => ?_
    cases used with
    | some e => exact hq.forget _ _ hp
    | none => exact .bind' (hq.forget _ _ hp) fun _ => hq.forget _ _ hp
  | conditional n t x y =>
    refine .bind' (usedBranch_keeps hq.toFinds he) fun used => ?_
    cases used with
    | some e => exact hq.forget _ _ hp
    | none => exact .bind' (hq.forget _ _ hp) fun _ => hq.forget _ _ hp
  | classDef d => exact hq.forgetClass d path hp he
  | _ => exact .pure' _

theorem forget_keeps (e : Entity) (path : Path)
    (hp : c.paths path) : c.Keeps (Query.forget q e path) := by
  cases e with
  | union n =>
    exact .bind' (read_keeps _) fun members => .forM' fun _ _ => hq.forget _ _ hp
  | var id =>
    refine Keeps.get_bind fun g _ => ?_
    cases hv : g.var? id with
    | none => exact Keeps.pure' _ g
    | some v => exact forgetVar_keeps r hq hv hp
  | node id =>
    refine Keeps.get_bind fun g hg => ?_
    cases hn : g.node? id with
    | none => exact Keeps.pure' _ g
    | some n =>
      cases n with
      | expr x => exact forgetExpr_keeps r hq (r.covers.held (r.same g hg ▸ hn)) hp g
      | binder b => exact hq.forget _ _ hp g
      | _ => exact Keeps.pure' _ g
  | _ => exact Keeps.pure' _

theorem exposeToVar_keeps (id : VarId)
    (v : Variable) (i : Interaction) (path : Path) : c.Keeps (exposeToVar q id v i path) := by
  have hforget := forgetReceiver_keeps r hq.toAnswers i
  unfold exposeToVar
  cases v.form with
  | declared kind ds init =>
    cases v.knownInit? with
    | none => exact hforget
    | some init => exact r.tracks.tracked _ _ _ (hq.exposeReceiver _ _ _)
  | global =>
    cases globalKeys? v.name path with
    | none => exact hforget
    | some keys => exact .ite' (fun _ => .pure' _) fun _ => hforget
  | moduleNamespace _ =>
    cases path with
    | nil => exact .pure' _
    | cons key rest =>
      refine .ite' (fun _ => .pure' _) fun _ => ?_
      refine .ite' (fun _ => hforget) fun _ => ?_
      refine .bind' (namespaceMember?_keeps r v key) fun found => ?_
      cases found with
      | none => exact .pure' _
      | some member => exact hq.exposeReceiver _ _ _
  | _ => exact hforget

theorem exposeToExpr_keeps (he : Held table (.expr e)) (i : Interaction) (path : Path) :
    c.Keeps (exposeToExpr q e i path) := by
  have hforget := forgetReceiver_keeps r hq.toAnswers i
  cases e with
  | ident n => exact .bind' (nameTarget_keeps _) fun _ => hq.exposeReceiver _ _ _
  | receiver n s => exact .bind' (receiverTarget_keeps _) fun _ => hq.exposeReceiver _ _ _
  | object n ps =>
    simp only [exposeToExpr]
    split
    · refine .ite' (fun _ => hforget) fun _ => ?_
      refine .bind' (knownProperty?_keeps _ _ _) fun found => ?_
      cases found with
      | none => exact hforget
      | some p => exact hq.exposeReceiver _ _ _
    · exact hforget
  | member n object name | index n object key =>
    refine .bind' (memberTarget?_keeps _) fun target => ?_
    cases target <;> exact hq.exposeReceiver _ _ _
  | call n isNew callee as =>
    refine .bind' (hq.returnOf n isNew callee as he) fun result => ?_
    exact .ite' (fun _ => hforget) fun _ => r.tracks.tracked _ _ _ (hq.exposeReceiver _ _ _)
  | logical n op a b | conditional n t x y =>
    exact .bind' (hq.exposeReceiver _ _ _) fun _ => hq.exposeReceiver _ _ _
  | function f =>
    refine .bind' (read_keeps _) fun mentions => ?_
    exact .ite' (fun _ => .pure' _) fun _ => hforget
  | classDef d =>
    simp only [exposeToExpr]
    split
    · refine .bind' (staticMember?_keeps _ _) fun found => ?_
      split
      · exact hq.exposeReceiver _ _ _
      · exact hforget
    · exact hforget
  | _ => exact hforget

theorem exposeReceiver_keeps (e : Entity)
    (i : Interaction) (path : Path) : c.Keeps (Query.exposeReceiver q e i path) := by
  have hforget := forgetReceiver_keeps r hq.toAnswers i
  cases e with
  | union n =>
    exact .bind' (read_keeps _) fun members => .forM' fun _ _ => hq.exposeReceiver _ _ _
  | var id =>
    refine Keeps.get_bind fun g _ => ?_
    cases hv : g.var? id with
    | none => exact Keeps.pure' _ g
    | some v => exact exposeToVar_keeps r hq id v i path g
  | node id =>
    refine .get_bind fun g hg => ?_
    cases hn : g.node? id with
    | none => exact hforget g
    | some n =>
      cases n with
      | expr x => exact exposeToExpr_keeps r hq (r.covers.held (r.same g hg ▸ hn)) i path g
      | binder b => exact hq.exposeReceiver _ _ _ g
      | _ => exact hforget g
  | _ => exact hforget

end

end

/-! ## Searches for effects -/

/-- Whether the node is a statement or a whole program. -/
def Node.isStatement : Node → Bool
  | .program _ | .stmt _ => true
  | _ => false

/-- Two properties of searches for effects, of those that look at uses and expressions (`uses`) and
of those that run statements (`runs`), which survive the ways in which searches are put together.
They may rest on what holds of the graph, on which nodes are evaluated and on which questions are
asked. -/
structure SearchLogic where
  holds : Graph → Prop
  may : Node → Prop
  asks : {α : Type} → Query α → Prop
  uses : {α : Type} → Effects α → Prop
  runs : {α : Type} → Effects α → Prop
  weaken : ∀ {α : Type} {m : Effects α}, uses m → runs m
  pure' : ∀ {α : Type} (a : α), uses (pure a)
  bind' : ∀ {α β : Type} {m : Effects α} {f : α → Effects β}, uses m → (∀ a, uses (f a)) →
    uses (m >>= f)
  then' : ∀ {α β : Type} {m : Effects α} {f : α → Effects β}, runs m → (∀ a, runs (f a)) →
    runs (m >>= f)
  lift_bind : ∀ {α β : Type} {m : Query α} {f : α → Effects β} {p : α → Prop}, asks m →
    (∀ g a g', m g = .ok (a, g') → p a) → (∀ a, p a → uses (f a)) →
    uses ((liftM m : Effects α) >>= f)
  graph : ∀ {β : Type} {f : Graph → Effects β}, (∀ g, holds g → uses (f g)) →
    uses (getThe Graph >>= f)
  get' : uses (get : Effects EffectContext)
  lookAt : ∀ e path i, uses (lookAt e path i)
  withReceiver : ∀ receiver value {m : Effects Bool}, uses m → uses (withReceiver receiver value m)
  runs_withReceiver : ∀ receiver value {m : Effects Bool}, runs m →
    runs (Query.withReceiver receiver value m)
  /-- What a call does to the flow of control ends with the call. -/
  withinCall : ∀ {m : Effects Bool}, runs m → uses (withinCall m)
  setBroken : runs (setBroken true)
  either : ∀ {q : Queries} {x : Stmt} {y : Option Stmt}, runs (q.effects (Node.ofStmt x)) →
    (∀ s, y = some s → runs (q.effects (Node.ofStmt s))) → runs (eitherEffects q x y)
  child : ∀ {n k}, may n → k ∈ n.children → may k
  node : ∀ {g id x}, holds g → g.node? id = some (.expr x) → may (.expr x)
  declared : ∀ {s}, may (.stmt s) → may (Node.ofStmt s)

/-- The questions that nest less deep have the properties of a search logic. -/
structure SearchLogic.Serves (L : SearchLogic) (q : Queries) : Prop where
  interact : ∀ e path i, L.uses (q.interact e path i)
  effects : ∀ {n}, L.may n → L.runs (q.effects n)
  expression : ∀ {n}, L.may n → n.isStatement = false → L.uses (q.effects n)
  reads : ∀ {α : Type} {m : Query α}, (∀ g, ∃ a, m g = .ok (a, g)) → L.asks m
  member : ∀ v key, L.asks (namespaceMember? v key)
  returnOf : ∀ {i isNew callee as}, L.may (.expr (.call i isNew callee as)) →
    L.asks (onBehalfOf i.id (returnOf q i isNew callee as))
  branchOf : ∀ {n t choose}, L.may n → n.test? = some (t, choose) →
    L.asks (branchOf q n.id t choose)
  usedBranch : ∀ {i t x y}, L.may (.expr (.conditional i t x y)) → L.asks (usedBranch q i t x y)
  usedOperand : ∀ {i op a b}, L.may (.expr (.logical i op a b)) → L.asks (usedOperand q i op a b)
  applyCall : ∀ i isNew callee as, L.asks (applyCall q i isNew callee as)
  applyAssign : ∀ i target value, L.asks (applyAssign q i target value)

namespace SearchLogic

variable {L : SearchLogic}

theorem lift {m : Query α} (hm : L.asks m) : L.uses (liftM m : Effects α) := by
  have h := L.lift_bind hm (fun _ _ _ _ => trivial) fun a _ => L.pure' a
  rwa [bind_pure] at h

theorem ite' {p : Prop} [Decidable p] {m n : Effects α} (hm : L.uses m) (hn : L.uses n) :
    L.uses (if p then m else n) := by
  split
  · exact hm
  · exact hn

theorem runs_ite {p : Prop} [Decidable p] {m n : Effects α} (hm : L.runs m) (hn : L.runs n) :
    L.runs (if p then m else n) := by
  split
  · exact hm
  · exact hn

theorem orElse {m n : Effects Bool} (hm : L.uses m) (hn : L.uses n) :
    L.uses (do if ← m then return true else n) :=
  L.bind' hm fun _ => ite' (L.pure' _) hn

theorem runs_orElse {m n : Effects Bool} (hm : L.runs m) (hn : L.runs n) :
    L.runs (do if ← m then return true else n) :=
  L.then' hm fun _ => runs_ite (L.weaken (L.pure' _)) hn

theorem anyM' {search : α → Effects Bool} :
    ∀ {l : List α}, (∀ a ∈ l, L.uses (search a)) → L.uses (anyM search l)
  | [], _ => L.pure' _
  | a :: _, h => orElse (h a List.mem_cons_self) (anyM' fun b hb => h b (List.mem_cons_of_mem a hb))

namespace Serves

variable {q : Queries} (hq : L.Serves q)
include hq

theorem expr (he : L.may (.expr e)) : L.uses (q.effects (.expr e)) :=
  hq.expression he rfl

theorem optional {e : Option Expr} (he : ∀ x, e = some x → L.may (.expr x)) :
    L.uses (optionalEffects q e) := by
  cases e with
  | none => exact L.pure' _
  | some x => exact hq.expr (he x rfl)

/-! ### Uses -/

theorem interactVar (id : VarId) (v : Variable) (path : Path) (i : Interaction) :
    L.uses (interactVar q id v path i) := by
  refine L.graph fun g _ => ?_
  cases v.form with
  | declared kind ds init =>
    dsimp only
    split <;> try exact L.pure' _
    refine ite' (L.pure' _) (ite' (L.pure' _) ?_)
    exact L.bind' (L.lookAt _ _ _) fun _ => ite' (L.pure' _) (hq.interact _ _ _)
  | receiver n =>
    refine L.bind' L.get' fun context => ?_
    cases context.receivers.lookup id with
    | none => exact L.pure' _
    | some e => exact hq.interact _ _ _
  | global =>
    dsimp only
    split
    · exact ite' (L.pure' _) (L.pure' _)
    · exact L.pure' _
    · exact L.pure' _
  | external source imported => exact L.pure' _
  | moduleNamespace merged =>
    cases path with
    | nil => exact L.pure' _
    | cons key rest =>
      refine ite' (L.pure' _) (ite' (L.pure' _) (L.bind' (lift (hq.member v key)) fun found => ?_))
      cases found with
      | none => exact L.pure' _
      | some member => exact hq.interact _ _ _

theorem bodyEffects {f : Func} (hf : L.may (.expr (.function f))) (i : Interaction) :
    L.uses (bodyEffects q f i) := by
  refine L.graph fun g _ => L.withinCall (L.runs_withReceiver _ _ (hq.effects (L.child hf ?_)))
  simp

theorem interactFunction {f : Func} (hf : L.may (.expr (.function f))) (path : Path)
    (i : Interaction) : L.uses (interactFunction q f path i) := by
  have hbody := hq.bodyEffects hf i
  refine ite' (L.pure' _) (ite' (L.pure' _) (ite' (L.pure' _) (L.graph fun g _ => ite' ?_ hbody)))
  cases i.receiver with
  | none => exact L.pure' _
  | some e => exact orElse (hq.interact _ _ _) hbody

omit hq in
theorem may_memberValue (hd : L.may (.expr (.classDef d))) {m : ClassMember} (hm : m ∈ d.members)
    (he : m.value? = some e) : L.may (.expr e) := by
  have hmember : L.may (.classMember m) := L.child hd (by simp [hm])
  exact L.child hmember (by simp [he])

theorem constructionEffects (hd : L.may (.expr (.classDef d))) (i : Interaction) :
    L.uses (constructionEffects q d i) := by
  unfold Query.constructionEffects
  extract_lets fields behindParent
  have hbehind : ∀ b, L.uses (behindParent b) := by
    intro b
    refine ite' (L.pure' _) (L.graph fun g _ => L.withReceiver _ _ ?_)
    refine orElse (anyM' fun e he => hq.expr ?_) ?_
    · obtain ⟨m, hm, hvalue⟩ := List.mem_filterMap.mp he
      exact may_memberValue hd (List.mem_filter.mp hm).1 hvalue
    · split
      · rename_i f hfound
        obtain ⟨m, hm, hvalue⟩ := Option.bind_eq_some_iff.mp hfound
        exact hq.bodyEffects (may_memberValue hd (List.mem_of_find?_eq_some hm) hvalue) i
      · exact L.pure' _
  cases d.parent? with
  | none => exact L.bind' (L.pure' _) hbehind
  | some parent => exact L.bind' (hq.interact _ _ _) hbehind

theorem interactClass (hd : L.may (.expr (.classDef d))) (path : Path) (i : Interaction) :
    L.uses (interactClass q d path i) := by
  cases path with
  | nil => exact ite' (L.pure' _) (ite' (L.pure' _) (hq.constructionEffects hd i))
  | cons key rest =>
    refine ite' (L.pure' _) (ite' (L.pure' _) (L.bind' (lift (hq.reads fun g =>
      ⟨_, staticMember?_run _ _ g⟩)) fun found => ?_))
    cases found.bind ClassMember.value? with
    | none => exact L.pure' _
    | some value => exact hq.interact _ _ _

theorem interactObject (id : NodeId) (ps : List Property) (path : Path) (i : Interaction) :
    L.uses (interactObject q id ps path i) := by
  cases path with
  | nil => exact L.pure' _
  | cons key rest =>
    refine L.bind' (lift (hq.reads fun g => ⟨_, knownProperty?_run _ _ _ g⟩)) fun found => ?_
    cases found with
    | none => exact L.pure' _
    | some p => exact ite' (L.pure' _) (hq.interact _ _ _)

theorem memberTarget? (n : NodeId) : L.uses (liftM (memberTarget? n) : Effects _) :=
  lift (hq.reads fun g => ⟨_, memberTarget?_run n g⟩)

theorem interactExpr (he : L.may (.expr e)) (path : Path) (i : Interaction) :
    L.uses (interactExpr q e path i) := by
  cases e with
  | ident n =>
    exact L.bind' (lift (hq.reads fun g => ⟨_, nameTarget_run _ g⟩)) fun _ => hq.interact _ _ _
  | receiver n s =>
    exact L.bind' (lift (hq.reads fun g => ⟨_, receiverTarget_run _ g⟩)) fun _ => hq.interact _ _ _
  | object n ps => exact hq.interactObject n.id ps path i
  | member n object name | index n object key =>
    refine L.bind' (hq.memberTarget? _) fun target => ?_
    cases target <;> exact hq.interact _ _ _
  | call n isNew callee as =>
    refine L.bind' (L.lookAt _ _ _) fun _ => ite' (L.pure' _) ?_
    exact L.bind' (lift (hq.returnOf he)) fun _ => hq.interact _ _ _
  | unary n op a => exact ite' (L.pure' _) (L.pure' _)
  | logical n op a b =>
    refine L.bind' (lift (hq.usedOperand he)) fun used => ?_
    cases used with
    | some e => exact hq.interact _ _ _
    | none => exact orElse (hq.interact _ _ _) (hq.interact _ _ _)
  | conditional n t x y =>
    refine L.bind' (lift (hq.usedBranch he)) fun used => ?_
    cases used with
    | some e => exact hq.interact _ _ _
    | none => exact orElse (hq.interact _ _ _) (hq.interact _ _ _)
  | assign n op target value => exact hq.interact _ _ _
  | function f => exact hq.interactFunction he path i
  | classDef d => exact hq.interactClass he path i
  | _ => exact L.pure' _

theorem interacts (e : Entity) (path : Path) (i : Interaction) :
    L.uses (Query.interact q e path i) := by
  cases e with
  | fresh v => exact L.graph fun g _ => L.pure' _
  | union n =>
    exact L.bind' (lift (hq.reads fun g => ⟨_, rfl⟩)) fun members =>
      anyM' fun _ _ => hq.interact _ _ _
  | var id =>
    refine L.graph fun g _ => ?_
    cases g.var? id with
    | none => exact L.pure' _
    | some v => exact hq.interactVar id v path i
  | node id =>
    refine L.graph fun g hg => ?_
    cases hn : g.node? id with
    | none => exact L.pure' _
    | some n =>
      cases n with
      | expr x => exact hq.interactExpr (L.node hg hn) path i
      | binder b => exact hq.interact _ _ _
      | _ => exact L.pure' _
  | _ => exact L.pure' _

/-! ### Expressions -/

theorem nameEffects (id : NodeId) : L.uses (nameEffects q id) := by
  refine L.graph fun g _ => ?_
  cases g.resolution id with
  | bound v => exact ite' (hq.interact _ _ _) (L.pure' _)
  | _ => exact L.pure' _

theorem memberEffects (info : Info) {object : Expr} {index : Option Expr} (key : Key)
    (ho : L.may (.expr object)) (hi : ∀ x, index = some x → L.may (.expr x)) :
    L.uses (memberEffects q info object index key) := by
  refine L.bind' (hq.memberTarget? _) fun target => ite' (L.pure' _) ?_
  refine orElse (hq.expr ho) (orElse (hq.optional hi) (L.graph fun g _ => ?_))
  exact ite' (L.pure' _) (hq.interact _ _ _)

theorem memberTargetEffects (info : Info) {object : Expr} {index : Option Expr} (key : Key)
    (op : AssignOp) (ho : L.may (.expr object)) (hi : ∀ x, index = some x → L.may (.expr x)) :
    L.uses (memberTargetEffects q info object index key op) := by
  have hrest : L.uses (do
      if ← q.effects (.expr object) then return true
      if ← optionalEffects q index then return true
      q.interact object.entity [key] (.assignment object.entity)) :=
    orElse (hq.expr ho) (orElse (hq.optional hi) (hq.interact _ _ _))
  refine L.bind' (hq.memberTarget? _) fun target => ite' (L.pure' _) ?_
  exact ite' (orElse (hq.memberEffects info key ho hi) hrest) hrest

theorem nameTargetEffects (id : NodeId) (op : AssignOp) : L.uses (nameTargetEffects q id op) := by
  have hrest : L.uses (do
      match (← getThe Graph).resolution id with
      | .bound v =>
        if isNamespaceVar (← getThe Graph) v then return true
        q.interact (.var v) [] .unknownAssignment
      | _ => q.interact .unknown [] .unknownAssignment) := by
    refine L.graph fun g _ => ?_
    cases g.resolution id with
    | bound v => exact L.graph fun g _ => ite' (L.pure' _) (hq.interact _ _ _)
    | _ => exact hq.interact _ _ _
  exact ite' (orElse (hq.nameEffects id) hrest) hrest

theorem targetEffects (op : AssignOp) {target : Expr} (ht : L.may (.expr target)) :
    L.uses (targetEffects q op target) := by
  cases target with
  | ident i => exact hq.nameTargetEffects _ op
  | member i object name =>
    exact hq.memberTargetEffects i name op (L.child ht (by simp)) (by simp)
  | index i object key =>
    refine hq.memberTargetEffects i (indexKey key) op
      (L.child ht (by simp)) fun x hx => ?_
    exact L.child ht (by simp [Option.some.inj hx])
  | _ => exact L.pure' _

omit hq in
theorem exprEffects_unary (q : Queries) (i : Info) (op : UnaryOp) (a : Expr) :
    exprEffects q (.unary i op a) = pure false ∨
      exprEffects q (.unary i op a) = q.effects (.expr a) := by
  cases op with
  | typeof =>
    cases a with
    | ident n => exact .inl rfl
    | _ => exact .inr rfl
  | _ => exact .inr rfl

theorem exprEffects (he : L.may (.expr e)) : L.uses (exprEffects q e) := by
  have hchild : ∀ x, Node.expr x ∈ (Node.expr e).children → L.uses (q.effects (.expr x)) :=
    fun x hx => hq.expr (L.child he hx)
  cases e with
  | ident i => exact hq.nameEffects _
  | object i ps =>
    exact anyM' fun p hp => hq.expression (L.child he (by simp [hp])) rfl
  | member i object name =>
    exact hq.memberEffects i name (L.child he (by simp)) (by simp)
  | index i object key =>
    refine hq.memberEffects i (indexKey key)
      (L.child he (by simp)) fun x hx => ?_
    exact L.child he (by simp [Option.some.inj hx])
  | call i isNew callee as =>
    refine L.bind' (lift (hq.applyCall _ _ _ _)) fun _ => ?_
    refine orElse (anyM' fun a ha => hchild a ?_) ?_
    · simp [ha]
    refine orElse (hchild _ (by simp)) ?_
    exact L.bind' (lift (hq.reads fun g => ⟨_, callInteraction_run _ _ _ _ g⟩)) fun _ =>
      hq.interact _ _ _
  | unary i op a =>
    rcases exprEffects_unary q i op a with h | h
    · rw [h]; exact L.pure' _
    · rw [h]; exact hchild _ (by simp)
  | binary i op a b =>
    exact orElse (hchild _ (by simp))
      (hchild _ (by simp))
  | logical i op a b =>
    refine orElse (hchild _ (by simp)) ?_
    refine L.bind' (lift (hq.branchOf he rfl)) fun _ => ?_
    exact ite' (L.pure' _) (hchild _ (by simp))
  | conditional i t x y =>
    have hx := hchild x (by simp)
    have hy := hchild y (by simp)
    refine orElse (hchild _ (by simp)) ?_
    refine L.lift_bind (hq.usedBranch he) (fun _ _ _ => usedBranch_ok) ?_
    rintro _ ⟨state, rfl⟩
    cases state with
    | consequent => exact hx
    | alternate => exact hy
    | _ => exact orElse hx hy
  | assign i op target value =>
    refine L.bind' (lift (hq.applyAssign _ _ _)) fun _ => ?_
    refine orElse (hchild _ (by simp)) ?_
    exact hq.targetEffects op (L.child he (by simp))
  | classDef d =>
    refine orElse (hq.optional fun x hx => ?_) ?_
    · exact L.child he (by simp [hx])
    · exact anyM' fun m hm =>
        hq.expression (L.child he (by simp [hm])) rfl
  | _ => exact L.pure' _

/-! ### Statements -/

theorem statementsEffects : ∀ {ss : List Stmt}, (∀ s ∈ ss, L.may (Node.ofStmt s)) →
    L.runs (statementsEffects q ss)
  | [], _ => L.weaken (L.pure' _)
  | s :: _, h => by
    refine L.then' (L.weaken L.get') fun _ => runs_ite (L.weaken (L.pure' _)) ?_
    exact runs_orElse (hq.effects (h s List.mem_cons_self))
      (statementsEffects fun t ht => h t (List.mem_cons_of_mem s ht))

theorem stmtEffects {s : Stmt} (hs : L.may (.stmt s)) : L.runs (stmtEffects q s) := by
  have hchild : ∀ n ∈ (Node.stmt s).children, L.runs (q.effects n) :=
    fun n hn => hq.effects (L.child hs hn)
  cases s with
  | expression i e => exact hchild _ (by simp)
  | branch i t x y =>
    refine runs_orElse (hchild _ (by simp)) ?_
    refine L.then' (L.weaken (lift (hq.branchOf hs rfl)))
      fun state => ?_
    have heither : L.runs (eitherEffects q x y) :=
      L.either (hchild _ (by simp)) fun s hy =>
        hchild _ (by simp [hy])
    cases state with
    | consequent => exact hchild _ (by simp)
    | alternate =>
      cases y with
      | none => exact L.weaken (L.pure' _)
      | some s => exact hchild _ (by simp)
    | _ => exact heither
  | ret i a =>
    refine L.then' (L.weaken L.get') fun _ => runs_ite (L.weaken (L.pure' _)) ?_
    refine runs_orElse (L.weaken (hq.optional fun x hx => ?_)) ?_
    · exact L.child hs (by simp [hx])
    · exact L.then' L.setBroken fun _ => L.weaken (L.pure' _)
  | block i ss =>
    exact hq.statementsEffects fun s h =>
      L.child hs (by simpa using ⟨s, h, rfl⟩)
  | declaration i k ds =>
    exact L.weaken (anyM' fun d hd =>
      hq.expression (L.child hs (by simp [hd])) rfl)
  | function f | classDef d => exact hq.effects (L.declared hs)
  | exportDeclaration i d | exportDefault i v e => exact hchild _ (by simp)
  | _ => exact L.weaken (L.pure' _)

theorem evaluates {n : Node} (hn : L.may n) (hexpr : n.isStatement = false) :
    L.uses (Query.effects q n) := by
  cases n with
  | program p => cases hexpr
  | stmt s => cases hexpr
  | expr e => exact hq.exprEffects hn
  | binder b => exact L.pure' _
  | property p => exact hq.expr (L.child hn (by simp))
  | classMember m =>
    refine ite' (hq.optional fun x hx => ?_) (L.pure' _)
    exact L.child hn (by simp [hx])
  | declarator d =>
    exact hq.optional fun x hx => L.child hn (by simp [hx])

theorem executes {n : Node} (hn : L.may n) : L.runs (Query.effects q n) := by
  cases n with
  | program p =>
    exact hq.statementsEffects fun s h =>
      L.child hn (by simpa using ⟨s, h, rfl⟩)
  | stmt s => exact hq.stmtEffects hn
  | _ => exact L.weaken (hq.evaluates hn rfl)

end Serves

end SearchLogic

section

variable {c : Conduct} {table : NodeId → Option Node} {told : Origin → Graph → Graph → Prop}
  {q : Queries}

open Conduct

/-! ## Conducts of searches -/

theorem lookAt_keeps (e : Entity) (path : Path) (i : Interaction) : c.KeepsAll (lookAt e path i) := by
  refine .bind' .get' fun context => ?_
  split <;> exact .bind' (.set' _) fun _ => .pure' _

theorem withReceiver_keeps (receiver : Option VarId) (value : VarId → Entity) {search : Effects α}
    (h : c.KeepsAll search) : c.KeepsAll (withReceiver receiver value search) := by
  cases receiver with
  | none => exact h
  | some v => exact KeepsAll.bind' (KeepsAll.modify' _) fun _ => KeepsAll.bind' h fun _ =>
      KeepsAll.bind' (KeepsAll.modify' _) fun _ => KeepsAll.pure' _

theorem withinCall_keeps {search : Effects α} (h : c.KeepsAll search) :
    c.KeepsAll (withinCall search) :=
  .bind' .get' fun _ => .bind' (.set' _) fun _ =>
    .bind' h fun _ => .bind' (.modify' _) fun _ => .pure' _

theorem eitherEffects_keeps {x : Stmt} {y : Option Stmt}
    (hx : c.KeepsAll (q.effects (Node.ofStmt x)))
    (hy : ∀ s, y = some s → c.KeepsAll (q.effects (Node.ofStmt s))) :
    c.KeepsAll (eitherEffects q x y) := by
  refine .bind' .get' fun _ => .orElse hx ?_
  refine .bind' .get' fun _ => .bind' (.modify' _) fun _ => ?_
  cases y with
  | none => exact .pure' _
  | some s =>
    refine .orElse (hy s rfl) (.bind' .get' fun _ => ?_)
    exact .bind' (.modify' _) fun _ => .pure' _

theorem applyCall_keeps (r : Rules c table) (hq : Answers c table told q) (info : Info)
    (isNew : Bool) (callee : Expr) (as : List Expr) :
    c.Keeps (applyCall q info isNew callee as) := by
  refine Keeps.get_unless fun g => ?_
  refine Keeps.bind' (r.applied _) fun _ => ?_
  refine Keeps.bind' (callInteraction_keeps _ _ _ _) fun i => ?_
  refine Keeps.bind' (r.tracks.onBehalfOf _ (hq.exposeReceiver _ _ _)) fun _ => ?_
  exact .forM' fun _ _ => hq.forget _ _ r.roads.unknown

theorem applyAssign_keeps (r : Rules c table) (hq : Answers c table told q) (info : Info)
    (target value : Expr) : c.Keeps (applyAssign q info target value) := by
  refine Keeps.get_unless fun g => ?_
  refine Keeps.bind' (r.applied _) fun _ => ?_
  exact Keeps.bind' (hq.forget _ _ r.roads.nil) fun _ => hq.forget _ _ r.roads.unknown

def Rules.searches (r : Rules c table) : SearchLogic where
  holds := c.holds
  may := Held table
  asks := c.Keeps
  uses := c.KeepsAll
  runs := c.KeepsAll
  weaken := id
  pure' := .pure'
  bind' := .bind'
  then' := .bind'
  lift_bind := .lift_bind
  graph := .graph
  get' := .get'
  lookAt := lookAt_keeps
  withReceiver receiver value _ := withReceiver_keeps receiver value
  runs_withReceiver receiver value _ := withReceiver_keeps receiver value
  withinCall := withinCall_keeps
  setBroken := .modify' _
  either := eitherEffects_keeps
  child := r.covers.child
  node hg hn := r.covers.held (r.same _ hg ▸ hn)
  declared hs := (r.covers.proper hs).symm ▸ hs

theorem Rules.serves (r : Rules c table) (hq : Stage c table told q) : r.searches.Serves q where
  interact := hq.interact
  effects := hq.effects _
  expression hn _ := hq.effects _ hn
  reads := .of_same
  member := namespaceMember?_keeps r
  returnOf he := r.tracks.onBehalfOf _ (hq.returnOf _ _ _ _ he)
  branchOf := hq.branchOf _ _ _
  usedBranch := usedBranch_keeps hq.toFinds
  usedOperand := usedOperand_keeps hq.toFinds
  applyCall := applyCall_keeps r hq.toAnswers
  applyAssign := applyAssign_keeps r hq.toAnswers

/-- All questions follow a conduct, however deep they nest, if it is kept where something is found
out or lost. -/
theorem Rules.answers (r : Rules c table) (depth : Nat)
    (stage : ∀ n < depth, Answers c table told (Queries.ofDepth n) →
      Stage c table told (Queries.ofDepth n)) :
    ∀ n ≤ depth, Answers c table told (Queries.ofDepth n)
  | 0, _ => {
      literal := fun _ _ _ => .throw' _
      returned := fun _ _ _ _ => .throw' _
      forget := fun _ _ _ => .throw' _
      exposeReceiver := fun _ _ _ => .throw' _
      interact := fun _ _ _ => .throw' _
      effects := fun _ _ => .throw' _
      invalidate := fun _ _ _ _ _ hrun => absurd hrun throw_ok }
  | n + 1, hn =>
    have hq := stage n hn (r.answers depth stage n (Nat.le_of_lt hn))
    { literal := literal_keeps r hq.toFinds
      returned := returned_keeps r hq.toFinds
      forget := forget_keeps r hq
      exposeReceiver := exposeReceiver_keeps r hq
      interact := (r.serves hq).interacts
      effects := fun _ => (r.serves hq).executes
      invalidate := hq.told }

end

end Winnow
