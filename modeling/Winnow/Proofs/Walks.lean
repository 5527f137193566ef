import Winnow.Analysis.Marking
import Winnow.Proofs.Questions

/-!
# What walks do to the graph

A walk asks questions, marks the nodes it visits and includes the variables they name. `Marks` lists
what a conduct has to allow for that: marking a node, and marking a name together with its variable.
Such a conduct is kept by every walk (`walk_keeps`), by every pass over all modules, and by marking
as a whole (`mark_keeps`).

What must hold of a node before it is visited is a parameter, `ready`. Marking a node makes its
children ready.
-/

namespace Winnow

open Query Inclusion Conduct Node Queries Keeps

variable {t : Expr} {g : Graph} {i : Info} {n : Node} {ready : Node → Graph → Prop}

/-- Whether a node stands for a variable: a name, the receiver or a property access. -/
def Node.isName : Node → Bool
  | .binder _ => true
  | .expr (.ident _) | .expr (.receiver ..) | .expr (.member ..) | .expr (.index ..) => true
  | _ => false

/-! ## The parts of a node -/

def visitParts (q : Queries) (visit : Visit) (recursive : Bool) : Node → Walk Unit
  | .program p => p.body.forM fun s => visitNeeded q visit recursive (Node.ofStmt s)
  | .stmt s => visitStmt q visit recursive s
  | .expr e => visitExpr q visit recursive e
  | .binder b => namedVariable (.binder b)
  | .property p => visit recursive (.expr p.value)
  | .classMember m => visitOptional visit recursive m.value?
  | .declarator d => do
    visit recursive (.binder d.name)
    visitOptional visit recursive d.init?

theorem visitNode_eq (q : Queries) (visit : Visit) (recursive : Bool) (n : Node) :
    visitNode q visit recursive n =
      (markNode n.id >>= fun _ => visitParts q visit recursive n) := by
  cases n <;> rfl

/-- How a walk goes over the children of a node: over all of them, over those that are needed, over
all of them and no further, or in a way of its own. -/
inductive Node.Manner where
  | all | needed | last | own

def Node.manner : Node → Manner
  | .program _ | .stmt (.block ..) | .stmt (.declaration ..) => .needed
  | .stmt (.ret ..) | .stmt (.raise ..) => .last
  | .stmt (.branch ..) | .stmt (.function _) | .stmt (.classDef _) | .binder _ => .own
  | .expr (.literal ..) | .expr (.object ..) | .expr (.unary ..) | .expr (.binary ..)
  | .expr (.classDef _) => .all
  | .expr _ => .own
  | _ => .all

theorem visitOptional_eq (visit : Visit) (recursive : Bool) (e : Option Expr) :
    visitOptional visit recursive e = (e.toList.map expr).forM (visit recursive) := by
  cases e <;> simp [visitOptional]

theorem visitParts_eq (q : Queries) (visit : Visit) (recursive : Bool) (n : Node) :
    visitParts q visit recursive n = match n.manner with
      | .all => n.children.forM (visit recursive)
      | .needed => n.children.forM (visitNeeded q visit recursive)
      | .last => do
        n.children.forM (visit recursive)
        setBroken true
      | .own => visitParts q visit recursive n := by
  cases n with
  | expr e => cases e <;> first | rfl | simp [visitParts, visitExpr, manner, visitOptional_eq]
  | stmt s => cases s <;> first | rfl | simp [visitParts, visitStmt, manner, visitOptional_eq]
  | _ => simp [visitParts, manner, visitOptional_eq]

structure Serves (c : Conduct) (table : NodeId → Option Node) (q : Queries) : Prop where
  effects : ∀ n, Held table n → c.KeepsAll (q.effects n)
  branchOf : ∀ n t choose, Held table n → n.test? = some (t, choose) →
    c.Keeps (branchOf q n.id t choose)
  applyCall : ∀ i isNew callee arguments, c.Keeps (applyCall q i isNew callee arguments)
  applyAssign : ∀ i target value, c.Keeps (applyAssign q i target value)
  targetEffects : ∀ op target, Held table (.expr target) → c.KeepsAll (targetEffects q op target)

section

variable {c : Conduct} {table : NodeId → Option Node} {told : Origin → Graph → Graph → Prop}
  {q : Queries} {visit : Visit}

theorem Stage.serves (r : Rules c table) (hq : Stage c table told q) : Serves c table q where
  effects := hq.effects
  branchOf := hq.branchOf
  applyCall := applyCall_keeps r hq.toAnswers
  applyAssign := applyAssign_keeps r hq.toAnswers
  targetEffects := fun op _ ht => (r.serves hq).targetEffects op ht

theorem Serves.usedBranch (hq : Serves c table q) {x y : Expr}
    (h : Held table (.expr (.conditional i t x y))) : c.Keeps (usedBranch q i t x y) :=
  .bind' (hq.branchOf (.expr (.conditional i t x y)) t _ h rfl) fun _ => .pure' _

/-! ## Steps side by side

What a walk does to a node is put together from what it does to the parts and from questions, in the
same way whatever the walk. So a relation between the steps of two walks that is kept when steps are
put together holds of them on a node if it holds on the children. -/

/-- A relation between steps of two walks that ask alike. -/
structure Composes (c : Conduct) (rel : {α : Type} → Walk α → Walk α → Prop) : Prop where
  pure' : ∀ {α : Type} (a : α), rel (pure a) (pure a)
  bind' : ∀ {α β : Type} {m m' : Walk α} {f f' : α → Walk β}, rel m m' →
    (∀ a, rel (f a) (f' a)) → rel (m >>= f) (m' >>= f')
  lift_bind : ∀ {α β : Type} {m : Query α} {f f' : α → Walk β} {p : α → Prop}, c.Keeps m →
    (∀ g a g', m g = .ok (a, g') → p a) → (∀ a, p a → rel (f a) (f' a)) →
    rel ((liftM m : Walk α) >>= f) ((liftM m : Walk α) >>= f')
  graph : ∀ {β : Type} {f f' : Graph → Walk β}, (∀ g, c.holds g → rel (f g) (f' g)) →
    rel (getThe Graph >>= f) (getThe Graph >>= f')
  context : ∀ {β : Type} {f f' : Context → Walk β}, (∀ s, rel (f s) (f' s)) →
    rel (get >>= f) (get >>= f')

theorem KeepsAll.composes (c : Conduct) : Composes c fun m _ => c.KeepsAll m where
  pure' := .pure'
  bind' := .bind'
  lift_bind := .lift_bind
  graph := .graph
  context := .bind' .get'

section

variable {rel : {α : Type} → Walk α → Walk α → Prop} (hr : Composes c rel) {w : Visit}

namespace Composes

variable {α β : Type}
include hr

theorem lift {m : Query α} (hm : c.Keeps m) : rel (liftM m : Walk α) (liftM m) := by
  have h := hr.lift_bind hm (fun _ _ _ _ => trivial) fun a _ => hr.pure' a
  rwa [bind_pure] at h

omit hr in
theorem ite' (_ : Composes c rel) {p : Prop} [Decidable p] {m m' n n' : Walk α}
    (hm : p → rel m m') (hn : ¬p → rel n n') : rel (if p then m else n) (if p then m' else n') := by
  by_cases h : p
  · rw [if_pos h, if_pos h]; exact hm h
  · rw [if_neg h, if_neg h]; exact hn h

theorem map' {m m' : Walk α} {f : α → β} (hm : rel m m') : rel (f <$> m) (f <$> m') := by
  exact hr.bind' hm fun _ => hr.pure' _

theorem forM' {f f' : α → Walk PUnit} :
    ∀ {l : List α}, (∀ a ∈ l, rel (f a) (f' a)) → rel (l.forM f) (l.forM f')
  | [], _ => hr.pure' _
  | a :: _, h => hr.bind' (h a List.mem_cons_self) fun _ =>
      forM' fun b hb => h b (List.mem_cons_of_mem a hb)

theorem isNeeded (hq : Serves c table q) (hn : Held table n) :
    rel (isNeeded q n) (isNeeded q n) := by
  refine hr.graph fun g _ => hr.ite' (fun _ => hr.pure' _) fun _ => ?_
  refine hr.context fun _ => hr.ite' (fun _ => hr.pure' _) fun _ => hr.lift ?_
  exact .bind' (hq.effects n hn {}) fun _ => .pure' _

theorem visitNeeded (hq : Serves c table q) (hn : Held table n) {recursive : Bool}
    (hv : rel (visit recursive n) (w recursive n)) :
    rel (visitNeeded q visit recursive n) (visitNeeded q w recursive n) := by
  refine hr.ite' (fun _ => hv) fun _ => ?_
  exact hr.bind' (hr.isNeeded hq hn) fun _ => hr.ite' (fun _ => hv) fun _ => hr.pure' _

theorem visitMember {object : Expr} {key : Option Expr} (recursive : Bool)
    (hname : rel (namedVariable n) (namedVariable n))
    (ho : rel (visit recursive (.expr object)) (w recursive (.expr object)))
    (hk : ∀ x, key = some x → rel (visit recursive (.expr x)) (w recursive (.expr x))) :
    rel (visitMember visit recursive n object key) (visitMember w recursive n object key) := by
  refine hr.graph fun g _ => ?_
  cases g.resolution n.id with
  | bound v => exact hname
  | missing => exact hr.pure' _
  | nothing =>
    refine hr.bind' ho fun _ => ?_
    cases key with
    | none => exact hr.pure' _
    | some x => exact hk x rfl

theorem visitAll {recursive : Bool} (h : n.manner = .all)
    (hv : ∀ m ∈ n.children, rel (visit recursive m) (w recursive m)) :
    rel (visitParts q visit recursive n) (visitParts q w recursive n) := by
  rw [visitParts_eq, visitParts_eq q w, h]
  exact hr.forM' hv

end Composes

/-- Walks may go on to the children of a node. They never start to include everything. -/
def Descends (rel : {α : Type} → Walk α → Walk α → Prop) (visit w : Visit) (recursive : Bool)
    (n : Node) : Prop :=
  ∀ m ∈ n.children, ∀ r : Bool, (r = true → recursive = true) → rel (visit r m) (w r m)

namespace Composes

include hr

section

variable (hc : Covers table) (hq : Serves c table q)

include hc hq

theorem visitLogical {op : LogicalOp} {a b : Expr}
    (he : Held table (.expr (.logical i op a b))) (recursive : Bool)
    (hv : Descends rel visit w recursive (.expr (.logical i op a b))) :
    rel (visitLogical q visit recursive i op a b) (visitLogical q w recursive i op a b) := by
  have ha := hv (.expr a) (by simp)
  have hb := hv (.expr b) (by simp)
  refine hr.bind' (hr.lift (hq.branchOf (.expr (.logical i op a b)) _ _ he rfl)) fun state => ?_
  have hboth : ∀ both : Bool, rel (do
      if both then
        visit recursive (.expr a)
        visit recursive (.expr b)
      else visit false (.expr (if state = .consequent then a else b))) (do
      if both then
        w recursive (.expr a)
        w recursive (.expr b)
      else w false (.expr (if state = .consequent then a else b))) := by
    intro both
    refine hr.ite' (fun _ => hr.bind' (ha _ id) fun _ => hb _ id) fun _ => ?_
    split
    · exact ha _ nofun
    · exact hb _ nofun
  cases recursive with
  | true => exact hr.bind' (hr.pure' _) hboth
  | false =>
    cases state with
    | alternate =>
      exact hr.bind' (hr.isNeeded hq (hc.child he (by simp))) hboth
    | _ => exact hr.bind' (hr.pure' _) hboth

theorem visitConditional {x y : Expr}
    (he : Held table (.expr (.conditional i t x y))) (recursive : Bool)
    (hv : Descends rel visit w recursive (.expr (.conditional i t x y))) :
    rel (visitConditional q visit recursive i t x y)
      (visitConditional q w recursive i t x y) := by
  have ht := hv (.expr t) (by simp)
  have hx := hv (.expr x) (by simp)
  have hy := hv (.expr y) (by simp)
  have hthree : ∀ r : Bool, (r = true → recursive = true) →
      rel (visitThree visit r t x y) (visitThree w r t x y) := fun _ h =>
    hr.bind' (ht _ h) fun _ => hr.bind' (hx _ h) fun _ => hy _ h
  refine hr.lift_bind (hq.usedBranch he) (fun _ _ _ => usedBranch_ok) ?_
  rintro _ ⟨state, rfl⟩
  have hused : ∀ used, rel (visit false (.expr used)) (w false (.expr used)) → rel (do
      if ← Inclusion.isNeeded q (.expr t) then visitThree visit false t x y
      else visit false (.expr used)) (do
      if ← Inclusion.isNeeded q (.expr t) then visitThree w false t x y
      else w false (.expr used)) := fun used h =>
    hr.bind' (hr.isNeeded hq (hc.child he (by simp))) fun _ =>
      hr.ite' (fun _ => hthree _ nofun) fun _ => h
  cases recursive with
  | true => exact hthree _ id
  | false =>
    cases state with
    | consequent => exact hused x (hx _ id)
    | alternate => exact hused y (hy _ id)
    | _ => exact hthree _ id

theorem visitAssign {op : AssignOp}
    {target value : Expr} (he : Held table (.expr (.assign i op target value))) (recursive : Bool)
    (hv : Descends rel visit w recursive (.expr (.assign i op target value))) :
    rel (visitAssign q visit recursive i op target value)
      (visitAssign q w recursive i op target value) := by
  have ht := hv (.expr target) (by simp)
  have hvalue := hv (.expr value) (by simp)
  have heffects := hq.targetEffects op target
    (hc.child he (by simp))
  refine hr.bind' (hr.lift (hq.applyAssign _ _ _)) fun _ => ?_
  refine hr.graph fun g _ => ?_
  have hkeep : ∀ keep : Bool, rel (do
      if keep then visit recursive (.expr target)
      visit recursive (.expr value)) (do
      if keep then w recursive (.expr target)
      w recursive (.expr value)) := fun keep =>
    hr.ite' (fun _ => hr.bind' (ht _ id) fun _ => hvalue _ id) fun _ => hvalue _ id
  refine hr.ite' (fun _ => hr.bind' (hr.pure' _) hkeep) fun _ => ?_
  exact hr.bind' (hr.map' (hr.lift (heffects {}))) hkeep

/-- The parts of an expression. A function is left out: its body starts a flow of its own. -/
theorem visitExpr {e : Expr} (he : Held table (.expr e)) (hname : (expr e).isName = true →
      rel (namedVariable (.expr e)) (namedVariable (.expr e)))
    (recursive : Bool)
    (hf : ∀ f, e = .function f →
      rel (visitFunction visit recursive f) (visitFunction w recursive f))
    (hv : (∀ f, e ≠ .function f) → Descends rel visit w recursive (.expr e)) :
    rel (visitParts q visit recursive (.expr e)) (visitParts q w recursive (.expr e)) := by
  cases e with
  | ident i | receiver i s => exact hname rfl
  | literal | object | unary | binary | classDef =>
    exact hr.visitAll rfl fun m hm => hv nofun m hm _ id
  | member i object name =>
    exact hr.visitMember recursive (hname rfl) (hv nofun _ (by simp) _ id) (by simp)
  | index i object key =>
    refine hr.visitMember recursive (hname rfl) (hv nofun _ (by simp) _ id) ?_
    intro x hx
    exact hv nofun _ (by simp [Option.some.inj hx]) _ id
  | call i isNew callee as =>
    refine hr.bind' (hr.lift (hq.applyCall _ _ _ _)) fun _ => ?_
    refine hr.bind' (hv nofun _ (by simp) _ id) fun _ => ?_
    exact hr.forM' fun a ha => hv nofun _ (by simp [ha]) _ id
  | logical i op a b => exact hr.visitLogical hc hq he recursive (hv nofun)
  | conditional i t x y => exact hr.visitConditional hc hq he recursive (hv nofun)
  | assign i op target value => exact hr.visitAssign hc hq he recursive (hv nofun)
  | function f => exact hf f rfl

end

end Composes

end

theorem visitFunction_keeps {f : Func}
    (hv : ∀ m ∈ (expr (.function f)).children, ∀ recursive, c.KeepsAll (visit recursive m))
    (recursive : Bool) : c.KeepsAll (visitFunction visit recursive f) := by
  refine .bind' (.forM' fun b hb => hv _ ?_ _) fun _ => ?_
  · simp [Option.mem_toList.mp hb]
  refine .bind' (.forM' fun b hb => hv _ ?_ _) fun _ => ?_
  · simp [hb]
  refine .bind' .get' fun _ => .bind' (.set' _) fun _ => ?_
  refine .bind' (hv _ ?_ _) fun _ => .set' _
  simp

theorem isNeeded_keeps (hq : Serves c table q) (hn : Held table n) :
    c.KeepsAll (isNeeded q n) := (KeepsAll.composes c).isNeeded hq hn

theorem visitNeeded_keeps (hq : Serves c table q) (hn : Held table n)
    (hv : ∀ recursive, c.KeepsAll (visit recursive n)) (recursive : Bool) :
    c.KeepsAll (visitNeeded q visit recursive n) :=
  (KeepsAll.composes c).visitNeeded (w := visit) hq hn (hv recursive)

theorem visitBranch_keeps (hc : Covers table) (hq : Serves c table q) {x : Stmt} {y : Option Stmt}
    (hs : Held table (.stmt (.branch i t x y)))
    (hv : ∀ m ∈ (stmt (.branch i t x y)).children, ∀ recursive, c.KeepsAll (visit recursive m))
    (recursive : Bool) : c.KeepsAll (visitBranch q visit recursive i t x y) := by
  have ht := hv (.expr t) (by simp)
  have hx := hv (ofStmt x) (by simp)
  have hy : ∀ s ∈ y.toList, ∀ recursive, c.KeepsAll (visit recursive (ofStmt s)) :=
    fun s h => hv _ (by simp [Option.mem_toList.mp h])
  have hheldX : Held table (ofStmt x) := hc.child hs (by simp)
  have hheldT : Held table (.expr t) := hc.child hs (by simp)
  have hheldY : ∀ s ∈ y.toList, Held table (ofStmt s) := fun s h =>
    hc.child hs (by simp [Option.mem_toList.mp h])
  refine .ite' (fun _ => ?_) fun _ => ?_
  · refine .bind' (ht _) fun _ => .bind' (hx _) fun _ => ?_
    exact .forM' fun s h => hy s h _
  · refine .bind' (.lift (hq.branchOf (.stmt (.branch i t x y)) _ _ hs rfl))
      fun state => ?_
    have htest := visitNeeded_keeps hq hheldT ht false
    have hconsequent := visitNeeded_keeps hq hheldX hx false
    cases state with
    | consequent => exact .bind' htest fun _ => hconsequent
    | alternate =>
      refine .bind' htest fun _ => .forM' fun s h => ?_
      exact visitNeeded_keeps hq (hheldY s h) (hy s h) false
    | _ =>
      refine .bind' (ht _) fun _ => .bind' .get' fun _ => ?_
      refine .bind' hconsequent fun _ => .bind' .get' fun _ => ?_
      refine .bind' (.set' _) fun _ => ?_
      cases y with
      | none => exact .pure' _
      | some s =>
        refine .bind' (isNeeded_keeps hq (hheldY s (by simp))) fun _ => ?_
        refine .ite' (fun _ => ?_) fun _ => .pure' _
        exact .bind' (hy s (by simp) _) fun _ =>
          .bind' .get' fun _ => .set' _

theorem visitParts_keeps (hc : Covers table) (hq : Serves c table q) (hn : Held table n)
    (hv : ∀ m ∈ n.children, ∀ recursive, c.KeepsAll (visit recursive m))
    (hname : n.isName = true → c.KeepsAll (namedVariable n)) (recursive : Bool) :
    c.KeepsAll (visitParts q visit recursive n) := by
  have hparts := visitParts_eq q visit recursive n
  have hall := fun m hm => hv m hm recursive
  cases hmanner : n.manner with
  | all =>
    rw [hparts, hmanner]
    exact .forM' hall
  | needed =>
    rw [hparts, hmanner]
    exact .forM' fun m hm => visitNeeded_keeps hq (hc.child hn hm) (hv m hm) recursive
  | last =>
    rw [hparts, hmanner]
    exact .bind' (.forM' hall) fun _ => .set' _
  | own =>
    cases n with
    | expr e =>
      refine (KeepsAll.composes c).visitExpr (w := visit) hc hq hn hname recursive ?_
        fun _ m hm r _ => hv m hm r
      rintro f rfl
      exact visitFunction_keeps hv recursive
    | binder b => exact hname rfl
    | stmt s =>
      cases s with
      | branch i t x y => exact visitBranch_keeps hc hq hn hv recursive
      | function f | classDef d => exact absurd (hc.proper hn) nofun
      | _ => cases hmanner
    | _ => cases hmanner

/-! ## Walks -/

theorem Serves.having (hq : Serves c table q) {p : Graph → Prop}
    (hp : ∀ g g', p g → c.holds g' → c.allows g g' → p g') : Serves (c.having p) table q where
  effects n hn s g := (hq.effects n hn s g).having (hp g)
  branchOf n t choose hn ht g := (hq.branchOf n t choose hn ht g).having (hp g)
  applyCall i isNew callee as g := (hq.applyCall i isNew callee as g).having (hp g)
  applyAssign i target value g := (hq.applyAssign i target value g).having (hp g)
  targetEffects op target ht s g := (hq.targetEffects op target ht s g).having (hp g)

theorem Serves.imp {c' : Conduct} (hq : Serves c table q) (hholds : c'.holds = c.holds)
    (hallows : ∀ {g g'}, c.allows g g' → c'.allows g g') : Serves c' table q where
  effects n hn s := (hq.effects n hn s).imp hholds hallows
  branchOf n t choose hn ht := (hq.branchOf n t choose hn ht).imp hholds hallows
  applyCall i isNew callee as := (hq.applyCall i isNew callee as).imp hholds hallows
  applyAssign i target value := (hq.applyAssign i target value).imp hholds hallows
  targetEffects op target ht s := (hq.targetEffects op target ht s).imp hholds hallows

def Graph.markNode (g : Graph) (n : NodeId) : Graph :=
  g.modifyFacts n fun f => { f with included := true }

def Graph.includeVariable (g : Graph) (v : VarId) : Graph := ((Inclusion.includeVariable v).run g).2

/-- A conduct allows a walk to mark nodes that are ready, and with a name its variable. -/
structure Marks (c : Conduct) (table : NodeId → Option Node) (ready : Node → Graph → Prop) :
    Prop where
  named : ∀ {g g'}, c.holds g → c.holds g' → g'.namedVar? = g.namedVar?
  lasts : ∀ {n g g'}, ready n g → c.holds g' → c.allows g g' → ready n g'
  node : ∀ {n g}, Held table n → c.holds g → ready n g →
    (n.isName = true → g.namedVar? n = none) →
    c.holds (g.markNode n.id) ∧ c.allows g (g.markNode n.id) ∧
      ∀ m ∈ n.children, ready m (g.markNode n.id)
  name : ∀ {n g v}, Held table n → c.holds g → ready n g → n.isName = true →
    g.namedVar? n = some v →
    c.holds ((g.markNode n.id).includeVariable v) ∧
      c.allows g ((g.markNode n.id).includeVariable v)

theorem resolution_modifyFacts (g : Graph) (n : NodeId) (f : Facts → Facts) :
    (g.modifyFacts n f).resolution = g.resolution := by
  funext k
  simp only [Graph.resolution, Graph.record?, Graph.modifyFacts, Array.getElem?_modify]
  split
  · cases g.nodes[k]? <;> rfl
  · rfl

theorem namedVar?_congr {g' : Graph} (h : g'.resolution = g.resolution) :
    g'.namedVar? = g.namedVar? := by
  funext n
  cases n <;> simp [Graph.namedVar?, h]

theorem namedVariable_run {v : VarId} (h : g.namedVar? n = some v) (s : Context) :
    namedVariable n s g = .ok (((), s), g.includeVariable v) := by
  unfold namedVariable
  rw [graph_run, h]
  rfl

theorem namedVariable_none (h : g.namedVar? n = none) (s : Context) :
    namedVariable n s g = .ok (((), s), g) := by
  unfold namedVariable
  rw [graph_run, h]
  rfl

theorem visitParts_name (hn : n.isName = true) {v : VarId} (h : g.namedVar? n = some v)
    (recursive : Bool) (s : Context) :
    visitParts q visit recursive n s g = .ok (((), s), g.includeVariable v) := by
  have hmember : ∀ e : Expr, ∀ object key, g.namedVar? (.expr e) = some v →
      visitMember visit recursive (.expr e) object key s g =
        .ok (((), s), g.includeVariable v) := by
    intro e object key hv
    obtain ⟨w, hw⟩ : ∃ w, g.resolution (expr e).id = .bound w := by
      simp only [Graph.namedVar?] at hv
      cases hr : g.resolution (expr e).id with
      | bound w => exact ⟨w, rfl⟩
      | _ => rw [hr] at hv; cases hv
    unfold visitMember
    rw [graph_run, hw]
    exact namedVariable_run hv s
  cases n with
  | binder b => exact namedVariable_run h s
  | expr e =>
    cases e with
    | ident i | receiver i scope => exact namedVariable_run h s
    | member i object name => exact hmember _ object none h
    | index i object key => exact hmember _ object (some key) h
    | _ => cases hn
  | _ => cases hn

/-- Every walk from a node that is ready keeps a conduct that allows its marks. -/
theorem walk_keeps (hc : Covers table) (hm : Marks c table ready) (hq : Serves c table q) :
    ∀ (depth : Nat) (recursive : Bool) {n : Node}, Held table n →
    ∀ s g, ready n g → c.From g (walk q depth recursive n s)
  | 0, _, _, _, _, _, _ => fun _ _ _ hrun => absurd hrun nofun
  | depth + 1, recursive, n, hn, s, g, hready => by
    intro a g' hg hrun
    rw [walk, visitNode_eq] at hrun
    change visitParts q (walk q depth) recursive n s (g.markNode n.id) = .ok (a, g') at hrun
    by_cases hname : n.isName = true ∧ ∃ v, g.namedVar? n = some v
    · obtain ⟨hname, v, hv⟩ := hname
      have hv' : (g.markNode n.id).namedVar? n = some v :=
        (congrFun (namedVar?_congr (resolution_modifyFacts g n.id _)) n).trans hv
      rw [visitParts_name hname hv'] at hrun
      cases hrun
      exact hm.name hn hg hready hname hv
    · have hnone : n.isName = true → g.namedVar? n = none := fun h =>
        Option.eq_none_iff_forall_ne_some.mpr fun v hv => hname ⟨h, v, hv⟩
      obtain ⟨hg1, h1, hchildren⟩ := hm.node hn hg hready hnone
      -- From here on the children are ready, whatever happens.
      have hlasts : ∀ g g', (∀ m ∈ n.children, ready m g) → c.holds g' → c.allows g g' →
          ∀ m ∈ n.children, ready m g' := fun _ _ h hg' h' m hmem => hm.lasts (h m hmem) hg' h'
      have hparts := visitParts_keeps hc
        (hq.having hlasts) hn
        (fun m hmem recursive s g a g' hg hrun =>
          ((walk_keeps hc hm hq depth recursive (hc.child hn hmem) s g (hg.2 m hmem)).having
            (hlasts g)) a g' hg hrun)
        (fun h s k a g' hk hrun => by
          rw [namedVariable_none ((congrFun (hm.named hg hk.1) n).trans (hnone h))] at hrun
          cases hrun
          exact ⟨hk, c.refl _⟩)
        recursive s _ a g' ⟨hg1, hchildren⟩ hrun
      exact ⟨hparts.1.1, c.trans h1 hparts.2⟩

/-! ## Marking -/

/-- A conduct allows what marking does beside its walks. -/
structure Passes (c : Conduct) (table : NodeId → Option Node) (ready : Node → Graph → Prop) :
    Prop where
  program : ∀ {g m mod}, c.holds g → g.module? m = some mod →
    Held table (.program mod.program) ∧ ready (.program mod.program) g
  entryExports : ∀ m, c.Keeps (link (Graph.entryExports m))
  includeVariable : ∀ v, c.Keeps (link (Inclusion.includeVariable v))
  clear : ∀ g, c.From g (modify fun g => { g with needsPass := false })
  note : ∀ g text (attrs : Graph → List Log.Attr),
    c.From g (modify fun g => g.note text (attrs g))

def Marking.walkEach (depth : Nat) (recursive : Bool) (ms : List ModuleId) : Query Unit :=
  ms.forM fun m => do
    match (← get).module? m with
    | some mod =>
      let _ ← includeNode depth recursive (.program mod.program)
    | none => return

section

variable {depth : Nat} (hc : Covers table) (hm : Marks c table ready)
  (hprogram : ∀ {g m mod}, c.holds g → g.module? m = some mod → Held table (.program mod.program) ∧ ready (.program mod.program) g)
  (hq : Serves c table (ofDepth depth)) (recursive : Bool)

include hc hm hprogram hq recursive

theorem walkEach_keeps (ms : List ModuleId) : c.Keeps (Marking.walkEach depth recursive ms) := by
  refine forM' fun m _ => get_bind fun g hg => ?_
  cases hmod : g.module? m with
  | none => exact pure' _ g
  | some mod =>
    obtain ⟨hheld, hready⟩ := hprogram hg hmod
    refine From.bind (From.bind_same get_run (From.bind ?_ fun _ g' _ _ => pure' _ g'))
      fun _ g' _ _ => pure' _ g'
    exact walk_keeps hc hm hq _ recursive hheld {} g hready

theorem walkModules_keeps : c.Keeps (Marking.walkModules depth recursive) :=
  .get_bind fun g _ => walkEach_keeps hc hm hprogram hq recursive g.order g

end

section

variable {ready : Node → Graph → Prop} {depth : Nat} (hc : Covers table) (hm : Marks c table ready)
  (hp : Passes c table ready) (hq : Serves c table (ofDepth depth))

section

include hc hm hp hq

theorem pass_keeps : c.Keeps (Marking.pass depth) := fun g =>
  From.bind (hp.clear g) fun _ g' _ _ => walkModules_keeps hc hm hp.program hq false g'

theorem settle_keeps : ∀ left done, c.Keeps (Marking.settle depth left done)
  | 0, _ => .pure' _
  | left + 1, done => by
    refine bind' (pass_keeps hc hm hp hq) fun _ => ?_
    refine bind' (fun g => hp.note g _ _) fun _ => ?_
    exact get_bind fun g _ => ite' (fun _ => settle_keeps left (done + 1))
      (fun _ => pure' _) g

end

variable (hforget : ∀ v, c.Keeps ((ofDepth depth).forget (.var v) Path.unknown))
include hp hforget

theorem includeEntryExports_keeps : c.Keeps (Marking.includeEntryExports depth) := by
  refine get_bind fun g _ => forM' (fun m _ => ?_) g
  refine bind' (hp.entryExports m) fun es => forM' fun e _ => ?_
  exact bind' (hp.includeVariable _) fun _ => hforget _

include hc hm hq

/-- Marking keeps a conduct that allows its walks and what it does beside them. -/
theorem mark_keeps (o : Marking.Options) : c.Keeps (Marking.mark depth o) := by
  refine .ite' (fun _ => ?_) fun _ => ?_
  · refine .bind' (includeEntryExports_keeps hp hforget) fun _ => ?_
    refine .bind' (settle_keeps hc hm hp hq _ _) fun passes => ?_
    cases passes with
    | none => exact pure' _
    | some n => exact get_bind fun g _ => pure' _ g
  · refine bind' (walkModules_keeps hc hm hp.program hq true) fun _ => ?_
    refine bind' (includeEntryExports_keeps hp hforget) fun _ => ?_
    refine get_bind fun g _ => ?_
    exact From.bind (hp.note g _ _) fun _ g' _ _ => pure' _ g'

end

/-- The graphs that marking reaches from the graph it starts from, by questions that nest to a depth:
when the exports of the entries are included, behind every pass, with every note in the log, and
when it returns. -/
inductive Marking.Reached (depth : Nat) (g₀ : Graph) : Graph → Prop
  | entryExports {g : Graph} : includeEntryExports depth g₀ = .ok ((), g) → Reached depth g₀ g
  | pass {g g' : Graph} : Reached depth g₀ g → Marking.pass depth g = .ok ((), g') →
    Reached depth g₀ g'
  | note {g : Graph} (text : String) (attrs : List Log.Attr) : Reached depth g₀ g →
    Reached depth g₀ (g.note text attrs)
  | mark {o : Options} {outcome : Outcome} {g : Graph} :
    Marking.mark depth o g₀ = .ok (outcome, g) → Reached depth g₀ g

theorem Marking.Reached.keeps {depth : Nat} (hc : Covers table) (hm : Marks c table ready)
    (hp : Passes c table ready) (hq : Serves c table (ofDepth depth))
    (hforget : ∀ v, c.Keeps ((ofDepth depth).forget (.var v) Path.unknown)) {g0 : Graph}
    (h : Reached depth g0 g) (h0 : c.holds g0) : c.holds g ∧ c.allows g0 g := by
  induction h with
  | entryExports hrun => exact includeEntryExports_keeps hp hforget _ _ _ h0 hrun
  | pass _ hrun ih =>
    obtain ⟨hg, ha⟩ := ih
    obtain ⟨hg', ha'⟩ := pass_keeps hc hm hp hq _ _ _ hg hrun
    exact ⟨hg', c.trans ha ha'⟩
  | note text attrs _ ih =>
    obtain ⟨hg, ha⟩ := ih
    obtain ⟨hg', ha'⟩ := hp.note _ text (fun _ => attrs) _ _ hg (modify_run _)
    exact ⟨hg', c.trans ha ha'⟩
  | mark hrun => exact mark_keeps hc hm hp hq hforget _ _ _ _ h0 hrun

end

def Marking.afterPasses (depth : Nat) (g : Graph) : Nat → Graph
  | 0 => g.after (includeEntryExports depth)
  | k + 1 => (afterPasses depth g k).after (pass depth)

theorem Marking.Reached.afterPasses {depth : Nat} : (k : Nat) →
    (includeEntryExports depth g).toBool = true →
    (∀ j < k, (Marking.pass depth (Marking.afterPasses depth g j)).toBool = true) →
    Marking.Reached depth g (Marking.afterPasses depth g k)
  | 0, hstart, _ => (Graph.run_after hstart).elim fun _ h => .entryExports h
  | k + 1, hstart, hpass =>
    have hk := Marking.Reached.afterPasses k hstart fun j hj => hpass j (by omega)
    (Graph.run_after (hpass k (by omega))).elim fun _ h => hk.pass h

end Winnow
