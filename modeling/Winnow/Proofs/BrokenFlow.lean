import Winnow.Proofs.Flow
import Winnow.Proofs.LastingBranches
import Winnow.Proofs.Resolving
import Winnow.Proofs.Steady

/-!
# What is left out behind a broken flow cannot be reached

A walk leaves out statements behind a broken flow that are not included. In the last pass no such
statement can be reached by execution (`skipped_unreachable`): the branches a walk sees are those
that are known in the end, since a branch that is lost asks for another pass, so behind a statement
the flow is broken only if it was before or execution does not fall through (`Graph.Leaves`).

A walk comes to a node by an `Arrival` if it would end differently, should it halt there. So two
walks are compared (`Agrees`), one of which halts where something is wrong.
-/

namespace Winnow

open Winnow.Graph Query Conduct Inclusion Node Queries

variable {s s' : Context} {g g' : Graph} {ss : List Stmt} {n : Node} {x : Stmt}

namespace Inclusion

/-- A walk comes to a node: how deep it may still go below the node, whether it includes everything,
and what it has with it. -/
structure Arrival where
  depth : Nat
  recursive : Bool
  node : Node
  context : Context
  graph : Graph

def walkUntil (q : Queries) (stop : Arrival → Bool) : (depth : Nat) → Visit
  | 0, _, _ => throw .exhausted
  | depth + 1, recursive, n => fun s g =>
    if stop ⟨depth, recursive, n, s, g⟩ then .error .exhausted
    else visitNode q (walkUntil q stop depth) recursive n s g

theorem walkUntil_succ (q : Queries) (stop : Arrival → Bool) (k : Nat) (recursive : Bool) (n : Node)
    (s : Context) (g : Graph) : walkUntil q stop (k + 1) recursive n s g =
      if stop ⟨k, recursive, n, s, g⟩ then .error .exhausted
      else visitNode q (walkUntil q stop k) recursive n s g := rfl

/-- A walk comes by an arrival: if it halts there, it ends differently. -/
def Comes (q : Queries) (depth : Nat) (recursive : Bool) (n : Node) (s : Context) (g : Graph)
    (a : Arrival) : Prop :=
  ∀ stop : Arrival → Bool, stop a = true →
    walkUntil q stop depth recursive n s g ≠ walk q depth recursive n s g

/-- From here a walk comes to a statement of a program or block with a broken flow, and leaves it
out. -/
def Arrival.Skips (q : Queries) (a : Arrival) (x : Stmt) : Prop :=
  a.recursive = false ∧ ∃ before after s g, a.node.sequence? = some (before ++ x :: after) ∧
    (before.forM fun y => visitNeeded q (walk q a.depth) false (Node.ofStmt y)) a.context
      (a.graph.markNode a.node.id) = .ok (((), s), g) ∧
    s.brokenFlow = true ∧ g.isIncluded (Node.ofStmt x).id = false

end Inclusion

namespace Marking

/-- In the pass from a graph, a statement is left out because the flow is broken. -/
def Skips (depth : Nat) (g : Graph) (x : Stmt) : Prop :=
  ∃ before m after g₁ mod a, g.order = before ++ m :: after ∧
    walkEach depth false before { g with needsPass := false } = .ok ((), g₁) ∧
    g₁.module? m = some mod ∧
    Comes (Queries.ofDepth depth) (g₁.nodes.size + 1) false (.program mod.program) {} g₁ a ∧
    a.Skips (Queries.ofDepth depth) x

/-- The graph with the note that is written behind a pass. -/
def noted (g : Graph) (done : Nat) : Graph :=
  g.note "inclusion pass" [.mk (utf8 "pass") (.int (done + 1 : Nat)),
    .mk (utf8 "included") (.int (count g 0).included)]

/-- The passes of marking, counted from one, each with the graph it starts from and the graph it
leads to. -/
inductive PassNo (depth : Nat) (g₀ : Graph) : Nat → Graph → Graph → Prop
  | first {g g' : Graph} : includeEntryExports depth g₀ = .ok ((), g) →
    pass depth g = .ok ((), g') → PassNo depth g₀ 1 g g'
  | next {k : Nat} {g g' g'' : Graph} : PassNo depth g₀ (k + 1) g g' → g'.needsPass = true →
    pass depth (noted g' k) = .ok ((), g'') → PassNo depth g₀ (k + 2) (noted g' k) g''

end Marking

/-! ## What a walk knows about the flow -/

/-- Whether a node takes part in the flow: a program or a statement. -/
def Node.isFlow : Node → Bool
  | .program _ | .stmt _ => true
  | _ => false

@[simp] theorem Node.isFlow_expr (e : Expr) : (expr e).isFlow = false := rfl

theorem Node.isFlow_sequence (h : n.sequence? = some ss) : n.isFlow = true := by
  cases n with
  | program p => rfl
  | stmt x => rfl
  | _ => cases h

/-- Whether statements stand right below a node. -/
def Node.holdsFlow : Node → Bool
  | .program _ | .expr (.function _) | .stmt (.block ..) | .stmt (.branch ..)
  | .stmt (.function _) | .stmt (.classDef _) | .stmt (.exportDeclaration ..) => true
  | _ => false

theorem Node.isFlow_child (h : n.holdsFlow = false) : ∀ m ∈ n.children, m.isFlow = false := by
  cases n with
  | program p => cases h
  | binder b => nofun
  | stmt x =>
    cases x with
    | block | branch | function | classDef | exportDeclaration => cases h
    | empty | importFrom | exportList | exportAll => nofun
    | _ => simp [isFlow]
  | expr e =>
    cases e with
    | function f => cases h
    | ident | receiver | literal => nofun
    | classDef c =>
      intro m hm
      rw [children_classDef] at hm
      simp only [List.mem_append, List.mem_map] at hm
      rcases hm with (⟨b, -, rfl⟩ | ⟨p, -, rfl⟩) | ⟨d, -, rfl⟩ <;> rfl
    | _ => simp [isFlow]
  | _ => simp [isFlow]

namespace Graph

/-- What holds when a walk comes to a node: if the flow is broken, a statement cannot be reached. -/
def Fits (g : Graph) (n : Node) (s : Context) : Prop :=
  match n with
  | .stmt x => s.brokenFlow = true → ¬g.Reachable x
  | .program _ => s.brokenFlow = false
  | _ => True

/-- What holds when a walk leaves a node: the flow was broken before, or execution does not fall
through. Everything but statements leaves the flow as it was. -/
def Leaves (g : Graph) (n : Node) (s s' : Context) : Prop :=
  match n with
  | .stmt x => s'.brokenFlow = true → s.brokenFlow = true ∨ x.falls g.branchAt = false
  | .program _ => True
  | _ => s' = s

def Behind (g : Graph) (s : Context) (before : List Stmt) (s' : Context) : Prop :=
  s'.brokenFlow = true → s.brokenFlow = true ∨ Stmt.allFall g.branchAt before = false

theorem fits_ofStmt (h : s.brokenFlow = true → ¬g.Reachable x) : g.Fits (ofStmt x) s := by
  cases x <;> first | exact h | trivial

/-- If the flow is broken, no statement in a statement can be reached. -/
theorem Fits.inside (hg : g.Placed) (h : g.Fits n s) (hn : Held g.node? n) (hflow : n.isFlow = true)
    {r : Stmt} (hr : ofStmt r ∈ n.children) : s.brokenFlow = true → ¬g.Reachable r := by
  intro hbroken hreach
  cases n with
  | program p =>
    rw [show s.brokenFlow = false from h] at hbroken
    cases hbroken
  | stmt x => exact h hbroken (hreach.around hg hn hr)
  | _ => cases hflow

theorem Leaves.ofStmt (h : g.Leaves (ofStmt x) s s') (hbroken : s'.brokenFlow = true) :
    s.brokenFlow = true ∨ x.falls g.branchAt = false := by
  cases x with
  | function f | classDef c =>
    cases h
    exact .inl hbroken
  | _ => exact h hbroken

end Graph

section

variable {frame : Places} {final : Graph}
  {α β : Type}

theorem walk_bind_ok {m : Walk α} {f : α → Walk β} {s'' : Context} {g'' : Graph} {b : β} :
    (m >>= f) s g = .ok ((b, s''), g'') ↔
      ∃ a s' g', m s g = .ok ((a, s'), g') ∧ f a s' g' = .ok ((b, s''), g'') := by
  refine (Query.bind_ok (m := m s) (f := fun p => f p.1 p.2)).trans ⟨?_, ?_⟩
  · rintro ⟨⟨a, s'⟩, g', hm, hf⟩
    exact ⟨a, s', g', hm, hf⟩
  · rintro ⟨a, s', g', hm, hf⟩
    exact ⟨(a, s'), g', hm, hf⟩

theorem walk_bind_run {m : Walk α} {f : α → Walk β} {a : α} (h : m s g = .ok ((a, s'), g')) :
    (m >>= f) s g = f a s' g' :=
  Query.bind_run (m := m s) (f := fun p => f p.1 p.2) h

theorem lift_ok {m : Query α} {a : α} :
    (liftM m : Walk α) s g = .ok ((a, s'), g') ↔ m g = .ok (a, g') ∧ s' = s := by
  refine (Query.bind_ok (f := fun a => pure (a, s))).trans ⟨?_, ?_⟩
  · rintro ⟨b, g1, hm, hpure⟩
    obtain ⟨heq, rfl⟩ := Query.pure_ok.mp hpure
    cases heq
    exact ⟨hm, rfl⟩
  · rintro ⟨hm, rfl⟩
    exact ⟨a, g', hm, rfl⟩

/-- The second of two steps of walks does as the first in every run that leads to the final graph,
and something holds of what they carry along. -/
structure Agrees (frame : Places)
    (final : Graph) (A : Context → Prop) (m m' : Walk α) (B : α → Context → Prop) : Prop where
  keeps : (walking frame).KeepsAll m
  same : ∀ {s g a s' g'}, (walking frame).holds g → A s → m s g = .ok ((a, s'), g') →
    Steady g' final → m' s g = m s g ∧ B a s'

namespace Agrees

variable {A : Context → Prop} {B : α → Context → Prop} {C : β → Context → Prop} {m m' : Walk α}

theorem pure' {a : α} (h : ∀ s, A s → B a s) :
    Agrees frame final A (pure a : Walk α) (pure a) B where
  keeps := KeepsAll.pure' a
  same := fun _ hA hrun _ => by
    cases hrun
    exact ⟨rfl, h _ hA⟩

theorem bind' {f f' : α → Walk β} (hm : Agrees frame final A m m' B)
    (hf : ∀ a, Agrees frame final (B a) (f a) (f' a) C) :
    Agrees frame final A (m >>= f) (m' >>= f') C where
  keeps := KeepsAll.bind' hm.keeps fun a => (hf a).keeps
  same := fun {s g b s'' g''} hg hA hrun hend => by
    obtain ⟨a, s', g', hrun1, hrun2⟩ := walk_bind_ok.mp hrun
    -- The first step leads to the final graph as well, through the second.
    obtain ⟨hg', -⟩ := hm.keeps _ _ _ _ hg hrun1
    obtain ⟨-, -, hsteady⟩ := (hf a).keeps _ _ _ _ hg' hrun2
    obtain ⟨hsame1, hB⟩ := hm.same hg hA hrun1 (hsteady.trans hend)
    obtain ⟨hsame2, hC⟩ := (hf a).same hg' hB hrun2 hend
    refine ⟨?_, hC⟩
    calc (m' >>= f') s g = f' a s' g' := walk_bind_run (hsame1.trans hrun1)
      _ = f a s' g' := hsame2
      _ = (m >>= f) s g := (walk_bind_run hrun1).symm

theorem imp {A' : Context → Prop} {B' : α → Context → Prop} (h : Agrees frame final A m m' B)
    (hA : ∀ s, A' s → A s) (hB : ∀ a s, B a s → B' a s) : Agrees frame final A' m m' B' where
  keeps := h.keeps
  same := fun hg hs hrun hend => (h.same hg (hA _ hs) hrun hend).imp id (hB _ _)

theorem ite' {p : Prop} [Decidable p] {n n' : Walk α} (hm : Agrees frame final A m m' B)
    (hn : Agrees frame final A n n' B) :
    Agrees frame final A (if p then m else n) (if p then m' else n') B := by
  by_cases h : p
  · rw [if_pos h, if_pos h]; exact hm
  · rw [if_neg h, if_neg h]; exact hn

theorem lift {m : Query α} {p : α → Prop} (hm : (walking frame).Keeps m)
    (hp : ∀ g a g', (walking frame).holds g → m g = .ok (a, g') → Steady g' final → p a) :
    Agrees frame final A (liftM m : Walk α) (liftM m) fun a s => p a ∧ A s where
  keeps := KeepsAll.lift hm
  same := fun hg hA hrun hend => by
    obtain ⟨hm', rfl⟩ := lift_ok.mp hrun
    exact ⟨rfl, hp _ _ _ hg hm' hend, hA⟩

theorem graph {f f' : Graph → Walk α}
    (h : ∀ g, (walking frame).holds g → Agrees frame final A (f g) (f' g) B) :
    Agrees frame final A (getThe Graph >>= f) (getThe Graph >>= f') B where
  keeps := KeepsAll.graph fun g hg => (h g hg).keeps
  same := fun hg hA hrun hend => (h _ hg).same hg hA hrun hend

theorem get' : Agrees frame final A (get : Walk Context) get fun a s => a = s ∧ A s where
  keeps := KeepsAll.get'
  same := fun _ hA hrun _ => by
    cases hrun
    exact ⟨rfl, rfl, hA⟩

theorem setBroken {b : Bool} {B : Context → Prop} (h : ∀ s, A s → B ⟨b⟩) :
    Agrees frame final A (setBroken b) (setBroken b) fun _ => B where
  keeps := KeepsAll.set' _
  same := fun _ hA hrun _ => by
    cases hrun
    exact ⟨rfl, h _ hA⟩

end Agrees

open Agrees

/-- Two steps agree and leave what they carry along as it was. -/
def Calm (frame : Places) (final : Graph)
    (m m' : Walk α) : Prop := ∀ A : Context → Prop, Agrees frame final A m m' fun _ => A

theorem Calm.composes : Composes (walking frame) fun m m' => Calm frame final m m' where
  pure' := fun _ _ => pure' fun _ => id
  bind' := fun hm hf A => bind' (hm A) fun a => hf a A
  lift_bind := fun {α β m f f' p} hm hp hf A => {
    keeps := KeepsAll.lift_bind hm hp fun a ha => (hf a ha A).keeps
    same := fun {s g b s'' g''} hg hA hrun hend => by
      obtain ⟨a, s', g', hrun1, hrun2⟩ := walk_bind_ok.mp hrun
      obtain ⟨hm', rfl⟩ := lift_ok.mp hrun1
      obtain ⟨hsame, hB⟩ := (hf a (hp _ _ _ hm') A).same (hm _ _ _ hg hm').1 hA hrun2 hend
      refine ⟨?_, hB⟩
      rw [walk_bind_run hrun1, walk_bind_run hrun1]
      exact hsame }
  graph := fun h A => graph fun g hg => h g hg A
  context := fun h A => {
    keeps := KeepsAll.bind' KeepsAll.get' fun s => (h s A).keeps
    same := fun hg hA hrun hend => (h _ A).same hg hA hrun hend }

/-! ## Visits -/

/-- Two walks agree on every node they come to as they should, unless they include everything. -/
structure Mirrors (frame : Places)
    (final : Graph) (v w : Visit) : Prop where
  keeps : ∀ {n}, Held (tableOf frame) n → (walking frame).KeepsAll (v false n)
  same : ∀ {n s g s' g'}, Held (tableOf frame) n → final.Fits n s → (walking frame).holds g →
    v false n s g = .ok (((), s'), g') → Steady g' final →
    w false n s g = v false n s g ∧ final.Leaves n s s'

variable {q : Queries} {v w : Visit} {A B : Context → Prop}

theorem namedVariable_calm (n : Node) :
    Calm frame final (namedVariable n) (namedVariable n) := by
  refine Calm.composes.graph fun g _ => ?_
  cases g.namedVar? n with
  | none => exact Calm.composes.pure' _
  | some u => exact Calm.composes.lift (walking_absorbs.link_includeVariable u)

namespace Mirrors

variable (hv : Mirrors frame final v w)
include hv

theorem visit (hn : Held (tableOf frame) n) (hA : ∀ s, A s → final.Fits n s)
    (hB : ∀ s s', A s → final.Leaves n s s' → B s') :
    Agrees frame final A (v false n) (w false n) fun _ => B where
  keeps := hv.keeps hn
  same := fun hg hs hrun hend => by
    obtain ⟨hsame, hleaves⟩ := hv.same hn (hA _ hs) hg hrun hend
    exact ⟨hsame, hB _ _ hs hleaves⟩

theorem calm (hn : Held (tableOf frame) n) (hflow : n.isFlow = false) :
    Calm frame final (v false n) (w false n) := by
  intro A
  cases n with
  | stmt x => cases hflow
  | program p => cases hflow
  | _ =>
    refine hv.visit hn (fun _ _ => trivial) ?_
    rintro s _ hs rfl
    exact hs

theorem needed (hq : Serves (walking frame) (tableOf frame) q) (hn : Held (tableOf frame) n)
    (hA : ∀ s, A s → final.Fits n s) (hskip : ∀ s, A s → B s)
    (hB : ∀ s s', A s → final.Leaves n s s' → B s') :
    Agrees frame final A (visitNeeded q v false n) (visitNeeded q w false n) fun _ => B := by
  have hvisit := hv.visit hn hA hB
  refine ite' hvisit (bind' (Calm.composes.isNeeded hq hn A) fun needed => ?_)
  exact ite' hvisit (pure' hskip)

/-! ### Expressions -/

theorem visitFunction (hc : Covers (tableOf frame)) {f : Func}
    (hf : Held (tableOf frame) (.expr (.function f))) :
    Calm frame final (visitFunction v false f) (visitFunction w false f) := by
  have hbinder : ∀ b, binder b ∈ (expr (.function f)).children →
      Calm frame final (v false (.binder b)) (w false (.binder b)) := fun b hb =>
    hv.calm (hc.child hf hb) rfl
  have hbody : Held (tableOf frame) (ofBody f.body) :=
    hc.child hf (by simp)
  intro A
  refine bind' (Calm.composes.forM' (fun b hb => hbinder b ?_) A) fun _ => ?_
  · simp [Option.mem_toList.mp hb]
  refine bind' (Calm.composes.forM' (fun b hb => hbinder b ?_) A) fun _ => ?_
  · simp [hb]
  -- The body starts a flow of its own, and the flow around it is put back behind it.
  refine bind' get' fun s => ?_
  refine bind' (setBroken (B := fun t => t.brokenFlow = false ∧ A s) ?_) fun _ => ?_
  · rintro _ ⟨rfl, hs⟩
    exact ⟨rfl, hs⟩
  refine bind' (hv.visit (B := fun _ => A s) hbody ?_ ?_) fun _ => ?_
  · rintro t ⟨ht, -⟩
    cases f.body with
    | block i ss =>
      intro hbroken
      rw [ht] at hbroken
      cases hbroken
    | result e => trivial
  · rintro t _ ⟨-, hs⟩ -
    exact hs
  · exact setBroken fun _ => id

theorem visitExpr (hc : Covers (tableOf frame)) (hq : Serves (walking frame) (tableOf frame) q)
    {e : Expr} (he : Held (tableOf frame) (.expr e)) :
    Calm frame final (visitParts q v false (.expr e)) (visitParts q w false (.expr e)) := by
  refine Calm.composes.visitExpr hc hq he (fun _ => namedVariable_calm _) false ?_ ?_
  · rintro f rfl
    exact hv.visitFunction hc he
  · intro hfun m hm r hr
    have hno : (expr e).holdsFlow = false := by
      cases e with
      | function f => exact absurd rfl (hfun f)
      | _ => rfl
    cases r with
    | true => cases hr rfl
    | false => exact hv.calm (hc.child he hm) (isFlow_child hno m hm)

/-! ### Statements -/

section

variable (hc : Covers (tableOf frame)) (hfinal : (walking frame).holds final)
  (hq : Serves (walking frame) (tableOf frame) q) {s₀ : Context}
include hc hfinal hq

/-- One statement after the other: if the flow is broken behind some of them, it was before, or
execution does not fall through all of them. -/
theorem sequence (hn : Held (tableOf frame) n) (hfits : final.Fits n s₀) :
    ∀ (rest before : List Stmt) {after : List Stmt},
      n.sequence? = some (before ++ (rest ++ after)) →
      Agrees frame final (final.Behind s₀ before)
        (rest.forM fun y => visitNeeded q v false (ofStmt y))
        (rest.forM fun y => visitNeeded q w false (ofStmt y))
        fun _ => final.Behind s₀ (before ++ rest)
  | [], before, _, _ => pure' fun s hs => by
    rw [List.append_nil]
    exact hs
  | x :: rest, before, after, hseq => by
    have hchild : ofStmt x ∈ n.children := by simp [children_sequence hseq]
    have hrest := sequence hn hfits rest (before ++ [x])
      (by rw [hseq, List.append_assoc, List.singleton_append, List.cons_append])
    rw [List.append_assoc] at hrest
    refine bind' (hv.needed hq (hc.child hn hchild)
      (fun s hs => fits_ofStmt fun hbroken hreach => ?_) (fun s hs hbroken => ?_)
      fun s s' hs hleaves hbroken => ?_) fun _ => hrest
    · -- Behind a broken flow there is nothing that execution comes to.
      rcases hs hbroken with hbefore | hfall
      · exact hfits.inside hfinal.1.placed (held_node? hfinal hn) (isFlow_sequence hseq) hchild
          hbefore hreach
      · rw [hreach.before_fall hfinal.1.placed (held_node? hfinal hn) hseq] at hfall
        cases hfall
    all_goals rw [Stmt.allFall_append, Bool.and_eq_false_iff]
    · exact (hs hbroken).imp id .inl
    · rcases hleaves.ofStmt hbroken with hbefore | hfall
      · exact (hs hbefore).imp id .inl
      · refine .inr (.inr ?_)
        rw [Stmt.allFall, hfall, Bool.false_and]

theorem sequence_all (hn : Held (tableOf frame) n) (hfits : final.Fits n s₀)
    (hseq : n.sequence? = some ss) :
    Agrees frame final (· = s₀) (ss.forM fun y => visitNeeded q v false (ofStmt y))
      (ss.forM fun y => visitNeeded q w false (ofStmt y)) fun _ => final.Behind s₀ ss := by
  have hall : n.sequence? = some ([] ++ (ss ++ [])) := by simpa using hseq
  refine (hv.sequence hc hfinal hq hn hfits ss [] hall).imp ?_ fun _ _ => id
  rintro s rfl
  exact .inl

theorem visitBranch {i : Info} {t : Expr} {y : Option Stmt}
    (hs : Held (tableOf frame) (.stmt (.branch i t x y)))
    (hanswer : ∀ g state g', (walking frame).holds g →
      branchOf q i.id t Value.truth? g = .ok (state, g') → Steady g' final →
      final.branchAt i.id = state) (hfits : final.Fits (.stmt (.branch i t x y)) s₀) :
    Agrees frame final (· = s₀) (visitBranch q v false i t x y) (visitBranch q w false i t x y)
      fun _ => final.Leaves (.stmt (.branch i t x y)) s₀ := by
  have ht : Held (tableOf frame) (.expr t) := hc.child hs (by simp)
  have hx : Held (tableOf frame) (ofStmt x) := hc.child hs (by simp)
  have hinside : ∀ r, ofStmt r ∈ (stmt (.branch i t x y)).children →
      final.Fits (ofStmt r) s₀ := fun r hr =>
    fits_ofStmt (hfits.inside hfinal.1.placed (held_node? hfinal hs) rfl hr)
  have hfitsX := hinside x (by simp)
  refine bind' (lift (hq.branchOf (.stmt (.branch i t x y)) _ _ hs rfl) hanswer)
    fun state => ?_
  have htest := hv.calm ht rfl
  have hneeded := Calm.composes.visitNeeded hq ht htest
  have hfalls := Stmt.falls.eq_def final.branchAt (.branch i t x y)
  cases state with
  | consequent =>
    refine bind' (hneeded _) fun _ => hv.needed hq hx ?_ ?_ ?_
    · rintro s ⟨-, rfl⟩
      exact hfitsX
    · rintro s ⟨-, rfl⟩ hbroken
      exact .inl hbroken
    · rintro s s' ⟨hstate, rfl⟩ hleaves hbroken
      refine (hleaves.ofStmt hbroken).imp id fun hfall => ?_
      simp [hfalls, hstate, BranchState.permits, hfall]
  | alternate =>
    refine bind' (hneeded _) fun _ => ?_
    cases y with
    | none =>
      refine pure' ?_
      rintro s ⟨-, rfl⟩ hbroken
      exact .inl hbroken
    | some y =>
      have hchild : ofStmt y ∈ (stmt (.branch i t x (some y))).children := by simp
      refine bind' (hv.needed hq
        (hc.child hs hchild) ?_ ?_ ?_) fun _ => pure' fun _ => id
      · rintro s ⟨-, rfl⟩
        exact hinside y hchild
      · rintro s ⟨-, rfl⟩ hbroken
        exact .inl hbroken
      · rintro s s' ⟨hstate, rfl⟩ hleaves hbroken
        refine (hleaves.ofStmt hbroken).imp id fun hfall => ?_
        simp [hfalls, hstate, BranchState.permits, Stmt.optionalFalls, hfall]
  | _ =>
    -- Both sides start from the flow before the branch.
    refine bind' (htest _) fun _ => bind' get' fun s1 => ?_
    refine bind' (hv.needed (B := fun s => s1 = s₀ ∧ (s.brokenFlow = true →
      s₀.brokenFlow = true ∨ x.falls final.branchAt = false)) hq hx ?_ ?_ ?_) fun _ => ?_
    · rintro s ⟨-, -, rfl⟩
      exact hfitsX
    · rintro s ⟨rfl, -, rfl⟩
      exact ⟨rfl, .inl⟩
    · rintro s s' ⟨rfl, -, rfl⟩ hleaves
      exact ⟨rfl, hleaves.ofStmt⟩
    refine bind' get' fun s2 => ?_
    refine bind' (setBroken (B := fun s => s = s₀ ∧ (s2.brokenFlow = true →
      s₀.brokenFlow = true ∨ x.falls final.branchAt = false)) ?_) fun _ => ?_
    · rintro s ⟨rfl, rfl, hbehind⟩
      exact ⟨rfl, hbehind⟩
    cases y with
    | none =>
      refine pure' ?_
      rintro s ⟨rfl, -⟩ hbroken
      exact .inl hbroken
    | some y =>
      have hchild : ofStmt y ∈ (stmt (.branch i t x (some y))).children := by simp
      refine bind' (Calm.composes.isNeeded hq (hc.child hs hchild) _) fun _ => ?_
      refine ite' ?_ (pure' ?_)
      · refine bind' (hv.visit (B := fun s => (s.brokenFlow = true → s₀.brokenFlow = true ∨
          y.falls final.branchAt = false) ∧ (s2.brokenFlow = true → s₀.brokenFlow = true ∨
          x.falls final.branchAt = false)) (hc.child hs hchild) ?_ ?_) fun _ => ?_
        · rintro s ⟨rfl, -⟩
          exact hinside y hchild
        · rintro s s' ⟨rfl, hbehind⟩ hleaves
          exact ⟨hleaves.ofStmt, hbehind⟩
        refine bind' get' fun s3 => setBroken ?_
        rintro s ⟨rfl, hbehindY, hbehindX⟩ hbroken
        obtain ⟨hbrokenY, hbrokenX⟩ := Bool.and_eq_true_iff.mp hbroken
        rcases hbehindX hbrokenX, hbehindY hbrokenY with ⟨hbefore | hfallX, hbefore | hfallY⟩
        · exact .inl hbefore
        · exact .inl hbefore
        · exact .inl hbefore
        · refine .inr ?_
          simp [hfalls, Stmt.optionalFalls, hfallX, hfallY]
      · rintro s ⟨rfl, -⟩ hbroken
        exact .inl hbroken

theorem visitParts (hn : Held (tableOf frame) n)
    (hanswer : ∀ {i t y z}, n = .stmt (.branch i t y z) → ∀ g state g', (walking frame).holds g →
      branchOf q i.id t Value.truth? g = .ok (state, g') → Steady g' final →
      final.branchAt i.id = state) (hfits : final.Fits n s₀) :
    Agrees frame final (· = s₀) (visitParts q v false n) (visitParts q w false n)
      fun _ => final.Leaves n s₀ := by
  have hchild : n.holdsFlow = false → ∀ m ∈ n.children, Calm frame final (v false m) (w false m) :=
    fun hno m hm => hv.calm (hc.child hn hm) (isFlow_child hno m hm)
  cases n with
  | program p =>
    exact (hv.sequence_all hc hfinal hq hn hfits rfl).imp (fun _ => id) fun _ _ _ => trivial
  | expr e => exact hv.visitExpr hc hq hn _
  | binder b => exact namedVariable_calm (.binder b) _
  | property | classMember | declarator => exact Calm.composes.visitAll rfl (hchild rfl) _
  | stmt x =>
    -- What leaves the flow alone leaves it unbroken where execution falls through.
    have hcalm : ∀ {m m' : Walk Unit}, Calm frame final m m' →
        Agrees frame final (· = s₀) m m' fun _ => final.Leaves (.stmt x) s₀ := fun h =>
      (h _).imp (fun _ => id) fun _ s hs hbroken => .inl (hs ▸ hbroken)
    cases x with
    | branch i t y z => exact hv.visitBranch hc hfinal hq hn (hanswer rfl) hfits
    | ret | raise =>
      rw [visitParts_eq, visitParts_eq q w]
      exact bind' (Calm.composes.forM' (hchild rfl) _) fun _ => setBroken fun _ _ _ => .inr rfl
    | block i ss => exact hv.sequence_all hc hfinal hq hn hfits rfl
    | declaration i k ds =>
      rw [visitParts_eq, visitParts_eq q w]
      exact hcalm (Calm.composes.forM' fun m hm =>
        Calm.composes.visitNeeded hq (hc.child hn hm) (hchild rfl m hm))
    | function f | classDef d => exact absurd (hc.proper hn) nofun
    | exportDeclaration i d =>
      have hd : ofStmt d ∈ (stmt (.exportDeclaration i d)).children := by simp
      refine hv.visit (hc.child hn hd) ?_ ?_
      · rintro s rfl
        exact fits_ofStmt (hfits.inside hfinal.1.placed (held_node? hfinal hn) rfl hd)
      · rintro s s' rfl hleaves
        exact hleaves.ofStmt
    | _ => exact hcalm (Calm.composes.visitAll rfl (hchild rfl))

end

end Mirrors

/-! ## Walks -/

theorem visitParts_sequence (h : n.sequence? = some ss) (recursive : Bool) :
    visitParts q v recursive n =
      ss.forM fun y => visitNeeded q v recursive (ofStmt y) := by
  cases n with
  | program p =>
    cases h
    rfl
  | stmt x =>
    cases x with
    | block i ss =>
      cases h
      rfl
    | _ => cases h
  | _ => cases h

section

variable (hc : Covers (tableOf frame)) (howned : Owned frame) (hfinal : (walking frame).holds final)
  (hquiet : final.needsPass = false) {depth : Nat}
include hc howned hfinal hquiet

omit howned hfinal in
theorem branchAt_final {t : Expr} {choose : Value → Option Bool} {state : BranchState}
    (hn : Held (tableOf frame) n) (hg : (walking frame).holds g)
    (hrun : branchOf (ofDepth depth) n.id t choose g = .ok (state, g'))
    (hend : Steady g' final) : final.branchAt n.id = state := by
  obtain ⟨hstate, hne⟩ := branchOf_state hc hg hn hrun
  rw [← hstate] at hne ⊢
  exact hend.same hquiet hne

/-- Where a walk should come by: as it should, and on the way to the final graph. -/
def Inclusion.Arrival.Fits (frame : Places)
    (final : Graph) (q : Queries) (a : Arrival) : Prop :=
  Held (tableOf frame) a.node ∧ (walking frame).holds a.graph ∧ final.Fits a.node a.context ∧
    a.recursive = false ∧ ∃ s' g', Steady g' final ∧
      visitNode q (walk q a.depth) a.recursive a.node a.context a.graph = .ok (((), s'), g')

theorem walkUntil_mirrors (stop : Arrival → Bool)
    (hstop : ∀ a, a.Fits frame final (ofDepth depth) → stop a = false) : ∀ k,
    Mirrors frame final (walk (ofDepth depth) k)
      (walkUntil (ofDepth depth) stop k)
  | 0 => {
    keeps := fun hn => walk_steady hc howned depth 0 false hn
    same := fun _ _ _ hrun _ => absurd hrun nofun }
  | k + 1 => {
    keeps := fun hn => walk_steady hc howned depth (k + 1) false hn
    same := fun {n s g s' g'} hn hfits hg hrun hend => by
      obtain ⟨hg1, -⟩ := walking_absorbs.step hg (.markNode g n.id) (hg.1.markNode n.id).linkable
      have hparts := (walkUntil_mirrors stop hstop k).visitParts hc hfinal
        (walking_serves hc howned depth) hn (fun {i t y z} h g state g' hg hask hend => by
          subst h
          exact branchAt_final hc hquiet hn hg hask hend) hfits
      have hgo : stop ⟨k, false, n, s, g⟩ = false :=
        hstop _ ⟨hn, hg, hfits, rfl, s', g', hend, hrun⟩
      rw [walk, visitNode_eq] at hrun
      rw [walkUntil_succ, walk, hgo, visitNode_eq, visitNode_eq]
      exact hparts.same hg1 rfl hrun hend }

theorem Inclusion.Comes.fits {k : Nat} {a : Arrival}
    (h : Comes (ofDepth depth) k false n s g a) (hn : Held (tableOf frame) n)
    (hg : (walking frame).holds g) (hfits : final.Fits n s)
    (hrun : walk (ofDepth depth) k false n s g = .ok (((), s'), g'))
    (hend : Steady g' final) : a.Fits frame final (ofDepth depth) := by
  classical
  by_contra hnot
  have hmirrors : Mirrors frame final (walk (ofDepth depth) k)
      (walkUntil (ofDepth depth) (fun b => decide (b = a)) k) := by
    refine walkUntil_mirrors hc howned hfinal hquiet _ (fun b hb => decide_eq_false ?_) k
    rintro rfl
    exact hnot hb
  exact h _ (decide_eq_true rfl) (hmirrors.same hn hfits hg hrun hend).1

/-- What is left out behind a broken flow from where a walk should come by cannot be reached. -/
theorem Inclusion.Arrival.Skips.unreachable {a : Arrival} (h : a.Skips (ofDepth depth) x)
    (ha : a.Fits frame final (ofDepth depth)) : ¬final.Reachable x := by
  obtain ⟨hplain, before, after, s, g, hseq, hbefore, hbroken, -⟩ := h
  obtain ⟨hn, hg, hfits, -, s', g', hend, hrun⟩ := ha
  obtain ⟨hg0, -⟩ := walking_absorbs.step hg (.markNode a.graph a.node.id)
    (hg.1.markNode a.node.id).linkable
  have hmirrors : Mirrors frame final (walk (ofDepth depth) a.depth)
      (walkUntil (ofDepth depth) (fun _ => false) a.depth) :=
    walkUntil_mirrors hc howned hfinal hquiet _ (fun _ _ => rfl) a.depth
  have hsequence := hmirrors.sequence hc hfinal (walking_serves hc howned depth) hn hfits
  have hrest := (hsequence (x :: after) before (by rw [List.append_nil]; exact hseq)).keeps
  have hbehind := hsequence before [] hseq
  -- The run goes through the statements before and on to the final graph.
  have hparts : visitParts (ofDepth depth) (walk (ofDepth depth) a.depth) false
      a.node a.context (a.graph.markNode a.node.id) = .ok (((), s'), g') := by
    rw [visitNode_eq, hplain] at hrun
    exact hrun
  rw [visitParts_sequence hseq, List.forM_eq_forM, List.forM_append] at hparts
  obtain ⟨_, s1, g1, hrun1, hrun2⟩ := walk_bind_ok.mp hparts
  cases hrun1.symm.trans hbefore
  obtain ⟨hg1, -⟩ := hbehind.keeps _ _ _ _ hg0 hbefore
  obtain ⟨-, -, hsteady⟩ := hrest _ _ _ _ hg1 hrun2
  obtain ⟨-, hs⟩ := hbehind.same hg0 .inl hbefore (hsteady.trans hend)
  intro hreach
  have hnode := held_node? hfinal hn
  rcases hs hbroken with hstart | hfall
  · exact hfits.inside hfinal.1.placed hnode (isFlow_sequence hseq)
      (by simp [children_sequence hseq]) hstart hreach
  · rw [List.nil_append, hreach.before_fall hfinal.1.placed hnode hseq] at hfall
    cases hfall

end

end

/-! ## The last pass -/

namespace Marking

variable {g₀ g g' : Graph} {depth k : Nat}

theorem PassNo.reached (h : PassNo depth g₀ k g g') :
    Reached depth g₀ g ∧ pass depth g = .ok ((), g') := by
  induction h with
  | first hstart hpass => exact ⟨.entryExports hstart, hpass⟩
  | next _ _ hpass ih => exact ⟨.note _ _ (.pass ih.1 ih.2), hpass⟩

theorem PassNo.unique (h : PassNo depth g₀ k g g') {g1 g1' : Graph}
    (h' : PassNo depth g₀ k g1 g1') :
    g1 = g ∧ g1' = g' := by
  induction h generalizing g1 g1' with
  | first hstart hpass =>
    cases h' with
    | first hstart' hpass' =>
      cases hstart.symm.trans hstart'
      cases hpass.symm.trans hpass'
      exact ⟨rfl, rfl⟩
  | next _ _ hpass ih =>
    cases h' with
    | next hbefore _ hpass' =>
      obtain ⟨-, rfl⟩ := ih hbefore
      cases hpass.symm.trans hpass'
      exact ⟨rfl, rfl⟩

theorem settle_last : ∀ (left done : Nat) {g : Graph} {passes : Nat},
    (∀ g', pass depth g = .ok ((), g') → PassNo depth g₀ (done + 1) g g') →
    settle depth left done g = .ok (some passes, g') → ∃ k g1 g1', passes = k + 1 ∧
      PassNo depth g₀ (k + 1) g1 g1' ∧ g1'.needsPass = false ∧ g' = noted g1' k
  | 0, _, _, _, _, hrun => by cases hrun
  | left + 1, done, g, passes, hstart, hrun => by
    obtain ⟨_, g1, hpass, hrun⟩ := bind_ok.mp hrun
    have hno := hstart g1 hpass
    change (if (noted g1 done).needsPass = true then settle depth left (done + 1)
      else pure (some (done + 1))) (noted g1 done) = .ok (some passes, g') at hrun
    by_cases hneeds : (noted g1 done).needsPass = true
    · rw [if_pos hneeds] at hrun
      exact settle_last left (done + 1) (fun g'' hpass' => .next hno hneeds hpass') hrun
    · rw [if_neg hneeds] at hrun
      obtain ⟨heq, rfl⟩ := pure_ok.mp hrun
      exact ⟨done, g, g1, Option.some.inj heq, hno, Bool.eq_false_of_not_eq_true hneeds, rfl⟩

theorem mark_last {o : Options} (htree : o.treeshake = true) {stats : Stats}
    (h : mark depth o g₀ = .ok (.marked stats, g')) : ∃ k g1 g1', stats.passes = k + 1 ∧
      PassNo depth g₀ (k + 1) g1 g1' ∧ g1'.needsPass = false ∧ g' = noted g1' k := by
  rw [mark, if_pos htree] at h
  obtain ⟨_, g1, hstart, h⟩ := bind_ok.mp h
  obtain ⟨passes, g2, hsettle, h⟩ := bind_ok.mp h
  cases passes with
  | none => cases h
  | some passes =>
    cases h
    exact settle_last o.limit 0 (fun g'' hpass => .first hstart hpass) hsettle

end Marking

theorem Graph.Housed.owned (h : g.Housed) : Owned g.frame := by
  intro k p hp
  obtain ⟨r, hr, rfl⟩ := Option.map_eq_some_iff.mp (Array.getElem?_map ▸ hp)
  obtain ⟨m, -, hm, -⟩ := h k r hr
  exact Option.isSome_iff_exists.mpr ⟨m, hm⟩

theorem Marking.walkEach_append (depth : Nat) (recursive : Bool) (ms ns : List ModuleId) :
    walkEach depth recursive (ms ++ ns) =
      walkEach depth recursive ms >>= fun _ => walkEach depth recursive ns :=
  List.forM_append

section

variable {depth : Nat}

theorem Marking.walkEach_cons {m : ModuleId} {mod : Module} {ms : List ModuleId} {recursive : Bool}
    (hmod : g.module? m = some mod) (h : walkEach depth recursive (m :: ms) g = .ok ((), g')) :
    ∃ s g1, walk (ofDepth depth) (g.nodes.size + 1) recursive (.program mod.program) {} g =
      .ok (((), s), g1) ∧ walkEach depth recursive ms g1 = .ok ((), g') := by
  obtain ⟨_, g1, hstep, hrest⟩ := bind_ok.mp h
  replace hstep := get_ok hstep
  simp only [hmod] at hstep
  obtain ⟨_, _, hstep, hpure⟩ := bind_ok.mp hstep
  cases hpure
  replace hstep := get_ok hstep
  obtain ⟨p, _, hwalk, hpure⟩ := bind_ok.mp hstep
  obtain ⟨-, rfl⟩ := pure_ok.mp hpure
  exact ⟨p.2, _, hwalk, hrest⟩

theorem Marking.pass_split {g1 : Graph} {before after : List ModuleId} {m : ModuleId} {mod : Module}
    (hpass : pass depth g = .ok ((), g')) (horder : g.order = before ++ m :: after)
    (hbefore : walkEach depth false before { g with needsPass := false } = .ok ((), g1))
    (hmod : g1.module? m = some mod) :
    ∃ s g2, walk (ofDepth depth) (g1.nodes.size + 1) false (.program mod.program) {} g1 =
      .ok (((), s), g2) ∧ walkEach depth false after g2 = .ok ((), g') := by
  have hall : walkEach depth false (before ++ m :: after) { g with needsPass := false } =
      .ok ((), g') := by
    rw [← horder]
    exact hpass
  rw [walkEach_append] at hall
  obtain ⟨_, g1', hrun, hrest⟩ := bind_ok.mp hall
  cases hrun.symm.trans hbefore
  exact walkEach_cons hmod hrest

theorem walkEach_steady {frame : Places} (hc : Covers (tableOf frame)) (howned : Owned frame)
    (ms : List ModuleId) : (walking frame).Keeps (Marking.walkEach depth false ms) :=
  walkEach_keeps hc walking_absorbs.marks
    (fun hg hmod => ⟨walking_absorbs.program hg hmod, trivial⟩)
    (walking_serves hc howned _) false ms

end

/-- **Dead code is really unreachable**, however deep questions may nest. A statement of a program, a
block or the body of a function that the last pass leaves out because the flow is broken cannot be
reached by execution. -/
theorem skipped_unreachable {files : Files} {entries : List Bytes} {o : BuildOptions} {g₀ : Graph}
    (hbuilt : g₀.BuiltFrom files entries o) {depth : Nat} {marking : Marking.Options}
    (htree : marking.treeshake = true) {stats : Marking.Stats} {final : Graph}
    (hmark : Marking.mark depth marking g₀ = .ok (.marked stats, final)) {g g' : Graph}
    (hlast : Marking.PassNo depth g₀ stats.passes g g') {x : Stmt}
    (hskip : Marking.Skips depth g x) : ¬final.Reachable x := by
  have hc : Covers (tableOf g₀.frame) := by
    rw [tableOf_frame]
    exact hbuilt.built.placed.covers
  have howned := hbuilt.housed.owned
  -- The pass is the one marking ends with.
  obtain ⟨k, g1, g1', hpasses, hno, hquiet, rfl⟩ := Marking.mark_last htree hmark
  rw [hpasses] at hlast
  obtain ⟨rfl, rfl⟩ := hno.unique hlast
  obtain ⟨hreached, hpass⟩ := hno.reached
  obtain ⟨hg, -⟩ := hreached.marked hbuilt.built
  obtain ⟨before, m, after, g1, mod, a, horder, hbefore, hmod, hcomes, hskips⟩ := hskip
  obtain ⟨s, g2, hwalk, hafter⟩ := Marking.pass_split hpass horder hbefore hmod
  have hfinal : (walking g₀.frame).holds (Marking.noted g' k) :=
    (Marking.Reached.note _ _ (hreached.pass hpass)).marked hbuilt.built |>.1
  have hstart : (walking g₀.frame).holds { g with needsPass := false } := (marking_same rfl hg).1
  obtain ⟨hg1, -⟩ := walkEach_steady hc howned before _ _ _ hstart hbefore
  have hprogram := walking_absorbs.program hg1 hmod
  obtain ⟨hg2, -⟩ := walk_steady hc howned _ _ false hprogram _ _ _ _ hg1 hwalk
  obtain ⟨-, -, hsteady⟩ := walkEach_steady hc howned after _ _ _ hg2 hafter
  have hend : Steady g2 (Marking.noted g' k) := hsteady.trans (.of_branch id fun _ => rfl)
  exact hskips.unreachable hc howned hfinal hquiet
    (hcomes.fits hc howned hfinal hquiet hprogram hg1 rfl hwalk hend)

/-- A call behind a branch of which no side falls through: one throws, the other is a branch that was
found out and throws. -/
def deadEnd : Files :=
  [(utf8 "m", utf8 "if (a) \x7b throw b; \x7d else if (true) throw c; g();")]

/-- Whether marking ends after the given number of passes. -/
def Marking.settlesIn (g : Graph) (passes : Nat) : Bool :=
  match mark 20 {} g with
  | .ok (.marked stats, _) => decide (stats.passes = passes)
  | _ => false

theorem Marking.settlesIn_run {k : Nat} (h : settlesIn g k = true) :
    ∃ stats g', mark 20 {} g = .ok (.marked stats, g') ∧ stats.passes = k := by
  unfold settlesIn at h
  split at h
  next stats g' heq => exact ⟨stats, g', heq, of_decide_eq_true h⟩
  next => cases h

/-- Whether a walk over the only module leaves out the second of two statements behind a broken
flow. -/
def Marking.skipsSecond (g : Graph) : Bool :=
  (g.module? 0).any fun mod =>
    decide (mod.program.body.length = 2) &&
      match ((mod.program.body.take 1).forM fun y => visitNeeded (ofDepth 20)
          (walk (ofDepth 20) g.nodes.size) false (Node.ofStmt y)) {}
          (g.markNode mod.program.info.id) with
      | .ok ((_, s), g') => s.brokenFlow &&
        (mod.program.body.drop 1).all fun x => !g'.isIncluded (Node.ofStmt x).id
      | .error _ => false

theorem Marking.exists_skips (horder : g.order = [0])
    (hskips : skipsSecond { g with needsPass := false } = true) (hpass : pass 20 g = .ok ((), g')) :
    ∃ x, Skips 20 g x := by
  obtain ⟨g1, hbefore, hskips⟩ : ∃ g1, walkEach 20 false [] { g with needsPass := false } =
      .ok ((), g1) ∧ skipsSecond g1 = true := ⟨_, rfl, hskips⟩
  unfold skipsSecond at hskips
  cases hmod : g1.module? 0 with
  | none =>
    rw [hmod] at hskips
    cases hskips
  | some mod =>
    rw [hmod, Option.any_some, Bool.and_eq_true] at hskips
    obtain ⟨hlength, hrun⟩ := hskips
    obtain ⟨y, x, hbody⟩ := List.length_eq_two.mp (of_decide_eq_true hlength)
    rw [hbody] at hrun
    split at hrun
    next s g2 heq =>
      simp only [Bool.and_eq_true, List.drop_succ_cons, List.drop_zero, List.all_cons,
        List.all_nil, Bool.and_true, Bool.not_eq_true'] at hrun
      obtain ⟨_, _, hwalk, -⟩ := pass_split hpass horder hbefore hmod
      refine ⟨x, [], 0, [], g1, mod, ⟨g1.nodes.size, false, .program mod.program, {}, g1⟩,
        horder, hbefore, hmod, fun stop hstop => ?_, rfl, [y], [], s, g2, congrArg some hbody, heq,
        hrun⟩
      rw [walkUntil_succ, if_pos hstop, hwalk]
      nofun
    next => cases hrun

set_option maxRecDepth 100000 in
/-- The second of two passes leaves out the call, which cannot be reached. -/
theorem skipped_unreachable_deadEnd : ∃ g₀ stats final g g' x,
    g₀.BuiltFrom deadEnd [utf8 "m"] {} ∧ Marking.mark 20 {} g₀ = .ok (.marked stats, final) ∧
    stats.passes = 2 ∧ Marking.PassNo 20 g₀ stats.passes g g' ∧ Marking.Skips 20 g x ∧
    ¬final.Reachable x := by
  let g₀ : Graph := .ofFiles deadEnd [utf8 "m"] {}
  let g := Marking.noted (Marking.afterPasses 20 g₀ 1) 0
  have hbuilt := Graph.builtFrom_ofFiles deadEnd [utf8 "m"] {} (by decide +kernel)
  have hruns : (Marking.includeEntryExports 20 g₀).toBool = true ∧
      (Marking.pass 20 (Marking.afterPasses 20 g₀ 0)).toBool = true ∧
      (Marking.pass 20 g).toBool = true ∧ (Marking.afterPasses 20 g₀ 1).needsPass = true ∧ g.order = [0] ∧
      Marking.skipsSecond { g with needsPass := false } = true ∧
      Marking.settlesIn g₀ 2 = true := by
    decide +kernel
  obtain ⟨hstart, hfirst, hpass, hneeds, horder, hsecond, hsettles⟩ := hruns
  obtain ⟨_, hstart⟩ := Graph.run_after hstart
  obtain ⟨_, hfirst⟩ := Graph.run_after hfirst
  obtain ⟨_, hpass⟩ := Graph.run_after hpass
  have hlast : Marking.PassNo 20 g₀ 2 g _ := .next (.first hstart hfirst) hneeds hpass
  obtain ⟨x, hskip⟩ := Marking.exists_skips horder hsecond hpass
  obtain ⟨stats, final, hmark, hpasses⟩ := Marking.settlesIn_run hsettles
  rw [← hpasses] at hlast
  exact ⟨g₀, stats, final, g, _, x, hbuilt, hmark, hpasses, hlast, hskip,
    skipped_unreachable hbuilt rfl hmark hlast hskip⟩

end Winnow
