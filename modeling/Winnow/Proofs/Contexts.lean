import Winnow.Proofs.Built
import Winnow.Proofs.Questions

/-!
# Searches for effects leave the context as they found it

A search rebinds receivers and the flow of control for every body that it looks at. Looking at a use
or evaluating an expression puts back what it changed (`Restored`): only the uses that were looked
at grow. A statement may break the flow of control, and never mends it (`Advanced`).

`Frame.Keeps` says that a search leaves the context as a frame allows, and the two frames make a
`SearchLogic`. A body is only `Advanced`, and `withinCall` makes it `Restored`.
-/

namespace Winnow

open Query

/-- The flow of control and the receivers are what they were. -/
structure Restored (c c' : EffectContext) : Prop where
  brokenFlow : c'.brokenFlow = c.brokenFlow
  ignoreReturn : c'.ignoreReturn = c.ignoreReturn
  receivers : c'.receivers = c.receivers

/-- The receivers are what they were, and so is the flow of control, unless it was broken. -/
structure Advanced (c c' : EffectContext) : Prop where
  brokenFlow : c.brokenFlow = true → c'.brokenFlow = true
  ignoreReturn : c'.ignoreReturn = c.ignoreReturn
  receivers : c'.receivers = c.receivers

theorem Restored.advanced {c c' : EffectContext} (h : Restored c c') : Advanced c c' :=
  ⟨fun hc => h.brokenFlow.trans hc, h.ignoreReturn, h.receivers⟩

/-- How a search may leave the context behind. -/
structure Frame where
  allows : EffectContext → EffectContext → Prop
  refl : ∀ c, allows c c
  trans : ∀ {a b c}, allows a b → allows b c → allows a c

namespace Frame

def restored : Frame where
  allows := Restored
  refl _ := ⟨rfl, rfl, rfl⟩
  trans h h' := ⟨h'.1.trans h.1, h'.2.trans h.2, h'.3.trans h.3⟩

def advanced : Frame where
  allows := Advanced
  refl _ := ⟨id, rfl, rfl⟩
  trans h h' := ⟨h'.1 ∘ h.1, h'.2.trans h.2, h'.3.trans h.3⟩

variable {α β : Type}

/-- Every run of a search leaves the context as the frame allows. -/
def Keeps (F : Frame) (m : Effects α) : Prop :=
  ∀ c g a c' g', m c g = .ok ((a, c'), g') → F.allows c c'

/-- A run of two searches in a row is a run of the first and then one of the second. -/
theorem bind_ok {m : Effects α} {f : α → Effects β} {b : β} {c c'' : EffectContext}
    {g g'' : Graph} (h : (m >>= f) c g = .ok ((b, c''), g'')) :
    ∃ a c' g', m c g = .ok ((a, c'), g') ∧ f a c' g' = .ok ((b, c''), g'') := by
  obtain ⟨p, g', hm, hf⟩ := (Query.bind_ok (m := m c) (f := fun p => f p.1 p.2)).mp h
  exact ⟨p.1, p.2, g', hm, hf⟩

namespace Keeps

variable {F : Frame}

theorem pure' (a : α) : F.Keeps (pure a : Effects α) := by
  intro c g b c' g' h
  cases h
  exact F.refl c

theorem throw' (e : Halt) : F.Keeps (throw e : Effects α) := by
  intro c g b c' g' h
  cases h

theorem bind' {m : Effects α} {f : α → Effects β} (hm : F.Keeps m) (hf : ∀ a, F.Keeps (f a)) :
    F.Keeps (m >>= f) := by
  intro c g b c'' g'' h
  obtain ⟨a, c', g', h1, h2⟩ := bind_ok h
  exact F.trans (hm c g a c' g' h1) (hf a c' g' b c'' g'' h2)

theorem get' : F.Keeps (get : Effects EffectContext) := by
  intro c g b c' g' h
  cases h
  exact F.refl c

theorem lift_bind {m : Query α} {f : α → Effects β} {p : α → Prop}
    (hp : ∀ g a g', m g = .ok (a, g') → p a) (hf : ∀ a, p a → F.Keeps (f a)) :
    F.Keeps ((liftM m : Effects α) >>= f) := by
  intro c g b c' g' h
  obtain ⟨a, c1, g1, hlift, hrun⟩ := bind_ok h
  obtain ⟨_, _, hm, hpure⟩ := (Query.bind_ok (f := fun a => pure (a, c))).mp hlift
  cases hpure
  exact hf a (hp g a g1 hm) c g1 b c' g' hrun

theorem advanced {m : Effects α} (h : Frame.restored.Keeps m) : Frame.advanced.Keeps m :=
  fun c g a c' g' hrun => (h c g a c' g' hrun).advanced

end Keeps

end Frame

open Winnow.Frame

/-! ## Wrappers -/

theorem lookAt_restored (e : Entity) (path : Path) (i : Interaction) :
    restored.Keeps (lookAt e path i) := by
  obtain ⟨use, receiver, arguments, isNew, site⟩ := i
  intro c g b c' g' h
  cases use with
  | called => cases isNew <;> cases h <;> exact ⟨rfl, rfl, rfl⟩
  | _ => cases h; exact ⟨rfl, rfl, rfl⟩

theorem withReceiver_run {α : Type} {v : VarId} {value : VarId → Entity} {search : Effects α}
    {c c' : EffectContext} {g g' : Graph} {a : α}
    (h : withReceiver (some v) value search c g = .ok ((a, c'), g')) :
    ∃ c1, search { c with receivers := (v, value v) :: c.receivers } g = .ok ((a, c1), g') ∧
      c' = { c1 with receivers := c1.receivers.tail } := by
  obtain ⟨_, _, _, hpush, h⟩ := bind_ok h
  cases hpush
  obtain ⟨a', c1, _, hrun, h⟩ := bind_ok h
  obtain ⟨_, _, _, hpop, h⟩ := bind_ok h
  cases hpop
  cases h
  exact ⟨c1, hrun, rfl⟩

/-- A frame under which receivers are what they were allows to bind one for a while. -/
theorem withReceiver_framed {F : Frame} {α : Type} (receiver : Option VarId)
    (value : VarId → Entity) {search : Effects α}
    (hF : ∀ {c c' : EffectContext} {e}, F.allows { c with receivers := e :: c.receivers } c' →
      F.allows c { c' with receivers := c'.receivers.tail }) (h : F.Keeps search) :
    F.Keeps (withReceiver receiver value search) := by
  cases receiver with
  | none => exact h
  | some v =>
    intro c g a c' g' hrun
    obtain ⟨c1, hsearch, rfl⟩ := withReceiver_run hrun
    exact hF (h _ _ _ _ _ hsearch)

theorem withinCall_restored {α : Type} {search : Effects α} (h : advanced.Keeps search) :
    restored.Keeps (withinCall search) := by
  intro c g a c' g' hrun
  obtain ⟨_, _, _, hget, hrun⟩ := bind_ok hrun
  cases hget
  obtain ⟨_, _, _, hset, hrun⟩ := bind_ok hrun
  cases hset
  obtain ⟨a', c1, g1, hsearch, hrun⟩ := bind_ok hrun
  obtain ⟨_, _, _, hmodify, hrun⟩ := bind_ok hrun
  cases hmodify
  cases hrun
  exact ⟨rfl, rfl, (h _ _ _ _ _ hsearch).receivers⟩

theorem eitherEffects_advanced {q : Queries} {consequent : Stmt} {alternate : Option Stmt}
    (hconsequent : advanced.Keeps (q.effects (Node.ofStmt consequent)))
    (halternate : ∀ s, alternate = some s → advanced.Keeps (q.effects (Node.ofStmt s))) :
    advanced.Keeps (eitherEffects q consequent alternate) := by
  intro c g b c' g' hrun
  obtain ⟨_, _, _, hget, hrun⟩ := bind_ok hrun
  cases hget
  obtain ⟨found, c1, g1, hfirst, hrun⟩ := bind_ok hrun
  have h1 := hconsequent _ _ _ _ _ hfirst
  split at hrun
  · cases hrun
    exact h1
  obtain ⟨_, _, _, hget, hrun⟩ := bind_ok hrun
  cases hget
  obtain ⟨_, _, _, hset, hrun⟩ := bind_ok hrun
  cases hset
  -- The alternate starts with the flow that the consequent started with.
  have hmended : Advanced c { c1 with brokenFlow := c.brokenFlow } :=
    ⟨id, h1.ignoreReturn, h1.receivers⟩
  cases alternate with
  | none =>
    cases hrun
    exact hmended
  | some s =>
    obtain ⟨found, c2, g2, hsecond, hrun⟩ := bind_ok hrun
    have h2 := advanced.trans hmended (halternate s rfl _ _ _ _ _ hsecond)
    split at hrun
    · cases hrun
      exact h2
    obtain ⟨_, _, _, hget, hrun⟩ := bind_ok hrun
    cases hget
    obtain ⟨_, _, _, hset, hrun⟩ := bind_ok hrun
    cases hset
    cases hrun
    refine ⟨fun hbroken => ?_, h2.ignoreReturn, h2.receivers⟩
    exact Bool.and_eq_true_iff.mpr ⟨h2.brokenFlow hbroken, h1.brokenFlow hbroken⟩

theorem setBroken_advanced : advanced.Keeps (setBroken true) := by
  intro c g b c' g' hrun
  cases hrun
  exact ⟨fun _ => rfl, rfl, rfl⟩

/-- Leaving the context as the frames allow is a property of searches, on any graph and with any
questions on the way. -/
def Frame.searches : SearchLogic where
  holds _ := True
  may _ := True
  asks _ := True
  uses := restored.Keeps
  runs := advanced.Keeps
  weaken := Keeps.advanced
  pure' := .pure'
  bind' := .bind'
  then' := .bind'
  lift_bind _ := .lift_bind
  graph hf c g := hf g trivial c g
  get' := .get'
  lookAt := lookAt_restored
  withReceiver receiver value _ := withReceiver_framed receiver value fun h =>
    ⟨h.brokenFlow, h.ignoreReturn, congrArg List.tail h.receivers⟩
  runs_withReceiver receiver value _ := withReceiver_framed receiver value fun h =>
    ⟨h.brokenFlow, h.ignoreReturn, congrArg List.tail h.receivers⟩
  withinCall := withinCall_restored
  setBroken := setBroken_advanced
  either := eitherEffects_advanced
  child _ _ := trivial
  node _ _ := trivial
  declared _ := trivial

theorem serves_ofDepth (depth : Nat) : Frame.searches.Serves (Queries.ofDepth depth) := by
  have hserves {q : Queries} (hinteract : ∀ e path i, restored.Keeps (q.interact e path i))
      (heffects : ∀ n, advanced.Keeps (q.effects n))
      (hexpression : ∀ n : Node, n.isStatement = false → restored.Keeps (q.effects n)) :
      Frame.searches.Serves q :=
    ⟨hinteract, fun _ => heffects _, fun _ => hexpression _, fun _ => trivial, fun _ _ => trivial,
      fun _ => trivial, fun _ _ => trivial, fun _ => trivial, fun _ => trivial,
      fun _ _ _ _ => trivial, fun _ _ _ => trivial⟩
  induction depth with
  | zero => exact hserves (fun _ _ _ => .throw' _) (fun _ => .throw' _) fun _ _ => .throw' _
  | succ depth ih =>
    exact hserves ih.interacts (fun _ => ih.executes trivial) fun _ => ih.evaluates trivial

/-- **Searches for effects leave the context as they found it.** Looking at a use and evaluating
anything but a statement put back the flow of control and the receivers; a statement puts back all
but a flow that it breaks. -/
theorem search_restores (depth : Nat) (c c' : EffectContext) (g g' : Graph) (found : Bool) :
    (∀ e path i, (Queries.ofDepth depth).interact e path i c g = .ok ((found, c'), g') →
      Restored c c') ∧
    (∀ n, (Queries.ofDepth depth).effects n c g = .ok ((found, c'), g') →
      Advanced c c' ∧ (n.isStatement = false → Restored c c')) := by
  have hserves := serves_ofDepth depth
  constructor
  · intro e path i hrun
    exact hserves.interact e path i c g found c' g' hrun
  · intro n hrun
    refine ⟨hserves.effects trivial c g found c' g' hrun, fun hn => ?_⟩
    exact hserves.expression trivial hn c g found c' g' hrun

/-- A constructor that writes to the new object and returns, and an instance made by it. -/
def earlyReturn : Files :=
  [(utf8 "m", utf8 "function F(n) \x7b this.a = n; return; \x7d new F(1);")]

/-- What a search answers, and how many constructions it has looked at; nothing if it halts. -/
def Effects.glance (search : Effects Bool) (c : EffectContext) (g : Graph) : Option (Bool × Nat) :=
  (search c g).toOption.map fun r => (r.1.1, r.1.2.constructed.entries.length)

set_option maxRecDepth 100000 in
/-- The constructor is looked at with its own receiver and a flow of its own; neither is left. -/
theorem search_restores_earlyReturn : ∃ g n c c' g', g.BuiltFrom earlyReturn [utf8 "m"] {} ∧
    n.isStatement = false ∧ c.brokenFlow = true ∧ c.receivers = [(0, .unknown)] ∧
    (Queries.ofDepth 20).effects n c g = .ok ((false, c'), g') ∧
    c'.constructed.entries.length = 1 ∧ Restored c c' := by
  let g : Graph := .ofFiles earlyReturn [utf8 "m"] {}
  let c : EffectContext := { brokenFlow := true, receivers := [(0, .unknown)] }
  have hbuilt := Graph.builtFrom_ofFiles earlyReturn [utf8 "m"] {} (by decide +kernel)
  let n : Node := (g.node? 13).getD default
  have hrun : n.isStatement = false ∧
      ((Queries.ofDepth 20).effects n).glance c g = some (false, 1) := by
    decide +kernel
  obtain ⟨hn, hglance⟩ := hrun
  obtain ⟨r, hr, hanswer⟩ := Option.map_eq_some_iff.mp hglance
  cases hresult : (Queries.ofDepth 20).effects n c g with
  | error e => rw [hresult] at hr; cases hr
  | ok p =>
    rw [hresult] at hr
    cases hr
    obtain ⟨⟨found, c'⟩, g'⟩ := r
    obtain ⟨rfl, hconstructed⟩ := Prod.mk.inj hanswer
    have hrestored := ((search_restores _ c c' g g' _).2 n hresult).2 hn
    exact ⟨g, n, c, c', g', hbuilt, hn, rfl, rfl, hresult, hconstructed, hrestored⟩

end Winnow
