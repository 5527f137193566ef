import Winnow.Proofs.Resting
import Winnow.Proofs.Walks

/-!
# Bets

A branch that was found out is a bet on the facts it was derived from. `Backed P` says that every
such branch still rests on facts, but for those of the origins in `P`, who have yet to be told of a
loss. Losing a fact puts its dependents there (`Sheds`), telling them takes them off again, and all
other questions leave every bet backed (`betting_answers`).
-/

namespace Winnow

open Winnow.Graph Query Conduct BranchState Queries Node Keeps List

variable {t : Expr} {f : Facts → Facts} {i : Info} {ps : List Property} {m : Node} {id : NodeId}
  {a : Unit} {choose : Value → Option Bool}

section

variable {frame : Places} {depth : Nat}

/-- Every branch that was found out rests on something, but for those of some origins. -/
def Backed (frame : Places) (depth : Nat)
    (pending : List Origin) (g : Graph) : Prop :=
  ∀ ⦃n t choose b⦄, Held g.node? n → n.test? = some (t, choose) →
    (g.facts n.id).branch = .ofChoice b → .node n.id ∈ pending ∨
      ∃ flight v, choose v = some b ∧ Rests frame (.node n.id) flight depth g t.entity [] v

/-- From one graph to the next only what some origins rely on is lost, and no branch is found
out. -/
structure Sheds (lost : List Origin) (g g' : Graph) : Prop where
  frame : g'.frame = g.frame
  stands : ∀ o, o ∉ lost → Stands o g g'
  branches : ∀ {k b}, (g'.facts k).branch = .ofChoice b → (g.facts k).branch = .ofChoice b

section

variable {pending lost : List Origin} {g g' : Graph}

theorem Backed.sheds (hg : Backed frame depth pending g) (h : Sheds lost g g') :
    Backed frame depth (lost ++ pending) g' := by
  intro n t choose b hn ht hb
  by_cases hlost : Origin.node n.id ∈ lost
  · exact .inl (mem_append_left _ hlost)
  · rcases hg (node?_of_frame h.frame ▸ hn) ht (h.branches hb) with hp | ⟨flight, v, hv, hrests⟩
    · exact .inl (mem_append_right _ hp)
    · exact .inr ⟨flight, v, hv, hrests.stands (h.stands _ hlost)⟩

theorem Backed.sheds_nil (hg : Backed frame depth pending g) (h : Sheds [] g g') :
    Backed frame depth pending g' := hg.sheds h

theorem Backed.mono (hg : Backed frame depth pending g) {pending' : List Origin}
    (h : pending ⊆ pending') : Backed frame depth pending' g := by
  intro n t choose b hn ht hb
  exact (hg hn ht hb).imp_left fun hp => h hp

theorem Backed.drop {o : Origin} (hg : Backed frame depth (o :: pending) g)
    (h : ∀ {n b}, Held g.node? n → n.test?.isSome = true → o = .node n.id →
      (g.facts n.id).branch ≠ .ofChoice b) : Backed frame depth pending g := by
  intro n t choose b hn ht hb
  rcases hg hn ht hb with hp | hrests
  · rcases mem_cons.mp hp with heq | hp
    · exact absurd hb (h hn (by rw [ht]; rfl) heq.symm)
    · exact .inl hp
  · exact .inr hrests

theorem Backed.drop_node (hg : Backed frame depth (.node m.id :: pending) g) (hm : Held g.node? m)
    (ht : m.test? = none) : Backed frame depth pending g := by
  refine hg.drop fun {n b} hn hsome hid => ?_
  cases hn.unique hm (Origin.node.inj hid).symm
  rw [ht] at hsome
  cases hsome

theorem Backed.drop_open {k : NodeId} (hg : Backed frame depth (.node k :: pending) g)
    (hb : ∀ b, (g.facts k).branch ≠ .ofChoice b) : Backed frame depth pending g :=
  hg.drop fun {_ b} _ _ hid => Origin.node.inj hid ▸ hb b

end

/-! ## Those who wait to be told -/

/-- Whoever waits to be told of a loss goes on waiting: the dependents of a conditional expression
whose branch is unknown, and those of an object that is forgotten. One node may be left out. -/
structure Waits (table : NodeId → Option Node) (skip : Option NodeId) (g g' : Graph) : Prop where
  branches : ∀ {x}, Held table (.expr x) → (Node.expr x).test?.isSome = true →
    some x.info.id ≠ skip → (g.facts x.info.id).branch = .unknown →
    (g'.facts x.info.id).branch = .unknown ∧
      (g.facts x.info.id).dependents ⊆ (g'.facts x.info.id).dependents
  keys : ∀ {i ps}, Held table (.expr (.object i ps)) → some i.id ≠ skip →
    (g.facts i.id).forgotten = true → (g'.facts i.id).forgotten = true ∧
      ∀ key, (g.facts i.id).dependentsAt key ⊆ (g'.facts i.id).dependentsAt key

namespace Waits

variable {table : NodeId → Option Node} {skip : Option NodeId} {g g' g'' : Graph}

theorem refl (g : Graph) : Waits table skip g g :=
  ⟨fun _ _ _ h => ⟨h, fun _ => id⟩, fun _ _ h => ⟨h, fun _ _ => id⟩⟩

theorem trans (h : Waits table skip g g') (h' : Waits table skip g' g'') :
    Waits table skip g g'' where
  branches := fun hx ht hs hb => by
    obtain ⟨hb', hd⟩ := h.branches hx ht hs hb
    obtain ⟨hb'', hd'⟩ := h'.branches hx ht hs hb'
    exact ⟨hb'', fun _ ha => hd' (hd ha)⟩
  keys := fun hi hs hf => by
    obtain ⟨hf', hd⟩ := h.keys hi hs hf
    obtain ⟨hf'', hd'⟩ := h'.keys hi hs hf'
    exact ⟨hf'', fun key _ ha => hd' key (hd key ha)⟩

theorem but (h : Waits table none g g') (skip : Option NodeId) : Waits table skip g g' :=
  ⟨fun hx ht _ => h.branches hx ht nofun, fun hi _ => h.keys hi nofun⟩

theorem all (h : Waits table (some id) g g')
    (hbranch : ∀ x, Held table (.expr x) → (expr x).test?.isSome = true → x.info.id = id →
      (g.facts id).branch ≠ .unknown)
    (hkeys : ∀ i ps, Held table (.expr (.object i ps)) → i.id = id →
      (g.facts id).forgotten = false) : Waits table none g g' where
  branches := fun {x} hx ht _ hb => by
    by_cases heq : x.info.id = id
    · exact absurd (heq ▸ hb) (hbranch x hx ht heq)
    · exact h.branches hx ht (by simpa using heq) hb
  keys := fun {i ps} hi _ hf => by
    by_cases heq : i.id = id
    · rw [heq, hkeys i ps hi heq] at hf
      cases hf
    · exact h.keys hi (by simpa using heq) hf

theorem learns (h : Learns g g') : Waits table skip g g' where
  branches := fun {x} _ _ _ hb =>
    ⟨((h.facts x.info.id).branch (hb ▸ nofun)).trans hb, (h.facts x.info.id).dependents⟩
  keys := fun {i _} _ _ hf =>
    ⟨(h.facts i.id).forgotten.trans hf, (h.facts i.id).dependentsAt⟩

theorem of_facts (h : ∀ k, g'.facts k = g.facts k) : Waits table skip g g' where
  branches := fun {x} _ _ _ hb => by rw [h]; exact ⟨hb, fun _ => id⟩
  keys := fun {i ps} _ _ hf => by rw [h]; exact ⟨hf, fun _ _ => id⟩

theorem modifyFacts
    (hbranch : ∀ x, Held table (.expr x) → (expr x).test?.isSome = true → x.info.id = id →
      some id ≠ skip → (g.facts id).branch = .unknown → (f (g.facts id)).branch = .unknown ∧
        (g.facts id).dependents ⊆ (f (g.facts id)).dependents)
    (hkeys : ∀ i ps, Held table (.expr (.object i ps)) → i.id = id → some id ≠ skip →
      (g.facts id).forgotten = true → (f (g.facts id)).forgotten = true ∧
        ∀ key, (g.facts id).dependentsAt key ⊆ (f (g.facts id)).dependentsAt key) :
    Waits table skip g (g.modifyFacts id f) where
  branches := fun {x} hx ht hs hb => by
    rcases facts_modifyFacts_cases g id f x.info.id with h | ⟨heq, h⟩
    · rw [h]; exact ⟨hb, fun _ h => h⟩
    · subst heq; rw [h]; exact hbranch x hx ht rfl hs hb
  keys := fun {i ps} hi hs hf => by
    rcases facts_modifyFacts_cases g id f i.id with h | ⟨heq, h⟩
    · rw [h]; exact ⟨hf, fun _ _ h => h⟩
    · subst heq; rw [h]; exact hkeys i ps hi rfl hs hf

theorem modifyFacts_skip : Waits table (some id) g (g.modifyFacts id f) :=
  .modifyFacts (fun _ _ _ _ h => absurd rfl h) fun _ _ _ _ h => absurd rfl h

/-- Nobody waits at a node that has no branch and is no object. -/
theorem modifyFacts_other (hm : Held table m) (h : ∀ x, m = .expr x →
    (expr x).test? = none ∧ ∀ i ps, x ≠ .object i ps) :
    Waits table skip g (g.modifyFacts m.id f) := by
  refine .modifyFacts (fun x hx ht heq => ?_) fun i ps hi heq => ?_
  · rw [(h x (hm.unique hx heq.symm)).1] at ht
    cases ht
  · exact absurd rfl ((h _ (hm.unique hi heq.symm)).2 i ps)

end Waits

/-! ## Single losses -/

section

variable {lost : List Origin} {g g' : Graph}

/-- What is included has no part in what is lost. -/
theorem Sheds.of_same (hframe : g'.frame = g.frame)
    (hvars : ∀ {v w}, g.var? v = some w → ∃ b, g'.var? v = some { w with included := b })
    (hfacts : ∀ k, g'.facts k = { g.facts k with included := (g'.facts k).included }) :
    Sheds lost g g' where
  frame := hframe
  stands := fun o _ => {
    frame := hframe
    vars := fun hw => by
      obtain ⟨b, hw'⟩ := hvars hw
      exact ⟨_, hw', rfl, rfl, fun hr ho => ⟨hr, ho⟩⟩
    keys := fun {i ps key} _ hf hk ho => by rw [hfacts]; exact ⟨hf, hk, ho⟩
    calls := fun {i isNew callee as e} _ hr _ ho => by rw [hfacts]; exact ⟨hr, ho⟩
    branches := fun {x b} _ _ hb ho => by rw [hfacts]; exact ⟨hb, ho⟩ }
  branches := fun {k b} hb => by rwa [hfacts] at hb

theorem Sheds.modifyVar {id : VarId} {f : Variable → Variable}
    (hname : ∀ w, (f w).name = w.name) (hform : ∀ w, (f w).form = w.form)
    (hf : ∀ {w o}, g.var? id = some w → o ∉ lost → w.reassigned = false → o ∈ w.dependents →
      (f w).reassigned = false ∧ o ∈ (f w).dependents) : Sheds lost g (g.modifyVar id f) where
  frame := rfl
  stands := fun o ho => {
    frame := rfl
    vars := fun {v w} hw => by
      rw [var?_modifyVar]
      split
      · rename_i heq
        subst heq
        exact ⟨f w, by rw [hw]; rfl, hname w, hform w, hf hw ho⟩
      · exact ⟨w, hw, rfl, rfl, fun hr ho => ⟨hr, ho⟩⟩
    keys := fun _ hf hk ho => ⟨hf, hk, ho⟩
    calls := fun _ hr _ ho => ⟨hr, ho⟩
    branches := fun _ _ hb ho => ⟨hb, ho⟩ }
  branches := fun hb => hb

/-- What an origin relies on stands after a change to what is known of a node, if the node keeps
what it is relied on for. That depends on the kind of node. -/
theorem Stands.modifyFacts {o : Origin} (hm : g.node? id = some m)
    (hkeys : ∀ i ps key, m = .expr (.object i ps) → (g.facts id).forgotten = false →
      key ∉ (g.facts id).forgottenKeys → o ∈ (g.facts id).dependentsAt key →
      (f (g.facts id)).forgotten = false ∧ key ∉ (f (g.facts id)).forgottenKeys ∧
        o ∈ (f (g.facts id)).dependentsAt key)
    (hcalls : ∀ i isNew callee as e, m = .expr (.call i isNew callee as) →
      (g.facts id).returned = some e → e ≠ .unknown → o ∈ (g.facts id).dependents →
      (f (g.facts id)).returned = some e ∧ o ∈ (f (g.facts id)).dependents)
    (hbranches : ∀ x b, m = .expr x → (expr x).test?.isSome = true →
      (g.facts id).branch = .ofChoice b → o ∈ (g.facts id).dependents →
      (f (g.facts id)).branch = .ofChoice b ∧ o ∈ (f (g.facts id)).dependents) :
    Stands o g (g.modifyFacts id f) where
  frame := frame_modifyFacts g id f
  vars := fun {v w} hw => ⟨w, hw, rfl, rfl, fun hr ho => ⟨hr, ho⟩⟩
  keys := fun {i ps key} hi hf hk hmem => by
    rcases facts_modifyFacts_cases g id f i.id with h | ⟨rfl, h⟩
    · rw [h]; exact ⟨hf, hk, hmem⟩
    · rw [h]; exact hkeys i ps key (Option.some.inj (hm.symm.trans hi)) hf hk hmem
  calls := fun {i isNew callee as e} hi hr he hmem => by
    rcases facts_modifyFacts_cases g id f i.id with h | ⟨rfl, h⟩
    · rw [h]; exact ⟨hr, hmem⟩
    · rw [h]
      exact hcalls i isNew callee as e (Option.some.inj (hm.symm.trans hi)) hr he hmem
  branches := fun {x b} hx ht hb hmem => by
    rcases facts_modifyFacts_cases g id f x.info.id with h | ⟨rfl, h⟩
    · rw [h]; exact ⟨hb, hmem⟩
    · rw [h]; exact hbranches x b (Option.some.inj (hm.symm.trans hx)) ht hb hmem

theorem Sheds.modifyFacts {n : NodeId} (hs : ∀ o, o ∉ lost → Stands o g (g.modifyFacts n f))
    (hnew : ∀ b, (f (g.facts n)).branch = .ofChoice b → (g.facts n).branch = .ofChoice b) :
    Sheds lost g (g.modifyFacts n f) where
  frame := frame_modifyFacts g n f
  stands := hs
  branches := fun {k b} hb => by
    rcases facts_modifyFacts_cases g n f k with h | ⟨rfl, h⟩
    · rwa [h] at hb
    · rw [h] at hb; exact hnew b hb

end

/-! ## Questions that lose nothing -/

/-- Questions leave bets backed, and those who wait waiting. -/
structure Bets (frame : Places)
    (depth : Nat) (g g' : Graph) : Prop where
  waits : Waits (tableOf frame) none g g'
  backed : ∀ {pending}, Backed frame depth pending g → Backed frame depth pending g'

namespace Bets

variable {g g' g'' : Graph}

theorem refl (g : Graph) : Bets frame depth g g := ⟨.refl g, id⟩

theorem trans (h : Bets frame depth g g') (h' : Bets frame depth g' g'') : Bets frame depth g g'' :=
  ⟨h.waits.trans h'.waits, fun hg => h'.backed (h.backed hg)⟩

theorem of_learns (he : Evolves g g') (h : Learns g g')
    (hb : ∀ k, (g'.facts k).branch = (g.facts k).branch) : Bets frame depth g g' :=
  ⟨.learns h, fun hg => hg.sheds_nil
    ⟨he.frame, fun _ _ => .learns he h, fun hk => (hb _).symm.trans hk⟩⟩

theorem untracked {t t' : Tracker Entity} (h : Bets frame depth { g with tracker := t } g') :
    Bets frame depth g { g' with tracker := t' } := by
  refine ⟨⟨h.waits.branches, h.waits.keys⟩, fun hg => ?_⟩
  have hg' := h.backed fun n t choose b hn ht hb => (hg hn ht hb).imp_right ?_
  · intro n t choose b hn ht hb
    refine (hg' hn ht hb).imp_right ?_
    rintro ⟨flight, v, hv, hrests⟩
    exact ⟨flight, v, hv, fun g'' hg'' hs => hrests g'' hg'' hs.of_tracker⟩
  · rintro ⟨flight, v, hv, hrests⟩
    exact ⟨flight, v, hv, fun g'' hg'' hs => hrests g'' hg'' hs.of_tracker⟩

end Bets

def betting (frame : Places)
    (depth : Nat) : Conduct :=
  (drifting frame).also (Bets frame depth) Bets.refl Bets.trans

theorem betting_of_learning {α : Type} {m : Query α} (h : (learning frame).Keeps m)
    (hb : ∀ g a g', m g = .ok (a, g') → ∀ k, (g'.facts k).branch = (g.facts k).branch) :
    (betting frame depth).Keeps m := by
  intro g a g' hg hrun
  obtain ⟨hg', hd, hl⟩ := h g a g' hg hrun
  exact ⟨hg', hd, .of_learns hd.toEvolves hl (hb g a g' hrun)⟩

theorem branch_of_modifyFacts {g g' : Graph} (hrun : Query.modifyFacts id f g = .ok (a, g'))
    (hf : ∀ x, (f x).branch = x.branch) (k : NodeId) :
    (g'.facts k).branch = (g.facts k).branch := by
  cases hrun
  rcases facts_modifyFacts_cases g id f k with h | ⟨-, h⟩
  · exact congrArg Facts.branch h
  · exact (congrArg Facts.branch h).trans (hf _)

theorem betting_rules (hc : Covers (tableOf frame)) :
    Rules (betting frame depth) (tableOf frame) where
  roads := .all fun _ => trivial
  same := (drifting_rules hc).same
  covers := hc
  member := fun m key => by
    refine also ((drifting_rules hc).member m key) fun g a g' hg hrun => ?_
    have hl := member_linked hg hrun
    refine .of_learns (.linked hl) (.linked hl) fun k => ?_
    rw [show g'.facts k = g.facts k by simp [Graph.facts, Graph.record?, hl.nodes]]
  tracks := drifting_tracks.also fun _ _ h => h.untracked
  addVarDependent := fun v o => betting_of_learning ((learning_rules hc).addVarDependent v o) <| by
    intro g a g' hrun k
    cases hrun
    rfl
  addDependent := fun n o => betting_of_learning ((learning_rules hc).addDependent n o)
    fun _ _ _ hrun => branch_of_modifyFacts hrun fun _ => rfl
  addKeyDependent := fun n key o =>
    betting_of_learning ((learning_rules hc).addKeyDependent n key o) <| by
      intro g a g' hrun k
      cases o with
      | none => cases hrun; rfl
      | some o => exact branch_of_modifyFacts hrun (fun _ => rfl) k
  newUnion := fun es => betting_of_learning ((learning_rules hc).newUnion es) <| by
    intro g a g' hrun k
    cases hrun
    rfl
  applied := fun n => betting_of_learning ((learning_rules hc).applied n)
    fun _ _ _ hrun => branch_of_modifyFacts hrun fun _ => rfl

/-! ## Finding out branches and results -/

theorem Node.test?_unknown {n : Node} (h : n.test? = some (t, choose)) :
    choose .unknown = none := by
  unfold test? at h
  split at h <;> cases h <;> rfl

section

variable (hc : Covers (tableOf frame)) {n : Nat}
include hc

theorem branchOf_bets (hn : n ≤ depth) (hq : Asks (betting frame depth) (ofDepth n))
    (hm : Held (tableOf frame) m) (ht : m.test? = some (t, choose)) :
    (betting frame depth).Keeps (branchOf (ofDepth n) m.id t choose) := by
  have hlearning := branchOf_learns hc (learning_asks hc n) m.id t choose
  refine also hlearning.of_also fun g state g' hg hrun => ?_
  refine ⟨.learns (hlearning g state g' hg hrun).2.2, fun {pending} hback => ?_⟩
  have hm0 := held_node? hg hm
  rcases branchOf_ok hrun with ⟨-, -, rfl⟩ | ⟨hnone, v, g1, hask, hend⟩
  · exact hback
  have hback0 := hback.sheds_nil (Sheds.modifyFacts
    (f := fun f => { f with branch := .unknown })
    (fun o _ => Stands.modifyFacts hm0 (fun _ _ _ _ hf hk ho => ⟨hf, hk, ho⟩)
      (fun _ _ _ _ _ _ hr _ ho => ⟨hr, ho⟩) fun _ b _ _ hb _ =>
        absurd (hb.symm.trans hnone) (ofChoice_ne_unresolved b))
    fun b hb => absurd hb.symm (ofChoice_ne_unknown b))
  have hg0 := holds_modifyFacts hg m.id fun f => { f with branch := .unknown }
  obtain ⟨hg1, hd1, hbets⟩ := (betting_rules hc).tracks.onBehalfOf m.id (hq.literal _ _ _) _ _ _ hg0 hask
  obtain ⟨-, -, hlearns⟩ := (learning_rules hc).tracks.onBehalfOf m.id
    ((learning_asks hc n).literal _ _ _) _ _ _ hg0 hask
  have hback1 := hbets.backed hback0
  rcases hend with ⟨-, -, rfl⟩ | ⟨b, hb, rfl, -⟩
  · exact hback1
  -- Nobody relies on the branch yet, so writing it down takes nothing away.
  have hunknown : (g1.facts m.id).branch = .unknown := by
    have h0 : ((g.modifyFacts m.id fun f => { f with branch := .unknown }).facts m.id).branch =
        .unknown := by rw [facts_modifyFacts_self hm0]
    exact ((hlearns.facts m.id).branch (by rw [h0]; nofun)).trans h0
  have hm1 := held_node? hg1 hm
  have hstands : ∀ o, Stands o g1 (g1.modifyFacts m.id fun f =>
      { f with branch := if b then .consequent else .alternate }) := fun o =>
    Stands.modifyFacts hm1 (fun _ _ _ _ hf hk ho => ⟨hf, hk, ho⟩)
      (fun _ _ _ _ _ _ hr _ ho => ⟨hr, ho⟩) fun _ b _ _ hb _ =>
        absurd (hb.symm.trans hunknown) (ofChoice_ne_unknown b)
  intro n' t' choose' b' hn' ht' hb'
  rw [node?_of_frame (frame_modifyFacts g1 _ _)] at hn'
  by_cases heq : n'.id = m.id
  · obtain rfl : n' = m := hn'.unique hm1 heq
    rw [ht] at ht'
    cases ht'
    rw [facts_modifyFacts_self hm1] at hb'
    have hbb : b' = b := by cases b <;> cases b' <;> first | rfl | cases hb'
    have hv : v ≠ .unknown := by
      rintro rfl
      rw [test?_unknown ht] at hb
      cases hb
    have hrests : ∃ flight, Rests frame (.node n'.id) flight n g1 t.entity [] v := by
      rcases onBehalfOf_ok hask with h | ⟨g2, h, rfl⟩
      · exact ⟨_, literal_rests hc n hg0 h hv⟩
      · have hrests := literal_rests hc n (holds_tracker hg0 _) h hv
        exact ⟨_, fun g'' hg'' hs => hrests g'' hg'' hs.of_tracker⟩
    obtain ⟨flight, hrests⟩ := hrests
    exact .inr ⟨flight, v, hbb ▸ hb, (hrests.mono hn).stands (hstands _)⟩
  · rw [facts_modifyFacts_ne _ _ (Ne.symm heq)] at hb'
    refine (hback1 hn' ht' hb').imp_right ?_
    rintro ⟨flight, v', hv', hrests⟩
    exact ⟨flight, v', hv', hrests.stands (hstands _)⟩

theorem returnOf_bets (hq : Asks (betting frame depth) (ofDepth n)) {isNew : Bool}
    {callee : Expr} {as : List Expr} (hi : Held (tableOf frame) (.expr (.call i isNew callee as))) :
    (betting frame depth).Keeps (returnOf (ofDepth n) i isNew callee as) := by
  have hlearning := returnOf_learns (learning_asks hc n) i isNew callee as
  refine also hlearning.of_also fun g e g' hg hrun => ?_
  refine ⟨.learns (hlearning g e g' hg hrun).2.2, fun {pending} hback => ?_⟩
  have hi0 : g.node? i.id = some (.expr (.call i isNew callee as)) := held_node? hg hi
  rcases returnOf_ok hrun with ⟨-, rfl⟩ | ⟨hnone, use, g1, hask, rfl⟩
  · exact hback
  have hback0 := hback.sheds_nil (Sheds.modifyFacts
    (f := fun f => { f with returned := some .unknown })
    (fun o _ => Stands.modifyFacts hi0 (fun _ _ _ _ hf hk ho => ⟨hf, hk, ho⟩)
      (fun _ _ _ _ _ _ hr => absurd (hr.symm.trans hnone) nofun)
      fun _ _ _ _ hb ho => ⟨hb, ho⟩) fun _ => id)
  have hg0 := holds_modifyFacts hg i.id fun f => { f with returned := some .unknown }
  obtain ⟨hg1, hd1, hbets⟩ := hq.returned _ _ _ _ _ _ _ hg0 hask
  obtain ⟨-, -, hlearns⟩ := (learning_asks hc n).returned _ _ _ _ _ _ _ hg0 hask
  have hunknown : (g1.facts i.id).returned = some .unknown :=
    (hlearns.facts i.id).returned (by rw [facts_modifyFacts_self hi0])
  refine (hbets.backed hback0).sheds_nil (Sheds.modifyFacts
    (fun o _ => Stands.modifyFacts (held_node? hg1 hi) (fun _ _ _ _ hf hk ho => ⟨hf, hk, ho⟩)
      (fun _ _ _ _ e' _ hr he => absurd (Option.some.inj (hr.symm.trans hunknown)) he)
      fun _ _ _ _ hb ho => ⟨hb, ho⟩) fun _ => id)

theorem finds_bets (hn : n ≤ depth) (hq : Asks (betting frame depth) (ofDepth n)) :
    Finds (betting frame depth) (tableOf frame) (ofDepth n) where
  toAsks := hq
  branchOf := fun _ _ _ hm ht => branchOf_bets hc hn hq hm ht
  returnOf := fun _ _ _ _ hi => returnOf_bets hc hq hi

end

/-! ## Telling -/

/-- Some origins were told of a loss, and have nothing pending any more. -/
structure Told (frame : Places)
    (depth : Nat) (os : List Origin) (g g' : Graph) : Prop where
  drifts : Drifts g g'
  waits : Waits (tableOf frame) none g g'
  backed : ∀ {pending}, Backed frame depth (os ++ pending) g → Backed frame depth pending g'

theorem betting_step {g g' : Graph} (hg' : (drifting frame).holds g') (hd : Drifts g g')
    (hwaits : Waits (tableOf frame) none g g') (hsheds : Sheds [] g g') :
    (betting frame depth).holds g' ∧ (betting frame depth).allows g g' :=
  ⟨hg', hd, hwaits, fun hback => hback.sheds hsheds⟩

variable (frame depth) in
theorem requestPass_bets (n : NodeId) : (betting frame depth).Keeps (requestPass n) := by
  intro g a g' hg hrun
  obtain ⟨hg', hd⟩ := drifting_losses.request _ g a g' hg hrun
  have hsame : ∀ h : Graph, (if (g.moduleOf n).isSome then g.requestPass else g) = h →
      (∀ k, h.facts k = g.facts k) ∧ ∀ v, h.var? v = g.var? v := by
    rintro h rfl
    split <;> exact ⟨fun _ => rfl, fun _ => rfl⟩
  obtain ⟨hfacts, hvars⟩ := hsame g' (congrArg Prod.snd (Except.ok.inj hrun))
  exact betting_step hg' hd (.of_facts hfacts) (.of_same hd.frame
    (fun {v _} hw => ⟨_, (hvars v).trans hw⟩) fun k => by rw [hfacts])

theorem modifyVar_bets (v : VarId) {f : Variable → Variable}
    (hf : ∀ w : Variable, w.Evolves (f w)) (hincluded : ∀ w, (f w).included = w.included)
    (hr : ∀ w, (f w).reassigned = w.reassigned) (hd : ∀ w, (f w).dependents = w.dependents) :
    (betting frame depth).Keeps (modify fun g => g.modifyVar v f) := by
  intro g a g' hg hrun
  obtain ⟨hg', hdrifts⟩ := modifyVar_drifts v hf hincluded g a g' hg hrun
  cases hrun
  refine betting_step hg' hdrifts (.of_facts fun _ => rfl) (.modifyVar (fun w => (hf w).name)
    (fun w => (hf w).form) fun {w o} _ _ hr' ho => ?_)
  rw [hr, hd]
  exact ⟨hr', ho⟩

/-- A node has one kind: where another expression stands, there is no branch to wait for. -/
theorem not_test_of_held {y x : Expr} (hy : Held (tableOf frame) (.expr y)) (hid : y.info.id = id)
    (hnone : (expr y).test? = none) (hx : Held (tableOf frame) (.expr x))
    (ht : (expr x).test?.isSome = true) : x.info.id ≠ id := by
  intro heq
  cases hx.unique hy (heq.trans hid.symm)
  rw [hnone] at ht
  cases ht

theorem dependentsAt_clear (f : Facts) (key : Bytes) (k : Key) :
    { f with keyDependents := f.keyDependents.map fun e : Bytes × List Origin =>
        if e.1 = key then (key, []) else e }.dependentsAt k =
      if k = key then [] else f.dependentsAt k := by
  simp only [Facts.dependentsAt]
  induction f.keyDependents with
  | nil => simp
  | cons e l ih =>
    obtain ⟨j, ds⟩ := e
    by_cases hj : j = key
    · subst hj
      by_cases hk : k = j
      · simp [hk]
      · simpa [lookup_cons, beq_false_of_ne hk] using ih
    · by_cases hk : k = j
      · subst hk
        simp [hj]
      · simpa [lookup_cons, beq_false_of_ne hk, hj] using ih

section

variable {q : Queries} {g g' : Graph}
  (hq : Answers (betting frame depth) (tableOf frame) (fun o => Told frame depth [o]) q)
include hq

theorem invalidateAll_told : ∀ (os : List Origin) {a : PUnit} {g g' : Graph},
    (drifting frame).holds g → os.forM q.invalidate g = .ok (a, g') →
    (drifting frame).holds g' ∧ Told frame depth os g g'
  | [], _, g, g', hg, hrun => by
    cases hrun
    exact ⟨hg, .refl g, .refl g, id⟩
  | o :: os, _, g, g', hg, hrun => by
    obtain ⟨_, g1, hrun1, hrun⟩ := bind_ok.mp hrun
    obtain ⟨hg1, h1⟩ := hq.invalidate o g _ g1 hg hrun1
    obtain ⟨hg', h'⟩ := invalidateAll_told os hg1 hrun
    exact ⟨hg', h1.drifts.trans h'.drifts, h1.waits.trans h'.waits,
      fun hback => h'.backed (h1.backed hback)⟩

/-- Telling the dependents of something takes them off those who have yet to be told. -/
theorem notify_told {os : List Origin} (hg : (drifting frame).holds g)
    (hrun : notify q os g = .ok (a, g')) :
    (drifting frame).holds g' ∧ Told frame depth os g g' := by
  obtain ⟨hg', h⟩ := invalidateAll_told hq os.eraseDups hg hrun
  refine ⟨hg', h.drifts, h.waits, fun hback => h.backed (hback.mono fun o ho => ?_)⟩
  simpa [mem_eraseDups] using ho

/-- A variable that is assigned to loses its initial value, and whoever relied on it is told. -/
theorem reassign_bets (id : VarId) : (betting frame depth).Keeps (do
    modify fun g => g.modifyVar id fun v => { v with reassigned := true }
    notifyVar q id) := by
  intro g a g' hg hrun
  obtain ⟨_, g1, hrun1, hrun⟩ := bind_ok.mp hrun
  obtain ⟨hg1, hd1⟩ := modifyVar_drifts id (f := fun w => { w with reassigned := true })
    (fun _ => ⟨rfl, fun h => h, fun _ => rfl⟩) (fun _ => rfl) g _ g1 hg hrun1
  cases hrun1
  replace hrun := get_ok hrun
  obtain ⟨_, g2, hrun2, hrun⟩ := bind_ok.mp hrun
  obtain ⟨hg2, hd2⟩ := modifyVar_drifts id (f := fun w => { w with dependents := [] })
    (fun _ => ⟨rfl, fun h => h, fun h => h⟩) (fun _ => rfl) _ _ g2 hg1 hrun2
  cases hrun2
  obtain ⟨hg', htold⟩ := notify_told hq hg2 hrun
  have h1 : Sheds ((((g.modifyVar id fun v => { v with reassigned := true }).var? id).map
      Variable.dependents).getD []) g (g.modifyVar id fun v => { v with reassigned := true }) := by
    refine .modifyVar (fun _ => rfl) (fun _ => rfl) fun {w o} hw ho _ hmem => absurd ?_ ho
    simpa [hw] using hmem
  have h2 : Sheds [] (g.modifyVar id fun v => { v with reassigned := true })
      ((g.modifyVar id fun v => { v with reassigned := true }).modifyVar id fun w =>
        { w with dependents := [] }) := by
    refine .modifyVar (fun _ => rfl) (fun _ => rfl) fun {w o} hw _ hr => ?_
    rw [var?_modifyVar, if_pos rfl] at hw
    obtain ⟨w', -, rfl⟩ := Option.map_eq_some_iff.mp hw
    cases hr
  have hwaits : Waits (tableOf frame) none g ((g.modifyVar id fun v =>
      { v with reassigned := true }).modifyVar id fun w => { w with dependents := [] }) :=
    .of_facts fun _ => rfl
  exact ⟨hg', (hd1.trans hd2).trans htold.drifts, hwaits.trans htold.waits,
    fun hback => htold.backed ((hback.sheds h1).sheds h2)⟩

theorem forgetInit_bets (id : VarId) (init : NodeId) (path : Path) :
    (betting frame depth).Keeps (forgetInit q id init path) := by
  refine get_unless fun g => ?_
  exact bind' (modifyVar_bets id (fun _ => ⟨rfl, fun h => h, fun h => h⟩) (fun _ => rfl)
    (fun _ => rfl) fun _ => rfl) fun _ => hq.forget _ _ trivial

theorem forgetDeclared_bets (id : VarId) (v : Variable) (path : Path) :
    (betting frame depth).Keeps (forgetDeclared q id v path) := by
  have hrequest : (betting frame depth).Keeps
      (modify fun g => if v.module.isSome then g.requestPass else g) := by
    intro g a g' hg hrun
    cases hrun
    split
    · exact betting_step ⟨hg.1.evolves (Drifts.request g).toEvolves
        (hg.1.linkable.congr rfl rfl rfl rfl), hg.2⟩ (.request g) (.of_facts fun _ => rfl)
        (.of_same rfl (fun h => ⟨_, h⟩) fun _ => rfl)
    · exact ⟨hg, (betting frame depth).refl g⟩
  refine ite' (fun _ => pure' _) fun _ => ?_
  refine bind' (modifyVar_bets id (fun _ => ⟨rfl, fun h => h, fun h => h⟩) (fun _ => rfl)
    (fun _ => rfl) fun _ => rfl) fun _ => ?_
  refine ite' (fun _ => ?_) fun _ => ?_
  · refine ite' (fun _ => pure' _) fun _ => ?_
    refine bind_both (reassign_bets hq id) fun _ => ?_
    cases v.init? with
    | none => exact bind' (pure' ()) fun _ => hrequest
    | some init => exact bind' (forgetInit_bets hq id init _) fun _ => hrequest
  · cases v.init? with
    | none => exact pure' _
    | some init => exact forgetInit_bets hq id init path

theorem notifyKey_told {key : Bytes} (hi : Held (tableOf frame) (.expr (.object i ps)))
    (hg : (drifting frame).holds g)
    (hlost : (g.facts i.id).forgotten = true ∨ key ∈ (g.facts i.id).forgottenKeys)
    (hrun : notifyKey q i.id key g = .ok (a, g')) :
    (drifting frame).holds g' ∧ Drifts g g' ∧ Waits (tableOf frame) (some i.id) g g' ∧
      (∀ {pending}, Backed frame depth ((g.facts i.id).dependentsAt key ++ pending) g →
        Backed frame depth pending g') ∧
      ((g.facts i.id).forgotten = true → ∀ k, k ≠ key →
        (g.facts i.id).dependentsAt k ⊆ (g'.facts i.id).dependentsAt k) := by
  replace hrun := get_ok hrun
  split at hrun
  · rename_i hempty
    obtain ⟨-, rfl⟩ := pure_ok.mp hrun
    refine ⟨hg, .refl _, .refl _, fun hback => ?_, fun _ _ _ _ => id⟩
    rwa [Facts.dependentsAt, isEmpty_iff.mp hempty] at hback
  · obtain ⟨_, g1, hrun1, hrun⟩ := bind_ok.mp hrun
    obtain ⟨hg1, hd1⟩ := modifyFacts_drifts i.id (f := fun f => { f with
      keyDependents := f.keyDependents.map fun e => if e.1 = key then (key, []) else e })
      (fun _ => ⟨rfl, id, id, fun _ => id⟩) g _ g1 hg hrun1
    have hi0 : g.node? i.id = some (.expr (.object i ps)) := held_node? hg hi
    have hsheds : Sheds [] g g1 := by
      cases hrun1
      refine .modifyFacts (fun o _ => Stands.modifyFacts hi0 ?_ (by rintro _ _ _ _ _ ⟨⟩)
        (by rintro _ _ ⟨⟩ ⟨⟩)) fun _ => id
      intro _ _ k _ hf hk ho
      rw [dependentsAt_clear, if_neg]
      · exact ⟨hf, hk, ho⟩
      · rintro rfl
        rcases hlost with h | h
        · rw [hf] at h; cases h
        · exact hk h
    have hfacts : (g1.facts i.id).forgotten = (g.facts i.id).forgotten ∧ ∀ k, k ≠ key →
        (g1.facts i.id).dependentsAt k = (g.facts i.id).dependentsAt k := by
      cases hrun1
      rw [facts_modifyFacts_self hi0]
      exact ⟨rfl, fun k hk => by rw [dependentsAt_clear, if_neg hk]⟩
    have hwaits : Waits (tableOf frame) (some i.id) g g1 := by
      cases hrun1
      exact .modifyFacts_skip
    obtain ⟨_, g2, hrun2, hrun⟩ := bind_ok.mp hrun
    obtain ⟨hg2, htold⟩ := notify_told hq hg1 hrun2
    obtain ⟨hg', hd', hbets⟩ := requestPass_bets frame depth i.id g2 _ g' hg2 hrun
    refine ⟨hg', (hd1.trans htold.drifts).trans hd',
      (hwaits.trans (htold.waits.but _)).trans (hbets.waits.but _),
      fun hback => hbets.backed (htold.backed (hback.sheds hsheds)), fun hf k hk => ?_⟩
    have hother : some i.id ≠ none := Option.some_ne_none _
    obtain ⟨hf2, hkeys⟩ := htold.waits.keys hi hother (hfacts.1.trans hf)
    obtain ⟨-, hkeys'⟩ := hbets.waits.keys hi hother hf2
    exact fun o ho => hkeys' k (hkeys k (by rw [hfacts.2 k hk]; exact ho))

theorem notifyKeys_told (hi : Held (tableOf frame) (.expr (.object i ps))) :
    ∀ (keys : List Bytes) {a : PUnit}
    {g g' : Graph}, (drifting frame).holds g → (g.facts i.id).forgotten = true →
    keys.forM (notifyKey q i.id) g = .ok (a, g') →
    (drifting frame).holds g' ∧ Drifts g g' ∧ Waits (tableOf frame) (some i.id) g g' ∧
      ∀ {pending}, Backed frame depth (keys.flatMap (g.facts i.id).dependentsAt ++ pending) g →
        Backed frame depth pending g'
  | [], _, g, g', hg, _, hrun => by
    cases hrun
    exact ⟨hg, .refl g, .refl g, id⟩
  | key :: keys, _, g, g', hg, hf, hrun => by
    obtain ⟨_, g1, hrun1, hrun⟩ := bind_ok.mp hrun
    obtain ⟨hg1, hd1, hwaits1, hback1, hkeys⟩ := notifyKey_told hq hi hg (.inl hf) hrun1
    obtain ⟨hg', hd', hwaits', hback'⟩ :=
      notifyKeys_told hi keys hg1 ((hd1.facts i.id).forgotten hf) hrun
    refine ⟨hg', hd1.trans hd', hwaits1.trans hwaits', fun hback => hback' (hback1 ?_)⟩
    -- A key that comes again has nobody left to tell.
    refine hback.mono fun o ho => ?_
    simp only [flatMap_cons, mem_append, mem_flatMap] at ho ⊢
    rcases ho with (ho | ⟨k, hk, ho⟩) | ho
    · exact .inl ho
    · by_cases heq : k = key
      · exact .inl (heq ▸ ho)
      · exact .inr (.inl ⟨k, hk, hkeys hf k heq ho⟩)
    · exact .inr (.inr ho)

omit hq in
/-- An object is changed in what is forgotten of it, and whoever relied on that is told. -/
theorem forgetting_bets {f : Facts → Facts} {tell : Query PUnit} (lost : List Origin)
    (hi : Held (tableOf frame) (.expr (.object i ps))) (hf : (g.facts i.id).forgotten = false)
    (hdrifts : ∀ x : Facts, x.Drifts (f x))
    (hsheds : g.node? i.id = some (.expr (.object i ps)) → Sheds lost g (g.modifyFacts i.id f))
    (htell : ∀ {a g1 g'}, (drifting frame).holds g1 → g1.facts i.id = f (g.facts i.id) →
      tell g1 = .ok (a, g') → (drifting frame).holds g' ∧ Drifts g1 g' ∧
        Waits (tableOf frame) (some i.id) g1 g' ∧
        ∀ {pending}, Backed frame depth (lost ++ pending) g1 → Backed frame depth pending g') :
    (betting frame depth).From g (do
      modifyFacts i.id f
      tell) := by
  intro a g' hg hrun
  obtain ⟨_, g1, hrun1, hrun⟩ := bind_ok.mp hrun
  obtain ⟨hg1, hd1⟩ := modifyFacts_drifts i.id hdrifts g _ g1 hg hrun1
  cases hrun1
  have hi0 : g.node? i.id = some (.expr (.object i ps)) := held_node? hg hi
  obtain ⟨hg', hd', hwaits', hback'⟩ := htell hg1 (facts_modifyFacts_self hi0 f) hrun
  refine ⟨hg', hd1.trans hd', (Waits.modifyFacts_skip.trans hwaits').all ?_ fun _ _ _ _ => hf,
    fun hback => hback' (hback.sheds (hsheds hi0))⟩
  exact fun x hx ht heq => absurd heq (not_test_of_held hi rfl rfl hx ht)

theorem forgetAllKeys_bets {keys : List Bytes} (hi : Held (tableOf frame) (.expr (.object i ps)))
    (hf : (g.facts i.id).forgotten = false)
    (hkeys : keys.Perm ((g.facts i.id).keyDependents.map Prod.fst)) :
    (betting frame depth).From g (do
      modifyFacts i.id fun f => { f with forgotten := true }
      keys.forM (notifyKey q i.id)) := by
  refine forgetting_bets (keys.flatMap (g.facts i.id).dependentsAt) hi hf
    (fun _ => ⟨rfl, id, fun _ => rfl, fun _ => id⟩) (fun hi0 => ?_)
    fun hg1 hfacts hrun => ?_
  · refine .modifyFacts (fun o ho => Stands.modifyFacts hi0 ?_ (by rintro _ _ _ _ _ ⟨⟩)
      (by rintro _ _ ⟨⟩ ⟨⟩)) fun _ => id
    intro _ _ k _ _ _ hmem
    refine absurd (mem_flatMap.mpr ⟨k, hkeys.mem_iff.mpr ?_, hmem⟩) ho
    -- Whoever is found under a key makes the key one of the list.
    cases hlookup : (g.facts i.id).keyDependents.lookup k with
    | none =>
      rw [Facts.dependentsAt, hlookup] at hmem
      cases hmem
    | some ds =>
      obtain ⟨before, after, heq, -⟩ := lookup_eq_some_iff.mp hlookup
      rw [heq]
      simp
  · obtain ⟨hg', hd', hwaits', hback'⟩ := notifyKeys_told hq hi _ hg1 (by rw [hfacts]) hrun
    rw [hfacts] at hback'
    exact ⟨hg', hd', hwaits', hback'⟩

theorem forgetKey_bets (key : Bytes) (hi : Held (tableOf frame) (.expr (.object i ps)))
    (hf : (g.facts i.id).forgotten = false) :
    (betting frame depth).From g (do
      modifyFacts i.id fun f => { f with forgottenKeys := f.forgottenKeys ++ [key] }
      notifyKey q i.id key) := by
  refine forgetting_bets ((g.facts i.id).dependentsAt key) hi hf
    (fun _ => ⟨rfl, id, id, subset_append_left _ _⟩) (fun hi0 => ?_)
    fun hg1 hfacts hrun => ?_
  · refine .modifyFacts (fun o ho => Stands.modifyFacts hi0 ?_ (by rintro _ _ _ _ _ ⟨⟩)
      (by rintro _ _ ⟨⟩ ⟨⟩)) fun _ => id
    intro _ _ k _ hf hk hmem
    refine ⟨hf, ?_, hmem⟩
    simp only [mem_append, mem_singleton, not_or]
    exact ⟨hk, fun heq => ho (heq ▸ hmem)⟩
  · obtain ⟨hg', hd', hwaits', hback', -⟩ :=
      notifyKey_told hq hi hg1 (.inr (by rw [hfacts]; simp)) hrun
    rw [hfacts] at hback'
    exact ⟨hg', hd', hwaits', hback'⟩

theorem forgetObject_bets (hi : Held (tableOf frame) (.expr (.object i ps))) (path : Path) :
    (betting frame depth).Keeps (forgetObject q i.id ps path) := by
  refine get_bind fun g _ => ?_
  cases path with
  | nil => exact pure' _ g
  | cons key rest =>
    by_cases hf : (g.facts i.id).forgotten = true
    · dsimp only
      rw [if_pos hf]
      exact pure' _ g
    have hf' : (g.facts i.id).forgotten = false := Bool.not_eq_true _ ▸ hf
    dsimp only
    rw [if_neg hf]
    split
    · rw [← bind_assoc]
      exact From.bind (forgetAllKeys_bets hq hi hf' (g.options.keyOrder.perm _ _)) fun _ g' _ _ =>
        forM' (fun p _ => hq.forget _ _ trivial) g'
    · split
      · split
        · exact pure' _ g
        · exact forgetKey_bets hq key hi hf'
      · split
        · exact hq.forget _ _ trivial g
        · exact pure' _ g

theorem notifyNode_told {skip : Option NodeId} (hg : (drifting frame).holds g)
    (hsheds : Sheds [] g (g.modifyFacts id fun f => { f with dependents := [] }))
    (hwaits : Waits (tableOf frame) skip g (g.modifyFacts id fun f => { f with dependents := [] }))
    (hrun : notifyNode q id g = .ok (a, g')) :
    (drifting frame).holds g' ∧ Drifts g g' ∧ Waits (tableOf frame) skip g g' ∧
      ∀ {pending}, Backed frame depth ((g.facts id).dependents ++ pending) g →
        Backed frame depth pending g' := by
  replace hrun := get_ok hrun
  obtain ⟨_, g1, hrun1, hrun⟩ := bind_ok.mp hrun
  obtain ⟨hg1, hd1⟩ := modifyFacts_drifts id (f := fun f => { f with dependents := [] })
    (fun _ => ⟨rfl, fun h => h, fun h => h, fun _ h => h⟩) g _ g1 hg hrun1
  cases hrun1
  obtain ⟨hg', htold⟩ := notify_told hq hg1 hrun
  exact ⟨hg', hd1.trans htold.drifts, hwaits.trans (htold.waits.but _),
    fun hback => htold.backed (hback.sheds hsheds)⟩

theorem forgetClass_bets {d : ClassDef} (hd : Held (tableOf frame) (.expr (.classDef d)))
    (path : Path) : (betting frame depth).Keeps (forgetClass q d path) := by
  refine get_unless fun g => ?_
  -- Nobody relies on a class for what a value is found out from.
  have hsheds : ∀ {g : Graph} {f : Facts → Facts}, (drifting frame).holds g →
      (∀ x, (f x).branch = x.branch) → Sheds [] g (g.modifyFacts d.info.id f) := by
    intro g f hg hb
    refine .modifyFacts (fun o _ => Stands.modifyFacts (held_node? hg hd) (by rintro _ _ _ ⟨⟩)
      (by rintro _ _ _ _ _ ⟨⟩) (by rintro _ _ ⟨⟩ ⟨⟩)) fun b h => (hb _).symm.trans h
  have hwaits : ∀ {g : Graph} {f : Facts → Facts},
      Waits (tableOf frame) none g (g.modifyFacts d.info.id f) :=
    .modifyFacts_other hd (by rintro _ ⟨⟩; exact ⟨rfl, nofun⟩)
  refine bind' ?_ fun _ => bind' ?_ fun _ => bind' ?_ fun _ =>
    requestPass_bets frame depth _
  · intro g a g' hg hrun
    obtain ⟨hg', hdrifts⟩ := modifyFacts_drifts d.info.id
      (f := fun f => { f with forgotten := true })
      (fun _ => ⟨rfl, id, fun _ => rfl, fun _ => id⟩) g a g' hg hrun
    cases hrun
    exact betting_step hg' hdrifts hwaits (hsheds hg fun _ => rfl)
  · intro g a g' hg hrun
    obtain ⟨hg', hdrifts, hwaits', hback'⟩ :=
      notifyNode_told hq hg (hsheds hg fun _ => rfl) hwaits hrun
    exact ⟨hg', hdrifts, hwaits', fun hback =>
      hback' (hback.mono (subset_append_right _ _))⟩
  · refine forM' fun m _ => ?_
    split
    · exact hq.forget _ _ trivial
    · exact pure' _

end

/-! ## Losing branches and results -/

section

variable (hc : Covers (tableOf frame)) {n : Nat} (hn : n ≤ depth)
  (hq : Answers (betting frame depth) (tableOf frame) (fun o => Told frame depth [o])
    (Queries.ofDepth n)) {g g' : Graph}

theorem branchOf_ne_unknown {q : Queries} {state : BranchState} {b : Bool}
    (h : branchOf q id t choose g = .ok (state, g')) (hstate : state = .ofChoice b) :
    (g.facts id).branch ≠ .unknown := by
  rcases branchOf_ok h with ⟨-, rfl, -⟩ | ⟨hnone, -⟩
  · rw [hstate]
    exact ofChoice_ne_unknown b
  · rw [hnone]
    nofun

include hc hn hq in
theorem loseBranch_told {x l r : Expr} (hg : (drifting frame).holds g)
    (hx : Held (tableOf frame) (.expr x)) (ht : (expr x).test? = some (t, choose))
    (hrun : (branchOf (ofDepth n) x.info.id t choose >>= fun state =>
      loseBranch (ofDepth n) x.info.id state l r) g = .ok (a, g')) :
    (drifting frame).holds g' ∧ Told frame depth [.node x.info.id] g g' := by
  obtain ⟨state, g1, hbranch, hrun⟩ := bind_ok.mp hrun
  obtain ⟨hg1, hd1, hbets1⟩ := branchOf_bets hc hn hq.toAsks hx ht g state g1 hg hbranch
  have hstate : (g1.facts x.info.id).branch = state :=
    (branchOf_state hc (m := .expr x) hg hx hbranch).1
  have hx1 : g1.node? x.info.id = some (.expr x) := held_node? hg1 hx
  unfold loseBranch at hrun
  cases hpick : pick r l state with
  | none =>
    rw [hpick] at hrun
    obtain ⟨-, rfl⟩ := pure_ok.mp hrun
    refine ⟨hg1, hd1, hbets1.waits, fun hback => (hbets1.backed hback).drop_open fun b hb => ?_⟩
    rw [← hstate, hb] at hpick
    cases b <;> cases hpick
  | some unused =>
    rw [hpick] at hrun
    obtain ⟨b, hb, -⟩ := pick_eq_some hpick
    obtain ⟨_, g2, hrun2, hrun⟩ := bind_ok.mp hrun
    obtain ⟨hg2, hd2⟩ := modifyFacts_drifts x.info.id (f := fun f => { f with branch := .unknown })
      (fun _ => ⟨rfl, id, id, fun _ => id⟩) g1 _ g2 hg1 hrun2
    have hfacts2 : (g2.facts x.info.id).branch = .unknown ∧
        (g2.facts x.info.id).dependents = (g1.facts x.info.id).dependents := by
      cases hrun2
      beta_reduce
      rw [facts_modifyFacts_self hx1]
      exact ⟨rfl, rfl⟩
    have hwaits2 : Waits (tableOf frame) (some x.info.id) g1 g2 := by
      cases hrun2
      exact .modifyFacts_skip
    have hsheds2 : Sheds (g1.facts x.info.id).dependents g1 g2 := by
      cases hrun2
      refine .modifyFacts (fun o ho => Stands.modifyFacts hx1 ?_ ?_ ?_)
        fun b hb => absurd hb.symm (ofChoice_ne_unknown b)
      · exact fun _ _ _ _ hf hk ho => ⟨hf, hk, ho⟩
      · exact fun _ _ _ _ _ _ hr _ ho => ⟨hr, ho⟩
      · exact fun _ _ _ _ _ hmem => absurd hmem ho
    -- What was skipped so far is forgotten, while the dependents wait.
    obtain ⟨_, g3, hrun3, hrun⟩ := bind_ok.mp hrun
    obtain ⟨hg3, hd3, hbets3⟩ := hq.forget _ _ trivial g2 _ g3 hg2 hrun3
    obtain ⟨hbranch3, hsub⟩ := hbets3.waits.branches hx (by rw [ht]; rfl) nofun hfacts2.1
    obtain ⟨_, g4, hrun4, hrun⟩ := bind_ok.mp hrun
    have hx3 : g3.node? x.info.id = some (.expr x) := held_node? hg3 hx
    have hsheds3 : Sheds [] g3
        (g3.modifyFacts x.info.id fun f => { f with dependents := [] }) := by
      refine .modifyFacts (fun o _ => Stands.modifyFacts hx3 ?_ ?_ ?_) fun _ => id
      · intro i ps key heq
        rw [heq] at ht
        cases ht
      · intro i isNew callee as e heq
        rw [heq] at ht
        cases ht
      · exact fun _ b _ _ hb => absurd (hb.symm.trans hbranch3) (ofChoice_ne_unknown b)
    obtain ⟨hg4, hd4, hwaits4, hback4⟩ := notifyNode_told hq hg3 hsheds3 .modifyFacts_skip hrun4
    obtain ⟨hg', hd', hbets'⟩ :=
      requestPass_bets frame depth x.info.id g4 _ g' hg4 hrun
    refine ⟨hg', (((hd1.trans hd2).trans hd3).trans hd4).trans hd', ?_, fun {pending} hback => ?_⟩
    · refine Waits.all ((((hbets1.waits.but _).trans hwaits2).trans
        ((hbets3.waits.but _).trans hwaits4)).trans (hbets'.waits.but _)) ?_ ?_
      · exact fun _ _ _ _ => branchOf_ne_unknown hbranch hb
      · intro i ps hi heq
        exact absurd heq.symm (not_test_of_held hi rfl rfl hx (by rw [ht]; rfl))
    · have hback2 : Backed frame depth ((g1.facts x.info.id).dependents ++ pending) g2 := by
        refine Backed.drop_open (k := x.info.id)
          (((hbets1.backed hback).sheds hsheds2).mono fun o ho => ?_) ?_
        · simp only [mem_append, mem_cons] at ho ⊢
          tauto
        · rw [hfacts2.1]
          exact fun b => (ofChoice_ne_unknown b).symm
      refine hbets'.backed (hback4 ((hbets3.backed hback2).mono ?_))
      refine append_subset.mpr ⟨fun o ho => ?_, subset_append_right _ _⟩
      exact mem_append_left _ (hsub (by rw [hfacts2.2]; exact ho))

include hq in
theorem loseReturned_told {isNew : Bool} {callee : Expr} {as : List Expr}
    (hg : (drifting frame).holds g) (hi : Held (tableOf frame) (.expr (.call i isNew callee as)))
    (hrun : invalidateNode (ofDepth n) (.expr (.call i isNew callee as)) g = .ok (a, g')) :
    (drifting frame).holds g' ∧ Told frame depth [.node i.id] g g' := by
  have hdrop : ∀ {pending}, Backed frame depth (.node i.id :: pending) g →
      Backed frame depth pending g := fun hback => hback.drop_node (held_node? hg hi) rfl
  replace hrun := get_ok hrun
  split at hrun
  · obtain ⟨-, rfl⟩ := pure_ok.mp hrun
    exact ⟨hg, .refl _, .refl _, hdrop⟩
  · obtain ⟨_, g1, hrun1, hrun⟩ := bind_ok.mp hrun
    obtain ⟨hg1, hd1⟩ := modifyFacts_drifts i.id (f := fun f => { f with returned := some .unknown })
      (fun _ => ⟨rfl, id, id, fun _ => id⟩) g _ g1 hg hrun1
    have hi0 : g.node? i.id = some (.expr (.call i isNew callee as)) := held_node? hg hi
    have hi1 : g1.node? i.id = some (.expr (.call i isNew callee as)) := held_node? hg1 hi
    have hfacts : (g1.facts i.id).returned = some .unknown ∧
        (g1.facts i.id).dependents = (g.facts i.id).dependents := by
      cases hrun1
      beta_reduce
      rw [facts_modifyFacts_self hi0]
      exact ⟨rfl, rfl⟩
    have hwaits : ∀ {g : Graph} {f : Facts → Facts},
        Waits (tableOf frame) none g (g.modifyFacts i.id f) :=
      .modifyFacts_other hi (by rintro _ ⟨⟩; exact ⟨rfl, nofun⟩)
    have hsheds : Sheds (g1.facts i.id).dependents g g1 := by
      rw [hfacts.2]
      cases hrun1
      refine .modifyFacts (fun o ho => Stands.modifyFacts hi0 (by rintro _ _ _ ⟨⟩) ?_
        (by rintro _ _ ⟨⟩ ⟨⟩)) fun _ => id
      exact fun _ _ _ _ _ _ _ _ hmem => absurd hmem ho
    have hwaits1 : Waits (tableOf frame) none g g1 := by
      cases hrun1
      exact hwaits
    obtain ⟨_, g2, hrun2, hrun⟩ := bind_ok.mp hrun
    have hsheds1 : Sheds [] g1 (g1.modifyFacts i.id fun f => { f with dependents := [] }) := by
      refine .modifyFacts (fun o ho => Stands.modifyFacts hi1 (by rintro _ _ _ ⟨⟩) ?_
        (by rintro _ _ ⟨⟩ ⟨⟩)) fun _ => id
      exact fun _ _ _ _ e _ hr he => absurd (Option.some.inj (hr.symm.trans hfacts.1)) he
    obtain ⟨hg2, hd2, hwaits2, hback2⟩ := notifyNode_told hq hg1 hsheds1 hwaits hrun2
    obtain ⟨hg', hd', hbets'⟩ :=
      requestPass_bets frame depth i.id g2 _ g' hg2 hrun
    exact ⟨hg', (hd1.trans hd2).trans hd', (hwaits1.trans hwaits2).trans hbets'.waits,
      fun hback => hbets'.backed (hback2 ((hdrop hback).sheds hsheds))⟩

theorem loseStatement_told {q : Queries} {x : Stmt} {y : Option Stmt}
    (hg : (drifting frame).holds g) (hi : Held (tableOf frame) (.stmt (.branch i t x y)))
    (hrun : invalidateNode q (.stmt (.branch i t x y)) g = .ok (a, g')) :
    (drifting frame).holds g' ∧ Told frame depth [.node i.id] g g' := by
  have hi0 : g.node? i.id = some (.stmt (.branch i t x y)) := held_node? hg hi
  replace hrun := get_ok hrun
  split at hrun
  · obtain ⟨_, g1, hrun1, hrun⟩ := bind_ok.mp hrun
    obtain ⟨hg1, hd1⟩ := modifyFacts_drifts i.id (f := fun f => { f with branch := .unknown })
      (fun _ => ⟨rfl, id, id, fun _ => id⟩) g _ g1 hg hrun1
    cases hrun1
    obtain ⟨hg', hd', hbets'⟩ :=
      requestPass_bets frame depth i.id _ _ g' hg1 hrun
    -- Nobody relies on the branch of a statement.
    have hsheds : Sheds [] g (g.modifyFacts i.id fun f => { f with branch := .unknown }) := by
      refine .modifyFacts (fun o ho => Stands.modifyFacts hi0 (by rintro _ _ _ ⟨⟩)
        (by rintro _ _ _ _ _ ⟨⟩) (by rintro _ _ ⟨⟩))
        fun b hb => absurd hb.symm (ofChoice_ne_unknown b)
    have hwaits : Waits (tableOf frame) none g
        (g.modifyFacts i.id fun f => { f with branch := .unknown }) :=
      .modifyFacts_other hi nofun
    refine ⟨hg', hd1.trans hd', hwaits.trans hbets'.waits, fun hback =>
      hbets'.backed ((hback.sheds hsheds).drop_open fun b hb => ?_)⟩
    rw [facts_modifyFacts_self hi0] at hb
    exact ofChoice_ne_unknown b hb.symm
  · rename_i hstate
    obtain ⟨-, rfl⟩ := pure_ok.mp hrun
    refine ⟨hg, .refl _, .refl _, fun hback => hback.drop_open fun b hb => hstate ?_⟩
    cases b with
    | true => exact .inl hb
    | false => exact .inr hb

include hc hn hq in
theorem invalidateNode_told (hg : (drifting frame).holds g) (hm : Held (tableOf frame) m)
    (hrun : invalidateNode (ofDepth n) m g = .ok (a, g')) :
    (drifting frame).holds g' ∧ Told frame depth [.node m.id] g g' := by
  -- A node without a branch has nothing to lose.
  have hnone : m.test? = none → invalidateNode (ofDepth n) m g = .ok ((), g) →
      (drifting frame).holds g' ∧ Told frame depth [.node m.id] g g' := by
    intro ht hsame
    rw [hsame] at hrun
    cases hrun
    exact ⟨hg, .refl _, .refl _, fun hback => hback.drop_node (held_node? hg hm) ht⟩
  cases m with
  | expr e =>
    cases e with
    | conditional i t l r | logical i op l r => exact loseBranch_told hc hn hq hg hm rfl hrun
    | call i isNew callee as => exact loseReturned_told hq hg hm hrun
    | _ => exact hnone rfl rfl
  | stmt s =>
    cases s with
    | branch i t x y => exact loseStatement_told hg hm hrun
    | _ => exact hnone rfl rfl
  | _ => exact hnone rfl rfl

include hc hn hq in
theorem invalidate_told (o : Origin) (hg : (drifting frame).holds g)
    (hrun : Query.invalidate (ofDepth n) o g = .ok (a, g')) :
    (drifting frame).holds g' ∧ Told frame depth [o] g g' := by
  cases o with
  | observer k =>
    have hd : Drifts g { g with observed := g.observed.modify k (· + 1) } :=
      { Drifts.refl g with }
    cases hrun
    refine ⟨⟨hg.1.evolves hd.toEvolves (hg.1.linkable.congr rfl rfl rfl rfl), hg.2⟩, hd,
      .of_facts fun _ => rfl, fun hback => ?_⟩
    exact (hback.drop fun {m b} _ _ hid => nomatch hid).sheds_nil
      (.of_same rfl (fun h => ⟨_, h⟩) fun _ => rfl)
  | node id =>
    replace hrun := get_ok hrun
    cases hm : g.node? id with
    | none =>
      rw [hm] at hrun
      cases hrun
      refine ⟨hg, .refl _, .refl _, fun hback => hback.drop fun {m b} hm' _ hid => ?_⟩
      rw [Held, ← Origin.node.inj hid, hm] at hm'
      cases hm'
    | some m =>
      rw [hm] at hrun
      have hheld : Held (tableOf frame) m := hc.held (by rw [← hg.2, tableOf_frame]; exact hm)
      have hid : m.id = id := hc.own (by rw [← hg.2, tableOf_frame]; exact hm)
      exact hid ▸ invalidateNode_told hc hn hq hg hheld hrun

include hc hn hq in
theorem stage_bets : Stage (betting frame depth) (tableOf frame)
    (fun o => Told frame depth [o]) (ofDepth n) where
  toAnswers := hq
  branchOf := (finds_bets hc hn hq.toAsks).branchOf
  returnOf := (finds_bets hc hn hq.toAsks).returnOf
  forgetDeclared := fun g id v path _ _ _ => forgetDeclared_bets hq id v path g
  forgetObject := fun _ _ path _ hi => forgetObject_bets hq hi path
  forgetClass := fun _ path _ hd => forgetClass_bets hq hd path
  told := fun o _ _ _ hg hrun => invalidate_told hc hn hq o hg hrun

end

/-- Every question leaves bets backed, as deep as questions may nest. -/
theorem betting_answers (hc : Covers (tableOf frame)) {n : Nat} (hn : n ≤ depth) :
    Answers (betting frame depth) (tableOf frame) (fun o => Told frame depth [o])
      (ofDepth n) :=
  (betting_rules hc).answers depth (fun _ h hq => stage_bets hc (Nat.le_of_lt h) hq) n hn

end

end Winnow
