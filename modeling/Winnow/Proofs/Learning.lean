import Winnow.Proofs.Drift

/-!
# Questions that only learn

Asking for a value or for the result of a call loses nothing: what is known stays known, whoever is
a dependent stays one, and no pass is asked for (`Learns`). Branches and results of calls are found
out once, so an answer that was written down is the answer for good as far as these questions go.
-/

namespace Winnow

open Winnow.Graph Query Conduct

variable {g g' : Graph} {choose : Value → Option Bool}

def Facts.dependentsAt (f : Facts) (key : Key) : List Origin := (f.keyDependents.lookup key).getD []

/-- What is known of a node after questions that only learn. -/
structure Facts.Learns (f f' : Facts) : Prop where
  branch : f.branch ≠ .unresolved → f'.branch = f.branch
  returned : ∀ {e}, f.returned = some e → f'.returned = some e
  forgotten : f'.forgotten = f.forgotten
  forgottenKeys : f'.forgottenKeys = f.forgottenKeys
  dependents : f.dependents ⊆ f'.dependents
  dependentsAt : ∀ key, f.dependentsAt key ⊆ f'.dependentsAt key

/-- A variable after questions that only learn. -/
structure Variable.Learns (w w' : Variable) : Prop where
  rest : w' = { w with dependents := w'.dependents }
  dependents : w.dependents ⊆ w'.dependents

/-- A graph after questions that only learn. -/
structure Learns (g g' : Graph) : Prop where
  facts : ∀ k, (g.facts k).Learns (g'.facts k)
  vars : ∀ {v w}, g.var? v = some w → ∃ w', g'.var? v = some w' ∧ w.Learns w'
  needsPass : g'.needsPass = g.needsPass

theorem Facts.Learns.refl (f : Facts) : f.Learns f :=
  ⟨fun _ => rfl, id, rfl, rfl, fun _ => id, fun _ _ => id⟩

theorem Facts.Learns.trans {a b c : Facts} (h : a.Learns b) (h' : b.Learns c) : a.Learns c where
  branch := fun ha => by
    rw [h'.branch (h.branch ha ▸ ha), h.branch ha]
  returned := fun ha => h'.returned (h.returned ha)
  forgotten := h'.forgotten.trans h.forgotten
  forgottenKeys := h'.forgottenKeys.trans h.forgottenKeys
  dependents := fun _ ha => h'.dependents (h.dependents ha)
  dependentsAt := fun key _ ha => h'.dependentsAt key (h.dependentsAt key ha)

theorem Variable.Learns.refl (w : Variable) : w.Learns w := ⟨rfl, fun _ => id⟩

theorem Variable.Learns.trans {a b c : Variable} (h : a.Learns b) (h' : b.Learns c) :
    a.Learns c :=
  ⟨by rw [h'.rest, h.rest], fun _ ha => h'.dependents (h.dependents ha)⟩

namespace Learns

variable {g g' g'' : Graph}

theorem refl (g : Graph) : Learns g g :=
  ⟨fun _ => .refl _, fun h => ⟨_, h, .refl _⟩, rfl⟩

theorem trans (h : Learns g g') (h' : Learns g' g'') : Learns g g'' where
  facts := fun k => (h.facts k).trans (h'.facts k)
  vars := fun hv => by
    obtain ⟨w', hw', hl⟩ := h.vars hv
    obtain ⟨w'', hw'', hl'⟩ := h'.vars hw'
    exact ⟨w'', hw'', hl.trans hl'⟩
  needsPass := h'.needsPass.trans h.needsPass

/-- What is written down about a node later is learnt, if the graph at the start does not know of
it. -/
theorem modifyFacts (h : Learns g g') {n : NodeId} {f : Facts → Facts}
    (hf : ∀ x, (g.facts n).Learns x → (g.facts n).Learns (f x)) :
    Learns g (g'.modifyFacts n f) where
  facts := fun k => by
    rcases facts_modifyFacts_cases g' n f k with hk | ⟨rfl, hk⟩
    · rw [hk]; exact h.facts k
    · rw [hk]; exact hf _ (h.facts n)
  vars := h.vars
  needsPass := h.needsPass

theorem modifyVar {v : VarId} {f : Variable → Variable} (hf : ∀ w : Variable, w.Learns (f w)) :
    Learns g (g.modifyVar v f) where
  facts := fun k => .refl _
  vars := fun {u w} hu => by
    rw [var?_modifyVar, hu]
    split
    · exact ⟨_, rfl, hf w⟩
    · exact ⟨_, rfl, .refl w⟩
  needsPass := rfl

theorem linked (h : Linked g g') : Learns g g' where
  facts := fun k => by
    rw [show g'.facts k = g.facts k by simp [Graph.facts, Graph.record?, h.nodes]]
    exact .refl _
  vars := fun hv => ⟨_, h.vars hv, .refl _⟩
  needsPass := by rw [h.rest]

end Learns

/-! ## Dependents at keys -/

theorem lookup_insertDependent (key : Key) (o : Origin) (k : Bytes) :
    ∀ l : List (Bytes × List Origin), (insertDependent key o l).lookup k =
      if k = key then some ((l.lookup key).getD [] ++ [o]) else l.lookup k
  | [] => by
    simp only [insertDependent]
    by_cases h : k = key
    · simp [h]
    · simp [h]
  | (j, ds) :: l => by
    simp only [insertDependent]
    by_cases hj : j = key
    · subst hj
      rw [if_pos rfl]
      simp only [List.lookup_cons]
      by_cases h : k = j
      · simp [h]
      · simp [h, beq_false_of_ne h]
    · rw [if_neg hj]
      simp only [List.lookup_cons, lookup_insertDependent key o k l]
      by_cases h : k = key
      · subst h
        simp [beq_false_of_ne (Ne.symm hj)]
      · simp [h]

theorem dependentsAt_insert (f : Facts) (key : Key) (o : Origin) (k : Key) :
    { f with keyDependents := insertDependent key o f.keyDependents }.dependentsAt k =
      if k = key then f.dependentsAt key ++ [o] else f.dependentsAt k := by
  simp only [Facts.dependentsAt, lookup_insertDependent]
  split <;> rfl

/-! ## Asking -/

def learning (frame : Places) : Conduct :=
  (drifting frame).also Learns Learns.refl Learns.trans

section

variable {frame : Places} {q : Queries}

theorem addKeyDependent_learns (n : NodeId) (key : Key) (o : Option Origin) {a : Unit}
    (h : addKeyDependent n key o g = .ok (a, g')) : Learns g g' := by
  cases o with
  | none => obtain ⟨-, rfl⟩ := pure_ok.mp h; exact .refl _
  | some o =>
    cases h
    refine (Learns.refl g).modifyFacts fun x hx => hx.trans ?_
    refine ⟨fun _ => rfl, id, rfl, rfl, fun _ => id, fun k => ?_⟩
    rw [dependentsAt_insert]
    split
    · subst k; exact List.subset_append_left _ _
    · exact fun _ => id

theorem member_linked {m : ModuleId} {key : Key} {found : Option VarId}
    (hg : (drifting frame).holds g) (h : link (namespaceMember? m key) g = .ok (found, g')) :
    Linked g g' := by
  have hend : ((namespaceMember? m key).run g).2 = g' := congrArg Prod.snd (Except.ok.inj h)
  exact hend ▸ (namespaceMember?_links m key g hg.1.linkable).1

theorem learning_rules (hc : Covers (tableOf frame)) :
    Rules (learning frame) (tableOf frame) where
  roads := .all fun _ => trivial
  same := (drifting_rules hc).same
  covers := hc
  member := fun m key => Keeps.also ((drifting_rules hc).member m key) fun _ _ _ hg hrun =>
    .linked (member_linked hg hrun)
  tracks := drifting_tracks.also fun _ _ h => ⟨h.facts, h.vars, h.needsPass⟩
  addVarDependent := fun v o => by
    refine Keeps.also ((drifting_rules hc).addVarDependent v o) fun g a g' _ hrun => ?_
    cases hrun
    exact .modifyVar fun w => ⟨rfl, List.subset_append_left _ _⟩
  addDependent := fun n o => by
    refine Keeps.also ((drifting_rules hc).addDependent n o) fun g a g' _ hrun => ?_
    cases hrun
    exact (Learns.refl g).modifyFacts fun x hx =>
      hx.trans ⟨fun _ => rfl, id, rfl, rfl, List.subset_append_left _ _, fun _ _ => id⟩
  addKeyDependent := fun n key o =>
    Keeps.also ((drifting_rules hc).addKeyDependent n key o) fun _ _ _ _ hrun =>
      addKeyDependent_learns n key o hrun
  newUnion := fun es => by
    refine Keeps.also ((drifting_rules hc).newUnion es) fun g a g' _ hrun => ?_
    cases hrun
    exact ⟨fun _ => .refl _, fun h => ⟨_, h, .refl _⟩, rfl⟩
  applied := fun n => by
    refine Keeps.also ((drifting_rules hc).applied n) fun g a g' _ hrun => ?_
    cases hrun
    exact (Learns.refl g).modifyFacts fun x hx =>
      hx.trans ⟨fun _ => rfl, id, rfl, rfl, fun _ => id, fun _ _ => id⟩

/-- How a branch is found out: it was written down before, or the test is asked while the branch
counts as unknown, and its value decides. -/
theorem branchOf_ok {id : NodeId} {t : Expr} {state : BranchState}
    (h : branchOf q id t choose g = .ok (state, g')) :
    (g.facts id).branch ≠ .unresolved ∧ state = (g.facts id).branch ∧ g' = g ∨
      (g.facts id).branch = .unresolved ∧ ∃ v g1,
        onBehalfOf id (q.literal t.entity [] (some (.node id)))
          (g.modifyFacts id fun f => { f with branch := .unknown }) = .ok (v, g1) ∧
        (choose v = none ∧ state = .unknown ∧ g' = g1 ∨ ∃ b, choose v = some b ∧
          g' = (g1.modifyFacts id fun f => { f with branch := if b then .consequent else .alternate }) ∧
          state = (g'.facts id).branch) := by
  replace h := get_ok h
  split at h
  · obtain ⟨rfl, rfl⟩ := pure_ok.mp h
    exact .inl ⟨‹_›, rfl, rfl⟩
  · replace h := modify_ok h
    obtain ⟨v, g1, hask, h⟩ := bind_ok.mp h
    refine .inr ⟨not_not.mp ‹_›, v, g1, hask, ?_⟩
    cases hv : choose v with
    | none =>
      rw [hv] at h
      obtain ⟨rfl, rfl⟩ := pure_ok.mp h
      exact .inl ⟨rfl, rfl, rfl⟩
    | some b =>
      refine .inr ⟨b, rfl, ?_⟩
      rw [hv] at h
      cases b <;> (obtain ⟨_, _, hmodify, h⟩ := bind_ok.mp h; cases hmodify; cases h; exact ⟨rfl, rfl⟩)

theorem returnOf_ok {i : Info} {isNew : Bool} {callee : Expr} {as : List Expr} {e : Entity}
    (h : returnOf q i isNew callee as g = .ok (e, g')) :
    (g.facts i.id).returned = some e ∧ g' = g ∨
      (g.facts i.id).returned = none ∧ ∃ use g1,
        q.returned callee.entity [] use (some (.node i.id))
          (g.modifyFacts i.id fun f => { f with returned := some .unknown }) = .ok (e, g1) ∧
        g' = g1.modifyFacts i.id fun f => { f with returned := some e } := by
  replace h := get_ok h
  cases hr : (g.facts i.id).returned with
  | some e' =>
    rw [hr] at h
    obtain ⟨rfl, rfl⟩ := pure_ok.mp h
    exact .inl ⟨rfl, rfl⟩
  | none =>
    rw [hr] at h
    replace h := modify_ok h
    obtain ⟨use, _, huse, h⟩ := bind_ok.mp h
    rw [callInteraction_run] at huse
    cases huse
    obtain ⟨e', g1, hask, h⟩ := bind_ok.mp h
    replace h := modify_ok h
    obtain ⟨rfl, rfl⟩ := pure_ok.mp h
    exact .inr ⟨rfl, _, g1, hask, rfl⟩

theorem Facts.Learns.setBranch {f x : Facts} (h : f.Learns x) (hf : f.branch = .unresolved)
    (b : BranchState) : f.Learns { x with branch := b } :=
  { h with branch := fun hne => absurd hf hne }

theorem Facts.Learns.setReturned {f x : Facts} (h : f.Learns x) (hf : f.returned = none)
    (e : Option Entity) : f.Learns { x with returned := e } :=
  { h with returned := fun he => by rw [hf] at he; cases he }

theorem Asks.drifts (hq : Asks (learning frame) q) : Asks (drifting frame) q :=
  ⟨fun e p o => (hq.literal e p o).of_also, fun e p i o => (hq.returned e p i o).of_also⟩

theorem branchOf_learns (hc : Covers (tableOf frame)) (hq : Asks (learning frame) q) (id : NodeId)
    (t : Expr) (choose : Value → Option Bool) : (learning frame).Keeps (branchOf q id t choose) := by
  refine Keeps.also (branchOf_drifts hq.drifts id t choose) fun g state g' hg hrun => ?_
  rcases branchOf_ok hrun with ⟨-, -, rfl⟩ | ⟨hnone, v, g1, hask, hend⟩
  · exact .refl _
  have hset := (Learns.refl g).modifyFacts fun x hx => hx.setBranch hnone .unknown
  have h1 := hset.trans ((learning_rules hc).tracks.onBehalfOf id (hq.literal _ _ _) _ _ _
    (holds_modifyFacts hg id _) hask).2.2
  rcases hend with ⟨-, -, rfl⟩ | ⟨b, -, rfl, -⟩
  · exact h1
  · exact h1.modifyFacts fun x hx => hx.setBranch hnone _

theorem returnOf_learns (hq : Asks (learning frame) q) (i : Info) (isNew : Bool) (callee : Expr)
    (as : List Expr) : (learning frame).Keeps (returnOf q i isNew callee as) := by
  refine Keeps.also (returnOf_drifts hq.drifts i isNew callee as) fun g e g' hg hrun => ?_
  rcases returnOf_ok hrun with ⟨-, rfl⟩ | ⟨hnone, use, g1, hask, rfl⟩
  · exact .refl _
  have hset := (Learns.refl g).modifyFacts fun x hx =>
    hx.setReturned hnone (some .unknown)
  have h1 := hset.trans (hq.returned _ _ _ _ _ _ _ (holds_modifyFacts hg i.id _) hask).2.2
  exact h1.modifyFacts fun x hx => hx.setReturned hnone _

section

variable (hc : Covers (tableOf frame))

include hc

theorem learning_asks (n : Nat) : Asks (learning frame) (Queries.ofDepth n) :=
  (learning_rules hc).asks (fun _ hq => ⟨hq, fun _ t choose _ _ => branchOf_learns hc hq _ t choose,
    fun i isNew callee as _ => returnOf_learns hq i isNew callee as⟩) n

/-- A conduct that learning follows is kept on the way of questions. -/
theorem Rules.of_learning {c : Conduct} (roads : Roads c (tableOf frame))
    (tracks : Tracks c) (hholds : ∀ g, c.holds g → (drifting frame).holds g)
    (h : ∀ {α : Type} {m : Query α}, (learning frame).Keeps m → c.Keeps m) :
    Rules c (tableOf frame) where
  roads := roads
  same := fun g hg => (drifting_rules hc).same g (hholds g hg)
  covers := hc
  member := fun m key => h ((learning_rules hc).member m key)
  tracks := tracks
  addVarDependent := fun v o => h ((learning_rules hc).addVarDependent v o)
  addDependent := fun n o => h ((learning_rules hc).addDependent n o)
  addKeyDependent := fun n key o => h ((learning_rules hc).addKeyDependent n key o)
  newUnion := fun es => h ((learning_rules hc).newUnion es)
  applied := fun n => h ((learning_rules hc).applied n)

theorem Finds.of_learning {c : Conduct} (n : Nat)
    (h : ∀ {α : Type} {m : Query α}, (learning frame).Keeps m → c.Keeps m) :
    Finds c (tableOf frame) (Queries.ofDepth n) where
  literal := fun e path o => h ((learning_asks hc n).literal e path o)
  returned := fun e path i o => h ((learning_asks hc n).returned e path i o)
  branchOf := fun _ t choose _ _ => h (branchOf_learns hc (learning_asks hc n) _ t choose)
  returnOf := fun i isNew callee as _ => h (returnOf_learns (learning_asks hc n) i isNew callee as)

theorem branchOf_state {n : Nat} {m : Node} {t : Expr}
    {state : BranchState} (hg : (drifting frame).holds g) (hm : Held (tableOf frame) m)
    (h : branchOf (Queries.ofDepth n) m.id t choose g = .ok (state, g')) :
    (g'.facts m.id).branch = state ∧ state ≠ .unresolved := by
  rcases branchOf_ok h with ⟨hne, rfl, rfl⟩ | ⟨-, v, g1, hask, hend⟩
  · exact ⟨rfl, hne⟩
  have hg0 := holds_modifyFacts hg m.id fun f => { f with branch := .unknown }
  obtain ⟨hg1, -, hl⟩ := (learning_rules hc).tracks.onBehalfOf m.id
    ((learning_asks hc n).literal _ _ _) _ _ _ hg0 hask
  rcases hend with ⟨-, rfl, rfl⟩ | ⟨b, -, rfl, rfl⟩
  · have h0 : ((g.modifyFacts m.id fun f => { f with branch := .unknown }).facts m.id).branch =
        .unknown := by rw [facts_modifyFacts_self (held_node? hg hm)]
    exact ⟨((hl.facts m.id).branch (by rw [h0]; nofun)).trans h0, nofun⟩
  · refine ⟨rfl, ?_⟩
    rw [facts_modifyFacts_self (held_node? hg1 hm)]
    cases b <;> nofun

end

end

end Winnow
