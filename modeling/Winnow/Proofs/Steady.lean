import Winnow.Proofs.Declining

/-!
# Branches stay as they were found

A branch that was found out stays, and one that counts as unknown stays unknown, unless the branch is
lost; and whoever loses a branch asks for another pass (`Steady`). So at the end of a pass that asks
for no other, every branch is what it was when the walk came by.

A node that belongs to no module cannot ask for a pass, so all this is said of graphs where every
node belongs to one (`Owned`).
-/

namespace Winnow

open Winnow.Graph Query Conduct Inclusion

/-- A branch that was asked for is the same as before, or it was lost and a pass was asked for. -/
structure Steady (g g' : Graph) : Prop where
  needsPass : g.needsPass = true → g'.needsPass = true
  branch : ∀ {k}, (g.facts k).branch ≠ .unresolved → (g'.facts k).branch = (g.facts k).branch ∨
    (g'.facts k).branch = .unknown ∧ g'.needsPass = true

namespace Steady

variable {g g' g'' : Graph}

theorem refl (g : Graph) : Steady g g := ⟨id, fun _ => .inl rfl⟩

theorem trans (h : Steady g g') (h' : Steady g' g'') : Steady g g'' where
  needsPass := fun hp => h'.needsPass (h.needsPass hp)
  branch := fun {k} hk => by
    rcases h.branch hk with hsame | ⟨hunknown, hp⟩
    · rw [← hsame] at hk ⊢
      exact h'.branch hk
    · refine .inr ⟨?_, h'.needsPass hp⟩
      rcases h'.branch (by rw [hunknown]; nofun) with hsame | ⟨h, -⟩
      · exact hsame.trans hunknown
      · exact h

theorem of_learns (h : Learns g g') : Steady g g' :=
  ⟨fun hp => h.needsPass.trans hp, fun {k} hk => .inl ((h.facts k).branch hk)⟩

theorem of_branch (hp : g.needsPass = true → g'.needsPass = true)
    (h : ∀ k, (g'.facts k).branch = (g.facts k).branch) : Steady g g' :=
  ⟨hp, fun {k} _ => .inl (h k)⟩

theorem modifyFacts {n : NodeId} {f : Facts → Facts} (hf : ∀ x : Facts, (f x).branch = x.branch) :
    Steady g (g.modifyFacts n f) := by
  refine of_branch id fun k => ?_
  rcases facts_modifyFacts_cases g n f k with h | ⟨-, h⟩
  · rw [h]
  · rw [h, hf]

theorem of_includes (h : Includes g g') : Steady g g' :=
  of_branch h.needsPass fun k => by rw [h.facts]

theorem same (h : Steady g g') (hp : g'.needsPass = false) {k : NodeId}
    (hk : (g.facts k).branch ≠ .unresolved) : (g'.facts k).branch = (g.facts k).branch := by
  rcases h.branch hk with h | ⟨-, h⟩
  · exact h
  · rw [hp] at h
    cases h

end Steady

/-- Every node of a frame belongs to a module. -/
def Owned (frame : Places) : Prop :=
  ∀ (k : NodeId) p, frame[k]? = some p → p.2.2.1.isSome = true

def steady (frame : Places) : Conduct :=
  (drifting frame).also Steady Steady.refl Steady.trans

section

variable {frame : Places}

theorem steady_of_learning {α : Type} {q : Query α} (h : (learning frame).Keeps q) :
    (steady frame).Keeps q := h.imp rfl fun h => ⟨h.1, .of_learns h.2⟩

theorem steady_rules (hc : Covers (tableOf frame)) : Rules (steady frame) (tableOf frame) :=
  .of_learning hc (.all fun _ => trivial)
    (drifting_tracks.also fun _ _ h => ⟨h.needsPass, h.branch⟩) (fun _ => id) steady_of_learning

/-! ## Losing a branch -/

theorem Facts.Loses.branch {f f' : Facts} (h : f.Loses f') : f'.branch = f.branch := by
  cases h <;> rfl

theorem request_steady (asked : Graph → Bool) :
    (steady frame).Keeps (modify fun g => if asked g then g.requestPass else g) := by
  refine Keeps.also (request_drifts asked) fun g a g' _ hrun => ?_
  cases hrun
  dsimp only
  split
  · exact .of_branch (fun _ => rfl) fun _ => rfl
  · exact .refl g

theorem requestPass_needsPass (howned : Owned frame) {n : Node} {g g' : Graph} {a : Unit}
    (hg : (drifting frame).holds g) (hn : Held (tableOf frame) n)
    (h : requestPass n.id g = .ok (a, g')) : g'.needsPass = true := by
  have hmodule : (g.moduleOf n.id).isSome = true := by
    obtain ⟨r, hr, -⟩ := Option.map_eq_some_iff.mp (held_node? hg hn)
    have hplace : frame[n.id]? = some r.place := by
      rw [← hg.2, Graph.frame, Array.getElem?_map]
      exact congrArg (Option.map NodeRecord.place) hr
    rw [Graph.moduleOf, hr]
    exact howned n.id r.place hplace
  cases h
  show (if (g.moduleOf n.id).isSome = true then g.requestPass else g).needsPass = true
  rw [if_pos hmodule]
  rfl

theorem undecide_steady (howned : Owned frame) {n : Node} {rest : Query Unit}
    (hn : Held (tableOf frame) n) (hrest : (steady frame).Keeps rest) :
    (steady frame).Keeps (modifyFacts n.id (fun f => { f with branch := .unknown }) >>= fun _ =>
      rest >>= fun _ => requestPass n.id) := by
  intro g a g' hg hrun
  obtain ⟨_, g1, hmodify, hrun⟩ := bind_ok.mp hrun
  have hlost : ∀ x : Facts, x.Drifts { x with branch := .unknown } := fun _ =>
    ⟨rfl, id, id, fun _ => id⟩
  obtain ⟨hg1, hd1⟩ := modifyFacts_drifts n.id hlost g _ g1 hg hmodify
  cases hmodify
  obtain ⟨hg', hd, hs⟩ := Keeps.bind' hrest (fun _ => request_steady _) _ _ _ hg1 hrun
  obtain ⟨_, g2, hrun, hrequest⟩ := bind_ok.mp hrun
  have hneeds := requestPass_needsPass howned (hrest _ _ _ hg1 hrun).1 hn hrequest
  refine ⟨hg', hd1.trans hd, fun _ => hneeds, fun {k} hk => ?_⟩
  by_cases hid : n.id = k
  · subst hid
    have hunknown : ((g.modifyFacts n.id fun f => { f with branch := .unknown }).facts
        n.id).branch = .unknown := by rw [facts_modifyFacts_self (held_node? hg hn)]
    refine .inr ⟨?_, hneeds⟩
    rcases hs.branch (by rw [hunknown]; nofun) with h | ⟨h, -⟩
    · exact h.trans hunknown
    · exact h
  · have hsame := facts_modifyFacts_ne g (fun f => { f with branch := .unknown }) hid
    rw [← hsame] at hk ⊢
    exact hs.branch hk

theorem steady_losesAt (v : VarId) : LosesAt (steady frame) v := fun hf => by
  refine Keeps.also (drifting_losesAt v hf) fun g a g' _ hrun => ?_
  cases hrun
  exact .of_branch id fun _ => rfl

theorem steady_losses (howned : Owned frame) : Losses (steady frame) (tableOf frame) where
  facts := fun n f hf => by
    refine Keeps.also (drifting_losses.facts n hf) fun g a g' _ hrun => ?_
    cases hrun
    exact .modifyFacts fun x => (hf x).branch
  dependents := fun v => steady_losesAt v .dependents
  var := steady_losesAt
  request := request_steady
  observer := fun n => by
    refine Keeps.also (drifting_losses.observer n) fun g a g' _ hrun => ?_
    cases hrun
    exact .of_branch id fun _ => rfl
  branch := undecide_steady howned

theorem steady_stage (hc : Covers (tableOf frame)) (howned : Owned frame) (n : Nat)
    (hq : Answers (steady frame) (tableOf frame) (fun _ => (steady frame).allows)
      (Queries.ofDepth n)) :
    Stage (steady frame) (tableOf frame) (fun _ => (steady frame).allows) (Queries.ofDepth n) :=
  (steady_losses howned).stage (steady_rules hc) (.of_learning hc n steady_of_learning) hq

theorem steady_answers (hc : Covers (tableOf frame)) (howned : Owned frame) (n : Nat) :
    Answers (steady frame) (tableOf frame) (fun _ => (steady frame).allows) (Queries.ofDepth n) :=
  (steady_rules hc).answers n (fun k _ => steady_stage hc howned k) n (Nat.le_refl n)

/-! ## Walks -/

def walking (frame : Places) : Conduct where
  holds := (drifting frame).holds
  allows g g' := Evolves g g' ∧ Steady g g'
  refl g := ⟨.refl g, .refl g⟩
  trans h h' := ⟨h.1.trans h'.1, h.2.trans h'.2⟩

theorem walking_absorbs : Absorbs (walking frame) frame :=
  ⟨rfl, fun h => ⟨h.toEvolves, .of_includes h⟩⟩

theorem walking_serves (hc : Covers (tableOf frame)) (howned : Owned frame) (n : Nat) :
    Serves (walking frame) (tableOf frame) (Queries.ofDepth n) := by
  have hstage := steady_stage hc howned n (steady_answers hc howned n)
  exact (hstage.serves (steady_rules hc)).imp rfl fun h => ⟨h.1.toEvolves, h.2⟩

theorem walk_steady (hc : Covers (tableOf frame)) (howned : Owned frame) (n depth : Nat)
    (recursive : Bool) {m : Node} (hm : Held (tableOf frame) m) :
    (walking frame).KeepsAll (walk (Queries.ofDepth n) depth recursive m) := fun s g =>
  walk_keeps hc walking_absorbs.marks (walking_serves hc howned n) depth recursive hm s g trivial

end

end Winnow
