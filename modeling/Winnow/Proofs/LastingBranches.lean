import Winnow.Proofs.Bets
import Winnow.Proofs.Including

/-!
# Branches that were found out hold

Whenever marking has come to the end of a pass, and when it returns, every branch that counts as
found out is one its test still decides: asking the test again answers, and the answer chooses the
same branch (`branch_holds`). Between a loss and the telling of it a branch may be stale, but no
telling is left over at the end of a pass.
-/

namespace Winnow

open Winnow.Graph Query Conduct Queries

section

variable {frame : Places} {depth : Nat}

theorem Sheds.includes {g g' : Graph} (h : Includes g g') : Sheds [] g g' := by
  refine .of_same h.frame (fun hw => ?_) h.facts
  obtain ⟨w', hw', hsame⟩ := h.same hw
  exact ⟨w'.included, hw'.trans (congrArg some hsame)⟩

def marking (frame : Places)
    (depth : Nat) : Conduct where
  holds := (drifting frame).holds
  allows g g' := Evolves g g' ∧
    ∀ {pending}, Backed frame depth pending g → Backed frame depth pending g'
  refl g := ⟨.refl g, id⟩
  trans h h' := ⟨h.1.trans h'.1, fun hg => h'.2 (h.2 hg)⟩

theorem marking_absorbs : Absorbs (marking frame depth) frame :=
  ⟨rfl, fun h => ⟨h.toEvolves, fun hback => hback.sheds (.includes h)⟩⟩

theorem marking_same {g g' : Graph} (h : g' = { g with needsPass := g'.needsPass, log := g'.log })
    (hg : (marking frame depth).holds g) :
    (marking frame depth).holds g' ∧ (marking frame depth).allows g g' := by
  have he : Evolves g g' := by
    rw [h]
    exact { Evolves.refl g with }
  refine ⟨⟨hg.1.evolves he ?_, he.frame.trans hg.2⟩, he, fun hback => hback.sheds_nil ?_⟩
  · rw [h]
    exact hg.1.linkable.congr rfl rfl rfl rfl
  · rw [h]
    exact .of_same rfl (fun h => ⟨_, h⟩) fun _ => rfl

theorem marking_passes : Passes (marking frame depth) (tableOf frame) fun _ _ => True where
  program := fun hg hmod => ⟨marking_absorbs.program hg hmod, trivial⟩
  entryExports := fun m => Steps.keeps fun g => marking_absorbs.admits.links (entryExports_links m g)
  includeVariable := marking_absorbs.link_includeVariable
  clear := fun _ => From.modify (marking_same rfl)
  note := fun _ _ _ => From.modify (marking_same rfl)

end

/-- Marking changes nothing but what is known and included, and leaves bets backed. -/
theorem Marking.Reached.marked {depth : Nat} {g0 g : Graph} (h0 : g0.Built)
    (h : Marking.Reached depth g0 g) :
    (marking g0.frame depth).holds g ∧ (marking g0.frame depth).allows g0 g := by
  have hc : Covers (tableOf g0.frame) := by
    rw [tableOf_frame]
    exact h0.placed.covers
  have hanswers := betting_answers hc (Nat.le_refl depth)
  have hstage := stage_bets hc (Nat.le_refl _) hanswers
  have hmarking : ∀ {g g'}, (betting g0.frame depth).allows g g' →
      (marking g0.frame depth).allows g g' :=
    fun h => ⟨h.1.toEvolves, h.2.backed⟩
  exact h.keeps hc marking_absorbs.marks marking_passes
    ((hstage.serves (betting_rules hc)).imp rfl hmarking)
    (fun v => (hanswers.forget _ _ trivial).imp rfl hmarking) ⟨h0.sound, rfl⟩

theorem Marking.Reached.backed {depth : Nat} {g0 g : Graph} (h0 : g0.Built)
    (h : Marking.Reached depth g0 g) :
    (drifting g0.frame).holds g ∧ g.tracker = {} ∧ Backed g0.frame depth [] g := by
  obtain ⟨hg, hevolves, hback⟩ := h.marked h0
  refine ⟨hg, hevolves.tracker.trans h0.tracker, hback fun n t choose b hn _ hb => ?_⟩
  obtain ⟨r, hr, -⟩ := Option.map_eq_some_iff.mp hn
  rw [Graph.facts, hr, Option.map_some, h0.facts hr] at hb
  exact absurd hb.symm (BranchState.ofChoice_ne_unresolved b)

/-- **No stale bets.** However deep questions may nest: whenever marking has come to the end of a
pass, and when it returns, asking the test of a branch that was found out answers, at the same depth
or a greater one, and the answer chooses that branch. -/
theorem branch_holds {files : Files} {entries : List Bytes} {o : BuildOptions} {g₀ g : Graph}
    {depth : Nat} (hbuilt : g₀.BuiltFrom files entries o) (hreached : Marking.Reached depth g₀ g)
    {n : Node} {t : Expr} {choose : Value → Option Bool} {b : Bool} (hn : Held g.node? n)
    (ht : n.test? = some (t, choose)) (hb : (g.facts n.id).branch = .ofChoice b) {again : Nat}
    (hagain : depth ≤ again) (origin : Option Origin) :
    ∃ v g', (Queries.ofDepth again).literal t.entity [] origin g = .ok (v, g') ∧
      choose v = some b := by
  obtain ⟨hg, htracker, hback⟩ := hreached.backed hbuilt.built
  obtain ⟨flight, v, hv, hrests⟩ := (hback hn ht hb).resolve_left (by simp)
  have hself : Stands (.node n.id) g g := .learns (.refl g) (.refl g)
  obtain ⟨g', hrun⟩ := hrests g hg hself (by rw [htracker]; simp) _ hagain origin
  exact ⟨v, g', hrun, hv⟩

/-- A branch whose test is a call; the value it returns is that of a key, which a nested branch on a
variable chooses. -/
def relayedTest : Files :=
  [(utf8 "m", utf8 "var a = true; var o = \x7b k: a ? true : false \x7d; var h = () => o.k;" ++
    utf8 "if (h()) f(); else g();")]

/-- Whether there is a branching statement under a number. -/
def Graph.isBranchAt (g : Graph) (k : NodeId) : Bool :=
  match g.node? k with
  | some (.stmt (.branch i ..)) => decide (i.id = k)
  | _ => false

set_option maxRecDepth 100000 in
/-- The branch is found out in the first pass, and the theorem holds of it. -/
theorem branch_holds_relayed :
    ∃ g₀ g n t choose, g₀.BuiltFrom relayedTest [utf8 "m"] {} ∧ Marking.Reached 20 g₀ g ∧
      Held g.node? n ∧ n.test? = some (t, choose) ∧ (g.facts n.id).branch = .ofChoice true ∧
      ∃ v g', (Queries.ofDepth 30).literal t.entity [] none g = .ok (v, g') ∧
        choose v = some true := by
  have hbuilt := Graph.builtFrom_ofFiles relayedTest [utf8 "m"] {} (by decide +kernel)
  have hreached : Marking.Reached 20 (.ofFiles relayedTest [utf8 "m"] {}) _ :=
    .afterPasses 1 (by decide +kernel) (by decide +kernel)
  have hnode : (Marking.afterPasses 20 (.ofFiles relayedTest [utf8 "m"] {}) 1).isBranchAt 28 =
      true := by
    decide +kernel
  have hbranch : ((Marking.afterPasses 20 (.ofFiles relayedTest [utf8 "m"] {}) 1).facts 28).branch =
      .ofChoice true := by
    decide +kernel
  unfold Graph.isBranchAt at hnode
  split at hnode
  next i t c a heq =>
    rw [← of_decide_eq_true hnode] at heq hbranch
    exact ⟨_, _, .stmt (.branch i t c a), t, Value.truth?, hbuilt, hreached, heq, rfl, hbranch,
      branch_holds hbuilt hreached (n := .stmt (.branch i t c a)) heq rfl hbranch (by decide) none⟩
  next => cases hnode

end Winnow
