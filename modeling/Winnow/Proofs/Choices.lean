import Winnow.Proofs.BrokenFlow
import Winnow.Proofs.Tending

/-!
# What is kept of a choice

When marking returns, every conditional expression that is included is included as a whole, or
without its test and with the one side that it takes; and every logical expression is included with
both operands or with the one that is the result (`choices_shaped`).

A pass walks all programs, and every choice that is included is live, so that it stands in one of
them. Behind the last pass no other is asked for: there the shape holds without reservation.
-/

namespace Winnow

open Winnow.Graph Query Conduct Inclusion Relation

def Graph.programs (g : Graph) (ms : List ModuleId) : List Node :=
  ms.filterMap fun m => (g.module? m).map fun mod => .program mod.program

section

variable {depth : Nat} {recursive : Bool} {frame : Places} {g g' : Graph} {n : Node}

theorem Evolves.programs (h : Evolves g g') (ms : List ModuleId) :
    g'.programs ms = g.programs ms := by
  refine List.filterMap_congr fun m _ => ?_
  have hplain := congrArg (Option.map fun mod => Node.program mod.program) (h.module?_plain m)
  rwa [Option.map_map, Option.map_map] at hplain

theorem Graph.Live.program_around (h : g.Live recursive n) :
    ∃ p ∈ g.programs g.order, p.Around n := by
  induction h with
  | @program m mod hm hmod _ => exact ⟨_, List.mem_filterMap.mpr ⟨m, hm, by rw [hmod]; rfl⟩, .refl⟩
  | child _ hc _ _ ih =>
    obtain ⟨p, hp, hpn⟩ := ih
    exact ⟨p, hp, hpn.tail hc⟩

/-- What happens in some programs leaves the choices alone that are in none of them. -/
theorem Graph.Shaped.outside {ms : List ModuleId} (h : g.Shaped recursive n) (hg : g.Placed)
    (hn : Held g.node? n) (hm : Moves (g.programs ms) g g')
    (hout : ∀ p ∈ g.programs ms, ¬ p.Around n) : g'.Shaped recursive n := by
  have hprogram : ∀ p ∈ g.programs ms,
      ∃ m mod, g.module? m = some mod ∧ p = .program mod.program := by
    intro p hp
    obtain ⟨m, -, hm⟩ := List.mem_filterMap.mp hp
    obtain ⟨mod, hmod, rfl⟩ := Option.map_eq_some_iff.mp hm
    exact ⟨m, mod, hmod, rfl⟩
  refine h.moves hm hg hn (fun p hp => ?_) hout fun p hp => ?_
  · obtain ⟨m, mod, hmod, rfl⟩ := hprogram p hp
    exact hg.held_program hmod
  · obtain ⟨m, mod, hmod, rfl⟩ := hprogram p hp
    exact hg.program_ne_child hmod hn

/-! ## Walks over all modules -/

theorem steady_serves (hc : Covers (tableOf frame)) (howned : Owned frame) (n : Nat) :
    Serves (steady frame) (tableOf frame) (Queries.ofDepth n) :=
  (steady_stage hc howned n (steady_answers hc howned n)).serves (steady_rules hc)

theorem walkEach_tends (hc : Covers (tableOf frame)) (howned : Owned frame) :
    ∀ (ms : List ModuleId) {g g' : Graph}, Tended recursive frame g → (∀ m ∈ ms, m ∈ g.order) →
    Marking.walkEach depth recursive ms g = .ok ((), g') →
      Tended recursive frame g' ∧ Moves (g.programs ms) g g' ∧
        ∀ p ∈ g.programs ms, ∀ n, p.Around n → g'.Shaped recursive n
  | [], g, g', hg, _, hrun => by
    cases hrun
    exact ⟨hg, .refl g, by simp [Graph.programs]⟩
  | m :: ms, g, g', hg, horder, hrun => by
    have hms : ∀ k ∈ ms, k ∈ g.order := fun k hk => horder k (List.mem_cons_of_mem m hk)
    cases hmod : g.module? m with
    | none =>
      have hsame : g.programs (m :: ms) = g.programs ms := by simp [Graph.programs, hmod]
      rw [hsame]
      obtain ⟨_, g1, hstep, hrest⟩ := bind_ok.mp hrun
      replace hstep := get_ok hstep
      simp only [hmod] at hstep
      cases hstep
      exact walkEach_tends hc howned ms hg hms hrest
    | some mod =>
      obtain ⟨s, g1, hwalk, hrest⟩ := Marking.walkEach_cons hmod hrun
      have hheld := hg.placed.held_program hmod
      have htable := walking_absorbs.program hg.holds hmod
      have hlive : (g.markNode mod.program.info.id).Live recursive (.program mod.program) :=
        .program (horder m List.mem_cons_self) hmod ((isIncluded_markNode hheld).mpr (.inl rfl))
      obtain ⟨hg1, h1, -, hshaped1⟩ :=
        walk_tends hc (steady_serves hc howned _) _ htable {} g hg hlive () s g1 hwalk
      obtain ⟨hg', h2, hshaped2⟩ := walkEach_tends hc howned ms hg1
        (by rw [h1.evolves.order]; exact hms) hrest
      have hprograms : g.programs (m :: ms) = [.program mod.program] ++ g1.programs ms := by
        rw [h1.evolves.programs]
        simp [Graph.programs, hmod]
      rw [hprograms]
      refine ⟨hg', h1.trans h2, fun p hp n hpn => ?_⟩
      rcases List.mem_append.mp hp with hp | hp
      · cases List.mem_singleton.mp hp
        by_cases hother : ∃ q ∈ g1.programs ms, q.Around n
        · obtain ⟨q, hq, hqn⟩ := hother
          exact hshaped2 q hq n hqn
        · refine (hshaped1 n hpn).outside hg1.placed ?_ h2 fun q hq hqn => hother ⟨q, hq, hqn⟩
          rw [h1.evolves.node?]
          exact hg.placed.covers.around hheld hpn
      · exact hshaped2 p hp n hpn

theorem walkModules_tends (hc : Covers (tableOf frame)) (howned : Owned frame)
    (hg : Tended recursive frame g) (hrun : Marking.walkModules depth recursive g = .ok ((), g')) :
    Tended recursive frame g' ∧ ∀ {n}, Held g'.node? n → g'.Shaped recursive n := by
  obtain ⟨hg', hmoves, hshaped⟩ := walkEach_tends hc howned g.order hg (fun _ => id) hrun
  refine ⟨hg', fun {n} hn hchoice hin => ?_⟩
  obtain ⟨p, hp, hpn⟩ := (hg'.attends ⟨n, hn, hchoice, .inl rfl⟩ hin).program_around
  rw [hmoves.evolves.programs, hmoves.evolves.order] at hp
  exact hshaped p hp n hpn hchoice hin

/-! ## Marking -/

theorem Tended.same (hg : Tended recursive frame g)
    (h : g' = { g with needsPass := g'.needsPass, log := g'.log }) : Tended recursive frame g' := by
  have he : Evolves g g' := by
    rw [h]
    exact { Evolves.refl g with }
  have hfacts : ∀ k, g'.facts k = g.facts k := fun k => by rw [h]; rfl
  refine ⟨?_, hg.sealed.evolves hg.holds.1 he, fun hn hin => ?_⟩
  · refine ⟨hg.holds.1.evolves he ?_, he.frame.trans hg.holds.2⟩
    rw [h]
    exact hg.holds.1.linkable.congr rfl rfl rfl rfl
  · have hin' : ∀ k, g'.isIncluded k = g.isIncluded k := fun k => by
      rw [isIncluded, hfacts, ← isIncluded]
    rw [hin'] at hin
    refine (hg.attends (he.chooses.mp hn) hin).later he (fun {k} _ => .inl ?_) fun {k} hk => ?_
    · rw [hfacts]
    · rw [hin']
      exact hk

theorem pass_tends (hc : Covers (tableOf frame)) (howned : Owned frame)
    (hg : Tended false frame g) (hrun : Marking.pass depth g = .ok ((), g')) :
    Tended false frame g' ∧ ∀ {n}, Held g'.node? n → g'.Shaped false n :=
  have hg1 : Tended false frame { g with needsPass := false } := hg.same rfl
  walkModules_tends hc howned hg1 hrun

theorem includeEntryExports_tends (hc : Covers (tableOf frame)) (howned : Owned frame) :
    (tending recursive frame).Keeps (Marking.includeEntryExports depth) := by
  refine Keeps.get_bind fun g _ => Keeps.forM' (fun m _ => ?_) g
  have hinclude : ∀ {v g}, g.Aloft v → (tending recursive frame).From g
      (link (Inclusion.includeVariable v) >>= fun _ =>
        (Queries.ofDepth depth).forget (.var v) Path.unknown) := by
    intro v g hv
    have hsteps : (tending recursive frame).Steps g (Inclusion.includeVariable v) fun _ _ => True :=
      Steps.get_bind fun _ => variableIn_steps tending_admits _ v g (.inl hv)
    exact From.bind hsteps.from_link fun _ g' _ _ =>
      tending_of_steady ((steady_answers hc howned _).forget _ _ trivial g')
  intro g a g' hg hrun
  obtain ⟨es, g1, hexports, hrun⟩ := bind_ok.mp hrun
  obtain ⟨h1, hg1, htop⟩ := tending_admits.links (entryExports_links m g) hg
  have hend : (entryExports m).run g = (es, g1) := Except.ok.inj hexports
  rw [hend] at h1 hg1 htop
  -- What an entry exports stays out of every choice.
  have hlasts : ∀ g g', (∀ e ∈ es, g.Aloft e.2) → Tended recursive frame g' → Moves [] g g' →
      ∀ e ∈ es, g'.Aloft e.2 := fun _ _ h _ hmoves e he => (h e he).settled hmoves.evolves.settled
  have hall : ((tending recursive frame).having fun g => ∀ e ∈ es, g.Aloft e.2).Keeps
      (es.forM fun e => link (Inclusion.includeVariable e.2) >>= fun _ =>
        (Queries.ofDepth depth).forget (.var e.2) Path.unknown) :=
    Keeps.forM' fun e he g a g' hg hrun => ((hinclude (hg.2 e he)).having (hlasts g)) a g' hg hrun
  obtain ⟨hg', h2⟩ := hall g1 a g' ⟨hg1, fun e he =>
    aloft_of_onTop hg1.holds.1.linkable (htop e he)⟩ hrun
  exact ⟨hg'.1, h1.trans h2⟩

end

theorem Graph.BuiltFrom.tended {files : Files} {entries : List Bytes} {o : BuildOptions} {g : Graph}
    (h : g.BuiltFrom files entries o) (recursive : Bool) : Tended recursive g.frame g where
  holds := ⟨h.built.sound, rfl⟩
  sealed := h.sealed
  attends := fun {n} _ hin => by
    cases hr : g.record? n.id with
    | none => simp [isIncluded, Graph.facts, hr] at hin
    | some r => simp [isIncluded, Graph.facts, hr, h.built.facts hr] at hin

theorem Marking.PassNo.tends {g0 g g' : Graph} {depth k : Nat} (h : PassNo depth g0 k g g')
    (hc : Covers (tableOf g0.frame)) (howned : Owned g0.frame) (h0 : Tended false g0.frame g0) :
    Tended false g0.frame g' ∧ ∀ {n}, Held g'.node? n → g'.Shaped false n := by
  induction h with
  | first hstart hpass =>
    obtain ⟨hg, -⟩ := includeEntryExports_tends hc howned _ _ _ h0 hstart
    exact pass_tends hc howned hg hpass
  | next _ _ hpass ih => exact pass_tends hc howned (ih.1.same rfl) hpass

/-- Of two expressions only one is included, the one that a question answers with. -/
def Graph.KeepsOne (g : Graph) (asked : Query (Option Expr)) (x y : Expr) : Prop :=
  (asked g = .ok (some x, g) ∧ g.isIncluded x.info.id = true ∧ g.isIncluded y.info.id = false) ∨
    (asked g = .ok (some y, g) ∧ g.isIncluded y.info.id = true ∧ g.isIncluded x.info.id = false)

section

variable {recursive : Bool} {g : Graph}

theorem BranchState.pick_cases {α : Type} {x y used : α} {state : BranchState}
    (h : state.pick x y = some used) : used = x ∨ used = y := by
  cases state <;> cases h
  · exact .inl rfl
  · exact .inr rfl

theorem branchOf_again {q : Queries} {id : NodeId} {t : Expr} {choose : Value → Option Bool}
    (h : (g.facts id).branch ≠ .unresolved) :
    branchOf q id t choose g = .ok ((g.facts id).branch, g) := by
  unfold branchOf
  rw [bind_run get_run]
  rw [if_pos h]
  rfl

/-- Of two sides that differ the one that is picked is the only one that is included. -/
theorem Graph.Picked.keepsOne {n : Node} {x y : Expr} {asked : Query (Option Expr)}
    (h : g.Picked n) (hx : .expr x ∈ n.children) (hy : .expr y ∈ n.children)
    (hne : Node.expr x ≠ .expr y)
    (hside : ∀ state, n.side? state = state.pick (.expr x) (.expr y))
    (hasked : (g.facts n.id).branch ≠ .unresolved →
      asked g = .ok ((g.facts n.id).branch.pick x y, g)) : g.KeepsOne asked x y := by
  obtain ⟨used, hused, honly⟩ := h
  have hasked := hasked (Node.side?_ne_unresolved hused)
  rw [hside] at hused
  have hin : ∀ e, .expr e ∈ n.children → (g.isIncluded e.info.id = true ↔ .expr e = used) :=
    fun e he => honly _ he
  cases hstate : (g.facts n.id).branch with
  | consequent =>
    rw [hstate] at hused hasked
    cases hused
    refine .inl ⟨hasked, (hin x hx).mpr rfl, ?_⟩
    simpa using (hin y hy).not.mpr hne.symm
  | alternate =>
    rw [hstate] at hused hasked
    cases hused
    refine .inr ⟨hasked, (hin y hy).mpr rfl, ?_⟩
    simpa using (hin x hx).not.mpr hne
  | _ => rw [hstate] at hused; cases hused

end

/-- When marking returns, every choice that is included is whole, or one side of it is picked. -/
theorem Marking.mark_tends {files : Files} {entries : List Bytes} {o : BuildOptions} {g0 g : Graph}
    (hbuilt : g0.BuiltFrom files entries o) {depth : Nat} {options : Options} {stats : Stats}
    (hmark : mark depth options g0 = .ok (.marked stats, g)) :
    g.Placed ∧ ∀ {n}, Held g.node? n → n.isChoice = true → g.isIncluded n.id = true →
      g.Whole n ∨ g.Picked n := by
  have hc : Covers (tableOf g0.frame) := by
    rw [tableOf_frame]
    exact hbuilt.built.placed.covers
  have howned := hbuilt.housed.owned
  by_cases htree : options.treeshake = true
  · obtain ⟨k, g1, g1', -, hno, hquiet, rfl⟩ := mark_last htree hmark
    obtain ⟨hg, hshaped⟩ := hno.tends hc howned (hbuilt.tended false)
    refine ⟨(hg.same rfl : Tended false g0.frame (noted g1' k)).placed, fun hn hchoice hin => ?_⟩
    rcases hshaped hn hchoice hin with hwhole | ⟨-, hpass | hpicked⟩
    · exact .inl hwhole
    · rw [hquiet] at hpass
      cases hpass
    · exact .inr hpicked
  · rw [mark, if_neg htree] at hmark
    obtain ⟨_, g1, hwalk, hmark⟩ := bind_ok.mp hmark
    obtain ⟨_, g2, hexports, hmark⟩ := bind_ok.mp hmark
    obtain ⟨hg1, hshaped⟩ := walkModules_tends hc howned (hbuilt.tended true) hwalk
    obtain ⟨hg2, hmoves⟩ := includeEntryExports_tends hc howned _ _ _ hg1 hexports
    cases hmark
    refine ⟨(hg2.same rfl : Tended true g0.frame _).placed, fun {n} hn hchoice hin => .inl ?_⟩
    have hn1 : Held g1.node? n := by
      rw [← hmoves.evolves.node?]
      exact hn
    have hshape := (hshaped hn1).moves hmoves hg1.placed hn1 (by simp) (by simp) (by simp)
    rcases hshape hchoice hin with hwhole | ⟨hfalse, -⟩
    · exact hwhole
    · cases hfalse

/-- **The shape of choices.** When marking returns, however deep questions may nest, every
conditional expression that is included has its test and both branches included, or its test left out
and of the branches exactly the one that is used. Every logical expression that is included has both
operands included, or exactly the one that is used. -/
theorem choices_shaped {files : Files} {entries : List Bytes} {o : BuildOptions} {g₀ g : Graph}
    (hbuilt : g₀.BuiltFrom files entries o) {depth : Nat} {options : Marking.Options}
    {stats : Marking.Stats} (hmark : Marking.mark depth options g₀ = .ok (.marked stats, g))
    (q : Queries) :
    (∀ i t x y, Held g.node? (.expr (.conditional i t x y)) → g.isIncluded i.id = true →
      (g.isIncluded t.info.id = true ∧ g.isIncluded x.info.id = true ∧
          g.isIncluded y.info.id = true) ∨
        g.isIncluded t.info.id = false ∧
          g.KeepsOne (usedBranch q i t x y) x y) ∧
    ∀ i op a b, Held g.node? (.expr (.logical i op a b)) → g.isIncluded i.id = true →
      (g.isIncluded a.info.id = true ∧ g.isIncluded b.info.id = true) ∨
        g.KeepsOne (usedOperand q i op a b) a b := by
  obtain ⟨hg, hshape⟩ := Marking.mark_tends hbuilt hmark
  refine ⟨fun i t x y hn hin => ?_, fun i op a b hn hin => ?_⟩
  · have ht : .expr t ∈ (Node.expr (.conditional i t x y)).children := by
      simp [Node.children_conditional]
    have hx : .expr x ∈ (Node.expr (.conditional i t x y)).children := by
      simp [Node.children_conditional]
    have hy : .expr y ∈ (Node.expr (.conditional i t x y)).children := by
      simp [Node.children_conditional]
    rcases hshape hn rfl hin with hwhole | hpicked
    · exact .inl ⟨hwhole _ ht, hwhole _ hx, hwhole _ hy⟩
    · have hnodup := (hg.children_nodup hn).of_map
      rw [Node.children_conditional, List.nodup_cons, List.mem_pair, not_or, List.nodup_cons,
        List.mem_singleton] at hnodup
      obtain ⟨⟨htx, hty⟩, hxy, -⟩ := hnodup
      refine .inr ⟨?_, hpicked.keepsOne hx hy hxy (fun _ => rfl) fun h => ?_⟩
      · obtain ⟨used, hused, honly⟩ := hpicked
        refine Bool.eq_false_of_not_eq_true fun hin => ?_
        rcases BranchState.pick_cases hused with rfl | rfl
        · exact htx ((honly _ ht).mp hin)
        · exact hty ((honly _ ht).mp hin)
      · exact bind_run (branchOf_again h)
  · have ha : .expr a ∈ (Node.expr (.logical i op a b)).children := by simp [Node.children_logical]
    have hb : .expr b ∈ (Node.expr (.logical i op a b)).children := by simp [Node.children_logical]
    rcases hshape hn rfl hin with hwhole | hpicked
    · exact .inl ⟨hwhole _ ha, hwhole _ hb⟩
    · have hnodup := (hg.children_nodup hn).of_map
      rw [Node.children_logical, List.nodup_cons, List.mem_singleton] at hnodup
      exact .inr (hpicked.keepsOne ha hb hnodup.1 (fun _ => rfl) fun h =>
        bind_run (branchOf_again h))

/-- Three choices: the first takes a side until a call changes its test, the others keep the side
they take. -/
def lostChoice : Files :=
  [(utf8 "m", utf8 "var c = true; function lose() \x7b c = a; \x7d " ++
    utf8 "p(c ? f() : g(), true ? f() : g(), null ?? h()); lose();")]

def Graph.keptParts (g : Graph) : List (List Bool) :=
  (g.nodes.toList.filter fun r => r.node.isChoice && r.facts.included).map fun r =>
    r.node.children.map fun c => g.isIncluded c.id

/-- Whether marking returns after some passes with the given parts of choices included. -/
def Marking.endsWith (g : Graph) (passes : Nat) (parts : List (List Bool)) : Bool :=
  match mark 20 {} g with
  | .ok (.marked stats, g') => decide (stats.passes = passes ∧ g'.keptParts = parts)
  | _ => false

theorem Marking.endsWith_run {g : Graph} {passes : Nat} {parts : List (List Bool)}
    (h : endsWith g passes parts = true) : ∃ stats g', mark 20 {} g = .ok (.marked stats, g') ∧
      stats.passes = passes ∧ g'.keptParts = parts := by
  unfold endsWith at h
  split at h
  next stats g' heq => exact ⟨stats, g', heq, of_decide_eq_true h⟩
  next => cases h

set_option maxRecDepth 100000 in
/-- The branch that is lost costs another pass and makes the first choice whole. -/
theorem choices_shaped_lost : ∃ g₀ stats g, g₀.BuiltFrom lostChoice [utf8 "m"] {} ∧
    Marking.mark 20 {} g₀ = .ok (.marked stats, g) ∧ stats.passes = 3 ∧
    g.keptParts = [[true, true, true], [false, true, false], [false, true]] ∧ ∀ q,
    (∀ i t x y, Held g.node? (.expr (.conditional i t x y)) → g.isIncluded i.id = true →
      (g.isIncluded t.info.id = true ∧ g.isIncluded x.info.id = true ∧
          g.isIncluded y.info.id = true) ∨
        g.isIncluded t.info.id = false ∧
          g.KeepsOne (usedBranch q i t x y) x y) ∧
    ∀ i op a b, Held g.node? (.expr (.logical i op a b)) → g.isIncluded i.id = true →
      (g.isIncluded a.info.id = true ∧ g.isIncluded b.info.id = true) ∨
        g.KeepsOne (usedOperand q i op a b) a b := by
  have hbuilt := Graph.builtFrom_ofFiles lostChoice [utf8 "m"] {} (by decide +kernel)
  have hends : Marking.endsWith (.ofFiles lostChoice [utf8 "m"] {}) 3
      [[true, true, true], [false, true, false], [false, true]] = true := by decide +kernel
  obtain ⟨stats, g, hmark, hpasses, hparts⟩ := Marking.endsWith_run hends
  exact ⟨_, stats, g, hbuilt, hmark, hpasses, hparts, choices_shaped hbuilt hmark⟩

end Winnow
