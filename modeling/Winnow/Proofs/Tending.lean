import Winnow.Proofs.Live

/-!
# Walks settle the choices they come by

A walk over a program comes to everything that is live, and gives every conditional and logical
expression that is included its shape: it is whole, or one side is picked (`walk_tends`). Whoever
loses a branch by which a side was picked asks for another pass, so the shape says: unless another
pass comes. `Tends` says of a step which children of a node are settled, because they were visited
or because nothing in them is included.
-/

namespace Winnow

open Winnow.Graph Query Conduct Inclusion Relation Node Queries List

variable {state : BranchState} {t : Expr} {i : Info} {choose : Value → Option Bool}

/-! ## Shapes -/

/-- The side of a choice that is used, given what it takes. -/
def Node.side? : Node → BranchState → Option Node
  | .expr (.conditional _ _ x y), state => state.pick (.expr x) (.expr y)
  | .expr (.logical _ _ a b), state => state.pick (.expr a) (.expr b)
  | _, _ => none

def Graph.Whole (g : Graph) (n : Node) : Prop := ∀ c ∈ n.children, g.isIncluded c.id = true

/-- Of the parts of a choice exactly the side that is used is included. -/
def Graph.Picked (g : Graph) (n : Node) : Prop :=
  ∃ used, n.side? (g.facts n.id).branch = some used ∧
    ∀ c ∈ n.children, g.isIncluded c.id = true ↔ c = used

/-- A choice that is included has its shape: it is whole, or one side is picked, unless another pass
comes. Where everything is included it is whole. -/
def Graph.Shaped (recursive : Bool) (g : Graph) (n : Node) : Prop :=
  n.isChoice = true → g.isIncluded n.id = true →
    g.Whole n ∨ recursive = false ∧ (g.needsPass = true ∨ g.Picked n)

section

variable {recursive : Bool} {frame : Places}
  {below : List Node} {g g' : Graph} {n c used : Node}

theorem Node.side?_ne_unresolved (h : n.side? state = some used) : state ≠ .unresolved := by
  rintro rfl
  unfold side? at h
  split at h <;> cases h

theorem Graph.Shaped.moves (h : g.Shaped recursive n) (hm : Moves below g g') (hg : g.Placed)
    (hn : Held g.node? n) (hbelow : ∀ b ∈ below, Held g.node? b)
    (haround : ∀ b ∈ below, ¬ b.Around n) (hchild : ∀ b ∈ below, b ∉ n.children) :
    g'.Shaped recursive n := by
  intro hchoice hin
  have hin0 : g.isIncluded n.id = true :=
    (hm.within ⟨n, hn, hchoice, .inl rfl⟩ hin).resolve_right fun ⟨b, hb, h⟩ => haround b hb h
  rcases h hchoice hin0 with hwhole | ⟨hrec, hpass | ⟨used, hside, honly⟩⟩
  · exact .inl fun c hc => hm.included (hwhole c hc)
  · exact .inr ⟨hrec, .inl (hm.steady.needsPass hpass)⟩
  · refine .inr ⟨hrec, ?_⟩
    rcases hm.steady.branch (side?_ne_unresolved hside) with hsame | ⟨-, hpass⟩
    · refine .inr ⟨used, by rw [hsame]; exact hside, fun c hc => ⟨fun hin => ?_, ?_⟩⟩
      · refine (honly c hc).mp ((hm.within ⟨n, hn, hchoice, .inr hc⟩ hin).resolve_right ?_)
        rintro ⟨b, hb, hbc⟩
        rcases ReflTransGen.cases_tail hbc with rfl | ⟨p, hbp, hpc⟩
        · exact hchild c hb hc
        · have hp := hg.parent_unique (hg.covers.around (hbelow b hb) hbp) hn hpc hc
          exact haround b hb (hp ▸ hbp)
      · exact fun heq => hm.included ((honly c hc).mpr heq)
    · exact .inl hpass

theorem Tended.not_included (hg : Tended recursive frame g) (hn : Held g.node? n)
    (hchoice : n.isChoice = true) (hc : c ∈ n.children) (hbars : g.Bars recursive n c) :
    g.isIncluded c.id = false := by
  by_contra hin
  have hlive := hg.attends ⟨n, hn, hchoice, .inr hc⟩ (by simpa using hin)
  exact (hlive.parent hg.placed hn hc).2 hbars

/-- A child that is left out, or not included, has no choices in it that are included. -/
theorem Tended.shaped_below (hg : Tended recursive frame g) (hn : Held g.node? n)
    (hc : c ∈ n.children) (hout : g.isIncluded c.id = true → g.Bars recursive n c ∨
      recursive = false ∧ g.needsPass = true) {m : Node} (hm : c.Around m) :
    g.Shaped recursive m := by
  intro hchoice hin
  have hc' := hg.placed.covers.child hn hc
  have hlive := hg.attends ⟨m, hg.placed.covers.around hc' hm, hchoice, .inl rfl⟩ hin
  have hlive' := hlive.above hg.placed hc' hm
  rcases hout hlive'.isIncluded with hbars | ⟨hrec, hpass⟩
  · exact absurd hbars (hlive'.parent hg.placed hn hc).2
  · exact .inr ⟨hrec, .inl hpass⟩

/-- A choice of which one side was visited, while nothing else of it is included. -/
theorem Graph.Shaped.of_side (hg : Tended false frame g) (hn : Held g.node? n)
    (hchoice : n.isChoice = true) (hused : used ∈ n.children)
    (hside : n.side? (g.facts n.id).branch = some used ∨ g.needsPass = true)
    (hothers : ∀ c ∈ n.children, c ≠ used → g.isIncluded c.id = false ∨ g.needsPass = true)
    (hm : Moves [used] g g') (hin : g'.isIncluded used.id = true) : g'.Shaped false n := by
  intro _ _
  by_cases hpass : g'.needsPass = true
  · exact .inr ⟨rfl, .inl hpass⟩
  have hnone : g.needsPass ≠ true := fun h => hpass (hm.steady.needsPass h)
  have hside := hside.resolve_right hnone
  refine .inr ⟨rfl, .inr ⟨used, ?_, fun c hc => ⟨fun hin' => ?_, fun heq => heq ▸ hin⟩⟩⟩
  · rw [hm.steady.same (by simpa using hpass) (side?_ne_unresolved hside)]
    exact hside
  · by_contra hne
    rcases hm.within ⟨n, hn, hchoice, .inr hc⟩ hin' with hold | ⟨b, hb, hbc⟩
    · rw [(hothers c hc hne).resolve_right hnone] at hold
      cases hold
    · cases mem_singleton.mp hb
      exact hne (hg.placed.eq_of_around hn hused hc hbc .refl).symm

/-! ## Steps on the parts of a node -/

/-- What happens below some children leaves the choices alone that are below another. -/
theorem Graph.Shaped.beside {m : Node} (h : g.Shaped recursive m) (hg : Tended recursive frame g)
    (hn : Held g.node? n) (hc : c ∈ n.children) (hcm : c.Around m) (hmoves : Moves below g g')
    (hsub : ∀ b ∈ below, b ∈ n.children)
    (hbelow : ∀ b ∈ below, ∀ m, b.Around m → g'.Shaped recursive m) : g'.Shaped recursive m := by
  have hm := hg.placed.covers.around (hg.placed.covers.child hn hc) hcm
  by_cases hother : ∃ b ∈ below, b.Around m
  · obtain ⟨b, hb, hbm⟩ := hother
    exact hbelow b hb m hbm
  · refine h.moves hmoves hg.placed hm (fun b hb => hg.placed.covers.child hn (hsub b hb))
      (fun b hb hbm => hother ⟨b, hb, hbm⟩) fun b hb hmem => ?_
    have hsame := hg.placed.parent_unique hm hn hmem (hsub b hb)
    exact hg.placed.not_around_parent hn hc (hsame ▸ hcm)

/-- A step on the parts of a live node settles some of its children: the choices below them have
their shape behind it. -/
def Tends (recursive : Bool) (frame : Places)
    (n : Node) {α : Type} (done : List Node) (s : Context) (g : Graph) (m : Walk α)
    (post : α → Graph → Prop) : Prop :=
  (∀ c ∈ done, c ∈ n.children) → Tended recursive frame g → g.Live recursive n →
    ∀ a s' g', m s g = .ok ((a, s'), g') →
      Tended recursive frame g' ∧ Moves done g g' ∧
        (∀ c ∈ done, ∀ m, c.Around m → g'.Shaped recursive m) ∧ post a g'

namespace Tends

variable {α β : Type} {done done' : List Node} {s : Context} {m : Walk α} {f : α → Walk β}
  {P : α → Graph → Prop} {Q : β → Graph → Prop}

theorem pure' {a : α} (h : P a g) : Tends recursive frame n [] s g (pure a) P := by
  intro _ hg _ a' s' g' hrun
  cases hrun
  exact ⟨hg, .refl g, by simp, h⟩

theorem bind' (hm : Tends recursive frame n done s g m P)
    (hf : ∀ a s' g', Tended recursive frame g' → Moves done g g' → P a g' →
      Tends recursive frame n done' s' g' (f a) Q) :
    Tends recursive frame n (done ++ done') s g (m >>= f) Q := by
  intro hsub hg hlive b s2 g2 hrun
  have hsub' := forall_mem_append.mp hsub
  change (m s >>= fun p => f p.1 p.2) g = .ok ((b, s2), g2) at hrun
  obtain ⟨⟨a, s1⟩, g1, hrun1, hrun2⟩ := bind_ok.mp hrun
  obtain ⟨hg1, h1, hshaped1, hP⟩ := hm hsub'.1 hg hlive a s1 g1 hrun1
  have hlive1 := hlive.moves h1
  obtain ⟨hg2, h2, hshaped2, hQ⟩ := hf a s1 g1 hg1 h1 hP hsub'.2 hg1 hlive1 b s2 g2 hrun2
  refine ⟨hg2, h1.trans h2, fun c hc m hcm => ?_, hQ⟩
  rcases mem_append.mp hc with hc | hc
  · exact (hshaped1 c hc m hcm).beside hg1 (hlive1.held hg1.placed) (hsub'.1 c hc) hcm h2 hsub'.2
      hshaped2
  · exact hshaped2 c hc m hcm

theorem imp {P' : α → Graph → Prop} (hm : Tends recursive frame n done s g m P)
    (h : ∀ a g', Moves done g g' → P a g' → P' a g') : Tends recursive frame n done s g m P' := by
  intro hsub hg hlive a s' g' hrun
  obtain ⟨hg', hmoves, hshaped, hP⟩ := hm hsub hg hlive a s' g' hrun
  exact ⟨hg', hmoves, hshaped, h a g' hmoves hP⟩

theorem given (h : Tended recursive frame g → g.Live recursive n →
    Tends recursive frame n done s g m P) : Tends recursive frame n done s g m P :=
  fun hsub hg hlive => h hg hlive hsub hg hlive

theorem leave (hm : Tends recursive frame n done s g m P) (hmore : ∀ c ∈ done, c ∈ done')
    (hout : Tended recursive frame g → ∀ c ∈ done', c ∉ done → g.isIncluded c.id = true →
      g.Bars recursive n c ∨ recursive = false ∧ g.needsPass = true) :
    Tends recursive frame n done' s g m P := by
  intro hsub hg hlive a s' g' hrun
  have hsub' := fun c hc => hsub c (hmore c hc)
  have hn := hlive.held hg.placed
  obtain ⟨hg', hmoves, hshaped, hP⟩ := hm hsub' hg hlive a s' g' hrun
  refine ⟨hg', hmoves.mono fun c hc => ⟨c, hmore c hc, .refl⟩, fun c hc m hcm => ?_, hP⟩
  by_cases hdone : c ∈ done
  · exact hshaped c hdone m hcm
  · exact (hg.shaped_below hn (hsub c hc) (hout hg c hc hdone) hcm).beside hg hn (hsub c hc) hcm
      hmoves hsub' hshaped

theorem forM' {l : List α} {node : α → Node} {f : α → Walk PUnit}
    (h : ∀ a ∈ l, ∀ below s' g', Tended recursive frame g' → Moves below g g' →
      Tends recursive frame n [node a] s' g' (f a) fun _ _ => True) :
    Tends recursive frame n (l.map node) s g (l.forM f) fun _ _ => True := by
  induction l generalizing s g with
  | nil => exact pure' trivial
  | cons a l ih =>
    refine given fun hg _ => bind' (h a mem_cons_self [] s g hg (.refl g)) ?_
    intro _ s1 g1 _ hmoves _
    exact ih fun b hb below s' g' hg' hmoves' =>
      h b (mem_cons_of_mem a hb) _ s' g' hg' (hmoves.trans hmoves')

theorem children {f : Node → Walk PUnit}
    (h : ∀ c ∈ n.children, ∀ s g, Tends recursive frame n [c] s g (f c) fun _ _ => True) :
    Tends recursive frame n n.children s g (n.children.forM f) fun _ _ => True := by
  simpa using forM' fun c hc _ s' g' _ _ => h c hc s' g'

/-- A child that is not included is settled. -/
theorem skip {a : α} (hout : g.isIncluded c.id = false) (h : P a g) :
    Tends recursive frame n [c] s g (pure a) P := by
  refine (pure' h).leave (by simp) fun _ b hb _ hin => ?_
  rw [mem_singleton.mp hb, hout] at hin
  cases hin

theorem ask {m : Query α} (h : (steady frame).From g m) (hpost : Tended recursive frame g →
      g.Live recursive n → ∀ a g', m g = .ok (a, g') → Drifts g g' → P a g') :
    Tends recursive frame n [] s g (liftM m : Walk α) P := by
  intro _ hg hlive a s' g' hrun
  obtain ⟨b, g1, hrun1, hpure⟩ := (bind_ok (f := fun a => pure (a, s))).mp hrun
  obtain ⟨heq, rfl⟩ := pure_ok.mp hpure
  cases heq
  obtain ⟨hg', hmoves⟩ := tending_of_steady h a g' hg hrun1
  exact ⟨hg', hmoves, by simp, hpost hg hlive a g' hrun1 (h a g' hg.holds hrun1).2.1⟩

theorem graph {f : Graph → Walk β} (h : Tended recursive frame g → g.Live recursive n →
      Tends recursive frame n done s g (f g) Q) :
    Tends recursive frame n done s g (getThe Graph >>= f) Q := given h

theorem context {f : Context → Walk β} (h : Tends recursive frame n done s g (f s) Q) :
    Tends recursive frame n done s g (get >>= f) Q := h

theorem ite' {p : Prop} [Decidable p] {m' : Walk α} (hm : p → Tends recursive frame n done s g m P)
    (hm' : ¬p → Tends recursive frame n done s g m' P) :
    Tends recursive frame n done s g (if p then m else m') P := by
  split
  · exact hm ‹_›
  · exact hm' ‹_›

theorem after (hm : Tends recursive frame n [] s g m P)
    (hf : ∀ a s' g', Tended recursive frame g' → Moves [] g g' → P a g' →
      Tends recursive frame n done s' g' (f a) Q) :
    Tends recursive frame n done s g (m >>= f) Q := bind' hm hf

theorem map' {f : α → β} (hm : Tends recursive frame n [] s g m P)
    (h : ∀ a g', P a g' → Q (f a) g') : Tends recursive frame n [] s g (f <$> m) Q := by
  exact hm.after fun a _ g' _ _ ha => pure' (h a g' ha)

theorem set' (s' : Context) :
    Tends recursive frame n [] s g (set s' : Walk PUnit) fun _ _ => True := by
  intro _ hg _ a _ g' hrun
  cases hrun
  exact ⟨hg, .refl g, by simp, trivial⟩

end Tends

/-! ## Visits -/

variable {q : Queries} {visit : Visit} {s : Context}

/-- A visit to a child that is not left out settles and marks it. -/
def Visits (recursive : Bool) (frame : Places)
    (visit : Visit) (n : Node) : Prop :=
  ∀ c ∈ n.children, ∀ s g, ¬ g.Bars recursive n c →
    Tends recursive frame n [c] s g (visit recursive c) fun _ g' => g'.isIncluded c.id = true

/-- A node that is visited in a common way lets everyone through. -/
theorem Node.open_of_manner (h : n.manner ≠ .own) :
    n.isAccess = false ∧ n.arms = [] ∧ n.isChoice = false := by
  cases n with
  | stmt r => cases r <;> first | exact ⟨rfl, rfl, rfl⟩ | exact absurd rfl h
  | expr e => cases e <;> first | exact ⟨rfl, rfl, rfl⟩ | exact absurd rfl h
  | _ => exact ⟨rfl, rfl, rfl⟩

theorem Tended.not_bars (hg : Tended recursive frame g) (hn : Held g.node? n)
    (haccess : n.isAccess = false) (harms : n.arms = []) : ¬ g.Bars recursive n c := by
  rintro (hres | ⟨-, ⟨side, hside, -⟩, -⟩)
  · have h := (hg.holds.1.named.whole hn hres).1
    rw [haccess] at h
    cases h
  · rw [harms] at hside
    cases hside

theorem Visits.all (hv : Visits recursive frame visit n) (haccess : n.isAccess = false)
    (harms : n.arms = []) : ∀ c ∈ n.children, ∀ s g,
      Tends recursive frame n [c] s g (visit recursive c) fun _ _ => True :=
  fun c hc s g => .given fun hg hlive =>
    (hv c hc s g (hg.not_bars (hlive.held hg.placed) haccess harms)).imp fun _ _ _ _ => trivial

theorem isNeeded_tends (hq : Serves (steady frame) (tableOf frame) q)
    (hc : Held (tableOf frame) c) :
    Tends recursive frame n [] s g (isNeeded q c) fun needed g' =>
      needed = false → g'.isIncluded c.id = false := by
  refine .graph fun _ _ => .ite' (fun _ => .pure' nofun) fun hout => ?_
  refine .context (.ite' (fun _ => .pure' fun _ => by simpa using hout) fun _ => ?_)
  refine .ask (Keeps.bind' (hq.effects c hc {}) (fun _ => Keeps.pure' _) g) ?_
  intro _ _ a g' _ hdrifts _
  rw [isIncluded, (hdrifts.facts c.id).included, ← isIncluded]
  simpa using hout

theorem visitNeeded_tends (hq : Serves (steady frame) (tableOf frame) q)
    (hv : Visits recursive frame visit n) (hc : c ∈ n.children) (hheld : Held (tableOf frame) c)
    (hopen : ¬ g.Bars recursive n c) :
    Tends recursive frame n [c] s g (visitNeeded q visit recursive c) fun _ _ => True := by
  refine .ite' (fun _ => (hv c hc s g hopen).imp fun _ _ _ _ => trivial) fun _ => ?_
  refine .after (isNeeded_tends hq hheld) fun needed s' g' hg' hmoves hneeded => ?_
  cases needed with
  | true =>
    refine (hv c hc s' g' fun h => hopen ?_).imp fun _ _ _ _ => trivial
    exact h.back hmoves.evolves hmoves.steady.loses hmoves.included
  | false => exact .skip (hneeded rfl) trivial

theorem namedVariable_tends :
    Tends recursive frame n [] s g (namedVariable n) fun _ _ => True := by
  intro _ hg hlive a s' g' hrun
  cases hname : g.namedVar? n with
  | none =>
    rw [namedVariable_none hname] at hrun
    cases hrun
    exact ⟨hg, .refl g, by simp, trivial⟩
  | some v =>
    rw [namedVariable_run hname] at hrun
    cases hrun
    have hsteps : (tending recursive frame).Steps g (Inclusion.includeVariable v) fun _ _ => True :=
      Steps.get_bind fun _ => variableIn_steps tending_admits _ v g (.inr ⟨n, hlive, hname⟩)
    obtain ⟨hmoves, hg', -⟩ := hsteps hg
    exact ⟨hg', hmoves, by simp, trivial⟩

/-! ### Nodes that let everyone through -/

theorem visitFunction_tends {f : Func}
    (hv : ∀ c ∈ (expr (.function f)).children, ∀ s g,
      Tends recursive frame (.expr (.function f)) [c] s g (visit recursive c) fun _ _ => True) :
    Tends recursive frame (.expr (.function f)) (expr (.function f)).children s g
      (visitFunction visit recursive f) fun _ _ => True := by
  have hbody := hv (ofBody f.body) (by simp)
  rw [children_function, append_assoc]
  refine .bind' (.forM' fun b hb _ s g _ _ => hv (.binder b) ?_ s g) fun _ _ _ _ _ _ => ?_
  · simp [Option.mem_toList.mp hb]
  refine .bind' (.forM' fun b hb _ s g _ _ => hv (.binder b) ?_ s g) fun _ _ _ _ _ _ => ?_
  · simp [hb]
  refine .context (.after (.set' _) fun _ s g _ _ _ => ?_)
  exact (hbody s g).bind' fun _ _ _ _ _ _ => .set' _

theorem visitAssign_tends (hq : Serves (steady frame) (tableOf frame) q) {op : AssignOp}
    {target value : Expr} (htarget : Held (tableOf frame) (.expr target))
    (hv : ∀ c ∈ (expr (.assign i op target value)).children, ∀ s g,
      Tends recursive frame (.expr (.assign i op target value)) [c] s g (visit recursive c)
        fun _ _ => True) :
    Tends recursive frame (.expr (.assign i op target value))
      (expr (.assign i op target value)).children s g
      (visitAssign q visit recursive i op target value) fun _ _ => True := by
  have htarget' := hv (.expr target) (by simp)
  have hvalue := hv (.expr value) (by simp)
  rw [children_assign]
  refine .after (.ask (hq.applyAssign _ _ _ g) fun _ _ _ _ _ _ => trivial)
    fun _ s1 g1 _ _ _ => .graph fun _ _ => ?_
  -- Whoever does not keep the target found it not included.
  have hkeep : ∀ (keep : Bool) s g, (keep = false → g.isIncluded target.info.id = false) →
      Tends recursive frame (.expr (.assign i op target value)) [.expr target, .expr value] s g (do
        if keep then visit recursive (.expr target)
        visit recursive (.expr value)) fun _ _ => True := by
    intro keep s g hout
    cases keep with
    | true => exact (htarget' s g).bind' fun _ s' g' _ _ _ => hvalue s' g'
    | false =>
      refine (hvalue s g).leave (by simp) fun _ c hc hnot hin => ?_
      obtain rfl : c = .expr target := by simpa [mem_singleton.not.mp hnot] using hc
      rw [show g.isIncluded (expr target).id = false from hout rfl] at hin
      cases hin
  refine .ite' (fun _ => hkeep true s1 g1 nofun) fun hnot => ?_
  have hout : g1.isIncluded target.info.id = false := by
    simp only [Bool.or_eq_true, not_or] at hnot
    simpa using hnot.2
  refine .after (.map'
    (.ask (hq.targetEffects op target htarget {} g1) fun _ _ _ g' _ hdrifts => ?_) fun _ _ => id)
    fun keep s2 g2 _ _ h => hkeep keep s2 g2 fun _ => h
  rw [isIncluded, (hdrifts.facts _).included]
  exact hout

/-! ### Accesses and branches -/

theorem visitMember_tends {object : Expr} (key : Option Expr)
    (hchildren : n.children = .expr object :: key.toList.map .expr) (harms : n.arms = [])
    (hv : Visits recursive frame visit n) :
    Tends recursive frame n n.children s g (visitMember visit recursive n object key)
      fun _ _ => True := by
  refine .graph fun _ _ => ?_
  cases hres : g.resolution n.id with
  | bound v =>
    exact namedVariable_tends.leave (by simp) fun _ _ _ _ _ => .inl (.inl (by rw [hres]; nofun))
  | missing =>
    exact Tends.leave (.pure' trivial) (by simp) fun _ _ _ _ _ => .inl (.inl (by rw [hres]; nofun))
  | nothing =>
    have hopen : ∀ {c g'}, Evolves g g' → ¬ g'.Bars recursive n c := by
      rintro c g' he (h | ⟨-, ⟨side, hside, -⟩, -⟩)
      · rw [resolution_of_frame he.frame] at h
        exact h hres
      · rw [harms] at hside
        cases hside
    have hobject := hv (.expr object) (by simp [hchildren]) s g (hopen (.refl g))
    rw [hchildren]
    refine hobject.bind' fun _ s1 g1 _ hmoves _ => ?_
    cases key with
    | none => exact .pure' trivial
    | some k =>
      exact (hv (.expr k) (by simp [hchildren]) s1 g1 (hopen hmoves.evolves)).imp
        fun _ _ _ _ => trivial

theorem branchOf_tends {N : Nat} (hc : Covers (tableOf frame))
    (hq : Serves (steady frame) (tableOf frame) (ofDepth N)) (hn : Held (tableOf frame) n)
    (ht : n.test? = some (t, choose)) :
    Tends recursive frame n [] s g (liftM (branchOf (ofDepth N) n.id t choose) : Walk _)
      fun state g' => (g'.facts n.id).branch = state ∧ state ≠ .unresolved :=
  .ask (hq.branchOf n t choose hn ht g) fun hg _ _ _ hrun _ => branchOf_state hc hg.holds hn hrun

theorem Node.children_branching (ht : n.test? = some (t, choose)) :
    n.children = .expr t :: n.arms.map Prod.snd := by
  unfold test? at ht
  split at ht <;> cases ht
  · exact children_conditional ..
  · rw [children_branch, arms, List.map_cons, List.map_map]
    rfl
  · exact children_logical ..

theorem Node.not_isAccess_of_test (ht : n.test? = some (t, choose)) : n.isAccess = false := by
  unfold test? at ht
  split at ht <;> first | rfl | cases ht

section

variable {t : Expr} {choose : Value → Option Bool} (hg : Tended recursive frame g)
  (hn : Held (tableOf frame) n) (ht : n.test? = some (t, choose))
include hg hn ht

theorem Tended.branching_nodup : (expr t :: n.arms.map Prod.snd).Nodup :=
  children_branching ht ▸ .of_map _ (hg.placed.children_nodup (held_node? hg.holds hn))

theorem Tended.not_resolved : g.resolution n.id = .nothing := by
  by_contra hres
  have h := (hg.holds.1.named.whole (held_node? hg.holds hn) hres).1
  rw [not_isAccess_of_test ht] at h
  cases h

theorem Tended.lets_test : ¬ g.Bars recursive n (.expr t) := by
  rintro (hres | ⟨-, ⟨side, hside, -⟩, -⟩)
  · exact hres (hg.not_resolved hn ht)
  · exact (nodup_cons.mp (hg.branching_nodup hn ht)).1 (mem_map_of_mem hside)

/-- A side of a branching node is let through if it may be taken, or the test is kept. -/
theorem Tended.lets_side {side : BranchState} (hside : (side, c) ∈ n.arms)
    (h : recursive = false → (g.facts n.id).branch = .unknown ∨ (g.facts n.id).branch = side ∨
      ∃ b, n.condition? = some b ∧ g.isIncluded b.id = true) : ¬ g.Bars recursive n c := by
  rintro (hres | ⟨hrec, ⟨side', hside', hunknown, hother⟩, htest⟩)
  · exact hres (hg.not_resolved hn ht)
  · have hnodup := (nodup_cons.mp (hg.branching_nodup hn ht)).2
    cases inj_on_of_nodup_map hnodup hside hside' rfl
    rcases h hrec with h | h | ⟨b, hb, hin⟩
    · exact hunknown h
    · exact hother h
    · rw [htest b hb] at hin
      cases hin

end

theorem Moves.branch (h : Moves below g g')
    (hstate : (g.facts n.id).branch = state ∧ state ≠ .unresolved) :
    (g'.facts n.id).branch = .unknown ∨ (g'.facts n.id).branch = state := by
  obtain ⟨rfl, hne⟩ := hstate
  exact (h.steady.loses hne).symm

theorem Moves.side (h : Moves below g g') (hside : n.side? (g.facts n.id).branch = some used) :
    n.side? (g'.facts n.id).branch = some used ∨ g'.needsPass = true := by
  rcases h.steady.branch (side?_ne_unresolved hside) with hsame | ⟨-, hpass⟩
  · exact .inl (by rw [hsame]; exact hside)
  · exact .inr hpass

/-- The side of a conditional expression that is used is its arm for what it takes. -/
theorem Node.arm_of_pick {x y used : Expr} (h : some used = state.pick x y) :
    (expr (.conditional i t x y)).side? state = some (.expr used) ∧
      ∀ b, (state, b) ∈ (expr (.conditional i t x y)).arms ↔ b = .expr used := by
  cases state <;> cases h <;> simp [arms, side?, BranchState.pick]

/-- Only the side that a choice takes is visited, and nothing else of it is included. -/
theorem visitSide_tends (hn : Held (tableOf frame) n) (hchoice : n.isChoice = true)
    (hv : Visits false frame visit n) (hused : c ∈ n.children)
    (hg : Tended false frame g) (hopen : ¬ g.Bars false n c)
    (hside : n.side? (g.facts n.id).branch = some c ∨ g.needsPass = true)
    (hothers : ∀ b ∈ n.children, b ≠ c → g.isIncluded b.id = false ∨ g.needsPass = true) :
    Tends false frame n n.children s g (visit false c) fun _ g' => g'.Shaped false n := by
  refine ((hv c hused s g hopen).imp fun _ g' hmoves hin => ?_).leave (by simpa using hused)
    fun _ b hb hne hin => ?_
  · exact .of_side hg (held_node? hg.holds hn) hchoice hused hside hothers hmoves hin
  · rcases hothers b hb (by simpa using hne) with hout | hpass
    · rw [hout] at hin
      cases hin
    · exact .inr ⟨rfl, hpass⟩

section

variable {N : Nat} (hc : Covers (tableOf frame))
  (hq : Serves (steady frame) (tableOf frame) (Queries.ofDepth N))
include hc hq

theorem visitLogical_tends {op : LogicalOp} {a b : Expr}
    (he : Held (tableOf frame) (.expr (.logical i op a b)))
    (hv : Visits recursive frame visit (.expr (.logical i op a b))) :
    Tends recursive frame (.expr (.logical i op a b)) (expr (.logical i op a b)).children s g
      (visitLogical (ofDepth N) visit recursive i op a b)
      fun _ g' => g'.Shaped recursive (.expr (.logical i op a b)) := by
  have ha : .expr a ∈ (expr (.logical i op a b)).children := by simp
  have hb : .expr b ∈ (expr (.logical i op a b)).children := by simp
  refine .after (branchOf_tends hc hq he rfl) fun state s1 g1 hg1 _ hstate => ?_
  have hright : ∀ {g'}, Tended recursive frame g' → recursive = true ∨
      (g'.facts i.id).branch = .unknown ∨ (g'.facts i.id).branch = .alternate →
      ¬ g'.Bars recursive (.expr (.logical i op a b)) (.expr b) := fun hg' h =>
    hg'.lets_side he rfl (mem_singleton_self _) fun hrec =>
      (h.resolve_left (by simp [hrec])).imp_right .inl
  -- Both operands are visited where the branch is unknown or takes the right one.
  have hboth : ∀ {below} s2 g2, Tended recursive frame g2 → Moves below g1 g2 →
      recursive = true ∨ state ≠ .consequent →
      Tends recursive frame (.expr (.logical i op a b))
        (expr (.logical i op a b)).children s2 g2 (do
          visit recursive (.expr a)
          visit recursive (.expr b))
        fun _ g' => g'.Shaped recursive (.expr (.logical i op a b)) := by
    intro below s2 g2 hg2 h2 hside
    rw [children_logical]
    refine (hv _ ha s2 g2 (hg2.lets_test he rfl)).bind' fun _ s3 g3 hg3 h3 hina => ?_
    refine (hv _ hb s3 g3 (hright hg3 (hside.imp_right fun hside => ?_))).imp
      fun _ g4 h4 hinb _ _ => .inl fun c hc => ?_
    · rcases (h2.trans h3).branch hstate with h | h
      · exact .inl h
      · cases state with
        | unresolved => exact absurd rfl hstate.2
        | consequent => exact absurd rfl hside
        | alternate => exact .inr h
        | unknown => exact .inl h
    · rw [children_logical] at hc
      rcases mem_pair.mp hc with rfl | rfl
      · exact h4.included hina
      · exact hinb
  cases recursive with
  | true =>
    refine .after (.pure' (P := fun both _ => both = true) rfl) fun both s2 g2 hg2 h2 hyes => ?_
    rw [hyes]
    exact hboth s2 g2 hg2 h2 (.inl rfl)
  | false =>
    cases state with
    | unresolved => exact absurd rfl hstate.2
    | unknown =>
      refine .after (.pure' (P := fun both _ => both = true) rfl) fun both s2 g2 hg2 h2 hyes => ?_
      rw [hyes]
      exact hboth s2 g2 hg2 h2 (.inr nofun)
    | consequent =>
      refine .after (.pure' (P := fun both g' => both = false ∧ g' = g1) ⟨rfl, rfl⟩)
        fun both s2 g2 hg2 h2 hno => ?_
      obtain ⟨rfl, rfl⟩ := hno
      refine visitSide_tends he rfl hv ha hg2 (hg2.lets_test he rfl) (.inl ?_)
        fun c hc hca => .inl ?_
      · exact congrArg (BranchState.pick _ _) hstate.1
      · obtain rfl : c = .expr b :=
          (mem_pair.mp (children_logical i op a b ▸ hc)).resolve_left hca
        refine hg2.not_included (held_node? hg2.holds he) rfl hb (.inr ⟨rfl, ?_, nofun⟩)
        exact ⟨.alternate, mem_singleton_self _, hstate.1 ▸ nofun, hstate.1 ▸ nofun⟩
    | alternate =>
      refine .after (isNeeded_tends hq (hc.child he ha)) fun both s2 g2 hg2 h2 hneeded => ?_
      cases both with
      | true => exact hboth s2 g2 hg2 h2 (.inr nofun)
      | false =>
        refine visitSide_tends he rfl hv hb hg2 (hright hg2 (.inr ?_)) ?_ fun c hc hcb => .inl ?_
        · exact h2.branch hstate
        · exact h2.side (congrArg (BranchState.pick _ _) hstate.1)
        · obtain rfl : c = .expr a :=
            (mem_pair.mp (children_logical i op a b ▸ hc)).resolve_right hcb
          exact hneeded rfl

theorem visitConditional_tends {x y : Expr}
    (he : Held (tableOf frame) (.expr (.conditional i t x y)))
    (hv : Visits recursive frame visit (.expr (.conditional i t x y))) :
    Tends recursive frame (.expr (.conditional i t x y))
      (expr (.conditional i t x y)).children s g
      (visitConditional (ofDepth N) visit recursive i t x y)
      fun _ g' => g'.Shaped recursive (.expr (.conditional i t x y)) := by
  have hmem : ∀ {c}, c ∈ (expr (.conditional i t x y)).children ↔
      c = .expr t ∨ c = .expr x ∨ c = .expr y := by simp
  -- Once the test is kept, both sides are.
  have hthree : ∀ s g, Tends recursive frame (.expr (.conditional i t x y))
      (expr (.conditional i t x y)).children s g (visitThree visit recursive t x y)
      fun _ g' => g'.Shaped recursive (.expr (.conditional i t x y)) := by
    intro s g
    refine .given fun hg _ => ?_
    rw [children_conditional]
    refine (hv _ (hmem.mpr (.inl rfl)) s g (hg.lets_test he rfl)).bind'
      fun _ s1 g1 hg1 _ hint => ?_
    refine (hv _ (hmem.mpr (.inr (.inl rfl))) s1 g1 ?_).bind' fun _ s2 g2 hg2 h2 hinx => ?_
    · exact hg1.lets_side he rfl (.head _) fun _ => .inr (.inr ⟨.expr t, rfl, hint⟩)
    refine (hv _ (hmem.mpr (.inr (.inr rfl))) s2 g2 ?_).imp fun _ g3 h3 hiny _ _ =>
      .inl fun c hc => ?_
    · exact hg2.lets_side he rfl (.tail _ (.head _)) fun _ =>
        .inr (.inr ⟨.expr t, rfl, h2.included hint⟩)
    · rcases hmem.mp hc with rfl | rfl | rfl
      · exact h3.included (h2.included hint)
      · exact h3.included hinx
      · exact hiny
  refine .after (.ask (P := fun used g' => ∃ state,
      ((g'.facts i.id).branch = state ∧ state ≠ .unresolved) ∧ used = state.pick x y)
    (hq.usedBranch he g) fun hg _ used g' hrun _ => ?_)
    fun used s1 g1 hg1 _ ⟨state, hstate, hpick⟩ => ?_
  · obtain ⟨state, g1, hrun1, hpure⟩ := bind_ok.mp hrun
    obtain ⟨rfl, rfl⟩ := pure_ok.mp hpure
    exact ⟨state, branchOf_state hc hg.holds he hrun1, rfl⟩
  cases recursive with
  | true => exact hthree s1 g1
  | false =>
    cases used with
    | none => exact hthree s1 g1
    | some used =>
      refine .after (isNeeded_tends hq (hc.child he (hmem.mpr (.inl rfl))))
        fun needed s2 g2 hg2 h2 hneeded => ?_
      cases needed with
      | true => exact hthree s2 g2
      | false =>
        obtain ⟨hside, harm⟩ := arm_of_pick hpick
        have hused : .expr used ∈ (expr (.conditional i t x y)).children := by
          rw [children_branching rfl]
          exact mem_cons_of_mem _ (mem_map_of_mem ((harm _).mpr rfl))
        refine visitSide_tends he rfl hv hused hg2 ?_ (h2.side (hstate.1 ▸ hside))
          fun b hb hne => ?_
        · exact hg2.lets_side he rfl ((harm _).mpr rfl) fun _ =>
            (h2.branch (n := .expr (.conditional i t x y)) hstate).imp_right .inl
        · have hb' := hb
          rw [children_branching rfl] at hb'
          rcases mem_cons.mp hb' with rfl | hb'
          · exact .inl (hneeded rfl)
          · obtain ⟨⟨side, b⟩, harm', rfl⟩ := mem_map.mp hb'
            have hknown : (g1.facts i.id).branch ≠ .unresolved := hstate.1 ▸ hstate.2
            rcases h2.steady.branch hknown with hsame | ⟨-, hpass⟩
            · rw [hstate.1] at hsame
              refine .inl (hg2.not_included (held_node? hg2.holds he) rfl hb (.inr ⟨rfl, ?_, ?_⟩))
              · refine ⟨side, harm', fun h => ?_, fun h => hne ?_⟩
                · rw [hsame.symm.trans h] at hpick
                  cases hpick
                · exact (harm b).mp (hsame.symm.trans h ▸ harm')
              · rintro c ⟨⟩
                exact hneeded rfl
            · exact .inr hpass

theorem visitBranch_tends {x : Stmt} {y : Option Stmt}
    (hs : Held (tableOf frame) (.stmt (.branch i t x y)))
    (hv : Visits recursive frame visit (.stmt (.branch i t x y))) :
    Tends recursive frame (.stmt (.branch i t x y)) (stmt (.branch i t x y)).children s g
      (visitBranch (ofDepth N) visit recursive i t x y) fun _ _ => True := by
  have hmem : ∀ {c}, c ∈ (stmt (.branch i t x y)).children ↔
      c = .expr t ∨ c = ofStmt x ∨ c ∈ y.toList.map ofStmt := by
    simp
  have ht := hmem.mpr (.inl rfl)
  have hx := hmem.mpr (.inr (.inl rfl))
  have hy : ∀ r ∈ y.toList, ofStmt r ∈ (stmt (.branch i t x y)).children :=
    fun r hr => hmem.mpr (.inr (.inr (mem_map_of_mem hr)))
  have harm : ∀ r ∈ y.toList,
      (.alternate, ofStmt r) ∈ (stmt (.branch i t x y)).arms := fun r hr =>
    .tail _ (mem_map.mpr ⟨r, hr, rfl⟩)
  cases recursive with
  | true =>
    refine .given fun hg _ => ?_
    rw [children_branch]
    refine (hv _ ht s g (hg.lets_test hs rfl)).bind' fun _ s1 g1 hg1 _ _ => ?_
    refine (hv _ hx s1 g1 (hg1.lets_side hs rfl (.head _) nofun)).bind' fun _ s2 g2 _ _ _ => ?_
    refine .forM' fun r hr _ s g hg _ => (hv _ (hy r hr) s g ?_).imp fun _ _ _ _ => trivial
    exact hg.lets_side hs rfl (harm r hr) nofun
  | false =>
    refine .after (branchOf_tends hc hq hs rfl) fun state s1 g1 hg1 _ hstate => ?_
    have htest : ∀ s g, Tended false frame g → Tends false frame (.stmt (.branch i t x y))
        [.expr t] s g (visitNeeded (ofDepth N) visit false (.expr t)) fun _ _ => True :=
      fun s g hg => visitNeeded_tends hq hv ht (hc.child hs ht) (hg.lets_test hs rfl)
    have hlater : ∀ {below g'}, Moves below g1 g' →
        (g'.facts i.id).branch = .unknown ∨ (g'.facts i.id).branch = state := fun h =>
      h.branch hstate
    cases state with
    | unresolved => exact absurd rfl hstate.2
    | consequent =>
      refine ((htest s1 g1 hg1).bind' fun _ s2 g2 hg2 h2 _ => visitNeeded_tends hq hv hx
        (hc.child hs hx) (hg2.lets_side hs rfl (.head _) fun _ => ?_)).leave ?_ ?_
      · exact (hlater h2).imp_right .inl
      · simp
      · intro _ c hc hnot _
        obtain ⟨hnt, hnx⟩ := not_or.mp (mem_pair.not.mp hnot)
        obtain ⟨r, hr, rfl⟩ := mem_map.mp (((hmem.mp hc).resolve_left hnt).resolve_left hnx)
        exact .inl (.inr ⟨rfl, ⟨_, harm r hr, hstate.1 ▸ nofun, hstate.1 ▸ nofun⟩, nofun⟩)
    | alternate =>
      have hsides : ∀ {below} s2 g2, Moves below g1 g2 →
          Tends false frame (.stmt (.branch i t x y)) (y.toList.map ofStmt) s2 g2
            (y.toList.forM fun r => visitNeeded (ofDepth N) visit false (ofStmt r))
            fun _ _ => True := by
        refine fun s2 g2 h2 => .forM' fun r hr _ s g hg h =>
          visitNeeded_tends hq hv (hy r hr) (hc.child hs (hy r hr)) ?_
        exact hg.lets_side hs rfl (harm r hr) fun _ => (hlater (h2.trans h)).imp_right .inl
      refine ((htest s1 g1 hg1).bind' fun _ s2 g2 _ h2 _ => hsides s2 g2 h2).leave ?_ ?_
      · exact fun c hc => hmem.mpr ((mem_append.mp hc).imp mem_singleton.mp .inr)
      · intro _ c hc hnot _
        obtain ⟨hnt, hny⟩ := not_or.mp (mem_append.not.mp hnot)
        obtain rfl : c = ofStmt x :=
          ((hmem.mp hc).resolve_left (mem_singleton.not.mp hnt)).resolve_right hny
        exact .inl (.inr ⟨rfl, ⟨.consequent, .head _, hstate.1 ▸ nofun, hstate.1 ▸ nofun⟩, nofun⟩)
    | unknown =>
      have hopen : ∀ {below g' side c}, Tended false frame g' → Moves below g1 g' →
          (side, c) ∈ (stmt (.branch i t x y)).arms →
          ¬ g'.Bars false (.stmt (.branch i t x y)) c := fun hg' h hside =>
        hg'.lets_side hs rfl hside fun _ => .inl ((hlater h).elim id id)
      rw [children_branch]
      refine (hv _ ht s1 g1 (hg1.lets_test hs rfl)).bind' fun _ s2 g2 hg2 h2 _ => .context ?_
      refine (visitNeeded_tends hq hv hx (hc.child hs hx) (hopen hg2 h2 (.head _))).bind'
        fun _ s3 g3 hg3 h3 _ => .context ?_
      refine .after (.set' _) fun _ s4 g4 hg4 h4 _ => ?_
      cases y with
      | none => exact .pure' trivial
      | some r =>
        have hr : r ∈ (some r).toList := by simp
        refine .after (isNeeded_tends hq (hc.child hs (hy r hr)))
          fun needed s5 g5 hg5 h5 hneeded => ?_
        cases needed with
        | true =>
          have hmoves := ((h2.trans h3).trans h4).trans h5
          refine (hv _ (hy r hr) s5 g5 (hopen hg5 hmoves (harm r hr))).bind' fun _ s6 g6 _ _ _ => ?_
          exact .context (.set' _)
        | false => exact .skip (hneeded rfl) trivial

theorem visitParts_tends (hn : Held (tableOf frame) n) (hv : Visits recursive frame visit n) :
    Tends recursive frame n n.children s g (visitParts (ofDepth N) visit recursive n)
      fun _ g' => g'.Shaped recursive n := by
  have hshaped : n.isChoice = false → ∀ {m : Walk Unit},
      Tends recursive frame n n.children s g m (fun _ _ => True) →
      Tends recursive frame n n.children s g m fun _ g' => g'.Shaped recursive n :=
    fun hno _ hm => hm.imp fun _ _ _ _ hchoice => absurd hchoice (by simp [hno])
  by_cases hown : n.manner = .own
  · have hall := hv.all
    cases n with
    | binder b => exact hshaped rfl namedVariable_tends
    | expr e =>
      cases e with
      | logical i op a b => exact visitLogical_tends hc hq hn hv
      | conditional i t x y => exact visitConditional_tends hc hq hn hv
      | ident i | receiver i k => exact hshaped rfl namedVariable_tends
      | member i object name =>
        exact hshaped rfl (visitMember_tends none (children_member ..) rfl hv)
      | index i object key =>
        exact hshaped rfl (visitMember_tends (some key) (children_index ..) rfl hv)
      | call i isNew callee as =>
        have hcallee := hall rfl rfl (.expr callee) (by simp)
        have has := fun a (ha : a ∈ as) => hall rfl rfl (.expr a) (by simp [ha])
        rw [children_call] at hshaped ⊢
        refine hshaped rfl (.after (.ask (hq.applyCall i isNew callee as g)
          fun _ _ _ _ _ _ => trivial) fun _ s1 g1 _ _ _ => ?_)
        exact (hcallee s1 g1).bind' fun _ _ _ _ _ _ => .forM' fun a ha _ s g _ _ => has a ha s g
      | assign i op target value =>
        exact hshaped rfl (visitAssign_tends hq (hc.child hn (by simp)) (hall rfl rfl))
      | function f => exact hshaped rfl (visitFunction_tends (hall rfl rfl))
      | _ => cases hown
    | stmt r =>
      cases r with
      | branch i t x y => exact hshaped rfl (visitBranch_tends hc hq hn hv)
      | function f | classDef d => exact absurd (hc.proper hn) nofun
      | _ => cases hown
    | _ => cases hown
  · obtain ⟨haccess, harms, hno⟩ := open_of_manner hown
    refine hshaped hno ?_
    rw [visitParts_eq]
    have hall := Tends.children (s := s) (g := g) (hv.all haccess harms)
    cases hmanner : n.manner with
    | all => exact hall
    | needed =>
      exact .children fun c h s g => .given fun hg _ => visitNeeded_tends hq hv h (hc.child hn h)
        (hg.not_bars (held_node? hg.holds hn) haccess harms)
    | last =>
      have h := hall.bind' (f := fun _ => setBroken true) fun _ _ _ _ _ _ => .set' _
      rwa [append_nil] at h
    | own => exact absurd hmanner hown

/-! ## Walks -/

/-- A walk from a node that will be live settles all choices in it. -/
theorem walk_tends : ∀ (depth : Nat) {n : Node}, Held (tableOf frame) n → ∀ s g,
    Tended recursive frame g → (g.markNode n.id).Live recursive n → ∀ a s' g',
    walk (ofDepth N) depth recursive n s g = .ok ((a, s'), g') →
      Tended recursive frame g' ∧ Moves [n] g g' ∧ g'.isIncluded n.id = true ∧
        ∀ m, n.Around m → g'.Shaped recursive m
  | 0, _, _, _, _, _, _, _, _, _, hrun => absurd hrun nofun
  | depth + 1, n, hn, s, g, hg, hlive, a, s', g', hrun => by
    rw [walk, visitNode_eq] at hrun
    obtain ⟨hg1, h1⟩ := hg.markNode (held_node? hg.holds hn) hlive
    have hv : Visits recursive frame (walk (ofDepth N) depth) n := by
      intro c hchild s g hopen _ hg hlive a s' g' hrun
      have hheld := hc.child hn hchild
      have hmark := Includes.markNode g c.id
      have hlive' : (g.markNode c.id).Live recursive c := by
        have hloses : g.Loses (g.markNode c.id) := (Steady.of_includes hmark).loses
        refine .child (hlive.later hmark.toEvolves hloses hmark.included) hchild
          (fun h => hopen (h.back hmark.toEvolves hloses hmark.included)) ?_
        exact (isIncluded_markNode (held_node? hg.holds hheld)).mpr (.inl rfl)
      obtain ⟨hg', hmoves, hin, hshaped⟩ := walk_tends depth hheld s g hg hlive' a s' g' hrun
      exact ⟨hg', hmoves, fun b hb => by cases mem_singleton.mp hb; exact hshaped, hin⟩
    obtain ⟨hg', h2, hbelow, hself⟩ :=
      visitParts_tends hc hq hn hv (fun _ => id) hg1 hlive a s' g' hrun
    refine ⟨hg', (h1.trans h2).mono fun c hin => ⟨n, mem_cons_self, ?_⟩,
      h2.included hlive.isIncluded, fun m hm => ?_⟩
    · rcases mem_cons.mp hin with rfl | hchild
      · exact .refl
      · exact .single hchild
    · rcases ReflTransGen.cases_head hm with rfl | ⟨c, hchild, hcm⟩
      · exact hself
      · exact hbelow c hchild m hcm

end

end

end Winnow
