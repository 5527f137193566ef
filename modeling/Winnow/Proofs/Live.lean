import Winnow.Proofs.Closure
import Winnow.Proofs.Sealing
import Winnow.Proofs.Steady

/-!
# What every pass comes to

A walk that comes to a node goes on to those children that are included, apart from sides of a
branch that is not taken and from what a resolved access stands for. So every pass comes to a node
that can be reached from a program like this (`Graph.Live`), and it stays so as more is included.

A conditional or logical expression that is included is live, and so are its parts that are
(`Graph.Attends`): walks mark live nodes, and the declarations that an included variable takes along
stand outside of such parts, or the name of the variable stands in the same part.
-/

namespace Winnow

open Winnow.Graph Query Conduct Inclusion Relation

/-! ## The tree of a placed graph -/

namespace Graph.Placed

variable {g : Graph} (hg : g.Placed) {n m p q c : Node}
include hg

omit hg in
theorem eq_of_id (hn : Held g.node? n) (hm : Held g.node? m) (h : n.id = m.id) : n = m := by
  rw [Held, h, hm] at hn
  exact (Option.some.inj hn).symm

theorem parent_unique (hp : Held g.node? p) (hq : Held g.node? q) (h : c ∈ p.children)
    (h' : c ∈ q.children) : p = q := by
  refine eq_of_id hp hq ?_
  have hparent := hg.child_parent hp h
  rw [hg.child_parent hq h'] at hparent
  exact (Option.some.inj hparent).symm

theorem proper_of_held (hn : Held g.node? n) : n.Proper := by
  obtain ⟨r, hr, rfl⟩ := Option.map_eq_some_iff.mp hn
  exact hg.proper hr

theorem not_around_parent (hn : Held g.node? n) (hc : c ∈ n.children) : ¬ c.Around n := by
  intro haround
  have hproper := hg.proper_of_held hn
  obtain ⟨hregular, hnode⟩ := hproper.regular
  have hnodup : (n.outline.preorder.map Node.id).Nodup := by
    obtain ⟨r, hr, rfl⟩ := Option.map_eq_some_iff.mp hn
    exact hg.distinct hr
  have hchild : ∃ o ∈ n.outline.children, o.node = c := List.mem_map.mp hc
  generalize ho : n.outline = o at hnode hnodup hchild
  obtain ⟨top, os⟩ := o
  obtain ⟨o, hmem, rfl⟩ := hchild
  have hinner : n ∈ o.preorder := by
    have hregular' := Outline.regular_children n o (by rw [ho]; exact hmem)
    rw [← hregular'.outline]
    exact (Node.mem_preorder_iff hregular'.proper).mpr haround
  rw [Outline.preorder, Outline.preorders_eq, List.map_cons, List.nodup_cons] at hnodup
  refine hnodup.1 (List.mem_map.mpr ⟨n, List.mem_flatMap.mpr ⟨o, hmem, hinner⟩, ?_⟩)
  exact congrArg Node.id hnode.symm

theorem around_total (hp : Held g.node? p) (hq : Held g.node? q) (h : p.Around n)
    (h' : q.Around n) : p.Around q ∨ q.Around p := by
  induction h with
  | refl => exact .inr h'
  | @tail m n hpm hmn ih =>
    rcases ReflTransGen.cases_tail h' with rfl | ⟨m', hqm', hm'n⟩
    · exact .inl (hpm.tail hmn)
    · have hsame := hg.parent_unique (hg.covers.around hp hpm) (hg.covers.around hq hqm') hmn hm'n
      subst hsame
      exact ih hqm'

theorem eq_of_around (hn : Held g.node? n) (hp : p ∈ n.children) (hq : q ∈ n.children)
    (h : p.Around m) (h' : q.Around m) : p = q := by
  have hside : ∀ {p q : Node}, p ∈ n.children → q ∈ n.children → p.Around q → p = q := by
    intro p q hp hq hpq
    rcases ReflTransGen.cases_tail hpq with rfl | ⟨m', hpm', hm'q⟩
    · rfl
    · have hsame := hg.parent_unique (hg.covers.around (hg.covers.child hn hp) hpm') hn hm'q hq
      subst hsame
      exact absurd hpm' (hg.not_around_parent hn hp)
  rcases hg.around_total (hg.covers.child hn hp) (hg.covers.child hn hq) h h' with h | h
  · exact hside hp hq h
  · exact (hside hq hp h).symm

theorem program_ne_child {k : ModuleId} {mod : Module} (hmod : g.module? k = some mod)
    (hn : Held g.node? n) : .program mod.program ∉ n.children := by
  intro hc
  obtain ⟨r, hr, hnode, hnone⟩ := hg.program hmod
  have hparent := hg.child_parent hn hc
  rw [Graph.parent?, show Node.id (.program mod.program) = mod.program.info.id from rfl, hr,
    Option.bind_some, hnone] at hparent
  cases hparent

end Graph.Placed

/-! ## Sides -/

/-- The children that are there for one side of a branch, with that side. -/
def Node.arms : Node → List (BranchState × Node)
  | .expr (.conditional _ _ x y) => [(.consequent, .expr x), (.alternate, .expr y)]
  | .expr (.logical _ _ _ b) => [(.alternate, .expr b)]
  | .stmt (.branch _ _ x y) => (.consequent, Node.ofStmt x) ::
      y.toList.map fun s => (.alternate, Node.ofStmt s)
  | _ => []

/-- The test of a conditional expression. Whoever keeps it keeps both sides. -/
def Node.condition? : Node → Option Node
  | .expr (.conditional _ t _ _) => some (.expr t)
  | _ => none

/-- Whether a node is a conditional or logical expression. -/
def Node.isChoice : Node → Bool
  | .expr (.conditional ..) | .expr (.logical ..) => true
  | _ => false

/-- A walk that comes to a node leaves out a child, even if that is included. One that includes
everything leaves out only what a resolved access stands for. -/
def Graph.Bars (recursive : Bool) (g : Graph) (p c : Node) : Prop :=
  g.resolution p.id ≠ .nothing ∨ recursive = false ∧
    (∃ side, (side, c) ∈ p.arms ∧ (g.facts p.id).branch ≠ .unknown ∧
      (g.facts p.id).branch ≠ side) ∧
    ∀ t, p.condition? = some t → g.isIncluded t.id = false

/-- Every walk over the modules comes to a node. -/
inductive Graph.Live (recursive : Bool) (g : Graph) : Node → Prop
  | program {m mod} : m ∈ g.order → g.module? m = some mod →
    g.isIncluded mod.program.info.id = true → g.Live recursive (.program mod.program)
  | child {p c} : g.Live recursive p → c ∈ p.children → ¬ g.Bars recursive p c →
    g.isIncluded c.id = true → g.Live recursive c

/-- A node is a conditional or logical expression of a graph, or a part of one. -/
def Graph.Chooses (g : Graph) (n : Node) : Prop :=
  ∃ p, Held g.node? p ∧ p.isChoice = true ∧ (n = p ∨ n ∈ p.children)

/-- The choices that are included are live, and so are their parts. -/
def Graph.Attends (recursive : Bool) (g : Graph) : Prop :=
  ∀ {n}, g.Chooses n → g.isIncluded n.id = true → g.Live recursive n

theorem Node.arms_ne_unresolved {p c : Node} {side : BranchState} (h : (side, c) ∈ p.arms) :
    side ≠ .unresolved := by
  unfold Node.arms at h
  split at h <;> aesop

theorem Node.isChoice_simple {p : Node} (h : p.isChoice = true) :
    p.isExpr = true ∧ p.isSimple = true := by
  cases p with
  | expr e => cases e <;> first | exact ⟨rfl, rfl⟩ | cases h
  | _ => cases h

theorem Node.isChoice_declares {p : Node} (h : p.isChoice = true) {v : VarId} :
    ¬ p.declares v := by
  cases p with
  | expr e =>
    cases e with
    | conditional | logical => exact fun hd => hd
    | _ => cases h
  | _ => cases h

/-! ## Going on -/

/-- More is included, branches stay or are lost, and of the choices and their parts only what stands
below some nodes is new. -/
structure Moves (below : List Node) (g g' : Graph) : Prop where
  evolves : Evolves g g'
  steady : Steady g g'
  included : ∀ {k}, g.isIncluded k = true → g'.isIncluded k = true
  within : ∀ {n}, g.Chooses n → g'.isIncluded n.id = true →
    g.isIncluded n.id = true ∨ ∃ c ∈ below, c.Around n

section

variable {recursive : Bool} {below below' : List Node} {g g' g'' : Graph} {n p c : Node}

theorem Evolves.chooses (h : Evolves g g') : g'.Chooses n ↔ g.Chooses n := by
  unfold Graph.Chooses
  rw [h.node?]

namespace Moves

theorem refl (g : Graph) : Moves below g g :=
  ⟨.refl g, .refl g, id, fun _ h => .inl h⟩

theorem trans (h : Moves below g g') (h' : Moves below' g' g'') :
    Moves (below ++ below') g g'' where
  evolves := h.evolves.trans h'.evolves
  steady := h.steady.trans h'.steady
  included := fun hk => h'.included (h.included hk)
  within := fun hn hk => by
    rcases h'.within (h.evolves.chooses.mpr hn) hk with hk | ⟨c, hc, hn'⟩
    · exact (h.within hn hk).imp_right fun ⟨c, hc, hn'⟩ => ⟨c, List.mem_append_left _ hc, hn'⟩
    · exact .inr ⟨c, List.mem_append_right _ hc, hn'⟩

theorem mono (h : Moves below g g') (hsub : ∀ c ∈ below, ∃ b ∈ below', b.Around c) :
    Moves below' g g' where
  evolves := h.evolves
  steady := h.steady
  included := h.included
  within := fun hn hk => (h.within hn hk).imp_right fun ⟨c, hc, hn'⟩ => by
    obtain ⟨b, hb, hbc⟩ := hsub c hc
    exact ⟨b, hb, hbc.trans hn'⟩

end Moves

def Graph.Loses (g g' : Graph) : Prop := ∀ {k}, (g.facts k).branch ≠ .unresolved →
  (g'.facts k).branch = (g.facts k).branch ∨ (g'.facts k).branch = .unknown

theorem Steady.loses (h : Steady g g') : g.Loses g' := fun hk => (h.branch hk).imp_right And.left

theorem Graph.Bars.back (he : Evolves g g') (hs : g.Loses g')
    (hi : ∀ {k}, g.isIncluded k = true → g'.isIncluded k = true) (h : g'.Bars recursive p c) :
    g.Bars recursive p c := by
  rcases h with h | ⟨hrec, ⟨side, harm, hunknown, hside⟩, htest⟩
  · exact .inl (by rwa [resolution_of_frame he.frame] at h)
  · refine .inr ⟨hrec, ⟨side, harm, ?_⟩, fun t ht => ?_⟩
    · by_cases hnone : (g.facts p.id).branch = .unresolved
      · rw [hnone]
        exact ⟨nofun, (Node.arms_ne_unresolved harm).symm⟩
      · rcases hs hnone with hsame | hlost
        · exact hsame ▸ ⟨hunknown, hside⟩
        · exact absurd hlost hunknown
    · by_contra hin
      have hin' := hi (by simpa using hin)
      rw [htest t ht] at hin'
      cases hin'

section

variable (h : g.Live recursive n)

include h

theorem Graph.Live.later (he : Evolves g g') (hs : g.Loses g')
    (hi : ∀ {k}, g.isIncluded k = true → g'.isIncluded k = true) : g'.Live recursive n := by
  induction h with
  | @program m mod hm hmod hin =>
    obtain ⟨mod', hmod', hgrows⟩ := he.modules hmod
    have hprogram : mod'.program = mod.program := (congrArg Module.program hgrows.plain :)
    rw [← hprogram] at hin ⊢
    exact .program (he.order ▸ hm) hmod' (hi hin)
  | child _ hc hbars hin ih => exact .child ih hc (fun h => hbars (h.back he hs hi)) (hi hin)

theorem Graph.Live.moves (hm : Moves below g g') :
    g'.Live recursive n := h.later hm.evolves hm.steady.loses hm.included

theorem Graph.Live.held (hg : g.Placed) : Held g.node? n := by
  induction h with
  | program _ hmod _ => exact hg.held_program hmod
  | child _ hc _ _ ih => exact hg.covers.child ih hc

theorem Graph.Live.isIncluded : g.isIncluded n.id = true := by
  cases h with
  | program _ _ hin => exact hin
  | child _ _ _ hin => exact hin

end

/-- Where a walk comes to a node, it came to the node around it and was let through. -/
theorem Graph.Live.parent (h : g.Live recursive c) (hg : g.Placed) (hp : Held g.node? p)
    (hc : c ∈ p.children) : g.Live recursive p ∧ ¬ g.Bars recursive p c := by
  cases h with
  | program _ hmod _ => exact absurd hc (hg.program_ne_child hmod hp)
  | child hlive hc' hbars _ =>
    cases hg.parent_unique (hlive.held hg) hp hc' hc
    exact ⟨hlive, hbars⟩

theorem Graph.Live.above (h : g.Live recursive n) (hg : g.Placed) (hp : Held g.node? p)
    (haround : p.Around n) : g.Live recursive p := by
  induction haround with
  | refl => exact h
  | tail hpm hmn ih => exact ih (h.parent hg (hg.covers.around hp hpm) hmn).1

/-! ## Attending -/

variable {frame : Places}

/-- A graph of one frame in which choices are attended to. -/
structure Tended (recursive : Bool)
    (frame : Places) (g : Graph) : Prop where
  holds : (drifting frame).holds g
  sealed : g.Sealed
  attends : g.Attends recursive

/-- Steps after which no choices and none of their parts are new. -/
def tending (recursive : Bool)
    (frame : Places) : Conduct where
  holds := Tended recursive frame
  allows := Moves []
  refl := .refl
  trans := .trans

namespace Tended

variable (hg : Tended recursive frame g)
include hg

theorem placed : g.Placed := hg.holds.1.placed

theorem step (h : Moves below g g') (hg' : (drifting frame).holds g')
    (hnew : ∀ {n}, g.Chooses n → g'.isIncluded n.id = true → g.isIncluded n.id = true ∨
      g'.Live recursive n) : Tended recursive frame g' where
  holds := hg'
  sealed := hg.sealed.evolves hg.holds.1 h.evolves
  attends := fun hn hin => by
    have hn' := h.evolves.chooses.mp hn
    rcases hnew hn' hin with hin | hlive
    · exact (hg.attends hn' hin).moves h
    · exact hlive

theorem still (h : Moves [] g g') (hg' : (drifting frame).holds g') : Tended recursive frame g' :=
  hg.step h hg' fun hn hin => .inl ((h.within hn hin).resolve_right (by simp))

theorem includes (h : Includes g g') (hg' : Linkable g')
    (hold : ∀ {n}, g.Chooses n → g'.isIncluded n.id = true → g.isIncluded n.id = true) :
    Tended recursive frame g' ∧ Moves [] g g' := by
  have hmoves : Moves [] g g' :=
    ⟨h.toEvolves, .of_includes h, h.included, fun hn hin => .inl (hold hn hin)⟩
  exact ⟨hg.still hmoves ⟨hg.holds.1.evolves h.toEvolves hg', h.frame.trans hg.holds.2⟩, hmoves⟩

theorem markNode (hn : Held g.node? n) (hlive : (g.markNode n.id).Live recursive n) :
    Tended recursive frame (g.markNode n.id) ∧ Moves [n] g (g.markNode n.id) := by
  have hmark := Includes.markNode g n.id
  have hwithin : ∀ {m : Node}, g.Chooses m → (g.markNode n.id).isIncluded m.id = true →
      g.isIncluded m.id = true ∨ m = n := by
    intro m hm hin
    rcases (isIncluded_markNode hn).mp hin with hid | hin
    · obtain ⟨p, hp, -, hm⟩ := hm
      have hheld : Held g.node? m := by
        rcases hm with rfl | hm
        · exact hp
        · exact hg.placed.covers.child hp hm
      exact .inr (Graph.Placed.eq_of_id hheld hn hid)
    · exact .inl hin
  have hmoves : Moves [n] g (g.markNode n.id) :=
    ⟨hmark.toEvolves, .of_includes hmark, hmark.included, fun {m} hm hin => by
      rcases hwithin hm hin with hin | rfl
      · exact .inl hin
      · exact .inr ⟨m, List.mem_cons_self, .refl⟩⟩
  refine ⟨hg.step hmoves ⟨hg.holds.1.markNode n.id, hmark.frame.trans hg.holds.2⟩
    fun {m} hm hin => ?_, hmoves⟩
  rcases hwithin hm hin with hin | rfl
  · exact .inl hin
  · exact .inr hlive

end Tended

/-! ### Questions -/

theorem tending_of_steady {α : Type} {m : Query α} (h : (steady frame).From g m) :
    (tending recursive frame).From g m := by
  intro a g' hg hrun
  obtain ⟨hg', hdrifts, hsteady⟩ := h a g' hg.holds hrun
  have hmoves : Moves [] g g' := ⟨hdrifts.toEvolves, hsteady,
    fun {k} hk => by rw [isIncluded, (hdrifts.facts k).included]; exact hk,
    fun {n} _ hin => .inl (by rwa [isIncluded, (hdrifts.facts n.id).included] at hin)⟩
  exact ⟨hg.still hmoves hg', hmoves⟩

/-! ### Variables -/

/-- A variable may be exported, or a live node names it. -/
def Graph.Wanted (recursive : Bool) (v : VarId) (g : Graph) : Prop :=
  g.Aloft v ∨ ∃ n, g.Live recursive n ∧ g.namedVar? n = some v

/-- What is around the declaration of a wanted variable is live, if it is a choice or a part of
one. -/
theorem Tended.declared (hg : Tended recursive frame g) {v : VarId} (hv : g.Wanted recursive v)
    {d : NodeId} (hd : g.symbols.Declares d v) (hn : g.node? d = some n) {w : Node}
    (hw : g.Chooses w) (haround : w.Around n) : g.Live recursive w := by
  have hid : n.id = d := hg.placed.covers.own hn
  subst hid
  have hpart : ∀ {p c}, Held g.node? p → p.isChoice = true → c ∈ p.children → c.Around n →
      g.Live recursive c := by
    intro p c hp hchoice hc hcn
    obtain ⟨hexpr, hsimple⟩ := Node.isChoice_simple hchoice
    rcases hv with haloft | ⟨r, hr, hname⟩
    · exact absurd haloft (hg.sealed.not_aloft hp hexpr hsimple hc hcn hd)
    · refine hr.above hg.placed (hg.placed.covers.child hp hc) ?_
      exact hg.sealed.inside hg.holds.1.linkable.arranged.symbols hp hexpr hsimple hc hcn hd
        (hr.held hg.placed) hname
  obtain ⟨p, hp, hchoice, rfl | hw⟩ := hw
  · -- A choice declares nothing itself.
    rcases ReflTransGen.cases_head haround with rfl | ⟨c, hc, hcn⟩
    · obtain ⟨x, hx, hmem⟩ := hd
      obtain ⟨n, hn', hdeclares⟩ := hg.holds.1.named.declarations hx hmem
      rw [hn] at hn'
      cases hn'
      exact absurd hdeclares (Node.isChoice_declares hchoice)
    · exact ((hpart hp hchoice hc hcn).parent hg.placed hp hc).1
  · exact hpart hp hchoice hw haround

theorem includeUpward_around : ∀ (k : Nat) {g : Graph} {d j : NodeId} {n m : Node}, g.Sound →
    g.node? d = some n → g.node? j = some m → (includeUpward k d g).isIncluded j = true →
    g.isIncluded j = true ∨ m.Around n
  | 0, _, _, _, _, _, _, _, _, hj => .inl hj
  | k + 1, g, d, j, n, m, hg, hn, hm, hj => by
    have hmark : (g.markNode d).isIncluded j = true → g.isIncluded j = true ∨ m.Around n := by
      intro hj
      rcases (isIncluded_markNode hn).mp hj with rfl | hj
      · rw [hn] at hm
        cases hm
        exact .inr .refl
      · exact .inl hj
    rw [includeUpward_succ] at hj
    split at hj
    · exact .inl hj
    cases hp : g.parent? d with
    | none =>
      rw [hp] at hj
      exact hmark hj
    | some q =>
      rw [hp] at hj
      obtain ⟨c, p, hc, hq, hmem⟩ := hg.placed.parent_node hp
      rw [hn] at hc
      cases hc
      have hnode := node?_of_frame (frame_markNode g d)
      rcases includeUpward_around k (hg.markNode d) (by rw [hnode]; exact hq)
        (by rw [hnode]; exact hm) hj with hj | haround
      · exact hmark hj
      · exact .inr (haround.tail hmem)

theorem includeUpward_tending : ∀ (ds : List NodeId) {g : Graph}, Tended recursive frame g →
    (∀ d ∈ ds, ∃ n, g.node? d = some n ∧ ∀ w, g.Chooses w → w.Around n → g.Live recursive w) →
    let g' := ds.foldl (fun g d => includeUpward g.nodes.size d g) g
    Tended recursive frame g' ∧ Moves [] g g'
  | [], g, hg, _ => ⟨hg, .refl g⟩
  | d :: ds, g, hg, hds => by
    obtain ⟨n, hn, hlive⟩ := hds d List.mem_cons_self
    have hincludes := includeUpward_includes g.nodes.size d g
    obtain ⟨hg1, h1⟩ := hg.includes hincludes (hg.holds.1.includeUpward _ d).linkable
      fun {w} hw hin => by
        have hheld : Held g.node? w := by
          obtain ⟨p, hp, -, rfl | hw⟩ := hw
          · exact hp
          · exact hg.placed.covers.child hp hw
        rcases includeUpward_around _ hg.holds.1 hn hheld hin with hin | haround
        · exact hin
        · exact (hlive w hw haround).isIncluded
    obtain ⟨hg2, h2⟩ := includeUpward_tending ds hg1 fun e he => by
      obtain ⟨m, hm, hlive'⟩ := hds e (List.mem_cons_of_mem d he)
      refine ⟨m, by rw [h1.evolves.node?]; exact hm, fun w hw haround => ?_⟩
      exact (hlive' w (h1.evolves.chooses.mp hw) haround).moves h1
    exact ⟨hg2, h1.trans h2⟩

theorem tending_admits : Admits (tending recursive frame) (Graph.Wanted recursive) where
  links := fun h hg => by
    obtain ⟨hl, hg', hpost⟩ := h hg.holds.1.linkable
    obtain ⟨h1, h2⟩ := hg.includes (.linked hl) hg' fun {n} _ hin => by
      rwa [isIncluded, ((Drifts.linked hl).facts n.id).included] at hin
    exact ⟨h2, h1, hpost⟩
  onTop := fun hg h => .inl (aloft_of_onTop hg.holds.1.linkable h)
  mark := fun {v g} hg hv => by
    have hmark := Includes.markVar g v
    obtain ⟨hg1, h1⟩ := hg.includes hmark (hg.holds.1.linkable.evolve
      fun _ => ⟨rfl, fun _ => rfl, id⟩)
      fun _ => id
    obtain ⟨hg2, h2⟩ := includeUpward_tending (((g.var? v).map Variable.declarations).getD []) hg1
      fun d hd => by
        cases hw : g.var? v with
        | none => rw [hw] at hd; cases hd
        | some w =>
          rw [hw] at hd
          obtain ⟨n, hn, -⟩ := hg.holds.1.named.declarations hw hd
          refine ⟨n, by rw [h1.evolves.node?]; exact hn, fun m hm haround => ?_⟩
          have hlive := hg.declared hv ⟨w, hw, hd⟩ hn (h1.evolves.chooses.mp hm) haround
          exact hlive.moves h1
    exact ⟨hg2, h1.trans h2⟩
  exports := fun m g hg => by
    obtain ⟨hg', h⟩ := including_admits.exports m g hg.holds.1.linkable
    exact hg.includes h hg' fun _ => id
  request := fun g hg => by
    obtain ⟨hg', h⟩ := including_admits.request g hg.holds.1.linkable
    exact hg.includes h hg' fun _ => id

end

end Winnow
