import Winnow.Analysis.Queries

/-!
# Runs of questions

How a question changes the graph is said by a `Conduct`: what holds of the graph all along, and a
relation between the graph before and the graph after. `Conduct.Keeps m` says that every run of `m`
that gives an answer follows the conduct. The lemmas here follow the ways in which questions are put
together, so that a conduct is proved of a question from the questions it is made of.

A run that halts gives no graph, so nothing is said of it.
-/

namespace Winnow

open Query List

variable {g g' : Graph} {p : Prop}

/-! ## Single runs -/

namespace Query

variable {α β : Type} {g g'' : Graph}

theorem bind_ok {m : Query α} {f : α → Query β} {b : β} :
    (m >>= f) g = .ok (b, g'') ↔ ∃ a g', m g = .ok (a, g') ∧ f a g' = .ok (b, g'') := by
  show (m g >>= fun p => f p.1 p.2) = _ ↔ _
  cases h : m g with
  | error e => simp [bind, Except.bind]
  | ok p =>
    obtain ⟨a, g'⟩ := p
    constructor
    · intro hrun
      exact ⟨a, g', rfl, hrun⟩
    · rintro ⟨_, _, heq, hrun⟩
      cases heq
      exact hrun

theorem bind_run {m : Query α} {f : α → Query β} {a : α} (h : m g = .ok (a, g')) :
    (m >>= f) g = f a g' := by
  show (m g >>= fun p => f p.1 p.2) = _
  rw [h]; rfl

theorem map_run {m : Query α} {f : α → β} {a : α} (h : m g = .ok (a, g')) :
    (f <$> m) g = .ok (f a, g') := by
  rw [map_eq_pure_bind, bind_run h]; rfl

theorem pure_ok {a b : α} : (pure a : Query α) g = .ok (b, g'') ↔ b = a ∧ g'' = g := by
  show Except.ok (a, g) = _ ↔ _
  simp [eq_comm]

theorem get_run : (get : Query Graph) g = .ok (g, g) := rfl

theorem modify_run (f : Graph → Graph) : (modify f : Query Unit) g = .ok ((), f g) := rfl

theorem get_ok {f : Graph → Query β} {b : β} (h : (get >>= f) g = .ok (b, g'')) :
    f g g = .ok (b, g'') := h

theorem modify_ok {k : Graph → Graph} {f : Unit → Query β} {b : β}
    (h : (modify k >>= f) g = .ok (b, g'')) : f () (k g) = .ok (b, g'') := h

theorem set_run (h : Graph) : (set h : Query Unit) g = .ok ((), h) := rfl

theorem throw_ok {h : Halt} {a : α} : (throw h : Query α) g ≠ .ok (a, g'') := nofun

theorem graph_run {σ : Type} (f : Graph → StateT σ Query β) (s : σ) :
    (getThe Graph >>= f) s g = f g s g := rfl

end Query

/-! ## Conducts -/

/-- What holds of the graph all along, how it may change, and at which paths questions may forget
what they know. -/
structure Conduct where
  holds : Graph → Prop
  allows : Graph → Graph → Prop
  paths : Path → Prop := fun _ => True
  refl : ∀ g, allows g g
  trans : ∀ {a b c}, allows a b → allows b c → allows a c

namespace Conduct

variable (c : Conduct) {α β σ : Type}

/-- The run of a question from one graph follows the conduct. -/
def From (g : Graph) (m : Query α) : Prop :=
  ∀ a g', c.holds g → m g = .ok (a, g') → c.holds g' ∧ c.allows g g'

/-- Every run of a question follows the conduct. -/
def Keeps (m : Query α) : Prop := ∀ g, c.From g m

/-- Every run of a step that carries something along follows the conduct. -/
def KeepsAll (m : StateT σ Query α) : Prop := ∀ s, c.Keeps (m s)

/-- The same conduct where something more holds, which what is allowed never ends. -/
def having (p : Graph → Prop) : Conduct where
  holds g := c.holds g ∧ p g
  allows := c.allows
  paths := c.paths
  refl := c.refl
  trans := c.trans

variable {c}

theorem From.having {p : Graph → Prop} {m : Query α} (hm : c.From g m)
    (hp : ∀ g', p g → c.holds g' → c.allows g g' → p g') : (c.having p).From g m := by
  intro a g' hg hrun
  obtain ⟨hg', h⟩ := hm a g' hg.1 hrun
  exact ⟨⟨hg', hp g' hg.2 hg' h⟩, h⟩

/-- The same conduct, where the graph changes as a further relation says. -/
def also (c : Conduct) (rel : Graph → Graph → Prop) (refl : ∀ g, rel g g)
    (trans : ∀ {a b c}, rel a b → rel b c → rel a c) : Conduct where
  holds := c.holds
  allows g g' := c.allows g g' ∧ rel g g'
  paths := c.paths
  refl g := ⟨c.refl g, refl g⟩
  trans h h' := ⟨c.trans h.1 h'.1, trans h.2 h'.2⟩

theorem From.bind {m : Query α} {f : α → Query β} (hm : c.From g m)
    (hf : ∀ a g', c.holds g' → m g = .ok (a, g') → c.From g' (f a)) : c.From g (m >>= f) := by
  intro b g'' hg hrun
  obtain ⟨a, g', hrun1, hrun2⟩ := bind_ok.mp hrun
  obtain ⟨hg', h1⟩ := hm a g' hg hrun1
  obtain ⟨hg'', h2⟩ := hf a g' hg' hrun1 b g'' hg' hrun2
  exact ⟨hg'', c.trans h1 h2⟩

theorem From.bind_same {m : Query α} {f : α → Query β} {a : α} (hm : m g = .ok (a, g))
    (hf : c.From g (f a)) : c.From g (m >>= f) := by
  intro b g'' hg hrun
  obtain ⟨a', g', hrun1, hrun2⟩ := bind_ok.mp hrun
  rw [hm] at hrun1
  cases hrun1
  exact hf b g'' hg hrun2

theorem From.bind_run {m : Query α} {f : α → Query β} {a : α} (hm : m g = .ok (a, g'))
    (hg : c.holds g → c.holds g' ∧ c.allows g g') (hf : c.From g' (f a)) : c.From g (m >>= f) := by
  intro b g'' hh hrun
  obtain ⟨a', h, hrun1, hrun2⟩ := bind_ok.mp hrun
  rw [hm] at hrun1
  cases hrun1
  obtain ⟨hg', h1⟩ := hg hh
  obtain ⟨hg'', h2⟩ := hf b g'' hg' hrun2
  exact ⟨hg'', c.trans h1 h2⟩

theorem From.modify {f : Graph → Graph} (h : c.holds g → c.holds (f g) ∧ c.allows g (f g)) :
    c.From g (modify f : Query Unit) := by
  intro a g' hg hrun
  cases hrun
  exact h hg

namespace Keeps

theorem pure' (a : α) : c.Keeps (pure a : Query α) := by
  intro g b g' hg hrun
  obtain ⟨-, rfl⟩ := pure_ok.mp hrun
  exact ⟨hg, c.refl _⟩

theorem throw' (h : Halt) : c.Keeps (throw h : Query α) :=
  fun _ _ _ _ hrun => absurd hrun throw_ok

theorem bind' {m : Query α} {f : α → Query β} (hm : c.Keeps m) (hf : ∀ a, c.Keeps (f a)) :
    c.Keeps (m >>= f) :=
  fun g => From.bind (hm g) fun a g' _ _ => hf a g'

theorem bind_both {γ : Type} {m : Query α} {k : α → Query β} {f : β → Query γ}
    (hm : c.Keeps (m >>= k)) (hf : ∀ b, c.Keeps (f b)) :
    c.Keeps (m >>= fun a => k a >>= f) := by
  rw [← bind_assoc]
  exact bind' hm hf

theorem get_bind {f : Graph → Query β} (hf : ∀ g, c.holds g → c.From g (f g)) :
    c.Keeps (get >>= f) :=
  fun g b g' hg hrun => From.bind_same get_run (hf g hg) b g' hg hrun

theorem of_same {m : Query α} (hm : ∀ g, ∃ a, m g = .ok (a, g)) : c.Keeps m := by
  intro g a g' hg hrun
  obtain ⟨b, hb⟩ := hm g
  rw [hb] at hrun
  cases hrun
  exact ⟨hg, c.refl _⟩

theorem map' {m : Query α} {f : α → β} (hm : c.Keeps m) : c.Keeps (f <$> m) := by
  exact bind' hm fun _ => pure' _

theorem ite' [Decidable p] {m n : Query α} (hm : p → c.Keeps m) (hn : ¬p → c.Keeps n) :
    c.Keeps (if p then m else n) := by
  by_cases h : p
  · rw [if_pos h]; exact hm h
  · rw [if_neg h]; exact hn h

theorem get_unless {p : Graph → Prop} [DecidablePred p] {a : Graph → α} {m : Graph → Query α}
    (hm : ∀ g, c.Keeps (m g)) : c.Keeps (get >>= fun g => if p g then pure (a g) else m g) :=
  get_bind fun g _ => ite' (fun _ => pure' _) (fun _ => hm g) g

theorem forM' {f : α → Query PUnit} :
    ∀ {l : List α}, (∀ a ∈ l, c.Keeps (f a)) → c.Keeps (l.forM f)
  | [], _ => pure' _
  | a :: _, h => bind' (h a mem_cons_self) fun _ =>
      forM' fun b hb => h b (mem_cons_of_mem a hb)

theorem mapM' {f : α → Query β} (h : ∀ a, c.Keeps (f a)) : ∀ l : List α, c.Keeps (l.mapM f)
  | [] => by rw [mapM_nil]; exact pure' _
  | a :: l => by
    rw [mapM_cons]
    exact bind' (h a) fun _ => bind' (mapM' h l) fun _ => pure' _

theorem imp {c' : Conduct} {m : Query α} (hm : c.Keeps m) (hholds : c'.holds = c.holds)
    (hallows : ∀ {g g'}, c.allows g g' → c'.allows g g') : c'.Keeps m := by
  intro g a g' hg hrun
  rw [hholds] at hg ⊢
  obtain ⟨hg', h⟩ := hm g a g' hg hrun
  exact ⟨hg', hallows h⟩

variable {rel : Graph → Graph → Prop} {refl : ∀ g, rel g g}
  {trans : ∀ {a b c}, rel a b → rel b c → rel a c} {m : Query α}

theorem also (hm : c.Keeps m) (h : ∀ g a g', c.holds g → m g = .ok (a, g') → rel g g') :
    (c.also rel refl trans).Keeps m := by
  intro g a g' hg hrun
  obtain ⟨hg', h1⟩ := hm g a g' hg hrun
  exact ⟨hg', h1, h g a g' hg hrun⟩

theorem of_also (hm : (c.also rel refl trans).Keeps m) : c.Keeps m := by
  intro g a g' hg hrun
  obtain ⟨hg', h1, -⟩ := hm g a g' hg hrun
  exact ⟨hg', h1⟩

end Keeps

namespace KeepsAll

theorem pure' (a : α) : c.KeepsAll (pure a : StateT σ Query α) := fun _ => Keeps.pure' _

theorem throw' (h : Halt) : c.KeepsAll (throw h : StateT σ Query α) := by
  intro s g a g' _ hrun
  cases hrun

theorem bind' {m : StateT σ Query α} {f : α → StateT σ Query β} (hm : c.KeepsAll m)
    (hf : ∀ a, c.KeepsAll (f a)) : c.KeepsAll (m >>= f) :=
  fun s => Keeps.bind' (hm s) fun p => hf p.1 p.2

theorem lift {m : Query α} (hm : c.Keeps m) : c.KeepsAll (liftM m : StateT σ Query α) :=
  fun s => Keeps.bind' (f := fun a => pure (a, s)) hm fun _ => Keeps.pure' _

/-- A step that goes on with the answer to a question, of which something is known. -/
theorem lift_bind {m : Query α} {f : α → StateT σ Query β} {p : α → Prop} (hm : c.Keeps m)
    (hp : ∀ g a g', m g = .ok (a, g') → p a) (hf : ∀ a, p a → c.KeepsAll (f a)) :
    c.KeepsAll ((liftM m : StateT σ Query α) >>= f) := by
  intro s g
  refine From.bind (f := fun p => f p.1 p.2) (lift hm s g) fun b g' _ hrun => ?_
  obtain ⟨a, h, hrun, hpure⟩ := (bind_ok (f := fun a => pure (a, s))).mp hrun
  obtain ⟨rfl, rfl⟩ := pure_ok.mp hpure
  exact hf a (hp g a _ hrun) s _

theorem get' : c.KeepsAll (get : StateT σ Query σ) := fun _ => Keeps.pure' _

theorem set' (s : σ) : c.KeepsAll (set s : StateT σ Query PUnit) := fun _ => Keeps.pure' _

theorem modify' (f : σ → σ) : c.KeepsAll (modify f : StateT σ Query PUnit) :=
  fun _ => Keeps.pure' _

theorem graph {f : Graph → StateT σ Query β} (hf : ∀ g, c.holds g → c.KeepsAll (f g)) :
    c.KeepsAll (getThe Graph >>= f) :=
  fun s => Keeps.get_bind fun g hg => hf g hg s g

theorem ite' [Decidable p] {m n : StateT σ Query α} (hm : p → c.KeepsAll m) (hn : ¬p → c.KeepsAll n) :
    c.KeepsAll (if p then m else n) := by
  by_cases h : p
  · rw [if_pos h]; exact hm h
  · rw [if_neg h]; exact hn h

theorem forM' {f : α → StateT σ Query PUnit} :
    ∀ {l : List α}, (∀ a ∈ l, c.KeepsAll (f a)) → c.KeepsAll (l.forM f)
  | [], _ => pure' _
  | a :: _, h => bind' (h a mem_cons_self) fun _ =>
      forM' fun b hb => h b (mem_cons_of_mem a hb)

theorem orElse {m n : StateT σ Query Bool} (hm : c.KeepsAll m) (hn : c.KeepsAll n) :
    c.KeepsAll (do if ← m then return true else n) :=
  bind' hm fun _ => ite' (fun _ => pure' _) fun _ => hn

end KeepsAll

/-! ## Steps that cannot halt -/

theorem get_bind_run {α : Type} (f : Graph → StateM Graph α) (g : Graph) :
    (get >>= f).run g = (f g).run g := rfl

/-- A step from one graph that cannot halt: it follows the conduct and answers as asked. -/
def Steps (c : Conduct) (g : Graph) (m : StateM Graph α) (P : α → Graph → Prop) : Prop :=
  c.holds g → c.allows g (m.run g).2 ∧ c.holds (m.run g).2 ∧ P (m.run g).1 (m.run g).2

/-- A last step may change what others wrote down before it, if the graph at the start of all does
not know of it. -/
def StepsSince (c : Conduct) (g₀ g : Graph) (m : StateM Graph α) (P : α → Graph → Prop) : Prop :=
  c.allows g₀ (m.run g).2 ∧ c.holds (m.run g).2 ∧ P (m.run g).1 (m.run g).2

namespace Steps

variable {g : Graph} {P : α → Graph → Prop} {Q : β → Graph → Prop}

theorem pure' {a : α} (h : c.holds g → P a g) : c.Steps g (pure a) P :=
  fun hg => ⟨c.refl g, hg, h hg⟩

theorem bind' {m : StateM Graph α} {f : α → StateM Graph β} (hm : c.Steps g m P)
    (hf : ∀ a g', c.allows g g' → P a g' → c.Steps g' (f a) Q) :
    c.Steps g (m >>= f) Q := by
  intro hg
  obtain ⟨h1, hg1, ha⟩ := hm hg
  obtain ⟨h2, hg2, hb⟩ := hf _ _ h1 ha hg1
  exact ⟨c.trans h1 h2, hg2, hb⟩

theorem bind_since {m : StateM Graph α} {f : α → StateM Graph β} (hm : c.Steps g m P)
    (hf : ∀ a g', c.allows g g' → c.holds g' → P a g' → c.StepsSince g g' (f a) Q) :
    c.Steps g (m >>= f) Q := by
  intro hg
  obtain ⟨h1, hg1, ha⟩ := hm hg
  exact hf _ _ h1 hg1 ha

theorem get_bind {f : Graph → StateM Graph β} (hf : c.holds g → c.Steps g (f g) Q) :
    c.Steps g (get >>= f) Q := fun hg => hf hg hg

theorem map' {m : StateM Graph α} {f : α → β} (hm : c.Steps g m fun a g => Q (f a) g) :
    c.Steps g (f <$> m) Q := hm

theorem ite' [Decidable p] {m n : StateM Graph α} (hm : p → c.Steps g m P) (hn : ¬p → c.Steps g n P) :
    c.Steps g (if p then m else n) P := by
  by_cases h : p
  · rw [if_pos h]; exact hm h
  · rw [if_neg h]; exact hn h

theorem modify' {f : Graph → Graph} {P : PUnit → Graph → Prop}
    (h : c.holds g → c.allows g (f g) ∧ c.holds (f g) ∧ P ⟨⟩ (f g)) :
    c.Steps g (modify f) P := h

theorem imp {m : StateM Graph α} {Q : α → Graph → Prop} (hm : c.Steps g m P)
    (h : ∀ a g', c.allows g g' → P a g' → Q a g') : c.Steps g m Q := by
  intro hg
  obtain ⟨h1, hg1, ha⟩ := hm hg
  exact ⟨h1, hg1, h _ _ h1 ha⟩

theorem imp_holds {m : StateM Graph α} {Q : α → Graph → Prop} (hm : c.Steps g m P)
    (h : ∀ a g', c.holds g' → P a g' → Q a g') : c.Steps g m Q := by
  intro hg
  obtain ⟨h1, hg1, ha⟩ := hm hg
  exact ⟨h1, hg1, h _ _ hg1 ha⟩

theorem forM' {f : α → StateM Graph PUnit} :
    ∀ {l : List α} {g : Graph}, (∀ a ∈ l, ∀ g, c.Steps g (f a) fun _ _ => True) →
      c.Steps g (l.forM f) fun _ _ => True
  | [], _, _ => pure' fun _ => trivial
  | a :: _, _, h => bind' (h a mem_cons_self _) fun _ _ _ _ =>
      forM' fun b hb => h b (mem_cons_of_mem a hb)

/-- What each step makes true, and what is allowed never ends, is true in the end. -/
theorem forM_each {f : α → StateM Graph PUnit} {R : α → Graph → Prop}
    (hlasts : ∀ a g g', R a g → c.allows g g' → R a g') :
    ∀ {l : List α} {g : Graph}, (∀ a ∈ l, ∀ g, c.Steps g (f a) fun _ => R a) →
      c.Steps g (l.forM f) fun _ g' => ∀ a ∈ l, R a g'
  | [], _, _ => pure' fun _ => nofun
  | a :: _, _, h => bind' (h a mem_cons_self _) fun _ g' _ ha =>
      (forM_each hlasts fun b hb => h b (mem_cons_of_mem a hb)).imp fun _ g'' hl hall =>
        forall_mem_cons.mpr ⟨hlasts a g' g'' ha hl, hall⟩

theorem foldlM' {f : β → α → StateM Graph β} :
    ∀ {l : List α} {b : β} {g : Graph},
      (∀ g b, ∀ a ∈ l, Q b g → c.Steps g (f b a) Q) → Q b g → c.Steps g (l.foldlM f b) Q
  | [], _, _, _, hb => pure' fun _ => hb
  | a :: l, b, g, hf, hb => by
    exact bind' (hf g b a mem_cons_self hb) fun b' g' _ hb' =>
      foldlM' (fun g b x hx => hf g b x (mem_cons_of_mem a hx)) hb'

/-- Steps for the elements of a list, of which some give a result. What holds of every result holds
of all in the end. -/
theorem filterMapM' {f : α → StateM Graph (Option β)} {R : α → Option β → Graph → Prop}
    (hlasts : ∀ a b g g', R a b g → c.allows g g' → R a b g')
    (hf : ∀ g a, c.Steps g (f a) (R a)) (l : List α) (g : Graph) :
    c.Steps g (l.filterMapM f) fun bs g' => ∃ found : List (α × Option β),
      found.map Prod.fst = l ∧ (∀ p ∈ found, R p.1 p.2 g') ∧ bs = found.filterMap Prod.snd := by
  have hloop : ∀ (l : List α) (bs : List β) (g : Graph),
      c.Steps g (filterMapM.loop f l bs) fun cs g' => ∃ found : List (α × Option β),
        found.map Prod.fst = l ∧ (∀ p ∈ found, R p.1 p.2 g') ∧
          cs = bs.reverse ++ found.filterMap Prod.snd := by
    intro l
    induction l with
    | nil => exact fun bs g => pure' fun _ => ⟨[], rfl, by simp, by simp⟩
    | cons a l ih =>
      intro bs g
      refine bind' (hf g a) fun b g' _ hb => ?_
      cases b with
      | none =>
        refine (ih bs g').imp fun cs g'' hl h => ?_
        obtain ⟨found, rfl, hfound, rfl⟩ := h
        exact ⟨(a, none) :: found, rfl,
          forall_mem_cons.mpr ⟨hlasts _ _ _ _ hb hl, hfound⟩, by simp⟩
      | some b =>
        refine (ih (b :: bs) g').imp fun cs g'' hl h => ?_
        obtain ⟨found, rfl, hfound, rfl⟩ := h
        exact ⟨(a, some b) :: found, rfl,
          forall_mem_cons.mpr ⟨hlasts _ _ _ _ hb hl, hfound⟩, by simp⟩
  exact (hloop l [] g).imp fun cs g' _ h => by simpa using h

theorem flatMapM' {f : α → StateM Graph (List β)} {R : β → Graph → Prop}
    (hlasts : ∀ b g g', R b g → c.allows g g' → R b g')
    (hf : ∀ g a, c.Steps g (f a) fun bs g' => ∀ b ∈ bs, R b g') (l : List α) (g : Graph) :
    c.Steps g (l.flatMapM f) fun bs g' => ∀ b ∈ bs, R b g' := by
  have hloop : ∀ (l : List α) (found : List (List β)) (g : Graph),
      (∀ bs ∈ found, ∀ b ∈ bs, R b g) →
      c.Steps g (flatMapM.loop f l found) fun bs g' => ∀ b ∈ bs, R b g' := by
    intro l
    induction l with
    | nil =>
      intro found g hfound
      refine pure' fun _ b hb => ?_
      obtain ⟨bs, hbs, hb⟩ := mem_flatten.mp hb
      exact hfound bs (mem_reverse.mp hbs) b hb
    | cons a l ih =>
      intro found g hfound
      refine bind' (hf g a) fun bs g' hg' hbs => ih (bs :: found) g' ?_
      exact forall_mem_cons.mpr
        ⟨hbs, fun bs hbs b hb => hlasts b g g' (hfound bs hbs b hb) hg'⟩
  exact hloop l [] g nofun

theorem from_link {m : StateM Graph α} (h : c.Steps g m P) : c.From g (link m) := by
  intro a g' hg hrun
  obtain ⟨h1, h2, -⟩ := h hg
  have hend : (m.run g).2 = g' := congrArg Prod.snd (Except.ok.inj hrun)
  exact hend ▸ ⟨h2, h1⟩

theorem keeps {m : StateM Graph α} (h : ∀ g, c.Steps g m P) : c.Keeps (link m) :=
  fun g => (h g).from_link

end Steps

end Conduct

/-- The graph that a question or command leaves if it ends; otherwise the one it was given. -/
def Graph.after {α : Type} (g : Graph) (m : Query α) : Graph :=
  match m g with
  | .ok (_, g') => g'
  | .error _ => g

theorem Graph.run_after {α : Type} {m : Query α} (h : (m g).toBool = true) :
    ∃ a, m g = .ok (a, g.after m) := by
  unfold Graph.after
  split
  next a g' heq => exact ⟨a, heq⟩
  next heq =>
    rw [heq] at h
    cases h

end Winnow
