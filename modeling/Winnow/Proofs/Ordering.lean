import Mathlib.Data.List.Chain
import Mathlib.Data.List.Nodup
import Mathlib.Data.List.Perm.Subperm
import Mathlib.Logic.Relation
import Winnow.Graph.Build

/-!
# The order of modules that depend on each other

Modules are put into order depth first: a module comes after everything it depends on, except for
what is still waiting for it on the stack, which closes a cycle (`Graph.Stack.cycleTo`).
`ModuleOrder.Sorted` is what holds between two steps: a dependency that is met keeps it
(`meet_sorted`), so a module is put into order after all it depends on (`orderFrom_putsInOrder`),
and so are the entries (`executionOrder_sorted`).
-/

namespace Winnow

open Relation Winnow.Graph List

variable {order stack : List ModuleId} {d m : ModuleId} {o : ModuleOrder}
  {search : ModuleOrder → ModuleId → ModuleOrder}

def Graph.DependsOn (g : Graph) (m d : ModuleId) : Prop := d ∈ g.dependenciesOf m

def Graph.Needed (g : Graph) (m : ModuleId) : Prop := ∃ e ∈ g.entries, ReflTransGen g.DependsOn e m

/-- A way from a module back to it, which meets no other module twice. -/
def IsCycle (R : ModuleId → ModuleId → Prop) (c : List ModuleId) : Prop :=
  ∃ m path, c = m :: path ++ [m] ∧ (m :: path).Nodup ∧ c.IsChain R

def Before (order : List ModuleId) (d m : ModuleId) : Prop :=
  d ∈ order ∧ order.idxOf d < order.idxOf m

theorem Before.append (h : Before order d m) (hm : m ∈ order) (more : List ModuleId) :
    Before (order ++ more) d m := by
  refine ⟨mem_append_left more h.1, ?_⟩
  rw [idxOf_append_of_mem h.1, idxOf_append_of_mem hm]
  exact h.2

theorem Before.last (hd : d ∈ order) (hm : m ∉ order) : Before (order ++ [m]) d m := by
  refine ⟨mem_append_left [m] hd, ?_⟩
  calc (order ++ [m]).idxOf d = order.idxOf d := idxOf_append_of_mem hd
    _ < order.length := idxOf_lt_length_iff.mpr hd
    _ ≤ (order ++ [m]).idxOf m := by
      rw [idxOf_append_of_notMem hm]
      exact Nat.le_add_right _ _

/-! ## The stack -/

/-- The modules whose dependencies are looked at: each was met as a dependency of the next. -/
structure Graph.Stack (g : Graph) (stack : List ModuleId) : Prop where
  nodup : stack.Nodup
  chain : stack.IsChain fun d m => g.DependsOn m d
  lt : ∀ m ∈ stack, m < g.modules.size

namespace Graph.Stack

variable {g : Graph} {stack : List ModuleId} {m d : ModuleId}

theorem push (h : g.Stack (m :: stack)) (hd : g.DependsOn m d) (hnew : d ∉ m :: stack)
    (hlt : d < g.modules.size) : g.Stack (d :: m :: stack) where
  nodup := nodup_cons.mpr ⟨hnew, h.nodup⟩
  chain := isChain_cons_cons.mpr ⟨hd, h.chain⟩
  lt := forall_mem_cons.mpr ⟨hlt, h.lt⟩

theorem length_le (h : g.Stack stack) : stack.length ≤ g.modules.size := by
  have hsub : stack ⊆ range g.modules.size := fun m hm => mem_range.mpr (h.lt m hm)
  simpa using (subperm_of_subset h.nodup hsub).length_le

theorem reaches (h : g.Stack (m :: stack)) (hd : d ∈ m :: stack) :
    ReflTransGen g.DependsOn d m := by
  rcases mem_cons.mp hd with rfl | hd
  · exact .refl
  · have htop : (m :: stack).IsChain fun x y => ReflTransGen g.DependsOn y x :=
      h.chain.imp fun _ _ => .single
    exact rel_of_pairwise_cons htop.pairwise hd

/-- A dependency that is on the stack closes a cycle. -/
theorem cycleTo (h : g.Stack (m :: stack)) (hd : d ∈ m :: stack) (hdep : g.DependsOn m d) :
    IsCycle g.DependsOn (cycleTo (m :: stack) d) := by
  obtain ⟨inner, outer, hsplit, hinner⟩ := eq_append_cons_of_mem hd
  have htake : (m :: stack).takeWhile (· ≠ d) = inner := by
    rw [hsplit, takeWhile_append_of_pos, takeWhile_cons_of_neg (by simp),
      append_nil]
    exact fun x hx => decide_eq_true fun heq => hinner (heq ▸ hx)
  have hchain : (inner ++ [d]).IsChain fun d m => g.DependsOn m d := by
    have hwhole := h.chain
    rw [hsplit] at hwhole
    exact (isChain_split.mp hwhole).1
  have hnodup : (inner ++ [d]).Nodup := by
    have hwhole := h.nodup
    rw [hsplit, append_cons] at hwhole
    exact hwhole.of_append_left
  have hreverse : (inner ++ [d]).reverse = d :: inner.reverse := by simp
  unfold Graph.cycleTo
  rw [htake]
  refine ⟨d, inner.reverse, rfl, hreverse ▸ nodup_reverse.mpr hnodup, ?_⟩
  refine isChain_append.mpr ⟨hreverse ▸ isChain_reverse.mpr hchain, .singleton d, ?_⟩
  -- The innermost module of the way is the top of the stack.
  have htop : (inner ++ [d]).head? = some m := by
    have hhead := congrArg head? hsplit
    cases inner with
    | nil => exact hhead.symm
    | cons x inner => exact hhead.symm
  intro x hx y hy
  rw [← hreverse, getLast?_reverse, htop] at hx
  cases hx
  cases hy
  exact hdep

end Graph.Stack

/-! ## Between two steps -/

/-- What holds of the modules in order while those on the stack are waiting: a dependency comes
first, unless it leads back, and then a cycle was met. -/
structure Graph.ModuleOrder.Sorted (g : Graph) (stack : List ModuleId) (o : ModuleOrder) : Prop where
  nodup : o.order.Nodup
  apart : ∀ m ∈ o.order, m ∉ stack
  needed : ∀ m ∈ o.order, g.Needed m
  closed : ∀ m ∈ o.order, ∀ d, g.DependsOn m d → d ∈ o.order ∨ d ∈ stack
  before : ∀ m ∈ o.order, ∀ d, g.DependsOn m d →
    Before o.order d m ∨ (ReflTransGen g.DependsOn d m ∧ o.cycles ≠ [])
  cycles : ∀ c ∈ o.cycles, IsCycle g.DependsOn c

structure Graph.ModuleOrder.Extends (o o' : ModuleOrder) : Prop where
  order : ∀ m ∈ o.order, m ∈ o'.order
  cycles : o.cycles ≠ [] → o'.cycles ≠ []

namespace Graph.ModuleOrder

theorem Extends.refl (o : ModuleOrder) : o.Extends o := ⟨fun _ => id, id⟩

theorem Extends.trans {a b c : ModuleOrder} (h : a.Extends b) (h' : b.Extends c) : a.Extends c :=
  ⟨fun m hm => h'.order m (h.order m hm), fun hc => h'.cycles (h.cycles hc)⟩

/-- A dependency is dealt with: it is in order, or waits on the stack and closed a cycle. -/
def Met (stack : List ModuleId) (o : ModuleOrder) (d : ModuleId) : Prop :=
  d ∈ o.order ∨ (d ∈ stack ∧ o.cycles ≠ [])

theorem Met.extends {o' : ModuleOrder} (h : o.Met stack d) (he : o.Extends o') : o'.Met stack d :=
  h.imp (he.order d) fun h => ⟨h.1, he.cycles h.2⟩

namespace Sorted

variable {g : Graph} {stack : List ModuleId} {o : ModuleOrder} {m d : ModuleId}

theorem empty (g : Graph) : Sorted g [] {} := by
  constructor <;> simp

theorem push (h : o.Sorted g stack) (hm : m ∉ o.order) : o.Sorted g (m :: stack) where
  nodup := h.nodup
  apart := fun x hx => by
    rw [mem_cons, not_or]
    exact ⟨fun heq => hm (heq ▸ hx), h.apart x hx⟩
  needed := h.needed
  closed := fun x hx d hd => (h.closed x hx d hd).imp_right (mem_cons_of_mem m)
  before := h.before
  cycles := h.cycles

theorem cycle (h : o.Sorted g (m :: stack)) (hstack : g.Stack (m :: stack)) (hd : d ∈ m :: stack)
    (hdep : g.DependsOn m d) :
    Sorted g (m :: stack) { o with cycles := o.cycles ++ [cycleTo (m :: stack) d] } where
  nodup := h.nodup
  apart := h.apart
  needed := h.needed
  closed := h.closed
  before := fun x hx d hd => (h.before x hx d hd).imp_right fun h => ⟨h.1, by simp⟩
  cycles := fun c hc => by
    rcases mem_append.mp hc with hc | hc
    · exact h.cycles c hc
    · exact mem_singleton.mp hc ▸ hstack.cycleTo hd hdep

theorem finish (h : o.Sorted g (m :: stack)) (hstack : g.Stack (m :: stack)) (hm : g.Needed m)
    (hmet : ∀ d, g.DependsOn m d → o.Met (m :: stack) d) :
    Sorted g stack { o with order := o.order ++ [m] } := by
  have hnew : m ∉ o.order := fun hin => h.apart m hin mem_cons_self
  have hmem : ∀ {x}, x ∈ o.order ++ [m] ↔ x ∈ o.order ∨ x = m := by simp
  refine ⟨?_, ?_, ?_, ?_, ?_, h.cycles⟩
  · show (o.order ++ [m]).Nodup
    rw [← concat_eq_append]
    exact h.nodup.concat hnew
  · intro x hx
    rcases hmem.mp hx with hx | rfl
    · exact fun hin => h.apart x hx (mem_cons_of_mem m hin)
    · exact (nodup_cons.mp hstack.nodup).1
  · intro x hx
    rcases hmem.mp hx with hx | rfl
    · exact h.needed x hx
    · exact hm
  · intro x hx d hd
    have hdealt : d ∈ o.order ∨ d ∈ m :: stack := by
      rcases hmem.mp hx with hx | rfl
      · exact h.closed x hx d hd
      · exact (hmet d hd).imp_right And.left
    rcases hdealt with hdone | hwait
    · exact .inl (hmem.mpr (.inl hdone))
    · exact (mem_cons.mp hwait).imp_left fun heq => hmem.mpr (.inr heq)
  · intro x hx d hd
    rcases hmem.mp hx with hx | rfl
    · exact (h.before x hx d hd).imp_left fun hbefore => hbefore.append hx [m]
    · rcases hmet d hd with hdone | ⟨hwait, hcycles⟩
      · exact .inl (.last hdone hnew)
      · exact .inr ⟨hstack.reaches hwait, hcycles⟩

end Sorted

end Graph.ModuleOrder

/-! ## Whole searches -/

/-- Deals with one dependency of the module on top of the stack: it is in order already, or waits
itself, or is searched. -/
def Graph.ModuleOrder.meet (stack : List ModuleId) (search : ModuleOrder → ModuleId → ModuleOrder)
    (o : ModuleOrder) (d : ModuleId) : ModuleOrder :=
  if o.order.contains d then o
  else if stack.contains d then { o with cycles := o.cycles ++ [cycleTo stack d] }
  else search o d

section

variable {g : Graph} (hlt : ∀ {m d}, g.DependsOn m d → d < g.modules.size)

include hlt

open ModuleOrder

/-- A search puts a module into order that is neither in order nor waiting. -/
def PutsInOrder (g : Graph) (stack : List ModuleId) (search : ModuleOrder → ModuleId → ModuleOrder) :
    Prop :=
  ∀ o d, g.Stack (d :: stack) → d ∉ o.order → g.Needed d → o.Sorted g stack →
    (search o d).Sorted g stack ∧ o.Extends (search o d) ∧ d ∈ (search o d).order

section

variable (hstack : g.Stack (m :: stack)) (hm : g.Needed m)
  (hsearch : PutsInOrder g (m :: stack) search)

include hstack hm hsearch

theorem meet_sorted (hdep : g.DependsOn m d) (ho : o.Sorted g (m :: stack)) :
    (meet (m :: stack) search o d).Sorted g (m :: stack) ∧
      o.Extends (meet (m :: stack) search o d) ∧
      (meet (m :: stack) search o d).Met (m :: stack) d := by
  unfold meet
  split
  · rename_i hdone
    exact ⟨ho, .refl o, .inl (contains_iff_mem.mp hdone)⟩
  · rename_i hdone
    split
    · rename_i hwait
      have hin := contains_iff_mem.mp hwait
      exact ⟨ho.cycle hstack hin hdep, ⟨fun _ => id, by simp⟩, .inr ⟨hin, by simp⟩⟩
    · rename_i hwait
      have hnew : d ∉ o.order := fun h => hdone (contains_iff_mem.mpr h)
      have hnot : d ∉ m :: stack := fun h => hwait (contains_iff_mem.mpr h)
      obtain ⟨e, he, hreach⟩ := hm
      obtain ⟨hsorted, hextends, hmem⟩ := hsearch o d (hstack.push hdep hnot (hlt hdep)) hnew
        ⟨e, he, hreach.tail hdep⟩ ho
      exact ⟨hsorted, hextends, .inl hmem⟩

theorem dependencies_met {ds : List ModuleId}
    (hds : ∀ d ∈ ds, g.DependsOn m d) (ho : o.Sorted g (m :: stack)) :
    (ds.foldl (meet (m :: stack) search) o).Sorted g (m :: stack) ∧
      o.Extends (ds.foldl (meet (m :: stack) search) o) ∧
      ∀ d ∈ ds, (ds.foldl (meet (m :: stack) search) o).Met (m :: stack) d := by
  induction ds generalizing o with
  | nil => exact ⟨ho, .refl o, by simp⟩
  | cons d ds ih =>
    obtain ⟨hdep, hds⟩ := forall_mem_cons.mp hds
    obtain ⟨h1, he1, hmet⟩ := meet_sorted hlt hstack hm hsearch hdep ho
    obtain ⟨hsorted, hextends, hall⟩ := ih hds h1
    exact ⟨hsorted, he1.trans hextends,
      forall_mem_cons.mpr ⟨hmet.extends hextends, hall⟩⟩

end

theorem orderFrom_putsInOrder (n : Nat) (stack : List ModuleId)
    (hn : g.modules.size < n + stack.length) : PutsInOrder g stack (g.orderFrom n stack) := by
  induction n generalizing stack with
  | zero =>
    intro o m hstack
    have hlength := hstack.length_le
    rw [length_cons] at hlength
    omega
  | succ n ih =>
    intro o m hstack hnew hm ho
    have hsearch : PutsInOrder g (m :: stack) (g.orderFrom n (m :: stack)) :=
      ih (m :: stack) (by rw [length_cons]; omega)
    obtain ⟨hsorted, hextends, hmet⟩ := dependencies_met hlt hstack hm hsearch (fun _ => id)
      (ho.push hnew)
    refine ⟨hsorted.finish hstack hm hmet, hextends.trans ⟨?_, id⟩, ?_⟩
    · exact fun x hx => mem_append_left [m] hx
    · exact mem_append_right _ (mem_singleton.mpr rfl)

theorem executionOrder_sorted (hentries : ∀ e ∈ g.entries, e < g.modules.size) :
    g.executionOrder.Sorted g [] ∧ ∀ e ∈ g.entries, e ∈ g.executionOrder.order := by
  have hfold : ∀ (es : List ModuleId) (o : ModuleOrder), (∀ e ∈ es, e ∈ g.entries) →
      o.Sorted g [] →
      let o' := es.foldl (fun o m =>
        if o.order.contains m then o else g.orderFrom (g.modules.size + 1) [] o m) o
      o'.Sorted g [] ∧ o.Extends o' ∧ ∀ e ∈ es, e ∈ o'.order := by
    intro es
    induction es with
    | nil => exact fun o _ ho => ⟨ho, .refl o, by simp⟩
    | cons e es ih =>
      intro o hes ho
      obtain ⟨he, hes⟩ := forall_mem_cons.mp hes
      rw [foldl_cons]
      split
      · rename_i hdone
        obtain ⟨hsorted, hextends, hall⟩ := ih o hes ho
        exact ⟨hsorted, hextends, forall_mem_cons.mpr
          ⟨hextends.order e (contains_iff_mem.mp hdone), hall⟩⟩
      · rename_i hdone
        have hstack : g.Stack [e] := ⟨nodup_singleton e, .singleton e, by simp [hentries e he]⟩
        obtain ⟨h1, he1, hmem⟩ := orderFrom_putsInOrder hlt (g.modules.size + 1) [] (Nat.lt_succ_self _)
          o e hstack (fun h => hdone (contains_iff_mem.mpr h)) ⟨e, he, .refl⟩ ho
        obtain ⟨hsorted, hextends, hall⟩ := ih _ hes h1
        exact ⟨hsorted, he1.trans hextends, forall_mem_cons.mpr
          ⟨hextends.order e hmem, hall⟩⟩
  obtain ⟨hsorted, -, hall⟩ := hfold g.entries {} (fun _ => id) (.empty g)
  exact ⟨hsorted, hall⟩

end

/-! ## What an order means -/

namespace Graph.ModuleOrder.Sorted

variable {g : Graph} {o : ModuleOrder}

theorem mem_order (h : o.Sorted g []) (hentries : ∀ e ∈ g.entries, e ∈ o.order) (m : ModuleId) :
    m ∈ o.order ↔ g.Needed m := by
  refine ⟨h.needed m, ?_⟩
  rintro ⟨e, he, hreach⟩
  induction hreach with
  | refl => exact hentries e he
  | tail _ hd ih => exact (h.closed _ ih _ hd).resolve_right (by simp)

theorem before_of_transGen (h : o.Sorted g []) (hnone : o.cycles = []) (hm : m ∈ o.order)
    (hreach : TransGen g.DependsOn m d) : Before o.order d m := by
  have hstep : ∀ {m d}, m ∈ o.order → g.DependsOn m d → Before o.order d m := fun hm hd =>
    (h.before _ hm _ hd).resolve_right fun hcycle => hcycle.2 hnone
  induction hreach with
  | single hd => exact hstep hm hd
  | tail _ hd ih =>
    have hnext := hstep ih.1 hd
    exact ⟨hnext.1, hnext.2.trans ih.2⟩

theorem cycles_ne_nil (h : o.Sorted g []) (hm : m ∈ o.order) (hcycle : TransGen g.DependsOn m m) :
    o.cycles ≠ [] :=
  fun hnone => Nat.lt_irrefl _ (h.before_of_transGen hnone hm hcycle).2

end Graph.ModuleOrder.Sorted

end Winnow
