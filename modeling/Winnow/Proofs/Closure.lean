import Mathlib.Data.Finset.Card
import Winnow.Proofs.Including

/-!
# Inclusion is closed

Nothing is included without what it needs: the node around it, the declarations of a variable, the
variable behind a name, and with a namespace everything that is in it (`Graph.Closed`). This holds
at the end of every pass and when marking returns (`inclusion_closed`).

A walk marks a node before it visits the parts. A variable that becomes included marks what is
around its declarations up to the first node that is marked already. A namespace takes the exports
of its module along, which may be namespaces again; `Closing` says what holds while modules are
still at it.
-/

namespace Winnow

open Winnow.Graph Query Conduct Inclusion Steps Variable Finset

variable {g g' : Graph} {k p : NodeId} {name : Bytes} {pending : List ModuleId} {m : ModuleId}
  {n : Node} {v : VarId} {w : Variable}

/-! ## The node around a node -/

def Graph.parent? (g : Graph) (n : NodeId) : Option NodeId := (g.record? n).bind NodeRecord.parent

theorem parent?_of_frame (h : g'.frame = g.frame) : g'.parent? = g.parent? := by
  funext k
  have hk := congrArg (Option.bind · fun p => p.2.1) (frame_eq_iff.mp h k)
  simp only [Option.bind_map] at hk
  exact hk

theorem Graph.Placed.parent_node (hg : g.Placed) (h : g.parent? k = some p) :
    ∃ c n, g.node? k = some c ∧ g.node? p = some n ∧ c ∈ n.children := by
  obtain ⟨r, hr, hp⟩ := Option.bind_eq_some_iff.mp h
  obtain ⟨r', hr', hmem⟩ := hg.parent hr hp
  exact ⟨r.node, r'.node, by rw [node?, hr]; rfl, by rw [node?, hr']; rfl, hmem⟩

theorem Graph.Placed.child_parent (hg : g.Placed) {c : Node} (hn : Held g.node? n)
    (hc : c ∈ n.children) : g.parent? c.id = some n.id := by
  obtain ⟨r, hr, rfl⟩ := Option.map_eq_some_iff.mp hn
  obtain ⟨r', hr', -, hp⟩ := hg.child hr hc
  exact Option.bind_eq_some_iff.mpr ⟨r', hr', hp⟩

/-- A node stands for no variable and has no resolved access around it. -/
def Graph.Inert (g : Graph) (k : NodeId) : Prop :=
  g.resolution k = .nothing ∧ ∃ n, g.node? k = some n ∧ n.isPlain = false

/-- Only names and accesses to namespaces are resolved, and below those there is nothing else. So
around a node that is none of them there is none either. -/
theorem Graph.Sound.inert_parent (hg : g.Sound) (hk : g.Inert k) (hp : g.parent? k = some p) :
    g.Inert p ∧ ∀ n, g.node? p = some n → g.namedVar? n = none := by
  obtain ⟨c, n, hc, hn, hmem⟩ := hg.placed.parent_node hp
  obtain ⟨hnothing, c', hc', hplain⟩ := hk
  rw [hc] at hc'
  cases hc'
  have hres : g.resolution p = .nothing := by
    by_contra hne
    rcases (hg.named.whole hn hne).2 c hmem with h | h
    · rw [hplain] at h
      cases h
    · rw [hg.placed.covers.own hc] at h
      exact h hnothing
  refine ⟨⟨hres, n, hn, ?_⟩, fun n' hn' => ?_⟩
  · -- Names and literals have no children.
    cases n with
    | expr e => cases e <;> first | rfl | cases hmem
    | _ => rfl
  · rw [hn] at hn'
    cases hn'
    have hid := hg.placed.covers.own hn
    cases n with
    | binder b => cases hmem
    | _ => simp [namedVar?, hid, hres]

theorem Graph.Sound.inert_declares (hg : g.Sound) (hn : g.node? k = some n) (hd : n.declares v) :
    g.Inert k := by
  have hplain : n.isAccess = false ∧ n.isPlain = false := by
    cases n with
    | binder b => exact ⟨rfl, rfl⟩
    | expr e => cases e <;> first | exact ⟨rfl, rfl⟩ | cases hd
    | stmt s => exact ⟨rfl, rfl⟩
    | _ => cases hd
  refine ⟨?_, n, hn, hplain.2⟩
  by_contra hne
  have h := (hg.named.whole hn hne).1
  rw [hplain.1] at h
  cases h

/-! ## Marking upward -/

@[simp] theorem frame_markNode (g : Graph) (n : NodeId) : (g.markNode n).frame = g.frame :=
  frame_modifyFacts g n _

@[simp] theorem parent?_markNode (g : Graph) (n : NodeId) : (g.markNode n).parent? = g.parent? :=
  parent?_of_frame (frame_markNode g n)

theorem includeUpward_succ (k : Nat) (n : NodeId) (g : Graph) : includeUpward (k + 1) n g =
    if g.isIncluded n then g
    else match g.parent? n with
      | some p => includeUpward k p (g.markNode n)
      | none => g.markNode n := by
  rw [← parent?_markNode g n]
  rfl

theorem isIncluded_markNode {n : NodeId} {m : Node} (hn : g.node? n = some m) :
    (g.markNode n).isIncluded k = true ↔ k = n ∨ g.isIncluded k = true := by
  by_cases h : n = k
  · subst h
    rw [isIncluded, Graph.markNode, facts_modifyFacts_self hn]
    simp
  · rw [isIncluded, Graph.markNode, facts_modifyFacts_ne g _ h]
    simp [Ne.symm h, isIncluded]

theorem card_filter_lt {α : Type} {s : Finset α} {n : α} {p q : α → Prop} [DecidablePred p]
    [DecidablePred q] (h : ∀ k ∈ s, q k → p k) (hn : n ∈ s) (hp : p n) (hq : ¬q n) :
    (s.filter q).card < (s.filter p).card := by
  refine card_lt_card ((ssubset_iff_of_subset ?_).mpr ⟨n, ?_, ?_⟩)
  · exact monotone_filter_right _ h
  · exact mem_filter.mpr ⟨hn, hp⟩
  · exact fun hmem => hq (mem_filter.mp hmem).2

def Graph.unmarked (g : Graph) : Nat :=
  ((Finset.range g.nodes.size).filter fun k => g.isIncluded k = false).card

theorem unmarked_markNode {n : NodeId} {m : Node} (hn : g.node? n = some m)
    (h : g.isIncluded n = false) : (g.markNode n).unmarked < g.unmarked := by
  have hlt : n < g.nodes.size := by
    obtain ⟨r, hr, -⟩ := Option.map_eq_some_iff.mp hn
    exact (Array.getElem?_eq_some_iff.mp hr).1
  have hmark : (g.markNode n).isIncluded n = true := (isIncluded_markNode hn).mpr (.inl rfl)
  rw [unmarked, size_of_frame (frame_markNode g n)]
  refine card_filter_lt (fun k _ hk => ?_) (mem_range.mpr hlt) h (by simp [hmark])
  by_contra hne
  have hk' := (isIncluded_markNode hn).mpr (.inr (by simpa using hne))
  rw [hk] at hk'
  cases hk'

/-- The nodes around marked nodes are marked, apart from one that is about to be. -/
def Graph.UpwardBut (g : Graph) (n : NodeId) : Prop :=
  ∀ {k p}, g.isIncluded k = true → g.parent? k = some p → g.isIncluded p = true ∨ p = n

theorem Graph.UpwardBut.mark {n : NodeId} {m : Node} (hn : g.node? n = some m) (h : g.UpwardBut n)
    (hk : (g.markNode n).isIncluded k = true) (hp : g.parent? k = some p) :
    (g.markNode n).isIncluded p = true ∨ g.parent? n = some p := by
  rcases (isIncluded_markNode hn).mp hk with rfl | hk
  · exact .inr hp
  · refine .inl ((isIncluded_markNode hn).mpr ?_)
    rcases h hk hp with h | h
    · exact .inr h
    · exact .inl h

/-- Marking upward marks the node, and then the nodes around marked nodes are marked. There are steps
enough, since every step marks another node. -/
theorem includeUpward_upward : ∀ (k : Nat) {n : NodeId} {g : Graph}, g.Sound →
    (∃ m, g.node? n = some m) → g.unmarked ≤ k → g.UpwardBut n →
    (includeUpward k n g).isIncluded n = true ∧
      ∀ {j p}, (includeUpward k n g).isIncluded j = true → g.parent? j = some p →
        (includeUpward k n g).isIncluded p = true
  | k, n, g, hg, ⟨m, hm⟩, hk, hup => by
    by_cases hn : g.isIncluded n = true
    · have hsame : includeUpward k n g = g := by
        cases k with
        | zero => rfl
        | succ k => rw [includeUpward_succ, if_pos hn]
      rw [hsame]
      refine ⟨hn, fun hj hp => ?_⟩
      rcases hup hj hp with h | rfl
      · exact h
      · exact hn
    · have hless := unmarked_markNode hm (by simpa using hn)
      have hself : (g.markNode n).isIncluded n = true := (isIncluded_markNode hm).mpr (.inl rfl)
      obtain ⟨k, rfl⟩ : ∃ j, k = j + 1 := Nat.exists_eq_add_one.mpr (by omega)
      rw [includeUpward_succ, if_neg hn]
      cases hp : g.parent? n with
      | none =>
        refine ⟨hself, fun hj hjp => (hup.mark hm hj hjp).resolve_right fun h => ?_⟩
        rw [hp] at h
        cases h
      | some q =>
        obtain ⟨-, node, -, hnode, -⟩ := hg.placed.parent_node hp
        obtain ⟨-, hclosed⟩ := includeUpward_upward k (hg.markNode n)
          ⟨node, by rw [node?_of_frame (frame_markNode g n)]; exact hnode⟩ (by omega)
          fun {j p} hj hjp => by
            rw [parent?_markNode] at hjp
            refine (hup.mark hm hj hjp).imp id fun h => Option.some.inj (h.symm.trans hp)
        rw [parent?_markNode] at hclosed
        exact ⟨(includeUpward_includes k q _).included hself, hclosed⟩

/-- What marking upward marks beside the node it starts from stands for no variable. -/
theorem includeUpward_new : ∀ (k : Nat) {n : NodeId} {g : Graph}, g.Sound → g.Inert n →
    ∀ {j m}, (includeUpward k n g).isIncluded j = true → g.node? j = some m →
      g.isIncluded j = true ∨ j = n ∨ g.namedVar? m = none
  | 0, _, _, _, _, _, _, hj, _ => .inl hj
  | k + 1, n, g, hg, hn, j, m, hj, hm => by
    obtain ⟨node, hnode, -⟩ := hn.2
    rw [includeUpward_succ] at hj
    split at hj
    · exact .inl hj
    cases hp : g.parent? n with
    | none =>
      rw [hp] at hj
      rcases (isIncluded_markNode hnode).mp hj with h | h
      · exact .inr (.inl h)
      · exact .inl h
    | some q =>
      rw [hp] at hj
      obtain ⟨hq, hnone⟩ := hg.inert_parent hn hp
      have hframe := frame_markNode g n
      have hsame := namedVar?_congr (resolution_of_frame hframe)
      rw [← node?_of_frame hframe] at hm
      rcases includeUpward_new k (hg.markNode n)
          ⟨by rw [resolution_of_frame hframe]; exact hq.1,
            by rw [node?_of_frame hframe]; exact hq.2⟩ hj hm with h | rfl | h
      · rcases (isIncluded_markNode hnode).mp h with h | h
        · exact .inr (.inl h)
        · exact .inl h
      · rw [node?_of_frame hframe] at hm
        exact .inr (.inr (hnone m hm))
      · rw [hsame] at h
        exact .inr (.inr h)

/-! ## What spreads -/

/-- A graph after something was included that took along what it names. -/
structure Spreads (g g' : Graph) : Prop extends Includes g g' where
  named : ∀ {k n v}, g.node? k = some n → g'.isIncluded k = true → g.namedVar? n = some v →
    g.isIncluded k = true ∨ g'.isVarIncluded v = true

theorem Evolves.isVarIncluded (h : Evolves g g') (hv : g.isVarIncluded v = true) :
    g'.isVarIncluded v = true := by
  cases hw : g.var? v with
  | none => rw [Graph.isVarIncluded, hw] at hv; cases hv
  | some w =>
    rw [Graph.isVarIncluded, hw] at hv
    obtain ⟨w', hw', he⟩ := h.vars hw
    rw [Graph.isVarIncluded, hw']
    exact he.included hv

theorem Evolves.node? (h : Evolves g g') : g'.node? = g.node? :=
  node?_of_frame h.frame

theorem Evolves.namedVar? (h : Evolves g g') : g'.namedVar? = g.namedVar? :=
  namedVar?_congr (resolution_of_frame h.frame)

theorem Evolves.parent? (h : Evolves g g') : g'.parent? = g.parent? :=
  parent?_of_frame h.frame

namespace Spreads

variable {g g' g'' : Graph}

theorem refl (g : Graph) : Spreads g g := ⟨.refl g, fun _ h _ => .inl h⟩

theorem trans (h : Spreads g g') (h' : Spreads g' g'') : Spreads g g'' where
  toIncludes := h.toIncludes.trans h'.toIncludes
  named := fun {k n v} hn hk hv => by
    rcases h'.named (by rw [h.node?]; exact hn) hk (by rw [h.namedVar?]; exact hv) with hk | hv'
    · exact (h.named hn hk hv).imp id h'.isVarIncluded
    · exact .inr hv'

theorem of_same (h : Includes g g') (hsame : ∀ k, g'.isIncluded k = g.isIncluded k) :
    Spreads g g' := ⟨h, fun {k _ _} _ hk _ => .inl ((hsame k).symm.trans hk)⟩

theorem linked (h : Linked g g') : Spreads g g' := by
  refine of_same (.linked h) fun k => ?_
  simp [isIncluded, Graph.facts, record?, h.nodes]

end Spreads

def Graph.Upward (g : Graph) : Prop :=
  ∀ {k p}, g.isIncluded k = true → g.parent? k = some p → g.isIncluded p = true

theorem unmarked_le (g : Graph) : g.unmarked ≤ g.nodes.size := by
  simpa [unmarked] using card_filter_le (range g.nodes.size) _

theorem Graph.Sound.includeUpward (hg : g.Sound) (k : Nat) (n : NodeId) :
    (includeUpward k n g).Sound := by
  have hrest := includeUpward_rest k n g
  refine hg.evolves (includeUpward_includes k n g).toEvolves (hg.linkable.congr ?_ ?_ ?_ ?_)
  all_goals rw [hrest]

theorem includeUpward_spreads : ∀ (ds : List NodeId) {g : Graph}, g.Sound → g.Upward →
    g.isVarIncluded v = true → (∀ d ∈ ds, ∃ n, g.node? d = some n ∧ n.declares v) →
    let g' := ds.foldl (fun g d => Inclusion.includeUpward g.nodes.size d g) g
    g'.Sound ∧ g'.Upward ∧ Spreads g g' ∧ ∀ d ∈ ds, g'.isIncluded d = true
  | [], g, hg, hup, _, _ => ⟨hg, hup, .refl g, nofun⟩
  | d :: ds, g, hg, hup, hv, hds => by
    obtain ⟨n, hn, hdeclares⟩ := hds d List.mem_cons_self
    have hincludes := includeUpward_includes g.nodes.size d g
    obtain ⟨hd, hup'⟩ := includeUpward_upward g.nodes.size hg ⟨n, hn⟩ (unmarked_le g)
      fun hk hp => .inl (hup hk hp)
    have hspreads : Spreads g (includeUpward g.nodes.size d g) := by
      refine ⟨hincludes, fun {k m u} hm hk hu => ?_⟩
      rcases includeUpward_new _ hg (hg.inert_declares hn hdeclares) hk hm with h | rfl | h
      · exact .inl h
      · -- Of the nodes that declare a variable only the declared name stands for one.
        rw [hn] at hm
        cases hm
        have hnothing := (hg.inert_declares hn hdeclares).1
        cases n with
        | binder b =>
          cases hu
          cases hdeclares
          exact .inr (hincludes.isVarIncluded hv)
        | _ => simp [namedVar?, hg.placed.covers.own hn, hnothing] at hu
      · rw [hu] at h
        cases h
    obtain ⟨hg', hup'', hrest, hall⟩ := includeUpward_spreads ds (hg.includeUpward _ d)
      (fun hk hp => hup' hk (hincludes.parent? ▸ hp)) (hincludes.isVarIncluded hv)
      fun d' hd' => by
        rw [hincludes.node?]
        exact hds d' (List.mem_cons_of_mem d hd')
    refine ⟨hg', hup'', hspreads.trans hrest, fun d' hd' => ?_⟩
    rcases List.mem_cons.mp hd' with rfl | hd'
    · exact hrest.included hd
    · exact hall d' hd'

/-! ## Exports of a module -/

/-- An export was traced, and the variable behind it is included. -/
def Graph.ExportIn (g : Graph) (m : ModuleId) (name : Bytes) : Prop :=
  ∃ found, g.traced? m name = some found ∧ ∀ v, found = some v → g.isVarIncluded v = true

/-- What a name reached through `export *` stands for is included: an export, or the namespace of an
outside source. -/
def Graph.StarIn (g : Graph) (m : ModuleId) (name : Bytes) : Prop :=
  match starSource? name with
  | some source =>
    ∃ u, g.externals.lookup (source, utf8 "*") = some u ∧ g.isVarIncluded u = true
  | none => g.ExportIn m name

structure Graph.ExportsIn (g : Graph) (m : ModuleId) : Prop where
  own : ∀ {mod}, g.module? m = some mod → ∀ name ∈ mod.exportNames, g.ExportIn m name
  star : ∀ name ∈ g.starNames m, g.StarIn m name

section

variable (h : Evolves g g')

include h

theorem Evolves.module?_plain (m : ModuleId) :
    (g'.module? m).map Module.plain = (g.module? m).map Module.plain := by
  cases hm : g'.module? m with
  | none =>
    cases hm' : g.module? m with
    | none => rfl
    | some mod =>
      obtain ⟨mod', hmod', -⟩ := h.modules hm'
      rw [hm] at hmod'
      cases hmod'
  | some mod' =>
    obtain ⟨mod, hmod, hgrows⟩ := h.module_cases hm
    rw [hmod, Option.map_some, Option.map_some, hgrows.plain]

theorem Evolves.starNames (m : ModuleId) :
    g'.starNames m = g.starNames m := starNames_congr h.size h.module?_plain m

theorem Evolves.traced? {found : Option VarId}
    (hf : g.traced? m name = some found) : g'.traced? m name = some found := by
  obtain ⟨mod, hmod, hlookup⟩ := Option.bind_eq_some_iff.mp hf
  obtain ⟨mod', hmod', hgrows⟩ := h.modules hmod
  exact Option.bind_eq_some_iff.mpr ⟨mod', hmod', hgrows.tracedExports hlookup⟩

theorem Evolves.exportIn (hin : g.ExportIn m name) : g'.ExportIn m name := by
  obtain ⟨found, hfound, hv⟩ := hin
  exact ⟨found, h.traced? hfound, fun v hfv => h.isVarIncluded (hv v hfv)⟩

theorem Evolves.starIn (hin : g.StarIn m name) : g'.StarIn m name := by
  unfold Graph.StarIn at hin ⊢
  split at hin
  · obtain ⟨u, hu, hincluded⟩ := hin
    exact ⟨u, h.externals hu, h.isVarIncluded hincluded⟩
  · exact h.exportIn hin

theorem Evolves.exportsIn (hin : g.ExportsIn m) : g'.ExportsIn m where
  own := fun hmod' name hname => by
    obtain ⟨mod, hmod, hgrows⟩ := h.module_cases hmod'
    rw [Module.exportNames_congr hgrows.plain] at hname
    exact h.exportIn (hin.own hmod name hname)
  star := fun name hname => h.starIn (hin.star name (h.starNames m ▸ hname))

end

/-! ## While namespaces take their exports along -/

/-- What holds while the exports of some modules, the pending ones, are being included, and one
module waits for its turn. -/
structure Closing (waiting : Option ModuleId) (pending : List ModuleId) (g : Graph) : Prop where
  sound : g.Sound
  parent : g.Upward
  declaration : ∀ {v w d}, g.var? v = some w → w.included = true → d ∈ w.declarations →
    g.isIncluded d = true
  namespaces : ∀ {v w m mod}, g.var? v = some w → w.included = true → w.isNamespace = true →
    w.module = some m → g.module? m = some mod →
    waiting = some m ∨ mod.allExportsIncluded = true
  members : ∀ {m mod}, g.module? m = some mod → mod.allExportsIncluded = true →
    m ∈ pending ∨ g.ExportsIn m

/-- A graph in which the same things are included as before. -/
structure SameMarks (g g' : Graph) : Prop extends Evolves g g' where
  marks : ∀ k, g'.isIncluded k = g.isIncluded k
  varIncluded : ∀ v, g'.isVarIncluded v = g.isVarIncluded v
  exportsIncluded : ∀ {m mod mod'}, g.module? m = some mod → g'.module? m = some mod' →
    mod'.allExportsIncluded = mod.allExportsIncluded

theorem Drifts.sameMarks (h : Drifts g g') : SameMarks g g' :=
  ⟨h.toEvolves, fun k => (h.facts k).included, h.varIncluded, h.exportsIncluded⟩

section

variable {waiting : Option ModuleId} {pending : List ModuleId} {g g' : Graph}

/-- A variable that is included was included before, and is the same otherwise. -/
theorem SameMarks.var (h : SameMarks g g') {w' : Variable} (hw' : g'.var? v = some w')
    (hincluded : w'.included = true) :
    ∃ w, g.var? v = some w ∧ w.included = true ∧ w.Evolves w' := by
  have hv := h.varIncluded v
  rw [Graph.isVarIncluded, Graph.isVarIncluded, hw', Option.map_some,
    hincluded] at hv
  cases hw : g.var? v with
  | none => rw [hw] at hv; cases hv
  | some w =>
    rw [hw] at hv
    obtain ⟨w'', hw'', he⟩ := h.vars hw
    rw [hw'] at hw''
    cases hw''
    exact ⟨w, rfl, hv.symm, he⟩

theorem Closing.same (hg : Closing waiting pending g) (h : SameMarks g g') (hg' : Linkable g') :
    Closing waiting pending g' where
  sound := hg.sound.evolves h.toEvolves hg'
  parent := fun {k p} hk hp => by
    rw [h.marks] at hk ⊢
    exact hg.parent hk (h.parent? ▸ hp)
  declaration := fun hw' hincluded hd => by
    obtain ⟨w, hw, hwin, he⟩ := h.var hw' hincluded
    rw [h.marks]
    exact hg.declaration hw hwin (he.declarations ▸ hd)
  namespaces := fun hw' hincluded hns hm hmod' => by
    obtain ⟨w, hw, hwin, he⟩ := h.var hw' hincluded
    obtain ⟨mod, hmod, -⟩ := h.module_cases hmod'
    rw [h.exportsIncluded hmod hmod']
    refine hg.namespaces hw hwin ?_ (he.module ▸ hm) hmod
    rwa [isNamespace, he.form] at hns
  members := fun hmod' hflag => by
    obtain ⟨mod, hmod, -⟩ := h.module_cases hmod'
    rw [h.exportsIncluded hmod hmod'] at hflag
    exact (hg.members hmod hflag).imp id h.exportsIn

/-- The one who waits need not wait if the exports of its module are taken care of. -/
theorem Closing.skip (hg : Closing (some m) pending g)
    (hflag : ∀ mod, g.module? m = some mod → mod.allExportsIncluded = true) :
    Closing none pending g :=
  { hg with
    namespaces := fun hw hincluded hns hm hmod => by
      rcases hg.namespaces hw hincluded hns hm hmod with h | h
      · cases h
        exact .inr (hflag _ hmod)
      · exact .inr h }

/-! ## Marking a variable -/

theorem markVariable_eq (hw : g.var? v = some w) : markVariable v g =
    w.declarations.foldl (fun g d => includeUpward g.nodes.size d g)
      (g.modifyVar v fun w => { w with included := true }) := by simp [markVariable, hw]

theorem foldl_includeUpward_rest : ∀ (ds : List NodeId) (g : Graph),
    ds.foldl (fun g d => includeUpward g.nodes.size d g) g =
      { g with nodes := (ds.foldl (fun g d => includeUpward g.nodes.size d g) g).nodes }
  | [], _ => rfl
  | d :: ds, g => by
    have h := foldl_includeUpward_rest ds (includeUpward g.nodes.size d g)
    rw [List.foldl_cons, h, includeUpward_rest g.nodes.size d g]

theorem Closing.markVariable (hg : Closing none pending g) (hw : g.var? v = some w)
    (hwaiting : w.isNamespace = true → waiting = w.module) :
    Closing waiting pending (markVariable v g) ∧ Spreads g (markVariable v g) ∧
      (markVariable v g).isVarIncluded v = true ∧ (markVariable v g).modules = g.modules := by
  have hmark := Includes.markVar g v
  have hlinkable := hg.sound.linkable.evolve (v := v)
    (f := fun w => { w with included := true }) fun _ => ⟨rfl, fun _ => rfl, id⟩
  have hsound := hg.sound.evolves hmark.toEvolves hlinkable
  have hvar : (g.modifyVar v fun w => { w with included := true }).isVarIncluded v = true := by
    simp [Graph.isVarIncluded, hw]
  obtain ⟨hsound', hup, hspreads, hall⟩ := includeUpward_spreads w.declarations hsound
    (fun hk hp => hg.parent hk (hmark.parent? ▸ hp)) hvar
    fun d hd => by
      exact hg.sound.named.declarations hw hd
  have hrest := foldl_includeUpward_rest w.declarations
    (g.modifyVar v fun w => { w with included := true })
  rw [markVariable_eq hw]
  generalize w.declarations.foldl (fun g d => includeUpward g.nodes.size d g)
    (g.modifyVar v fun w => { w with included := true }) = g' at *
  have hvars : ∀ u, g'.var? u = (g.modifyVar v fun w => { w with included := true }).var? u :=
    fun u => by rw [hrest]; rfl
  have hmodules : g'.modules = g.modules := by rw [hrest]; rfl
  have hmodule : ∀ m, g'.module? m = g.module? m := fun m => by rw [module?, module?, hmodules]
  have htotal : Spreads g g' := (Spreads.of_same hmark fun _ => rfl).trans hspreads
  -- A variable that is included is the one that was marked, or was included before.
  have hcases : ∀ {u x}, g'.var? u = some x → x.included = true →
      (x.form = w.form ∧ x.module = w.module) ∨ g.var? u = some x := by
    intro u x hx hincluded
    rw [hvars, var?_modifyVar] at hx
    split at hx
    · subst u
      rw [hw] at hx
      cases hx
      exact .inl ⟨rfl, rfl⟩
    · exact .inr hx
  refine ⟨⟨hsound', hup, ?_, ?_, ?_⟩, htotal, hspreads.isVarIncluded hvar, hmodules⟩
  · intro u x d hx hincluded hd
    rcases hcases hx hincluded with ⟨hform, -⟩ | hx
    · rw [declarations, hform] at hd
      exact hall d hd
    · exact htotal.included (hg.declaration hx hincluded hd)
  · intro u x m mod hx hincluded hns hm hmod
    rw [hmodule] at hmod
    rcases hcases hx hincluded with ⟨hform, hown⟩ | hx
    · rw [isNamespace, hform] at hns
      exact .inl ((hwaiting hns).trans (hown ▸ hm))
    · exact .inr ((hg.namespaces hx hincluded hns hm hmod).resolve_left fun h => by cases h)
  · intro m mod hmod hflag
    rw [hmodule] at hmod
    exact (hg.members hmod hflag).imp id htotal.exportsIn

end

/-! ## Including a variable -/

def Graph.unflagged (g : Graph) : Nat :=
  ((Finset.range g.modules.size).filter fun m =>
    (g.module? m).map Module.allExportsIncluded = some false).card

theorem Evolves.unflagged_le (h : Evolves g g') : g'.unflagged ≤ g.unflagged := by
  rw [unflagged, h.size]
  refine card_le_card (monotone_filter_right _ fun m _ hm => ?_)
  obtain ⟨mod', hmod', hflag'⟩ := Option.map_eq_some_iff.mp hm
  obtain ⟨mod, hmod, hgrows⟩ := h.module_cases hmod'
  cases hflag : mod.allExportsIncluded with
  | false => simp [hmod, hflag]
  | true =>
    rw [hgrows.allExportsIncluded hflag] at hflag'
    cases hflag'

/-- The graph in which a module is about to include its exports. -/
def Graph.flagExports (g : Graph) (m : ModuleId) : Graph :=
  g.modifyModule m fun mod => { mod with allExportsIncluded := true }

theorem unflagged_flagExports {mod : Module} (hmod : g.module? m = some mod)
    (hflag : mod.allExportsIncluded = false) : (g.flagExports m).unflagged < g.unflagged := by
  have hlt : m < g.modules.size := (Array.getElem?_eq_some_iff.mp hmod).1
  have hsize : (g.flagExports m).modules.size = g.modules.size := by
    simp [Graph.flagExports, modifyModule]
  rw [unflagged, hsize]
  refine card_filter_lt (fun k _ hk => ?_) (mem_range.mpr hlt)
    (by simp [hmod, hflag]) (by simp [Graph.flagExports])
  rw [Graph.flagExports, module?_modifyModule] at hk
  split at hk
  · subst k
    simp [hmod] at hk
  · exact hk

theorem Closing.flagExports (hg : Closing (some m) pending g) :
    Closing none (m :: pending) (g.flagExports m) := by
  have hincludes := Includes.markExports g m
  have hlinkable : Linkable (g.flagExports m) :=
    hg.sound.linkable.modifyModule (fun _ => rfl) fun mod hmod =>
      ⟨fun _ hv => hg.sound.linkable.namespaceVar hmod hv,
        fun _ _ hv => hg.sound.linkable.tracedExports hmod hv,
        fun _ _ hv => hg.sound.linkable.tracedImports hmod hv⟩
  refine ⟨hg.sound.evolves hincludes.toEvolves hlinkable, hg.parent, hg.declaration, ?_, ?_⟩
  · intro v w k mod hw hincluded hns hk hmod
    rw [Graph.flagExports, module?_modifyModule] at hmod
    split at hmod
    · obtain ⟨mod', -, rfl⟩ := Option.map_eq_some_iff.mp hmod
      exact .inr rfl
    · next hne =>
      rcases hg.namespaces hw hincluded hns hk hmod with h | h
      · exact absurd (Option.some.inj h) hne
      · exact .inr h
  · intro k mod hmod hflag
    by_cases hk : m = k
    · exact .inl (by simp [hk])
    · rw [Graph.flagExports, module?_modifyModule, if_neg hk] at hmod
      exact (hg.members hmod hflag).imp (List.mem_cons_of_mem m) hincludes.exportsIn

theorem Closing.done (hg : Closing none (m :: pending) g) (hin : g.ExportsIn m) :
    Closing none pending g :=
  { hg with
    members := fun hmod hflag => by
      rcases hg.members hmod hflag with h | h
      · rcases List.mem_cons.mp h with rfl | h
        · exact .inr hin
        · exact .inl h
      · exact .inr h }

/-- Steps that include something while the exports of some modules are being included, with enough
steps left for the modules that have not begun. -/
def closing (pending : List ModuleId) (steps : Nat) : Conduct where
  holds g := Closing none pending g ∧ 2 * g.unflagged + 1 ≤ steps
  allows := Spreads
  refl := Spreads.refl
  trans := Spreads.trans

theorem Links.closing {α : Type} {m : StateM Graph α} {post : α → Graph → Prop} {steps : Nat}
    (h : LinksFrom g m post) : (closing pending steps).Steps g m post := by
  intro hg
  obtain ⟨hl, hg', hpost⟩ := h hg.1.sound.linkable
  have hdrifts := Drifts.linked hl
  have hless := hdrifts.unflagged_le
  have hsteps : 2 * g.unflagged + 1 ≤ steps := hg.2
  exact ⟨.linked hl, ⟨hg.1.same hdrifts.sameMarks hg', by omega⟩, hpost⟩

theorem requestPass_closing (steps : Nat) (v : VarId) (g : Graph) (hv : g.isVarIncluded v = true) :
    (closing pending steps).Steps g (modify requestPass) fun _ g' => g'.isVarIncluded v = true :=
  modify' fun hg => by
    have hdrifts := Drifts.request g
    exact ⟨.of_same (.request g) fun _ => rfl,
      ⟨hg.1.same hdrifts.sameMarks (hg.1.sound.linkable.congr rfl rfl rfl rfl), hg.2⟩, hv⟩

/-- What including the exports of a module does once the module is flagged. -/
def includeExports (n : Nat) (m : ModuleId) (mod : Module) : StateM Graph Unit := do
  mod.exportNames.forM fun name => do
    match ← traceExport m name with
    | some v => variableIn n v
    | none => return
  ((← get).starNames m).forM fun name => do
    match starSource? name with
    | some source => variableIn n (← externalVariable source (utf8 "*"))
    | none =>
      match ← traceExport m name with
      | some v => variableIn n v
      | none => return

theorem allExportsIn_succ (n : Nat) (m : ModuleId) (g : Graph) : (allExportsIn (n + 1) m).run g =
    match g.module? m with
    | none => ((), g)
    | some mod =>
      if mod.allExportsIncluded then ((), g) else (includeExports n m mod).run (g.flagExports m) := by
  unfold allExportsIn
  rw [get_bind_run]
  cases g.module? m with
  | none => rfl
  | some mod =>
    show StateT.run (if mod.allExportsIncluded then _ else _) g = if _ then _ else _
    split
    · rfl
    · rfl

/-- If including a variable takes everything along, so does including the exports of a module. -/
theorem includeExports_closing {n : Nat} (pending : List ModuleId) (mod : Module)
    (hmod : (g.module? m).map Module.plain = some mod.plain)
    (hvariable : ∀ {v : VarId} (g : Graph), v < g.symbols.vars.size →
      (closing pending n).Steps g (variableIn n v) fun _ g' => g'.isVarIncluded v = true) :
    (closing pending n).Steps g (includeExports n m mod) fun _ g' => g'.ExportsIn m := by
  have hsome : ∀ {g' g''}, Spreads g' g'' → (g''.module? m).isSome = true →
      (g'.module? m).isSome = true := fun h hm => by
    have := congrArg Option.isSome (h.module?_plain m)
    rwa [Option.isSome_map, Option.isSome_map, hm, eq_comm] at this
  have hexport : ∀ name g, (closing pending n).Steps g (do
      match ← traceExport m name with
      | some v => variableIn n v
      | none => return) fun _ g' => (g'.module? m).isSome = true → g'.ExportIn m name := by
    intro name g
    refine bind' (Links.closing (traceExport_links m name g)) fun found g' hl hfound => ?_
    cases found with
    | none => exact pure' fun _ hm => ⟨none, hfound.2 (hsome hl hm), nofun⟩
    | some v =>
      refine (hvariable g' (hfound.1 v rfl)).imp fun _ g'' hl' hv hm =>
        ⟨some v, hl'.traced? (hfound.2 (hsome (hl.trans hl') hm)), ?_⟩
      rintro u ⟨⟩
      exact hv
  have hstar : ∀ name g, (closing pending n).Steps g (do
      match starSource? name with
      | some source => variableIn n (← externalVariable source (utf8 "*"))
      | none =>
        match ← traceExport m name with
        | some v => variableIn n v
        | none => return) fun _ g' => (g'.module? m).isSome = true → g'.StarIn m name := by
    intro name g
    unfold Graph.StarIn
    cases starSource? name with
    | none => exact hexport name g
    | some source =>
      refine bind' (Links.closing (externalVariable_links source (utf8 "*") g))
        fun v g' _ hv hg' => ?_
      obtain ⟨h1, h2, h3⟩ := hvariable g' (hg'.1.sound.linkable.arranged.external_lt hv) hg'
      exact ⟨h1, h2, fun _ => ⟨v, h1.externals hv, h3⟩⟩
  refine bind' (forM_each (fun _ g g' h (hl : Spreads g g') hm => hl.exportIn (h (hsome hl hm)))
      fun name _ => hexport name) fun _ g1 hl1 hown => ?_
  refine get_bind fun _ => (forM_each (fun _ g g' h (hl : Spreads g g') hm => hl.starIn (h (hsome hl hm)))
      fun name _ => hstar name).imp fun _ g2 hl2 hall => ?_
  have hplain := ((hl1.trans hl2).module?_plain m).trans hmod
  obtain ⟨mod2, hmod2, hsame⟩ := Option.map_eq_some_iff.mp hplain
  have hm2 : (g2.module? m).isSome = true := by rw [hmod2]; rfl
  refine ⟨fun {mod'} hmod' name hname => hl2.exportIn (hown name ?_ (hsome hl2 hm2)),
    fun name hname => hall name (hl2.starNames m ▸ hname) hm2⟩
  rw [hmod2] at hmod'
  cases hmod'
  rwa [Module.exportNames_congr hsame] at hname

mutual

theorem variableIn_closing : ∀ (n : Nat) (pending : List ModuleId) {v : VarId} (g : Graph),
    v < g.symbols.vars.size →
    (closing pending n).Steps g (variableIn n v) fun _ g' => g'.isVarIncluded v = true
  | 0, _, _, _, _ => fun hg => absurd hg.2 (by omega)
  | n + 1, pending, v, g, hv => by
    refine get_bind fun hg => ?_
    obtain ⟨w, hw⟩ := exists_var? hv
    rw [hw]
    refine ite' (fun hin => pure' fun _ => ?_) fun hout => ?_
    · rw [Graph.isVarIncluded, hw]
      exact hin
    have hmarked : ∀ waiting, (w.isNamespace = true → waiting = w.module) →
        Closing waiting pending (markVariable v g) ∧ Spreads g (markVariable v g) ∧
          (markVariable v g).isVarIncluded v = true ∧
            (markVariable v g).unflagged = g.unflagged := by
      intro waiting hwaiting
      obtain ⟨hclosing, hspreads, hvar, hmodules⟩ := hg.1.markVariable hw hwaiting
      refine ⟨hclosing, hspreads, hvar, ?_⟩
      unfold unflagged module?
      rw [hmodules]
    by_cases hns : w.isNamespace = true
    · obtain ⟨merged, hform⟩ : ∃ merged, w.form = .moduleNamespace merged := by
        unfold isNamespace at hns
        split at hns
        · exact ⟨_, ‹_›⟩
        · cases hns
      obtain ⟨m, hm, -⟩ := hg.1.sound.linkable.namespaces hw hform
      obtain ⟨hclosing, hspreads, hvar, hsame⟩ := hmarked (some m) fun _ => hm.symm
      simp only [hform, hm]
      intro _
      obtain ⟨hspreads', hclosing'⟩ := allExportsIn_closing n pending (markVariable v g) hclosing
        (by rw [hsame]; have := hg.2; omega)
      have hless := hspreads'.unflagged_le
      obtain ⟨h1, h2, h3⟩ := requestPass_closing (n + 1) v _
        (hspreads'.isVarIncluded hvar) ⟨hclosing', by have := hg.2; omega⟩
      exact ⟨hspreads.trans (hspreads'.trans h1), h2, h3⟩
    · obtain ⟨hclosing, hspreads, hvar, hsame⟩ := hmarked none fun h => absurd h hns
      intro _
      obtain ⟨h1, h2, h3⟩ := requestPass_closing (n + 1) v _ hvar
        ⟨hclosing, by rw [hsame]; exact hg.2⟩
      have hnot : ∀ merged, w.form ≠ .moduleNamespace merged := fun merged hform =>
        hns (by rw [isNamespace, hform])
      split
      · exact absurd ‹_› (hnot _)
      · exact ⟨hspreads.trans h1, h2, h3⟩

theorem allExportsIn_closing : ∀ (n : Nat) (pending : List ModuleId) {m : ModuleId} (g : Graph),
    Closing (some m) pending g → 2 * g.unflagged ≤ n →
    Spreads g ((allExportsIn n m).run g).2 ∧ Closing none pending ((allExportsIn n m).run g).2
  | 0, pending, m, g, hg, hn => by
    refine ⟨.refl g, hg.skip fun mod hmod => ?_⟩
    by_contra hflag
    have := unflagged_flagExports hmod (by simpa using hflag)
    omega
  | n + 1, pending, m, g, hg, hn => by
    rw [allExportsIn_succ]
    cases hmod : g.module? m with
    | none => exact ⟨.refl g, hg.skip fun mod h => by rw [hmod] at h; cases h⟩
    | some mod =>
      dsimp only
      by_cases hflag : mod.allExportsIncluded = true
      · rw [if_pos hflag]
        exact ⟨.refl g, hg.skip fun mod' h => by rw [hmod] at h; cases h; exact hflag⟩
      rw [if_neg hflag]
      have hless := unflagged_flagExports hmod (by simpa using hflag)
      have hmarks : Spreads g (g.flagExports m) := .of_same (.markExports g m) fun _ => rfl
      -- The module is pending until all of its exports are included.
      obtain ⟨hspreads, hclosing, hin⟩ := includeExports_closing (m :: pending) mod
        (by rw [hmarks.module?_plain m, hmod]; rfl)
        (fun g hv => variableIn_closing n (m :: pending) g hv)
        ⟨hg.flagExports, by omega⟩
      exact ⟨hmarks.trans hspreads, hclosing.1.done hin⟩

end

theorem variableSteps_le (g : Graph) : 2 * g.unflagged + 1 ≤ variableSteps g := by
  have h : g.unflagged ≤ g.modules.size := by
    simpa [unflagged] using card_filter_le (range g.modules.size) _
  unfold variableSteps
  omega

theorem variableIn_unknown (h : g.var? v = none) :
    ∀ n, (variableIn n v).run g = ((), g)
  | 0 => rfl
  | n + 1 => by
    unfold variableIn
    rw [get_bind_run, h]
    rfl

theorem includeVariable_eq (g : Graph) (v : VarId) :
    g.includeVariable v = ((variableIn (variableSteps g) v).run g).2 := by
  rw [Graph.includeVariable, Inclusion.includeVariable, get_bind_run]

theorem isVarIncluded_markVariable (hw : g.var? v = some w) :
    (markVariable v g).isVarIncluded v = true := by
  rw [markVariable_eq hw, foldl_includeUpward_rest]
  show (g.modifyVar v fun w => { w with included := true }).isVarIncluded v = true
  rw [Graph.isVarIncluded, var?_modifyVar, if_pos rfl, hw]
  rfl

/-- Including a variable changes nothing if it is included already, and asks for a pass if not. -/
theorem variableIn_fresh (n : Nat) (v : VarId) (g : Graph) :
    including.Steps g (variableIn n v) fun _ g' =>
      g' = g ∨ g.isVarIncluded v = false ∧ g'.isVarIncluded v = true ∧ g'.needsPass = true := by
  cases n with
  | zero => exact pure' fun _ => .inl rfl
  | succ n =>
    refine get_bind fun hg => ?_
    cases hw : g.var? v with
    | none => exact pure' fun _ => .inl rfl
    | some w =>
      refine ite' (fun _ => pure' fun _ => .inl rfl) fun hout => ?_
      have hnot : g.isVarIncluded v = false := by
        rw [Graph.isVarIncluded, hw]
        simpa using hout
      have hrequest : ∀ g', g'.isVarIncluded v = true →
          including.Steps g' (modify requestPass) fun _ g'' =>
            g''.isVarIncluded v = true ∧ g''.needsPass = true :=
        fun g' hv => modify' fun hg' => ⟨.request g', hg'.congr rfl rfl rfl rfl, hv, rfl⟩
      refine imp ?_
        fun _ _ _ hv => .inr ⟨hnot, hv⟩
      refine bind' (P := fun _ g' => g'.isVarIncluded v = true) (fun hg => ?_)
        fun _ g' _ hv => ?_
      · obtain ⟨h, hg'⟩ := markVariable_including v hg
        exact ⟨h, hg', isVarIncluded_markVariable hw⟩
      · split
        · exact bind' (allExportsIn_steps including_admits n _ g') fun _ g'' h _ =>
            hrequest g'' (h.isVarIncluded hv)
        · exact hrequest g' hv

theorem Closing.includeVariable (hg : Closing none [] g) (v : VarId) :
    Spreads g (g.includeVariable v) ∧ Closing none [] (g.includeVariable v) ∧
      (v < g.symbols.vars.size → (g.includeVariable v).isVarIncluded v = true) := by
  rw [includeVariable_eq]
  by_cases hv : v < g.symbols.vars.size
  · obtain ⟨h1, h2, h3⟩ := variableIn_closing (variableSteps g) [] g hv ⟨hg, variableSteps_le g⟩
    exact ⟨h1, h2.1, fun _ => h3⟩
  · have hnone : g.var? v = none := Symbols.var?_eq_none_iff.mpr (Nat.not_lt.mp hv)
    rw [variableIn_unknown hnone]
    exact ⟨.refl g, hg, fun h => absurd h hv⟩

/-! ## Marking -/

/-- The variables that marked nodes stand for are included. -/
def Graph.NamesIn (g : Graph) : Prop :=
  ∀ {k n v}, g.node? k = some n → g.isIncluded k = true → g.namedVar? n = some v →
    g.isVarIncluded v = true

theorem SameMarks.namesIn (h : SameMarks g g') (hg : g.NamesIn) : g'.NamesIn := by
  intro k n v hn hk hv
  rw [h.varIncluded]
  exact hg (h.node? ▸ hn) (h.marks k ▸ hk) (h.namedVar? ▸ hv)

/-- Marking keeps inclusion closed and takes no mark back. -/
def closed (frame : Places) : Conduct where
  holds g := (drifting frame).holds g ∧ Closing none [] g ∧ g.NamesIn
  allows g g' := Evolves g g' ∧ ∀ {k}, g.isIncluded k = true → g'.isIncluded k = true
  refl g := ⟨.refl g, id⟩
  trans h h' := ⟨h.1.trans h'.1, fun hk => h'.2 (h.2 hk)⟩

section

variable {frame : Places}

theorem closed_same (hg : (closed frame).holds g) (h : SameMarks g g') (hg' : Linkable g') :
    (closed frame).holds g' ∧ (closed frame).allows g g' :=
  ⟨⟨⟨hg.1.1.evolves h.toEvolves hg', h.frame.trans hg.1.2⟩, hg.2.1.same h hg', h.namesIn hg.2.2⟩,
    h.toEvolves, fun {k} hk => (h.marks k).trans hk⟩

theorem Closing.markNode (hg : Closing none [] g) (hn : Held g.node? n)
    (hready : ∀ p, g.parent? n.id = some p → g.isIncluded p = true) :
    Closing none [] (g.markNode n.id) where
  sound := hg.sound.markNode n.id
  parent := fun {k p} hk hp => by
    rw [parent?_markNode] at hp
    refine (isIncluded_markNode hn).mpr (.inr ?_)
    rcases (isIncluded_markNode hn).mp hk with rfl | hk
    · exact hready p hp
    · exact hg.parent hk hp
  declaration := fun hw hincluded hd =>
    (Includes.markNode g n.id).included (hg.declaration hw hincluded hd)
  namespaces := hg.namespaces
  members := fun hmod hflag =>
    (hg.members hmod hflag).imp id (Includes.markNode g n.id).exportsIn

theorem Graph.Sound.namedVar?_none (hg : g.Sound) (hn : Held g.node? n)
    (h : n.isName = true → g.namedVar? n = none) : g.namedVar? n = none := by
  by_cases hname : n.isName = true
  · exact h hname
  have hnothing : g.resolution n.id = .nothing := by
    by_contra hne
    have haccess := (hg.named.whole hn hne).1
    cases n with
    | expr e => cases e <;> first | exact hname rfl | cases haccess
    | _ => cases haccess
  cases n with
  | binder b => exact absurd rfl hname
  | _ => simp [namedVar?, hnothing]

theorem Graph.Sound.namedVar?_lt (hg : g.Sound) (hn : Held g.node? n) (hv : g.namedVar? n = some v) :
    v < g.symbols.vars.size := by
  have hbound : ∀ {k}, g.resolution k = .bound v → v < g.symbols.vars.size :=
    fun h => hg.named.resolved h
  cases n with
  | binder b => exact hg.named.bound hn hv
  | _ =>
    simp only [namedVar?] at hv
    split at hv
    · cases hv
      exact hbound ‹_›
    · cases hv

theorem closed_marks : Marks (closed frame) (tableOf frame) fun n g =>
    ∀ p, g.parent? n.id = some p → g.isIncluded p = true where
  named := fun hg hg' => namedVar?_congr (resolution_of_frame (hg'.1.2.trans hg.1.2.symm))
  lasts := fun hready _ h p hp => h.2 (hready p (h.1.parent? ▸ hp))
  node := fun {n g} hn hg hready hname => by
    have hheld : Held g.node? n := held_node? hg.1 hn
    have hmark := Includes.markNode g n.id
    have hclosing := hg.2.1.markNode hheld hready
    refine ⟨⟨⟨hclosing.sound, hmark.frame.trans hg.1.2⟩, hclosing, ?_⟩,
      ⟨hmark.toEvolves, hmark.included⟩, fun m hm p hp => ?_⟩
    · intro k m v hm hk hv
      rw [hmark.node?] at hm
      rw [hmark.namedVar?] at hv
      rcases (isIncluded_markNode hheld).mp hk with rfl | hk
      · cases hheld.symm.trans hm
        rw [hg.1.1.namedVar?_none hheld hname] at hv
        cases hv
      · exact hmark.isVarIncluded (hg.2.2 hm hk hv)
    · rw [parent?_markNode, hg.1.1.placed.child_parent hheld hm] at hp
      cases hp
      exact (isIncluded_markNode hheld).mpr (.inl rfl)
  name := fun {n g v} hn hg hready _ hv => by
    have hheld : Held g.node? n := held_node? hg.1 hn
    have hmark := Includes.markNode g n.id
    have hclosing := hg.2.1.markNode hheld hready
    obtain ⟨hspreads, hclosing', hvar⟩ := hclosing.includeVariable v
    have hincludes := hmark.trans hspreads.toIncludes
    refine ⟨⟨⟨hclosing'.sound, hincludes.frame.trans hg.1.2⟩, hclosing', ?_⟩,
      ⟨hincludes.toEvolves, hincludes.included⟩⟩
    intro k m u hm hk hu
    rw [hincludes.node?] at hm
    rw [hincludes.namedVar?] at hu
    rcases hspreads.named (hmark.node? ▸ hm) hk (hmark.namedVar? ▸ hu) with hk | h
    · -- The name itself stands for the variable that was included.
      rcases (isIncluded_markNode hheld).mp hk with rfl | hk
      · cases hheld.symm.trans hm
        cases hv.symm.trans hu
        exact hvar (hg.1.1.namedVar?_lt hheld hv)
      · exact hincludes.isVarIncluded (hg.2.2 hm hk hu)
    · exact h

theorem closed_includeVariable (hg : (closed frame).holds g) (v : VarId) :
    (closed frame).holds (g.includeVariable v) ∧
      (closed frame).allows g (g.includeVariable v) := by
  obtain ⟨hspreads, hclosing, -⟩ := hg.2.1.includeVariable v
  refine ⟨⟨⟨hclosing.sound, hspreads.frame.trans hg.1.2⟩, hclosing, ?_⟩,
    hspreads.toEvolves, hspreads.included⟩
  intro k n u hn hk hu
  rw [hspreads.node?] at hn
  rw [hspreads.namedVar?] at hu
  rcases hspreads.named hn hk hu with hk | h
  · exact hspreads.isVarIncluded (hg.2.2 hn hk hu)
  · exact h

theorem closed_passes : Passes (closed frame) (tableOf frame) fun n g =>
    ∀ p, g.parent? n.id = some p → g.isIncluded p = true where
  program := fun {g m mod} hg hmod => by
    refine ⟨?_, fun p hp => ?_⟩
    · rw [← hg.1.2, tableOf_frame]
      exact hg.1.1.placed.held_program hmod
    · obtain ⟨r, hr, -, hnone⟩ := hg.1.1.placed.program hmod
      obtain ⟨r', hr', hp⟩ := Option.bind_eq_some_iff.mp hp
      cases hr.symm.trans hr'
      rw [hnone] at hp
      cases hp
  entryExports := fun m => by
    refine keeps (P := fun _ _ => True) fun g hg => ?_
    obtain ⟨hl, hg', -⟩ := entryExports_links m g hg.1.1.linkable
    obtain ⟨h1, h2⟩ := closed_same hg (Drifts.linked hl).sameMarks hg'
    exact ⟨h2, h1, trivial⟩
  includeVariable := fun v => by
    refine keeps (P := fun _ _ => True) fun g hg => ?_
    obtain ⟨h1, h2⟩ := closed_includeVariable hg v
    exact ⟨h2, h1, trivial⟩
  clear := fun g => From.modify fun hg =>
    closed_same hg ⟨{ Evolves.refl g with }, fun _ => rfl, fun _ => rfl, fun h h' => by
      cases h.symm.trans h'; rfl⟩ (hg.1.1.linkable.congr rfl rfl rfl rfl)
  note := fun g text attrs => From.modify fun hg =>
    closed_same hg ⟨{ Evolves.refl g with }, fun _ => rfl, fun _ => rfl, fun h h' => by
      cases h.symm.trans h'; rfl⟩ (hg.1.1.linkable.congr rfl rfl rfl rfl)

theorem Drifts.closing (h : Drifts g g') (hg' : (drifting frame).holds g')
    (hg : Closing none [] g ∧ g.NamesIn) : Closing none [] g' ∧ g'.NamesIn :=
  ⟨hg.1.same h.sameMarks hg'.1.linkable, h.sameMarks.namesIn hg.2⟩

theorem Drifts.closed (h : Drifts g g') : (closed frame).allows g g' :=
  ⟨h.toEvolves, fun {k} hk => (h.sameMarks.marks k).trans hk⟩

end

/-- Inclusion is closed: with a node the one around it is included, with a variable its
declarations, with a name the variable it stands for, and with a namespace its members and the
namespaces merged into it. -/
structure Graph.Closed (g : Graph) : Prop where
  parent : ∀ {k p}, g.isIncluded k = true → g.parent? k = some p → g.isIncluded p = true
  declaration : ∀ {v w d}, g.var? v = some w → w.included = true → d ∈ w.declarations →
    g.isIncluded d = true
  named : ∀ {k n v}, g.node? k = some n → g.isIncluded k = true → g.namedVar? n = some v →
    g.isVarIncluded v = true
  members : ∀ {v w merged}, g.var? v = some w → w.included = true →
    w.form = .moduleNamespace merged →
    ∃ m, w.module = some m ∧ (∀ p ∈ ((namespaceMembers m).run g).1, g.isVarIncluded p.2 = true) ∧
      ∀ u ∈ merged, g.isVarIncluded u = true

theorem Graph.ExportsIn.member (h : g.ExportsIn m) :
    ∀ p ∈ ((namespaceMembers m).run g).1, g.isVarIncluded p.2 = true := by
  have hin : ∀ name ∈ g.memberNames m, g.ExportIn m name := by
    intro name hname
    rw [memberNames, List.mem_eraseDups, List.mem_filter, List.mem_append] at hname
    obtain ⟨hname | hname, hnone⟩ := hname
    · cases hmod : g.module? m with
      | none => rw [hmod] at hname; cases hname
      | some mod => exact h.own hmod name (by rwa [hmod] at hname)
    · have hstar := h.star name hname
      rwa [Graph.StarIn, Option.isNone_iff_eq_none.mp hnone] at hstar
  rw [namespaceMembers_again fun name hname => (hin name hname).imp fun _ h => h.1]
  intro p hp
  obtain ⟨name, hname, hfound⟩ := List.mem_filterMap.mp hp
  obtain ⟨found, htraced, hv⟩ := hin name hname
  rw [htraced] at hfound
  obtain ⟨v, rfl, rfl⟩ := Option.map_eq_some_iff.mp hfound
  exact hv v rfl

theorem Closing.closed (hg : Closing none [] g) (hnames : g.NamesIn) : g.Closed where
  parent := hg.parent
  declaration := hg.declaration
  named := hnames
  members := fun {v w merged} hw hincluded hform => by
    obtain ⟨m, hm, hmerged⟩ := hg.sound.linkable.namespaces hw hform
    have hin : g.ExportsIn m := by
      cases hmod : g.module? m with
      | none =>
        refine ⟨fun h => (by cases hmod.symm.trans h), ?_⟩
        simp [starNames, starNamesFrom, hmod]
      | some mod =>
        have hflag := (hg.namespaces hw hincluded (by rw [isNamespace, hform]) hm
          hmod).resolve_left fun h => by cases h
        exact (hg.members hmod hflag).resolve_left fun h => by cases h
    refine ⟨m, hm, hin.member, fun u hu => ?_⟩
    obtain ⟨source, hsource, hlookup⟩ := hmerged u hu
    obtain ⟨u', hu', hincluded'⟩ := hin.star _ hsource
    cases hlookup.symm.trans hu'
    exact hincluded'

theorem Graph.Built.closing (hg : g.Built) : Closing none [] g ∧ g.NamesIn := by
  have hnode : ∀ k, g.isIncluded k = false := fun k => by
    rw [isIncluded, Graph.facts]
    cases hr : g.record? k with
    | none => rfl
    | some r => rw [Option.map_some, hg.facts hr]; rfl
  have hvar : ∀ {v w}, g.var? v = some w → w.included ≠ true := fun hw => by
    rw [(hg.vars hw).included]
    exact Bool.false_ne_true
  refine ⟨⟨hg.sound, fun hk => ?_, fun hw hin => absurd hin (hvar hw),
    fun hw hin => absurd hin (hvar hw), fun hmod hflag => ?_⟩, fun _ hk => ?_⟩
  · rw [hnode] at hk
    cases hk
  · rw [hg.modules hmod] at hflag
    cases hflag
  · rw [hnode] at hk
    cases hk

/-- **Inclusion is closed** at the end of every pass and when marking returns, whether unused code is
left out or not. -/
theorem inclusion_closed {files : Files} {entries : List Bytes} {o : BuildOptions} {g₀ g : Graph}
    {depth : Nat} (hbuilt : g₀.BuiltFrom files entries o)
    (hreached : Marking.Reached depth g₀ g) : g.Closed := by
  have h0 := hbuilt.built
  have hc : Covers (tableOf g₀.frame) := by
    rw [tableOf_frame]
    exact h0.placed.covers
  have hanswers := drifting_answers hc depth
  obtain ⟨hg, -⟩ := hreached.keeps (c := closed g₀.frame) hc closed_marks closed_passes
    ((((stage_drifts hc hanswers).serves (drifting_rules hc)).having
      fun g g' hg hg' h => Drifts.closing h hg' hg).imp rfl Drifts.closed)
    (fun v => Keeps.imp (fun g => ((hanswers.forget _ _ trivial) g).having
      fun g' hg hg' h => Drifts.closing h hg' hg) rfl Drifts.closed)
    ⟨⟨h0.sound, rfl⟩, h0.closing⟩
  exact hg.2.1.closed hg.2.2

/-- A namespace that is passed on as a value, with a member and a namespace merged into it. -/
def passedNamespace : Files :=
  [(utf8 "m", utf8 "import * as n from './n'; f(n);"),
    (utf8 "n", utf8 "export var a; export * from 'e';")]

set_option maxRecDepth 100000 in
/-- The namespace is included in the first pass, and the theorem holds of the graph behind it. -/
theorem inclusion_closed_namespace :
    ∃ g₀ g w u, g₀.BuiltFrom passedNamespace [utf8 "m"] {} ∧ Marking.Reached 20 g₀ g ∧
      g.var? 2 = some w ∧ w.included = true ∧ w.form = .moduleNamespace [u] ∧ g.Closed := by
  have hbuilt := Graph.builtFrom_ofFiles passedNamespace [utf8 "m"] {} (by decide +kernel)
  have hreached : Marking.Reached 20 (.ofFiles passedNamespace [utf8 "m"] {}) _ :=
    .afterPasses 1 (by decide +kernel) (by decide +kernel)
  have hvar : ((Marking.afterPasses 20 (.ofFiles passedNamespace [utf8 "m"] {}) 1).var? 2).map
      (fun w => (w.included, w.form)) = some (true, .moduleNamespace [3]) := by
    decide +kernel
  obtain ⟨w, hw, heq⟩ := Option.map_eq_some_iff.mp hvar
  obtain ⟨hincluded, hform⟩ := Prod.mk.inj heq
  exact ⟨_, _, w, 3, hbuilt, hreached, hw, hincluded, hform, inclusion_closed hbuilt hreached⟩

end Winnow
