import Mathlib.Data.Finset.Card
import Mathlib.Data.Nat.Find
import Winnow.Naming
import Winnow.Proofs.Tracing

/-!
# Giving out names

A name that is given out is not taken, and it is the variable's own name or has the least number
that is free behind it (`unique_free`). Whatever gives out names changes nothing but the names of
some variables, and counts those that get another one (`Renames`). This is how the claims at the top
are described (`claims_renames`, `claims_free`), and the renaming in the scopes inside modules
(`renameModules_renames`).
-/

namespace Winnow

open Winnow.Graph List

variable {g : Graph} {v : VarId} {w : Variable}

namespace Naming

/-! ## Free names -/

theorem ofNat_injective : Function.Injective Bytes.ofNat := by
  have hchar : ∀ n, (Bytes.ofNat n).map (fun b => Char.ofNat b.toNat) = Nat.toDigits 10 n := by
    intro n
    rw [Bytes.ofNat, map_map]
    refine (map_congr_left fun c hc => ?_).trans (map_id _)
    have hdigit := Nat.isDigit_of_mem_toDigits (by decide) (by decide) hc
    have hlt : c.toNat < 256 := by
      have hle : c.val ≤ 57 := of_decide_eq_true (Bool.and_eq_true_iff.mp hdigit).2
      exact Nat.lt_of_le_of_lt (UInt32.le_iff_toNat_le.mp hle) (by decide)
    show Char.ofNat (UInt8.ofNat c.toNat).toNat = c
    rw [UInt8.toNat_ofNat', Nat.mod_eq_of_lt hlt, Char.ofNat_toNat]
  intro i j hij
  have hdigits : Nat.toDigits 10 i = Nat.toDigits 10 j := by rw [← hchar, hij, hchar]
  rw [← Nat.ofDigitChars_ten_toDigits (n := i), hdigits, Nat.ofDigitChars_ten_toDigits]

theorem numbered_injective (base : Bytes) : Function.Injective (numbered base) := by
  intro i j hij
  exact ofNat_injective (cons.inj (append_cancel_left hij)).2

/-- A name is free: it is the variable's own, or that is taken and a number stands behind it, all
smaller ones being taken too. -/
structure Free (taken : List Bytes) (base name : Bytes) : Prop where
  notMem : name ∉ taken
  least : name = base ∨ base ∈ taken ∧ ∃ k, 1 ≤ k ∧ name = numbered base k ∧
    ∀ j, 1 ≤ j → j < k → numbered base j ∈ taken

theorem Free.congr {taken taken' : List Bytes} {base name : Bytes} (h : Free taken base name)
    (hsame : ∀ x, x ∈ taken' ↔ x ∈ taken) : Free taken' base name := by
  refine ⟨fun hmem => h.notMem ((hsame _).mp hmem), h.least.imp_right ?_⟩
  rintro ⟨hbase, k, hk, hname, hbelow⟩
  exact ⟨(hsame _).mpr hbase, k, hk, hname, fun j hj hjk => (hsame _).mpr (hbelow j hj hjk)⟩

theorem firstFree_eq {taken : List Bytes} {base : Bytes} {k : Nat}
    (hfree : numbered base k ∉ taken) : ∀ {tries i : Nat}, i ≤ k → k ≤ i + tries →
    (∀ j, i ≤ j → j < k → numbered base j ∈ taken) →
    firstFree taken base tries i = numbered base k := by
  intro tries
  induction tries with
  | zero =>
    intro i hi hk _
    rw [firstFree, Nat.le_antisymm hi hk]
  | succ n ih =>
    intro i hi hk hbelow
    rw [firstFree, contains_eq_mem]
    rcases Nat.lt_or_eq_of_le hi with hlt | rfl
    · rw [if_pos (decide_eq_true (hbelow i (Nat.le_refl i) hlt))]
      exact ih hlt (by omega) fun j hj hjk => hbelow j (by omega) hjk
    · rw [if_neg (fun h => hfree (of_decide_eq_true h))]

theorem exists_free (taken : List Bytes) (base : Bytes) :
    ∃ k ≤ taken.length, numbered base (k + 1) ∉ taken := by
  by_contra hnone
  have hnodup : ((range (taken.length + 1)).map fun k => numbered base (k + 1)).Nodup :=
    nodup_range.map fun i j hij => Nat.succ.inj (numbered_injective base hij)
  have hsub : ((range (taken.length + 1)).map fun k => numbered base (k + 1)) ⊆ taken := by
    intro name hname
    obtain ⟨k, hk, rfl⟩ := mem_map.mp hname
    by_contra hfree
    exact hnone ⟨k, Nat.lt_succ_iff.mp (mem_range.mp hk), hfree⟩
  have hlength := (subperm_of_subset hnodup hsub).length_le
  rw [length_map, length_range] at hlength
  omega

theorem unique_free (taken : List Bytes) (base : Bytes) : Free taken base (unique taken base) := by
  rw [unique, contains_eq_mem]
  by_cases hbase : base ∈ taken
  · have hexists : ∃ k, numbered base (k + 1) ∉ taken :=
      (exists_free taken base).imp fun _ h => h.2
    have hfree := Nat.find_spec hexists
    have hbelow : ∀ j, 1 ≤ j → j < Nat.find hexists + 1 → numbered base j ∈ taken := by
      intro j hj hlt
      have hmin := Nat.find_min hexists (m := j - 1) (by omega)
      rwa [Nat.sub_add_cancel hj, not_not] at hmin
    have hbound : Nat.find hexists ≤ taken.length := by
      obtain ⟨k, hk, hk'⟩ := exists_free taken base
      exact (Nat.find_min' hexists hk').trans hk
    rw [if_pos (decide_eq_true hbase), firstFree_eq hfree (by omega) (by omega) hbelow]
    exact ⟨hfree, .inr ⟨hbase, _, by omega, rfl, hbelow⟩⟩
  · rw [if_neg (fun h => hbase (of_decide_eq_true h))]
    exact ⟨hbase, .inl rfl⟩

/-! ## Renaming -/

/-- The variables that have another name in the output. -/
def renamedVars (g : Graph) : Finset VarId :=
  (Finset.range g.symbols.vars.size).filter fun v =>
    (g.var? v).any fun w => decide (w.renderName ≠ w.name)

theorem mem_renamedVars : v ∈ renamedVars g ↔ ∃ w, g.var? v = some w ∧ w.renderName ≠ w.name := by
  rw [renamedVars, Finset.mem_filter, Finset.mem_range, Option.any_eq_true]
  simp only [decide_eq_true_eq]
  refine ⟨fun h => h.2, fun h => ⟨?_, h⟩⟩
  obtain ⟨w, hw, -⟩ := h
  exact lt_of_var? hw

end Naming

def Variable.nameless (w : Variable) : Variable := { w with outputName := none }

/-- A graph in which other names are given out, and what is written in the log about it. -/
structure Graph.Renaming (g g' : Graph) : Prop where
  rest : g' = { g with symbols := g'.symbols, log := g'.log }
  scopes : g'.symbols.scopes = g.symbols.scopes
  vars : ∀ v, (g'.var? v).map Variable.nameless = (g.var? v).map Variable.nameless

namespace Graph.Renaming

variable {g g' g'' : Graph}

theorem refl (g : Graph) : g.Renaming g := ⟨rfl, rfl, fun _ => rfl⟩

theorem trans (h : g.Renaming g') (h' : g'.Renaming g'') : g.Renaming g'' where
  rest := by rw [h'.rest, h.rest]
  scopes := h'.scopes.trans h.scopes
  vars := fun v => (h'.vars v).trans (h.vars v)

theorem symm (h : g.Renaming g') : g'.Renaming g where
  rest := by rw [h.rest]
  scopes := h.scopes.symm
  vars := fun v => (h.vars v).symm

theorem note (g : Graph) (text : String) (attrs : List Log.Attr) : g.Renaming (g.note text attrs) :=
  ⟨rfl, rfl, fun _ => rfl⟩

theorem module? (h : g.Renaming g') (m : ModuleId) : g'.module? m = g.module? m := by
  rw [h.rest]
  rfl

theorem scope? (h : g.Renaming g') : g'.symbols.scope? = g.symbols.scope? := by
  funext s
  simp [Symbols.scope?, h.scopes]

theorem namesOf (h : g.Renaming g') : g'.symbols.namesOf = g.symbols.namesOf := by
  funext s
  simp [Symbols.namesOf, h.scope?]

theorem var_cases (h : g.Renaming g') {w' : Variable} (hw' : g'.var? v = some w') :
    ∃ w, g.var? v = some w ∧ w' = { w with outputName := w'.outputName } := by
  have hsame := h.vars v
  rw [hw'] at hsame
  obtain ⟨w, hw, hsame⟩ := Option.map_eq_some_iff.mp hsame.symm
  exact ⟨w, hw, congrArg (fun x => { x with outputName := w'.outputName }) hsame.symm⟩

theorem modifyVar (g : Graph) (v : VarId) (name : Bytes) :
    g.Renaming (g.modifyVar v fun w => { w with outputName := some name }) := by
  refine ⟨rfl, rfl, fun u => ?_⟩
  rw [var?_modifyVar]
  split
  · rw [Option.map_map]
    rfl
  · rfl

end Graph.Renaming

namespace Naming

def Nameable (g : Graph) (v : VarId) : Prop := ∃ w, g.var? v = some w ∧ isNameable w = true

/-- Names are given out to some variables of a set. If none of them had one, the count of those with
another name stays right. -/
structure Renames (S : VarId → Prop) (c c' : Claims) : Prop where
  graph : c.graph.Renaming c'.graph
  kept : ∀ {v}, ¬ S v → c'.graph.var? v = c.graph.var? v
  counted : (∀ {v w}, S v → c.graph.var? v = some w → w.outputName = none) →
    c.renamed = (renamedVars c.graph).card → c'.renamed = (renamedVars c'.graph).card

namespace Renames

variable {S T : VarId → Prop} {c c' c'' : Claims}

theorem refl (S : VarId → Prop) (c : Claims) : Renames S c c := ⟨.refl _, fun _ => rfl, fun _ => id⟩

theorem mono (h : Renames S c c') (hsub : ∀ {v}, S v → T v) : Renames T c c' where
  graph := h.graph
  kept := fun hv => h.kept fun hs => hv (hsub hs)
  counted := fun hnone => h.counted fun hv => hnone (hsub hv)

theorem trans (h : Renames S c c') (h' : Renames T c' c'') (hdisjoint : ∀ {v}, S v → ¬ T v) :
    Renames (fun v => S v ∨ T v) c c'' where
  graph := h.graph.trans h'.graph
  kept := fun hv => (h'.kept fun ht => hv (.inr ht)).trans (h.kept fun hs => hv (.inl hs))
  counted := fun {hnone} hcount => by
    refine h'.counted (fun ht hw => ?_) (h.counted (fun hs => hnone (.inl hs)) hcount)
    rw [h.kept fun hs => hdisjoint hs ht] at hw
    exact hnone (.inr ht) hw

/-- Steps that give names to different variables, one after the other. `claims` finds the claims in
the state of the loop, and `I` is its invariant. -/
theorem foldl {σ α : Type} (claims : σ → Claims) (I : σ → Prop) {f : σ → α → σ}
    {S : α → VarId → Prop} : ∀ {xs : List α} {s : σ},
    (∀ x ∈ xs, ∀ s, I s → Renames (S x) (claims s) (claims (f s x)) ∧ I (f s x)) →
    xs.Pairwise (fun x y => ∀ {v}, S x v → ¬ S y v) → I s →
    Renames (fun v => ∃ x ∈ xs, S x v) (claims s) (claims (xs.foldl f s)) := by
  intro xs
  induction xs with
  | nil => exact fun _ _ _ => .refl _ _
  | cons x xs ih =>
    intro s hstep hdisjoint hs
    obtain ⟨hx, hxs⟩ := pairwise_cons.mp hdisjoint
    obtain ⟨hfirst, hs'⟩ := hstep x mem_cons_self s hs
    have hrest := ih (fun y hy => hstep y (mem_cons_of_mem x hy)) hxs hs'
    refine (hfirst.trans hrest ?_).mono ?_
    · rintro v hv ⟨y, hy, hv'⟩
      exact hx y hy hv hv'
    · rintro v (hv | ⟨y, hy, hv⟩)
      · exact ⟨x, mem_cons_self, hv⟩
      · exact ⟨y, mem_cons_of_mem x hy, hv⟩

end Renames

theorem card_renamedVars_modifyVar {name : Bytes} (hw : g.var? v = some w)
    (hnone : w.outputName = none) :
    (renamedVars (g.modifyVar v fun w => { w with outputName := some name })).card =
      if name = w.name then (renamedVars g).card else (renamedVars g).card + 1 := by
  have hold : v ∉ renamedVars g := by
    rw [mem_renamedVars]
    rintro ⟨w', hw', hne⟩
    cases hw.symm.trans hw'
    exact hne (by rw [Variable.renderName, hnone]; rfl)
  have hmem : ∀ u, u ∈ renamedVars (g.modifyVar v fun w => { w with outputName := some name }) ↔
      u = v ∧ name ≠ w.name ∨ u ∈ renamedVars g := by
    intro u
    rw [mem_renamedVars]
    by_cases hu : v = u
    · subst hu
      simp [hw, hold, Variable.renderName]
    · simp [hu, Ne.symm hu, mem_renamedVars]
  split
  · congr 1
    ext u
    simp_all
  · rw [← Finset.card_insert_of_notMem hold]
    congr 1
    ext u
    simp_all

theorem setName_renames {c c' : Claims} (hw : c.graph.var? v = some w) (name : Bytes)
    (hgraph : c'.graph = (c.setName v name).graph) (hcount : w.outputName = none →
      c'.renamed = if name = w.name then c.renamed else c.renamed + 1) :
    Renames (fun u => u = v) c c' where
  graph := by
    rw [hgraph]
    exact .modifyVar _ _ _
  kept := fun hu => by
    rw [hgraph, Claims.setName, var?_modifyVar, if_neg (Ne.symm hu)]
  counted := fun hnone hcard => by
    have hnone := hnone rfl hw
    rw [hcount hnone, hgraph, Claims.setName, card_renamedVars_modifyVar hw hnone, hcard]

/-! ## Claims -/

theorem claim_renames (c : Claims) (v : VarId) : Renames (fun u => u = v) c (c.claim v) := by
  unfold Claims.claim
  split
  · exact .refl _ _
  · rename_i w hw
    exact setName_renames hw (unique c.used w.name) rfl fun _ => rfl

theorem claims_renames {all : List VarId} (hnodup : all.Nodup) (c : Claims) :
    Renames (fun v => v ∈ all) c (all.foldl Claims.claim c) := by
  have hdisjoint : all.Pairwise fun u v => ∀ {x : VarId}, x = u → ¬ x = v :=
    hnodup.imp fun hne _ hu hv => hne (hu.symm.trans hv)
  refine Renames.mono (Renames.foldl id (fun _ => True)
    (fun v _ c _ => ⟨claim_renames c v, trivial⟩) hdisjoint trivial) ?_
  rintro v ⟨u, hu, rfl⟩
  exact hu

theorem outputName_eq (hw : g.var? v = some w) : outputName g v = w.renderName := by
  rw [outputName, hw]
  rfl

theorem claim_name {c : Claims} (hw : c.graph.var? v = some w) :
    outputName (c.claim v).graph v = unique c.used w.name ∧
      (c.claim v).used = unique c.used w.name :: c.used := by
  have hnamed : (c.claim v).graph.var? v =
      some { w with outputName := some (unique c.used w.name) } := by
    rw [Claims.claim, hw]
    show ((c.setName v (unique c.used w.name)).graph).var? v = _
    rw [Claims.setName, var?_modifyVar, if_pos rfl, hw]
    rfl
  refine ⟨?_, ?_⟩
  · rw [outputName_eq hnamed]
    rfl
  · rw [Claims.claim, hw]
    rfl

/-- Every variable in turn gets a free name, and the names given out before are taken. -/
theorem claims_free {all : List VarId} (hnodup : all.Nodup) : ∀ {c : Claims}
    {before after : List VarId} {v : VarId} {w : Variable},
    (∀ u ∈ all, (c.graph.var? u).isSome) → all = before ++ v :: after → c.graph.var? v = some w →
    Free (before.map (outputName (all.foldl Claims.claim c).graph) ++ c.used) w.name
      (outputName (all.foldl Claims.claim c).graph v) := by
  induction all with
  | nil =>
    intro c before after v w _ hsplit
    exact absurd hsplit.symm (by simp)
  | cons u all ih =>
    intro c before after v w hall hsplit hw
    obtain ⟨hu, hnodup⟩ := nodup_cons.mp hnodup
    obtain ⟨wu, hwu⟩ := Option.isSome_iff_exists.mp (hall u mem_cons_self)
    obtain ⟨hname, hused⟩ := claim_name hwu
    -- Later claims leave the name alone.
    have hlater : outputName ((u :: all).foldl Claims.claim c).graph u = unique c.used wu.name := by
      rw [foldl_cons, outputName, (claims_renames hnodup (c.claim u)).kept hu]
      exact hname
    cases before with
    | nil =>
      obtain ⟨rfl, -⟩ := cons.inj hsplit
      cases hw.symm.trans hwu
      rw [hlater]
      exact unique_free _ _
    | cons u' before =>
      obtain ⟨rfl, hrest⟩ := cons.inj hsplit
      have hv : v ∈ all := by simp [hrest]
      have hkept : ∀ {x}, x ∈ all → (c.claim u).graph.var? x = c.graph.var? x := fun hx =>
        (claim_renames c u).kept fun heq => hu (heq ▸ hx)
      have hfree := ih hnodup (fun x hx => by
        rw [hkept hx]
        exact hall x (mem_cons_of_mem u hx)) hrest ((hkept hv).trans hw)
      refine hfree.congr fun x => ?_
      rw [map_cons, hlater, hused]
      simp only [mem_append, mem_cons]
      tauto

/-! ## Nested scopes -/

theorem mem_scopesBelow {s t : ScopeId} : t ∈ scopesBelow g s ↔ s ∈ g.symbols.outerOf t := by
  rw [scopesBelow, mem_filter, Symbols.outerOf]
  cases hscope : g.symbols.scope? t with
  | none => simp
  | some scope =>
    have hlt : t < g.symbols.scopes.size := by
      obtain ⟨hlt, -⟩ := Array.getElem?_eq_some_iff.mp hscope
      exact hlt
    simp [hlt]

theorem renameIfHidden_renames {names avoid : List Bytes} (hnames : names ⊆ avoid) (v : VarId)
    (c : Claims) :
    Renames (fun u => u = v ∧ Nameable c.graph v) c (renameIfHidden names v c avoid).1 ∧
      names ⊆ (renameIfHidden names v c avoid).2 := by
  unfold renameIfHidden
  split
  · exact ⟨.refl _ _, hnames⟩
  · rename_i w hw
    split
    · rename_i hhidden
      obtain ⟨hnameable, hmem⟩ := Bool.and_eq_true_iff.mp hhidden
      refine ⟨Renames.mono ?_ fun hu => ⟨hu, w, hw, hnameable⟩,
        fun x hx => mem_cons_of_mem _ (hnames hx)⟩
      refine setName_renames hw (unique (c.used ++ avoid) w.name) rfl fun hnone => ?_
      -- The variable's own name is among those to avoid, so it gets another one.
      have hown : w.name ∈ avoid := by
        rw [Variable.renderName, hnone] at hmem
        exact hnames (contains_iff_mem.mp hmem)
      rw [if_neg]
      intro heq
      refine (unique_free (c.used ++ avoid) w.name).notMem ?_
      rw [heq]
      exact mem_append.mpr (.inr hown)
    · exact ⟨.refl _ _, hnames⟩

section

variable {g : Graph} {c : Claims}

theorem nameable_congr (hc : g.Renaming c.graph) (h : Nameable c.graph v) : Nameable g v := by
  obtain ⟨w', hw', hnameable⟩ := h
  obtain ⟨w, hw, hsame⟩ := hc.var_cases hw'
  refine ⟨w, hw, ?_⟩
  rw [hsame] at hnameable
  exact hnameable

theorem renameHidden_renames (hg : g.symbols.Scoped) (hc : g.Renaming c.graph) (s : ScopeId)
    (names : List Bytes) :
    Renames (fun v => g.symbols.Holds s v ∧ Nameable g v) c (renameHidden c s names) := by
  unfold renameHidden
  split
  · exact .refl _ _
  · have hentries : ((c.graph.symbols.scope? s).map Scope.names).getD [] = g.symbols.namesOf s :=
      congrFun hc.namesOf s
    simp only [hentries]
    have hperm := mergeSort_perm (g.symbols.namesOf s) fun a b => Bytes.le a.1 b.1
    have hdistinct : ((g.symbols.namesOf s).mergeSort fun a b => Bytes.le a.1 b.1).Pairwise
        fun a b => ∀ {v : VarId}, v = a.2 ∧ Nameable g a.2 → ¬ (v = b.2 ∧ Nameable g b.2) := by
      have hnodup := (hperm.map Prod.snd).nodup_iff.mpr (hg.distinct s)
      exact (pairwise_map.mp hnodup).imp fun hne _ ha hb => hne (ha.1.symm.trans hb.1)
    refine Renames.mono (Renames.foldl Prod.fst
      (fun p : Claims × List Bytes => g.Renaming p.1.graph ∧ names ⊆ p.2)
      (s := (c, boundNames c.graph s ++ names)) (fun e _ p hp => ?_) hdistinct
      ⟨hc, subset_append_right _ _⟩) ?_
    · obtain ⟨hrename, hsub⟩ := renameIfHidden_renames hp.2 e.2 p.1
      exact ⟨hrename.mono fun hv => ⟨hv.1, nameable_congr hp.1 hv.2⟩,
        hp.1.trans hrename.graph, hsub⟩
    · rintro v ⟨e, he, rfl, hnameable⟩
      exact ⟨mem_map_of_mem (hperm.mem_iff.mp he), hnameable⟩

def NestedIn (g : Graph) (m : ModuleId) (v : VarId) : Prop :=
  ∃ mod s, g.module? m = some mod ∧ mod.program.scope ∈ g.symbols.outerOf s ∧ g.symbols.Holds s v

theorem renameNested_renames (hg : g.symbols.Scoped) (hc : g.Renaming c.graph) (m : ModuleId) :
    Renames (fun v => NestedIn g m v ∧ Nameable g v) c (renameNested c m) := by
  unfold renameNested
  rw [hc.module?]
  split
  · exact .refl _ _
  · rename_i mod hmod
    have hbelow : scopesBelow c.graph mod.program.scope = scopesBelow g mod.program.scope := by
      simp [scopesBelow, hc.scope?, hc.scopes]
    simp only [hbelow]
    split
    · exact .refl _ _
    · have hdistinct : (scopesBelow g mod.program.scope).Pairwise fun s t => ∀ {v : VarId},
          g.symbols.Holds s v ∧ Nameable g v → ¬ (g.symbols.Holds t v ∧ Nameable g v) :=
        (nodup_range.filter _).imp fun hne _ hs ht => hne (hg.once hs.1 ht.1)
      refine Renames.mono (Renames.foldl id (fun c : Claims => g.Renaming c.graph)
        (fun s _ c' hc' => ?_) hdistinct hc) ?_
      · have hrename := renameHidden_renames hg hc' s
          (forbidden c.graph (mentions c.graph mod.program) s)
        exact ⟨hrename, hc'.trans hrename.graph⟩
      · rintro v ⟨s, hs, hv, hnameable⟩
        exact ⟨⟨mod, s, hmod, mem_scopesBelow.mp hs, hv⟩, hnameable⟩

theorem nestedIn_unique (hg : g.Arranged) {m n : ModuleId} (hm : NestedIn g m v)
    (hn : NestedIn g n v) : m = n := by
  obtain ⟨modm, s, hmodm, hsm, hv⟩ := hm
  obtain ⟨modn, t, hmodn, htn, hv'⟩ := hn
  cases hg.symbols.once hv hv'
  obtain ⟨hkindm, hownm⟩ := hg.programs hmodm
  obtain ⟨hkindn, hownn⟩ := hg.programs hmodn
  have hscope := hg.symbols.oneModule hsm htn
    (fun kind hkind => Option.some.inj (hkind.symm.trans hkindm))
    (fun kind hkind => Option.some.inj (hkind.symm.trans hkindn))
  rw [hscope, hownn] at hownm
  exact (Option.some.inj hownm).symm

theorem renameModules_renames (hg : g.Arranged) (hc : g.Renaming c.graph) {order : List ModuleId}
    (hnodup : order.Nodup) :
    Renames (fun v => ∃ m ∈ order, NestedIn g m v ∧ Nameable g v) c
      (order.foldl renameNested c) := by
  have hdistinct : order.Pairwise fun m n => ∀ {v : VarId},
      NestedIn g m v ∧ Nameable g v → ¬ (NestedIn g n v ∧ Nameable g v) :=
    hnodup.imp fun hne _ hm hn => hne (nestedIn_unique hg hm.1 hn.1)
  refine Renames.foldl id (fun c : Claims => g.Renaming c.graph) (fun m _ c' hc' => ?_) hdistinct hc
  have hrename := renameNested_renames hg.symbols hc' m
  exact ⟨hrename, hc'.trans hrename.graph⟩

end

end Naming

end Winnow
