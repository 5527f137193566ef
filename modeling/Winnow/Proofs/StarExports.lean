import Winnow.Proofs.Tracing

/-!
# Names reached through `export *`

The names of a namespace are collected by a walk that looks at no module twice. A search for one
name follows the same edges, but forgets where it has been as soon as it turns back. Both come to
the same names (`mem_memberNames`), so whoever asks for an export, or for the members of a
namespace, settles what the member under that name is (`traceExport_settles`,
`namespaceMembers_settles`).
-/

namespace Winnow

open Winnow.Graph Conduct Relation List

variable {seen visited : List ModuleId} {name : Bytes} {g : Graph} {m : ModuleId}

/-! ## Walks along `export *` -/

namespace Graph

variable {g : Graph}

def unseen (g : Graph) (visited : List ModuleId) : List ModuleId :=
  (List.range g.modules.size).filter fun m => !visited.contains m

theorem unseen_length_le {visited' : List ModuleId} (h : visited ⊆ visited') :
    (g.unseen visited').length ≤ (g.unseen visited).length := by
  refine (monotone_filter_right _ fun m hm => ?_).length_le
  simp only [Bool.not_eq_true', contains_eq_mem, decide_eq_false_iff_not] at hm ⊢
  exact fun hin => hm (h hin)

theorem unseen_cons_lt (hm : (g.module? m).isSome = true) (hnew : m ∉ visited) :
    (g.unseen (m :: visited)).length < (g.unseen visited).length := by
  have hlt : m < g.modules.size := by
    obtain ⟨mod, hmod⟩ := Option.isSome_iff_exists.mp hm
    exact (Array.getElem?_eq_some_iff.mp hmod).1
  have hsub : g.unseen (m :: visited) ⊆ (g.unseen visited).erase m := by
    intro k hk
    obtain ⟨hrange, hk⟩ := mem_filter.mp hk
    simp only [Bool.not_eq_true', contains_eq_mem, decide_eq_false_iff_not, mem_cons,
      not_or] at hk
    refine (mem_erase_of_ne hk.1).mpr (mem_filter.mpr ⟨hrange, ?_⟩)
    simpa using hk.2
  have hmem : m ∈ g.unseen visited :=
    mem_filter.mpr ⟨mem_range.mpr hlt, by simpa using hnew⟩
  have hnodup : (g.unseen (m :: visited)).Nodup := nodup_range.filter _
  calc (g.unseen (m :: visited)).length
      ≤ ((g.unseen visited).erase m).length := (subperm_of_subset hnodup hsub).length_le
    _ < (g.unseen visited).length := by
      rw [length_erase_of_mem hmem]
      exact Nat.sub_one_lt (Nat.ne_of_gt (length_pos_of_mem hmem))

/-- Names and modules that were collected since a walk had come to some modules. Every module that
was met since then is done with: its names are collected, and so are the modules it exports
everything of. -/
structure StarsFrom (g : Graph) (seen : List ModuleId) (names : List Bytes)
    (seen' : List ModuleId) : Prop where
  grows : seen ⊆ seen'
  closed : ∀ a ∈ seen', a ∉ seen → ∀ t, g.StarEdge a t → (g.module? t).isSome = true → t ∈ seen'
  names : ∀ a ∈ seen', a ∉ seen → ∀ mod, g.module? a = some mod →
    ∀ name ∈ mod.exportNames, name ≠ utf8 "default" → name ∈ names

theorem StarsFrom.refl (seen : List ModuleId) : StarsFrom g seen [] seen :=
  ⟨fun _ => id, fun _ h hnew => absurd h hnew, fun _ h hnew => absurd h hnew⟩

theorem StarsFrom.trans {a b c : List ModuleId} {names more : List Bytes}
    (h : StarsFrom g a names b) (h' : StarsFrom g b more c) : StarsFrom g a (names ++ more) c where
  grows := fun _ hm => h'.grows (h.grows hm)
  closed := fun m hm hnew t hedge ht => by
    by_cases hb : m ∈ b
    · exact h'.grows (h.closed m hb hnew t hedge ht)
    · exact h'.closed m hm hb t hedge ht
  names := fun m hm hnew mod hmod name hname hdefault => by
    by_cases hb : m ∈ b
    · exact mem_append_left _ (h.names m hb hnew mod hmod name hname hdefault)
    · exact mem_append_right _ (h'.names m hm hb mod hmod name hname hdefault)

/-- A walk from a module leaves out the names of that module itself. -/
structure StarWalk (g : Graph) (visited : List ModuleId) (m : ModuleId)
    (r : List Bytes × List ModuleId) : Prop where
  start : m ∈ r.2
  stars : ∀ mod, g.module? m = some mod → StarsFrom g visited (mod.exportNames ++ r.1) r.2

def starStep (g : Graph) (n : Nat) (mod : Module) (acc : List Bytes × List ModuleId)
    (source : Bytes) : List Bytes × List ModuleId :=
  match mod.target? source with
  | none => (acc.1 ++ [starName source], acc.2)
  | some t =>
    if acc.2.contains t then acc
    else
      (acc.1 ++ (((g.module? t).map Module.exportNames).getD []).filter (· ≠ utf8 "default") ++
        (starNamesFrom g n acc.2 t).1, (starNamesFrom g n acc.2 t).2)

theorem starNamesFrom_succ (n : Nat) (visited : List ModuleId) {mod : Module}
    (hmod : g.module? m = some mod) : g.starNamesFrom (n + 1) visited m =
      (((mod.starSources.foldl (g.starStep n mod) ([], m :: visited)).1.filter fun name =>
        !mod.exportNames.contains name).eraseDups,
      (mod.starSources.foldl (g.starStep n mod) ([], m :: visited)).2) := by
  simp only [starNamesFrom, hmod]
  rfl

/-- Walks with a number of steps come to everything from where at most that many modules are
unseen. -/
def WalksStars (g : Graph) (n : Nat) : Prop :=
  ∀ visited m, m ∉ visited → (g.module? m).isSome = true → (g.unseen visited).length ≤ n →
    g.StarWalk visited m (g.starNamesFrom n visited m)

theorem starNamesFrom_none (h : g.module? m = none) (n : Nat) (visited : List ModuleId) :
    g.starNamesFrom n visited m = ([], visited) := by
  cases n with
  | zero => rfl
  | succ n => simp [starNamesFrom, h]

theorem starStep_stars {n : Nat} (hn : g.WalksStars n) (mod : Module)
    (hseen : (g.unseen seen).length ≤ n) {acc : List Bytes × List ModuleId}
    (hacc : StarsFrom g seen acc.1 acc.2) (source : Bytes) :
    StarsFrom g seen (g.starStep n mod acc source).1 (g.starStep n mod acc source).2 ∧
      acc.2 ⊆ (g.starStep n mod acc source).2 ∧
      ∀ t, mod.target? source = some t → (g.module? t).isSome = true →
        t ∈ (g.starStep n mod acc source).2 := by
  unfold starStep
  cases htarget : mod.target? source with
  | none =>
    refine ⟨⟨hacc.grows, hacc.closed, fun a ha hnew mod hmod name hname hdefault => ?_⟩,
      fun _ => id, nofun⟩
    exact mem_append_left _ (hacc.names a ha hnew mod hmod name hname hdefault)
  | some t =>
    dsimp only
    split
    · rename_i hin
      refine ⟨hacc, fun _ => id, fun t' ht' _ => ?_⟩
      cases ht'
      simpa using hin
    · rename_i hin
      have hnew : t ∉ acc.2 := by simpa using hin
      cases hmod : g.module? t with
      | none =>
        rw [starNamesFrom_none hmod]
        refine ⟨⟨hacc.grows, hacc.closed, fun a ha hnew mod hmod name hname hdefault => ?_⟩,
          fun _ => id, fun t' ht' hsome => ?_⟩
        · simpa using hacc.names a ha hnew mod hmod name hname hdefault
        · cases ht'
          rw [hmod] at hsome
          cases hsome
      | some modt =>
        have hwalk := hn acc.2 t hnew (by rw [hmod]; rfl)
          (Nat.le_trans (unseen_length_le hacc.grows) hseen)
        have hstars := hacc.trans (hwalk.stars modt hmod)
        refine ⟨⟨hstars.grows, hstars.closed, fun a ha hnew mod hmod name hname hdefault => ?_⟩,
          (hwalk.stars modt hmod).grows, fun t' ht' _ => ?_⟩
        · have hmem := hstars.names a ha hnew mod hmod name hname hdefault
          simp only [mem_append, mem_filter,
            decide_eq_true_eq] at hmem ⊢
          rcases hmem with h | h | h
          · exact .inl (.inl h)
          · exact .inl (.inr ⟨h, hdefault⟩)
          · exact .inr h
        · cases ht'
          exact hwalk.start

theorem starSteps_stars {n : Nat} (hn : g.WalksStars n) (mod : Module)
    (hseen : (g.unseen seen).length ≤ n) (sources : List Bytes) :
    ∀ acc : List Bytes × List ModuleId, StarsFrom g seen acc.1 acc.2 →
      let r := sources.foldl (g.starStep n mod) acc
      StarsFrom g seen r.1 r.2 ∧ acc.2 ⊆ r.2 ∧
        ∀ source ∈ sources, ∀ t, mod.target? source = some t → (g.module? t).isSome = true →
          t ∈ r.2 := by
  induction sources with
  | nil => exact fun _ hacc => ⟨hacc, fun _ => id, by simp⟩
  | cons source sources ih =>
    intro acc hacc
    obtain ⟨hstep, hgrows, hmet⟩ := starStep_stars hn mod hseen hacc source
    obtain ⟨hstars, hgrows', hmet'⟩ := ih _ hstep
    refine ⟨hstars, fun _ h => hgrows' (hgrows h), forall_mem_cons.mpr ⟨?_, hmet'⟩⟩
    exact fun t ht hsome => hgrows' (hmet t ht hsome)

/-- Enough steps are enough. The steps count the unseen modules: every walk further down starts
with one less. -/
theorem walksStars : ∀ n, g.WalksStars n
  | 0, visited, m, hnew, hm, hle => absurd (unseen_cons_lt hm hnew) (by omega)
  | n + 1, visited, m, hnew, hm, hle => by
    obtain ⟨mod, hmod⟩ := Option.isSome_iff_exists.mp hm
    have hseen : (g.unseen (m :: visited)).length ≤ n := by
      have := unseen_cons_lt hm hnew
      omega
    obtain ⟨hstars, hgrows, hmet⟩ :=
      starSteps_stars (walksStars n) mod hseen mod.starSources ([], m :: visited)
        (.refl (m :: visited))
    rw [starNamesFrom_succ n visited hmod]
    refine ⟨hgrows mem_cons_self, fun mod' hmod' => ?_⟩
    cases hmod.symm.trans hmod'
    refine ⟨fun _ h => hgrows (mem_cons_of_mem m h), fun a ha hout t hedge ht => ?_,
      fun a ha hout moda hmoda name hname hdefault => ?_⟩
    · by_cases heq : a = m
      · subst heq
        obtain ⟨mod', hmod', source, hsource, htarget⟩ := hedge
        cases hmod.symm.trans hmod'
        exact hmet source hsource t htarget ht
      · exact hstars.closed a ha (by simp [heq, hout]) t hedge ht
    · by_cases heq : a = m
      · subst heq
        cases hmod.symm.trans hmoda
        exact mem_append_left _ hname
      · have hmem := hstars.names a ha (by simp [heq, hout]) moda hmoda name hname hdefault
        by_cases hown : name ∈ mod.exportNames
        · exact mem_append_left _ hown
        · refine mem_append_right _ (mem_eraseDups.mpr (mem_filter.mpr ⟨hmem, ?_⟩))
          simpa using hown

/-! ## What a module offers -/

theorem Offers.isSome (h : g.Offers m name) : (g.module? m).isSome = true := by
  obtain ⟨t, mod, hreach, hmod, -, -⟩ := h
  cases hreach using ReflTransGen.head_induction_on with
  | refl => rw [hmod]; rfl
  | head hedge _ =>
    obtain ⟨mod', hmod', -⟩ := hedge
    rw [hmod']; rfl

theorem mem_memberNames (h : g.Offers m name) (hname : starSource? name = none) :
    name ∈ g.memberNames m := by
  obtain ⟨modm, hmodm⟩ := Option.isSome_iff_exists.mp h.isSome
  obtain ⟨t, mod, hreach, hmod, hmem, hdefault⟩ := h
  have hwalk : g.StarWalk [] m (g.starNamesFrom (g.modules.size + 1) [] m) := by
    refine walksStars _ [] m (by simp) (by rw [hmodm]; rfl) ?_
    have := length_filter_le (fun m => !([] : List ModuleId).contains m)
      (range g.modules.size)
    rw [length_range] at this
    exact Nat.le_succ_of_le this
  have hstars := hwalk.stars modm hmodm
  -- Every module on the way was met.
  have hmet : t ∈ (g.starNamesFrom (g.modules.size + 1) [] m).2 := by
    have hsome : (g.module? t).isSome = true := by rw [hmod]; rfl
    clear hmem hdefault hmod
    induction hreach with
    | refl => exact hwalk.start
    | tail hreach hedge ih =>
      refine hstars.closed _ (ih ?_) (by simp) _ hedge hsome
      obtain ⟨mod', hmod', -⟩ := hedge
      rw [hmod']; rfl
  refine mem_eraseDups.mpr (mem_filter.mpr ⟨?_, by simp [hname]⟩)
  rw [hmodm]
  by_cases heq : t = m
  · subst heq
    cases hmodm.symm.trans hmod
    exact mem_append_left _ hmem
  · exact hstars.names t hmet (by simp) mod hmod name hmem fun h => heq (hdefault h)

end Graph

/-! ## Members and exports -/

theorem ne_star_of_starSource? (h : starSource? name = none) : name ≠ utf8 "*" := by
  rintro rfl
  cases h

theorem lookup_filterMap (f : Bytes → Option VarId) (names : List Bytes) (name : Bytes) :
    (names.filterMap fun k => (f k).map fun v => (k, v)).lookup name =
      if name ∈ names then f name else none := by
  induction names with
  | nil => rfl
  | cons k names ih =>
    by_cases heq : name = k
    · subst heq
      rw [if_pos mem_cons_self]
      cases hf : f name with
      | none =>
        rw [filterMap_cons_none (by rw [hf]; rfl), ih, hf]
        split <;> rfl
      | some v => rw [filterMap_cons_some (by rw [hf]; rfl), lookup_cons_self]
    · simp only [mem_cons, heq, false_or, ← ih]
      cases hf : f k with
      | none => rw [filterMap_cons_none (by rw [hf]; rfl)]
      | some v =>
        rw [filterMap_cons_some (by rw [hf]; rfl), lookup_cons, beq_false_of_ne heq]

theorem lookup_tracedMembers (hg : Linkable g) (m : ModuleId) (hname : starSource? name = none) :
    (g.tracedMembers m).lookup name = (g.traced? m name).join := by
  have hjoin : ∀ k, ((g.traced? m k).bind fun found => found.map fun v => (k, v)) =
      (g.traced? m k).join.map fun v => (k, v) := by
    intro k
    rcases g.traced? m k with _ | _ | v <;> rfl
  rw [Graph.tracedMembers, funext hjoin, lookup_filterMap (fun k => (g.traced? m k).join)]
  split
  · rfl
  · rename_i hout
    cases hv : (g.traced? m name).join with
    | none => rfl
    | some v =>
      obtain ⟨mod, hmod, hlookup⟩ := Option.bind_eq_some_iff.mp (Option.join_eq_some_iff.mp hv)
      obtain ⟨-, hstar | hoffers⟩ := hg.tracedExports hmod hlookup
      · exact absurd hstar (ne_star_of_starSource? hname)
      · exact absurd (mem_memberNames hoffers hname) hout

/-- From now on, the member of the namespace of a module under a name is what was found. -/
def Graph.Settles (g : Graph) (m : ModuleId) (name : Bytes) (found : Option VarId) : Prop :=
  ∀ g', Linked g g' → Linkable g' → (g'.tracedMembers m).lookup name = found

theorem Graph.Settles.eq {g1 g2 : Graph} {found1 found2 : Option VarId}
    (h1 : g1.Settles m name found1) (h2 : g2.Settles m name found2) (hl : Linked g1 g2)
    (hg2 : Linkable g2) : found1 = found2 :=
  (h1 g2 hl hg2).symm.trans (h2 g2 (.refl g2) hg2)

theorem Graph.settles_of_traced {found : Option VarId} (hname : starSource? name = none)
    (h : g.traced? m name = some found) : g.Settles m name found := by
  intro g' hl hg'
  rw [lookup_tracedMembers hg' m hname, hl.traced? h, Option.join_some]

theorem traceExport_settles (hg : Linkable g) (m : ModuleId) (hname : starSource? name = none) :
    ((traceExport m name).run g).2.Settles m name ((traceExport m name).run g).1 := by
  obtain ⟨hl, -, hfound, hwritten, -⟩ := (searches g.traceSteps).traceExportIn m name g hg
  generalize hr : (traceExport m name).run g = r at *
  change (traceExportIn g.traceSteps m name).run g = r at hr
  rw [hr] at hfound hwritten
  cases hmod : r.2.module? m with
  | some mod =>
    exact settles_of_traced hname
      (Option.bind_eq_some_iff.mpr ⟨mod, hmod, hwritten (traceSteps_pos g) mod hmod⟩)
  | none =>
    intro g' hl' hg'
    have hmod' : g'.module? m = none := by
      have hplain := hl'.module?_plain m
      rw [hmod] at hplain
      exact Option.map_eq_none_iff.mp hplain
    rw [lookup_tracedMembers hg' m hname, Graph.traced?, hmod']
    cases hv : r.1 with
    | none => rfl
    | some v =>
      obtain ⟨-, hstar | hoffers⟩ := hfound v hv
      · exact absurd hstar (ne_star_of_starSource? hname)
      · have hsome := hoffers.isSome
        rw [hmod] at hsome
        cases hsome

theorem namespaceMembers_settles (hg : Linkable g) (m : ModuleId) (name : Bytes) :
    ((namespaceMembers m).run g).2.Settles m name (((namespaceMembers m).run g).1.lookup name) := by
  obtain ⟨-, -, hmembers, htraced, -⟩ := namespaceMembers_links m g hg
  intro g' hl hg'
  rw [hmembers, hl.tracedMembers htraced]

end Winnow
