import Mathlib.Data.List.Perm.Subperm
import Mathlib.Order.WellFounded
import Winnow.Proofs.Linking

/-!
# Searches

A search for an export or an import asks further questions on its way. `Graph.Leads` says which:
from a re-export to the module behind it, from a name that a module passes on to its import, and
from there to an export of the imported module. Every search links the graph and finds what was there
to find (`searches`, `traceExport_links`, `traceImport_links`), and an export that was traced once is
found the same way ever after (`namespaceMembers_again`).

Where the questions never go on forever (`Graph.TracingEnds`), `traceSteps` is more than a search
needs (`TracingEnds.enough_steps`), and imports agree with the exports that they name (`Pursues`). A
search that runs in circles is cut off at some depth, and an import need not be what its export turns
out to be.
-/

namespace Winnow

open Winnow.Graph Conduct Relation Winnow.Module List

variable {g g' : Graph} {active : List ModuleId} {mod : Module} {f : Module → Module} {m : ModuleId}

/-! ## Questions on the way -/

inductive Call where
  | exported (m : ModuleId) (name : Bytes)
  /-- For an export, past the modules that were gone through. -/
  | search (active : List ModuleId) (m : ModuleId) (name : Bytes)
  /-- For what an export of the module's own stands for. -/
  | own (m : ModuleId) (target : ExportTarget)
  | imported (m : ModuleId) (name : Bytes)

/-- A number of steps is enough to follow a question to its end. -/
def Enough (leads : Call → Call → Prop) : Nat → Call → Prop
  | 0, _ => False
  | n + 1, c => ∀ d, leads c d → Enough leads n d

namespace Graph

/-- The questions that follow from a question. -/
inductive Leads (g : Graph) : Call → Call → Prop
  | exported (m : ModuleId) (name : Bytes) : Leads g (.exported m name) (.search [] m name)
  | own {active m name mod e} : g.module? m = some mod → name ≠ utf8 "*" →
    mod.localExport? name = some e → Leads g (.search active m name) (.own m e.target)
  | reexport {active m name mod e t} : g.module? m = some mod → name ≠ utf8 "*" →
    mod.localExport? name = none → m ∉ active → mod.reexport? name = some e →
    mod.target? e.specifier = some t → e.localName ≠ utf8 "*" →
    Leads g (.search active m name) (.search (m :: active) t e.localName)
  | star {active m name mod source t} : g.module? m = some mod → name ≠ utf8 "*" →
    mod.localExport? name = none → m ∉ active → mod.reexport? name = none →
    name ≠ utf8 "default" → source ∈ mod.starSources → mod.target? source = some t →
    Leads g (.search active m name) (.search (m :: active) t name)
  | passed {m mod name} : g.module? m = some mod →
    g.symbols.lookupIn? mod.program.scope name = none →
    Leads g (.own m (.binding name)) (.imported m name)
  | imported {m mod x b t} : g.module? m = some mod → mod.imports.lookup x = some b →
    mod.target? b.specifier = some t → b.imported ≠ utf8 "*" →
    Leads g (.imported m x) (.exported t b.imported)

/-- No search goes on forever. -/
def TracingEnds (g : Graph) : Prop := WellFounded fun d c => g.Leads c d

variable {g g' : Graph}

/-- What follows from a question is written in the modules as they were read, and in their scopes. -/
theorem Leads.congr {c d : Call} (h : g.Leads c d)
    (hplain : ∀ m, (g'.module? m).map plain = (g.module? m).map plain)
    (hscopes : ∀ {m mod name}, g.module? m = some mod →
      g.symbols.lookupIn? mod.program.scope name = none →
      g'.symbols.lookupIn? mod.program.scope name = none) : g'.Leads c d := by
  have hmodule : ∀ {m mod}, g.module? m = some mod →
      ∃ mod', g'.module? m = some mod' ∧ mod'.plain = mod.plain :=
    fun {m _} hm => Option.map_eq_some_iff.mp ((hplain m).trans (by rw [hm]; rfl))
  -- Everything a question looks at is a field of the module as it was read.
  have hlocal : ∀ {mod mod' : Module}, mod'.plain = mod.plain →
      mod'.localExport? = mod.localExport? := fun {mod mod'} h =>
    show mod'.plain.localExport? = mod.plain.localExport? by rw [h]
  have hre : ∀ {mod mod' : Module}, mod'.plain = mod.plain →
      mod'.reexport? = mod.reexport? := fun {mod mod'} h =>
    show mod'.plain.reexport? = mod.plain.reexport? by rw [h]
  cases h with
  | exported m name => exact .exported m name
  | own hm hname he =>
    obtain ⟨mod', hm', h⟩ := hmodule hm
    exact .own hm' hname (hlocal h ▸ he)
  | reexport hm hname hnone hactive he htarget hlocalName =>
    obtain ⟨mod', hm', h⟩ := hmodule hm
    exact .reexport hm' hname (hlocal h ▸ hnone) hactive (hre h ▸ he)
      (target?_congr h ▸ htarget) hlocalName
  | star hm hname hnone hactive he hdefault hsource htarget =>
    obtain ⟨mod', hm', h⟩ := hmodule hm
    exact .star hm' hname (hlocal h ▸ hnone) hactive (hre h ▸ he)
      hdefault (starSources_congr h ▸ hsource)
      (target?_congr h ▸ htarget)
  | @passed m mod name hm hnone =>
    obtain ⟨mod', hm', h⟩ := hmodule hm
    have hscope : mod'.program.scope = mod.program.scope :=
      congrArg (fun mod => mod.program.scope) h
    exact .passed hm' (hscope ▸ hscopes hm hnone)
  | @imported m mod x b t hm hb htarget hstar =>
    obtain ⟨mod', hm', h⟩ := hmodule hm
    have himports : mod'.imports = mod.imports := congrArg (·.imports) h
    exact .imported hm' (himports ▸ hb) (target?_congr h ▸ htarget)
      hstar

theorem TracingEnds.irrefl (h : g.TracingEnds) (c : Call) : ¬TransGen g.Leads c c := by
  intro hcycle
  have hswap : TransGen (fun d c => g.Leads c d) c c := transGen_swap.mp hcycle
  exact (h.transGen).irrefl.irrefl c hswap

/-! ## Enough steps -/

theorem mem_zipIdx (hm : g.module? m = some mod) : (mod, m) ∈ g.modules.toList.zipIdx := by
  rw [mk_mem_zipIdx_iff_getElem?, Array.getElem?_toList]
  exact hm

def importKeys (g : Graph) : List (ModuleId × Bytes) :=
  g.modules.toList.zipIdx.flatMap fun p => p.1.imports.map fun i => (p.2, i.1)

theorem mem_importKeys {x : Bytes} {b : ImportBinding} (hm : g.module? m = some mod)
    (hb : mod.imports.lookup x = some b) : (m, x) ∈ g.importKeys := by
  obtain ⟨before, after, himports, -⟩ := lookup_eq_some_iff.mp hb
  exact mem_flatMap.mpr ⟨(mod, m), mem_zipIdx hm,
    mem_map.mpr ⟨(x, b), by simp [himports], rfl⟩⟩

theorem traceSteps_eq (g : Graph) :
    g.traceSteps = (g.importKeys.length + 2) * (g.modules.size + 4) := by
  have hfold : ∀ (l : List Module) (i n : Nat),
      l.foldl (fun n m => n + m.imports.length) n =
        n + ((l.zipIdx i).flatMap fun p => p.1.imports.map fun b => (p.2, b.1)).length := by
    intro l
    induction l with
    | nil => exact fun _ _ => rfl
    | cons m l ih =>
      intro i n
      rw [foldl_cons, ih (i + 1), zipIdx_cons, flatMap_cons, length_append,
        length_map, Nat.add_assoc]
  rw [traceSteps, ← Array.foldl_toList, hfold g.modules.toList 0 0, Nat.zero_add]
  rfl

theorem lt_of_module? (h : g.module? m = some mod) :
    m < g.modules.size := (Array.getElem?_eq_some_iff.mp h).1

end Graph

section

variable {g : Graph}

/-- What a search has gone through are modules, and none of them twice. -/
def Call.Fits (g : Graph) : Call → Prop
  | .search active _ _ => active.Nodup ∧ ∀ m ∈ active, m < g.modules.size
  | _ => True

/-- How many questions can still follow if no import is asked for any more. -/
def Call.room (g : Graph) : Call → Nat
  | .exported _ _ => g.modules.size + 4
  | .search active _ _ => g.modules.size + 3 - active.length
  | .own _ _ => 2
  | .imported _ _ => 1

theorem Call.Fits.length_le {name : Bytes} (h : Call.Fits g (.search active m name)) :
    active.length ≤ g.modules.size := by
  have hsub : active ⊆ range g.modules.size := fun m hm => mem_range.mpr (h.2 m hm)
  simpa using (subperm_of_subset h.1 hsub).length_le

theorem Call.Fits.search_cons {name : Bytes} (h : Call.Fits g (.search active m name))
    (hm : m < g.modules.size) (hactive : m ∉ active) (t : ModuleId) (k : Bytes) :
    Call.Fits g (.search (m :: active) t k) :=
  ⟨nodup_cons.mpr ⟨hactive, h.1⟩, forall_mem_cons.mpr ⟨hm, h.2⟩⟩

/-- Every question leaves less room than the one it follows from, unless an import is passed. -/
theorem Graph.Leads.room_lt {c d : Call} (h : g.Leads c d) (hc : c.Fits g) :
    d.Fits g ∧ (d.room g < c.room g ∨ ∃ m x mod b, c = .imported m x ∧ g.module? m = some mod ∧
      mod.imports.lookup x = some b) := by
  cases h with
  | exported m name => exact ⟨⟨nodup_nil, by simp⟩, .inl (by simp [Call.room])⟩
  | own hm hname he =>
    have := hc.length_le
    exact ⟨trivial, .inl (by simp only [Call.room]; omega)⟩
  | reexport hm hname hnone hactive he htarget hlocalName | star hm hname hnone hactive he hdefault hsource htarget =>
    have hfits := hc.search_cons (lt_of_module? hm) hactive
    have := (hfits 0 []).length_le
    exact ⟨hfits _ _, .inl (by simp only [Call.room, length_cons] at *; omega)⟩
  | passed hm hnone => exact ⟨trivial, .inl (by simp [Call.room])⟩
  | imported hm hb htarget hstar => exact ⟨trivial, .inr ⟨_, _, _, _, rfl, hm, hb⟩⟩

theorem Call.room_pos {c : Call} (h : c.Fits g) : 0 < c.room g := by
  cases c with
  | search active m name =>
    have := Call.Fits.length_le h
    simp only [Call.room]
    omega
  | _ => simp [Call.room]

theorem Call.room_le (c : Call) : c.room g ≤ g.modules.size + 4 := by
  cases c <;> simp only [Call.room] <;> omega

/-- The imports that a search has passed all lead to where it is, so it passes none of them again:
for each import that is left there is room for one way through all modules. -/
theorem Graph.TracingEnds.enough (h : g.TracingEnds) : ∀ (n : Nat) (c : Call)
    (passed : List (ModuleId × Bytes)), c.Fits g → passed.Nodup → passed ⊆ g.importKeys →
    (∀ p ∈ passed, TransGen g.Leads (.imported p.1 p.2) c) →
    (g.importKeys.length - passed.length) * (g.modules.size + 4) + c.room g ≤ n → Enough g.Leads n c
  | 0, c, _, hfits, _, _, _, hn => by
    have := Call.room_pos hfits
    omega
  | n + 1, c, passed, hfits, hnodup, hsub, hleads, hn => by
    intro d hd
    obtain ⟨hfits', hroom | ⟨m, x, mod, b, rfl, hm, hb⟩⟩ := hd.room_lt hfits
    · exact h.enough n d passed hfits' hnodup hsub (fun p hp => (hleads p hp).tail hd) (by omega)
    · have hnew : (m, x) ∉ passed := fun hp => h.irrefl _ (hleads _ hp)
      have hnodup' : ((m, x) :: passed).Nodup := nodup_cons.mpr ⟨hnew, hnodup⟩
      have hsub' : (m, x) :: passed ⊆ g.importKeys :=
        cons_subset.mpr ⟨mem_importKeys hm hb, hsub⟩
      have hle := (subperm_of_subset hnodup' hsub').length_le
      refine h.enough n d ((m, x) :: passed) hfits' hnodup' hsub' ?_ ?_
      · exact forall_mem_cons.mpr ⟨.single hd, fun p hp => (hleads p hp).tail hd⟩
      · have hroom := Call.room_le (g := g) d
        obtain ⟨k, hk⟩ : ∃ k, g.importKeys.length - passed.length = k + 1 :=
          Nat.exists_eq_add_one.mpr (by simp only [length_cons] at hle; omega)
        have hk' : g.importKeys.length - ((m, x) :: passed).length = k := by
          simp only [length_cons]
          omega
        rw [hk, Nat.succ_mul] at hn
        rw [hk']
        simp only [Call.room] at hn
        omega

theorem Graph.TracingEnds.enough_steps (h : g.TracingEnds) {c : Call} (hfits : c.Fits g) :
    Enough g.Leads g.traceSteps c := by
  refine h.enough _ c [] hfits nodup_nil (by simp) (by simp) ?_
  have hroom := c.room_le (g := g)
  rw [traceSteps_eq, length_nil, Nat.sub_zero, Nat.add_mul]
  omega

end

/-! ## Steps that trace nothing -/

namespace Graph

/-- What is written down about exports and imports is the same. -/
def SameTraces (g g' : Graph) : Prop :=
  ∀ m, (g'.module? m).map (fun mod => (mod.tracedExports, mod.tracedImports)) =
    (g.module? m).map fun mod => (mod.tracedExports, mod.tracedImports)

/-- What is written down about an import is what is written down about the export it names. -/
def Agreed (g : Graph) : Prop :=
  ∀ ⦃m mod x b t found⦄, g.module? m = some mod → mod.imports.lookup x = some b →
    mod.target? b.specifier = some t → (g.module? t).isSome = true → b.imported ≠ utf8 "*" →
    mod.tracedImports.lookup x = some found → g.traced? t b.imported = some found

theorem SameTraces.modifyModule (hexports : ∀ mod, (f mod).tracedExports = mod.tracedExports)
    (himports : ∀ mod, (f mod).tracedImports = mod.tracedImports) :
    g.SameTraces (g.modifyModule m f) := by
  intro k
  rw [module?_modifyModule]
  split
  · cases g.module? k with
    | none => rfl
    | some mod => simp [hexports, himports]
  · rfl

theorem SameTraces.traced? (h : g.SameTraces g') (m : ModuleId) (name : Bytes) :
    g'.traced? m name = g.traced? m name := by
  have hm := congrArg (Option.bind · fun p => p.1.lookup name) (h m)
  simp only [Option.bind_map] at hm
  exact hm

end Graph

/-- Steps after which the same is written down about exports and imports. -/
def untraced : Conduct where
  holds _ := True
  allows := SameTraces
  refl _ _ := rfl
  trans h h' m := (h' m).trans (h m)

theorem externalVariable_untraced (source imported : Bytes) (g : Graph) :
    untraced.Steps g (externalVariable source imported) fun _ _ => True := by
  refine .bind' (P := fun _ _ => True) (.modify' fun _ => ⟨?_, trivial, trivial⟩)
    fun _ g' _ _ => ?_
  · unfold addExternalSource
    split <;> exact fun _ => rfl
  refine .get_bind fun _ => ?_
  split
  · exact .pure' fun _ => trivial
  · exact fun _ => ⟨fun _ => rfl, trivial, trivial⟩

theorem namespaceVariable_untraced (m : ModuleId) (g : Graph) :
    untraced.Steps g (namespaceVariable m) fun _ _ => True := by
  refine .get_bind fun _ => ?_
  split
  · exact .pure' fun _ => trivial
  have hset : ∀ h h' : Graph, h.SameTraces h' →
      untraced.Steps h (set h' : StateM Graph PUnit) fun _ _ => True :=
    fun h h' hsame _ => ⟨hsame, trivial, trivial⟩
  refine .bind' (hset _ _ (SameTraces.modifyModule
    (fun _ => rfl) fun _ => rfl)) fun _ g1 _ _ => ?_
  refine .get_bind fun _ => ?_
  refine .bind' ((Steps.filterMapM'
    (fun _ _ _ _ _ _ => trivial) (fun g name => ?_) _ g1).imp fun _ _ _ _ => trivial)
    fun merged g2 _ _ => ?_
  · split
    · exact .map' (externalVariable_untraced _ _ g)
    · exact .pure' fun _ => trivial
  · exact .bind' (P := fun _ _ => True) (.modify' fun _ => ⟨fun _ => rfl, trivial, trivial⟩)
      fun _ _ _ _ => .pure' fun _ => trivial

theorem reportConflict_untraced (m : ModuleId) (name first second : Bytes) (g : Graph) :
    untraced.Steps g (reportConflict m name first second) fun _ _ => True := by
  refine .modify' fun _ => ⟨?_, trivial, trivial⟩
  split
  · exact fun _ => rfl
  · exact SameTraces.modifyModule (fun _ => rfl) fun _ => rfl

/-! ## Imports agree with exports -/

theorem Linked.leads (h : Linked g g') : g'.Leads = g.Leads := by
  funext c d
  refine propext ⟨fun hc => hc.congr (fun m => (h.module?_plain m).symm) fun _ hnone => ?_,
    fun hc => hc.congr h.module?_plain fun _ hnone => ?_⟩
  · rwa [← h.lookupIn?]
  · rwa [h.lookupIn?]

theorem Graph.Agreed.untraced (h : g.Agreed) (hl : Linked g g') (hsame : g.SameTraces g') :
    g'.Agreed := by
  intro m mod' x b t found hm hb htarget ht hstar hfound
  obtain ⟨mod, hmod, he⟩ := hl.module?_old hm
  have himports : mod'.imports = mod.imports := congrArg (·.imports) he.plain
  have htraces := hsame m
  rw [hm, hmod, Option.map_some, Option.map_some, Option.some.injEq, Prod.mk.injEq] at htraces
  rw [himports] at hb
  rw [target?_congr he.plain] at htarget
  rw [htraces.2] at hfound
  have hthere := congrArg Option.isSome (hl.module?_plain t)
  rw [Option.isSome_map, Option.isSome_map, ht] at hthere
  rw [hsame.traced?]
  exact h hmod hb htarget hthere.symm hstar hfound

section

variable {g : Graph} {m k : ModuleId} {name key : Bytes} {found : Option VarId}

theorem Graph.module?_modifyModule_some {mod' : Module}
    (h : (g.modifyModule m f).module? k = some mod') :
    ∃ mod, g.module? k = some mod ∧ mod' = if m = k then f mod else mod := by
  rw [module?_modifyModule] at h
  split at h
  · obtain ⟨mod, hmod, rfl⟩ := Option.map_eq_some_iff.mp h
    exact ⟨mod, hmod, (if_pos ‹_›).symm⟩
  · exact ⟨mod', h, (if_neg ‹_›).symm⟩

theorem Graph.traced?_writeExport (h : k = m → key ≠ name) :
    (g.writeExport m name found).traced? k key = g.traced? k key := by
  rw [traced?, writeExport, module?_modifyModule, traced?]
  split
  · rename_i heq
    cases g.module? k with
    | none => rfl
    | some mod =>
      show ((name, found) :: mod.tracedExports).lookup key = mod.tracedExports.lookup key
      rw [lookup_cons, beq_false_of_ne (h heq.symm)]
  · rfl

theorem Graph.traced?_writeImport :
    (g.writeImport m name found).traced? k key = g.traced? k key := by
  rw [traced?, writeImport, module?_modifyModule, traced?]
  split
  · cases g.module? k <;> rfl
  · rfl

theorem Graph.Agreed.writeExport (h : g.Agreed) (hnone : g.traced? m name = none) :
    (g.writeExport m name found).Agreed := by
  intro k mod' x b t v hk hb htarget ht hstar hv
  obtain ⟨mod, hmod, hmod'⟩ := module?_modifyModule_some hk
  have hthere : (g.module? t).isSome = true := by
    simpa only [Graph.writeExport, module?_modifyModule, apply_ite Option.isSome, Option.isSome_map,
      ite_self] using ht
  have htraced : g.traced? t b.imported = some v := by
    refine h hmod (x := x) ?_ ?_ hthere hstar ?_
    · rw [← hb, hmod']
      split <;> rfl
    · rw [← htarget, hmod']
      split <;> rfl
    · rw [← hv, hmod']
      split <;> rfl
  rw [traced?_writeExport, htraced]
  rintro rfl rfl
  rw [htraced] at hnone
  cases hnone

theorem Graph.Agreed.writeImport (h : g.Agreed)
    (hfound : ∀ {mod b t}, g.module? m = some mod → mod.imports.lookup name = some b →
      mod.target? b.specifier = some t → (g.module? t).isSome = true → b.imported ≠ utf8 "*" →
      g.traced? t b.imported = some found) : (g.writeImport m name found).Agreed := by
  intro k mod' x b t v hk hb htarget ht hstar hv
  obtain ⟨mod, hmod, hmod'⟩ := module?_modifyModule_some hk
  have hthere : (g.module? t).isSome = true := by
    simpa only [Graph.writeImport, module?_modifyModule, apply_ite Option.isSome, Option.isSome_map,
      ite_self] using ht
  have hb' : mod.imports.lookup x = some b := by
    rw [← hb, hmod']
    split <;> rfl
  have htarget' : mod.target? b.specifier = some t := by
    rw [← htarget, hmod']
    split <;> rfl
  rw [traced?_writeImport]
  by_cases heq : m = k
  · subst heq
    rw [hmod', if_pos rfl] at hv
    rw [lookup_cons] at hv
    split at hv
    · rename_i hx
      cases hv
      exact hfound hmod (eq_of_beq hx ▸ hb') htarget' hthere hstar
    · exact h hmod hb' htarget' hthere hstar hv
  · rw [hmod', if_neg heq] at hv
    exact h hmod hb' htarget' hthere hstar hv

end

/-- What a search does to imports and exports besides. If it has steps enough, and no search goes on
forever, imports go on agreeing with exports, and every export that is written down was asked for on
the way. -/
def Pursues (n : Nat) (c : Call) (g g' : Graph) : Prop :=
  Enough g.Leads n c → g.TracingEnds → g.Agreed → g'.Agreed ∧ ∀ m name, g.traced? m name = none →
    g'.traced? m name ≠ none → ReflTransGen g.Leads c (.exported m name)

namespace Pursues

variable {n : Nat} {c d : Call} {g g' g'' : Graph} {name : Bytes} {found : Option VarId}

theorem refl (n : Nat) (c : Call) (g : Graph) : Pursues n c g g :=
  fun _ _ h => ⟨h, fun _ _ hnone hsome => absurd hnone hsome⟩

theorem trans (h : Pursues n c g g') (hl : Linked g g') (h' : Pursues n c g' g'') :
    Pursues n c g g'' := by
  intro henough hends hagreed
  obtain ⟨hagreed', hnew⟩ := h henough hends hagreed
  rw [Pursues, TracingEnds, hl.leads] at h'
  obtain ⟨hagreed'', hnew'⟩ := h' henough hends hagreed'
  refine ⟨hagreed'', fun m name hnone hsome => ?_⟩
  by_cases hmid : g'.traced? m name = none
  · exact hnew' m name hmid hsome
  · exact hnew m name hnone hmid

theorem of_leads (h : Pursues n d g g') (hd : g.Leads c d) : Pursues (n + 1) c g g' := by
  intro henough hends hagreed
  obtain ⟨hagreed', hnew⟩ := h (henough d hd) hends hagreed
  exact ⟨hagreed', fun m name hnone hsome => .head hd (hnew m name hnone hsome)⟩

theorem untraced (hl : Linked g g') (hsame : g.SameTraces g') : Pursues n c g g' := by
  refine fun _ _ h => ⟨h.untraced hl hsame, fun m name hnone hsome => ?_⟩
  rw [hsame.traced?] at hsome
  exact absurd hnone hsome

/-- An export is not written down while it is searched for: that search would not end. -/
theorem writeExport (h : Pursues n (.search [] m name) g g') (hnone : g.traced? m name = none) :
    Pursues (n + 1) (.exported m name) g (g'.writeExport m name found) := by
  intro henough hends hagreed
  have hleads : g.Leads _ _ := .exported m name
  obtain ⟨hagreed', hnew⟩ := h (henough _ hleads) hends hagreed
  have hnone' : g'.traced? m name = none := by
    by_contra hsome
    exact hends.irrefl _ (.head' hleads (hnew m name hnone hsome))
  refine ⟨hagreed'.writeExport hnone', fun k key hold hsome => ?_⟩
  by_cases hsame : k = m ∧ key = name
  · rw [hsame.1, hsame.2]
  · refine .head hleads (hnew k key hold ?_)
    rwa [traced?_writeExport fun hk hkey => hsame ⟨hk, hkey⟩] at hsome

/-- An import is written down after the export it names, and as the same variable. -/
theorem writeImport (h : Pursues n c g g') (hfound : Enough g.Leads n c →
      ∀ {mod b t}, g'.module? m = some mod → mod.imports.lookup name = some b →
        mod.target? b.specifier = some t → (g'.module? t).isSome = true → b.imported ≠ utf8 "*" →
        g'.traced? t b.imported = some found) : Pursues n c g (g'.writeImport m name found) := by
  intro henough hends hagreed
  obtain ⟨hagreed', hnew⟩ := h henough hends hagreed
  refine ⟨hagreed'.writeImport (hfound henough), fun k key hold hsome => hnew k key hold ?_⟩
  rwa [traced?_writeImport] at hsome

end Pursues

theorem LinksFrom.pursues {α : Type} {p : StateM Graph α} {post : α → Graph → Prop}
    (h : LinksFrom g p post) (hp : untraced.Steps g p fun _ _ => True) :
    LinksFrom g p fun a g' => post a g' ∧ ∀ n c, Pursues n c g g' := by
  intro hg
  obtain ⟨hl, hg', hpost⟩ := h hg
  exact ⟨hl, hg', hpost, fun _ _ => .untraced hl (hp trivial).1⟩

theorem externalVariable_pursues (source imported : Bytes) (g : Graph) :
    LinksFrom g (some <$> externalVariable source imported) fun found g' =>
      Standing found g' ∧ ∀ n c, Pursues n c g g' :=
  LinksFrom.pursues (.map' ((externalVariable_links source imported g).imp fun _ _ _ hv =>
    Standing.some (.inr (.inl ⟨_, hv⟩)))) (.map' (externalVariable_untraced source imported g))

theorem namespaceVariable_pursues (m : ModuleId) (g : Graph) :
    LinksFrom g (some <$> namespaceVariable m) fun found g' =>
      Standing found g' ∧ ∀ n c, Pursues n c g g' :=
  LinksFrom.pursues (.map' ((namespaceVariable_links m g).imp fun _ _ _ h =>
    Standing.some (.inr (.inr h.1)))) (.map' (namespaceVariable_untraced m g))

/-! ## Searches -/

/-- An import of the module is written down as it was answered. -/
def Graph.Answered (g : Graph) (m : ModuleId) (name : Bytes) (found : Option (Option VarId)) : Prop :=
  ∀ mod b, g.module? m = some mod → mod.imports.lookup name = some b →
    ∃ v, found = some v ∧ mod.tracedImports.lookup name = some v

/-- What a search that is not over yet may rely on. -/
structure Searches (n : Nat) : Prop where
  traceExportIn : ∀ m name g, LinksFrom g (traceExportIn n m name) fun found g' =>
    Found m name found g' ∧ (0 < n → ∀ mod, g'.module? m = some mod →
      mod.tracedExports.lookup name = some found) ∧ Pursues n (.exported m name) g g'
  searchExport : ∀ active m name g, LinksFrom g (searchExport n active m name) fun found g' =>
    Found m name found g' ∧ Pursues n (.search active m name) g g'
  localVariable : ∀ g m mod target, g.module? m = some mod →
    LinksFrom g (localVariable n m mod target) fun found g' =>
      Standing found g' ∧ Pursues n (.own m target) g g'
  traceImportIn : ∀ m name g, LinksFrom g (traceImportIn n m name) fun found g' =>
    Standing (found.bind id) g' ∧ (0 < n → g'.Answered m name found) ∧
      Pursues n (.imported m name) g g'

section

variable {n : Nat}

theorem searchExport_links (h : Searches n) (active : List ModuleId) (m : ModuleId) (name : Bytes)
    (g : Graph) : LinksFrom g (searchExport (n + 1) active m name) fun found g' =>
      Found m name found g' ∧ Pursues (n + 1) (.search active m name) g g' := by
  unfold searchExport
  refine .get_bind fun hg => ?_
  have hnone : Found m name none g ∧ Pursues (n + 1) (.search active m name) g g :=
    ⟨Found.none m name g, .refl _ _ g⟩
  cases hmod : g.module? m with
  | none => exact .pure' fun _ => hnone
  | some mod =>
    refine .ite' (fun hstar => ?_) fun hname => ?_
    · exact (namespaceVariable_pursues m g).imp fun _ _ _ hv =>
        ⟨hv.1.found (.inl hstar), hv.2 _ _⟩
    cases hlocal : mod.localExport? name with
    | some e =>
      have hoffers := mem_exportNames_of_localExport? hlocal
      exact (h.localVariable g m mod e.target hmod).imp fun _ _ hl hv =>
        ⟨hv.1.found (.inr (hl.offers (.own hmod hoffers))), hv.2.of_leads (.own hmod hname hlocal)⟩
    | none =>
      refine .ite' (fun _ => .pure' fun _ => hnone) fun hactive => ?_
      have hactive : m ∉ active := by simpa using hactive
      cases hre : mod.reexport? name with
      | some e =>
        have hoffers := mem_exportNames_of_reexport? hre
        have hown : ∀ {found g'}, Linked g g' → Standing found g' → Found m name found g' :=
          fun hl hv => hv.found (.inr (hl.offers (.own hmod hoffers)))
        dsimp only
        cases htarget : mod.target? e.specifier with
        | none =>
          exact (externalVariable_pursues _ _ g).imp fun _ _ hl hv => ⟨hown hl hv.1, hv.2 _ _⟩
        | some t =>
          refine .ite' (fun _ => ?_) fun hstar => ?_
          · exact (namespaceVariable_pursues t g).imp fun _ _ hl hv => ⟨hown hl hv.1, hv.2 _ _⟩
          refine .bind' (h.searchExport _ t _ g) fun found g' hl hfound => ?_
          have hfound : Found m name found g' ∧ Pursues (n + 1) (.search active m name) g g' :=
            ⟨hown hl hfound.1.standing,
              hfound.2.of_leads (.reexport hmod hname hlocal hactive hre htarget hstar)⟩
          refine .ite' (fun _ => ?_) fun _ => .pure' fun _ => hfound
          exact .bind' (P := fun _ g' => Found m name found g' ∧ Pursues (n + 1) _ g g')
            (LinksFrom.report (fun _ => rfl) (fun _ => List.Subset.refl _)
              (fun _ => Diagnostics.cycles_report _ _ _ _ _ (by decide)) hfound)
            fun _ _ _ hfound => .pure' fun _ => hfound
      | none =>
        refine .ite' (fun _ => .pure' fun _ => hnone) fun hdefault => ?_
        -- A name that another module offers is offered by this one as well.
        have hstar : ∀ source ∈ mod.starSources, ∀ {t found g₁ g'}, mod.target? source = some t →
            Linked g g₁ → Linked g₁ g' → Found t name found g' → Found m name found g' := by
          intro source hsource t found g₁ g' htarget hl hl' hfound v hv
          refine ⟨(hfound v hv).1, (hfound v hv).2.imp_right fun hoffers => ?_⟩
          have hedge : g.StarEdge m t := ⟨mod, hmod, source, hsource, htarget⟩
          exact (hl.trans hl').offers (.star hedge hdefault ((hl.trans hl').offers_iff.mp hoffers))
        refine .bind' (Steps.foldlM' (Q := fun found g' => Linked g g' ∧
            Found m name (found.map Prod.fst) g' ∧ Pursues (n + 1) (.search active m name) g g') ?_
          ⟨.refl g, hnone⟩) fun found g' _ hfound => .pure' fun _ => hfound.2
        rintro g₁ found source hsource ⟨hl₁, hfound, hpursues⟩
        cases htarget : mod.target? source with
        | none => exact .pure' fun _ => ⟨hl₁, hfound, hpursues⟩
        | some t =>
          refine .bind' (h.searchExport _ t name g₁) fun other g' hl hother => ?_
          have hleads : g₁.Leads (.search active m name) (.search (m :: active) t name) :=
            hl₁.leads ▸ .star hmod hname hlocal hactive hre hdefault hsource htarget
          have hpursues' := hpursues.trans hl₁ (hother.2.of_leads hleads)
          have hother := hstar source hsource htarget hl₁ hl hother.1
          have hfound' := hfound.linked hl
          have hl' := hl₁.trans hl
          cases other with
          | none => exact .pure' fun _ => ⟨hl', hfound', hpursues'⟩
          | some w =>
            cases found with
            | none => exact .pure' fun _ => ⟨hl', hother, hpursues'⟩
            | some p =>
              refine .ite' (fun _ => ?_) fun _ => .pure' fun _ => ⟨hl', hfound', hpursues'⟩
              refine .get_bind fun _ => ?_
              exact .bind' (LinksFrom.pursues (reportConflict_links _ _ _ _ g')
                (reportConflict_untraced _ _ _ _ g')) fun _ g'' hl'' hconflict => .pure' fun _ =>
                  ⟨hl'.trans hl'', hfound'.linked hl'', hpursues'.trans hl' (hconflict.2 _ _)⟩

theorem localVariable_links (h : Searches n) (g : Graph) (m : ModuleId) (mod : Module)
    (target : ExportTarget) (hmod : g.module? m = some mod) :
    LinksFrom g (localVariable (n + 1) m mod target) fun found g' =>
      Standing found g' ∧ Pursues (n + 1) (.own m target) g g' := by
  unfold localVariable
  cases target with
  | defaultValue =>
    exact .pure' fun _ => ⟨fun v hv => .inl ⟨m, mod, hmod, .inr hv⟩, .refl _ _ g⟩
  | binding name =>
    refine .get_bind fun hg => ?_
    cases hv : g.symbols.lookupIn? mod.program.scope name with
    | some v =>
      exact .pure' fun _ => ⟨Standing.some (.inl ⟨m, mod, hmod, .inl ⟨name, hv⟩⟩), .refl _ _ g⟩
    | none =>
      exact .bind' (h.traceImportIn m name g) fun found g' _ hfound =>
        .pure' fun _ => ⟨hfound.1, hfound.2.2.of_leads (.passed hmod hv)⟩

theorem traceExportIn_links (h : Searches n) (m : ModuleId) (name : Bytes) (g : Graph) :
    LinksFrom g (traceExportIn (n + 1) m name) fun found g' => Found m name found g' ∧
      (0 < n + 1 → ∀ mod, g'.module? m = some mod →
        mod.tracedExports.lookup name = some found) ∧ Pursues (n + 1) (.exported m name) g g' := by
  unfold traceExportIn
  refine .get_bind fun hg => ?_
  cases hcached : (g.module? m).bind fun mod => mod.tracedExports.lookup name with
  | some found =>
    obtain ⟨mod, hmod, hlookup⟩ := Option.bind_eq_some_iff.mp hcached
    refine .pure' fun _ => ⟨?_, fun _ mod' hmod' => ?_, .refl _ _ g⟩
    · rintro v rfl
      exact hg.tracedExports hmod hlookup
    · cases hmod.symm.trans hmod'
      exact hlookup
  | none =>
    refine Steps.bind_since (h.searchExport [] m name g) fun found g₁ h1 hg1 hfound => ?_
    refine ⟨h1.writeExport hcached, hg1.writeExport hfound.1,
      fun v hv => (hfound.1 v hv).modifyModule fun _ => rfl, fun _ mod hmod => ?_,
      hfound.2.writeExport hcached⟩
    obtain ⟨mod', -, rfl⟩ := module?_modifyModule_some hmod
    rw [if_pos rfl]
    exact lookup_cons_self

theorem traceImportIn_links (h : Searches n) (m : ModuleId) (name : Bytes) (g : Graph) :
    LinksFrom g (traceImportIn (n + 1) m name) fun found g' => Standing (found.bind id) g' ∧
      (0 < n + 1 → g'.Answered m name found) ∧ Pursues (n + 1) (.imported m name) g g' := by
  unfold traceImportIn
  refine .get_bind fun hg => ?_
  cases hmod : g.module? m with
  | none =>
    refine .pure' fun _ => ⟨Standing.none g, fun _ mod b hmod' _ => ?_, .refl _ _ g⟩
    cases hmod.symm.trans hmod'
  | some mod =>
    dsimp only
    cases hb : mod.imports.lookup name with
    | none =>
      refine .pure' fun _ => ⟨Standing.none g, fun _ mod' b hmod' hb' => ?_, .refl _ _ g⟩
      cases hmod.symm.trans hmod'
      cases hb.symm.trans hb'
    | some binding =>
      cases hcached : mod.tracedImports.lookup name with
      | some found =>
        refine .pure' fun _ => ⟨fun v hv => hg.tracedImports hmod (x := name) ?_,
          fun _ mod' b hmod' _ => ?_, .refl _ _ g⟩
        · rw [hcached]
          exact congrArg some hv
        · cases hmod.symm.trans hmod'
          exact ⟨found, rfl, hcached⟩
      | none =>
        have hwrite : ∀ (found : Option VarId) (g₁ : Graph), Linked g g₁ → Linkable g₁ →
            Standing found g₁ → Pursues (n + 1) (.imported m name) g g₁ →
            (Enough g.Leads (n + 1) (.imported m name) → ∀ {t},
              mod.target? binding.specifier = some t → (g₁.module? t).isSome = true →
              binding.imported ≠ utf8 "*" → g₁.traced? t binding.imported = some found) →
            linking.StepsSince g g₁ (do
              modify fun g => g.modifyModule m fun mod =>
                { mod with tracedImports := (name, found) :: mod.tracedImports }
              return some found) fun found g' => Standing (found.bind id) g' ∧
                (0 < n + 1 → g'.Answered m name found) ∧
                Pursues (n + 1) (.imported m name) g g' := by
          intro found g₁ h1 hg1 hfound hpursues hexport
          refine ⟨h1.writeImport fun mod0 hmod0 => ?_, hg1.writeImport hfound,
            fun v hv => (hfound v hv).modifyModule fun _ => rfl, fun _ mod2 b hmod2 _ => ?_,
            hpursues.writeImport fun henough mod1 b t hmod1 hb1 htarget => ?_⟩
          · cases hmod.symm.trans hmod0
            exact hcached
          · obtain ⟨mod1, -, rfl⟩ := module?_modifyModule_some hmod2
            refine ⟨found, rfl, ?_⟩
            rw [if_pos rfl]
            exact lookup_cons_self
          · obtain ⟨mod1', hmod1', he⟩ := h1.modules hmod
            cases hmod1'.symm.trans hmod1
            have himports : mod1.imports = mod.imports := congrArg (·.imports) he.plain
            rw [himports, hb] at hb1
            cases hb1
            rw [target?_congr he.plain] at htarget
            exact hexport henough htarget
        dsimp only
        cases htarget : mod.target? binding.specifier with
        | none =>
          refine Steps.bind_since (externalVariable_pursues _ _ g) fun found g₁ h1 hg1 hfound =>
            hwrite found g₁ h1 hg1 hfound.1 (hfound.2 _ _) fun _ t ht => ?_
          cases htarget.symm.trans ht
        | some t =>
          refine .ite' (fun hstar => ?_) fun hstar => ?_
          · exact Steps.bind_since (namespaceVariable_pursues t g) fun found g₁ h1 hg1 hfound =>
              hwrite found g₁ h1 hg1 hfound.1 (hfound.2 _ _) fun _ _ _ _ hne => absurd hstar hne
          have hleads : g.Leads _ _ := .imported hmod hb htarget hstar
          refine Steps.bind_since (h.traceExportIn t _ g) fun found g₁ h1 hg1 hfound => ?_
          have hwritten : Enough g.Leads (n + 1) (.imported m name) → ∀ {t'},
              mod.target? binding.specifier = some t' → (g₁.module? t').isSome = true →
              binding.imported ≠ utf8 "*" → g₁.traced? t' binding.imported = some found := by
            intro henough t' ht' hthere _
            cases htarget.symm.trans ht'
            obtain ⟨modt, hmodt⟩ := Option.isSome_iff_exists.mp hthere
            have hn : 0 < n := Nat.pos_of_ne_zero (by rintro rfl; exact henough _ hleads)
            exact Option.bind_eq_some_iff.mpr ⟨modt, hmodt, hfound.2.1 hn modt hmodt⟩
          have hpursues := hfound.2.2.of_leads hleads
          by_cases hnone : found.isNone = true
          · rw [if_pos hnone]
            refine hwrite found _ (h1.trans (.of_same rfl ?_))
              (hg1.of_same rfl (List.Subset.refl _)) hfound.1.standing hpursues hwritten
            exact Diagnostics.cycles_report _ _ _ _ _ (by decide)
          · rw [if_neg hnone]
            exact hwrite found g₁ h1 hg1 hfound.1.standing hpursues hwritten

theorem searches : ∀ n, Searches n
  | 0 => by
    refine ⟨fun m name g => ?_, fun active m name g => ?_, fun g m mod target _ => ?_,
      fun m name g => ?_⟩
    · unfold traceExportIn
      exact .pure' fun _ => ⟨Found.none m name g, nofun, .refl _ _ g⟩
    · unfold searchExport
      exact .pure' fun _ => ⟨Found.none m name g, .refl _ _ g⟩
    · unfold localVariable
      exact .pure' fun _ => ⟨Standing.none g, .refl _ _ g⟩
    · unfold traceImportIn
      exact .pure' fun _ => ⟨Standing.none g, nofun, .refl _ _ g⟩
  | n + 1 =>
    have h := searches n
    ⟨traceExportIn_links h, searchExport_links h, localVariable_links h, traceImportIn_links h⟩

end

/-! ## Answers -/

theorem traceSteps_pos (g : Graph) : 0 < g.traceSteps := by
  exact Nat.mul_pos (Nat.succ_pos _) (Nat.succ_pos _)

theorem Linked.traced? (h : Linked g g') {found : Option VarId} (hf : g.traced? m name = some found) :
    g'.traced? m name = some found := by
  obtain ⟨mod, hmod, hlookup⟩ := Option.bind_eq_some_iff.mp hf
  obtain ⟨mod', hmod', he⟩ := h.modules hmod
  exact Option.bind_eq_some_iff.mpr ⟨mod', hmod', he.tracedExports hlookup⟩

theorem traceExport_links (m : ModuleId) (name : Bytes) (g : Graph) :
    LinksFrom g (traceExport m name) fun found g' => Known found g' ∧
      ((g.module? m).isSome = true → g'.traced? m name = some found) := by
  intro hg
  obtain ⟨hl, hg', hfound, hwritten, -⟩ := (searches g.traceSteps).traceExportIn m name g hg
  refine ⟨hl, hg', hfound.standing.known hg', fun hm => ?_⟩
  obtain ⟨mod, hmod⟩ := Option.isSome_iff_exists.mp hm
  obtain ⟨mod', hmod', -⟩ := hl.modules hmod
  exact Option.bind_eq_some_iff.mpr ⟨mod', hmod', hwritten (traceSteps_pos g) mod' hmod'⟩

theorem traceExport_again {found : Option VarId} (h : g.traced? m name = some found) :
    (traceExport m name).run g = (found, g) := by
  obtain ⟨n, hn⟩ : ∃ n, g.traceSteps = n + 1 := Nat.exists_eq_add_one.mpr (traceSteps_pos g)
  show (traceExportIn g.traceSteps m name).run g = _
  rw [hn]
  unfold traceExportIn
  rw [get_bind_run, show ((g.module? m).bind fun mod => mod.tracedExports.lookup name) = some found
    from h]
  rfl

theorem traceImport_links (m : ModuleId) (name : Bytes) :
    Links (traceImport m name) fun found => Known (found.bind id) :=
  fun g => .get_bind fun _ => ((searches g.traceSteps).traceImportIn m name g).imp_holds
    fun _ _ hg' h => h.1.known hg'

theorem traceExport_stands (m : ModuleId) (name : Bytes) : Links (traceExport m name) Standing :=
  fun g => .get_bind fun _ => ((searches g.traceSteps).traceExportIn m name g).imp_holds
    fun _ _ _ h => h.1.standing

theorem traceImport_stands (m : ModuleId) (name : Bytes) :
    Links (traceImport m name) fun found => Standing (found.bind id) :=
  fun g => .get_bind fun _ => ((searches g.traceSteps).traceImportIn m name g).imp fun _ _ _ h => h.1

/-- The names under which the namespace of a module has members. -/
def Graph.memberNames (g : Graph) (m : ModuleId) : List Bytes :=
  ((((g.module? m).map Module.exportNames).getD [] ++ g.starNames m).filter fun name =>
    (starSource? name).isNone).eraseDups

theorem Linked.memberNames (h : Linked g g') (m : ModuleId) :
    g'.memberNames m = g.memberNames m := by
  have hnames : (g'.module? m).map exportNames = (g.module? m).map exportNames := by
    have hm := congrArg (Option.map exportNames) (h.module?_plain m)
    rw [Option.map_map, Option.map_map] at hm
    exact hm
  simp [Graph.memberNames, hnames, h.starNames]

/-- The members of a namespace, as far as they are written down. -/
def Graph.tracedMembers (g : Graph) (m : ModuleId) : List (Bytes × VarId) :=
  (g.memberNames m).filterMap fun name =>
    (g.traced? m name).bind fun found => found.map fun v => (name, v)

/-- Every member of the namespace of a module is written down. -/
def Graph.MembersTraced (g : Graph) (m : ModuleId) : Prop :=
  ∀ name ∈ g.memberNames m, ∃ found, g.traced? m name = some found

theorem Graph.memberNames_none (h : g.module? m = none) : g.memberNames m = [] := by
  simp [Graph.memberNames, starNames, starNamesFrom, h]

theorem Linked.tracedMembers (h : Linked g g') (hm : g.MembersTraced m) :
    g'.tracedMembers m = g.tracedMembers m := by
  unfold Graph.tracedMembers
  rw [h.memberNames]
  refine filterMap_congr fun name hname => ?_
  obtain ⟨found, hfound⟩ := hm name hname
  rw [hfound, h.traced? hfound]

theorem namespaceMembers_links (m : ModuleId) (g : Graph) :
    LinksFrom g (namespaceMembers m) fun members g' =>
      members = g'.tracedMembers m ∧ g'.MembersTraced m ∧
        ∀ p ∈ members, p.2 < g'.symbols.vars.size := by
  refine .get_bind fun hg => ?_
  show LinksFrom g ((g.memberNames m).filterMapM fun name => do
    return (← traceExport m name).map fun v => (name, v)) _
  refine (Steps.filterMapM' (R := fun name p g' => ∃ found,
    p = found.map (fun v => (name, v)) ∧ Known found g' ∧
      ((g'.module? m).isSome = true → g'.traced? m name = some found)) ?_ ?_ _ g).imp ?_
  · rintro name p g g' ⟨found, rfl, hknown, htraced⟩ hl
    refine ⟨found, rfl, hknown.linked hl, fun hm => hl.traced? (htraced ?_)⟩
    have hplain := congrArg Option.isSome (hl.module?_plain m)
    rwa [Option.isSome_map, Option.isSome_map, hm, eq_comm] at hplain
  · intro g name
    refine .bind' (traceExport_links m name g) fun found g' hl hfound => ?_
    refine .pure' fun _ => ⟨found, rfl, hfound.1, fun hm => hfound.2 ?_⟩
    have hplain := congrArg Option.isSome (hl.module?_plain m)
    rwa [Option.isSome_map, Option.isSome_map, hm, eq_comm] at hplain
  · rintro members g' hl ⟨found, hnames, heach, rfl⟩
    have hmember : ∀ p ∈ found, ∃ f, p.2 = f.map (fun v => (p.1, v)) ∧ Known f g' ∧
        g'.traced? m p.1 = some f := by
      intro p hp
      obtain ⟨f, hf, hknown, htraced⟩ := heach p hp
      refine ⟨f, hf, hknown, htraced ?_⟩
      have hname : p.1 ∈ g.memberNames m := hnames ▸ mem_map_of_mem hp
      rw [← hl.memberNames] at hname
      cases hm : g'.module? m with
      | some mod => rfl
      | none => rw [memberNames_none hm] at hname; cases hname
    refine ⟨?_, ?_, ?_⟩
    · unfold Graph.tracedMembers
      rw [hl.memberNames, ← hnames, filterMap_map]
      refine filterMap_congr fun p hp => ?_
      obtain ⟨f, hf, -, htraced⟩ := hmember p hp
      rw [Function.comp_apply, htraced, hf]
      rfl
    · intro name hname
      rw [hl.memberNames, ← hnames] at hname
      obtain ⟨p, hp, rfl⟩ := mem_map.mp hname
      obtain ⟨f, -, -, htraced⟩ := hmember p hp
      exact ⟨f, htraced⟩
    · intro p hp
      obtain ⟨q, hq, hqp⟩ := mem_filterMap.mp hp
      obtain ⟨f, hf, hknown, -⟩ := hmember q hq
      rw [hqp] at hf
      obtain ⟨v, hv, rfl⟩ := Option.map_eq_some_iff.mp hf.symm
      exact hknown v hv

/-- Asking for them again gives the same members and changes nothing. -/
theorem namespaceMembers_again (h : g.MembersTraced m) :
    (namespaceMembers m).run g = (g.tracedMembers m, g) := by
  have hloop : ∀ (names : List Bytes) (acc : List (Bytes × VarId)),
      (∀ name ∈ names, ∃ found, g.traced? m name = some found) →
      (filterMapM.loop (fun name => do
        return (← traceExport m name).map fun v => (name, v)) names acc : StateM Graph _).run g =
      (acc.reverse ++ names.filterMap fun name =>
        (g.traced? m name).bind fun found => found.map fun v => (name, v), g) := by
    intro names
    induction names with
    | nil =>
      intro acc _
      show (acc.reverse, g) = _
      simp
    | cons name names ih =>
      intro acc hnames
      obtain ⟨found, hfound⟩ := hnames name mem_cons_self
      have ih := fun acc => ih acc fun k hk => hnames k (mem_cons_of_mem _ hk)
      have hstep : (do return (← traceExport m name).map fun v => (name, v) : StateM Graph _).run g =
          (found.map fun v => (name, v), g) := by
        show (((traceExport m name).run g).1.map _, ((traceExport m name).run g).2) = _
        rw [traceExport_again hfound]
      rw [filterMapM.loop, StateT.run_bind, hstep]
      cases found with
      | none => exact (ih acc).trans (by simp [hfound])
      | some v => exact (ih ((name, v) :: acc)).trans (by simp [hfound])
  exact (hloop _ [] h).trans (by simp [Graph.tracedMembers])

theorem namespaceMember?_links (m : ModuleId) (key : Bytes) (g : Graph) :
    LinksFrom g (namespaceMember? m key) fun found g' =>
      found = (g'.tracedMembers m).lookup key ∧ g'.MembersTraced m ∧ Known found g' := by
  refine .bind' (namespaceMembers_links m g) fun members g' _ h => ?_
  refine .pure' fun _ => ⟨by rw [← h.1], h.2.1, fun v hv => ?_⟩
  obtain ⟨before, after, hmembers, -⟩ := lookup_eq_some_iff.mp hv
  exact h.2.2 (key, v) (by simp [hmembers])

theorem namespaceMembers_stand (m : ModuleId) (g : Graph) :
    LinksFrom g (namespaceMembers m) fun members g' => ∀ p ∈ members, g'.OnTop p.2 := by
  refine (namespaceMembers_links m g).imp_holds ?_
  rintro members g' hg' ⟨rfl, -, -⟩ p hp
  obtain ⟨name, -, hp⟩ := mem_filterMap.mp hp
  obtain ⟨found, htraced, hfound⟩ := Option.bind_eq_some_iff.mp hp
  obtain ⟨v, rfl, rfl⟩ := Option.map_eq_some_iff.mp hfound
  obtain ⟨mod, hmod, hlookup⟩ := Option.bind_eq_some_iff.mp htraced
  exact (hg'.tracedExports hmod hlookup).1

theorem namespaceMember?_stands (m : ModuleId) (key : Bytes) (g : Graph) :
    LinksFrom g (namespaceMember? m key) Standing := by
  refine .bind' (namespaceMembers_stand m g) fun members g' _ h => ?_
  refine .pure' fun _ v hv => ?_
  obtain ⟨before, after, hmembers, -⟩ := lookup_eq_some_iff.mp hv
  exact h (key, v) (by simp [hmembers])

theorem entryExports_links (m : ModuleId) (g : Graph) :
    LinksFrom g (entryExports m) fun exports g' => ∀ p ∈ exports, g'.OnTop p.2 := by
  refine .bind' (namespaceMembers_stand m g) fun members g' _ h => ?_
  exact .pure' fun _ p hp => h p (mem_mergeSort.mp hp)

end Winnow
