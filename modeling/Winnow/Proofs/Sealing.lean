import Winnow.Proofs.Drift
import Winnow.Proofs.Resolving

/-!
# What is declared inside an expression is named inside

A part of an expression keeps its names to itself: a variable that is declared in it, by a function
or a class there, is named by nodes of the same part only, and is no export of a module
(`Graph.Sealed.inside`, `Graph.Sealed.not_aloft`). The parser sees to it when it reads a module
(`Program.parse_sealed`). It stays so while modules are loaded, while names are resolved, and through
the analysis.
-/

namespace Winnow

open Winnow.Graph Outline Relation Symbols Program List

variable {g g' : Graph} {module owner : Option ModuleId} {n : Node} {p : Program} {t : Symbols}

/-! ## Nodes around others -/

def Node.Around : Node → Node → Prop := ReflTransGen fun p c => c ∈ p.children

theorem Node.Proper.regular (h : n.Proper) : n.outline.Regular ∧ n.outline.node = n := by
  have hnode : n.outline.node = n := by
    cases n with
    | stmt s => exact (node_ofStmt s).trans (h s rfl)
    | expr e => exact node_ofExpr e
    | property p => exact node_ofProperty p
    | classMember m => exact node_ofMember m
    | declarator d => exact node_ofDeclarator d
    | _ => rfl
  exact ⟨⟨by rw [hnode], by rwa [hnode]⟩, hnode⟩

theorem Node.proper_child {c : Node} (h : c ∈ n.children) : c.Proper := by
  obtain ⟨o, ho, rfl⟩ := mem_map.mp h
  exact (regular_children n o ho).proper

theorem Outline.around_of_mem (o : Outline) : o.Regular → ∀ m ∈ o.preorder, o.node.Around m := by
  refine fun ho => regular_induction ho fun top os _ hchildren ih => ?_
  intro m hm
  rw [preorder, preorders_eq] at hm
  rcases mem_cons.mp hm with rfl | hm
  · exact .refl
  · obtain ⟨o, hmem, hm⟩ := mem_flatMap.mp hm
    have hchild : o.node ∈ top.children := hchildren ▸ mem_map_of_mem hmem
    exact ReflTransGen.head hchild ((ih o hmem).2 m hm)

theorem Node.mem_preorder_iff {m : Node} (hn : n.Proper) : m ∈ n.outline.preorder ↔ n.Around m := by
  obtain ⟨hregular, hnode⟩ := hn.regular
  refine ⟨fun h => ?_, fun h => ?_⟩
  · have := n.outline.around_of_mem hregular m h
    rwa [hnode] at this
  · induction h with
    | refl =>
      generalize n.outline = o at hnode
      obtain ⟨top, os⟩ := o
      rw [← hnode]
      exact mem_cons_self
    | tail _ hc ih =>
      rw [← map_fst_links _ none] at ih ⊢
      obtain ⟨l, hl, rfl⟩ := mem_map.mp ih
      exact mem_map_of_mem ((link_of_mem _ hregular _ _ _ hl).children _ hc)

theorem Covers.around {table : NodeId → Option Node} (hc : Covers table) {m : Node}
    (hn : Held table n) (h : n.Around m) : Held table m := by
  induction h with
  | refl => exact hn
  | tail _ hchild ih => exact hc.child ih hchild

theorem Outline.part_of_child {c : Node} (hexpr : n.isExpr = true) (hsimple : n.isSimple = true)
    (hc : c ∈ n.children) (o : Outline) : o.Regular → n ∈ o.preorder → Part c.outline [o] := by
  refine fun ho => regular_induction ho fun top os _ hchildren ih => ?_
  intro hn
  rw [preorder, preorders_eq] at hn
  rcases mem_cons.mp hn with rfl | hn
  · refine .child mem_cons_self hexpr hsimple ?_
    rw [hchildren] at hc
    obtain ⟨o, hmem, rfl⟩ := mem_map.mp hc
    rw [(ih o hmem).1.outline]
    exact hmem
  · obtain ⟨o, hmem, hn⟩ := mem_flatMap.mp hn
    exact .inner mem_cons_self
      (((ih o hmem).2 hn).mono fun o' ho' => mem_singleton.mp ho' ▸ hmem)

theorem Outline.mem_nodeSet_iff {os : List Outline} :
    n ∈ nodeSet os ↔ ∃ o ∈ os, n ∈ o.preorder := by
  induction os with
  | nil => simp [nodeSet_nil]
  | cons o os ih =>
    rw [← singleton_append, mem_nodeSet_append, ih]
    simp [nodeSet, nodes]

/-! ## Reading a module -/

theorem Symbols.Scoped.global_lt (ht : t.Scoped) : globalScope < t.scopes.size := by
  refine Nat.not_le.mp fun hle => ?_
  have hkind := ht.global.1
  rw [kind?_of_le hle] at hkind
  cases hkind

theorem ParserState.Fine.start {s : ParserState} (hscope : s.scope = t.scopes.size)
    (hsymbols : s.symbols = (t.addScope .module globalScope module).2) (ht : t.Scoped)
    (hnested : t.Nested) (hdeclared : ∀ {d v}, t.Declares d v → d < s.nextNode) :
    s.Fine ∧ s.symbols.chain s.scope = [t.scopes.size, globalScope] := by
  have hgrows : Entered module t (t.addScope .module globalScope module).2
      fun _ _ => False := .addScope _ _ (by decide) fun _ => rfl
  have hglobal : t.chain globalScope = [globalScope] := by
    rw [chain_eq, ht.global.2]
  refine ⟨⟨?_, fun σ r hr => ?_, ?_, fun hd => ?_⟩, ?_⟩
  · rw [hsymbols]
    exact hgrows.keeps ht
  · rw [hsymbols, outerOf_addScope] at hr
    split at hr
    · rename_i heq
      rw [hglobal] at hr
      rw [mem_singleton.mp hr, heq]
      exact ht.global_lt
    · exact hnested σ r hr
  · rw [hscope, hsymbols, scopes_size_addScope]
    exact Nat.lt_succ_self _
  · rw [hsymbols] at hd
    exact hdeclared ((hgrows.declares_or hd).resolve_right id)
  · rw [hscope, hsymbols, chain_eq, outerOf_addScope, if_pos rfl, hglobal]

/-- The nodes of a module see the scopes of this module and the global one, and the parts of its
expressions are sealed. -/
theorem Program.parse_sealed {source defaultName : Bytes} {next : NodeId} {p : Parsed}
    (h : parse source module defaultName t next = .ok p) (ht : t.Scoped)
    (hnested : t.Nested) (hdeclared : ∀ {d v}, t.Declares d v → d < next) :
    p.symbols.Nested ∧
      (∀ n ∈ nodeSet (ofStmts p.program.body), p.symbols.Knows n ∧
        ∀ s, p.symbols.Reaches s n → t.scopes.size ≤ s ∨ s = globalScope) ∧
      ∀ k, Part k (ofStmts p.program.body) → ∃ S : Set ScopeId, (∀ s ∈ S, t.scopes.size ≤ s) ∧
        Seal p.symbols S (nodeSet [k]) (nodeSet (ofStmts p.program.body)) := by
  obtain ⟨s, s', hscope, hnext, hsymbols, -, -, hsymbols', -, hbuilds⟩ := parse_builds h
  obtain ⟨hs, hchain⟩ := ParserState.Fine.start hscope hsymbols ht hnested fun hd => by
    rw [hnext]
    exact Nat.lt_succ_of_lt (hdeclared hd)
  have hsize : s.symbols.scopes.size = t.scopes.size + 1 := by
    rw [hsymbols, scopes_size_addScope]
  obtain ⟨hs', hc, hlaid⟩ := hbuilds.reading hs trivial
  replace hlaid := hlaid (.nil _ _) fun r hr => hs.chain_lt hr
  rw [hsymbols']
  refine ⟨hs'.nested, fun n hn => ⟨(hlaid.known n hn).1, fun r hr => ?_⟩, fun k hk => ?_⟩
  · rcases (hc.alone.reach n hn).2 r hr with hle | hseen
    · exact .inl (by omega)
    · have hr : r ∈ s.symbols.chain s.scope := hseen
      rw [hchain] at hr
      rcases mem_cons.mp hr with rfl | hr
      · exact .inl (Nat.le_refl _)
      · exact .inr (mem_singleton.mp hr)
  · obtain ⟨S, hS, hseal⟩ := hlaid.parts k (.inl hk)
    exact ⟨S, fun r hr => by have := hS r hr; omega, hseal⟩

/-! ## Graphs -/

/-- Scopes are nested, nodes know the scopes and variables they speak of, names mean variables that
they can reach, and the parts of expressions are sealed. -/
structure Graph.Sealed (g : Graph) : Prop where
  nested : g.symbols.Nested
  known : ∀ {n}, Held g.node? n → g.symbols.Knows n
  means : ∀ {n v}, Held g.node? n → g.resolution n.id = .bound v → g.Means n v
  parts : ∀ {n c}, Held g.node? n → n.isExpr = true → n.isSimple = true → c ∈ n.children →
    ∃ S : Set ScopeId, Symbols.globalScope ∉ S ∧
      Seal g.symbols S { r | c.Around r } { r | Held g.node? r }

theorem Graph.Aloft.settled {v : VarId} (hv : g.Aloft v) (h : g.symbols.Settled g'.symbols) :
    g'.Aloft v := by
  intro s d hs hd
  by_cases hglobal : s = globalScope
  · exact .inr hglobal
  · rw [h.kinds]
    exact hv s d ((h.holds hglobal).mp hs) (h.declares hd)

theorem Evolves.settled (h : Evolves g g') : g.symbols.Settled g'.symbols := by
  refine .of_scopes h.scopes (Nat.not_lt.mp fun hlt => Nat.lt_irrefl _ (h.lt hlt))
    fun {v w' d} hw' hd => ?_
  rcases h.var_cases hw' with ⟨w, hw, hv⟩ | ⟨w, hw, hv⟩
  · exact ⟨w, hw, hv.declarations ▸ hd⟩
  · rw [hv.declarations, hw.declarations] at hd
    cases hd

namespace Graph.Sealed

variable {g g' : Graph} {n c d : Node} {v : VarId}

/-- A variable that is declared inside a part of an expression is no export and no global. -/
theorem not_aloft (hg : g.Sealed) (hn : Held g.node? n) (hexpr : n.isExpr = true)
    (hsimple : n.isSimple = true) (hc : c ∈ n.children) (hd : c.Around d)
    (hv : g.symbols.Declares d.id v) : ¬ g.Aloft v := by
  intro haloft
  obtain ⟨S, hglobal, hseal⟩ := hg.parts hn hexpr hsimple hc
  obtain ⟨s, hs, hholds⟩ := hseal.declared d hd v hv
  rcases haloft s d.id hholds hv with hkind | rfl
  · exact hseal.kinds s hs hkind
  · exact hglobal hs

/-- A variable that is declared inside a part of an expression is named inside of it only. -/
theorem inside (hg : g.Sealed) (htable : g.symbols.Scoped) (hn : Held g.node? n)
    (hexpr : n.isExpr = true) (hsimple : n.isSimple = true) (hc : c ∈ n.children)
    (hd : c.Around d) (hv : g.symbols.Declares d.id v) {r : Node} (hr : Held g.node? r)
    (hname : g.namedVar? r = some v) : c.Around r := by
  obtain ⟨S, hglobal, hseal⟩ := hg.parts hn hexpr hsimple hc
  obtain ⟨s, hs, hholds⟩ := hseal.declared d hd v hv
  suffices hreach : g.symbols.Reaches s r from hseal.reach r hr s hs hreach
  have hmeans : g.resolution r.id = .bound v → g.symbols.Reaches s r := by
    intro hres
    rcases hg.means hr hres with haloft | ⟨s', hreach, hholds'⟩
    · exact absurd haloft (hg.not_aloft hn hexpr hsimple hc hd hv)
    · rwa [← htable.once hholds' hholds]
  cases r with
  | binder b =>
    cases hname
    exact .inr ⟨b, rfl, hholds⟩
  | _ =>
    refine hmeans ?_
    simp only [Graph.namedVar?] at hname
    split at hname
    · cases hname
      assumption
    · cases hname

/-! ### Resolving and analysing -/

theorem means_settled (htable : g.symbols.Scoped) (h : g.symbols.Settled g'.symbols)
    (hv : g.Means n v) : g'.Means n v := by
  rcases hv with hv | ⟨s, hreach, hholds⟩
  · exact .inl (hv.settled h)
  · by_cases hglobal : s = globalScope
    · -- What the global scope holds stands above, and nowhere else.
      refine .inl (Graph.Aloft.settled (fun r d hr _ => .inr ?_) h)
      exact (htable.once hr hholds).trans hglobal
    · refine .inr ⟨s, ?_, (h.holds hglobal).mpr hholds⟩
      rcases hreach with ⟨r, hr, hs⟩ | ⟨b, rfl, hs⟩
      · exact .inl ⟨r, hr, by rwa [chain_eq, h.outer]⟩
      · exact .inr ⟨b, rfl, (h.holds hglobal).mpr hs⟩

/-- Where scopes and nodes stay, sealed parts do, as long as names mean what they can reach. -/
theorem settled (hg : g.Sealed) (htable : g.symbols.Scoped) (h : g.symbols.Settled g'.symbols)
    (hnode : g'.node? = g.node?) (hresolution : ∀ {n v}, Held g.node? n →
      g'.resolution n.id = .bound v → g.resolution n.id = .bound v ∨ g.Means n v) : g'.Sealed where
  nested := fun s r hr => hg.nested s r (h.outer s ▸ hr)
  known := fun {n} hn => by
    rw [hnode] at hn
    exact ⟨fun r hr => h.size ▸ (hg.known hn).1 r hr,
      fun v hv => Nat.lt_of_lt_of_le ((hg.known hn).2 v hv) h.vars⟩
  means := fun {n v} hn hv => by
    rw [hnode] at hn
    exact means_settled htable h ((hresolution hn hv).elim (hg.means hn) id)
  parts := fun {n c} hn hexpr hsimple hc => by
    rw [hnode] at hn ⊢
    obtain ⟨S, hglobal, hseal⟩ := hg.parts hn hexpr hsimple hc
    have hne : ∀ s ∈ S, s ≠ globalScope := fun s hs heq => hglobal (heq ▸ hs)
    refine ⟨S, hglobal, fun s hs => h.size ▸ hseal.lt s hs, fun s hs => h.kinds s ▸ hseal.kinds s hs,
      fun d hd v hv => ?_, fun r hr s hs hreach => hseal.reach r hr s hs ?_⟩
    · obtain ⟨s, hs, hholds⟩ := hseal.declared d hd v (h.declares hv)
      exact ⟨s, hs, (h.holds (hne s hs)).mpr hholds⟩
    · rcases hreach with ⟨q, hq, hs'⟩ | ⟨b, rfl, hs'⟩
      · exact .inl ⟨q, hq, by rwa [chain_eq, h.outer] at hs'⟩
      · exact .inr ⟨b, rfl, (h.holds (hne s hs)).mp hs'⟩

theorem evolves (hg : g.Sealed) (hsound : g.Sound) (h : Evolves g g') : g'.Sealed := by
  refine hg.settled hsound.linkable.arranged.symbols h.settled (node?_of_frame h.frame)
    fun _ hv => .inl ?_
  rwa [resolution_of_frame h.frame] at hv

end Graph.Sealed

theorem Graph.Resolves.sealed (h : g.Resolves g') (hlink : Linkable g) (hg : g.Sealed) :
    g'.Sealed := by
  obtain ⟨hsettled, hnode⟩ := h.settles hlink
  refine hg.settled hlink.arranged.symbols hsettled hnode fun {n v} hn hv => ?_
  cases h with
  | imported m name =>
    exact .inl (by rwa [resolution_congr (traceImport_links m name g hlink).1.nodes] at hv)
  | member m key =>
    exact .inl (by rwa [resolution_congr (namespaceMember?_links m key g hlink).1.nodes] at hv)
  | @settled m r hm hmeans =>
    rw [resolution_setResolution g r n.id (by rw [hm]; rfl)] at hv
    split at hv
    · rename_i heq
      have hsame : n = m := Option.some.inj (hn.symm.trans (heq ▸ hm))
      exact .inr (hsame ▸ hmeans v hv)
    · exact .inl hv
  | _ => exact .inl hv

/-! ### Loading -/

namespace Graph

variable {g g' : Graph}

theorem mem_nodeSet_body : n ∈ nodeSet (ofStmts p.body) ↔ n ∈ nodesOf Stmt.nodes p.body := by
  show n ∈ nodesOf Outline.nodes (ofStmts p.body) ↔ _
  rw [ofStmts_eq, nodesOf_map]
  rfl

theorem Added.held_cases (h : g.Added g' owner p) (hn : Held g'.node? n) :
    Held g.node? n ∨ n = .program p ∨ n ∈ nodeSet (ofStmts p.body) := by
  by_cases hlt : n.id < g.nodes.size
  · refine .inl ?_
    rwa [Held, Graph.node?, h.old hlt] at hn
  · obtain ⟨r, hr, hnode⟩ := Option.map_eq_some_iff.mp hn
    obtain ⟨-, -, hmem⟩ := h.new hr (Nat.not_lt.mp hlt)
    have hpre : n ∈ (ofProgram p).preorder := by
      rw [← map_fst_links _ none, ← hnode]
      exact mem_map_of_mem hmem
    rw [← Multiset.mem_coe, nodes_eq] at hpre
    exact .inr ((Multiset.mem_add.mp hpre).imp Multiset.mem_singleton.mp mem_nodeSet_body.mpr)

theorem Added.held_new (h : g.Added g' owner p) (hn : n ∈ nodeSet (ofStmts p.body)) :
    Held g'.node? n ∧ g.nodes.size ≤ n.id := by
  obtain ⟨q, hl⟩ := link_of_mem (mem_nodeSet_body.mp hn)
  obtain ⟨hr, hle⟩ := h.mem hl
  exact ⟨by rw [Held, Graph.node?, hr]; rfl, hle⟩

theorem lt_of_held (hn : Held g.node? n) : n.id < g.nodes.size := by
  obtain ⟨r, hr, -⟩ := Option.map_eq_some_iff.mp hn
  exact (Array.getElem?_eq_some_iff.mp hr).1

theorem Sealed.gains {source defaultName : Bytes} {p : Parsed} (hg : g.Sealed)
    (hloading : g.Loading) (hnothing : ∀ k, g'.resolution k = .nothing)
    (hparse : parse source owner defaultName g.symbols g.nodes.size = .ok p)
    (h : g.Gains g' owner p) : g'.Sealed := by
  have hp := parse_numbered hparse
  have hadded := h.added hp
  have htable := hloading.linkable.arranged.symbols
  obtain ⟨hnested, hnew, hparts⟩ := parse_sealed hparse htable hg.nested fun hd => by
    obtain ⟨w, hw, hd⟩ := hd
    obtain ⟨n, hn, -⟩ := hloading.named.declarations hw hd
    exact hloading.placed.covers.own hn ▸ lt_of_held (hloading.placed.covers.held hn)
  have hprogram : p.symbols.Knows (.program p.program) ∧
      ∀ s, ¬ p.symbols.Reaches s (.program p.program) := by
    refine ⟨⟨fun r hr => (by cases hr), fun v hv => by cases hv⟩, fun s hs => ?_⟩
    rcases hs with ⟨r, hr, -⟩ | ⟨b, hb, -⟩
    · cases hr
    · cases hb
  rw [← h.symbols] at hnested hnew hparts hprogram
  have hgrows := hp.entered
  rw [← h.symbols] at hgrows
  refine ⟨hnested, fun {n} hn => ?_, fun {n v} hn hv => ?_, fun {n c} hn hexpr hsimple hc => ?_⟩
  · rcases hadded.held_cases hn with hn | rfl | hn
    · exact hgrows.knows (hg.known hn)
    · exact hprogram.1
    · exact (hnew n hn).1
  · rw [hnothing] at hv
    cases hv
  · rcases hadded.held_cases hn with hold | rfl | hn
    · -- What is new sees scopes of its own and the global one.
      obtain ⟨S, hglobal, hseal⟩ := hg.parts hold hexpr hsimple hc
      refine ⟨S, hglobal, hseal.grow hgrows (fun r hr => hg.known hr) (fun r hr v hd => ?_)
        fun r hr => ?_⟩
      · obtain ⟨d, hd, heq, -⟩ := hd
        have hr' := hloading.placed.covers.around (hloading.placed.covers.child hold hc) hr
        have hle := (hadded.held_new (mem_nodeSet_body.mpr hd)).2
        rw [heq] at hle
        exact absurd (lt_of_held hr') (Nat.not_lt.mpr hle)
      · rcases hadded.held_cases hr with hr | rfl | hr
        · exact .inl hr
        · exact .inr fun s _ => hprogram.2 s
        · refine .inr fun s hs hreach => ?_
          rcases (hnew r hr).2 s hreach with hle | rfl
          · exact absurd (hseal.lt s hs) (Nat.not_lt.mpr hle)
          · exact hglobal hs
    · cases hexpr
    · -- What was there sees scopes that were there.
      have hpart : Part c.outline (ofStmts p.program.body) := by
        obtain ⟨o, ho, hn⟩ := mem_nodeSet_iff.mp hn
        have hregular : o.Regular := by
          rw [ofStmts_eq] at ho
          exact regular_map regular_ofStmt _ o ho
        exact (part_of_child hexpr hsimple hc o hregular hn).mono fun o' ho' =>
          mem_singleton.mp ho' ▸ ho
      obtain ⟨S, hS, hseal⟩ := hparts _ hpart
      have hinside : nodeSet [c.outline] = { r | c.Around r } := by
        ext r
        show _ ↔ c.Around r
        rw [mem_nodeSet_iff, ← Node.mem_preorder_iff (Node.proper_child hc)]
        simp
      rw [hinside] at hseal
      refine ⟨S, fun hglobal => ?_, hseal.lt, hseal.kinds, hseal.declared,
        fun r hr s hs hreach => ?_⟩
      · exact absurd htable.global_lt (Nat.not_lt.mpr (hS _ hglobal))
      · rcases hadded.held_cases hr with hr | rfl | hr
        · have hlt := (hgrows.reaches (hg.known hr) hreach).lt hg.nested (hg.known hr)
          exact absurd (hS s hs) (Nat.not_le.mpr hlt)
        · exact absurd hreach (hprogram.2 s)
        · exact hseal.reach r hr s hs hreach

theorem Sealed.start (o : BuildOptions) : o.start.Sealed where
  nested := fun s r hr => by
    rcases s with _ | s <;> cases hr
  known := fun hn => by cases hn
  means := fun hn => by cases hn
  parts := fun hn => by cases hn

theorem Loads.nothing (h : g.Loads g') (hg : ∀ k, g.resolution k = .nothing) (k : NodeId) :
    g'.resolution k = .nothing := by
  cases h with
  | arranged hrest =>
    rw [resolution_congr (by rw [hrest])]
    exact hg k
  | revised m hf => exact hg k
  | @entered _ path source p mod hparse hdeclare hloaded =>
    have hadded := hloaded.toGains.added (parse_numbered hparse)
    by_cases hlt : k < g.nodes.size
    · rw [Graph.resolution, hadded.old hlt]
      exact hg k
    · cases hr : g'.record? k with
      | none => rw [Graph.resolution, hr]; rfl
      | some r =>
        rw [Graph.resolution, hr, (hadded.new hr (Nat.not_lt.mp hlt)).1]
        rfl

theorem Loads.sealed (h : g.Loads g') (hloading : g.Loading)
    (hnothing : ∀ k, g.resolution k = .nothing) (hg : g.Sealed) : g'.Sealed := by
  have hsame : g'.symbols = g.symbols → g'.nodes = g.nodes → g'.Sealed := by
    intro hsymbols hnodes
    refine hg.settled hloading.linkable.arranged.symbols (hsymbols ▸ .refl _) (node?_congr hnodes)
      fun _ hv => .inl ?_
    rwa [resolution_congr hnodes] at hv
  cases h with
  | arranged hrest => exact hsame (by rw [hrest]) (by rw [hrest])
  | revised m hf => exact hsame rfl rfl
  | entered hparse hdeclare hloaded =>
    exact hg.gains hloading (Loads.nothing (.entered hparse hdeclare hloaded) hnothing) hparse
      hloaded.toGains

theorem BuiltFrom.sealed {files : Files} {entries : List Bytes} {o : BuildOptions}
    (h : g.BuiltFrom files entries o) : g.Sealed := by
  refine h.induction (fun loaded hload => ?_) fun hlink hg hstep => hstep.sealed hlink hg
  refine (loaded_induction (P := fun g => g.Sealed ∧ ∀ k, g.resolution k = .nothing) hload
    ⟨.start o, fun _ => rfl⟩ fun hloading hg hstep => ?_).2.1
  exact ⟨hstep.sealed hloading hg.2 hg.1, hstep.nothing hg.2⟩

end Graph

end Winnow
