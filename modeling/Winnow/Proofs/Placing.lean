import Winnow.Proofs.Numbering

/-!
# Where nodes stand

Adding a parsed program to a graph puts every node of it under its own number, below the node it is
a child of. `Graph.Placed` says this of all nodes of a graph, `Placed.addProgram` that adding a
program keeps it.
-/

namespace Winnow

open Outline List

/-! ## Outlines -/

/-- Functions and classes are nodes as the expressions they are. -/
def Node.Proper (n : Node) : Prop := ∀ s, n = .stmt s → Node.ofStmt s = .stmt s

namespace Outline

theorem below_induction {P : Outline → Prop} (h : ∀ n os, (∀ o ∈ os, P o) → P (mk n os)) :
    ∀ o, P o
  | mk n os => h n os fun o _ => below_induction h o

/-- The outline of a node that may stand in a table. -/
structure Regular (o : Outline) : Prop where
  outline : o.node.outline = o
  proper : o.node.Proper

theorem regular_ofBinder (b : Binder) : (ofBinder b).Regular := ⟨rfl, nofun⟩

theorem regular_ofExpr (e : Expr) : (ofExpr e).Regular :=
  ⟨by rw [node_ofExpr]; rfl, by rw [node_ofExpr]; exact nofun⟩

theorem regular_ofProperty (p : Property) : (ofProperty p).Regular :=
  ⟨by rw [node_ofProperty]; rfl, by rw [node_ofProperty]; exact nofun⟩

theorem regular_ofMember (m : ClassMember) : (ofMember m).Regular :=
  ⟨by rw [node_ofMember]; rfl, by rw [node_ofMember]; exact nofun⟩

theorem regular_ofDeclarator (d : Declarator) : (ofDeclarator d).Regular :=
  ⟨by rw [node_ofDeclarator]; rfl, by rw [node_ofDeclarator]; exact nofun⟩

theorem regular_ofStmt (s : Stmt) : (ofStmt s).Regular := by
  refine ⟨?_, ?_⟩
  · rw [node_ofStmt]
    cases s <;> rfl
  · rw [node_ofStmt]
    intro t ht
    cases s <;> cases ht <;> rfl

theorem regular_ofBody (b : FuncBody) : (ofBody b).Regular := by
  cases b with
  | block i ss => exact regular_ofStmt (.block i ss)
  | result e => exact regular_ofExpr e

theorem regular_map {α : Type} {f : α → Outline} (hf : ∀ a, (f a).Regular) (l : List α) :
    ∀ o ∈ l.map f, o.Regular := by
  intro o ho
  obtain ⟨a, -, rfl⟩ := mem_map.mp ho
  exact hf a

theorem regular_children_func (f : Func) : ∀ o ∈ (ofFunc f).children, o.Regular := by
  obtain ⟨i, k, n, ps, s, rs, b⟩ := f
  intro o ho
  change o ∈ n.toList.map ofBinder ++ ps.map ofBinder ++ [ofBody b] at ho
  simp only [mem_append, mem_singleton] at ho
  rcases ho with (ho | ho) | rfl
  · exact regular_map regular_ofBinder _ o ho
  · exact regular_map regular_ofBinder _ o ho
  · exact regular_ofBody b

theorem regular_children_class (c : ClassDef) : ∀ o ∈ (ofClass c).children, o.Regular := by
  obtain ⟨i, d, n, p, ms, s⟩ := c
  intro o ho
  change o ∈ n.toList.map ofBinder ++ ofOptionalExpr p ++ ofMembers ms at ho
  simp only [mem_append, ofOptionalExpr_eq, ofMembers_eq] at ho
  rcases ho with (ho | ho) | ho
  · exact regular_map regular_ofBinder _ o ho
  · exact regular_map regular_ofExpr _ o ho
  · exact regular_map regular_ofMember _ o ho

theorem regular_children_expr (e : Expr) : ∀ o ∈ (ofExpr e).children, o.Regular := by
  cases e with
  | ident n => exact nofun
  | receiver i s => exact nofun
  | literal i v raw => exact nofun
  | function f => exact regular_children_func f
  | classDef c => exact regular_children_class c
  | object i ps =>
    show ∀ o ∈ ofProperties ps, o.Regular
    rw [ofProperties_eq]
    exact regular_map regular_ofProperty ps
  | call i w f as =>
    show ∀ o ∈ ofExpr f :: ofExprs as, o.Regular
    rw [ofExprs_eq]
    exact regular_map regular_ofExpr (f :: as)
  | member i a k | unary i op a => exact regular_map regular_ofExpr [a]
  | index i a b | binary i op a b | logical i op a b | assign i op a b =>
    exact regular_map regular_ofExpr [a, b]
  | conditional i t a b => exact regular_map regular_ofExpr [t, a, b]

theorem regular_children_stmt (s : Stmt) : ∀ o ∈ (ofStmt s).children, o.Regular := by
  cases s with
  | function f => exact regular_children_func f
  | classDef c => exact regular_children_class c
  | branch i t c a =>
    show ∀ o ∈ ofExpr t :: ofStmt c :: ofOptionalStmt a, o.Regular
    rw [ofOptionalStmt_eq]
    exact forall_mem_cons.mpr ⟨regular_ofExpr t, regular_map regular_ofStmt (c :: a.toList)⟩
  | ret i a =>
    show ∀ o ∈ ofOptionalExpr a, o.Regular
    rw [ofOptionalExpr_eq]
    exact regular_map regular_ofExpr _
  | block i ss =>
    show ∀ o ∈ ofStmts ss, o.Regular
    rw [ofStmts_eq]
    exact regular_map regular_ofStmt ss
  | declaration i k ds =>
    show ∀ o ∈ ofDeclarators ds, o.Regular
    rw [ofDeclarators_eq]
    exact regular_map regular_ofDeclarator ds
  | expression i e | raise i e | exportDefault i v e => exact regular_map regular_ofExpr [e]
  | exportDeclaration i d => exact regular_map regular_ofStmt [d]
  | _ => exact nofun

theorem regular_children (n : Node) : ∀ o ∈ n.outline.children, o.Regular := by
  cases n with
  | program p =>
    show ∀ o ∈ ofStmts p.body, o.Regular
    rw [ofStmts_eq]
    exact regular_map regular_ofStmt p.body
  | stmt s => exact regular_children_stmt s
  | expr e => exact regular_children_expr e
  | binder b => exact nofun
  | property p =>
    obtain ⟨i, k, f, v⟩ := p
    exact regular_map regular_ofExpr [v]
  | classMember m =>
    obtain ⟨i, k, st, key, v⟩ := m
    show ∀ o ∈ ofOptionalExpr v, o.Regular
    rw [ofOptionalExpr_eq]
    exact regular_map regular_ofExpr _
  | declarator d =>
    obtain ⟨i, n, v⟩ := d
    show ∀ o ∈ ofBinder n :: ofOptionalExpr v, o.Regular
    rw [ofOptionalExpr_eq]
    exact forall_mem_cons.mpr ⟨regular_ofBinder n, regular_map regular_ofExpr _⟩

/-- The children of a regular outline are regular, and stand for the children of its node. -/
@[elab_as_elim]
theorem regular_induction {P : Outline → Prop} {o : Outline} (ho : o.Regular)
    (h : ∀ n os, (mk n os).Regular → n.children = os.map node → (∀ o ∈ os, o.Regular ∧ P o) →
      P (mk n os)) : P o := by
  induction o using below_induction with
  | h n os ih =>
    have houtline : n.outline = mk n os := ho.outline
    have hregular := regular_children n
    rw [houtline] at hregular
    refine h n os ho ?_ fun o hmem => ⟨hregular o hmem, ih o hmem (hregular o hmem)⟩
    rw [Node.children, houtline]
    rfl

theorem linksBelow_eq (parent : NodeId) (os : List Outline) :
    linksBelow parent os = os.flatMap (links (some parent)) := by
  induction os with
  | nil => rfl
  | cons o os ih => simp [linksBelow, ih]

theorem preorders_eq (os : List Outline) : preorders os = os.flatMap preorder := by
  induction os with
  | nil => simp [preorders]
  | cons o os ih => simp [preorders, ih]

theorem map_fst_links (o : Outline) : ∀ parent, (links parent o).map Prod.fst = o.preorder := by
  induction o using below_induction with
  | h n os ih =>
    intro parent
    rw [links, preorder, map_cons, linksBelow_eq, preorders_eq, map_flatMap]
    congr 1
    exact flatMap_congr fun o ho => ih o ho _

/-- What a link of an outline stands for: the node comes with its children, and with the node it is
a child of unless it is at the top. -/
structure Link (o : Outline) (parent : Option NodeId) (n : Node) (p : Option NodeId) : Prop where
  proper : n.Proper
  children : ∀ c ∈ n.children, (c, some n.id) ∈ links parent o
  parent : (n = o.node ∧ p = parent) ∨
    ∃ m q, (m, q) ∈ links parent o ∧ p = some m.id ∧ n ∈ m.children
  within : List.Sublist n.outline.preorder o.preorder

theorem link_of_mem (o : Outline) : o.Regular → ∀ parent n p, (n, p) ∈ links parent o →
    Link o parent n p := by
  refine fun ho => regular_induction ho fun top os ho hchildren ih => ?_
  intro parent n p hmem
  have hlinks : links parent (mk top os) =
      (top, parent) :: os.flatMap (links (some top.id)) := by rw [links, linksBelow_eq]
  have hbelow : ∀ o ∈ os, ∀ l ∈ links (some top.id) o, l ∈ links parent (mk top os) := by
    intro o ho l hl
    rw [hlinks]
    exact mem_cons_of_mem _ (mem_flatMap.mpr ⟨o, ho, hl⟩)
  have htop : ∀ o : Outline, ∀ q, (o.node, q) ∈ links q o := by
    rintro ⟨m, cs⟩ q
    exact mem_cons_self
  rw [hlinks] at hmem
  rcases mem_cons.mp hmem with heq | hmem
  · cases heq
    refine ⟨ho.proper, fun c hc => ?_, .inl ⟨rfl, rfl⟩, ?_⟩
    · rw [hchildren] at hc
      obtain ⟨o, ho, rfl⟩ := mem_map.mp hc
      exact hbelow o ho _ (htop o _)
    · rw [show top.outline = mk top os from ho.outline]
  · obtain ⟨o, ho', hmem⟩ := mem_flatMap.mp hmem
    have hlink := (ih o ho').2 _ n p hmem
    refine ⟨hlink.proper, fun c hc => hbelow o ho' _ (hlink.children c hc), .inr ?_, ?_⟩
    · rcases hlink.parent with ⟨rfl, rfl⟩ | ⟨m, q, hm, hp, hn⟩
      · exact ⟨top, parent, by rw [hlinks]; exact mem_cons_self, rfl,
          by rw [hchildren]; exact mem_map_of_mem ho'⟩
      · exact ⟨m, q, hbelow o ho' _ hm, hp, hn⟩
    · refine hlink.within.trans (List.Sublist.trans ?_ (sublist_cons_self _ _))
      rw [preorders_eq]
      exact sublist_flatten_of_mem (mem_map_of_mem ho')

end Outline

/-! ## Adding a program -/

def placeAll (module : Option ModuleId) (links : List (Node × Option NodeId))
    (room : Array NodeRecord) : Array NodeRecord :=
  links.foldl (fun nodes link =>
    nodes.setIfInBounds link.1.id { node := link.1, parent := link.2, module }) room

section

variable {module : Option ModuleId}

theorem size_placeAll (links : List (Node × Option NodeId)) :
    ∀ room, (placeAll module links room).size = room.size := by
  induction links with
  | nil => exact fun _ => rfl
  | cons l links ih => exact fun room => (ih _).trans Array.size_setIfInBounds

theorem placeAll_other {links : List (Node × Option NodeId)} {k : NodeId}
    (hk : ∀ l ∈ links, l.1.id ≠ k) : ∀ room, (placeAll module links room)[k]? = room[k]? := by
  induction links with
  | nil => exact fun _ => rfl
  | cons l links ih =>
    intro room
    obtain ⟨hl, hlinks⟩ := forall_mem_cons.mp hk
    exact (ih hlinks _).trans (Array.getElem?_setIfInBounds_ne hl)

theorem placeAll_mem {links : List (Node × Option NodeId)}
    (hnodup : (links.map fun l => l.1.id).Nodup) {n : Node} {p : Option NodeId}
    (hmem : (n, p) ∈ links) : ∀ room, n.id < room.size →
      (placeAll module links room)[n.id]? = some { node := n, parent := p, module } := by
  induction links with
  | nil => cases hmem
  | cons l links ih =>
    intro room hsize
    obtain ⟨hfirst, hrest⟩ := nodup_cons.mp hnodup
    rcases mem_cons.mp hmem with rfl | hmem
    · refine (placeAll_other (fun l hl heq => hfirst ?_) (room.setIfInBounds n.id _)).trans
        (Array.getElem?_setIfInBounds_self_of_lt hsize)
      exact mem_map.mpr ⟨l, hl, heq⟩
    · exact ih hrest hmem _ (by rw [Array.size_setIfInBounds]; exact hsize)

theorem Program.nodes_eq (p : Program) :
    (↑(ofProgram p).preorder : Multiset Node) =
      {.program p} + nodesOf Stmt.nodes p.body := by
  refine (nodes_mk (.program p) (ofStmts p.body)).trans ?_
  rw [ofStmts_eq, nodesOf_map]
  rfl

/-- The nodes of a parsed program have the numbers from the given one on, each once. -/
theorem Parsed.Numbered.perm {t : Symbols} {next : NodeId} {p : Parsed}
    (h : p.Numbered module t next) :
    ((ofProgram p.program).preorder.map Node.id).Perm
      (range' next (p.nextNode - next)) := by
  have hsize : p.nextNode - next = (nodesOf Stmt.nodes p.program.body).card + 1 := by
    rw [h.after, Nat.add_assoc, Nat.add_sub_cancel_left, Nat.add_comm]
  rw [← Multiset.coe_eq_coe, ← Multiset.map_coe, Program.nodes_eq, Multiset.map_add,
    Multiset.map_singleton, h.ids, hsize,
    Multiset.singleton_add]
  exact congrArg (· ::ₘ _) h.root

/-- What adding a parsed program does to the table of nodes. -/
structure Graph.Added (g g' : Graph) (module : Option ModuleId) (p : Program) : Prop where
  old : ∀ {k}, k < g.nodes.size → g'.record? k = g.record? k
  new : ∀ {k r}, g'.record? k = some r → g.nodes.size ≤ k →
    r = { node := r.node, parent := r.parent, module } ∧ r.node.id = k ∧
      (r.node, r.parent) ∈ (Outline.ofProgram p).links none
  mem : ∀ {n q}, (n, q) ∈ (Outline.ofProgram p).links none →
    g'.record? n.id = some { node := n, parent := q, module } ∧ g.nodes.size ≤ n.id
  nodup : ((Outline.ofProgram p).preorder.map Node.id).Nodup

theorem Graph.addProgram_added {g : Graph} {t : Symbols} {p : Parsed}
    (h : p.Numbered module t g.nodes.size) :
    g.Added (g.addProgram p.program p.nextNode module) module p.program := by
  let links := (ofProgram p.program).links none
  let room := g.nodes ++ Array.replicate (p.nextNode - g.nodes.size) default
  have hids : links.map (fun l => l.1.id) = (ofProgram p.program).preorder.map Node.id := by
    rw [← map_fst_links _ none, map_map]
    rfl
  have hnodup : (links.map fun l => l.1.id).Nodup := by
    rw [hids]
    exact h.perm.nodup_iff.mpr nodup_range'
  have hrange : ∀ k, (∃ l ∈ links, l.1.id = k) ↔ g.nodes.size ≤ k ∧ k < room.size := by
    intro k
    have hmem : k ∈ links.map (fun l => l.1.id) ↔ k ∈ range' g.nodes.size
        (p.nextNode - g.nodes.size) := by rw [hids]; exact h.perm.mem_iff
    rw [mem_map] at hmem
    rw [hmem]
    simp [room]
  have hrecord : ∀ k, (g.addProgram p.program p.nextNode module).record? k =
      (placeAll module links room)[k]? := fun _ => rfl
  have hold : ∀ {k}, k < g.nodes.size → (placeAll module links room)[k]? = g.record? k := by
    intro k hk
    rw [placeAll_other fun l hl heq => absurd ((hrange k).mp ⟨l, hl, heq⟩).1 (Nat.not_le.mpr hk)]
    exact Array.getElem?_append_left hk
  have hmem : ∀ {n q}, (n, q) ∈ links → (placeAll module links room)[n.id]? =
      some { node := n, parent := q, module } := fun hl =>
    placeAll_mem hnodup hl _ ((hrange _).mp ⟨_, hl, rfl⟩).2
  refine ⟨fun hk => (hrecord _).trans (hold hk), fun {k r} hr hk => ?_, fun hl => ?_, ?_⟩
  · rw [hrecord] at hr
    have hlt : k < room.size := by
      obtain ⟨hlt, -⟩ := Array.getElem?_eq_some_iff.mp hr
      rwa [size_placeAll] at hlt
    obtain ⟨⟨n, q⟩, hl, rfl⟩ := (hrange k).mpr ⟨hk, hlt⟩
    rw [hmem hl] at hr
    cases hr
    exact ⟨rfl, rfl, hl⟩
  · exact ⟨(hrecord _).trans (hmem hl), ((hrange _).mp ⟨_, hl, rfl⟩).1⟩
  · exact h.perm.nodup_iff.mpr nodup_range'

end

/-! ## Placed nodes -/

/-- Every node stands under its own number in the table of a module's nodes, with its children and
below the node it is a child of. No two nodes below a node share a number. -/
structure Graph.Placed (g : Graph) : Prop where
  own : ∀ {k r}, g.record? k = some r → r.node.id = k
  proper : ∀ {k r}, g.record? k = some r → r.node.Proper
  child : ∀ {k r c}, g.record? k = some r → c ∈ r.node.children →
    ∃ r', g.record? c.id = some r' ∧ r'.node = c ∧ r'.parent = some k
  parent : ∀ {k r p}, g.record? k = some r → r.parent = some p →
    ∃ r', g.record? p = some r' ∧ r.node ∈ r'.node.children
  distinct : ∀ {k r}, g.record? k = some r → (r.node.outline.preorder.map Node.id).Nodup
  program : ∀ {m mod}, g.module? m = some mod →
    ∃ r, g.record? mod.program.info.id = some r ∧ r.node = .program mod.program ∧ r.parent = none

theorem Graph.Added.placed {g g' : Graph} {owner : Option ModuleId} {p : Program} (hg : g.Placed)
    (h : g.Added g' owner p)
    (hmodules : ∀ {k mod}, g'.module? k = some mod → mod.program = p ∨
      ∃ mod', g.module? k = some mod' ∧ mod'.program = mod.program) : g'.Placed := by
  -- A record is one of the old graph or a link of the program.
  have hcases : ∀ {k r}, g'.record? k = some r → g.record? k = some r ∨
      (r.node.id = k ∧ Outline.Link (.ofProgram p) none r.node r.parent) := by
    intro k r hr
    by_cases hk : k < g.nodes.size
    · rw [h.old hk] at hr
      exact .inl hr
    · obtain ⟨-, hid, hmem⟩ := h.new hr (Nat.not_lt.mp hk)
      exact .inr ⟨hid, link_of_mem _ ⟨rfl, fun s hs => by cases hs⟩ _ _ _ hmem⟩
  have hold : ∀ {k r}, g.record? k = some r → g'.record? k = some r := by
    intro k r hr
    obtain ⟨hlt, -⟩ := Array.getElem?_eq_some_iff.mp hr
    rw [h.old hlt, hr]
  refine ⟨?_, ?_, ?_, ?_, ?_, ?_⟩
  · intro k r hr
    rcases hcases hr with hr | ⟨hid, -⟩
    · exact hg.own hr
    · exact hid
  · intro k r hr
    rcases hcases hr with hr | ⟨-, hlink⟩
    · exact hg.proper hr
    · exact hlink.proper
  · intro k r c hr hc
    rcases hcases hr with hr | ⟨rfl, hlink⟩
    · obtain ⟨r', hr', hnode, hparent⟩ := hg.child hr hc
      exact ⟨r', hold hr', hnode, hparent⟩
    · obtain ⟨hr', -⟩ := h.mem (hlink.children c hc)
      exact ⟨_, hr', rfl, rfl⟩
  · intro k r q hr hq
    rcases hcases hr with hr | ⟨-, hlink⟩
    · obtain ⟨r', hr', hmem⟩ := hg.parent hr hq
      exact ⟨r', hold hr', hmem⟩
    · rcases hlink.parent with ⟨-, hnone⟩ | ⟨n, q', hn, hparent, hmem⟩
      · rw [hq] at hnone
        cases hnone
      · obtain ⟨hr', -⟩ := h.mem hn
        rw [hq] at hparent
        cases hparent
        exact ⟨_, hr', hmem⟩
  · intro k r hr
    rcases hcases hr with hr | ⟨-, hlink⟩
    · exact hg.distinct hr
    · exact h.nodup.sublist (hlink.within.map _)
  · intro k mod hmod
    rcases hmodules hmod with rfl | ⟨mod', hmod', hprogram⟩
    · obtain ⟨hr, -⟩ := h.mem
        (by rw [ofProgram]; exact mem_cons_self)
      exact ⟨_, hr, rfl, rfl⟩
    · obtain ⟨r, hr, hnode, hparent⟩ := hg.program hmod'
      rw [hprogram] at hr hnode
      exact ⟨r, hold hr, hnode, hparent⟩

theorem exists_of_map_pair {α β γ : Type} {x y : Option α} {p : α → β} {q : α → γ} {r : α}
    (h : x.map (fun a => (p a, q a)) = y.map fun a => (p a, q a)) (hx : x = some r) :
    ∃ r', y = some r' ∧ p r' = p r ∧ q r' = q r := by
  rw [hx] at h
  obtain ⟨r', hr', heq⟩ := Option.map_eq_some_iff.mp h.symm
  exact ⟨r', hr', Prod.mk.inj heq⟩

theorem Graph.Placed.of_same {g g' : Graph} (hg : g.Placed)
    (hrecords : ∀ k, (g'.record? k).map (fun r => (r.node, r.parent)) =
      (g.record? k).map fun r => (r.node, r.parent))
    (hmodules : ∀ {k mod}, g'.module? k = some mod →
      ∃ mod', g.module? k = some mod' ∧ mod'.program = mod.program) : g'.Placed := by
  have hback : ∀ {k r}, g'.record? k = some r → ∃ r', g.record? k = some r' ∧
      r'.node = r.node ∧ r'.parent = r.parent := exists_of_map_pair (hrecords _)
  have hforth : ∀ {k r}, g.record? k = some r → ∃ r', g'.record? k = some r' ∧
      r'.node = r.node ∧ r'.parent = r.parent := exists_of_map_pair (hrecords _).symm
  refine ⟨?_, ?_, ?_, ?_, ?_, ?_⟩
  · intro k r hr
    obtain ⟨r', hr', hnode, -⟩ := hback hr
    exact hnode ▸ hg.own hr'
  · intro k r hr
    obtain ⟨r', hr', hnode, -⟩ := hback hr
    exact hnode ▸ hg.proper hr'
  · intro k r c hr hc
    obtain ⟨r', hr', hnode, -⟩ := hback hr
    obtain ⟨rc, hrc, hcnode, hcparent⟩ := hg.child hr' (hnode.symm ▸ hc)
    obtain ⟨rc', hrc', hcnode', hcparent'⟩ := hforth hrc
    exact ⟨rc', hrc', hcnode'.trans hcnode, hcparent'.trans hcparent⟩
  · intro k r p hr hp
    obtain ⟨r', hr', hnode, hparent⟩ := hback hr
    obtain ⟨rp, hrp, hmem⟩ := hg.parent hr' (hparent.trans hp)
    obtain ⟨rp', hrp', hpnode, -⟩ := hforth hrp
    exact ⟨rp', hrp', by rw [hpnode, ← hnode]; exact hmem⟩
  · intro k r hr
    obtain ⟨r', hr', hnode, -⟩ := hback hr
    exact hnode ▸ hg.distinct hr'
  · intro k mod hmod
    obtain ⟨mod', hmod', hprogram⟩ := hmodules hmod
    obtain ⟨r, hr, hnode, hparent⟩ := hg.program hmod'
    obtain ⟨r', hr', hnode', hparent'⟩ := hforth hr
    rw [hprogram] at hr' hnode
    exact ⟨r', hr', hnode'.trans hnode, hparent'.trans hparent⟩

theorem Graph.Placed.covers {g : Graph} (hg : g.Placed) : Covers g.node? where
  own := fun {id n} h => by
    obtain ⟨r, hr, rfl⟩ := Option.map_eq_some_iff.mp h
    exact hg.own hr
  proper := fun {id s} h => by
    obtain ⟨r, hr, hnode⟩ := Option.map_eq_some_iff.mp h
    exact hg.proper hr s hnode
  child := fun {n m} h hm => by
    obtain ⟨r, hr, rfl⟩ := Option.map_eq_some_iff.mp h
    obtain ⟨r', hr', rfl, -⟩ := hg.child hr hm
    exact Option.map_eq_some_iff.mpr ⟨r', hr', rfl⟩

theorem Graph.Placed.held_program {g : Graph} (hg : g.Placed) {m : ModuleId} {mod : Module}
    (hm : g.module? m = some mod) : Held g.node? (.program mod.program) := by
  obtain ⟨r, hr, hnode, -⟩ := hg.program hm
  exact Option.map_eq_some_iff.mpr ⟨r, hr, hnode⟩

theorem Outline.map_node_sublist : ∀ os : List Outline, (os.map node).Sublist (preorders os)
  | [] => .slnil
  | o :: os => by
    obtain ⟨n, cs⟩ := o
    exact ((map_node_sublist os).trans (sublist_append_right _ _)).cons_cons n

theorem Graph.Placed.children_nodup {g : Graph} (hg : g.Placed) {n : Node} (hn : Held g.node? n) :
    (n.children.map Node.id).Nodup := by
  obtain ⟨r, hr, rfl⟩ := Option.map_eq_some_iff.mp hn
  refine (hg.distinct hr).sublist (List.Sublist.map _ ?_)
  unfold Node.children
  generalize r.node.outline = o
  obtain ⟨m, os⟩ := o
  exact (map_node_sublist os).cons m

end Winnow
