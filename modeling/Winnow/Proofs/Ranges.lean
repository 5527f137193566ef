import Winnow.Proofs.Placing

/-!
# Ranges and the end of parsing

The nodes of every source that parses have ranges that nest (`ranges_nest`), and of every source,
parsing ends with one fault at a place in it or with all of its tokens consumed (`parse_ends`). Both
are read off the run over a whole module (`Parser.readAll_outcome`).
-/

namespace Winnow

variable {source defaultName : Bytes} {module : Option ModuleId} {symbols : Symbols} {next : NodeId}
  {p : Parsed} {a b : Nat} {os : List Outline}

/-! ## Ranges -/

namespace Spread

theorem mem (h : Spread a os b) : ∀ o ∈ os, a ≤ o.node.start ∧ o.node.stop ≤ b ∧
    o.node.start < o.node.stop ∧ Spread o.node.start o.children o.node.stop := by
  induction h with
  | nil => exact List.forall_mem_nil _
  | cons hstart hlt hbelow hrest _ ih =>
    refine List.forall_mem_cons.mpr ⟨⟨hstart, hrest.le, hlt, hbelow⟩, fun o ho => ?_⟩
    obtain ⟨hle, hrest⟩ := ih o ho
    exact ⟨by omega, hrest⟩

theorem pairwise (h : Spread a os b) : os.Pairwise fun l r => l.node.stop ≤ r.node.start := by
  induction h with
  | nil => exact .nil
  | cons _ _ _ hrest _ ih => exact .cons (fun o ho => (hrest.mem o ho).1) ih

end Spread

/-- The children of a node lie inside its range, one behind the other. -/
structure Node.Nests (n : Node) : Prop where
  inside : ∀ m ∈ n.children, n.start ≤ m.start ∧ m.stop ≤ n.stop
  apart : n.children.Pairwise fun l r => l.stop ≤ r.start

namespace Outline

theorem nests_of_spread {o : Outline} (ho : o.Regular)
    (h : Spread o.node.start o.children o.node.stop) : o.node.Nests := by
  have hchildren : o.node.children = o.children.map node := by rw [Node.children, ho.outline]
  constructor
  · rw [hchildren, List.forall_mem_map]
    exact fun c hc => ⟨(h.mem c hc).1, (h.mem c hc).2.1⟩
  · rw [hchildren, List.pairwise_map]
    exact h.pairwise

theorem nests_below (o : Outline) : o.Regular → Spread o.node.start o.children o.node.stop →
    ∀ n ∈ o.preorder, n.Nests ∧ (n = o.node ∨ n.start < n.stop) := by
  refine fun ho => regular_induction ho fun top os ho _ ih => ?_
  intro h
  rw [preorder, preorders_eq]
  refine List.forall_mem_cons.mpr ⟨⟨nests_of_spread ho h, .inl rfl⟩, fun n hn => ?_⟩
  obtain ⟨c, hc, hn⟩ := List.mem_flatMap.mp hn
  obtain ⟨-, -, hlt, hbelow⟩ := h.mem c hc
  obtain ⟨hnests, rfl | hrange⟩ := (ih c hc).2 hbelow n hn
  · exact ⟨hnests, .inr hlt⟩
  · exact ⟨hnests, .inr hrange⟩

end Outline

/-! ## Whole modules -/

theorem Program.parse_spread (h : parse source module defaultName symbols next = .ok p) :
    p.program.info.span = ⟨0, source.length⟩ ∧
      Spread 0 (Outline.ofStmts p.program.body) source.length := by
  have hall := Parser.readAll_outcome source module defaultName symbols next
  rw [parse_eq] at h
  generalize Parser.readAll source module defaultName symbols next = r at h hall
  cases hall with
  | error => cases h
  | ok hread =>
    cases h
    obtain ⟨-, hleft, hspread, -⟩ := hread
    have hbehind := hleft.behind _ List.mem_cons_self
    exact ⟨rfl, hspread.widen (Nat.le_refl 0) (hbehind.trans (Left.start_le hleft.mem))⟩

/-- Of a module that parses, the range of every node holds those of its children, one behind the
other, and is not empty; only the program of an empty source has an empty one. -/
theorem ranges_nest (h : Program.parse source module defaultName symbols next = .ok p) :
    ∀ n ∈ (Outline.ofProgram p.program).preorder,
      n.Nests ∧ (n.start < n.stop ∨ n = .program p.program ∧ source = []) := by
  obtain ⟨hspan, hspread⟩ := Program.parse_spread h
  have hstart : (Node.program p.program).start = 0 := congrArg Span.start hspan
  have hstop : (Node.program p.program).stop = source.length := congrArg Span.stop hspan
  rw [← hstart, ← hstop] at hspread
  intro n hn
  obtain ⟨hnests, rfl | hlt⟩ :=
    Outline.nests_below (.ofProgram p.program) ⟨rfl, fun _ h => by cases h⟩ hspread n hn
  · refine ⟨hnests, ?_⟩
    rcases Nat.eq_zero_or_pos source.length with hzero | hpos
    · exact .inr ⟨rfl, List.length_eq_zero_iff.mp hzero⟩
    · exact .inl (by rw [Outline.ofProgram, Outline.node_mk, hstart, hstop]; exact hpos)
  · exact ⟨hnests, .inl hlt⟩

def nestedSource : Bytes := utf8 "export class A { static m(x) { return new x().y } }"

theorem ranges_nest_class : ∃ p, Program.parse nestedSource none [] Symbols.empty 0 = .ok p ∧
    ∀ n ∈ (Outline.ofProgram p.program).preorder,
      n.Nests ∧ (n.start < n.stop ∨ n = .program p.program ∧ nestedSource = []) := by
  have hcheck : (Program.parse nestedSource none [] Symbols.empty 0).isOk = true := by
    decide +kernel
  cases hparse : Program.parse nestedSource none [] Symbols.empty 0 with
  | error =>
    rw [hparse] at hcheck
    cases hcheck
  | ok p => exact ⟨p, rfl, ranges_nest hparse⟩

/-- Parsing comes to an end for every source: with one fault, at a place in the source and never for
want of depth, or with a module. Then no token was malformed, and the parser stands at the last one,
the end of the source. -/
theorem parse_ends (source : Bytes) (module : Option ModuleId) (defaultName : Bytes)
    (symbols : Symbols) (next : NodeId) :
    (∃ e, Program.parse source module defaultName symbols next = .error e ∧
      e.fault ≠ .tooDeep ∧ e.position ≤ source.length) ∨
    ∃ p s, Program.parse source module defaultName symbols next = .ok p ∧
      Parser.readAll source module defaultName symbols next = .ok (p.program.body, s) ∧
      s.here.kind = .endOfFile ∧ (Lexer.tokens source).getLast? = some s.here ∧ s.ahead = [] ∧
      ∀ t ∈ Lexer.tokens source, t.kind ≠ .error := by
  have hall := Parser.readAll_outcome source module defaultName symbols next
  rw [Program.parse_eq]
  generalize Parser.readAll source module defaultName symbols next = r at hall
  cases hall with
  | error hfault hposition => exact .inl ⟨_, rfl, hfault, hposition⟩
  | @ok body s hread =>
    obtain ⟨-, hleft, -, hend⟩ := hread
    have hahead : s.ahead = [] := hleft.isLast_iff.mp (by rw [hend]; rfl)
    obtain ⟨front, hfront⟩ := hleft.suffix
    rw [ParserState.tokens, hahead] at hfront
    refine .inr ⟨_, s, rfl, rfl, hend, ?_, hahead, ?_⟩
    · rw [← hfront, List.getLast?_concat]
    · intro t ht hkind
      -- An error token would be the last one, and that is the end of the source.
      obtain ⟨us, vs, hsplit⟩ := List.append_of_mem ht
      have hlast := (Lexer.isLast_iff hsplit).mp (by rw [hkind]; rfl)
      rw [hsplit, hlast] at hfront
      obtain ⟨-, heq⟩ := List.append_singleton_inj.mp hfront
      rw [heq, hkind] at hend
      cases hend

end Winnow
