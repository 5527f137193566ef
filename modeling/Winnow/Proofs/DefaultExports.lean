import Winnow.Proofs.Numbering

/-!
# The variable of a default export

A default export binds the name of its function or class, or else a variable that no scope knows.
Either way the variable stands in no scope but the one the export was read in
(`Program.parse_defaults`), whatever else the value of the export declares on the inside.
-/

namespace Winnow

open Outline List

/-- The variable that a construct binds where it stands. -/
def Node.ownVar? : Node → Option VarId
  | binder b => some b.var
  | expr e => e.declaredVar?
  | stmt (.exportDefault _ v _) => some v
  | _ => none

theorem Node.ownVar?_of_isSimple {n : Node} (h : n.isSimple = true) : n.ownVar? = none := by
  cases n with
  | binder b => cases h
  | expr e => cases e <;> first | rfl | cases h
  | stmt s => cases s <;> first | rfl | cases h
  | _ => rfl

/-- The scope that a construct binds names in where it stands. Among statements this is the scope at
hand, as long as that is no block. -/
def Setting.home? (s : ParserState) : Setting → Option ScopeId
  | expression => none
  | statement | item | inside => some s.scope
  | declaring scope => some scope
  | members body _ => some body

/-- Names of statements are not hoisted out of the scope at hand. -/
def Setting.Keeps (s : ParserState) : Setting → Prop
  | statement | item | inside => s.symbols.kind? s.scope = some .module
  | expression | declaring _ | members .. => True

theorem Symbols.hoistScope_module {t : Symbols} {s : ScopeId} (h : t.kind? s = some .module) :
    t.hoistScope s = s := by
  rw [hoistScope, chain_eq, find?_cons_of_pos]
  · rfl
  · rw [h]
    rfl

theorem Setting.Keeps.admits {setting : Setting} {s : ParserState} {scope : ScopeId}
    (h : setting.Keeps s) (hadmits : setting.Admits s scope) : setting.home? s = some scope := by
  cases setting with
  | statement | inside =>
    rcases hadmits with rfl | rfl
    · rfl
    · rw [Symbols.hoistScope_module h]
      rfl
  | members body inner =>
    cases hadmits
    rfl
  | _ => exact hadmits.elim

section

variable {o : ModuleText} {setting : Setting} {s s' : ParserState} {acc os : List Outline}

theorem Builds.entered (h : Builds o setting s acc s' os) :
    Entered o.module s.symbols s'.symbols fun _ _ => True := by
  obtain ⟨ns, -, hmade⟩ := h.made
  exact hmade.entered.mono fun _ _ _ => trivial

theorem Setting.Keeps.next (hkeeps : setting.Keeps s) (h : Builds o setting s acc s' os) :
    setting.Keeps s' := by
  have hkind : s.symbols.kind? s.scope = some .module → s'.symbols.kind? s'.scope = some .module := by
    intro hkind
    obtain ⟨scope, hscope, hmodule⟩ := Option.map_eq_some_iff.mp hkind
    obtain ⟨scope', hscope', hkind', -⟩ := h.entered.scopes hscope
    rw [h.scope]
    exact Option.map_eq_some_iff.mpr ⟨scope', hscope', hkind'.trans hmodule⟩
  cases setting with
  | statement | item | inside => exact hkind hkeeps
  | _ => trivial

theorem Setting.home?_next (h : Builds o setting s acc s' os) :
    setting.home? s' = setting.home? s := by
  cases setting with
  | statement | item | inside => exact congrArg some h.scope
  | _ => rfl

theorem Builds.binds (h : Builds o setting s acc s' os) (hs : s.symbols.Scoped)
    (hkeeps : setting.Keeps s) : ∀ k ∈ os, k ∈ acc ∨ ∀ v, k.node.ownVar? = some v →
      ∃ scope, setting.home? s = some scope ∧ s'.symbols.OnlyIn v scope := by
  induction h with
  | reads => exact fun k hk => .inl hk
  | next h1 h2 ih1 ih2 =>
    intro k hk
    rcases ih2 (h1.entered.keeps hs) (hkeeps.next h1) k hk with hold | hnew
    · refine (ih1 hs hkeeps k hold).imp_right fun hbinds v hv => ?_
      obtain ⟨scope, hscope, honly⟩ := hbinds v hv
      exact ⟨scope, hscope, h2.entered.onlyIn honly⟩
    · exact .inr (Setting.home?_next h1 ▸ hnew)
  | apart _ ih =>
    exact fun k hk => (mem_append.mp hk).imp_right fun hk =>
      (ih hs hkeeps k hk).resolve_left not_mem_nil
  | expression _ ih =>
    -- Expressions bind nothing where they stand.
    refine fun k hk => (mem_append.mp hk).imp_right fun hk v hv => ?_
    obtain ⟨_, hnone, -⟩ := (ih hs trivial k hk).resolve_left not_mem_nil v hv
    cases hnone
  | statement _ ih | body _ ih =>
    exact fun k hk => (mem_append.mp hk).imp_right fun hk =>
      (ih hs hkeeps k hk).resolve_left not_mem_nil
  | declaring hadmits _ ih =>
    refine fun k hk => (mem_append.mp hk).imp_right fun hk v hv => ?_
    obtain ⟨_, hhome, honly⟩ := (ih hs trivial k hk).resolve_left not_mem_nil v hv
    cases hhome
    exact ⟨_, hkeeps.admits hadmits, honly⟩
  | node hsimple =>
    intro k hk
    cases mem_singleton.mp hk
    refine .inr fun v hv => ?_
    rw [node_mk, Node.ownVar?_of_isSimple hsimple] at hv
    cases hv
  | binder =>
    intro k hk
    rcases mem_cons.mp hk with rfl | hk
    · refine .inr fun v hv => ⟨_, rfl, ?_⟩
      cases hv
      exact hs.declare_onlyIn _ _ _ _ _ _
    · exact .inl hk
  | block =>
    intro k hk
    cases mem_singleton.mp hk
    exact .inr fun v hv => by cases hv
  | @function setting s s1 s2 f isArrow os name _ hname _ _ h2 ih1 =>
    intro k hk
    cases mem_singleton.mp hk
    refine .inr fun v hv => ?_
    -- A declared function is bound by its name, which stood there before its scope was opened.
    change (if f.kind = .declaration then f.name?.map Binder.var else none) = some v at hv
    split at hv
    next hkind =>
      rw [hname hkind] at hv
      obtain ⟨b, rfl, rfl⟩ := Option.map_eq_some_iff.mp hv
      obtain ⟨scope, hscope, honly⟩ := (ih1 hs hkeeps (.ofBinder b) mem_cons_self).resolve_left
        not_mem_nil _ rfl
      have hopens : Entered o.module s1.symbols
          (s1.symbols.addFunctionScope s.scope isArrow o.module).2 fun _ _ => True :=
        Entered.addFunctionScope _ _
      exact ⟨scope, hscope, h2.entered.onlyIn (hopens.onlyIn honly)⟩
    next => cases hv
  | @classDef setting s s1 s2 s3 c front members name _ hname _ h2 h3 ih1 =>
    intro k hk
    cases mem_singleton.mp hk
    refine .inr fun v hv => ?_
    change (if c.isDeclaration = true then c.name?.map Binder.var else none) = some v at hv
    split at hv
    next hkind =>
      obtain ⟨base, hfront⟩ := hname hkind
      obtain ⟨b, hb, rfl⟩ := Option.map_eq_some_iff.mp hv
      have hmem : ofBinder b ∈ front := by
        rw [hfront, hb]
        exact mem_cons_self
      obtain ⟨scope, hscope, honly⟩ := (ih1 hs hkeeps _ hmem).resolve_left not_mem_nil _ rfl
      have hopens : Entered o.module s1.symbols
          (s1.symbols.addClassScope s.scope s.nextNode o.module).2 fun _ _ => True :=
        Entered.addClassScope _ trivial
      exact ⟨scope, hscope, h3.entered.onlyIn (h2.entered.onlyIn (hopens.onlyIn honly))⟩
    next => cases hv
  | member _ _ ih =>
    refine fun k hk => (mem_append.mp hk).imp_right fun hk v hv => ?_
    obtain ⟨_, hnone, -⟩ := (ih hs trivial k hk).resolve_left not_mem_nil v hv
    cases hnone
  | @exportDefault s s1 i v value t _ hvalue hvar ih =>
    intro k hk
    cases mem_singleton.mp hk
    refine .inr fun u hu => ⟨s.scope, rfl, ?_⟩
    cases hu
    rcases hvar with ⟨hown, rfl⟩ | ⟨name, hvar⟩
    · have hnode : (ofExpr value).node.ownVar? = some v := by
        rw [node_ofExpr]
        exact hown
      obtain ⟨_, hhome, honly⟩ := (ih hs hkeeps _ mem_cons_self).resolve_left not_mem_nil
        v hnode
      cases hhome
      exact honly
    · -- The new variable is not entered anywhere.
      cases hvar
      refine ⟨(Symbols.size_addVariable _ _).symm ▸ Nat.lt_succ_self _, fun r hr => ?_⟩
      exact absurd ((hvalue.entered.keeps hs).valid.lt hr) (Nat.lt_irrefl _)

end

/-- The variable of a default export stands in no scope but that of its module. -/
theorem Program.parse_defaults {source defaultName : Bytes} {module : Option ModuleId}
    {t : Symbols} {next : NodeId} {p : Parsed}
    (h : Program.parse source module defaultName t next = .ok p) (ht : t.Scoped) {i : Info}
    {v : VarId} {e : Expr} (hmem : .exportDefault i v e ∈ p.program.body) :
    p.symbols.OnlyIn v p.program.scope := by
  obtain ⟨s, s', hscope, -, hsymbols, -, hprogram, hsymbols', -, hbuilds⟩ := Program.parse_builds h
  have hs : s.symbols.Scoped := by
    rw [hsymbols]
    exact ht.addScope nofun fun _ => rfl
  have hkind : Setting.item.Keeps s := by
    show s.symbols.kind? s.scope = some .module
    rw [hsymbols, hscope, Symbols.kind?_addScope, if_pos rfl]
  have hroot : ofStmt (.exportDefault i v e) ∈ ofStmts p.program.body := by
    rw [ofStmts_eq]
    exact mem_map_of_mem hmem
  obtain ⟨_, hhome, honly⟩ := (hbuilds.binds hs hkind _ hroot).resolve_left not_mem_nil v rfl
  cases hhome
  rw [hsymbols', hprogram, ← hscope]
  exact honly

end Winnow
