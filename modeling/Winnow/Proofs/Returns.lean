import Winnow.Proofs.Reprinting
import Winnow.Proofs.Sealing

/-!
# Return statements

A function lists the return statements of its body in the order of the source, without those of the
functions in it. A plain call gives one of their arguments, or nothing if the body does not end with
one of them (`returns_exact`).
-/

namespace Winnow

open Query Outline

/-- What a call gives besides when the last of some statements is no return statement. -/
def valuesAtEnd (ss : List Stmt) : List Entity :=
  match ss.getLast? with
  | some (.ret ..) => []
  | _ => [.undefined]

/-- What a plain call of a function can give. -/
def Func.values (f : Func) : List Entity :=
  match f.body with
  | .result e => [e.entity]
  | .block _ ss =>
    ((ofBody f.body).returns.map fun r => Entity.ofOptional r.2) ++ valuesAtEnd ss

def Node.values? : Node → Option (List Entity)
  | .expr (.function f) => some f.values
  | _ => none

/-- One of some values, by a new number if there is more than one. -/
def Graph.oneOf (g : Graph) : List Entity → Entity × Graph
  | [e] => (e, g)
  | es => (.union g.unions.size, { g with unions := g.unions.push es })

theorem Outline.mem_returns (o : Outline) :
    ∀ r ∈ o.returns, Node.stmt (.ret r.1 r.2) ∈ o.preorder := by
  induction o using below_induction with
  | h n os ih =>
    intro r hr
    have hbelow : r ∈ returnsAll os → .stmt (.ret r.1 r.2) ∈ preorders os := by
      rw [returnsAll_eq, preorders_eq]
      intro hr
      obtain ⟨o, ho, hr⟩ := List.mem_flatMap.mp hr
      exact List.mem_flatMap.mpr ⟨o, ho, ih o ho r hr⟩
    rw [returns, Node.returns.eq_def] at hr
    split at hr
    · cases hr
    · cases List.mem_singleton.mp hr
      exact List.mem_cons_self
    · exact List.mem_cons_of_mem _ (hbelow hr)

theorem Func.around_return (f : Func) : ∀ r ∈ (ofBody f.body).returns,
    (Node.expr (.function f)).Around (.stmt (.ret r.1 r.2)) := by
  intro r hr
  refine (Node.mem_preorder_iff (n := .expr _) fun _ h => nomatch h).mp ?_
  obtain ⟨i, kind, name, ps, scope, returns, body⟩ := f
  refine List.mem_cons_of_mem _ ?_
  rw [preorders_eq]
  exact List.mem_flatMap.mpr ⟨ofBody body, by simp, mem_returns _ r hr⟩

/-- Every function of a program that parses lists exactly its return statements, in the order of the
source. A plain call gives the union of exactly their arguments, with nothing among them if the body
does not end with one of them, and the value of a body without braces. -/
theorem returns_exact {source defaultName : Bytes} {module : Option ModuleId} {t : Symbols}
    {next : NodeId} {p : Parsed} (h : Program.parse source module defaultName t next = .ok p)
    {f : Func} (hf : .expr (.function f) ∈ (ofProgram p.program).preorder) :
    f.returns = (ofBody f.body).returns.map (fun r => r.1.id) ∧ InOrder (ofBody f.body).returns ∧
      ∀ {g : Graph}, Covers g.node? → Held g.node? (.expr (.function f)) →
        ∀ q (call : Interaction) origin, call.isNew = false →
          Query.returned q (.node f.info.id) [] call origin g = .ok (g.oneOf f.values) := by
  obtain ⟨s, s', -, -, -, -, -, -, -, hbuilds⟩ := Program.parse_builds h
  obtain ⟨hlists, horder⟩ : f.body.Lists f.returns :=
    hbuilds.read (List.forall_mem_nil _) _ ((List.mem_cons.mp hf).resolve_left nofun)
  refine ⟨hlists, horder, fun {g} hc hheld q call origin hcall => ?_⟩
  have hrun : Query.returned q (.node f.info.id) [] call origin g = returnedByFunction f g := by
    simp only [Query.returned]
    rw [bind_run get_run, show g.node? f.info.id = _ from hheld]
    simp [returnedByExpr, hcall]
  have harguments : f.returns.map (returnArgument g) =
      (ofBody f.body).returns.map fun r => Entity.ofOptional r.2 := by
    rw [hlists, List.map_map]
    refine List.map_congr_left fun r hr => ?_
    have hret : g.node? r.1.id = _ := hc.around hheld (f.around_return r hr)
    rw [Function.comp_apply, returnArgument, hret]
  rw [hrun]
  unfold returnedByFunction Func.values
  cases hbody : f.body with
  | result e => rfl
  | block i ss =>
    have hend : (if endsWithReturn ss then [] else [.undefined]) = valuesAtEnd ss := by
      unfold endsWithReturn valuesAtEnd
      cases ss.getLast? with
      | none => rfl
      | some s => cases s <;> rfl
    rw [hbody] at harguments
    dsimp only
    rw [bind_run get_run, harguments, hend]
    rcases _ ++ valuesAtEnd ss with _ | ⟨e, _ | ⟨e', es⟩⟩ <;> rfl

def nestedReturns : Files := [(utf8 "a.js",
  utf8 "function f(c) \x7b if (c) return 1; const g = () => \x7b return 2; \x7d; g(); \x7d")]

set_option maxRecDepth 100000 in
/-- The call gives the first number or nothing, but not what the function inside gives. -/
theorem returns_exact_nested : ∃ g : Graph, g.BuiltFrom nestedReturns [utf8 "a.js"] {} ∧ ∀ q origin,
    Query.returned q (.node 1) [] { use := .called } origin g =
      .ok (.union 0, { g with unions := #[[.node 5, .undefined]] }) := by
  have hbuilt := Graph.builtFrom_ofFiles nestedReturns [utf8 "a.js"] {} (by decide +kernel)
  have hvalues : ((Graph.ofFiles nestedReturns [utf8 "a.js"] {}).node? 1).bind Node.values? =
      some [.node 5, .undefined] := by decide +kernel
  have hunions : (Graph.ofFiles nestedReturns [utf8 "a.js"] {}).unions = #[] := by decide +kernel
  generalize Graph.ofFiles nestedReturns [utf8 "a.js"] {} = g at hbuilt hvalues hunions
  obtain ⟨n, hn, hvalues⟩ := Option.bind_eq_some_iff.mp hvalues
  obtain ⟨r, hr, rfl⟩ := Option.map_eq_some_iff.mp hn
  obtain ⟨m, mod, -, hm, hmem⟩ := hbuilt.housed 1 r hr
  obtain ⟨_, _, p, hp, hprogram⟩ := hbuilt.fetched.parsed hm
  have hc := hbuilt.built.placed.covers
  unfold Node.values? at hvalues
  split at hvalues
  · next f hf =>
    rw [hf] at hmem hn
    rw [← hprogram] at hmem
    refine ⟨g, hbuilt, fun q origin => ?_⟩
    have hid : f.info.id = 1 := hc.own hn
    have hreturned := (returns_exact hp hmem).2.2 hc (hc.held hn) q { use := .called } origin rfl
    rw [hid, Option.some.inj hvalues] at hreturned
    rw [hreturned]
    simp [Graph.oneOf, hunions]
  · cases hvalues

end Winnow
