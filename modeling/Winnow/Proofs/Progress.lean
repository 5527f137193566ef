import Mathlib.Algebra.Order.BigOperators.Group.Finset
import Winnow.Proofs.Bets
import Winnow.Proofs.Closure

/-!
# Passes make progress

Another pass is asked for from many places, deep inside of questions and of what they tell each
other. Each of these requests comes with progress that is never taken back: a `Milestone` is met
that was not met before. Since a program has only so many of them, marking comes to an end
(`marking_settles`). A branch counts as unknown while its test is asked, but that is no milestone
yet: the questions asked meanwhile only learn.
-/

namespace Winnow

open Winnow.Graph Query Conduct Inclusion Queries Node Finset Keeps

variable {g g' : Graph} {f : Facts → Facts} {vars : Nat} {node : Node} {n : NodeId} {path : Path}
  {α : Type}

/-! ## Milestones -/

namespace Node

/-- Whether a node is a construct that takes one of two branches. -/
def isBranching (n : Node) : Bool := n.test?.isSome

def isCall : Node → Bool
  | .expr (.call ..) => true
  | _ => false

def isClass : Node → Bool
  | .expr (.classDef _) => true
  | _ => false

def isObject : Node → Bool
  | .expr (.object ..) => true
  | _ => false

/-- The key of a property access, as far as it can be read off the program. -/
def staticKey? : Node → Option Key
  | .expr (.member _ _ name) => some name
  | .expr (.index _ _ key) => key.literalKey?
  | _ => none

end Node

/-- Something the analysis comes to only once. -/
inductive Milestone where
  | included (v : VarId)
  | reassigned (v : VarId)
  | undecided (n : NodeId)
  | unknownResult (n : NodeId)
  /-- Nothing is known any more of the properties of a class or of an object. -/
  | forgottenClass (n : NodeId)
  | forgottenObject (n : NodeId)
  | forgottenKey (n : NodeId) (key : Key)

/-- Milestones that concern a variable concern one of the first so many. -/
def Milestone.below (vars : Nat) : Milestone → Prop
  | .included v | .reassigned v => v < vars
  | _ => True

namespace Graph

def isNode (g : Graph) (kind : Node → Bool) (n : NodeId) : Bool :=
  ((g.node? n).map kind).getD false

/-- Whether a variable was declared in a module and is assigned to. -/
def isReassigned (g : Graph) (v : VarId) : Bool :=
  ((g.var? v).map fun w => w.isDeclared && w.reassigned).getD false

def Met (g : Graph) : Milestone → Prop
  | .included v => g.isVarIncluded v = true
  | .reassigned v => g.isReassigned v = true
  | .undecided n => g.isNode Node.isBranching n = true ∧ (g.facts n).branch = .unknown
  | .unknownResult n => g.isNode Node.isCall n = true ∧ (g.facts n).returned = some .unknown
  | .forgottenClass n => g.isNode Node.isClass n = true ∧ (g.facts n).forgotten = true
  | .forgottenObject n => g.isNode Node.isObject n = true ∧ (g.facts n).forgotten = true
  | .forgottenKey n key => g.isNode Node.isObject n = true ∧ key ∈ (g.facts n).forgottenKeys

def numbersOf (g : Graph) (kind : Node → Bool) : Finset NodeId :=
  (Finset.range g.nodes.size).filter fun n => g.isNode kind n = true

/-- How many milestones are met, of those that concern no variable or one of the first so many: the
included variables, the reassigned ones, the branches that are unknown, the calls with an unknown
result, the forgotten classes and objects, and the forgotten keys of objects. -/
def progress (g : Graph) (vars : Nat) : Nat :=
  ((Finset.range vars).filter fun v => g.isVarIncluded v = true).card +
  ((Finset.range vars).filter fun v => g.isReassigned v = true).card +
  ((g.numbersOf Node.isBranching).filter fun n => (g.facts n).branch = .unknown).card +
  ((g.numbersOf Node.isCall).filter fun n => (g.facts n).returned = some .unknown).card +
  ((g.numbersOf Node.isClass).filter fun n => (g.facts n).forgotten = true).card +
  ((g.numbersOf Node.isObject).filter fun n => (g.facts n).forgotten = true).card +
  ∑ n ∈ g.numbersOf Node.isObject, (g.facts n).forgottenKeys.toFinset.card

/-- The keys that the property accesses of a program are written with. -/
def staticKeys (g : Graph) : Finset Key :=
  (g.nodes.toList.filterMap fun r => r.node.staticKey?).toFinset

def passBudget (g : Graph) : Nat :=
  1 + 2 * g.symbols.vars.size + (g.numbersOf Node.isBranching).card +
    (g.numbersOf Node.isCall).card + (g.numbersOf Node.isClass).card +
    (g.numbersOf Node.isObject).card * (1 + g.staticKeys.card)

theorem isNode_of_node? {m : Node} {kind : Node → Bool} (h : g.node? n = some m)
    (hm : kind m = true) : g.isNode kind n = true := by
  rw [isNode, h]
  exact hm

theorem mem_numbersOf {kind : Node → Bool} : n ∈ g.numbersOf kind ↔ g.isNode kind n = true := by
  rw [numbersOf, mem_filter, mem_range, and_iff_right_iff_imp]
  intro h
  rw [isNode, node?, record?] at h
  by_contra hlt
  rw [Array.getElem?_eq_none (Nat.not_lt.mp hlt)] at h
  cases h

theorem isNode_of_frame (h : g'.frame = g.frame) : g'.isNode = g.isNode := by
  funext kind n
  rw [isNode, isNode, node?_of_frame h]

theorem numbersOf_of_frame (h : g'.frame = g.frame) : g'.numbersOf = g.numbersOf := by
  funext kind
  rw [numbersOf, numbersOf, size_of_frame h, isNode_of_frame h]

theorem mem_staticKeys {m : Node} {key : Key} (hm : g.node? n = some m)
    (hkey : m.staticKey? = some key) : key ∈ g.staticKeys := by
  obtain ⟨r, hr, rfl⟩ := Option.map_eq_some_iff.mp hm
  obtain ⟨hlt, rfl⟩ := Array.getElem?_eq_some_iff.mp hr
  rw [staticKeys, List.mem_toFinset, List.mem_filterMap]
  exact ⟨_, Array.getElem_mem_toList hlt, hkey⟩

theorem progress_mono (g : Graph) {vars' : Nat} (h : vars ≤ vars') :
    g.progress vars ≤ g.progress vars' := by
  have hrange : range vars ⊆ range vars' := range_mono h
  have hincluded := card_le_card
    (filter_subset_filter (fun v => g.isVarIncluded v = true) hrange)
  have hreassigned := card_le_card
    (filter_subset_filter (fun v => g.isReassigned v = true) hrange)
  unfold progress
  omega

section

variable {g g' : Graph} (hmet : ∀ m, g.Met m → g'.Met m) (vars : Nat)
include hmet

theorem forgottenKeys_le (hn : n ∈ g.numbersOf isObject) :
    (g.facts n).forgottenKeys.toFinset ⊆ (g'.facts n).forgottenKeys.toFinset := by
  intro key hkey
  rw [List.mem_toFinset] at hkey ⊢
  exact (hmet (.forgottenKey n key) ⟨mem_numbersOf.mp hn, hkey⟩).2

theorem counts_le :
    ((range vars).filter fun v => g.isVarIncluded v = true).card ≤
      ((range vars).filter fun v => g'.isVarIncluded v = true).card ∧
    ((range vars).filter fun v => g.isReassigned v = true).card ≤
      ((range vars).filter fun v => g'.isReassigned v = true).card ∧
    ((g.numbersOf isBranching).filter fun n => (g.facts n).branch = .unknown).card ≤
      ((g.numbersOf isBranching).filter fun n => (g'.facts n).branch = .unknown).card ∧
    ((g.numbersOf isCall).filter fun n => (g.facts n).returned = some .unknown).card ≤
      ((g.numbersOf isCall).filter fun n => (g'.facts n).returned = some .unknown).card ∧
    ((g.numbersOf isClass).filter fun n => (g.facts n).forgotten = true).card ≤
      ((g.numbersOf isClass).filter fun n => (g'.facts n).forgotten = true).card ∧
    ((g.numbersOf isObject).filter fun n => (g.facts n).forgotten = true).card ≤
      ((g.numbersOf isObject).filter fun n => (g'.facts n).forgotten = true).card ∧
    ∑ n ∈ g.numbersOf isObject, (g.facts n).forgottenKeys.toFinset.card ≤
      ∑ n ∈ g.numbersOf isObject, (g'.facts n).forgottenKeys.toFinset.card := by
  refine ⟨?_, ?_, ?_, ?_, ?_, ?_, ?_⟩
  · exact card_le_card (monotone_filter_right _ fun v _ h => hmet (.included v) h)
  · exact card_le_card (monotone_filter_right _ fun v _ h => hmet (.reassigned v) h)
  · exact card_le_card (monotone_filter_right _ fun n hn h =>
      (hmet (.undecided n) ⟨mem_numbersOf.mp hn, h⟩).2)
  · exact card_le_card (monotone_filter_right _ fun n hn h =>
      (hmet (.unknownResult n) ⟨mem_numbersOf.mp hn, h⟩).2)
  · exact card_le_card (monotone_filter_right _ fun n hn h =>
      (hmet (.forgottenClass n) ⟨mem_numbersOf.mp hn, h⟩).2)
  · exact card_le_card (monotone_filter_right _ fun n hn h =>
      (hmet (.forgottenObject n) ⟨mem_numbersOf.mp hn, h⟩).2)
  · exact sum_le_sum fun n hn => card_le_card (forgottenKeys_le hmet hn)

variable (hframe : g'.frame = g.frame)
include hframe

theorem progress_le : g.progress vars ≤ g'.progress vars := by
  obtain ⟨h1, h2, h3, h4, h5, h6, h7⟩ := counts_le hmet vars
  unfold progress
  rw [numbersOf_of_frame hframe]
  omega

theorem progress_lt {m : Milestone} (hbelow : m.below vars) (hnot : ¬g.Met m) (hm : g'.Met m) :
    g.progress vars < g'.progress vars := by
  obtain ⟨h1, h2, h3, h4, h5, h6, h7⟩ := counts_le hmet vars
  have hisNode := isNode_of_frame hframe
  unfold progress
  rw [numbersOf_of_frame hframe]
  cases m with
  | included v =>
    have := card_filter_lt (p := fun v => g'.isVarIncluded v = true)
      (q := fun v => g.isVarIncluded v = true) (fun v _ h => hmet (.included v) h)
      (mem_range.mpr hbelow) hm hnot
    omega
  | reassigned v =>
    have := card_filter_lt (p := fun v => g'.isReassigned v = true)
      (q := fun v => g.isReassigned v = true) (fun v _ h => hmet (.reassigned v) h)
      (mem_range.mpr hbelow) hm hnot
    omega
  | undecided n =>
    obtain ⟨hn, hm⟩ := hm
    rw [hisNode] at hn
    have := card_filter_lt
      (fun n hn h => (hmet (.undecided n) ⟨mem_numbersOf.mp hn, h⟩).2) (mem_numbersOf.mpr hn) hm
      fun h => hnot ⟨hn, h⟩
    omega
  | unknownResult n =>
    obtain ⟨hn, hm⟩ := hm
    rw [hisNode] at hn
    have := card_filter_lt
      (fun n hn h => (hmet (.unknownResult n) ⟨mem_numbersOf.mp hn, h⟩).2) (mem_numbersOf.mpr hn)
      hm fun h => hnot ⟨hn, h⟩
    omega
  | forgottenClass n =>
    obtain ⟨hn, hm⟩ := hm
    rw [hisNode] at hn
    have := card_filter_lt
      (fun n hn h => (hmet (.forgottenClass n) ⟨mem_numbersOf.mp hn, h⟩).2) (mem_numbersOf.mpr hn)
      hm fun h => hnot ⟨hn, h⟩
    omega
  | forgottenObject n =>
    obtain ⟨hn, hm⟩ := hm
    rw [hisNode] at hn
    have := card_filter_lt
      (fun n hn h => (hmet (.forgottenObject n) ⟨mem_numbersOf.mp hn, h⟩).2) (mem_numbersOf.mpr hn)
      hm fun h => hnot ⟨hn, h⟩
    omega
  | forgottenKey n key =>
    obtain ⟨hn, hm⟩ := hm
    rw [hisNode] at hn
    have hkeys : (g.facts n).forgottenKeys.toFinset.card <
        (g'.facts n).forgottenKeys.toFinset.card := by
      refine card_lt_card ((ssubset_iff_of_subset ?_).mpr ⟨key, ?_, ?_⟩)
      · exact forgottenKeys_le hmet (mem_numbersOf.mpr hn)
      · exact List.mem_toFinset.mpr hm
      · exact fun h => hnot ⟨hn, List.mem_toFinset.mp h⟩
    have := sum_lt_sum (fun n hn => card_le_card (forgottenKeys_le hmet hn))
      ⟨n, mem_numbersOf.mpr hn, hkeys⟩
    omega

end

/-- Only so many keys are forgotten, and only so many variables are declared in modules. -/
structure Within (g : Graph) (vars : Nat) (keys : Finset Key) : Prop where
  forgottenKeys : ∀ n, ∀ key ∈ (g.facts n).forgottenKeys, key ∈ keys
  declared : ∀ {v w}, g.var? v = some w → w.isDeclared = true → v < vars

theorem Within.progress_le {keys : Finset Key} (h : g.Within vars keys) :
    g.progress vars ≤ 2 * vars + (g.numbersOf isBranching).card +
      (g.numbersOf isCall).card + (g.numbersOf isClass).card +
      (g.numbersOf isObject).card * (1 + keys.card) := by
  have hkeys : ∑ n ∈ g.numbersOf isObject, (g.facts n).forgottenKeys.toFinset.card ≤
      (g.numbersOf isObject).card * keys.card := by
    refine sum_le_card_nsmul _ _ _ fun n _ => card_le_card fun key hkey => ?_
    exact h.forgottenKeys n key (List.mem_toFinset.mp hkey)
  have h1 : ((range vars).filter fun v => g.isVarIncluded v = true).card ≤ vars :=
    (card_filter_le _ _).trans_eq (card_range vars)
  have h2 : ((range vars).filter fun v => g.isReassigned v = true).card ≤ vars :=
    (card_filter_le _ _).trans_eq (card_range vars)
  have h3 := card_filter_le (g.numbersOf isBranching)
    fun n => (g.facts n).branch = .unknown
  have h4 := card_filter_le (g.numbersOf isCall)
    fun n => (g.facts n).returned = some .unknown
  have h5 := card_filter_le (g.numbersOf isClass) fun n => (g.facts n).forgotten = true
  have h6 := card_filter_le (g.numbersOf isObject) fun n => (g.facts n).forgotten = true
  unfold progress
  rw [Nat.mul_add]
  omega

end Graph

/-! ## Progress -/

/-- Milestones stay met, and another pass is asked for only where one more is met. -/
structure Progresses (vars : Nat) (g g' : Graph) : Prop where
  met : ∀ m, g.Met m → g'.Met m
  request : g'.needsPass = true →
    g.needsPass = true ∨ ∃ m : Milestone, m.below vars ∧ ¬g.Met m ∧ g'.Met m

namespace Progresses

variable {vars : Nat} {g g' g'' : Graph}

theorem refl (vars : Nat) (g : Graph) : Progresses vars g g := ⟨fun _ => id, .inl⟩

theorem trans (h : Progresses vars g g') (h' : Progresses vars g' g'') : Progresses vars g g'' where
  met := fun m hm => h'.met m (h.met m hm)
  request := fun hneeds => by
    rcases h'.request hneeds with hneeds | ⟨m, hbelow, hnot, hm⟩
    · rcases h.request hneeds with hneeds | ⟨m, hbelow, hnot, hm⟩
      · exact .inl hneeds
      · exact .inr ⟨m, hbelow, hnot, h'.met m hm⟩
    · exact .inr ⟨m, hbelow, fun hm' => hnot (h.met m hm'), hm⟩

end Progresses

section

variable {g g' : Graph}

theorem isReassigned_of_var? {v : VarId} {w : Variable} (h : g.var? v = some w) :
    g.isReassigned v = (w.isDeclared && w.reassigned) := by
  rw [isReassigned, h]
  rfl

theorem Variable.Evolves.isDeclared {w w' : Variable} (h : w.Evolves w') :
    w'.isDeclared = w.isDeclared := by
  simp [Variable.isDeclared, h.form]

theorem Evolves.isReassigned (h : Evolves g g') {v : VarId} (hv : g.isReassigned v = true) :
    g'.isReassigned v = true := by
  cases hw : g.var? v with
  | none => rw [Graph.isReassigned, hw] at hv; cases hv
  | some w =>
    obtain ⟨w', hw', he⟩ := h.vars hw
    rw [isReassigned_of_var? hw, Bool.and_eq_true] at hv
    rw [isReassigned_of_var? hw', he.isDeclared, hv.1, he.reassigned hv.2]
    rfl

/-- Milestones stay met if unknown branches and results stay unknown and what is forgotten stays
forgotten. -/
theorem Evolves.met (h : Evolves g g')
    (hbranch : ∀ k, (g.facts k).branch = .unknown → (g'.facts k).branch = .unknown)
    (hreturned : ∀ k, (g.facts k).returned = some .unknown →
      (g'.facts k).returned = some .unknown)
    (hforgotten : ∀ k, (g.facts k).forgotten = true → (g'.facts k).forgotten = true)
    (hkeys : ∀ k, (g.facts k).forgottenKeys ⊆ (g'.facts k).forgottenKeys)
    (m : Milestone) (hm : g.Met m) : g'.Met m := by
  have hnode := isNode_of_frame h.frame
  cases m with
  | included v => exact h.isVarIncluded hm
  | reassigned v => exact h.isReassigned hm
  | undecided n => exact ⟨hnode ▸ hm.1, hbranch n hm.2⟩
  | unknownResult n => exact ⟨hnode ▸ hm.1, hreturned n hm.2⟩
  | forgottenClass n | forgottenObject n => exact ⟨hnode ▸ hm.1, hforgotten n hm.2⟩
  | forgottenKey n key => exact ⟨hnode ▸ hm.1, hkeys n hm.2⟩

theorem Learns.progresses (h : Learns g g') (hd : Drifts g g') (vars : Nat) :
    Progresses vars g g' where
  met := hd.toEvolves.met
    (fun k hk => ((h.facts k).branch (by rw [hk]; nofun)).trans hk)
    (fun k hk => (h.facts k).returned hk) (fun k => (hd.facts k).forgotten)
    fun k => (hd.facts k).forgottenKeys
  request := fun hneeds => .inl (h.needsPass ▸ hneeds)

theorem Progresses.modifyFacts (hf : ∀ x : Facts, x.Drifts (f x))
    (hbranch : ∀ x : Facts, x.branch = .unknown → (f x).branch = .unknown)
    (hreturned : ∀ x : Facts, x.returned = some .unknown → (f x).returned = some .unknown)
    (vars : Nat) : Progresses vars g (g.modifyFacts n f) where
  met := by
    have hfacts := facts_modifyFacts_cases g n f
    refine (Drifts.modifyFacts hf).toEvolves.met (fun k hk => ?_) (fun k hk => ?_)
      (fun k => ((Drifts.modifyFacts hf).facts k).forgotten)
      fun k => ((Drifts.modifyFacts hf).facts k).forgottenKeys
    · rcases hfacts k with h | ⟨-, h⟩
      · rw [h]; exact hk
      · rw [h]; exact hbranch _ hk
    · rcases hfacts k with h | ⟨-, h⟩
      · rw [h]; exact hk
      · rw [h]; exact hreturned _ hk
  request := .inl

theorem Progresses.of_facts (h : Evolves g g') (hfacts : ∀ k, g'.facts k = g.facts k)
    (hneeds : g'.needsPass = g.needsPass) (vars : Nat) : Progresses vars g g' where
  met := h.met (fun k hk => by rw [hfacts]; exact hk) (fun k hk => by rw [hfacts]; exact hk)
    (fun k hk => by rw [hfacts]; exact hk) fun k _ hk => by rw [hfacts]; exact hk
  request := fun h => .inl (hneeds ▸ h)

end

/-! ## Questions make progress -/

/-- Questions make progress, with no more keys and variables to forget than there are. -/
def progressing (frame : Places) (vars : Nat)
    (keys : Finset Key) : Conduct where
  holds g := (drifting frame).holds g ∧ g.Within vars keys
  allows g g' := Drifts g g' ∧ Progresses vars g g'
  paths path := ∀ key ∈ path, key.isKnown = true → key ∈ keys
  refl g := ⟨.refl g, .refl vars g⟩
  trans h h' := ⟨h.1.trans h'.1, h.2.trans h'.2⟩

/-- Where a milestone has just been met, another pass may be asked for. -/
def advancing (frame : Places) (vars : Nat)
    (keys : Finset Key) (m : Milestone) : Conduct where
  holds g := (progressing frame vars keys).holds g ∧ g.Met m
  allows g g' := Drifts g g' ∧ ∀ m, g.Met m → g'.Met m
  refl g := ⟨.refl g, fun _ => id⟩
  trans h h' := ⟨h.1.trans h'.1, fun m hm => h'.2 m (h.2 m hm)⟩

section

variable {frame : Places} {vars : Nat}
  {keys : Finset Key} {m : Milestone}

theorem Graph.Within.evolves (hg : g.Within vars keys) (h : Evolves g g')
    (hkeys : ∀ n, ∀ key ∈ (g'.facts n).forgottenKeys, key ∈ (g.facts n).forgottenKeys ∨ key ∈ keys) :
    g'.Within vars keys where
  forgottenKeys := fun n key hkey => (hkeys n key hkey).elim (hg.forgottenKeys n key) id
  declared := fun {v w'} hw' hdeclared => by
    rcases h.var_cases hw' with ⟨w, hw, he⟩ | ⟨w, hw, he⟩
    · exact hg.declared hw (he.isDeclared ▸ hdeclared)
    · rw [he.isDeclared] at hdeclared
      rcases hw.form with ⟨_, _, hform⟩ | hns
      · simp [Variable.isDeclared, hform] at hdeclared
      · cases hform : w.form <;> simp_all [Variable.isDeclared, Variable.isNamespace]

/-- A question that follows the conduct may be asked where a milestone has just been met. -/
theorem Conduct.Keeps.advancing {q : Query α} (h : (progressing frame vars keys).Keeps q) :
    (advancing frame vars keys m).Keeps q := by
  intro g a g' hg hrun
  obtain ⟨hg', hd, hp⟩ := h g a g' hg.1 hrun
  exact ⟨⟨hg', hp.met m hg.2⟩, hd, hp.met⟩

theorem request_advances (ask : Graph → Prop) [DecidablePred ask] :
    (advancing frame vars keys m).Keeps
      (modify fun g => if ask g then g.requestPass else g : Query Unit) := by
  refine fun g => From.modify fun hg => ?_
  split
  · obtain ⟨hg', hd⟩ := drifting_step hg.1.1 (.request g) (hg.1.1.1.linkable.congr rfl rfl rfl rfl)
    exact ⟨⟨⟨hg', hg.1.2.forgottenKeys, hg.1.2.declared⟩, hg.2⟩, hd, fun _ => id⟩
  · exact ⟨hg, .refl g, fun _ => id⟩

theorem requestPass_advances (n : NodeId) : (advancing frame vars keys m).Keeps (requestPass n) :=
  request_advances fun g => (g.moduleOf n).isSome = true

theorem progressing_first {f : Graph → Graph} {rest : Query α} (hbelow : m.below vars)
    (hnot : ¬g.Met m) (hstep : (progressing frame vars keys).Keeps (modify f)) (hmet : (f g).Met m)
    (hrest : (advancing frame vars keys m).Keeps rest) :
    (progressing frame vars keys).From g (modify f >>= fun _ => rest) := by
  intro a g'' hg hrun
  obtain ⟨_, g', hmodify, hrun⟩ := bind_ok.mp hrun
  obtain ⟨hg', hd, hp⟩ := hstep _ _ _ hg hmodify
  cases hmodify
  obtain ⟨⟨hg'', hm⟩, hd', hmet'⟩ := hrest _ _ _ ⟨hg', hmet⟩ hrun
  exact ⟨hg'', hd.trans hd', fun k hk => hmet' k (hp.met k hk), fun _ => .inr ⟨m, hbelow, hnot, hm⟩⟩

theorem progressing_of_learning {q : Query α} (h : (learning frame).Keeps q) :
    (progressing frame vars keys).Keeps q := by
  intro g a g' hg hrun
  obtain ⟨hg', hd, hl⟩ := h g a g' hg.1 hrun
  refine ⟨⟨hg', hg.2.evolves hd.toEvolves fun n key hkey => .inl ?_⟩, hd, hl.progresses hd vars⟩
  rwa [(hl.facts n).forgottenKeys] at hkey

/-- Where a conduct says of each key of a path alone whether it may be there, it lets questions come to
the keys that property accesses are written with and to the unknown key. -/
theorem Roads.of_keys {c : Conduct} {allowed : Key → Prop}
    (hpaths : ∀ path, c.paths path ↔ ∀ key ∈ path, allowed key) (hunknown : allowed Key.unknown)
    (hkeys : ∀ {n m key}, tableOf frame n = some m → m.staticKey? = some key → allowed key) :
    Roads c (tableOf frame) where
  nil := (hpaths _).mpr fun _ h => absurd h List.not_mem_nil
  unknown := (hpaths _).mpr fun _ h => List.mem_singleton.mp h ▸ hunknown
  tail := fun h => (hpaths _).mpr fun key hkey =>
    (hpaths _).mp h key (List.mem_cons_of_mem _ hkey)
  member := fun hn h => (hpaths _).mpr (List.forall_mem_cons.mpr ⟨hkeys hn rfl, (hpaths _).mp h⟩)
  index := fun {i object key path} hn h => by
    refine (hpaths _).mpr (List.forall_mem_cons.mpr ⟨?_, (hpaths _).mp h⟩)
    cases hkey : key.literalKey? with
    | none =>
      rw [indexKey, hkey]
      exact hunknown
    | some k =>
      rw [indexKey, hkey]
      exact hkeys hn hkey

theorem progressing_rules (hc : Covers (tableOf frame))
    (hkeys : ∀ {n m key}, tableOf frame n = some m → m.staticKey? = some key → key ∈ keys) :
    Rules (progressing frame vars keys) (tableOf frame) :=
  .of_learning hc (.of_keys (fun _ => Iff.rfl) nofun fun hn hkey _ => hkeys hn hkey)
    { holds := fun t hg => ⟨holds_tracker hg.1 t, hg.2.forgottenKeys, hg.2.declared⟩
      tracker := fun h => h.1.tracker
      within := fun h =>
        ⟨Tracks.within (c := drifting frame) drifting_tracks h.1, h.2.met, h.2.request⟩ }
    (fun _ hg => hg.1) progressing_of_learning

theorem modifyFacts_progresses (n : NodeId) (hf : ∀ x : Facts, x.Drifts (f x))
    (hbranch : ∀ x : Facts, x.branch = .unknown → (f x).branch = .unknown)
    (hreturned : ∀ x : Facts, x.returned = some .unknown → (f x).returned = some .unknown)
    (hkeys : ∀ x : Facts, ∀ key ∈ (f x).forgottenKeys, key ∈ x.forgottenKeys ∨ key ∈ keys) :
    (progressing frame vars keys).Keeps (modifyFacts n f) := by
  intro g a g' hg hrun
  obtain ⟨hg', hd⟩ := modifyFacts_drifts n hf g a g' hg.1 hrun
  cases hrun
  refine ⟨⟨hg', hg.2.evolves hd.toEvolves fun k key hkey => ?_⟩, hd,
    .modifyFacts hf hbranch hreturned vars⟩
  rcases facts_modifyFacts_cases g n f k with h | ⟨-, h⟩
  · rw [h] at hkey
    exact .inl hkey
  · rw [h] at hkey
    exact hkeys _ key hkey

theorem modifyVar_progresses (v : VarId) {f : Variable → Variable}
    (hf : ∀ w : Variable, w.Evolves (f w)) (hincluded : ∀ w, (f w).included = w.included) :
    (progressing frame vars keys).Keeps (modify fun g => g.modifyVar v f) := by
  intro g a g' hg hrun
  obtain ⟨hg', hd⟩ := modifyVar_drifts v hf hincluded g a g' hg.1 hrun
  cases hrun
  exact ⟨⟨hg', hg.2.evolves hd.toEvolves fun _ _ => .inl⟩, hd,
    .of_facts hd.toEvolves (fun _ => rfl) rfl vars⟩

/-- Where a branch becomes unknown for the first time, another pass may be asked for. -/
theorem undecide_progresses {rest : Query α} {b : Bool} (hn : Held (tableOf frame) node)
    (hbranching : node.isBranching = true) (hg : (drifting frame).holds g)
    (hstate : (g.facts node.id).branch = .ofChoice b)
    (hrest : (advancing frame vars keys (.undecided node.id)).Keeps rest) :
    (progressing frame vars keys).From g
      (modifyFacts node.id (fun f => { f with branch := .unknown }) >>= fun _ => rest) := by
  have hnode : g.node? node.id = some node := held_node? hg hn
  refine progressing_first (m := .undecided node.id) trivial (fun hmet => ?_)
    (modifyFacts_progresses node.id (fun _ => ⟨rfl, id, id, fun _ => id⟩)
      (fun _ _ => rfl) (fun _ => id) fun _ _ => .inl) ?_ hrest
  · exact BranchState.ofChoice_ne_unknown b (hstate.symm.trans hmet.2)
  · refine ⟨?_, by rw [facts_modifyFacts_self hnode]⟩
    rw [isNode_of_frame (frame_modifyFacts g _ _)]
    exact isNode_of_node? hnode hbranching

section

variable {n : Nat} (hq : Answers (progressing frame vars keys) (tableOf frame)
  (fun _ => (progressing frame vars keys).allows) (Queries.ofDepth n))
include hq

theorem notify_progresses (os : List Origin) :
    (progressing frame vars keys).Keeps (notify (ofDepth n) os) :=
  forM' fun o _ => hq.invalidate o

theorem notifyVar_progresses (v : VarId) :
    (progressing frame vars keys).Keeps (notifyVar (ofDepth n) v) := by
  refine get_bind fun g _ => ?_
  refine Keeps.bind' (modifyVar_progresses v (fun _ => ?_) fun _ => ?_)
    (fun _ => notify_progresses hq _) g
  · exact ⟨rfl, id, id⟩
  · rfl

theorem notifyNode_progresses (id : NodeId) :
    (progressing frame vars keys).Keeps (notifyNode (ofDepth n) id) := by
  refine get_bind fun g _ => ?_
  refine Keeps.bind' (modifyFacts_progresses id (fun _ => ?_) (fun _ h => ?_) (fun _ h => ?_)
    fun _ _ h => ?_) (fun _ => notify_progresses hq _) g
  · exact ⟨rfl, fun h => h, fun h => h, fun _ h => h⟩
  · exact h
  · exact h
  · exact .inl h

/-- Telling the dependents of an object asks for another pass, so a milestone has to be met. -/
theorem notifyKey_advances (id : NodeId) (key : Bytes) :
    (advancing frame vars keys m).Keeps (notifyKey (ofDepth n) id key) := by
  refine Keeps.get_unless fun g => ?_
  refine Keeps.bind' (Keeps.advancing (modifyFacts_progresses id
    (fun _ => ⟨rfl, fun h => h, fun h => h, fun _ h => h⟩) (fun _ h => h) (fun _ h => h)
    fun _ _ => .inl)) fun _ => ?_
  exact Keeps.bind' (notify_progresses hq _).advancing fun _ => requestPass_advances id

theorem forgetInit_progresses (id : VarId) (init : NodeId)
    (hpath : (progressing frame vars keys).paths path) :
    (progressing frame vars keys).Keeps (forgetInit (ofDepth n) id init path) := by
  refine Keeps.get_unless fun g => ?_
  exact Keeps.bind' (modifyVar_progresses id (fun _ => ⟨rfl, fun h => h, fun h => h⟩) fun _ => rfl)
    fun _ => hq.forget _ _ hpath

theorem forgetDeclared_progresses {id : VarId} {v : Variable} (hv : g.var? id = some v)
    (hdeclared : v.isDeclared = true) (hpath : (progressing frame vars keys).paths path)
    (hunknown : (progressing frame vars keys).paths Path.unknown) :
    (progressing frame vars keys).From g (forgetDeclared (ofDepth n) id v path) := by
  unfold forgetDeclared
  split
  · exact pure' _ g
  refine From.bind (modifyVar_progresses id
    (f := fun v => { v with requested := path.fingerprint :: v.requested })
    (fun _ => ⟨rfl, fun h => h, fun h => h⟩) (fun _ => rfl) g) fun _ g1 hg1 hrun => ?_
  cases hrun
  have hv1 : (g.modifyVar id fun v => { v with requested := path.fingerprint :: v.requested }).var? id =
      some { v with requested := path.fingerprint :: v.requested } := by
    rw [var?_modifyVar, if_pos rfl, hv]
    rfl
  split
  · split
    · exact pure' _ _
    -- The variable becomes a reassigned one, so another pass may be asked for.
    refine progressing_first (m := .reassigned id) (hg1.2.declared hv1 hdeclared) ?_
      (modifyVar_progresses id (fun _ => ⟨rfl, fun h => h, fun _ => rfl⟩) fun _ => rfl) ?_ ?_
    · intro hmet
      rw [Graph.Met, isReassigned_of_var? hv1, Bool.and_eq_true] at hmet
      exact ‹¬v.reassigned = true› hmet.2
    · rw [Graph.Met, Graph.isReassigned, var?_modifyVar, hv1]
      simpa [Variable.isDeclared] using hdeclared
    · refine Keeps.bind' (notifyVar_progresses hq id).advancing fun _ => ?_
      have hrequest : (advancing frame vars keys (.reassigned id)).Keeps
          (modify fun g => if v.module.isSome then g.requestPass else g : Query Unit) :=
        request_advances fun _ => v.module.isSome = true
      cases v.init? with
      | none => exact Keeps.bind' (pure' ()) fun _ => hrequest
      | some init =>
        exact Keeps.bind' (forgetInit_progresses hq id init hunknown).advancing fun _ => hrequest
  · cases v.init? with
    | none => exact pure' _ _
    | some init => exact forgetInit_progresses hq id init hpath _

theorem forgetObject_progresses {i : Info} {ps : List Property}
    (hn : Held (tableOf frame) (.expr (.object i ps)))
    (hpath : (progressing frame vars keys).paths path)
    (hunknown : (progressing frame vars keys).paths Path.unknown) :
    (progressing frame vars keys).Keeps (forgetObject (ofDepth n) i.id ps path) := by
  refine get_bind fun g hg => ?_
  have hnode : g.node? i.id = some (.expr (.object i ps)) := held_node? hg.1 hn
  have hisNode : ∀ f, (g.modifyFacts i.id f).isNode isObject i.id = true := fun f => by
    rw [isNode_of_frame (frame_modifyFacts g i.id f)]
    exact isNode_of_node? hnode rfl
  cases path with
  | nil => exact pure' _ g
  | cons key rest =>
    dsimp only
    split
    · exact pure' _ g
    split
    · -- All properties are forgotten, for the first time.
      refine progressing_first (m := .forgottenObject i.id) trivial (fun hmet => ?_)
        (modifyFacts_progresses i.id (fun _ => ⟨rfl, id, fun _ => rfl, fun _ => id⟩)
          (fun _ => id) (fun _ => id) fun _ _ => .inl) ?_ ?_
      · exact ‹¬(g.facts i.id).forgotten = true› hmet.2
      · exact ⟨hisNode _, by rw [facts_modifyFacts_self hnode]⟩
      · refine Keeps.bind' (forM' fun key _ => notifyKey_advances hq i.id key) fun _ => ?_
        exact forM' fun p _ => (hq.forget _ _ hunknown).advancing
    split
    · split
      · exact pure' _ g
      have hknown : key.isKnown = true := by simpa using ‹¬(!key.isKnown) = true›
      have hkey : key ∈ keys := hpath key List.mem_cons_self hknown
      refine progressing_first (m := .forgottenKey i.id key) trivial (fun hmet => ?_)
        (modifyFacts_progresses i.id (fun _ => ⟨rfl, id, id,
          List.subset_append_left _ _⟩) (fun _ => id) (fun _ => id) fun x k hk => ?_) ?_ ?_
      · exact ‹¬(g.facts i.id).forgottenKeys.contains key = true› (by simpa using hmet.2)
      · rcases List.mem_append.mp hk with hk | hk
        · exact .inl hk
        · rw [List.mem_singleton.mp hk]
          exact .inr hkey
      · exact ⟨hisNode _, by rw [facts_modifyFacts_self hnode]; simp⟩
      · exact notifyKey_advances hq i.id key
    · cases property? ps key with
      | none => exact pure' _ g
      | some p => exact hq.forget _ _ (fun k hk => hpath k (List.mem_cons_of_mem key hk)) g

theorem forgetClass_progresses {d : ClassDef} (hn : Held (tableOf frame) (.expr (.classDef d)))
    (path : Path) (hunknown : (progressing frame vars keys).paths Path.unknown) :
    (progressing frame vars keys).Keeps (forgetClass (ofDepth n) d path) := by
  refine get_bind fun g hg => ?_
  have hnode : g.node? d.info.id = some (.expr (.classDef d)) := held_node? hg.1 hn
  split
  · exact pure' _ g
  have hnot : ¬(path.isEmpty = true ∨ (g.facts d.info.id).forgotten = true) := by
    simpa using ‹¬(path.isEmpty || (g.facts d.info.id).forgotten) = true›
  refine progressing_first (m := .forgottenClass d.info.id) trivial (fun hmet => hnot (.inr hmet.2))
    (modifyFacts_progresses _ (fun _ => ⟨rfl, id, fun _ => rfl, fun _ => id⟩)
      (fun _ => id) (fun _ => id) fun _ _ => .inl) ?_ ?_
  · refine ⟨?_, by rw [facts_modifyFacts_self hnode]⟩
    rw [isNode_of_frame (frame_modifyFacts g _ _)]
    exact isNode_of_node? hnode rfl
  · refine Keeps.bind' (notifyNode_progresses hq _).advancing fun _ => ?_
    refine Keeps.bind' (forM' fun k _ => ?_) fun _ => requestPass_advances _
    split
    · exact (hq.forget _ _ hunknown).advancing
    · exact pure' _

section

variable (hc : Covers (tableOf frame)) (hunknown : (progressing frame vars keys).paths Path.unknown)
include hc hunknown

theorem loseBranch_progresses {t : Expr} {choose : Value → Option Bool}
    (hn : Held (tableOf frame) node) (htest : node.test? = some (t, choose)) (x y : Expr) :
    (progressing frame vars keys).Keeps (do
      loseBranch (ofDepth n) node.id (← branchOf (ofDepth n) node.id t choose) x y) := by
  intro g a g' hg
  refine From.bind (progressing_of_learning (branchOf_learns hc (learning_asks hc n) _ t choose) g)
    (fun state g1 hg1 hrun => ?_) a g' hg
  have hstate := (branchOf_state hc hg.1 hn hrun).1
  unfold loseBranch
  cases hpick : BranchState.pick y x state with
  | none => exact pure' _ g1
  | some unused =>
    obtain ⟨b, rfl, -⟩ := pick_eq_some hpick
    refine undecide_progresses hn (by rw [isBranching, htest]; rfl) hg1.1 hstate ?_
    refine Keeps.bind' (hq.forget _ _ hunknown).advancing fun _ => ?_
    exact Keeps.bind' (notifyNode_progresses hq _).advancing fun _ => requestPass_advances _

theorem invalidateNode_progresses (hn : Held (tableOf frame) node) :
    (progressing frame vars keys).Keeps (invalidateNode (ofDepth n) node) := by
  cases node with
  | expr e =>
    cases e with
    | conditional i t x y => exact loseBranch_progresses hq hc hunknown hn rfl x y
    | logical i op l r => exact loseBranch_progresses hq hc hunknown hn rfl l r
    | call i isNew callee as =>
      refine get_bind fun g hg => ?_
      have hnode : g.node? i.id = some (.expr (.call i isNew callee as)) := held_node? hg.1 hn
      split
      · exact pure' _ g
      refine progressing_first (m := .unknownResult i.id) trivial (fun hmet => ?_)
        (modifyFacts_progresses i.id (fun _ => ⟨rfl, id, id, fun _ => id⟩)
          (fun _ => id) (fun _ _ => rfl) fun _ _ => .inl) ?_ ?_
      · exact ‹¬(g.facts i.id).returned = some .unknown› hmet.2
      · refine ⟨?_, by rw [facts_modifyFacts_self hnode]⟩
        rw [isNode_of_frame (frame_modifyFacts g _ _)]
        exact isNode_of_node? hnode rfl
      · exact Keeps.bind' (notifyNode_progresses hq _).advancing fun _ => requestPass_advances _
    | _ => exact pure' _
  | stmt s =>
    cases s with
    | branch i t x y =>
      refine get_bind fun g hg => ?_
      dsimp only
      split
      · obtain ⟨b, hb⟩ : ∃ b, (g.facts i.id).branch = .ofChoice b := by
          rcases ‹_ ∨ _› with h | h
          · exact ⟨true, h⟩
          · exact ⟨false, h⟩
        exact undecide_progresses hn rfl hg.1 hb (requestPass_advances _)
      · exact pure' _ g
    | _ => exact pure' _
  | _ => exact pure' _

theorem invalidate_progresses (o : Origin) :
    (progressing frame vars keys).Keeps (Query.invalidate (ofDepth n) o) := by
  cases o with
  | observer k =>
    refine fun g => From.modify fun hg => ?_
    have hd : Drifts g { g with observed := g.observed.modify k (· + 1) } := { Drifts.refl g with }
    obtain ⟨hg', -⟩ := drifting_step hg.1 hd (hg.1.1.linkable.congr rfl rfl rfl rfl)
    exact ⟨⟨hg', hg.2.forgottenKeys, hg.2.declared⟩, hd, .of_facts hd.toEvolves (fun _ => rfl) rfl vars⟩
  | node id =>
    refine get_bind fun g hg => ?_
    cases hnode : g.node? id with
    | none => exact pure' _ g
    | some node =>
      rw [← tableOf_frame, hg.1.2] at hnode
      exact invalidateNode_progresses hq hc hunknown (hc.held hnode) g

end

end

section

variable (hc : Covers (tableOf frame))
  (hkeys : ∀ {n m key}, tableOf frame n = some m → m.staticKey? = some key → key ∈ keys)

include hc hkeys

theorem progressing_stage {n : Nat} (hq : Answers (progressing frame vars keys) (tableOf frame)
      (fun _ => (progressing frame vars keys).allows) (ofDepth n)) :
    Stage (progressing frame vars keys) (tableOf frame)
      (fun _ => (progressing frame vars keys).allows) (ofDepth n) :=
  have hunknown : (progressing frame vars keys).paths Path.unknown :=
    (progressing_rules hc hkeys).roads.unknown
  { hq, Finds.of_learning hc n progressing_of_learning with
    forgetDeclared := fun _ _ _ _ hpath hv hdeclared =>
      forgetDeclared_progresses hq hv hdeclared hpath hunknown
    forgetObject := fun _ _ _ hpath hn => forgetObject_progresses hq hn hpath hunknown
    forgetClass := fun _ path _ hn => forgetClass_progresses hq hn path hunknown
    told := fun o => invalidate_progresses hq hc hunknown o }

theorem progressing_answers (n : Nat) : Answers (progressing frame vars keys) (tableOf frame)
      (fun _ => (progressing frame vars keys).allows) (ofDepth n) :=
  (progressing_rules hc hkeys).answers n (fun _ _ => progressing_stage hc hkeys) n (Nat.le_refl n)

end

end

/-! ## Passes make progress -/

section

variable {g g' : Graph}

theorem Includes.met (h : Includes g g') (m : Milestone) (hm : g.Met m) : g'.Met m := by
  refine h.toEvolves.met (fun k hk => ?_) (fun k hk => ?_) (fun k hk => ?_) (fun k => ?_) m hm
  · rw [h.facts k]; exact hk
  · rw [h.facts k]; exact hk
  · rw [h.facts k]; exact hk
  · rw [h.facts k]; exact fun _ => id

theorem Includes.within (h : Includes g g') {keys : Finset Key} (hg : g.Within vars keys) :
    g'.Within vars keys :=
  hg.evolves h.toEvolves fun k key hkey => .inl (by rw [h.facts k] at hkey; exact hkey)

end

/-- One pass: milestones stay met, and another pass is asked for only where one more is met. -/
def onePass (frame : Places) (vars : Nat)
    (keys : Finset Key) : Conduct where
  holds := (progressing frame vars keys).holds
  allows g g' := Evolves g g' ∧ Progresses vars g g'
  refl g := ⟨.refl g, .refl vars g⟩
  trans h h' := ⟨h.1.trans h'.1, h.2.trans h'.2⟩

/-- Marking as a whole: milestones stay met. The variables behind the exports of the entries may be
new ones, which no pass includes. -/
def manyPasses (frame : Places) (vars : Nat)
    (keys : Finset Key) : Conduct where
  holds := (progressing frame vars keys).holds
  allows g g' := Evolves g g' ∧ ∀ m, g.Met m → g'.Met m
  refl g := ⟨.refl g, fun _ => id⟩
  trans h h' := ⟨h.1.trans h'.1, fun m hm => h'.2 m (h.2 m hm)⟩

section

variable {frame : Places} {vars : Nat}
  {keys : Finset Key} {g g' : Graph}

theorem progressing_includes (hg : (progressing frame vars keys).holds g) (h : Includes g g')
    (hg' : Linkable g') : (progressing frame vars keys).holds g' :=
  ⟨⟨hg.1.1.evolves h.toEvolves hg', h.frame.trans hg.1.2⟩, h.within hg.2⟩

theorem manyPasses_includes (hg : (progressing frame vars keys).holds g) (h : Includes g g')
    (hg' : Linkable g') :
    (manyPasses frame vars keys).holds g' ∧ (manyPasses frame vars keys).allows g g' :=
  ⟨progressing_includes hg h hg', h.toEvolves, h.met⟩

/-- Names stand for variables that were there when names were resolved. -/
def NamesBelow (frame : Places)
    (vars : Nat) : Prop :=
  ∀ {g : Graph} {n v}, g.frame = frame → Held (tableOf frame) n → g.namedVar? n = some v → v < vars

theorem onePass_marks (hnames : NamesBelow frame vars) :
    Marks (onePass frame vars keys) (tableOf frame) fun _ _ => True where
  named := fun hg hg' => namedVar?_congr (resolution_of_frame (hg'.1.2.trans hg.1.2.symm))
  lasts := fun _ _ _ => trivial
  node := fun {n g} _ hg _ _ => by
    have hmark := Includes.markNode g n.id
    exact ⟨progressing_includes hg hmark (hg.1.1.markNode n.id).linkable,
      ⟨hmark.toEvolves, hmark.met, .inl⟩, fun _ _ => trivial⟩
  name := fun {n g v} hn hg _ _ hv => by
    have hmark := Includes.markNode g n.id
    have hsound := hg.1.1.markNode n.id
    obtain ⟨hinclude, hsound'⟩ := hsound.includeVariable v
    have htotal := hmark.trans hinclude
    refine ⟨progressing_includes hg htotal hsound'.linkable, htotal.toEvolves, htotal.met,
      fun hneeds => ?_⟩
    -- The variable is the milestone, unless there was nothing to include.
    obtain ⟨-, -, hfresh⟩ := variableIn_fresh (variableSteps (g.markNode n.id)) v _ hsound.linkable
    rw [← includeVariable_eq] at hfresh
    rcases hfresh with hsame | ⟨hout, hin, -⟩
    · rw [hsame] at hneeds
      exact .inl hneeds
    · exact .inr ⟨.included v, hnames hg.1.2 hn hv,
        fun hmet => Bool.false_ne_true (hout.symm.trans hmet), hin⟩

theorem manyPasses_marks (hnames : NamesBelow frame vars) :
    Marks (manyPasses frame vars keys) (tableOf frame) fun _ _ => True where
  named := fun hg hg' => namedVar?_congr (resolution_of_frame (hg'.1.2.trans hg.1.2.symm))
  lasts := fun _ _ _ => trivial
  node := fun hn hg hready hname => by
    obtain ⟨hg', h, hchildren⟩ := (onePass_marks hnames).node hn hg hready hname
    exact ⟨hg', ⟨h.1, h.2.met⟩, hchildren⟩
  name := fun hn hg hready hname hv => by
    obtain ⟨hg', h⟩ := (onePass_marks hnames).name hn hg hready hname hv
    exact ⟨hg', h.1, h.2.met⟩

theorem manyPasses_same (h : g' = { g with needsPass := g'.needsPass, log := g'.log })
    (hg : (manyPasses frame vars keys).holds g) :
    (manyPasses frame vars keys).holds g' ∧ (manyPasses frame vars keys).allows g g' := by
  have he : Evolves g g' := by
    rw [h]
    exact { Evolves.refl g with }
  have hmet : ∀ m, g.Met m → g'.Met m := by
    rw [h]
    exact fun _ => id
  refine ⟨⟨⟨hg.1.1.evolves he ?_, he.frame.trans hg.1.2⟩, hg.2.evolves he ?_⟩, he, hmet⟩
  · rw [h]
    exact hg.1.1.linkable.congr rfl rfl rfl rfl
  · rw [h]
    exact fun _ _ => .inl

theorem manyPasses_passes :
    Passes (manyPasses frame vars keys) (tableOf frame) fun _ _ => True where
  program := fun {g m mod} hg hmod => by
    refine ⟨?_, trivial⟩
    rw [← hg.1.2, tableOf_frame]
    exact hg.1.1.placed.held_program hmod
  entryExports := fun m => by
    refine Steps.keeps (P := fun _ _ => True) fun g hg => ?_
    obtain ⟨hl, hg', -⟩ := entryExports_links m g hg.1.1.linkable
    obtain ⟨h1, h2⟩ := manyPasses_includes hg (.linked hl) hg'
    exact ⟨h2, h1, trivial⟩
  includeVariable := fun v => by
    refine Steps.keeps (P := fun _ _ => True) fun g hg => ?_
    obtain ⟨hinclude, hsound⟩ := hg.1.1.includeVariable v
    obtain ⟨h1, h2⟩ := manyPasses_includes hg hinclude hsound.linkable
    exact ⟨h2, h1, trivial⟩
  clear := fun g => From.modify (manyPasses_same rfl)
  note := fun g text attrs => From.modify (manyPasses_same rfl)

section

variable (hc : Covers (tableOf frame))
  (hkeys : ∀ {n m key}, tableOf frame n = some m → m.staticKey? = some key → key ∈ keys)
  (hnames : NamesBelow frame vars) {depth : Nat}
include hc hkeys

theorem progressing_serves (n : Nat) :
    Serves (progressing frame vars keys) (tableOf frame) (ofDepth n) :=
  (progressing_stage hc hkeys (progressing_answers hc hkeys n)).serves (progressing_rules hc hkeys)

include hnames

theorem pass_progresses (hg : (progressing frame vars keys).holds g)
    (hrun : Marking.pass depth g = .ok ((), g')) :
    (progressing frame vars keys).holds g' ∧ Evolves g g' ∧ (∀ m, g.Met m → g'.Met m) ∧
      (g'.needsPass = true → ∃ m : Milestone, m.below vars ∧ ¬g.Met m ∧ g'.Met m) := by
  replace hrun := modify_ok hrun
  have hclear : (manyPasses frame vars keys).holds { g with needsPass := false } ∧
      (manyPasses frame vars keys).allows g { g with needsPass := false } := manyPasses_same rfl hg
  obtain ⟨hg1, hevolves1, -⟩ := hclear
  obtain ⟨hg', hevolves, hprogress⟩ := walkModules_keeps hc
    (onePass_marks hnames) (Passes.program manyPasses_passes)
    ((progressing_serves hc hkeys depth).imp rfl fun h => ⟨h.1.toEvolves, h.2⟩) false _ _ _ hg1 hrun
  refine ⟨hg', hevolves1.trans hevolves, hprogress.met, fun hneeds => ?_⟩
  exact (hprogress.request hneeds).resolve_left nofun

theorem Marking.Reached.progresses {g0 : Graph} (h : Marking.Reached depth g0 g)
    (h0 : (progressing frame vars keys).holds g0) :
    (progressing frame vars keys).holds g ∧ Evolves g0 g := by
  obtain ⟨hg, hevolves, -⟩ := h.keeps hc (manyPasses_marks hnames)
    manyPasses_passes
    ((progressing_serves hc hkeys depth).imp rfl fun h => ⟨h.1.toEvolves, h.2.met⟩)
    (fun v => imp
      ((progressing_answers hc hkeys depth).forget _ _
        (progressing_rules hc hkeys).roads.unknown) rfl fun h => ⟨h.1.toEvolves, h.2.met⟩)
    h0
  exact ⟨hg, hevolves⟩

theorem settle_passes (budget : Nat)
    (hbudget : ∀ {g}, (progressing frame vars keys).holds g → g.progress vars ≤ budget) :
    ∀ (left done : Nat) {g g' : Graph} {found : Option Nat}, (progressing frame vars keys).holds g →
      Marking.settle depth left done g = .ok (found, g') →
      (∀ passes, found = some passes → passes + g.progress vars ≤ done + 1 + budget) ∧
        (found = none → left + g.progress vars ≤ budget)
  | 0, done, g, g', found, hg, hrun => by
    obtain ⟨rfl, rfl⟩ := pure_ok.mp hrun
    exact ⟨nofun, fun _ => by have := hbudget hg; omega⟩
  | left + 1, done, g, g', found, hg, hrun => by
    obtain ⟨_, g1, hpass, hrun⟩ := bind_ok.mp hrun
    obtain ⟨hg1, hevolves, hmet, hneeds⟩ := pass_progresses hc hkeys hnames hg hpass
    obtain ⟨_, g2, hnote, hrun⟩ := bind_ok.mp hrun
    have hg2 : (progressing frame vars keys).holds g2 ∧ g2.progress vars = g1.progress vars ∧
        g2.needsPass = g1.needsPass := by
      cases hnote
      exact ⟨(manyPasses_same rfl hg1).1, rfl, rfl⟩
    obtain ⟨hg2, hsame, hsameNeeds⟩ := hg2
    replace hrun := get_ok hrun
    split at hrun
    · obtain ⟨m, hbelow, hnot, hm⟩ := hneeds (hsameNeeds ▸ ‹_›)
      have hlt := progress_lt hmet vars hevolves.frame hbelow hnot hm
      obtain ⟨hsome, hnone⟩ := settle_passes budget hbudget left (done + 1) hg2 hrun
      refine ⟨fun passes hfound => ?_, fun hfound => ?_⟩
      · have := hsome passes hfound
        omega
      · have := hnone hfound
        omega
    · obtain ⟨rfl, rfl⟩ := pure_ok.mp hrun
      refine ⟨fun passes hfound => ?_, nofun⟩
      cases hfound
      have := hbudget hg
      omega

end

end

theorem Evolves.size_le (h : Evolves g g') : g.symbols.vars.size ≤ g'.symbols.vars.size := by
  by_contra hlt
  exact Nat.lt_irrefl _ (h.lt (Nat.not_le.mp hlt))

theorem Milestone.below.mono {m : Milestone} {vars' : Nat} (h : m.below vars) (hle : vars ≤ vars') :
    m.below vars' := by
  cases m with
  | included v | reassigned v => exact Nat.lt_of_lt_of_le h hle
  | _ => trivial

theorem Graph.Built.within (hg : g.Built) (keys : Finset Key) :
    g.Within g.symbols.vars.size keys where
  forgottenKeys := fun n key hkey => by
    rw [Graph.facts] at hkey
    cases hr : g.record? n with
    | none => rw [hr] at hkey; cases hkey
    | some r =>
      rw [hr, Option.map_some, hg.facts hr] at hkey
      cases hkey
  declared := fun hw _ => lt_of_var? hw

/-- **The inclusion loop settles**, however deep questions may nest. No pass takes progress back, and a pass that asks for another one
has made some. So there are never more passes than milestones and one, and a limit that allows for
these is never exceeded. -/
theorem marking_settles {files : Files} {entries : List Bytes} {o : BuildOptions} {g₀ : Graph}
    (hbuilt : g₀.BuiltFrom files entries o) (depth : Nat) :
    (∀ {g g'}, Marking.Reached depth g₀ g → Marking.pass depth g = .ok ((), g') →
      g.progress g.symbols.vars.size ≤ g'.progress g'.symbols.vars.size ∧
        (g'.needsPass = true →
          g.progress g.symbols.vars.size < g'.progress g'.symbols.vars.size)) ∧
    ∀ {how outcome g}, Marking.mark depth how g₀ = .ok (outcome, g) →
      (∀ stats, outcome = .marked stats → stats.passes ≤ g₀.passBudget) ∧
        (g₀.passBudget ≤ how.limit → ∃ stats, outcome = .marked stats) := by
  have h0 := hbuilt.built
  have hc : Covers (tableOf g₀.frame) := by
    rw [tableOf_frame]
    exact h0.placed.covers
  have hkeys : ∀ {n m key}, tableOf g₀.frame n = some m → m.staticKey? = some key →
      key ∈ g₀.staticKeys := fun hm hkey => mem_staticKeys (tableOf_frame g₀ ▸ hm) hkey
  have hnames : NamesBelow g₀.frame g₀.symbols.vars.size := fun {g n v} hg hn hv => by
    rw [namedVar?_congr (resolution_of_frame hg)] at hv
    exact h0.sound.namedVar?_lt (tableOf_frame g₀ ▸ hn) hv
  have hholds : (progressing g₀.frame g₀.symbols.vars.size g₀.staticKeys).holds g₀ :=
    ⟨⟨h0.sound, rfl⟩, h0.within _⟩
  refine ⟨fun {g g'} hreached hrun => ?_, fun {how outcome g} hrun => ?_⟩
  · obtain ⟨hg, hevolves⟩ := hreached.progresses hc hkeys hnames hholds
    obtain ⟨-, hpass, hmet, hneeds⟩ := pass_progresses hc hkeys hnames hg hrun
    have hmono := g'.progress_mono hpass.size_le
    refine ⟨(progress_le hmet _ hpass.frame).trans hmono, fun h => ?_⟩
    obtain ⟨m, hbelow, hnot, hm⟩ := hneeds h
    calc g.progress g.symbols.vars.size
      _ < g'.progress g.symbols.vars.size :=
        progress_lt hmet _ hpass.frame (hbelow.mono hevolves.size_le) hnot hm
      _ ≤ g'.progress g'.symbols.vars.size := hmono
  · have hbudget : ∀ {g}, (progressing g₀.frame g₀.symbols.vars.size g₀.staticKeys).holds g →
        g.progress g₀.symbols.vars.size + 1 ≤ g₀.passBudget := fun {g} hg => by
      have h := hg.2.progress_le
      rw [numbersOf_of_frame hg.1.2] at h
      unfold passBudget
      omega
    unfold Marking.mark at hrun
    split at hrun
    · obtain ⟨_, g1, hentries, hrun⟩ := bind_ok.mp hrun
      obtain ⟨hg1, -⟩ := (Marking.Reached.entryExports hentries).progresses hc hkeys hnames hholds
      obtain ⟨found, g2, hsettle, hrun⟩ := bind_ok.mp hrun
      obtain ⟨hsome, hnone⟩ := settle_passes hc hkeys hnames (g₀.passBudget - 1)
        (fun hg => by have := hbudget hg; omega) how.limit 0 hg1 hsettle
      have hpos := hbudget hg1
      cases found with
      | none =>
        obtain ⟨rfl, -⟩ := pure_ok.mp hrun
        refine ⟨nofun, fun hlimit => ?_⟩
        have := hnone rfl
        omega
      | some passes =>
        obtain ⟨_, _, hget, hrun⟩ := bind_ok.mp hrun
        cases hget
        obtain ⟨rfl, -⟩ := pure_ok.mp hrun
        refine ⟨fun stats hstats => ?_, fun _ => ⟨_, rfl⟩⟩
        cases hstats
        have := hsome passes rfl
        show passes ≤ _
        omega
    · obtain ⟨_, g1, -, hrun⟩ := bind_ok.mp hrun
      obtain ⟨_, g2, -, hrun⟩ := bind_ok.mp hrun
      obtain ⟨_, _, hget, hrun⟩ := bind_ok.mp hrun
      cases hget
      obtain ⟨_, g3, -, hrun⟩ := bind_ok.mp hrun
      obtain ⟨rfl, -⟩ := pure_ok.mp hrun
      refine ⟨fun stats hstats => ?_, fun _ => ⟨_, rfl⟩⟩
      cases hstats
      show 1 ≤ _
      have := hbudget hholds
      omega

def lateLoss : Files :=
  [(utf8 "m", utf8 "var o = \x7b k: true \x7d; if (o.k) f(); else g(); o.k = h();")]

set_option maxRecDepth 100000 in
/-- The first pass loses the branch it went by and asks for another one; marking takes three. -/
theorem marking_settles_lateLoss :
    ∃ g₀ g g' stats last, g₀.BuiltFrom lateLoss [utf8 "m"] {} ∧ Marking.Reached 20 g₀ g ∧
      Marking.pass 20 g = .ok ((), g') ∧ g'.needsPass = true ∧
      g.progress g.symbols.vars.size < g'.progress g'.symbols.vars.size ∧
      Marking.mark 20 {} g₀ = .ok (.marked stats, last) ∧ stats.passes = 3 ∧
      stats.passes ≤ g₀.passBudget := by
  have hbuilt := Graph.builtFrom_ofFiles lateLoss [utf8 "m"] {} (by decide +kernel)
  have hreached : Marking.Reached 20 (.ofFiles lateLoss [utf8 "m"] {}) _ :=
    .afterPasses 0 (by decide +kernel) nofun
  obtain ⟨_, hpass⟩ := Graph.run_after (m := Marking.pass 20)
    (g := Marking.afterPasses 20 (.ofFiles lateLoss [utf8 "m"] {}) 0) (by decide +kernel)
  have hneeds : (Marking.afterPasses 20 (.ofFiles lateLoss [utf8 "m"] {}) 1).needsPass = true := by
    decide +kernel
  obtain ⟨outcome, hmark⟩ := Graph.run_after (m := Marking.mark 20 {})
    (g := .ofFiles lateLoss [utf8 "m"] {}) (by decide +kernel)
  have houtcome : ((Marking.mark 20 {} (.ofFiles lateLoss [utf8 "m"] {})).map Prod.fst).toOption =
      some (.marked ⟨3, 3, 3⟩) := by
    decide +kernel
  rw [hmark] at houtcome
  cases houtcome
  obtain ⟨hpasses, hmarks⟩ := marking_settles hbuilt 20
  exact ⟨_, _, _, _, _, hbuilt, hreached, hpass, hneeds, (hpasses hreached hpass).2 hneeds, hmark,
    rfl, (hmarks hmark).1 _ rfl⟩

end Winnow
