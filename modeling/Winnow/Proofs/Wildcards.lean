import Winnow.Proofs.Declining
import Winnow.Proofs.Fingerprints
import Winnow.Proofs.Progress

/-!
# What a variable passes on

A variable passes requests to forget it on to its initial value, but looks at a path once, and a
path that ends in a key that is not known stands for everything it covers. What it passes on it
writes down (`forgetInit_run`). `requests_covered` says that nothing gets lost on the way, and that
nothing is passed on twice, whatever is asked of the program and done to it.

The initial value and those who rely on the variable may make further requests while they are told
of one. Until a reassignment is passed on the variable owes a request (`Variable.Owes`); all others
are accounted for at every moment (`Variable.Kept`).
-/

namespace Winnow

open Query Conduct Winnow.Path List

variable {w w' : Variable} {p : Path}

/-! ## Paths -/

namespace Path

/-- A path stands for another: it is the same, or it is open and covers it. -/
def StandsFor (s p : Path) : Prop := s = p ∨ s.isOpen = true ∧ s.covers p = true

/-- What a request is passed on as: a reassignment changes everything below the value. -/
def request (p : Path) : Path := if p.isEmpty then unknown else p

theorem covers_self : ∀ p : Path, p.covers p = true
  | [] => rfl
  | k :: p => by simp [covers, covers_self p]

theorem isOpen_unknown : unknown.isOpen = true := by decide

theorem StandsFor.refl (p : Path) : p.StandsFor p := .inl rfl

theorem request_of_ne (h : p ≠ []) : p.request = p := by
  cases p with
  | nil => exact absurd rfl h
  | cons k p => rfl

theorem plain_nil : Plain [] := fun _ hk => absurd hk not_mem_nil

theorem plain_unknown : Plain unknown := by
  intro k hk
  rw [mem_singleton.mp hk]
  decide

end Path

/-! ## Keeping account -/

/-- No path was passed on twice, and none that an open one before stands for. -/
structure Passed (sent : List Path) : Prop where
  nodup : sent.Nodup
  fresh : sent.Pairwise fun s t => ¬(s.isOpen = true ∧ s.covers t = true)

/-- A path is passed on if no open one covers it. An open path covers itself, so only other paths can
have been passed on before. -/
theorem Passed.snoc {sent : List Path} (h : Passed sent)
    (hcovered : sent.any (fun s => s.isOpen && s.covers p) = false)
    (hnew : p.isOpen = false → p ∉ sent) : Passed (sent ++ [p]) := by
  have hfresh : ∀ s ∈ sent, ¬(s.isOpen = true ∧ s.covers p = true) := fun s hs => by
    simpa using any_eq_false.mp hcovered s hs
  have hnot : p ∉ sent := by
    intro hmem
    cases hopen : p.isOpen with
    | false => exact hnew hopen hmem
    | true => exact hfresh p hmem ⟨hopen, p.covers_self⟩
  refine ⟨nodup_append.mpr ⟨h.nodup, nodup_singleton p, fun s hs t ht heq => ?_⟩,
    pairwise_append.mpr ⟨h.fresh, pairwise_singleton _ _, fun s hs t ht => ?_⟩⟩
  · rw [mem_singleton.mp ht] at heq
    exact hnot (heq ▸ hs)
  · rw [mem_singleton.mp ht]
    exact hfresh s hs

namespace Variable

/-- What a variable with an initial value remembers of the requests to forget it fits what it passed
on. -/
structure Kept (w : Variable) : Prop extends Passed w.passedOn where
  init : w.init?.isSome = true
  /-- Every change of a property that was requested is accounted for. -/
  requested : ∀ {p : Path}, p.Plain → p ≠ [] → p.fingerprint ∈ w.requested →
    ∃ s ∈ w.passedOn, s.StandsFor p
  /-- Paths that are not open are passed on as they were requested. -/
  known : ∀ s ∈ w.passedOn, s.isOpen = false → s.fingerprint ∈ w.requested
  reassigned : w.reassigned = true → Path.fingerprint [] ∈ w.requested

/-- A variable owes a request: it was reassigned, but that was not passed on yet. -/
def Owes (w : Variable) : Prop :=
  Path.fingerprint [] ∈ w.requested ∧ ∀ s ∈ w.passedOn, ¬s.StandsFor Path.unknown

namespace Kept

theorem of_untouched (h : w.Untouched) (hinit : w.init?.isSome = true) : w.Kept where
  nodup := h.passedOn ▸ nodup_nil
  fresh := h.passedOn ▸ .nil
  init := hinit
  requested := fun _ _ hmem => by simp [h.requested] at hmem
  known := fun _ hs => by simp [h.passedOn] at hs
  reassigned := fun hr => by simp [h.reassigned] at hr

theorem reassign (h : w.Kept) :
    Kept { w with requested := fingerprint [] :: w.requested, reassigned := true } where
  toPassed := h.toPassed
  init := h.init
  requested := fun hp hne hmem => by
    refine (mem_cons.mp hmem).elim (fun heq => ?_) (h.requested hp hne)
    exact absurd (fingerprint_injective hp plain_nil heq) hne
  known := fun s hs hopen => mem_cons_of_mem _ (h.known s hs hopen)
  reassigned := fun _ => mem_cons_self

theorem request (h : w.Kept) (hp : p.Plain) {s : Path} (hs : s ∈ w.passedOn)
    (hsp : s.StandsFor p) : Kept { w with requested := p.fingerprint :: w.requested } where
  toPassed := h.toPassed
  init := h.init
  requested := fun {p'} hp' hne hmem => by
    refine (mem_cons.mp hmem).elim (fun heq => ?_) (h.requested hp' hne)
    rw [fingerprint_injective hp' hp heq]
    exact ⟨s, hs, hsp⟩
  known := fun s hs hopen => mem_cons_of_mem _ (h.known s hs hopen)
  reassigned := fun hr => mem_cons_of_mem _ (h.reassigned hr)

theorem pass (h : w.Kept) (hcovered : w.passedOn.any (fun s => s.isOpen && s.covers p) = false)
    (hopen : p.isOpen = true) : Kept { w with passedOn := w.passedOn ++ [p] } where
  toPassed := h.toPassed.snoc hcovered fun hnot => by simp [hopen] at hnot
  init := h.init
  requested := fun hp hne hmem => by
    obtain ⟨s, hs, hsp⟩ := h.requested hp hne hmem
    exact ⟨s, mem_append_left _ hs, hsp⟩
  known := fun s hs hnot => by
    refine (mem_append.mp hs).elim (h.known s · hnot) fun hs => ?_
    rw [mem_singleton.mp hs, hopen] at hnot
    cases hnot
  reassigned := h.reassigned

theorem send (h : w.Kept) (hp : p.Plain) (hnew : p.fingerprint ∉ w.requested)
    (hcovered : w.passedOn.any (fun s => s.isOpen && s.covers p) = false) :
    Kept { w with requested := p.fingerprint :: w.requested, passedOn := w.passedOn ++ [p] } where
  toPassed := h.toPassed.snoc hcovered fun hopen hmem => hnew (h.known p hmem hopen)
  init := h.init
  requested := fun {p'} hp' hne hmem => by
    rcases mem_cons.mp hmem with heq | hmem
    · rw [fingerprint_injective hp' hp heq]
      exact ⟨p, mem_append_right _ mem_cons_self, .refl p⟩
    · obtain ⟨s, hs, hsp⟩ := h.requested hp' hne hmem
      exact ⟨s, mem_append_left _ hs, hsp⟩
  known := fun s hs hopen => by
    rcases mem_append.mp hs with hs | hs
    · exact mem_cons_of_mem _ (h.known s hs hopen)
    · rw [mem_singleton.mp hs]
      exact mem_cons_self
  reassigned := fun hr => mem_cons_of_mem _ (h.reassigned hr)

end Kept

/-- A variable keeps account from one moment to another: it forgets no request, takes back nothing
that it passed on, and does not come to owe a request. -/
structure Tallies (w w' : Variable) : Prop where
  kept : w'.Kept
  requested : w.requested ⊆ w'.requested
  passedOn : w.passedOn ⊆ w'.passedOn
  owes : w'.Owes → w.Owes

theorem Kept.tallies (h : w.Kept) : w.Tallies w := ⟨h, fun _ => id, fun _ => id, id⟩

theorem Tallies.trans {w'' : Variable} (h : w.Tallies w') (h' : w'.Tallies w'') : w.Tallies w'' where
  kept := h'.kept
  requested := fun _ hr => h'.requested (h.requested hr)
  passedOn := fun _ hs => h'.passedOn (h.passedOn hs)
  owes := fun ho => h.owes (h'.owes ho)

/-- What a variable is and what it remembers of the requests to forget it. -/
def ledger (w : Variable) : VariableForm × Bool × List Bytes × List Path :=
  (w.form, w.reassigned, w.requested, w.passedOn)

theorem Kept.of_ledger (h : w.Kept) (hsame : w'.ledger = w.ledger) : w.Tallies w' := by
  simp only [ledger, Prod.mk.injEq] at hsame
  obtain ⟨hform, hreassigned, hrequested, hpassedOn⟩ := hsame
  have hinit : w'.init? = w.init? := by simp [init?, hform]
  refine ⟨⟨hpassedOn ▸ h.toPassed, hinit ▸ h.init, ?_, ?_, ?_⟩, hrequested ▸ fun _ => id,
    hpassedOn ▸ fun _ => id, ?_⟩
  · rw [hrequested, hpassedOn]
    exact h.requested
  · rw [hrequested, hpassedOn]
    exact h.known
  · rw [hreassigned, hrequested]
    exact h.reassigned
  · rw [Owes, Owes, hrequested, hpassedOn]
    exact id

end Variable

/-! ## Questions keep account -/

/-- The account of a variable is kept. -/
def keeping (frame : Places) (v : VarId) : Conduct where
  holds := (drifting frame).holds
  allows g g' := Evolves g g' ∧
    ∀ {w}, g.var? v = some w → w.Kept → ∃ w', g'.var? v = some w' ∧ w.Tallies w'
  paths := Path.Plain
  refl g := ⟨.refl g, fun hw hkept => ⟨_, hw, hkept.tallies⟩⟩
  trans h h' := ⟨h.1.trans h'.1, fun hw hkept => by
    obtain ⟨_, hw', htally⟩ := h.2 hw hkept
    obtain ⟨_, hw'', htally'⟩ := h'.2 hw' htally.kept
    exact ⟨_, hw'', htally.trans htally'⟩⟩

section

variable {frame : Places} {v : VarId} {g g' : Graph} {q : Queries} {init : NodeId}

theorem keeping_same (he : Evolves g g') (hsame : ∀ {w}, g.var? v = some w →
    ∃ w', g'.var? v = some w' ∧ w'.ledger = w.ledger) : (keeping frame v).allows g g' := by
  refine ⟨he, fun hw hkept => ?_⟩
  obtain ⟨w', hw', hledger⟩ := hsame hw
  exact ⟨w', hw', hkept.of_ledger hledger⟩

theorem Conduct.Keeps.keeping_of_drifting {α : Type} {m : Query α} (h : (drifting frame).Keeps m)
    (hsame : ∀ g a g', m g = .ok (a, g') → ∀ {w}, g.var? v = some w →
      ∃ w', g'.var? v = some w' ∧ w'.ledger = w.ledger) : (keeping frame v).Keeps m := by
  intro g a g' hg hrun
  obtain ⟨hg', hd⟩ := h g a g' hg hrun
  exact ⟨hg', keeping_same hd.toEvolves (hsame g a g' hrun)⟩

theorem Conduct.Keeps.keeping_of_learning {α : Type} {m : Query α} (h : (learning frame).Keeps m) :
    (keeping frame v).Keeps m := by
  refine h.imp rfl fun ⟨hd, hl⟩ => keeping_same hd.toEvolves fun hw => ?_
  obtain ⟨w', hw', hsame⟩ := hl.vars hw
  exact ⟨w', hw', by rw [hsame.rest]; rfl⟩

theorem keeping_absorbs : Absorbs (keeping frame v) frame := by
  refine ⟨rfl, fun h => keeping_same h.toEvolves fun hw => ?_⟩
  obtain ⟨w', hw', hsame⟩ := h.same hw
  exact ⟨w', hw', by rw [hsame]; rfl⟩

theorem keeping_tells : Tells (keeping frame v) (tableOf frame) := by
  have hfacts : ∀ n {f : Facts → Facts}, (∀ x : Facts, x.Drifts (f x)) →
      (keeping frame v).Keeps (modifyFacts n f) := by
    refine fun n f hf => (modifyFacts_drifts n hf).keeping_of_drifting fun g a g' hrun w hw => ?_
    cases hrun
    exact ⟨w, hw, rfl⟩
  have hrequest : ∀ asked : Graph → Bool,
      (keeping frame v).Keeps (modify fun g => if asked g then g.requestPass else g) := by
    refine fun asked => (request_drifts asked).keeping_of_drifting fun g a g' hrun w hw => ?_
    cases hrun
    refine ⟨w, ?_, rfl⟩
    dsimp only
    split <;> exact hw
  refine ⟨fun n _ hf => hfacts n fun x => (hf x).drifts, fun u => ?_, hrequest, fun n => ?_,
    fun _ hrest => ?_⟩
  · refine (drifting_losesAt u .dependents).keeping_of_drifting fun g a g' hrun w hw => ?_
    cases hrun
    rw [Graph.var?_modifyVar, hw]
    split
    · exact ⟨_, rfl, rfl⟩
    · exact ⟨_, rfl, rfl⟩
  · refine (drifting_losses.observer n).keeping_of_drifting fun g a g' hrun w hw => ?_
    cases hrun
    exact ⟨w, hw, rfl⟩
  · exact Keeps.bind' (hfacts _ fun _ => ⟨rfl, id, id, fun _ => id⟩)
      fun _ => Keeps.bind' hrest fun _ => hrequest _

theorem keeping_losesAt {u : VarId} (hne : u ≠ v) : LosesAt (keeping frame v) u := fun hf => by
  refine (drifting_losesAt u hf).keeping_of_drifting fun g a g' hrun w hw => ?_
  cases hrun
  exact ⟨w, by rwa [Graph.var?_modifyVar, if_neg hne], rfl⟩

/-! ## Requests -/

theorem Graph.var?_modifyVar_self (hw : g.var? v = some w) (f : Variable → Variable) :
    (g.modifyVar v f).var? v = some (f w) := by
  rw [Graph.var?_modifyVar, if_pos rfl, hw]
  rfl

/-- Passing on is skipped if an open path that was passed on covers the path; otherwise the path is
written down, and the initial value is told. -/
theorem forgetInit_run (hw : g.var? v = some w) : forgetInit q v init p g =
    if w.passedOn.any (fun s => s.isOpen && s.covers p) then .ok ((), g)
    else q.forget (.node init) p
      (g.modifyVar v fun x => { x with passedOn := x.passedOn ++ [p] }) := by
  rw [forgetInit, bind_run get_run, hw]
  show (if w.passedOn.any _ = true then pure () else _ : Query Unit) g = _
  split <;> rfl

variable (hq : Answers (keeping frame v) (tableOf frame) (fun _ => (keeping frame v).allows) q)
include hq

/-- After passing a path on there is a path that stands for it, if the account fits once there is. -/
theorem forgetInit_keeps (hg : (drifting frame).holds g) (hw : g.var? v = some w) (hp : p.Plain)
    (hcovered : (∃ s ∈ w.passedOn, s.StandsFor p) → w.Kept)
    (hpassed : w.passedOn.any (fun s => s.isOpen && s.covers p) = false →
      Variable.Kept { w with passedOn := w.passedOn ++ [p] })
    (hrun : forgetInit q v init p g = .ok ((), g')) :
    ∃ w', g'.var? v = some w' ∧ w.Tallies w' ∧ ∃ s ∈ w'.passedOn, s.StandsFor p := by
  rw [forgetInit_run hw] at hrun
  cases hany : w.passedOn.any fun s => s.isOpen && s.covers p with
  | true =>
    rw [hany] at hrun
    cases hrun
    obtain ⟨s, hs, hcovers⟩ := any_eq_true.mp hany
    have hstands : ∃ s ∈ w.passedOn, s.StandsFor p := ⟨s, hs, .inr (by simpa using hcovers)⟩
    exact ⟨w, hw, (hcovered hstands).tallies, hstands⟩
  | false =>
    rw [hany] at hrun
    have hw1 := Graph.var?_modifyVar_self hw fun x => { x with passedOn := x.passedOn ++ [p] }
    obtain ⟨hg1, -⟩ := drifting_losesAt v (fun _ => .passedOn _ _) _ _ _ hg (modify_run _)
    obtain ⟨-, -, hend⟩ := hq.forget _ _ hp _ _ _ hg1 hrun
    obtain ⟨w', hw', htally⟩ := hend hw1 (hpassed hany)
    have hfirst : w.Tallies { w with passedOn := w.passedOn ++ [p] } :=
      ⟨hpassed hany, fun _ => id, subset_append_left _ _,
        fun ho => ⟨ho.1, fun s hs => ho.2 s (mem_append_left _ hs)⟩⟩
    exact ⟨w', hw', hfirst.trans htally, p,
      htally.passedOn (mem_append_right _ mem_cons_self), .refl p⟩

/-- While those who rely on a reassigned variable are told, it owes the reassignment; in the end it
does not. -/
theorem reassign_keeps (hg : (drifting frame).holds g) (hw : g.var? v = some w) (hkept : w.Kept)
    (hnew : w.requested.contains (fingerprint []) = false)
    (hrun : forgetDeclared q v w [] g = .ok ((), g')) :
    ∃ w', g'.var? v = some w' ∧ w.Tallies w' ∧ fingerprint [] ∈ w'.requested := by
  have hnot : w.reassigned = false := by
    refine Bool.eq_false_iff.mpr fun hr => ?_
    have hmem := hkept.reassigned hr
    rw [← contains_iff_mem, hnew] at hmem
    cases hmem
  obtain ⟨i, hinit⟩ := Option.isSome_iff_exists.mp hkept.init
  rw [forgetDeclared, hnew, if_neg Bool.false_ne_true, bind_run (modify_run _), if_pos (by rfl),
    if_neg (by simp [hnot]), bind_run (modify_run _), hinit] at hrun
  obtain ⟨_, g1, hnotify, hrun⟩ := bind_ok.mp hrun
  obtain ⟨_, g2, hforget, hrun⟩ := bind_ok.mp hrun
  have hw0 := Graph.var?_modifyVar_self (Graph.var?_modifyVar_self hw fun x =>
    { x with requested := fingerprint [] :: x.requested }) fun x => { x with reassigned := true }
  obtain ⟨hg0, -⟩ := drifting_losesAt v (fun _ => .requested _ _) _ _ _ hg (modify_run _)
  obtain ⟨hg0, -⟩ := drifting_losesAt v .reassigned _ _ _ hg0 (modify_run _)
  obtain ⟨hg1, -, htold⟩ := keeping_tells.notifyVar hq v _ _ _ hg0 hnotify
  obtain ⟨w1, hw1, htally1⟩ := htold hw0 hkept.reassign
  obtain ⟨w2, hw2, htally2, s, hs, hstands⟩ := forgetInit_keeps hq hg1 hw1 plain_unknown
    (fun _ => htally1.kept) (fun hany => htally1.kept.pass hany isOpen_unknown) hforget
  -- A request for a pass at the end changes nothing here.
  have hw' : g'.var? v = some w2 := by
    cases hrun
    dsimp only
    split <;> exact hw2
  have hrequested := fun {r} hr => htally2.requested (htally1.requested (a := r) hr)
  refine ⟨w2, hw', ⟨htally2.kept, fun r hr => hrequested (mem_cons_of_mem _ hr), fun t ht => ?_,
    fun ho => absurd hstands (ho.2 s hs)⟩, hrequested mem_cons_self⟩
  exact htally2.passedOn (htally1.passedOn ht)

/-- A change of a property is written down and passed on, or a path stands for it. -/
theorem change_keeps (hg : (drifting frame).holds g) (hw : g.var? v = some w) (hkept : w.Kept)
    (hplain : p.Plain) (hp : p ≠ []) (hnew : w.requested.contains p.fingerprint = false)
    (hrun : forgetDeclared q v w p g = .ok ((), g')) :
    ∃ w', g'.var? v = some w' ∧ w.Tallies w' ∧ p.fingerprint ∈ w'.requested := by
  obtain ⟨i, hinit⟩ := Option.isSome_iff_exists.mp hkept.init
  rw [forgetDeclared, hnew, if_neg Bool.false_ne_true, bind_run (modify_run _),
    if_neg (by simpa using hp), hinit] at hrun
  have hw0 := Graph.var?_modifyVar_self hw fun x =>
    { x with requested := p.fingerprint :: x.requested }
  obtain ⟨hg0, -⟩ := drifting_losesAt v (fun _ => .requested _ _) _ _ _ hg (modify_run _)
  have hnotmem : p.fingerprint ∉ w.requested := fun hmem => by
    rw [← contains_iff_mem, hnew] at hmem
    cases hmem
  obtain ⟨w', hw', htally, -⟩ := forgetInit_keeps hq hg0 hw0 hplain
    (fun ⟨s, hs, hstands⟩ => hkept.request hplain hs hstands)
    (fun hany => hkept.send hplain hnotmem hany) hrun
  refine ⟨w', hw', ⟨htally.kept, fun r hr => htally.requested (mem_cons_of_mem _ hr),
    htally.passedOn, fun ho => ?_⟩, htally.requested mem_cons_self⟩
  -- The path is not the one of a reassignment.
  obtain ⟨hmem, hnone⟩ := htally.owes ho
  rcases mem_cons.mp hmem with heq | hmem
  · exact absurd (fingerprint_injective hplain plain_nil heq.symm) hp
  · exact ⟨hmem, hnone⟩

/-- A variable remembers every request to forget it, and keeps its account. -/
theorem request_keeps (hg : (drifting frame).holds g) (hw : g.var? v = some w) (hkept : w.Kept)
    (hplain : p.Plain) (hrun : forgetDeclared q v w p g = .ok ((), g')) :
    ∃ w', g'.var? v = some w' ∧ w.Tallies w' ∧ p.fingerprint ∈ w'.requested := by
  cases hnew : w.requested.contains p.fingerprint with
  | true =>
    rw [forgetDeclared, hnew] at hrun
    obtain ⟨-, rfl⟩ := pure_ok.mp hrun
    exact ⟨w, hw, hkept.tallies, contains_iff_mem.mp hnew⟩
  | false =>
    by_cases hp : p = []
    · subst hp
      exact reassign_keeps hq hg hw hkept hnew hrun
    · exact change_keeps hq hg hw hkept hplain hp hnew hrun

end

section

variable {frame : Places} {v : VarId} {g g' : Graph} (hc : Covers (tableOf frame))
  (hkeys : ∀ {n m key}, tableOf frame n = some m → m.staticKey? = some key → (1 : UInt8) ∉ key)
include hc hkeys

theorem keeping_rules : Rules (keeping frame v) (tableOf frame) :=
  .of_learning hc (.of_keys (fun _ => Iff.rfl) (by decide) hkeys)
    ⟨drifting_tracks.holds, fun h => h.1.tracker, fun h => ⟨{ h.1 with tracker := rfl }, h.2⟩⟩
    (fun _ => id) Keeps.keeping_of_learning

theorem keeping_stage (n : Nat) (hq : Answers (keeping frame v) (tableOf frame)
    (fun _ => (keeping frame v).allows) (Queries.ofDepth n)) :
    Stage (keeping frame v) (tableOf frame) (fun _ => (keeping frame v).allows)
      (Queries.ofDepth n) := by
  refine keeping_tells.stage (keeping_rules hc hkeys) (.of_learning hc n Keeps.keeping_of_learning)
    hq fun g id w p hp hw _ => ?_
  by_cases hid : id = v
  · subst hid
    intro a g' hg hrun
    obtain ⟨hg', hd⟩ := drifting_losses.forgetDeclared (drifting_rules hc) (drifting_answers hc n)
      (drifting_losesAt id) w trivial g a g' hg hrun
    refine ⟨hg', hd.toEvolves, fun {w₁} hw₁ hkept => ?_⟩
    rw [hw] at hw₁
    cases hw₁
    obtain ⟨w', hw', htally, -⟩ := request_keeps hq hg hw hkept hp hrun
    exact ⟨w', hw', htally⟩
  · exact keeping_tells.forgetDeclared (keeping_rules hc hkeys) hq (keeping_losesAt hid) w hp g

theorem keeping_answers (n : Nat) : Answers (keeping frame v) (tableOf frame)
    (fun _ => (keeping frame v).allows) (Queries.ofDepth n) :=
  (keeping_rules hc hkeys).answers n (fun k _ => keeping_stage hc hkeys k) n (Nat.le_refl n)

theorem operation_keeps (depth : Nat) {op : Operation}
    (hplain : ∀ e p, op = .forget e p → p.Plain) : (keeping frame v).Keeps (op.run depth) :=
  op.run_keeps hc keeping_absorbs (keeping_rules hc hkeys)
    (keeping_stage hc hkeys depth (keeping_answers hc hkeys depth)) hplain

/-- An operation that requests the variable to forget a path is remembered. -/
theorem operation_remembered {depth : Nat} {w : Variable} {p : Path}
    (hg : (drifting frame).holds g) (hw : g.var? v = some w) (hkept : w.Kept) (hplain : p.Plain)
    (hrun : (Operation.forget (.var v) p).run depth g = .ok ((), g')) :
    ∃ w', g'.var? v = some w' ∧ p.fingerprint ∈ w'.requested := by
  cases depth with
  | zero => cases hrun
  | succ depth =>
    have hrun : forgetDeclared (Queries.ofDepth depth) v w p g = .ok ((), g') := by
      change Query.forget (Queries.ofDepth depth) (.var v) p g = .ok ((), g') at hrun
      rw [Query.forget, bind_run get_run, hw] at hrun
      have hinit := hkept.init
      cases hform : w.form with
      | declared kind ds i => simpa only [forgetVar, hform] using hrun
      | _ => simp [Variable.init?, hform] at hinit
    obtain ⟨w', hw', -, hmem⟩ := request_keeps (keeping_answers hc hkeys depth) hg hw hkept hplain hrun
    exact ⟨w', hw', hmem⟩

/-- A sequence of operations keeps the account, and what it requests of the variable is remembered in
the end. -/
theorem operations_keep : ∀ {ops : List (Nat × Operation)} {g : Graph} {w : Variable},
    (∀ depth e p, (depth, .forget e p) ∈ ops → p.Plain) → (drifting frame).holds g →
    g.var? v = some w → w.Kept → (ops.forM fun o => o.2.run o.1) g = .ok ((), g') →
    ∃ w', g'.var? v = some w' ∧ w.Tallies w' ∧
      ∀ depth p, (depth, .forget (.var v) p) ∈ ops → p.fingerprint ∈ w'.requested
  | [], g, w, _, _, hw, hkept, hrun => by
    cases hrun
    exact ⟨w, hw, hkept.tallies, fun _ _ hmem => absurd hmem not_mem_nil⟩
  | (depth, op) :: ops, g, w, hplain, hg, hw, hkept, hrun => by
    obtain ⟨_, g1, hop, hrest⟩ := bind_ok.mp hrun
    have hfirst : ∀ e p, op = .forget e p → p.Plain := fun e p heq =>
      hplain depth e p (heq ▸ mem_cons_self)
    obtain ⟨hg1, -, hstep⟩ := operation_keeps hc hkeys depth hfirst g _ g1 hg hop
    obtain ⟨w1, hw1, htally⟩ := hstep hw hkept
    obtain ⟨w', hw', htally', hmem⟩ := operations_keep
      (fun depth e p h => hplain depth e p (mem_cons_of_mem _ h)) hg1 hw1 htally.kept hrest
    refine ⟨w', hw', htally.trans htally', fun depth' p h => ?_⟩
    rcases mem_cons.mp h with heq | h
    · cases heq
      obtain ⟨w2, hw2, hp⟩ := operation_remembered hc hkeys hg hw hkept (hfirst _ p rfl) hop
      rw [hw1] at hw2
      cases hw2
      exact htally'.requested hp
    · exact hmem depth' p h

end

/-- **Wildcards cover.** Take a program whose names are resolved and whose property accesses are
written without the byte 1, and any sequence of operations on it. A variable with an initial value
tells it what it writes down as passed on; for every path that the variable is requested to forget,
by the operations or by whatever they lead to, a path that stands for it was passed on; no path was
passed on twice; and none was passed on after an open path that covers it. -/
theorem requests_covered {g g' : Graph} (hbound : g.Bound)
    (hkeys : ∀ key ∈ g.staticKeys, (1 : UInt8) ∉ key) {ops : List (Nat × Operation)}
    (hplain : ∀ depth e p, (depth, .forget e p) ∈ ops → p.Plain)
    (hrun : (ops.forM fun o => o.2.run o.1) g = .ok ((), g')) {v : VarId} {w : Variable}
    {init : NodeId} (hw : g.var? v = some w) (hinit : w.init? = some init) :
    (∀ q p {g₁ w₁}, g₁.var? v = some w₁ → forgetInit q v init p g₁ =
      if w₁.passedOn.any (fun s => s.isOpen && s.covers p) then .ok ((), g₁)
      else q.forget (.node init) p
        (g₁.modifyVar v fun x => { x with passedOn := x.passedOn ++ [p] })) ∧
    ∃ w', g'.var? v = some w' ∧
      (∀ p : Path, p.Plain →
        (∃ depth, (depth, .forget (.var v) p) ∈ ops) ∨ p.fingerprint ∈ w'.requested →
        ∃ s ∈ w'.passedOn, s.StandsFor p.request) ∧
      w'.passedOn.Nodup ∧
      w'.passedOn.Pairwise fun s t => ¬(s.isOpen = true ∧ s.covers t = true) := by
  have hbuilt := hbound.built
  have hnew := hbuilt.vars hw
  have hc : Covers (tableOf g.frame) := by
    rw [tableOf_frame]
    exact hbuilt.placed.covers
  have hstart : w.Kept := .of_untouched hnew (hinit ▸ rfl)
  obtain ⟨w', hw', htally, hmem⟩ := operations_keep (v := v) hc
    (fun hm hkey => hkeys _ (Graph.mem_staticKeys (tableOf_frame g ▸ hm) hkey)) hplain
    ⟨hbuilt.sound, rfl⟩ hw hstart hrun
  refine ⟨fun q p g₁ w₁ => forgetInit_run, w', hw', fun p hp hrequested => ?_,
    htally.kept.nodup, htally.kept.fresh⟩
  have hmem : p.fingerprint ∈ w'.requested :=
    hrequested.elim (fun ⟨depth, h⟩ => hmem depth p h) id
  by_cases hnil : p = []
  · -- Nothing was requested at the start, so nothing is owed in the end.
    subst hnil
    by_contra hnot
    obtain ⟨hmem0, -⟩ := htally.owes ⟨hmem, fun s hs hstands => hnot ⟨s, hs, hstands⟩⟩
    rw [hnew.requested] at hmem0
    cases hmem0
  · rw [Path.request_of_ne hnil]
    exact htally.kept.requested hp hnil hmem

/-- An object that holds the variable it is assigned to. -/
def selfReference : Files := [(utf8 "m", utf8 "var x = \x7b self: x \x7d;")]

/-- Requests of that variable: the first and the empty one lead to another, and of the last three only
the empty one is passed on. -/
def selfRequests : List Path :=
  [[utf8 "self", utf8 "a"], [utf8 "b", Key.unknown], [utf8 "a"], [], [utf8 "c"]]

def selfOperations : List (Nat × Operation) := selfRequests.map fun p => (20, .forget (.var 0) p)

set_option maxRecDepth 100000 in
/-- Of the six paths that come to be requested, four are passed on. -/
theorem requests_covered_selfReference : ∃ g g' w', g.Bound ∧ g'.var? 0 = some w' ∧
    (selfOperations.forM fun o => o.2.run o.1) g = .ok ((), g') ∧
    w'.requested.length = 6 ∧
    w'.passedOn = [[utf8 "self", utf8 "a"], [utf8 "a"], [utf8 "b", Key.unknown], Path.unknown] ∧
    ∀ p : Path, p.Plain →
      (∃ depth, (depth, .forget (.var 0) p) ∈ selfOperations) ∨ p.fingerprint ∈ w'.requested →
      ∃ s ∈ w'.passedOn, s.StandsFor p.request := by
  let g : Graph := .ofFiles selfReference [utf8 "m"] {}
  let g' := g.after (selfOperations.forM fun o => o.2.run o.1)
  have hbound : g.Bound := .modules (Graph.builtFrom_ofFiles selfReference [utf8 "m"] {}
    (by decide +kernel))
  have hruns : ((g.var? 0).bind Variable.init? = some 3 ∧ (∀ key ∈ g.staticKeys, (1 : UInt8) ∉ key) ∧
      ((selfOperations.forM fun o => o.2.run o.1) g).toBool = true) ∧
      (g'.var? 0).map (fun w => w.requested.length) = some 6 ∧
      (g'.var? 0).map Variable.passedOn =
        some [[utf8 "self", utf8 "a"], [utf8 "a"], [utf8 "b", Key.unknown], Path.unknown] := by
    decide +kernel
  obtain ⟨⟨hvar, hkeys, hok⟩, hrequested, hpassedOn⟩ := hruns
  obtain ⟨w, hw, hinit⟩ := Option.bind_eq_some_iff.mp hvar
  obtain ⟨_, hrun⟩ := Graph.run_after hok
  have hplain : ∀ depth e p, (depth, .forget e p) ∈ selfOperations → p.Plain := by
    have hall : ∀ p ∈ selfRequests, p.Plain := by
      unfold Path.Plain
      decide +kernel
    intro depth e p hmem
    obtain ⟨_, hp, heq⟩ := mem_map.mp hmem
    cases heq
    exact hall _ hp
  obtain ⟨-, w', hw', hcovered, -⟩ := requests_covered hbound hkeys hplain hrun hw hinit
  rw [hw'] at hrequested hpassedOn
  exact ⟨g, g', w', hbound, hw', hrun, Option.some.inj hrequested, Option.some.inj hpassedOn, hcovered⟩

end Winnow
