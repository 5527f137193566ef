import Mathlib.Data.List.Dedup
import Mathlib.Data.List.Induction
import Mathlib.Tactic.Tauto
import Winnow.Access.Tracker

/-!
# Paths told apart

Questions are remembered by the fingerprints of their paths, in which the byte 1 ends a key. All that
a fingerprint forgets is whether such a byte was part of a key (`fingerprint_eq_iff`), so what was
asked before is known up to that (`asks_exact`).
-/

namespace Winnow

open List

namespace Path

/-- No key holds the byte that ends a key in a fingerprint. -/
def Plain (p : Path) : Prop := ∀ k ∈ p, (1 : UInt8) ∉ k

/-- The keys of a path, cut where they hold the byte that ends a key in a fingerprint. -/
def parts (p : Path) : Path := p.flatMap (List.splitOn 1)

theorem splitOn_fingerprint (p : Path) : splitOn 1 p.fingerprint = p.parts ++ [[]] := by
  induction p with
  | nil => rfl
  | cons k p ih =>
    have hcons : fingerprint (k :: p) = k ++ 1 :: fingerprint p := by simp [fingerprint]
    rw [hcons, splitOn_append_cons_self, ih, ← append_assoc]
    rfl

theorem fingerprint_eq_iff {p q : Path} : p.fingerprint = q.fingerprint ↔ p.parts = q.parts := by
  constructor
  · intro h
    have hsplit : p.parts ++ [[]] = q.parts ++ [[]] := by
      rw [← splitOn_fingerprint, h, splitOn_fingerprint]
    exact append_cancel_right hsplit
  · intro h
    rw [← @List.intercalate_splitOn _ p.fingerprint _ _ 1, splitOn_fingerprint, h,
      ← splitOn_fingerprint, intercalate_splitOn]

theorem not_mem_of_mem_splitOn {s : Bytes} : ∀ k ∈ splitOn 1 s, (1 : UInt8) ∉ k := by
  induction s with
  | nil => simp
  | cons b s ih =>
    rw [splitOn_cons_eq_if_modifyHead]
    split
    · exact forall_mem_cons.mpr ⟨not_mem_nil, ih⟩
    · next hb =>
      cases hs : splitOn 1 s with
      | nil => simp
      | cons k ks =>
        rw [hs] at ih
        obtain ⟨hk, hks⟩ := forall_mem_cons.mp ih
        refine forall_mem_cons.mpr ⟨fun h => ?_, hks⟩
        rcases mem_cons.mp h with rfl | h
        · exact hb rfl
        · exact hk h

theorem plain_parts (p : Path) : p.parts.Plain := by
  intro k hk
  obtain ⟨l, -, hl⟩ := mem_flatMap.mp hk
  exact not_mem_of_mem_splitOn k hl

theorem Plain.parts_eq {p : Path} (h : p.Plain) : p.parts = p := by
  induction p with
  | nil => rfl
  | cons k p ih =>
    obtain ⟨hk, hp⟩ := forall_mem_cons.mp h
    show splitOn 1 k ++ parts p = k :: p
    rw [splitOn_eq_singleton hk, ih hp]
    rfl

theorem fingerprint_injective {p p' : Path} (hp : p.Plain) (hp' : p'.Plain)
    (h : p.fingerprint = p'.fingerprint) : p = p' :=
  hp.parts_eq.symm.trans ((fingerprint_eq_iff.mp h).trans hp'.parts_eq)

end Path

namespace Seen

variable {α δ : Type}

/-- What is left of a question that was asked. -/
def view (a : Path × α × Option δ) : Path × α × Option δ := (a.1.parts, a.2)

def entry (a : Path × α × Option δ) : α × Option δ × Bytes := (a.2.1, a.2.2, a.1.fingerprint)

theorem entry_eq_iff {a b : Path × α × Option δ} : entry a = entry b ↔ view a = view b := by
  simp only [entry, view, Prod.ext_iff, Path.fingerprint_eq_iff]
  tauto

theorem view_view (a : Path × α × Option δ) : view (view a) = view a :=
  congrArg (·, a.2) a.1.plain_parts.parts_eq

variable [DecidableEq α] [DecidableEq δ]

/-- What is known after some questions, each with its path, its entity and the use that was meant. -/
def after (asks : List (Path × α × Option δ)) : Seen α δ :=
  asks.foldl (fun s a => (s.ask a.1 a.2.1 a.2.2).2) {}

theorem holds_iff {s : Seen α δ} {a : Path × α × Option δ} :
    s.holds a.1 a.2.1 a.2.2 = true ↔ entry a ∈ s.entries := by
  rw [holds, contains_iff_mem]
  rfl

/-- Every question is remembered once. -/
theorem after_entries (asks : List (Path × α × Option δ)) :
    (after asks).entries.Nodup ∧ ∀ x, x ∈ (after asks).entries ↔ x ∈ asks.map entry := by
  induction asks using reverseRecOn with
  | nil => exact ⟨.nil, fun x => Iff.rfl⟩
  | append_singleton asks a ih =>
    obtain ⟨hnodup, hmem⟩ := ih
    have hstep : after (asks ++ [a]) = ((after asks).ask a.1 a.2.1 a.2.2).2 := by simp [after]
    have hnew : ∀ x, x ∈ (asks ++ [a]).map entry ↔ x = entry a ∨ x ∈ (after asks).entries := by
      intro x
      rw [hmem, map_append, mem_append, or_comm]
      simp
    rw [hstep, ask]
    split
    · next h =>
      refine ⟨hnodup, fun x => ((hnew x).trans (or_iff_right_of_imp ?_)).symm⟩
      rintro rfl
      exact holds_iff.mp h
    · next h =>
      exact ⟨nodup_cons.mpr ⟨fun hx => h (holds_iff.mpr hx), hnodup⟩,
        fun x => mem_cons.trans (hnew x).symm⟩

/-- After any questions, one is answered as asked before exactly if one with the same entity, the
same use and the same path up to the byte 1 in keys was. As many are remembered as differ so. Paths
without that byte in keys are taken as they are. -/
theorem asks_exact (asks : List (Path × α × Option δ)) :
    (∀ a : Path × α × Option δ,
      ((after asks).ask a.1 a.2.1 a.2.2).1 = true ↔ view a ∈ asks.map view) ∧
    (after asks).size = (asks.map view).dedup.length ∧ ∀ p : Path, p.parts = p ↔ p.Plain := by
  obtain ⟨hnodup, hmem⟩ := after_entries asks
  refine ⟨fun a => ?_, ?_, fun p => ⟨fun h => h ▸ p.plain_parts, Path.Plain.parts_eq⟩⟩
  · have hasked : ((after asks).ask a.1 a.2.1 a.2.2).1 = (after asks).holds a.1 a.2.1 a.2.2 := by
      cases h : (after asks).holds a.1 a.2.1 a.2.2 <;> simp [ask, h]
    rw [hasked, holds_iff, hmem, mem_map, mem_map]
    simp only [entry_eq_iff]
  · have hviews : ((asks.map view).dedup.map entry).Nodup := by
      refine (nodup_dedup _).map_on fun v hv v' hv' heq => ?_
      obtain ⟨a, -, rfl⟩ := mem_map.mp (mem_dedup.mp hv)
      obtain ⟨b, -, rfl⟩ := mem_map.mp (mem_dedup.mp hv')
      rwa [entry_eq_iff, view_view, view_view] at heq
    have hperm : (after asks).entries.Perm ((asks.map view).dedup.map entry) := by
      refine (perm_ext_iff_of_nodup hnodup hviews).mpr fun x => (hmem x).trans ?_
      simp only [mem_map, mem_dedup, exists_exists_and_eq_and,
        entry_eq_iff.mpr (view_view _)]
    exact hperm.length_eq.trans (length_map entry)

end Seen

end Winnow
