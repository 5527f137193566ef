import Winnow.Proofs.Runes
import Winnow.Value

/-!
# The order of texts

Texts are compared byte by byte, which is the order of their code points. The order of their UTF-16
code units is another one: the surrogates of a code point beyond U+FFFF stand below the units from
U+E000 on. Both orders are read off the first code points that differ (`compare_flatMap`), and a
comparison of two texts follows UTF-16 unless one of these is in U+E000..U+FFFF and the other is
beyond (`fold_order_iff`).
-/

namespace Winnow

open List

variable {a b c d : Nat} {cs ds : List Nat}

namespace Utf8

/-- The place of a scalar value in the order of UTF-16. -/
def rank16 (code : Nat) : Nat :=
  if 0xE000 ≤ code ∧ code < 0x10000 then code + 0x110000 else code

/-- The UTF-16 form of a text. -/
def units (s : Bytes) : List Nat := (runes s).flatMap fun r => utf16 r.code

/-! ## Comparing numbers and their digits -/

theorem compare_cons (a b : Nat) (s t : List Nat) :
    compare (a :: s) (b :: t) = (compare a b).then (compare s t) := List.compareLex_cons_cons

theorem compare_congr (h : a < b ↔ c < d) (h' : b < a ↔ d < c) : compare a b = compare c d := by
  simp only [Nat.compare_eq_ite_lt, h, h']

theorem compare_add (k a b : Nat) : compare (k + a) (k + b) = compare a b :=
  compare_congr Nat.add_lt_add_iff_left Nat.add_lt_add_iff_left

theorem then_of_apart (h : a < b ∧ c < d ∨ b < a ∧ d < c) (o o' : Ordering) :
    (compare a b).then o = (compare c d).then o' := by
  rcases h with ⟨h, h'⟩ | ⟨h, h'⟩
  · rw [Nat.compare_eq_lt.mpr h, Nat.compare_eq_lt.mpr h']
    rfl
  · rw [Nat.compare_eq_gt.mpr h, Nat.compare_eq_gt.mpr h']
    rfl

theorem compare_digit (n a b : Nat) (o : Ordering) :
    (compare (a / n) (b / n)).then ((compare (a % n) (b % n)).then o) = (compare a b).then o := by
  rcases Nat.lt_trichotomy (a / n) (b / n) with h | h | h
  · exact then_of_apart (.inl ⟨h, Nat.lt_of_div_lt_div h⟩) _ _
  · have hb := Nat.div_add_mod b n
    rw [← h] at hb
    rw [Nat.compare_eq_eq.mpr h, ← compare_add (n * (a / n)), Nat.div_add_mod, hb]
    rfl
  · exact then_of_apart (.inr ⟨h, Nat.lt_of_div_lt_div h⟩) _ _

/-! ## Forms of code points -/

theorem map_ofCode (h : IsScalar c) : (Bytes.ofCode c).map UInt8.toNat =
    if c < 0x80 then [c] else if c < 0x800 then [0xC0 + c / 64, 0x80 + c % 64]
    else if c < 0x10000 then [0xE0 + c / 64 / 64, 0x80 + c / 64 % 64, 0x80 + c % 64]
    else [0xF0 + c / 64 / 64 / 64, 0x80 + c / 64 / 64 % 64, 0x80 + c / 64 % 64, 0x80 + c % 64] := by
  obtain ⟨hlt, hsurrogate⟩ := h
  unfold Bytes.ofCode
  split_ifs <;> simp <;> omega

theorem compare_ofCode (hc : IsScalar c) (hd : IsScalar d) (s t : List Nat) :
    compare ((Bytes.ofCode c).map UInt8.toNat ++ s) ((Bytes.ofCode d).map UInt8.toNat ++ t) =
      (compare c d).then (compare s t) := by
  rw [map_ofCode hc, map_ofCode hd]
  obtain ⟨hlt, -⟩ := hc
  obtain ⟨hlt', -⟩ := hd
  by_cases hsame : (c < 0x80 ↔ d < 0x80) ∧ (c < 0x800 ↔ d < 0x800) ∧ (c < 0x10000 ↔ d < 0x10000)
  · simp only [hsame]
    split_ifs <;>
      simp only [cons_append, nil_append, compare_cons, compare_add, compare_digit]
  · -- forms of different lengths differ in their first bytes
    split_ifs <;> exact (compare_cons _ _ _ _).trans (then_of_apart (by omega) _ _)

theorem compare_utf16 (hc : IsScalar c) (hd : IsScalar d) (s t : List Nat) :
    compare (utf16 c ++ s) (utf16 d ++ t) =
      (compare (rank16 c) (rank16 d)).then (compare s t) := by
  obtain ⟨hlt, hsurrogate⟩ := hc
  obtain ⟨hlt', hsurrogate'⟩ := hd
  by_cases hsame : c < 0x10000 ↔ d < 0x10000
  · have hrank : compare (rank16 c) (rank16 d) = compare c d := by
      refine compare_congr ?_ ?_ <;> unfold rank16 <;> split_ifs <;> omega
    unfold utf16
    simp only [hrank, hsame]
    split_ifs
    · simp only [cons_append, nil_append, compare_cons]
    · simp only [cons_append, nil_append, compare_cons, compare_add, compare_digit]
      rw [@compare_congr (c - 0x10000) _ c d (by omega) (by omega)]
  · unfold utf16 rank16
    split_ifs <;> exact (compare_cons _ _ _ _).trans (then_of_apart (by omega) _ _)

/-! ## Texts -/

theorem compare_flatMap {f : Nat → List Nat} {rank : Nat → Nat} (hne : ∀ c, f c ≠ [])
    (h : ∀ {c d}, IsScalar c → IsScalar d → ∀ s t,
      compare (f c ++ s) (f d ++ t) = (compare (rank c) (rank d)).then (compare s t))
    (hcs : ∀ c ∈ cs, IsScalar c) (hds : ∀ d ∈ ds, IsScalar d) :
    compare (cs.flatMap f) (ds.flatMap f) = compare (cs.map rank) (ds.map rank) := by
  induction cs generalizing ds with
  | nil =>
    cases ds with
    | nil => rfl
    | cons d ds =>
      obtain ⟨x, xs, hx⟩ := exists_cons_of_ne_nil (hne d)
      rw [flatMap_cons, hx]
      rfl
  | cons c cs ih =>
    obtain ⟨hc, hcs⟩ := forall_mem_cons.mp hcs
    cases ds with
    | nil =>
      obtain ⟨x, xs, hx⟩ := exists_cons_of_ne_nil (hne c)
      rw [flatMap_cons, hx]
      rfl
    | cons d ds =>
      obtain ⟨hd, hds⟩ := forall_mem_cons.mp hds
      rw [flatMap_cons, flatMap_cons, h hc hd, ih hcs hds, map_cons, map_cons,
        compare_cons]

theorem compare_toNat (s t : Bytes) :
    Bytes.compare s t = compare (s.map UInt8.toNat) (t.map UInt8.toNat) := by
  fun_induction Bytes.compare s t with
  | case1 | case2 | case3 => rfl
  | case4 a s b t h =>
    rw [map_cons, map_cons, compare_cons,
      Nat.compare_eq_lt.mpr (UInt8.lt_iff_toNat_lt.mp h)]
    rfl
  | case5 a s b t _ h =>
    rw [map_cons, map_cons, compare_cons,
      Nat.compare_eq_gt.mpr (UInt8.lt_iff_toNat_lt.mp h)]
    rfl
  | case6 a s b t h h' ih =>
    rw [UInt8.lt_iff_toNat_lt] at h h'
    rw [map_cons, map_cons, compare_cons, Nat.compare_eq_eq.mpr (by omega), ih]
    rfl

/-- The first code points that differ are one of the upper end of the BMP and one beyond. -/
def Crossed : List Nat → List Nat → Prop
  | c :: cs, d :: ds =>
    if c = d then Crossed cs ds
    else 0xE000 ≤ min c d ∧ min c d < 0x10000 ∧ 0x10000 ≤ max c d
  | _, _ => False

/-- Where the orders agree they are the same, and otherwise the opposite of one another. -/
theorem compare_rank16 (hcs : ∀ c ∈ cs, IsScalar c) (hds : ∀ d ∈ ds, IsScalar d) :
    ¬Crossed cs ds ∧ compare (cs.map rank16) (ds.map rank16) = compare cs ds ∨
      Crossed cs ds ∧ compare cs ds ≠ .eq ∧
        compare (cs.map rank16) (ds.map rank16) = (compare cs ds).swap := by
  induction cs generalizing ds with
  | nil => cases ds <;> exact .inl ⟨id, rfl⟩
  | cons c cs ih =>
    cases ds with
    | nil => exact .inl ⟨id, rfl⟩
    | cons d ds =>
      obtain ⟨⟨hc, hc'⟩, hrest⟩ := forall_mem_cons.mp hcs
      obtain ⟨⟨hd, hd'⟩, hrest'⟩ := forall_mem_cons.mp hds
      simp only [map_cons, compare_cons, Crossed]
      by_cases heq : c = d
      · subst heq
        simpa using ih hrest hrest'
      rw [if_neg heq]
      by_cases hcrossed : 0xE000 ≤ min c d ∧ min c d < 0x10000 ∧ 0x10000 ≤ max c d
      · refine .inr ⟨hcrossed, ?_⟩
        rcases Nat.lt_or_gt_of_ne heq with hlt | hlt
        · have hrank : rank16 d < rank16 c := by
            unfold rank16
            split_ifs <;> omega
          rw [Nat.compare_eq_lt.mpr hlt, Nat.compare_eq_gt.mpr hrank]
          exact ⟨nofun, rfl⟩
        · have hrank : rank16 c < rank16 d := by
            unfold rank16
            split_ifs <;> omega
          rw [Nat.compare_eq_gt.mpr hlt, Nat.compare_eq_lt.mpr hrank]
          exact ⟨nofun, rfl⟩
      · refine .inl ⟨hcrossed, then_of_apart ?_ _ _⟩
        unfold rank16
        split_ifs <;> omega

end Utf8

namespace Value

open Utf8

theorem holdsOf_swap {o : Ordering} (h : o ≠ .eq) (op : BinaryOp) :
    holdsOf op o.swap = !holdsOf op o := by
  cases o <;> first | contradiction | cases op <;> rfl

/-- **A comparison of two texts follows their UTF-16 forms unless the first code points that differ
are one in U+E000..U+FFFF and one beyond.** -/
theorem fold_order_iff {op : BinaryOp} {s t : Bytes} (hop : op ∈ [.lt, .gt, .le, .ge])
    (hs : isValid s = true) (ht : isValid t = true) :
    fold op (string s) (string t) = bool (holdsOf op (Ord.compare (units s) (units t))) ↔
      ¬Crossed ((runes s).map Rune.code) ((runes t).map Rune.code) := by
  obtain ⟨cs, hcs, rfl⟩ := isValid_iff.mp hs
  obtain ⟨ds, hds, rfl⟩ := isValid_iff.mp ht
  have hfold : ∀ s t, fold op (string s) (string t) = bool (holdsOf op (Bytes.compare s t)) := by
    intro s t
    simp only [mem_cons, not_mem_nil, or_false] at hop
    rcases hop with rfl | rfl | rfl | rfl <;> rfl
  have hbytes : Bytes.compare (cs.flatMap Bytes.ofCode) (ds.flatMap Bytes.ofCode) =
      Ord.compare cs ds := by
    rw [compare_toNat, map_flatMap, map_flatMap,
      compare_flatMap (by simp [ofCode_ne_nil]) compare_ofCode hcs hds, map_id', map_id']
  have hunits : Ord.compare (cs.flatMap utf16) (ds.flatMap utf16) =
      Ord.compare (cs.map rank16) (ds.map rank16) := by
    refine compare_flatMap (fun c => ?_) compare_utf16 hcs hds
    unfold utf16
    split_ifs <;> exact cons_ne_nil _ _
  simp only [hfold, hbytes, units, runes_flatMap hcs, runes_flatMap hds, flatMap_map, hunits,
    map_map, Function.comp_def, map_id', bool.injEq]
  rcases compare_rank16 hcs hds with ⟨hnot, heq⟩ | ⟨hcrossed, hne, heq⟩
  · simp [heq, hnot]
  · simp [heq, hcrossed, holdsOf_swap hne]

/-- The last code point below the surrogates stands below the first one beyond the BMP. -/
theorem fold_order_below_surrogates :
    isValid [0xED, 0x9F, 0xBF] = true ∧ isValid [0xF0, 0x90, 0x80, 0x80] = true ∧
      fold .lt (string [0xED, 0x9F, 0xBF]) (string [0xF0, 0x90, 0x80, 0x80]) = bool
        (holdsOf .lt (Ord.compare (units [0xED, 0x9F, 0xBF]) (units [0xF0, 0x90, 0x80, 0x80]))) := by
  refine ⟨by decide, by decide, (fold_order_iff (by decide) (by decide) (by decide)).mpr ?_⟩
  show ¬Crossed [0xD7FF] [0x10000]
  simp [Crossed]

/-- The halfwidth full stop stands below it as well, but not in UTF-16. -/
theorem fold_order_halfwidth_stop :
    fold .lt (string [0xEF, 0xBD, 0xA1]) (string [0xF0, 0x90, 0x80, 0x80]) = bool true ∧
      holdsOf .lt (Ord.compare (units [0xEF, 0xBD, 0xA1]) (units [0xF0, 0x90, 0x80, 0x80])) =
        false :=
  ⟨rfl, by decide⟩

end Value

end Winnow
