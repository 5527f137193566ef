import Mathlib.Tactic.SplitIfs
import Winnow.Text.Utf8

/-!
# Decoding is the inverse of encoding

A rune is either a stray byte or the UTF-8 form of a scalar value, with that value as its code
(`first_spec`), and the form of a scalar value in front of any text is decoded to that value
(`first_ofCode`). So a text is UTF-8 exactly if it is made of such forms (`isValid_iff`), and which
rune stands in front of a text depends on no byte behind it, unless it is a stray one.
-/

namespace Winnow.Utf8

open Bytes List

variable {b c : UInt8} {s : Bytes} {code : Nat}

/-- The code points that have a UTF-8 form: those below the end of Unicode that are no surrogates. -/
def IsScalar (code : Nat) : Prop := code < 0x110000 ∧ ¬(0xD800 ≤ code ∧ code < 0xE000)

instance (code : Nat) : Decidable (IsScalar code) := inferInstanceAs (Decidable (_ ∧ _))

/-- The code units of a scalar value in UTF-16: the value itself, or two surrogates. -/
def utf16 (code : Nat) : List Nat :=
  if code < 0x10000 then [code]
  else [0xD800 + (code - 0x10000) / 0x400, 0xDC00 + (code - 0x10000) % 0x400]

/-! ## The forms by length -/

theorem toNat_ofNat {n : Nat} (h : n < 256) : (UInt8.ofNat n).toNat = n := by
  rw [UInt8.toNat_ofNat', Nat.mod_eq_of_lt h]

theorem ofCode_one (h : code < 0x80) : ∃ b, ofCode code = [b] ∧ b.toNat = code := by
  refine ⟨_, if_pos h, ?_⟩
  exact toNat_ofNat (by omega)

theorem ofCode_two (h : 0x80 ≤ code) (h' : code < 0x800) :
    ∃ b c, ofCode code = [b, c] ∧ b.toNat = 0xC0 + code / 64 ∧ c.toNat = 0x80 + code % 64 := by
  refine ⟨_, _, ?_, toNat_ofNat ?_, toNat_ofNat ?_⟩
  · rw [ofCode, if_neg (by omega), if_pos h']
  all_goals omega

theorem ofCode_three (h : 0x800 ≤ code) (h' : code < 0x10000)
    (hs : ¬(0xD800 ≤ code ∧ code < 0xE000)) :
    ∃ b c d, ofCode code = [b, c, d] ∧ b.toNat = 0xE0 + code / 4096 ∧
      c.toNat = 0x80 + code / 64 % 64 ∧ d.toNat = 0x80 + code % 64 := by
  refine ⟨_, _, _, ?_, toNat_ofNat ?_, toNat_ofNat ?_, toNat_ofNat ?_⟩
  · rw [ofCode, if_neg (by omega), if_neg (by omega), if_pos h', if_neg hs]
  all_goals omega

theorem ofCode_four (h : 0x10000 ≤ code) (h' : code < 0x110000) :
    ∃ b c d e, ofCode code = [b, c, d, e] ∧ b.toNat = 0xF0 + code / 262144 ∧
      c.toNat = 0x80 + code / 4096 % 64 ∧ d.toNat = 0x80 + code / 64 % 64 ∧
      e.toNat = 0x80 + code % 64 := by
  refine ⟨_, _, _, _, ?_, toNat_ofNat ?_, toNat_ofNat ?_, toNat_ofNat ?_, toNat_ofNat ?_⟩
  · rw [ofCode, if_neg (by omega), if_neg (by omega), if_neg (by omega), if_pos h']
  all_goals omega

theorem isTail_iff : isTail b = true ↔ 0x80 ≤ b.toNat ∧ b.toNat ≤ 0xBF := by
  simp [isTail, UInt8.le_iff_toNat_le]

theorem second_iff :
    ((secondRange b).1 ≤ c && c ≤ (secondRange b).2) = true ↔
      (0x80 ≤ c.toNat ∧ c.toNat ≤ 0xBF) ∧ (b.toNat = 0xE0 → 0xA0 ≤ c.toNat) ∧
        (b.toNat = 0xED → c.toNat ≤ 0x9F) ∧ (b.toNat = 0xF0 → 0x90 ≤ c.toNat) ∧
        (b.toNat = 0xF4 → c.toNat ≤ 0x8F) := by
  have hb : ∀ n : UInt8, (b == n) = decide (b.toNat = n.toNat) := fun n => by
    rw [Bool.eq_iff_iff]; simp [UInt8.toNat_inj]
  simp only [secondRange, UInt8.le_iff_toNat_le]
  split_ifs <;> simp_all <;> omega

/-! ## What stands in front of a text -/

theorem ofCode_pair (hb : 0xC2 ≤ b.toNat) (hb' : b.toNat < 0xE0)
    (hc : 0x80 ≤ c.toNat ∧ c.toNat ≤ 0xBF) :
    ofCode ((b.toNat - 0xC0) * 64 + tailBits c) = [b, c] := by
  unfold tailBits
  generalize hcode : (b.toNat - 0xC0) * 64 + (c.toNat - 0x80) = code
  obtain ⟨b', c', h, h1, h2⟩ := @ofCode_two code (by omega) (by omega)
  have hb : b' = b := UInt8.toNat_inj.mp (by omega)
  have hc : c' = c := UInt8.toNat_inj.mp (by omega)
  rw [h, hb, hc]

theorem ofCode_triple {d : UInt8} (hb : 0xE0 ≤ b.toNat) (hb' : b.toNat < 0xF0)
    (hc : 0x80 ≤ c.toNat ∧ c.toNat ≤ 0xBF) (hE0 : b.toNat = 0xE0 → 0xA0 ≤ c.toNat)
    (hED : b.toNat = 0xED → c.toNat ≤ 0x9F) (hd : 0x80 ≤ d.toNat ∧ d.toNat ≤ 0xBF) :
    ofCode ((b.toNat - 0xE0) * 4096 + tailBits c * 64 + tailBits d) = [b, c, d] := by
  unfold tailBits
  generalize hcode : (b.toNat - 0xE0) * 4096 + (c.toNat - 0x80) * 64 + (d.toNat - 0x80) = code
  obtain ⟨b', c', d', h, h1, h2, h3⟩ :=
    @ofCode_three code (by omega) (by omega) (by omega)
  have hb : b' = b := UInt8.toNat_inj.mp (by omega)
  have hc : c' = c := UInt8.toNat_inj.mp (by omega)
  have hd : d' = d := UInt8.toNat_inj.mp (by omega)
  rw [h, hb, hc, hd]

theorem ofCode_quadruple {d e : UInt8} (hb : 0xF0 ≤ b.toNat) (hb' : b.toNat < 0xF5)
    (hc : 0x80 ≤ c.toNat ∧ c.toNat ≤ 0xBF) (hF0 : b.toNat = 0xF0 → 0x90 ≤ c.toNat)
    (hF4 : b.toNat = 0xF4 → c.toNat ≤ 0x8F) (hd : 0x80 ≤ d.toNat ∧ d.toNat ≤ 0xBF)
    (he : 0x80 ≤ e.toNat ∧ e.toNat ≤ 0xBF) :
    ofCode ((b.toNat - 0xF0) * 262144 + tailBits c * 4096 + tailBits d * 64 + tailBits e) =
      [b, c, d, e] := by
  unfold tailBits
  generalize hcode : (b.toNat - 0xF0) * 262144 + (c.toNat - 0x80) * 4096 +
    (d.toNat - 0x80) * 64 + (e.toNat - 0x80) = code
  obtain ⟨b', c', d', e', h, h1, h2, h3, h4⟩ := @ofCode_four code (by omega) (by omega)
  have hb : b' = b := UInt8.toNat_inj.mp (by omega)
  have hc : c' = c := UInt8.toNat_inj.mp (by omega)
  have hd : d' = d := UInt8.toNat_inj.mp (by omega)
  have he : e' = e := UInt8.toNat_inj.mp (by omega)
  rw [h, hb, hc, hd, he]

/-- **A rune is a stray byte, or the form of a scalar value.** -/
theorem first_spec (b : UInt8) (s : Bytes) : first b s = stray b ∨
    ∃ code rest, IsScalar code ∧ b :: s = ofCode code ++ rest ∧
      first b s = ⟨code, ofCode code⟩ := by
  unfold first
  simp only [UInt8.lt_iff_toNat_lt, UInt8.toNat_ofNat]
  split
  · -- one byte
    obtain ⟨b', hform, hb⟩ := @ofCode_one b.toNat (by omega)
    cases UInt8.toNat_inj.mp hb
    refine .inr ⟨b.toNat, s, ⟨by omega, by omega⟩, ?_⟩
    rw [hform]
    exact ⟨rfl, rfl⟩
  split
  · exact .inl rfl
  split
  · -- two bytes
    split
    next c r =>
      split
      next hc =>
        have hc := isTail_iff.mp hc
        refine .inr ⟨(b.toNat - 0xC0) * 64 + tailBits c, r, ?_, ?_⟩
        · unfold IsScalar tailBits
          omega
        · rw [ofCode_pair (by omega) (by omega) hc]
          exact ⟨rfl, rfl⟩
      · exact .inl rfl
    · exact .inl rfl
  split
  · -- three bytes
    split
    next c d r =>
      split
      next h =>
        rw [Bool.and_eq_true, second_iff] at h
        obtain ⟨⟨hc, hE0, hED, -, -⟩, hd⟩ := h
        have hd := isTail_iff.mp hd
        refine .inr ⟨(b.toNat - 0xE0) * 4096 + tailBits c * 64 + tailBits d, r, ?_, ?_⟩
        · unfold IsScalar tailBits
          omega
        · rw [ofCode_triple (by omega) (by omega) hc hE0 hED hd]
          exact ⟨rfl, rfl⟩
      · exact .inl rfl
    · exact .inl rfl
  split
  · -- four bytes
    split
    next c d e r =>
      split
      next h =>
        rw [Bool.and_eq_true, Bool.and_eq_true, second_iff] at h
        obtain ⟨⟨⟨hc, -, -, hF0, hF4⟩, hd⟩, he⟩ := h
        have hd := isTail_iff.mp hd
        have he := isTail_iff.mp he
        refine .inr ⟨(b.toNat - 0xF0) * 262144 + tailBits c * 4096 + tailBits d * 64 + tailBits e,
          r, ?_, ?_⟩
        · unfold IsScalar tailBits
          omega
        · rw [ofCode_quadruple (by omega) (by omega) hc hF0 hF4 hd he]
          exact ⟨rfl, rfl⟩
      · exact .inl rfl
    · exact .inl rfl
  · exact .inl rfl

/-- **The form of a scalar value in front of any text is decoded to that value.** -/
theorem first_ofCode (h : IsScalar code) {t : Bytes} (hform : ofCode code = b :: t)
    (rest : Bytes) : first b (t ++ rest) = ⟨code, b :: t⟩ := by
  obtain ⟨hlt, hsurrogate⟩ := h
  unfold first
  simp only [UInt8.lt_iff_toNat_lt, UInt8.toNat_ofNat]
  by_cases h1 : code < 0x80
  · obtain ⟨b', h, hb⟩ := ofCode_one h1
    obtain ⟨rfl, rfl⟩ := cons.inj (hform.symm.trans h)
    rw [hb, if_pos h1]
  by_cases h2 : code < 0x800
  · obtain ⟨b', c, h, hb, hc⟩ := ofCode_two (by omega) h2
    obtain ⟨rfl, rfl⟩ := cons.inj (hform.symm.trans h)
    have hcode : (b.toNat - 0xC0) * 64 + tailBits c = code := by
      unfold tailBits
      omega
    rw [if_neg (by omega), if_neg (by omega), if_pos (by omega)]
    simp only [cons_append]
    rewrite [if_pos (isTail_iff.mpr (by omega : 0x80 ≤ c.toNat ∧ c.toNat ≤ 0xBF)), hcode]
    rfl
  by_cases h3 : code < 0x10000
  · obtain ⟨b', c, d, h, hb, hc, hd⟩ := ofCode_three (by omega) h3 hsurrogate
    obtain ⟨rfl, rfl⟩ := cons.inj (hform.symm.trans h)
    have hcode : (b.toNat - 0xE0) * 4096 + tailBits c * 64 + tailBits d = code := by
      unfold tailBits
      omega
    rw [if_neg (by omega), if_neg (by omega), if_neg (by omega), if_pos (by omega)]
    simp only [cons_append]
    rewrite [if_pos, hcode]
    · rfl
    · rw [Bool.and_eq_true, second_iff, isTail_iff]
      omega
  · obtain ⟨b', c, d, e, h, hb, hc, hd, he⟩ := ofCode_four (by omega) hlt
    obtain ⟨rfl, rfl⟩ := cons.inj (hform.symm.trans h)
    have hcode : (b.toNat - 0xF0) * 262144 + tailBits c * 4096 + tailBits d * 64 + tailBits e =
        code := by
      unfold tailBits
      omega
    rw [if_neg (by omega), if_neg (by omega), if_neg (by omega), if_neg (by omega),
      if_pos (by omega)]
    simp only [cons_append]
    rewrite [if_pos, hcode]
    · rfl
    · rw [Bool.and_eq_true, Bool.and_eq_true, second_iff, isTail_iff, isTail_iff]
      omega

theorem ofCode_ne_nil (code : Nat) : ofCode code ≠ [] := by
  unfold ofCode
  split_ifs <;> exact cons_ne_nil _ _

theorem first_bytes (b : UInt8) (s : Bytes) : ∃ rest, b :: s = (first b s).bytes ++ rest := by
  rcases first_spec b s with h | ⟨code, rest, -, hs, h⟩ <;> rw [h]
  · exact ⟨s, rfl⟩
  · exact ⟨rest, hs⟩

theorem first_same {s' rest : Bytes} (h : (first b s).code ≠ replacement)
    (hs : b :: s' = (first b s).bytes ++ rest) : first b s' = first b s := by
  rcases first_spec b s with hstray | ⟨code, _, hscalar, -, hrune⟩
  · exact absurd (by rw [hstray]; rfl) h
  · rw [hrune] at hs ⊢
    obtain ⟨c, t, hform⟩ := exists_cons_of_ne_nil (ofCode_ne_nil code)
    rw [hform] at hs ⊢
    obtain ⟨rfl, rfl⟩ := cons.inj hs
    exact first_ofCode hscalar hform rest

/-! ## Whole texts -/

theorem runesAfter_eq (skip : Nat) (s : Bytes) : runesAfter skip s = runes (s.drop skip) := by
  induction s generalizing skip with
  | nil => cases skip <;> rfl
  | cons b s ih =>
    cases skip with
    | zero => rfl
    | succ skip => exact ih skip

theorem runes_cons (b : UInt8) (s : Bytes) :
    runes (b :: s) = first b s :: runes (s.drop ((first b s).bytes.length - 1)) :=
  congrArg (first b s :: ·) (runesAfter_eq _ s)

theorem runes_ofCode (h : IsScalar code) (rest : Bytes) :
    runes (ofCode code ++ rest) = ⟨code, ofCode code⟩ :: runes rest := by
  obtain ⟨b, t, hform⟩ := exists_cons_of_ne_nil (ofCode_ne_nil code)
  rw [hform, cons_append, runes_cons, first_ofCode h hform]
  simp

theorem runes_flatMap {codes : List Nat} (h : ∀ c ∈ codes, IsScalar c) :
    runes (codes.flatMap ofCode) = codes.map fun c => ⟨c, ofCode c⟩ := by
  induction codes with
  | nil => rfl
  | cons c codes ih =>
    rw [flatMap_cons, runes_ofCode (h c mem_cons_self),
      ih fun d hd => h d (mem_cons_of_mem c hd), map_cons]

theorem isStray_form (code : Nat) : isStray ⟨code, ofCode code⟩ = false := by
  by_cases hcode : code = replacement
  · rw [hcode]; decide
  · simp [isStray, hcode]

/-- **A text is UTF-8 exactly if it is made of the forms of scalar values.** -/
theorem isValid_iff :
    isValid s = true ↔
      ∃ codes : List Nat, (∀ c ∈ codes, IsScalar c) ∧ s = codes.flatMap ofCode := by
  constructor
  · intro h
    induction hn : s.length using Nat.strongRecOn generalizing s with
    | ind n ih =>
      cases s with
      | nil => exact ⟨[], forall_mem_nil _, rfl⟩
      | cons b s =>
        rw [isValid, runes_cons, all_cons, Bool.and_eq_true] at h
        obtain ⟨hfirst, hrest⟩ := h
        rcases first_spec b s with hstray | ⟨code, rest, hscalar, hs, hrune⟩
        · rw [hstray] at hfirst
          cases hfirst
        · obtain ⟨c, t, hform⟩ := exists_cons_of_ne_nil (ofCode_ne_nil code)
          rw [hform] at hs
          obtain ⟨rfl, htail⟩ : b = c ∧ s = t ++ rest := cons.inj hs
          have hdrop : s.drop (t.length + 1 - 1) = rest := by
            rw [htail]
            exact drop_left
          rw [hrune, hform, length_cons, hdrop] at hrest
          rw [length_cons, htail, length_append] at hn
          obtain ⟨codes, hcodes, hcodes'⟩ := ih rest.length (by omega) hrest rfl
          refine ⟨code :: codes, ?_, ?_⟩
          · simpa using ⟨hscalar, hcodes⟩
          · rw [flatMap_cons, hform, hs, hcodes']
  · rintro ⟨codes, hcodes, rfl⟩
    rw [isValid, runes_flatMap hcodes, all_map, all_eq_true]
    intro c hc
    simp [isStray_form c]

theorem isValid_ofCode (h : IsScalar code) : isValid (ofCode code) = true :=
  isValid_iff.mpr ⟨[code], by simpa using h, by simp⟩

theorem isValid_append {t : Bytes} (hs : isValid s = true) (ht : isValid t = true) :
    isValid (s ++ t) = true := by
  obtain ⟨codes, hcodes, rfl⟩ := isValid_iff.mp hs
  obtain ⟨codes', hcodes', rfl⟩ := isValid_iff.mp ht
  refine isValid_iff.mpr ⟨codes ++ codes', ?_, flatMap_append.symm⟩
  exact forall_mem_append.mpr ⟨hcodes, hcodes'⟩

theorem isValid_flatMap {α : Type} {l : List α} {f : α → Bytes}
    (h : ∀ a ∈ l, isValid (f a) = true) : isValid (l.flatMap f) = true := by
  induction l with
  | nil => rfl
  | cons a l ih =>
    obtain ⟨ha, hl⟩ := forall_mem_cons.mp h
    exact isValid_append ha (ih hl)

theorem ofCode_byte (h : b ∈ ofCode code) : b.toNat = code ∨ 0x80 ≤ b.toNat := by
  have hhigh (n : Nat) (hle : 0x80 ≤ n) (hlt : n < 256) : 0x80 ≤ (UInt8.ofNat n).toNat := by
    rwa [toNat_ofNat hlt]
  unfold ofCode at h
  split_ifs at h <;> simp only [mem_cons, not_mem_nil, or_false] at h
  · rw [h]
    exact .inl (toNat_ofNat (by omega))
  · rcases h with rfl | rfl <;> exact .inr (hhigh _ (by omega) (by omega))
  · rcases h with rfl | rfl | rfl <;> exact .inr (by decide)
  · rcases h with rfl | rfl | rfl <;> exact .inr (hhigh _ (by omega) (by omega))
  · rcases h with rfl | rfl | rfl | rfl <;> exact .inr (hhigh _ (by omega) (by omega))
  · rcases h with rfl | rfl | rfl <;> exact .inr (by decide)

theorem runes_scalar : ∀ r ∈ runes s, IsScalar r.code := by
  induction hn : s.length using Nat.strongRecOn generalizing s with
  | ind n ih =>
    cases s with
    | nil => exact forall_mem_nil _
    | cons b s =>
      rw [runes_cons, forall_mem_cons]
      rw [length_cons] at hn
      refine ⟨?_, ih _ ?_ rfl⟩
      · rcases first_spec b s with h | ⟨code, -, hscalar, -, h⟩ <;> rw [h]
        · exact (by decide : IsScalar replacement)
        · exact hscalar
      · rw [length_drop]
        omega

end Winnow.Utf8
