import Winnow.Proofs.Lexing

/-!
# Reading a lexeme again

What was read as a name, a number or a string somewhere is read as the same in front of any other
text, as long as that text does not go on with it (`Lexed.again`). A name is followed by no byte
that continues a name, a number by none that continues a number. A string ends with its quote
whatever follows.

The length of a number is found part by part: each part of it is as long again when the text behind
it is cut off and replaced by one that continues no number.
-/

namespace Winnow

open Utf8 Bytes List

variable {rest s : Bytes} {b : UInt8}

/-- Whether tokens of a kind are names, keywords, numbers or strings. -/
def TokenKind.isWord : TokenKind → Bool
  | .identifier | .keyword _ | .number | .string => true
  | _ => false

namespace Lexer

/-! ## Bytes that end a lexeme -/

/-- Whether a byte is a blank or a bracket, comma or semicolon, which stand behind anything. -/
def isBreak (b : UInt8) : Bool := [32, 40, 41, 44, 59, 91, 93].contains b

/-- Whether a byte may follow a token of a kind directly. A point belongs to a number. -/
def mayFollow : TokenKind → UInt8 → Bool
  | .string, _ => true
  | .number, b => isBreak b
  | _, b => isBreak b || b == 46

def Follows (kind : TokenKind) (rest : Bytes) : Prop :=
  ∀ b, rest.head? = some b → mayFollow kind b = true

theorem break_spec (h : (isBreak b || b == 46) = true) :
    b < 0x80 ∧ Name.isContinue b.toNat = false ∧ (hexValue? b).isSome = false ∧
      isDigit b = false ∧ b ≠ 95 ∧ b ≠ 43 ∧ b ≠ 45 ∧ b ≠ 101 ∧ b ≠ 69 ∧
      (b == 120 || b == 88) = false := by
  have hall : ([46, 32, 40, 41, 44, 59, 91, 93] : List UInt8).all (fun b =>
      b < 0x80 ∧ Name.isContinue b.toNat = false ∧ (hexValue? b).isSome = false ∧
        isDigit b = false ∧ b ≠ 95 ∧ b ≠ 43 ∧ b ≠ 45 ∧ b ≠ 101 ∧ b ≠ 69 ∧
        (b == 120 || b == 88) = false) = true := by
    decide
  have hmem : b ∈ ([46, 32, 40, 41, 44, 59, 91, 93] : List UInt8) := by
    rw [isBreak, Bool.or_eq_true, contains_eq_mem, decide_eq_true_eq, beq_iff_eq] at h
    exact h.elim (mem_cons_of_mem _) fun h => h ▸ mem_cons_self
  exact of_decide_eq_true (all_eq_true.mp hall b hmem)

/-! ## Names -/

theorem first_ascii (h : b < 0x80) (s : Bytes) : first b s = ⟨b.toNat, [b]⟩ := by
  unfold first
  rw [if_pos h]

theorem skip_le_nameRun {skip : Nat} (h : skip ≤ s.length) : skip ≤ nameRun skip s := by
  induction s generalizing skip with
  | nil => exact h
  | cons b s ih =>
    cases skip with
    | zero => exact Nat.zero_le _
    | succ skip =>
      have := ih (Nat.le_of_succ_le_succ h)
      rw [nameRun]
      omega

theorem first_tail_le (b : UInt8) (s : Bytes) : (first b s).bytes.length - 1 ≤ s.length := by
  obtain ⟨rest, hrest⟩ := first_bytes b s
  have hlength := congrArg length hrest
  rw [length_cons, length_append] at hlength
  omega

theorem first_again {n : Nat} (hcode : (first b s).code ≠ replacement)
    (hn : (first b s).bytes.length - 1 ≤ n) (rest : Bytes) :
    first b (s.take n ++ rest) = first b s := by
  obtain ⟨after, hafter⟩ := first_bytes b s
  have htext : b :: (s.take n ++ rest) = (first b s).bytes ++
      (after.take (n + 1 - (first b s).bytes.length) ++ rest) := by
    rw [← append_assoc, ← cons_append, ← take_succ_cons, hafter, take_append,
      take_of_length_le (by omega)]
  exact first_same hcode htext

theorem ne_replacement_of_isContinue {code : Nat} (h : Name.isContinue code = true) :
    code ≠ replacement := by
  rintro rfl
  exact absurd h (by decide +kernel)

theorem nameRun_again {skip : Nat} (hskip : skip ≤ s.length) (hrest : Follows .identifier rest) :
    nameRun skip (s.take (nameRun skip s) ++ rest) = nameRun skip s := by
  have hstop : nameRun 0 rest = 0 := by
    cases rest with
    | nil => rfl
    | cons b rest =>
      obtain ⟨hascii, hcontinue, -⟩ := break_spec (hrest b rfl)
      rw [nameRun, first_ascii hascii, hcontinue]
      rfl
  induction s generalizing skip with
  | nil =>
    cases Nat.le_zero.mp hskip
    exact hstop
  | cons b s ih =>
    cases skip with
    | succ skip =>
      rw [nameRun, Nat.add_comm 1, take_succ_cons, cons_append, nameRun,
        ih (Nat.le_of_succ_le_succ hskip), Nat.add_comm 1]
    | zero =>
      cases hcontinue : Name.isContinue (first b s).code with
      | false =>
        rw [nameRun, hcontinue]
        exact hstop
      | true =>
        have htail := first_tail_le b s
        have hfirst := first_again (ne_replacement_of_isContinue hcontinue)
          (skip_le_nameRun htail) rest
        rw [nameRun, hcontinue, if_pos rfl, Nat.add_comm 1, take_succ_cons, cons_append,
          nameRun, hfirst, hcontinue, if_pos rfl, ih htail, Nat.add_comm 1]

theorem name_congr {s' : Bytes} (hrun : nameRun 0 (b :: s') = nameRun 0 (b :: s))
    (hword : (b :: s').take (nameRun 0 (b :: s)) = (b :: s).take (nameRun 0 (b :: s))) :
    name b s' = name b s := by
  simp [name, hrun, hword]

theorem name_extra (b : UInt8) (s : Bytes) : (name b s).extra = nameRun 0 (b :: s) - 1 := by
  simp only [name]
  split
  · rfl
  · split <;> rfl

theorem name_first (h : Name.isStart (first b s).code = true) (rest : Bytes) :
    first b (s.take (name b s).extra ++ rest) = first b s := by
  refine first_again (ne_replacement_of_isContinue (isContinue_of_isStart h)) ?_ rest
  rw [name_extra, nameRun, isContinue_of_isStart h, if_pos rfl]
  have := skip_le_nameRun (first_tail_le b s)
  omega

theorem name_again (h : Name.isStart (first b s).code = true)
    (hrest : Follows .identifier rest) : lexeme b (s.take (name b s).extra ++ rest) = name b s := by
  have hpos := nameRun_pos h
  have htake : b :: s.take (name b s).extra = (b :: s).take (nameRun 0 (b :: s)) := by
    rw [name_extra, ← take_succ_cons, Nat.sub_add_cancel hpos]
  have hrun : nameRun 0 (b :: (s.take (name b s).extra ++ rest)) = nameRun 0 (b :: s) := by
    rw [← cons_append, htake]
    exact nameRun_again (Nat.zero_le _) hrest
  have hword : (b :: (s.take (name b s).extra ++ rest)).take (nameRun 0 (b :: s)) =
      (b :: s).take (nameRun 0 (b :: s)) := by
    rw [← cons_append, htake]
    exact take_left' (by rw [length_take, Nat.min_eq_left (nameRun_le 0 _)])
  rw [lexeme, name_first h, if_pos h]
  exact name_congr hrun hword

/-! ## Numbers -/

theorem runLength_cons (p : UInt8 → Bool) (c : UInt8) (s : Bytes) :
    runLength p (c :: s) = if p c then runLength p s + 1 else 0 := by
  rw [runLength, takeWhile_cons]
  split <;> rfl

theorem runLength_stop {p : UInt8 → Bool} (h : ∀ b, rest.head? = some b → p b = false) :
    runLength p rest = 0 := by
  cases rest with
  | nil => rfl
  | cons b rest => rw [runLength_cons, h b rfl, if_neg Bool.false_ne_true]

theorem runLength_again {p : UInt8 → Bool} {n : Nat} (hn : runLength p s ≤ n)
    (h : ∀ b, rest.head? = some b → p b = false) :
    runLength p (s.take n ++ rest) = runLength p s := by
  induction s generalizing n with
  | nil => rw [take_nil, nil_append, runLength_stop h]; rfl
  | cons c s ih =>
    rw [runLength_cons] at hn ⊢
    cases hc : p c with
    | false =>
      rw [if_neg Bool.false_ne_true]
      cases n with
      | zero => exact runLength_stop h
      | succ n =>
        rw [take_succ_cons, cons_append, runLength_cons, hc, if_neg Bool.false_ne_true]
    | true =>
      rw [hc, if_pos rfl] at hn
      obtain ⟨n, rfl⟩ : ∃ m, n = m + 1 := ⟨n - 1, by omega⟩
      rw [take_succ_cons, cons_append, runLength_cons, hc, if_pos rfl, if_pos rfl,
        ih (Nat.le_of_succ_le_succ hn)]

theorem drop_again {m n : Nat} (hm : m ≤ n) (hn : n ≤ s.length) :
    (s.take n ++ rest).drop m = (s.drop m).take (n - m) ++ rest := by
  rw [drop_append_of_le_length (by rw [length_take]; omega), drop_take]

theorem head_again {n : Nat} (h : (s.take n ++ rest).head? = some b) :
    s.head? = some b ∨ rest.head? = some b := by
  cases s with
  | nil => exact .inr (by simpa using h)
  | cons c s =>
    cases n with
    | zero => exact .inr h
    | succ n => exact .inl h

theorem exponentLength_letter {t : Bytes} (hb : (b == 101 || b == 69) = true)
    (ht : ∀ c, t.head? = some c → (c == 43 || c == 45) = false) :
    exponentLength (b :: t) = 1 + runLength isDigit t := by
  cases t with
  | nil => simp [exponentLength, hb, runLength]
  | cons c t => simp [exponentLength, hb, ht c rfl]

section

variable (hrest : Follows .number rest)

include hrest

theorem rest_spec {c : UInt8} (hc : rest.head? = some c) :
    (hexValue? c).isSome = false ∧ isDigit c = false ∧ c ≠ 95 ∧ c ≠ 46 ∧
      (c == 43 || c == 45) = false ∧ (c == 101 || c == 69) = false ∧
      (c == 120 || c == 88) = false := by
  have hend : isBreak c = true := hrest c hc
  obtain ⟨-, -, hhex, hdigit, hline, hplus, hminus, he, hE, hx⟩ := break_spec (by rw [hend]; rfl)
  refine ⟨hhex, hdigit, hline, ?_, by simp [hplus, hminus], by simp [he, hE], hx⟩
  rintro rfl
  exact absurd hend (by decide)

theorem fractionLength_again {n : Nat} (hn : fractionLength s ≤ n) :
    fractionLength (s.take n ++ rest) = fractionLength s := by
  have hother : ∀ t : Bytes, t.head? ≠ some 46 → fractionLength t = 0 := by
    intro t ht
    unfold fractionLength
    split
    · exact absurd rfl ht
    · rfl
  have hstop : fractionLength rest = 0 := hother rest fun h => (rest_spec hrest h).2.2.2.1 rfl
  cases s with
  | nil => rw [take_nil]; exact hstop
  | cons c s =>
    by_cases hc : c = 46
    · subst hc
      rw [fractionLength] at hn ⊢
      obtain ⟨n, rfl⟩ : ∃ m, n = m + 1 := ⟨n - 1, by omega⟩
      rw [take_succ_cons, cons_append, fractionLength,
        runLength_again (by omega) fun b hb => (rest_spec hrest hb).2.1]
    · rw [hother (c :: s) (by simpa using hc)]
      cases n with
      | zero => exact hstop
      | succ n => exact hother _ (by simpa using hc)

theorem exponentLength_again {n : Nat} (hn : exponentLength s ≤ n) :
    exponentLength (s.take n ++ rest) = exponentLength s := by
  have hother : ∀ t : Bytes, (∀ c, t.head? = some c → (c == 101 || c == 69) = false) →
      exponentLength t = 0 := by
    intro t ht
    cases t with
    | nil => rfl
    | cons c t => simp [exponentLength, ht c rfl]
  have hstop : exponentLength rest = 0 := hother rest fun c hc => (rest_spec hrest hc).2.2.2.2.2.1
  have hdigits : ∀ b, rest.head? = some b → isDigit b = false :=
    fun b hb => (rest_spec hrest hb).2.1
  cases s with
  | nil => rw [take_nil]; exact hstop
  | cons b s =>
    cases hb : (b == 101 || b == 69) with
    | false =>
      have hzero : ∀ t, exponentLength (b :: t) = 0 := fun t => hother _ fun c hc =>
        Option.some.inj hc ▸ hb
      rw [hzero]
      cases n with
      | zero => exact hstop
      | succ n => exact hzero _
    | true =>
      -- The sign belongs to the exponent even where no digit follows it.
      by_cases hsign : ∃ c digits, s = c :: digits ∧ (c == 43 || c == 45) = true
      · obtain ⟨c, digits, rfl, hc⟩ := hsign
        have hlength : ∀ t, exponentLength (b :: c :: t) = 2 + runLength isDigit t := by
          simp [exponentLength, hb, hc]
        rw [hlength] at hn ⊢
        obtain ⟨n, rfl⟩ : ∃ m, n = m + 2 := ⟨n - 2, by omega⟩
        exact (hlength _).trans (congrArg _ (runLength_again (by omega) hdigits))
      · have hs : ∀ c, s.head? = some c → (c == 43 || c == 45) = false := by
          intro c hc
          obtain ⟨t, rfl⟩ := head?_eq_some_iff.mp hc
          simpa using fun h => hsign ⟨c, t, rfl, h⟩
        rw [exponentLength_letter hb hs] at hn ⊢
        obtain ⟨n, rfl⟩ : ∃ m, n = m + 1 := ⟨n - 1, by omega⟩
        rw [take_succ_cons, cons_append, exponentLength_letter hb,
          runLength_again (by omega) hdigits]
        intro c hc
        rcases head_again hc with hc | hc
        · exact hs c hc
        · exact (rest_spec hrest hc).2.2.2.2.1

theorem decimalLength_again (hn : decimalLength s ≤ s.length) :
    decimalLength (s.take (decimalLength s) ++ rest) = decimalLength s := by
  obtain ⟨n, hlength⟩ : ∃ n, decimalLength s = n := ⟨_, rfl⟩
  rw [hlength] at hn ⊢
  simp only [decimalLength] at hlength ⊢
  have hdigits : ∀ b, rest.head? = some b → (isDigit b || b == 95) = false := by
    intro b hb
    simp [(rest_spec hrest hb).2.1, (rest_spec hrest hb).2.2.1]
  rw [runLength_again (by omega) hdigits, drop_again (by omega) hn,
    fractionLength_again hrest (by omega), drop_again (by omega) hn,
    exponentLength_again hrest (by omega), hlength]

theorem numberLength_again : numberLength (s.take (numberLength s) ++ rest) = numberLength s := by
  by_cases hhex : ∃ x t, s = 48 :: x :: t ∧ (x == 120 || x == 88) = true
  · obtain ⟨x, t, rfl, hx⟩ := hhex
    have hlength : ∀ t, numberLength (48 :: x :: t) =
        2 + runLength (fun b => (hexValue? b).isSome || b == 95) t := by
      intro t
      rw [numberLength, if_pos hx]
    rw [hlength, Nat.add_comm 2, take_succ_cons, take_succ_cons, cons_append,
      cons_append, hlength, Nat.add_comm 2, runLength_again (Nat.le_refl _)]
    intro b hb
    simp [(rest_spec hrest hb).1, (rest_spec hrest hb).2.2.1]
  · have hdecimal : ∀ s, (¬∃ x t, s = 48 :: x :: t ∧ (x == 120 || x == 88) = true) →
        numberLength s = decimalLength s := by
      intro s hs
      unfold numberLength
      split
      · next x t => exact if_neg fun hx => hs ⟨x, t, rfl, hx⟩
      · rfl
    -- The cut may not bring an `x` behind a leading zero.
    have hn := numberLength_le s
    rw [hdecimal s hhex] at hn ⊢
    rw [hdecimal, decimalLength_again hrest hn]
    rintro ⟨x, t, ht, hx⟩
    have hzero : rest.head? ≠ some 48 := fun h => absurd (rest_spec hrest h).2.1 (by decide)
    cases s with
    | nil => exact hzero (by rw [show rest = _ from ht]; rfl)
    | cons c s =>
      cases hlength : decimalLength (c :: s) with
      | zero => rw [hlength] at ht; exact hzero (by rw [show rest = _ from ht]; rfl)
      | succ n =>
        rw [hlength, take_succ_cons, cons_append, cons.injEq] at ht
        obtain ⟨rfl, ht⟩ := ht
        rcases head_again (congrArg head? ht) with hs | hrest'
        · obtain ⟨t, rfl⟩ := head?_eq_some_iff.mp hs
          exact hhex ⟨x, t, rfl, hx⟩
        · simp [(rest_spec hrest hrest').2.2.2.2.2.2] at hx

end

theorem startsNumber_again (h : startsNumber b s = true) :
    startsNumber b (s.take (numberLength (b :: s) - 1) ++ rest) = true := by
  rw [startsNumber, Bool.or_eq_true] at h ⊢
  refine h.imp_right fun h => ?_
  rw [Bool.and_eq_true, beq_iff_eq] at h ⊢
  obtain ⟨rfl, hdigit⟩ := h
  refine ⟨rfl, ?_⟩
  cases s with
  | nil => exact absurd hdigit (by decide)
  | cons d s =>
    have hlength : 2 ≤ numberLength (46 :: d :: s) := by
      have hdigit : isDigit d = true := hdigit
      have hwhole : runLength (fun b => isDigit b || b == 95) (46 :: d :: s) = 0 := by
        rfl
      have hfraction : 2 ≤ fractionLength (46 :: d :: s) := by
        rw [fractionLength, runLength, takeWhile_cons_of_pos hdigit, length_cons]
        omega
      show 2 ≤ decimalLength (46 :: d :: s)
      simp only [decimalLength, hwhole, drop_zero]
      omega
    obtain ⟨n, hn⟩ := Nat.exists_eq_add_of_le hlength
    rw [hn, show 2 + n - 1 = n + 1 by omega]
    exact hdigit

theorem number_ascii (h : startsNumber b s = true) : b < 0x80 := by
  rw [startsNumber, Bool.or_eq_true, Bool.and_eq_true, beq_iff_eq] at h
  rcases h with h | ⟨rfl, -⟩
  · rw [isDigit, Bool.and_eq_true, decide_eq_true_eq, decide_eq_true_eq] at h
    exact UInt8.lt_of_le_of_lt h.2 (by decide)
  · decide

theorem number_again (h : startsNumber b s = true)
    (hstart : Name.isStart (first b s).code = false) (hkind : (number b s).kind = .number)
    (hrest : Follows .number rest) : lexeme b (s.take (number b s).extra ++ rest) = number b s := by
  have hpos := numberLength_pos h
  have hnumber : number b s =
      ⟨.number, numberLength (b :: s) - 1, (b :: s).take (numberLength (b :: s))⟩ := by
    unfold number at hkind ⊢
    simp only at hkind ⊢
    split at hkind
    · split at hkind
      · cases hkind
      · next hc => rw [if_neg hc]
    · rfl
  have htext : b :: (s.take (numberLength (b :: s) - 1) ++ rest) =
      (b :: s).take (numberLength (b :: s)) ++ rest := by
    rw [← cons_append, ← take_succ_cons, Nat.sub_add_cancel hpos]
  have hwithin : ((b :: s).take (numberLength (b :: s))).length = numberLength (b :: s) := by
    rw [length_take, Nat.min_eq_left (numberLength_le _)]
  have hlength := numberLength_again hrest (s := b :: s)
  rw [first_ascii (number_ascii h)] at hstart
  rw [hnumber, lexeme, first_ascii (number_ascii h), hstart, if_neg Bool.false_ne_true,
    startsNumber_again h, if_pos rfl, number]
  simp only [htext, hlength, drop_left' hwithin, take_left' hwithin]
  split
  · next c after =>
    have hend : isBreak c = true := hrest c rfl
    obtain ⟨hascii, hcontinue, -⟩ := break_spec (by rw [hend]; rfl)
    have hlt : c.toNat < 0x80 := UInt8.lt_iff_toNat_lt.mp hascii
    rw [Name.isContinue, if_pos hlt, Bool.or_eq_false_iff] at hcontinue
    rw [hcontinue.1]
    rfl
  · rfl

/-! ## Strings -/

theorem stringBody_again {quote : UInt8} (h : (stringBody quote s).2.2 = .closed) (rest : Bytes) :
    stringBody quote (s.take (stringBody quote s).1 ++ rest) = stringBody quote s := by
  fun_induction stringBody quote s <;> simp_all [stringBody]

theorem string_again (hb : (b == 34 || b == 39) = true) (hkind : (string b s).kind = .string)
    (rest : Bytes) : lexeme b (s.take (string b s).extra ++ rest) = string b s := by
  have hclosed : (stringBody b s).2.2 = .closed := by
    unfold string at hkind
    split at hkind
    · next n text heq => rw [heq]
    · cases hkind
    · cases hkind
  have hextra : (string b s).extra = (stringBody b s).1 := by
    unfold string
    split
    · next heq => rw [heq]
    · next heq => rw [heq]; rfl
    · next heq => rw [heq]; rfl
  have hquote : ∀ t, lexeme b t = string b t := by
    intro t
    rw [Bool.or_eq_true, beq_iff_eq, beq_iff_eq] at hb
    rcases hb with rfl | rfl <;> rfl
  rw [hquote, hextra, string, stringBody_again hclosed, string]

/-! ## Lexemes -/

theorem blank?_again {s' : Bytes} (h : blank? b s = none) (hslash : b ≠ 47)
    (hfirst : first b s' = first b s) : blank? b s' = none := by
  unfold blank? at h ⊢
  simp only [hfirst, beq_eq_false_iff_ne.mpr hslash] at h ⊢
  exact h

/-- **A lexeme is read again**: what was read as a name, a number or a string is read as the same in
front of any text that may follow it. -/
theorem Lexed.again {kind : TokenKind} {value text : Bytes} (h : Lexed kind value text)
    (hkind : kind.isWord = true) (hrest : Follows kind rest) :
    ∃ b tail, text = b :: tail ∧ blank? b (tail ++ rest) = none ∧
      lexeme b (tail ++ rest) = ⟨kind, tail.length, value⟩ := by
  obtain ⟨b, s, extra, hblank, hlexeme, rfl⟩ := h
  have hlength : (s.take extra).length = extra := by
    have hfits := (lexeme_fits b s).within
    rw [hlexeme] at hfits
    rw [length_take, Nat.min_eq_left hfits]
  refine ⟨b, s.take extra, rfl, ?_⟩
  rw [hlength]
  have hsame : lexeme b s = ⟨kind, extra, value⟩ := hlexeme
  unfold lexeme at hsame
  split at hsame
  · next hstart =>
    have hslash : b ≠ 47 := by
      rintro rfl
      exact absurd hstart (by rw [first_ascii (by decide)]; decide)
    have hname : Follows .identifier rest := by
      simp only [name] at hsame
      split at hsame
      · cases hsame
        exact hrest
      · split at hsame
        · cases hsame
          cases hkind
        · cases hsame
          exact hrest
    have hagain := name_again hstart hname
    have hfirst := name_first hstart rest
    rw [hsame] at hagain hfirst
    exact ⟨blank?_again hblank hslash hfirst, hagain⟩
  split at hsame
  · next hstart hnumber =>
    have hslash : b ≠ 47 := by
      rintro rfl
      cases hnumber.symm.trans (rfl : startsNumber 47 s = false)
    have hfirst : first b (s.take extra ++ rest) = first b s := by
      rw [first_ascii (number_ascii hnumber), first_ascii (number_ascii hnumber)]
    have hkind : kind = .number := by
      simp only [number] at hsame
      split at hsame
      · split at hsame
        · cases hsame
          cases hkind
        · cases hsame
          rfl
      · cases hsame
        rfl
    subst hkind
    have hagain := number_again hnumber (by simpa using hstart) (by rw [hsame]) hrest
    rw [hsame] at hagain
    exact ⟨blank?_again hblank hslash hfirst, hagain⟩
  split at hsame
  · next hquote =>
    have hkind : kind = .string := by
      simp only [string] at hsame
      split at hsame
      · cases hsame
        rfl
      · cases hsame
        cases hkind
      · cases hsame
        cases hkind
    subst hkind
    have hagain := string_again hquote (by rw [hsame]) rest
    rw [hsame] at hagain
    refine ⟨?_, hagain⟩
    rw [Bool.or_eq_true, beq_iff_eq, beq_iff_eq] at hquote
    rcases hquote with rfl | rfl <;> rfl
  · split at hsame
    · cases hsame
      cases hkind
    · cases hsame
      cases hkind

end Lexer

end Winnow
