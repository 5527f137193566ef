import Winnow.Proofs.Runes
import Winnow.Syntax.Lexer

/-!
# Tokens partition the source

What stands between tokens is described without the lexer: white-space characters and comments
(`Blank`), one after the other (`Filler`). `Cut` says that a text is a filler and a token in turn, up
to the end or to a malformed lexeme, and `tokensFrom_cut` that reading tokens cuts a text this way.
All that is said about the ranges of tokens follows from that by induction on the cut.
-/

namespace Winnow

open List Utf8 Bytes

variable {rest s : Bytes} {i : Nat} {b : UInt8}

namespace Lexer

/-! ## White space and comments -/

/-- Whether the code point is white space: a blank, a line break or a byte order mark. -/
def isWhite (code : Nat) : Bool := Text.isBlank code || code == 0xFEFF

/-- A white-space character or a comment, with the text behind it. -/
inductive Blank : (blank rest : Bytes) → Prop where
  | character {code : Nat} {rest : Bytes} : isWhite code = true → Blank (Bytes.ofCode code) rest
  /-- A line comment ends at a line feed or with the text. -/
  | line {body rest : Bytes} : 10 ∉ body → rest = [] ∨ rest.head? = some 10 →
      Blank (47 :: 47 :: body) rest
  /-- A block comment ends where its end mark stands first. -/
  | block {body rest : Bytes} : ¬[42, 47] <:+: body ++ [42] →
      Blank (47 :: 42 :: (body ++ [42, 47])) rest
  /-- A block comment without an end mark goes on to the end of the text. -/
  | unclosed {body : Bytes} : ¬[42, 47] <:+: body → Blank (47 :: 42 :: body) []

/-- White space and comments, one after the other, with the text behind them. -/
inductive Filler : (filler rest : Bytes) → Prop where
  | nil {rest : Bytes} : Filler [] rest
  | cons {blank filler rest : Bytes} : Blank blank (filler ++ rest) → Filler filler rest →
      Filler (blank ++ filler) rest

/-- The bytes of the source from `start` to `stop` are one white-space character or one comment. -/
def BlankAt (source : Bytes) (start stop : Nat) : Prop :=
  ∃ front blank back, source = front ++ (blank ++ back) ∧ Blank blank back ∧
    front.length = start ∧ start + blank.length = stop

theorem Filler.blankAt {filler : Bytes} (h : Filler filler rest) (front : Bytes)
    (hle : front.length ≤ i) (hlt : i < front.length + filler.length) :
    ∃ start stop, BlankAt (front ++ (filler ++ rest)) start stop ∧ front.length ≤ start ∧
      start ≤ i ∧ i < stop ∧ stop ≤ front.length + filler.length := by
  induction h generalizing front with
  | nil => exact absurd (Nat.lt_of_le_of_lt hle hlt) (Nat.lt_irrefl _)
  | @cons blank filler rest hblank _ ih =>
    rw [length_append] at hlt ⊢
    by_cases hfirst : i < front.length + blank.length
    · refine ⟨front.length, front.length + blank.length, ?_, Nat.le_refl _, hle, hfirst, by omega⟩
      exact ⟨front, blank, filler ++ rest, by rw [append_assoc], hblank, rfl, rfl⟩
    · have hskip : (front ++ blank).length = front.length + blank.length := length_append
      obtain ⟨start, stop, hat, hstart, hstop⟩ := ih (front ++ blank) (by omega) (by omega)
      refine ⟨start, stop, ?_, by omega, by omega, by omega, by omega⟩
      simpa only [append_assoc] using hat

theorem stripPrefix?_iff {lead : Bytes} :
    stripPrefix? lead s = some rest ↔ s = lead ++ rest := by
  induction lead generalizing s with
  | nil => simp [stripPrefix?]
  | cons a lead ih =>
    cases s with
    | nil => simp [stripPrefix?]
    | cons b s =>
      rw [stripPrefix?, cons_append, cons.injEq]
      by_cases h : a = b
      · rw [if_pos (beq_iff_eq.mpr h), ih]
        exact ⟨fun hs => ⟨h.symm, hs⟩, And.right⟩
      · rw [if_neg (by simpa using h)]
        exact iff_of_false (Option.some_ne_none _).symm fun hs => h hs.1.symm

theorem startsWith_iff {lead : Bytes} : startsWith s lead = true ↔ lead <+: s := by
  rw [startsWith, Option.isSome_iff_exists]
  simp only [stripPrefix?_iff]
  exact exists_congr fun rest => eq_comm

theorem find?_none {part : Bytes} (h : Bytes.find? part s = none) : ¬part <:+: s := by
  induction s with
  | nil =>
    rw [Bytes.find?] at h
    simp_all
  | cons b s ih =>
    rw [Bytes.find?] at h
    split at h
    · cases h
    · next hstart =>
      rw [Option.map_eq_none_iff] at h
      rw [infix_cons_iff, ← startsWith_iff]
      exact not_or_intro hstart (ih h)

theorem find?_some {part : Bytes} {n : Nat} (hpart : part ≠ []) (h : Bytes.find? part s = some n) :
    ∃ before after, s = before ++ part ++ after ∧
      before.length = n ∧ ¬part <:+: before ++ part.dropLast := by
  induction s generalizing n with
  | nil =>
    rw [Bytes.find?, if_neg (by simpa using hpart)] at h
    cases h
  | cons b s ih =>
    rw [Bytes.find?] at h
    split at h
    · next hstart =>
      cases h
      obtain ⟨after, hs⟩ := startsWith_iff.mp hstart
      refine ⟨[], after, hs.symm, rfl, fun hin => ?_⟩
      have hle := hin.length_le
      have hpos := length_pos_iff.mpr hpart
      rw [nil_append, length_dropLast] at hle
      omega
    · next hstart =>
      obtain ⟨m, hm, rfl⟩ := Option.map_eq_some_iff.mp h
      obtain ⟨before, after, hs, hlength, hfirst⟩ := ih hm
      refine ⟨b :: before, after, by rw [hs]; rfl, by simp [hlength], ?_⟩
      rw [cons_append, infix_cons_iff]
      refine not_or_intro (fun hlead => hstart (startsWith_iff.mpr (hlead.trans ?_))) hfirst
      rw [hs, append_assoc]
      refine cons_prefix_cons.mpr ⟨rfl, prefix_append_right_inj before |>.mpr ?_⟩
      exact (List.dropLast_prefix part).trans (prefix_append part after)

/-- The bytes of white space in front of a text, by the rune that stands there. -/
theorem blank_first (h : isWhite (first b s).code = true) :
    (first b s).bytes.length - 1 ≤ s.length ∧
      Blank (b :: s.take ((first b s).bytes.length - 1))
        (s.drop ((first b s).bytes.length - 1)) ∧
      (10 ∈ b :: s.take ((first b s).bytes.length - 1) → (b == 10) = true) := by
  rcases first_spec b s with hstray | ⟨code, rest, -, hs, hrune⟩
  · rw [hstray] at h
    exact absurd h (by decide : isWhite replacement ≠ true)
  · rw [hrune] at h ⊢
    obtain ⟨c, t, hform⟩ := exists_cons_of_ne_nil (ofCode_ne_nil code)
    rw [hform] at hs ⊢
    obtain ⟨rfl, rfl⟩ : b = c ∧ s = t ++ rest := cons.inj hs
    rw [length_cons, Nat.add_sub_cancel, take_left, ← hform]
    refine ⟨by simp, .character h, fun hmem => ?_⟩
    rcases ofCode_byte hmem with rfl | hhigh
    · cases hform
      rfl
    · exact absurd hhigh (by decide)

theorem drop_takeWhile (p : UInt8 → Bool) (s : Bytes) :
    s.drop (s.takeWhile p).length = s.dropWhile p :=
  calc s.drop (s.takeWhile p).length
    _ = (s.takeWhile p ++ s.dropWhile p).drop (s.takeWhile p).length :=
      congrArg (drop _) takeWhile_append_dropWhile.symm
    _ = s.dropWhile p := drop_left

theorem take_takeWhile (p : UInt8 → Bool) (s : Bytes) :
    s.take (s.takeWhile p).length = s.takeWhile p :=
  (prefix_iff_eq_take.mp (List.takeWhile_prefix p)).symm

theorem blank_line (rest : Bytes) :
    Blank (47 :: 47 :: rest.take (lineCommentLength rest)) (rest.drop (lineCommentLength rest)) := by
  rw [lineCommentLength, take_takeWhile, drop_takeWhile]
  refine .line (fun hmem => ?_) ?_
  · exact absurd (all_eq_true.mp all_takeWhile _ hmem) (by decide)
  · by_cases hnil : rest.dropWhile (· ≠ 10) = []
    · exact .inl hnil
    · have hhead := head_dropWhile_not (p := (· ≠ (10 : UInt8))) hnil
      refine .inr ?_
      rw [head?_eq_some_head hnil]
      exact congrArg some (by simpa using hhead)

/-- **What the lexer skips in one step is a white-space character or a comment.** A line feed in it
breaks the line, unless it is a comment without an end. -/
theorem blank?_spec {extra : Nat} {newline : Bool} (h : blank? b s = some (extra, newline)) :
    extra ≤ s.length ∧ Blank (b :: s.take extra) (s.drop extra) ∧
      (extra < s.length → 10 ∈ b :: s.take extra → newline = true) := by
  -- An ASCII character of white space is its own form.
  have hascii : ∀ n : Nat, ofCode n = [UInt8.ofNat n] → isWhite n = true →
      b = UInt8.ofNat n → Blank (b :: s.take 0) (s.drop 0) := by
    intro n hform hwhite hb
    rw [take_zero, hb, ← hform]
    exact .character hwhite
  unfold blank? at h
  split at h
  · next hb =>
    cases h
    exact ⟨Nat.zero_le _, hascii 10 rfl (by decide) (by simpa using hb), fun _ _ => rfl⟩
  next hline =>
  split at h
  · next hb =>
    cases h
    simp only [Bool.or_eq_true, beq_iff_eq] at hb hline
    refine ⟨Nat.zero_le _, ?_, fun _ hmem => absurd (mem_singleton.mp hmem).symm hline⟩
    rcases hb with (((hb | hb) | hb) | hb) | hb
    · exact hascii 32 rfl (by decide) hb
    · exact hascii 9 rfl (by decide) hb
    · exact hascii 13 rfl (by decide) hb
    · exact hascii 11 rfl (by decide) hb
    · exact hascii 12 rfl (by decide) hb
  split at h
  · next hb =>
    rw [beq_iff_eq] at hb
    subst hb
    split at h
    · next rest =>
      cases h
      rw [Nat.add_comm]
      refine ⟨Nat.succ_le_succ (List.takeWhile_prefix _).length_le, blank_line rest, fun _ hmem => ?_⟩
      rw [take_succ_cons, lineCommentLength, take_takeWhile] at hmem
      have hbody : 10 ∈ rest.takeWhile (· ≠ 10) := by simpa using hmem
      exact absurd (all_eq_true.mp all_takeWhile _ hbody) (by decide)
    · next rest =>
      split at h
      · next n hn =>
        cases h
        obtain ⟨body, after, rfl, rfl, hfirst⟩ := find?_some (by simp) hn
        have htake : (body ++ [42, 47] ++ after).take (body.length + 2) = body ++ [42, 47] :=
          take_left' (by simp)
        rw [take_succ_cons, htake]
        exact ⟨by simp, .block hfirst, fun _ hmem => by simpa using hmem⟩
      · next hnone =>
        cases h
        rw [take_length, drop_length]
        exact ⟨Nat.le_refl _, .unclosed (find?_none hnone), fun h => absurd h (Nat.lt_irrefl _)⟩
    · cases h
  split at h
  · cases h
  simp only at h
  split at h
  · next hcode =>
    cases h
    obtain ⟨hle, hblank, -⟩ :=
      blank_first (by rcases hcode with hcode | hcode <;> rw [hcode] <;> decide)
    exact ⟨hle, hblank, fun _ _ => rfl⟩
  split at h
  · next hcode =>
    cases h
    obtain ⟨hle, hblank, hten⟩ := blank_first (by simpa [isWhite] using hcode)
    exact ⟨hle, hblank, fun _ hmem => absurd (hten hmem) hline⟩
  · cases h

theorem gap_none (h : blank? b s = none) : gap (b :: s) = (0, false) := by
  rw [gap, h]

theorem gap_some {extra : Nat} {newline : Bool} (h : blank? b s = some (extra, newline)) :
    gap (b :: s) =
      (extra + (gap (s.drop extra)).1 + 1, newline || (gap (s.drop extra)).2) := by
  rw [gap, h, Nat.add_comm _ 1, ← Nat.add_assoc]

/-- **A gap is a filler.** -/
theorem gap_spec (s : Bytes) :
    (gap s).1 ≤ s.length ∧ Filler (s.take (gap s).1) (s.drop (gap s).1) := by
  induction s using gap.induct with
  | case1 =>
    rw [gap]
    exact ⟨Nat.zero_le _, .nil⟩
  | case2 b s hblank =>
    rw [gap_none hblank]
    exact ⟨Nat.zero_le _, .nil⟩
  | case3 b s extra newline hblank length _ hgap ih =>
    obtain ⟨hle, hfront, -⟩ := blank?_spec hblank
    rw [hgap, length_drop] at ih
    obtain ⟨hle', hfiller⟩ := ih
    rw [gap_some hblank, hgap, take_succ_cons, drop_succ_cons, take_add, ← drop_drop, ← cons_append]
    refine ⟨by rw [length_cons]; omega, .cons ?_ hfiller⟩
    rwa [take_append_drop]

theorem gap_stop (h : s.drop (gap s).1 = b :: rest) : blank? b rest = none := by
  induction s using gap.induct with
  | case1 =>
    rw [gap] at h
    cases h
  | case2 c s hblank =>
    rw [gap_none hblank] at h
    cases h
    exact hblank
  | case3 c s extra newline hblank _ _ _ ih =>
    rw [gap_some hblank, drop_succ_cons, ← drop_drop] at h
    exact ih h

/-! ## Lexemes -/

end Lexer

/-- Whether tokens of a kind have their own text as value. -/
def TokenKind.isVerbatim : TokenKind → Bool
  | .identifier | .keyword _ | .number => true
  | _ => false

/-- Whether a token of a kind is the last one of a source. -/
def TokenKind.isLast : TokenKind → Bool
  | .endOfFile | .error => true
  | _ => false

namespace Lexer

/-- A lexeme lies in the text that starts with `b` and goes on with `s`, and has the value that its
kind demands. -/
structure Fits (b : UInt8) (s : Bytes) (l : Lexeme) : Prop where
  within : l.extra ≤ s.length
  notEnd : l.kind ≠ .endOfFile
  verbatim : l.kind.isVerbatim = true → l.value = (b :: s).take (l.extra + 1)
  signed : ∀ sign, l.kind = .sign sign → (b :: s).take (l.extra + 1) = utf8 sign.text

theorem fits_malformed {extra : Nat} (h : extra ≤ s.length) (message : String) :
    Fits b s (malformed extra message) := ⟨h, nofun, nofun, nofun⟩

theorem nameRun_le (skip : Nat) (s : Bytes) : nameRun skip s ≤ s.length := by
  induction s generalizing skip with
  | nil => simp [nameRun]
  | cons b s ih =>
    cases skip with
    | zero =>
      simp only [nameRun]
      split
      · have := ih ((first b s).bytes.length - 1)
        rw [length_cons]; omega
      · exact Nat.zero_le _
    | succ skip =>
      have := ih skip
      rw [nameRun, length_cons]; omega

theorem isContinue_of_isStart {code : Nat} (h : Name.isStart code = true) :
    Name.isContinue code = true := by
  unfold Name.isContinue
  split
  · next hlt =>
    rw [Name.isStart, if_pos hlt] at h
    rw [h, Bool.true_or]
  · rw [h, Bool.true_or, Bool.true_or, Bool.true_or]

theorem nameRun_pos (h : Name.isStart (first b s).code = true) : 0 < nameRun 0 (b :: s) := by
  rw [nameRun, if_pos (isContinue_of_isStart h)]
  omega

theorem name_fits (h : Name.isStart (first b s).code = true) : Fits b s (name b s) := by
  have hpos := nameRun_pos h
  have hle := nameRun_le 0 (b :: s)
  rw [length_cons] at hle
  have hextra : nameRun 0 (b :: s) - 1 + 1 = nameRun 0 (b :: s) := by omega
  simp only [name]
  split
  · exact ⟨by simp only; omega, by simp, fun _ => by rw [hextra], by simp⟩
  · split
    · exact ⟨by simp only; omega, by simp, by simp [TokenKind.isVerbatim], by simp⟩
    · exact ⟨by simp only; omega, by simp, fun _ => by rw [hextra], by simp⟩

theorem runLength_le (p : UInt8 → Bool) (s : Bytes) : runLength p s ≤ s.length :=
  (List.takeWhile_prefix p).length_le

theorem fractionLength_le (s : Bytes) : fractionLength s ≤ s.length := by
  unfold fractionLength
  split
  · next rest =>
    have := runLength_le isDigit rest
    rw [length_cons]; omega
  · exact Nat.zero_le _

theorem exponentLength_le (s : Bytes) : exponentLength s ≤ s.length := by
  unfold exponentLength
  split
  · next b rest =>
    split
    · split
      · next c digits =>
        have h1 := runLength_le isDigit digits
        have h2 := runLength_le isDigit (c :: digits)
        simp only [length_cons] at h2 ⊢
        split <;> omega
      · simp
    · exact Nat.zero_le _
  · exact Nat.zero_le _

theorem decimalLength_le (s : Bytes) : decimalLength s ≤ s.length := by
  simp only [decimalLength]
  generalize hwhole : runLength (fun b => isDigit b || b == 95) s = whole
  have h1 : whole ≤ s.length := hwhole ▸ runLength_le _ s
  have h2 := fractionLength_le (s.drop whole)
  have h3 := exponentLength_le (s.drop (whole + fractionLength (s.drop whole)))
  simp only [length_drop] at h2 h3
  omega

theorem numberLength_le (s : Bytes) : numberLength s ≤ s.length := by
  unfold numberLength
  split
  · next x rest =>
    split
    · have := runLength_le (fun b => (hexValue? b).isSome || b == 95) rest
      simp only [length_cons]; omega
    · exact decimalLength_le _
  · exact decimalLength_le _

theorem decimalLength_pos (h : startsNumber b s = true) : 0 < decimalLength (b :: s) := by
  rw [startsNumber, Bool.or_eq_true] at h
  rcases h with h | h
  · have : 0 < runLength (fun b => isDigit b || b == 95) (b :: s) := by
      rw [runLength, takeWhile_cons_of_pos (by rw [h, Bool.true_or])]
      simp
    simp only [decimalLength]
    omega
  · simp only [Bool.and_eq_true, beq_iff_eq] at h
    obtain ⟨rfl, -⟩ := h
    have hwhole : runLength (fun b => isDigit b || b == 95) (46 :: s) = 0 := by
      rfl
    simp only [decimalLength, hwhole, drop_zero, fractionLength]
    omega

theorem numberLength_pos (h : startsNumber b s = true) : 0 < numberLength (b :: s) := by
  unfold numberLength
  split
  · split
    · omega
    · exact decimalLength_pos h
  · exact decimalLength_pos h

theorem number_fits (h : startsNumber b s = true) : Fits b s (number b s) := by
  have hpos := numberLength_pos h
  have hle := numberLength_le (b :: s)
  rw [length_cons] at hle
  have hextra : numberLength (b :: s) - 1 + 1 = numberLength (b :: s) := by omega
  simp only [number]
  split
  · split
    · exact fits_malformed (by omega) _
    · exact ⟨by simp only; omega, by simp, fun _ => by rw [hextra], by simp⟩
  · exact ⟨by simp only; omega, by simp, fun _ => by rw [hextra], by simp⟩

theorem stringBody_le (quote : UInt8) (s : Bytes) : (stringBody quote s).1 ≤ s.length := by
  fun_induction stringBody quote s <;> simp_all

theorem string_fits (quote : UInt8) (s : Bytes) : Fits quote s (string quote s) := by
  have hle := stringBody_le quote s
  unfold string
  split
  · next n text hbody =>
    rw [hbody] at hle
    exact ⟨hle, by simp, by simp [TokenKind.isVerbatim], by simp⟩
  · next n text hbody =>
    rw [hbody] at hle
    exact fits_malformed hle _
  · next n text hbody =>
    rw [hbody] at hle
    exact fits_malformed hle _

theorem either {α : Type} {c : Bool} {x y z : α} {p : Prop} (h : (if c = true then x else y) = z)
    (h1 : c = true → x = z → p) (h2 : y = z → p) : p := by
  by_cases hc : c = true
  · exact h1 hc (by rwa [if_pos hc] at h)
  · exact h2 (by rwa [if_neg hc] at h)

section

variable {b c d e : UInt8} {s : Bytes} {sign x : Sign} {extra : Nat}

theorem one_byte (hx : utf8 x.text = [c]) (hb : (b == c) = true)
    (h : some (x, 0) = some (sign, extra)) :
    extra ≤ s.length ∧ (b :: s).take (extra + 1) = utf8 sign.text := by
  cases h
  rw [hx, beq_iff_eq.mp hb]
  exact ⟨Nat.zero_le _, rfl⟩

theorem two_bytes (hx : utf8 x.text = [c, d]) (hd : 0 ≠ d) (hb : (b == c) = true)
    (hs : (s.headD 0 == d) = true) (h : some (x, 1) = some (sign, extra)) :
    extra ≤ s.length ∧ (b :: s).take (extra + 1) = utf8 sign.text := by
  cases h
  cases s with
  | nil => exact absurd (beq_iff_eq.mp hs) hd
  | cons e t =>
    rw [hx, beq_iff_eq.mp hb, ← beq_iff_eq.mp hs]
    exact ⟨Nat.succ_le_succ (Nat.zero_le _), rfl⟩

theorem two_or_one {y : Sign} (hx : utf8 x.text = [c, d]) (hy : utf8 y.text = [c]) (hd : 0 ≠ d)
    (hb : (b == c) = true)
    (h : some (if s.headD 0 == d then (x, 1) else (y, 0)) = some (sign, extra)) :
    extra ≤ s.length ∧ (b :: s).take (extra + 1) = utf8 sign.text := by
  rw [apply_ite some] at h
  exact either h (two_bytes hx hd hb) (one_byte hy hb)

theorem three_bytes (hx : utf8 x.text = [c, d, e]) (hd : 0 ≠ d) (he : 0 ≠ e) (hb : (b == c) = true)
    (hs : (s.headD 0 == d && (s.drop 1).headD 0 == e) = true)
    (h : some (x, 2) = some (sign, extra)) :
    extra ≤ s.length ∧ (b :: s).take (extra + 1) = utf8 sign.text := by
  cases h
  rw [Bool.and_eq_true, beq_iff_eq, beq_iff_eq] at hs
  obtain ⟨h1, h2⟩ := hs
  cases s with
  | nil => exact absurd h1 hd
  | cons d' t =>
    cases t with
    | nil => exact absurd h2 he
    | cons e' t =>
      rw [hx, beq_iff_eq.mp hb, ← h1, ← h2]
      exact ⟨Nat.succ_le_succ (Nat.succ_le_succ (Nat.zero_le _)), rfl⟩

theorem sign?_spec (h : sign? b s = some (sign, extra)) :
    extra ≤ s.length ∧ (b :: s).take (extra + 1) = utf8 sign.text := by
  refine either h (two_or_one rfl rfl (by decide)) fun h => ?_
  refine either h (two_or_one rfl rfl (by decide)) fun h => ?_
  iterate 3 refine either h (one_byte rfl) fun h => ?_
  -- `&` and `|` are signs only when they are doubled.
  refine either h (fun hb h => ?_) fun h => ?_
  · exact either h (two_bytes rfl (by decide) hb) fun h => absurd h.symm (Option.some_ne_none _)
  refine either h (fun hb h => ?_) fun h => ?_
  · exact either h (two_bytes rfl (by decide) hb) fun h => absurd h.symm (Option.some_ne_none _)
  refine either h (two_or_one rfl rfl (by decide)) fun h => ?_
  refine either h (two_or_one rfl rfl (by decide)) fun h => ?_
  refine either h (two_or_one rfl rfl (by decide)) fun h => ?_
  -- `=` starts four signs, `!` three.
  refine either h (fun hb h => ?_) fun h => ?_
  · rw [apply_ite some] at h
    refine either h (three_bytes rfl (by decide) (by decide) hb) fun h => ?_
    rw [apply_ite some] at h
    refine either h (two_bytes rfl (by decide) hb) fun h => ?_
    exact two_or_one rfl rfl (by decide) hb h
  refine either h (fun hb h => ?_) fun h => ?_
  · rw [apply_ite some] at h
    refine either h (three_bytes rfl (by decide) (by decide) hb) fun h => ?_
    exact two_or_one rfl rfl (by decide) hb h
  iterate 9 refine either h (one_byte rfl) fun h => ?_
  exact either h (one_byte rfl) fun h => absurd h.symm (Option.some_ne_none _)

end

/-- **Every lexeme lies in the text and has the value that its kind demands.** -/
theorem lexeme_fits (b : UInt8) (s : Bytes) : Fits b s (lexeme b s) := by
  unfold lexeme
  split
  · next h => exact name_fits h
  split
  · next h => exact number_fits h
  split
  · exact string_fits b s
  split
  · next sign extra h =>
    obtain ⟨hle, htext⟩ := sign?_spec h
    refine ⟨hle, by simp, by simp [TokenKind.isVerbatim], fun x hx => ?_⟩
    cases hx
    exact htext
  · exact fits_malformed (Nat.zero_le _) _

/-! ## The cut of a source -/

/-- A text is read as a lexeme, in front of some other text at least. -/
def Lexed (kind : TokenKind) (value text : Bytes) : Prop :=
  ∃ b rest extra, blank? b rest = none ∧ lexeme b rest = ⟨kind, extra, value⟩ ∧
    text = b :: rest.take extra

/-- A token stands at `start` and was read from `text`. -/
structure Stands (t : Token) (start : Nat) (text : Bytes) : Prop where
  start_eq : t.start = start
  stop_eq : t.stop = start + text.length
  nonempty : text ≠ []
  verbatim : t.kind.isVerbatim = true → t.value = text
  signed : ∀ sign, t.kind = .sign sign → text = utf8 sign.text
  lexed : Lexed t.kind t.value text

/-- A text at an offset is cut into fillers and tokens, up to its end or to an error. -/
inductive Cut : (offset : Nat) → Bytes → List Token → Prop where
  | finish {offset : Nat} {filler : Bytes} {t : Token} : Filler filler [] → t.kind = .endOfFile →
      t.start = offset + filler.length → t.stop = t.start → Cut offset filler [t]
  | fault {offset : Nat} {filler text rest : Bytes} {t : Token} : Filler filler (text ++ rest) →
      t.kind = .error → Stands t (offset + filler.length) text →
      Cut offset (filler ++ (text ++ rest)) [t]
  | token {offset : Nat} {filler text rest : Bytes} {t : Token} {ts : List Token} :
      Filler filler (text ++ rest) → t.kind.isLast = false →
      Stands t (offset + filler.length) text → Cut t.stop rest ts →
      Cut offset (filler ++ (text ++ rest)) (t :: ts)

theorem Fits.isLast_eq_false {l : Lexeme} (h : Fits b s l) (hkind : l.kind ≠ .error) :
    l.kind.isLast = false := by
  have hend := h.notEnd
  cases hl : l.kind with
  | error => exact absurd hl hkind
  | endOfFile => exact absurd hl hend
  | _ => rfl

/-- The token of the lexeme in front of `b :: rest`, which stands at `start`. -/
def tokenAt (start : Nat) (newline : Bool) (b : UInt8) (rest : Bytes) : Token :=
  ⟨(lexeme b rest).kind, start, start + 1 + (lexeme b rest).extra, (lexeme b rest).value, newline⟩

theorem stands_tokenAt (hblank : blank? b rest = none) (start : Nat) (newline : Bool) :
    Stands (tokenAt start newline b rest) start
      ((b :: rest).take ((lexeme b rest).extra + 1)) where
  start_eq := rfl
  stop_eq := by
    have := (lexeme_fits b rest).within
    rw [length_take, length_cons]
    show start + 1 + (lexeme b rest).extra = _
    omega
  nonempty := by simp
  verbatim := (lexeme_fits b rest).verbatim
  signed := (lexeme_fits b rest).signed
  lexed := ⟨b, rest, _, hblank, rfl, rfl⟩

theorem tokensFrom_end (offset : Nat) (h : s.drop (gap s).1 = []) :
    tokensFrom offset s =
      [⟨.endOfFile, offset + (gap s).1, offset + (gap s).1, [], true⟩] := by
  rw [tokensFrom]
  split
  next length newline hgap =>
    rw [hgap] at h ⊢
    split
    · rfl
    · next heq => cases h.symm.trans heq

theorem tokensFrom_lexeme (offset : Nat) (h : s.drop (gap s).1 = b :: rest) :
    tokensFrom offset s =
      if (lexeme b rest).kind = .error then [tokenAt (offset + (gap s).1) (gap s).2 b rest]
      else tokenAt (offset + (gap s).1) (gap s).2 b rest ::
        tokensFrom (offset + (gap s).1 + 1 + (lexeme b rest).extra)
          (rest.drop (lexeme b rest).extra) := by
  rw [tokensFrom]
  split
  next length newline hgap =>
    rw [hgap] at h ⊢
    split
    · next heq => cases h.symm.trans heq
    · next heq =>
      cases h.symm.trans heq
      rfl

/-- **Reading tokens cuts a text into fillers and tokens.** -/
theorem tokensFrom_cut (offset : Nat) (s : Bytes) : Cut offset s (tokensFrom offset s) := by
  induction hn : s.length using Nat.strongRecOn generalizing s offset with
  | ind n ih =>
    obtain ⟨hle, hfiller⟩ := gap_spec s
    have hlength : (s.take (gap s).1).length = (gap s).1 := by
      rw [length_take]; omega
    cases hdrop : s.drop (gap s).1 with
    | nil =>
      have hall : (gap s).1 = s.length := Nat.le_antisymm hle (drop_eq_nil_iff.mp hdrop)
      rw [tokensFrom_end offset hdrop]
      rw [hdrop, hall, take_length] at hfiller
      exact .finish hfiller rfl (by rw [hall]) rfl
    | cons b rest =>
      have hfits := lexeme_fits b rest
      have hstands : Stands (tokenAt (offset + (gap s).1) (gap s).2 b rest)
          (offset + (s.take (gap s).1).length) ((b :: rest).take ((lexeme b rest).extra + 1)) := by
        rw [hlength]
        exact stands_tokenAt (gap_stop hdrop) _ _
      have hrest : (b :: rest).take ((lexeme b rest).extra + 1) ++
          rest.drop (lexeme b rest).extra = b :: rest :=
        take_append_drop ((lexeme b rest).extra + 1) (b :: rest)
      have hsplit : s.take (gap s).1 ++ ((b :: rest).take ((lexeme b rest).extra + 1) ++
          rest.drop (lexeme b rest).extra) = s := by
        rw [hrest, ← hdrop, take_append_drop]
      rw [hdrop, ← hrest] at hfiller
      rw [tokensFrom_lexeme offset hdrop]
      split
      · next hkind =>
        have hcut := Cut.fault hfiller hkind hstands
        rwa [hsplit] at hcut
      · next hkind =>
        have hshorter : (rest.drop (lexeme b rest).extra).length < n := by
          have hlengths := congrArg length hdrop
          rw [length_drop, length_cons] at hlengths
          rw [length_drop]
          omega
        have hcut := Cut.token hfiller (hfits.isLast_eq_false hkind) hstands
          (ih _ hshorter _ _ rfl)
        rwa [hsplit] at hcut

/-! ## The partition -/

/-- What it means that tokens partition a source. -/
structure Partition (source : Bytes) (ts : List Token) : Prop where
  /-- The last token and no other is the end of the file or an error. -/
  last : ∃ init t, ts = init ++ [t] ∧ t.kind.isLast = true ∧ ∀ u ∈ init, u.kind.isLast = false
  /-- The end of the file stands behind the last byte. -/
  finish : ∀ t ∈ ts, t.kind = .endOfFile → t.start = source.length
  inside : ∀ t ∈ ts, t.start ≤ t.stop ∧ t.stop ≤ source.length
  ordered : ts.Pairwise fun t u => t.stop ≤ u.start
  nonempty : ∀ t ∈ ts, t.kind ≠ .endOfFile → t.start < t.stop
  /-- Names, keywords and numbers have the text of their range as value. -/
  spelled : ∀ t ∈ ts, t.kind.isVerbatim = true → t.value = t.text source
  signed : ∀ t ∈ ts, ∀ sign, t.kind = .sign sign → t.text source = utf8 sign.text
  /-- A byte before a token and in no token belongs to white space or a comment that touches no
  token. -/
  filled : ∀ i, (∃ t ∈ ts, i < t.start) → (∀ t ∈ ts, ¬(t.start ≤ i ∧ i < t.stop)) →
    ∃ start stop, BlankAt source start stop ∧ start ≤ i ∧ i < stop ∧
      ∀ t ∈ ts, t.stop ≤ start ∨ stop ≤ t.start

namespace Cut

variable {offset : Nat} {s : Bytes} {ts : List Token}

theorem last (h : Cut offset s ts) :
    ∃ init t, ts = init ++ [t] ∧ t.kind.isLast = true ∧ ∀ u ∈ init, u.kind.isLast = false := by
  induction h with
  | finish _ hkind | fault _ hkind => exact ⟨[], _, rfl, by rw [hkind]; rfl, by simp⟩
  | @token _ _ _ _ t _ _ hkind _ _ ih =>
    obtain ⟨init, u, rfl, hlast, hinit⟩ := ih
    exact ⟨t :: init, u, rfl, hlast, forall_mem_cons.mpr ⟨hkind, hinit⟩⟩

theorem range (h : Cut offset s ts) : ∀ t ∈ ts, offset ≤ t.start ∧ t.start ≤ t.stop ∧
    t.stop ≤ offset + s.length ∧ (t.kind ≠ .endOfFile → t.start < t.stop) ∧
    (t.kind = .endOfFile → t.start = offset + s.length) := by
  induction h with
  | finish _ hkind hstart hstop =>
    intro t ht
    cases mem_singleton.mp ht
    exact ⟨by omega, by omega, by omega, fun hne => absurd hkind hne, fun _ => hstart⟩
  | fault _ hkind hstands =>
    intro t ht
    cases mem_singleton.mp ht
    have hpos := length_pos_iff.mpr hstands.nonempty
    rw [hstands.start_eq, hstands.stop_eq, length_append, length_append]
    exact ⟨by omega, by omega, by omega, fun _ => by omega, fun heof => by simp [hkind] at heof⟩
  | token _ hkind hstands _ ih =>
    have hpos := length_pos_iff.mpr hstands.nonempty
    have hstart := hstands.start_eq
    have hstop := hstands.stop_eq
    rw [forall_mem_cons, length_append, length_append]
    constructor
    · refine ⟨by omega, by omega, by omega, fun _ => by omega, fun heof => ?_⟩
      rw [heof] at hkind
      cases hkind
    · intro t ht
      obtain ⟨h1, h2, h3, h4, h5⟩ := ih t ht
      exact ⟨by omega, h2, by omega, h4, fun heof => by rw [h5 heof]; omega⟩

theorem ordered (h : Cut offset s ts) : ts.Pairwise fun t u => t.stop ≤ u.start := by
  induction h with
  | finish | fault => exact pairwise_singleton _ _
  | token _ _ _ hrest ih => exact .cons (fun u hu => (hrest.range u hu).1) ih

end Cut

/-- A byte of a filler belongs to a part of it, which touches no token behind the filler. -/
theorem Filler.before {filler : Bytes} (h : Filler filler rest) (front : Bytes) {offset : Nat}
    {ts : List Token} (hfront : front.length = offset) (hle : offset ≤ i)
    (hlt : i < offset + filler.length) (hts : ∀ t ∈ ts, offset + filler.length ≤ t.start) :
    ∃ start stop, BlankAt (front ++ (filler ++ rest)) start stop ∧ offset ≤ start ∧ start ≤ i ∧
      i < stop ∧ ∀ t ∈ ts, t.stop ≤ start ∨ stop ≤ t.start := by
  subst hfront
  obtain ⟨start, stop, hat, hstart, hle, hlt, hstop⟩ := h.blankAt front hle hlt
  exact ⟨start, stop, hat, hstart, hle, hlt, fun t ht => .inr (Nat.le_trans hstop (hts t ht))⟩

/-- The range of a token that stands behind `front` holds the text that it was read from. -/
theorem Stands.text {t : Token} {front text : Bytes} (h : Stands t front.length text) :
    t.text (front ++ (text ++ rest)) = text := by
  rw [Token.text, slice, h.stop_eq, h.start_eq, drop_left, Nat.add_sub_cancel_left,
    take_left]

namespace Cut

variable {offset : Nat} {s : Bytes} {ts : List Token}

theorem stands (h : Cut offset s ts) (front : Bytes) (hfront : front.length = offset) :
    ∀ t ∈ ts, t.kind ≠ .endOfFile → Stands t t.start (t.text (front ++ s)) := by
  induction h generalizing front with
  | finish _ hkind =>
    intro t ht
    cases mem_singleton.mp ht
    exact fun hne => absurd hkind hne
  | @fault _ filler _ _ _ _ _ hstands =>
    intro t ht _
    cases mem_singleton.mp ht
    rw [← hfront, ← length_append] at hstands
    rw [← append_assoc, hstands.text, hstands.start_eq]
    exact hstands
  | @token _ filler text _ _ _ _ _ hstands _ ih =>
    rw [← hfront, ← length_append] at hstands
    rw [forall_mem_cons]
    constructor
    · intro _
      rw [← append_assoc, hstands.text, hstands.start_eq]
      exact hstands
    · have hlater := ih (front ++ filler ++ text) (by rw [hstands.stop_eq, length_append])
      simpa only [append_assoc] using hlater

theorem filled (h : Cut offset s ts) (front : Bytes) (hfront : front.length = offset)
    (hi : offset ≤ i) (hbefore : ∃ t ∈ ts, i < t.start)
    (hout : ∀ t ∈ ts, ¬(t.start ≤ i ∧ i < t.stop)) :
    ∃ start stop, BlankAt (front ++ s) start stop ∧ offset ≤ start ∧ start ≤ i ∧ i < stop ∧
      ∀ t ∈ ts, t.stop ≤ start ∨ stop ≤ t.start := by
  induction h generalizing front with
  | @finish _ filler t hfiller _ hstart =>
    obtain ⟨u, hu, hlt⟩ := hbefore
    cases mem_singleton.mp hu
    have hbehind : ∀ u ∈ [t], _ ≤ u.start :=
      forall_mem_singleton.mpr (Nat.le_of_eq hstart.symm)
    have hat := hfiller.before front hfront hi (hstart ▸ hlt) hbehind
    rwa [append_nil] at hat
  | @fault _ filler _ _ t hfiller _ hstands =>
    obtain ⟨u, hu, hlt⟩ := hbefore
    cases mem_singleton.mp hu
    exact hfiller.before front hfront hi (hstands.start_eq ▸ hlt)
      (forall_mem_singleton.mpr (Nat.le_of_eq hstands.start_eq.symm))
  | @token _ filler text _ t ts hfiller _ hstands hrest ih =>
    have hstart := hstands.start_eq
    have hstop := hstands.stop_eq
    by_cases hlt : i < t.start
    · refine hfiller.before front hfront hi (hstart ▸ hlt) (forall_mem_cons.mpr ⟨by omega, ?_⟩)
      intro u hu
      have := (hrest.range u hu).1
      omega
    · -- The byte stands behind the token, so a later token comes after it.
      rw [forall_mem_cons] at hout
      obtain ⟨u, hu, hafter⟩ := hbefore
      have hmem : u ∈ ts := (mem_cons.mp hu).resolve_left fun h => hlt (h ▸ hafter)
      obtain ⟨start, stop, hat, h1, h2, h3, h4⟩ := ih (front ++ filler ++ text)
        (by rw [length_append, length_append]; omega) (by omega) ⟨u, hmem, hafter⟩ hout.2
      refine ⟨start, stop, ?_, by omega, h2, h3, forall_mem_cons.mpr ⟨.inl h1, h4⟩⟩
      simpa only [append_assoc] using hat

end Cut

/-- **Tokens partition the source.** -/
theorem tokens_partition (source : Bytes) : Partition source (tokens source) := by
  have hcut : Cut 0 source (tokens source) := tokensFrom_cut 0 source
  have hstands := hcut.stands [] rfl
  constructor
  case last => exact hcut.last
  case finish =>
    intro t ht heof
    simpa using (hcut.range t ht).2.2.2.2 heof
  case inside =>
    intro t ht
    obtain ⟨_, hle, hstop, _⟩ := hcut.range t ht
    exact ⟨hle, by omega⟩
  case ordered => exact hcut.ordered
  case nonempty => exact fun t ht => (hcut.range t ht).2.2.2.1
  case spelled =>
    intro t ht hverbatim
    have hne : t.kind ≠ .endOfFile := fun heof => by simp [heof, TokenKind.isVerbatim] at hverbatim
    exact (hstands t ht hne).verbatim hverbatim
  case signed =>
    intro t ht sign hsign
    have hne : t.kind ≠ .endOfFile := fun heof => by simp [heof] at hsign
    exact (hstands t ht hne).signed sign hsign
  case filled =>
    intro i hbefore hout
    obtain ⟨start, stop, hat, _, hrest⟩ := hcut.filled [] rfl (Nat.zero_le i) hbefore hout
    exact ⟨start, stop, hat, hrest⟩

end Lexer

end Winnow
