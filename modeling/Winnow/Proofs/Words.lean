import Winnow.Proofs.Relexing

/-!
# Identifier names are the words of the lexer

Two scanners say what an identifier is. `Name.isIdentifier` asks every character of a text; the lexer
skips white space and comments first and then reads the longest run of identifier characters. A text
is an identifier name exactly if the first token of it is a word that is all of it
(`isIdentifier_iff_word`). No character is both white space and the start of a name
(`isStart_of_isWhite`), so the two begin at the same byte.
-/

namespace Winnow

open Utf8 Name

variable {b : UInt8} {s : Bytes} {code : Nat}

/-- A name, a keyword, or the error for a reserved word outside the subset. -/
def TokenKind.IsWord (kind : TokenKind) (value : Bytes) : Prop :=
  kind = .identifier ∨ (∃ k, kind = .keyword k) ∨
    kind = .error ∧ utf8 "unsupported keyword: " <+: value

namespace Lexer

/-! ## Where a word starts -/

theorem isStart_of_isWhite (h : isWhite code = true) : isStart code = false := by
  obtain ⟨codes, hcodes, hmem⟩ : ∃ codes : List Nat,
      (∀ c ∈ codes, isStart c = false) ∧ code ∈ codes := by
    refine ⟨[9, 10, 11, 12, 13, 0x20, 0x85, 0xA0, 0x1680, 0x2000, 0x2001, 0x2002, 0x2003, 0x2004,
      0x2005, 0x2006, 0x2007, 0x2008, 0x2009, 0x200A, 0x2028, 0x2029, 0x202F, 0x205F, 0x3000,
      0xFEFF], by decide +kernel, ?_⟩
    simp [isWhite, Text.isBlank, Text.blankBounds, Text.inside] at h
    simp only [List.mem_cons, List.not_mem_nil, or_false]
    omega
  exact hcodes code hmem

theorem blank?_of_isStart (h : isStart (first b s).code = true) : blank? b s = none := by
  have hne : ∀ c : UInt8, c < 0x80 → isStart c.toNat = false → (b == c) = false := by
    intro c hc hstart
    refine Bool.eq_false_iff.mpr fun hb => ?_
    rw [beq_iff_eq.mp hb, first_ascii hc, hstart] at h
    cases h
  have hwhite : isWhite (first b s).code = false := by
    refine Bool.eq_false_iff.mpr fun hwhite => ?_
    rw [isStart_of_isWhite hwhite] at h
    cases h
  have hcode : ∀ c, isWhite c = true → (first b s).code ≠ c := by
    intro c hc heq
    rw [heq, hc] at hwhite
    cases hwhite
  rw [isWhite, Bool.or_eq_false_iff] at hwhite
  unfold blank?
  rw [hne 10 (by decide) (by decide), hne 32 (by decide) (by decide), hne 9 (by decide) (by decide),
    hne 13 (by decide) (by decide), hne 11 (by decide) (by decide), hne 12 (by decide) (by decide),
    hne 47 (by decide) (by decide)]
  simp [hwhite.1, hcode 0x2028 (by decide), hcode 0x2029 (by decide), hcode 0xFEFF (by decide)]

theorem isWord_lexeme : (lexeme b s).kind.IsWord (lexeme b s).value ↔
    isStart (first b s).code = true := by
  unfold lexeme
  split
  · next h =>
    refine iff_of_true ?_ h
    simp only [name]
    split
    · exact .inr (.inl ⟨_, rfl⟩)
    · split
      · exact .inr (.inr ⟨rfl, List.prefix_append _ _⟩)
      · exact .inl rfl
  · next h =>
    refine iff_of_false ?_ h
    unfold number string malformed
    dsimp only
    repeat' split
    all_goals simp [TokenKind.IsWord]
    all_goals decide

/-! ## Where a word ends -/

theorem nameRun_eq_length_iff (skip : Nat) (s : Bytes) : nameRun skip s = s.length ↔
    ∀ r ∈ runesAfter skip s, isContinue r.code = true := by
  induction s generalizing skip with
  | nil => simp [nameRun, runesAfter]
  | cons b s ih =>
    cases skip with
    | succ skip =>
      rw [nameRun, runesAfter, ← ih, List.length_cons]
      omega
    | zero =>
      rw [nameRun, runesAfter, List.forall_mem_cons, ← ih, List.length_cons]
      split
      · next h => simp only [h, true_and]; omega
      · next h => simp [h]

theorem isIdentifier_cons : isIdentifier (b :: s) = true ↔
    isStart (first b s).code = true ∧ nameRun 0 (b :: s) = (b :: s).length := by
  rw [nameRun_eq_length_iff, ← runes, runes_cons, List.forall_mem_cons]
  unfold isIdentifier
  rw [runes_cons]
  dsimp only
  rw [Bool.and_eq_true, List.all_eq_true]
  exact ⟨fun h => ⟨h.1, isContinue_of_isStart h.1, h.2⟩, fun h => ⟨h.1, h.2.2⟩⟩

theorem gap_of_isIdentifier (h : isIdentifier s = true) : gap s = (0, false) := by
  cases s with
  | nil => cases h
  | cons b s => exact gap_none (blank?_of_isStart (isIdentifier_cons.mp h).1)

end Lexer

open Lexer in
/-- A text is an identifier name exactly if the first token that is read from it starts where the
text starts, ends where it ends, and is a name, a keyword or a reserved word. -/
theorem isIdentifier_iff_word (name : Bytes) : Name.isIdentifier name = true ↔
    ∃ t, (tokens name).head? = some t ∧ t.start = 0 ∧ t.stop = name.length ∧
      t.kind.IsWord t.value := by
  cases hdrop : name.drop (gap name).1 with
  | nil =>
    rw [tokens, tokensFrom_end 0 hdrop]
    refine iff_of_false (fun h => ?_) ?_
    · rw [gap_of_isIdentifier h, List.drop_zero] at hdrop
      rw [hdrop] at h
      cases h
    · rintro ⟨t, ht, -, -, hword⟩
      cases ht
      simp [TokenKind.IsWord] at hword
  | cons b s =>
    have hhead : (tokens name).head? = some (tokenAt (0 + (gap name).1) (gap name).2 b s) := by
      rw [tokens, tokensFrom_lexeme 0 hdrop]
      split <;> rfl
    simp only [hhead, Option.some.injEq, exists_eq_left', tokenAt, isWord_lexeme]
    by_cases hgap : (gap name).1 = 0
    · rw [hgap, List.drop_zero] at hdrop
      rw [hgap, hdrop, isIdentifier_cons]
      have hextra : Name.isStart (Utf8.first b s).code = true →
          (lexeme b s).extra = nameRun 0 (b :: s) - 1 ∧ 0 < nameRun 0 (b :: s) :=
        fun hstart => ⟨by rw [lexeme, if_pos hstart, name_extra], nameRun_pos hstart⟩
      constructor
      · rintro ⟨hstart, hrun⟩
        obtain ⟨hextra, hpos⟩ := hextra hstart
        exact ⟨rfl, by omega, hstart⟩
      · rintro ⟨-, hstop, hstart⟩
        obtain ⟨hextra, hpos⟩ := hextra hstart
        exact ⟨hstart, by omega⟩
    · -- The token stands behind white space or a comment, with which no name starts.
      refine iff_of_false (fun h => hgap ?_) fun h => hgap ?_
      · rw [gap_of_isIdentifier h]
      · omega

end Winnow
