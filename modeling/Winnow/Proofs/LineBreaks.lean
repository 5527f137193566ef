import Winnow.Proofs.LineIndex

/-!
# Line breaks between tokens

A token is marked if a line feed stands between it and the token before it (`gap_newline`). The index
of lines counts carriage returns as well, so the two disagree where lines end with these alone.
-/

namespace Winnow.Lexer

open List Text.Lines

variable {s : Bytes} {offset : Nat} {t u : Token} {before after ts : List Token}

theorem gap_newline (hlt : (gap s).1 < s.length) (hmem : 10 ∈ s.take (gap s).1) :
    (gap s).2 = true := by
  induction s using gap.induct with
  | case1 => simp at hmem
  | case2 b s hblank => simp [gap_none hblank] at hmem
  | case3 b s extra newline hblank _ _ _ ih =>
    rw [gap_some hblank] at hlt hmem ⊢
    rw [length_cons] at hlt
    rw [take_succ_cons, take_add, ← cons_append] at hmem
    rcases mem_append.mp hmem with hhere | hlater
    · rw [(blank?_spec hblank).2.2 (by omega) hhere, Bool.true_or]
    · rw [ih (by rw [length_drop]; omega) hlater, Bool.or_true]

theorem tokensFrom_head (h : tokensFrom offset s = u :: ts) (hmem : 10 ∈ s.take (u.start - offset)) :
    u.newlineBefore = true := by
  cases hdrop : s.drop (gap s).1 with
  | nil =>
    rw [tokensFrom_end offset hdrop] at h
    cases h
    rfl
  | cons b rest =>
    have hlt : (gap s).1 < s.length := by
      refine Nat.not_le.mp fun hle => ?_
      rw [drop_eq_nil_of_le hle] at hdrop
      cases hdrop
    obtain rfl : u = tokenAt (offset + (gap s).1) (gap s).2 b rest := by
      rw [tokensFrom_lexeme offset hdrop] at h
      split at h <;> cases h <;> rfl
    exact gap_newline hlt (by simpa [tokenAt] using hmem)

theorem tokensFrom_next (h : tokensFrom offset s = t :: ts) (hts : ts ≠ []) :
    offset ≤ t.stop ∧ tokensFrom t.stop (s.drop (t.stop - offset)) = ts := by
  cases hdrop : s.drop (gap s).1 with
  | nil =>
    rw [tokensFrom_end offset hdrop] at h
    cases h
    exact absurd rfl hts
  | cons b rest =>
    rw [tokensFrom_lexeme offset hdrop] at h
    split at h
    · cases h
      exact absurd rfl hts
    · cases h
      have hstop : offset + (gap s).1 + 1 + (lexeme b rest).extra - offset =
          (gap s).1 + ((lexeme b rest).extra + 1) := by omega
      simp only [tokenAt]
      rw [hstop, ← drop_drop, hdrop, drop_succ_cons]
      exact ⟨by omega, rfl⟩

/-- What follows a token is read from where the token stops. -/
theorem tokensFrom_behind (hts : ts ≠ []) (h : tokensFrom offset s = before ++ t :: ts) :
    offset ≤ t.stop ∧ tokensFrom t.stop (s.drop (t.stop - offset)) = ts := by
  induction before generalizing offset s with
  | nil => exact tokensFrom_next h hts
  | cons x before ih =>
    obtain ⟨hle, hnext⟩ := tokensFrom_next h (by simp)
    obtain ⟨hle', hts⟩ := ih hnext
    refine ⟨Nat.le_trans hle hle', ?_⟩
    rwa [drop_drop, show x.stop - offset + (t.stop - x.stop) = t.stop - offset by omega] at hts

/-- A later line starts behind a line feed or a carriage return. -/
theorem mem_slice_of_lineOf {source : Bytes} {low high : Nat}
    (h : (ofSource source).lineOf low < (ofSource source).lineOf high) :
    13 ∈ source.slice low high ∨ 10 ∈ source.slice low high := by
  have hholds := @lineOf_holds (ofSource source) _ rfl (ofSource_ordered source)
  have hhigh : start _ _ ≤ high := (hholds high).here
  have hlow : low < start _ _ := (hholds low).later _ h (hholds high).within
  rcases mem_cons.mp (mem_starts (hholds high).within) with hzero | hmem
  · omega
  obtain ⟨front, b, back, hs, hb, hx⟩ := breaks_behind (mem_filter.mp hmem).1
  have hbyte : b ∈ source.slice low high := by
    refine mem_iff_getElem?.mpr ⟨front.length - low, ?_⟩
    rw [Bytes.slice, getElem?_take_of_lt (by omega), getElem?_drop, hs,
      show low + (front.length - low) = front.length by omega]
    simp
  rcases hb with rfl | rfl
  · exact .inl hbyte
  · exact .inr hbyte

/-- **A token on a later line than the end of the one before it is marked, unless lines end between
them with carriage returns alone.** -/
theorem tokens_newline {source : Bytes} (h : tokens source = before ++ t :: u :: after)
    (hline : (ofSource source).lineOf t.stop < (ofSource source).lineOf u.start) :
    u.newlineBefore = true ∨
      13 ∈ source.slice t.stop u.start ∧ 10 ∉ source.slice t.stop u.start := by
  by_cases hmem : 10 ∈ source.slice t.stop u.start
  · obtain ⟨-, hnext⟩ := tokensFrom_behind (by simp) h
    exact .inl (tokensFrom_head hnext hmem)
  · exact .inr ⟨(mem_slice_of_lineOf hline).resolve_right hmem, hmem⟩

theorem tokens_newline_comment : let source : Bytes := [97, 47, 42, 10, 42, 47, 98]
    ∃ t u after, tokens source = [] ++ t :: u :: after ∧ (u.newlineBefore = true ∨
      13 ∈ source.slice t.stop u.start ∧ 10 ∉ source.slice t.stop u.start) := by
  have h : tokens [97, 47, 42, 10, 42, 47, 98] = [] ++ ⟨.identifier, 0, 1, [97], false⟩ ::
      ⟨.identifier, 6, 7, [98], true⟩ :: [⟨.endOfFile, 7, 7, [], true⟩] := by decide +kernel
  exact ⟨_, _, _, h, tokens_newline h (by decide +kernel)⟩

/-- Behind a carriage return alone, the second token starts on a later line and is not marked. -/
theorem tokens_newline_return : let source : Bytes := [97, 13, 98]
    tokens source = [⟨.identifier, 0, 1, [97], false⟩, ⟨.identifier, 2, 3, [98], false⟩,
      ⟨.endOfFile, 3, 3, [], true⟩] ∧
    (ofSource source).lineOf 1 < (ofSource source).lineOf 2 := by
  decide +kernel

end Winnow.Lexer
