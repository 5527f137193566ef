import Winnow.Proofs.Quoting
import Winnow.Text.Lines

/-!
# The index of lines

A source is cut into lines with their terminators, and the index of its lines starts where these do
(`Cut.starts`). The lookup finds the last line that does not start behind an offset. A line starts
behind a byte below 0x80, so between characters, and the column in UTF-16 counts the code units from
there on (`split_start`).
-/

namespace Winnow.Text.Lines

open Bytes List

variable {line t rest s : Bytes} {ps : List (Bytes × Bytes)} {offset offset' i : Nat}

/-! ## Lines and terminators -/

/-- A text without line breaks. -/
def Plain (s : Bytes) : Prop := ∀ b ∈ s, b ≠ 13 ∧ b ≠ 10

/-- What ends a line in front of some text. CR and LF that stand together are one terminator. -/
inductive Terminator : (terminator rest : Bytes) → Prop
  | lf (rest : Bytes) : Terminator [10] rest
  | crlf (rest : Bytes) : Terminator [13, 10] rest
  | cr {rest : Bytes} : rest.head? ≠ some 10 → Terminator [13] rest

/-- A text is cut into lines with their terminators. Only the last line may have none, and a
terminator at the very end opens no line. -/
inductive Cut : Bytes → List (Bytes × Bytes) → Prop
  | last {line t : Bytes} : Plain line → (t = [] ∨ Terminator t []) → Cut (line ++ t) [(line, t)]
  | more {line t rest : Bytes} {ps : List (Bytes × Bytes)} : Plain line → Terminator t rest →
      rest ≠ [] → Cut rest ps → Cut (line ++ (t ++ rest)) ((line, t) :: ps)

theorem Terminator.length_pos (h : Terminator t rest) : 0 < t.length := by
  cases h <;> simp

theorem exists_terminator {b : UInt8} (hb : b = 13 ∨ b = 10) (s : Bytes) :
    ∃ t rest, b :: s = t ++ rest ∧ Terminator t rest := by
  rcases hb with rfl | rfl
  · by_cases hnext : s.head? = some 10
    · obtain ⟨rest, rfl⟩ := head?_eq_some_iff.mp hnext
      exact ⟨[13, 10], rest, rfl, .crlf rest⟩
    · exact ⟨[13], s, rfl, .cr hnext⟩
  · exact ⟨[10], s, rfl, .lf s⟩

theorem exists_line (s : Bytes) :
    ∃ line, Plain line ∧ (s = line ∨ ∃ t rest, s = line ++ (t ++ rest) ∧ Terminator t rest) := by
  induction s with
  | nil => exact ⟨[], by simp [Plain], .inl rfl⟩
  | cons b s ih =>
    by_cases hb : b = 13 ∨ b = 10
    · exact ⟨[], by simp [Plain], .inr (exists_terminator hb s)⟩
    · obtain ⟨line, hline, hs⟩ := ih
      refine ⟨b :: line, forall_mem_cons.mpr ⟨not_or.mp hb, hline⟩, ?_⟩
      rcases hs with rfl | ⟨t, rest, rfl, ht⟩
      · exact .inl rfl
      · exact .inr ⟨t, rest, rfl, ht⟩

theorem exists_cut (s : Bytes) : ∃ ps, Cut s ps := by
  induction hn : s.length using Nat.strongRecOn generalizing s with
  | ind n ih =>
    obtain ⟨line, hline, rfl | ⟨t, rest, rfl, ht⟩⟩ := exists_line s
    · have hcut := Cut.last hline (.inl rfl)
      rw [append_nil] at hcut
      exact ⟨_, hcut⟩
    · by_cases hrest : rest = []
      · subst hrest
        rw [append_nil]
        exact ⟨_, .last hline (.inr ht)⟩
      · have hpos := ht.length_pos
        rw [length_append, length_append] at hn
        obtain ⟨ps, hps⟩ := ih rest.length (by omega) rest rfl
        exact ⟨_, .more hline ht hrest hps⟩

/-! ## Line starts -/

/-- Where the lines of a cut start, if the first starts at an offset. -/
def startsFrom (offset : Nat) : List (Bytes × Bytes) → List Nat
  | [] => []
  | (line, t) :: ps => offset :: startsFrom (offset + line.length + t.length) ps

theorem breaks_plain (h : Plain line) (offset : Nat) (s : Bytes) :
    breaks offset (line ++ s) = breaks (offset + line.length) s := by
  induction line generalizing offset with
  | nil => rfl
  | cons b line ih =>
    obtain ⟨⟨hcr, hlf⟩, hline⟩ := forall_mem_cons.mp h
    have hstep : ∀ s, breaks offset (b :: s) = breaks (offset + 1) s := by
      intro s
      rw [breaks]
      · simp [hcr, hlf]
      · simp [hcr]
    rw [cons_append, hstep, ih hline, length_cons]
    congr 1
    omega

theorem Terminator.breaks (h : Terminator t rest) (offset : Nat) :
    breaks offset (t ++ rest) = (offset + t.length) :: breaks (offset + t.length) rest := by
  cases h with
  | lf | crlf => simp [Lines.breaks]
  | cr hnext =>
    rw [singleton_append, Lines.breaks]
    · simp
    · rintro rest _ rfl
      exact hnext rfl

theorem Cut.starts (h : Cut s ps) (offset : Nat) :
    offset :: (breaks offset s).filter (· < offset + s.length) = startsFrom offset ps := by
  induction h generalizing offset with
  | last hline ht =>
    rcases ht with rfl | ht
    · rw [breaks_plain hline]
      simp [breaks, startsFrom]
    · have hbreaks := ht.breaks
      simp only [append_nil] at hbreaks
      simp [breaks_plain hline, hbreaks, breaks, startsFrom, Nat.add_assoc]
  | @more line t rest ps hline ht hrest _ ih =>
    have hpos : 0 < rest.length := length_pos_iff.mpr hrest
    have hlength : offset + (line ++ (t ++ rest)).length =
        offset + line.length + t.length + rest.length := by
      simp only [length_append]
      omega
    rw [breaks_plain hline, ht.breaks, hlength, filter_cons_of_pos (by simpa using hpos), ih,
      startsFrom]

/-- A line of a cut: where it starts, and where the next one does. -/
theorem Cut.piece (h : Cut s ps) (hp : ps[i]? = some (line, t)) (offset : Nat) :
    ∃ before rest, s = before ++ (line ++ (t ++ rest)) ∧
      (startsFrom offset ps)[i]? = some (offset + before.length) ∧
      (startsFrom offset ps).getD (i + 1) (offset + s.length) =
        offset + before.length + line.length + t.length ∧
      Plain line ∧ (t = [] ∨ ∃ rest, Terminator t rest) := by
  induction h generalizing i offset with
  | last hline ht =>
    cases i with
    | succ i => simp at hp
    | zero =>
      cases hp
      refine ⟨[], [], by simp, by simp [startsFrom], by simp [startsFrom]; omega, hline, ?_⟩
      exact ht.imp_right fun ht => ⟨[], ht⟩
  | @more line' t' rest' ps hline ht hrest hcut ih =>
    cases i with
    | zero =>
      cases hp
      refine ⟨[], rest', rfl, by simp [startsFrom], ?_, hline, .inr ⟨rest', ht⟩⟩
      cases hcut <;> simp [startsFrom]
    | succ i =>
      obtain ⟨before, rest, rfl, hstart, hnext, hplain, hend⟩ :=
        ih hp (offset + line'.length + t'.length)
      refine ⟨line' ++ (t' ++ before), rest, by simp, ?_, ?_, hplain, hend⟩
      · simp only [startsFrom, getElem?_cons_succ, hstart, length_append]
        congr 1
        omega
      · simp only [startsFrom, getD_cons_succ, length_append] at hnext ⊢
        rw [← Nat.add_assoc, ← Nat.add_assoc]
        omega

theorem breaks_behind {x : Nat} (hx : x ∈ breaks offset s) :
    ∃ front b back, s = front ++ b :: back ∧ (b = 13 ∨ b = 10) ∧ x = offset + front.length + 1 := by
  fun_induction breaks offset s with
  | case1 => cases hx
  | case2 offset s ih =>
    rcases mem_cons.mp hx with rfl | hx
    · exact ⟨[13], 10, s, rfl, .inr rfl, rfl⟩
    · obtain ⟨front, b, back, rfl, hb, rfl⟩ := ih hx
      exact ⟨13 :: 10 :: front, b, back, rfl, hb, by simp; omega⟩
  | case3 offset b s _ hb ih =>
    rcases mem_cons.mp hx with rfl | hx
    · exact ⟨[], b, s, rfl, by simpa using hb, rfl⟩
    · obtain ⟨front, c, back, rfl, hc, rfl⟩ := ih hx
      exact ⟨b :: front, c, back, rfl, hc, by simp; omega⟩
  | case4 offset b s _ _ ih =>
    obtain ⟨front, c, back, rfl, hc, rfl⟩ := ih hx
    exact ⟨b :: front, c, back, rfl, hc, by simp; omega⟩

theorem breaks_ordered (offset : Nat) (s : Bytes) : (breaks offset s).Pairwise (· < ·) := by
  have hlater : ∀ {offset s}, ∀ x ∈ breaks offset s, offset < x := by
    intro offset s x hx
    obtain ⟨front, b, back, -, -, rfl⟩ := breaks_behind hx
    omega
  fun_induction breaks offset s with
  | case1 => exact .nil
  | case2 offset s ih | case3 offset b s _ _ ih => exact .cons hlater ih
  | case4 offset b s _ _ ih => exact ih

theorem ofSource_ordered (source : Bytes) : (ofSource source).starts.Pairwise (· < ·) := by
  refine .cons (fun x hx => ?_) ((breaks_ordered 0 source).filter _)
  obtain ⟨front, b, back, -, -, rfl⟩ := breaks_behind (mem_filter.mp hx).1
  omega

/-! ## Texts of lines -/

theorem chomp_line (hline : Plain line) (ht : t = [] ∨ ∃ rest, Terminator t rest) :
    chomp (line ++ t) = line := by
  have hstop : line.reverse.dropWhile (fun b => b == 13 || b == 10) = line.reverse := by
    cases hreverse : line.reverse with
    | nil => rfl
    | cons b s =>
      have hb := hline b (mem_reverse.mp (hreverse ▸ mem_cons_self))
      simp [hb]
  rcases ht with rfl | ⟨rest, ht⟩
  · rw [append_nil, chomp, hstop, reverse_reverse]
  · cases ht <;> simp [chomp, hstop]

/-! ## Looking a line up -/

/-- The line of an offset starts at or before it, and every later line behind it. -/
structure Holds (starts : List Nat) (offset line : Nat) : Prop where
  within : line < starts.length
  here : starts.getD line 0 ≤ offset
  later : ∀ j, line < j → j < starts.length → offset < starts.getD j 0

theorem takeWhile_le_iff {starts : List Nat} (h : starts.Pairwise (· < ·)) (offset : Nat) :
    ∀ j, j < starts.length →
      (starts.getD j 0 ≤ offset ↔ j < (starts.takeWhile (· ≤ offset)).length) := by
  induction h with
  | nil => simp
  | @cons x xs hx _ ih =>
    rintro (_ | j) hj
    · by_cases hle : x ≤ offset <;> simp [hle]
    · have hj : j < xs.length := by simpa using hj
      by_cases hle : x ≤ offset
      · simp [hle, ← ih j hj]
      · have hlt := hx _ (getElem_mem hj)
        simp [hle, hj]
        omega

theorem lineOf_holds {lines : Lines} {later : List Nat} (h : lines.starts = 0 :: later)
    (hordered : lines.starts.Pairwise (· < ·)) (offset : Nat) :
    Holds lines.starts offset (lines.lineOf offset) := by
  have hiff := takeWhile_le_iff hordered offset
  have hfirst := (hiff 0 (by simp [h])).mp (by simp [h])
  have hlength : (lines.starts.takeWhile (· ≤ offset)).length ≤ lines.starts.length :=
    (takeWhile_sublist _).length_le
  unfold lineOf
  refine ⟨by omega, (hiff _ (by omega)).mpr (by omega), fun j hj hlt => ?_⟩
  have := hiff j hlt
  omega

theorem Holds.mono {starts : List Nat} {line line' : Nat} (h : Holds starts offset line)
    (h' : Holds starts offset' line') (hle : offset ≤ offset') : line ≤ line' := by
  refine Nat.not_lt.mp fun hlt => ?_
  have hnext := h'.later line hlt h.within
  have hhere := h.here
  omega

/-! ## Columns in UTF-16 -/

theorem length_utf16 (code : Nat) : (Utf8.utf16 code).length = Utf8.units16 code := by
  unfold Utf8.utf16 Utf8.units16
  split <;> split <;> simp <;> omega

theorem units16Below_skip (t : Bytes) (offset : Nat) (rest : Bytes) :
    units16Below (t.length + offset) t.length (t ++ rest) = units16Below offset 0 rest := by
  induction t with
  | nil => simp
  | cons b t ih =>
    rw [length_cons, Nat.add_right_comm, cons_append, units16Below, ih]

theorem units16Below_ofCode {code : Nat} (h : Utf8.IsScalar code) (offset : Nat) (rest : Bytes) :
    units16Below ((ofCode code).length + offset) 0 (ofCode code ++ rest) =
      (Utf8.utf16 code).length + units16Below offset 0 rest := by
  obtain ⟨b, t, hform⟩ := exists_cons_of_ne_nil (Utf8.ofCode_ne_nil code)
  rw [hform, length_cons, Nat.add_right_comm, cons_append, units16Below,
    Utf8.first_ofCode h hform, length_utf16]
  simp [units16Below_skip]

theorem units16Below_codes {codes : List Nat} (h : ∀ c ∈ codes, Utf8.IsScalar c) (rest : Bytes) :
    units16Below (codes.flatMap ofCode).length 0 (codes.flatMap ofCode ++ rest) =
      (codes.flatMap Utf8.utf16).length := by
  induction codes with
  | nil => simp [units16Below]
  | cons code codes ih =>
    obtain ⟨hcode, hcodes⟩ := forall_mem_cons.mp h
    simp only [flatMap_cons, length_append, append_assoc]
    rw [units16Below_ofCode hcode, ih hcodes]

/-- A byte below 0x80 in a text is a character of its own, so that the text may be cut behind it. -/
theorem split_behind {codes : List Nat} {front back : Bytes} {b : UInt8} (hb : b.toNat < 0x80)
    (heq : codes.flatMap ofCode = front ++ b :: back) :
    ∃ before between, codes = before ++ between ∧ before.flatMap ofCode = front ++ [b] := by
  induction codes generalizing front with
  | nil => simp at heq
  | cons code codes ih =>
    have hlater : ∀ more, front = ofCode code ++ more →
        codes.flatMap ofCode = more ++ b :: back →
        ∃ before between, code :: codes = before ++ between ∧
          before.flatMap ofCode = front ++ [b] := by
      rintro more rfl hmore
      obtain ⟨before, between, rfl, hbefore⟩ := ih hmore
      exact ⟨code :: before, between, rfl, by simp [hbefore]⟩
    rw [flatMap_cons] at heq
    rcases append_eq_append_iff.mp heq with ⟨more, hfront, hmore⟩ | ⟨part, hform, hpart⟩
    · exact hlater more hfront hmore
    · cases part with
      | nil => exact hlater [] (by simpa using hform.symm) (by simpa using hpart.symm)
      | cons c part =>
        obtain ⟨rfl, -⟩ := cons.inj hpart
        have hcode : b.toNat = code ∨ 0x80 ≤ b.toNat := Utf8.ofCode_byte (by rw [hform]; simp)
        obtain ⟨c, hone, -⟩ := Utf8.ofCode_one (show code < 0x80 by omega)
        refine ⟨[code], codes, rfl, ?_⟩
        rw [hone] at hform
        obtain ⟨rfl, hc⟩ | ⟨_, rfl, hc⟩ := append_eq_cons_iff.mp hform.symm
        · cases hc
          simp [hone]
        · simp at hc

/-- Where a line starts before the end of some characters, the characters are cut. -/
theorem split_start {codes : List Nat} {source back : Bytes}
    (hsource : source = codes.flatMap ofCode ++ back) {x : Nat}
    (hx : x ∈ (ofSource source).starts) (hle : x ≤ (codes.flatMap ofCode).length) :
    ∃ before between, codes = before ++ between ∧ (before.flatMap ofCode).length = x := by
  rcases mem_cons.mp hx with rfl | hx
  · exact ⟨[], codes, rfl, rfl⟩
  · obtain ⟨front, b, rest, heq, hb, rfl⟩ := breaks_behind (mem_filter.mp hx).1
    rw [hsource] at heq
    have hsmall : b.toNat < 0x80 := by rcases hb with rfl | rfl <;> decide
    obtain ⟨middle, hmiddle⟩ : ∃ middle, codes.flatMap ofCode = front ++ b :: middle := by
      rcases append_eq_append_iff.mp heq with ⟨more, rfl, -⟩ | ⟨part, hpart, hrest⟩
      · rw [length_append] at hle
        omega
      · cases part with
        | nil =>
          rw [hpart, append_nil] at hle
          omega
        | cons c part =>
          obtain ⟨rfl, -⟩ := cons.inj hrest
          exact ⟨part, hpart⟩
    obtain ⟨before, between, rfl, hbefore⟩ := split_behind hsmall hmiddle
    exact ⟨before, between, rfl, by simp [hbefore]⟩

/-! ## The index -/

/-- What the index of the lines of a source promises. -/
structure Indexes (source : Bytes) (lines : Lines) : Prop where
  starts : ∃ later, lines.starts = 0 :: later ∧ lines.starts.Pairwise (· < ·) ∧
    ∀ x ∈ later, x < source.length
  /-- The source is its lines, each followed by its terminator. -/
  pieces : ∃ ps, Cut source ps ∧ lines.starts = startsFrom 0 ps ∧
    ∀ (i : Nat) {line t}, ps[i]? = some (line, t) → lines.text i = line
  /-- An offset belongs to the last line that does not start behind it. -/
  position : ∀ offset : Int, (lines.position offset).1 < lines.count ∧
    (lines.start (lines.position offset).1 + (lines.position offset).2 : Int) =
      max 0 (min offset source.length) ∧
    ∀ i, (lines.position offset).1 < i → i < lines.count →
      max 0 (min offset source.length) < lines.start i
  monotone : ∀ offset offset' : Int, offset ≤ offset' →
    (lines.position offset).1 < (lines.position offset').1 ∨
      (lines.position offset).1 = (lines.position offset').1 ∧
        (lines.position offset).2 ≤ (lines.position offset').2
  line16 : ∀ offset, (lines.position16 offset).1 = (lines.position offset).1
  /-- Between two characters the column is the number of code units since the line start. -/
  column16 : ∀ (offset : Int) (front back : List Nat), (∀ c ∈ front ++ back, Utf8.IsScalar c) →
    source = (front ++ back).flatMap Bytes.ofCode →
    max 0 (min offset source.length) = (front.flatMap Bytes.ofCode).length →
    ∃ before between, front = before ++ between ∧
      (before.flatMap Bytes.ofCode).length = lines.start (lines.position offset).1 ∧
      (lines.position16 offset).2 = (between.flatMap Utf8.utf16).length

theorem clamp_eq (lines : Lines) (offset : Int) :
    (lines.clamp offset : Int) = max 0 (min offset lines.source.length) := by
  unfold clamp
  omega

theorem mem_starts {lines : Lines} {line : Nat} (h : line < lines.count) :
    lines.start line ∈ lines.starts := by
  rw [start, getD_eq_getElem?_getD, getElem?_eq_getElem h]
  exact getElem_mem h

theorem text_ofSource {source : Bytes} (hcut : Cut source ps)
    (hstarts : (ofSource source).starts = startsFrom 0 ps) (hp : ps[i]? = some (line, t)) :
    (ofSource source).text i = line := by
  obtain ⟨before, rest, hs, hstart, hnext, hplain, hend⟩ := hcut.piece hp 0
  simp only [Nat.zero_add] at hstart hnext
  have hslice : source.slice before.length (before.length + line.length + t.length) = line ++ t := by
    rw [slice, hs, drop_left, ← append_assoc, take_left' (by simp; omega)]
  calc (ofSource source).text i
    _ = chomp (source.slice before.length ((startsFrom 0 ps).getD (i + 1) source.length)) := by
      simp only [text, hstarts, hstart]
      rfl
    _ = chomp (line ++ t) := by rw [hnext, hslice]
    _ = line := chomp_line hplain hend

/-- **The index of a source finds its lines and the place of every offset.** -/
theorem ofSource_indexes (source : Bytes) : Indexes source (ofSource source) := by
  have hholds : ∀ offset : Int, Holds (ofSource source).starts ((ofSource source).clamp offset)
      ((ofSource source).position offset).1 := fun _ => lineOf_holds rfl (ofSource_ordered source) _
  constructor
  case starts =>
    refine ⟨_, rfl, ofSource_ordered source, fun x hx => ?_⟩
    exact of_decide_eq_true (List.mem_filter.mp hx).2
  case pieces =>
    obtain ⟨ps, hcut⟩ := exists_cut source
    have hstarts : (ofSource source).starts = startsFrom 0 ps := by
      rw [← hcut.starts 0, Nat.zero_add]
      rfl
    exact ⟨ps, hcut, hstarts, fun i _ _ hp => text_ofSource hcut hstarts hp⟩
  case position =>
    intro offset
    obtain ⟨hwithin, hhere, hlater⟩ := hholds offset
    have hclamp : ((ofSource source).clamp offset : Int) = max 0 (min offset source.length) :=
      clamp_eq _ offset
    refine ⟨hwithin, ?_, fun i hi hlt => ?_⟩
    · rw [← hclamp]
      exact_mod_cast Nat.add_sub_cancel' hhere
    · rw [← hclamp]
      exact_mod_cast hlater i hi hlt
  case monotone =>
    intro offset offset' hle
    have hclamp : (ofSource source).clamp offset ≤ (ofSource source).clamp offset' := by
      unfold clamp
      omega
    have hline := (hholds offset).mono (hholds offset') hclamp
    rcases Nat.lt_or_eq_of_le hline with hlt | heq
    · exact .inl hlt
    · refine .inr ⟨heq, ?_⟩
      show _ - (ofSource source).start ((ofSource source).position offset).1 ≤
        _ - (ofSource source).start ((ofSource source).position offset').1
      rw [heq]
      exact Nat.sub_le_sub_right hclamp _
  case line16 => exact fun _ => rfl
  case column16 =>
    intro offset front back hcodes hsource hoffset
    obtain ⟨hwithin, hhere, -⟩ := hholds offset
    have hclamp : (ofSource source).clamp offset = (front.flatMap Bytes.ofCode).length := by
      have := (ofSource source).clamp_eq offset
      exact_mod_cast this.trans hoffset
    rw [List.flatMap_append] at hsource
    have hmem := mem_starts hwithin
    rw [hclamp] at hhere
    obtain ⟨before, between, rfl, hbefore⟩ := split_start hsource hmem hhere
    refine ⟨before, between, rfl, hbefore, ?_⟩
    have hbetween : ∀ c ∈ between, Utf8.IsScalar c := fun c hc =>
      hcodes c (List.mem_append_left back (List.mem_append_right before hc))
    rw [← units16Below_codes hbetween (back.flatMap Bytes.ofCode)]
    show units16Below ((ofSource source).clamp offset -
      (ofSource source).start ((ofSource source).position offset).1) 0
        (source.drop ((ofSource source).start ((ofSource source).position offset).1)) = _
    rw [hclamp, ← hbefore, hsource]
    simp [List.flatMap_append]

end Winnow.Text.Lines
