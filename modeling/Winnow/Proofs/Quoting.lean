import Winnow.Output.Quote
import Winnow.Proofs.Lexing

/-!
# Reading a quoted text back

A quoted text is always one string token (`tokens_string`). Its value is the text again, except for
the control characters without a letter escape: they are written `\x` and two digits, which reads as
the letter `x` and the digits (`reread`). `Reads` says what a piece of a literal stands for,
whatever follows; each rune is quoted as a piece that stands for its `rereadCode`.
-/

namespace Winnow.Quote

open Utf8 Bytes List Lexer

open Lexer (stringBody)

variable {code : Nat} {b : UInt8}

/-- The control characters that are quoted by their number. -/
def isControl (code : Nat) : Bool := code < 0x20 && code != 9 && code != 10 && code != 13

/-- What the quoted form of a code point is read as. -/
def rereadCode (code : Nat) : Bytes :=
  if isControl code then 120 :: Bytes.hex 2 code else Bytes.ofCode code

/-- What the literal of a text is read as. -/
def reread (s : Bytes) : Bytes := (Utf8.runes s).flatMap fun r => rereadCode r.code

/-! ## Pieces of a literal -/

/-- Inside single quotes, `text` stands for `value`. -/
def Reads (text value : Bytes) : Prop :=
  ∀ rest, stringBody 39 (text ++ rest) =
    ((stringBody 39 rest).1 + text.length, value ++ (stringBody 39 rest).2.1,
      (stringBody 39 rest).2.2)

theorem Reads.nil : Reads [] [] := fun _ => rfl

theorem Reads.append {text value text' value' : Bytes} (h : Reads text value)
    (h' : Reads text' value') : Reads (text ++ text') (value ++ value') := by
  intro rest
  rw [append_assoc, h, h', length_append]
  simp only [append_assoc, Prod.mk.injEq, and_true]
  omega

theorem reads_byte (hslash : b ≠ 92) (hquote : b ≠ 39) (hline : b ≠ 10) : Reads [b] [b] := by
  intro rest
  rw [singleton_append, stringBody]
  · simp [hquote, hline]
  · exact fun h => hslash h

theorem reads_bytes {text : Bytes} (h : ∀ b ∈ text, b ≠ 92 ∧ b ≠ 39 ∧ b ≠ 10) :
    Reads text text := by
  induction text with
  | nil => exact .nil
  | cons b text ih =>
    obtain ⟨⟨hslash, hquote, hline⟩, htext⟩ := forall_mem_cons.mp h
    exact (reads_byte hslash hquote hline).append (ih htext)

theorem reads_escape (hu : b ≠ 117) (hline : b ≠ 10) : Reads [92, b] [escaped b] := by
  intro rest
  show stringBody 39 (92 :: b :: rest) = _
  rw [stringBody]
  · rfl
  · exact fun _ _ _ _ _ h => absurd h hu
  · exact hu
  · exact hline

theorem reads_unicode {a c d : UInt8} (h : fourHex? a b c d = some code) :
    Reads [92, 117, a, b, c, d] (ofCode code) := by
  intro rest
  show stringBody 39 (92 :: 117 :: a :: b :: c :: d :: rest) = _
  rw [stringBody, h]
  rfl

theorem reads_ofCode (hslash : code ≠ 92) (hquote : code ≠ 39) (hline : code ≠ 10) :
    Reads (ofCode code) (ofCode code) := by
  refine reads_bytes fun b hb => ?_
  have hbyte := ofCode_byte hb
  refine ⟨?_, ?_, ?_⟩ <;> rintro rfl <;> simp at hbyte <;> omega

theorem reads_hex (h : code < 0x20) : Reads (hex 2 code) (hex 2 code) := by
  have hdigits : (range 0x20).all (fun n =>
      (hex 2 n).all fun b => b != 92 && b != 39 && b != 10) = true := by decide
  have hcode := all_eq_true.mp hdigits code (mem_range.mpr h)
  exact reads_bytes (by simpa [and_assoc] using hcode)

theorem reads_rune (r : Rune) : Reads (rune r) (rereadCode r.code) := by
  unfold rune
  split
  case h_1 h | h_2 h | h_3 h | h_4 h | h_5 h =>
    rw [h]
    exact reads_escape (by decide) (by decide)
  case h_6 h =>
    have hdigits : fourHex? 50 48 50 56 = some 0x2028 := by decide
    rw [h]
    exact reads_unicode hdigits
  case h_7 h =>
    have hdigits : fourHex? 50 48 50 57 = some 0x2029 := by decide
    rw [h]
    exact reads_unicode hdigits
  case h_8 hslash hquote hline hreturn htab _ _ =>
    split
    · next hlow =>
      have hcontrol : isControl r.code = true := by simp_all [isControl]
      rw [rereadCode, if_pos hcontrol]
      exact (reads_escape (by decide) (by decide)).append (reads_hex hlow)
    · next hlow =>
      have hcontrol : isControl r.code = false := by simp_all [isControl]
      rw [rereadCode, hcontrol]
      exact reads_ofCode hslash hquote hline

theorem reads_runes (rs : List Rune) :
    Reads (rs.flatMap rune) (rs.flatMap fun r => rereadCode r.code) := by
  induction rs with
  | nil => exact .nil
  | cons r rs ih => exact (reads_rune r).append ih

theorem stringBody_quoted (s : Bytes) :
    stringBody 39 ((runes s).flatMap rune ++ [39]) =
      (((runes s).flatMap rune).length + 1, reread s, .closed) := by
  rw [reads_runes]
  simp [stringBody, reread, Nat.add_comm]

theorem lexeme_quote (s : Bytes) : Lexer.lexeme 39 s = Lexer.string 39 s := by
  have hfirst : first 39 s = ⟨39, [39]⟩ := rfl
  have hname : Name.isStart 39 = false := by decide
  rw [Lexer.lexeme]
  rfl

/-! ## Texts that are read back -/

theorem isControl_iff : isControl code = true ↔ code < 0x20 ∧ code ≠ 9 ∧ code ≠ 10 ∧ code ≠ 13 := by
  simp [isControl, and_assoc]

theorem isValid_reread (s : Bytes) : isValid (reread s) = true := by
  refine isValid_flatMap fun r hr => ?_
  rw [rereadCode]
  split
  · next hcontrol =>
    have hdigits : (range 0x20).all (fun n => isValid (120 :: hex 2 n)) = true := by
      decide
    exact all_eq_true.mp hdigits r.code (mem_range.mpr (isControl_iff.mp hcontrol).1)
  · exact isValid_ofCode (runes_scalar r hr)

theorem isControl_eq_false_iff : isControl code = false ↔
    ∀ b ∈ ofCode code, b < 0x20 → b = 9 ∨ b = 10 ∨ b = 13 := by
  simp only [UInt8.lt_iff_toNat_lt, ← UInt8.toNat_inj, UInt8.toNat_ofNat]
  rw [← Bool.not_eq_true, isControl_iff]
  constructor
  · intro hcontrol b hb hlow
    have hbyte : b.toNat = code := (ofCode_byte hb).resolve_right (by omega)
    omega
  · rintro hbytes ⟨hlow, hne⟩
    obtain ⟨b, hform, rfl⟩ := @Utf8.ofCode_one code (by omega)
    have hescaped := hbytes b (by simp [hform]) hlow
    omega

theorem flatMap_rereadCode_iff {codes : List Nat} :
    codes.flatMap rereadCode = codes.flatMap ofCode ↔ ∀ c ∈ codes, isControl c = false := by
  induction codes with
  | nil => simp
  | cons c codes ih =>
    rw [flatMap_cons, flatMap_cons, forall_mem_cons]
    cases hcontrol : isControl c with
    | false =>
      rw [rereadCode, hcontrol, if_neg Bool.false_ne_true, append_cancel_left_eq, ih]
      exact (and_iff_right rfl).symm
    | true =>
      -- The letter that is read for a control character is none itself.
      have hlow := (isControl_iff.mp hcontrol).1
      obtain ⟨b, hform, rfl⟩ := @Utf8.ofCode_one c (by omega)
      rw [rereadCode, if_pos hcontrol, hform]
      refine iff_of_false (fun h => ?_) (by simp)
      cases (cons.inj h).1
      simp at hlow

theorem reread_flatMap {codes : List Nat} (h : ∀ c ∈ codes, Utf8.IsScalar c) :
    reread (codes.flatMap ofCode) = codes.flatMap rereadCode := by
  rw [reread, runes_flatMap h, flatMap_map]

/-- A text is read back exactly if it is UTF-8 without control characters other than tabs and line
breaks. -/
theorem reread_eq_iff {s : Bytes} :
    reread s = s ↔ isValid s = true ∧ ∀ b ∈ s, b < 0x20 → b = 9 ∨ b = 10 ∨ b = 13 := by
  have hforms {codes : List Nat} (h : ∀ c ∈ codes, Utf8.IsScalar c) :
      reread (codes.flatMap ofCode) = codes.flatMap ofCode ↔
        ∀ b ∈ codes.flatMap ofCode, b < 0x20 → b = 9 ∨ b = 10 ∨ b = 13 := by
    rw [reread_flatMap h, flatMap_rereadCode_iff]
    simp only [isControl_eq_false_iff, mem_flatMap]
    constructor
    · rintro hall b ⟨c, hc, hb⟩
      exact hall c hc b hb
    · exact fun hall c hc b hb => hall b ⟨c, hc, hb⟩
  constructor
  · intro hsame
    have hvalid : isValid s = true := hsame ▸ isValid_reread s
    obtain ⟨codes, hcodes, rfl⟩ := isValid_iff.mp hvalid
    exact ⟨hvalid, (hforms hcodes).mp hsame⟩
  · rintro ⟨hvalid, hbytes⟩
    obtain ⟨codes, hcodes, rfl⟩ := isValid_iff.mp hvalid
    exact (hforms hcodes).mpr hbytes

theorem tokens_quoted (s : Bytes) : tokens (string s) =
    [⟨.string, 0, (string s).length, reread s, false⟩,
      ⟨.endOfFile, (string s).length, (string s).length, [], true⟩] := by
  have hgap : Lexer.gap (string s) = (0, false) := gap_none rfl
  have hlexeme : Lexer.lexeme 39 ((runes s).flatMap rune ++ [39]) =
      ⟨.string, ((runes s).flatMap rune).length + 1, reread s⟩ := by
    rw [lexeme_quote, Lexer.string, stringBody_quoted]
  have hdrop : (string s).drop (Lexer.gap (string s)).1 =
      39 :: ((runes s).flatMap rune ++ [39]) := by
    rw [hgap]
    rfl
  have hrest : ((runes s).flatMap rune ++ [39]).drop
      (((runes s).flatMap rune).length + 1) = [] := by simp
  have hlength : (string s).length = 0 + 0 + 1 + (((runes s).flatMap rune).length + 1) := by
    simp [string, Nat.add_comm]
  have hempty : Lexer.gap [] = (0, false) := by rw [Lexer.gap]
  rw [tokens, tokensFrom_lexeme 0 hdrop, tokenAt, hlexeme, hgap, hrest, tokensFrom_end _ drop_nil, hempty,
    hlength]
  rfl

/-- **A quoted text is one string token. The text itself is read back exactly if it is UTF-8 without
control characters other than tabs and line breaks.** -/
theorem tokens_string (s : Bytes) :
    Lexer.tokens (string s) =
      [⟨.string, 0, (string s).length, reread s, false⟩,
        ⟨.endOfFile, (string s).length, (string s).length, [], true⟩] ∧
    (reread s = s ↔
      Utf8.isValid s = true ∧ ∀ b ∈ s, b < 0x20 → b = 9 ∨ b = 10 ∨ b = 13) :=
  ⟨tokens_quoted s, reread_eq_iff⟩

/-- The literal of U+0001 is `'\x01'`, which is read as the text `x01`. -/
theorem tokens_string_start_of_heading : Utf8.isValid [1] = true ∧
    string [1] = utf8 "'\\x01'" ∧
    Lexer.tokens (string [1]) =
      [⟨.string, 0, 6, utf8 "x01", false⟩, ⟨.endOfFile, 6, 6, [], true⟩] ∧
    utf8 "x01" ≠ [1] :=
  ⟨by decide, by decide, (tokens_quoted [1]).trans (by decide), by decide⟩

end Winnow.Quote
