import Winnow.Output.Layout
import Winnow.Proofs.Phrases
import Winnow.Proofs.Placing
import Winnow.Proofs.Relexing

/-!
# Reading what was printed

An expression that was parsed and is printed as a whole is parsed again as the same expression, up
to the numbers, places and scopes of its nodes (`expression_survives_printing`).

The layout of an expression is cut into parts, each with the tokens that it is read as: `Spells`
says so of a text and `Writes` of pieces. A layout follows the grammar: at every level, what is laid
out is read as a phrase of that level (`Whole.reads`).
-/

namespace Winnow

open List

variable {c e l r : Expr} {source value : Bytes} {g : Graph} {i : Info} {ts : List Token}
  {o : ModuleText} {x : Sign} {t : Token} {kind : TokenKind} {b : UInt8}

/-! ## Nodes of parsed modules -/

open Outline

theorem Builds.read {setting : Setting} {s s' : ParserState} {acc os : List Outline}
    (h : Builds o setting s acc s' os) (hacc : ∀ n ∈ preorders acc, n.Read o) :
    ∀ n ∈ preorders os, n.Read o := by
  have hnil : ∀ n ∈ preorders [], n.Read o := forall_mem_nil _
  have hbinders : ∀ name : Option Binder, ∀ n ∈ preorders (name.toList.map ofBinder), n.Read o := by
    intro name n hn
    cases name with
    | none => cases hn
    | some b =>
      cases mem_singleton.mp hn
      trivial
  have happend : ∀ {acc os}, (∀ n ∈ preorders acc, n.Read o) → (∀ n ∈ preorders os, n.Read o) →
      ∀ n ∈ preorders (acc ++ os), n.Read o := by
    intro acc os hacc hos
    rw [preorders_eq, flatMap_append, ← preorders_eq, ← preorders_eq]
    exact forall_mem_append.mpr ⟨hacc, hos⟩
  have hmk : ∀ {n os}, n.Read o → (∀ n ∈ preorders os, n.Read o) →
      ∀ m ∈ preorders [.mk n os], m.Read o := by
    intro n os hn hos
    rw [preorders, preorders, append_nil]
    exact forall_mem_cons.mpr ⟨hn, hos⟩
  induction h with
  | reads => exact hacc
  | next _ _ ih ih' => exact ih' (ih hacc)
  | apart _ ih | expression _ ih | statement _ ih | body _ ih | declaring _ _ ih | member _ _ ih =>
    exact happend hacc (ih hnil)
  | node _ _ _ hread => exact hmk hread hacc
  | binder => exact forall_mem_cons.mpr ⟨trivial, hacc⟩
  | block _ _ ih => exact hmk trivial (ih hnil)
  | function name _ _ hlists _ _ _ ih => exact hmk hlists (ih (hbinders name))
  | classDef name _ _ _ _ _ ih _ ih' =>
    exact hmk trivial (happend (happend (hbinders name) (ih hnil)) (ih' hnil))
  | exportDefault _ _ _ ih => exact hmk trivial (ih hnil)

theorem Program.parse_read {defaultName : Bytes} {module : Option ModuleId} {t : Symbols}
    {next : NodeId} {p : Parsed} (h : Program.parse source module defaultName t next = .ok p)
    (he : Node.expr e ∈ (ofProgram p.program).preorder) :
    ∀ n ∈ (ofExpr e).preorder, n.Read ⟨source, module⟩ := by
  obtain ⟨s, s', -, -, -, -, -, -, -, hbuilds⟩ := Program.parse_builds h
  have hall : ∀ n ∈ (ofProgram p.program).preorder, n.Read ⟨source, module⟩ := by
    exact forall_mem_cons.mpr ⟨trivial, hbuilds.read (forall_mem_nil _)⟩
  have hproper : (ofProgram p.program).Regular := ⟨rfl, fun _ h => by cases h⟩
  rw [← map_fst_links _ none] at he
  obtain ⟨l, hl, hle⟩ := mem_map.mp he
  have hwithin := (Outline.link_of_mem _ hproper none l.1 l.2 hl).within
  rw [hle] at hwithin
  exact fun n hn => hall n (hwithin.subset hn)

/-! ## Texts -/

namespace Lexer

/-- A text is read as some tokens in front of every text that may follow. What is said about the
tokens may depend on the source that they stand in. -/
def Spells (p : Bytes → List Token → Prop) (follow : UInt8 → Bool) (text : Bytes) : Prop :=
  ∀ front rest : Bytes, (∀ b, rest.head? = some b → follow b = true) →
    ∃ ts, tokensFrom front.length (text ++ rest) =
        ts ++ tokensFrom (front.length + text.length) rest ∧
      p (front ++ (text ++ rest)) ts

def Sole (p : Bytes → Token → Prop) (source : Bytes) (ts : List Token) : Prop :=
  ∃ t, ts = [t] ∧ p source t

/-- There are tokens of one kind in front and of another behind. -/
def Both (p q : Bytes → List Token → Prop) (source : Bytes) (ts : List Token) : Prop :=
  ∃ us vs, ts = us ++ vs ∧ p source us ∧ q source vs

def IsSign (x : Sign) : Bytes → List Token → Prop := Sole fun _ t => t.kind = .sign x

theorem IsSign.sole {p : Bytes → Token → Prop} (h : IsSign x source ts)
    (hp : ∀ t, t.kind = .sign x → p source t) : Sole p source ts := by
  obtain ⟨t, hts, ht⟩ := h
  exact ⟨t, hts, hp t ht⟩

theorem tokensFrom_blank (offset : Nat) (s : Bytes) :
    tokensFrom offset (32 :: s) = tokensFrom (offset + 1) s := by
  have hgap : gap (32 :: s) = (1 + (gap s).1, (gap s).2) := by
    rw [gap_some rfl, Nat.zero_add, Nat.add_comm, drop_zero, Bool.false_or]
  have hdrop : (32 :: s).drop (gap (32 :: s)).1 = s.drop (gap s).1 := by
    rw [hgap, Nat.add_comm, drop_succ_cons]
  cases hs : s.drop (gap s).1 with
  | nil =>
    rw [tokensFrom_end _ hs, tokensFrom_end _ (hdrop.trans hs), hgap, Nat.add_assoc]
  | cons b rest =>
    rw [tokensFrom_lexeme _ hs, tokensFrom_lexeme _ (hdrop.trans hs), hgap, Nat.add_assoc offset 1]

theorem tokensFrom_read {rest : Bytes} {n : Nat} (offset : Nat) (hblank : blank? b rest = none)
    (hlexeme : lexeme b rest = ⟨kind, n, value⟩) (hkind : kind ≠ .error) :
    tokensFrom offset (b :: rest) =
      ⟨kind, offset, offset + 1 + n, value, false⟩ :: tokensFrom (offset + 1 + n) (rest.drop n) := by
  have hgap := gap_none hblank
  rw [tokensFrom_lexeme offset (by rw [hgap]; rfl), hgap, tokenAt, hlexeme,
    if_neg hkind]
  rfl

section

variable {p q : Bytes → List Token → Prop} {follow follow' : UInt8 → Bool} {text text' : Bytes}

section

variable (h : Spells p follow text)

include h

theorem Spells.mono (hp : ∀ source ts, p source ts → q source ts)
    (hfollow : ∀ b, follow' b = true → follow b = true) : Spells q follow' text := by
  intro front rest hrest
  obtain ⟨ts, hts, hpts⟩ := h front rest fun b hb => hfollow b (hrest b hb)
  exact ⟨ts, hts, hp _ _ hpts⟩

theorem Spells.append (h' : Spells q follow' text')
    (hjoin : ∀ rest b, (text' ++ rest).head? = some b → follow b = true) :
    Spells (Both p q) follow' (text ++ text') := by
  intro front rest hrest
  obtain ⟨us, hus, hp⟩ := h front (text' ++ rest) (hjoin rest)
  obtain ⟨vs, hvs, hq⟩ := h' (front ++ text) rest hrest
  refine ⟨us ++ vs, ?_, us, vs, rfl, ?_, ?_⟩
  · rw [append_assoc, hus, ← length_append, hvs, append_assoc, length_append,
      length_append, Nat.add_assoc]
  · rwa [append_assoc]
  · rwa [append_assoc, ← append_assoc front]

theorem Spells.blank : Spells p follow (32 :: text) := by
  intro front rest hrest
  obtain ⟨ts, hts, hp⟩ := h (front ++ [32]) rest hrest
  refine ⟨ts, ?_, ?_⟩
  · have hlength : (front ++ [32]).length = front.length + 1 := length_append
    rw [hlength] at hts
    rw [cons_append, tokensFrom_blank, hts, length_cons, Nat.add_assoc, Nat.add_comm 1]
  · simpa using hp

theorem Spells.blank_behind (hblank : follow 32 = true) (follow') :
    Spells p follow' (text ++ [32]) := by
  intro front rest _
  obtain ⟨ts, hts, hp⟩ := h front (32 :: rest) fun b hb => Option.some.inj hb ▸ hblank
  refine ⟨ts, ?_, ?_⟩
  · rw [append_assoc, singleton_append, hts, tokensFrom_blank, length_append]
    rfl
  · rwa [append_assoc]

end

theorem spells_lexeme {tail : Bytes} {p : Bytes → Token → Prop}
    (h : ∀ rest : Bytes, (∀ c, rest.head? = some c → follow c = true) →
      blank? b (tail ++ rest) = none ∧ lexeme b (tail ++ rest) = ⟨kind, tail.length, value⟩)
    (hkind : kind ≠ .error) (hp : ∀ source t, t.kind = kind → t.value = value →
      t.text source = b :: tail → p source t) : Spells (Sole p) follow (b :: tail) := by
  intro front rest hrest
  obtain ⟨hblank, hlexeme⟩ := h rest hrest
  refine ⟨_, ?_, _, rfl, hp _ ⟨kind, front.length, front.length + 1 + tail.length, value, false⟩
    rfl rfl ?_⟩
  · rw [cons_append, tokensFrom_read _ hblank hlexeme hkind, drop_left,
      Nat.add_assoc, Nat.add_comm 1]
    rfl
  · rw [Token.text, Bytes.slice, drop_left, show front.length + 1 + tail.length - front.length =
      (b :: tail).length by rw [length_cons]; omega, take_left]

theorem Lexed.spells {p : Bytes → Token → Prop} (h : Lexed kind value text)
    (hkind : kind.isWord = true)
    (hp : ∀ source t, t.kind = kind → t.value = value → t.text source = text → p source t) :
    Spells (Sole p) (mayFollow kind) text := by
  obtain ⟨b, s, extra, -, -, rfl⟩ := id h
  refine spells_lexeme (fun rest hrest => ?_) (by rintro rfl; cases hkind) hp
  obtain ⟨c, tail', htext, hread⟩ := h.again hkind hrest
  cases htext
  exact hread

/-- Whether a byte may follow a sign directly. A blank may follow any. -/
def mayFollowSign : Sign → UInt8 → Bool
  | .leftParen, _ | .rightParen, _ | .leftBracket, _ | .rightBracket, _ | .comma, _
  | .semicolon, _ => true
  | .dot, b => !Bytes.isDigit b
  | .bang, b | .plus, b | .minus, b => b != 61
  | _, b => b == 32

/-- An operator in front of its operand is not read as one with an equals sign. -/
theorem operator_read {c : UInt8} (rest : Bytes) (hc : c ≠ 61)
    (hb : (b, x) ∈ [((43 : UInt8), Sign.plus), (45, .minus), (33, .bang)]) :
    blank? b (c :: rest) = none ∧ lexeme b (c :: rest) = ⟨.sign x, 0, []⟩ := by
  simp only [mem_cons, not_mem_nil, or_false] at hb
  rcases hb with ⟨rfl, rfl⟩ | ⟨rfl, rfl⟩ | ⟨rfl, rfl⟩
  · have hsign : sign? 43 (c :: rest) = some (.plus, 0) := by simp [sign?, hc]
    simp only [lexeme, hsign]
    exact ⟨rfl, rfl⟩
  · have hsign : sign? 45 (c :: rest) = some (.minus, 0) := by simp [sign?, hc]
    simp only [lexeme, hsign]
    exact ⟨rfl, rfl⟩
  · have hsign : sign? 33 (c :: rest) = some (.bang, 0) := by simp [sign?, hc]
    simp only [lexeme, hsign]
    exact ⟨rfl, rfl⟩

theorem dot_read {c : UInt8} (rest : Bytes) (hc : Bytes.isDigit c = false) :
    blank? 46 (c :: rest) = none ∧ lexeme 46 (c :: rest) = ⟨.sign .dot, 0, []⟩ := by
  have hnumber : startsNumber 46 (c :: rest) = false := hc
  simp only [lexeme, hnumber]
  exact ⟨rfl, rfl⟩

theorem sign_spells (x : Sign) : Spells (IsSign x) (mayFollowSign x) (utf8 x.text) := by
  have hread : ∃ b tail, utf8 x.text = b :: tail ∧ ∀ rest : Bytes,
      (∀ c, rest.head? = some c → mayFollowSign x c = true) →
      blank? b (tail ++ rest) = none ∧ lexeme b (tail ++ rest) = ⟨.sign x, tail.length, []⟩ := by
    cases x
    all_goals
      refine ⟨_, _, rfl, fun rest hrest => ?_⟩
      cases rest with
      | nil => exact ⟨rfl, rfl⟩
      | cons c rest =>
        have hc := hrest c rfl
        simp only [mayFollowSign, bne_iff_ne, beq_iff_eq, Bool.not_eq_true'] at hc
        first
          | exact ⟨rfl, rfl⟩
          | subst hc
            exact ⟨rfl, rfl⟩
          | exact operator_read rest hc (by decide)
          | exact dot_read rest hc
  obtain ⟨b, tail, htext, hread⟩ := hread
  rw [htext]
  exact spells_lexeme hread nofun fun _ _ hkind _ _ => hkind

end

/-- Whether an operand may start with a byte: no equals sign. -/
def isOpening (b : UInt8) : Bool := b != 61

theorem Lexed.start {text : Bytes} (h : Lexed kind value text) (hkind : kind.isWord = true) :
    ∃ b tail, text = b :: tail ∧ isOpening b = true ∧
      (kind ≠ .number → Bytes.isDigit b = false) := by
  obtain ⟨b, rest, extra, -, hlexeme, rfl⟩ := h
  refine ⟨b, _, rfl, bne_iff_ne.mpr ?_, fun hnumber => ?_⟩
  · rintro rfl
    have hstart : ¬ Name.isStart (Utf8.first 61 rest).code = true := Bool.false_ne_true
    have hnumber : ¬ startsNumber 61 rest = true := Bool.false_ne_true
    rw [lexeme, if_neg hstart, if_neg hnumber, if_neg (by decide)] at hlexeme
    split at hlexeme <;> cases hlexeme <;> cases hkind
  · cases hdigit : Bytes.isDigit b with
    | false => rfl
    | true =>
      have hstarts : startsNumber b rest = true := by rw [startsNumber, hdigit, Bool.true_or]
      have hascii := number_ascii hstarts
      have hstart : Name.isStart b.toNat = false := by
        have hbounds : 48 ≤ b.toNat ∧ b.toNat ≤ 57 := by
          simpa [Bytes.isDigit, UInt8.le_iff_toNat_le] using hdigit
        rw [Name.isStart, if_pos (by omega), Name.isAsciiStart]
        simp only [Bool.or_eq_false_iff, Bool.and_eq_false_iff, decide_eq_false_iff_not,
          beq_eq_false_iff_ne]
        omega
      rw [lexeme, first_ascii hascii, hstart, if_neg Bool.false_ne_true, hstarts,
        if_pos rfl] at hlexeme
      simp only [number] at hlexeme
      split at hlexeme
      · split at hlexeme <;> cases hlexeme
        · cases hkind
        · exact absurd rfl hnumber
      · cases hlexeme
        exact absurd rfl hnumber

theorem keyword_lexed (k : Keyword) : Lexed (.keyword k) (utf8 k.text) (utf8 k.text) := by
  refine ⟨(utf8 k.text).headD 0, (utf8 k.text).tail, (utf8 k.text).tail.length, ?_⟩
  cases k <;> decide +kernel

end Lexer

theorem ModuleText.Has.stands (h : o.Has t) (hkind : t.kind ≠ .endOfFile) :
    Lexer.Stands t t.start (t.text o.source) :=
  (Lexer.tokensFrom_cut 0 o.source).stands [] rfl t (h.resolve_right hkind) hkind

/-- The value of a token that is a name is read as a name, and does not start like a number. -/
theorem ModuleText.Has.name (h : o.Has t) (hname : t.isName = true) :
    Lexer.Spells
        (Lexer.Sole fun _ u => u.isName = true ∧ u.value = t.value ∧ u.kind ≠ .sign .arrow)
        (Lexer.mayFollow .identifier) t.value ∧
      ∃ b tail, t.value = b :: tail ∧ Bytes.isDigit b = false := by
  rcases Bool.or_eq_true_iff.mp hname with hkind | hkeyword
  · have hkind : t.kind = .identifier := beq_iff_eq.mp hkind
    have hstands := h.stands (by rw [hkind]; nofun)
    have hlexed := hstands.lexed
    rw [← hstands.verbatim (by rw [hkind]; rfl), hkind] at hlexed
    obtain ⟨b, tail, htext, -, hdigit⟩ := hlexed.start rfl
    refine ⟨hlexed.spells rfl fun _ u hu hvalue _ => ⟨?_, hvalue, ?_⟩, b, tail, htext, hdigit nofun⟩
    · rw [Token.isName, hu]
      rfl
    · rw [hu]
      nofun
  · obtain ⟨k, hk⟩ := Option.isSome_iff_exists.mp hkeyword
    have hlexed := Lexer.keyword_lexed k
    rw [show utf8 k.text = t.value by simpa using find?_some hk] at hlexed
    obtain ⟨b, tail, htext, -, hdigit⟩ := hlexed.start rfl
    refine ⟨(hlexed.spells rfl fun _ u hu hvalue _ => ⟨?_, hvalue, ?_⟩).mono (fun _ _ => id)
      fun _ => id, b, tail, htext, hdigit nofun⟩
    · rw [Token.isName, hvalue, hkeyword, Bool.or_true]
    · rw [hu]
      nofun

/-! ## Pieces -/

namespace Layout

open Piece Lexer
open Winnow.Parser (Phrase Infix precedence infixAt? Divided isTarget unaryOp? assignOp?)

theorem expr_ident (g : Graph) (depth level : Nat) (settled : Bool) (n : Ident) :
    expr g depth level settled (.ident n) = [identWord g n] := by
  rw [expr]

/-- Behind any text, pieces are written as a text that starts with one of some bytes and is read as
some tokens. -/
structure Writes (start : UInt8 → Bool) (p : Bytes → List Token → Prop) (follow : UInt8 → Bool)
    (ps : List Piece) : Prop where
  printable : Piece.unprintable ∉ ps
  written (last : Option UInt8) : ∃ b tail, writeAfter .pretty last ps = b :: tail ∧
    start b = true ∧ Spells p follow (b :: tail)

theorem writeAfter_append (style : Style) (last : Option UInt8) (ps qs : List Piece) :
    writeAfter style last (ps ++ qs) = writeAfter style last ps ++
      writeAfter style (lastByte last (writeAfter style last ps)) qs := by
  induction ps generalizing last with
  | nil => rfl
  | cons p ps ih =>
    rw [cons_append, writeAfter, writeAfter, ih, append_assoc]
    simp [lastByte, Option.or_assoc]

section

variable {start start' : UInt8 → Bool} {p q : Bytes → List Token → Prop}
  {follow follow' : UInt8 → Bool} {ps qs : List Piece}

theorem Writes.mono (h : Writes start p follow ps) (hp : ∀ source ts, p source ts → q source ts)
    (hfollow : ∀ b, follow' b = true → follow b = true) : Writes start q follow' ps where
  printable := h.printable
  written last := by
    obtain ⟨b, tail, hwritten, hb, hspells⟩ := h.written last
    exact ⟨b, tail, hwritten, hb, hspells.mono hp hfollow⟩

/-- Pieces whose start may follow others are written behind them. -/
theorem Writes.append (h : Writes start p follow ps) (h' : Writes start' q follow' qs)
    (hjoin : ∀ b, start' b = true → follow b = true) :
    Writes start (Both p q) follow' (ps ++ qs) where
  printable hmem := (mem_append.mp hmem).elim h.printable h'.printable
  written last := by
    obtain ⟨b, tail, hwritten, hb, hspells⟩ := h.written last
    obtain ⟨c, tail', hwritten', hc, hspells'⟩ := h'.written (lastByte last (b :: tail))
    refine ⟨b, tail ++ c :: tail', ?_, hb, hspells.append hspells' fun rest d hd => ?_⟩
    · rw [writeAfter_append, hwritten, hwritten']
      rfl
    · exact Option.some.inj hd ▸ hjoin c hc

theorem writes_text {tail : Bytes} (h : Spells p follow (b :: tail))
    (hps : ∀ last, writeAfter .pretty last ps = b :: tail ∨
      writeAfter .pretty last ps = 32 :: b :: tail) (hprintable : Piece.unprintable ∉ ps)
    (hb : start b = true) (hblank : start 32 = true) :
    Writes start p follow ps where
  printable := hprintable
  written last := by
    rcases hps last with hwritten | hwritten
    · exact ⟨b, tail, hwritten, hb, h⟩
    · exact ⟨32, b :: tail, hwritten, hblank, h.blank⟩

end

theorem writes_sign {start : UInt8 → Bool} (x : Sign)
    (hx : (utf8 x.text).head?.any start = true) (hblank : start 32 = true) :
    Writes start (IsSign x) (mayFollowSign x) [str x.text] := by
  have hspells := sign_spells x
  cases htext : utf8 x.text with
  | nil =>
    rw [htext] at hx
    cases hx
  | cons b tail =>
    rw [htext] at hx hspells
    refine writes_text hspells (fun last => .inl ?_) (by simp [str]) hx hblank
    rw [writeAfter, writeAfter, append_nil]
    exact htext

theorem writes_operator (x : Sign) :
    Writes isBreak (IsSign x) (fun _ => true) [space, str x.text, space] := by
  have hblank : mayFollowSign x 32 = true := by cases x <;> rfl
  refine writes_text (((sign_spells x).blank_behind hblank _).blank) (fun last => .inl ?_)
    (by simp [str]) rfl rfl
  rfl

theorem Writes.paren {start : UInt8 → Bool} {p : Bytes → List Token → Prop} {follow : UInt8 → Bool}
    {ps : List Piece} (h : Writes start p follow ps)
    (hclose : ∀ b, isBreak b = true → follow b = true) :
    Writes isOpening (Both (IsSign .leftParen) (Both p (IsSign .rightParen))) (fun _ => true)
      (wrap true ps) :=
  ((writes_sign .leftParen rfl rfl).append
    (h.append (writes_sign .rightParen rfl rfl) hclose) fun _ _ => rfl).mono
      (fun _ _ => id) fun _ _ => rfl

/-! ## Expressions -/

/-- Whether a node is included and stands for itself: a name is written as in the source, and an
access is neither bound to a variable nor missing. Receivers, object literals, functions and classes
do not count. -/
def isPlain (g : Graph) : Node → Bool
  | .expr (.ident n) => g.isIncluded n.info.id && identName g n == n.name
  | .expr (.member i ..) | .expr (.index i ..) => g.isIncluded i.id && isAccess g i
  | .expr (.literal i ..) | .expr (.call i ..) | .expr (.unary i ..) | .expr (.binary i ..)
  | .expr (.logical i ..) | .expr (.conditional i ..) | .expr (.assign i ..) => g.isIncluded i.id
  | _ => false

/-- Every node of an expression is included and stands for itself. -/
def Whole (g : Graph) (e : Expr) : Prop := ∀ n ∈ (ofExpr e).preorder, isPlain g n = true

instance (g : Graph) (e : Expr) : Decidable (Whole g e) := List.decidableBAll _ _

theorem forall_preorder_mk {p : Node → Prop} {n : Node} {os : List Outline} :
    (∀ m ∈ (mk n os).preorder, p m) ↔ p n ∧ ∀ c ∈ os, ∀ m ∈ c.preorder, p m := by
  rw [preorder, forall_mem_cons, preorders_eq, forall_mem_flatMap]

theorem mem_preorder_ofExpr (e : Expr) : Node.expr e ∈ (ofExpr e).preorder := by
  have hnode := node_ofExpr e
  generalize ofExpr e = out at hnode
  cases out
  rw [← hnode]
  exact mem_cons_self

theorem Whole.top (h : Whole g e) : isPlain g (.expr e) = true :=
  h _ (mem_preorder_ofExpr e)

theorem Whole.keeps (h : Whole g e) : keepsExpr g e = true := by
  have htop := h.top
  cases e <;> simp_all [isPlain, keepsExpr, Expr.info]

theorem Whole.detachesReceiver (h : Whole g e) : detachesReceiver g e = false := by
  have hbranch : keptBranch g e = none := by
    cases e with
    | conditional i t c a =>
      have ht : Whole g t := (forall_preorder_mk.mp h).2 _ mem_cons_self
      rw [keptBranch, ht.keeps, if_pos rfl]
    | logical i op l r =>
      have hl : Whole g l := (forall_preorder_mk.mp h).2 _ mem_cons_self
      have hr : Whole g r :=
        (forall_preorder_mk.mp h).2 _ (mem_cons_of_mem _ mem_cons_self)
      rw [keptBranch, hl.keeps, hr.keeps]
    | _ => rfl
  rw [Layout.detachesReceiver, hbranch]

/-- What is laid out at a level is read as a phrase of the level, and as an access if it holds no
call. -/
def Laid (g : Graph) (level : Nat) (e : Expr) (source : Bytes) (ts : List Token) : Prop :=
  Phrase source level e ts ∧ (level = 11 → containsCall g e = false → Phrase source 12 e ts)

/-- What may stand behind an expression at a level. Only at the level of accesses there may be a
point, but not behind a number. -/
def follows (level : Nat) (e : Expr) (b : UInt8) : Bool :=
  isBreak b || (b == 46 && level == 11 && !isNumber e)

/-- The layouts of an expression at all levels. -/
def Reads (g : Graph) (e : Expr) : Prop := ∀ depth level settled, level ≤ 11 →
  Writes isOpening (Laid g level e) (follows level e) (expr g depth level settled e)

theorem loosen {level level' : Nat} (h : Phrase source level e ts) (hlevel : level' ≤ level) :
    Phrase source level' e ts := by
  obtain ⟨n, rfl⟩ := Nat.exists_eq_add_of_le hlevel
  induction n with
  | zero => exact h
  | succ n ih => exact ih h.loosen (Nat.le_add_right _ _)

section

variable {g : Graph} {e : Expr} {level : Nat} {ps : List Piece}

theorem Writes.tight (follow : UInt8 → Bool) (hlevel : level ≤ 11)
    (h : Writes isOpening (Laid g 11 e) follow ps)
    (hfollow : ∀ b, follows level e b = true → follow b = true) :
    Writes isOpening (Laid g level e) (follows level e) ps :=
  h.mono (fun _ _ hlaid => ⟨loosen hlaid.1 hlevel, fun _ => hlaid.2 rfl⟩) hfollow

theorem laid_paren {p : Bytes → List Token → Prop} (hlevel : level ≤ 11)
    (hp : ∀ us, p source us → Phrase source 0 e us)
    (h : Both (IsSign .leftParen) (Both p (IsSign .rightParen)) source ts) :
    Laid g level e source ts ∧ Phrase source 12 e ts := by
  obtain ⟨_, _, rfl, ⟨a, rfl, ha⟩, us, _, rfl, hus, b, rfl, hb⟩ := h
  have hphrase := Phrase.paren ha hb (hp us hus)
  exact ⟨⟨loosen hphrase (by omega), fun _ _ => hphrase⟩, hphrase⟩

/-- What binds more loosely is laid out in parentheses where its place demands it. -/
theorem Writes.wrapped {own : Nat} (hown : own ≤ 10) (hlevel : level ≤ 11)
    (h : Writes isOpening (fun source ts => Phrase source own e ts) isBreak ps) :
    Writes isOpening (Laid g level e) (follows level e) (wrap (own < level) ps) := by
  by_cases hlt : own < level
  · rw [decide_eq_true hlt]
    refine (h.paren fun _ => id).mono (fun source ts hts => ?_) fun _ _ => rfl
    exact (laid_paren hlevel (fun us hus => loosen hus (Nat.zero_le _)) hts).1
  · rw [decide_eq_false hlt]
    refine h.mono (fun source ts hts => ⟨loosen hts (by omega), fun heq => by omega⟩) fun b hb => ?_
    have hlevel : (level == 11) = false := beq_eq_false_iff_ne.mpr (by omega)
    rwa [follows, hlevel, Bool.and_false, Bool.false_and, Bool.or_false] at hb

theorem Reads.at {own : Nat} (h : Reads g e) (depth : Nat) (hown : own ≤ level)
    (hlevel : level ≤ 11) :
    Writes isOpening (fun source ts => Phrase source own e ts) isBreak
      (expr g depth level false e) :=
  (h depth level false hlevel).mono (fun _ _ hlaid => loosen hlaid.1 hown)
    fun b hb => by rw [follows, hb]; rfl

end

/-! ## Operators -/

section

def infixText : Infix → String
  | .logical op => op.text
  | .plain op => op.text

/-- The level at which an operator with two operands is laid out. -/
def infixLevel : Infix → Nat
  | .logical op => Level.ofLogical op
  | .plain op => Level.ofBinary op

deriving instance DecidableEq for Infix

theorem infix_place (op : Infix) : ∃ place ops x, precedence[place]? = some ops ∧
    infixAt? ops (.sign x) = some op ∧ infixLevel op = place + 3 ∧ x.text = infixText op := by
  have hplace : ∃ place ∈ range 7, ∃ p ∈ (precedence[place]?).getD [],
      (precedence[place]?).isSome ∧ infixAt? ((precedence[place]?).getD []) (.sign p.1) = some op ∧
        infixLevel op = place + 3 ∧ p.1.text = infixText op := by
    rcases op with op | op <;> cases op <;> decide
  obtain ⟨place, -, p, -, hops, hop, hlevel, htext⟩ := hplace
  obtain ⟨ops, hops⟩ := Option.isSome_iff_exists.mp hops
  rw [hops] at hop
  exact ⟨place, ops, p.1, hops, hop, hlevel, htext⟩

variable {g : Graph} {i : Info} {l r : Expr} {pl pr : List Piece}

theorem writes_infixed (op : Infix)
    (hl : Writes isOpening (fun source ts => Phrase source (infixLevel op) l ts) isBreak pl)
    (hr : Writes isOpening (fun source ts => Phrase source (infixLevel op + 1) r ts) isBreak pr) :
    Writes isOpening (fun source ts => Phrase source (infixLevel op) (op.make i l r) ts) isBreak
      (infixed (infixText op) pl pr) := by
  obtain ⟨place, ops, x, hops, hop, hlevel, htext⟩ := infix_place op
  rw [hlevel] at hl hr ⊢
  rw [infixed, ← htext, append_assoc]
  refine (hl.append ((writes_operator x).append hr fun _ _ => rfl) fun _ => id).mono ?_ fun _ => id
  rintro source _ ⟨ts, _, rfl, hts, _, us, rfl, ⟨t, rfl, ht⟩, hus⟩
  exact .infixed hops (by rw [ht, hop]) hts hus

theorem writes_keyword (k : Keyword) {p : Bytes → Token → Prop} (follow : UInt8 → Bool)
    (hp : ∀ source t, t.kind = .keyword k → p source t) :
    Writes isOpening (Sole p) follow [key k.text, str " "] := by
  have hlexed := keyword_lexed k
  have hspells := (hlexed.spells rfl fun source t hkind _ _ => hp source t hkind).blank_behind
    (by rfl) follow
  obtain ⟨b, tail, htext, hb, -⟩ := hlexed.start rfl
  rw [htext] at hspells
  refine writes_text hspells (fun last => ?_) (by simp [str, key]) hb rfl
  rw [writeAfter, writeAfter, key, str, bytes, bytes, apart, htext]
  split
  · exact .inr rfl
  · exact .inl rfl

theorem writes_mark {op : UnaryOp} (hx : utf8 x.text = [b]) (hfollow : mayFollowSign x = isOpening)
    (hb : isOpening b = true) (hop : unaryOp? (.sign x) = some op) (again : Bool) :
    Writes isOpening (Sole fun _ t => unaryOp? t.kind = some op) isOpening
      (.sign b :: if again then [str " "] else []) := by
  have hspells : Spells (Sole fun _ t => unaryOp? t.kind = some op) isOpening [b] := by
    have h := sign_spells x
    rw [hx, hfollow] at h
    exact h.mono (fun _ _ hts => hts.sole fun t ht => ht ▸ hop) fun _ => id
  cases again with
  | false =>
    refine writes_text hspells (fun last => ?_) (by simp) hb rfl
    rw [writeAfter, bytes]
    split
    · exact .inr rfl
    · exact .inl rfl
  | true =>
    refine writes_text (hspells.blank_behind rfl isOpening) (fun last => ?_) (by simp [str]) hb rfl
    rw [writeAfter, bytes]
    split
    · exact .inr rfl
    · exact .inl rfl

theorem writes_unaryOperator (op : UnaryOp) (a : Expr) :
    Writes isOpening (Sole fun _ t => unaryOp? t.kind = some op) isOpening (unaryOperator op a) := by
  cases op with
  | typeof => exact writes_keyword .typeofKw _ fun _ t ht => by rw [ht]; rfl
  | void => exact writes_keyword .voidKw _ fun _ t ht => by rw [ht]; rfl
  | not =>
    exact (writes_sign .bang rfl rfl).mono (fun _ _ hts => hts.sole fun t ht => by rw [ht]; rfl)
      fun _ => id
  | plus => exact writes_mark (x := .plus) rfl rfl rfl rfl _
  | minus => exact writes_mark (x := .minus) rfl rfl rfl rfl _

end

/-! ## Calls -/

section

variable {g : Graph} {depth : Nat}

/-- The tokens of the arguments of a call with the parenthesis that closes them. -/
def Closed (as : List Expr) (source : Bytes) (ts : List Token) : Prop :=
  ∃ (items : List (Expr × List Token)) (us : List Token) (b : Token), ts = us ++ [b] ∧
    b.kind = .sign .rightParen ∧ as = items.map Prod.fst ∧
    (∀ p ∈ items, Phrase source 1 p.1 p.2) ∧ Divided (items.map Prod.snd) us

theorem writes_arguments (depth : Nat) {as : List Expr} (h : ∀ a ∈ as, Reads g a) :
    Writes isOpening (Closed as) (fun _ => true) (commas (arguments g depth as) ++ [str ")"]) := by
  induction as with
  | nil =>
    refine (writes_sign .rightParen rfl rfl).mono ?_ fun _ _ => rfl
    rintro source _ ⟨b, rfl, hb⟩
    exact ⟨[], [], b, rfl, hb, rfl, forall_mem_nil _, .nil⟩
  | cons a as ih =>
    obtain ⟨ha, has⟩ := forall_mem_cons.mp h
    have hfirst := ha.at depth (Nat.le_refl 1) (by decide)
    cases as with
    | nil =>
      refine (hfirst.append (writes_sign .rightParen rfl rfl) fun _ => id).mono ?_ fun _ _ => rfl
      rintro source _ ⟨ts, _, rfl, hts, b, rfl, hb⟩
      exact ⟨[(a, ts)], ts, b, rfl, hb, rfl, forall_mem_singleton.mpr hts, .one⟩
    | cons a' as =>
      have hcomma : Writes isBreak (IsSign .comma) (fun _ => true) [str ",", space] :=
        writes_text ((sign_spells .comma).blank_behind rfl _) (fun last => .inl rfl) (by simp [str])
          rfl rfl
      show Writes _ _ _ (expr g depth 1 false a ++ [str ",", space] ++
        commas (arguments g depth (a' :: as)) ++ [str ")"])
      rw [append_assoc, append_assoc]
      refine (hfirst.append (hcomma.append (ih has) fun _ _ => rfl) fun _ => id).mono ?_ fun _ => id
      rintro source _ ⟨ts, _, rfl, hts, _, _, rfl, ⟨c, rfl, hc⟩, items, us, b, rfl, hb, hitems,
        hphrases, hdivided⟩
      refine ⟨(a, ts) :: items, ts ++ c :: us, b, by simp, hb, by rw [hitems]; rfl,
        forall_mem_cons.mpr ⟨hts, hphrases⟩, .cons hc hdivided⟩

theorem writes_receiver (depth : Nat) {o : Expr} (h : Reads g o) :
    Writes isOpening (Laid g 11 o) (mayFollow .identifier)
      (wrap (isNumber o) (expr g depth Level.call false o)) := by
  have ho := h depth 11 false (Nat.le_refl _)
  -- A point behind a number would belong to it.
  cases hnumber : isNumber o with
  | true =>
    refine (ho.paren fun b hb => by rw [follows, hb]; rfl).mono (fun source ts hts => ?_)
      fun _ _ => rfl
    exact (laid_paren (Nat.le_refl _) (fun us hus => loosen hus.1 (Nat.zero_le _)) hts).1
  | false =>
    refine ho.mono (fun _ _ => id) fun b hb => ?_
    rw [follows, hnumber]
    simpa [mayFollow] using hb

theorem writes_constructor (depth : Nat) (h : Reads g c) :
    Writes isOpening (fun source ts => Phrase source 12 c ts) isBreak
      (wrap (containsCall g c) (expr g depth Level.call false c)) := by
  have hc := h depth 11 false (Nat.le_refl _)
  have hbreak : ∀ b, isBreak b = true → follows 11 c b = true :=
    fun b hb => by rw [follows, hb]; rfl
  -- The parentheses of a call inside would be taken for those of `new`.
  cases hcall : containsCall g c with
  | true =>
    refine (hc.paren hbreak).mono (fun source ts hts => ?_) fun _ _ => rfl
    exact (laid_paren (g := g) (Nat.le_refl 11) (fun us hus => loosen hus.1 (Nat.zero_le _)) hts).2
  | false => exact hc.mono (fun _ _ hlaid => hlaid.2 rfl hcall) hbreak

theorem reads_call {isNew : Bool} {as : List Expr} (hc : Reads g c)
    (hdetach : detachesReceiver g c = false) (has : ∀ a ∈ as, Reads g a) :
    Reads g (.call i isNew c as) := by
  intro depth level settled hlevel
  have hopen : Writes isBreak (IsSign .leftParen) _ [str "("] := writes_sign .leftParen rfl rfl
  have hargs := hopen.append (writes_arguments depth has) fun _ _ => rfl
  refine Writes.tight (fun _ => true) hlevel ?_ fun _ _ => rfl
  rw [expr, append_assoc, append_assoc]
  cases isNew with
  | true =>
    refine ((writes_keyword .newKw isOpening fun _ _ => id).append
      ((writes_constructor depth hc).append hargs fun _ => id) fun _ => id).mono ?_ fun _ => id
    rintro source _ ⟨_, _, rfl, ⟨new, rfl, hnew⟩, ts, _, rfl, hts, _, _, rfl, ⟨a, rfl, ha⟩, items, us,
      b, rfl, hb, rfl, hitems, hdivided⟩
    exact ⟨.construction hnew ha hb hts hitems hdivided, nofun⟩
  | false =>
    rw [hdetach]
    refine ((hc.at depth (Nat.le_refl 11) (Nat.le_refl _)).append hargs fun _ => id).mono ?_
      fun _ => id
    rintro source _ ⟨ts, _, rfl, hts, _, _, rfl, ⟨a, rfl, ha⟩, items, us, b, rfl, hb, rfl, hitems,
      hdivided⟩
    exact ⟨.call ha hb hts hitems hdivided, nofun⟩

end

/-! ## Whole expressions -/

theorem apart_cases (last : Option UInt8) (content : Bytes) :
    apart last content = content ∨ apart last content = 32 :: content := by
  unfold apart
  split
  · exact .inr rfl
  · exact .inl rfl

section

variable {g : Graph} {o : ModuleText}

theorem reads_word {text : Bytes} (hlexed : Lexed kind value text) (hkind : kind.isWord = true)
    (hphrase : ∀ source t, t.kind = kind → t.value = value → t.text source = text →
      Phrase source 12 e [t])
    (hfollow : ∀ level b, follows level e b = true → mayFollow kind b = true)
    (hpieces : ∀ depth level settled, ∃ piece, expr g depth level settled e = [piece] ∧
      piece ≠ .unprintable ∧ ∀ last, piece.bytes .pretty last = apart last text) : Reads g e := by
  intro depth level settled hlevel
  obtain ⟨piece, hpiece, hprintable, hbytes⟩ := hpieces depth level settled
  obtain ⟨b, tail, rfl, hb, -⟩ := hlexed.start hkind
  refine Writes.tight (mayFollow kind) hlevel ?_ (hfollow level)
  refine (writes_text (hlexed.spells hkind hphrase) (fun last => ?_) ?_ hb rfl).mono ?_ fun _ => id
  · rw [hpiece, writeAfter, writeAfter, append_nil, hbytes]
    exact apart_cases last _
  · rw [hpiece]
    exact fun hmem => hprintable (mem_singleton.mp hmem).symm
  · rintro source _ ⟨t, rfl, ht⟩
    exact ⟨ht.loosen, fun _ _ => ht⟩

theorem reads_ident {n : Ident} (ht : o.Has t) (hkind : t.kind = .identifier)
    (hname : n.name = t.value) (hwritten : identName g n = n.name) : Reads g (.ident n) := by
  have hstands := ht.stands (by rw [hkind]; nofun)
  have hlexed := hstands.lexed
  rw [← hstands.verbatim (by rw [hkind]; rfl), hkind, ← hname] at hlexed
  refine reads_word hlexed rfl (fun _ _ hkind hvalue _ => .ident hkind hvalue) ?_ ?_
  · intro level b
    simp only [follows, mayFollow, Bool.or_eq_true, Bool.and_eq_true]
    exact Or.imp_right fun h => h.1.1
  · intro depth level settled
    refine ⟨identWord g n, expr_ident g depth level settled n, ?_, fun last => ?_⟩
    · unfold identWord
      split <;> nofun
    · rw [← hwritten, identWord, identName]
      split <;> rfl

theorem reads_literal {v : Value} (ht : o.Has t) (hvalue : t.literal? = some v) :
    Reads g (.literal i v (t.text o.source)) := by
  have hkind : t.kind.isWord = true ∧
      (t.kind = .number → isNumber (.literal i v (t.text o.source)) = true) := by
    unfold Token.literal? at hvalue
    split at hvalue <;> cases hvalue <;> simp_all [TokenKind.isWord, isNumber]
  have hstands := ht.stands (by intro hend; rw [hend] at hkind; cases hkind.1)
  refine reads_word hstands.lexed hkind.1 (fun source u hkind hval htext => ?_) ?_ ?_
  · rw [← htext]
    refine .literal ?_
    rw [← hvalue, Token.literal?, Token.literal?, hkind, hval]
  · intro level b hb
    by_cases hnumber : t.kind = .number
    · rw [follows, hkind.2 hnumber, Bool.not_true, Bool.and_false, Bool.or_false] at hb
      rw [hnumber]
      exact hb
    · simp only [follows, Bool.or_eq_true, Bool.and_eq_true] at hb
      unfold mayFollow
      split
      · rfl
      · next h => exact absurd h hnumber
      · exact Bool.or_eq_true_iff.mpr (hb.imp_right fun h => h.1.1)
  · intro depth level settled
    refine ⟨.word (t.text o.source), ?_, (by rintro ⟨⟩), fun last => rfl⟩
    simp [expr, literal, hstands.nonempty]

theorem reads_member (ht : o.Has t) (hname : t.isName = true)
    (haccess : g.resolution i.id = .nothing) (h : Reads g e) : Reads g (.member i e t.value) := by
  intro depth level settled hlevel
  obtain ⟨hspells, b, tail, htext, hdigit⟩ := ht.name hname
  have hdot : Writes (mayFollow .identifier) (IsSign .dot) _ [str "."] := writes_sign .dot rfl rfl
  have hkey : Writes (fun b => !Bytes.isDigit b) _ _ [.text t.value] :=
    writes_text (htext ▸ hspells) (fun last => .inl (by rw [← htext]; exact append_nil _))
      (by simp) (by rw [hdigit]; rfl) rfl
  refine Writes.tight (mayFollow .identifier) hlevel ?_ fun b => ?_
  · simp only [expr, haccess]
    refine ((writes_receiver depth h).append (hdot.append hkey fun _ => id) fun _ => id).mono ?_
      fun _ => id
    rintro source _ ⟨ts, _, rfl, hts, _, _, rfl, ⟨dot, rfl, hdot⟩, u, rfl, hu, hvalue, harrow⟩
    rw [htext, ← hvalue]
    refine ⟨.member (.inl rfl) hdot hu harrow hts.1, fun _ hcall => ?_⟩
    refine .member (.inr rfl) hdot hu harrow (hts.2 rfl ?_)
    simpa [containsCall, isAccess, haccess] using hcall
  · simp only [follows, mayFollow, Bool.or_eq_true, Bool.and_eq_true]
    exact Or.imp_right fun h => h.1.1

theorem reads_index {k : Expr} (haccess : g.resolution i.id = .nothing) (h : Reads g e)
    (hk : Reads g k) : Reads g (.index i e k) := by
  intro depth level settled hlevel
  have hopen : Writes isBreak (IsSign .leftBracket) _ [str "["] := writes_sign .leftBracket rfl rfl
  have hclose : Writes isBreak (IsSign .rightBracket) _ [str "]"] :=
    writes_sign .rightBracket rfl rfl
  refine Writes.tight (fun _ => true) hlevel ?_ fun _ _ => rfl
  simp only [expr, haccess, append_assoc]
  refine ((writes_receiver depth h).append (hopen.append
    ((hk.at depth (Nat.zero_le 0) (Nat.zero_le _)).append hclose fun _ => id) fun _ _ => rfl)
    fun b hb => Bool.or_eq_true_iff.mpr (.inl hb)).mono ?_ fun _ _ => rfl
  rintro source _ ⟨ts, _, rfl, hts, _, _, rfl, ⟨a, rfl, ha⟩, us, _, rfl, hus, b, rfl, hb⟩
  refine ⟨.index (.inl rfl) ha hb hts.1 hus, fun _ hcall => ?_⟩
  refine .index (.inr rfl) ha hb (hts.2 rfl ?_) hus
  simpa [containsCall, isAccess, haccess] using hcall

theorem reads_unary {op : UnaryOp} {a : Expr} (h : Reads g a) : Reads g (.unary i op a) := by
  intro depth level settled hlevel
  refine Writes.wrapped (Nat.le_refl 10) hlevel ?_
  refine ((writes_unaryOperator op a).append (h.at depth (Nat.le_refl 10) (by decide))
    fun _ => id).mono ?_ fun _ => id
  rintro source _ ⟨_, us, rfl, ⟨t, rfl, ht⟩, hus⟩
  exact .unary ht hus

theorem reads_binary {op : BinaryOp} (hl : Reads g l) (hr : Reads g r) :
    Reads g (.binary i op l r) := by
  intro depth level settled hlevel
  have hown : Level.ofBinary op ≤ 9 := by cases op <;> decide
  exact Writes.wrapped (by omega) hlevel
    (writes_infixed (.plain op) (hl.at depth (Nat.le_refl _) (by omega))
      (hr.at depth (Nat.le_refl _) (by omega)))

theorem operandLevel_le (op : LogicalOp) (level : Nat) (hlevel : level ≤ 10) (e : Expr) :
    level ≤ operandLevel g op level e ∧ operandLevel g op level e ≤ 10 := by
  unfold operandLevel
  split
  · split
    · exact ⟨hlevel, Nat.le_refl _⟩
    · exact ⟨Nat.le_refl _, hlevel⟩
  · exact ⟨Nat.le_refl _, hlevel⟩

theorem reads_logical {op : LogicalOp} (hkeeps : keepsExpr g l = true)
    (hkeeps' : keepsExpr g r = true) (hl : Reads g l) (hr : Reads g r) :
    Reads g (.logical i op l r) := by
  intro depth level settled hlevel
  have hown : Level.ofLogical op ≤ 5 := by cases op <;> decide
  obtain ⟨hle, hle'⟩ := operandLevel_le op (Level.ofLogical op) (by omega) l
  obtain ⟨hre, hre'⟩ := operandLevel_le op (Level.ofLogical op + 1) (by omega) r
  rw [expr, hkeeps, hkeeps']
  exact Writes.wrapped (by omega) hlevel
    (writes_infixed (.logical op) (hl.at depth hle (by omega)) (hr.at depth hre (by omega)))

theorem reads_conditional {t a : Expr} (hkeeps : keepsExpr g t = true) (ht : Reads g t)
    (hc : Reads g c) (ha : Reads g a) : Reads g (.conditional i t c a) := by
  intro depth level settled hlevel
  rw [expr, if_pos hkeeps]
  refine Writes.wrapped (by decide) hlevel ?_
  simp only [append_assoc]
  refine ((ht.at depth (Nat.le_refl 3) (by decide)).append ((writes_operator .question).append
    ((hc.at depth (Nat.le_refl 1) (by decide)).append ((writes_operator .colon).append
      (ha.at depth (Nat.le_refl 1) (by decide)) fun _ _ => rfl) fun _ => id) fun _ _ => rfl)
    fun _ => id).mono ?_ fun _ => id
  rintro source _ ⟨ts, _, rfl, hts, _, _, rfl, ⟨q, rfl, hq⟩, us, _, rfl, hus, _, vs, rfl,
    ⟨colon, rfl, hcolon⟩, hvs⟩
  exact .conditional hq hcolon hts hus hvs

theorem reads_assign {op : AssignOp} (hkeeps : keepsExpr g l = true) (htarget : isTarget l = true)
    (hl : Reads g l) (hr : Reads g r) : Reads g (.assign i op l r) := by
  intro depth level settled hlevel
  obtain ⟨x, hx, hop⟩ : ∃ x : Sign, x.text = op.text ∧ assignOp? (.sign x) = some op := by
    cases op
    · exact ⟨.equal, rfl, rfl⟩
    · exact ⟨.plusEq, rfl, rfl⟩
    · exact ⟨.minusEq, rfl, rfl⟩
  rw [expr, if_pos hkeeps]
  refine Writes.wrapped (by decide) hlevel ?_
  rw [infixed, ← hx, append_assoc]
  refine ((hl.at depth (by decide : 3 ≤ 11) (Nat.le_refl _)).append ((writes_operator x).append
    (hr.at depth (Nat.le_refl 1) (by decide)) fun _ _ => rfl) fun _ => id).mono ?_ fun _ => id
  rintro source _ ⟨ts, _, rfl, hts, _, us, rfl, ⟨t, rfl, ht⟩, hus⟩
  exact .assign (by rw [ht, hop]) htarget hts hus

/-- **Whole expressions are laid out by the grammar.** -/
theorem Whole.reads (h : Whole g e) (hread : ∀ n ∈ (ofExpr e).preorder, n.Read o) : Reads g e := by
  -- The induction is on the outline, of which the operands of an expression are the children.
  induction hout : ofExpr e using below_induction generalizing e with
  | h n os ih =>
    have htop := h.top
    obtain rfl : .expr e = n := by rw [← node_ofExpr e, hout]; rfl
    rw [Whole, hout, forall_preorder_mk] at h
    rw [hout, forall_preorder_mk] at hread
    have hbelow : ∀ a, ofExpr a ∈ os → Whole g a ∧ Reads g a := fun a ha =>
      ⟨h.2 _ ha, ih _ ha (h.2 _ ha) (hread.2 _ ha) rfl⟩
    cases e with
    | ident n =>
      obtain ⟨t, ht, hkind, hvalue⟩ := hread.1
      exact reads_ident ht hkind hvalue (by simpa [isPlain] using (Bool.and_eq_true_iff.mp htop).2)
    | literal =>
      obtain ⟨t, ht, hvalue, rfl⟩ := hread.1
      exact reads_literal ht hvalue
    | member i a k =>
      cases hout
      obtain ⟨t, ht, hname, rfl⟩ := hread.1
      have haccess := of_decide_eq_true (Bool.and_eq_true_iff.mp htop).2
      exact reads_member ht hname haccess (hbelow a (by simp)).2
    | index i a k =>
      cases hout
      have haccess := of_decide_eq_true (Bool.and_eq_true_iff.mp htop).2
      exact reads_index haccess (hbelow a (by simp)).2 (hbelow k (by simp)).2
    | call i isNew c as =>
      cases hout
      rw [ofExprs_eq] at hbelow
      exact reads_call (hbelow c (by simp)).2 (hbelow c (by simp)).1.detachesReceiver
        fun a ha => (hbelow a (mem_cons_of_mem _ (mem_map_of_mem ha))).2
    | unary i op a =>
      cases hout
      exact reads_unary (hbelow a (by simp)).2
    | binary i op l r =>
      cases hout
      exact reads_binary (hbelow l (by simp)).2 (hbelow r (by simp)).2
    | logical i op l r =>
      cases hout
      obtain ⟨hl, hl'⟩ := hbelow l (by simp)
      obtain ⟨hr, hr'⟩ := hbelow r (by simp)
      exact reads_logical hl.keeps hr.keeps hl' hr'
    | conditional i t c a =>
      cases hout
      obtain ⟨ht, ht'⟩ := hbelow t (by simp)
      exact reads_conditional ht.keeps ht' (hbelow c (by simp)).2 (hbelow a (by simp)).2
    | assign i op l r =>
      cases hout
      obtain ⟨hl, hl'⟩ := hbelow l (by simp)
      exact reads_assign hl.keeps hread.1 hl' (hbelow r (by simp)).2
    | _ => cases htop

theorem writes_statement (h : Reads g e) (depth : Nat) :
    Writes isOpening (Both (fun source ts => Phrase source 0 e ts) (IsSign .semicolon))
      (fun _ => true) (expressionStatement (expr g depth Level.lowest false e)) := by
  have hexpr := h.at depth (Nat.zero_le 0) (Nat.zero_le _)
  have hmark : Writes isBreak (IsSign .semicolon) _ [str ";"] := writes_sign .semicolon rfl rfl
  unfold expressionStatement
  cases startsAmbiguously (write .compact (expr g depth Level.lowest false e)) with
  | false => exact (hexpr.append hmark fun _ => id).mono (fun _ _ => id) fun _ _ => rfl
  | true =>
    have hparen := (hexpr.paren fun _ => id).mono
      (fun source ts hts => (laid_paren (g := g) (Nat.zero_le _) (fun _ => id) hts).1.1) fun _ => id
    exact (hparen.append hmark fun _ _ => rfl).mono (fun _ _ => id) fun _ _ => rfl

end

end Layout

open Layout Piece Lexer

/-- **Expressions survive printing.** An expression of a module, every node of which is included and
stands for itself, is printed as a statement, and the text is parsed again, as a program of one
statement with the same expression up to the numbers, places and scopes of its nodes. -/
theorem expression_survives_printing {source defaultName : Bytes} {module : Option ModuleId}
    {t : Symbols} {next : NodeId} {parsed : Parsed}
    (hparse : Program.parse source module defaultName t next = .ok parsed) {e : Expr}
    (he : Node.expr e ∈ (ofProgram parsed.program).preorder) {g : Graph} (hwhole : Whole g e)
    {i : Info} (hi : g.isIncluded i.id = true) :
    ∃ text, Program.print g .pretty { parsed.program with body := [.expression i e] } = .ok text ∧
      ∀ module' defaultName' t' next', ∃ p i' e',
        Program.parse text module' defaultName' t' next' = .ok p ∧
          p.program.body = [.expression i' e'] ∧ e'.bare = e.bare := by
  -- The statement is written with a line break behind it, which is filler for the lexer.
  have hstatement := writes_statement (hwhole.reads (Program.parse_read hparse he)) 0
  obtain ⟨b, tail, hwritten, -, hspells⟩ := hstatement.written none
  have hlayout : Layout.statements g 0 [.expression i e] =
      indent 0 :: (expressionStatement (expr g 0 Level.lowest false e) ++ [newline]) := by
    have hkeeps : keeps g (.expression i e) = true := hi
    rw [statements, statements, if_pos hkeeps, List.append_nil, stmt, line, if_neg]
    simp [expressionStatement]
  have htext : writeAfter .pretty none (Layout.statements g 0 [.expression i e]) =
      b :: tail ++ [10] := by
    rw [hlayout, writeAfter, writeAfter_append]
    show [] ++ (writeAfter .pretty none _ ++ _) = _
    rw [hwritten]
    rfl
  refine ⟨b :: tail ++ [10], ?_, fun module' defaultName' t' next' => ?_⟩
  · have hcheck : check (Layout.statements g 0 [.expression i e]) = .ok _ := if_neg (by
      simpa [hlayout] using hstatement.printable)
    show (write .pretty <$> check (Layout.statements g 0 [.expression i e])) = _
    rw [hcheck, ← htext]
    rfl
  · obtain ⟨_, htokens, ts, _, rfl, hts, mark, rfl, hmark⟩ := hspells [] [10] fun _ _ => rfl
    have hgap : ([10] : Bytes).drop (gap [10]).1 = [] := by
      rw [gap_some rfl, List.drop_nil, gap]
      rfl
    rw [tokensFrom_end (s := [10]) _ hgap, List.append_assoc] at htokens
    exact Program.parse_phrase htokens hts hmark rfl module' defaultName' t' next'

def Program.expression? (p : Program) : Option (Info × Expr) :=
  match p.body with
  | [.expression i e] => some (i, e)
  | _ => none

/-- A graph in which some nodes are included and nothing is bound. -/
def Graph.including (count : Nat) : Graph where
  nodes := Array.replicate count { node := .stmt (.empty default), facts := { included := true } }

def mixedSource : Bytes := utf8 "a.b ? new (c())(- -d, !e) : f['g'] = typeof null ?? (h && 'i')"

theorem expression_survives_printing_mixed :
    ∃ parsed i e, Program.parse mixedSource none [] Symbols.empty 0 = .ok parsed ∧
      parsed.program.expression? = some (i, e) ∧
      ∃ text, Program.print (.including 40) .pretty
          { parsed.program with body := [.expression i e] } = .ok text ∧
        ∀ module' defaultName' t' next', ∃ p i' e',
          Program.parse text module' defaultName' t' next' = .ok p ∧
            p.program.body = [.expression i' e'] ∧ e'.bare = e.bare := by
  have hcheck : ((Program.parse mixedSource none [] Symbols.empty 0).toOption.bind
      fun p => p.program.expression?).any (fun r => decide (Whole (.including 40) r.2) &&
        (Graph.including 40).isIncluded r.1.id) = true := by
    decide +kernel
  cases hparse : Program.parse mixedSource none [] Symbols.empty 0 with
  | error =>
    rw [hparse] at hcheck
    cases hcheck
  | ok parsed =>
    rw [hparse] at hcheck
    obtain ⟨⟨i, e⟩, he, hwhole⟩ := (Option.any_eq_true _ _).mp hcheck
    rw [Bool.and_eq_true, decide_eq_true_eq] at hwhole
    have hbody : parsed.program.body = [.expression i e] := by
      have he : parsed.program.expression? = some (i, e) := he
      unfold Program.expression? at he
      split at he
      · next hbody =>
        cases he
        exact hbody
      · cases he
    refine ⟨parsed, i, e, rfl, he, expression_survives_printing hparse ?_ hwhole.1 hwhole.2⟩
    rw [ofProgram, hbody]
    simp [ofStmts, ofStmt, preorder, preorders, mem_preorder_ofExpr]

end Winnow
