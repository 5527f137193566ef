import Winnow.Proofs.Parsing

/-!
# Reading expressions from their tokens

`Phrase` is the grammar of expressions without functions, classes and object literals, by level of
precedence and with left recursion for what associates to the left. The parser reads every phrase as
the expression it stands for (`Phrase.reads`), in front of any token that does not go on with it.

The parser has loops in place of left recursion. So a phrase is described by `Loops`: from what the
loop starts with it comes, after some rounds, to the expression of the phrase.
-/

namespace Winnow

open Winnow.Expr

variable {e r : Expr} {source : Bytes} {ops : List (Sign × Infix)} {ts : List Token} {level : Nat}
  {x : Sign} {k : TokenKind} {α : Type}

/-! ## Trees without places -/

mutual

/-- An expression without the numbers, places and scopes of its nodes. Functions, classes and object
literals are left as they are. -/
def Expr.bare : Expr → Expr
  | .ident n => .ident { n with info := default, scope := 0 }
  | .receiver _ _ => .receiver default 0
  | .literal _ v raw => .literal default v raw
  | .member _ o k => .member default o.bare k
  | .index _ o k => .index default o.bare k.bare
  | .call _ isNew c as => .call default isNew c.bare (Expr.bareAll as)
  | .unary _ op a => .unary default op a.bare
  | .binary _ op l r => .binary default op l.bare r.bare
  | .logical _ op l r => .logical default op l.bare r.bare
  | .conditional _ t c a => .conditional default t.bare c.bare a.bare
  | .assign _ op l r => .assign default op l.bare r.bare
  | e => e

def Expr.bareAll : List Expr → List Expr
  | [] => []
  | e :: es => e.bare :: Expr.bareAll es

end

namespace Parser

theorem isTarget_bare (e : Expr) : isTarget e.bare = isTarget e := by
  cases e <;> rfl

/-- The expression that an operator with two operands makes. -/
def Infix.make (i : Info) (l r : Expr) : Infix → Expr
  | .logical op => .logical i op l r
  | .plain op => .binary i op l r

theorem Infix.bare_make (op : Infix) (i : Info) (l r : Expr) :
    (op.make i l r).bare = op.make default l.bare r.bare := by
  cases op <;> rw [make, make, bare]

/-! ## The grammar -/

/-- Some lists of tokens divided by commas; a comma may follow the last one. -/
inductive Divided : List (List Token) → List Token → Prop where
  | nil : Divided [] []
  | one {ts : List Token} : Divided [ts] ts
  | cons {ts us : List Token} {tss : List (List Token)} {comma : Token} :
      comma.kind = .sign .comma → Divided tss us → Divided (ts :: tss) (ts ++ comma :: us)

/-- The tokens are a way to write an expression at a level, the tightest last: assignments and
conditional expressions come first, then the operators by their place in `precedence`, the
operators with one operand, calls, and accesses without calls. -/
inductive Phrase (source : Bytes) : (level : Nat) → Expr → List Token → Prop where
  | ident {n : Ident} {t : Token} : t.kind = .identifier → t.value = n.name →
      Phrase source 12 (.ident n) [t]
  | literal {i : Info} {v : Value} {t : Token} : t.literal? = some v →
      Phrase source 12 (.literal i v (t.text source)) [t]
  | paren {e : Expr} {ts : List Token} {a b : Token} : a.kind = .sign .leftParen →
      b.kind = .sign .rightParen → Phrase source 0 e ts → Phrase source 12 e (a :: (ts ++ [b]))
  | member {level : Nat} {i : Info} {o : Expr} {ts : List Token} {dot t : Token} :
      level = 11 ∨ level = 12 → dot.kind = .sign .dot → t.isName = true →
      t.kind ≠ .sign .arrow → Phrase source level o ts →
      Phrase source level (.member i o t.value) (ts ++ [dot, t])
  | index {level : Nat} {i : Info} {o k : Expr} {ts us : List Token} {a b : Token} :
      level = 11 ∨ level = 12 → a.kind = .sign .leftBracket → b.kind = .sign .rightBracket →
      Phrase source level o ts → Phrase source 0 k us →
      Phrase source level (.index i o k) (ts ++ a :: (us ++ [b]))
  | call {i : Info} {c : Expr} {ts us : List Token} {items : List (Expr × List Token)}
      {a b : Token} : a.kind = .sign .leftParen → b.kind = .sign .rightParen →
      Phrase source 11 c ts →
      (∀ p ∈ items, Phrase source 1 p.1 p.2) → Divided (items.map Prod.snd) us →
      Phrase source 11 (.call i false c (items.map Prod.fst)) (ts ++ a :: (us ++ [b]))
  | construction {i : Info} {c : Expr} {ts us : List Token} {items : List (Expr × List Token)}
      {new a b : Token} : new.kind = .keyword .newKw → a.kind = .sign .leftParen →
      b.kind = .sign .rightParen → Phrase source 12 c ts →
      (∀ p ∈ items, Phrase source 1 p.1 p.2) → Divided (items.map Prod.snd) us →
      Phrase source 11 (.call i true c (items.map Prod.fst)) (new :: (ts ++ a :: (us ++ [b])))
  | unary {i : Info} {op : UnaryOp} {e : Expr} {ts : List Token} {t : Token} :
      unaryOp? t.kind = some op → Phrase source 10 e ts → Phrase source 10 (.unary i op e) (t :: ts)
  | infixed {i : Info} {place : Nat} {ops : List (Sign × Infix)} {op : Infix} {l r : Expr}
      {ts us : List Token} {t : Token} : precedence[place]? = some ops →
      infixAt? ops t.kind = some op → Phrase source (place + 3) l ts →
      Phrase source (place + 4) r us → Phrase source (place + 3) (op.make i l r) (ts ++ t :: us)
  | conditional {i : Info} {c x y : Expr} {ts us vs : List Token} {q colon : Token} :
      q.kind = .sign .question → colon.kind = .sign .colon → Phrase source 3 c ts →
      Phrase source 1 x us → Phrase source 1 y vs →
      Phrase source 2 (.conditional i c x y) (ts ++ q :: (us ++ colon :: vs))
  | assign {i : Info} {op : AssignOp} {l r : Expr} {ts us : List Token} {t : Token} :
      assignOp? t.kind = some op → isTarget l = true → Phrase source 3 l ts →
      Phrase source 1 r us → Phrase source 1 (.assign i op l r) (ts ++ t :: us)
  | loosen {level : Nat} {e : Expr} {ts : List Token} : Phrase source (level + 1) e ts →
      Phrase source level e ts

def startsPhrase : TokenKind → Bool
  | .identifier | .number | .string | .sign .leftParen => true
  | .keyword k => [.trueKw, .falseKw, .nullKw, .newKw, .typeofKw, .voidKw].contains k
  | .sign s => [.bang, .minus, .plus].contains s
  | _ => false

theorem Phrase.start (h : Phrase source level e ts) :
    ∃ t us, ts = t :: us ∧ startsPhrase t.kind = true := by
  induction h with
  | ident hkind => exact ⟨_, _, rfl, by rw [hkind]; rfl⟩
  | literal hvalue =>
    unfold Token.literal? at hvalue
    split at hvalue <;> first | cases hvalue; done | simp_all [startsPhrase]
  | paren hkind | construction hkind => exact ⟨_, _, rfl, by rw [hkind]; rfl⟩
  | @unary _ _ _ _ t hop =>
    unfold unaryOp? at hop
    split at hop <;> first | cases hop; done | simp_all [startsPhrase]
  | member _ _ _ _ _ ih | index _ _ _ _ _ ih _ | call _ _ _ _ _ ih _ | infixed _ _ _ _ ih _
  | conditional _ _ _ _ _ ih _ _ | assign _ _ _ _ ih _ =>
    obtain ⟨t, us, rfl, ht⟩ := ih
    exact ⟨t, _, rfl, ht⟩
  | loosen _ ih => exact ih

theorem Phrase.noArrow (h : Phrase source level e ts) : ∀ t ∈ ts, t.kind ≠ .sign .arrow := by
  have hdivided : ∀ {tss us}, Divided tss us → (∀ ts ∈ tss, ∀ t ∈ ts, t.kind ≠ .sign .arrow) →
      ∀ t ∈ us, t.kind ≠ .sign .arrow := by
    intro tss us h htss
    induction h with
    | nil => exact List.forall_mem_nil _
    | one => exact htss _ List.mem_cons_self
    | cons hcomma _ ih =>
      obtain ⟨hts, htss⟩ := List.forall_mem_cons.mp htss
      exact List.forall_mem_append.mpr ⟨hts, List.forall_mem_cons.mpr ⟨by simp [hcomma], ih htss⟩⟩
  induction h with
  | literal hvalue =>
    refine List.forall_mem_singleton.mpr fun hkind => ?_
    rw [Token.literal?, hkind] at hvalue
    cases hvalue
  | unary hop _ ih =>
    refine List.forall_mem_cons.mpr ⟨fun hkind => ?_, ih⟩
    rw [hkind] at hop
    cases hop
  | @infixed _ place ops _ _ _ _ _ t hops hop _ _ ihl ihr =>
    refine List.forall_mem_append.mpr ⟨ihl, List.forall_mem_cons.mpr ⟨fun hkind => ?_, ihr⟩⟩
    have hall : ∀ ops ∈ precedence, infixAt? ops (.sign .arrow) = none := by decide
    rw [hkind, hall ops (List.mem_of_getElem? hops)] at hop
    cases hop
  | assign hop _ _ _ ihl ihr =>
    refine List.forall_mem_append.mpr ⟨ihl, List.forall_mem_cons.mpr ⟨fun hkind => ?_, ihr⟩⟩
    rw [hkind] at hop
    cases hop
  | call ha hb _ _ hus ih ihs | construction hnew ha hb _ _ hus ih ihs =>
    have hus := hdivided hus fun ts hts => by
      obtain ⟨p, hp, rfl⟩ := List.mem_map.mp hts
      exact ihs p hp
    simp_all [or_imp]
  | _ => simp_all [or_imp]

/-! ## Where a phrase stops -/

/-- The level at which a token goes on with what stands in front of it, or zero. -/
def binding (k : TokenKind) : Nat :=
  if k = .sign .dot ∨ k = .sign .leftBracket ∨ k = .sign .leftParen then 11
  else match precedence.findIdx? fun ops => (infixAt? ops k).isSome with
    | some place => place + 3
    | none => if k = .sign .question then 2 else if (assignOp? k).isSome then 1 else 0

/-- A token of a kind does not go on with a phrase of a level. -/
def Stops (level : Nat) (k : TokenKind) : Prop := binding k < max level 1

instance (level : Nat) (k : TokenKind) : Decidable (Stops level k) :=
  inferInstanceAs (Decidable (_ < _))

theorem binding_place {place : Nat} (hops : precedence[place]? = some ops)
    (hop : (infixAt? ops k).isSome = true) : binding k = place + 3 := by
  have hall : ∀ place ∈ List.range 7, ∀ p ∈ (precedence[place]?).getD [],
      binding (.sign p.1) = place + 3 := by decide
  cases k with
  | sign s =>
    obtain ⟨op, hop⟩ := Option.isSome_iff_exists.mp hop
    obtain ⟨before, after, hsplit, -⟩ := List.lookup_eq_some_iff.mp hop
    refine hall place (List.mem_range.mpr (List.getElem?_eq_some_iff.mp hops).1) (s, op) ?_
    rw [hops, hsplit]
    simp
  | _ => cases hop

theorem Stops.infixAt? {place : Nat} (h : Stops level k) (hops : precedence[place]? = some ops)
    (hlevel : level ≤ place + 3) : infixAt? ops k = none := by
  cases hop : Parser.infixAt? ops k with
  | none => rfl
  | some op =>
    have hbinding := binding_place hops (by rw [hop]; rfl)
    unfold Stops at h
    omega

theorem Stops.suffix (h : Stops level k) (hlevel : level ≤ 11) :
    k ≠ .sign .dot ∧ k ≠ .sign .leftBracket ∧ k ≠ .sign .leftParen := by
  have hbinding : binding k < 11 := by
    unfold Stops at h
    omega
  refine ⟨?_, ?_, ?_⟩ <;> rintro rfl <;> exact absurd hbinding (by decide)

/-! ## States in front of tokens -/

variable {source : Bytes} {g : Grammar} {s s' : ParserState} {a b t u : Token}
  {ts us rest : List Token} {depth level place start : Nat} {e : Expr} {i : Info}

/-- The parser is in front of some tokens and has more behind them; no arrow comes, and the grammar
is unfolded far enough for the tokens. -/
structure Before (s : ParserState) (ts rest : List Token) (depth : Nat) : Prop where
  tokens : s.tokens = ts ++ rest
  more : rest ≠ []
  noArrow : ∀ t ∈ s.tokens, t.kind ≠ .sign .arrow
  deep : s.tokens.length ≤ depth + 1

theorem Before.here (h : Before s (t :: ts) rest depth) : s.here = t := (List.cons.inj h.tokens).1

theorem tokens_advance (h : s.tokens = t :: ts) (hts : ts ≠ []) : s.advance.tokens = ts := by
  obtain ⟨-, hahead⟩ := List.cons.inj h
  obtain ⟨u, us, rfl⟩ := List.exists_cons_of_ne_nil hts
  rw [ParserState.advance, hahead]
  rfl

/-- Behind its first token a state is in front of the rest, for a grammar unfolded once less. -/
theorem Before.advance (h : Before s (t :: ts) rest (depth + 1)) :
    Before s.advance ts rest depth := by
  have hrest : ts ++ rest ≠ [] := fun hnil => h.more (List.append_eq_nil_iff.mp hnil).2
  have htokens := tokens_advance h.tokens hrest
  have hdeep := h.deep
  have hno := h.noArrow
  rw [h.tokens] at hdeep hno
  refine ⟨htokens, h.more, ?_, ?_⟩
  · rw [htokens]
    exact fun u hu => hno u (List.mem_cons_of_mem t hu)
  · rw [htokens]
    exact Nat.le_of_succ_le_succ hdeep

theorem Before.split (h : Before s (ts ++ us) rest depth) : Before s ts (us ++ rest) depth :=
  ⟨by rw [h.tokens, List.append_assoc], fun hnil => h.more (List.append_eq_nil_iff.mp hnil).2,
    h.noArrow, h.deep⟩

theorem Before.behind (h : Before s (ts ++ us) rest depth) (hs' : s'.tokens = us ++ rest) :
    Before s' us rest depth := by
  have htokens : s.tokens = ts ++ s'.tokens := by rw [h.tokens, hs', List.append_assoc]
  refine ⟨hs', h.more, fun t ht => h.noArrow t ?_, ?_⟩
  · rw [htokens]
    exact List.mem_append_right ts ht
  · have hdeep := h.deep
    rw [htokens, List.length_append] at hdeep
    omega

theorem Before.deeper (h : Before s (t :: ts) rest depth) : ∃ n, depth = n + 1 := by
  have hdeep := h.deep
  have hmore := List.length_pos_iff.mpr h.more
  rw [h.tokens, List.length_append, List.length_cons] at hdeep
  exact ⟨depth - 1, by omega⟩

theorem Before.step (h : Before s (t :: ts) rest depth) : Before s.advance ts rest depth := by
  obtain ⟨n, rfl⟩ := h.deeper
  have hnext := h.advance
  exact ⟨hnext.tokens, hnext.more, hnext.noArrow, Nat.le_succ_of_le hnext.deep⟩

theorem bind_run {β : Type} {p : Parser α} {f : α → Parser β} {a : α} (h : p s = .ok (a, s')) :
    (p >>= f) s = f a s' := by
  show (p s >>= fun r => f r.1 r.2) = _
  rw [h]
  rfl

theorem bind_current {f : Token → Parser α} : (current >>= f) s = f s.here s := rfl

theorem bind_advance {f : Token → Parser α} : (advance >>= f) s = f s.here s.advance := rfl

theorem bind_atKind {f : Bool → Parser α} :
    (atKind k >>= f) s = f (decide (s.here.kind = k)) s := rfl

theorem map_run {β : Type} {p : Parser α} {f : α → β} {a : α} (h : p s = .ok (a, s')) :
    (f <$> p) s = .ok (f a, s') := by
  rw [map_eq_pure_bind, bind_run h]
  rfl

theorem expect_run (h : s.here.kind = k) : expect k s = .ok (s.here, s.advance) := by
  refine bind_atKind.trans ?_
  rw [decide_eq_true h]
  rfl

theorem expectSign_run (h : s.here.kind = .sign x) :
    expectSign x s = .ok ((), s.advance) := (bind_run (expect_run h)).trans rfl

theorem accept_run (h : s.here.kind = .sign x) : accept x s = .ok (true, s.advance) := by
  refine bind_atKind.trans ?_
  rw [decide_eq_true h]
  rfl

theorem accept_none (h : s.here.kind ≠ .sign x) : accept x s = .ok (false, s) := by
  refine bind_atKind.trans ?_
  rw [decide_eq_false h]
  rfl

theorem closesBeforeArrow_eq_false (h : ∀ t ∈ ts, t.kind ≠ .sign .arrow) (depth : Nat) :
    closesBeforeArrow depth ts = false := by
  induction ts generalizing depth with
  | nil => rfl
  | cons t ts ih =>
    have hts : ∀ t ∈ ts, t.kind ≠ .sign .arrow := fun u hu => h u (List.mem_cons_of_mem t hu)
    unfold closesBeforeArrow
    split
    · exact ih hts _
    · split
      · cases ts with
        | nil => rfl
        | cons u us =>
          simpa using hts u List.mem_cons_self
      · exact ih hts _
    · rfl
    · rfl
    · exact ih hts _

theorem atArrow_run (h : ∀ t ∈ s.tokens, t.kind ≠ .sign .arrow) : atArrow s = .ok (false, s) := by
  have hahead : ∀ t ∈ s.ahead, t.kind ≠ .sign .arrow :=
    fun t ht => h t (List.mem_cons_of_mem s.here ht)
  refine (bind_run (rfl : (get : Parser ParserState) s = .ok (s, s))).trans ?_
  rw [closesBeforeArrow_eq_false hahead]
  cases hnext : s.ahead with
  | nil => cases s.here.kind with
    | sign x => cases x <;> rfl
    | _ => rfl
  | cons t ts =>
    have ht : t.kind ≠ .sign .arrow := hahead t (by rw [hnext]; exact List.mem_cons_self)
    simp only [beq_eq_false_iff_ne.mpr ht]
    cases s.here.kind with
    | sign x => cases x <;> rfl
    | _ => rfl

/-! ## Loops -/

section

/-- Grammars of which each is unfolded once more than the one before. -/
structure Unfolds (source : Bytes) (gs : Nat → Grammar) : Prop where
  source (depth : Nat) : (gs depth).source = source
  assignment (depth : Nat) : (gs (depth + 1)).assignment = assignment (gs depth)
  unary (depth : Nat) : (gs (depth + 1)).unary = unary (gs depth)

theorem unfolds_unfold (source : Bytes) (module : Option ModuleId) (defaultName : Bytes) :
    Unfolds source (.unfold source module defaultName) where
  source depth := by cases depth <;> rfl
  assignment _ := rfl
  unary _ := rfl

variable (gs : Nat → Grammar)

/-- A parser reads a phrase of a level as its expression. -/
def Reads (p : Grammar → Parser Expr) (level : Nat) (e : Expr) (ts : List Token) : Prop :=
  ∀ depth s t rest, Before s ts (t :: rest) depth → Stops level t.kind →
    ∃ e' s', p (gs depth) s = .ok (e', s') ∧ e'.bare = e.bare ∧ s'.tokens = t :: rest

/-- From what a loop starts with it comes to the expression of a phrase, with rounds left for all
tokens behind it. -/
def Loops (first : Grammar → Parser Expr) (step : Grammar → Nat → Expr → Parser (Option Expr))
    (level : Nat) (e : Expr) (ts : List Token) : Prop :=
  ∀ depth s t rest, Before s ts (t :: rest) depth → Stops (level + 1) t.kind →
    ∃ e₀ s₀, first (gs depth) s = .ok (e₀, s₀) ∧
      ∀ start, ∃ e' s' n, e'.bare = e.bare ∧ s'.tokens = t :: rest ∧ s'.tokens.length ≤ n ∧
        iterate (step (gs depth) start) s₀.tokens.length e₀ s₀ =
          iterate (step (gs depth) start) n e' s'

variable {gs} {first p : Grammar → Parser Expr}
  {step : Grammar → Nat → Expr → Parser (Option Expr)}

theorem Reads.loops (h : Reads gs p (level + 1) e ts) :
    Loops gs p step level e ts := by
  intro depth s t rest hs ht
  obtain ⟨e', s', hrun, hbare, hs'⟩ := h depth s t rest hs ht
  exact ⟨e', s', hrun, fun start => ⟨e', s', _, hbare, hs', Nat.le_refl _, rfl⟩⟩

/-- A round that takes nothing ends the loop. -/
theorem Loops.reads (h : Loops gs first step level e ts)
    (hp : ∀ g s e0 s0, first g s = .ok (e0, s0) →
      ∃ start, p g s = iterate (step g start) s0.tokens.length e0 s0)
    (hstop : ∀ g start e s, Stops level s.here.kind → step g start e s = .ok (none, s)) :
    Reads gs p level e ts := by
  intro depth s t rest hs ht
  have hlater : Stops (level + 1) t.kind := by
    unfold Stops at ht ⊢
    omega
  obtain ⟨e0, s0, hfirst, hloop⟩ := h depth s t rest hs hlater
  obtain ⟨start, hrun⟩ := hp _ s e0 s0 hfirst
  obtain ⟨e', s', n, hbare, hs', hn, hrounds⟩ := hloop start
  refine ⟨e', s', ?_, hbare, hs'⟩
  have hhere : s'.here = t := (List.cons.inj hs').1
  obtain ⟨m, rfl⟩ : ∃ m, n = m + 1 := ⟨n - 1, by rw [hs', List.length_cons] at hn; omega⟩
  rw [hrun, hrounds, iterate, bind_run (hstop _ start e' s' (hhere ▸ ht))]
  rfl

theorem Loops.next {e2 : Expr} (h : Loops gs first step level e ts) (hu : Stops (level + 1) u.kind)
    (hstep : ∀ depth s t rest, Before s (u :: us) (t :: rest) depth → Stops (level + 1) t.kind →
      ∀ start e', e'.bare = e.bare → ∃ e'' s'', step (gs depth) start e' s = .ok (some e'', s'') ∧
        e''.bare = e2.bare ∧ s''.tokens = t :: rest) :
    Loops gs first step level e2 (ts ++ u :: us) := by
  intro depth s t rest hs ht
  obtain ⟨e0, s0, hfirst, hloop⟩ := h depth s u (us ++ t :: rest) hs.split hu
  refine ⟨e0, s0, hfirst, fun start => ?_⟩
  obtain ⟨e', s', n, hbare, hs', hn, hrounds⟩ := hloop start
  obtain ⟨e'', s'', hrun, hbare', hs''⟩ := hstep depth s' t rest (hs.behind hs') ht start e' hbare
  rw [hs', List.length_cons, List.length_append] at hn
  obtain ⟨m, rfl⟩ : ∃ m, n = m + 1 := ⟨n - 1, by omega⟩
  refine ⟨e'', s'', m, hbare', hs'', by rw [hs'']; omega, ?_⟩
  rw [hrounds, iterate, bind_run hrun]

/-! ## Primary expressions -/

def numbered (s : ParserState) : ParserState := { s with nextNode := s.nextNode + 1 }

theorem primary_identifier (g : Grammar) (h : s.here.kind = .identifier) :
    primary g s = .ok (.ident ⟨⟨s.advance.nextNode, ⟨s.here.start, s.here.stop⟩⟩, s.here.value,
      s.advance.scope⟩, numbered s.advance) := by
  refine (bind_run rfl).trans ?_
  rw [h]
  rfl

theorem primary_literal (g : Grammar) {v : Value} (h : s.here.literal? = some v) :
    primary g s = .ok (.literal ⟨s.advance.nextNode, ⟨s.here.start, s.here.stop⟩⟩ v
      (s.here.text g.source), numbered s.advance) := by
  refine (bind_run rfl).trans ?_
  unfold Token.literal? at h
  split at h
  all_goals first
    | cases h; done
    | next hkind =>
      cases h
      rw [hkind]
      rfl

theorem primary_paren (g : Grammar) (h : s.here.kind = .sign .leftParen) :
    primary g s = (do
      let e ← g.assignment
      expectSign .rightParen
      return e) s.advance := by
  refine (bind_run rfl).trans ?_
  rw [h]
  rfl

theorem unexpected_ne (what : Bytes) (s : ParserState) (r : α × ParserState) :
    (unexpected what : Parser α) s ≠ .ok r := by
  intro h
  rw [unexpected, bind_current] at h
  split at h <;> cases h

theorem primary_start {r : Expr × ParserState} (h : primary g s = .ok r) :
    s.here.kind ≠ .keyword .newKw ∧ unaryOp? s.here.kind = none := by
  have hrun : primary g s = _ := bind_run rfl
  rw [h] at hrun
  constructor
  · intro hkind
    rw [hkind] at hrun
    exact unexpected_ne _ _ _ hrun.symm
  · cases hop : unaryOp? s.here.kind with
    | none => rfl
    | some op =>
      unfold unaryOp? at hop
      split at hop
      all_goals first
        | cases hop; done
        | next hkind =>
          rw [hkind] at hrun
          exact absurd hrun.symm (unexpected_ne _ _ _)

theorem reads_ident {n : Ident} (hkind : t.kind = .identifier) (hname : t.value = n.name) :
    Reads gs primary 13 (.ident n) [t] := by
  intro depth s u rest hs _
  have hhere := hs.here
  refine ⟨_, _, primary_identifier _ (by rw [hhere, hkind]), ?_,
    tokens_advance hs.tokens (List.cons_ne_nil _ _)⟩
  rw [hhere, hname]
  rfl

theorem reads_literal (hg : Unfolds source gs) {v : Value} (hvalue : t.literal? = some v) :
    Reads gs primary 13 (.literal i v (t.text source)) [t] := by
  intro depth s u rest hs _
  have hhere := hs.here
  refine ⟨_, _, primary_literal _ (by rw [hhere, hvalue]), ?_,
    tokens_advance hs.tokens (List.cons_ne_nil _ _)⟩
  rw [hhere, hg.source]
  rfl

theorem assignment_run (hg : Unfolds source gs) (h : Reads gs assignment 1 e ts)
    (hs : Before s (a :: (ts ++ [b])) rest depth) (hb : Stops 1 b.kind) :
    ∃ e' s', (gs depth).assignment s.advance = .ok (e', s') ∧
      e'.bare = e.bare ∧ s'.here = b ∧ s'.advance.tokens = rest := by
  obtain ⟨n, rfl⟩ := hs.deeper
  obtain ⟨e', s', hrun, hbare, hs'⟩ := h n s.advance b rest hs.advance.split hb
  rw [hg.assignment]
  exact ⟨e', s', hrun, hbare, (List.cons.inj hs').1, tokens_advance hs' hs.more⟩

theorem reads_paren (hg : Unfolds source gs) (ha : a.kind = .sign .leftParen)
    (hb : b.kind = .sign .rightParen) (h : Reads gs assignment 1 e ts) :
    Reads gs primary 13 e (a :: (ts ++ [b])) := by
  intro depth s u rest hs _
  obtain ⟨e', s', hrun, hbare, hhere, hs'⟩ := assignment_run hg h hs (by rw [hb]; decide)
  refine ⟨e', s'.advance, ?_, hbare, hs'⟩
  rw [primary_paren _ (by rw [hs.here, ha]), bind_run hrun,
    bind_run (expectSign_run (by rw [hhere, hb]))]
  rfl

/-! ## Accesses and calls -/

/-- Both kinds of rounds behind a primary expression take an access. -/
def Accesses (step : Grammar → Nat → Expr → Parser (Option Expr)) : Prop :=
  ∀ g start e s, s.here.kind = .sign .dot ∨ s.here.kind = .sign .leftBracket →
    step g start e s = (some <$> memberAccess g start e) s

theorem accessSuffix_accesses : Accesses accessSuffix := by
  intro g start e s h
  refine (bind_run rfl).trans ?_
  rw [decide_eq_true h]
  rfl

theorem suffix_accesses : Accesses suffix := by
  intro g start e s h
  refine (bind_run rfl).trans ?_
  rw [decide_eq_true h]
  rfl

theorem accessSuffix_none (h : s.here.kind ≠ .sign .dot ∧ s.here.kind ≠ .sign .leftBracket) :
    accessSuffix g start e s = .ok (none, s) := by
  refine (bind_run rfl).trans ?_
  rw [decide_eq_false (not_or.mpr h)]
  rfl

theorem suffix_none
    (h : s.here.kind ≠ .sign .dot ∧ s.here.kind ≠ .sign .leftBracket ∧
      s.here.kind ≠ .sign .leftParen) :
    suffix g start e s = .ok (none, s) := by
  refine (bind_run rfl).trans ?_
  rw [decide_eq_false (not_or.mpr ⟨h.1, h.2.1⟩)]
  refine bind_atKind.trans ?_
  rw [decide_eq_false h.2.2]
  rfl

theorem binding_le (k : TokenKind) : binding k ≤ 11 := by
  unfold binding
  split
  · exact Nat.le_refl _
  · split
    · next place hplace =>
      have : place < precedence.length := (List.findIdx?_eq_some_iff_getElem.mp hplace).1
      have hlength : precedence.length = 7 := rfl
      omega
    · split
      · omega
      · split <;> omega

theorem stops_of_lt (h : 12 ≤ level) (k : TokenKind) : Stops level k := by
  have := binding_le k
  unfold Stops
  omega

theorem memberAccess_dot (g : Grammar) (start : Nat) (e : Expr) (h : s.here.kind = .sign .dot)
    (hname : s.advance.here.isName = true) :
    memberAccess g start e s =
      .ok (.member ⟨s.advance.advance.nextNode, ⟨start, s.advance.advance.lastEnd⟩⟩ e
        s.advance.here.value, numbered s.advance.advance) := by
  refine bind_advance.trans ?_
  rw [if_pos h]
  refine bind_current.trans ?_
  rw [hname]
  rfl

theorem memberAccess_bracket (g : Grammar) (start : Nat) (e : Expr)
    (h : s.here.kind = .sign .leftBracket) :
    memberAccess g start e s = (do
      let key ← g.assignment
      expectSign .rightBracket
      return index (← nodeFrom start) e key) s.advance := by
  refine bind_advance.trans ?_
  rw [if_neg (by rw [h]; decide)]

theorem Loops.member {dot : Token} (hstep : Accesses step) (hlevel : 11 ≤ level)
    (hdot : dot.kind = .sign .dot) (ht : t.isName = true) (h : Loops gs first step level e ts) :
    Loops gs first step level (.member i e t.value) (ts ++ [dot, t]) := by
  refine h.next (stops_of_lt (by omega) _) fun depth s u rest hs _ start e' hbare => ?_
  have hmark : s.here.kind = .sign .dot := by rw [hs.here, hdot]
  have hs1 : s.advance.tokens = t :: (u :: rest) := tokens_advance hs.tokens (List.cons_ne_nil _ _)
  have hkey : s.advance.here = t := (List.cons.inj hs1).1
  have hrun := memberAccess_dot (gs depth) start e' hmark
    (by rw [hkey, ht])
  refine ⟨_, _, (hstep _ _ _ _ (.inl hmark)).trans (map_run hrun), ?_,
    tokens_advance hs1 (List.cons_ne_nil _ _)⟩
  rw [hkey, bare, hbare]
  rfl

theorem Loops.index (hg : Unfolds source gs) {k : Expr} (hstep : Accesses step)
    (hlevel : 11 ≤ level) (ha : a.kind = .sign .leftBracket) (hb : b.kind = .sign .rightBracket)
    (h : Loops gs first step level e ts) (hk : Reads gs assignment 1 k us) :
    Loops gs first step level (.index i e k) (ts ++ a :: (us ++ [b])) := by
  refine h.next (stops_of_lt (by omega) _) fun depth s u rest hs _ start e' hbare => ?_
  have hmark : s.here.kind = .sign .leftBracket := by rw [hs.here, ha]
  obtain ⟨k', s', hrun, hkey, hhere, hs'⟩ := assignment_run hg hk hs (by rw [hb]; decide)
  have hrun : memberAccess (gs depth) start e' s =
      .ok (.index ⟨s'.advance.nextNode, ⟨start, s'.advance.lastEnd⟩⟩ e' k',
        numbered s'.advance) := by
    rw [memberAccess_bracket _ _ _ hmark, bind_run hrun,
      bind_run (expectSign_run (by rw [hhere, hb]))]
    rfl
  refine ⟨_, _, (hstep _ _ _ _ (.inr hmark)).trans (map_run hrun), ?_, hs'⟩
  rw [bare, hbare, hkey]
  rfl

/-- The items of a list are read as expressions. -/
def Listed (gs : Nat → Grammar) (items : List (Expr × List Token)) : Prop :=
  ∀ p ∈ items, Reads gs assignment 1 p.1 p.2 ∧ ∃ t us, p.2 = t :: us ∧ startsPhrase t.kind = true

theorem itemsUntil_item {close : Sign} {item : Parser α} {x : α} (n : Nat)
    (hhere : s.here.kind ≠ .sign close) (hrun : item s = .ok (x, s')) :
    itemsUntil close item (n + 1) s = (do
      if ← accept .comma then return x :: (← itemsUntil close item n) else return [x]) s' := by
  refine bind_atKind.trans ?_
  rw [decide_eq_false hhere]
  exact bind_run hrun

theorem not_rightParen (hhere : s.here = t) (ht : startsPhrase t.kind = true) :
    s.here.kind ≠ .sign .rightParen := by
  rintro hkind
  rw [← hhere, hkind] at ht
  cases ht

theorem itemsUntil_run {items : List (Expr × List Token)}
    (hitems : Listed gs items)
    (hdivided : Divided (items.map Prod.snd) us) (hb : b.kind = .sign .rightParen) :
    ∀ {s : ParserState} (n : Nat), Before s us (b :: rest) depth → s.tokens.length ≤ n →
      ∃ es s', itemsUntil .rightParen (assignment (gs depth)) n s =
        .ok (es, s') ∧ bareAll es = bareAll (items.map Prod.fst) ∧
          s'.tokens = b :: rest := by
  -- Every item consumes a token at least, so the rounds do not run out.
  generalize htss : items.map Prod.snd = tss at hdivided
  induction hdivided generalizing items with
  | nil =>
    intro s n hs hn
    obtain rfl : items = [] := List.map_eq_nil_iff.mp htss
    obtain ⟨m, rfl⟩ : ∃ m, n = m + 1 := ⟨n - 1, by
      rw [hs.tokens, List.nil_append, List.length_cons] at hn
      omega⟩
    refine ⟨[], s, bind_atKind.trans ?_, rfl, hs.tokens⟩
    rw [(List.cons.inj hs.tokens).1, decide_eq_true hb]
    rfl
  | @one ts =>
    intro s n hs hn
    obtain ⟨p, rfl, rfl⟩ : ∃ p, items = [p] ∧ p.2 = ts := by
      obtain ⟨p, items', rfl, hp, hitems'⟩ := List.map_eq_cons_iff.mp htss
      exact ⟨p, by rw [List.map_eq_nil_iff.mp hitems'], hp⟩
    obtain ⟨hreads, t, us, hts, ht⟩ := hitems p List.mem_cons_self
    obtain ⟨e', s', hrun, hbare, hs'⟩ := hreads depth s b rest hs (by rw [hb]; decide)
    have hhere := not_rightParen (hts ▸ hs).here ht
    have hnext : s'.here.kind ≠ .sign .comma := by
      rw [(List.cons.inj hs').1, hb]
      decide
    obtain ⟨m, rfl⟩ : ∃ m, n = m + 1 := ⟨n - 1, by
      rw [hs.tokens, List.length_append, List.length_cons] at hn
      omega⟩
    refine ⟨[e'], s', ?_, ?_, hs'⟩
    · rw [itemsUntil_item m hhere hrun, bind_run (accept_none hnext)]
      rfl
    · simp [bareAll, hbare]
  | @cons ts us tss comma hcomma _ ih =>
    intro s n hs hn
    obtain ⟨p, items', rfl, rfl, rfl⟩ := List.map_eq_cons_iff.mp htss
    obtain ⟨⟨hreads, t, vs, hts, ht⟩, hitems'⟩ := List.forall_mem_cons.mp hitems
    obtain ⟨e', s', hrun, hbare, hs'⟩ := hreads depth s comma (us ++ b :: rest) hs.split
      (by rw [hcomma]; decide)
    have hhere := not_rightParen (hts ▸ hs).here ht
    have hnext := (hs.behind hs').step
    have hcomma : s'.here.kind = .sign .comma := by rw [(List.cons.inj hs').1, hcomma]
    rw [hs.tokens] at hn
    simp only [List.length_append, List.length_cons] at hn
    obtain ⟨m, rfl⟩ : ∃ m, n = m + 1 := ⟨n - 1, by omega⟩
    obtain ⟨es, s'', hrest, hbares, hs''⟩ := ih hitems' rfl m hnext (by
      rw [hnext.tokens, List.length_append, List.length_cons]
      omega)
    refine ⟨e' :: es, s'', ?_, ?_, hs''⟩
    · rw [itemsUntil_item m hhere hrun, bind_run (accept_run hcomma), if_pos rfl, bind_run hrest]
      rfl
    · simp [bareAll, hbare, hbares]

theorem arguments_run (hg : Unfolds source gs) {items : List (Expr × List Token)}
    (hitems : Listed gs items)
    (hdivided : Divided (items.map Prod.snd) us) (ha : a.kind = .sign .leftParen)
    (hb : b.kind = .sign .rightParen) (hs : Before s (a :: (us ++ [b])) (u :: rest) depth) :
    ∃ es s', arguments (gs depth) s = .ok (es, s') ∧
      bareAll es = bareAll (items.map Prod.fst) ∧ s'.tokens = u :: rest := by
  obtain ⟨n, rfl⟩ := hs.deeper
  obtain ⟨es, s', hrun, hbares, hs'⟩ := itemsUntil_run hitems hdivided hb
    s.advance.tokens.length hs.advance.split (Nat.le_refl _)
  have hclose : s'.here.kind = .sign .rightParen := by rw [(List.cons.inj hs').1, hb]
  refine ⟨es, s'.advance, ?_, hbares, tokens_advance hs' (List.cons_ne_nil _ _)⟩
  refine (bind_run (expectSign_run (by rw [hs.here, ha]))).trans ?_
  refine (bind_run (rfl : stepsLeft s.advance = .ok (s.advance.tokens.length, s.advance))).trans ?_
  rw [hg.assignment]
  exact (bind_run hrun).trans ((bind_run (expectSign_run hclose)).trans rfl)

theorem suffix_call (g : Grammar) (start : Nat) (e : Expr) (h : s.here.kind = .sign .leftParen) :
    suffix g start e s = (do
      let as ← arguments g
      return some (call (← nodeFrom start) false e as)) s := by
  refine (bind_run rfl).trans ?_
  rw [decide_eq_false (by rw [h]; decide)]
  refine bind_atKind.trans ?_
  rw [decide_eq_true h]
  rfl

theorem Loops.call (hg : Unfolds source gs) {items : List (Expr × List Token)}
    (ha : a.kind = .sign .leftParen) (hb : b.kind = .sign .rightParen)
    (h : Loops gs first suffix 11 e ts)
    (hitems : Listed gs items)
    (hdivided : Divided (items.map Prod.snd) us) :
    Loops gs first suffix 11 (.call i false e (items.map Prod.fst))
      (ts ++ a :: (us ++ [b])) := by
  refine h.next (stops_of_lt (Nat.le_refl _) _) fun depth s u rest hs _ start e' hbare => ?_
  obtain ⟨es, s', hrun, hbares, hs'⟩ := arguments_run hg hitems hdivided ha hb hs
  refine ⟨.call ⟨s'.nextNode, ⟨start, s'.lastEnd⟩⟩ false e' es, numbered s', ?_, ?_, hs'⟩
  · rw [suffix_call _ _ _ (by rw [hs.here, ha]), bind_run hrun]
    rfl
  · rw [bare, hbare, hbares]
    rfl

def operandHead (g : Grammar) : Parser Expr := do
  if ← atKind (.keyword .newKw) then construction g else primary g

theorem operand_run {s0 : ParserState} {e0 : Expr} (h : operandHead g s = .ok (e0, s0)) :
    ∃ start, operand g s = iterate (suffix g start) s0.tokens.length e0 s0 := by
  refine ⟨s.here.start, bind_current.trans ?_⟩
  refine bind_atKind.trans ?_
  rw [operandHead, bind_atKind] at h
  cases hnew : decide (s.here.kind = .keyword .newKw) <;> rw [hnew] at h <;>
    exact (bind_run h).trans rfl

theorem reads_construction (hg : Unfolds source gs) {items : List (Expr × List Token)} {new : Token}
    (hnew : new.kind = .keyword .newKw) (ha : a.kind = .sign .leftParen)
    (hb : b.kind = .sign .rightParen) (h : Loops gs primary accessSuffix 12 e ts)
    (hitems : Listed gs items)
    (hdivided : Divided (items.map Prod.snd) us) :
    Reads gs operandHead 12 (.call i true e (items.map Prod.fst))
      (new :: (ts ++ a :: (us ++ [b]))) := by
  intro depth s u rest hs _
  have hhere : s.here.kind = .keyword .newKw := by rw [hs.here, hnew]
  obtain ⟨e0, s0, hprimary, hloop⟩ := h depth s.advance a (us ++ [b] ++ u :: rest) hs.step.split
    (stops_of_lt (by omega) _)
  obtain ⟨e', s', n, hbare, hs', hn, hrounds⟩ := hloop e0.info.span.start
  have hparen : s'.here.kind = .sign .leftParen := by rw [(List.cons.inj hs').1, ha]
  obtain ⟨m, rfl⟩ : ∃ m, n = m + 1 := ⟨n - 1, by rw [hs', List.length_cons] at hn; omega⟩
  have hdone : iterate (accessSuffix (gs depth) e0.info.span.start)
      s0.tokens.length e0 s0 = .ok (e', s') := by
    rw [hrounds, iterate, bind_run (accessSuffix_none (by rw [hparen]; decide))]
    rfl
  obtain ⟨es, s'', hrun, hbares, hs''⟩ :=
    arguments_run hg hitems hdivided ha hb (hs.step.behind hs')
  refine ⟨.call ⟨s''.nextNode, ⟨s.here.start, s''.lastEnd⟩⟩ true e' es, numbered s'', ?_,
    ?_, hs''⟩
  · refine bind_atKind.trans ?_
    rw [decide_eq_true hhere]
    refine bind_advance.trans ?_
    refine bind_atKind.trans ?_
    rw [decide_eq_false (primary_start hprimary).1]
    refine (bind_run hprimary).trans ((bind_run rfl).trans ?_)
    refine (bind_run hdone).trans (bind_atKind.trans ?_)
    rw [decide_eq_true hparen]
    exact (bind_run hrun).trans rfl
  · rw [bare, hbare, hbares]
    rfl

/-! ## Operators -/

/-- The parser of what binds more tightly than the operators at a place of `precedence`. -/
def tighter (place : Nat) (g : Grammar) : Parser Expr := infixes g (precedence.drop (place + 1))

def round (place : Nat) (g : Grammar) (start : Nat) (e : Expr) : Parser (Option Expr) :=
  infixSuffix ((precedence[place]?).getD []) (tighter place g) start e

theorem infixes_run (hplace : place < 7) {s0 : ParserState} {e0 : Expr}
    (h : tighter place g s = .ok (e0, s0)) :
    ∃ start, infixes g (precedence.drop place) s =
      iterate (round place g start) s0.tokens.length e0 s0 := by
  have hdrop : precedence.drop place =
      (precedence[place]?).getD [] :: precedence.drop (place + 1) := by
    have hlt : place < precedence.length := hplace
    rw [List.drop_eq_getElem_cons hlt, List.getElem?_eq_getElem hlt, Option.getD_some]
  refine ⟨s.here.start, ?_⟩
  rw [hdrop]
  refine bind_current.trans ?_
  exact (bind_run h).trans rfl

theorem round_none (h : infixAt? ((precedence[place]?).getD []) s.here.kind = none) :
    round place g start e s = .ok (none, s) := by
  refine bind_current.trans ?_
  rw [h]
  rfl

theorem Loops.infixes (hplace : place < 7)
    (h : Loops gs (tighter place) (round place) (place + 3) e ts) :
    Reads gs (infixes · (precedence.drop place)) (place + 3) e ts := by
  refine h.reads (fun g s e0 s0 => infixes_run hplace) fun g start e s hstop => round_none ?_
  have hlt : place < precedence.length := hplace
  rw [List.getElem?_eq_getElem hlt]
  exact hstop.infixAt? (List.getElem?_eq_getElem hlt) (Nat.le_refl _)

theorem round_run {op : Infix} (h : infixAt? ((precedence[place]?).getD []) s.here.kind = some op)
    (hrun : tighter place g s.advance = .ok (r, s')) :
    round place g start e s =
      .ok (some (op.make ⟨s'.nextNode, ⟨start, s'.lastEnd⟩⟩ e r), numbered s') := by
  refine bind_current.trans ?_
  rw [h]
  refine bind_advance.trans ?_
  refine (bind_run hrun).trans ?_
  cases op <;> rfl

theorem Loops.infixed {op : Infix} (hops : precedence[place]? = some ops)
    (hop : infixAt? ops t.kind = some op)
    (h : Loops gs (tighter place) (round place) (place + 3) e ts)
    (hr : Reads gs (tighter place) (place + 4) r us) :
    Loops gs (tighter place) (round place) (place + 3) (op.make i e r)
      (ts ++ t :: us) := by
  have hbinding : binding t.kind = place + 3 := binding_place hops (by rw [hop]; rfl)
  have hstop : Stops (place + 3 + 1) t.kind := by
    unfold Stops
    omega
  refine h.next hstop fun depth s u rest hs hu start e' hbare => ?_
  obtain ⟨r', s', hrun, hbare', hs'⟩ := hr depth s.advance u rest hs.step hu
  have hhere : infixAt? ((precedence[place]?).getD []) s.here.kind = some op := by
    rw [hops, hs.here]
    exact hop
  refine ⟨_, _, round_run hhere hrun, ?_, hs'⟩
  rw [Infix.bare_make, Infix.bare_make, hbare, hbare']

theorem unary_run (g : Grammar) {op : UnaryOp} (h : unaryOp? s.here.kind = some op) :
    unary g s = (do
      let e ← g.unary
      return Expr.unary (← nodeFrom s.here.start) op e) s.advance := by
  refine bind_current.trans ?_
  rw [h]
  exact bind_advance.trans rfl

theorem reads_unary (hg : Unfolds source gs) {op : UnaryOp} (hop : unaryOp? t.kind = some op)
    (h : Reads gs unary 10 e ts) : Reads gs unary 10 (.unary i op e) (t :: ts) := by
  intro depth s u rest hs hu
  obtain ⟨n, rfl⟩ := hs.deeper
  obtain ⟨e', s', hrun, hbare, hs'⟩ := h n s.advance u rest hs.advance hu
  refine ⟨.unary ⟨s'.nextNode, ⟨s.here.start, s'.lastEnd⟩⟩ op e', numbered s', ?_, ?_,
    hs'⟩
  · rw [unary_run _ (by rw [hs.here, hop]), hg.unary]
    exact (bind_run hrun).trans rfl
  · rw [bare, hbare]
    rfl

theorem operandHead_start {r : Expr × ParserState} (h : operandHead g s = .ok r) :
    unaryOp? s.here.kind = none := by
  rw [operandHead, bind_atKind] at h
  by_cases hnew : s.here.kind = .keyword .newKw
  · rw [hnew]
    rfl
  · rw [decide_eq_false hnew] at h
    exact (primary_start h).2

theorem Loops.unary (h : Loops gs operandHead suffix 11 e ts) :
    Reads gs unary 10 e ts := by
  have hoperand : Reads gs operand 11 e ts :=
    h.reads (fun g s e0 s0 => operand_run) fun g start e s hstop =>
      suffix_none (hstop.suffix (Nat.le_refl _))
  intro depth s u rest hs hu
  have hcall : Stops 11 u.kind := by
    unfold Stops at hu ⊢
    omega
  obtain ⟨e', s', hrun, hbare, hs'⟩ := hoperand depth s u rest hs hcall
  obtain ⟨e0, s0, hhead, -⟩ := h depth s u rest hs (stops_of_lt (Nat.le_refl _) _)
  refine ⟨e', s', bind_current.trans ?_, hbare, hs'⟩
  rw [operandHead_start hhead]
  exact hrun

theorem Loops.operandHead (h : Loops gs primary suffix 12 e ts) :
    Loops gs operandHead suffix 11 e ts := by
  intro depth s t rest hs ht
  obtain ⟨e0, s0, hprimary, hloop⟩ := h depth s t rest hs (stops_of_lt (by omega) _)
  refine ⟨e0, s0, bind_atKind.trans ?_, hloop⟩
  rw [decide_eq_false (primary_start hprimary).1]
  exact hprimary

/-- The last part of a conditional expression goes on as far as an assignment does. -/
theorem reads_conditional (hg : Unfolds source gs) {x y : Expr} {vs : List Token} {q colon : Token}
    (hq : q.kind = .sign .question) (hcolon : colon.kind = .sign .colon)
    (h : Reads gs (infixes · precedence) 3 e ts) (hx : Reads gs assignment 1 x us)
    (hy : Reads gs assignment 1 y vs) :
    Reads gs conditional 1 (.conditional i e x y)
      (ts ++ q :: (us ++ colon :: vs)) := by
  intro depth s u rest hs hu
  obtain ⟨e', s1, htest, hbare, hs1⟩ := h depth s q (us ++ colon :: vs ++ u :: rest) hs.split
    (by rw [hq]; decide)
  have hbehind := hs.behind hs1
  obtain ⟨n, rfl⟩ := hbehind.deeper
  obtain ⟨x', s2, hfirst, hbare1, hs2⟩ := hx n s1.advance colon (vs ++ u :: rest)
    hbehind.advance.split (by rw [hcolon]; decide)
  have hbehind' := hbehind.advance.behind hs2
  obtain ⟨y', s3, hsecond, hbare2, hs3⟩ := hy n s2.advance u rest hbehind'.step hu
  refine ⟨.conditional ⟨s3.nextNode, ⟨s.here.start, s3.lastEnd⟩⟩ e' x' y', numbered s3,
    bind_current.trans ?_, ?_, hs3⟩
  · refine (bind_run htest).trans ?_
    refine (bind_run (accept_run (by rw [hbehind.here, hq]))).trans ?_
    rw [hg.assignment]
    refine (bind_run hfirst).trans ?_
    refine (bind_run (expectSign_run (by rw [hbehind'.here, hcolon]))).trans ?_
    exact (bind_run hsecond).trans rfl
  · rw [bare, hbare, hbare1, hbare2]
    rfl

theorem Reads.conditional (h : Reads gs (Parser.infixes · precedence) 3 e ts) :
    Reads gs conditional 2 e ts := by
  intro depth s u rest hs hu
  have hquestion : u.kind ≠ .sign .question := by
    intro hkind
    rw [hkind] at hu
    exact absurd hu (by decide)
  have hoperand : Stops 3 u.kind := by
    unfold Stops at hu ⊢
    omega
  obtain ⟨e', s', hrun, hbare, hs'⟩ := h depth s u rest hs hoperand
  refine ⟨e', s', bind_current.trans ?_, hbare, hs'⟩
  refine (bind_run hrun).trans ?_
  exact (bind_run (accept_none (by rw [(List.cons.inj hs').1]; exact hquestion))).trans rfl

/-- Without an assignment operator behind it, a conditional expression is all there is. -/
theorem Reads.assignment (h : Reads gs Parser.conditional 1 e ts) :
    Reads gs assignment 1 e ts := by
  intro depth s u rest hs hu
  -- An operator that assigns would go on with a phrase of the first level.
  have hassign : assignOp? u.kind = none := by
    cases hop : assignOp? u.kind with
    | none => rfl
    | some op =>
      unfold assignOp? at hop
      split at hop
      all_goals first
        | cases hop; done
        | next hkind =>
          rw [hkind] at hu
          exact absurd hu (by decide)
  obtain ⟨e', s', hrun, hbare, hs'⟩ := h depth s u rest hs hu
  refine ⟨e', s', (bind_run (atArrow_run hs.noArrow)).trans ?_, hbare, hs'⟩
  refine bind_current.trans ?_
  refine (bind_run hrun).trans ?_
  refine bind_current.trans ?_
  rw [(List.cons.inj hs').1, hassign]
  rfl

theorem reads_assign (hg : Unfolds source gs) {op : AssignOp} (hop : assignOp? t.kind = some op)
    (htarget : isTarget e = true) (h : Reads gs Parser.conditional 2 e ts)
    (hr : Reads gs assignment 1 r us) :
    Reads gs assignment 1 (.assign i op e r) (ts ++ t :: us) := by
  intro depth s u rest hs hu
  have hstop : Stops 2 t.kind := by
    unfold assignOp? at hop
    split at hop
    all_goals first
      | cases hop; done
      | next hkind =>
        rw [hkind]
        decide
  obtain ⟨e', s1, hleft, hbare, hs1⟩ := h depth s t (us ++ u :: rest) hs.split hstop
  have hbehind := hs.behind hs1
  obtain ⟨n, rfl⟩ := hbehind.deeper
  obtain ⟨r', s2, hright, hbare', hs2⟩ := hr n s1.advance u rest hbehind.advance hu
  have htarget' : isTarget e' = true := by rw [← isTarget_bare, hbare, isTarget_bare, htarget]
  refine ⟨.assign ⟨s2.nextNode, ⟨s.here.start, s2.lastEnd⟩⟩ op e' r', numbered s2,
    (bind_run (atArrow_run hs.noArrow)).trans ?_, ?_, hs2⟩
  · refine bind_current.trans ?_
    refine (bind_run hleft).trans ?_
    refine bind_current.trans ?_
    rw [hbehind.here, hop]
    simp only [htarget']
    refine bind_advance.trans ?_
    rw [hg.assignment]
    exact (bind_run hright).trans rfl
  · rw [bare, hbare, hbare']
    rfl

/-! ## All levels -/

variable (gs) in
/-- What is shown of a phrase of a level: a level with a loop comes to its expression, one without
is read. -/
def Understood : (level : Nat) → Expr → List Token → Prop
  | 0, e, ts | 1, e, ts => Reads gs assignment 1 e ts
  | 2, e, ts => Reads gs Parser.conditional 1 e ts
  | 10, e, ts => Reads gs Parser.unary 10 e ts
  | 11, e, ts => Loops gs Parser.operandHead suffix 11 e ts
  | 12, e, ts => Loops gs primary suffix 12 e ts ∧
      Loops gs primary accessSuffix 12 e ts
  | place + 3, e, ts => place < 7 ∧
      Loops gs (tighter place) (round place) (place + 3) e ts

theorem understood_place (hplace : place < 7) :
    Understood gs (place + 3) e ts ↔
      Loops gs (tighter place) (round place) (place + 3) e ts := by
  rcases place with _ | _ | _ | _ | _ | _ | _ | place
  all_goals first
    | exact and_iff_right hplace
    | omega

theorem Understood.tighter (hplace : place < 7) (h : Understood gs (place + 4) e ts) :
    Reads gs (tighter place) (place + 4) e ts := by
  by_cases hlast : place = 6
  · subst hlast
    exact h
  · have hnext : place + 1 < 7 := by omega
    exact ((understood_place hnext).mp h).infixes hnext

theorem Reads.mono {level' : Nat} (h : Reads gs p level e ts)
    (hlevel : level' ≤ level) : Reads gs p level' e ts := by
  intro depth s u rest hs hu
  refine h depth s u rest hs ?_
  unfold Stops at hu ⊢
  omega

theorem Understood.loosen (h : Understood gs (level + 1) e ts) :
    Understood gs level e ts := by
  -- The levels of `precedence` are alike; each of the others has a parser of its own.
  by_cases hplaced : 3 ≤ level ∧ level < 10
  · obtain ⟨place, rfl⟩ : ∃ place, level = place + 3 := ⟨level - 3, by omega⟩
    have hplace : place < 7 := by omega
    exact (understood_place hplace).mpr (h.tighter hplace).loops
  · rcases level with _ | _ | _ | _ | _ | _ | _ | _ | _ | _ | _ | _ | level
    · exact h
    · exact Reads.assignment h
    · exact (Loops.infixes (by decide : 0 < 7) h.2).conditional.mono (by decide)
    all_goals try omega
    · exact Loops.unary h
    · exact Loops.operandHead h.1
    · exact absurd h.1 (by omega)

theorem Phrase.understood (hg : Unfolds source gs) (h : Phrase source level e ts) :
    Understood gs level e ts := by
  -- What the grammar recurs to on the left the loop has come to, what it recurs to on the right is
  -- read as a whole.
  induction h with
  | ident hkind hname => exact ⟨(reads_ident hkind hname).loops, (reads_ident hkind hname).loops⟩
  | literal hvalue => exact ⟨(reads_literal hg hvalue).loops, (reads_literal hg hvalue).loops⟩
  | paren ha hb _ ih => exact ⟨(reads_paren hg ha hb ih).loops, (reads_paren hg ha hb ih).loops⟩
  | member hlevel hdot ht _ _ ih =>
    rcases hlevel with rfl | rfl
    · exact Loops.member suffix_accesses (by omega) hdot ht ih
    · exact ⟨ih.1.member suffix_accesses (by omega) hdot ht,
        ih.2.member accessSuffix_accesses (by omega) hdot ht⟩
  | index hlevel ha hb _ _ ih ihk =>
    rcases hlevel with rfl | rfl
    · exact Loops.index hg suffix_accesses (by omega) ha hb ih ihk
    · exact ⟨ih.1.index hg suffix_accesses (by omega) ha hb ihk,
        ih.2.index hg accessSuffix_accesses (by omega) ha hb ihk⟩
  | call ha hb _ hitems hdivided ih ihitems =>
    exact Loops.call hg ha hb ih (fun p hp => ⟨ihitems p hp, (hitems p hp).start⟩) hdivided
  | construction hnew ha hb _ hitems hdivided ih ihitems =>
    exact (reads_construction hg hnew ha hb ih.2
      (fun p hp => ⟨ihitems p hp, (hitems p hp).start⟩) hdivided).loops
  | unary hop _ ih => exact reads_unary hg hop ih
  | @infixed _ place _ _ _ _ _ _ _ hops hop _ _ ihl ihr =>
    have hplace : place < 7 := (List.getElem?_eq_some_iff.mp hops).1
    exact (understood_place hplace).mpr
      (((understood_place hplace).mp ihl).infixed hops hop (ihr.tighter hplace))
  | conditional hq hcolon _ _ _ ih ihx ihy =>
    exact reads_conditional hg hq hcolon (Loops.infixes (by decide : 0 < 7) ih.2) ihx ihy
  | assign hop htarget _ _ ihl ihr =>
    exact reads_assign hg hop htarget (Loops.infixes (by decide : 0 < 7) ihl.2).conditional ihr
  | loosen _ ih => exact ih.loosen

/-- **The parser reads every phrase as the expression it stands for.** -/
theorem Phrase.reads (hg : Unfolds source gs) (h : Phrase source 0 e ts) :
    Reads gs assignment 1 e ts := h.understood hg

end

/-! ## Programs -/

theorem item_expression (h : startsPhrase s.here.kind = true) :
    item g s = expressionStatement g s := by
  have hstatement : statement g s = expressionStatement g s := by
    refine bind_current.trans ?_
    generalize s.here.kind = k at h
    cases k with
    | keyword k => cases k <;> first | rfl | cases h
    | sign x => cases x <;> first | rfl | cases h
    | _ => rfl
  refine bind_current.trans ?_
  generalize s.here.kind = k at h
  cases k with
  | keyword k => cases k <;> first | exact hstatement | cases h
  | _ => exact hstatement

theorem expressionStatement_run (h : assignment g s = .ok (e, s'))
    (hend : s'.here.kind = .sign .semicolon) :
    expressionStatement g s = .ok (.expression ⟨s'.advance.nextNode, ⟨s.here.start,
      s'.advance.lastEnd⟩⟩ e, numbered s'.advance) := by
  refine bind_current.trans ((bind_run h).trans ?_)
  have hsemicolon : semicolon s' = .ok ((), s'.advance) := (bind_run (accept_run hend)).trans rfl
  exact (bind_run hsemicolon).trans rfl

theorem items_run {x : Stmt} {n : Nat} (h : item g s = .ok (x, s'))
    (hfirst : s.here.kind ≠ .endOfFile) (hend : s'.here.kind = .endOfFile) :
    items g (n + 2) s = .ok ([x], s') := by
  have hrest : items g (n + 1) s' = .ok ([], s') := by
    refine bind_atKind.trans ?_
    rw [decide_eq_true hend]
    rfl
  refine bind_atKind.trans ?_
  rw [decide_eq_false hfirst]
  exact (bind_run h).trans ((bind_run hrest).trans rfl)

end Parser

open Winnow.Parser

/-- **A phrase with a semicolon behind it is parsed as a program of one statement.** -/
theorem Program.parse_phrase {mark eof : Token} (htokens : Lexer.tokens source = ts ++ [mark, eof])
    (h : Phrase source 0 e ts) (hmark : mark.kind = .sign .semicolon) (heof : eof.kind = .endOfFile)
    (module : Option ModuleId) (defaultName : Bytes) (symbols : Symbols) (next : NodeId) :
    ∃ p i e', Program.parse source module defaultName symbols next = .ok p ∧
      p.program.body = [.expression i e'] ∧ e'.bare = e.bare := by
  obtain ⟨t, us, rfl, ht⟩ := h.start
  have hno : ∀ u ∈ t :: us ++ [mark, eof], u.kind ≠ .sign .arrow := by
    simp only [List.forall_mem_append, List.forall_mem_cons, hmark, heof]
    exact ⟨List.forall_mem_cons.mp h.noArrow, nofun, nofun, List.forall_mem_nil _⟩
  have hreads := h.reads (unfolds_unfold source module defaultName)
  unfold Program.parse
  simp only [htokens]
  generalize hs : (ParserState.mk _ _ _ _ _ _ _ _) = s
  have hbefore : Parser.Before s (t :: us) [mark, eof] (t :: us ++ [mark, eof]).length := by
    subst hs
    exact ⟨rfl, nofun, hno, Nat.le_succ _⟩
  obtain ⟨e', s', hrun, hbare, hs'⟩ := hreads _ s mark [eof] hbefore (by rw [hmark]; decide)
  have hlast : s'.advance.tokens = [eof] := tokens_advance hs' nofun
  have hend : (numbered s'.advance).here.kind = .endOfFile := by
    rw [← heof, ← (List.cons.inj hlast).1]
    rfl
  have hfirst : s.here.kind ≠ .endOfFile := by
    rw [hbefore.here]
    rintro hkind
    rw [hkind] at ht
    cases ht
  have hitem := (item_expression (by rw [hbefore.here, ht])).trans
    (expressionStatement_run hrun (by rw [(List.cons.inj hs').1, hmark]))
  have hitems : items _ ((t :: us ++ [mark, eof]).length + 1) s = _ := items_run hitem hfirst hend
  rw [StateT.run, hitems]
  exact ⟨_, _, _, rfl, rfl, hbare⟩

end Winnow
