import Winnow.Proofs.Lexing
import Winnow.Proofs.Nodes
import Winnow.Syntax.Parser.Module

/-!
# What parsers build

A parser reads tokens, numbers a node over the outlines it has built so far, declares a name, or
opens a scope and builds on the inside. `Builds` says this of the states before and after; what its
steps keep holds of every module that is parsed. Where a construct stands decides on what it may do:
expressions declare nothing outside of themselves, statements declare names in the scope they stand
in or in the nearest one that is no block, and members of a class stand in the scopes of the class.

The nodes of a construct have ranges one behind the other, up to the last token that was consumed
(`Spread`, `Moved`). Loops and calls of the grammar stand behind a token, so with as many steps as
there are tokens none of them runs out. `Yields` says all this of a parser that goes on from a stage
of a construct; every other run ends with a fault at a place in the source (`Meets`).
-/

namespace Winnow

open Outline Symbols Lexer

variable {s s' s1 : ParserState} {declared own : Option Binder} {isDeclaration : Bool}
  {kind : FunctionKind} {c : Prop} {α : Type} {source : Bytes} {t name : Token} {n : Node} {d : Nat}

/-! ## States -/

def ParserState.tokens (s : ParserState) : List Token := s.here :: s.ahead

/-- Two states differ at most in what was read. -/
structure ParserState.Agrees (s s' : ParserState) : Prop where
  scope : s'.scope = s.scope
  nextNode : s'.nextNode = s.nextNode
  symbols : s'.symbols = s.symbols
  returns : s'.returns = s.returns

theorem ParserState.Agrees.refl (s : ParserState) : s.Agrees s := ⟨rfl, rfl, rfl, rfl⟩

theorem ParserState.Agrees.trans {s2 : ParserState} (h : s.Agrees s1) (h' : s1.Agrees s2) :
    s.Agrees s2 :=
  ⟨h'.scope.trans h.scope, h'.nextNode.trans h.nextNode, h'.symbols.trans h.symbols,
    h'.returns.trans h.returns⟩

theorem Symbols.instanceScope_addClassScope (t : Symbols) (parent : ScopeId)
    (definition : NodeId) (module : Option ModuleId) :
    ((t.addClassScope parent definition module).2.scope? t.scopes.size).bind Scope.instanceScope =
      some (t.scopes.size + 1) := by
  simp only [addClassScope, addScope, addReceiver, enter,
    addVariable, modifyScope, scope?, Array.getElem?_modify,
    Array.getElem?_push]
  by_cases h : parent = t.scopes.size <;> simp [h]

/-! ## What is left of a source -/

namespace Lexer

theorem isLast_iff {front ts : List Token}
    (h : tokens source = front ++ t :: ts) : t.kind.isLast = true ↔ ts = [] := by
  obtain ⟨init, last, heq, hlast, hinit⟩ := (tokensFrom_cut 0 source).last
  replace heq := h.symm.trans heq
  rcases List.eq_nil_or_concat ts with rfl | ⟨ts, u, rfl⟩
  · obtain ⟨-, rfl⟩ := List.append_singleton_inj.mp heq
    simp [hlast]
  · rw [List.concat_eq_append, ← List.cons_append, ← List.append_assoc] at heq
    obtain ⟨rfl, -⟩ := List.append_singleton_inj.mp heq
    simp [hinit t (by simp)]

theorem space_mem_of_error {b : UInt8} {s : Bytes} (h : (lexeme b s).kind = .error) :
    32 ∈ (lexeme b s).value := by
  revert h
  unfold lexeme name number string malformed
  dsimp only
  repeat' split
  all_goals
    intro h
    cases h
  · exact List.mem_append_left _ (by decide)
  all_goals
    dsimp only
    decide

theorem value_of_isLast (offset : Nat) (s : Bytes) : ∀ t ∈ tokensFrom offset s,
    t.kind.isLast = true → t.value = [] ∨ 32 ∈ t.value := by
  induction hn : s.length using Nat.strongRecOn generalizing s offset with
  | ind n ih =>
    cases hdrop : s.drop (gap s).1 with
    | nil =>
      rw [tokensFrom_end offset hdrop, List.forall_mem_singleton]
      exact fun _ => .inl rfl
    | cons b rest =>
      rw [tokensFrom_lexeme offset hdrop]
      split
      · next herror =>
        exact List.forall_mem_singleton.mpr fun _ => .inr (space_mem_of_error herror)
      · next hkind =>
        refine List.forall_mem_cons.mpr ⟨fun hlast => ?_, ih _ ?_ _ _ rfl⟩
        · have hfalse := (lexeme_fits b rest).isLast_eq_false hkind
          exact absurd hlast (by rw [tokenAt, hfalse]; exact Bool.false_ne_true)
        · have hlengths := congrArg List.length hdrop
          rw [List.length_drop, List.length_cons] at hlengths
          rw [List.length_drop]
          omega

theorem isLast_of_isName (h : t ∈ tokens source)
    (hname : t.isName = true) : t.kind.isLast = false := by
  have hkeywords : ∀ k : Keyword, utf8 k.text ≠ [] ∧ 32 ∉ utf8 k.text := by
    intro k
    cases k <;> decide
  refine Bool.eq_false_iff.mpr fun hlast => ?_
  rcases Bool.or_eq_true_iff.mp hname with hkind | hkeyword
  · rw [beq_iff_eq.mp hkind] at hlast
    cases hlast
  · obtain ⟨k, hk⟩ := Option.isSome_iff_exists.mp hkeyword
    obtain ⟨hnil, hspace⟩ := hkeywords k
    rw [show utf8 k.text = t.value by simpa using List.find?_some hk] at hnil hspace
    exact (value_of_isLast 0 source t h hlast).elim hnil hspace

end Lexer

structure ModuleText where
  source : Bytes
  module : Option ModuleId

/-- The tokens that are left of a source, behind the end of what was consumed. -/
structure Left (o : ModuleText) (ts : List Token) (lastEnd : Nat) : Prop where
  suffix : ts <:+ Lexer.tokens o.source
  behind : ∀ t ∈ ts, lastEnd ≤ t.start

theorem nonempty_of_mem (h : t ∈ tokens source)
    (ht : t.kind.isLast = false) : t.start < t.stop := by
  refine ((tokensFrom_cut 0 source).range t h).2.2.2.1 fun hkind => ?_
  rw [hkind] at ht
  cases ht

namespace Left

variable {o : ModuleText} {t u : Token} {ts us : List Token} {lastEnd : Nat}

theorem mem (h : Left o (t :: ts) lastEnd) : t ∈ tokens o.source :=
  h.suffix.subset List.mem_cons_self

theorem start_le (h : t ∈ tokens o.source) : t.start ≤ o.source.length := by
  have hrange := (tokensFrom_cut 0 o.source).range t h
  omega

theorem isLast_iff (h : Left o (t :: ts) lastEnd) : t.kind.isLast = true ↔ ts = [] := by
  obtain ⟨front, hfront⟩ := h.suffix
  exact Lexer.isLast_iff hfront.symm

theorem next (h : Left o (t :: u :: us) lastEnd) : Left o (u :: us) t.stop := by
  refine ⟨(List.suffix_cons t _).trans h.suffix, ?_⟩
  have hordered := (tokensFrom_cut 0 o.source).ordered.sublist h.suffix.sublist
  exact (List.pairwise_cons.mp hordered).1

end Left

namespace ParserState

/-- A state is reached by reading on. -/
structure Reaches (o : ModuleText) (s s' : ParserState) : Prop where
  agrees : s.Agrees s'
  left : Left o s'.tokens s'.lastEnd
  fewer : s'.tokens.length ≤ s.tokens.length
  lastEnd : s.lastEnd ≤ s'.lastEnd

/-- A state is reached by reading on, the token at hand at least. -/
structure Passes (o : ModuleText) (s s' : ParserState) : Prop extends Reaches o s s' where
  shorter : s'.tokens.length < s.tokens.length
  nonempty : s.here.start < s.here.stop
  stop : s.here.stop ≤ s'.lastEnd

variable {o : ModuleText} {s2 : ParserState}

theorem Reaches.refl (h : Left o s.tokens s.lastEnd) : s.Reaches o s :=
  ⟨.refl s, h, Nat.le_refl _, Nat.le_refl _⟩

theorem Reaches.trans (h : s.Reaches o s1) (h' : s1.Reaches o s2) : s.Reaches o s2 :=
  ⟨h.agrees.trans h'.agrees, h'.left, Nat.le_trans h'.fewer h.fewer,
    Nat.le_trans h.lastEnd h'.lastEnd⟩

theorem Passes.trans (h : s.Passes o s1) (h' : s1.Reaches o s2) : s.Passes o s2 :=
  ⟨h.toReaches.trans h', Nat.lt_of_le_of_lt h'.fewer h.shorter, h.nonempty,
    Nat.le_trans h.stop h'.lastEnd⟩

theorem Passes.advance (h : Left o s.tokens s.lastEnd) (hkind : s.here.kind.isLast = false) :
    s.Passes o s.advance := by
  have hlt := nonempty_of_mem h.mem hkind
  have hstart := h.behind s.here List.mem_cons_self
  obtain ⟨here, ahead, lastEnd, scope, returns, imports, symbols, nextNode⟩ := s
  cases ahead with
  | nil =>
    rw [h.isLast_iff.mpr rfl] at hkind
    cases hkind
  | cons u us =>
    refine ⟨⟨⟨rfl, rfl, rfl, rfl⟩, h.next, Nat.le_succ _, ?_⟩, Nat.lt_succ_self _, hlt, Nat.le_refl _⟩
    exact Nat.le_trans hstart (Nat.le_of_lt hlt)

theorem Reaches.advance (h : Left o s.tokens s.lastEnd) : s.Reaches o s.advance := by
  cases hkind : s.here.kind.isLast with
  | false => exact (Passes.advance h hkind).toReaches
  | true =>
    have hahead := h.isLast_iff.mp hkind
    rw [ParserState.advance, hahead]
    exact .refl h

end ParserState

/-! ## Runs -/

namespace Parser

/-- A run ends as asked, or with a fault at a place in the source that is not the depth. -/
inductive Outcome {α : Type} (o : ModuleText) (goal : α → ParserState → Prop) :
    Except SyntaxError (α × ParserState) → Prop
  | ok {a s} : goal a s → Outcome o goal (.ok (a, s))
  | error {e} : e.fault ≠ .tooDeep → e.position ≤ o.source.length → Outcome o goal (.error e)

def Meets {α : Type} (o : ModuleText) (p : Parser α) (s : ParserState)
    (goal : α → ParserState → Prop) : Prop := Outcome o goal (p s)

namespace Meets

variable {α β : Type} {o : ModuleText} {p : Parser α} {q : α → Parser β} {a : α}
  {goal : α → ParserState → Prop} {goal' : β → ParserState → Prop} {fault : SyntaxFault}

theorem bind' (hp : Meets o p s goal) (hq : ∀ a s', goal a s' → Meets o (q a) s' goal') :
    Meets o (p >>= q) s goal' := by
  show Outcome o goal' (p s >>= fun r => q r.1 r.2)
  unfold Meets at hp
  generalize p s = r at hp
  cases hp with
  | ok h => exact hq _ _ h
  | error hfault hposition => exact .error hfault hposition

theorem step (hp : p s = .ok (a, s')) (hq : Meets o (q a) s' goal') :
    Meets o (p >>= q) s goal' := by
  show Outcome o goal' (p s >>= fun r => q r.1 r.2)
  rw [hp]
  exact hq

theorem map' {f : α → β} (hp : Meets o p s fun a s' => goal' (f a) s') :
    Meets o (f <$> p) s goal' := by
  exact hp.bind' fun _ _ h => .ok h

theorem map_bind {γ : Type} {f : α → γ} {q : γ → Parser β} (hp : Meets o p s goal)
    (hq : ∀ a s', goal a s' → Meets o (q (f a)) s' goal') : Meets o (f <$> p >>= q) s goal' := by
  rw [map_eq_pure_bind, bind_assoc]
  exact hp.bind' hq

theorem imp {goal' : α → ParserState → Prop} (hp : Meets o p s goal)
    (h : ∀ a s', goal a s' → goal' a s') : Meets o p s goal' := by
  have hbind := hp.bind' (q := pure) fun a s' ha => .ok (h a s' ha)
  rwa [bind_pure] at hbind

theorem ite' [Decidable c] {q : Parser α} (hp : c → Meets o p s goal)
    (hq : ¬ c → Meets o q s goal) : Meets o (if c then p else q) s goal := by
  split
  · exact hp ‹c›
  · exact hq ‹¬ c›

theorem symbols_bind {f : Symbols → α × Symbols}
    (hq : Meets o (q (f s.symbols).1) { s with symbols := (f s.symbols).2 } goal') :
    Meets o (withSymbols f >>= q) s goal' := hq

theorem inScope' {scope : ScopeId}
    (hp : Meets o p { s with scope } fun a s' => goal a { s' with scope := s.scope }) :
    Meets o (inScope scope p) s goal :=
  step rfl (step rfl (hp.bind' fun _ _ h => .ok h))

theorem inScope_bind {scope : ScopeId} (hp : Meets o p { s with scope } goal)
    (hq : ∀ a s', goal a s' → Meets o (q a) { s' with scope := s.scope } goal') :
    Meets o (inScope scope p >>= q) s goal' := by
  have h : Meets o (inScope scope p) s fun a s' => ∃ s1, goal a s1 ∧
      s' = { s1 with scope := s.scope } := inScope' (hp.imp fun _ s1 h => ⟨s1, h, rfl⟩)
  refine h.bind' ?_
  rintro a _ ⟨s1, h, rfl⟩
  exact hq a s1 h

theorem fail' (hs : Left o s.tokens s.lastEnd) (hfault : fault ≠ .tooDeep) :
    Meets o (fail fault) s goal := .error hfault (Left.start_le hs.mem)

theorem unexpected' (hs : Left o s.tokens s.lastEnd) (what : Bytes) :
    Meets o (unexpected what) s goal :=
  step rfl (ite' (fun _ => fail' hs nofun) fun _ => fail' hs nofun)

theorem fail_bind (hs : Left o s.tokens s.lastEnd) (hfault : fault ≠ .tooDeep) :
    Meets o (fail fault >>= q) s goal' := by
  have h : Meets o (fail fault : Parser α) s fun _ _ => False := fail' hs hfault
  exact h.bind' fun _ _ h => h.elim

theorem unexpected_bind (hs : Left o s.tokens s.lastEnd) (what : Bytes) :
    Meets o (unexpected what >>= q) s goal' := by
  have h : Meets o (unexpected what : Parser α) s fun _ _ => False := unexpected' hs what
  exact h.bind' fun _ _ h => h.elim

end Meets

/-! ## Parsers that only read -/

/-- A parser reads on, but makes no nodes and leaves scope and symbols as they are. -/
def Still {α : Type} (o : ModuleText) (p : Parser α) (R : α → Prop := fun _ => True) : Prop :=
  ∀ s, Left o s.tokens s.lastEnd → Meets o p s fun a s' => R a ∧ s.Reaches o s'

/-- A parser reads on from a token, and consumes it. -/
def Eats {α : Type} (o : ModuleText) (t : Token) (p : Parser α) (R : α → Prop := fun _ => True) :
    Prop :=
  ∀ s, s.here = t → Left o s.tokens s.lastEnd → Meets o p s fun a s' => R a ∧ s.Passes o s'

namespace Eats

variable {α β : Type} {o : ModuleText} {t : Token} {p : Parser α} {q : α → Parser β}
  {R : α → Prop} {R' : β → Prop}

theorem still (h : ∀ t, Eats o t p R) : Still o p R := fun s hs =>
  (h s.here s rfl hs).imp fun _ _ h => ⟨h.1, h.2.toReaches⟩

theorem bind' (hp : Eats o t p R) (hq : ∀ a, R a → Still o (q a) R') : Eats o t (p >>= q) R' :=
  fun s ht hs => (hp s ht hs).bind' fun a s1 h1 =>
    (hq a h1.1 s1 h1.2.left).imp fun _ _ h2 => ⟨h2.1, h1.2.trans h2.2⟩

theorem advance' (ht : t.kind.isLast = false) : Eats o t advance (· = t) := by
  rintro s rfl hs
  exact .ok ⟨rfl, .advance hs ht⟩

theorem expect' (k : TokenKind) (hk : k.isLast = false) :
    Eats o t (expect k) fun u => u = t ∧ u ∈ tokens o.source ∧ u.kind = k := by
  rintro s rfl hs
  refine .ite' (fun h => ?_) fun _ => .unexpected' hs _
  have hkind : s.here.kind = k := of_decide_eq_true h
  exact .ok ⟨⟨rfl, hs.mem, hkind⟩, .advance hs (by rw [hkind, hk])⟩

theorem expectSign' (x : Sign) : Eats o t (expectSign x) :=
  bind' (expect' _ rfl) fun _ _ => fun _ hs => .ok ⟨trivial, .refl hs⟩

theorem propertyKey' : Eats o t propertyKey := by
  rintro s rfl hs
  have hpass : s.here.kind.isLast = false → ∀ r : Bytes × Bool, Meets o (do
      let _ ← advance
      return r) s fun _ s' => True ∧ s.Passes o s' := fun h r => .ok ⟨trivial, .advance hs h⟩
  refine .step rfl (.ite' (fun h => hpass (by rw [h]; rfl) _) fun _ => ?_)
  refine .ite' (fun h => hpass (by rw [h]; rfl) _) fun _ => ?_
  exact .ite' (fun h => hpass (isLast_of_isName hs.mem h) _) fun _ => .unexpected' hs _

end Eats

/-- A parser consumes the token at hand or leaves it, and says which. -/
def Takes (o : ModuleText) (p : Parser Bool) : Prop := ∀ s, Left o s.tokens s.lastEnd →
  Meets o p s fun b s' => b = true ∧ s.Passes o s' ∨ b = false ∧ s' = s

theorem Takes.accept' {o : ModuleText} (x : Sign) : Takes o (accept x) := fun _ hs =>
  .step rfl (.ite' (fun h => .ok (.inl ⟨rfl, .advance hs (by rw [of_decide_eq_true h]; rfl)⟩))
    fun _ => .ok (.inr ⟨rfl, rfl⟩))

theorem Takes.acceptWord' {o : ModuleText} (w : String) : Takes o (acceptWord w) := fun _ hs =>
  .step rfl (.ite' (fun h => .ok (.inl ⟨rfl, .advance hs (by rw [(of_decide_eq_true h).1]; rfl)⟩))
    fun _ => .ok (.inr ⟨rfl, rfl⟩))

/-- What every item of a list and every comma keeps, the whole list keeps. -/
theorem Meets.itemsUntil' {o : ModuleText} {item : Parser α} {close : Sign} (I : List α → ParserState → Prop)
    (hleft : ∀ {xs s}, I xs s → Left o s.tokens s.lastEnd)
    (hitem : ∀ xs s, I xs s →
      Meets o item s fun x s' => I (xs ++ [x]) s' ∧ s'.tokens.length ≤ s.tokens.length)
    (hreads : ∀ {xs s s'}, I xs s → s.Reaches o s' → I xs s') (n : Nat) :
    ∀ xs s, I xs s → s.tokens.length ≤ n →
      Meets o (itemsUntil close item n) s fun ys s' => I (xs ++ ys) s' := by
  induction n with
  | zero => exact fun _ _ _ h => absurd h (Nat.not_succ_le_zero _)
  | succ n ih =>
    intro xs s hxs hn
    refine .step rfl (.ite' (fun _ => .ok (by rwa [List.append_nil])) fun _ => ?_)
    refine (hitem xs s hxs).bind' ?_
    rintro x s1 ⟨hx, hle⟩
    refine (Takes.accept' .comma s1 (hleft hx)).bind' ?_
    rintro _ s2 (⟨rfl, h2⟩ | ⟨rfl, rfl⟩)
    · have hfewer := h2.shorter
      refine (ih (xs ++ [x]) s2 (hreads hx h2.toReaches) (by omega)).bind' fun ys s3 hys => .ok ?_
      rwa [List.append_assoc] at hys
    · exact .ok hx

namespace Still

variable {α β : Type} {o : ModuleText} {p : Parser α} {q : α → Parser β} {R : α → Prop}
  {R' : β → Prop} {fault : SyntaxFault}

theorem pure' {a : α} (h : R a) : Still o (pure a) R := fun _ hs => .ok ⟨h, .refl hs⟩

theorem bind' (hp : Still o p R) (hq : ∀ a, R a → Still o (q a) R') : Still o (p >>= q) R' :=
  fun s hs => (hp s hs).bind' fun a s1 h1 =>
    (hq a h1.1 s1 h1.2.left).imp fun _ _ h2 => ⟨h2.1, h1.2.trans h2.2⟩

theorem ite' [Decidable c] {q : Parser α} (hp : c → Still o p R) (hq : ¬ c → Still o q R) :
    Still o (if c then p else q) R := by
  split
  · exact hp ‹c›
  · exact hq ‹¬ c›

theorem any (hp : Still o p R) : Still o p := fun s hs => (hp s hs).imp fun _ _ h => ⟨trivial, h.2⟩

theorem map' {f : α → β} (hp : Still o p R) : Still o (f <$> p) := by
  exact bind' hp fun _ _ => pure' trivial

theorem current' : Still o current (· ∈ tokens o.source) := fun _ hs => .ok ⟨hs.mem, .refl hs⟩

theorem unexpected' (what : Bytes) : Still o (unexpected what : Parser α) R := fun _ hs =>
  .unexpected' hs what

theorem advance' : Still o advance (· ∈ tokens o.source) := fun _ hs =>
  .ok ⟨hs.mem, .advance hs⟩

theorem of_takes {p : Parser Bool} (h : Takes o p) : Still o p := by
  refine fun s hs => (h s hs).imp ?_
  rintro _ _ (⟨rfl, h⟩ | ⟨rfl, rfl⟩)
  · exact ⟨trivial, h.toReaches⟩
  · exact ⟨trivial, .refl hs⟩

theorem accept' (x : Sign) : Still o (accept x) := of_takes (.accept' x)

theorem acceptWord' (w : String) : Still o (acceptWord w) := of_takes (.acceptWord' w)

theorem expect' (k : TokenKind) (hk : k.isLast = false) :
    Still o (expect k) fun t => t ∈ tokens o.source ∧ t.kind = k :=
  fun s hs => (Eats.expect' k hk s rfl hs).imp fun _ _ h => ⟨h.1.2, h.2.toReaches⟩

theorem expectSign' (x : Sign) : Still o (expectSign x) := Eats.still fun _ => .expectSign' x

theorem expectWord' (w : String) : Still o (expectWord w) :=
  bind' (acceptWord' w) fun _ _ => ite' (fun _ => unexpected' _) fun _ => pure' trivial

theorem semicolon' : Still o semicolon :=
  bind' (accept' _) fun _ _ => ite' (fun _ => bind' current' fun _ _ =>
    ite' (fun _ => unexpected' _) fun _ => pure' trivial) fun _ => pure' trivial

theorem fromSource' : Still o fromSource :=
  bind' (expectWord' _) fun _ _ => bind' (expect' _ rfl) fun _ _ => pure' trivial

theorem exportName' : Still o exportName (· ∈ tokens o.source) :=
  bind' current' fun _ _ => ite' (fun _ => advance') fun _ => unexpected' _

theorem addImport' (imported : Bytes) (h : name ∈ tokens o.source) :
    Still o (addImport imported name) := by
  intro s hs
  refine .step rfl (.ite' (fun _ => .error nofun (Left.start_le h)) fun _ => ?_)
  exact .ok ⟨trivial, ⟨rfl, rfl, rfl, rfl⟩, hs, Nat.le_refl _, Nat.le_refl _⟩

theorem listUntil' {item : Parser α} (close : Sign) (h : Still o item R) :
    Still o (listUntil close item) fun xs => ∀ x ∈ xs, R x := by
  intro s hs
  refine .step rfl ((Meets.itemsUntil'
    (fun xs s' => (∀ x ∈ xs, R x) ∧ s.Reaches o s') (fun h => h.2.left) ?_
    (fun h h' => ⟨h.1, h.2.trans h'⟩) _ [] s ⟨by simp, .refl hs⟩ (Nat.le_refl _)).bind'
      fun xs s1 h1 => (expectSign' close s1 h1.2.left).bind' fun _ _ h2 =>
        .ok ⟨h1.1, h1.2.trans h2.2⟩)
  rintro xs s1 ⟨hxs, h1⟩
  refine (h s1 h1.left).imp fun x s2 h2 => ⟨⟨?_, h1.trans h2.2⟩, h2.2.fewer⟩
  simpa [or_imp, forall_and] using ⟨hxs, h2.1⟩

end Still

end Parser

/-! ## Tokens and nodes -/

def Node.return? : Node → Option (Info × Option Expr)
  | stmt (.ret i argument) => some (i, argument)
  | _ => none

/-- What a node makes of the return statements below it. A function keeps them to itself, and in the
argument of a return statement there are none. -/
def Node.returns (below : List (Info × Option Expr)) : Node → List (Info × Option Expr)
  | expr (.function _) => []
  | stmt (.ret i argument) => [(i, argument)]
  | _ => below

namespace Outline

mutual

/-- The return statements of a construct in the order of the source, without those of the functions
in it. -/
def returns : Outline → List (Info × Option Expr)
  | mk n os => n.returns (returnsAll os)

def returnsAll : List Outline → List (Info × Option Expr)
  | [] => []
  | o :: os => o.returns ++ returnsAll os

end

theorem returnsAll_eq (os : List Outline) : returnsAll os = os.flatMap returns := by
  induction os with
  | nil => rfl
  | cons o os ih => rw [returnsAll, ih, List.flatMap_cons]

theorem returnsAll_singleton (o : Outline) : returnsAll [o] = o.returns := List.append_nil _

theorem returnsAll_append (os os' : List Outline) :
    returnsAll (os ++ os') = returnsAll os ++ returnsAll os' := by
  simp [returnsAll_eq]

theorem returnsAll_binders (bs : List Binder) : returnsAll (bs.map .ofBinder) = [] := by
  induction bs with
  | nil => rfl
  | cons b bs ih => exact ih

end Outline

/-- Some return statements lie one behind the other. -/
def InOrder (rs : List (Info × Option Expr)) : Prop :=
  rs.Pairwise fun r r' => r.1.span.stop ≤ r'.1.span.start

/-- Some numbers are those of the return statements of a function body, in the order of the source. -/
def FuncBody.Lists (ids : List NodeId) (b : FuncBody) : Prop :=
  ids = (Outline.ofBody b).returns.map (fun r => r.1.id) ∧ InOrder (Outline.ofBody b).returns

/-- A token of its source, or one that stands for the end of it. -/
def ModuleText.Has (o : ModuleText) (t : Token) : Prop := t ∈ Lexer.tokens o.source ∨ t.kind = .endOfFile

def Token.literal? (t : Token) : Option Value :=
  match t.kind with
  | .number => some (.number (Number.parse t.value))
  | .string => some (.string t.value)
  | .keyword .trueKw => some (.bool true)
  | .keyword .falseKw => some (.bool false)
  | .keyword .nullKw => some .null
  | _ => none

namespace Node

/-- Names and literals are what the tokens of the source say, only targets are assigned to, and
functions list their return statements. -/
def Read (o : ModuleText) : Node → Prop
  | expr (.ident n) => ∃ t, o.Has t ∧ t.kind = .identifier ∧ n.name = t.value
  | expr (.literal _ v raw) => ∃ t, o.Has t ∧ t.literal? = some v ∧ raw = t.text o.source
  | expr (.member _ _ name) => ∃ t, o.Has t ∧ t.isName = true ∧ name = t.value
  | expr (.assign _ _ target _) => Parser.isTarget target = true
  | expr (.function f) => f.body.Lists f.returns
  | _ => True

def scope? : Node → Option ScopeId
  | expr (.ident n) => some n.scope
  | expr (.receiver _ s) => some s
  | _ => none

def isExpr : Node → Bool
  | expr _ => true
  | _ => false

/-- Whether a node declares nothing, and opens no scope unless it is a block. -/
def isSimple : Node → Bool
  | binder _ | program _ => false
  | expr (.function _) | expr (.classDef _) | stmt (.exportDefault ..) => false
  | _ => true

end Node

/-- The variable that a function or class declares around itself. -/
def Expr.declaredVar? : Expr → Option VarId
  | .function f => if f.kind = .declaration then f.name?.map Binder.var else none
  | .classDef c => if c.isDeclaration = true then c.name?.map Binder.var else none
  | _ => none

/-! ## Steps -/

/-- Where a construct stands: inside an expression, among statements, among the items of a module,
inside a function, in a declaration of names of one scope, or among the members of a class with a
body and an instance scope. -/
inductive Setting where
  | expression
  | statement
  | item
  | inside
  | declaring (scope : ScopeId)
  | members (body inner : ScopeId)

/-- The scopes that a declaration may enter names into. -/
def Setting.Admits (s : ParserState) (scope : ScopeId) : Setting → Prop
  | statement | inside => scope = s.scope ∨ scope = s.symbols.hoistScope s.scope
  | members body _ => scope = body
  | expression | item | declaring _ => False

/-- What becomes of the lists of return statements while some more are read: they go into the list of
the function at hand, unless they stand inside another one. -/
def Setting.Tallies (new : List (Info × Option Expr)) (lists lists' : List (List NodeId)) :
    Setting → Prop
  | statement | item => lists' = lists.modifyHead ((new.map fun r => r.1.id).reverse ++ ·)
  | inside => lists' = lists
  | expression | declaring _ | members .. => new = [] ∧ lists' = lists

namespace Setting.Tallies

variable {setting : Setting} {new new' : List (Info × Option Expr)}
  {lists lists' lists'' : List (List NodeId)}

theorem within (h : new = [] ∧ lists' = lists) : setting.Tallies new lists lists' := by
  obtain ⟨rfl, rfl⟩ := h
  cases setting with
  | statement | item => cases lists' <;> rfl
  | inside => rfl
  | _ => exact ⟨rfl, rfl⟩

theorem trans (h : setting.Tallies new lists lists') (h' : setting.Tallies new' lists' lists'') :
    setting.Tallies (new ++ new') lists lists'' := by
  cases setting with
  | statement | item =>
    cases h
    cases h'
    cases lists <;> simp [Tallies]
  | inside => exact Eq.trans h' h
  | _ => exact ⟨by rw [h.1, h'.1]; rfl, h'.2.trans h.2⟩

end Setting.Tallies

/-- A node with the given number and range is a simple one and no return statement, fits where it
stands, and looks up no name. -/
def Node.Sits (o : ModuleText) (setting : Setting) (i : Info) (n : Node) : Prop :=
  (n.isSimple && n.return?.isNone) = true ∧ n.info = i ∧
    (setting = .expression ∨ n.isExpr = false) ∧ n.Read o ∧ n.scope? = none

/-- What a parser builds on its way from one state to another, if it goes on from some outlines. -/
inductive Builds (o : ModuleText) :
    Setting → ParserState → List Outline → ParserState → List Outline → Prop
  | reads {setting s s' acc} : s.Agrees s' → Builds o setting s acc s' acc
  | next {setting s s₁ s₂ a b c} : Builds o setting s a s₁ b → Builds o setting s₁ b s₂ c →
    Builds o setting s a s₂ c
  | apart {setting s s' acc os} : Builds o setting s [] s' os → Builds o setting s acc s' (acc ++ os)
  | expression {setting s s' acc os} : Builds o .expression s [] s' os →
    Builds o setting s acc s' (acc ++ os)
  | statement {s s' acc os} : Builds o .statement s [] s' os → Builds o .item s acc s' (acc ++ os)
  /-- It builds the body of a function, with any list for the return statements in there. -/
  | body {s s' acc os lists} : Builds o .statement { s with returns := lists } [] s' os →
    Builds o .inside s acc { s' with returns := s.returns } (acc ++ os)
  | declaring {setting s s' acc os scope} : setting.Admits s scope →
    Builds o (.declaring scope) s [] s' os → Builds o setting s acc s' (acc ++ os)
  /-- It numbers a node, with what it has below. -/
  | node {setting s acc n returns} : n.isSimple = true → n.id = s.nextNode →
    (setting = .expression ∨ n.isExpr = false) → n.Read o →
    (∀ scope, n.scope? = some scope → scope = s.scope) →
    Outline.returnsAll [.mk n acc] = Outline.returnsAll acc ++ n.return?.toList →
    setting.Tallies n.return?.toList s.returns returns →
    Builds o setting s acc { s with nextNode := s.nextNode + 1, returns } [.mk n acc]
  /-- It declares a name, in front of what it has. -/
  | binder {s acc scope info name kind init} : kind ≠ .classReceiver → info.id = s.nextNode →
    Builds o (.declaring scope) s acc
      { s with
        nextNode := s.nextNode + 1
        symbols := (s.symbols.declare scope name kind s.nextNode init o.module).2.2 }
      (.ofBinder { info, name, scope := s.scope
                   var := (s.symbols.declare scope name kind s.nextNode init o.module).1 } :: acc)
  /-- It builds the statements of a block in a scope of their own. -/
  | block {s s₁ i ss os} :
    Builds o .statement
      { s with
        symbols := (s.symbols.addScope .block s.scope o.module).2
        scope := s.symbols.scopes.size } [] s₁ os →
    i.id = s₁.nextNode →
    Builds o .statement s [] { s₁ with scope := s.scope, nextNode := s₁.nextNode + 1 }
      [.mk (.stmt (.block i ss)) os]
  /-- It numbers a function, may declare its name, and builds the rest in the function's scope. -/
  | function {setting s s₁ s₂ f isArrow os} (name : Option Binder) : f.info.id = s.nextNode →
    (f.kind = .declaration → f.name? = name) → f.body.Lists f.returns →
    Builds o setting { s with nextNode := s.nextNode + 1 } [] s₁ (name.toList.map .ofBinder) →
    Builds o .inside
      { s₁ with
        symbols := (s₁.symbols.addFunctionScope s.scope isArrow o.module).2
        scope := s₁.symbols.scopes.size } (name.toList.map .ofBinder) s₂ os →
    Builds o setting s [] { s₂ with scope := s.scope } [.mk (.expr (.function f)) os]
  /-- It numbers a class, builds what comes before its body, may declare its name in there, and
  builds its members. -/
  | classDef {setting s s₁ s₂ s₃ c front members} (name : Option Binder) :
    c.info.id = s.nextNode →
    (c.isDeclaration = true → ∃ base, front = c.name?.toList.map .ofBinder ++ base) →
    Builds o setting { s with nextNode := s.nextNode + 1 } [] s₁ front →
    Builds o (.members s₁.symbols.scopes.size (s₁.symbols.scopes.size + 1))
      { s₁ with symbols := (s₁.symbols.addClassScope s.scope s.nextNode o.module).2 } [] s₂
      (name.toList.map .ofBinder) →
    Builds o (.members s₁.symbols.scopes.size (s₁.symbols.scopes.size + 1)) s₂ [] s₃ members →
    Builds o setting s [] s₃
      [.mk (.expr (.classDef c)) (name.toList.map .ofBinder ++ front ++ members)]
  /-- It builds a member of a class in one of the scopes of the class. -/
  | member {body inner scope s s₁ acc os} : scope = body ∨ scope = inner →
    Builds o .expression { s with scope } [] s₁ os →
    Builds o (.members body inner) s acc { s₁ with scope := s.scope } (acc ++ os)
  /-- It numbers a default export and builds the value, which has a variable or gets one. -/
  | exportDefault {s s₁ i v value t} : i.id = s.nextNode →
    Builds o .statement { s with nextNode := s.nextNode + 1 } [] s₁ [.ofExpr value] →
    (value.declaredVar? = some v ∧ t = s₁.symbols ∨
      ∃ name, (v, t) = s₁.symbols.addVariable {
        name
        form := .declared .defaultExport [s.nextNode] (some value.info.id)
        module := o.module }) →
    Builds o .item s [] { s₁ with symbols := t }
      [.mk (.stmt (.exportDefault i v value)) [.ofExpr value]]

namespace Builds

variable {o : ModuleText} {setting : Setting} {s s1 s' : ParserState} {acc os : List Outline}

theorem reads_next (h : s.Agrees s1) (h' : Builds o setting s1 acc s' os) :
    Builds o setting s acc s' os := (reads h).next h'

theorem next_reads (h : Builds o setting s acc s1 os) (h' : s1.Agrees s') :
    Builds o setting s acc s' os := h.next (reads h')

theorem scope (h : Builds o setting s acc s' os) : s'.scope = s.scope := by
  induction h with
  | reads h => exact h.scope
  | next _ _ ih1 ih2 => exact ih2.trans ih1
  | apart _ ih | expression _ ih | statement _ ih | body _ ih | declaring _ _ ih => exact ih
  | classDef _ _ _ _ _ _ ih1 ih2 ih3 => exact ih3.trans (ih2.trans ih1)
  | exportDefault _ _ _ ih => exact ih
  | node | binder | block | function | member => rfl

theorem sits {i : Info} (h : n.Sits o setting i) (hid : i.id = s.nextNode) :
    Builds o setting s acc { s with nextNode := s.nextNode + 1 } [.mk n acc] := by
  obtain ⟨hplain, rfl, hsetting, hread, hscope⟩ := h
  rw [Bool.and_eq_true, Option.isNone_iff_eq_none] at hplain
  refine node hplain.1 hid hsetting hread (fun scope heq => by rw [hscope] at heq; cases heq) ?_
    (.within ⟨by rw [hplain.2]; rfl, rfl⟩)
  rw [returnsAll_singleton, returns, Node.returns.eq_def, hplain.2]
  split
  · cases hplain.1
  · cases hplain.2
  · exact (List.append_nil _).symm

end Builds

/-! ## Return statements -/

/-- Every return statement is entered into the list of the function it stands in, in the order of the
source. -/
theorem Builds.tallies {o : ModuleText} {setting : Setting} {acc os : List Outline}
    (h : Builds o setting s acc s' os) : ∃ new,
      returnsAll os = returnsAll acc ++ new ∧
        setting.Tallies new s.returns s'.returns := by
  have happend : ∀ {acc os new}, returnsAll os = returnsAll [] ++ new →
      returnsAll (acc ++ os) = returnsAll acc ++ new :=
    fun h => (returnsAll_append _ _).trans (congrArg _ h)
  induction h with
  | reads h => exact ⟨[], (List.append_nil _).symm, .within ⟨rfl, h.returns⟩⟩
  | next _ _ ih1 ih2 =>
    obtain ⟨new, heq, h⟩ := ih1
    obtain ⟨new', heq', h'⟩ := ih2
    exact ⟨new ++ new', by rw [heq', heq, List.append_assoc], h.trans h'⟩
  | apart _ ih | statement _ ih =>
    obtain ⟨new, heq, h⟩ := ih
    exact ⟨new, happend heq, h⟩
  | expression _ ih | declaring _ _ ih | member _ _ ih =>
    obtain ⟨new, heq, h⟩ := ih
    exact ⟨new, happend heq, .within h⟩
  | body _ ih =>
    obtain ⟨new, heq, -⟩ := ih
    exact ⟨new, happend heq, rfl⟩
  | node _ _ _ _ _ hbelow h => exact ⟨_, hbelow, h⟩
  | binder => exact ⟨[], (List.append_nil _).symm, rfl, rfl⟩
  | block _ _ ih | exportDefault _ _ _ ih =>
    obtain ⟨new, heq, h⟩ := ih
    exact ⟨new, by rw [returnsAll_singleton, returns, heq]; rfl, h⟩
  | function name _ _ _ _ _ ih1 ih2 =>
    obtain ⟨new, heq, h⟩ := ih1
    obtain ⟨_, -, h'⟩ := ih2
    rw [returnsAll_binders] at heq
    obtain rfl : new = [] := heq.symm
    exact ⟨[], rfl, by rw [show _ = _ from h']; exact h⟩
  | @classDef setting s s₁ s₂ s₃ c front members name _ _ _ _ _ ih1 ih2 ih3 =>
    obtain ⟨new, heq, h⟩ := ih1
    obtain ⟨_, -, rfl, h'⟩ := ih2
    obtain ⟨_, heq', rfl, h''⟩ := ih3
    refine ⟨new, ?_, ?_⟩
    · show returnsAll _ ++ [] = _
      rw [returnsAll_append, returnsAll_append, returnsAll_binders, heq, heq']
      simp [returnsAll]
    · rw [h'', h']
      exact h

/-! ## Ranges -/

namespace Node

def stop (n : Node) : Nat := n.info.span.stop

end Node

/-- Some outlines lie between two bytes, one behind the other, each over a range that is not empty
and holds those below it in the same way. -/
inductive Spread : (start : Nat) → List Outline → (stop : Nat) → Prop
  | nil {a b : Nat} : a ≤ b → Spread a [] b
  | cons {a b : Nat} {o : Outline} {os : List Outline} : a ≤ o.node.start →
      o.node.start < o.node.stop → Spread o.node.start o.children o.node.stop →
      Spread o.node.stop os b → Spread a (o :: os) b

namespace Spread

variable {a b : Nat} {os os' : List Outline}

theorem le (h : Spread a os b) : a ≤ b := by
  induction h with
  | nil h => exact h
  | cons hstart hlt _ _ _ ih => omega

theorem widen {a' b' : Nat} (h : Spread a os b) (ha : a' ≤ a) (hb : b ≤ b') : Spread a' os b' := by
  induction h generalizing a' with
  | nil h => exact .nil (by omega)
  | cons hstart hlt hinner _ _ ih => exact .cons (by omega) hlt hinner (ih (Nat.le_refl _) hb)

theorem append {c : Nat} (h : Spread a os b) (h' : Spread b os' c) : Spread a (os ++ os') c := by
  induction h with
  | nil h => exact h'.widen h (Nat.le_refl _)
  | cons hstart hlt hinner _ _ ih => exact .cons hstart hlt hinner (ih h')

theorem node (h : Spread n.start os n.stop) (hlt : n.start < n.stop) :
    Spread n.start [.mk n os] n.stop :=
  .cons (Nat.le_refl _) hlt h (.nil (Nat.le_refl _))

theorem returns (h : Spread a os b) :
    (∀ r ∈ returnsAll os, a ≤ r.1.span.start ∧ r.1.span.stop ≤ b) ∧
      InOrder (returnsAll os) := by
  induction h with
  | nil => exact ⟨List.forall_mem_nil _, .nil⟩
  | @cons a b o os hstart hlt _ hrest ih1 ih2 =>
    obtain ⟨n, cs⟩ := o
    have hown : (∀ r ∈ n.returns (returnsAll cs), n.start ≤ r.1.span.start ∧
        r.1.span.stop ≤ n.stop) ∧ InOrder (n.returns (returnsAll cs)) := by
      rw [Node.returns.eq_def]
      split
      · exact ⟨List.forall_mem_nil _, .nil⟩
      · exact ⟨List.forall_mem_singleton.mpr ⟨Nat.le_refl _, Nat.le_refl _⟩, .cons nofun .nil⟩
      · exact ih1
    have hstop : n.stop ≤ b := hrest.le
    have hbefore : a ≤ n.stop := Nat.le_trans hstart (Nat.le_of_lt hlt)
    refine ⟨List.forall_mem_append.mpr ⟨fun r hr => ?_, fun r hr => ?_⟩, List.pairwise_append.mpr
      ⟨hown.2, ih2.2, fun r hr r' hr' => Nat.le_trans (hown.1 r hr).2 (ih2.1 r' hr').1⟩⟩
    · exact ⟨Nat.le_trans hstart (hown.1 r hr).1, Nat.le_trans (hown.1 r hr).2 hstop⟩
    · exact ⟨Nat.le_trans hbefore (ih2.1 r hr).1, (ih2.1 r hr).2⟩

end Spread

/-! ## Parsers -/

namespace Parser

variable {o : ModuleText} {x m left left' : Nat} {acc os : List Outline} {t : Token}
  {ts ts' : List Token} {lastEnd lastEnd' : Nat}

/-- A construct goes on from byte `x` with some outlines and is at a token, of at most `left` that
are left. -/
structure Fresh (o : ModuleText) (x : Nat) (t : Token) (left : Nat) (acc : List Outline)
    (ts : List Token) (lastEnd : Nat) : Prop where
  rest : Left o ts lastEnd
  here : ts.head? = some t
  start : x ≤ t.start
  spread : Spread x acc (max x lastEnd)
  left : ts.length ≤ left

/-- A construct that starts at byte `x` has consumed a token, has built some outlines behind byte
`m`, and has less than `left` tokens left. -/
structure Moved (o : ModuleText) (x m left : Nat) (acc : List Outline) (ts : List Token)
    (lastEnd : Nat) : Prop where
  rest : Left o ts lastEnd
  moved : x < lastEnd
  le : x ≤ m
  spread : Spread m acc lastEnd
  left : ts.length < left

namespace Moved

theorem mono (h : Moved o x m left acc ts lastEnd) (hle : left ≤ left') :
    Moved o x m left' acc ts lastEnd :=
  ⟨h.rest, h.moved, h.le, h.spread, Nat.lt_of_lt_of_le h.left hle⟩

theorem relax (h : Moved o x m left acc ts lastEnd) : Moved o x x left acc ts lastEnd :=
  ⟨h.rest, h.moved, Nat.le_refl x, h.spread.widen h.le (Nat.le_refl _), h.left⟩

theorem reaches (h : Moved o x m left acc s.tokens s.lastEnd) (h' : s.Reaches o s') :
    Moved o x m left acc s'.tokens s'.lastEnd :=
  ⟨h'.left, Nat.lt_of_lt_of_le h.moved h'.lastEnd, h.le, h.spread.widen (Nat.le_refl m) h'.lastEnd,
    Nat.lt_of_le_of_lt h'.fewer h.left⟩

theorem node (h : Moved o x m left acc ts lastEnd) (hspan : n.info.span = ⟨x, lastEnd⟩) :
    Moved o x x left [.mk n acc] ts lastEnd := by
  have hstart : n.start = x := congrArg Span.start hspan
  have hstop : n.stop = lastEnd := congrArg Span.stop hspan
  have hspread := h.spread.widen h.le (Nat.le_refl _)
  have hmoved := h.moved
  rw [← hstart, ← hstop] at hspread hmoved ⊢
  exact ⟨hstop ▸ h.rest, hmoved, Nat.le_refl _, hspread.node hmoved, h.left⟩

/-- A token that stands in front of what was built. -/
theorem leaf (h : Moved o x m left acc ts lastEnd) (hspan : n.info.span = ⟨t.start, t.stop⟩)
    (hlt : t.start < t.stop) (hx : x ≤ t.start) (hm : t.stop ≤ m) :
    Moved o x x left (.mk n [] :: acc) ts lastEnd := by
  have hstart : n.start = t.start := congrArg Span.start hspan
  have hstop : n.stop = t.stop := congrArg Span.stop hspan
  refine ⟨h.rest, h.moved, Nat.le_refl x, .cons ?_ ?_ (.nil ?_) ?_, h.left⟩
  all_goals simp only [node_mk, hstart, hstop]
  · exact hx
  · exact hlt
  · exact Nat.le_of_lt hlt
  · exact h.spread.widen hm (Nat.le_refl _)

/-- A part behind what was built. -/
theorem sub (h : Moved o x m left acc s.tokens s.lastEnd)
    (h' : Moved o s.here.start s.here.start left' os ts' lastEnd') (hleft : left' ≤ left) :
    Moved o x m left (acc ++ os) ts' lastEnd' := by
  have hbehind := h.rest.behind s.here List.mem_cons_self
  have hmoved := h'.moved
  refine ⟨h'.rest, ?_, h.le, ?_, Nat.lt_of_lt_of_le h'.left hleft⟩
  · have := h.moved
    omega
  · exact h.spread.append (h'.spread.widen hbehind (Nat.le_refl _))

theorem fresh (h : Moved o x m left acc s.tokens s.lastEnd) (hleft : left ≤ left' + 1) :
    Fresh o s.here.start s.here left' [] s.tokens s.lastEnd :=
  ⟨h.rest, rfl, Nat.le_refl _, .nil (Nat.le_max_left _ _), by have := h.left; omega⟩

end Moved

namespace Fresh

theorem passes (h : Fresh o x t left acc s.tokens s.lastEnd) (h' : s.Passes o s') :
    Moved o x x left acc s'.tokens s'.lastEnd := by
  obtain ⟨rest, here, start, spread, left⟩ := h
  cases here
  have hstop := h'.stop
  have hlt := h'.nonempty
  have hbehind := rest.behind s.here List.mem_cons_self
  exact ⟨h'.toReaches.left, by omega, Nat.le_refl x, spread.widen (Nat.le_refl x) (by omega),
    Nat.lt_of_lt_of_le h'.shorter left⟩

theorem passes_first (h : Fresh o x t left [] s.tokens s.lastEnd) (h' : s.Passes o s') :
    Moved o x t.stop left [] s'.tokens s'.lastEnd := by
  obtain ⟨hrest, hmoved, -, -, hleft⟩ := h.passes h'
  obtain ⟨-, here, start, -, -⟩ := h
  cases here
  have hlt := h'.nonempty
  exact ⟨hrest, hmoved, by omega, .nil h'.stop, hleft⟩

end Fresh

inductive Stage where
  /-- It goes on from a byte and is at a token. -/
  | here (start : Nat) (t : Token)
  /-- It goes on from a byte and has consumed a token; what it has built is behind another byte. -/
  | past (start behind : Nat)

namespace Stage

/-- A construct that starts at a token. -/
abbrev first (t : Token) : Stage := here t.start t

def start : Stage → Nat
  | here x _ | past x _ => x

def Fits (o : ModuleText) (left : Nat) (acc : List Outline) (s : ParserState) : Stage → Prop
  | here x t => Fresh o x t left acc s.tokens s.lastEnd
  | past x m => Moved o x m left acc s.tokens s.lastEnd

theorem Fits.rest {stage : Stage} (h : stage.Fits o left acc s) : Left o s.tokens s.lastEnd := by
  cases stage with
  | here => exact Fresh.rest h
  | past => exact Moved.rest h

end Stage

/-- A run builds some outlines of a construct that starts at byte `x`, with their ranges. -/
structure Made (o : ModuleText) (setting : Setting) (x left : Nat) (s : ParserState)
    (acc : List Outline) (s' : ParserState) (os : List Outline) : Prop where
  builds : Builds o setting s acc s' os
  moved : Moved o x x left os s'.tokens s'.lastEnd

/-- With at most `depth` tokens left a parser goes on from a stage of a construct, and the run builds
the outlines of what it answers, with their ranges. -/
def Yields {α : Type} (o : ModuleText) (depth : Nat) (setting : Setting) (stage : Stage)
    (acc : List Outline) (p : Parser α) (f : α → List Outline) : Prop :=
  ∀ s left, left ≤ depth → stage.Fits o left acc s → Meets o p s fun a s' =>
    Made o setting stage.start left s acc s' (f a)

/-- A step from one outline to the next gives up at once, or consumes a token. -/
def Steps {α : Type} (o : ModuleText) (depth : Nat) (setting : Setting) (x : Nat) (F : α → Outline)
    (a : α) (p : Parser (Option α)) : Prop :=
  ∀ s, s.tokens.length ≤ depth → Fresh o x s.here s.tokens.length [F a] s.tokens s.lastEnd →
    Meets o p s fun r s' => r = none ∧ s' = s ∨ Made o setting x s.tokens.length s [F a] s' [F (r.getD a)]

namespace Yields

variable {α β : Type} {d e : Nat} {setting : Setting} {stage : Stage} {f : α → List Outline}
  {f' : β → List Outline} {p : Parser α} {q : α → Parser β} {R : α → Prop} {k : TokenKind}
  {fault : SyntaxFault}

theorem pure' {a : α} (h : f a = acc) : Yields o d setting (.past x m) acc (pure a) f :=
  fun _ _ _ hs => .ok ⟨h ▸ .reads (.refl _), h ▸ hs.relax⟩

theorem pure_bind' {a : α} (h : Yields o d setting stage acc (q a) f') :
    Yields o d setting stage acc (pure a >>= q) f' := h

/-- The second parser goes on from what the first one has made of the outlines. -/
theorem bind_from (hp : Yields o d setting stage acc p f)
    (hq : ∀ a, Yields o d setting (.past stage.start stage.start) (f a) (q a) f') :
    Yields o d setting stage acc (p >>= q) f' :=
  fun s left hleft hs => (hp s left hleft hs).bind' fun a s1 h1 =>
    (hq a s1 left hleft h1.2).imp fun _ _ h => ⟨h1.1.next h.1, h.2⟩

/-- A part is read, and one token less is left. -/
theorem part (hp : Yields o e setting (.first s.here) [] p f)
    (hs : Moved o x m left acc s.tokens s.lastEnd) (hleft : left ≤ e + 1) :
    Meets o p s fun a s' => Builds o setting s [] s' (f a) ∧
      Moved o x m (left - 1) (acc ++ f a) s'.tokens s'.lastEnd := by
  have hfresh : Fresh o s.here.start s.here (left - 1) [] s.tokens s.lastEnd := hs.fresh (by omega)
  refine (hp s (left - 1) (by omega) hfresh).imp fun a s1 h1 => ⟨h1.1, ?_⟩
  obtain ⟨hrest, hmoved, hle, hspread, -⟩ := hs.sub h1.2 (by omega)
  exact ⟨hrest, hmoved, hle, hspread, h1.2.left⟩

/-- The first parser reads a part, and one token less is left for the second. -/
theorem bind_less {d' : Nat} (hp : ∀ t, Yields o e setting (.first t) [] p f)
    (hq : ∀ a, Yields o d' setting (.past x m) (acc ++ f a) (q a) f') (he : d ≤ e + 1)
    (hd : d ≤ d' + 1) : Yields o d setting (.past x m) acc (p >>= q) f' :=
  fun s left hleft hs => ((hp s.here).part hs (by omega)).bind' fun a s1 h1 =>
    (hq a s1 (left - 1) (by omega) h1.2).imp fun _ _ h =>
      ⟨(Builds.apart h1.1).next h.1, h.2.mono (by omega)⟩

theorem bind' (hp : ∀ t, Yields o d setting (.first t) [] p f)
    (hq : ∀ a, Yields o (d + 1) setting (.past x m) (acc ++ f a) (q a) f') :
    Yields o (d + 1) setting (.past x m) acc (p >>= q) f' :=
  bind_less hp hq (Nat.le_refl _) (Nat.le_succ _)

theorem within (hp : Yields o d .expression stage [] p f) : Yields o d setting stage [] p f :=
  fun s left hleft hs => (hp s left hleft hs).imp fun _ _ h => ⟨.expression h.1, h.2⟩

theorem toItem (hp : Yields o d .statement stage [] p f) : Yields o d .item stage [] p f :=
  fun s left hleft hs => (hp s left hleft hs).imp fun _ _ h => ⟨.statement h.1, h.2⟩

theorem member' {body inner scope : ScopeId} (hscope : scope = body ∨ scope = inner)
    (hp : Yields o d .expression (.past x m) [] p f) :
    Yields o d (.members body inner) (.past x m) [] (inScope scope p) f := by
  refine fun s left hleft hs => .inScope' (Meets.imp (hp _ left hleft ?_) fun _ _ h =>
    ⟨.member hscope h.1, h.2⟩)
  exact hs

theorem still_bind (hp : Still o p R) (hq : ∀ a, R a → Yields o d setting (.past x m) acc (q a) f') :
    Yields o d setting (.past x m) acc (p >>= q) f' :=
  fun s left hleft hs => (hp s hs.rest).bind' fun a s1 h1 =>
    (hq a h1.1 s1 left hleft (hs.reaches h1.2)).imp fun _ _ h =>
      ⟨.reads_next h1.2.agrees h.1, h.2⟩

theorem peek_bind {r : ParserState → α} (hq : ∀ a, Yields o d setting stage acc (q a) f') :
    Yields o d setting stage acc ((fun s => .ok (r s, s) : Parser α) >>= q) f' :=
  fun s left hleft hs => .step rfl (hq _ s left hleft hs)

theorem here_bind {q : Token → Parser β}
    (hq : t ∈ tokens o.source → Yields o d setting (.here x t) acc (q t) f') :
    Yields o d setting (.here x t) acc (current >>= q) f' := by
  intro s left hleft hs
  obtain ⟨rfl⟩ : s.here = t := Option.some.inj hs.here
  exact .step rfl (hq hs.rest.mem s left hleft hs)

theorem kind_bind {q : Bool → Parser β}
    (hq : Yields o d setting (.here x t) acc (q (decide (t.kind = k))) f') :
    Yields o d setting (.here x t) acc (atKind k >>= q) f' := by
  intro s left hleft hs
  obtain ⟨rfl⟩ : s.here = t := Option.some.inj hs.here
  exact .step rfl (hq s left hleft hs)

theorem first_bind (hp : Eats o t p R)
    (hq : ∀ a, R a → Yields o d setting (.past x t.stop) [] (q a) f') :
    Yields o d setting (.here x t) [] (p >>= q) f' := by
  intro s left hleft hs
  refine (hp s (Option.some.inj hs.here) hs.rest).bind' ?_
  rintro a s1 ⟨ha, h1⟩
  exact (hq a ha s1 left hleft (hs.passes_first h1)).imp fun _ _ h =>
    ⟨.reads_next h1.agrees h.1, h.2⟩

theorem eats_bind (hp : Eats o t p R)
    (hq : ∀ a, R a → Yields o d setting (.past x x) acc (q a) f') :
    Yields o d setting (.here x t) acc (p >>= q) f' := by
  intro s left hleft hs
  refine (hp s (Option.some.inj hs.here) hs.rest).bind' ?_
  rintro a s1 ⟨ha, h1⟩
  exact (hq a ha s1 left hleft (hs.passes h1)).imp fun _ _ h =>
    ⟨.reads_next h1.agrees h.1, h.2⟩

theorem eats_any (hp : ∀ t, Eats o t p R)
    (hq : ∀ a, R a → Yields o d setting (.past stage.start stage.start) acc (q a) f') :
    Yields o d setting stage acc (p >>= q) f' := by
  cases stage with
  | here x t => exact eats_bind (hp t) hq
  | past x m =>
    refine fun s left hleft hs => still_bind (Eats.still hp) hq s left hleft ?_
    exact hs.relax

theorem fail_bind (hfault : fault ≠ .tooDeep) : Yields o d setting stage acc (fail fault >>= q) f' :=
  fun _ _ _ hs => .fail_bind hs.rest hfault

theorem unexpected' (what : Bytes) : Yields o d setting stage acc (unexpected what) f :=
  fun _ _ _ hs => .unexpected' hs.rest what

theorem unexpected_bind (what : Bytes) : Yields o d setting stage acc (unexpected what >>= q) f' :=
  fun _ _ _ hs => .unexpected_bind hs.rest what

theorem ite' [Decidable c] {q : Parser α} (hp : c → Yields o d setting stage acc p f)
    (hq : ¬ c → Yields o d setting stage acc q f) :
    Yields o d setting stage acc (if c then p else q) f := by
  split
  · exact hp ‹c›
  · exact hq ‹¬ c›

theorem map' {h : α → β} (hp : Yields o d setting stage acc p fun a => f' (h a)) :
    Yields o d setting stage acc (h <$> p) f' := fun s left hleft hs => (hp s left hleft hs).map'

/-- A node over the construct so far. -/
theorem numbered {q : Info → Parser β} (node : Info → Node) (hnode : ∀ i, (node i).Sits o setting i)
    (hq : ∀ i, Yields o d setting (.past x x) [.mk (node i) acc] (q i) f') :
    Yields o d setting (.past x m) acc (nodeFrom x >>= q) f' := by
  intro s left hleft hs
  let i : Info := ⟨s.nextNode, x, s.lastEnd⟩
  have hmade := hs.node (by rw [(hnode i).2.1])
  exact .step rfl ((hq i { s with nextNode := s.nextNode + 1 } left hleft hmade).imp
    fun _ _ h => ⟨.next (.sits (hnode i) rfl) h.1, h.2⟩)

/-- The node that a construct ends with. -/
theorem made {make : Info → α} (node : Info → Node) (hnode : ∀ i, (node i).Sits o setting i)
    (hmake : ∀ i, f (make i) = [.mk (node i) acc]) :
    Yields o d setting (.past x m) acc (nodeFrom x >>= fun i => pure (make i)) f :=
  numbered node hnode fun i => pure' (hmake i)

/-- A node that is a token. -/
theorem leaf {make : Info → α} (node : Info → Node) (ht : t ∈ tokens o.source)
    (hkind : t.kind.isLast = false) (hnode : ∀ i, (node i).Sits o setting i)
    (hmake : ∀ i, f (make i) = [.mk (node i) []]) :
    Yields o d setting (.past t.start t.stop) [] (nodeAt t >>= fun i => pure (make i)) f := by
  intro s left hleft hs
  let i : Info := ⟨s.nextNode, t.start, t.stop⟩
  refine .ok ?_
  rw [hmake]
  exact ⟨.sits (hnode i) rfl, hs.leaf (by rw [(hnode i).2.1]) (nonempty_of_mem ht hkind)
    (Nat.le_refl _) (Nat.le_refl _)⟩

theorem steps_bind {q : Nat → Parser β}
    (hq : ∀ n, n < d → Yields o (n + 1) setting (.past x m) acc (q n) f') :
    Yields o d setting (.past x m) acc (stepsLeft >>= q) f' := by
  intro s left hleft hs
  have hlt := hs.left
  have hs' : Moved o x m (s.tokens.length + 1) acc s.tokens s.lastEnd :=
    ⟨hs.rest, hs.moved, hs.le, hs.spread, Nat.lt_succ_self _⟩
  exact .step rfl ((hq s.tokens.length (by omega) s _ (Nat.le_refl _) hs').imp
    fun _ _ h => ⟨h.1, h.2.mono hlt⟩)

theorem listUntil' {item : Parser α} {F : α → Outline} (close : Sign)
    (h : ∀ t, Yields o e setting (.first t) [] item fun a => [F a]) (he : d ≤ e + 1) :
    Yields o d setting (.past x m) acc (listUntil close item) fun as => acc ++ as.map F := by
  intro s left hleft hs
  refine .step rfl ((Meets.itemsUntil' (fun xs s' =>
    Builds o setting s acc s' (acc ++ xs.map F) ∧
      Moved o x m left (acc ++ xs.map F) s'.tokens s'.lastEnd) (fun h => h.2.rest) ?_
    (fun h h' => ⟨h.1.next_reads h'.agrees, h.2.reaches h'⟩) _ [] s ?_ (Nat.le_refl _)).bind'
      fun xs s1 h1 => (Still.expectSign' close s1 h1.2.rest).bind' fun _ _ h2 =>
        .ok ⟨h1.1.next_reads h2.2.agrees, (h1.2.reaches h2.2).relax⟩)
  · rintro xs s1 ⟨hxs, h1⟩
    have hleft1 := h1.left
    have hfresh : Fresh o s1.here.start s1.here s1.tokens.length [] s1.tokens s1.lastEnd :=
      ⟨h1.rest, rfl, Nat.le_refl _, .nil (Nat.le_max_left _ _), Nat.le_refl _⟩
    refine (h s1.here s1 s1.tokens.length (by omega) hfresh).imp fun x s2 h2 =>
      ⟨?_, Nat.le_of_lt h2.2.left⟩
    rw [List.map_append, ← List.append_assoc]
    exact ⟨hxs.next (.apart h2.1), h1.sub h2.2 (Nat.le_of_lt hleft1)⟩
  · rw [List.map_nil, List.append_nil]
    exact ⟨.reads (.refl _), hs⟩

/-- The steps of a loop are as many as there are tokens left, so they do not run out. -/
theorem no_steps : Yields o 1 setting (.past x m) acc p f := by
  intro s left hleft hs
  have hlt := hs.left
  rw [ParserState.tokens, List.length_cons] at hlt
  omega

theorem no_tokens : Yields o 0 setting (.first t) acc p f := by
  intro s left hleft hs
  have hle := hs.left
  rw [ParserState.tokens, List.length_cons] at hle
  omega

theorem takes_bind {p : Parser Bool} {q : Bool → Parser β} (hp : Takes o p)
    (htrue : Yields o d setting (.past x m) acc (q true) f')
    (hfalse : Yields o (d + 1) setting (.past x m) acc (q false) f') :
    Yields o (d + 1) setting (.past x m) acc (p >>= q) f' := by
  refine fun s left hleft hs => (hp s hs.rest).bind' ?_
  rintro _ s1 (⟨rfl, h1⟩ | ⟨rfl, rfl⟩)
  · obtain ⟨hrest, hmoved, hle, hspread, hlt⟩ := hs.reaches h1.toReaches
    have hshorter := h1.shorter
    have := hs.left
    have hs1 : Moved o x m (left - 1) acc s1.tokens s1.lastEnd :=
      ⟨hrest, hmoved, hle, hspread, by omega⟩
    exact (htrue s1 (left - 1) (by omega) hs1).imp fun _ _ h =>
      ⟨.reads_next h1.agrees h.1, h.2.mono (by omega)⟩
  · exact hfalse s1 left hleft hs

theorem takes_here {p : Parser Bool} {q : Bool → Parser β} (hp : Takes o p)
    (htrue : Yields o d setting (.past x x) acc (q true) f')
    (hfalse : Yields o d setting (.here x t) acc (q false) f') :
    Yields o d setting (.here x t) acc (p >>= q) f' := by
  refine fun s left hleft hs => (hp s hs.rest).bind' ?_
  rintro _ s1 (⟨rfl, h1⟩ | ⟨rfl, rfl⟩)
  · exact (htrue s1 left hleft (hs.passes h1)).imp fun _ _ h =>
      ⟨.reads_next h1.agrees h.1, h.2⟩
  · exact hfalse s1 left hleft hs

/-- Only the last outline is taken further. -/
theorem focus {F : Outline} (hp : Yields o d setting (.past F.node.start F.node.start) [F] p f) :
    Yields o d setting (.past x m) [F] p f := by
  intro s left hleft hs
  have hle := hs.le
  cases hs.spread with
  | cons hstart hlt hinner hrest =>
    have hend := hrest.le
    refine (hp s left hleft ⟨hs.rest, by omega, Nat.le_refl _,
      .cons (Nat.le_refl _) hlt hinner hrest, hs.left⟩).imp ?_
    rintro _ _ ⟨hbuilds, h⟩
    have hmoved := h.moved
    exact ⟨hbuilds, h.rest, Nat.lt_of_le_of_lt (Nat.le_trans hle hstart) hmoved, Nat.le_refl x,
      h.spread.widen (Nat.le_trans hle hstart) (Nat.le_refl _), h.left⟩

theorem goes {F : α → Outline} {a : α} {p : Parser (Option α)}
    (hp : Yields o e setting (.here x s.here) [F a] p fun r => [F (r.getD a)])
    (hle : s.tokens.length ≤ e) (hs : Fresh o x s.here s.tokens.length [F a] s.tokens s.lastEnd) :
    Meets o p s fun r s' => r = none ∧ s' = s ∨ Made o setting x s.tokens.length s [F a] s' [F (r.getD a)] :=
  (hp s _ hle hs).imp fun _ _ h => .inr h

theorem iterate' {step : α → Parser (Option α)} {F : α → Outline}
    (h : ∀ a, Steps o e setting x F a (step a)) (n : Nat) (hn : n ≤ e) :
    ∀ a, Yields o (n + 1) setting (.past x x) [F a] (iterate step n a) fun b => [F b] := by
  induction n with
  | zero => exact fun _ => no_steps
  | succ n ih =>
    intro a s left hleft hs
    have hlt := hs.left
    have hbehind := hs.rest.behind s.here List.mem_cons_self
    have hmoved := hs.moved
    have hfresh : Fresh o x s.here s.tokens.length [F a] s.tokens s.lastEnd :=
      ⟨hs.rest, rfl, by omega, hs.spread.widen (Nat.le_refl x) (by omega), Nat.le_refl _⟩
    refine (h a s (by omega) hfresh).bind' ?_
    rintro (_ | b) s1 (⟨hnone, rfl⟩ | ⟨hbuilds, h1⟩)
    · exact .ok ⟨.reads (.refl _), hs⟩
    · exact .ok ⟨hbuilds, h1.mono (Nat.le_of_lt hlt)⟩
    · cases hnone
    · exact (ih (by omega) b s1 s.tokens.length (by omega) h1).imp fun _ _ h =>
        ⟨hbuilds.next h.1, h.2.mono (Nat.le_of_lt hlt)⟩

end Yields

/-! ## Names -/

/-- A name, if there is one, is a token behind byte `x` and before byte `m`. -/
def Named (o : ModuleText) (x m : Nat) (name : Option Token) : Prop := ∀ t, name = some t →
  (t ∈ Lexer.tokens o.source ∧ t.kind = .identifier) ∧ x ≤ t.start ∧ t.stop ≤ m

theorem reference_yields (ht : t ∈ tokens o.source) (hkind : t.kind = .identifier)
    (hx : x ≤ t.start) :
    Yields o d .expression (.past x t.stop) [] (reference t) fun n => [.ofExpr (.ident n)] := by
  intro s left hleft hs
  have hlt := nonempty_of_mem ht (by rw [hkind]; rfl)
  refine .ok ⟨.node rfl rfl (.inl rfl) ⟨t, .inl ht, hkind, rfl⟩ ?_ rfl ⟨rfl, rfl⟩,
    hs.leaf rfl hlt hx (Nat.le_refl _)⟩
  intro scope heq
  cases heq
  rfl

section

variable {g : Grammar} (hg : g.module = o.module) {scope : ScopeId}
  (ht : name ∈ tokens o.source ∧ name.kind = .identifier) {kind : VariableKind}
  (hkind : kind ≠ .classReceiver) (init : Option NodeId) (hx : x ≤ name.start) (hm : name.stop ≤ m)
include hg ht hkind hx hm

theorem declare_meets (hs : Moved o x m left acc s.tokens s.lastEnd) :
    Meets o (declare g scope name kind init) s fun b s' =>
      (∀ acc, Builds o (.declaring scope) s acc s' (.ofBinder b :: acc)) ∧
        Moved o x x left (.ofBinder b :: acc) s'.tokens s'.lastEnd := by
  have hlt := nonempty_of_mem ht.1 (by rw [ht.2]; rfl)
  have hfail := Left.start_le ht.1
  refine .step rfl (.step rfl (.ite' (fun _ => .error nofun hfail) fun _ => ?_))
  refine .ite' (fun _ => .error nofun hfail) fun _ => .ok ⟨fun _ => ?_, hs.leaf rfl hlt hx hm⟩
  rw [hg]
  exact .binder hkind rfl

theorem declare_yields : Yields o d (.declaring scope) (.past x m) acc (declare g scope name kind init)
    fun b => .ofBinder b :: acc := fun _ _ _ hs =>
  (declare_meets hg ht hkind init hx hm hs).imp fun _ _ h => ⟨h.1 acc, h.2⟩

end

/-! ## Expressions -/

/-- The parsers of a grammar build what they answer, with at most `depth` tokens left. -/
structure Regular (o : ModuleText) (depth : Nat) (g : Grammar) : Prop where
  source : g.source = o.source
  module : g.module = o.module
  assignment : ∀ t, Yields o depth .expression (.first t) [] g.assignment fun e => [.ofExpr e]
  unary : ∀ t, Yields o depth .expression (.first t) [] g.unary fun e => [.ofExpr e]
  operand : ∀ t, Yields o depth .expression (.first t) [] g.operand fun e => [.ofExpr e]
  construction : ∀ t, t.kind = .keyword .newKw →
    Yields o depth .expression (.first t) [] g.construction fun e => [.ofExpr e]
  statement : ∀ t, Yields o depth .statement (.first t) [] g.statement fun s => [.ofStmt s]

section

variable {g : Grammar} {d : Nat} (hg : Regular o d g)
include hg

theorem literal_yields {value : Token → Value} (ht : t ∈ tokens o.source)
    (hvalue : t.literal? = some (value t)) :
    Yields o (d + 1) .expression (.first t) [] (literal g value) fun e => [.ofExpr e] := by
  have hlast : t.kind.isLast = false := by
    unfold Token.literal? at hvalue
    split at hvalue <;> simp_all [TokenKind.isLast]
  refine .first_bind (.advance' hlast) ?_
  rintro _ rfl
  refine .leaf (fun i => .expr (.literal i (value _) (Token.text _ g.source))) ht hlast
    (fun _ => ⟨rfl, rfl, .inl rfl, ⟨_, .inl ht, hvalue, ?_⟩, rfl⟩) fun _ => rfl
  rw [hg.source]

theorem parameter_yields (scope : ScopeId) (t : Token) :
    Yields o (d + 1) (.declaring scope) (.first t) [] (parameter g scope) fun b => [.ofBinder b] := by
  refine .first_bind (.expect' _ rfl) ?_
  rintro _ ⟨rfl, ht, hkind⟩
  refine .peek_bind fun _ => .ite' (fun _ => .fail_bind nofun) fun _ => ?_
  exact declare_yields hg.module ⟨ht, hkind⟩ (by decide) none (Nat.le_refl _) (Nat.le_refl _)

theorem parameters_yields (scope : ScopeId) (t : Token) :
    Yields o (d + 1) (.declaring scope) (.first t) [] (parameters g scope)
      fun bs => bs.map .ofBinder :=
  .first_bind (.expectSign' _) fun _ _ => .listUntil' _ (parameter_yields hg scope) (Nat.le_succ _)

theorem statements_yields (n : Nat) (hn : n ≤ d) : ∀ {m acc},
    Yields o (n + 1) .statement (.past x m) acc (statements g n) fun ss => acc ++ ofStmts ss := by
  induction n with
  | zero => exact .no_steps
  | succ n ih =>
    refine .peek_bind fun _ => .ite' (fun _ => .pure' (List.append_nil _)) fun _ => ?_
    refine .bind_less hg.statement (fun s => ?_) (by omega) (Nat.le_refl _)
    exact .bind_from (ih (by omega)) fun ss => .pure' (by simp [ofStmts])

/-- The return statements of a function body are those that were entered since it began. -/
theorem functionBody_meets (hleft : left ≤ d + 1) (hs : (Stage.first s.here).Fits o left [] s) :
    Meets o (functionBody g) s fun r s' =>
      r.2.Lists r.1 ∧ Made o .inside s.here.start left s [] s' [.ofBody r.2] := by
  refine .step rfl ((Eats.expectSign' _ s rfl hs.rest).bind' ?_)
  rintro _ s1 ⟨-, h1⟩
  obtain ⟨hrest, hmoved, hle, hspread, hlt⟩ := hs.passes_first h1
  refine .step rfl (.step rfl ((statements_yields hg s1.tokens.length (by omega)
    { s1 with returns := [] :: s1.returns } _ (Nat.le_refl _)
    ⟨hrest, hmoved, hle, hspread, Nat.lt_succ_self _⟩).bind' ?_))
  rintro ss s2 ⟨hbuilds, h2⟩
  obtain ⟨new, hnew, hlists⟩ := hbuilds.tallies
  refine .step rfl (.step rfl ((Still.expectSign' _ _ (by exact h2.rest)).bind' ?_))
  rintro _ s3 ⟨-, h3⟩
  have hback : s3.returns = s1.returns := by rw [h3.agrees.returns, hlists]; rfl
  have hmade : Moved o s.here.start s.here.start left [.mk (.stmt (.block
      ⟨s3.nextNode, s.here.start, s3.lastEnd⟩ ss)) (ofStmts ss)] s3.tokens s3.lastEnd :=
    ((Moved.reaches (by exact h2) h3).node rfl).mono (by omega)
  refine .ok ⟨⟨?_, ?_⟩, ?_, hmade⟩
  · show (s2.returns.headD []).reverse = (returnsAll (ofStmts ss)).map _
    rw [hlists, show returnsAll (ofStmts ss) = new from hnew]
    simp
  · have horder := hmade.spread.returns.2
    rwa [returnsAll_singleton] at horder
  · refine .reads_next h1.agrees ((Builds.body hbuilds).next (.reads_next
      ⟨h3.agrees.scope, h3.agrees.nextNode, h3.agrees.symbols, hback⟩
      (.sits (i := ⟨s3.nextNode, s.here.start, s3.lastEnd⟩) ?_ rfl)))
    exact ⟨rfl, rfl, .inr rfl, trivial, rfl⟩

end

/-! ## Functions -/

/-- In a scope of its own a parser goes on from some outlines to a function that has the given number
and kind and was declared by the given name, if any. -/
def Fills {α : Type} (o : ModuleText) (depth : Nat) (id : NodeId) (kind : FunctionKind)
    (scope : ScopeId) (name : Option Binder) (stage : Stage) (acc : List Outline) (p : Parser α)
    (make : Func → α) : Prop :=
  ∀ s left, left ≤ depth → s.scope = scope → stage.Fits o left acc s → Meets o p s fun a s' =>
    ∃ f, a = make f ∧ f.info = ⟨id, stage.start, s'.lastEnd⟩ ∧ f.kind = kind ∧
      (kind = .declaration → f.name? = name) ∧ f.body.Lists f.returns ∧
      Builds o .inside s acc s' (Outline.ofFunc f).children ∧
      Moved o stage.start stage.start left (Outline.ofFunc f).children s'.tokens s'.lastEnd

namespace Fills

variable {α β : Type} {d e : Nat} {id : NodeId} {scope : ScopeId} {name : Option Binder}
  {stage : Stage} {make : Func → α} {p : Parser β} {q : β → Parser α} {f : β → List Outline}

theorem bind_of {R : β → Prop} {m' : Nat} {acc' : β → List Outline} (hp : ∀ s left, left ≤ d →
      s.scope = scope → stage.Fits o left acc s → Meets o p s fun b s' => R b ∧
        Builds o .inside s acc s' (acc' b) ∧ Moved o stage.start m' left (acc' b) s'.tokens s'.lastEnd)
    (hq : ∀ b, R b → Fills o d id kind scope name (.past stage.start m') (acc' b) (q b) make) :
    Fills o d id kind scope name stage acc (p >>= q) make := by
  intro s left hleft hscope hs
  refine (hp s left hleft hscope hs).bind' ?_
  rintro b s1 ⟨hb, hbuilds, h1⟩
  refine (hq b hb s1 left hleft (hbuilds.scope.trans hscope) h1).imp ?_
  rintro _ _ ⟨fn, hfn, hinfo, hkind, hname, hlists, hbuilds', h⟩
  exact ⟨fn, hfn, hinfo, hkind, hname, hlists, hbuilds.next hbuilds', h⟩

theorem still_bind {R : β → Prop} (hp : Still o p R)
    (hq : ∀ b, R b → Fills o d id kind scope name (.past x m) acc (q b) make) :
    Fills o d id kind scope name (.past x m) acc (p >>= q) make :=
  bind_of (fun s _ _ _ hs => (hp s hs.rest).imp fun _ _ h =>
    ⟨h.1, .reads h.2.agrees, hs.reaches h.2⟩) hq

theorem bind' {R : β → Prop} (hp : ∀ s left, left ≤ e → (Stage.first s.here).Fits o left [] s →
      Meets o p s fun b s' => R b ∧ Made o .inside s.here.start left s [] s' (f b))
    (hq : ∀ b, R b → Fills o d id kind scope name (.past x x) (acc ++ f b) (q b) make)
    (he : d ≤ e + 1) : Fills o d id kind scope name (.past x m) acc (p >>= q) make :=
  bind_of (fun s left _ _ hs => (hp s (left - 1) (by omega) (hs.fresh (by omega))).imp fun _ _ h =>
    ⟨h.1, .apart h.2.1, (hs.sub h.2.2 (Nat.sub_le _ _)).relax⟩) hq

theorem declaring_bind (hp : ∀ t, Yields o d (.declaring scope) (.first t) [] p f)
    (hq : ∀ b, Fills o d id kind scope name (.past x x) (acc ++ f b) (q b) make) :
    Fills o d id kind scope name (.past x m) acc (p >>= q) make :=
  bind_of (R := fun _ => True) (fun s _ _ hscope hs => ((hp s.here).part hs (by omega)).imp
    fun _ _ h => ⟨trivial, .declaring (.inl hscope.symm) h.1, h.2.relax.mono (by omega)⟩) fun b _ => hq b

theorem declaring_from (hp : Yields o d (.declaring scope) stage [] p f)
    (hq : ∀ b, Fills o d id kind scope name (.past stage.start stage.start) (f b) (q b) make) :
    Fills o d id kind scope name stage [] (p >>= q) make :=
  bind_of (R := fun _ => True) (fun s left hleft hscope hs => (hp s left hleft hs).imp
    fun _ _ h => ⟨trivial, .declaring (.inl hscope.symm) h.1, h.2⟩) fun b _ => hq b

theorem peek_bind {r : ParserState → β} (hq : ∀ b, Fills o d id kind scope name stage acc (q b) make) :
    Fills o d id kind scope name stage acc ((fun s => .ok (r s, s) : Parser β) >>= q) make :=
  fun s left hleft hscope hs => .step rfl (hq _ s left hleft hscope hs)

theorem pure_bind' {b : β} (h : Fills o d id kind scope name stage acc (q b) make) :
    Fills o d id kind scope name stage acc (pure b >>= q) make := h

theorem ite' [Decidable c] {p q : Parser α} (hp : Fills o d id kind scope name stage acc p make)
    (hq : Fills o d id kind scope name stage acc q make) :
    Fills o d id kind scope name stage acc (if c then p else q) make := by
  split
  · exact hp
  · exact hq

theorem complete {ps : List Binder} {returns : List NodeId} {body : FuncBody}
    (hname : kind = .declaration → own = name)
    (hreturns : body.Lists returns)
    (hacc : acc = own.toList.map .ofBinder ++ ps.map .ofBinder ++ [.ofBody body]) :
    Fills o d id kind scope name (.past x m) acc (do
      return make (.mk (← infoFrom id x) kind own ps scope returns body)) make := by
  intro s left hleft _ hs
  subst hacc
  exact .ok ⟨_, rfl, rfl, rfl, hname, hreturns, .reads (.refl _), hs.relax⟩

end Fills

section

variable {g : Grammar} {d : Nat} (hg : Regular o d g)
include hg

theorem functionParts_fills (make : Func → α) (id : NodeId) {name : Option Binder}
    (hname : kind = .declaration → own = name) (scope : ScopeId) :
    Fills o (d + 1) id kind scope name (.past x m) (own.toList.map .ofBinder) (do
      let ps ← parameters g scope
      let (returns, body) ← functionBody g
      return make (.mk (← infoFrom id x) kind own ps scope returns body)) make :=
  .declaring_bind (parameters_yields hg scope) fun _ =>
    .bind' (fun _ _ => functionBody_meets hg) (fun _ h => .complete hname h rfl) (Nat.le_succ _)

/-- A function whose number is given out, and whose name is declared, opens its scope. -/
theorem functionScope_meets (setting : Setting) (stage : Stage) (kind : FunctionKind)
    (make : Func → α) (name : Option Binder) {isArrow : Bool} {p : ScopeId → Parser α} (hinner : ∀ scope,
      Fills o (d + 1) s.nextNode kind scope name stage (name.toList.map .ofBinder) (p scope) make)
    (hname : Builds o setting { s with nextNode := s.nextNode + 1 } [] s1
      (name.toList.map .ofBinder)) (hleft : left ≤ d + 1)
    (hs1 : stage.Fits o left (name.toList.map .ofBinder) s1) :
    Meets o (do
      let scope ← withSymbols fun t => t.addFunctionScope s.scope isArrow g.module
      inScope scope (p scope)) s1 fun a s' => ∃ f, a = make f ∧ f.kind = kind ∧
        Made o setting stage.start left s [] s' [.ofFunc f] := by
  refine .symbols_bind (.inScope' (Meets.imp (hinner _ _ left hleft ?_ ?_) ?_))
  · rfl
  · cases stage <;> exact hs1
  rintro _ s' ⟨f, rfl, hinfo, rfl, hdeclared, hlists, hbuilds, h⟩
  rw [hg.module] at hbuilds
  have hback : s1.scope = s.scope := hname.scope
  have hmade := h.node (n := .expr (.function f)) (congrArg Info.span hinfo)
  obtain ⟨i, kind, own, ps, scope, returns, body⟩ := f
  have hbuilt := Builds.function name (congrArg Info.id hinfo) hdeclared hlists hname hbuilds
  rw [← hback] at hbuilt
  exact ⟨_, rfl, rfl, hbuilt, hmade⟩

theorem method_yields :
    Yields o (d + 1) .expression (.past x m) [] (method g x) fun e => [.ofExpr e] := by
  refine fun s left hleft hs => .step rfl (.step rfl
    ((functionScope_meets hg .expression (.past x m) .method Expr.function none
      (functionParts_fills hg Expr.function _ fun _ => rfl) (.reads (.refl _)) hleft hs).imp ?_))
  rintro _ _ ⟨f, rfl, -, h⟩
  exact h

theorem arrow_yields (t : Token) :
    Yields o (d + 1) .expression (.first t) [] (arrow g) fun e => [.ofExpr e] := by
  refine .here_bind fun _ => ?_
  have hbody : ∀ id scope (ps : List Binder), Fills o (d + 1) id .arrow scope none
      (.past t.start t.start) (ps.map .ofBinder) (do
      expectSign .arrow
      let (returns, body) ← if ← atSign .leftBrace then functionBody g
        else (fun e => ([], .result e)) <$> g.assignment
      return Expr.function (.mk (← infoFrom id t.start) .arrow none ps scope returns body))
      Expr.function := by
    intro id scope ps
    refine .still_bind (.expectSign' _) fun _ _ => .peek_bind fun _ => .ite' ?_ ?_
    · exact .bind' (fun _ _ => functionBody_meets hg) (fun r h => .complete (fun _ => rfl) h rfl)
        (Nat.le_succ _)
    · refine .bind' (f := fun r => [.ofBody r.2]) (fun s left hleft hs => Meets.map' ?_)
        (fun r h => .complete (fun _ => rfl) h rfl) (Nat.le_refl _)
      refine (hg.assignment _ s left hleft hs).imp fun e s' h => ⟨?_, .expression h.1, h.2⟩
      obtain ⟨_, hnew, rfl, -⟩ := h.1.tallies
      rw [returnsAll_singleton] at hnew
      show [] = (ofExpr e).returns.map _ ∧ InOrder (ofExpr e).returns
      rw [hnew]
      exact ⟨rfl, .nil⟩
  intro s left hleft hs
  refine .step rfl (.step rfl ((functionScope_meets hg .expression (.first t) .arrow Expr.function none
    (fun scope => ?_) (.reads (.refl _)) hleft hs).imp ?_))
  · have hone : Yields o (d + 1) (.declaring scope) (.first t) []
      ((fun p => [p]) <$> parameter g scope) fun ps => ps.map .ofBinder :=
        .map' (parameter_yields hg scope t)
    exact .peek_bind fun _ => .ite' (.declaring_from hone (hbody _ scope))
      (.declaring_from (parameters_yields hg scope t) (hbody _ scope))
  · rintro _ _ ⟨f, rfl, -, h⟩
    exact h

omit hg in
/-- The name of a function or class, if there is one. -/
theorem optionalName_meets {goal : α → ParserState → Prop} {k : Option Token → Parser α} {what : Bytes}
    {needsName : Bool} (hs : Moved o x m left [] s.tokens s.lastEnd)
    (hk : ∀ name m s', Named o x m name → Moved o x m left [] s'.tokens s'.lastEnd → s.Agrees s' →
      Meets o (k name) s' goal) :
    Meets o (do
      let named ← atKind .identifier
      if needsName ∧ !named then unexpected what
      let name ← if named then some <$> advance else pure none
      k name) s goal := by
  refine .step rfl ?_
  extract_lets behindName behindCheck
  have hname : Meets o (behindCheck ()) s goal := by
    refine .ite' (fun h => ?_) fun _ => hk none m s (fun _ h => by cases h) hs (.refl s)
    have hkind : s.here.kind = .identifier := of_decide_eq_true h
    have hpass := ParserState.Passes.advance hs.rest (by rw [hkind]; rfl)
    obtain ⟨hrest, hmoved, -, -, hlt⟩ := hs.reaches hpass.toReaches
    have hbehind := hs.rest.behind s.here List.mem_cons_self
    have hstart := hs.moved
    have hlt' := hpass.nonempty
    refine .step rfl (hk (some s.here) s.here.stop _ ?_
      ⟨hrest, hmoved, by omega, .nil hpass.stop, hlt⟩ hpass.agrees)
    rintro _ ⟨⟩
    exact ⟨⟨hs.rest.mem, hkind⟩, by omega, Nat.le_refl _⟩
  exact .ite' (fun _ => .unexpected_bind hs.rest what) fun _ => hname

theorem functionInner_fills (id : NodeId) {name : Option Token}
    (hname : declared = none → Named o x m name)
    (hdeclared : kind = .declaration → name.isSome → declared.isSome) (scope : ScopeId) :
    Fills o (d + 1) id kind scope declared (.past x m) (declared.toList.map .ofBinder) (do
      let name ← match name, declared with
        | some t, none => some <$> declare g scope t .function (some id)
        | _, b => pure b
      let ps ← parameters g scope
      let (returns, body) ← functionBody g
      return Func.mk (← infoFrom id x) kind name ps scope returns body) fun f => f := by
  cases name with
  | none => exact .pure_bind' (functionParts_fills hg (fun f => f) id (fun _ => rfl) scope)
  | some t =>
    cases declared with
    | some b => exact .pure_bind' (functionParts_fills hg (fun f => f) id (fun _ => rfl) scope)
    | none =>
      obtain ⟨ht, hx, hm⟩ := hname rfl t rfl
      have hown : Yields o (d + 1) (.declaring scope) (.past x m) []
          (some <$> declare g scope t .function (some id)) fun own => own.toList.map .ofBinder :=
        .map' (declare_yields hg.module ht (by decide) _ hx hm)
      refine .declaring_from hown fun own => ?_
      refine functionParts_fills hg (fun f => f) id (fun hkind => ?_) scope
      cases hdeclared hkind rfl

/-- The name of a function that is a declaration belongs to the scope around it. -/
theorem function_meets {setting : Setting} (needsName : Bool)
    (hsetting : kind = .declaration → setting = .statement) (hleft : left ≤ d + 1)
    (hs : (Stage.first t).Fits o left [] s) :
    Meets o (function g kind needsName) s fun f s' => f.kind = kind ∧
      Made o setting t.start left s [] s' [.ofFunc f] := by
  obtain ⟨rfl⟩ : s.here = t := Option.some.inj hs.here
  refine .step rfl ((Eats.expect' _ rfl s rfl hs.rest).bind' ?_)
  rintro _ s1 ⟨-, hpass⟩
  have hs1 := hs.passes_first hpass
  refine .step rfl (optionalName_meets (by exact hs1) fun name m s2 hname hs2 hsame => .step rfl ?_)
  extract_lets outer behindDeclared
  have houter : outer = s1.scope := hsame.scope
  have hdeclared : ∀ (declared : Option Binder) m s3, (declared = none → Named o s.here.start m name) →
      (kind = .declaration → name.isSome → declared.isSome) →
      Builds o setting { s1 with nextNode := s1.nextNode + 1 } [] s3
        (declared.toList.map .ofBinder) →
      Moved o s.here.start m left (declared.toList.map .ofBinder) s3.tokens s3.lastEnd →
      Meets o (behindDeclared declared) s3 fun f s' => f.kind = kind ∧
        Made o setting s.here.start left s [] s' [.ofFunc f] := by
    intro declared m s3 hname hkind hbuilds hs3
    simp only [behindDeclared, houter]
    refine (functionScope_meets hg setting (.past s.here.start m) kind (fun f => f) declared
      (functionInner_fills hg s1.nextNode hname hkind) hbuilds hleft hs3).imp ?_
    rintro _ _ ⟨f, rfl, hkind, hbuilds, h⟩
    exact ⟨hkind, .reads_next hpass.agrees hbuilds, h⟩
  cases name with
  | none => exact hdeclared none m s2 (fun _ => hname) (by simp) (.reads hsame) hs2
  | some u =>
    by_cases hkind : kind = .declaration
    · subst hkind
      obtain rfl := hsetting rfl
      obtain ⟨hu, hx, hm⟩ := hname u rfl
      refine Meets.map_bind (declare_meets hg.module hu (by decide) _ hx hm hs2) fun b s3 h3 => ?_
      have hadmits : Setting.Admits s2 outer .statement := .inl (houter.trans hsame.scope.symm)
      exact hdeclared (some b) s.here.start s3 (by simp) (fun _ _ => rfl)
        (.reads_next hsame (.declaring hadmits (h3.1 []))) h3.2
    · cases kind with
      | declaration => exact absurd rfl hkind
      | _ => exact hdeclared none m s2 (fun _ => hname) (by simp) (.reads hsame) hs2

/-! ## Objects, calls and members -/

theorem property_yields (t : Token) :
    Yields o (d + 1) .expression (.first t) [] (property g) fun p => [.ofProperty p] := by
  refine .here_bind fun ht => .first_bind .propertyKey' fun k _ => ?_
  have hmake : ∀ m form v, Yields o (d + 1) .expression (.past t.start m) [.ofExpr v] (do
      return Property.mk (← nodeFrom t.start) k.1 form v) fun p => [.ofProperty p] :=
    fun m form v => .made (fun i => .property (.mk i k.1 form v))
      (fun _ => ⟨rfl, rfl, .inl rfl, trivial, rfl⟩) fun _ => rfl
  refine .still_bind (.accept' _) fun _ _ => .ite' (fun _ => ?_) fun _ => ?_
  · exact .bind' hg.assignment fun v => hmake _ _ v
  refine .peek_bind fun _ => .ite' (fun _ => ?_) fun _ => .ite' (fun hkind => ?_)
    fun _ => .unexpected' _
  · exact .bind_from (method_yields hg) fun v => hmake _ _ v
  · exact .bind_from (reference_yields ht hkind (Nat.le_refl _)) fun n => hmake _ .shorthand (.ident n)

theorem object_yields (ht : t.kind.isLast = false) :
    Yields o (d + 1) .expression (.first t) [] (object g) fun e => [.ofExpr e] := by
  refine .first_bind (.advance' ht) ?_
  rintro _ rfl
  refine .bind_from (.listUntil' _ (property_yields hg) (Nat.le_succ _)) fun ps => ?_
  refine .made (fun i => .expr (.object i ps)) (fun _ => ⟨rfl, rfl, .inl rfl, trivial, rfl⟩) fun _ => ?_
  rw [← ofProperties_eq]
  rfl

theorem arguments_yields (t : Token) :
    Yields o (d + 1) .expression (.here x t) acc (arguments g) fun as => acc ++ ofExprs as := by
  rw [funext ofExprs_eq]
  exact .eats_bind (.expectSign' _) fun _ _ => .listUntil' _ hg.assignment (Nat.le_refl _)

theorem memberAccess_yields (ht : t.kind.isLast = false) (e : Expr) :
    Yields o (d + 1) .expression (.here x t) [.ofExpr e] (memberAccess g x e)
      fun e => [.ofExpr e] := by
  refine .eats_bind (.advance' ht) fun _ _ => .ite' (fun _ => ?_) fun _ => ?_
  · refine .still_bind .current' fun u hu => .ite' (fun _ => .unexpected_bind _) fun hname => ?_
    have hname : u.isName = true := by simpa using hname
    exact .still_bind .advance' fun _ _ => .made (fun i => .expr (.member i e u.value))
      (fun _ => ⟨rfl, rfl, .inl rfl, ⟨u, .inl hu, hname, rfl⟩, rfl⟩) fun _ => rfl
  · refine .bind' hg.assignment fun key => .still_bind (.expectSign' _) fun _ _ => ?_
    exact .made (fun i => .expr (.index i e key))
      (fun _ => ⟨rfl, rfl, .inl rfl, trivial, rfl⟩) fun _ => rfl

omit hg in
theorem isLast_of_access {k : TokenKind} (h : decide (k = .sign .dot ∨ k = .sign .leftBracket) = true) :
    k.isLast = false := by
  rcases of_decide_eq_true h with rfl | rfl <;> rfl

theorem accessSuffix_steps (e : Expr) :
    Steps o (d + 1) .expression x .ofExpr e (accessSuffix g x e) :=
  fun _ hle hs => .step rfl (.ite'
    (fun h => Yields.goes (.map' (memberAccess_yields hg (isLast_of_access h) e)) hle hs)
    fun _ => .ok (.inl ⟨rfl, rfl⟩))

theorem suffix_steps (e : Expr) : Steps o (d + 1) .expression x .ofExpr e (suffix g x e) := by
  refine fun s hle hs => .step rfl (.ite' (fun h => ?_) fun _ => .step rfl (.ite' (fun _ => ?_)
    fun _ => .ok (.inl ⟨rfl, rfl⟩)))
  · exact Yields.goes (.map' (memberAccess_yields hg (isLast_of_access h) e)) hle hs
  · refine Yields.goes (.bind_from (arguments_yields hg _) fun as => ?_) hle hs
    exact .made (fun i => .expr (.call i false e as))
      (fun _ => ⟨rfl, rfl, .inl rfl, trivial, rfl⟩) fun _ => rfl

/-! ## Classes -/

theorem classMember_yields (body inner : ScopeId) (t : Token) :
    Yields o (d + 1) (.members body inner) (.first t) [] (classMember g body inner)
      fun m => [.ofMember m] := by
  refine .here_bind fun _ => .peek_bind fun next => ?_
  extract_lets behindStatic
  have hmember : ∀ stage b, stage.start = t.start →
      Yields o (d + 1) (.members body inner) stage [] (behindStatic b) fun m => [.ofMember m] := by
    intro stage isStatic hstart
    refine .eats_any (fun _ => .propertyKey') fun k _ => ?_
    rw [hstart]
    have hmake : ∀ m kind (v : Option Expr), Yields o (d + 1) .expression (.past t.start m)
        (ofOptionalExpr v) (do
          return ClassMember.mk (← nodeFrom t.start) kind isStatic k.1 v) fun m => [.ofMember m] :=
      fun m kind v => .made (fun i => .classMember (.mk i kind isStatic k.1 v))
        (fun _ => ⟨rfl, rfl, .inl rfl, trivial, rfl⟩) fun _ => rfl
    refine .member' (by cases isStatic <;> simp) (.peek_bind fun _ => .ite' (fun _ => ?_) fun _ =>
      .still_bind (.accept' _) fun _ _ => ?_)
    · exact .bind_from (method_yields hg) fun v => hmake _ _ (some v)
    · have hfield : ∀ v : Option Expr, Yields o (d + 1) .expression (.past t.start t.start)
          (ofOptionalExpr v) (do
            semicolon
            return ClassMember.mk (← nodeFrom t.start) .property isStatic k.1 v)
          fun m => [.ofMember m] :=
        fun v => .still_bind .semicolon' fun _ _ => hmake _ .property v
      refine .ite' (fun _ => ?_) fun _ => .pure_bind' (hfield none)
      exact .bind' (fun t => .map' (hg.assignment t)) fun v => hfield v
  refine .ite' (fun _ => .pure_bind' (hmember _ _ rfl)) fun _ => ?_
  exact .takes_here (.acceptWord' _) (hmember _ _ rfl) (hmember _ _ rfl)

theorem classMembers_yields (body inner : ScopeId) (n : Nat) (hn : n ≤ d + 1) : ∀ {m acc},
    Yields o (n + 1) (.members body inner) (.past x m) acc (classMembers g body inner n)
      fun ms => acc ++ ofMembers ms := by
  induction n with
  | zero => exact .no_steps
  | succ n ih =>
    refine .peek_bind fun _ => .ite' (fun _ => .pure' (List.append_nil _)) fun _ => ?_
    refine .takes_bind (.accept' _) (ih (by omega)) ?_
    refine .bind_less (classMember_yields hg body inner) (fun m => ?_) (by omega) (Nat.le_refl _)
    exact .bind_from (ih (by omega)) fun ms => .pure' (by simp [ofMembers])

theorem classBraces_meets {id : NodeId} {base : Option Expr} {body inner : ScopeId}
    (hleft : left ≤ d + 1) (hs : Moved o x m left acc s.tokens s.lastEnd) :
    Meets o (do
      expectSign .leftBrace
      let ms ← classMembers g body inner (← stepsLeft)
      expectSign .rightBrace
      return ClassDef.mk (← infoFrom id x) isDeclaration own base ms body) s fun c s' =>
      ∃ ms, c = .mk ⟨id, x, s'.lastEnd⟩ isDeclaration own base ms body ∧
        Builds o (.members body inner) s [] s' (ofMembers ms) ∧
        Moved o x m left (acc ++ ofMembers ms) s'.tokens s'.lastEnd := by
  refine (Eats.expectSign' _ s rfl hs.rest).bind' ?_
  rintro _ s1 ⟨-, h1⟩
  have hfresh : Fresh o s.here.start s.here left [] s.tokens s.lastEnd := hs.fresh (by omega)
  obtain ⟨hrest, hmoved, hle, hspread, hlt1⟩ := hfresh.passes h1
  refine .step rfl ((classMembers_yields hg body inner s1.tokens.length (by omega) s1 _
    (Nat.le_refl _) ⟨hrest, hmoved, hle, hspread, Nat.lt_succ_self _⟩).bind' fun ms s2 h2 => ?_)
  refine (Still.expectSign' _ s2 h2.2.rest).bind' fun _ s3 h3 => .ok ⟨ms, rfl, ?_, ?_⟩
  · exact .reads_next h1.agrees (h2.1.next_reads h3.2.agrees)
  · exact hs.sub (h2.2.reaches h3.2) hlt1

/-- What a class is made of behind what it extends. A class that was not declared by its name binds
it in its body. -/
theorem classBody_meets {setting : Setting} {name : Option Token} (base : Option Expr)
    (hname : declared = none → Named o x m name)
    (hdeclared : isDeclaration = true → name.isSome → declared.isSome)
    (hfront : Builds o setting { s with nextNode := s.nextNode + 1 } [] s1
      (declared.toList.map .ofBinder ++ ofOptionalExpr base)) (hleft : left ≤ d + 1)
    (hs1 : Moved o x m left (declared.toList.map .ofBinder ++ ofOptionalExpr base)
      s1.tokens s1.lastEnd) :
    Meets o (do
      let body ← withSymbols fun t => t.addClassScope s.scope s.nextNode g.module
      let inner := ((← get).symbols.scope? body).bind Scope.instanceScope
      let name ← match name, declared with
        | some t, none => some <$> declare g body t .classLike (some s.nextNode)
        | _, b => pure b
      expectSign .leftBrace
      let ms ← classMembers g body (inner.getD body) (← stepsLeft)
      expectSign .rightBrace
      return ClassDef.mk (← infoFrom s.nextNode x) isDeclaration name base ms body) s1 fun c s' =>
      c.isDeclaration = isDeclaration ∧ Made o setting x left s [] s' [.ofClass c] := by
  refine .symbols_bind (.step rfl ?_)
  rw [hg.module]
  dsimp only
  rw [show (s1.symbols.addClassScope s.scope s.nextNode o.module).1 = s1.symbols.scopes.size from rfl,
    s1.symbols.instanceScope_addClassScope]
  -- The name of the class is the one it was declared by, or the one bound in its body.
  have hdone : ∀ {own : Option Binder} {m : Nat} {s2 : ParserState} (named : Option Binder),
      own.toList = named.toList ++ declared.toList → (isDeclaration = true → own = declared) →
      Builds o (.members s1.symbols.scopes.size (s1.symbols.scopes.size + 1))
        { s1 with symbols := (s1.symbols.addClassScope s.scope s.nextNode o.module).2 } [] s2
        (named.toList.map .ofBinder) →
      Moved o x m left (own.toList.map .ofBinder ++ ofOptionalExpr base)
        s2.tokens s2.lastEnd →
      Meets o (do
        expectSign .leftBrace
        let ms ← classMembers g s1.symbols.scopes.size (s1.symbols.scopes.size + 1) (← stepsLeft)
        expectSign .rightBrace
        return ClassDef.mk (← infoFrom s.nextNode x) isDeclaration own base ms
          s1.symbols.scopes.size) s2 fun c s' =>
        c.isDeclaration = isDeclaration ∧ Made o setting x left s [] s' [.ofClass c] := by
    intro own m s2 named hown hkind hnamed hs2
    refine (classBraces_meets hg hleft hs2).imp ?_
    rintro _ s' ⟨ms, rfl, hms, h⟩
    have hbuilt := Builds.classDef
      (c := .mk ⟨s.nextNode, x, s'.lastEnd⟩ isDeclaration own base ms s1.symbols.scopes.size) named rfl
      (fun h => ⟨_, by rw [show ClassDef.name? _ = own from rfl, hkind h]⟩) hfront hnamed hms
    rw [← List.append_assoc, ← List.map_append, ← hown] at hbuilt
    exact ⟨rfl, hbuilt, h.node rfl⟩
  cases name with
  | none => exact hdone none rfl (fun _ => rfl) (.reads (.refl _)) hs1
  | some t =>
    cases declared with
    | some b => exact hdone none rfl (fun _ => rfl) (.reads (.refl _)) hs1
    | none =>
      obtain ⟨ht, hx, hm⟩ := hname rfl t rfl
      refine Meets.map_bind (declare_meets hg.module ht (by decide) _ hx hm (by exact hs1))
        fun b s2 h => ?_
      have hadmits : Setting.Admits
          { s1 with symbols := (s1.symbols.addClassScope s.scope s.nextNode o.module).2 }
          s1.symbols.scopes.size
          (.members s1.symbols.scopes.size (s1.symbols.scopes.size + 1)) := rfl
      refine hdone (some b) rfl (fun h => ?_) (.declaring hadmits (h.1 [])) h.2
      cases hdeclared h rfl

theorem classDef_meets {setting : Setting} (needsName : Bool)
    (hsetting : isDeclaration = true → setting = .statement) (hleft : left ≤ d + 1)
    (hs : (Stage.first t).Fits o left [] s) :
    Meets o (classDef g isDeclaration needsName) s fun c s' => c.isDeclaration = isDeclaration ∧
      Made o setting t.start left s [] s' [.ofClass c] := by
  obtain ⟨rfl⟩ : s.here = t := Option.some.inj hs.here
  refine .step rfl ((Eats.expect' _ rfl s rfl hs.rest).bind' ?_)
  rintro _ s1 ⟨-, hpass⟩
  refine .step rfl (.step rfl ?_)
  have hs1 := hs.passes_first hpass
  extract_lets outer behindName
  have houter : outer = s1.scope := rfl
  refine optionalName_meets (k := behindName) (by exact hs1) fun name m s2 hname hs2 hsame => ?_
  dsimp -zeta only [behindName]
  extract_lets behindDeclared
  have hdeclared : ∀ (declared : Option Binder) m s3, (declared = none → Named o s.here.start m name) →
      (isDeclaration = true → name.isSome → declared.isSome) →
      Builds o setting { s1 with nextNode := s1.nextNode + 1 } [] s3
        (declared.toList.map .ofBinder) →
      Moved o s.here.start m left (declared.toList.map .ofBinder) s3.tokens s3.lastEnd →
      Meets o (behindDeclared declared) s3 fun c s' => c.isDeclaration = isDeclaration ∧
        Made o setting s.here.start left s [] s' [.ofClass c] := by
    intro declared m s3 hname hkind hbuilds hs3
    refine .step rfl ?_
    extract_lets behindBase
    have hbase : ∀ base s4, Builds o setting { s1 with nextNode := s1.nextNode + 1 } [] s4
        (declared.toList.map .ofBinder ++ ofOptionalExpr base) →
        Moved o s.here.start m left (declared.toList.map .ofBinder ++ ofOptionalExpr base)
          s4.tokens s4.lastEnd →
        Meets o (behindBase base) s4 fun c s' => c.isDeclaration = isDeclaration ∧
          Made o setting s.here.start left s [] s' [.ofClass c] :=
      fun base s4 hfront hs4 => (classBody_meets hg base hname hkind hfront hleft hs4).imp
        fun _ _ h => ⟨h.1, .reads_next hpass.agrees h.2.1, h.2.2⟩
    refine .ite' (fun _ => ?_) fun _ => hbase none s3 ?_ ?_
    · refine (Still.advance' s3 hs3.rest).bind' fun _ s4 h4 => ?_
      refine Meets.map_bind ((hg.operand s4.here).part (hs3.reaches h4.2) hleft)
        fun e s5 h5 => hbase (some e) s5 ?_ (h5.2.mono (Nat.sub_le _ _))
      exact (hbuilds.next_reads h4.2.agrees).next (.expression h5.1)
    · simpa [ofOptionalExpr] using hbuilds
    · simpa [ofOptionalExpr] using hs3
  cases name with
  | none => exact hdeclared none m s2 (fun _ => hname) (by simp) (.reads hsame) hs2
  | some u =>
    cases isDeclaration with
    | true =>
      obtain rfl := hsetting rfl
      obtain ⟨hu, hx, hm⟩ := hname u rfl
      refine Meets.map_bind (declare_meets hg.module hu (by decide) _ hx hm hs2) fun b s3 h3 => ?_
      have hadmits : Setting.Admits s2 outer .statement := .inl (houter.trans hsame.scope.symm)
      exact hdeclared (some b) s.here.start s3 (by simp) (fun _ _ => rfl)
        (.reads_next hsame (.declaring hadmits (h3.1 []))) h3.2
    | false => exact hdeclared none m s2 (fun _ => hname) (by simp) (.reads hsame) hs2

/-! ## Operators -/

omit hg in
theorem atArrow_eq : ∃ r : ParserState → Bool, atArrow = fun s => .ok (r s, s) := by
  have h : ∀ s, ∃ b, atArrow s = .ok (b, s) := by
    rintro ⟨⟨kind, start, stop, value, newline⟩, ahead, lastEnd⟩
    cases kind with
    | sign x => cases x <;> exact ⟨_, rfl⟩
    | _ => exact ⟨_, rfl⟩
  exact ⟨fun s => (h s).choose, funext fun s => (h s).choose_spec⟩

theorem primary_yields (t : Token) :
    Yields o (d + 1) .expression (.first t) [] (primary g) fun e => [.ofExpr e] := by
  refine .here_bind fun ht => ?_
  split
  case h_1 hkind =>
    refine .first_bind (.advance' (by rw [hkind]; rfl)) fun _ _ => ?_
    exact .bind_from (reference_yields ht hkind (Nat.le_refl _)) fun n => .pure' rfl
  case h_2 hkind =>
    have hlast : t.kind.isLast = false := by rw [hkind]; rfl
    refine .first_bind (.advance' hlast) fun _ _ s left hleft hs => ?_
    refine .ok ⟨.node rfl rfl (.inl rfl) trivial ?_ rfl ⟨rfl, rfl⟩,
      hs.leaf rfl (nonempty_of_mem ht hlast) (Nat.le_refl _) (Nat.le_refl _)⟩
    intro scope heq
    cases heq
    rfl
  case h_8 hkind =>
    refine .first_bind (.advance' (by rw [hkind]; rfl)) fun _ _ => .bind' hg.assignment fun e => ?_
    exact .still_bind (.expectSign' _) fun _ _ => .pure' rfl
  case h_9 hkind => exact object_yields hg (by rw [hkind]; rfl)
  case h_10 => exact .map' fun s left hleft hs =>
    (function_meets hg false (fun h => by cases h) hleft hs).imp fun _ _ h => h.2
  case h_11 => exact .map' fun s left hleft hs =>
    (classDef_meets hg false (fun h => by cases h) hleft hs).imp fun _ _ h => h.2
  case h_12 => exact .unexpected' _
  all_goals
    rename_i hkind
    exact literal_yields hg ht (by rw [Token.literal?, hkind])

theorem construction_yields (hkind : t.kind = .keyword .newKw) :
    Yields o (d + 1) .expression (.first t) [] (construction g) fun e => [.ofExpr e] := by
  refine .first_bind (.advance' (by rw [hkind]; rfl)) ?_
  rintro new rfl s left hleft hs
  refine .step rfl ?_
  extract_lets behindCallee
  have hcallee : ∀ e, Yields o (d + 1) .expression (.past new.start new.stop) [.ofExpr e]
      (behindCallee e) fun e => [.ofExpr e] := by
    intro e
    have hstart : (ofExpr e).node.start = e.info.span.start := by
      rw [node_ofExpr]
      rfl
    refine .steps_bind fun n hn => .bind_from (f := fun e => [.ofExpr e]) (.focus ?_) fun callee => ?_
    · rw [hstart]
      exact .iterate' (accessSuffix_steps hg) n (by omega) e
    · have hmake : ∀ m as, Yields o (n + 1) .expression (.past new.start m)
          (.ofExpr callee :: ofExprs as) (do
            return Expr.call (← nodeFrom new.start) true callee as) fun e => [.ofExpr e] :=
        fun m as => .made (fun i => .expr (.call i true callee as))
          (fun _ => ⟨rfl, rfl, .inl rfl, trivial, rfl⟩) fun _ => rfl
      refine .peek_bind fun _ => .ite' (fun _ => ?_) fun _ => .pure_bind' (hmake _ [])
      exact .bind_less (fun t => arguments_yields hg t) (hmake _) (by omega) (Nat.le_succ _)
  have hgo : ∀ {p : Parser Expr} {e}, Yields o e .expression (.first s.here) [] p (fun e => [.ofExpr e]) →
      d ≤ e → Meets o (p >>= behindCallee) s fun e s' => Made o .expression new.start left s [] s' [.ofExpr e] := by
    intro p e hp he
    refine (hp.part hs (by omega)).bind' fun e s1 h1 => ?_
    exact (hcallee e s1 (left - 1) (by omega) h1.2).imp fun _ _ h =>
      ⟨h1.1.next h.1, h.2.mono (Nat.sub_le _ _)⟩
  exact .ite' (fun h => hgo (hg.construction _ (of_decide_eq_true h)) (Nat.le_refl d))
    fun _ => hgo (primary_yields hg _) (Nat.le_succ d)

theorem operand_yields (t : Token) :
    Yields o (d + 1) .expression (.first t) [] (operand g) fun e => [.ofExpr e] := by
  have hsuffixes : ∀ e, Yields o (d + 1) .expression (.past t.start t.start) [.ofExpr e] (do
      iterate (suffix g t.start) (← stepsLeft) e) fun e => [.ofExpr e] := fun e =>
    .steps_bind fun n hn => .iterate' (suffix_steps hg) n (by omega) e
  refine .here_bind fun _ => .kind_bind (.ite' (fun h => ?_) fun _ => ?_)
  · exact .bind_from (construction_yields hg (of_decide_eq_true h)) hsuffixes
  · exact .bind_from (primary_yields hg t) hsuffixes

theorem unary_yields (t : Token) :
    Yields o (d + 1) .expression (.first t) [] (unary g) fun e => [.ofExpr e] := by
  refine .here_bind fun _ => ?_
  split
  · next op hop =>
    refine .first_bind (.advance' ?_) fun _ _ => .bind' hg.unary fun e => ?_
    · unfold unaryOp? at hop
      split at hop <;> simp_all [TokenKind.isLast]
    · exact .made (fun i => .expr (.unary i op e))
        (fun _ => ⟨rfl, rfl, .inl rfl, trivial, rfl⟩) fun _ => rfl
  · exact operand_yields hg t

omit hg in
theorem infixSuffix_steps {next : Parser Expr}
    (hnext : ∀ t, Yields o (d + 1) .expression (.first t) [] next fun e => [.ofExpr e])
    (level : List (Sign × Infix)) (e : Expr) :
    Steps o (d + 1) .expression x .ofExpr e (infixSuffix level next x e) := by
  refine fun s hle hs => .step rfl ?_
  split
  · exact .ok (.inl ⟨rfl, rfl⟩)
  · next op hop =>
    have hlast : s.here.kind.isLast = false := by
      unfold infixAt? at hop
      split at hop <;> simp_all [TokenKind.isLast]
    refine Yields.goes (.eats_bind (.advance' hlast) fun _ _ =>
      .bind_less hnext (fun right => ?_) (Nat.le_succ _) (Nat.le_succ _)) hle hs
    cases op with
    | logical op =>
      exact .made (fun i => .expr (.logical i op e right))
        (fun _ => ⟨rfl, rfl, .inl rfl, trivial, rfl⟩) fun _ => rfl
    | plain op =>
      exact .made (fun i => .expr (.binary i op e right))
        (fun _ => ⟨rfl, rfl, .inl rfl, trivial, rfl⟩) fun _ => rfl

theorem infixes_yields (levels : List (List (Sign × Infix))) : ∀ t,
    Yields o (d + 1) .expression (.first t) [] (infixes g levels) fun e => [.ofExpr e] := by
  induction levels with
  | nil => exact unary_yields hg
  | cons level tighter ih =>
    intro t
    refine .here_bind fun _ => .bind_from (ih t) fun left => .steps_bind fun n hn => ?_
    exact .iterate' (infixSuffix_steps ih level) n (by omega) left

theorem conditional_yields (t : Token) :
    Yields o (d + 1) .expression (.first t) [] (conditional g) fun e => [.ofExpr e] := by
  refine .here_bind fun _ => .bind_from (infixes_yields hg precedence t) fun test => ?_
  refine .still_bind (.accept' _) fun _ _ => .ite' (fun _ => ?_) fun _ => .pure' rfl
  refine .bind' hg.assignment fun x => .still_bind (.expectSign' _) fun _ _ => ?_
  exact .bind' hg.assignment fun y => .made (fun i => .expr (.conditional i test x y))
    (fun _ => ⟨rfl, rfl, .inl rfl, trivial, rfl⟩) fun _ => rfl

theorem assignment_yields (t : Token) :
    Yields o (d + 1) .expression (.first t) [] (assignment g) fun e => [.ofExpr e] := by
  obtain ⟨r, hr⟩ := atArrow_eq
  unfold assignment
  rw [hr]
  refine .peek_bind fun _ => .ite' (fun _ => arrow_yields hg t) fun _ => ?_
  refine .here_bind fun _ => .bind_from (conditional_yields hg t) fun left => .peek_bind fun u => ?_
  cases assignOp? u.kind with
  | none => exact .pure' rfl
  | some op =>
    refine .ite' (fun _ => .fail_bind nofun) fun htarget => .still_bind .advance' fun _ _ => ?_
    have htarget : isTarget left = true := by simpa using htarget
    exact .bind' hg.assignment fun right => .made (fun i => .expr (.assign i op left right))
      (fun _ => ⟨rfl, rfl, .inl rfl, htarget, rfl⟩) fun _ => rfl

/-! ## Statements -/

theorem block_yields (t : Token) :
    Yields o (d + 1) .statement (.first t) [] (block g) fun s => [.ofStmt s] := by
  refine .here_bind fun _ => .first_bind (.expectSign' _) fun _ _ s left hleft hs => ?_
  refine .step rfl (.symbols_bind ?_)
  rw [hg.module]
  have hinner : Yields o (d + 1) .statement (.past t.start t.stop) [] (do
      statements g (← stepsLeft)) ofStmts :=
    .steps_bind fun n hn => statements_yields hg n (by omega)
  refine .inScope_bind (hinner _ left hleft (by exact hs)) ?_
  rintro ss s1 ⟨hbuilds, h1⟩
  refine (Still.expectSign' _ _ (by exact h1.rest)).bind' ?_
  rintro _ s2 ⟨-, h2⟩
  refine .ok ⟨?_, ?_⟩
  · have hid : s2.nextNode = s1.nextNode := h2.agrees.nextNode
    have hblock : Builds o .statement s []
        { s1 with scope := s.scope, nextNode := s1.nextNode + 1 }
        [.mk (.stmt (.block ⟨s2.nextNode, t.start, s2.lastEnd⟩ ss)) (ofStmts ss)] :=
      .block hbuilds hid
    exact hblock.next_reads
      ⟨h2.agrees.scope, congrArg (· + 1) hid, h2.agrees.symbols, h2.agrees.returns⟩
  · exact (Moved.reaches (by exact h1) h2).node rfl

theorem declarator_yields (kind : DeclarationKind) (scope : ScopeId) (t : Token) :
    Yields o (d + 1) (.declaring scope) (.first t) [] (declarator g kind scope)
      fun d => [.ofDeclarator d] := by
  refine .first_bind (.expect' _ rfl) ?_
  rintro t ⟨rfl, ht, hident⟩
  refine .still_bind (.accept' _) fun _ _ => ?_
  extract_lets behindInit
  have hinit : ∀ init, Yields o (d + 1) (.declaring scope) (.past t.start t.stop)
      (ofOptionalExpr init) (behindInit init) fun d => [.ofDeclarator d] := by
    intro init
    have hkind : kind.variableKind ≠ .classReceiver := by cases kind <;> decide
    refine .bind_from (declare_yields hg.module ⟨ht, hident⟩ hkind _ (Nat.le_refl _) (Nat.le_refl _))
      fun b => ?_
    exact .made (fun i => .declarator (.mk i b init))
      (fun _ => ⟨rfl, rfl, .inr rfl, trivial, rfl⟩) fun _ => rfl
  refine .ite' (fun _ => ?_) fun _ => .ite' (fun _ => .fail_bind nofun)
    fun _ => .pure_bind' (hinit none)
  exact .bind' (fun t => .map' (.within (hg.assignment t))) hinit

theorem declarators_yields (kind : DeclarationKind) (scope : ScopeId) (n : Nat) (hn : n ≤ d + 1) :
    ∀ {m acc}, Yields o (n + 1) (.declaring scope) (.past x m) acc (declarators g kind scope n)
      fun ds => acc ++ ofDeclarators ds := by
  induction n with
  | zero => exact .no_steps
  | succ n ih =>
    refine .bind_less (declarator_yields hg kind scope) (fun d => ?_) (by omega) (Nat.le_succ _)
    exact .takes_bind (.accept' _) (.bind_from (ih (by omega)) fun ds =>
      .pure' (by simp [ofDeclarators])) (.pure' rfl)

theorem declaration_yields (kind : DeclarationKind) (ht : t.kind.isLast = false) :
    Yields o (d + 1) .statement (.first t) [] (declaration g kind) fun s => [.ofStmt s] := by
  refine .first_bind (.advance' ht) ?_
  rintro t rfl s left hleft hs
  refine .step rfl ?_
  extract_lets scope
  have hadmits : Setting.Admits s scope .statement := by
    dsimp only [scope]
    split
    · exact .inr rfl
    · exact .inl rfl
  have hrest : Yields o (d + 1) (.declaring scope) (.past t.start t.stop) [] (do
      let ds ← declarators g kind scope (← stepsLeft)
      semicolon
      return Stmt.declaration (← nodeFrom t.start) kind ds) fun s => [.ofStmt s] :=
    .steps_bind fun n hn => .bind_from (declarators_yields hg kind scope n (by omega)) fun ds =>
      .still_bind .semicolon' fun _ _ => .made (fun i => .stmt (.declaration i kind ds))
        (fun _ => ⟨rfl, rfl, .inr rfl, trivial, rfl⟩) fun _ => rfl
  exact (hrest s left hleft hs).imp fun _ _ h => ⟨.declaring hadmits h.1, h.2⟩

theorem branch_yields (ht : t.kind.isLast = false) :
    Yields o (d + 1) .statement (.first t) [] (branch g) fun s => [.ofStmt s] := by
  refine .first_bind (.advance' ht) ?_
  rintro t rfl
  refine .still_bind (.expectSign' _) fun _ _ => ?_
  refine .bind' (fun t => .within (hg.assignment t)) fun test => ?_
  refine .still_bind (.expectSign' _) fun _ _ => .bind' hg.statement fun x => .peek_bind fun _ => ?_
  have hmake : ∀ m y, Yields o (d + 1) .statement (.past t.start m)
      ([.ofExpr test] ++ [.ofStmt x] ++ ofOptionalStmt y)
      (do return Stmt.branch (← nodeFrom t.start) test x y) fun s => [.ofStmt s] :=
    fun m y => .made (fun i => .stmt (.branch i test x y))
      (fun _ => ⟨rfl, rfl, .inr rfl, trivial, rfl⟩) fun _ => rfl
  refine .ite' (fun _ => ?_) fun _ => .pure_bind' (hmake _ none)
  refine .still_bind .advance' fun _ _ => ?_
  exact .bind' (fun t => .map' (hg.statement t)) (hmake _)

theorem returnStatement_yields (hmem : t ∈ tokens o.source) (ht : t.kind.isLast = false) :
    Yields o (d + 1) .statement (.first t) [] (returnStatement g) fun s => [.ofStmt s] := by
  refine .first_bind (.advance' ht) ?_
  rintro t rfl
  refine .peek_bind fun u => ?_
  extract_lets behindArgument
  have hargument : ∀ a, returnsAll (ofOptionalExpr a) = [] →
      Yields o (d + 1) .statement (.past t.start t.stop) (ofOptionalExpr a)
        (behindArgument a) fun s => [.ofStmt s] := by
    intro a hnone
    refine .still_bind .semicolon' fun _ _ s left hleft hs => .step rfl (.step rfl ?_)
    dsimp only
    cases hlists : s.returns with
    | nil => exact .error nofun (Left.start_le hmem)
    | cons own outer =>
      exact .ok ⟨.node rfl rfl (.inr rfl) trivial nofun (by rw [hnone]; rfl) (by rw [hlists]; rfl),
        hs.node rfl⟩
  refine .ite' (fun _ s left hleft hs => ?_) fun _ => .pure_bind' (hargument none rfl)
  refine Meets.map_bind ((hg.assignment s.here).part hs hleft) fun e s1 h1 => ?_
  obtain ⟨_, hnone, rfl, -⟩ := h1.1.tallies
  exact (hargument (some e) hnone s1 (left - 1) (by omega) h1.2).imp fun _ _ h =>
    ⟨(Builds.expression h1.1).next h.1, h.2.mono (by omega)⟩

theorem raise_yields (ht : t.kind.isLast = false) :
    Yields o (d + 1) .statement (.first t) [] (raise g) fun s => [.ofStmt s] := by
  refine .first_bind (.advance' ht) ?_
  rintro t rfl
  refine .peek_bind fun u => .ite' (fun _ => .fail_bind nofun) fun _ => ?_
  refine .bind' (fun t => .within (hg.assignment t)) fun e => .still_bind .semicolon' fun _ _ => ?_
  exact .made (fun i => .stmt (.raise i e))
    (fun _ => ⟨rfl, rfl, .inr rfl, trivial, rfl⟩) fun _ => rfl

theorem expressionStatement_yields (t : Token) :
    Yields o (d + 1) .statement (.first t) [] (expressionStatement g) fun s => [.ofStmt s] := by
  refine .here_bind fun _ => .bind_from (.within (assignment_yields hg t)) fun e => ?_
  exact .still_bind .semicolon' fun _ _ => .made (fun i => .stmt (.expression i e))
    (fun _ => ⟨rfl, rfl, .inr rfl, trivial, rfl⟩) fun _ => rfl

theorem function_yields {setting : Setting} (needsName : Bool) (t : Token)
    (hsetting : kind = .declaration → setting = .statement) :
    Yields o (d + 1) setting (.first t) [] (function g kind needsName) fun f => [.ofFunc f] :=
  fun _ _ hleft hs => (function_meets hg needsName hsetting hleft hs).imp fun _ _ h => h.2

theorem classDef_yields {setting : Setting} (needsName : Bool) (t : Token)
    (hsetting : isDeclaration = true → setting = .statement) :
    Yields o (d + 1) setting (.first t) [] (classDef g isDeclaration needsName) fun c => [.ofClass c] :=
  fun _ _ hleft hs => (classDef_meets hg needsName hsetting hleft hs).imp fun _ _ h => h.2

theorem statement_yields (t : Token) :
    Yields o (d + 1) .statement (.first t) [] (statement g) fun s => [.ofStmt s] := by
  refine .here_bind fun ht => ?_
  split
  case h_1 hkind =>
    refine .first_bind (.advance' (by rw [hkind]; rfl)) fun _ _ => ?_
    exact .leaf (fun i => .stmt (.empty i)) ht (by rw [hkind]; rfl)
      (fun _ => ⟨rfl, rfl, .inr rfl, trivial, rfl⟩) fun _ => rfl
  case h_2 => exact block_yields hg t
  case h_6 => exact .map' (function_yields hg true t fun _ => rfl)
  case h_7 => exact .map' (classDef_yields hg true t fun _ => rfl)
  case h_8 hkind => exact branch_yields hg (by rw [hkind]; rfl)
  case h_9 hkind => exact returnStatement_yields hg ht (by rw [hkind]; rfl)
  case h_10 hkind => exact raise_yields hg (by rw [hkind]; rfl)
  case h_11 => exact fun _ _ _ hs => .fail' hs.rest nofun
  case h_12 => exact fun _ _ _ hs => .fail' hs.rest nofun
  case h_13 => exact expressionStatement_yields hg t
  all_goals
    rename_i hkind
    exact declaration_yields hg _ (by rw [hkind]; rfl)

end

/-! ## Modules -/

theorem importSpecifier_still : Still o importSpecifier := by
  refine .bind' .exportName' fun t ht => .bind' (.acceptWord' _) fun _ _ => .ite' (fun _ => ?_) ?_
  · exact .bind' (.expect' _ rfl) fun _ h => .addImport' _ h.1
  · exact fun _ => .ite' (fun _ _ _ => .error nofun (Left.start_le ht)) fun _ => .addImport' _ ht

theorem importClause_still : Still o importClause := by
  refine .bind' .current' fun t _ => ?_
  split
  · exact .bind' .advance' fun _ _ => .bind' (.expectWord' _) fun _ _ =>
      .bind' (.expect' _ rfl) fun _ h => .bind' (.addImport' _ h.1) fun _ _ => .pure' trivial
  · exact .bind' .advance' fun _ _ => .any (.listUntil' _ importSpecifier_still)
  · exact .unexpected' _

theorem exportSpecifier_still :
    Still o exportSpecifier fun r => r.1 ∈ tokens o.source := by
  refine .bind' .exportName' fun t ht => .bind' (.acceptWord' _) fun _ _ => ?_
  exact .ite' (fun _ => .bind' (.map' .exportName') fun _ _ => .pure' ht)
    fun _ => .bind' (R := fun _ => True) (.pure' trivial) fun _ _ => .pure' ht

theorem importDeclaration_yields (ht : t.kind.isLast = false) :
    Yields o d .item (.first t) [] importDeclaration fun s => [.ofStmt s] := by
  refine .first_bind (.advance' ht) ?_
  rintro t rfl
  have hmake : ∀ source specifiers, Yields o d .item (.past t.start t.stop) [] (do
      return Stmt.importFrom (← nodeFrom t.start) source specifiers) fun s => [.ofStmt s] :=
    fun source specifiers => .made (fun i => .stmt (.importFrom i source specifiers))
      (fun _ => ⟨rfl, rfl, .inr rfl, trivial, rfl⟩) fun _ => rfl
  refine .still_bind .current' fun u hu => .ite' (fun _ => ?_) fun _ => ?_
  · exact .still_bind .advance' fun _ _ => .still_bind .semicolon' fun _ _ => hmake _ _
  · extract_lets behindFirst
    have hfirst : ∀ first, Yields o d .item (.past t.start t.stop) [] (behindFirst first)
        fun s => [.ofStmt s] := by
      intro first
      dsimp -zeta only [behindFirst]
      extract_lets behindMore
      have hmore : ∀ more, True → Yields o d .item (.past t.start t.stop) [] (behindMore more)
          fun s => [.ofStmt s] :=
        fun more _ => .still_bind .fromSource' fun _ _ => .still_bind .semicolon' fun _ _ => hmake _ _
      refine .ite' (fun _ => .still_bind importClause_still hmore) fun _ => ?_
      refine .still_bind (.accept' _) fun _ _ => ?_
      exact .ite' (fun _ => .still_bind importClause_still hmore) fun _ => .pure_bind' (hmore _ trivial)
    refine .ite' (fun _ => .still_bind .advance' fun _ _ => ?_) fun _ => .pure_bind' (hfirst _)
    exact .still_bind (.map' (.addImport' _ hu)) fun _ _ => hfirst _

theorem exportList_yields :
    Yields o d .item (.past x m) [] (exportList x) fun s => [.ofStmt s] := by
  refine .still_bind (.expectSign' _) fun _ _ => ?_
  refine .still_bind (.listUntil' _ exportSpecifier_still) fun items hitems => .peek_bind fun _ => ?_
  extract_lets behindSource
  have hsource : ∀ source, Yields o d .item (.past x m) [] (behindSource source)
      fun s => [.ofStmt s] := fun source => .still_bind .semicolon' fun _ _ =>
    .made (fun i => .stmt (.exportList i source (items.map Prod.snd)))
      (fun _ => ⟨rfl, rfl, .inr rfl, trivial, rfl⟩) fun _ => rfl
  refine .ite' (fun _ => .still_bind .fromSource' fun _ _ => hsource _) fun _ => ?_
  split
  · next hfind =>
    have hmem := hitems _ (List.mem_of_find?_eq_some hfind)
    refine .still_bind (R := fun _ => True) (fun _ _ => .error nofun (Left.start_le hmem)) fun _ _ => hsource _
  · exact .pure_bind' (hsource _)

theorem exportAll_yields :
    Yields o d .item (.past x m) [] (exportAll x) fun s => [.ofStmt s] := by
  refine .still_bind (.expectSign' _) fun _ _ => .still_bind (.acceptWord' _) fun _ _ => ?_
  extract_lets behindName
  have hname : ∀ exported, Yields o d .item (.past x m) [] (behindName exported)
      fun s => [.ofStmt s] := fun exported => .still_bind .fromSource' fun source _ =>
    .still_bind .semicolon' fun _ _ => .made (fun i => .stmt (.exportAll i source exported))
      (fun _ => ⟨rfl, rfl, .inr rfl, trivial, rfl⟩) fun _ => rfl
  exact .ite' (fun _ => .still_bind (.map' .exportName') fun _ _ => hname _)
    fun _ => .pure_bind' (hname _)

section

variable {g : Grammar} {d : Nat} (hg : Regular o d g)
include hg

theorem exportDefault_yields :
    Yields o (d + 1) .item (.past x m) [] (exportDefault g x) fun s => [.ofStmt s] := by
  refine .still_bind .advance' fun _ _ s left hleft hs => .step rfl (.step rfl ?_)
  extract_lets behindValue
  have hvalue : ∀ value own s1, (∀ v, own = some v → value.declaredVar? = some v) →
      Builds o .statement { s with nextNode := s.nextNode + 1 } [] s1 [.ofExpr value] ∧
        Moved o x m left [.ofExpr value] s1.tokens s1.lastEnd →
      Meets o (behindValue (value, own)) s1 fun e s' => Made o .item x left s [] s' [.ofStmt e] := by
    rintro value own s1 hown ⟨hbuilds, h1⟩
    cases own with
    | some v =>
      exact .ok ⟨.exportDefault rfl hbuilds (.inl ⟨hown v rfl, rfl⟩), h1.node rfl⟩
    | none =>
      refine .ok ⟨.exportDefault rfl hbuilds (.inr ⟨g.defaultName, ?_⟩), h1.node rfl⟩
      rw [← hg.module]
      rfl
  have hfresh : Fresh o s.here.start s.here (left - 1) [] s.tokens s.lastEnd := hs.fresh (by omega)
  have hless : left - 1 ≤ d + 1 := by omega
  split
  · refine .map_bind (function_meets hg false (fun _ => rfl) hless (by exact hfresh))
      fun f s1 h1 => hvalue _ _ s1 ?_ ⟨h1.2.1, hs.sub h1.2.2 (Nat.sub_le _ _)⟩
    rw [Expr.declaredVar?, if_pos h1.1]
    exact fun _ => id
  · refine .map_bind (classDef_meets hg false (fun _ => rfl) hless (by exact hfresh))
      fun c s1 h1 => hvalue _ _ s1 ?_ ⟨h1.2.1, hs.sub h1.2.2 (Nat.sub_le _ _)⟩
    rw [Expr.declaredVar?, if_pos h1.1]
    exact fun _ => id
  · refine (assignment_yields hg s.here _ (left - 1) hless (by exact hfresh)).bind'
      fun e s1 h1 => (Still.semicolon' s1 h1.2.rest).bind' fun _ s2 h2 => hvalue e none s2 ?_ ⟨?_, ?_⟩
    · exact fun _ h => by cases h
    · exact .next_reads (.expression h1.1) h2.2.agrees
    · exact (hs.sub h1.2 (Nat.sub_le _ _)).reaches h2.2

theorem exportDeclaration_yields (ht : t.kind.isLast = false) :
    Yields o (d + 1) .item (.first t) [] (exportDeclaration g) fun s => [.ofStmt s] := by
  refine .first_bind (.advance' ht) ?_
  rintro start rfl s left hleft hs
  have declared : ∀ {p : Parser Stmt},
      Yields o (d + 1) .statement (.first s.here) [] p (fun s => [.ofStmt s]) →
      Meets o (do
        let d ← p
        return Stmt.exportDeclaration (← nodeFrom start.start) d) s fun e s' =>
          Made o .item start.start left s [] s' [.ofStmt e] := by
    intro p hp
    refine (hp.toItem.part hs (by omega)).bind' ?_
    rintro d s1 ⟨hbuilds, h1⟩
    have hmade : Yields o left .item (.past start.start start.stop) [.ofStmt d] (do
        return Stmt.exportDeclaration (← nodeFrom start.start) d) fun s => [.ofStmt s] :=
      .made (fun i => .stmt (.exportDeclaration i d))
        (fun _ => ⟨rfl, rfl, .inr rfl, trivial, rfl⟩) fun _ => rfl
    exact (hmade s1 left (Nat.le_refl _) (h1.mono (Nat.sub_le _ _))).imp fun _ _ h =>
      ⟨hbuilds.next h.1, h.2⟩
  refine .step rfl ?_
  split
  · exact exportDefault_yields hg s left hleft hs
  · exact exportAll_yields s left hleft hs
  · exact exportList_yields s left hleft hs
  · next hkind => exact declared (declaration_yields hg _ (by rw [hkind]; rfl))
  · next hkind => exact declared (declaration_yields hg _ (by rw [hkind]; rfl))
  · next hkind => exact declared (declaration_yields hg _ (by rw [hkind]; rfl))
  · exact declared (.map' (function_yields hg true _ fun _ => rfl))
  · exact declared (.map' (classDef_yields hg true _ fun _ => rfl))
  · exact .unexpected' hs.rest _

theorem item_yields (t : Token) :
    Yields o (d + 1) .item (.first t) [] (item g) fun s => [.ofStmt s] := by
  refine .here_bind fun _ => ?_
  split
  · next hkind =>
    refine .peek_bind fun next => .ite' (fun _ => .fail_bind nofun) fun _ => ?_
    exact importDeclaration_yields (by rw [hkind]; rfl)
  · next hkind => exact exportDeclaration_yields hg (by rw [hkind]; rfl)
  · exact (statement_yields hg t).toItem

/-- The items of a module are read to the end of its source. -/
theorem items_meets (n : Nat) (hn : n ≤ d + 1) : ∀ s, Left o s.tokens s.lastEnd →
    s.tokens.length ≤ n → Meets o (items g n) s fun ss s' =>
      Builds o .item s [] s' (ofStmts ss) ∧ Left o s'.tokens s'.lastEnd ∧
        Spread s.lastEnd (ofStmts ss) s'.lastEnd ∧ s'.here.kind = .endOfFile := by
  induction n with
  | zero => exact fun _ _ h => absurd h (Nat.not_succ_le_zero _)
  | succ n ih =>
    intro s hs hle
    refine .step rfl (.ite' (fun h => ?_) fun _ => ?_)
    · exact .ok ⟨.reads (.refl s), hs, .nil (Nat.le_refl _), of_decide_eq_true h⟩
    have hfresh : Fresh o s.here.start s.here s.tokens.length [] s.tokens s.lastEnd :=
      ⟨hs, rfl, Nat.le_refl _, .nil (Nat.le_max_left _ _), Nat.le_refl _⟩
    refine (item_yields hg s.here s _ (by omega) hfresh).bind' ?_
    rintro stmt s1 ⟨hbuilds, h1⟩
    have hlt := h1.left
    refine (ih (by omega) s1 h1.rest (by omega)).bind' ?_
    rintro ss s2 ⟨hbuilds', hleft, hspread, hend⟩
    refine .ok ⟨?_, hleft, ?_, hend⟩
    · exact hbuilds.next (.apart hbuilds')
    · have hbehind := hs.behind s.here List.mem_cons_self
      exact (h1.spread.widen hbehind (Nat.le_refl _)).append hspread

end

theorem unfold_regular (o : ModuleText) (defaultName : Bytes) :
    ∀ depth, Regular o depth (Grammar.unfold o.source o.module defaultName depth)
  | 0 => ⟨rfl, rfl, fun _ => .no_tokens, fun _ => .no_tokens, fun _ => .no_tokens,
      fun _ _ => .no_tokens, fun _ => .no_tokens⟩
  | depth + 1 => by
    have h := unfold_regular o defaultName depth
    exact ⟨rfl, rfl, assignment_yields h, unary_yields h, operand_yields h,
      fun _ => construction_yields h, statement_yields h⟩

/-- The state in which the items of a module are read. -/
def initial (source : Bytes) (module : Option ModuleId) (symbols : Symbols) (nextNode : NodeId) :
    ParserState where
  here := (Lexer.tokens source).headD { kind := .endOfFile, start := 0, stop := 0 }
  ahead := (Lexer.tokens source).tail
  scope := (symbols.addScope .module Symbols.globalScope module).1
  symbols := (symbols.addScope .module Symbols.globalScope module).2
  nextNode := nextNode + 1

@[simp]
theorem tokens_initial (source : Bytes) (module : Option ModuleId) (symbols : Symbols)
    (nextNode : NodeId) : (initial source module symbols nextNode).tokens = tokens source := by
  obtain ⟨front, last, heq, -, -⟩ := (tokensFrom_cut 0 source).last
  rw [initial, tokens, heq]
  cases front <;> rfl

/-- All of a module, read from the beginning. -/
def readAll (source : Bytes) (module : Option ModuleId) (defaultName : Bytes) (symbols : Symbols)
    (nextNode : NodeId) : Except SyntaxError (List Stmt × ParserState) :=
  (items (Grammar.unfold source module defaultName (Lexer.tokens source).length)
    ((Lexer.tokens source).length + 1)).run (initial source module symbols nextNode)

theorem readAll_outcome (source : Bytes) (module : Option ModuleId) (defaultName : Bytes)
    (symbols : Symbols) (next : NodeId) :
    Outcome ⟨source, module⟩ (fun ss s =>
        Builds ⟨source, module⟩ .item (initial source module symbols next) [] s
          (ofStmts ss) ∧
        Left ⟨source, module⟩ s.tokens s.lastEnd ∧ Spread 0 (ofStmts ss) s.lastEnd ∧
        s.here.kind = .endOfFile) (readAll source module defaultName symbols next) := by
  refine items_meets (unfold_regular ⟨source, module⟩ defaultName _) _ (Nat.le_refl _) _ ⟨?_, ?_⟩ ?_
  · simp
  · exact fun _ _ => Nat.zero_le _
  · rw [tokens_initial]
    exact Nat.le_succ _

end Parser

namespace Program

theorem parse_eq (source : Bytes) (module : Option ModuleId) (defaultName : Bytes)
    (t : Symbols) (next : NodeId) : parse source module defaultName t next = (do
      let (body, s) ← Parser.readAll source module defaultName t next
      return {
        program := { info := ⟨next, 0, source.length⟩, source, scope := t.scopes.size, body }
        symbols := s.symbols
        nextNode := s.nextNode }) := rfl

/-- What a parser builds from a state that has read nothing of a module. -/
theorem parse_builds {defaultName : Bytes} {module : Option ModuleId} {t : Symbols}
    {next : NodeId} {p : Parsed}
    (h : parse source module defaultName t next = .ok p) :
    ∃ s s' : ParserState, s.scope = t.scopes.size ∧ s.nextNode = next + 1 ∧
      s.symbols = (t.addScope .module globalScope module).2 ∧
      p.program.info.id = next ∧ p.program.scope = t.scopes.size ∧ p.symbols = s'.symbols ∧
      p.nextNode = s'.nextNode ∧
      Builds ⟨source, module⟩ .item s [] s' (ofStmts p.program.body) := by
  have hall := Parser.readAll_outcome source module defaultName t next
  rw [parse_eq] at h
  generalize Parser.readAll source module defaultName t next = r at h hall
  cases hall with
  | ok hread =>
    cases h
    exact ⟨_, _, rfl, rfl, rfl, rfl, rfl, rfl, rfl, hread.1⟩
  | error => cases h

end Program

end Winnow
