import BindingPower.Proofs.Bound

/-! What a parse does to its state, whatever its rules are. A relation that every single thing a
parser does respects holds between the states before and after a whole expression. -/
namespace BindingPower

namespace ParseM
variable {α β : Type}

/-- A computation that brings every state to one in a relation with it. -/
def Moves (R : Progress → Progress → Prop) (m : ParseM α) : Prop := ∀ s, R s (m s).2

theorem Moves.bind {R : Progress → Progress → Prop} {m : ParseM α} {f : α → ParseM β}
    (trans : ∀ {s₁ s₂ s₃}, R s₁ s₂ → R s₂ s₃ → R s₁ s₃) (hm : Moves R m) (hf : ∀ a, Moves R (f a)) :
    Moves R (m >>= f) := by
  intro s
  have first := hm s
  rw [bind_apply]
  rcases h : m s with ⟨e | a, s'⟩ <;> rw [h] at first
  · exact first
  · exact trans first (hf a s')

theorem Moves.outcome {R : Progress → Progress → Prop} {m : ParseM α} (hm : Moves R m) :
    Moves R (ParseM.outcome m) := by
  intro s
  have same := hm s
  unfold ParseM.outcome
  rcases h : m s with ⟨(e | d) | a, s'⟩ <;> rw [h] at same <;> exact same

theorem state_peek (s : Progress) : (peek s).2 = { s with lexer := s.lexer.peek.2 } := by
  unfold peek
  split <;> simp [*]

theorem state_advance (s : Progress) : (advance s).2 = { s with lexer := s.lexer.advance.2 } := by
  unfold advance
  split <;> simp [*]

theorem log_peek (s : Progress) : (peek s).2.log = s.log := by rw [state_peek]

theorem log_advance (s : Progress) : (advance s).2.log = s.log := by rw [state_advance]

end ParseM

/-- The beginning of an expression, be it refused or not. -/
def Event.isCall : Event → Bool
  | .enter _ | .refuse _ => true
  | _ => false

/-- What is noted in passing, neither the beginning of an expression nor its end. -/
def Event.isNote : Event → Bool
  | .classify .. | .left _ | .result _ => true
  | _ => false

theorem Event.isCall_eq_false_of_isNote {e : Event} (h : e.isNote = true) : e.isCall = false := by
  cases e <;> first | rfl | cases h

/-- An action that some answers to what it asks bring to a certain defect. -/
inductive Action.Breaks (d : Defect) : {α : Type} → Action α → Prop
  | fail {α : Type} : Breaks d (.fail (.defect d) : Action α)
  | ask {α : Type} {q : Request} {next : Outcome q.Answer → Action α} (answer : Outcome q.Answer)
    (h : Breaks d (next answer)) : Breaks d (.ask q next)
  | round {α : Type} {round : Action Round} {next : Outcome (List Node) → Action α} (h : Breaks d round) :
    Breaks d (.gather round next)
  | gather {α : Type} {round : Action Round} {next : Outcome (List Node) → Action α}
    (items : Outcome (List Node)) (h : Breaks d (next items)) : Breaks d (.gather round next)

namespace Parser
open ParseM

/-- A property that the steps of a parser have, and so has whatever is put together from what has it. Only
tokens that have been taken or looked at are classified. -/
structure Stable (p : Parser) (P : {α : Type} → ParseM α → Prop) : Prop where
  pure : ∀ {α : Type} (a : α), P (Pure.pure a)
  raise : ∀ {α : Type} (e : ParseError), (∀ limit, e ≠ .tooDeep limit) → P (ParseM.raise e : ParseM α)
  bind : ∀ {α β : Type} {m : ParseM α} {f : α → ParseM β}, P m → (∀ a, P (f a)) → P (m >>= f)
  peek : P ParseM.peek
  advance : P ParseM.advance
  binds : ∀ r, P (p.binds r)
  classify : ∀ {α : Type} {f : Token → Kind → ParseM α}, (∀ t kind, P (f t kind)) →
    P (ParseM.advance >>= fun t => p.kindOf t >>= f t)
  record : ∀ e : Event, e.isNote = true → P (ParseM.record e)
  nested : ∀ (r : Int) {m : ParseM Node}, P m → P (p.nested r m)

/-- The same where any token may be classified. -/
structure Closed (p : Parser) (P : {α : Type} → ParseM α → Prop) : Prop extends Stable p P where
  kindOf : ∀ t, P (p.kindOf t)
  binds r := bind peek fun
    | none => pure _
    | some t => bind (kindOf t) fun kind => by split <;> exact pure _
  classify hf := bind advance fun t => bind (kindOf t) (hf t)

namespace Stable
variable {p : Parser} {P : {α : Type} → ParseM α → Prop} (hP : p.Stable P)
include hP

theorem consume (t : Token) : P (ParseM.consume t) := by
  apply hP.bind hP.peek
  rintro (_ | u)
  · exact hP.raise _ nofun
  · dsimp only
    split
    · exact hP.bind hP.advance fun _ => hP.pure _
    · exact hP.raise _ nofun

theorem closes (separator closing : Option Token) : P (Parser.closes separator closing) := by
  cases separator <;> cases closing <;>
    first | exact hP.bind hP.peek fun _ => hP.pure _ | exact hP.pure _

theorem rounds {round : ParseM Round} (h : P round) (times : Nat) : P (Parser.rounds round times) := by
  induction times with
  | zero => exact hP.pure _
  | succ times ih =>
    apply hP.bind h
    rintro (_ | n | n)
    · exact hP.pure _
    · exact hP.bind ih fun _ => hP.pure _
    · exact hP.pure _

section
variable {e : Int → ParseM Node}

theorem start (rules : ∀ kind rule t, p.table.prefixRule? kind = some rule →
    P (p.run e (rule.action t rule.power))) : P (p.start e) := by
  apply hP.classify
  intro t kind
  apply hP.bind (hP.record _ rfl)
  intro _
  cases hr : p.table.prefixRule? kind with
  | none => exact hP.raise _ nofun
  | some rule =>
    exact hP.bind (rules kind rule t hr) fun _ => hP.bind (hP.record _ rfl) fun _ => hP.pure _

variable (rules : ∀ kind rule t left, p.table.infixRule? kind = some rule →
  P (p.run e (rule.action t rule.right left)))
include rules

theorem extend (left : Node) : P (p.extend e left) := by
  apply hP.classify
  intro t kind
  cases hr : p.table.infixRule? kind with
  | none => exact hP.raise _ nofun
  | some rule =>
    exact hP.bind (rules kind rule t left hr) fun _ => hP.bind (hP.record _ rfl) fun _ => hP.pure _

theorem continued (r : Int) (bound : Nat) (left : Node) : P (p.continued e r bound left) := by
  induction bound generalizing left with
  | zero => exact hP.bind (hP.binds r) fun _ => hP.pure _
  | succ bound ih =>
    apply hP.bind (hP.binds r)
    rintro (_ | _)
    · exact hP.pure _
    · exact hP.bind (hP.extend rules left) ih

end

/-- What the rules do as long as the expressions they ask for have the property, expressions do. -/
theorem expr
    (starting : ∀ {e : Int → ParseM Node}, (∀ r, P (e r)) → ∀ kind rule t,
      p.table.prefixRule? kind = some rule → P (p.run e (rule.action t rule.power)))
    (continuing : ∀ {e : Int → ParseM Node}, (∀ r, P (e r)) → ∀ kind rule t left,
      p.table.infixRule? kind = some rule → P (p.run e (rule.action t rule.right left)))
    (bound : Nat) (r : Int) : P (p.expr bound r) := by
  induction bound generalizing r with
  | zero => exact hP.nested r (hP.bind hP.peek fun _ => hP.raise _ nofun)
  | succ bound ih =>
    apply hP.nested
    apply hP.bind hP.peek
    rintro (_ | t)
    · exact hP.raise _ nofun
    · apply hP.bind (hP.start (starting ih))
      intro left
      exact hP.bind (hP.continued (continuing ih) r bound left) fun _ =>
        hP.bind (hP.record _ rfl) fun _ => hP.pure _

end Stable

/-- A property that errors do not break, be they raised or caught. -/
structure Tolerant (p : Parser) (P : {α : Type} → ParseM α → Prop) : Prop extends Stable p P where
  fails : ∀ {α : Type} (e : ParseError), P (throw (.error e) : ParseM α)
  room : P ParseM.room
  outcome : ∀ {α : Type} {m : ParseM α}, P m → P (ParseM.outcome m)

namespace Tolerant
variable {α : Type} {p : Parser} {P : {α : Type} → ParseM α → Prop} (hP : p.Tolerant P)
  {e : Int → ParseM Node} (he : ∀ r, P (e r))
include hP he

theorem elements (level : Int) (separator closing : Option Token) (times : Nat) :
    P (Parser.elements e level separator closing times) := by
  induction times with
  | zero => exact hP.pure _
  | succ times ih =>
    apply hP.bind (hP.closes separator closing)
    rintro (_ | _)
    · apply hP.bind (hP.outcome (he level))
      rintro (cause | n)
      · exact hP.pure _
      · cases separator with
        | none => exact hP.bind ih fun _ => hP.pure _
        | some separator =>
          apply hP.bind (hP.outcome (hP.consume separator))
          rintro (cause | _)
          · cases cause with
            | incomplete => exact hP.pure _
            | consumeFailed expected found =>
              dsimp only
              split
              · exact hP.bind hP.advance fun _ => hP.pure _
              · exact hP.pure _
            | _ => exact hP.fails _
          · exact hP.bind ih fun _ => hP.pure _
    · exact hP.bind hP.advance fun _ => hP.pure _

theorem answer (q : Request) : P (p.answer e q) := by
  cases q with
  | peek => exact hP.peek
  | binds r => exact hP.binds r
  | expr r => exact he r
  | consume t => exact hP.consume t
  | sequence level separator closing =>
    exact hP.bind hP.room fun _ => hP.elements he level separator closing _

/-- An action breaks such a property only with a defect of its own. -/
theorem run {a : Action α} (sound : ∀ d, a.Breaks d → ∀ {β : Type}, P (throw (.defect d) : ParseM β)) :
    P (p.run e a) := by
  induction a with
  | give a => exact hP.pure _
  | fail cause =>
    cases cause with
    | error cause => exact hP.fails cause
    | defect d => exact sound d .fail
  | ask q next ih =>
    exact hP.bind (hP.outcome (hP.answer he q)) fun answer => ih answer fun d h => sound d (.ask answer h)
  | gather round next ihr ih =>
    have items := hP.bind hP.room fun bound => hP.rounds (ihr fun d h => sound d (.round h)) (bound + 1)
    exact hP.bind (hP.outcome items) fun items => ih items fun d h => sound d (.gather items h)

end Tolerant

/-- A property that rules cannot break: it holds whatever errors they are answered with and fail with. -/
structure Pervasive (p : Parser) (P : {α : Type} → ParseM α → Prop) : Prop
    extends Closed p P, Tolerant p P where
  throw : ∀ {α : Type} (cause : Failure), P (throw cause : ParseM α)
  fails := fun cause => throw (.error cause)

namespace Pervasive
variable {α : Type} {p : Parser} {P : {α : Type} → ParseM α → Prop} (hP : p.Pervasive P)
include hP

section
variable {e : Int → ParseM Node} (he : ∀ r, P (e r))
include he

theorem run (a : Action α) : P (p.run e a) := hP.toTolerant.run he fun d _ => hP.throw (.defect d)

theorem continued (r : Int) (bound : Nat) (left : Node) : P (p.continued e r bound left) :=
  hP.toClosed.continued (fun _ _ _ _ _ => hP.run he _) r bound left

end

theorem expr (bound : Nat) (r : Int) : P (p.expr bound r) :=
  hP.toClosed.expr (fun he _ _ _ _ => hP.run he _) (fun he _ _ _ _ _ => hP.run he _) bound r

theorem perform (a : Action α) : P (p.perform a) :=
  hP.bind hP.room fun bound => hP.run (hP.expr bound) a

theorem reading (r : Int) : P (p.reading r) := p.perform_expr r ▸ hP.perform (.expr r)

theorem extending (r : Int) (left : Node) : P (p.extending r left) := by
  change P (ParseM.room >>= fun bound => p.continued p.reading r bound left)
  exact hP.bind hP.room fun bound => hP.continued hP.reading r bound left

end Pervasive

/-- Whether as many expressions are open as the limit allows. -/
def full (p : Parser) (s : Progress) : Bool := p.limit.any fun limit => limit ≤ (s.depth : Int)

/-- Everything a parser does by itself respects a relation, and so do two things in a row. -/
structure Respects (p : Parser) (R : Progress → Progress → Prop) : Prop where
  refl : ∀ s, R s s
  trans : ∀ {s₁ s₂ s₃}, R s₁ s₂ → R s₂ s₃ → R s₁ s₃
  peek : Moves R ParseM.peek
  advance : Moves R ParseM.advance
  kindOf : ∀ t, Moves R (p.kindOf t)
  record : ∀ e : Event, e.isNote = true → Moves R (ParseM.record e)
  refuse : ∀ r s, p.full s = true → R s { s with log := .refuse r :: s.log }
  enclose : ∀ r s s', p.full s = false →
    R { s with depth := s.depth + 1, log := .enter r :: s.log } s' →
    R s { s' with depth := s'.depth - 1, log := .leave :: s'.log }

theorem Respects.pervasive {p : Parser} {R : Progress → Progress → Prop} (hR : p.Respects R) :
    p.Pervasive (Moves R) where
  pure _ := hR.refl
  raise _ _ := hR.refl
  throw _ := hR.refl
  room := hR.refl
  bind hm hf := hm.bind hR.trans hf
  outcome hm := hm.outcome
  peek := hR.peek
  advance := hR.advance
  kindOf := hR.kindOf
  record := hR.record
  nested r m h s := by
    unfold Parser.nested
    split
    · exact hR.refuse r s ‹_›
    · exact hR.enclose r s _ (eq_false_of_ne_true ‹_›) (h _)

/-- As many expressions are open after whatever a parser does as there were before. -/
theorem respects_depth (p : Parser) : p.Respects fun s s' => s'.depth = s.depth where
  refl _ := rfl
  trans h h' := h'.trans h
  peek s := by rw [state_peek]
  advance s := by rw [state_advance]
  kindOf t s := by
    unfold Parser.kindOf
    split <;> rfl
  record _ _ _ := rfl
  refuse _ _ _ := rfl
  enclose _ _ _ _ h := congrArg (· - 1) h

/-- What has happened stays in the log, and the tokens to come are the last ones of those that were, up to
the same error if any. -/
structure Onto (s s' : Progress) : Prop where
  log : s.log <:+ s'.log
  tokens : s'.input.tokens <:+ s.input.tokens
  fault : ∀ e, s'.input.fault = some e → s.input.fault = some e

theorem Onto.refl (s : Progress) : Onto s s := ⟨List.suffix_refl _, List.suffix_refl _, fun _ h => h⟩

theorem Onto.trans {s₁ s₂ s₃ : Progress} (h : Onto s₁ s₂) (h' : Onto s₂ s₃) : Onto s₁ s₃ :=
  ⟨h.log.trans h'.log, h'.tokens.trans h.tokens, fun e he => h.fault e (h'.fault e he)⟩

theorem Onto.peek : Moves Onto ParseM.peek := by
  intro s
  refine ⟨log_peek s ▸ List.suffix_refl _, ?_, ?_⟩ <;> rw [(peek_eq s).2]
  · exact Scan.tokens_peek s.input ▸ List.suffix_refl _
  · exact s.input.fault_peek

theorem Onto.advance : Moves Onto ParseM.advance := by
  intro s
  refine ⟨log_advance s ▸ List.suffix_refl _, ?_, ?_⟩ <;> rw [(advance_eq s).2]
  · rw [Scan.tokens_advance]
    exact List.tail_suffix _
  · exact s.input.fault_advance

theorem respects_onto (p : Parser) : p.Respects Onto where
  refl := Onto.refl
  trans := Onto.trans
  peek := Onto.peek
  advance := Onto.advance
  kindOf t s := by
    unfold Parser.kindOf
    split <;> exact ⟨List.suffix_refl _, List.suffix_refl _, fun _ h => h⟩
  record e _ s := ⟨List.suffix_cons e s.log, List.suffix_refl _, fun _ h => h⟩
  refuse r s _ := ⟨List.suffix_cons _ _, List.suffix_refl _, fun _ h => h⟩
  enclose r s s' _ h :=
    ⟨((List.suffix_cons _ _).trans h.log).trans (List.suffix_cons _ _), h.tokens, h.fault⟩

theorem pervasive_onto (p : Parser) : p.Pervasive (Moves Onto) := (respects_onto p).pervasive

end Parser

end BindingPower
