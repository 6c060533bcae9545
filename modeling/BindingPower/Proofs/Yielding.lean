import BindingPower.Proofs.Bound
import BindingPower.Proofs.Table

/-! Rules that do not go on after an error of what they asked for, and whose repetitions take a token in
each round. -/
namespace BindingPower

namespace Action

/-- The answers to a request that tell of an error. A sequence lists it last, unless it is the end of
the input and no closing token is due. That another token than the expected one was found, or none, is
for a rule to deal with. -/
def Failed (e : ParseError) : (q : Request) → Outcome q.Answer → Prop
  | .consume _, answer => answer = .error e ∧ ∃ c k, e = .unexpectedCharacter c k
  | .sequence _ _ closing, answer =>
    answer = .error e ∨ ∃ ns : List Node, answer = .ok (ns.map .ok ++ Parser.ending closing e)
  | _, answer => answer = .error e

/-- Actions that have taken a token when they answer with `P`. -/
def Takes {α : Type} (P : α → Prop) (a : Action α) : Prop :=
  ∀ (p : Parser) s x s', p.run p.reading a s = (.ok x, s') → P x → s'.room < s.room

namespace Takes
variable {α β : Type} {P : β → Prop}

theorem pure {x : β} (h : ¬P x) : Takes P (Pure.pure x) := by
  rintro p s _ s' ⟨⟩ hx
  exact absurd hx h

theorem expr (r : Int) {P : Node → Prop} : Takes P (Action.expr r) := by
  intro p s n s' h _
  rw [Parser.run_expr] at h
  have less := Parser.room_reading_lt (congrArg Prod.fst h)
  rwa [h] at less

/-- What is done first takes nothing back. -/
theorem bind {a : Action α} {f : α → Action β} (hf : ∀ x, Takes P (f x)) : Takes P (a >>= f) := by
  intro p s y s' h hy
  have first := p.room_run_le a s
  rw [Parser.run_bind, ParseM.bind_apply] at h
  rcases ha : p.run p.reading a s with ⟨e | x, t⟩ <;> rw [ha] at h first
  · cases h
  · exact Nat.lt_of_lt_of_le (hf x p t y s' h hy) first

/-- Nor is what is done after. -/
theorem before {a : Action α} (ha : Takes (fun _ => True) a) (f : α → Action β) :
    Takes P (a >>= f) := by
  intro p s y s' h _
  rw [Parser.run_bind, ParseM.bind_apply] at h
  rcases hx : p.run p.reading a s with ⟨e | x, t⟩ <;> rw [hx] at h
  · cases h
  · have after := p.room_run_le (f x) t
    dsimp only at h
    rw [h] at after
    exact Nat.lt_of_le_of_lt after (ha p s x t hx trivial)

theorem ite {c : Prop} [Decidable c] {a b : Action β} (ha : Takes P a) (hb : Takes P b) :
    Takes P (if c then a else b) := by
  split
  · exact ha
  · exact hb

end Takes

/-- A round that goes on has taken a token. -/
abbrev Advances (round : Action Round) : Prop := Takes (fun r => ∃ n, r = .item n) round

/-- Actions that do not go on after an error in `E`, and whose rounds each take a token. -/
inductive Yielding (E : ParseError → Prop) : {α : Type} → Action α → Prop
  | give {α : Type} (a : α) : Yielding E (.give a)
  | fail {α : Type} (cause : Failure) : Yielding E (.fail cause : Action α)
  | ask {α : Type} {q : Request} {next : Outcome q.Answer → Action α}
    (answered : ∀ answer, Yielding E (next answer))
    (failed : ∀ e answer, E e → Failed e q answer → next answer = raise e) :
    Yielding E (.ask q next)
  | gather {α : Type} {round : Action Round} {next : Outcome (List Node) → Action α}
    (each : Yielding E round) (advances : round.Advances) (gathered : ∀ items, Yielding E (next items))
    (failed : ∀ e, E e → next (.error e) = raise e) :
    Yielding E (.gather round next)

namespace Yielding
variable {E : ParseError → Prop} {α β : Type}

theorem bind {a : Action α} {f : α → Action β} (ha : a.Yielding E) (hf : ∀ x, (f x).Yielding E) :
    (a >>= f).Yielding E := by
  change (a.bind f).Yielding E
  induction ha with
  | give a => exact hf a
  | fail cause => exact .fail cause
  | ask answered failed ih =>
    refine .ask (fun answer => ih answer hf) fun e answer he h => ?_
    rw [failed e answer he h]
    rfl
  | gather each advances gathered failed _ ih =>
    refine .gather each advances (fun items => ih items hf) fun e he => ?_
    rw [failed e he]
    rfl

theorem pure (a : α) : (Pure.pure a : Action α).Yielding E := .give a

theorem raise (e : ParseError) : (Action.raise e : Action α).Yielding E := .fail _

theorem defect (d : Defect) : (Action.defect d : Action α).Yielding E := .fail _

theorem ofOutcome (o : Outcome α) : (Action.ofOutcome o).Yielding E := by
  cases o with
  | ok a => exact .give a
  | error e => exact .fail _

theorem peek : Action.peek.Yielding E := .ask ofOutcome fun _ _ _ h => by rw [h]; rfl

theorem expr (threshold : Int) : (Action.expr threshold).Yielding E :=
  .ask ofOutcome fun _ _ _ h => by rw [h]; rfl

theorem consume (expected : Token) : (Action.consume expected).Yielding E :=
  .ask ofOutcome fun _ _ _ h => by rw [h.1]; rfl

/-- Whether a token could be consumed is for a rule to deal with; a character that is part of no token
is not. -/
theorem attempt_consume {expected : Token} {next : Outcome Unit → Action α}
    (answered : ∀ answer, (next answer).Yielding E)
    (failed : ∀ c k, next (.error (.unexpectedCharacter c k)) = .raise (.unexpectedCharacter c k)) :
    (Action.attempt (.consume expected) >>= next).Yielding E := by
  refine .ask answered fun e answer _ h => ?_
  obtain ⟨rfl, c, k, rfl⟩ := h
  exact failed c k

theorem repeated {round : Action Round} (h : round.Yielding E) (advances : round.Advances) :
    (Action.repeated round).Yielding E :=
  .gather h advances ofOutcome fun _ _ => rfl

theorem collect (outcomes : List (Outcome Node)) : (Action.collect outcomes).Yielding E := by
  induction outcomes with
  | nil => exact pure _
  | cons o outcomes ih =>
    cases o with
    | error e => exact raise _
    | ok n => exact ih.bind fun _ => pure _

private theorem collect_failed (ns : List Node) (e : ParseError) :
    Action.collect (ns.map .ok ++ [.error e]) = Action.raise e := by
  induction ns with
  | nil => rfl
  | cons n ns ih =>
    rw [List.map_cons, List.cons_append, Action.collect, ih]
    rfl

/-- Without a closing token a sequence does not tell of the end of the input. -/
theorem collected (level : Int) (separator closing : Option Token)
    (told : closing = none → ¬E .incomplete) :
    (do Action.collect (← Action.sequence level separator closing)).Yielding E := by
  apply Yielding.ask
  · exact fun answer => (ofOutcome answer).bind collect
  · rintro e _ he (rfl | ⟨ns, rfl⟩)
    · rfl
    · have listed : Parser.ending closing e = [.error e] := by
        cases e <;> cases closing <;> first | rfl | exact absurd he (told rfl)
      rw [listed]
      exact collect_failed ns e

theorem ite {c : Prop} [Decidable c] {a b : Action α} (ha : a.Yielding E) (hb : b.Yielding E) :
    (if c then a else b).Yielding E := by
  split
  · exact ha
  · exact hb

theorem kindOf (t : Token) : (Action.kindOf t).Yielding E := by
  unfold Action.kindOf
  split
  · exact pure _
  · exact defect _

end Yielding
end Action

variable {E : ParseError → Prop}

def PrefixRule.Yielding (E : ParseError → Prop) (rule : PrefixRule) : Prop :=
  ∀ t power, (rule.action t power).Yielding E

def InfixRule.Yielding (E : ParseError → Prop) (rule : InfixRule) : Prop :=
  ∀ t power left, (rule.action t power left).Yielding E

theorem PrefixRule.yielding_leaf (power : Int) : (PrefixRule.leaf power).Yielding E :=
  fun _ _ => .pure _

theorem PrefixRule.yielding_unary (power : Int) : (PrefixRule.unary power).Yielding E :=
  fun _ _ => (Action.Yielding.expr _).bind fun _ => .pure _

theorem InfixRule.yielding_binary (left right : Int) : (InfixRule.binary left right).Yielding E :=
  fun _ _ _ => (Action.Yielding.expr _).bind fun _ => .pure _

abbrev RuleTable.Yielding (E : ParseError → Prop) (table : RuleTable) : Prop :=
  table.Each (PrefixRule.Yielding E) (InfixRule.Yielding E)

end BindingPower
