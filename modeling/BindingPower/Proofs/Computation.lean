import Mathlib.Control.Monad.Basic
import BindingPower.Grammar.Basic

/-! What computations of the parser read and leave, and actions as computations: carrying out an
action respects sequencing, so a rule reads as the program it denotes. -/
namespace BindingPower

theorem Token.kind_same {t u : Token} (h : t.same u = true) : t.kind.same u.kind = true := by
  cases t <;> cases u <;> simp_all [Token.same, Token.kind]

/-- The tokens still to come, and the error they end in if there is one. -/
def Lexer.input : Lexer → Scan
  | list l => ⟨l.remaining, none⟩
  | stream l => ⟨l.ahead.toList ++ l.rest.tokens, l.rest.fault⟩

namespace Scan

/-- How every lexer with an input shows its next token: an error is met once. -/
def peek : Scan → Except ParseError (Option Token) × Scan
  | ⟨t :: ts, fault⟩ => (.ok t.present?, ⟨t :: ts, fault⟩)
  | ⟨[], some e⟩ => (.error e, ⟨[], none⟩)
  | ⟨[], none⟩ => (.ok none, ⟨[], none⟩)

def advance : Scan → Except ParseError Token × Scan
  | ⟨t :: ts, fault⟩ => (.ok t, ⟨ts, fault⟩)
  | ⟨[], some e⟩ => (.error e, ⟨[], none⟩)
  | ⟨[], none⟩ => (.error .incomplete, ⟨[], none⟩)

theorem tokens_peek (i : Scan) : i.peek.2.tokens = i.tokens := by
  rcases i with ⟨_ | ⟨t, ts⟩, _ | e⟩ <;> rfl

theorem tokens_advance (i : Scan) : i.advance.2.tokens = i.tokens.tail := by
  rcases i with ⟨_ | ⟨t, ts⟩, _ | e⟩ <;> rfl

theorem fault_peek (i : Scan) (e : ParseError) (h : i.peek.2.fault = some e) : i.fault = some e := by
  rcases i with ⟨_ | ⟨t, ts⟩, _ | e⟩ <;> first | exact h | cases h

theorem fault_advance (i : Scan) (e : ParseError) (h : i.advance.2.fault = some e) :
    i.fault = some e := by
  rcases i with ⟨_ | ⟨t, ts⟩, _ | e⟩ <;> first | exact h | cases h

theorem fault_of_peek {i : Scan} {e : ParseError} (h : i.peek.1 = .error e) : i.fault = some e := by
  rcases i with ⟨_ | ⟨t, ts⟩, _ | cause⟩
  · cases h
  · exact congrArg some (Except.error.inj h)
  all_goals cases h

theorem incomplete_or_fault_of_advance {i : Scan} {e : ParseError} (h : i.advance.1 = .error e) :
    e = .incomplete ∨ i.fault = some e := by
  rcases i with ⟨_ | ⟨t, ts⟩, _ | cause⟩
  · exact .inl (Except.error.inj h).symm
  · exact .inr (congrArg some (Except.error.inj h))
  all_goals cases h

end Scan

namespace Lexer

theorem peek_eq (l : Lexer) : (l.peek.1, l.peek.2.input) = l.input.peek := by
  rcases l with ⟨k, _ | ⟨t, ts⟩⟩ | ⟨_ | t, ⟨_ | ⟨u, us⟩, _ | e⟩⟩ <;> rfl

theorem advance_eq (l : Lexer) : (l.advance.1, l.advance.2.input) = l.input.advance := by
  rcases l with ⟨k, _ | ⟨t, ts⟩⟩ | ⟨_ | t, ⟨_ | ⟨u, us⟩, _ | e⟩⟩ <;> rfl

end Lexer

/-- How many tokens are still to come. -/
def Progress.room (s : Progress) : Nat := s.lexer.room

def Progress.input (s : Progress) : Scan := s.lexer.input

theorem Progress.room_eq (s : Progress) : s.room = s.input.tokens.length := by
  obtain ⟨lexer, _, _, _⟩ := s
  cases lexer <;> simp [room, Lexer.room, input, Lexer.input]

namespace ParseM

theorem peek_eq (s : Progress) :
    (peek s).1 = s.input.peek.1.mapError .error ∧ (peek s).2.input = s.input.peek.2 := by
  have h := s.lexer.peek_eq
  change (_, _) = s.input.peek at h
  rw [← h, peek]
  rcases s.lexer.peek with ⟨e | t, l⟩ <;> exact ⟨rfl, rfl⟩

theorem advance_eq (s : Progress) :
    (advance s).1 = s.input.advance.1.mapError .error ∧ (advance s).2.input = s.input.advance.2 := by
  have h := s.lexer.advance_eq
  change (_, _) = s.input.advance at h
  rw [← h, advance]
  rcases s.lexer.advance with ⟨e | t, l⟩ <;> exact ⟨rfl, rfl⟩

theorem room_peek (s : Progress) : (peek s).2.room = s.room := by
  rw [Progress.room_eq, Progress.room_eq, (peek_eq s).2, Scan.tokens_peek]

theorem room_advance (s : Progress) : (advance s).2.room = s.room - 1 := by
  rw [Progress.room_eq, Progress.room_eq, (advance_eq s).2, Scan.tokens_advance, List.length_tail]

theorem room_advance_lt {s : Progress} (h : 0 < s.room) : (advance s).2.room < s.room := by
  rw [room_advance]
  exact Nat.sub_one_lt_of_lt h

/-- What is shown is the next token to come. -/
theorem head?_of_peek {s s' : Progress} {t : Token} (h : peek s = (.ok (some t), s')) :
    s.input.tokens.head? = some t := by
  have shown := (peek_eq s).1
  rw [h] at shown
  generalize s.input = i at shown ⊢
  rcases i with ⟨_ | ⟨u, us⟩, _ | e⟩
  · cases shown
  · cases shown
  all_goals cases u <;> cases shown <;> rfl

theorem head?_of_advance {s s' : Progress} {t : Token} (h : advance s = (.ok t, s')) :
    s.input.tokens.head? = some t := by
  have taken := (advance_eq s).1
  rw [h] at taken
  generalize s.input = i at taken ⊢
  rcases i with ⟨_ | ⟨u, us⟩, _ | e⟩
  · cases taken
  · cases taken
  all_goals cases taken; rfl

theorem room_pos_of_peek {s s' : Progress} {t : Token} (h : peek s = (.ok (some t), s')) :
    0 < s'.room := by
  have room := room_peek s
  rw [h] at room
  rw [room, Progress.room_eq]
  exact List.length_pos_of_mem (List.mem_of_mem_head? (head?_of_peek h))

end ParseM

namespace ParseM
variable {α β : Type}

theorem bind_apply (m : ParseM α) (f : α → ParseM β) (s : Progress) :
    (m >>= f) s = match m s with
      | (.ok a, s') => f a s'
      | (.error e, s') => (.error e, s') := by
  change (match m s with | (r, s') => ExceptT.bindCont f r s') = _
  rcases m s with ⟨e | a, s'⟩ <;> rfl

/-- An outcome is that of its computation, unless that comes to a defect. -/
theorem outcome_cases (m : ParseM α) (s : Progress) :
    (∃ d s', m s = (.error (.defect d), s') ∧ outcome m s = (.error (.defect d), s')) ∨
    ∃ o s', m s = (o.mapError .error, s') ∧ outcome m s = (.ok o, s') := by
  unfold outcome
  rcases m s with ⟨(e | d) | a, s'⟩
  · exact .inr ⟨.error e, s', rfl, rfl⟩
  · exact .inl ⟨d, s', rfl, rfl⟩
  · exact .inr ⟨.ok a, s', rfl, rfl⟩

private theorem outcome_bind_ofOutcome (p : Parser) (e : Int → ParseM Node) (m : ParseM α) :
    (outcome m >>= fun o => p.run e (Action.ofOutcome o)) = m := by
  funext s
  rw [bind_apply]
  rcases h : m s with ⟨(cause | cause) | a, s'⟩ <;> simp only [outcome, h] <;> rfl

end ParseM

instance : LawfulMonad Action := by
  refine LawfulMonad.mk' Action (fun a => ?_) (fun _ _ => rfl) fun a f g => ?_
  · change a.bind .give = a
    induction a with
    | give a => rfl
    | fail cause => rfl
    | ask q next ih => exact congrArg (Action.ask q) (funext ih)
    | gather round next _ ih => exact congrArg (Action.gather round) (funext ih)
  · change (a.bind f).bind g = a.bind fun x => (f x).bind g
    induction a with
    | give a => rfl
    | fail cause => rfl
    | ask q next ih => exact congrArg (Action.ask q) (funext fun answer => ih answer f)
    | gather round next _ ih => exact congrArg (Action.gather round) (funext fun items => ih items f)

namespace Parser
open ParseM
variable {α β : Type} (p : Parser) (e : Int → ParseM Node)

@[simp] theorem run_pure (a : α) : p.run e (pure a) = pure a := rfl
@[simp] theorem run_defect (d : Defect) : p.run e (Action.defect d : Action α) = throw (.defect d) := rfl
@[simp] theorem run_raise (c : ParseError) : p.run e (Action.raise c : Action α) = raise c := rfl

@[simp]
theorem run_bind (a : Action α) (f : α → Action β) :
    p.run e (a >>= f) = p.run e a >>= fun x => p.run e (f x) := by
  change p.run e (a.bind f) = _
  induction a with
  | give a => simp [Action.bind, Parser.run]
  | fail cause => rfl
  | ask q next ih => simp [Action.bind, Parser.run, ih]
  | gather round next _ ih => simp [Action.bind, Parser.run, ih]

theorem run_ask (q : Request) : p.run e (.ask q Action.ofOutcome) = p.answer e q :=
  outcome_bind_ofOutcome p e _

@[simp] theorem run_peek : p.run e Action.peek = peek := p.run_ask e .peek
@[simp] theorem run_expr (r : Int) : p.run e (Action.expr r) = e r := p.run_ask e (.expr r)
@[simp] theorem run_consume (t : Token) : p.run e (Action.consume t) = consume t :=
  p.run_ask e (.consume t)

@[simp]
theorem run_sequence (level : Int) (separator closing : Option Token) :
    p.run e (Action.sequence level separator closing) =
      (do elements e level separator closing ((← room) + 1)) :=
  p.run_ask e (.sequence level separator closing)

@[simp]
theorem run_repeated (round : Action Round) :
    p.run e (Action.repeated round) = (do rounds (p.run e round) ((← room) + 1)) :=
  outcome_bind_ofOutcome p e _

@[simp]
theorem run_attempt (q : Request) : p.run e (Action.attempt q) = outcome (p.answer e q) := by
  change (outcome (p.answer e q) >>= pure) = _
  rw [bind_pure]

theorem run_collect (ns : List Node) : p.run e (Action.collect (ns.map .ok)) = pure ns := by
  induction ns with
  | nil => rfl
  | cons n ns ih =>
    simp only [List.map_cons, Action.collect, run_bind, ih, pure_bind]
    rfl

/-- The outcomes of a sequence are all nodes, or the first error among them ends the rule. -/
theorem run_collect_cases (outcomes : List (Outcome Node)) :
    (∃ ns : List Node, outcomes = ns.map .ok) ∨
      ∃ c, p.run e (Action.collect outcomes) = raise c := by
  induction outcomes with
  | nil => exact .inl ⟨[], rfl⟩
  | cons o outcomes ih =>
    cases o with
    | error c => exact .inr ⟨c, rfl⟩
    | ok n =>
      rcases ih with ⟨ns, rfl⟩ | ⟨c, hc⟩
      · exact .inl ⟨n :: ns, rfl⟩
      · refine .inr ⟨c, ?_⟩
        rw [Action.collect, run_bind, hc]
        rfl

end Parser

end BindingPower
