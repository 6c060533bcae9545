import BindingPower.Proofs.Unseen

/-! Lexers with the same input cannot be told apart. A list of tokens and a stream of them answer every
call alike, and so do two parsers with the same rules of which one reads the list and the other the
stream: between its calls to the lexer a parser has nothing to go by but the answers. -/
namespace BindingPower

namespace Lexer

/-- What can be asked of a lexer. -/
inductive Call
  | peek
  | advance
  deriving DecidableEq, Repr

/-- How a lexer answers calls, one after another. -/
def answers : List Call → Lexer → List (Outcome (Option Token))
  | [], _ => []
  | .peek :: calls, l => l.peek.1 :: answers calls l.peek.2
  | .advance :: calls, l => l.advance.1.map some :: answers calls l.advance.2

theorem answers_eq {l l' : Lexer} (h : l.input = l'.input) (calls : List Call) :
    answers calls l = answers calls l' := by
  induction calls generalizing l l' with
  | nil => rfl
  | cons call calls ih =>
    cases call with
    | peek =>
      have same : (l.peek.1, l.peek.2.input) = (l'.peek.1, l'.peek.2.input) := by
        rw [peek_eq, peek_eq, h]
      obtain ⟨answer, after⟩ := Prod.mk.inj same
      rw [answers, answers, answer, ih after]
    | advance =>
      have same : (l.advance.1, l.advance.2.input) = (l'.advance.1, l'.advance.2.input) := by
        rw [advance_eq, advance_eq, h]
      obtain ⟨answer, after⟩ := Prod.mk.inj same
      rw [answers, answers, answer, ih after]

/-- A gap looks like the end, but it can be moved past. -/
example : answers [.peek, .advance, .peek, .advance, .advance] (ofList [.absent, .word "a"]) =
    [.ok none, .ok (some .absent), .ok (some (.word "a")), .ok (some (.word "a")),
      .error .incomplete] := rfl

end Lexer

/-- States that differ in nothing but the kind of their lexers. -/
structure Progress.Twin (s s' : Progress) : Prop where
  input : s.input = s'.input
  depth : s.depth = s'.depth
  classified : s.classified = s'.classified
  log : s.log = s'.log

/-- A computation that does not see what kind of lexer it reads. -/
def ParseM.Blind {α : Type} (m : ParseM α) : Prop :=
  ∀ s s', s.Twin s' → (m s).1 = (m s').1 ∧ (m s).2.Twin (m s').2

namespace Parser
open ParseM
variable (p : Parser)

theorem unseen_twin : p.Unseen Progress.Twin where
  input h := h.input
  kind h t := by rw [h.classified]
  full h := by rw [h.depth]
  lexer h _ _ same := ⟨same, h.depth, h.classified, h.log⟩
  classify h := ⟨h.input, h.depth, congrArg (· + 1) h.classified, h.log⟩
  record h e := ⟨h.input, h.depth, h.classified, congrArg (e :: ·) h.log⟩
  enter h := ⟨h.input, congrArg (· + 1) h.depth, h.classified, h.log⟩
  leave h := ⟨h.input, congrArg (· - 1) h.depth, h.classified, h.log⟩

/-- Nothing a parser does depends on the kind of its lexer. -/
theorem pervasive_blind : p.Pervasive Blind := p.unseen_twin.pervasive

/-- How a parser answers requests, each from where the one before has left it, whatever came of that. -/
def answers : List Request → Progress → List ((q : Request) × Except Failure q.Answer)
  | [], _ => []
  | q :: requests, s =>
    let answered := p.perform (.ask q Action.ofOutcome) s
    ⟨q, answered.1⟩ :: answers requests answered.2

theorem answers_eq_of_twin {s s' : Progress} (h : s.Twin s') (requests : List Request) :
    p.answers requests s = p.answers requests s' := by
  induction requests generalizing s s' with
  | nil => rfl
  | cons q requests ih =>
    obtain ⟨same, after⟩ := p.pervasive_blind.perform (.ask q Action.ofOutcome) s s' h
    simp only [answers]
    rw [same, ih after]

end Parser

/-- A list and a stream of the same tokens answer all calls alike, and parsers with the same rules that
read them answer all requests alike. -/
theorem list_and_stream_alike (tokens : List Token) :
    (∀ calls, (Lexer.ofList tokens).answers calls = (Lexer.ofScan ⟨tokens, none⟩).answers calls) ∧
    ∀ (p : Parser) (requests : List Request),
      p.answers requests { lexer := .ofList tokens } =
        p.answers requests { lexer := .ofScan ⟨tokens, none⟩ } :=
  ⟨Lexer.answers_eq rfl, fun p => p.answers_eq_of_twin ⟨rfl, rfl, rfl, rfl⟩⟩

end BindingPower
