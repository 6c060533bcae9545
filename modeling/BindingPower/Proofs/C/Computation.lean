import BindingPower.Grammar.C
import BindingPower.Proofs.Computation

/-! What the actions of the C grammar share, as computations. -/
namespace BindingPower.C
open ParseM

@[simp]
theorem among_iff {symbols : List CSymbol} {s : CSymbol} : among symbols (.c s) = true ↔ s ∈ symbols := by
  simp [among]

@[simp]
theorem among_eq_false_iff {symbols : List CSymbol} {s : CSymbol} :
    among symbols (.c s) = false ↔ s ∉ symbols := by
  rw [← among_iff, Bool.not_eq_true]

variable {p : Parser} {e : Int → ParseM Node}

/-- A statement, once it is known whether it starts with a keyword or a brace. -/
def statementOf (semicolonRequired keyword : Bool) : Action Node :=
  if keyword then Action.expr Level.highest
  else do
    let n ← Action.expr Level.root
    if semicolonRequired then require .semicolon n
    else if (← Action.peek).isSome then require .semicolon n
    return n

theorem run_statement (semicolonRequired : Bool) :
    p.run e (statement semicolonRequired) = (do
      match ← peek with
      | none => p.run e (statementOf semicolonRequired false)
      | some t =>
        let kind ← p.run e (Action.kindOf t)
        p.run e (statementOf semicolonRequired (among statementSymbols kind))) := by
  simp only [statement, Parser.run_bind, Parser.run_peek]
  congr 1
  funext t
  cases t with
  | none => rfl
  | some t => simp only [Parser.run_bind, pure_bind, statementOf]

end BindingPower.C
