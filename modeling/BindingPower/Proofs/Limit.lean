import BindingPower.Grammar.Bundled
import BindingPower.Proofs.C.Computation
import BindingPower.Proofs.C.Rules
import BindingPower.Proofs.Depth

/-! A limit on the depth of expressions only ever refuses: no rule of a bundled grammar goes on after
the refusal of what it asked for. -/
namespace BindingPower
open BindingPower.Action

variable {E : ParseError → Prop}

namespace Arithmetic

theorem yielding_parentheses : parentheses.Yielding E :=
  fun _ _ => (Yielding.expr _).bind fun _ => (Yielding.consume _).bind fun _ => .pure _

theorem yielding_rules : rules.Yielding E :=
  each_rules (PrefixRule.yielding_leaf _) yielding_parentheses (PrefixRule.yielding_unary _)
    (InfixRule.yielding_binary _ _) (InfixRule.yielding_binary _ _) (InfixRule.yielding_binary _ _)

theorem yielding_program : program.Yielding E := by
  refine (Yielding.expr _).bind fun n => Yielding.peek.bind fun next => ?_
  cases next with
  | none => exact .pure _
  | some t => exact .raise _

end Arithmetic

namespace Ebnf

theorem yielding_isBranch (n : Node) (s : EbnfSymbol) : (isBranch n s).Yielding E := by
  cases n with
  | leaf t => exact .pure _
  | branch t ns => exact (Yielding.kindOf t).bind fun _ => .pure _

theorem yielding_extendSequence (left item : Node) : (extendSequence left item).Yielding E := by
  refine (yielding_isBranch left _).bind fun _ => .ite ?_ (.pure _)
  cases left.withChild? item with
  | none => exact .defect _
  | some n => exact .pure _

theorem yielding_onLast {mark : Node → Action Node} (h : ∀ n, (mark n).Yielding E) (left : Node) :
    (onLast left mark).Yielding E := by
  refine (yielding_isBranch left _).bind fun _ => .ite ?_ (h left)
  dsimp only
  cases (left.children?.getD []).getLast? with
  | none => exact .defect _
  | some last => exact (h last).bind fun _ => .pure _

theorem yielding_repeatMark (t : Token) (n : Node) : (repeatMark t n).Yielding E := by
  refine (Yielding.kindOf t).bind fun _ => .ite ?_ (.pure _)
  refine (yielding_isBranch n _).bind fun _ => .ite ?_ (.pure _)
  cases n.withChild? (.leaf t) with
  | none => exact .defect _
  | some n => exact .pure _

theorem yielding_group : group.Yielding E :=
  (Yielding.expr _).bind fun _ => (Yielding.consume _).bind fun _ => .pure _

theorem yielding_rules : rules.Yielding E := by
  have definition : definition.Yielding E := fun _ _ _ => (Yielding.expr _).bind fun _ => .pure _
  have repetition : repetition.Yielding E := fun t _ => yielding_onLast (yielding_repeatMark t)
  have option : option.Yielding E := fun _ _ => yielding_onLast fun _ => .pure _
  have juxtaposition : juxtaposition.Yielding E := fun _ _ left => yielding_extendSequence left _
  have groupAfter : groupAfter.Yielding E := fun _ _ left =>
    yielding_group.bind (yielding_extendSequence left)
  exact each_rules (PrefixRule.yielding_leaf _) (fun _ _ => yielding_group) definition
    (InfixRule.yielding_binary _ _) repetition option juxtaposition groupAfter

theorem yielding_program (told : ¬E .incomplete) : program.Yielding E := .collected _ _ _ fun _ => told

end Ebnf

namespace C

theorem yielding_isIdent (n : Node) : (isIdent n).Yielding E := by
  cases n with
  | leaf t => exact (Yielding.kindOf t).bind fun _ => .pure _
  | branch t ns => exact .pure _

theorem yielding_isType (n : Node) : (isType n).Yielding E := by
  refine (Yielding.kindOf n.token).bind fun kind => ?_
  cases n <;> exact .pure _

theorem yielding_require (expected : CSymbol) (n : Node) : (require expected n).Yielding E := by
  refine .attempt_consume (fun found => ?_) fun _ _ => rfl
  rcases found with (_ | _ | _ | _ | _ | _ | _) | _ <;> first | exact .pure _ | exact .raise _

theorem yielding_accept (expected : CSymbol) : (accept expected).Yielding E := by
  refine .attempt_consume (fun found => ?_) fun _ _ => rfl
  rcases found with (_ | _ | _ | _ | _ | _ | _) | _ <;> first | exact .pure _ | exact .raise _

theorem yielding_acceptOrEnd (expected : CSymbol) : (acceptOrEnd expected).Yielding E := by
  refine .attempt_consume (fun found => ?_) fun _ _ => rfl
  rcases found with (_ | _ | _ | _ | _ | _ | _) | _ <;> first | exact .pure _ | exact .raise _

section Expressions

theorem yielding_parentheses : parentheses.Yielding E :=
  fun _ _ => (Yielding.expr _).bind fun _ => (Yielding.consume _).bind fun _ => .pure _

theorem yielding_starAfter : starAfter.Yielding E := fun _ _ left =>
  (yielding_isType left).bind fun _ =>
    .ite ((Yielding.expr _).bind fun _ => .pure _) ((Yielding.expr _).bind fun _ => .pure _)

theorem yielding_conditional : conditional.Yielding E := fun _ _ _ =>
  (Yielding.expr _).bind fun yes => (yielding_require _ yes).bind fun _ =>
    (Yielding.expr _).bind fun _ => .pure _

theorem yielding_call : call.Yielding E := by
  intro t power callee
  refine (yielding_accept _).bind fun _ => .ite (.pure _) ?_
  rw [← bind_assoc]
  exact (Yielding.collected _ _ _ nofun).bind fun _ => .pure _

theorem yielding_index : index.Yielding E := fun _ _ _ =>
  (Yielding.expr _).bind fun _ => (Yielding.consume _).bind fun _ => .pure _

theorem yielding_member : member.Yielding E := fun _ _ _ =>
  (Yielding.expr _).bind fun name => (yielding_isIdent name).bind fun _ => .ite (.pure _) (.raise _)

end Expressions

section Declarations

theorem yielding_extendSpecifiers (left : Node) (t : Token) (n : Node) :
    (extendSpecifiers left t n).Yielding E := by
  refine (Yielding.kindOf left.token).bind fun _ => .ite ?_ ?_
  · cases left.withChild? n with
    | none => exact .defect _
    | some m => exact .pure _
  · exact (yielding_isType left).bind fun _ => .ite (.pure _) (.raise _)

theorem yielding_declarator : declarator.Yielding E := fun _ _ left =>
  (yielding_isType left).bind fun _ => .ite (.pure _) (.raise _)

theorem yielding_recordBody : recordBody.Yielding E := by
  refine Yielding.bind (.repeated ?_ ?_) fun _ => .pure _
  · refine (yielding_accept _).bind fun _ => .ite (.pure _) ?_
    exact (Yielding.expr _).bind fun field => (yielding_require _ field).bind fun _ => .pure _
  · exact .bind fun _ => .ite (.pure nofun) ((Takes.expr _).before _)

theorem yielding_enumeratorName (item : Node) : (enumeratorName item).Yielding E := by
  refine (Yielding.kindOf item.token).bind fun _ => .ite ?_ (.pure _)
  rcases item with t | ⟨t, _ | ⟨name, ns⟩⟩
  · exact .defect _
  · exact .defect _
  · exact .pure _

theorem yielding_checkEnumerators (t : Token) (items : List Node) :
    (checkEnumerators t items).Yielding E := by
  induction items with
  | nil => exact .pure _
  | cons item items ih =>
    exact (yielding_enumeratorName item).bind fun name =>
      (yielding_isIdent name).bind fun _ => .ite ih (.raise _)

theorem yielding_enumBody (t : Token) : (enumBody t).Yielding E := by
  refine Yielding.bind (.repeated ?_ ?_) fun items =>
    (yielding_checkEnumerators t items).bind fun _ => .pure _
  · refine (yielding_accept _).bind fun _ => .ite (.pure _) ?_
    exact (Yielding.expr _).bind fun _ => (yielding_accept _).bind fun _ =>
      .ite (.pure _) ((Yielding.consume _).bind fun _ => .pure _)
  · exact .bind fun _ => .ite (.pure nofun) ((Takes.expr _).before _)

theorem yielding_tagged (t : Token) : (tagged t).Yielding E := by
  have body : (taggedBody t).Yielding E :=
    (Yielding.kindOf t).bind fun _ => .ite (yielding_enumBody t) yielding_recordBody
  refine (yielding_accept _).bind fun _ => .ite (body.bind fun _ => .pure _) ?_
  refine (Yielding.expr _).bind fun tag => (yielding_isIdent tag).bind fun _ => .ite ?_ (.raise _)
  exact (yielding_acceptOrEnd _).bind fun _ => .ite (body.bind fun _ => .pure _) (.pure _)

end Declarations

section Statements

theorem yielding_statement (semicolonRequired : Bool) : (statement semicolonRequired).Yielding E := by
  have body (keyword : Bool) : (statementOf semicolonRequired keyword).Yielding E := by
    refine .ite (.expr _) ((Yielding.expr _).bind fun n => ?_)
    have terminated : (require .semicolon n >>= fun _ => pure n).Yielding E :=
      (yielding_require _ n).bind fun _ => .pure _
    refine .ite terminated (Yielding.peek.bind fun next => .ite terminated (.pure _))
  refine Yielding.peek.bind fun next => ?_
  cases next with
  | none => exact body false
  | some t => exact (Yielding.kindOf t).bind fun kind => body (among statementSymbols kind)

theorem takes_statement {P : Node → Prop} (semicolonRequired : Bool) :
    Takes P (statement semicolonRequired) := by
  have body (keyword : Bool) : Takes P (statementOf semicolonRequired keyword) :=
    .ite (.expr _) ((Takes.expr _).before _)
  refine .bind fun next => ?_
  cases next with
  | none => exact body false
  | some t => exact .bind fun kind => body (among statementSymbols kind)

theorem yielding_gotoRule : gotoRule.Yielding E := fun _ _ =>
  (Yielding.expr _).bind fun label => (yielding_isIdent label).bind fun _ =>
    .ite ((yielding_require _ _).bind fun _ => .pure _) (.raise _)

theorem yielding_jump : jump.Yielding E := fun _ _ => (yielding_require _ _).bind fun _ => .pure _

theorem yielding_returnRule : returnRule.Yielding E := fun _ _ =>
  (yielding_accept _).bind fun _ => .ite (.pure _)
    ((Yielding.expr _).bind fun _ => (yielding_require _ _).bind fun _ => .pure _)

theorem yielding_defaultRule : defaultRule.Yielding E := fun _ _ =>
  (yielding_require _ _).bind fun _ => (yielding_statement true).bind fun _ => .pure _

theorem yielding_caseRule : caseRule.Yielding E := fun _ _ =>
  (Yielding.expr _).bind fun _ => (yielding_require _ _).bind fun _ =>
    (yielding_statement true).bind fun _ => .pure _

theorem yielding_condition : condition.Yielding E :=
  (Yielding.consume _).bind fun _ => (Yielding.expr _).bind fun _ =>
    (Yielding.consume _).bind fun _ => .pure _

theorem yielding_ifRule : ifRule.Yielding E := fun _ _ =>
  yielding_condition.bind fun _ => (yielding_statement true).bind fun _ =>
    (yielding_acceptOrEnd _).bind fun _ =>
      .ite ((yielding_statement true).bind fun _ => .pure _) (.pure _)

theorem yielding_whileRule : whileRule.Yielding E := fun _ _ =>
  yielding_condition.bind fun _ => (yielding_statement true).bind fun _ => .pure _

theorem yielding_block : block.Yielding E := by
  intro t power
  refine Yielding.bind (.repeated ?_ ?_) fun _ => .pure _
  · exact (yielding_accept _).bind fun _ =>
      .ite (.pure _) ((yielding_statement true).bind fun _ => .pure _)
  · exact .bind fun _ => .ite (.pure nofun) ((takes_statement true).before _)

end Statements

theorem eachPrefix_yielding : EachPrefix fun _ rule => rule.Yielding E where
  operand _ _ := PrefixRule.yielding_leaf _
  specifier _ _ := PrefixRule.yielding_leaf _
  tagged _ _ := fun t _ => yielding_tagged t
  operator _ _ := PrefixRule.yielding_unary _
  parentheses := yielding_parentheses
  goto := yielding_gotoRule
  jump _ _ := yielding_jump
  exit := yielding_returnRule
  otherwise := yielding_defaultRule
  labelled := yielding_caseRule
  choice := yielding_ifRule
  loop := yielding_whileRule
  block := yielding_block

theorem eachInfix_yielding : EachInfix fun _ rule => rule.Yielding E where
  specifier _ _ := fun t _ left => yielding_extendSpecifiers left t _
  tagged _ _ := fun t _ left => (yielding_tagged t).bind (yielding_extendSpecifiers left t)
  declarator := yielding_declarator
  assignment _ _ := InfixRule.yielding_binary _ _
  conditional := yielding_conditional
  between _ _ _ _ := InfixRule.yielding_binary _ _
  star := yielding_starAfter
  step _ _ := fun _ _ _ => .pure _
  call := yielding_call
  index := yielding_index
  member _ _ := yielding_member

theorem yielding_rules : rules.Yielding E where
  starting kind rule h := by
    obtain ⟨s, -, hr⟩ := eachPrefix_yielding.of_lookup h
    exact hr
  continuing kind rule h := by
    obtain ⟨s, -, hr⟩ := eachInfix_yielding.of_lookup h
    exact hr

theorem yielding_program : program.Yielding E := by
  apply Yielding.repeated
  · refine Yielding.peek.bind fun next => ?_
    cases next with
    | none => exact .pure _
    | some t => exact (yielding_statement false).bind fun _ => .pure _
  · refine .bind fun next => ?_
    cases next with
    | none => exact .pure nofun
    | some t => exact (takes_statement false).before _

end C

/-- The rules of the bundled grammars go on after no error; the program of one ends where its input
does. -/
theorem Grammar.yielding_of_mem_bundled {g : Grammar} (hg : g ∈ Grammar.bundled) :
    g.rules.Yielding E ∧ (¬E .incomplete → g.program.Yielding E) := by
  simp only [Grammar.bundled, List.mem_cons, List.not_mem_nil, or_false] at hg
  rcases hg with rfl | rfl | rfl
  · exact ⟨Arithmetic.yielding_rules, fun _ => Arithmetic.yielding_program⟩
  · exact ⟨Ebnf.yielding_rules, Ebnf.yielding_program⟩
  · exact ⟨C.yielding_rules, fun _ => C.yielding_program⟩

/-- Of two limits the tighter refuses an expression of a text, and the text with it, or the parse is the
same under both. -/
theorem Grammar.run_eq_of_le {g : Grammar} (hg : g ∈ Grammar.bundled) (text : String) (limit : Int)
    (other : Option Int) (ho : ∀ l ∈ other, limit ≤ l) :
    g.run text (some limit) = g.run text other ∨
      g.parse text (some limit) = .error (.error (.tooDeep limit)) ∧
        ParseM.Refused (g.run text (some limit)).2 := by
  obtain ⟨rules, program⟩ := g.yielding_of_mem_bundled (E := (· ≠ .incomplete)) hg
  exact Parser.curbs_perform (p := g.parser none) (by simp) rules ho (program (by simp)) (g.start text)

theorem Grammar.parse_eq_of_le {g : Grammar} (hg : g ∈ Grammar.bundled) (text : String) (limit : Int)
    (other : Option Int) (ho : ∀ l ∈ other, limit ≤ l) :
    g.parse text (some limit) = g.parse text other ∨
      g.parse text (some limit) = .error (.error (.tooDeep limit)) :=
  (g.run_eq_of_le hg text limit other ho).imp (congrArg Prod.fst) And.left

/-- What is parsed under a limit is parsed alike without one. -/
theorem Grammar.parse_unlimited {g : Grammar} (hg : g ∈ Grammar.bundled) {text : String}
    {limit : Option Int} {ns : List Node} (h : g.parse text limit = .ok ns) : g.parse text none = .ok ns := by
  cases limit with
  | none => exact h
  | some l =>
    rcases g.parse_eq_of_le hg text l none nofun with same | refused
    · rw [← same, h]
    · cases h.symm.trans refused

/-- A limit refuses a text or changes nothing, and what it does not refuse no higher limit changes. -/
theorem limit_only_refuses {g : Grammar} (hg : g ∈ Grammar.bundled) (text : String) (limit : Int) :
    (g.parse text (some limit) = .error (.error (.tooDeep limit)) ∨
      g.parse text (some limit) = g.parse text none) ∧
    (g.parse text (some limit) ≠ .error (.error (.tooDeep limit)) →
      ∀ higher, limit ≤ higher → g.parse text (some higher) = g.parse text (some limit)) := by
  have unlimited := g.parse_eq_of_le hg text limit none fun _ h => by cases h
  refine ⟨unlimited.symm, fun free higher hle => ?_⟩
  have above : ∀ l ∈ some higher, limit ≤ l := fun l hl => Option.some.inj hl ▸ hle
  rcases g.parse_eq_of_le hg text limit higher above with same | refused
  · exact same.symm
  · exact absurd refused free

theorem limit_only_refuses_parenthesised :
    Grammar.arithmetic ∈ Grammar.bundled ∧
    Grammar.arithmetic.parse "(a)" (some 2) ≠ .error (.error (.tooDeep 2)) ∧
    Grammar.arithmetic.parse "(a)" (some 1) = .error (.error (.tooDeep 1)) ∧
    Grammar.arithmetic.parse "(a)" (some 5) = Grammar.arithmetic.parse "(a)" (some 2) := by
  have bundled : Grammar.arithmetic ∈ Grammar.bundled := List.mem_cons_self
  have free : Grammar.arithmetic.parse "(a)" (some 2) ≠ .error (.error (.tooDeep 2)) := by decide +kernel
  have changed : Grammar.arithmetic.parse "(a)" (some 1) ≠ Grammar.arithmetic.parse "(a)" none := by
    decide +kernel
  exact ⟨bundled, free, (limit_only_refuses bundled "(a)" 1).1.resolve_right changed,
    (limit_only_refuses bundled "(a)" 2).2 free 5 (by decide)⟩

end BindingPower
