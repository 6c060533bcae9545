import BindingPower.Proofs.Account
import BindingPower.Proofs.C.Computation
import BindingPower.Proofs.C.Rules
import BindingPower.Proofs.Scan

/-! No token of a C program is lost, doubled, made up or moved: but for the punctuation that shapes
the trees, the tokens of a program are those of its trees from left to right. -/
namespace BindingPower.C

/-- The symbols that shape a tree and are not in it. -/
def punctuation : List CSymbol := [
  .leftParen, .rightParen, .leftBracket, .rightBracket, .leftBrace, .rightBrace, .semicolon, .comma,
  .question, .colon, .kwElse]

def markers : List CSymbol := [
  .specifiers, .declaration, .conditional, .stepped, .call, .index, .body, .block]

def betweenOperands : List CSymbol := assignmentSymbols ++ [
  .orOr, .andAnd, .bar, .caret, .ampersand, .equals, .notEquals, .less, .greater, .lessEq, .greaterEq,
  .shiftLeft, .shiftRight, .plus, .minus, .slash, .percent, .star, .dot, .arrow]

/-- The tokens that a tree holds. -/
def kept (t : Token) : Bool := !among punctuation t.kind

def place (t : Token) : Placement :=
  if among markers t.kind then .hidden
  else if among betweenOperands t.kind then .between
  else .before

open ParseM

variable {p : Parser} {e : Int → ParseM Node} {P : Scan → Prop} {whole : Scan} {taken : List Token}

theorem drops {s : CSymbol} (h : s ∈ punctuation) : Drops kept s.token := by
  intro t ht
  have kind : t.kind = .c s := Kind.same_c_iff.mp (Token.kind_same ht)
  simp [kept, kind, h]

private abbrev Split := Scan.Split kept

private abbrev Conserves := ParseM.Conserves kept place

section Trees
variable {t : Token} {s : CSymbol}

theorem filter_kept (ht : t.kind = .c s) (h : s ∉ punctuation) : [t].filter kept = [t] := by
  simp [kept, ht, h]

theorem filter_not_kept (ht : t.kind = .c s) (h : s ∈ punctuation) : [t].filter kept = [] := by
  simp [kept, ht, h]

theorem yield_marker (ht : t.kind = .c s) (h : s ∈ markers) (ns : List Node) :
    (Node.branch t ns).yield place = (Node.yields place ns).flatten := by
  simp [Node.yield, place, ht, h, Placement.arrange]

theorem yield_mark (h : s ∈ markers) (ns : List Node) :
    (Node.branch s.token ns).yield place = (Node.yields place ns).flatten :=
  yield_marker rfl h ns

theorem yield_between (ht : t.kind = .c s) (h : s ∈ betweenOperands) (n m : Node) :
    (Node.branch t [n, m]).yield place = n.yield place ++ t :: m.yield place := by
  have apart : ∀ s ∈ betweenOperands, s ∉ markers := by decide
  simp [Node.yield, Node.yields, place, ht, h, apart s h, Placement.arrange]

theorem yield_before (ht : t.kind = .c s) (hm : s ∉ markers) (ho : s ∉ betweenOperands)
    (ns : List Node) :
    (Node.branch t ns).yield place = t :: (Node.yields place ns).flatten := by
  simp [Node.yield, place, ht, hm, ho, Placement.arrange]

theorem yield_unary (ht : t.kind = .c s) (hm : s ∉ markers) (n : Node) :
    (Node.branch t [n]).yield place = t :: n.yield place := by
  by_cases ho : s ∈ betweenOperands <;>
    simp [Node.yield, Node.yields, place, ht, hm, ho, Placement.arrange]

end Trees

theorem ensures_kindOf (t : Token) :
    Ensures P (p.run e (Action.kindOf t)) fun k j => P j ∧ t.kind? = some k := by
  unfold Action.kindOf
  split
  · exact Ensures.pure fun i hi => ⟨hi, ‹_›⟩
  · exact Ensures.throw _

theorem ensures_isIdent (n : Node) : Ensures P (p.run e (isIdent n)) fun _ => P := by
  cases n with
  | leaf t =>
    simp only [isIdent, Parser.run_bind]
    exact (ensures_kindOf t).bind fun k => Ensures.pure fun i hi => hi.1
  | branch t ns => exact Ensures.pure fun i hi => hi

theorem ensures_isType (n : Node) : Ensures P (p.run e (isType n)) fun _ => P := by
  simp only [isType, Parser.run_bind]
  apply (ensures_kindOf n.token).bind
  intro kind
  cases n <;> exact Ensures.pure fun i hi => hi.1

theorem ensures_accept {s : CSymbol} (h : s ∈ punctuation) :
    Ensures (Split whole taken) (p.run e (accept s)) fun _ => Split whole taken := by
  simp only [accept, Parser.run_bind, Parser.run_attempt]
  apply (Ensures.outcome_consume (drops h)).bind
  rintro ((_ | _ | _ | _ | _ | _ | _) | _)
  · exact Ensures.raise _
  · exact Ensures.raise _
  · exact Ensures.pure fun i hi => hi.1
  · exact Ensures.raise _
  · exact Ensures.raise _
  · exact Ensures.raise _
  · exact Ensures.raise _
  · exact Ensures.pure fun i hi => hi

theorem ensures_acceptOrEnd {s : CSymbol} (h : s ∈ punctuation) :
    Ensures (Split whole taken) (p.run e (acceptOrEnd s)) fun _ => Split whole taken := by
  simp only [acceptOrEnd, Parser.run_bind, Parser.run_attempt]
  apply (Ensures.outcome_consume (drops h)).bind
  rintro ((_ | _ | _ | _ | _ | _ | _) | _)
  · exact Ensures.pure fun i hi => hi
  · exact Ensures.raise _
  · exact Ensures.pure fun i hi => hi.1
  · exact Ensures.raise _
  · exact Ensures.raise _
  · exact Ensures.raise _
  · exact Ensures.raise _
  · exact Ensures.pure fun i hi => hi

theorem ensures_require {s : CSymbol} (h : s ∈ punctuation) (n : Node) :
    Ensures (Split whole taken) (p.run e (require s n)) fun _ => Split whole taken := by
  simp only [require, Parser.run_bind, Parser.run_attempt]
  apply (Ensures.outcome_consume (drops h)).bind
  rintro ((_ | _ | _ | _ | _ | _ | _) | _)
  all_goals first | exact Ensures.pure fun i hi => hi | exact Ensures.raise _

/-- An answer that holds all that has been taken. -/
theorem ensures_answer {n : Node} {ts : List Token} (h : ts = taken ++ n.yield place) :
    Ensures (Split whole ts) (p.run e (pure n)) fun m => Split whole (taken ++ m.yield place) := by
  subst h
  exact Ensures.pure fun i hi => hi

section Expressions
variable {t : Token} {s : CSymbol}

theorem conserves_leaf (ht : t.kind = .c s) (h : s ∉ punctuation) (r : Int) :
    (PrefixRule.leaf r).Conserves kept place t := by
  intro p e he whole taken
  rw [filter_kept ht h]
  apply ensures_answer
  rfl

theorem conserves_unary (ht : t.kind = .c s) (h : s ∉ punctuation) (hm : s ∉ markers) (r : Int) :
    (PrefixRule.unary r).Conserves kept place t := by
  intro p e he whole taken
  simp only [PrefixRule.unary, Parser.run_bind, Parser.run_expr]
  rw [filter_kept ht h]
  apply (he r whole _).bind
  intro n
  apply ensures_answer
  simp [yield_unary ht hm]

theorem conserves_binary (ht : t.kind = .c s) (h : s ∉ punctuation) (ho : s ∈ betweenOperands)
    (l r : Int) : (InfixRule.binary l r).Conserves kept place t := by
  intro p e he left whole taken
  simp only [InfixRule.binary, Parser.run_bind, Parser.run_expr]
  rw [filter_kept ht h]
  apply (he r whole _).bind
  intro n
  apply ensures_answer
  simp [yield_between ht ho]

theorem conserves_parentheses (ht : t.kind = .c .leftParen) :
    parentheses.Conserves kept place t := by
  intro p e he whole taken
  simp only [parentheses, Parser.run_bind, Parser.run_expr, Parser.run_consume]
  rw [filter_not_kept ht (by decide), List.append_nil]
  apply (he _ whole taken).bind
  intro n
  apply (Ensures.consume (drops (by decide))).bind
  intro _
  exact Ensures.pure fun i hi => hi

theorem conserves_starAfter (ht : t.kind = .c .star) : starAfter.Conserves kept place t := by
  intro p e he left whole taken
  simp only [starAfter, Parser.run_bind]
  rw [filter_kept ht (by decide)]
  apply (ensures_isType left).bind
  rintro (_ | _)
  · simp only [Bool.false_eq_true, if_false, Parser.run_bind, Parser.run_expr]
    apply (he _ whole _).bind
    intro n
    apply ensures_answer
    simp [yield_between ht (by decide)]
  · simp only [if_true, Parser.run_bind, Parser.run_expr]
    apply (he _ whole _).bind
    intro n
    apply ensures_answer
    simp (disch := decide) [yield_mark, yield_unary ht (by decide), Node.yields]

theorem conserves_conditional (ht : t.kind = .c .question) : conditional.Conserves kept place t := by
  intro p e he left whole taken
  simp only [conditional, Parser.run_bind, Parser.run_expr]
  rw [filter_not_kept ht (by decide), List.append_nil]
  apply (he _ whole _).bind
  intro yes
  apply (ensures_require (by decide) yes).bind
  intro _
  apply (he _ whole _).bind
  intro n
  apply ensures_answer
  simp (disch := decide) [yield_mark, Node.yields]

theorem conserves_stepAfter (ht : t.kind = .c s) (h : s ∉ punctuation) :
    stepAfter.Conserves kept place t := by
  intro p e he left whole taken
  rw [filter_kept ht h]
  apply ensures_answer
  rw [yield_mark (by decide)]
  simp [Node.yields, Node.yield]

theorem conserves_call (ht : t.kind = .c .leftParen) : call.Conserves kept place t := by
  intro p e he left whole taken
  simp only [call, Parser.run_bind]
  rw [filter_not_kept ht (by decide), List.append_nil]
  apply (ensures_accept (by decide)).bind
  rintro (_ | _)
  · simp only [Bool.false_eq_true, if_false, Parser.run_bind, Parser.run_sequence, bind_assoc]
    apply Ensures.room.bind
    intro k
    apply Ensures.bind
    · have elements := ParseM.Conserves.elements he (drops (s := .comma) (by decide))
        (drops (s := .rightParen) (by decide)) Level.root (k + 1) whole (taken ++ left.yield place)
      exact elements.weaken (fun i hi => hi.1) fun _ _ h => h
    · intro outcomes
      apply (Ensures.collect outcomes).bind
      intro ns
      apply ensures_answer
      simp (disch := decide) [yield_mark, Node.yields]
  · apply ensures_answer
    simp (disch := decide) [yield_mark, Node.yields]

theorem conserves_index (ht : t.kind = .c .leftBracket) : index.Conserves kept place t := by
  intro p e he left whole taken
  simp only [index, Parser.run_bind, Parser.run_expr, Parser.run_consume]
  rw [filter_not_kept ht (by decide), List.append_nil]
  apply (he _ whole _).bind
  intro position
  apply (Ensures.consume (drops (by decide))).bind
  intro _
  apply ensures_answer
  simp (disch := decide) [yield_mark, Node.yields]

theorem conserves_member (ht : t.kind = .c s) (h : s ∉ punctuation) (ho : s ∈ betweenOperands) :
    member.Conserves kept place t := by
  intro p e he left whole taken
  simp only [member, Parser.run_bind, Parser.run_expr]
  rw [filter_kept ht h]
  apply (he _ whole _).bind
  intro name
  apply (ensures_isIdent name).bind
  rintro (_ | _)
  · exact Ensures.raise _
  · apply ensures_answer
    simp [yield_between ht ho]

end Expressions

section Declarations
variable {t : Token} {s : CSymbol}

theorem ensures_extendSpecifiers (left : Node) (t : Token) (n : Node) :
    Ensures (Split whole (taken ++ left.yield place ++ n.yield place))
      (p.run e (extendSpecifiers left t n)) fun m => Split whole (taken ++ m.yield place) := by
  simp only [extendSpecifiers, Parser.run_bind]
  apply (ensures_kindOf left.token).bind
  intro kind
  by_cases hk : kind == .c .specifiers
  · simp only [hk, if_true]
    cases left with
    | leaf u => exact Ensures.throw _
    | branch u ns =>
      apply Ensures.pure
      rintro i ⟨hi, hu⟩
      have specifiers : u.kind = .c .specifiers := by
        rw [eq_of_beq hk] at hu
        cases u <;> simp_all [Token.kind?, Token.kind, Node.token]
      rw [yield_marker specifiers (by decide)] at hi ⊢
      simpa [Node.yields] using hi
  · simp only [hk, Bool.false_eq_true, if_false, Parser.run_bind]
    apply Ensures.bind ((ensures_isType left).weaken (fun i hi => hi.1) fun _ _ h => h)
    rintro (_ | _)
    · exact Ensures.raise _
    · apply ensures_answer
      simp (disch := decide) [yield_mark, Node.yields]

theorem conserves_specifierAfter (ht : t.kind = .c s) (h : s ∉ punctuation) :
    specifierAfter.Conserves kept place t := by
  intro p e he left whole taken
  rw [filter_kept ht h]
  exact ensures_extendSpecifiers left t (.leaf t)

theorem conserves_declarator (ht : t.kind = .c s) (h : s ∉ punctuation) :
    declarator.Conserves kept place t := by
  intro p e he left whole taken
  simp only [declarator, Parser.run_bind]
  rw [filter_kept ht h]
  apply (ensures_isType left).bind
  rintro (_ | _)
  · exact Ensures.raise _
  · apply ensures_answer
    rw [yield_mark (by decide)]
    simp [Node.yields, Node.yield]

/-- Rounds that each yield what they take. -/
theorem ensures_repeated {round : Action Round}
    (h : ∀ taken, Ensures (Split whole taken) (p.run e round) fun
      | .done => Split whole taken
      | .item n => Split whole (taken ++ n.yield place)
      | .last n => Split whole (taken ++ n.yield place)) :
    Ensures (Split whole taken) (p.run e (Action.repeated round)) fun ns =>
      Split whole (taken ++ (Node.yields place ns).flatten) := by
  rw [Parser.run_repeated]
  apply Ensures.room.bind
  intro k
  apply (Ensures.rounds (P := fun ns => Split whole (taken ++ (Node.yields place ns).flatten)) _
    (k + 1) []).weaken _ fun _ _ h => h
  · intro ns
    apply (h _).weaken (fun _ h => h)
    rintro (_ | n | n) i hi
    · exact hi
    · simpa [Node.yields] using hi
    · simpa [Node.yields] using hi
  · rintro i ⟨hi, -⟩
    simpa [Node.yields] using hi

variable (he : ∀ r, Conserves (e r))
include he

theorem conserves_recordBody : Conserves (p.run e recordBody) := by
  intro whole taken
  simp only [recordBody, Parser.run_bind]
  apply Ensures.bind (ensures_repeated _)
  · intro ns
    apply ensures_answer
    rw [yield_mark (by decide)]
  · intro taken
    simp only [Parser.run_bind]
    apply (ensures_accept (by decide)).bind
    rintro (_ | _)
    · simp only [Bool.false_eq_true, if_false, Parser.run_bind, Parser.run_expr]
      apply (he _ whole _).bind
      intro field
      apply (ensures_require (by decide) field).bind
      intro _
      exact Ensures.pure fun i hi => hi
    · exact Ensures.pure fun i hi => hi

theorem conserves_enumBody : Conserves (p.run e (enumBody t)) := by
  have enumeratorName (P : Scan → Prop) (n : Node) :
      Ensures P (p.run e (enumeratorName n)) fun _ => P := by
    simp only [C.enumeratorName, Parser.run_bind]
    apply (ensures_kindOf n.token).bind
    intro kind
    split
    · split
      · exact Ensures.throw _
      · exact Ensures.throw _
      · exact Ensures.pure fun i hi => hi.1
    · exact Ensures.pure fun i hi => hi.1
  have checkEnumerators (P : Scan → Prop) (ns : List Node) :
      Ensures P (p.run e (checkEnumerators t ns)) fun _ => P := by
    induction ns with
    | nil => exact Ensures.pure fun i hi => hi
    | cons n ns ih =>
      simp only [C.checkEnumerators, Parser.run_bind]
      apply (enumeratorName P n).bind
      intro name
      apply (ensures_isIdent name).bind
      rintro (_ | _)
      · exact Ensures.raise _
      · exact ih
  intro whole taken
  simp only [enumBody, Parser.run_bind]
  apply Ensures.bind (ensures_repeated _)
  · intro ns
    apply (checkEnumerators _ ns).bind
    intro _
    apply ensures_answer
    rw [yield_mark (by decide)]
  · intro taken
    simp only [Parser.run_bind]
    apply (ensures_accept (by decide)).bind
    rintro (_ | _)
    · simp only [Bool.false_eq_true, if_false, Parser.run_bind, Parser.run_expr]
      apply (he _ whole _).bind
      intro item
      apply (ensures_accept (by decide)).bind
      rintro (_ | _)
      · simp only [Bool.false_eq_true, if_false, Parser.run_bind, Parser.run_consume]
        apply (Ensures.consume (drops (by decide))).bind
        intro _
        exact Ensures.pure fun i hi => hi
      · exact Ensures.pure fun i hi => hi
    · exact Ensures.pure fun i hi => hi

theorem conserves_taggedBody : Conserves (p.run e (taggedBody t)) := by
  intro whole taken
  simp only [taggedBody, Parser.run_bind]
  apply (ensures_kindOf t).bind
  intro kind
  split
  · exact (conserves_enumBody he whole taken).weaken (fun i hi => hi.1) fun _ _ h => h
  · exact (conserves_recordBody he whole taken).weaken (fun i hi => hi.1) fun _ _ h => h

theorem ensures_tagged (ht : t.kind = .c s) (h : s ∈ taggedSymbols) :
    Ensures (Split whole (taken ++ [t].filter kept)) (p.run e (tagged t)) fun n =>
      Split whole (taken ++ n.yield place) := by
  have apart : ∀ s ∈ taggedSymbols, s ∉ punctuation ∧ s ∉ markers ∧ s ∉ betweenOperands := by decide
  obtain ⟨hp, hm, ho⟩ := apart s h
  rw [filter_kept ht hp]
  simp only [tagged, Parser.run_bind]
  apply (ensures_accept (by decide)).bind
  rintro (_ | _)
  · simp only [Bool.false_eq_true, if_false, Parser.run_bind, Parser.run_expr]
    apply (he _ whole _).bind
    intro tag
    apply (ensures_isIdent tag).bind
    rintro (_ | _)
    · exact Ensures.raise _
    · simp only [if_true, Parser.run_bind]
      apply (ensures_acceptOrEnd (by decide)).bind
      rintro (_ | _)
      · apply ensures_answer
        simp [yield_before ht hm ho, Node.yields]
      · simp only [if_true, Parser.run_bind]
        apply (conserves_taggedBody he whole _).bind
        intro body
        apply ensures_answer
        simp [yield_before ht hm ho, Node.yields]
  · simp only [if_true, Parser.run_bind]
    apply (conserves_taggedBody he whole _).bind
    intro body
    apply ensures_answer
    simp [yield_before ht hm ho, Node.yields]

omit he

theorem conserves_taggedFirst (ht : t.kind = .c s) (h : s ∈ taggedSymbols) :
    taggedFirst.Conserves kept place t := by
  intro p e he whole taken
  exact ensures_tagged he ht h

theorem conserves_taggedAfter (ht : t.kind = .c s) (h : s ∈ taggedSymbols) :
    taggedAfter.Conserves kept place t := by
  intro p e he left whole taken
  simp only [taggedAfter, Parser.run_bind]
  apply (ensures_tagged he ht h).bind
  intro specifier
  exact ensures_extendSpecifiers left t specifier

end Declarations

section Statements
variable {t : Token}

theorem conserves_statementOf (he : ∀ r, Conserves (e r)) (semicolonRequired keyword : Bool) :
    Conserves (p.run e (statementOf semicolonRequired keyword)) := by
  intro whole taken
  cases keyword with
  | true =>
    simp only [statementOf, if_true, Parser.run_expr]
    exact he _ whole taken
  | false =>
    simp only [statementOf, Bool.false_eq_true, if_false, Parser.run_bind, Parser.run_expr]
    apply (he _ whole taken).bind
    intro n
    have closed : Ensures (Split whole (taken ++ n.yield place))
        (p.run e (require .semicolon n >>= fun _ => pure n)) fun m =>
          Split whole (taken ++ m.yield place) := by
      rw [Parser.run_bind]
      apply (ensures_require (by decide) n).bind
      intro _
      exact Ensures.pure fun i hi => hi
    cases semicolonRequired with
    | true => exact closed
    | false =>
      simp only [Bool.false_eq_true, if_false, Parser.run_bind, Parser.run_peek]
      apply Ensures.peek.bind
      rintro (_ | t)
      · exact Ensures.pure fun i hi => hi.1
      · exact closed.weaken (fun i hi => hi.1) fun _ _ h => h

theorem conserves_statement (he : ∀ r, Conserves (e r)) (semicolonRequired : Bool) :
    Conserves (p.run e (statement semicolonRequired)) := by
  intro whole taken
  rw [run_statement]
  apply Ensures.peek.bind
  rintro (_ | t)
  · exact (conserves_statementOf he _ _ whole taken).weaken (fun i hi => hi.1) fun _ _ h => h
  · apply (ensures_kindOf t).bind
    intro kind
    exact (conserves_statementOf he _ _ whole taken).weaken (fun i hi => hi.1.1) fun _ _ h => h

variable {s : CSymbol}

theorem conserves_gotoRule (ht : t.kind = .c .kwGoto) : gotoRule.Conserves kept place t := by
  intro p e he whole taken
  simp only [gotoRule, Parser.run_bind, Parser.run_expr]
  rw [filter_kept ht (by decide)]
  apply (he _ whole _).bind
  intro label
  apply (ensures_isIdent label).bind
  rintro (_ | _)
  · exact Ensures.raise _
  · simp only [if_true, Parser.run_bind]
    apply (ensures_require (by decide) _).bind
    intro _
    apply ensures_answer
    simp [yield_before ht (by decide) (by decide), Node.yields]

theorem conserves_jump (ht : t.kind = .c s) (h : s ∉ punctuation) (hm : s ∉ markers)
    (ho : s ∉ betweenOperands) : jump.Conserves kept place t := by
  intro p e he whole taken
  simp only [jump, Parser.run_bind]
  rw [filter_kept ht h]
  apply (ensures_require (by decide) _).bind
  intro _
  apply ensures_answer
  simp [yield_before ht hm ho, Node.yields]

theorem conserves_returnRule (ht : t.kind = .c .kwReturn) : returnRule.Conserves kept place t := by
  intro p e he whole taken
  simp only [returnRule, Parser.run_bind]
  rw [filter_kept ht (by decide)]
  apply (ensures_accept (by decide)).bind
  rintro (_ | _)
  · simp only [Bool.false_eq_true, if_false, Parser.run_bind, Parser.run_expr]
    apply (he _ whole _).bind
    intro value
    apply (ensures_require (by decide) _).bind
    intro _
    apply ensures_answer
    simp [yield_before ht (by decide) (by decide), Node.yields]
  · apply ensures_answer
    simp [yield_before ht (by decide) (by decide), Node.yields]

theorem conserves_defaultRule (ht : t.kind = .c .kwDefault) : defaultRule.Conserves kept place t := by
  intro p e he whole taken
  simp only [defaultRule, Parser.run_bind]
  rw [filter_kept ht (by decide)]
  apply (ensures_require (by decide) _).bind
  intro _
  apply (conserves_statement he true whole _).bind
  intro body
  apply ensures_answer
  simp [yield_before ht (by decide) (by decide), Node.yields]

theorem conserves_caseRule (ht : t.kind = .c .kwCase) : caseRule.Conserves kept place t := by
  intro p e he whole taken
  simp only [caseRule, Parser.run_bind, Parser.run_expr]
  rw [filter_kept ht (by decide)]
  apply (he _ whole _).bind
  intro value
  apply (ensures_require (by decide) _).bind
  intro _
  apply (conserves_statement he true whole _).bind
  intro body
  apply ensures_answer
  simp [yield_before ht (by decide) (by decide), Node.yields]

theorem conserves_condition (he : ∀ r, Conserves (e r)) : Conserves (p.run e condition) := by
  intro whole taken
  simp only [condition, Parser.run_bind, Parser.run_expr, Parser.run_consume]
  apply (Ensures.consume (drops (by decide))).bind
  intro _
  apply (he _ whole _).bind
  intro n
  apply (Ensures.consume (drops (by decide))).bind
  intro _
  exact Ensures.pure fun i hi => hi

theorem conserves_ifRule (ht : t.kind = .c .kwIf) : ifRule.Conserves kept place t := by
  intro p e he whole taken
  simp only [ifRule, Parser.run_bind]
  rw [filter_kept ht (by decide)]
  apply (conserves_condition he whole _).bind
  intro test
  apply (conserves_statement he true whole _).bind
  intro yes
  apply (ensures_acceptOrEnd (by decide)).bind
  rintro (_ | _)
  · apply ensures_answer
    simp [yield_before ht (by decide) (by decide), Node.yields]
  · simp only [if_true, Parser.run_bind]
    apply (conserves_statement he true whole _).bind
    intro no
    apply ensures_answer
    simp [yield_before ht (by decide) (by decide), Node.yields]

theorem conserves_whileRule (ht : t.kind = .c .kwWhile) : whileRule.Conserves kept place t := by
  intro p e he whole taken
  simp only [whileRule, Parser.run_bind]
  rw [filter_kept ht (by decide)]
  apply (conserves_condition he whole _).bind
  intro test
  apply (conserves_statement he true whole _).bind
  intro body
  apply ensures_answer
  simp [yield_before ht (by decide) (by decide), Node.yields]

theorem conserves_block (ht : t.kind = .c .leftBrace) : block.Conserves kept place t := by
  intro p e he whole taken
  simp only [block, Parser.run_bind]
  rw [filter_not_kept ht (by decide), List.append_nil]
  apply Ensures.bind (ensures_repeated _)
  · intro ns
    apply ensures_answer
    rw [yield_mark (by decide)]
  · intro taken
    simp only [Parser.run_bind]
    apply (ensures_accept (by decide)).bind
    rintro (_ | _)
    · simp only [Bool.false_eq_true, if_false, Parser.run_bind]
      apply (conserves_statement he true whole _).bind
      intro n
      exact Ensures.pure fun i hi => hi
    · exact Ensures.pure fun i hi => hi

end Statements

/-- Every rule keeps account of what it takes. -/
theorem eachPrefix_conserves :
    EachPrefix fun s rule => ∀ t : Token, t.kind = .c s → rule.Conserves kept place t where
  operand s hs _ ht := conserves_leaf ht
    ((by decide : ∀ s ∈ [CSymbol.ident, .intConst, .charConst, .floatConst, .string], s ∉ punctuation) s hs) _
  specifier s hs _ ht :=
    conserves_leaf ht ((by decide : ∀ s ∈ specifierSymbols, s ∉ punctuation) s hs) _
  tagged _ hs _ ht := conserves_taggedFirst ht hs
  operator s hs _ ht := by
    have outside : ∀ s ∈ [CSymbol.increment, .decrement, .kwSizeof, .ampersand, .star, .plus, .minus,
        .tilde, .bang], s ∉ punctuation ∧ s ∉ markers := by decide
    exact conserves_unary ht (outside s hs).1 (outside s hs).2 _
  parentheses _ ht := conserves_parentheses ht
  goto _ ht := conserves_gotoRule ht
  jump s hs _ ht := by
    have outside : ∀ s ∈ [CSymbol.kwContinue, .kwBreak],
        s ∉ punctuation ∧ s ∉ markers ∧ s ∉ betweenOperands := by decide
    exact conserves_jump ht (outside s hs).1 (outside s hs).2.1 (outside s hs).2.2
  exit _ ht := conserves_returnRule ht
  otherwise _ ht := conserves_defaultRule ht
  labelled _ ht := conserves_caseRule ht
  choice _ ht := conserves_ifRule ht
  loop _ ht := conserves_whileRule ht
  block _ ht := conserves_block ht

theorem eachInfix_conserves :
    EachInfix fun s rule => ∀ t : Token, t.kind = .c s → rule.Conserves kept place t where
  specifier s hs _ ht :=
    conserves_specifierAfter ht ((by decide : ∀ s ∈ specifierSymbols, s ∉ punctuation) s hs)
  tagged _ hs _ ht := conserves_taggedAfter ht hs
  declarator _ ht := conserves_declarator ht (by decide)
  assignment s hs _ ht := by
    have between : ∀ s ∈ assignmentSymbols, s ∉ punctuation ∧ s ∈ betweenOperands := by decide
    exact conserves_binary ht (between s hs).1 (between s hs).2 _ _
  conditional _ ht := conserves_conditional ht
  between s hs _ _ _ ht := by
    have between : ∀ s ∈ [CSymbol.orOr, .andAnd, .bar, .caret, .ampersand, .equals, .notEquals, .less,
        .greater, .lessEq, .greaterEq, .shiftLeft, .shiftRight, .plus, .minus, .slash, .percent],
        s ∉ punctuation ∧ s ∈ betweenOperands := by decide
    exact conserves_binary ht (between s hs).1 (between s hs).2 _ _
  star _ ht := conserves_starAfter ht
  step s hs _ ht :=
    conserves_stepAfter ht ((by decide : ∀ s ∈ [CSymbol.increment, .decrement], s ∉ punctuation) s hs)
  call _ ht := conserves_call ht
  index _ ht := conserves_index ht
  member s hs _ ht := by
    have between : ∀ s ∈ [CSymbol.dot, .arrow], s ∉ punctuation ∧ s ∈ betweenOperands := by decide
    exact conserves_member ht (between s hs).1 (between s hs).2

theorem conserves_rules : rules.Conserves kept place where
  starting := by
    intro t rule h
    obtain ⟨s, ht, hr⟩ := eachPrefix_conserves.of_lookup h
    exact hr t ht
  continuing := by
    intro t rule h
    obtain ⟨s, ht, hr⟩ := eachInfix_conserves.of_lookup h
    exact hr t ht

theorem statementOf_shorter (semicolonRequired keyword : Bool) (k : Nat) :
    Ensures (fun i => i.tokens.length < k + 1)
      (p.run p.reading (statementOf semicolonRequired keyword)) fun _ j => j.tokens.length < k := by
  have read (r : Int) : Ensures (fun i => i.tokens.length < k + 1) (p.reading r)
      fun _ j => j.tokens.length < k :=
    (p.ensures_shorter r k).weaken (fun i hi => Nat.le_of_lt_succ hi) fun _ _ h => h
  cases keyword with
  | true =>
    simp only [statementOf, if_true, Parser.run_expr]
    exact read _
  | false =>
    simp only [statementOf, Bool.false_eq_true, if_false]
    rw [Parser.run_bind, Parser.run_expr]
    apply (read _).bind
    intro n
    exact p.ensures_no_longer _ k

theorem statement_shorter (semicolonRequired : Bool) (k : Nat) :
    Ensures (fun i => i.tokens.length ≤ k) (p.run p.reading (statement semicolonRequired))
      fun _ j => j.tokens.length < k := by
  have look := p.ensures_no_longer Action.peek (k + 1)
  rw [Parser.run_peek] at look
  rw [run_statement]
  apply Ensures.bind (look.weaken (fun i hi => Nat.lt_succ_of_le hi) fun _ _ h => h)
  rintro (_ | t)
  · exact statementOf_shorter _ _ k
  · apply (ensures_kindOf t).bind
    intro kind
    exact (statementOf_shorter _ _ k).weaken (fun i hi => hi.1) fun _ _ h => h

/-- A program goes on to the end of its text. -/
theorem ensures_program (limit : Option Int) :
    Ensures (Split whole taken)
      ((Grammar.c.parser limit).run (Grammar.c.parser limit).reading program) fun ns j =>
        Split whole (taken ++ (Node.yields place ns).flatten) j ∧ j.tokens = [] ∧ j.fault = none := by
  have he (r : Int) : Conserves ((Grammar.c.parser limit).reading r) :=
    Parser.conserves_reading conserves_rules rfl r
  rw [program, Parser.run_repeated]
  apply Ensures.room.bind
  intro k
  refine (Ensures.rounds_to_end
    (P := fun ns => Split whole (taken ++ (Node.yields place ns).flatten))
    (D := fun ns j => Split whole (taken ++ (Node.yields place ns).flatten) j ∧
      j.tokens = [] ∧ j.fault = none) (fun ns k => ?_) (k + 1) []).weaken ?_ fun _ _ h => h
  · simp only [Parser.run_bind, Parser.run_peek]
    have look := (Grammar.c.parser limit).ensures_no_longer Action.peek (k + 1)
    rw [Parser.run_peek] at look
    apply Ensures.bind ((Ensures.peek.and look).weaken
      (fun i hi => ⟨hi.1, Nat.lt_succ_of_le hi.2⟩) fun _ _ h => h)
    rintro (_ | t)
    · exact Ensures.pure fun i hi => hi.1
    · simp only [Parser.run_bind]
      apply Ensures.bind (((conserves_statement he false whole _).and (statement_shorter false k)).weaken
        (fun i hi => ⟨hi.1.1, Nat.le_of_lt_succ hi.2⟩) fun _ _ h => h)
      intro n
      apply Ensures.pure
      intro i hi
      exact ⟨by simpa [Node.yields] using hi.1, hi.2⟩
  · rintro i ⟨hi, rfl⟩
    exact ⟨by simpa [Node.yields] using hi, Nat.lt_succ_self _⟩

theorem plain_scan (text : String) : (ScanRule.scan lexemes text).Plain :=
  ScanRule.plain_scan lexemes text

/-- The yield of what is parsed is what was scanned, without the punctuation and with every token in
its place; and all of the text was scanned. -/
theorem yield_of_parse {text : String} {limit : Option Int} {ns : List Node}
    (h : Grammar.c.parse text limit = .ok ns) :
    (ScanRule.scan lexemes text).fault = none ∧
    (Node.yields place ns).flatten = (ScanRule.scan lexemes text).tokens.filter kept := by
  have start : (Grammar.c.start text).input = ScanRule.scan lexemes text := rfl
  have done := (ensures_program limit _ (plain_scan text).split).holds _ start
  rw [← Parser.perform_eq] at done
  change ((Grammar.c.parser limit).perform program (Grammar.c.start text)).1 = _ at h
  rw [h] at done
  obtain ⟨split, none_left, no_fault⟩ := done
  have tokens := split.tokens
  rw [none_left, List.filter_nil, List.append_nil, List.nil_append] at tokens
  exact ⟨split.fault.symm.trans no_fault, tokens.symm⟩

theorem yield_of_parse_index :
    Grammar.c.parse "a[1]" none = .ok [.branch CSymbol.index.token
      [.leaf (.lexeme (.c .ident) "a" (some 0)), .leaf (.lexeme (.c .intConst) "1" (some 2))]] ∧
    [.lexeme (.c .ident) "a" (some 0), .lexeme (.c .intConst) "1" (some 2)] =
      (ScanRule.scan lexemes "a[1]").tokens.filter kept := by
  have parsed : Grammar.c.parse "a[1]" none = .ok [.branch CSymbol.index.token
      [.leaf (.lexeme (.c .ident) "a" (some 0)), .leaf (.lexeme (.c .intConst) "1" (some 2))]] := by
    decide +kernel
  exact ⟨parsed, (yield_of_parse parsed).2⟩

end BindingPower.C
