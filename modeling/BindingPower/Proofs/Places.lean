import BindingPower.Proofs.Alike
import BindingPower.Proofs.Defect

/-! The places of tokens make no difference to the bundled grammars: their rules make like nodes of like
tokens, so how a text is laid out does not change its parse. -/
namespace BindingPower
open BindingPower.Action Alike

namespace Arithmetic

theorem indifferent_parentheses : parentheses.Indifferent := fun _ _ _ _ =>
  (Alike.expr _).bind fun _ _ hn => (Alike.consume _).bind fun _ _ _ => .pure hn

theorem indifferent (limit : Option Int) : (Grammar.arithmetic.parser limit).Indifferent where
  classified asked t u h := by
    cases t <;> cases u <;> cases h <;> rfl
  table := each_rules (PrefixRule.indifferent_leaf _) indifferent_parentheses
    (PrefixRule.indifferent_unary _) (InfixRule.indifferent_binary _ _)
    (InfixRule.indifferent_binary _ _) (InfixRule.indifferent_binary _ _)

theorem alike_program : Alike (List.Forall₂ Node.Like) program program := by
  refine (Alike.expr _).bind fun _ _ hn => Alike.peek.bind fun next next' h => ?_
  cases h with
  | none => exact .pure (.cons hn .nil)
  | some ht => exact .raise (.missingRule _ ht)

end Arithmetic

theorem Classifier.byKind_indifferent (asked : Nat) (t u : Token) (h : t.Like u) :
    (Classifier.byKind asked t).toOption = (Classifier.byKind asked u).toOption :=
  congrArg some h.kind

variable {n m left left' : Node} {t u : Token}

/-- Like nodes grow by like children, or neither can grow. -/
theorem Action.alike_grown {c d : Node} (hn : n.Like m) (hc : c.Like d) (x y : Defect) :
    Alike Node.Like (match n.withChild? c with | some n => pure n | none => Action.defect x)
      (match m.withChild? d with | some m => pure m | none => Action.defect y) := by
  have grown := hn.withChild? hc
  generalize n.withChild? c = a, m.withChild? d = b at grown
  cases grown with
  | none => exact .defect x y
  | some h => exact .pure h

namespace Ebnf

theorem alike_isBranch (h : n.Like m) (s : EbnfSymbol) : Alike Eq (isBranch n s) (isBranch m s) := by
  obtain ⟨t, u, rfl, rfl, -⟩ | ⟨t, u, ns, ms, rfl, rfl, h, -⟩ := h.sorts
  · exact .pure rfl
  · exact (Alike.kindOf h).bind fun _ _ hk => .pure (congrArg (· == Kind.ebnf s) hk)

theorem alike_extendSequence (hl : left.Like left') (hn : n.Like m) :
    Alike Node.Like (extendSequence left n) (extendSequence left' m) :=
  .test (alike_isBranch hl _) (alike_grown hl hn _ _)
    (.pure (.branch (.refl _) (.cons hl (.cons hn .nil))))

theorem children_like (h : n.Like m) :
    List.Forall₂ Node.Like (n.children?.getD []) (m.children?.getD []) := by
  obtain ⟨t, u, rfl, rfl, -⟩ | ⟨t, u, ns, ms, rfl, rfl, -, hs⟩ := h.sorts
  · exact .nil
  · exact hs

theorem lasts_like {ns ms : List Node} (h : List.Forall₂ Node.Like ns ms) :
    Option.Rel Node.Like ns.getLast? ms.getLast? ∧ List.Forall₂ Node.Like ns.dropLast ms.dropLast := by
  induction h with
  | nil => exact ⟨.none, .nil⟩
  | cons hn hns ih =>
    cases hns with
    | nil => exact ⟨.some hn, .nil⟩
    | cons _ _ => exact ⟨ih.1, .cons hn ih.2⟩

theorem alike_onLast {mark mark' : Node → Action Node}
    (hm : ∀ n m, n.Like m → Alike Node.Like (mark n) (mark' m)) (hl : left.Like left') :
    Alike Node.Like (onLast left mark) (onLast left' mark') := by
  refine .test (alike_isBranch hl _) ?_ (hm left left' hl)
  dsimp only
  obtain ⟨last, front⟩ := lasts_like (children_like hl)
  generalize (left.children?.getD []).getLast? = x, (left'.children?.getD []).getLast? = y at last
  cases last with
  | none => exact .defect _ _
  | some h =>
    refine (hm _ _ h).bind fun _ _ hn => .pure (.branch hl.token ?_)
    exact List.rel_append front (.cons hn .nil)

theorem alike_repeatMark (ht : t.Like u) (hn : n.Like m) :
    Alike Node.Like (repeatMark t n) (repeatMark u m) := by
  have marked : Alike Node.Like (pure (.branch (EbnfSymbol.marker .repeats) [n, .leaf t]))
      (pure (.branch (EbnfSymbol.marker .repeats) [m, .leaf u])) :=
    .pure (.branch (.refl _) (.cons hn (.cons (.leaf ht) .nil)))
  refine (Alike.kindOf ht).bind ?_
  rintro kind _ rfl
  exact .ite (.test (alike_isBranch hn _) (alike_grown hn (.leaf ht) _ _) marked) marked

theorem alike_group : Alike Node.Like group group :=
  (Alike.expr _).bind fun _ _ hn => (Alike.consume _).bind fun _ _ _ =>
    .pure (.branch (.refl _) (.cons hn .nil))

theorem indifferent (limit : Option Int) : (Grammar.ebnf.parser limit).Indifferent where
  classified := Classifier.byKind_indifferent
  table := by
    have definition : definition.Indifferent := fun _ _ _ _ _ _ hl =>
      (Alike.expr _).bind fun _ _ hn => .pure (.branch (.refl _) (.cons hl (.cons hn .nil)))
    have repetition : repetition.Indifferent := fun _ _ _ _ _ ht =>
      alike_onLast fun _ _ => alike_repeatMark ht
    have option : option.Indifferent := fun _ _ _ _ _ _ =>
      alike_onLast fun _ _ hn => .pure (.branch (.refl _) (.cons hn .nil))
    have juxtaposition : juxtaposition.Indifferent := fun _ _ _ _ _ ht hl =>
      alike_extendSequence hl (.leaf ht)
    have groupAfter : groupAfter.Indifferent := fun _ _ _ _ _ _ hl =>
      alike_group.bind fun _ _ => alike_extendSequence hl
    exact each_rules (PrefixRule.indifferent_leaf _) (fun _ _ _ _ => alike_group) definition
      (InfixRule.indifferent_binary _ _) repetition option juxtaposition groupAfter

theorem alike_program : Alike (List.Forall₂ Node.Like) program program := .collected _ _ _

end Ebnf

namespace C

theorem alike_isIdent (h : n.Like m) : Alike Eq (isIdent n) (isIdent m) := by
  obtain ⟨t, u, rfl, rfl, like⟩ | ⟨t, u, ns, ms, rfl, rfl, -, -⟩ := h.sorts
  · exact (Alike.kindOf like).bind fun _ _ hk => .pure (congrArg (· == Kind.c .ident) hk)
  · exact .pure rfl

theorem alike_isType (h : n.Like m) : Alike Eq (isType n) (isType m) := by
  refine (Alike.kindOf h.token).bind ?_
  rintro kind _ rfl
  obtain ⟨t, u, rfl, rfl, -⟩ | ⟨t, u, ns, ms, rfl, rfl, -, -⟩ := h.sorts <;> exact .pure rfl

theorem alike_require (expected : CSymbol) (h : n.Like m) :
    Alike (fun _ _ => True) (require expected n) (require expected m) := by
  refine (Alike.attempt_consume _).bind fun x y answer => ?_
  cases answer with
  | ok _ => exact .pure trivial
  | error cause =>
    have kept := cause
    cases cause with
    | consumeFailed _ found => exact .raise (.malformed h found)
    | _ => exact .raise kept

theorem alike_accept (expected : CSymbol) : Alike Eq (accept expected) (accept expected) := by
  refine (Alike.attempt_consume _).bind fun x y answer => ?_
  cases answer with
  | ok _ => exact .pure rfl
  | error cause =>
    have kept := cause
    cases cause with
    | consumeFailed _ _ => exact .pure rfl
    | _ => exact .raise kept

theorem alike_acceptOrEnd (expected : CSymbol) :
    Alike Eq (acceptOrEnd expected) (acceptOrEnd expected) := by
  refine (Alike.attempt_consume _).bind fun x y answer => ?_
  cases answer with
  | ok _ => exact .pure rfl
  | error cause =>
    have kept := cause
    cases cause with
    | consumeFailed _ _ | incomplete => exact .pure rfl
    | _ => exact .raise kept

section Expressions

theorem indifferent_parentheses : parentheses.Indifferent := fun _ _ _ _ =>
  (Alike.expr _).bind fun _ _ hn => (Alike.consume _).bind fun _ _ _ => .pure hn

theorem indifferent_starAfter : starAfter.Indifferent := fun _ _ _ _ _ ht hl =>
  .test (alike_isType hl)
    ((Alike.expr _).bind fun _ _ hn =>
      .pure (.branch (.refl _) (.cons hl (.cons (.branch ht (.cons hn .nil)) .nil))))
    (InfixRule.indifferent_binary Level.thirteenth Level.thirteenth _ _ _ _ _ ht hl)

theorem indifferent_conditional : conditional.Indifferent := fun _ _ _ _ _ _ hl =>
  (Alike.expr _).bind fun _ _ yes => (alike_require _ yes).bind fun _ _ _ =>
    (Alike.expr _).bind fun _ _ no => .pure (.branch (.refl _) (.cons hl (.cons yes (.cons no .nil))))

theorem indifferent_stepAfter : stepAfter.Indifferent := fun _ _ _ _ _ ht hl =>
  .pure (.branch (.refl _) (.cons hl (.cons (.leaf ht) .nil)))

theorem indifferent_call : call.Indifferent := by
  intro t u power left left' _ hl
  refine .test (alike_accept _) (.pure (.branch (.refl _) (.cons hl .nil))) ?_
  rw [← bind_assoc, ← bind_assoc]
  exact (Alike.collected _ _ _).bind fun _ _ hs => .pure (.branch (.refl _) (.cons hl hs))

theorem indifferent_index : index.Indifferent := fun _ _ _ _ _ _ hl =>
  (Alike.expr _).bind fun _ _ hn => (Alike.consume _).bind fun _ _ _ =>
    .pure (.branch (.refl _) (.cons hl (.cons hn .nil)))

theorem indifferent_member : member.Indifferent := fun _ _ _ _ _ ht hl =>
  (Alike.expr _).bind fun _ _ hn => .test (alike_isIdent hn)
    (.pure (.branch ht (.cons hl (.cons hn .nil)))) (.raise (.malformed hn ht))

end Expressions

section Declarations

theorem alike_extendSpecifiers (hl : left.Like left') (ht : t.Like u) (hn : n.Like m) :
    Alike Node.Like (extendSpecifiers left t n) (extendSpecifiers left' u m) := by
  refine (Alike.kindOf hl.token).bind ?_
  rintro kind _ rfl
  refine .ite (alike_grown hl hn _ _) (.test (alike_isType hl) ?_ (.raise (.malformed hl ht)))
  exact .pure (.branch (.refl _) (.cons hl (.cons hn .nil)))

theorem indifferent_declarator : declarator.Indifferent := fun _ _ _ _ _ ht hl =>
  .test (alike_isType hl) (.pure (.branch (.refl _) (.cons hl (.cons (.leaf ht) .nil))))
    (.raise (.malformed hl ht))

theorem alike_recordBody : Alike Node.Like recordBody recordBody := by
  refine (Alike.repeated ?_).bind fun _ _ fields => .pure (.branch (.refl _) fields)
  refine .test (alike_accept _) (.pure .done) ((Alike.expr _).bind fun _ _ field => ?_)
  exact (alike_require _ field).bind fun _ _ _ => .pure (.item field)

theorem alike_enumeratorName (h : n.Like m) :
    Alike Node.Like (enumeratorName n) (enumeratorName m) := by
  refine (Alike.kindOf h.token).bind ?_
  rintro kind _ rfl
  refine .ite ?_ (.pure h)
  obtain ⟨t, u, rfl, rfl, -⟩ | ⟨t, u, ns, ms, rfl, rfl, -, hs⟩ := h.sorts
  · exact .defect _ _
  · cases hs with
    | nil => exact .defect _ _
    | cons name _ => exact .pure name

theorem alike_checkEnumerators (ht : t.Like u) {ns ms : List Node} (h : List.Forall₂ Node.Like ns ms) :
    Alike (fun _ _ => True) (checkEnumerators t ns) (checkEnumerators u ms) := by
  induction h with
  | nil => exact .pure trivial
  | cons item _ ih =>
    refine (alike_enumeratorName item).bind fun _ _ name => ?_
    exact .test (alike_isIdent name) ih (.raise (.malformed item ht))

theorem alike_enumBody (ht : t.Like u) : Alike Node.Like (enumBody t) (enumBody u) := by
  refine (Alike.repeated ?_).bind fun _ _ items => (alike_checkEnumerators ht items).bind fun _ _ _ =>
    .pure (.branch (.refl _) items)
  refine .test (alike_accept _) (.pure .done) ((Alike.expr _).bind fun _ _ item => ?_)
  refine .test (alike_accept _) (.pure (.item item)) ?_
  exact (Alike.consume _).bind fun _ _ _ => .pure (.last item)

theorem alike_taggedBody (ht : t.Like u) : Alike Node.Like (taggedBody t) (taggedBody u) := by
  refine (Alike.kindOf ht).bind ?_
  rintro kind _ rfl
  exact .ite (alike_enumBody ht) alike_recordBody

theorem alike_tagged (ht : t.Like u) : Alike Node.Like (tagged t) (tagged u) := by
  refine .test (alike_accept _) ?_ ((Alike.expr _).bind fun _ _ tag => ?_)
  · exact (alike_taggedBody ht).bind fun _ _ body => .pure (.branch ht (.cons body .nil))
  · refine .test (alike_isIdent tag) (.test (alike_acceptOrEnd _) ?_ ?_) (.raise (.malformed tag ht))
    · exact (alike_taggedBody ht).bind fun _ _ body => .pure (.branch ht (.cons tag (.cons body .nil)))
    · exact .pure (.branch ht (.cons tag .nil))

end Declarations

section Statements

theorem alike_statement (semicolonRequired : Bool) :
    Alike Node.Like (statement semicolonRequired) (statement semicolonRequired) := by
  have body (keyword : Bool) :
      Alike Node.Like (statementOf semicolonRequired keyword) (statementOf semicolonRequired keyword) := by
    refine .ite (Alike.expr _) ((Alike.expr _).bind fun n m hn => ?_)
    have terminated : Alike Node.Like (require .semicolon n >>= fun _ => pure n)
        (require .semicolon m >>= fun _ => pure m) := (alike_require _ hn).bind fun _ _ _ => .pure hn
    refine .ite terminated (Alike.peek.bind fun next next' h => ?_)
    cases h with
    | none => exact .pure hn
    | some _ => exact terminated
  refine Alike.peek.bind fun next next' h => ?_
  cases h with
  | none => exact body false
  | some ht => exact (Alike.kindOf ht).bind fun kind _ hk => hk ▸ body (among statementSymbols kind)

theorem indifferent_gotoRule : gotoRule.Indifferent := fun _ _ _ ht =>
  (Alike.expr _).bind fun _ _ label =>
    have jump := Node.Like.branch ht (.cons label .nil)
    .test (alike_isIdent label) ((alike_require _ jump).bind fun _ _ _ => .pure jump)
      (.raise (.malformed (.leaf ht) label.token))

theorem indifferent_jump : jump.Indifferent := fun _ _ _ ht =>
  (alike_require _ (.branch ht .nil)).bind fun _ _ _ => .pure (.branch ht .nil)

theorem indifferent_returnRule : returnRule.Indifferent := fun _ _ _ ht =>
  .test (alike_accept _) (.pure (.branch ht .nil)) ((Alike.expr _).bind fun _ _ value =>
    have answer := Node.Like.branch ht (.cons value .nil)
    (alike_require _ answer).bind fun _ _ _ => .pure answer)

theorem indifferent_defaultRule : defaultRule.Indifferent := fun _ _ _ ht =>
  (alike_require _ (.leaf ht)).bind fun _ _ _ =>
    (alike_statement true).bind fun _ _ body => .pure (.branch ht (.cons body .nil))

theorem indifferent_caseRule : caseRule.Indifferent := fun _ _ _ ht =>
  (Alike.expr _).bind fun _ _ value => (alike_require _ (.branch ht (.cons value .nil))).bind fun _ _ _ =>
    (alike_statement true).bind fun _ _ body => .pure (.branch ht (.cons value (.cons body .nil)))

theorem alike_condition : Alike Node.Like condition condition :=
  (Alike.consume _).bind fun _ _ _ => (Alike.expr _).bind fun _ _ hn =>
    (Alike.consume _).bind fun _ _ _ => .pure hn

theorem indifferent_ifRule : ifRule.Indifferent := fun _ _ _ ht =>
  alike_condition.bind fun _ _ test => (alike_statement true).bind fun _ _ yes =>
    .test (alike_acceptOrEnd _)
      ((alike_statement true).bind fun _ _ no =>
        .pure (.branch ht (.cons test (.cons yes (.cons no .nil)))))
      (.pure (.branch ht (.cons test (.cons yes .nil))))

theorem indifferent_whileRule : whileRule.Indifferent := fun _ _ _ ht =>
  alike_condition.bind fun _ _ test => (alike_statement true).bind fun _ _ body =>
    .pure (.branch ht (.cons test (.cons body .nil)))

theorem indifferent_block : block.Indifferent := fun _ _ _ _ =>
  have item := Alike.test (alike_accept _) (.pure .done)
    ((alike_statement true).bind fun _ _ hn => .pure (.item hn))
  item.repeated.bind fun _ _ body => .pure (.branch (.refl _) body)

end Statements

theorem eachPrefix_indifferent : EachPrefix fun _ rule => rule.Indifferent where
  operand _ _ := PrefixRule.indifferent_leaf _
  specifier _ _ := PrefixRule.indifferent_leaf _
  tagged _ _ := fun _ _ _ => alike_tagged
  operator _ _ := PrefixRule.indifferent_unary _
  parentheses := indifferent_parentheses
  goto := indifferent_gotoRule
  jump _ _ := indifferent_jump
  exit := indifferent_returnRule
  otherwise := indifferent_defaultRule
  labelled := indifferent_caseRule
  choice := indifferent_ifRule
  loop := indifferent_whileRule
  block := indifferent_block

theorem eachInfix_indifferent : EachInfix fun _ rule => rule.Indifferent where
  specifier _ _ := fun _ _ _ _ _ ht hl => alike_extendSpecifiers hl ht (.leaf ht)
  tagged _ _ := fun _ _ _ _ _ ht hl => (alike_tagged ht).bind fun _ _ => alike_extendSpecifiers hl ht
  declarator := indifferent_declarator
  assignment _ _ := InfixRule.indifferent_binary _ _
  conditional := indifferent_conditional
  between _ _ _ _ := InfixRule.indifferent_binary _ _
  star := indifferent_starAfter
  step _ _ := indifferent_stepAfter
  call := indifferent_call
  index := indifferent_index
  member _ _ := indifferent_member

theorem indifferent (limit : Option Int) : (Grammar.c.parser limit).Indifferent where
  classified := Classifier.byKind_indifferent
  table :=
    { starting := fun _ _ hr => (eachPrefix_indifferent.of_lookup hr).elim fun _ h => h.2
      continuing := fun _ _ hr => (eachInfix_indifferent.of_lookup hr).elim fun _ h => h.2 }

theorem alike_program : Alike (List.Forall₂ Node.Like) program program := by
  apply Alike.repeated
  refine Alike.peek.bind fun next next' h => ?_
  cases h with
  | none => exact .pure .done
  | some _ => exact (alike_statement false).bind fun _ _ hn => .pure (.item hn)

end C

theorem Grammar.indifferent_of_mem_bundled {g : Grammar} (hg : g ∈ Grammar.bundled) (limit : Option Int) :
    (g.parser limit).Indifferent ∧ Alike (List.Forall₂ Node.Like) g.program g.program := by
  simp only [Grammar.bundled, List.mem_cons, List.not_mem_nil, or_false] at hg
  obtain rfl | rfl | rfl := hg
  · exact ⟨Arithmetic.indifferent limit, Arithmetic.alike_program⟩
  · exact ⟨Ebnf.indifferent limit, Ebnf.alike_program⟩
  · exact ⟨C.indifferent limit, C.alike_program⟩

/-- Trees that are equal as comparison sees them, or errors that are. -/
inductive SameOutcome : Except Failure (List Node) → Except Failure (List Node) → Prop
  | nodes {ns ms : List Node} (h : Node.sameAll ns ms = true) : SameOutcome (.ok ns) (.ok ms)
  | error {e e' : ParseError} (h : e.same e' = true) :
    SameOutcome (.error (.error e)) (.error (.error e'))

/-- Two texts with the same tokens but for their places are parsed to the same outcome. -/
theorem Grammar.parse_same_of_tokens {g : Grammar} (hg : g ∈ Grammar.bundled) {text other : String}
    (whole : (g.scan text).fault = none) (whole' : (g.scan other).fault = none)
    (tokens : (g.scan text).tokens.map Token.bare = (g.scan other).tokens.map Token.bare)
    (limit : Option Int) : SameOutcome (g.parse text limit) (g.parse other limit) := by
  obtain ⟨rules, program⟩ := g.indifferent_of_mem_bundled hg limit
  have abreast : (g.start text).Abreast (g.start other) := ⟨.of_tokens whole whole' tokens, rfl, rfl⟩
  obtain ⟨ends, -⟩ := rules.perform program (g.start text) (g.start other) abreast
  change ParseM.Ends _ (g.parse text limit) (g.parse other limit) at ends
  have orderly := parse_ne_defect hg text limit
  generalize g.parse text limit = x, g.parse other limit = y at ends orderly
  cases ends with
  | ok h => exact .nodes (Node.Like.sameAll (Node.Like.forall₂_iff.mp h))
  | error h => exact .error h.same
  | defect d _ => exact absurd rfl (orderly d)

theorem Grammar.parse_same_of_tokens_comment :
    Grammar.c ∈ Grammar.bundled ∧
    (Grammar.c.scan "if(a)b=1;").fault = none ∧
    (Grammar.c.scan "if (a) // then\n  b = 1;").fault = none ∧
    (Grammar.c.scan "if(a)b=1;").tokens.map Token.bare =
      (Grammar.c.scan "if (a) // then\n  b = 1;").tokens.map Token.bare ∧
    SameOutcome (Grammar.c.parse "if(a)b=1;" (some 4))
      (Grammar.c.parse "if (a) // then\n  b = 1;" (some 4)) := by
  have whole : (Grammar.c.scan "if(a)b=1;").fault = none := by decide +kernel
  have whole' : (Grammar.c.scan "if (a) // then\n  b = 1;").fault = none := by decide +kernel
  have tokens : (Grammar.c.scan "if(a)b=1;").tokens.map Token.bare =
      (Grammar.c.scan "if (a) // then\n  b = 1;").tokens.map Token.bare := by decide +kernel
  have bundled : Grammar.c ∈ Grammar.bundled :=
    List.mem_cons_of_mem _ (List.mem_cons_of_mem _ List.mem_cons_self)
  exact ⟨bundled, whole, whole', tokens, Grammar.parse_same_of_tokens bundled whole whole' tokens (some 4)⟩

end BindingPower
