import BindingPower.Grammar.C
import BindingPower.Proofs.Table

/-! The rules of the C grammar one by one. What holds of each rule for the symbols it is registered
for holds of whatever the tables answer. -/
namespace BindingPower.C

theorem mem_eachSymbol {α : Type 1} {symbols : List CSymbol} {rule rule' : α} {kind : Kind} :
    (kind, rule') ∈ eachSymbol symbols rule ↔ ∃ s ∈ symbols, kind = .c s ∧ rule' = rule := by
  simp only [eachSymbol, Grammar.each, List.mem_map, Prod.mk.injEq]
  constructor
  · rintro ⟨_, ⟨s, hs, rfl⟩, rfl, rfl⟩
    exact ⟨s, hs, rfl, rfl⟩
  · rintro ⟨s, hs, rfl, rfl⟩
    exact ⟨_, ⟨s, hs, rfl⟩, rfl, rfl⟩

/-- What holds of the rules that start expressions. -/
structure EachPrefix (P : CSymbol → PrefixRule → Prop) : Prop where
  operand : ∀ s ∈ [CSymbol.ident, .intConst, .charConst, .floatConst, .string], P s (.leaf Level.root)
  specifier : ∀ s ∈ specifierSymbols, P s (.leaf Level.root)
  tagged : ∀ s ∈ taggedSymbols, P s taggedFirst
  operator : ∀ s ∈ [CSymbol.increment, .decrement, .kwSizeof, .ampersand, .star, .plus, .minus, .tilde,
    .bang], P s (.unary Level.thirteenth)
  parentheses : P .leftParen parentheses
  goto : P .kwGoto gotoRule
  jump : ∀ s ∈ [CSymbol.kwContinue, .kwBreak], P s jump
  exit : P .kwReturn returnRule
  otherwise : P .kwDefault defaultRule
  labelled : P .kwCase caseRule
  choice : P .kwIf ifRule
  loop : P .kwWhile whileRule
  block : P .leftBrace block

/-- What holds of the rules that continue expressions. -/
structure EachInfix (P : CSymbol → InfixRule → Prop) : Prop where
  specifier : ∀ s ∈ specifierSymbols, P s specifierAfter
  tagged : ∀ s ∈ taggedSymbols, P s taggedAfter
  declarator : P .ident declarator
  assignment : ∀ s ∈ assignmentSymbols, P s (.binary Level.second Level.first)
  conditional : P .question conditional
  between : ∀ s ∈ [CSymbol.orOr, .andAnd, .bar, .caret, .ampersand, .equals, .notEquals, .less, .greater,
    .lessEq, .greaterEq, .shiftLeft, .shiftRight, .plus, .minus, .slash, .percent],
    ∀ power < Level.highest, P s (.binary power power)
  star : P .star starAfter
  step : ∀ s ∈ [CSymbol.increment, .decrement], P s stepAfter
  call : P .leftParen call
  index : P .leftBracket index
  member : ∀ s ∈ [CSymbol.dot, .arrow], P s member

theorem EachPrefix.of_lookup {P : CSymbol → PrefixRule → Prop} (h : EachPrefix P) {kind : Kind}
    {rule : PrefixRule} (hr : rules.prefixRule? kind = some rule) : ∃ s, kind = .c s ∧ P s rule := by
  have mem : (kind, rule) ∈ prefixRules := Kind.mem_of_lookup (by decide) hr
  have of_each {symbols : List CSymbol} {rule' : PrefixRule} (all : ∀ s ∈ symbols, P s rule')
      (m : (kind, rule) ∈ eachSymbol symbols rule') : ∃ s, kind = .c s ∧ P s rule := by
    obtain ⟨s, hs, hk, rfl⟩ := mem_eachSymbol.mp m
    exact ⟨s, hk, all s hs⟩
  simp only [prefixRules, List.mem_append, or_assoc] at mem
  obtain m | m | m | m | m | m | m | m | m | m | m | m | m := mem
  · exact of_each h.operand m
  · exact of_each h.specifier m
  · exact of_each h.tagged m
  · exact of_each h.operator m
  · exact of_each (List.forall_mem_singleton.mpr h.parentheses) m
  · exact of_each (List.forall_mem_singleton.mpr h.goto) m
  · exact of_each h.jump m
  · exact of_each (List.forall_mem_singleton.mpr h.exit) m
  · exact of_each (List.forall_mem_singleton.mpr h.otherwise) m
  · exact of_each (List.forall_mem_singleton.mpr h.labelled) m
  · exact of_each (List.forall_mem_singleton.mpr h.choice) m
  · exact of_each (List.forall_mem_singleton.mpr h.loop) m
  · exact of_each (List.forall_mem_singleton.mpr h.block) m

theorem EachInfix.of_lookup {P : CSymbol → InfixRule → Prop} (h : EachInfix P) {kind : Kind}
    {rule : InfixRule} (hr : rules.infixRule? kind = some rule) : ∃ s, kind = .c s ∧ P s rule := by
  have mem : (kind, rule) ∈ infixRules := Kind.mem_of_lookup (by decide) hr
  have of_each {symbols : List CSymbol} {rule' : InfixRule} (all : ∀ s ∈ symbols, P s rule')
      (m : (kind, rule) ∈ eachSymbol symbols rule') : ∃ s, kind = .c s ∧ P s rule := by
    obtain ⟨s, hs, hk, rfl⟩ := mem_eachSymbol.mp m
    exact ⟨s, hk, all s hs⟩
  have of_leftward {symbols : List CSymbol} {power : Int} (sub : symbols ⊆ [.orOr, .andAnd, .bar, .caret,
      .ampersand, .equals, .notEquals, .less, .greater, .lessEq, .greaterEq, .shiftLeft, .shiftRight, .plus,
      .minus, .slash, .percent]) (hp : power < Level.highest)
      (m : (kind, rule) ∈ leftward symbols power) : ∃ s, kind = .c s ∧ P s rule :=
    of_each (fun s hs => h.between s (sub hs) power hp) m
  unfold infixRules at mem
  simp only [List.mem_append, or_assoc] at mem
  obtain m | m | m | m | m | mem := mem
  · exact of_each h.specifier m
  · exact of_each h.tagged m
  · exact of_each (List.forall_mem_singleton.mpr h.declarator) m
  · exact of_each h.assignment m
  · exact of_each (List.forall_mem_singleton.mpr h.conditional) m
  obtain m | m | m | m | m | m | m | m | m | m | mem := mem
  case inr.inr.inr.inr.inr.inr.inr.inr.inr.inr =>
    obtain m | m | m | m | m := mem
    · exact of_each (List.forall_mem_singleton.mpr h.star) m
    · exact of_each h.step m
    · exact of_each (List.forall_mem_singleton.mpr h.call) m
    · exact of_each (List.forall_mem_singleton.mpr h.index) m
    · exact of_each h.member m
  all_goals exact of_leftward (by decide) (by decide) m

end BindingPower.C
