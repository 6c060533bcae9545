import BindingPower.Grammar.Arithmetic
import BindingPower.Grammar.Ebnf

/-! The rules of a table one by one. What holds of each rule as it is registered holds of whatever the
table answers. -/
namespace BindingPower

/-- What holds of every rule that a table answers with. -/
structure RuleTable.Each (table : RuleTable) (P : PrefixRule → Prop) (Q : InfixRule → Prop) : Prop where
  starting : ∀ kind rule, table.prefixRule? kind = some rule → P rule
  continuing : ∀ kind rule, table.infixRule? kind = some rule → Q rule

theorem Kind.exists_mem_of_lookup {α : Type 1} {kind : Kind} {entries : List (Kind × α)} {rule : α}
    (h : kind.lookup entries = some rule) : ∃ k, kind.same k = true ∧ (k, rule) ∈ entries := by
  obtain ⟨⟨k, rule⟩, found, rfl⟩ := Option.map_eq_some_iff.mp h
  have same := List.find?_some found
  exact ⟨k, same, List.mem_of_find?_eq_some found⟩

/-- Among symbols a kind has no rule but its own. -/
theorem Kind.mem_of_lookup {α : Type 1} {kind : Kind} {entries : List (Kind × α)} {rule : α}
    (symbols : ∀ e ∈ entries, e.1.isSymbol = true) (h : kind.lookup entries = some rule) : (kind, rule) ∈ entries := by
  obtain ⟨k, same, member⟩ := exists_mem_of_lookup h
  rwa [eq_of_same_symbol same (symbols _ member)]

theorem RuleTable.each_of_mem {table : RuleTable} {P : PrefixRule → Prop} {Q : InfixRule → Prop}
    (hp : ∀ x ∈ table.prefixRules, P x.2) (hi : ∀ x ∈ table.infixRules, Q x.2) : table.Each P Q where
  starting _ _ h := (Kind.exists_mem_of_lookup h).elim fun _ found => hp _ found.2
  continuing _ _ h := (Kind.exists_mem_of_lookup h).elim fun _ found => hi _ found.2

theorem Grammar.forall_mem_each {α : Type 1} {P : α → Prop} {rule : α} (h : P rule) (kinds : List Kind) :
    ∀ x ∈ Grammar.each kinds rule, P x.2 := by
  intro x hx
  obtain ⟨kind, -, rfl⟩ := List.mem_map.mp hx
  exact h

variable {P : PrefixRule → Prop} {Q : InfixRule → Prop}

theorem Arithmetic.each_rules (leaf : P (.leaf Level.root)) (parentheses : P Arithmetic.parentheses)
    (sign : P (.unary Level.third)) (sum : Q (.binary Level.first Level.first))
    (product : Q (.binary Level.second Level.second)) (power : Q (.binary Level.fourth Level.third)) :
    Arithmetic.rules.Each P Q := by
  apply RuleTable.each_of_mem
  · simp only [rules, List.forall_mem_append, List.forall_mem_cons]
    exact ⟨Grammar.forall_mem_each leaf _, parentheses, sign, List.forall_mem_nil _⟩
  · simp only [rules, List.forall_mem_append, List.forall_mem_singleton]
    exact ⟨⟨Grammar.forall_mem_each sum _, Grammar.forall_mem_each product _⟩, power⟩

theorem Ebnf.mem_of_prefixRule? {kind : Kind} {rule : PrefixRule} (h : Ebnf.rules.prefixRule? kind = some rule) :
    (kind, rule) ∈ Ebnf.rules.prefixRules :=
  Kind.mem_of_lookup (by decide) h

theorem Ebnf.mem_of_infixRule? {kind : Kind} {rule : InfixRule} (h : Ebnf.rules.infixRule? kind = some rule) :
    (kind, rule) ∈ Ebnf.rules.infixRules :=
  Kind.mem_of_lookup (by decide) h

theorem Ebnf.each_rules (leaf : P (.leaf Level.root)) (group : P ⟨Level.root, fun _ _ => Ebnf.group⟩)
    (definition : Q Ebnf.definition) (bar : Q (.binary Level.second Level.second))
    (repetition : Q Ebnf.repetition) (option : Q Ebnf.option) (juxtaposition : Q Ebnf.juxtaposition)
    (groupAfter : Q Ebnf.groupAfter) : Ebnf.rules.Each P Q := by
  apply RuleTable.each_of_mem
  · simp only [rules, List.forall_mem_append, List.forall_mem_singleton]
    exact ⟨Grammar.forall_mem_each leaf _, group⟩
  · simp only [rules, List.forall_mem_append, List.forall_mem_cons, and_assoc]
    exact ⟨definition, bar, List.forall_mem_nil _, Grammar.forall_mem_each repetition _, option,
      List.forall_mem_nil _, Grammar.forall_mem_each juxtaposition _, groupAfter, List.forall_mem_nil _⟩

end BindingPower
