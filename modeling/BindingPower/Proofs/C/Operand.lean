import BindingPower.Proofs.C.Schema

/-! Statements as operands. A statement that is read where statements belong is the left operand of no
operator; but an operand may itself start with a statement, and that one an operator does take. -/
namespace BindingPower.C
open Contract

/-- Whatever applies to the node before it, however many children it has. -/
def appliedSymbols : List CSymbol := [.dot, .arrow, .conditional, .stepped, .call, .index]

/-- What stands on the left of an operator. -/
def leftOperand? : Node → Option Node
  | .branch t (n :: rest) =>
    if among appliedSymbols t.kind || (among betweenSymbols t.kind && rest.length == 1) then some n
    else none
  | _ => none

/-- No statement is a left operand, anywhere in some trees. -/
def StatementsApart (ns : List Node) : Prop :=
  ∀ m ∈ Node.walkAll ns, ∀ n ∈ leftOperand? m, branchOf finishedSymbols n = false

instance (ns : List Node) : Decidable (StatementsApart ns) :=
  inferInstanceAs (Decidable (∀ m ∈ Node.walkAll ns, ∀ n ∈ leftOperand? m, branchOf finishedSymbols n = false))

theorem mem_walkAll {m : Node} {ns : List Node} (h : m ∈ Node.walkAll ns) : ∃ n ∈ ns, m ∈ n.walk := by
  induction ns with
  | nil => cases h
  | cons n ns ih =>
    rcases List.mem_append.mp h with h | h
    · exact ⟨n, List.mem_cons_self, h⟩
    · obtain ⟨n', hn, hm⟩ := ih h
      exact ⟨n', List.mem_cons_of_mem n hn, hm⟩

theorem eq_cons_of_leftOperand? {t : Token} {s : CSymbol} {ns : List Node} {o : Node} (ht : t.kind = .c s)
    (h : leftOperand? (.branch t ns) = some o) :
    ∃ rest, ns = o :: rest ∧ (s ∈ appliedSymbols ∨ s ∈ betweenSymbols ∧ rest.length = 1) := by
  cases ns with
  | nil => cases h
  | cons n rest =>
    rw [leftOperand?, ht] at h
    obtain ⟨cond, hn⟩ := Option.ite_none_right_eq_some.mp h
    obtain rfl := Option.some.inj hn
    refine ⟨rest, rfl, ?_⟩
    simpa only [Bool.or_eq_true, Bool.and_eq_true, among_iff, beq_iff_eq] using cond

variable {operand : Node → Prop}

/-- The schema has a demand on every left operand. -/
theorem Fits.leftOperand {t : Token} {s : CSymbol} {ns : List Node} {o : Node} (h : Fits operand s ns)
    (ht : t.kind = .c s) (ho : leftOperand? (.branch t ns) = some o) : operand o := by
  obtain ⟨rest, hns, place⟩ := eq_cons_of_leftOperand? ht ho
  have tagged : ∀ s ∈ taggedSymbols, s ∉ appliedSymbols ∧ s ∉ betweenSymbols := by decide
  have outside (hs : s ∉ appliedSymbols ∧ s ∉ betweenSymbols) : operand o :=
    (place.elim hs.1 fun h => hs.2 h.1).elim
  cases h with
  | between m _ hn => exact (List.cons.inj hns).1 ▸ hn
  | conditional yes no htest => exact (List.cons.inj hns).1 ▸ htest
  | call arguments hc => exact (List.cons.inj hns).1 ▸ hc
  | index position hn => exact (List.cons.inj hns).1 ▸ hn
  | member _ hn _ => exact (List.cons.inj hns).1 ▸ hn
  | before n hs =>
    obtain rfl := (List.cons.inj hns).2
    have apart : ∀ s ∈ beforeSymbols, s ∉ appliedSymbols := by decide
    exact (place.elim (apart s hs) fun h => absurd h.2 nofun).elim
  | tag hs _ => exact outside (tagged s hs)
  | anonymous hs _ => exact outside (tagged s hs)
  | tagBody hs _ _ => exact outside (tagged s hs)
  | jump _ => cases hns
  | _ => exact outside (by decide)

theorem WellFormed.leftOperand {n : Node} (h : WellFormed operand n) :
    ∀ m ∈ n.walk, ∀ o ∈ leftOperand? m, operand o := by
  induction h with
  | leaf _ _ =>
    intro m hm o ho
    obtain rfl := List.mem_singleton.mp hm
    cases ho
  | @stepped t u s n ht hu hs hn _ ih =>
    intro m hm o ho
    rcases List.mem_cons.mp hm with rfl | hm
    · obtain ⟨rest, hns, -⟩ := eq_cons_of_leftOperand? ht ho
      exact (List.cons.inj hns).1 ▸ hn
    · rcases List.mem_append.mp hm with hm | hm
      · exact ih m hm o ho
      · obtain rfl := List.mem_singleton.mp hm
        cases ho
  | branch ht fits _ ih =>
    intro m hm o ho
    rcases List.mem_cons.mp hm with rfl | hm
    · exact fits.leftOperand ht ho
    · obtain ⟨n, hn, hm⟩ := mem_walkAll hm
      exact ih n hn m hm o ho

/-- If every statement starts where statements are read, none becomes a left operand. -/
theorem statementsApart_of_parse {text : String} {limit : Option Int} {ns : List Node}
    (h : Grammar.c.parse text limit = .ok ns)
    (hs : Event.admits mayStart (Grammar.c.run text limit).2.log = true) : StatementsApart ns := by
  have obey : ∀ n ∈ ns, WellFormed (Free true) n := wellFormed_of_admitted h hs
  intro m hm o ho
  obtain ⟨n, hn, hm⟩ := mem_walkAll hm
  exact (obey n hn).leftOperand m hm o ho rfl

theorem statementsApart_of_parse_choice :
    Event.admits mayStart (Grammar.c.run "if (a) b = 1; else break;" none).2.log = true ∧
    ∃ ns, Grammar.c.parse "if (a) b = 1; else break;" none = .ok ns ∧ StatementsApart ns := by
  have admitted : Event.admits mayStart (Grammar.c.run "if (a) b = 1; else break;" none).2.log = true := by
    decide +kernel
  have parsed : (Grammar.c.parse "if (a) b = 1; else break;" none).isOk = true := by decide +kernel
  rcases h : Grammar.c.parse "if (a) b = 1; else break;" none with e | ns
  · rw [h] at parsed
    cases parsed
  · exact ⟨admitted, ns, rfl, statementsApart_of_parse h admitted⟩

/-- In parentheses a statement is started like any operand, and the sum takes it. -/
theorem parse_extends_statement :
    Grammar.c.parse "(break; + 1)" none = .ok [.branch (.lexeme (.c .plus) "+" (some 8))
      [.branch (.lexeme (.c .kwBreak) "break" (some 1)) [],
        .leaf (.lexeme (.c .intConst) "1" (some 10))]] ∧
    ¬ StatementsApart [.branch (.lexeme (.c .plus) "+" (some 8))
      [.branch (.lexeme (.c .kwBreak) "break" (some 1)) [],
        .leaf (.lexeme (.c .intConst) "1" (some 10))]] := by
  decide +kernel

end BindingPower.C
