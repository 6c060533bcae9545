import BindingPower.Proofs.BreakOff
import BindingPower.Proofs.C.Yield
import BindingPower.Proofs.Ebnf
import BindingPower.Proofs.Places

/-! A character that is part of no token is never overlooked nor taken for the end of a text: the parse ends
in an error, and in another error than that character's only where what comes before it is wrong already. -/
namespace BindingPower

namespace Grammar
variable {g : Grammar} {text : String} {limit : Option Int}

/-- Only a text that is scanned to its end is parsed. -/
theorem fault_of_parse (hg : g = .ebnf ∨ g = .c) {ns : List Node} (h : g.parse text limit = .ok ns) :
    (g.scan text).fault = none := by
  rcases hg with rfl | rfl
  · have unlimited := Grammar.parse_unlimited (by simp [bundled]) h
    have start : (Grammar.ebnf.start text).input = ScanRule.scan Ebnf.lexemes text := rfl
    have done := (Ebnf.leads_program (ScanRule.plain_scan Ebnf.lexemes text)).holds _ start ns
    rw [← Parser.perform_eq] at done
    exact (done unlimited).1
  · have start : (Grammar.c.start text).input = ScanRule.scan C.lexemes text := rfl
    have done := (C.ensures_program limit _ (C.plain_scan text).split).holds _ start
    rw [← Parser.perform_eq] at done
    change ((Grammar.c.parser limit).perform C.program (Grammar.c.start text)).1 = _ at h
    rw [h] at done
    exact done.1.fault.symm.trans done.2.2

/-- The parse of a text that breaks off at a character beside that of one that begins with its tokens. -/
theorem behind_of_beginning {other : String} {c : String} {o : Int}
    (fault : (g.scan text).fault = some (.unexpectedCharacter c o))
    (front : (g.scan text).tokens.map Token.bare <+: (g.scan other).tokens.map Token.bare) :
    (g.start text).Behind c o (g.start other) := by
  refine ⟨?_, rfl, rfl⟩
  change (g.scan text).BreaksOff c o (g.scan other)
  generalize g.scan text = i at fault front
  generalize g.scan other = j at front
  obtain ⟨ts, _⟩ := i
  obtain ⟨us, fault'⟩ := j
  obtain rfl := fault
  obtain ⟨rest, together⟩ := front
  obtain ⟨us, vs, rfl, tokens, -⟩ := List.map_eq_append_iff.mp together.symm
  refine .intro ?_ vs fault'
  have tokens := tokens.symm
  rw [← List.forall₂_eq_eq_eq, List.forall₂_map_left_iff, List.forall₂_map_right_iff] at tokens
  exact tokens

/-- If a text breaks off at a character that is part of no token, its parse ends in the error of that
character, or in an error in which every text ends that begins with the same tokens. -/
theorem parse_of_fault (hg : g = .ebnf ∨ g = .c) {c : String} {o : Int}
    (fault : (g.scan text).fault = some (.unexpectedCharacter c o)) (limit : Option Int) :
    g.parse text limit = .error (.error (.unexpectedCharacter c o)) ∨
    ∃ e, g.parse text limit = .error (.error e) ∧
      ∀ other : String,
        (g.scan text).tokens.map Token.bare <+: (g.scan other).tokens.map Token.bare →
          ∃ e', g.parse other limit = .error (.error e') ∧ e.same e' = true := by
  have bundled : g ∈ bundled := by rcases hg with rfl | rfl <;> simp [bundled]
  obtain ⟨rules, program⟩ := g.indifferent_of_mem_bundled bundled limit
  obtain ⟨yielding, yieldingProgram⟩ := g.yielding_of_mem_bundled (E := (· ≠ .incomplete)) bundled
  rcases h : g.parse text limit with (e | d) | ns
  · by_cases broken : e = .unexpectedCharacter c o
    · exact .inl (by rw [broken])
    · refine .inr ⟨e, rfl, fun other front => ?_⟩
      have follows := rules.follows_perform (n := (g.start text).room) (c := c) (o := o) (by simp)
        yielding program (yieldingProgram (by simp))
      rcases follows _ _ (Nat.le_refl _) (behind_of_beginning fault front) with lost | ⟨ends, -, -⟩
      · cases h.symm.trans lost
        exact absurd rfl broken
      · change ParseM.Ends _ (g.parse text limit) (g.parse other limit) at ends
        rw [h] at ends
        generalize g.parse other limit = x at ends
        cases ends with
        | error like => exact ⟨_, rfl, like.same⟩
  · exact absurd h (parse_ne_defect bundled text limit d)
  · cases fault.symm.trans (fault_of_parse hg h)

/-- A condition without its parenthesis is wrong before the character at which the text breaks off. -/
theorem parse_of_fault_condition :
    (Grammar.c.scan "if x $").fault = some (.unexpectedCharacter "$" 5) ∧
    (Grammar.c.scan "if x $").tokens.map Token.bare <+: (Grammar.c.scan "if x; else y").tokens.map Token.bare ∧
    ∃ e e', Grammar.c.parse "if x $" (some 3) = .error (.error e) ∧
      Grammar.c.parse "if x; else y" (some 3) = .error (.error e') ∧ e.same e' = true := by
  have fault : (Grammar.c.scan "if x $").fault = some (.unexpectedCharacter "$" 5) := by decide +kernel
  have front : (Grammar.c.scan "if x $").tokens.map Token.bare <+:
      (Grammar.c.scan "if x; else y").tokens.map Token.bare := by decide +kernel
  have other : Grammar.c.parse "if x $" (some 3) ≠ .error (.error (.unexpectedCharacter "$" 5)) := by
    intro h
    have code := congrArg (fun r => match r with | .error (.error e) => e.code | _ => "") h
    revert code
    decide +kernel
  obtain ⟨e, h, same⟩ := (parse_of_fault (.inr rfl) fault (some 3)).resolve_left other
  obtain ⟨e', h', like⟩ := same _ front
  exact ⟨fault, front, e, e', h, h', like⟩

end Grammar
end BindingPower
