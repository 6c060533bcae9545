import Mathlib.Control.Monad.Basic
import BindingPower.Grammar.Bundled
import BindingPower.Proofs.Limit
import BindingPower.Proofs.Sequence

/-! Errors at a character that is part of no token. Where no rule catches one, it comes out of every
expression that meets it, and a sequence lists it last, unless the sequence meets it when it looks for its
closing token before any element. -/
namespace BindingPower
open ParseM

namespace Action

/-- Actions that let an error pass. -/
inductive Passes (e : ParseError) : {α : Type} → Action α → Prop
  | give {α : Type} (a : α) : Passes e (.give a)
  | fail {α : Type} (cause : Failure) : Passes e (.fail cause : Action α)
  | ask {α : Type} {q : Request} {next : Outcome q.Answer → Action α}
    (answered : ∀ answer, Passes e (next answer))
    (failed : ∀ answer, Failed e q answer → next answer = raise e) : Passes e (.ask q next)
  | gather {α : Type} {round : Action Round} {next : Outcome (List Node) → Action α} (each : Passes e round)
    (gathered : ∀ items, Passes e (next items)) (failed : next (.error e) = raise e) :
    Passes e (.gather round next)

theorem Yielding.passes {E : ParseError → Prop} {e : ParseError} (he : E e) {α : Type} {a : Action α}
    (h : a.Yielding E) : a.Passes e := by
  induction h with
  | give a => exact .give a
  | fail cause => exact .fail cause
  | ask answered failed ih => exact .ask ih fun answer => failed e answer he
  | gather each advances gathered failed ihr ih => exact .gather ihr ih (failed e he)

end Action

def PrefixRule.Passes (e : ParseError) (rule : PrefixRule) : Prop := ∀ t power, (rule.action t power).Passes e

def InfixRule.Passes (e : ParseError) (rule : InfixRule) : Prop :=
  ∀ t power left, (rule.action t power left).Passes e

abbrev RuleTable.Passes (e : ParseError) (table : RuleTable) : Prop :=
  table.Each (PrefixRule.Passes e) (InfixRule.Passes e)

theorem RuleTable.Yielding.passes {E : ParseError → Prop} {e : ParseError} (he : E e) {table : RuleTable}
    (h : table.Yielding E) : table.Passes e where
  starting kind rule hr t power := (h.starting kind rule hr t power).passes he
  continuing kind rule hr t power left := (h.continuing kind rule hr t power left).passes he

namespace ParseM
variable {α β : Type} {c : String} {o : Int}

/-- A computation that meets the error its input breaks off with comes to an outcome that tells of it. -/
def Surfaces (c : String) (o : Int) (told : Outcome α → Prop) (m : ParseM α) : Prop :=
  ∀ s, s.input.fault = some (.unexpectedCharacter c o) →
    (m s).2.input.fault = some (.unexpectedCharacter c o) ∨ ∃ x, told x ∧ (m s).1 = x.mapError .error

/-- A computation that ends in the error if it meets it. -/
abbrev Propagates (c : String) (o : Int) (m : ParseM α) : Prop :=
  Surfaces c o (· = .error (.unexpectedCharacter c o)) m

namespace Surfaces
variable {told : Outcome α → Prop} {told' : Outcome β → Prop}

theorem of_input {m : ParseM α} (h : ∀ s, (m s).2.input = s.input) : Surfaces c o told m :=
  fun s hs => .inl (by rw [h, hs])

theorem pure (a : α) : Surfaces c o told (Pure.pure a) := of_input fun _ => rfl

theorem raise (e : ParseError) : Surfaces c o told (ParseM.raise e) := of_input fun _ => rfl

theorem mono {told' : Outcome α → Prop} {m : ParseM α} (hm : Surfaces c o told m)
    (h : ∀ x, told x → told' x) : Surfaces c o told' m :=
  fun s hs => (hm s hs).imp_right fun ⟨x, hx, same⟩ => ⟨x, h x hx, same⟩

theorem bind {m : ParseM α} {f : α → ParseM β} (hm : Propagates c o m)
    (raised : told' (.error (.unexpectedCharacter c o))) (hf : ∀ a, Surfaces c o told' (f a)) :
    Surfaces c o told' (m >>= f) := by
  intro s hs
  have first := hm s hs
  rw [bind_apply]
  rcases hx : m s with ⟨e | a, s'⟩ <;> rw [hx] at first
  · rcases first with kept | ⟨_, rfl, same⟩
    · exact .inl kept
    · cases same
      exact .inr ⟨_, raised, rfl⟩
  · rcases first with kept | ⟨_, rfl, same⟩
    · exact hf a s' kept
    · cases same

theorem kept {m : ParseM α} (hm : Propagates c o m) {s s' : Progress} {a : α}
    (hs : s.input.fault = some (.unexpectedCharacter c o)) (h : m s = (.ok a, s')) :
    s'.input.fault = some (.unexpectedCharacter c o) := by
  have after := hm s hs
  rw [h] at after
  rcases after with kept | ⟨_, rfl, same⟩
  · exact kept
  · cases same

/-- What comes after an outcome that tells of the error has to tell of it too. -/
theorem bind_outcome {m : ParseM α} {f : Outcome α → ParseM β} (hm : Surfaces c o told m)
    (tells : ∀ x, told x → ∀ s, ∃ y, told' y ∧ (f x s).1 = y.mapError .error)
    (hf : ∀ x, Surfaces c o told' (f x)) : Surfaces c o told' (outcome m >>= f) := by
  intro s hs
  have first := hm s hs
  rw [bind_apply]
  rcases outcome_cases m s with ⟨d, s', hx, hd⟩ | ⟨x, s', hx, hd⟩ <;> rw [hd] <;> rw [hx] at first
  · rcases first with kept | ⟨x, -, same⟩
    · exact .inl kept
    · cases x <;> cases same
  · rcases first with kept | ⟨y, hears, same⟩
    · exact hf x s' kept
    · obtain rfl : x = y := by cases x <;> cases y <;> cases same <;> rfl
      exact .inr (tells x hears s')

theorem peek : Propagates c o ParseM.peek := by
  intro s hs
  obtain ⟨shown, after⟩ := peek_eq s
  rw [shown, after]
  generalize s.input = i at hs
  rcases i with ⟨_ | ⟨t, ts⟩, fault⟩ <;> cases hs
  · exact .inr ⟨_, rfl, rfl⟩
  · exact .inl rfl

theorem advance : Propagates c o ParseM.advance := by
  intro s hs
  obtain ⟨taken, after⟩ := advance_eq s
  rw [taken, after]
  generalize s.input = i at hs
  rcases i with ⟨_ | ⟨t, ts⟩, fault⟩ <;> cases hs
  · exact .inr ⟨_, rfl, rfl⟩
  · exact .inl rfl

end Surfaces
end ParseM

namespace Parser
variable {p : Parser} {c : String} {o : Int}

theorem closed_propagates (p : Parser) (c : String) (o : Int) : p.Closed (Propagates c o) where
  pure := .pure
  raise e _ := .raise e
  bind hm hf := hm.bind rfl hf
  peek := .peek
  advance := .advance
  kindOf t := .of_input fun s => by unfold kindOf; split <;> rfl
  record _ _ := .of_input fun _ => rfl
  nested r m h s hs := by
    unfold nested
    split
    · exact .inl hs
    · exact h { s with depth := s.depth + 1, log := .enter r :: s.log } hs

section
variable {e : Int → ParseM Node} (he : ∀ r, Propagates c o (e r))
include he

omit he in
private theorem surfaces_cons {level : Int} {separator closing : Option Token}
    {m : ParseM (List (Outcome Node))}
    (h : Surfaces c o (Action.Failed (.unexpectedCharacter c o) (.sequence level separator closing)) m)
    (n : Node) :
    Surfaces c o (Action.Failed (.unexpectedCharacter c o) (.sequence level separator closing))
      (do return (.ok n : Outcome Node) :: (← m)) := by
  intro s hs
  have first := h s hs
  rw [bind_apply]
  rcases hx : m s with ⟨f | outcomes, s'⟩ <;> rw [hx] at first <;>
    rcases first with kept | ⟨_, rfl | ⟨ns, rfl⟩, same⟩
  · exact .inl kept
  · cases same
    exact .inr ⟨_, .inl rfl, rfl⟩
  · cases same
  · exact .inl kept
  · cases same
  · cases same
    exact .inr ⟨_, .inr ⟨n :: ns, rfl⟩, rfl⟩

/-- A sequence lists the error last. -/
theorem surfaces_elements (p : Parser) (level : Int) (separator closing : Option Token) (times : Nat) :
    Surfaces c o (Action.Failed (.unexpectedCharacter c o) (.sequence level separator closing))
      (elements e level separator closing times) := by
  have steps := p.closed_propagates c o
  induction times with
  | zero => exact .pure _
  | succ times ih =>
    refine (steps.closes separator closing).bind (.inl rfl) ?_
    rintro (_ | _)
    · refine (he level).bind_outcome ?_ ?_
      · rintro _ rfl s
        exact ⟨.ok (ending closing (.unexpectedCharacter c o)), .inr ⟨[], rfl⟩, rfl⟩
      · rintro (f | n)
        · exact .pure _
        · cases separator with
          | none => exact surfaces_cons ih n
          | some sep =>
            refine (steps.consume sep).bind_outcome ?_ ?_
            · rintro _ rfl s
              exact ⟨_, .inl rfl, rfl⟩
            · rintro (f | _)
              · cases f with
                | incomplete => exact .pure _
                | consumeFailed expected found =>
                  dsimp only
                  split
                  · exact Surfaces.advance.bind (.inl rfl) fun _ => .pure _
                  · exact .pure _
                | _ => exact .raise _
              · exact surfaces_cons ih n
    · exact Surfaces.advance.bind (.inl rfl) fun _ => .pure _

theorem surfaces_answer (q : Request) :
    Surfaces c o (Action.Failed (.unexpectedCharacter c o) q) (p.answer e q) := by
  have steps := p.closed_propagates c o
  cases q with
  | peek => exact steps.peek
  | binds r => exact steps.binds r
  | expr r => exact he r
  | consume t => exact (steps.consume t).mono fun _ h => ⟨h, c, o, rfl⟩
  | sequence level separator closing =>
    exact Surfaces.bind (.of_input fun _ => rfl) (.inl rfl) fun _ =>
      surfaces_elements he p level separator closing _

theorem propagates_run {α : Type} {a : Action α} (ha : a.Passes (.unexpectedCharacter c o)) :
    Propagates c o (p.run e a) := by
  induction ha with
  | give a => exact .pure _
  | fail cause => exact .of_input fun _ => rfl
  | ask answered failed ih =>
    refine .bind_outcome (surfaces_answer he _) (fun x hears s => ⟨_, rfl, ?_⟩) ih
    rw [failed x hears]
    rfl
  | @gather _ round next each gathered failed ihr ih =>
    have items : Propagates c o (do rounds (p.run e round) ((← room) + 1)) :=
      Surfaces.bind (.of_input fun _ => rfl) rfl fun _ => (p.closed_propagates c o).rounds ihr _
    refine .bind_outcome items (fun x hears s => ⟨_, rfl, ?_⟩) ih
    rw [hears, failed]
    rfl

end

/-- An expression that meets the error ends in it, if the rules let it pass. -/
theorem propagates_expr (passes : p.table.Passes (.unexpectedCharacter c o)) (bound : Nat) (r : Int) :
    Propagates c o (p.expr bound r) :=
  (p.closed_propagates c o).expr
    (fun he kind rule t hr => propagates_run he (passes.starting kind rule hr t _))
    (fun he kind rule t left hr => propagates_run he (passes.continuing kind rule hr t _ left))
    bound r

/-- An element of a sequence meets an error and does not end in it: some rule has caught it. -/
def Catches (p : Parser) (level : Int) (separator closing : Option Token) (e : ParseError) (s : Progress) :
    Prop :=
  ∃ s₀ ns s₁ s₂, p.Opens separator closing s s₀ ∧ p.Elements level separator s₀ ns s₁ ∧
    p.Due separator ns s₁ s₂ ∧ s₂.input.fault = some e ∧
    (p.perform (.expr level) s₂).2.input.fault = none ∧ (p.perform (.expr level) s₂).1 ≠ .error (.error e)

section
variable {level : Int} {separator closing : Option Token} {s s₀ s₁ s' : Progress} {ns : List Node}

theorem not_catches_of_passes (passes : p.table.Passes (.unexpectedCharacter c o)) :
    ¬p.Catches level separator closing (.unexpectedCharacter c o) s := by
  rintro ⟨_, _, _, s₂, -, -, -, before, after, other⟩
  rw [perform_expr] at after other
  rcases propagates_expr passes s₂.room level s₂ before with kept | ⟨_, rfl, ends⟩
  · exact absurd (after.symm.trans kept) nofun
  · exact other ends

theorem Opens.kept (h : p.Opens separator closing s s₀)
    (hs : s.input.fault = some (.unexpectedCharacter c o)) :
    s₀.input.fault = some (.unexpectedCharacter c o) := by
  rcases separator with _ | sep <;> rcases closing with _ | t
  · rwa [show s₀ = s from h]
  · obtain ⟨next, shown⟩ := h
    rw [perform_peek] at shown
    exact Surfaces.peek.kept hs shown
  all_goals rwa [show s₀ = s from h]

theorem Due.kept (h : p.Due separator ns s s₁) (hs : s.input.fault = some (.unexpectedCharacter c o)) :
    s₁.input.fault = some (.unexpectedCharacter c o) := by
  rcases separator with _ | sep <;> rcases ns with _ | ⟨n, ns⟩
  case some.cons =>
    rw [Due, perform_consume] at h
    exact ((p.closed_propagates c o).consume sep).kept hs h
  all_goals rwa [show s₁ = s from h]

/-- Where no rule catches the error, what meets it ends in it. -/
theorem kept_or_ends (uncaught : ¬p.Catches level separator closing (.unexpectedCharacter c o) s)
    (opens : p.Opens separator closing s s₀) (read : p.Elements level separator s₀ ns s₁) {s₂ : Progress}
    (due : p.Due separator ns s₁ s₂) (hs : s₂.input.fault = some (.unexpectedCharacter c o))
    {r : Except Failure Node} (h : p.perform (.expr level) s₂ = (r, s')) :
    s'.input.fault = some (.unexpectedCharacter c o) ∨ r = .error (.error (.unexpectedCharacter c o)) := by
  cases after : s'.input.fault with
  | some e => exact .inl (hs.symm.trans ((onto_of_perform h).fault e after)).symm
  | none =>
    refine .inr (Classical.byContradiction fun other => ?_)
    exact uncaught ⟨s₀, ns, s₁, s₂, opens, read, due, hs, by rw [h, after], by rwa [h]⟩

theorem Elements.kept (uncaught : ¬p.Catches level separator closing (.unexpectedCharacter c o) s)
    (opens : p.Opens separator closing s s₀) (hs : s₀.input.fault = some (.unexpectedCharacter c o))
    (read : p.Elements level separator s₀ ns s₁) : s₁.input.fault = some (.unexpectedCharacter c o) := by
  induction read with
  | none => exact hs
  | next before due read ih =>
    rcases kept_or_ends uncaught opens before due (due.kept ih) read with kept | ends
    · exact kept
    · cases ends

theorem told_unexpectedCharacter :
    told closing (.unexpectedCharacter c o) = some (.unexpectedCharacter c o) := if_neg (nofun ∘ And.left)

/-- Until a sequence stops the error is still to come, so that what stops it is what meets the error. -/
theorem Stops.last_eq {last : Option ParseError}
    (uncaught : ¬p.Catches level separator closing (.unexpectedCharacter c o) s)
    (opens : p.Opens separator closing s s₀) (hs : s₀.input.fault = some (.unexpectedCharacter c o))
    (read : p.Elements level separator s₀ ns s₁) (stops : p.Stops level separator closing ns s₁ last s')
    (met : s'.input.fault = none) : last = some (.unexpectedCharacter c o) := by
  have before := read.kept uncaught opens hs
  cases stops with
  | closed due first taken =>
    rw [perform_consume] at taken
    exact absurd (met.symm.trans (((p.closed_propagates c o).consume _).kept before taken)) nofun
  | element due failed =>
    rcases kept_or_ends uncaught opens read due (due.kept before) failed with kept | ends
    · exact absurd (met.symm.trans kept) nofun
    · cases ends
      exact told_unexpectedCharacter
  | @separator sep _ _ due after failed other =>
    rw [perform_consume] at failed
    have ends := (p.closed_propagates c o).consume sep s₁ before
    rw [failed] at ends
    rcases ends with kept | ⟨_, rfl, ends⟩
    · exact absurd (met.symm.trans kept) nofun
    · cases ends
      exact told_unexpectedCharacter

end

/-- Reading a sequence raises an error exactly if it looks for its closing token before any element and meets
the error there. One it meets later, and no rule catches, is the last of its outcomes. -/
theorem sequence_surfaces (p : Parser) (level : Int) (separator closing : Option Token) (s : Progress) :
    (∀ e, (p.perform (.sequence level separator closing) s).1 = .error (.error e) ↔
      separator = none ∧ closing.isSome ∧ s.input = ⟨[], some e⟩) ∧
    ∀ c o outcomes s', p.perform (.sequence level separator closing) s = (.ok outcomes, s') →
      s.input.fault = some (.unexpectedCharacter c o) → s'.input.fault = none →
      p.table.Passes (.unexpectedCharacter c o) ∨
        ¬p.Catches level separator closing (.unexpectedCharacter c o) s →
      outcomes.getLast? = some (.error (.unexpectedCharacter c o)) := by
  constructor
  · intro e
    constructor
    · intro raised
      rcases p.opens_or_raises separator closing s with ⟨t, e', rfl, rfl, hi⟩ | ⟨s₀, opens⟩
      · have same := p.sequence_raises level t hi
        rw [raised] at same
        cases same
        exact ⟨rfl, rfl, hi⟩
      · have reports := reports_sequence level opens
        rcases hr : p.perform (.sequence level separator closing) s with ⟨r, s'⟩
        rw [hr] at reports raised
        cases reports <;> cases raised
    · rintro ⟨rfl, closes, hi⟩
      obtain ⟨t, rfl⟩ := Option.isSome_iff_exists.mp closes
      exact p.sequence_raises level t hi
  · intro c o outcomes s' hr hs met passes
    have uncaught := passes.elim not_catches_of_passes id
    rcases p.opens_or_raises separator closing s with ⟨t, e', rfl, rfl, hi⟩ | ⟨s₀, opens⟩
    · have raised := p.sequence_raises level t hi
      rw [hr] at raised
      cases raised
    · have reports := reports_sequence level opens
      rw [hr] at reports
      cases reports with
      | @outcomes ns last s₁ _ read stops =>
        rw [List.nil_append] at read stops
        simp [stops.last_eq uncaught opens (opens.kept hs) read met]

theorem sequence_surfaces_semicolon :
    ((Grammar.ebnf.parser none).perform (.sequence Level.root (some Ebnf.semicolon) none)
      (Grammar.ebnf.start "a ; $")).1 =
        .ok [.ok (.leaf (.lexeme (.ebnf .ident) "a" (some 0))), .error (.unexpectedCharacter "$" 4)] ∧
    (Grammar.ebnf.start "a ; $").input.fault = some (.unexpectedCharacter "$" 4) ∧
    Ebnf.rules.Passes (.unexpectedCharacter "$" 4) ∧
    [.ok (.leaf (.lexeme (.ebnf .ident) "a" (some 0))), .error (.unexpectedCharacter "$" 4)].getLast? =
      some (.error (.unexpectedCharacter "$" 4) : Outcome Node) := by
  have read : ((Grammar.ebnf.parser none).perform (.sequence Level.root (some Ebnf.semicolon) none)
      (Grammar.ebnf.start "a ; $")).1 =
        .ok [.ok (.leaf (.lexeme (.ebnf .ident) "a" (some 0))), .error (.unexpectedCharacter "$" 4)] := by
    decide +kernel
  have fault : (Grammar.ebnf.start "a ; $").input.fault = some (.unexpectedCharacter "$" 4) := by
    decide +kernel
  have passes : Ebnf.rules.Passes (.unexpectedCharacter "$" 4) :=
    RuleTable.Yielding.passes (E := fun _ => True) trivial Ebnf.yielding_rules
  have met : ((Grammar.ebnf.parser none).perform (.sequence Level.root (some Ebnf.semicolon) none)
      (Grammar.ebnf.start "a ; $")).2.input.fault = none := by decide +kernel
  refine ⟨read, fault, passes, ?_⟩
  rcases hr : (Grammar.ebnf.parser none).perform (.sequence Level.root (some Ebnf.semicolon) none)
    (Grammar.ebnf.start "a ; $") with ⟨r, s'⟩
  rw [hr] at read met
  exact (sequence_surfaces _ _ _ _ _).2 "$" 4 _ s' (hr.trans (congrArg (·, s') read)) fault met (.inl passes)

/-- A character that is part of no token, where a sequence up to a brace begins. -/
theorem sequence_raises_at_start :
    ((Grammar.c.parser none).perform (.sequence Level.root none (some CSymbol.rightBrace.token))
      (Grammar.c.start "$")).1 = .error (.error (.unexpectedCharacter "$" 0)) :=
  sequence_raises _ _ _ (by decide +kernel)

end Parser
end BindingPower
