import BindingPower.Proofs.Course
import BindingPower.Proofs.Table

/-! Where defects come from. The engine has none of its own: a parser ends in one only if its classifier has
it for a token to come, or one of its rules for some answers to what it asks. -/
namespace BindingPower

namespace Action
variable {α β : Type} {d : Defect}

/-- An action that no answers bring to a defect. -/
def Sound (a : Action α) : Prop := ∀ d, ¬a.Breaks d

theorem Breaks.of_bind {a : Action α} {f : α → Action β} (h : (a >>= f).Breaks d) :
    a.Breaks d ∨ ∃ x, (f x).Breaks d := by
  change (a.bind f).Breaks d at h
  induction a with
  | give a => exact .inr ⟨a, h⟩
  | fail cause =>
    cases h
    exact .inl .fail
  | ask q next ih =>
    cases h with
    | ask answer h => exact (ih answer h).imp_left (.ask answer)
  | gather round next _ ih =>
    cases h with
    | round h => exact .inl (.round h)
    | gather items h => exact (ih items h).imp_left (.gather items)

namespace Sound

theorem pure (a : α) : (Pure.pure a : Action α).Sound := by
  rintro d ⟨⟩

theorem raise (e : ParseError) : (Action.raise e : Action α).Sound := by
  rintro d ⟨⟩

theorem bind {a : Action α} {f : α → Action β} (ha : a.Sound) (hf : ∀ x, (f x).Sound) :
    (a >>= f).Sound := fun d h =>
  h.of_bind.elim (ha d) fun ⟨x, h⟩ => hf x d h

/-- Whatever is asked, its error is passed on. -/
theorem asked (q : Request) : (Action.ask q ofOutcome : Action q.Answer).Sound := by
  rintro d (_ | ⟨_ | _, h⟩) <;> cases h

end Sound
end Action

namespace Parser
open ParseM
variable {p : Parser} {tokens : List Token} {d : Defect} {s s' : Progress}

/-- A defect of the classifier for one of certain tokens, or of a rule of the table. -/
inductive Breaks (p : Parser) (tokens : List Token) (d : Defect) : Prop
  | classifier {asked : Nat} {t : Token} (found : t ∈ tokens) (h : p.classifier asked t = .error d)
  | starting {kind : Kind} {rule : PrefixRule} {t : Token} (found : p.table.prefixRule? kind = some rule)
    (h : (rule.action t rule.power).Breaks d)
  | continuing {kind : Kind} {rule : InfixRule} {t : Token} {left : Node}
    (found : p.table.infixRule? kind = some rule) (h : (rule.action t rule.right left).Breaks d)

theorem Breaks.mono {older : List Token} (h : p.Breaks tokens d) (suffix : tokens <:+ older) :
    p.Breaks older d := by
  cases h with
  | classifier found h => exact .classifier (suffix.subset found) h
  | starting found h => exact .starting found h
  | continuing found h => exact .continuing found h

/-- A computation whose defects come from there, for the tokens to come. -/
structure Traces {α : Type} (p : Parser) (m : ParseM α) : Prop where
  moves : Moves Onto m
  origin : ∀ s d, (m s).1 = .error (.defect d) → p.Breaks s.input.tokens d

namespace Traces
variable {α β : Type}

theorem pure (a : α) : p.Traces (Pure.pure a) where
  moves := Onto.refl
  origin _ _ h := by cases h

theorem throw {cause : Failure} (h : ∀ d, cause = .defect d → ∀ tokens, p.Breaks tokens d) :
    p.Traces (throw cause : ParseM α) where
  moves := Onto.refl
  origin _ d same := h d (Except.error.inj same) _

theorem fails (e : ParseError) : p.Traces (MonadExcept.throw (Failure.error e) : ParseM α) :=
  throw fun _ same => Failure.noConfusion same

theorem room : p.Traces ParseM.room where
  moves := Onto.refl
  origin _ _ h := by cases h

theorem record (e : Event) (noted : e.isNote = true) : p.Traces (ParseM.record e) where
  moves := (respects_onto p).record e noted
  origin _ _ h := by cases h

theorem peek : p.Traces ParseM.peek where
  moves := Onto.peek
  origin s d h := by
    rw [(peek_eq s).1] at h
    cases hp : s.input.peek.1 <;> rw [hp] at h <;> cases h

theorem advance : p.Traces ParseM.advance where
  moves := Onto.advance
  origin s d h := by
    rw [(advance_eq s).1] at h
    cases ha : s.input.advance.1 <;> rw [ha] at h <;> cases h

theorem bind {m : ParseM α} {f : α → ParseM β} (hm : p.Traces m) (hf : ∀ a, p.Traces (f a)) :
    p.Traces (m >>= f) where
  moves := hm.moves.bind Onto.trans fun a => (hf a).moves
  origin := by
    intro s d h
    have moves := hm.moves s
    have first := hm.origin s d
    rw [bind_apply] at h
    rcases hx : m s with ⟨e | a, s₁⟩ <;> rw [hx] at h moves first
    · cases h
      exact first rfl
    · exact ((hf a).origin s₁ d h).mono moves.tokens

theorem outcome {m : ParseM α} (hm : p.Traces m) : p.Traces (ParseM.outcome m) where
  moves := hm.moves.outcome
  origin := by
    intro s d h
    have first := hm.origin s d
    rcases outcome_cases m s with ⟨d', s₁, hx, ho⟩ | ⟨a, s₁, hx, ho⟩ <;> rw [ho] at h
    · cases h
      exact first (by rw [hx])
    · cases h

/-- A token may have no kind. -/
theorem kindOf_bind {f : Kind → ParseM α} (hf : ∀ kind, p.Traces (f kind)) {t : Token} (found : t ∈ tokens)
    (left : s.input.tokens <:+ tokens) (h : ((p.kindOf t >>= f) s).1 = .error (.defect d)) :
    p.Breaks tokens d := by
  have moves := (pervasive_onto p).kindOf t s
  rw [bind_apply] at h
  rcases hx : p.kindOf t s with ⟨e | kind, s₁⟩ <;> rw [hx] at h moves
  · cases h
    unfold Parser.kindOf at hx
    split at hx <;> cases hx
    exact .classifier found ‹_›
  · exact ((hf kind).origin s₁ d h).mono (moves.tokens.trans left)

theorem binds (r : Int) : p.Traces (p.binds r) where
  moves := (pervasive_onto p).binds r
  origin := by
    intro s d h
    have moves := Onto.peek s
    have first := (peek (p := p)).origin s d
    rw [Parser.binds, bind_apply] at h
    rcases hx : ParseM.peek s with ⟨e | _ | t, s₁⟩ <;> rw [hx] at h moves first
    · cases h
      exact first rfl
    · cases h
    · refine kindOf_bind (fun kind => ?_) (List.mem_of_mem_head? (head?_of_peek hx)) moves.tokens h
      split <;> exact pure _

theorem classify {f : Token → Kind → ParseM α} (hf : ∀ t kind, p.Traces (f t kind)) :
    p.Traces (ParseM.advance >>= fun t => p.kindOf t >>= f t) where
  moves := Onto.advance.bind Onto.trans fun t =>
    Moves.bind Onto.trans ((respects_onto p).kindOf t) fun kind => (hf t kind).moves
  origin := by
    intro s d h
    have moves := Onto.advance s
    have first := (advance (p := p)).origin s d
    rw [bind_apply] at h
    rcases hx : ParseM.advance s with ⟨e | t, s₁⟩ <;> rw [hx] at h moves first
    · cases h
      exact first rfl
    · exact kindOf_bind (hf t) (List.mem_of_mem_head? (head?_of_advance hx)) moves.tokens h

theorem nested {m : ParseM Node} (hm : p.Traces m) (r : Int) : p.Traces (p.nested r m) where
  moves := (pervasive_onto p).nested r hm.moves
  origin := by
    intro s d h
    unfold Parser.nested at h
    split at h
    · cases h
    · exact hm.origin { s with depth := s.depth + 1, log := .enter r :: s.log } d h

end Traces

theorem tolerant_traces (p : Parser) : p.Tolerant p.Traces where
  pure := .pure
  raise e _ := .fails e
  fails := .fails
  room := .room
  bind := .bind
  outcome := .outcome
  peek := .peek
  advance := .advance
  binds := .binds
  classify := .classify
  record := .record
  nested r _ h := h.nested r

/-- The defects of an action on a parser. -/
theorem breaks_of_perform {α : Type} {a : Action α} (sound : a.Sound)
    (h : p.perform a s = (.error (.defect d), s')) : p.Breaks s.input.tokens d := by
  have traces (bound : Nat) (r : Int) : p.Traces (p.expr bound r) := by
    apply p.tolerant_traces.toStable.expr
    · intro e he kind rule t hr
      exact p.tolerant_traces.run he fun d h _ => .throw (by rintro _ ⟨⟩ _; exact .starting hr h)
    · intro e he kind rule t left hr
      exact p.tolerant_traces.run he fun d h _ => .throw (by rintro _ ⟨⟩ _; exact .continuing hr h)
  have whole : p.Traces (p.perform a) := p.tolerant_traces.bind p.tolerant_traces.room fun bound =>
    p.tolerant_traces.run (traces bound) fun d h => absurd h (sound d)
  exact whole.origin s d (by rw [h])

end Parser

/-- Arithmetic has no defect among words. -/
theorem Arithmetic.not_breaks {limit : Option Int} {tokens : List Token} {d : Defect}
    (words : ∀ t ∈ tokens, ∃ text, t = .word text) : ¬(Grammar.arithmetic.parser limit).Breaks tokens d := by
  have binary (left right : Int) : ∀ t n, ((InfixRule.binary left right).action t right n).Sound :=
    fun _ _ => (Action.Sound.asked _).bind fun _ => .pure _
  have parentheses : ∀ t, (parentheses.action t parentheses.power).Sound := fun _ =>
    (Action.Sound.asked _).bind fun _ => (Action.Sound.asked _).bind fun _ => .pure _
  have sign : ∀ t, ((PrefixRule.unary Level.third).action t Level.third).Sound := fun _ =>
    (Action.Sound.asked _).bind fun _ => .pure _
  have each : rules.Each (fun rule => ∀ t, (rule.action t rule.power).Sound)
      fun rule => ∀ t left, (rule.action t rule.right left).Sound :=
    each_rules (fun _ => .pure _) parentheses sign (binary _ _) (binary _ _) (binary _ _)
  rintro (⟨found, h⟩ | ⟨hr, h⟩ | ⟨hr, h⟩)
  · obtain ⟨text, rfl⟩ := words _ found
    cases h
  · exact each.starting _ _ hr _ d h
  · exact each.continuing _ _ hr _ _ d h

end BindingPower
