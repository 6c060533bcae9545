import BindingPower.Proofs.Course

/-! What a parser does not see. Where two states differ in nothing that a single step of the parser
depends on, whole expressions come to the same from both. -/
namespace BindingPower

namespace ParseM
variable {α β : Type} {R : Progress → Progress → Prop}

/-- Two computations that answer the same from states in a relation, and leave such states. -/
def Matching (R : Progress → Progress → Prop) (m m' : ParseM α) : Prop :=
  ∀ s s', R s s' → (m s).1 = (m' s').1 ∧ R (m s).2 (m' s').2

theorem Matching.bind {m m' : ParseM α} {f f' : α → ParseM β} (hm : Matching R m m')
    (hf : ∀ a, Matching R (f a) (f' a)) : Matching R (m >>= f) (m' >>= f') := by
  intro s s' hs
  obtain ⟨same, after⟩ := hm s s' hs
  rw [bind_apply, bind_apply]
  rcases h : m s with ⟨x, t⟩
  rcases h' : m' s' with ⟨y, t'⟩
  rw [h, h'] at same after
  obtain rfl : x = y := same
  cases x with
  | error e => exact ⟨rfl, after⟩
  | ok a => exact hf a t t' after

/-- A computation to which states in the relation make no difference. -/
def Across (R : Progress → Progress → Prop) (m : ParseM α) : Prop := Matching R m m

theorem Across.outcome {m : ParseM α} (hm : Across R m) : Across R (ParseM.outcome m) := by
  intro s s' hs
  obtain ⟨same, after⟩ := hm s s' hs
  unfold ParseM.outcome
  rcases h : m s with ⟨x, t⟩
  rcases h' : m s' with ⟨y, t'⟩
  rw [h, h'] at same after
  obtain rfl : x = y := same
  rcases x with (e | d) | a <;> exact ⟨rfl, after⟩

end ParseM

namespace Parser
open ParseM

/-- States in the relation differ in nothing that a parser sees, and go on to do so. -/
structure Unseen (p : Parser) (R : Progress → Progress → Prop) : Prop where
  input : ∀ {s s'}, R s s' → s.input = s'.input
  kind : ∀ {s s'}, R s s' → ∀ t, p.classifier s.classified t = p.classifier s'.classified t
  full : ∀ {s s'}, R s s' → (p.limit.any fun limit => limit ≤ (s.depth : Int)) =
    p.limit.any fun limit => limit ≤ (s'.depth : Int)
  lexer : ∀ {s s' : Progress}, R s s' → ∀ {l l' : Lexer}, l.input = l'.input →
    R { s with lexer := l } { s' with lexer := l' }
  classify : ∀ {s s' : Progress}, R s s' →
    R { s with classified := s.classified + 1 } { s' with classified := s'.classified + 1 }
  record : ∀ {s s' : Progress}, R s s' → ∀ e, R { s with log := e :: s.log } { s' with log := e :: s'.log }
  enter : ∀ {s s' : Progress}, R s s' → R { s with depth := s.depth + 1 } { s' with depth := s'.depth + 1 }
  leave : ∀ {s s' : Progress}, R s s' → R { s with depth := s.depth - 1 } { s' with depth := s'.depth - 1 }

namespace Unseen
variable {p : Parser} {R : Progress → Progress → Prop} (hR : p.Unseen R)
include hR

theorem room {s s' : Progress} (h : R s s') : s.room = s'.room := by
  rw [s.room_eq, s'.room_eq, hR.input h]

theorem peek : Across R ParseM.peek := by
  intro s s' h
  obtain ⟨answer, after⟩ := peek_eq s
  obtain ⟨answer', after'⟩ := peek_eq s'
  refine ⟨by rw [answer, answer', hR.input h], ?_⟩
  rw [state_peek] at after ⊢
  rw [state_peek] at after' ⊢
  exact hR.lexer h (after.trans (hR.input h ▸ after'.symm))

theorem advance : Across R ParseM.advance := by
  intro s s' h
  obtain ⟨answer, after⟩ := advance_eq s
  obtain ⟨answer', after'⟩ := advance_eq s'
  refine ⟨by rw [answer, answer', hR.input h], ?_⟩
  rw [state_advance] at after ⊢
  rw [state_advance] at after' ⊢
  exact hR.lexer h (after.trans (hR.input h ▸ after'.symm))

theorem kindOf (t : Token) : Across R (p.kindOf t) := by
  intro s s' h
  unfold Parser.kindOf
  rw [hR.kind h t]
  cases p.classifier s'.classified t with
  | error d => exact ⟨rfl, h⟩
  | ok kind => exact ⟨rfl, hR.classify h⟩

theorem nested (r : Int) {m : ParseM Node} (hm : Across R m) : Across R (p.nested r m) := by
  intro s s' h
  unfold Parser.nested
  rw [hR.full h]
  split
  · exact ⟨rfl, hR.record h _⟩
  · obtain ⟨same, after⟩ := hm _ _ (hR.enter (hR.record h (.enter r)))
    exact ⟨same, hR.leave (hR.record after .leave)⟩

theorem pervasive : p.Pervasive (Across R) where
  pure _ _ _ h := ⟨rfl, h⟩
  raise _ _ _ _ h := ⟨rfl, h⟩
  throw _ _ _ h := ⟨rfl, h⟩
  room _ _ h := ⟨congrArg Except.ok (hR.room h), h⟩
  bind hm hf := Matching.bind hm hf
  outcome := .outcome
  peek := hR.peek
  advance := hR.advance
  kindOf := hR.kindOf
  record e _ _ _ h := ⟨rfl, hR.record h e⟩
  nested := hR.nested

end Unseen
end Parser
end BindingPower
