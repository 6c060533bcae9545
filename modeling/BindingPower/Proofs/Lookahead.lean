import BindingPower.Proofs.Course

/-! What a parser has looked at. A token that has been shown is there to be taken, looking again shows
the same, and an expression ends with a look at what comes after it. There the lexer has no error to
tell. -/
namespace BindingPower

theorem Lexer.peek_of_peek {l l' : Lexer} {t : Option Token} (h : l.peek = (.ok t, l')) :
    l'.peek = (.ok t, l') := by
  rcases l with ⟨k, ts⟩ | ⟨_ | u, ⟨_ | ⟨v, vs⟩, _ | e⟩⟩ <;> cases h <;> rfl

/-- The lexer has shown what comes next. -/
def Progress.Looked (s : Progress) : Prop := ∃ t, s.lexer.peek = (.ok t, s.lexer)

theorem Progress.Looked.of_lexer {s s' : Progress} (h : s.Looked) (same : s'.lexer = s.lexer) :
    s'.Looked := by
  rw [Looked, same]
  exact h

namespace ParseM
variable {s s' : Progress}

theorem lexer_of_peek {t : Option Token} (h : peek s = (.ok t, s')) :
    s'.lexer.peek = (.ok t, s'.lexer) := by
  rw [peek] at h
  rcases hl : s.lexer.peek with ⟨e | u, l⟩ <;> rw [hl] at h <;> cases h
  exact Lexer.peek_of_peek hl

/-- Looking again shows the same. -/
theorem peek_of_peek {t : Option Token} (h : peek s = (.ok t, s')) : peek s' = (.ok t, s') := by
  rw [peek, lexer_of_peek h]

/-- The token that is shown is the one that is taken. -/
theorem advance_of_peek {t : Token} (h : peek s = (.ok (some t), s')) :
    ∃ s'', advance s' = (.ok t, s'') := by
  obtain ⟨shown, kept⟩ := peek_eq s
  obtain ⟨taken, -⟩ := advance_eq s'
  rw [h] at shown kept
  rw [kept] at taken
  refine ⟨(advance s').2, Prod.ext ?_ rfl⟩
  rw [taken]
  generalize s.input = i at shown
  rcases i with ⟨_ | ⟨u, us⟩, _ | e⟩
  · cases shown
  · cases shown
  all_goals cases u <;> cases shown <;> rfl

end ParseM

namespace Progress.Looked
open ParseM
variable {s : Progress}

theorem peek (h : s.Looked) : ∃ t, ParseM.peek s = (.ok t, s) := by
  obtain ⟨t, h⟩ := h
  exact ⟨t, by rw [ParseM.peek, h]⟩

/-- With nothing to come the input ends too early for any token; of a token to come, only a like one is
taken. -/
theorem consume (h : s.Looked) :
    (ParseM.peek s = (.ok none, s) ∧ ∀ c, ParseM.consume c s = (.error (.error .incomplete), s)) ∨
    ∃ t s', ParseM.peek s = (.ok (some t), s) ∧ advance s = (.ok t, s') ∧
      ∀ c, ParseM.consume c s =
        if t.same c then (.ok (), s') else (.error (.error (.consumeFailed c t)), s) := by
  obtain ⟨_ | t, shown⟩ := h.peek
  · refine .inl ⟨shown, fun c => ?_⟩
    rw [ParseM.consume, bind_apply, shown]
    rfl
  · obtain ⟨s', taken⟩ := advance_of_peek shown
    refine .inr ⟨t, s', shown, taken, fun c => ?_⟩
    rw [ParseM.consume, bind_apply, shown]
    dsimp only
    split
    · rw [bind_apply, taken]
      rfl
    · rfl

/-- After an element comes a separator, or the closing token, or what is neither. -/
theorem separator_cases (h : s.Looked) (sep : Token) (closing : Option Token) :
    (∃ t s', ParseM.consume sep s = (.ok (), s') ∧ advance s = (.ok t, s')) ∨
    (∃ c t s', closing = some c ∧ ParseM.consume sep s = (.error (.error (.consumeFailed sep t)), s) ∧
      t.same c = true ∧ advance s = (.ok t, s') ∧ ParseM.consume c s = (.ok (), s')) ∨
    ∃ e, ParseM.consume sep s = (.error (.error e), s) ∧
      (e = .incomplete ∨ ∃ t, e = .consumeFailed sep t ∧ ∀ c ∈ closing, t.same c = false) := by
  rcases h.consume with ⟨-, found⟩ | ⟨t, s', -, taken, found⟩
  · exact .inr (.inr ⟨_, found sep, .inl rfl⟩)
  · by_cases same : t.same sep = true
    · exact .inl ⟨t, s', by rw [found, if_pos same], taken⟩
    · have failed : ParseM.consume sep s = (.error (.error (.consumeFailed sep t)), s) := by
        rw [found, if_neg same]
      by_cases last : ∃ c ∈ closing, t.same c = true
      · obtain ⟨c, hc, last⟩ := last
        exact .inr (.inl ⟨c, t, s', hc, failed, last, taken, by rw [found, if_pos last]⟩)
      · exact .inr (.inr ⟨_, failed, .inr ⟨t, rfl, fun c hc => by simpa using fun h => last ⟨c, hc, h⟩⟩⟩)

end Progress.Looked

namespace Parser
open ParseM
variable {p : Parser} {e : Int → ParseM Node} {r : Int} {s s' : Progress}

theorem lexer_kindOf (p : Parser) (t : Token) (s : Progress) : (p.kindOf t s).2.lexer = s.lexer := by
  unfold kindOf
  split <;> rfl

theorem looked_of_binds {more : Bool} (h : p.binds r s = (.ok more, s')) : s'.Looked := by
  rw [binds, bind_apply] at h
  rcases hp : peek s with ⟨c | _ | t, s₁⟩ <;> rw [hp] at h
  · cases h
  · cases h
    exact ⟨_, lexer_of_peek hp⟩
  · have same := p.lexer_kindOf t s₁
    dsimp only at h
    rw [bind_apply] at h
    rcases hk : p.kindOf t s₁ with ⟨d | kind, s₂⟩ <;> rw [hk] at h same
    · cases h
    · have looked : s₂.Looked := Progress.Looked.of_lexer ⟨_, lexer_of_peek hp⟩ same
      dsimp only at h
      cases hr : p.table.infixRule? kind <;> rw [hr] at h <;> cases h <;> exact looked

/-- No infix rule is found to take an expression before the next token has been looked at. -/
theorem looked_of_continued {bound : Nat} {left n : Node}
    (h : p.continued e r bound left s = (.ok n, s')) : s'.Looked := by
  induction bound generalizing left s with
  | zero =>
    rw [continued, bind_apply] at h
    rcases hb : p.binds r s with ⟨c | more, s₁⟩ <;> rw [hb] at h <;> cases h
    exact looked_of_binds hb
  | succ bound ih =>
    rw [continued, bind_apply] at h
    rcases hb : p.binds r s with ⟨c | _ | _, s₁⟩ <;> rw [hb] at h
    · cases h
    · cases h
      exact looked_of_binds hb
    · dsimp only at h
      rw [if_pos rfl, bind_apply] at h
      rcases he : p.extend e left s₁ with ⟨c | left, s₂⟩ <;> rw [he] at h
      · cases h
      · exact ih h

theorem looked_of_expr {bound : Nat} {n : Node} (h : p.expr bound r s = (.ok n, s')) : s'.Looked := by
  cases bound with
  | zero =>
    rw [expr, nested] at h
    split at h
    · cases h
    · rw [bind_apply] at h
      rcases hp : peek { s with depth := s.depth + 1, log := .enter r :: s.log } with ⟨c | t, s₁⟩ <;>
        rw [hp] at h <;> cases h
  | succ bound =>
    rw [expr, nested] at h
    split at h
    · cases h
    · rw [bind_apply] at h
      rcases hp : peek { s with depth := s.depth + 1, log := .enter r :: s.log } with ⟨c | _ | t, s₁⟩ <;>
        rw [hp] at h
      · cases h
      · cases h
      · dsimp only at h
        rw [bind_apply] at h
        rcases hs : p.start (p.expr bound) s₁ with ⟨c | left, s₂⟩ <;> rw [hs] at h
        · cases h
        · dsimp only at h
          rw [bind_apply] at h
          rcases hc : p.continued (p.expr bound) r bound left s₂ with ⟨c | m, s₃⟩ <;> rw [hc] at h <;>
            cases h
          exact (looked_of_continued hc).of_lexer rfl

end Parser
end BindingPower
