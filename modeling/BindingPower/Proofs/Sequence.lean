import BindingPower.Proofs.Bound
import BindingPower.Proofs.Lookahead

/-! Sequences of expressions. One is read by reading its elements one after the other, with the separator
between neighbours, until something stops it; what stops it is told by the last outcome. Only before the
first element can there be an error that no outcome tells. -/
namespace BindingPower
open ParseM

namespace Parser
variable (p : Parser) (level : Int) (separator closing : Option Token)

/-- Comes to where the first element may begin. The closing token is looked for there if it may come first. -/
def Opens (s s' : Progress) : Prop :=
  match separator, closing with
  | none, some _ => ∃ t, p.perform .peek s = (.ok t, s')
  | _, _ => s' = s

/-- Comes from the end of an element to where the next may begin. -/
def Due (before : List Node) (s s' : Progress) : Prop :=
  match separator, before with
  | some sep, _ :: _ => p.perform (.consume sep) s = (.ok (), s')
  | _, _ => s' = s

/-- Reads nodes one after the other, each where it is due. -/
inductive Elements (s : Progress) : List Node → Progress → Prop
  | none : Elements s [] s
  | next {ns : List Node} {n : Node} {s₁ s₂ s₃ : Progress} (before : Elements s ns s₁)
    (due : p.Due separator ns s₁ s₂) (read : p.perform (.expr level) s₂ = (.ok n, s₃)) :
    Elements s (ns ++ [n]) s₃

/-- The error that the outcomes of a sequence tell of the one that stops it. The end of the input is none
where no closing token is due. -/
def told (e : ParseError) : Option ParseError :=
  if e = .incomplete ∧ closing = none then none else some e

/-- What stops a sequence after some of its elements: the closing token, an error instead of an element, or
another token, or none, in the place of a separator. -/
inductive Stops (ns : List Node) (s : Progress) : Option ParseError → Progress → Prop
  | closed {c : Token} {s' : Progress} (due : closing = some c) (first : ns = [] → separator = none)
    (taken : p.perform (.consume c) s = (.ok (), s')) : Stops ns s none s'
  | element {e : ParseError} {s₁ s' : Progress} (due : p.Due separator ns s s₁)
    (failed : p.perform (.expr level) s₁ = (.error (.error e), s')) : Stops ns s (told closing e) s'
  | separator {sep : Token} {e : ParseError} {s' : Progress} (due : separator = some sep) (after : ns ≠ [])
    (failed : p.perform (.consume sep) s = (.error (.error e), s'))
    (other : ∀ c ∈ closing, ∀ t, e = .consumeFailed sep t → t.same c = false) :
    Stops ns s (told closing e) s'

/-- The outcomes after those of certain nodes tell of the elements after them and of what stops the
sequence, unless a rule has a defect. -/
inductive Reports (s : Progress) (ns : List Node) : Except Failure (List (Outcome Node)) × Progress → Prop
  | defect (d : Defect) (s' : Progress) : Reports s ns (.error (.defect d), s')
  | outcomes {ms : List Node} {last : Option ParseError} {s₁ s' : Progress}
    (read : p.Elements level separator s (ns ++ ms) s₁)
    (stops : p.Stops level separator closing (ns ++ ms) s₁ last s') :
    Reports s ns (.ok (ms.map .ok ++ last.toList.map .error), s')

section
variable {p level separator closing} {s s₀ s₁ s₂ : Progress} {ns : List Node} {n : Node}

theorem ending_eq (e : ParseError) : ending closing e = (told closing e).toList.map .error := by
  cases e <;> cases closing <;> rfl

theorem told_eq_none {e : ParseError} (h : told closing e = none) : e = .incomplete ∧ closing = none := by
  simpa [told] using h

theorem told_eq_some {e e' : ParseError} (h : told closing e = some e') :
    e = e' ∧ (e = .incomplete → closing.isSome) := by
  unfold told at h
  split at h
  · cases h
  · rename_i listed
    exact ⟨Option.some.inj h, fun early => Option.isSome_iff_ne_none.mpr fun open_ => listed ⟨early, open_⟩⟩

namespace Reports

theorem stop {last : Option ParseError} {s' : Progress} (read : p.Elements level separator s ns s₁)
    (stops : p.Stops level separator closing ns s₁ last s') :
    p.Reports level separator closing s ns (.ok (last.toList.map .error), s') :=
  .outcomes (by rwa [List.append_nil]) (by rwa [List.append_nil])

/-- A node is reported before those after it. -/
theorem cons {m : ParseM (List (Outcome Node))} {s' : Progress}
    (h : p.Reports level separator closing s (ns ++ [n]) (m s')) :
    p.Reports level separator closing s ns ((do return (.ok n : Outcome Node) :: (← m)) s') := by
  rw [bind_apply]
  rcases hm : m s' with ⟨f | outcomes, t⟩ <;> rw [hm] at h
  · cases h
    exact .defect _ _
  · cases h with
    | @outcomes ms last after _ read stops =>
      rw [List.append_assoc] at read stops
      exact .outcomes read stops

/-- The last node is reported before what stops the sequence. -/
theorem cons_stop {last : Option ParseError} {s' : Progress}
    (read : p.Elements level separator s (ns ++ [n]) s₁)
    (stops : p.Stops level separator closing (ns ++ [n]) s₁ last s') :
    p.Reports level separator closing s ns (.ok (.ok n :: last.toList.map .error), s') := by
  change p.Reports level separator closing s ns (.ok ([n].map .ok ++ last.toList.map .error), s')
  exact .outcomes read stops

end Reports

theorem closes_cases (looked : separator = none → closing.isSome → s.Looked) :
    closes separator closing s = (.ok false, s) ∨
    ∃ c t s', separator = none ∧ closing = some c ∧ closes separator closing s = (.ok true, s) ∧
      advance s = (.ok t, s') ∧ p.perform (.consume c) s = (.ok (), s') := by
  rcases separator with _ | sep <;> rcases closing with _ | c
  · exact .inl rfl
  · rw [closes, at?, bind_apply]
    rcases (looked rfl rfl).consume with ⟨shown, -⟩ | ⟨t, s', shown, taken, consumed⟩
    · rw [shown]
      exact .inl rfl
    · rw [shown]
      dsimp only
      rw [Option.any_some]
      by_cases same : t.same c = true
      · refine .inr ⟨c, t, s', rfl, rfl, by rw [same]; rfl, taken, ?_⟩
        rw [perform_consume, consumed, if_pos same]
      · rw [Bool.not_eq_true] at same
        exact .inl (by rw [same]; rfl)
  · exact .inl rfl
  · exact .inl rfl

/-- Going on with a sequence reports what follows. -/
theorem reports_elements {times : Nat} (before : p.Elements level separator s ns s₁)
    (due : p.Due separator ns s₁ s₂) (looked : separator = none → closing.isSome → s₂.Looked)
    (enough : s₂.room < times) :
    p.Reports level separator closing s ns
      (elements p.reading level separator closing times s₂) := by
  induction times generalizing ns s₁ s₂ with
  | zero => exact absurd enough (Nat.not_lt_zero _)
  | succ times ih =>
    rw [elements, bind_apply]
    rcases closes_cases looked with goes | ⟨c, t, s', hs, hc, closed, taken, consumed⟩
    · rw [goes]
      dsimp only
      rw [if_neg Bool.false_ne_true, bind_apply, outcome]
      rcases read : p.reading level s₂ with ⟨(e | d) | n, s₃⟩
      · dsimp only
        rw [ending_eq]
        exact .stop before (.element due (by rw [perform_expr, read]))
      · exact .defect d _
      · have shown : s₃.Looked := looked_of_expr read
        have less := room_reading_lt (congrArg Prod.fst read)
        rw [read] at less
        dsimp only at less
        have longer : p.Elements level separator s (ns ++ [n]) s₃ :=
          .next before due (by rw [perform_expr, read])
        cases separator with
        | none => exact .cons (ih longer (by cases ns <;> rfl) (fun _ _ => shown) (by omega))
        | some sep =>
          have after : ns ++ [n] ≠ [] := by simp
          have tried := congrFun (p.perform_consume sep) s₃
          dsimp only
          rw [bind_apply, outcome]
          -- An element ends with a look at the next token, so only the end of the input or what that token
          -- is can keep the separator from being taken.
          rcases shown.separator_cases sep closing with
            ⟨t, s₄, found, taken⟩ | ⟨c, t, s₄, rfl, found, same, taken, closed⟩ | ⟨e, found, other⟩ <;>
            rw [found] at tried ⊢
          · have fewer := room_lt_of_advance taken
            refine .cons (ih longer ?_ (by rintro ⟨⟩) (by omega))
            obtain ⟨m, ms, hns⟩ := List.exists_cons_of_ne_nil after
            rw [hns, Due, tried]
          · dsimp only
            rw [Option.any_some, if_pos same, bind_apply, taken]
            refine .cons_stop longer (.closed rfl (fun none => absurd none after) ?_)
            rw [perform_consume, closed]
          · rcases other with rfl | ⟨t, rfl, apart⟩
            · dsimp only
              rw [ending_eq]
              exact .cons_stop longer (.separator rfl after tried (by rintro _ _ _ ⟨⟩))
            · have stays : ¬closing.any t.same = true := by
                rw [Option.any_eq_true]
                rintro ⟨c, hc, same⟩
                rw [apart c hc] at same
                cases same
              dsimp only
              rw [if_neg stays]
              refine .cons_stop longer (.separator rfl after tried ?_)
              rintro c hc _ ⟨⟩
              exact apart c hc
    · subst hs hc
      obtain rfl : s₂ = s₁ := by cases ns <;> exact due
      rw [closed]
      dsimp only
      rw [if_pos rfl, bind_apply, taken]
      exact .stop before (.closed rfl (fun _ => rfl) consumed)

theorem perform_sequence (p : Parser) (level : Int) (separator closing : Option Token) (s : Progress) :
    p.perform (.sequence level separator closing) s =
      elements p.reading level separator closing (s.room + 1) s := by
  rw [perform_eq, run_sequence]
  rfl

/-- A sequence reports its elements and what stops it, unless the very first thing to come is an error and
the closing token is looked for there. -/
theorem reports_sequence (level : Int) (opens : p.Opens separator closing s s₀) :
    p.Reports level separator closing s₀ [] (p.perform (.sequence level separator closing) s) := by
  rw [perform_sequence]
  rcases separator with _ | sep <;> rcases closing with _ | c
  · rw [show s₀ = s from opens]
    exact reports_elements .none rfl nofun (Nat.lt_succ_self _)
  · obtain ⟨t, shown⟩ := opens
    rw [perform_peek] at shown
    have room := room_peek s
    rw [shown] at room
    have same : elements p.reading level none (some c) (s.room + 1) s =
        elements p.reading level none (some c) (s.room + 1) s₀ := by
      rw [elements, bind_apply, bind_apply, closes, at?, bind_apply, bind_apply, shown, peek_of_peek shown]
    rw [same]
    exact reports_elements .none rfl (fun _ _ => ⟨t, lexer_of_peek shown⟩) (by dsimp only at room; omega)
  all_goals
    rw [show s₀ = s from opens]
    exact reports_elements .none rfl nofun (Nat.lt_succ_self _)

theorem opens_or_raises (p : Parser) (separator closing : Option Token) (s : Progress) :
    (∃ c e, separator = none ∧ closing = some c ∧ s.input = ⟨[], some e⟩) ∨
      ∃ s₀, p.Opens separator closing s s₀ := by
  rcases separator with _ | sep <;> rcases closing with _ | c
  · exact .inr ⟨s, rfl⟩
  · have met := (peek_eq s).1
    rcases hp : peek s with ⟨f | t, s₀⟩
    · rw [hp] at met
      rcases hi : s.input with ⟨_ | ⟨u, us⟩, _ | e⟩ <;> rw [hi] at met <;> cases met
      exact .inl ⟨c, e, rfl, rfl, rfl⟩
    · refine .inr ⟨s₀, t, ?_⟩
      rw [perform_peek, hp]
  all_goals exact .inr ⟨s, rfl⟩

theorem sequence_raises (p : Parser) (level : Int) (c : Token) {e : ParseError} (h : s.input = ⟨[], some e⟩) :
    (p.perform (.sequence level none (some c)) s).1 = .error (.error e) := by
  have met := (peek_eq s).1
  rw [h] at met
  rw [perform_sequence, elements, bind_apply, closes, at?, bind_apply]
  rcases hp : peek s with ⟨f | t, s'⟩ <;> rw [hp] at met <;> cases met
  rfl

theorem onto_of_perform {α : Type} {a : Action α} {r : Except Failure α} (h : p.perform a s = (r, s₁)) :
    Onto s s₁ := by
  have moves := (pervasive_onto p).perform a s
  rwa [h] at moves

theorem Due.onto (h : p.Due separator ns s s₁) : Onto s s₁ := by
  rcases separator with _ | sep <;> rcases ns with _ | ⟨n, ns⟩
  all_goals first | exact h ▸ .refl s | exact onto_of_perform h

namespace Elements
variable (h : p.Elements level separator s ns s₁)
include h

theorem onto : Onto s s₁ := by
  induction h with
  | none => exact .refl s
  | next _ due read ih => exact ih.trans (due.onto.trans (onto_of_perform read))

theorem looked (some : ns ≠ []) : s₁.Looked := by
  cases h with
  | none => exact absurd rfl some
  | next _ _ read =>
    rw [perform_expr] at read
    exact looked_of_expr read

end Elements

end
end Parser
end BindingPower
