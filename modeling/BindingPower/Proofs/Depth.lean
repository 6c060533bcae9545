import BindingPower.Proofs.Yielding

/-! Parsers that differ in their limits on depth alone do the same until the tighter one refuses an
expression, as long as no rule goes on after the refusal of what it asked for. -/
namespace BindingPower

namespace ParseM
variable {α β : Type}

/-- How a computation ends: its result and the state after it. -/
abbrev End (α : Type) := Except Failure α × Progress

/-- Two computations that do the same, unless the first comes to one of certain ends. -/
def AgreeUnless (R : End α → Prop) (m₁ m₂ : ParseM α) : Prop :=
  ∀ s, m₁ s = m₂ s ∨ R (m₁ s)

/-- The ends from which the next computation comes to `R`. -/
def Before (f : α → ParseM β) (R : End β → Prop) : End α → Prop
  | (.ok a, s) => R (f a s)
  | (.error e, s) => R (.error e, s)

/-- The ends which, with errors caught, are in `R`. -/
def Uncaught (R : End (Outcome α) → Prop) : End α → Prop
  | (.ok a, s) => R (.ok (.ok a), s)
  | (.error (.error e), s) => R (.ok (.error e), s)
  | (.error (.defect d), s) => R (.error (.defect d), s)

namespace AgreeUnless
variable {R : End α → Prop}

theorem refl (m : ParseM α) : AgreeUnless R m m := fun _ => .inl rfl

theorem mono {m₁ m₂ : ParseM α} {R' : End α → Prop} (h : AgreeUnless R m₁ m₂)
    (hR : ∀ r, R r → R' r) : AgreeUnless R' m₁ m₂ :=
  fun s => (h s).imp_right (hR _)

theorem bind {m₁ m₂ : ParseM α} {f₁ f₂ : α → ParseM β} {R : End β → Prop}
    (hm : AgreeUnless (Before f₁ R) m₁ m₂) (hf : ∀ a, AgreeUnless R (f₁ a) (f₂ a)) :
    AgreeUnless R (m₁ >>= f₁) (m₂ >>= f₂) := by
  intro s
  rw [bind_apply, bind_apply]
  rcases hm s with same | before
  · rw [← same]
    rcases m₁ s with ⟨e | a, s'⟩
    · exact .inl rfl
    · exact hf a s'
  · right
    rcases h : m₁ s with ⟨e | a, s'⟩ <;> rw [h] at before <;> exact before

theorem outcome {m₁ m₂ : ParseM α} {R : End (Outcome α) → Prop}
    (hm : AgreeUnless (Uncaught R) m₁ m₂) : AgreeUnless R (ParseM.outcome m₁) (ParseM.outcome m₂) := by
  intro s
  unfold ParseM.outcome
  rcases hm s with same | uncaught
  · rw [same]
    exact .inl rfl
  · right
    rcases h : m₁ s with ⟨(e | d) | a, s'⟩ <;> rw [h] at uncaught <;> exact uncaught

end AgreeUnless

/-- Whether an expression was refused. -/
def Refused (s : Progress) : Prop := ∃ r, .refuse r ∈ s.log

/-- A computation under a limit on depth, beside one that the limit does not bind. -/
abbrev Curbs (limit : Int) : ParseM α → ParseM α → Prop :=
  AgreeUnless fun r => r.1 = .error (.error (.tooDeep limit)) ∧ Refused r.2

theorem Curbs.bind {limit : Int} {m₁ m₂ : ParseM α} {f₁ f₂ : α → ParseM β} (hm : Curbs limit m₁ m₂)
    (hf : ∀ a, Curbs limit (f₁ a) (f₂ a)) : Curbs limit (m₁ >>= f₁) (m₂ >>= f₂) := by
  refine AgreeUnless.bind (hm.mono ?_) hf
  rintro ⟨_, s⟩ ⟨rfl, refused⟩
  exact ⟨rfl, refused⟩

end ParseM

namespace Parser
open ParseM

/-- A parser with another limit. -/
abbrev limitedTo (p : Parser) (limit : Option Int) : Parser := { p with limit }

variable {E : ParseError → Prop} {p : Parser} {limit : Int} {other : Option Int}
  {e₁ e₂ : Int → ParseM Node}

section
variable (he : ∀ r, Curbs limit (e₁ r) (e₂ r))
include he

/-- A refused element ends a sequence and is listed as the last of it. -/
theorem curbs_elements (level : Int) (separator closing : Option Token) (times : Nat) :
    AgreeUnless (fun r => (∃ ns : List Node, r.1 = .ok (ns.map .ok ++ [.error (.tooDeep limit)])) ∧
        Refused r.2)
      (elements e₁ level separator closing times) (elements e₂ level separator closing times) := by
  induction times generalizing separator with
  | zero => exact .refl _
  | succ times ih =>
    apply (AgreeUnless.refl _).bind
    rintro (_ | _)
    · apply AgreeUnless.bind
      · apply ((he level).mono _).outcome
        rintro ⟨_, s⟩ ⟨rfl, refused⟩
        exact ⟨⟨[], rfl⟩, refused⟩
      · rintro (e | n)
        · exact .refl _
        · have more (separator : Option Token) :
              AgreeUnless (fun r => (∃ ns : List Node,
                  r.1 = .ok (ns.map .ok ++ [.error (.tooDeep limit)])) ∧ Refused r.2)
                (do return .ok n :: (← elements e₁ level separator closing times))
                (do return .ok n :: (← elements e₂ level separator closing times)) := by
            apply AgreeUnless.bind
            · apply (ih separator).mono
              rintro ⟨_, s⟩ ⟨⟨ns, rfl⟩, refused⟩
              exact ⟨⟨n :: ns, rfl⟩, refused⟩
            · exact fun _ => .refl _
          cases separator with
          | none => exact more none
          | some separator =>
            apply (AgreeUnless.refl _).bind
            rintro ((_ | _ | _ | _ | _ | _ | _) | _) <;> first | exact .refl _ | exact more _
    · exact .refl _

omit he in
theorem curbs_rounds {round₁ round₂ : ParseM Round} (h : Curbs limit round₁ round₂) (times : Nat) :
    Curbs limit (rounds round₁ times) (rounds round₂ times) := by
  induction times with
  | zero => exact .refl _
  | succ times ih =>
    apply h.bind
    rintro (_ | n | n)
    · exact .refl _
    · exact ih.bind fun _ => .refl _
    · exact .refl _

theorem curbs_answer (q : Request) :
    AgreeUnless (fun r => (∃ answer, r.1 = .ok answer ∧ Action.Failed (.tooDeep limit) q answer) ∧
        Refused r.2)
      (outcome ((p.limitedTo (some limit)).answer e₁ q)) (outcome ((p.limitedTo other).answer e₂ q)) := by
  cases q with
  | expr r =>
    apply ((he r).mono _).outcome
    rintro ⟨_, s⟩ ⟨rfl, refused⟩
    exact ⟨⟨_, rfl, rfl⟩, refused⟩
  | sequence level separator closing =>
    apply AgreeUnless.outcome
    apply (AgreeUnless.refl _).bind
    intro times
    apply (curbs_elements he level separator closing _).mono
    rintro ⟨_, s⟩ ⟨⟨ns, rfl⟩, refused⟩
    exact ⟨⟨_, rfl, .inr ⟨ns, rfl⟩⟩, refused⟩
  | peek => exact .refl _
  | binds r => exact .refl _
  | consume t => exact .refl _

variable (hE : E (.tooDeep limit))
include hE

/-- An action that yields to refusals is refused as a whole, or does the same under both limits. -/
theorem curbs_run {α : Type} {a : Action α} (ha : a.Yielding E) :
    Curbs limit ((p.limitedTo (some limit)).run e₁ a) ((p.limitedTo other).run e₂ a) := by
  induction ha with
  | give a => exact .refl _
  | fail cause => exact .refl _
  | @ask α q next _ failed ih =>
    refine AgreeUnless.bind ((curbs_answer he q).mono ?_) fun answer => ih answer
    rintro ⟨_, s⟩ ⟨⟨answer, rfl, h⟩, refused⟩
    simp only [Before, failed _ answer hE h]
    exact ⟨rfl, refused⟩
  | @gather α round next _ _ _ failed ihr ih =>
    refine AgreeUnless.bind ?_ fun items => ih items
    apply AgreeUnless.outcome
    apply AgreeUnless.mono (Curbs.bind (.refl _) fun times => curbs_rounds ihr (times + 1))
    rintro ⟨_, s⟩ ⟨rfl, refused⟩
    simp only [Uncaught, Before, failed _ hE]
    exact ⟨rfl, refused⟩

variable (hp : p.table.Yielding E)
include hp

theorem curbs_start :
    Curbs limit ((p.limitedTo (some limit)).start e₁) ((p.limitedTo other).start e₂) := by
  apply Curbs.bind (.refl _)
  intro t
  apply Curbs.bind (.refl _)
  intro kind
  apply Curbs.bind (.refl _)
  intro _
  cases h : p.table.prefixRule? kind with
  | none => exact .refl _
  | some rule =>
    exact (curbs_run he hE (hp.starting kind rule h t rule.power)).bind fun _ => .refl _

theorem curbs_extend (left : Node) :
    Curbs limit ((p.limitedTo (some limit)).extend e₁ left) ((p.limitedTo other).extend e₂ left) := by
  apply Curbs.bind (.refl _)
  intro t
  apply Curbs.bind (.refl _)
  intro kind
  cases h : p.table.infixRule? kind with
  | none => exact .refl _
  | some rule =>
    exact (curbs_run he hE (hp.continuing kind rule h t rule.right left)).bind fun _ => .refl _

theorem curbs_continued (r : Int) (bound : Nat) (left : Node) :
    Curbs limit ((p.limitedTo (some limit)).continued e₁ r bound left)
      ((p.limitedTo other).continued e₂ r bound left) := by
  induction bound generalizing left with
  | zero => exact .refl _
  | succ bound ih =>
    have look : (p.limitedTo (some limit)).binds r = (p.limitedTo other).binds r := rfl
    rw [continued, continued, look]
    apply Curbs.bind (.refl _)
    intro more
    cases more with
    | false =>
      simp only [Bool.false_eq_true, if_false]
      exact .refl _
    | true =>
      simp only [if_true]
      exact (curbs_extend he hE hp left).bind ih

end

/-- An expression that the looser limit refuses is refused by the tighter one. -/
theorem curbs_nested (ho : ∀ l ∈ other, limit ≤ l) (r : Int) {m₁ m₂ : ParseM Node}
    (h : Curbs limit m₁ m₂) :
    Curbs limit ((p.limitedTo (some limit)).nested r m₁) ((p.limitedTo other).nested r m₂) := by
  intro s
  simp only [nested, Option.any_some, Option.getD_some]
  by_cases deep : limit ≤ (s.depth : Int)
  · right
    simp only [deep, decide_true, if_true]
    exact ⟨trivial, r, List.mem_cons_self⟩
  · have free : other.any (fun l => decide (l ≤ (s.depth : Int))) = false := by
      cases other with
      | none => rfl
      | some l =>
        have above := ho l rfl
        simp only [Option.any_some, decide_eq_false_iff_not]
        omega
    simp only [deep, free, decide_false, Bool.false_eq_true, if_false]
    rcases h { s with depth := s.depth + 1, log := .enter r :: s.log } with same | ⟨error, q, refused⟩
    · exact .inl (by rw [same])
    · exact .inr ⟨error, q, List.mem_cons_of_mem _ refused⟩

variable (hE : E (.tooDeep limit)) (hp : p.table.Yielding E) (ho : ∀ l ∈ other, limit ≤ l)
include hE hp ho

theorem curbs_expr (bound : Nat) (r : Int) :
    Curbs limit ((p.limitedTo (some limit)).expr bound r) ((p.limitedTo other).expr bound r) := by
  induction bound generalizing r with
  | zero => exact curbs_nested ho r (.refl _)
  | succ bound ih =>
    apply curbs_nested ho
    apply Curbs.bind (.refl _)
    rintro (_ | t)
    · exact .refl _
    · apply (curbs_start ih hE hp).bind
      intro left
      exact (curbs_continued ih hE hp r bound left).bind fun _ => .refl _

theorem curbs_perform {α : Type} {a : Action α} (ha : a.Yielding E) :
    Curbs limit ((p.limitedTo (some limit)).perform a) ((p.limitedTo other).perform a) :=
  Curbs.bind (.refl _) fun bound => curbs_run (curbs_expr hE hp ho bound) hE ha

end Parser

end BindingPower
