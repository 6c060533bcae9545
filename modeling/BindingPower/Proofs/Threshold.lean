import BindingPower.Proofs.Unseen
import BindingPower.Proofs.Guards

/-! Thresholds compose. The lower of two thresholds lets through all that the higher one does, so an
expression at the lower one begins as the expression at the higher one and goes on from what that has come
to: nothing is grouped again, the rest is only added. -/
namespace BindingPower

/-- States with the same tokens to come and as many expressions open. -/
structure Progress.Even (s s' : Progress) : Prop where
  input : s.input = s'.input
  depth : s.depth = s'.depth

theorem Progress.Even.refl (s : Progress) : s.Even s := ⟨rfl, rfl⟩

theorem Progress.Even.trans {s₁ s₂ s₃ : Progress} (h : s₁.Even s₂) (h' : s₂.Even s₃) : s₁.Even s₃ :=
  ⟨h.input.trans h'.input, h.depth.trans h'.depth⟩

/-- The state in which an expression has just been opened. -/
def Progress.opened (s : Progress) (r : Int) : Progress :=
  { s with depth := s.depth + 1, log := .enter r :: s.log }

/-- Runs that come to the same and leave the same tokens to come. -/
def ParseM.Like {α : Type} (x y : Except Failure α × Progress) : Prop :=
  x.1 = y.1 ∧ x.2.input = y.2.input

namespace Parser
open ParseM
variable {p : Parser} {r r₁ r₂ : Int} {s s' : Progress}

/-- Where the kind of a token is a matter of the token alone, it does not matter how many were classified. -/
theorem unseen_even (constant : p.classifier.Constant) : p.Unseen Progress.Even where
  input h := h.input
  kind _ t := constant _ _ t
  full h := by rw [h.depth]
  lexer h _ _ same := ⟨same, h.depth⟩
  classify h := ⟨h.input, h.depth⟩
  record h _ := ⟨h.input, h.depth⟩
  enter h := ⟨h.input, congrArg (· + 1) h.depth⟩
  leave h := ⟨h.input, congrArg (· - 1) h.depth⟩

/-- Without a limit it does not matter either how many expressions are open. -/
theorem unseen_input (constant : p.classifier.Constant) (unlimited : p.limit = none) :
    p.Unseen fun s s' => s.input = s'.input where
  input h := h
  kind _ t := constant _ _ t
  full _ := by rw [unlimited]; rfl
  lexer _ _ _ same := same
  classify h := h
  record h _ := h
  enter h := h
  leave h := h

/-- Reads an expression as far as its prefix rule does. -/
def beginning (p : Parser) : ParseM Node := do
  match ← peek with
  | none => raise .incomplete
  | some _ => p.start p.reading

theorem Pervasive.beginning {P : {α : Type} → ParseM α → Prop} (hP : p.Pervasive P) : P p.beginning := by
  apply hP.bind hP.peek
  rintro (_ | t)
  · exact hP.raise _ nofun
  · exact hP.toClosed.start fun _ _ _ _ => hP.run hP.reading _

/-- The left power of the next token, if it can continue an expression at all. -/
def power? (p : Parser) : ParseM (Option Int) := do
  match ← peek with
  | none => return none
  | some t => return (p.table.infixRule? (← p.kindOf t)).map (·.left)

/-- A threshold is compared with the next token's power after all that is done to find it. -/
theorem binds_eq (p : Parser) (r : Int) :
    p.binds r = do return (← p.power?).any fun power => decide (r < power) := by
  rw [binds, power?, bind_assoc]
  congr 1
  funext next
  cases next with
  | none => rfl
  | some t =>
    simp only [bind_assoc]
    congr 1
    funext kind
    cases p.table.infixRule? kind <;> rfl

theorem even_of_peek {next : Option Token} (h : peek s = (.ok next, s')) : s.Even s' := by
  obtain ⟨answer, kept⟩ := peek_eq s
  have opened := state_peek s
  rw [h] at answer kept opened
  refine ⟨?_, (congrArg Progress.depth opened).symm⟩
  rw [kept]
  generalize s.input = i at answer
  rcases i with ⟨_ | ⟨t, ts⟩, _ | e⟩ <;> first | rfl | cases answer

/-- Finding the power takes nothing. -/
theorem even_of_power? {power : Option Int} (h : p.power? s = (.ok power, s')) : s.Even s' := by
  rw [power?, bind_apply] at h
  rcases hp : peek s with ⟨e | _ | t, s₁⟩ <;> rw [hp] at h
  · cases h
  · cases h
    exact even_of_peek hp
  · have even := even_of_peek hp
    dsimp only at h
    rw [bind_apply, kindOf] at h
    cases hk : p.classifier s₁.classified t <;> rw [hk] at h <;> cases h
    exact ⟨even.input, even.depth⟩

/-- Going on from an expression by the power of what comes next. -/
theorem extending_apply (p : Parser) (r : Int) (left : Node) (s : Progress) :
    p.extending r left s = match p.power? s with
      | (.ok power, s') =>
        if power.any fun power => decide (r < power) then
          (p.extend p.reading left >>= p.extending r) s'
        else (.ok left, s')
      | (.error e, s') => (.error e, s') := by
  rw [extending_eq, bind_apply, binds_eq, bind_apply]
  rcases p.power? s with ⟨e | power, s'⟩
  · rfl
  · change (if _ then _ else _ : ParseM Node) s' = _
    dsimp only
    split <;> rfl

/-- At the lower threshold an expression goes on as at the higher one, and then further. -/
theorem extending_split (constant : p.classifier.Constant) (h : r₁ ≤ r₂) (left : Node) :
    Matching Progress.Even (p.extending r₁ left) (p.extending r₂ left >>= p.extending r₁) := by
  intro s₀ s even
  have across := (p.unseen_even constant).pervasive.extending r₁ left s₀ s even
  suffices split : (p.extending r₁ left s).1 = ((p.extending r₂ left >>= p.extending r₁) s).1 ∧
      (p.extending r₁ left s).2.Even ((p.extending r₂ left >>= p.extending r₁) s).2 from
    ⟨across.1.trans split.1, across.2.trans split.2⟩
  clear across even
  -- By induction on the tokens to come, of which each rule takes one.
  induction hn : s.room using Nat.strongRecOn generalizing left s with
  | ind n ih =>
    have low := p.extending_apply r₁ left s
    rw [bind_apply, low, p.extending_apply r₂ left s]
    rcases hp : p.power? s with ⟨e | power, s'⟩
    · exact ⟨rfl, .refl _⟩
    · have unmoved := even_of_power? hp
      dsimp only
      by_cases above : (power.any fun power => decide (r₂ < power)) = true
      · have above' : (power.any fun power => decide (r₁ < power)) = true := by
          cases power with
          | none => cases above
          | some power =>
            have : r₂ < power := of_decide_eq_true above
            exact decide_eq_true (by omega)
        rw [if_pos above, if_pos above', bind_apply, bind_apply]
        rcases hx : p.extend p.reading left s' with ⟨e | m, s''⟩
        · exact ⟨rfl, .refl _⟩
        · have fewer : s''.room < n := by
            rw [← hn, s.room_eq, unmoved.input, ← s'.room_eq]
            exact room_lt_of_extend hx
          have later := ih s''.room fewer m s'' rfl
          rw [bind_apply] at later
          exact later
      · -- Here the higher threshold stops, and the lower one looks again at the same token.
        have again := (p.unseen_even constant).pervasive.extending r₁ left s s' unmoved
        rw [if_neg above]
        rw [low, hp] at again
        exact again

/-- Goes on from what an expression has come to, which counts as open meanwhile. -/
def resuming (p : Parser) (r : Int) (left : Node) : ParseM Node := fun s =>
  let (x, s) := p.extending r left { s with depth := s.depth + 1 }
  (x, { s with depth := s.depth - 1 })

/-- At the limit no expression is opened. -/
theorem reading_of_full (full : (p.limit.any fun limit => limit ≤ (s.depth : Int)) = true) (r : Int) :
    p.reading r s =
      (.error (.error (.tooDeep (p.limit.getD 0))), { s with log := .refuse r :: s.log }) := by
  rw [reading_eq, nested, if_pos full]

/-- Below the limit an expression is opened, begun, extended and closed. -/
theorem reading_of_open (full : ¬(p.limit.any fun limit => limit ≤ (s.depth : Int)) = true) (r : Int) :
    let x := (p.beginning >>= p.extending r) (s.opened r)
    ∃ log, p.reading r s = (x.1, { x.2 with depth := x.2.depth - 1, log }) := by
  dsimp only
  rw [reading_eq, nested, if_neg full, beginning, bind_assoc, bind_apply, bind_apply, ← Progress.opened]
  rcases peek (s.opened r) with ⟨e | _ | t, s₁⟩
  · exact ⟨_, rfl⟩
  · exact ⟨_, rfl⟩
  · dsimp only
    rw [bind_apply, bind_apply]
    rcases p.start p.reading s₁ with ⟨e | left, s₂⟩
    · exact ⟨_, rfl⟩
    · dsimp only
      rw [bind_apply]
      rcases p.extending r left s₂ with ⟨e | n, s₃⟩ <;> exact ⟨_, rfl⟩

/-- An expression at the lower threshold is the one at the higher threshold and what it goes on to. -/
theorem reading_split (constant : p.classifier.Constant) (h : r₁ ≤ r₂) (s : Progress) :
    Like (p.reading r₁ s) ((p.reading r₂ >>= p.resuming r₁) s) := by
  have hR := p.unseen_even constant
  rw [bind_apply]
  by_cases full : (p.limit.any fun limit => limit ≤ (s.depth : Int)) = true
  · rw [reading_of_full full, reading_of_full full]
    exact ⟨rfl, rfl⟩
  · have split : Matching Progress.Even (p.beginning >>= p.extending r₁)
        ((p.beginning >>= p.extending r₂) >>= p.extending r₁) := by
      rw [bind_assoc]
      exact Matching.bind hR.pervasive.beginning (extending_split constant h)
    obtain ⟨same, even⟩ := split (s.opened r₁) (s.opened r₂) ⟨rfl, rfl⟩
    have kept := p.respects_depth.pervasive.bind p.respects_depth.pervasive.beginning
      (p.respects_depth.pervasive.extending r₂) (s.opened r₂)
    obtain ⟨log₁, low⟩ := reading_of_open full r₁
    obtain ⟨log₂, high⟩ := reading_of_open full r₂
    rw [bind_apply (p.beginning >>= p.extending r₂)] at same even
    rw [low, high]
    rcases hx : (p.beginning >>= p.extending r₂) (s.opened r₂) with ⟨e | n, u⟩ <;>
      rw [hx] at same even kept
    · exact ⟨same, even.input⟩
    · -- Closed and opened again, the expression is as deep as it was.
      replace kept : u.depth = s.depth + 1 := kept
      have reopened : u.Even { u with depth := u.depth - 1 + 1, log := log₂ } :=
        ⟨rfl, by dsimp only; omega⟩
      obtain ⟨same', even'⟩ := hR.pervasive.extending r₁ n u _ reopened
      exact ⟨same.trans same', even.input.trans even'.input⟩

/-- Without a limit it makes no difference whether the expression counts as open. -/
theorem resuming_like (constant : p.classifier.Constant) (unlimited : p.limit = none) (r : Int) (left : Node)
    (s : Progress) : Like (p.resuming r left s) (p.extending r left s) :=
  (unseen_input constant unlimited).pervasive.extending r left { s with depth := s.depth + 1 } s rfl

end Parser

open ParseM

/-- To read an expression at a threshold is to read it at a higher one and, if that succeeds, to let infix
rules go on from it at the lower one. With a limit the expression counts as open while they do; without one
that makes no difference. What is left at the lower threshold is an end of what is left at the higher one. -/
theorem thresholds_compose {p : Parser} (constant : p.classifier.Constant) {r₁ r₂ : Int} (h : r₁ ≤ r₂)
    (s : Progress) :
    Like (p.perform (.expr r₁) s) ((p.perform (.expr r₂) >>= p.resuming r₁) s) ∧
      (p.limit = none →
        Like (p.perform (.expr r₁) s) ((p.perform (.expr r₂) >>= p.extending r₁) s)) ∧
      ∀ left s₂, p.perform (.expr r₂) s = (.ok left, s₂) →
        (p.perform (.expr r₁) s).2.input.tokens <:+ s₂.input.tokens := by
  rw [p.perform_expr, p.perform_expr]
  have split := Parser.reading_split constant h s
  refine ⟨split, fun unlimited => ?_, fun left s₂ read => ?_⟩
  · rw [bind_apply] at split ⊢
    rcases hx : p.reading r₂ s with ⟨e | left, s₂⟩ <;> rw [hx] at split
    · exact split
    · have same := Parser.resuming_like constant unlimited r₁ left s₂
      exact ⟨split.1.trans same.1, split.2.trans same.2⟩
  · rw [bind_apply, read] at split
    rw [split.2]
    exact (p.pervasive_onto.extending r₁ left { s₂ with depth := s₂.depth + 1 }).tokens

/-- A product, and the sum that it begins. -/
theorem thresholds_compose_sum :
    let p := Grammar.arithmetic.parser none
    let s := Grammar.arithmetic.start "a*b+c"
    let word (text : String) : Token := .word text
    let leaf (text : String) : Node := .leaf (word text)
    let product : Node := .branch (word "*") [leaf "a", leaf "b"]
    p.classifier.Constant ∧ Level.root ≤ Level.first ∧
      (p.perform (.expr Level.root) s).1.toOption = some (.branch (word "+") [product, leaf "c"]) ∧
      Like (p.perform (.expr Level.root) s) ((p.perform (.expr Level.first) >>= p.extending Level.root) s) ∧
      ∃ s₂, p.perform (.expr Level.first) s = (.ok product, s₂) ∧
        s₂.input = ⟨[word "+", word "c"], none⟩ ∧
        (p.perform (.expr Level.root) s).2.input.tokens <:+ s₂.input.tokens := by
  intro p s word leaf product
  have constant : p.classifier.Constant := Classifier.byText_constant
  have read : ((p.perform (.expr Level.first) s).1.toOption, (p.perform (.expr Level.first) s).2.input) =
      (some product, ⟨[word "+", word "c"], none⟩) := by decide +kernel
  have whole : (p.perform (.expr Level.root) s).1.toOption =
      some (.branch (word "+") [product, leaf "c"]) := by decide +kernel
  obtain ⟨-, composed, further⟩ := thresholds_compose constant (by decide : Level.root ≤ Level.first) s
  rcases hx : p.perform (.expr Level.first) s with ⟨_ | n, s₂⟩ <;> rw [hx] at read
  · cases read
  · obtain ⟨found, rest⟩ := Prod.mk.inj read
    obtain rfl : n = product := Option.some.inj found
    exact ⟨constant, by decide, whole, composed rfl, s₂, rfl, rest, further _ s₂ hx⟩

end BindingPower
