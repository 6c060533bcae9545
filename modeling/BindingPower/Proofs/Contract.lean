import BindingPower.Proofs.Course

/-! Contracts of rules. A rule that keeps its contract makes a good node from a good left operand, or
from a token that may start an expression, as long as what it asks for is good; and if it fails, it
fails fairly. If all rules of a parser do, so do its expressions. -/
namespace BindingPower

/-- What the rules of a parser may rely on and have to make. -/
structure Contract where
  found : Token → Prop
  kindOf : Token → Kind
  /-- Whether a token of a kind may start an expression at a threshold. -/
  may : Int → Kind → Bool
  /-- The nodes that an expression at a threshold may be. -/
  good : Int → Node → Prop
  /-- The failures that a parse may end in. -/
  fair : Failure → Prop

/-- All that a round adds to its repetition. -/
def Round.All (P : Node → Prop) : Round → Prop
  | .done => True
  | .item n => P n
  | .last n => P n

namespace Contract

/-- What satisfies `Q`, or a fair error in its place. -/
def Kept (c : Contract) {α : Type} (Q : α → Prop) : Outcome α → Prop
  | .ok a => Q a
  | .error e => c.fair (.error e)

/-- The answers that a rule may rely on. -/
def Meets (c : Contract) : (q : Request) → q.Answer → Prop
  | .peek, next => ∀ t, next = some t → c.found t
  | .expr r, n => c.good r n
  | .sequence level _ _, (outcomes : List (Outcome Node)) => ∀ o ∈ outcomes, c.Kept (c.good level) o
  | _, _ => True

/-- Actions that come to what satisfies `Q`, or fail fairly. -/
inductive Gives (c : Contract) : {α : Type} → Action α → (α → Prop) → Prop
  | give {α : Type} {Q : α → Prop} {a : α} (h : Q a) : Gives c (.give a) Q
  | fail {α : Type} {Q : α → Prop} {cause : Failure} (h : c.fair cause) : Gives c (.fail cause) Q
  | ask {α : Type} {Q : α → Prop} {q : Request} {next : Outcome q.Answer → Action α}
    (answered : ∀ answer, c.Kept (c.Meets q) answer → Gives c (next answer) Q) :
    Gives c (.ask q next) Q
  | gather {α : Type} {Q : α → Prop} {P : Node → Prop} {round : Action Round}
    {next : Outcome (List Node) → Action α} (each : Gives c round (Round.All P))
    (gathered : ∀ items, c.Kept (fun ns => ∀ n ∈ ns, P n) items → Gives c (next items) Q) :
    Gives c (.gather round next) Q

namespace Gives
variable {c : Contract} {α β : Type} {Q : α → Prop} {R : β → Prop}

theorem bind {a : Action α} {f : α → Action β} (ha : c.Gives a Q) (hf : ∀ x, Q x → c.Gives (f x) R) :
    c.Gives (a >>= f) R := by
  change c.Gives (a.bind f) R
  induction ha with
  | give h => exact hf _ h
  | fail h => exact .fail h
  | ask answered ih => exact .ask fun answer h => ih answer h hf
  | gather each gathered _ ih => exact .gather each fun items h => ih items h hf

theorem pure {a : α} (h : Q a) : c.Gives (Pure.pure a) Q := .give h

theorem mono {a : Action α} {Q' : α → Prop} (ha : c.Gives a Q) (h : ∀ x, Q x → Q' x) :
    c.Gives a Q' :=
  bind_pure a ▸ ha.bind fun x hx => .give (h x hx)

theorem raise {e : ParseError} (h : c.fair (.error e)) : c.Gives (Action.raise e) Q := .fail h

theorem ofOutcome (o : Outcome α) (h : c.Kept Q o) : c.Gives (Action.ofOutcome o) Q := by
  cases o with
  | ok a => exact .give h
  | error e => exact .raise h

theorem peek : c.Gives Action.peek fun next => ∀ t, next = some t → c.found t := .ask ofOutcome

theorem expr (r : Int) : c.Gives (Action.expr r) (c.good r) := .ask ofOutcome

theorem consume (t : Token) : c.Gives (Action.consume t) fun _ => True := .ask ofOutcome

theorem attempt_consume (t : Token) :
    c.Gives (Action.attempt (.consume t)) (c.Kept (c.Meets (.consume t))) :=
  .ask fun _ h => .give h

theorem repeated {P : Node → Prop} {round : Action Round} (h : c.Gives round (Round.All P)) :
    c.Gives (Action.repeated round) fun ns => ∀ n ∈ ns, P n :=
  .gather h ofOutcome

theorem collect {P : Node → Prop} {outcomes : List (Outcome Node)} (h : ∀ o ∈ outcomes, c.Kept P o) :
    c.Gives (Action.collect outcomes) fun ns => ∀ n ∈ ns, P n := by
  induction outcomes with
  | nil => exact .pure (List.forall_mem_nil _)
  | cons o outcomes ih =>
    obtain ⟨first, rest⟩ := List.forall_mem_cons.mp h
    cases o with
    | error e => exact .raise first
    | ok n => exact (ih rest).bind fun ns hns => .pure (List.forall_mem_cons.mpr ⟨first, hns⟩)

theorem sequence (level : Int) (separator closing : Option Token) :
    c.Gives (Action.sequence level separator closing) fun outcomes =>
      ∀ o ∈ outcomes, c.Kept (c.good level) o :=
  .ask ofOutcome

theorem collected (level : Int) (separator closing : Option Token) :
    c.Gives (do Action.collect (← Action.sequence level separator closing)) fun ns =>
      ∀ n ∈ ns, c.good level n :=
  (sequence level separator closing).bind fun _ h => collect h

theorem ite {p : Prop} [Decidable p] {a b : Action α} (ha : p → c.Gives a Q) (hb : ¬p → c.Gives b Q) :
    c.Gives (if p then a else b) Q := by
  split
  · exact ha ‹_›
  · exact hb ‹_›

theorem kindOf {t : Token} {kind : Kind} (h : t.kind? = some kind) :
    c.Gives (Action.kindOf t) fun k => k = kind := by
  unfold Action.kindOf
  rw [h]
  exact .pure rfl

end Gives
end Contract

/-- The thresholds at which tokens started expressions are ones at which they may. -/
def Event.admits (may : Int → Kind → Bool) : List Event → Bool
  | [] => true
  | e :: log => admits may log && match e, log with
    | .classify _ kind, .enter r :: _ => may r kind
    | _, _ => true

theorem Event.admits_of_forall {may : Int → Kind → Bool} (h : ∀ r kind, may r kind = true)
    (log : List Event) : admits may log = true := by
  induction log with
  | nil => rfl
  | cons e log ih =>
    unfold admits
    rw [ih, Bool.true_and]
    split
    · exact h _ _
    · rfl

theorem Event.admits_of_suffix {may : Int → Kind → Bool} {older log : List Event} (h : older <:+ log)
    (ha : admits may log = true) : admits may older = true := by
  induction log with
  | nil => rwa [List.suffix_nil.mp h]
  | cons e log ih =>
    rcases List.suffix_cons_iff.mp h with rfl | h
    · exact ha
    · exact ih h (Bool.and_eq_true_iff.mp ha).1

namespace Contract
open ParseM BindingPower.Parser
variable (c : Contract) {α β : Type}

/-- Whether an answer is as it should be; the only other end is a fair one. -/
def Fulfils (Q : α → Progress → Prop) : Except Failure α × Progress → Prop
  | (.ok a, s) => Q a s
  | (.error e, _) => c.fair e

/-- The tokens to come are as they should be, and so is the error that they may end in. -/
structure Ready (s : Progress) : Prop where
  tokens : ∀ t ∈ s.input.tokens, c.found t
  fault : ∀ e, s.input.fault = some e → c.fair (.error e)

theorem Ready.onto {c : Contract} {s s' : Progress} (h : c.Ready s) (onto : Onto s s') : c.Ready s' :=
  ⟨fun t ht => h.tokens t (onto.tokens.subset ht), fun e he => h.fault e (onto.fault e he)⟩

/-- Wherever a computation starts with `P`, unless a token starts an expression where it may not, it
answers with `Q` or fails fairly. -/
structure Delivers (P : Progress → Prop) (m : ParseM α) (Q : α → Progress → Prop) : Prop where
  moves : Moves Onto m
  fulfils : ∀ s, c.Ready s → P s → Event.admits c.may (m s).2.log = true → c.Fulfils Q (m s)

/-- Nothing in particular holds before, and what holds after is a matter of the answer. -/
abbrev Answers (m : ParseM α) (Q : α → Prop) : Prop := c.Delivers (fun _ => True) m fun a _ => Q a

/-- A parser whose rules keep a contract, and whose own failures are fair. -/
structure Binds (p : Parser) : Prop where
  incomplete : c.fair (.error .incomplete)
  missingRule : ∀ t role, c.found t → c.fair (.error (.missingRule t role))
  consumeFailed : ∀ expected t, c.found t → c.fair (.error (.consumeFailed expected t))
  tooDeep : ∀ limit, p.limit = some limit → c.fair (.error (.tooDeep limit))
  classified : ∀ asked t, c.found t → p.classifier asked t = .ok (c.kindOf t)
  starting : ∀ t rule r, c.found t → p.table.prefixRule? (c.kindOf t) = some rule →
    c.may r (c.kindOf t) = true → c.Gives (rule.action t rule.power) (c.good r)
  continuing : ∀ t rule r left, c.found t → p.table.infixRule? (c.kindOf t) = some rule →
    r < rule.left → c.good r left → c.Gives (rule.action t rule.right left) (c.good r)

variable {c}

namespace Delivers
variable {P : Progress → Prop} {Q : α → Progress → Prop}

theorem bind {m : ParseM α} {f : α → ParseM β} {R : β → Progress → Prop} (hm : c.Delivers P m Q)
    (hf : ∀ a, c.Delivers (Q a) (f a) R) : c.Delivers P (m >>= f) R where
  moves := hm.moves.bind Onto.trans fun a => (hf a).moves
  fulfils := by
    intro s ready hs ha
    have onto := hm.moves s
    have first := hm.fulfils s ready hs
    rw [bind_apply] at ha ⊢
    rcases h : m s with ⟨e | a, s'⟩ <;> rw [h] at ha first onto
    · exact first ha
    · have before := Event.admits_of_suffix ((hf a).moves s').log ha
      exact (hf a).fulfils s' (ready.onto onto) (first before) ha

theorem weaken {m : ParseM α} {P' : Progress → Prop} {Q' : α → Progress → Prop} (h : c.Delivers P m Q)
    (hP : ∀ s, P' s → P s) (hQ : ∀ a s, Q a s → Q' a s) : c.Delivers P' m Q' where
  moves := h.moves
  fulfils := by
    intro s ready hs ha
    have done := h.fulfils s ready (hP s hs) ha
    rcases hm : m s with ⟨e | a, s'⟩ <;> rw [hm] at done
    · exact done
    · exact hQ a s' done

theorem pre {m : ParseM α} {P' : Progress → Prop} (h : c.Delivers P m Q) (hP : ∀ s, P' s → P s) :
    c.Delivers P' m Q :=
  h.weaken hP fun _ _ h => h

theorem pure {a : α} (h : ∀ s, P s → Q a s) : c.Delivers P (Pure.pure a) Q where
  moves := Onto.refl
  fulfils s _ hs _ := h s hs

theorem throw {cause : Failure} (h : ∀ s, P s → c.fair cause) : c.Delivers P (throw cause) Q where
  moves := Onto.refl
  fulfils s _ hs _ := h s hs

theorem raise {e : ParseError} (h : ∀ s, P s → c.fair (.error e)) : c.Delivers P (ParseM.raise e) Q :=
  throw h

theorem room : c.Delivers P ParseM.room fun _ => P where
  moves := Onto.refl
  fulfils _ _ hs _ := hs

theorem record {e : Event} {Q : Unit → Progress → Prop} (h : ∀ s, P s → Q () { s with log := e :: s.log }) :
    c.Delivers P (ParseM.record e) Q where
  moves s := ⟨List.suffix_cons e s.log, List.suffix_refl _, fun _ h => h⟩
  fulfils s _ hs _ := h s hs

/-- The log so far may be taken to admit the starts in it. -/
theorem admitted {m : ParseM α} (moves : Moves Onto m)
    (h : c.Delivers (fun s => P s ∧ Event.admits c.may s.log = true) m Q) : c.Delivers P m Q where
  moves := moves
  fulfils s ready hs ha := h.fulfils s ready ⟨hs, Event.admits_of_suffix (moves s).log ha⟩ ha

/-- What does not depend on the state holds before and after. -/
theorem frame {m : ParseM α} (A : Prop) (h : c.Delivers P m Q) :
    c.Delivers (fun s => A ∧ P s) m fun a s => A ∧ Q a s where
  moves := h.moves
  fulfils := by
    intro s ready hs ha
    have done := h.fulfils s ready hs.2 ha
    rcases hm : m s with ⟨e | a, s'⟩ <;> rw [hm] at done
    · exact done
    · exact ⟨hs.1, done⟩

theorem outcome {m : ParseM α} {Q : α → Prop} (h : c.Answers m Q) :
    c.Answers (ParseM.outcome m) (c.Kept Q) where
  moves := h.moves.outcome
  fulfils := by
    intro s ready hs ha
    have done := h.fulfils s ready hs
    unfold ParseM.outcome at ha ⊢
    rcases hm : m s with ⟨(e | d) | a, s'⟩ <;> rw [hm] at ha done <;> exact done ha

end Delivers

/-- A state with a certain log and a certain token to come. -/
def At (log : List Event) (next : Option Token) (s : Progress) : Prop :=
  s.log = log ∧ s.input.tokens.head? = next

theorem Delivers.whatever {m : ParseM α} {log : List Event} {Q : α → Progress → Prop}
    (h : ∀ next, c.Delivers (At log next) m Q) : c.Delivers (fun s => s.log = log) m Q where
  moves := (h none).moves
  fulfils s ready hs := (h s.input.tokens.head?).fulfils s ready ⟨hs, rfl⟩

theorem Delivers.answers {m : ParseM α} {Q : α → Prop}
    (h : ∀ log next, c.Delivers (At log next) m fun a _ => Q a) : c.Answers m Q where
  moves := (h [] none).moves
  fulfils s ready _ := (h s.log s.input.tokens.head?).fulfils s ready ⟨rfl, rfl⟩

private theorem cause_of_mapError {x : Except ParseError α} {e : Failure}
    (h : x.mapError Failure.error = .error e) : ∃ cause, x = .error cause ∧ e = .error cause := by
  cases x with
  | ok a => cases h
  | error cause => exact ⟨cause, rfl, (Except.error.inj h).symm⟩

theorem Delivers.peek {log : List Event} {next : Option Token} : c.Delivers (At log next) ParseM.peek fun t s =>
    (∀ u, t = some u → c.found u ∧ next = some u) ∧ At log next s where
  moves := Onto.peek
  fulfils := by
    rintro s ready ⟨hlog, hnext⟩ -
    have same := log_peek s
    have tokens := Scan.tokens_peek s.input
    obtain ⟨answer, input⟩ := peek_eq s
    rcases h : ParseM.peek s with ⟨e | t, s'⟩ <;> rw [h] at same answer input
    · obtain ⟨cause, broken, rfl⟩ := cause_of_mapError answer.symm
      exact ready.fault _ (Scan.fault_of_peek broken)
    · rw [← input] at tokens
      refine ⟨?_, same.trans hlog, (congrArg List.head? tokens).trans hnext⟩
      rintro u rfl
      have first := head?_of_peek h
      exact ⟨ready.tokens u (List.mem_of_mem_head? first), hnext.symm.trans first⟩

section
variable {p : Parser} (hp : c.Binds p) {log : List Event} {next : Option Token}
include hp

theorem Binds.advance : c.Delivers (At log next) ParseM.advance fun t s =>
    (c.found t ∧ next = some t) ∧ s.log = log where
  moves := Onto.advance
  fulfils := by
    rintro s ready ⟨hlog, hnext⟩ -
    have same := log_advance s
    have answer := (advance_eq s).1
    rcases h : ParseM.advance s with ⟨e | t, s'⟩ <;> rw [h] at same answer
    · obtain ⟨cause, ended, rfl⟩ := cause_of_mapError answer.symm
      rcases Scan.incomplete_or_fault_of_advance ended with rfl | broken
      · exact hp.incomplete
      · exact ready.fault _ broken
    · have first := head?_of_advance h
      exact ⟨⟨ready.tokens t (List.mem_of_mem_head? first), hnext.symm.trans first⟩, same.trans hlog⟩

theorem Binds.kindOf (t : Token) {P : Progress → Prop}
    (hP : ∀ s, P s → P { s with classified := s.classified + 1 }) :
    c.Delivers (fun s => c.found t ∧ P s) (p.kindOf t) fun kind s =>
      (c.found t ∧ kind = c.kindOf t) ∧ P s where
  moves := (pervasive_onto p).kindOf t
  fulfils := by
    rintro s - ⟨ht, hs⟩ -
    unfold Parser.kindOf
    rw [hp.classified _ _ ht]
    exact ⟨⟨ht, rfl⟩, hP s hs⟩

/-- A token binds tighter than a threshold only by its infix rule. -/
theorem Binds.binds (r : Int) : c.Delivers (At log next) (p.binds r) fun more s =>
    (more = true → ∃ t rule, (c.found t ∧ next = some t) ∧
      p.table.infixRule? (c.kindOf t) = some rule ∧ r < rule.left) ∧ At log next s := by
  apply Delivers.peek.bind
  intro found
  cases found with
  | none => exact .pure fun s hs => ⟨nofun, hs.2⟩
  | some t =>
    have classify := hp.kindOf t (P := fun s => next = some t ∧ At log next s) fun _ hs => hs
    apply (classify.pre fun s hs => ⟨(hs.1 t rfl).1, (hs.1 t rfl).2, hs.2⟩).bind
    intro kind
    cases hr : p.table.infixRule? kind with
    | none => exact .pure fun s hs => ⟨nofun, hs.2.2⟩
    | some rule =>
      apply Delivers.pure
      rintro s ⟨⟨ht, rfl⟩, hn, hs⟩
      exact ⟨fun h => ⟨t, rule, ⟨ht, hn⟩, hr, of_decide_eq_true h⟩, hs⟩

end

/-- What holds of an answer, beside what was known before. -/
theorem Answers.under {m : ParseM α} {Q : α → Prop} (h : c.Answers m Q) (A : Prop) :
    c.Delivers (fun _ => A) m fun a _ => A ∧ Q a :=
  (h.frame A).pre fun _ ha => ⟨ha, trivial⟩

theorem Answers.given {m : ParseM α} {Q : α → Prop} {A : Prop} (moves : Moves Onto m)
    (h : A → c.Answers m Q) : c.Delivers (fun _ => A) m fun a _ => Q a where
  moves := moves
  fulfils s ready hA := (h hA).fulfils s ready trivial

theorem Answers.peek : c.Answers ParseM.peek fun next => ∀ t, next = some t → c.found t :=
  Delivers.answers fun _ _ => Delivers.peek.weaken (fun _ h => h) fun _ _ h t ht => (h.1 t ht).1

theorem Answers.closes (separator closing : Option Token) :
    c.Answers (closes separator closing) fun _ => True := by
  cases separator <;> cases closing <;>
    first
      | exact .pure fun _ _ => trivial
      | exact Answers.peek.bind fun _ => .pure fun _ _ => trivial

private theorem kept_ending {P : Node → Prop} {closing : Option Token} {e : ParseError}
    (h : c.fair (.error e)) : ∀ o ∈ ending closing e, c.Kept P o := by
  have single : ∀ o ∈ [(.error e : Outcome Node)], c.Kept P o := List.forall_mem_singleton.mpr h
  cases e with
  | incomplete => cases closing with
    | none => exact List.forall_mem_nil _
    | some t => exact single
  | _ => exact single

section
variable {p : Parser} (hp : c.Binds p)
include hp

theorem Binds.answers_advance : c.Answers ParseM.advance c.found :=
  Delivers.answers fun _ _ => hp.advance.weaken (fun _ h => h) fun _ _ h => h.1.1

theorem Binds.answers_consume (t : Token) : c.Answers (ParseM.consume t) fun _ => True := by
  apply Answers.peek.bind
  intro next
  cases next with
  | none => exact .raise fun _ _ => hp.incomplete
  | some u =>
    dsimp only
    split
    · exact (hp.answers_advance.under _).bind fun _ => .pure fun _ _ => trivial
    · exact .raise fun _ found => hp.consumeFailed _ u (found u rfl)

theorem Binds.answers_binds (r : Int) : c.Answers (p.binds r) fun _ => True :=
  Delivers.answers fun _ _ => (hp.binds r).weaken (fun _ h => h) fun _ _ _ => trivial

variable {e : Int → ParseM Node} (he : ∀ r, c.Answers (e r) (c.good r))
include he

theorem Binds.answers_elements (level : Int) (separator closing : Option Token) (times : Nat) :
    c.Answers (elements e level separator closing times) fun outcomes =>
      ∀ o ∈ outcomes, c.Kept (c.good level) o := by
  induction times with
  | zero => exact .pure fun _ _ => List.forall_mem_nil _
  | succ times ih =>
    have more (n : Node) : c.Delivers (fun _ => c.good level n)
        (do return .ok n :: (← elements e level separator closing times)) fun outcomes _ =>
          ∀ o ∈ outcomes, c.Kept (c.good level) o :=
      (ih.under _).bind fun _ => .pure fun _ h => List.forall_mem_cons.mpr h
    apply (Answers.closes separator closing).bind
    rintro (_ | _)
    · apply (he level).outcome.bind
      rintro (cause | n)
      · exact .pure fun _ h => kept_ending h
      · cases separator with
        | none => exact more n
        | some separator =>
          apply ((hp.answers_consume separator).outcome.under _).bind
          rintro (cause | _)
          · cases cause with
            | incomplete => exact .pure fun _ h => List.forall_mem_cons.mpr ⟨h.1, kept_ending h.2⟩
            | consumeFailed expected found =>
              dsimp only
              split
              · refine (hp.answers_advance.under _).bind fun _ => .pure fun _ h => ?_
                exact List.forall_mem_singleton.mpr h.1.1
              · refine .pure fun _ h => List.forall_mem_cons.mpr ⟨h.1, ?_⟩
                exact List.forall_mem_singleton.mpr h.2
            | _ => exact .raise fun _ h => h.2
          · exact (more n).pre fun _ h => h.1
    · exact hp.answers_advance.bind fun _ => .pure fun _ _ => List.forall_mem_nil _

theorem Binds.answers_answer (q : Request) : c.Answers (p.answer e q) (c.Meets q) := by
  cases q with
  | peek => exact Answers.peek
  | binds r => exact hp.answers_binds r
  | expr r => exact he r
  | consume t => exact hp.answers_consume t
  | sequence level separator closing =>
    exact Delivers.room.bind fun _ => hp.answers_elements he level separator closing _

omit hp he in
theorem answers_rounds {P : Node → Prop} {round : ParseM Round} (h : c.Answers round (Round.All P))
    (times : Nat) : c.Answers (rounds round times) fun ns => ∀ n ∈ ns, P n := by
  induction times with
  | zero => exact .pure fun _ _ => List.forall_mem_nil _
  | succ times ih =>
    apply h.bind
    rintro (_ | n | n)
    · exact .pure fun _ _ => List.forall_mem_nil _
    · exact (ih.under _).bind fun _ => .pure fun _ h => List.forall_mem_cons.mpr h
    · exact .pure fun _ hn => List.forall_mem_singleton.mpr hn

omit hp he in
private theorem delivers_noted {Q : Node → Prop} (e : Node → Event) (n : Node) :
    c.Delivers (fun _ => Q n) (do record (e n); return n) fun n _ => Q n := by
  apply Delivers.bind (Q := fun _ _ => Q n)
  · exact .record fun _ h => h
  · exact fun _ => .pure fun _ h => h

/-- An action comes to what it gives. -/
theorem Binds.answers_run {a : Action α} {Q : α → Prop} (ha : c.Gives a Q) :
    c.Answers (p.run e a) Q := by
  have moves {β : Type} (b : Action β) : Moves Onto (p.run e b) :=
    (pervasive_onto p).run (fun r => (he r).moves) b
  induction ha with
  | give h => exact .pure fun _ _ => h
  | fail h => exact .throw fun _ _ => h
  | ask answered ih =>
    exact (hp.answers_answer he _).outcome.bind fun answer => Answers.given (moves _) (ih answer)
  | gather each gathered ihr ih =>
    have items := (Delivers.room (P := fun _ => True)).bind fun k => answers_rounds ihr (k + 1)
    exact items.outcome.bind fun items => Answers.given (moves _) (ih items)

/-- What a token starts, where it may, is good. -/
theorem Binds.delivers_start (r : Int) (log : List Event) :
    c.Delivers (fun s => s.log = .enter r :: log) (p.start e) fun n _ => c.good r n := by
  apply Delivers.whatever
  intro next
  apply hp.advance.bind
  intro t
  have classify := hp.kindOf t (P := fun s => s.log = .enter r :: log) fun _ hs => hs
  apply (classify.pre fun s hs => ⟨hs.1.1, hs.2⟩).bind
  intro kind
  apply Delivers.bind (Q := fun _ s => (c.found t ∧ kind = c.kindOf t) ∧
    s.log = .classify t kind :: .enter r :: log)
  · exact .record fun s hs => ⟨hs.1, congrArg _ hs.2⟩
  · intro _
    cases hr : p.table.prefixRule? kind with
    | none => exact .raise fun _ hs => hp.missingRule t _ hs.1.1
    | some rule =>
      have moves := (pervasive_onto p).run (fun r => (he r).moves) (rule.action t rule.power)
      apply Delivers.bind (Q := fun n _ => c.good r n)
      · apply Delivers.admitted moves
        refine ⟨moves, ?_⟩
        rintro s ready ⟨⟨⟨ht, rfl⟩, hlog⟩, admits⟩
        have may : c.may r (c.kindOf t) = true := by
          rw [hlog] at admits
          exact (Bool.and_eq_true_iff.mp admits).2
        exact (hp.answers_run he (hp.starting t rule r ht hr may)).fulfils s ready trivial
      · exact delivers_noted .left

/-- What an infix rule makes of a good left operand is good. -/
theorem Binds.delivers_extend {r : Int} {left : Node} (hl : c.good r left) (log : List Event)
    (next : Option Token) :
    c.Delivers (fun s => (∃ t rule, (c.found t ∧ next = some t) ∧
        p.table.infixRule? (c.kindOf t) = some rule ∧ r < rule.left) ∧ At log next s)
      (p.extend e left) fun n _ => c.good r n := by
  apply (hp.advance.frame _).bind
  intro t
  have classify := hp.kindOf t (P := fun _ => ∃ rule, p.table.infixRule? (c.kindOf t) = some rule ∧
    r < rule.left) fun _ hs => hs
  apply (classify.pre _).bind
  · intro kind
    cases hr : p.table.infixRule? kind with
    | none => exact .raise fun _ hs => hp.missingRule t _ hs.1.1
    | some rule =>
      have moves := (pervasive_onto p).run (fun r => (he r).moves) (rule.action t rule.right left)
      apply Delivers.bind (Q := fun n _ => c.good r n)
      · refine ⟨moves, ?_⟩
        rintro s ready ⟨⟨ht, rfl⟩, other, ho, tighter⟩
        obtain rfl : rule = other := Option.some.inj (hr.symm.trans ho)
        exact (hp.answers_run he (hp.continuing t rule r left ht hr tighter hl)).fulfils s ready trivial
      · exact delivers_noted .left
  · rintro s ⟨⟨u, rule, ⟨-, rfl⟩, hr⟩, ⟨ht, hn⟩, -⟩
    obtain rfl : u = t := Option.some.inj hn
    exact ⟨ht, rule, hr⟩

theorem Binds.answers_continued (r : Int) (bound : Nat) {left : Node} (hl : c.good r left) :
    c.Answers (p.continued e r bound left) (c.good r) := by
  have moves (bound : Nat) (left : Node) : Moves Onto (p.continued e r bound left) :=
    (pervasive_onto p).continued (fun r => (he r).moves) r bound left
  induction bound generalizing left with
  | zero => exact (hp.answers_binds r).bind fun _ => .pure fun _ _ => hl
  | succ bound ih =>
    apply Delivers.answers
    intro log next
    apply (hp.binds r).bind
    rintro (_ | _)
    · exact .pure fun _ _ => hl
    · have extended := hp.delivers_extend he hl log next
      apply (extended.pre fun s hs => ⟨hs.1 rfl, hs.2⟩).bind
      intro left
      exact Answers.given (moves bound left) ih

omit he in
theorem Binds.answers_nested {m : ParseM Node} {Q : Node → Prop} (r : Int)
    (h : ∀ log, c.Delivers (fun s => s.log = .enter r :: log) m fun n _ => Q n) :
    c.Answers (p.nested r m) Q where
  moves := (pervasive_onto p).nested r (h []).moves
  fulfils := by
    intro s ready _ ha
    unfold Parser.nested at ha ⊢
    split
    · next reached =>
      obtain ⟨limit, hl, -⟩ := (Option.any_eq_true ..).mp reached
      rw [hl]
      exact hp.tooDeep limit hl
    · rw [if_neg ‹_›] at ha
      have body := (h s.log).fulfils { s with depth := s.depth + 1, log := .enter r :: s.log }
        ⟨ready.tokens, ready.fault⟩ rfl
      rcases hm : m { s with depth := s.depth + 1, log := .enter r :: s.log } with ⟨e | n, s'⟩ <;>
        rw [hm] at ha body <;> exact body (Event.admits_of_suffix (List.suffix_cons _ _) ha)

omit he in
theorem Binds.answers_expr (bound : Nat) (r : Int) : c.Answers (p.expr bound r) (c.good r) := by
  induction bound generalizing r with
  | zero =>
    apply hp.answers_nested
    intro log
    refine Delivers.bind (Q := fun _ _ => True) ?_ fun _ => .raise fun _ _ => hp.incomplete
    exact Answers.peek.weaken (fun _ _ => trivial) fun _ _ _ => trivial
  | succ bound ih =>
    apply hp.answers_nested
    intro log
    apply Delivers.whatever
    intro next
    apply Delivers.peek.bind
    intro found
    cases found with
    | none => exact .raise fun _ _ => hp.incomplete
    | some t =>
      apply ((hp.delivers_start ih r log).pre fun _ hs => hs.2.1).bind
      intro left
      have moves := (pervasive_onto p).continued (fun r => (ih r).moves) r bound left
      exact (Answers.given moves (hp.answers_continued ih r bound)).bind (delivers_noted .result)

omit he in
/-- Expressions are good at their thresholds, if the rules of the parser keep the contract. -/
theorem Binds.answers_perform {a : Action α} {Q : α → Prop} (ha : c.Gives a Q) :
    c.Answers (p.perform a) Q :=
  (Delivers.room (P := fun _ => True)).bind fun bound => hp.answers_run (hp.answers_expr bound) ha

end
end Contract

/-- A parse by rules that keep a contract fails fairly, and it comes to what its program gives if tokens
started expressions only where they may. -/
theorem Grammar.fulfils_run {g : Grammar} {c : Contract} {text : String} {limit : Option Int}
    {Q : List Node → Prop} (hc : c.Binds (g.parser limit)) (hg : c.Gives g.program Q)
    (ready : c.Ready (g.start text))
    (ha : Event.admits c.may (g.run text limit).2.log = true) :
    c.Fulfils (fun ns _ => Q ns) (g.run text limit) :=
  (hc.answers_perform hg).fulfils (g.start text) ready trivial ha

end BindingPower
