import Mathlib.Data.List.Forall2
import BindingPower.Proofs.Course
import BindingPower.Proofs.Table

/-! Two parses of tokens that look alike. Tokens keep their places only to report them: if the rules of a
parser make like nodes of like tokens and nodes, two parses of like tokens go the same way and end
alike. -/
namespace BindingPower

/-- Tokens that differ in nothing but their places. -/
abbrev Token.Like (t u : Token) : Prop := t.bare = u.bare

abbrev Node.Like (n m : Node) : Prop := n.bare = m.bare

/-- Errors that tokens can cause, of like causes. -/
inductive ParseError.Like : ParseError → ParseError → Prop
  | incomplete : Like .incomplete .incomplete
  | missingRule {t u : Token} (role : Role) (h : t.Like u) : Like (.missingRule t role) (.missingRule u role)
  | consumeFailed {t u v w : Token} (he : t.Like u) (hf : v.Like w) :
    Like (.consumeFailed t v) (.consumeFailed u w)
  | malformed {n m : Node} {t u : Token} (hn : n.Like m) (ht : t.Like u) :
    Like (.malformed n t) (.malformed m u)
  | tooDeep (limit : Int) : Like (.tooDeep limit) (.tooDeep limit)

namespace Token.Like
variable {t u : Token}

theorem kind (h : t.Like u) : t.kind = u.kind := by
  cases t <;> cases u <;> cases h <;> rfl

theorem kind? (h : t.Like u) : t.kind? = u.kind? := by
  cases t <;> cases u <;> cases h <;> rfl

theorem same_left (h : t.Like u) (v : Token) : t.same v = u.same v := by
  cases t <;> cases u <;> cases h <;> cases v <;> rfl

theorem same (h : t.Like u) : t.same u = true := by
  cases t <;> cases u <;> cases h <;> simp [Token.same]

theorem present? (h : t.Like u) : Option.Rel Token.Like t.present? u.present? := by
  cases t <;> cases u <;> first | exact .some h | exact .none | cases h

end Token.Like

namespace Node.Like
variable {t u : Token} {n m : Node} {ns ms : List Node}

theorem forall₂_iff : List.Forall₂ Node.Like ns ms ↔ Node.bareAll ns = Node.bareAll ms := by
  induction ns generalizing ms with
  | nil => cases ms <;> simp [Node.bareAll]
  | cons n ns ih => cases ms <;> simp [Node.bareAll, ih]

theorem leaf (h : t.Like u) : (Node.leaf t).Like (.leaf u) := congrArg Node.leaf h

theorem branch (ht : t.Like u) (h : List.Forall₂ Node.Like ns ms) :
    (Node.branch t ns).Like (.branch u ms) := by
  rw [Node.Like, Node.bare, Node.bare, ht, forall₂_iff.mp h]

/-- Like nodes are both leaves or both branches. -/
theorem sorts (h : n.Like m) : (∃ t u, n = .leaf t ∧ m = .leaf u ∧ t.Like u) ∨
    ∃ t u ns ms, n = .branch t ns ∧ m = .branch u ms ∧ t.Like u ∧ List.Forall₂ Node.Like ns ms := by
  cases n <;> cases m <;> simp only [Node.Like, Node.bare, reduceCtorEq] at h
  case leaf t u => exact .inl ⟨t, u, rfl, rfl, Node.leaf.inj h⟩
  case branch t ns u ms =>
    obtain ⟨ht, hs⟩ := Node.branch.inj h
    exact .inr ⟨t, u, ns, ms, rfl, rfl, ht, forall₂_iff.mpr hs⟩

mutual
theorem same {n m : Node} (h : n.Like m) : n.same m = true := by
  cases n <;> cases m <;> simp only [Node.Like, Node.bare, reduceCtorEq] at h
  case leaf t u => exact Token.Like.same (Node.leaf.inj h)
  case branch t ns u ms =>
    obtain ⟨ht, hs⟩ := Node.branch.inj h
    rw [Node.same, Token.Like.same ht, sameAll hs]
    rfl
theorem sameAll {ns ms : List Node} (h : Node.bareAll ns = Node.bareAll ms) : Node.sameAll ns ms = true := by
  cases ns <;> cases ms <;> simp only [Node.bareAll, reduceCtorEq] at h
  case nil => rfl
  case cons n ns m ms =>
    obtain ⟨hn, hs⟩ := List.cons.inj h
    rw [Node.sameAll, same hn, sameAll hs]
    rfl
end

theorem token (h : n.Like m) : n.token.Like m.token := by
  obtain ⟨t, u, rfl, rfl, like⟩ | ⟨t, u, ns, ms, rfl, rfl, like, -⟩ := h.sorts <;> exact like

theorem withChild? {c d : Node} (h : n.Like m) (hc : c.Like d) :
    Option.Rel Node.Like (n.withChild? c) (m.withChild? d) := by
  obtain ⟨t, u, rfl, rfl, -⟩ | ⟨t, u, ns, ms, rfl, rfl, h, hs⟩ := h.sorts
  · exact .none
  · exact .some (branch h (List.rel_append hs (.cons hc .nil)))

end Node.Like

theorem ParseError.Like.same {e e' : ParseError} (h : e.Like e') : e.same e' = true := by
  cases h with
  | incomplete => rfl
  | missingRule role h => simp [ParseError.same, h.same]
  | consumeFailed he hf => simp [ParseError.same, he.same, hf.same]
  | malformed hn ht => simp [ParseError.same, hn.same, ht.same]
  | tooDeep limit => simp [ParseError.same]

/-- Like answers, or like errors. -/
inductive Outcome.Like {α : Type} (R : α → α → Prop) : Outcome α → Outcome α → Prop
  | ok {a b : α} (h : R a b) : Like R (.ok a) (.ok b)
  | error {e e' : ParseError} (h : e.Like e') : Like R (.error e) (.error e')

inductive Round.Like : Round → Round → Prop
  | done : Like .done .done
  | item {n m : Node} (h : n.Like m) : Like (.item n) (.item m)
  | last {n m : Node} (h : n.Like m) : Like (.last n) (.last m)

def Request.Like : (q : Request) → q.Answer → q.Answer → Prop
  | .peek => Option.Rel Token.Like
  | .binds _ => Eq
  | .expr _ => Node.Like
  | .consume _ => fun _ _ => True
  | .sequence .. => List.Forall₂ (Outcome.Like Node.Like)

/-- Actions that ask for the same things and make like answers of like ones. Defects are not told
apart. -/
inductive Action.Alike : {α : Type} → (α → α → Prop) → Action α → Action α → Prop
  | give {α : Type} {R : α → α → Prop} {a b : α} (h : R a b) : Alike R (.give a) (.give b)
  | raise {α : Type} {R : α → α → Prop} {e e' : ParseError} (h : e.Like e') :
    Alike R (.fail (.error e)) (.fail (.error e'))
  | defect {α : Type} {R : α → α → Prop} (d d' : Defect) :
    Alike R (.fail (.defect d)) (.fail (.defect d'))
  | ask {α : Type} {R : α → α → Prop} {q : Request} {next next' : Outcome q.Answer → Action α}
    (answered : ∀ x y, Outcome.Like q.Like x y → Alike R (next x) (next' y)) :
    Alike R (.ask q next) (.ask q next')
  | gather {α : Type} {R : α → α → Prop} {round round' : Action Round}
    {next next' : Outcome (List Node) → Action α} (each : Alike Round.Like round round')
    (gathered : ∀ x y, Outcome.Like (List.Forall₂ Node.Like) x y → Alike R (next x) (next' y)) :
    Alike R (.gather round next) (.gather round' next')

namespace Action.Alike
variable {α β : Type} {R : α → α → Prop} {S : β → β → Prop}

theorem bind {a a' : Action α} {f f' : α → Action β} (ha : Alike R a a')
    (hf : ∀ x y, R x y → Alike S (f x) (f' y)) : Alike S (a >>= f) (a' >>= f') := by
  change Alike S (a.bind f) (a'.bind f')
  induction ha with
  | give h => exact hf _ _ h
  | raise h => exact .raise h
  | defect d d' => exact .defect d d'
  | ask answered ih => exact .ask fun x y h => ih x y h hf
  | gather each gathered _ ih => exact .gather each fun x y h => ih x y h hf

theorem pure {a b : α} (h : R a b) : Alike R (Pure.pure a) (Pure.pure b) := .give h

theorem ofOutcome (x y : Outcome α) (h : Outcome.Like R x y) :
    Alike R (Action.ofOutcome x) (Action.ofOutcome y) := by
  cases h with
  | ok h => exact .give h
  | error h => exact .raise h

theorem peek : Alike (Option.Rel Token.Like) Action.peek Action.peek := .ask ofOutcome

theorem expr (r : Int) : Alike Node.Like (Action.expr r) (Action.expr r) := .ask ofOutcome

theorem consume (t : Token) : Alike (fun _ _ => True) (Action.consume t) (Action.consume t) :=
  .ask ofOutcome

theorem attempt_consume (t : Token) : Alike (Outcome.Like fun _ _ => True)
    (Action.attempt (.consume t)) (Action.attempt (.consume t)) :=
  .ask fun _ _ h => .give h

theorem repeated {round round' : Action Round} (h : Alike Round.Like round round') :
    Alike (List.Forall₂ Node.Like) (Action.repeated round) (Action.repeated round') :=
  .gather h ofOutcome

theorem collect {outcomes outcomes' : List (Outcome Node)}
    (h : List.Forall₂ (Outcome.Like Node.Like) outcomes outcomes') :
    Alike (List.Forall₂ Node.Like) (Action.collect outcomes) (Action.collect outcomes') := by
  induction h with
  | nil => exact .pure .nil
  | cons ho _ ih =>
    cases ho with
    | ok hn => exact ih.bind fun _ _ hns => .pure (.cons hn hns)
    | error he => exact .raise he

theorem collected (level : Int) (separator closing : Option Token) :
    Alike (List.Forall₂ Node.Like) (do Action.collect (← Action.sequence level separator closing))
      (do Action.collect (← Action.sequence level separator closing)) :=
  (Alike.ask ofOutcome).bind fun _ _ => collect

theorem ite {p : Prop} [Decidable p] {a a' b b' : Action α} (ha : Alike R a a') (hb : Alike R b b') :
    Alike R (if p then a else b) (if p then a' else b') := by
  split
  · exact ha
  · exact hb

theorem test {c c' : Action Bool} {a a' b b' : Action α} (hc : Alike Eq c c') (ha : Alike R a a')
    (hb : Alike R b b') : Alike R (do if ← c then a else b) (do if ← c' then a' else b') := by
  apply hc.bind
  rintro x _ rfl
  exact .ite ha hb

theorem kindOf {t u : Token} (h : t.Like u) : Alike Eq (Action.kindOf t) (Action.kindOf u) := by
  unfold Action.kindOf
  rw [h.kind?]
  split
  · exact .pure rfl
  · exact .defect _ _

end Action.Alike

/-- A rule that makes like nodes of like tokens. -/
def PrefixRule.Indifferent (rule : PrefixRule) : Prop :=
  ∀ t u power, t.Like u → Action.Alike Node.Like (rule.action t power) (rule.action u power)

def InfixRule.Indifferent (rule : InfixRule) : Prop :=
  ∀ t u power left left', t.Like u → left.Like left' →
    Action.Alike Node.Like (rule.action t power left) (rule.action u power left')

theorem PrefixRule.indifferent_leaf (power : Int) : (PrefixRule.leaf power).Indifferent :=
  fun _ _ _ ht => .pure (.leaf ht)

theorem PrefixRule.indifferent_unary (power : Int) : (PrefixRule.unary power).Indifferent :=
  fun _ _ _ ht => (Action.Alike.expr _).bind fun _ _ hn => .pure (.branch ht (.cons hn .nil))

theorem InfixRule.indifferent_binary (left right : Int) : (InfixRule.binary left right).Indifferent :=
  fun _ _ _ _ _ ht hl => (Action.Alike.expr _).bind fun _ _ hn =>
    .pure (.branch ht (.cons hl (.cons hn .nil)))

/-- Like tokens to come, and no error after them. -/
inductive Scan.Like : Scan → Scan → Prop
  | whole {ts us : List Token} (h : List.Forall₂ Token.Like ts us) : Like ⟨ts, none⟩ ⟨us, none⟩

namespace Scan.Like
variable {i j : Scan}

theorem of_tokens (hi : i.fault = none) (hj : j.fault = none)
    (h : i.tokens.map Token.bare = j.tokens.map Token.bare) : i.Like j := by
  obtain ⟨ts, _⟩ := i
  obtain ⟨us, _⟩ := j
  obtain rfl := hi
  obtain rfl := hj
  rw [← List.forall₂_eq_eq_eq, List.forall₂_map_left_iff, List.forall₂_map_right_iff] at h
  exact .whole h

theorem peek (h : i.Like j) :
    Outcome.Like (Option.Rel Token.Like) i.peek.1 j.peek.1 ∧ i.peek.2.Like j.peek.2 := by
  cases h with
  | whole h =>
    cases h with
    | nil => exact ⟨.ok .none, .whole .nil⟩
    | cons ht hts => exact ⟨.ok ht.present?, .whole (.cons ht hts)⟩

theorem advance (h : i.Like j) :
    Outcome.Like Token.Like i.advance.1 j.advance.1 ∧ i.advance.2.Like j.advance.2 := by
  cases h with
  | whole h =>
    cases h with
    | nil => exact ⟨.error .incomplete, .whole .nil⟩
    | cons ht hts => exact ⟨.ok ht, .whole hts⟩

theorem length_eq (h : i.Like j) : i.tokens.length = j.tokens.length := by
  cases h with
  | whole h => exact h.length_eq

end Scan.Like

/-- States of two parses that have come equally far. -/
structure Progress.Abreast (s s' : Progress) : Prop where
  input : s.input.Like s'.input
  depth : s.depth = s'.depth
  classified : s.classified = s'.classified

namespace ParseM
variable {α β : Type} {R : α → α → Prop} {S : β → β → Prop}

/-- Like answers, like errors, or defects. -/
inductive Ends (R : α → α → Prop) : Except Failure α → Except Failure α → Prop
  | ok {a b : α} (h : R a b) : Ends R (.ok a) (.ok b)
  | error {e e' : ParseError} (h : e.Like e') : Ends R (.error (.error e)) (.error (.error e'))
  | defect (d d' : Defect) : Ends R (.error (.defect d)) (.error (.defect d'))

/-- Computations that keep two parses abreast and end alike. -/
def Parallel (R : α → α → Prop) (m m' : ParseM α) : Prop :=
  ∀ s s', s.Abreast s' → Ends R (m s).1 (m' s').1 ∧ (m s).2.Abreast (m' s').2

theorem Ends.of_outcome {x y : Outcome α} (h : Outcome.Like R x y) :
    Ends R (x.mapError .error) (y.mapError .error) := by
  cases h with
  | ok h => exact .ok h
  | error h => exact .error h

namespace Parallel

theorem pure {a b : α} (h : R a b) : Parallel R (Pure.pure a) (Pure.pure b) :=
  fun _ _ hs => ⟨.ok h, hs⟩

theorem raise {e e' : ParseError} (h : e.Like e') : Parallel R (ParseM.raise e) (ParseM.raise e') :=
  fun _ _ hs => ⟨.error h, hs⟩

theorem defect (d d' : Defect) : Parallel R (throw (.defect d)) (throw (.defect d')) :=
  fun _ _ hs => ⟨.defect d d', hs⟩

theorem record (e e' : Event) : Parallel (fun _ _ => True) (ParseM.record e) (ParseM.record e') :=
  fun _ _ hs => ⟨.ok trivial, hs.input, hs.depth, hs.classified⟩

theorem room : Parallel Eq ParseM.room ParseM.room := by
  intro s s' hs
  have same : s.room = s'.room := by rw [s.room_eq, s'.room_eq, hs.input.length_eq]
  exact ⟨.ok same, hs⟩

theorem bind {m m' : ParseM α} {f f' : α → ParseM β} (hm : Parallel R m m')
    (hf : ∀ a b, R a b → Parallel S (f a) (f' b)) : Parallel S (m >>= f) (m' >>= f') := by
  intro s s' hs
  obtain ⟨ends, after⟩ := hm s s' hs
  rw [bind_apply, bind_apply]
  rcases h : m s with ⟨x, t⟩
  rcases h' : m' s' with ⟨y, t'⟩
  rw [h, h'] at ends after
  cases ends with
  | ok hab => exact hf _ _ hab t t' after
  | error he => exact ⟨.error he, after⟩
  | defect d d' => exact ⟨.defect d d', after⟩

theorem outcome {m m' : ParseM α} (hm : Parallel R m m') :
    Parallel (Outcome.Like R) (ParseM.outcome m) (ParseM.outcome m') := by
  intro s s' hs
  obtain ⟨ends, after⟩ := hm s s' hs
  unfold ParseM.outcome
  rcases h : m s with ⟨x, t⟩
  rcases h' : m' s' with ⟨y, t'⟩
  rw [h, h'] at ends after
  cases ends with
  | ok hab => exact ⟨.ok (.ok hab), after⟩
  | error he => exact ⟨.ok (.error he), after⟩
  | defect d d' => exact ⟨.defect d d', after⟩

theorem peek : Parallel (Option.Rel Token.Like) ParseM.peek ParseM.peek := by
  intro s s' hs
  obtain ⟨shown, after⟩ := hs.input.peek
  rw [(peek_eq s).1, (peek_eq s').1]
  refine ⟨.of_outcome shown, ?_, ?_, ?_⟩
  · rwa [(peek_eq s).2, (peek_eq s').2]
  · rw [state_peek, state_peek]
    exact hs.depth
  · rw [state_peek, state_peek]
    exact hs.classified

theorem advance : Parallel Token.Like ParseM.advance ParseM.advance := by
  intro s s' hs
  obtain ⟨taken, after⟩ := hs.input.advance
  rw [(advance_eq s).1, (advance_eq s').1]
  refine ⟨.of_outcome taken, ?_, ?_, ?_⟩
  · rwa [(advance_eq s).2, (advance_eq s').2]
  · rw [state_advance, state_advance]
    exact hs.depth
  · rw [state_advance, state_advance]
    exact hs.classified

theorem consume (expected : Token) :
    Parallel (fun _ _ => True) (ParseM.consume expected) (ParseM.consume expected) := by
  apply peek.bind
  intro next next' h
  cases h with
  | none => exact raise .incomplete
  | some ht =>
    dsimp only
    rw [ht.same_left]
    split
    · exact advance.bind fun _ _ _ => pure trivial
    · exact raise (.consumeFailed (.refl _) ht)

theorem at? (t : Token) : Parallel Eq (ParseM.at? t) (ParseM.at? t) := by
  apply peek.bind
  intro next next' h
  cases h with
  | none => exact pure rfl
  | some hu => exact pure (hu.same_left t)

end Parallel
end ParseM

namespace Parser
open ParseM
variable {α : Type} {p : Parser}

theorem parallel_closes (separator closing : Option Token) :
    Parallel Eq (closes separator closing) (closes separator closing) := by
  cases separator <;> cases closing <;> first | exact .at? _ | exact .pure rfl

theorem ending_like {e e' : ParseError} (h : e.Like e') (closing : Option Token) :
    List.Forall₂ (Outcome.Like Node.Like) (ending closing e) (ending closing e') := by
  cases h with
  | incomplete =>
    cases closing with
    | none => exact .nil
    | some t => exact .cons (.error .incomplete) .nil
  | missingRule role h => exact .cons (.error (.missingRule role h)) .nil
  | consumeFailed he hf => exact .cons (.error (.consumeFailed he hf)) .nil
  | malformed hn ht => exact .cons (.error (.malformed hn ht)) .nil
  | tooDeep limit => exact .cons (.error (.tooDeep limit)) .nil

theorem parallel_rounds {round round' : ParseM Round} (h : Parallel Round.Like round round')
    (times : Nat) : Parallel (List.Forall₂ Node.Like) (rounds round times) (rounds round' times) := by
  induction times with
  | zero => exact .pure .nil
  | succ times ih =>
    apply h.bind
    intro x y hr
    cases hr with
    | done => exact .pure .nil
    | item hn => exact ih.bind fun _ _ hns => .pure (.cons hn hns)
    | last hn => exact .pure (.cons hn .nil)

/-- A parser to which the places of tokens make no difference. -/
structure Indifferent (p : Parser) : Prop where
  classified : ∀ asked t u, t.Like u → (p.classifier asked t).toOption = (p.classifier asked u).toOption
  table : p.table.Each PrefixRule.Indifferent InfixRule.Indifferent

section
variable (hp : p.Indifferent)
include hp

theorem Indifferent.kindOf {t u : Token} (h : t.Like u) : Parallel Eq (p.kindOf t) (p.kindOf u) := by
  intro s s' hs
  have same := hp.classified s.classified t u h
  unfold Parser.kindOf
  rw [← hs.classified]
  rcases hx : p.classifier s.classified t with d | kind <;>
    rcases hy : p.classifier s.classified u with d' | kind' <;> rw [hx, hy] at same
  · exact ⟨.defect d d', hs⟩
  · cases same
  · cases same
  · exact ⟨.ok (Option.some.inj same), hs.input, hs.depth, rfl⟩

theorem Indifferent.binds (r : Int) : Parallel Eq (p.binds r) (p.binds r) := by
  apply Parallel.peek.bind
  intro next next' h
  cases h with
  | none => exact .pure rfl
  | some ht =>
    apply (hp.kindOf ht).bind
    rintro kind _ rfl
    split <;> exact .pure rfl

variable {e : Int → ParseM Node} (he : ∀ r, Parallel Node.Like (e r) (e r))
include he

omit hp in
theorem parallel_elements (level : Int) (separator closing : Option Token) (times : Nat) :
    Parallel (List.Forall₂ (Outcome.Like Node.Like)) (elements e level separator closing times)
      (elements e level separator closing times) := by
  induction times with
  | zero => exact .pure .nil
  | succ times ih =>
    apply (parallel_closes separator closing).bind
    rintro (_ | _) _ rfl
    · apply (he level).outcome.bind
      intro x y hxy
      cases hxy with
      | error hc => exact .pure (ending_like hc closing)
      | ok hn =>
        cases separator with
        | none => exact ih.bind fun _ _ hns => .pure (.cons (.ok hn) hns)
        | some separator =>
          apply (Parallel.consume separator).outcome.bind
          intro x y hxy
          cases hxy with
          | ok _ => exact ih.bind fun _ _ hns => .pure (.cons (.ok hn) hns)
          | error hc =>
            cases hc with
            | incomplete => exact .pure (.cons (.ok hn) (ending_like .incomplete closing))
            | consumeFailed hexpected hfound =>
              dsimp only
              rw [funext hfound.same_left]
              split
              · exact Parallel.advance.bind fun _ _ _ => .pure (.cons (.ok hn) .nil)
              · exact .pure (.cons (.ok hn) (.cons (.error (.consumeFailed hexpected hfound)) .nil))
            | missingRule role h => exact .raise (.missingRule role h)
            | malformed hn ht => exact .raise (.malformed hn ht)
            | tooDeep limit => exact .raise (.tooDeep limit)
    · exact Parallel.advance.bind fun _ _ _ => .pure .nil

theorem Indifferent.answer (q : Request) : Parallel q.Like (p.answer e q) (p.answer e q) := by
  cases q with
  | peek => exact .peek
  | binds r => exact hp.binds r
  | expr r => exact he r
  | consume t => exact .consume t
  | sequence level separator closing =>
    apply Parallel.room.bind
    rintro times _ rfl
    exact parallel_elements he level separator closing _

/-- Actions that are alike are carried out alike. -/
theorem Indifferent.run {R : α → α → Prop} {a a' : Action α} (h : Action.Alike R a a') :
    Parallel R (p.run e a) (p.run e a') := by
  induction h with
  | give h => exact .pure h
  | raise h => exact .raise h
  | defect d d' => exact .defect d d'
  | ask answered ih => exact (hp.answer he _).outcome.bind ih
  | gather each gathered ihr ih =>
    apply Parallel.bind (Parallel.outcome ?_) ih
    apply Parallel.room.bind
    rintro times _ rfl
    exact parallel_rounds ihr _

omit hp he in
theorem parallel_noted {n m : Node} (h : n.Like m) (event : Node → Event) :
    Parallel Node.Like (do record (event n); return n) (do record (event m); return m) :=
  (Parallel.record _ _).bind fun _ _ _ => .pure h

theorem Indifferent.start : Parallel Node.Like (p.start e) (p.start e) := by
  apply Parallel.advance.bind
  intro t u ht
  apply (hp.kindOf ht).bind
  rintro kind _ rfl
  apply (Parallel.record _ _).bind
  intro _ _ _
  cases hr : p.table.prefixRule? kind with
  | none => exact .raise (.missingRule _ ht)
  | some rule =>
    apply (hp.run he (hp.table.starting kind rule hr t u _ ht)).bind
    exact fun _ _ hn => parallel_noted hn .left

theorem Indifferent.extend {left left' : Node} (hl : left.Like left') :
    Parallel Node.Like (p.extend e left) (p.extend e left') := by
  apply Parallel.advance.bind
  intro t u ht
  apply (hp.kindOf ht).bind
  rintro kind _ rfl
  cases hr : p.table.infixRule? kind with
  | none => exact .raise (.missingRule _ ht)
  | some rule =>
    apply (hp.run he (hp.table.continuing kind rule hr t u _ left left' ht hl)).bind
    exact fun _ _ hn => parallel_noted hn .left

theorem Indifferent.continued (r : Int) (bound : Nat) {left left' : Node} (hl : left.Like left') :
    Parallel Node.Like (p.continued e r bound left) (p.continued e r bound left') := by
  induction bound generalizing left left' with
  | zero => exact (hp.binds r).bind fun _ _ _ => .pure hl
  | succ bound ih =>
    apply (hp.binds r).bind
    rintro (_ | _) _ rfl
    · exact .pure hl
    · exact (hp.extend he hl).bind fun _ _ => ih

omit hp he in
theorem parallel_nested {m m' : ParseM Node} (r : Int) (h : Parallel Node.Like m m') :
    Parallel Node.Like (p.nested r m) (p.nested r m') := by
  intro s s' hs
  unfold Parser.nested
  rw [← hs.depth]
  split
  · exact ⟨.error (.tooDeep _), hs.input, rfl, hs.classified⟩
  · obtain ⟨ends, after⟩ := h { s with depth := s.depth + 1, log := .enter r :: s.log }
      { s' with depth := s.depth + 1, log := .enter r :: s'.log } ⟨hs.input, rfl, hs.classified⟩
    exact ⟨ends, after.input, congrArg (· - 1) after.depth, after.classified⟩

omit he in
theorem Indifferent.expr (bound : Nat) (r : Int) : Parallel Node.Like (p.expr bound r) (p.expr bound r) := by
  induction bound generalizing r with
  | zero => exact parallel_nested r (Parallel.peek.bind fun _ _ _ => .raise .incomplete)
  | succ bound ih =>
    apply parallel_nested
    apply Parallel.peek.bind
    intro next next' h
    cases h with
    | none => exact .raise .incomplete
    | some _ =>
      apply (hp.start ih).bind
      intro left left' hl
      exact (hp.continued ih r bound hl).bind fun _ _ hn => parallel_noted hn .result

omit he in
theorem Indifferent.perform {R : α → α → Prop} {a a' : Action α} (h : Action.Alike R a a') :
    Parallel R (p.perform a) (p.perform a') := by
  apply Parallel.room.bind
  rintro bound _ rfl
  exact hp.run (hp.expr bound) h

end
end Parser
end BindingPower
