import BindingPower.Grammar.Basic
import BindingPower.Proofs.Input
import BindingPower.Proofs.Scan
import BindingPower.Proofs.Yield

/-! Account of the tokens of an input. Of the tokens that count, those that a computation has taken
are the yield of what it has built, and the others are still to come. -/
namespace BindingPower

/-- A scan without gaps that ends, if anywhere before its text, at a character. -/
structure Scan.Plain (i : Scan) : Prop where
  present : ∀ t ∈ i.tokens, t.present? = some t
  fault : ∀ e, i.fault = some e → ∃ c k, e = .unexpectedCharacter c k

theorem Scan.Plain.suffix {i j : Scan} (h : i.Plain) (us : List Token) (hu : i.tokens = us ++ j.tokens)
    (hf : j.fault = i.fault) : j.Plain :=
  ⟨fun t ht => h.present t (hu ▸ List.mem_append_right us ht), hf ▸ h.fault⟩

theorem ScanRule.plain_scan (rules : List ScanRule) (text : String) : (scan rules text).Plain where
  present := by
    intro t ht
    obtain ⟨kind, value, k, rfl⟩ := lexeme_of_mem_scan ht
    rfl
  fault := fun e he => fault_of_scanFrom he

/-- Of the tokens of a whole input that count, some have been taken, and the others are to come. -/
structure Scan.Split (kept : Token → Bool) (whole : Scan) (taken : List Token) (rest : Scan) : Prop where
  tokens : whole.tokens.filter kept = taken ++ rest.tokens.filter kept
  fault : rest.fault = whole.fault
  plain : rest.Plain

variable {kept : Token → Bool} {place : Token → Placement} {whole : Scan} {taken : List Token}

theorem Scan.Plain.split {i : Scan} (h : i.Plain) : i.Split kept [] i := ⟨rfl, rfl, h⟩

theorem Scan.Split.advance {t : Token} {ts : List Token} {fault : Option ParseError}
    (h : whole.Split kept taken ⟨t :: ts, fault⟩) :
    whole.Split kept (taken ++ [t].filter kept) ⟨ts, fault⟩ where
  tokens := by
    rw [h.tokens, List.append_assoc, ← List.filter_append, List.singleton_append]
  fault := h.fault
  plain := ⟨fun u hu => h.plain.present u (List.mem_cons_of_mem t hu), h.plain.fault⟩

namespace ParseM
variable {α β : Type} {P : Scan → Prop}

/-- What holds of an answer and of the input it leaves; an error has no answer. -/
def Answered (Q : α → Scan → Prop) : Except Failure α → Scan → Prop
  | .ok a, j => Q a j
  | .error _, _ => True

/-- From every input with `P`, a computation that answers comes to `Q`. -/
def Ensures (P : Scan → Prop) (m : ParseM α) (Q : α → Scan → Prop) : Prop :=
  ∀ i, P i → Leads m i (Answered Q)

namespace Ensures
variable {Q : α → Scan → Prop}

theorem weaken {P' : Scan → Prop} {R : α → Scan → Prop} {m : ParseM α} (h : Ensures P m Q)
    (hP : ∀ i, P' i → P i) (hQ : ∀ a j, Q a j → R a j) : Ensures P' m R := by
  intro i hi
  apply (h i (hP i hi)).mono
  rintro (e | a) j hj
  · trivial
  · exact hQ a j hj

theorem and {P' : Scan → Prop} {R : α → Scan → Prop} {m : ParseM α} (h : Ensures P m Q)
    (h' : Ensures P' m R) : Ensures (fun i => P i ∧ P' i) m fun a j => Q a j ∧ R a j := by
  intro i hi
  apply ((h i hi.1).and (h' i hi.2)).mono
  rintro (e | a) j hj
  · trivial
  · exact hj

theorem pure {a : α} (h : ∀ i, P i → Q a i) : Ensures P (Pure.pure a) Q :=
  fun i hi => Leads.pure (h i hi)

theorem throw (e : Failure) : Ensures P (throw e) Q := fun _ _ => Leads.throw trivial

theorem raise (e : ParseError) : Ensures P (ParseM.raise e) Q := throw _

theorem bind {m : ParseM α} {f : α → ParseM β} {R : β → Scan → Prop} (hm : Ensures P m Q)
    (hf : ∀ a, Ensures (Q a) (f a) R) : Ensures P (m >>= f) R := by
  intro i hi
  apply Leads.bind
  apply (hm i hi).mono
  rintro (e | a) j hj
  · trivial
  · exact hf a j hj

theorem record (e : Event) : Ensures P (ParseM.record e) fun _ => P :=
  fun _ hi => Leads.record hi

theorem room : Ensures P ParseM.room fun k j => P j ∧ k = j.tokens.length :=
  fun _ hi => Leads.room ⟨hi, rfl⟩

theorem kindOf_bind {p : Parser} {t : Token} {f : Kind → ParseM α}
    (hf : ∀ asked kind, p.classifier asked t = .ok kind → Ensures P (f kind) Q) :
    Ensures P (p.kindOf t >>= f) Q := by
  intro i hi
  apply Leads.bind
  constructor
  rintro s rfl
  unfold Parser.kindOf
  split
  · exact hf _ _ ‹_› _ hi
  · trivial

theorem nested {m : ParseM Node} {Q : Node → Scan → Prop} (p : Parser) (r : Int) (h : Ensures P m Q) :
    Ensures P (p.nested r m) Q := by
  intro i hi
  constructor
  intro s hs
  unfold Parser.nested
  split
  · trivial
  · exact (h i hi).holds { s with depth := s.depth + 1, log := .enter r :: s.log } hs

end Ensures

/-- What there is at the next token. -/
def Shows (P : Scan → Prop) (t : Option Token) (j : Scan) : Prop :=
  P j ∧ match t with
    | some t => ∃ ts, j.tokens = t :: ts
    | none => j.tokens = [] ∧ j.fault = none

/-- Comparison tells a token from all that count. -/
def Drops (kept : Token → Bool) (expected : Token) : Prop :=
  ∀ t : Token, t.same expected = true → kept t = false

theorem Drops.filter_eq_nil {expected t : Token} (hd : Drops kept expected) (h : t.same expected = true) :
    [t].filter kept = [] := by
  rw [List.filter_cons, hd t h]
  rfl

/-- How a token that does not count was consumed, or the next one was seen to be another. -/
def Consumes (P : Scan → Prop) : Outcome Unit → Scan → Prop
  | .ok (), j => P j
  | .error (.consumeFailed _ found), j => P j ∧ ∃ ts, j.tokens = found :: ts
  | .error .incomplete, j => P j
  | .error _, _ => True

namespace Ensures

theorem peek : Ensures (whole.Split kept taken) ParseM.peek (Shows (whole.Split kept taken)) := by
  rintro ⟨_ | ⟨t, ts⟩, _ | e⟩ hi <;> apply Leads.peek
  · exact ⟨hi, rfl, rfl⟩
  · trivial
  · simp only [Scan.peek, hi.plain.present t (by simp)]
    exact ⟨hi, ts, rfl⟩
  · simp only [Scan.peek, hi.plain.present t (by simp)]
    exact ⟨hi, ts, rfl⟩

theorem advance : Ensures (whole.Split kept taken) ParseM.advance fun t =>
    whole.Split kept (taken ++ [t].filter kept) := by
  rintro ⟨_ | ⟨t, ts⟩, _ | e⟩ hi <;> apply Leads.advance
  · trivial
  · trivial
  · exact hi.advance
  · exact hi.advance

theorem advance_of {t : Token} :
    Ensures (fun i => whole.Split kept taken i ∧ ∃ ts, i.tokens = t :: ts) ParseM.advance fun _ =>
      whole.Split kept (taken ++ [t].filter kept) := by
  rintro ⟨_, fault⟩ ⟨hi, ts, rfl⟩
  exact Leads.advance hi.advance

theorem binds (p : Parser) (r : Int) :
    Ensures (whole.Split kept taken) (p.binds r) fun _ => whole.Split kept taken := by
  apply peek.bind
  rintro (_ | t)
  · exact pure fun i hi => hi.1
  · apply kindOf_bind
    intro asked kind _
    split <;> exact pure fun i hi => hi.1

/-- Consuming a token that does not count takes nothing that counts. -/
theorem outcome_consume {expected : Token} (hd : Drops kept expected) :
    Ensures (whole.Split kept taken) (outcome (ParseM.consume expected))
      (Consumes (whole.Split kept taken)) := by
  rintro ⟨_ | ⟨t, ts⟩, _ | e⟩ hi <;> apply Leads.outcome
  · exact Leads.consume_nil hi
  · obtain ⟨c, k, rfl⟩ := hi.plain.fault e rfl
    exact Leads.consume_fault trivial
  all_goals
    apply Leads.consume_cons (hi.plain.present t (by simp))
    split
    · have := hi.advance
      rw [hd.filter_eq_nil ‹_›, List.append_nil] at this
      exact this
    · exact ⟨hi, ts, rfl⟩

theorem consume {expected : Token} (hd : Drops kept expected) :
    Ensures (whole.Split kept taken) (ParseM.consume expected) fun _ => whole.Split kept taken := by
  intro i hi
  constructor
  intro s hs
  have h := (outcome_consume hd i hi).holds s hs
  unfold ParseM.outcome at h
  rcases hr : ParseM.consume expected s with ⟨(e | d) | a, s'⟩ <;> rw [hr] at h
  · trivial
  · trivial
  · exact h

theorem outcome {m : ParseM α} {Q : α → Scan → Prop} (h : Ensures P m Q) :
    Ensures P (ParseM.outcome m) fun o j => ∀ a, o = .ok a → Q a j := by
  intro i hi
  apply Leads.outcome
  apply (h i hi).mono
  rintro ((e | d) | a) j hj
  · exact fun a h => by cases h
  · trivial
  · rintro a ⟨⟩
    exact hj

/-- The nodes of a sequence are collected only if nothing else is among its outcomes. -/
theorem collect {p : Parser} {e : Int → ParseM Node} {R : List Node → Scan → Prop}
    (outcomes : List (Outcome Node)) :
    Ensures (fun i => ∀ ns, outcomes = ns.map .ok → R ns i) (p.run e (Action.collect outcomes)) R := by
  induction outcomes generalizing R with
  | nil => exact pure fun i hi => hi [] rfl
  | cons o outcomes ih =>
    cases o with
    | error cause => exact raise _
    | ok n =>
      simp only [Action.collect, Parser.run_bind]
      apply bind ((ih (R := fun ns => R (n :: ns))).weaken _ fun _ _ h => h)
      · intro ns
        exact pure fun i hi => hi
      · rintro i hi ns rfl
        exact hi (n :: ns) rfl

/-- What every round of a repetition preserves holds of all its items. -/
theorem rounds {P : List Node → Scan → Prop} {round : ParseM Round}
    (h : ∀ ns, Ensures (P ns) round fun
      | .done => P ns
      | .item n => P (ns ++ [n])
      | .last n => P (ns ++ [n])) (times : Nat) (ns : List Node) :
    Ensures (P ns) (Parser.rounds round times) fun ms => P (ns ++ ms) := by
  induction times generalizing ns with
  | zero => exact pure fun i hi => by simpa using hi
  | succ times ih =>
    apply (h ns).bind
    rintro (_ | n | n)
    · exact pure fun i hi => by simpa using hi
    · apply (ih (ns ++ [n])).bind
      intro ms
      exact pure fun i hi => by simpa using hi
    · exact pure fun i hi => hi

/-- Rounds that shorten the input go on until one of them ends the repetition. -/
theorem rounds_to_end {P : List Node → Scan → Prop} {D : List Node → Scan → Prop}
    {round : ParseM Round}
    (h : ∀ ns k, Ensures (fun i => P ns i ∧ i.tokens.length ≤ k) round fun
      | .done => D ns
      | .item n => fun j => P (ns ++ [n]) j ∧ j.tokens.length < k
      | .last n => D (ns ++ [n])) (times : Nat) (ns : List Node) :
    Ensures (fun i => P ns i ∧ i.tokens.length < times) (Parser.rounds round times) fun ms =>
      D (ns ++ ms) := by
  induction times generalizing ns with
  | zero => exact fun i hi => absurd hi.2 (Nat.not_lt_zero _)
  | succ times ih =>
    apply Ensures.bind ((h ns times).weaken (fun i hi => ⟨hi.1, Nat.le_of_lt_succ hi.2⟩) fun _ _ h => h)
    rintro (_ | n | n)
    · exact pure fun i hi => by simpa using hi
    · apply (ih (ns ++ [n])).bind
      intro ms
      exact pure fun i hi => by simpa using hi
    · exact pure fun i hi => hi

end Ensures

/-- What a computation takes of the tokens that count is the yield of the tree that it answers with. -/
def Conserves (kept : Token → Bool) (place : Token → Placement) (m : ParseM Node) : Prop :=
  ∀ whole taken, Ensures (Scan.Split kept whole taken) m fun n =>
    whole.Split kept (taken ++ n.yield place)

/-- A sequence without errors, up to its closing token, yields what it has taken. -/
theorem Conserves.elements {e : Int → ParseM Node} (he : ∀ r, (e r).Conserves kept place)
    {separator closing : Token} (hs : Drops kept separator) (hc : Drops kept closing) (level : Int)
    (times : Nat) (whole : Scan) (taken : List Token) :
    Ensures (whole.Split kept taken) (Parser.elements e level (some separator) (some closing) times)
      fun outcomes j => ∀ ns, outcomes = ns.map .ok →
        whole.Split kept (taken ++ (Node.yields place ns).flatten) j := by
  induction times generalizing taken with
  | zero =>
    apply Ensures.pure
    rintro i hi (_ | ⟨n, ns⟩) h
    · simpa [Node.yields] using hi
    · cases h
  | succ times ih =>
    simp only [Parser.elements, Parser.closes, pure_bind, Bool.false_eq_true, if_false]
    apply Ensures.bind (he level whole taken).outcome
    rintro (e | n)
    · apply Ensures.pure
      rintro i - (_ | ⟨n, ns⟩) h
      · cases e <;> cases h
      · cases e <;> cases h
    · have here (i : Scan) (hi : ∀ m, Except.ok n = Except.ok (ε := ParseError) m →
          whole.Split kept (taken ++ m.yield place) i) : whole.Split kept (taken ++ n.yield place) i :=
        hi n rfl
      apply Ensures.bind ((Ensures.outcome_consume hs).weaken here fun _ _ h => h)
      rintro ((_ | _ | ⟨expected, found⟩ | _ | _ | _ | _) | _)
      · apply Ensures.pure
        rintro i - (_ | ⟨m, _ | ⟨m', ms⟩⟩) h <;> cases h
      · exact Ensures.raise _
      · dsimp only
        split
        · rename_i found_closing
          apply Ensures.bind Ensures.advance_of
          intro _
          apply Ensures.pure
          rintro i hi (_ | ⟨m, _ | ⟨m', ms⟩⟩) h <;> cases h
          rw [hc.filter_eq_nil (by simpa using found_closing), List.append_nil] at hi
          simpa [Node.yields] using hi
        · apply Ensures.pure
          rintro i - (_ | ⟨m, _ | ⟨m', ms⟩⟩) h <;> cases h
      · exact Ensures.raise _
      · exact Ensures.raise _
      · exact Ensures.raise _
      · exact Ensures.raise _
      · apply (ih (taken ++ n.yield place)).bind
        intro outcomes
        apply Ensures.pure
        rintro i hi (_ | ⟨m, ms⟩) h
        · cases h
        · obtain ⟨hm, rfl⟩ := List.cons.inj h
          obtain rfl : n = m := Except.ok.inj hm
          simpa [Node.yields] using hi ms rfl

end ParseM

/-- A prefix rule that yields the token it was applied to and what it takes after it. -/
def PrefixRule.Conserves (kept : Token → Bool) (place : Token → Placement) (rule : PrefixRule)
    (t : Token) : Prop :=
  ∀ (p : Parser) (e : Int → ParseM Node), (∀ r, (e r).Conserves kept place) → ∀ whole taken,
    ParseM.Ensures (Scan.Split kept whole (taken ++ [t].filter kept))
      (p.run e (rule.action t rule.power)) fun n => whole.Split kept (taken ++ n.yield place)

/-- An infix rule that yields its left operand, the token and what it takes after them. -/
def InfixRule.Conserves (kept : Token → Bool) (place : Token → Placement) (rule : InfixRule)
    (t : Token) : Prop :=
  ∀ (p : Parser) (e : Int → ParseM Node), (∀ r, (e r).Conserves kept place) → ∀ left whole taken,
    ParseM.Ensures (Scan.Split kept whole (taken ++ left.yield place ++ [t].filter kept))
      (p.run e (rule.action t rule.right left)) fun n => whole.Split kept (taken ++ n.yield place)

/-- All rules of a table keep account of what they take. -/
structure RuleTable.Conserves (kept : Token → Bool) (place : Token → Placement)
    (table : RuleTable) : Prop where
  starting : ∀ t rule, table.prefixRule? t.kind = some rule → rule.Conserves kept place t
  continuing : ∀ t rule, table.infixRule? t.kind = some rule → rule.Conserves kept place t

namespace Parser
open ParseM
variable {p : Parser} {e : Int → ParseM Node}

theorem conserves_start (hp : p.table.Conserves kept place) (hk : p.classifier = Classifier.byKind)
    (he : ∀ r, (e r).Conserves kept place) : (p.start e).Conserves kept place := by
  intro whole taken
  apply Ensures.advance.bind
  intro t
  apply Ensures.kindOf_bind
  intro asked kind hkind
  obtain rfl : t.kind = kind := by
    rw [hk] at hkind
    exact Except.ok.inj hkind
  apply (Ensures.record _).bind
  intro _
  split
  · exact Ensures.raise _
  · apply (hp.starting t _ ‹_› p e he whole taken).bind
    intro left
    apply (Ensures.record _).bind
    intro _
    exact Ensures.pure fun i hi => hi

theorem ensures_extend (hp : p.table.Conserves kept place) (hk : p.classifier = Classifier.byKind)
    (he : ∀ r, (e r).Conserves kept place) (left : Node) (whole : Scan) (taken : List Token) :
    Ensures (whole.Split kept (taken ++ left.yield place)) (p.extend e left) fun n =>
      whole.Split kept (taken ++ n.yield place) := by
  apply Ensures.advance.bind
  intro t
  apply Ensures.kindOf_bind
  intro asked kind hkind
  obtain rfl : t.kind = kind := by
    rw [hk] at hkind
    exact Except.ok.inj hkind
  split
  · exact Ensures.raise _
  · apply (hp.continuing t _ ‹_› p e he left whole taken).bind
    intro left
    apply (Ensures.record _).bind
    intro _
    exact Ensures.pure fun i hi => hi

theorem ensures_continued (hp : p.table.Conserves kept place) (hk : p.classifier = Classifier.byKind)
    (he : ∀ r, (e r).Conserves kept place) (r : Int) (bound : Nat) (left : Node) (whole : Scan)
    (taken : List Token) :
    Ensures (whole.Split kept (taken ++ left.yield place)) (p.continued e r bound left) fun n =>
      whole.Split kept (taken ++ n.yield place) := by
  induction bound generalizing left with
  | zero =>
    apply (Ensures.binds p r).bind
    intro _
    exact Ensures.pure fun i hi => hi
  | succ bound ih =>
    apply (Ensures.binds p r).bind
    rintro (_ | _)
    · exact Ensures.pure fun i hi => hi
    · apply (ensures_extend hp hk he left whole taken).bind
      intro left
      exact ih left

/-- An expression yields what it has taken. -/
theorem conserves_expr (hp : p.table.Conserves kept place) (hk : p.classifier = Classifier.byKind)
    (bound : Nat) (r : Int) : (p.expr bound r).Conserves kept place := by
  induction bound generalizing r with
  | zero =>
    intro whole taken
    apply Ensures.nested
    apply Ensures.peek.bind
    intro _
    exact Ensures.raise _
  | succ bound ih =>
    intro whole taken
    apply Ensures.nested
    apply Ensures.peek.bind
    rintro (_ | t)
    · exact Ensures.raise _
    · apply Ensures.bind ((conserves_start hp hk ih whole taken).weaken (fun i hi => hi.1) fun _ _ h => h)
      intro left
      apply (ensures_continued hp hk ih r bound left whole taken).bind
      intro n
      apply (Ensures.record _).bind
      intro _
      exact Ensures.pure fun i hi => hi

theorem conserves_reading (hp : p.table.Conserves kept place) (hk : p.classifier = Classifier.byKind)
    (r : Int) : (p.reading r).Conserves kept place :=
  fun whole taken i hi => ⟨fun s hs => (conserves_expr hp hk s.room r whole taken i hi).holds s hs⟩

theorem ensures_shorter (p : Parser) (r : Int) (k : Nat) :
    Ensures (fun i => i.tokens.length ≤ k) (p.reading r) fun _ j => j.tokens.length < k := by
  intro i hi
  constructor
  rintro s rfl
  rcases h : p.reading r s with ⟨e | n, s'⟩
  · trivial
  · have less := room_reading_lt (p := p) (r := r) (s := s) (by rw [h])
    rw [h, Progress.room_eq, Progress.room_eq] at less
    exact Nat.lt_of_lt_of_le less hi

theorem ensures_no_longer {α : Type} (p : Parser) (a : Action α) (k : Nat) :
    Ensures (fun i => i.tokens.length < k) (p.run p.reading a) fun _ j => j.tokens.length < k := by
  intro i hi
  constructor
  rintro s rfl
  have less := p.room_run_le a s
  rw [Progress.room_eq, Progress.room_eq] at less
  rcases h : p.run p.reading a s with ⟨e | n, s'⟩ <;> rw [h] at less
  · trivial
  · exact Nat.lt_of_le_of_lt less hi

end Parser
end BindingPower
