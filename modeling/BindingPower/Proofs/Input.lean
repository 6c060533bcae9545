import BindingPower.Proofs.Bound

/-! What a parse depends on: the tokens still to come and the error they end in. `Leads` says what
holds of the answer of a computation and of the input it leaves; it has one rule for each thing a
parser does. -/
namespace BindingPower

namespace ParseM
variable {α β : Type} {i : Scan} {Q : Except Failure α → Scan → Prop}

/-- Wherever a computation starts on an input, its answer and the input it leaves satisfy `Q`. -/
structure Leads (m : ParseM α) (i : Scan) (Q : Except Failure α → Scan → Prop) : Prop where
  holds : ∀ s, s.input = i → Q (m s).1 (m s).2.input

/-- What must hold after a computation for the next one to lead on. -/
def Onward (f : α → ParseM β) (Q : Except Failure β → Scan → Prop) :
    Except Failure α → Scan → Prop
  | .ok a, j => Leads (f a) j Q
  | .error e, j => Q (.error e) j

/-- What must hold after a computation whose errors are caught. -/
def Caught (Q : Except Failure (Outcome α) → Scan → Prop) : Except Failure α → Scan → Prop
  | .ok a, j => Q (.ok (.ok a)) j
  | .error (.error e), j => Q (.ok (.error e)) j
  | .error (.defect d), j => Q (.error (.defect d)) j

/-- What holds of an answer and of the input it leaves, where the only other end is an error of the
input. -/
def Orderly (R : α → Scan → Prop) : Except Failure α → Scan → Prop
  | .ok a, j => R a j
  | .error (.error _), _ => True
  | .error (.defect _), _ => False

namespace Leads

theorem mono {m : ParseM α} {R : Except Failure α → Scan → Prop} (h : Leads m i R)
    (hQ : ∀ r j, R r j → Q r j) : Leads m i Q :=
  ⟨fun s hs => hQ _ _ (h.holds s hs)⟩

theorem and {m : ParseM α} {R : Except Failure α → Scan → Prop} (h : Leads m i Q) (h' : Leads m i R) :
    Leads m i fun r j => Q r j ∧ R r j :=
  ⟨fun s hs => ⟨h.holds s hs, h'.holds s hs⟩⟩

theorem pure {a : α} (h : Q (.ok a) i) : Leads (Pure.pure a) i Q := by
  constructor
  rintro s rfl
  exact h

theorem throw {e : Failure} (h : Q (.error e) i) : Leads (throw e) i Q := by
  constructor
  rintro s rfl
  exact h

theorem raise {e : ParseError} (h : Q (.error (.error e)) i) : Leads (ParseM.raise e) i Q := throw h

theorem bind {m : ParseM α} {f : α → ParseM β} {Q : Except Failure β → Scan → Prop}
    (h : Leads m i (Onward f Q)) : Leads (m >>= f) i Q := by
  constructor
  intro s hs
  have hm := h.holds s hs
  rw [bind_apply]
  rcases hr : m s with ⟨e | a, s'⟩ <;> rw [hr] at hm
  · exact hm
  · exact hm.holds s' rfl

theorem onward {m : ParseM α} {f : α → ParseM β} {R : α → Scan → Prop} {S : β → Scan → Prop}
    (h : Leads m i (Orderly R)) (hf : ∀ a j, R a j → Leads (f a) j (Orderly S)) :
    Leads m i (Onward f (Orderly S)) := by
  apply h.mono
  rintro ((e | d) | a) j hj
  · trivial
  · exact hj
  · exact hf a j hj

theorem outcome {m : ParseM α} {Q : Except Failure (Outcome α) → Scan → Prop}
    (h : Leads m i (Caught Q)) : Leads (ParseM.outcome m) i Q := by
  constructor
  intro s hs
  have hm := h.holds s hs
  unfold ParseM.outcome
  rcases hr : m s with ⟨(cause | cause) | a, s'⟩ <;> rw [hr] at hm <;> exact hm

theorem record {e : Event} {Q : Except Failure Unit → Scan → Prop} (h : Q (.ok ()) i) :
    Leads (ParseM.record e) i Q := by
  constructor
  rintro s rfl
  exact h

theorem room {Q : Except Failure Nat → Scan → Prop} (h : Q (.ok i.tokens.length) i) :
    Leads ParseM.room i Q := by
  constructor
  rintro s rfl
  rw [← Progress.room_eq] at h
  exact h

theorem peek {Q : Except Failure (Option Token) → Scan → Prop}
    (h : Q (i.peek.1.mapError .error) i.peek.2) : Leads ParseM.peek i Q := by
  constructor
  rintro s rfl
  obtain ⟨ha, hi⟩ := peek_eq s
  rw [ha, hi]
  exact h

theorem advance {Q : Except Failure Token → Scan → Prop}
    (h : Q (i.advance.1.mapError .error) i.advance.2) : Leads ParseM.advance i Q := by
  constructor
  rintro s rfl
  obtain ⟨ha, hi⟩ := advance_eq s
  rw [ha, hi]
  exact h

theorem peek_cons {t : Token} {ts : List Token} {fault : Option ParseError}
    {Q : Except Failure (Option Token) → Scan → Prop} (ht : t.present? = some t)
    (h : Q (.ok (some t)) ⟨t :: ts, fault⟩) : Leads ParseM.peek ⟨t :: ts, fault⟩ Q := by
  apply peek
  change Q (.ok t.present?) ⟨t :: ts, fault⟩
  rw [ht]
  exact h

/-- A token that has to come next: the end of the input and another token are different errors. -/
theorem consume_cons {expected t : Token} {ts : List Token} {fault : Option ParseError}
    {Q : Except Failure Unit → Scan → Prop} (ht : t.present? = some t)
    (h : if t.same expected then Q (.ok ()) ⟨ts, fault⟩
      else Q (.error (.error (.consumeFailed expected t))) ⟨t :: ts, fault⟩) :
    Leads (consume expected) ⟨t :: ts, fault⟩ Q := by
  apply bind
  apply peek_cons ht
  change Leads (if t.same expected then _ else _) _ Q
  split at h
  · rw [if_pos ‹_›]
    exact bind (advance (pure h))
  · rw [if_neg ‹_›]
    exact raise h

theorem consume_nil {expected : Token} {Q : Except Failure Unit → Scan → Prop}
    (h : Q (.error (.error .incomplete)) ⟨[], none⟩) : Leads (consume expected) ⟨[], none⟩ Q :=
  bind (peek (raise h))

theorem consume_fault {expected : Token} {e : ParseError} {Q : Except Failure Unit → Scan → Prop}
    (h : Q (.error (.error e)) ⟨[], none⟩) : Leads (consume expected) ⟨[], some e⟩ Q :=
  bind (peek h)

end Leads
end ParseM

namespace Parser
open ParseM

/-- A parser without a limit that classifies every token of a certain sort, and always alike. -/
structure Steady (p : Parser) (kindOf : Token → Kind) (Regular : Token → Prop) : Prop where
  unlimited : p.limit = none
  classified : ∀ asked t, Regular t → p.classifier asked t = .ok (kindOf t)
  present : ∀ t, Regular t → t.present? = some t

end Parser

/-- No infix rule of the next token takes what stands before it at a threshold. -/
def RuleTable.StopsAt (table : RuleTable) (kindOf : Token → Kind) (threshold : Int)
    (ts : List Token) : Prop :=
  ∀ t ∈ ts.head?, ∀ rule, table.infixRule? (kindOf t) = some rule → rule.left ≤ threshold

theorem RuleTable.StopsAt.any_eq_false {table : RuleTable} {kindOf : Token → Kind} {r : Int} {t : Token}
    {ts : List Token} (h : table.StopsAt kindOf r (t :: ts)) :
    (table.infixRule? (kindOf t)).any (r < ·.left) = false := by
  cases hr : table.infixRule? (kindOf t) with
  | none => rfl
  | some rule =>
    have low := h t rfl rule hr
    simpa using low

namespace Parser
open ParseM
variable {p : Parser} {kindOf : Token → Kind} {Regular : Token → Prop} {r : Int} {t : Token}
  {ts : List Token} {fault : Option ParseError} {i : Scan}

theorem Steady.leads_kindOf (hp : p.Steady kindOf Regular) (ht : Regular t)
    {Q : Except Failure Kind → Scan → Prop} (h : Q (.ok (kindOf t)) i) : Leads (p.kindOf t) i Q := by
  constructor
  rintro s rfl
  unfold Parser.kindOf
  rw [hp.classified _ _ ht]
  exact h

theorem Steady.leads_nested (hp : p.Steady kindOf Regular) {m : ParseM Node}
    {Q : Except Failure Node → Scan → Prop} (h : Leads m i Q) : Leads (p.nested r m) i Q := by
  constructor
  intro s hs
  have := h.holds { s with depth := s.depth + 1, log := .enter r :: s.log } hs
  simp only [nested, hp.unlimited, Option.any_none, Bool.false_eq_true, if_false]
  exact this

/-- The next token is taken iff its infix rule binds tighter than the threshold. -/
theorem Steady.leads_binds (hp : p.Steady kindOf Regular) (ht : Regular t)
    {Q : Except Failure Bool → Scan → Prop}
    (h : Q (.ok ((p.table.infixRule? (kindOf t)).any (r < ·.left))) ⟨t :: ts, fault⟩) :
    Leads (p.binds r) ⟨t :: ts, fault⟩ Q := by
  apply Leads.bind
  apply Leads.peek_cons (hp.present t ht)
  apply Leads.bind
  apply hp.leads_kindOf ht
  simp only [Onward]
  cases hr : p.table.infixRule? (kindOf t) <;> rw [hr] at h <;> exact Leads.pure h

theorem Steady.leads_start (hp : p.Steady kindOf Regular) (ht : Regular t) {rule : PrefixRule}
    (hr : p.table.prefixRule? (kindOf t) = some rule) {Q : Except Failure Node → Scan → Prop}
    (h : Leads (p.run p.reading (rule.action t rule.power)) ⟨ts, fault⟩ Q) :
    Leads (p.start p.reading) ⟨t :: ts, fault⟩ Q := by
  apply Leads.bind
  apply Leads.advance
  apply Leads.bind
  apply hp.leads_kindOf ht
  apply Leads.bind
  apply Leads.record
  simp only [Onward, hr]
  apply Leads.bind
  apply h.mono
  rintro (e | left) j hj
  · exact hj
  · exact Leads.bind (Leads.record (Leads.pure hj))

theorem Steady.leads_start_missing (hp : p.Steady kindOf Regular) (ht : Regular t)
    (hr : p.table.prefixRule? (kindOf t) = none) {Q : Except Failure Node → Scan → Prop}
    (h : Q (.error (.error (.missingRule t .starting))) ⟨ts, fault⟩) :
    Leads (p.start p.reading) ⟨t :: ts, fault⟩ Q := by
  apply Leads.bind
  apply Leads.advance
  apply Leads.bind
  apply hp.leads_kindOf ht
  apply Leads.bind
  apply Leads.record
  simp only [Onward, hr]
  exact Leads.raise h

theorem Steady.leads_extend (hp : p.Steady kindOf Regular) (ht : Regular t) {rule : InfixRule}
    (hr : p.table.infixRule? (kindOf t) = some rule) {left : Node}
    {Q : Except Failure Node → Scan → Prop}
    (h : Leads (p.run p.reading (rule.action t rule.right left)) ⟨ts, fault⟩ Q) :
    Leads (p.extend p.reading left) ⟨t :: ts, fault⟩ Q := by
  apply Leads.bind
  apply Leads.advance
  apply Leads.bind
  apply hp.leads_kindOf ht
  simp only [Onward, hr]
  apply Leads.bind
  apply h.mono
  rintro (e | left) j hj
  · exact hj
  · exact Leads.bind (Leads.record (Leads.pure hj))

/-- An expression starts with its first token's prefix rule and goes on with infix rules. -/
theorem Steady.leads_reading (hp : p.Steady kindOf Regular) (ht : Regular t)
    {Q : Except Failure Node → Scan → Prop}
    (h : Leads (p.start p.reading) ⟨t :: ts, fault⟩ (Onward (p.extending r) Q)) :
    Leads (p.reading r) ⟨t :: ts, fault⟩ Q := by
  rw [reading_eq]
  apply hp.leads_nested
  apply Leads.bind
  apply Leads.peek_cons (hp.present t ht)
  apply Leads.bind
  apply h.mono
  rintro (e | left) j hj
  · exact hj
  · apply Leads.bind
    apply Leads.mono hj
    rintro (e | n) k hk
    · exact hk
    · exact Leads.bind (Leads.record (Leads.pure hk))

theorem Steady.leads_reading_nil (hp : p.Steady kindOf Regular)
    {Q : Except Failure Node → Scan → Prop} (h : Q (.error (.error .incomplete)) ⟨[], none⟩) :
    Leads (p.reading r) ⟨[], none⟩ Q := by
  rw [reading_eq]
  exact hp.leads_nested (Leads.bind (Leads.peek (Leads.raise h)))

theorem Steady.leads_extending_step (hp : p.Steady kindOf Regular) (ht : Regular t)
    {rule : InfixRule} (hr : p.table.infixRule? (kindOf t) = some rule) (hl : r < rule.left)
    {left : Node} {Q : Except Failure Node → Scan → Prop}
    (h : Leads (p.run p.reading (rule.action t rule.right left)) ⟨ts, fault⟩
      (Onward (p.extending r) Q)) :
    Leads (p.extending r left) ⟨t :: ts, fault⟩ Q := by
  rw [extending_eq]
  apply Leads.bind
  apply hp.leads_binds ht
  simp only [hr, Option.any_some, hl, decide_true]
  exact Leads.bind (hp.leads_extend ht hr h)

/-- An error that the tokens end in is the error of an expression that has to start there. -/
theorem Steady.leads_reading_fault (hp : p.Steady kindOf Regular) {e : ParseError}
    {Q : Except Failure Node → Scan → Prop} (h : Q (.error (.error e)) ⟨[], none⟩) :
    Leads (p.reading r) ⟨[], some e⟩ Q := by
  rw [reading_eq]
  exact hp.leads_nested (Leads.bind (Leads.peek h))

theorem leads_extending_fault {e : ParseError} {left : Node} {Q : Except Failure Node → Scan → Prop}
    (h : Q (.error (.error e)) ⟨[], none⟩) : Leads (p.extending r left) ⟨[], some e⟩ Q := by
  rw [extending_eq]
  exact Leads.bind (Leads.bind (Leads.peek h))

theorem leads_extending_nil {left : Node} {Q : Except Failure Node → Scan → Prop}
    (h : Q (.ok left) ⟨[], none⟩) : Leads (p.extending r left) ⟨[], none⟩ Q := by
  rw [extending_eq]
  exact Leads.bind (Leads.bind (Leads.peek (Leads.pure (Leads.pure h))))

theorem Steady.leads_extending_stop_cons (hp : p.Steady kindOf Regular) (ht : Regular t)
    (hs : ∀ rule, p.table.infixRule? (kindOf t) = some rule → rule.left ≤ r) {left : Node}
    {Q : Except Failure Node → Scan → Prop} (h : Q (.ok left) ⟨t :: ts, fault⟩) :
    Leads (p.extending r left) ⟨t :: ts, fault⟩ Q := by
  have stops : p.table.StopsAt kindOf r (t :: ts) := by
    rintro _ ⟨⟩
    exact hs
  rw [extending_eq]
  apply Leads.bind
  apply hp.leads_binds ht
  rw [stops.any_eq_false]
  exact Leads.pure h

theorem Steady.leads_extending_stop (hp : p.Steady kindOf Regular) (hts : ∀ t ∈ ts.head?, Regular t)
    (hs : p.table.StopsAt kindOf r ts) {left : Node} {Q : Except Failure Node → Scan → Prop}
    (h : Q (.ok left) ⟨ts, none⟩) : Leads (p.extending r left) ⟨ts, none⟩ Q := by
  cases ts with
  | nil => exact leads_extending_nil h
  | cons t ts => exact hp.leads_extending_stop_cons (hts t rfl) (hs t rfl) h

section Operators
variable {Q : Except Failure Node → Scan → Prop} {power left right : Int} {n : Node}

theorem Steady.leads_reading_leaf (hp : p.Steady kindOf Regular) (ht : Regular t)
    (hr : p.table.prefixRule? (kindOf t) = some (.leaf power))
    (h : Leads (p.extending r (.leaf t)) ⟨ts, fault⟩ Q) : Leads (p.reading r) ⟨t :: ts, fault⟩ Q :=
  hp.leads_reading ht (hp.leads_start ht hr (Leads.pure h))

theorem Steady.leads_reading_unary (hp : p.Steady kindOf Regular) (ht : Regular t)
    (hr : p.table.prefixRule? (kindOf t) = some (.unary power))
    (h : Leads (p.reading power) ⟨ts, fault⟩ (Onward (fun n => p.extending r (.branch t [n])) Q)) :
    Leads (p.reading r) ⟨t :: ts, fault⟩ Q := by
  apply hp.leads_reading ht
  apply hp.leads_start ht hr
  simp only [PrefixRule.unary, run_bind, run_expr]
  apply Leads.bind
  apply h.mono
  rintro (e | n) j hj
  · exact hj
  · exact Leads.pure hj

theorem Steady.leads_extending_binary (hp : p.Steady kindOf Regular) (ht : Regular t)
    (hr : p.table.infixRule? (kindOf t) = some (.binary left right)) (hl : r < left)
    (h : Leads (p.reading right) ⟨ts, fault⟩ (Onward (fun m => p.extending r (.branch t [n, m])) Q)) :
    Leads (p.extending r n) ⟨t :: ts, fault⟩ Q := by
  apply hp.leads_extending_step ht hr hl
  simp only [InfixRule.binary, run_bind, run_expr]
  apply Leads.bind
  apply h.mono
  rintro (e | m) j hj
  · exact hj
  · exact Leads.pure hj

end Operators

end Parser
end BindingPower
