import BindingPower.Proofs.Course
import BindingPower.Proofs.Input

/-! How deep a parse nests. A parser with a limit counts the expressions that are open; what holds of its
answers depends on how many they are where it starts, and there it also ends. -/
namespace BindingPower

namespace ParseM
variable {α β : Type} {i : Scan} {k : Nat} {Q : Except Failure α → Scan → Prop}

/-- Wherever a computation starts on an input with so many expressions open, its answer and the input it
leaves satisfy `Q`, and as many are open then. -/
structure LeadsAt (k : Nat) (m : ParseM α) (i : Scan) (Q : Except Failure α → Scan → Prop) : Prop where
  holds : ∀ s, s.input = i → s.depth = k → Q (m s).1 (m s).2.input ∧ (m s).2.depth = k

/-- What must hold after a computation for the next one to lead on. -/
def OnwardAt (k : Nat) (f : α → ParseM β) (Q : Except Failure β → Scan → Prop) :
    Except Failure α → Scan → Prop
  | .ok a, j => LeadsAt k (f a) j Q
  | .error e, j => Q (.error e) j

namespace LeadsAt

theorem mono {m : ParseM α} {R : Except Failure α → Scan → Prop} (h : LeadsAt k m i R)
    (hQ : ∀ r j, R r j → Q r j) : LeadsAt k m i Q :=
  ⟨fun s hs hk => ⟨hQ _ _ (h.holds s hs hk).1, (h.holds s hs hk).2⟩⟩

/-- What opens no expressions leads on wherever it does so without regard to them. -/
theorem of_leads {m : ParseM α} (h : Leads m i Q) (kept : Moves (fun s s' => s'.depth = s.depth) m) :
    LeadsAt k m i Q :=
  ⟨fun s hs hk => ⟨h.holds s hs, (kept s).trans hk⟩⟩

theorem pure {a : α} (h : Q (.ok a) i) : LeadsAt k (Pure.pure a) i Q := of_leads (Leads.pure h) fun _ => rfl

theorem record {e : Event} {Q : Except Failure Unit → Scan → Prop} (h : Q (.ok ()) i) :
    LeadsAt k (ParseM.record e) i Q := of_leads (Leads.record h) fun _ => rfl

theorem bind {m : ParseM α} {f : α → ParseM β} {Q : Except Failure β → Scan → Prop}
    (h : LeadsAt k m i (OnwardAt k f Q)) : LeadsAt k (m >>= f) i Q := by
  constructor
  intro s hs hk
  obtain ⟨hm, kept⟩ := h.holds s hs hk
  rw [bind_apply]
  rcases hr : m s with ⟨e | a, s'⟩ <;> rw [hr] at hm kept
  · exact ⟨hm, kept⟩
  · exact hm.holds s' rfl kept

end LeadsAt
end ParseM

namespace Parser
open ParseM

/-- The parser with a limit to the expressions that are open at once. -/
def limited (p : Parser) (limit : Int) : Parser := { p with limit := some limit }

variable {p : Parser} {kindOf : Token → Kind} {Regular : Token → Prop} {r limit : Int} {t : Token}
  {ts : List Token} {fault : Option ParseError} {k : Nat} {Q : Except Failure Node → Scan → Prop}

theorem leadsAt_nested {m : ParseM Node} {i : Scan} (below : (k : Int) < limit → LeadsAt (k + 1) m i Q)
    (full : limit ≤ k → Q (.error (.error (.tooDeep limit))) i) :
    LeadsAt k ((p.limited limit).nested r m) i Q := by
  constructor
  rintro s hs rfl
  by_cases h : limit ≤ (s.depth : Int)
  · have refused : ((p.limited limit).limit.any fun limit => limit ≤ (s.depth : Int)) = true := by
      simpa [limited] using h
    rw [nested, if_pos refused]
    exact ⟨hs ▸ full h, rfl⟩
  · have opened : ¬((p.limited limit).limit.any fun limit => limit ≤ (s.depth : Int)) = true := by
      simpa [limited] using h
    obtain ⟨holds, kept⟩ := (below (by omega)).holds
      { s with depth := s.depth + 1, log := .enter r :: s.log } hs rfl
    rw [nested, if_neg opened]
    exact ⟨holds, congrArg (· - 1) kept⟩

namespace Steady
variable (hp : p.Steady kindOf Regular) (ht : Regular t)
include hp ht

theorem leadsAt_kindOf {Q : Except Failure Kind → Scan → Prop} {i : Scan} (h : Q (.ok (kindOf t)) i) :
    LeadsAt k ((p.limited limit).kindOf t) i Q :=
  .of_leads (hp.leads_kindOf ht h) ((p.limited limit).respects_depth.kindOf t)

theorem leadsAt_start {rule : PrefixRule} (hr : p.table.prefixRule? (kindOf t) = some rule)
    (h : LeadsAt k ((p.limited limit).run (p.limited limit).reading (rule.action t rule.power))
      ⟨ts, fault⟩ Q) :
    LeadsAt k ((p.limited limit).start (p.limited limit).reading) ⟨t :: ts, fault⟩ Q := by
  have kept := (p.limited limit).respects_depth
  apply LeadsAt.bind
  apply LeadsAt.of_leads _ kept.advance
  apply Leads.advance
  apply LeadsAt.bind
  apply hp.leadsAt_kindOf ht
  apply LeadsAt.bind
  apply LeadsAt.record
  simp only [OnwardAt, limited, hr]
  apply LeadsAt.bind
  apply h.mono
  rintro (e | left) j hj
  · exact hj
  · exact LeadsAt.bind (LeadsAt.record (LeadsAt.pure hj))

/-- An expression is opened where the limit allows, starts with its first token's prefix rule and goes on
with infix rules. -/
theorem leadsAt_reading
    (below : (k : Int) < limit → LeadsAt (k + 1) ((p.limited limit).start (p.limited limit).reading)
      ⟨t :: ts, fault⟩ (OnwardAt (k + 1) ((p.limited limit).extending r) Q))
    (full : limit ≤ k → Q (.error (.error (.tooDeep limit))) ⟨t :: ts, fault⟩) :
    LeadsAt k ((p.limited limit).reading r) ⟨t :: ts, fault⟩ Q := by
  rw [reading_eq]
  apply leadsAt_nested _ full
  intro open'
  apply LeadsAt.bind
  apply LeadsAt.of_leads _ (p.limited limit).respects_depth.peek
  apply Leads.peek_cons (hp.present t ht)
  apply LeadsAt.bind
  apply (below open').mono
  rintro (e | left) j hj
  · exact hj
  · apply LeadsAt.bind
    apply LeadsAt.mono hj
    rintro (e | n) i hn
    · exact hn
    · exact LeadsAt.bind (LeadsAt.record (LeadsAt.pure hn))

theorem leadsAt_extending_step {rule : InfixRule} (hr : p.table.infixRule? (kindOf t) = some rule)
    (hl : r < rule.left) {left : Node}
    (h : LeadsAt k ((p.limited limit).run (p.limited limit).reading (rule.action t rule.right left))
      ⟨ts, fault⟩ (OnwardAt k ((p.limited limit).extending r) Q)) :
    LeadsAt k ((p.limited limit).extending r left) ⟨t :: ts, fault⟩ Q := by
  have kept := (p.limited limit).respects_depth
  rw [extending_eq]
  apply LeadsAt.bind
  apply LeadsAt.of_leads _ (kept.pervasive.toClosed.binds r)
  apply hp.leads_binds ht
  simp only [hr, Option.any_some, hl, decide_true]
  apply LeadsAt.bind
  apply LeadsAt.bind
  apply LeadsAt.of_leads _ kept.advance
  apply Leads.advance
  apply LeadsAt.bind
  apply hp.leadsAt_kindOf ht
  simp only [OnwardAt, limited, hr]
  apply LeadsAt.bind
  apply h.mono
  rintro (e | left) j hj
  · exact hj
  · exact LeadsAt.bind (LeadsAt.record (LeadsAt.pure hj))

end Steady

theorem Steady.leadsAt_extending_stop (hp : p.Steady kindOf Regular) (hts : ∀ t ∈ ts.head?, Regular t)
    (hs : p.table.StopsAt kindOf r ts) {left : Node} (h : Q (.ok left) ⟨ts, none⟩) :
    LeadsAt k ((p.limited limit).extending r left) ⟨ts, none⟩ Q := by
  have kept := (p.limited limit).respects_depth.pervasive
  cases ts with
  | nil => exact .of_leads (leads_extending_nil h) (kept.extending r left)
  | cons t ts =>
    rw [extending_eq]
    apply LeadsAt.bind
    apply LeadsAt.of_leads _ (kept.toClosed.binds r)
    apply hp.leads_binds (hts t rfl)
    rw [hs.any_eq_false]
    exact LeadsAt.pure h

section Operators
variable {power left right : Int} {n : Node}

theorem Steady.leadsAt_reading_leaf (hp : p.Steady kindOf Regular) (ht : Regular t)
    (hr : p.table.prefixRule? (kindOf t) = some (.leaf power))
    (below : (k : Int) < limit → LeadsAt (k + 1) ((p.limited limit).extending r (.leaf t)) ⟨ts, fault⟩ Q)
    (full : limit ≤ k → Q (.error (.error (.tooDeep limit))) ⟨t :: ts, fault⟩) :
    LeadsAt k ((p.limited limit).reading r) ⟨t :: ts, fault⟩ Q :=
  hp.leadsAt_reading ht (fun h => hp.leadsAt_start ht hr (LeadsAt.pure (below h))) full

theorem Steady.leadsAt_reading_unary (hp : p.Steady kindOf Regular) (ht : Regular t)
    (hr : p.table.prefixRule? (kindOf t) = some (.unary power))
    (below : (k : Int) < limit → LeadsAt (k + 1) ((p.limited limit).reading power) ⟨ts, fault⟩
      (OnwardAt (k + 1) (fun n => (p.limited limit).extending r (.branch t [n])) Q))
    (full : limit ≤ k → Q (.error (.error (.tooDeep limit))) ⟨t :: ts, fault⟩) :
    LeadsAt k ((p.limited limit).reading r) ⟨t :: ts, fault⟩ Q := by
  apply hp.leadsAt_reading ht _ full
  intro open'
  apply hp.leadsAt_start ht hr
  simp only [PrefixRule.unary, run_bind, run_expr]
  apply LeadsAt.bind
  apply (below open').mono
  rintro (e | n) j hj
  · exact hj
  · exact LeadsAt.pure hj

theorem Steady.leadsAt_extending_binary (hp : p.Steady kindOf Regular) (ht : Regular t)
    (hr : p.table.infixRule? (kindOf t) = some (.binary left right)) (hl : r < left)
    (h : LeadsAt k ((p.limited limit).reading right) ⟨ts, fault⟩
      (OnwardAt k (fun m => (p.limited limit).extending r (.branch t [n, m])) Q)) :
    LeadsAt k ((p.limited limit).extending r n) ⟨t :: ts, fault⟩ Q := by
  apply hp.leadsAt_extending_step ht hr hl
  simp only [InfixRule.binary, run_bind, run_expr]
  apply LeadsAt.bind
  apply h.mono
  rintro (e | m) j hj
  · exact hj
  · exact LeadsAt.pure hj

end Operators

end Parser
end BindingPower
