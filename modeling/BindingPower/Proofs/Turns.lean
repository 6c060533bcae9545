import BindingPower.Proofs.Yielding

/-! The parser with loops that nothing bounds but a number of turns, which is given in advance. A loop or a
nesting of expressions that has no turn left has no outcome at all. With more turns than tokens none gets
there, and the outcome is the one that the parser comes to. -/
namespace BindingPower
open ParseM

/-- Computations that may run out of turns. -/
abbrev TimedM := ExceptT Failure (StateT Progress Option)

namespace TimedM
variable {α β : Type}

def outOfTurns : TimedM α := fun _ => none

/-- A computation in which nothing is repeated. -/
def timely (m : ParseM α) : TimedM α := fun s => some (m s)

def outcome (m : TimedM α) : TimedM (Outcome α) := fun s =>
  (m s).map fun ended => ParseM.outcome (fun _ => ended) s

theorem bind_apply (t : TimedM α) (f : α → TimedM β) (s : Progress) :
    (t >>= f) s = match t s with
      | some (.ok a, s') => f a s'
      | some (.error e, s') => some (.error e, s')
      | none => none := by
  change (t s).bind (fun x => ExceptT.bindCont f x.1 x.2) = _
  rcases t s with _ | ⟨e | a, s'⟩ <;> rfl

end TimedM

namespace Parser.Timed
open TimedM

def elements (expr : Int → TimedM Node) (level : Int) (separator closing : Option Token) :
    (turns : Nat) → TimedM (List (Outcome Node))
  | 0 => outOfTurns
  | turns + 1 => do
    if ← timely (closes separator closing) then
      let _ ← timely advance
      return []
    else
      match ← outcome (expr level) with
      | .error e => return ending closing e
      | .ok n =>
        match separator with
        | none => return .ok n :: (← elements expr level none closing turns)
        | some separator =>
          match ← timely (ParseM.outcome (consume separator)) with
          | .ok () => return .ok n :: (← elements expr level (some separator) closing turns)
          | .error .incomplete => return .ok n :: ending closing .incomplete
          | .error (.consumeFailed expected found) =>
            if closing.any found.same then
              let _ ← timely advance
              return [.ok n]
            else return [.ok n, .error (.consumeFailed expected found)]
          | .error e => timely (raise e)

def rounds (round : TimedM Round) : (turns : Nat) → TimedM (List Node)
  | 0 => outOfTurns
  | turns + 1 => do
    match ← round with
    | .done => return []
    | .last item => return [item]
    | .item item => return item :: (← rounds round turns)

variable (p : Parser)

def answer (turns : Nat) (expr : Int → TimedM Node) : (q : Request) → TimedM q.Answer
  | .peek => timely peek
  | .binds threshold => timely (p.binds threshold)
  | .expr threshold => expr threshold
  | .consume expected => timely (consume expected)
  | .sequence level separator closing => elements expr level separator closing turns

def run (turns : Nat) (expr : Int → TimedM Node) {α : Type} : Action α → TimedM α
  | .give a => pure a
  | .fail cause => throw cause
  | .ask q next => do
    let a ← outcome (answer p turns expr q)
    run turns expr (next a)
  | .gather round next => do
    let items ← outcome (rounds (run turns expr round) turns)
    run turns expr (next items)

def start (turns : Nat) (expr : Int → TimedM Node) : TimedM Node := do
  let t ← timely advance
  let kind ← timely (p.kindOf t)
  timely (record (.classify t kind))
  match p.table.prefixRule? kind with
  | none => timely (raise (.missingRule t .starting))
  | some rule =>
    let left ← run p turns expr (rule.action t rule.power)
    timely (record (.left left))
    return left

def extend (turns : Nat) (expr : Int → TimedM Node) (left : Node) : TimedM Node := do
  let t ← timely advance
  match p.table.infixRule? (← timely (p.kindOf t)) with
  | none => timely (raise (.missingRule t .continuing))
  | some rule =>
    let left ← run p turns expr (rule.action t rule.right left)
    timely (record (.left left))
    return left

def continued (most : Nat) (expr : Int → TimedM Node) (threshold : Int) :
    (turns : Nat) → Node → TimedM Node
  | 0, _ => outOfTurns
  | turns + 1, left => do
    if ← timely (p.binds threshold) then
      let left ← extend p most expr left
      continued most expr threshold turns left
    else return left

def nested (threshold : Int) (body : TimedM Node) : TimedM Node := fun s =>
  if p.limit.any fun limit => limit ≤ (s.depth : Int) then
    some (.error (.error (.tooDeep (p.limit.getD 0))), { s with log := .refuse threshold :: s.log })
  else
    (body { s with depth := s.depth + 1, log := .enter threshold :: s.log }).map fun (r, s) =>
      (r, { s with depth := s.depth - 1, log := .leave :: s.log })

/-- An expression nested no deeper than there are turns, with loops of no more turns than that. -/
def expr : (turns : Nat) → (threshold : Int) → TimedM Node
  | 0, _ => outOfTurns
  | turns + 1, threshold => nested p threshold do
    match ← timely peek with
    | none => timely (raise .incomplete)
    | some _ =>
      let left ← start p turns (expr turns)
      let n ← continued p turns (expr turns) threshold turns left
      timely (record (.result n))
      return n

def perform {α : Type} (turns : Nat) (action : Action α) : TimedM α :=
  run p turns (expr p turns) action

end Parser.Timed

namespace TimedM
variable {α β : Type}

/-- While fewer than `k` tokens are to come, a timed computation ends, and ends like one of the parser,
which brings no token back. -/
def Settles (k : Nat) (t : TimedM α) (m : ParseM α) : Prop :=
  ∀ s, s.room < k → t s = some (m s) ∧ (m s).2.room ≤ s.room

namespace Settles
variable {k : Nat} {t : TimedM α} {m : ParseM α}

theorem mono {j : Nat} (h : Settles k t m) (hj : j ≤ k) : Settles j t m :=
  fun s hs => h s (Nat.lt_of_lt_of_le hs hj)

theorem timely (h : ∀ n, AgreeTo n m m) : Settles k (TimedM.timely m) m :=
  fun s _ => ⟨rfl, (h s.room s (Nat.le_refl _)).2⟩

theorem pure (a : α) : Settles k (Pure.pure a) (Pure.pure a : ParseM α) :=
  timely fun _ => .pure a

theorem throw (e : Failure) : Settles k (throw e) (throw e : ParseM α) :=
  timely fun _ => .throw e

/-- What comes after a computation that takes a token has a token less before it. -/
theorem bind {f' : α → TimedM β} {f : α → ParseM β} (hm : Settles k t m)
    (hf : ∀ a, Settles k (f' a) (f a) ∨
      Settles (k - 1) (f' a) (f a) ∧ ∀ s s', m s = (.ok a, s') → s'.room < s.room) :
    Settles k (t >>= f') (m >>= f) := by
  intro s hs
  obtain ⟨same, less⟩ := hm s hs
  rw [TimedM.bind_apply, ParseM.bind_apply, same]
  rcases h : m s with ⟨e | a, s'⟩ <;> rw [h] at less
  · exact ⟨rfl, less⟩
  · dsimp only at less ⊢
    have after : f' a s' = some (f a s') ∧ (f a s').2.room ≤ s'.room := by
      rcases hf a with later | ⟨later, took⟩
      · exact later s' (by omega)
      · have := took s s' h
        exact later s' (by omega)
    exact ⟨after.1, Nat.le_trans after.2 less⟩

theorem seq {f' : α → TimedM β} {f : α → ParseM β} (hm : Settles k t m)
    (hf : ∀ a, Settles k (f' a) (f a)) : Settles k (t >>= f') (m >>= f) :=
  hm.bind fun a => .inl (hf a)

theorem outcome (h : Settles k t m) : Settles k (TimedM.outcome t) (ParseM.outcome m) := by
  intro s hs
  obtain ⟨same, less⟩ := h s hs
  simp only [TimedM.outcome, ParseM.outcome, same, Option.map_some]
  rcases hm : m s with ⟨(cause | cause) | a, s'⟩ <;> rw [hm] at less <;> exact ⟨trivial, less⟩

/-- A loop with a turn more than there are tokens. -/
theorem of_room {f : Nat → ParseM α} (h : ∀ j ≤ k, ∀ times, j ≤ times → Settles j t (f times)) :
    Settles k t (do f ((← room) + 1)) :=
  fun s hs => h (s.room + 1) hs (s.room + 1) (Nat.le_refl _) s (Nat.lt_succ_self _)

end Settles
end TimedM

namespace Parser
open TimedM
variable {p : Parser} {e : Int → TimedM Node} {k : Nat}

theorem settles_elements (he : ∀ r, Settles k (e r) (p.reading r)) (level : Int)
    (separator closing : Option Token) {turns times : Nat} (hk : k ≤ turns) (hk' : k ≤ times) :
    Settles k (Timed.elements e level separator closing turns)
      (elements p.reading level separator closing times) := by
  induction turns generalizing k times separator with
  | zero => exact fun s hs => absurd (Nat.lt_of_lt_of_le hs hk) (Nat.not_lt_zero _)
  | succ turns ih =>
    cases times with
    | zero => exact fun s hs => absurd (Nat.lt_of_lt_of_le hs hk') (Nat.not_lt_zero _)
    | succ times =>
      have low (r : Int) : Settles (k - 1) (e r) (p.reading r) := (he r).mono (Nat.sub_le k 1)
      have more (separator : Option Token) (n : Node) : Settles (k - 1)
          (do return .ok n :: (← Timed.elements e level separator closing turns))
          (do return .ok n :: (← elements p.reading level separator closing times)) :=
        (ih low separator (by omega) (by omega)).seq fun _ => .pure _
      apply (Settles.timely fun _ => .closes separator closing).seq
      rintro (_ | _)
      · apply (he level).outcome.bind
        rintro (cause | n)
        · exact .inl (.pure _)
        · refine .inr ⟨?_, fun s s' h => ?_⟩
          · cases separator with
            | none => exact more none n
            | some separator =>
              apply (Settles.timely fun _ => (AgreeTo.consume separator).outcome).seq
              rintro (cause | _)
              · cases cause with
                | incomplete => exact .pure _
                | consumeFailed expected found =>
                  dsimp only
                  split
                  · exact (Settles.timely fun _ => .advance).seq fun _ => .pure _
                  · exact .pure _
                | _ => exact .timely fun _ => .raise _
              · exact more (some separator) n
          · unfold ParseM.outcome at h
            rcases hr : p.reading level s with ⟨(c | d) | m, s₁⟩ <;> rw [hr] at h <;> cases h
            have less := room_reading_lt (congrArg Prod.fst hr)
            rwa [hr] at less
      · exact (Settles.timely fun _ => .advance).seq fun _ => .pure _

theorem settles_rounds {round' : TimedM Round} {round : Action Round} (advances : round.Advances)
    (h : Settles k round' (p.run p.reading round)) {turns times : Nat} (hk : k ≤ turns)
    (hk' : k ≤ times) :
    Settles k (Timed.rounds round' turns) (rounds (p.run p.reading round) times) := by
  induction turns generalizing k times with
  | zero => exact fun s hs => absurd (Nat.lt_of_lt_of_le hs hk) (Nat.not_lt_zero _)
  | succ turns ih =>
    cases times with
    | zero => exact fun s hs => absurd (Nat.lt_of_lt_of_le hs hk') (Nat.not_lt_zero _)
    | succ times =>
      apply h.bind
      rintro (_ | n | n)
      · exact .inl (.pure _)
      · refine .inr ⟨?_, fun s s' hr => advances p s _ s' hr ⟨n, rfl⟩⟩
        exact (ih (h.mono (Nat.sub_le k 1)) (by omega) (by omega)).seq fun _ => .pure _
      · exact .inl (.pure _)

section
variable (he : ∀ r, Settles k (e r) (p.reading r)) {turns : Nat} (hk : k ≤ turns)
include he hk

theorem settles_answer (q : Request) :
    Settles k (Timed.answer p turns e q) (p.answer p.reading q) := by
  cases q with
  | peek => exact .timely fun _ => .peek
  | binds r => exact .timely fun _ => .binds p r
  | expr r => exact he r
  | consume t => exact .timely fun _ => .consume t
  | sequence level separator closing =>
    refine .of_room fun j hj times ht => ?_
    exact settles_elements (fun r => (he r).mono hj) _ _ _ (Nat.le_trans hj hk) ht

/-- An action whose rounds each take a token ends. -/
theorem settles_run {E : ParseError → Prop} {α : Type} {a : Action α} (ha : a.Yielding E) :
    Settles k (Timed.run p turns e a) (p.run p.reading a) := by
  induction ha with
  | give a => exact .pure a
  | fail cause => exact .throw cause
  | ask answered failed ih => exact (settles_answer he hk _).outcome.seq ih
  | gather each advances gathered failed ihr ih =>
    refine (Settles.outcome (.of_room fun j hj times ht => ?_)).seq ih
    exact settles_rounds advances (ihr.mono hj) (Nat.le_trans hj hk) ht

variable {E : ParseError → Prop} (hp : p.table.Yielding E)
include hp

theorem settles_start : Settles (k + 1) (Timed.start p turns e) (p.start p.reading) := by
  apply (Settles.timely fun _ => .advance).bind
  refine fun t => .inr ⟨?_, fun s s' h => room_lt_of_advance h⟩
  apply (Settles.timely fun _ => .kindOf p t).seq
  intro kind
  apply (Settles.timely fun _ => .record _).seq
  intro _
  cases hr : p.table.prefixRule? kind with
  | none => exact .timely fun _ => .raise _
  | some rule =>
    exact (settles_run he hk (hp.starting kind rule hr t rule.power)).seq fun _ =>
      (Settles.timely fun _ => .record _).seq fun _ => .pure _

theorem settles_extend (left : Node) :
    Settles (k + 1) (Timed.extend p turns e left) (p.extend p.reading left) := by
  apply (Settles.timely fun _ => .advance).bind
  refine fun t => .inr ⟨?_, fun s s' h => room_lt_of_advance h⟩
  apply (Settles.timely fun _ => .kindOf p t).seq
  intro kind
  cases hr : p.table.infixRule? kind with
  | none => exact .timely fun _ => .raise _
  | some rule =>
    exact (settles_run he hk (hp.continuing kind rule hr t rule.right left)).seq fun _ =>
      (Settles.timely fun _ => .record _).seq fun _ => .pure _

theorem settles_continued (r : Int) {j turns' : Nat} (hj : j ≤ k + 1) (hj' : j ≤ turns') (left : Node) :
    Settles j (Timed.continued p turns e r turns' left) (p.extending r left) := by
  induction turns' generalizing j left with
  | zero => exact fun s hs => absurd (Nat.lt_of_lt_of_le hs hj') (Nat.not_lt_zero _)
  | succ turns' ih =>
    rw [extending_eq]
    apply (Settles.timely fun _ => .binds p r).seq
    rintro (_ | _)
    · exact .pure _
    · refine ((settles_extend he hk hp left).mono hj).bind fun left => .inr ⟨?_, ?_⟩
      · exact ih (by omega) (by omega) left
      · exact fun s s' h => room_lt_of_extend h

end

theorem settles_nested (r : Int) {t : TimedM Node} {m : ParseM Node} (h : Settles k t m) :
    Settles k (Timed.nested p r t) (p.nested r m) := by
  intro s hs
  obtain ⟨same, less⟩ := h { s with depth := s.depth + 1, log := .enter r :: s.log } hs
  simp only [Timed.nested, nested]
  split
  · exact ⟨rfl, Nat.le_refl _⟩
  · exact ⟨by rw [same]; rfl, less⟩

variable {E : ParseError → Prop} (hp : p.table.Yielding E)
include hp

theorem settles_expr (turns : Nat) (r : Int) : Settles turns (Timed.expr p turns r) (p.reading r) := by
  induction turns generalizing r with
  | zero => exact fun s hs => absurd hs (Nat.not_lt_zero _)
  | succ turns ih =>
    rw [reading_eq]
    apply settles_nested
    apply (Settles.timely fun _ => .peek).seq
    rintro (_ | t)
    · exact .timely fun _ => .raise _
    · refine (settles_start ih (Nat.le_refl _) hp).bind fun left => .inr ⟨?_, ?_⟩
      · exact (settles_continued ih (Nat.le_refl _) hp r (Nat.le_succ _) (Nat.le_refl _) left).seq
          fun _ => (Settles.timely fun _ => .record _).seq fun _ => .pure _
      · exact fun s s' h => room_lt_of_start h

/-- With more turns than tokens, carrying out an action ends as the parser does. -/
theorem settles_perform {α : Type} {a : Action α} (ha : a.Yielding E) (turns : Nat) :
    Settles turns (Timed.perform p turns a) (p.perform a) := by
  rw [perform_eq]
  exact settles_run (settles_expr hp turns) (Nat.le_refl _) ha

end Parser
end BindingPower
