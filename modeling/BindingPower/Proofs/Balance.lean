import Mathlib.Logic.Relation
import BindingPower.Proofs.Calls
import BindingPower.Proofs.Nesting
import BindingPower.Proofs.Table

/-! The count of open expressions. Each expression is left as it was entered, whatever its rules do and
however it ends, so the count is that of the expressions under way; one is refused where it has reached the
limit, and nowhere else. -/
namespace BindingPower

namespace Event

/-- Whether an event can come while so many expressions are open, where at most so many may be. -/
def Fits (most opened : Nat) : Event → Prop
  | .enter _ => opened < most
  | .refuse _ => opened = most
  | .leave => 0 < opened
  | _ => True

theorem opened_cons_of_isNote {e : Event} (h : e.isNote = true) (log : List Event) :
    opened (e :: log) = opened log := by
  cases e <;> first | rfl | cases h

theorem fits_of_isNote {e : Event} (h : e.isNote = true) (most opened : Nat) : e.Fits most opened := by
  cases e <;> trivial

end Event

namespace Progress

def note (e : Event) (s : Progress) : Progress := { s with log := e :: s.log }

def enter (r : Int) (s : Progress) : Progress :=
  { s with depth := s.depth + 1, log := .enter r :: s.log }

def leave (s : Progress) : Progress := { s with depth := s.depth - 1, log := .leave :: s.log }

/-- The count is that of the expressions that were entered and not left. So it has been from the beginning,
with never more than so many of them, and each event came when it could. -/
structure Balanced (most : Nat) (s : Progress) : Prop where
  count : s.depth = Event.opened s.log
  within : ∀ older, older <:+ s.log → Event.opened older ≤ most
  fits : ∀ e older, e :: older <:+ s.log → e.Fits most (Event.opened older)

namespace Balanced
variable {most : Nat} {s s' : Progress}

theorem start (most : Nat) (lexer : Lexer) : Balanced most { lexer } where
  count := rfl
  within older h := by
    obtain rfl := List.suffix_nil.mp h
    exact Nat.zero_le _
  fits e older h := nomatch List.suffix_nil.mp h

theorem depth_le (h : s.Balanced most) : s.depth ≤ most := h.count ▸ h.within _ (List.suffix_refl _)

theorem of_same (h : s.Balanced most) (depth : s'.depth = s.depth) (log : s'.log = s.log) :
    s'.Balanced most where
  count := by rw [depth, log, h.count]
  within := log ▸ h.within
  fits := log ▸ h.fits

theorem event {e : Event} (h : s.Balanced most) (fits : e.Fits most s.depth) (log : s'.log = e :: s.log)
    (count : s'.depth = Event.opened (e :: s.log)) (le : s'.depth ≤ most) : s'.Balanced most where
  count := log ▸ count
  within older past := by
    rcases List.suffix_cons_iff.mp (log ▸ past) with rfl | past
    · exact count ▸ le
    · exact h.within older past
  fits e' older past := by
    rcases List.suffix_cons_iff.mp (log ▸ past) with same | past
    · cases same
      exact h.count ▸ fits
    · exact h.fits e' older past

end Balanced
end Progress

namespace Parser
open ParseM

/-- One thing that a parser does to its state. -/
inductive Step (p : Parser) (s : Progress) : Progress → Prop
  | peek : Step p s (ParseM.peek s).2
  | advance : Step p s (ParseM.advance s).2
  | classify (t : Token) : Step p s (p.kindOf t s).2
  | note {e : Event} (h : e.isNote = true) : Step p s (s.note e)
  | refuse (r : Int) (h : p.full s = true) : Step p s (s.note (.refuse r))
  | enter (r : Int) (h : p.full s = false) : Step p s (s.enter r)
  | leave (h : 0 < s.depth) : Step p s s.leave

/-- From one moment to a later one, thing by thing. -/
abbrev Passes (p : Parser) : Progress → Progress → Prop := Relation.ReflTransGen p.Step

theorem full_limited (p : Parser) (limit : Int) (s : Progress) :
    (p.limited limit).full s = decide (limit ≤ (s.depth : Int)) := rfl

theorem Step.balanced {p : Parser} {limit : Int} {s s' : Progress} (step : (p.limited limit).Step s s')
    (h : s.Balanced limit.toNat) : s'.Balanced limit.toNat := by
  have le := h.depth_le
  have count := h.count
  cases step with
  | peek => exact h.of_same (by rw [state_peek]) (log_peek s)
  | advance => exact h.of_same (by rw [state_advance]) (log_advance s)
  | classify t =>
    unfold kindOf
    split <;> exact h.of_same rfl rfl
  | @note e noted =>
    exact h.event (e.fits_of_isNote noted _ _) rfl (count.trans (e.opened_cons_of_isNote noted _).symm) le
  | refuse r full =>
    have reached := of_decide_eq_true full
    exact h.event (e := .refuse r) (show s.depth = _ by omega) rfl count le
  | enter r room =>
    have below := of_decide_eq_false room
    have less : s.depth < limit.toNat := by omega
    exact h.event (e := .enter r) less rfl (congrArg (· + 1) count) less
  | leave under =>
    exact h.event (e := .leave) under rfl (congrArg (· - 1) count) (Nat.le_trans (Nat.sub_le _ _) le)

theorem Passes.balanced {p : Parser} {limit : Int} {s s' : Progress} (h : (p.limited limit).Passes s s')
    (start : s.Balanced limit.toNat) : s'.Balanced limit.toNat := by
  induction h with
  | refl => exact start
  | tail _ step ih => exact step.balanced ih

/-- Whatever a parser does it does in steps, and leaves as many expressions open as it found. -/
theorem respects_passes (p : Parser) : p.Respects fun s s' => p.Passes s s' ∧ s'.depth = s.depth where
  refl _ := ⟨.refl, rfl⟩
  trans h h' := ⟨h.1.trans h'.1, h'.2.trans h.2⟩
  peek s := ⟨.single .peek, by rw [state_peek]⟩
  advance s := ⟨.single .advance, by rw [state_advance]⟩
  kindOf t s := ⟨.single (.classify t), p.respects_depth.kindOf t s⟩
  record e noted s := ⟨.single (.note noted), rfl⟩
  refuse r s full := ⟨.single (.refuse r full), rfl⟩
  enclose r s s' room h := by
    have under : 0 < s'.depth := h.2 ▸ Nat.succ_pos _
    exact ⟨.head (.enter r room) (h.1.tail (.leave under)), congrArg (· - 1) h.2⟩

/-- One request after another from outside, each made however the one before it ended. -/
def after (p : Parser) (requests : List Request) (s : Progress) : Progress :=
  requests.foldl (fun s q => (p.perform (.ask q Action.ofOutcome) s).2) s

theorem passes_after (p : Parser) (requests : List Request) (s : Progress) :
    p.Passes s (p.after requests s) ∧ (p.after requests s).depth = s.depth := by
  have hR := p.respects_passes
  induction requests generalizing s with
  | nil => exact hR.refl s
  | cons q requests ih => exact hR.trans (hR.pervasive.perform _ s) (ih _)

/-- An expression is opened or refused, and what it does once it is opened is nothing else than what rules
can do. -/
theorem Pervasive.expr_eq_nested {P : {α : Type} → ParseM α → Prop} {p : Parser} (hP : p.Pervasive P)
    (bound : Nat) (r : Int) : ∃ m : ParseM Node, P m ∧ p.expr bound r = p.nested r m := by
  cases bound with
  | zero =>
    refine ⟨_, ?_, rfl⟩
    exact hP.bind hP.peek fun _ => hP.raise _ nofun
  | succ bound =>
    refine ⟨_, ?_, rfl⟩
    apply hP.bind hP.peek
    rintro (_ | t)
    · exact hP.raise _ nofun
    · refine hP.bind (hP.start fun _ _ _ _ => hP.run (hP.expr bound) _) fun left => ?_
      exact hP.bind (hP.continued (hP.expr bound) r bound left) fun _ =>
        hP.bind (hP.record _ rfl) fun _ => hP.pure _

theorem expr_of_full {p : Parser} {limit : Int} {s : Progress} (full : limit ≤ (s.depth : Int))
    (bound : Nat) (r : Int) : (p.limited limit).expr bound r s =
      (.error (.error (.tooDeep limit)), s.note (.refuse r)) := by
  obtain ⟨m, -, h⟩ := (p.limited limit).respects_passes.pervasive.expr_eq_nested bound r
  have reached : (p.limited limit).full s = true := decide_eq_true full
  rw [h, nested]
  exact if_pos reached

theorem expr_of_room {p : Parser} {limit : Int} {s : Progress} (room : (s.depth : Int) < limit)
    (bound : Nat) (r : Int) : ∃ answer inner, (p.limited limit).Passes (s.enter r) inner ∧
      inner.depth = s.depth + 1 ∧ (p.limited limit).expr bound r s = (answer, inner.leave) := by
  obtain ⟨m, moves, h⟩ := (p.limited limit).respects_passes.pervasive.expr_eq_nested bound r
  have below : ¬(p.limited limit).full s = true := by simpa [full_limited] using room
  refine ⟨(m (s.enter r)).1, (m (s.enter r)).2, (moves _).1, (moves _).2, ?_⟩
  rw [h, nested]
  exact if_neg below

end Parser

/-- An answer lists an error. Only sequences list any. -/
def Request.Lists (e : ParseError) : (q : Request) → q.Answer → Prop
  | .sequence .., (outcomes : List (Outcome Node)) => .error e ∈ outcomes
  | _, _ => False

namespace Action

/-- What a request comes to tells of an error: it is the error, or an answer that does. -/
def Brings {α : Type} (e : ParseError) (told : α → Prop) : Outcome α → Prop
  | .ok a => told a
  | .error cause => cause = e

/-- Actions that fail with an error only when they have been told of it. What they do then, to let it pass
or to catch it and go on, is up to them. -/
inductive Relays (e : ParseError) : {α : Type} → Action α → Prop
  | give {α : Type} (a : α) : Relays e (.give a)
  | fail {α : Type} {cause : Failure} (h : cause ≠ .error e) : Relays e (.fail cause : Action α)
  | ask {α : Type} {q : Request} {next : Outcome q.Answer → Action α}
    (answered : ∀ answer, ¬Brings e (q.Lists e) answer → Relays e (next answer)) : Relays e (.ask q next)
  | gather {α : Type} {round : Action Round} {next : Outcome (List Node) → Action α}
    (each : Relays e round) (gathered : ∀ items, items ≠ .error e → Relays e (next items)) :
    Relays e (.gather round next)

end Action

namespace Action.Relays
variable {e : ParseError}

theorem request (q : Request) : Relays e (.ask q ofOutcome) := by
  refine .ask fun answer untold => ?_
  rcases answer with cause | a
  · exact .fail fun same => untold (Failure.error.inj same)
  · exact .give a

theorem bind {α β : Type} {a : Action α} {f : α → Action β} (ha : Relays e a) (hf : ∀ x, Relays e (f x)) :
    Relays e (a >>= f) := by
  induction ha with
  | give a => exact hf a
  | fail h => exact .fail h
  | ask answered ih => exact .ask fun answer untold => ih answer untold hf
  | gather each gathered ihr ih => exact .gather each fun items untold => ih items untold hf

end Action.Relays

/-- Rules that fail with an error only when they have been told of it. -/
abbrev RuleTable.Relays (e : ParseError) (table : RuleTable) : Prop :=
  table.Each (fun rule => ∀ t power, (rule.action t power).Relays e)
    fun rule => ∀ t power left, (rule.action t power left).Relays e

/-- The rules of arithmetic make up no errors. -/
theorem Arithmetic.relays (e : ParseError) : Arithmetic.rules.Relays e := by
  have unary (power : Int) (t : Token) (threshold : Int) :
      (PrefixRule.unary power |>.action t threshold).Relays e :=
    .bind (.request _) fun _ => .give _
  have binary (l r : Int) (t : Token) (threshold : Int) (left : Node) :
      (InfixRule.binary l r |>.action t threshold left).Relays e :=
    .bind (.request _) fun _ => .give _
  refine Arithmetic.each_rules (fun _ _ => .give _) ?_ (unary _) (binary _ _) (binary _ _) (binary _ _)
  exact fun _ _ => .bind (.request _) fun _ => .bind (.request _) fun _ => .give _

namespace Parser
open ParseM
variable {α β : Type} {p : Parser} {l : Int} {heard : Prop} {told : α → Prop}

/-- An expression is refused between two moments, at a certain limit. -/
def Refuses (p : Parser) (l : Int) (s s' : Progress) : Prop :=
  p.limit = some l ∧ ∃ r older, s.log <:+ older ∧ .refuse r :: older <:+ s'.log

theorem Refuses.before {s₁ s₂ s₃ : Progress} (h : p.Refuses l s₂ s₃) (past : Onto s₁ s₂) :
    p.Refuses l s₁ s₃ := by
  obtain ⟨hl, r, older, begun, refused⟩ := h
  exact ⟨hl, r, older, past.log.trans begun, refused⟩

theorem Refuses.after {s₁ s₂ s₃ : Progress} (h : p.Refuses l s₁ s₂) (later : Onto s₂ s₃) :
    p.Refuses l s₁ s₃ := by
  obtain ⟨hl, r, older, begun, refused⟩ := h
  exact ⟨hl, r, older, begun, refused.trans later.log⟩

/-- What a computation comes to tells of a refusal. -/
def TellsRefusal (l : Int) (told : α → Prop) : Except Failure α → Prop
  | .ok a => told a
  | .error cause => cause = .error (.tooDeep l)

/-- Computations that tell of a refusal only after there was one, be it while they ran or before, as is the
case if it has been heard of. -/
structure Founded (p : Parser) (l : Int) (heard : Prop) (told : α → Prop) (m : ParseM α) : Prop where
  moves : Moves Onto m
  refused : ∀ s, s.input.fault ≠ some (.tooDeep l) → TellsRefusal l told (m s).1 → heard ∨ p.Refuses l s (m s).2

namespace Founded

theorem of_heard {m : ParseM α} (h : heard) (moves : Moves Onto m) : p.Founded l heard told m :=
  ⟨moves, fun _ _ _ => .inl h⟩

theorem mono {heard' : Prop} {told' : α → Prop} {m : ParseM α} (h : p.Founded l heard told m)
    (hh : heard → heard') (ht : ∀ a, told' a → told a) : p.Founded l heard' told' m := by
  refine ⟨h.moves, fun s whole tells => (h.refused s whole ?_).imp_left hh⟩
  rcases hm : (m s).1 with e | a <;> rw [hm] at tells
  · exact tells
  · exact ht a tells

theorem unheard {m : ParseM α} (h : p.Founded l False told m) : p.Founded l heard told m :=
  h.mono False.elim fun _ => id

theorem pure {a : α} (h : told a → heard) : p.Founded l heard told (Pure.pure a) :=
  ⟨Onto.refl, fun _ _ tells => .inl (h tells)⟩

theorem throw {cause : Failure} (h : cause = .error (.tooDeep l) → heard) :
    p.Founded l heard told (MonadExcept.throw cause) :=
  ⟨Onto.refl, fun _ _ tells => .inl (h tells)⟩

theorem raise {e : ParseError} (h : e = .tooDeep l → heard) :
    p.Founded l heard told (ParseM.raise e) :=
  throw fun same => h (Failure.error.inj same)

theorem room : p.Founded l heard (fun _ => False) ParseM.room :=
  ⟨Onto.refl, fun _ _ tells => tells.elim⟩

theorem bind {m : ParseM α} {f : α → ParseM β} {told' : β → Prop} (hm : p.Founded l heard told m)
    (hf : ∀ a, p.Founded l (heard ∨ told a) told' (f a)) : p.Founded l heard told' (m >>= f) := by
  refine ⟨hm.moves.bind Onto.trans fun a => (hf a).moves, fun s whole tells => ?_⟩
  have first := hm.refused s whole
  have moved := hm.moves s
  rw [bind_apply] at tells ⊢
  rcases h : m s with ⟨e | a, s'⟩ <;> rw [h] at first moved tells
  · exact first tells
  · have later := (hf a).moves s'
    rcases (hf a).refused s' (fun broken => whole (moved.fault _ broken)) tells with (h | h) | h
    · exact .inl h
    · exact (first h).imp_right fun refused => refused.after later
    · exact .inr (h.before moved)

theorem seq {m : ParseM α} {f : α → ParseM β} {told' : β → Prop}
    (hm : p.Founded l heard (fun _ => False) m) (hf : ∀ a, p.Founded l heard told' (f a)) :
    p.Founded l heard told' (m >>= f) :=
  hm.bind fun a => (hf a).mono .inl fun _ => id

theorem outcome {m : ParseM α} (h : p.Founded l heard told m) :
    p.Founded l heard (Action.Brings (.tooDeep l) told) (ParseM.outcome m) := by
  refine ⟨h.moves.outcome, fun s whole tells => ?_⟩
  have first := h.refused s whole
  rcases outcome_cases m s with ⟨d, s', hm, ho⟩ | ⟨o, s', hm, ho⟩ <;> rw [hm] at first <;>
    rw [ho] at tells ⊢
  · exact first tells
  · rcases o with e | a
    · exact first (congrArg Failure.error tells)
    · exact first tells

end Founded

theorem closed_founded (p : Parser) (l : Int) :
    p.Closed fun {_} m => p.Founded l False (fun _ => False) m where
  pure _ := .pure id
  raise _ h := .raise (h l)
  bind hm hf := hm.seq hf
  peek := by
    refine ⟨Onto.peek, fun s whole tells => ?_⟩
    rw [(peek_eq s).1] at tells
    rcases h : s.input.peek.1 with e | t <;> rw [h] at tells
    · cases tells
      exact absurd (Scan.fault_of_peek h) whole
    · exact tells.elim
  advance := by
    refine ⟨Onto.advance, fun s whole tells => ?_⟩
    rw [(advance_eq s).1] at tells
    rcases h : s.input.advance.1 with e | t <;> rw [h] at tells
    · cases tells
      exact absurd ((Scan.incomplete_or_fault_of_advance h).resolve_left nofun) whole
    · exact tells.elim
  kindOf t := by
    refine ⟨(respects_onto p).kindOf t, fun s _ tells => ?_⟩
    unfold kindOf at tells
    split at tells
    · exact tells.elim
    · cases tells
  record e noted := ⟨(respects_onto p).record e noted, fun _ _ tells => tells.elim⟩
  nested r m h := by
    refine ⟨(pervasive_onto p).nested r h.moves, fun s whole tells => .inr ?_⟩
    unfold nested at tells ⊢
    split
    · rename_i reached
      rw [if_pos reached] at tells
      obtain ⟨limit, hl, -⟩ := (Option.any_eq_true ..).mp reached
      cases tells
      exact ⟨by rw [hl, Option.getD_some], r, s.log, List.suffix_refl _, List.suffix_refl _⟩
    · rename_i room
      rw [if_neg room] at tells
      have refused := (h.refused (s.enter r) whole tells).resolve_left id
      have entered : Onto s (s.enter r) := ⟨List.suffix_cons _ _, List.suffix_refl _, fun _ h => h⟩
      exact (refused.before entered).after ⟨List.suffix_cons _ _, List.suffix_refl _, fun _ h => h⟩

theorem eq_of_mem_ending {closing : Option Token} {e cause : ParseError}
    (h : .error e ∈ ending closing cause) : cause = e := by
  cases cause <;> cases closing <;> simp_all [ending]

section
variable {e : Int → ParseM Node} (he : ∀ r, p.Founded l False (fun _ => False) (e r))
include he

theorem founded_elements (level : Int) (separator closing : Option Token) (times : Nat) :
    p.Founded l False (Request.Lists (.tooDeep l) (.sequence level separator closing))
      (elements e level separator closing times) := by
  have steps := p.closed_founded l
  have taken (outcomes : List (Outcome Node)) (h : .error (.tooDeep l) ∉ outcomes) :
      p.Founded l False (Request.Lists (.tooDeep l) (.sequence level separator closing))
        (do let _ ← ParseM.advance; return outcomes) :=
    steps.advance.seq fun _ => .pure h
  induction times with
  | zero => exact .pure List.not_mem_nil
  | succ times ih =>
    have more (n : Node) : p.Founded l False
        (Request.Lists (.tooDeep l) (.sequence level separator closing))
        (do return .ok n :: (← elements e level separator closing times)) :=
      ih.bind fun outcomes => .pure fun h => .inr ((List.mem_cons.mp h).resolve_left nofun)
    apply (steps.closes separator closing).seq
    rintro (_ | _)
    · apply (he level).outcome.bind
      rintro (cause | n)
      · exact .pure fun h => .inr (eq_of_mem_ending h)
      · cases separator with
        | none => exact (more n).unheard
        | some separator =>
          apply (steps.consume separator).outcome.unheard.bind
          rintro (cause | _)
          · cases cause with
            | incomplete =>
              exact .pure fun h => nomatch eq_of_mem_ending ((List.mem_cons.mp h).resolve_left nofun)
            | consumeFailed expected found =>
              dsimp only
              split
              · exact (taken [.ok n] (by simp)).unheard
              · exact .pure fun h => by simp [Request.Lists] at h
            | tooDeep limit => exact .raise fun h => .inr h
            | _ => exact .raise nofun
          · exact (more n).unheard
    · exact taken [] List.not_mem_nil

theorem founded_answer (q : Request) : p.Founded l False (q.Lists (.tooDeep l)) (p.answer e q) := by
  have steps := p.closed_founded l
  cases q with
  | peek => exact steps.peek
  | binds r => exact steps.binds r
  | expr r => exact he r
  | consume t => exact steps.consume t
  | sequence level separator closing =>
    exact Founded.room.seq fun _ => founded_elements he level separator closing _

theorem founded_run {a : Action α} (ha : a.Relays (.tooDeep l)) :
    p.Founded l False (fun _ => False) (p.run e a) := by
  have steps := p.closed_founded l
  have onto := pervasive_onto p
  have moves {γ : Type} (a : Action γ) : Moves Onto (p.run e a) := onto.run (fun r => (he r).moves) a
  induction ha with
  | give a => exact .pure id
  | fail h => exact .throw h
  | @ask _ q next answered ih =>
    apply (founded_answer he q).outcome.bind
    intro answer
    by_cases told : Action.Brings (.tooDeep l) (q.Lists (.tooDeep l)) answer
    · exact .of_heard (.inr told) (moves _)
    · exact (ih answer told).unheard
  | @gather _ round next each gathered ihr ih =>
    apply (Founded.room.seq fun _ => steps.rounds ihr _).outcome.bind
    intro items
    by_cases told : items = .error (.tooDeep l)
    · exact .of_heard (.inr (by rw [told]; rfl)) (moves _)
    · exact (ih items told).unheard

end

/-- Where no rule and no source of tokens makes up the error of a refusal, each that comes is of one. -/
theorem founded_expr (relays : p.table.Relays (.tooDeep l)) (bound : Nat) (r : Int) :
    p.Founded l False (fun _ => False) (p.expr bound r) :=
  (p.closed_founded l).expr
    (fun he kind rule t hr => founded_run he (relays.starting kind rule hr t _))
    (fun he kind rule t left hr => founded_run he (relays.continuing kind rule hr t _ left))
    bound r

/-- What a parser with a limit does about the count of open expressions. -/
structure Counts (p : Parser) (limit : Int) : Prop where
  /-- What a rule asks for ends with as many expressions open as it found, whatever it comes to. -/
  restored : ∀ bound q s, p.Passes s (p.answer (p.expr bound) q s).2 ∧
    (p.answer (p.expr bound) q s).2.depth = s.depth
  /-- So do requests from outside, any number of them one after the other. -/
  settled : ∀ requests s, p.Passes s (p.after requests s) ∧ (p.after requests s).depth = s.depth
  /-- At each moment on the way the count is that of the expressions under way, and within the limit. -/
  balanced : ∀ lexer s, p.Passes { lexer } s → s.Balanced limit.toNat
  /-- Where the limit is reached an expression is refused, and nothing else happens. -/
  refused : ∀ bound r s, limit ≤ (s.depth : Int) →
    p.expr bound r s = (.error (.error (.tooDeep limit)), s.note (.refuse r))
  /-- Elsewhere it is entered, read with one more expression open and left. -/
  opened : ∀ bound r s, (s.depth : Int) < limit → ∃ answer inner,
    p.Passes (s.enter r) inner ∧ inner.depth = s.depth + 1 ∧ p.expr bound r s = (answer, inner.leave)
  /-- A request tells of a refusal only if it was for an expression that was refused or if one was refused
  on the way, unless rules or the source of tokens make the error up. -/
  founded : ∀ l, p.table.Relays (.tooDeep l) → ∀ bound q s, s.input.fault ≠ some (.tooDeep l) →
    TellsRefusal l (q.Lists (.tooDeep l)) (p.answer (p.expr bound) q s).1 →
    l = limit ∧ ∃ r older, s.log <:+ older ∧ .refuse r :: older <:+ (p.answer (p.expr bound) q s).2.log

theorem counts (p : Parser) (limit : Int) : (p.limited limit).Counts limit where
  restored bound q s := by
    have steps := (p.limited limit).respects_passes.pervasive
    exact steps.answer (steps.expr bound) q s
  settled := (p.limited limit).passes_after
  balanced lexer s h := h.balanced (.start _ lexer)
  refused bound r s full := expr_of_full full bound r
  opened bound r s room := expr_of_room room bound r
  founded l relays bound q s whole tells := by
    obtain ⟨same, refused⟩ :=
      ((founded_answer (founded_expr relays bound) q).refused s whole tells).resolve_left id
    exact ⟨(Option.some.inj same).symm, refused⟩

/-- A rule that goes on after the refusal of what it asked for. -/
example :
    (let rule : PrefixRule := ⟨0, fun t _ => do
      let _ ← Action.attempt (.expr 0)
      return .leaf t⟩
    let p : Parser := { table.prefixRules := [(.text "(", rule)] }
    let s : Progress := { lexer := .ofList [.word "(", .word "(", .word "("] }
    let ended := ((p.limited 2).perform (.expr 0) s).2
    (ended.depth, ended.room, ended.log.filter Event.isCall)) = (0, 1, [.refuse 0, .enter 0, .enter 0]) := by
  decide +kernel

end Parser
end BindingPower
