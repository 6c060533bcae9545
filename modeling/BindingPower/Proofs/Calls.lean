import BindingPower.Proofs.Course
import BindingPower.Proofs.Located
import BindingPower.Proofs.Limit
import BindingPower.Proofs.Turns

/-! How many expressions a parse begins. Each is paid for with the token it starts with, and of those that
start with none only the last is begun, since no rule goes on after the error. -/
namespace BindingPower

namespace Event

/-- How many expressions were begun. -/
def calls (log : List Event) : Nat := log.countP isCall

theorem calls_cons_of_call {e : Event} (h : e.isCall = true) (log : List Event) :
    calls (e :: log) = calls log + 1 :=
  List.countP_cons_of_pos h

theorem calls_cons_of_note {e : Event} (h : e.isCall = false) (log : List Event) :
    calls (e :: log) = calls log :=
  List.countP_cons_of_neg (by rw [h]; exact Bool.false_ne_true)

/-- How many of those that were let in were not finished. -/
def opened : List Event → Nat
  | [] => 0
  | .enter _ :: log => opened log + 1
  | .leave :: log => opened log - 1
  | _ :: log => opened log

/-- How many expressions are under way when the latest thing happens, the one that it refuses among
them. -/
def active : List Event → Nat
  | .refuse _ :: log => opened log + 1
  | log => opened log

theorem opened_le_calls (log : List Event) : opened log ≤ calls log := by
  induction log with
  | nil => exact Nat.zero_le _
  | cons e log ih =>
    cases e with
    | enter r => exact calls_cons_of_call (e := .enter r) rfl log ▸ Nat.succ_le_succ ih
    | refuse r => exact calls_cons_of_call (e := .refuse r) rfl log ▸ Nat.le_succ_of_le ih
    | leave => exact Nat.le_trans (Nat.sub_le _ _) ih
    | _ => exact ih

theorem active_le_calls (log : List Event) : active log ≤ calls log := by
  have below := opened_le_calls log
  rcases log with _ | ⟨e, log⟩
  · exact below
  · cases e with
    | refuse r =>
      rw [active, calls_cons_of_call rfl]
      exact Nat.succ_le_succ (opened_le_calls log)
    | _ => exact below

theorem calls_le_of_suffix {older log : List Event} (h : older <:+ log) : calls older ≤ calls log :=
  h.sublist.countP_le

end Event

/-- What has been spent on expressions and what is left to spend. -/
def Progress.cost (s : Progress) : Nat := Event.calls s.log + s.room

namespace ParseM
variable {α β : Type}

/-- Computations that begin no more expressions than they take tokens, but for one more when they end in
an error or in an answer that tells of one. -/
def Frugal (told : α → Prop) (m : ParseM α) : Prop :=
  ∀ s, (m s).2.cost ≤ s.cost ∨
    (m s).2.cost ≤ s.cost + 1 ∧ ∀ a, (m s).1 = .ok a → told a

/-- No answer tells of an error. -/
abbrev Pays (m : ParseM α) : Prop := Frugal (fun _ => False) m

/-- Computations that begin no expressions. -/
def Free (m : ParseM α) : Prop := ∀ s, (m s).2.cost ≤ s.cost

/-- Computations that begin none either, and whose answers tell of an error. -/
def Tells (told : α → Prop) (m : ParseM α) : Prop :=
  ∀ s, (m s).2.cost ≤ s.cost ∧ ∀ a, (m s).1 = .ok a → told a

/-- An error in place of an answer tells of itself. -/
def Told (told : α → Prop) : Outcome α → Prop
  | .ok a => told a
  | .error _ => True

section
variable {told : α → Prop} {m : ParseM α}

theorem Free.frugal (h : Free m) : Frugal told m := fun s => .inl (h s)

theorem Free.outcome (h : Free m) : Free (ParseM.outcome m) := by
  intro s
  have le := h s
  unfold ParseM.outcome
  rcases hm : m s with ⟨(e | d) | a, s'⟩ <;> rw [hm] at le <;> exact le

theorem Free.of_same (h : ∀ s, (m s).2.log = s.log ∧ (m s).2.room ≤ s.room) : Free m := by
  intro s
  rw [Progress.cost, Progress.cost, (h s).1]
  exact Nat.add_le_add_left (h s).2 _

theorem Free.pure (a : α) : Free (Pure.pure a) := fun _ => Nat.le_refl _

theorem Free.throw (e : Failure) : Free (throw e : ParseM α) := fun _ => Nat.le_refl _

theorem Free.raise (e : ParseError) : Free (ParseM.raise e : ParseM α) := throw _

theorem Free.bind {f : α → ParseM β} (hm : Free m) (hf : ∀ a, Free (f a)) : Free (m >>= f) := by
  intro s
  have first := hm s
  rw [bind_apply]
  rcases h : m s with ⟨e | a, s'⟩ <;> rw [h] at first
  · exact first
  · exact Nat.le_trans (hf a s') first

theorem Free.peek : Free ParseM.peek :=
  .of_same fun s => ⟨log_peek s, Nat.le_of_eq (room_peek s)⟩

theorem Free.advance : Free ParseM.advance := by
  refine .of_same fun s => ⟨log_advance s, ?_⟩
  rw [room_advance]
  exact Nat.sub_le _ _

theorem Free.room : Free ParseM.room := fun _ => Nat.le_refl _

theorem Free.record {e : Event} (h : e.isCall = false) : Free (ParseM.record e) := by
  intro s
  exact Nat.add_le_add_right (Nat.le_of_eq (Event.calls_cons_of_note h s.log)) _

theorem Free.noted {e : Event} (h : e.isCall = false) (a : α) :
    Free (do ParseM.record e; return a) :=
  (record h).bind fun _ => pure a

theorem Free.kindOf (p : Parser) (t : Token) : Free (p.kindOf t) := by
  refine .of_same fun s => ⟨?_, Nat.le_of_eq (room_kindOf p t s)⟩
  unfold Parser.kindOf
  split <;> rfl

theorem Free.consume (t : Token) : Free (ParseM.consume t) := by
  apply peek.bind
  rintro (_ | u)
  · exact raise _
  · dsimp only
    split
    · exact advance.bind fun _ => pure _
    · exact raise _

theorem Free.binds (p : Parser) (r : Int) : Free (p.binds r) := by
  apply peek.bind
  rintro (_ | t)
  · exact pure _
  · apply (kindOf p t).bind
    intro kind
    split <;> exact pure _

theorem Free.closes (separator closing : Option Token) : Free (Parser.closes separator closing) := by
  cases separator <;> cases closing <;> first | exact peek.bind fun _ => pure _ | exact pure _

theorem Tells.pure {a : α} (h : told a) : Tells told (Pure.pure a) := by
  refine fun s => ⟨Nat.le_refl _, ?_⟩
  rintro _ ⟨⟩
  exact h

theorem Tells.raise (e : ParseError) : Tells told (ParseM.raise e) := fun _ => ⟨Nat.le_refl _, nofun⟩

/-- After an answer that tells of an error nothing more may be begun. -/
theorem Frugal.bind {f : α → ParseM β} {told' : β → Prop} (hm : Frugal told m)
    (hf : ∀ a, Frugal told' (f a)) (stop : ∀ a, told a → Tells told' (f a)) :
    Frugal told' (m >>= f) := by
  intro s
  rw [bind_apply]
  have first := hm s
  rcases h : m s with ⟨e | a, s'⟩ <;> rw [h] at first
  · exact first.imp_right fun owing => ⟨owing.1, nofun⟩
  · dsimp only at first ⊢
    rcases first with within | ⟨owing, last⟩
    · rcases hf a s' with le | ⟨le, last⟩
      · exact .inl (Nat.le_trans le within)
      · exact .inr ⟨Nat.le_trans le (Nat.succ_le_succ within), last⟩
    · obtain ⟨le, last⟩ := stop a (last a rfl) s'
      exact .inr ⟨Nat.le_trans le owing, last⟩

theorem Frugal.seq {f : α → ParseM β} {told' : β → Prop} (hm : Pays m) (hf : ∀ a, Frugal told' (f a)) :
    Frugal told' (m >>= f) :=
  hm.bind hf nofun

theorem Free.seq {f : α → ParseM β} {told' : β → Prop} (hm : Free m) (hf : ∀ a, Frugal told' (f a)) :
    Frugal told' (m >>= f) :=
  Frugal.seq hm.frugal hf

theorem Frugal.mono {told' : α → Prop} (hm : Frugal told m) (h : ∀ a, told a → told' a) :
    Frugal told' m :=
  fun s => (hm s).imp_right fun owing => ⟨owing.1, fun a ha => h a (owing.2 a ha)⟩

theorem Frugal.outcome (hm : Frugal told m) : Frugal (Told told) (ParseM.outcome m) := by
  intro s
  have first := hm s
  unfold ParseM.outcome
  rcases h : m s with ⟨(e | d) | a, s'⟩ <;> rw [h] at first <;>
    refine first.imp_right fun owing => ⟨owing.1, fun o ho => ?_⟩ <;> cases ho
  · trivial
  · exact owing.2 a rfl

theorem Frugal.cost_le (hm : Frugal told m) (s : Progress) : (m s).2.cost ≤ s.cost + 1 :=
  (hm s).elim Nat.le_succ_of_le And.left

/-- An end that has a token left over to pay with, unless it is an error. -/
def Spares (s : Progress) (r : End α) : Prop :=
  r.2.cost + 1 ≤ s.cost ∨ r.2.cost ≤ s.cost ∧ ∀ a, r.1 ≠ .ok a

theorem Spares.mono {s s' : Progress} {r : End α} (h : Spares s' r) (le : s'.cost ≤ s.cost) :
    Spares s r :=
  h.imp (Nat.le_trans · le) fun owing => ⟨Nat.le_trans owing.1 le, owing.2⟩

theorem Spares.bind {s : Progress} {f : α → ParseM β} (hm : Spares s (m s)) (hf : ∀ a, Pays (f a)) :
    Spares s ((m >>= f) s) := by
  rw [bind_apply]
  rcases h : m s with ⟨e | a, s'⟩ <;> rw [h] at hm
  · exact hm.imp_right fun owing => ⟨owing.1, nofun⟩
  · have spare : s'.cost + 1 ≤ s.cost := hm.resolve_right fun owing => owing.2 a rfl
    rcases hf a s' with le | ⟨le, last⟩
    · exact .inl (Nat.le_trans (Nat.succ_le_succ le) spare)
    · exact .inr ⟨Nat.le_trans le spare, fun b hb => last b hb⟩

theorem spares_advance {s : Progress} (hs : 0 < s.room) : Spares s (ParseM.advance s) := by
  refine .inl (Nat.le_of_eq ?_)
  rw [Progress.cost, Progress.cost, log_advance, room_advance]
  omega

end
end ParseM

namespace Parser
open ParseM
variable {p : Parser} {e : Int → ParseM Node}

/-- Outcomes of which an error is the last, unless it is the end of the input and nobody is told. -/
def Stopped (closing : Option Token) (outcomes : List (Outcome Node)) : Prop :=
  ∃ cause, ∃ ns : List Node, outcomes = ns.map .ok ++ ending closing cause

section
variable (he : ∀ r, Pays (e r))
include he

/-- An element that was begun without a token of its own stops its sequence. -/
theorem frugal_elements (level : Int) (separator closing : Option Token) (times : Nat) :
    Frugal (Stopped closing) (elements e level separator closing times) := by
  induction times with
  | zero => exact (Free.pure _).frugal
  | succ times ih =>
    have more (n : Node) : Frugal (Stopped closing)
        (do return .ok n :: (← elements e level separator closing times)) := by
      apply ih.bind fun _ => (Free.pure _).frugal
      rintro _ ⟨cause, ns, rfl⟩
      exact .pure ⟨cause, n :: ns, rfl⟩
    apply (Free.closes separator closing).seq
    rintro (_ | _)
    · apply (he level).outcome.bind
      · rintro (cause | n)
        · exact (Free.pure _).frugal
        · cases separator with
          | none => exact more n
          | some separator =>
            apply (Free.consume separator).outcome.seq
            rintro (cause | _)
            · cases cause with
              | incomplete => exact (Free.pure _).frugal
              | consumeFailed expected found =>
                dsimp only
                split
                · exact (Free.advance.bind fun _ => .pure _).frugal
                · exact (Free.pure _).frugal
              | _ => exact (Free.raise _).frugal
            · exact more n
      · rintro (cause | n) h
        · exact .pure ⟨cause, [], rfl⟩
        · exact h.elim
    · exact (Free.advance.bind fun _ => .pure _).frugal

theorem frugal_answer (q : Request) :
    Frugal (fun o => ∃ cause, Action.Failed cause q o) (outcome (p.answer e q)) := by
  cases q with
  | peek => exact Free.peek.outcome.frugal
  | binds r => exact (Free.binds p r).outcome.frugal
  | consume t => exact (Free.consume t).outcome.frugal
  | expr r =>
    apply (he r).outcome.mono
    rintro (cause | n) h
    · exact ⟨cause, rfl⟩
    · exact h.elim
  | sequence level separator closing =>
    apply (Free.room.seq fun _ => frugal_elements he level separator closing _).outcome.mono
    rintro (cause | outcomes) h
    · exact ⟨cause, .inl rfl⟩
    · obtain ⟨cause, ns, rfl⟩ := h
      exact ⟨cause, .inr ⟨ns, rfl⟩⟩

omit he in
theorem pays_rounds {round : ParseM Round} (h : Pays round) (times : Nat) :
    Pays (rounds round times) := by
  induction times with
  | zero => exact (Free.pure _).frugal
  | succ times ih =>
    apply h.seq
    rintro (_ | n | n)
    · exact (Free.pure _).frugal
    · exact ih.seq fun _ => (Free.pure _).frugal
    · exact (Free.pure _).frugal

/-- An action that goes on after no error begins one expression for each token, and one more at most. -/
theorem pays_run {α : Type} {a : Action α} (ha : a.Yielding fun _ => True) : Pays (p.run e a) := by
  induction ha with
  | give a => exact (Free.pure a).frugal
  | fail cause => exact (Free.throw cause).frugal
  | ask answered failed ih =>
    apply (frugal_answer he _).bind ih
    rintro o ⟨cause, h⟩
    rw [failed cause o trivial h]
    exact .raise cause
  | gather each advances gathered failed ihr ih =>
    apply (Free.room.seq fun _ => pays_rounds ihr _).outcome.bind ih
    rintro (cause | ns) h
    · rw [failed cause trivial]
      exact .raise cause
    · exact h.elim

variable (hp : p.table.Yielding fun _ => True)
include hp

/-- The first token pays for the expression. -/
theorem spares_start {s : Progress} (hs : 0 < s.room) : Spares s (p.start e s) := by
  apply (spares_advance hs).bind
  intro t
  apply (Free.kindOf p t).seq
  intro kind
  apply (Free.record rfl).seq
  intro _
  cases hr : p.table.prefixRule? kind with
  | none => exact (Free.raise _).frugal
  | some rule =>
    exact (pays_run he (hp.starting kind rule hr t rule.power)).seq fun _ =>
      (Free.noted rfl _).frugal

theorem pays_extend (left : Node) : Pays (p.extend e left) := by
  apply Free.advance.seq
  intro t
  apply (Free.kindOf p t).seq
  intro kind
  cases hr : p.table.infixRule? kind with
  | none => exact (Free.raise _).frugal
  | some rule =>
    exact (pays_run he (hp.continuing kind rule hr t rule.right left)).seq fun _ =>
      (Free.noted rfl _).frugal

theorem pays_continued (r : Int) (bound : Nat) (left : Node) : Pays (p.continued e r bound left) := by
  induction bound generalizing left with
  | zero => exact ((Free.binds p r).bind fun _ => .pure _).frugal
  | succ bound ih =>
    apply (Free.binds p r).seq
    rintro (_ | _)
    · exact (Free.pure _).frugal
    · exact (pays_extend he hp left).seq ih

end

theorem pays_nested (r : Int) {m : ParseM Node} (h : ∀ s, Spares s (m s)) : Pays (p.nested r m) := by
  intro s
  have begun (e : Event) (he : e.isCall = true) (depth : Nat) :
      ({ s with depth, log := e :: s.log } : Progress).cost = s.cost + 1 := by
    simp only [Progress.cost, Event.calls_cons_of_call he]
    exact Nat.add_right_comm _ _ _
  unfold nested
  split
  · exact .inr ⟨Nat.le_of_eq (begun (.refuse r) rfl s.depth), nofun⟩
  · have body := h { s with depth := s.depth + 1, log := .enter r :: s.log }
    rw [Spares, begun (.enter r) rfl] at body
    rcases hm : m { s with depth := s.depth + 1, log := .enter r :: s.log } with ⟨x, s'⟩
    rw [hm] at body
    have left : ({ s' with depth := s'.depth - 1, log := .leave :: s'.log } : Progress).cost = s'.cost :=
      rfl
    dsimp only at body ⊢
    rw [left]
    exact body.imp Nat.le_of_succ_le_succ fun owing => ⟨owing.1, fun n hn => owing.2 n hn⟩

theorem pays_expr (hp : p.table.Yielding fun _ => True) (bound : Nat) (r : Int) :
    Pays (p.expr bound r) := by
  induction bound generalizing r with
  | zero =>
    refine pays_nested r fun s => .inr ⟨(Free.peek.bind fun _ => .raise _) s, fun n => ?_⟩
    rw [bind_apply]
    rcases peek s with ⟨e | t, s'⟩ <;> exact nofun
  | succ bound ih =>
    refine pays_nested r fun s => ?_
    have looked := Free.peek s
    rw [bind_apply]
    rcases h : peek s with ⟨e | _ | t, s'⟩ <;> rw [h] at looked
    · exact .inr ⟨looked, nofun⟩
    · exact .inr ⟨looked, nofun⟩
    · refine Spares.mono (.bind (spares_start ih hp (room_pos_of_peek h)) fun left => ?_) looked
      exact (pays_continued ih hp r bound left).seq fun _ =>
        (Free.noted rfl _).frugal

theorem pays_perform (hp : p.table.Yielding fun _ => True) {α : Type} {a : Action α}
    (ha : a.Yielding fun _ => True) : Pays (p.perform a) :=
  Free.room.seq fun bound => pays_run (pays_expr hp bound) ha

/-- No more expressions are open than were begun, and where one was refused, more were begun than the
limit lets be open. -/
structure Tallied (p : Parser) (s : Progress) : Prop where
  depth : s.depth ≤ Event.calls s.log
  refused : Refused s → ∃ limit, p.limit = some limit ∧ limit < (Event.calls s.log : Int)

theorem Tallied.note {s : Progress} {e : Event} (h : p.Tallied s) (he : e.isCall = false) {depth : Nat}
    (hd : depth ≤ s.depth) : p.Tallied { s with depth, log := e :: s.log } := by
  have same := Event.calls_cons_of_note he s.log
  refine ⟨by rw [same]; exact Nat.le_trans hd h.depth, ?_⟩
  rintro ⟨r, hr⟩
  rw [same]
  rcases List.mem_cons.mp hr with rfl | earlier
  · cases he
  · exact h.refused ⟨r, earlier⟩

theorem respects_tallied (p : Parser) : p.Respects fun s s' => p.Tallied s → p.Tallied s' where
  refl _ h := h
  trans h h' hs := h' (h hs)
  peek s h := by
    rw [state_peek]
    exact ⟨h.depth, h.refused⟩
  advance s h := by
    rw [state_advance]
    exact ⟨h.depth, h.refused⟩
  kindOf t s h := by
    unfold Parser.kindOf
    split <;> exact ⟨h.depth, h.refused⟩
  record e he s h := h.note (e.isCall_eq_false_of_isNote he) (Nat.le_refl _)
  refuse r s reached h := by
    obtain ⟨limit, hl, le⟩ := (Option.any_eq_true ..).mp reached
    have le := of_decide_eq_true le
    have more := Event.calls_cons_of_call (e := .refuse r) rfl s.log
    have depth := h.depth
    refine ⟨by dsimp only; omega, fun _ => ⟨limit, hl, ?_⟩⟩
    dsimp only
    omega
  enclose r s s' _ inner h := by
    have more := Event.calls_cons_of_call (e := .enter r) rfl s.log
    have depth := h.depth
    refine (inner ⟨by dsimp only; omega, ?_⟩).note rfl (Nat.sub_le _ _)
    rintro ⟨q, hq⟩
    obtain ⟨limit, hl, less⟩ := h.refused ⟨q, (List.mem_cons.mp hq).resolve_left nofun⟩
    exact ⟨limit, hl, by dsimp only; omega⟩

theorem tallied_perform {α : Type} (a : Action α) {s : Progress} (h : p.Tallied s) :
    p.Tallied (p.perform a s).2 :=
  p.respects_tallied.pervasive.perform a s h

end Parser

namespace Ebnf
open ParseM

/-- The last element of a program may end without a token, and no error tells of it. -/
theorem frugal_program {p : Parser} (hp : p.table.Yielding fun _ => True) :
    Frugal (fun _ => True) (p.perform program) := by
  apply Free.room.seq
  intro bound
  have collect (outcomes : List (Outcome Node)) :
      Free (p.run (p.expr bound) (Action.collect outcomes)) := by
    rcases p.run_collect_cases (p.expr bound) outcomes with ⟨ns, rfl⟩ | ⟨c, hc⟩
    · rw [Parser.run_collect]
      exact .pure _
    · rw [hc]
      exact .raise _
  simp only [program, Parser.run_bind, Parser.run_sequence]
  apply Frugal.bind (Free.room.seq fun _ => Parser.frugal_elements (Parser.pays_expr hp bound) _ _ _ _)
  · exact fun outcomes => (collect outcomes).frugal
  · exact fun outcomes _ s => ⟨collect outcomes s, fun _ _ => trivial⟩

end Ebnf

namespace Grammar
open ParseM

/-- A parse begins no more expressions than there are tokens, and one. -/
theorem calls_le {g : Grammar} (hg : g ∈ Grammar.bundled) (text : String) (limit : Option Int) :
    Event.calls (g.run text limit).2.log ≤ (g.scan text).tokens.length + 1 := by
  have of_frugal {told : List Node → Prop} (h : Frugal told ((g.parser limit).perform g.program)) :
      Event.calls (g.run text limit).2.log ≤ (g.scan text).tokens.length + 1 := by
    have start : (g.start text).cost = (g.scan text).tokens.length :=
      (Nat.zero_add _).trans (Nat.zero_add _)
    exact start ▸ Nat.le_trans (Nat.le_add_right _ _) (h.cost_le (g.start text))
  obtain ⟨rules, -⟩ := g.yielding_of_mem_bundled (E := fun _ => True) hg
  simp only [Grammar.bundled, List.mem_cons, List.not_mem_nil, or_false] at hg
  rcases hg with rfl | rfl | rfl
  · exact of_frugal (Parser.pays_perform rules Arithmetic.yielding_program)
  · exact of_frugal (Ebnf.frugal_program rules)
  · exact of_frugal (Parser.pays_perform rules C.yielding_program)

/-- Without a limit nothing is too deep. -/
theorem parse_none_ne_tooDeep {g : Grammar} (hg : g ∈ Grammar.bundled) (text : String) (limit : Int) :
    g.parse text none ≠ .error (.error (.tooDeep limit)) := by
  intro h
  simp only [Grammar.bundled, List.mem_cons, List.not_mem_nil, or_false] at hg
  rcases hg with rfl | rfl | rfl
  · cases Arithmetic.blames_of_parse h
  · cases Ebnf.blames_of_parse h
  · cases C.blames_of_parse h

/-- A limit above the number of tokens refuses nothing. -/
theorem run_eq_of_lt {g : Grammar} (hg : g ∈ Grammar.bundled) {text : String} {limit : Int}
    (h : ((g.scan text).tokens.length : Int) < limit) : g.run text (some limit) = g.run text none := by
  refine (g.run_eq_of_le hg text limit none nofun).resolve_right ?_
  rintro ⟨-, refused⟩
  have tallied : (g.parser (some limit)).Tallied (g.run text (some limit)).2 :=
    Parser.tallied_perform g.program ⟨Nat.zero_le _, nofun⟩
  obtain ⟨_, ⟨⟩, less⟩ := tallied.refused refused
  have few := g.calls_le hg text (some limit)
  omega

/-- A parse of `n` tokens ends: with `n + 1` turns for every loop and for nesting, none runs out. It begins
at most `n + 1` expressions, has at most so many under way at any time, and meets no limit above `n`. -/
theorem parse_bounded {g : Grammar} (hg : g ∈ Grammar.bundled) (text : String) (limit : Option Int) :
    (∀ turns, (g.scan text).tokens.length < turns →
      Parser.Timed.perform (g.parser limit) turns g.program (g.start text) = some (g.run text limit)) ∧
    Event.calls (g.run text limit).2.log ≤ (g.scan text).tokens.length + 1 ∧
    (∀ log, log <:+ (g.run text limit).2.log → Event.active log ≤ (g.scan text).tokens.length + 1) ∧
    ∀ most ∈ limit, ((g.scan text).tokens.length : Int) < most →
      ∀ l, g.parse text limit ≠ .error (.error (.tooDeep l)) := by
  refine ⟨fun turns h => ?_, g.calls_le hg text limit, fun log hlog => ?_, ?_⟩
  · obtain ⟨rules, program⟩ := g.yielding_of_mem_bundled (E := fun _ => False) hg
    have room : (g.start text).room = (g.scan text).tokens.length := Nat.zero_add _
    have ended := Parser.settles_perform (p := g.parser limit) rules (program not_false) turns
    exact (ended (g.start text) (room ▸ h)).1
  · exact Nat.le_trans (Event.active_le_calls log)
      (Nat.le_trans (Event.calls_le_of_suffix hlog) (g.calls_le hg text limit))
  · rintro most ⟨⟩ h l tooDeep
    rw [Grammar.parse, g.run_eq_of_lt hg h] at tooDeep
    exact g.parse_none_ne_tooDeep hg text l tooDeep

theorem parse_bounded_parenthesised :
    Grammar.arithmetic ∈ Grammar.bundled ∧ (Grammar.arithmetic.scan "(a)").tokens.length = 3 ∧
    Parser.Timed.perform (Grammar.arithmetic.parser (some 4)) 4 Grammar.arithmetic.program
      (Grammar.arithmetic.start "(a)") = some (Grammar.arithmetic.run "(a)" (some 4)) ∧
    Event.calls (Grammar.arithmetic.run "(a)" (some 4)).2.log ≤ 4 ∧
    ∀ l, Grammar.arithmetic.parse "(a)" (some 4) ≠ .error (.error (.tooDeep l)) := by
  have bundled : Grammar.arithmetic ∈ Grammar.bundled := List.mem_cons_self
  have three : (Grammar.arithmetic.scan "(a)").tokens.length = 3 := by decide +kernel
  obtain ⟨ended, calls, -, shallow⟩ := parse_bounded bundled "(a)" (some 4)
  rw [three] at ended calls shallow
  exact ⟨bundled, three, ended 4 (by decide), calls, shallow 4 rfl (by decide)⟩

end Grammar
end BindingPower
