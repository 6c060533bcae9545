import BindingPower.Proofs.Alike
import BindingPower.Proofs.Depth

/-! An input that breaks off at a character that is part of no token, beside one that begins with the same
tokens. A parse of the first goes as a parse of the second does, unless it ends in the error at which its
input breaks off: rules that yield to that error cannot take it for the end of the input. -/
namespace BindingPower

/-- The first input breaks off at a character; up to there the second has like tokens. -/
inductive Scan.BreaksOff (c : String) (o : Int) : Scan → Scan → Prop
  | intro {ts us : List Token} (h : List.Forall₂ Token.Like ts us) (vs : List Token)
    (fault : Option ParseError) :
    BreaksOff c o ⟨ts, some (.unexpectedCharacter c o)⟩ ⟨us ++ vs, fault⟩

variable {c : String} {o : Int}

namespace Scan.BreaksOff
variable {i j : Scan}

theorem peek (h : i.BreaksOff c o j) : i.peek.1 = .error (.unexpectedCharacter c o) ∨
    Outcome.Like (Option.Rel Token.Like) i.peek.1 j.peek.1 ∧ i.peek.2.BreaksOff c o j.peek.2 := by
  obtain ⟨h, vs, fault⟩ := h
  cases h with
  | nil => exact .inl rfl
  | cons ht hts => exact .inr ⟨.ok ht.present?, .intro (.cons ht hts) vs fault⟩

theorem advance (h : i.BreaksOff c o j) : i.advance.1 = .error (.unexpectedCharacter c o) ∨
    Outcome.Like Token.Like i.advance.1 j.advance.1 ∧ i.advance.2.BreaksOff c o j.advance.2 := by
  obtain ⟨h, vs, fault⟩ := h
  cases h with
  | nil => exact .inl rfl
  | cons ht hts => exact .inr ⟨.ok ht, .intro hts vs fault⟩

theorem length_le (h : i.BreaksOff c o j) : i.tokens.length ≤ j.tokens.length := by
  obtain ⟨h, vs, fault⟩ := h
  rw [h.length_eq, List.length_append]
  exact Nat.le_add_right _ _

end Scan.BreaksOff

/-- States of two parses that have come equally far, where the input of the first breaks off. -/
structure Progress.Behind (c : String) (o : Int) (s s' : Progress) : Prop where
  input : s.input.BreaksOff c o s'.input
  depth : s.depth = s'.depth
  classified : s.classified = s'.classified

theorem Progress.Behind.room_le {s s' : Progress} (h : s.Behind c o s') : s.room ≤ s'.room := by
  rw [s.room_eq, s'.room_eq]
  exact h.input.length_le

namespace ParseM
variable {α β : Type} {n : Nat} {R : α → α → Prop} {S : β → β → Prop}

/-- While at most `n` tokens are to come, the first computation keeps up with the second and ends alike,
unless it comes to one of certain ends. -/
def Follows (c : String) (o : Int) (n : Nat) (U : End α → Prop) (R : α → α → Prop) (m m' : ParseM α) :
    Prop :=
  ∀ s s', s.room ≤ n → s.Behind c o s' → U (m s) ∨
    Ends R (m s).1 (m' s').1 ∧ (m s).2.Behind c o (m' s').2 ∧ (m s).2.room ≤ s.room

/-- The end at the character at which the input breaks off. -/
def Broken (c : String) (o : Int) (r : End α) : Prop :=
  r.1 = .error (.error (.unexpectedCharacter c o))

abbrev FollowsToBreak (c : String) (o : Int) (n : Nat) : (α → α → Prop) → ParseM α → ParseM α → Prop :=
  Follows c o n (Broken c o)

namespace Follows
variable {U : End α → Prop}

theorem mono {k : Nat} {U' : End α → Prop} {m m' : ParseM α} (h : Follows c o n U R m m') (hk : k ≤ n)
    (hU : ∀ r, U r → U' r) : Follows c o k U' R m m' :=
  fun s s' hn hs => (h s s' (Nat.le_trans hn hk) hs).imp_left (hU _)

theorem pure {a b : α} (h : R a b) : Follows c o n U R (Pure.pure a) (Pure.pure b) :=
  fun _ _ _ hs => .inr ⟨.ok h, hs, Nat.le_refl _⟩

theorem raise {e e' : ParseError} (h : e.Like e') :
    Follows c o n U R (ParseM.raise e) (ParseM.raise e') :=
  fun _ _ _ hs => .inr ⟨.error h, hs, Nat.le_refl _⟩

theorem defect (d d' : Defect) :
    Follows c o n U R (throw (.defect d)) (throw (.defect d')) :=
  fun _ _ _ hs => .inr ⟨.defect d d', hs, Nat.le_refl _⟩

theorem record (e e' : Event) {U : End Unit → Prop} :
    Follows c o n U (fun _ _ => True) (ParseM.record e) (ParseM.record e') :=
  fun _ _ _ hs => .inr ⟨.ok trivial, ⟨hs.input, hs.depth, hs.classified⟩, Nat.le_refl _⟩

/-- What takes a token in some of its answers leaves fewer for what comes after those. -/
theorem bind_past {P : α → Prop} {m m' : ParseM α} {f f' : α → ParseM β} {U : End β → Prop}
    (hm : Follows c o n (Before f U) R m m')
    (taken : ∀ s a s', m s = (.ok a, s') → P a → s'.room < s.room)
    (hf : ∀ k ≤ n, ∀ a b, R a b → (P a → k < n) → Follows c o k U S (f a) (f' b)) :
    Follows c o n U S (m >>= f) (m' >>= f') := by
  intro s s' hn hs
  have less := taken s
  rw [bind_apply, bind_apply]
  rcases hm s s' hn hs with excused | ⟨ends, after, fewer⟩
  · left
    rcases h : m s with ⟨e | a, t⟩ <;> rw [h] at excused <;> exact excused
  · rcases h : m s with ⟨x, t⟩
    rcases h' : m' s' with ⟨y, t'⟩
    rw [h] at ends after fewer less
    rw [h'] at ends after
    cases ends with
    | @ok a b hab =>
      have fewerLeft (hP : P a) : t.room < n := Nat.lt_of_lt_of_le (less a t rfl hP) hn
      have later := hf t.room (Nat.le_trans fewer hn) a b hab fewerLeft t t' (Nat.le_refl _) after
      exact later.imp_right fun h => ⟨h.1, h.2.1, Nat.le_trans h.2.2 fewer⟩
    | error he => exact .inr ⟨.error he, after, fewer⟩
    | defect d d' => exact .inr ⟨.defect d d', after, fewer⟩

theorem bind {m m' : ParseM α} {f f' : α → ParseM β} {U : End β → Prop}
    (hm : Follows c o n (Before f U) R m m')
    (hf : ∀ k ≤ n, ∀ a b, R a b → Follows c o k U S (f a) (f' b)) :
    Follows c o n U S (m >>= f) (m' >>= f') :=
  bind_past (P := fun _ => False) hm (fun _ _ _ _ h => h.elim) fun k hk a b h _ => hf k hk a b h

theorem outcome {m m' : ParseM α} {U : End (Outcome α) → Prop} (hm : Follows c o n (Uncaught U) R m m') :
    Follows c o n U (Outcome.Like R) (ParseM.outcome m) (ParseM.outcome m') := by
  intro s s' hn hs
  unfold ParseM.outcome
  rcases hm s s' hn hs with excused | ⟨ends, after, fewer⟩
  · left
    rcases h : m s with ⟨(e | d) | a, t⟩ <;> rw [h] at excused <;> exact excused
  · rcases h : m s with ⟨x, t⟩
    rcases h' : m' s' with ⟨y, t'⟩
    rw [h] at ends after fewer
    rw [h'] at ends after
    cases ends with
    | ok hab => exact .inr ⟨.ok (.ok hab), after, fewer⟩
    | error he => exact .inr ⟨.ok (.error he), after, fewer⟩
    | defect d d' => exact .inr ⟨.defect d d', after, fewer⟩

end Follows

namespace FollowsToBreak

/-- The error at which the input breaks off is not caught between two computations. -/
theorem before {f : α → ParseM β} {U : End β → Prop} {m m' : ParseM α}
    (h : FollowsToBreak c o n R m m')
    (hU : ∀ s, U (.error (.error (.unexpectedCharacter c o)), s)) :
    Follows c o n (Before f U) R m m' := by
  apply Follows.mono h (Nat.le_refl _)
  rintro ⟨_, s⟩ rfl
  exact hU s

theorem bind {m m' : ParseM α} {f f' : α → ParseM β} (hm : FollowsToBreak c o n R m m')
    (hf : ∀ k ≤ n, ∀ a b, R a b → FollowsToBreak c o k S (f a) (f' b)) :
    FollowsToBreak c o n S (m >>= f) (m' >>= f') :=
  Follows.bind (hm.before fun _ => rfl) hf

theorem peek : FollowsToBreak c o n (Option.Rel Token.Like) ParseM.peek ParseM.peek := by
  intro s s' _ hs
  rw [Broken, (peek_eq s).1, (peek_eq s').1]
  rcases hs.input.peek with fault | ⟨shown, after⟩
  · left
    rw [fault]
    rfl
  · refine .inr ⟨.of_outcome shown, ⟨?_, ?_, ?_⟩, Nat.le_of_eq (room_peek s)⟩
    · rwa [(peek_eq s).2, (peek_eq s').2]
    · rw [state_peek, state_peek]
      exact hs.depth
    · rw [state_peek, state_peek]
      exact hs.classified

theorem advance : FollowsToBreak c o n Token.Like ParseM.advance ParseM.advance := by
  intro s s' _ hs
  rw [Broken, (advance_eq s).1, (advance_eq s').1]
  rcases hs.input.advance with fault | ⟨taken, after⟩
  · left
    rw [fault]
    rfl
  · refine .inr ⟨.of_outcome taken, ⟨?_, ?_, ?_⟩, ?_⟩
    · rwa [(advance_eq s).2, (advance_eq s').2]
    · rw [state_advance, state_advance]
      exact hs.depth
    · rw [state_advance, state_advance]
      exact hs.classified
    · rw [room_advance]
      exact Nat.sub_le _ _

theorem consume (expected : Token) :
    FollowsToBreak c o n (fun _ _ => True) (ParseM.consume expected) (ParseM.consume expected) := by
  apply peek.bind
  intro k _ next next' h
  cases h with
  | none => exact .raise .incomplete
  | some ht =>
    dsimp only
    rw [ht.same_left]
    split
    · exact advance.bind fun _ _ _ _ _ => .pure trivial
    · exact .raise (.consumeFailed (.refl _) ht)

theorem at? (t : Token) : FollowsToBreak c o n Eq (ParseM.at? t) (ParseM.at? t) := by
  apply peek.bind
  intro k _ next next' h
  cases h with
  | none => exact .pure rfl
  | some hu => exact .pure (hu.same_left t)

theorem closes (separator closing : Option Token) :
    FollowsToBreak c o n Eq (Parser.closes separator closing) (Parser.closes separator closing) := by
  cases separator <;> cases closing <;> first | exact at? _ | exact .pure rfl

end FollowsToBreak
end ParseM

namespace Parser
open ParseM
variable {α : Type} {p : Parser} {n : Nat}

/-- A sequence that is cut short by the break lists it last. -/
def CutShort (c : String) (o : Int) (r : End (List (Outcome Node))) : Prop :=
  r.1 = .error (.error (.unexpectedCharacter c o)) ∨
    ∃ ns : List Node, r.1 = .ok (ns.map .ok ++ [.error (.unexpectedCharacter c o)])

section
variable (he : ∀ r, FollowsToBreak c o n Node.Like (p.reading r) (p.reading r))
include he

theorem follows_elements (level : Int) (separator closing : Option Token) {times times' : Nat}
    (h : n < times) (h' : n < times') :
    Follows c o n (CutShort c o) (List.Forall₂ (Outcome.Like Node.Like))
      (elements p.reading level separator closing times)
      (elements p.reading level separator closing times') := by
  induction times generalizing n separator times' with
  | zero => exact absurd h (Nat.not_lt_zero _)
  | succ times ih =>
    obtain ⟨times', rfl⟩ : ∃ k, times' = k + 1 := ⟨times' - 1, by omega⟩
    have lost (s : Progress) : CutShort c o (.error (.error (.unexpectedCharacter c o)), s) := .inl rfl
    apply Follows.bind ((FollowsToBreak.closes separator closing).before lost)
    rintro k hk (_ | _) _ rfl
    · -- The element that the input breaks off in ends the sequence; any other has taken a token.
      apply Follows.bind_past (P := fun x => ∃ m, x = .ok m)
      · apply Follows.outcome
        apply Follows.mono (he level) hk
        rintro ⟨_, s⟩ rfl
        exact .inr ⟨[], rfl⟩
      · rintro s _ s' hr ⟨m, rfl⟩
        rcases hm : p.reading level s with ⟨(e | d) | m', t⟩ <;> simp only [ParseM.outcome, hm] at hr <;>
          cases hr
        have less := room_reading_lt (congrArg Prod.fst hm)
        rwa [hm] at less
      · intro k' hk' x y hxy taken
        cases hxy with
        | error hc => exact .pure (ending_like hc closing)
        | @ok m m' hm =>
          have fewer := taken ⟨m, rfl⟩
          have more (separator : Option Token) {l : Nat} (hl : l ≤ k') :
              Follows c o l (CutShort c o) (List.Forall₂ (Outcome.Like Node.Like))
                (do return .ok m :: (← elements p.reading level separator closing times))
                (do return .ok m' :: (← elements p.reading level separator closing times')) := by
            have rest : Follows c o l (CutShort c o) (List.Forall₂ (Outcome.Like Node.Like))
                (elements p.reading level separator closing times)
                (elements p.reading level separator closing times') :=
              ih (fun r => (he r).mono (by omega) fun _ h => h) separator (by omega) (by omega)
            apply Follows.bind (rest.mono (Nat.le_refl l) _)
            · exact fun _ _ _ _ hns => .pure (.cons (.ok hm) hns)
            · rintro ⟨_, s⟩ (rfl | ⟨ns, rfl⟩)
              · exact .inl rfl
              · exact .inr ⟨m :: ns, rfl⟩
          cases separator with
          | none => exact more none (Nat.le_refl _)
          | some separator =>
            apply Follows.bind
            · apply Follows.outcome
              apply Follows.mono (FollowsToBreak.consume separator) (Nat.le_refl _)
              rintro ⟨_, s⟩ rfl
              exact .inl rfl
            · intro l hl x y hxy
              cases hxy with
              | ok _ => exact more (some separator) hl
              | error hc =>
                cases hc with
                | incomplete => exact .pure (.cons (.ok hm) (ending_like .incomplete closing))
                | consumeFailed hexpected hfound =>
                  dsimp only
                  rw [funext hfound.same_left]
                  split
                  · exact Follows.bind (FollowsToBreak.advance.before lost) fun _ _ _ _ _ =>
                      .pure (.cons (.ok hm) .nil)
                  · exact .pure (.cons (.ok hm) (.cons (.error (.consumeFailed hexpected hfound)) .nil))
                | missingRule role h => exact .raise (.missingRule role h)
                | malformed hn ht => exact .raise (.malformed hn ht)
                | tooDeep limit => exact .raise (.tooDeep limit)
    · exact Follows.bind (FollowsToBreak.advance.before lost) fun _ _ _ _ _ => .pure .nil

omit he in
theorem follows_rounds {round round' : ParseM Round} (h : FollowsToBreak c o n Round.Like round round')
    (advances : ∀ s m s', round s = (.ok (.item m), s') → s'.room < s.room) {times times' : Nat}
    (ht : n < times) (ht' : n < times') :
    FollowsToBreak c o n (List.Forall₂ Node.Like) (rounds round times) (rounds round' times') := by
  induction times generalizing n times' with
  | zero => exact absurd ht (Nat.not_lt_zero _)
  | succ times ih =>
    obtain ⟨times', rfl⟩ : ∃ k, times' = k + 1 := ⟨times' - 1, by omega⟩
    apply Follows.bind_past (P := fun x => ∃ m, x = .item m) (h.before fun _ => rfl)
    · rintro s _ s' hr ⟨m, rfl⟩
      exact advances s m s' hr
    · intro k hk x y hxy taken
      cases hxy with
      | done => exact .pure .nil
      | @item m m' hm =>
        have fewer := taken ⟨m, rfl⟩
        apply FollowsToBreak.bind (ih (h.mono hk fun _ h => h) (by omega) (by omega))
        exact fun _ _ _ _ hns => .pure (.cons hm hns)
      | last hm => exact .pure (.cons hm .nil)

variable (hp : p.Indifferent)
include hp

omit he in
theorem Indifferent.follows_kindOf {t u : Token} (h : t.Like u) :
    FollowsToBreak c o n Eq (p.kindOf t) (p.kindOf u) := by
  intro s s' _ hs
  right
  have same := hp.classified s.classified t u h
  unfold Parser.kindOf
  rw [← hs.classified]
  rcases hx : p.classifier s.classified t with d | kind <;>
    rcases hy : p.classifier s.classified u with d' | kind' <;> rw [hx, hy] at same
  · exact ⟨.defect d d', hs, Nat.le_refl _⟩
  · cases same
  · cases same
  · exact ⟨.ok (Option.some.inj same), ⟨hs.input, hs.depth, rfl⟩, Nat.le_refl _⟩

omit he in
theorem Indifferent.follows_binds (r : Int) : FollowsToBreak c o n Eq (p.binds r) (p.binds r) := by
  apply FollowsToBreak.peek.bind
  intro k _ next next' h
  cases h with
  | none => exact .pure rfl
  | some ht =>
    apply (hp.follows_kindOf ht).bind
    rintro l _ kind _ rfl
    split <;> exact .pure rfl

/-- Answers are alike, or tell of the break. -/
theorem Indifferent.follows_answer (q : Request) :
    Follows c o n (fun r => ∃ answer, r.1 = .ok answer ∧
        Action.Failed (.unexpectedCharacter c o) q answer)
      (Outcome.Like q.Like) (outcome (p.answer p.reading q)) (outcome (p.answer p.reading q)) := by
  apply Follows.outcome
  cases q with
  | peek =>
    apply Follows.mono FollowsToBreak.peek (Nat.le_refl _)
    rintro ⟨_, s⟩ rfl
    exact ⟨_, rfl, rfl⟩
  | binds r =>
    apply Follows.mono (hp.follows_binds r) (Nat.le_refl _)
    rintro ⟨_, s⟩ rfl
    exact ⟨_, rfl, rfl⟩
  | expr r =>
    apply Follows.mono (he r) (Nat.le_refl _)
    rintro ⟨_, s⟩ rfl
    exact ⟨_, rfl, rfl⟩
  | consume t =>
    apply Follows.mono (FollowsToBreak.consume t) (Nat.le_refl _)
    rintro ⟨_, s⟩ rfl
    exact ⟨_, rfl, rfl, c, o, rfl⟩
  | sequence level separator closing =>
    intro s s' hn hs
    have later := hs.room_le
    have listed := follows_elements (fun r => (he r).mono hn fun _ h => h) level separator closing
      (Nat.lt_succ_self s.room) (Nat.lt_succ_of_le later)
    refine (listed s s' (Nat.le_refl _) hs).imp_left ?_
    change CutShort c o (elements p.reading level separator closing (s.room + 1) s) →
      Uncaught _ (elements p.reading level separator closing (s.room + 1) s)
    rcases elements p.reading level separator closing (s.room + 1) s with ⟨_, t⟩
    rintro (rfl | ⟨ns, rfl⟩)
    · exact ⟨_, rfl, .inl rfl⟩
    · exact ⟨_, rfl, .inr ⟨ns, rfl⟩⟩

/-- Actions that are alike are carried out alike, if they yield to the break. -/
theorem Indifferent.follows_run {R : α → α → Prop} {E : ParseError → Prop}
    (hE : E (.unexpectedCharacter c o)) {a a' : Action α} (h : Action.Alike R a a')
    (hy : a.Yielding E) : FollowsToBreak c o n R (p.run p.reading a) (p.run p.reading a') := by
  induction h generalizing n with
  | give h => exact .pure h
  | raise h => exact .raise h
  | defect d d' => exact .defect d d'
  | @ask α R q next next' _ ih =>
    cases hy with
    | ask answered failed =>
      apply Follows.bind
      · apply (hp.follows_answer he q).mono (Nat.le_refl _)
        rintro ⟨_, s⟩ ⟨answer, rfl, told⟩
        simp only [Before, failed _ answer hE told]
        rfl
      · exact fun k hk x y h => ih x y h (fun r => (he r).mono hk fun _ h => h) (answered x)
  | @gather α R round round' next next' _ _ ihr ih =>
    cases hy with
    | gather each advances gathered failed =>
      apply Follows.bind
      · apply Follows.outcome
        intro s s' hn hs
        have items := follows_rounds (ihr (fun r => (he r).mono hn fun _ h => h) each)
          (fun s m s' h => advances p s (.item m) s' h ⟨m, rfl⟩) (Nat.lt_succ_self s.room)
          (Nat.lt_succ_of_le hs.room_le) s s' (Nat.le_refl _) hs
        refine items.imp_left fun broken => ?_
        change Uncaught _ (rounds (p.run p.reading round) (s.room + 1) s)
        rcases hr : rounds (p.run p.reading round) (s.room + 1) s with ⟨_, t⟩
        obtain rfl : _ = _ := (congrArg Prod.fst hr).symm.trans broken
        simp only [Uncaught, Before, failed _ hE]
        rfl
      · exact fun k hk x y h => ih x y h (fun r => (he r).mono hk fun _ h => h) (gathered x)

end

theorem follows_noted {m m' : Node} (h : m.Like m') (event : Node → Event) :
    FollowsToBreak c o n Node.Like (do record (event m); return m) (do record (event m'); return m') :=
  FollowsToBreak.bind (.record _ _) fun _ _ _ _ _ => .pure h

theorem follows_nested {m m' : ParseM Node} (r : Int) (h : FollowsToBreak c o n Node.Like m m') :
    FollowsToBreak c o n Node.Like (p.nested r m) (p.nested r m') := by
  intro s s' hn hs
  unfold Parser.nested
  rw [← hs.depth]
  split
  · exact .inr ⟨.error (.tooDeep _), ⟨hs.input, rfl, hs.classified⟩, Nat.le_refl _⟩
  · rcases h { s with depth := s.depth + 1, log := .enter r :: s.log }
      { s' with depth := s.depth + 1, log := .enter r :: s'.log } hn
      ⟨hs.input, rfl, hs.classified⟩ with broken | ⟨ends, after, fewer⟩
    · exact .inl broken
    · exact .inr ⟨ends, ⟨after.input, congrArg (· - 1) after.depth, after.classified⟩, fewer⟩

section
variable (hp : p.Indifferent) {E : ParseError → Prop} (hE : E (.unexpectedCharacter c o))
  (hy : p.table.Yielding E)
include hp hE hy

section
variable (ih : ∀ k < n, ∀ r, FollowsToBreak c o k Node.Like (p.reading r) (p.reading r))
include ih

theorem Indifferent.follows_start :
    FollowsToBreak c o n Node.Like (p.start p.reading) (p.start p.reading) := by
  apply Follows.bind_past (FollowsToBreak.advance.before fun _ => rfl) fun s t s' h _ =>
    room_lt_of_advance h
  intro k _ t u ht taken
  apply (hp.follows_kindOf ht).bind
  rintro l hl kind _ rfl
  apply FollowsToBreak.bind (.record _ _)
  intro j hj _ _ _
  cases hr : p.table.prefixRule? kind with
  | none => exact .raise (.missingRule _ ht)
  | some rule =>
    have fewer : j < n := Nat.lt_of_le_of_lt (Nat.le_trans hj hl) (taken trivial)
    apply (hp.follows_run (ih j fewer) hE (hp.table.starting kind rule hr t u _ ht)
      (hy.starting kind rule hr t _)).bind
    exact fun _ _ _ _ hm => follows_noted hm .left

theorem Indifferent.follows_extend {left left' : Node} (hl : left.Like left') :
    FollowsToBreak c o n Node.Like (p.extend p.reading left) (p.extend p.reading left') := by
  apply Follows.bind_past (FollowsToBreak.advance.before fun _ => rfl) fun s t s' h _ =>
    room_lt_of_advance h
  intro k _ t u ht taken
  apply (hp.follows_kindOf ht).bind
  rintro j hj kind _ rfl
  cases hr : p.table.infixRule? kind with
  | none => exact .raise (.missingRule _ ht)
  | some rule =>
    have fewer : j < n := Nat.lt_of_le_of_lt hj (taken trivial)
    apply (hp.follows_run (ih j fewer) hE (hp.table.continuing kind rule hr t u _ left left' ht hl)
      (hy.continuing kind rule hr t _ left)).bind
    exact fun _ _ _ _ hm => follows_noted hm .left

/-- Whatever continues an expression takes a token, so there are fewer for what continues it next. -/
theorem Indifferent.follows_extending (r : Int) {left left' : Node} (hl : left.Like left') :
    FollowsToBreak c o n Node.Like (p.extending r left) (p.extending r left') := by
  induction n using Nat.strongRecOn generalizing left left' with
  | ind n again =>
    rw [extending_eq, extending_eq]
    apply (hp.follows_binds r).bind
    rintro k hk (_ | _) _ rfl
    · exact .pure hl
    · simp only [if_true]
      have fewer (j : Nat) (hj : j < k) := ih j (Nat.lt_of_lt_of_le hj hk)
      apply Follows.bind_past ((hp.follows_extend hE hy fewer hl).before fun _ => rfl)
        fun s m s' h _ => room_lt_of_extend h
      intro j hj m m' hm taken
      have less := Nat.lt_of_lt_of_le (taken trivial) hk
      exact again j less (fun i hi => ih i (Nat.lt_trans hi less)) hm

end

/-- Reading an expression where the input breaks off later. -/
theorem Indifferent.follows_reading (n : Nat) (r : Int) :
    FollowsToBreak c o n Node.Like (p.reading r) (p.reading r) := by
  induction n using Nat.strongRecOn generalizing r with
  | ind n ih =>
    rw [reading_eq]
    apply follows_nested
    apply FollowsToBreak.peek.bind
    intro k hk next next' h
    have fewer (j : Nat) (hj : j < k) := ih j (Nat.lt_of_lt_of_le hj hk)
    cases h with
    | none => exact .raise .incomplete
    | some _ =>
      apply (hp.follows_start hE hy fewer).bind
      intro j hj left left' hl
      have later (i : Nat) (hi : i < j) := fewer i (Nat.lt_of_lt_of_le hi hj)
      exact (hp.follows_extending hE hy later r hl).bind fun _ _ _ _ hm => follows_noted hm .result

theorem Indifferent.follows_perform {R : α → α → Prop} {a a' : Action α} (h : Action.Alike R a a')
    (ha : a.Yielding E) : FollowsToBreak c o n R (p.perform a) (p.perform a') := by
  rw [perform_eq, perform_eq]
  exact hp.follows_run (hp.follows_reading hE hy n) hE h ha

end
end Parser
end BindingPower
