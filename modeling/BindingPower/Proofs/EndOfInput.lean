import BindingPower.Proofs.Origin
import BindingPower.Proofs.Sequence

/-! The end of the input. Rules that complain of it only where they have been told of it never do so while
there are tokens to come, and nor do the parser and the sequences it reads. -/
namespace BindingPower
open ParseM

/-- Outcomes that tell that the input has ended too early: this error, and certain answers. -/
def Outcome.TellsEnd {α : Type} (told : α → Prop) : Outcome α → Prop
  | .ok a => told a
  | .error e => e = .incomplete

/-- A sequence that lacks its closing token lists the error. -/
def Request.Tells : (q : Request) → q.Answer → Prop
  | .sequence .., (outcomes : List (Outcome Node)) => .error .incomplete ∈ outcomes
  | _, _ => False

namespace Action

/-- Actions that do not complain of the end of the input unless they have been told of it. From then on
they may do anything. -/
inductive Honest : {α : Type} → Action α → Prop
  | give {α : Type} (a : α) : Honest (.give a)
  | fail {α : Type} {cause : Failure} (h : cause ≠ .error .incomplete) : Honest (.fail cause : Action α)
  | ask {α : Type} {q : Request} {next : Outcome q.Answer → Action α}
    (answered : ∀ answer, ¬Outcome.TellsEnd q.Tells answer → Honest (next answer)) :
    Honest (.ask q next)
  | gather {α : Type} {round : Action Round} {next : Outcome (List Node) → Action α} (each : Honest round)
    (gathered : ∀ items, items ≠ .error .incomplete → Honest (next items)) : Honest (.gather round next)

namespace Honest
variable {α β : Type}

theorem bind {a : Action α} {f : α → Action β} (ha : a.Honest) (hf : ∀ x, (f x).Honest) :
    (a >>= f).Honest := by
  change (a.bind f).Honest
  induction ha with
  | give a => exact hf a
  | fail h => exact .fail h
  | ask answered ih => exact .ask fun answer h => ih answer h hf
  | gather each gathered _ ih => exact .gather each fun items h => ih items h hf

theorem pure (a : α) : (Pure.pure a : Action α).Honest := .give a

theorem ofOutcome {told : α → Prop} {o : Outcome α} (h : ¬o.TellsEnd told) :
    (Action.ofOutcome o).Honest := by
  cases o with
  | ok a => exact .give a
  | error e => exact .fail fun same => h (Failure.error.inj same)

theorem expr (threshold : Int) : (Action.expr threshold).Honest := .ask fun _ => ofOutcome

theorem consume (expected : Token) : (Action.consume expected).Honest := .ask fun _ => ofOutcome

end Honest
end Action

def PrefixRule.Honest (rule : PrefixRule) : Prop := ∀ t power, (rule.action t power).Honest

def InfixRule.Honest (rule : InfixRule) : Prop := ∀ t power left, (rule.action t power left).Honest

abbrev RuleTable.Honest (table : RuleTable) : Prop := table.Each PrefixRule.Honest InfixRule.Honest

/-- A state whose input has neither a gap nor an error. -/
structure Progress.Plain (s : Progress) : Prop where
  whole : s.input.fault = none
  gapless : .absent ∉ s.input.tokens

namespace Progress.Plain
variable {s s' : Progress}

theorem onto (h : s.Plain) (moves : Parser.Onto s s') : s'.Plain where
  whole := by
    cases met : s'.input.fault with
    | none => rfl
    | some e => exact absurd (h.whole.symm.trans (moves.fault e met)) nofun
  gapless found := h.gapless (moves.tokens.subset found)

theorem peek (h : s.Plain) :
    s.input.tokens = [] ∧ (ParseM.peek s).1 = .ok none ∨ ∃ t, (ParseM.peek s).1 = .ok (some t) := by
  obtain ⟨whole, gapless⟩ := h
  rw [(peek_eq s).1]
  generalize s.input = i at whole gapless
  rcases i with ⟨_ | ⟨t, ts⟩, fault⟩ <;> cases whole
  · exact .inl ⟨rfl, rfl⟩
  · cases t with
    | absent => exact absurd List.mem_cons_self gapless
    | _ => exact .inr ⟨_, rfl⟩

end Progress.Plain

namespace ParseM
variable {α β : Type}

/-- A computation that tells of the end of the input only where it is, if at most `n` tokens are to come. -/
structure Notices (n : Nat) (told : α → Prop) (m : ParseM α) : Prop where
  moves : Moves Parser.Onto m
  ended : ∀ s, s.room ≤ n → s.Plain → ∀ o : Outcome α, (m s).1 = o.mapError .error → o.TellsEnd told →
    (m s).2.input.tokens = []

/-- The same where no answer tells of it. -/
abbrev NoticesEnd (n : Nat) (m : ParseM α) : Prop := Notices n (fun _ => False) m

theorem room_le_of_onto {s s' : Progress} (h : Parser.Onto s s') : s'.room ≤ s.room := by
  rw [s.room_eq, s'.room_eq]
  exact h.tokens.length_le

theorem tokens_of_onto {s s' : Progress} (h : Parser.Onto s s') (none : s.input.tokens = []) :
    s'.input.tokens = [] :=
  List.suffix_nil.mp (none ▸ h.tokens)

namespace Notices
variable {n : Nat} {told : α → Prop} {told' : β → Prop}

/-- What takes a token leaves fewer for what comes after it. -/
theorem bind_past {m : ParseM α} {f : α → ParseM β} {k : Nat} (hm : NoticesEnd n m)
    (less : ∀ s a s', m s = (.ok a, s') → s.room ≤ n → s'.room ≤ k)
    (hf : ∀ a, Notices k told' (f a)) : Notices n told' (m >>= f) where
  moves := hm.moves.bind Parser.Onto.trans fun a => (hf a).moves
  ended := by
    intro s hs plain o ho h
    have first := hm.ended s hs plain
    have moves := hm.moves s
    rw [bind_apply] at ho ⊢
    rcases hx : m s with ⟨c | a, s'⟩ <;> rw [hx] at first moves ho
    · cases o with
      | ok b => cases ho
      | error e =>
        cases ho
        exact first (.error e) rfl h
    · exact (hf a).ended s' (less s a s' hx hs) (plain.onto moves) o ho h

theorem bind {m : ParseM α} {f : α → ParseM β} (hm : NoticesEnd n m) (hf : ∀ a, Notices n told' (f a)) :
    Notices n told' (m >>= f) := by
  refine bind_past hm (fun s a s' h hs => ?_) hf
  have moves := hm.moves s
  rw [h] at moves
  exact Nat.le_trans (room_le_of_onto moves) hs

/-- Nothing is left to come once the end has been told of. -/
theorem bind_outcome {m : ParseM α} {f : Outcome α → ParseM β} (hm : Notices n told m)
    (stays : ∀ o, o.TellsEnd told → Moves Parser.Onto (f o))
    (hf : ∀ o, ¬o.TellsEnd told → Notices n told' (f o)) : Notices n told' (outcome m >>= f) where
  moves := by
    refine hm.moves.outcome.bind Parser.Onto.trans fun o => ?_
    by_cases hears : o.TellsEnd told
    · exact stays o hears
    · exact (hf o hears).moves
  ended := by
    intro s hs plain o ho h
    have first := hm.moves s
    rw [bind_apply] at ho ⊢
    rcases outcome_cases m s with ⟨d, s', hx, hd⟩ | ⟨x, s', hx, hd⟩
    · rw [hd] at ho
      cases o <;> cases ho
    · rw [hd] at ho ⊢
      rw [hx] at first
      by_cases hears : x.TellsEnd told
      · have none := hm.ended s hs plain x (by rw [hx]) hears
        rw [hx] at none
        exact tokens_of_onto (stays x hears s') none
      · exact (hf x hears).ended s' (Nat.le_trans (room_le_of_onto first) hs) (plain.onto first) o ho h

theorem pure {a : α} (h : ¬told a) : Notices n told (Pure.pure a) where
  moves := Parser.Onto.refl
  ended s _ _ o ho ht := by
    cases o <;> cases ho
    exact absurd ht h

theorem throw {c : Failure} (h : c ≠ .error .incomplete) : Notices n told (throw c : ParseM α) where
  moves := Parser.Onto.refl
  ended s _ _ o ho ht := by
    cases o <;> cases ho
    exact absurd (congrArg Failure.error ht) h

theorem raise {e : ParseError} (h : e ≠ .incomplete) : Notices n told (ParseM.raise e) :=
  throw fun same => h (Failure.error.inj same)

theorem of_ok {m : ParseM α} (moves : Moves Parser.Onto m) (ok : ∀ s, ∃ a, (m s).1 = .ok a) :
    NoticesEnd n m where
  moves := moves
  ended s _ _ o ho ht := by
    obtain ⟨a, h⟩ := ok s
    rw [h] at ho
    cases o <;> cases ho
    exact ht.elim

theorem room : NoticesEnd n ParseM.room := of_ok Parser.Onto.refl fun _ => ⟨_, rfl⟩

theorem record (e : Event) : NoticesEnd n (ParseM.record e) :=
  of_ok (fun s => ⟨List.suffix_cons e s.log, List.suffix_refl _, fun _ h => h⟩) fun _ => ⟨_, rfl⟩

/-- Where no token is to come there is nothing to be told. -/
theorem of_room_zero {m : ParseM α} (moves : Moves Parser.Onto m) : Notices 0 told m where
  moves := moves
  ended s hs _ _ _ _ := by
    rw [s.room_eq, Nat.le_zero] at hs
    exact tokens_of_onto (moves s) (List.eq_nil_of_length_eq_zero hs)

theorem advance : NoticesEnd n ParseM.advance where
  moves := Parser.Onto.advance
  ended := by
    rintro s - ⟨whole, -⟩ o ho ht
    obtain ⟨taken, left⟩ := advance_eq s
    rw [taken] at ho
    rw [left]
    generalize s.input = i at whole ho
    rcases i with ⟨_ | ⟨t, ts⟩, fault⟩ <;> cases whole
    · rfl
    · cases o <;> cases ho
      exact ht.elim

/-- When nothing is shown, nothing is left. -/
theorem bind_peek {f : Option Token → ParseM β} (stops : Moves Parser.Onto (f none))
    (hf : ∀ t, Notices n told' (f (some t))) : Notices n told' (ParseM.peek >>= f) where
  moves := by
    refine Parser.Onto.peek.bind Parser.Onto.trans ?_
    rintro (_ | t)
    · exact stops
    · exact (hf t).moves
  ended := by
    intro s hs plain o ho h
    have moves := Parser.Onto.peek s
    have shows := plain.peek
    rw [bind_apply] at ho ⊢
    rcases hp : ParseM.peek s with ⟨e | _ | t, s'⟩ <;> rw [hp] at ho moves shows
    · simp at shows
    · have none : s.input.tokens = [] := by simpa using shows
      exact tokens_of_onto (moves.trans (stops s')) none
    · exact (hf t).ended s' (Nat.le_trans (room_le_of_onto moves) hs) (plain.onto moves) o ho h

theorem peek : NoticesEnd n ParseM.peek := by
  have h : NoticesEnd n (ParseM.peek >>= Pure.pure) := bind_peek Parser.Onto.refl fun _ => pure id
  rwa [bind_pure] at h

theorem consume (expected : Token) : NoticesEnd n (ParseM.consume expected) := by
  refine bind_peek Parser.Onto.refl fun t => ?_
  dsimp only
  split
  · exact advance.bind fun _ => pure id
  · exact raise nofun

end Notices
end ParseM

namespace Parser
variable {p : Parser} {n : Nat}

theorem notices_kindOf (t : Token) : NoticesEnd n (p.kindOf t) where
  moves := (pervasive_onto p).kindOf t
  ended s _ _ o ho ht := by
    unfold kindOf at ho
    split at ho <;> cases o <;> cases ho
    exact ht.elim

theorem notices_binds (r : Int) : NoticesEnd n (p.binds r) := by
  refine .bind_peek Onto.refl fun t => (notices_kindOf t).bind fun kind => ?_
  split <;> exact .pure id

theorem notices_closes (separator closing : Option Token) : NoticesEnd n (closes separator closing) := by
  rcases separator with _ | _ <;> rcases closing with _ | c
  · exact .pure id
  · exact Notices.peek.bind fun _ => .pure id
  all_goals exact .pure id

section
variable {e : Int → ParseM Node} (he : ∀ r, NoticesEnd n (e r))
include he

omit he in
private theorem notices_cons {m : ParseM (List (Outcome Node))}
    (h : Notices n (.error .incomplete ∈ ·) m) (node : Node) :
    Notices n (.error .incomplete ∈ ·) (do return (.ok node : Outcome Node) :: (← m)) where
  moves := h.moves.bind Onto.trans fun _ => Onto.refl
  ended := by
    intro s hs plain o ho ht
    have first := h.ended s hs plain
    rw [bind_apply] at ho ⊢
    rcases hx : m s with ⟨c | outcomes, s'⟩ <;> rw [hx] at first ho <;> cases o <;> cases ho
    · exact first (.error _) rfl ht
    · exact first (.ok outcomes) rfl (by simpa [Outcome.TellsEnd] using ht)

theorem notices_elements (level : Int) (separator closing : Option Token) (times : Nat) :
    Notices n (.error .incomplete ∈ ·) (elements e level separator closing times) := by
  induction times with
  | zero => exact .pure nofun
  | succ times ih =>
    refine (notices_closes separator closing).bind ?_
    rintro (_ | _)
    · refine Notices.bind_outcome (he level) ?_ ?_
      · rintro (_ | _) ⟨⟩
        exact Onto.refl
      · rintro (c | node) h
        · refine .pure ?_
          cases c with
          | incomplete => exact absurd rfl h
          | _ => simp [ending]
        · cases separator with
          | none => exact notices_cons ih node
          | some sep =>
            refine Notices.bind_outcome (.consume sep) ?_ ?_
            · rintro (_ | _) ⟨⟩
              exact Onto.refl
            · rintro (c | _) h
              · cases c with
                | incomplete => exact absurd rfl h
                | consumeFailed expected found =>
                  dsimp only
                  split
                  · exact Notices.advance.bind fun _ => .pure (by simp)
                  · exact .pure (by simp)
                | _ => exact .raise nofun
              · exact notices_cons ih node
    · exact Notices.advance.bind fun _ => .pure nofun

theorem notices_answer (q : Request) : Notices n q.Tells (p.answer e q) := by
  cases q with
  | peek => exact .peek
  | binds r => exact notices_binds r
  | expr r => exact he r
  | consume t => exact .consume t
  | sequence level separator closing =>
    exact Notices.room.bind fun _ => notices_elements he level separator closing _

omit he in
theorem notices_rounds {round : ParseM Round} (h : NoticesEnd n round) (times : Nat) :
    NoticesEnd n (rounds round times) := by
  induction times with
  | zero => exact .pure id
  | succ times ih =>
    apply h.bind
    rintro (_ | n | n)
    · exact .pure id
    · exact ih.bind fun _ => .pure id
    · exact .pure id

theorem notices_run {α : Type} {a : Action α} (ha : a.Honest) : NoticesEnd n (p.run e a) := by
  have moves {α : Type} (a : Action α) : Moves Onto (p.run e a) :=
    (pervasive_onto p).run (fun r => (he r).moves) a
  induction ha with
  | give a => exact .pure id
  | fail h => exact .throw h
  | ask answered ih => exact .bind_outcome (notices_answer he _) (fun _ _ => moves _) ih
  | gather each gathered ihr ih =>
    have items : NoticesEnd n (do rounds (p.run e _) ((← room) + 1)) :=
      Notices.room.bind fun _ => notices_rounds ihr _
    refine .bind_outcome items (fun _ _ => moves _) fun o h => ih o ?_
    rintro rfl
    exact h rfl

omit he in
private theorem notices_noted {m : ParseM Node} (h : NoticesEnd n m) (event : Node → Event) :
    NoticesEnd n (do let node ← m; record (event node); return node) :=
  h.bind fun _ => (Notices.record _).bind fun _ => .pure id

section
variable (honest : p.table.Honest)
include honest

theorem notices_start : NoticesEnd (n + 1) (p.start e) := by
  have less (s : Progress) (t : Token) (s' : Progress) (h : advance s = (.ok t, s'))
      (hs : s.room ≤ n + 1) : s'.room ≤ n := by
    have := room_lt_of_advance h
    omega
  refine Notices.advance.bind_past less fun t => (notices_kindOf t).bind fun kind =>
    (Notices.record _).bind fun _ => ?_
  cases hr : p.table.prefixRule? kind with
  | none => exact .raise nofun
  | some rule => exact notices_noted (notices_run he (honest.starting kind rule hr t _)) .left

theorem notices_extend (left : Node) : NoticesEnd n (p.extend e left) := by
  refine Notices.advance.bind fun t => (notices_kindOf t).bind fun kind => ?_
  cases hr : p.table.infixRule? kind with
  | none => exact .raise nofun
  | some rule => exact notices_noted (notices_run he (honest.continuing kind rule hr t _ left)) .left

theorem notices_continued (r : Int) (bound : Nat) (left : Node) :
    NoticesEnd n (p.continued e r bound left) := by
  induction bound generalizing left with
  | zero => exact (notices_binds r).bind fun _ => .pure id
  | succ bound ih =>
    apply (notices_binds r).bind
    rintro (_ | _)
    · exact .pure id
    · exact (notices_extend he honest left).bind ih

end
end

theorem notices_nested {m : ParseM Node} (r : Int) (h : NoticesEnd n m) : NoticesEnd n (p.nested r m) where
  moves := (pervasive_onto p).nested r h.moves
  ended := by
    intro s hs plain o ho ht
    unfold nested at ho ⊢
    split at ho
    · cases o <;> cases ho
      cases ht
    · rw [if_neg ‹_›]
      exact h.ended { s with depth := s.depth + 1, log := .enter r :: s.log } hs ⟨plain.whole, plain.gapless⟩
        o ho ht

/-- An expression complains of the end of the input only where it is. -/
theorem notices_expr (honest : p.table.Honest) (r : Int) : NoticesEnd n (p.expr n r) := by
  induction n generalizing r with
  | zero => exact .of_room_zero ((pervasive_onto p).expr 0 r)
  | succ n ih =>
    refine notices_nested r (.bind_peek Onto.refl fun _ => ?_)
    -- The start takes a token: what is left is within the bound of the expressions inside.
    have shrink (r : Int) : AgreeTo n (p.expr n r) (p.expr n r) :=
      agree_expr r (Nat.le_refl n) (Nat.le_refl n)
    have less (s : Progress) (left : Node) (s' : Progress) (h : p.start (p.expr n) s = (.ok left, s'))
        (hs : s.room ≤ n + 1) : s'.room ≤ n := by
      have taken := (agree_start (p := p) shrink s (room_pos_of_advance h) hs).2
      rw [h] at taken
      dsimp only at taken
      omega
    exact (notices_start ih honest).bind_past less fun left =>
      notices_noted (notices_continued ih honest r n left) .result

theorem notices_perform (honest : p.table.Honest) {α : Type} {a : Action α} (ha : a.Honest) {s s' : Progress}
    (plain : s.Plain) (h : p.perform a s = (.error (.error .incomplete), s')) : s'.input.tokens = [] := by
  have noticed := (notices_run (p := p) (notices_expr honest) ha).ended s (Nat.le_refl _) plain
    (.error .incomplete)
  rw [show p.run (p.expr s.room) a s = p.perform a s from rfl, h] at noticed
  exact noticed rfl rfl

/-- What the outcomes of a sequence say of it: the nodes of its elements up to `s₁`, and the error, if any,
that has stopped it there. -/
structure SequenceReport (p : Parser) (level : Int) (separator closing : Option Token) (s : Progress)
    (ns : List Node) (s₁ : Progress) (last : Option ParseError) (s' : Progress) : Prop where
  read : p.Elements level separator s ns s₁
  /-- Without an error, the closing token is taken right after the last element. Only without a separator
  may it come before any. -/
  closed : last = none → ∀ c, closing = some c →
    (ns = [] → separator = none) ∧ p.perform (.consume c) s₁ = (.ok (), s')
  exhausted : last = none → closing = none → s'.input.tokens = []
  early : last = some .incomplete → closing.isSome ∧ s'.input.tokens = []
  /-- An error is that of the next element or of the separator before it. A token that is no separator is
  left to come and does not close the sequence. -/
  failed : ∀ e, last = some e →
    (∃ s₂, p.Due separator ns s₁ s₂ ∧ p.perform (.expr level) s₂ = (.error (.error e), s')) ∨
    ∃ sep, separator = some sep ∧ ns ≠ [] ∧ p.perform (.consume sep) s₁ = (.error (.error e), s') ∧
      ∀ expected t, e = .consumeFailed expected t → expected = sep ∧
        (p.perform .peek s').1 = .ok (some t) ∧ t.same sep = false ∧ ∀ c, closing = some c → t.same c = false

section
variable {level : Int} {separator closing : Option Token} {s s₁ s' : Progress} {ns : List Node}

theorem SequenceReport.of_told {e : ParseError} (read : p.Elements level separator s ns s₁)
    (ended : e = .incomplete → s'.input.tokens = [])
    (failed : (∃ s₂, p.Due separator ns s₁ s₂ ∧ p.perform (.expr level) s₂ = (.error (.error e), s')) ∨
      ∃ sep, separator = some sep ∧ ns ≠ [] ∧ p.perform (.consume sep) s₁ = (.error (.error e), s') ∧
        ∀ expected t, e = .consumeFailed expected t → expected = sep ∧
          (p.perform .peek s').1 = .ok (some t) ∧ t.same sep = false ∧
          ∀ c, closing = some c → t.same c = false) :
    p.SequenceReport level separator closing s ns s₁ (told closing e) s' where
  read := read
  closed h c hc := absurd hc (by rw [(told_eq_none h).2]; nofun)
  exhausted h _ := ended (told_eq_none h).1
  early h := by
    obtain ⟨rfl, needed⟩ := told_eq_some h
    exact ⟨needed rfl, ended rfl⟩
  failed e' h := by
    obtain ⟨rfl, -⟩ := told_eq_some h
    exact failed

/-- The token that is no separator has been looked at and stays where it is. -/
theorem found_of_consume (looked : s.Looked) {sep expected t : Token}
    (h : p.perform (.consume sep) s = (.error (.error (.consumeFailed expected t)), s')) :
    expected = sep ∧ (p.perform .peek s').1 = .ok (some t) ∧ t.same sep = false := by
  rw [perform_consume] at h
  rw [perform_peek]
  rcases looked.consume with ⟨-, found⟩ | ⟨u, s₁, shown, -, found⟩
  · cases (found sep).symm.trans h
  · rw [found] at h
    split at h
    · cases h
    · cases h
      exact ⟨rfl, by rw [shown], Bool.eq_false_iff.mpr ‹_›⟩

/-- Whatever stops a sequence on a plain input is reported as it is. -/
theorem Stops.report (honest : p.table.Honest) {last : Option ParseError} (plain : s₁.Plain)
    (read : p.Elements level separator s ns s₁) (stops : p.Stops level separator closing ns s₁ last s') :
    p.SequenceReport level separator closing s ns s₁ last s' := by
  cases stops with
  | closed due first taken =>
    subst due
    refine ⟨read, ?_, ?_, ?_, ?_⟩
    · rintro - c ⟨⟩
      exact ⟨first, taken⟩
    · rintro - ⟨⟩
    · rintro ⟨⟩
    · rintro e ⟨⟩
  | element due failed =>
    refine .of_told read (fun h => ?_) (.inl ⟨_, due, failed⟩)
    subst h
    exact notices_perform honest (.expr level) (plain.onto due.onto) failed
  | @separator sep e _ due after failed other =>
    refine .of_told read (fun h => ?_) (.inr ⟨sep, due, after, failed, ?_⟩)
    · subst h
      exact notices_perform honest (.consume sep) plain failed
    · rintro expected t rfl
      obtain ⟨rfl, shown, apart⟩ := found_of_consume (read.looked after) failed
      exact ⟨rfl, shown, apart, fun c hc => other c hc t rfl⟩

end

/-- On a list without gaps, with rules that do not complain of the end of the input by themselves, reading a
sequence raises no error and reports exactly what has happened. Only a defect that the classifier has for a
token of the list, or a rule of the table, can break it off. -/
theorem sequence_reports (honest : p.table.Honest) (level : Int) (separator closing : Option Token)
    {s : Progress} {l : ListLexer} (list : s.lexer = .list l) (gapless : .absent ∉ l.remaining) :
    (∃ d s', p.perform (.sequence level separator closing) s = (.error (.defect d), s') ∧
      p.Breaks l.remaining d) ∨
    ∃ ns s₁ last s', p.perform (.sequence level separator closing) s =
        (.ok (ns.map .ok ++ last.toList.map .error), s') ∧
      p.SequenceReport level separator closing s ns s₁ last s' := by
  have opens : p.Opens separator closing s s := by
    rcases separator with _ | sep <;> rcases closing with _ | c
    · rfl
    · refine ⟨l.peek, ?_⟩
      rw [perform_peek, ParseM.peek, list, Lexer.peek, ← list]
    all_goals rfl
  have input : s.input = ⟨l.remaining, none⟩ := by rw [Progress.input, list, Lexer.input]
  have plain : s.Plain := ⟨by rw [input], by rwa [input]⟩
  have reports := reports_sequence level opens
  rcases hr : p.perform (.sequence level separator closing) s with ⟨r, s'⟩
  rw [hr] at reports
  cases reports with
  | defect d =>
    have origin := breaks_of_perform (.asked _) hr
    rw [input] at origin
    exact .inl ⟨d, _, rfl, origin⟩
  | @outcomes ns last s₁ _ read stops =>
    refine .inr ⟨ns, s₁, last, s', rfl, ?_⟩
    rw [List.nil_append] at read stops
    exact stops.report honest (plain.onto read.onto) read

end Parser

theorem Arithmetic.honest_rules : Arithmetic.rules.Honest := by
  have binary (left right : Int) : (InfixRule.binary left right).Honest := fun _ _ _ =>
    (Action.Honest.expr _).bind fun _ => .pure _
  have parentheses : parentheses.Honest := fun _ _ =>
    (Action.Honest.expr _).bind fun _ => (Action.Honest.consume _).bind fun _ => .pure _
  have sign : (PrefixRule.unary Level.third).Honest := fun _ _ =>
    (Action.Honest.expr _).bind fun _ => .pure _
  exact each_rules (fun _ _ => .pure _) parentheses sign (binary _ _) (binary _ _) (binary _ _)

theorem Parser.sequence_reports_pair :
    let p := Grammar.arithmetic.parser none
    let s : Progress := { lexer := .ofList [.word "a", .word ",", .word "b", .word ")"] }
    Arithmetic.rules.Honest ∧ s.lexer = .list { remaining := [.word "a", .word ",", .word "b", .word ")"] } ∧
      Token.absent ∉ [.word "a", .word ",", .word "b", .word ")"] ∧
      ∃ ns s₁ last s', p.perform (.sequence Level.root (some (.word ",")) (some (.word ")"))) s =
          (.ok (ns.map .ok ++ last.toList.map .error), s') ∧
        p.SequenceReport Level.root (some (.word ",")) (some (.word ")")) s ns s₁ last s' := by
  intro p s
  have gapless : Token.absent ∉ [.word "a", .word ",", .word "b", .word ")"] := by decide
  have reports := sequence_reports (p := p) (s := s) Arithmetic.honest_rules Level.root (some (.word ","))
    (some (.word ")")) rfl gapless
  refine ⟨Arithmetic.honest_rules, rfl, gapless, reports.resolve_left ?_⟩
  rintro ⟨d, s', -, origin⟩
  exact Arithmetic.not_breaks (by simp) origin

end BindingPower
