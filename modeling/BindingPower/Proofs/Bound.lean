import BindingPower.Proofs.Computation

/-! Bounds do not matter. The parser's recursion is bounded by the tokens still to come; any two
bounds at or above them read alike, so expressions satisfy equations in which no bound occurs. -/
namespace BindingPower

namespace ParseM
variable {α β : Type}

/-- Two computations that cannot be told apart while at most `n` tokens are to come, and that
bring none back. -/
def AgreeTo (n : Nat) (m₁ m₂ : ParseM α) : Prop :=
  ∀ s, s.room ≤ n → m₁ s = m₂ s ∧ (m₁ s).2.room ≤ s.room

namespace AgreeTo
variable {n : Nat}

theorem mono {k : Nat} {m₁ m₂ : ParseM α} (h : AgreeTo n m₁ m₂) (hk : k ≤ n) : AgreeTo k m₁ m₂ :=
  fun s hs => h s (Nat.le_trans hs hk)

theorem bind {m₁ m₂ : ParseM α} {f₁ f₂ : α → ParseM β} (hm : AgreeTo n m₁ m₂)
    (hf : ∀ a, AgreeTo n (f₁ a) (f₂ a)) : AgreeTo n (m₁ >>= f₁) (m₂ >>= f₂) := by
  intro s hs
  obtain ⟨he, hr⟩ := hm s hs
  rw [bind_apply, bind_apply, ← he]
  rcases h : m₁ s with ⟨e | a, s'⟩
  · rw [h] at hr
    exact ⟨rfl, hr⟩
  · rw [h] at hr
    obtain ⟨he', hr'⟩ := hf a s' (Nat.le_trans hr hs)
    exact ⟨he', Nat.le_trans hr' hr⟩

theorem outcome {m₁ m₂ : ParseM α} (hm : AgreeTo n m₁ m₂) :
    AgreeTo n (ParseM.outcome m₁) (ParseM.outcome m₂) := by
  intro s hs
  obtain ⟨he, hr⟩ := hm s hs
  simp only [ParseM.outcome, ← he]
  rcases h : m₁ s with ⟨(cause | cause) | a, s'⟩ <;> rw [h] at hr <;> simpa using hr

theorem of_same {m : ParseM α} (h : ∀ s, (m s).2.room ≤ s.room) : AgreeTo n m m :=
  fun s _ => ⟨rfl, h s⟩

theorem pure (a : α) : AgreeTo n (Pure.pure a) (Pure.pure a) := of_same fun _ => Nat.le_refl _
theorem throw (e : Failure) : AgreeTo n (throw e : ParseM α) (throw e) := of_same fun _ => Nat.le_refl _

theorem peek : AgreeTo n ParseM.peek ParseM.peek := of_same fun s => Nat.le_of_eq (room_peek s)

theorem advance : AgreeTo n ParseM.advance ParseM.advance :=
  of_same fun s => by
    rw [room_advance]
    exact Nat.sub_le _ _

theorem record (e : Event) : AgreeTo n (ParseM.record e) (ParseM.record e) :=
  of_same fun _ => Nat.le_refl _

theorem room : AgreeTo n ParseM.room ParseM.room := of_same fun _ => Nat.le_refl _

theorem raise (e : ParseError) : AgreeTo n (ParseM.raise e : ParseM α) (ParseM.raise e) := throw _

theorem consume (t : Token) : AgreeTo n (ParseM.consume t) (ParseM.consume t) := by
  apply peek.bind
  intro found
  cases found with
  | none => exact raise _
  | some u =>
    dsimp only
    split
    · exact advance.bind fun _ => pure _
    · exact raise _

theorem at? (t : Token) : AgreeTo n (ParseM.at? t) (ParseM.at? t) := peek.bind fun _ => pure _

theorem kindOf (p : Parser) (t : Token) : AgreeTo n (p.kindOf t) (p.kindOf t) := by
  apply of_same
  intro s
  unfold Parser.kindOf
  split <;> exact Nat.le_refl _

theorem binds (p : Parser) (r : Int) : AgreeTo n (p.binds r) (p.binds r) := by
  apply peek.bind
  intro found
  cases found with
  | none => exact pure _
  | some t =>
    apply (kindOf p t).bind
    intro kind
    split <;> exact pure _

theorem closes (separator closing : Option Token) :
    AgreeTo n (Parser.closes separator closing) (Parser.closes separator closing) := by
  cases separator <;> cases closing <;> first | exact at? _ | exact pure _

variable {p : Parser} {e₁ e₂ : Int → ParseM Node}

theorem elements (he : ∀ r, AgreeTo n (e₁ r) (e₂ r)) (level : Int) (separator closing : Option Token)
    (times : Nat) : AgreeTo n (Parser.elements e₁ level separator closing times)
      (Parser.elements e₂ level separator closing times) := by
  induction times generalizing separator with
  | zero => exact pure _
  | succ times ih =>
    apply (closes separator closing).bind
    intro closed
    cases closed with
    | true => exact advance.bind fun _ => pure _
    | false =>
      apply (he level).outcome.bind
      intro read
      cases read with
      | error e => exact pure _
      | ok node =>
        cases separator with
        | none => exact (ih none).bind fun _ => pure _
        | some separator =>
          apply (consume separator).outcome.bind
          intro separated
          rcases separated with e | _
          · cases e with
            | consumeFailed expected found =>
              dsimp only
              split
              · exact advance.bind fun _ => pure _
              · exact pure _
            | incomplete => exact pure _
            | _ => exact raise _
          · exact (ih (some separator)).bind fun _ => pure _

theorem answer (he : ∀ r, AgreeTo n (e₁ r) (e₂ r)) (q : Request) :
    AgreeTo n (p.answer e₁ q) (p.answer e₂ q) := by
  cases q with
  | peek => exact peek
  | binds r => exact binds p r
  | expr r => exact he r
  | consume t => exact consume t
  | sequence level separator closing => exact room.bind fun _ => elements he _ _ _ _

theorem rounds {m₁ m₂ : ParseM Round} (hm : AgreeTo n m₁ m₂) (times : Nat) :
    AgreeTo n (Parser.rounds m₁ times) (Parser.rounds m₂ times) := by
  induction times with
  | zero => exact pure _
  | succ times ih =>
    apply hm.bind
    intro round
    cases round with
    | done => exact pure _
    | last item => exact pure _
    | item item => exact ih.bind fun _ => pure _

theorem run (he : ∀ r, AgreeTo n (e₁ r) (e₂ r)) (a : Action α) :
    AgreeTo n (p.run e₁ a) (p.run e₂ a) := by
  induction a with
  | give a => exact pure _
  | fail cause => exact throw _
  | ask q next ih => exact (answer he q).outcome.bind ih
  | gather round next ihr ih => exact (room.bind fun _ => rounds ihr _).outcome.bind ih

end AgreeTo

theorem room_kindOf (p : Parser) (t : Token) (s : Progress) : (p.kindOf t s).2.room = s.room := by
  unfold Parser.kindOf
  split <;> rfl

theorem room_pos_of_binds {p : Parser} {r : Int} {s s' : Progress}
    (h : p.binds r s = (.ok true, s')) : 0 < s'.room := by
  rw [Parser.binds, bind_apply] at h
  rcases hp : peek s with ⟨e | _ | t, s₁⟩ <;> rw [hp] at h
  · cases h
  · cases h
  · have hpos := room_pos_of_peek hp
    have hr := room_kindOf p t s₁
    simp only [bind_apply] at h
    rcases hk : p.kindOf t s₁ with ⟨e | kind, s₂⟩ <;> rw [hk] at h hr
    · cases h
    · dsimp only at h hr
      cases hq : p.table.infixRule? kind with
      | none =>
        rw [hq] at h
        cases h
      | some rule =>
        rw [hq] at h
        obtain ⟨-, rfl⟩ := Prod.mk.inj h
        rw [hr]
        exact hpos

theorem room_lt_of_advance {s s' : Progress} {t : Token} (h : advance s = (.ok t, s')) :
    s'.room < s.room := by
  have found := (advance_eq s).1
  have less := room_advance_lt (s := s)
  rw [h] at found less
  apply less
  rw [Progress.room_eq]
  rcases hi : s.input with ⟨_ | ⟨u, us⟩, _ | e⟩ <;> rw [hi] at found
  · cases found
  · cases found
  · exact Nat.succ_pos _
  · exact Nat.succ_pos _

/-- Two computations that cannot be told apart while there is a token to come and no more than
one above `n`, and that take it. -/
def AgreePast (n : Nat) (m₁ m₂ : ParseM α) : Prop :=
  ∀ s, 0 < s.room → s.room ≤ n + 1 → m₁ s = m₂ s ∧ (m₁ s).2.room < s.room

theorem AgreePast.advance {n : Nat} {f₁ f₂ : Token → ParseM α} (hf : ∀ t, AgreeTo n (f₁ t) (f₂ t)) :
    AgreePast n (ParseM.advance >>= f₁) (ParseM.advance >>= f₂) := by
  intro s hpos hs
  have hr := room_advance_lt hpos
  rw [bind_apply, bind_apply]
  rcases h : ParseM.advance s with ⟨e | t, s'⟩ <;> rw [h] at hr
  · exact ⟨rfl, hr⟩
  · obtain ⟨he, hr'⟩ := hf t s' (by dsimp only at hr; omega)
    exact ⟨he, Nat.lt_of_le_of_lt hr' hr⟩

theorem AgreePast.bind {n : Nat} {m₁ m₂ : ParseM α} {f₁ f₂ : α → ParseM β} (hm : AgreePast n m₁ m₂)
    (hf : ∀ a, AgreeTo n (f₁ a) (f₂ a)) : AgreePast n (m₁ >>= f₁) (m₂ >>= f₂) := by
  intro s hpos hs
  obtain ⟨he, hr⟩ := hm s hpos hs
  rw [bind_apply, bind_apply, ← he]
  rcases h : m₁ s with ⟨e | a, s'⟩ <;> rw [h] at hr
  · exact ⟨rfl, hr⟩
  · obtain ⟨he', hr'⟩ := hf a s' (by dsimp only at hr; omega)
    exact ⟨he', Nat.lt_of_le_of_lt hr' hr⟩

end ParseM

namespace Parser
open ParseM
variable {p : Parser} {e₁ e₂ : Int → ParseM Node} {n : Nat}

theorem agree_start (he : ∀ r, AgreeTo n (e₁ r) (e₂ r)) : AgreePast n (p.start e₁) (p.start e₂) := by
  apply AgreePast.advance
  intro t
  apply (AgreeTo.kindOf p t).bind
  intro kind
  apply (AgreeTo.record _).bind
  intro _
  split
  · exact AgreeTo.raise _
  · exact (AgreeTo.run he _).bind fun left => (AgreeTo.record _).bind fun _ => AgreeTo.pure _

theorem agree_extend (he : ∀ r, AgreeTo n (e₁ r) (e₂ r)) (left : Node) :
    AgreePast n (p.extend e₁ left) (p.extend e₂ left) := by
  apply AgreePast.advance
  intro t
  apply (AgreeTo.kindOf p t).bind
  intro kind
  split
  · exact AgreeTo.raise _
  · exact (AgreeTo.run he _).bind fun left => (AgreeTo.record _).bind fun _ => AgreeTo.pure _

/-- Without tokens to come nothing is taken, whatever the bound. -/
theorem continued_of_room_zero (e : Int → ParseM Node) (r : Int) (bound : Nat) (left : Node)
    {s : Progress} (hs : s.room = 0) :
    p.continued e r bound left s = (p.binds r >>= fun _ => pure left) s := by
  cases bound with
  | zero => rfl
  | succ bound =>
    have hr := (AgreeTo.binds (n := 0) p r s (Nat.le_of_eq hs)).2
    rw [continued, bind_apply, bind_apply]
    rcases hb : p.binds r s with ⟨e | more, s'⟩
    · rfl
    · rw [hb] at hr
      cases more with
      | false => rfl
      | true =>
        have := room_pos_of_binds hb
        dsimp only at hr
        omega

theorem agree_continued (he : ∀ r, AgreeTo n (e₁ r) (e₂ r)) (r : Int) {b₁ b₂ : Nat} (h₁ : n ≤ b₁)
    (h₂ : n ≤ b₂) (left : Node) :
    AgreeTo n (p.continued e₁ r b₁ left) (p.continued e₂ r b₂ left) := by
  induction n generalizing b₁ b₂ left with
  | zero =>
    intro s hs
    rw [continued_of_room_zero e₁ r b₁ left (Nat.le_zero.mp hs),
      continued_of_room_zero e₂ r b₂ left (Nat.le_zero.mp hs)]
    exact ((AgreeTo.binds p r).bind fun _ => AgreeTo.pure _) s hs
  | succ n ih =>
    obtain ⟨b₁, rfl⟩ : ∃ k, b₁ = k + 1 := ⟨b₁ - 1, by omega⟩
    obtain ⟨b₂, rfl⟩ : ∃ k, b₂ = k + 1 := ⟨b₂ - 1, by omega⟩
    have low (r : Int) : AgreeTo n (e₁ r) (e₂ r) := (he r).mono (Nat.le_succ n)
    have later (left : Node) : AgreeTo n (p.continued e₁ r b₁ left) (p.continued e₂ r b₂ left) :=
      ih low (by omega) (by omega) left
    have taken := (agree_extend (p := p) low left).bind later
    intro s hs
    have hr := (AgreeTo.binds p r s hs).2
    rw [continued, continued, bind_apply, bind_apply]
    rcases hb : p.binds r s with ⟨e | more, s'⟩ <;> rw [hb] at hr
    · exact ⟨rfl, hr⟩
    · cases more with
      | false =>
        simp only [Bool.false_eq_true, if_false]
        exact ⟨trivial, hr⟩
      | true =>
        dsimp only at hr
        simp only [if_true]
        obtain ⟨same, less⟩ := taken s' (room_pos_of_binds hb) (by omega)
        exact ⟨same, Nat.le_of_lt (Nat.lt_of_lt_of_le less hr)⟩

theorem agree_nested (r : Int) {m₁ m₂ : ParseM Node} (hm : AgreeTo n m₁ m₂) :
    AgreeTo n (p.nested r m₁) (p.nested r m₂) := by
  intro s hs
  obtain ⟨he, hr⟩ := hm { s with depth := s.depth + 1, log := .enter r :: s.log } hs
  simp only [nested]
  split
  · exact ⟨rfl, Nat.le_refl _⟩
  · exact ⟨by rw [he], hr⟩

/-- What an open expression does once it has a token, given how to read one and how to go on. -/
private def taking (p : Parser) (e : Int → ParseM Node) (go : Node → ParseM Node) : ParseM Node := do
  let left ← p.start e
  let n ← go left
  record (.result n)
  return n

private theorem agree_taking {g₁ g₂ : Node → ParseM Node} (he : ∀ r, AgreeTo n (e₁ r) (e₂ r))
    (hg : ∀ left, AgreeTo n (g₁ left) (g₂ left)) : AgreePast n (p.taking e₁ g₁) (p.taking e₂ g₂) :=
  (agree_start he).bind fun left =>
    (hg left).bind fun _ => (AgreeTo.record _).bind fun _ => AgreeTo.pure _

private def inner (p : Parser) (e : Int → ParseM Node) (go : Node → ParseM Node) : ParseM Node := do
  match ← peek with
  | none => raise .incomplete
  | some _ => p.taking e go

private theorem agree_inner {g₁ g₂ : Node → ParseM Node} (he : ∀ r, AgreeTo n (e₁ r) (e₂ r))
    (hg : ∀ left, AgreeTo n (g₁ left) (g₂ left)) :
    AgreeTo (n + 1) (p.inner e₁ g₁) (p.inner e₂ g₂) := by
  intro s hs
  have hr := (AgreeTo.peek s hs).2
  rw [inner, inner, bind_apply, bind_apply]
  rcases h : peek s with ⟨e | _ | t, s'⟩ <;> rw [h] at hr
  · exact ⟨rfl, hr⟩
  · exact ⟨rfl, hr⟩
  · dsimp only at hr
    obtain ⟨same, less⟩ := agree_taking (p := p) he hg s' (room_pos_of_peek h) (by omega)
    exact ⟨same, Nat.le_of_lt (Nat.lt_of_lt_of_le less hr)⟩

private theorem room_inner_lt {e : Int → ParseM Node} {go : Node → ParseM Node}
    (he : ∀ r, AgreeTo n (e r) (e r)) (hg : ∀ left, AgreeTo n (go left) (go left))
    {s : Progress} {node : Node} (hs : s.room ≤ n + 1) (h : (p.inner e go s).1 = .ok node) :
    (p.inner e go s).2.room < s.room := by
  have hr := (AgreeTo.peek s hs).2
  rw [inner, bind_apply] at h ⊢
  rcases hp : peek s with ⟨e | _ | t, s'⟩ <;> rw [hp] at h hr
  · cases h
  · cases h
  · dsimp only at hr
    have less := (agree_taking (p := p) he hg s' (room_pos_of_peek hp) (by omega)).2
    exact Nat.lt_of_lt_of_le less hr

private theorem inner_of_room_zero (e : Int → ParseM Node) (go : Node → ParseM Node) :
    AgreeTo 0 (p.inner e go) (peek >>= fun _ => raise .incomplete) := by
  intro s hs
  have hr := (AgreeTo.peek (n := 0) s hs).2
  rw [inner, bind_apply, bind_apply]
  rcases h : peek s with ⟨e | _ | t, s'⟩ <;> rw [h] at hr
  · exact ⟨rfl, hr⟩
  · exact ⟨rfl, hr⟩
  · have := room_pos_of_peek h
    dsimp only at hr
    omega

/-- Any two bounds at or above the tokens to come read alike. -/
theorem agree_expr (r : Int) {b₁ b₂ : Nat} (h₁ : n ≤ b₁) (h₂ : n ≤ b₂) :
    AgreeTo n (p.expr b₁ r) (p.expr b₂ r) := by
  induction n generalizing b₁ b₂ r with
  | zero =>
    have stop (b : Nat) :
        AgreeTo 0 (p.expr b r) (p.nested r (peek >>= fun _ => raise .incomplete)) := by
      cases b with
      | zero => exact agree_nested r (AgreeTo.peek.bind fun _ => AgreeTo.raise _)
      | succ b => exact agree_nested r (inner_of_room_zero _ _)
    intro s hs
    obtain ⟨he, hr⟩ := stop b₁ s hs
    exact ⟨he.trans (stop b₂ s hs).1.symm, hr⟩
  | succ n ih =>
    obtain ⟨b₁, rfl⟩ : ∃ k, b₁ = k + 1 := ⟨b₁ - 1, by omega⟩
    obtain ⟨b₂, rfl⟩ : ∃ k, b₂ = k + 1 := ⟨b₂ - 1, by omega⟩
    have low (r : Int) : AgreeTo n (p.expr b₁ r) (p.expr b₂ r) := ih r (by omega) (by omega)
    exact agree_nested r (agree_inner low (agree_continued low r (by omega) (by omega)))

/-- Reads an expression from the tokens that are left, however many they are. -/
def reading (p : Parser) (threshold : Int) : ParseM Node := fun s => p.expr s.room threshold s

/-- Lets infix rules take what has been built, as often as they can. -/
def extending (p : Parser) (threshold : Int) (left : Node) : ParseM Node := fun s =>
  p.continued p.reading threshold s.room left s

theorem agree_reading (r : Int) {bound : Nat} (h : n ≤ bound) :
    AgreeTo n (p.expr bound r) (p.reading r) :=
  fun s hs => agree_expr r (Nat.le_trans hs h) (Nat.le_refl _) s (Nat.le_refl _)

theorem shrink_reading (r : Int) : AgreeTo n (p.reading r) (p.reading r) := by
  intro s hs
  obtain ⟨he, hr⟩ := agree_reading r (Nat.le_refl n) s hs
  exact ⟨rfl, he ▸ hr⟩

theorem agree_extending (r : Int) {bound : Nat} (h : n ≤ bound) (left : Node) :
    AgreeTo n (p.continued (p.expr bound) r bound left) (p.extending r left) := by
  intro s hs
  have he (r : Int) : AgreeTo s.room (p.expr bound r) (p.reading r) :=
    agree_reading r (Nat.le_trans hs h)
  exact agree_continued he r (Nat.le_trans hs h) (Nat.le_refl _) left s (Nat.le_refl _)

/-- Reading an expression, without a bound. -/
theorem reading_eq (p : Parser) (r : Int) :
    p.reading r = p.nested r do
      match ← peek with
      | none => raise .incomplete
      | some _ =>
        let left ← p.start p.reading
        let n ← p.extending r left
        record (.result n)
        return n := by
  funext s
  have he := (agree_expr (p := p) r (Nat.le_refl s.room) (Nat.le_succ _) s (Nat.le_refl _)).1
  have hi : AgreeTo (s.room + 1) (p.inner (p.expr s.room) (p.continued (p.expr s.room) r s.room))
      (p.inner p.reading (p.extending r)) :=
    agree_inner (fun r => agree_reading r (Nat.le_refl _)) (agree_extending r (Nat.le_refl _))
  exact he.trans (agree_nested r hi s (Nat.le_succ _)).1

theorem extending_eq (p : Parser) (r : Int) (left : Node) :
    p.extending r left = do
      if ← p.binds r then
        let left ← p.extend p.reading left
        p.extending r left
      else return left := by
  funext s
  have same : AgreeTo s.room (p.continued p.reading r s.room left)
      (p.continued p.reading r (s.room + 1) left) :=
    agree_continued shrink_reading r (Nat.le_refl _) (Nat.le_succ _) left
  refine (same s (Nat.le_refl _)).1.trans ?_
  rw [continued, bind_apply, bind_apply]
  have hr := (AgreeTo.binds p r s (Nat.le_refl s.room)).2
  rcases hb : p.binds r s with ⟨e | _ | _, s'⟩
  · rfl
  · rfl
  · have := room_pos_of_binds hb
    rw [hb] at hr
    dsimp only at hr
    simp only [if_true]
    have taken : AgreePast s.room
        (do let left ← p.extend p.reading left; p.continued p.reading r s.room left)
        (do let left ← p.extend p.reading left; p.extending r left) := by
      apply (agree_extend shrink_reading left).bind
      intro left s hs
      exact agree_continued shrink_reading r hs (Nat.le_refl _) left s (Nat.le_refl _)
    exact (taken s' this (by omega)).1

/-- An expression takes a token or more. -/
theorem room_reading_lt {p : Parser} {r : Int} {s : Progress} {node : Node}
    (h : (p.reading r s).1 = .ok node) : (p.reading r s).2.room < s.room := by
  have grow (left : Node) : AgreeTo s.room (p.extending r left) (p.extending r left) := by
    intro s' hs
    obtain ⟨he, hr⟩ := agree_extending r (Nat.le_refl s.room) left s' hs
    exact ⟨rfl, he ▸ hr⟩
  rw [reading_eq, nested] at h ⊢
  split at h
  · cases h
  · rw [if_neg ‹_›]
    exact room_inner_lt shrink_reading grow (Nat.le_succ _) h

theorem room_pos_of_advance {α : Type} {f : Token → ParseM α} {s s' : Progress} {a : α}
    (h : (advance >>= f) s = (.ok a, s')) : 0 < s.room := by
  rw [bind_apply] at h
  rcases ha : advance s with ⟨e | t, t'⟩ <;> rw [ha] at h
  · cases h
  · exact Nat.lt_of_le_of_lt (Nat.zero_le _) (room_lt_of_advance ha)

theorem room_lt_of_start {s s' : Progress} {left : Node} (h : p.start p.reading s = (.ok left, s')) :
    s'.room < s.room := by
  have less := (agree_start (p := p) (shrink_reading (p := p)) s (room_pos_of_advance h)
    (Nat.le_succ _)).2
  rwa [h] at less

theorem room_lt_of_extend {s s' : Progress} {left m : Node}
    (h : p.extend p.reading left s = (.ok m, s')) : s'.room < s.room := by
  have less := (agree_extend (p := p) (shrink_reading (p := p)) left s (room_pos_of_advance h)
    (Nat.le_succ _)).2
  rwa [h] at less

/-- An action brings no token back. -/
theorem room_run_le {α : Type} (p : Parser) (a : Action α) (s : Progress) :
    (p.run p.reading a s).2.room ≤ s.room :=
  (AgreeTo.run (p := p) shrink_reading a s (Nat.le_refl _)).2

/-- Carrying out an action, without a bound. -/
theorem perform_eq {α : Type} (p : Parser) (a : Action α) : p.perform a = p.run p.reading a := by
  funext s
  exact (AgreeTo.run (fun r => agree_reading r (Nat.le_refl _)) a s (Nat.le_refl _)).1

theorem perform_peek (p : Parser) : p.perform .peek = peek := by rw [perform_eq, run_peek]

theorem perform_expr (p : Parser) (r : Int) : p.perform (.expr r) = p.reading r := by
  rw [perform_eq, run_expr]

theorem perform_consume (p : Parser) (t : Token) : p.perform (.consume t) = consume t := by
  rw [perform_eq, run_consume]

end Parser
end BindingPower
