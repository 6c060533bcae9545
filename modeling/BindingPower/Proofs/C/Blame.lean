import BindingPower.Proofs.Blame

/-! What errors in C programs are about: a token of the text, but for one statement. What stands after a
keyword for a jump is blamed by its topmost token, and only trees carry some of those. -/
namespace BindingPower.C
open BindingPower.Action Contract

/-- The symbols of the expressions whose topmost token is none of the text. -/
def markerSymbols : List CSymbol :=
  [.specifiers, .declaration, .conditional, .stepped, .call, .index, .block]

/-- An expression under a token of the text, or under a marker. -/
def Headed (text : String) (n : Node) : Prop :=
  n.token ∈ (Grammar.c.scan text).tokens ∨ ∃ s ∈ markerSymbols, n.token = s.token

/-- A marker is blamed for the keyword of a jump, since it is on top of what stands there for a label. -/
def Unlabelled (text : String) (n : Node) (t : Token) : Prop :=
  ∃ u ∈ (Grammar.c.scan text).tokens, u.kind = .c .kwGoto ∧ n = .leaf u ∧
    ∃ s ∈ markerSymbols, t = s.token

/-- The contract of the rules, as far as it concerns errors. -/
abbrev blaming (text : String) (limit : Option Int) : Contract :=
  Grammar.c.blaming Token.kind (Headed text) (Unlabelled text) text limit

section
variable {text : String} {limit : Option Int} {r : Int} {t : Token} {left : Node}

theorem headed_marker {s : CSymbol} (hs : s ∈ markerSymbols) (ns : List Node) :
    Headed text (.branch s.token ns) :=
  .inr ⟨s, hs, rfl⟩

theorem blames_kindOf (t : Token) : (blaming text limit).Gives (Action.kindOf t) fun _ => True :=
  Gives.kindOf_any (fun _ => trivial) t

theorem blames_isIdent (n : Node) : (blaming text limit).Gives (isIdent n) fun _ => True := by
  cases n with
  | leaf t => exact (blames_kindOf t).bind fun _ _ => .pure trivial
  | branch t ns => exact .pure trivial

theorem blames_isType (n : Node) : (blaming text limit).Gives (isType n) fun _ => True := by
  refine (blames_kindOf _).bind fun _ _ => ?_
  cases n <;> exact .pure trivial

/-- The token that is found instead of a required one is one of the text. -/
theorem blames_require (expected : CSymbol) (n : Node) :
    (blaming text limit).Gives (require expected n) fun _ => True := by
  refine (Gives.attempt_consume _).bind fun answer kept => ?_
  rcases answer with e | _
  · cases e with
    | consumeFailed _ found => exact .raise (.inl kept)
    | _ => exact .raise kept
  · exact .pure trivial

theorem blames_accept (expected : CSymbol) :
    (blaming text limit).Gives (accept expected) fun _ => True := by
  refine (Gives.attempt_consume _).bind fun answer kept => ?_
  rcases answer with e | _
  · cases e with
    | consumeFailed _ found => exact .pure trivial
    | _ => exact .raise kept
  · exact .pure trivial

theorem blames_acceptOrEnd (expected : CSymbol) :
    (blaming text limit).Gives (acceptOrEnd expected) fun _ => True := by
  refine (Gives.attempt_consume _).bind fun answer kept => ?_
  rcases answer with e | _
  · cases e with
    | consumeFailed _ found => exact .pure trivial
    | incomplete => exact .pure trivial
    | _ => exact .raise kept
  · exact .pure trivial

theorem blames_statement (semicolonRequired : Bool) :
    (blaming text limit).Gives (statement semicolonRequired) (Headed text) := by
  have body (keyword : Bool) :
      (blaming text limit).Gives (statementOf semicolonRequired keyword) (Headed text) := by
    refine .ite (fun _ => Gives.expr _) fun _ => (Gives.expr _).bind fun n hn => ?_
    have terminated : (blaming text limit).Gives (require .semicolon n >>= fun _ => pure n)
        (Headed text) := (blames_require _ n).bind fun _ _ => .pure hn
    refine .ite (fun _ => terminated) fun _ => Gives.peek.bind fun next _ => ?_
    exact .ite (fun _ => terminated) fun _ => .pure hn
  refine Gives.peek.bind fun next _ => ?_
  cases next with
  | none => exact body false
  | some t => exact (blames_kindOf t).bind fun kind _ => body (among statementSymbols kind)

theorem blames_condition : (blaming text limit).Gives condition fun _ => True :=
  (Gives.consume _).bind fun _ _ => (Gives.expr _).bind fun _ _ =>
    (Gives.consume _).bind fun _ _ => .pure trivial

theorem blames_program : (blaming text limit).Gives program fun _ => True := by
  refine Gives.mono (Gives.repeated (P := Headed text) ?_) fun _ _ => trivial
  refine Gives.peek.bind fun next _ => ?_
  cases next with
  | none => exact .pure trivial
  | some t => exact (blames_statement false).bind fun _ hn => .pure hn

section Rules
variable (ht : t ∈ (Grammar.c.scan text).tokens)
include ht

theorem blames_unary (power : Int) :
    (blaming text limit).Gives ((PrefixRule.unary power).action t power) (Headed text) :=
  (Gives.expr _).bind fun _ _ => .pure (.inl ht)

theorem blames_binary (l power : Int) :
    (blaming text limit).Gives ((InfixRule.binary l power).action t power left) (Headed text) :=
  (Gives.expr _).bind fun _ _ => .pure (.inl ht)

omit ht in
theorem blames_parentheses (power : Int) :
    (blaming text limit).Gives (parentheses.action t power) (Headed text) :=
  (Gives.expr _).bind fun _ hn => (Gives.consume _).bind fun _ _ => .pure hn

/-- The token below a type that cannot grow is the one that was to extend it. -/
theorem blames_extendSpecifiers (n : Node) (hl : Headed text left) :
    (blaming text limit).Gives (extendSpecifiers left t n) (Headed text) := by
  refine (blames_kindOf _).bind fun _ _ => .ite (fun _ => ?_) fun _ =>
    (blames_isType left).bind fun _ _ => .ite (fun _ => .pure (headed_marker (by decide) _))
      fun _ => .raise (.inl ht)
  cases left with
  | leaf u => exact .fail trivial
  | branch u ns => exact .pure hl

theorem blames_declarator (power : Int) :
    (blaming text limit).Gives (declarator.action t power left) (Headed text) :=
  (blames_isType left).bind fun _ _ => .ite (fun _ => .pure (headed_marker (by decide) _))
    fun _ => .raise (.inl ht)

theorem blames_starAfter (power : Int) :
    (blaming text limit).Gives (starAfter.action t power left) (Headed text) :=
  (blames_isType left).bind fun _ _ => .ite
    (fun _ => (Gives.expr _).bind fun _ _ => .pure (headed_marker (by decide) _))
    fun _ => blames_binary ht power power

omit ht in
theorem blames_conditional (power : Int) :
    (blaming text limit).Gives (conditional.action t power left) (Headed text) :=
  (Gives.expr _).bind fun _ _ => (blames_require _ _).bind fun _ _ =>
    (Gives.expr _).bind fun _ _ => .pure (headed_marker (by decide) _)

omit ht in
theorem blames_call (power : Int) :
    (blaming text limit).Gives (call.action t power left) (Headed text) := by
  refine (blames_accept _).bind fun _ _ => .ite (fun _ => .pure (headed_marker (by decide) _))
    fun _ => ?_
  rw [← bind_assoc]
  exact (Gives.collected _ _ _).bind fun _ _ => .pure (headed_marker (by decide) _)

omit ht in
theorem blames_index (power : Int) :
    (blaming text limit).Gives (index.action t power left) (Headed text) :=
  (Gives.expr _).bind fun _ _ => (Gives.consume _).bind fun _ _ =>
    .pure (headed_marker (by decide) _)

theorem blames_member (power : Int) :
    (blaming text limit).Gives (member.action t power left) (Headed text) :=
  (Gives.expr _).bind fun _ _ => (blames_isIdent _).bind fun _ _ =>
    .ite (fun _ => .pure (.inl ht)) fun _ => .raise (.inl ht)

omit ht in
theorem blames_recordBody : (blaming text limit).Gives recordBody fun _ => True := by
  refine (Gives.repeated (P := fun _ => True) ?_).bind fun _ _ => .pure trivial
  exact (blames_accept _).bind fun _ _ => .ite (fun _ => .pure trivial) fun _ =>
    (Gives.expr _).bind fun _ _ => (blames_require _ _).bind fun _ _ => .pure trivial

omit ht in
theorem blames_enumeratorName (item : Node) :
    (blaming text limit).Gives (enumeratorName item) fun _ => True := by
  refine (blames_kindOf _).bind fun _ _ => .ite (fun _ => ?_) fun _ => .pure trivial
  rcases item with u | ⟨u, _ | ⟨name, rest⟩⟩
  · exact .fail trivial
  · exact .fail trivial
  · exact .pure trivial

theorem blames_checkEnumerators (items : List Node) :
    (blaming text limit).Gives (checkEnumerators t items) fun _ => True := by
  induction items with
  | nil => exact .pure trivial
  | cons item items ih =>
    exact (blames_enumeratorName item).bind fun name _ => (blames_isIdent name).bind fun _ _ =>
      .ite (fun _ => ih) fun _ => .raise (.inl ht)

theorem blames_taggedBody : (blaming text limit).Gives (taggedBody t) fun _ => True := by
  refine (blames_kindOf t).bind fun _ _ => .ite (fun _ => ?_) fun _ => blames_recordBody
  refine (Gives.repeated (P := fun _ => True) ?_).bind fun items _ =>
    (blames_checkEnumerators ht items).bind fun _ _ => .pure trivial
  exact (blames_accept _).bind fun _ _ => .ite (fun _ => .pure trivial) fun _ =>
    (Gives.expr _).bind fun _ _ => (blames_accept _).bind fun _ _ => .ite (fun _ => .pure trivial)
      fun _ => (Gives.consume _).bind fun _ _ => .pure trivial

theorem blames_tagged : (blaming text limit).Gives (tagged t) (Headed text) := by
  have bodied (ns : List Node) :
      (blaming text limit).Gives (do return .branch t (ns ++ [← taggedBody t])) (Headed text) :=
    (blames_taggedBody ht).bind fun _ _ => .pure (.inl ht)
  refine (blames_accept _).bind fun _ _ => .ite (fun _ => bodied []) fun _ =>
    (Gives.expr _).bind fun tag _ => (blames_isIdent tag).bind fun _ _ =>
      .ite (fun _ => ?_) fun _ => .raise (.inl ht)
  exact (blames_acceptOrEnd _).bind fun _ _ => .ite (fun _ => bodied [tag]) fun _ => .pure (.inl ht)

/-- What is no label is blamed by the token on top of it, be it one of the text or not. -/
theorem blames_gotoRule (hk : t.kind = .c .kwGoto) (power : Int) :
    (blaming text limit).Gives (gotoRule.action t power) (Headed text) := by
  refine (Gives.expr _).bind fun label hl => (blames_isIdent label).bind fun _ _ =>
    .ite (fun _ => (blames_require _ _).bind fun _ _ => .pure (.inl ht)) fun _ => .raise ?_
  exact hl.imp_right fun marked => ⟨t, ht, hk, rfl, marked⟩

theorem blames_jump (power : Int) : (blaming text limit).Gives (jump.action t power) (Headed text) :=
  (blames_require _ _).bind fun _ _ => .pure (.inl ht)

theorem blames_returnRule (power : Int) :
    (blaming text limit).Gives (returnRule.action t power) (Headed text) :=
  (blames_accept _).bind fun _ _ => .ite (fun _ => .pure (.inl ht)) fun _ =>
    (Gives.expr _).bind fun _ _ => (blames_require _ _).bind fun _ _ => .pure (.inl ht)

theorem blames_defaultRule (power : Int) :
    (blaming text limit).Gives (defaultRule.action t power) (Headed text) :=
  (blames_require _ _).bind fun _ _ => (blames_statement true).bind fun _ _ => .pure (.inl ht)

theorem blames_caseRule (power : Int) :
    (blaming text limit).Gives (caseRule.action t power) (Headed text) :=
  (Gives.expr _).bind fun _ _ => (blames_require _ _).bind fun _ _ =>
    (blames_statement true).bind fun _ _ => .pure (.inl ht)

theorem blames_ifRule (power : Int) :
    (blaming text limit).Gives (ifRule.action t power) (Headed text) :=
  blames_condition.bind fun _ _ => (blames_statement true).bind fun _ _ =>
    (blames_acceptOrEnd _).bind fun _ _ => .ite
      (fun _ => (blames_statement true).bind fun _ _ => .pure (.inl ht)) fun _ => .pure (.inl ht)

theorem blames_whileRule (power : Int) :
    (blaming text limit).Gives (whileRule.action t power) (Headed text) :=
  blames_condition.bind fun _ _ => (blames_statement true).bind fun _ _ => .pure (.inl ht)

omit ht in
theorem blames_block (power : Int) :
    (blaming text limit).Gives (block.action t power) (Headed text) := by
  refine (Gives.repeated (P := Headed text) ?_).bind fun _ _ => .pure (headed_marker (by decide) _)
  exact (blames_accept _).bind fun _ _ => .ite (fun _ => .pure trivial) fun _ =>
    (blames_statement true).bind fun _ hn => .pure hn

end Rules

theorem eachPrefix_blames : EachPrefix fun s rule => ∀ t ∈ (Grammar.c.scan text).tokens,
    t.kind = .c s → (blaming text limit).Gives (rule.action t rule.power) (Headed text) where
  operand _ _ _ ht _ := .pure (.inl ht)
  specifier _ _ _ ht _ := .pure (.inl ht)
  tagged _ _ _ ht _ := blames_tagged ht
  operator _ _ _ ht _ := blames_unary ht _
  parentheses _ _ _ := blames_parentheses _
  goto _ ht hk := blames_gotoRule ht hk _
  jump _ _ _ ht _ := blames_jump ht _
  exit _ ht _ := blames_returnRule ht _
  otherwise _ ht _ := blames_defaultRule ht _
  labelled _ ht _ := blames_caseRule ht _
  choice _ ht _ := blames_ifRule ht _
  loop _ ht _ := blames_whileRule ht _
  block _ _ _ := blames_block _

theorem eachInfix_blames : EachInfix fun _ rule => ∀ t ∈ (Grammar.c.scan text).tokens,
    ∀ left, Headed text left →
      (blaming text limit).Gives (rule.action t rule.right left) (Headed text) where
  specifier _ _ _ ht _ hl := blames_extendSpecifiers ht _ hl
  tagged _ _ _ ht _ hl := (blames_tagged ht).bind fun n _ => blames_extendSpecifiers ht n hl
  declarator _ ht _ _ := blames_declarator ht _
  assignment _ _ _ ht _ _ := blames_binary ht _ _
  conditional _ _ _ _ := blames_conditional _
  between _ _ _ _ _ ht _ _ := blames_binary ht _ _
  star _ ht _ _ := blames_starAfter ht _
  step _ _ _ _ _ _ := .pure (headed_marker (by decide) _)
  call _ _ _ _ := blames_call _
  index _ _ _ _ := blames_index _
  member _ _ _ ht _ _ := blames_member ht _

theorem binds_blaming (text : String) (limit : Option Int) :
    (blaming text limit).Binds (Grammar.c.parser limit) where
  incomplete := trivial
  missingRule _ _ h := h
  consumeFailed _ _ h := h
  tooDeep _ h := h
  classified _ _ _ := rfl
  starting t rule r ht hr _ := by
    obtain ⟨s, hk, h⟩ := eachPrefix_blames.of_lookup hr
    exact h t ht hk
  continuing t rule r left ht hr _ hl := by
    obtain ⟨s, -, h⟩ := eachInfix_blames.of_lookup hr
    exact h t ht left hl

theorem blames_of_parse {e : Failure} (h : Grammar.c.parse text limit = .error e) :
    Grammar.c.Blames (Unlabelled text) text limit e :=
  Grammar.blames_of_parse (binds_blaming text limit) blames_program
    (fun _ he => ScanRule.fault_of_scanFrom he) h

end

end BindingPower.C
