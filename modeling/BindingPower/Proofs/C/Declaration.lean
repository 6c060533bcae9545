import BindingPower.Proofs.C.Program

/-! C declarations read back. Specifiers in any number and order come to one flat type, a body to its
fields or enumerators in their order, and stars to pointers around the name. -/
namespace BindingPower.C
open ParseM

abbrev identifier (name : String) : Token := .lexeme (.c .ident) name none

/-- One specifier stands for itself, and several are one flat list. -/
def typeOf : List Node → Node
  | [n] => n
  | ns => .branch CSymbol.specifiers.token ns

/-- A tree under stars. -/
def pointer (n : Node) : (stars : Nat) → Node
  | 0 => n
  | k + 1 => .branch CSymbol.star.token [pointer n k]

/-- An item of an enumeration and its tokens. -/
inductive Enumerator : Node → List Token → Prop
  | bare {name : String} (hv : IsLexeme .ident name) :
    Enumerator (.leaf (identifier name)) [identifier name]
  | valued {name : String} {n : Node} {ts : List Token} (hv : IsLexeme .ident name)
    (value : Written 0 n ts) :
    Enumerator (.branch CSymbol.assign.token [.leaf (identifier name), n])
      (identifier name :: CSymbol.assign.token :: ts)

/-- Enumerators with commas between them and perhaps after the last. -/
inductive Enumerators : List Node → List Token → Prop
  | nil : Enumerators [] []
  | last {n : Node} {ts : List Token} (h : Enumerator n ts) : Enumerators [n] ts
  | more {n : Node} {ns : List Node} {ts us : List Token} (h : Enumerator n ts)
    (others : Enumerators ns us) : Enumerators (n :: ns) (ts ++ CSymbol.comma.token :: us)

/-- The parts of a declaration. The tree of a body is that of what stands between the braces after a
certain keyword. -/
inductive Part
  | specifier
  | specifiers
  | body (keyword : CSymbol)
  | declaration

/-- The trees of a part of a declaration and its tokens. All parts but `specifiers` have one tree. -/
inductive Declares : Part → List Node → List Token → Prop
  | keyword {s : CSymbol} (hs : s ∈ specifierSymbols) : Declares .specifier [.leaf s.token] [s.token]
  | tag {s : CSymbol} {name : String} (hs : s ∈ taggedSymbols) (hv : IsLexeme .ident name) :
    Declares .specifier [.branch s.token [.leaf (identifier name)]] [s.token, identifier name]
  | anonymous {s : CSymbol} {ns : List Node} {ts : List Token} (hs : s ∈ taggedSymbols)
    (body : Declares (.body s) ns ts) : Declares .specifier [.branch s.token ns] (s.token :: ts)
  | tagged {s : CSymbol} {name : String} {ns : List Node} {ts : List Token} (hs : s ∈ taggedSymbols)
    (hv : IsLexeme .ident name) (body : Declares (.body s) ns ts) :
    Declares .specifier [.branch s.token (.leaf (identifier name) :: ns)]
      (s.token :: identifier name :: ts)
  | record {s : CSymbol} {fields : List (Node × List Token)} (hs : s ∈ [CSymbol.kwStruct, .kwUnion])
    (h : ∀ a ∈ fields, Declares .declaration [a.1] a.2) :
    Declares (.body s) [.branch CSymbol.body.token (fields.map (·.1))]
      (CSymbol.leftBrace.token :: fields.flatMap (fun a => a.2 ++ [CSymbol.semicolon.token]) ++
        [CSymbol.rightBrace.token])
  | enumeration {ns : List Node} {ts : List Token} (h : Enumerators ns ts) :
    Declares (.body .kwEnum) [.branch CSymbol.body.token ns]
      (CSymbol.leftBrace.token :: ts ++ [CSymbol.rightBrace.token])
  | single {ns : List Node} {ts : List Token} (h : Declares .specifier ns ts) :
    Declares .specifiers ns ts
  | another {ns ms : List Node} {ts us : List Token} (h : Declares .specifiers ns ts)
    (next : Declares .specifier ms us) : Declares .specifiers (ns ++ ms) (ts ++ us)
  | declaration {ns : List Node} {ts : List Token} {name : String} (h : Declares .specifiers ns ts)
    (hv : IsLexeme .ident name) (stars : Nat) :
    Declares .declaration
      [.branch CSymbol.declaration.token [typeOf ns, pointer (.leaf (identifier name)) stars]]
      (ts ++ List.replicate stars CSymbol.star.token ++ [identifier name])

section Trees
variable {p : Parser} {e : Int → ParseM Node} {n n' : Node} {ns : List Node} {s : CSymbol}

theorem eq_leaf_of_bare {t : Token} {value : String} (ht : t = .lexeme (.c s) value none)
    (h : n'.bare = .leaf t) : ∃ place, n' = .leaf (.lexeme (.c s) value place) := by
  cases n' with
  | leaf u =>
    obtain ⟨place, rfl⟩ := located_of_bare ((Node.leaf.inj h).trans ht)
    exact ⟨place, rfl⟩
  | branch u ns => cases h

theorem eq_branch_of_bare (h : n'.bare = .branch s.token ns) :
    ∃ place ns', n' = .branch (tokenAt s place) ns' ∧ Node.bareAll ns' = ns := by
  cases n' with
  | leaf u => cases h
  | branch u ms =>
    obtain ⟨hu, rfl⟩ := Node.branch.inj h
    obtain ⟨place, rfl⟩ := located_of_bare hu
    exact ⟨place, ms, rfl, rfl⟩

theorem run_isIdent {name : String} (h : n'.bare = .leaf (identifier name)) :
    p.run e (isIdent n') = pure true := by
  obtain ⟨place, rfl⟩ := eq_leaf_of_bare rfl h
  rfl

/-- The tree of one specifier. -/
inductive Specifier : Node → Prop
  | keyword {s : CSymbol} (hs : s ∈ specifierSymbols) : Specifier (.leaf s.token)
  | tagged {s : CSymbol} {ns : List Node} (hs : s ∈ taggedSymbols) : Specifier (.branch s.token ns)

/-- A list of specifiers, of which there is one at least. -/
structure Specifiers (ns : List Node) : Prop where
  some : ns ≠ []
  each : ∀ n ∈ ns, Specifier n

theorem run_isType_typeOf (h : Specifiers ns) (hn : n'.bare = typeOf ns) :
    p.run e (isType n') = pure true := by
  obtain ⟨hne, each⟩ := h
  match ns, hne with
  | [n], _ =>
    have specifier := each n List.mem_cons_self
    cases specifier with
    | @keyword s hs =>
      obtain ⟨place, rfl⟩ := eq_leaf_of_bare rfl hn
      change pure (among specifierSymbols (.c s)) = _
      rw [among_iff.mpr hs]
    | @tagged s ns hs =>
      obtain ⟨place, ms, rfl, -⟩ := eq_branch_of_bare hn
      change pure (Kind.c s == .c .specifiers || among taggedSymbols (.c s)) = _
      rw [among_iff.mpr hs, Bool.or_true]
  | n :: m :: ns, _ =>
    obtain ⟨place, ms, rfl, -⟩ := eq_branch_of_bare hn
    rfl

/-- One more specifier ends the list, which a single one before it begins. -/
theorem run_extendSpecifiers (h : Specifiers ns) (hn : n'.bare = typeOf ns) {m m' : Node}
    (hm : m'.bare = m) (t : Token) :
    ∃ l, p.run e (extendSpecifiers n' t m') = pure l ∧ l.bare = typeOf (ns ++ [m]) := by
  have isType := run_isType_typeOf (p := p) (e := e) h hn
  obtain ⟨hne, each⟩ := h
  match ns, hne with
  | [n], _ =>
    obtain ⟨s, kind, hs⟩ : ∃ s, Action.kindOf n'.token = pure (.c s) ∧ s ≠ .specifiers := by
      have specifier := each n List.mem_cons_self
      have apart : ∀ s ∈ specifierSymbols ++ taggedSymbols, s ≠ .specifiers := by decide
      cases specifier with
      | @keyword s hs =>
        obtain ⟨place, rfl⟩ := eq_leaf_of_bare rfl hn
        exact ⟨s, rfl, apart s (List.mem_append_left _ hs)⟩
      | @tagged s ns hs =>
        obtain ⟨place, ms, rfl, -⟩ := eq_branch_of_bare hn
        exact ⟨s, rfl, apart s (List.mem_append_right _ hs)⟩
    refine ⟨.branch CSymbol.specifiers.token [n', m'], ?_, ?_⟩
    · have other : (Kind.c s == .c .specifiers) = false := by simpa using hs
      simp only [extendSpecifiers, kind, Parser.run_bind, Parser.run_pure, pure_bind, other,
        Bool.false_eq_true, if_false, isType, if_true]
    · have children : Node.bareAll [n', m'] = [n] ++ [m] := by
        simp only [Node.bareAll, hn, hm, typeOf, List.singleton_append]
      exact bare_branch children
  | n :: l :: ns, _ =>
    obtain ⟨place, ms, rfl, hms⟩ := eq_branch_of_bare hn
    refine ⟨.branch (tokenAt .specifiers place) (ms ++ [m']), rfl, ?_⟩
    have append (ns : List Node) : Node.bareAll (ns ++ [m']) = Node.bareAll ns ++ [m] := by
      induction ns with
      | nil => simp [Node.bareAll, hm]
      | cons n ns ih => simp [Node.bareAll, ih]
    rw [Node.bare, append, hms]
    rfl

end Trees

section Parts
variable {n m : Node} {ns : List Node} {ts us : List Token} {s : CSymbol}

/-- The tokens of a specifier are a keyword and, for a tagged type, what is read after it. -/
inductive ReadsSpecifier : Node → List Token → Prop
  | keyword {s : CSymbol} (hs : s ∈ specifierSymbols) : ReadsSpecifier (.leaf s.token) [s.token]
  | tagged {s : CSymbol} {ns : List Node} {ts : List Token} (hs : s ∈ taggedSymbols)
    (h : ∀ place us rest, us.map Token.bare = ts → Shown rest → Apart .leftBrace rest →
      Gives (parser.run parser.reading (tagged (tokenAt s place))) ⟨us ++ rest, none⟩
        (.branch s.token ns) rest) : ReadsSpecifier (.branch s.token ns) (s.token :: ts)

theorem ReadsSpecifier.specifier (h : ReadsSpecifier n ts) : Specifier n := by
  cases h with
  | keyword hs => exact .keyword hs
  | tagged hs _ => exact .tagged hs

theorem ReadsSpecifier.starts (h : ReadsSpecifier n ts) : Starts (specifierSymbols ++ taggedSymbols) ts := by
  cases h with
  | keyword hs => exact .cons (List.mem_append_left _ hs) _
  | tagged hs _ => exact .cons (List.mem_append_right _ hs) _

/-- The tokens of specifiers are read to their type, wherever a type may stand. -/
structure ReadsType (ns : List Node) (ts : List Token) : Prop where
  starts : Starts (specifierSymbols ++ taggedSymbols) ts
  specifiers : Specifiers ns
  reads : ∀ r < Level.highest, ∀ us rest, us.map Token.bare = ts → Shown rest → Apart .leftBrace rest →
    ∀ Q : Except Failure Node → Scan → Prop,
      (∀ n', n'.bare = typeOf ns → Leads (parser.extending r n') ⟨rest, none⟩ Q) →
        Leads (parser.reading r) ⟨us ++ rest, none⟩ Q

theorem rules_of_specifier (hs : s ∈ specifierSymbols) :
    rules.prefixRule? (.c s) = some (.leaf Level.root) ∧
      rules.infixRule? (.c s) = some specifierAfter := by
  have each : ∀ s ∈ specifierSymbols, rules.prefixRule? (.c s) = some (.leaf Level.root) ∧
      rules.infixRule? (.c s) = some specifierAfter := by
    simp only [specifierSymbols, List.forall_mem_cons, List.not_mem_nil, false_implies, implies_true,
      and_true]
    repeat' apply And.intro
    all_goals rfl
  exact each s hs

theorem rules_of_tagged (hs : s ∈ taggedSymbols) :
    rules.prefixRule? (.c s) = some taggedFirst ∧ rules.infixRule? (.c s) = some taggedAfter := by
  simp only [taggedSymbols, List.mem_cons, List.not_mem_nil, or_false] at hs
  rcases hs with rfl | rfl | rfl <;> exact ⟨rfl, rfl⟩

theorem ReadsSpecifier.single (h : ReadsSpecifier n ts) : ReadsType [n] ts where
  starts := h.starts
  specifiers := ⟨List.cons_ne_nil n [], List.forall_mem_singleton.mpr h.specifier⟩
  reads := by
    intro r hr us rest hus shown apart Q hQ
    cases h with
    | @keyword s hs =>
      obtain ⟨place, rfl⟩ := bare_last hus
      exact steady.leads_reading_leaf ⟨_, _, _, rfl⟩ (rules_of_specifier hs).1 (hQ _ rfl)
    | @tagged s ns ts hs h =>
      obtain ⟨place, vs, rfl, hvs⟩ := bare_cons hus
      have rule := (rules_of_tagged hs).1
      refine steady.leads_reading ⟨_, _, _, rfl⟩ (steady.leads_start ⟨_, _, _, rfl⟩ rule ?_)
      exact (h place vs rest hvs shown apart).leads hQ

theorem ReadsType.another (h : ReadsType ns ts) (hm : ReadsSpecifier m us) :
    ReadsType (ns ++ [m]) (ts ++ us) where
  starts := h.starts.append us
  specifiers := by
    refine ⟨by simp, fun n hn => ?_⟩
    rcases List.mem_append.mp hn with hn | hn
    · exact h.specifiers.each n hn
    · exact List.mem_singleton.mp hn ▸ hm.specifier
  reads := by
    intro r hr vs rest hvs shown apart Q hQ
    obtain ⟨xs, ys, rfl, hxs, hys⟩ := List.map_eq_append_iff.mp hvs
    have next := hm.starts.next hys (s := .leftBrace) (by decide) rest
    rw [List.append_assoc]
    refine h.reads r hr xs _ hxs next.1 next.2 Q fun n' hn => ?_
    -- The rule for the keyword adds the specifier to what stands before it.
    have extended {t : Token} {m' : Node} (hm' : m'.bare = m) :
        Leads (parser.run parser.reading (extendSpecifiers n' t m')) ⟨rest, none⟩
          (Onward (parser.extending r) Q) := by
      obtain ⟨l, run, hl⟩ := run_extendSpecifiers (p := parser) (e := parser.reading) h.specifiers hn hm' t
      rw [run]
      exact Leads.pure (hQ l hl)
    cases hm with
    | @keyword s hs =>
      obtain ⟨place, rfl⟩ := bare_last hys
      exact steady.leads_extending_step ⟨_, _, _, rfl⟩ (rules_of_specifier hs).2 hr (extended rfl)
    | @tagged s ns ts hs hm =>
      obtain ⟨place, zs, rfl, hzs⟩ := bare_cons hys
      refine steady.leads_extending_step ⟨_, _, _, rfl⟩ (rules_of_tagged hs).2 hr ?_
      simp only [taggedAfter, Parser.run_bind]
      exact (hm place zs rest hzs shown apart).bind fun m' hm' => extended hm'

/-- What follows the keyword of a tagged type is read to its body. -/
def ReadsBody (s : CSymbol) (n : Node) (ts : List Token) : Prop :=
  ∃ inner, ts = CSymbol.leftBrace.token :: inner ∧ ∀ place us rest, us.map Token.bare = inner →
    Gives (parser.run parser.reading (taggedBody (tokenAt s place))) ⟨us ++ rest, none⟩ n rest

/-- After a tag there may be a body. -/
theorem leads_tagged {name : String} {t : Token} {place : Option Int} {rest : List Token}
    (shown : Shown rest) {Q : Except Failure Node → Scan → Prop}
    (h : ∀ n', n'.bare = .leaf (identifier name) → Leads (parser.run parser.reading (do
      if ← acceptOrEnd .leftBrace then return .branch t [n', ← taggedBody t]
      else return .branch t [n'])) ⟨rest, none⟩ Q) :
    Leads (parser.run parser.reading (tagged t)) ⟨.lexeme (.c .ident) name place :: rest, none⟩ Q := by
  have tag : Reads 14 (.leaf (identifier name)) [identifier name] := .operand (by decide) name
  have written : [Token.lexeme (.c .ident) name place].map Token.bare = [identifier name] := rfl
  rw [tagged, Parser.run_bind]
  refine Leads.bind (leads_accept_other rfl (not_same (by decide) name place) ?_)
  simp only [Onward, Bool.false_eq_true, if_false]
  rw [Parser.run_bind, Parser.run_expr]
  refine Leads.bind (tag.whole (by decide) written (stops_highest shown) (stops_highest shown)
    fun n' hn => ?_)
  simp only [Onward]
  rw [Parser.run_bind, run_isIdent hn]
  exact h n' hn

theorem ReadsSpecifier.tag {name : String} (hs : s ∈ taggedSymbols) :
    ReadsSpecifier (.branch s.token [.leaf (identifier name)]) [s.token, identifier name] := by
  refine .tagged hs fun place us rest hus shown apart => ?_
  obtain ⟨t, rfl, ht⟩ := List.map_eq_singleton_iff.mp hus
  obtain ⟨q, rfl⟩ := located_of_bare ht
  refine leads_tagged shown fun n' hn => ?_
  rw [Parser.run_bind]
  refine Leads.bind (leads_acceptOrEnd_other shown apart ?_)
  exact gives_branch (by simp only [Node.bareAll, hn])

theorem ReadsSpecifier.anonymous (hs : s ∈ taggedSymbols) (body : ReadsBody s n ts) :
    ReadsSpecifier (.branch s.token [n]) (s.token :: ts) := by
  obtain ⟨inner, rfl, read⟩ := body
  refine .tagged hs fun place us rest hus shown apart => ?_
  obtain ⟨q, vs, rfl, hvs⟩ := bare_cons hus
  rw [C.tagged, Parser.run_bind, List.cons_append]
  refine Leads.bind (leads_accept ?_)
  simp only [Onward, if_true, Parser.run_bind]
  refine (read place vs rest hvs).bind fun n' hn => ?_
  exact gives_branch (by simp only [Node.bareAll, hn])

theorem ReadsSpecifier.tagBody {name : String} (hs : s ∈ taggedSymbols) (body : ReadsBody s n ts) :
    ReadsSpecifier (.branch s.token [.leaf (identifier name), n]) (s.token :: identifier name :: ts) := by
  obtain ⟨inner, rfl, read⟩ := body
  refine .tagged hs fun place us rest hus shown apart => ?_
  obtain ⟨t, vs, rfl, ht, hvs⟩ := List.map_eq_cons_iff.mp hus
  obtain ⟨q, rfl⟩ := located_of_bare ht
  obtain ⟨o, ws, rfl, hws⟩ := bare_cons hvs
  rw [List.cons_append, List.cons_append]
  refine leads_tagged shown_cons fun m' hm => ?_
  rw [Parser.run_bind]
  refine Leads.bind (leads_acceptOrEnd ?_)
  simp only [Onward, if_true, Parser.run_bind]
  refine (read place ws rest hws).bind fun n' hn => ?_
  exact gives_branch (by simp only [Node.bareAll, hm, hn])

/-- The tokens of a declaration are read to its tree. -/
structure ReadsDeclaration (n : Node) (ts : List Token) : Prop where
  starts : Starts (specifierSymbols ++ taggedSymbols) ts
  reads : Reads 11 n ts

/-- A round of the fields of a record. -/
def fieldRound : Action Round := do
  if ← accept .rightBrace then return .done
  else
    let field ← Action.expr Level.root
    require .semicolon field
    return .item field

theorem recordBody_eq : recordBody = (do
    let fields ← Action.repeated fieldRound
    return .branch CSymbol.body.token fields) := rfl

/-- A field and its semicolon. -/
def field : ParseM Node := do
  let n ← parser.reading Level.root
  parser.run parser.reading (require .semicolon n)
  return n

theorem run_fieldRound : parser.run parser.reading fieldRound = bracedRound field := by
  simp only [fieldRound, bracedRound, field, Parser.run_bind, bind_assoc]
  congr 1
  funext closed
  cases closed with
  | true => rfl
  | false =>
    simp only [Bool.false_eq_true, if_false, Parser.run_bind, Parser.run_expr, Parser.run_pure, pure_bind]

theorem ReadsDeclaration.field (h : ReadsDeclaration n ts) {rest : List Token}
    (hus : us.map Token.bare = ts ++ [CSymbol.semicolon.token]) :
    Gives field ⟨us ++ rest, none⟩ n rest := by
  obtain ⟨vs, place, rfl, hvs⟩ := bare_append_last hus
  rw [List.append_assoc, List.singleton_append]
  exact (h.reads.gives_before (by decide) rfl hvs).bind fun n' hn =>
    Leads.bind (leads_require (Comes.pure hn))

theorem ReadsBody.record {fields : List (Node × List Token)} (hs : s ∈ [CSymbol.kwStruct, .kwUnion])
    (h : ∀ a ∈ fields, ReadsDeclaration a.1 a.2) :
    ReadsBody s (.branch CSymbol.body.token (fields.map (·.1)))
      (CSymbol.leftBrace.token :: fields.flatMap (fun a => a.2 ++ [CSymbol.semicolon.token]) ++
        [CSymbol.rightBrace.token]) := by
  refine ⟨_, List.cons_append, fun place us rest hus => ?_⟩
  have body : taggedBody (tokenAt s place) = recordBody := by
    simp only [List.mem_cons, List.not_mem_nil, or_false] at hs
    rcases hs with rfl | rfl <;> rfl
  obtain ⟨vs, q, rfl, hvs⟩ := bare_append_last hus
  rw [body, recordBody_eq, Parser.run_bind, Parser.run_repeated, run_fieldRound, List.append_assoc,
    List.singleton_append]
  have each : ∀ a ∈ fields.map fun a => (a.1, a.2 ++ [CSymbol.semicolon.token]),
      Starts (phraseOpeners ++ statementSymbols) a.2 ∧ ∀ us rest, us.map Token.bare = a.2 → Shown rest →
        Apart .kwElse rest → Gives C.field ⟨us ++ rest, none⟩ a.1 rest := by
    rintro a ha
    obtain ⟨b, hb, rfl⟩ := List.mem_map.mp ha
    have openers : specifierSymbols ++ taggedSymbols ⊆ phraseOpeners ++ statementSymbols := by decide
    exact ⟨((h b hb).starts.append _).mono openers, fun us rest hus _ _ => (h b hb).field hus⟩
  refine (gives_repeated each (by rw [hvs, List.flatMap_map])).bind fun ns' hns => ?_
  rw [List.map_map] at hns
  exact gives_branch hns

namespace Enumerator

theorem written (h : Enumerator n ts) : Written 0 n ts := by
  cases h with
  | bare hv => exact .operand (by decide) hv
  | valued hv value => exact .assignment (Nat.le_refl 0) (by decide) (.operand (by decide) hv) value

theorem starts (h : Enumerator n ts) : Starts [.ident] ts := by
  cases h with
  | bare hv => exact ⟨_, _, _, by decide, rfl⟩
  | valued hv value => exact ⟨_, _, _, by decide, rfl⟩

theorem run_name {p : Parser} {e : Int → ParseM Node} {n' : Node} (h : Enumerator n ts)
    (hn : n'.bare = n) :
    (do p.run e (isIdent (← p.run e (enumeratorName n')))) = (pure true : ParseM Bool) := by
  cases h with
  | bare hv =>
    obtain ⟨place, rfl⟩ := eq_leaf_of_bare rfl hn
    rfl
  | valued hv value =>
    obtain ⟨place, ns, rfl, hns⟩ := eq_branch_of_bare hn
    obtain ⟨l, ns, rfl⟩ : ∃ l ms, ns = l :: ms := by
      cases ns with
      | nil => cases hns
      | cons l ms => exact ⟨l, ms, rfl⟩
    obtain ⟨place, rfl⟩ := eq_leaf_of_bare rfl (List.cons.inj hns).1
    rfl

end Enumerator

theorem Enumerators.run_check {p : Parser} {e : Int → ParseM Node} {t : Token} (h : Enumerators ns ts) :
    ∀ ns', Node.bareAll ns' = ns → p.run e (checkEnumerators t ns') = pure () := by
  have step {n n' : Node} {ns' : List Node} {ts : List Token} (h : Enumerator n ts) (hn : n'.bare = n)
      (others : p.run e (checkEnumerators t ns') = pure ()) :
      p.run e (checkEnumerators t (n' :: ns')) = pure () := by
    simp only [checkEnumerators, Parser.run_bind, ← bind_assoc]
    rw [h.run_name hn]
    simp [others]
  induction h with
  | nil =>
    rintro (_ | ⟨n', ns'⟩) hns
    · rfl
    · cases hns
  | last h =>
    rintro (_ | ⟨n', _ | ⟨m', ns'⟩⟩) hns
    · cases hns
    · exact step h (List.cons.inj hns).1 rfl
    · cases (List.cons.inj hns).2
  | more h _ ih =>
    rintro (_ | ⟨n', ns'⟩) hns
    · cases hns
    · exact step h (List.cons.inj hns).1 (ih ns' (List.cons.inj hns).2)

/-- A round of the items of an enumeration. -/
def enumRound : Action Round := do
  if ← accept .rightBrace then return .done
  else
    let item ← Action.expr Level.root
    if ← accept .comma then return .item item
    else
      Action.consume CSymbol.rightBrace.token
      return .last item

theorem enumBody_eq (t : Token) : enumBody t = (do
    let items ← Action.repeated enumRound
    checkEnumerators t items
    return .branch CSymbol.body.token items) := rfl

theorem Enumerator.leads_round {symbol : CSymbol} {place : Option Int} {rest : List Token}
    {Q : Except Failure Round → Scan → Prop} (h : Enumerator n ts) (hus : us.map Token.bare = ts)
    (hs : rules.infixRule? (.c symbol) = none)
    (hQ : ∀ n', n'.bare = n → Leads (parser.run parser.reading (do
      if ← accept .comma then return .item n'
      else
        Action.consume CSymbol.rightBrace.token
        return .last n')) ⟨tokenAt symbol place :: rest, none⟩ Q) :
    Leads (parser.run parser.reading enumRound) ⟨us ++ tokenAt symbol place :: rest, none⟩ Q := by
  have read : Gives (parser.reading Level.root) ⟨us ++ tokenAt symbol place :: rest, none⟩ n _ :=
    h.written.reads.gives_before (by decide) hs hus
  obtain ⟨s, value, q, vs, hs, rfl⟩ := h.starts.located hus
  obtain rfl := List.mem_singleton.mp hs
  rw [enumRound, Parser.run_bind]
  refine Leads.bind (leads_accept_other rfl (not_same (by decide) value q) ?_)
  simp only [Onward, Bool.false_eq_true, if_false]
  rw [Parser.run_bind, Parser.run_expr]
  exact read.bind hQ

theorem Enumerators.gives (h : Enumerators ns ts) {times : Nat} {place : Option Int} {rest : List Token}
    (ht : us.length < times) (hus : us.map Token.bare = ts) :
    GivesAll (Parser.rounds (parser.run parser.reading enumRound) times)
      ⟨us ++ tokenAt .rightBrace place :: rest, none⟩ ns rest := by
  obtain ⟨k, rfl⟩ : ∃ k, times = k + 1 := ⟨times - 1, by omega⟩
  induction h generalizing k us with
  | nil =>
    obtain rfl := List.map_eq_nil_iff.mp hus
    refine Leads.bind ?_
    rw [enumRound, Parser.run_bind]
    exact Leads.bind (leads_accept (Leads.pure (Comes.pure rfl)))
  | last h =>
    refine Leads.bind (h.leads_round hus rfl fun n' hn => ?_)
    rw [Parser.run_bind]
    refine Leads.bind (leads_accept_other rfl (not_same (by decide) _ _) ?_)
    simp only [Onward, Bool.false_eq_true, if_false]
    rw [Parser.run_bind, Parser.run_consume]
    exact Leads.bind (leads_consume (Leads.pure (Comes.pure (by simp [Node.bareAll, hn]))))
  | more h _ ih =>
    obtain ⟨us, q, vs, rfl, hus, hvs⟩ := bare_append_cons hus
    have taken := h.starts.length_pos hus
    rw [List.length_append, List.length_cons] at ht
    obtain ⟨k, rfl⟩ : ∃ j, k = j + 1 := ⟨k - 1, by omega⟩
    rw [List.append_assoc, List.cons_append]
    refine Leads.bind (h.leads_round hus rfl fun n' hn => ?_)
    rw [Parser.run_bind]
    refine Leads.bind (leads_accept (Leads.pure ?_))
    exact (ih hvs k (by omega)).bind fun ns' hns => Comes.pure (by simp [Node.bareAll, hn, hns])

theorem ReadsBody.enumeration (h : Enumerators ns ts) :
    ReadsBody .kwEnum (.branch CSymbol.body.token ns)
      (CSymbol.leftBrace.token :: ts ++ [CSymbol.rightBrace.token]) := by
  refine ⟨_, List.cons_append, fun place us rest hus => ?_⟩
  obtain ⟨vs, q, rfl, hvs⟩ := bare_append_last hus
  change Gives (parser.run parser.reading (enumBody (tokenAt .kwEnum place))) _ _ _
  rw [enumBody_eq, Parser.run_bind, Parser.run_repeated, List.append_assoc, List.singleton_append]
  refine Leads.bind (Leads.bind (Leads.room ((h.gives ?_ hvs).leads fun ns' hns => ?_)))
  · rw [List.length_append]
    omega
  · simp only [Onward, Parser.run_bind, h.run_check ns' hns, pure_bind]
    exact Comes.pure (by rw [Node.bare, hns]; rfl)

/-- A name under stars, and the stars before it. -/
theorem reads_pointer (name : String) (stars : Nat) :
    Reads 12 (pointer (.leaf (identifier name)) stars)
      (List.replicate stars CSymbol.star.token ++ [identifier name]) := by
  induction stars with
  | zero => exact .operand (by decide) name
  | succ k ih => exact .unary (by decide) ih

theorem ReadsType.declaration (h : ReadsType ns ts) (name : String) (stars : Nat) :
    ReadsDeclaration
      (.branch CSymbol.declaration.token [typeOf ns, pointer (.leaf (identifier name)) stars])
      (ts ++ List.replicate stars CSymbol.star.token ++ [identifier name]) where
  starts := (h.starts.append _).append _
  reads := by
    intro r hr us rest hus hrest Q hQ
    rw [List.append_assoc] at hus
    obtain ⟨xs, ys, rfl, hxs, hys⟩ := List.map_eq_append_iff.mp hus
    rw [List.append_assoc]
    have below : r < Level.highest := Int.lt_trans hr (by decide)
    cases stars with
    | zero =>
      obtain ⟨t, rfl, ht⟩ := List.map_eq_singleton_iff.mp hys
      obtain ⟨place, rfl⟩ := located_of_bare ht
      refine h.reads r below xs _ hxs shown_cons (apart_cons (by decide)) Q fun n' hn => ?_
      have rule : rules.infixRule? (.c .ident) = some declarator := rfl
      refine steady.leads_extending_step ⟨_, _, _, rfl⟩ rule below ?_
      simp only [declarator, Parser.run_bind, run_isType_typeOf h.specifiers hn, pure_bind, if_true]
      exact Leads.pure (hQ _ (bare_branch (by simp only [Node.bareAll, hn]; rfl)))
    | succ k =>
      obtain ⟨place, zs, rfl, hzs⟩ := bare_cons hys
      refine h.reads r below xs _ hxs shown_cons (apart_cons (by decide)) Q fun n' hn => ?_
      have rule : rules.infixRule? (.c .star) = some starAfter := rfl
      refine steady.leads_extending_step ⟨_, _, _, rfl⟩ rule hr ?_
      simp only [starAfter, Parser.run_bind, run_isType_typeOf h.specifiers hn, pure_bind, if_true,
        Parser.run_expr]
      refine Leads.bind ((reads_pointer name k).whole (by decide) hzs hrest hrest fun m' hm => ?_)
      have pointed : (Node.branch (tokenAt .star place) [m']).bare =
          .branch CSymbol.star.token [pointer (.leaf (identifier name)) k] :=
        bare_branch (by simp only [Node.bareAll, hm])
      exact Leads.pure (hQ _ (bare_branch (by simp only [Node.bareAll, hn, pointed]; rfl)))

/-- What reading the tokens of a part comes to. -/
def Part.Reads : Part → List Node → List Token → Prop
  | .specifier, ns, ts => ∃ n, ns = [n] ∧ ReadsSpecifier n ts
  | .specifiers, ns, ts => ReadsType ns ts
  | .body s, ns, ts => ∃ n, ns = [n] ∧ ReadsBody s n ts
  | .declaration, ns, ts => ∃ n, ns = [n] ∧ ReadsDeclaration n ts

end Parts

theorem Declares.reads {part : Part} {ns : List Node} {ts : List Token} (h : Declares part ns ts) :
    part.Reads ns ts := by
  induction h with
  | keyword hs => exact ⟨_, rfl, .keyword hs⟩
  | tag hs hv => exact ⟨_, rfl, .tag hs⟩
  | anonymous hs _ body =>
    obtain ⟨n, rfl, body⟩ := body
    exact ⟨_, rfl, .anonymous hs body⟩
  | tagged hs hv _ body =>
    obtain ⟨n, rfl, body⟩ := body
    exact ⟨_, rfl, .tagBody hs body⟩
  | record hs _ h =>
    refine ⟨_, rfl, .record hs fun a ha => ?_⟩
    obtain ⟨n, hn, reads⟩ := h a ha
    exact (List.cons.inj hn).1 ▸ reads
  | enumeration h => exact ⟨_, rfl, .enumeration h⟩
  | single _ h =>
    obtain ⟨n, rfl, reads⟩ := h
    exact reads.single
  | another _ _ h next =>
    obtain ⟨m, rfl, next⟩ := next
    exact h.another next
  | declaration _ hv stars h => exact ⟨_, rfl, h.declaration _ stars⟩

theorem Enumerators.writable {ns : List Node} {ts : List Token} (h : Enumerators ns ts) :
    ∀ t ∈ ts, Writable t := by
  induction h with
  | nil => exact List.forall_mem_nil _
  | last h => exact h.written.writable
  | more h _ ih =>
    simp only [List.forall_mem_cons, List.forall_mem_append]
    exact ⟨h.written.writable, writable_token (by decide), ih⟩

theorem Declares.writable {part : Part} {ns : List Node} {ts : List Token} (h : Declares part ns ts) :
    ∀ t ∈ ts, Writable t := by
  have specifier {s : CSymbol} (hs : s ∈ specifierSymbols) : Writable s.token :=
    writable_symbol (List.mem_append_left _ (List.mem_append_left _ (List.mem_append_left _ hs)))
  have tagged {s : CSymbol} (hs : s ∈ taggedSymbols) : Writable s.token :=
    writable_symbol (List.mem_append_left _ (List.mem_append_left _ (List.mem_append_right _ hs)))
  have brace : Writable CSymbol.leftBrace.token := writable_symbol (by decide)
  have closing : Writable CSymbol.rightBrace.token := writable_symbol (by decide)
  have named {name : String} (hv : IsLexeme .ident name) : Writable (identifier name) := ⟨_, _, rfl, hv⟩
  induction h with
  | keyword hs => exact List.forall_mem_singleton.mpr (specifier hs)
  | tag hs hv => exact List.forall_mem_cons.mpr ⟨tagged hs, List.forall_mem_singleton.mpr (named hv)⟩
  | anonymous hs _ body => exact List.forall_mem_cons.mpr ⟨tagged hs, body⟩
  | tagged hs hv _ body =>
    exact List.forall_mem_cons.mpr ⟨tagged hs, List.forall_mem_cons.mpr ⟨named hv, body⟩⟩
  | record _ _ h =>
    simp only [List.cons_append, List.forall_mem_cons, List.forall_mem_append, List.mem_flatMap]
    refine ⟨brace, fun t ht => ?_, closing, List.forall_mem_nil _⟩
    obtain ⟨a, ha, ht⟩ := ht
    rcases List.mem_append.mp ht with ht | ht
    · exact h a ha t ht
    · exact List.mem_singleton.mp ht ▸ writable_symbol (by decide)
  | enumeration h =>
    simp only [List.cons_append, List.forall_mem_cons, List.forall_mem_append]
    exact ⟨brace, h.writable, closing, List.forall_mem_nil _⟩
  | single _ h => exact h
  | another _ _ h next => exact List.forall_mem_append.mpr ⟨h, next⟩
  | declaration _ hv stars h =>
    simp only [List.forall_mem_append, List.forall_mem_singleton]
    refine ⟨⟨h, fun t ht => ?_⟩, named hv⟩
    exact List.eq_of_mem_replicate ht ▸ writable_token (by decide)

theorem ReadsDeclaration.phrase {n : Node} {ts : List Token} (h : ReadsDeclaration n ts) :
    ReadsPhrase n ts where
  starts := h.starts.mono (by decide)
  reads := h.reads.mono (Nat.zero_le 11)

/-- Every text with the tokens of specifiers, stars and a name and a semicolon is parsed to the
declaration of the name, under the stars, with the type of the specifiers. -/
theorem parse_declaration {ns : List Node} {ts : List Token} {name text : String}
    (h : Declares .specifiers ns ts) (stars : Nat)
    (hs : Scans text (ts ++ List.replicate stars CSymbol.star.token ++
      [identifier name, CSymbol.semicolon.token])) :
    ∃ n, Grammar.c.parse text none = .ok [n] ∧ n.bare = .branch CSymbol.declaration.token
      [typeOf ns, pointer (.leaf (identifier name)) stars] := by
  have declaration := ReadsType.declaration h.reads name stars
  have program := Program.cons (S := ReadsStatement) (P := ReadsPhrase) declaration.phrase.statement .nil
  obtain ⟨ns', parsed, hns⟩ := program.parse_of_scans (by simpa using hs)
  rcases ns' with _ | ⟨n, _ | ⟨m, ms⟩⟩
  · cases hns
  · exact ⟨n, parsed, (List.cons.inj hns).1⟩
  · cases (List.cons.inj hns).2

theorem parse_declaration_struct :
    ∃ n, Grammar.c.parse "const struct S \x7b int *a; enum \x7b A, B = 1, \x7d b; \x7d *x;" none = .ok [n] ∧
      n.bare = .branch CSymbol.declaration.token [
        .branch CSymbol.specifiers.token [
          .leaf CSymbol.kwConst.token,
          .branch CSymbol.kwStruct.token [.leaf (identifier "S"), .branch CSymbol.body.token [
            .branch CSymbol.declaration.token [
              .leaf CSymbol.kwInt.token, .branch CSymbol.star.token [.leaf (identifier "a")]],
            .branch CSymbol.declaration.token [
              .branch CSymbol.kwEnum.token [.branch CSymbol.body.token [
                .leaf (identifier "A"), .branch CSymbol.assign.token [
                  .leaf (identifier "B"), .leaf (.lexeme (.c .intConst) "1" none)]]],
              .leaf (identifier "b")]]]],
        .branch CSymbol.star.token [.leaf (identifier "x")]] := by
  have items : Enumerators _ _ :=
    .more (.bare (by decide +kernel : IsLexeme .ident "A"))
      (.more (.valued (by decide +kernel : IsLexeme .ident "B")
        (.operand (by decide) (by decide +kernel : IsLexeme .intConst "1"))) .nil)
  have int : Declares .specifiers _ _ := .single (.keyword (by decide : CSymbol.kwInt ∈ specifierSymbols))
  have a : Declares .declaration _ _ := int.declaration (by decide +kernel : IsLexeme .ident "a") 1
  have enum : Declares .specifiers _ _ := .single (.anonymous (by decide) (.enumeration items))
  have b : Declares .declaration _ _ := enum.declaration (by decide +kernel : IsLexeme .ident "b") 0
  have body : Declares (.body .kwStruct) _ _ := .record (by decide)
    (List.forall_mem_cons.mpr ⟨a, List.forall_mem_singleton.mpr b⟩ :
      ∀ x ∈ [(_, _), (_, _)], Declares .declaration [Prod.fst x] x.2)
  have struct : Declares .specifier _ _ :=
    .tagged (by decide) (by decide +kernel : IsLexeme .ident "S") body
  have type := (Declares.single (.keyword (by decide : CSymbol.kwConst ∈ specifierSymbols))).another struct
  exact parse_declaration type 1 (by decide +kernel)

end BindingPower.C
