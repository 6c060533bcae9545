import BindingPower.Proofs.C.Declaration

/-! C statements read back. An `else` belongs to the nearest `if` that can have one, so a statement that
would take an `else` for its own is no branch before one. -/
namespace BindingPower.C
open ParseM

/-- Expressions and declarations and their tokens. What is declared may have a value. -/
inductive Phrase : Node → List Token → Prop
  | expression {n : Node} {ts : List Token} (h : Written 0 n ts) : Phrase n ts
  | declaration {n : Node} {ts : List Token} (h : Declares .declaration [n] ts) : Phrase n ts
  | initialised {n m : Node} {ts us : List Token} (h : Declares .declaration [n] ts)
    (value : Written 0 m us) :
    Phrase (.branch CSymbol.assign.token [n, m]) (ts ++ CSymbol.assign.token :: us)

/-- A statement and its tokens: dangling, if it ends in an `if` without `else`. -/
inductive Stated : Bool → Node → List Token → Prop
  | phrase {n : Node} {ts : List Token} (h : Phrase n ts) :
    Stated false n (ts ++ [CSymbol.semicolon.token])
  | goto {name : String} (hv : IsLexeme .ident name) :
    Stated false (.branch CSymbol.kwGoto.token [.leaf (identifier name)])
      [CSymbol.kwGoto.token, identifier name, CSymbol.semicolon.token]
  | jump {s : CSymbol} (hs : s ∈ [CSymbol.kwContinue, .kwBreak]) :
    Stated false (.branch s.token []) [s.token, CSymbol.semicolon.token]
  | exit : Stated false (.branch CSymbol.kwReturn.token [])
      [CSymbol.kwReturn.token, CSymbol.semicolon.token]
  | answer {n : Node} {ts : List Token} (value : Written 0 n ts) :
    Stated false (.branch CSymbol.kwReturn.token [n])
      (CSymbol.kwReturn.token :: (ts ++ [CSymbol.semicolon.token]))
  | otherwise {d : Bool} {n : Node} {ts : List Token} (h : Stated d n ts) :
    Stated d (.branch CSymbol.kwDefault.token [n])
      (CSymbol.kwDefault.token :: CSymbol.colon.token :: ts)
  | labelled {d : Bool} {n m : Node} {ts us : List Token} (value : Written 0 m us) (h : Stated d n ts) :
    Stated d (.branch CSymbol.kwCase.token [m, n])
      (CSymbol.kwCase.token :: (us ++ CSymbol.colon.token :: ts))
  | ifThen {d : Bool} {n m : Node} {ts us : List Token} (test : Written 0 m us) (yes : Stated d n ts) :
    Stated true (.branch CSymbol.kwIf.token [m, n])
      (CSymbol.kwIf.token :: CSymbol.leftParen.token :: (us ++ CSymbol.rightParen.token :: ts))
  | ifElse {d : Bool} {n m l : Node} {ts us vs : List Token} (test : Written 0 m us)
    (yes : Stated false n ts) (no : Stated d l vs) :
    Stated d (.branch CSymbol.kwIf.token [m, n, l])
      (CSymbol.kwIf.token :: CSymbol.leftParen.token ::
        (us ++ CSymbol.rightParen.token :: (ts ++ CSymbol.kwElse.token :: vs)))
  | loop {d : Bool} {n m : Node} {ts us : List Token} (test : Written 0 m us) (body : Stated d n ts) :
    Stated d (.branch CSymbol.kwWhile.token [m, n])
      (CSymbol.kwWhile.token :: CSymbol.leftParen.token :: (us ++ CSymbol.rightParen.token :: ts))
  | block {parts : List (Bool × Node × List Token)} (h : ∀ a ∈ parts, Stated a.1 a.2.1 a.2.2) :
    Stated false (.branch CSymbol.block.token (parts.map (·.2.1)))
      (CSymbol.leftBrace.token :: (parts.flatMap (·.2.2) ++ [CSymbol.rightBrace.token]))

/-- The trees of statements: dangling, if they end in an `if` without `else`. The branch before an
`else` does not. -/
inductive Statement : Bool → Node → Prop
  | expression {n : Node} (h : Expression n) : Statement false n
  | declaration {n : Node} {ts : List Token} (h : Declares .declaration [n] ts) : Statement false n
  | initialised {n m : Node} {ts : List Token} (h : Declares .declaration [n] ts) (value : Expression m) :
    Statement false (.branch CSymbol.assign.token [n, m])
  | goto {name : String} (hv : IsLexeme .ident name) :
    Statement false (.branch CSymbol.kwGoto.token [.leaf (identifier name)])
  | jump {s : CSymbol} (hs : s ∈ [CSymbol.kwContinue, .kwBreak]) : Statement false (.branch s.token [])
  | exit : Statement false (.branch CSymbol.kwReturn.token [])
  | answer {n : Node} (value : Expression n) : Statement false (.branch CSymbol.kwReturn.token [n])
  | otherwise {d : Bool} {n : Node} (h : Statement d n) :
    Statement d (.branch CSymbol.kwDefault.token [n])
  | labelled {d : Bool} {n m : Node} (value : Expression m) (h : Statement d n) :
    Statement d (.branch CSymbol.kwCase.token [m, n])
  | ifThen {d : Bool} {n m : Node} (test : Expression m) (yes : Statement d n) :
    Statement true (.branch CSymbol.kwIf.token [m, n])
  | ifElse {d : Bool} {n m l : Node} (test : Expression m) (yes : Statement false n)
    (no : Statement d l) : Statement d (.branch CSymbol.kwIf.token [m, n, l])
  | loop {d : Bool} {n m : Node} (test : Expression m) (body : Statement d n) :
    Statement d (.branch CSymbol.kwWhile.token [m, n])
  | block {parts : List (Bool × Node)} (h : ∀ a ∈ parts, Statement a.1 a.2) :
    Statement false (.branch CSymbol.block.token (parts.map (·.2)))

/-- Every statement can be written. -/
theorem Statement.stated {d : Bool} {n : Node} (h : Statement d n) : ∃ ts, Stated d n ts := by
  have written {n : Node} (h : Expression n) : ∃ ts, Written 0 n ts := by
    obtain ⟨ts, h⟩ := h.written
    exact ⟨ts, h.mono (by decide)⟩
  induction h with
  | expression h =>
    obtain ⟨ts, h⟩ := written h
    exact ⟨_, .phrase (.expression h)⟩
  | declaration h => exact ⟨_, .phrase (.declaration h)⟩
  | initialised h value =>
    obtain ⟨us, value⟩ := written value
    exact ⟨_, .phrase (.initialised h value)⟩
  | goto hv => exact ⟨_, .goto hv⟩
  | jump hs => exact ⟨_, .jump hs⟩
  | exit => exact ⟨_, .exit⟩
  | answer value =>
    obtain ⟨ts, value⟩ := written value
    exact ⟨_, .answer value⟩
  | otherwise _ h =>
    obtain ⟨ts, h⟩ := h
    exact ⟨_, .otherwise h⟩
  | labelled value _ h =>
    obtain ⟨us, value⟩ := written value
    obtain ⟨ts, h⟩ := h
    exact ⟨_, .labelled value h⟩
  | ifThen test _ yes =>
    obtain ⟨us, test⟩ := written test
    obtain ⟨ts, yes⟩ := yes
    exact ⟨_, .ifThen test yes⟩
  | ifElse test _ _ yes no =>
    obtain ⟨us, test⟩ := written test
    obtain ⟨ts, yes⟩ := yes
    obtain ⟨vs, no⟩ := no
    exact ⟨_, .ifElse test yes no⟩
  | loop test _ body =>
    obtain ⟨us, test⟩ := written test
    obtain ⟨ts, body⟩ := body
    exact ⟨_, .loop test body⟩
  | block _ h =>
    obtain ⟨pieces, rfl, hpieces⟩ := exists_beside h
    have parts : ∀ b ∈ pieces.map fun a => (a.1.1, a.1.2, a.2), Stated b.1 b.2.1 b.2.2 :=
      List.forall_mem_map.mpr hpieces
    have written := Stated.block parts
    simp only [List.map_map] at written ⊢
    exact ⟨_, written⟩

section Phrases
variable {n m : Node} {ts us : List Token}

theorem Phrase.writable (h : Phrase n ts) : ∀ t ∈ ts, Writable t := by
  cases h with
  | expression h => exact h.writable
  | declaration h => exact h.writable
  | initialised h value =>
    simp only [List.forall_mem_append, List.forall_mem_cons]
    exact ⟨h.writable, writable_token (by decide), value.writable⟩

theorem Declares.readsDeclaration (h : Declares .declaration [n] ts) : ReadsDeclaration n ts := by
  obtain ⟨m, hm, reads⟩ := h.reads
  exact (List.cons.inj hm).1 ▸ reads

theorem Phrase.reads (h : Phrase n ts) : ReadsPhrase n ts := by
  cases h with
  | expression h =>
    refine ⟨?_, h.reads⟩
    obtain ⟨s, value, us, hs, rfl⟩ := h.opens
    exact ⟨s, value, us, List.mem_append_left _ (List.mem_append_left _ hs), rfl⟩
  | declaration h => exact h.readsDeclaration.phrase
  | initialised h value =>
    have declared := h.readsDeclaration
    exact ⟨declared.phrase.starts.append _,
      .assignment (by decide) (declared.reads.mono (by decide)) value.reads⟩

end Phrases

section Rules
variable {d : Bool} {n m l : Node} {ts us vs rest : List Token} {s : CSymbol} {place : Option Int}

/-- A statement is read if the prefix rule for its keyword reads what follows the keyword. -/
theorem ReadsStatement.keyword {r : PrefixRule} (hs : s ∈ statementSymbols)
    (hr : rules.prefixRule? (.c s) = some r)
    (h : ∀ place us rest, us.map Token.bare = ts → Shown rest → (d = true → Apart .kwElse rest) →
      Gives (parser.run parser.reading (r.action (tokenAt s place) r.power)) ⟨us ++ rest, none⟩ n rest) :
    ReadsStatement d n (s.token :: ts) where
  starts := .cons (List.mem_append_right _ hs) _
  gives := by
    intro required us rest hus shown apart
    obtain ⟨place, vs, rfl, hvs⟩ := bare_cons hus
    exact gives_keyword hs hr shown (h place vs rest hvs shown apart)

theorem gives_condition (test : Written 0 m ts) (hus : us.map Token.bare = ts) {q : Option Int} :
    Gives (parser.run parser.reading condition)
      ⟨tokenAt .leftParen place :: (us ++ tokenAt .rightParen q :: rest), none⟩ m rest := by
  rw [condition, Parser.run_bind, Parser.run_consume]
  refine Leads.bind (leads_consume ?_)
  simp only [Onward]
  rw [Parser.run_bind, Parser.run_expr]
  refine (test.reads.gives_before (by decide) rfl hus).bind fun m' hm => ?_
  rw [Parser.run_bind, Parser.run_consume]
  exact Leads.bind (leads_consume (Comes.pure hm))

theorem ReadsStatement.goto (name : String) :
    ReadsStatement false (.branch CSymbol.kwGoto.token [.leaf (identifier name)])
      [CSymbol.kwGoto.token, identifier name, CSymbol.semicolon.token] := by
  refine .keyword (r := gotoRule) (by decide) rfl fun place us rest hus _ _ => ?_
  obtain ⟨t, vs, rfl, ht, hvs⟩ := List.map_eq_cons_iff.mp hus
  obtain ⟨q, rfl⟩ := located_of_bare ht
  obtain ⟨o, rfl⟩ := bare_last hvs
  have label : Reads 14 (.leaf (identifier name)) [identifier name] := .operand (by decide) name
  have written : [Token.lexeme (.c .ident) name q].map Token.bare = [identifier name] := rfl
  have ends (r : Int) : Stops r (tokenAt .semicolon o :: rest) := stops_closer rfl r rest
  simp only [gotoRule, Parser.run_bind, Parser.run_expr]
  refine Leads.bind (label.whole (by decide) written (ends _) (ends _) fun n' hn => ?_)
  simp only [Onward, run_isIdent hn, pure_bind, if_true, Parser.run_bind]
  refine Leads.bind (leads_require ?_)
  exact gives_branch (by simp only [Node.bareAll, hn])

theorem ReadsStatement.jump (hs : s ∈ [CSymbol.kwContinue, .kwBreak]) :
    ReadsStatement false (.branch s.token []) [s.token, CSymbol.semicolon.token] := by
  have keyword : s ∈ statementSymbols ∧ rules.prefixRule? (.c s) = some C.jump := by
    simp only [List.mem_cons, List.not_mem_nil, or_false] at hs
    rcases hs with rfl | rfl <;> exact ⟨by decide, rfl⟩
  refine .keyword keyword.1 keyword.2 fun place us rest hus _ _ => ?_
  obtain ⟨q, rfl⟩ := bare_last hus
  simp only [C.jump, Parser.run_bind]
  exact Leads.bind (leads_require (Comes.pure rfl))

theorem ReadsStatement.exit : ReadsStatement false (.branch CSymbol.kwReturn.token [])
    [CSymbol.kwReturn.token, CSymbol.semicolon.token] := by
  refine .keyword (r := returnRule) (by decide) rfl fun place us rest hus _ _ => ?_
  obtain ⟨q, rfl⟩ := bare_last hus
  simp only [returnRule, Parser.run_bind]
  exact Leads.bind (leads_accept (Comes.pure rfl))

theorem ReadsStatement.answer (value : Written 0 n ts) :
    ReadsStatement false (.branch CSymbol.kwReturn.token [n])
      (CSymbol.kwReturn.token :: (ts ++ [CSymbol.semicolon.token])) := by
  refine .keyword (r := returnRule) (by decide) rfl fun place ws rest hws _ _ => ?_
  obtain ⟨us, q, rfl, hus⟩ := bare_append_last hws
  rw [List.append_assoc, List.singleton_append]
  have read : Gives (parser.reading Level.root) ⟨us ++ tokenAt .semicolon q :: rest, none⟩ n _ :=
    value.reads.gives_before (by decide) rfl hus
  obtain ⟨s, text, o, vs, hs, rfl⟩ := (Phrase.expression value).reads.starts.located hus
  have apart : ∀ s ∈ phraseOpeners, s ≠ .semicolon := by decide
  simp only [returnRule, Parser.run_bind]
  refine Leads.bind (leads_accept_other rfl (not_same (apart s hs) _ _) ?_)
  simp only [Onward, Bool.false_eq_true, if_false, Parser.run_bind, Parser.run_expr]
  refine read.bind fun n' hn => Leads.bind (leads_require ?_)
  exact gives_branch (by simp only [Node.bareAll, hn])

theorem ReadsStatement.otherwise (h : ReadsStatement d n ts) :
    ReadsStatement d (.branch CSymbol.kwDefault.token [n])
      (CSymbol.kwDefault.token :: CSymbol.colon.token :: ts) := by
  refine .keyword (r := defaultRule) (by decide) rfl fun place ws rest hws shown apart => ?_
  obtain ⟨q, us, rfl, hus⟩ := bare_cons hws
  simp only [defaultRule, Parser.run_bind, List.cons_append]
  refine Leads.bind (leads_require ((h.gives true us rest hus shown apart).bind fun n' hn => ?_))
  exact gives_branch (by simp only [Node.bareAll, hn])

theorem ReadsStatement.labelled (value : Written 0 m us) (h : ReadsStatement d n ts) :
    ReadsStatement d (.branch CSymbol.kwCase.token [m, n])
      (CSymbol.kwCase.token :: (us ++ CSymbol.colon.token :: ts)) := by
  refine .keyword (r := caseRule) (by decide) rfl fun place ws rest hws shown apart => ?_
  obtain ⟨us, q, vs, rfl, hus, hvs⟩ := bare_append_cons hws
  simp only [caseRule, Parser.run_bind, Parser.run_expr, List.append_assoc, List.cons_append]
  refine (value.reads.gives_before (by decide) rfl hus).bind fun m' hm => ?_
  refine Leads.bind (leads_require ((h.gives true vs rest hvs shown apart).bind fun n' hn => ?_))
  exact gives_branch (by simp only [Node.bareAll, hm, hn])

theorem ReadsStatement.ifThen (test : Written 0 m us) (yes : ReadsStatement d n ts) :
    ReadsStatement true (.branch CSymbol.kwIf.token [m, n])
      (CSymbol.kwIf.token :: CSymbol.leftParen.token :: (us ++ CSymbol.rightParen.token :: ts)) := by
  refine .keyword (r := ifRule) (by decide) rfl fun place ws rest hws shown apart => ?_
  obtain ⟨q, xs, rfl, hxs⟩ := bare_cons hws
  obtain ⟨us, o, vs, rfl, hus, hvs⟩ := bare_append_cons hxs
  simp only [ifRule, Parser.run_bind, List.append_assoc, List.cons_append]
  refine (gives_condition test hus).bind fun m' hm => ?_
  refine (yes.gives true vs rest hvs shown fun _ => apart rfl).bind fun n' hn => ?_
  refine Leads.bind (leads_acceptOrEnd_other shown (apart rfl) ?_)
  exact gives_branch (by simp only [Node.bareAll, hm, hn])

/-- The branch before an `else` does not take it, so that it is left for this `if`. -/
theorem ReadsStatement.ifElse (test : Written 0 m us) (yes : ReadsStatement false n ts)
    (no : ReadsStatement d l vs) : ReadsStatement d (.branch CSymbol.kwIf.token [m, n, l])
      (CSymbol.kwIf.token :: CSymbol.leftParen.token ::
        (us ++ CSymbol.rightParen.token :: (ts ++ CSymbol.kwElse.token :: vs))) := by
  refine .keyword (r := ifRule) (by decide) rfl fun place ws rest hws shown apart => ?_
  obtain ⟨q, xs, rfl, hxs⟩ := bare_cons hws
  obtain ⟨us, o, ys, rfl, hus, hys⟩ := bare_append_cons hxs
  obtain ⟨zs, i, vs, rfl, hzs, hvs⟩ := bare_append_cons hys
  simp only [ifRule, Parser.run_bind, List.append_assoc, List.cons_append]
  refine (gives_condition test hus).bind fun m' hm => ?_
  have independent : false = true → Apart .kwElse (tokenAt .kwElse i :: (vs ++ rest)) := nofun
  refine (yes.gives true zs _ hzs shown_cons independent).bind fun n' hn => ?_
  refine Leads.bind (leads_acceptOrEnd ?_)
  simp only [Onward, if_true, Parser.run_bind]
  refine (no.gives true vs rest hvs shown apart).bind fun l' hl => ?_
  exact gives_branch (by simp only [Node.bareAll, hm, hn, hl])

theorem ReadsStatement.loop (test : Written 0 m us) (body : ReadsStatement d n ts) :
    ReadsStatement d (.branch CSymbol.kwWhile.token [m, n])
      (CSymbol.kwWhile.token :: CSymbol.leftParen.token :: (us ++ CSymbol.rightParen.token :: ts)) := by
  refine .keyword (r := whileRule) (by decide) rfl fun place ws rest hws shown apart => ?_
  obtain ⟨q, xs, rfl, hxs⟩ := bare_cons hws
  obtain ⟨us, o, vs, rfl, hus, hvs⟩ := bare_append_cons hxs
  simp only [whileRule, Parser.run_bind, List.append_assoc, List.cons_append]
  refine (gives_condition test hus).bind fun m' hm => ?_
  refine (body.gives true vs rest hvs shown apart).bind fun n' hn => ?_
  exact gives_branch (by simp only [Node.bareAll, hm, hn])

/-- A round of the statements of a block. -/
def blockRound : Action Round := do
  if ← accept .rightBrace then return .done
  else return .item (← statement true)

theorem block_eq : block = ⟨Level.root, fun _ _ => do
    let body ← Action.repeated blockRound
    return .branch CSymbol.block.token body⟩ := rfl

theorem run_blockRound : parser.run parser.reading blockRound =
    bracedRound (parser.run parser.reading (statement true)) := by
  simp only [blockRound, bracedRound, Parser.run_bind]
  congr 1
  funext closed
  cases closed with
  | true => rfl
  | false => simp only [Bool.false_eq_true, if_false, Parser.run_bind, Parser.run_pure]

theorem ReadsStatement.block {parts : List (Bool × Node × List Token)}
    (h : ∀ a ∈ parts, ReadsStatement a.1 a.2.1 a.2.2) :
    ReadsStatement false (.branch CSymbol.block.token (parts.map (·.2.1)))
      (CSymbol.leftBrace.token :: (parts.flatMap (·.2.2) ++ [CSymbol.rightBrace.token])) := by
  refine .keyword (by decide) (congrArg some block_eq) fun place ws rest hws _ _ => ?_
  obtain ⟨us, q, rfl, hus⟩ := bare_append_last hws
  simp only [Parser.run_bind, Parser.run_repeated, run_blockRound, List.append_assoc,
    List.singleton_append]
  have each : ∀ a ∈ parts.map (·.2), Starts (phraseOpeners ++ statementSymbols) a.2 ∧
      ∀ us rest, us.map Token.bare = a.2 → Shown rest → Apart .kwElse rest →
        Gives (parser.run parser.reading (statement true)) ⟨us ++ rest, none⟩ a.1 rest := by
    rintro a ha
    obtain ⟨b, hb, rfl⟩ := List.mem_map.mp ha
    exact ⟨(h b hb).starts, fun us rest hus shown apart =>
      (h b hb).gives true us rest hus shown fun _ => apart⟩
  refine (gives_repeated each (by rw [hus, List.flatMap_map])).bind fun ns' hns => ?_
  rw [List.map_map] at hns
  exact gives_branch hns

end Rules

namespace Stated
variable {d : Bool} {n : Node} {ts : List Token}

theorem reads (h : Stated d n ts) : ReadsStatement d n ts := by
  induction h with
  | phrase h => exact h.reads.statement
  | goto hv => exact .goto _
  | jump hs => exact .jump hs
  | exit => exact .exit
  | answer value => exact .answer value
  | otherwise _ h => exact h.otherwise
  | labelled value _ h => exact .labelled value h
  | ifThen test _ yes => exact .ifThen test yes
  | ifElse test _ _ yes no => exact .ifElse test yes no
  | loop test _ body => exact .loop test body
  | block _ h => exact .block h

theorem writable (h : Stated d n ts) : ∀ t ∈ ts, Writable t := by
  have semicolon : Writable CSymbol.semicolon.token := writable_symbol (by decide)
  have keyword {s : CSymbol} (hs : s ∈ statementSymbols) : Writable s.token :=
    writable_symbol (List.mem_append_left _ (List.mem_append_right _ hs))
  have condition {n : Node} {ts us : List Token} (test : Written 0 n ts) (h : ∀ t ∈ us, Writable t) :
      ∀ t ∈ CSymbol.leftParen.token :: (ts ++ CSymbol.rightParen.token :: us), Writable t := by
    simp only [List.forall_mem_cons, List.forall_mem_append]
    exact ⟨writable_token (by decide), test.writable, writable_token (by decide), h⟩
  induction h with
  | phrase h => exact List.forall_mem_append.mpr ⟨h.writable, List.forall_mem_singleton.mpr semicolon⟩
  | goto hv =>
    simp only [List.forall_mem_cons]
    exact ⟨keyword (by decide), ⟨_, _, rfl, hv⟩, semicolon, List.forall_mem_nil _⟩
  | jump hs =>
    have jumps : ∀ s ∈ [CSymbol.kwContinue, .kwBreak], s ∈ statementSymbols := by decide
    simp only [List.forall_mem_cons]
    exact ⟨keyword (jumps _ hs), semicolon, List.forall_mem_nil _⟩
  | exit =>
    simp only [List.forall_mem_cons]
    exact ⟨keyword (by decide), semicolon, List.forall_mem_nil _⟩
  | answer value =>
    simp only [List.forall_mem_cons, List.forall_mem_append]
    exact ⟨keyword (by decide), value.writable, semicolon, List.forall_mem_nil _⟩
  | otherwise _ h =>
    simp only [List.forall_mem_cons]
    exact ⟨keyword (by decide), writable_token (by decide), h⟩
  | labelled value _ h =>
    simp only [List.forall_mem_cons, List.forall_mem_append]
    exact ⟨keyword (by decide), value.writable, writable_token (by decide), h⟩
  | ifThen test _ yes => exact List.forall_mem_cons.mpr ⟨keyword (by decide), condition test yes⟩
  | ifElse test _ _ yes no =>
    refine List.forall_mem_cons.mpr ⟨keyword (by decide), condition test ?_⟩
    simp only [List.forall_mem_cons, List.forall_mem_append]
    exact ⟨yes, writable_symbol (by decide), no⟩
  | loop test _ body => exact List.forall_mem_cons.mpr ⟨keyword (by decide), condition test body⟩
  | block _ h =>
    simp only [List.forall_mem_cons, List.forall_mem_append, List.mem_flatMap]
    refine ⟨keyword (by decide), fun t ht => ?_, writable_symbol (by decide), List.forall_mem_nil _⟩
    obtain ⟨a, ha, ht⟩ := ht
    exact h a ha t ht

end Stated

theorem Program.writable {ns : List Node} {ts : List Token} (h : Program Stated Phrase ns ts) :
    ∀ t ∈ ts, Writable t := by
  induction h with
  | nil => exact List.forall_mem_nil _
  | last h => exact h.writable
  | cons h _ ih => exact List.forall_mem_append.mpr ⟨h.writable, ih⟩

theorem exists_program {ns : List Node} (h : ∀ n ∈ ns, ∃ d, Statement d n) :
    ∃ ts, Program Stated Phrase ns ts := by
  induction ns with
  | nil => exact ⟨[], .nil⟩
  | cons n ns ih =>
    obtain ⟨⟨d, statement⟩, others⟩ := List.forall_mem_cons.mp h
    obtain ⟨ts, stated⟩ := statement.stated
    obtain ⟨us, program⟩ := ih others
    exact ⟨ts ++ us, .cons stated program⟩

/-- Statements can be written as a program, and however a program of them is laid out, its text is
parsed to them, also if the semicolon of a last expression or declaration is missing. -/
theorem parse_program {ns : List Node} (h : ∀ n ∈ ns, ∃ d, Statement d n) :
    (∃ ts text, Program Stated Phrase ns ts ∧ LaidOut ts text) ∧
      ∀ ts text, Program Stated Phrase ns ts → LaidOut ts text →
        ∃ ns', Grammar.c.parse text none = .ok ns' ∧ Node.bareAll ns' = ns := by
  constructor
  · obtain ⟨ts, program⟩ := exists_program h
    exact ⟨ts, _, program, laidOut_spaced program.writable⟩
  · intro ts text program laid
    have read : Program ReadsStatement ReadsPhrase ns ts :=
      program.imp (fun _ _ _ stated => stated.reads) fun _ _ phrase => phrase.reads
    exact read.parse_of_scans (laid.scans program.writable)

theorem parse_program_nested :
    ∃ ns, Grammar.c.parse "while ( a ) if ( b ) return ; else \x7b break ; \x7d int * p = a " none = .ok ns ∧
      Node.bareAll ns = [
        .branch CSymbol.kwWhile.token [.leaf (identifier "a"),
          .branch CSymbol.kwIf.token [.leaf (identifier "b"),
            .branch CSymbol.kwReturn.token [],
            .branch CSymbol.block.token [.branch CSymbol.kwBreak.token []]]],
        .branch CSymbol.assign.token [
          .branch CSymbol.declaration.token [
            .leaf CSymbol.kwInt.token, .branch CSymbol.star.token [.leaf (identifier "p")]],
          .leaf (identifier "a")]] := by
  have isA : IsLexeme .ident "a" := by decide +kernel
  have isB : IsLexeme .ident "b" := by decide +kernel
  have isP : IsLexeme .ident "p" := by decide +kernel
  have isBreak : CSymbol.kwBreak ∈ [CSymbol.kwContinue, .kwBreak] := by decide
  have operand : CSymbol.ident ∈ operandSymbols := by decide
  have int : Declares .specifiers _ _ := .single (.keyword (by decide : CSymbol.kwInt ∈ specifierSymbols))
  have p : Declares .declaration [_] _ := int.declaration isP 1
  have block : Statement false _ :=
    .block (List.forall_mem_singleton.mpr (.jump isBreak) : ∀ x ∈ [(_, _)], Statement x.1 x.2)
  have loop : Statement false _ := .loop (.operand operand isA) (.ifElse (.operand operand isB) .exit block)
  have value : Statement false _ := .initialised p (.operand operand isA)
  have statements : ∀ n ∈ [_, _], ∃ d, Statement d n :=
    List.forall_mem_cons.mpr ⟨⟨_, loop⟩, List.forall_mem_singleton.mpr ⟨_, value⟩⟩
  have body : Stated false _ _ :=
    .block (List.forall_mem_singleton.mpr (.jump isBreak) : ∀ x ∈ [(_, _, _)], Stated x.1 x.2.1 x.2.2)
  have first : Stated false _ _ := .loop (.operand operand isA) (.ifElse (.operand operand isB) .exit body)
  have program : Program Stated Phrase _ _ :=
    .cons first (.last (.initialised p (.operand operand isA)))
  obtain ⟨ns, parsed, hns⟩ := (parse_program statements).2 _ _ program (laidOut_spaced program.writable)
  refine ⟨ns, Eq.trans (congrArg (Grammar.c.parse · none) ?_) parsed, hns⟩
  decide +kernel

end BindingPower.C
