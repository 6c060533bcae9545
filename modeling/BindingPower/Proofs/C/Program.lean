import BindingPower.Proofs.C.Expression
import BindingPower.Proofs.Table

/-! C programs read back. If every statement of a program is read from its own tokens, whatever may
stand after it, the program is parsed to the list of its statements. -/
namespace BindingPower.C
open ParseM

/-- A text with these tokens, wherever they stand in it. -/
def Scans (text : String) (ts : List Token) : Prop :=
  (ScanRule.scan lexemes text).tokens.map Token.bare = ts ∧ (ScanRule.scan lexemes text).fault = none

instance (text : String) (ts : List Token) : Decidable (Scans text ts) :=
  inferInstanceAs (Decidable (_ ∧ _))

/-- A text of tokens with blanks between them, and perhaps before and after them. -/
inductive LaidOut : List Token → String → Prop
  | blank {gap : List Char} (hg : Blank gap) : LaidOut [] (String.ofList gap)
  | spelled {ts : List Token} {gap s : List Char} (hg : Blank gap) (hs : Spells ts s) :
    LaidOut ts (String.ofList (gap ++ s))

theorem LaidOut.scans {ts : List Token} {text : String} (h : LaidOut ts text)
    (ht : ∀ t ∈ ts, Writable t) : Scans text ts := by
  cases h with
  | @blank gap hg =>
    have scan : ScanRule.scan lexemes (String.ofList gap) = ⟨[], none⟩ := by
      change ScanRule.scanAt lexemes 0 (String.ofList gap).toList = _
      rw [String.toList_ofList, ← List.append_nil gap, scanAt_blanks hg]
      rfl
    rw [Scans, scan]
    exact ⟨rfl, rfl⟩
  | @spelled _ gap s hg hs =>
    obtain ⟨us, k, rfl, read⟩ := hs.scanAt ht ends_nil (0 + gap.length)
    have scan : ScanRule.scan lexemes (String.ofList (gap ++ s)) = ⟨us ++ [], none⟩ := by
      change ScanRule.scanAt lexemes 0 (String.ofList (gap ++ s)).toList = _
      rw [String.toList_ofList, ← List.append_nil s, scanAt_blanks hg, read]
      rfl
    rw [Scans, scan, List.append_nil]
    exact ⟨rfl, rfl⟩

/-- Lexemes written out, each with a blank after it. -/
def spaced : List Token → List Char
  | .lexeme _ value _ :: ts => value.toList ++ [' '] ++ spaced ts
  | _ => []

/-- All that can be written can be laid out. -/
theorem laidOut_spaced {ts : List Token} (h : ∀ t ∈ ts, Writable t) :
    LaidOut ts (String.ofList (spaced ts)) := by
  have gap : Blank [' '] := List.forall_mem_singleton.mpr rfl
  have spelled (t : Token) (ts : List Token) (h : ∀ u ∈ t :: ts, Writable u) :
      Spells (t :: ts) (spaced (t :: ts)) := by
    induction ts generalizing t with
    | nil =>
      obtain ⟨s, value, rfl, -⟩ := h t List.mem_cons_self
      change Spells _ (value.toList ++ [' '] ++ [])
      rw [List.append_nil]
      exact .last gap
    | cons u ts ih =>
      obtain ⟨s, value, rfl, -⟩ := h t List.mem_cons_self
      have later := ih u fun v hv => h v (List.mem_cons_of_mem _ hv)
      exact .more gap (List.cons_ne_nil _ _) later
  cases ts with
  | nil => exact .blank (List.forall_mem_nil _)
  | cons t ts => exact .spelled (List.forall_mem_nil _) (spelled t ts h)

/-- The symbols that programs are written with beyond those of expressions. -/
def programSymbols : List CSymbol :=
  specifierSymbols ++ taggedSymbols ++ statementSymbols ++ [.kwElse, .rightBrace, .semicolon]

theorem writable_symbol {s : CSymbol} (h : s ∈ programSymbols) : Writable s.token := by
  have each : ∀ s ∈ programSymbols, IsLexeme s s.spelling := by decide +kernel
  exact ⟨s, s.spelling, rfl, each s h⟩

section Tokens
variable {symbols : List CSymbol} {s : CSymbol} {ts us : List Token}

theorem bare_last (h : us.map Token.bare = [s.token]) : ∃ place, us = [tokenAt s place] := by
  obtain ⟨place, vs, rfl, hvs⟩ := bare_cons h
  obtain rfl := List.map_eq_nil_iff.mp hvs
  exact ⟨place, rfl⟩

theorem bare_append_last (h : us.map Token.bare = ts ++ [s.token]) :
    ∃ vs place, us = vs ++ [tokenAt s place] ∧ vs.map Token.bare = ts := by
  obtain ⟨vs, last, rfl, hvs, hlast⟩ := List.map_eq_append_iff.mp h
  obtain ⟨place, rfl⟩ := bare_last hlast
  exact ⟨vs, place, rfl, hvs⟩

theorem bare_branch {place : Option Int} {ns ns' : List Node} (h : Node.bareAll ns' = ns) :
    (Node.branch (tokenAt s place) ns').bare = .branch s.token ns := by
  rw [Node.bare, h]
  rfl

/-- Tokens of which the first has one of some symbols. -/
def Starts (symbols : List CSymbol) (ts : List Token) : Prop :=
  ∃ s value us, s ∈ symbols ∧ ts = .lexeme (.c s) value none :: us

/-- The tokens to come are none, or begin with a lexeme. -/
def Shown (ts : List Token) : Prop := ∀ t ∈ ts.head?, Located t

/-- A certain symbol is not what comes next. -/
def Apart (s : CSymbol) (ts : List Token) : Prop := ∀ t ∈ ts.head?, t.same s.token = false

theorem Starts.mono {more : List CSymbol} (h : Starts symbols ts) (hm : symbols ⊆ more) :
    Starts more ts := by
  obtain ⟨s, value, us, hs, rfl⟩ := h
  exact ⟨s, value, us, hm hs, rfl⟩

theorem Starts.append (h : Starts symbols ts) (us : List Token) : Starts symbols (ts ++ us) := by
  obtain ⟨s, value, vs, hs, rfl⟩ := h
  exact ⟨s, value, vs ++ us, hs, rfl⟩

theorem Starts.cons (hs : s ∈ symbols) (ts : List Token) : Starts symbols (s.token :: ts) :=
  ⟨s, s.spelling, ts, hs, rfl⟩

theorem Starts.located (h : Starts symbols ts) (hus : us.map Token.bare = ts) :
    ∃ s value place vs, s ∈ symbols ∧ us = .lexeme (.c s) value place :: vs := by
  obtain ⟨s, value, ts, hs, rfl⟩ := h
  obtain ⟨t, vs, rfl, ht, -⟩ := List.map_eq_cons_iff.mp hus
  obtain ⟨place, rfl⟩ := located_of_bare ht
  exact ⟨s, value, place, vs, hs, rfl⟩

theorem Starts.length_pos (h : Starts symbols ts) (hus : us.map Token.bare = ts) : 0 < us.length := by
  obtain ⟨s, value, place, vs, -, rfl⟩ := h.located hus
  exact Nat.succ_pos _

theorem not_same {s' : CSymbol} (h : s ≠ s') (value : String) (place : Option Int) :
    (Token.lexeme (.c s) value place).same s'.token = false := by
  simp [Token.same, CSymbol.token, h]

theorem shown_nil : Shown [] := fun t ht => by cases ht

theorem apart_nil : Apart s [] := fun t ht => by cases ht

theorem shown_cons {value : String} {place : Option Int} :
    Shown (.lexeme (.c s) value place :: ts) := by
  rintro t ⟨⟩
  exact ⟨_, _, _, rfl⟩

theorem apart_cons {s' : CSymbol} (h : s ≠ s') {value : String} {place : Option Int} :
    Apart s' (.lexeme (.c s) value place :: ts) := by
  rintro t ⟨⟩
  exact not_same h value place

theorem Starts.next (h : Starts symbols ts) (hus : us.map Token.bare = ts) (hs : s ∉ symbols)
    (rest : List Token) : Shown (us ++ rest) ∧ Apart s (us ++ rest) := by
  obtain ⟨s', value, place, vs, hs', rfl⟩ := h.located hus
  refine ⟨shown_cons, apart_cons ?_⟩
  rintro rfl
  exact hs hs'

/-- No infix rule takes what was built at the highest level. -/
theorem stops_highest (h : Shown ts) : Stops Level.highest ts := by
  have powers : ∀ entry ∈ rules.infixRules, entry.2.left ≤ Level.highest := by decide
  refine ⟨h, fun t _ rule hr => ?_⟩
  obtain ⟨k, -, member⟩ := Kind.exists_mem_of_lookup hr
  exact powers _ member

end Tokens

section Answers
variable {α β : Type} {P : α → Prop} {n : Node} {i : Scan} {rest us ts : List Token} {s : CSymbol}
  {place : Option Int}

/-- A computation answers with what satisfies `P` and leaves the rest. -/
def Comes (m : ParseM α) (i : Scan) (P : α → Prop) (rest : List Token) : Prop :=
  Leads m i fun r j => ∃ a, P a ∧ r = .ok a ∧ j = ⟨rest, none⟩

/-- A computation answers with a tree, but for the places of its tokens, and leaves the rest. -/
abbrev Gives (m : ParseM Node) (i : Scan) (n : Node) (rest : List Token) : Prop :=
  Comes m i (fun n' => n'.bare = n) rest

abbrev GivesAll (m : ParseM (List Node)) (i : Scan) (ns : List Node) (rest : List Token) : Prop :=
  Comes m i (fun ns' => Node.bareAll ns' = ns) rest

namespace Comes

theorem leads {m : ParseM α} {Q : Except Failure α → Scan → Prop} (h : Comes m i P rest)
    (hQ : ∀ a, P a → Q (.ok a) ⟨rest, none⟩) : Leads m i Q := by
  refine Leads.mono h ?_
  rintro _ _ ⟨a, ha, rfl, rfl⟩
  exact hQ a ha

theorem bind {m : ParseM α} {f : α → ParseM β} {Q : Except Failure β → Scan → Prop}
    (h : Comes m i P rest) (hf : ∀ a, P a → Leads (f a) ⟨rest, none⟩ Q) : Leads (m >>= f) i Q :=
  Leads.bind (h.leads hf)

theorem pure {a : α} (h : P a) : Comes (Pure.pure a) ⟨rest, none⟩ P rest :=
  Leads.pure ⟨a, h, rfl, rfl⟩

end Comes

/-- What was read becomes the children of a branch. -/
theorem gives_branch {ns ns' : List Node} (h : Node.bareAll ns' = ns) :
    Gives (pure (.branch (tokenAt s place) ns')) ⟨rest, none⟩ (.branch s.token ns) rest :=
  Comes.pure (bare_branch h)

/-- Before a token that nothing takes, an expression is read as a whole. -/
theorem Reads.gives_before {k : Nat} (h : Reads k n ts) (hk : Level.root < floor k)
    (hs : rules.infixRule? (.c s) = none) (hus : us.map Token.bare = ts) :
    Gives (parser.reading Level.root) ⟨us ++ tokenAt s place :: rest, none⟩ n (tokenAt s place :: rest) :=
  h.whole hk hus (stops_closer hs _ _) (stops_closer hs _ _) fun n' hn => ⟨n', hn, rfl, rfl⟩

variable {p : Parser} {e : Int → ParseM Node}

theorem leads_acceptOrEnd {Q : Except Failure Bool → Scan → Prop} (h : Q (.ok true) ⟨ts, none⟩) :
    Leads (p.run e (acceptOrEnd s)) ⟨tokenAt s place :: ts, none⟩ Q := by
  simp only [acceptOrEnd, Parser.run_bind, Parser.run_attempt]
  exact Leads.bind (Leads.outcome (leads_consume (Leads.pure h)))

theorem leads_acceptOrEnd_other (shown : Shown ts) (apart : Apart s ts)
    {Q : Except Failure Bool → Scan → Prop} (h : Q (.ok false) ⟨ts, none⟩) :
    Leads (p.run e (acceptOrEnd s)) ⟨ts, none⟩ Q := by
  simp only [acceptOrEnd, Parser.run_bind, Parser.run_attempt]
  refine Leads.bind (Leads.outcome ?_)
  cases ts with
  | nil => exact Leads.consume_nil (Leads.pure h)
  | cons t ts =>
    refine Leads.consume_cons (steady.present t (shown t rfl)) ?_
    rw [apart t rfl]
    exact Leads.pure h

end Answers

section Statements
variable {n : Node} {ns : List Node} {ts us rest : List Token} {s : CSymbol} {place : Option Int}
  {required : Bool}

theorem leads_statement {value : String} {Q : Except Failure Node → Scan → Prop}
    (h : Leads (parser.run parser.reading (statementOf required (among statementSymbols (.c s))))
      ⟨.lexeme (.c s) value place :: ts, none⟩ Q) :
    Leads (parser.run parser.reading (statement required))
      ⟨.lexeme (.c s) value place :: ts, none⟩ Q := by
  rw [run_statement]
  exact Leads.bind (Leads.peek_cons rfl (Leads.bind (Leads.pure h)))

/-- A statement that starts with a keyword or a brace is all that its prefix rule reads. -/
theorem gives_keyword {rule : PrefixRule} (hs : s ∈ statementSymbols)
    (hr : rules.prefixRule? (.c s) = some rule) (hrest : Shown rest)
    (h : Gives (parser.run parser.reading (rule.action (tokenAt s place) rule.power)) ⟨ts, none⟩ n rest) :
    Gives (parser.run parser.reading (statement required)) ⟨tokenAt s place :: ts, none⟩ n rest := by
  refine leads_statement ?_
  rw [among_iff.mpr hs]
  simp only [statementOf, if_true, Parser.run_expr]
  refine steady.leads_reading ⟨_, _, _, rfl⟩ (steady.leads_start ⟨_, _, _, rfl⟩ hr (h.leads ?_))
  intro n' hn
  have stops := stops_highest hrest
  exact steady.leads_extending_stop stops.1 stops.2 ⟨n', hn, rfl, rfl⟩

/-- The symbols that an expression or a declaration may begin with. -/
def phraseOpeners : List CSymbol := openers ++ specifierSymbols ++ taggedSymbols

/-- The tokens of an expression or a declaration are read to its tree. -/
structure ReadsPhrase (n : Node) (ts : List Token) : Prop where
  starts : Starts phraseOpeners ts
  reads : Reads 0 n ts

/-- The tokens of a statement are read to its tree before all that may follow it: a dangling
statement is one that would take an `else` for its own. -/
structure ReadsStatement (dangling : Bool) (n : Node) (ts : List Token) : Prop where
  starts : Starts (phraseOpeners ++ statementSymbols) ts
  gives : ∀ required us rest, us.map Token.bare = ts → Shown rest → (dangling = true → Apart .kwElse rest) →
    Gives (parser.run parser.reading (statement required)) ⟨us ++ rest, none⟩ n rest

namespace ReadsPhrase

/-- A phrase is no statement that starts with a keyword. -/
theorem leads (h : ReadsPhrase n ts) (hus : us.map Token.bare = ts) {Q : Except Failure Node → Scan → Prop}
    (hQ : Leads (parser.run parser.reading (statementOf required false)) ⟨us ++ rest, none⟩ Q) :
    Leads (parser.run parser.reading (statement required)) ⟨us ++ rest, none⟩ Q := by
  obtain ⟨s, value, place, vs, hs, rfl⟩ := h.starts.located hus
  have apart : ∀ s ∈ phraseOpeners, s ∉ statementSymbols := by decide
  rw [List.cons_append] at hQ ⊢
  refine leads_statement ?_
  rwa [among_eq_false_iff.mpr (apart s hs)]

theorem statement (h : ReadsPhrase n ts) : ReadsStatement false n (ts ++ [CSymbol.semicolon.token]) where
  starts := (h.starts.append _).mono (List.subset_append_left _ _)
  gives := by
    intro required us rest hus _ _
    obtain ⟨us, place, rfl, hphrase⟩ := bare_append_last hus
    rw [List.append_assoc, List.singleton_append]
    refine h.leads hphrase ?_
    have read : Gives (parser.reading Level.root) ⟨us ++ tokenAt .semicolon place :: rest, none⟩ n _ :=
      h.reads.gives_before (by decide) rfl hphrase
    cases required with
    | true =>
      simp only [statementOf, Bool.false_eq_true, if_false, if_true, Parser.run_bind, Parser.run_expr]
      exact read.bind fun n' hn => Leads.bind (leads_require (Comes.pure hn))
    | false =>
      simp only [statementOf, Bool.false_eq_true, if_false, Parser.run_bind, Parser.run_expr,
        Parser.run_peek]
      refine read.bind fun n' hn => Leads.bind (Leads.peek_cons rfl ?_)
      simp only [Onward, Option.isSome_some, if_true, Parser.run_bind]
      exact Leads.bind (leads_require (Comes.pure hn))

/-- At the end of the input the semicolon may be missing. -/
theorem unended (h : ReadsPhrase n ts) (hus : us.map Token.bare = ts) :
    Gives (parser.run parser.reading (C.statement false)) ⟨us, none⟩ n [] := by
  have nothing (r : Int) : Stops r [] := ⟨shown_nil, fun t ht => by cases ht⟩
  rw [← List.append_nil us]
  refine h.leads hus ?_
  simp only [statementOf, Bool.false_eq_true, if_false, Parser.run_bind, Parser.run_expr, Parser.run_peek]
  refine Leads.bind (h.reads.whole (by decide) hus (nothing _) (nothing _) fun n' hn => ?_)
  exact Leads.bind (Leads.peek (Comes.pure hn))

end ReadsPhrase

end Statements

/-- A round of what stands between braces. -/
def bracedRound (item : ParseM Node) : ParseM Round := do
  if ← parser.run parser.reading (accept .rightBrace) then return .done
  else return .item (← item)

theorem leads_bracedRound {item : ParseM Node} {n : Node} {ts us rest : List Token}
    {Q : Except Failure Round → Scan → Prop} (hs : Starts (phraseOpeners ++ statementSymbols) ts)
    (hus : us.map Token.bare = ts) (h : Gives item ⟨us ++ rest, none⟩ n rest)
    (hQ : ∀ n', n'.bare = n → Q (.ok (.item n')) ⟨rest, none⟩) :
    Leads (bracedRound item) ⟨us ++ rest, none⟩ Q := by
  obtain ⟨s, value, place, vs, hs, rfl⟩ := hs.located hus
  have apart : ∀ s ∈ phraseOpeners ++ statementSymbols, s ≠ .rightBrace := by decide
  refine Leads.bind (leads_accept_other rfl (not_same (apart s hs) _ _) ?_)
  simp only [Onward, Bool.false_eq_true, if_false]
  exact h.bind fun n' hn => Leads.pure (hQ n' hn)

/-- Items are read one after the other up to the closing brace, if each is read before the next. -/
theorem gives_braced {item : ParseM Node} {parts : List (Node × List Token)}
    (h : ∀ a ∈ parts, Starts (phraseOpeners ++ statementSymbols) a.2 ∧
      ∀ us rest, us.map Token.bare = a.2 → Shown rest → Apart .kwElse rest →
        Gives item ⟨us ++ rest, none⟩ a.1 rest)
    {times : Nat} {us rest : List Token} {place : Option Int} (ht : us.length < times)
    (hus : us.map Token.bare = parts.flatMap (·.2)) :
    GivesAll (Parser.rounds (bracedRound item) times) ⟨us ++ tokenAt .rightBrace place :: rest, none⟩
      (parts.map (·.1)) rest := by
  obtain ⟨k, rfl⟩ : ∃ k, times = k + 1 := ⟨times - 1, by omega⟩
  induction parts generalizing k us with
  | nil =>
    obtain rfl := List.map_eq_nil_iff.mp hus
    exact Leads.bind (Leads.bind (leads_accept (Leads.pure (Comes.pure rfl))))
  | cons a parts ih =>
    obtain ⟨⟨starts, read⟩, others⟩ := List.forall_mem_cons.mp h
    obtain ⟨us, vs, rfl, hus, hvs⟩ := List.map_eq_append_iff.mp hus
    have taken := starts.length_pos hus
    rw [List.length_append] at ht
    obtain ⟨k, rfl⟩ : ∃ j, k = j + 1 := ⟨k - 1, by omega⟩
    -- After an item stands the next one or the brace, and neither is an `else`.
    have next : Shown (vs ++ tokenAt .rightBrace place :: rest) ∧
        Apart .kwElse (vs ++ tokenAt .rightBrace place :: rest) := by
      cases parts with
      | nil =>
        obtain rfl := List.map_eq_nil_iff.mp hvs
        exact ⟨shown_cons, apart_cons (by decide)⟩
      | cons b parts =>
        exact ((others b List.mem_cons_self).1.append _).next hvs (by decide) _
    rw [List.append_assoc]
    refine Leads.bind (leads_bracedRound starts hus (read us _ hus next.1 next.2) fun n' hn => ?_)
    exact (ih others hvs k (by omega)).bind fun ns' hns => Comes.pure (by simp [Node.bareAll, hn, hns])

/-- The same for a repetition that goes on for as long as there are tokens. -/
theorem gives_repeated {item : ParseM Node} {parts : List (Node × List Token)}
    (h : ∀ a ∈ parts, Starts (phraseOpeners ++ statementSymbols) a.2 ∧
      ∀ us rest, us.map Token.bare = a.2 → Shown rest → Apart .kwElse rest →
        Gives item ⟨us ++ rest, none⟩ a.1 rest)
    {us rest : List Token} {place : Option Int} (hus : us.map Token.bare = parts.flatMap (·.2)) :
    GivesAll (do Parser.rounds (bracedRound item) ((← room) + 1))
      ⟨us ++ tokenAt .rightBrace place :: rest, none⟩ (parts.map (·.1)) rest := by
  refine Leads.bind (Leads.room (gives_braced h ?_ hus))
  rw [List.length_append]
  omega

/-- Programs: statements one after the other, where the last may be a phrase without its semicolon. -/
inductive Program (S : Bool → Node → List Token → Prop) (P : Node → List Token → Prop) :
    List Node → List Token → Prop
  | nil : Program S P [] []
  | last {n : Node} {ts : List Token} (h : P n ts) : Program S P [n] ts
  | cons {d : Bool} {n : Node} {ns : List Node} {ts us : List Token} (h : S d n ts)
    (more : Program S P ns us) : Program S P (n :: ns) (ts ++ us)

namespace Program
variable {ns : List Node} {ts us : List Token}

theorem imp {S S' : Bool → Node → List Token → Prop} {P P' : Node → List Token → Prop}
    (hS : ∀ d n ts, S d n ts → S' d n ts) (hP : ∀ n ts, P n ts → P' n ts) (h : Program S P ns ts) :
    Program S' P' ns ts := by
  induction h with
  | nil => exact .nil
  | last h => exact .last (hP _ _ h)
  | cons h _ ih => exact .cons (hS _ _ _ h) ih

/-- No program starts with an `else`. -/
theorem shown_apart (h : Program ReadsStatement ReadsPhrase ns ts) (hus : us.map Token.bare = ts) :
    Shown us ∧ Apart .kwElse us := by
  rw [← List.append_nil us]
  cases h with
  | nil =>
    obtain rfl := List.map_eq_nil_iff.mp hus
    exact ⟨shown_nil, apart_nil⟩
  | last h => exact h.starts.next hus (by decide) []
  | cons h _ => exact (h.starts.append _).next hus (by decide) []

/-- A round of a program. -/
def round : Action Round := do
  match ← Action.peek with
  | none => return .done
  | some _ => return .item (← statement false)

theorem program_eq : program = Action.repeated round := rfl

theorem leads_round {n : Node} {rest : List Token} {symbols : List CSymbol}
    {Q : Except Failure Round → Scan → Prop} (hs : Starts symbols ts)
    (hus : us.map Token.bare = ts)
    (h : Gives (parser.run parser.reading (statement false)) ⟨us ++ rest, none⟩ n rest)
    (hQ : ∀ n', n'.bare = n → Q (.ok (.item n')) ⟨rest, none⟩) :
    Leads (parser.run parser.reading round) ⟨us ++ rest, none⟩ Q := by
  obtain ⟨s, value, place, vs, -, rfl⟩ := hs.located hus
  simp only [round, Parser.run_bind, Parser.run_peek]
  refine Leads.bind (Leads.peek_cons rfl ?_)
  simp only [Onward, Parser.run_bind]
  exact h.bind fun n' hn => Leads.pure (hQ n' hn)

theorem leads_rounds (h : Program ReadsStatement ReadsPhrase ns ts) {times : Nat}
    (ht : us.length < times) (hus : us.map Token.bare = ts) :
    GivesAll (Parser.rounds (parser.run parser.reading round) times) ⟨us, none⟩ ns [] := by
  have ended (k : Nat) :
      GivesAll (Parser.rounds (parser.run parser.reading round) (k + 1)) ⟨[], none⟩ [] [] := by
    simp only [Parser.rounds, round, Parser.run_bind, Parser.run_peek, bind_assoc]
    exact Leads.bind (Leads.peek (Comes.pure rfl))
  obtain ⟨k, rfl⟩ : ∃ k, times = k + 1 := ⟨times - 1, by omega⟩
  induction h generalizing k us with
  | nil =>
    obtain rfl := List.map_eq_nil_iff.mp hus
    exact ended k
  | @last n ts h =>
    have taken := h.starts.length_pos hus
    obtain ⟨k, rfl⟩ : ∃ j, k = j + 1 := ⟨k - 1, by omega⟩
    rw [← List.append_nil us]
    have statement := h.unended hus
    rw [← List.append_nil us] at statement
    refine Leads.bind (leads_round h.starts hus statement fun n' hn => ?_)
    exact (ended k).bind fun ns' hns => Comes.pure (by rw [Node.bareAll, hn, hns])
  | @cons d n ns ts vs h more ih =>
    obtain ⟨us, ws, rfl, hus, hws⟩ := List.map_eq_append_iff.mp hus
    have taken := h.starts.length_pos hus
    rw [List.length_append] at ht
    obtain ⟨k, rfl⟩ : ∃ j, k = j + 1 := ⟨k - 1, by omega⟩
    obtain ⟨shown, apart⟩ := more.shown_apart hws
    have statement := h.gives false us ws hus shown fun _ => apart
    refine Leads.bind (leads_round h.starts hus statement fun n' hn => ?_)
    exact (ih hws k (by omega)).bind fun ns' hns => Comes.pure (by rw [Node.bareAll, hn, hns])

/-- A program of statements that are read is parsed to their list. -/
theorem parse_of_scans (h : Program ReadsStatement ReadsPhrase ns ts) {text : String}
    (hs : Scans text ts) : ∃ ns', Grammar.c.parse text none = .ok ns' ∧ Node.bareAll ns' = ns := by
  obtain ⟨us, scan⟩ : ∃ us, ScanRule.scan lexemes text = ⟨us, none⟩ := ⟨_, congrArg (Scan.mk _) hs.2⟩
  rw [Scans, scan] at hs
  have rounds : GivesAll (parser.run parser.reading program) ⟨us, none⟩ ns [] := by
    rw [program_eq, Parser.run_repeated]
    exact Leads.bind (Leads.room (h.leads_rounds (Nat.lt_succ_self _) hs.1))
  have done := rounds.holds (Grammar.c.start text) scan
  rw [← Parser.perform_eq] at done
  obtain ⟨ns', hns, parsed, -⟩ := done
  exact ⟨ns', parsed, hns⟩

end Program

end BindingPower.C
