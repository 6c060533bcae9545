import BindingPower.Grammar.Ebnf
import BindingPower.Proofs.Account
import BindingPower.Proofs.Limit

/-! What becomes of the tokens of EBNF definitions. A last entry that breaks off is left out without an
error; but for it and the punctuation, the tokens of a text are those of its trees from left to
right. -/
namespace BindingPower.Ebnf
open ParseM

/-- Whether a token is of one of some symbols. -/
def oneOf (symbols : List EbnfSymbol) (t : Token) : Bool := t.kind ∈ symbols.map Kind.ebnf

/-- The symbols that shape a tree and are not in it. -/
def punctuation : List EbnfSymbol := [.semicolon, .colon, .leftBracket, .rightBracket, .question]

def markers : List EbnfSymbol := [.rule, .sequence, .repeats, .optional, .group]

/-- The symbols after which an entry has to go on. -/
def openers : List EbnfSymbol := [.colon, .bar, .leftBracket]

/-- The tokens that a tree holds. -/
def kept (t : Token) : Bool := !oneOf punctuation t

def place (t : Token) : Placement :=
  if oneOf markers t then .hidden else if oneOf [.bar] t then .between else .before

/-- Tokens that end where something has to follow or a bracket is open. -/
def breaksOff (ts : List Token) : Bool :=
  ts.getLast?.any (oneOf openers) || ts.countP (oneOf [.rightBracket]) < ts.countP (oneOf [.leftBracket])

/-- The tokens after the last semicolon. -/
def lastEntry : List Token → List Token
  | [] => []
  | t :: ts => if (t :: ts).any (oneOf [.semicolon]) then lastEntry ts else t :: ts

/-- The tokens of a last entry that breaks off. -/
def unfinished (ts : List Token) : List Token := if breaksOff (lastEntry ts) then lastEntry ts else []

section Tokens
variable {t u : Token} {s : EbnfSymbol} {ts us vs : List Token}

@[simp]
theorem oneOf_of_kind (ht : t.kind = .ebnf s) (symbols : List EbnfSymbol) :
    oneOf symbols t = decide (s ∈ symbols) := by
  simp [oneOf, ht]

/-- Tokens that belong to one entry. -/
def Unseparated (ts : List Token) : Prop := ∀ t ∈ ts, oneOf [.semicolon] t = false

theorem lastEntry_of_unseparated (h : Unseparated ts) : lastEntry ts = ts := by
  cases ts with
  | nil => rfl
  | cons t ts =>
    rw [lastEntry, if_neg]
    simpa [Unseparated] using h

theorem lastEntry_append (ht : t.kind = .ebnf .semicolon) (us ts : List Token) :
    lastEntry (us ++ t :: ts) = lastEntry ts := by
  have separates : oneOf [.semicolon] t = true := by simp [ht]
  induction us with
  | nil => rw [List.nil_append, lastEntry, if_pos (by simp [separates])]
  | cons u us ih => rw [List.cons_append, lastEntry, if_pos (by simp [separates]), ih]

theorem unfinished_append (ht : t.kind = .ebnf .semicolon) (us ts : List Token) :
    unfinished (us ++ t :: ts) = unfinished ts := by
  unfold unfinished
  rw [lastEntry_append ht]

/-- Tokens that an expression may take as a whole. -/
structure Phrase (us : List Token) : Prop where
  unseparated : Unseparated us
  balanced : us.countP (oneOf [.leftBracket]) = us.countP (oneOf [.rightBracket])
  complete : us.getLast?.any (oneOf openers) = false

namespace Phrase

theorem finished (h : Phrase us) : breaksOff us = false := by
  simp [breaksOff, h.complete, h.balanced]

theorem append (hu : Phrase us) (hv : Phrase vs) : Phrase (us ++ vs) where
  unseparated := fun t ht => (List.mem_append.mp ht).elim (hu.unseparated t) (hv.unseparated t)
  balanced := by rw [List.countP_append, List.countP_append, hu.balanced, hv.balanced]
  complete := by
    cases vs with
    | nil =>
      rw [List.append_nil]
      exact hu.complete
    | cons v vs => simpa [List.getLast?_append, List.getLast?_cons] using hv.complete

theorem single (ht : t.kind = .ebnf s) (h : s ∉ EbnfSymbol.semicolon :: .rightBracket :: openers) :
    Phrase [t] := by
  simp only [openers, List.mem_cons, not_or, List.not_mem_nil, not_false_eq_true, and_true] at h
  obtain ⟨semicolon, right, colon, bar, left⟩ := h
  constructor <;> simp [Unseparated, oneOf_of_kind ht, openers, semicolon, right, colon, bar, left]

/-- What follows an opener may end as it does. -/
theorem after (ht : t.kind = .ebnf s) (h : s ∈ [EbnfSymbol.colon, .bar]) (hu : Phrase us) (hne : us ≠ []) :
    Phrase (t :: us) := by
  obtain ⟨u, us, rfl⟩ := List.exists_cons_of_ne_nil hne
  have other : ∀ s ∈ [EbnfSymbol.colon, .bar], s ≠ .semicolon ∧ s ≠ .leftBracket ∧ s ≠ .rightBracket := by
    decide
  refine ⟨fun v hv => ?_, ?_, by rw [List.getLast?_cons_cons]; exact hu.complete⟩
  · rcases List.mem_cons.mp hv with rfl | hv
    · simp [oneOf_of_kind ht, other s h]
    · exact hu.unseparated v hv
  · simp [List.countP_cons (a := t), oneOf_of_kind ht, other s h, hu.balanced]

theorem bracketed (ht : t.kind = .ebnf .leftBracket) (hu : Phrase us)
    (hv : u.kind = .ebnf .rightBracket) : Phrase (t :: us ++ [u]) where
  unseparated := by
    intro v hm
    simp only [List.cons_append, List.mem_cons, List.mem_append, List.not_mem_nil, or_false] at hm
    rcases hm with rfl | hm | rfl
    · simp [oneOf_of_kind ht]
    · exact hu.unseparated v hm
    · simp [oneOf_of_kind hv]
  balanced := by
    simp [List.countP_append, oneOf_of_kind ht, oneOf_of_kind hv, hu.balanced, Nat.add_comm]
  complete := by
    rw [List.getLast?_concat]
    simp [oneOf_of_kind hv, openers]

end Phrase

theorem breaksOff_append (hu : Phrase us) (h : breaksOff ts = true) : breaksOff (us ++ ts) = true := by
  obtain ⟨t, ts, rfl⟩ : ∃ t ts', ts = t :: ts' := by
    refine List.exists_cons_of_ne_nil ?_
    rintro rfl
    cases h
  simp only [breaksOff, Bool.or_eq_true, decide_eq_true_eq] at h ⊢
  refine h.imp (fun last => ?_) fun more => ?_
  · simpa [List.getLast?_append, List.getLast?_cons] using last
  · rw [List.countP_append, List.countP_append, hu.balanced]
    exact Nat.add_lt_add_left more _

/-- An opener that nothing follows, or what breaks off. -/
theorem breaksOff_opener (ht : t.kind = .ebnf s) (hs : s ∈ openers) (h : ts = [] ∨ breaksOff ts = true) :
    breaksOff (t :: ts) = true := by
  cases ts with
  | nil => simp [breaksOff, oneOf_of_kind ht, hs]
  | cons u ts =>
    have other : ∀ s ∈ openers, s ≠ .rightBracket := by decide
    have h := h.resolve_left (List.cons_ne_nil u ts)
    simp only [breaksOff, Bool.or_eq_true, decide_eq_true_eq] at h ⊢
    refine h.imp (fun last => ?_) fun more => ?_
    · rw [List.getLast?_cons_cons]
      exact last
    · rw [List.countP_cons (a := t), List.countP_cons (a := t), oneOf_of_kind ht [.rightBracket]]
      simp only [List.mem_singleton, other s hs, decide_false, Bool.false_eq_true, if_false]
      omega

theorem breaksOff_bracket (ht : t.kind = .ebnf .leftBracket) (hu : Phrase us) :
    breaksOff (t :: us) = true := by
  simp [breaksOff, oneOf_of_kind ht, hu.balanced]

theorem filter_kept (ht : t.kind = .ebnf s) (h : s ∉ punctuation) : [t].filter kept = [t] := by
  simp [kept, oneOf_of_kind ht, h]

theorem filter_not_kept (ht : t.kind = .ebnf s) (h : s ∈ punctuation) : [t].filter kept = [] := by
  simp [kept, oneOf_of_kind ht, h]

theorem yield_marker (ht : t.kind = .ebnf s) (h : s ∈ markers) (ns : List Node) :
    (Node.branch t ns).yield place = (Node.yields place ns).flatten := by
  simp [Node.yield, place, oneOf_of_kind ht, h, Placement.arrange]

theorem yield_mark (h : s ∈ markers) (ns : List Node) :
    (Node.branch s.marker ns).yield place = (Node.yields place ns).flatten :=
  yield_marker rfl h ns

end Tokens

/-- Actions that ask for nothing: one gives what satisfies `Q`, or ends in a defect. -/
inductive Settles {α : Type} (Q : α → Prop) : Action α → Prop
  | give {a : α} (h : Q a) : Settles Q (pure a)
  | defect (d : Defect) : Settles Q (Action.defect d)

namespace Settles
variable {α β : Type} {Q : α → Prop}

theorem bind {a : Action α} {f : α → Action β} {R : β → Prop} (ha : Settles Q a)
    (hf : ∀ x, Q x → Settles R (f x)) : Settles R (a >>= f) := by
  cases ha with
  | give h => exact hf _ h
  | defect d => exact .defect d

theorem kindOf (t : Token) : Settles (· = t.kind) (Action.kindOf t) := by
  cases t with
  | word text => exact .defect _
  | lexeme kind value place => exact .give rfl
  | absent => exact .defect _

theorem leads {p : Parser} {e : Int → ParseM Node} {a : Action α} (h : Settles Q a) {i : Scan}
    {R : Except Failure α → Scan → Prop} (hQ : ∀ x, Q x → R (.ok x) i)
    (hd : ∀ d, R (.error (.defect d)) i) : Leads (p.run e a) i R := by
  cases h with
  | give h => exact Leads.pure (hQ _ h)
  | defect d => exact Leads.throw (hd d)

end Settles

section Trees

theorem settles_isBranch (n : Node) (s : EbnfSymbol) :
    Settles (fun found => found = true → ∃ t ns, n = .branch t ns ∧ t.kind = .ebnf s) (isBranch n s) := by
  cases n with
  | leaf t => exact .give fun h => by cases h
  | branch t ns =>
    refine (Settles.kindOf t).bind fun kind hk => .give fun h => ⟨t, ns, rfl, ?_⟩
    rw [← hk]
    exact eq_of_beq h

/-- A sequence with one more item, or a new one of two. -/
theorem settles_extendSequence (left item : Node) :
    Settles (fun n => n.yield place = left.yield place ++ item.yield place)
      (extendSequence left item) := by
  refine (settles_isBranch left .sequence).bind fun found hf => ?_
  cases found with
  | false => exact .give (by simp (disch := decide) [yield_mark, Node.yields])
  | true =>
    obtain ⟨t, ns, rfl, ht⟩ := hf rfl
    exact .give (by simp (disch := decide) [yield_marker ht, Node.yields])

/-- What a mark adds to the last item of a sequence, it adds to the sequence. -/
theorem settles_onLast {mark : Node → Action Node} {us : List Token}
    (h : ∀ n, Settles (fun m => m.yield place = n.yield place ++ us) (mark n)) (left : Node) :
    Settles (fun m => m.yield place = left.yield place ++ us) (onLast left mark) := by
  refine (settles_isBranch left .sequence).bind fun found hf => ?_
  cases found with
  | false => exact h left
  | true =>
    obtain ⟨t, ns, rfl, ht⟩ := hf rfl
    simp only [if_true, Node.children?, Option.getD_some]
    cases hl : ns.getLast? with
    | none => exact .defect _
    | some last =>
      obtain ⟨front, rfl⟩ := List.getLast?_eq_some_iff.mp hl
      refine (h last).bind fun m hm => .give ?_
      simp (disch := decide) [Node.token, yield_marker ht, Node.yields, hm]

theorem settles_repeatMark (t : Token) (n : Node) :
    Settles (fun m => m.yield place = n.yield place ++ [t]) (repeatMark t n) := by
  have new : Settles (fun m : Node => m.yield place = n.yield place ++ [t])
      (pure (.branch (EbnfSymbol.marker .repeats) [n, .leaf t])) :=
    .give (by simp (disch := decide) [yield_mark, Node.yields])
  refine (Settles.kindOf t).bind fun kind _ => ?_
  split
  · refine (settles_isBranch n .repeats).bind fun found hf => ?_
    cases found with
    | false => exact new
    | true =>
      obtain ⟨u, ns, rfl, hu⟩ := hf rfl
      exact .give (by simp (disch := decide) [yield_marker hu, Node.yields])
  · exact new

end Trees

/-- An expression takes a phrase from the beginning of the tokens and holds what counts of it. -/
def Takes (whole : Scan) (n : Node) (rest : Scan) : Prop :=
  ∃ us, whole.tokens = us ++ rest.tokens ∧ rest.fault = whole.fault ∧ us ≠ [] ∧ Phrase us ∧
    n.yield place = us.filter kept

/-- Tokens that end before an expression does. -/
def RunsOut (whole : Scan) : Prop :=
  whole.fault = none ∧ Unseparated whole.tokens ∧ (whole.tokens = [] ∨ breaksOff whole.tokens = true)

theorem Takes.plain {whole rest : Scan} {n : Node} (h : Takes whole n rest) (hw : whole.Plain) :
    rest.Plain := by
  obtain ⟨us, tokens, fault, -⟩ := h
  exact hw.suffix us tokens fault

theorem Takes.shorter {whole rest : Scan} {n : Node} (h : Takes whole n rest) :
    rest.tokens.length < whole.tokens.length := by
  obtain ⟨us, tokens, -, hne, -⟩ := h
  rw [tokens, List.length_append]
  exact Nat.lt_add_of_pos_left (List.length_pos_iff.mpr hne)

def Accounts (whole : Scan) : Except Failure Node → Scan → Prop
  | .ok n, rest => Takes whole n rest
  | .error e, _ => e = .error .incomplete → RunsOut whole

abbrev parser : Parser := Grammar.ebnf.parser none

theorem steady : parser.Steady Token.kind fun t => t.present? = some t where
  unlimited := rfl
  classified := fun _ _ _ => rfl
  present := fun _ h => h

/-- Expressions account for inputs of fewer tokens than `k`. -/
def Reading (k : Nat) : Prop :=
  ∀ (i : Scan) (r : Int), i.Plain → i.tokens.length < k → Leads (parser.reading r) i (Accounts i)

section Rules
variable {k : Nat} {t : Token} {s : EbnfSymbol} {us ts : List Token} {fault : Option ParseError}
  {left : Node}

theorem ne_incomplete_of_fault {i : Scan} (hi : i.Plain) {e : ParseError} (h : i.fault = some e) :
    e ≠ .incomplete := by
  obtain ⟨c, k, rfl⟩ := hi.fault e h
  exact ParseError.noConfusion

theorem leads_settled {p : Parser} {e : Int → ParseM Node} {a : Action Node} {whole i : Scan}
    (us : List Token) (ha : Settles (fun n => n.yield place = us.filter kept) a)
    (hw : whole.tokens = us ++ i.tokens) (hf : i.fault = whole.fault) (hne : us ≠ []) (hu : Phrase us) :
    Leads (p.run e a) i (Accounts whole) :=
  ha.leads (fun _ hn => ⟨us, hw, hf, hne, hu, hn⟩) fun _ h => by cases h

/-- An expression that an opener needs after it. -/
theorem leads_operand (h : Reading k) {i : Scan} (hi : i.Plain) (hk : i.tokens.length < k) (r : Int)
    (hu : Phrase us) (ht : t.kind = .ebnf s) (hs : s ∈ [EbnfSymbol.colon, .bar]) {build : Node → Node}
    (hb : ∀ m, (build m).yield place = us.filter kept ++ [t].filter kept ++ m.yield place) :
    Leads (parser.reading r >>= fun m => pure (build m)) i (Accounts ⟨us ++ t :: i.tokens, i.fault⟩) := by
  have opener : ∀ s ∈ [EbnfSymbol.colon, .bar], s ∈ openers ∧ s ≠ .semicolon := by decide
  refine Leads.bind ((h i r hi hk).mono ?_)
  rintro (e | m) j hj
  · intro he
    obtain ⟨no_fault, unseparated, off⟩ := hj he
    refine ⟨no_fault, fun v hv => ?_, .inr (breaksOff_append hu (breaksOff_opener ht (opener s hs).1 off))⟩
    rcases List.mem_append.mp hv with hv | hv
    · exact hu.unseparated v hv
    · rcases List.mem_cons.mp hv with rfl | hv
      · simp [oneOf_of_kind ht, (opener s hs).2]
      · exact unseparated v hv
  · obtain ⟨vs, hw, hf, hne, hv, hy⟩ := hj
    refine Leads.pure ⟨us ++ t :: vs, ?_, hf, by simp, hu.append (.after ht hs hv hne), ?_⟩
    · simp [hw]
    · rw [hb, hy, List.append_assoc, ← List.filter_append, ← List.filter_append, List.singleton_append]

theorem leads_group (h : Reading k) {i : Scan} (hi : i.Plain) (hk : i.tokens.length < k)
    (ht : t.kind = .ebnf .leftBracket) :
    Leads (parser.run parser.reading group) i (Accounts ⟨t :: i.tokens, i.fault⟩) := by
  have cons {ts : List Token} (hts : Unseparated ts) : Unseparated (t :: ts) := by
    intro v hv
    rcases List.mem_cons.mp hv with rfl | hv
    · simp [oneOf_of_kind ht]
    · exact hts v hv
  simp only [group, Parser.run_bind, Parser.run_expr, Parser.run_consume, Parser.run_pure]
  refine Leads.bind ((h i _ hi hk).mono ?_)
  rintro (e | m) ⟨ts, fault⟩ hj
  · intro he
    obtain ⟨no_fault, unseparated, off⟩ := hj he
    exact ⟨no_fault, cons unseparated, .inr (breaksOff_opener ht (by decide) off)⟩
  · obtain ⟨us, hw, hf, -, hu, hy⟩ := hj
    obtain rfl : fault = i.fault := hf
    refine Leads.bind ?_
    cases ts with
    | nil =>
      cases hf : i.fault with
      | some e =>
        have other := ne_incomplete_of_fault hi hf
        exact Leads.consume_fault fun he => absurd (Failure.error.inj he) other
      | none =>
        refine Leads.consume_nil fun _ => ⟨rfl, ?_, .inr ?_⟩
        · rw [hw]
          exact cons (by simpa using hu.unseparated)
        · rw [hw]
          exact breaksOff_bracket ht (by simpa using hu)
    | cons u ts =>
      refine Leads.consume_cons (hi.present u (by simp [hw])) ?_
      split
      · rename_i same
        have closes : u.kind = .ebnf .rightBracket := Kind.same_ebnf_iff.mp (Token.kind_same same)
        refine Leads.pure ⟨t :: us ++ [u], by simp [hw], rfl, by simp, .bracketed ht hu closes, ?_⟩
        rw [yield_mark (by decide)]
        simp [Node.yields, hy, kept, oneOf_of_kind ht, oneOf_of_kind closes, punctuation]
      · exact fun he => by cases he

/-- Every rule that starts an expression accounts for what it takes. -/
theorem leads_starting (h : Reading k) {i : Scan} (hi : i.Plain) (hk : i.tokens.length < k)
    {rule : PrefixRule} (hr : rules.prefixRule? t.kind = some rule) :
    Leads (parser.run parser.reading (rule.action t rule.power)) i (Accounts ⟨t :: i.tokens, i.fault⟩) := by
  have member := mem_of_prefixRule? hr
  simp only [rules, Grammar.each, List.map_cons, List.map_nil, List.cons_append, List.nil_append,
    List.mem_cons, Prod.mk.injEq, List.not_mem_nil, or_false] at member
  have leaf {s : EbnfSymbol} (ht : t.kind = .ebnf s)
      (hs : s ∉ EbnfSymbol.semicolon :: .rightBracket :: openers) (hp : s ∉ punctuation) :
      Leads (parser.run parser.reading ((PrefixRule.leaf Level.root).action t Level.root)) i
        (Accounts ⟨t :: i.tokens, i.fault⟩) :=
    leads_settled [t] (.give (by simp [filter_kept ht hp])) rfl rfl (List.cons_ne_nil t []) (.single ht hs)
  obtain ⟨ht, rfl⟩ | ⟨ht, rfl⟩ | ⟨ht, rfl⟩ := member
  · exact leaf ht (by decide) (by decide)
  · exact leaf ht (by decide) (by decide)
  · exact leads_group h hi hk ht

/-- Every rule that continues an expression accounts for what was taken before and what it takes. -/
theorem leads_continuing (h : Reading k) {i whole : Scan} (hi : i.Plain) (hk : i.tokens.length < k)
    (hl : Takes whole left ⟨t :: i.tokens, i.fault⟩) {rule : InfixRule}
    (hr : rules.infixRule? t.kind = some rule) :
    Leads (parser.run parser.reading (rule.action t rule.right left)) i (Accounts whole) := by
  obtain ⟨us, tokens, fault, -, hu, hl⟩ := hl
  obtain rfl : whole = ⟨us ++ t :: i.tokens, i.fault⟩ := by rw [← tokens, fault]
  have member := mem_of_infixRule? hr
  simp only [rules, Grammar.each, List.map_cons, List.map_nil, List.cons_append, List.nil_append,
    List.mem_cons, Prod.mk.injEq, List.not_mem_nil, or_false] at member
  -- A rule that takes its own token alone.
  have mark {s : EbnfSymbol} (ht : t.kind = .ebnf s) {a : Action Node}
      (hs : s ∉ EbnfSymbol.semicolon :: .rightBracket :: openers)
      (ha : Settles (fun n => n.yield place = left.yield place ++ [t].filter kept) a) :
      Leads (parser.run parser.reading a) i (Accounts ⟨us ++ t :: i.tokens, i.fault⟩) := by
    refine leads_settled (us ++ [t]) ?_ (by simp) rfl (by simp) (hu.append (.single ht hs))
    rwa [List.filter_append, ← hl]
  have repeats {s : EbnfSymbol} (ht : t.kind = .ebnf s)
      (hs : s ∉ EbnfSymbol.semicolon :: .rightBracket :: openers) (hp : s ∉ punctuation) :
      Leads (parser.run parser.reading (repetition.action t repetition.right left)) i
        (Accounts ⟨us ++ t :: i.tokens, i.fault⟩) := by
    refine mark ht hs ?_
    rw [filter_kept ht hp]
    exact settles_onLast (settles_repeatMark t) left
  have juxtaposes {s : EbnfSymbol} (ht : t.kind = .ebnf s)
      (hs : s ∉ EbnfSymbol.semicolon :: .rightBracket :: openers) (hp : s ∉ punctuation) :
      Leads (parser.run parser.reading (juxtaposition.action t juxtaposition.right left)) i
        (Accounts ⟨us ++ t :: i.tokens, i.fault⟩) := by
    refine mark ht hs ?_
    rw [filter_kept ht hp, ← Node.yield_leaf]
    exact settles_extendSequence left (.leaf t)
  obtain ⟨ht, rfl⟩ | ⟨ht, rfl⟩ | ⟨ht, rfl⟩ | ⟨ht, rfl⟩ | ⟨ht, rfl⟩ | ⟨ht, rfl⟩ | ⟨ht, rfl⟩ | ⟨ht, rfl⟩ |
    ⟨ht, rfl⟩ := member
  · simp only [definition, Parser.run_bind, Parser.run_expr, Parser.run_pure]
    refine leads_operand h hi hk _ hu ht (by decide) fun m => ?_
    rw [yield_mark (by decide), filter_not_kept ht (by decide)]
    simp [Node.yields, hl]
  · simp only [InfixRule.binary, Parser.run_bind, Parser.run_expr, Parser.run_pure]
    refine leads_operand h hi hk _ hu ht (by decide) fun m => ?_
    rw [filter_kept ht (by decide)]
    simp [Node.yield, Node.yields, place, oneOf_of_kind ht, markers, Placement.arrange, hl]
  · exact repeats ht (by decide) (by decide)
  · exact repeats ht (by decide) (by decide)
  · exact repeats ht (by decide) (by decide)
  · refine mark ht (by decide) ?_
    rw [filter_not_kept ht (by decide)]
    refine settles_onLast (fun n => .give ?_) left
    simp (disch := decide) [yield_mark, Node.yields]
  · exact juxtaposes ht (by decide) (by decide)
  · exact juxtaposes ht (by decide) (by decide)
  · simp only [groupAfter, Parser.run_bind]
    refine Leads.bind ((leads_group h hi hk ht).mono ?_)
    rintro (e | m) j hj
    · intro he
      obtain ⟨no_fault, unseparated, off⟩ := hj he
      refine ⟨no_fault, fun v hv => ?_, .inr (breaksOff_append hu (off.resolve_left (List.cons_ne_nil t _)))⟩
      exact (List.mem_append.mp hv).elim (hu.unseparated v) (unseparated v)
    · obtain ⟨vs, hw, hf, hne, hv, hy⟩ := hj
      refine leads_settled (us ++ vs) ?_ ?_ hf (by simp [hne]) (hu.append hv)
      · rw [List.filter_append, ← hl, ← hy]
        exact settles_extendSequence left m
      · change us ++ t :: i.tokens = _
        rw [List.append_assoc, ← hw]

theorem leads_extending (h : Reading k) (r : Int) {whole i : Scan} (hp : whole.Plain)
    (hk : i.tokens.length ≤ k) (ht : Takes whole left i) :
    Leads (parser.extending r left) i (Accounts whole) := by
  obtain ⟨m, hm⟩ : ∃ m, i.tokens.length < m := ⟨_, Nat.lt_succ_self _⟩
  induction m generalizing i left with
  | zero => exact absurd hm (Nat.not_lt_zero _)
  | succ m ih =>
    have hi : i.Plain := ht.plain hp
    obtain ⟨_ | ⟨t, ts⟩, fault⟩ := i
    · cases fault with
      | none => exact Parser.leads_extending_nil ht
      | some e =>
        exact Parser.leads_extending_fault fun he =>
          absurd (Failure.error.inj he) (ne_incomplete_of_fault hi rfl)
    · have present := hi.present t List.mem_cons_self
      by_cases taken : ∃ rule, rules.infixRule? t.kind = some rule ∧ r < rule.left
      · obtain ⟨rule, hr, hb⟩ := taken
        refine steady.leads_extending_step present hr hb ?_
        have shorter := parser.ensures_no_longer (rule.action t rule.right left) (ts.length + 1)
          ⟨ts, fault⟩ (Nat.lt_succ_self _)
        have continuing := leads_continuing h (i := ⟨ts, fault⟩) (hi.suffix [t] rfl rfl) hk ht hr
        refine (continuing.and shorter).mono ?_
        rintro (e | n) j ⟨hj, less⟩
        · exact hj
        · have less : j.tokens.length < ts.length + 1 := less
          rw [List.length_cons] at hk hm
          exact ih (by omega) hj (by omega)
      · refine steady.leads_extending_stop_cons present (fun rule hr => ?_) ht
        exact Int.not_lt.mp fun hb => taken ⟨rule, hr, hb⟩

theorem reading (k : Nat) : Reading k := by
  induction k with
  | zero => exact fun i r _ hk => absurd hk (Nat.not_lt_zero _)
  | succ k ih =>
    rintro ⟨_ | ⟨t, ts⟩, fault⟩ r hi hk
    · cases fault with
      | none => exact steady.leads_reading_nil fun _ => ⟨rfl, fun _ h => (by cases h), .inl rfl⟩
      | some e =>
        exact steady.leads_reading_fault fun he =>
          absurd (Failure.error.inj he) (ne_incomplete_of_fault hi rfl)
    · have present := hi.present t List.mem_cons_self
      refine steady.leads_reading present ?_
      cases hr : rules.prefixRule? t.kind with
      | none => exact steady.leads_start_missing present hr fun he => by cases he
      | some rule =>
        have starting := leads_starting ih (i := ⟨ts, fault⟩) (hi.suffix [t] rfl rfl)
          (Nat.lt_of_succ_lt_succ hk) hr
        refine steady.leads_start present hr (starting.mono ?_)
        rintro (e | n) j hj
        · exact hj
        · exact leads_extending ih r hi (Nat.le_of_lt_succ (Nat.lt_trans hj.shorter hk)) hj

end Rules

/-- An entry that breaks off ends a sequence as the end of the input does. -/
theorem leads_elements (times : Nat) {i : Scan} (hi : i.Plain) (ht : i.tokens.length < times) :
    Leads (Parser.elements parser.reading Level.root (some semicolon) none times) i fun r _ =>
      ∀ ns : List Node, r = .ok (ns.map .ok) → i.fault = none ∧
        (Node.yields place ns).flatten ++ (unfinished i.tokens).filter kept = i.tokens.filter kept := by
  induction times generalizing i with
  | zero => exact absurd ht (Nat.not_lt_zero _)
  | succ times ih =>
    simp only [Parser.elements, Parser.closes, pure_bind, Bool.false_eq_true, if_false]
    refine Leads.bind (Leads.outcome ((reading _ i _ hi (Nat.lt_succ_self _)).mono ?_))
    rintro ((e | d) | n) j hj
    · refine Leads.pure ?_
      by_cases he : e = .incomplete
      · subst he
        obtain ⟨no_fault, unseparated, off⟩ := hj rfl
        rintro (_ | ⟨n, ns⟩) h
        · refine ⟨no_fault, ?_⟩
          rw [unfinished, lastEntry_of_unseparated unseparated]
          rcases off with nothing | off
          · simp [nothing, Node.yields]
          · simp [off, Node.yields]
        · cases h
      · rintro (_ | ⟨n, ns⟩) h <;> cases e <;> first | exact absurd rfl he | cases h
    · rintro ns h
      cases h
    · have less := hj.shorter
      have plain := hj.plain hi
      obtain ⟨us, tokens, fault, -, hu, hy⟩ := hj
      obtain ⟨_ | ⟨t, ts⟩, _ | e⟩ := j
      · refine Leads.bind (Leads.outcome (Leads.consume_nil (Leads.pure ?_)))
        rintro (_ | ⟨m, _ | ⟨m', ns⟩⟩) h <;> cases h
        rw [List.append_nil] at tokens
        refine ⟨fault.symm, ?_⟩
        rw [unfinished, tokens, lastEntry_of_unseparated hu.unseparated, hu.finished]
        simp [Node.yields, hy]
      · refine Leads.bind (Leads.outcome (Leads.consume_fault ?_))
        obtain ⟨c, k, rfl⟩ := plain.fault e rfl
        refine Leads.raise fun ns h => ?_
        cases h
      all_goals
        refine Leads.bind (Leads.outcome (Leads.consume_cons (plain.present t List.mem_cons_self) ?_))
        split
        · rename_i same
          have separates : t.kind = .ebnf .semicolon := Kind.same_ebnf_iff.mp (Token.kind_same same)
          have fewer : ts.length < times := by
            rw [List.length_cons] at less
            omega
          have more := ih (i := ⟨ts, _⟩) (plain.suffix [t] rfl rfl) fewer
          refine Leads.bind (more.mono ?_)
          rintro (e | outcomes) j hj
          · rintro ns h
            cases h
          · refine Leads.pure ?_
            rintro (_ | ⟨m, ns⟩) h
            · cases h
            · obtain ⟨hm, rfl⟩ := List.cons.inj (Except.ok.inj h)
              obtain rfl := Except.ok.inj hm
              obtain ⟨no_fault, account⟩ := hj ns rfl
              refine ⟨fault.symm.trans no_fault, ?_⟩
              rw [tokens, unfinished_append separates, List.filter_append, List.filter_cons_of_neg, ← account]
              · simp [Node.yields, hy]
              · simp [kept, oneOf_of_kind separates, punctuation]
        · refine Leads.pure ?_
          rintro (_ | ⟨m, _ | ⟨m', ns⟩⟩) h <;> cases h

theorem leads_program {i : Scan} (hi : i.Plain) :
    Leads (parser.run parser.reading program) i fun r _ => ∀ ns : List Node, r = .ok ns →
      i.fault = none ∧
        (Node.yields place ns).flatten ++ (unfinished i.tokens).filter kept = i.tokens.filter kept := by
  simp only [program, Parser.run_bind, Parser.run_sequence]
  refine Leads.bind (Leads.bind (Leads.room ((leads_elements _ hi (Nat.lt_succ_self _)).mono ?_)))
  rintro (e | outcomes) j hj
  · intro ns h
    cases h
  · have collected := Ensures.collect (p := parser) (e := parser.reading) outcomes
      (R := fun ns _ => i.fault = none ∧
        (Node.yields place ns).flatten ++ (unfinished i.tokens).filter kept = i.tokens.filter kept)
    refine (collected j fun ns h => hj ns (by rw [h])).mono ?_
    rintro (e | ns) j hj ms h
    · cases h
    · cases h
      exact hj

/-- All of the text was scanned. What counts of it is what the trees yield and, after that, what counts
of a last entry that breaks off. -/
theorem yields_append_unfinished {text : String} {limit : Option Int} {ns : List Node}
    (h : Grammar.ebnf.parse text limit = .ok ns) :
    (ScanRule.scan lexemes text).fault = none ∧
    (Node.yields place ns).flatten ++ (unfinished (ScanRule.scan lexemes text).tokens).filter kept =
      (ScanRule.scan lexemes text).tokens.filter kept := by
  have unlimited : Grammar.ebnf.parse text none = .ok ns := by
    cases limit with
    | none => exact h
    | some l =>
      have bundled : Grammar.ebnf ∈ Grammar.bundled := by simp [Grammar.bundled]
      have unless_refused := Grammar.parse_eq_of_le bundled text l none fun _ h => by cases h
      rcases unless_refused with same | refused
      · rw [← same, h]
      · cases h.symm.trans refused
  have start : (Grammar.ebnf.start text).input = ScanRule.scan lexemes text := rfl
  have account := (leads_program (ScanRule.plain_scan lexemes text)).holds _ start ns
  rw [← Parser.perform_eq] at account
  exact account unlimited

theorem yields_append_unfinished_broken :
    Grammar.ebnf.parse "a ; b :" none = .ok [.leaf (.lexeme (.ebnf .ident) "a" (some 0))] ∧
    [.lexeme (.ebnf .ident) "a" (some 0), .lexeme (.ebnf .ident) "b" (some 4)] =
      (ScanRule.scan lexemes "a ; b :").tokens.filter kept := by
  have parsed : Grammar.ebnf.parse "a ; b :" none = .ok [.leaf (.lexeme (.ebnf .ident) "a" (some 0))] := by
    decide +kernel
  have lost : (unfinished (ScanRule.scan lexemes "a ; b :").tokens).filter kept =
      [.lexeme (.ebnf .ident) "b" (some 4)] := by
    decide +kernel
  refine ⟨parsed, ?_⟩
  rw [← (yields_append_unfinished parsed).2, lost]
  rfl

/-- An entry that breaks off is dropped without an error. -/
theorem parse_drops_entry :
    Grammar.ebnf.parse "a :" none = .ok [] ∧ (ScanRule.scan lexemes "a :").tokens.filter kept ≠ [] := by
  decide +kernel

end BindingPower.Ebnf
