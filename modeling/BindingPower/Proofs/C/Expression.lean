import BindingPower.Proofs.C.Computation
import BindingPower.Proofs.C.Layout
import BindingPower.Proofs.Input

/-! C expressions read back. Every way of writing an expression that leaves no operand open to being
regrouped by the ladder of operators is parsed to that expression. -/
namespace BindingPower.C

def operandSymbols : List CSymbol := [.ident, .intConst, .floatConst, .charConst, .string]

def unarySymbols : List CSymbol := [
  .increment, .decrement, .kwSizeof, .ampersand, .star, .plus, .minus, .tilde, .bang]

/-- Binary operators that group to the left, loosest first. -/
def leftwardSymbols : List (List CSymbol) := [
  [.orOr], [.andAnd], [.bar], [.caret], [.ampersand], [.equals, .notEquals],
  [.less, .greater, .lessEq, .greaterEq], [.shiftLeft, .shiftRight], [.plus, .minus],
  [.star, .slash, .percent]]

/-- The tokens of a tree where no looser operator than a rung of the ladder may stand bare. The rungs
are assignments (0), the conditional (1), the operators that group to the left (from 2), operators
before (12) and after (13) an operand, and operands (14). Parentheses may stand around any tree. -/
inductive Written : Nat → Node → List Token → Prop
  | operand {k : Nat} {s : CSymbol} {value : String} (hs : s ∈ operandSymbols) (hv : IsLexeme s value) :
    Written k (.leaf (.lexeme (.c s) value none)) [.lexeme (.c s) value none]
  | group {k : Nat} {n : Node} {ts : List Token} (inner : Written 0 n ts) :
    Written k n (CSymbol.leftParen.token :: ts ++ [CSymbol.rightParen.token])
  | assignment {k : Nat} {op : CSymbol} {n m : Node} {ts us : List Token} (hk : k ≤ 0)
    (hop : op ∈ assignmentSymbols) (left : Written 1 n ts) (right : Written 0 m us) :
    Written k (.branch op.token [n, m]) (ts ++ op.token :: us)
  | conditional {k : Nat} {n m l : Node} {ts us vs : List Token} (hk : k ≤ 1) (test : Written 2 n ts)
    (yes : Written 0 m us) (no : Written 1 l vs) :
    Written k (.branch CSymbol.conditional.token [n, m, l])
      (ts ++ CSymbol.question.token :: us ++ CSymbol.colon.token :: vs)
  | leftward {k i : Nat} {ops : List CSymbol} {op : CSymbol} {n m : Node} {ts us : List Token}
    (hk : k ≤ i + 2) (hops : leftwardSymbols[i]? = some ops) (hop : op ∈ ops)
    (left : Written (i + 2) n ts) (right : Written (i + 3) m us) :
    Written k (.branch op.token [n, m]) (ts ++ op.token :: us)
  | unary {k : Nat} {op : CSymbol} {n : Node} {ts : List Token} (hk : k ≤ 12) (hop : op ∈ unarySymbols)
    (inner : Written 12 n ts) : Written k (.branch op.token [n]) (op.token :: ts)
  | stepped {k : Nat} {op : CSymbol} {n : Node} {ts : List Token} (hk : k ≤ 13)
    (hop : op ∈ [CSymbol.increment, .decrement]) (left : Written 13 n ts) :
    Written k (.branch CSymbol.stepped.token [n, .leaf op.token]) (ts ++ [op.token])
  | bareCall {k : Nat} {n : Node} {ts : List Token} (hk : k ≤ 13) (callee : Written 13 n ts) :
    Written k (.branch CSymbol.call.token [n])
      (ts ++ [CSymbol.leftParen.token, CSymbol.rightParen.token])
  | call {k : Nat} {n m : Node} {ts us : List Token} {more : List (Node × List Token)} (hk : k ≤ 13)
    (callee : Written 13 n ts) (argument : Written 0 m us) (others : ∀ a ∈ more, Written 0 a.1 a.2) :
    Written k (.branch CSymbol.call.token (n :: m :: more.map (·.1)))
      (ts ++ CSymbol.leftParen.token :: us ++ more.flatMap (fun a => CSymbol.comma.token :: a.2) ++
        [CSymbol.rightParen.token])
  | index {k : Nat} {n m : Node} {ts us : List Token} (hk : k ≤ 13) (left : Written 13 n ts)
    (position : Written 0 m us) :
    Written k (.branch CSymbol.index.token [n, m])
      (ts ++ CSymbol.leftBracket.token :: us ++ [CSymbol.rightBracket.token])
  | member {k : Nat} {op : CSymbol} {n : Node} {name : String} {ts us : List Token} (hk : k ≤ 13)
    (hop : op ∈ [CSymbol.dot, .arrow]) (left : Written 13 n ts)
    (right : Written 14 (.leaf (.lexeme (.c .ident) name none)) us) :
    Written k (.branch op.token [n, .leaf (.lexeme (.c .ident) name none)]) (ts ++ op.token :: us)

theorem Written.mono {k k' : Nat} {n : Node} {ts : List Token} (h : Written k' n ts) (hk : k ≤ k') :
    Written k n ts := by
  cases h with
  | operand hs hv => exact .operand hs hv
  | group inner => exact .group inner
  | assignment hk' hop left right => exact .assignment (Nat.le_trans hk hk') hop left right
  | conditional hk' test yes no => exact .conditional (Nat.le_trans hk hk') test yes no
  | leftward hk' hops hop left right => exact .leftward (Nat.le_trans hk hk') hops hop left right
  | unary hk' hop inner => exact .unary (Nat.le_trans hk hk') hop inner
  | stepped hk' hop left => exact .stepped (Nat.le_trans hk hk') hop left
  | bareCall hk' callee => exact .bareCall (Nat.le_trans hk hk') callee
  | call hk' callee argument others => exact .call (Nat.le_trans hk hk') callee argument others
  | index hk' left position => exact .index (Nat.le_trans hk hk') left position
  | member hk' hop left right => exact .member (Nat.le_trans hk hk') hop left right

/-- The trees of expressions. -/
inductive Expression : Node → Prop
  | operand {s : CSymbol} {value : String} (hs : s ∈ operandSymbols) (hv : IsLexeme s value) :
    Expression (.leaf (.lexeme (.c s) value none))
  | unary {op : CSymbol} {n : Node} (hop : op ∈ unarySymbols) (h : Expression n) :
    Expression (.branch op.token [n])
  | binary {op : CSymbol} {n m : Node} (hop : op ∈ assignmentSymbols ++ leftwardSymbols.flatten)
    (left : Expression n) (right : Expression m) : Expression (.branch op.token [n, m])
  | conditional {n m l : Node} (test : Expression n) (yes : Expression m) (no : Expression l) :
    Expression (.branch CSymbol.conditional.token [n, m, l])
  | stepped {op : CSymbol} {n : Node} (hop : op ∈ [CSymbol.increment, .decrement]) (h : Expression n) :
    Expression (.branch CSymbol.stepped.token [n, .leaf op.token])
  | call {n : Node} {ns : List Node} (callee : Expression n) (arguments : ∀ m ∈ ns, Expression m) :
    Expression (.branch CSymbol.call.token (n :: ns))
  | index {n m : Node} (left : Expression n) (position : Expression m) :
    Expression (.branch CSymbol.index.token [n, m])
  | member {op : CSymbol} {n : Node} {name : String} (hop : op ∈ [CSymbol.dot, .arrow])
    (left : Expression n) (hv : IsLexeme .ident name) :
    Expression (.branch op.token [n, .leaf (.lexeme (.c .ident) name none)])

/-- What there is for each item there is for all of them, side by side. -/
theorem exists_beside {α β : Type} {P : α → β → Prop} {items : List α} (h : ∀ a ∈ items, ∃ b, P a b) :
    ∃ pairs : List (α × β), pairs.map (·.1) = items ∧ ∀ p ∈ pairs, P p.1 p.2 := by
  induction items with
  | nil => exact ⟨[], rfl, List.forall_mem_nil _⟩
  | cons a items ih =>
    obtain ⟨⟨b, hb⟩, others⟩ := List.forall_mem_cons.mp h
    obtain ⟨pairs, rfl, each⟩ := ih others
    exact ⟨(a, b) :: pairs, rfl, List.forall_mem_cons.mpr ⟨hb, each⟩⟩

/-- Every expression can be written: parentheses around all of it and all of its parts will do. -/
theorem Expression.written {n : Node} (h : Expression n) : ∃ ts, Written 14 n ts := by
  induction h with
  | operand hs hv => exact ⟨_, .operand hs hv⟩
  | unary hop _ ih =>
    obtain ⟨ts, h⟩ := ih
    exact ⟨_, .group (.unary (by decide) hop (h.mono (by decide)))⟩
  | binary hop _ _ ihn ihm =>
    obtain ⟨ts, hn⟩ := ihn
    obtain ⟨us, hm⟩ := ihm
    rcases List.mem_append.mp hop with hop | hop
    · exact ⟨_, .group (.assignment (by decide) hop (hn.mono (by decide)) (hm.mono (by decide)))⟩
    · obtain ⟨ops, hops, hop⟩ := List.mem_flatten.mp hop
      obtain ⟨i, hi, rfl⟩ := List.getElem_of_mem hops
      have low : i < 10 := hi
      exact ⟨_, .group (.leftward (Nat.zero_le _) (List.getElem?_eq_getElem hi) hop
        (hn.mono (by omega)) (hm.mono (by omega)))⟩
  | conditional _ _ _ ihn ihm ihl =>
    obtain ⟨ts, hn⟩ := ihn
    obtain ⟨us, hm⟩ := ihm
    obtain ⟨vs, hl⟩ := ihl
    exact ⟨_, .group (.conditional (by decide) (hn.mono (by decide)) (hm.mono (by decide))
      (hl.mono (by decide)))⟩
  | stepped hop _ ih =>
    obtain ⟨ts, h⟩ := ih
    exact ⟨_, .group (.stepped (by decide) hop (h.mono (by decide)))⟩
  | @call n ns _ arguments ih ihs =>
    obtain ⟨ts, h⟩ := ih
    obtain ⟨pieces, rfl, hpieces⟩ := exists_beside ihs
    cases pieces with
    | nil => exact ⟨_, .group (.bareCall (by decide) (h.mono (by decide)))⟩
    | cons piece pieces =>
      obtain ⟨hm, others⟩ := List.forall_mem_cons.mp hpieces
      exact ⟨_, .group (.call (by decide) (h.mono (by decide)) (hm.mono (by decide))
        fun a ha => (others a ha).mono (by decide))⟩
  | index _ _ ihn ihm =>
    obtain ⟨ts, hn⟩ := ihn
    obtain ⟨us, hm⟩ := ihm
    exact ⟨_, .group (.index (by decide) (hn.mono (by decide)) (hm.mono (by decide)))⟩
  | member hop _ hv ih =>
    obtain ⟨ts, h⟩ := ih
    exact ⟨_, .group (.member (by decide) hop (h.mono (by decide)) (.operand (by decide) hv))⟩

/-- Thresholds below this one read a tree of a rung whole. -/
def floor (k : Nat) : Int := if k ≤ 11 then 5 * (k + 2) else if k ≤ 13 then 100 else 101

/-- What follows a tree of a rung may bind as tightly as this. -/
def cap (k : Nat) : Int :=
  if k = 0 then 5 else if k = 1 then 10 else if k ≤ 11 then 5 * (k + 2) else if k = 12 then 65 else 100

theorem floor_mono {k k' : Nat} (h : k ≤ k') : floor k ≤ floor k' := by
  unfold floor
  split <;> split <;> (try split) <;> (try split) <;> omega

theorem cap_mono {k k' : Nat} (h : k ≤ k') : cap k ≤ cap k' := by
  unfold cap
  repeat' split
  all_goals omega

/-- The token of a lexeme, wherever it stood. -/
def Located (t : Token) : Prop := ∃ kind value place, t = .lexeme kind value place

theorem located_of_bare {t : Token} {kind : Kind} {value : String} (h : t.bare = .lexeme kind value none) :
    ∃ place, t = .lexeme kind value place := by
  cases t with
  | lexeme kind' value' place =>
    obtain ⟨rfl, rfl, -⟩ := Token.lexeme.inj h
    exact ⟨place, rfl⟩
  | word text => cases h
  | absent => cases h

abbrev parser : Parser := Grammar.c.parser none

theorem steady : parser.Steady Token.kind Located where
  unlimited := rfl
  classified := fun _ _ _ => rfl
  present := by
    rintro t ⟨kind, value, place, rfl⟩
    rfl

/-- The tokens to come are none, or begin with one that does not bind above a threshold. -/
def Stops (r : Int) (ts : List Token) : Prop :=
  (∀ t ∈ ts.head?, Located t) ∧ rules.StopsAt Token.kind r ts

theorem Stops.mono {r r' : Int} {ts : List Token} (h : Stops r ts) (hr : r ≤ r') : Stops r' ts :=
  ⟨h.1, fun t ht rule hrule => Int.le_trans (h.2 t ht rule hrule) hr⟩

theorem stops_cons {s : CSymbol} {value : String} {place : Option Int} {rule : InfixRule}
    (hr : rules.infixRule? (.c s) = some rule) {r : Int} (h : rule.left ≤ r) (ts : List Token) :
    Stops r (.lexeme (.c s) value place :: ts) := by
  constructor
  · rintro t ⟨⟩
    exact ⟨_, _, _, rfl⟩
  · rintro t ⟨⟩ other ho
    obtain rfl : rule = other := Option.some.inj (hr.symm.trans ho)
    exact h

theorem stops_closer {s : CSymbol} {value : String} {place : Option Int}
    (hr : rules.infixRule? (.c s) = none) (r : Int) (ts : List Token) :
    Stops r (.lexeme (.c s) value place :: ts) := by
  constructor
  · rintro t ⟨⟩
    exact ⟨_, _, _, rfl⟩
  · rintro t ⟨⟩ other ho
    cases hr.symm.trans ho

open ParseM

section Symbols
variable {s : CSymbol} {place : Option Int} {ts : List Token}

/-- A symbol as it stands in a program. -/
abbrev tokenAt (s : CSymbol) (place : Option Int) : Token := .lexeme (.c s) s.spelling place

theorem bare_cons {us : List Token} (h : us.map Token.bare = s.token :: ts) :
    ∃ place vs, us = tokenAt s place :: vs ∧ vs.map Token.bare = ts := by
  obtain ⟨t, vs, rfl, ht, hvs⟩ := List.map_eq_cons_iff.mp h
  obtain ⟨place, rfl⟩ := located_of_bare ht
  exact ⟨place, vs, rfl, hvs⟩

theorem bare_append_cons {us vs : List Token} (h : us.map Token.bare = vs ++ s.token :: ts) :
    ∃ us' place vs', us = us' ++ tokenAt s place :: vs' ∧ us'.map Token.bare = vs ∧
      vs'.map Token.bare = ts := by
  obtain ⟨us', rest, rfl, hus, hrest⟩ := List.map_eq_append_iff.mp h
  obtain ⟨place, vs', rfl, hvs⟩ := bare_cons hrest
  exact ⟨us', place, vs', rfl, hus, hvs⟩

theorem leads_consume {Q : Except Failure Unit → Scan → Prop} (h : Q (.ok ()) ⟨ts, none⟩) :
    Leads (consume s.token) ⟨tokenAt s place :: ts, none⟩ Q := by
  have same : (tokenAt s place).same s.token = true := by
    simp [Token.same, CSymbol.token]
  apply Leads.consume_cons rfl
  rw [if_pos same]
  exact h

variable {p : Parser} {e : Int → ParseM Node}

theorem leads_require {n : Node} {Q : Except Failure Unit → Scan → Prop} (h : Q (.ok ()) ⟨ts, none⟩) :
    Leads (p.run e (require s n)) ⟨tokenAt s place :: ts, none⟩ Q := by
  simp only [require, Parser.run_bind, Parser.run_attempt]
  exact Leads.bind (Leads.outcome (leads_consume (Leads.pure h)))

theorem leads_accept {Q : Except Failure Bool → Scan → Prop} (h : Q (.ok true) ⟨ts, none⟩) :
    Leads (p.run e (accept s)) ⟨tokenAt s place :: ts, none⟩ Q := by
  simp only [accept, Parser.run_bind, Parser.run_attempt]
  exact Leads.bind (Leads.outcome (leads_consume (Leads.pure h)))

theorem leads_accept_other {t : Token} (ht : t.present? = some t) (hs : t.same s.token = false)
    {Q : Except Failure Bool → Scan → Prop} (h : Q (.ok false) ⟨t :: ts, none⟩) :
    Leads (p.run e (accept s)) ⟨t :: ts, none⟩ Q := by
  simp only [accept, Parser.run_bind, Parser.run_attempt]
  apply Leads.bind
  apply Leads.outcome
  apply Leads.consume_cons ht
  rw [hs]
  exact Leads.pure h

end Symbols

/-- The symbols that an expression may begin with. -/
def openers : List CSymbol := .leftParen :: operandSymbols ++ unarySymbols

def Opens (ts : List Token) : Prop :=
  ∃ s value us, s ∈ openers ∧ ts = .lexeme (.c s) value none :: us

/-- A tree that is no type name, qualifier, tagged type or list of them. -/
def NotType (n : Node) : Prop :=
  ∃ s value, n.token = .lexeme (.c s) value none ∧ s ∉ .specifiers :: specifierSymbols ++ taggedSymbols

theorem run_isType {p : Parser} {e : Int → ParseM Node} {n n' : Node} (h : NotType n) (hn : n'.bare = n) :
    p.run e (isType n') = pure false := by
  obtain ⟨s, value, ht, hs⟩ := h
  have bare : n'.token.bare = n.token := by
    rw [← hn]
    cases n' <;> rfl
  obtain ⟨place, hp⟩ := located_of_bare (bare.trans ht)
  simp only [List.cons_append, List.mem_cons, List.mem_append, not_or] at hs
  have kind : Action.kindOf n'.token = pure (.c s) := by rw [hp]; rfl
  simp only [isType, kind, pure_bind]
  have plain : among specifierSymbols (.c s) = false := among_eq_false_iff.mpr hs.2.1
  have untagged : among taggedSymbols (.c s) = false := among_eq_false_iff.mpr hs.2.2
  have single : (Kind.c s == .c .specifiers) = false := by simpa using hs.1
  cases n' with
  | leaf t => simp only [plain, Parser.run_pure]
  | branch t ns => simp only [single, untagged, Bool.or_self, Parser.run_pure]

/-- Reading the tokens of a tree comes to where the tree has been built, if what follows does not bind
tighter than the rung bears. -/
def Reads (k : Nat) (n : Node) (ts : List Token) : Prop :=
  ∀ r < floor k, ∀ us rest : List Token, us.map Token.bare = ts → Stops (cap k) rest →
    ∀ Q : Except Failure Node → Scan → Prop,
      (∀ n', n'.bare = n → Leads (parser.extending r n') ⟨rest, none⟩ Q) →
        Leads (parser.reading r) ⟨us ++ rest, none⟩ Q

namespace Reads
variable {k k' : Nat} {n m l : Node} {ts us vs : List Token}

theorem mono (h : Reads k' n ts) (hk : k ≤ k') : Reads k n ts :=
  fun r hr us rest hus hrest => h r (Int.lt_of_lt_of_le hr (floor_mono hk)) us rest hus
    (hrest.mono (cap_mono hk))

theorem whole (h : Reads k n ts) {r : Int} (hr : r < floor k) {us rest : List Token}
    (hus : us.map Token.bare = ts) (hc : Stops (cap k) rest) (hs : Stops r rest)
    {Q : Except Failure Node → Scan → Prop} (hQ : ∀ n', n'.bare = n → Q (.ok n') ⟨rest, none⟩) :
    Leads (parser.reading r) ⟨us ++ rest, none⟩ Q :=
  h r hr us rest hus hc Q fun n' hn => steady.leads_extending_stop hs.1 hs.2 (hQ n' hn)

theorem operand {s : CSymbol} (hs : s ∈ operandSymbols) (value : String) :
    Reads k (.leaf (.lexeme (.c s) value none)) [.lexeme (.c s) value none] := by
  have leaf : rules.prefixRule? (.c s) = some (.leaf Level.root) := by
    simp only [operandSymbols, List.mem_cons, List.not_mem_nil, or_false] at hs
    rcases hs with rfl | rfl | rfl | rfl | rfl <;> rfl
  intro r hr us rest hus hrest Q hQ
  obtain ⟨t, rfl, ht⟩ := List.map_eq_singleton_iff.mp hus
  obtain ⟨place, rfl⟩ := located_of_bare ht
  exact steady.leads_reading_leaf ⟨_, _, _, rfl⟩ leaf (hQ _ rfl)

theorem group (h : Reads 0 n ts) :
    Reads k n (CSymbol.leftParen.token :: ts ++ [CSymbol.rightParen.token]) := by
  intro r hr us rest hus hrest Q hQ
  obtain ⟨us', q, none, rfl, hus, hnone⟩ := bare_append_cons hus
  obtain ⟨p, inner, rfl, hinner⟩ := bare_cons hus
  obtain rfl := List.map_eq_nil_iff.mp hnone
  have stops (r : Int) : Stops r (tokenAt .rightParen q :: rest) := stops_closer rfl r rest
  rw [List.append_assoc, List.cons_append, List.singleton_append]
  apply steady.leads_reading ⟨_, _, _, rfl⟩
  have rule : rules.prefixRule? (.c .leftParen) = some parentheses := rfl
  apply steady.leads_start ⟨_, _, _, rfl⟩ rule
  simp only [parentheses, Parser.run_bind, Parser.run_expr, Parser.run_consume, Parser.run_pure]
  apply Leads.bind
  apply h.whole (by decide) hinner (stops _) (stops _)
  intro n' hn
  exact Leads.bind (leads_consume (Leads.pure (hQ n' hn)))

/-- An infix rule that makes a branch of its two operands. -/
theorem infixed {op : CSymbol} {rule : InfixRule} (hop : rules.infixRule? (.c op) = some rule)
    (hact : ∀ t n', n'.bare = n → parser.run parser.reading (rule.action t rule.right n') = (do
      let m ← parser.reading rule.right
      return .branch t [n', m]))
    {j j' : Nat} (left : Reads j n ts) (right : Reads j' m us) (hk : floor k ≤ rule.left)
    (hj : floor k ≤ floor j) (hcap : rule.left ≤ cap j) (hj' : rule.right < floor j')
    (hcap' : cap k ≤ cap j') (hend : cap k ≤ rule.right) :
    Reads k (.branch op.token [n, m]) (ts ++ op.token :: us) := by
  intro r hr vs rest hvs hrest Q hQ
  obtain ⟨vs, place, ws, rfl, hv, hw⟩ := bare_append_cons hvs
  rw [List.append_assoc, List.cons_append]
  apply left r (Int.lt_of_lt_of_le hr hj) vs _ hv (stops_cons hop hcap _)
  intro n' hn
  apply steady.leads_extending_step ⟨_, _, _, rfl⟩ hop (Int.lt_of_lt_of_le hr hk)
  rw [hact _ n' hn]
  apply Leads.bind
  apply right.whole hj' hw (hrest.mono hcap') (hrest.mono hend)
  intro m' hm
  apply Leads.pure
  apply hQ
  simp [Node.bare, Node.bareAll, hn, hm, Token.bare, CSymbol.token]

theorem assignment {op : CSymbol} (hop : op ∈ assignmentSymbols) (left : Reads 1 n ts)
    (right : Reads 0 m us) : Reads 0 (.branch op.token [n, m]) (ts ++ op.token :: us) := by
  have rule : rules.infixRule? (.c op) = some (.binary Level.second Level.first) := by
    simp only [assignmentSymbols, List.mem_cons, List.not_mem_nil, or_false] at hop
    rcases hop with rfl | rfl | rfl | rfl | rfl | rfl | rfl | rfl | rfl | rfl | rfl <;> rfl
  apply infixed rule _ left right (by decide) (by decide) (by decide) (by decide) (by decide) (by decide)
  intro t n' _
  simp only [InfixRule.binary, Parser.run_bind, Parser.run_expr, Parser.run_pure]

theorem conditional (test : Reads 2 n ts) (yes : Reads 0 m us) (no : Reads 1 l vs) :
    Reads 1 (.branch CSymbol.conditional.token [n, m, l])
      (ts ++ CSymbol.question.token :: us ++ CSymbol.colon.token :: vs) := by
  intro r hr ws rest hws hrest Q hQ
  obtain ⟨ws, q, zs, rfl, hws, hzs⟩ := bare_append_cons hws
  obtain ⟨xs, p, ys, rfl, hxs, hys⟩ := bare_append_cons hws
  have rule : rules.infixRule? (.c .question) = some C.conditional := rfl
  have stops (r : Int) : Stops r (tokenAt .colon q :: (zs ++ rest)) := stops_closer rfl r _
  rw [List.append_assoc, List.append_assoc, List.cons_append, List.cons_append]
  apply test r (Int.lt_of_lt_of_le hr (by decide)) xs _ hxs (stops_cons rule (by decide) _)
  intro n' hn
  apply steady.leads_extending_step ⟨_, _, _, rfl⟩ rule (Int.lt_of_lt_of_le hr (by decide))
  simp only [C.conditional, Parser.run_bind, Parser.run_expr, Parser.run_pure]
  apply Leads.bind
  apply yes.whole (by decide) hys (stops _) (stops _)
  intro m' hm
  apply Leads.bind
  apply leads_require
  apply Leads.bind
  apply no.whole (by decide) hzs hrest hrest
  intro l' hl
  apply Leads.pure
  apply hQ
  simp [Node.bare, Node.bareAll, hn, hm, hl, Token.bare, CSymbol.token]

theorem unary {op : CSymbol} (hop : op ∈ unarySymbols) (inner : Reads 12 n ts) :
    Reads 12 (.branch op.token [n]) (op.token :: ts) := by
  have rule : rules.prefixRule? (.c op) = some (.unary Level.thirteenth) := by
    simp only [unarySymbols, List.mem_cons, List.not_mem_nil, or_false] at hop
    rcases hop with rfl | rfl | rfl | rfl | rfl | rfl | rfl | rfl | rfl <;> rfl
  intro r hr us rest hus hrest Q hQ
  obtain ⟨place, vs, rfl, hvs⟩ := bare_cons hus
  apply steady.leads_reading_unary ⟨_, _, _, rfl⟩ rule
  apply inner.whole (by decide) hvs hrest hrest
  intro n' hn
  apply hQ
  simp [Node.bare, Node.bareAll, hn, Token.bare, CSymbol.token]

theorem stepped {op : CSymbol} (hop : op ∈ [CSymbol.increment, .decrement]) (left : Reads 13 n ts) :
    Reads 13 (.branch CSymbol.stepped.token [n, .leaf op.token]) (ts ++ [op.token]) := by
  have rule : rules.infixRule? (.c op) = some stepAfter := by
    simp only [List.mem_cons, List.not_mem_nil, or_false] at hop
    rcases hop with rfl | rfl <;> rfl
  intro r hr vs rest hvs hrest Q hQ
  obtain ⟨us, place, none, rfl, hus, hnone⟩ := bare_append_cons hvs
  obtain rfl := List.map_eq_nil_iff.mp hnone
  rw [List.append_assoc, List.singleton_append]
  apply left r hr us _ hus (stops_cons rule (by decide) _)
  intro n' hn
  apply steady.leads_extending_step ⟨_, _, _, rfl⟩ rule hr
  apply Leads.pure
  apply hQ
  simp [Node.bare, Node.bareAll, hn, Token.bare, CSymbol.token]

theorem index (left : Reads 13 n ts) (position : Reads 0 m us) :
    Reads 13 (.branch CSymbol.index.token [n, m])
      (ts ++ CSymbol.leftBracket.token :: us ++ [CSymbol.rightBracket.token]) := by
  intro r hr ws rest hws hrest Q hQ
  obtain ⟨front, q, none, rfl, hfront, hnone⟩ := bare_append_cons hws
  obtain rfl := List.map_eq_nil_iff.mp hnone
  obtain ⟨xs, p, ys, rfl, hxs, hys⟩ := bare_append_cons hfront
  have rule : rules.infixRule? (.c .leftBracket) = some C.index := rfl
  have stops (r : Int) : Stops r (tokenAt .rightBracket q :: rest) := stops_closer rfl r _
  rw [List.append_assoc, List.append_assoc, List.cons_append, List.singleton_append]
  apply left r hr xs _ hxs (stops_cons rule (by decide) _)
  intro n' hn
  apply steady.leads_extending_step ⟨_, _, _, rfl⟩ rule hr
  simp only [C.index, Parser.run_bind, Parser.run_expr, Parser.run_consume, Parser.run_pure]
  apply Leads.bind
  apply position.whole (by decide) hys (stops _) (stops _)
  intro m' hm
  apply Leads.bind
  apply leads_consume
  apply Leads.pure
  apply hQ
  simp [Node.bare, Node.bareAll, hn, hm, Token.bare, CSymbol.token]

theorem member {op : CSymbol} (hop : op ∈ [CSymbol.dot, .arrow]) (left : Reads 13 n ts) {name : String}
    (right : Reads 14 (.leaf (.lexeme (.c .ident) name none)) us) :
    Reads 13 (.branch op.token [n, .leaf (.lexeme (.c .ident) name none)]) (ts ++ op.token :: us) := by
  have rule : rules.infixRule? (.c op) = some C.member := by
    simp only [List.mem_cons, List.not_mem_nil, or_false] at hop
    rcases hop with rfl | rfl <;> rfl
  intro r hr ws rest hws hrest Q hQ
  obtain ⟨xs, p, ys, rfl, hxs, hys⟩ := bare_append_cons hws
  rw [List.append_assoc, List.cons_append]
  apply left r hr xs _ hxs (stops_cons rule (by decide) _)
  intro n' hn
  apply steady.leads_extending_step ⟨_, _, _, rfl⟩ rule hr
  simp only [C.member, Parser.run_bind, Parser.run_expr]
  apply Leads.bind
  apply right.whole (by decide) hys hrest hrest
  intro m' hm
  obtain ⟨place, rfl⟩ : ∃ place, m' = .leaf (.lexeme (.c .ident) name place) := by
    cases m' with
    | leaf t =>
      obtain ⟨place, rfl⟩ := located_of_bare (Node.leaf.inj hm)
      exact ⟨place, rfl⟩
    | branch t ns => cases hm
  apply Leads.bind
  apply Leads.pure
  apply Leads.pure
  apply hQ
  simp [Node.bare, Node.bareAll, hn, Token.bare, CSymbol.token]

theorem bareCall (callee : Reads 13 n ts) :
    Reads 13 (.branch CSymbol.call.token [n])
      (ts ++ [CSymbol.leftParen.token, CSymbol.rightParen.token]) := by
  intro r hr ws rest hws hrest Q hQ
  obtain ⟨xs, p, ys, rfl, hxs, hys⟩ := bare_append_cons hws
  obtain ⟨q, none, rfl, hnone⟩ := bare_cons hys
  obtain rfl := List.map_eq_nil_iff.mp hnone
  have rule : rules.infixRule? (.c .leftParen) = some C.call := rfl
  rw [List.append_assoc, List.cons_append, List.cons_append, List.nil_append]
  apply callee r hr xs _ hxs (stops_cons rule (by decide) _)
  intro n' hn
  apply steady.leads_extending_step ⟨_, _, _, rfl⟩ rule hr
  simp only [C.call, Parser.run_bind]
  apply Leads.bind
  apply leads_accept
  apply Leads.pure
  apply hQ
  simp [Node.bare, Node.bareAll, hn, Token.bare, CSymbol.token]

/-- Arguments with commas between them, up to the closing parenthesis. -/
theorem leads_elements {more : List (Node × List Token)} (argument : Reads 0 m us)
    (others : ∀ a ∈ more, Reads 0 a.1 a.2) {times : Nat} (ht : more.length < times) {ws : List Token}
    (hws : ws.map Token.bare = us ++ more.flatMap fun a => CSymbol.comma.token :: a.2)
    {q : Option Int} {rest : List Token} {Q : Except Failure (List (Outcome Node)) → Scan → Prop}
    (hQ : ∀ ns, Node.bareAll ns = m :: more.map (·.1) → Q (.ok (ns.map .ok)) ⟨rest, none⟩) :
    Leads (Parser.elements parser.reading Level.root (some CSymbol.comma.token)
      (some CSymbol.rightParen.token) times) ⟨ws ++ tokenAt .rightParen q :: rest, none⟩ Q := by
  induction more generalizing m us times ws Q with
  | nil =>
    obtain ⟨times, rfl⟩ : ∃ k, times = k + 1 := ⟨times - 1, by omega⟩
    have stops (r : Int) : Stops r (tokenAt .rightParen q :: rest) := stops_closer rfl r rest
    simp only [Parser.elements, Parser.closes, pure_bind, Bool.false_eq_true, if_false]
    apply Leads.bind
    apply Leads.outcome
    apply argument.whole (by decide) (by simpa using hws) (stops _) (stops _)
    intro n' hn
    apply Leads.bind
    apply Leads.outcome
    have other : (tokenAt .rightParen q).same CSymbol.comma.token = false := by
      simp [Token.same, CSymbol.token]
    have closing : (tokenAt .rightParen q).same CSymbol.rightParen.token = true := by
      simp [Token.same, CSymbol.token]
    apply Leads.consume_cons rfl
    simp only [other, Bool.false_eq_true, if_false, Caught, Onward, Option.any_some, closing, if_true]
    apply Leads.bind
    apply Leads.advance
    apply Leads.pure
    exact hQ [n'] (by simp [Node.bareAll, hn])
  | cons a more ih =>
    obtain ⟨times, rfl⟩ : ∃ k, times = k + 1 := ⟨times - 1, by omega⟩
    rw [List.flatMap_cons, List.cons_append] at hws
    obtain ⟨xs, p, ys, rfl, hxs, hys⟩ := bare_append_cons hws
    have stops (r : Int) : Stops r (tokenAt .comma p :: (ys ++ tokenAt .rightParen q :: rest)) :=
      stops_closer rfl r _
    rw [List.append_assoc, List.cons_append]
    simp only [Parser.elements, Parser.closes, pure_bind, Bool.false_eq_true, if_false]
    apply Leads.bind
    apply Leads.outcome
    apply argument.whole (by decide) hxs (stops _) (stops _)
    intro n' hn
    apply Leads.bind
    apply Leads.outcome
    apply leads_consume
    apply Leads.bind
    apply ih (others a (by simp)) (fun b hb => others b (by simp [hb]))
      (by simp at ht; omega) hys
    intro ns hns
    apply Leads.pure
    exact hQ (n' :: ns) (by simp [Node.bareAll, hn, hns])

private theorem length_le_flatMap (more : List (Node × List Token)) :
    more.length ≤ (more.flatMap fun a => CSymbol.comma.token :: a.2).length := by
  induction more with
  | nil => exact Nat.le_refl _
  | cons a more ih =>
    simp only [List.flatMap_cons, List.length_append, List.length_cons]
    omega

theorem call {more : List (Node × List Token)} (callee : Reads 13 n ts) (argument : Reads 0 m us)
    (hopens : Opens us) (others : ∀ a ∈ more, Reads 0 a.1 a.2) :
    Reads 13 (.branch CSymbol.call.token (n :: m :: more.map (·.1)))
      (ts ++ CSymbol.leftParen.token :: us ++ more.flatMap (fun a => CSymbol.comma.token :: a.2) ++
        [CSymbol.rightParen.token]) := by
  intro r hr ws rest hws hrest Q hQ
  obtain ⟨front, q, none, rfl, hfront, hnone⟩ := bare_append_cons hws
  obtain rfl := List.map_eq_nil_iff.mp hnone
  rw [List.append_assoc, List.cons_append] at hfront
  obtain ⟨xs, p, ys, rfl, hxs, hys⟩ := bare_append_cons hfront
  have rule : rules.infixRule? (.c .leftParen) = some C.call := rfl
  rw [List.append_assoc, List.append_assoc, List.cons_append, List.singleton_append]
  apply callee r hr xs _ hxs (stops_cons rule (by decide) _)
  intro n' hn
  apply steady.leads_extending_step ⟨_, _, _, rfl⟩ rule hr
  simp only [C.call, Parser.run_bind]
  have elements (Q : Except Failure (List (Outcome Node)) → Scan → Prop)
      (hQ : ∀ ns, Node.bareAll ns = m :: more.map (·.1) → Q (.ok (ns.map .ok)) ⟨rest, none⟩) :
      Leads (do
          Parser.elements parser.reading Level.root (some CSymbol.comma.token)
            (some CSymbol.rightParen.token) ((← room) + 1))
        ⟨ys ++ tokenAt .rightParen q :: rest, none⟩ Q := by
    apply Leads.bind
    apply Leads.room
    apply leads_elements argument others _ hys hQ
    have enough := length_le_flatMap more
    have all := congrArg List.length hys
    simp only [List.length_map, List.length_append, List.length_cons] at all ⊢
    omega
  obtain ⟨s, value, us, hs, rfl⟩ := hopens
  obtain ⟨t, ys, rfl, ht, -⟩ := List.map_eq_cons_iff.mp hys
  obtain ⟨place, rfl⟩ := located_of_bare ht
  have other : (Token.lexeme (.c s) value place).same CSymbol.rightParen.token = false := by
    have apart : ∀ s ∈ openers, s ≠ .rightParen := by decide
    simp [Token.same, CSymbol.token, apart s hs]
  apply Leads.bind
  apply leads_accept_other rfl other
  simp only [Onward, Bool.false_eq_true, if_false, Parser.run_bind, Parser.run_sequence]
  apply Leads.bind
  apply elements
  intro ns hns
  simp only [Onward, Parser.run_collect]
  apply Leads.pure
  apply hQ
  simp [Node.bare, Node.bareAll, hn, hns, Token.bare, CSymbol.token]

theorem infixRule?_leftward {i : Nat} {ops : List CSymbol} {op : CSymbol}
    (hops : leftwardSymbols[i]? = some ops) (hop : op ∈ ops) (hstar : op ≠ .star) :
    rules.infixRule? (.c op) = some (.binary (5 * (i + 4)) (5 * (i + 4))) := by
  have rows : ∀ row ∈ leftwardSymbols.zipIdx, ∀ op ∈ row.1, op ≠ .star →
      rules.infixRule? (.c op) = some (.binary (5 * (row.2 + 4)) (5 * (row.2 + 4))) := by
    simp only [leftwardSymbols, List.zipIdx_cons, List.zipIdx_nil, List.forall_mem_cons,
      List.not_mem_nil, false_implies, implies_true, and_true]
    repeat' apply And.intro
    all_goals first | exact fun h => absurd rfl h | exact fun _ => rfl
  exact rows (ops, i) (List.mk_mem_zipIdx_iff_getElem?.mpr hops) op hop hstar

/-- The operators that group to the left are the rungs between the conditional and the operators
before an operand. After a type a star would start a declarator. -/
theorem leftward {i : Nat} {ops : List CSymbol} {op : CSymbol} (hops : leftwardSymbols[i]? = some ops)
    (hop : op ∈ ops) (hn : NotType n) (left : Reads (i + 2) n ts) (right : Reads (i + 3) m us) :
    Reads (i + 2) (.branch op.token [n, m]) (ts ++ op.token :: us) := by
  by_cases hstar : op = .star
  · subst hstar
    have last : ∀ row ∈ leftwardSymbols.zipIdx, CSymbol.star ∈ row.1 → row.2 = 9 := by decide
    obtain rfl : i = 9 := last (ops, i) (List.mk_mem_zipIdx_iff_getElem?.mpr hops) hop
    have rule : rules.infixRule? (.c .star) = some starAfter := rfl
    apply infixed rule _ left right (by decide) (by decide) (by decide) (by decide) (by decide) (by decide)
    intro t n' hn'
    simp only [starAfter, Parser.run_bind, run_isType hn hn', pure_bind, Bool.false_eq_true, if_false,
      Parser.run_expr, Parser.run_pure]
  · have bound : i < 10 := (List.getElem?_eq_some_iff.mp hops).1
    have hfloor : floor (i + 2) = 5 * (i + 4) := by
      rw [floor, if_pos (by omega)]
      omega
    have hcap : cap (i + 2) = 5 * (i + 4) := by
      rw [cap, if_neg (by omega), if_neg (by omega), if_pos (by omega)]
      omega
    have above : (5 * (i + 4) : Int) < floor (i + 3) := by
      unfold floor
      repeat' split
      all_goals omega
    apply infixed (infixRule?_leftward hops hop hstar) _ left right (Int.le_of_eq hfloor)
      (Int.le_refl _) (Int.le_of_eq hcap.symm) above (cap_mono (Nat.le_succ _)) (Int.le_of_eq hcap)
    intro t n' _
    simp only [InfixRule.binary, Parser.run_bind, Parser.run_expr, Parser.run_pure]

end Reads

theorem Written.opens {k : Nat} {n : Node} {ts : List Token} (h : Written k n ts) : Opens ts := by
  have append {ts : List Token} (h : Opens ts) (us : List Token) : Opens (ts ++ us) := by
    obtain ⟨s, value, vs, hs, rfl⟩ := h
    exact ⟨s, value, vs ++ us, hs, rfl⟩
  induction h with
  | operand hs hv => exact ⟨_, _, _, by simp [openers, hs], rfl⟩
  | group _ ih => exact ⟨_, _, _, by simp [openers], rfl⟩
  | unary hk hop _ inner => exact ⟨_, _, _, by simp [openers, hop], rfl⟩
  | assignment hk hop _ _ left _ => exact append left _
  | conditional hk _ _ _ test _ _ => exact append (append test _) _
  | leftward hk hops hop _ _ left _ => exact append left _
  | stepped hk hop _ left => exact append left _
  | bareCall hk _ callee => exact append callee _
  | call hk _ _ _ callee _ _ => exact append (append (append callee _) _) _
  | index hk _ _ left _ => exact append (append left _) _
  | member hk hop _ _ left _ => exact append left _

theorem Written.notType {k : Nat} {n : Node} {ts : List Token} (h : Written k n ts) : NotType n := by
  have symbol {n : Node} {s : CSymbol} {value : String} {symbols : List CSymbol} (hs : s ∈ symbols)
      (hn : n.token = .lexeme (.c s) value none)
      (apart : ∀ s ∈ symbols, s ∉ .specifiers :: specifierSymbols ++ taggedSymbols) : NotType n :=
    ⟨s, value, hn, apart s hs⟩
  induction h with
  | operand hs hv => exact symbol hs rfl (by decide)
  | group _ ih => exact ih
  | unary hk hop _ _ => exact symbol hop rfl (by decide)
  | assignment hk hop _ _ _ _ => exact symbol hop rfl (by decide)
  | leftward hk hops hop _ _ _ _ =>
    exact symbol (List.mem_flatten.mpr ⟨_, List.mem_of_getElem? hops, hop⟩) rfl (by decide)
  | stepped hk hop _ _ => exact ⟨_, _, rfl, by decide⟩
  | conditional hk _ _ _ _ _ _ => exact ⟨_, _, rfl, by decide⟩
  | bareCall hk _ _ => exact ⟨_, _, rfl, by decide⟩
  | call hk _ _ _ _ _ _ => exact ⟨_, _, rfl, by decide⟩
  | index hk _ _ _ _ => exact ⟨_, _, rfl, by decide⟩
  | member hk hop _ _ _ _ => exact symbol hop rfl (by decide)

/-- However a tree is written, it is read. -/
theorem Written.reads {k : Nat} {n : Node} {ts : List Token} (h : Written k n ts) : Reads k n ts := by
  induction h with
  | operand hs hv => exact .operand hs _
  | group _ ih => exact .group ih
  | assignment hk hop _ _ left right => exact (Reads.assignment hop left right).mono hk
  | conditional hk _ _ _ test yes no => exact (Reads.conditional test yes no).mono hk
  | leftward hk hops hop hleft _ left right =>
    exact (Reads.leftward hops hop hleft.notType left right).mono hk
  | unary hk hop _ inner => exact (Reads.unary hop inner).mono hk
  | stepped hk hop _ left => exact (Reads.stepped hop left).mono hk
  | bareCall hk _ callee => exact (Reads.bareCall callee).mono hk
  | call hk _ hargument _ callee argument others =>
    exact (Reads.call callee argument hargument.opens others).mono hk
  | index hk _ _ left position => exact (Reads.index left position).mono hk
  | member hk hop _ _ left right => exact (Reads.member hop left right).mono hk

/-- The symbols that expressions are written with. -/
def writtenSymbols : List CSymbol := assignmentSymbols ++ leftwardSymbols.flatten ++ unarySymbols ++ [
  .question, .colon, .leftParen, .rightParen, .comma, .leftBracket, .rightBracket, .dot, .arrow]

theorem writable_token {s : CSymbol} (h : s ∈ writtenSymbols) : Writable s.token := by
  have each : ∀ s ∈ writtenSymbols, IsLexeme s s.spelling := by decide +kernel
  exact ⟨s, s.spelling, rfl, each s h⟩

theorem Written.writable {k : Nat} {n : Node} {ts : List Token} (h : Written k n ts) :
    ∀ t ∈ ts, Writable t := by
  have fixed {s : CSymbol} (h : s ∈ [CSymbol.question, .colon, .leftParen, .rightParen, .comma,
      .leftBracket, .rightBracket, .dot, .arrow]) : Writable s.token :=
    writable_token (List.mem_append_right _ h)
  induction h with
  | operand hs hv =>
    simp only [List.forall_mem_singleton]
    exact ⟨_, _, rfl, hv⟩
  | group _ ih =>
    simp only [List.cons_append, List.forall_mem_cons, List.forall_mem_append]
    exact ⟨fixed (by simp), ih, fixed (by simp), List.forall_mem_nil _⟩
  | assignment hk hop _ _ left right =>
    simp only [List.forall_mem_cons, List.forall_mem_append]
    exact ⟨left, writable_token (by simp [writtenSymbols, hop]), right⟩
  | conditional hk _ _ _ test yes no =>
    simp only [List.append_assoc, List.cons_append, List.forall_mem_cons, List.forall_mem_append]
    exact ⟨test, fixed (by simp), yes, fixed (by simp), no⟩
  | leftward hk hops hop _ _ left right =>
    simp only [List.forall_mem_cons, List.forall_mem_append]
    have member := List.mem_flatten.mpr ⟨_, List.mem_of_getElem? hops, hop⟩
    have written := List.mem_append_left unarySymbols (List.mem_append_right assignmentSymbols member)
    exact ⟨left, writable_token (List.mem_append_left _ written), right⟩
  | unary hk hop _ inner =>
    simp only [List.forall_mem_cons]
    exact ⟨writable_token (by simp [writtenSymbols, hop]), inner⟩
  | stepped hk hop _ left =>
    have steps : ∀ s ∈ [CSymbol.increment, .decrement], s ∈ unarySymbols := by decide
    simp only [List.forall_mem_cons, List.forall_mem_append]
    exact ⟨left, writable_token (by simp [writtenSymbols, steps _ hop]), List.forall_mem_nil _⟩
  | bareCall hk _ callee =>
    simp only [List.forall_mem_cons, List.forall_mem_append]
    exact ⟨callee, fixed (by simp), fixed (by simp), List.forall_mem_nil _⟩
  | call hk _ _ _ callee argument others =>
    simp only [List.append_assoc, List.cons_append, List.forall_mem_cons, List.forall_mem_append,
      List.mem_flatMap]
    refine ⟨callee, fixed (by simp), argument, ?_, fixed (by simp), List.forall_mem_nil _⟩
    rintro t ⟨a, ha, ht⟩
    rcases List.mem_cons.mp ht with rfl | ht
    · exact fixed (by simp)
    · exact others a ha t ht
  | index hk _ _ left position =>
    simp only [List.append_assoc, List.cons_append, List.forall_mem_cons, List.forall_mem_append]
    exact ⟨left, fixed (by simp), position, fixed (by simp), List.forall_mem_nil _⟩
  | member hk hop _ _ left right =>
    simp only [List.forall_mem_cons, List.forall_mem_append]
    exact ⟨left, writable_token (by simp [writtenSymbols, hop]), right⟩

/-- A program that is one expression statement. -/
theorem leads_program {n : Node} {ts us : List Token} (h : Reads 0 n ts) (hopens : Opens ts)
    (hus : us.map Token.bare = ts) (place : Option Int) :
    Leads (parser.run parser.reading program) ⟨us ++ [tokenAt .semicolon place], none⟩ fun answer _ =>
      ∃ n', n'.bare = n ∧ answer = .ok [n'] := by
  have stops (r : Int) : Stops r [tokenAt .semicolon place] := stops_closer rfl r []
  obtain ⟨s, value, vs, hs, rfl⟩ := hopens
  obtain ⟨t, us, rfl, ht, -⟩ := List.map_eq_cons_iff.mp hus
  obtain ⟨start, rfl⟩ := located_of_bare ht
  have keyword : among statementSymbols (.c s) = false := by
    have apart : ∀ s ∈ openers, s ∉ statementSymbols := by decide
    exact among_eq_false_iff.mpr (apart s hs)
  have statement (Q : Except Failure Node → Scan → Prop)
      (hQ : ∀ n', n'.bare = n → Q (.ok n') ⟨[], none⟩) :
      Leads (parser.run parser.reading (statement false))
        ⟨.lexeme (.c s) value start :: us ++ [tokenAt .semicolon place], none⟩ Q := by
    rw [run_statement]
    apply Leads.bind
    apply Leads.peek_cons rfl
    apply Leads.bind
    apply Leads.pure
    simp only [Onward, keyword, statementOf, Bool.false_eq_true, if_false, Parser.run_bind,
      Parser.run_expr, Parser.run_peek]
    apply Leads.bind
    apply h.whole (by decide) hus (stops _) (stops _)
    intro n' hn
    apply Leads.bind
    apply Leads.peek_cons rfl
    simp only [Option.isSome_some, Onward, if_true, Parser.run_bind]
    apply Leads.bind
    apply leads_require
    apply Leads.pure
    exact hQ n' hn
  rw [program, Parser.run_repeated]
  apply Leads.bind
  apply Leads.room
  simp only [List.length_append, List.length_cons, Onward, Parser.rounds, Parser.run_bind, Parser.run_peek]
  apply Leads.bind
  apply Leads.bind
  apply Leads.peek_cons rfl
  simp only [Onward, Parser.run_bind]
  apply Leads.bind
  apply statement
  intro n' hn
  apply Leads.pure
  apply Leads.bind
  apply Leads.bind
  apply Leads.bind
  apply Leads.peek
  apply Leads.pure
  apply Leads.pure
  apply Leads.pure
  exact ⟨n', hn, rfl⟩

/-- However an expression is written out, with blanks between its tokens and a semicolon after them,
its text is parsed to that expression. -/
theorem parse_written {n : Node} {ts : List Token} (h : Written 0 n ts) {s front back : List Char}
    (hs : Spells ts s) (hfront : Blank front) (hback : Blank back) :
    ∃ ns, Grammar.c.parse (String.ofList (front ++ s ++ ';' :: back)) none = .ok ns ∧
      Node.bareAll ns = [n] := by
  have semicolon : IsLexeme .semicolon ";" := by decide +kernel
  have ends : Ends (';' :: back) := by
    rintro c ⟨⟩
    exact .inr rfl
  obtain ⟨us, k, hus, hscan⟩ := hs.scanAt h.writable ends front.length
  have last : ScanRule.scanAt lexemes k (';' :: back) =
      ⟨[tokenAt .semicolon (some k)], none⟩ := by
    have mark := scanAt_lexeme semicolon (ends_of_blank hback (.inr ends_nil)) k
    have after := scanAt_blanks hback [] (k + ";".toList.length)
    rw [after, List.append_nil] at mark
    exact mark
  have scan : ScanRule.scan lexemes (String.ofList (front ++ s ++ ';' :: back)) =
      ⟨us ++ [tokenAt .semicolon (some k)], none⟩ := by
    change ScanRule.scanAt lexemes 0 (String.ofList (front ++ s ++ ';' :: back)).toList = _
    rw [String.toList_ofList, List.append_assoc,
      scanAt_blanks hfront, Nat.zero_add, hscan, last]
  have done := (leads_program h.reads h.opens hus (some k)).holds
    (Grammar.c.start (String.ofList (front ++ s ++ ';' :: back))) scan
  rw [← Parser.perform_eq] at done
  obtain ⟨n', hn, parsed⟩ := done
  exact ⟨[n'], parsed, by rw [Node.bareAll, hn]; rfl⟩

theorem parse_written_negated_sum :
    ∃ ns, Grammar.c.parse "- ( a + 1 ) ;" none = .ok ns ∧
      Node.bareAll ns = [.branch CSymbol.minus.token [.branch CSymbol.plus.token
        [.leaf (.lexeme (.c .ident) "a" none), .leaf (.lexeme (.c .intConst) "1" none)]]] := by
  have a : IsLexeme .ident "a" := by decide +kernel
  have one : IsLexeme .intConst "1" := by decide +kernel
  have plus : CSymbol.plus ∈ [CSymbol.plus, .minus] := by decide
  have minus : CSymbol.minus ∈ unarySymbols := by decide
  have sum := Written.leftward (Nat.zero_le _) (i := 8) rfl plus
    (.operand (by decide) a) (.operand (by decide) one)
  have negated := Written.unary (Nat.zero_le 12) minus (.group sum)
  have gap : Blank [' '] := List.forall_mem_singleton.mpr rfl
  have hne : [' '] ≠ [] := List.cons_ne_nil _ _
  obtain ⟨ns, parsed, hns⟩ := parse_written negated
    (.more gap hne (.more gap hne (.more gap hne (.more gap hne (.more gap hne (.last gap))))))
    (List.forall_mem_nil _) (List.forall_mem_nil _)
  refine ⟨ns, Eq.trans (congrArg (Grammar.c.parse · none) ?_) parsed, hns⟩
  decide +kernel

end BindingPower.C
