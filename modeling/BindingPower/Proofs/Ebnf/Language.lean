import BindingPower.Proofs.Ebnf

/-! The language of rule definitions. Sequences of marked terms, alternatives of sequences and entries
of alternatives: what the parser makes of entries that are all ended is that language, with the tree of
the derivation. -/
namespace BindingPower.Ebnf
open ParseM

/-- The tree of terms side by side: a single one stands for itself. -/
def sideBySide : List Node → Node
  | [n] => n
  | ns => .branch (EbnfSymbol.marker .sequence) ns

/-- The tree of a term with a mark after it. A count joins a repetition; other marks enclose the term. -/
def marked (n : Node) (mark : Token) : Node :=
  if mark.kind = .ebnf .question then .branch (EbnfSymbol.marker .optional) [n]
  else
    match n with
    | .branch t ns =>
      if t.kind = .ebnf .repeats ∧ mark.kind = .ebnf .number then .branch t (ns ++ [.leaf mark])
      else .branch (EbnfSymbol.marker .repeats) [n, .leaf mark]
    | .leaf _ => .branch (EbnfSymbol.marker .repeats) [n, .leaf mark]

/-- The symbols of one-token elements. -/
def elements : List EbnfSymbol := [.ident, .string]

/-- The symbols of marks. -/
def marks : List EbnfSymbol := [.star, .plus, .number, .question]

/-- The phrases of rule definitions, loosest first. -/
inductive Stratum
  | entry | alternatives | sequence | term
  deriving DecidableEq, Repr

/-- Entries and alternatives group to the left, terms stand side by side in any number but none, and
any number of marks follow an element. -/
inductive Derives : Stratum → List Token → Node → Prop
  | element {s : EbnfSymbol} {t : Token} (hs : s ∈ elements) (ht : t.kind = .ebnf s) :
    Derives .term [t] (.leaf t)
  | group {left right : Token} {ts : List Token} {n : Node} (hl : left.kind = .ebnf .leftBracket)
    (hr : right.kind = .ebnf .rightBracket) (inner : Derives .alternatives ts n) :
    Derives .term (left :: ts ++ [right]) (.branch (EbnfSymbol.marker .group) [n])
  | mark {s : EbnfSymbol} {t : Token} {ts : List Token} {n : Node} (hs : s ∈ marks)
    (ht : t.kind = .ebnf s) (h : Derives .term ts n) : Derives .term (ts ++ [t]) (marked n t)
  | sequence {terms : List (List Token × Node)} (hne : terms ≠ [])
    (h : ∀ x ∈ terms, Derives .term x.1 x.2) :
    Derives .sequence (terms.flatMap Prod.fst) (sideBySide (terms.map Prod.snd))
  | single {ts : List Token} {n : Node} (h : Derives .sequence ts n) : Derives .alternatives ts n
  | choice {t : Token} {ts us : List Token} {n m : Node} (ht : t.kind = .ebnf .bar)
    (h : Derives .alternatives ts n) (next : Derives .sequence us m) :
    Derives .alternatives (ts ++ t :: us) (.branch t [n, m])
  | plain {ts : List Token} {n : Node} (h : Derives .alternatives ts n) : Derives .entry ts n
  | rule {t : Token} {ts us : List Token} {n m : Node} (ht : t.kind = .ebnf .colon)
    (h : Derives .entry ts n) (next : Derives .alternatives us m) :
    Derives .entry (ts ++ t :: us) (.branch (EbnfSymbol.marker .rule) [n, m])

/-- Entries, each ended by a semicolon, and their trees. -/
inductive Entries : List Token → List Node → Prop
  | nil : Entries [] []
  | cons {t : Token} {ts us : List Token} {n : Node} {ns : List Node} (h : Derives .entry ts n)
    (ht : t.kind = .ebnf .semicolon) (rest : Entries us ns) : Entries (ts ++ t :: us) (n :: ns)

/-- What is read of tokens: entries with semicolons between them and their trees, but not a last entry that
breaks off. -/
inductive Readable : List Token → List (List Token × Node) → Prop
  | unended {ts : List Token} (h : Unseparated ts) (off : ts = [] ∨ breaksOff ts = true) : Readable ts []
  | last {ts : List Token} {n : Node} (h : Derives .entry ts n) : Readable ts [(ts, n)]
  | cons {t : Token} {ts us : List Token} {n : Node} {entries : List (List Token × Node)}
    (h : Derives .entry ts n) (ht : t.kind = .ebnf .semicolon) (rest : Readable us entries) :
    Readable (ts ++ t :: us) ((ts, n) :: entries)

section Trees

/-- A tree that the rules for sequences take as one item. -/
def Item (n : Node) : Prop := isBranch n .sequence = pure false

variable {t : Token} {s : EbnfSymbol} {n m : Node} {ns : List Node}

theorem kindOf_eq (ht : t.kind = .ebnf s) : Action.kindOf t = pure (.ebnf s) := by
  cases t with
  | lexeme kind value place => exact congrArg Action.give ht
  | word text => cases ht
  | absent => cases ht

theorem item_branch (ht : t.kind = .ebnf s) (hs : s ≠ .sequence) (ns : List Node) :
    Item (.branch t ns) := by
  have other : (Kind.ebnf s == Kind.ebnf EbnfSymbol.sequence) = false := by simpa using hs
  rw [Item, isBranch, kindOf_eq ht]
  exact congrArg Action.give other

theorem item_marked (n : Node) (t : Token) : Item (marked n t) := by
  unfold marked
  split
  · exact item_branch rfl (by decide) _
  · split
    · split
      · rename_i h
        exact item_branch h.1 (by decide) _
      · exact item_branch rfl (by decide) _
    · exact item_branch rfl (by decide) _

theorem Derives.item {ts : List Token} (h : Derives .term ts n) : Item n := by
  cases h with
  | element => rfl
  | group => rfl
  | mark => exact item_marked _ _

theorem extendSequence_sideBySide (hne : ns ≠ []) (hns : ∀ m ∈ ns, Item m) (n : Node) :
    extendSequence (sideBySide ns) n = pure (sideBySide (ns ++ [n])) := by
  obtain ⟨m, ns, rfl⟩ := List.exists_cons_of_ne_nil hne
  cases ns with
  | nil =>
    have single : isBranch m .sequence = pure false := hns m List.mem_cons_self
    rw [extendSequence, sideBySide, single]
    rfl
  | cons k ns => rfl

theorem sideBySide_concat (hne : ns ≠ []) (n : Node) :
    sideBySide (ns ++ [n]) = .branch (EbnfSymbol.marker .sequence) (ns ++ [n]) := by
  obtain ⟨m, ns, rfl⟩ := List.exists_cons_of_ne_nil hne
  cases ns <;> rfl

theorem onLast_sideBySide (hn : Item n) (ns : List Node) (mark : Node → Action Node) :
    onLast (sideBySide (ns ++ [n])) mark = mark n >>= fun m => pure (sideBySide (ns ++ [m])) := by
  cases ns with
  | nil =>
    have single : isBranch n .sequence = pure false := hn
    have alone : (fun m => pure (sideBySide ([] ++ [m])) : Node → Action Node) = pure := rfl
    rw [alone, bind_pure, onLast, List.nil_append, sideBySide, single]
    rfl
  | cons m ns =>
    have found (k : Node) : isBranch (.branch (EbnfSymbol.marker .sequence) (m :: ns ++ [k])) .sequence =
        pure true := rfl
    simp only [sideBySide_concat (List.cons_ne_nil m ns), onLast, found, pure_bind, if_true,
      Node.children?, Option.getD_some, List.getLast?_concat, List.dropLast_concat, Node.token]

theorem Item.kindOf {ns : List Node} (h : Item (.branch t ns)) : Action.kindOf t = pure t.kind := by
  cases t with
  | lexeme kind value place => rfl
  | word text =>
    have h : Action.fail (.defect (.noKind (.word text))) = Action.give false := h
    cases h
  | absent =>
    have h : Action.fail (.defect (.noKind .absent)) = Action.give false := h
    cases h

theorem repeatMark_eq (hn : Item n) (ht : t.kind = .ebnf s) (hs : s ≠ .question) :
    repeatMark t n = pure (marked n t) := by
  have other : t.kind ≠ .ebnf .question := by simpa [ht] using hs
  cases n with
  | leaf u =>
    rw [repeatMark, kindOf_eq ht, marked, if_neg other]
    simp only [pure_bind, isBranch, Bool.false_eq_true, if_false, ite_self]
  | branch u ns =>
    rw [repeatMark, kindOf_eq ht, marked, if_neg other]
    simp only [pure_bind, isBranch, hn.kindOf, Node.withChild?, beq_iff_eq, ht]
    by_cases number : s = .number <;> by_cases again : u.kind = .ebnf .repeats <;>
      simp [number, again]

/-- What the rule of a mark makes of a sequence. -/
theorem mark_rule (hs : s ∈ marks) (ht : t.kind = .ebnf s) :
    ∃ rule, rules.infixRule? t.kind = some rule ∧ rule.left = Level.fourth ∧
      ∀ ns n, Item n → rule.action t rule.right (sideBySide (ns ++ [n])) =
        pure (sideBySide (ns ++ [marked n t])) := by
  have repeats (hs : s ≠ .question) (ns : List Node) (n : Node) (hn : Item n) :
      repetition.action t repetition.right (sideBySide (ns ++ [n])) =
        pure (sideBySide (ns ++ [marked n t])) := by
    simp only [repetition, onLast_sideBySide hn, repeatMark_eq hn ht hs, pure_bind]
  simp only [marks, List.mem_cons, List.not_mem_nil, or_false] at hs
  rcases hs with rfl | rfl | rfl | rfl <;> rw [ht]
  · exact ⟨_, rfl, rfl, repeats (by decide)⟩
  · exact ⟨_, rfl, rfl, repeats (by decide)⟩
  · exact ⟨_, rfl, rfl, repeats (by decide)⟩
  · refine ⟨_, rfl, rfl, fun ns n hn => ?_⟩
    simp only [option, onLast_sideBySide hn, pure_bind, marked, ht, if_true]

end Trees

namespace Stratum

/-- Thresholds below this one read a phrase of a stratum whole. -/
def floor : Stratum → Int
  | entry => Level.first
  | alternatives => Level.second
  | _ => Level.third

/-- What follows a phrase of a stratum may bind as tightly as this. -/
def cap : Stratum → Int
  | entry => Level.first
  | alternatives => Level.second
  | _ => Level.fourth

end Stratum

/-- A token as it is scanned: there is one spelling of each punctuation mark. -/
structure Scanned (t : Token) : Prop where
  present : t.present? = some t
  spelled : ∀ x ∈ EbnfSymbol.punctuation, t.kind = .ebnf x.2 →
    t.same (.lexeme (.ebnf x.2) x.1 none) = true

variable {Q : Except Failure Node → Scan → Prop} {r : Int} {t : Token} {ts : List Token}
  {fault : Option ParseError} {front : List Node} {n : Node}

/-- Going on with the terms that have been built, or starting where there are none yet. -/
def going (r : Int) (front : List Node) : ParseM Node :=
  if front = [] then parser.reading r else parser.extending r (sideBySide front)

theorem going_cons (r : Int) (n : Node) (ns : List Node) :
    going r (n :: ns) = parser.extending r (sideBySide (n :: ns)) := if_neg (List.cons_ne_nil n ns)

theorem going_concat (r : Int) (ns : List Node) (n : Node) :
    going r (ns ++ [n]) = parser.extending r (sideBySide (ns ++ [n])) := if_neg (by simp)

section Steps

/-- One more term after those that have been built. -/
theorem leads_element {s : EbnfSymbol} (hs : s ∈ elements) (ht : t.kind = .ebnf s)
    (hp : t.present? = some t) (hr : r < Level.third) (hf : ∀ m ∈ front, Item m)
    (h : Leads (going r (front ++ [.leaf t])) ⟨ts, fault⟩ Q) :
    Leads (going r front) ⟨t :: ts, fault⟩ Q := by
  have starts : rules.prefixRule? t.kind = some (.leaf Level.root) := by
    rw [ht]
    simp only [elements, List.mem_cons, List.not_mem_nil, or_false] at hs
    rcases hs with rfl | rfl <;> rfl
  have continues : rules.infixRule? t.kind = some juxtaposition := by
    rw [ht]
    simp only [elements, List.mem_cons, List.not_mem_nil, or_false] at hs
    rcases hs with rfl | rfl <;> rfl
  cases front with
  | nil => exact steady.leads_reading_leaf hp starts h
  | cons m ms =>
    rw [going_concat] at h
    rw [going_cons]
    refine steady.leads_extending_step hp continues hr ?_
    simp only [juxtaposition, extendSequence_sideBySide (List.cons_ne_nil m ms) hf]
    exact Leads.pure h

/-- A bracket opens one more term. -/
theorem leads_bracket (ht : t.kind = .ebnf .leftBracket) (hp : t.present? = some t)
    (hr : r < Level.third) (hf : ∀ m ∈ front, Item m)
    (h : Leads (parser.run parser.reading group) ⟨ts, fault⟩
      (Onward (fun m => going r (front ++ [m])) Q)) :
    Leads (going r front) ⟨t :: ts, fault⟩ Q := by
  have starts : rules.prefixRule? t.kind = some ⟨Level.root, fun _ _ => group⟩ := by
    rw [ht]
    rfl
  have continues : rules.infixRule? t.kind = some groupAfter := by
    rw [ht]
    rfl
  cases front with
  | nil => exact steady.leads_reading hp (steady.leads_start hp starts h)
  | cons m ms =>
    rw [going_cons]
    refine steady.leads_extending_step hp continues hr ?_
    simp only [groupAfter, Parser.run_bind, extendSequence_sideBySide (List.cons_ne_nil m ms) hf]
    refine Leads.bind (h.mono ?_)
    rintro (e | k) j hj
    · exact hj
    · simp only [Onward, going_concat] at hj
      exact Leads.pure hj

/-- A mark after the last term. -/
theorem leads_mark {s : EbnfSymbol} (hs : s ∈ marks) (ht : t.kind = .ebnf s)
    (hp : t.present? = some t) (hr : r < Level.fourth) (hn : Item n)
    (h : Leads (parser.extending r (sideBySide (front ++ [marked n t]))) ⟨ts, fault⟩ Q) :
    Leads (parser.extending r (sideBySide (front ++ [n]))) ⟨t :: ts, fault⟩ Q := by
  obtain ⟨rule, continues, power, makes⟩ := mark_rule hs ht
  refine steady.leads_extending_step hp continues (power ▸ hr) ?_
  rw [makes front n hn]
  exact Leads.pure h

theorem leads_bar (ht : t.kind = .ebnf .bar) (hp : t.present? = some t) (hr : r < Level.second)
    (h : Leads (parser.reading Level.second) ⟨ts, fault⟩
      (Onward (fun m => parser.extending r (.branch t [n, m])) Q)) :
    Leads (parser.extending r n) ⟨t :: ts, fault⟩ Q := by
  have continues : rules.infixRule? t.kind = some (.binary Level.second Level.second) := by
    rw [ht]
    rfl
  exact steady.leads_extending_binary hp continues hr h

theorem leads_colon (ht : t.kind = .ebnf .colon) (hp : t.present? = some t) (hr : r < Level.first)
    (h : Leads (parser.reading Level.first) ⟨ts, fault⟩
      (Onward (fun m => parser.extending r (.branch (EbnfSymbol.marker .rule) [n, m])) Q)) :
    Leads (parser.extending r n) ⟨t :: ts, fault⟩ Q := by
  have continues : rules.infixRule? t.kind = some definition := by
    rw [ht]
    rfl
  refine steady.leads_extending_step hp continues hr ?_
  simp only [definition, Parser.run_bind, Parser.run_expr]
  refine Leads.bind (h.mono ?_)
  rintro (e | m) j hj
  · exact hj
  · exact Leads.pure hj

end Steps

/-- No rule takes what stands before the tokens at a threshold. -/
abbrev Stops (r : Int) (ts : List Token) : Prop := rules.StopsAt Token.kind r ts

theorem stops_fourth (ts : List Token) : Stops Level.fourth ts := by
  rintro t - rule hr
  have powers : ∀ entry ∈ rules.infixRules, entry.2.left ≤ Level.fourth := by decide
  exact powers _ (mem_of_infixRule? hr)

theorem stops_closer {s : EbnfSymbol} (hs : s ∈ [EbnfSymbol.rightBracket, .semicolon])
    (ht : t.kind = .ebnf s) (r : Int) (ts : List Token) : Stops r (t :: ts) := by
  have none : rules.infixRule? t.kind = .none := by
    rw [ht]
    simp only [List.mem_cons, List.not_mem_nil, or_false] at hs
    rcases hs with rfl | rfl <;> rfl
  rintro t ⟨⟩ rule hr
  exact nomatch none.symm.trans hr

theorem stops_bar (ht : t.kind = .ebnf .bar) (ts : List Token) : Stops Level.second (t :: ts) := by
  rintro t ⟨⟩ rule hr
  rw [ht] at hr
  obtain rfl := Option.some.inj hr
  exact Int.le_refl _

theorem stops_colon (ht : t.kind = .ebnf .colon) (ts : List Token) : Stops Level.first (t :: ts) := by
  rintro t ⟨⟩ rule hr
  rw [ht] at hr
  obtain rfl := Option.some.inj hr
  exact Int.le_refl _

theorem Stops.mono {r' : Int} (h : Stops r ts) (hr : r ≤ r') : Stops r' ts :=
  fun t ht rule hrule => Int.le_trans (h t ht rule hrule) hr

section Complete

/-- Reading a phrase comes to where its tree has been built, whatever follows that does not bind tighter
than its stratum bears. A term is read after any others. -/
def Stratum.Reads (σ : Stratum) (ts : List Token) (n : Node) : Prop :=
  ∀ (front : List Node) (r : Int) (rest : List Token) (Q : Except Failure Node → Scan → Prop),
    (if σ = .term then ∀ m ∈ front, Item m else front = []) → r < σ.floor →
    (∀ t ∈ ts ++ rest, Scanned t) → Stops σ.cap rest →
    Leads (going r (front ++ [n])) ⟨rest, none⟩ Q → Leads (going r front) ⟨ts ++ rest, none⟩ Q

theorem head_present {ts : List Token} (h : ∀ t ∈ ts, Scanned t) : ∀ t ∈ ts.head?, t.present? = some t :=
  fun t ht => (h t (List.mem_of_mem_head? ht)).present

/-- Terms one after the other. -/
theorem leads_terms {terms : List (List Token × Node)} (hd : ∀ x ∈ terms, Derives .term x.1 x.2)
    (h : ∀ x ∈ terms, Stratum.term.Reads x.1 x.2) (hf : ∀ m ∈ front, Item m) (hr : r < Level.third)
    {rest : List Token} (hs : ∀ t ∈ terms.flatMap Prod.fst ++ rest, Scanned t)
    (hQ : Leads (going r (front ++ terms.map Prod.snd)) ⟨rest, none⟩ Q) :
    Leads (going r front) ⟨terms.flatMap Prod.fst ++ rest, none⟩ Q := by
  induction terms generalizing front with
  | nil => simpa using hQ
  | cons x terms ih =>
    obtain ⟨ts, n⟩ := x
    rw [List.flatMap_cons, List.append_assoc] at hs ⊢
    have first := hd _ List.mem_cons_self
    refine h _ List.mem_cons_self front r _ Q hf hr hs (stops_fourth _) (ih ?_ ?_ ?_ ?_ ?_)
    · exact fun x hx => hd x (List.mem_cons_of_mem _ hx)
    · exact fun x hx => h x (List.mem_cons_of_mem _ hx)
    · intro m hm
      rcases List.mem_append.mp hm with hm | hm
      · exact hf m hm
      · exact List.mem_singleton.mp hm ▸ first.item
    · exact fun t ht => hs t (List.mem_append_right ts ht)
    · simpa using hQ

theorem Derives.reads {σ : Stratum} (h : Derives σ ts n) : σ.Reads ts n := by
  induction h with
  | element hs ht =>
    intro front r rest Q hf hr scanned _ hQ
    exact leads_element hs ht (scanned _ List.mem_cons_self).present hr hf hQ
  | @group left right ts n hl hrt inner ih =>
    intro front r rest Q hf hr scanned _ hQ
    rw [List.cons_append, List.cons_append, List.append_assoc, List.singleton_append] at scanned ⊢
    have later : ∀ t ∈ ts ++ right :: rest, Scanned t := fun t h => scanned t (List.mem_cons_of_mem _ h)
    have closing : Scanned right := later right (by simp)
    have closes (r : Int) : Stops r (right :: rest) := stops_closer (by decide) hrt r rest
    refine leads_bracket hl (scanned _ List.mem_cons_self).present hr hf ?_
    simp only [Ebnf.group, Parser.run_bind, Parser.run_expr, Parser.run_consume, Parser.run_pure]
    refine Leads.bind (ih [] Level.first _ _ rfl (by decide) later (closes _) ?_)
    refine steady.leads_extending_stop (head_present fun t h => later t (List.mem_append_right ts h))
      (closes _) ?_
    refine Leads.bind (Leads.consume_cons closing.present ?_)
    rw [rightBracket, if_pos (closing.spelled ("]", .rightBracket) (by decide) hrt)]
    exact Leads.pure hQ
  | @mark s t ts n hs ht h ih =>
    intro front r rest Q hf hr scanned _ hQ
    rw [List.append_assoc, List.singleton_append] at scanned ⊢
    refine ih front r _ Q hf hr scanned (stops_fourth _) ?_
    rw [going_concat] at hQ ⊢
    exact leads_mark hs ht (scanned t (by simp)).present (Int.lt_trans hr (by decide)) h.item hQ
  | @sequence terms hne hd ih =>
    intro front r rest Q hf hr scanned _ hQ
    obtain rfl : front = [] := hf
    refine leads_terms hd ih (fun m hm => by cases hm) hr scanned ?_
    obtain ⟨x, terms, rfl⟩ := List.exists_cons_of_ne_nil hne
    exact hQ
  | single h ih =>
    intro front r rest Q hf hr scanned _ hQ
    exact ih front r rest Q hf (Int.lt_trans hr (by decide)) scanned (stops_fourth rest) hQ
  | @choice t ts us n m ht h next ih ihn =>
    intro front r rest Q hf hr scanned stops hQ
    obtain rfl : front = [] := hf
    rw [List.append_assoc, List.cons_append] at scanned ⊢
    have later : ∀ u ∈ us ++ rest, Scanned u := fun u hu =>
      scanned u (List.mem_append_right ts (List.mem_cons_of_mem _ hu))
    refine ih [] r _ Q rfl hr scanned (stops_bar ht _) ?_
    refine leads_bar ht (scanned t (by simp)).present hr ?_
    refine ihn [] Level.second rest _ rfl (by decide) later (stops_fourth rest) ?_
    exact steady.leads_extending_stop (head_present fun u hu => later u (List.mem_append_right us hu))
      stops hQ
  | plain h ih =>
    intro front r rest Q hf hr scanned stops hQ
    exact ih front r rest Q hf (Int.lt_trans hr (by decide)) scanned (stops.mono (by decide)) hQ
  | @rule t ts us n m ht h next ih ihn =>
    intro front r rest Q hf hr scanned stops hQ
    obtain rfl : front = [] := hf
    rw [List.append_assoc, List.cons_append] at scanned ⊢
    have later : ∀ u ∈ us ++ rest, Scanned u := fun u hu =>
      scanned u (List.mem_append_right ts (List.mem_cons_of_mem _ hu))
    refine ih [] r _ Q rfl hr scanned (stops_colon ht _) ?_
    refine leads_colon ht (scanned t (by simp)).present hr ?_
    refine ihn [] Level.first rest _ rfl (by decide) later (stops.mono (by decide)) ?_
    exact steady.leads_extending_stop (head_present fun u hu => later u (List.mem_append_right us hu))
      stops hQ

/-- Entries that are all ended are read one after the other. -/
theorem Entries.leads_elements {ns : List Node} (h : Entries ts ns) (times : Nat)
    (hk : ts.length < times) (hs : ∀ t ∈ ts, Scanned t) :
    Leads (Parser.elements parser.reading Level.root (some semicolon) none times) ⟨ts, none⟩
      fun answer _ => answer = .ok (ns.map .ok) := by
  induction h generalizing times with
  | nil =>
    obtain ⟨times, rfl⟩ : ∃ k, times = k + 1 := ⟨times - 1, by simp at hk; omega⟩
    simp only [Parser.elements, Parser.closes, pure_bind, Bool.false_eq_true, if_false]
    exact Leads.bind (Leads.outcome (steady.leads_reading_nil (Leads.pure rfl)))
  | @cons t ts us n ns h ht rest ih =>
    obtain ⟨times, rfl⟩ : ∃ k, times = k + 1 := ⟨times - 1, by omega⟩
    have scanned : Scanned t := hs t (by simp)
    have stops : Stops Level.root (t :: us) := stops_closer (by decide) ht _ us
    rw [List.length_append, List.length_cons] at hk
    simp only [Parser.elements, Parser.closes, pure_bind, Bool.false_eq_true, if_false]
    refine Leads.bind (Leads.outcome ?_)
    refine h.reads [] Level.root (t :: us) _ rfl (by decide) hs (stops.mono (by decide)) ?_
    refine steady.leads_extending_stop (head_present fun u hu => hs u (List.mem_append_right ts hu)) stops ?_
    refine Leads.bind (Leads.outcome (Leads.consume_cons scanned.present ?_))
    rw [semicolon, if_pos (scanned.spelled (";", .semicolon) (by decide) ht)]
    refine Leads.bind ((ih times (by omega) fun u hu => hs u (by simp [hu])).mono ?_)
    rintro _ j rfl
    exact Leads.pure rfl

theorem Entries.leads_program {ns : List Node} (h : Entries ts ns) (hs : ∀ t ∈ ts, Scanned t) :
    Leads (parser.run parser.reading program) ⟨ts, none⟩ fun answer _ => answer = .ok ns := by
  simp only [program, Parser.run_bind, Parser.run_sequence]
  refine Leads.bind (Leads.bind (Leads.room ((h.leads_elements _ (Nat.lt_succ_self _) hs).mono ?_)))
  rintro _ j rfl
  simp only [Onward, Parser.run_collect]
  exact Leads.pure rfl

end Complete

section Sound

theorem starts_cases {rule : PrefixRule} (h : rules.prefixRule? t.kind = some rule) :
    (∃ s ∈ elements, t.kind = .ebnf s) ∨ t.kind = .ebnf .leftBracket := by
  have member := mem_of_prefixRule? h
  simp only [rules, Grammar.each, List.map_cons, List.map_nil, List.cons_append, List.nil_append,
    List.mem_cons, Prod.mk.injEq, List.not_mem_nil, or_false] at member
  obtain ⟨ht, -⟩ | ⟨ht, -⟩ | ⟨ht, -⟩ := member
  · exact .inl ⟨_, by decide, ht⟩
  · exact .inl ⟨_, by decide, ht⟩
  · exact .inr ht

/-- How the tokens of rule definitions continue an expression. -/
inductive Continues (t : Token) (power : Int) : Prop
  | colon (ht : t.kind = .ebnf .colon) (hp : power = Level.first)
  | bar (ht : t.kind = .ebnf .bar) (hp : power = Level.second)
  | element (s : EbnfSymbol) (hs : s ∈ elements) (ht : t.kind = .ebnf s) (hp : power = Level.third)
  | bracket (ht : t.kind = .ebnf .leftBracket) (hp : power = Level.third)
  | mark (s : EbnfSymbol) (hs : s ∈ marks) (ht : t.kind = .ebnf s) (hp : power = Level.fourth)

theorem continues_of_infixRule? {rule : InfixRule} (h : rules.infixRule? t.kind = some rule) :
    Continues t rule.left := by
  have member := mem_of_infixRule? h
  simp only [rules, Grammar.each, List.map_cons, List.map_nil, List.cons_append, List.nil_append,
    List.mem_cons, Prod.mk.injEq, List.not_mem_nil, or_false] at member
  obtain ⟨ht, rfl⟩ | ⟨ht, rfl⟩ | ⟨ht, rfl⟩ | ⟨ht, rfl⟩ | ⟨ht, rfl⟩ | ⟨ht, rfl⟩ | ⟨ht, rfl⟩ | ⟨ht, rfl⟩ |
    ⟨ht, rfl⟩ := member
  · exact .colon ht rfl
  · exact .bar ht rfl
  · exact .mark _ (by decide) ht rfl
  · exact .mark _ (by decide) ht rfl
  · exact .mark _ (by decide) ht rfl
  · exact .mark _ (by decide) ht rfl
  · exact .element _ (by decide) ht rfl
  · exact .element _ (by decide) ht rfl
  · exact .bracket ht rfl

/-- A sequence has a last term. -/
theorem Derives.exists_last {vs : List Token} {left : Node} (h : Derives .sequence vs left) :
    ∃ (terms : List (List Token × Node)) (ws : List Token) (n : Node),
      vs = terms.flatMap Prod.fst ++ ws ∧ left = sideBySide (terms.map Prod.snd ++ [n]) ∧
      (∀ x ∈ terms, Derives .term x.1 x.2) ∧ Derives .term ws n := by
  cases h with
  | @sequence terms hne h =>
    obtain ⟨front, ⟨ws, n⟩, rfl⟩ : ∃ front x, terms = front ++ [x] :=
      ⟨_, _, (List.dropLast_concat_getLast hne).symm⟩
    refine ⟨front, ws, n, by simp, by simp, fun x hx => h x (List.mem_append_left _ hx), ?_⟩
    exact h (ws, n) (by simp)

theorem terms_concat {terms : List (List Token × Node)} (h : ∀ x ∈ terms, Derives .term x.1 x.2)
    {ws : List Token} (hn : Derives .term ws n) : ∀ x ∈ terms ++ [(ws, n)], Derives .term x.1 x.2 := by
  intro x hx
  rcases List.mem_append.mp hx with hx | hx
  · exact h x hx
  · exact List.mem_singleton.mp hx ▸ hn

theorem items_of_terms {terms : List (List Token × Node)} (h : ∀ x ∈ terms, Derives .term x.1 x.2)
    {ws : List Token} (hn : Derives .term ws n) : ∀ m ∈ terms.map Prod.snd ++ [n], Item m := by
  intro m hm
  rcases List.mem_append.mp hm with hm | hm
  · obtain ⟨x, hx, rfl⟩ := List.mem_map.mp hm
    exact (h x hx).item
  · exact List.mem_singleton.mp hm ▸ hn.item

theorem Derives.concat {terms : List (List Token × Node)} (h : ∀ x ∈ terms, Derives .term x.1 x.2)
    {ws : List Token} (hn : Derives .term ws n) :
    Derives .sequence (terms.flatMap Prod.fst ++ ws) (sideBySide (terms.map Prod.snd ++ [n])) := by
  simpa using Derives.sequence (by simp) (terms_concat h hn)

theorem Derives.alone (h : Derives .term ts n) : Derives .sequence ts n := by
  have none : ∀ x ∈ ([] : List (List Token × Node)), Derives .term x.1 x.2 := fun x hx => by cases hx
  exact Derives.concat none h

theorem Derives.entry_of {σ : Stratum} (h : Derives σ ts n) (hσ : σ ≠ .term) : Derives .entry ts n := by
  cases σ with
  | entry => exact h
  | alternatives => exact h.plain
  | sequence => exact h.single.plain
  | term => exact absurd rfl hσ

theorem Derives.alternatives_of {σ : Stratum} (h : Derives σ ts n) (hσ : σ ≠ .term)
    (hr : Level.first < σ.floor) : Derives .alternatives ts n := by
  cases σ with
  | entry => exact absurd hr (by decide)
  | alternatives => exact h
  | sequence => exact h.single
  | term => exact absurd rfl hσ

theorem Derives.sequence_of {σ : Stratum} (h : Derives σ ts n) (hσ : σ ≠ .term)
    (hr : Level.second < σ.floor) : Derives .sequence ts n := by
  cases σ with
  | entry => exact absurd hr (by decide)
  | alternatives => exact absurd hr (by decide)
  | sequence => exact h
  | term => exact absurd rfl hσ

theorem eq_sequence_of_third_le {σ : Stratum} (hσ : σ ≠ .term) (h : Level.third ≤ σ.cap) :
    σ = .sequence := by
  cases σ with
  | entry => exact absurd h (by decide)
  | alternatives => exact absurd h (by decide)
  | sequence => rfl
  | term => exact absurd rfl hσ

/-- What is read at a threshold: a phrase of a stratum that the threshold reads whole. -/
def Phrased (r : Int) (ts : List Token) (n : Node) (j : Scan) : Prop :=
  ∃ σ us rest, ts = us ++ rest ∧ j = ⟨rest, none⟩ ∧ Derives σ us n ∧ σ ≠ .term ∧ r < σ.floor ∧
    Stops r rest

/-- Fewer than `k` tokens are read as phrases at thresholds below that of terms. -/
def SoundBelow (k : Nat) : Prop :=
  ∀ (us : List Token) (r : Int), us.length < k → (∀ u ∈ us, u.present? = some u) → r < Level.third →
    Leads (parser.reading r) ⟨us, none⟩ (Orderly (Phrased r us))

/-- A group is a term that its bracket opens. -/
theorem group_sound {k : Nat} (ih : SoundBelow k) (ht : t.kind = .ebnf .leftBracket)
    (hk : ts.length < k) (hp : ∀ u ∈ ts, u.present? = some u) :
    Leads (parser.run parser.reading group) ⟨ts, none⟩ (Orderly fun n j =>
      ∃ us rest, ts = us ++ rest ∧ j = ⟨rest, none⟩ ∧ Derives .term (t :: us) n) := by
  simp only [group, Parser.run_bind, Parser.run_expr, Parser.run_consume, Parser.run_pure]
  refine Leads.bind ((ih ts Level.first hk hp (by decide)).onward ?_)
  rintro n _ ⟨σ, us, rest, rfl, rfl, hd, hσ, hr, -⟩
  refine Leads.bind ?_
  cases rest with
  | nil => exact Leads.consume_nil trivial
  | cons u rest =>
    refine Leads.consume_cons (hp u (by simp)) ?_
    split
    · rename_i same
      have closes : u.kind = .ebnf .rightBracket := Kind.same_ebnf_iff.mp (Token.kind_same same)
      exact Leads.pure ⟨us ++ [u], rest, by simp, rfl, .group ht closes (hd.alternatives_of hσ hr)⟩
    · trivial

/-- A phrase that the threshold reads whole is extended to one, if fewer than `m` tokens come after it. -/
def ExtendsBelow (r : Int) (m : Nat) : Prop :=
  ∀ (us vs : List Token) (σ : Stratum) (left : Node), us.length < m → (∀ u ∈ us, u.present? = some u) →
    Derives σ vs left → σ ≠ .term → r < σ.floor → Stops σ.cap us →
      Leads (parser.extending r left) ⟨us, none⟩ (Orderly (Phrased r (vs ++ us)))

/-- An operand after a colon or a bar, and what may be read after it. -/
theorem ExtendsBelow.operand {k m : Nat} (more : ExtendsBelow r m) (ih : SoundBelow k) {us vs : List Token}
    (hk : us.length < k) (hm : us.length < m) (hp : ∀ u ∈ us, u.present? = some u) {q : Int}
    (hq : q < Level.third) {build : Node → Node} (τ : Stratum) (hτ : τ ≠ .term) (hr : r < τ.floor)
    (hcap : τ.cap = q) (phrase : ∀ σ ws n, Derives σ ws n → σ ≠ .term → q < σ.floor →
      Derives τ (vs ++ t :: ws) (build n)) :
    Leads (parser.reading q) ⟨us, none⟩
      (Onward (fun n => parser.extending r (build n)) (Orderly (Phrased r (vs ++ t :: us)))) := by
  refine (ih us q hk hp hq).onward ?_
  rintro n _ ⟨σ, ws, rest, rfl, rfl, hd, hσ, hf, hs⟩
  have tokens : vs ++ t :: (ws ++ rest) = (vs ++ t :: ws) ++ rest := by simp
  rw [List.length_append] at hm
  rw [tokens]
  exact more rest (vs ++ t :: ws) τ (build n) (by omega) (fun u hu => hp u (List.mem_append_right ws hu))
    (phrase σ ws n hd hσ hf) hτ hr (hcap ▸ hs)

/-- Another term after some, or the last one with one more mark. -/
theorem ExtendsBelow.grown {m : Nat} (more : ExtendsBelow r m) (hr : r < Level.third)
    {all ws rest : List Token} (front : List (List Token × Node)) (hn : Derives .term ws n)
    (hfront : ∀ x ∈ front, Derives .term x.1 x.2) (hm : rest.length < m)
    (hp : ∀ u ∈ rest, u.present? = some u) (tokens : all = (front.flatMap Prod.fst ++ ws) ++ rest) :
    Leads (parser.extending r (sideBySide (front.map Prod.snd ++ [n]))) ⟨rest, none⟩
      (Orderly (Phrased r all)) := by
  rw [tokens]
  exact more rest _ .sequence _ hm hp (.concat hfront hn) (by decide) hr (stops_fourth rest)

theorem extendsBelow {k : Nat} (ih : SoundBelow k) (hr : r < Level.third) (m : Nat) (hk : m ≤ k + 1) :
    ExtendsBelow r m := by
  induction m with
  | zero => exact fun us _ _ _ hm => absurd hm (Nat.not_lt_zero _)
  | succ m more =>
    intro us vs σ left hm hp hd hσ hf hs
    have more := more (by omega)
    by_cases stops : Stops r us
    · exact steady.leads_extending_stop (fun u hu => hp u (List.mem_of_mem_head? hu)) stops
        ⟨σ, vs, us, rfl, rfl, hd, hσ, hf, stops⟩
    · cases us with
      | nil => exact absurd (fun t h => by simp at h) stops
      | cons t us =>
        obtain ⟨rule, hrule, hl⟩ : ∃ rule, rules.infixRule? t.kind = some rule ∧ r < rule.left := by
          simpa [RuleTable.StopsAt] using stops
        have bound : rule.left ≤ σ.cap := hs t rfl rule hrule
        have present := hp t List.mem_cons_self
        have later : ∀ u ∈ us, u.present? = some u := fun u hu => hp u (List.mem_cons_of_mem t hu)
        have fewer : us.length < m := Nat.lt_of_succ_lt_succ hm
        have short : us.length < k := by omega
        cases continues_of_infixRule? hrule with
        | colon ht power =>
          rw [power] at hl
          exact leads_colon ht present hl (more.operand ih short fewer later (by decide) .entry (by decide)
            hl rfl fun σ' ws n h hσ' hf' => .rule ht (hd.entry_of hσ) (h.alternatives_of hσ' hf'))
        | bar ht power =>
          rw [power] at hl bound
          have low : Level.first < σ.floor := by
            cases σ <;> first | exact absurd bound (by decide) | decide
          exact leads_bar ht present hl (more.operand ih short fewer later (by decide) .alternatives
            (by decide) hl rfl
            fun σ' ws n h hσ' hf' => .choice ht (hd.alternatives_of hσ low) (h.sequence_of hσ' hf'))
        | element s hs' ht power =>
          rw [power] at bound
          obtain rfl := eq_sequence_of_third_le hσ bound
          obtain ⟨terms, ws, n, rfl, rfl, hterms, hn⟩ := hd.exists_last
          rw [← going_concat]
          refine leads_element hs' ht present hr (items_of_terms hterms hn) ?_
          rw [going_concat]
          have next := more.grown hr (terms ++ [(ws, n)]) (.element hs' ht) (terms_concat hterms hn) fewer
            later rfl
          simpa using next
        | bracket ht power =>
          rw [power] at bound
          obtain rfl := eq_sequence_of_third_le hσ bound
          obtain ⟨terms, ws, n, rfl, rfl, hterms, hn⟩ := hd.exists_last
          rw [← going_concat]
          refine leads_bracket ht present hr (items_of_terms hterms hn) ?_
          refine (group_sound ih ht short later).onward ?_
          rintro n' _ ⟨xs, rest, rfl, rfl, hn'⟩
          rw [List.length_append] at fewer
          have next := more.grown hr (terms ++ [(ws, n)]) hn' (terms_concat hterms hn) (by omega)
            (fun u hu => later u (List.mem_append_right xs hu)) rfl
          rw [going_concat]
          simpa using next
        | mark s hs' ht power =>
          rw [power] at bound
          obtain rfl := eq_sequence_of_third_le hσ (Int.le_trans (by decide) bound)
          obtain ⟨terms, ws, n, rfl, rfl, hterms, hn⟩ := hd.exists_last
          exact leads_mark hs' ht present (Int.lt_trans hr (by decide)) hn.item
            (more.grown hr terms (.mark hs' ht hn) hterms fewer later (by simp))

theorem reading_sound (k : Nat) : SoundBelow k := by
  induction k with
  | zero => exact fun us r hk => absurd hk (Nat.not_lt_zero _)
  | succ k ih =>
    intro us r hk hp hr
    cases us with
    | nil => exact steady.leads_reading_nil trivial
    | cons t us =>
      have present := hp t List.mem_cons_self
      have later : ∀ u ∈ us, u.present? = some u := fun u hu => hp u (List.mem_cons_of_mem t hu)
      have short : us.length < k := Nat.lt_of_succ_lt_succ hk
      -- What follows the first term of a sequence.
      have begun {ws rest : List Token} {n : Node} (hn : Derives .term ws n)
          (hrest : ∀ u ∈ rest, u.present? = some u) (hlen : rest.length ≤ us.length) :
          Leads (parser.extending r n) ⟨rest, none⟩ (Orderly (Phrased r (ws ++ rest))) :=
        extendsBelow ih hr (k + 1) (Nat.le_refl _) rest ws .sequence n (by omega) hrest hn.alone
          (by decide) hr (stops_fourth rest)
      cases hrule : rules.prefixRule? t.kind with
      | none => exact steady.leads_reading present (steady.leads_start_missing present hrule trivial)
      | some rule =>
        rcases starts_cases hrule with ⟨s, hs, ht⟩ | ht
        · change Leads (going r []) _ _
          exact leads_element hs ht present hr (fun m hm => by cases hm)
            (begun (.element hs ht) later (Nat.le_refl _))
        · change Leads (going r []) _ _
          refine leads_bracket ht present hr (fun m hm => by cases hm) ?_
          refine (group_sound ih ht short later).onward ?_
          rintro n _ ⟨ws, rest, rfl, rfl, hn⟩
          exact begun hn (fun u hu => later u (List.mem_append_right ws hu)) (by simp)

/-- Tokens that are empty or end with a semicolon. -/
def Ended (ts : List Token) : Prop := ∀ t ∈ ts.getLast?, t.kind = .ebnf .semicolon

theorem Ended.eq_nil (he : Ended ts) (h : Unseparated ts) : ts = [] := by
  cases hl : ts.getLast? with
  | none => exact List.getLast?_eq_none_iff.mp hl
  | some t =>
    have other := h t (List.mem_of_getLast? hl)
    simp [he t hl] at other

theorem Ended.of_append {us : List Token} (h : Ended (us ++ t :: ts)) : Ended ts := by
  intro u hu
  refine h u ?_
  have last : ts.getLast? = some u := hu
  simp [List.getLast?_append, List.getLast?_cons, last]

/-- The symbols of what may stand on one side of a colon. -/
def phraseSymbols : List EbnfSymbol := elements ++ marks ++ [.leftBracket, .rightBracket, .bar]

/-- Colons stand between the parts of an entry and nowhere else. -/
theorem Derives.symbols {σ : Stratum} (h : Derives σ ts n) {t : Token} (ht : t ∈ ts) :
    (∃ s ∈ phraseSymbols, t.kind = .ebnf s) ∨ (t.kind = .ebnf .colon ∧ σ = .entry) := by
  induction h with
  | @element s u hs hu =>
    obtain rfl := List.mem_singleton.mp ht
    exact .inl ⟨s, by simp [phraseSymbols, hs], hu⟩
  | group hl hr inner ih =>
    simp only [List.cons_append, List.mem_cons, List.mem_append, List.not_mem_nil, or_false] at ht
    rcases ht with rfl | ht | rfl
    · exact .inl ⟨_, by decide, hl⟩
    · exact .inl ((ih ht).resolve_right fun h => by cases h.2)
    · exact .inl ⟨_, by decide, hr⟩
  | @mark s u ts n hs hu h ih =>
    rcases List.mem_append.mp ht with ht | ht
    · exact .inl ((ih ht).resolve_right fun h => by cases h.2)
    · obtain rfl := List.mem_singleton.mp ht
      exact .inl ⟨s, by simp [phraseSymbols, hs], hu⟩
  | sequence hne h ih =>
    obtain ⟨x, hx, ht⟩ := List.mem_flatMap.mp ht
    exact .inl ((ih x hx ht).resolve_right fun h => by cases h.2)
  | single h ih => exact .inl ((ih ht).resolve_right fun h => by cases h.2)
  | choice hb h next ih ihn =>
    rcases List.mem_append.mp ht with ht | ht
    · exact .inl ((ih ht).resolve_right fun h => by cases h.2)
    · rcases List.mem_cons.mp ht with rfl | ht
      · exact .inl ⟨_, by decide, hb⟩
      · exact .inl ((ihn ht).resolve_right fun h => by cases h.2)
  | plain h ih => exact .inl ((ih ht).resolve_right fun h => by cases h.2)
  | rule hc h next ih ihn =>
    rcases List.mem_append.mp ht with ht | ht
    · exact ih ht
    · rcases List.mem_cons.mp ht with rfl | ht
      · exact .inr ⟨hc, rfl⟩
      · exact .inl ((ihn ht).resolve_right fun h => by cases h.2)

theorem Derives.unseparated {σ : Stratum} (h : Derives σ ts n) : Unseparated ts := by
  intro t ht
  have others : ∀ s ∈ phraseSymbols, s ≠ .semicolon := by decide
  rcases h.symbols ht with ⟨s, hs, kind⟩ | ⟨kind, -⟩
  · simp [oneOf_of_kind kind, others s hs]
  · simp [oneOf_of_kind kind]

theorem Derives.ne_nil {σ : Stratum} (h : Derives σ ts n) : ts ≠ [] := by
  induction h with
  | element | group | mark => simp
  | sequence hne h ih =>
    obtain ⟨x, terms, rfl⟩ := List.exists_cons_of_ne_nil hne
    simp [ih x List.mem_cons_self]
  | choice | rule => simp
  | single _ ih | plain _ ih => exact ih

theorem Readable.entries {entries : List (List Token × Node)} (h : Readable ts entries) (he : Ended ts) :
    Entries ts (entries.map Prod.snd) := by
  induction h with
  | unended unseparated off =>
    obtain rfl := he.eq_nil unseparated
    exact .nil
  | last h => exact absurd (he.eq_nil h.unseparated) h.ne_nil
  | cons h ht rest ih => exact .cons h ht (ih he.of_append)

/-- What is read without an error. -/
theorem elements_sound (times : Nat) {ts : List Token} (hp : (⟨ts, none⟩ : Scan).Plain)
    (hk : ts.length < times) :
    Leads (Parser.elements parser.reading Level.root (some semicolon) none times) ⟨ts, none⟩
      (Orderly fun outcomes _ => ∀ ns : List Node, outcomes = ns.map .ok →
        ∃ entries, Readable ts entries ∧ entries.map Prod.snd = ns) := by
  induction times generalizing ts with
  | zero => exact absurd hk (Nat.not_lt_zero _)
  | succ times ih =>
    simp only [Parser.elements, Parser.closes, pure_bind, Bool.false_eq_true, if_false]
    have sound := reading_sound (ts.length + 1) ts Level.root (Nat.lt_succ_self _) hp.present (by decide)
    have account := reading (ts.length + 1) ⟨ts, none⟩ Level.root hp (Nat.lt_succ_self _)
    refine Leads.bind (Leads.outcome ((sound.and account).mono ?_))
    rintro ((e | d) | n) j ⟨hj, ha⟩
    · refine Leads.pure ?_
      by_cases exhausted : e = .incomplete
      · subst exhausted
        obtain ⟨-, unseparated, off⟩ := ha rfl
        rintro (_ | ⟨n, ns⟩) h
        · exact ⟨[], .unended unseparated off, rfl⟩
        · cases h
      · rintro (_ | ⟨n, ns⟩) h <;> cases e <;> first | exact absurd rfl exhausted | cases h
    · exact hj
    · obtain ⟨σ, us, rest, rfl, rfl, hd, hσ, -, -⟩ := hj
      cases rest with
      | nil =>
        refine Leads.bind (Leads.outcome (Leads.consume_nil (Leads.pure ?_)))
        rintro (_ | ⟨m, _ | ⟨m', ns⟩⟩) h <;> cases h
        rw [List.append_nil]
        exact ⟨[(us, n)], .last (hd.entry_of hσ), rfl⟩
      | cons t rest =>
        refine Leads.bind (Leads.outcome (Leads.consume_cons (hp.present t (by simp)) ?_))
        split
        · rename_i same
          have separates : t.kind = .ebnf .semicolon := Kind.same_ebnf_iff.mp (Token.kind_same same)
          have plain : (⟨rest, none⟩ : Scan).Plain := hp.suffix (us ++ [t]) (by simp) rfl
          rw [List.length_append, List.length_cons] at hk
          refine Leads.bind ((ih plain (by omega)).onward ?_)
          intro outcomes j hj
          refine Leads.pure ?_
          rintro (_ | ⟨m, ns⟩) h
          · cases h
          · obtain ⟨hm, rfl⟩ := List.cons.inj h
            obtain rfl := Except.ok.inj hm
            obtain ⟨entries, readable, rfl⟩ := hj ns rfl
            exact ⟨(us, n) :: entries, .cons (hd.entry_of hσ) separates readable, rfl⟩
        · refine Leads.pure ?_
          rintro (_ | ⟨m, _ | ⟨m', ns⟩⟩) h <;> cases h

theorem program_readable {ts : List Token} (hp : (⟨ts, none⟩ : Scan).Plain) :
    Leads (parser.run parser.reading program) ⟨ts, none⟩
      (Orderly fun ns _ => ∃ entries, Readable ts entries ∧ entries.map Prod.snd = ns) := by
  simp only [program, Parser.run_bind, Parser.run_sequence]
  refine Leads.bind (Leads.bind (Leads.room ((elements_sound _ hp (Nat.lt_succ_self _)).onward ?_)))
  intro outcomes j hj
  rcases parser.run_collect_cases parser.reading outcomes with ⟨ns, rfl⟩ | ⟨c, failed⟩
  · rw [Parser.run_collect]
    exact Leads.pure (hj ns rfl)
  · rw [failed]
    exact Leads.raise trivial

/-- What is read of ended tokens are entries, to the last token. -/
theorem program_sound {ts : List Token} (hp : (⟨ts, none⟩ : Scan).Plain) (he : Ended ts) :
    Leads (parser.run parser.reading program) ⟨ts, none⟩ (Orderly fun ns _ => Entries ts ns) := by
  refine (program_readable hp).mono ?_
  rintro ((e | d) | ns) j hj
  · trivial
  · exact hj
  · obtain ⟨entries, readable, rfl⟩ := hj
    exact readable.entries he

end Sound

theorem mem_punctuation_of_markKind {value : String} {s : EbnfSymbol}
    (h : markKind value = .ebnf s) : (value, s) ∈ EbnfSymbol.punctuation := by
  unfold markKind at h
  cases found : EbnfSymbol.punctuation.lookup value with
  | none =>
    rw [found] at h
    cases h
  | some s' =>
    rw [found] at h
    cases h
    obtain ⟨front, back, split, -⟩ := List.lookup_eq_some_iff.mp found
    rw [split]
    simp

/-- The punctuation of a scanned text is spelled as it has to be. -/
theorem scanned_of_mem_scan {text : String} (h : t ∈ (ScanRule.scan lexemes text).tokens) : Scanned t := by
  refine ⟨(ScanRule.plain_scan lexemes text).present t h, ?_⟩
  obtain ⟨rule, member, value, place, made⟩ := ScanRule.rule_of_mem_scanFrom h
  rintro ⟨text, s⟩ hx ht
  have unmarked : ∀ x ∈ EbnfSymbol.punctuation, x.2 ≠ .string ∧ x.2 ≠ .number ∧ x.2 ≠ .ident := by
    decide
  have other := unmarked _ hx
  simp only [lexemes, List.mem_cons, List.not_mem_nil, or_false] at member
  rcases member with rfl | rfl | rfl | rfl | rfl <;> cases made
  · cases ht
    exact absurd rfl other.1
  · cases ht
    exact absurd rfl other.2.1
  · cases ht
    exact absurd rfl other.2.2
  · have found : (value, s) ∈ EbnfSymbol.punctuation := mem_punctuation_of_markKind ht
    have one_spelling : ∀ x ∈ EbnfSymbol.punctuation, ∀ y ∈ EbnfSymbol.punctuation, x.2 = y.2 →
        x.1 = y.1 := by decide
    obtain rfl : value = text := one_spelling _ found _ hx rfl
    have kind : markKind value = .ebnf s := ht
    simp [Token.same, kind]

/-- Of a text whose entries are all ended, parsing answers with trees exactly if its tokens are entries
with these trees, and with an error of the input if they are not. -/
theorem parse_iff_entries {text : String} (scanned : (ScanRule.scan lexemes text).fault = none)
    (ended : ∀ t ∈ (ScanRule.scan lexemes text).tokens.getLast?, t.kind = .ebnf .semicolon) :
    (∀ ns, Grammar.ebnf.parse text none = .ok ns ↔ Entries (ScanRule.scan lexemes text).tokens ns) ∧
    ((∃ ns, Entries (ScanRule.scan lexemes text).tokens ns) ∨
      ∃ e, Grammar.ebnf.parse text none = .error (.error e)) := by
  have start : (Grammar.ebnf.start text).input = ⟨(ScanRule.scan lexemes text).tokens, none⟩ := by
    rw [← scanned]
    rfl
  have plain : (⟨(ScanRule.scan lexemes text).tokens, none⟩ : Scan).Plain := by
    rw [← scanned]
    exact ScanRule.plain_scan lexemes text
  have sound := (program_sound plain ended).holds _ start
  rw [← Parser.perform_eq] at sound
  have parsed : Grammar.ebnf.parse text none = (parser.perform program (Grammar.ebnf.start text)).1 := rfl
  refine ⟨fun ns => ⟨fun h => ?_, fun h => ?_⟩, ?_⟩
  · rw [← parsed, h] at sound
    exact sound
  · have complete := (h.leads_program fun t ht => scanned_of_mem_scan ht).holds _ start
    rw [← Parser.perform_eq] at complete
    exact complete
  · rcases h : Grammar.ebnf.parse text none with (e | d) | ns
    · exact .inr ⟨e, rfl⟩
    · rw [← parsed, h] at sound
      exact sound.elim
    · rw [← parsed, h] at sound
      exact .inl ⟨ns, sound⟩

/-- A rule with a counted repetition in a sequence and an optional group beside it. -/
theorem parse_iff_entries_counted :
    let text := "a : b c * 3 | [ 'd' ] ? ;"
    let leaf (s : EbnfSymbol) (value : String) (place : Int) : Node :=
      .leaf (.lexeme (.ebnf s) value (some place))
    let several : Node := .branch (EbnfSymbol.marker .sequence) [leaf .ident "b" 4,
      .branch (EbnfSymbol.marker .repeats) [leaf .ident "c" 6, leaf .star "*" 8, leaf .number "3" 10]]
    let perhaps : Node := .branch (EbnfSymbol.marker .optional)
      [.branch (EbnfSymbol.marker .group) [leaf .string "'d'" 16]]
    let n : Node := .branch (EbnfSymbol.marker .rule)
      [leaf .ident "a" 0, .branch (.lexeme (.ebnf .bar) "|" (some 12)) [several, perhaps]]
    (ScanRule.scan lexemes text).fault = none ∧
    (∀ t ∈ (ScanRule.scan lexemes text).tokens.getLast?, t.kind = .ebnf .semicolon) ∧
    Grammar.ebnf.parse text none = .ok [n] ∧ Entries (ScanRule.scan lexemes text).tokens [n] := by
  intro text leaf several perhaps n
  have scanned : (ScanRule.scan lexemes text).fault = none := by decide +kernel
  have ended : ∀ t ∈ (ScanRule.scan lexemes text).tokens.getLast?, t.kind = .ebnf .semicolon := by
    decide +kernel
  have parsed : Grammar.ebnf.parse text none = .ok [n] := by decide +kernel
  exact ⟨scanned, ended, parsed, ((parse_iff_entries scanned ended).1 _).mp parsed⟩

end BindingPower.Ebnf
