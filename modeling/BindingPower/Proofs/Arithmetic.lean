import BindingPower.Grammar.Arithmetic
import BindingPower.Proofs.Arithmetic.Words
import BindingPower.Proofs.Input
import BindingPower.Proofs.Table

/-! The language of arithmetic. Sums of products of signed powers, in strata from the loosest to
the tightest: what the parser accepts is that language, with the tree of the derivation. -/
namespace BindingPower.Arithmetic

/-- The strata of arithmetic, loosest first. -/
inductive Stratum
  | sum | product | signed | power | atom
  deriving DecidableEq, Repr

/-- A word of ASCII letters and digits. -/
abbrev IsOperand (text : String) : Prop := text.toList.all Char.isAlphanum = true

/-- Sums and products group to the left, powers to the right, and a sign may stand before the
operand of a product and on the right of a power. Parentheses leave no trace in the tree. -/
inductive Derives : Stratum → List Token → Node → Prop
  | operand {w : String} (h : IsOperand w) : Derives .atom [.word w] (.leaf (.word w))
  | group {ts : List Token} {n : Node} (inner : Derives .sum ts n) :
    Derives .atom (.word "(" :: ts ++ [.word ")"]) n
  | base {ts : List Token} {n : Node} (h : Derives .atom ts n) : Derives .power ts n
  | raised {ts us : List Token} {n m : Node} (h : Derives .atom ts n) (exponent : Derives .signed us m) :
    Derives .power (ts ++ .word "^" :: us) (.branch (.word "^") [n, m])
  | plain {ts : List Token} {n : Node} (h : Derives .power ts n) : Derives .signed ts n
  | negated {ts : List Token} {n : Node} (h : Derives .signed ts n) :
    Derives .signed (.word "-" :: ts) (.branch (.word "-") [n])
  | factor {ts : List Token} {n : Node} (h : Derives .signed ts n) : Derives .product ts n
  | times {op : String} {ts us : List Token} {n m : Node} (hop : op ∈ ["*", "/", "%"])
    (h : Derives .product ts n) (next : Derives .signed us m) :
    Derives .product (ts ++ .word op :: us) (.branch (.word op) [n, m])
  | term {ts : List Token} {n : Node} (h : Derives .product ts n) : Derives .sum ts n
  | plus {op : String} {ts us : List Token} {n m : Node} (hop : op ∈ ["+", "-"])
    (h : Derives .sum ts n) (next : Derives .product us m) :
    Derives .sum (ts ++ .word op :: us) (.branch (.word op) [n, m])

/-- What a word is dispatched on. -/
def kindOf : Token → Kind
  | .word text => .text (classifyText text)
  | t => t.kind

def IsWord (t : Token) : Prop := ∃ text, t = .word text

theorem steady : (Grammar.arithmetic.parser none).Steady kindOf IsWord where
  unlimited := rfl
  classified := by
    rintro asked t ⟨text, rfl⟩
    rfl
  present := by
    rintro t ⟨text, rfl⟩
    rfl

theorem classifyText_of_isOperand {w : String} (h : IsOperand w) :
    classifyText w = "number" ∨ classifyText w = "ident" := by
  unfold classifyText
  split
  · exact .inl rfl
  · exact .inr rfl

theorem classifyText_of_not_isOperand {w : String} (h : ¬ IsOperand w) : classifyText w = w :=
  classifyText_of_symbol fun word => h (List.all_eq_true.mpr word)

/-- How the tokens of arithmetic continue an expression. -/
inductive Continues : String → InfixRule → Prop
  | plus {op : String} (h : op ∈ ["+", "-"]) : Continues op (.binary Level.first Level.first)
  | times {op : String} (h : op ∈ ["*", "/", "%"]) : Continues op (.binary Level.second Level.second)
  | raised : Continues "^" (.binary Level.fourth Level.third)

/-- How the tokens of arithmetic start an expression. -/
inductive Starts : String → PrefixRule → Prop
  | operand {w : String} (h : IsOperand w) : Starts w (.leaf Level.root)
  | group : Starts "(" parentheses
  | negated : Starts "-" (.unary Level.third)

private theorem eq_of_classifyText {w text : String} (h : classifyText w = text)
    (hn : text ≠ "number") (hi : text ≠ "ident") : w = text := by
  by_cases hw : IsOperand w
  · rcases classifyText_of_isOperand hw with hc | hc
    · exact absurd (h.symm.trans hc) hn
    · exact absurd (h.symm.trans hc) hi
  · rw [← h, classifyText_of_not_isOperand hw]

private theorem isOperand_of_classifyText {w : String}
    (h : classifyText w = "number" ∨ classifyText w = "ident") : IsOperand w := by
  refine Decidable.byContradiction fun hw => ?_
  rw [classifyText_of_not_isOperand hw] at h
  rcases h with rfl | rfl <;> exact hw (by decide)

theorem continues_of_infixRule? {w : String} {rule : InfixRule}
    (h : rules.infixRule? (kindOf (.word w)) = some rule) : Continues w rule := by
  obtain ⟨k, same, member⟩ := Kind.exists_mem_of_lookup h
  simp only [rules, Grammar.each, List.map_cons, List.map_nil, List.cons_append, List.nil_append,
    List.mem_cons, Prod.mk.injEq, List.not_mem_nil, or_false] at member
  obtain ⟨rfl, rfl⟩ | ⟨rfl, rfl⟩ | ⟨rfl, rfl⟩ | ⟨rfl, rfl⟩ | ⟨rfl, rfl⟩ | ⟨rfl, rfl⟩ := member <;>
    rw [eq_of_classifyText (Kind.same_text_iff.mp same) (by decide) (by decide)]
  · exact .plus (by decide)
  · exact .plus (by decide)
  · exact .times (by decide)
  · exact .times (by decide)
  · exact .times (by decide)
  · exact .raised

theorem starts_of_prefixRule? {w : String} {rule : PrefixRule}
    (h : rules.prefixRule? (kindOf (.word w)) = some rule) : Starts w rule := by
  obtain ⟨k, same, member⟩ := Kind.exists_mem_of_lookup h
  simp only [rules, Grammar.each, List.map_cons, List.map_nil, List.cons_append, List.nil_append,
    List.mem_cons, Prod.mk.injEq, List.not_mem_nil, or_false] at member
  obtain ⟨rfl, rfl⟩ | ⟨rfl, rfl⟩ | ⟨rfl, rfl⟩ | ⟨rfl, rfl⟩ := member <;>
    have hw : classifyText w = _ := Kind.same_text_iff.mp same
  · exact .operand (isOperand_of_classifyText (.inr hw))
  · exact .operand (isOperand_of_classifyText (.inl hw))
  · rw [eq_of_classifyText hw (by decide) (by decide)]
    exact .group
  · rw [eq_of_classifyText hw (by decide) (by decide)]
    exact .negated

theorem Continues.infixRule? {w : String} {rule : InfixRule} (h : Continues w rule) :
    rules.infixRule? (kindOf (.word w)) = some rule := by
  cases h with
  | plus h =>
    simp only [List.mem_cons, List.not_mem_nil, or_false] at h
    rcases h with rfl | rfl <;> rfl
  | times h =>
    simp only [List.mem_cons, List.not_mem_nil, or_false] at h
    rcases h with rfl | rfl | rfl <;> rfl
  | raised => rfl

theorem Starts.prefixRule? {w : String} {rule : PrefixRule} (h : Starts w rule) :
    rules.prefixRule? (kindOf (.word w)) = some rule := by
  cases h with
  | operand h => rcases classifyText_of_isOperand h with hw | hw <;> rw [kindOf, hw] <;> rfl
  | group => rfl
  | negated => rfl

namespace Stratum

/-- Thresholds below this one read a phrase of a stratum whole. -/
def floor : Stratum → Int
  | sum => Level.first
  | product => Level.second
  | _ => Level.fourth

/-- What follows a phrase of a stratum may bind as tightly as this. -/
def cap : Stratum → Int
  | sum => Level.first
  | product => Level.second
  | signed => Level.third
  | power => Level.third
  | atom => Level.fourth

end Stratum

open ParseM

variable {Q : Except Failure Node → Scan → Prop}

abbrev parser : Parser := Grammar.arithmetic.parser none

abbrev Stops (r : Int) (ts : List Token) : Prop := rules.StopsAt kindOf r ts

private theorem stops_cons_iff {r : Int} {w : String} {ts : List Token} :
    Stops r (.word w :: ts) ↔ ∀ rule, Continues w rule → rule.left ≤ r := by
  constructor
  · intro h rule hc
    exact h _ rfl rule hc.infixRule?
  · rintro h t ⟨⟩ rule hr
    exact h rule (continues_of_infixRule? hr)

theorem stops_of_continues {r : Int} {w : String} {rule : InfixRule} {ts : List Token}
    (h : Continues w rule) (hr : rule.left ≤ r) : Stops r (.word w :: ts) := by
  apply stops_cons_iff.mpr
  intro other ho
  obtain rfl : rule = other := Option.some.inj (h.infixRule?.symm.trans ho.infixRule?)
  exact hr

theorem stops_close (r : Int) (ts : List Token) : Stops r (.word ")" :: ts) := by
  have none : rules.infixRule? (kindOf (.word ")")) = .none := rfl
  rintro t ⟨⟩ rule hr
  exact nomatch none.symm.trans hr

theorem stops_mono {r r' : Int} {ts : List Token} (h : Stops r ts) (hr : r ≤ r') : Stops r' ts :=
  fun t ht rule hrule => Int.le_trans (h t ht rule hrule) hr

theorem stops_fourth (ts : List Token) : Stops Level.fourth ts := by
  rintro t - rule hr
  have powers : ∀ entry ∈ rules.infixRules, entry.2.left ≤ Level.fourth := by decide
  obtain ⟨k, -, member⟩ := Kind.exists_mem_of_lookup hr
  exact powers _ member

theorem head_isWord {ts : List Token} (ht : ∀ t ∈ ts, IsWord t) : ∀ t ∈ ts.head?, IsWord t :=
  fun t h => ht t (List.mem_of_mem_head? h)

/-- Reading the tokens of a phrase comes to where its tree has been built, if what follows does
not bind tighter than the phrase's stratum bears. -/
private theorem leads_phrase {ρ : Stratum} {ts : List Token} {n : Node} (h : Derives ρ ts n) {r : Int}
    (hr : r < ρ.floor) {rest : List Token} (ht : ∀ t ∈ ts ++ rest, IsWord t) (hrest : Stops ρ.cap rest)
    (hQ : Leads (parser.extending r n) ⟨rest, none⟩ Q) :
    Leads (parser.reading r) ⟨ts ++ rest, none⟩ Q := by
  induction h generalizing r rest Q with
  | @operand w h =>
    apply steady.leads_reading ⟨w, rfl⟩
    apply steady.leads_start ⟨w, rfl⟩ (Starts.operand h).prefixRule?
    exact Leads.pure hQ
  | @group ts n inner ih =>
    rw [List.cons_append, List.cons_append, List.append_assoc, List.singleton_append] at ht ⊢
    have later : ∀ t ∈ ts ++ .word ")" :: rest, IsWord t := fun t h => ht t (List.mem_cons_of_mem _ h)
    have close (q : Int) : Stops q (.word ")" :: rest) := stops_close q rest
    apply steady.leads_reading ⟨_, rfl⟩
    apply steady.leads_start ⟨_, rfl⟩ Starts.group.prefixRule?
    simp only [parentheses, Parser.run_bind, Parser.run_expr, Parser.run_consume, Parser.run_pure]
    apply Leads.bind
    apply ih (by decide) later (close _)
    apply steady.leads_extending_stop (head_isWord fun t h => later t (List.mem_append_right ts h)) (close _)
    exact Leads.bind (Leads.consume_cons rfl (Leads.pure hQ))
  | base h ih => exact ih hr ht (stops_fourth rest) hQ
  | @raised ts us n m h exponent ih ihe =>
    rw [List.append_assoc, List.cons_append] at ht ⊢
    have later : ∀ t ∈ us ++ rest, IsWord t := fun t h =>
      ht t (List.mem_append_right ts (List.mem_cons_of_mem _ h))
    apply ih hr ht (stops_fourth _)
    apply steady.leads_extending_binary ⟨_, rfl⟩ Continues.raised.infixRule? hr
    apply ihe (by decide) later hrest
    exact steady.leads_extending_stop (head_isWord fun t h => later t (List.mem_append_right us h)) hrest hQ
  | plain h ih => exact ih hr ht hrest hQ
  | @negated ts n h ih =>
    have later : ∀ t ∈ ts ++ rest, IsWord t := fun t h => ht t (List.mem_cons_of_mem _ h)
    apply steady.leads_reading_unary ⟨_, rfl⟩ Starts.negated.prefixRule?
    apply ih (by decide) later hrest
    exact steady.leads_extending_stop (head_isWord fun t h => later t (List.mem_append_right ts h)) hrest hQ
  | factor h ih => exact ih (Int.lt_trans hr (by decide)) ht (stops_mono hrest (by decide)) hQ
  | @times op ts us n m hop h next ih ihn =>
    rw [List.append_assoc, List.cons_append] at ht ⊢
    have later : ∀ t ∈ us ++ rest, IsWord t := fun t h =>
      ht t (List.mem_append_right ts (List.mem_cons_of_mem _ h))
    apply ih hr ht (stops_of_continues (.times hop) (Int.le_refl _))
    · apply steady.leads_extending_binary ⟨_, rfl⟩ (Continues.times hop).infixRule? hr
      apply ihn (by decide) later (stops_mono hrest (by decide))
      exact steady.leads_extending_stop (head_isWord fun t h => later t (List.mem_append_right us h)) hrest hQ
  | term h ih => exact ih (Int.lt_trans hr (by decide)) ht (stops_mono hrest (by decide)) hQ
  | @plus op ts us n m hop h next ih ihn =>
    rw [List.append_assoc, List.cons_append] at ht ⊢
    have later : ∀ t ∈ us ++ rest, IsWord t := fun t h =>
      ht t (List.mem_append_right ts (List.mem_cons_of_mem _ h))
    apply ih hr ht (stops_of_continues (.plus hop) (Int.le_refl _))
    · apply steady.leads_extending_binary ⟨_, rfl⟩ (Continues.plus hop).infixRule? hr
      apply ihn (by decide) later (stops_mono hrest (by decide))
      exact steady.leads_extending_stop (head_isWord fun t h => later t (List.mem_append_right us h)) hrest hQ

/-- What is read at a threshold is a phrase, of a stratum that the threshold reads whole; defects
do not arise. -/
private def Sound (r : Int) (ts : List Token) : Except Failure Node → Scan → Prop
  | .ok n, j => ∃ ρ us rest, ts = us ++ rest ∧ j = ⟨rest, none⟩ ∧ Derives ρ us n ∧ r < ρ.floor ∧
      Stops r rest
  | .error (.error _), _ => True
  | .error (.defect _), _ => False

private theorem Derives.sum_of {ρ : Stratum} {ts : List Token} {n : Node} (h : Derives ρ ts n) :
    Derives .sum ts n := by
  cases ρ with
  | sum => exact h
  | product => exact h.term
  | signed => exact h.factor.term
  | power => exact h.plain.factor.term
  | atom => exact h.base.plain.factor.term

private theorem Derives.product_of {ρ : Stratum} {ts : List Token} {n : Node} (h : Derives ρ ts n)
    (hρ : Level.first < ρ.floor) : Derives .product ts n := by
  cases ρ with
  | sum => exact absurd hρ (by decide)
  | product => exact h
  | signed => exact h.factor
  | power => exact h.plain.factor
  | atom => exact h.base.plain.factor

private theorem Derives.signed_of {ρ : Stratum} {ts : List Token} {n : Node} (h : Derives ρ ts n)
    (hρ : Level.second < ρ.floor) : Derives .signed ts n := by
  cases ρ with
  | sum => exact absurd hρ (by decide)
  | product => exact absurd hρ (by decide)
  | signed => exact h
  | power => exact h.plain
  | atom => exact h.base.plain

private theorem extending_sound {k : Nat}
    (ih : ∀ us : List Token, us.length < k → (∀ u ∈ us, IsWord u) → ∀ r < Level.fourth,
      Leads (parser.reading r) ⟨us, none⟩ (Sound r us))
    (r : Int) (us : List Token) (hk : us.length ≤ k) (ht : ∀ u ∈ us, IsWord u) {ρ : Stratum}
    {vs : List Token} {left : Node} (hd : Derives ρ vs left) (hr : r < ρ.floor)
    (hs : Stops ρ.cap us) : Leads (parser.extending r left) ⟨us, none⟩ (Sound r (vs ++ us)) := by
  by_cases stops : Stops r us
  · apply steady.leads_extending_stop (head_isWord ht) stops
    exact ⟨ρ, vs, us, rfl, rfl, hd, hr, stops⟩
  · cases us with
    | nil => exact absurd (fun t h => by simp at h) stops
    | cons t us =>
      obtain ⟨w, rfl⟩ := ht t (by simp)
      obtain ⟨rule, hc, hl⟩ : ∃ rule, Continues w rule ∧ r < rule.left := by
        simpa [stops_cons_iff] using stops
      have later : ∀ u ∈ us, IsWord u := fun u hu => ht u (List.mem_cons_of_mem _ hu)
      have bound := stops_cons_iff.mp hs rule hc
      have grow {lp rp : Int} {σ : Stratum} (hc : Continues w (.binary lp rp)) (hl : r < lp)
          (hσ : r < σ.floor) (hcap : σ.cap = rp) (low : rp < Level.fourth)
          (build : ∀ ρ' us' m, Derives ρ' us' m → rp < ρ'.floor →
            Derives σ (vs ++ .word w :: us') (.branch (.word w) [left, m])) :
          Leads (parser.extending r left) ⟨.word w :: us, none⟩ (Sound r (vs ++ .word w :: us)) := by
        apply steady.leads_extending_binary ⟨w, rfl⟩ hc.infixRule? hl
        apply (ih us hk later rp low).mono
        rintro ((e | d) | m) j hj
        · trivial
        · exact hj
        · obtain ⟨ρ', us', rest, rfl, rfl, hd', hr', hs'⟩ := hj
          have shorter : rest.length < (Token.word w :: (us' ++ rest)).length := by
            simp only [List.length_cons, List.length_append]
            omega
          have tokens : vs ++ .word w :: (us' ++ rest) = (vs ++ .word w :: us') ++ rest := by simp
          rw [tokens]
          exact extending_sound ih r rest (Nat.le_of_lt (Nat.lt_of_lt_of_le shorter hk))
            (fun u hu => later u (List.mem_append_right us' hu)) (build ρ' us' m hd' hr') hσ (hcap ▸ hs')
      cases hc with
      | plus hop =>
        exact grow (σ := .sum) (.plus hop) hl hl rfl (by decide) fun _ _ _ hm hf =>
          .plus hop hd.sum_of (hm.product_of hf)
      | times hop =>
        have hρ : Level.first < ρ.floor := by
          cases ρ <;> first | exact absurd bound (by decide) | decide
        exact grow (σ := .product) (.times hop) hl hl rfl (by decide) fun _ _ _ hm hf =>
          .times hop (hd.product_of hρ) (hm.signed_of hf)
      | raised =>
        have hρ : ρ = .atom := by
          cases ρ <;> first | exact absurd bound (by decide) | rfl
        subst hρ
        exact grow (σ := .power) .raised hl hl rfl (by decide) fun _ _ _ hm hf =>
          .raised hd (hm.signed_of (Int.lt_trans (by decide) hf))
termination_by us.length

private theorem reading_sound {k : Nat} (ts : List Token) (hk : ts.length < k)
    (ht : ∀ t ∈ ts, IsWord t) (r : Int) (hr : r < Level.fourth) :
    Leads (parser.reading r) ⟨ts, none⟩ (Sound r ts) := by
  induction k generalizing ts r with
  | zero => exact absurd hk (Nat.not_lt_zero _)
  | succ k ih =>
    cases ts with
    | nil => exact steady.leads_reading_nil trivial
    | cons t ts =>
      obtain ⟨w, rfl⟩ := ht t (by simp)
      have short : ts.length < k := Nat.lt_of_succ_lt_succ hk
      have later : ∀ u ∈ ts, IsWord u := fun u hu => ht u (List.mem_cons_of_mem _ hu)
      cases hrule : rules.prefixRule? (kindOf (.word w)) with
      | none =>
        apply steady.leads_reading ⟨w, rfl⟩
        exact steady.leads_start_missing ⟨w, rfl⟩ hrule trivial
      | some rule =>
        cases starts_of_prefixRule? hrule with
        | operand hw =>
          apply steady.leads_reading_leaf ⟨w, rfl⟩ hrule
          exact extending_sound ih r ts (Nat.le_of_lt short) later (.operand hw) hr (stops_fourth ts)
        | group =>
          apply steady.leads_reading ⟨_, rfl⟩
          apply steady.leads_start ⟨_, rfl⟩ hrule
          simp only [parentheses, Parser.run_bind, Parser.run_expr, Parser.run_consume, Parser.run_pure]
          apply Leads.bind
          apply (ih ts short later Level.root (by decide)).mono
          rintro ((e | d) | n) j hj
          · trivial
          · exact hj
          · obtain ⟨ρ, us, rest, rfl, rfl, hd, -, -⟩ := hj
            have after : ∀ u ∈ rest, IsWord u := fun u hu => later u (List.mem_append_right us hu)
            apply Leads.bind
            cases rest with
            | nil => exact Leads.consume_nil trivial
            | cons u rest =>
              obtain ⟨v, rfl⟩ := after u (by simp)
              apply Leads.consume_cons rfl
              split
              · rename_i same
                obtain rfl : v = ")" := by simpa [Token.same] using same
                have tokens : .word "(" :: (us ++ .word ")" :: rest) =
                    (.word "(" :: us ++ [.word ")"]) ++ rest := by simp
                rw [tokens]
                apply Leads.pure
                exact extending_sound ih r rest (by simp at short; omega)
                  (fun u hu => after u (List.mem_cons_of_mem _ hu)) (.group hd.sum_of) hr (stops_fourth rest)
              · trivial
        | negated =>
          apply steady.leads_reading_unary ⟨_, rfl⟩ hrule
          apply (ih ts short later Level.third (by decide)).mono
          rintro ((e | d) | n) j hj
          · trivial
          · exact hj
          · obtain ⟨ρ, us, rest, rfl, rfl, hd, hρ, hs⟩ := hj
            exact extending_sound ih r rest (by simp at short; omega)
              (fun u hu => later u (List.mem_append_right us hu))
              (.negated (hd.signed_of (Int.lt_trans (by decide) hρ))) hr hs

theorem program_eq (p : Parser) :
    p.run p.reading program = (do
      let n ← p.reading Level.root
      match ← peek with
      | none => return [n]
      | some t => ParseM.raise (.missingRule t .continuing)) := by
  simp only [program, Parser.run_bind, Parser.run_expr, Parser.run_peek]
  congr 1
  funext n
  congr 1
  funext t
  cases t <;> rfl

theorem program_sound (ts : List Token) (ht : ∀ t ∈ ts, IsWord t) :
    Leads (parser.run parser.reading program) ⟨ts, none⟩ fun
      | .ok ns, _ => ∃ n, ns = [n] ∧ Derives .sum ts n
      | .error (.error _), _ => True
      | .error (.defect _), _ => False := by
  rw [program_eq]
  apply Leads.bind
  apply (reading_sound ts (Nat.lt_succ_self _) ht Level.root (by decide)).mono
  rintro ((e | d) | n) j hj
  · trivial
  · exact hj
  · obtain ⟨ρ, us, rest, rfl, rfl, hd, -, -⟩ := hj
    apply Leads.bind
    apply Leads.peek
    cases rest with
    | nil => exact Leads.pure ⟨n, rfl, by simpa using hd.sum_of⟩
    | cons t rest =>
      obtain ⟨w, rfl⟩ := ht t (by simp)
      exact Leads.raise trivial

theorem program_complete {ts : List Token} {n : Node} (h : Derives .sum ts n)
    (ht : ∀ t ∈ ts, IsWord t) :
    Leads (parser.run parser.reading program) ⟨ts, none⟩ fun answer _ => answer = .ok [n] := by
  have stop : Stops Level.root [] := fun t h => by cases h
  rw [program_eq]
  apply Leads.bind
  have read := leads_phrase (Q := Onward (fun n => do
      match ← peek with
      | none => return [n]
      | some t => ParseM.raise (.missingRule t .continuing)) fun answer _ => answer = .ok [n])
    h (r := Level.root) (by decide) (by simpa using ht) (stops_mono stop (by decide))
    (steady.leads_extending_stop (fun t h => by cases h) stop (Leads.bind (Leads.peek (Leads.pure rfl))))
  simpa using read

theorem isWord_of_mem_scan {text : String} {t : Token} (h : t ∈ (scan text).tokens) : IsWord t := by
  obtain ⟨u, hu, rfl⟩ := List.mem_map.mp h
  obtain ⟨kind, value, place, rfl⟩ := ScanRule.lexeme_of_mem_scan hu
  exact ⟨value, rfl⟩

theorem scan_fault_eq_none (text : String) : (scan text).fault = none := (cut_scanAt text.toList 0).1

/-- Parsing answers with a tree exactly if the whole text derives from a sum with that tree, and
with an error of the input for every text that does not. -/
theorem parse_iff_derives (text : String) :
    (scan text).fault = none ∧
    (∀ n, Grammar.arithmetic.parse text none = .ok [n] ↔ Derives .sum (scan text).tokens n) ∧
    ((∃ n, Derives .sum (scan text).tokens n) ∨
      ∃ e, Grammar.arithmetic.parse text none = .error (.error e)) := by
  have start : (Grammar.arithmetic.start text).input = ⟨(scan text).tokens, none⟩ := by
    rw [← scan_fault_eq_none text]
    rfl
  have ht (t : Token) : t ∈ (scan text).tokens → IsWord t := isWord_of_mem_scan
  have sound := (program_sound _ ht).holds _ start
  rw [← Parser.perform_eq] at sound
  refine ⟨scan_fault_eq_none text, fun n => ⟨fun h => ?_, fun h => ?_⟩, ?_⟩
  · change (parser.perform program (Grammar.arithmetic.start text)).1 = _ at h
    rw [h] at sound
    obtain ⟨m, hm, hd⟩ := sound
    exact (List.cons.inj hm).1 ▸ hd
  · have complete := (program_complete h ht).holds _ start
    rw [← Parser.perform_eq] at complete
    exact complete
  · change _ ∨ ∃ e, (parser.perform program (Grammar.arithmetic.start text)).1 = _
    rcases h : (parser.perform program (Grammar.arithmetic.start text)).1 with (e | d) | ns
    · exact .inr ⟨e, rfl⟩
    · rw [h] at sound
      exact sound.elim
    · rw [h] at sound
      obtain ⟨n, -, hd⟩ := sound
      exact .inl ⟨n, hd⟩

end BindingPower.Arithmetic
