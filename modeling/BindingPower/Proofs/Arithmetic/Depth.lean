import BindingPower.Proofs.Arithmetic
import BindingPower.Proofs.Nesting

/-! How deep arithmetic nests. An operand, what stands in parentheses or after a sign and what stands to the
right of an operator are expressions of their own; what stands to the left of an operator is not. A limit
refuses exactly what needs more than it. -/
namespace BindingPower.Arithmetic

/-- The derivations of arithmetic as data. -/
inductive Derivation : Stratum → Type
  | operand (w : String) (h : IsOperand w) : Derivation .atom
  | group (inner : Derivation .sum) : Derivation .atom
  | base (x : Derivation .atom) : Derivation .power
  | raised (x : Derivation .atom) (exponent : Derivation .signed) : Derivation .power
  | plain (x : Derivation .power) : Derivation .signed
  | negated (x : Derivation .signed) : Derivation .signed
  | factor (x : Derivation .signed) : Derivation .product
  | times (op : { op : String // op ∈ ["*", "/", "%"] }) (x : Derivation .product)
    (next : Derivation .signed) : Derivation .product
  | term (x : Derivation .product) : Derivation .sum
  | plus (op : { op : String // op ∈ ["+", "-"] }) (x : Derivation .sum)
    (next : Derivation .product) : Derivation .sum

namespace Derivation

/-- The tokens that are derived. -/
def tokens {ρ : Stratum} : Derivation ρ → List Token
  | operand w _ => [.word w]
  | group inner => .word "(" :: inner.tokens ++ [.word ")"]
  | base x | plain x | factor x | term x => x.tokens
  | raised x exponent => x.tokens ++ .word "^" :: exponent.tokens
  | negated x => .word "-" :: x.tokens
  | times op x next => x.tokens ++ .word op.val :: next.tokens
  | plus op x next => x.tokens ++ .word op.val :: next.tokens

def tree {ρ : Stratum} : Derivation ρ → Node
  | operand w _ => .leaf (.word w)
  | group x | base x | plain x | factor x | term x => x.tree
  | raised x exponent => .branch (.word "^") [x.tree, exponent.tree]
  | negated x => .branch (.word "-") [x.tree]
  | times op x next => .branch (.word op.val) [x.tree, next.tree]
  | plus op x next => .branch (.word op.val) [x.tree, next.tree]

/-- How many expressions have to be open at once. -/
def need {ρ : Stratum} : Derivation ρ → Nat
  | operand .. => 1
  | group x | negated x => 1 + x.need
  | base x | plain x | factor x | term x => x.need
  | raised x next | times _ x next | plus _ x next => max x.need (1 + next.need)

theorem derives {ρ : Stratum} (x : Derivation ρ) : Derives ρ x.tokens x.tree := by
  induction x with
  | operand w h => exact .operand h
  | group inner ih => exact .group ih
  | base x ih => exact .base ih
  | raised x exponent ih ihe => exact .raised ih ihe
  | plain x ih => exact .plain ih
  | negated x ih => exact .negated ih
  | factor x ih => exact .factor ih
  | times op x next ih ihn => exact .times op.property ih ihn
  | term x ih => exact .term ih
  | plus op x next ih ihn => exact .plus op.property ih ihn

theorem exists_of_derives {ρ : Stratum} {ts : List Token} {n : Node} (h : Derives ρ ts n) :
    ∃ x : Derivation ρ, x.tokens = ts := by
  induction h with
  | operand h => exact ⟨.operand _ h, rfl⟩
  | group _ ih =>
    obtain ⟨x, rfl⟩ := ih
    exact ⟨.group x, rfl⟩
  | base _ ih =>
    obtain ⟨x, rfl⟩ := ih
    exact ⟨.base x, rfl⟩
  | raised _ _ ih ihe =>
    obtain ⟨x, rfl⟩ := ih
    obtain ⟨y, rfl⟩ := ihe
    exact ⟨.raised x y, rfl⟩
  | plain _ ih =>
    obtain ⟨x, rfl⟩ := ih
    exact ⟨.plain x, rfl⟩
  | negated _ ih =>
    obtain ⟨x, rfl⟩ := ih
    exact ⟨.negated x, rfl⟩
  | factor _ ih =>
    obtain ⟨x, rfl⟩ := ih
    exact ⟨.factor x, rfl⟩
  | times hop _ _ ih ihn =>
    obtain ⟨x, rfl⟩ := ih
    obtain ⟨y, rfl⟩ := ihn
    exact ⟨.times ⟨_, hop⟩ x y, rfl⟩
  | term _ ih =>
    obtain ⟨x, rfl⟩ := ih
    exact ⟨.term x, rfl⟩
  | plus hop _ _ ih ihn =>
    obtain ⟨x, rfl⟩ := ih
    obtain ⟨y, rfl⟩ := ihn
    exact ⟨.plus ⟨_, hop⟩ x y, rfl⟩

/-- Sums of any length, from the left. -/
def addAll (x : Derivation .sum) (terms : List ({ op : String // op ∈ ["+", "-"] } × Derivation .product)) :
    Derivation .sum :=
  terms.foldl (fun x term => .plus term.1 x term.2) x

/-- Products of any length, from the left. -/
def scaleAll (x : Derivation .product)
    (factors : List ({ op : String // op ∈ ["*", "/", "%"] } × Derivation .signed)) : Derivation .product :=
  factors.foldl (fun x factor => .times factor.1 x factor.2) x

/-- A chain of operators needs no more than its operands, of which all but the first stand to the right of
an operator. -/
theorem need_foldl_le {α : Type} {ρ : Stratum} {step : Derivation ρ → α → Derivation ρ} {operand : α → Nat}
    (h : ∀ x a, (step x a).need = max x.need (1 + operand a)) (x : Derivation ρ) (chain : List α) (m : Nat) :
    (chain.foldl step x).need ≤ m ↔ x.need ≤ m ∧ ∀ a ∈ chain, 1 + operand a ≤ m := by
  induction chain generalizing x with
  | nil => simp
  | cons a chain ih =>
    rw [List.foldl_cons, ih, h, Nat.max_le, List.forall_mem_cons, and_assoc]

theorem need_addAll_le (x : Derivation .sum)
    (terms : List ({ op : String // op ∈ ["+", "-"] } × Derivation .product)) (m : Nat) :
    (x.addAll terms).need ≤ m ↔ x.need ≤ m ∧ ∀ term ∈ terms, 1 + term.2.need ≤ m :=
  need_foldl_le (fun _ _ => rfl) x terms m

theorem need_scaleAll_le (x : Derivation .product)
    (factors : List ({ op : String // op ∈ ["*", "/", "%"] } × Derivation .signed)) (m : Nat) :
    (x.scaleAll factors).need ≤ m ↔ x.need ≤ m ∧ ∀ factor ∈ factors, 1 + factor.2.need ≤ m :=
  need_foldl_le (fun _ _ => rfl) x factors m

end Derivation

open ParseM

section Phrases
variable {limit : Int}

/-- Reading the tokens of a phrase with so many expressions open comes to where its tree has been built, if
the limit allows as many more as the phrase needs, and is refused if not. -/
def Reads (limit : Int) {ρ : Stratum} (x : Derivation ρ) : Prop :=
  ∀ {r : Int} {rest : List Token} {k : Nat} {Q : Except Failure Node → Scan → Prop},
    r < ρ.floor → (∀ t ∈ x.tokens ++ rest, IsWord t) → Stops ρ.cap rest →
    ((k + x.need : Int) ≤ limit → LeadsAt (k + 1) ((parser.limited limit).extending r x.tree) ⟨rest, none⟩ Q) →
    (limit < (k + x.need : Int) → ∀ j, Q (.error (.error (.tooDeep limit))) j) →
    LeadsAt k ((parser.limited limit).reading r) ⟨x.tokens ++ rest, none⟩ Q

/-- The left operand leaves as many expressions open as the operator finds, the right one is one more. -/
private theorem Reads.operator {ρ σ : Stratum} {x : Derivation ρ} {y : Derivation σ} (hx : Reads limit x)
    (hy : Reads limit y) {op : String} {left right : Int} (hc : Continues op (.binary left right))
    (hleft : left ≤ ρ.cap) (hright : right < σ.floor) {r : Int} (hr : r < ρ.floor) (hl : r < left)
    {rest : List Token} (ht : ∀ t ∈ x.tokens ++ .word op :: (y.tokens ++ rest), IsWord t)
    (hrest : Stops σ.cap rest) (hend : Stops right rest) {k : Nat} {Q : Except Failure Node → Scan → Prop}
    (fits : (k + max x.need (1 + y.need) : Int) ≤ limit →
      LeadsAt (k + 1) ((parser.limited limit).extending r (.branch (.word op) [x.tree, y.tree]))
        ⟨rest, none⟩ Q)
    (refused : limit < (k + max x.need (1 + y.need) : Int) → ∀ j, Q (.error (.error (.tooDeep limit))) j) :
    LeadsAt k ((parser.limited limit).reading r) ⟨x.tokens ++ .word op :: (y.tokens ++ rest), none⟩ Q := by
  have later : ∀ t ∈ y.tokens ++ rest, IsWord t := fun t h =>
    ht t (List.mem_append_right _ (List.mem_cons_of_mem _ h))
  apply hx hr ht (stops_of_continues hc hleft)
  · intro before
    apply steady.leadsAt_extending_binary ⟨_, rfl⟩ hc.infixRule? hl
    apply hy hright later hrest
    · intro after
      apply steady.leadsAt_extending_stop (head_isWord fun t h => later t (List.mem_append_right _ h)) hend
      exact fits (by omega)
    · exact fun after => refused (by omega)
  · exact fun before => refused (by omega)

theorem reads {ρ : Stratum} (x : Derivation ρ) : Reads limit x := by
  intro r rest k Q hr ht hrest fits refused
  induction x generalizing r rest k Q with
  | operand w h =>
    rw [Derivation.need] at fits refused
    apply steady.leadsAt_reading_leaf ⟨w, rfl⟩ (Starts.operand h).prefixRule?
    · exact fun below => fits (by omega)
    · exact fun full => refused (by omega) _
  | group x ih =>
    rw [Derivation.need] at fits refused
    rw [Derivation.tokens, List.cons_append, List.cons_append, List.append_assoc,
      List.singleton_append] at ht ⊢
    have later : ∀ t ∈ x.tokens ++ .word ")" :: rest, IsWord t := fun t h => ht t (List.mem_cons_of_mem _ h)
    have close (q : Int) : Stops q (.word ")" :: rest) := stops_close q rest
    apply steady.leadsAt_reading ⟨_, rfl⟩
    · intro below
      apply steady.leadsAt_start ⟨_, rfl⟩ Starts.group.prefixRule?
      simp only [parentheses, Parser.run_bind, Parser.run_expr, Parser.run_consume, Parser.run_pure]
      apply LeadsAt.bind
      apply ih (by decide) later (close _)
      · intro inner
        apply steady.leadsAt_extending_stop (head_isWord fun t h => later t (List.mem_append_right _ h))
          (close _)
        apply LeadsAt.bind
        apply LeadsAt.of_leads _ ((parser.limited limit).respects_depth.pervasive.toClosed.consume _)
        exact Leads.consume_cons rfl (LeadsAt.pure (fits (by omega)))
      · exact fun inner => refused (by omega)
    · exact fun full => refused (by omega) _
  | base x ih => exact ih hr ht (stops_fourth rest) fits refused
  | raised x y ih ihy =>
    rw [Derivation.tokens, List.append_assoc, List.cons_append] at ht ⊢
    exact Reads.operator ih ihy .raised (by decide) (by decide) hr hr ht hrest hrest fits refused
  | plain x ih => exact ih hr ht hrest fits refused
  | negated x ih =>
    rw [Derivation.need] at fits refused
    rw [Derivation.tokens, List.cons_append] at ht ⊢
    have later : ∀ t ∈ x.tokens ++ rest, IsWord t := fun t h => ht t (List.mem_cons_of_mem _ h)
    apply steady.leadsAt_reading_unary ⟨_, rfl⟩ Starts.negated.prefixRule?
    · intro below
      apply ih (by decide) later hrest
      · intro inner
        apply steady.leadsAt_extending_stop (head_isWord fun t h => later t (List.mem_append_right _ h)) hrest
        exact fits (by omega)
      · exact fun inner => refused (by omega)
    · exact fun full => refused (by omega) _
  | factor x ih => exact ih (Int.lt_trans hr (by decide)) ht (stops_mono hrest (by decide)) fits refused
  | times op x y ih ihy =>
    rw [Derivation.tokens, List.append_assoc, List.cons_append] at ht ⊢
    exact Reads.operator ih ihy (.times op.property) (by decide) (by decide) hr hr ht
      (stops_mono hrest (by decide)) hrest fits refused
  | term x ih => exact ih (Int.lt_trans hr (by decide)) ht (stops_mono hrest (by decide)) fits refused
  | plus op x y ih ihy =>
    rw [Derivation.tokens, List.append_assoc, List.cons_append] at ht ⊢
    exact Reads.operator ih ihy (.plus op.property) (by decide) (by decide) hr hr ht
      (stops_mono hrest (by decide)) hrest fits refused

theorem leadsAt_program (x : Derivation .sum) (ht : ∀ t ∈ x.tokens, IsWord t) :
    LeadsAt 0 ((parser.limited limit).run (parser.limited limit).reading program) ⟨x.tokens, none⟩
      fun answer _ => answer =
        if (x.need : Int) ≤ limit then .ok [x.tree] else .error (.error (.tooDeep limit)) := by
  have stop : Stops Level.root [] := fun t h => by cases h
  rw [program_eq]
  apply LeadsAt.bind
  rw [← List.append_nil x.tokens]
  apply reads x (by decide) (by simpa using ht) (stops_mono stop (by decide))
  · intro fits
    apply steady.leadsAt_extending_stop (fun t h => by cases h) stop
    apply LeadsAt.bind
    apply LeadsAt.of_leads _ (parser.limited limit).respects_depth.peek
    apply Leads.peek
    apply LeadsAt.pure
    rw [if_pos (by omega)]
  · intro refused j
    change _ = _
    rw [if_neg (by omega)]

end Phrases

/-- Of a text that is accepted without a limit every derivation has the tree that is answered, a limit
refuses the text if and only if it needs more, and what does not refuse it does not change the answer.
However long a sum or a product is, it needs no more than what is put together. -/
theorem parse_by_need {text : String} {ns : List Node}
    (accepted : Grammar.arithmetic.parse text none = .ok ns) :
    (∃ x : Derivation .sum, x.tokens = (scan text).tokens) ∧
    (∀ x : Derivation .sum, x.tokens = (scan text).tokens →
      ns = [x.tree] ∧ ∀ limit : Int, Grammar.arithmetic.parse text (some limit) =
        if (x.need : Int) ≤ limit then .ok ns else .error (.error (.tooDeep limit))) ∧
    (∀ (x : Derivation .sum) terms m,
      (x.addAll terms).need ≤ m ↔ x.need ≤ m ∧ ∀ term ∈ terms, 1 + term.2.need ≤ m) ∧
    ∀ (x : Derivation .product) factors m,
      (x.scaleAll factors).need ≤ m ↔ x.need ≤ m ∧ ∀ factor ∈ factors, 1 + factor.2.need ≤ m := by
  have start : (Grammar.arithmetic.start text).input = ⟨(scan text).tokens, none⟩ := by
    rw [← scan_fault_eq_none text]
    rfl
  have words (t : Token) : t ∈ (scan text).tokens → IsWord t := isWord_of_mem_scan
  change (parser.perform program (Grammar.arithmetic.start text)).1 = _ at accepted
  rw [Parser.perform_eq] at accepted
  refine ⟨?_, fun x hx => ?_, Derivation.need_addAll_le, Derivation.need_scaleAll_le⟩
  · have sound := (program_sound _ words).holds _ start
    rw [accepted] at sound
    obtain ⟨n, -, derived⟩ := sound
    exact Derivation.exists_of_derives derived
  · rw [← hx] at start words
    have complete := (program_complete x.derives words).holds _ start
    rw [accepted] at complete
    obtain rfl : ns = [x.tree] := Except.ok.inj complete
    refine ⟨rfl, fun limit => ?_⟩
    change ((parser.limited limit).perform program (Grammar.arithmetic.start text)).1 = _
    rw [Parser.perform_eq]
    exact ((leadsAt_program x words).holds _ start rfl).1

/-- A sum of three terms, of which the last needs the most. -/
theorem parse_by_need_sum :
    let a : Derivation .product := .factor (.plain (.base (.operand "a" (by decide))))
    let x : Derivation .sum := .addAll (.term a) [(⟨"+", by decide⟩, a), (⟨"-", by decide⟩,
      .factor (.plain (.base (.group (.term a)))))]
    ∃ ns, Grammar.arithmetic.parse "a + a - (a)" none = .ok ns ∧
      x.tokens = (scan "a + a - (a)").tokens ∧ x.need = 3 ∧ ns = [x.tree] ∧
      Grammar.arithmetic.parse "a + a - (a)" (some 3) = .ok ns ∧
      Grammar.arithmetic.parse "a + a - (a)" (some 2) = .error (.error (.tooDeep 2)) := by
  intro a x
  have derived : x.tokens = (scan "a + a - (a)").tokens := by decide +kernel
  have accepted : (Grammar.arithmetic.parse "a + a - (a)" none).isOk = true := by decide +kernel
  rcases h : Grammar.arithmetic.parse "a + a - (a)" none with e | ns
  · rw [h] at accepted
    cases accepted
  · obtain ⟨same, limited⟩ := (parse_by_need h).2.1 x derived
    exact ⟨ns, rfl, derived, rfl, same, limited 3, limited 2⟩

end BindingPower.Arithmetic
