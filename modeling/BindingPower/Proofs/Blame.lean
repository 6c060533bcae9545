import BindingPower.Proofs.Defect

/-! What errors are about. A parse blames a token of its text, or the character that its scan stopped at;
only where a grammar has an excuse does it blame another token. -/
namespace BindingPower
open BindingPower.Action Contract

/-- The failures of a parse that are about a token of its text, about where its scan stopped, about its
limit, or about nothing. An `excuse` lets another token be blamed for a node. -/
def Grammar.Blames (g : Grammar) (excuse : Node → Token → Prop) (text : String) (limit : Option Int) :
    Failure → Prop
  | .error (.missingRule t _) | .error (.consumeFailed _ t) => t ∈ (g.scan text).tokens
  | .error (.malformed n t) => t ∈ (g.scan text).tokens ∨ excuse n t
  | .error (.unexpectedCharacter c offset) =>
    (g.scan text).fault = some (.unexpectedCharacter c offset)
  | .error (.tooDeep most) => limit = some most
  | .error (.general _) => False
  | .error .incomplete | .defect _ => True

/-- The contract of a grammar that fails only so. -/
def Grammar.blaming (g : Grammar) (kindOf : Token → Kind) (good : Node → Prop)
    (excuse : Node → Token → Prop) (text : String) (limit : Option Int) : Contract where
  found t := t ∈ (g.scan text).tokens
  kindOf := kindOf
  may _ _ := true
  good _ := good
  fair := g.Blames excuse text limit

theorem Grammar.blames_of_parse {g : Grammar} {kindOf : Token → Kind} {good : Node → Prop}
    {excuse : Node → Token → Prop} {text : String} {limit : Option Int} {Q : List Node → Prop}
    (hc : (g.blaming kindOf good excuse text limit).Binds (g.parser limit))
    (hg : (g.blaming kindOf good excuse text limit).Gives g.program Q)
    (hs : ∀ e, (g.scan text).fault = some e → ∃ c offset, e = .unexpectedCharacter c offset)
    {e : Failure} (h : g.parse text limit = .error e) : g.Blames excuse text limit e := by
  have done := Grammar.fulfils_run hc hg ⟨fun t ht => ht, ?_⟩ (Event.admits_of_forall (fun _ _ => rfl) _)
  · rcases hr : g.run text limit with ⟨r, s⟩
    rw [hr] at done
    obtain rfl : r = .error e := (congrArg Prod.fst hr).symm.trans h
    exact done
  · intro e he
    obtain ⟨c, offset, rfl⟩ := hs e he
    exact he

namespace Arithmetic

/-- The rules keep every contract that takes any node for good. -/
theorem each_gives {c : Contract} (good : ∀ r n, c.good r n) (t : Token) (r : Int) :
    rules.Each (fun rule => c.Gives (rule.action t rule.power) (c.good r)) fun rule =>
      ∀ left, c.Gives (rule.action t rule.right left) (c.good r) := by
  have binary (l power : Int) (left : Node) :
      c.Gives ((InfixRule.binary l power).action t power left) (c.good r) :=
    (Gives.expr _).bind fun _ _ => .pure (good r _)
  exact each_rules (.pure (good r _))
    ((Gives.expr _).bind fun _ _ => (Gives.consume _).bind fun _ _ => .pure (good r _))
    ((Gives.expr _).bind fun _ _ => .pure (good r _)) (binary _ _) (binary _ _) (binary _ _)

theorem gives_program {c : Contract} (surplus : ∀ t, c.found t → c.fair (.error (.missingRule t .continuing))) :
    c.Gives program fun _ => True := by
  refine (Gives.expr _).bind fun _ _ => Gives.peek.bind fun next found => ?_
  cases next with
  | none => exact .pure trivial
  | some t => exact .raise (surplus t (found t rfl))

theorem binds_blaming (text : String) (limit : Option Int) :
    (Grammar.arithmetic.blaming kindOf (fun _ => True) (fun _ _ => False) text limit).Binds
      (Grammar.arithmetic.parser limit) where
  incomplete := trivial
  missingRule _ _ h := h
  consumeFailed _ _ h := h
  tooDeep _ h := h
  classified asked t ht := steady.classified asked t (isWord_of_mem_scan ht)
  starting t rule r _ hr _ := (each_gives (fun _ _ => trivial) t r).starting _ rule hr
  continuing t rule r left _ hr _ _ := (each_gives (fun _ _ => trivial) t r).continuing _ rule hr left

theorem blames_of_parse {text : String} {limit : Option Int} {e : Failure}
    (h : Grammar.arithmetic.parse text limit = .error e) :
    Grammar.arithmetic.Blames (fun _ _ => False) text limit e :=
  Grammar.blames_of_parse (binds_blaming text limit) (gives_program fun _ ht => ht)
    (fun _ he => ScanRule.fault_of_scanFrom he) h

end Arithmetic

/-- The kind of a token is given, unless it has none. -/
theorem Contract.Gives.kindOf_any {c : Contract} (defect : ∀ d, c.fair (.defect d)) (t : Token) :
    c.Gives (Action.kindOf t) fun _ => True := by
  unfold Action.kindOf
  split
  · exact .pure trivial
  · exact .fail (defect _)

namespace Ebnf

section
variable {c : Contract} (good : ∀ r n, c.good r n) (defect : ∀ d, c.fair (.defect d)) {r : Int}
include good defect

omit good in
theorem gives_isBranch_any (n : Node) (s : EbnfSymbol) : c.Gives (isBranch n s) fun _ => True := by
  cases n with
  | leaf t => exact .pure trivial
  | branch t ns => exact (Gives.kindOf_any defect t).bind fun _ _ => .pure trivial

theorem gives_extendSequence_any (left item : Node) :
    c.Gives (extendSequence left item) (c.good r) := by
  refine (gives_isBranch_any defect _ _).bind fun _ _ => .ite (fun _ => ?_) fun _ => .pure (good r _)
  cases left.withChild? item with
  | none => exact .fail (defect _)
  | some n => exact .pure (good r n)

theorem gives_onLast_any {mark : Node → Action Node} (hm : ∀ n, c.Gives (mark n) (c.good r))
    (left : Node) : c.Gives (onLast left mark) (c.good r) := by
  refine (gives_isBranch_any defect _ _).bind fun _ _ => .ite (fun _ => ?_) fun _ => hm left
  dsimp only
  cases (left.children?.getD []).getLast? with
  | none => exact .fail (defect _)
  | some last => exact (hm last).bind fun _ _ => .pure (good r _)

theorem gives_repeatMark_any (t : Token) (n : Node) : c.Gives (repeatMark t n) (c.good r) := by
  refine (Gives.kindOf_any defect t).bind fun _ _ => .ite (fun _ => ?_) fun _ => .pure (good r _)
  refine (gives_isBranch_any defect _ _).bind fun _ _ => .ite (fun _ => ?_) fun _ => .pure (good r _)
  cases n.withChild? (.leaf t) with
  | none => exact .fail (defect _)
  | some n => exact .pure (good r n)

omit defect in
theorem gives_group_any : c.Gives group (c.good r) :=
  (Gives.expr _).bind fun _ _ => (Gives.consume _).bind fun _ _ => .pure (good r _)

/-- The rules keep every contract that takes any node for good and lets a rule end in a defect. -/
theorem each_gives (t : Token) (r : Int) :
    rules.Each (fun rule => c.Gives (rule.action t rule.power) (c.good r)) fun rule =>
      ∀ left, c.Gives (rule.action t rule.right left) (c.good r) :=
  each_rules (.pure (good r _)) (gives_group_any good)
    (fun _ => (Gives.expr _).bind fun _ _ => .pure (good r _))
    (fun _ => (Gives.expr _).bind fun _ _ => .pure (good r _))
    (gives_onLast_any good defect (gives_repeatMark_any good defect t))
    (gives_onLast_any good defect fun _ => .pure (good r _))
    (fun _ => gives_extendSequence_any good defect _ _)
    (fun _ => (gives_group_any good (r := r)).bind fun _ _ => gives_extendSequence_any good defect _ _)

end

theorem binds_blaming (text : String) (limit : Option Int) :
    (Grammar.ebnf.blaming Token.kind (fun _ => True) (fun _ _ => False) text limit).Binds
      (Grammar.ebnf.parser limit) where
  incomplete := trivial
  missingRule _ _ h := h
  consumeFailed _ _ h := h
  tooDeep _ h := h
  classified _ _ _ := rfl
  starting t rule r _ hr _ := (each_gives (fun _ _ => trivial) (fun _ => trivial) t r).starting _ rule hr
  continuing t rule r left _ hr _ _ :=
    (each_gives (fun _ _ => trivial) (fun _ => trivial) t r).continuing _ rule hr left

theorem blames_of_parse {text : String} {limit : Option Int} {e : Failure}
    (h : Grammar.ebnf.parse text limit = .error e) :
    Grammar.ebnf.Blames (fun _ _ => False) text limit e :=
  Grammar.blames_of_parse (binds_blaming text limit) (Gives.collected _ _ _)
    (fun _ he => ScanRule.fault_of_scanFrom he) h

end Ebnf

end BindingPower
