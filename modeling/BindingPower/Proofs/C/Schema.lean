import BindingPower.Proofs.C.Computation
import BindingPower.Proofs.C.Rules
import BindingPower.Proofs.Contract
import BindingPower.Proofs.Scan

/-! The schema of C trees: which leaves there are, and how many children of which sort the branches
of each symbol have. Every tree that is parsed obeys it, all the way down. -/
namespace BindingPower.C
open BindingPower.Action Contract

/-- Identifiers, constants (those of strings among them) and the words of types. -/
def leafSymbols : List CSymbol :=
  [.ident, .intConst, .charConst, .floatConst, .string] ++ specifierSymbols

def stepSymbols : List CSymbol := [.increment, .decrement]

/-- Operators that stand before one operand. -/
def beforeSymbols : List CSymbol :=
  [.increment, .decrement, .kwSizeof, .ampersand, .star, .plus, .minus, .tilde, .bang]

/-- Operators that stand between two operands. -/
def betweenSymbols : List CSymbol := assignmentSymbols ++ [
  .orOr, .andAnd, .bar, .caret, .ampersand, .equals, .notEquals, .less, .greater, .lessEq, .greaterEq,
  .shiftLeft, .shiftRight, .plus, .minus, .slash, .percent, .star]

/-- The symbols of the nodes that statements with a keyword or braces become. -/
def finishedSymbols : List CSymbol := [
  .kwGoto, .kwContinue, .kwBreak, .kwReturn, .kwCase, .kwDefault, .kwIf, .kwWhile, .block]

def leafOf (symbols : List CSymbol) : Node → Bool
  | .leaf t => among symbols t.kind
  | .branch .. => false

def branchOf (symbols : List CSymbol) : Node → Bool
  | .leaf _ => false
  | .branch t _ => among symbols t.kind

def IsName (n : Node) : Prop := leafOf [.ident] n = true

/-- A word of a type, or a tagged type. -/
def IsSpecifier (n : Node) : Prop := leafOf specifierSymbols n = true ∨ branchOf taggedSymbols n = true

def IsTypeNode (n : Node) : Prop := IsSpecifier n ∨ branchOf [.specifiers] n = true

/-- What a declaration declares: a name, or a pointer to something. -/
inductive IsDeclarator : Node → Prop
  | name {n : Node} (h : IsName n) : IsDeclarator n
  | pointer {t : Token} (n : Node) (ht : t.kind = .c .star) : IsDeclarator (.branch t [n])

/-- A name, with or without a value. -/
inductive IsEnumerator : Node → Prop
  | name {n : Node} (h : IsName n) : IsEnumerator n
  | value {t : Token} {n : Node} (rest : List Node) (ht : t.kind = .c .assign) (h : IsName n) :
    IsEnumerator (.branch t (n :: rest))

/-- The body of a tagged type; that of an enumeration lists enumerators. -/
inductive IsBody (s : CSymbol) : Node → Prop
  | body {t : Token} {items : List Node} (ht : t.kind = .c .body)
    (h : s = .kwEnum → ∀ n ∈ items, IsEnumerator n) : IsBody s (.branch t items)

/-- The children that the branches of a symbol have. What stands on the left of an operator has to be
an `operand`. -/
inductive Fits (operand : Node → Prop) : CSymbol → List Node → Prop
  | specifiers {ns : List Node} (two : 2 ≤ ns.length) (all : ∀ n ∈ ns, IsSpecifier n) :
    Fits operand .specifiers ns
  | declaration {type declarator : Node} (ht : IsTypeNode type) (hd : IsDeclarator declarator) :
    Fits operand .declaration [type, declarator]
  | tag {s : CSymbol} {tag : Node} (hs : s ∈ taggedSymbols) (ht : IsName tag) : Fits operand s [tag]
  | anonymous {s : CSymbol} {body : Node} (hs : s ∈ taggedSymbols) (hb : IsBody s body) :
    Fits operand s [body]
  | tagBody {s : CSymbol} {tag body : Node} (hs : s ∈ taggedSymbols) (ht : IsName tag)
    (hb : IsBody s body) : Fits operand s [tag, body]
  | body (ns : List Node) : Fits operand .body ns
  | before {s : CSymbol} (n : Node) (hs : s ∈ beforeSymbols) : Fits operand s [n]
  | between {s : CSymbol} {n : Node} (m : Node) (hs : s ∈ betweenSymbols) (hn : operand n) :
    Fits operand s [n, m]
  | conditional {test : Node} (yes no : Node) (ht : operand test) :
    Fits operand .conditional [test, yes, no]
  | call {callee : Node} (arguments : List Node) (hc : operand callee) :
    Fits operand .call (callee :: arguments)
  | index {n : Node} (position : Node) (hn : operand n) : Fits operand .index [n, position]
  | member {s : CSymbol} {n name : Node} (hs : s ∈ [CSymbol.dot, .arrow]) (hn : operand n)
    (hm : IsName name) : Fits operand s [n, name]
  | goto {label : Node} (h : IsName label) : Fits operand .kwGoto [label]
  | jump {s : CSymbol} (hs : s ∈ [CSymbol.kwContinue, .kwBreak]) : Fits operand s []
  | exit : Fits operand .kwReturn []
  | answer (value : Node) : Fits operand .kwReturn [value]
  | otherwise (body : Node) : Fits operand .kwDefault [body]
  | labelled (value body : Node) : Fits operand .kwCase [value, body]
  | ifThen (test yes : Node) : Fits operand .kwIf [test, yes]
  | ifElse (test yes no : Node) : Fits operand .kwIf [test, yes, no]
  | loop (test body : Node) : Fits operand .kwWhile [test, body]
  | block (body : List Node) : Fits operand .block body

/-- Trees that obey the schema at every node. Only a step behind its operand is a leaf of an operator. -/
inductive WellFormed (operand : Node → Prop) : Node → Prop
  | leaf {t : Token} {s : CSymbol} (ht : t.kind = .c s) (hs : s ∈ leafSymbols) :
    WellFormed operand (.leaf t)
  | stepped {t u : Token} {s : CSymbol} {n : Node} (ht : t.kind = .c .stepped) (hu : u.kind = .c s)
    (hs : s ∈ stepSymbols) (ho : operand n) (hn : WellFormed operand n) :
    WellFormed operand (.branch t [n, .leaf u])
  | branch {t : Token} {s : CSymbol} {ns : List Node} (ht : t.kind = .c s) (fits : Fits operand s ns)
    (below : ∀ n ∈ ns, WellFormed operand n) : WellFormed operand (.branch t ns)

namespace WellFormed
variable {operand : Node → Prop} {n : Node}

theorem kind_token (h : WellFormed operand n) : ∃ s, n.token.kind = .c s := by
  cases h with
  | leaf ht _ => exact ⟨_, ht⟩
  | stepped ht _ _ _ _ => exact ⟨_, ht⟩
  | branch ht _ _ => exact ⟨_, ht⟩

theorem specifiers {t : Token} {ns : List Node} (h : WellFormed operand (.branch t ns))
    (ht : t.kind = .c .specifiers) :
    2 ≤ ns.length ∧ (∀ n ∈ ns, IsSpecifier n) ∧ ∀ n ∈ ns, WellFormed operand n := by
  have tagged : CSymbol.specifiers ∉ taggedSymbols := by decide
  cases h with
  | stepped hs _ _ _ _ =>
    rw [ht] at hs
    cases hs
  | branch hs fits below =>
    obtain rfl := Kind.c.inj (ht.symm.trans hs)
    cases fits with
    | specifiers two all => exact ⟨two, all, below⟩
    | tag hs _ => exact absurd hs tagged
    | anonymous hs _ => exact absurd hs tagged
    | tagBody hs _ _ => exact absurd hs tagged
    | before _ hs => exact absurd hs (by decide)
    | between _ hs _ => exact absurd hs (by decide)
    | member hs _ _ => exact absurd hs (by decide)
    | jump hs => exact absurd hs (by decide)

theorem assigned {t : Token} {ns : List Node} (h : WellFormed operand (.branch t ns))
    (ht : t.kind = .c .assign) : ∃ n m, ns = [n, m] ∧ WellFormed operand n := by
  have tagged : CSymbol.assign ∉ taggedSymbols := by decide
  cases h with
  | stepped hs _ _ _ _ =>
    rw [ht] at hs
    cases hs
  | branch hs fits below =>
    obtain rfl := Kind.c.inj (ht.symm.trans hs)
    cases fits with
    | between m _ _ => exact ⟨_, m, rfl, below _ List.mem_cons_self⟩
    | tag hs _ => exact absurd hs tagged
    | anonymous hs _ => exact absurd hs tagged
    | tagBody hs _ _ => exact absurd hs tagged
    | before _ hs => exact absurd hs (by decide)
    | member hs _ _ => exact absurd hs (by decide)
    | jump hs => exact absurd hs (by decide)

theorem mem_leafSymbols {t : Token} {s : CSymbol} (h : WellFormed operand (.leaf t))
    (ht : t.kind = .c s) : s ∈ leafSymbols := by
  cases h with
  | leaf hs mem => exact Kind.c.inj (hs.symm.trans ht) ▸ mem

theorem specifierLeaf {t : Token} {s : CSymbol} (ht : t.kind = .c s) (hs : s ∈ specifierSymbols) :
    IsSpecifier (.leaf t) ∧ WellFormed operand (.leaf t) := by
  refine ⟨.inl ?_, .leaf ht (List.mem_append_right _ hs)⟩
  rw [leafOf, ht]
  exact among_iff.mpr hs

end WellFormed

/-- The highest level is where a statement keyword or brace may start an expression. -/
def mayStart (r : Int) (kind : Kind) : Bool :=
  !among statementSymbols kind || decide (Level.highest ≤ r)

/-- Whether a node may be a left operand: if statements only start where they may, not a statement. -/
def Free (strict : Bool) (n : Node) : Prop := strict = true → branchOf finishedSymbols n = false

/-- The contract of the rules. An expression below the highest level may become a left operand. -/
def schema (strict : Bool) : Contract where
  found t := ∃ kind, t.kind? = some kind
  kindOf := Token.kind
  may r kind := !strict || mayStart r kind
  good r n := WellFormed (Free strict) n ∧ (r < Level.highest → Free strict n)
  fair
    | .error _ => True
    | .defect _ => False

section
variable {strict : Bool} {r : Int} {t : Token} {s : CSymbol} {left : Node}

theorem kind?_of_kind (ht : t.kind = .c s) : t.kind? = some (.c s) := by
  cases t with
  | lexeme kind value offset => exact congrArg some ht
  | word text => cases ht
  | absent => cases ht

theorem keeps_isIdent {n : Node} (hn : WellFormed (Free strict) n) :
    (schema strict).Gives (isIdent n) fun b => b = true → IsName n := by
  cases hn with
  | leaf ht hs =>
    refine (Gives.kindOf (kind?_of_kind ht)).bind fun kind hk => .pure fun h => ?_
    rw [IsName, leafOf, ht, ← hk]
    simpa [among] using h
  | stepped _ _ _ _ _ => exact .pure fun h => absurd h Bool.false_ne_true
  | branch _ _ _ => exact .pure fun h => absurd h Bool.false_ne_true

theorem keeps_isType {n : Node} (hn : WellFormed (Free strict) n) :
    (schema strict).Gives (isType n) fun b => b = true → IsTypeNode n := by
  obtain ⟨s, hs⟩ := hn.kind_token
  refine (Gives.kindOf (kind?_of_kind hs)).bind fun kind hk => ?_
  cases n with
  | leaf t =>
    refine .pure fun h => .inl (.inl ?_)
    rwa [leafOf, show t.kind = .c s from hs, ← hk]
  | branch t ns =>
    refine .pure fun h => ?_
    rw [IsTypeNode, IsSpecifier, branchOf, branchOf, show t.kind = .c s from hs, ← hk]
    rcases (Bool.or_eq_true_iff ..).mp h with h | h
    · exact .inr (by simpa [among] using h)
    · exact .inl (.inr h)

theorem keeps_require (expected : CSymbol) (n : Node) :
    (schema strict).Gives (require expected n) fun _ => True := by
  refine (Gives.attempt_consume _).bind fun found _ => ?_
  rcases found with (_ | _ | _ | _ | _ | _ | _) | _ <;> first | exact .pure trivial | exact .raise trivial

theorem keeps_accept (expected : CSymbol) :
    (schema strict).Gives (accept expected) fun _ => True := by
  refine (Gives.attempt_consume _).bind fun found _ => ?_
  rcases found with (_ | _ | _ | _ | _ | _ | _) | _ <;> first | exact .pure trivial | exact .raise trivial

theorem keeps_acceptOrEnd (expected : CSymbol) :
    (schema strict).Gives (acceptOrEnd expected) fun _ => True := by
  refine (Gives.attempt_consume _).bind fun found _ => ?_
  rcases found with (_ | _ | _ | _ | _ | _ | _) | _ <;> first | exact .pure trivial | exact .raise trivial

theorem good_leaf (ht : t.kind = .c s) (hs : s ∈ leafSymbols) : (schema strict).good r (.leaf t) :=
  ⟨.leaf ht hs, fun _ _ => rfl⟩

/-- A branch that is no statement may be an operand. -/
theorem good_branch {ns : List Node} (ht : t.kind = .c s) (hs : s ∉ finishedSymbols)
    (fits : Fits (Free strict) s ns) (below : ∀ n ∈ ns, WellFormed (Free strict) n) :
    (schema strict).good r (.branch t ns) := by
  refine ⟨.branch ht fits below, fun _ _ => ?_⟩
  rw [branchOf, ht]
  exact among_eq_false_iff.mpr hs

/-- A statement where it may start, which no operator takes. -/
theorem good_statement {u : Token} {s' : CSymbol} {ns : List Node} (may : (schema strict).may r u.kind = true)
    (hu : u.kind = .c s') (hs : s' ∈ statementSymbols) (ht : t.kind = .c s)
    (fits : Fits (Free strict) s ns) (below : ∀ n ∈ ns, WellFormed (Free strict) n) :
    (schema strict).good r (.branch t ns) := by
  refine ⟨.branch ht fits below, fun hr hstrict => ?_⟩
  have start : among statementSymbols (.c s') = true := among_iff.mpr hs
  simp only [schema, mayStart, hu, hstrict, start, Bool.not_true, Bool.false_or,
    decide_eq_true_eq] at may
  omega

theorem not_finished_of_before (hs : s ∈ beforeSymbols) : s ∉ finishedSymbols :=
  (by decide : ∀ s ∈ beforeSymbols, s ∉ finishedSymbols) s hs

theorem not_finished_of_between (hs : s ∈ betweenSymbols) : s ∉ finishedSymbols :=
  (by decide : ∀ s ∈ betweenSymbols, s ∉ finishedSymbols) s hs

theorem not_finished_of_tagged (hs : s ∈ taggedSymbols) : s ∉ finishedSymbols :=
  (by decide : ∀ s ∈ taggedSymbols, s ∉ finishedSymbols) s hs

theorem wellFormed_unary (ht : t.kind = .c s) (hs : s ∈ beforeSymbols) {n : Node}
    (hn : WellFormed (Free strict) n) : WellFormed (Free strict) (.branch t [n]) :=
  .branch ht (.before n hs) (List.forall_mem_singleton.mpr hn)

theorem keeps_unary (ht : t.kind = .c s) (hs : s ∈ beforeSymbols) (power : Int) :
    (schema strict).Gives ((PrefixRule.unary power).action t power) ((schema strict).good r) := by
  refine (Gives.expr _).bind fun n hn => .pure ?_
  exact good_branch ht (not_finished_of_before hs) (.before n hs) (List.forall_mem_singleton.mpr hn.1)

theorem keeps_parentheses (power : Int) :
    (schema strict).Gives (parentheses.action t power) ((schema strict).good r) :=
  (Gives.expr _).bind fun _ hn => (Gives.consume _).bind fun _ _ =>
    .pure ⟨hn.1, fun _ => hn.2 (by decide)⟩

section Infix
variable (hl : WellFormed (Free strict) left) (ho : Free strict left)
include hl ho

theorem keeps_binary (ht : t.kind = .c s) (hs : s ∈ betweenSymbols) (l power : Int) :
    (schema strict).Gives ((InfixRule.binary l power).action t power left)
      ((schema strict).good r) := by
  refine (Gives.expr _).bind fun n hn => .pure ?_
  exact good_branch ht (not_finished_of_between hs) (.between n hs ho) (by simp [hl, hn.1])

theorem keeps_starAfter (ht : t.kind = .c .star) (power : Int) :
    (schema strict).Gives (starAfter.action t power left) ((schema strict).good r) := by
  refine (keeps_isType hl).bind fun type htype => .ite (fun h => ?_) fun _ => ?_
  · refine (Gives.expr _).bind fun n hn => .pure ?_
    have pointer : WellFormed (Free strict) (.branch t [n]) := wellFormed_unary ht (by decide) hn.1
    exact good_branch (s := .declaration) rfl (by decide) (.declaration (htype h) (.pointer n ht))
      (by simp [hl, pointer])
  · exact keeps_binary hl ho ht (by decide) power power

theorem keeps_conditional (power : Int) :
    (schema strict).Gives (conditional.action t power left) ((schema strict).good r) := by
  refine (Gives.expr _).bind fun yes hyes => (keeps_require _ _).bind fun _ _ =>
    (Gives.expr _).bind fun no hno => .pure ?_
  exact good_branch (s := .conditional) rfl (by decide) (.conditional yes no ho)
    (by simp [hl, hyes.1, hno.1])

theorem keeps_stepAfter (ht : t.kind = .c s) (hs : s ∈ stepSymbols) (power : Int) :
    (schema strict).Gives (stepAfter.action t power left) ((schema strict).good r) :=
  .pure ⟨.stepped rfl ht hs ho hl, fun _ _ => rfl⟩

theorem keeps_call (power : Int) :
    (schema strict).Gives (call.action t power left) ((schema strict).good r) := by
  refine (keeps_accept _).bind fun _ _ => .ite (fun _ => ?_) fun _ => ?_
  · exact .pure (good_branch (s := .call) rfl (by decide) (.call [] ho) (by simp [hl]))
  · rw [← bind_assoc]
    refine (Gives.collected _ _ _).bind fun arguments ha => .pure ?_
    exact good_branch (s := .call) rfl (by decide) (.call arguments ho)
      (List.forall_mem_cons.mpr ⟨hl, fun n hn => (ha n hn).1⟩)

theorem keeps_index (power : Int) :
    (schema strict).Gives (index.action t power left) ((schema strict).good r) := by
  refine (Gives.expr _).bind fun position hp => (Gives.consume _).bind fun _ _ => .pure ?_
  exact good_branch (s := .index) rfl (by decide) (.index position ho) (by simp [hl, hp.1])

theorem keeps_member (ht : t.kind = .c s) (hs : s ∈ [CSymbol.dot, .arrow]) (power : Int) :
    (schema strict).Gives (member.action t power left) ((schema strict).good r) := by
  have notFinished : ∀ s ∈ [CSymbol.dot, .arrow], s ∉ finishedSymbols := by decide
  refine (Gives.expr _).bind fun name hn => (keeps_isIdent hn.1).bind fun _ hname =>
    .ite (fun h => .pure ?_) fun _ => .raise trivial
  exact good_branch ht (notFinished s hs) (.member hs ho (hname h)) (by simp [hl, hn.1])

omit ho in
/-- A type grows by a specifier, which is then the last of two or more. -/
theorem keeps_extendSpecifiers {n : Node} (hs : IsSpecifier n) (hn : WellFormed (Free strict) n) :
    (schema strict).Gives (extendSpecifiers left t n) ((schema strict).good r) := by
  obtain ⟨s, hleft⟩ := hl.kind_token
  refine (Gives.kindOf (kind?_of_kind hleft)).bind fun kind hk => .ite (fun h => ?_) fun h => ?_
  · have hkind : left.token.kind = .c .specifiers := hleft.trans (hk.symm.trans (eq_of_beq h))
    cases left with
    | leaf u => exact absurd (hl.mem_leafSymbols hkind) (by decide)
    | branch u ns =>
      obtain ⟨two, all, below⟩ := hl.specifiers hkind
      refine .pure (good_branch hkind (by decide) (.specifiers ?_ ?_) ?_)
      · rw [List.length_append]
        omega
      · exact List.forall_mem_append.mpr ⟨all, List.forall_mem_singleton.mpr hs⟩
      · exact List.forall_mem_append.mpr ⟨below, List.forall_mem_singleton.mpr hn⟩
  · refine (keeps_isType hl).bind fun _ htype => .ite (fun h' => .pure ?_) fun _ => .raise trivial
    have single : IsSpecifier left := by
      refine (htype h').resolve_right fun several => h ?_
      cases left with
      | leaf u => cases several
      | branch u ns => simpa [hk, branchOf, ← show u.kind = .c s from hleft, among] using several
    exact good_branch (s := .specifiers) rfl (by decide)
      (.specifiers (Nat.le_refl 2) (by simp [single, hs])) (by simp [hl, hn])

omit ho in
theorem keeps_specifierAfter (ht : t.kind = .c s) (hs : s ∈ specifierSymbols) (power : Int) :
    (schema strict).Gives (specifierAfter.action t power left) ((schema strict).good r) :=
  have word := WellFormed.specifierLeaf ht hs
  keeps_extendSpecifiers hl word.1 word.2

omit ho in
theorem keeps_declarator (ht : t.kind = .c .ident) (power : Int) :
    (schema strict).Gives (declarator.action t power left) ((schema strict).good r) := by
  have name : IsName (.leaf t) := by rw [IsName, leafOf, ht]; rfl
  have leaf : WellFormed (Free strict) (.leaf t) := .leaf ht (by decide)
  refine (keeps_isType hl).bind fun _ htype => .ite (fun h => .pure ?_) fun _ => .raise trivial
  exact good_branch (s := .declaration) rfl (by decide) (.declaration (htype h) (.name name))
    (by simp [hl, leaf])

end Infix

section Declarations

theorem keeps_recordBody (s : CSymbol) (hs : s ≠ .kwEnum) : (schema strict).Gives recordBody
    fun n => IsBody s n ∧ WellFormed (Free strict) n := by
  have field : (schema strict).Gives (do
      if ← accept .rightBrace then return .done
      else
        let field ← expr Level.root
        require .semicolon field
        return .item field) (Round.All (WellFormed (Free strict))) :=
    (keeps_accept _).bind fun _ _ => .ite (fun _ => .pure trivial) fun _ =>
      (Gives.expr _).bind fun field hf => (keeps_require _ _).bind fun _ _ => .pure hf.1
  refine field.repeated.bind fun ns hns => .pure ⟨.body rfl fun h => absurd h hs, ?_⟩
  exact .branch (s := .body) rfl (.body ns) hns

theorem keeps_enumeratorName {item : Node} (hi : WellFormed (Free strict) item) :
    (schema strict).Gives (enumeratorName item) fun name =>
      WellFormed (Free strict) name ∧ (IsName name → IsEnumerator item) := by
  obtain ⟨s, hitem⟩ := hi.kind_token
  refine (Gives.kindOf (kind?_of_kind hitem)).bind fun kind hk => .ite (fun h => ?_) fun _ => ?_
  · have hkind : item.token.kind = .c .assign := hitem.trans (hk.symm.trans (eq_of_beq h))
    cases item with
    | leaf u => exact absurd (hi.mem_leafSymbols hkind) (by decide)
    | branch u ns =>
      obtain ⟨name, value, rfl, hn⟩ := hi.assigned hkind
      exact .pure ⟨hn, .value _ hkind⟩
  · exact .pure ⟨hi, .name⟩

theorem keeps_checkEnumerators (t : Token) {items : List Node}
    (h : ∀ n ∈ items, WellFormed (Free strict) n) :
    (schema strict).Gives (checkEnumerators t items) fun _ => ∀ n ∈ items, IsEnumerator n := by
  induction items with
  | nil => exact .pure (List.forall_mem_nil _)
  | cons item items ih =>
    obtain ⟨hi, h⟩ := List.forall_mem_cons.mp h
    refine (keeps_enumeratorName hi).bind fun name hn => (keeps_isIdent hn.1).bind fun _ hname =>
      .ite (fun isName => (ih h).mono fun _ rest => ?_) fun _ => .raise trivial
    exact List.forall_mem_cons.mpr ⟨hn.2 (hname isName), rest⟩

theorem keeps_enumBody (t : Token) : (schema strict).Gives (enumBody t) fun n =>
    IsBody .kwEnum n ∧ WellFormed (Free strict) n := by
  have enumerator : (schema strict).Gives (do
      if ← accept .rightBrace then return .done
      else
        let item ← expr Level.root
        if ← accept .comma then return .item item
        else
          consume CSymbol.rightBrace.token
          return .last item) (Round.All (WellFormed (Free strict))) :=
    (keeps_accept _).bind fun _ _ => .ite (fun _ => .pure trivial) fun _ =>
      (Gives.expr _).bind fun item hi => (keeps_accept _).bind fun _ _ => .ite (fun _ => .pure hi.1)
        fun _ => (Gives.consume _).bind fun _ _ => .pure hi.1
  refine enumerator.repeated.bind fun ns hns => (keeps_checkEnumerators t hns).bind fun _ all => .pure ?_
  exact ⟨.body rfl fun _ => all, .branch (s := .body) rfl (.body ns) hns⟩

theorem keeps_taggedBody (ht : t.kind = .c s) : (schema strict).Gives (taggedBody t) fun n =>
    IsBody s n ∧ WellFormed (Free strict) n := by
  refine (Gives.kindOf (kind?_of_kind ht)).bind fun kind hk => .ite (fun h => ?_) fun h => ?_
  · obtain rfl : s = .kwEnum := Kind.c.inj (hk.symm.trans (eq_of_beq h))
    exact keeps_enumBody t
  · refine keeps_recordBody s fun enum => h ?_
    rw [hk, enum]
    rfl

/-- A tagged type is a branch of its keyword. -/
theorem keeps_tagged (ht : t.kind = .c s) (hs : s ∈ taggedSymbols) :
    (schema strict).Gives (tagged t) fun n => IsSpecifier n ∧ (schema strict).good r n := by
  have made {ns : List Node} (fits : Fits (Free strict) s ns)
      (below : ∀ n ∈ ns, WellFormed (Free strict) n) :
      IsSpecifier (.branch t ns) ∧ (schema strict).good r (.branch t ns) := by
    refine ⟨.inr ?_, good_branch ht (not_finished_of_tagged hs) fits below⟩
    rw [branchOf, ht]
    exact among_iff.mpr hs
  refine (keeps_accept _).bind fun _ _ => .ite (fun _ => ?_) fun _ => ?_
  · refine (keeps_taggedBody ht).bind fun body hb => .pure ?_
    exact made (.anonymous hs hb.1) (List.forall_mem_singleton.mpr hb.2)
  · refine (Gives.expr _).bind fun tag htag => (keeps_isIdent htag.1).bind fun _ hname =>
      .ite (fun h => ?_) fun _ => .raise trivial
    refine (keeps_acceptOrEnd _).bind fun _ _ => .ite (fun _ => ?_) fun _ => .pure ?_
    · refine (keeps_taggedBody ht).bind fun body hb => .pure ?_
      exact made (.tagBody hs (hname h) hb.1) (by simp [htag.1, hb.2])
    · exact made (.tag hs (hname h)) (List.forall_mem_singleton.mpr htag.1)

theorem keeps_taggedFirst (ht : t.kind = .c s) (hs : s ∈ taggedSymbols) (power : Int) :
    (schema strict).Gives (taggedFirst.action t power) ((schema strict).good r) :=
  (keeps_tagged ht hs).mono fun _ h => h.2

theorem keeps_taggedAfter (hl : WellFormed (Free strict) left) (ht : t.kind = .c s)
    (hs : s ∈ taggedSymbols) (power : Int) :
    (schema strict).Gives (taggedAfter.action t power left) ((schema strict).good r) :=
  (keeps_tagged (r := r) ht hs).bind fun _ h => keeps_extendSpecifiers hl h.1 h.2.1

end Declarations

section Statements

theorem keeps_statement (semicolonRequired : Bool) :
    (schema strict).Gives (statement semicolonRequired) (WellFormed (Free strict)) := by
  have body (keyword : Bool) :
      (schema strict).Gives (statementOf semicolonRequired keyword) (WellFormed (Free strict)) := by
    refine .ite (fun _ => (Gives.expr _).mono fun _ h => h.1) fun _ => (Gives.expr _).bind fun n hn => ?_
    have terminated : (schema strict).Gives (require .semicolon n >>= fun _ => pure n)
        (WellFormed (Free strict)) := (keeps_require _ n).bind fun _ _ => .pure hn.1
    refine .ite (fun _ => terminated) fun _ => Gives.peek.bind fun next _ => ?_
    exact .ite (fun _ => terminated) fun _ => .pure hn.1
  refine Gives.peek.bind fun next found => ?_
  cases next with
  | none => exact body false
  | some t =>
    obtain ⟨kind, hk⟩ := found t rfl
    exact (Gives.kindOf hk).bind fun kind _ => body (among statementSymbols kind)

theorem keeps_condition : (schema strict).Gives condition (WellFormed (Free strict)) :=
  (Gives.consume _).bind fun _ _ => (Gives.expr _).bind fun _ hn =>
    (Gives.consume _).bind fun _ _ => .pure hn.1

variable (may : (schema strict).may r t.kind = true)
include may

theorem keeps_gotoRule (ht : t.kind = .c .kwGoto) (power : Int) :
    (schema strict).Gives (gotoRule.action t power) ((schema strict).good r) := by
  refine (Gives.expr _).bind fun label hl => (keeps_isIdent hl.1).bind fun _ hname =>
    .ite (fun h => (keeps_require _ _).bind fun _ _ => .pure ?_) fun _ => .raise trivial
  exact good_statement may ht (by decide) ht (.goto (hname h)) (List.forall_mem_singleton.mpr hl.1)

theorem keeps_jump (ht : t.kind = .c s) (hs : s ∈ [CSymbol.kwContinue, .kwBreak]) (power : Int) :
    (schema strict).Gives (jump.action t power) ((schema strict).good r) := by
  have starts : ∀ s ∈ [CSymbol.kwContinue, .kwBreak], s ∈ statementSymbols := by decide
  refine (keeps_require _ _).bind fun _ _ => .pure ?_
  exact good_statement may ht (starts s hs) ht (.jump hs) (List.forall_mem_nil _)

theorem keeps_returnRule (ht : t.kind = .c .kwReturn) (power : Int) :
    (schema strict).Gives (returnRule.action t power) ((schema strict).good r) := by
  refine (keeps_accept _).bind fun _ _ => .ite (fun _ => .pure ?_) fun _ => ?_
  · exact good_statement may ht (by decide) ht .exit (List.forall_mem_nil _)
  · refine (Gives.expr _).bind fun value hv => (keeps_require _ _).bind fun _ _ => .pure ?_
    exact good_statement may ht (by decide) ht (.answer value) (List.forall_mem_singleton.mpr hv.1)

theorem keeps_defaultRule (ht : t.kind = .c .kwDefault) (power : Int) :
    (schema strict).Gives (defaultRule.action t power) ((schema strict).good r) := by
  refine (keeps_require _ _).bind fun _ _ => (keeps_statement true).bind fun body hb => .pure ?_
  exact good_statement may ht (by decide) ht (.otherwise body) (List.forall_mem_singleton.mpr hb)

theorem keeps_caseRule (ht : t.kind = .c .kwCase) (power : Int) :
    (schema strict).Gives (caseRule.action t power) ((schema strict).good r) := by
  refine (Gives.expr _).bind fun value hv => (keeps_require _ _).bind fun _ _ =>
    (keeps_statement true).bind fun body hb => .pure ?_
  exact good_statement may ht (by decide) ht (.labelled value body) (by simp [hv.1, hb])

theorem keeps_ifRule (ht : t.kind = .c .kwIf) (power : Int) :
    (schema strict).Gives (ifRule.action t power) ((schema strict).good r) := by
  refine keeps_condition.bind fun test htest => (keeps_statement true).bind fun yes hyes =>
    (keeps_acceptOrEnd _).bind fun _ _ => .ite (fun _ => ?_) fun _ => .pure ?_
  · refine (keeps_statement true).bind fun no hno => .pure ?_
    exact good_statement may ht (by decide) ht (.ifElse test yes no) (by simp [htest, hyes, hno])
  · exact good_statement may ht (by decide) ht (.ifThen test yes) (by simp [htest, hyes])

theorem keeps_whileRule (ht : t.kind = .c .kwWhile) (power : Int) :
    (schema strict).Gives (whileRule.action t power) ((schema strict).good r) := by
  refine keeps_condition.bind fun test htest => (keeps_statement true).bind fun body hb => .pure ?_
  exact good_statement may ht (by decide) ht (.loop test body) (by simp [htest, hb])

theorem keeps_block (ht : t.kind = .c .leftBrace) (power : Int) :
    (schema strict).Gives (block.action t power) ((schema strict).good r) := by
  have item : (schema strict).Gives (do
      if ← accept .rightBrace then return .done
      else return .item (← statement true)) (Round.All (WellFormed (Free strict))) :=
    (keeps_accept _).bind fun _ _ => .ite (fun _ => .pure trivial) fun _ =>
      (keeps_statement true).bind fun _ hn => .pure hn
  refine item.repeated.bind fun body hb => .pure ?_
  exact good_statement (s := .block) may ht (by decide) rfl (.block body) hb

end Statements

/-- Every rule that starts an expression keeps the contract. -/
theorem eachPrefix_keeps : EachPrefix fun s rule => ∀ (t : Token) (r : Int), t.kind = .c s →
    (schema strict).may r t.kind = true →
      (schema strict).Gives (rule.action t rule.power) ((schema strict).good r) where
  operand _ hs _ _ ht _ := .pure (good_leaf ht (List.mem_append_left _ hs))
  specifier _ hs _ _ ht _ := .pure (good_leaf ht (List.mem_append_right _ hs))
  tagged _ hs _ _ ht _ := keeps_taggedFirst ht hs _
  operator _ hs _ _ ht _ := keeps_unary ht hs _
  parentheses _ _ _ _ := keeps_parentheses _
  goto _ _ ht may := keeps_gotoRule may ht _
  jump _ hs _ _ ht may := keeps_jump may ht hs _
  exit _ _ ht may := keeps_returnRule may ht _
  otherwise _ _ ht may := keeps_defaultRule may ht _
  labelled _ _ ht may := keeps_caseRule may ht _
  choice _ _ ht may := keeps_ifRule may ht _
  loop _ _ ht may := keeps_whileRule may ht _
  block _ _ ht may := keeps_block may ht _

/-- Every rule that continues an expression keeps the contract, and none has more power than a
statement is read at. -/
theorem eachInfix_keeps : EachInfix fun s rule => rule.left ≤ Level.highest ∧
    ∀ (t : Token) (r : Int) (left : Node), t.kind = .c s → WellFormed (Free strict) left →
      Free strict left →
        (schema strict).Gives (rule.action t rule.right left) ((schema strict).good r) where
  specifier _ hs := ⟨by decide, fun _ _ _ ht hl _ => keeps_specifierAfter hl ht hs _⟩
  tagged _ hs := ⟨by decide, fun _ _ _ ht hl _ => keeps_taggedAfter hl ht hs _⟩
  declarator := ⟨by decide, fun _ _ _ ht hl _ => keeps_declarator hl ht _⟩
  assignment _ hs :=
    ⟨by decide, fun _ _ _ ht hl ho => keeps_binary hl ho ht (List.mem_append_left _ hs) _ _⟩
  conditional := ⟨by decide, fun _ _ _ _ hl ho => keeps_conditional hl ho _⟩
  between s hs power hp := by
    have mem : ∀ s ∈ [CSymbol.orOr, .andAnd, .bar, .caret, .ampersand, .equals, .notEquals, .less,
        .greater, .lessEq, .greaterEq, .shiftLeft, .shiftRight, .plus, .minus, .slash, .percent],
        s ∈ betweenSymbols := by decide
    exact ⟨Int.le_of_lt hp, fun _ _ _ ht hl ho => keeps_binary hl ho ht (mem s hs) _ _⟩
  star := ⟨by decide, fun _ _ _ ht hl ho => keeps_starAfter hl ho ht _⟩
  step _ hs := ⟨by decide, fun _ _ _ ht hl ho => keeps_stepAfter hl ho ht hs _⟩
  call := ⟨by decide, fun _ _ _ _ hl ho => keeps_call hl ho _⟩
  index := ⟨by decide, fun _ _ _ _ hl ho => keeps_index hl ho _⟩
  member _ hs := ⟨by decide, fun _ _ _ ht hl ho => keeps_member hl ho ht hs _⟩

theorem binds_schema (limit : Option Int) : (schema strict).Binds (Grammar.c.parser limit) where
  incomplete := trivial
  missingRule _ _ _ := trivial
  consumeFailed _ _ _ := trivial
  tooDeep _ _ := trivial
  classified _ _ _ := rfl
  starting := by
    intro t rule r _ hr may
    obtain ⟨s, ht, h⟩ := eachPrefix_keeps.of_lookup hr
    exact h t r ht may
  continuing := by
    intro t rule r left _ hr tighter hl
    obtain ⟨s, ht, bounded, h⟩ := eachInfix_keeps.of_lookup hr
    exact h t r left ht hl.1 (hl.2 (Int.lt_of_lt_of_le tighter bounded))

theorem keeps_program : (schema strict).Gives program fun ns => ∀ n ∈ ns, WellFormed (Free strict) n := by
  apply Gives.repeated
  refine Gives.peek.bind fun next _ => ?_
  cases next with
  | none => exact .pure trivial
  | some t => exact (keeps_statement false).bind fun _ hn => .pure hn

/-- A parse ends in no defect, and in well formed trees if statements only started where they may. -/
theorem fulfils_run (text : String) (limit : Option Int)
    (ha : Event.admits (schema strict).may (Grammar.c.run text limit).2.log = true) :
    (schema strict).Fulfils (fun ns _ => ∀ n ∈ ns, WellFormed (Free strict) n)
      (Grammar.c.run text limit) := by
  refine Grammar.fulfils_run (binds_schema limit) keeps_program ⟨fun t ht => ?_, fun _ _ => trivial⟩ ha
  obtain ⟨kind, value, place, rfl⟩ := ScanRule.lexeme_of_mem_scan ht
  exact ⟨kind, rfl⟩

theorem wellFormed_of_admitted {text : String} {limit : Option Int} {ns : List Node}
    (h : Grammar.c.parse text limit = .ok ns)
    (ha : Event.admits (schema strict).may (Grammar.c.run text limit).2.log = true) :
    ∀ n ∈ ns, WellFormed (Free strict) n := by
  have done := fulfils_run text limit ha
  rcases hr : Grammar.c.run text limit with ⟨r, s⟩
  rw [hr] at done
  obtain rfl : r = .ok ns := (congrArg Prod.fst hr).symm.trans h
  exact done

end

/-- Every tree that is parsed obeys the schema. -/
theorem wellFormed_of_parse {text : String} {limit : Option Int} {ns : List Node}
    (h : Grammar.c.parse text limit = .ok ns) : ∀ n ∈ ns, WellFormed (fun _ => True) n := by
  have any : Free false = fun _ => True := funext fun _ => eq_true fun h => absurd h Bool.false_ne_true
  rw [← any]
  exact wellFormed_of_admitted h (Event.admits_of_forall (fun _ _ => rfl) _)

theorem wellFormed_of_parse_stepped :
    Grammar.c.parse "a->b++;" none = .ok [.branch CSymbol.stepped.token
      [.branch (.lexeme (.c .arrow) "->" (some 1)) [.leaf (.lexeme (.c .ident) "a" (some 0)),
        .leaf (.lexeme (.c .ident) "b" (some 3))], .leaf (.lexeme (.c .increment) "++" (some 4))]] ∧
    WellFormed (fun _ => True) (.branch CSymbol.stepped.token
      [.branch (.lexeme (.c .arrow) "->" (some 1)) [.leaf (.lexeme (.c .ident) "a" (some 0)),
        .leaf (.lexeme (.c .ident) "b" (some 3))], .leaf (.lexeme (.c .increment) "++" (some 4))]) := by
  have parsed : Grammar.c.parse "a->b++;" none = .ok [.branch CSymbol.stepped.token
      [.branch (.lexeme (.c .arrow) "->" (some 1)) [.leaf (.lexeme (.c .ident) "a" (some 0)),
        .leaf (.lexeme (.c .ident) "b" (some 3))], .leaf (.lexeme (.c .increment) "++" (some 4))]] := by
    decide +kernel
  exact ⟨parsed, wellFormed_of_parse parsed _ List.mem_cons_self⟩

end BindingPower.C
