import BindingPower.Proofs.Defect
import BindingPower.Proofs.Lookahead

/-! What a parser does only after it has made sure of it. It takes a token only when it has seen one, and
it looks up the infix rule of a token only when it has found one that binds; what would be done otherwise
makes no difference. With it, parsing a text comes to nodes or to an error of the input. -/
namespace BindingPower
open ParseM

/-- What is done, in place of an error, where a token is to be taken and none is to come, and where the
infix rule of a token is to be applied and there is none. -/
structure Trap where
  exhausted : ParseM Token
  missing : Token → ParseM Node

namespace Parser.Trapped
variable (trap : Trap) (p : Parser)

/-- Takes the next token, or falls into the trap. -/
def advance : ParseM Token := fun s =>
  if s.room = 0 then trap.exhausted s else ParseM.advance s

def consume (expected : Token) : ParseM Unit := do
  match ← peek with
  | none => raise .incomplete
  | some t =>
    if t.same expected then
      let _ ← advance trap
      return
    else raise (.consumeFailed expected t)

def elements (expr : Int → ParseM Node) (level : Int) (separator closing : Option Token) :
    (times : Nat) → ParseM (List (Outcome Node))
  | 0 => pure []
  | times + 1 => do
    if ← closes separator closing then
      let _ ← advance trap
      return []
    else
      match ← outcome (expr level) with
      | .error e => return ending closing e
      | .ok n =>
        match separator with
        | none => return .ok n :: (← elements expr level none closing times)
        | some separator =>
          match ← outcome (consume trap separator) with
          | .ok () => return .ok n :: (← elements expr level (some separator) closing times)
          | .error .incomplete => return .ok n :: ending closing .incomplete
          | .error (.consumeFailed expected found) =>
            if closing.any found.same then
              let _ ← advance trap
              return [.ok n]
            else return [.ok n, .error (.consumeFailed expected found)]
          | .error e => raise e

def answer (expr : Int → ParseM Node) : (q : Request) → ParseM q.Answer
  | .peek => peek
  | .binds threshold => p.binds threshold
  | .expr threshold => expr threshold
  | .consume expected => consume trap expected
  | .sequence level separator closing => do
    elements trap expr level separator closing ((← room) + 1)

def run (expr : Int → ParseM Node) {α : Type} : Action α → ParseM α
  | .give a => pure a
  | .fail cause => throw cause
  | .ask q next => do
    let a ← outcome (answer trap p expr q)
    run expr (next a)
  | .gather round next => do
    let items ← outcome (do rounds (run expr round) ((← room) + 1))
    run expr (next items)

def start (expr : Int → ParseM Node) : ParseM Node := do
  let t ← advance trap
  let kind ← p.kindOf t
  record (.classify t kind)
  match p.table.prefixRule? kind with
  | none => raise (.missingRule t .starting)
  | some rule =>
    let left ← run trap p expr (rule.action t rule.power)
    record (.left left)
    return left

def extend (expr : Int → ParseM Node) (left : Node) : ParseM Node := do
  let t ← advance trap
  match p.table.infixRule? (← p.kindOf t) with
  | none => trap.missing t
  | some rule =>
    let left ← run trap p expr (rule.action t rule.right left)
    record (.left left)
    return left

def continued (expr : Int → ParseM Node) (threshold : Int) : (bound : Nat) → Node → ParseM Node
  | 0, left => do
    let _ ← p.binds threshold
    return left
  | bound + 1, left => do
    if ← p.binds threshold then
      let left ← extend trap p expr left
      continued expr threshold bound left
    else return left

def expr : (bound : Nat) → (threshold : Int) → ParseM Node
  | 0, threshold => p.nested threshold do
    let _ ← peek
    raise .incomplete
  | bound + 1, threshold => p.nested threshold do
    match ← peek with
    | none => raise .incomplete
    | some _ =>
      let left ← start trap p (expr bound)
      let n ← continued trap p (expr bound) threshold bound left
      record (.result n)
      return n

/-- Carries out an action with the trap set. -/
def perform {α : Type} (action : Action α) : ParseM α := do
  run trap p (expr trap p (← room)) action

end Parser.Trapped

/-- The kind of a token is a matter of the token alone. -/
def Classifier.Constant (c : Classifier) : Prop := ∀ i j t, c i t = c j t

theorem Classifier.byKind_constant : byKind.Constant := fun _ _ _ => rfl

theorem Classifier.byText_constant : byText.Constant := fun _ _ t => by cases t <;> rfl

namespace ParseM
variable {α β : Type}

/-- What comes after a computation needs to be the same only where the computation may come to. -/
theorem bind_congr_of {m : ParseM α} {f g : α → ParseM β}
    (h : ∀ s a s', m s = (.ok a, s') → f a s' = g a s') : m >>= f = m >>= g := by
  funext s
  rw [bind_apply, bind_apply]
  rcases hm : m s with ⟨e | a, s'⟩
  · rfl
  · exact h s a s' hm

theorem of_outcome {m : ParseM α} {s s' : Progress} {a : α} (h : outcome m s = (.ok (.ok a), s')) :
    m s = (.ok a, s') := by
  unfold outcome at h
  rcases hm : m s with ⟨(e | d) | b, t⟩ <;> rw [hm] at h <;> cases h
  rfl

end ParseM

namespace Parser
variable {p : Parser} {s s' : Progress}

/-- Without a separator, the closing token is looked for before it is taken. -/
theorem room_pos_of_closes {separator closing : Option Token}
    (h : closes separator closing s = (.ok true, s')) : 0 < s'.room := by
  rcases separator with _ | _ <;> rcases closing with _ | c <;> try cases h
  rw [closes, at?, bind_apply] at h
  rcases hp : peek s with ⟨e | _ | t, s₁⟩ <;> rw [hp] at h
  · cases h
  · cases h
  · obtain ⟨-, rfl⟩ := Prod.mk.inj h
    exact room_pos_of_peek hp

/-- What is found to continue an expression is the next token, which has an infix rule. -/
theorem rule_of_binds {r : Int} (h : p.binds r s = (.ok true, s')) :
    ∃ t i kind rule, peek s' = (.ok (some t), s') ∧ p.classifier i t = .ok kind ∧
      p.table.infixRule? kind = some rule := by
  obtain ⟨next, looked⟩ := (looked_of_binds h).peek
  rw [binds, bind_apply] at h
  rcases hp : peek s with ⟨c | _ | t, s₁⟩ <;> rw [hp] at h
  · cases h
  · cases h
  · have same := p.lexer_kindOf t s₁
    dsimp only at h
    rw [bind_apply] at h
    rcases hk : p.kindOf t s₁ with ⟨d | kind, s₂⟩ <;> rw [hk] at h same
    · cases h
    · dsimp only at h
      cases hr : p.table.infixRule? kind with
      | none =>
        rw [hr] at h
        cases h
      | some rule =>
        rw [hr] at h
        obtain ⟨-, rfl⟩ := Prod.mk.inj h
        have classified : p.classifier s₁.classified t = .ok kind := by
          unfold kindOf at hk
          split at hk <;> cases hk
          assumption
        have shown : peek s₂ = (.ok (some t), s₂) := by
          rw [peek, same, lexer_of_peek hp]
          simp [← same]
        exact ⟨t, _, kind, rule, shown, classified, hr⟩

end Parser

namespace Parser.Trapped
variable {trap : Trap} {p : Parser} {e : Int → ParseM Node} {s s' : Progress}

theorem advance_of_room_pos (h : 0 < s.room) : advance trap s = ParseM.advance s :=
  if_neg (Nat.ne_of_gt h)

theorem consume_eq (expected : Token) : consume trap expected = ParseM.consume expected := by
  apply bind_congr_of
  rintro s (_ | t) s' hp
  · rfl
  · dsimp only
    split
    · rw [bind_apply, bind_apply, advance_of_room_pos (room_pos_of_peek hp)]
    · rfl

section
variable (looked : ∀ r s n s', e r s = (.ok n, s') → s'.Looked)
include looked

theorem elements_eq (level : Int) (separator closing : Option Token) (times : Nat) :
    elements trap e level separator closing times =
      Parser.elements e level separator closing times := by
  induction times with
  | zero => rfl
  | succ times ih =>
    apply bind_congr_of
    rintro s (_ | _) s' hc
    · refine congrFun (bind_congr_of ?_) s'
      rintro s (c | n) s' read
      · rfl
      · have shown := looked level s n s' (of_outcome read)
        cases separator with
        | none =>
          dsimp only
          rw [ih]
        | some separator =>
          dsimp only
          rw [consume_eq, bind_apply, bind_apply, outcome]
          -- The token that is no separator has been seen where it is taken.
          rcases shown.consume with ⟨-, hs⟩ | ⟨t, after, ht, -, hs⟩
          · rw [hs separator]
          · by_cases same : t.same separator = true
            · rw [hs separator, if_pos same]
              simp only [ih]
            · rw [hs separator, if_neg same]
              dsimp only
              split
              · rw [bind_apply, bind_apply, advance_of_room_pos (room_pos_of_peek ht)]
              · rfl
    · simp only [if_true]
      rw [bind_apply, bind_apply, advance_of_room_pos (room_pos_of_closes hc)]

theorem answer_eq (q : Request) : answer trap p e q = p.answer e q := by
  cases q with
  | consume expected => exact consume_eq expected
  | sequence level separator closing =>
    exact congrArg (room >>= ·) (funext fun _ => elements_eq looked level separator closing _)
  | _ => rfl

theorem run_eq {α : Type} (a : Action α) : run trap p e a = p.run e a := by
  induction a with
  | give a => rfl
  | fail cause => rfl
  | ask q next ih =>
    rw [run, Parser.run, answer_eq looked]
    exact congrArg (_ >>= ·) (funext ih)
  | gather round next ihr ih =>
    rw [run, Parser.run, ihr]
    exact congrArg (_ >>= ·) (funext ih)

theorem start_eq (h : 0 < s.room) : start trap p e s = p.start e s := by
  rw [start, bind_apply, advance_of_room_pos h]
  simp only [run_eq looked]
  exact (bind_apply ..).symm

theorem extend_eq (constant : p.classifier.Constant) {r : Int} (left : Node)
    (h : p.binds r s = (.ok true, s')) : extend trap p e left s' = p.extend e left s' := by
  obtain ⟨t, i, kind, rule, shown, classified, hr⟩ := rule_of_binds h
  obtain ⟨after, taken⟩ := advance_of_peek shown
  rw [extend, Parser.extend, bind_apply, bind_apply, advance_of_room_pos (room_pos_of_peek shown), taken]
  have again : p.kindOf t after = (.ok kind, { after with classified := after.classified + 1 }) := by
    rw [kindOf, constant after.classified i, classified]
  dsimp only
  rw [bind_apply, bind_apply, again]
  simp only [hr, run_eq looked]

theorem continued_eq (constant : p.classifier.Constant) (r : Int) (bound : Nat) (left : Node) :
    continued trap p e r bound left = p.continued e r bound left := by
  induction bound generalizing left with
  | zero => rfl
  | succ bound ih =>
    apply bind_congr_of
    rintro s (_ | _) s' hb
    · rfl
    · simp only [if_true]
      rw [bind_apply, bind_apply, extend_eq looked constant left hb]
      simp only [ih]

end

theorem expr_eq (constant : p.classifier.Constant) (bound : Nat) :
    expr trap p bound = p.expr bound := by
  induction bound with
  | zero => rfl
  | succ bound ih =>
    have looked (r : Int) (s : Progress) (n : Node) (s' : Progress)
        (h : p.expr bound r s = (.ok n, s')) : s'.Looked := looked_of_expr h
    funext r
    refine congrArg (p.nested r) (bind_congr_of ?_)
    rintro s (_ | t) s' hp
    · rfl
    · dsimp only
      rw [ih, bind_apply, bind_apply, start_eq looked (room_pos_of_peek hp)]
      simp only [continued_eq looked constant]

/-- Where tokens are of the same kind each time they are classified, no trap is fallen into. -/
theorem perform_eq (constant : p.classifier.Constant) {α : Type} (a : Action α) :
    perform trap p a = p.perform a := by
  refine congrArg (room >>= ·) (funext fun bound => ?_)
  rw [expr_eq constant]
  exact run_eq (fun _ _ _ _ => looked_of_expr) a

end Parser.Trapped

namespace ScanRule

/-- A rule with a kind for every text that its pattern matches. -/
def Labels (rule : ScanRule) : Prop :=
  ∀ s, ∀ n ∈ rule.pattern.widths s, ∀ place t,
    rule.token? (String.ofList (s.take n)) place = some t → t.kind ≠ .absent

theorem Labels.skip (p : Pattern) : Labels ⟨p, .skip⟩ := fun _ _ _ _ _ h => nomatch h

theorem Labels.kind {kind : Kind} (p : Pattern) (h : kind ≠ .absent) : Labels ⟨p, .kind kind⟩ := by
  rintro _ _ _ _ _ ⟨⟩
  exact h

theorem Labels.byText {p : Pattern} {kindOf : String → Kind}
    (h : ∀ s, ∀ n ∈ p.widths s, kindOf (String.ofList (s.take n)) ≠ .absent) :
    Labels ⟨p, .byText kindOf⟩ := by
  rintro s n hn _ _ ⟨⟩
  exact h s n hn

theorem kind_ne_absent_of_mem_scan {rules : List ScanRule} (h : ∀ rule ∈ rules, rule.Labels)
    {text : String} {t : Token} (ht : t ∈ (scan rules text).tokens) : t.kind ≠ .absent := by
  obtain ⟨rule, member, rest, n, hn, place, made⟩ := match_of_mem_scanFrom ht
  exact h rule member rest n hn place t made

end ScanRule

/-- A table has a kind for every text it lists. -/
private theorem kind_of_mem_table {α : Type} {table : List (String × α)} {kind : α → Kind}
    (present : ∀ a, kind a ≠ .absent) {text : String} (h : text ∈ table.map Prod.fst) :
    ((table.lookup text).map kind).getD .absent ≠ .absent := by
  obtain ⟨x, hx, rfl⟩ := List.mem_map.mp h
  cases found : table.lookup x.1 with
  | none => simpa using List.lookup_eq_none_iff.mp found x hx
  | some a => exact present a

namespace Ebnf

/-- Every mark that is matched is in the table of marks. -/
theorem labels_lexemes : ∀ rule ∈ lexemes, rule.Labels := by
  have present (symbol : EbnfSymbol) : Kind.ebnf symbol ≠ .absent := by rintro ⟨⟩
  simp only [lexemes, List.forall_mem_cons]
  refine ⟨.skip _, .kind _ (present _), .kind _ (present _), .kind _ (present _),
    .byText fun s n hn => ?_, List.forall_mem_nil _⟩
  obtain ⟨c, rest, rfl, hc, rfl⟩ := Pattern.mem_widths_one hn
  have listed : String.ofList [c] ∈ EbnfSymbol.punctuation.map Prod.fst := by
    simp only [CharSet.mem, List.map_cons, List.map_nil, List.any_cons, List.any_nil, Bool.or_false,
      Bool.bne_false, Bool.or_eq_true, Pattern.mem_range_self] at hc
    obtain rfl | rfl | rfl | rfl | rfl | rfl | rfl | rfl := hc <;> decide
  exact kind_of_mem_table present listed

end Ebnf

namespace C

/-- Every operator that is matched is in the table of operators. -/
theorem labels_lexemes : ∀ rule ∈ lexemes, rule.Labels := by
  have present (symbol : CSymbol) : Kind.c symbol ≠ .absent := by rintro ⟨⟩
  simp only [lexemes, List.forall_mem_cons]
  refine ⟨.skip _, .skip _, .kind _ (present _), .kind _ (present _), .kind _ (present _),
    .kind _ (present _), .byText fun _ _ _ => present _,
    .byText fun s n hn => ?_, List.forall_mem_nil _⟩
  obtain ⟨p, hp, hn⟩ := Pattern.exists_of_mem_widths_oneOf hn
  obtain ⟨⟨text, symbol⟩, listed, rfl⟩ := List.mem_map.mp hp
  rw [Pattern.take_of_mem_widths_literal hn, String.ofList_toList]
  exact kind_of_mem_table present (List.mem_map_of_mem listed)

end C

namespace Grammar
variable {g : Grammar} (hg : g ∈ bundled)
include hg

theorem constant_of_bundled : g.classifier.Constant := by
  simp only [bundled, List.mem_cons, List.not_mem_nil, or_false] at hg
  obtain rfl | rfl | rfl := hg
  · exact Classifier.byText_constant
  · exact Classifier.byKind_constant
  · exact Classifier.byKind_constant

theorem kind_ne_absent_of_bundled {text : String} {t : Token} (ht : t ∈ (g.scan text).tokens) :
    t.kind ≠ .absent := by
  simp only [bundled, List.mem_cons, List.not_mem_nil, or_false] at hg
  obtain rfl | rfl | rfl := hg
  · obtain ⟨value, rfl⟩ := Arithmetic.isWord_of_mem_scan ht
    rintro ⟨⟩
  · exact ScanRule.kind_ne_absent_of_mem_scan Ebnf.labels_lexemes ht
  · exact ScanRule.kind_ne_absent_of_mem_scan C.labels_lexemes ht

/-- Parsing a text comes to nodes or to an error of the input: no rule asks of a token or a node what it
does not have, every lexeme has a kind, and neither is a token taken where none is to come nor an infix
rule applied that is missing. -/
theorem parse_total (text : String) (limit : Option Int) :
    ((∃ ns, g.parse text limit = .ok ns) ∨ ∃ e, g.parse text limit = .error (.error e)) ∧
    (∀ t ∈ (g.scan text).tokens, t.kind ≠ .absent) ∧
    ∀ trap, Parser.Trapped.perform trap (g.parser limit) g.program (g.start text) = g.run text limit := by
  refine ⟨?_, fun t ht => kind_ne_absent_of_bundled hg ht, fun trap => ?_⟩
  · rcases h : g.parse text limit with (e | d) | ns
    · exact .inr ⟨e, rfl⟩
    · exact absurd h (parse_ne_defect hg text limit d)
    · exact .inl ⟨ns, rfl⟩
  · rw [Parser.Trapped.perform_eq (constant_of_bundled hg), run]

omit hg in
theorem parse_total_repeated : ebnf ∈ bundled ∧
    ((∃ ns, ebnf.parse "a : b * ;" (some 2) = .ok ns) ∨
      ∃ e, ebnf.parse "a : b * ;" (some 2) = .error (.error e)) ∧
    (∀ t ∈ (ebnf.scan "a : b * ;").tokens, t.kind ≠ .absent) ∧
    ∀ trap, Parser.Trapped.perform trap (ebnf.parser (some 2)) ebnf.program (ebnf.start "a : b * ;") =
      ebnf.run "a : b * ;" (some 2) :=
  have bundled : ebnf ∈ bundled := .tail _ (.head _)
  ⟨bundled, parse_total bundled _ _⟩

end Grammar

end BindingPower
