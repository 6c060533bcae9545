import BindingPower.Proofs.Capturing
import Mathlib.Logic.ExistsUnique

/-! A scan cuts its text into adjacent spans from the beginning on, each the match of the first rule that
matches where it starts, up to the end or to a place where there is no such span to come. That holds of the
rules tried one by one and of their patterns fused into one, by whose groups a match finds its rule. -/
namespace BindingPower.ScanRule

/-- A piece of a text that a rule takes. -/
structure Span where
  rule : ScanRule
  start : Nat
  width : Nat

namespace Span

def value (s : List Char) (x : Span) : String := String.ofList ((s.drop x.start).take x.width)

/-- The lexeme of the span, unless its rule skips it. -/
def token? (s : List Char) (x : Span) : Option Token := x.rule.token? (x.value s) x.start

end Span

/-- The first of the rules in order that matches the beginning of a text, and how much its match takes. -/
def FirstMatch (rules : List ScanRule) (u : List Char) (rule : ScanRule) (width : Nat) : Prop :=
  ∃ front back, rules = front ++ rule :: back ∧ (∀ earlier ∈ front, earlier.pattern.widths u = []) ∧
    (rule.pattern.widths u).head? = some width

/-- No rule matches the beginning of the text, or the first one that does takes nothing. -/
def Blocked (rules : List ScanRule) (u : List Char) : Prop :=
  (∀ rule ∈ rules, rule.pattern.widths u = []) ∨ ∃ rule, FirstMatch rules u rule 0

/-- A chain of spans that are not empty, from one place of a text to another: each starts where the one
before it ends and is the match of the first rule that matches there. -/
inductive Tiles (rules : List ScanRule) (s : List Char) : Nat → List Span → Nat → Prop
  | done (p : Nat) : Tiles rules s p [] p
  | step {rule : ScanRule} {p width : Nat} {spans : List Span} {q : Nat} (positive : 0 < width)
      (first : FirstMatch rules (s.drop p) rule width) (rest : Tiles rules s (p + width) spans q) :
      Tiles rules s p (⟨rule, p, width⟩ :: spans) q

/-- How a scan ends that has come as far as a place: well at the end of the text and nowhere else, and
otherwise with the character there as unexpected. -/
structure Ends (rules : List ScanRule) (s : List Char) (p : Nat) (fault : Option ParseError) : Prop where
  well : fault = none ↔ p = s.length
  badly : ∀ e, fault = some e → ∃ h : p < s.length,
    e = .unexpectedCharacter (String.singleton s[p]) p ∧ Blocked rules (s.drop p)

section First
variable {rules : List ScanRule} {u : List Char} {rule : ScanRule} {n : Nat}

theorem first?_cons (rule : ScanRule) (rules : List ScanRule) (u : List Char) :
    first? (rule :: rules) u = ((rule.pattern.widths u).head?.map (rule, ·)).or (first? rules u) := by
  rw [first?, List.findSome?_cons, Pattern.width?_eq_head?]
  cases (rule.pattern.widths u).head? <;> rfl

theorem first?_eq_none : first? rules u = none ↔ ∀ rule ∈ rules, rule.pattern.widths u = [] := by
  simp [first?, Pattern.width?_eq_head?]

theorem first?_eq_some : first? rules u = some (rule, n) ↔ FirstMatch rules u rule n := by
  constructor
  · intro h
    induction rules with
    | nil => cases h
    | cons head rules ih =>
      rw [first?_cons] at h
      cases hw : (head.pattern.widths u).head? with
      | some m =>
        rw [hw] at h
        obtain ⟨rfl, rfl⟩ := Prod.mk.inj (Option.some.inj h)
        exact ⟨[], rules, rfl, fun _ none => (List.not_mem_nil none).elim, hw⟩
      | none =>
        rw [hw] at h
        obtain ⟨front, back, rfl, earlier, here⟩ := ih h
        exact ⟨head :: front, back, rfl,
          List.forall_mem_cons.mpr ⟨List.head?_eq_none_iff.mp hw, earlier⟩, here⟩
  · rintro ⟨front, back, rfl, earlier, here⟩
    induction front with
    | nil => rw [List.nil_append, first?_cons, here]; rfl
    | cons head front ih =>
      obtain ⟨none, later⟩ := List.forall_mem_cons.mp earlier
      rw [List.cons_append, first?_cons, none]
      exact ih later

end First

section Scanning
variable {rules : List ScanRule} {s : List Char}

/-- At a place where the scan is blocked it stops, with the character that stands there. -/
theorem scanAt_of_blocked {c : Char} {u : List Char} (h : Blocked rules (c :: u)) (offset : Nat) :
    scanAt rules offset (c :: u) = ⟨[], some (.unexpectedCharacter (String.singleton c) offset)⟩ := by
  rw [scanAt, List.length_cons, scanFrom]
  obtain none | ⟨rule, first⟩ := h
  · rw [first?_eq_none.mpr none]
  · rw [first?_eq_some.mpr first]
    rfl

/-- Where a text goes on, a span is to come or the scan is blocked. -/
theorem blocked_or_firstMatch (rules : List ScanRule) (u : List Char) :
    Blocked rules u ∨ ∃ rule width, FirstMatch rules u rule (width + 1) := by
  rcases h : first? rules u with _ | ⟨rule, _ | width⟩
  · exact .inl (.inl (first?_eq_none.mp h))
  · exact .inl (.inr ⟨rule, first?_eq_some.mp h⟩)
  · exact .inr ⟨rule, width, first?_eq_some.mp h⟩

theorem scanAt_of_firstMatch {p width : Nat} {rule : ScanRule}
    (h : FirstMatch rules (s.drop p) rule (width + 1)) :
    let after := scanAt rules (p + (width + 1)) (s.drop (p + (width + 1)))
    scanAt rules p (s.drop p) =
      { after with tokens := (Span.token? s ⟨rule, p, width + 1⟩).toList ++ after.tokens } := by
  rw [scanAt_of_first? (first?_eq_some.mpr h), List.drop_drop]
  rfl

/-- From any place on, the scan finds a chain of spans and makes its lexemes of them. -/
theorem exists_tiles (rules : List ScanRule) {p : Nat} (hp : p ≤ s.length) :
    ∃ spans q, Tiles rules s p spans q ∧
      (scanAt rules p (s.drop p)).tokens = spans.filterMap (·.token? s) ∧
      Ends rules s q (scanAt rules p (s.drop p)).fault := by
  -- By induction on what is left of the text, which every span shortens.
  induction hk : s.length - p using Nat.strongRecOn generalizing p with
  | ind k ih =>
    rcases Nat.lt_or_eq_of_le hp with inside | rfl
    · rcases blocked_or_firstMatch rules (s.drop p) with blocked | ⟨rule, width, first⟩
      · have here : s.drop p = s[p] :: s.drop (p + 1) := List.drop_eq_getElem_cons inside
        have stopped : scanAt rules p (s.drop p) =
            ⟨[], some (.unexpectedCharacter (String.singleton s[p]) p)⟩ := by
          rw [here]
          exact scanAt_of_blocked (here ▸ blocked) p
        rw [stopped]
        refine ⟨[], p, .done p, rfl, ⟨fun none => ?_, fun stop => absurd stop (Nat.ne_of_lt inside)⟩, ?_⟩
        · cases none
        · rintro e ⟨⟩
          exact ⟨inside, rfl, blocked⟩
      · have fits := le_of_first? (first?_eq_some.mpr first)
        rw [List.length_drop] at fits
        obtain ⟨spans, q, tiles, tokens, ends⟩ :=
          ih (s.length - (p + (width + 1))) (by omega) (p := p + (width + 1)) (by omega) rfl
        rw [scanAt_of_firstMatch first]
        refine ⟨⟨rule, p, width + 1⟩ :: spans, q, .step (Nat.succ_pos width) first tiles, ?_, ends⟩
        rw [List.filterMap_cons]
        cases Span.token? s ⟨rule, p, width + 1⟩ with
        | none => exact tokens
        | some t => exact congrArg (t :: ·) tokens
    · rw [List.drop_length]
      exact ⟨[], s.length, .done _, rfl, ⟨fun _ => rfl, fun _ => rfl⟩, fun e none => by cases none⟩

end Scanning

namespace Tiles
variable {rules : List ScanRule} {s : List Char}

theorem le {p q : Nat} {spans : List Span} (h : Tiles rules s p spans q) : p ≤ q := by
  induction h with
  | done p => exact Nat.le_refl p
  | step positive first rest ih => exact Nat.le_trans (Nat.le_add_right _ _) ih

/-- Two chains between the same places are the same. -/
theorem unique {p q : Nat} {xs ys : List Span} (hx : Tiles rules s p xs q) (hy : Tiles rules s p ys q) :
    xs = ys := by
  induction hx generalizing ys with
  | done p =>
    cases hy with
    | done => rfl
    | step positive first rest =>
      have forward := rest.le
      omega
  | step positive first rest ih =>
    cases hy with
    | done =>
      have forward := rest.le
      omega
    | step _ other later =>
      -- The first rule that matches is the same for both, so the spans are.
      have same := (first?_eq_some.mpr first).symm.trans (first?_eq_some.mpr other)
      obtain ⟨rfl, rfl⟩ := Prod.mk.inj (Option.some.inj same)
      rw [ih later]

end Tiles

/-- A scan that ends one way has come as far as one place. -/
theorem Ends.unique {rules : List ScanRule} {s : List Char} {p q : Nat} {fault : Option ParseError}
    (hp : Ends rules s p fault) (hq : Ends rules s q fault) : p = q := by
  cases fault with
  | none => exact (hp.well.mp rfl).trans (hq.well.mp rfl).symm
  | some e =>
    obtain ⟨_, he, _⟩ := hp.badly e rfl
    obtain ⟨_, he', _⟩ := hq.badly e rfl
    rw [he] at he'
    have same : (p : Int) = q := (ParseError.unexpectedCharacter.inj he').2
    exact Int.ofNat_inj.mp same

/-- The patterns of rules with the groups that are in them. -/
def Grouping (rules : List ScanRule) : Type :=
  { ps : List Capturing // ps.map Capturing.plain = rules.map pattern }

/-- There need not be any groups. -/
instance (rules : List ScanRule) : Inhabited (Grouping rules) :=
  ⟨(rules.map pattern).map .ofPattern, by simp [Function.comp_def, Capturing.plain_ofPattern]⟩

/-- The scan by one pattern, in which the name of the group closed last is the number of the rule; without
a result if no rule has that number. -/
def fusedFrom (rules : List ScanRule) (whole : Capturing) : (room offset : Nat) → List Char → Option Scan
  | _, _, [] => some ⟨[], none⟩
  | 0, _, _ :: _ => some ⟨[], none⟩
  | room + 1, offset, c :: s =>
    match whole.match? (c :: s) with
    | none | some (0, _) => some ⟨[], some (.unexpectedCharacter (String.singleton c) offset)⟩
    | some (width, closed) => do
      let number ← closed.join
      let rule ← rules[number]?
      let after ← fusedFrom rules whole room (offset + width) ((c :: s).drop width)
      let value := String.ofList ((c :: s).take width)
      return { after with tokens := (rule.token? value offset).toList ++ after.tokens }

/-- The scan by the rules fused into one pattern, each a group named by the number of the rule. -/
def fusedScan (rules : List ScanRule) (grouping : Grouping rules) (text : String) : Option Scan :=
  fusedFrom rules (.fuse 0 grouping.val) text.toList.length 0 text.toList

section Fused
variable {rules : List ScanRule} {u : List Char}

/-- Which of the patterns matches first, and how much its match takes. -/
private def numbered (u : List Char) (patterns : List (Pattern × Nat)) : Option (Nat × Capturing.Closed) :=
  patterns.findSome? fun (p, k) => (p.width? u).map (·, some (some k))

private theorem numbered_cons (rule : ScanRule) (rules : List ScanRule) (first : Nat) :
    numbered u (((rule :: rules).map pattern).zipIdx first) =
      ((rule.pattern.width? u).map (·, some (some first))).or
        (numbered u ((rules.map pattern).zipIdx (first + 1))) := by
  rw [List.map_cons, List.zipIdx_cons, numbered, List.findSome?_cons]
  cases h : rule.pattern.width? u <;> simp [h, numbered]

private theorem numbered_of_none {first : Nat} (h : first? rules u = none) :
    numbered u ((rules.map pattern).zipIdx first) = none := by
  induction rules generalizing first with
  | nil => rfl
  | cons rule rules ih =>
    rw [first?_cons, Option.or_eq_none_iff, Option.map_eq_none_iff] at h
    rw [numbered_cons, Pattern.width?_eq_head?, h.1]
    exact ih h.2

private theorem numbered_of_some (first : Nat) {rule : ScanRule} {n : Nat}
    (h : first? rules u = some (rule, n)) :
    ∃ k, rules[k]? = some rule ∧
      numbered u ((rules.map pattern).zipIdx first) = some (n, some (some (first + k))) := by
  induction rules generalizing first with
  | nil => cases h
  | cons head rules ih =>
    rw [numbered_cons, Pattern.width?_eq_head?]
    rw [first?_cons] at h
    cases hw : (head.pattern.widths u).head? with
    | some m =>
      rw [hw] at h
      obtain ⟨rfl, rfl⟩ := Prod.mk.inj (Option.some.inj h)
      exact ⟨0, rfl, rfl⟩
    | none =>
      rw [hw] at h
      obtain ⟨k, at_k, found⟩ := ih (first + 1) h
      refine ⟨k + 1, at_k, ?_⟩
      rw [Nat.add_comm k, ← Nat.add_assoc]
      exact found

/-- The fused pattern finds at a place what the rules find one by one. -/
private theorem match?_fuse_eq {ps : List Capturing} (h : ps.map Capturing.plain = rules.map pattern)
    (hne : ps ≠ []) : (Capturing.fuse 0 ps).match? u = numbered u ((rules.map pattern).zipIdx 0) := by
  rw [Capturing.match?_fuse 0 hne, h]
  rfl

/-- The fused pattern scans as the rules one by one, and its groups always name a rule. -/
theorem fusedFrom_eq (grouping : Grouping rules) (room offset : Nat) (u : List Char) :
    fusedFrom rules (.fuse 0 grouping.val) room offset u = some (scanFrom rules room offset u) := by
  obtain ⟨ps, h⟩ := grouping
  induction room generalizing offset u with
  | zero => cases u <;> rfl
  | succ room ih =>
    cases u with
    | nil => rfl
    | cons c u =>
      rw [fusedFrom, scanFrom]
      cases ps with
      | nil =>
        obtain rfl : rules = [] := List.map_eq_nil_iff.mp h.symm
        rfl
      | cons p ps =>
        rw [match?_fuse_eq h (List.cons_ne_nil p ps)]
        rcases hf : first? rules (c :: u) with _ | ⟨rule, width⟩
        · rw [numbered_of_none hf]
        · obtain ⟨k, at_k, found⟩ := numbered_of_some 0 hf
          rw [found]
          cases width with
          | zero => rfl
          | succ width =>
            rw [Nat.zero_add]
            simp only [Option.join_some, Option.bind_eq_bind, Option.bind_some, at_k, ih]
            rfl

end Fused

/-- A scan cuts its text into spans from the beginning on, of which there is one chain that it can be: each
span is not empty and the match of the first rule that matches where it starts, the lexemes are those of the
spans that are not skipped, and where the chain ends is the end of the text or the character that the scan
stops at. The rules fused into one pattern scan the same. -/
theorem scan_tiles (rules : List ScanRule) (grouping : Grouping rules) (text : String) :
    fusedScan rules grouping text = some (scan rules text) ∧
      ∃! spans, ∃ p, Tiles rules text.toList 0 spans p ∧
        (scan rules text).tokens = spans.filterMap (·.token? text.toList) ∧
        Ends rules text.toList p (scan rules text).fault := by
  refine ⟨fusedFrom_eq grouping _ _ _, ?_⟩
  obtain ⟨spans, p, tiles, tokens, ends⟩ := exists_tiles (s := text.toList) rules (Nat.zero_le _)
  refine ⟨spans, ⟨p, tiles, tokens, ends⟩, ?_⟩
  rintro others ⟨q, tiles', -, ends'⟩
  obtain rfl := ends.unique ends'
  exact tiles'.unique tiles

/-- A rule with groups of its own, one of them named, and a rule that may take nothing. -/
example :
    let a := Pattern.char 'a'
    let rules : List ScanRule := [⟨.seq a (.seq a .empty), .kind (.text "pair")⟩, ⟨.many a, .skip⟩]
    let grouping : Grouping rules :=
      ⟨[.seq (.group none (.ofPattern a)) (.group (some 1) (.seq (.ofPattern a) .empty)),
        .ofPattern (.many a)], rfl⟩
    fusedScan rules grouping "aaab" =
      some ⟨[.lexeme (.text "pair") "aa" (some 0)], some (.unexpectedCharacter "b" 3)⟩ := by
  decide

end BindingPower.ScanRule
