import BindingPower.Scanner
import BindingPower.Proofs.Pattern

/-! What every scan has in common: its tokens are lexemes with their places, and it stops only
where no rule takes anything. -/
namespace BindingPower

/-- A text that goes on with a blank or not at all. -/
def BlankAhead (u : List Char) : Prop := ∀ c ∈ u.head?, Text.isBlank c = true

namespace ScanRule

/-- A rule that is not skipped makes a lexeme of the text it takes. -/
theorem token?_eq_some {rule : ScanRule} {value : String} {offset : Nat} {t : Token}
    (h : rule.token? value offset = some t) : ∃ kind, t = .lexeme kind value (some offset) := by
  unfold token? at h
  split at h
  · cases h
  · exact ⟨_, (Option.some.inj h).symm⟩
  · exact ⟨_, (Option.some.inj h).symm⟩

/-- A lexeme is of the same kind wherever it stands. -/
theorem token?_shift {rule : ScanRule} {value : String} {offset : Nat} {kind : Kind} {text : String}
    {place : Option Int} (h : rule.token? value offset = some (.lexeme kind text place)) (k : Nat) :
    rule.token? value k = some (.lexeme kind value (some k)) := by
  unfold token? at h ⊢
  split at h <;> cases h <;> rfl

theorem mem_of_first? {rules : List ScanRule} {s : List Char} {rule : ScanRule} {n : Nat}
    (h : first? rules s = some (rule, n)) : rule ∈ rules := by
  obtain ⟨other, hm, h⟩ := List.exists_of_findSome?_eq_some h
  obtain ⟨m, -, h⟩ := Option.map_eq_some_iff.mp h
  obtain ⟨rfl, -⟩ := Prod.mk.inj h
  exact hm

theorem width?_of_first? {rules : List ScanRule} {s : List Char} {rule : ScanRule} {n : Nat}
    (h : first? rules s = some (rule, n)) : rule.pattern.width? s = some n := by
  obtain ⟨other, -, h⟩ := List.exists_of_findSome?_eq_some h
  obtain ⟨m, hm, h⟩ := Option.map_eq_some_iff.mp h
  obtain ⟨rfl, rfl⟩ := Prod.mk.inj h
  exact hm

theorem mem_widths_of_first? {rules : List ScanRule} {s : List Char} {rule : ScanRule} {n : Nat}
    (h : first? rules s = some (rule, n)) : n ∈ rule.pattern.widths s :=
  List.mem_of_mem_head? (Pattern.width?_eq_head? rule.pattern s ▸ width?_of_first? h)

/-- Every token is what one of the rules makes of a piece of the text that its pattern matches. -/
theorem match_of_mem_scanFrom {rules : List ScanRule} {room offset : Nat} {s : List Char} {t : Token}
    (h : t ∈ (scanFrom rules room offset s).tokens) :
    ∃ rule ∈ rules, ∃ rest, ∃ n ∈ rule.pattern.widths rest, ∃ place,
      rule.token? (String.ofList (rest.take n)) place = some t := by
  induction room generalizing offset s with
  | zero => cases s <;> cases h
  | succ room ih =>
    cases s with
    | nil => cases h
    | cons c s =>
      rw [scanFrom] at h
      split at h
      · cases h
      · cases h
      · rename_i rule width _ hr
        rcases List.mem_append.mp h with h | h
        · exact ⟨rule, mem_of_first? hr, _, _, mem_widths_of_first? hr, _, Option.mem_toList.mp h⟩
        · exact ih h

theorem rule_of_mem_scanFrom {rules : List ScanRule} {room offset : Nat} {s : List Char} {t : Token}
    (h : t ∈ (scanFrom rules room offset s).tokens) :
    ∃ rule ∈ rules, ∃ value place, rule.token? value place = some t := by
  obtain ⟨rule, member, _, _, -, place, made⟩ := match_of_mem_scanFrom h
  exact ⟨rule, member, _, place, made⟩

theorem lexeme_of_mem_scanFrom {rules : List ScanRule} {room offset : Nat} {s : List Char} {t : Token}
    (h : t ∈ (scanFrom rules room offset s).tokens) :
    ∃ kind value place, t = .lexeme kind value (some place) := by
  obtain ⟨rule, -, value, place, h⟩ := rule_of_mem_scanFrom h
  obtain ⟨kind, rfl⟩ := token?_eq_some h
  exact ⟨_, _, _, rfl⟩

theorem lexeme_of_mem_scan {rules : List ScanRule} {text : String} {t : Token}
    (h : t ∈ (scan rules text).tokens) : ∃ kind value place, t = .lexeme kind value (some place) :=
  lexeme_of_mem_scanFrom h

theorem fault_of_scanFrom {rules : List ScanRule} {room offset : Nat} {s : List Char} {e : ParseError}
    (h : (scanFrom rules room offset s).fault = some e) : ∃ c k, e = .unexpectedCharacter c k := by
  induction room generalizing offset s with
  | zero => cases s <;> cases h
  | succ room ih =>
    cases s with
    | nil => cases h
    | cons c s =>
      rw [scanFrom] at h
      split at h
      · exact ⟨_, _, (Option.some.inj h).symm⟩
      · exact ⟨_, _, (Option.some.inj h).symm⟩
      · exact ih h

/-- What a rule takes is there to be taken. -/
theorem le_of_first? {rules : List ScanRule} {s : List Char} {rule : ScanRule} {n : Nat}
    (h : first? rules s = some (rule, n)) : n ≤ s.length :=
  Pattern.le_of_mem_widths (mem_widths_of_first? h)

/-- The lexeme at the beginning of a text, and the scan of what comes after it. -/
theorem scanFrom_of_first? {rules : List ScanRule} {s : List Char} {rule : ScanRule} {n : Nat}
    (h : first? rules s = some (rule, n + 1)) (room offset : Nat) :
    scanFrom rules (room + 1) offset s =
      let after := scanFrom rules room (offset + (n + 1)) (s.drop (n + 1))
      { after with
        tokens := (rule.token? (String.ofList (s.take (n + 1))) offset).toList ++ after.tokens } := by
  cases s with
  | nil => exact absurd (le_of_first? h) (Nat.not_succ_le_zero n)
  | cons c s =>
    rw [scanFrom, h]
    rfl

/-- The lexemes of a text that stands at an offset. -/
def scanAt (rules : List ScanRule) (offset : Nat) (s : List Char) : Scan :=
  scanFrom rules s.length offset s

theorem scanFrom_eq_scanAt {rules : List ScanRule} {room : Nat} {s : List Char} (h : s.length ≤ room)
    (offset : Nat) : scanFrom rules room offset s = scanAt rules offset s := by
  have same (k room offset : Nat) (s : List Char) (h : s.length ≤ room) (h' : s.length ≤ k) :
      scanFrom rules room offset s = scanFrom rules k offset s := by
    induction k generalizing room offset s with
    | zero =>
      obtain rfl : s = [] := List.eq_nil_of_length_eq_zero (Nat.le_zero.mp h')
      cases room <;> rfl
    | succ k ih =>
      cases s with
      | nil => cases room <;> rfl
      | cons c s =>
        obtain ⟨room, rfl⟩ : ∃ k, room = k + 1 := ⟨room - 1, by simp at h; omega⟩
        rcases hf : first? rules (c :: s) with _ | ⟨rule, _ | n⟩
        · rw [scanFrom, scanFrom, hf]
        · rw [scanFrom, scanFrom, hf]
          rfl
        · rw [scanFrom_of_first? hf, scanFrom_of_first? hf]
          simp only [List.length_cons] at h h'
          rw [ih room _ _ (by simp; omega) (by simp; omega)]
  exact same s.length room offset s h (Nat.le_refl _)

theorem scanAt_of_first? {rules : List ScanRule} {s : List Char} {rule : ScanRule} {n : Nat}
    (h : first? rules s = some (rule, n + 1)) (offset : Nat) :
    scanAt rules offset s =
      let after := scanAt rules (offset + (n + 1)) (s.drop (n + 1))
      { after with
        tokens := (rule.token? (String.ofList (s.take (n + 1))) offset).toList ++ after.tokens } := by
  cases s with
  | nil => exact absurd (le_of_first? h) (Nat.not_succ_le_zero n)
  | cons c s =>
    rw [scanAt, List.length_cons, scanFrom_of_first? h, scanFrom_eq_scanAt (by simp)]

theorem le_of_mem_scanFrom {rules : List ScanRule} {room offset : Nat} {s : List Char} {kind : Kind}
    {value : String} {k : Int} (h : .lexeme kind value (some k) ∈ (scanFrom rules room offset s).tokens) :
    offset ≤ k := by
  induction room generalizing offset s with
  | zero => cases s <;> cases h
  | succ room ih =>
    cases s with
    | nil => cases h
    | cons c s =>
      rw [scanFrom] at h
      split at h
      · cases h
      · cases h
      · rcases List.mem_append.mp h with h | h
        · obtain ⟨other, h⟩ := token?_eq_some (Option.mem_toList.mp h)
          cases h
          exact Int.le_refl _
        · have later := ih h
          omega

/-- A text that is a lexeme as a whole is all taken by one rule. -/
theorem first?_of_scan_eq {rules : List ScanRule} {kind : Kind} {value : String}
    (h : scan rules value = ⟨[.lexeme kind value (some 0)], none⟩) :
    ∃ rule n, first? rules value.toList = some (rule, n + 1) ∧ value.toList.length = n + 1 ∧
      ∀ offset, rule.token? value offset = some (.lexeme kind value (some (offset : Nat))) := by
  cases hs : value.toList with
  | nil =>
    rw [scan, hs] at h
    cases h
  | cons c s =>
    rw [scan, hs, List.length_cons] at h
    rcases hf : first? rules (c :: s) with _ | ⟨rule, _ | n⟩
    · rw [scanFrom, hf] at h
      cases h
    · rw [scanFrom, hf] at h
      cases h
    · rw [scanFrom_of_first? hf] at h
      obtain ⟨tokens, -⟩ := Scan.mk.inj h
      have fits := le_of_first? hf
      cases ht : rule.token? (String.ofList ((c :: s).take (n + 1))) 0 with
      | none =>
        -- A skipped beginning would push the lexeme to the right.
        rw [ht] at tokens
        have later := le_of_mem_scanFrom (k := 0) (tokens ▸ List.mem_singleton_self _)
        omega
      | some t =>
        rw [ht] at tokens
        obtain ⟨kind', rfl⟩ := token?_eq_some ht
        obtain ⟨rfl, hv, -⟩ := Token.lexeme.inj (List.cons.inj tokens).1
        have whole : (c :: s).take (n + 1) = c :: s := by
          have text := congrArg String.toList hv
          rwa [String.toList_ofList, hs] at text
        have long := congrArg List.length whole
        rw [List.length_take] at long
        refine ⟨rule, n, rfl, by omega, fun offset => ?_⟩
        rw [hv] at ht
        exact token?_shift ht offset

/-- The rule that decides on one text decides on another the same way, if the rules that do not match the one
do not match the other, and the one that decides takes as much. -/
theorem first?_transfer {rules : List ScanRule} {s s' : List Char} {rule : ScanRule} {n : Nat}
    (h : first? rules s = some (rule, n))
    (miss : ∀ r ∈ rules, r.pattern.width? s = none → r.pattern.width? s' = none)
    (hit : rule.pattern.width? s = some n → rule.pattern.width? s' = some n) :
    first? rules s' = some (rule, n) := by
  induction rules with
  | nil => cases h
  | cons r rules ih =>
    rw [first?, List.findSome?_cons] at h ⊢
    obtain ⟨here, later⟩ := List.forall_mem_cons.mp miss
    cases hr : r.pattern.width? s with
    | none =>
      rw [hr] at h
      rw [here hr]
      exact ih h later
    | some m =>
      rw [hr] at h
      obtain ⟨rfl, rfl⟩ := Prod.mk.inj (Option.some.inj h)
      rw [hit hr]
      rfl

/-- What the first rule that matches takes, it takes as well where the text ends there. -/
theorem first?_take {rules : List ScanRule} {s : List Char} {rule : ScanRule} {n : Nat}
    (h : first? rules s = some (rule, n)) : first? rules (s.take n) = some (rule, n) :=
  first?_transfer h (fun _ _ none => Pattern.width?_take_eq_none none n) Pattern.width?_take

/-- A lexeme is made by the first rule that matches at its place, of what that rule takes there. -/
theorem first?_of_mem_scanFrom {rules : List ScanRule} {room offset : Nat} {s : List Char} {kind : Kind}
    {value : String} {place : Int}
    (h : .lexeme kind value (some place) ∈ (scanFrom rules room offset s).tokens) :
    ∃ rule k n, place = (offset + k : Nat) ∧ first? rules (s.drop k) = some (rule, n + 1) ∧
      value = String.ofList ((s.drop k).take (n + 1)) ∧
      rule.token? value (offset + k) = some (.lexeme kind value (some place)) := by
  induction room generalizing offset s with
  | zero => cases s <;> cases h
  | succ room ih =>
    cases s with
    | nil => cases h
    | cons c s =>
      rw [scanFrom] at h
      split at h
      · cases h
      · cases h
      · rename_i rule width hw hr
        obtain ⟨width, rfl⟩ := Nat.exists_eq_succ_of_ne_zero hw
        rcases List.mem_append.mp h with h | h
        · have made := Option.mem_toList.mp h
          obtain ⟨other, same⟩ := token?_eq_some made
          cases same
          exact ⟨rule, 0, width, rfl, hr, rfl, made⟩
        · obtain ⟨other, k, n, hp, hf, hv, ht⟩ := ih h
          rw [List.drop_drop] at hf hv
          rw [Nat.add_assoc] at hp ht
          exact ⟨other, width + 1 + k, n, hp, hf, hv, ht⟩

/-- A lexeme of a text is one by itself. -/
theorem scan_of_mem_scan {rules : List ScanRule} {text : String} {kind : Kind} {value : String} {place : Int}
    (h : .lexeme kind value (some place) ∈ (scan rules text).tokens) :
    scan rules value = ⟨[.lexeme kind value (some 0)], none⟩ := by
  obtain ⟨rule, k, n, -, hf, hv, ht⟩ := first?_of_mem_scanFrom h
  have alone := first?_take hf
  have fits := le_of_first? hf
  have piece : value.toList = (text.toList.drop k).take (n + 1) := by rw [hv, String.toList_ofList]
  have long : value.toList.length = n + 1 := by rw [piece, List.length_take_of_le fits]
  rw [← piece] at alone
  rw [scan, long, scanFrom_of_first? alone, ← long, List.take_length, List.drop_length, String.ofList_toList,
    token?_shift ht]
  cases n <;> rfl

/-- Rules whose lexemes stay as they are where a certain text comes after them. -/
def Parted (rules : List ScanRule) (u : List Char) : Prop :=
  ∀ (w : List Char) (rule : ScanRule) (value : String) (offset : Nat), w ≠ [] →
    first? rules w = some (rule, w.length) → rule.token? value offset ≠ none →
    first? rules (w ++ u) = some (rule, w.length)

/-- What is a lexeme by itself is found again where it is parted from what follows. -/
theorem Parted.scanAt {rules : List ScanRule} {u : List Char} (hu : Parted rules u) {kind : Kind} {value : String}
    (h : scan rules value = ⟨[.lexeme kind value (some 0)], none⟩) (offset : Nat) :
    scanAt rules offset (value.toList ++ u) =
      let after := scanAt rules (offset + value.toList.length) u
      { after with tokens := .lexeme kind value (some offset) :: after.tokens } := by
  obtain ⟨rule, n, hf, hn, ht⟩ := first?_of_scan_eq h
  rw [← hn] at hf
  have hne : value.toList ≠ [] := List.ne_nil_of_length_eq_add_one hn
  have kept : rule.token? value 0 ≠ none := fun none => Option.some_ne_none _ ((ht 0).symm.trans none)
  have first := hu _ rule value 0 hne hf kept
  rw [hn] at first
  rw [scanAt_of_first? first, ← hn]
  simp [ht]

/-- A piece of a text that no token comes of: whatever follows it is scanned as from its end on. -/
def Skipped (rules : List ScanRule) (g : List Char) : Prop :=
  ∀ offset u, scanAt rules offset (g ++ u) = scanAt rules (offset + g.length) u

namespace Skipped
variable {rules : List ScanRule}

theorem nil : Skipped rules [] := fun _ _ => rfl

theorem append {g h : List Char} (hg : Skipped rules g) (hh : Skipped rules h) : Skipped rules (g ++ h) := by
  intro offset u
  rw [List.append_assoc, hg, hh, List.length_append, Nat.add_assoc]

end Skipped

/-- The rule by which scans skip white space. -/
abbrev blankRule : ScanRule := ⟨.many1 (.within [.blank]), .skip⟩

private theorem mem_blank (c : Char) : CharSet.mem c ⟨[.blank], false⟩ = Text.isBlank c := by
  simp [CharSet.mem, CharItem.mem]

section Blanks
variable {rules : List ScanRule}

theorem first?_blank {c : Char} (hc : Text.isBlank c = true) (u : List Char) :
    first? (blankRule :: rules) (c :: u) = some (blankRule, (u.takeWhile Text.isBlank).length + 1) := by
  have run := Pattern.width?_many1_one_cons ((mem_blank c).trans hc) u
  simp only [mem_blank] at run
  simp [first?, Pattern.within, run]

theorem first?_visible {c : Char} (hc : Text.isBlank c = false) (u : List Char) :
    first? (blankRule :: rules) (c :: u) = first? rules (c :: u) := by
  have skip := Pattern.width?_many1_one_of_not_mem ((mem_blank c).trans hc) u
  simp [first?, Pattern.within, skip]

/-- The blanks that a text begins with are skipped. -/
theorem scanAt_run (offset : Nat) (u : List Char) :
    scanAt (blankRule :: rules) offset u =
      scanAt (blankRule :: rules) (offset + (u.takeWhile Text.isBlank).length)
        (u.drop (u.takeWhile Text.isBlank).length) := by
  cases u with
  | nil => rfl
  | cons c u =>
    by_cases hc : Text.isBlank c = true
    · rw [scanAt_of_first? (first?_blank hc u), List.takeWhile_cons_of_pos hc]
      rfl
    · rw [List.takeWhile_cons_of_neg hc]
      rfl

theorem skipped_blank {c : Char} (hc : Text.isBlank c = true) : Skipped (blankRule :: rules) [c] := by
  intro offset u
  rw [List.singleton_append, scanAt_run offset (c :: u), scanAt_run _ u, List.takeWhile_cons_of_pos hc,
    List.length_cons, List.drop_succ_cons, List.length_singleton, Nat.add_assoc, Nat.add_comm 1]

theorem skipped_blanks {g : List Char} (hg : ∀ c ∈ g, Text.isBlank c = true) :
    Skipped (blankRule :: rules) g := by
  induction g with
  | nil => exact .nil
  | cons c g ih =>
    obtain ⟨hc, hg⟩ := List.forall_mem_cons.mp hg
    exact (skipped_blank hc).append (ih hg)

end Blanks

end ScanRule

end BindingPower
