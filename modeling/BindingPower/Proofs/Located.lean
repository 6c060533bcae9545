import BindingPower.Proofs.C.Blame

/-! Where errors point. The label of an error lies on the token, or on the character, that the error is
about; only an error about a jump may be left without one. No label is too wide for the error to be shown. -/
namespace BindingPower

/-- A label inside a text. -/
def Label.Inside (l : Label) (text : String) : Prop := 0 ≤ l.offset ∧ l.offset + l.width ≤ text.length

/-- The characters of a text that a label marks. -/
def Label.marked (l : Label) (text : String) : String :=
  String.ofList ((text.toList.drop l.offset.toNat).take l.width.toNat)

def Token.value : Token → String
  | .word text => text
  | .lexeme _ value _ => value
  | .absent => ""

namespace ParseError

/-- The piece of the source that an error is about: a token found there, or a character. -/
def subject? : ParseError → Option String
  | missingRule t _ | consumeFailed _ t | malformed _ t => some t.value
  | unexpectedCharacter c _ => some c
  | _ => none

/-- The diagnostic of an error has one label, which marks a value in a text. -/
def Points (e : ParseError) (text value : String) : Prop :=
  ∃ label, e.diagnostic.labels = [label] ∧ label.Inside text ∧ label.marked text = value

end ParseError

/-- A piece of a text, with the place it stands at. -/
structure StandsAt (s : List Char) (value : String) (place : Int) : Prop where
  nonempty : value ≠ ""
  split : ∃ before after, s = before ++ (value.toList ++ after) ∧ place = before.length

namespace StandsAt
variable {s : List Char} {value : String} {place : Int}

theorem of_drop {n : Nat} (h : StandsAt (s.drop n) value place) (hn : n ≤ s.length) :
    StandsAt s value (n + place) := by
  obtain ⟨before, after, hs, rfl⟩ := h.split
  refine ⟨h.nonempty, s.take n ++ before, after, ?_, ?_⟩
  · rw [List.append_assoc, ← hs, List.take_append_drop]
  · rw [List.length_append, List.length_take, Nat.min_eq_left hn]
    exact Int.natCast_add n _ |>.symm

theorem of_take {n : Nat} (hs : s ≠ []) :
    StandsAt s (String.ofList (s.take (n + 1))) 0 := by
  refine ⟨fun h => ?_, [], s.drop (n + 1), ?_, rfl⟩
  · have empty := congrArg String.toList h
    rw [String.toList_ofList] at empty
    exact (List.take_eq_nil_iff.mp empty).elim (Nat.succ_ne_zero n) hs
  · rw [String.toList_ofList, List.nil_append, List.take_append_drop]

/-- A label as wide as a piece of a text, where the piece stands, marks it. -/
theorem marked {text : String} (h : StandsAt text.toList value place) (message : String) :
    (Label.mk place (max 1 value.length) message).Inside text ∧
      (Label.mk place (max 1 value.length) message).marked text = value := by
  obtain ⟨nonempty, before, after, ht, rfl⟩ := h
  have positive : 0 < value.toList.length := by
    rw [List.length_pos_iff]
    exact fun h => nonempty (String.toList_eq_nil_iff.mp h)
  have width : max 1 (value.length : Int) = value.toList.length := by
    rw [String.length_toList] at positive ⊢
    omega
  rw [width]
  have long := congrArg List.length ht
  simp only [List.length_append, String.length_toList] at long
  refine ⟨⟨Int.natCast_nonneg _, ?_⟩, ?_⟩
  · simp only [String.length_toList]
    omega
  · simp only [Label.marked, Int.toNat_natCast]
    rw [ht, List.drop_left, List.take_left, String.ofList_toList]

end StandsAt

namespace ScanRule

/-- A lexeme stands in the text where it says. -/
theorem standsAt_of_mem_scanFrom {rules : List ScanRule} {room offset : Nat} {s : List Char} {kind : Kind}
    {value : String} {place : Int}
    (h : .lexeme kind value (some place) ∈ (scanFrom rules room offset s).tokens) :
    StandsAt s value (place - offset) := by
  induction room generalizing offset s with
  | zero => cases s <;> cases h
  | succ room ih =>
    cases s with
    | nil => cases h
    | cons c s =>
      rw [scanFrom] at h
      split at h
      · cases h
      · cases h
      · rename_i rule width hw hr
        obtain ⟨width, rfl⟩ := Nat.exists_eq_succ_of_ne_zero hw
        rcases List.mem_append.mp h with h | h
        · obtain ⟨other, h⟩ := token?_eq_some (Option.mem_toList.mp h)
          cases h
          rw [Int.sub_self]
          exact .of_take (List.cons_ne_nil c s)
        · have later := (ih h).of_drop (le_of_first? hr)
          rwa [show ((width + 1 : Nat) : Int) + (place - ((offset + (width + 1) : Nat) : Int)) =
            place - offset by omega] at later

/-- The character that a scan stops at stands where the error says. -/
theorem standsAt_of_fault {rules : List ScanRule} {room offset : Nat} {s : List Char} {c : String}
    {place : Int} (h : (scanFrom rules room offset s).fault = some (.unexpectedCharacter c place)) :
    StandsAt s c (place - offset) ∧ c.length = 1 := by
  induction room generalizing offset s with
  | zero => cases s <;> cases h
  | succ room ih =>
    cases s with
    | nil => cases h
    | cons d s =>
      have here : StandsAt (d :: s) (String.singleton d) ((offset : Int) - offset) := by
        rw [Int.sub_self]
        exact .of_take (n := 0) (List.cons_ne_nil d s)
      rw [scanFrom] at h
      split at h
      · cases h
        exact ⟨here, String.length_singleton⟩
      · cases h
        exact ⟨here, String.length_singleton⟩
      · rename_i rule width hw hr
        obtain ⟨later, one⟩ := ih h
        have moved := later.of_drop (le_of_first? hr)
        rw [show (width : Int) + (place - ((offset + width : Nat) : Int)) = place - offset by omega] at moved
        exact ⟨moved, one⟩

theorem marked_of_mem_scan {rules : List ScanRule} {text : String} {t : Token}
    (h : t ∈ (scan rules text).tokens) (message : String) :
    ∃ label, t.labels message = [label] ∧ label.Inside text ∧ label.marked text = t.value := by
  obtain ⟨kind, value, place, rfl⟩ := lexeme_of_mem_scan h
  have stands := standsAt_of_mem_scanFrom h
  rw [Int.natCast_zero, Int.sub_zero] at stands
  exact ⟨_, rfl, stands.marked message⟩

end ScanRule

/-- Errors that blame what stands in the text point at it. -/
theorem ParseError.points_of_blames {g : Grammar} {rules : List ScanRule} (hg : g.scan = ScanRule.scan rules)
    {excuse : Node → Token → Prop} {text : String} {limit : Option Int} {e : ParseError} {value : String}
    (h : g.Blames excuse text limit (.error e)) (hv : e.subject? = some value) :
    e.Points text value ∨ ∃ n t, e = .malformed n t ∧ excuse n t := by
  have found {t : Token} (ht : t ∈ (g.scan text).tokens) (message : String) :
      ∃ label, t.labels message = [label] ∧ label.Inside text ∧ label.marked text = t.value :=
    ScanRule.marked_of_mem_scan (hg ▸ ht) message
  cases e with
  | missingRule t role =>
    cases hv
    exact .inl (found h _)
  | consumeFailed expected t =>
    cases hv
    exact .inl (found h _)
  | malformed n t =>
    cases hv
    exact h.imp (found · _) fun excused => ⟨n, t, rfl, excused⟩
  | unexpectedCharacter c offset =>
    have stopped : (g.scan text).fault = some (.unexpectedCharacter c offset) := h
    rw [hg] at stopped
    cases hv
    obtain ⟨stands, one⟩ := ScanRule.standsAt_of_fault stopped
    rw [Int.natCast_zero, Int.sub_zero] at stands
    have marked := stands.marked "not part of any token"
    rw [one] at marked
    exact .inl ⟨_, rfl, marked⟩
  | _ => cases hv

namespace Grammar

/-- Every error in rule definitions or in a C program that is about a piece of the source has one label,
which marks that piece, unless an expression under a marker stands where a jump has its label. -/
theorem points_of_parse {g : Grammar} (hg : g ∈ [Grammar.ebnf, Grammar.c]) {text : String}
    {limit : Option Int} {e : ParseError} {value : String} (h : g.parse text limit = .error (.error e))
    (hv : e.subject? = some value) :
    e.Points text value ∨
      g = Grammar.c ∧ e.diagnostic.labels = [] ∧ ∃ n t, e = .malformed n t ∧ C.Unlabelled text n t := by
  simp only [List.mem_cons, List.not_mem_nil, or_false] at hg
  rcases hg with rfl | rfl
  · refine .inl ((ParseError.points_of_blames rfl (Ebnf.blames_of_parse h) hv).resolve_right ?_)
    rintro ⟨_, _, _, ⟨⟩⟩
  · refine (ParseError.points_of_blames rfl (C.blames_of_parse h) hv).imp_right ?_
    rintro ⟨n, t, rfl, excused⟩
    obtain ⟨u, hu, hk, rfl, s, hs, rfl⟩ := excused
    exact ⟨rfl, rfl, _, _, rfl, u, hu, hk, rfl, s, hs, rfl⟩

theorem points_of_parse_sum :
    Grammar.c.parse "a + ;" none = .error (.error
      (.missingRule (.lexeme (.c .semicolon) ";" (some 4)) .starting)) ∧
    (ParseError.missingRule (.lexeme (.c .semicolon) ";" (some 4)) .starting).Points "a + ;" ";" := by
  have parsed : Grammar.c.parse "a + ;" none = .error (.error
      (.missingRule (.lexeme (.c .semicolon) ";" (some 4)) .starting)) := by
    decide +kernel
  refine ⟨parsed, (points_of_parse (by simp) parsed rfl).resolve_right ?_⟩
  rintro ⟨-, -, n, t, ⟨⟩, -⟩

/-- The postfix operator after `goto` is in the text, and the error about it has no label. -/
theorem parse_unlabelled :
    Grammar.c.parse "goto (a++);" none = .error (.error
      (.malformed (.leaf (.lexeme (.c .kwGoto) "goto" (some 0))) CSymbol.stepped.token)) ∧
    ¬∃ value, (ParseError.malformed (.leaf (.lexeme (.c .kwGoto) "goto" (some 0)))
      CSymbol.stepped.token).Points "goto (a++);" value := by
  refine ⟨by decide +kernel, ?_⟩
  rintro ⟨value, label, one, -⟩
  cases one

end Grammar

/-- Over a source, nothing but a label wider than any text keeps a diagnostic from being shown. -/
theorem Diagnostic.renderError?_eq_none_iff {d : Diagnostic} {source : String} :
    d.renderError? (some source) = none ↔ ∀ label ∈ d.labels, label.width ≤ longest := by
  rw [renderError?, List.findSome?_eq_none_iff]
  refine forall₂_congr fun label _ => ?_
  dsimp only
  split <;> simp [*]

namespace ParseError

/-- Errors that blame what stands in the text have no label wider than what a token there has. -/
theorem width_le_of_blames {g : Grammar} {excuse : Node → Token → Prop} {text : String} {limit : Option Int}
    {e : ParseError} {most : Int} (one : 1 ≤ most)
    (tokens : ∀ t ∈ (g.scan text).tokens, ∀ message, ∀ label ∈ t.labels message, label.width ≤ most)
    (excused : ∀ n t, excuse n t → ∀ message, t.labels message = [])
    (h : g.Blames excuse text limit (.error e)) : ∀ label ∈ e.diagnostic.labels, label.width ≤ most := by
  cases e with
  | missingRule t role => exact tokens t h _
  | consumeFailed expected t => exact tokens t h _
  | malformed n t =>
    rcases h with found | excuse
    · exact tokens t found _
    · change ∀ label ∈ t.labels "", _
      rw [excused n t excuse]
      exact List.forall_mem_nil _
  | unexpectedCharacter c offset => exact List.forall_mem_singleton.mpr one
  | _ => exact List.forall_mem_nil _

end ParseError

theorem ScanRule.width_le_of_mem_scan {rules : List ScanRule} {text : String} {t : Token}
    (h : t ∈ (scan rules text).tokens) (message : String) :
    ∀ label ∈ t.labels message, label.width ≤ text.length := by
  obtain ⟨label, one, ⟨start, stop⟩, -⟩ := marked_of_mem_scan h message
  rw [one]
  exact List.forall_mem_singleton.mpr (by omega)

/-- Whatever error a bundled grammar raises on a text that is no longer than texts can be, it can be shown. -/
theorem Grammar.renders_of_parse {g : Grammar} (hg : g ∈ Grammar.bundled) {text : String} {limit : Option Int}
    {e : ParseError} (short : text.length ≤ longest) (h : g.parse text limit = .error (.error e)) :
    e.diagnostic.renderError? (some text) = none := by
  rw [Diagnostic.renderError?_eq_none_iff]
  have scanned {rules : List ScanRule} (t : Token) (ht : t ∈ (ScanRule.scan rules text).tokens)
      (message : String) (label : Label) (hl : label ∈ t.labels message) : label.width ≤ longest :=
    Int.le_trans (ScanRule.width_le_of_mem_scan ht message label hl) short
  have unexcused (n : Node) (t : Token) (excused : False) (message : String) : t.labels message = [] :=
    excused.elim
  simp only [bundled, List.mem_cons, List.not_mem_nil, or_false] at hg
  obtain rfl | rfl | rfl := hg
  · refine ParseError.width_le_of_blames (by decide) ?_ unexcused (Arithmetic.blames_of_parse h)
    intro t ht
    obtain ⟨word, rfl⟩ := Arithmetic.isWord_of_mem_scan ht
    exact fun _ => List.forall_mem_nil _
  · exact ParseError.width_le_of_blames (by decide) scanned unexcused (Ebnf.blames_of_parse h)
  · refine ParseError.width_le_of_blames (by decide) scanned ?_ (C.blames_of_parse h)
    rintro n t ⟨u, -, -, -, s, -, rfl⟩ message
    rfl

end BindingPower
