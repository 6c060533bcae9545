import BindingPower.Grammar.C
import BindingPower.Proofs.Pattern
import BindingPower.Proofs.Scan

/-! C lexemes in their place. A text that is a lexeme by itself is the same lexeme wherever a blank, a
semicolon or the end of the text comes after it. -/
namespace BindingPower.C

/-- A text that is one lexeme, of a certain kind. -/
def IsLexeme (s : CSymbol) (value : String) : Prop :=
  ScanRule.scan lexemes value = ⟨[.lexeme (.c s) value (some 0)], none⟩

instance (s : CSymbol) (value : String) : Decidable (IsLexeme s value) :=
  inferInstanceAs (Decidable (_ = _))

/-- A text that is empty or begins with a blank or a semicolon. -/
def Ends (u : List Char) : Prop := ∀ c ∈ u.head?, Text.isBlank c = true ∨ c = ';'

/-- A set of visible characters, none of them the semicolon. -/
def clear (set : CharSet) : Bool :=
  !set.negated && set.items.all fun
    | .range low high => 33 ≤ low.toNat && high.toNat < 127 && (high.toNat < 59 || 59 < low.toNat)
    | _ => false

theorem not_mem_of_clear {set : CharSet} (h : clear set = true) {c : Char}
    (hc : Text.isBlank c = true ∨ c = ';') : set.mem c = false := by
  have far : c.toNat ≤ 32 ∨ c.toNat = 59 ∨ 127 ≤ c.toNat := by
    rcases hc with blank | rfl
    · simp [Text.isBlank, Text.within, Text.blankRanges] at blank
      omega
    · exact .inr (.inl rfl)
  obtain ⟨items, negated⟩ := set
  simp only [clear, Bool.and_eq_true, Bool.not_eq_true', List.all_eq_true] at h
  obtain ⟨rfl, h⟩ := h
  refine Pattern.mem_eq_false_of_items fun item hi => ?_
  have range := h item hi
  cases item with
  | range low high =>
    simp only [Bool.and_eq_true, Bool.or_eq_true, decide_eq_true_eq] at range
    rw [Pattern.mem_range_iff]
    omega
  | blank => cases range
  | nonblank => cases range

/-- A set of visible characters goes on into no text that has a blank ahead. -/
theorem not_mem_of_blankAhead {u : List Char} (hu : BlankAhead u) (set : CharSet) (h : clear set = true) :
    ∀ c ∈ u.head?, set.mem c = false :=
  fun c hc => not_mem_of_clear h (.inl (hu c hc))

section Widths
variable {u : List Char} (hu : Ends u)
include hu

private theorem not_mem_of_ends (set : CharSet) (h : clear set = true) : ∀ c ∈ u.head?, set.mem c = false :=
  fun c hc => not_mem_of_clear h (hu c hc)

theorem width?_floatConst_append (s : List Char) : floatConst.width? (s ++ u) = floatConst.width? s :=
  Pattern.width?_append_of_avoids (not_mem_of_ends hu) (by decide) s

theorem width?_intConst_append (s : List Char) : intConst.width? (s ++ u) = intConst.width? s :=
  Pattern.width?_append_of_avoids (not_mem_of_ends hu) (by decide) s

theorem width?_word_append (s : List Char) : word.width? (s ++ u) = word.width? s :=
  Pattern.width?_append_of_avoids (not_mem_of_ends hu) (by decide) s

theorem width?_operator_append {s : List Char} (hs : s ≠ []) :
    operator.width? (s ++ u) = operator.width? s :=
  Pattern.width?_append_of_firm (not_mem_of_ends hu) (by decide) hs

end Widths

section Quotes

private theorem quotable_unique (quote : Char) : (quotable quote).Unique := by
  apply Pattern.Unique.alt
  · exact (Pattern.Unique.one _).seq (Pattern.Unique.one _)
  · exact Pattern.Unique.one _
  · intro s h
    have escaped : (Pattern.char '\\').widths s ≠ [] := by
      intro none
      apply h
      rw [Pattern.widths, none]
      rfl
    obtain ⟨rest, rfl⟩ := Pattern.eq_of_widths_char escaped
    simp [Pattern.oneOf, Pattern.without, Pattern.widths, CharSet.mem, CharItem.mem]

theorem charConst_unique : charConst.Unique := by
  apply (Pattern.Unique.one _).seq
  exact (quotable_unique _).seq (Pattern.Unique.one _)

theorem string_unique : string.Unique := by
  apply (Pattern.Unique.one _).seq
  apply Pattern.Unique.star_seq (quotable_unique _) (Pattern.Unique.one _)
  intro s h
  obtain ⟨rest, rfl⟩ := Pattern.eq_of_widths_char h
  rfl

end Quotes

section Beginnings
variable {c d : Char} {s : List Char}

theorem width?_charConst_of_ne (h : c ≠ '\'') : charConst.width? (c :: s) = none :=
  Pattern.width?_seq_char_of_ne h s

theorem width?_string_of_ne (h : c ≠ '"') : string.width? (c :: s) = none := Pattern.width?_seq_char_of_ne h s

private theorem widths_seq_pair {a b : Char} {p : Pattern} (h : c ≠ a ∨ d ≠ b) :
    (Pattern.seq (.literal [a, b]) p).widths (c :: d :: s) = [] := by
  have none : (Pattern.seq (.char a) (.char b)).widths (c :: d :: s) = [] := by
    by_cases ha : c = a
    · subst ha
      rw [Pattern.widths, Pattern.widths_char_self, List.flatMap_singleton, List.drop_one, List.tail_cons,
        Pattern.widths_char_of_ne (h.resolve_left fun hne => hne rfl), List.map_nil]
    · exact Pattern.widths_seq_char_of_ne ha _
  change (Pattern.seq (.seq (.char a) (.char b)) p).widths (c :: d :: s) = []
  rw [Pattern.widths, none, List.flatMap_nil]

theorem width?_comment_of_ne (h : c ≠ '/' ∨ d ≠ '/' ∧ d ≠ '*') :
    comment.width? (c :: d :: s) = none := by
  have row : c ≠ '/' ∨ d ≠ '/' := h.imp_right And.left
  have block : c ≠ '/' ∨ d ≠ '*' := h.imp_right And.right
  have none : comment.widths (c :: d :: s) = [] :=
    List.append_eq_nil_iff.mpr ⟨widths_seq_pair row, widths_seq_pair block⟩
  rw [Pattern.width?_eq_head?, none]
  rfl

theorem width?_comment_row : comment.width? ('/' :: '/' :: s) ≠ none := by
  have slashes : 2 + 0 ∈ comment.widths ('/' :: '/' :: s) :=
    List.mem_append_left _ (List.mem_flatMap.mpr ⟨2, List.mem_singleton_self 2,
      List.mem_map.mpr ⟨0, Pattern.zero_mem_repeatWidths _ _, rfl⟩⟩)
  rw [Pattern.width?_eq_head?]
  intro none
  rw [List.head?_eq_none_iff.mp none] at slashes
  cases slashes

/-- What begins like a comment that is not closed begins with the operator of division. -/
theorem first?_slash_star (h : comment.width? ('/' :: '*' :: s) = none) :
    ∃ rule, ScanRule.first? lexemes ('/' :: '*' :: s) = some (rule, 1) := by
  have blank : (Pattern.many1 (.within [.blank])).width? ('/' :: '*' :: s) = none := rfl
  have float : floatConst.width? ('/' :: '*' :: s) = none := rfl
  have int : intConst.width? ('/' :: '*' :: s) = none := rfl
  have char : charConst.width? ('/' :: '*' :: s) = none := rfl
  have quoted : string.width? ('/' :: '*' :: s) = none := rfl
  have name : word.width? ('/' :: '*' :: s) = none := rfl
  have mark : operator.width? ('/' :: '*' :: s) = some 1 := rfl
  simp [ScanRule.first?, lexemes, blank, h, float, int, char, quoted, name, mark]

theorem first?_apostrophe (h : charConst.width? ('\'' :: s) = none) :
    ScanRule.first? lexemes ('\'' :: s) = none := by
  have blank : (Pattern.many1 (.within [.blank])).width? ('\'' :: s) = none := rfl
  have comment : comment.width? ('\'' :: s) = none := rfl
  have float : floatConst.width? ('\'' :: s) = none := rfl
  have int : intConst.width? ('\'' :: s) = none := rfl
  have quoted : string.width? ('\'' :: s) = none := rfl
  have name : word.width? ('\'' :: s) = none := rfl
  have mark : operator.width? ('\'' :: s) = none := rfl
  simp [ScanRule.first?, lexemes, blank, comment, float, int, h, quoted, name, mark]

theorem first?_quote (h : string.width? ('"' :: s) = none) :
    ScanRule.first? lexemes ('"' :: s) = none := by
  have blank : (Pattern.many1 (.within [.blank])).width? ('"' :: s) = none := rfl
  have comment : comment.width? ('"' :: s) = none := rfl
  have float : floatConst.width? ('"' :: s) = none := rfl
  have int : intConst.width? ('"' :: s) = none := rfl
  have char : charConst.width? ('"' :: s) = none := rfl
  have name : word.width? ('"' :: s) = none := rfl
  have mark : operator.width? ('"' :: s) = none := rfl
  simp [ScanRule.first?, lexemes, blank, comment, float, int, char, h, name, mark]

end Beginnings

section Boundary
variable {w u : List Char} {rule : ScanRule}

private theorem comment_append (hu : Ends u) (hne : w ≠ []) (h : comment.width? w = none)
    (hw : ScanRule.first? lexemes w = some (rule, w.length)) : comment.width? (w ++ u) = none := by
  obtain ⟨c, s, rfl⟩ := List.exists_cons_of_ne_nil hne
  cases s with
  | nil =>
    cases u with
    | nil => exact h
    | cons d u =>
      have apart : d ≠ '/' ∧ d ≠ '*' := by
        rcases hu d rfl with blank | rfl
        · constructor <;> rintro rfl <;> cases blank
        · decide
      exact width?_comment_of_ne (.inr apart)
  | cons d s =>
    by_cases hc : c = '/'
    · subst hc
      by_cases row : d = '/'
      · subst row
        exact absurd h width?_comment_row
      · by_cases block : d = '*'
        · subst block
          obtain ⟨other, ho⟩ := first?_slash_star h
          cases hw.symm.trans ho
        · exact width?_comment_of_ne (.inr ⟨row, block⟩)
    · exact width?_comment_of_ne (.inl hc)

private theorem charConst_append (hne : w ≠ []) (h : charConst.width? w = none)
    (hw : ScanRule.first? lexemes w = some (rule, w.length)) : charConst.width? (w ++ u) = none := by
  obtain ⟨c, s, rfl⟩ := List.exists_cons_of_ne_nil hne
  by_cases hc : c = '\''
  · subst hc
    cases hw.symm.trans (first?_apostrophe h)
  · exact width?_charConst_of_ne hc

private theorem string_append (hne : w ≠ []) (h : string.width? w = none)
    (hw : ScanRule.first? lexemes w = some (rule, w.length)) : string.width? (w ++ u) = none := by
  obtain ⟨c, s, rfl⟩ := List.exists_cons_of_ne_nil hne
  by_cases hc : c = '"'
  · subst hc
    cases hw.symm.trans (first?_quote h)
  · exact width?_string_of_ne hc

/-- A lexeme is the same lexeme when a blank, a semicolon or nothing comes after it. -/
theorem first?_append (hu : Ends u) (hne : w ≠ [])
    (hw : ScanRule.first? lexemes w = some (rule, w.length))
    {value : String} {offset : Nat} (hr : rule.token? value offset ≠ none) :
    ScanRule.first? lexemes (w ++ u) = some (rule, w.length) := by
  apply ScanRule.first?_transfer hw
  · intro r member
    simp only [lexemes, List.mem_cons, List.not_mem_nil, or_false] at member
    rcases member with rfl | rfl | rfl | rfl | rfl | rfl | rfl | rfl
    · exact fun none => Pattern.width?_many1_one_append_eq_none hne none u
    · exact fun none => comment_append hu hne none hw
    · exact (width?_floatConst_append hu w).trans
    · exact (width?_intConst_append hu w).trans
    · exact fun none => charConst_append hne none hw
    · exact fun none => string_append hne none hw
    · exact (width?_word_append hu w).trans
    · exact (width?_operator_append hu hne).trans
  · have member := ScanRule.mem_of_first? hw
    simp only [lexemes, List.mem_cons, List.not_mem_nil, or_false] at member
    rcases member with rfl | rfl | rfl | rfl | rfl | rfl | rfl | rfl
    · exact absurd rfl hr
    · exact absurd rfl hr
    · exact (width?_floatConst_append hu w).trans
    · exact (width?_intConst_append hu w).trans
    · exact fun whole => charConst_unique.width?_append whole u
    · exact fun whole => string_unique.width?_append whole u
    · exact (width?_word_append hu w).trans
    · exact (width?_operator_append hu hne).trans

end Boundary

end BindingPower.C
