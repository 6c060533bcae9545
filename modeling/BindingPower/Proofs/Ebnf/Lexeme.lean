import BindingPower.Grammar.Ebnf
import BindingPower.Proofs.C.Lexeme

/-! EBNF lexemes in their place. A text between quotes ends at the only mark that can end it, or, where marks are
doubled, at the last that can; so a lexeme stays what it is where a blank comes after it. -/
namespace BindingPower.Ebnf
open ScanRule

/-- What may come between apostrophes: an apostrophe is written twice. -/
private def unit : Pattern := .oneOf [.literal ['\'', '\''], .without [.range '\'' '\'']]

private def inApostrophes : Pattern := .seq (.char '\'') (.seq (.many unit) (.char '\''))

private def inQuotes : Pattern := .all [.char '"', .many (.without [.range '"' '"']), .char '"']

private theorem widths_quoted (s : List Char) :
    quoted.widths s = inApostrophes.widths s ++ inQuotes.widths s := rfl

private theorem unit_unique : unit.Unique := by
  apply Pattern.Unique.alt
  · exact (Pattern.Unique.one _).seq (Pattern.Unique.one _)
  · exact Pattern.Unique.one _
  · intro s pair
    have first : (Pattern.char '\'').widths s ≠ [] := by
      intro none
      apply pair
      change (Pattern.seq (.char '\'') (.char '\'')).widths s = []
      rw [Pattern.widths, none, List.flatMap_nil]
    obtain ⟨rest, rfl⟩ := Pattern.eq_of_widths_char first
    exact if_neg fun mem => Pattern.mem_without.mp mem rfl

private theorem inQuotes_unique : inQuotes.Unique := by
  apply (Pattern.Unique.one _).seq
  apply Pattern.Unique.star_seq (Pattern.Unique.one _) (Pattern.Unique.one _)
  intro s close
  obtain ⟨rest, rfl⟩ := Pattern.eq_of_widths_char close
  exact if_neg fun mem => Pattern.mem_without.mp mem rfl

/-- An apostrophe with no other after it cannot be part of the text that it ends. -/
private theorem widths_unit_of_last {u : List Char} (hu : u.head? ≠ some '\'') :
    unit.widths ('\'' :: u) = [] := by
  have second : (Pattern.char '\'').widths u = [] := by
    cases u with
    | nil => rfl
    | cons d u => exact Pattern.widths_char_of_ne (fun same => hu (congrArg some same)) u
  have pair : (Pattern.seq (.char '\'') (.char '\'')).widths ('\'' :: u) = [] := by
    rw [Pattern.widths, Pattern.widths_char_self, List.flatMap_singleton, List.drop_one, List.tail_cons,
      second, List.map_nil]
  have other : (Pattern.without [.range '\'' '\'']).widths ('\'' :: u) = [] :=
    if_neg fun mem => Pattern.mem_without.mp mem rfl
  exact List.append_eq_nil_iff.mpr ⟨pair, other⟩

/-- Of the ways in which a text between apostrophes may end, the one after which no apostrophe comes is
preferred to all others. -/
private theorem head?_inApostrophes {s : List Char} {n : Nat} (h : n ∈ inApostrophes.widths s)
    (last : (s.drop n).head? ≠ some '\'') : (inApostrophes.widths s).head? = some n := by
  obtain ⟨k, hk, after⟩ := List.mem_flatMap.mp h
  obtain ⟨_, body, rfl⟩ := List.mem_map.mp after
  obtain ⟨m, hm, after⟩ := List.mem_flatMap.mp body
  obtain ⟨j, hj, rfl⟩ := List.mem_map.mp after
  obtain ⟨rest, rfl⟩ := Pattern.eq_of_widths_char (List.ne_nil_of_mem hk)
  obtain ⟨tail, close⟩ := Pattern.eq_of_widths_char (List.ne_nil_of_mem hj)
  rw [Pattern.widths_char_self, List.mem_singleton] at hk
  subst hk
  rw [close, Pattern.widths_char_self, List.mem_singleton] at hj
  subst hj
  rw [← List.drop_drop, ← List.drop_drop, close, List.drop_one, List.tail_cons] at last
  have most : ((Pattern.many unit).widths (('\'' :: rest).drop 1)).head? = some m :=
    unit_unique.head?_repeatWidths hm (close ▸ widths_unit_of_last last)
  have closed : ((Pattern.char '\'').widths ((('\'' :: rest).drop 1).drop m)).head? = some 1 := by
    rw [close, Pattern.widths_char_self]
    rfl
  have opened : ((Pattern.char '\'').widths ('\'' :: rest)).head? = some 1 := by
    rw [Pattern.widths_char_self]
    rfl
  exact Pattern.head?_widths_seq opened (Pattern.head?_widths_seq most closed)

private theorem width?_quoted_of_ne {c : Char} (h : c ≠ '\'') (h' : c ≠ '"') (s : List Char) :
    quoted.width? (c :: s) = none := by
  have apostrophes : inApostrophes.widths (c :: s) = [] := Pattern.widths_seq_char_of_ne h s
  have quotes : inQuotes.widths (c :: s) = [] := Pattern.widths_seq_char_of_ne h' s
  rw [Pattern.width?_eq_head?, widths_quoted, apostrophes, quotes]
  rfl

/-- A quoted text is the same where a blank comes after it. -/
private theorem width?_quoted_append {w u : List Char} (hu : BlankAhead u) (h : quoted.width? w = some w.length) :
    quoted.width? (w ++ u) = some w.length := by
  rw [Pattern.width?_eq_head?, widths_quoted] at h ⊢
  cases w with
  | nil => cases h
  | cons c s =>
    by_cases apostrophe : c = '\''
    · subst apostrophe
      have quotes (s : List Char) : inQuotes.widths ('\'' :: s) = [] :=
        Pattern.widths_seq_char_of_ne (by decide) s
      rw [quotes, List.append_nil] at h
      have still := Pattern.mem_widths_append (List.mem_of_mem_head? h) u
      rw [List.cons_append, quotes, List.append_nil]
      refine head?_inApostrophes still ?_
      rw [← List.cons_append, List.drop_left]
      intro last
      exact absurd (hu _ last) (by decide)
    · have apostrophes (s : List Char) : inApostrophes.widths (c :: s) = [] :=
        Pattern.widths_seq_char_of_ne apostrophe s
      rw [apostrophes, List.nil_append, ← Pattern.width?_eq_head?] at h
      rw [List.cons_append, apostrophes, List.nil_append, ← Pattern.width?_eq_head?]
      exact inQuotes_unique.width?_append h u

/-- A mark of quotation that is not closed is no lexeme. -/
private theorem first?_unclosed {c : Char} {s : List Char} (hc : c = '\'' ∨ c = '"')
    (h : quoted.width? (c :: s) = none) : first? lexemes (c :: s) = none := by
  rcases hc with rfl | rfl
  · have blank : (Pattern.many1 (.within [.blank])).width? ('\'' :: s) = none := rfl
    simp only [first?, lexemes, List.findSome?_cons, blank, h]
    rfl
  · have blank : (Pattern.many1 (.within [.blank])).width? ('"' :: s) = none := rfl
    simp only [first?, lexemes, List.findSome?_cons, blank, h]
    rfl

theorem parted_lexemes {u : List Char} (hu : BlankAhead u) : Parted lexemes u := by
  intro w rule value offset hne hw kept
  have clear := C.not_mem_of_blankAhead hu
  apply first?_transfer hw
  · simp only [lexemes, List.forall_mem_cons]
    refine ⟨fun none => ?_, fun none => ?_, ?_, ?_, ?_, List.forall_mem_nil _⟩
    · exact Pattern.width?_many1_one_append_eq_none hne none u
    · obtain ⟨c, s, rfl⟩ := List.exists_cons_of_ne_nil hne
      by_cases hc : c = '\'' ∨ c = '"'
      · cases hw.symm.trans (first?_unclosed hc none)
      · exact width?_quoted_of_ne (fun same => hc (.inl same)) (fun same => hc (.inr same)) _
    · exact (Pattern.width?_append_of_avoids clear (by decide) w).trans
    · exact (Pattern.width?_append_of_avoids clear (by decide) w).trans
    · exact (Pattern.width?_append_of_firm clear rfl hne).trans
  · have member := mem_of_first? hw
    simp only [lexemes, List.mem_cons, List.not_mem_nil, or_false] at member
    rcases member with rfl | rfl | rfl | rfl | rfl
    · exact absurd rfl kept
    · exact width?_quoted_append hu
    · exact (Pattern.width?_append_of_avoids clear (by decide) w).trans
    · exact (Pattern.width?_append_of_avoids clear (by decide) w).trans
    · exact (Pattern.width?_append_of_firm clear rfl hne).trans

end BindingPower.Ebnf
