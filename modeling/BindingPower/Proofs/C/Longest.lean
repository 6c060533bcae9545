import BindingPower.Proofs.C.Lexeme

/-! C operators and words are the longest there are at their places: the operators because the longer ones are
tried first, the words because a repetition takes all it can. -/
namespace BindingPower.C

open ScanRule

/-- A character that words begin with. -/
def wordStart (c : Char) : Bool := c.isAlpha || c == '_'

/-- A character that words go on with. -/
def wordChar (c : Char) : Bool := c.isAlphanum || c == '_'

/-- A letter or an underscore, and what words go on with after it. -/
def IsWord (value : String) : Prop :=
  ∃ c rest, value.toList = c :: rest ∧ wordStart c = true ∧ ∀ d ∈ rest, wordChar d = true

abbrev operatorSymbols : List CSymbol := CSymbol.operators.map Prod.snd
abbrev wordSymbols : List CSymbol := .ident :: CSymbol.keywords.map Prod.snd

/-- An operator or a mark of punctuation, by its text or by its kind. -/
def Marklike (kind : Kind) (value : String) : Prop :=
  value ∈ CSymbol.operators.map Prod.fst ∨ ∃ s ∈ operatorSymbols, kind = .c s

/-- An identifier or a keyword, by its text or by its kind. -/
def Wordlike (kind : Kind) (value : String) : Prop := IsWord value ∨ ∃ s ∈ wordSymbols, kind = .c s

section Kinds
variable {value : String} {s : CSymbol}

private theorem mem_of_lookup {entries : List (String × CSymbol)} (h : entries.lookup value = some s) :
    (value, s) ∈ entries := by
  obtain ⟨before, after, rfl, -⟩ := List.lookup_eq_some_iff.mp h
  exact List.mem_append_right before List.mem_cons_self

/-- A word is of the kind of the keyword that it is, and an identifier if it is none. -/
theorem wordKind_eq_iff : wordKind value = .c s ↔
    (value, s) ∈ CSymbol.keywords ∨ s = .ident ∧ value ∉ CSymbol.keywords.map Prod.fst := by
  have listed : ∀ entry ∈ CSymbol.keywords, CSymbol.keywords.lookup entry.1 = some entry.2 := by decide
  rw [wordKind, Kind.c.injEq]
  cases found : CSymbol.keywords.lookup value with
  | some k =>
    have member := mem_of_lookup found
    constructor
    · rintro rfl
      exact .inl member
    · rintro (h | ⟨-, h⟩)
      · exact Option.some.inj (found.symm.trans (listed _ h))
      · exact absurd (List.mem_map_of_mem member) h
  | none =>
    have absent : value ∉ CSymbol.keywords.map Prod.fst := by
      intro h
      obtain ⟨entry, member, rfl⟩ := List.mem_map.mp h
      cases found.symm.trans (listed entry member)
    constructor
    · rintro rfl
      exact .inr ⟨rfl, absent⟩
    · rintro (h | ⟨rfl, -⟩)
      · exact absurd (List.mem_map_of_mem h) absent
      · rfl

theorem mem_operators_of_operatorKind (h : operatorKind value = .c s) : (value, s) ∈ CSymbol.operators := by
  rw [operatorKind] at h
  cases found : CSymbol.operators.lookup value with
  | none =>
    rw [found] at h
    cases h
  | some k =>
    rw [found] at h
    cases h
    exact mem_of_lookup found

theorem mem_wordSymbols_of_wordKind (h : wordKind value = .c s) : s ∈ wordSymbols := by
  rcases wordKind_eq_iff.mp h with member | ⟨rfl, -⟩
  · exact List.mem_cons_of_mem _ (List.mem_map_of_mem member)
  · exact List.mem_cons_self

end Kinds

/-- The kind of a lexeme tells whether it is a word, a mark or something else, and so the rule it is from. -/
theorem rule_of_kind {rule : ScanRule} {value text : String} {offset : Nat} {s : CSymbol} {place : Option Int}
    (member : rule ∈ lexemes) (made : rule.token? value offset = some (.lexeme (.c s) text place)) :
    rule = ⟨word, .byText wordKind⟩ ∧ wordKind value = .c s ∨
    rule = ⟨operator, .byText operatorKind⟩ ∧ operatorKind value = .c s ∨
    s ∉ wordSymbols ∧ s ∉ operatorSymbols := by
  simp only [lexemes, List.mem_cons, List.not_mem_nil, or_false] at member
  rcases member with rfl | rfl | rfl | rfl | rfl | rfl | rfl | rfl <;>
    simp only [token?, Option.some.injEq, Token.lexeme.injEq, reduceCtorEq] at made
  -- Numbers, characters and strings have kinds of their own.
  · obtain ⟨⟨⟩, -⟩ := made
    exact .inr (.inr (by decide))
  · obtain ⟨⟨⟩, -⟩ := made
    exact .inr (.inr (by decide))
  · obtain ⟨⟨⟩, -⟩ := made
    exact .inr (.inr (by decide))
  · obtain ⟨⟨⟩, -⟩ := made
    exact .inr (.inr (by decide))
  · exact .inl ⟨rfl, made.1⟩
  · exact .inr (.inl ⟨rfl, made.1⟩)

section Characters

private theorem mem_underscore (c : Char) : CharItem.mem c (.range '_' '_') = (c == '_') := by
  rw [Bool.eq_iff_iff, Pattern.mem_range_self, beq_iff_eq]

theorem mem_letters (c : Char) :
    CharSet.mem c ⟨[.range 'A' 'Z', .range 'a' 'z', .range '_' '_'], false⟩ = wordStart c := by
  simp [wordStart, CharSet.mem, Pattern.mem_upper, Pattern.mem_lower, mem_underscore, Pattern.isAlpha_eq,
    Bool.or_assoc]

theorem mem_wordChars (c : Char) :
    CharSet.mem c ⟨[.range 'A' 'Z', .range 'a' 'z', .range '_' '_', .range '0' '9'], false⟩ = wordChar c := by
  simp [CharSet.mem, Pattern.mem_upper, Pattern.mem_lower, Pattern.mem_digit, mem_underscore, wordChar,
    Pattern.isAlphanum_eq, Pattern.isAlpha_eq, Bool.or_assoc, Bool.or_comm c.isDigit]

/-- A set that no word begins with. -/
def noWord (set : CharSet) : Bool :=
  !set.negated && set.items.all fun
    | .range low high => decide (high < 'A' ∨ 'Z' < low ∧ high < '_' ∨ '_' < low ∧ high < 'a' ∨ 'z' < low)
    | .blank => true
    | .nonblank => false

theorem not_mem_of_noWord {c : Char} (hc : wordStart c = true) (set : CharSet) (h : noWord set = true) :
    set.mem c = false := by
  have place : 65 ≤ c.toNat ∧ c.toNat ≤ 90 ∨ 97 ≤ c.toNat ∧ c.toNat ≤ 122 ∨ c.toNat = 95 := by
    rw [wordStart, Pattern.isAlpha_eq, Bool.or_eq_true, Bool.or_eq_true, Pattern.isUpper_iff_toNat,
      Pattern.isLower_iff_toNat, beq_iff_eq] at hc
    rcases hc with (upper | lower) | rfl
    · exact .inl upper
    · exact .inr (.inl lower)
    · exact .inr (.inr rfl)
  obtain ⟨items, negated⟩ := set
  simp only [noWord, Bool.and_eq_true, Bool.not_eq_true', List.all_eq_true] at h
  obtain ⟨rfl, h⟩ := h
  refine Pattern.mem_eq_false_of_items fun item hi => ?_
  have off := h item hi
  cases item with
  | range low high =>
    simp only [Char.lt_def, UInt32.lt_iff_toNat_lt, decide_eq_true_eq] at off
    change high.toNat < 65 ∨ 90 < low.toNat ∧ high.toNat < 95 ∨ 95 < low.toNat ∧ high.toNat < 97 ∨
      122 < low.toNat at off
    rw [Pattern.mem_range_iff]
    omega
  | blank =>
    simp [CharItem.mem, Text.isBlank, Text.within, Text.blankRanges]
    omega
  | nonblank => cases off

end Characters

/-- Only the rule of words takes something that begins like a word. -/
theorem rule_of_letter {rule : ScanRule} (member : rule ∈ lexemes) {c : Char} {s : List Char} {n : Nat}
    (hc : wordStart c = true) (h : rule.pattern.width? (c :: s) = some n) :
    rule = ⟨word, .byText wordKind⟩ := by
  have shut {p : Pattern} (opens : p.opens noWord = true) (h : p.width? (c :: s) = some n) : False := by
    rw [Pattern.width?_eq_head?, Pattern.widths_eq_nil_of_opens (not_mem_of_noWord hc) opens] at h
    cases h
  simp only [lexemes, List.mem_cons, List.not_mem_nil, or_false] at member
  rcases member with rfl | rfl | rfl | rfl | rfl | rfl | rfl | rfl
  · exact (shut (by decide) h).elim
  · exact (shut (by decide) h).elim
  · exact (shut (by decide) h).elim
  · exact (shut (by decide) h).elim
  · exact (shut (by decide) h).elim
  · exact (shut (by decide) h).elim
  · rfl
  · exact (shut (by decide) h).elim

/-- No operator that fits at a place is longer than the one that is taken there. -/
theorem le_of_width?_operator {s : List Char} {n : Nat} (h : operator.width? s = some n) :
    ∀ other ∈ CSymbol.operators, other.1.toList <+: s → other.1.length ≤ n := by
  intro other member fits
  have sorted : (CSymbol.operators.map (·.1.toList)).Pairwise fun a b => b.length ≤ a.length := by decide
  rw [← String.length_toList]
  exact Pattern.length_le_of_width?_oneOf_literal sorted (by rwa [List.map_map]) (List.mem_map_of_mem member) fits

/-- A word goes on for as long as there are characters of words. -/
theorem width?_word {c : Char} (hc : wordStart c = true) (s : List Char) :
    word.width? (c :: s) = some ((s.takeWhile wordChar).length + 1) := by
  have more := Pattern.head?_repeatWidths_one
    ⟨[.range 'A' 'Z', .range 'a' 'z', .range '_' '_', .range '0' '9'], false⟩ (Nat.le_refl s.length)
  simp only [mem_wordChars] at more
  have first : ((Pattern.within [.range 'A' 'Z', .range 'a' 'z', .range '_' '_']).widths (c :: s)).head? =
      some 1 := by
    rw [Pattern.within, Pattern.widths, if_pos ((mem_letters c).trans hc)]
    rfl
  rw [Pattern.width?_eq_head?, Nat.add_comm]
  exact Pattern.head?_widths_seq first more

theorem cons_of_width?_word {s : List Char} {n : Nat} (h : word.width? s = some n) :
    ∃ c rest, s = c :: rest ∧ wordStart c = true := by
  rw [Pattern.width?_eq_head?] at h
  obtain ⟨k, hk, -⟩ := List.mem_flatMap.mp (List.mem_of_mem_head? h)
  obtain ⟨c, rest, rfl, hc, -⟩ := Pattern.mem_widths_one hk
  exact ⟨c, rest, rfl, (mem_letters c).symm.trans hc⟩

section Deciding
variable {rule : ScanRule} {s : List Char} {n offset : Nat} {kind : Kind} {value : String} {place : Option Int}
  (hf : first? lexemes s = some (rule, n)) (made : rule.token? value offset = some (.lexeme kind value place))
include hf made

theorem Marklike.rule_eq (alone : scan lexemes value = ⟨[.lexeme kind value (some 0)], none⟩) (h : Marklike kind value) :
    rule = ⟨operator, .byText operatorKind⟩ ∧ ∃ s, kind = .c s ∧ (value, s) ∈ CSymbol.operators := by
  have whole : ∀ entry ∈ CSymbol.operators, IsLexeme entry.2 entry.1 := by decide +kernel
  have apart : ∀ s ∈ wordSymbols, s ∉ operatorSymbols := by decide
  -- The text of an operator is a lexeme by itself, so its kind is known.
  obtain ⟨s, hs, rfl⟩ : ∃ s ∈ operatorSymbols, kind = .c s := by
    rcases h with written | sort
    · obtain ⟨entry, member, rfl⟩ := List.mem_map.mp written
      have tokens := (Scan.mk.inj (alone.symm.trans (whole entry member))).1
      exact ⟨entry.2, List.mem_map_of_mem member, (Token.lexeme.inj (List.cons.inj tokens).1).1⟩
    · exact sort
  rcases rule_of_kind (mem_of_first? hf) made with ⟨-, name⟩ | ⟨rfl, mark⟩ | ⟨-, none⟩
  · exact absurd hs (apart s (mem_wordSymbols_of_wordKind name))
  · exact ⟨rfl, s, rfl, mem_operators_of_operatorKind mark⟩
  · exact absurd hs none

theorem Wordlike.rule_eq (here : value.toList <+: s) (h : Wordlike kind value) :
    rule = ⟨word, .byText wordKind⟩ ∧ kind = wordKind value := by
  have apart : ∀ s ∈ wordSymbols, s ∉ operatorSymbols := by decide
  rcases h with ⟨c, rest, begins, hc, -⟩ | ⟨s, hs, rfl⟩
  · obtain ⟨after, rfl⟩ := here
    rw [begins, List.cons_append] at hf
    obtain rfl := rule_of_letter (mem_of_first? hf) hc (width?_of_first? hf)
    exact ⟨rfl, (Token.lexeme.inj (Option.some.inj made)).1.symm⟩
  · rcases rule_of_kind (mem_of_first? hf) made with ⟨rfl, name⟩ | ⟨-, mark⟩ | ⟨none, -⟩
    · exact ⟨rfl, name.symm⟩
    · exact absurd (List.mem_map_of_mem (mem_operators_of_operatorKind mark)) (apart s hs)
    · exact absurd hs none

end Deciding

/-- What the rule of words takes is a whole word. -/
theorem whole_of_width?_word {w after : List Char} (h : word.width? (w ++ after) = some w.length) :
    (∃ c rest, w = c :: rest ∧ wordStart c = true ∧ ∀ d ∈ rest, wordChar d = true) ∧
      ∀ c ∈ after.head?, wordChar c = false := by
  obtain ⟨c, s, hs, hc⟩ := cons_of_width?_word h
  obtain ⟨run, rest, rfl, taken, inside, stop⟩ := Pattern.exists_run wordChar s
  rw [hs, width?_word hc, taken, Option.some.injEq] at h
  obtain ⟨rfl, rfl⟩ := List.append_inj (hs.trans (List.cons_append ..).symm) h.symm
  exact ⟨⟨c, run, rfl, hc, inside⟩, stop⟩

/-- A lexeme that cannot be longer where a certain text comes after it: an operator or a mark of punctuation is
the longest that fits there, and an identifier or a keyword is a whole word, of the kind of the keyword that it is
if it is one. -/
structure Longest (kind : Kind) (value : String) (after : List Char) : Prop where
  mark : Marklike kind value → (∃ s, kind = .c s ∧ (value, s) ∈ CSymbol.operators) ∧
    ∀ other ∈ CSymbol.operators, other.1.toList <+: value.toList ++ after → other.1.length ≤ value.length
  name : Wordlike kind value → IsWord value ∧ (∀ c ∈ after.head?, wordChar c = false) ∧
    ∀ s, kind = .c s ↔ (value, s) ∈ CSymbol.keywords ∨ s = .ident ∧ value ∉ CSymbol.keywords.map Prod.fst

theorem longest_of_mem_scan {text value : String} {kind : Kind} {place : Int}
    (h : .lexeme kind value (some place) ∈ (Grammar.c.scan text).tokens) :
    ∃ before after : List Char, text.toList = before ++ (value.toList ++ after) ∧ place = before.length ∧
      Longest kind value after := by
  obtain ⟨rule, k, n, rfl, hf, hv, made⟩ := first?_of_mem_scanFrom h
  have fits := le_of_first? hf
  have taken : value.toList = (text.toList.drop k).take (n + 1) := by rw [hv, String.toList_ofList]
  have long : value.toList.length = n + 1 := by rw [taken, List.length_take_of_le fits]
  obtain ⟨after, parts⟩ : value.toList <+: text.toList.drop k := taken ▸ List.take_prefix _ _
  rw [← parts, ← long] at hf
  refine ⟨text.toList.take k, after, ?_, ?_, fun mark => ?_, fun name => ?_⟩
  · rw [parts, List.take_append_drop]
  · rw [List.length_drop] at fits
    rw [List.length_take_of_le (by omega), Nat.zero_add]
  · obtain ⟨rfl, listed⟩ := mark.rule_eq hf made (scan_of_mem_scan h)
    rw [← String.length_toList]
    exact ⟨listed, le_of_width?_operator (width?_of_first? hf)⟩
  · obtain ⟨rfl, rfl⟩ := name.rule_eq hf made (List.prefix_append _ _)
    obtain ⟨isWord, stop⟩ := whole_of_width?_word (width?_of_first? hf)
    exact ⟨isWord, stop, fun s => wordKind_eq_iff⟩

theorem longest_of_mem_scan_shift :
    .lexeme (.c .ident) "intern" (some 0) ∈ (Grammar.c.scan "intern<<=.5").tokens ∧
    (∃ before after : List Char, "intern<<=.5".toList = before ++ ("intern".toList ++ after) ∧
      (0 : Int) = before.length ∧ Longest (.c .ident) "intern" after) ∧
    .lexeme (.c .shiftLeftAssign) "<<=" (some 6) ∈ (Grammar.c.scan "intern<<=.5").tokens ∧
    ∃ before after : List Char, "intern<<=.5".toList = before ++ ("<<=".toList ++ after) ∧
      (6 : Int) = before.length ∧ Longest (.c .shiftLeftAssign) "<<=" after := by
  have tokens : (Grammar.c.scan "intern<<=.5").tokens = [.lexeme (.c .ident) "intern" (some 0),
      .lexeme (.c .shiftLeftAssign) "<<=" (some 6), .lexeme (.c .floatConst) ".5" (some 9)] := by decide +kernel
  have name : .lexeme (.c .ident) "intern" (some 0) ∈ (Grammar.c.scan "intern<<=.5").tokens := by simp [tokens]
  have mark : .lexeme (.c .shiftLeftAssign) "<<=" (some 6) ∈ (Grammar.c.scan "intern<<=.5").tokens := by
    simp [tokens]
  exact ⟨name, longest_of_mem_scan name, mark, longest_of_mem_scan mark⟩

end BindingPower.C
