import BindingPower.Grammar.Arithmetic
import BindingPower.Proofs.Scan

/-! The words of arithmetic. A text is cut into the longest runs of letters and digits and, one by one, the other
characters that are not white space; so nothing that can be seen is lost, and every text is scanned to its end. -/
namespace BindingPower.Arithmetic

open ScanRule

/-- A text with what it is cut into. Where a run of letters and digits ends, no other begins. -/
inductive Cut : List Char → List String → Prop
  | done : Cut [] []
  | blank {c : Char} {s : List Char} {values : List String} (hc : Text.isBlank c = true) (h : Cut s values) :
    Cut (c :: s) values
  | word {run s : List Char} {values : List String} (hne : run ≠ []) (hr : ∀ c ∈ run, c.isAlphanum = true)
    (stop : ∀ c ∈ s.head?, c.isAlphanum = false) (h : Cut s values) :
    Cut (run ++ s) (String.ofList run :: values)
  | symbol {c : Char} {s : List Char} {values : List String} (hb : Text.isBlank c = false)
    (ha : c.isAlphanum = false) (h : Cut s values) : Cut (c :: s) (String.singleton c :: values)

/-- The characters of a text that are not white space. -/
def visible (s : List Char) : List Char := s.filter (!Text.isBlank ·)

theorem not_blank_of_isAlphanum {c : Char} (h : c.isAlphanum = true) : Text.isBlank c = false := by
  rw [Pattern.isAlphanum_eq, Pattern.isAlpha_eq, Bool.or_eq_true, Bool.or_eq_true, Pattern.isUpper_iff_toNat,
    Pattern.isLower_iff_toNat, Char.isDigit_iff_toNat] at h
  change ((65 ≤ c.toNat ∧ c.toNat ≤ 90) ∨ 97 ≤ c.toNat ∧ c.toNat ≤ 122) ∨ 48 ≤ c.toNat ∧ c.toNat ≤ 57 at h
  simp [Text.isBlank, Text.within, Text.blankRanges]
  omega

section Scanning

abbrev wordRule : ScanRule :=
  ⟨.many1 (.within [.range 'A' 'Z', .range 'a' 'z', .range '0' '9']), .kind (.text "word")⟩

abbrev symbolRule : ScanRule := ⟨.within [.nonblank], .kind (.text "symbol")⟩

theorem mem_alphanum (c : Char) :
    CharSet.mem c ⟨[.range 'A' 'Z', .range 'a' 'z', .range '0' '9'], false⟩ = c.isAlphanum := by
  simp [CharSet.mem, Pattern.mem_upper, Pattern.mem_lower, Pattern.mem_digit, Pattern.isAlphanum_eq,
    Pattern.isAlpha_eq, Bool.or_assoc]

theorem first?_word {c : Char} {run s : List Char} (hr : ∀ d ∈ c :: run, d.isAlphanum = true)
    (stop : ∀ d ∈ s.head?, d.isAlphanum = false) :
    first? lexemes (c :: run ++ s) = some (wordRule, run.length + 1) := by
  have taken : wordRule.pattern.width? (c :: run ++ s) = some (run.length + 1) :=
    Pattern.width?_many1_one_run (fun d hd => (mem_alphanum d).trans (hr d hd)) (List.cons_ne_nil c run)
      fun d hd => (mem_alphanum d).trans (stop d hd)
  rw [List.cons_append] at taken ⊢
  rw [lexemes, first?_visible (not_blank_of_isAlphanum (hr c List.mem_cons_self)), first?, List.findSome?_cons, taken]
  rfl

theorem first?_symbol {c : Char} (hb : Text.isBlank c = false) (ha : c.isAlphanum = false) (s : List Char) :
    first? lexemes (c :: s) = some (symbolRule, 1) := by
  have skip : wordRule.pattern.width? (c :: s) = none :=
    Pattern.width?_many1_one_of_not_mem ((mem_alphanum c).trans ha) s
  have taken : symbolRule.pattern.width? (c :: s) = some 1 := by
    have inside : CharSet.mem c ⟨[.nonblank], false⟩ = true := by simp [CharSet.mem, CharItem.mem, hb]
    exact (Pattern.width?_one_cons _ c s).trans (if_pos inside)
  rw [lexemes, first?_visible hb, first?, List.findSome?_cons, skip, Option.map_none, List.findSome?_cons, taken]
  rfl

/-- What is kept of a lexeme. -/
def kept : Token → Token
  | .lexeme _ value _ => .word value
  | t => t

/-- Every text is scanned to its end, and cut in the scan. -/
theorem cut_scanAt (s : List Char) (offset : Nat) : (scanAt lexemes offset s).fault = none ∧
    ∃ values, Cut s values ∧ (scanAt lexemes offset s).tokens.map kept = values.map .word := by
  induction n : s.length using Nat.strongRecOn generalizing s offset with
  | ind n ih =>
    subst n
    cases s with
    | nil => exact ⟨rfl, [], .done, rfl⟩
    | cons c s =>
      -- Which rule takes what comes next is told by its first character.
      by_cases hb : Text.isBlank c = true
      · obtain ⟨fault, values, cut, tokens⟩ := ih _ (Nat.lt_succ_self _) s (offset + 1) rfl
        have skip : scanAt lexemes offset (c :: s) = scanAt lexemes (offset + 1) s := skipped_blank hb offset s
        rw [skip]
        exact ⟨fault, values, cut.blank hb, tokens⟩
      · rw [Bool.not_eq_true] at hb
        by_cases ha : c.isAlphanum = true
        · obtain ⟨run, rest, rfl, -, later, stop⟩ := Pattern.exists_run Char.isAlphanum s
          have hr : ∀ d ∈ c :: run, d.isAlphanum = true := List.forall_mem_cons.mpr ⟨ha, later⟩
          have shorter : rest.length < (c :: (run ++ rest)).length := by
            rw [List.length_cons, List.length_append]
            omega
          obtain ⟨fault, values, cut, tokens⟩ := ih _ shorter rest (offset + (run.length + 1)) rfl
          have found := scanAt_of_first? (first?_word hr stop) offset
          rw [← List.length_cons, List.drop_left, List.take_left] at found
          rw [← List.cons_append, found]
          exact ⟨fault, _, cut.word (List.cons_ne_nil c run) hr stop,
            congrArg (Token.word (.ofList (c :: run)) :: ·) tokens⟩
        · rw [Bool.not_eq_true] at ha
          obtain ⟨fault, values, cut, tokens⟩ := ih _ (Nat.lt_succ_self _) s (offset + 1) rfl
          rw [scanAt_of_first? (first?_symbol hb ha s)]
          exact ⟨fault, _, cut.symbol hb ha, congrArg (Token.word (.singleton c) :: ·) tokens⟩

end Scanning

section Pieces

theorem visible_of_isAlphanum {run : List Char} (hr : ∀ c ∈ run, c.isAlphanum = true) : visible run = run :=
  List.filter_eq_self.mpr fun c hc => by rw [not_blank_of_isAlphanum (hr c hc), Bool.not_false]

theorem visible_append (s t : List Char) : visible (s ++ t) = visible s ++ visible t := List.filter_append s t

theorem Cut.concat {s : List Char} {values : List String} (h : Cut s values) :
    values.flatMap String.toList = visible s := by
  induction h with
  | done => rfl
  | blank hc _ ih => rw [ih, visible, visible, List.filter_cons_of_neg (by simp [hc])]
  | word _ hr _ _ ih =>
    rw [List.flatMap_cons, String.toList_ofList, ih, visible_append, visible_of_isAlphanum hr]
  | symbol hb _ _ ih =>
    rw [List.flatMap_cons, String.toList_singleton, ih, visible, visible, List.filter_cons_of_pos (by simp [hb])]
    rfl

/-- A piece in its place between two parts of a text: a run of letters and digits that does not go on to either
side, or one other character. -/
inductive Piece (before : List Char) : String → List Char → Prop
  | word {value : String} {after : List Char} (hne : value.toList ≠ [])
    (hr : ∀ c ∈ value.toList, c.isAlphanum = true) (left : ∀ c ∈ before.getLast?, c.isAlphanum = false)
    (right : ∀ c ∈ after.head?, c.isAlphanum = false) : Piece before value after
  | symbol {c : Char} {after : List Char} (hb : Text.isBlank c = false) (ha : c.isAlphanum = false) :
    Piece before (String.singleton c) after

/-- A piece stays one in a longer text, if no run goes on over the seam. -/
theorem Piece.prepend {before after : List Char} {value : String} (h : Piece before value after)
    (front : List Char) (seam : (∀ c ∈ front.getLast?, c.isAlphanum = false) ∨
      ∀ c ∈ (before ++ (value.toList ++ after)).head?, c.isAlphanum = false) : Piece (front ++ before) value after := by
  cases h with
  | symbol hb ha => exact .symbol hb ha
  | word hne hr left right =>
    refine .word hne hr ?_ right
    cases before with
    | cons d before => simpa using left
    | nil =>
      rw [List.append_nil]
      refine seam.resolve_right fun none => ?_
      obtain ⟨c, rest, hs⟩ := List.exists_cons_of_ne_nil hne
      rw [hs] at none hr
      cases (none c rfl).symm.trans (hr c List.mem_cons_self)

/-- Every value that a text is cut into is a piece of it, between what was cut before and what is cut after. -/
theorem Cut.piece {s : List Char} {values : List String} (h : Cut s values) {earlier later : List String}
    {value : String} (hv : values = earlier ++ value :: later) :
    ∃ before after, s = before ++ (value.toList ++ after) ∧ visible before = earlier.flatMap String.toList ∧
      visible after = later.flatMap String.toList ∧ Piece before value after := by
  -- What is cut off first is put before the piece that is found in the rest; a run cannot go on over the seam,
  -- because where it was cut off no letter and no digit comes next.
  induction h generalizing earlier with
  | done => simp at hv
  | @blank c s _ hc _ ih =>
    obtain ⟨before, after, rfl, front, back, piece⟩ := ih hv
    have skip : visible (c :: before) = visible before := List.filter_cons_of_neg (by simp [hc])
    have apart : c.isAlphanum = false :=
      Bool.eq_false_iff.mpr fun ha => absurd hc (Bool.eq_false_iff.mp (not_blank_of_isAlphanum ha))
    exact ⟨c :: before, after, rfl, skip.trans front, back,
      piece.prepend [c] (.inl fun d hd => Option.some.inj hd ▸ apart)⟩
  | @word run s _ hne hr stop h ih =>
    cases earlier with
    | nil =>
      obtain ⟨rfl, rfl⟩ := List.cons.inj hv
      refine ⟨[], s, by simp, rfl, h.concat.symm, .word (by simpa) (by simpa) (by simp) stop⟩
    | cons e earlier =>
      obtain ⟨rfl, rest⟩ := List.cons.inj hv
      obtain ⟨before, after, rfl, front, back, piece⟩ := ih rest
      refine ⟨run ++ before, after, by simp, ?_, back, piece.prepend run (.inr stop)⟩
      rw [visible_append, visible_of_isAlphanum hr, front, List.flatMap_cons, String.toList_ofList]
  | @symbol c s _ hb ha h ih =>
    cases earlier with
    | nil =>
      obtain ⟨rfl, rfl⟩ := List.cons.inj hv
      exact ⟨[], s, by simp, rfl, h.concat.symm, .symbol hb ha⟩
    | cons e earlier =>
      obtain ⟨rfl, rest⟩ := List.cons.inj hv
      obtain ⟨before, after, rfl, front, back, piece⟩ := ih rest
      have seen : visible (c :: before) = c :: visible before := List.filter_cons_of_pos (by simp [hb])
      refine ⟨c :: before, after, rfl, ?_, back, piece.prepend [c] (.inl (by simp [ha]))⟩
      rw [seen, front, List.flatMap_cons, String.toList_singleton]
      rfl

end Pieces

section Classes
variable {value : String}

private theorem not_isAlpha_of_isDigit {c : Char} (h : c.isDigit = true) : c.isAlpha = false := by
  rw [Char.isDigit_iff_toNat] at h
  change 48 ≤ c.toNat ∧ c.toNat ≤ 57 at h
  rw [Pattern.isAlpha_eq, Bool.or_eq_false_iff, Bool.eq_false_iff, Bool.eq_false_iff, ne_eq, ne_eq,
    Pattern.isUpper_iff_toNat, Pattern.isLower_iff_toNat]
  change ¬(65 ≤ c.toNat ∧ c.toNat ≤ 90) ∧ ¬(97 ≤ c.toNat ∧ c.toNat ≤ 122)
  omega

theorem classifyText_of_symbol (h : ¬∀ c ∈ value.toList, c.isAlphanum = true) : classifyText value = value := by
  rw [classifyText, if_neg, if_neg]
  · rwa [List.all_eq_true]
  · intro digits
    refine h fun c hc => ?_
    rw [Pattern.isAlphanum_eq, List.all_eq_true.mp digits c hc, Bool.or_true]

theorem classifyText_eq_number_iff : classifyText value = "number" ↔ ∀ c ∈ value.toList, c.isDigit = true := by
  rw [← List.all_eq_true]
  constructor
  · intro h
    unfold classifyText at h
    split at h
    · assumption
    · split at h
      · exact absurd h (by decide)
      · subst h
        contradiction
  · exact fun digits => if_pos digits

theorem classifyText_eq_ident_iff : classifyText value = "ident" ↔
    (∀ c ∈ value.toList, c.isAlphanum = true) ∧ ∃ c ∈ value.toList, c.isAlpha = true := by
  by_cases word : ∀ c ∈ value.toList, c.isAlphanum = true
  · by_cases digits : ∀ c ∈ value.toList, c.isDigit = true
    · rw [classifyText_eq_number_iff.mpr digits]
      refine iff_of_false (by decide) fun ⟨_, c, hc, letter⟩ => ?_
      cases (not_isAlpha_of_isDigit (digits c hc)).symm.trans letter
    · have named : classifyText value = "ident" := by
        rw [classifyText, if_neg (by rwa [List.all_eq_true]), if_pos (List.all_eq_true.mpr word)]
      obtain ⟨c, hc, other⟩ : ∃ c ∈ value.toList, c.isDigit = false := by simpa using digits
      have letter := word c hc
      rw [Pattern.isAlphanum_eq, other, Bool.or_false] at letter
      exact iff_of_true named ⟨word, c, hc, letter⟩
  · rw [classifyText_of_symbol word]
    constructor
    · rintro rfl
      have letters : "ident".toList.all Char.isAlphanum = true := by decide
      exact absurd (List.all_eq_true.mp letters) word
    · exact fun h => absurd h.1 word

end Classes

/-- How a value is classified and dispatched: as a number, as an identifier or as itself. -/
structure Classified (value : String) : Prop where
  number : classifyText value = "number" ↔ ∀ c ∈ value.toList, c.isDigit = true
  ident : classifyText value = "ident" ↔
    (∀ c ∈ value.toList, c.isAlphanum = true) ∧ ∃ c ∈ value.toList, c.isAlpha = true
  other : classifyText value ≠ "number" → classifyText value ≠ "ident" → classifyText value = value
  dispatched : ∀ asked, Grammar.arithmetic.classifier asked (.word value) = .ok (.text (classifyText value))

theorem classified (value : String) : Classified value where
  number := classifyText_eq_number_iff
  ident := classifyText_eq_ident_iff
  other := by
    unfold classifyText
    split
    · exact fun number _ => absurd rfl number
    · split
      · exact fun _ ident => absurd rfl ident
      · exact fun _ _ => rfl
  dispatched _ := rfl

/-- Every text is cut into words: what can be seen of it is there in order, each piece in its place is a whole run
of letters and digits or one other character, and each is a number, an identifier or itself. -/
theorem scan_cuts (text : String) : ∃ values : List String,
    scan text = ⟨values.map .word, none⟩ ∧ values.flatMap String.toList = visible text.toList ∧
    (∀ earlier value later, values = earlier ++ value :: later →
      ∃ before after, text.toList = before ++ (value.toList ++ after) ∧
        visible before = earlier.flatMap String.toList ∧ visible after = later.flatMap String.toList ∧
        Piece before value after) ∧
    ∀ value ∈ values, Classified value := by
  obtain ⟨fault, values, cut, tokens⟩ := cut_scanAt text.toList 0
  refine ⟨values, ?_, cut.concat, fun _ _ _ => cut.piece, fun value _ => classified value⟩
  rw [← fault, ← tokens]
  rfl

end BindingPower.Arithmetic
