import BindingPower.Grammar.Bundled
import BindingPower.Proofs.C.Comment
import BindingPower.Proofs.C.Layout
import BindingPower.Proofs.Ebnf.Lexeme
import BindingPower.Proofs.Located

/-! Texts written again with other gaps between their tokens. A lexeme of a text is one by itself, it stays
what it is where a blank comes after it, and a gap is skipped: so the new text has the tokens of the old. -/
namespace BindingPower

/-- Tokens written one after the other, with a gap between any two that are neighbours. -/
inductive Spaced (gap : List Char → Prop) : List String → List Char → Prop
  | none : Spaced gap [] []
  | last (value : String) : Spaced gap [value] value.toList
  | more (value : String) {next : String} {values : List String} {g s : List Char} (hg : gap g)
    (h : Spaced gap (next :: values) s) : Spaced gap (value :: next :: values) (value.toList ++ (g ++ s))

theorem Token.value_bare (t : Token) : t.bare.value = t.value := by
  cases t <;> rfl

namespace ScanRule

/-- A gap that may come between two tokens: it begins with a blank, and no token comes of it. -/
structure Parting (rules : List ScanRule) (g : List Char) : Prop where
  begins : ∃ c rest, g = c :: rest ∧ Text.isBlank c = true
  skipped : Skipped rules g

theorem Parting.ahead {rules : List ScanRule} {g : List Char} (h : Parting rules g) (u : List Char) :
    BlankAhead (g ++ u) := by
  obtain ⟨c, rest, rfl, hc⟩ := h.begins
  rintro d ⟨⟩
  exact hc

section Respaced
variable {rules : List ScanRule} {gap : List Char → Prop} (parted : ∀ u, BlankAhead u → Parted rules u)
  (gaps : ∀ g, gap g → Parting rules g)
include parted gaps

theorem scanAt_of_spaced {ts : List Token}
    (alone : ∀ t ∈ ts, ∃ kind value place, t = .lexeme kind value place ∧
      scan rules value = ⟨[.lexeme kind value (some 0)], none⟩)
    {s : List Char} (h : Spaced gap (ts.map Token.value) s) (offset : Nat) :
    (scanAt rules offset s).fault = none ∧
      (scanAt rules offset s).tokens.map Token.bare = ts.map Token.bare := by
  induction ts generalizing s offset with
  | nil =>
    cases h
    exact ⟨rfl, rfl⟩
  | cons t ts ih =>
    obtain ⟨⟨kind, value, place, rfl, single⟩, later⟩ := List.forall_mem_cons.mp alone
    rw [List.map_cons, Token.value] at h
    cases ts with
    | nil =>
      cases h
      have found := (parted [] fun c none => by cases none).scanAt single offset
      rw [List.append_nil] at found
      rw [found]
      exact ⟨rfl, rfl⟩
    | cons next ts =>
      cases h with
      | @more _ _ _ g _ hg rest =>
        have between := gaps g hg
        obtain ⟨fault, tokens⟩ := ih later rest (offset + value.toList.length + g.length)
        rw [(parted _ (between.ahead _)).scanAt single, between.skipped]
        exact ⟨fault, congrArg (Token.lexeme kind value none :: ·) tokens⟩

/-- A text in which the tokens of another are written with gaps between them has the same tokens. -/
theorem scan_of_spaced {text other : String}
    (h : Spaced gap ((scan rules text).tokens.map Token.value) other.toList) :
    (scan rules other).fault = none ∧
      (scan rules other).tokens.map Token.bare = (scan rules text).tokens.map Token.bare := by
  refine scanAt_of_spaced parted gaps (fun t ht => ?_) h 0
  obtain ⟨kind, value, place, rfl⟩ := lexeme_of_mem_scan ht
  exact ⟨kind, value, some place, rfl, scan_of_mem_scan ht⟩

end Respaced

end ScanRule

namespace Arithmetic
open ScanRule

theorem parted_lexemes {u : List Char} (hu : BlankAhead u) : Parted lexemes u := by
  intro w rule value offset hne hw kept
  have clear := C.not_mem_of_blankAhead hu
  apply first?_transfer hw
  · simp only [lexemes, List.forall_mem_cons]
    refine ⟨fun none => ?_, fun none => ?_, ?_, List.forall_mem_nil _⟩
    · exact Pattern.width?_many1_one_append_eq_none hne none u
    · exact Pattern.width?_many1_one_append_eq_none hne none u
    · exact (Pattern.width?_append_of_firm clear rfl hne).trans
  · have member := mem_of_first? hw
    simp only [lexemes, List.mem_cons, List.not_mem_nil, or_false] at member
    rcases member with rfl | rfl | rfl
    · exact absurd rfl kept
    · exact (Pattern.width?_append_of_avoids clear (by decide) w).trans
    · exact (Pattern.width?_append_of_firm clear rfl hne).trans

theorem tokens_scan (text : String) :
    (scan text).tokens = (ScanRule.scan lexemes text).tokens.map fun t => .word t.value := by
  refine List.map_congr_left fun t ht => ?_
  obtain ⟨kind, value, place, rfl⟩ := lexeme_of_mem_scan ht
  rfl

end Arithmetic

namespace Grammar

/-- What may come between two tokens: white space, and in C any comments after it. -/
inductive Gap : Grammar → List Char → Prop
  | blanks {g : Grammar} {gap : List Char} (hne : gap ≠ []) (h : ∀ c ∈ gap, Text.isBlank c = true) : Gap g gap
  | comments {c : Char} {gap : List Char} (hc : Text.isBlank c = true) (h : C.Filler gap) :
    Gap Grammar.c (c :: gap)

open ScanRule

private theorem parting_of_blanks {rules : List ScanRule} {gap : List Char} (hne : gap ≠ [])
    (h : ∀ c ∈ gap, Text.isBlank c = true) : Parting (blankRule :: rules) gap := by
  obtain ⟨c, rest, rfl⟩ := List.exists_cons_of_ne_nil hne
  exact ⟨⟨c, rest, rfl, h c List.mem_cons_self⟩, skipped_blanks h⟩

theorem Gap.parting {g : Grammar} {rules : List ScanRule} (hg : g.name ≠ Grammar.c.name) {gap : List Char}
    (h : g.Gap gap) : Parting (blankRule :: rules) gap := by
  cases h with
  | blanks hne h => exact parting_of_blanks hne h
  | comments => exact absurd rfl hg

theorem Gap.parting_c {gap : List Char} (h : Grammar.c.Gap gap) : Parting C.lexemes gap := by
  cases h with
  | blanks hne h => exact parting_of_blanks hne h
  | comments hc h => exact ⟨⟨_, _, rfl, hc⟩, (skipped_blank hc).append h.skipped⟩

/-- The tokens of a text, written with gaps between them, are scanned to the same tokens again; they need not
be all of the text, if its scan stops. -/
theorem scan_respaced {g : Grammar} (hg : g ∈ bundled) {text other : String}
    (h : Spaced g.Gap ((g.scan text).tokens.map Token.value) other.toList) :
    (g.scan other).fault = none ∧
      (g.scan other).tokens.map Token.bare = (g.scan text).tokens.map Token.bare := by
  simp only [bundled, List.mem_cons, List.not_mem_nil, or_false] at hg
  obtain rfl | rfl | rfl := hg
  · change Spaced _ ((Arithmetic.scan text).tokens.map _) _ at h
    change (ScanRule.scan Arithmetic.lexemes other).fault = none ∧
      (Arithmetic.scan other).tokens.map Token.bare = (Arithmetic.scan text).tokens.map Token.bare
    rw [Arithmetic.tokens_scan, List.map_map] at h
    obtain ⟨fault, tokens⟩ := scan_of_spaced (fun _ => Arithmetic.parted_lexemes)
      (fun _ => Gap.parting (by decide)) h
    -- Words know nothing but their texts, which are the same where the lexemes are.
    have values := congrArg (List.map fun t => Token.word t.value) tokens
    simp only [List.map_map, Function.comp_def, Token.value_bare] at values
    rw [Arithmetic.tokens_scan, Arithmetic.tokens_scan, values]
    exact ⟨fault, rfl⟩
  · exact scan_of_spaced (fun _ => Ebnf.parted_lexemes) (fun _ => Gap.parting (by decide)) h
  · exact scan_of_spaced (fun u hu => C.parted_of_ends fun c hc => .inl (hu c hc)) (fun _ => Gap.parting_c) h

theorem scan_respaced_comments : Grammar.c ∈ bundled ∧
    Spaced Grammar.c.Gap ((Grammar.c.scan "a+++1.e/*").tokens.map Token.value)
      "a ++ +\t1. /* * */e\n// f\n/ *".toList ∧
    (Grammar.c.scan "a ++ +\t1. /* * */e\n// f\n/ *").fault = none ∧
    (Grammar.c.scan "a ++ +\t1. /* * */e\n// f\n/ *").tokens.map Token.bare =
      (Grammar.c.scan "a+++1.e/*").tokens.map Token.bare := by
  have bundled : Grammar.c ∈ bundled := List.mem_cons_of_mem _ (List.mem_cons_of_mem _ List.mem_cons_self)
  have values : (Grammar.c.scan "a+++1.e/*").tokens.map Token.value = ["a", "++", "+", "1.", "e", "/", "*"] := by
    decide +kernel
  have blank (c : Char) (hc : Text.isBlank c = true) : Grammar.c.Gap [c] :=
    .blanks (List.cons_ne_nil c []) (List.forall_mem_singleton.mpr hc)
  have block : Grammar.c.Gap " /* * */".toList :=
    .comments (by decide) (C.Filler.block (x := [' ', '*', ' ']) (by decide) .done)
  have row : Grammar.c.Gap "\n// f\n".toList :=
    .comments (by decide) (C.Filler.row (x := [' ', 'f']) (by decide) .done)
  have spaced : Spaced Grammar.c.Gap ["a", "++", "+", "1.", "e", "/", "*"]
      "a ++ +\t1. /* * */e\n// f\n/ *".toList :=
    .more "a" (blank ' ' (by decide)) (.more "++" (blank ' ' (by decide)) (.more "+" (blank '\t' (by decide))
      (.more "1." block (.more "e" row (.more "/" (blank ' ' (by decide)) (.last "*"))))))
  rw [← values] at spaced
  exact ⟨bundled, spaced, scan_respaced bundled spaced⟩

end Grammar

end BindingPower
