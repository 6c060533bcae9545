import BindingPower.Proofs.C.Lexeme

/-! C tokens written out with blanks between them, and the scan that gets them back. -/
namespace BindingPower.C

/-- A token that can be written: one lexeme of its kind. -/
def Writable (t : Token) : Prop :=
  ∃ s value, t = .lexeme (.c s) value none ∧ IsLexeme s value

/-- White space, perhaps none. -/
def Blank (gap : List Char) : Prop := ∀ c ∈ gap, Text.isBlank c = true

/-- Tokens written with blanks between them, and perhaps blanks after the last. -/
inductive Spells : List Token → List Char → Prop
  | last {kind : Kind} {value : String} {g : List Char} (hg : Blank g) :
    Spells [.lexeme kind value none] (value.toList ++ g)
  | more {kind : Kind} {value : String} {g s : List Char} {ts : List Token} (hg : Blank g)
    (hne : g ≠ []) (h : Spells ts s) : Spells (.lexeme kind value none :: ts) (value.toList ++ g ++ s)

open ScanRule

theorem ends_nil : Ends [] := fun c h => by cases h

theorem scanAt_blanks {gap : List Char} (hg : Blank gap) (u : List Char) (offset : Nat) :
    scanAt lexemes offset (gap ++ u) = scanAt lexemes (offset + gap.length) u :=
  skipped_blanks hg offset u

theorem parted_of_ends {u : List Char} (hu : Ends u) : Parted lexemes u :=
  fun _ _ _ _ hne hw kept => first?_append hu hne hw kept

theorem scanAt_lexeme {s : CSymbol} {value : String} (h : IsLexeme s value) {u : List Char} (hu : Ends u)
    (offset : Nat) :
    scanAt lexemes offset (value.toList ++ u) =
      let after := scanAt lexemes (offset + value.toList.length) u
      { after with tokens := .lexeme (.c s) value (some offset) :: after.tokens } :=
  (parted_of_ends hu).scanAt h offset

theorem ends_of_blank {gap u : List Char} (hg : Blank gap) (h : gap ≠ [] ∨ Ends u) : Ends (gap ++ u) := by
  cases gap with
  | nil => exact h.resolve_left fun hne => hne rfl
  | cons c gap =>
    rintro d ⟨⟩
    exact .inl (hg c (by simp))

/-- The scan of what is written finds the tokens again, each with its offset. -/
theorem Spells.scanAt {ts : List Token} {s : List Char} (h : Spells ts s) (ht : ∀ t ∈ ts, Writable t)
    {u : List Char} (hu : Ends u) (offset : Nat) :
    ∃ us k, us.map Token.bare = ts ∧
      ScanRule.scanAt lexemes offset (s ++ u) =
        let after := ScanRule.scanAt lexemes k u
        { after with tokens := us ++ after.tokens } := by
  induction h generalizing offset with
  | @last kind value gap hg =>
    obtain ⟨k, value, ⟨⟩, hl⟩ := ht _ List.mem_cons_self
    refine ⟨[.lexeme (.c k) value (some offset)], offset + value.toList.length + gap.length, rfl, ?_⟩
    rw [List.append_assoc, scanAt_lexeme hl (ends_of_blank hg (.inr hu)), scanAt_blanks hg]
    rfl
  | @more kind value gap s ts hg hne h ih =>
    obtain ⟨k, value, ⟨⟩, hl⟩ := ht _ List.mem_cons_self
    have later : ∀ t ∈ ts, Writable t := fun t h => ht t (List.mem_cons_of_mem _ h)
    obtain ⟨us, j, hus, hs⟩ := ih later (offset + value.toList.length + gap.length)
    refine ⟨.lexeme (.c k) value (some offset) :: us, j, by rw [List.map_cons, hus]; rfl, ?_⟩
    rw [List.append_assoc, List.append_assoc, scanAt_lexeme hl (ends_of_blank hg (.inl hne)),
      scanAt_blanks hg, hs]
    rfl

end BindingPower.C
