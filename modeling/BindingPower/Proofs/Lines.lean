import Mathlib.Data.Prod.Lex
import BindingPower.Proofs.Caret

/-! Offsets of a text and places in its lines. A text is its lines with a newline after each but the last; the line
and the column of a place say as much as an offset in the text does, and places come in the order of offsets. -/
namespace BindingPower

/-- The offset inside a source that is nearest to an offset. -/
def nearest (source : List Char) (offset : Int) : Nat := (max 0 (min offset source.length)).toNat

/-- How many characters lines take with a newline after each. -/
def extent : List (List Char) → Nat
  | [] => 0
  | line :: lines => line.length + 1 + extent lines

section Extent
variable {lines : List (List Char)} {line : List Char} {n m : Nat}

theorem extent_append (lines lines' : List (List Char)) : extent (lines ++ lines') = extent lines + extent lines' := by
  induction lines with
  | nil => exact (Nat.zero_add _).symm
  | cons line lines ih =>
    rw [List.cons_append, extent, extent, ih]
    omega

theorem extent_take_succ (h : lines[n]? = some line) :
    extent (lines.take (n + 1)) = extent (lines.take n) + (line.length + 1) := by
  rw [List.take_add_one, h, extent_append, Option.toList_some, extent, extent, Nat.add_zero]

theorem extent_take_mono (h : n ≤ m) : extent (lines.take n) ≤ extent (lines.take m) := by
  have parts := extent_append ((lines.take m).take n) ((lines.take m).drop n)
  rw [List.take_append_drop, List.take_take, Nat.min_eq_left h] at parts
  omega

theorem extent_modifyHead (c : Char) (h : lines ≠ []) :
    extent (lines.modifyHead (c :: ·)) = extent lines + 1 := by
  obtain ⟨line, lines, rfl⟩ := List.exists_cons_of_ne_nil h
  rw [List.modifyHead_cons, extent, extent, List.length_cons]
  omega

end Extent

theorem extent_splitOn (s : List Char) : extent (s.splitOn '\n') = s.length + 1 := by
  induction s with
  | nil => rfl
  | cons c s ih =>
    rw [List.splitOn_cons_eq_if_modifyHead]
    split
    · rw [extent, ih, List.length_cons, List.length_nil]
      omega
    · rw [extent_modifyHead c (List.splitOn_ne_nil _ _), ih, List.length_cons]

theorem length_splitOn (s : List Char) : (s.splitOn '\n').length = s.count '\n' + 1 := by
  induction s with
  | nil => rfl
  | cons c s ih =>
    rw [List.splitOn_cons_eq_if_modifyHead, List.count_cons]
    split
    · rw [List.length_cons, ih]
    · rw [List.length_modifyHead, ih, Nat.add_zero]

/-- Whole lines in front of a text are the first of its lines. -/
theorem exists_lines_above {front : List Char} (h : ∀ c ∈ front.getLast?, c = '\n') : ∃ above,
    above.length = front.count '\n' ∧ extent above = front.length ∧
      ∀ s, (front ++ s).splitOn '\n' = above ++ s.splitOn '\n' := by
  rcases List.eq_nil_or_concat front with rfl | ⟨upTo, c, rfl⟩
  · exact ⟨[], rfl, rfl, fun s => rfl⟩
  · obtain rfl : c = '\n' := h c (by simp)
    refine ⟨upTo.splitOn '\n', ?_, ?_, fun s => ?_⟩
    · rw [length_splitOn, List.concat_eq_append, List.count_append]
      rfl
    · rw [extent_splitOn, List.length_concat]
    · rw [List.concat_eq_append, List.append_assoc, List.singleton_append, List.splitOn_append_cons_self]

/-- The first line of a text ends where its first newline is. -/
theorem head?_splitOn {row back : List Char} (hr : '\n' ∉ row) (hb : ∀ c ∈ back.head?, c = '\n') :
    ((row ++ back).splitOn '\n').head? = some row := by
  cases back with
  | nil =>
    rw [List.append_nil, List.splitOn_eq_singleton hr, List.head?_cons]
  | cons c back =>
    obtain rfl : c = '\n' := hb c rfl
    rw [List.splitOn_append_cons_self_of_not_mem hr, List.head?_cons]

namespace Place

/-- Where a place is: first the line, then the column. -/
def coordinates (place : Place) : Nat ×ₗ Nat := toLex (place.line, place.column)

/-- A place in a text of some lines: its row is one of them, its column in the row or right behind it, and the
lines above with their newlines and the characters left of the column are as many as the offset says. -/
structure LiesAt (place : Place) (lines : List (List Char)) (offset : Nat) : Prop where
  line_pos : 1 ≤ place.line
  row : lines[place.line - 1]? = some place.row
  column_pos : 1 ≤ place.column
  column_le : place.column ≤ place.row.length + 1
  offset : extent (lines.take (place.line - 1)) + (place.column - 1) = offset

namespace LiesAt
variable {place place' : Place} {lines : List (List Char)} {offset offset' : Nat}

/-- All of a line lies before all of the lines below it. -/
theorem lt_of_line_lt (h : place.LiesAt lines offset) (h' : place'.LiesAt lines offset')
    (above : place.line < place'.line) : offset < offset' := by
  have upTo := extent_take_succ h.row
  have below : extent (lines.take (place.line - 1 + 1)) ≤ extent (lines.take (place'.line - 1)) :=
    extent_take_mono (by have := h.line_pos; omega)
  have left := h.column_le
  have here := h.offset
  have there := h'.offset
  omega

theorem lt_of_coordinates_lt (h : place.LiesAt lines offset) (h' : place'.LiesAt lines offset')
    (before : place.coordinates < place'.coordinates) : offset < offset' := by
  rcases Prod.Lex.toLex_lt_toLex.mp before with above | ⟨same, left⟩
  · exact h.lt_of_line_lt h' above
  · dsimp only at same left
    have here := h.offset
    have there := h'.offset
    have column := h.column_pos
    rw [same] at here
    omega

theorem eq_of_coordinates_eq (h : place.LiesAt lines offset) (h' : place'.LiesAt lines offset')
    (same : place.coordinates = place'.coordinates) : place = place' ∧ offset = offset' := by
  obtain ⟨line, column, row⟩ := place
  obtain ⟨line', column', row'⟩ := place'
  obtain ⟨rfl, rfl⟩ : line = line' ∧ column = column' := Prod.mk.inj (toLex.injective same)
  obtain rfl : row = row' := Option.some.inj (h.row.symm.trans h'.row)
  exact ⟨rfl, h.offset.symm.trans h'.offset⟩

/-- Of two places in the same lines the one with the smaller offset comes first. -/
theorem coordinates_lt_iff (h : place.LiesAt lines offset) (h' : place'.LiesAt lines offset') :
    place.coordinates < place'.coordinates ↔ offset < offset' := by
  refine ⟨h.lt_of_coordinates_lt h', fun before => ?_⟩
  rcases lt_trichotomy place.coordinates place'.coordinates with lt | same | gt
  · exact lt
  · exact absurd (h.eq_of_coordinates_eq h' same).2 before.ne
  · exact absurd (h'.lt_of_coordinates_lt h gt) before.asymm

theorem eq_of_offset_eq (h : place.LiesAt lines offset) (h' : place'.LiesAt lines offset) : place = place' := by
  have same : place.coordinates = place'.coordinates :=
    le_antisymm (not_lt.mp fun gt => lt_irrefl _ (h'.lt_of_coordinates_lt h gt))
      (not_lt.mp fun lt => lt_irrefl _ (h.lt_of_coordinates_lt h' lt))
  exact (h.eq_of_coordinates_eq h' same).1

end LiesAt
end Place

theorem nearest_le (source : List Char) (offset : Int) : nearest source offset ≤ source.length := by
  rw [nearest]
  omega

theorem locate_nearest (source : List Char) (offset : Int) :
    locate source (nearest source offset) = locate source offset := by
  have same : min (nearest source offset) source.length = min offset.toNat source.length := by
    rw [nearest]
    omega
  rw [locate, locate, Int.toNat_natCast, List.take_eq_take_iff.mpr same, List.drop_eq_drop_iff.mpr same]

/-- An offset is found in the line it lies in, at the column that is left of it. -/
theorem liesAt_locate (source : List Char) (offset : Int) :
    (locate source offset).LiesAt (source.splitOn '\n') (nearest source offset) := by
  obtain ⟨front, head, tail, back, cut, place⟩ := exists_lineAt (nearest_le source offset)
  obtain ⟨above, count, upTo, split⟩ := exists_lines_above cut.begins
  have lines : source.splitOn '\n' = above ++ ((head ++ tail) ++ back).splitOn '\n' := by
    rw [← split, List.append_assoc, ← cut.whole]
  rw [← locate_nearest, place, ← count]
  refine ⟨Nat.succ_pos _, ?_, Nat.succ_pos _, ?_, ?_⟩
  · dsimp only
    rw [lines, Nat.add_sub_cancel, List.getElem?_append_right (Nat.le_refl _), Nat.sub_self,
      ← List.head?_eq_getElem?]
    exact head?_splitOn cut.within cut.ends
  · dsimp only
    rw [List.length_append]
    omega
  · dsimp only
    rw [lines, Nat.add_sub_cancel, List.take_left, upTo, Nat.add_sub_cancel, cut.here]

/-- The place of an offset is the only one that lies at the offset, or at the end of the source that is nearest to
it; and two offsets have their places in the order they have themselves. -/
theorem locate_inverts_lines (source : List Char) :
    (∀ offset place, locate source offset = place ↔
      place.LiesAt (source.splitOn '\n') (nearest source offset)) ∧
    ∀ offset other,
      ((locate source offset).coordinates = (locate source other).coordinates ↔
        nearest source offset = nearest source other) ∧
      ((locate source offset).coordinates < (locate source other).coordinates ↔
        nearest source offset < nearest source other) := by
  have found := liesAt_locate source
  refine ⟨fun offset place => ⟨?_, fun h => (found offset).eq_of_offset_eq h⟩, fun offset other => ⟨⟨?_, ?_⟩, ?_⟩⟩
  · rintro rfl
    exact found offset
  · exact fun same => ((found offset).eq_of_coordinates_eq (found other) same).2
  · intro same
    rw [← locate_nearest, same, locate_nearest]
  · exact (found offset).coordinates_lt_iff (found other)

/-- An offset on a newline is at the end of its line, and the one behind it begins the next. -/
example : let source := "ab\n\nc\n".toList
    [-1, 2, 3, 4, 6, 9].map (fun offset => ((locate source offset).line, (locate source offset).column)) =
      [(1, 1), (1, 3), (2, 1), (3, 1), (4, 1), (4, 1)] := by
  decide

end BindingPower
