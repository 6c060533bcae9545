import BindingPower.Diagnostic
import BindingPower.Proofs.Pattern

/-! Where the carets of a label stand. They are as far behind the bar of their row as the labelled character is
behind the bar of the row above; but the margin of the row above is wider, by two columns and more where the
number of the line has more than four digits, so no caret stands below its character. The rows are those of a
diagnostic that can be shown, as `Diagnostic.renderError?` tells. -/
namespace BindingPower

/-- The line of a source in which an offset lies, cut there, with what comes before the line and after it. -/
structure LineAt (source : List Char) (offset : Nat) (front head tail back : List Char) : Prop where
  whole : source = front ++ (head ++ (tail ++ back))
  here : front.length + head.length = offset
  begins : ∀ c ∈ front.getLast?, c = '\n'
  ends : ∀ c ∈ back.head?, c = '\n'
  within : '\n' ∉ head ++ tail

/-- A text up to its first newline, and from there on. -/
private theorem exists_line (s : List Char) : ∃ line rest, s = line ++ rest ∧
    s.takeWhile (· != '\n') = line ∧ '\n' ∉ line ∧ ∀ c ∈ rest.head?, c = '\n' := by
  obtain ⟨line, rest, whole, taken, inside, stop⟩ := Pattern.exists_run (· != '\n') s
  exact ⟨line, rest, whole, taken, fun h => by simpa using inside _ h, fun c hc => by simpa using stop c hc⟩

/-- The place of an offset is that of its line: the lines above, the column in the line, and the line itself. -/
theorem exists_lineAt {source : List Char} {offset : Nat} (h : offset ≤ source.length) :
    ∃ front head tail back, LineAt source offset front head tail back ∧
      locate source offset = ⟨front.count '\n' + 1, head.length + 1, head ++ tail⟩ := by
  obtain ⟨tail, back, after, onward, inTail, ends⟩ := exists_line (source.drop offset)
  obtain ⟨head, front, before, backward, inHead, begins⟩ := exists_line (source.take offset).reverse
  have upTo : source.take offset = front.reverse ++ head.reverse := by
    rw [← List.reverse_append, ← before, List.reverse_reverse]
  have above : (source.take offset).count '\n' = front.reverse.count '\n' := by
    have none : head.reverse.count '\n' = 0 := List.count_eq_zero_of_not_mem (by simpa using inHead)
    rw [upTo, List.count_append, none, Nat.add_zero]
  have parts := List.take_append_drop offset source
  rw [upTo, after, List.append_assoc] at parts
  have long := congrArg List.length upTo
  rw [List.length_take_of_le h, List.length_append] at long
  refine ⟨front.reverse, head.reverse, tail, back, ⟨parts.symm, long.symm, ?_, ends, ?_⟩, ?_⟩
  · simpa using begins
  · simpa [not_or] using ⟨inHead, inTail⟩
  · rw [locate, Int.toNat_natCast, above, backward, onward]

/-- What stands left of the source in its row. -/
def margin (line : Nat) : List Char := ' ' :: ' ' :: ((gutter line).toList ++ [' ', '|', ' '])

/-- The row that shows the line of a place. -/
def sourceRow (place : Place) : String := "  " ++ (gutter place.line ++ " |") ++ " " ++ String.ofList place.row

/-- The row of the carets below a column. -/
def caretRow (column : Nat) (width : Int) : String :=
  "  " ++ "   |" ++ " " ++ String.ofList (List.replicate (column - 1) ' ') ++
    String.ofList (List.replicate (max 1 width).toNat '^')

theorem toList_sourceRow (place : Place) : (sourceRow place).toList = margin place.line ++ place.row := by
  simp [sourceRow, margin]

theorem toList_caretRow (column : Nat) (width : Int) : ∃ more,
    (caretRow column width).toList = ("     | ".toList ++ List.replicate (column - 1) ' ') ++ '^' :: more := by
  obtain ⟨n, hn⟩ : ∃ n, (max 1 width).toNat = n + 1 := Nat.exists_eq_add_one.mpr (by omega)
  exact ⟨List.replicate n '^', by simp [caretRow, hn, List.replicate_succ]⟩

theorem idxOf_caretRow (column : Nat) (width : Int) :
    (caretRow column width).toList.idxOf '^' = 7 + (column - 1) := by
  obtain ⟨more, row⟩ := toList_caretRow column width
  rw [row, List.idxOf_append, if_neg (by simp), List.idxOf_cons_self, Nat.zero_add,
    List.length_append, List.length_replicate]
  rfl

theorem toList_gutter (line : Nat) :
    (gutter line).toList = List.replicate (4 - (toString line).length) ' ' ++ (toString line).toList := by
  change (String.ofList (List.replicate _ ' ') ++ toString line).toList = _
  rw [String.toList_append, String.toList_ofList]

theorem length_gutter (line : Nat) : (gutter line).toList.length = max 4 (toString line).length := by
  rw [toList_gutter, List.length_append, List.length_replicate, String.length_toList]
  omega

theorem length_margin (line : Nat) : (margin line).length = max 4 (toString line).length + 5 := by
  rw [margin, List.length_cons, List.length_cons, List.length_append, length_gutter]
  rfl

/-- By how many columns the margin of a line is wider than that of the carets below it. -/
def excess (line : Nat) : Nat := max 4 (toString line).length - 2

theorem isDigit_of_mem_toString {line : Nat} {c : Char} (h : c ∈ (toString line).toList) : c.isDigit = true := by
  rw [Nat.toString_eq_repr, Nat.toList_repr] at h
  exact Nat.isDigit_of_mem_toDigits (by decide) (by decide) h

theorem not_mem_gutter {c : Char} (hc : c ≠ ' ') (hd : c.isDigit = false) (line : Nat) :
    c ∉ (gutter line).toList := by
  rw [toList_gutter, List.mem_append, not_or]
  refine ⟨fun h => hc (List.eq_of_mem_replicate h), fun h => ?_⟩
  cases hd.symm.trans (isDigit_of_mem_toString h)

theorem idxOf_bar_sourceRow (place : Place) :
    (sourceRow place).toList.idxOf '|' = max 4 (toString place.line).length + 3 := by
  have none : '|' ∉ ' ' :: ' ' :: (gutter place.line).toList := by
    simpa using not_mem_gutter (by decide) (by decide) place.line
  have row : (sourceRow place).toList =
      (' ' :: ' ' :: (gutter place.line).toList) ++ ' ' :: '|' :: ' ' :: place.row := by
    simp [toList_sourceRow, margin]
  have bar : (' ' :: '|' :: ' ' :: place.row).idxOf '|' = 1 := rfl
  rw [row, List.idxOf_append, if_neg none, bar, List.length_cons, List.length_cons, length_gutter]
  omega

theorem idxOf_bar_caretRow (column : Nat) (width : Int) : (caretRow column width).toList.idxOf '|' = 5 := by
  obtain ⟨more, row⟩ := toList_caretRow column width
  rw [row]
  rfl

theorem newline_not_mem_margin (line : Nat) : '\n' ∉ margin line := by
  simpa [margin] using not_mem_gutter (by decide) (by decide) line

theorem newline_not_mem_caretRow (column : Nat) (width : Int) : '\n' ∉ (caretRow column width).toList := by
  simp [caretRow]

namespace Diagnostic

theorem labelRows_eq (d : Diagnostic) (source : List Char) (label : Label) :
    let place := locate source label.offset
    ∃ message, d.labelRows false (some source) label =
      ["  --> input:" ++ toString place.line ++ ":" ++ toString place.column, "     |"] ++
        sourceRow place :: caretRow place.column label.width :: message := by
  have arrow : "  " ++ "-->" ++ " input:" = "  --> input:" := rfl
  have bar : "  " ++ "   |" = "     |" := rfl
  rw [← arrow, ← bar]
  exact ⟨if label.message = "" then [] else ["  " ++ "   |" ++ "   " ++ label.message], rfl⟩

/-- A row shows at a column what stands at an offset of a source: from there on the rest of the line, and before it
the beginning of the line behind a margin. The column is the row's end for an offset at the end of a line. -/
def ShowsAt (source : List Char) (offset : Nat) (row : String) (column : Nat) : Prop :=
  ∃ front head tail back, LineAt source offset front head tail back ∧ column ≤ row.toList.length ∧
    head <:+ row.toList.take column ∧ row.toList.drop column = tail

/-- How a label is underlined: after the rows of the header and of the labels before it and two rows for its place
comes the row that shows the line of its offset, and then the row of the carets. -/
structure Underlined (d : Diagnostic) (source : String) (earlier : List Label) (label : Label) (row carets : String)
    (column : Nat) : Prop where
  rendered : let place := locate source.toList label.offset
    ∃ below, d.render false (some source) = "\n".intercalate
      (d.header false :: earlier.flatMap (d.labelRows false (some source.toList)) ++
        (["  --> input:" ++ toString place.line ++ ":" ++ toString place.column, "     |"] ++
          row :: carets :: below))
  whole : '\n' ∉ row.toList ∧ '\n' ∉ carets.toList
  shows : ShowsAt source.toList label.offset.toNat row column

theorem render_labelRows {d : Diagnostic} {source : String} {earlier later : List Label} {label : Label}
    (hd : d.labels = earlier ++ label :: later) : ∃ rest, d.render false (some source) = "\n".intercalate
      (d.header false :: earlier.flatMap (d.labelRows false (some source.toList)) ++
        (d.labelRows false (some source.toList) label ++ rest)) := by
  refine ⟨later.flatMap (d.labelRows false (some source.toList)) ++
    d.notes.map fun note => "  " ++ paint false blue "=" ++ " note: " ++ note, ?_⟩
  rw [render, Option.map_some, rows, hd, List.flatMap_append, List.flatMap_cons]
  simp only [List.cons_append, List.append_assoc]

/-- The first caret of a label is as far behind the bar of its row as the labelled character is behind the bar of
the row above. The bars are not at the same column, and the caret is left of the character by as much. -/
theorem carets_left {d : Diagnostic} {source : String} {earlier later : List Label} {label : Label}
    (hd : d.labels = earlier ++ label :: later) (h0 : 0 ≤ label.offset)
    (hn : label.offset ≤ source.toList.length) :
    let line := (locate source.toList label.offset).line
    ∃ row carets column, Underlined d source earlier label row carets column ∧ 2 ≤ excess line ∧
      carets.toList.idxOf '^' + excess line = column ∧
      carets.toList.idxOf '|' + excess line = row.toList.idxOf '|' := by
  intro line
  obtain ⟨front, head, tail, back, cut, place⟩ := exists_lineAt (Int.toNat_le.mpr hn)
  rw [Int.toNat_of_nonneg h0] at place
  have above : line = front.count '\n' + 1 := congrArg Place.line place
  rw [← above] at place
  have row : (sourceRow ⟨line, head.length + 1, head ++ tail⟩).toList = (margin line ++ head) ++ tail := by
    rw [toList_sourceRow, List.append_assoc]
  refine ⟨sourceRow ⟨line, head.length + 1, head ++ tail⟩, caretRow (head.length + 1) label.width,
    (margin line ++ head).length, ⟨?_, ⟨?_, ?_⟩, ?_⟩, ?_, ?_, ?_⟩
  · obtain ⟨rest, rendered⟩ := render_labelRows hd
    obtain ⟨message, shown⟩ := d.labelRows_eq source.toList label
    rw [place] at shown ⊢
    rw [shown, List.append_assoc, List.cons_append, List.cons_append] at rendered
    exact ⟨message ++ rest, rendered⟩
  · rw [toList_sourceRow, List.mem_append, not_or]
    exact ⟨newline_not_mem_margin line, cut.within⟩
  · exact newline_not_mem_caretRow _ _
  · refine ⟨front, head, tail, back, cut, ?_, ?_, ?_⟩
    · rw [row]
      exact (List.prefix_append _ _).length_le
    · rw [row, List.take_left]
      exact List.suffix_append _ _
    · rw [row, List.drop_left]
  · rw [excess]
    omega
  · rw [idxOf_caretRow, List.length_append, length_margin, excess]
    omega
  · have bar : (sourceRow ⟨line, head.length + 1, head ++ tail⟩).toList.idxOf '|' =
        max 4 (toString line).length + 3 := idxOf_bar_sourceRow _
    rw [idxOf_bar_caretRow, bar, excess]
    omega

theorem carets_left_message :
    let d : Diagnostic := { code := "P002", message := "no rule", labels := [⟨6, 1, "here"⟩], notes := ["note"] }
    d.labels = [] ++ ⟨6, 1, "here"⟩ :: [] ∧ (0 : Int) ≤ 6 ∧ (6 : Int) ≤ "a = 1\nx y".toList.length ∧
    ∃ row carets column,
      Underlined d "a = 1\nx y" [] ⟨6, 1, "here"⟩ row carets column ∧ carets.toList.idxOf '^' + 2 = column := by
  intro d
  have labels : d.labels = [] ++ ⟨6, 1, "here"⟩ :: [] := rfl
  have inside : (6 : Int) ≤ "a = 1\nx y".toList.length := by decide
  obtain ⟨row, carets, column, underlined, -, shift, -⟩ := carets_left labels (by decide) inside
  exact ⟨labels, by decide, inside, row, carets, column, underlined, shift⟩

/-- The character is in the fourteenth column and the caret in the twelfth. -/
theorem carets_apart :
    Diagnostic.render { code := "P006", message := "m", labels := [⟨4, 1, ""⟩] } false (some "x = @;") =
      "error[P006]: m\n  --> input:1:5\n     |\n     1 | x = @;\n     |     ^" ∧
    ∀ column, ShowsAt "x = @;".toList 4 "     1 | x = @;" column → "     |     ^".toList.idxOf '^' ≠ column := by
  refine ⟨by decide +kernel, ?_⟩
  rintro _ ⟨front, head, tail, back, cut, -, -, rest⟩ rfl
  -- Four characters are shown from the caret's column on, but the source has only two left at the offset.
  have shown : 4 = tail.length := congrArg List.length rest
  have long : 6 = (front ++ (head ++ (tail ++ back))).length := congrArg List.length cut.whole
  have here := cut.here
  simp only [List.length_append] at long
  omega

end Diagnostic

end BindingPower
