import Mathlib.Data.List.Forall2
import BindingPower.Text.Ansi
import BindingPower.Proofs.Caret
import BindingPower.Proofs.Pattern

/-! Colours decorate a diagnostic and are no part of it: what is shown in colours is what is shown without them,
with codes put in between. Whether there is anything to show (`Diagnostic.renderError?`) is no matter of colours. -/
namespace BindingPower

namespace Text

/-- A code that sets colours or takes them back: an escape, a bracket, numbers with semicolons between, and an m. -/
def IsColourCode (code : List Char) : Prop :=
  ∃ numbers, code = '\x1b' :: '[' :: (numbers ++ ['m']) ∧ ∀ c ∈ numbers, c.isDigit = true ∨ c = ';'

/-- The second text is the first without its colour codes, which are the only escapes there. -/
inductive Sheds : List Char → List Char → Prop
  | nil : Sheds [] []
  | keep {c : Char} {s t : List Char} (h : c ≠ '\x1b') (rest : Sheds s t) : Sheds (c :: s) (c :: t)
  | code {code s t : List Char} (h : IsColourCode code) (rest : Sheds s t) : Sheds (code ++ s) t

namespace IsColourCode
variable {code : List Char} (h : IsColourCode code)
include h

theorem length_pos : 0 < code.length := by
  obtain ⟨numbers, rfl, -⟩ := h
  exact Nat.succ_pos _

theorem newline_not_mem : '\n' ∉ code := by
  obtain ⟨numbers, rfl, inside⟩ := h
  have none : '\n' ∉ numbers := fun mem => by simpa using inside _ mem
  simpa using none

/-- The pattern of codes takes a colour code as a whole. -/
theorem width?_eq (s : List Char) : colourCode.width? (code ++ s) = some code.length := by
  obtain ⟨numbers, rfl, inside⟩ := h
  let set : CharSet := ⟨[.range ';' ';', .range '?' '?', .range '0' '9'], false⟩
  have run : ∀ c ∈ numbers, set.mem c = true := by
    intro c hc
    rcases inside c hc with digit | rfl
    · simp [set, CharSet.mem, Pattern.mem_digit, digit]
    · rfl
  have middle : ((Pattern.many (.one set)).widths (numbers ++ 'm' :: s)).head? = some numbers.length := by
    have stop : ('m' :: s).takeWhile (set.mem ·) = [] := rfl
    rw [Pattern.many, Pattern.widths, Pattern.head?_repeatWidths_one _ (Nat.le_refl _),
      List.takeWhile_append_of_pos run, stop, List.append_nil]
  have last : ((Pattern.within [.range 'a' 'z', .range 'A' 'Z']).widths
      ((numbers ++ 'm' :: s).drop numbers.length)).head? = some 1 := by
    rw [List.drop_left]
    rfl
  have bracket : ((Pattern.char '[').widths ('[' :: (numbers ++ 'm' :: s))).head? = some 1 := rfl
  have escape : ((Pattern.char '\x1b').widths ('\x1b' :: '[' :: (numbers ++ 'm' :: s))).head? = some 1 := rfl
  have whole := Pattern.head?_widths_seq escape
    (Pattern.head?_widths_seq bracket (Pattern.head?_widths_seq middle last))
  rw [Pattern.width?_eq_head?, List.cons_append, List.cons_append, List.append_assoc]
  refine whole.trans (congrArg some ?_)
  simp only [List.length_cons, List.length_append, List.length_nil]
  omega

theorem stripCodes_append (room : Nat) (s : List Char) : stripCodes (room + 1) (code ++ s) = stripCodes room s := by
  have taken := h.width?_eq s
  obtain ⟨numbers, rfl, -⟩ := h
  rw [List.cons_append] at taken ⊢
  rw [stripCodes, taken]
  exact congrArg (stripCodes room) List.drop_left

end IsColourCode

theorem stripCodes_cons {c : Char} (h : c ≠ '\x1b') (room : Nat) (s : List Char) :
    stripCodes (room + 1) (c :: s) = c :: stripCodes room s := by
  have none : colourCode.width? (c :: s) = none := Pattern.width?_seq_char_of_ne h s
  rw [stripCodes, none]

theorem stripCodes_append_of_not_mem {w : List Char} (h : '\x1b' ∉ w) (room : Nat) (s : List Char) :
    stripCodes (w.length + room) (w ++ s) = w ++ stripCodes room s := by
  induction w with
  | nil => rw [List.length_nil, Nat.zero_add, List.nil_append, List.nil_append]
  | cons c w ih =>
    rw [List.mem_cons, not_or] at h
    rw [List.length_cons, Nat.add_right_comm, List.cons_append, stripCodes_cons (Ne.symm h.1), ih h.2,
      List.cons_append]

/-- A text without newlines before another goes before its first line. -/
theorem splitOn_append_of_not_mem {w : List Char} (h : '\n' ∉ w) (s : List Char) :
    (w ++ s).splitOn '\n' = (s.splitOn '\n').modifyHead (w ++ ·) := by
  obtain ⟨line, lines, split⟩ := List.exists_cons_of_ne_nil (List.splitOn_ne_nil '\n' s)
  induction w with
  | nil => simp [split]
  | cons c w ih =>
    rw [List.mem_cons, not_or] at h
    rw [List.cons_append, List.splitOn_cons_eq_if_modifyHead, if_neg (by simpa using Ne.symm h.1), ih h.2, split]
    rfl

namespace Sheds
variable {s t s' t' : List Char}

theorem refl (h : '\x1b' ∉ s) : Sheds s s := by
  induction s with
  | nil => exact .nil
  | cons c s ih =>
    rw [List.mem_cons, not_or] at h
    exact .keep (Ne.symm h.1) (ih h.2)

theorem append (h : Sheds s t) (h' : Sheds s' t') : Sheds (s ++ s') (t ++ t') := by
  induction h with
  | nil => exact h'
  | keep hc _ ih => exact .keep hc ih
  | code hcode _ ih =>
    rw [List.append_assoc]
    exact .code hcode ih

theorem intercalate {sep : List Char} (hsep : '\x1b' ∉ sep) {ss ts : List (List Char)} (h : List.Forall₂ Sheds ss ts) :
    Sheds (sep.intercalate ss) (sep.intercalate ts) := by
  induction h with
  | nil => exact .nil
  | cons first rest ih =>
    cases rest with
    | nil => simpa using first
    | cons second rest =>
      rw [List.intercalate_cons_cons, List.intercalate_cons_cons]
      exact (first.append (.refl hsep)).append ih

/-- To take the codes out is to leave what the text sheds to. -/
theorem stripCodes_eq (h : Sheds s t) {room : Nat} (hroom : s.length ≤ room) : stripCodes room s = t := by
  induction h generalizing room with
  | nil => cases room <;> rfl
  | keep hc _ ih =>
    obtain ⟨room, rfl⟩ := Nat.exists_eq_add_one.mpr (Nat.lt_of_lt_of_le (Nat.succ_pos _) hroom)
    rw [stripCodes_cons hc, ih (Nat.le_of_succ_le_succ hroom)]
  | code hcode _ ih =>
    have pos := IsColourCode.length_pos hcode
    rw [List.length_append] at hroom
    obtain ⟨room, rfl⟩ := Nat.exists_eq_add_one.mpr (show 0 < room by omega)
    rw [hcode.stripCodes_append, ih (by omega)]

private theorem modifyHead {f g : List Char → List Char} (hfg : ∀ {s t}, Sheds s t → Sheds (f s) (g t))
    {ss ts : List (List Char)} (h : List.Forall₂ Sheds ss ts) :
    List.Forall₂ Sheds (ss.modifyHead f) (ts.modifyHead g) := by
  cases h with
  | nil => exact .nil
  | cons first rest => exact .cons (hfg first) rest

/-- No code goes over the end of a line. -/
theorem splitOn (h : Sheds s t) : List.Forall₂ Sheds (s.splitOn '\n') (t.splitOn '\n') := by
  induction h with
  | nil => exact .cons .nil .nil
  | keep hc _ ih =>
    rw [List.splitOn_cons_eq_if_modifyHead, List.splitOn_cons_eq_if_modifyHead]
    split
    · exact .cons .nil ih
    · exact modifyHead (.keep hc) ih
  | code hcode _ ih =>
    rw [splitOn_append_of_not_mem hcode.newline_not_mem]
    have lines := modifyHead (g := id) (.code hcode) ih
    rwa [List.modifyHead_id] at lines

end Sheds

/-- A text with no escape in it, of a colour code or anything else. -/
def Escapeless (text : String) : Prop := '\x1b' ∉ text.toList

instance (text : String) : Decidable (Escapeless text) := inferInstanceAs (Decidable (_ ∉ _))

namespace Escapeless

theorem append {a b : String} (ha : Escapeless a) (hb : Escapeless b) : Escapeless (a ++ b) := by
  rw [Escapeless, String.toList_append, List.mem_append, not_or]
  exact ⟨ha, hb⟩

theorem replicate {c : Char} (h : c ≠ '\x1b') (n : Nat) : Escapeless (String.ofList (List.replicate n c)) := by
  rw [Escapeless, String.toList_ofList]
  exact fun mem => h (List.eq_of_mem_replicate mem).symm

theorem toString_nat (n : Nat) : Escapeless (toString n) :=
  fun mem => by simpa using isDigit_of_mem_toString mem

theorem toString_int (n : Int) : Escapeless (toString n) := by
  cases n with
  | ofNat n => exact toString_nat n
  | negSucc n => exact append (a := "-") (by decide) (toString_nat (n + 1))

end Escapeless

/-- What a text in colours is without its codes. -/
def Decorates (coloured plain : String) : Prop := Sheds coloured.toList plain.toList

/-- The lines of a text. -/
def lines (text : String) : List String := (text.toList.splitOn '\n').map String.ofList

namespace Decorates
variable {a b a' b' : String}

theorem same (h : Escapeless a) : Decorates a a := Sheds.refl h

theorem append (h : Decorates a b) (h' : Decorates a' b') : Decorates (a ++ a') (b ++ b') := by
  rw [Decorates, String.toList_append, String.toList_append]
  exact Sheds.append h h'

theorem intercalate {sep : String} (hsep : Escapeless sep) {rows rows' : List String}
    (h : List.Forall₂ Decorates rows rows') : Decorates (sep.intercalate rows) (sep.intercalate rows') := by
  rw [Decorates, String.toList_intercalate, String.toList_intercalate]
  exact Sheds.intercalate hsep (List.forall₂_map_left_iff.mpr (List.forall₂_map_right_iff.mpr h))

theorem stripColours_eq (h : Decorates a b) : stripColours a = b := by
  rw [stripColours, Sheds.stripCodes_eq h (Nat.le_of_eq String.length_toList), String.ofList_toList]

theorem lines (h : Decorates a b) : List.Forall₂ Decorates (lines a) (lines b) := by
  refine List.forall₂_map_left_iff.mpr (List.forall₂_map_right_iff.mpr (Sheds.splitOn h |>.imp fun s t hst => ?_))
  rwa [Decorates, String.toList_ofList, String.toList_ofList]

end Decorates
end Text

open Text

theorem isColourCode_colour (s : Severity) : IsColourCode s.colour.toList := by
  cases s with
  | error => exact ⟨['1', ';', '3', '1'], rfl, by simp⟩
  | warning => exact ⟨['1', ';', '3', '3'], rfl, by simp⟩
  | note => exact ⟨['1', ';', '3', '6'], rfl, by simp⟩

theorem isColourCode_bold : IsColourCode bold.toList := ⟨['1'], rfl, by simp⟩

theorem isColourCode_blue : IsColourCode blue.toList := ⟨['1', ';', '3', '4'], rfl, by simp⟩

theorem isColourCode_resetColour : IsColourCode resetColour.toList := ⟨['0'], rfl, by simp⟩

theorem decorates_paint {colour text : String} (hc : IsColourCode colour.toList) (ht : Escapeless text) :
    Decorates (paint true colour text) (paint false colour text) := by
  change Sheds (colour ++ text ++ resetColour).toList text.toList
  rw [String.toList_append, String.toList_append, List.append_assoc]
  have reset : Sheds resetColour.toList [] := by
    simpa using Sheds.code isColourCode_resetColour .nil
  simpa using Sheds.code hc ((Sheds.refl ht).append reset)

theorem mem_of_mem_row {source : List Char} {offset : Int} {c : Char} (h : c ∈ (locate source offset).row) :
    c ∈ source := by
  rcases List.mem_append.mp h with left | right
  · have inTake := List.takeWhile_subset _ (List.mem_reverse.mp left)
    exact List.mem_of_mem_take (List.mem_reverse.mp inTake)
  · exact List.mem_of_mem_drop (List.takeWhile_subset _ right)

namespace Diagnostic

/-- The texts that a diagnostic is given. -/
def texts (d : Diagnostic) : List String := d.code :: d.message :: (d.labels.map (·.message) ++ d.notes)

variable {d : Diagnostic} {label : Label}

theorem decorates_header (hc : Escapeless d.code) (hm : Escapeless d.message) :
    Decorates (d.header true) (d.header false) := by
  have name : Escapeless d.severity.name := by cases d.severity <;> decide
  refine (decorates_paint (isColourCode_colour _) ?_).append (decorates_paint isColourCode_bold ?_)
  · exact ((name.append (by decide)).append hc).append (by decide)
  · exact Escapeless.append (by decide) hm

private theorem decorates_indented (text : String) (ht : Escapeless text) :
    Decorates ("  " ++ paint true blue text) ("  " ++ paint false blue text) :=
  (Decorates.same (by decide)).append (decorates_paint isColourCode_blue ht)

theorem decorates_position {line column : String} (hl : Escapeless line) (hc : Escapeless column) :
    List.Forall₂ Decorates
      ["  " ++ paint true blue "-->" ++ " input:" ++ line ++ ":" ++ column, "  " ++ paint true blue "   |"]
      ["  " ++ paint false blue "-->" ++ " input:" ++ line ++ ":" ++ column, "  " ++ paint false blue "   |"] := by
  refine .cons ?_ (.cons (decorates_indented "   |" (by decide)) .nil)
  have arrow := (decorates_indented "-->" (by decide)).append (.same (a := " input:") (by decide))
  exact ((arrow.append (.same hl)).append (.same (by decide))).append (.same hc)

theorem decorates_labelRows {source : Option (List Char)} (hs : ∀ s ∈ source, '\x1b' ∉ s)
    (hm : Escapeless label.message) :
    List.Forall₂ Decorates (d.labelRows true source label) (d.labelRows false source label) := by
  have mark {text : String} (ht : Escapeless text) := decorates_paint (isColourCode_colour d.severity) ht
  cases source with
  | none => exact decorates_position (by decide) (.toString_int _)
  | some s =>
    have bar : Decorates ("  " ++ paint true blue "   |") ("  " ++ paint false blue "   |") :=
      decorates_indented "   |" (by decide)
    have shown : Escapeless (String.ofList (locate s label.offset).row) := by
      rw [Escapeless, String.toList_ofList]
      exact fun mem => hs s rfl (mem_of_mem_row mem)
    have number : Escapeless (gutter (locate s label.offset).line) := not_mem_gutter (by decide) (by decide) _
    have place := decorates_position (.toString_nat (locate s label.offset).line)
      (.toString_nat (locate s label.offset).column)
    -- After the place come the row of the source and that of the carets, and then the message, if there is one.
    refine List.rel_append (List.rel_append place ?_) ?_
    · refine .cons ?_ (.cons ?_ .nil)
      · exact ((decorates_indented _ (number.append (by decide))).append (.same (by decide))).append (.same shown)
      · exact ((bar.append (.same (by decide))).append (.same (.replicate (by decide) _))).append
          (mark (.replicate (by decide) _))
    · split
      · exact .nil
      · exact .cons ((bar.append (.same (by decide))).append (mark hm)) .nil

theorem decorates_rows {source : Option (List Char)} (hs : ∀ s ∈ source, '\x1b' ∉ s)
    (hd : ∀ text ∈ d.texts, Escapeless text) :
    List.Forall₂ Decorates (d.rows true source) (d.rows false source) := by
  simp only [texts, List.forall_mem_cons, List.forall_mem_append, List.forall_mem_map] at hd
  obtain ⟨code, message, labels, notes⟩ := hd
  refine .cons (decorates_header code message) (List.rel_append ?_ ?_)
  · refine List.rel_flatMap (R := fun l m => l = m ∧ l ∈ d.labels) (List.forall₂_same.mpr fun l hl => ⟨rfl, hl⟩) ?_
    rintro l _ ⟨rfl, hl⟩
    exact decorates_labelRows hs (labels l hl)
  · refine List.forall₂_map_left_iff.mpr (List.forall₂_map_right_iff.mpr (List.forall₂_same.mpr fun note hn => ?_))
    exact ((decorates_indented "=" (by decide)).append (.same (by decide))).append (.same (notes note hn))

/-- Deleting all colour codes from a diagnostic that is shown in colours leaves the diagnostic as it is shown without
them, as a whole and line for line, unless the texts in it have escapes of their own. -/
theorem colours_shed {source : Option String} (plain : ∀ text ∈ d.texts ++ source.toList, Escapeless text) :
    Sheds (d.render true source).toList (d.render false source).toList ∧
      stripColours (d.render true source) = d.render false source ∧
      (lines (d.render true source)).map stripColours = lines (d.render false source) := by
  have hs : ∀ s ∈ source.map String.toList, '\x1b' ∉ s := by
    intro s hs
    obtain ⟨text, htext, rfl⟩ := Option.map_eq_some_iff.mp hs
    exact plain text (List.mem_append_right _ (Option.mem_toList.mpr htext))
  have rows := decorates_rows hs fun text htext => plain text (List.mem_append_left _ htext)
  have whole : Decorates (d.render true source) (d.render false source) := Decorates.intercalate (by decide) rows
  refine ⟨whole, whole.stripColours_eq, ?_⟩
  rw [← List.forall₂_eq_eq_eq]
  exact List.forall₂_map_left_iff.mpr (whole.lines.imp fun a b h => h.stripColours_eq)

theorem colours_shed_message :
    let d : Diagnostic := { code := "P002", message := "no rule", labels := [⟨6, 2, "here"⟩], notes := ["note"] }
    (∀ text ∈ d.texts ++ (some "a = 1\nx y").toList, Escapeless text) ∧
      d.render true (some "a = 1\nx y") =
        "\x1b[1;31merror[P002]\x1b[0m\x1b[1m: no rule\x1b[0m\n  \x1b[1;34m-->\x1b[0m input:2:1\n  \x1b[1;34m   |\x1b[0m\n" ++
        "  \x1b[1;34m   2 |\x1b[0m x y\n  \x1b[1;34m   |\x1b[0m \x1b[1;31m^^\x1b[0m\n" ++
        "  \x1b[1;34m   |\x1b[0m   \x1b[1;31mhere\x1b[0m\n  \x1b[1;34m=\x1b[0m note: note" ∧
      stripColours (d.render true (some "a = 1\nx y")) =
        "error[P002]: no rule\n  --> input:2:1\n     |\n     2 | x y\n     | ^^\n     |   here\n  = note: note" := by
  intro d
  have plain : ∀ text ∈ d.texts ++ (some "a = 1\nx y").toList, Escapeless text := by decide
  exact ⟨plain, by decide +kernel, (colours_shed plain).2.1.trans (by decide +kernel)⟩

end Diagnostic
end BindingPower
