import BindingPower.Proofs.C.Lexeme

/-! C comments. What stands between two tokens may be any mixture of white space and comments; all of it is
skipped. -/
namespace BindingPower.C
open ScanRule

/-- White space and comments in any order: comments up to the end of their row with the newline there, and
comments between marks, in which the mark that closes them does not occur. -/
inductive Filler : List Char → Prop
  | done : Filler []
  | blank {c : Char} {s : List Char} (hc : Text.isBlank c = true) (h : Filler s) : Filler (c :: s)
  | row {x s : List Char} (hx : '\n' ∉ x) (h : Filler s) : Filler ('/' :: '/' :: (x ++ '\n' :: s))
  | block {x s : List Char} (hx : ¬['*', '/'] <:+: x) (h : Filler s) :
    Filler ('/' :: '*' :: (x ++ '*' :: '/' :: s))

private def rowComment : Pattern := .seq (.literal ['/', '/']) (.many (.without [.range '\n' '\n']))

private def blockComment : Pattern :=
  .seq (.literal ['/', '*']) (.seq (.star false .any) (.literal ['*', '/']))

private theorem widths_comment (s : List Char) :
    comment.widths s = rowComment.widths s ++ blockComment.widths s := rfl

private theorem width?_row {x : List Char} (hx : '\n' ∉ x) (u : List Char) :
    comment.width? ('/' :: '/' :: (x ++ '\n' :: u)) = some (2 + x.length) := by
  have run : (x ++ '\n' :: u).takeWhile (CharSet.mem · ⟨[.range '\n' '\n'], true⟩) = x := by
    have inside (c : Char) (hc : c ∈ x) : CharSet.mem c ⟨[.range '\n' '\n'], true⟩ = true :=
      Pattern.mem_without.mpr fun same => hx (same ▸ hc)
    have stop : ('\n' :: u).takeWhile (CharSet.mem · ⟨[.range '\n' '\n'], true⟩) = [] := rfl
    rw [List.takeWhile_append_of_pos inside, stop, List.append_nil]
  have body := Pattern.head?_repeatWidths_one ⟨[.range '\n' '\n'], true⟩
    (Nat.le_refl (x ++ '\n' :: u).length)
  rw [run] at body
  have whole : (rowComment.widths ('/' :: '/' :: (x ++ '\n' :: u))).head? = some (2 + x.length) :=
    Pattern.head?_widths_seq rfl body
  rw [Pattern.width?_eq_head?, widths_comment, List.head?_append, whole]
  rfl

private theorem repeatWidths_any (b c : Char) (bound s : List Char) :
    Pattern.repeatWidths false Pattern.any.widths (b :: bound) (c :: s) =
      0 :: (Pattern.repeatWidths false Pattern.any.widths bound s).map (1 + ·) := by
  simp [Pattern.repeatWidths, Pattern.any, Pattern.widths, CharSet.mem, CharItem.mem]

/-- The closing mark is not at the beginning of a text in which it comes later for the first time. -/
private theorem widths_close_of_later {c : Char} {x : List Char} (hx : ¬['*', '/'] <:+: c :: x) (u : List Char) :
    (Pattern.literal ['*', '/']).widths (c :: (x ++ '*' :: '/' :: u)) = [] := by
  refine List.eq_nil_iff_forall_not_mem.mpr fun m hm => hx ?_
  have here := List.take_append_drop m (c :: (x ++ '*' :: '/' :: u))
  rw [Pattern.take_of_mem_widths_literal hm] at here
  obtain ⟨rfl, next⟩ := List.cons.inj here
  cases x with
  | nil => exact absurd (List.cons.inj next).1 (by decide)
  | cons d x =>
    obtain ⟨rfl, -⟩ := List.cons.inj next
    exact (List.prefix_append ['*', '/'] x).isInfix

/-- A lazy repetition stops at the first closing mark. -/
private theorem head?_closed {x : List Char} (hx : ¬['*', '/'] <:+: x) (u : List Char) {bound : List Char}
    (hb : x.length ≤ bound.length) :
    ((Pattern.repeatWidths false Pattern.any.widths bound (x ++ '*' :: '/' :: u)).flatMap fun n =>
      ((Pattern.literal ['*', '/']).widths ((x ++ '*' :: '/' :: u).drop n)).map (n + ·)).head? =
        some (x.length + 2) := by
  induction x generalizing bound with
  | nil => cases bound <;> rfl
  | cons c x ih =>
    obtain ⟨b, bound, rfl⟩ := List.exists_cons_of_length_pos (Nat.lt_of_lt_of_le (Nat.succ_pos _) hb)
    have later := ih (fun inner => hx (inner.trans (List.suffix_cons c x).isInfix)) (Nat.le_of_succ_le_succ hb)
    -- Nothing closes here, and what closes later does so one character further on.
    have further (n : Nat) : ((Pattern.literal ['*', '/']).widths
        ((c :: (x ++ '*' :: '/' :: u)).drop (1 + n))).map (1 + n + ·) =
        (((Pattern.literal ['*', '/']).widths ((x ++ '*' :: '/' :: u).drop n)).map (n + ·)).map (1 + ·) := by
      rw [Nat.add_comm 1 n, List.drop_succ_cons, List.map_map]
      congr 1
      funext k
      simp only [Function.comp_apply]
      omega
    rw [List.cons_append, repeatWidths_any, List.flatMap_cons, List.drop_zero, widths_close_of_later hx u,
      List.map_nil, List.nil_append, List.flatMap_map]
    simp only [further]
    rw [← List.map_flatMap, List.head?_map, later, List.length_cons, Option.map_some, Nat.add_comm 1,
      Nat.add_right_comm]

private theorem width?_block {x : List Char} (hx : ¬['*', '/'] <:+: x) (u : List Char) :
    comment.width? ('/' :: '*' :: (x ++ '*' :: '/' :: u)) = some (2 + (x.length + 2)) := by
  have row : rowComment.widths ('/' :: '*' :: (x ++ '*' :: '/' :: u)) = [] := rfl
  have whole : (blockComment.widths ('/' :: '*' :: (x ++ '*' :: '/' :: u))).head? = some (2 + (x.length + 2)) :=
    Pattern.head?_widths_seq rfl (head?_closed hx u (by simp))
  rw [Pattern.width?_eq_head?, widths_comment, row, List.nil_append, whole]

private theorem scanAt_comment {g u : List Char} (hg : g.head? = some '/')
    (h : comment.width? (g ++ u) = some g.length) (offset : Nat) :
    scanAt lexemes offset (g ++ u) = scanAt lexemes (offset + g.length) u := by
  obtain ⟨s, rfl⟩ := List.head?_eq_some_iff.mp hg
  have first : first? lexemes ('/' :: s ++ u) = some (⟨comment, .skip⟩, s.length + 1) := by
    rw [lexemes, List.cons_append, first?_visible (by decide), first?, List.findSome?_cons, ← List.cons_append, h]
    rfl
  rw [scanAt_of_first? first, ← List.length_cons, List.drop_left]
  rfl

theorem Filler.skipped {s : List Char} (h : Filler s) : Skipped lexemes s := by
  induction h with
  | done => exact .nil
  | blank hc _ ih => exact (skipped_blank hc).append ih
  | @row x s hx _ ih =>
    intro offset u
    have width := width?_row hx (s ++ u)
    have comment := scanAt_comment (g := '/' :: '/' :: x) (u := '\n' :: (s ++ u)) rfl
      (width.trans (by rw [Nat.add_comm]; rfl)) offset
    have blank : Skipped lexemes ['\n'] := skipped_blank (by decide)
    have newline := blank.append ih (offset + (x.length + 2)) u
    simpa [Nat.add_assoc, Nat.add_comm, Nat.add_left_comm] using comment.trans newline
  | @block x s hx _ ih =>
    intro offset u
    have width := width?_block hx (s ++ u)
    have comment := scanAt_comment (g := '/' :: '*' :: (x ++ ['*', '/'])) (u := s ++ u) rfl
      (by simpa [Nat.add_comm, Nat.add_left_comm] using width) offset
    simpa [Nat.add_assoc, Nat.add_comm, Nat.add_left_comm] using comment.trans (ih _ u)

end BindingPower.C
