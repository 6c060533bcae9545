import BindingPower.Pattern

/-! How what follows a text bears on the matches at its beginning. A match that fits into the text is
there whatever follows; and nothing is added by a text that no set of the pattern can go on with. -/
namespace BindingPower.Pattern

section Characters
variable {c : Char}

theorem isAlpha_eq (c : Char) : c.isAlpha = (c.isUpper || c.isLower) := rfl

theorem isAlphanum_eq (c : Char) : c.isAlphanum = (c.isAlpha || c.isDigit) := rfl

theorem isUpper_iff_toNat : c.isUpper = true ↔ 'A'.toNat ≤ c.toNat ∧ c.toNat ≤ 'Z'.toNat := by
  change decide (c.val ≥ 'A'.val ∧ c.val ≤ 'Z'.val) = true ↔ _
  rw [decide_eq_true_iff, ge_iff_le, UInt32.le_iff_toNat_le, UInt32.le_iff_toNat_le]
  rfl

theorem isLower_iff_toNat : c.isLower = true ↔ 'a'.toNat ≤ c.toNat ∧ c.toNat ≤ 'z'.toNat := by
  change (decide (c.val ≥ 'a'.val) && decide (c.val ≤ 'z'.val)) = true ↔ _
  rw [Bool.and_eq_true, decide_eq_true_iff, decide_eq_true_iff, ge_iff_le, UInt32.le_iff_toNat_le, UInt32.le_iff_toNat_le]
  rfl

theorem mem_range_iff {low high : Char} :
    CharItem.mem c (.range low high) = true ↔ low.toNat ≤ c.toNat ∧ c.toNat ≤ high.toNat := by
  rw [CharItem.mem, Bool.and_eq_true, decide_eq_true_iff, decide_eq_true_iff, Char.le_def, Char.le_def,
    UInt32.le_iff_toNat_le, UInt32.le_iff_toNat_le]
  rfl

theorem mem_eq_false_of_items {items : List CharItem} (h : ∀ item ∈ items, ¬item.mem c = true) :
    CharSet.mem c ⟨items, false⟩ = false := by
  rw [CharSet.mem, Bool.bne_false, List.any_eq_false]
  exact h

theorem mem_upper (c : Char) : CharItem.mem c (.range 'A' 'Z') = c.isUpper := by
  rw [Bool.eq_iff_iff, mem_range_iff, isUpper_iff_toNat]

theorem mem_lower (c : Char) : CharItem.mem c (.range 'a' 'z') = c.isLower := by
  rw [Bool.eq_iff_iff, mem_range_iff, isLower_iff_toNat]

theorem mem_digit (c : Char) : CharItem.mem c (.range '0' '9') = c.isDigit := by
  rw [Bool.eq_iff_iff, mem_range_iff, Char.isDigit_iff_toNat]

end Characters

theorem mem_range_self {c d : Char} : CharItem.mem d (.range c c) = true ↔ d = c := by
  have point : c ≤ d ∧ d ≤ c ↔ d = c :=
    ⟨fun ⟨h, h'⟩ => Char.le_antisymm h' h, fun h => h ▸ ⟨Char.le_refl _, Char.le_refl _⟩⟩
  simpa [CharItem.mem] using point

theorem mem_char {c d : Char} : CharSet.mem d ⟨[.range c c], false⟩ = true ↔ d = c := by
  simp [CharSet.mem, mem_range_self]

theorem mem_without {c d : Char} : CharSet.mem d ⟨[.range c c], true⟩ = true ↔ d ≠ c := by
  rw [ne_eq, ← mem_range_self]
  simp [CharSet.mem]

theorem widths_char_self (c : Char) (s : List Char) : (char c).widths (c :: s) = [1] :=
  if_pos (mem_char.mpr rfl)

theorem widths_char_of_ne {c d : Char} (h : d ≠ c) (s : List Char) : (char c).widths (d :: s) = [] :=
  if_neg fun mem => h (mem_char.mp mem)

theorem eq_of_widths_char {c : Char} {s : List Char} (h : (char c).widths s ≠ []) : ∃ rest, s = c :: rest := by
  cases s with
  | nil => exact absurd rfl h
  | cons d rest =>
    by_cases same : d = c
    · exact ⟨rest, same ▸ rfl⟩
    · exact absurd (widths_char_of_ne same rest) h

theorem widths_seq_char_of_ne {c d : Char} {p : Pattern} (h : d ≠ c) (s : List Char) :
    (seq (char c) p).widths (d :: s) = [] := by
  rw [widths, widths_char_of_ne h, List.flatMap_nil]

theorem width?_seq_char_of_ne {c d : Char} {p : Pattern} (h : d ≠ c) (s : List Char) :
    (seq (char c) p).width? (d :: s) = none := by
  rw [width?_eq_head?, widths_seq_char_of_ne h, List.head?_nil]

theorem width?_one_cons (set : CharSet) (c : Char) (s : List Char) :
    (one set).width? (c :: s) = if set.mem c then some 1 else none := by
  simp [width?, attempt]

/-- Whether every match of a pattern begins with a character of a set that passes a test. -/
def opens (test : CharSet → Bool) : Pattern → Bool
  | one set => test set
  | seq p _ => p.opens test
  | alt p q => p.opens test && q.opens test
  | _ => false

theorem widths_eq_nil_of_opens {test : CharSet → Bool} {c : Char}
    (h : ∀ set, test set = true → set.mem c = false) {p : Pattern} (hp : p.opens test = true) (s : List Char) :
    p.widths (c :: s) = [] := by
  induction p with
  | one set => simp [widths, h set hp]
  | seq p q ih => rw [widths, ih hp, List.flatMap_nil]
  | alt p q ih ihq =>
    obtain ⟨left, right⟩ := Bool.and_eq_true_iff.mp hp
    rw [widths, ih left, ihq right, List.nil_append]
  | empty => cases hp
  | star => cases hp

/-- A greedy repetition of a set takes the longest run of its characters. -/
theorem head?_repeatWidths_one (set : CharSet) {bound s : List Char} (hb : s.length ≤ bound.length) :
    (repeatWidths true (one set).widths bound s).head? = some (s.takeWhile (set.mem ·)).length := by
  induction s generalizing bound with
  | nil => cases bound <;> rfl
  | cons c s ih =>
    obtain ⟨b, bound, rfl⟩ := List.exists_cons_of_length_pos (Nat.lt_of_lt_of_le (Nat.succ_pos _) hb)
    by_cases mem : set.mem c = true
    · have rest := ih (Nat.le_of_succ_le_succ hb)
      simp [repeatWidths, widths, mem, rest, Nat.add_comm]
    · simp [repeatWidths, widths, mem]

/-- A text up to the first character that fails a test, and from there on. -/
theorem exists_run (test : Char → Bool) (s : List Char) : ∃ run rest, s = run ++ rest ∧
    s.takeWhile test = run ∧ (∀ c ∈ run, test c = true) ∧ ∀ c ∈ rest.head?, test c = false := by
  refine ⟨s.takeWhile test, s.dropWhile test, List.takeWhile_append_dropWhile.symm, rfl,
    List.all_eq_true.mp List.all_takeWhile, fun c hc => ?_⟩
  have stop := List.head?_dropWhile_not test s
  rw [hc] at stop
  exact stop

theorem width?_many1_one_cons {set : CharSet} {c : Char} (h : set.mem c = true) (s : List Char) :
    (many1 (one set)).width? (c :: s) = some ((s.takeWhile (set.mem ·)).length + 1) := by
  have rest := head?_repeatWidths_one set (Nat.le_refl s.length)
  simp [width?_eq_head?, many1, widths, h, rest, Nat.add_comm]

theorem width?_many1_one_of_not_mem {set : CharSet} {c : Char} (h : set.mem c = false)
    (s : List Char) : (many1 (one set)).width? (c :: s) = none := by
  simp [width?_eq_head?, many1, widths, h]

/-- Where a run of a set does not begin, none begins in a longer text either. -/
theorem width?_many1_one_append_eq_none {set : CharSet} {w : List Char} (hne : w ≠ [])
    (h : (many1 (one set)).width? w = none) (u : List Char) : (many1 (one set)).width? (w ++ u) = none := by
  obtain ⟨c, s, rfl⟩ := List.exists_cons_of_ne_nil hne
  by_cases mem : set.mem c = true
  · cases h.symm.trans (width?_many1_one_cons mem s)
  · exact width?_many1_one_of_not_mem (Bool.eq_false_iff.mpr mem) _

/-- One character or more of a set, up to where something else comes. -/
theorem width?_many1_one_run {set : CharSet} {run u : List Char} (hr : ∀ c ∈ run, set.mem c = true)
    (hne : run ≠ []) (hu : ∀ c ∈ u.head?, set.mem c = false) :
    (many1 (one set)).width? (run ++ u) = some run.length := by
  have stop : u.takeWhile (set.mem ·) = [] := by
    cases u with
    | nil => rfl
    | cons c u => simp [hu c rfl]
  obtain ⟨c, run, rfl⟩ := List.exists_cons_of_ne_nil hne
  obtain ⟨first, later⟩ := List.forall_mem_cons.mp hr
  rw [List.cons_append, width?_many1_one_cons first, List.takeWhile_append_of_pos later, stop,
    List.append_nil]
  rfl

section Members
variable {greedy : Bool} {step : List Char → List Nat}

theorem mem_repeatWidths_cons {c : Char} {bound s : List Char} {n : Nat} :
    n ∈ repeatWidths greedy step (c :: bound) s ↔
      n = 0 ∨ ∃ k ∈ step s, k ≠ 0 ∧ ∃ m ∈ repeatWidths greedy step bound (s.drop k), k + m = n := by
  have more : n ∈ ((step s).flatMap fun k =>
      if k = 0 then [0] else (repeatWidths greedy step bound (s.drop k)).map (k + ·)) ∨ n = 0 ↔
      n = 0 ∨ ∃ k ∈ step s, k ≠ 0 ∧ ∃ m ∈ repeatWidths greedy step bound (s.drop k), k + m = n := by
    constructor
    · rintro (h | h)
      · obtain ⟨k, hk, h⟩ := List.mem_flatMap.mp h
        split at h
        · exact .inl (List.mem_singleton.mp h)
        · exact .inr ⟨k, hk, ‹_›, List.mem_map.mp h⟩
      · exact .inl h
    · rintro (h | ⟨k, hk, hne, h⟩)
      · exact .inr h
      · refine .inl (List.mem_flatMap.mpr ⟨k, hk, ?_⟩)
        rw [if_neg hne]
        exact List.mem_map.mpr h
  rw [← more]
  cases greedy <;> simp [repeatWidths, or_comm]

theorem zero_mem_repeatWidths (bound s : List Char) : 0 ∈ repeatWidths greedy step bound s := by
  cases bound with
  | nil => simp [repeatWidths]
  | cons c bound => exact mem_repeatWidths_cons.mpr (.inl rfl)

theorem le_of_mem_repeatWidths (h : ∀ s, ∀ k ∈ step s, k ≤ s.length) {bound s : List Char} {n : Nat}
    (hn : n ∈ repeatWidths greedy step bound s) : n ≤ s.length := by
  induction bound generalizing s n with
  | nil =>
    obtain rfl : n = 0 := by simpa [repeatWidths] using hn
    exact Nat.zero_le _
  | cons c bound ih =>
    rcases mem_repeatWidths_cons.mp hn with rfl | ⟨k, hk, -, m, hm, rfl⟩
    · exact Nat.zero_le _
    · have fits := h s k hk
      have rest := ih hm
      rw [List.length_drop] at rest
      omega

end Members

theorem mem_widths_one {set : CharSet} {s : List Char} {n : Nat} (h : n ∈ (one set).widths s) :
    ∃ c rest, s = c :: rest ∧ set.mem c = true ∧ n = 1 := by
  cases s with
  | nil => simp [widths] at h
  | cons c rest =>
    simp only [widths] at h
    split at h
    · exact ⟨c, rest, rfl, ‹_›, List.mem_singleton.mp h⟩
    · simp at h

/-- A match takes no more than there is. -/
theorem le_of_mem_widths {p : Pattern} {s : List Char} {n : Nat} (h : n ∈ p.widths s) :
    n ≤ s.length := by
  induction p generalizing s n with
  | empty =>
    obtain rfl : n = 0 := by simpa [widths] using h
    exact Nat.zero_le _
  | one set =>
    obtain ⟨c, rest, rfl, -, rfl⟩ := mem_widths_one h
    exact Nat.succ_le_succ (Nat.zero_le _)
  | seq p q hp hq =>
    obtain ⟨k, hk, h⟩ := List.mem_flatMap.mp h
    obtain ⟨m, hm, rfl⟩ := List.mem_map.mp h
    have fits := hp hk
    have rest := hq hm
    rw [List.length_drop] at rest
    omega
  | alt p q hp hq =>
    rcases List.mem_append.mp h with h | h
    · exact hp h
    · exact hq h
  | star greedy p hp => exact le_of_mem_repeatWidths (fun s k hk => hp hk) h

/-- What matches one of several patterns matches some pattern of them. -/
theorem exists_of_mem_widths_oneOf {ps : List Pattern} {s : List Char} {n : Nat}
    (h : n ∈ (oneOf ps).widths s) : ∃ p ∈ ps, n ∈ p.widths s := by
  induction ps with
  | nil =>
    obtain ⟨c, rest, -, hc, -⟩ := mem_widths_one h
    cases hc
  | cons p ps ih =>
    cases ps with
    | nil => exact ⟨p, List.mem_cons_self, h⟩
    | cons q ps =>
      rcases List.mem_append.mp h with h | h
      · exact ⟨p, List.mem_cons_self, h⟩
      · obtain ⟨r, hr, h⟩ := ih h
        exact ⟨r, List.mem_cons_of_mem p hr, h⟩

private theorem take_of_mem_widths_char {c : Char} {s : List Char} {n : Nat}
    (h : n ∈ (char c).widths s) : s.take n = [c] := by
  obtain ⟨d, rest, rfl, hd, rfl⟩ := mem_widths_one h
  obtain rfl : d = c := by simpa [CharSet.mem, mem_range_self] using hd
  rfl

/-- A literal matches the text it is. -/
theorem take_of_mem_widths_literal {text s : List Char} {n : Nat}
    (h : n ∈ (literal text).widths s) : s.take n = text := by
  induction text generalizing s n with
  | nil =>
    obtain rfl : n = 0 := by simpa [literal, all, widths] using h
    rfl
  | cons c text ih =>
    cases text with
    | nil => exact take_of_mem_widths_char h
    | cons d text =>
      obtain ⟨k, hk, h⟩ := List.mem_flatMap.mp h
      obtain ⟨m, hm, rfl⟩ := List.mem_map.mp h
      rw [List.take_add, take_of_mem_widths_char hk, ih hm]
      rfl

/-- A match is there whatever follows the text it is in. -/
theorem mem_widths_append {p : Pattern} {s : List Char} {n : Nat} (h : n ∈ p.widths s)
    (u : List Char) : n ∈ p.widths (s ++ u) := by
  induction p generalizing s n with
  | empty => exact h
  | one set =>
    cases s with
    | nil => simp [widths] at h
    | cons c s => exact h
  | seq p q hp hq =>
    obtain ⟨k, hk, h⟩ := List.mem_flatMap.mp h
    obtain ⟨m, hm, rfl⟩ := List.mem_map.mp h
    refine List.mem_flatMap.mpr ⟨k, hp hk, List.mem_map.mpr ⟨m, ?_, rfl⟩⟩
    rw [List.drop_append_of_le_length (le_of_mem_widths hk)]
    exact hq hm
  | alt p q hp hq =>
    rcases List.mem_append.mp h with h | h
    · exact List.mem_append_left _ (hp h)
    · exact List.mem_append_right _ (hq h)
  | star greedy p hp =>
    have grow (bound : List Char) (s : List Char) (n : Nat)
        (h : n ∈ repeatWidths greedy p.widths bound s) :
        n ∈ repeatWidths greedy p.widths (bound ++ u) (s ++ u) := by
      induction bound generalizing s n with
      | nil =>
        obtain rfl : n = 0 := by simpa [repeatWidths] using h
        exact zero_mem_repeatWidths _ _
      | cons c bound ih =>
        rw [List.cons_append]
        rcases mem_repeatWidths_cons.mp h with rfl | ⟨k, hk, hne, m, hm, rfl⟩
        · exact zero_mem_repeatWidths _ _
        · refine mem_repeatWidths_cons.mpr (.inr ⟨k, hp hk, hne, m, ?_, rfl⟩)
          rw [List.drop_append_of_le_length (le_of_mem_widths hk)]
          exact ih _ _ hm
    exact grow s s n h

section Fitting
variable {β : Type} {f : Nat → Option β}

private theorem findSome?_eq_none_of_beyond {l : List Nat} {k n : Nat} (beyond : ∀ m, k < m → f m = none)
    (hn : k < n) : l.findSome? (f ∘ (n + ·)) = none :=
  List.findSome?_eq_none_iff.mpr fun m _ => beyond (n + m) (by omega)

section Repeats
variable {greedy : Bool} {step : List Char → List Nat}

private theorem findSome?_repeatWidths_of_zero (beyond : ∀ n, 0 < n → f n = none)
    (bound s : List Char) : (repeatWidths greedy step bound s).findSome? f = f 0 := by
  have only (n : Nat) (b : β) (hn : f n = some b) : f 0 = some b := by
    cases n with
    | zero => exact hn
    | succ n =>
      rw [beyond _ n.succ_pos] at hn
      cases hn
  cases found : (repeatWidths greedy step bound s).findSome? f with
  | none => exact (List.findSome?_eq_none_iff.mp found 0 (zero_mem_repeatWidths bound s)).symm
  | some b =>
    obtain ⟨n, -, hn⟩ := List.exists_of_findSome?_eq_some found
    exact (only n b hn).symm

/-- What comes of a round that takes `n` characters. -/
private def afterRound (greedy : Bool) (step : List Char → List Nat) (f : Nat → Option β)
    (bound s : List Char) (n : Nat) : Option β :=
  if n = 0 then f 0 else (repeatWidths greedy step bound (s.drop n)).findSome? (f ∘ (n + ·))

private theorem findSome?_repeatWidths_cons (c : Char) (bound s : List Char) :
    (repeatWidths greedy step (c :: bound) s).findSome? f =
      if greedy then ((step s).findSome? (afterRound greedy step f bound s)).or (f 0)
      else (f 0).or ((step s).findSome? (afterRound greedy step f bound s)) := by
  have more : ((step s).flatMap fun n =>
      if n = 0 then [0] else (repeatWidths greedy step bound (s.drop n)).map (n + ·)).findSome? f =
      (step s).findSome? (afterRound greedy step f bound s) := by
    rw [findSome?_flatMap]
    congr 1
    funext n
    by_cases hn : n = 0
    · simp [afterRound, hn]
    · simp [afterRound, hn, List.findSome?_map]
  cases greedy with
  | false =>
    simp only [repeatWidths, Bool.false_eq_true, if_false, List.findSome?_cons, more]
    cases f 0 <;> rfl
  | true => simp [repeatWidths, List.findSome?_append, more]

/-- Repetitions of a step that finds in a part of a text what fits of what it finds in the text. -/
private theorem findSome?_repeatWidths_append {u : List Char}
    (h : ∀ (w : List Char) (f : Nat → Option β), (∀ n, w.length < n → f n = none) →
      (step (w ++ u)).findSome? f = (step w).findSome? f)
    {bound bound' w : List Char} (hb : w.length ≤ bound.length) (hb' : w.length ≤ bound'.length)
    (beyond : ∀ n, w.length < n → f n = none) :
    (repeatWidths greedy step bound' (w ++ u)).findSome? f =
      (repeatWidths greedy step bound w).findSome? f := by
  induction bound generalizing bound' w f with
  | nil =>
    obtain rfl : w = [] := List.eq_nil_of_length_eq_zero (Nat.le_zero.mp hb)
    rw [findSome?_repeatWidths_of_zero beyond, findSome?_repeatWidths_of_zero beyond]
  | cons b bound ih =>
    cases w with
    | nil => rw [findSome?_repeatWidths_of_zero beyond, findSome?_repeatWidths_of_zero beyond]
    | cons c w =>
      obtain ⟨b', bound', rfl⟩ :=
        List.exists_cons_of_length_pos (Nat.lt_of_lt_of_le (Nat.succ_pos _) hb')
      have same : afterRound greedy step f bound' (c :: w ++ u) = afterRound greedy step f bound (c :: w) := by
        funext n
        rw [afterRound, afterRound]
        split
        · rfl
        · rcases Nat.lt_or_ge (c :: w).length n with outside | inside
          · rw [findSome?_eq_none_of_beyond beyond outside, findSome?_eq_none_of_beyond beyond outside]
          · rw [List.drop_append_of_le_length inside]
            have shorter : ((c :: w).drop n).length = w.length + 1 - n := List.length_drop
            simp only [List.length_cons] at hb hb' beyond inside
            exact ih (by omega) (by omega) fun m hm => beyond (n + m) (by omega)
      have last (n : Nat) (hn : (c :: w).length < n) : afterRound greedy step f bound (c :: w) n = none := by
        rw [afterRound, if_neg (by omega), findSome?_eq_none_of_beyond beyond hn]
      rw [findSome?_repeatWidths_cons, findSome?_repeatWidths_cons, same, h (c :: w) _ last]

end Repeats

/-- Of the ways to match the beginning of a text, those that fit into a part of it are the ways to match that
part, as far as what is accepted of them can tell. -/
theorem findSome?_widths_append (p : Pattern) {w : List Char} (u : List Char)
    (beyond : ∀ n, w.length < n → f n = none) :
    (p.widths (w ++ u)).findSome? f = (p.widths w).findSome? f := by
  induction p generalizing w f with
  | empty => rfl
  | one set =>
    cases w with
    | nil =>
      cases u with
      | nil => rfl
      | cons c u => by_cases mem : set.mem c = true <;> simp [widths, mem, beyond 1]
    | cons c w => rfl
  | seq p q hp hq =>
    have onward (n : Nat) : (q.widths ((w ++ u).drop n)).findSome? (f ∘ (n + ·)) =
        (q.widths (w.drop n)).findSome? (f ∘ (n + ·)) := by
      rcases Nat.lt_or_ge w.length n with outside | inside
      · rw [findSome?_eq_none_of_beyond beyond outside, findSome?_eq_none_of_beyond beyond outside]
      · rw [List.drop_append_of_le_length inside]
        refine hq fun m hm => beyond (n + m) ?_
        rw [List.length_drop] at hm
        omega
    simp only [widths, findSome?_flatMap, List.findSome?_map, onward]
    exact hp fun n hn => findSome?_eq_none_of_beyond beyond hn
  | alt p q hp hq =>
    rw [widths, widths, List.findSome?_append, List.findSome?_append, hp beyond, hq beyond]
  | star greedy p hp =>
    exact findSome?_repeatWidths_append (fun w f => hp) (Nat.le_refl _) (by simp) beyond

end Fitting

/-- What a pattern takes of a text it takes as well where the text ends there. -/
theorem width?_take {p : Pattern} {s : List Char} {n : Nat} (h : p.width? s = some n) :
    p.width? (s.take n) = some n := by
  rw [width?_eq_head?] at h ⊢
  have fits := le_of_mem_widths (List.mem_of_mem_head? h)
  have long : (s.take n).length = n := List.length_take_of_le fits
  -- Accepting only what fits, the match of the whole text is found, and in the part the first match is.
  have same := findSome?_widths_append p (s.drop n) (w := s.take n)
    (f := fun m => if m ≤ n then some m else none) fun m hm => if_neg (by omega)
  rw [List.take_append_drop] at same
  obtain ⟨ms, hms⟩ := List.head?_eq_some_iff.mp h
  rw [hms, List.findSome?_cons, if_pos (Nat.le_refl n)] at same
  cases hw : p.widths (s.take n) with
  | nil =>
    rw [hw] at same
    cases same
  | cons m rest =>
    have inside : m ≤ n := long ▸ le_of_mem_widths (hw ▸ List.mem_cons_self)
    rw [hw, List.findSome?_cons, if_pos inside] at same
    exact same.symm

/-- A pattern that matches no beginning of a text matches none of a part of it. -/
theorem width?_take_eq_none {p : Pattern} {s : List Char} (h : p.width? s = none) (n : Nat) :
    p.width? (s.take n) = none := by
  rw [width?_eq_head?, List.head?_eq_none_iff] at h ⊢
  refine List.eq_nil_iff_forall_not_mem.mpr fun m hm => ?_
  have still := mem_widths_append hm (s.drop n)
  rw [List.take_append_drop, h] at still
  cases still

theorem head?_widths_seq {p q : Pattern} {s : List Char} {n m : Nat} (hp : (p.widths s).head? = some n)
    (hq : (q.widths (s.drop n)).head? = some m) : ((seq p q).widths s).head? = some (n + m) := by
  obtain ⟨ns, hns⟩ := List.head?_eq_some_iff.mp hp
  obtain ⟨ms, hms⟩ := List.head?_eq_some_iff.mp hq
  simp [widths, hns, hms]

/-- The ways of one of several patterns are those of the first, then those of the next, and so on. -/
theorem widths_oneOf (ps : List Pattern) (s : List Char) :
    (oneOf ps).widths s = ps.flatMap (·.widths s) := by
  induction ps with
  | nil => cases s <;> rfl
  | cons p ps ih =>
    cases ps with
    | nil => simp [oneOf]
    | cons q ps =>
      rw [List.flatMap_cons, ← ih]
      rfl

theorem widths_literal {text s : List Char} (h : text <+: s) : (literal text).widths s = [text.length] := by
  induction text generalizing s with
  | nil => rfl
  | cons c text ih =>
    obtain ⟨rest, rfl⟩ := h
    have here : (char c).widths (c :: text ++ rest) = [1] := by
      simp [char, widths, CharSet.mem, mem_range_self]
    cases text with
    | nil => exact here
    | cons d text =>
      have later := ih (List.prefix_append (d :: text) rest)
      change (seq (char c) (literal (d :: text))).widths _ = _
      rw [widths, here, List.flatMap_singleton, List.cons_append, List.drop_one, List.tail_cons, later,
        List.map_singleton, Nat.add_comm]
      rfl

/-- Of literals in the order of their lengths, the longest first, the longest that fits is taken. -/
theorem length_le_of_width?_oneOf_literal {texts : List (List Char)}
    (sorted : texts.Pairwise fun a b => b.length ≤ a.length) {s text : List Char} {n : Nat}
    (h : (oneOf (texts.map literal)).width? s = some n) (member : text ∈ texts) (fits : text <+: s) :
    text.length ≤ n := by
  rw [width?_eq_head?, widths_oneOf] at h
  induction texts with
  | nil => cases member
  | cons a texts ih =>
    obtain ⟨longest, sorted⟩ := List.pairwise_cons.mp sorted
    rw [List.map_cons, List.flatMap_cons] at h
    by_cases ha : a <+: s
    · rw [widths_literal ha] at h
      obtain rfl : a.length = n := Option.some.inj h
      rcases List.mem_cons.mp member with rfl | member
      · exact Nat.le_refl _
      · exact longest _ member
    · have none : (literal a).widths s = [] := by
        refine List.eq_nil_iff_forall_not_mem.mpr fun m hm => ha ?_
        rw [← take_of_mem_widths_literal hm]
        exact List.take_prefix m s
      rw [none, List.nil_append] at h
      rcases List.mem_cons.mp member with rfl | member
      · exact absurd fits ha
      · exact ih sorted h member

/-- Whether every set of a pattern passes a test; sets may be repeated, but nothing larger. -/
def avoids (clear : CharSet → Bool) : Pattern → Bool
  | empty => true
  | one set => clear set
  | seq p q => p.avoids clear && q.avoids clear
  | alt p q => p.avoids clear && q.avoids clear
  | star _ (one set) => clear set
  | star _ _ => false

/-- The same but for sets that a text begins with. -/
def firm (clear : CharSet → Bool) : Pattern → Bool
  | one _ => true
  | alt p q => p.firm clear && q.firm clear
  | p => p.avoids clear

section Boundary
variable {clear : CharSet → Bool} {u : List Char}
  (hu : ∀ set, clear set = true → ∀ c ∈ u.head?, set.mem c = false)

theorem widths_one_of_head {set : CharSet} (h : ∀ c ∈ u.head?, set.mem c = false) :
    (one set).widths u = [] := by
  cases u with
  | nil => rfl
  | cons c u => simp [widths, h c rfl]

theorem repeatWidths_one_append {greedy : Bool} {set : CharSet}
    (h : ∀ c ∈ u.head?, set.mem c = false) {bound bound' s : List Char} (hb : s.length ≤ bound.length)
    (hb' : s.length ≤ bound'.length) :
    repeatWidths greedy (one set).widths bound' (s ++ u) =
      repeatWidths greedy (one set).widths bound s := by
  induction s generalizing bound bound' with
  | nil =>
    have alone (bound : List Char) : repeatWidths greedy (one set).widths bound [] = [0] := by
      cases bound <;> cases greedy <;> rfl
    have stopped (bound : List Char) : repeatWidths greedy (one set).widths bound u = [0] := by
      cases bound with
      | nil => rfl
      | cons c bound => cases greedy <;> simp [repeatWidths, widths_one_of_head h]
    rw [alone, List.nil_append, stopped]
  | cons c s ih =>
    obtain ⟨b, bound, rfl⟩ := List.exists_cons_of_length_pos (Nat.lt_of_lt_of_le (Nat.succ_pos _) hb)
    obtain ⟨b', bound', rfl⟩ := List.exists_cons_of_length_pos (Nat.lt_of_lt_of_le (Nat.succ_pos _) hb')
    have rest := ih (Nat.le_of_succ_le_succ hb) (Nat.le_of_succ_le_succ hb')
    by_cases mem : set.mem c = true
    · cases greedy <;> simp [repeatWidths, widths, mem, rest]
    · cases greedy <;> simp [repeatWidths, widths, mem]

include hu

/-- A text that no set of the pattern can go on with changes nothing. -/
theorem widths_append_of_avoids {p : Pattern} (h : p.avoids clear = true) (s : List Char) :
    p.widths (s ++ u) = p.widths s := by
  induction p generalizing s with
  | empty => rfl
  | one set =>
    cases s with
    | nil => exact widths_one_of_head (hu set h)
    | cons c s => rfl
  | seq p q hp hq =>
    simp only [avoids, Bool.and_eq_true] at h
    simp only [widths, hp h.1, List.flatMap_def]
    congr 1
    apply List.map_congr_left
    intro n hn
    rw [List.drop_append_of_le_length (le_of_mem_widths hn), hq h.2]
  | alt p q hp hq =>
    simp only [avoids, Bool.and_eq_true] at h
    simp only [widths, hp h.1, hq h.2]
  | star greedy p hp =>
    cases p with
    | one set =>
      exact repeatWidths_one_append (hu set h) (Nat.le_refl _) (by simp)
    | _ => cases h

theorem widths_append_of_firm {p : Pattern} (h : p.firm clear = true) {s : List Char} (hs : s ≠ []) :
    p.widths (s ++ u) = p.widths s := by
  induction p with
  | one set =>
    cases s with
    | nil => exact absurd rfl hs
    | cons c s => rfl
  | alt p q hp hq =>
    simp only [firm, Bool.and_eq_true] at h
    simp only [widths, hp h.1, hq h.2]
  | _ => exact widths_append_of_avoids hu h s

theorem width?_append_of_avoids {p : Pattern} (h : p.avoids clear = true) (s : List Char) :
    p.width? (s ++ u) = p.width? s := by
  rw [width?_eq_head?, width?_eq_head?, widths_append_of_avoids hu h]

theorem width?_append_of_firm {p : Pattern} (h : p.firm clear = true) {s : List Char} (hs : s ≠ []) :
    p.width? (s ++ u) = p.width? s := by
  rw [width?_eq_head?, width?_eq_head?, widths_append_of_firm hu h hs]

end Boundary

/-- A pattern that matches the beginning of a text in one way at most. -/
def Unique (p : Pattern) : Prop := ∀ s, (p.widths s).length ≤ 1

namespace Unique
variable {p q : Pattern}

theorem one (set : CharSet) : Unique (Pattern.one set) := by
  intro s
  cases s with
  | nil => exact Nat.zero_le _
  | cons c s =>
    rw [widths]
    split
    · exact Nat.le_refl _
    · exact Nat.zero_le _

theorem seq (hp : Unique p) (hq : Unique q) : Unique (Pattern.seq p q) := by
  intro s
  have first := hp s
  rw [widths]
  rcases hs : p.widths s with _ | ⟨n, _ | ⟨m, rest⟩⟩ <;> rw [hs] at first
  · exact Nat.zero_le _
  · simpa using hq (s.drop n)
  · simp at first

/-- Of two ways that exclude each other there is one at most. -/
theorem alt (hp : Unique p) (hq : Unique q) (h : ∀ s, p.widths s ≠ [] → q.widths s = []) :
    Unique (Pattern.alt p q) := by
  intro s
  rw [widths]
  by_cases hs : p.widths s = []
  · simpa [hs] using hq s
  · simpa [h s hs] using hp s

/-- Repetitions before something that excludes one more of them. -/
theorem star_seq (hp : Unique p) (hq : Unique q) (h : ∀ s, q.widths s ≠ [] → p.widths s = []) :
    Unique (Pattern.seq (star true p) q) := by
  have from_bound (bound s : List Char) : ((repeatWidths true p.widths bound s).flatMap fun n =>
      (q.widths (s.drop n)).map (n + ·)).length ≤ 1 := by
    induction bound generalizing s with
    | nil => simpa [repeatWidths] using hq s
    | cons c bound ih =>
      by_cases last : q.widths s = []
      · have once := hp s
        rcases hs : p.widths s with _ | ⟨n, _ | ⟨m, rest⟩⟩
        · simp [repeatWidths, hs, last]
        · by_cases hn : n = 0
          · simp [repeatWidths, hs, last, hn]
          · have rest := ih (s.drop n)
            simpa [repeatWidths, hs, last, hn, List.flatMap_map, List.drop_drop, List.length_flatMap]
              using rest
        · rw [hs] at once
          simp at once
      · simpa [repeatWidths, h s last] using hq s
  exact fun s => from_bound s s

/-- A repetition of a step that matches in one way at most goes on for as long as it can. -/
theorem head?_repeatWidths (hp : Unique p) {bound s : List Char} {n : Nat}
    (hn : n ∈ repeatWidths true p.widths bound s) (stop : p.widths (s.drop n) = []) :
    (repeatWidths true p.widths bound s).head? = some n := by
  induction bound generalizing s n with
  | nil =>
    obtain rfl : n = 0 := by simpa [repeatWidths] using hn
    rfl
  | cons c bound ih =>
    rcases mem_repeatWidths_cons.mp hn with rfl | ⟨k, hk, hne, m, hm, rfl⟩
    · simp [repeatWidths, show p.widths s = [] from stop]
    · have only : p.widths s = [k] := by
        have one := hp s
        rcases hw : p.widths s with _ | ⟨j, _ | ⟨i, rest⟩⟩ <;> rw [hw] at hk one
        · cases hk
        · rw [List.mem_singleton.mp hk]
        · simp at one
      rw [← List.drop_drop] at stop
      simp [repeatWidths, only, hne, ih hm stop]

end Unique

/-- The only match stays when the text goes on. -/
theorem Unique.width?_append {p : Pattern} (h : Unique p) {s : List Char} {n : Nat}
    (hn : p.width? s = some n) (u : List Char) : p.width? (s ++ u) = some n := by
  rw [width?_eq_head?] at hn ⊢
  have still := mem_widths_append (List.mem_of_mem_head? hn) u
  have one := h (s ++ u)
  rcases hw : p.widths (s ++ u) with _ | ⟨m, _ | ⟨k, rest⟩⟩ <;> rw [hw] at still one
  · cases still
  · rw [List.mem_singleton.mp still]
    rfl
  · simp at one

end BindingPower.Pattern
