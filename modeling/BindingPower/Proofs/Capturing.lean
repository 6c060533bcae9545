import BindingPower.Proofs.Scan

/-! Patterns joined into one. Groups are told apart by names, and a match remembers the group that was
closed last. If each of several patterns is a named group of one alternation, the match of the whole is that
of the first pattern that matches, and the name it remembers is that pattern's, whatever groups there are
inside. -/
namespace BindingPower

/-- A pattern with its groups, of which some bear a number as a name. -/
inductive Capturing
  | empty
  | one (set : CharSet)
  | seq (p q : Capturing)
  | alt (p q : Capturing)
  | star (greedy : Bool) (p : Capturing)
  | group (name : Option Nat) (p : Capturing)
  deriving DecidableEq, Repr

namespace Capturing

/-- The pattern without its groups. -/
def plain : Capturing → Pattern
  | empty => .empty
  | one set => .one set
  | seq p q => .seq p.plain q.plain
  | alt p q => .alt p.plain q.plain
  | star greedy p => .star greedy p.plain
  | group _ p => p.plain

/-- A pattern with no groups in it. -/
def ofPattern : Pattern → Capturing
  | .empty => empty
  | .one set => one set
  | .seq p q => seq (ofPattern p) (ofPattern q)
  | .alt p q => alt (ofPattern p) (ofPattern q)
  | .star greedy p => star greedy (ofPattern p)

theorem plain_ofPattern (p : Pattern) : (ofPattern p).plain = p := by
  induction p with
  | empty | one => rfl
  | seq p q hp hq | alt p q hp hq => rw [ofPattern, plain, hp, hq]
  | star greedy p hp => rw [ofPattern, plain, hp]

/-- The group that was closed last, if there was one, by its name, if it has one. -/
abbrev Closed := Option (Option Nat)

variable {β : Type}

/-- Tries the repetitions of a step; one that takes nothing is the last. -/
def tryRepeats (greedy : Bool)
    (step : (Closed → Nat → List Char → Option β) → Closed → Nat → List Char → Option β)
    (accept : Closed → Nat → List Char → Option β) :
    (bound : Nat) → Closed → Nat → List Char → Option β
  | 0, closed, taken, s => accept closed taken s
  | bound + 1, closed, taken, s =>
    let more := step fun closed now rest =>
      if now = taken then accept closed now rest
      else tryRepeats greedy step accept bound closed now rest
    if greedy then more closed taken s <|> accept closed taken s
    else accept closed taken s <|> more closed taken s

/-- Tries the ways to match the beginning of a text until one is accepted, by the group closed last, the
number of characters taken so far and the text that is left. A way that is given up takes its groups
with it. -/
def attempt : Capturing → (Closed → Nat → List Char → Option β) → Closed → Nat → List Char → Option β
  | empty, accept, closed, taken, s => accept closed taken s
  | one _, _, _, _, [] => none
  | one set, accept, closed, taken, c :: s => if set.mem c then accept closed (taken + 1) s else none
  | seq p q, accept, closed, taken, s => p.attempt (q.attempt accept) closed taken s
  | alt p q, accept, closed, taken, s =>
    p.attempt accept closed taken s <|> q.attempt accept closed taken s
  | star greedy p, accept, closed, taken, s =>
    tryRepeats greedy p.attempt accept (s.length + 1) closed taken s
  | group name p, accept, closed, taken, s =>
    p.attempt (fun _ now rest => accept (some name) now rest) closed taken s

/-- How many characters the preferred match takes, and the group it closes last. -/
def match? (p : Capturing) (s : List Char) : Option (Nat × Closed) :=
  p.attempt (fun closed taken _ => some (taken, closed)) none 0 s

/-- The patterns as the alternatives of one, each a group that is named by its number. -/
def fuse : (first : Nat) → List Capturing → Capturing
  | _, [] => empty
  | first, [p] => group (some first) p
  | first, p :: ps => alt (group (some first) p) (fuse (first + 1) ps)

/-- At the end of a text one more repetition changes nothing. -/
private theorem attempt_nil_or (p : Pattern) (accept : Nat → List Char → Option β) (taken : Nat) :
    (p.attempt accept taken []).or (accept taken []) = accept taken [] ∧
      (accept taken []).or (p.attempt accept taken []) = accept taken [] := by
  cases h : p.attempt accept taken [] with
  | none => simp
  | some b =>
    rw [Pattern.attempt_eq_findSome?] at h
    obtain ⟨n, hn, accepted⟩ := List.exists_of_findSome?_eq_some h
    obtain rfl : n = 0 := Nat.le_zero.mp (Pattern.le_of_mem_widths hn)
    have accepted : accept taken [] = some b := accepted
    simp [accepted]

/-- Of two ways to accept that differ in looking at groups alone, the plain one stands for the other. -/
private def Stands (accept : Closed → Nat → List Char → Option β) (other : Nat → List Char → Option β)
    (taken : Nat) (s : List Char) : Prop :=
  ∀ closed n, n ≤ s.length → accept closed (taken + n) (s.drop n) = other (taken + n) (s.drop n)

private theorem tryRepeats_eq (greedy : Bool) {p : Capturing}
    (step : ∀ {accept : Closed → Nat → List Char → Option β} {other : Nat → List Char → Option β}
      {closed taken s}, Stands accept other taken s →
      p.attempt accept closed taken s = p.plain.attempt other taken s)
    {accept : Closed → Nat → List Char → Option β} {other : Nat → List Char → Option β} {closed : Closed}
    {bound : List Char} {taken : Nat} {s : List Char} (hb : s.length ≤ bound.length)
    (h : Stands accept other taken s) :
    tryRepeats greedy p.attempt accept (bound.length + 1) closed taken s =
      Pattern.tryRepeats greedy p.plain.attempt other bound taken s := by
  have now (closed : Closed) : accept closed taken s = other taken s := h closed 0 (Nat.zero_le _)
  induction bound generalizing closed taken s with
  | nil =>
    obtain rfl : s = [] := List.eq_nil_of_length_eq_zero (Nat.le_zero.mp hb)
    have more : p.attempt accept closed taken [] = p.plain.attempt other taken [] := step h
    obtain ⟨greedily, lazily⟩ := attempt_nil_or p.plain other taken
    cases greedy <;> simp [tryRepeats, Pattern.tryRepeats, more, now, greedily, lazily]
  | cons c bound ih =>
    have more : p.attempt (fun closed now rest => if now = taken then accept closed now rest
          else tryRepeats greedy p.attempt accept (bound.length + 1) closed now rest) closed taken s =
        p.plain.attempt (fun now rest => if now = taken then other now rest
          else Pattern.tryRepeats greedy p.plain.attempt other bound now rest) taken s := by
      apply step
      intro closed n hn
      by_cases hz : n = 0
      · subst hz
        simpa using now closed
      · have moved : taken + n ≠ taken := by omega
        rw [List.length_cons] at hb
        have later : Stands accept other (taken + n) (s.drop n) := by
          intro closed m hm
          rw [List.length_drop] at hm
          rw [List.drop_drop, Nat.add_assoc]
          exact h closed (n + m) (by omega)
        simp only [if_neg moved]
        exact ih (by rw [List.length_drop]; omega) later fun closed => later closed 0 (Nat.zero_le _)
    rw [List.length_cons, tryRepeats, Pattern.tryRepeats, now]
    simp only [more]

/-- Where groups are not looked at, they make no difference. -/
private theorem attempt_eq (p : Capturing) {accept : Closed → Nat → List Char → Option β}
    {other : Nat → List Char → Option β} {closed : Closed} {taken : Nat} {s : List Char}
    (h : Stands accept other taken s) :
    p.attempt accept closed taken s = p.plain.attempt other taken s := by
  induction p generalizing accept other closed taken s with
  | empty => exact h closed 0 (Nat.zero_le _)
  | one set =>
    cases s with
    | nil => rfl
    | cons c s =>
      have next : accept closed (taken + 1) s = other (taken + 1) s :=
        h closed 1 (Nat.succ_le_succ (Nat.zero_le _))
      simp only [attempt, plain, Pattern.attempt, next]
  | seq p q hp hq =>
    apply hp
    intro closed n hn
    apply hq
    intro closed m hm
    rw [List.length_drop] at hm
    rw [List.drop_drop, Nat.add_assoc]
    exact h closed (n + m) (by omega)
  | alt p q hp hq => simp only [attempt, plain, Pattern.attempt, hp h, hq h]
  | star greedy p hp => exact tryRepeats_eq greedy hp (Nat.le_refl _) h
  | group name p hp => exact hp fun _ n hn => h (some name) n hn

/-- A group as a whole matches as its pattern does, and is closed after any group inside it. -/
theorem match?_group (name : Option Nat) (p : Capturing) (s : List Char) :
    (group name p).match? s = (p.plain.width? s).map (·, some name) := by
  have matched : (group name p).match? s =
      p.plain.attempt (fun taken _ => some (taken, some name)) 0 s := attempt_eq p fun _ _ _ => rfl
  rw [matched, Pattern.width?, Pattern.attempt_eq_findSome?, Pattern.attempt_eq_findSome?]
  cases p.plain.widths s <;> rfl

theorem match?_alt (p q : Capturing) (s : List Char) :
    (alt p q).match? s = (p.match? s).or (q.match? s) := by
  simp only [match?, attempt, Option.orElse_eq_orElse, Option.orElse_eq_or]

/-- The first of the fused patterns that matches decides, and its group is the one closed last. -/
theorem match?_fuse (first : Nat) {ps : List Capturing} (hne : ps ≠ []) (s : List Char) :
    (fuse first ps).match? s = ((ps.map plain).zipIdx first).findSome? fun (p, k) =>
      (p.width? s).map (·, some (some k)) := by
  induction ps generalizing first with
  | nil => exact absurd rfl hne
  | cons p ps ih =>
    rw [List.map_cons, List.zipIdx_cons, List.findSome?_cons]
    cases ps with
    | nil =>
      rw [fuse, match?_group]
      cases h : p.plain.width? s <;> simp [h]
    | cons q ps =>
      rw [fuse, match?_alt, match?_group, ih (first + 1) (List.cons_ne_nil q ps)]
      · cases h : p.plain.width? s <;> simp [h]
      · simp

end Capturing
end BindingPower
