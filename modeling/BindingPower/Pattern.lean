import BindingPower.Text.Blank

/-! Patterns that a scanner tries at a place of its text. A pattern may match in several ways,
of which it prefers some to others; a way is known by how many characters it takes. The ways are
tried in the order of preference, and no more of them than are needed. -/
namespace BindingPower

inductive CharItem
  | range (low high : Char)
  | blank
  | nonblank
  deriving DecidableEq, Repr

def CharItem.mem (c : Char) : CharItem → Bool
  | range low high => low ≤ c && c ≤ high
  | blank => Text.isBlank c
  | nonblank => !Text.isBlank c

structure CharSet where
  items : List CharItem
  negated : Bool := false
  deriving DecidableEq, Repr

def CharSet.mem (c : Char) (s : CharSet) : Bool := s.items.any (·.mem c) != s.negated

inductive Pattern
  | empty
  | one (set : CharSet)
  | seq (p q : Pattern)
  | alt (p q : Pattern)
  | star (greedy : Bool) (p : Pattern)
  deriving DecidableEq, Repr

namespace Pattern

/-- Repetitions of a step, the most first if greedy. A repetition that takes nothing is the
last; each of the others shortens the text, whose length therefore bounds them. -/
def repeatWidths (greedy : Bool) (step : List Char → List Nat) :
    (bound : List Char) → List Char → List Nat
  | [], _ => [0]
  | _ :: bound, s =>
    let more := (step s).flatMap fun n =>
      if n = 0 then [0] else (repeatWidths greedy step bound (s.drop n)).map (n + ·)
    if greedy then more ++ [0] else 0 :: more

/-- How many characters each way to match the beginning of a text takes, the preferred way
first. -/
def widths : Pattern → List Char → List Nat
  | empty, _ => [0]
  | one _, [] => []
  | one set, c :: _ => if set.mem c then [1] else []
  | seq p q, s => (p.widths s).flatMap fun n => (q.widths (s.drop n)).map (n + ·)
  | alt p q, s => p.widths s ++ q.widths s
  | star greedy p, s => repeatWidths greedy p.widths s s

variable {β : Type}

/-- Tries the repetitions of a step. -/
def tryRepeats (greedy : Bool)
    (step : (Nat → List Char → Option β) → Nat → List Char → Option β)
    (accept : Nat → List Char → Option β) : (bound : List Char) → Nat → List Char → Option β
  | [], taken, s => accept taken s
  | _ :: bound, taken, s =>
    let more := step fun now rest =>
      if now = taken then accept now rest else tryRepeats greedy step accept bound now rest
    if greedy then more taken s <|> accept taken s else accept taken s <|> more taken s

/-- Tries the ways to match the beginning of a text until one is accepted, by the number of
characters taken so far and the text that is left. -/
def attempt : Pattern → (Nat → List Char → Option β) → Nat → List Char → Option β
  | empty, accept, taken, s => accept taken s
  | one _, _, _, [] => none
  | one set, accept, taken, c :: s => if set.mem c then accept (taken + 1) s else none
  | seq p q, accept, taken, s => p.attempt (q.attempt accept) taken s
  | alt p q, accept, taken, s => p.attempt accept taken s <|> q.attempt accept taken s
  | star greedy p, accept, taken, s => tryRepeats greedy p.attempt accept s taken s

/-- How many characters the preferred match takes. -/
def width? (p : Pattern) (s : List Char) : Option Nat := p.attempt (fun taken _ => some taken) 0 s

private theorem findSome?_cons_eq_or (n : Nat) (l : List Nat) (g : Nat → Option β) :
    (n :: l).findSome? g = (g n).or (l.findSome? g) := by
  rw [List.findSome?_cons]
  cases g n <;> rfl

theorem findSome?_flatMap (l : List Nat) (f : Nat → List Nat) (g : Nat → Option β) :
    (l.flatMap f).findSome? g = l.findSome? fun n => (f n).findSome? g := by
  induction l with
  | nil => rfl
  | cons n l ih => rw [List.flatMap_cons, List.findSome?_append, ih, findSome?_cons_eq_or]

private theorem tryRepeats_eq (greedy : Bool)
    {step : (Nat → List Char → Option β) → Nat → List Char → Option β}
    {widthsOf : List Char → List Nat}
    (h : ∀ accept taken s, step accept taken s =
      (widthsOf s).findSome? fun n => accept (taken + n) (s.drop n))
    (accept : Nat → List Char → Option β) (bound : List Char) (taken : Nat) (s : List Char) :
    tryRepeats greedy step accept bound taken s =
      (repeatWidths greedy widthsOf bound s).findSome? fun n => accept (taken + n) (s.drop n) := by
  induction bound generalizing taken s with
  | nil => simp [tryRepeats, repeatWidths]
  | cons c bound ih =>
    have more : (step (fun now rest => if now = taken then accept now rest
          else tryRepeats greedy step accept bound now rest) taken s) =
        ((widthsOf s).flatMap fun n => if n = 0 then [0]
          else (repeatWidths greedy widthsOf bound (s.drop n)).map (n + ·)).findSome?
            fun n => accept (taken + n) (s.drop n) := by
      rw [h, findSome?_flatMap]
      congr 1
      funext n
      by_cases hn : n = 0
      · simp [hn]
      · simp [hn, ih, List.findSome?_map, Function.comp_def, List.drop_drop, Nat.add_assoc]
    cases greedy <;>
      simp [tryRepeats, repeatWidths, more, List.findSome?_append, findSome?_cons_eq_or]

/-- The trial accepts the first acceptable way of those that the widths list. -/
theorem attempt_eq_findSome? (p : Pattern) (accept : Nat → List Char → Option β) (taken : Nat)
    (s : List Char) :
    p.attempt accept taken s =
      (p.widths s).findSome? fun n => accept (taken + n) (s.drop n) := by
  induction p generalizing accept taken s with
  | empty => simp [attempt, widths]
  | one set =>
    cases s with
    | nil => rfl
    | cons c s => by_cases h : set.mem c <;> simp [attempt, widths, h]
  | seq p q hp hq =>
    simp [attempt, widths, hp, hq, findSome?_flatMap, List.findSome?_map, Function.comp_def,
      List.drop_drop, Nat.add_assoc]
  | alt p q hp hq => simp [attempt, widths, hp, hq, List.findSome?_append]
  | star greedy p hp => exact tryRepeats_eq greedy hp accept s taken s

theorem width?_eq_head? (p : Pattern) (s : List Char) : p.width? s = (p.widths s).head? := by
  rw [width?, attempt_eq_findSome?]
  cases p.widths s <;> simp

def char (c : Char) : Pattern := one ⟨[.range c c], false⟩
def within (items : List CharItem) : Pattern := one ⟨items, false⟩
def without (items : List CharItem) : Pattern := one ⟨items, true⟩
def any : Pattern := one ⟨[.blank, .nonblank], false⟩
def anyInRow : Pattern := without [.range '\n' '\n']

def all : List Pattern → Pattern
  | [] => empty
  | [p] => p
  | p :: ps => seq p (all ps)

/-- The first of the patterns that matches; of no patterns, none does. -/
def oneOf : List Pattern → Pattern
  | [] => one ⟨[], false⟩
  | [p] => p
  | p :: ps => alt p (oneOf ps)

def literal (s : List Char) : Pattern := all (s.map char)

def many (p : Pattern) : Pattern := star true p
def many1 (p : Pattern) : Pattern := seq p (star true p)
def opt (p : Pattern) : Pattern := alt p empty

end Pattern

end BindingPower
