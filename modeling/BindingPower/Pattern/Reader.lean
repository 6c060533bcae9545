import BindingPower.Pattern

/-! The written form of patterns: literals, escapes, character classes, groups, alternatives,
and repetition by star, plus and question mark, lazy if another question mark follows. -/
namespace BindingPower.Pattern

/-- The meaning of a character after a backslash. Of the letters and digits only a few have one. -/
def escapeItem? : Char → Option CharItem
  | 's' => some .blank
  | 'S' => some .nonblank
  | 'n' => some (.range '\n' '\n')
  | 'r' => some (.range '\r' '\r')
  | 't' => some (.range '\t' '\t')
  | 'f' => some (.range '\x0c' '\x0c')
  | 'v' => some (.range '\x0b' '\x0b')
  | 'a' => some (.range '\x07' '\x07')
  | c => if c.isAlphanum then none else some (.range c c)

/-- One member of a class and what follows it. -/
private def readMember : List Char → Option (CharItem × List Char)
  | [] => none
  | '\\' :: c :: s => (escapeItem? c).map (·, s)
  | c :: s => some (.range c c, s)

/-- The range between two members, each of which must be a single character. -/
private def rangeOf? : CharItem → CharItem → Option CharItem
  | .range low _, .range high _ => if low ≤ high then some (.range low high) else none
  | _, _ => none

/-- The members of a class up to its bracket. A bracket that comes first is a member. -/
private def readMembers : (room : Nat) → (first : Bool) → List Char → Option (List CharItem × List Char)
  | 0, _, _ => none
  | room + 1, first, s =>
    match first, s with
    | false, ']' :: s => some ([], s)
    | _, s => do
      let (item, s) ← readMember s
      match s with
      | '-' :: c :: s =>
        if c = ']' then
          let (items, s) ← readMembers room false ('-' :: c :: s)
          return (item :: items, s)
        else
          let (bound, s) ← readMember (c :: s)
          let range ← rangeOf? item bound
          let (items, s) ← readMembers room false s
          return (range :: items, s)
      | s =>
        let (items, s) ← readMembers room false s
        return (item :: items, s)

/-- A pattern with the repetitions that are written after it. -/
private def readRepeats : Pattern → List Char → Option (Pattern × List Char)
  | p, '*' :: '?' :: s => some (star false p, s)
  | p, '*' :: s => some (star true p, s)
  | p, '+' :: '?' :: s => some (seq p (star false p), s)
  | p, '+' :: s => some (seq p (star true p), s)
  | p, '?' :: '?' :: s => some (alt empty p, s)
  | p, '?' :: s => some (alt p empty, s)
  | p, s => some (p, s)

mutual
private def readAlternatives : (room : Nat) → List Char → Option (Pattern × List Char)
  | 0, _ => none
  | room + 1, s => do
    let (p, s) ← readSequence room s
    match s with
    | '|' :: s =>
      let (q, s) ← readAlternatives room s
      return (alt p q, s)
    | s => return (p, s)

private def readSequence : (room : Nat) → List Char → Option (Pattern × List Char)
  | 0, _ => none
  | room + 1, s =>
    match s with
    | [] | '|' :: _ | ')' :: _ => some (empty, s)
    | s => do
      let (p, s) ← readAtom room s
      let (p, s) ← readRepeats p s
      let (q, s) ← readSequence room s
      return (if q = empty then p else seq p q, s)

private def readAtom : (room : Nat) → List Char → Option (Pattern × List Char)
  | 0, _ => none
  | room + 1, s =>
    match s with
    | '(' :: '?' :: ':' :: s | '(' :: s => do
      let (p, s) ← readAlternatives room s
      match s with
      | ')' :: s => return (p, s)
      | _ => none
    | '[' :: '^' :: s => do
      let (items, s) ← readMembers (s.length + 1) true s
      return (without items, s)
    | '[' :: s => do
      let (items, s) ← readMembers (s.length + 1) true s
      return (within items, s)
    | '.' :: s => some (anyInRow, s)
    | '\\' :: c :: s => (escapeItem? c).map fun item => (one ⟨[item], false⟩, s)
    | '*' :: _ | '+' :: _ | '?' :: _ | '\\' :: [] | [] => none
    | c :: s => some (char c, s)
end

/-- The pattern that a text denotes, if it is well formed. -/
def ofString? (text : String) : Option Pattern :=
  match readAlternatives (3 * text.length + 3) text.toList with
  | some (p, []) => some p
  | _ => none

end BindingPower.Pattern
