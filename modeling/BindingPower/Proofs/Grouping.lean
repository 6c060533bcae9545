import BindingPower.Proofs.Input
import BindingPower.Proofs.Table
import BindingPower.Proofs.Yield

/-! Tables of operators alone. An expression is the one tree over its tokens in which every
operator is out of the reach of its neighbours: the powers along the two edges of each operand
decide it. -/
namespace BindingPower

namespace RuleTable

/-- Rules that start an expression are operands and unary operators, and rules that continue one
are binary operators. -/
structure OfOperators (table : RuleTable) : Prop where
  starting : ∀ kind rule, table.prefixRule? kind = some rule →
    (∃ power, rule = .leaf power) ∨ ∃ power, rule = .unary power
  continuing : ∀ kind rule, table.infixRule? kind = some rule →
    ∃ left right, rule = .binary left right

variable (table : RuleTable) (kindOf : Token → Kind)

/-- The left powers of the binary operators on the left edge of a tree, outermost first. -/
def leftPowers : Node → List Int
  | .branch t [l, _] => ((table.infixRule? (kindOf t)).map (·.left)).toList ++ leftPowers l
  | _ => []

/-- The powers with which the operators on the right edge of a tree read their last operand. -/
def rightPowers : Node → List Int
  | .branch t [n] => ((table.prefixRule? (kindOf t)).map (·.power)).toList ++ rightPowers n
  | .branch t [_, r] => ((table.infixRule? (kindOf t)).map (·.right)).toList ++ rightPowers r
  | _ => []

/-- Trees whose operators are those of the table, with operands that nothing beside them
reaches into. -/
inductive Grouped : Node → Prop
  | operand {t : Token} {power : Int} (rule : table.prefixRule? (kindOf t) = some (.leaf power)) :
    Grouped (.leaf t)
  | unary {t : Token} {power : Int} {n : Node}
    (rule : table.prefixRule? (kindOf t) = some (.unary power)) (operand : Grouped n)
    (tight : ∀ q ∈ leftPowers table kindOf n, power < q) : Grouped (.branch t [n])
  | binary {t : Token} {left right : Int} {l r : Node}
    (rule : table.infixRule? (kindOf t) = some (.binary left right)) (first : Grouped l)
    (second : Grouped r) (tight : ∀ q ∈ leftPowers table kindOf r, right < q)
    (closed : ∀ q ∈ rightPowers table kindOf l, left ≤ q) : Grouped (.branch t [l, r])

end RuleTable

namespace Node

/-- The tokens of an expression as they are written. -/
abbrev inOrder (n : Node) : List Token := n.yield fun _ => .between

theorem inOrder_unary (t : Token) (n : Node) : (branch t [n]).inOrder = t :: n.inOrder := by
  simp [inOrder, yield, yields, Placement.arrange]

theorem inOrder_binary (t : Token) (l r : Node) :
    (branch t [l, r]).inOrder = l.inOrder ++ t :: r.inOrder := rfl

end Node

/-- A tree over the first of some tokens, well grouped, that no operator beside it enlarges: what
is read at the threshold. -/
structure RuleTable.Groups (table : RuleTable) (kindOf : Token → Kind) (threshold : Int)
    (ts : List Token) (n : Node) (rest : List Token) : Prop where
  tokens : n.inOrder ++ rest = ts
  grouped : Grouped table kindOf n
  above : ∀ q ∈ leftPowers table kindOf n, threshold < q
  stops : table.StopsAt kindOf threshold rest
  closed : ∀ q ∈ rightPowers table kindOf n, table.StopsAt kindOf q rest

open ParseM RuleTable

section
variable {kindOf : Token → Kind} {Regular : Token → Prop} {p : Parser}
  {Q : Except Failure Node → Scan → Prop}

/-- Reading the tokens of a well grouped tree comes to where the tree has been built, if what
follows does not reach into it. -/
private theorem leads_grouped (hp : p.Steady kindOf Regular) {n : Node}
    (hn : Grouped p.table kindOf n) {r : Int} (hr : ∀ q ∈ leftPowers p.table kindOf n, r < q)
    {rest : List Token} (ht : ∀ t ∈ n.inOrder ++ rest, Regular t)
    (hrest : ∀ q ∈ rightPowers p.table kindOf n, p.table.StopsAt kindOf q rest)
    (h : Leads (p.extending r n) ⟨rest, none⟩ Q) : Leads (p.reading r) ⟨n.inOrder ++ rest, none⟩ Q := by
  induction hn generalizing r rest Q with
  | @operand t power rule => exact hp.leads_reading_leaf (ht t (by simp)) rule h
  | @unary t power n rule _ tight ih =>
    rw [Node.inOrder_unary] at ht ⊢
    have regular : ∀ u ∈ n.inOrder ++ rest, Regular u := fun u hu => ht u (List.mem_cons_of_mem t hu)
    have stop : p.table.StopsAt kindOf power rest := hrest power (by simp [rightPowers, rule, PrefixRule.unary])
    apply hp.leads_reading_unary (ht t (by simp)) rule
    apply ih tight regular fun q hq => hrest q (by simp [rightPowers, hq])
    exact hp.leads_extending_stop (fun u hu => regular u (by simp [List.mem_of_mem_head? hu])) stop h
  | @binary t left right a b rule _ _ tight closed iha ihb =>
    rw [Node.inOrder_binary, List.append_assoc] at ht ⊢
    have regular : ∀ u ∈ b.inOrder ++ rest, Regular u := fun u hu =>
      ht u (List.mem_append_right _ (List.mem_cons_of_mem t hu))
    have stop : p.table.StopsAt kindOf right rest := hrest right (by simp [rightPowers, rule, InfixRule.binary])
    apply iha (fun q hq => hr q (by simp [leftPowers, hq])) ht
    · intro q hq u hu found hf
      obtain rfl : t = u := by simpa using hu
      rw [rule] at hf
      exact Option.some.inj hf ▸ closed q hq
    · apply hp.leads_extending_binary (ht t (by simp)) rule
        (hr left (by simp [leftPowers, rule, InfixRule.binary]))
      apply ihb tight regular fun q hq => hrest q (by simp [rightPowers, hq])
      exact hp.leads_extending_stop (fun u hu => regular u (by simp [List.mem_of_mem_head? hu])) stop h

/-- Whatever tree comes out is a group over the tokens. -/
private def Sound (p : Parser) (kindOf : Token → Kind) (r : Int) (ts : List Token)
    (answer : Except Failure Node) (j : Scan) : Prop :=
  ∀ n, answer = .ok n → ∃ rest, j = ⟨rest, none⟩ ∧ p.table.Groups kindOf r ts n rest

private theorem extending_sound (hp : p.Steady kindOf Regular) (ho : p.table.OfOperators) {k : Nat}
    (ih : ∀ us : List Token, us.length < k → (∀ u ∈ us, Regular u) → ∀ r,
      Leads (p.reading r) ⟨us, none⟩ (Sound p kindOf r us))
    (r : Int) (us : List Token) (hk : us.length ≤ k) (ht : ∀ u ∈ us, Regular u) (left : Node)
    (grouped : Grouped p.table kindOf left) (above : ∀ q ∈ leftPowers p.table kindOf left, r < q)
    (closed : ∀ q ∈ rightPowers p.table kindOf left, p.table.StopsAt kindOf q us) :
    Leads (p.extending r left) ⟨us, none⟩ (Sound p kindOf r (left.inOrder ++ us)) := by
  by_cases stops : p.table.StopsAt kindOf r us
  · apply hp.leads_extending_stop (fun u hu => ht u (List.mem_of_mem_head? hu)) stops
    rintro n ⟨⟩
    exact ⟨us, rfl, rfl, grouped, above, stops, closed⟩
  · cases us with
    | nil => exact absurd (fun t h => by simp at h) stops
    | cons t us =>
      obtain ⟨rule, hr, hl⟩ : ∃ rule, p.table.infixRule? (kindOf t) = some rule ∧ r < rule.left := by
        simpa [StopsAt] using stops
      obtain ⟨lp, rp, rfl⟩ := ho.continuing _ _ hr
      apply hp.leads_extending_binary (ht t (by simp)) hr hl
      apply (ih us hk (fun u hu => ht u (List.mem_cons_of_mem t hu)) rp).mono
      rintro (e | m) j hj
      · rintro n ⟨⟩
      · obtain ⟨rest, rfl, hm⟩ := hj m rfl
        have shorter : rest.length < (t :: us).length := by
          rw [← hm.tokens]
          simp only [List.length_cons, List.length_append]
          omega
        have later : ∀ u ∈ rest, Regular u := fun u hu =>
          ht u (List.mem_cons_of_mem t (hm.tokens ▸ List.mem_append_right _ hu))
        have tokens : left.inOrder ++ t :: us = (Node.branch t [left, m]).inOrder ++ rest := by
          rw [Node.inOrder_binary, ← hm.tokens, List.append_assoc, List.cons_append]
        rw [tokens]
        apply extending_sound hp ho ih r rest (Nat.le_of_lt (Nat.lt_of_lt_of_le shorter hk)) later
        · exact .binary hr grouped hm.grouped hm.above fun q hq => closed q hq t rfl _ hr
        · simpa [leftPowers, hr, InfixRule.binary] using ⟨hl, above⟩
        · simpa [rightPowers, hr, InfixRule.binary] using ⟨hm.stops, hm.closed⟩
termination_by us.length

private theorem reading_sound (hp : p.Steady kindOf Regular) (ho : p.table.OfOperators) {k : Nat}
    (ts : List Token) (hk : ts.length < k) (ht : ∀ t ∈ ts, Regular t) (r : Int) :
    Leads (p.reading r) ⟨ts, none⟩ (Sound p kindOf r ts) := by
  induction k generalizing ts r with
  | zero => exact absurd hk (Nat.not_lt_zero _)
  | succ k ih =>
    cases ts with
    | nil => exact hp.leads_reading_nil fun n hn => by cases hn
    | cons t ts =>
      have short : ts.length < k := Nat.lt_of_succ_lt_succ hk
      have later : ∀ u ∈ ts, Regular u := fun u hu => ht u (List.mem_cons_of_mem t hu)
      cases hr : p.table.prefixRule? (kindOf t) with
      | none =>
        apply hp.leads_reading (ht t (by simp))
        apply hp.leads_start_missing (ht t (by simp)) hr
        rintro n ⟨⟩
      | some rule =>
        rcases ho.starting _ _ hr with ⟨power, rfl⟩ | ⟨power, rfl⟩
        · apply hp.leads_reading_leaf (ht t (by simp)) hr
          exact extending_sound hp ho ih r ts (Nat.le_of_lt short) later (.leaf t) (.operand hr)
            (by simp [leftPowers]) (by simp [rightPowers])
        · apply hp.leads_reading_unary (ht t (by simp)) hr
          apply (ih ts short later power).mono
          rintro (e | m) j hj
          · rintro n ⟨⟩
          · obtain ⟨rest, rfl, hm⟩ := hj m rfl
            have shorter : rest.length ≤ ts.length := by
              rw [← hm.tokens, List.length_append]
              exact Nat.le_add_left _ _
            have tokens : t :: ts = (Node.branch t [m]).inOrder ++ rest := by
              rw [Node.inOrder_unary, ← hm.tokens, List.cons_append]
            rw [tokens]
            apply extending_sound hp ho ih r rest (Nat.le_trans shorter (Nat.le_of_lt short))
              (fun u hu => later u (hm.tokens ▸ List.mem_append_right _ hu))
            · exact .unary hr hm.grouped hm.above
            · simp [leftPowers]
            · simpa [rightPowers, hr, PrefixRule.unary] using ⟨hm.stops, hm.closed⟩

end

/-- Reading at a threshold gives a tree and leaves a rest exactly if the tree groups the tokens
before the rest: for every table of operators, whatever its powers. -/
theorem reads_iff_groups (table : RuleTable) (ho : table.OfOperators) (kindOf : Token → Kind)
    (threshold : Int) (s : Progress) (ts : List Token) (hs : s.input = ⟨ts, none⟩)
    (gapless : .absent ∉ ts) (n : Node) (rest : List Token) :
    (∃ s', Parser.perform { table, classifier := fun _ t => .ok (kindOf t) } (.expr threshold) s =
        (.ok n, s') ∧ s'.input = ⟨rest, none⟩) ↔
      table.Groups kindOf threshold ts n rest := by
  let p : Parser := { table, classifier := fun _ t => .ok (kindOf t) }
  have hp : p.Steady kindOf (· ≠ .absent) :=
    ⟨rfl, fun _ _ _ => rfl, fun t ht => by cases t <;> first | rfl | exact absurd rfl ht⟩
  have regular : ∀ t ∈ ts, t ≠ .absent := fun t ht h => gapless (h ▸ ht)
  rw [Parser.perform_eq, Parser.run_expr]
  constructor
  · rintro ⟨s', he, hs'⟩
    have sound := reading_sound hp ho ts (Nat.lt_succ_self _) regular threshold
    obtain ⟨left, hj, hg⟩ := sound.holds s hs n (by rw [he])
    rw [he, hs'] at hj
    obtain rfl : rest = left := congrArg Scan.tokens hj
    exact hg
  · intro hg
    have ht : ∀ t ∈ n.inOrder ++ rest, t ≠ .absent := hg.tokens ▸ regular
    have stop : Leads (p.extending threshold n) ⟨rest, none⟩ fun answer j =>
        answer = .ok n ∧ j = ⟨rest, none⟩ :=
      hp.leads_extending_stop (fun t h => ht t (by simp [List.mem_of_mem_head? h])) hg.stops ⟨rfl, rfl⟩
    have read := leads_grouped hp hg.grouped hg.above ht hg.closed stop
    rw [hg.tokens] at read
    obtain ⟨h₁, h₂⟩ := read.holds s hs
    exact ⟨(p.reading threshold s).2, Prod.ext h₁ rfl, h₂⟩

/-- Operators with a sign that is unary and binary and a power that groups to the right. -/
private def signedPowers : RuleTable where
  prefixRules := [(.text "a", .leaf 0), (.text "b", .leaf 0), (.text "-", .unary 15)]
  infixRules := [(.text "-", .binary 5 5), (.text "^", .binary 20 15)]

private theorem signedPowers_ofOperators : signedPowers.OfOperators where
  starting kind rule h := by
    obtain ⟨k, -, member⟩ := Kind.exists_mem_of_lookup h
    simp only [signedPowers, List.mem_cons, Prod.mk.injEq, List.not_mem_nil, or_false] at member
    obtain ⟨-, rfl⟩ | ⟨-, rfl⟩ | ⟨-, rfl⟩ := member
    · exact .inl ⟨0, rfl⟩
    · exact .inl ⟨0, rfl⟩
    · exact .inr ⟨15, rfl⟩
  continuing kind rule h := by
    obtain ⟨k, -, member⟩ := Kind.exists_mem_of_lookup h
    simp only [signedPowers, List.mem_cons, Prod.mk.injEq, List.not_mem_nil, or_false] at member
    obtain ⟨-, rfl⟩ | ⟨-, rfl⟩ := member
    · exact ⟨5, 5, rfl⟩
    · exact ⟨20, 15, rfl⟩

/-- A sign below a power and a power below a sign: `- a ^ - b - a`. -/
theorem reads_signed_powers :
    let word (text : String) : Token := .word text
    let leaf (text : String) : Node := .leaf (word text)
    let ts := [word "-", word "a", word "^", word "-", word "b", word "-", word "a"]
    let n : Node := .branch (word "-") [.branch (word "-") [.branch (word "^")
      [leaf "a", .branch (word "-") [leaf "b"]]], leaf "a"]
    signedPowers.OfOperators ∧ (.absent ∉ ts) ∧
      ∃ s', Parser.perform { table := signedPowers, classifier := fun _ t => .ok t.kind } (.expr 0)
        { lexer := .ofList ts } = (.ok n, s') ∧ s'.input = ⟨[], none⟩ := by
  have minus : signedPowers.infixRule? (Token.word "-").kind = some (.binary 5 5) := rfl
  have sign : signedPowers.prefixRule? (Token.word "-").kind = some (.unary 15) := rfl
  have power : signedPowers.infixRule? (Token.word "^").kind = some (.binary 20 15) := rfl
  have a : Grouped signedPowers Token.kind (.leaf (.word "a")) := .operand rfl
  have b : Grouped signedPowers Token.kind (.leaf (.word "b")) := .operand rfl
  have raised := Grouped.binary power a (.unary sign b (by decide)) (by decide) (by decide)
  refine ⟨signedPowers_ofOperators, by decide, ?_⟩
  apply (reads_iff_groups signedPowers signedPowers_ofOperators Token.kind 0 _ _ rfl (by decide) _ []).mpr
  exact {
    tokens := by decide
    grouped := .binary minus (.unary sign raised (by decide)) a (by decide) (by decide)
    above := by decide
    stops := fun t h => by cases h
    closed := fun q _ t h => by cases h }

end BindingPower
