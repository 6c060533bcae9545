import Mathlib.Data.Prod.Lex
import Mathlib.Data.String.Basic
import BindingPower.Token

/-! How tokens compare. Which of two lexemes is less goes by the keys of their kinds, whether they are the same by the
kinds themselves. The order is total as far as the two agree: different kinds may have one key, as a text and a member of
an enumeration that it spells, and a kind may have two, as a member that is equal to a text. -/
namespace BindingPower

namespace Kind
variable {k l m : Kind}

/-- Two kinds are the same just when they have one key. -/
def Agree (k l : Kind) : Prop := k.same l = true ↔ k.key = l.key

/-- Different kinds with one key. -/
def Ties (k l : Kind) : Prop := k.same l = false ∧ k.key = l.key

/-- The same kind with two keys. -/
def Splits (k l : Kind) : Prop := k.same l = true ∧ k.key ≠ l.key

instance : Decidable (k.Ties l) := inferInstanceAs (Decidable (_ ∧ _))
instance : Decidable (k.Splits l) := inferInstanceAs (Decidable (_ ∧ _))

/-- The kinds that occur in the bundled grammars: texts and symbols. -/
def IsBundled (k : Kind) : Prop := k.isSymbol = true ∨ ∃ text, k = .text text

/-- A text that spells out a symbol. -/
def Mimics (k l : Kind) : Prop := l.isSymbol = true ∧ k = .text l.key

/-- A hash of kinds, one for those that are the same. -/
structure Hash (β : Type) where
  of : Kind → β
  of_eq_of_same : ∀ k l : Kind, k.same l = true → of k = of l

instance : Inhabited (Hash Kind) := ⟨⟨identity, fun _ _ => same_iff.mp⟩⟩

theorem agree_iff : k.Agree l ↔ ¬(k.Ties l ∨ k.Splits l) := by
  unfold Agree Ties Splits
  cases k.same l <;> simp

theorem Ties.symm (h : k.Ties l) : l.Ties k := ⟨same_comm k l ▸ h.1, h.2.symm⟩

theorem name_injective_c {s t : CSymbol} (h : s.name = t.name) : s = t := by
  have found : ∀ s ∈ CSymbol.all, CSymbol.ofName? s.name = some s := by decide +kernel
  have all (s : CSymbol) : s ∈ CSymbol.all := by cases s <;> decide
  exact Option.some.inj ((found s (all s)).symm.trans (h ▸ found t (all t)))

theorem name_injective_ebnf {s t : EbnfSymbol} (h : s.name = t.name) : s = t := by
  have found : ∀ s ∈ EbnfSymbol.all, EbnfSymbol.ofName? s.name = some s := by decide +kernel
  have all (s : EbnfSymbol) : s ∈ EbnfSymbol.all := by cases s <;> decide
  exact Option.some.inj ((found s (all s)).symm.trans (h ▸ found t (all t)))

theorem qualified_right_inj {e name name' : String} (h : qualified e name = qualified e name') : name = name' :=
  String.append_right_inj _ |>.mp h

theorem key_c_ne_ebnf (s : CSymbol) (t : EbnfSymbol) : (c s).key ≠ (ebnf t).key := by
  intro same
  have first : (qualified "CKind" s.name).toList.head? = (qualified "EBNFKind" t.name).toList.head? :=
    congrArg (fun text : String => text.toList.head?) same
  rw [qualified, qualified, String.toList_append, String.toList_append, String.toList_append,
    String.toList_append] at first
  change some 'C' = some 'E' at first
  cases first

/-- No two symbols have one key, in one grammar or in both. -/
theorem eq_of_key_eq (hk : k.isSymbol = true) (hl : l.isSymbol = true) (h : k.key = l.key) : k = l := by
  match k, l with
  | c s, c t => exact congrArg c (name_injective_c (qualified_right_inj h))
  | ebnf s, ebnf t => exact congrArg ebnf (name_injective_ebnf (qualified_right_inj h))
  | c s, ebnf t => exact absurd h (key_c_ne_ebnf s t)
  | ebnf s, c t => exact absurd h.symm (key_c_ne_ebnf t s)

theorem IsBundled.identity (h : k.IsBundled) : k.identity = k := by
  obtain h | ⟨text, rfl⟩ := h
  · cases k <;> first | rfl | cases h
  · rfl

theorem IsBundled.same_iff (hk : k.IsBundled) (hl : l.IsBundled) : k.same l = true ↔ k = l := by
  rw [Kind.same_iff, hk.identity, hl.identity]

theorem Mimics.ne (h : k.Mimics l) : k ≠ l := by
  obtain ⟨symbol, rfl⟩ := h
  intro same
  rw [← same] at symbol
  cases symbol

theorem Mimics.key_eq (h : k.Mimics l) : k.key = l.key := by
  rw [h.2]
  rfl

/-- In the bundled grammars kinds agree, unless one of them mimics the other. -/
theorem IsBundled.agree_iff (hk : k.IsBundled) (hl : l.IsBundled) : k.Agree l ↔ ¬(k.Mimics l ∨ l.Mimics k) := by
  rw [Agree, hk.same_iff hl]
  constructor
  · rintro agree (h | h)
    · exact h.ne (agree.mpr h.key_eq)
    · exact h.ne (agree.mpr h.key_eq.symm).symm
  · refine fun apart => ⟨fun h => h ▸ rfl, fun h => ?_⟩
    rcases hk with hk | ⟨text, rfl⟩ <;> rcases hl with hl | ⟨text', rfl⟩
    · exact eq_of_key_eq hk hl h
    · exact absurd (.inr ⟨hk, congrArg Kind.text h.symm⟩) apart
    · exact absurd (.inl ⟨hl, congrArg Kind.text h⟩) apart
    · exact congrArg Kind.text h

end Kind

namespace Token
variable {k l m : Kind} {v w x : String} {i j n : Option Int}

/-- What lexemes are ordered by. -/
def orderKey (k : Kind) (v : String) : String ×ₗ String := toLex (k.key, v)

/-- The five comparisons of two tokens. -/
def comparisons (a b : Token) : List (Option Bool) := [a.lt? b, a.le? b, a.gt? b, a.ge? b, some (a.same b)]

/-- The hash of a token: of a lexeme that of the pair of kind and value, by a hash of kinds. -/
def hashed {α β : Type} (ofKind : Kind.Hash β) (ofPair : β × String → α) (ofWord : String → α) : Token → Option α
  | lexeme k v _ => some (ofPair (ofKind.of k, v))
  | word text => some (ofWord text)
  | absent => none

/-- Two tokens as a total order has them: one of them is less or they are the same, and not two of these; and what the
one is to the other, the other is the other way round to the one. -/
structure Ordered (a b : Token) : Prop where
  one : [a.lt? b, some (a.same b), b.lt? a].count (some true) = 1
  le_ge : a.le? b = b.ge? a
  lt_gt : a.lt? b = b.gt? a

theorem lt?_lexeme : (lexeme k v i).lt? (lexeme l w j) = some (decide (orderKey k v < orderKey l w)) := by
  rw [lt?, Option.some.injEq, Bool.eq_iff_iff]
  simp [orderKey, Prod.Lex.toLex_lt_toLex]

theorem same_lexeme : (lexeme k v i).same (lexeme l w j) = (k.same l && decide (v = w)) := rfl

theorem same_lexeme_comm : (lexeme k v i).same (lexeme l w j) = (lexeme l w j).same (lexeme k v i) := by
  rw [same_lexeme, same_lexeme, Kind.same_comm, decide_eq_decide.mpr eq_comm]

theorem orderKey_eq_iff : orderKey k v = orderKey l w ↔ k.key = l.key ∧ v = w := by
  rw [orderKey, orderKey, toLex_inj, Prod.mk.injEq]

/-- Lexemes are ordered if they are the same just when they have one key, and only then. -/
theorem ordered_iff : Ordered (lexeme k v i) (lexeme l w j) ↔
    ((lexeme k v i).same (lexeme l w j) = true ↔ orderKey k v = orderKey l w) := by
  have swapped : (lexeme l w j).same (lexeme k v i) = (lexeme k v i).same (lexeme l w j) := same_lexeme_comm
  constructor
  · intro h
    have one := h.one
    rw [lt?_lexeme, lt?_lexeme] at one
    rcases lt_trichotomy (orderKey k v) (orderKey l w) with less | equal | greater
    · cases same : (lexeme k v i).same (lexeme l w j) <;> simp_all [less.ne, less.asymm]
    · cases same : (lexeme k v i).same (lexeme l w j) <;> simp_all
    · cases same : (lexeme k v i).same (lexeme l w j) <;> simp_all [greater.ne', greater.asymm]
  · intro agree
    rcases lt_trichotomy (orderKey k v) (orderKey l w) with less | equal | greater
    · have apart : (lexeme k v i).same (lexeme l w j) = false := by simpa [less.ne] using agree
      constructor <;> simp [le?, ge?, gt?, lt?_lexeme, swapped, apart, less, less.asymm]
    · have same := agree.mpr equal
      constructor <;> simp [le?, ge?, gt?, lt?_lexeme, swapped, same, equal]
    · have apart : (lexeme k v i).same (lexeme l w j) = false := by simpa [greater.ne'] using agree
      constructor <;> simp [le?, ge?, gt?, lt?_lexeme, swapped, apart, greater, greater.asymm]

/-- Of lexemes that tie neither is less, and each is greater than the other. -/
theorem comparisons_of_ties (h : k.Ties l) : comparisons (lexeme k v i) (lexeme l v j) =
    [some false, some false, some true, some true, some false] := by
  have key : orderKey k v = orderKey l v := orderKey_eq_iff.mpr ⟨h.2, rfl⟩
  simp [comparisons, le?, ge?, gt?, lt?_lexeme, same_lexeme, key, h.1]

/-- Of lexemes that are the same and have two keys one is less, and none is greater. -/
theorem comparisons_of_splits (h : k.Splits l) :
    let a := lexeme k v i
    let b := lexeme l v j
    [a.lt? b, some (a.same b), b.lt? a].count (some true) = 2 ∧ a.gt? b = some false ∧ b.gt? a = some false := by
  intro a b
  have same : a.same b = true := by simp [a, b, same_lexeme, h.1]
  have swapped : b.same a = true := same_lexeme_comm.trans same
  have apart : orderKey k v ≠ orderKey l v := fun equal => h.2 (orderKey_eq_iff.mp equal).1
  rw [gt?, gt?, same, swapped, lt?_lexeme, lt?_lexeme]
  rcases lt_or_gt_of_ne apart with less | greater
  · simp [less, less.asymm]
  · simp [greater, greater.asymm]

theorem hashed_of_same {α β : Type} {a b : Token} (h : a.same b = true) (ofKind : Kind.Hash β) (ofPair : β × String → α)
    (ofWord : String → α) : a.hashed ofKind ofPair ofWord = b.hashed ofKind ofPair ofWord := by
  cases a <;> cases b <;> simp only [same, Bool.and_eq_true, decide_eq_true_eq, reduceCtorEq] at h
  case word => rw [h]
  case lexeme => rw [hashed, hashed, ofKind.of_eq_of_same _ _ h.1, h.2]
  case absent => rfl

/-- Lexemes that are the same compare alike with every token if they have one key, and only then. -/
theorem comparisons_alike_iff (h : (lexeme k v i).same (lexeme l w j) = true) :
    (∀ t, comparisons (lexeme k v i) t = comparisons (lexeme l w j) t ∧
      comparisons t (lexeme k v i) = comparisons t (lexeme l w j)) ↔ k.key = l.key := by
  simp only [same_lexeme, Bool.and_eq_true, decide_eq_true_eq] at h
  obtain ⟨same, rfl⟩ := h
  constructor
  · intro alike
    -- Compared with the second of them, the first is neither less nor greater, as the second itself is not.
    have below := congrArg List.head? (alike (lexeme l v j)).1
    have above := congrArg List.head? (alike (lexeme l v j)).2
    simp only [comparisons, List.head?_cons, lt?_lexeme, Option.some.injEq, lt_irrefl, decide_false,
      decide_eq_false_iff_not, not_lt] at below above
    exact (orderKey_eq_iff.mp (le_antisymm above below)).1
  · intro key t
    cases t with
    | word | absent => exact ⟨rfl, rfl⟩
    | lexeme m x n =>
      have equal : orderKey k v = orderKey l v := orderKey_eq_iff.mpr ⟨key, rfl⟩
      have left := Kind.same_left same m
      have right := Kind.same_right same m
      simp only [comparisons, le?, ge?, gt?, lt?_lexeme, same_lexeme, equal, left, right, and_self]

/-- Lexemes are ordered totally, unless they have one value and kinds that do not agree. If these tie, the lexemes are
not the same, none is less, and each is greater than the other; if they split, the lexemes are the same and one is
less as well. The order is transitive; lexemes that are the same, wherever they stood, have the same hashes, and compare
alike with every token unless their kinds split. Of the kinds in the bundled grammars only a text and a symbol that it
spells out do not agree. -/
theorem lexemes_ordered (k l m : Kind) (v w x : String) (i j n : Option Int) :
    let a := lexeme k v i
    let b := lexeme l w j
    let c := lexeme m x n
    (Ordered a b ↔ ¬(v = w ∧ (k.Ties l ∨ k.Splits l))) ∧
      (v = w → k.Ties l → ∀ p ∈ [(a, b), (b, a)],
        comparisons p.1 p.2 = [some false, some false, some true, some true, some false]) ∧
      (v = w → k.Splits l → [a.lt? b, some (a.same b), b.lt? a].count (some true) = 2 ∧
        a.gt? b = some false ∧ b.gt? a = some false) ∧
      (a.lt? b = some true → b.lt? c = some true → a.lt? c = some true) ∧
      (a.same b = true →
        (∀ (α β : Type) (ofKind : Kind.Hash β) (ofPair : β × String → α) (ofWord : String → α),
          a.hashed ofKind ofPair ofWord = b.hashed ofKind ofPair ofWord) ∧
        ((∀ t, comparisons a t = comparisons b t ∧ comparisons t a = comparisons t b) ↔ ¬k.Splits l)) ∧
      (k.IsBundled → l.IsBundled → ((k.Ties l ∨ k.Splits l) ↔ k.Mimics l ∨ l.Mimics k)) := by
  intro a b c
  refine ⟨?_, ?_, ?_, ?_, fun same => ⟨?_, ?_⟩, fun hk hl => ?_⟩
  · have agree : ¬(k.Ties l ∨ k.Splits l) ↔ (k.same l = true ↔ k.key = l.key) := Kind.agree_iff.symm
    rw [ordered_iff, same_lexeme, orderKey_eq_iff, not_and, agree]
    by_cases h : v = w <;> simp [h]
  · rintro rfl ties
    simpa using ⟨comparisons_of_ties ties, comparisons_of_ties ties.symm⟩
  · rintro rfl splits
    exact comparisons_of_splits splits
  · simp only [a, b, c, lt?_lexeme, Option.some.injEq, decide_eq_true_iff]
    exact lt_trans
  · exact fun _ _ => hashed_of_same same
  · have equal : k.same l = true := (Bool.and_eq_true_iff.mp same).1
    rw [comparisons_alike_iff same, Kind.Splits, equal, and_iff_right rfl, not_not]
  · rw [← not_iff_not, ← Kind.agree_iff, hk.agree_iff hl]

/-- Two enumerations of one name, and a member of a third that is equal to a text. -/
example :
    let star : Kind := .other (.member { name := "Mark" } "STAR")
    let namesake : Kind := .other (.member { name := "Mark", serial := 1 } "STAR")
    let worded : Kind := .other (.member { name := "Mark", serial := 2, worths := [("STAR", .text "*")] } "STAR")
    star.Ties namesake ∧ worded.Splits (.text "*") ∧ ¬star.Splits (.text "*") := by
  decide

/-- A text that is spelled like a symbol, and the symbol: neither is less, they are not the same, and each is greater
than the other. -/
theorem mimic_unordered :
    let a := lexeme (.text "CKind.IDENT") "x" none
    let b := lexeme (.c .ident) "x" none
    [a.lt? b, some (a.same b), b.lt? a].count (some true) = 0 ∧ a.le? b ≠ b.ge? a ∧ a.lt? b ≠ b.gt? a ∧
      a.gt? b = some true ∧ b.gt? a = some true := by
  decide

end Token
end BindingPower
