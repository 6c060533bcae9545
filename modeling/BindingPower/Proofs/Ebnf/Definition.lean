import BindingPower.Proofs.Ebnf.Language

/-! What becomes of an entry. Nothing asks for a colon in it, nor for one only, nor for a name before it: an
entry becomes a definition if it is written as one, and some other tree if not. -/
namespace BindingPower.Ebnf
open ParseM

/-- Whether a definition is the root of a tree. -/
def isRule (n : Node) : Bool := oneOf [.rule] n.token

/-- No definition anywhere in a tree. -/
def Plain (n : Node) : Prop := ∀ m ∈ n.walk, isRule m = false

/-- A name and what it stands for, with no definition inside. -/
def IsDefinition (n : Node) : Prop :=
  ∃ name body, n = .branch (EbnfSymbol.marker .rule) [.leaf name, body] ∧ name.kind = .ebnf .ident ∧ Plain body

/-- Definitions that stand only at the root and on the left below one another. -/
inductive Chained : Node → Prop
  | plain {n : Node} (h : Plain n) : Chained n
  | rule {n m : Node} (h : Chained n) (body : Plain m) : Chained (.branch (EbnfSymbol.marker .rule) [n, m])

/-- A name, a colon and no other colon after it. -/
def Defines (ts : List Token) : Prop :=
  ∃ name colon body, ts = name :: colon :: body ∧ name.kind = .ebnf .ident ∧ colon.kind = .ebnf .colon ∧
    ∀ t ∈ body, t.kind ≠ .ebnf .colon

theorem Readable.derives {ts : List Token} {entries : List (List Token × Node)} (h : Readable ts entries)
    {entry : List Token × Node} (hentry : entry ∈ entries) : Derives .entry entry.1 entry.2 := by
  induction h with
  | unended => cases hentry
  | last h => exact List.mem_singleton.mp hentry ▸ h
  | cons h ht rest ih =>
    rcases List.mem_cons.mp hentry with rfl | hentry
    · exact h
    · exact ih hentry

section Trees
variable {t : Token} {n m : Node} {ns : List Node} {s : EbnfSymbol}

theorem walkAll_eq_flatMap (ns : List Node) : Node.walkAll ns = ns.flatMap Node.walk := by
  induction ns with
  | nil => rfl
  | cons n ns ih => rw [Node.walkAll, List.flatMap_cons, ih]

theorem isRule_eq_false : isRule n = false ↔ n.token.kind ≠ .ebnf .rule := by
  simp [isRule, oneOf]

theorem plain_leaf : Plain (.leaf t) ↔ t.kind ≠ .ebnf .rule := by
  simp [Plain, isRule_eq_false, Node.walk, Node.token]

theorem plain_branch : Plain (.branch t ns) ↔ t.kind ≠ .ebnf .rule ∧ ∀ n ∈ ns, Plain n := by
  simp only [Plain, isRule_eq_false, Node.walk, walkAll_eq_flatMap, List.forall_mem_cons, List.mem_flatMap,
    Node.token]
  refine and_congr_right fun _ => ⟨fun h n hn m hm => h m ⟨n, hn, hm⟩, fun h m inside => ?_⟩
  obtain ⟨n, hn, hm⟩ := inside
  exact h n hn m hm

theorem Plain.ne_rule (h : Plain n) : n.token.kind ≠ .ebnf .rule := by
  cases n with
  | leaf t => exact plain_leaf.mp h
  | branch t ns => exact (plain_branch.mp h).1

theorem plain_mark (h : ∀ n ∈ ns, Plain n) (hs : s ≠ .rule) :
    Plain (.branch (EbnfSymbol.marker s) ns) := by
  refine plain_branch.mpr ⟨fun same => hs ?_, h⟩
  cases same
  rfl

theorem plain_marked (h : Plain n) (ht : t.kind ≠ .ebnf .rule) : Plain (marked n t) := by
  have repeats : Plain (.branch (EbnfSymbol.marker .repeats) [n, .leaf t]) :=
    plain_mark (by simp [h, plain_leaf.mpr ht]) (by decide)
  unfold marked
  split
  · exact plain_mark (by simpa using h) (by decide)
  · split
    · rename_i u ms
      split
      · obtain ⟨root, below⟩ := plain_branch.mp h
        refine plain_branch.mpr ⟨root, fun m hm => ?_⟩
        rcases List.mem_append.mp hm with hm | hm
        · exact below m hm
        · exact List.mem_singleton.mp hm ▸ plain_leaf.mpr ht
      · exact repeats
    · exact repeats

theorem plain_sideBySide (h : ∀ n ∈ ns, Plain n) : Plain (sideBySide ns) := by
  unfold sideBySide
  split
  · exact h _ List.mem_cons_self
  · exact plain_mark h (by decide)

end Trees

section Derivations
variable {σ : Stratum} {t : Token} {ts : List Token} {n m : Node}

theorem ne_rule_of_mem {symbols : List EbnfSymbol} {s : EbnfSymbol} (hs : s ∈ symbols)
    (h : .rule ∉ symbols) (ht : t.kind = .ebnf s) : t.kind ≠ .ebnf .rule := by
  rw [ht]
  rintro ⟨⟩
  exact h hs

/-- There are no definitions but those that colons make. -/
theorem Derives.plain_of (h : Derives σ ts n) (hσ : σ ≠ .entry) : Plain n := by
  induction h with
  | element hs ht => exact plain_leaf.mpr (ne_rule_of_mem hs (by decide) ht)
  | group hl hr inner ih => exact plain_mark (by simpa using ih (by decide)) (by decide)
  | mark hs ht h ih => exact plain_marked (ih (by decide)) (ne_rule_of_mem hs (by decide) ht)
  | sequence hne h ih =>
    refine plain_sideBySide fun m hm => ?_
    obtain ⟨x, hx, rfl⟩ := List.mem_map.mp hm
    exact ih x hx (by decide)
  | single h ih => exact ih (by decide)
  | choice ht h next ih ihn =>
    refine plain_branch.mpr ⟨by simp [ht], ?_⟩
    simpa using ⟨ih (by decide), ihn (by decide)⟩
  | plain | rule => exact absurd rfl hσ

theorem Derives.chained (h : Derives .entry ts n) : Chained n := by
  generalize hσ : Stratum.entry = σ at h
  induction h with
  | plain h => exact .plain (h.plain_of (by decide))
  | rule ht h next ih => exact .rule (ih hσ) (next.plain_of (by decide))
  | _ => cases hσ

/-- One token alone is the leaf of it. -/
theorem Derives.eq_leaf (h : Derives σ [t] n) : n = .leaf t := by
  have alone {us vs : List Token} (hts : [t] = us ++ vs) (hne : us ≠ []) : us = [t] ∧ vs = [] :=
    (List.append_eq_singleton_iff.mp hts.symm).resolve_left fun h => hne h.1
  generalize hts : [t] = ts at h
  induction h with
  | element => rw [(List.cons.inj hts).1]
  | group => simp at hts
  | mark hs hu h => exact absurd (alone hts h.ne_nil).2 (List.cons_ne_nil _ _)
  | @sequence terms hne h ih =>
    obtain ⟨x, terms, rfl⟩ := List.exists_cons_of_ne_nil hne
    obtain ⟨first, rest⟩ := alone hts (h x List.mem_cons_self).ne_nil
    cases terms with
    | nil => exact ih x List.mem_cons_self first.symm
    | cons y terms =>
      have more := (h y (by simp)).ne_nil
      simp [more] at rest
  | single _ ih | plain _ ih => exact ih hts
  | choice hu h next => exact absurd (alone hts h.ne_nil).2 (List.cons_ne_nil _ _)
  | rule hu h next => exact absurd (alone hts h.ne_nil).2 (List.cons_ne_nil _ _)

theorem marked_ne_leaf (n : Node) (t u : Token) : marked n t ≠ .leaf u := by
  unfold marked
  split
  · exact Node.noConfusion
  · split
    · split <;> exact Node.noConfusion
    · exact Node.noConfusion

/-- A leaf comes from its token alone. -/
theorem Derives.eq_singleton (h : Derives σ ts (.leaf t)) : ts = [t] := by
  generalize hn : Node.leaf t = n at h
  induction h with
  | element => rw [Node.leaf.inj hn]
  | group | choice | rule => cases hn
  | mark => exact absurd hn.symm (marked_ne_leaf _ _ _)
  | @sequence terms hne h ih =>
    obtain ⟨x, _ | ⟨y, terms⟩, rfl⟩ := List.exists_cons_of_ne_nil hne
    · simpa using ih x List.mem_cons_self hn
    · cases hn
  | single _ ih | plain _ ih => exact ih hn

theorem Derives.no_colon (h : Derives σ ts n) (hσ : σ ≠ .entry) : ∀ t ∈ ts, t.kind ≠ .ebnf .colon := by
  intro t ht colon
  have others : .colon ∉ phraseSymbols := by decide
  obtain ⟨s, hs, kind⟩ := (h.symbols ht).resolve_right fun h => hσ h.2
  cases colon.symm.trans kind
  exact others hs

/-- An entry becomes a definition exactly if it is written as one. -/
theorem Derives.isDefinition_iff (h : Derives .entry ts n) : IsDefinition n ↔ Defines ts := by
  cases h with
  | plain h =>
    refine ⟨fun ⟨name, body, hn, _, _⟩ => ?_, fun ⟨name, colon, body, hts, _, kind, _⟩ => ?_⟩
    · have plain := (h.plain_of (by decide)).ne_rule
      rw [hn] at plain
      exact absurd rfl plain
    · exact absurd kind (h.no_colon (by decide) colon (by simp [hts]))
  | @rule c ts us n m hc h next =>
    constructor
    · rintro ⟨name, body, hn, kind, plain⟩
      obtain ⟨-, hns⟩ := Node.branch.inj hn
      obtain ⟨rfl, -⟩ := List.cons.inj hns
      exact ⟨name, c, us, by rw [h.eq_singleton]; rfl, kind, hc, next.no_colon (by decide)⟩
    · rintro ⟨name, colon, body, hts, kind, -, none⟩
      obtain ⟨u, ts, rfl⟩ := List.exists_cons_of_ne_nil h.ne_nil
      obtain ⟨rfl, after⟩ := List.cons.inj hts
      cases ts with
      | nil =>
        rw [h.eq_leaf]
        exact ⟨u, m, rfl, kind, next.plain_of (by decide)⟩
      | cons v ts =>
        have more : v :: (ts ++ c :: us) = colon :: body := after
        obtain ⟨-, rfl⟩ := List.cons.inj more
        exact absurd hc (none c (by simp))

/-- An entry has as many definitions in it as colons. -/
theorem Derives.countP_rule (h : Derives .entry ts n) :
    n.walk.countP isRule = ts.countP (oneOf [.colon]) := by
  have none {σ : Stratum} {ts : List Token} {n : Node} (h : Derives σ ts n) (hσ : σ ≠ .entry) :
      n.walk.countP isRule = 0 ∧ ts.countP (oneOf [.colon]) = 0 := by
    constructor
    · exact List.countP_eq_zero.mpr fun m hm => by simp [h.plain_of hσ m hm]
    · exact List.countP_eq_zero.mpr fun t ht => by simpa [oneOf] using h.no_colon hσ t ht
  generalize hσ : Stratum.entry = σ at h
  induction h with
  | plain h =>
    obtain ⟨rules, colons⟩ := none h (by decide)
    rw [rules, colons]
  | rule ht h next ih =>
    obtain ⟨rules, colons⟩ := none next (by decide)
    have root (ns : List Node) : isRule (.branch (EbnfSymbol.marker .rule) ns) = true := rfl
    simp [Node.walk, Node.walkAll, ih hσ, rules, colons, root, oneOf_of_kind ht]
  | _ => cases hσ

end Derivations

/-- All of a text that is accepted is entries with semicolons between them, but for a last one that breaks
off. What becomes of an entry has as many definitions in it as there are colons, at the root and on the left
below one another; it is a definition as documented exactly if the entry is a name, a colon and more without
a colon. -/
theorem readable_of_parse {text : String} {limit : Option Int} {ns : List Node}
    (h : Grammar.ebnf.parse text limit = .ok ns) :
    ∃ entries, Readable (ScanRule.scan lexemes text).tokens entries ∧ entries.map Prod.snd = ns ∧
      ∀ entry ∈ entries, Chained entry.2 ∧
        entry.2.walk.countP isRule = entry.1.countP (oneOf [.colon]) ∧
        (IsDefinition entry.2 ↔ Defines entry.1) := by
  have bundled : Grammar.ebnf ∈ Grammar.bundled := by simp [Grammar.bundled]
  have unlimited := Grammar.parse_unlimited bundled h
  have parsed : Grammar.ebnf.parse text none = (parser.perform program (Grammar.ebnf.start text)).1 := rfl
  rw [parsed, Parser.perform_eq] at unlimited
  have start : (Grammar.ebnf.start text).input = ScanRule.scan lexemes text := rfl
  have plain := ScanRule.plain_scan lexemes text
  obtain ⟨scanned, -⟩ := (leads_program plain).holds _ start ns unlimited
  have whole : ScanRule.scan lexemes text = ⟨(ScanRule.scan lexemes text).tokens, none⟩ := by
    rw [← scanned]
  have sound := (program_readable (whole ▸ plain)).holds _ (start.trans whole)
  rw [unlimited] at sound
  obtain ⟨entries, readable, trees⟩ := sound
  refine ⟨entries, readable, trees, fun entry hentry => ?_⟩
  have derived := readable.derives hentry
  exact ⟨derived.chained, derived.countP_rule, derived.isDefinition_iff⟩

/-- A definition and an entry that only begins like one. -/
theorem readable_of_parse_pair :
    let text := "a : b ; c : d : e ;"
    ∃ ns entries, Grammar.ebnf.parse text (some 9) = .ok ns ∧ entries.map Prod.snd = ns ∧
      entries.length = 2 ∧ Readable (ScanRule.scan lexemes text).tokens entries ∧
      ∀ entry ∈ entries, IsDefinition entry.2 ↔ Defines entry.1 := by
  have count : (Grammar.ebnf.parse "a : b ; c : d : e ;" (some 9)).toOption.map List.length = some 2 := by
    decide +kernel
  rcases h : Grammar.ebnf.parse "a : b ; c : d : e ;" (some 9) with e | ns <;> rw [h] at count
  · cases count
  · obtain ⟨entries, readable, trees, each⟩ := readable_of_parse h
    refine ⟨ns, entries, h, trees, ?_, readable, fun entry hentry => (each entry hentry).2.2⟩
    rw [← Option.some.inj count, ← trees, List.length_map]

/-- An entry without a colon is a tree all the same, and one with two colons holds a definition inside
another. -/
theorem parse_without_colon :
    let leaf (name : String) (place : Int) : Node := .leaf (.lexeme (.ebnf .ident) name (some place))
    let inner : Node := .branch (EbnfSymbol.marker .rule) [leaf "a" 0, leaf "b" 4]
    let outer : Node := .branch (EbnfSymbol.marker .rule) [inner, leaf "c" 8]
    Grammar.ebnf.parse "a ;" none = .ok [leaf "a" 0] ∧ ¬IsDefinition (leaf "a" 0) ∧
      Grammar.ebnf.parse "a : b : c ;" none = .ok [outer] ∧ ¬IsDefinition outer := by
  intro leaf inner outer
  refine ⟨by decide +kernel, ?_, by decide +kernel, ?_⟩
  · rintro ⟨name, body, h, -⟩
    cases h
  · rintro ⟨name, body, h, -⟩
    obtain ⟨-, children⟩ := Node.branch.inj h
    exact Node.noConfusion (List.cons.inj children).1

end BindingPower.Ebnf
