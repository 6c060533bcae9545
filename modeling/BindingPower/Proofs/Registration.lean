import BindingPower.Parser

/-! A specification is write-once and sealing it is final: what any sequence of operations on one
specification, from the empty one on, leaves in its tables and answers to what follows. -/
namespace BindingPower

/-- No two of the kinds are the same. -/
def Kind.Distinct (kinds : List Kind) : Prop := kinds.Pairwise fun k l => k.same l = false

/-- A rule with the kind it is offered for, to one of the two tables. -/
inductive Entry
  | starting (kind : Kind) (rule : PrefixRule)
  | continuing (kind : Kind) (rule : InfixRule)

namespace Entry

def role : Entry → Role
  | starting .. => .starting
  | continuing .. => .continuing

/-- The rule, if it is one that starts expressions with this kind. -/
def prefixRule? (kind : Kind) : Entry → Option PrefixRule
  | starting k rule => if kind.same k then some rule else none
  | continuing .. => none

/-- The rule, if it is one that continues expressions with this kind. -/
def infixRule? (kind : Kind) : Entry → Option InfixRule
  | starting .. => none
  | continuing k rule => if kind.same k then some rule else none

end Entry

/-- What is done with a specification. A decorator registers where it is applied, at the lowest
rank unless a power is named; handing the specification to a parser builds it. -/
inductive Operation
  | addPrefix (kind : Kind) (power : Int) (action : Token → Int → Action Node)
  | addInfix (kind : Kind) (power : Int) (action : Token → Int → Node → Action Node)
  | addInfixAsym (kind : Kind) (left right : Int) (action : Token → Int → Node → Action Node)
  | addPrefixes (kinds : List Kind) (power : Int) (action : Token → Int → Action Node)
  | addInfixes (kinds : List Kind) (power : Int) (action : Token → Int → Node → Action Node)
  | addInfixesAsym (kinds : List Kind) (left right : Int)
      (action : Token → Int → Node → Action Node)
  | decoratePrefix (kinds : List Kind) (power : Option Int) (action : Token → Int → Action Node)
  | decorateInfix (kinds : List Kind) (power : Int) (action : Token → Int → Node → Action Node)
  | decorateInfixAsym (kinds : List Kind) (left right : Int)
      (action : Token → Int → Node → Action Node)
  | build
  | parser (classifier : Classifier) (limit : Option Int)

inductive Reply
  | done
  | refused (e : SpecError)
  | table (t : RuleTable)
  | parser (p : Parser)

namespace Reply

def ofError? : Option SpecError → Reply
  | none => done
  | some e => refused e

/-- The table that was handed out. -/
def table? : Reply → Option RuleTable
  | table t => some t
  | parser p => some p.table
  | _ => none

end Reply

namespace Spec

def register (s : Spec) : Entry → Registered
  | .starting kind rule => s.addPrefix kind rule
  | .continuing kind rule => s.addInfix kind rule

/-- One entry after the other, up to the first that is refused. -/
def registerAll (s : Spec) : List Entry → Registered
  | [] => (s, none)
  | e :: es =>
    match s.register e with
    | (s, none) => s.registerAll es
    | failed => failed

/-- The entries that get in before one is refused. -/
def admitted (s : Spec) : List Entry → List Entry
  | [] => []
  | e :: es =>
    match s.register e with
    | (s, none) => e :: s.admitted es
    | _ => []

end Spec

namespace Operation

def apply (s : Spec) : Operation → Spec × Reply
  | addPrefix kind power action => replied (s.addPrefix kind ⟨power, action⟩)
  | addInfix kind power action => replied (s.addInfix kind ⟨power, power, action⟩)
  | addInfixAsym kind left right action => replied (s.addInfix kind ⟨left, right, action⟩)
  | addPrefixes kinds power action => replied (s.addPrefixes kinds ⟨power, action⟩)
  | addInfixes kinds power action => replied (s.addInfixes kinds ⟨power, power, action⟩)
  | addInfixesAsym kinds left right action => replied (s.addInfixes kinds ⟨left, right, action⟩)
  | decoratePrefix kinds power action =>
    replied (s.addPrefixes kinds ⟨power.getD Level.root, action⟩)
  | decorateInfix kinds power action => replied (s.addInfixes kinds ⟨power, power, action⟩)
  | decorateInfixAsym kinds left right action => replied (s.addInfixes kinds ⟨left, right, action⟩)
  | build => (s.build.2, .table s.build.1)
  | parser classifier limit => (s.build.2, .parser ⟨s.build.1, classifier, limit⟩)
where
  replied (r : Registered) : Spec × Reply := (r.1, .ofError? r.2)

/-- Whether the operation hands out the table. -/
def Hands : Operation → Prop
  | build | parser .. => True
  | _ => False

/-- The table that a registration is for. -/
def role? : Operation → Option Role
  | addPrefix .. | addPrefixes .. | decoratePrefix .. => some .starting
  | addInfix .. | addInfixAsym .. | addInfixes .. | addInfixesAsym .. | decorateInfix ..
  | decorateInfixAsym .. => some .continuing
  | build | parser .. => none

/-- What a registration offers, in order. -/
def entries : Operation → List Entry
  | addPrefix kind power action => [.starting kind ⟨power, action⟩]
  | addInfix kind power action => [.continuing kind ⟨power, power, action⟩]
  | addInfixAsym kind left right action => [.continuing kind ⟨left, right, action⟩]
  | addPrefixes kinds power action => kinds.map (.starting · ⟨power, action⟩)
  | addInfixes kinds power action => kinds.map (.continuing · ⟨power, power, action⟩)
  | addInfixesAsym kinds left right action => kinds.map (.continuing · ⟨left, right, action⟩)
  | decoratePrefix kinds power action => kinds.map (.starting · ⟨power.getD Level.root, action⟩)
  | decorateInfix kinds power action => kinds.map (.continuing · ⟨power, power, action⟩)
  | decorateInfixAsym kinds left right action => kinds.map (.continuing · ⟨left, right, action⟩)
  | build | parser .. => []

end Operation

namespace Spec

/-- What operations leave of a specification. -/
def after (s : Spec) : List Operation → Spec
  | [] => s
  | op :: ops => (op.apply s).1.after ops

/-- The registrations that succeed in a run of operations, kind by kind, in order. -/
def history (s : Spec) : List Operation → List Entry
  | [] => []
  | op :: ops => s.admitted op.entries ++ (op.apply s).1.history ops

theorem after_append (s : Spec) (ops more : List Operation) :
    s.after (ops ++ more) = (s.after ops).after more := by
  induction ops generalizing s with
  | nil => rfl
  | cons op ops ih => exact ih _

/-- The entry at the end of its table. -/
def push (s : Spec) : Entry → Spec
  | .starting kind rule =>
    { s with table.prefixRules := s.table.prefixRules ++ [(kind, rule)] }
  | .continuing kind rule =>
    { s with table.infixRules := s.table.infixRules ++ [(kind, rule)] }

/-- Whether the entry's table has a rule for its kind. -/
def Taken (s : Spec) : Entry → Prop
  | .starting kind _ => (s.table.prefixRule? kind).isSome
  | .continuing kind _ => (s.table.infixRule? kind).isSome

/-- All that a registration can do. The seal is looked at first. -/
theorem register_cases (s : Spec) (e : Entry) :
    (s.sealed = true ∧ s.register e = (s, some .sealed)) ∨
    (s.sealed = false ∧ s.Taken e ∧ ∃ clash, s.register e = (s, some clash)) ∨
    (s.sealed = false ∧ ¬s.Taken e ∧ s.register e = (s.push e, none)) := by
  by_cases hs : s.sealed <;> by_cases ht : s.Taken e <;> cases e <;>
    simp_all [register, addPrefix, addInfix, Taken, push]

theorem addPrefixes_eq (s : Spec) (kinds : List Kind) (rule : PrefixRule) :
    s.addPrefixes kinds rule = s.registerAll (kinds.map (.starting · rule)) := by
  induction kinds generalizing s with
  | nil => rfl
  | cons kind kinds ih =>
    rw [addPrefixes, List.map_cons, registerAll, register]
    rcases s.addPrefix kind rule with ⟨s', _ | clash⟩
    · exact ih s'
    · rfl

theorem addInfixes_eq (s : Spec) (kinds : List Kind) (rule : InfixRule) :
    s.addInfixes kinds rule = s.registerAll (kinds.map (.continuing · rule)) := by
  induction kinds generalizing s with
  | nil => rfl
  | cons kind kinds ih =>
    rw [addInfixes, List.map_cons, registerAll, register]
    rcases s.addInfix kind rule with ⟨s', _ | clash⟩
    · exact ih s'
    · rfl

theorem registerAll_singleton (s : Spec) (e : Entry) : s.registerAll [e] = s.register e := by
  obtain ⟨-, h⟩ | ⟨-, -, clash, h⟩ | ⟨-, -, h⟩ := register_cases s e <;> simp [registerAll, h]

end Spec

namespace Operation

/-- A registration is the registration of its entries, whatever its form. -/
theorem apply_of_not_hands {op : Operation} (h : ¬op.Hands) (s : Spec) :
    op.apply s = apply.replied (s.registerAll op.entries) := by
  cases op with
  | addPrefix => rw [entries, Spec.registerAll_singleton]; rfl
  | addInfix => rw [entries, Spec.registerAll_singleton]; rfl
  | addInfixAsym => rw [entries, Spec.registerAll_singleton]; rfl
  | addPrefixes => rw [entries, ← Spec.addPrefixes_eq]; rfl
  | addInfixes => rw [entries, ← Spec.addInfixes_eq]; rfl
  | addInfixesAsym => rw [entries, ← Spec.addInfixes_eq]; rfl
  | decoratePrefix => rw [entries, ← Spec.addPrefixes_eq]; rfl
  | decorateInfix => rw [entries, ← Spec.addInfixes_eq]; rfl
  | decorateInfixAsym => rw [entries, ← Spec.addInfixes_eq]; rfl
  | build => exact absurd trivial h
  | parser => exact absurd trivial h

theorem apply_of_hands {op : Operation} (h : op.Hands) (s : Spec) :
    (op.apply s).1 = { s with sealed := true } ∧ (op.apply s).2.table? = some s.table ∧
      op.entries = [] ∧ op.role? = none := by
  cases op with
  | build | parser => exact ⟨rfl, rfl, rfl, rfl⟩
  | _ => exact h.elim

end Operation

namespace Spec

/-- The second specification has the rules of the first and, for kinds without one, those of the
entries. -/
structure Extends (s : Spec) (es : List Entry) (s' : Spec) : Prop where
  starting : ∀ kind, s'.table.prefixRule? kind =
    (s.table.prefixRule? kind).or (es.findSome? (Entry.prefixRule? kind))
  continuing : ∀ kind, s'.table.infixRule? kind =
    (s.table.infixRule? kind).or (es.findSome? (Entry.infixRule? kind))
  distinct_starting : Kind.Distinct (s.table.prefixRules.map Prod.fst) →
    Kind.Distinct (s'.table.prefixRules.map Prod.fst)
  distinct_continuing : Kind.Distinct (s.table.infixRules.map Prod.fst) →
    Kind.Distinct (s'.table.infixRules.map Prod.fst)

theorem Extends.of_table {s s' : Spec} (h : s'.table = s.table) : s.Extends [] s' where
  starting := by simp [h]
  continuing := by simp [h]
  distinct_starting := by simp [h]
  distinct_continuing := by simp [h]

theorem Extends.trans {s s' s'' : Spec} {es fs : List Entry} (h : s.Extends es s')
    (h' : s'.Extends fs s'') : s.Extends (es ++ fs) s'' where
  starting kind := by rw [h'.starting, h.starting, List.findSome?_append, Option.or_assoc]
  continuing kind := by rw [h'.continuing, h.continuing, List.findSome?_append, Option.or_assoc]
  distinct_starting := h'.distinct_starting ∘ h.distinct_starting
  distinct_continuing := h'.distinct_continuing ∘ h.distinct_continuing

private theorem distinct_snoc {α : Type 1} {rules : List (Kind × α)} {k : Kind} {rule : α}
    (hf : ¬(k.lookup rules).isSome) (hd : Kind.Distinct (rules.map Prod.fst)) :
    Kind.Distinct ((rules ++ [(k, rule)]).map Prod.fst) := by
  have free : ∀ e ∈ rules, k.same e.1 = false := Kind.lookup_eq_none_iff.mp (by simpa using hf)
  rw [List.map_append, Kind.Distinct, List.pairwise_append]
  refine ⟨hd, List.pairwise_singleton _ _, fun l hl other member => ?_⟩
  obtain ⟨e, he, rfl⟩ := List.mem_map.mp hl
  rw [List.mem_singleton.mp member, Kind.same_comm]
  exact free e he

theorem extends_push {s : Spec} {e : Entry} (h : ¬s.Taken e) : s.Extends [e] (s.push e) := by
  cases e with
  | starting k rule =>
    exact ⟨fun kind => by simp [push, RuleTable.prefixRule?, Kind.lookup_snoc, Entry.prefixRule?],
      fun kind => by simp [push, RuleTable.infixRule?, Entry.infixRule?], distinct_snoc h, id⟩
  | continuing k rule =>
    exact ⟨fun kind => by simp [push, RuleTable.prefixRule?, Entry.prefixRule?],
      fun kind => by simp [push, RuleTable.infixRule?, Kind.lookup_snoc, Entry.infixRule?], id,
      distinct_snoc h⟩

theorem extends_registerAll (s : Spec) (es : List Entry) :
    s.Extends (s.admitted es) (s.registerAll es).1 := by
  induction es generalizing s with
  | nil => exact .of_table rfl
  | cons e es ih =>
    obtain ⟨-, h⟩ | ⟨-, -, clash, h⟩ | ⟨-, hf, h⟩ := register_cases s e
    · simpa only [registerAll, admitted, h] using Extends.of_table rfl
    · simpa only [registerAll, admitted, h] using Extends.of_table rfl
    · simpa only [registerAll, admitted, h, List.singleton_append] using (extends_push hf).trans (ih _)

theorem extends_apply (s : Spec) (op : Operation) : s.Extends (s.admitted op.entries) (op.apply s).1 := by
  by_cases h : op.Hands
  · obtain ⟨hs, -, he, -⟩ := op.apply_of_hands h s
    rw [hs, he]
    exact .of_table rfl
  · rw [op.apply_of_not_hands h]
    exact extends_registerAll s op.entries

theorem extends_after (s : Spec) (ops : List Operation) : s.Extends (s.history ops) (s.after ops) := by
  induction ops generalizing s with
  | nil => exact .of_table rfl
  | cons op ops ih => exact (extends_apply s op).trans (ih _)

/-! ### The seal -/

theorem registerAll_of_sealed {s : Spec} (h : s.sealed = true) {es : List Entry} (hes : es ≠ []) :
    s.registerAll es = (s, some .sealed) := by
  obtain ⟨e, es, rfl⟩ := List.exists_cons_of_ne_nil hes
  simp [registerAll, (register_cases s e).resolve_right (by simp [h]) |>.2]

theorem apply_of_sealed {s : Spec} (h : s.sealed = true) (op : Operation) : (op.apply s).1 = s := by
  by_cases ho : op.Hands
  · rw [(op.apply_of_hands ho s).1, ← h]
  · rw [op.apply_of_not_hands ho]
    by_cases he : op.entries = []
    · rw [he]; rfl
    · rw [registerAll_of_sealed h he]; rfl

theorem after_of_sealed {s : Spec} (h : s.sealed = true) (ops : List Operation) : s.after ops = s := by
  induction ops with
  | nil => rfl
  | cons op ops ih => rw [after, apply_of_sealed h, ih]

theorem sealed_after {ops : List Operation} {op : Operation} (hm : op ∈ ops) (ho : op.Hands) (s : Spec) :
    (s.after ops).sealed = true := by
  obtain ⟨before, later, rfl⟩ := List.append_of_mem hm
  rw [after_append, after, (op.apply_of_hands ho _).1, after_of_sealed rfl]

/-! ### The tables do not touch each other -/

/-- Two specifications with the same rules in one table that are sealed alike. -/
def AgreeOn (role : Role) (s s' : Spec) : Prop :=
  s.sealed = s'.sealed ∧
    match role with
    | .starting => s.table.prefixRules = s'.table.prefixRules
    | .continuing => s.table.infixRules = s'.table.infixRules

theorem AgreeOn.refl (s : Spec) (role : Role) : s.AgreeOn role s := by
  cases role <;> exact ⟨rfl, rfl⟩

theorem AgreeOn.trans {s s' s'' : Spec} {role : Role} (h : s.AgreeOn role s')
    (h' : s'.AgreeOn role s'') : s.AgreeOn role s'' := by
  cases role <;> exact ⟨h.1.trans h'.1, h.2.trans h'.2⟩

theorem AgreeOn.register {s s' : Spec} {e : Entry} (h : s.AgreeOn e.role s') :
    (s.register e).1.AgreeOn e.role (s'.register e).1 ∧ (s.register e).2 = (s'.register e).2 := by
  obtain ⟨⟨rules, others⟩, closed⟩ := s
  obtain ⟨⟨rules', others'⟩, closed'⟩ := s'
  cases e with
  | starting kind rule =>
    obtain ⟨rfl, rfl⟩ : closed = closed' ∧ rules = rules' := h
    cases closed <;> by_cases ht : (kind.lookup rules).isSome <;>
      simp [Spec.register, addPrefix, RuleTable.prefixRule?, ht, AgreeOn, Entry.role]
  | continuing kind rule =>
    obtain ⟨rfl, rfl⟩ : closed = closed' ∧ others = others' := h
    cases closed <;> by_cases ht : (kind.lookup others).isSome <;>
      simp [Spec.register, addInfix, RuleTable.infixRule?, ht, AgreeOn, Entry.role]

theorem agreeOn_register {e : Entry} {role : Role} (h : e.role ≠ role) (s : Spec) :
    (s.register e).1.AgreeOn role s := by
  obtain ⟨-, he⟩ | ⟨-, -, clash, he⟩ | ⟨-, -, he⟩ := register_cases s e
  · exact he ▸ .refl s role
  · exact he ▸ .refl s role
  · rw [he]
    cases e <;> cases role <;> first | exact absurd rfl h | exact ⟨rfl, rfl⟩

theorem AgreeOn.registerAll {s s' : Spec} {role : Role} {es : List Entry} (he : ∀ e ∈ es, e.role = role)
    (h : s.AgreeOn role s') :
    (s.registerAll es).1.AgreeOn role (s'.registerAll es).1 ∧
      (s.registerAll es).2 = (s'.registerAll es).2 := by
  induction es generalizing s s' with
  | nil => exact ⟨h, rfl⟩
  | cons e es ih =>
    rw [List.forall_mem_cons] at he
    obtain ⟨rfl, he⟩ := he
    have hr := h.register
    rw [Spec.registerAll, Spec.registerAll]
    rcases hs : s.register e with ⟨t, _ | clash⟩ <;> rcases hs' : s'.register e with ⟨t', _ | clash'⟩ <;>
      rw [hs, hs'] at hr
    · exact ih he hr.1
    · exact nomatch hr.2
    · exact nomatch hr.2
    · exact hr

theorem agreeOn_registerAll {role : Role} {es : List Entry} (he : ∀ e ∈ es, e.role ≠ role) (s : Spec) :
    (s.registerAll es).1.AgreeOn role s := by
  induction es generalizing s with
  | nil => exact .refl s role
  | cons e es ih =>
    rw [List.forall_mem_cons] at he
    have hr := agreeOn_register he.1 s
    rw [Spec.registerAll]
    rcases hs : s.register e with ⟨t, _ | clash⟩ <;> rw [hs] at hr
    · exact (ih he.2 t).trans hr
    · exact hr

end Spec

theorem Operation.role_of_mem_entries {op : Operation} {role : Role} (h : op.role? = some role) :
    ¬op.Hands ∧ ∀ e ∈ op.entries, e.role = role := by
  cases op <;> simp_all [role?, Hands, entries, Entry.role]

namespace Spec

theorem AgreeOn.apply {s s' : Spec} {role : Role} {op : Operation} (ho : op.role? = some role)
    (h : s.AgreeOn role s') :
    (op.apply s).1.AgreeOn role (op.apply s').1 ∧ (op.apply s).2 = (op.apply s').2 := by
  obtain ⟨hh, he⟩ := op.role_of_mem_entries ho
  obtain ⟨ha, hr⟩ := h.registerAll he
  rw [op.apply_of_not_hands hh, op.apply_of_not_hands hh]
  exact ⟨ha, congrArg Reply.ofError? hr⟩

/-- Leaving out the registrations for one table changes nothing in the other. -/
theorem AgreeOn.after {role : Role} {s s' : Spec} (h : s.AgreeOn role s') (ops : List Operation) :
    (s.after ops).AgreeOn role (s'.after (ops.filter (·.role?.all (· = role)))) := by
  induction ops generalizing s s' with
  | nil => exact h
  | cons op ops ih =>
    rcases ho : op.role? with _ | other
    · have hh : op.Hands := by cases op <;> trivial
      rw [List.filter_cons_of_pos (by simp [ho]), Spec.after, Spec.after,
        (op.apply_of_hands hh s).1, (op.apply_of_hands hh s').1]
      exact ih (by cases role <;> exact ⟨rfl, h.2⟩)
    · by_cases hr : other = role
      · rw [List.filter_cons_of_pos (by simp [ho, hr])]
        exact ih (h.apply (hr ▸ ho)).1
      · obtain ⟨hh, he⟩ := op.role_of_mem_entries ho
        rw [List.filter_cons_of_neg (by simp [ho, hr]), Spec.after, op.apply_of_not_hands hh]
        exact ih ((agreeOn_registerAll (fun e hm => he e hm ▸ hr) s).trans h)

/-- What operations make of the empty specification. -/
def made (ops : List Operation) : Spec := ({} : Spec).after ops

theorem made_append (ops more : List Operation) : made (ops ++ more) = (made ops).after more :=
  after_append {} ops more

/-- The registrations on the empty specification that succeed, in order. -/
def registered (ops : List Operation) : List Entry := ({} : Spec).history ops

/-- What holds of one specification after any operations on it; it starts out empty. -/
structure WriteOnce (ops : List Operation) : Prop where
  /-- At most one rule for each kind. -/
  distinct_starting : Kind.Distinct ((made ops).table.prefixRules.map Prod.fst)
  distinct_continuing : Kind.Distinct ((made ops).table.infixRules.map Prod.fst)
  /-- The rule of a kind is that of the first registration that succeeded. -/
  first_starting : ∀ kind, (made ops).table.prefixRule? kind =
    (registered ops).findSome? (Entry.prefixRule? kind)
  first_continuing : ∀ kind, (made ops).table.infixRule? kind =
    (registered ops).findSome? (Entry.infixRule? kind)
  /-- It is neither replaced nor removed. -/
  kept_starting : ∀ kind rule more, (made ops).table.prefixRule? kind = some rule →
    (made (ops ++ more)).table.prefixRule? kind = some rule
  kept_continuing : ∀ kind rule more, (made ops).table.infixRule? kind = some rule →
    (made (ops ++ more)).table.infixRule? kind = some rule
  /-- Without the registrations for the other table a table has the same rules, and registrations
  for it have the same answers. -/
  apart_starting : let without := made (ops.filter (·.role?.all (· = .starting)))
    (made ops).table.prefixRules = without.table.prefixRules ∧
      ∀ op : Operation, op.role? = some .starting →
        (op.apply (made ops)).2 = (op.apply without).2
  apart_continuing : let without := made (ops.filter (·.role?.all (· = .continuing)))
    (made ops).table.infixRules = without.table.infixRules ∧
      ∀ op : Operation, op.role? = some .continuing →
        (op.apply (made ops)).2 = (op.apply without).2
  /-- Once the table has been handed out, whatever registers a kind is refused and changes nothing. -/
  refused : (∃ op ∈ ops, op.Hands) → ∀ op : Operation, op.entries ≠ [] →
    op.apply (made ops) = (made ops, .refused .sealed)
  /-- The table that is handed out is what the specification looks rules up in, then and after any
  further operations, and what it hands out every further time. -/
  handed : ∀ op : Operation, op.Hands → ∃ table,
    (op.apply (made ops)).2.table? = some table ∧
      ∀ more, (made (ops ++ op :: more)).table = table ∧
        ∀ again : Operation, again.Hands →
          (again.apply (made (ops ++ op :: more))).2.table? = some table

theorem writeOnce (ops : List Operation) : WriteOnce ops := by
  have hx := extends_after {} ops
  refine
    { distinct_starting := hx.distinct_starting .nil
      distinct_continuing := hx.distinct_continuing .nil
      first_starting := hx.starting
      first_continuing := hx.continuing
      kept_starting := fun kind rule more h => ?_
      kept_continuing := fun kind rule more h => ?_
      apart_starting := ?_
      apart_continuing := ?_
      refused := ?_
      handed := fun op ho => ⟨_, (op.apply_of_hands ho _).2.1, fun more => ?_⟩ }
  · rw [made_append, (extends_after _ more).starting, h, Option.some_or]
  · rw [made_append, (extends_after _ more).continuing, h, Option.some_or]
  · have ha := (AgreeOn.refl {} .starting).after ops
    exact ⟨ha.2, fun op ho => (ha.apply ho).2⟩
  · have ha := (AgreeOn.refl {} .continuing).after ops
    exact ⟨ha.2, fun op ho => (ha.apply ho).2⟩
  · rintro ⟨op, hm, ho⟩ op' he
    have hs : (made ops).sealed = true := sealed_after hm ho {}
    have hn : ¬op'.Hands := fun hh => he (op'.apply_of_hands hh {}).2.2.1
    rw [op'.apply_of_not_hands hn, registerAll_of_sealed hs he]
    rfl
  · have hs : (made (ops ++ op :: more)).table = (made ops).table := by
      rw [made_append, after, (op.apply_of_hands ho _).1, after_of_sealed rfl]
    exact ⟨hs, fun again hh => hs ▸ (again.apply_of_hands hh _).2.1⟩

/-- A second rule for a kind is refused, and a third after the table was handed out is refused for
that reason. -/
example :
    let first := Operation.addPrefix (.text "x") 1 fun t _ => return .leaf t
    let second := Operation.decoratePrefix [.text "y", .text "x"] none fun t _ => return .leaf t
    (made [first, second, .build, second]).table.prefixRules.map (fun r => (r.1, r.2.power)) =
        [(.text "x", 1), (.text "y", Level.root)] ∧
      (second.apply (made [first])).2 = .refused (.duplicate (.text "x") .starting) ∧
      (second.apply (made [first, .build])).2 = .refused .sealed :=
  ⟨rfl, rfl, rfl⟩

end Spec
end BindingPower
