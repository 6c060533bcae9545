import BindingPower.Proofs.Registration

/-! Registering one rule for many kinds. It is registering the kinds one by one, as far as none is there
already, be it from before or from earlier in the list; the next kind, if there is one, is the clash that is
reported, and nothing else is touched. -/
namespace BindingPower

/-- The forms that register one rule for many kinds, without the kinds. -/
inductive Bulk
  | prefixes (power : Int) (action : Token → Int → Action Node)
  | infixes (power : Int) (action : Token → Int → Node → Action Node)
  | infixesAsym (left right : Int) (action : Token → Int → Node → Action Node)
  | decoratedPrefix (power : Option Int) (action : Token → Int → Action Node)
  | decoratedInfix (power : Int) (action : Token → Int → Node → Action Node)
  | decoratedInfixAsym (left right : Int) (action : Token → Int → Node → Action Node)

namespace Bulk

/-- The form applied to kinds. -/
def all (kinds : List Kind) : Bulk → Operation
  | prefixes power action => .addPrefixes kinds power action
  | infixes power action => .addInfixes kinds power action
  | infixesAsym left right action => .addInfixesAsym kinds left right action
  | decoratedPrefix power action => .decoratePrefix kinds power action
  | decoratedInfix power action => .decorateInfix kinds power action
  | decoratedInfixAsym left right action => .decorateInfixAsym kinds left right action

/-- The registration of the same rule for one kind. -/
def one (kind : Kind) : Bulk → Operation
  | prefixes power action => .addPrefix kind power action
  | infixes power action => .addInfix kind power action
  | infixesAsym left right action => .addInfixAsym kind left right action
  | decoratedPrefix power action => .addPrefix kind (power.getD Level.root) action
  | decoratedInfix power action => .addInfix kind power action
  | decoratedInfixAsym left right action => .addInfixAsym kind left right action

/-- The table that the form is for. -/
def role : Bulk → Role
  | prefixes .. | decoratedPrefix .. => .starting
  | infixes .. | infixesAsym .. | decoratedInfix .. | decoratedInfixAsym .. => .continuing

def entry (b : Bulk) (kind : Kind) : Entry :=
  match b with
  | prefixes power action => .starting kind ⟨power, action⟩
  | infixes power action => .continuing kind ⟨power, power, action⟩
  | infixesAsym left right action => .continuing kind ⟨left, right, action⟩
  | decoratedPrefix power action => .starting kind ⟨power.getD Level.root, action⟩
  | decoratedInfix power action => .continuing kind ⟨power, power, action⟩
  | decoratedInfixAsym left right action => .continuing kind ⟨left, right, action⟩

variable (b : Bulk) {s : Spec} {kind other : Kind} {kinds : List Kind}

theorem apply_all (s : Spec) (kinds : List Kind) :
    (b.all kinds).apply s = Operation.apply.replied (s.registerAll (kinds.map b.entry)) := by
  rw [Operation.apply_of_not_hands (by cases b <;> exact id)]
  cases b <;> rfl

theorem apply_one (s : Spec) (kind : Kind) :
    (b.one kind).apply s = Operation.apply.replied (s.register (b.entry kind)) := by
  cases b <;> rfl

theorem role_entry (kind : Kind) : (b.entry kind).role = b.role := by
  cases b <;> rfl

theorem register_of_taken (hs : s.sealed = false) (ht : s.Taken (b.entry kind)) :
    s.register (b.entry kind) = (s, some (.duplicate kind b.role)) := by
  cases b <;> simp_all [Spec.register, entry, Spec.Taken, Spec.addPrefix, Spec.addInfix, role]

theorem register_of_free (hs : s.sealed = false) (hf : ¬s.Taken (b.entry kind)) :
    s.register (b.entry kind) = (s.push (b.entry kind), none) := by
  obtain ⟨sealed, -⟩ | ⟨-, taken, -⟩ | ⟨-, -, pushed⟩ := Spec.register_cases s (b.entry kind)
  · exact absurd hs (by simp [sealed])
  · exact absurd taken hf
  · exact pushed

/-- An entry that got in stands in the way of its own kind, and of no other. -/
theorem taken_push_iff (hf : ¬s.Taken (b.entry kind)) :
    (s.push (b.entry kind)).Taken (b.entry other) ↔ other.same kind ∨ s.Taken (b.entry other) := by
  have extended := Spec.extends_push hf
  have starting := extended.starting other
  have continuing := extended.continuing other
  cases h : other.same kind <;>
    cases b <;> simp_all [Spec.Taken, entry, Entry.prefixRule?, Entry.infixRule?]

/-- Kinds that are all different, and that a table has no rule for. -/
def Fresh (s : Spec) (kinds : List Kind) : Prop :=
  Kind.Distinct kinds ∧ ∀ kind ∈ kinds, ¬s.Taken (b.entry kind)

variable {b}

theorem fresh_cons_iff (hf : ¬s.Taken (b.entry kind)) :
    b.Fresh s (kind :: kinds) ↔ b.Fresh (s.push (b.entry kind)) kinds := by
  simp only [Fresh, Kind.Distinct, List.pairwise_cons, List.forall_mem_cons, taken_push_iff b hf, not_or,
    Bool.not_eq_true, Kind.same_comm _ kind]
  constructor
  · rintro ⟨⟨absent, distinct⟩, -, apart⟩
    exact ⟨distinct, fun other member => ⟨absent other member, apart other member⟩⟩
  · rintro ⟨distinct, apart⟩
    exact ⟨⟨fun other member => (apart other member).1, distinct⟩, hf, fun other member => (apart other member).2⟩

/-- The longest initial segment of fresh kinds. -/
structure LongestFresh (b : Bulk) (s : Spec) (kinds segment : List Kind) : Prop where
  initial : segment <+: kinds
  fresh : b.Fresh s segment
  longest : ∀ other, other <+: kinds → b.Fresh s other → other <+: segment

theorem longestFresh_nil : b.LongestFresh s [] [] where
  initial := List.prefix_rfl
  fresh := ⟨.nil, List.forall_mem_nil _⟩
  longest _ initial _ := initial

theorem longestFresh_of_taken (ht : s.Taken (b.entry kind)) : b.LongestFresh s (kind :: kinds) [] where
  initial := List.nil_prefix
  fresh := ⟨.nil, List.forall_mem_nil _⟩
  longest other initial fresh := by
    rcases List.prefix_cons_iff.mp initial with rfl | ⟨others, rfl, -⟩
    · exact List.prefix_rfl
    · exact absurd ht (fresh.2 kind List.mem_cons_self)

theorem LongestFresh.cons {segment : List Kind} (hf : ¬s.Taken (b.entry kind))
    (h : b.LongestFresh (s.push (b.entry kind)) kinds segment) :
    b.LongestFresh s (kind :: kinds) (kind :: segment) where
  initial := List.prefix_cons_inj kind |>.mpr h.initial
  fresh := (fresh_cons_iff hf).mpr h.fresh
  longest other initial fresh := by
    rcases List.prefix_cons_iff.mp initial with rfl | ⟨others, rfl, within⟩
    · exact List.nil_prefix
    · exact List.prefix_cons_inj kind |>.mpr (h.longest others within ((fresh_cons_iff hf).mp fresh))

/-- The error for the kind after those that got in, if there is one. -/
def clash? (b : Bulk) (kinds segment : List Kind) : Option SpecError :=
  (kinds.drop segment.length).head?.map (.duplicate · b.role)

theorem exists_longestFresh (b : Bulk) (kinds : List Kind) {s : Spec} (hs : s.sealed = false) :
    ∃ segment, b.LongestFresh s kinds segment ∧ s.admitted (kinds.map b.entry) = segment.map b.entry ∧
      (s.registerAll (kinds.map b.entry)).2 = b.clash? kinds segment := by
  induction kinds generalizing s with
  | nil => exact ⟨[], longestFresh_nil, rfl, rfl⟩
  | cons kind kinds ih =>
    by_cases ht : s.Taken (b.entry kind)
    · have refused := b.register_of_taken hs ht
      refine ⟨[], longestFresh_of_taken ht, ?_, ?_⟩
      · rw [List.map_cons, Spec.admitted, refused, List.map_nil]
      · rw [List.map_cons, Spec.registerAll, refused]
        rfl
    · have done := b.register_of_free hs ht
      have still : (s.push (b.entry kind)).sealed = false := by cases b <;> exact hs
      obtain ⟨segment, longest, admitted, reply⟩ := ih still
      refine ⟨kind :: segment, longest.cons ht, ?_, ?_⟩
      · rw [List.map_cons, Spec.admitted, done, List.map_cons]
        exact congrArg _ admitted
      · rw [List.map_cons, Spec.registerAll, done]
        exact reply

end Bulk

namespace Spec

/-- The entries that get in make the specification what it becomes. -/
theorem registerAll_admitted (s : Spec) (es : List Entry) :
    s.registerAll (s.admitted es) = ((s.registerAll es).1, none) := by
  induction es generalizing s with
  | nil => rfl
  | cons e es ih =>
    obtain ⟨-, h⟩ | ⟨-, -, clash, h⟩ | ⟨-, -, h⟩ := register_cases s e
    · simp only [admitted, registerAll, h]
    · simp only [admitted, registerAll, h]
    · simpa only [admitted, registerAll, h] using ih _

/-- Rules that are there stay where they are in their tables. -/
theorem rules_prefix_registerAll (s : Spec) (es : List Entry) :
    s.table.prefixRules <+: (s.registerAll es).1.table.prefixRules ∧
      s.table.infixRules <+: (s.registerAll es).1.table.infixRules := by
  induction es generalizing s with
  | nil => exact ⟨List.prefix_rfl, List.prefix_rfl⟩
  | cons e es ih =>
    rw [registerAll]
    obtain ⟨-, h⟩ | ⟨-, -, clash, h⟩ | ⟨-, -, h⟩ := register_cases s e <;> rw [h]
    · exact ⟨List.prefix_rfl, List.prefix_rfl⟩
    · exact ⟨List.prefix_rfl, List.prefix_rfl⟩
    · obtain ⟨starting, continuing⟩ := ih (s.push e)
      cases e with
      | starting kind rule => exact ⟨(List.prefix_append _ _).trans starting, continuing⟩
      | continuing kind rule => exact ⟨starting, (List.prefix_append _ _).trans continuing⟩

end Spec

namespace Bulk
variable {s : Spec} {segment : List Kind}

/-- Kinds none of which is refused can as well be registered one by one. -/
theorem after_one_by_one (b : Bulk) (h : (s.registerAll (segment.map b.entry)).2 = none) :
    s.after (segment.map b.one) = (s.registerAll (segment.map b.entry)).1 ∧
      ∀ earlier kind, earlier ++ [kind] <+: segment →
        ((b.one kind).apply (s.after (earlier.map b.one))).2 = .done := by
  induction segment generalizing s with
  | nil => exact ⟨rfl, fun earlier kind h => by simp at h⟩
  | cons first segment ih =>
    have applied := b.apply_one s first
    simp only [List.map_cons, Spec.registerAll, Spec.after] at h ⊢
    rcases hr : s.register (b.entry first) with ⟨s', _ | clash⟩ <;> rw [hr] at h applied
    · obtain ⟨same, each⟩ := ih h
      have moved : ((b.one first).apply s).1 = s' := congrArg Prod.fst applied
      refine ⟨moved ▸ same, fun earlier kind within => ?_⟩
      cases earlier with
      | nil =>
        obtain ⟨rfl, -⟩ := List.cons_prefix_cons.mp within
        exact congrArg Prod.snd applied
      | cons e earlier =>
        obtain ⟨rfl, further⟩ := List.cons_prefix_cons.mp within
        rw [List.map_cons, Spec.after, moved]
        exact each earlier kind further
    · cases h

/-- Entries say nothing of other kinds. -/
theorem findSome?_entry (b : Bulk) {kind : Kind} (h : ∀ other ∈ segment, kind.same other = false) :
    (segment.map b.entry).findSome? (Entry.prefixRule? kind) = none ∧
      (segment.map b.entry).findSome? (Entry.infixRule? kind) = none := by
  simp only [List.findSome?_eq_none_iff, List.forall_mem_map]
  constructor <;> intro other member <;> have apart := h other member
  · cases b <;> simp [entry, Entry.prefixRule?, apart]
  · cases b <;> simp [entry, Entry.infixRule?, apart]

/-- What a form does to a specification with kinds of which the segment is the longest fresh one. -/
structure Registers (b : Bulk) (s : Spec) (kinds segment : List Kind) : Prop where
  longest : b.LongestFresh s kinds segment
  /-- It comes to registering the segment kind by kind, -/
  state : ((b.all kinds).apply s).1 = s.after (segment.map b.one)
  /-- which succeeds with each kind, unless the specification is sealed. -/
  each : s.sealed = false → ∀ earlier kind, earlier ++ [kind] <+: segment →
    ((b.one kind).apply (s.after (earlier.map b.one))).2 = .done
  /-- The next kind, if there is one, is refused as a duplicate. -/
  reply : s.sealed = false → ((b.all kinds).apply s).2 = .ofError? (b.clash? kinds segment)
  /-- On a sealed specification whatever kinds there are are refused. -/
  refused : s.sealed = true →
    (b.all kinds).apply s = (s, if kinds = [] then .done else .refused .sealed)
  /-- The other table is left alone, -/
  apart : ∀ role, role ≠ b.role → ((b.all kinds).apply s).1.AgreeOn role s
  /-- and so are the rules that were there -/
  kept : s.table.prefixRules <+: ((b.all kinds).apply s).1.table.prefixRules ∧
    s.table.infixRules <+: ((b.all kinds).apply s).1.table.infixRules
  /-- and the kinds that did not get in. -/
  later : ∀ kind : Kind, (∀ other ∈ segment, kind.same other = false) →
    ((b.all kinds).apply s).1.table.prefixRule? kind = s.table.prefixRule? kind ∧
      ((b.all kinds).apply s).1.table.infixRule? kind = s.table.infixRule? kind

variable {b : Bulk} {kinds : List Kind}

theorem registers_of_sealed (hs : s.sealed = true) (h : b.LongestFresh s kinds segment) :
    b.Registers s kinds segment := by
  have refused : (b.all kinds).apply s = (s, if kinds = [] then .done else .refused .sealed) := by
    rw [apply_all]
    by_cases he : kinds = []
    · rw [if_pos he, he]
      rfl
    · rw [if_neg he, Spec.registerAll_of_sealed hs (by simpa using he)]
      rfl
  have state : ((b.all kinds).apply s).1 = s := congrArg Prod.fst refused
  exact
    { longest := h
      state := by rw [state, Spec.after_of_sealed hs]
      each := fun unsealed => absurd (hs.symm.trans unsealed) nofun
      reply := fun unsealed => absurd (hs.symm.trans unsealed) nofun
      refused := fun _ => refused
      apart := fun role _ => by rw [state]; exact .refl s role
      kept := by rw [state]; exact ⟨List.prefix_rfl, List.prefix_rfl⟩
      later := fun kind _ => by rw [state]; exact ⟨rfl, rfl⟩ }

theorem registers_of_unsealed (hs : s.sealed = false) (h : b.LongestFresh s kinds segment)
    (admitted : s.admitted (kinds.map b.entry) = segment.map b.entry)
    (reply : (s.registerAll (kinds.map b.entry)).2 = b.clash? kinds segment) :
    b.Registers s kinds segment := by
  have state : ((b.all kinds).apply s).1 = (s.registerAll (kinds.map b.entry)).1 :=
    congrArg Prod.fst (b.apply_all s kinds)
  have same : s.registerAll (segment.map b.entry) = ((s.registerAll (kinds.map b.entry)).1, none) :=
    admitted ▸ s.registerAll_admitted (kinds.map b.entry)
  obtain ⟨whole, each⟩ := b.after_one_by_one (congrArg Prod.snd same)
  have extended := s.extends_registerAll (kinds.map b.entry)
  rw [admitted] at extended
  refine
    { longest := h
      state := by rw [state, whole, same]
      each := fun _ => each
      reply := fun _ => by rw [← reply, apply_all]; rfl
      refused := fun sealed => absurd (hs.symm.trans sealed) nofun
      apart := fun role other => ?_
      kept := state ▸ s.rules_prefix_registerAll _
      later := fun kind outside => ?_ }
  · rw [state]
    refine Spec.agreeOn_registerAll (fun e member => ?_) s
    obtain ⟨kind, -, rfl⟩ := List.mem_map.mp member
    exact b.role_entry kind ▸ other.symm
  · obtain ⟨starting, continuing⟩ := b.findSome?_entry outside
    rw [state, extended.starting, extended.continuing, starting, continuing, Option.or_none, Option.or_none]
    exact ⟨rfl, rfl⟩

end Bulk

namespace Spec

/-- Every form that registers many kinds registers the longest initial segment of them without repetition or
a kind that is there already, exactly as if they were registered one by one. -/
theorem bulk_registers (s : Spec) (b : Bulk) (kinds : List Kind) :
    ∃ segment, b.Registers s kinds segment := by
  by_cases hs : s.sealed = true
  · -- What is fresh does not depend on the seal.
    obtain ⟨segment, longest, -⟩ := b.exists_longestFresh kinds (s := { s with sealed := false }) rfl
    exact ⟨segment, Bulk.registers_of_sealed hs ⟨longest.initial, longest.fresh, longest.longest⟩⟩
  · rw [Bool.not_eq_true] at hs
    obtain ⟨segment, longest, admitted, reply⟩ := b.exists_longestFresh kinds hs
    exact ⟨segment, Bulk.registers_of_unsealed hs longest admitted reply⟩

/-- A kind that is repeated ends the registration; the kind after it is not looked at. -/
example :
    let first := Operation.addPrefix (.text "x") 1 fun t _ => return .leaf t
    let bulk := Operation.addPrefixes [.text "y", .text "z", .text "y", .text "w"] 2 fun t _ => return .leaf t
    ((bulk.apply (made [first])).1.table.prefixRules.map fun r => (r.1, r.2.power)) =
        [(.text "x", 1), (.text "y", 2), (.text "z", 2)] ∧
      (bulk.apply (made [first])).2 = .refused (.duplicate (.text "y") .starting) :=
  ⟨rfl, rfl⟩

end Spec
end BindingPower
