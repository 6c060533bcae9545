import BindingPower.Grammar.Bundled
import BindingPower.Proofs.Arithmetic
import BindingPower.Proofs.C.Schema
import BindingPower.Proofs.Origin

/-! Parsing ends in nodes or in an error of the input. No rule of a bundled grammar asks of a token or a
node what it does not have, whatever the text and the limit. -/
namespace BindingPower
open BindingPower.Action Contract

namespace Arithmetic

theorem sound_program : program.Sound :=
  (Sound.asked _).bind fun _ => (Sound.asked _).bind fun next => by
    cases next with
    | none => exact .pure _
    | some t => exact .raise _

theorem parse_ne_defect (text : String) (limit : Option Int) (d : Defect) :
    Grammar.arithmetic.parse text limit ≠ .error (.defect d) := fun h =>
  not_breaks (fun _ => isWord_of_mem_scan) (Parser.breaks_of_perform sound_program (Prod.ext h rfl))

end Arithmetic

namespace Ebnf

/-- Trees whose branches are all under lexemes and have children. -/
inductive Rooted : Node → Prop
  | leaf (t : Token) : Rooted (.leaf t)
  | branch {t : Token} {kind : Kind} {ns : List Node} (ht : t.kind? = some kind) (hne : ns ≠ [])
    (below : ∀ n ∈ ns, Rooted n) : Rooted (.branch t ns)

/-- Lexemes are looked at for their kinds, and nodes for their children. -/
def shape : Contract where
  found t := ∃ kind, t.kind? = some kind
  kindOf := Token.kind
  may _ _ := true
  good _ := Rooted
  fair
    | .error _ => True
    | .defect _ => False

variable {t : Token} {n left : Node}

theorem Rooted.one {kind : Kind} (ht : t.kind? = some kind) (hn : Rooted n) : Rooted (.branch t [n]) :=
  .branch ht (List.cons_ne_nil _ _) (List.forall_mem_singleton.mpr hn)

theorem Rooted.two {kind : Kind} (ht : t.kind? = some kind) (hl : Rooted left) (hn : Rooted n) :
    Rooted (.branch t [left, n]) :=
  .branch ht (List.cons_ne_nil _ _) (by simp [hl, hn])

theorem gives_isBranch (hn : Rooted n) (s : EbnfSymbol) :
    shape.Gives (isBranch n s) fun b => b = true → ∃ t ns, n = .branch t ns := by
  cases hn with
  | leaf t => exact .pure fun h => absurd h Bool.false_ne_true
  | @branch t _ ns ht _ _ => exact (Gives.kindOf ht).bind fun _ _ => .pure fun _ => ⟨t, ns, rfl⟩

/-- A branch may grow by a child. -/
theorem gives_grown {m : Node} (hn : Rooted n) (branch : ∃ t ns, n = .branch t ns) (hm : Rooted m)
    (d : Defect) :
    shape.Gives (match n.withChild? m with | some n => pure n | none => Action.defect d) Rooted := by
  obtain ⟨t, ns, rfl⟩ := branch
  cases hn with
  | branch ht _ below =>
    exact .pure (.branch ht (by simp) (List.forall_mem_append.mpr
      ⟨below, List.forall_mem_singleton.mpr hm⟩))

theorem gives_extendSequence (hl : Rooted left) (hn : Rooted n) :
    shape.Gives (extendSequence left n) Rooted :=
  (gives_isBranch hl _).bind fun _ branch => .ite (fun h => gives_grown hl (branch h) hn _)
    fun _ => .pure (.two rfl hl hn)

theorem gives_onLast {mark : Node → Action Node} (hm : ∀ n, Rooted n → shape.Gives (mark n) Rooted)
    (hl : Rooted left) : shape.Gives (onLast left mark) Rooted := by
  refine (gives_isBranch hl _).bind fun _ branch => .ite (fun h => ?_) fun _ => hm left hl
  obtain ⟨t, ns, rfl⟩ := branch h
  cases hl with
  | branch ht hne below =>
    simp only [Node.children?, Option.getD_some, List.getLast?_eq_some_getLast hne]
    refine (hm _ (below _ (List.getLast_mem hne))).bind fun last hlast => .pure (.branch ht (by simp) ?_)
    refine List.forall_mem_append.mpr ⟨fun m hmem => ?_, List.forall_mem_singleton.mpr hlast⟩
    exact below m (List.dropLast_subset ns hmem)

theorem gives_repeatMark {kind : Kind} (ht : t.kind? = some kind) (hn : Rooted n) :
    shape.Gives (repeatMark t n) Rooted := by
  have marked : shape.Gives (pure (.branch (EbnfSymbol.marker .repeats) [n, .leaf t])) Rooted :=
    .pure (.two rfl hn (.leaf t))
  refine (Gives.kindOf ht).bind fun _ _ => .ite (fun _ => ?_) fun _ => marked
  refine (gives_isBranch hn _).bind fun _ branch => .ite (fun h => ?_) fun _ => marked
  exact gives_grown hn (branch h) (.leaf t) _

theorem gives_group : shape.Gives group Rooted :=
  (Gives.expr _).bind fun _ hn => (Gives.consume _).bind fun _ _ => .pure (.one rfl hn)

theorem binds_shape (limit : Option Int) : shape.Binds (Grammar.ebnf.parser limit) where
  incomplete := trivial
  missingRule _ _ _ := trivial
  consumeFailed _ _ _ := trivial
  tooDeep _ _ := trivial
  classified _ _ _ := rfl
  starting t rule r _ hr _ := by
    have each : rules.Each (fun rule => shape.Gives (rule.action t rule.power) Rooted)
        fun _ => True :=
      each_rules (.pure (.leaf t)) gives_group trivial trivial trivial trivial trivial trivial
    exact each.starting _ rule hr
  continuing := by
    rintro t rule r left ⟨kind, ht⟩ hr _ hl
    have each : rules.Each (fun _ => True)
        fun rule => shape.Gives (rule.action t rule.right left) Rooted :=
      each_rules trivial trivial
        ((Gives.expr _).bind fun _ hn => .pure (.two rfl hl hn))
        ((Gives.expr _).bind fun _ hn => .pure (.two ht hl hn))
        (gives_onLast (fun _ => gives_repeatMark ht) hl)
        (gives_onLast (fun _ hn => .pure (.one rfl hn)) hl)
        (gives_extendSequence hl (.leaf t))
        (gives_group.bind fun _ hn => gives_extendSequence hl hn)
    exact each.continuing _ rule hr

theorem gives_program : shape.Gives program fun ns => ∀ n ∈ ns, Rooted n := Gives.collected _ _ _

end Ebnf

/-- No text brings a bundled grammar to a defect. -/
theorem Grammar.parse_ne_defect {g : Grammar} (hg : g ∈ Grammar.bundled) (text : String)
    (limit : Option Int) (d : Defect) : g.parse text limit ≠ .error (.defect d) := by
  have of_fulfils {c : Contract} {Q : List Node → Prop} (unfair : ¬c.fair (.defect d))
      (h : c.Fulfils (fun ns _ => Q ns) (g.run text limit)) :
      g.parse text limit ≠ .error (.defect d) := by
    intro broken
    rcases hr : g.run text limit with ⟨r, s⟩
    rw [hr] at h
    obtain rfl : r = .error (.defect d) := (congrArg Prod.fst hr).symm.trans broken
    exact unfair h
  simp only [Grammar.bundled, List.mem_cons, List.not_mem_nil, or_false] at hg
  obtain rfl | rfl | rfl := hg
  · exact Arithmetic.parse_ne_defect text limit d
  · refine of_fulfils id (Grammar.fulfils_run (Ebnf.binds_shape limit) Ebnf.gives_program
      ⟨fun t ht => ?_, fun _ _ => trivial⟩ ?_)
    · obtain ⟨kind, value, place, rfl⟩ := ScanRule.lexeme_of_mem_scan ht
      exact ⟨kind, rfl⟩
    · exact Event.admits_of_forall (fun _ _ => rfl) _
  · have admitted : Event.admits (C.schema false).may (Grammar.c.run text limit).2.log = true :=
      Event.admits_of_forall (fun _ _ => rfl) _
    exact of_fulfils id (C.fulfils_run text limit admitted)

end BindingPower
