import Mathlib.Data.List.Induction
import BindingPower.Config

/-! Which configuration applies. The search looks into one folder after another, each the parent of the one
before, until it finds the file or comes to the root, which is its own parent. It ends, and what it finds is
the nearest file at or above its start. -/
namespace BindingPower

theorem Location.upward_concat (l : Location) (name : String) :
    upward (l ++ [name]) = (l ++ [name]) :: l.upward := by
  rw [upward, List.length_append, List.length_singleton, List.range_succ_eq_map, List.map_cons,
    List.map_map, upward]
  congr 1
  · rw [Nat.sub_zero, ← List.length_singleton (a := name), ← List.length_append, List.take_length]
  · apply List.map_congr_left
    intro i _
    rw [Function.comp_apply, Nat.succ_eq_add_one, Nat.add_sub_add_right,
      List.take_append_of_le_length (Nat.sub_le _ _)]

theorem Location.mem_upward_iff {l other : Location} : other ∈ l.upward ↔ other <+: l := by
  induction l using List.reverseRecOn with
  | nil => exact List.mem_singleton.trans List.prefix_nil.symm
  | append_singleton l name ih => rw [upward_concat, List.mem_cons, ih, List.prefix_concat_iff]

/-- No name is longer than a name may be, and the path no longer than a path may be. -/
structure Location.Short (l : Location) : Prop where
  names : ∀ name ∈ l, name.utf8ByteSize ≤ 255
  path : FilePath.isTooLong (FilePath.ofLocation l).toText = false

theorem FileTree.follow_ne_tooLong {files : FileTree} {names : List String}
    (h : ∀ name ∈ names, name.utf8ByteSize ≤ 255) (here : Location) :
    files.follow here names ≠ .error .tooLong := by
  induction names generalizing here with
  | nil =>
    rw [follow]
    split <;> exact nofun
  | cons name names ih =>
    rw [List.forall_mem_cons] at h
    rw [follow, if_neg (Nat.not_lt.mpr h.1)]
    split
    · exact ih h.2 _
    · split <;> exact nofun

namespace Config
variable {files : FileTree} {start folder current : Location}

/-- A folder at or above the start that holds a configuration, while none does that is nearer. -/
structure Nearest (files : FileTree) (start folder : Location) : Prop where
  above : folder <+: start
  holds : standsIn files folder
  nearer : ∀ other, other <+: start → folder.length < other.length → ¬standsIn files other

theorem nearest_iff_of_standsIn (h : standsIn files start) :
    Nearest files start folder ↔ folder = start := by
  constructor
  · intro nearest
    by_contra other
    have shorter : folder.length < start.length :=
      Nat.lt_of_le_of_ne nearest.above.length_le fun same => other (nearest.above.eq_of_length same)
    exact nearest.nearer start List.prefix_rfl shorter h
  · rintro rfl
    exact ⟨List.prefix_rfl, h, fun other above longer => absurd above.length_le (Nat.not_le.mpr longer)⟩

theorem not_nearest_root (h : ¬standsIn files []) : ¬Nearest files [] folder := by
  intro nearest
  obtain rfl := List.prefix_nil.mp nearest.above
  exact h nearest.holds

theorem nearest_concat_iff {name : String} (h : ¬standsIn files (start ++ [name])) :
    Nearest files (start ++ [name]) folder ↔ Nearest files start folder := by
  constructor
  · rintro ⟨above, holds, nearer⟩
    refine ⟨?_, holds, fun other ho => nearer other (ho.trans (List.prefix_append _ _))⟩
    rcases List.prefix_concat_iff.mp above with rfl | above
    · exact absurd holds h
    · exact above
  · rintro ⟨above, holds, nearer⟩
    refine ⟨above.trans (List.prefix_append _ _), holds, fun other ho longer => ?_⟩
    rcases List.prefix_concat_iff.mp ho with rfl | ho
    · exact h
    · exact nearer other ho longer

/-- The first folder with a configuration is the nearest. -/
theorem find?_upward_eq_some_iff :
    start.upward.find? (standsIn files) = some folder ↔ Nearest files start folder := by
  induction start using List.reverseRecOn with
  | nil =>
    change List.find? _ [[]] = _ ↔ _
    by_cases here : standsIn files []
    · rw [List.find?_cons_of_pos here, nearest_iff_of_standsIn here, Option.some_inj, eq_comm]
    · rw [List.find?_cons_of_neg here, List.find?_nil]
      exact iff_of_false nofun (not_nearest_root here)
  | append_singleton start name ih =>
    rw [Location.upward_concat]
    by_cases here : standsIn files (start ++ [name])
    · rw [List.find?_cons_of_pos here, nearest_iff_of_standsIn here, Option.some_inj, eq_comm]
    · rw [List.find?_cons_of_neg here, ih, nearest_concat_iff here]

/-! ### The search, folder by folder -/

/-- What comes of looking into a folder. -/
inductive Glance
  | found (file : Location)
  | nowhere
  | above (folder : Location)

/-- The root is the folder that is its own parent. -/
def glance (files : FileTree) (folder : Location) : Glance :=
  if standsIn files folder then .found (folder ++ [fileName])
  else if folder.dropLast = folder then .nowhere
  else .above folder.dropLast

/-- The search, which has no outcome if it is not over after so many looks. -/
def climb (files : FileTree) : (looks : Nat) → Location → Option (Option Location)
  | 0, _ => none
  | looks + 1, folder =>
    match glance files folder with
    | .found file => some (some file)
    | .nowhere => some none
    | .above folder => climb files looks folder

/-- The search ends with one look for the root and one for each name on the path. -/
theorem climb_eq {looks : Nat} (h : folder.length < looks) :
    climb files looks folder = some ((folder.upward.find? (standsIn files)).map (· ++ [fileName])) := by
  obtain ⟨looks, rfl⟩ := Nat.exists_eq_add_one_of_ne_zero (Nat.ne_zero_of_lt h)
  induction folder using List.reverseRecOn generalizing looks with
  | nil =>
    change _ = some (Option.map _ (List.find? _ [[]]))
    by_cases here : standsIn files []
    · rw [List.find?_cons_of_pos here, climb, glance, if_pos here, Option.map_some]
    · rw [List.find?_cons_of_neg here, climb, glance, if_neg here, if_pos List.dropLast_nil, List.find?_nil,
        Option.map_none]
  | append_singleton folder name ih =>
    rw [Location.upward_concat]
    by_cases here : standsIn files (folder ++ [name])
    · rw [List.find?_cons_of_pos here, climb, glance, if_pos here, Option.map_some]
    · have parent : (folder ++ [name]).dropLast = folder := List.dropLast_concat
      have other : ¬folder = folder ++ [name] := fun same => by simpa using congrArg List.length same
      rw [List.length_append, List.length_singleton] at h
      obtain ⟨looks, rfl⟩ := Nat.exists_eq_add_one_of_ne_zero (n := looks) (by omega)
      rw [List.find?_cons_of_neg here, climb, glance, if_neg here, parent, if_neg other]
      exact ih looks (by omega)

/-! ### What is found -/

/-- A start at which files can be looked for: its names are such as files can have, and neither its path nor
that of the file in its folder is too long to be followed. -/
structure Followable (files : FileTree) (current : Location) (start : FilePath) : Prop where
  nameable : start.isUnnameable = false
  reached : isOutOfReach files (start.resolve current) = false
  candidate : isOutOfReach files (searchStart files (start.resolve current) ++ [fileName]) = false

theorem find_of_followable {start : FilePath} (h : Followable files current start) :
    find files current start = (findFrom? files (start.resolve current)).elim (.error .notFound) .ok := by
  rw [find, if_neg (Bool.eq_false_iff.mp h.nameable), h.reached, h.candidate, Bool.or_self,
    if_neg Bool.false_ne_true]
  cases findFrom? files (start.resolve current) <;> rfl

theorem find_of_not_followable {start : FilePath} (h : ¬Followable files current start) :
    ∃ cause, find files current start = .error (.unreadable cause) := by
  rw [find]
  split
  · exact ⟨_, rfl⟩
  · next nameable =>
    split
    · exact ⟨_, rfl⟩
    · next reached =>
      rw [Bool.not_eq_true] at nameable reached
      obtain ⟨reached, candidate⟩ := Bool.or_eq_false_iff.mp reached
      exact absurd ⟨nameable, reached, candidate⟩ h

theorem isOutOfReach_of_short {l : Location} (h : l.Short) : isOutOfReach files l = false := by
  have within := files.follow_ne_tooLong h.names ((FilePath.ofLocation l).base [])
  rw [isOutOfReach, FileTree.walk, h.path, if_neg Bool.false_ne_true]
  by_cases unnameable : (FilePath.ofLocation l).isUnnameable
  · rw [if_pos unnameable]
  · rw [if_neg unnameable]
    split
    · exact absurd ‹_› within
    · rfl

theorem followable_of_short {start : FilePath} (nameable : start.isUnnameable = false)
    (reached : (start.resolve current).Short)
    (candidate : (searchStart files (start.resolve current) ++ [fileName]).Short) :
    Followable files current start :=
  ⟨nameable, isOutOfReach_of_short reached, isOutOfReach_of_short candidate⟩

theorem findFrom?_eq_some_iff {file : Location} :
    findFrom? files start = some file ↔
      ∃ nearest, Nearest files (searchStart files start) nearest ∧ file = nearest ++ [fileName] := by
  simp only [findFrom?, Option.map_eq_some_iff, find?_upward_eq_some_iff, eq_comm (a := file)]

theorem findFrom?_eq_none_iff :
    findFrom? files start = none ↔ ∀ above, above <+: searchStart files start → ¬standsIn files above := by
  simp only [findFrom?, Option.map_eq_none_iff, List.find?_eq_none, Location.mem_upward_iff]

/-- From every start the search ends: with the configuration of the nearest folder that has one, from the start
(or the folder of a file) up to the root, or with none if no folder has. The start has to be one that can be
followed, as it can be if all names and paths have lengths that they may have. -/
theorem find_nearest (files : FileTree) (current : Location) (start : FilePath) :
    let folder := searchStart files (start.resolve current)
    let found := findFrom? files (start.resolve current)
    (∀ looks, folder.length < looks → climb files looks folder = some found) ∧
    (∀ file, found = some file ↔ ∃ nearest, Nearest files folder nearest ∧ file = nearest ++ [fileName]) ∧
    (found = none ↔ ∀ above, above <+: folder → ¬standsIn files above) ∧
    (Followable files current start → find files current start = found.elim (.error .notFound) .ok) ∧
    (¬Followable files current start → ∃ cause, find files current start = .error (.unreadable cause)) ∧
    (start.isUnnameable = false → (start.resolve current).Short → (folder ++ [fileName]).Short →
      Followable files current start) :=
  ⟨fun _ h => climb_eq h, fun _ => findFrom?_eq_some_iff, findFrom?_eq_none_iff, find_of_followable,
    find_of_not_followable, followable_of_short⟩

/-- Of a file the folder counts, and the folder above it has the nearest configuration. -/
example :
    let files : FileTree :=
      { files := [(["prattle.toml"], ""), (["a", "prattle.toml"], ""), (["a", "b", "c"], "")] }
    find files ["a"] (.ofText "b/c") = .ok ["a", "prattle.toml"] := rfl

end Config

end BindingPower
