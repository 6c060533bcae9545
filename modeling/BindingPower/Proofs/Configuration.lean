import Mathlib.Tactic.Push
import BindingPower.Config

/-! What a document says as a configuration. It is taken over with all of it checked but the grammar and the
colour, or it is at fault, or it is one of the few that nobody looks out for. -/
namespace BindingPower

theorem checkDepth_eq_ok_iff {depth : Int} :
    checkDepth depth = .ok () ↔ 1 ≤ depth ∧ depth ≤ depthCeiling := by
  unfold checkDepth
  split
  · exact iff_of_true rfl ‹_›
  · split <;> exact iff_of_false nofun ‹_›

namespace Config
variable {t : Toml.Table} {name : String} {v : Toml.Value} {c c' : Config} {e : ConfigError}
  {path : FilePath}

/-- The entries of a section of a document. -/
def entries (t : Toml.Table) (name : String) : Toml.Table :=
  match t.lookup name with
  | some (.table entries) => entries
  | _ => []

/-- An entry of a section, or a default where there is none. -/
def entry (t : Toml.Table) (name key : String) (default : Toml.Value) : Toml.Value :=
  ((entries t name).lookup key).getD default

/-- Something else than a table is where a section should be. -/
def Misplaced (t : Toml.Table) (name : String) (v : Toml.Value) : Prop :=
  t.lookup name = some v ∧ ∀ entries, v ≠ .table entries

/-- A value that is no number of levels, in a way that nobody looks out for. -/
inductive NoNumber : Toml.Value → ConfigError → Prop
  | endless (negative : Bool) : NoNumber (.float (.infinite negative)) .depthInfinite
  | moment (m : Toml.Moment) : NoNumber (.moment m) (.depthNotNumber (.moment m))
  | array (items : List Toml.Value) : NoNumber (.array items) (.depthNotNumber (.array items))
  | table (entries : Toml.Table) : NoNumber (.table entries) (.depthNotNumber (.table entries))

/-- The section on parsing is in order: a table, with a limit that is allowed. -/
structure Limits (t : Toml.Table) (depth : Int) : Prop where
  placed : ∀ v, ¬Misplaced t "parse" v
  read : depthOf (entry t "parse" "max_depth" (.integer 200)) = .ok depth
  allowed : 1 ≤ depth ∧ depth ≤ depthCeiling

/-- What of a document ends a run with nothing said: a section that is no table, or a limit that is no
number. What is written about the output is looked at last. -/
inductive Breaks (t : Toml.Table) : ConfigError → Prop
  | parse {v : Toml.Value} (h : Misplaced t "parse" v) : Breaks t (.notTable v)
  | depth {e : ConfigError} (placed : ∀ v, ¬Misplaced t "parse" v)
    (h : NoNumber (entry t "parse" "max_depth" (.integer 200)) e) : Breaks t e
  | output {v : Toml.Value} {depth : Int} (before : Limits t depth) (h : Misplaced t "output" v) :
    Breaks t (.notTable v)

/-- A configuration is that of a document, all of it checked but the grammar and the colour. -/
structure Holds (t : Toml.Table) (c : Config) : Prop where
  limits : Limits t c.maxDepth
  placed : ∀ v, ¬Misplaced t "output" v
  format : entry t "output" "format" (.string "tree") = .string c.format
  known : c.format ∈ formats
  grammar : c.grammar = entry t "parse" "grammar" (.string "arithmetic")
  colour : c.colour = entry t "output" "color" (.boolean true)

theorem NoNumber.depthOf_eq (h : NoNumber v e) : depthOf v = .error e := by cases h <;> rfl

theorem NoNumber.isInvalid_eq (h : NoNumber v e) : e.isInvalid = false := by cases h <;> rfl

theorem noNumber_or_isInvalid (h : depthOf v = .error e) : NoNumber v e ∨ e.isInvalid = true := by
  cases v with
  | string s =>
    change (Text.readInteger s).mapError ConfigError.integer = _ at h
    rcases hs : Text.readInteger s with cause | n <;> rw [hs] at h <;> cases h
    exact .inr rfl
  | float x =>
    cases x with
    | finite negative mantissa exponent => cases h
    | infinite negative =>
      cases h
      exact .inl (.endless negative)
    | nan =>
      cases h
      exact .inr rfl
  | integer n => cases h
  | boolean b => cases h
  | moment m =>
    cases h
    exact .inl (.moment m)
  | array items =>
    cases h
    exact .inl (.array items)
  | table entries =>
    cases h
    exact .inl (.table entries)

theorem sectionOf_eq_error (h : ∀ entries, v ≠ .table entries) : sectionOf v = .error (.notTable v) := by
  cases v with
  | table entries => exact absurd rfl (h entries)
  | _ => rfl

section
variable {read : Toml.Value → Config → Except ConfigError Config}

theorem readSection_of_misplaced (h : Misplaced t name v) : readSection read t name c = read v c := by
  rw [readSection, h.1]

/-- A section that is missing is as good as an empty one. -/
theorem readSection_of_placed (h : ∀ v, ¬Misplaced t name v) (nothing : read (.table []) c = .ok c) :
    readSection read t name c = read (.table (entries t name)) c := by
  unfold readSection entries
  rcases hv : t.lookup name with _ | v
  · exact nothing.symm
  · cases v with
    | table entries => rfl
    | _ => exact absurd ⟨hv, nofun⟩ (h _)

end

theorem readParse_of_misplaced (h : Misplaced t "parse" v) :
    readSection (readParse path) t "parse" c = .error (.notTable v) := by
  rw [readSection_of_misplaced h, readParse, sectionOf_eq_error h.2]
  rfl

theorem readOutput_of_misplaced (h : Misplaced t "output" v) :
    readSection (readOutput path) t "output" c = .error (.notTable v) := by
  rw [readSection_of_misplaced h, readOutput, sectionOf_eq_error h.2]
  rfl

theorem readParse_of_placed (h : ∀ v, ¬Misplaced t "parse" v) :
    readSection (readParse path) t "parse" {} = (do
      let depth ← depthOf (entry t "parse" "max_depth" (.integer 200))
      (checkDepth depth).mapError (.depthOutOfRange path)
      return { grammar := entry t "parse" "grammar" (.string "arithmetic"), maxDepth := depth }) :=
  readSection_of_placed h rfl

theorem readParse_of_limits {depth : Int} (h : Limits t depth) :
    readSection (readParse path) t "parse" {} =
      .ok { grammar := entry t "parse" "grammar" (.string "arithmetic"), maxDepth := depth } := by
  rw [readParse_of_placed h.placed, h.read]
  change ((checkDepth depth).mapError (ConfigError.depthOutOfRange path) >>= fun _ => _) = _
  rw [checkDepth_eq_ok_iff.mpr h.allowed]
  rfl

theorem readOutput_of_placed (h : ∀ v, ¬Misplaced t "output" v) (colour : c.colour = .boolean true)
    (format : c.format = "tree") : readSection (readOutput path) t "output" c =
      readOutput path (.table (entries t "output")) c := by
  refine readSection_of_placed h ?_
  obtain ⟨grammar, maxDepth, _, _⟩ := c
  subst colour format
  rfl

theorem readOutput_table : readOutput path (.table (entries t "output")) c =
    let format := entry t "output" "format" (.string "tree")
    match format.text?.filter formats.contains with
    | some name => .ok { c with colour := entry t "output" "color" (.boolean true), format := name }
    | none => .error (if format.canBeShown then .unknownFormat path format else .integer .unwritable) :=
  rfl

theorem readOutput_of_known {format : String} (known : format ∈ formats)
    (same : entry t "output" "format" (.string "tree") = .string format) :
    readOutput path (.table (entries t "output")) c =
      .ok { c with colour := entry t "output" "color" (.boolean true), format } := by
  have offered : (Toml.Value.string format).text?.filter formats.contains = some format :=
    Option.filter_eq_some_iff.mpr ⟨rfl, List.contains_iff_mem.mpr known⟩
  simp only [readOutput_table, same, offered]

/-- A format that is not offered is refused with a message. -/
theorem readOutput_of_unknown
    (h : ∀ format ∈ formats, entry t "output" "format" (.string "tree") ≠ .string format) :
    ∃ e, readOutput path (.table (entries t "output")) c = .error e ∧ e.isInvalid = true := by
  have unknown : (entry t "output" "format" (.string "tree")).text?.filter formats.contains = none := by
    rw [Option.filter_eq_none_iff]
    intro format text known
    cases hv : entry t "output" "format" (.string "tree") <;> rw [hv] at text <;> cases text
    exact h format (List.contains_iff_mem.mp known) hv
  simp only [readOutput_table, unknown]
  refine ⟨_, rfl, ?_⟩
  split <;> rfl

theorem Breaks.ofTable_eq (h : Breaks t e) (path : FilePath) : ofTable path t = .error e := by
  unfold ofTable
  cases h with
  | parse h =>
    rw [readParse_of_misplaced h]
    rfl
  | depth placed h =>
    rw [readParse_of_placed placed, h.depthOf_eq]
    rfl
  | output before h =>
    rw [readParse_of_limits before]
    exact readOutput_of_misplaced h

theorem Holds.ofTable_eq (h : Holds t c) (path : FilePath) : ofTable path t = .ok c := by
  unfold ofTable
  rw [readParse_of_limits h.limits]
  refine (readOutput_of_placed h.placed rfl rfl).trans ?_
  rw [readOutput_of_known h.known h.format, ← h.grammar, ← h.colour]

theorem ofTable_cases (path : FilePath) (t : Toml.Table) :
    (∃ e, Breaks t e) ∨ (∃ c, Holds t c) ∨ ∃ e, ofTable path t = .error e ∧ e.isInvalid = true := by
  by_cases parse : ∀ v, ¬Misplaced t "parse" v
  · rcases hd : depthOf (entry t "parse" "max_depth" (.integer 200)) with e | depth
    · rcases noNumber_or_isInvalid hd with h | invalid
      · exact .inl ⟨e, .depth parse h⟩
      · refine .inr (.inr ⟨e, ?_, invalid⟩)
        rw [ofTable, readParse_of_placed parse, hd]
        rfl
    · by_cases allowed : 1 ≤ depth ∧ depth ≤ depthCeiling
      · have limits : Limits t depth := ⟨parse, hd, allowed⟩
        by_cases output : ∀ v, ¬Misplaced t "output" v
        · by_cases known : ∃ format ∈ formats, entry t "output" "format" (.string "tree") = .string format
          · obtain ⟨format, known, same⟩ := known
            exact .inr (.inl ⟨⟨_, depth, _, format⟩, limits, output, same, known, rfl, rfl⟩)
          · push Not at known
            obtain ⟨e, read, invalid⟩ := readOutput_of_unknown known
            refine .inr (.inr ⟨e, ?_, invalid⟩)
            rw [ofTable, readParse_of_limits limits]
            exact (readOutput_of_placed output rfl rfl).trans read
        · obtain ⟨v, h⟩ := not_forall_not.mp output
          exact .inl ⟨_, .output limits h⟩
      · obtain ⟨problem, rejected⟩ : ∃ problem, checkDepth depth = .error problem := by
          rcases h : checkDepth depth with problem | _
          · exact ⟨problem, rfl⟩
          · exact absurd (checkDepth_eq_ok_iff.mp h) allowed
        refine .inr (.inr ⟨.depthOutOfRange path problem, ?_, rfl⟩)
        rw [ofTable, readParse_of_placed parse, hd]
        change (((checkDepth depth).mapError (ConfigError.depthOutOfRange path) >>= fun _ => _) >>= _) = _
        rw [rejected]
        rfl
  · obtain ⟨v, h⟩ := not_forall_not.mp parse
    exact .inl ⟨_, .parse h⟩

theorem Breaks.isInvalid_eq (h : Breaks t e) : e.isInvalid = false := by
  cases h with
  | depth placed h => exact h.isInvalid_eq
  | _ => rfl

theorem Breaks.ofText_eq {text : String} (read : Toml.read text = .ok t) (h : Breaks t e) (path : FilePath) :
    ofText path text = .error e := by
  rw [ofText, read]
  exact h.ofTable_eq path

theorem Holds.ofText_eq {text : String} (read : Toml.read text = .ok t) (h : Holds t c) (path : FilePath) :
    ofText path text = .ok c := by
  rw [ofText, read]
  exact h.ofTable_eq path

/-- A text is a configuration, is refused with a message or breaks the run off. -/
theorem ofText_cases (path : FilePath) (text : String) :
    (∃ t e, Toml.read text = .ok t ∧ Breaks t e) ∨ (∃ t c, Toml.read text = .ok t ∧ Holds t c) ∨
      ∃ e, ofText path text = .error e ∧ e.isInvalid = true := by
  rcases read : Toml.read text with fault | t
  · refine .inr (.inr ?_)
    cases fault <;> exact ⟨_, by rw [ofText, read], rfl⟩
  · rcases ofTable_cases path t with ⟨e, h⟩ | ⟨c, h⟩ | ⟨e, h, invalid⟩
    · exact .inl ⟨t, e, rfl, h⟩
    · exact .inr (.inl ⟨t, c, rfl, h⟩)
    · refine .inr (.inr ⟨e, ?_, invalid⟩)
      rw [ofText, read]
      exact h

/-- The contents of a file are never taken for the lack of it. -/
theorem ofText_ne_missing (path : FilePath) (text : String) :
    ofText path text ≠ .error .notFound ∧ ofText path text ≠ .error (.unreadable .missing) := by
  rcases ofText_cases path text with ⟨t, e, read, h⟩ | ⟨t, c, read, h⟩ | ⟨e, h, invalid⟩
  · rw [h.ofText_eq read path]
    cases h with
    | depth placed h =>
      generalize entry t "parse" "max_depth" (.integer 200) = v at h
      cases h <;> exact ⟨nofun, nofun⟩
    | _ => exact ⟨nofun, nofun⟩
  · rw [h.ofText_eq read path]
    exact ⟨nofun, nofun⟩
  · rw [h]
    constructor <;> rintro ⟨⟩ <;> cases invalid

end Config

end BindingPower
