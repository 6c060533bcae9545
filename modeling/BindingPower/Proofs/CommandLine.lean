import Mathlib
import BindingPower.CommandLine
import BindingPower.Proofs.Colour
import BindingPower.Proofs.Configuration
import BindingPower.Proofs.Defect

/-! What a configuration does to a run. A parse goes by it, or the run says what is wrong, or it ends in the
failure of a document that nobody looks out for. -/
namespace BindingPower

namespace CommandLine
open Config

/-- A run that says what is wrong in a line that starts with `error:`, and ends in exit code 1. -/
structure Run.Reports (run : Run) : Prop where
  ending : run.ending = .exit 1
  out : run.out = ""
  err : "error: ".toList <+: run.err.toList

namespace Surroundings
variable {s : Surroundings} {r : ParseRequest} {words : List String} {path : FilePath} {text : String}
  {c : Config} {g : Grammar} {source : String}

/-- Words that are in order and ask for a parse. -/
def Asks (s : Surroundings) (words : List String) (r : ParseRequest) : Prop :=
  ∃ rest a, groupOptions.readLeading? words = some { words := "parse" :: rest } ∧
    parseOptions.read? rest = some a ∧ a.has .help = false ∧ s.request a = .ok r

/-- The file that is named in a request, or else the nearest there is, can be read and has a certain text. -/
def Configured (s : Surroundings) (r : ParseRequest) (path : FilePath) (text : String) : Prop :=
  s.files.text s.current path = .ok text ∧
    (r.config = some path ∨
      r.config = none ∧ ∃ l, find s.files s.current (.ofText ".") = .ok l ∧ path = .ofLocation l)

theorem Asks.run_eq (h : s.Asks words r) : s.run words = s.parse r := by
  obtain ⟨rest, a, leading, read, help, request⟩ := h
  simp only [run, leading, command, read, help, request]
  rfl

theorem Configured.configOf_eq (h : s.Configured r path text) : s.configOf r = ofText path text := by
  obtain ⟨read, given | ⟨none, l, found, rfl⟩⟩ := h
  · rw [configOf, given]
    simp only [load, read]
    rfl
  · -- what `discover` takes for a missing file is not what the text comes to
    obtain ⟨present, legible⟩ := ofText_ne_missing (.ofLocation l) text
    rw [configOf, none]
    have loaded : load s.files s.current (.ofLocation l) = ofText (.ofLocation l) text := by
      simp only [load, read]
      rfl
    simp only [discover, found, Except.bind, loaded]

theorem prefix_echo (s : Surroundings) {w : String} (h : '\x1b' ∉ w.toList) (text : String) :
    w.toList <+: (s.echo (w ++ text)).toList := by
  unfold echo
  split
  · rw [String.toList_append, String.toList_append, List.append_assoc]
    exact List.prefix_append _ _
  · have length : (w ++ text).length = w.toList.length + text.length := by
      rw [String.length_append, String.length_toList]
    rw [Text.stripColours, length, String.toList_append, String.toList_append,
      Text.stripCodes_append_of_not_mem h, String.toList_ofList, List.append_assoc]
    exact List.prefix_append _ _

theorem reports_failed (s : Surroundings) (message : String) : (s.failed ("error: " ++ message)).Reports :=
  ⟨rfl, rfl, s.prefix_echo (by decide) message⟩

/-- A parse by a bundled grammar, with a limit that is allowed and a layout that is offered. The grammar is
the one that is asked for by a name, or else that of the configuration. -/
structure ParsesWith (s : Surroundings) (r : ParseRequest) (c : Config) (g : Grammar) (source : String)
    (run : Run) : Prop where
  given : s.source? r = some source
  bundled : g ∈ Grammar.bundled
  named : r.grammar = some g.name ∨ r.grammar.getD "" = "" ∧ c.grammar = .string g.name
  allowed : 1 ≤ r.maxDepth.getD c.maxDepth ∧ r.maxDepth.getD c.maxDepth ≤ depthCeiling
  offered : layoutOf r c ∈ formats
  same : run = s.parseText r c g source (r.maxDepth.getD c.maxDepth)
  ending : run.ending = .exit 0 ∨ run.ending = .exit 1

/-- What of a document ends a run with nothing said: what breaks off its reading, or a grammar that is no
name and is looked up, if that is as far as the run comes. -/
inductive Escapes (s : Surroundings) (r : ParseRequest) (t : Toml.Table) : Crash → Prop
  | config {e : ConfigError} (h : Breaks t e) : Escapes s r t (.config e)
  | grammar {c : Config} (holds : Holds t c) (source : s.source? r ≠ none) (unnamed : r.grammar.getD "" = "")
    (h : c.grammar.isWhole = true) : Escapes s r t (.notText c.grammar)
  | integer {c : Config} {n : Int} (holds : Holds t c) (source : s.source? r ≠ none)
    (unnamed : r.grammar.getD "" = "") (h : c.grammar = .integer n) (long : Text.isWritable n = false) :
    Escapes s r t (.integer .unwritable)

/-- The layout that a request asks for is one that is offered, if it asks for any. -/
def Offers (r : ParseRequest) : Prop := ∀ format, r.format = some format → format ∈ formats

theorem offers_withOption {r' : ParseRequest} {x : ParseOption × String} (h : s.withOption r x = .ok r')
    (offers : Offers r) : Offers r' := by
  obtain ⟨option, value⟩ := x
  cases option with
  | format =>
    simp only [withOption] at h
    split at h <;> cases h
    rintro _ ⟨⟩
    exact List.contains_iff_mem.mp ‹_›
  | maxDepth =>
    simp only [withOption] at h
    split at h <;> cases h
    exact offers
  | file | config =>
    simp only [withOption] at h
    rcases hp : s.existingFile value with e | path <;> rw [hp] at h <;> cases h
    exact offers
  | _ =>
    cases h
    exact offers

theorem offers_foldlM {settings : List (ParseOption × String)} {r' : ParseRequest}
    (h : settings.foldlM s.withOption r = .ok r') (offers : Offers r) : Offers r' := by
  induction settings generalizing r with
  | nil =>
    cases h
    exact offers
  | cons x settings ih =>
    rw [List.foldlM_cons] at h
    rcases hx : s.withOption r x with e | r₁ <;> rw [hx] at h
    · cases h
    · exact ih h (offers_withOption hx offers)

theorem offers_request {a : Arguments ParseOption} (h : s.request a = .ok r) : Offers r := by
  unfold request at h
  rcases hf : a.settings.foldlM s.withOption { text := a.words.head? } with e | r' <;> rw [hf] at h
  · cases h
  · obtain rfl : r' = r := by
      by_cases many : 1 < a.words.length
      · simp only [bind, Except.bind, many, if_true] at h
        cases h
      · simp only [bind, Except.bind, many, if_false] at h
        cases h
        rfl
    exact offers_foldlM hf nofun

theorem ends_parseText (bundled : g ∈ Grammar.bundled) (depth : Int) :
    (s.parseText r c g source depth).ending = .exit 0 ∨ (s.parseText r c g source depth).ending = .exit 1 := by
  have sound := Grammar.parse_ne_defect bundled source (some depth)
  unfold Grammar.parse at sound
  unfold parseText
  rcases s.overflow g.name source depth with _ | trace
  · rcases h : g.run source (some depth) with ⟨(e | d) | ns, progress⟩ <;> rw [h] at sound
    · exact .inr rfl
    · exact absurd rfl (sound d)
    · exact .inl rfl
  · exact .inr rfl

theorem known_cases (s : Surroundings) (name : String) :
    (∃ g ∈ Grammar.bundled, g.name = name ∧ Grammar.find? name = some g ∧
      grammarName.known s name = .ok name) ∨
    ∃ run, grammarName.known s name = .error run ∧ run.Reports := by
  unfold grammarName.known
  rcases found : Grammar.find? name with _ | g
  · exact .inr ⟨_, rfl, s.reports_failed _⟩
  · have named := List.find?_some found
    exact .inl ⟨g, List.mem_of_find?_eq_some found, eq_of_beq named, rfl, rfl⟩

/-- A grammar that is asked for by a name is looked up, and else that of the configuration. -/
theorem grammarName_of_asked {name : String} (h : r.grammar = some name) (h' : name ≠ "") :
    s.grammarName r c = grammarName.known s name := by
  unfold grammarName
  rw [h]
  cases c.grammar <;> simp only [h', if_false]

theorem grammarName_of_text {name : String} (unset : r.grammar.getD "" = "") (h : c.grammar = .string name) :
    s.grammarName r c = grammarName.known s name := by
  unfold grammarName
  rw [h]
  rcases hr : r.grammar with _ | asked
  · rfl
  · rw [hr] at unset
    exact congrArg (grammarName.known s) (if_pos unset)

theorem grammarName_of_value (unset : r.grammar.getD "" = "") (h : c.grammar.text? = none) :
    s.grammarName r c = grammarName.unnamed s c.grammar := by
  unfold grammarName
  rcases hr : r.grammar with _ | asked
  · cases hv : c.grammar with
    | string name => cases hv ▸ h
    | _ => rfl
  · rw [hr] at unset
    cases hv : c.grammar with
    | string name => cases hv ▸ h
    | _ => exact if_pos unset

theorem unnamed_of_whole {v : Toml.Value} (h : v.isWhole = true) :
    grammarName.unnamed s v = .error { ending := .crash (.notText v) } := by
  cases v with
  | array items => rfl
  | table entries => rfl
  | _ => cases h

theorem unnamed_of_plain {v : Toml.Value} (h : v.isWhole = false) :
    grammarName.unnamed s v =
      if v.canBeShown then .error (s.failed ("error: " ++ Grammar.unknownMessage v.shown))
      else .error { ending := .crash (.integer .unwritable) } := by
  cases v with
  | array items => cases h
  | table entries => cases h
  | _ => rfl

theorem integer_of_not_canBeShown {v : Toml.Value} (plain : v.isWhole = false) (h : v.canBeShown = false) :
    ∃ n, v = .integer n ∧ Text.isWritable n = false := by
  cases v with
  | integer n =>
    rw [Toml.Value.canBeShown] at h
    exact ⟨n, rfl, h⟩
  | array items => cases plain
  | table entries => cases plain
  | _ => cases h

section
variable {t : Toml.Table} (configured : s.Configured r path text)
include configured

theorem Configured.parse_of_breaks {e : ConfigError} (read : Toml.read text = .ok t) (h : Breaks t e) :
    s.parse r = { ending := .crash (.config e) } := by
  rw [parse, configured.configOf_eq, h.ofText_eq read path]
  exact if_neg (h.isInvalid_eq ▸ Bool.false_ne_true)

theorem Configured.parse_of_holds (read : Toml.read text = .ok t) (h : Holds t c) :
    s.parse r = s.parseWith r c := by
  rw [parse, configured.configOf_eq, h.ofText_eq read path]

theorem Configured.reports_of_isInvalid {e : ConfigError} (h : ofText path text = .error e)
    (invalid : e.isInvalid = true) : (s.parse r).Reports := by
  have said : s.parse r = s.failed ("error: " ++ e.message?.getD "") := by
    rw [parse, configured.configOf_eq, h]
    exact if_pos invalid
  exact said ▸ s.reports_failed _

end

theorem parseWith_of_error {run : Run} (given : s.source? r = some source)
    (h : s.grammarName r c = .error run) : s.parseWith r c = run := by
  rw [parseWith, given]
  simp only [h]

theorem parseWith_of_known (offers : Offers r) {t : Toml.Table} (holds : Holds t c)
    (given : s.source? r = some source) (bundled : g ∈ Grammar.bundled) (found : Grammar.find? g.name = some g)
    (named : r.grammar = some g.name ∨ r.grammar.getD "" = "" ∧ c.grammar = .string g.name)
    (h : s.grammarName r c = .ok g.name) :
    (s.parseWith r c).Reports ∨ s.ParsesWith r c g source (s.parseWith r c) := by
  rcases checked : checkDepth (r.maxDepth.getD c.maxDepth) with problem | _
  · have said : s.parseWith r c = s.failed ("error: " ++ problem) := by
      rw [parseWith, given]
      simp only [h, checked]
    exact .inl (said ▸ s.reports_failed _)
  · have same : s.parseWith r c = s.parseText r c g source (r.maxDepth.getD c.maxDepth) := by
      rw [parseWith, given]
      simp only [h, checked, found]
    refine .inr ⟨given, bundled, named, checkDepth_eq_ok_iff.mp checked, ?_, same,
      same ▸ ends_parseText bundled _⟩
    unfold layoutOf
    split
    · decide
    · rcases layout : r.format with _ | format
      · exact holds.known
      · exact offers format layout

section
variable {t : Toml.Table} (holds : Holds t c)
include holds

/-- A name is looked up, from wherever it comes. -/
theorem parseWith_of_name (offers : Offers r) (given : s.source? r = some source) {name : String}
    (named : r.grammar = some name ∨ r.grammar.getD "" = "" ∧ c.grammar = .string name)
    (looked : s.grammarName r c = grammarName.known s name) :
    (s.parseWith r c).Reports ∨ ∃ g source, s.ParsesWith r c g source (s.parseWith r c) := by
  rcases s.known_cases name with ⟨g, bundled, rfl, found, h⟩ | ⟨run, h, reports⟩
  · exact (parseWith_of_known offers holds given bundled found named (looked.trans h)).imp_right
      fun parses => ⟨g, source, parses⟩
  · exact .inl (parseWith_of_error given (looked.trans h) ▸ reports)

theorem parseWith_of_value (given : s.source? r = some source) (unset : r.grammar.getD "" = "")
    (value : c.grammar.text? = none) : (∃ crash, Escapes s r t crash) ∨ (s.parseWith r c).Reports := by
  have given' : s.source? r ≠ none := given ▸ nofun
  have looked := grammarName_of_value (s := s) unset value
  by_cases whole : c.grammar.isWhole = true
  · exact .inl ⟨_, .grammar holds given' unset whole⟩
  · have plain := eq_false_of_ne_true whole
    rw [unnamed_of_plain plain] at looked
    by_cases shown : c.grammar.canBeShown = true
    · rw [if_pos shown] at looked
      exact .inr (parseWith_of_error given looked ▸ s.reports_failed _)
    · obtain ⟨n, number, long⟩ := integer_of_not_canBeShown plain (eq_false_of_ne_true shown)
      exact .inl ⟨_, .integer holds given' unset number long⟩

theorem parseWith_cases (offers : Offers r) : (∃ crash, Escapes s r t crash) ∨ (s.parseWith r c).Reports ∨
    ∃ g source, s.ParsesWith r c g source (s.parseWith r c) := by
  rcases given : s.source? r with _ | source
  · have said : s.parseWith r c = s.failed "error: nothing to parse; pass TEXT or --file" := by
      rw [parseWith, given]
    exact .inr (.inl (said ▸ s.reports_failed "nothing to parse; pass TEXT or --file"))
  · by_cases unset : r.grammar.getD "" = ""
    · rcases text : c.grammar.text? with _ | name
      · exact (parseWith_of_value holds given unset text).imp_right .inl
      · have word : c.grammar = .string name := by
          cases hv : c.grammar <;> rw [hv] at text <;> cases text
          rfl
        exact .inr (parseWith_of_name holds offers given (.inr ⟨unset, word⟩) (grammarName_of_text unset word))
    · obtain ⟨name, asked⟩ : ∃ name, r.grammar = some name := by
        rcases hr : r.grammar with _ | name
        · exact absurd (congrArg (Option.getD · "") hr) unset
        · exact ⟨name, rfl⟩
      have nonempty : name ≠ "" := by
        rintro rfl
        exact unset (congrArg (Option.getD · "") asked)
      exact .inr (parseWith_of_name holds offers given (.inl asked) (grammarName_of_asked asked nonempty))

end

theorem Escapes.ending_eq {t : Toml.Table} {crash : Crash} (h : Escapes s r t crash)
    (configured : s.Configured r path text) (read : Toml.read text = .ok t) :
    (s.parse r).ending = .crash crash := by
  cases h with
  | config h => rw [configured.parse_of_breaks read h]
  | @grammar c holds given unset whole =>
    obtain ⟨source, given⟩ := Option.ne_none_iff_exists'.mp given
    have word : c.grammar.text? = none := by
      cases hv : c.grammar <;> rw [hv] at whole <;> first | rfl | cases whole
    have looked := (grammarName_of_value (s := s) unset word).trans (unnamed_of_whole whole)
    rw [configured.parse_of_holds read holds, parseWith_of_error given looked]
  | @integer c n holds given unset number long =>
    obtain ⟨source, given⟩ := Option.ne_none_iff_exists'.mp given
    have looked := grammarName_of_value (s := s) unset (number ▸ rfl : c.grammar.text? = none)
    have shown : ¬c.grammar.canBeShown = true := by
      rw [number, Toml.Value.canBeShown, long]
      exact Bool.false_ne_true
    rw [unnamed_of_plain (number ▸ rfl), if_neg shown] at looked
    rw [configured.parse_of_holds read holds, parseWith_of_error given looked]

theorem Asks.offers (h : s.Asks words r) : Offers r := by
  obtain ⟨_, _, -, -, -, request⟩ := h
  exact offers_request request

/-- Words that ask for a parse with a configuration end in a failure exactly if the configuration is one of
those that nobody looks out for. With any other they say what is wrong with it or with the request, or parse
with what has been checked. -/
theorem run_configured (asks : s.Asks words r) (configured : s.Configured r path text) :
    (∀ crash, (s.run words).ending = .crash crash ↔
      ∃ t, Toml.read text = .ok t ∧ Escapes s r t crash) ∧
    ((∃ crash, (s.run words).ending = .crash crash) ∨ (s.run words).Reports ∨
      ∃ t c g source, Toml.read text = .ok t ∧ Holds t c ∧ s.ParsesWith r c g source (s.run words)) := by
  rw [asks.run_eq]
  have cases : (∃ t crash, Toml.read text = .ok t ∧ Escapes s r t crash) ∨ (s.parse r).Reports ∨
      ∃ t c g source, Toml.read text = .ok t ∧ Holds t c ∧ s.ParsesWith r c g source (s.parse r) := by
    rcases ofText_cases path text with ⟨t, e, read, h⟩ | ⟨t, c, read, holds⟩ | ⟨e, h, invalid⟩
    · exact .inl ⟨t, _, read, .config h⟩
    · rw [configured.parse_of_holds read holds]
      rcases parseWith_cases (s := s) holds asks.offers with ⟨crash, h⟩ | reports | ⟨g, source, parses⟩
      · exact .inl ⟨t, crash, read, h⟩
      · exact .inr (.inl reports)
      · exact .inr (.inr ⟨t, c, g, source, read, holds, parses⟩)
    · exact .inr (.inl (configured.reports_of_isInvalid h invalid))
  constructor
  · refine fun crash => ⟨fun ending => ?_, fun ⟨t, read, h⟩ => h.ending_eq configured read⟩
    rcases cases with ⟨t, crash', read, h⟩ | reports | ⟨t, c, g, source, -, -, parses⟩
    · cases ending.symm.trans (h.ending_eq configured read)
      exact ⟨t, read, h⟩
    · cases ending.symm.trans reports.ending
    · rcases parses.ending with done | failed
      · cases ending.symm.trans done
      · cases ending.symm.trans failed
  · refine cases.imp_left ?_
    rintro ⟨t, crash, read, h⟩
    exact ⟨crash, h.ending_eq configured read⟩

/-- A folder with a configuration and nothing else. -/
def beside (text : String) : Surroundings :=
  { files := { files := [([fileName], text)] }, current := [] }

theorem asks_beside (text : String) : (beside text).Asks ["parse", "a"] { text := some "a" } :=
  ⟨["a"], { words := ["a"] }, rfl, rfl, rfl, rfl⟩

theorem configured_beside (text : String) :
    (beside text).Configured { text := some "a" } (.ofLocation [fileName]) text :=
  ⟨rfl, .inr ⟨rfl, _, rfl, rfl⟩⟩

/-- A limit that is no number is reported. -/
theorem run_configured_without_number :
    let text := "[parse]\nmax_depth = nan\n"
    (beside text).Asks ["parse", "a"] { text := some "a" } ∧
      (beside text).Configured { text := some "a" } (.ofLocation [fileName]) text ∧
      ((beside text).run ["parse", "a"]).Reports := by
  intro text
  have wrong : ofText (.ofLocation [fileName]) text = .error .depthUndefined := by cbv
  have unheld (t : Toml.Table) (c : Config) (read : Toml.read text = .ok t) : ¬Holds t c := by
    intro h
    cases (h.ofText_eq read _).symm.trans wrong
  obtain ⟨crashes, ends⟩ := run_configured (asks_beside text) (configured_beside text)
  refine ⟨asks_beside text, configured_beside text, ?_⟩
  rcases ends with ⟨crash, ending⟩ | reports | ⟨t, c, g, source, read, holds, -⟩
  · obtain ⟨t, read, h⟩ := (crashes crash).mp ending
    cases h with
    | config h =>
      cases (h.ofText_eq read _).symm.trans wrong
      cases h.isInvalid_eq
    | grammar holds => exact absurd holds (unheld t _ read)
    | integer holds => exact absurd holds (unheld t _ read)
  · exact reports
  · exact absurd holds (unheld t c read)

/-- A limit without end is no number that a limit can be, but ends the run in a failure. -/
theorem run_without_end :
    let text := "[parse]\nmax_depth = inf\n"
    (beside text).Asks ["parse", "a"] { text := some "a" } ∧
      (beside text).Configured { text := some "a" } (.ofLocation [fileName]) text ∧
      ((beside text).run ["parse", "a"]).ending = .crash (.config .depthInfinite) := by
  intro text
  let t : Toml.Table := [("parse", .table [("max_depth", .float (.infinite false))])]
  have read : Toml.read text = .ok t := by cbv
  have placed : ∀ v, ¬Misplaced t "parse" v := by
    rintro v ⟨found, h⟩
    cases found
    exact h _ rfl
  have endless : NoNumber (entry t "parse" "max_depth" (.integer 200)) .depthInfinite := .endless false
  refine ⟨asks_beside text, configured_beside text, ?_⟩
  rw [(asks_beside text).run_eq]
  exact Escapes.ending_eq (.config (.depth placed endless)) (configured_beside text) read

end Surroundings
end CommandLine
end BindingPower
