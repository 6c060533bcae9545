import BindingPower.CommandLine

/-! The program: gathers the files that the words may name, runs them and prints the result. -/
namespace BindingPower.CommandLine

/-- The part of the file system that lies at one path and above it. -/
def filesAt (current : Location) (path : String) : IO FileTree := do
  let place := (← IO.currentDir) / path
  let location := (FilePath.ofText path).resolve current
  if ← place.isDir then return { folders := [location] }
  else if ← place.pathExists then
    return { files := [(location, ← IO.FS.readFile place)], folders := [location.dropLast] }
  else return {}

/-- The paths that a word may hold: as a whole, after an equals sign, or after a short option. -/
def pathsIn (word : String) : List String :=
  [word, String.ofList ((word.toList.dropWhile (· != '=')).drop 1), String.ofList (word.toList.drop 2)]

/-- The files that the words name, and the configurations at and above the current folder. -/
def look (current : Location) (words : List String) : IO FileTree := do
  let above := current.upward.map fun l => Location.toText (l ++ [Config.fileName])
  let found ← (above ++ words.flatMap pathsIn).mapM (filesAt current)
  return { files := found.flatMap (·.files), folders := current :: found.flatMap (·.folders) }

end BindingPower.CommandLine

open BindingPower in
/-- Runs the words after the program's name. -/
def main (words : List String) : IO UInt32 := do
  let current : Location := (FilePath.ofText (← IO.currentDir).toString).parts
  let files ← CommandLine.look current words
  let terminal ← (← IO.getStdout).isTty
  let run := CommandLine.Surroundings.run { files, current, terminal } words
  (← IO.getStdout).putStr run.out
  (← IO.getStderr).putStr run.err
  match run.ending with
  | .exit code => return code.toUInt32
  | .misused =>
    (← IO.getStderr).putStr (CommandLine.Surroundings.usage ++ "\n")
    return 2
  | .crash cause =>
    (← IO.getStderr).putStr (toString (repr cause) ++ "\n")
    return 1
