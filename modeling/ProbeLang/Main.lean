import ProbeLang.CommandLine

/-!
# The program

The command on the working directory: the files below it are read, the command is run on them,
and the files that it has written are put back.
-/

namespace ProbeLang.CommandLine

/-- The variables that the command looks at. -/
def variableNames : List String :=
  ["PROBEC_CONFIG", "PROBEC_LOG_LEVEL", "PROBEC_LOG_JSON", "PROBEC_INCLUDE_PATH",
   "PROBEC_GENERATE_PACK", "PROBEC_PACK_EXTENSION", "PROBEC_VERIFY", "PROBEC_POLICY",
   "PROBEC_MESSAGES", "PROBEC_LOGGING", "PROBEC_LOGGING__LEVEL", "PROBEC_LOGGING__JSON"]

/-- The environment of the command. -/
def readEnvironment : IO Environment :=
  variableNames.filterMapM fun name => do
    return (← IO.getEnv name).map fun value => (name, value)

/-- What stands at an entry of a directory and below it; `steps` lead to the directory. What
cannot be read is left out. -/
partial def readEntry (steps : List String) (e : IO.FS.DirEntry) :
    IO (List (List String × Entry)) := do
  let steps := steps ++ [e.fileName]
  try
    if ← e.path.isDir then
      let below ← (← e.path.readDir).toList.mapM (readEntry steps)
      return (steps, .dir) :: below.flatten
    else
      return [(steps, .file (← IO.FS.readBinFile e.path).toList)]
  catch _ => return []

/-- The files below the working directory. -/
def readFiles : IO FileTree := do
  let root ← IO.currentDir
  let entries ← (← root.readDir).toList.mapM (readEntry [])
  return { entries := entries.flatten, root := root.toString }

/-- Write files below the working directory. -/
def writeFiles (files : List (String × Bytes)) : IO Unit :=
  for (path, content) in files do
    if let some dir := FilePath.parent? path then
      if !dir.isEmpty then
        IO.FS.createDirAll dir
    IO.FS.writeBinFile path ⟨content.toArray⟩

end ProbeLang.CommandLine

open ProbeLang in
/-- Run the command and answer its exit code. -/
def main (args : List String) : IO UInt32 := do
  let files ← CommandLine.readFiles
  let result := CommandLine.run files (← CommandLine.readEnvironment) args
  CommandLine.writeFiles (result.files.changedSince files)
  IO.print result.stdout
  IO.eprint result.stderr
  return result.code.toUInt32
