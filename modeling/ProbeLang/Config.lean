import ProbeLang.Config.Ini
import ProbeLang.Config.Json
import ProbeLang.Config.KeyPath
import ProbeLang.Config.Ron
import ProbeLang.Config.Toml
import ProbeLang.Config.Yaml
import ProbeLang.Files

/-!
# Configuration

The settings of the compiler, from three layers: the usual values, a file, and environment
variables whose names begin with a prefix. Its extension tells in which language a file is
written; one that is missing or cannot be read counts as empty. In the name of a variable two
underscores lead into a table. A key of a file or of a variable may be a path into tables and
lists; one that leads in front of the beginning of a list is refused.
-/

namespace ProbeLang

/-- The settings of the compiler. -/
structure CompilerConfig where
  /-- The directories of includes, with colons between. -/
  includePath : Option String := none
  generatePack : Bool := true
  packExtension : String := "class"
  verify : Bool := true
  /-- The file of the policy. -/
  policy : Option String := none
  /-- The file of the messages. -/
  messages : Option String := none
  logLevel : String := "warn"
  logJson : Bool := false
  deriving Repr, DecidableEq

/-- Why there is no configuration. -/
inductive ConfigFault
  /-- A file is not written in its language. -/
  | badFile
  /-- A setting has a value of the wrong kind. -/
  | badValue
  deriving Repr, DecidableEq

/-- The wording of a fault. -/
def ConfigFault.message : ConfigFault → String
  | .badFile => "malformed configuration file"
  | .badValue => "setting of the wrong kind"

/-- The variables of an environment. -/
abbrev Environment := List (String × String)

namespace CompilerConfig

/-! ## Layers -/

/-- The usual values. -/
def usual : Setting :=
  .table [("include_path", .nil), ("generate_pack", .bool true),
    ("pack_extension", .text "class"), ("verify", .bool true), ("policy", .nil),
    ("messages", .nil), ("logging", .table [("level", .text "warn"), ("json", .bool false)])]

/-- The language of a configuration file. -/
inductive Language
  | json
  | toml
  | yaml
  | ini
  | ron
  | json5
  deriving Repr, DecidableEq

/-- The extensions of configuration files. -/
def extensions : List (String × Language) :=
  [("json", .json), ("toml", .toml), ("yaml", .yaml), ("yml", .yaml), ("ini", .ini),
   ("ron", .ron), ("json5", .json5)]

/-- The configuration file of a name: the file itself if it has one of the extensions, or, if
there is no such file, the first that has one of the extensions added. -/
def findFile (t : FileTree) (path : String) : Option (String × Language) :=
  if t.isFile path then
    (FilePath.extension? path).bind fun ext => (extensions.lookup ext).map fun l => (path, l)
  else
    (FilePath.fileName? path).bind fun name =>
      (extensions.map fun (ext, l) => (FilePath.withFileName path (name ++ "." ++ ext), l)).find?
        fun (path, _) => t.isFile path

/-- The table in a text. -/
def readTable (language : Language) (source : String) : Option (List (String × Setting)) := do
  let root ←
    match language with
    | .json => (JsonText.parse source).bind Setting.ofJson?
    | .toml => Toml.parse source
    | .yaml => do
        match ← Yaml.parse .second source with
        | none => some (.table [])
        | some node => Setting.ofYaml? node
    | .ini => Ini.parse source
    | .ron => Ron.parse source
    | .json5 => Json5.parse source
  match root with
  | .table entries => some entries
  | _ => none

/-- The entries of the configuration file of a name. -/
def fileEntries (t : FileTree) (path : String) :
    Except ConfigFault (List (String × Setting)) :=
  match findFile t path with
  | none => .ok []
  | some (path, language) =>
      match t.readText path with
      | .error _ => .ok []
      | .ok source => (readTable language source).elim (.error .badFile) .ok

/-- What the names of variables begin with, in lower case. -/
def variablePrefix : String := "probec_"

/-- Put a dot in place of two underscores. -/
def dotted : List Char → List Char
  | '_' :: '_' :: rest => '.' :: dotted rest
  | c :: rest => c :: dotted rest
  | [] => []

/-- The key that a variable sets. -/
def variableKey (name : String) : Option String :=
  let cs := (Setting.lower name).toList
  let start := variablePrefix.toList
  if start.isPrefixOf cs then some (String.ofList (dotted (cs.drop start.length))) else none

/-- The entries of an environment. -/
def variableEntries (env : Environment) : List (String × Setting) :=
  env.filterMap fun (name, value) =>
    (variableKey name).map fun key => (key, .ofVariable value)

/-- Put a layer over others. Its paths into lists go first, so that where one key asks for a list
and another one for a table, the table stays. -/
def overlay (root : Setting) (layer : List (String × Setting)) : Option Setting :=
  let paths := layer.map fun (key, value) => (KeyPath.ofKey key, value)
  let (lists, others) := paths.partition fun (path, _) => KeyPath.entersList path
  (lists ++ others).foldlM (fun root (path, value) => Setting.putAt value path root) root

/-! ## The configuration -/

/-- The settings for logging. -/
def readLogging : Setting → Option (String × Bool)
  | .table entries => do
      let level ← (entries.lookup "level").elim (some "warn") Setting.text?
      let json ← (entries.lookup "json").elim (some false) Setting.bool?
      return (level, json)
  | .list items => do
      let level ← items[0]?.elim (some "warn") Setting.text?
      let json ← items[1]?.elim (some false) Setting.bool?
      return (level, json)
  | _ => none

/-- The configuration in merged settings. -/
def ofSetting (root : Setting) : Option CompilerConfig := do
  let entry (key : String) : Setting := (root.entries.find? key).getD .nil
  let (logLevel, logJson) ← readLogging (entry "logging")
  return {
    includePath := ← (entry "include_path").optionalText?
    generatePack := ← (entry "generate_pack").bool?
    packExtension := ← (entry "pack_extension").text?
    verify := ← (entry "verify").bool?
    policy := ← (entry "policy").optionalText?
    messages := ← (entry "messages").optionalText?
    logLevel
    logJson }

/-- The configuration from the usual values, a file and an environment. -/
def load (t : FileTree) (env : Environment) (path : Option String) :
    Except ConfigFault CompilerConfig := do
  let file ←
    match path with
    | none => .ok []
    | some path => fileEntries t path
  let config := do ofSetting (← overlay (← overlay usual file) (variableEntries env))
  config.elim (.error .badValue) .ok

end CompilerConfig

end ProbeLang
