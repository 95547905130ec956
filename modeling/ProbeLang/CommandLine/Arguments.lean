import ProbeLang.Config

/-!
# Arguments

The command line is a list of options and source files. An option has a long name behind two
dashes or a letter behind one; its value follows behind an equals sign, directly behind the
letter, or as the next argument, which then may not begin with a dash. No option may be given
twice. Everything behind two dashes alone is a file.

Some long names may be written with one dash.
-/

namespace ProbeLang

/-- The form of a report. -/
inductive ReportFormat
  | text
  | json
  deriving Repr, DecidableEq

/-- The options with a value. -/
inductive ValueOption
  | classPath
  | outputDir
  | includePath
  | packExtension
  | config
  | policy
  | report
  | logLevel
  deriving Repr, DecidableEq

/-- The options without a value. -/
inductive Switch
  | trusted
  | noPack
  | logJson
  deriving Repr, DecidableEq

/-- What a name on the command line means. -/
inductive OptionMeaning
  | value (option : ValueOption)
  | switch (s : Switch)
  | version
  deriving Repr, DecidableEq

/-- Why parsing stops before the end. -/
inductive ArgumentStop
  | refused
  | version
  deriving Repr, DecidableEq

/-- What has been read from the command line. -/
structure Arguments where
  values : List (ValueOption × String) := []
  switches : List Switch := []
  files : List String := []
  deriving Repr, DecidableEq

namespace Arguments

/-- The long names of options. -/
def longNames : List (String × OptionMeaning) :=
  [("classpath", .value .classPath), ("cp", .value .classPath),
   ("packext", .value .packExtension), ("config", .value .config), ("policy", .value .policy),
   ("report", .value .report), ("log-level", .value .logLevel), ("trusted", .switch .trusted),
   ("unsafe", .switch .trusted), ("nopack", .switch .noPack), ("log-json", .switch .logJson),
   ("version", .version)]

/-- The letters of options. -/
def letters : List (Char × OptionMeaning) :=
  [('d', .value .outputDir), ('I', .value .includePath), ('V', .version)]

/-- The long names that may be written with one dash. -/
def singleDash : List String :=
  ["-cp", "-classpath", "-nopack", "-packext", "-trusted", "-unsafe"]

/-- An argument with two dashes where one is allowed instead. -/
def normalize (arg : String) : String :=
  if singleDash.contains arg then "-" ++ arg else arg

/-- The names of report formats. -/
def reportFormats : List (String × ReportFormat) :=
  [("text", .text), ("json", .json)]

/-- Whether an option takes a value. Paths may not be empty. -/
def takes : ValueOption → String → Bool
  | .outputDir, v | .policy, v => !v.isEmpty
  | .report, v => (reportFormats.lookup v).isSome
  | _, _ => true

/-- Add the value of an option. -/
def addValue (a : Arguments) (o : ValueOption) (v : String) : Except ArgumentStop Arguments :=
  if takes o v && (a.values.lookup o).isNone then .ok { a with values := (o, v) :: a.values }
  else .error .refused

/-- Add a switch. -/
def addSwitch (a : Arguments) (s : Switch) : Except ArgumentStop Arguments :=
  if a.switches.contains s then .error .refused else .ok { a with switches := s :: a.switches }

/-- Add a file. -/
def addFile (a : Arguments) (file : String) : Except ArgumentStop Arguments :=
  if file.isEmpty then .error .refused else .ok { a with files := a.files ++ [file] }

/-- The form of an argument. -/
inductive Form
  /-- Two dashes alone. -/
  | rest
  /-- A name, with a value behind an equals sign. -/
  | long (name : String) (value : Option String)
  /-- A letter, and what stands directly behind it. -/
  | short (letter : Char) (attached : List Char)
  | word
  deriving Repr, DecidableEq

/-- The form that an argument has. -/
def formOf (arg : String) : Form :=
  match arg.toList with
  | ['-', '-'] => .rest
  | '-' :: '-' :: cs =>
      let name := String.ofList (cs.takeWhile (· ≠ '='))
      match cs.dropWhile (· ≠ '=') with
      | _ :: value => .long name (some (String.ofList value))
      | [] => .long name none
  | '-' :: c :: attached => .short c attached
  | _ => .word

/-- The value that stands directly behind a letter. -/
def attachedValue : List Char → Option String
  | [] => none
  | '=' :: value => some (String.ofList value)
  | value => some (String.ofList value)

/-- An option with what stands in its own argument. What is left tells whether its value is the
next argument. -/
def apply (a : Arguments) (meaning : OptionMeaning) (value : Option String) :
    Except ArgumentStop (Arguments × Option ValueOption) :=
  match meaning, value with
  | .value o, some v => (a.addValue o v).map fun a => (a, none)
  | .value o, none => .ok (a, some o)
  | .switch s, none => (a.addSwitch s).map fun a => (a, none)
  | .version, none => .error .version
  | .switch _, some _ | .version, some _ => .error .refused

/-- An argument that is an option, with an open option if its value is the next argument. -/
def applyForm (a : Arguments) : Form → Except ArgumentStop (Arguments × Option ValueOption)
  | .long name value => (longNames.lookup name).elim (.error .refused) fun m => a.apply m value
  | .short c attached =>
      match letters.lookup c with
      | some .version => .error .version
      | some m => a.apply m (attachedValue attached)
      | none => .error .refused
  | .rest | .word => .ok (a, none)

/-- Read arguments. `opened` is the option whose value comes next. -/
def read (a : Arguments) (opened : Option ValueOption) :
    List String → Except ArgumentStop Arguments
  | [] => if opened.isSome then .error .refused else .ok a
  | arg :: rest =>
      match formOf arg, opened with
      | .word, some o => do read (← a.addValue o arg) none rest
      | _, some _ => .error .refused
      | .word, none => do read (← a.addFile arg) none rest
      | .rest, none => rest.foldlM addFile a
      | form, none => do
          let (a, opened) ← a.applyForm form
          read a opened rest

/-- Add the values of options that are given by the environment. -/
def withEnvironment (a : Arguments) (env : Environment) : Except ArgumentStop Arguments := do
  let fill (a : Arguments) (o : ValueOption) (name : String) : Arguments :=
    match a.values.lookup o, env.lookup name with
    | none, some v => { a with values := (o, v) :: a.values }
    | _, _ => a
  let a := fill (fill a .config "PROBEC_CONFIG") .logLevel "PROBEC_LOG_LEVEL"
  if a.switches.contains .logJson then return a
  else
    match env.lookup "PROBEC_LOG_JSON" with
    | none | some "false" => return a
    | some "true" => a.addSwitch .logJson
    | some _ => throw .refused

/-- The arguments of a command line in an environment. There must be a file. -/
def parse (env : Environment) (args : List String) : Except ArgumentStop Arguments := do
  let a ← read {} none (args.map normalize)
  let a ← a.withEnvironment env
  if a.files.isEmpty then throw .refused else return a

/-- The value of an option. -/
def value? (a : Arguments) (o : ValueOption) : Option String :=
  a.values.lookup o

/-- Whether a switch is given. -/
def has (a : Arguments) (s : Switch) : Bool :=
  a.switches.contains s

end Arguments

end ProbeLang
