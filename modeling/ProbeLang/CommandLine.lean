import ProbeLang.CommandLine.Arguments
import ProbeLang.Compiler
import ProbeLang.Report

/-!
# The command line

The command compiles source files, verifies them unless they are trusted, and writes their
artifacts below a directory. It ends with zero if that was done, with one if there were errors
or a fault, and with two if it was not used as it should be.
-/

namespace ProbeLang

/-- What a run of the command leaves behind. -/
structure CommandResult where
  code : UInt8
  stdout : String := ""
  stderr : String := ""
  files : FileTree

namespace CommandLine

/-- The version of the command. -/
def version : String := "0.1.3"

/-- A line from the command about itself. -/
def complaint (message : String) : String :=
  "probec: " ++ message ++ "\n"

/-- The end of a run that was not used as it should be. -/
def usage (t : FileTree) (message : String) : CommandResult :=
  { code := 2, stderr := complaint message, files := t }

/-- The end of a run with a fault, behind text that has been printed. -/
def failure (t : FileTree) (printed message : String) : CommandResult :=
  { code := 1, stderr := printed ++ complaint message, files := t }

/-- The settings that the command line overrides, and the others. -/
structure Settings where
  args : Arguments
  config : CompilerConfig

namespace Settings

/-- The compiler without its verifier. -/
def plainCompiler (s : Settings) : Compiler where
  includes := ((s.args.value? .includePath).or s.config.includePath).map SearchPath.parse
  generatePack := s.config.generatePack && !s.args.has .noPack
  packExtension := (s.args.value? .packExtension).getD s.config.packExtension

/-- The verifiers: none if everything is trusted, else one. -/
def verifiers (s : Settings) (t : FileTree) : Except CompileFault (List Verifier) :=
  if s.args.has .trusted || !s.config.verify then .ok []
  else do
    let policy ←
      match (s.args.value? .policy).or s.config.policy with
      | some path => (Policy.load t path).mapError .policy
      | none => .ok .baseline
    let messages ←
      match s.config.messages with
      | some path => (MessageCatalog.load t path).mapError .messages
      | none => .ok .builtin
    return [⟨policy, messages⟩]

/-- Report what was done, if that is asked for. -/
def reportText (s : Settings) (r : Report) : String :=
  match (s.args.value? .report).bind fun v => Arguments.reportFormats.lookup v with
  | some .text => r.text
  | some .json => r.json
  | none => ""

/-- Write what a compilation made, and report it. -/
def finish (s : Settings) (t : FileTree) (c : Compiler) (done : Compilation) :
    CommandResult :=
  let stderr := done.sink.text
  let verified := done.registries.flatten
  match done.result with
  | .error fault =>
      failure t stderr (": ".intercalate ("compilation aborted" :: fault.message :: fault.causes))
  | .ok none => { code := 1, stdout := s.reportText ⟨false, [], verified⟩, stderr, files := t }
  | .ok (some artifacts) =>
      match writeArtifacts t artifacts ((s.args.value? .outputDir).getD ".") c.packExtension with
      | (.error fault, t) => failure t stderr (fault.message ++ ": " ++ fault.cause.message)
      | (.ok written, t) =>
          { code := 0, stdout := s.reportText ⟨true, written, verified⟩, stderr, files := t }

/-- Compile the files. -/
def compile (s : Settings) (t : FileTree) : CommandResult :=
  match s.verifiers t with
  | .error fault => failure t "" fault.message
  | .ok verifiers =>
      let c := { s.plainCompiler with verifiers }
      let paths : CompilePaths := ⟨some ".", some ((s.args.value? .classPath).getD ".")⟩
      s.finish t c (c.compileFiles t c.newRegistries {} paths s.args.files)

/-- Compile the files if the command is used as it should be. -/
def run (s : Settings) (t : FileTree) : CommandResult :=
  if s.args.has .noPack && (s.args.value? .packExtension).isSome then
    usage t "Can not specify pack extension if not using packs (--nopack)"
  else
    match s.args.files.find? fun file => !t.pathExists file with
    | some file => usage t ("File not found: " ++ file)
    | none => s.compile t

end Settings

/-- Run the command with arguments in an environment and a working directory. -/
def run (t : FileTree) (env : Environment) (args : List String) : CommandResult :=
  match Arguments.parse env args with
  | .error .refused => { code := 2, stderr := "error: invalid arguments\n", files := t }
  | .error .version => { code := 0, stdout := "probec " ++ version ++ "\n", files := t }
  | .ok args =>
      match CompilerConfig.load t env (args.value? .config) with
      | .error fault => usage t ("invalid configuration: " ++ fault.message)
      | .ok config => Settings.run ⟨args, config⟩ t

end CommandLine

end ProbeLang
