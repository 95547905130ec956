import ProbeLang.Files
import ProbeLang.Lines.Continuation
import ProbeLang.Preprocess.Fault
import ProbeLang.Preprocess.Macros

/-!
# Preprocessing

A source is read line by line after continued lines have been joined. A line whose first
character that is no blank is `#` is a directive, unless a block comment is open; every other
line is copied with macros replaced. Directives and the lines of a branch that is not taken
leave an empty line behind, so lines keep their numbers; an `#include` is replaced by the
processed lines of the file it names.

Conditionals and block comments belong to one file, while macros are shared with the files
it includes. The nesting of includes is limited, which also ends cycles.
-/

namespace ProbeLang

/-! ## Search paths

A list of directories in which a name is looked up. The first directory that has a regular
file under the name decides; an absolute name is looked up without them. -/

/-- Directories in the order in which they are searched. -/
structure SearchPath where
  dirs : List String
  deriving Repr, DecidableEq

namespace SearchPath

/-- The directories written one after the other with colons between; empty ones are dropped. -/
def parse (joined : String) : SearchPath :=
  ⟨(FilePath.splitOnChar ':' joined).filter fun dir => !dir.isEmpty⟩

/-- The file that a name stands for. -/
def resolve (s : SearchPath) (t : FileTree) (name : String) : Option String :=
  if FilePath.isAbsolute name then
    if t.isFile name then some name else none
  else
    (s.dirs.map fun dir => FilePath.join dir name).find? t.isFile

end SearchPath

/-! ## Directives and lines -/

/-- An open conditional. -/
structure Conditional where
  /-- Whether lines of the current branch are copied. -/
  active : Bool
  /-- Whether lines around the conditional are copied. -/
  parentActive : Bool
  seenElse : Bool
  openedAt : Nat
  deriving Repr, DecidableEq

/-- What is open at some line of a file; the innermost conditional comes first. -/
structure FileState where
  conditionals : List Conditional
  inComment : Bool
  deriving Repr, DecidableEq

namespace FileState

/-- Nothing is open at the start of a file. -/
def start : FileState := ⟨[], false⟩

/-- Whether lines are copied. -/
def active (st : FileState) : Bool :=
  match st.conditionals with
  | [] => true
  | c :: _ => c.active

end FileState

/-- A directive: the word behind the sign, and what follows it. -/
structure Directive where
  name : String
  operand : List Char
  deriving Repr, DecidableEq

/-- The first word of a text and the rest without blanks around it. -/
def splitWord (cs : List Char) : List Char × List Char :=
  (cs.takeWhile fun c => !Text.isBlank c,
    Text.trimBlanks (cs.dropWhile fun c => !Text.isBlank c))

namespace Directive

/-- The directive on a line, if the line is one. -/
def ofLine? (line : List Char) : Option Directive :=
  match Text.dropBlanks line with
  | '#' :: rest =>
      let (name, operand) := splitWord (Text.trimBlanks rest)
      some ⟨String.ofList name, operand⟩
  | _ => none

/-- Whether a text may name a macro in a directive. -/
def isMacroName : List Char → Bool
  | [] => false
  | c :: rest =>
      (Text.isAlphabetic c || c == '_') && rest.all fun c => Text.isAlphanumeric c || c == '_'

/-- What stands between quotation marks or angle brackets. -/
def target? (operand : List Char) : Option String :=
  let inside (first last : Char) : Option (List Char) :=
    match operand with
    | c :: rest => if c = first && rest.getLast? == some last then some rest.dropLast else none
    | [] => none
  match (inside '"' '"').or (inside '<' '>') with
  | some [] | none => none
  | some name => some (String.ofList name)

end Directive

/-- What a line does: it leaves a line in the output and changes what is open and which macros
are in force, or it asks for a file to be put in its place. -/
inductive LineEffect
  | emit (st : FileState) (macros : Macros) (line : String)
  | splice (target : String)

/-- The effect of a directive. -/
def Directive.effect (d : Directive) (origin : String) (line : Nat) (st : FileState)
    (macros : Macros) : Except PreprocessFault LineEffect :=
  let macroName (name : List Char) : Except PreprocessFault String :=
    if isMacroName name then .ok (String.ofList name)
    else .error (.malformedDirective origin line (.noMacroName d.name (String.ofList name)))
  let openBlock (wanted : Bool) : Except PreprocessFault LineEffect := do
    let name ← macroName d.operand
    let block := ⟨st.active && (macros.has name == wanted), st.active, false, line⟩
    return .emit { st with conditionals := block :: st.conditionals } macros ""
  match d.name with
  | "ifdef" => openBlock true
  | "ifndef" => openBlock false
  | "else" =>
      match st.conditionals with
      | [] => .error (.unbalanced origin line .elseAlone)
      | c :: outer =>
          if c.seenElse then .error (.unbalanced origin line .secondElse)
          else
            let c := { c with seenElse := true, active := c.parentActive && !c.active }
            .ok (.emit { st with conditionals := c :: outer } macros "")
  | "endif" =>
      match st.conditionals with
      | [] => .error (.unbalanced origin line .endifAlone)
      | _ :: outer => .ok (.emit { st with conditionals := outer } macros "")
  | name =>
      if !st.active then .ok (.emit st macros "")
      else
        match name with
        | "define" => do
            let (word, value) := splitWord d.operand
            let name ← macroName word
            return .emit st (macros.put name (String.ofList value)) ""
        | "undef" => do
            let name ← macroName d.operand
            return .emit st (macros.erase name) ""
        | "include" =>
            match Directive.target? d.operand with
            | some target => .ok (.splice target)
            | none =>
                .error (.malformedDirective origin line (.noTarget (String.ofList d.operand)))
        | "" => .ok (.emit st macros "")
        | name => .error (.unknownDirective origin line name)

/-- The effect of a line. -/
def lineEffect (origin : String) (n : Nat) (st : FileState) (macros : Macros)
    (line : List Char) : Except PreprocessFault LineEffect :=
  match if st.inComment then none else Directive.ofLine? line with
  | some d => d.effect origin n st macros
  | none =>
      let (text, inComment) := macros.substitute st.inComment line
      .ok (.emit { st with inComment } macros (if st.active then text else ""))

/-- A line without the characters that end it. -/
def dropLineEnd (line : List Char) : List Char :=
  Text.dropRightWhile (fun c => c = '\n' || c = '\r') line

/-- The lines of an input once continued lines are joined. -/
def logicalLines (input : Bytes) : List Bytes :=
  splitLines (joined input)

/-- The macros that are in force in the end, and the processed text. -/
abbrev Processed := Macros × Except PreprocessFault String

/-- Process lines from number `n` on; `splice` processes the file that a target names, and
`out` is the text so far. -/
def processLines (origin : String) (splice : String → Macros → Processed) :
    Nat → FileState → Macros → String → List Bytes → Processed
  | _, st, macros, out, [] =>
      match st.conditionals with
      | [] => (macros, .ok out)
      | c :: _ => (macros, .error (.unbalanced origin c.openedAt .neverClosed))
  | n, st, macros, out, line :: rest =>
      match Utf8.decode line with
      | .error _ => (macros, .error (.io .streamNotText))
      | .ok cs =>
          match lineEffect origin n st macros (dropLineEnd cs) with
          | .error fault => (macros, .error fault)
          | .ok (.emit st macros text) =>
              processLines origin splice (n + 1) st macros (out ++ text ++ "\n") rest
          | .ok (.splice target) =>
              match splice target macros with
              | (macros, .error fault) => (macros, .error fault)
              | (macros, .ok text) =>
                  processLines origin splice (n + 1) st macros (out ++ text) rest

/-- Process the lines of a source from which includes may nest `depth` more levels. -/
def processSource (t : FileTree) (search : SearchPath) (limit : Nat) :
    Nat → String → Macros → List Bytes → Processed
  | 0, origin, macros, lines =>
      processLines origin (fun _ macros => (macros, .error (.tooDeep origin limit)))
        1 .start macros "" lines
  | depth + 1, origin, macros, lines =>
      processLines origin
        (fun target macros =>
          match search.resolve t target with
          | none => (macros, .error (.fileNotFound origin target))
          | some path =>
              match t.read path with
              | .error fault => (macros, .error (.io fault))
              | .ok content =>
                  processSource t search limit depth path macros (logicalLines content))
        1 .start macros "" lines

/-- How deep includes may nest unless told otherwise. -/
def defaultIncludeDepth : Nat := 64

/-- Preprocess an input under a name, starting with the given macros. -/
def preprocess (t : FileTree) (search : SearchPath) (limit : Nat) (macros : Macros)
    (name : String) (input : Bytes) : Processed :=
  processSource t search limit limit name macros (logicalLines input)

/-- Preprocess a text without macros and with the usual limit. -/
def preprocessText (t : FileTree) (search : SearchPath) (name text : String) :
    Except PreprocessFault String :=
  (preprocess t search defaultIncludeDepth [] name (.ofString text)).2

end ProbeLang
