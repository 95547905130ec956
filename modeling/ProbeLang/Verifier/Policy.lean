import ProbeLang.Files
import ProbeLang.Files.Fault
import ProbeLang.Table
import ProbeLang.Tree.Walk
import ProbeLang.Yaml

/-!
# Policies

A policy forbids some constructs of the language. Checking a class finds every place where a
forbidden construct stands, in the class itself and in its nested classes, in the order of the
source. A policy may be read from a YAML document and may choose the messages of its own.
-/

namespace ProbeLang

/-- A construct that a policy may forbid. -/
inductive Construct
  /-- `while` and `for`. -/
  | loop
  /-- The creation of objects and of arrays. -/
  | objectCreation
  | throw
  | synchronized
  /-- An assignment to a field. -/
  | fieldAssignment
  | nestedClass
  /-- A field or a method that is not static. -/
  | instanceMember
  deriving Repr, DecidableEq

namespace Construct

/-- Every construct. -/
def all : List Construct :=
  [.loop, .objectCreation, .throw, .synchronized, .fieldAssignment, .nestedClass,
   .instanceMember]

/-- The name of a construct. -/
def name : Construct → String
  | .loop => "loop"
  | .objectCreation => "object_creation"
  | .throw => "throw"
  | .synchronized => "synchronized"
  | .fieldAssignment => "field_assignment"
  | .nestedClass => "nested_class"
  | .instanceMember => "instance_member"

/-- The construct of a name. -/
def ofName? (name : String) : Option Construct :=
  all.find? fun c => c.name == name

/-- The key of the message about a construct. -/
def messageKey : Construct → String
  | .loop => "no.loops"
  | .objectCreation => "no.new.object"
  | .throw => "no.throw"
  | .synchronized => "no.synchronized.blocks"
  | .fieldAssignment => "no.assignment"
  | .nestedClass => "no.nested.class"
  | .instanceMember => "no.instance.members"

end Construct

/-- Whether an assignment to a target assigns a field. Where the target has not been analysed,
its form decides. -/
def Expr.assignsField (target : Expr) : Bool :=
  match target.note.refers, target with
  | some (.field ..), _ => true
  | some _, _ => false
  | none, .field .. => true
  | none, _ => false

/-! ## Policies -/

/-- What a policy forbids, with the keys of the messages that differ from the usual ones. -/
structure Policy where
  name : String
  forbidden : List Construct
  messageKeys : List (Construct × String) := []
  deriving Repr, DecidableEq

/-- A forbidden construct in a class. -/
structure Violation where
  construct : Construct
  messageKey : String
  pos : Pos
  deriving Repr, DecidableEq

namespace Policy

/-- No loops, no creation of objects, no `throw` and no `synchronized`. -/
def baseline : Policy :=
  ⟨"baseline", [.loop, .objectCreation, .throw, .synchronized], []⟩

/-- Everything is forbidden that can be. -/
def strict : Policy :=
  ⟨"strict", Construct.all, []⟩

/-- Nothing is forbidden. -/
def permissive : Policy :=
  ⟨"permissive", [], []⟩

/-- Whether a policy forbids a construct. -/
def forbids (p : Policy) (c : Construct) : Bool :=
  p.forbidden.contains c

/-- The key of the message about a construct. -/
def messageKey (p : Policy) (c : Construct) : String :=
  (p.messageKeys.lookup c).getD c.messageKey

/-- The violation that a construct at a place is, behind those that have been found, if the construct
is forbidden. -/
def flag (p : Policy) (c : Construct) (pos : Pos) (found : Array Violation) : Array Violation :=
  if p.forbids c then found.push ⟨c, p.messageKey c, pos⟩ else found

/-- The visitor that looks for what is forbidden. It goes on with the walk everywhere. -/
def scan (p : Policy) : Visitor (Array Violation) where
  cls c walk found := walk (p.flag .nestedClass c.pos found)
  field f walk found :=
    walk (if f.modifiers.has .isStatic then found else p.flag .instanceMember f.pos found)
  method m walk found :=
    walk (if m.modifiers.has .isStatic then found else p.flag .instanceMember m.pos found)
  stmt s walk found := walk <|
    match s with
    | .whileLoop pos .. | .forLoop pos .. => p.flag .loop pos found
    | .throw pos _ => p.flag .throw pos found
    | .synchronized pos .. => p.flag .synchronized pos found
    | _ => found
  expr e walk found := walk <|
    match e with
    | .new n .. | .newArray n .. => p.flag .objectCreation n.pos found
    | .assign n target _ =>
        if target.assignsField then p.flag .fieldAssignment n.pos found else found
    | _ => found

/-- What is wrong with a class. The class itself is no construct, only the classes in it are. -/
def check (p : Policy) (c : ClassDecl) : List Violation :=
  (p.scan.walkClass c #[]).toList

/-- The only value of a key, if it has one. More than one value is refused. -/
def uniqueEntry (entries : List (String × Yaml)) (key : String) : Option (Option Yaml) :=
  match entries.filter fun (k, _) => k == key with
  | [] => some none
  | [(_, value)] => some (some value)
  | _ => none

/-- The message keys in a document. Of two for one construct the last one counts. -/
def keysOfYaml (node : Yaml) : Option (List (Construct × String)) := do
  let pairs ← (← node.entries?).mapM fun (key, value) => do
    return (← Construct.ofName? key, ← value.text?)
  return pairs.reverse

/-- The constructs in a list of a document. -/
def constructsOfYaml (node : Yaml) : Option (List Construct) := do
  (← node.items?).mapM fun item => item.text?.bind Construct.ofName?

/-- The policy in a YAML document. Each of its parts may be left out; other entries do not
count. -/
def ofYaml? (source : String) : Option Policy := do
  let entries ← ((← Yaml.parse .first source).getD Yaml.empty).entries?
  let name ← uniqueEntry entries "name"
  let forbidden ← uniqueEntry entries "forbid"
  let messageKeys ← uniqueEntry entries "message_keys"
  return {
    name := ← name.elim (some "custom") Yaml.text?
    forbidden := ← forbidden.elim (some []) constructsOfYaml
    messageKeys := ← messageKeys.elim (some []) keysOfYaml }

/-- The policy in a file. -/
def load (t : FileTree) (path : String) : Except DocumentFault Policy := do
  let source ← (t.readText path).mapError (.unreadable path)
  (ofYaml? source).elim (.error .malformed) .ok

end Policy

end ProbeLang
