import ProbeLang.Files
import ProbeLang.Files.Fault
import ProbeLang.Table
import ProbeLang.Text.Digits
import ProbeLang.Yaml

/-!
# Message catalogs

The texts of the verifier, by key. A catalog begins with the built-in texts, of which a YAML
mapping may replace any or to which it may add. A key without a text stands for itself.

A text may have placeholders, numbers in braces, which are replaced by arguments. What is put
in is not searched for placeholders, and a brace that begins none stays as it is.
-/

namespace ProbeLang

/-- Texts by key. -/
abbrev MessageCatalog := Table String

namespace MessageCatalog

/-- The key of the text for a value of a trust argument that is no constant. -/
def malformedTrustKey : String := "no.complex.unsafe.value"

/-- The key of the text for a violation: the class and what is wrong. -/
def violationKey : String := "policy.violation"

/-- The built-in texts. -/
def builtin : MessageCatalog :=
  [("no.loops", "loops are not allowed"),
   ("no.new.object", "object creation is not allowed"),
   ("no.throw", "throwing exceptions is not allowed"),
   ("no.synchronized.blocks", "synchronized blocks are not allowed"),
   ("no.assignment", "assignment to fields is not allowed"),
   ("no.nested.class", "nested classes are not allowed"),
   ("no.instance.members", "instance members are not allowed"),
   (malformedTrustKey, "the value of unsafe/trusted must be a boolean literal"),
   (violationKey, "\x7b0\x7d: \x7b1\x7d")]

/-- The text of a key, or the key. -/
def text (catalog : MessageCatalog) (key : String) : String :=
  (catalog.find? key).getD key

/-- The number that is written, perhaps with a plus sign, if it is below a bound. -/
def numberBelow (bound : Nat) (cs : List Char) : Option Nat :=
  let digits :=
    match cs with
    | '+' :: rest => rest
    | cs => cs
  if digits.isEmpty || !digits.all Char.isDigit then none
  else if Text.decimalValue digits < bound then some (Text.decimalValue digits) else none

/-- The argument that the text behind an opening brace stands for, and the text behind the
closing brace. -/
def placeholder (args : List String) (cs : List Char) : Option (String × List Char) :=
  match cs.dropWhile (· ≠ '}') with
  | [] => none
  | _ :: rest => do
      let i ← numberBelow args.length (cs.takeWhile (· ≠ '}'))
      let arg ← args[i]?
      return (arg, rest)

/-- Less of a text is left behind a placeholder than behind its opening brace. -/
theorem length_of_placeholder {args : List String} {cs rest : List Char} {arg : String}
    (h : placeholder args cs = some (arg, rest)) : rest.length < cs.length := by
  unfold placeholder at h
  split at h
  · cases h
  · next c rest' hdrop =>
      obtain ⟨i, -, h⟩ := Option.bind_eq_some_iff.mp h
      obtain ⟨_, -, h⟩ := Option.bind_eq_some_iff.mp h
      cases h
      have hlength := (List.dropWhile_suffix (l := cs) (· ≠ '}')).length_le
      rwa [hdrop] at hlength

/-- Put arguments into a text; `done` comes first, last character first. Every step leaves less of
the text, so the end of it is reached. -/
def substitute (args : List String) (done : List Char) : List Char → List Char
  | [] => done.reverse
  | c :: cs =>
      if c = '{' then
        match _h : placeholder args cs with
        | some (arg, rest) => substitute args (arg.toList.reverse ++ done) rest
        | none => substitute args (c :: done) cs
      else substitute args (c :: done) cs
termination_by cs => cs.length
decreasing_by
  · exact Nat.lt_succ_of_lt (length_of_placeholder _h)
  · exact Nat.lt_succ_self cs.length
  · exact Nat.lt_succ_self cs.length

/-- The text of a key with arguments. -/
def format (catalog : MessageCatalog) (key : String) (args : List String) : String :=
  String.ofList (substitute args [] (catalog.text key).toList)

/-- The built-in texts, replaced by those of a YAML document. -/
def ofYaml? (source : String) : Option MessageCatalog := do
  let entries ← ((← Yaml.parse .first source).getD Yaml.empty).entries?
  let texts ← entries.mapM fun (key, value) => value.text?.map fun text => (key, text)
  return texts.foldl (fun catalog (key, text) => catalog.put key text) builtin

/-- The catalog in a file. -/
def load (t : FileTree) (path : String) : Except DocumentFault MessageCatalog := do
  let source ← (t.readText path).mapError (.unreadable path)
  (ofYaml? source).elim (.error .malformed) .ok

end MessageCatalog

end ProbeLang
