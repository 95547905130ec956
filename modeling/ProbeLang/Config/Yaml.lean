import ProbeLang.Config.Setting
import ProbeLang.Yaml

/-!
# Settings from YAML

A scalar without quotes is taken for the kind of value that it looks like. A mapping may not have
a key twice, and its keys are texts or integers; an integer stands for its decimal digits. The
words for infinity that begin with a dot, and the one for what is no number, are refused.
-/

namespace ProbeLang.Setting

/-- The words of real numbers that begin with a dot. -/
def dottedWords : List String :=
  [".inf", ".Inf", ".INF", "+.inf", "+.Inf", "+.INF", "-.inf", "-.Inf", "-.INF",
   ".nan", ".NaN", ".NAN"]

/-- The integer that a scalar without quotes writes: in decimal digits with up to two signs, of
which the first is a plus, or in hexadecimal or octal digits behind a mark. -/
def plainInt? (cs : List Char) : Option Int :=
  let marked :=
    match cs with
    | '0' :: 'x' :: rest => int? 16 rest
    | '0' :: 'o' :: rest => int? 8 rest
    | '+' :: rest => int? 10 rest
    | _ => none
  marked.orElse fun _ => int? 10 cs

/-- The value of a scalar without quotes. -/
def ofPlain? (s : String) : Option Setting :=
  if s = "" || s = "~" || s = "null" then some .nil
  else if s = "true" then some (.bool true)
  else if s = "false" then some (.bool false)
  else if dottedWords.contains s then none
  else
    match plainInt? s.toList, Binary64.ofText? s.toList with
    | some n, _ => some (.int n)
    | none, some x => some (.real x)
    | none, none => some (.text s)

/-- A key, as an integer or as a text. -/
def keyOf? : Yaml → Option (Int ⊕ String)
  | .scalar false s => some (.inr s)
  | .scalar true s =>
      match ofPlain? s with
      | some (.text s) => some (.inr s)
      | some (.int n) => some (.inl n)
      | _ => none
  | _ => none

/-- The name that a key stands for. -/
def keyName : Int ⊕ String → String
  | .inl n => toString n
  | .inr s => s

/-- Whether no two keys are the same. -/
def distinct : List (Int ⊕ String) → Bool
  | [] => true
  | key :: rest => !rest.contains key && distinct rest

mutual

/-- The setting of a node. -/
def ofYaml? : Yaml → Option Setting
  | .scalar true s => ofPlain? s
  | .scalar false s => some (.text s)
  | .list items => (ofYamlItems? items).map .list
  | .mapping entries => do
      let entries ← ofYamlEntries? entries
      if distinct (entries.map Prod.fst) then
        let table : Table Setting :=
          entries.foldl (fun done (key, value) => Table.put done (keyName key) value) []
        some (.table table)
      else none

/-- The settings of nodes. -/
def ofYamlItems? : List Yaml → Option (List Setting)
  | [] => some []
  | node :: rest => do return (← ofYaml? node) :: (← ofYamlItems? rest)

/-- The keys and settings of entries. -/
def ofYamlEntries? : List (Yaml × Yaml) → Option (List ((Int ⊕ String) × Setting))
  | [] => some []
  | (key, node) :: rest => do return (← keyOf? key, ← ofYaml? node) :: (← ofYamlEntries? rest)

end

end ProbeLang.Setting
