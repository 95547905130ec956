import ProbeLang.Yaml.Scan

/-!
# YAML documents

A node is a scalar, a list or a mapping. A scalar is text; whether it has quotes is kept, since
a scalar without quotes may stand for something else than its text.
-/

namespace ProbeLang

/-- A node of a document. -/
inductive Yaml
  /-- A scalar, and whether it has no quotes. -/
  | scalar (plain : Bool) (text : String)
  | list (items : List Yaml)
  | mapping (entries : List (Yaml × Yaml))
  deriving Inhabited

namespace Yaml

/-- The node that is left out. -/
def empty : Yaml := .scalar true ""

/-- The text of a scalar. -/
def text? : Yaml → Option String
  | .scalar _ s => some s
  | _ => none

/-- The items of a list; a node that is left out is the list without items. -/
def items? : Yaml → Option (List Yaml)
  | .list items => some items
  | .scalar true "" => some []
  | _ => none

/-- The entries of a mapping with scalar keys; a node that is left out is the mapping without
entries. -/
def entries? : Yaml → Option (List (String × Yaml))
  | .mapping entries => entries.mapM fun (key, value) => key.text?.map fun key => (key, value)
  | .scalar true "" => some []
  | _ => none

/-! ## Documents

Nodes from tokens. A node that is left out is empty. An entry in a list in brackets that has a
colon is a mapping of one key. A text has no more than one document; one without any is told apart
from one with an empty node. -/

/-- Whether one of some tokens comes next. -/
def comes (ts : List Token) (next : List Token) : Bool :=
  ts.head?.any next.contains

mutual

/-- Read a node. Inside brackets no block may begin; a list that is the value of a key may have
its dashes at the indentation of the key, and then has no tokens of its own. -/
def node : Edition → Nat → Bool → Bool → List Token → Option (Yaml × List Token)
  | _, 0, _, _, _ => none
  | ed, fuel + 1, block, dashes, ts =>
      match ts with
      | .scalar plain text :: rest => some (.scalar plain text, rest)
      | .flowListStart :: rest => flowItems ed fuel true [] rest
      | .flowMappingStart :: rest => flowEntries ed fuel true [] rest
      | .listStart :: rest => if block then blockItems ed fuel [] rest else none
      | .mappingStart :: rest => if block then blockEntries ed fuel [] rest else none
      | .item :: _ => if dashes then dashItems ed fuel [] ts else none
      | _ => none

/-- Read the items of a list of dashes. -/
def blockItems : Edition → Nat → List Yaml → List Token → Option (Yaml × List Token)
  | _, 0, _, _ => none
  | ed, fuel + 1, done, ts =>
      match ts with
      | .item :: rest => do
          let (item, rest) ←
            if comes rest [.item, .blockEnd] then some (empty, rest)
            else node ed fuel true false rest
          blockItems ed fuel (item :: done) rest
      | .blockEnd :: rest => some (.list done.reverse, rest)
      | _ => none

/-- Read the items of a list whose dashes have the indentation of a key. -/
def dashItems : Edition → Nat → List Yaml → List Token → Option (Yaml × List Token)
  | _, 0, _, _ => none
  | ed, fuel + 1, done, ts =>
      match ts with
      | .item :: rest => do
          let (item, rest) ←
            if comes rest [.item, .key, .value, .blockEnd] then some (empty, rest)
            else node ed fuel true false rest
          dashItems ed fuel (item :: done) rest
      | _ => some (.list done.reverse, ts)

/-- Read the entries of a mapping without braces. In the second edition a key may be left out. -/
def blockEntries : Edition → Nat → List (Yaml × Yaml) → List Token → Option (Yaml × List Token)
  | _, 0, _, _ => none
  | ed, fuel + 1, done, ts =>
      let part (rest : List Token) : Option (Yaml × List Token) :=
        if comes rest [.key, .value, .blockEnd] then some (empty, rest)
        else node ed fuel true true rest
      match ts with
      | .blockEnd :: rest => some (.mapping done.reverse, rest)
      | t :: rest => do
          let (key, rest) ←
            if t = .key then part rest
            else if t = .value && ed = .second then some (empty, ts)
            else none
          let (value, rest) ←
            match rest with
            | .value :: rest => part rest
            | rest => some (empty, rest)
          blockEntries ed fuel ((key, value) :: done) rest
      | [] => none

/-- Read the items of a list in brackets; `first` is whether there is none before. -/
def flowItems : Edition → Nat → Bool → List Yaml → List Token → Option (Yaml × List Token)
  | _, 0, _, _, _ => none
  | ed, fuel + 1, first, done, ts =>
      let rest? : Option (List Token) :=
        match ts with
        | .flowListEnd :: _ => some ts
        | .comma :: rest => if first then some ts else some rest
        | _ => if first then some ts else none
      match rest? with
      | none => none
      | some (.flowListEnd :: rest) => some (.list done.reverse, rest)
      | some (.key :: rest) => do
          let (key, rest) ←
            if comes rest [.value, .comma, .flowListEnd] then some (empty, rest.tail)
            else node ed fuel false false rest
          let (value, rest) ←
            match rest with
            | .value :: rest =>
                if comes rest [.comma, .flowListEnd] then some (empty, rest)
                else node ed fuel false false rest
            | rest => some (empty, rest)
          flowItems ed fuel false (.mapping [(key, value)] :: done) rest
      | some rest => do
          let (item, rest) ← node ed fuel false false rest
          flowItems ed fuel false (item :: done) rest

/-- Read the entries of a mapping in braces; `first` is whether there is none before. In the
second edition a key may be left out. -/
def flowEntries : Edition → Nat → Bool → List (Yaml × Yaml) → List Token →
    Option (Yaml × List Token)
  | _, 0, _, _, _ => none
  | ed, fuel + 1, first, done, ts =>
      let rest? : Option (List Token) :=
        match ts with
        | .flowMappingEnd :: _ => some ts
        | .comma :: rest => if first then some ts else some rest
        | _ => if first then some ts else none
      let part (rest : List Token) : Option (Yaml × List Token) :=
        if comes rest [.value, .comma, .flowMappingEnd] then some (empty, rest)
        else node ed fuel false false rest
      let value (rest : List Token) : Option (Yaml × List Token) :=
        match rest with
        | .value :: rest =>
            if comes rest [.comma, .flowMappingEnd] then some (empty, rest)
            else node ed fuel false false rest
        | rest => some (empty, rest)
      match rest? with
      | none | some [] => none
      | some (.flowMappingEnd :: rest) => some (.mapping done.reverse, rest)
      | some (t :: rest) => do
          if t = .key then
            let (key, rest) ← part rest
            let (v, rest) ← value rest
            flowEntries ed fuel false ((key, v) :: done) rest
          else if t = .value && ed = .second then
            let (v, rest) ← value (t :: rest)
            flowEntries ed fuel false ((empty, v) :: done) rest
          else
            let (key, rest) ← node ed fuel false false (t :: rest)
            flowEntries ed fuel false ((key, empty) :: done) rest

end

/-- Read the end of the text, behind the markers of the end of a document. -/
def textEnd (ts : List Token) : Option Unit :=
  if ts.dropWhile (· = .documentEnd) = [.streamEnd] then some () else none

/-- Read the only document, if there is one. In the second edition markers of an end may come
before it. -/
def document (ed : Edition) (ts : List Token) : Option (Option Yaml) :=
  let fuel := 2 * ts.length + 2
  let ts := if ed = .second then ts.dropWhile (· = .documentEnd) else ts
  match ts with
  | [.streamEnd] => some none
  | .documentStart :: rest => do
      let (y, rest) ←
        if comes rest [.documentStart, .documentEnd, .streamEnd] then some (empty, rest)
        else node ed fuel true false rest
      textEnd rest
      return some y
  | ts => do
      let (y, rest) ← node ed fuel true false ts
      textEnd rest
      return some y

/-- The document in a text, if there is one. -/
def parse (ed : Edition) (text : String) : Option (Option Yaml) := do
  document ed (← tokens ed text.toList)

end Yaml

end ProbeLang
