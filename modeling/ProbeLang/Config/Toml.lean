import ProbeLang.Config.Setting
import ProbeLang.Config.Toml.Lexeme

/-!
# TOML documents

A reader for documents of keys with values, under headers that open tables or add tables to an
array. Values are texts, numbers, truth values, dates, arrays and inline tables. An array may have
line breaks, comments and a comma behind its last item; an inline table may not. Nothing can be
added to an inline table or an array after it was written.
-/

namespace ProbeLang.Toml

/-! ## Tables while they are read

While a document is read, a table knows how it came to be: by a header of its own, or implied by
a longer key, and then whether that was the key of a header or of a value. A header may open a
table once, also after it was implied by other headers. The key of a value leads only through
tables that such keys imply. An array of tables grows by one table with each header, and keys lead
into its last one. -/

/-- What stands under a key while a document is read. -/
inductive Item
  | value (v : Setting)
  /-- A table, whether it is implied, and whether the key of a value implies it. -/
  | table (implied dotted : Bool) (entries : List (String × Item))
  /-- An array of tables, of which the last one comes first. -/
  | tables (elements : List (List (String × Item)))
  deriving Inhabited

namespace Item

/-- The table that a document begins with. -/
def root : Item := .table false false []

/-- Change what stands at the end of a path. Tables that are missing are implied, by the key of a
value if `dotted`. -/
def within (dotted : Bool) (f : Item → Option Item) : List String → Item → Option Item
  | [], item => f item
  | key :: rest, .table implied byKey entries => do
      let entries : Table Item := entries
      let child ←
        match (entries.find? key).getD (.table true dotted []) with
        | .value _ | .tables [] => none
        | .table childImplied childByKey inner =>
            if dotted && !childImplied then none
            else within dotted f rest (.table childImplied childByKey inner)
        | .tables (last :: before) =>
            match ← within dotted f rest (.table false false last) with
            | .table _ _ last => some (.tables (last :: before))
            | _ => none
      return .table implied byKey (entries.put key child)
  | _ :: _, _ => none

/-- Change or create what stands under the last key of a path. -/
def atKey (f : Option Item → Option Item) (path : List String) (item : Item) : Option Item := do
  let key ← path.getLast?
  item.within false (fun
    | .table implied dotted entries => do
        let entries : Table Item := entries
        return .table implied dotted (entries.put key (← f (entries.find? key)))
    | _ => none) path.dropLast

/-- Open a table by a header. -/
def openTable (path : List String) (item : Item) : Option Item :=
  item.atKey (fun
    | none => some (.table false false [])
    | some (.table true false entries) => some (.table false false entries)
    | some _ => none) path

/-- Add a table to an array of tables by a header. -/
def addTable (path : List String) (item : Item) : Option Item :=
  item.atKey (fun
    | none => some (.tables [[]])
    | some (.tables elements) => some (.tables ([] :: elements))
    | some _ => none) path

/-- Give a key its value in a table. It must not have one, and the table that it leads to must
not have come to be in another way. -/
def insert (path : List String) (v : Setting) (item : Item) : Option Item := do
  let key ← path.getLast?
  item.within true (fun
    | .table implied dotted entries =>
        let entries : Table Item := entries
        if dotted = path.dropLast.isEmpty || entries.has key then none
        else some (.table implied dotted (entries.put key (.value v)))
    | _ => none) path.dropLast

/-- Give a key its value in the table that a header has opened. -/
def insertBelow (header path : List String) (v : Setting) (item : Item) : Option Item :=
  item.within false (insert path v) header

mutual

/-- The setting of an item. -/
def toSetting : Item → Setting
  | .value v => v
  | .table _ _ entries => .table (entriesToSetting entries)
  | .tables elements => .list (elementsToSetting [] elements)

/-- The settings of entries. -/
def entriesToSetting : List (String × Item) → List (String × Setting)
  | [] => []
  | (key, item) :: rest => (key, toSetting item) :: entriesToSetting rest

/-- The settings of the elements of an array of tables, in front of others. -/
def elementsToSetting (done : List Setting) : List (List (String × Item)) → List Setting
  | [] => done
  | entries :: rest => elementsToSetting (.table (entriesToSetting entries) :: done) rest

end

end Item

/-! ## Values and lines -/

/-- The depth that no value reaches. -/
def depthLimit : Nat := 80

mutual

/-- Read a value inside of `depth` others. -/
def readValue : Nat → Nat → List Char → Option (Setting × List Char)
  | 0, _, _ => none
  | fuel + 1, depth, cs =>
      match cs with
      | '[' :: rest =>
          if depthLimit ≤ depth + 1 then none
          else readItems fuel (depth + 1) [] (skipGap fuel rest)
      | '{' :: rest =>
          if depthLimit ≤ depth + 1 then none
          else
            match skipSpace rest with
            | '}' :: rest => some (.table [], rest)
            | rest => readMembers fuel (depth + 1) .root rest
      | cs =>
          match textValue? cs with
          | some (s, rest) => some (.text s, rest)
          | none => wordValue? cs

/-- Read the rest of an array. -/
def readItems : Nat → Nat → List Setting → List Char → Option (Setting × List Char)
  | 0, _, _, _ => none
  | _ + 1, _, done, ']' :: rest => some (.list done.reverse, rest)
  | fuel + 1, depth, done, cs => do
      let (item, rest) ← readValue fuel depth cs
      match skipGap fuel rest with
      | ',' :: rest => readItems fuel depth (item :: done) (skipGap fuel rest)
      | ']' :: rest => some (.list (item :: done).reverse, rest)
      | _ => none

/-- Read the rest of an inline table. -/
def readMembers : Nat → Nat → Item → List Char → Option (Setting × List Char)
  | 0, _, _, _ => none
  | fuel + 1, depth, table, cs => do
      let (path, rest) ← keyPath cs
      match rest with
      | '=' :: rest => do
          let (value, rest) ← readValue fuel depth (skipSpace rest)
          let table ← table.insert path value
          match skipSpace rest with
          | ',' :: rest => readMembers fuel depth table rest
          | '}' :: rest => some (table.toSetting, rest)
          | _ => none
      | _ => none

end

/-- Read lines into a table; `here` is the key of the header that comes before them. -/
def readLines : Nat → List String → Item → List Char → Option Item
  | 0, _, _, _ => none
  | fuel + 1, here, root, cs =>
      match skipGap fuel cs with
      | [] => some root
      | '#' :: rest => if (rest.dropWhile isPrintable).isEmpty then some root else none
      | '[' :: '[' :: rest => do
          let (path, rest) ← keyPath rest
          match rest with
          | ']' :: ']' :: rest => readLines fuel path (← root.addTable path) (← endLine rest)
          | _ => none
      | '[' :: rest => do
          let (path, rest) ← keyPath rest
          match rest with
          | ']' :: rest => readLines fuel path (← root.openTable path) (← endLine rest)
          | _ => none
      | cs => do
          let (path, rest) ← keyPath cs
          match rest with
          | '=' :: rest => do
              let (value, rest) ← readValue fuel 0 (skipSpace rest)
              readLines fuel here (← root.insertBelow here path value) (← endLine rest)
          | _ => none

/-- The table in a text, which may begin with a byte order mark. -/
def parse (text : String) : Option Setting :=
  let cs :=
    match text.toList with
    | '\ufeff' :: rest => rest
    | cs => cs
  (readLines (2 * cs.length + 2) [] .root cs).map Item.toSetting

end ProbeLang.Toml
