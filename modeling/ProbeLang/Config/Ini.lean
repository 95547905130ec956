import ProbeLang.Config.Setting
import ProbeLang.Text.Blank

/-!
# INI documents

Keys with values, an equals sign or a colon between them, under sections in square brackets. All
values are texts. A value in quotes may go on over lines; what follows the closing quote on its
line belongs to the value too. A comment has a line of its own, which its mark begins. Escapes
count everywhere, and a line end behind a backslash is left out. Of two values of a key and of two
sections of a name the last one counts.
-/

namespace ProbeLang.Ini

/-- The escapes of one letter that do not stand for that letter. -/
def escapes : List (Char × Char) :=
  [('0', '\x00'), ('a', '\x07'), ('b', '\x08'), ('t', '\t'), ('r', '\r'), ('n', '\n')]

/-- The character of a number in hexadecimal digits, perhaps with a plus sign. -/
def numericEscape? (cs : List Char) : Option Char :=
  match cs with
  | '+' :: digits => Text.hexChar? digits
  | digits => Text.hexChar? digits

/-- Read up to one of some characters, in no more than `fuel` steps; `atEnd` is whether the end of
the text ends it too. -/
def readUntil (ends : List Char) (atEnd : Bool) :
    Nat → List Char → List Char → Option (List Char × List Char)
  | 0, _, _ => none
  | fuel + 1, done, cs =>
      match cs with
      | [] => if atEnd then some (done.reverse, []) else none
      | ['\\'] => readUntil ends atEnd fuel ('\\' :: done) []
      | c :: rest =>
          if ends.contains c then some (done.reverse, cs)
          else if c = '\\' then
            match rest with
            | [] => none
            | '\n' :: rest => readUntil ends atEnd fuel done rest
            | 'x' :: rest =>
                if rest.length < 4 then none
                else
                  (numericEscape? (rest.take 4)).bind fun c =>
                    readUntil ends atEnd fuel (c :: done) (rest.drop 4)
            | e :: rest => readUntil ends atEnd fuel ((escapes.lookup e).getD e :: done) rest
          else readUntil ends atEnd fuel (c :: done) rest

/-- Read up to the end of the line. -/
def readLine (cs : List Char) : Option (List Char × List Char) :=
  readUntil ['\n', '\r'] true (cs.length + 1) [] cs

/-- Read a value. -/
def readValue (cs : List Char) : Option (List Char × List Char) :=
  match cs.dropWhile fun c => Text.isBlank c && c ≠ '\n' && c ≠ '\r' with
  | c :: rest =>
      if c = '"' || c = Char.ofNat 39 then do
        let (quoted, rest) ← readUntil [c] false (rest.length + 1) [] rest
        let (more, rest) ← readLine (rest.drop 1)
        some (quoted ++ more, rest)
      else readLine (c :: rest)
  | [] => some ([], [])

/-- A text without blanks at either end. -/
def trimmed (cs : List Char) : String :=
  String.ofList (Text.trimBlanks cs)

/-- The keys and values that have been read: those before any section, and those of sections. -/
structure Entries where
  general : Table Setting := []
  sections : Table (Table Setting) := []

/-- Give a key its value in the section that is open. -/
def Entries.put (e : Entries) (open? : Option String) (key value : String) : Entries :=
  match open? with
  | none => { e with general := e.general.put key (.text value) }
  | some name =>
      let entries := (e.sections.find? name).getD []
      { e with sections := e.sections.put name (entries.put key (.text value)) }

/-- Open a section, which takes the place of one of the same name. -/
def Entries.openSection (e : Entries) (name : String) : Entries :=
  { e with sections := e.sections.put name [] }

/-- Read what begins in a place, in no more than `fuel` steps: `start` is whether nothing stands
before it on the line, `open?` is the section that is open, and `key` has been read. -/
def readEntries : Nat → Entries → Option String → String → Bool → List Char → Option Entries
  | 0, _, _, _, _, _ => none
  | fuel + 1, e, open?, key, start, cs =>
      let blanks := cs.takeWhile Text.isBlank
      let start := if blanks.isEmpty then start else blanks.getLast? = some '\n'
      match cs.dropWhile Text.isBlank with
      | [] => some e
      | c :: rest =>
          if c = ';' || c = '#' then
            if start then readEntries fuel e open? key true ((rest.dropWhile (· ≠ '\n')).drop 1)
            else none
          else if c = '[' then do
            let (name, rest) ← readUntil [']'] false (rest.length + 1) [] rest
            let name := trimmed name
            readEntries fuel (e.openSection name) (some name) key false (rest.drop 1)
          else if c = '=' || c = ':' then
            if key.isEmpty then none
            else do
              let (value, rest) ← readValue rest
              readEntries fuel (e.put open? key (trimmed value)) open? "" false rest
          else do
            let (key, rest) ← readUntil ['=', ':'] false (rest.length + 2) [] (c :: rest)
            readEntries fuel e open? (trimmed key) false rest

/-- The table in a text. -/
def parse (text : String) : Option Setting := do
  let cs := text.toList
  let e ← readEntries (cs.length + 2) {} none "" true cs
  let sections : Table Setting :=
    e.sections.foldl (fun t (name, entries) => Table.put t name (.table entries)) e.general
  return .table sections

end ProbeLang.Ini
