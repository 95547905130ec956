import ProbeLang.Yaml.Scalar

/-!
# The tokens of a YAML text

Each step reads one token and what belongs to it. Directives, tags, anchors and scalars that a bar
or an angle bracket begins are refused.
-/

namespace ProbeLang.Yaml

namespace Scanner

/-- The number of open brackets that the second edition admits. -/
def maxFlow : Nat := 255

/-- Read a bracket or brace that opens. A key may begin with it. -/
def openFlow (s : Scanner) (t : Token) : Option Scanner := do
  let s := (← s.saveKey).deepen
  if s.edition = .second && maxFlow ≤ s.flow then none
  let s :=
    { s.advance with
      flow := s.flow + 1
      keys := none :: s.keys
      keyAllowed := true
      inBraces := s.inBraces || t = Token.flowMappingStart }
  return (← s.closeGap).push t

/-- In the second edition, end a mapping inside a list in brackets that has no braces. -/
def endPair (s : Scanner) : Scanner :=
  if s.inPair then { s with inPair := false, inBraces := false }.push .flowMappingEnd else s

/-- Read a bracket or brace that closes. -/
def closeFlow (s : Scanner) (t : Token) : Option Scanner := do
  let s ← s.dropKey
  let s := if 0 < s.flow then { s with flow := s.flow - 1, keys := s.keys.tail } else s
  let s := { s with keyAllowed := false }
  let s := if t = .flowListEnd then s.endPair else s
  let s ← s.advance.closeGap
  let s := if 0 < s.flow then { s with adjacent := some s.index } else s
  return s.push t

/-- Read a comma. -/
def readComma (s : Scanner) : Option Scanner := do
  let s := { (← s.dropKey) with keyAllowed := true }
  return (← s.endPair.advance.closeGap).push .comma

/-- Read the dash of an item. -/
def readItem (s : Scanner) : Option Scanner := do
  if 0 < s.flow || !s.keyAllowed then none
  let s := s.openBlock s.column .listStart
  match s.edition with
  | .first => return { (← s.dropKey).advance with keyAllowed := true }.push .item
  | .second =>
      let (tab, _, s) ← s.advance.lineGap
      if tab && s.peek = some '-' && s.edition.endsWord (s.ahead 1) then none
      let s := if s.peek.any fun c => s.edition.isBreak c || isFlowMark c then s.deepen else s
      return { (← s.dropKey) with keyAllowed := true }.push .item

/-- Read the gap behind the mark of a key, in the second edition, in no more than `fuel` steps;
`gap` is whether there was one. -/
def keyGap : Nat → Bool → Scanner → Option Scanner
  | 0, _, _ => none
  | fuel + 1, gap, s =>
      match s.peek with
      | some c =>
          if c = ' ' then keyGap fuel true s.advance
          else if s.edition.isBreak c then keyGap fuel true s.betweenLines
          else if c = '#' then keyGap fuel gap s.toLineEnd
          else if gap && c ≠ '\t' then some s
          else none
      | none => if gap then some s else none

/-- Read the mark of a key. -/
def readKey (s : Scanner) : Option Scanner := do
  if s.flow = 0 && !s.keyAllowed then none
  let s := if s.flow = 0 then s.openBlock s.column .mappingStart else { s with inBraces := true }
  let s : Scanner := { (← s.dropKey).advance with keyAllowed := s.flow = 0 }
  let s ← if s.edition = .second then keyGap (s.rest.length + 1) false s else some s
  return s.push .key

/-- Read the colon of a value. If a key may have begun before, it has; otherwise the key has a
mark of its own or is left out. -/
def readValue (s : Scanner) : Option Scanner := do
  let column := s.column
  let line := s.line
  let pair := s.edition = .second && 0 < s.flow && !s.inBraces
  let s : Scanner := { s with inPair := pair }.advance
  let s ←
    if s.edition = .second && s.peek = some '\t' then do
      let (_, space, s) ← s.lineGap
      if !space && s.peek.any (fun c => c.isAlphanum || c = '_' || c = '-') then none else some s
    else some s
  match s.keys.head?.join with
  | some place =>
      if pair && place.line < line then none
      let (opened, s) := s.beginBlock place.column
      let openings := if pair then [.flowMappingStart, .key] else
        if opened then [.mappingStart, .key] else [.key]
      let s := { s with openings := (place.number, openings) :: s.openings }
      return { s.deepen.setKey none with keyAllowed := false }.push .value
  | none =>
      let s := if pair then s.push .flowMappingStart else s
      if s.flow = 0 && !s.keyAllowed then none
      let s := (s.openBlock column .mappingStart).deepen
      return { s with keyAllowed := s.flow = 0 }.push .value

/-- Read the marker of a document, or a directive in front of one, which is refused. -/
def readMarker (s : Scanner) : Option Scanner := do
  let t : Token := if s.peek = some '-' then .documentStart else .documentEnd
  let s := { (← (s.endBlocks (-1)).dropKey) with keyAllowed := false }
  let s := (advanceBy 3 s).push t
  if s.edition = .second && t = .documentEnd then
    let s ← s.closeGap
    if s.edition.endsLine s.peek then some s else none
  else some s

/-- End the text. -/
def readEnd (s : Scanner) : Option Scanner := do
  if s.edition = .second && s.keys.any fun key => key.any KeyPlace.required then none
  let s := (← (s.endBlocks (-1)).dropKey)
  return s.push .streamEnd

/-- Whether a colon belongs to a value. -/
def isValueMark (s : Scanner) : Bool :=
  let next := s.ahead 1
  s.edition.endsWord next ||
    0 < s.flow && (s.edition = .first || next.any isFlowMark || s.adjacent = some s.index)

/-- Whether a question mark belongs to a key. -/
def isKeyMark (s : Scanner) : Bool :=
  s.edition = .first && 0 < s.flow || s.edition.endsWord (s.ahead 1)

/-- Whether a scalar without quotes may begin with a character. -/
def beginsPlain (s : Scanner) (c : Char) : Bool :=
  let refused := ['&', '*', '!', '%', '@', Char.ofNat 96]
  let bars := ['|', '>']
  match s.edition with
  | .first =>
      !refused.contains c && !bars.contains c && !isSpace c &&
        !((c = '-' || c = '?' || c = ':') &&
          (s.edition.endsWord (s.ahead 1) || 0 < s.flow && c ≠ '-'))
  | .second => !refused.contains c && !(bars.contains c && s.flow = 0)

/-- Read a token that begins with a character. -/
def readToken (s : Scanner) (c : Char) : Option Scanner :=
  if c = '[' then s.openFlow .flowListStart
  else if c = '{' then s.openFlow .flowMappingStart
  else if c = ']' then s.closeFlow .flowListEnd
  else if c = '}' then s.closeFlow .flowMappingEnd
  else if c = ',' then s.readComma
  else if c = '-' && s.edition.endsWord (s.ahead 1) then s.readItem
  else if c = '?' && s.isKeyMark then s.readKey
  else if c = ':' && s.isValueMark then s.readValue
  else if c = quote || c = '"' then s.quotedScalar c
  else if s.beginsPlain c then s.plainScalar
  else none

/-- Read the next token and the ends of blocks in front of it. -/
def next (s : Scanner) : Option Scanner := do
  let s ← s.toToken
  let s ← s.dropStaleKeys
  let s := s.endBlocks s.column
  match s.peek with
  | none => s.readEnd
  | some c =>
      if s.column = 0 && c = '%' then none
      else if s.column = 0 && s.atMarker then s.readMarker
      else if s.edition = .second && s.column < s.indent then none
      else s.readToken c

/-- Put the openings in front of the tokens to which they belong; `n` is the number of the tokens
that are left, and the last of them comes first. -/
def arrange : List (Nat × List Token) → Nat → List Token → List Token → List Token
  | _, _, [], done => done
  | [], n, t :: rest, done => arrange [] (n - 1) rest (t :: done)
  | (place, opening) :: openings, n, t :: rest, done =>
      if place + 1 = n then arrange openings (n - 1) rest (opening ++ t :: done)
      else arrange ((place, opening) :: openings) (n - 1) rest (t :: done)

/-- Read the tokens up to the end of the text, in no more than `fuel` steps. -/
def run : Nat → Scanner → Option (List Token)
  | 0, _ => none
  | fuel + 1, s => do
      let s ← s.next
      if s.tokens.head? = some .streamEnd then
        let openings := s.openings.mergeSort fun a b => b.1 ≤ a.1
        return arrange openings s.count s.tokens []
      run fuel s

end Scanner

/-- The tokens of a text. In the first edition a byte order mark at its beginning is left out; in
the second a zero character ends it. -/
def tokens (ed : Edition) (cs : List Char) : Option (List Token) :=
  match ed with
  | .first =>
      let cs :=
        match cs with
        | '\ufeff' :: rest => rest
        | cs => cs
      if cs.all isPrintable then Scanner.run (cs.length + 2) { edition := ed, rest := cs } else none
  | .second =>
      let cs := cs.takeWhile (· ≠ '\x00')
      Scanner.run (cs.length + 2) { edition := ed, rest := cs }

end ProbeLang.Yaml
