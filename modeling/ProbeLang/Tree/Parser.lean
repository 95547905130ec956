import ProbeLang.Token.Scan
import ProbeLang.Tree

/-!
# Reading a unit

A recursive-descent reader from tokens to syntax trees. It looks at the current token and, to
tell a declaration from an expression, at those behind it; the first fault ends it. Binary
operators are read by climbing the precedence levels: `parseBinary` reads one operand and
then every operator at least as tight as its level, each with a right operand that is
strictly tighter. An assignment takes everything to its right.

The functions recurse on a fuel. Every call either reads a token or hands on to a function
further down a short chain, so `parseFuel` is never used up.
-/

namespace ProbeLang

/-- The tokens that are still to be read. The last one marks the end of the text and is
never passed. -/
structure TokenStream where
  current : Token
  rest : List Token

namespace TokenStream

/-- Move to the next token, unless the current one is the last. -/
def advance (s : TokenStream) : TokenStream :=
  match s.rest with
  | [] => s
  | t :: rest => ⟨t, rest⟩

/-- The stream over a list of tokens. -/
def ofList : List Token → TokenStream
  | [] => ⟨⟨.eof, "", Pos.start⟩, []⟩
  | t :: rest => ⟨t, rest⟩

/-- The kind of the token behind the current one. -/
def nextKind (s : TokenStream) : Token.Kind :=
  match s.rest with
  | [] => s.current.kind
  | t :: _ => t.kind

/-- Drop leading pairs of tokens of the given two kinds. -/
def dropPairs (first second : Token.Kind) : List Token → List Token
  | a :: b :: rest =>
      if a.kind = first ∧ b.kind = second then dropPairs first second rest else a :: b :: rest
  | tokens => tokens

/-- Whether a local variable declaration begins here: a primitive type, or a dotted name with
brackets that is followed by an identifier. -/
def startsLocal (s : TokenStream) : Bool :=
  match s.current.kind with
  | .kwInt | .kwLong | .kwBoolean | .kwVoid => true
  | .identifier =>
      match dropPairs .openBracket .closeBracket (dropPairs .dot .identifier s.rest) with
      | t :: _ => t.kind = .identifier
      | [] => false
  | _ => false

end TokenStream

/-- A reader of some syntactic class. -/
abbrev Parse := StateT TokenStream (Except SyntaxError)

namespace Parse

/-- Fail at a place. -/
def failAt {α : Type} (pos : Pos) (fault : SyntaxFault) : Parse α :=
  throw ⟨pos, fault⟩

/-- Fail at the current token. -/
def fail {α : Type} (fault : SyntaxFault) : Parse α := do
  throw ⟨(← get).current.pos, fault⟩

/-- The current token. -/
def peek : Parse Token := do
  return (← get).current

/-- Whether the current token is of a kind. -/
def check (kind : Token.Kind) : Parse Bool := do
  return (← get).current.kind == kind

/-- Pass the current token and return it. -/
def advance : Parse Token := do
  let s ← get
  set s.advance
  return s.current

/-- Pass the current token if it is of a kind. -/
def accept (kind : Token.Kind) : Parse Bool := do
  if ← check kind then
    let _ ← advance
    return true
  else
    return false

/-- Pass a token that must be of a kind. -/
def expect (kind : Token.Kind) : Parse Token := do
  let t ← peek
  if t.kind = kind then advance
  else if t.kind = .eof then fail .endOfFile
  else fail (.expected kind.display)

/-- Read an identifier. -/
def ident : Parse Ident := do
  let t ← expect .identifier
  return ⟨t.text, t.pos⟩

/-- Read the further segments of a dotted name; `done` holds those read, last first. -/
def pathRest : Nat → List String → Parse (List String)
  | 0, done => return done.reverse
  | fuel + 1, done => do
      let s ← get
      if s.current.kind = .dot ∧ s.nextKind = .identifier then
        let _ ← advance
        let t ← expect .identifier
        pathRest fuel (t.text :: done)
      else
        return done.reverse

/-- Read a dotted name. -/
def path (fuel : Nat) : Parse Path := do
  let t ← expect .identifier
  return ⟨← pathRest fuel [t.text], t.pos⟩

/-- Read bracket pairs behind a type, of which there may be 255. -/
def dims : Nat → Nat → Parse Nat
  | 0, n => return n
  | fuel + 1, n => do
      let s ← get
      if s.current.kind = .openBracket ∧ s.nextKind = .closeBracket then
        let _ ← advance
        let _ ← advance
        if n = 255 then fail .tooManyDimensions else dims fuel (n + 1)
      else
        return n

/-- The primitive type that a keyword names. -/
def primitive? : Token.Kind → Option TypeName
  | .kwVoid => some .void
  | .kwInt => some .int
  | .kwLong => some .long
  | .kwBoolean => some .boolean
  | _ => none

/-- Read the name of a type. -/
def typeName (fuel : Nat) : Parse TypeName := do
  let t ← peek
  match primitive? t.kind with
  | some base =>
      let _ ← advance
      return base
  | none =>
      if t.kind = .identifier then return .named (← path fuel)
      else fail (.expected Token.Kind.identifier.display)

/-- Read a type. There is no array of `void`. -/
def type (fuel : Nat) : Parse TypeRef := do
  let pos := (← peek).pos
  let base ← typeName fuel
  let n ← dims fuel 0
  if base = .void ∧ 0 < n then failAt pos .voidNotAllowed
  else return ⟨base, n, pos⟩

/-! ## Expressions -/

/-- The operator that a token spells. -/
def binaryOp? : Token.Kind → Option BinaryOp
  | .orOr => some .or
  | .andAnd => some .and
  | .equal => some .eq
  | .notEqual => some .ne
  | .less => some .lt
  | .lessEqual => some .le
  | .greater => some .gt
  | .greaterEqual => some .ge
  | .plus => some .add
  | .minus => some .sub
  | .star => some .mul
  | .slash => some .div
  | .percent => some .rem
  | _ => none

/-- The unary operator that a token spells. -/
def unaryOp? : Token.Kind → Option UnaryOp
  | .bang => some .not
  | .minus => some .neg
  | _ => none

/-- The constant that a token spells. -/
def literal? (t : Token) : Option Literal :=
  match t.kind with
  | .intLiteral => some (.int (Text.decimalValue t.text.toList))
  | .longLiteral => some (.long (Text.decimalValue t.text.toList))
  | .stringLiteral => some (.string t.text)
  | .charLiteral => some (.char (t.text.toList.headD '\x00'))
  | .kwTrue => some (.bool true)
  | .kwFalse => some (.bool false)
  | .kwNull => some .null
  | _ => none

mutual

/-- Read an expression. -/
def expr : Nat → Parse Expr
  | 0 => fail .endOfFile
  | fuel + 1 => do
      let target ← binary fuel 0
      if ← accept .assign then
        let value ← expr fuel
        return .assign ⟨target.pos, none, none⟩ target value
      else
        return target

/-- Read operands joined by operators of at least the given level. -/
def binary : Nat → Nat → Parse Expr
  | 0, _ => fail .endOfFile
  | fuel + 1, level => do
      let lhs ← unary fuel
      binaryRest fuel level lhs

/-- Go on behind a left operand. -/
def binaryRest : Nat → Nat → Expr → Parse Expr
  | 0, _, _ => fail .endOfFile
  | fuel + 1, level, lhs => do
      match binaryOp? (← peek).kind with
      | none => return lhs
      | some op =>
          if op.level < level then return lhs
          else
            let _ ← advance
            let rhs ← binary fuel (op.level + 1)
            binaryRest fuel level (.binary ⟨lhs.pos, none, none⟩ op lhs rhs)

/-- Read an operand with its unary operators. -/
def unary : Nat → Parse Expr
  | 0 => fail .endOfFile
  | fuel + 1 => do
      let t ← peek
      match unaryOp? t.kind with
      | some op =>
          let _ ← advance
          let operand ← unary fuel
          return .unary ⟨t.pos, none, none⟩ op operand
      | none =>
          let base ← primary fuel
          postfix_ fuel base

/-- Go on behind an operand: member accesses, calls and indices. -/
def postfix_ : Nat → Expr → Parse Expr
  | 0, _ => fail .endOfFile
  | fuel + 1, base => do
      if ← accept .dot then
        let name ← ident
        if ← check .openParen then
          let args ← arguments fuel
          postfix_ fuel (.invoke ⟨base.pos, none, none⟩ base name args)
        else
          postfix_ fuel (.field ⟨base.pos, none, none⟩ base name)
      else if ← accept .openBracket then
        let i ← expr fuel
        let _ ← expect .closeBracket
        postfix_ fuel (.index ⟨base.pos, none, none⟩ base i)
      else
        return base

/-- Read an operand. -/
def primary : Nat → Parse Expr
  | 0 => fail .endOfFile
  | fuel + 1 => do
      let t ← peek
      match literal? t with
      | some value =>
          let _ ← advance
          return .literal ⟨t.pos, none, none⟩ value
      | none =>
          match t.kind with
          | .kwThis =>
              let _ ← advance
              return .this ⟨t.pos, none, none⟩
          | .identifier =>
              let _ ← advance
              if ← check .openParen then
                let args ← arguments fuel
                return .call ⟨t.pos, none, none⟩ ⟨t.text, t.pos⟩ args
              else
                return .name ⟨t.pos, none, none⟩ t.text
          | .openParen => parenthesised fuel
          | .kwNew => creation fuel
          | .eof => fail .endOfFile
          | _ => fail .illegalExpression

/-- Read an expression in parentheses, which leave no trace. -/
def parenthesised : Nat → Parse Expr
  | 0 => fail .endOfFile
  | fuel + 1 => do
      let _ ← expect .openParen
      let e ← expr fuel
      let _ ← expect .closeParen
      return e

/-- Read the creation of an object or of an array. -/
def creation : Nat → Parse Expr
  | 0 => fail .endOfFile
  | fuel + 1 => do
      let t ← expect .kwNew
      let start := (← peek).pos
      if ← check .kwVoid then fail (.expected Token.Kind.identifier.display)
      let base ← typeName fuel
      if ← accept .openBracket then
        let length ← expr fuel
        let _ ← expect .closeBracket
        let n ← dims fuel 0
        return .newArray ⟨t.pos, none, none⟩ ⟨base, n, start⟩ length
      else
        match base with
        | .named _ =>
            let args ← arguments fuel
            return .new ⟨t.pos, none, none⟩ ⟨base, 0, start⟩ args
        | _ => fail (.expected Token.Kind.openBracket.display)

/-- Read arguments in parentheses. -/
def arguments : Nat → Parse (List Expr)
  | 0 => fail .endOfFile
  | fuel + 1 => do
      let _ ← expect .openParen
      argumentsRest fuel []

/-- Read arguments up to the closing parenthesis. A comma may stand behind the last one. -/
def argumentsRest : Nat → List Expr → Parse (List Expr)
  | 0, _ => fail .endOfFile
  | fuel + 1, done => do
      if ← accept .closeParen then
        return done.reverse
      else
        let arg ← expr fuel
        if !(← check .closeParen) then
          let _ ← expect .comma
        argumentsRest fuel (arg :: done)

end

/-! ## Statements -/

/-- Read an initialiser, if there is one. -/
def initialiser? (fuel : Nat) : Parse (Option Expr) := do
  if ← accept .assign then return some (← expr fuel) else return none

/-- Read the declaration of a local variable up to its semicolon. -/
def localVar (fuel : Nat) : Parse LocalVar := do
  let t ← type fuel
  if t.base = .void then failAt t.pos .voidNotAllowed
  let name ← ident
  let init ← initialiser? fuel
  return ⟨t.pos, t, name, init, none⟩

/-- Read an expression unless a token of the given kind stands here. -/
def exprUnless (stop : Token.Kind) (fuel : Nat) : Parse (Option Expr) := do
  if ← check stop then return none else return some (← expr fuel)

/-- Read what stands before the first semicolon of a `for` header. -/
def forInit (fuel : Nat) : Parse ForInit := do
  let s ← get
  if s.current.kind = .semicolon then return .none
  else if s.startsLocal then return .declare (← localVar fuel)
  else return .expr s.current.pos (← expr fuel)

mutual

/-- Read a statement. -/
def stmt : Nat → Parse Stmt
  | 0 => fail .endOfFile
  | fuel + 1 => do
      let s ← get
      let pos := s.current.pos
      match s.current.kind with
      | .openBrace =>
          let b ← block fuel
          return .block b.pos b.body
      | .semicolon =>
          let _ ← advance
          return .empty pos
      | .kwIf =>
          let _ ← advance
          let cond ← parenthesised fuel
          let thenBranch ← stmt fuel
          if ← accept .kwElse then
            let elseBranch ← stmt fuel
            return .ifElse pos cond thenBranch elseBranch
          else
            return .ifThen pos cond thenBranch
      | .kwWhile =>
          let _ ← advance
          let cond ← parenthesised fuel
          let body ← stmt fuel
          return .whileLoop pos cond body
      | .kwFor =>
          let _ ← advance
          let _ ← expect .openParen
          let init ← forInit fuel
          let _ ← expect .semicolon
          let cond ← exprUnless .semicolon fuel
          let _ ← expect .semicolon
          let update ← exprUnless .closeParen fuel
          let _ ← expect .closeParen
          let body ← stmt fuel
          return .forLoop pos init cond update body
      | .kwReturn =>
          let _ ← advance
          let value ← exprUnless .semicolon fuel
          let _ ← expect .semicolon
          return .ret pos value
      | .kwThrow =>
          let _ ← advance
          let value ← expr fuel
          let _ ← expect .semicolon
          return .throw pos value
      | .kwSynchronized =>
          let _ ← advance
          let lock ← parenthesised fuel
          let b ← block fuel
          return .synchronized pos lock b.pos b.body
      | kind =>
          if s.startsLocal then
            let decl ← localVar fuel
            let _ ← expect .semicolon
            return .declare decl
          else if kind = .kwClass then
            fail .classNotAllowed
          else
            let value ← expr fuel
            let _ ← expect .semicolon
            return .expr pos value

/-- Read a block. -/
def block : Nat → Parse Block
  | 0 => fail .endOfFile
  | fuel + 1 => do
      let t ← expect .openBrace
      return ⟨t.pos, ← blockRest fuel []⟩

/-- Read statements up to the closing brace. -/
def blockRest : Nat → List Stmt → Parse (List Stmt)
  | 0, _ => fail .endOfFile
  | fuel + 1, done => do
      if ← accept .closeBrace then
        return done.reverse
      else if ← check .eof then
        fail .endOfFile
      else
        let s ← stmt fuel
        blockRest fuel (s :: done)

end

/-! ## Declarations -/

/-- Read annotation arguments up to the closing parenthesis. A value is no assignment. -/
def annotationArgs : Nat → List AnnotationArg → Parse (List AnnotationArg)
  | 0, _ => fail .endOfFile
  | fuel + 1, done => do
      if ← accept .closeParen then
        return done.reverse
      else
        let s ← get
        let arg ←
          if s.current.kind = .identifier ∧ s.nextKind = .assign then do
            let name ← ident
            let _ ← expect .assign
            pure (AnnotationArg.named name (← binary fuel 0))
          else do
            pure (AnnotationArg.value (← binary fuel 0))
        if !(← check .closeParen) then
          let _ ← expect .comma
        annotationArgs fuel (arg :: done)

/-- Read an annotation. -/
def annotation (fuel : Nat) : Parse Annotation := do
  let t ← expect .at
  let name ← path fuel
  let args ← if ← accept .openParen then annotationArgs fuel [] else pure []
  return ⟨name, args, t.pos⟩

/-- The modifier that a token spells. -/
def modifier? : Token.Kind → Option Modifier
  | .kwPublic => some .isPublic
  | .kwPrivate => some .isPrivate
  | .kwProtected => some .isProtected
  | .kwStatic => some .isStatic
  | .kwFinal => some .isFinal
  | _ => none

/-- Read modifiers behind those already read, which are kept last first. -/
def modifiersRest : Nat → List Annotation → List Modifier → Parse Modifiers
  | 0, _, _ => fail .endOfFile
  | fuel + 1, annotations, flags => do
      let t ← peek
      if t.kind = .at then
        modifiersRest fuel ((← annotation fuel) :: annotations) flags
      else
        match modifier? t.kind with
        | none => return ⟨annotations.reverse, flags.reverse⟩
        | some flag =>
            let _ ← advance
            if flags.contains flag then failAt t.pos .repeatedModifier
            else modifiersRest fuel annotations (flag :: flags)

/-- Read modifiers. -/
def modifiers (fuel : Nat) : Parse Modifiers :=
  modifiersRest fuel [] []

/-- Read parameters up to the closing parenthesis. A comma may stand behind the last one. -/
def params : Nat → List Param → Parse (List Param)
  | 0, _ => fail .endOfFile
  | fuel + 1, done => do
      if ← accept .closeParen then
        return done.reverse
      else
        let t ← type fuel
        let name ← ident
        if !(← check .closeParen) then
          let _ ← expect .comma
        params fuel (⟨t, name⟩ :: done)

/-- Read a field or method behind its modifiers. -/
def fieldOrMethod (fuel : Nat) (mods : Modifiers) : Parse Member := do
  let t ← type fuel
  let name ← ident
  if ← accept .openParen then
    let ps ← params fuel []
    let body ← block fuel
    return .method ⟨mods, t, name, ps, body, t.pos⟩
  else if t.base = .void then
    fail (.expected Token.Kind.openParen.display)
  else
    let init ← initialiser? fuel
    let _ ← expect .semicolon
    return .field ⟨mods, t, name, init, t.pos⟩

mutual

/-- Read a class behind its modifiers. -/
def classDecl : Nat → Modifiers → Parse ClassDecl
  | 0, _ => fail .endOfFile
  | fuel + 1, mods => do
      let t ← expect .kwClass
      let name ← ident
      let superclass ← if ← accept .kwExtends then some <$> type fuel else pure none
      let _ ← expect .openBrace
      let members ← membersRest fuel []
      return ⟨name, mods, superclass, members, t.pos⟩

/-- Read members up to the closing brace; stray semicolons are passed. -/
def membersRest : Nat → List Member → Parse (List Member)
  | 0, _ => fail .endOfFile
  | fuel + 1, done => do
      if ← accept .closeBrace then
        return done.reverse
      else if ← check .eof then
        fail .endOfFile
      else if ← accept .semicolon then
        membersRest fuel done
      else
        let m ← member fuel
        membersRest fuel (m :: done)

/-- Read a member. -/
def member : Nat → Parse Member
  | 0 => fail .endOfFile
  | fuel + 1 => do
      let mods ← modifiers fuel
      if ← check .kwClass then
        return .type (← classDecl fuel mods)
      else
        fieldOrMethod fuel mods

end

/-- Read the segments of an import behind the first; the flag says whether a star ends them. -/
def importRest : Nat → List String → Parse (List String × Bool)
  | 0, done => return (done.reverse, false)
  | fuel + 1, done => do
      if ← accept .dot then
        if ← accept .star then
          return (done.reverse, true)
        else
          let t ← expect .identifier
          importRest fuel (t.text :: done)
      else
        return (done.reverse, false)

/-- Read an import behind its keyword. A type is imported from a package, so its name has a
dot. -/
def importDecl (fuel : Nat) : Parse Import := do
  let first ← expect .identifier
  let (segments, wildcard) ← importRest fuel [first.text]
  let _ ← expect .semicolon
  if !wildcard && segments.length < 2 then
    failAt first.pos (.expected Token.Kind.dot.display)
  else
    return ⟨⟨segments, first.pos⟩, wildcard⟩

/-- Read imports while there are any. -/
def imports : Nat → List Import → Parse (List Import)
  | 0, _ => fail .endOfFile
  | fuel + 1, done => do
      if ← accept .kwImport then
        let i ← importDecl fuel
        imports fuel (i :: done)
      else
        return done.reverse

/-- Read classes to the end of the text; stray semicolons are passed. -/
def types : Nat → List ClassDecl → Parse (List ClassDecl)
  | 0, _ => fail .endOfFile
  | fuel + 1, done => do
      if ← check .eof then
        return done.reverse
      else if ← accept .semicolon then
        types fuel done
      else
        let mods ← modifiers fuel
        let c ← classDecl fuel mods
        types fuel (c :: done)

/-- Read a whole unit. -/
def unit (fuel : Nat) (source : String) : Parse UnitTree := do
  let package ←
    if ← accept .kwPackage then do
      let p ← path fuel
      let _ ← expect .semicolon
      pure (some p)
    else
      pure none
  let is ← imports fuel []
  let ts ← types fuel []
  return ⟨source, package, is, ts⟩

end Parse

/-- A fuel that reading so many tokens does not use up. -/
def parseFuel (tokens : Nat) : Nat :=
  16 * (tokens + 1)

/-- The tree of a source text, or the first fault in it. -/
def UnitTree.parse (source text : String) : Except SyntaxError UnitTree := do
  let tokens ← Token.scan text
  let (tree, _) ← (Parse.unit (parseFuel tokens.length) source).run (.ofList tokens)
  return tree

end ProbeLang
