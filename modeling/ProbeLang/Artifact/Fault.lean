/-!
# Faults of artifacts

Why bytes are no artifact, and why a class cannot be written as one.
-/

namespace ProbeLang

/-- A way in which an artifact is malformed or cannot be formed. -/
inductive ArtifactFault
  | badMagic
  | unsupportedTarget (level : Nat)
  | poolEntryNotText
  | indexOutOfRange (i : Nat)
  | unexpectedEnd
  | trailingBytes
  | tableTooLarge
  | poolOverflow
  | codeTooLarge
  | slotsExhausted
  | noSymbol (cls : String)
  deriving Repr, DecidableEq

/-- The wording of a fault. -/
def ArtifactFault.message : ArtifactFault → String
  | .badMagic => "bad magic"
  | .unsupportedTarget level => "unsupported target level " ++ toString level
  | .poolEntryNotText => "pool entry is not UTF-8"
  | .indexOutOfRange i => "pool index " ++ toString i ++ " out of range"
  | .unexpectedEnd => "unexpected end of artifact"
  | .trailingBytes => "trailing bytes"
  | .tableTooLarge => "table too large"
  | .poolOverflow => "constant pool overflow"
  | .codeTooLarge => "method code too large"
  | .slotsExhausted => "local variable slots exhausted"
  | .noSymbol cls => "no symbol for " ++ cls

end ProbeLang
