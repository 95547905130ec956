import ProbeLang.Bytes

/-!
# Faults of input and output

Why a file could not be read or written, and why a stream refused an operation.
-/

namespace ProbeLang

/-- A refusal by the file system. -/
inductive FileFault
  | notFound
  | notADirectory
  | isADirectory
  | alreadyExists
  | nameTooLong
  deriving Repr, DecidableEq

/-- The system's wording, with its error number. -/
def FileFault.message : FileFault → String
  | .notFound => "No such file or directory (os error 2)"
  | .alreadyExists => "File exists (os error 17)"
  | .notADirectory => "Not a directory (os error 20)"
  | .isADirectory => "Is a directory (os error 21)"
  | .nameTooLong => "File name too long (os error 36)"

/-- The classes into which faults of input and output fall. -/
inductive IoKind
  | notFound
  | notADirectory
  | isADirectory
  | alreadyExists
  | invalidFilename
  | invalidInput
  | invalidData
  | unsupported
  deriving Repr, DecidableEq

/-- The class of a refusal by the file system. -/
def FileFault.kind : FileFault → IoKind
  | .notFound => .notFound
  | .notADirectory => .notADirectory
  | .isADirectory => .isADirectory
  | .alreadyExists => .alreadyExists
  | .nameTooLong => .invalidFilename

/-- Why reading or writing failed. -/
inductive IoFault
  /-- The file system refused. -/
  | file (fault : FileFault)
  /-- A path holds a zero byte. -/
  | zeroInPath
  /-- A stream of text held other bytes. -/
  | streamNotText
  /-- A whole content was not text. -/
  | notText (fault : Utf8Fault)
  /-- A stream that goes only forward was asked to go back. -/
  | cannotRewind
  /-- Preprocessing what had been read failed. -/
  | unprocessed (kind : IoKind) (message : String)
  deriving Repr, DecidableEq

namespace IoFault

/-- The class of a fault. -/
def kind : IoFault → IoKind
  | .file fault => fault.kind
  | .zeroInPath => .invalidInput
  | .streamNotText | .notText _ => .invalidData
  | .cannotRewind => .unsupported
  | .unprocessed kind _ => kind

/-- The wording of a fault. -/
def message : IoFault → String
  | .file fault => fault.message
  | .zeroInPath => "file name contained an unexpected NUL byte"
  | .streamNotText => "stream did not contain valid UTF-8"
  | .notText fault => fault.message
  | .cannotRewind => "mark/reset not supported"
  | .unprocessed _ message => message

end IoFault

/-! ## Faults of documents

Why a file with settings could not be used. -/

/-- Why a document with settings was refused. -/
inductive DocumentFault
  | unreadable (path : String) (fault : IoFault)
  | malformed
  deriving Repr, DecidableEq

/-- The wording of a refusal. -/
def DocumentFault.message : DocumentFault → String
  | .unreadable path fault => path ++ ": " ++ fault.message
  | .malformed => "malformed document"

end ProbeLang
