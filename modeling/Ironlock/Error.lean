import Ironlock.Path

/-! The program's errors, with the texts they carry. -/

namespace Ironlock

/-- `io::ErrorKind`, as far as the program or its calls tell kinds apart. -/
inductive ErrorKind
  | notFound
  | alreadyExists
  | permissionDenied
  | interrupted
  | unexpectedEof
  | writeZero
  | invalidInput
  | notADirectory
  | isADirectory
  | filesystemLoop
  | other
  deriving DecidableEq, Repr

structure IoError where
  kind : ErrorKind
  message : String
  deriving DecidableEq, Repr

/-- An error the operating system reports by its code. -/
def IoError.os (kind : ErrorKind) : IoError := ⟨kind, ""⟩

/-- A piece of a formatted message. -/
inductive Piece
  | text (s : String)
  | path (p : Path)
  | number (n : Nat)
  | io (e : IoError)
  deriving DecidableEq

abbrev Message := List Piece

inductive IronlockError
  | fileNotFound (path : Message)
  | invalidExtension
  | encryptionFailed (message : Message)
  | decryptionFailed
  | invalidFileFormat
  | ioError (e : IoError)
  | passwordMismatch
  | emptyPassword
  | noInput
  | noFilesToProcess (operation : String)
  | secureDeletionFailed (message : Message)
  | notADirectory (path : Message)
  | unsafePath (message : Message)
  | outputCollision (message : Message)
  | resourceLimit (message : Message)
  | batchIncomplete (failed skipped : Nat)
  | cancelled
  deriving DecidableEq

/-- `to_string`. -/
def IronlockError.display : IronlockError → Message
  | fileNotFound m => .text "File not found: " :: m
  | invalidExtension => [.text "Invalid file extension: expected .il for decryption"]
  | encryptionFailed m => .text "Encryption failed: " :: m
  | decryptionFailed => [.text "Decryption failed: incorrect password or corrupted file"]
  | invalidFileFormat => [.text "Invalid file format: not a valid Ironlock encrypted file"]
  | ioError e => [.text "I/O error: ", .io e]
  | passwordMismatch => [.text "Passwords do not match"]
  | emptyPassword => [.text "Password cannot be empty"]
  | noInput => [.text "No files specified; pipe data to stdin or provide file paths"]
  | noFilesToProcess op => [.text "No files eligible for ", .text op, .text " were found"]
  | secureDeletionFailed m => .text "Secure deletion failed: " :: m
  | notADirectory m => .text "Not a directory: " :: m
  | unsafePath m => .text "Unsafe path: " :: m
  | outputCollision m => .text "Output collision: " :: m
  | resourceLimit m => .text "Resource limit exceeded: " :: m
  | batchIncomplete failed skipped => [.text "Batch incomplete: ", .number failed,
      .text " failed, ", .number skipped, .text " skipped"]
  | cancelled => [.text "Operation cancelled by user"]

end Ironlock
