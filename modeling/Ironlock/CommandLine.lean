import Ironlock.SecureFs.Decrypt

/-! The program's two commands (`main.rs`, `cli.rs`): what they ask at the
terminal, what they print, and the exit code they end in. -/

namespace Ironlock
open ByteOrder (Bytes)
open Effect

/-- `cli::Commands`, as they are parsed. -/
inductive Commands
  | encrypt (files : List Path) (force shred progress : Bool)
  | decrypt (files : List Path) (output : Option Path) (force progress : Bool)

/-- What the terminal and the standard streams do. The `n`th password prompt
is flushed and answered as these say. -/
structure Console where
  stdinIsTerminal : Bool
  flushStderr : Nat → Option IoError
  readPassword : Nat → Except IoError Str
  stdin : Reader
  accepts : List WriteEvent
  flushStdout : Option IoError

/-- A progress bar, and the lines printed above it. -/
structure ProgressBar where
  length : Nat
  position : Nat
  finished : Bool
  above : List Message
  deriving DecidableEq

/-- The world, and what the run has shown so far: lines and bytes on standard
output, texts on standard error, and its bar. -/
structure Session where
  world : World
  asked : Nat
  lines : List Message
  stdout : Bytes
  stderr : List Message
  bar : Option ProgressBar

abbrev SessionM := Eff Session IronlockError

namespace SessionM

/-- A program that shows nothing. -/
def disk {α : Type} (m : FsM α) : SessionM α := fun s =>
  match m s.world with
  | (r, world) => (r, { s with world })

/-- A program that shows nothing and holds a guard, which it hands back. -/
def guarded {α : Type} (guard : DecryptionBatchGuard) (m : GuardM α) :
    SessionM (Except IronlockError α × DecryptionBatchGuard) := fun s =>
  match m (s.world, guard) with
  | (r, (world, guard)) => (.ok (r, guard), { s with world })

def println (line : Message) : SessionM Unit :=
  Eff.modifyGet fun s => ((), { s with lines := s.lines ++ [line] })

def eprint (text : Message) : SessionM Unit :=
  Eff.modifyGet fun s => ((), { s with stderr := s.stderr ++ [text] })

/-- Which prompt this is. -/
def nextPrompt : SessionM Nat := Eff.modifyGet fun s => (s.asked, { s with asked := s.asked + 1 })

/-- A streaming program from standard input to standard output. -/
def stdio {α : Type} (console : Console) (m : StreamM α) : SessionM α := fun s =>
  match m ⟨console.stdin, ⟨console.accepts, []⟩, []⟩ with
  | (r, streams) => (r, { s with stdout := s.stdout ++ streams.writer.written })

def flushStdout (console : Console) : SessionM Unit :=
  match console.flushStdout with
  | some e => Eff.fail (.ioError e)
  | none => return ()

@[simp] theorem println_apply (line : Message) (s : Session) :
    println line s = (.ok (), { s with lines := s.lines ++ [line] }) := rfl

@[simp] theorem eprint_apply (text : Message) (s : Session) :
    eprint text s = (.ok (), { s with stderr := s.stderr ++ [text] }) := rfl

@[simp] theorem nextPrompt_apply (s : Session) :
    nextPrompt s = (.ok s.asked, { s with asked := s.asked + 1 }) := rfl

theorem disk_eq {α : Type} {m : FsM α} {s : Session} {r : Except IronlockError α} {w : World}
    (h : m s.world = (r, w)) : disk m s = (r, { s with world := w }) := by rw [disk, h]

theorem stdio_eq {α : Type} {console : Console} {m : StreamM α} {s : Session} {r : Except IronlockError α}
    {streams : Streams} (h : m ⟨console.stdin, ⟨console.accepts, []⟩, []⟩ = (r, streams)) :
    stdio console m s = (r, { s with stdout := s.stdout ++ streams.writer.written }) := by rw [stdio, h]

end SessionM

/-! ## Passwords -/

def promptPassword (console : Console) (prompt : String) : SessionM Str := do
  SessionM.eprint [.text prompt]
  let k ← SessionM.nextPrompt
  match console.flushStderr k with
  | some e => Eff.fail (.ioError e)
  | none =>
    match console.readPassword k with
    | .error e => Eff.fail (.ioError ⟨.other, e.message⟩)
    | .ok password => return password

def validatePassword (password : Str) : Except IronlockError Unit :=
  if password.bytes = [] then .error .emptyPassword else .ok ()

def validatePasswordConfirmation (password confirmation : Str) : Except IronlockError Unit :=
  if password ≠ confirmation then .error .passwordMismatch else .ok ()

def promptPasswordWithConfirm (console : Console) : SessionM Str := do
  let password ← promptPassword console "Enter password: "
  Eff.ofExcept (validatePassword password)
  let confirm ← promptPassword console "Confirm password: "
  Eff.ofExcept (validatePasswordConfirmation password confirm)
  return password

def promptPasswordDecrypt (console : Console) : SessionM Str := do
  let password ← promptPassword console "Enter password: "
  Eff.ofExcept (validatePassword password)
  return password

/-! ## Standard input -/

/-- The name that a stream from standard input is encrypted under. -/
def stdinName : Str := ⟨ascii "stdin", by decide⟩

def encryptStdin (env : Env) (console : Console) (password : Bytes) : SessionM Unit := do
  let salt ← SessionM.disk (Sys.draw env.salt)
  let baseNonce ← SessionM.disk (Sys.draw env.baseNonce)
  let _ ← SessionM.stdio console (encryptStream env.crates salt baseNonce password stdinName)
  SessionM.flushStdout console

def decryptStdin (env : Env) (console : Console) (password : Bytes) : SessionM Unit := do
  let _ ← SessionM.stdio console do
    let decryptor ← StreamDecryptor.new env.crates password
    decryptor.decryptTo env.crates
  SessionM.flushStdout console

def validateStreamInput (stdinIsTerminal : Bool) : Except IronlockError Unit :=
  if stdinIsTerminal then .error .noInput else .ok ()

def requirePipedStdin (console : Console) : Except IronlockError Unit :=
  validateStreamInput console.stdinIsTerminal

/-! ## Batches -/

def requireNonEmptyBatch {α : Type} (items : List α) (operation : String) :
    Except IronlockError Unit :=
  if items.isEmpty then .error (.noFilesToProcess operation) else .ok ()

def makeProgressBar (total : Nat) : ProgressBar := ⟨total, 0, false, []⟩

/-- `progress` says whether there is a bar, which is the session's. -/
structure Counters where
  success : Nat
  errors : Nat
  skipped : Nat
  progress : Bool
  deriving DecidableEq

def formatResultSuffix (result : Except IronlockError Path) (shredded : Bool) : Message :=
  match result with
  | .ok output =>
    if shredded then
      [.text "[OK]", .text " -> ", .path output, .text " (original overwritten/deleted; media-dependent)"]
    else [.text "[OK]", .text " -> ", .path output]
  | .error .cancelled => [.text "[SKIPPED]"]
  | .error .decryptionFailed => [.text "[ERROR]", .text " incorrect password or corrupted file"]
  | .error e => [.text "[ERROR]", .text " "] ++ e.display

namespace Counters

def new (progress : Bool) : Counters := ⟨0, 0, 0, progress⟩

/-- Do something to the bar, if there is one. -/
def onBar (self : Counters) (f : ProgressBar → ProgressBar) : SessionM Unit :=
  if self.progress then Eff.modifyGet fun s => ((), { s with bar := s.bar.map f }) else return ()

def output (self : Counters) (message : Message) : SessionM Unit :=
  if self.progress then self.onBar fun bar => { bar with above := bar.above ++ [message] }
  else SessionM.println message

/-- The counters after one more result. -/
def count (self : Counters) (result : Except IronlockError Path) : Counters :=
  match result with
  | .ok _ => { self with success := self.success + 1 }
  | .error .cancelled => { self with skipped := self.skipped + 1 }
  | .error _ => { self with errors := self.errors + 1 }

def handleResult (self : Counters) (lead : Message) (result : Except IronlockError Path)
    (shredded : Bool) : SessionM Counters := do
  let suffix := formatResultSuffix result shredded
  self.output (lead ++ suffix)
  self.onBar fun bar => { bar with position := bar.position + 1 }
  return self.count result

def printSummary (self : Counters) (operation : String) : SessionM Unit := do
  self.onBar fun bar => { bar with finished := true }
  SessionM.println []
  if self.errors = 0 ∧ self.skipped = 0 then
    SessionM.println [.text "[OK]", .text " ", .number self.success, .text " file(s) ", .text operation,
      .text " successfully"]
  else
    SessionM.println [.text "[WARN]", .text " ", .number self.success, .text " succeeded, ",
      .number self.errors, .text " failed, ", .number self.skipped, .text " skipped"]
    Eff.fail (.batchIncomplete self.errors self.skipped)

end Counters

/-- The counters of a new batch, with a bar if there is to be one. -/
def startBatch (progress : Bool) (total : Nat) : SessionM Counters :=
  Eff.modifyGet fun s =>
    (Counters.new progress, { s with bar := if progress then some (makeProgressBar total) else s.bar })

/-- The loop of `run` over the encryption plans. -/
def encryptLoop (env : Env) (password : Bytes) (force shred : Bool) :
    List EncryptionPlan → Counters → SessionM Counters
  | [], counters => return counters
  | plan :: plans, counters => do
    let result ← SessionM.disk
      (Eff.attempt (encryptFileToPath env plan.source plan.output password force shred))
    let counters ← counters.handleResult [.text "Encrypting ", .path plan.source, .text " ... "]
      result shred
    encryptLoop env password force shred plans counters

/-- The loop of `run` over the decryption plans, which holds the batch's guard. -/
def decryptLoop (env : Env) (password : Bytes) (force : Bool) :
    List DecryptionPlan → DecryptionBatchGuard → Counters → SessionM Counters
  | [], _, counters => return counters
  | plan :: plans, guard, counters => do
    let (result, guard) ← SessionM.guarded guard
      (decryptFileToPathGuarded env plan.source password (some plan.targetDir) force)
    let counters ← counters.handleResult [.text "Decrypting ", .path plan.source, .text " ... "]
      result false
    decryptLoop env password force plans guard counters

/-! ## The commands -/

def run (env : Env) (console : Console) : Commands → SessionM Unit
  | .encrypt files force shred progress =>
    if files.isEmpty then do
      Eff.ofExcept (requirePipedStdin console)
      let password ← promptPasswordWithConfirm console
      SessionM.eprint []
      encryptStdin env console password.bytes
    else do
      let plans ← SessionM.disk (planEncryptionInputs env files)
      Eff.ofExcept (requireNonEmptyBatch plans "encryption")
      SessionM.println [.text "Ironlock Encryption"]
      SessionM.println []
      let password ← promptPasswordWithConfirm console
      SessionM.println []
      let counters ← startBatch progress plans.length
      let counters ← encryptLoop env password.bytes force shred plans counters
      counters.printSummary "encrypted"
  | .decrypt files output force progress =>
    if files.isEmpty then do
      Eff.ofExcept (requirePipedStdin console)
      let password ← promptPasswordDecrypt console
      SessionM.eprint []
      decryptStdin env console password.bytes
    else do
      let plans ← SessionM.disk (planDecryptionInputs env files output)
      Eff.ofExcept (requireNonEmptyBatch plans "decryption")
      let guard ← SessionM.disk (DecryptionBatchGuard.new env plans)
      SessionM.println [.text "Ironlock Decryption"]
      SessionM.println []
      let password ← promptPasswordDecrypt console
      SessionM.println []
      let counters ← startBatch progress plans.length
      let counters ← decryptLoop env password.bytes force plans guard counters
      counters.printSummary "decrypted"

/-- The exit code, and the session the program leaves. -/
def main (env : Env) (console : Console) (command : Commands) (s : Session) : Nat × Session :=
  match run env console command s with
  | (.ok (), t) => (0, t)
  | (.error e, t) => (1, { t with stderr := t.stderr ++ [[.text "Error:", .text " "] ++ e.display] })

end Ironlock
