import Ironlock.Walk
import Ironlock.StreamIo

/-! The program's dealings with the world outside it: system calls that other
processes run between and that may fail, random draws, prompts, and the streams
that read and write open files. -/

namespace Ironlock
open ByteOrder (Bytes)
open Effect
open Fs (Identity Metadata SysCall)

/-- The platforms with a path key of their own. -/
inductive Target
  | linux
  | macos
  | windows
  deriving DecidableEq

/-- How a reader comes by the next bytes of a file: one more than so many at a
time, or not at all. -/
inductive Cut
  | take (more : Nat)
  | error (e : IoError)

/-- The bytes of a file as such a reader delivers them. -/
def cutReader : List Cut → Bytes → Reader
  | [], b => if b = [] then [] else [.data b]
  | .error e :: cuts, b => .error e :: cutReader cuts b
  | .take more :: cuts, b =>
    if b = [] then cutReader cuts b
    else .data (b.take (more + 1)) :: cutReader cuts (b.drop (more + 1))

/-- All that the program does not determine. The `n`th system call fails when
`fault n` says so; before it the other processes do `others n`. -/
structure Env where
  crates : Crates
  target : Target
  toLowercase : Bytes → Bytes
  fault : Nat → Option IoError
  others : Nat → Fs → Fs
  confirm : Nat → Except IoError Bool
  nextU64 : Nat → UInt64
  salt : Nat → Salt
  baseNonce : Nat → Nonce
  noise : Nat → Nat → UInt8
  cuts : Nat → List Cut
  accepts : Nat → List WriteEvent

/-- A system call, by its kind and what it is made on. -/
inductive Call
  | symlinkMetadata (p : Path)
  | metadata (p : Path)
  | canonicalize (p : Path)
  | openRead (p : Path)
  | openNofollow (p : Path)
  | openWrite (p : Path)
  | createNew (p : Path)
  | createDir (p : Path)
  | readDir (p : Path)
  | rename (src dst : Path)
  | removeFile (p : Path)
  | stat (file : Identity)
  | duplicate (file : Identity)
  | flush (file : Identity)
  | seek (file : Identity)
  | write (file : Identity)
  | sync (file : Identity)
  deriving DecidableEq

/-- Whether a call of this kind leaves the file system as it is. -/
def Call.looks : Call → Bool
  | .createNew _ | .createDir _ | .rename _ _ | .removeFile _ | .write _ => false
  | _ => true

/-- A system call that was made, whether it was made to fail, and the file
system on its two sides. -/
structure Step where
  call : Call
  fault : Option IoError
  before : Fs
  after : Fs

structure World where
  fs : Fs
  calls : Nat
  draws : Nat
  steps : List Step

/-- The calls made after an earlier world was reached. -/
def World.since (w w₀ : World) : List Step := w.steps.drop w₀.steps.length

theorem World.since_eq {w w₀ : World} {steps : List Step} (h : w.steps = w₀.steps ++ steps) :
    w.since w₀ = steps := by rw [since, h, List.drop_left]

/-- What was called after a later world was called after an earlier one. -/
theorem World.since_subset {w₀ w₁ : World} (h : w₀.steps <+: w₁.steps) (w : World) :
    w.since w₁ ⊆ w.since w₀ := by
  obtain ⟨steps, hsteps⟩ := h
  rw [since, since, ← hsteps, List.length_append, ← List.drop_drop]
  exact List.drop_subset ..

abbrev FsM := Eff World IronlockError

namespace Sys

/-- A system call's effect: none but its error when it is made to fail. -/
def outcome {α : Type} (fault : Option IoError) (op : SysCall α) (fs : Fs) : Except IoError α × Fs :=
  match fault with
  | some e => (.error e, fs)
  | none => op fs

/-- Make a system call, failing or not. -/
def perform {α : Type} (env : Env) (call : Call) (fault : Option IoError) (op : SysCall α) :
    FsM (Except IoError α) := fun w =>
  let before := env.others w.calls w.fs
  let result := outcome fault op before
  (.ok result.1, { w with
    fs := result.2
    calls := w.calls + 1
    steps := w.steps ++ [⟨call, fault, before, result.2⟩] })

/-- Make a system call and look at its result. -/
def try_ {α : Type} (env : Env) (call : Call) (op : SysCall α) : FsM (Except IoError α) :=
  fun w => perform env call (env.fault w.calls) op w

/-- Make a system call and pass its error on. -/
def run {α : Type} (env : Env) (call : Call) (op : SysCall α) : FsM α := do
  match ← try_ env call op with
  | .ok a => return a
  | .error e => Eff.fail (.ioError e)

def symlinkMetadata (env : Env) (p : Path) : FsM (Except IoError Metadata) :=
  try_ env (.symlinkMetadata p) (Fs.symlinkMetadata p)

def canonicalize (env : Env) (p : Path) : FsM (Except IoError Path) :=
  try_ env (.canonicalize p) (Fs.canonicalize p)

/-- `Path::exists`. -/
def exists_ (env : Env) (p : Path) : FsM Bool := do
  return (← try_ env (.metadata p) (Fs.metadata p)).isOk

/-- A call on an open file that changes nothing. -/
def idle : SysCall Unit := fun fs => (.ok (), fs)

def flush (env : Env) (file : Identity) : FsM Unit := run env (.flush file) idle

def syncAll (env : Env) (file : Identity) : FsM Unit := run env (.sync file) idle

/-- `try_clone`, as far as it can fail. -/
def duplicate (env : Env) (file : Identity) : FsM Unit := run env (.duplicate file) idle

/-- `File::metadata`. -/
def stat (env : Env) (file : Identity) : FsM Metadata :=
  run env (.stat file) fun fs => (.ok (match file with
    | .file i => ⟨.file i, (fs.content i).length⟩
    | .dir _ => ⟨.dir, 0⟩
    | .special _ => ⟨.special, 0⟩), fs)

/-- `same_file::Handle::from_file`. -/
def handleFromFile (env : Env) (file : Identity) : FsM Identity := do
  let _ ← stat env file
  return file

/-- `same_file::Handle::from_path`. -/
def handleFromPath (env : Env) (p : Path) : FsM Identity := do
  let file ← run env (.openRead p) (Fs.openRead p)
  handleFromFile env file

/-- The number of links `File::metadata` reports. -/
def linkCount (env : Env) (file : Identity) : FsM Nat :=
  run env (.stat file) fun fs => (.ok (match file with
    | .file i => fs.links i
    | _ => 1), fs)

def rewind (env : Env) (file : Identity) : FsM Unit := run env (.seek file) idle

/-- One use of the random generator. -/
def draw {α : Type} (f : Nat → α) : FsM α :=
  Eff.modifyGet fun w => (f w.draws, { w with draws := w.draws + 1 })

/-- `OsRng.next_u64`. -/
def nextU64 (env : Env) : FsM UInt64 := draw env.nextU64

/-- `OsRng.fill_bytes`. -/
def fillBytes (env : Env) (amount : Nat) : FsM Bytes :=
  draw fun k => (List.range amount).map (env.noise k)

/-- The portions a file accepted, one write after another. -/
def appendAll (env : Env) (i : Nat) : List Bytes → FsM Unit
  | [] => return ()
  | b :: bs => do
    let _ ← perform env (.write (.file i)) none fun fs => (.ok (), fs.append i b)
    appendAll env i bs

/-- The portions a file accepted in the middle of it, one write after another. -/
def overwriteAll (env : Env) (i : Nat) (offset : Nat) : List Bytes → FsM Unit
  | [] => return ()
  | b :: bs => do
    let _ ← perform env (.write (.file i)) none fun fs => (.ok (), fs.overwrite i offset b)
    overwriteAll env i (offset + b.length) bs

/-- `write_all` over the bytes of an open file. -/
def writeAllAt (env : Env) (i offset : Nat) (buf : Bytes) : FsM Unit := fun w =>
  let result := Writer.writeAll buf ⟨env.accepts w.calls, []⟩
  (do
    overwriteAll env i offset result.2.portions
    Eff.ofExcept (match result.1 with
      | .ok () => .ok ()
      | .error e => .error (.ioError e))) w

/-- A reader over an open file. -/
def reader (env : Env) (source : Nat) : FsM Reader := fun w =>
  (.ok (cutReader (env.cuts w.calls) (w.fs.content source)), w)

/-- Run a streaming program that writes nothing, and keep what its reader is
left with. -/
def readStream {α : Type} (r : Reader) (m : StreamM α) : FsM (α × Reader) := fun w =>
  let result := m ⟨r, ⟨[], []⟩, []⟩
  (match result.1 with
    | .ok a => .ok (a, result.2.reader)
    | .error e => .error e, w)

/-- Run a streaming program from a reader into an open file. What it wrote
before it failed is written. -/
def stream {α : Type} (env : Env) (r : Reader) (output : Nat) (m : StreamM α) : FsM α := fun w =>
  let result := m ⟨r, ⟨env.accepts w.calls, []⟩, []⟩
  (do
    appendAll env output result.2.writer.portions
    Eff.ofExcept result.1) w

end Sys

end Ironlock
