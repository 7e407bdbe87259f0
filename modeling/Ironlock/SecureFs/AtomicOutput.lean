import Ironlock.SecureFs.Paths

/-! Private temporary files, the atomic installation of an output, and the
quarantine of what it replaces (`secure_fs.rs`). -/

namespace Ironlock
open ByteOrder (Bytes)
open Effect
open Fs (Identity Metadata)

/-- `.ironlock-{:016x}-{:016x}.tmp` -/
def tempFormat (a b : UInt64) : Bytes :=
  ascii ".ironlock-" ++ hex16 a ++ ascii "-" ++ hex16 b ++ ascii ".tmp"

theorem tempFormat_plain {a b : UInt64} {x : UInt8} (h : x ∈ tempFormat a b) :
    x ≠ slash ∧ x ≠ 0 := by
  have hfixed : ∀ y ∈ ascii ".ironlock-" ++ ascii "-" ++ ascii ".tmp", y ≠ slash ∧ y ≠ 0 := by
    decide +kernel
  simp only [tempFormat, List.mem_append] at h hfixed
  rcases h with (((h | h) | h) | h) | h
  · exact hfixed x (.inl (.inl h))
  · exact ⟨(hex16_plain h).1, (hex16_plain h).2.2⟩
  · exact hfixed x (.inl (.inr h))
  · exact ⟨(hex16_plain h).1, (hex16_plain h).2.2⟩
  · exact hfixed x (.inr h)

theorem length_tempFormat (a b : UInt64) : (tempFormat a b).length = 47 := by
  simp [tempFormat, ascii]

theorem validName_tempFormat (a b : UInt64) : validName (tempFormat a b) = true := by
  have hlen := length_tempFormat a b
  have hslash : slash ∉ tempFormat a b := fun h => (tempFormat_plain h).1 rfl
  simp only [validName, Bool.and_eq_true, decide_eq_true_eq, Bool.not_eq_true', ne_eq]
  refine ⟨⟨⟨?_, by simpa using hslash⟩, ?_⟩, ?_⟩ <;> intro h <;> rw [h] at hlen <;> cases hlen

/-- The name of a temporary or quarantined file. -/
def tempName (a b : UInt64) : Name := ⟨tempFormat a b, validName_tempFormat a b⟩

theorem joinRaw_tempFormat (p : Path) (a b : UInt64) :
    p.joinRaw (tempFormat a b) = p.push (.name (tempName a b)) := p.joinRaw_bytes (tempName a b)

def randomTempPath (env : Env) (parent : Path) : FsM Path := do
  let a ← Sys.nextU64 env
  let b ← Sys.nextU64 env
  return parent.joinRaw (tempFormat a b)

def openPrivateNew (env : Env) (p : Path) : FsM Nat := Sys.run env (.createNew p) (Fs.createNew p)

/-- The tries of `create_private_temp` that are left. -/
def createPrivateTempIn (env : Env) (parent : Path) : Nat → FsM (Path × Nat)
  | 0 => Eff.fail
    (.ioError ⟨.alreadyExists, "could not allocate a unique temporary output file"⟩)
  | tries + 1 => do
    let p ← randomTempPath env parent
    match ← Eff.attempt (openPrivateNew env p) with
    | .ok file => return (p, file)
    | .error (.ioError e) =>
      if e.kind = .alreadyExists then createPrivateTempIn env parent tries
      else Eff.fail (.ioError e)
    | .error e => Eff.fail e

def createPrivateTemp (env : Env) (parent : Path) : FsM (Path × Nat) :=
  createPrivateTempIn env parent 128

def unixPath (p : Path) : FsM Unit :=
  if p.hasNul then Eff.fail (unsafe_ "path contains a NUL byte: '" p "'") else return ()

/-- `install_temp`, which the program only calls with `replace = false`. -/
def installTemp (env : Env) (temp destination : Path) : FsM Unit := do
  unixPath temp
  unixPath destination
  Sys.run env (.rename temp destination) (Fs.renameNoreplace temp destination)

def syncParent (env : Env) (p : Path) : FsM Unit := do
  let file ← Sys.run env (.openRead p) (Fs.openRead p)
  Sys.syncAll env file

/-! ## Quarantine -/

/-- A file moved out of the way while `active`. -/
structure QuarantinedFile where
  original : Path
  quarantine : Path

namespace QuarantinedFile

/-- The tries of `QuarantinedFile::new` that are left. -/
def newIn (env : Env) (original : Path) : Nat → FsM QuarantinedFile
  | 0 => Eff.fail
    (.secureDeletionFailed [.text "could not quarantine the source under a unique name"])
  | tries + 1 => do
    let quarantine ← randomTempPath env original.parentOrHere
    match ← Eff.attempt (installTemp env original quarantine) with
    | .ok () => return ⟨original, quarantine⟩
    | .error (.ioError e) =>
      if e.kind = .alreadyExists then newIn env original tries else Eff.fail (.ioError e)
    | .error e => Eff.fail e

def new (env : Env) (original : Path) : FsM QuarantinedFile := newIn env original 128

/-- `restore`, which is also what dropping an active quarantine does. -/
def restore (env : Env) (q : QuarantinedFile) : FsM Unit := do
  if ← Sys.exists_ env q.original then return ()
  else
    let _ ← Eff.attempt (installTemp env q.quarantine q.original)
    return ()

/-- `remove`. The quarantine is still active when it fails. -/
def remove (env : Env) (q : QuarantinedFile) : FsM Unit :=
  Eff.onError (do
    Sys.run env (.removeFile q.quarantine) (Fs.removeFile q.quarantine)
    syncParent env q.quarantine.parentOrHere) (q.restore env)

end QuarantinedFile

/-! ## Atomic output -/

/-- An output being written to its temporary file. -/
structure AtomicOutput where
  destination : Path
  tempPath : Path
  file : Nat
  observedDestination : Option Identity
  deriving DecidableEq

namespace AtomicOutput

/-- The destination's identity, if there is one. -/
def observe (env : Env) (destination : Path) : FsM (Option Identity) := do
  match ← Sys.symlinkMetadata env destination with
  | .ok m =>
    rejectLinkOrReparse destination m
    if m.isFile = false then Eff.fail (unsafe_ "'" destination "' is not a regular file")
    else
      let handle ← Sys.handleFromPath env destination
      return some handle
  | .error e => if e.kind = .notFound then return none else Eff.fail (.ioError e)

/-- The approval of an overwrite, after which the destination must still be
the one observed. -/
def approve (env : Env) (destination : Path) (force : Bool) : Option Identity → FsM Unit
  | none => return ()
  | some observed => do
    checkOverwrite env destination force
    let current ← Sys.handleFromPath env destination
    if current ≠ observed then
      Eff.fail (unsafe_ "destination changed during overwrite approval: '" destination "'")
    else return ()

def new (env : Env) (destination : Path) (force : Bool) : FsM AtomicOutput := do
  let parent := destination.parentOrHere
  ensureSafeDirectory env parent
  let observedDestination ← observe env destination
  approve env destination force observedDestination
  let (tempPath, file) ← createPrivateTemp env parent
  return { destination, tempPath, file, observedDestination }

/-- What dropping an output that was not committed does. -/
def drop (env : Env) (o : AtomicOutput) : FsM Unit := do
  let _ ← Sys.try_ env (.removeFile o.tempPath) (Fs.removeFile o.tempPath)
  return ()

/-- The replacement arm of `commit`. -/
def replace (env : Env) (o : AtomicOutput) (observed : Identity) : FsM QuarantinedFile := do
  let quarantine ← QuarantinedFile.new env o.destination
  Eff.onError (do
    let moved ← Sys.handleFromPath env quarantine.quarantine
    if moved ≠ observed then
      Eff.fail (unsafe_ "destination changed before atomic replacement: '" o.destination "'")
    else
      installTemp env o.tempPath o.destination
      syncParent env o.destination.parentOrHere) (quarantine.restore env)
  return quarantine

/-- The other arm of `commit`: nothing was there. -/
def install (env : Env) (o : AtomicOutput) : FsM Unit := do
  match ← Sys.symlinkMetadata env o.destination with
  | .ok m =>
    rejectLinkOrReparse o.destination m
    Eff.fail (.ioError ⟨.alreadyExists, "output appeared while data was being written"⟩)
  | .error e => if e.kind = .notFound then pure () else Eff.fail (.ioError e)
  installTemp env o.tempPath o.destination
  syncParent env o.destination.parentOrHere

/-- `commit` up to the point where it sets `committed`. Both of its arms end
with the sync of the parent directory. -/
def publish (env : Env) (o : AtomicOutput) : FsM (Option QuarantinedFile) := do
  Sys.flush env (.file o.file)
  Sys.syncAll env (.file o.file)
  match o.observedDestination with
  | some observed =>
    let quarantine ← replace env o observed
    return some quarantine
  | none =>
    install env o
    return none

def commit (env : Env) (o : AtomicOutput) : FsM Path := do
  match ← Eff.onError (publish env o) (o.drop env) with
  | some quarantine => quarantine.remove env
  | none => pure ()
  return o.destination

end AtomicOutput

end Ironlock
