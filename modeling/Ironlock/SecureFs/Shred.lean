import Ironlock.SecureFs.AtomicOutput

/-! Best-effort shredding of a source that has been encrypted
(`secure_fs.rs`). -/

namespace Ironlock
open ByteOrder (Bytes)
open Effect
open Fs (Identity)

def overwriteBufferSize : Nat := 1024 * 1024

def shredFailure (text : String) : IronlockError := .secureDeletionFailed [.text text]

/-- `map_err` over an error of the program's own. -/
def shredError (e : IronlockError) : IronlockError := .secureDeletionFailed e.display

/-- `map_err` over an error of std's. -/
def shredIoError : IronlockError → IronlockError
  | .ioError e => .secureDeletionFailed [.io e]
  | e => shredError e

/-- The loop of one pass over what remains of the file. -/
def overwriteRemaining (env : Env) (i offset remaining : Nat) : FsM Unit :=
  if remaining = 0 then return ()
  else do
    let amount := min remaining overwriteBufferSize
    let randomData ← Sys.fillBytes env amount
    Eff.mapError shredIoError (Sys.writeAllAt env i offset randomData)
    overwriteRemaining env i (offset + amount) (remaining - amount)
termination_by remaining
decreasing_by simp only [overwriteBufferSize]; omega

/-- The passes that are left. -/
def overwritePasses (env : Env) (i fileSize : Nat) : Nat → FsM Unit
  | 0 => return ()
  | passes + 1 => do
    Eff.mapError shredIoError (Sys.rewind env (.file i))
    overwriteRemaining env i 0 fileSize
    Eff.mapError shredIoError (Sys.flush env (.file i))
    Eff.mapError shredIoError (Sys.syncAll env (.file i))
    overwritePasses env i fileSize passes

/-- What `secure_delete_inner` does to the quarantined file before removing it. -/
def overwriteQuarantined (env : Env) (quarantinePath : Path) (expected : Identity) : FsM Unit := do
  let file ← Eff.mapError shredError
    (Sys.run env (.openWrite quarantinePath) (Fs.openWriteNofollow quarantinePath))
  let handleMetadata ← Eff.mapError shredIoError (Sys.stat env file)
  Eff.mapError shredIoError (Sys.duplicate env file)
  let quarantineHandle ← Eff.mapError shredIoError (Sys.handleFromFile env file)
  if quarantineHandle ≠ expected then
    Eff.fail (shredFailure "quarantined file changed while opening it")
  else
    let links ← Eff.mapError shredError (Sys.linkCount env file)
    if links ≠ 1 then
      Eff.fail (.secureDeletionFailed [.text "refusing to overwrite a file with ", .number links,
        .text " hard links"])
    else
      match file with
      | .file i => overwritePasses env i handleMetadata.len 3
      | _ => pure ()
      match ← Sys.symlinkMetadata env quarantinePath with
      | .error e => Eff.fail (.secureDeletionFailed [.io e])
      | .ok finalMetadata =>
        Eff.mapError shredError (rejectLinkOrReparse quarantinePath finalMetadata)
        if ← Eff.mapError shredError (pathMatchesOpenFile env quarantinePath file) then return ()
        else Eff.fail (shredFailure "quarantined file changed before deletion")

def secureDeleteInner (env : Env) (p : Path) (expectedSource : Option Identity) : FsM Unit := do
  let (source, _) ← Eff.mapError shredError (verifiedSourceFile env p)
  let expectedHandle ← Eff.mapError shredIoError (Sys.handleFromFile env (.file source))
  if expectedSource.isSome ∧ expectedSource ≠ some expectedHandle then
    Eff.fail (shredFailure
      "source identity changed after encryption; refusing to overwrite it")
  else
    let quarantine ← Eff.mapError shredError (QuarantinedFile.new env p)
    Eff.onError (overwriteQuarantined env quarantine.quarantine expectedHandle)
      (quarantine.restore env)
    Eff.mapError shredError (quarantine.remove env)

end Ironlock
