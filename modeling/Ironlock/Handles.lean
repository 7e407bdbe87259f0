import Ironlock.Lib.Gauge
import Ironlock.SecureFs.Decrypt

/-! The handles the planners, a guard and the decryption of a file hold: the
same programs with every handle they open counted until it is closed. -/

namespace Ironlock
open ByteOrder (Bytes)
open Effect
open Fs (Identity Metadata)

/-- Programs whose handles are counted. -/
abbrev HandleM := Metered World IronlockError

abbrev GuardHandleM := Metered (World × DecryptionBatchGuard) IronlockError

namespace Handles
open Metered

/-- What opening a file reports at the limit. -/
def tooManyOpen : IronlockError := .ioError (.os .other)

/-! ## Opening and comparing -/

def handleFromPath (env : Env) (p : Path) : HandleM Identity := body 1 do
  let file ← opening tooManyOpen (Sys.run env (.openRead p) (Fs.openRead p))
  free (Sys.handleFromFile env file)

def pathMatchesOpenFile (env : Env) (p : Path) (file : Identity) : HandleM Bool := body 0 do
  let pathHandle ← handleFromPath env p
  opening tooManyOpen (Sys.duplicate env file)
  let fileHandle ← free (Sys.handleFromFile env file)
  return pathHandle = fileHandle

def pathsReferToSameFile (env : Env) (source output : Path) : HandleM Bool := body 0 do
  let sourceKey ← free (normalizedPathKey env source)
  let outputKey ← free (normalizedPathKey env output)
  if sourceKey = outputKey then return true
  else
    match ← free (Sys.symlinkMetadata env output) with
    | .ok m =>
      free (rejectLinkOrReparse output m)
      let sourceHandle ← handleFromPath env source
      let outputHandle ← handleFromPath env output
      return sourceHandle = outputHandle
    | .error e => if e.kind = .notFound then return false else Eff.fail (.ioError e)

def verifiedSourceFile (env : Env) (p : Path) : HandleM (Nat × Metadata) := body 1 do
  let _ ← free (validateRegularSource env p)
  let file ← opening tooManyOpen (Sys.run env (.openNofollow p) (Fs.openNofollow p))
  let m ← free (Sys.stat env file)
  free (rejectLinkOrReparse p m)
  match file with
  | .file i =>
    if ← pathMatchesOpenFile env p file then return (i, m) else Eff.fail (sourceChanged p)
  | _ => Eff.fail (sourceChanged p)

def syncParent (env : Env) (p : Path) : HandleM Unit := body 0 do
  let file ← opening tooManyOpen (Sys.run env (.openRead p) (Fs.openRead p))
  free (Sys.syncAll env file)

/-! ## The planners -/

/-- A directory is open while its entries are visited. -/
def collectDirectories (env : Env) (root : Path) :
    Nat → List Path → List Path → HandleM (List Path)
  | _, [], files => return files
  | 0, _ :: _, _ => Eff.fail (.ioError (.os .other))
  | count + 1, current :: stack, files => do
    let (stack, files) ← body 0 do
      let entries ← opening tooManyOpen (Sys.run env (.readDir current) (Fs.readDir current))
      free (visitEntries env root entries stack files)
    collectDirectories env root count stack files

def collectFilesRecursive (env : Env) (dir : Path) : HandleM (List Path) := body 0 do
  match ← free (Sys.symlinkMetadata env dir) with
  | .error e => Eff.fail (fileNotFoundOr dir e)
  | .ok m =>
    free (rejectLinkOrReparse dir m)
    if m.isDir = false then Eff.fail (.notADirectory [.path dir])
    else
      match ← free (Sys.canonicalize env dir) with
      | .error e => Eff.fail (.ioError e)
      | .ok root =>
        let w ← free Eff.get
        let files ← collectDirectories env root (w.fs.entries.entries.length + 1) [root] []
        return files.mergeSort Path.le

def collectInput (env : Env) (decrypting : Bool) (input : Path) : HandleM (List Path) := do
  match ← free (Sys.symlinkMetadata env input) with
  | .error e => Eff.fail (fileNotFoundOr input e)
  | .ok m =>
    free (rejectLinkOrReparse input m)
    if m.isDir then
      let files ← collectFilesRecursive env input
      return files.filter fun p => if decrypting then p.encrypted else !p.encrypted
    else if m.isFile then return [input]
    else Eff.fail (unsafe_ "'" input "' is not a regular file or directory")

def collectInputsFrom (env : Env) (decrypting : Bool) : List Path → List Path → HandleM (List Path)
  | [], files => return files
  | input :: inputs, files => do
    let more ← collectInput env decrypting input
    collectInputsFrom env decrypting inputs (files ++ more)

def collectInputs (env : Env) (inputs : List Path) (decrypting : Bool) : HandleM (List Path) := body 0 do
  let files ← collectInputsFrom env decrypting inputs []
  return files.mergeSort Path.le

/-- The handle of every source registered stays open. -/
def registerSources (env : Env) :
    List Path → List Bytes → List Identity → HandleM (List Bytes × List Identity)
  | [], keys, handles => return (keys, handles)
  | source :: sources, keys, handles => do
    let key ← free (normalizedPathKey env source)
    let handle ← handleFromPath env source
    if key ∈ keys ∨ handle ∈ handles then
      Eff.fail (.outputCollision [.text "input '", .path source,
        .text "' was specified more than once"])
    else registerSources env sources (key :: keys) (handle :: handles)

def collides (env : Env) (defaultKeys unavailable : List Bytes) (source defaultOutput : Path) :
    HandleM Bool := do
  let defaultKey ← free (normalizedPathKey env defaultOutput)
  if 1 < defaultKeys.count defaultKey ∨ defaultKey ∈ unavailable then return true
  else pathsReferToSameFile env source defaultOutput

def planOutput (env : Env) (defaultKeys unavailable : List Bytes) (source defaultOutput : Path) :
    HandleM (Path × Bytes) := do
  let collides ← collides env defaultKeys unavailable source defaultOutput
  let output ← if collides then free (uniqueEncryptedPath env source unavailable) else pure defaultOutput
  let outputKey ← free (normalizedPathKey env output)
  if outputKey ∈ unavailable then
    Eff.fail (.outputCollision [.text "multiple inputs map to '", .path output, .text "'"])
  else return (output, outputKey)

def planOutputs (env : Env) (defaultKeys : List Bytes) :
    List (Path × Path) → List Bytes → HandleM (List EncryptionPlan)
  | [], _ => return []
  | (source, defaultOutput) :: rest, unavailable => do
    let (output, outputKey) ← planOutput env defaultKeys unavailable source defaultOutput
    let plans ← planOutputs env defaultKeys rest (outputKey :: unavailable)
    return ⟨source, output⟩ :: plans

def planEncryptionInputs (env : Env) (inputs : List Path) : HandleM (List EncryptionPlan) := body 0 do
  let sources ← collectInputs env inputs false
  let (sourceKeys, _) ← registerSources env sources [] []
  let defaults ← Eff.ofExcept (defaultEncryptedPaths sources)
  let defaultKeys ← free (pathKeys env defaults)
  planOutputs env defaultKeys (sources.zip defaults) sourceKeys

def planSource (env : Env) (source targetDir : Path) (seen : List Bytes) (seenHandles : List Identity) :
    HandleM (DecryptionPlan × List Bytes × List Identity) := do
  let key ← free (normalizedPathKey env source)
  let handle ← handleFromPath env source
  if key ∈ seen ∨ handle ∈ seenHandles then
    Eff.fail (.outputCollision [.text "input '", .path source,
      .text "' was specified more than once"])
  else return (⟨source, targetDir⟩, key :: seen, handle :: seenHandles)

def planDirectory (env : Env) (outputBase : Option Path) (root : Path) :
    List Path → List DecryptionPlan → List Bytes → List Identity →
    HandleM (List DecryptionPlan × List Bytes × List Identity)
  | [], plans, seen, seenHandles => return (plans, seen, seenHandles)
  | source :: sources, plans, seen, seenHandles =>
    if source.encrypted = false then planDirectory env outputBase root sources plans seen seenHandles
    else do
      let targetDir ← Eff.ofExcept (targetDirectory outputBase root source)
      let (plan, seen, seenHandles) ← planSource env source targetDir seen seenHandles
      planDirectory env outputBase root sources (plans ++ [plan]) seen seenHandles

def planInput (env : Env) (outputBase : Option Path) (input : Path) (plans : List DecryptionPlan)
    (seen : List Bytes) (seenHandles : List Identity) :
    HandleM (List DecryptionPlan × List Bytes × List Identity) := do
  match ← free (Sys.symlinkMetadata env input) with
  | .error e => Eff.fail (fileNotFoundOr input e)
  | .ok m =>
    free (rejectLinkOrReparse input m)
    if m.isDir then
      match ← free (Sys.canonicalize env input) with
      | .error e => Eff.fail (.ioError e)
      | .ok root =>
        let sources ← collectFilesRecursive env input
        planDirectory env outputBase root sources plans seen seenHandles
    else if m.isFile then
      if input.encrypted = false then Eff.fail .invalidExtension
      else
        let (plan, seen, seenHandles) ←
          planSource env input (outputBase.getD .here) seen seenHandles
        return (plans ++ [plan], seen, seenHandles)
    else Eff.fail (unsafe_ "'" input "' is not a regular file or directory")

def planInputs (env : Env) (outputBase : Option Path) :
    List Path → List DecryptionPlan → List Bytes → List Identity → HandleM (List DecryptionPlan)
  | [], plans, _, _ => return plans
  | input :: inputs, plans, seen, seenHandles => do
    let (plans, seen, seenHandles) ← planInput env outputBase input plans seen seenHandles
    planInputs env outputBase inputs plans seen seenHandles

def planDecryptionInputs (env : Env) (inputs : List Path) (outputBase : Option Path) :
    HandleM (List DecryptionPlan) := body 0 do
  let plans ← planInputs env outputBase inputs [] [] []
  return plans.mergeSort fun left right => left.source.le right.source

/-! ## Decrypting under a guard -/

/-- The guard keeps the handles of its sources. -/
def newGuard (env : Env) (plans : List DecryptionPlan) : HandleM DecryptionBatchGuard :=
  body plans.length do
    let (sourceKeys, sourceHandles) ← registerSources env (plans.map DecryptionPlan.source) [] []
    return ⟨sourceKeys, sourceHandles, []⟩

def lift {α : Type} (m : HandleM α) : GuardHandleM α := fun s =>
  match m (s.1.1, s.2) with
  | (r, (w, g)) => (r, ((w, s.1.2), g))

def reserve (env : Env) (source output : Path) : GuardHandleM Unit := body 0 do
  let sourceKey ← free (GuardM.lift (normalizedPathKey env source))
  let self ← free GuardM.guard
  if sourceKey ∉ self.sourceKeys then
    Eff.fail (.unsafePath [.text "decryption source '", .path source,
      .text "' is not part of this batch"])
  else
    let outputKey ← free (GuardM.lift (normalizedPathKey env output))
    if outputKey ∈ self.sourceKeys then
      Eff.fail (.outputCollision [.text "decrypted output '", .path output,
        .text "' would replace a pending batch input"])
    else
      match ← free (GuardM.lift (Sys.symlinkMetadata env output)) with
      | .ok m =>
        free (GuardM.lift (rejectLinkOrReparse output m))
        if m.isFile then
          let handle ← lift (handleFromPath env output)
          if handle ∈ self.sourceHandles then
            Eff.fail (.outputCollision [.text "decrypted output '", .path output,
              .text "' aliases a pending batch input"])
          else pure ()
        else pure ()
      | .error e => if e.kind = .notFound then pure () else Eff.fail (.ioError e)
      if ← free (DecryptionBatchGuard.insertReserved outputKey) then return ()
      else Eff.fail (.outputCollision
        [.text "multiple encrypted inputs contain the output filename '", .path output, .text "'"])

/-- The decryptor keeps its source open. -/
def openEncrypted (env : Env) (sourcePath : Path) (password : Bytes) :
    HandleM (StreamDecryptor × Reader) := body 1 do
  if sourcePath.encrypted = false then Eff.fail .invalidExtension
  else do
    let (source, _) ← verifiedSourceFile env sourcePath
    let reader ← free (Sys.reader env source)
    free (Sys.readStream reader (StreamDecryptor.new env.crates password))

def decryptedPath (env : Env) (sourcePath : Path) (outputDir : Option Path) (filename : Str) :
    HandleM Path := do
  let safeFilename ← Eff.ofExcept (sanitizedFilename filename)
  let directory := outputDirectory outputDir
  free (ensureSafeDirectory env directory)
  let outputPath := directory.joinRaw safeFilename.bytes
  if ← pathsReferToSameFile env sourcePath outputPath then free (uniqueDecryptedPath env outputPath)
  else return outputPath

def observe (env : Env) (destination : Path) : HandleM (Option Identity) := body 1 do
  match ← free (Sys.symlinkMetadata env destination) with
  | .ok m =>
    free (rejectLinkOrReparse destination m)
    if m.isFile = false then Eff.fail (unsafe_ "'" destination "' is not a regular file")
    else
      let handle ← handleFromPath env destination
      return some handle
  | .error e => if e.kind = .notFound then return none else Eff.fail (.ioError e)

def approve (env : Env) (destination : Path) (force : Bool) : Option Identity → HandleM Unit
  | none => return ()
  | some observed => body 0 do
    free (checkOverwrite env destination force)
    let current ← handleFromPath env destination
    if current ≠ observed then
      Eff.fail (unsafe_ "destination changed during overwrite approval: '" destination "'")
    else return ()

/-- The output keeps its file open, and the file observed at its destination if
there is one. Of the names tried the one that is created is opened. -/
def newOutput (env : Env) (destination : Path) (force : Bool) : HandleM AtomicOutput := body 2 do
  let parent := destination.parentOrHere
  free (ensureSafeDirectory env parent)
  let observedDestination ← observe env destination
  approve env destination force observedDestination
  let (tempPath, file) ← opening tooManyOpen (createPrivateTemp env parent)
  return { destination, tempPath, file, observedDestination }

/-- The source is closed when it has been decrypted. -/
def writeDecrypted (env : Env) (decryptor : StreamDecryptor) (reader : Reader) (output : Nat) :
    HandleM Unit := do
  let _ ← free (Sys.stream env reader output (decryptor.decryptTo env.crates))
  close 1
  free (Sys.flush env (.file output))

/-- The moved and the observed file are closed before the directory is synced. -/
def replace (env : Env) (o : AtomicOutput) (observed : Identity) : HandleM QuarantinedFile := body 0 do
  let quarantine ← free (QuarantinedFile.new env o.destination)
  Eff.onError (do
    let moved ← handleFromPath env quarantine.quarantine
    if moved ≠ observed then
      Eff.fail (unsafe_ "destination changed before atomic replacement: '" o.destination "'")
    else
      free (installTemp env o.tempPath o.destination)
      close 2
      syncParent env o.destination.parentOrHere) (free (quarantine.restore env))
  return quarantine

def install (env : Env) (o : AtomicOutput) : HandleM Unit := body 0 do
  match ← free (Sys.symlinkMetadata env o.destination) with
  | .ok m =>
    free (rejectLinkOrReparse o.destination m)
    Eff.fail (.ioError ⟨.alreadyExists, "output appeared while data was being written"⟩)
  | .error e => if e.kind = .notFound then pure () else Eff.fail (.ioError e)
  free (installTemp env o.tempPath o.destination)
  syncParent env o.destination.parentOrHere

/-- The output's file is closed when it has been synced. -/
def publish (env : Env) (o : AtomicOutput) : HandleM (Option QuarantinedFile) := do
  free (Sys.flush env (.file o.file))
  free (Sys.syncAll env (.file o.file))
  close 1
  match o.observedDestination with
  | some observed =>
    let quarantine ← replace env o observed
    return some quarantine
  | none =>
    install env o
    return none

def removeQuarantined (env : Env) (q : QuarantinedFile) : HandleM Unit :=
  Eff.onError (do
    free (Sys.run env (.removeFile q.quarantine) (Fs.removeFile q.quarantine))
    syncParent env q.quarantine.parentOrHere) (free (q.restore env))

def commit (env : Env) (o : AtomicOutput) : HandleM Path := body 0 do
  match ← Eff.onError (publish env o) (free (o.drop env)) with
  | some quarantine => removeQuarantined env quarantine
  | none => pure ()
  return o.destination

def decryptFileToPathGuarded (env : Env) (sourcePath : Path) (password : Bytes)
    (outputDir : Option Path) (force : Bool) : GuardHandleM Path := body 0 do
  let (decryptor, reader) ← lift (openEncrypted env sourcePath password)
  let outputPath ← lift (decryptedPath env sourcePath outputDir decryptor.filename)
  reserve env sourcePath outputPath
  let output ← lift (newOutput env outputPath force)
  lift (Eff.onError (writeDecrypted env decryptor reader output.file) (free (output.drop env)))
  lift (commit env output)

def decryptPlans (env : Env) (password : Bytes) (force : Bool) :
    List DecryptionPlan → GuardHandleM (List (Except IronlockError Path))
  | [] => return []
  | plan :: plans => do
    let result ← Eff.attempt
      (decryptFileToPathGuarded env plan.source password (some plan.targetDir) force)
    let results ← decryptPlans env password force plans
    return result :: results

end Handles

end Ironlock
