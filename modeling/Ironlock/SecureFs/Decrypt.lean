import Ironlock.SecureFs.Encrypt

/-! Planning and running the decryption of a batch (`secure_fs.rs`, `main.rs`). -/

namespace Ironlock
open ByteOrder (Bytes)
open Effect
open Fs (Identity Metadata)

/-- The last component of a recovered name. -/
def sanitizedFilename (name : Str) : Except IronlockError Str :=
  match toStr ((Path.parse name.bytes).fileName.map Name.bytes) with
  | none => .error (.unsafePath
      [.text "invalid or empty filename in authenticated encrypted metadata"])
  | some name =>
    if name.bytes ≠ [] ∧ name.bytes ≠ [dot] ∧ name.bytes ≠ [dot, dot] then .ok name
    else .error (.unsafePath
      [.text "invalid or empty filename in authenticated encrypted metadata"])

/-- The tries of `unique_decrypted_path` that are left. -/
def uniqueDecryptedPathIn (env : Env) (p parent : Path) (stem : Bytes) (extension : Option Str) :
    Nat → FsM Path
  | 0 => Eff.fail (.outputCollision
    [.text "could not generate a safe decrypted path for '", .path p, .text "'"])
  | tries + 1 => do
    let suffix ← Sys.nextU64 env
    let filename := stem ++ ascii "-decrypted-" ++ hex16 suffix ++ match extension with
      | some extension => [dot] ++ extension.bytes
      | none => []
    let candidate := parent.joinRaw filename
    if ← Sys.exists_ env candidate then uniqueDecryptedPathIn env p parent stem extension tries
    else return candidate

def uniqueDecryptedPath (env : Env) (p : Path) : FsM Path :=
  let stem := match toStr p.fileStem with
    | some stem => stem.bytes
    | none => ascii "decrypted"
  uniqueDecryptedPathIn env p p.parentOrEmpty stem (toStr p.extension) 128

structure DecryptionPlan where
  source : Path
  targetDir : Path
  deriving DecidableEq

/-- What a batch must not write to: its sources, and the outputs it has
reserved. -/
structure DecryptionBatchGuard where
  sourceKeys : List Bytes
  sourceHandles : List Identity
  reservedOutputs : List Bytes
  deriving DecidableEq

/-- Programs that hold a guard. What they did to it before they failed stays. -/
abbrev GuardM := Eff (World × DecryptionBatchGuard) IronlockError

/-- A program that leaves the guard alone. -/
def GuardM.lift {α : Type} (m : FsM α) : GuardM α := fun s =>
  match m s.1 with
  | (r, w) => (r, (w, s.2))

def GuardM.guard : GuardM DecryptionBatchGuard := Eff.modifyGet fun s => (s.2, s)

namespace DecryptionBatchGuard

def new (env : Env) (plans : List DecryptionPlan) : FsM DecryptionBatchGuard := do
  let (sourceKeys, sourceHandles) ← registerSources env (plans.map DecryptionPlan.source) [] []
  return ⟨sourceKeys, sourceHandles, []⟩

/-- `reserved_outputs.insert`: whether the key is new. -/
def insertReserved (key : Bytes) : GuardM Bool := Eff.modifyGet fun (w, g) =>
  if key ∈ g.reservedOutputs then (false, (w, g))
  else (true, (w, { g with reservedOutputs := key :: g.reservedOutputs }))

def reserve (env : Env) (source output : Path) : GuardM Unit := do
  let sourceKey ← GuardM.lift (normalizedPathKey env source)
  let self ← GuardM.guard
  if sourceKey ∉ self.sourceKeys then
    Eff.fail (.unsafePath [.text "decryption source '", .path source,
      .text "' is not part of this batch"])
  else
    let outputKey ← GuardM.lift (normalizedPathKey env output)
    if outputKey ∈ self.sourceKeys then
      Eff.fail (.outputCollision [.text "decrypted output '", .path output,
        .text "' would replace a pending batch input"])
    else
      match ← GuardM.lift (Sys.symlinkMetadata env output) with
      | .ok m =>
        GuardM.lift (rejectLinkOrReparse output m)
        if m.isFile then
          let handle ← GuardM.lift (Sys.handleFromPath env output)
          if handle ∈ self.sourceHandles then
            Eff.fail (.outputCollision [.text "decrypted output '", .path output,
              .text "' aliases a pending batch input"])
          else pure ()
        else pure ()
      | .error e => if e.kind = .notFound then pure () else Eff.fail (.ioError e)
      if ← insertReserved outputKey then return ()
      else Eff.fail (.outputCollision
        [.text "multiple encrypted inputs contain the output filename '", .path output, .text "'"])

end DecryptionBatchGuard

def outputDirectory (outputDir : Option Path) : Path := outputDir.getD .here

/-- The decryption of what is left of an open source into an open output. -/
def writeDecrypted (env : Env) (decryptor : StreamDecryptor) (reader : Reader) (output : Nat) :
    FsM Unit := do
  let _ ← Sys.stream env reader output (decryptor.decryptTo env.crates)
  Sys.flush env (.file output)

/-- The source's decryptor, with the reader it goes on from. -/
def openEncrypted (env : Env) (sourcePath : Path) (password : Bytes) :
    FsM (StreamDecryptor × Reader) :=
  if sourcePath.encrypted = false then Eff.fail .invalidExtension
  else do
    let (source, _) ← verifiedSourceFile env sourcePath
    let reader ← Sys.reader env source
    Sys.readStream reader (StreamDecryptor.new env.crates password)

/-- Where a source with this recovered name is decrypted to. -/
def decryptedPath (env : Env) (sourcePath : Path) (outputDir : Option Path) (filename : Str) :
    FsM Path := do
  let safeFilename ← Eff.ofExcept (sanitizedFilename filename)
  let directory := outputDirectory outputDir
  ensureSafeDirectory env directory
  let outputPath := directory.joinRaw safeFilename.bytes
  if ← pathsReferToSameFile env sourcePath outputPath then uniqueDecryptedPath env outputPath
  else return outputPath

/-- The reservation of an output, if there is a guard. -/
def reserveOutput (env : Env) (guarded : Bool) (source output : Path) : GuardM Unit :=
  if guarded then DecryptionBatchGuard.reserve env source output else return ()

/-- `decrypt_file_to_path_inner` with `new` in the place of `AtomicOutput::new`. -/
def decryptFileToPathVia (env : Env) (new : Path → Bool → FsM AtomicOutput) (guarded : Bool)
    (sourcePath : Path) (password : Bytes) (outputDir : Option Path) (force : Bool) : GuardM Path := do
  let (decryptor, reader) ← GuardM.lift (openEncrypted env sourcePath password)
  let outputPath ← GuardM.lift (decryptedPath env sourcePath outputDir decryptor.filename)
  reserveOutput env guarded sourcePath outputPath
  let output ← GuardM.lift (new outputPath force)
  GuardM.lift (Eff.onError (writeDecrypted env decryptor reader output.file) (output.drop env))
  GuardM.lift (output.commit env)

/-- `decrypt_file_to_path_inner`, with a guard or without one. -/
def decryptFileToPathInner (env : Env) : Bool → Path → Bytes → Option Path → Bool → GuardM Path :=
  decryptFileToPathVia env (AtomicOutput.new env)

/-- `decrypt_file_to_path_guarded`, as the program always calls it. -/
def decryptFileToPathGuarded (env : Env) : Path → Bytes → Option Path → Bool → GuardM Path :=
  decryptFileToPathInner env true

/-- One file of `plan_decryption_inputs`, given the sources seen so far. -/
def planSource (env : Env) (source targetDir : Path) (seen : List Bytes) (seenHandles : List Identity) :
    FsM (DecryptionPlan × List Bytes × List Identity) := do
  let key ← normalizedPathKey env source
  let handle ← Sys.handleFromPath env source
  if key ∈ seen ∨ handle ∈ seenHandles then
    Eff.fail (.outputCollision [.text "input '", .path source,
      .text "' was specified more than once"])
  else return (⟨source, targetDir⟩, key :: seen, handle :: seenHandles)

/-- Where the files of an input directory go. -/
def targetDirectory (outputBase : Option Path) (root source : Path) : Except IronlockError Path :=
  match source.stripPrefix root with
  | none => .error (unsafe_ "'" source "' escaped the requested directory")
  | some relative => .ok (match outputBase with
    | some base => base.join relative.parentOrEmpty
    | none => source.parentOrEmpty)

/-- The loop over the files of an input directory. -/
def planDirectory (env : Env) (outputBase : Option Path) (root : Path) :
    List Path → List DecryptionPlan → List Bytes → List Identity →
    FsM (List DecryptionPlan × List Bytes × List Identity)
  | [], plans, seen, seenHandles => return (plans, seen, seenHandles)
  | source :: sources, plans, seen, seenHandles =>
    if source.encrypted = false then planDirectory env outputBase root sources plans seen seenHandles
    else do
      let targetDir ← Eff.ofExcept (targetDirectory outputBase root source)
      let (plan, seen, seenHandles) ← planSource env source targetDir seen seenHandles
      planDirectory env outputBase root sources (plans ++ [plan]) seen seenHandles

/-- One input of `plan_decryption_inputs`. -/
def planInput (env : Env) (outputBase : Option Path) (input : Path) (plans : List DecryptionPlan)
    (seen : List Bytes) (seenHandles : List Identity) :
    FsM (List DecryptionPlan × List Bytes × List Identity) := do
  match ← Sys.symlinkMetadata env input with
  | .error e => Eff.fail (fileNotFoundOr input e)
  | .ok m =>
    rejectLinkOrReparse input m
    if m.isDir then
      match ← Sys.canonicalize env input with
      | .error e => Eff.fail (.ioError e)
      | .ok root =>
        let sources ← collectFilesRecursive env input
        planDirectory env outputBase root sources plans seen seenHandles
    else if m.isFile then
      if input.encrypted = false then Eff.fail .invalidExtension
      else
        let (plan, seen, seenHandles) ←
          planSource env input (outputBase.getD .here) seen seenHandles
        return (plans ++ [plan], seen, seenHandles)
    else Eff.fail (unsafe_ "'" input "' is not a regular file or directory")

def planInputs (env : Env) (outputBase : Option Path) :
    List Path → List DecryptionPlan → List Bytes → List Identity → FsM (List DecryptionPlan)
  | [], plans, _, _ => return plans
  | input :: inputs, plans, seen, seenHandles => do
    let (plans, seen, seenHandles) ← planInput env outputBase input plans seen seenHandles
    planInputs env outputBase inputs plans seen seenHandles

def planDecryptionInputs (env : Env) (inputs : List Path) (outputBase : Option Path) :
    FsM (List DecryptionPlan) := do
  let plans ← planInputs env outputBase inputs [] [] []
  return plans.mergeSort fun left right => left.source.le right.source

/-- The loop of `run` over the plans, with the result of each. -/
def decryptPlans (env : Env) (password : Bytes) (force : Bool) :
    List DecryptionPlan → GuardM (List (Except IronlockError Path))
  | [] => return []
  | plan :: plans => do
    let result ← Eff.attempt
      (decryptFileToPathGuarded env plan.source password (some plan.targetDir) force)
    let results ← decryptPlans env password force plans
    return result :: results

end Ironlock
