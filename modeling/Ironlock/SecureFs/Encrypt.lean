import Ironlock.SecureFs.Shred
import Ironlock.StreamCrypto

/-! Planning and running the encryption of a batch (`secure_fs.rs`, `main.rs`). -/

namespace Ironlock
open ByteOrder (Bytes)
open Effect
open Fs (Identity Metadata)

structure EncryptionPlan where
  source : Path
  output : Path
  deriving DecidableEq

def toStr (b : Option Bytes) : Option Str := b.bind Str.ofBytes?

def defaultEncryptedPath (source : Path) : Except IronlockError Path :=
  match toStr source.fileStem with
  | none => .error (.ioError ⟨.invalidInput, "invalid UTF-8 filename"⟩)
  | some stem => .ok (source.parentOrEmpty.joinRaw (stem.bytes ++ [dot] ++ ironlockExtension))

/-- The tries of `unique_encrypted_path` that are left. -/
def uniqueEncryptedPathIn (env : Env) (source : Path) (stem : Str) (unavailable : List Bytes) :
    Nat → FsM Path
  | 0 => Eff.fail (.outputCollision
    [.text "could not generate a unique output for '", .path source, .text "'"])
  | tries + 1 => do
    let suffix ← Sys.nextU64 env
    let candidate := source.parentOrEmpty.joinRaw
      (stem.bytes ++ ascii "-" ++ hex16 suffix ++ [dot] ++ ironlockExtension)
    let key ← normalizedPathKey env candidate
    if key ∈ unavailable then uniqueEncryptedPathIn env source stem unavailable tries
    else if ← Sys.exists_ env candidate then
      uniqueEncryptedPathIn env source stem unavailable tries
    else return candidate

def uniqueEncryptedPath (env : Env) (source : Path) (unavailable : List Bytes) : FsM Path :=
  match toStr source.fileStem with
  | none => Eff.fail (.unsafePath [.text "invalid UTF-8 filename"])
  | some stem => uniqueEncryptedPathIn env source stem unavailable 128

/-- One entry of a directory listing: files are collected, directories wait to
be listed. -/
def visitEntry (env : Env) (root p : Path) (stack files : List Path) :
    FsM (List Path × List Path) := do
  match ← Sys.symlinkMetadata env p with
  | .error e => Eff.fail (.ioError e)
  | .ok m =>
    rejectLinkOrReparse p m
    if m.isDir then
      match ← Sys.canonicalize env p with
      | .error e => Eff.fail (.ioError e)
      | .ok canonical =>
        if canonical.startsWith root = false then
          Eff.fail (unsafe_ "directory escaped traversal root: '" p "'")
        else return (canonical :: stack, files)
    else if m.isFile then return (stack, files ++ [p])
    else Eff.fail (unsafe_ "unsupported filesystem entry: '" p "'")

def visitEntries (env : Env) (root : Path) :
    List Path → List Path → List Path → FsM (List Path × List Path)
  | [], stack, files => return (stack, files)
  | p :: ps, stack, files => do
    let (stack, files) ← visitEntry env root p stack files
    visitEntries env root ps stack files

/-- The loop over the stack of directories, for at most so many of them. -/
def collectDirectories (env : Env) (root : Path) :
    Nat → List Path → List Path → FsM (List Path)
  | _, [], files => return files
  | 0, _ :: _, _ => Eff.fail (.ioError (.os .other))
  | count + 1, current :: stack, files => do
    let entries ← Sys.run env (.readDir current) (Fs.readDir current)
    let (stack, files) ← visitEntries env root entries stack files
    collectDirectories env root count stack files

/-- Every directory is an entry and is listed once, so the loop is given one
turn for each entry and one for the root. -/
def collectFilesRecursive (env : Env) (dir : Path) : FsM (List Path) := do
  match ← Sys.symlinkMetadata env dir with
  | .error e => Eff.fail (fileNotFoundOr dir e)
  | .ok m =>
    rejectLinkOrReparse dir m
    if m.isDir = false then Eff.fail (.notADirectory [.path dir])
    else
      match ← Sys.canonicalize env dir with
      | .error e => Eff.fail (.ioError e)
      | .ok root =>
        let w ← Eff.get
        let files ← collectDirectories env root (w.fs.entries.entries.length + 1) [root] []
        return files.mergeSort Path.le

/-- The extension of an encrypted file. -/
def Path.encrypted (p : Path) : Bool := (toStr p.extension).map Str.bytes = some ironlockExtension

/-- One input of `collect_inputs`. -/
def collectInput (env : Env) (decrypting : Bool) (input : Path) : FsM (List Path) := do
  match ← Sys.symlinkMetadata env input with
  | .error e => Eff.fail (fileNotFoundOr input e)
  | .ok m =>
    rejectLinkOrReparse input m
    if m.isDir then
      let files ← collectFilesRecursive env input
      return files.filter fun p => if decrypting then p.encrypted else !p.encrypted
    else if m.isFile then return [input]
    else Eff.fail (unsafe_ "'" input "' is not a regular file or directory")

def collectInputsFrom (env : Env) (decrypting : Bool) : List Path → List Path → FsM (List Path)
  | [], files => return files
  | input :: inputs, files => do
    let more ← collectInput env decrypting input
    collectInputsFrom env decrypting inputs (files ++ more)

def collectInputs (env : Env) (inputs : List Path) (decrypting : Bool) : FsM (List Path) := do
  let files ← collectInputsFrom env decrypting inputs []
  return files.mergeSort Path.le

/-- The loop that registers every source by its key and its handle. -/
def registerSources (env : Env) :
    List Path → List Bytes → List Identity → FsM (List Bytes × List Identity)
  | [], keys, handles => return (keys, handles)
  | source :: sources, keys, handles => do
    let key ← normalizedPathKey env source
    let handle ← Sys.handleFromPath env source
    if key ∈ keys ∨ handle ∈ handles then
      Eff.fail (.outputCollision [.text "input '", .path source,
        .text "' was specified more than once"])
    else registerSources env sources (key :: keys) (handle :: handles)

def defaultEncryptedPaths : List Path → Except IronlockError (List Path)
  | [] => .ok []
  | source :: sources => do
    let output ← defaultEncryptedPath source
    let outputs ← defaultEncryptedPaths sources
    return output :: outputs

def pathKeys (env : Env) : List Path → FsM (List Bytes)
  | [] => return []
  | p :: ps => do
    let key ← normalizedPathKey env p
    let keys ← pathKeys env ps
    return key :: keys

/-- Whether a source's default output cannot be its output. -/
def collides (env : Env) (defaultKeys unavailable : List Bytes) (source defaultOutput : Path) :
    FsM Bool := do
  let defaultKey ← normalizedPathKey env defaultOutput
  if 1 < defaultKeys.count defaultKey ∨ defaultKey ∈ unavailable then return true
  else pathsReferToSameFile env source defaultOutput

/-- The output of one source, and its key. -/
def planOutput (env : Env) (defaultKeys unavailable : List Bytes) (source defaultOutput : Path) :
    FsM (Path × Bytes) := do
  let collides ← collides env defaultKeys unavailable source defaultOutput
  let output ← if collides then uniqueEncryptedPath env source unavailable else pure defaultOutput
  let outputKey ← normalizedPathKey env output
  if outputKey ∈ unavailable then
    Eff.fail (.outputCollision [.text "multiple inputs map to '", .path output, .text "'"])
  else return (output, outputKey)

/-- The loop over the sources and their default outputs. -/
def planOutputs (env : Env) (defaultKeys : List Bytes) :
    List (Path × Path) → List Bytes → FsM (List EncryptionPlan)
  | [], _ => return []
  | (source, defaultOutput) :: rest, unavailable => do
    let (output, outputKey) ← planOutput env defaultKeys unavailable source defaultOutput
    let plans ← planOutputs env defaultKeys rest (outputKey :: unavailable)
    return ⟨source, output⟩ :: plans

def planEncryptionInputs (env : Env) (inputs : List Path) : FsM (List EncryptionPlan) := do
  let sources ← collectInputs env inputs false
  let (sourceKeys, _) ← registerSources env sources [] []
  let defaults ← Eff.ofExcept (defaultEncryptedPaths sources)
  let defaultKeys ← pathKeys env defaults
  planOutputs env defaultKeys (sources.zip defaults) sourceKeys

/-- The source's identity, taken when it is to be shredded. -/
def shredHandle (env : Env) (source : Nat) (shred : Bool) : FsM (Option Identity) := do
  if shred then
    Sys.duplicate env (.file source)
    let handle ← Sys.handleFromFile env (.file source)
    return some handle
  else return none

def originalFilename (source : Path) : Except IronlockError Str :=
  match toStr (source.fileName.map Name.bytes) with
  | none => .error (.unsafePath [.text "invalid UTF-8 filename"])
  | some name => .ok name

/-- The encryption of an open source into an open output. -/
def writeEncrypted (env : Env) (password : Bytes) (filename : Str) (source output : Nat) :
    FsM Unit := do
  let reader ← Sys.reader env source
  let salt ← Sys.draw env.salt
  let baseNonce ← Sys.draw env.baseNonce
  let _ ← Sys.stream env reader output (encryptStream env.crates salt baseNonce password filename)
  Sys.flush env (.file output)

def encryptFileToPath (env : Env) (sourcePath outputPath : Path) (password : Bytes)
    (force shred : Bool) : FsM Path := do
  if ← pathsReferToSameFile env sourcePath outputPath then
    Eff.fail (.outputCollision [.text "source and output are the same file: '", .path sourcePath,
      .text "'"])
  else
    let (source, _) ← verifiedSourceFile env sourcePath
    let sourceHandle ← shredHandle env source shred
    let filename ← Eff.ofExcept (originalFilename sourcePath)
    let output ← AtomicOutput.new env outputPath force
    Eff.onError (writeEncrypted env password filename source output.file) (output.drop env)
    let committed ← output.commit env
    if shred then secureDeleteInner env sourcePath sourceHandle else pure ()
    return committed

/-- The loop of `run` over the plans, with the result of each. -/
def encryptPlans (env : Env) (password : Bytes) (force shred : Bool) :
    List EncryptionPlan → FsM (List (Except IronlockError Path))
  | [] => return []
  | plan :: plans => do
    let result ← Eff.attempt (encryptFileToPath env plan.source plan.output password force shred)
    let results ← encryptPlans env password force shred plans
    return result :: results

end Ironlock
