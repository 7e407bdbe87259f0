import Ironlock.System

/-! Checks on paths, path keys and identities (`secure_fs.rs`). -/

namespace Ironlock
open ByteOrder (Bytes)
open Effect
open Fs (Identity Metadata)

/-- The bytes of an ASCII text. -/
def ascii (s : String) : Bytes := s.toList.map fun c => UInt8.ofNat c.toNat

def ironlockExtension : Bytes := ascii "il"

def unsafe_ (before : String) (p : Path) (after : String) : IronlockError :=
  .unsafePath [.text before, .path p, .text after]

def promptConfirmation (env : Env) : FsM Bool := fun w =>
  (match env.confirm w.calls with
    | .ok answer => .ok answer
    | .error e => .error (.ioError e), w)

def rejectLinkOrReparse (p : Path) (m : Metadata) : FsM Unit :=
  if m.isSymlink then
    Eff.fail (unsafe_ "symbolic links and reparse points are not followed: '" p "'")
  else return ()

def checkOverwrite (env : Env) (p : Path) (force : Bool) : FsM Unit := do
  match ← Sys.symlinkMetadata env p with
  | .ok m =>
    rejectLinkOrReparse p m
    if m.isFile = false then Eff.fail (unsafe_ "'" p "' is not a regular file")
    else if force then return ()
    else if ← promptConfirmation env then return ()
    else Eff.fail .cancelled
  | .error e => if e.kind = .notFound then return () else Eff.fail (.ioError e)

def fileNotFoundOr (p : Path) (e : IoError) : IronlockError :=
  if e.kind = .notFound then .fileNotFound [.path p] else .ioError e

def validateRegularSource (env : Env) (p : Path) : FsM Metadata := do
  match ← Sys.symlinkMetadata env p with
  | .error e => Eff.fail (fileNotFoundOr p e)
  | .ok m =>
    rejectLinkOrReparse p m
    if m.isFile = false then Eff.fail (unsafe_ "'" p "' is not a regular file") else return m

/-- The components of `std::path::absolute` after the root. -/
def absolute (cwd : List Name) (p : Path) : Except IoError (List Part) :=
  if p = .empty then .error ⟨.invalidInput, "cannot make an empty path absolute"⟩
  else if p.isAbsolute then .ok p.parts
  else .ok (cwd.map .name ++ p.parts)

/-- `std::path::absolute` in the process's working directory. -/
def stdAbsolute (p : Path) : FsM (List Part) := fun w =>
  (match absolute w.fs.cwd p with
    | .ok a => .ok a
    | .error e => .error (.ioError e), w)

def requireDirectory (p : Path) (m : Metadata) : FsM Unit := do
  rejectLinkOrReparse p m
  if m.isDir = false then Eff.fail (unsafe_ "'" p "' is not a directory") else return ()

/-- One component of `ensure_safe_directory`. -/
def ensureDirectory (env : Env) (current : Path) : FsM Unit := do
  match ← Sys.symlinkMetadata env current with
  | .ok m => requireDirectory current m
  | .error e =>
    if e.kind = .notFound then
      match ← Sys.try_ env (.createDir current) (Fs.createDir current) with
      | .ok () => pure ()
      | .error createError =>
        if createError.kind = .alreadyExists then pure () else Eff.fail (.ioError createError)
      match ← Sys.symlinkMetadata env current with
      | .ok m => requireDirectory current m
      | .error e => Eff.fail (.ioError e)
    else Eff.fail (.ioError e)

/-- The loop of `ensure_safe_directory` over the components after `current`. -/
def ensureComponents (env : Env) (current : Path) : List Part → FsM Unit
  | [] => return ()
  | part :: rest => do
    ensureDirectory env (current.push part)
    ensureComponents env (current.push part) rest

def ensureSafeDirectory (env : Env) (p : Path) : FsM Unit := do
  let a ← stdAbsolute p
  ensureDirectory env .root
  ensureComponents env .root a

def pathMatchesOpenFile (env : Env) (p : Path) (file : Identity) : FsM Bool := do
  let pathHandle ← Sys.handleFromPath env p
  Sys.duplicate env file
  let fileHandle ← Sys.handleFromFile env file
  return pathHandle = fileHandle

/-- The lexical removal of `..`. -/
def lexicalNames (parts : List Part) : List Name := lexicalFrom [] parts

def couldNotResolve (p : Path) : IronlockError := unsafe_ "could not resolve path '" p "'"

/-- The loop that looks for the closest ancestor that can be resolved; the
names are given last first. -/
def closestAncestor (env : Env) (p : Path) : List Name → List Name → FsM Path
  | [], missing => do
    match ← Sys.canonicalize env .root with
    | .ok existing => return missing.foldl (fun q n => q.push (.name n)) existing
    | .error e => if e.kind = .notFound then Eff.fail (couldNotResolve p) else Eff.fail (.ioError e)
  | n :: rev, missing => do
    match ← Sys.canonicalize env (.absolute (n :: rev).reverse) with
    | .ok existing => return missing.foldl (fun q n => q.push (.name n)) existing
    | .error e =>
      if e.kind = .notFound then closestAncestor env p rev (n :: missing)
      else Eff.fail (.ioError e)

/-- A path as the bytes of its text. -/
def Path.render (p : Path) : Bytes :=
  let text (part : Part) : Bytes := match part with
    | .up => [dot, dot]
    | .name n => n.bytes
  let body := List.intercalate [slash] (p.parts.map text)
  match p.anchor with
  | .root => slash :: body
  | .here => if p.parts = [] then [dot] else dot :: slash :: body
  | .bare => body

/-- `to_string_lossy`, in lower case on the platforms whose names ignore case. -/
def keyText (env : Env) (p : Path) : Bytes :=
  let key := Utf8.lossy p.render
  if env.target = .linux then key else env.toLowercase key

def normalizedPathKey (env : Env) (p : Path) : FsM Bytes := do
  let a ← stdAbsolute p
  let resolved ← closestAncestor env p (lexicalNames a).reverse []
  return keyText env resolved

def pathsReferToSameFile (env : Env) (source output : Path) : FsM Bool := do
  let sourceKey ← normalizedPathKey env source
  let outputKey ← normalizedPathKey env output
  if sourceKey = outputKey then return true
  else
    match ← Sys.symlinkMetadata env output with
    | .ok m =>
      rejectLinkOrReparse output m
      let sourceHandle ← Sys.handleFromPath env source
      let outputHandle ← Sys.handleFromPath env output
      return sourceHandle = outputHandle
    | .error e => if e.kind = .notFound then return false else Eff.fail (.ioError e)

def sourceChanged (p : Path) : IronlockError := unsafe_ "source changed while opening '" p "'"

/-- The inode of an open regular source and its metadata. -/
def verifiedSourceFile (env : Env) (p : Path) : FsM (Nat × Metadata) := do
  let _ ← validateRegularSource env p
  let file ← Sys.run env (.openNofollow p) (Fs.openNofollow p)
  let m ← Sys.stat env file
  rejectLinkOrReparse p m
  match file with
  | .file i =>
    if ← pathMatchesOpenFile env p file then return (i, m) else Eff.fail (sourceChanged p)
  | _ => Eff.fail (sourceChanged p)

end Ironlock
