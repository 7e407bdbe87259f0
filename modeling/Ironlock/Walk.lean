import Ironlock.FileSystem

/-! How a path leads through the file system: `..` from where it stands, and
symbolic links followed wherever more is to come. -/

namespace Ironlock
open ByteOrder (Bytes)

/-- One hop of a walk: a component, or the demand of a trailing separator that
a directory has been reached. -/
abbrev Hop := Option Part

/-- The hop to a name in the directory reached. -/
abbrev Name.hop (n : Name) : Hop := some (.name n)

def Path.hops (p : Path) : List Hop := p.parts.map some ++ if p.dirOnly then [none] else []

def Path.hasNul (p : Path) : Bool := p.parts.any fun
  | .up => false
  | .name n => n.bytes.contains 0

/-- The system follows no more symbolic links than this in one walk. -/
def maxLinks : Nat := 40

namespace Fs

/-- A walk up to its next symbolic link, where `next` takes over. It may end
at a name that is not there, in a directory that is. -/
def walkWith (fs : Fs) (follow : Bool)
    (next : List Hop → List Name → Except ErrorKind (List Name)) :
    List Hop → List Name → Except ErrorKind (List Name)
  | [], at_ => .ok at_
  | none :: rest, at_ => walkWith fs follow next rest at_
  | some .up :: rest, at_ => walkWith fs follow next rest at_.dropLast
  | some (.name n) :: rest, at_ =>
    match fs.node (at_ ++ [n]) with
    | none => if rest = [] then .ok (at_ ++ [n]) else .error .notFound
    | some .dir => walkWith fs follow next rest (at_ ++ [n])
    | some (.symlink target) =>
      if rest = [] ∧ follow = false then .ok (at_ ++ [n])
      else next (target.hops ++ rest) (if target.isAbsolute then [] else at_)
    | some _ => if rest = [] then .ok (at_ ++ [n]) else .error .notADirectory

/-- A walk that follows at most so many links. -/
def walk (fs : Fs) (follow : Bool) : Nat → List Hop → List Name → Except ErrorKind (List Name)
  | 0 => fs.walkWith follow fun _ _ => .error .filesystemLoop
  | links + 1 => fs.walkWith follow (walk fs follow links)

/-- Where a path begins. -/
def start (fs : Fs) (p : Path) : List Name := if p.isAbsolute then [] else fs.cwd

/-- The names from the root of the entry a path stands for. With `follow` a
symbolic link at its end is followed too. -/
def resolve (fs : Fs) (follow : Bool) (p : Path) : Except IoError (List Name) :=
  if p.hasNul then .error ⟨.invalidInput, "file name contained an unexpected NUL byte"⟩
  else if p = .empty then .error (.os .notFound)
  else match fs.walk follow maxLinks p.hops (fs.start p) with
    | .ok names => .ok names
    | .error kind => .error (.os kind)

/-! ## System calls -/

abbrev SysCall (α : Type) := Fs → Except IoError α × Fs

/-- A call that looks at what a path stands for and changes nothing. -/
def look {α : Type} (follow : Bool) (p : Path) (f : Fs → List Name → Node → Except IoError α) :
    SysCall α := fun fs =>
  match fs.resolve follow p with
  | .error e => (.error e, fs)
  | .ok names => match fs.node names with
    | none => (.error (.os .notFound), fs)
    | some node => (f fs names node, fs)

structure Metadata where
  node : Node
  len : Nat

namespace Metadata

def isDir (m : Metadata) : Bool := m.node = .dir

def isFile (m : Metadata) : Bool := match m.node with
  | .file _ => true
  | _ => false

def isSymlink (m : Metadata) : Bool := match m.node with
  | .symlink _ => true
  | _ => false

end Metadata

def size (fs : Fs) : Node → Nat
  | .file i => (fs.content i).length
  | _ => 0

/-- `fs::symlink_metadata`. -/
def symlinkMetadata (p : Path) : SysCall Metadata :=
  look false p fun fs _ node => .ok ⟨node, fs.size node⟩

/-- `fs::metadata`, which `Path::exists` asks for. -/
def metadata (p : Path) : SysCall Metadata := look true p fun fs _ node => .ok ⟨node, fs.size node⟩

/-- `fs::canonicalize`. -/
def canonicalize (p : Path) : SysCall Path := look true p fun _ names _ => .ok (.absolute names)

/-- What makes two open files the same file. -/
inductive Identity
  | file (inode : Nat)
  | dir (place : Loc)
  | special (place : Loc)
  deriving DecidableEq

def identity (fs : Fs) (names : List Name) : Node → Except IoError Identity
  | .file i => .ok (.file i)
  | .dir => .ok (.dir (fs.loc names))
  | .special => .ok (.special (fs.loc names))
  | .symlink _ => .error (.os .filesystemLoop)

/-- Opening a path to read it. -/
def openRead (p : Path) : SysCall Identity := look true p identity

/-- Opening with `O_NOFOLLOW`. -/
def openNofollow (p : Path) : SysCall Identity := look false p identity

/-- Opening to write, with `O_NOFOLLOW`. -/
def openWriteNofollow (p : Path) : SysCall Identity := look false p fun fs names node =>
  match node with
  | .dir => .error (.os .isADirectory)
  | node => identity fs names node

/-- `fs::read_dir`: the paths of the entries. -/
def readDir (p : Path) : SysCall (List Path) := look true p fun fs names node =>
  match node with
  | .dir => .ok ((fs.children (fs.loc names)).map fun n => p.push (.name n))
  | _ => .error (.os .notADirectory)

/-- A call that makes a new entry at a name that is not there yet. -/
def make {α : Type} (p : Path) (f : Fs → Loc → Name → α × Fs) : SysCall α := fun fs =>
  match fs.resolve false p with
  | .error e => (.error e, fs)
  | .ok names => match fs.node names, names.getLast? with
    | none, some n => match f fs (fs.loc names.dropLast) n with
      | (a, fs') => (.ok a, fs')
    | _, _ => (.error (.os .alreadyExists), fs)

/-- Opening with `create_new`: the new file's inode. -/
def createNew (p : Path) : SysCall Nat := make p fun fs d n => (fs.nextInode, fs.create d n)

def createDir (p : Path) : SysCall Unit := make p fun fs d n => ((), fs.mkdir d n)

/-- `renameat2` with `RENAME_NOREPLACE`. The program renames only what it has
seen to be a regular file; renaming a directory is not modelled. -/
def renameNoreplace (src dst : Path) : SysCall Unit := fun fs =>
  match fs.resolve false src, fs.resolve false dst with
  | .error e, _ => (.error e, fs)
  | _, .error e => (.error e, fs)
  | .ok s, .ok d => match fs.node s with
    | none => (.error (.os .notFound), fs)
    | some .dir => (.error (.os .other), fs)
    | some _ => match fs.node d, d.getLast? with
      | none, some n => (.ok (), fs.move (fs.loc s) (fs.loc d.dropLast) n)
      | _, _ => (.error (.os .alreadyExists), fs)

/-- `fs::remove_file`. -/
def removeFile (p : Path) : SysCall Unit := fun fs =>
  match fs.resolve false p with
  | .error e => (.error e, fs)
  | .ok names => match fs.node names with
    | none => (.error (.os .notFound), fs)
    | some .dir => (.error (.os .isADirectory), fs)
    | some _ => (.ok (), fs.erase (fs.loc names))

/-- Write at the end of an open file. -/
def append (i : Nat) (bytes : Bytes) (fs : Fs) : Fs := fs.setContent i (fs.content i ++ bytes)

/-- Write over the bytes of an open file from an offset on. -/
def overwrite (i offset : Nat) (bytes : Bytes) (fs : Fs) : Fs :=
  fs.setContent i ((fs.content i).take offset ++ bytes ++ (fs.content i).drop (offset + bytes.length))

end Fs

end Ironlock
