import Ironlock.Error
import Mathlib.Data.List.AList

/-! The file system the program runs on: a tree of named entries, the contents
of files by inode, and how paths lead through directories and symbolic links. -/

namespace Ironlock
open ByteOrder (Bytes)

/-- What an entry stands for. Regular files are known by inode, so that one
file can have several names. -/
inductive Node
  | dir
  | file (inode : Nat)
  | symlink (target : Path)
  | special
  deriving DecidableEq

/-- A directory entry, under the name it was created with. -/
structure Entry where
  name : Name
  node : Node
  deriving DecidableEq

/-- The place of an entry: the names from the root as their directories look
them up. -/
abbrev Loc := List Name

/-- A state of the file system. `fold` is how each directory looks names up:
names it takes to one name are one entry there. -/
structure Fs where
  entries : AList fun _ : Loc => Entry
  content : Nat → Bytes
  nextInode : Nat
  fold : Loc → Name → Name
  cwd : List Name
  inode_lt : ∀ l e i, entries.lookup l = some e → e.node = .file i → i < nextInode
  named : ∀ l e, entries.lookup l = some e → ∃ d, l = d ++ [fold d e.name]

namespace Fs
variable {fs : Fs}

/-- Nothing but the root, where every directory looks names up exactly. -/
def blank (cwd : List Name) : Fs := ⟨∅, fun _ => [], 0, fun _ n => n, cwd, by simp, by simp⟩

/-! ## Entries -/

/-- What is at a place; the root is a directory. -/
def nodeAt (fs : Fs) (l : Loc) : Option Node :=
  if l = [] then some .dir else (fs.entries.lookup l).map Entry.node

/-- The place a chain of names from the root leads to. -/
def loc (fs : Fs) (names : List Name) : Loc := names.foldl (fun d n => d ++ [fs.fold d n]) []

def node (fs : Fs) (names : List Name) : Option Node := fs.nodeAt (fs.loc names)

@[simp] theorem loc_nil : fs.loc [] = [] := rfl

theorem loc_concat (names : List Name) (n : Name) :
    fs.loc (names ++ [n]) = fs.loc names ++ [fs.fold (fs.loc names) n] := by
  simp [loc]

@[simp] theorem nodeAt_nil : fs.nodeAt [] = some .dir := rfl

@[simp] theorem node_nil : fs.node [] = some .dir := rfl

theorem nodeAt_concat (d : Loc) (n : Name) :
    fs.nodeAt (d ++ [n]) = (fs.entries.lookup (d ++ [n])).map Entry.node := by simp [nodeAt]

/-- Put an entry into a directory. -/
def put (fs : Fs) (d : Loc) (n : Name) (node : Node)
    (h : ∀ i, node = .file i → i < fs.nextInode) : Fs :=
  { fs with
    entries := fs.entries.insert (d ++ [fs.fold d n]) ⟨n, node⟩
    inode_lt := by
      intro l e i hl hi
      by_cases heq : l = d ++ [fs.fold d n]
      · subst heq
        rw [AList.lookup_insert] at hl; cases hl
        exact h i hi
      · rw [AList.lookup_insert_ne heq] at hl
        exact fs.inode_lt l e i hl hi
    named := by
      intro l e hl
      by_cases heq : l = d ++ [fs.fold d n]
      · subst heq
        rw [AList.lookup_insert] at hl; cases hl
        exact ⟨d, rfl⟩
      · rw [AList.lookup_insert_ne heq] at hl
        exact fs.named l e hl }

def erase (fs : Fs) (l : Loc) : Fs :=
  { fs with
    entries := fs.entries.erase l
    inode_lt := by
      intro k e i hk hi
      by_cases heq : k = l
      · subst heq; rw [AList.lookup_erase] at hk; cases hk
      · rw [AList.lookup_erase_ne heq] at hk
        exact fs.inode_lt k e i hk hi
    named := by
      intro k e hk
      by_cases heq : k = l
      · subst heq; rw [AList.lookup_erase] at hk; cases hk
      · rw [AList.lookup_erase_ne heq] at hk
        exact fs.named k e hk }

/-- Replace the bytes of an inode. -/
def setContent (fs : Fs) (i : Nat) (bytes : Bytes) : Fs :=
  { fs with content := fun j => if j = i then bytes else fs.content j }

/-- Take the next inode, empty. -/
def allocateInode (fs : Fs) : Fs :=
  { fs with
    nextInode := fs.nextInode + 1
    content := fun j => if j = fs.nextInode then [] else fs.content j
    inode_lt := fun l e i hl hi => Nat.lt_succ_of_lt (fs.inode_lt l e i hl hi) }

def create (fs : Fs) (d : Loc) (n : Name) : Fs :=
  fs.allocateInode.put d n (.file fs.nextInode) fun i h => by
    cases h; exact Nat.lt_succ_self _

def mkdir (fs : Fs) (d : Loc) (n : Name) : Fs := fs.put d n .dir nofun

/-- Move an entry to another name. -/
def move (fs : Fs) (src : Loc) (d : Loc) (n : Name) : Fs :=
  match h : fs.entries.lookup src with
  | none => fs
  | some e => (fs.put d n e.node fun i hi => fs.inode_lt src e i h hi).erase src

/-- The names in a directory. -/
def children (fs : Fs) (d : Loc) : List Name :=
  fs.entries.entries.filterMap fun ⟨l, e⟩ => if l ≠ [] ∧ l.dropLast = d then some e.name else none

/-- The number of names a file has. -/
def links (fs : Fs) (i : Nat) : Nat :=
  fs.entries.entries.countP fun ⟨_, e⟩ => e.node = .file i

section
variable {d l src : Loc} {n : Name} {node : Node} {i : Nat} {bytes : Bytes}
  {h : ∀ i, node = .file i → i < fs.nextInode}

@[simp] theorem put_fold : (fs.put d n node h).fold = fs.fold := rfl
@[simp] theorem put_cwd : (fs.put d n node h).cwd = fs.cwd := rfl
@[simp] theorem put_content : (fs.put d n node h).content = fs.content := rfl
@[simp] theorem put_nextInode : (fs.put d n node h).nextInode = fs.nextInode := rfl
@[simp] theorem erase_fold : (fs.erase l).fold = fs.fold := rfl
@[simp] theorem erase_cwd : (fs.erase l).cwd = fs.cwd := rfl
@[simp] theorem erase_content : (fs.erase l).content = fs.content := rfl
@[simp] theorem erase_nextInode : (fs.erase l).nextInode = fs.nextInode := rfl
@[simp] theorem setContent_fold : (fs.setContent i bytes).fold = fs.fold := rfl
@[simp] theorem setContent_cwd : (fs.setContent i bytes).cwd = fs.cwd := rfl
@[simp] theorem setContent_entries : (fs.setContent i bytes).entries = fs.entries := rfl
@[simp] theorem setContent_nextInode : (fs.setContent i bytes).nextInode = fs.nextInode := rfl
@[simp] theorem create_fold : (fs.create d n).fold = fs.fold := rfl
@[simp] theorem create_cwd : (fs.create d n).cwd = fs.cwd := rfl
@[simp] theorem create_nextInode : (fs.create d n).nextInode = fs.nextInode + 1 := rfl
@[simp] theorem mkdir_fold : (fs.mkdir d n).fold = fs.fold := rfl
@[simp] theorem mkdir_cwd : (fs.mkdir d n).cwd = fs.cwd := rfl
@[simp] theorem mkdir_content : (fs.mkdir d n).content = fs.content := rfl
@[simp] theorem mkdir_nextInode : (fs.mkdir d n).nextInode = fs.nextInode := rfl

theorem put_lookup : (fs.put d n node h).entries.lookup l =
    if l = d ++ [fs.fold d n] then some ⟨n, node⟩ else fs.entries.lookup l := by
  split
  · subst l; exact AList.lookup_insert ..
  · exact AList.lookup_insert_ne ‹_›

theorem erase_lookup (k : Loc) : (fs.erase l).entries.lookup k =
    if k = l then none else fs.entries.lookup k := by
  split
  · subst k; exact AList.lookup_erase ..
  · exact AList.lookup_erase_ne ‹_›

theorem create_lookup : (fs.create d n).entries.lookup l =
    if l = d ++ [fs.fold d n] then some ⟨n, .file fs.nextInode⟩ else fs.entries.lookup l :=
  @put_lookup fs.allocateInode ..

theorem mkdir_lookup : (fs.mkdir d n).entries.lookup l =
    if l = d ++ [fs.fold d n] then some ⟨n, .dir⟩ else fs.entries.lookup l := put_lookup

theorem move_eq {e : Entry} (he : fs.entries.lookup src = some e) :
    fs.move src d n = (fs.put d n e.node fun i hi => fs.inode_lt src e i he hi).erase src := by
  unfold move
  split
  · rename_i h; rw [he] at h; cases h
  · rename_i h; rw [he] at h; cases h; rfl

theorem put_nodeAt : (fs.put d n node h).nodeAt =
    Function.update fs.nodeAt (d ++ [fs.fold d n]) (some node) := by
  funext k
  by_cases hk : k = [] <;> by_cases hkn : k = d ++ [fs.fold d n] <;>
    simp_all [nodeAt, put_lookup, Function.update]

theorem erase_nodeAt (hl : l ≠ []) : (fs.erase l).nodeAt = Function.update fs.nodeAt l none := by
  funext k
  by_cases hk : k = [] <;> by_cases hkl : k = l <;>
    simp_all [nodeAt, erase_lookup, Function.update]

theorem create_nodeAt : (fs.create d n).nodeAt =
    Function.update fs.nodeAt (d ++ [fs.fold d n]) (some (.file fs.nextInode)) :=
  @put_nodeAt fs.allocateInode ..

theorem mkdir_nodeAt : (fs.mkdir d n).nodeAt =
    Function.update fs.nodeAt (d ++ [fs.fold d n]) (some .dir) := put_nodeAt

theorem move_nodeAt {x : Node} (hsrc : src ≠ []) (hx : fs.nodeAt src = some x) :
    (fs.move src d n).nodeAt =
      Function.update (Function.update fs.nodeAt (d ++ [fs.fold d n]) (some x)) src none := by
  obtain ⟨e, he, rfl⟩ : ∃ e, fs.entries.lookup src = some e ∧ e.node = x := by
    simpa [nodeAt, hsrc] using hx
  rw [move_eq he, erase_nodeAt hsrc, put_nodeAt]

@[simp] theorem setContent_nodeAt : (fs.setContent i bytes).nodeAt = fs.nodeAt := rfl

theorem nodeAt_lt {i : Nat} (h : fs.nodeAt l = some (.file i)) : i < fs.nextInode := by
  by_cases hl : l = []
  · simp [nodeAt, hl] at h
  · obtain ⟨e, he, hi⟩ : ∃ e, fs.entries.lookup l = some e ∧ e.node = .file i := by
      simpa [nodeAt, hl] using h
    exact fs.inode_lt l e i he hi

@[simp] theorem move_fold : (fs.move src d n).fold = fs.fold := by unfold move; split <;> rfl
@[simp] theorem move_cwd : (fs.move src d n).cwd = fs.cwd := by unfold move; split <;> rfl
@[simp] theorem move_content : (fs.move src d n).content = fs.content := by
  unfold move; split <;> rfl
@[simp] theorem move_nextInode : (fs.move src d n).nextInode = fs.nextInode := by
  unfold move; split <;> rfl

end

end Fs

end Ironlock
