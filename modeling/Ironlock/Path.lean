import Ironlock.Lib.Utf8
import Mathlib.Data.List.Lex
import Mathlib.Order.Lattice.Nat

/-! Unix paths, as `std::path` parses them. Repeated separators and inner `.`
components vanish in parsing; `..` stays, since only the file system knows
what it means. -/

namespace Ironlock
open ByteOrder (Bytes)

def slash : UInt8 := 0x2F

def dot : UInt8 := 0x2E

/-- A byte string that can stand as one normal path component. -/
def validName (b : Bytes) : Bool := b ≠ [] && !b.contains slash && b ≠ [dot] && b ≠ [dot, dot]

/-- A normal component. -/
structure Name where
  bytes : Bytes
  valid : validName bytes = true
  deriving DecidableEq

theorem Name.ext {a b : Name} (h : a.bytes = b.bytes) : a = b := by
  cases a; cases b; simpa using h

theorem Name.bytes_ne_nil (n : Name) : n.bytes ≠ [] := by
  have := n.valid; simp only [validName, Bool.and_eq_true, decide_eq_true_eq] at this
  exact this.1.1.1

theorem Name.slash_not_mem (n : Name) : slash ∉ n.bytes := by
  have := n.valid; simp only [validName, Bool.and_eq_true, Bool.not_eq_true'] at this
  simpa using this.1.1.2

def Name.ofBytes? (b : Bytes) : Option Name := if h : validName b = true then some ⟨b, h⟩ else none

/-- A component after the first place of a path. -/
inductive Part
  | up
  | name (n : Name)
  deriving DecidableEq

/-- Where a component leads by the names alone. -/
def Part.lead (names : List Name) : Part → List Name
  | .up => names.dropLast
  | .name n => names ++ [n]

/-- Where components lead by the names alone: `..` undoes the name before it. -/
def lexicalFrom (names : List Name) (parts : List Part) : List Name := parts.foldl Part.lead names

@[simp] theorem lexicalFrom_nil (names : List Name) : lexicalFrom names [] = names := rfl

@[simp] theorem lexicalFrom_cons (names : List Name) (part : Part) (parts : List Part) :
    lexicalFrom names (part :: parts) = lexicalFrom (part.lead names) parts := rfl

theorem lexicalFrom_append (names : List Name) (parts parts' : List Part) :
    lexicalFrom names (parts ++ parts') = lexicalFrom (lexicalFrom names parts) parts' := by
  simp [lexicalFrom]

theorem lexicalFrom_names (names names' : List Name) :
    lexicalFrom names (names'.map .name) = names ++ names' := by
  induction names' generalizing names with
  | nil => simp
  | cons n ns ih => simp [ih, Part.lead]

/-- How a path begins: at the root, with `./`, or with its first component. -/
inductive Anchor
  | root
  | here
  | bare
  deriving DecidableEq

/-- A parsed path. `dirOnly` records a trailing separator or `/.`, which std
drops from the components but the operating system honours. -/
structure Path where
  anchor : Anchor
  parts : List Part
  dirOnly : Bool
  deriving DecidableEq

namespace Path

def part? (segment : Bytes) : Option Part :=
  if segment = [dot, dot] then some .up else (Name.ofBytes? segment).map .name

/-- `Path::new` of a byte string. -/
def parse (raw : Bytes) : Path :=
  let segments := raw.splitOn slash
  let parts := segments.filterMap part?
  let anchor := match segments with
    | [] :: _ :: _ => .root
    | [x] :: _ => if x = dot then .here else .bare
    | _ => .bare
  let last := segments.getLastD []
  ⟨anchor, parts, parts ≠ [] && (last = [] || last = [dot])⟩

def empty : Path := ⟨.bare, [], false⟩

/-- `Path::new(".")`. -/
def here : Path := ⟨.here, [], false⟩

def root : Path := ⟨.root, [], false⟩

def isAbsolute (p : Path) : Bool := p.anchor = .root

/-- The path of a chain of names below the root. -/
def absolute (names : List Name) : Path := ⟨.root, names.map .name, false⟩

def parent (p : Path) : Option Path :=
  match p.parts with
  | [] => if p.anchor = .here then some empty else none
  | _ :: _ => some ⟨p.anchor, p.parts.dropLast, false⟩

def fileName (p : Path) : Option Name :=
  match p.parts.getLast? with
  | some (.name n) => some n
  | _ => none

/-- `Path::join`: an absolute right side replaces the left one, and an empty
one leaves a trailing separator. -/
def join (p q : Path) : Path :=
  if q.isAbsolute || p = empty then q
  else
    let parts := p.parts ++ q.parts
    ⟨p.anchor, parts, if q.parts = [] then parts ≠ [] else q.dirOnly⟩

/-- `Path::join` of a string. -/
def joinRaw (p : Path) (raw : Bytes) : Path := p.join (parse raw)

/-- The parent, or `.` for a path without one. -/
def parentOrHere (p : Path) : Path := p.parent.getD .here

/-- The parent, or the empty path for a path without one. -/
def parentOrEmpty (p : Path) : Path := p.parent.getD .empty

/-- `PathBuf::push` of one component. -/
def push (p : Path) (part : Part) : Path := ⟨p.anchor, p.parts ++ [part], false⟩

theorem part?_bytes (n : Name) : part? n.bytes = some (.name n) := by
  have hv := n.valid
  have hne : n.bytes ≠ [dot, dot] := by
    simp only [validName, Bool.and_eq_true, decide_eq_true_eq] at hv
    exact hv.2
  simp [part?, hne, Name.ofBytes?, hv]

theorem parse_bytes (n : Name) : parse n.bytes = ⟨.bare, [.name n], false⟩ := by
  have hsplit : n.bytes.splitOn slash = [n.bytes] := List.splitOn_eq_singleton n.slash_not_mem
  have hv := n.valid
  simp only [validName, Bool.and_eq_true, decide_eq_true_eq] at hv
  obtain ⟨⟨⟨hnil, -⟩, hdot⟩, -⟩ := hv
  have hpart := part?_bytes n
  simp only [parse, hsplit, List.filterMap_cons, hpart, List.filterMap_nil]
  match hb : n.bytes with
  | [] => exact absurd hb hnil
  | [x] => simp_all
  | x :: y :: rest => simp_all

/-- Joining a file name adds it as a component, to the empty path too. -/
theorem joinRaw_bytes (p : Path) (n : Name) : p.joinRaw n.bytes = p.push (.name n) := by
  rw [joinRaw, parse_bytes]
  by_cases hp : p = empty
  · subst hp; rfl
  · simp [join, push, isAbsolute, hp]

@[simp] theorem push_parts (p : Path) (part : Part) : (p.push part).parts = p.parts ++ [part] := rfl
@[simp] theorem push_anchor (p : Path) (part : Part) : (p.push part).anchor = p.anchor := rfl
@[simp] theorem push_dirOnly (p : Path) (part : Part) : (p.push part).dirOnly = false := rfl

theorem push_ne_empty (p : Path) (part : Part) : p.push part ≠ .empty := by
  intro h
  have := congrArg parts h
  simp [empty] at this

@[simp] theorem push_isAbsolute (p : Path) (part : Part) :
    (p.push part).isAbsolute = p.isAbsolute := rfl

@[simp] theorem push_parent (p : Path) (part : Part) :
    (p.push part).parent = some ⟨p.anchor, p.parts, false⟩ := by
  unfold parent
  split
  · rename_i h; simp at h
  · simp

theorem push_parentOrHere (p : Path) (part : Part) (h : p.dirOnly = false) :
    (p.push part).parentOrHere = p := by
  rw [parentOrHere, push_parent]
  cases p; cases h; rfl

@[simp] theorem parentOrHere_dirOnly (p : Path) : p.parentOrHere.dirOnly = false := by
  unfold parentOrHere parent
  split
  · split <;> rfl
  · rfl

@[simp] theorem push_fileName (p : Path) (n : Name) : (p.push (.name n)).fileName = some n := by
  simp [fileName]

/-- Components by their order in std: the root, then `.`, then `..`, then names. -/
def sortKey (p : Path) : List (List Nat) :=
  let first : List (List Nat) := match p.anchor with
    | .root => [[0]]
    | .here => [[1]]
    | .bare => []
  first ++ p.parts.map fun part => match part with
    | .up => [2]
    | .name n => 3 :: n.bytes.map UInt8.toNat

def le (p q : Path) : Bool := p.sortKey ≤ q.sortKey

/-- `strip_prefix(root)` for a path below an absolute directory. -/
def stripPrefix (p base : Path) : Option Path :=
  if p.anchor = base.anchor ∧ base.parts <+: p.parts then
    some ⟨.bare, p.parts.drop base.parts.length, false⟩
  else none

def startsWith (p base : Path) : Bool := (p.stripPrefix base).isSome

end Path

/-! ## Stems and extensions -/

/-- Split at the last occurrence of a byte. -/
def splitLast (sep : UInt8) : Bytes → Option (Bytes × Bytes)
  | [] => none
  | b :: rest => match splitLast sep rest with
    | some (before, after) => some (b :: before, after)
    | none => if b = sep then some ([], rest) else none

/-- std's `rsplit_file_at_dot`: what stands before and after the last dot. A
leading dot starts a hidden file's stem, not an extension. -/
def Name.rsplitAtDot (n : Name) : Option Bytes × Option Bytes :=
  match splitLast dot n.bytes with
  | none => (none, some n.bytes)
  | some ([], _) => (some n.bytes, none)
  | some (before, after) => (some before, some after)

def Name.stem (n : Name) : Bytes :=
  match n.rsplitAtDot with
  | (some before, _) => before
  | (none, some after) => after
  | (none, none) => n.bytes

def Name.extension (n : Name) : Option Bytes :=
  match n.rsplitAtDot with
  | (some _, some after) => some after
  | _ => none

/-- A Rust string: bytes known to be UTF-8. -/
structure Str where
  bytes : Bytes
  valid : Utf8.valid bytes = true
  deriving DecidableEq

theorem Str.ext {x y : Str} (h : x.bytes = y.bytes) : x = y := by
  cases x; cases y; simpa using h

/-- `String::from_utf8`, and `OsStr::to_str` on raw bytes. -/
def Str.ofBytes? (b : Bytes) : Option Str := if h : Utf8.valid b = true then some ⟨b, h⟩ else none

theorem Str.ofBytes?_eq_some {b : Bytes} {x : Str} (h : Str.ofBytes? b = some x) : x.bytes = b := by
  unfold Str.ofBytes? at h
  split at h <;> cases h
  rfl

@[simp] theorem Str.ofBytes?_bytes (x : Str) : Str.ofBytes? x.bytes = some x := by
  simp [Str.ofBytes?, x.valid]

def Path.fileStem (p : Path) : Option Bytes := p.fileName.map Name.stem

def Path.extension (p : Path) : Option Bytes := p.fileName.bind Name.extension

/-! ## Hexadecimal -/

def hexDigit (v : Nat) : UInt8 := if v < 10 then UInt8.ofNat (48 + v) else UInt8.ofNat (87 + v)

/-- The low `n` hexadecimal digits of `v`. -/
def hexDigits : Nat → Nat → Bytes
  | 0, _ => []
  | n + 1, v => hexDigits n (v / 16) ++ [hexDigit (v % 16)]

/-- `{:016x}`. -/
def hex16 (v : UInt64) : Bytes := hexDigits 16 v.toNat

theorem length_hexDigits (n v : Nat) : (hexDigits n v).length = n := by
  induction n generalizing v with
  | zero => rfl
  | succ n ih => simp [hexDigits, ih]

@[simp] theorem length_hex16 (v : UInt64) : (hex16 v).length = 16 := length_hexDigits 16 _

/-- Hexadecimal digits are neither separators, dots nor NUL. -/
theorem hexDigits_plain {n v : Nat} {b : UInt8} (h : b ∈ hexDigits n v) :
    b ≠ slash ∧ b ≠ dot ∧ b ≠ 0 := by
  have hdigit : ∀ k < 16, hexDigit k ≠ slash ∧ hexDigit k ≠ dot ∧ hexDigit k ≠ 0 := by decide
  induction n generalizing v with
  | zero => cases h
  | succ n ih =>
    rcases List.mem_append.1 h with h | h
    · exact ih h
    · rw [List.mem_singleton.1 h]; exact hdigit _ (Nat.mod_lt _ (by decide))

theorem hexDigits_ascii {n v : Nat} {b : UInt8} (h : b ∈ hexDigits n v) : b < 0x80 := by
  have hdigit : ∀ k < 16, hexDigit k < 0x80 := by decide
  induction n generalizing v with
  | zero => cases h
  | succ n ih =>
    rcases List.mem_append.1 h with h | h
    · exact ih h
    · rw [List.mem_singleton.1 h]
      exact hdigit _ (Nat.mod_lt _ (by decide))

theorem hex16_plain {v : UInt64} {b : UInt8} (h : b ∈ hex16 v) : b ≠ slash ∧ b ≠ dot ∧ b ≠ 0 :=
  hexDigits_plain h

end Ironlock
