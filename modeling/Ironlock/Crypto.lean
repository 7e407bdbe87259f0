import Ironlock.Lib.Effect
import Ironlock.Error

/-! Key derivation, the AEAD and the version 1 format (`crypto.rs`). The argon2
and chacha20poly1305 crates are parameters; everything the program asks of
them is logged. -/

namespace Ironlock
open ByteOrder (Bytes toBe ofBe)
open Effect

/-- A byte array of fixed length. -/
structure Block (n : Nat) where
  bytes : Bytes
  length_eq : bytes.length = n
  deriving DecidableEq

/-- The block of zeros. -/
def Block.zero (n : Nat) : Block n := ⟨List.replicate n 0, List.length_replicate ..⟩

theorem Block.ext {n : Nat} {a b : Block n} (h : a.bytes = b.bytes) : a = b := by
  cases a; cases b; simpa using h

/-- `try_into` of a slice. -/
def Block.ofBytes? (n : Nat) (b : Bytes) : Option (Block n) :=
  if h : b.length = n then some ⟨b, h⟩ else none

theorem Block.ofBytes?_of_length {n : Nat} {b : Bytes} (h : b.length = n) :
    Block.ofBytes? n b = some ⟨b, h⟩ := by simp [Block.ofBytes?, h]

/-- "IRONLOCK" -/
def magicBytes : Bytes := [73, 82, 79, 78, 76, 79, 67, 75]

/-- Version of the one-shot format. -/
def legacyVersion : UInt8 := 1

def saltLength : Nat := 16
def nonceLength : Nat := 12
def keyLength : Nat := 32

abbrev Key := Block keyLength
abbrev Nonce := Block nonceLength
abbrev Salt := Block saltLength

structure KdfParams where
  memoryKib : UInt32
  iterations : UInt32
  parallelism : UInt32
  deriving DecidableEq, Repr

def KdfParams.current : KdfParams := ⟨65536, 3, 4⟩

def maxArgon2MemoryKib : UInt32 := 128 * 1024
def maxArgon2Iterations : UInt32 := 6
def maxArgon2Parallelism : UInt32 := 8
def minArgon2MemoryKib : UInt32 := 8
def minArgon2Iterations : UInt32 := 1
def minArgon2Parallelism : UInt32 := 1

/-- One range check of the work factors. -/
def checkRange (label : String) (unit : String) (lo hi v : UInt32) : Except IronlockError Unit :=
  if lo ≤ v ∧ v ≤ hi then .ok ()
  else .error (.resourceLimit [.text label, .text " must be between ", .number lo.toNat,
    .text " and ", .number hi.toNat, .text unit])

/-- Rejects unreasonable work factors before argon2 can allocate. -/
def validateKdfParams (p : KdfParams) : Except IronlockError Unit := do
  checkRange "Argon2 memory cost" " KiB" minArgon2MemoryKib maxArgon2MemoryKib p.memoryKib
  checkRange "Argon2 iterations" "" minArgon2Iterations maxArgon2Iterations p.iterations
  checkRange "Argon2 parallelism" "" minArgon2Parallelism maxArgon2Parallelism p.parallelism
  -- parallelism is at most 8 here, so the u32 product cannot wrap
  if p.memoryKib.toNat < p.parallelism.toNat * 8 then .error .invalidFileFormat else .ok ()

/-- The crates the program calls: `Params::new` and `hash_password_into` of
argon2, `encrypt` and `decrypt` of chacha20poly1305 with its 32-byte key. -/
structure Crates where
  argon2Params : KdfParams → Except String Unit
  hashPasswordInto : KdfParams → Bytes → Bytes → Except String Key
  aeadEncrypt : Key → Nonce → Bytes → Bytes → Except String Bytes
  aeadDecrypt : Key → Nonce → Bytes → Bytes → Option Bytes

/-- What the program asks of the crates and of the allocator. -/
inductive Work
  | deriveKey (password salt : Bytes) (params : KdfParams)
  | encrypt (key : Key) (nonce : Nonce) (plaintext aad : Bytes) (result : Except String Bytes)
  | decrypt (key : Key) (nonce : Nonce) (ciphertext aad : Bytes)
  | allocate (size : Nat)
  deriving DecidableEq

abbrev CryptoM := Eff (List Work) IronlockError

def work (w : Work) : CryptoM Unit := Eff.modifyGet fun log => ((), log ++ [w])

def deriveKeyFromPassword (C : Crates) (password salt : Bytes) (params : KdfParams) :
    CryptoM Key := do
  Eff.ofExcept (validateKdfParams params)
  match C.argon2Params params with
  | .error e => Eff.fail (.encryptionFailed [.text "Invalid Argon2 params: ", .text e])
  | .ok () =>
    work (.deriveKey password salt params)
    match C.hashPasswordInto params password salt with
    | .error e => Eff.fail (.encryptionFailed [.text "Key derivation failed: ", .text e])
    | .ok key => return key

def encrypt (C : Crates) (key : Key) (nonce : Nonce) (plaintext aad : Bytes) : CryptoM Bytes := do
  let result := C.aeadEncrypt key nonce plaintext aad
  work (.encrypt key nonce plaintext aad result)
  match result with
  | .error e => Eff.fail (.encryptionFailed [.text "Encryption failed: ", .text e])
  | .ok ciphertext => return ciphertext

def decrypt (C : Crates) (key : Key) (nonce : Nonce) (ciphertext aad : Bytes) : CryptoM Bytes := do
  work (.decrypt key nonce ciphertext aad)
  match C.aeadDecrypt key nonce ciphertext aad with
  | none => Eff.fail .decryptionFailed
  | some plaintext => return plaintext

/-- Key derivation succeeds only on work factors within the limits. -/
theorem deriveKey_eq_ok {C : Crates} {password salt : Bytes} {params : KdfParams} {key : Key}
    {log log' : List Work} :
    deriveKeyFromPassword C password salt params log = (.ok key, log') ↔
      validateKdfParams params = .ok () ∧ C.argon2Params params = .ok () ∧
      C.hashPasswordInto params password salt = .ok key ∧
      log' = log ++ [.deriveKey password salt params] := by
  unfold deriveKeyFromPassword
  rw [Eff.bind_eq_ok]
  cases hv : validateKdfParams params <;> cases hp : C.argon2Params params <;>
    cases hk : C.hashPasswordInto params password salt <;>
    simp [work, Eff.modifyGet, Eff.bind_apply, Eff.pure_apply, eq_comm]

/-- A derivation is refused, and then nothing is asked of argon2, or argon2 is
asked once, with work factors that passed the checks. -/
theorem deriveKey_cases {C : Crates} {password salt : Bytes} {params : KdfParams}
    {r : Except IronlockError Key} {log log' : List Work}
    (h : deriveKeyFromPassword C password salt params log = (r, log')) :
    (log' = log ∧ ∃ e, r = .error e) ∨
      validateKdfParams params = .ok () ∧ log' = log ++ [.deriveKey password salt params] := by
  unfold deriveKeyFromPassword at h
  cases hv : validateKdfParams params with
  | error e =>
    rw [hv] at h
    cases h
    exact .inl ⟨rfl, _, rfl⟩
  | ok u =>
    rw [hv, Eff.bind_ok (Eff.ofExcept_apply _ log)] at h
    cases hp : C.argon2Params params with
    | error e =>
      rw [hp] at h
      cases h
      exact .inl ⟨rfl, _, rfl⟩
    | ok u =>
      rw [hp] at h
      refine .inr ⟨rfl, ?_⟩
      cases hk : C.hashPasswordInto params password salt <;> simp only [hk] at h <;> cases h <;> rfl

theorem encrypt_eq_ok {C : Crates} {key : Key} {nonce : Nonce} {plaintext aad c : Bytes}
    {log log' : List Work} :
    encrypt C key nonce plaintext aad log = (.ok c, log') ↔
      C.aeadEncrypt key nonce plaintext aad = .ok c ∧
      log' = log ++ [.encrypt key nonce plaintext aad (.ok c)] := by
  unfold encrypt
  cases hc : C.aeadEncrypt key nonce plaintext aad <;>
    simp [work, Eff.modifyGet, Eff.bind_apply, Eff.pure_apply]
  grind

theorem decrypt_eq_ok {C : Crates} {key : Key} {nonce : Nonce} {ciphertext aad p : Bytes}
    {log log' : List Work} :
    decrypt C key nonce ciphertext aad log = (.ok p, log') ↔
      C.aeadDecrypt key nonce ciphertext aad = some p ∧
      log' = log ++ [.decrypt key nonce ciphertext aad] := by
  unfold decrypt
  cases hc : C.aeadDecrypt key nonce ciphertext aad <;>
    simp [work, Eff.modifyGet, Eff.bind_apply, Eff.pure_apply, eq_comm]

/-- The three work factors as both formats store them. -/
def KdfParams.encode (p : KdfParams) : Bytes :=
  toBe 4 p.memoryKib.toNat ++ toBe 4 p.iterations.toNat ++ toBe 4 p.parallelism.toNat

/-- `b[i..j]`. -/
def slice (b : Bytes) (i j : Nat) : Bytes := (b.take j).drop i

def parseU32At (b : Bytes) (i : Nat) : UInt32 := UInt32.ofNat (ofBe (slice b i (i + 4)))

/-- The header of a version 1 file, which is also its associated data. -/
def legacyHeader (params : KdfParams) (filename : Bytes) (salt : Salt) (nonce : Nonce) : Bytes :=
  magicBytes ++ [legacyVersion] ++ params.encode ++ toBe 2 filename.length ++ filename ++
    salt.bytes ++ nonce.bytes

def createEncryptedFileWithParams (C : Crates) (salt : Salt) (nonce : Nonce) (password : Bytes)
    (originalFilename : Str) (plaintext : Bytes) (params : KdfParams) : CryptoM Bytes := do
  let key ← deriveKeyFromPassword C password salt.bytes params
  let filename := originalFilename.bytes
  if filename.length > 65535 then
    Eff.fail (.encryptionFailed [.text "Filename too long (exceeds 65535 bytes)"])
  else
    let header := legacyHeader params filename salt nonce
    let ciphertext ← encrypt C key nonce plaintext header
    return header ++ ciphertext

/-- magic, version, work factors, name length, salt, nonce and tag -/
def minimumSize : Nat := 8 + 1 + 12 + 2 + 16 + 12 + 16

/-- Parses and decrypts a version 1 file: its name and its content. -/
def decryptFile (C : Crates) (password data : Bytes) : CryptoM (Str × Bytes) := do
  if data.length < minimumSize then Eff.fail .invalidFileFormat
  else if slice data 0 8 ≠ magicBytes then Eff.fail .invalidFileFormat
  else if data[8]? ≠ some legacyVersion then Eff.fail .invalidFileFormat
  else
    let params : KdfParams := ⟨parseU32At data 9, parseU32At data 13, parseU32At data 17⟩
    let filenameLen := ofBe (slice data 21 23)
    let filenameEnd := 23 + filenameLen
    let saltEnd := filenameEnd + saltLength
    let nonceEnd := saltEnd + nonceLength
    if data.length < nonceEnd + 16 then Eff.fail .invalidFileFormat
    else
      match Str.ofBytes? (slice data 23 filenameEnd), Block.ofBytes? saltLength (slice data filenameEnd saltEnd),
          Block.ofBytes? nonceLength (slice data saltEnd nonceEnd) with
      | some originalFilename, some salt, some nonce =>
        let key ← deriveKeyFromPassword C password salt.bytes params
        let plaintext ← decrypt C key nonce (data.drop nonceEnd) (data.take nonceEnd)
        return (originalFilename, plaintext)
      | _, _, _ => Eff.fail .invalidFileFormat

/-- The name and the ciphertext of an accepted version 1 file lie where its
length field says. -/
theorem decryptFile_eq_ok {C : Crates} {password data plaintext : Bytes} {name : Str}
    {log log' : List Work} (h : decryptFile C password data log = (.ok (name, plaintext), log')) :
    ∃ key nonce, let nameEnd := 23 + ofBe (slice data 21 23)
      name.bytes = slice data 23 nameEnd ∧
      C.aeadDecrypt key nonce (data.drop (nameEnd + 28)) (data.take (nameEnd + 28)) =
        some plaintext := by
  unfold decryptFile at h
  by_cases hmin : data.length < minimumSize
  · rw [if_pos hmin] at h; cases h
  rw [if_neg hmin] at h
  by_cases hmagic : slice data 0 8 = magicBytes
  case neg => rw [if_pos hmagic] at h; cases h
  rw [if_neg (not_not.2 hmagic)] at h
  by_cases hversion : data[8]? = some legacyVersion
  case neg => rw [if_pos hversion] at h; cases h
  rw [if_neg (not_not.2 hversion)] at h
  by_cases hlong : data.length < 23 + ofBe (slice data 21 23) + saltLength + nonceLength + 16
  · simp only [hlong, if_true] at h; cases h
  simp only [hlong, if_false] at h
  cases hname : Str.ofBytes? (slice data 23 (23 + ofBe (slice data 21 23))) with
  | none => simp only [hname] at h; cases h
  | some x =>
    simp only [hname] at h
    generalize Block.ofBytes? saltLength _ = salt?, Block.ofBytes? nonceLength _ = nonce? at h
    match salt?, nonce?, h with
    | some salt, some nonce, h =>
      obtain ⟨key, log₁, -, h⟩ := Eff.bind_eq_ok.1 h
      obtain ⟨p, log₂, hp, h⟩ := Eff.bind_eq_ok.1 h
      obtain ⟨hdec, -⟩ := decrypt_eq_ok.1 hp
      cases h
      exact ⟨key, nonce, Str.ofBytes?_eq_some hname, hdec⟩

end Ironlock
