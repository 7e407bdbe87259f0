import Ironlock.StreamIo

/-! The version 2 stream format (`stream_crypto.rs`). -/

namespace Ironlock
open ByteOrder (Bytes toBe ofBe)
open Effect

/-- Version 2 hides metadata and authenticates independently encrypted chunks. -/
def formatVersion : UInt8 := 2

def defaultChunkSize : Nat := 64 * 1024
def maxChunkSize : Nat := 1024 * 1024
def maxFilenameBytes : Nat := 65535
def maxLegacyFileSize : Nat := 256 * 1024 * 1024

def headerSize : Nat := 8 + 1 + 12 + 4 + saltLength + nonceLength
def recordHeaderSize : Nat := 1 + 8 + 4
def tagSize : Nat := 16

def recordMetadata : UInt8 := 1
def recordData : UInt8 := 2
def recordFinal : UInt8 := 3
def finalPlaintextSize : Nat := 16

def limitError (text : String) : IronlockError := .resourceLimit [.text text]

/-- `checked_add` on `u64`, with the error its caller gives an overflow. -/
def checkedAdd (a b : Nat) (overflow : String) : Except IronlockError Nat :=
  if a + b < 2 ^ 64 then .ok (a + b) else .error (limitError overflow)

theorem checkedAdd_eq_ok {a b n : Nat} {text : String} :
    checkedAdd a b text = .ok n ↔ a + b < 2 ^ 64 ∧ n = a + b := by
  unfold checkedAdd
  split <;> rename_i h <;> simp only [h, Except.ok.injEq, true_and, false_and, reduceCtorEq]
  exact eq_comm

def deriveRecordNonce (baseNonce : Nonce) (sequence : Nat) : Nonce where
  bytes := baseNonce.bytes.take 4 ++ List.zipWith (· ^^^ ·) (baseNonce.bytes.drop 4) (toBe 8 sequence)
  length_eq := by
    have := baseNonce.length_eq
    simp only [nonceLength] at this ⊢
    simp [this]

def recordHeader (recordType : UInt8) (sequence ciphertextLen : Nat) :
    Except IronlockError Bytes :=
  if ciphertextLen < 2 ^ 32 then
    .ok ([recordType] ++ toBe 8 sequence ++ toBe 4 ciphertextLen)
  else .error (limitError "encrypted record is too large")

def recordAad (header record : Bytes) : Bytes := header ++ record

def writeRecord (C : Crates) (key : Key) (baseNonce : Nonce) (header : Bytes) (recordType : UInt8)
    (sequence : Nat) (plaintext : Bytes) : StreamM Unit := do
  let encryptedLen ← Eff.ofExcept
    (checkedAdd plaintext.length tagSize "encrypted record length overflow")
  let record ← Eff.ofExcept (recordHeader recordType sequence encryptedLen)
  let aad := recordAad header record
  let nonce := deriveRecordNonce baseNonce sequence
  let ciphertext ← liftCrypto (encrypt C key nonce plaintext aad)
  writeAll record
  writeAll ciphertext

/-- The public header of a stream. -/
def streamHeader (params : KdfParams) (chunkSize : Nat) (salt : Salt) (baseNonce : Nonce) : Bytes :=
  magicBytes ++ [formatVersion] ++ params.encode ++ toBe 4 chunkSize ++ salt.bytes ++ baseNonce.bytes

/-- The inner loop: fill the buffer's `room` unless the input ends first. -/
def fillBuffer (room : Nat) (r : Reader) : Except IronlockError Bytes × Reader :=
  if room = 0 then (.ok [], r)
  else match _h : nextRead room r with
    | (.error e, r') => (.error e, r')
    | (.ok read, r') =>
      if _hb : read = [] then (.ok [], r')
      else match fillBuffer (room - read.length) r' with
        | (.ok rest, r'') => (.ok (read ++ rest), r'')
        | (.error e, r'') => (.error e, r'')
termination_by r.size
decreasing_by exact nextRead_size _h _hb

theorem fillBuffer_size_le (room : Nat) (r : Reader) : (fillBuffer room r).2.size ≤ r.size := by
  fun_induction fillBuffer room r with
  | case1 => exact le_refl _
  | case2 room r _ e r₁ hr => simpa [hr] using nextRead_size_le room r
  | case3 room r _ r₁ hr => simpa [hr] using nextRead_size_le room r
  | case4 room r _ read r₁ hr hb rest r₂ hrest ih =>
    rw [hrest] at ih; exact le_trans ih (le_of_lt (nextRead_size hr hb))
  | case5 room r _ read r₁ hr hb e r₂ hrest ih =>
    rw [hrest] at ih; exact le_trans ih (le_of_lt (nextRead_size hr hb))

theorem fillBuffer_size {room : Nat} {r r' : Reader} {b : Bytes}
    (h : fillBuffer room r = (.ok b, r')) (hb : b ≠ []) : r'.size < r.size := by
  unfold fillBuffer at h
  split_ifs at h
  · cases h; exact absurd rfl hb
  · split at h
    · cases h
    · rename_i read r₁ hread
      split_ifs at h with hnil
      · cases h; exact absurd rfl hb
      · have hlt := nextRead_size hread hnil
        have hle := fillBuffer_size_le (room - read.length) r₁
        split at h <;> rename_i hrest <;> cases h
        rw [hrest] at hle
        exact lt_of_le_of_lt hle hlt

/-- The totals one more chunk makes, each addition checked as the source
checks it. -/
def countChunk (totalPlaintext chunkCount sequence filled : Nat) :
    Except IronlockError (Nat × Nat × Nat) := do
  let totalPlaintext ← checkedAdd totalPlaintext filled "plaintext length overflow"
  let chunkCount ← checkedAdd chunkCount 1 "chunk counter overflow"
  let sequence ← checkedAdd sequence 1 "record counter exhausted"
  return (totalPlaintext, chunkCount, sequence)

theorem writeRecord_less (C : Crates) (key : Key) (baseNonce : Nonce) (header : Bytes)
    (recordType : UInt8) (sequence : Nat) (plaintext : Bytes) :
    Within LessToRead (writeRecord C key baseNonce header recordType sequence plaintext) :=
  .bind (.ofExcept _) fun _ => .bind (.ofExcept _) fun _ => .bind (liftCrypto_less _) fun _ =>
    .bind (writeAll_less _) fun _ => writeAll_less _

/-- The chunk loop: it ends when the input gives nothing more, or with the
first chunk that does not fill the buffer. -/
def encryptChunks (C : Crates) (key : Key) (baseNonce : Nonce) (header : Bytes)
    (totalPlaintext chunkCount sequence : Nat) (s : Streams) :
    Except IronlockError (Nat × Nat × Nat) × Streams :=
  match _h : fillBuffer defaultChunkSize s.reader with
  | (.error e, reader) => (.error e, { s with reader })
  | (.ok chunk, reader) =>
    if _hc : chunk = [] then (.ok (totalPlaintext, chunkCount, sequence), { s with reader })
    else
      match _hw : writeRecord C key baseNonce header recordData sequence chunk { s with reader } with
      | (.error e, s') => (.error e, s')
      | (.ok (), s') =>
        match countChunk totalPlaintext chunkCount sequence chunk.length with
        | .error e => (.error e, s')
        | .ok (totalPlaintext, chunkCount, sequence) =>
          if chunk.length < defaultChunkSize then (.ok (totalPlaintext, chunkCount, sequence), s')
          else encryptChunks C key baseNonce header totalPlaintext chunkCount sequence s'
termination_by s.reader.size
decreasing_by
  exact lt_of_le_of_lt ((writeRecord_less C key _ _ _ _ _).run _hw) (fillBuffer_size _h _hc)

def encryptStreamWithParams (C : Crates) (salt : Salt) (baseNonce : Nonce) (password : Bytes)
    (originalFilename : Str) (params : KdfParams) : StreamM Nat := do
  let filenameBytes := originalFilename.bytes
  if filenameBytes = [] then
    Eff.fail (.encryptionFailed [.text "Filename cannot be empty"])
  else if maxFilenameBytes < filenameBytes.length then
    Eff.fail (.encryptionFailed [.text "Filename exceeds 65535 bytes"])
  else
    let key ← liftCrypto (deriveKeyFromPassword C password salt.bytes params)
    let header := streamHeader params defaultChunkSize salt baseNonce
    writeAll header
    let metadata := toBe 2 filenameBytes.length ++ filenameBytes
    writeRecord C key baseNonce header recordMetadata 0 metadata
    let (totalPlaintext, chunkCount, sequence) ← encryptChunks C key baseNonce header 0 0 1
    writeRecord C key baseNonce header recordFinal sequence
      (toBe 8 totalPlaintext ++ toBe 8 chunkCount)
    return totalPlaintext

/-- Encrypts a stream in bounded chunks using the current KDF profile. -/
def encryptStream (C : Crates) (salt : Salt) (baseNonce : Nonce) (password : Bytes)
    (originalFilename : Str) : StreamM Nat :=
  encryptStreamWithParams C salt baseNonce password originalFilename .current

/-! ## Decryption -/

/-- What the reader of a version 2 stream keeps between records. The reader
itself is the one of the running streams. -/
structure V2State where
  key : Key
  header : Bytes
  baseNonce : Nonce
  chunkSize : Nat
  nextSequence : Nat

inductive DecryptMode
  | v2 (state : V2State)
  | legacy (plaintext : Bytes)

/-- A staged decryptor exposes authenticated metadata before creating plaintext
output. -/
structure StreamDecryptor where
  filename : Str
  mode : DecryptMode

def decryptRecordBody (C : Crates) (key : Key) (baseNonce : Nonce) (header record : Bytes)
    (sequence maxPlaintext : Nat) : StreamM Bytes := do
  let ciphertextLen := ofBe (slice record 9 13)
  if ciphertextLen < tagSize ∨ maxPlaintext < ciphertextLen - tagSize then
    Eff.fail (limitError "encrypted record exceeds the format limit")
  else
    allocate ciphertextLen
    let ciphertext ← readExactFormat ciphertextLen
    let aad := recordAad header record
    let nonce := deriveRecordNonce baseNonce sequence
    liftCrypto (decrypt C key nonce ciphertext aad)

def readRecord (C : Crates) (key : Key) (baseNonce : Nonce) (header : Bytes)
    (expectedSequence : Nat) (expectedType : Option UInt8) (maxPlaintext : Nat) : StreamM Bytes := do
  let record ← readExactFormat recordHeaderSize
  if expectedType.isSome ∧ record.head? ≠ expectedType then Eff.fail .decryptionFailed
  else
    let sequence := ofBe (slice record 1 9)
    if sequence ≠ expectedSequence then Eff.fail .decryptionFailed
    else decryptRecordBody C key baseNonce header record sequence maxPlaintext

def readNextRecord (C : Crates) (state : V2State) : StreamM (UInt8 × Bytes × V2State) := do
  let record ← readExactFormat recordHeaderSize
  let recordType := record.headD 0
  let sequence := ofBe (slice record 1 9)
  if sequence ≠ state.nextSequence then Eff.fail .decryptionFailed
  else if recordType ≠ recordData ∧ recordType ≠ recordFinal then Eff.fail .invalidFileFormat
  else
    let maxPlaintext := if recordType = recordData then state.chunkSize else finalPlaintextSize
    let plaintext ← decryptRecordBody C state.key state.baseNonce state.header record sequence
      maxPlaintext
    let nextSequence ← Eff.ofExcept
      (checkedAdd state.nextSequence 1 "record counter exhausted")
    return (recordType, plaintext, { state with nextSequence })

/-- The data arm of the decrypt loop. -/
def acceptData (plaintext : Bytes) (totalPlaintext chunkCount : Nat) : StreamM (Nat × Nat) := do
  if plaintext = [] then Eff.fail .invalidFileFormat
  else
    writeAll plaintext
    let totalPlaintext ← Eff.ofExcept
      (checkedAdd totalPlaintext plaintext.length "plaintext length overflow")
    let chunkCount ← Eff.ofExcept (checkedAdd chunkCount 1 "chunk counter overflow")
    return (totalPlaintext, chunkCount)

/-- The final arm of the decrypt loop: the totals must match and the input end. -/
def acceptFinal (plaintext : Bytes) (totalPlaintext chunkCount : Nat) : StreamM Nat := do
  if plaintext.length ≠ finalPlaintextSize then Eff.fail .invalidFileFormat
  else
    let claimedLen := ofBe (slice plaintext 0 8)
    let claimedChunks := ofBe (slice plaintext 8 16)
    if claimedLen ≠ totalPlaintext ∨ claimedChunks ≠ chunkCount then Eff.fail .decryptionFailed
    else
      let trailing ← liftRead (nextRead 1)
      if trailing ≠ [] then Eff.fail .invalidFileFormat else return totalPlaintext

theorem decryptRecordBody_less (C : Crates) (key : Key) (baseNonce : Nonce)
    (header record : Bytes) (sequence maxPlaintext : Nat) :
    Within LessToRead (decryptRecordBody C key baseNonce header record sequence maxPlaintext) :=
  .ite (.fail _) <| .bind (liftCrypto_less _) fun _ => .bind (readExactFormat_less _) fun _ =>
    liftCrypto_less _

theorem acceptData_less (plaintext : Bytes) (totalPlaintext chunkCount : Nat) :
    Within LessToRead (acceptData plaintext totalPlaintext chunkCount) :=
  .ite (.fail _) <| .bind (writeAll_less _) fun _ => .bind (.ofExcept _) fun _ =>
    .bind (.ofExcept _) fun _ => .pure _

/-- Every record uses up input, so the loop over them ends. -/
theorem readNextRecord_size {C : Crates} {state : V2State} {s s' : Streams}
    {r : UInt8 × Bytes × V2State} (h : readNextRecord C state s = (.ok r, s')) :
    s'.reader.size < s.reader.size := by
  obtain ⟨record, t, hrecord, h⟩ := Eff.bind_eq_ok.1 h
  refine lt_of_le_of_lt (Within.run (R := LessToRead) ?_ h) (readExactFormat_size (by decide) hrecord)
  exact .ite (.fail _) <| .ite (.fail _) <| .bind (decryptRecordBody_less C _ _ _ _ _ _) fun _ =>
    .bind (.ofExcept _) fun _ => .pure _

/-- The decrypt loop. -/
def decryptChunks (C : Crates) (state : V2State) (totalPlaintext chunkCount : Nat)
    (s : Streams) : Except IronlockError Nat × Streams :=
  match _h : readNextRecord C state s with
  | (.error e, s') => (.error e, s')
  | (.ok (recordType, plaintext, state'), s') =>
    if recordType = recordData then
      match _ha : acceptData plaintext totalPlaintext chunkCount s' with
      | (.error e, s'') => (.error e, s'')
      | (.ok (totalPlaintext, chunkCount), s'') =>
        decryptChunks C state' totalPlaintext chunkCount s''
    else if recordType = recordFinal then acceptFinal plaintext totalPlaintext chunkCount s'
    else (.error .invalidFileFormat, s')
termination_by s.reader.size
decreasing_by
  exact lt_of_le_of_lt ((acceptData_less _ _ _).run _ha) (readNextRecord_size _h)

theorem decryptChunks_data {C : Crates} {state state' : V2State} {p : Bytes}
    {total count total' count' : Nat} {s s₁ s₂ : Streams}
    (hread : readNextRecord C state s = (.ok (recordData, p, state'), s₁))
    (hdata : acceptData p total count s₁ = (.ok (total', count'), s₂)) :
    decryptChunks C state total count s = decryptChunks C state' total' count' s₂ := by
  conv => lhs; unfold decryptChunks
  split <;> rename_i h <;> rw [hread] at h <;> cases h
  rw [if_pos rfl]
  split <;> rename_i h <;> rw [hdata] at h <;> cases h
  rfl

theorem decryptChunks_final {C : Crates} {state state' : V2State} {p : Bytes} {total count : Nat}
    {s s₁ : Streams} (hread : readNextRecord C state s = (.ok (recordFinal, p, state'), s₁)) :
    decryptChunks C state total count s = acceptFinal p total count s₁ := by
  unfold decryptChunks
  split <;> rename_i h <;> rw [hread] at h <;> cases h
  rw [if_neg (by decide), if_pos rfl]

namespace StreamDecryptor

/-- `StreamDecryptor::new_v2`, after the nine bytes of `prefix`. -/
def newV2 (C : Crates) (password start : Bytes) : StreamM StreamDecryptor := do
  let rest ← readExactFormat (headerSize - 9)
  let header := start ++ rest
  let kdfParams : KdfParams := ⟨parseU32At header 9, parseU32At header 13, parseU32At header 17⟩
  let chunkSize := (parseU32At header 21).toNat
  if chunkSize < 1024 ∨ maxChunkSize < chunkSize then
    Eff.fail (.resourceLimit [.text "chunk size must be between 1024 and ", .number maxChunkSize,
      .text " bytes"])
  else
    match Block.ofBytes? saltLength (slice header 25 41),
        Block.ofBytes? nonceLength (slice header 41 53) with
    | some salt, some baseNonce =>
      let key ← liftCrypto (deriveKeyFromPassword C password salt.bytes kdfParams)
      let metadata ← readRecord C key baseNonce header 0 (some recordMetadata) (maxFilenameBytes + 2)
      if metadata.length < 2 then Eff.fail .invalidFileFormat
      else
        let filenameLen := ofBe (slice metadata 0 2)
        if metadata.length ≠ filenameLen + 2 then Eff.fail .invalidFileFormat
        else
          match Str.ofBytes? (metadata.drop 2) with
          | none => Eff.fail .invalidFileFormat
          | some filename =>
            if filename.bytes = [] then Eff.fail .invalidFileFormat
            else return ⟨filename, .v2 ⟨key, header, baseNonce, chunkSize, 1⟩⟩
    | _, _ => Eff.fail .invalidFileFormat

/-- `StreamDecryptor::new_legacy`: the whole input, up to one byte over the limit. -/
def newLegacy (C : Crates) (password start : Bytes) : StreamM StreamDecryptor := do
  let remainingLimit := maxLegacyFileSize + 1 - start.length
  let rest ← liftRead fun r =>
    match r.readToEnd remainingLimit with
    | (.ok b, r') => (.ok b, r')
    | (.error e, r') => (.error (.ioError e), r')
  let encrypted := start ++ rest
  if maxLegacyFileSize < encrypted.length then
    Eff.fail (.resourceLimit [.text "legacy encrypted files are limited to ",
      .number maxLegacyFileSize, .text " bytes"])
  else
    let (filename, plaintext) ← liftCrypto (decryptFile C password encrypted)
    return ⟨filename, .legacy plaintext⟩

/-- `StreamDecryptor::new`. -/
def new (C : Crates) (password : Bytes) : StreamM StreamDecryptor := do
  let start ← readExactFormat 9
  if slice start 0 8 ≠ magicBytes then Eff.fail .invalidFileFormat
  else if start[8]? = some formatVersion then newV2 C password start
  else if start[8]? = some legacyVersion then newLegacy C password start
  else Eff.fail .invalidFileFormat

def decryptTo (C : Crates) (d : StreamDecryptor) : StreamM Nat :=
  match d.mode with
  | .legacy plaintext => do
    writeAll plaintext
    return plaintext.length
  | .v2 state => decryptChunks C state 0 0

end StreamDecryptor

end Ironlock
