import Ironlock.Decoding

/-! What a version 1 file is, said without a parser, and that the one-shot
decoder accepts those and nothing else. -/

namespace Ironlock
open ByteOrder
open Effect

/-! ## Indexing -/

/-- `b[i..j]`, or a panic. -/
def indexRange (b : Bytes) (i j : Nat) : Option Bytes :=
  if i ≤ j ∧ j ≤ b.length then some (slice b i j) else none

/-- `decrypt_file` from the name on. -/
def decryptBodyIndexed (C : Crates) (password data : Bytes) (params : KdfParams) (filenameLen : Nat)
    (log : List Work) : Option (Except IronlockError (Str × Bytes) × List Work) :=
  let filenameEnd := 23 + filenameLen
  let saltEnd := filenameEnd + saltLength
  let nonceEnd := saltEnd + nonceLength
  if data.length < nonceEnd + 16 then some (.error .invalidFileFormat, log)
  else do
    let filename ← indexRange data 23 filenameEnd
    match Str.ofBytes? filename with
    | none => some (.error .invalidFileFormat, log)
    | some originalFilename =>
      let salt ← indexRange data filenameEnd saltEnd
      match Block.ofBytes? saltLength salt with
      | none => some (.error .invalidFileFormat, log)
      | some salt =>
        let nonce ← indexRange data saltEnd nonceEnd
        match Block.ofBytes? nonceLength nonce with
        | none => some (.error .invalidFileFormat, log)
        | some nonce =>
          let ciphertext ← indexRange data nonceEnd data.length
          match deriveKeyFromPassword C password salt.bytes params log with
          | (.error e, log) => some (.error e, log)
          | (.ok key, log) =>
            let aad ← indexRange data 0 nonceEnd
            match decrypt C key nonce ciphertext aad log with
            | (.error e, log) => some (.error e, log)
            | (.ok plaintext, log) => some (.ok (originalFilename, plaintext), log)

/-- `decrypt_file` with every index checked as the language checks it: the
result is `none` when one is out of range. -/
def decryptFileIndexed (C : Crates) (password data : Bytes) (log : List Work) :
    Option (Except IronlockError (Str × Bytes) × List Work) :=
  if data.length < minimumSize then some (.error .invalidFileFormat, log)
  else do
    let magic ← indexRange data 0 8
    if magic ≠ magicBytes then some (.error .invalidFileFormat, log)
    else
      let version ← data[8]?
      if version ≠ legacyVersion then some (.error .invalidFileFormat, log)
      else
        let memoryKib ← indexRange data 9 13
        let iterations ← indexRange data 13 17
        let parallelism ← indexRange data 17 21
        let high ← data[21]?
        let low ← data[22]?
        decryptBodyIndexed C password data ⟨UInt32.ofNat (ofBe memoryKib),
          UInt32.ofNat (ofBe iterations), UInt32.ofNat (ofBe parallelism)⟩ (ofBe [high, low]) log

/-- `decrypt_file` from the name on, as `decryptFile` has it. -/
def decryptBody (C : Crates) (password data : Bytes) (params : KdfParams) (filenameLen : Nat) :
    CryptoM (Str × Bytes) :=
  let filenameEnd := 23 + filenameLen
  let saltEnd := filenameEnd + saltLength
  let nonceEnd := saltEnd + nonceLength
  if data.length < nonceEnd + 16 then Eff.fail .invalidFileFormat
  else
    match Str.ofBytes? (slice data 23 filenameEnd), Block.ofBytes? saltLength (slice data filenameEnd saltEnd),
        Block.ofBytes? nonceLength (slice data saltEnd nonceEnd) with
    | some originalFilename, some salt, some nonce => do
      let key ← deriveKeyFromPassword C password salt.bytes params
      let plaintext ← decrypt C key nonce (data.drop nonceEnd) (data.take nonceEnd)
      return (originalFilename, plaintext)
    | _, _, _ => Eff.fail .invalidFileFormat

theorem indexRange_eq {b : Bytes} {i j : Nat} (hij : i ≤ j) (hj : j ≤ b.length) :
    indexRange b i j = some (slice b i j) := if_pos ⟨hij, hj⟩

/-- Two bytes indexed one by one are the slice of both. -/
theorem slice_pair {b : Bytes} {i : Nat} (h : i + 2 ≤ b.length) :
    slice b i (i + 2) = [b[i], b[i + 1]] := by
  have hlen : (slice b i (i + 2)).length = 2 := by rw [slice_length h]; omega
  refine List.ext_getElem (by rw [hlen]; rfl) fun k hk _ => ?_
  rw [hlen] at hk
  match k, hk with
  | 0, _ => simp [slice]
  | 1, _ => simp [slice]

section
variable (C : Crates) (password data : Bytes) (params : KdfParams)

/-- The bound on the length field keeps every range after it inside. -/
theorem decryptBodyIndexed_eq (filenameLen : Nat) (log : List Work) :
    decryptBodyIndexed C password data params filenameLen log =
      some (decryptBody C password data params filenameLen log) := by
  unfold decryptBodyIndexed decryptBody
  by_cases hlong : data.length < 23 + filenameLen + saltLength + nonceLength + 16
  · simp only [hlong, if_true, Eff.fail_apply]
  simp only [hlong, if_false, Option.bind_eq_bind]
  have hsalt : 23 + filenameLen + saltLength ≤ data.length := by omega
  have hnonce : 23 + filenameLen + saltLength + nonceLength ≤ data.length := by omega
  rw [indexRange_eq (by omega) (by omega), Option.bind_some]
  cases Str.ofBytes? (slice data 23 (23 + filenameLen)) with
  | none => rfl
  | some name =>
    simp only [indexRange_eq (Nat.le_add_right ..) hsalt, Option.bind_some]
    rw [Block.ofBytes?_of_length (by rw [slice_length hsalt, Nat.add_sub_cancel_left])]
    simp only [indexRange_eq (Nat.le_add_right ..) hnonce, Option.bind_some]
    rw [Block.ofBytes?_of_length (by rw [slice_length hnonce, Nat.add_sub_cancel_left])]
    simp only [indexRange_eq hnonce le_rfl, indexRange_eq (Nat.zero_le _) hnonce, Option.bind_some]
    have hrest : slice data (23 + filenameLen + saltLength + nonceLength) data.length =
        data.drop (23 + filenameLen + saltLength + nonceLength) := by
      rw [slice, List.take_of_length_le le_rfl]
    have haad : slice data 0 (23 + filenameLen + saltLength + nonceLength) =
        data.take (23 + filenameLen + saltLength + nonceLength) := rfl
    rw [hrest, haad]
    simp only [Eff.bind_apply]
    generalize deriveKeyFromPassword C password _ params log = r
    rcases r with ⟨e | key, log⟩
    · rfl
    · simp only
      generalize decrypt C key _ _ _ log = r
      rcases r with ⟨e | plaintext, log⟩ <;> rfl

/-- Whatever the input, no index that `decrypt_file` uses is out of range. -/
theorem decryptFileIndexed_eq (log : List Work) :
    decryptFileIndexed C password data log = some (decryptFile C password data log) := by
  unfold decryptFileIndexed decryptFile
  by_cases hmin : data.length < minimumSize
  · simp only [hmin, if_true, Eff.fail_apply]
  have hlen : 67 ≤ data.length := Nat.le_of_not_lt hmin
  have h8 : data[8]? = some data[8] := List.getElem?_eq_getElem _
  have h21 : data[21]? = some data[21] := List.getElem?_eq_getElem _
  have h22 : data[22]? = some data[22] := List.getElem?_eq_getElem _
  simp only [hmin, if_false, indexRange_eq (b := data) (Nat.zero_le 8) (by omega), h8, h21, h22,
    Option.bind_eq_bind, Option.bind_some]
  by_cases hmagic : slice data 0 8 = magicBytes
  case neg => simp only [hmagic, ne_eq, not_false_eq_true, if_true, Eff.fail_apply]
  by_cases hversion : data[8] = legacyVersion
  case neg => simp only [hmagic, hversion, ne_eq, not_true, not_false_eq_true, if_true, if_false,
    Eff.fail_apply, Option.some.injEq]
  simp only [hmagic, hversion, ne_eq, not_true, if_false]
  rw [indexRange_eq (by omega) (by omega), indexRange_eq (by omega) (by omega),
    indexRange_eq (by omega) (by omega)]
  simp only [Option.bind_some, ← slice_pair (b := data) (i := 21) (by omega)]
  exact decryptBodyIndexed_eq ..

end

/-! ## The layout -/

/-- A well-formed version 1 file under a password. -/
structure LegacyFile (C : Crates) (password : Bytes) where
  params : KdfParams
  filename : Str
  salt : Salt
  nonce : Nonce
  key : Key
  content : Bytes
  ciphertext : Bytes
  params_valid : validateKdfParams params = .ok ()
  params_accepted : C.argon2Params params = .ok ()
  key_derived : C.hashPasswordInto params password salt.bytes = .ok key
  filename_bound : filename.bytes.length ≤ 65535
  content_sealed : C.aeadEncrypt key nonce content (legacyHeader params filename.bytes salt nonce) =
    .ok ciphertext

/-- magic, version, work factors, name length, name, salt and nonce, and the
content sealed over all of them -/
def LegacyFile.bytes {C : Crates} {password : Bytes} (x : LegacyFile C password) : Bytes :=
  legacyHeader x.params x.filename.bytes x.salt x.nonce ++ x.ciphertext

/-- The header up to the name. -/
def legacyStart (params : KdfParams) : Bytes := magicBytes ++ [legacyVersion] ++ params.encode

theorem length_legacyStart (params : KdfParams) : (legacyStart params).length = 21 := by
  simp [legacyStart, length_encode, magicBytes]

theorem legacyHeader_append (params : KdfParams) (filename : Bytes) (salt : Salt) (nonce : Nonce)
    (c : Bytes) : legacyHeader params filename salt nonce ++ c =
      legacyStart params ++ (toBe 2 filename.length ++ (filename ++ (salt.bytes ++ (nonce.bytes ++ c)))) := by
  simp [legacyHeader, legacyStart]

theorem length_legacyHeader (params : KdfParams) (filename : Bytes) (salt : Salt) (nonce : Nonce) :
    (legacyHeader params filename salt nonce).length = 51 + filename.length := by
  have hsalt := salt.length_eq
  have hnonce := nonce.length_eq
  have := congrArg List.length (legacyHeader_append params filename salt nonce [])
  simp only [List.append_nil, List.length_append, length_legacyStart, length_toBe, hsalt, hnonce,
    saltLength, nonceLength] at this
  omega

/-- The nine bytes and the work factors that a file starts with. -/
theorem eq_legacyStart {b : Bytes} (hlen : 21 ≤ b.length) (hmagic : slice b 0 8 = magicBytes)
    (hversion : b[8]? = some legacyVersion) :
    b.take 21 = legacyStart ⟨parseU32At b 9, parseU32At b 13, parseU32At b 17⟩ := by
  have hnine : slice b 8 9 = [legacyVersion] := by
    have h8 : b[8]? = some b[8] := List.getElem?_eq_getElem _
    rw [h8, Option.some.injEq] at hversion
    rw [← hversion]
    refine List.ext_getElem (by rw [slice_length (by omega)]; rfl) fun k hk _ => ?_
    rw [slice_length (by omega)] at hk
    obtain rfl : k = 0 := by omega
    simp [slice]
  simp only [legacyStart, KdfParams.encode, ← hmagic, ← hnine]
  rw [toBe_parseU32At (by omega), toBe_parseU32At (by omega), toBe_parseU32At (by omega)]
  have height : slice b 0 8 = b.take 8 := rfl
  simp only [← List.append_assoc, height]
  rw [take_append_slice (by omega), take_append_slice (by omega), take_append_slice (by omega),
    take_append_slice (by omega)]

theorem legacyStart_fields (params : KdfParams) (rest : Bytes) :
    let b := legacyStart params ++ rest
    slice b 0 8 = magicBytes ∧ b[8]? = some legacyVersion ∧
      (⟨parseU32At b 9, parseU32At b 13, parseU32At b 17⟩ : KdfParams) = params := by
  intro b
  have hmagic : slice b 0 8 = magicBytes := by
    simp only [b, legacyStart, List.append_assoc]
    rfl
  have hversion : b[8]? = some legacyVersion := by
    simp only [b, legacyStart, List.append_assoc]
    rfl
  refine ⟨hmagic, hversion, ?_⟩
  have hlen : 21 ≤ b.length := by simp [b, length_legacyStart]
  have hstart := eq_legacyStart hlen hmagic hversion
  have htake : b.take 21 = legacyStart params := by
    simp only [b]
    rw [List.take_append_of_le_length (by rw [length_legacyStart]),
      List.take_of_length_le (by rw [length_legacyStart])]
  rw [htake] at hstart
  exact (encode_injective (List.append_cancel_left hstart)).symm

section
variable {C : Crates} {password data : Bytes} {params : KdfParams} {log log' : List Work}
  {name : Str} {P : Bytes}

/-- Past the checks of the first bytes the decoder is its body. -/
theorem decryptFile_body (hlen : minimumSize ≤ data.length) (hmagic : slice data 0 8 = magicBytes)
    (hversion : data[8]? = some legacyVersion) :
    decryptFile C password data = decryptBody C password data
      ⟨parseU32At data 9, parseU32At data 13, parseU32At data 17⟩ (ofBe (slice data 21 23)) := by
  unfold decryptFile
  rw [if_neg (Nat.not_lt.2 hlen), if_neg (not_not.2 hmagic), if_neg (not_not.2 hversion)]
  rfl

/-- A file that is accepted passes the checks of its first bytes. -/
theorem decryptFile_start (h : decryptFile C password data log = (.ok (name, P), log')) :
    minimumSize ≤ data.length ∧ slice data 0 8 = magicBytes ∧ data[8]? = some legacyVersion := by
  unfold decryptFile at h
  split at h
  · cases h
  rename_i hmin
  split at h
  · cases h
  rename_i hmagic
  split at h
  · cases h
  rename_i hversion
  exact ⟨Nat.le_of_not_lt hmin, not_not.1 hmagic, not_not.1 hversion⟩

theorem Block.ofBytes?_eq_some {n : Nat} {b : Bytes} {x : Block n} (h : Block.ofBytes? n b = some x) :
    x.bytes = b := by
  unfold Block.ofBytes? at h
  split at h <;> cases h
  rfl

/-- What the body accepts is a sealed content behind a header. -/
theorem decryptBody_eq_ok (hC : C.Exact) {n : Nat}
    (h : decryptBody C password data params n log = (.ok (name, P), log')) :
    ∃ (salt : Salt) (nonce : Nonce) (key : Key), validateKdfParams params = .ok () ∧
      C.argon2Params params = .ok () ∧ C.hashPasswordInto params password salt.bytes = .ok key ∧
      C.aeadEncrypt key nonce P (data.take (51 + n)) = .ok (data.drop (51 + n)) ∧
      name.bytes.length = n ∧ 51 + n ≤ data.length ∧
      data = data.take 23 ++ (name.bytes ++ (salt.bytes ++ (nonce.bytes ++ data.drop (51 + n)))) := by
  have hnonceEnd : 23 + n + saltLength + nonceLength = 51 + n := by
    simp only [saltLength, nonceLength]; omega
  have hsaltEnd : 23 + n + saltLength = 39 + n := by simp only [saltLength]; omega
  unfold decryptBody at h
  by_cases hlong : data.length < 23 + n + saltLength + nonceLength + 16
  · simp only [hlong, if_true] at h; cases h
  simp only [hlong, if_false] at h
  rcases hname : Str.ofBytes? (slice data 23 (23 + n)) with _ | name' <;> simp only [hname] at h
  · cases h
  rcases hsalt : Block.ofBytes? saltLength (slice data (23 + n) (23 + n + saltLength)) with
    _ | salt <;> simp only [hsalt] at h
  · cases h
  rcases hnonce : Block.ofBytes? nonceLength
    (slice data (23 + n + saltLength) (23 + n + saltLength + nonceLength)) with
    _ | nonce <;> simp only [hnonce] at h
  · cases h
  obtain ⟨key, log₁, hkey, h⟩ := Eff.bind_eq_ok.1 h
  obtain ⟨plaintext, log₂, hdecrypt, h⟩ := Eff.bind_eq_ok.1 h
  obtain ⟨hvalid, haccepted, hderived, -⟩ := deriveKey_eq_ok.1 hkey
  obtain ⟨hopened, -⟩ := decrypt_eq_ok.1 hdecrypt
  cases h
  have hname := Str.ofBytes?_eq_some hname
  have hsalt := Block.ofBytes?_eq_some hsalt
  have hnonce := Block.ofBytes?_eq_some hnonce
  rw [hnonceEnd] at hlong hnonce hopened
  rw [hsaltEnd] at hsalt hnonce
  refine ⟨salt, nonce, key, hvalid, haccepted, hderived, hC.encrypt_decrypt _ _ _ _ _ hopened, ?_,
    by omega, ?_⟩
  · rw [hname, slice_length (by omega), Nat.add_sub_cancel_left]
  · rw [hname, hsalt, hnonce, ← List.append_assoc, take_append_slice (by omega),
      ← List.append_assoc, take_append_slice (by omega), ← List.append_assoc,
      take_append_slice (by omega), List.take_append_drop]

/-- An accepted file is a well-formed one. -/
theorem legacyFile_of_decrypted (hC : C.Exact)
    (h : decryptFile C password data log = (.ok (name, P), log')) :
    ∃ x : LegacyFile C password, x.bytes = data ∧ x.filename = name ∧ x.content = P := by
  obtain ⟨hlen, hmagic, hversion⟩ := decryptFile_start h
  rw [decryptFile_body hlen hmagic hversion] at h
  obtain ⟨salt, nonce, key, hvalid, haccepted, hderived, hsealed, hname, hlong, hdata⟩ :=
    decryptBody_eq_ok hC h
  have hlen : 67 ≤ data.length := hlen
  have hfield : toBe 2 name.bytes.length = slice data 21 23 := by
    rw [hname, toBe_ofBe_of_length (by rw [slice_length (by omega)])]
  have hheader : legacyHeader ⟨parseU32At data 9, parseU32At data 13, parseU32At data 17⟩ name.bytes
      salt nonce ++ data.drop (51 + ofBe (slice data 21 23)) = data := by
    rw [legacyHeader_append, ← eq_legacyStart (by omega) hmagic hversion, hfield, ← List.append_assoc,
      take_append_slice (by omega), ← hdata]
  have htake : data.take (51 + ofBe (slice data 21 23)) =
      legacyHeader ⟨parseU32At data 9, parseU32At data 13, parseU32At data 17⟩ name.bytes salt nonce := by
    have hlen := length_legacyHeader ⟨parseU32At data 9, parseU32At data 13, parseU32At data 17⟩
      name.bytes salt nonce
    rw [hname] at hlen
    exact (congrArg (List.take _) hheader).symm.trans (List.take_left' hlen)
  have hbound := ofBe_lt (slice data 21 23)
  rw [slice_length (by omega)] at hbound
  refine ⟨{
    params := ⟨parseU32At data 9, parseU32At data 13, parseU32At data 17⟩
    filename := name
    salt, nonce, key
    content := P
    ciphertext := data.drop (51 + ofBe (slice data 21 23))
    params_valid := hvalid
    params_accepted := haccepted
    key_derived := hderived
    filename_bound := by rw [hname]; omega
    content_sealed := by rw [← htake]; exact hsealed }, hheader, rfl, rfl⟩

/-- A well-formed file is accepted, whatever was asked of the crates before. -/
theorem decryptFile_ok (hC : C.Inverts) (x : LegacyFile C password) (log : List Work) :
    ∃ log', decryptFile C password x.bytes log = (.ok (x.filename, x.content), log') := by
  have hbytes : x.bytes = legacyStart x.params ++ (toBe 2 x.filename.bytes.length ++
      (x.filename.bytes ++ (x.salt.bytes ++ (x.nonce.bytes ++ x.ciphertext)))) :=
    legacyHeader_append ..
  have hlenc := hC.encrypt_length _ _ _ _ _ x.content_sealed
  have hlen : x.bytes.length = 51 + x.filename.bytes.length + x.ciphertext.length := by
    rw [LegacyFile.bytes, List.length_append, length_legacyHeader]
  obtain ⟨hmagic, hversion, hparams⟩ := legacyStart_fields x.params (toBe 2 x.filename.bytes.length ++
    (x.filename.bytes ++ (x.salt.bytes ++ (x.nonce.bytes ++ x.ciphertext))))
  rw [← hbytes] at hmagic hversion hparams
  have hbound := x.filename_bound
  have hfield : ofBe (slice x.bytes 21 23) = x.filename.bytes.length := by
    rw [hbytes, slice_append (length_legacyStart _) (by simp), ofBe_toBe (by omega)]
  rw [decryptFile_body (by simp only [minimumSize, tagSize] at hlenc ⊢; omega) hmagic hversion,
    hparams, hfield]
  have hstart : (legacyStart x.params ++ toBe 2 x.filename.bytes.length).length = 23 := by
    simp [length_legacyStart]
  have hname : slice x.bytes 23 (23 + x.filename.bytes.length) = x.filename.bytes := by
    rw [hbytes, ← List.append_assoc]
    exact slice_append hstart rfl
  have hsalt : slice x.bytes (23 + x.filename.bytes.length)
      (23 + x.filename.bytes.length + saltLength) = x.salt.bytes := by
    rw [hbytes, ← List.append_assoc, ← List.append_assoc]
    exact slice_append (by rw [List.length_append, hstart]) (by rw [x.salt.length_eq])
  have hnonce : slice x.bytes (23 + x.filename.bytes.length + saltLength)
      (23 + x.filename.bytes.length + saltLength + nonceLength) = x.nonce.bytes := by
    rw [hbytes, ← List.append_assoc, ← List.append_assoc, ← List.append_assoc]
    exact slice_append (by rw [List.length_append, List.length_append, hstart, x.salt.length_eq])
      (by rw [x.nonce.length_eq])
  have hend : 23 + x.filename.bytes.length + saltLength + nonceLength =
      (legacyHeader x.params x.filename.bytes x.salt x.nonce).length := by
    rw [length_legacyHeader]; simp only [saltLength, nonceLength]; omega
  have hdrop : x.bytes.drop (23 + x.filename.bytes.length + saltLength + nonceLength) =
      x.ciphertext := by rw [hend, LegacyFile.bytes, List.drop_left]
  have htake : x.bytes.take (23 + x.filename.bytes.length + saltLength + nonceLength) =
      legacyHeader x.params x.filename.bytes x.salt x.nonce := by
    rw [hend, LegacyFile.bytes, List.take_left]
  have hkey := deriveKey_eq_ok.2 (⟨x.params_valid, x.params_accepted, x.key_derived, rfl⟩ :
    _ ∧ _ ∧ _ ∧ _ = log ++ [.deriveKey password x.salt.bytes x.params])
  have hopen := hC.decrypt_encrypt _ _ _ _ _ x.content_sealed
  refine ⟨log ++ [.deriveKey password x.salt.bytes x.params] ++ [.decrypt x.key x.nonce x.ciphertext
    (legacyHeader x.params x.filename.bytes x.salt x.nonce)], ?_⟩
  unfold decryptBody
  rw [if_neg (by rw [hend, length_legacyHeader, hlen]; simp only [tagSize] at hlenc; omega), hname,
    hsalt, hnonce, Str.ofBytes?_bytes, Block.ofBytes?_of_length x.salt.length_eq,
    Block.ofBytes?_of_length x.nonce.length_eq, hdrop, htake]
  simp only
  rw [Eff.bind_ok hkey, Eff.bind_ok (decrypt_eq_ok.2 ⟨hopen, rfl⟩)]
  rfl

/-- What the one-shot encoder writes is a well-formed file. -/
theorem legacyFile_of_created {salt : Salt} {nonce : Nonce} {b : Bytes}
    (h : createEncryptedFileWithParams C salt nonce password name P params log = (.ok b, log')) :
    ∃ x : LegacyFile C password, x.bytes = b ∧ x.filename = name ∧ x.content = P := by
  unfold createEncryptedFileWithParams at h
  obtain ⟨key, log₁, hkey, h⟩ := Eff.bind_eq_ok.1 h
  obtain ⟨hvalid, haccepted, hderived, -⟩ := deriveKey_eq_ok.1 hkey
  by_cases hlong : name.bytes.length > 65535
  · simp only [hlong, if_true] at h; cases h
  simp only [hlong, if_false] at h
  obtain ⟨c, log₂, hc, h⟩ := Eff.bind_eq_ok.1 h
  cases h
  exact ⟨⟨params, name, salt, nonce, key, P, c, hvalid, haccepted, hderived, Nat.le_of_not_gt hlong,
    (encrypt_eq_ok.1 hc).1⟩, rfl, rfl, rfl⟩

end

/-- For every password and input: no index is out of range, and a name and a
content are returned exactly for the well-formed version 1 file of them. So the
decoder undoes the encoder, which fails only for a name over 65535 bytes or
where key derivation or the cipher does. -/
theorem decryptFile_accepts_iff {C : Crates} (hC : C.Exact) (password data : Bytes)
    (log : List Work) :
    decryptFileIndexed C password data log = some (decryptFile C password data log) ∧
    (∀ name P, (∃ log', decryptFile C password data log = (.ok (name, P), log')) ↔
      ∃ x : LegacyFile C password, x.bytes = data ∧ x.filename = name ∧ x.content = P) ∧
    ∀ salt nonce name P params log₁, name.bytes.length ≤ 65535 →
      ∀ r log₂, createEncryptedFileWithParams C salt nonce password name P params log₁ = (r, log₂) →
        (∃ b, r = .ok b ∧ ∃ log', decryptFile C password b log = (.ok (name, P), log')) ∨
        (∃ e, r = .error e ∧ (deriveKeyFromPassword C password salt.bytes params log₁ = (.error e, log₂) ∨
          ∃ key log', deriveKeyFromPassword C password salt.bytes params log₁ = (.ok key, log') ∧
            encrypt C key nonce P (legacyHeader params name.bytes salt nonce) log' = (.error e, log₂))) := by
  refine ⟨decryptFileIndexed_eq .., fun name P => ⟨?_, ?_⟩, ?_⟩
  · rintro ⟨log', h⟩
    exact legacyFile_of_decrypted hC h
  · rintro ⟨x, rfl, rfl, rfl⟩
    exact decryptFile_ok hC.toInverts x log
  · intro salt nonce name P params log₁ hname r log₂ h
    cases r with
    | ok b =>
      obtain ⟨x, rfl, rfl, rfl⟩ := legacyFile_of_created h
      exact .inl ⟨_, rfl, decryptFile_ok hC.toInverts x log⟩
    | error e =>
      refine .inr ⟨e, rfl, ?_⟩
      unfold createEncryptedFileWithParams at h
      rcases Eff.bind_eq_error.1 h with h | ⟨key, log', hkey, h⟩
      · exact .inl h
      simp only [if_neg (Nat.not_lt.2 hname)] at h
      rcases Eff.bind_eq_error.1 h with h | ⟨c, log'', -, h⟩
      · exact .inr ⟨key, log', hkey, h⟩
      · cases h

/-- The letter `a` with a content under the checksum cipher. -/
def legacyA : Bytes := ((createEncryptedFileWithParams .checksummed (.zero 16) (.zero 12) [112, 119] letterA
  [1, 2, 3] .current []).1.toOption).getD []

theorem decryptFile_accepts_iff_checksummed : legacyA ≠ [] ∧
    (∃ log, decryptFile .checksummed [112, 119] legacyA [] = (.ok (letterA, [1, 2, 3]), log)) ∧
    ∃ x : LegacyFile .checksummed [112, 119], x.bytes = legacyA ∧ x.content = [1, 2, 3] := by
  have hcreate := Eff.run_eq_ok (m := createEncryptedFileWithParams .checksummed (.zero 16) (.zero 12)
    [112, 119] letterA [1, 2, 3] .current) (s := []) (a := legacyA) (by decide +kernel)
  obtain ⟨-, haccepts, hinverts⟩ :=
    decryptFile_accepts_iff Crates.checksummed_exact [112, 119] legacyA []
  have hread := hinverts (.zero 16) (.zero 12) letterA [1, 2, 3] .current [] (by decide) _ _ hcreate
  rcases hread with ⟨b, hb, hread⟩ | ⟨e, he, -⟩
  · cases hb
    obtain ⟨x, hbytes, -, hcontent⟩ := (haccepts letterA [1, 2, 3]).1 hread
    exact ⟨by decide +kernel, hread, x, hbytes, hcontent⟩
  · cases he

end Ironlock
