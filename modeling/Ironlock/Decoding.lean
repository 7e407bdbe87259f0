import Ironlock.Delivery
import Ironlock.StreamLayout

/-! What the decryptor takes from its input, record by record, and that it
takes exactly the well-formed streams. -/

namespace Ironlock
open ByteOrder
open Effect

variable {C : Crates}

/-! ## What was read -/

theorem decryptRecordBody_eq_ok {key : Key} {baseNonce : Nonce} {header record p b : Bytes}
    {sequence maxPlaintext : Nat} {s s' : Streams} (hs : s.reader.Delivers b)
    (h : decryptRecordBody C key baseNonce header record sequence maxPlaintext s = (.ok p, s')) :
    ∃ c rest, b = c ++ rest ∧ c.length = ofBe (slice record 9 13) ∧ tagSize ≤ c.length ∧
      c.length - tagSize ≤ maxPlaintext ∧
      C.aeadDecrypt key (deriveRecordNonce baseNonce sequence) c (header ++ record) = some p ∧
      s'.reader.Delivers rest ∧ s'.writer = s.writer := by
  unfold decryptRecordBody at h
  by_cases hlim : ofBe (slice record 9 13) < tagSize ∨
      maxPlaintext < ofBe (slice record 9 13) - tagSize
  · simp [hlim] at h
  · simp only [hlim, if_false] at h
    obtain ⟨_, s₁, halloc, h⟩ := Eff.bind_eq_ok.1 h
    obtain ⟨c, s₂, hread, h⟩ := Eff.bind_eq_ok.1 h
    obtain ⟨-, hs₁⟩ := liftCrypto_eq_ok.1 halloc
    have hs₁' : s₁.reader.Delivers b := by rw [hs₁]; exact hs
    obtain ⟨rest, rfl, hlen, hrest, hs₂⟩ := readExactFormat_eq_ok hs₁' hread
    obtain ⟨hdec, hs'⟩ := liftCrypto_eq_ok.1 h
    obtain ⟨hdec, -⟩ := decrypt_eq_ok.1 hdec
    refine ⟨c, rest, rfl, hlen, by omega, by omega, hdec, by rw [hs']; exact hrest, ?_⟩
    rw [hs', hs₂, hs₁]

/-- A record of the one type and number asked for. -/
theorem readRecord_eq_ok {key : Key} {baseNonce : Nonce} {header p b : Bytes}
    {sequence maxPlaintext : Nat} {kind : UInt8} {s s' : Streams} (hs : s.reader.Delivers b)
    (h : readRecord C key baseNonce header sequence (some kind) maxPlaintext s = (.ok p, s')) :
    ∃ c rest, b = recordHead kind sequence c.length ++ c ++ rest ∧ c.length < 2 ^ 32 ∧
      tagSize ≤ c.length ∧ c.length - tagSize ≤ maxPlaintext ∧
      C.aeadDecrypt key (deriveRecordNonce baseNonce sequence) c
        (header ++ recordHead kind sequence c.length) = some p ∧
      s'.reader.Delivers rest ∧ s'.writer = s.writer := by
  obtain ⟨record, s₁, hrecord, h⟩ := Eff.bind_eq_ok.1 h
  obtain ⟨rest₁, rfl, hlen, hrest₁, hs₁⟩ := readExactFormat_eq_ok hs hrecord
  have hhead := eq_recordHead hlen
  by_cases hkind : record.head? = some kind
  case neg => rw [if_pos (by simpa using hkind)] at h; cases h
  rw [if_neg (by simpa using hkind)] at h
  by_cases hseq : ofBe (slice record 1 9) = sequence
  case neg => simp only [hseq, ne_eq, not_false_eq_true, if_true] at h; cases h
  simp only [hseq, ne_eq, not_true_eq_false, if_false] at h
  obtain ⟨c, rest, rfl, hclen, htag, hmax, hdec, hrest, hwriter⟩ :=
    decryptRecordBody_eq_ok hrest₁ h
  have hk : record.headD 0 = kind := by rw [List.headD_eq_head?_getD, hkind]; rfl
  rw [hk, hseq, ← hclen] at hhead
  have h4 := ofBe_lt (slice record 9 13)
  rw [slice_length (by rw [hlen]; decide)] at h4
  exact ⟨c, rest, by rw [← hhead, List.append_assoc], by omega, htag, hmax,
    by rw [← hhead]; exact hdec, hrest, by rw [hwriter, hs₁]⟩

/-- The next record as the decrypt loop takes it. -/
theorem readNextRecord_eq_ok {state state' : V2State} {kind : UInt8} {p b : Bytes}
    {s s' : Streams} (hs : s.reader.Delivers b)
    (h : readNextRecord C state s = (.ok (kind, p, state'), s')) :
    ∃ c rest, b = recordHead kind state.nextSequence c.length ++ c ++ rest ∧
      (kind = recordData ∨ kind = recordFinal) ∧ c.length < 2 ^ 32 ∧ tagSize ≤ c.length ∧
      (kind = recordData → c.length - tagSize ≤ state.chunkSize) ∧
      C.aeadDecrypt state.key (deriveRecordNonce state.baseNonce state.nextSequence) c
        (state.header ++ recordHead kind state.nextSequence c.length) = some p ∧
      state.nextSequence + 1 < 2 ^ 64 ∧
      state' = { state with nextSequence := state.nextSequence + 1 } ∧
      s'.reader.Delivers rest ∧ s'.writer = s.writer := by
  obtain ⟨record, s₁, hrecord, h⟩ := Eff.bind_eq_ok.1 h
  obtain ⟨rest₁, rfl, hlen, hrest₁, hs₁⟩ := readExactFormat_eq_ok hs hrecord
  have hhead := eq_recordHead hlen
  by_cases hseq : ofBe (slice record 1 9) ≠ state.nextSequence
  · simp [hseq] at h
  rw [not_not] at hseq
  simp only [hseq, ne_eq, not_true_eq_false, if_false] at h
  by_cases hkind : ¬record.headD 0 = recordData ∧ ¬record.headD 0 = recordFinal
  · rw [if_pos hkind] at h; cases h
  rw [if_neg hkind] at h
  obtain ⟨p', s₂, hbody, h⟩ := Eff.bind_eq_ok.1 h
  obtain ⟨next, s₃, hnext, h⟩ := Eff.bind_eq_ok.1 h
  rw [Eff.ofExcept_apply, Prod.mk.injEq, checkedAdd_eq_ok] at hnext
  obtain ⟨⟨hlt, rfl⟩, rfl⟩ := hnext
  obtain ⟨c, rest, rfl, hclen, htag, hmax, hdec, hrest, hwriter⟩ :=
    decryptRecordBody_eq_ok hrest₁ hbody
  cases h
  rw [hseq, ← hclen] at hhead
  have h4 := ofBe_lt (slice record 9 13)
  rw [slice_length (by rw [hlen]; decide)] at h4
  refine ⟨c, rest, by rw [← hhead, List.append_assoc], ?_, by omega, htag, fun hd => ?_,
    by rw [← hhead]; exact hdec, hlt, rfl, hrest, by rw [hwriter, hs₁]⟩
  · by_cases hd : record.headD 0 = recordData
    · exact .inl hd
    · exact .inr (by_contra fun hf => hkind ⟨hd, hf⟩)
  · rwa [if_pos hd] at hmax

/-- What a version 2 header and its metadata record must be for the decryptor
to be made. -/
theorem newV2_eq_ok {password start b : Bytes} {s s' : Streams} {d : StreamDecryptor}
    (hstart : start = magicBytes ++ [formatVersion]) (hs : s.reader.Delivers b)
    (h : StreamDecryptor.newV2 C password start s = (.ok d, s')) :
    ∃ params chunkSize salt baseNonce key c rest,
      start ++ b = streamHeader params chunkSize salt baseNonce ++
        (recordHead recordMetadata 0 c.length ++ c ++ rest) ∧
      validateKdfParams params = .ok () ∧ C.argon2Params params = .ok () ∧
      C.hashPasswordInto params password salt.bytes = .ok key ∧
      1024 ≤ chunkSize ∧ chunkSize ≤ maxChunkSize ∧
      c.length < 2 ^ 32 ∧ tagSize ≤ c.length ∧ c.length - tagSize ≤ maxFilenameBytes + 2 ∧
      C.aeadDecrypt key (deriveRecordNonce baseNonce 0) c
        (streamHeader params chunkSize salt baseNonce ++ recordHead recordMetadata 0 c.length) =
          some (toBe 2 d.filename.bytes.length ++ d.filename.bytes) ∧
      1 ≤ d.filename.bytes.length ∧ d.filename.bytes.length ≤ 65535 ∧
      d.mode = .v2 ⟨key, streamHeader params chunkSize salt baseNonce, baseNonce, chunkSize, 1⟩ ∧
      s'.reader.Delivers rest ∧ s'.writer = s.writer := by
  unfold StreamDecryptor.newV2 at h
  obtain ⟨more, s₁, hmore, h⟩ := Eff.bind_eq_ok.1 h
  obtain ⟨rest₁, rfl, hlen, hrest₁, hs₁⟩ := readExactFormat_eq_ok hs hmore
  have hheader : (start ++ more).length = headerSize := by
    rw [List.length_append, hlen, hstart]; rfl
  obtain ⟨hsalt, hnonce, heq⟩ := eq_streamHeader hheader
    (by rw [List.take_left' (by rw [hstart]; rfl), hstart])
  generalize hparams : (⟨parseU32At (start ++ more) 9, parseU32At (start ++ more) 13,
    parseU32At (start ++ more) 17⟩ : KdfParams) = params at h heq
  generalize hsize : (parseU32At (start ++ more) 21).toNat = chunkSize at h heq
  generalize hsaltd : (⟨slice (start ++ more) 25 41, hsalt⟩ : Salt) = salt at h heq
  generalize hnonced : (⟨slice (start ++ more) 41 53, hnonce⟩ : Nonce) = baseNonce at h heq
  simp only at h
  by_cases hrange : chunkSize < 1024 ∨ maxChunkSize < chunkSize
  · rw [if_pos hrange] at h; cases h
  rw [if_neg hrange, Block.ofBytes?_of_length hsalt, Block.ofBytes?_of_length hnonce, hsaltd,
    hnonced] at h
  obtain ⟨key, s₂, hkey, h⟩ := Eff.bind_eq_ok.1 h
  obtain ⟨hkey, hs₂⟩ := liftCrypto_eq_ok.1 hkey
  obtain ⟨hvalid, haccepted, hderived, -⟩ := deriveKey_eq_ok.1 hkey
  obtain ⟨metadata, s₃, hmetadata, h⟩ := Eff.bind_eq_ok.1 h
  rw [heq] at hmetadata h
  have hrest₂ : s₂.reader.Delivers rest₁ := by rw [hs₂]; exact hrest₁
  obtain ⟨c, rest, rfl, hc, htag, hmax, hdec, hrest, hwriter⟩ := readRecord_eq_ok hrest₂ hmetadata
  by_cases hshort : metadata.length < 2
  · rw [if_pos hshort] at h; cases h
  simp only [if_neg hshort] at h
  by_cases hname : metadata.length = ofBe (slice metadata 0 2) + 2
  case neg => rw [if_pos hname] at h; cases h
  rw [if_neg (not_not.2 hname)] at h
  cases hutf : Str.ofBytes? (metadata.drop 2) with
  | none => simp only [hutf] at h; cases h
  | some filename =>
    simp only [hutf] at h
    by_cases hempty : filename.bytes = []
    · rw [if_pos hempty] at h; cases h
    rw [if_neg hempty] at h
    cases h
    have hbytes : filename.bytes = metadata.drop 2 := Str.ofBytes?_eq_some hutf
    have hlen2 : filename.bytes.length = ofBe (slice metadata 0 2) := by
      rw [hbytes, List.length_drop]; omega
    have hlt := ofBe_lt (slice metadata 0 2)
    rw [slice_length (by omega)] at hlt
    have hmeta : metadata = toBe 2 filename.bytes.length ++ filename.bytes := by
      rw [hlen2, toBe_ofBe_of_length (n := 2) (slice_length (by omega)), hbytes]
      simp [slice]
    refine ⟨params, chunkSize, salt, baseNonce, key, c, rest, ?_, hvalid, haccepted, hderived,
      by omega, by omega, hc, htag, hmax, by rw [← hmeta]; exact hdec,
      List.length_pos_of_ne_nil hempty, Nat.le_of_lt_succ (hlen2 ▸ hlt), rfl, hrest, by rw [hwriter, hs₂, hs₁]⟩
    rw [← heq]
    simp

theorem acceptData_eq_ok {p : Bytes} {total count : Nat} {s s' : Streams} {totals : Nat × Nat}
    (h : acceptData p total count s = (.ok totals, s')) :
    1 ≤ p.length ∧ total + p.length < 2 ^ 64 ∧ totals = (total + p.length, count + 1) ∧
      s'.writer.written = s.writer.written ++ p ∧ s'.reader = s.reader := by
  unfold acceptData at h
  by_cases hp : p = []
  · rw [if_pos hp] at h; cases h
  rw [if_neg hp] at h
  simp only [Eff.bind_eq_ok, Eff.ofExcept_apply, Prod.mk.injEq, checkedAdd_eq_ok] at h
  obtain ⟨_, s₁, hwrite, _, _, ⟨⟨hlt, rfl⟩, rfl⟩, _, _, ⟨⟨-, rfl⟩, rfl⟩, h⟩ := h
  cases h
  obtain ⟨hwritten, hs'⟩ := writeAll_eq_ok hwrite
  exact ⟨List.length_pos_of_ne_nil hp, hlt, rfl, hwritten, by rw [hs']⟩

/-- The final record must spell the totals, and nothing may follow it. -/
theorem acceptFinal_eq_ok {p b : Bytes} {total count m : Nat} {s s' : Streams}
    (hs : s.reader.Delivers b) (h : acceptFinal p total count s = (.ok m, s')) :
    p = toBe 8 total ++ toBe 8 count ∧ b = [] ∧ m = total ∧ s'.writer = s.writer := by
  unfold acceptFinal at h
  by_cases hlen : p.length = finalPlaintextSize
  case neg => rw [if_pos hlen] at h; cases h
  rw [if_neg (not_not.2 hlen)] at h
  by_cases htotals : ofBe (slice p 0 8) ≠ total ∨ ofBe (slice p 8 16) ≠ count
  · simp only [htotals, if_true] at h; cases h
  simp only [htotals, if_false] at h
  obtain ⟨trailing, s₁, htrailing, h⟩ := Eff.bind_eq_ok.1 h
  obtain ⟨got, rest, r', hnext, rfl, -, -, hend⟩ := hs.nextRead Nat.one_ne_zero
  simp only [liftRead, hnext, Prod.mk.injEq, Except.ok.injEq] at htrailing
  obtain ⟨rfl, rfl⟩ := htrailing
  by_cases hgot : got = []
  case neg => rw [if_pos hgot] at h; cases h
  rw [if_neg (not_not.2 hgot)] at h
  cases h
  have hlen : p.length = 16 := hlen
  simp only [not_or, ne_eq, not_not] at htotals
  refine ⟨?_, hend hgot, rfl, rfl⟩
  rw [← htotals.1, ← htotals.2, toBe_ofBe_of_length (n := 8) (slice_length (by omega)),
    toBe_ofBe_of_length (n := 8) (slice_length (by omega))]
  have : slice p 0 8 = p.take 8 := by simp [slice]
  rw [this, take_append_slice (by omega), List.take_of_length_le (by omega)]

/-! ## The two directions -/

/-- What is assumed of the crates: decryption undoes encryption under one key,
nonce and associated data, and a ciphertext is one tag longer than its plaintext. -/
structure Crates.Inverts (C : Crates) : Prop where
  decrypt_encrypt : ∀ key nonce p aad c,
    C.aeadEncrypt key nonce p aad = .ok c → C.aeadDecrypt key nonce c aad = some p
  encrypt_length : ∀ key nonce p aad c,
    C.aeadEncrypt key nonce p aad = .ok c → c.length = p.length + tagSize

/-- Decryption moreover accepts nothing but what encryption gives. -/
structure Crates.Exact (C : Crates) : Prop extends C.Inverts where
  encrypt_decrypt : ∀ key nonce c aad p,
    C.aeadDecrypt key nonce c aad = some p → C.aeadEncrypt key nonce p aad = .ok c

/-- Sixteen bytes over all that an encryption is given. -/
def checksum (key : Key) (nonce : Nonce) (p aad : Bytes) : Bytes :=
  toBe tagSize (ofBe (key.bytes ++ nonce.bytes ++ aad ++ p))

/-- A cipher that hides nothing and tags a plaintext with its checksum. -/
def Crates.checksummed : Crates where
  argon2Params _ := .ok ()
  hashPasswordInto _ password salt := .ok ⟨toBe keyLength (ofBe (password ++ salt)), length_toBe ..⟩
  aeadEncrypt key nonce p aad := .ok (p ++ checksum key nonce p aad)
  aeadDecrypt key nonce c aad :=
    let p := c.take (c.length - tagSize)
    if c = p ++ checksum key nonce p aad then some p else none

theorem Crates.checksummed_exact : Crates.checksummed.Exact where
  decrypt_encrypt key nonce p aad c h := by
    cases h
    simp [checksummed, checksum]
  encrypt_length key nonce p aad c h := by
    cases h
    simp [checksum]
  encrypt_decrypt key nonce c aad p h := by
    simp only [checksummed] at h ⊢
    split at h
    · rename_i heq
      cases h
      exact congrArg _ heq.symm
    · cases h

/-- The name "a". -/
def letterA : Str := ⟨[97], .refl true⟩

/-! ## Whole streams -/

/-- A record that was decrypted is one that was sealed. -/
theorem Crates.Exact.sealed {C : Crates} (hC : C.Exact) {key : Key} {baseNonce : Nonce}
    {header c p rest : Bytes} {kind : UInt8} {sequence : Nat} {rs : List Record}
    (hdec : C.aeadDecrypt key (deriveRecordNonce baseNonce sequence) c
      (header ++ recordHead kind sequence c.length) = some p)
    (hrest : Sealed C key baseNonce header (sequence + 1) rs rest) :
    c.length = p.length + tagSize ∧ Sealed C key baseNonce header sequence (⟨kind, p⟩ :: rs)
      (recordHead kind sequence c.length ++ c ++ rest) := by
  have henc := hC.encrypt_decrypt _ _ _ _ _ hdec
  have hlen := hC.encrypt_length _ _ _ _ _ henc
  rw [hlen] at henc ⊢
  exact ⟨rfl, .cons henc hrest⟩

/-- A loop that succeeds has read numbered data records and the final record
over them, to the end of the input. -/
theorem decryptChunks_eq_ok (hC : C.Exact) {state : V2State} {total count m : Nat} {b : Bytes}
    {s s' : Streams} (hs : s.reader.Delivers b) (htotal : total < 2 ^ 64)
    (h : decryptChunks C state total count s = (.ok m, s')) :
    ∃ chunks : List Bytes,
      Sealed C state.key state.baseNonce state.header state.nextSequence
        (dataRecords chunks ++ [⟨recordFinal, toBe 8 (total + chunks.flatten.length) ++
          toBe 8 (count + chunks.length)⟩]) b ∧
      (∀ c ∈ chunks, 1 ≤ c.length ∧ c.length ≤ state.chunkSize) ∧
      total + chunks.flatten.length < 2 ^ 64 ∧
      state.nextSequence + chunks.length + 1 < 2 ^ 64 ∧
      m = total + chunks.flatten.length ∧
      s'.writer.written = s.writer.written ++ chunks.flatten := by
  fun_induction decryptChunks C state total count s generalizing b with
  | case1 => cases h
  | case2 => cases h
  | case3 state total count s p state₁ s₁ t n s₂ haccept hread ih =>
    obtain ⟨c, rest, rfl, -, -, htag, hmax, hdec, hlt, rfl, hrest, hw₁⟩ := readNextRecord_eq_ok hs hread
    obtain ⟨hpos, hsum, heq, hw₂, hr₂⟩ := acceptData_eq_ok haccept
    cases heq
    obtain ⟨chunks, hsealed, hbounds, hsum', hcount, rfl, hw'⟩ := ih (hr₂ ▸ hrest) hsum h
    obtain ⟨hlen, hsealed⟩ := hC.sealed hdec hsealed
    have hmax := hmax rfl
    refine ⟨p :: chunks, ?_, ?_, ?_, ?_, ?_, ?_⟩
    · simpa [dataRecords, Nat.add_assoc, Nat.add_comm, Nat.add_left_comm] using hsealed
    · rintro c' (_ | ⟨_, hc'⟩)
      · exact ⟨hpos, by omega⟩
      · exact hbounds c' hc'
    · simp only [List.flatten_cons, List.length_append]; omega
    · simp only [List.length_cons] at hcount ⊢; omega
    · simp only [List.flatten_cons, List.length_append]; omega
    · rw [hw', hw₂, hw₁]; simp
  | case4 state total count s p state₁ s₁ hread hne =>
    obtain ⟨c, rest, rfl, -, -, htag, -, hdec, hlt, rfl, hrest, hw₁⟩ := readNextRecord_eq_ok hs hread
    obtain ⟨rfl, rfl, rfl, hw⟩ := acceptFinal_eq_ok hrest h
    obtain ⟨-, hsealed⟩ := hC.sealed hdec (.nil _)
    exact ⟨[], by simpa [dataRecords] using hsealed, by simp, by simpa, by simpa using hlt, by simp, by simp [hw, hw₁]⟩
  | case5 => cases h

/-! ## Reading a stream back -/

section
variable {key : Key} {baseNonce : Nonce} {header : Bytes}

/-- A sealed record within the limits is opened. -/
theorem decryptRecordBody_ok (hC : C.Inverts) {r : Record} {sequence maxPlaintext : Nat}
    {c rest : Bytes} {s : Streams} (henc : r.encrypted C key baseNonce header sequence = .ok c)
    (hs : s.reader.Delivers (c ++ rest)) (hmax : r.plaintext.length ≤ maxPlaintext)
    (hseq : sequence < 2 ^ 64) (hlim : maxPlaintext ≤ maxChunkSize) :
    ∃ s', decryptRecordBody C key baseNonce header (r.head sequence) sequence maxPlaintext s =
      (.ok r.plaintext, s') ∧ s'.reader.Delivers rest ∧ s'.writer = s.writer := by
  have hlen := hC.encrypt_length _ _ _ _ _ henc
  have hdec := hC.decrypt_encrypt _ _ _ _ _ henc
  have hsmall : r.plaintext.length + tagSize < 2 ^ 32 := by
    simp only [maxChunkSize, tagSize] at hlim ⊢; omega
  have hfield : ofBe (slice (r.head sequence) 9 13) = c.length := by
    rw [hlen]; exact (recordHead_fields r.kind hseq hsmall).2.2
  have hrange : ¬(c.length < tagSize ∨ maxPlaintext < c.length - tagSize) := by omega
  have halloc : allocate c.length s = (.ok (), { s with work := s.work ++ [.allocate c.length] }) := rfl
  obtain ⟨r', hread, hr'⟩ := readExactFormat_ok
    (s := { s with work := s.work ++ [.allocate c.length] }) hs rfl
  unfold decryptRecordBody
  rw [hfield]
  simp only [if_neg hrange]
  rw [Eff.bind_ok halloc, Eff.bind_ok hread]
  exact ⟨_, liftCrypto_ok (decrypt_eq_ok.2 ⟨hdec, rfl⟩), hr', rfl⟩

/-- The next record of the loop, when it is one the format allows there. -/
theorem readNextRecord_ok (hC : C.Inverts) {state : V2State} {r : Record} {c rest : Bytes}
    {s : Streams}
    (henc : r.encrypted C state.key state.baseNonce state.header state.nextSequence = .ok c)
    (hs : s.reader.Delivers (r.head state.nextSequence ++ c ++ rest))
    (hkind : r.kind = recordData ∧ r.plaintext.length ≤ state.chunkSize ∨
      r.kind = recordFinal ∧ r.plaintext.length ≤ finalPlaintextSize)
    (hsize : state.chunkSize ≤ maxChunkSize) (hseq : state.nextSequence + 1 < 2 ^ 64) :
    ∃ s', readNextRecord C state s =
      (.ok (r.kind, r.plaintext, { state with nextSequence := state.nextSequence + 1 }), s') ∧
      s'.reader.Delivers rest ∧ s'.writer = s.writer := by
  have hlen := r.length_head state.nextSequence
  have hmax : r.plaintext.length ≤
      (if r.kind = recordData then state.chunkSize else finalPlaintextSize) := by
    rcases hkind with ⟨hk, hle⟩ | ⟨hk, hle⟩
    · rwa [if_pos hk]
    · rwa [if_neg (by rw [hk]; decide)]
  have hlim : (if r.kind = recordData then state.chunkSize else finalPlaintextSize) ≤ maxChunkSize := by
    split
    · exact hsize
    · decide
  have hsmall : r.plaintext.length + tagSize < 2 ^ 32 := by
    simp only [maxChunkSize, tagSize] at hlim ⊢; omega
  obtain ⟨hhead, hfield, -⟩ := recordHead_fields r.kind (by omega : state.nextSequence < 2 ^ 64) hsmall
  have hfield : ofBe (slice (r.head state.nextSequence) 1 9) = state.nextSequence := hfield
  have hhead : (r.head state.nextSequence).headD 0 = r.kind := by
    have : (r.head state.nextSequence).head? = some r.kind := hhead
    rw [List.headD_eq_head?_getD, this]; rfl
  have hallowed : ¬(r.kind ≠ recordData ∧ r.kind ≠ recordFinal) := by
    rcases hkind with ⟨hk, -⟩ | ⟨hk, -⟩ <;> simp [hk]
  rw [List.append_assoc] at hs
  obtain ⟨r₁, hread, hr₁⟩ := readExactFormat_ok hs hlen
  obtain ⟨s₂, hbody, hr₂, hw₂⟩ := decryptRecordBody_ok (s := { s with reader := r₁ }) hC henc hr₁ hmax
    (by omega) hlim
  have hnext : checkedAdd state.nextSequence 1 "record counter exhausted" =
      .ok (state.nextSequence + 1) := checkedAdd_eq_ok.2 ⟨hseq, rfl⟩
  refine ⟨s₂, ?_, hr₂, hw₂⟩
  unfold readNextRecord
  rw [Eff.bind_ok hread]
  simp only [hhead, hfield, ne_eq, not_true_eq_false, if_false]
  rw [if_neg hallowed, Eff.bind_ok hbody, hnext]
  rfl

theorem acceptData_ok {p : Bytes} {total count : Nat} {s : Streams} (hp : 1 ≤ p.length)
    (htotal : total + p.length < 2 ^ 64) (hcount : count + 1 < 2 ^ 64)
    (haccept : s.writer.Accepting) :
    ∃ s', acceptData p total count s = (.ok (total + p.length, count + 1), s') ∧
      s'.reader = s.reader ∧ s'.writer.written = s.writer.written ++ p ∧ s'.writer.Accepting := by
  obtain ⟨w, hwrite, hwritten, hw⟩ := writeAll_accepting p haccept
  have hne : p ≠ [] := by rintro rfl; simp at hp
  refine ⟨{ s with writer := w }, ?_, rfl, hwritten, hw⟩
  unfold acceptData
  rw [if_neg hne, Eff.bind_ok hwrite, checkedAdd_eq_ok.2 ⟨htotal, rfl⟩,
    checkedAdd_eq_ok.2 ⟨hcount, rfl⟩]
  rfl

theorem acceptFinal_ok {total count : Nat} {s : Streams} (htotal : total < 2 ^ 64)
    (hcount : count < 2 ^ 64) (hs : s.reader.Delivers []) :
    ∃ s', acceptFinal (toBe 8 total ++ toBe 8 count) total count s = (.ok total, s') ∧
      s'.writer = s.writer := by
  have hlen : ofBe (slice (toBe 8 total ++ toBe 8 count) 0 8) = total := by
    have : slice ([] ++ (toBe 8 total ++ toBe 8 count)) 0 8 = toBe 8 total :=
      slice_append rfl (by simp)
    rw [List.nil_append] at this
    rw [this, ofBe_toBe (by omega)]
  have hchunks : ofBe (slice (toBe 8 total ++ toBe 8 count) 8 16) = count := by
    have : slice (toBe 8 total ++ (toBe 8 count ++ [])) 8 16 = toBe 8 count :=
      slice_append (by simp) (by simp)
    rw [List.append_nil] at this
    rw [this, ofBe_toBe (by omega)]
  obtain ⟨got, rest, r', hnext, hnil, -⟩ := hs.nextRead Nat.one_ne_zero
  obtain ⟨rfl, -⟩ := List.append_eq_nil_iff.1 hnil.symm
  refine ⟨{ s with reader := r' }, ?_, rfl⟩
  unfold acceptFinal
  rw [if_neg (by simp [finalPlaintextSize])]
  simp only [hlen, hchunks, ne_eq, not_true_eq_false, or_self, if_false]
  rw [Eff.bind_ok (a := []) (t := { s with reader := r' }) (by simp [liftRead, hnext])]
  rfl

/-- The loop reads back the records of a stream and writes their content. -/
theorem decryptChunks_ok (hC : C.Inverts) {state : V2State} {chunks : List Bytes}
    {total count : Nat} {b : Bytes} {s : Streams}
    (hsealed : Sealed C state.key state.baseNonce state.header state.nextSequence
      (dataRecords chunks ++ [⟨recordFinal, toBe 8 (total + chunks.flatten.length) ++
        toBe 8 (count + chunks.length)⟩]) b)
    (hs : s.reader.Delivers b) (haccept : s.writer.Accepting)
    (hbounds : ∀ c ∈ chunks, 1 ≤ c.length ∧ c.length ≤ state.chunkSize)
    (hsize : state.chunkSize ≤ maxChunkSize)
    (htotal : total + chunks.flatten.length < 2 ^ 64)
    (hcount : count + chunks.length < 2 ^ 64)
    (hseq : state.nextSequence + chunks.length + 1 < 2 ^ 64) :
    ∃ s', decryptChunks C state total count s = (.ok (total + chunks.flatten.length), s') ∧
      s'.writer.written = s.writer.written ++ chunks.flatten := by
  induction chunks generalizing state total count b s with
  | nil =>
    cases hsealed with
    | @cons _ _ _ c _ henc hnil =>
      cases hnil
      obtain ⟨s₁, hread, hr₁, hw₁⟩ := readNextRecord_ok hC henc hs
        (.inr ⟨rfl, by simp [finalPlaintextSize]⟩) hsize (by simpa using hseq)
      obtain ⟨s₂, hfinal, hw₂⟩ := acceptFinal_ok (by simpa using htotal) (by simpa using hcount) hr₁
      refine ⟨s₂, ?_, by simp [hw₂, hw₁]⟩
      rw [decryptChunks_final hread]
      exact hfinal
  | cons p chunks ih =>
    cases hsealed with
    | @cons _ _ _ c body henc hrest =>
      obtain ⟨hpos, hle⟩ := hbounds p (by simp)
      simp only [List.flatten_cons, List.length_append, List.length_cons] at htotal hcount hseq
      obtain ⟨s₁, hread, hr₁, hw₁⟩ := readNextRecord_ok hC henc hs (.inl ⟨rfl, hle⟩) hsize (by omega)
      obtain ⟨s₂, hdata, hr₂, hw₂, hacc₂⟩ := acceptData_ok (s := s₁) hpos
        (by omega : total + p.length < 2 ^ 64) (by omega : count + 1 < 2 ^ 64) (hw₁ ▸ haccept)
      obtain ⟨s₃, hloop, hw₃⟩ := @ih { state with nextSequence := state.nextSequence + 1 }
        (total + p.length) (count + 1) body s₂
        (by simpa [dataRecords, Nat.add_assoc, Nat.add_comm, Nat.add_left_comm] using hrest)
        (hr₂ ▸ hr₁) hacc₂ (fun c hc => hbounds c (by simp [hc])) hsize (by omega) (by omega)
        (by simp only; omega)
      refine ⟨s₃, ?_, by rw [hw₃, hw₂, hw₁]; simp⟩
      rw [decryptChunks_data hread hdata, hloop]
      simp [Nat.add_assoc]

/-- The metadata record, asked for by type and number. -/
theorem readRecord_ok (hC : C.Inverts) {r : Record} {sequence maxPlaintext : Nat}
    {c rest : Bytes} {s : Streams} (henc : r.encrypted C key baseNonce header sequence = .ok c)
    (hs : s.reader.Delivers (r.head sequence ++ (c ++ rest)))
    (hmax : r.plaintext.length ≤ maxPlaintext) (hseq : sequence < 2 ^ 64)
    (hlim : maxPlaintext ≤ maxChunkSize) :
    ∃ s', readRecord C key baseNonce header sequence (some r.kind) maxPlaintext s =
      (.ok r.plaintext, s') ∧ s'.reader.Delivers rest ∧ s'.writer = s.writer := by
  have hsmall : r.plaintext.length + tagSize < 2 ^ 32 := by
    simp only [maxChunkSize, tagSize] at hlim ⊢; omega
  obtain ⟨hhead, hfield, -⟩ := recordHead_fields r.kind hseq hsmall
  have hhead : (r.head sequence).head? = some r.kind := hhead
  have hfield : ofBe (slice (r.head sequence) 1 9) = sequence := hfield
  obtain ⟨r₁, hread, hr₁⟩ := readExactFormat_ok hs (r.length_head sequence)
  obtain ⟨s₂, hbody, hr₂, hw₂⟩ := decryptRecordBody_ok (s := { s with reader := r₁ }) hC henc hr₁ hmax
    hseq hlim
  refine ⟨s₂, ?_, hr₂, hw₂⟩
  unfold readRecord
  rw [Eff.bind_ok hread]
  simp only [hhead, hfield, Option.isSome_some, ne_eq, not_true_eq_false, and_false, if_false]
  exact hbody

end

theorem newV2_ok (hC : C.Inverts) {password start more rest : Bytes} (x : StreamParts) {key : Key}
    {c : Bytes} {s : Streams} (hheader : start ++ more = x.header) (hstart : start.length = 9)
    (haccepted : C.argon2Params x.params = .ok ())
    (hderived : C.hashPasswordInto x.params password x.salt.bytes = .ok key)
    (henc : x.metadata.encrypted C key x.baseNonce x.header 0 = .ok c)
    (hs : s.reader.Delivers (more ++ (x.metadata.head 0 ++ (c ++ rest)))) :
    ∃ s', StreamDecryptor.newV2 C password start s =
        (.ok ⟨x.filename, .v2 ⟨key, x.header, x.baseNonce, x.chunkSize, 1⟩⟩, s') ∧
      s'.reader.Delivers rest ∧ s'.writer = s.writer := by
  have hsize := x.chunkSize_bounds
  obtain ⟨hpos, hname⟩ := x.filename_bounds
  have hlen : x.header.length = 53 := length_streamHeader ..
  have hmore : more.length = headerSize - 9 := by
    have := congrArg List.length hheader
    rw [List.length_append, hstart, hlen] at this
    exact Nat.add_left_cancel this
  obtain ⟨hparams, hchunk, hsalt, hnonce⟩ :
      (⟨parseU32At x.header 9, parseU32At x.header 13, parseU32At x.header 17⟩ : KdfParams) =
        x.params ∧ (parseU32At x.header 21).toNat = x.chunkSize ∧
      slice x.header 25 41 = x.salt.bytes ∧ slice x.header 41 53 = x.baseNonce.bytes :=
    streamHeader_fields (by omega)
  have hblock (n : Nat) (v : Block n) : Block.ofBytes? n v.bytes = some v :=
    Block.ofBytes?_of_length v.length_eq
  have hrange : ¬(x.chunkSize < 1024 ∨ maxChunkSize < x.chunkSize) := by
    simp only [maxChunkSize]; omega
  have hnonempty : x.filename.bytes ≠ [] := List.ne_nil_of_length_pos hpos
  have hmetalen : x.metadata.plaintext.length = x.filename.bytes.length + 2 := by
    simp [StreamParts.metadata, Nat.add_comm]
  have hfield : ofBe (slice x.metadata.plaintext 0 2) = x.filename.bytes.length := by
    have : slice ([] ++ (toBe 2 x.filename.bytes.length ++ x.filename.bytes)) 0 2 =
        toBe 2 x.filename.bytes.length := slice_append rfl (by simp)
    rw [List.nil_append] at this
    rw [StreamParts.metadata, this, ofBe_toBe (by omega)]
  have hutf : Str.ofBytes? (x.metadata.plaintext.drop 2) = some x.filename := by
    have : x.metadata.plaintext.drop 2 = x.filename.bytes := List.drop_left' (by simp)
    rw [this, Str.ofBytes?_bytes]
  obtain ⟨r₁, hread, hr₁⟩ := readExactFormat_ok hs hmore
  have hkey : liftCrypto (deriveKeyFromPassword C password x.salt.bytes x.params)
      ⟨r₁, s.writer, s.work⟩ =
        (.ok key, ⟨r₁, s.writer, s.work ++ [.deriveKey password x.salt.bytes x.params]⟩) :=
    liftCrypto_ok (deriveKey_eq_ok.2 ⟨x.params_valid, haccepted, hderived, rfl⟩)
  obtain ⟨s₃, hrecord, hr₃, hw₃⟩ := readRecord_ok
    (s := ⟨r₁, s.writer, s.work ++ [.deriveKey password x.salt.bytes x.params]⟩) hC henc hr₁
    (by rw [hmetalen]; simp only [maxFilenameBytes]; omega : _ ≤ maxFilenameBytes + 2) (by decide)
    (by decide)
  have hkind : x.metadata.kind = recordMetadata := rfl
  refine ⟨s₃, ?_, hr₃, hw₃⟩
  unfold StreamDecryptor.newV2
  rw [Eff.bind_ok hread, hheader]
  simp only [hparams, hchunk, hsalt, hnonce, hblock]
  rw [if_neg hrange, Eff.bind_ok hkey, ← hkind, Eff.bind_ok hrecord, if_neg (by omega), hfield, if_neg (by omega), hutf]
  simp only [hnonempty, if_false]
  rfl

/-- A decryptor opens every well-formed stream up to its first chunk. -/
theorem new_ok (hC : C.Inverts) {password : Bytes} (x : Stream C password) {s : Streams}
    (hs : s.reader.Delivers x.bytes) :
    ∃ b s', StreamDecryptor.new C password s =
        (.ok ⟨x.filename, .v2 ⟨x.key, x.header, x.baseNonce, x.chunkSize, 1⟩⟩, s') ∧
      Sealed C x.key x.baseNonce x.header 1 (dataRecords x.chunks ++ [x.final]) b ∧
      s'.reader.Delivers b ∧ s'.writer = s.writer := by
  have hlen : x.header.length = 53 := length_streamHeader ..
  have hstart : x.header.take 9 = magicBytes ++ [formatVersion] := streamHeader_start ..
  obtain ⟨c, b, hbody, henc, hrest⟩ := x.body_sealed.cons_inv
  have hbytes : x.bytes = x.header.take 9 ++
      (x.header.drop 9 ++ (x.metadata.head 0 ++ (c ++ b))) := by
    rw [← List.append_assoc, List.take_append_drop, Stream.bytes, hbody, List.append_assoc]
  rw [hbytes] at hs
  have h9 : (x.header.take 9).length = 9 := by rw [List.length_take, hlen]; rfl
  obtain ⟨r₁, hread, hr₁⟩ := readExactFormat_ok hs h9
  obtain ⟨s₂, hnew, hr₂, hw₂⟩ := newV2_ok (s := { s with reader := r₁ }) hC x.toStreamParts
    (List.take_append_drop 9 x.header) h9 x.params_accepted x.key_derived henc hr₁
  refine ⟨b, s₂, ?_, hrest, hr₂, hw₂⟩
  unfold StreamDecryptor.new
  rw [Eff.bind_ok hread, hstart]
  exact hnew

/-- Reading a well-formed stream gives its name and writes its content. -/
theorem decrypt_ok (hC : C.Inverts) {password : Bytes} (x : Stream C password) {s : Streams}
    (hs : s.reader.Delivers x.bytes) (haccept : s.writer.Accepting) :
    ∃ d s₁ s₂, StreamDecryptor.new C password s = (.ok d, s₁) ∧ d.filename = x.filename ∧
      StreamDecryptor.decryptTo C d s₁ = (.ok x.content.length, s₂) ∧
      s₂.writer.written = s.writer.written ++ x.content := by
  obtain ⟨b, s₁, hnew, hsealed, hr₁, hw₁⟩ := new_ok hC x hs
  have hcount := x.count_bound
  have hsize := x.chunkSize_bounds
  obtain ⟨s₂, hloop, hw₂⟩ := @decryptChunks_ok C hC
    ⟨x.key, x.header, x.baseNonce, x.chunkSize, 1⟩ x.chunks 0 0 b s₁
    (by rw [Nat.zero_add, Nat.zero_add]; exact hsealed) hr₁ (hw₁ ▸ haccept) x.chunk_bounds hsize.2
    (by rw [Nat.zero_add]; exact x.content_bound) (by omega) (by simp only; omega)
  rw [Nat.zero_add] at hloop
  exact ⟨_, s₁, s₂, hnew, rfl, hloop, by rw [hw₂, hw₁]; rfl⟩

/-- An input that is read to the end is a well-formed stream. -/
theorem stream_of_decrypted (hC : C.Exact) {password b : Bytes} {d : StreamDecryptor} {m : Nat}
    {s s₁ s₂ : Streams} (hstart : b.take 9 = magicBytes ++ [formatVersion])
    (hs : s.reader.Delivers b) (hnew : StreamDecryptor.new C password s = (.ok d, s₁))
    (hdecrypt : StreamDecryptor.decryptTo C d s₁ = (.ok m, s₂)) :
    ∃ x : Stream C password, x.bytes = b ∧ x.filename = d.filename ∧ m = x.content.length ∧
      s₂.writer.written = s.writer.written ++ x.content := by
  unfold StreamDecryptor.new at hnew
  obtain ⟨start, t, hread, hnew⟩ := Eff.bind_eq_ok.1 hnew
  obtain ⟨rest, rfl, hlen, hrest, ht⟩ := readExactFormat_eq_ok hs hread
  rw [List.take_left' hlen] at hstart
  have hmagic : slice start 0 8 = magicBytes := by rw [hstart]; rfl
  have hversion : start[8]? = some formatVersion := by rw [hstart]; rfl
  simp only [hmagic, hversion, ne_eq, not_true_eq_false, if_false, if_true] at hnew
  obtain ⟨params, chunkSize, salt, baseNonce, key, c, tail, hbytes, hvalid, haccepted, hderived,
    hmin, hmax, -, -, -, hdec, hpos, hname, hmode, htail, hw₁⟩ := newV2_eq_ok hstart hrest hnew
  simp only [StreamDecryptor.decryptTo, hmode] at hdecrypt
  obtain ⟨chunks, hsealed, hbounds, htotal, hcount, rfl, hw₂⟩ :=
    decryptChunks_eq_ok hC htail (by decide) hdecrypt
  simp only [Nat.zero_add] at hsealed htotal
  obtain ⟨-, hbody⟩ := hC.sealed hdec hsealed
  let x : Stream C password :=
    { params, chunkSize, salt, baseNonce, key, chunks, filename := d.filename
      body := recordHead recordMetadata 0 c.length ++ c ++ tail
      params_valid := hvalid
      chunkSize_bounds := ⟨hmin, hmax⟩
      filename_bounds := ⟨hpos, hname⟩
      chunk_bounds := hbounds
      content_bound := htotal
      count_bound := by simp only at hcount; omega
      params_accepted := haccepted
      key_derived := hderived
      body_sealed := hbody }
  exact ⟨x, hbytes.symm, rfl, Nat.zero_add _, by rw [hw₂, hw₁, ht]; rfl⟩

end Ironlock
