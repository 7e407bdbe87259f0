import Ironlock.StreamCrypto

/-! What a version 2 stream is, said without a reader or a writer: a header and
a run of numbered records, each sealed under the header and its own head. -/

namespace Ironlock
open ByteOrder

/-! ## Cutting byte strings -/

theorem slice_append {a b c : Bytes} {i j : Nat} (ha : a.length = i) (hb : i + b.length = j) :
    slice (a ++ (b ++ c)) i j = b := by
  subst ha hb
  simp [slice, List.take_append]

theorem slice_length {b : Bytes} {i j : Nat} (hj : j ≤ b.length) :
    (slice b i j).length = j - i := by simp [slice, hj]

theorem take_append_slice {b : Bytes} {i j : Nat} (hij : i ≤ j) :
    b.take i ++ slice b i j = b.take j := by
  have : b.take i = (b.take j).take i := by rw [List.take_take, Nat.min_eq_left hij]
  rw [this, slice, List.take_append_drop]

/-- A byte string cut at `i ≤ j` is its three parts. -/
theorem slice_split {b : Bytes} {i j : Nat} (hij : i ≤ j) :
    b = b.take i ++ (slice b i j ++ b.drop j) := by
  rw [← List.append_assoc, take_append_slice hij, List.take_append_drop]

/-! ## The header -/

theorem ofNat_ofBe_toBe (v : UInt32) : UInt32.ofNat (ofBe (toBe 4 v.toNat)) = v := by
  rw [ofBe_toBe (by have := v.toNat_lt; omega), UInt32.ofNat_toNat]

theorem length_encode (p : KdfParams) : p.encode.length = 12 := by simp [KdfParams.encode]

theorem encode_injective {p q : KdfParams} (h : p.encode = q.encode) : p = q := by
  unfold KdfParams.encode at h
  obtain ⟨h, hp⟩ := List.append_inj h (by simp)
  obtain ⟨hm, hi⟩ := List.append_inj h (by simp)
  have eq {a b : UInt32} (h : toBe 4 a.toNat = toBe 4 b.toNat) : a = b := by
    rw [← ofNat_ofBe_toBe a, h, ofNat_ofBe_toBe]
  cases p; cases q
  simp only [KdfParams.mk.injEq]
  exact ⟨eq hm, eq hi, eq hp⟩

@[simp] theorem length_streamHeader (params : KdfParams) (chunkSize : Nat) (salt : Salt)
    (baseNonce : Nonce) : (streamHeader params chunkSize salt baseNonce).length = headerSize := by
  have := salt.length_eq
  have := baseNonce.length_eq
  simp_all [streamHeader, length_encode, magicBytes, headerSize, saltLength, nonceLength]

theorem streamHeader_injective {p p' : KdfParams} {c c' : Nat} {s s' : Salt} {n n' : Nonce}
    (hc : c < 2 ^ 32) (hc' : c' < 2 ^ 32)
    (h : streamHeader p c s n = streamHeader p' c' s' n') : p = p' ∧ c = c' ∧ s = s' ∧ n = n' := by
  unfold streamHeader at h
  obtain ⟨h, hn⟩ := List.append_inj' h (by rw [n.length_eq, n'.length_eq])
  obtain ⟨h, hs⟩ := List.append_inj' h (by rw [s.length_eq, s'.length_eq])
  obtain ⟨h, hcc⟩ := List.append_inj' h (by simp)
  obtain ⟨-, hp⟩ := List.append_inj h (by simp)
  exact ⟨encode_injective hp, toBe_inj (by omega) (by omega) hcc, Block.ext hs, Block.ext hn⟩

theorem toBe_parseU32At {b : Bytes} {i : Nat} (h : i + 4 ≤ b.length) :
    toBe 4 (parseU32At b i).toNat = slice b i (i + 4) := by
  have hlen : (slice b i (i + 4)).length = 4 := by rw [slice_length h]; omega
  have hlt := ofBe_lt (slice b i (i + 4))
  rw [hlen] at hlt
  rw [parseU32At, UInt32.toNat_ofNat_of_lt' (by rw [UInt32.size]; omega), toBe_ofBe_of_length hlen]

/-- Fifty-three bytes that begin as a stream are the header they spell. -/
theorem eq_streamHeader {b : Bytes} (hlen : b.length = headerSize)
    (hstart : b.take 9 = magicBytes ++ [formatVersion]) :
    ∃ (hs : (slice b 25 41).length = saltLength) (hn : (slice b 41 53).length = nonceLength),
      b = streamHeader ⟨parseU32At b 9, parseU32At b 13, parseU32At b 17⟩
        (parseU32At b 21).toNat ⟨slice b 25 41, hs⟩ ⟨slice b 41 53, hn⟩ := by
  have hlen : b.length = 53 := hlen
  refine ⟨by rw [slice_length (by omega)]; rfl, by rw [slice_length (by omega)]; rfl, ?_⟩
  simp only [streamHeader, KdfParams.encode, ← hstart]
  rw [toBe_parseU32At (by omega), toBe_parseU32At (by omega), toBe_parseU32At (by omega),
    toBe_parseU32At (by omega)]
  simp only [← List.append_assoc]
  rw [take_append_slice (by omega), take_append_slice (by omega), take_append_slice (by omega),
    take_append_slice (by omega), take_append_slice (by omega), take_append_slice (by omega),
    List.take_of_length_le (by omega)]

theorem streamHeader_start (params : KdfParams) (chunkSize : Nat) (salt : Salt)
    (baseNonce : Nonce) :
    (streamHeader params chunkSize salt baseNonce).take 9 = magicBytes ++ [formatVersion] := by
  simp only [streamHeader, List.append_assoc]
  rfl

/-- A header is read back field by field. -/
theorem streamHeader_fields {p : KdfParams} {c : Nat} {s : Salt} {n : Nonce} (hc : c < 2 ^ 32) :
    let b := streamHeader p c s n
    (⟨parseU32At b 9, parseU32At b 13, parseU32At b 17⟩ : KdfParams) = p ∧
    (parseU32At b 21).toNat = c ∧ slice b 25 41 = s.bytes ∧ slice b 41 53 = n.bytes := by
  intro b
  obtain ⟨hs, hn, hb⟩ := eq_streamHeader (b := b) (length_streamHeader ..) (streamHeader_start ..)
  obtain ⟨hp, hc, hs, hn⟩ := streamHeader_injective hc (parseU32At b 21).toNat_lt hb
  exact ⟨hp.symm, hc.symm, by rw [hs], by rw [hn]⟩

/-! ## Records -/

/-- The 13 bytes in front of a ciphertext. -/
def recordHead (kind : UInt8) (sequence ciphertextLen : Nat) : Bytes :=
  [kind] ++ toBe 8 sequence ++ toBe 4 ciphertextLen

theorem recordHeader_of_lt (kind : UInt8) (sequence : Nat) {n : Nat} (h : n < 2 ^ 32) :
    recordHeader kind sequence n = .ok (recordHead kind sequence n) := by
  rw [recordHeader, if_pos h, recordHead]

@[simp] theorem length_recordHead (kind : UInt8) (sequence n : Nat) :
    (recordHead kind sequence n).length = recordHeaderSize := by simp [recordHead, recordHeaderSize]

/-- A record's head is read back field by field. -/
theorem recordHead_fields (kind : UInt8) {sequence n : Nat} (hs : sequence < 2 ^ 64)
    (hn : n < 2 ^ 32) :
    (recordHead kind sequence n).head? = some kind ∧
    ofBe (slice (recordHead kind sequence n) 1 9) = sequence ∧
    ofBe (slice (recordHead kind sequence n) 9 13) = n := by
  refine ⟨by simp [recordHead], ?_, ?_⟩
  · rw [recordHead, List.append_assoc, slice_append (by simp) (by simp), ofBe_toBe (by omega)]
  · have : recordHead kind sequence n = ([kind] ++ toBe 8 sequence) ++ (toBe 4 n ++ []) := by
      simp [recordHead]
    rw [this, slice_append (by simp) (by simp), ofBe_toBe (by omega)]

/-- Thirteen bytes are the head of the record they spell. -/
theorem eq_recordHead {b : Bytes} (h : b.length = recordHeaderSize) :
    b = recordHead (b.headD 0) (ofBe (slice b 1 9)) (ofBe (slice b 9 13)) := by
  have h : b.length = 13 := h
  obtain ⟨kind, rest, rfl⟩ := List.exists_cons_of_length_eq_add_one h
  have h9 : toBe 8 (ofBe (slice (kind :: rest) 1 9)) = slice (kind :: rest) 1 9 :=
    toBe_ofBe_of_length (slice_length (by omega))
  have h13 : toBe 4 (ofBe (slice (kind :: rest) 9 13)) = slice (kind :: rest) 9 13 :=
    toBe_ofBe_of_length (slice_length (by omega))
  have hend : (kind :: rest).drop 13 = [] := List.drop_of_length_le (by omega)
  have hcut := slice_split (b := kind :: rest) (i := 9) (j := 13) (by omega)
  have hcut' := slice_split (b := (kind :: rest).take 9) (i := 1) (j := 9) (by omega)
  rw [recordHead, h9, h13]
  rw [hend, List.append_nil] at hcut
  conv => lhs; rw [hcut, hcut']
  simp [slice]

theorem recordHead_injective {k k' : UInt8} {s s' n n' : Nat} (hs : s < 2 ^ 64) (hs' : s' < 2 ^ 64)
    (hn : n < 2 ^ 32) (hn' : n' < 2 ^ 32) (h : recordHead k s n = recordHead k' s' n') :
    k = k' ∧ s = s' ∧ n = n' := by
  obtain ⟨hk, hseq, hlen⟩ := recordHead_fields k hs hn
  obtain ⟨hk', hseq', hlen'⟩ := recordHead_fields k' hs' hn'
  rw [h] at hk hseq hlen
  exact ⟨by simpa [hk] using hk', by rw [← hseq, hseq'], by rw [← hlen, hlen']⟩

/-- What a record is written with. -/
structure Record where
  kind : UInt8
  plaintext : Bytes
  deriving DecidableEq

def Record.head (r : Record) (sequence : Nat) : Bytes :=
  recordHead r.kind sequence (r.plaintext.length + tagSize)

@[simp] theorem Record.length_head (r : Record) (sequence : Nat) :
    (r.head sequence).length = recordHeaderSize := length_recordHead ..

section
variable (C : Crates) (key : Key) (baseNonce : Nonce) (header : Bytes)

/-- The encryption of a record at its place in the stream. -/
def Record.encrypted (r : Record) (sequence : Nat) : Except String Bytes :=
  C.aeadEncrypt key (deriveRecordNonce baseNonce sequence) r.plaintext (header ++ r.head sequence)

/-- `body` is the records, numbered from `sequence` on, one after another. -/
inductive Sealed : Nat → List Record → Bytes → Prop
  | nil (sequence : Nat) : Sealed sequence [] []
  | cons {sequence : Nat} {r : Record} {rs : List Record} {ciphertext body : Bytes} :
      r.encrypted C key baseNonce header sequence = .ok ciphertext →
      Sealed (sequence + 1) rs body →
      Sealed sequence (r :: rs) (r.head sequence ++ ciphertext ++ body)

/-- The calls that seal the records. -/
def sealCalls : Nat → List Record → List Work
  | _, [] => []
  | sequence, r :: rs =>
    .encrypt key (deriveRecordNonce baseNonce sequence) r.plaintext (header ++ r.head sequence)
      (r.encrypted C key baseNonce header sequence) :: sealCalls (sequence + 1) rs

end

section
variable {C : Crates} {key : Key} {baseNonce : Nonce} {header : Bytes}

theorem Sealed.cons_inv {sequence : Nat} {r : Record} {rs : List Record} {b : Bytes}
    (h : Sealed C key baseNonce header sequence (r :: rs) b) :
    ∃ c body, b = r.head sequence ++ c ++ body ∧
      r.encrypted C key baseNonce header sequence = .ok c ∧
      Sealed C key baseNonce header (sequence + 1) rs body := by
  cases h with
  | cons henc h => exact ⟨_, _, rfl, henc, h⟩

theorem Sealed.append {sequence : Nat} {rs rs' : List Record} {b b' : Bytes}
    (h : Sealed C key baseNonce header sequence rs b)
    (h' : Sealed C key baseNonce header (sequence + rs.length) rs' b') :
    Sealed C key baseNonce header sequence (rs ++ rs') (b ++ b') := by
  induction h with
  | nil => exact h'
  | cons henc _ ih =>
    rw [List.append_assoc, List.cons_append]
    exact .cons henc (ih (by rwa [List.length_cons, ← Nat.add_assoc, Nat.add_right_comm] at h'))

theorem Sealed.split {sequence : Nat} {rs rs' : List Record} {b : Bytes}
    (h : Sealed C key baseNonce header sequence (rs ++ rs') b) :
    ∃ b₁ b₂, b = b₁ ++ b₂ ∧ Sealed C key baseNonce header sequence rs b₁ ∧
      Sealed C key baseNonce header (sequence + rs.length) rs' b₂ := by
  induction rs generalizing sequence b with
  | nil => exact ⟨[], b, rfl, .nil _, h⟩
  | cons r rs ih =>
    cases h with
    | @cons _ _ _ c body henc h =>
      obtain ⟨b₁, b₂, rfl, h₁, h₂⟩ := ih h
      refine ⟨r.head sequence ++ c ++ b₁, b₂, by simp, .cons henc h₁, ?_⟩
      rwa [List.length_cons, ← Nat.add_assoc, Nat.add_right_comm]

/-- Records can be sealed in one way only. -/
theorem Sealed.unique {sequence : Nat} {rs : List Record} {b b' : Bytes}
    (h : Sealed C key baseNonce header sequence rs b)
    (h' : Sealed C key baseNonce header sequence rs b') : b = b' := by
  induction h generalizing b' with
  | nil => cases h'; rfl
  | cons henc _ ih =>
    cases h' with
    | cons henc' h' =>
      rw [henc] at henc'; cases henc'
      rw [ih h']

theorem sealCalls_append (sequence : Nat) (rs rs' : List Record) :
    sealCalls C key baseNonce header sequence (rs ++ rs') =
      sealCalls C key baseNonce header sequence rs ++
        sealCalls C key baseNonce header (sequence + rs.length) rs' := by
  induction rs generalizing sequence with
  | nil => rfl
  | cons r rs ih => simp [sealCalls, ih, Nat.add_assoc, Nat.add_comm 1]

/-- Every sealing call is that of a record at its place. -/
theorem mem_sealCalls {sequence : Nat} {rs : List Record} {w : Work}
    (h : w ∈ sealCalls C key baseNonce header sequence rs) :
    ∃ i r, rs[i]? = some r ∧ w = .encrypt key (deriveRecordNonce baseNonce (sequence + i))
      r.plaintext (header ++ r.head (sequence + i)) (r.encrypted C key baseNonce header (sequence + i)) := by
  induction rs generalizing sequence with
  | nil => cases h
  | cons r rs ih =>
    rcases List.mem_cons.1 h with rfl | h
    · exact ⟨0, r, rfl, rfl⟩
    · obtain ⟨i, r', hi, rfl⟩ := ih h
      exact ⟨i + 1, r', hi, by rw [Nat.add_right_comm, Nat.add_assoc]⟩

end

/-- The records of the chunks. -/
def dataRecords (chunks : List Bytes) : List Record := chunks.map (⟨recordData, ·⟩)

@[simp] theorem length_dataRecords (chunks : List Bytes) :
    (dataRecords chunks).length = chunks.length := by simp [dataRecords]

/-! ## Streams -/

/-- The parts a stream is made of, within the limits of the format. -/
structure StreamParts where
  params : KdfParams
  chunkSize : Nat
  salt : Salt
  baseNonce : Nonce
  filename : Str
  chunks : List Bytes
  params_valid : validateKdfParams params = .ok ()
  chunkSize_bounds : 1024 ≤ chunkSize ∧ chunkSize ≤ 1048576
  filename_bounds : 1 ≤ filename.bytes.length ∧ filename.bytes.length ≤ 65535
  chunk_bounds : ∀ c ∈ chunks, 1 ≤ c.length ∧ c.length ≤ chunkSize
  content_bound : chunks.flatten.length < 2 ^ 64
  count_bound : chunks.length ≤ 2 ^ 64 - 3

namespace StreamParts

def content (x : StreamParts) : Bytes := x.chunks.flatten

def header (x : StreamParts) : Bytes := streamHeader x.params x.chunkSize x.salt x.baseNonce

def metadata (x : StreamParts) : Record :=
  ⟨recordMetadata, toBe 2 x.filename.bytes.length ++ x.filename.bytes⟩

def final (x : StreamParts) : Record :=
  ⟨recordFinal, toBe 8 x.content.length ++ toBe 8 x.chunks.length⟩

/-- The records in order: the name, the chunks, the totals. -/
def records (x : StreamParts) : List Record :=
  x.metadata :: (dataRecords x.chunks ++ [x.final])

end StreamParts

/-- A well-formed stream under a password, and its records sealed. -/
structure Stream (C : Crates) (password : Bytes) extends StreamParts where
  key : Key
  body : Bytes
  params_accepted : C.argon2Params params = .ok ()
  key_derived : C.hashPasswordInto params password salt.bytes = .ok key
  body_sealed : Sealed C key baseNonce toStreamParts.header 0 toStreamParts.records body

namespace Stream
variable {C : Crates} {password : Bytes}

def bytes (x : Stream C password) : Bytes := x.header ++ x.body

/-- All that encrypting the stream asks of the crates. -/
def work (x : Stream C password) : List Work :=
  .deriveKey password x.salt.bytes x.params ::
    sealCalls C x.key x.baseNonce x.header 0 x.records

/-- The header and the parts determine the stream. -/
theorem canonical {x y : Stream C password} (hheader : x.header = y.header)
    (hname : x.filename = y.filename) (hchunks : x.chunks = y.chunks) : x.bytes = y.bytes := by
  have hlt (z : Stream C password) : z.chunkSize < 2 ^ 32 := by have := z.chunkSize_bounds; omega
  obtain ⟨hp, -, hs, hn⟩ := streamHeader_injective (hlt x) (hlt y) hheader
  have hkey : x.key = y.key := by
    have := x.key_derived
    rw [hp, hs, y.key_derived] at this
    exact (Except.ok.inj this).symm
  have hrecords : x.records = y.records := by
    simp [StreamParts.records, StreamParts.metadata, StreamParts.final, StreamParts.content, hname,
      hchunks]
  have hx := x.body_sealed
  rw [hkey, hn, hheader, hrecords] at hx
  rw [bytes, bytes, hheader, hx.unique y.body_sealed]

end Stream

end Ironlock
