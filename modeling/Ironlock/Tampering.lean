import Ironlock.Encoding
import Ironlock.Decoding

/-! Under an ideal AEAD nothing is accepted but what was honestly written, and
nothing is released but a prefix of it. -/

namespace Ironlock.Tampering
open ByteOrder
open Effect

variable {C : Crates}

/-- A completed run of `encryptStreamWithParams`. -/
structure StreamRun (C : Crates) where
  password : Bytes
  salt : Salt
  baseNonce : Nonce
  filename : Str
  params : KdfParams
  plaintext : Bytes
  source : Reader
  schedule : List WriteEvent
  length : Nat
  result : Streams
  delivers : source.Delivers plaintext
  completed : encryptStreamWithParams C salt baseNonce password filename params
    ⟨source, ⟨schedule, []⟩, []⟩ = (.ok length, result)

/-- A completed run of `createEncryptedFileWithParams`. -/
structure LegacyRun (C : Crates) where
  password : Bytes
  salt : Salt
  nonce : Nonce
  filename : Str
  params : KdfParams
  plaintext : Bytes
  bytes : Bytes
  calls : List Work
  completed : createEncryptedFileWithParams C salt nonce password filename plaintext params [] =
    (.ok bytes, calls)

/-- An honestly written file, of either version. -/
inductive HonestFile (C : Crates)
  | stream (run : StreamRun C)
  | legacy (run : LegacyRun C)

namespace HonestFile

def bytes : HonestFile C → Bytes
  | .stream run => run.result.writer.written
  | .legacy run => run.bytes

/-- The public header. -/
def header : HonestFile C → Bytes
  | .stream run => streamHeader run.params defaultChunkSize run.salt run.baseNonce
  | .legacy run => legacyHeader run.params run.filename.bytes run.salt run.nonce

def filename : HonestFile C → Str
  | .stream run => run.filename
  | .legacy run => run.filename

def plaintext : HonestFile C → Bytes
  | .stream run => run.plaintext
  | .legacy run => run.plaintext

/-- What writing the file asked of the crates. -/
def calls : HonestFile C → List Work
  | .stream run => run.result.work
  | .legacy run => run.calls

end HonestFile

/-- Decryption succeeds on nothing but the encryptions of the files. -/
def Ideal (C : Crates) (files : List (HonestFile C)) : Prop :=
  ∀ key nonce c aad p, C.aeadDecrypt key nonce c aad = some p →
    ∃ f ∈ files, Work.encrypt key nonce p aad (.ok c) ∈ f.calls

def HeadersDistinct (files : List (HonestFile C)) : Prop :=
  files.Pairwise fun f g => f.header ≠ g.header

theorem HeadersDistinct.eq {files : List (HonestFile C)} (h : HeadersDistinct files)
    {f g : HonestFile C} (hf : f ∈ files) (hg : g ∈ files) (heq : f.header = g.header) : f = g := by
  induction files with
  | nil => cases hf
  | cons k files ih =>
    obtain ⟨hk, h⟩ := List.pairwise_cons.1 h
    rcases List.mem_cons.1 hf with rfl | hf' <;> rcases List.mem_cons.1 hg with rfl | hg'
    · rfl
    · exact absurd heq (hk g hg')
    · exact absurd heq.symm (hk f hf')
    · exact ih h hf' hg'

/-! ## What the associated data says -/

theorem streamHeader_version (params : KdfParams) (chunkSize : Nat) (salt : Salt)
    (baseNonce : Nonce) (b : Bytes) :
    (streamHeader params chunkSize salt baseNonce ++ b)[8]? = some formatVersion := by
  simp only [streamHeader, List.append_assoc]
  rfl

theorem legacyHeader_version (params : KdfParams) (filename : Bytes) (salt : Salt) (nonce : Nonce) :
    (legacyHeader params filename salt nonce)[8]? = some legacyVersion := by
  simp only [legacyHeader, List.append_assoc]
  rfl

/-- A run of the stream format made its file the bytes of a well-formed stream
and asked for that stream's encryptions. -/
theorem stream_of_run (run : StreamRun C) :
    ∃ x : Stream C run.password, x.header = (HonestFile.stream run).header ∧
      x.filename = run.filename ∧ x.content = run.plaintext ∧
      x.bytes = run.result.writer.written ∧ x.work = run.result.work := by
  obtain ⟨x, hheader, hname, hcontent, -, hwritten, hwork⟩ :=
    encryptStream_eq_ok run.completed run.delivers
  exact ⟨x, hheader, hname, hcontent, by simpa [Writer.written] using hwritten.symm,
    by simpa using hwork.symm⟩

/-- A version 1 file is its header and one ciphertext over it. -/
theorem legacy_of_run (run : LegacyRun C) :
    run.filename.bytes.length ≤ 65535 ∧
    ∃ key c, run.bytes = (HonestFile.legacy run).header ++ c ∧
      run.calls = [.deriveKey run.password run.salt.bytes run.params,
        .encrypt key run.nonce run.plaintext (HonestFile.legacy run).header (.ok c)] := by
  have h := run.completed
  unfold createEncryptedFileWithParams at h
  obtain ⟨key, log, hkey, h⟩ := Eff.bind_eq_ok.1 h
  obtain ⟨-, -, -, hlog⟩ := deriveKey_eq_ok.1 hkey
  by_cases hlong : run.filename.bytes.length > 65535
  · simp only [hlong, if_true] at h; cases h
  simp only [hlong, if_false] at h
  obtain ⟨c, log', hc, h⟩ := Eff.bind_eq_ok.1 h
  obtain ⟨-, hlog'⟩ := encrypt_eq_ok.1 hc
  rw [Eff.pure_apply, Prod.mk.injEq, Except.ok.injEq] at h
  refine ⟨Nat.le_of_not_gt hlong, key, c, h.1.symm, ?_⟩
  rw [← h.2, hlog', hlog]
  rfl

theorem plaintext_le (x : StreamParts) : ∀ r ∈ x.records, r.plaintext.length ≤ maxChunkSize := by
  intro r hr
  simp only [StreamParts.records, List.mem_cons, List.mem_append, dataRecords, List.mem_map,
    List.not_mem_nil, or_false] at hr
  rcases hr with rfl | ⟨c, hc, rfl⟩ | rfl
  · have := x.filename_bounds
    simp only [StreamParts.metadata, List.length_append, length_toBe, maxChunkSize]
    omega
  · exact le_trans (x.chunk_bounds c hc).2 x.chunkSize_bounds.2
  · simp [StreamParts.final, maxChunkSize]

/-- The associated data of a call names the record it is for. -/
theorem record_of_call {password : Bytes} (x : Stream C password) {params : KdfParams}
    {chunkSize : Nat} {salt : Salt} {baseNonce nonce : Nonce} {key : Key} {kind : UInt8}
    {sequence n : Nat} {c p : Bytes} (hseq : sequence < 2 ^ 64) (hn : n < 2 ^ 32)
    (hcall : Work.encrypt key nonce p
      (streamHeader params chunkSize salt baseNonce ++ recordHead kind sequence n) (.ok c) ∈ x.work) :
    x.header = streamHeader params chunkSize salt baseNonce ∧
      x.records[sequence]? = some ⟨kind, p⟩ ∧ n = p.length + tagSize ∧
      Record.encrypted C x.key x.baseNonce x.header ⟨kind, p⟩ sequence = .ok c := by
  simp only [Stream.work, List.mem_cons, reduceCtorEq, false_or] at hcall
  obtain ⟨i, r, hi, hcall⟩ := mem_sealCalls hcall
  simp only [Nat.zero_add, Work.encrypt.injEq] at hcall
  obtain ⟨-, -, rfl, haad, hc⟩ := hcall
  obtain ⟨hheader, hhead⟩ := List.append_inj haad (by simp [StreamParts.header])
  have hlt : i < 2 ^ 64 := by
    have hlen := (List.getElem?_eq_some_iff.1 hi).1
    have := x.count_bound
    simp only [StreamParts.records, List.length_cons, List.length_append, length_dataRecords,
      List.length_nil] at hlen
    omega
  have hsize : r.plaintext.length ≤ 1048576 := plaintext_le _ r (List.mem_of_getElem? hi)
  obtain ⟨rfl, rfl, rfl⟩ := recordHead_injective hseq hlt hn
    (by simp only [tagSize]; omega) hhead
  exact ⟨hheader.symm, hi, rfl, hc.symm⟩

/-- A ciphertext opened under a stream header and a record head is the record
of that file at that place: nothing is spliced, moved or relabelled. -/
theorem record_of_decrypt {files : List (HonestFile C)} (hideal : Ideal C files)
    {params : KdfParams} {chunkSize : Nat} {salt : Salt} {baseNonce : Nonce} {key : Key}
    {nonce : Nonce} {kind : UInt8} {sequence : Nat} {c p : Bytes} (hseq : sequence < 2 ^ 64)
    (hc : c.length < 2 ^ 32)
    (hdec : C.aeadDecrypt key nonce c (streamHeader params chunkSize salt baseNonce ++
      recordHead kind sequence c.length) = some p) :
    ∃ run, HonestFile.stream run ∈ files ∧
      (HonestFile.stream run).header = streamHeader params chunkSize salt baseNonce ∧
      ∀ x : Stream C run.password, x.work = run.result.work →
        x.records[sequence]? = some ⟨kind, p⟩ ∧ c.length = p.length + tagSize ∧
        Record.encrypted C x.key x.baseNonce x.header ⟨kind, p⟩ sequence = .ok c := by
  obtain ⟨f, hf, hcall⟩ := hideal _ _ _ _ _ hdec
  cases f with
  | legacy run =>
    obtain ⟨-, key, c', -, hcalls⟩ := legacy_of_run run
    simp only [HonestFile.calls, hcalls, List.mem_cons, reduceCtorEq, Work.encrypt.injEq,
      List.not_mem_nil, or_false, false_or] at hcall
    have hversion := congrArg (·[8]?) hcall.2.2.2.1
    simp only [streamHeader_version, HonestFile.header, legacyHeader_version] at hversion
    exact absurd hversion (by decide)
  | stream run =>
    obtain ⟨x, hheader, -, -, -, hwork⟩ := stream_of_run run
    have hcall' : Work.encrypt _ _ _ _ _ ∈ run.result.work := hcall
    refine ⟨run, hf, ?_, ?_⟩
    · rw [← hheader]
      exact (record_of_call x hseq hc (hwork ▸ hcall')).1
    · intro y hy
      exact (record_of_call y hseq hc (hy ▸ hcall')).2

/-! ## Reading under an ideal AEAD -/

theorem readNextRecord_writer (state : V2State) : Within SameWriter (readNextRecord C state) := by
  have body (key : Key) (baseNonce : Nonce) (header record : Bytes) (sequence limit : Nat) :
      Within SameWriter (decryptRecordBody C key baseNonce header record sequence limit) :=
    .ite (.fail _) <| .bind (liftCrypto_writer _) fun _ => .bind (liftRead_writer _) fun _ =>
      liftCrypto_writer _
  exact .bind (liftRead_writer _) fun _ => .ite (.fail _) <| .ite (.fail _) <|
    .bind (body _ _ _ _ _ _) fun _ => .bind (.ofExcept _) fun _ => .pure _

theorem acceptFinal_writer (p : Bytes) (total count : Nat) :
    Within SameWriter (acceptFinal p total count) :=
  .ite (.fail _) <| .ite (.fail _) <| .bind (liftRead_writer _) fun _ => .ite (.fail _) (.pure _)

theorem writeAll_portions (buf : Bytes) (s : Streams) :
    ∃ more, (writeAll buf s).2.writer.portions = s.writer.portions ++ more ∧
      more.flatten <+: buf ∧ ((writeAll buf s).1 = .ok () → more.flatten = buf) := by
  obtain ⟨more, hmore, hprefix, hall⟩ := Writer.writeAll_portions buf s.writer
  unfold writeAll
  rcases hw : s.writer.writeAll buf with ⟨e | u, w⟩ <;> rw [hw] at hmore hall
  · exact ⟨more, hmore, hprefix, nofun⟩
  · exact ⟨more, hmore, hprefix, fun _ => hall rfl⟩

/-- Of a chunk, a prefix goes out, and all of it before the next is read. -/
theorem acceptData_portions (p : Bytes) (total count : Nat) (s : Streams) :
    ∃ more, (acceptData p total count s).2.writer.portions = s.writer.portions ++ more ∧
      more.flatten <+: p ∧ ∀ t, (acceptData p total count s).1 = .ok t → more.flatten = p := by
  by_cases hp : p = []
  · exact ⟨[], by simp [acceptData, hp], List.nil_prefix, fun _ _ => hp.symm⟩
  obtain ⟨more, hmore, hprefix, hall⟩ := writeAll_portions p s
  have hrest (s : Streams) : Within SameWriter (do
      let total ← Eff.ofExcept (checkedAdd total p.length "plaintext length overflow")
      let count ← Eff.ofExcept (checkedAdd count 1 "chunk counter overflow")
      return (total, count) : StreamM (Nat × Nat)) :=
    .bind (.ofExcept _) fun _ => .bind (.ofExcept _) fun _ => .pure _
  unfold acceptData
  rw [if_neg hp]
  rcases hw : writeAll p s with ⟨e | u, s₁⟩ <;> rw [hw] at hmore hall
  · rw [Eff.bind_error hw]
    exact ⟨more, hmore, hprefix, nofun⟩
  · rw [Eff.bind_ok hw]
    refine ⟨more, ?_, hprefix, fun _ _ => hall rfl⟩
    rw [← hmore]
    exact congrArg Writer.portions (hrest s s₁)

theorem data_first {x : StreamParts} {todo : List Bytes} {p : Bytes}
    (h : (dataRecords todo ++ [x.final])[0]? = some ⟨recordData, p⟩) : ∃ rest, todo = p :: rest := by
  cases todo with
  | nil => exact absurd (congrArg Record.kind (Option.some.inj h)) (by decide : recordFinal ≠ recordData)
  | cons q rest => exact ⟨rest, congrArg (· :: rest) (congrArg Record.plaintext (Option.some.inj h))⟩

theorem final_first {x : StreamParts} {todo : List Bytes} {p : Bytes}
    (h : (dataRecords todo ++ [x.final])[0]? = some ⟨recordFinal, p⟩) :
    todo = [] ∧ x.final = ⟨recordFinal, p⟩ := by
  cases todo with
  | nil => exact ⟨rfl, Option.some.inj h⟩
  | cons q rest =>
    exact absurd (congrArg Record.kind (Option.some.inj h)) (by decide : recordData ≠ recordFinal)

/-- The loop, once the chunks `done` have been read, hands over only a prefix
of what is left of the file, and all of it when it succeeds. -/
theorem decryptChunks_prefix {files : List (HonestFile C)} (hideal : Ideal C files)
    (hdistinct : HeadersDistinct files) {run : StreamRun C} (hrun : HonestFile.stream run ∈ files)
    (x : Stream C run.password) (hheader : x.header = (HonestFile.stream run).header)
    (hwork : x.work = run.result.work) {done todo : List Bytes} (hchunks : x.chunks = done ++ todo)
    {state : V2State} (hstate : state.header = x.header)
    (hnext : state.nextSequence = done.length + 1) {total count : Nat} {b : Bytes}
    {s s' : Streams} {r : Except IronlockError Nat} (hs : s.reader.Delivers b)
    (h : decryptChunks C state total count s = (r, s')) :
    ∃ more, s'.writer.portions = s.writer.portions ++ more ∧ more.flatten <+: todo.flatten ∧
      ∀ m, r = .ok m → more.flatten = todo.flatten ∧
        Sealed C x.key x.baseNonce x.header (done.length + 1) (dataRecords todo ++ [x.final]) b := by
  -- a record the loop reads is the next record of the file
  have step {state : V2State} {done todo : List Bytes} (hchunks : x.chunks = done ++ todo)
      (hstate : state.header = x.header) (hnext : state.nextSequence = done.length + 1)
      {b p : Bytes} {kind : UInt8} {state' : V2State} {s s₁ : Streams} (hs : s.reader.Delivers b)
      (hread : readNextRecord C state s = (.ok (kind, p, state'), s₁)) :
      ∃ c rest, b = Record.head ⟨kind, p⟩ (done.length + 1) ++ c ++ rest ∧
        Record.encrypted C x.key x.baseNonce x.header ⟨kind, p⟩ (done.length + 1) = .ok c ∧
        (dataRecords todo ++ [x.final])[0]? = some ⟨kind, p⟩ ∧ s₁.reader.Delivers rest ∧
        state'.header = x.header ∧ state'.nextSequence = done.length + 2 ∧ s₁.writer = s.writer := by
    obtain ⟨c, rest, rfl, -, hc, -, -, hdec, hlt, rfl, hrest, hw⟩ := readNextRecord_eq_ok hs hread
    rw [hstate, hheader, hnext] at hdec
    obtain ⟨run', hrun', hheader', hrecord⟩ := record_of_decrypt hideal (by omega) hc hdec
    obtain rfl : run' = run := by
      have := hdistinct.eq hrun' hrun hheader'
      exact HonestFile.stream.inj this
    obtain ⟨hget, hlen, henc⟩ := hrecord x hwork
    refine ⟨c, rest, ?_, henc, ?_, hrest, hstate, by simp only [hnext], hw⟩
    · rw [hnext, hlen]; rfl
    · have : x.records = (x.metadata :: dataRecords done) ++ (dataRecords todo ++ [x.final]) := by
        simp [StreamParts.records, hchunks, dataRecords]
      rw [this, List.getElem?_append_right (by simp)] at hget
      simpa using hget
  fun_induction decryptChunks C state total count s generalizing done todo b with
  | case1 state total count s e s₁ hread =>
    cases h
    have hw : s'.writer = s.writer := (readNextRecord_writer state).run hread
    exact ⟨[], by simp [hw], List.nil_prefix, by simp⟩
  | case2 state total count s p state₁ s₁ e s₂ hdata hread =>
    cases h
    obtain ⟨c, rest, rfl, -, hget, -, -, -, hw⟩ := step hchunks hstate hnext hs hread
    obtain ⟨tail, rfl⟩ := data_first hget
    obtain ⟨more, hmore, hprefix, -⟩ := acceptData_portions p total count s₁
    rw [hdata, hw] at hmore
    exact ⟨more, hmore, hprefix.trans (List.prefix_append ..), by simp⟩
  | case3 state total count s p state₁ s₁ t n s₂ hdata hread ih =>
    obtain ⟨c, rest, rfl, henc, hget, hrest, hstate₁, hnext₁, hw⟩ := step hchunks hstate hnext hs hread
    obtain ⟨tail, rfl⟩ := data_first hget
    obtain ⟨first, hfirst, -, hall⟩ := acceptData_portions p total count s₁
    rw [hdata, hw] at hfirst
    have hfirst' := hall (t, n) (by rw [hdata])
    obtain ⟨-, -, -, -, hr₂⟩ := acceptData_eq_ok hdata
    obtain ⟨more, hmore, hprefix, hok⟩ := ih
      (by simp [hchunks] : x.chunks = (done ++ [p]) ++ tail) hstate₁ (by simp [hnext₁]) (by rw [hr₂]; exact hrest) h
    refine ⟨first ++ more, by rw [hmore, hfirst, List.append_assoc], ?_, fun m hm => ?_⟩
    · simpa [hfirst'] using hprefix
    · obtain ⟨hflat, hsealed⟩ := hok m hm
      refine ⟨by simp [hfirst', hflat], ?_⟩
      rw [List.length_append] at hsealed
      exact .cons henc hsealed
  | case4 state total count s p state₁ s₁ hread hne =>
    obtain ⟨c, rest, rfl, henc, hget, hrest, -, -, hw⟩ := step hchunks hstate hnext hs hread
    obtain ⟨rfl, hfinal⟩ := final_first hget
    have hw' : s'.writer = s₁.writer := (acceptFinal_writer p total count).run h
    refine ⟨[], by simp [hw', hw], List.nil_prefix, ?_⟩
    rintro m rfl
    obtain ⟨-, rfl, -⟩ := acceptFinal_eq_ok hrest h
    refine ⟨rfl, ?_⟩
    rw [dataRecords, List.map_nil, List.nil_append, hfinal]
    exact .cons henc (.nil _)
  | case5 state total count s kind p state₁ s₁ hread hdata hfinal =>
    cases h
    obtain ⟨c, rest, rfl, -, hget, -, -, -, hw⟩ := step hchunks hstate hnext hs hread
    exact ⟨[], by simp [hw], List.nil_prefix, by simp⟩

/-- A decryptor of the stream format is one over a file's header and name. -/
theorem stream_of_new {files : List (HonestFile C)} (hideal : Ideal C files)
    {password start b : Bytes} {s s' : Streams} {d : StreamDecryptor}
    (hstart : start = magicBytes ++ [formatVersion]) (hs : s.reader.Delivers b)
    (h : StreamDecryptor.newV2 C password start s = (.ok d, s')) :
    ∃ run, HonestFile.stream run ∈ files ∧ ∀ x : Stream C run.password,
      x.header = (HonestFile.stream run).header → x.work = run.result.work →
      d.filename = x.filename ∧ ∃ state c rest, d.mode = .v2 state ∧ state.header = x.header ∧
        state.nextSequence = 1 ∧ start ++ b = x.header ++ (x.metadata.head 0 ++ c ++ rest) ∧
        x.metadata.encrypted C x.key x.baseNonce x.header 0 = .ok c ∧
        s'.reader.Delivers rest ∧ s'.writer = s.writer := by
  obtain ⟨params, chunkSize, salt, baseNonce, key, c, rest, hbytes, -, -, -, -, -, hc, -, -, hdec, -,
    -, hmode, hrest, hw⟩ := newV2_eq_ok hstart hs h
  obtain ⟨run, hrun, hheader, hrecord⟩ := record_of_decrypt hideal (by decide) hc hdec
  refine ⟨run, hrun, fun x hx hwork => ?_⟩
  obtain ⟨hget, hlen, henc⟩ := hrecord x hwork
  have hmeta : x.metadata = ⟨recordMetadata, toBe 2 d.filename.bytes.length ++ d.filename.bytes⟩ :=
    Option.some.inj hget
  have hname : d.filename = x.filename := by
    have := congrArg Record.plaintext hmeta
    obtain ⟨-, hbytes⟩ := List.append_inj this (by simp)
    exact (Str.ext hbytes).symm
  rw [hx, hheader]
  refine ⟨hname, _, c, rest, hmode, rfl, rfl, ?_, ?_, hrest, hw⟩
  · rw [hbytes, hmeta, hlen]; rfl
  · rw [hmeta, ← hheader, ← hx]; exact henc

/-- A decryptor of the one-shot format holds a file's name and whole content. -/
theorem legacy_of_new {files : List (HonestFile C)} (hideal : Ideal C files)
    {password start b : Bytes} {s s' : Streams} {d : StreamDecryptor}
    (hstart : start = magicBytes ++ [legacyVersion]) (hs : s.reader.Delivers b)
    (h : StreamDecryptor.newLegacy C password start s = (.ok d, s')) :
    ∃ run, HonestFile.legacy run ∈ files ∧ start ++ b = run.bytes ∧ d.filename = run.filename ∧
      d.mode = .legacy run.plaintext := by
  unfold StreamDecryptor.newLegacy at h
  obtain ⟨rest, t, hread, h⟩ := Eff.bind_eq_ok.1 h
  obtain ⟨r', hr', -⟩ := hs.readToEnd (maxLegacyFileSize + 1 - start.length)
  simp only [liftRead, hr', Prod.mk.injEq, Except.ok.injEq] at hread
  obtain ⟨rfl, rfl⟩ := hread
  have hlen : start.length = 9 := by rw [hstart]; rfl
  by_cases hlimit : maxLegacyFileSize < (start ++ b.take (maxLegacyFileSize + 1 - start.length)).length
  · simp only [hlimit, if_true] at h; cases h
  have hall : b.take (maxLegacyFileSize + 1 - start.length) = b := by
    rw [List.length_append, List.length_take, hlen] at hlimit
    apply List.take_of_length_le
    omega
  rw [hall] at h hlimit
  simp only [hlimit, if_false] at h
  obtain ⟨⟨name, plaintext⟩, t, hfile, h⟩ := Eff.bind_eq_ok.1 h
  obtain ⟨hfile, -⟩ := liftCrypto_eq_ok.1 hfile
  obtain ⟨key, nonce, hname, hdec⟩ := decryptFile_eq_ok hfile
  cases h
  obtain ⟨f, hf, hcall⟩ := hideal _ _ _ _ _ hdec
  have hversion : ((start ++ b).take (23 + ofBe (slice (start ++ b) 21 23) + 28))[8]? =
      some legacyVersion := by
    rw [List.getElem?_take_of_lt (by omega), List.getElem?_append_left (by omega), hstart]
    rfl
  cases f with
  | stream run =>
    obtain ⟨x, -, -, -, -, hwork⟩ := stream_of_run run
    have hcall : Work.encrypt _ _ _ _ _ ∈ run.result.work := hcall
    rw [← hwork] at hcall
    simp only [Stream.work, List.mem_cons, reduceCtorEq, false_or] at hcall
    obtain ⟨i, r, -, hcall⟩ := mem_sealCalls hcall
    rw [Work.encrypt.injEq] at hcall
    rw [hcall.2.2.2.1, StreamParts.header, streamHeader_version] at hversion
    exact absurd hversion (by decide)
  | legacy run =>
    obtain ⟨hlong, key, c, hbytes, hcalls⟩ := legacy_of_run run
    simp only [HonestFile.calls, hcalls, List.mem_cons, reduceCtorEq, Work.encrypt.injEq,
      List.not_mem_nil, or_false, false_or, Except.ok.injEq] at hcall
    obtain ⟨-, -, rfl, haad, hc⟩ := hcall
    have hall : start ++ b = run.bytes := by
      rw [hbytes, ← haad, ← hc, List.take_append_drop]
    refine ⟨run, hf, hall, ?_, rfl⟩
    apply Str.ext
    have hlayout : start ++ b = (magicBytes ++ [legacyVersion] ++ run.params.encode) ++
        (toBe 2 run.filename.bytes.length ++
          (run.filename.bytes ++ (run.salt.bytes ++ (run.nonce.bytes ++ c)))) := by
      rw [hall, hbytes]
      simp [HonestFile.header, legacyHeader]
    have hfield : slice (start ++ b) 21 23 = toBe 2 run.filename.bytes.length := by
      rw [hlayout]
      exact slice_append (by simp [length_encode, magicBytes]) (by simp)
    rw [hfield, ofBe_toBe (by omega)] at hname
    rw [hname, hlayout, ← List.append_assoc]
    exact slice_append (by simp [length_encode, magicBytes]) rfl

/-- For every input and password: a decryptor that is made names an honest
file whose header the input begins with; whatever then happens, at every moment
the output is a prefix of that file's content; and the run succeeds only on the
file itself, with its whole content as output. -/
theorem only_honest_files {files : List (HonestFile C)} (hideal : Ideal C files)
    (hdistinct : HeadersDistinct files) {password b : Bytes} {s s₁ : Streams} {d : StreamDecryptor}
    (hs : s.reader.Delivers b) (hnew : StreamDecryptor.new C password s = (.ok d, s₁)) :
    ∃ f ∈ files, f.header <+: b ∧ d.filename = f.filename ∧
      ∀ (writer : Writer) (r : Except IronlockError Nat) (s₂ : Streams),
        StreamDecryptor.decryptTo C d { s₁ with writer } = (r, s₂) →
        ∃ handed, s₂.writer.portions = writer.portions ++ handed ∧
          (∀ moment, (handed.take moment).flatten <+: f.plaintext) ∧
          ∀ m, r = .ok m → b = f.bytes ∧ handed.flatten = f.plaintext := by
  unfold StreamDecryptor.new at hnew
  obtain ⟨start, t, hread, hnew⟩ := Eff.bind_eq_ok.1 hnew
  obtain ⟨rest, rfl, hlen, hrest, -⟩ := readExactFormat_eq_ok hs hread
  by_cases hmagic : slice start 0 8 = magicBytes
  case neg => rw [if_pos hmagic] at hnew; cases hnew
  rw [if_neg (not_not.2 hmagic)] at hnew
  have hstart {v : UInt8} (hv : start[8]? = some v) : start = magicBytes ++ [v] := by
    have hsplit : start.take 9 = start.take 8 ++ start[8]?.toList := List.take_add_one
    rw [List.take_of_length_le (le_of_eq hlen), hv] at hsplit
    rw [hsplit]
    congr 1
  -- each portion of what is handed over is followed by the rest of it
  have moments {handed : List Bytes} {P : Bytes} (h : handed.flatten <+: P) (moment : Nat) :
      (handed.take moment).flatten <+: P := by
    refine List.IsPrefix.trans ⟨(handed.drop moment).flatten, ?_⟩ h
    rw [← List.flatten_append, List.take_append_drop]
  by_cases hv2 : start[8]? = some formatVersion
  · rw [if_pos hv2] at hnew
    obtain ⟨run, hrun, hrecord⟩ := stream_of_new hideal (hstart hv2) hrest hnew
    obtain ⟨x, hheader, hname, hcontent, hbytes, hwork⟩ := stream_of_run run
    obtain ⟨hd, state, c, tail, hmode, hstate, hnext, hall, henc, htail, -⟩ := hrecord x hheader hwork
    refine ⟨_, hrun, ?_, by rw [hd, hname]; rfl, fun writer r s₂ h => ?_⟩
    · rw [hall, hheader]; exact List.prefix_append ..
    · simp only [StreamDecryptor.decryptTo, hmode] at h
      obtain ⟨handed, hportions, hprefix, hok⟩ := decryptChunks_prefix (s := { s₁ with writer })
        hideal hdistinct hrun x hheader hwork (List.nil_append x.chunks).symm hstate hnext htail h
      have hplain : x.chunks.flatten = run.plaintext := hcontent
      rw [hplain] at hprefix hok
      refine ⟨handed, hportions, moments hprefix, fun m hm => ?_⟩
      obtain ⟨hflat, hsealed⟩ := hok m hm
      refine ⟨?_, hflat⟩
      have hbody := x.body_sealed.unique (.cons henc hsealed)
      rw [hall, ← hbody]
      exact hbytes
  · rw [if_neg hv2] at hnew
    by_cases hv1 : start[8]? = some legacyVersion
    case neg => rw [if_neg hv1] at hnew; cases hnew
    rw [if_pos hv1] at hnew
    obtain ⟨run, hrun, hall, hname, hmode⟩ := legacy_of_new hideal (hstart hv1) hrest hnew
    obtain ⟨-, -, c, hbytes, -⟩ := legacy_of_run run
    refine ⟨_, hrun, by rw [hall, hbytes]; exact List.prefix_append .., hname, fun writer r s₂ h => ?_⟩
    simp only [StreamDecryptor.decryptTo, hmode] at h
    obtain ⟨handed, hportions, hprefix, hok⟩ := writeAll_portions run.plaintext { s₁ with writer }
    rcases hw : writeAll run.plaintext { s₁ with writer } with ⟨e | u, t⟩ <;>
      rw [hw] at hportions hok
    · rw [Eff.bind_error hw] at h
      cases h
      exact ⟨handed, hportions, moments hprefix, by simp⟩
    · rw [Eff.bind_ok hw] at h
      cases h
      exact ⟨handed, hportions, moments hprefix, fun _ _ => ⟨hall, hok rfl⟩⟩

/-! ## A cipher that opens two files -/

/-- The checksum cipher, opening only what the calls sealed. -/
def opening (calls : List Work) : Crates :=
  { Crates.checksummed with
    aeadDecrypt := fun key nonce c aad =>
      let p := c.take (c.length - tagSize)
      if .encrypt key nonce p aad (.ok c) ∈ calls then some p else none }

/-- Three bytes encrypted under the name "a". -/
def sample (C : Crates) : Except IronlockError Nat × Streams :=
  encryptStreamWithParams C (.zero 16) (.zero 12) [112, 119] letterA .current
    ⟨[.data [1, 2], .data [3]], ⟨[], []⟩, []⟩

/-- Two bytes encrypted in the old format. -/
def legacySample (C : Crates) : Except IronlockError Bytes × List Work :=
  createEncryptedFileWithParams C (.zero 16) (.zero 12) [112, 119] letterA [4, 5] .current []

def sampleCalls : List Work := (sample .checksummed).2.work ++ (legacySample .checksummed).2

/-- The file in the old format. -/
def legacyBytes : Bytes :=
  match (legacySample (opening sampleCalls)).1 with
  | .ok b => b
  | .error _ => []

/-- Both are written under the cipher, and it has seen no other calls. -/
theorem samples_completed : sample (opening sampleCalls) = (.ok 3, (sample (opening sampleCalls)).2) ∧
    legacySample (opening sampleCalls) = (.ok legacyBytes, (legacySample (opening sampleCalls)).2) ∧
    (sample (opening sampleCalls)).2.work ++ (legacySample (opening sampleCalls)).2 = sampleCalls := by
  have hall : (sample (opening sampleCalls)).1.toOption = some 3 ∧
      (legacySample (opening sampleCalls)).1.toOption.isSome = true ∧
      (sample (opening sampleCalls)).2.work ++ (legacySample (opening sampleCalls)).2 = sampleCalls := by
    decide +kernel
  obtain ⟨h, hlegacy, hcalls⟩ := hall
  refine ⟨?_, ?_, hcalls⟩
  · rcases hrun : sample (opening sampleCalls) with ⟨_ | n, s⟩ <;> rw [hrun] at h <;> cases h
    rfl
  · unfold legacyBytes
    rcases hrun : legacySample (opening sampleCalls) with ⟨_ | b, calls⟩ <;> rw [hrun] at hlegacy
    cases hlegacy

def sampleRun : StreamRun (opening sampleCalls) where
  password := [112, 119]
  salt := .zero 16
  baseNonce := .zero 12
  filename := letterA
  params := .current
  plaintext := [1, 2, 3]
  source := [.data [1, 2], .data [3]]
  schedule := []
  length := 3
  result := (sample (opening sampleCalls)).2
  delivers := ⟨by decide, rfl⟩
  completed := samples_completed.1

def legacySampleRun : LegacyRun (opening sampleCalls) where
  password := [112, 119]
  salt := .zero 16
  nonce := .zero 12
  filename := letterA
  params := .current
  plaintext := [4, 5]
  bytes := legacyBytes
  calls := (legacySample (opening sampleCalls)).2
  completed := samples_completed.2.1

def samples : List (HonestFile (opening sampleCalls)) := [.stream sampleRun, .legacy legacySampleRun]

theorem samples_ideal : Ideal (opening sampleCalls) samples := by
  intro key nonce c aad p h
  simp only [opening] at h
  split at h
  case isFalse => cases h
  case isTrue hmem =>
    cases h
    rw [← samples_completed.2.2] at hmem
    rcases List.mem_append.1 hmem with hmem | hmem
    · exact ⟨_, List.mem_cons_self, hmem⟩
    · exact ⟨_, List.mem_cons_of_mem _ List.mem_cons_self, hmem⟩

/-- A version tells the two headers apart. -/
theorem samples_distinct : HeadersDistinct samples := by
  refine List.pairwise_cons.2 ⟨?_, List.pairwise_singleton _ _⟩
  intro f hf heq
  rw [List.mem_singleton.1 hf] at heq
  have hstream : (HonestFile.stream sampleRun).header[8]? = some formatVersion := by
    have h := streamHeader_version sampleRun.params defaultChunkSize sampleRun.salt sampleRun.baseNonce []
    rwa [List.append_nil] at h
  rw [heq, HonestFile.header, legacyHeader_version] at hstream
  cases hstream

/-- The first file without its last byte, and the second after it. -/
def spliced : Bytes := sampleRun.result.writer.written.dropLast ++ legacyBytes

theorem only_honest_files_sample : ∃ d s₁,
    StreamDecryptor.new (opening sampleCalls) [112, 119] ⟨[.data spliced], ⟨[], []⟩, []⟩ = (.ok d, s₁) ∧
    ∃ f ∈ samples, f.header <+: spliced ∧ d.filename = f.filename ∧
      ∀ (writer : Writer) (r : Except IronlockError Nat) (s₂ : Streams),
        StreamDecryptor.decryptTo (opening sampleCalls) d { s₁ with writer } = (r, s₂) →
        ∃ handed, s₂.writer.portions = writer.portions ++ handed ∧
          (∀ moment, (handed.take moment).flatten <+: f.plaintext) ∧
          ∀ m, r = .ok m → spliced = f.bytes ∧ handed.flatten = f.plaintext := by
  have hnew : (StreamDecryptor.new (opening sampleCalls) [112, 119]
      ⟨[.data spliced], ⟨[], []⟩, []⟩).1.toOption.isSome = true := by
    decide +kernel
  rcases h : StreamDecryptor.new (opening sampleCalls) [112, 119]
    ⟨[.data spliced], ⟨[], []⟩, []⟩ with ⟨_ | d, s₁⟩
  · rw [h] at hnew; cases hnew
  · refine ⟨d, s₁, rfl, only_honest_files samples_ideal samples_distinct ?_ h⟩
    have hne : spliced ≠ [] := by decide +kernel
    exact ⟨by simpa [ReadEvent.Delivering] using hne, by simp [ReadEvent.bytes]⟩

end Ironlock.Tampering
