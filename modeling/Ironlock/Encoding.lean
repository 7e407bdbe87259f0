import Ironlock.Delivery
import Ironlock.StreamLayout

/-! What a successful encryption has written is a well-formed stream. -/

namespace Ironlock
open ByteOrder
open Effect

variable {C : Crates}

section
variable {key : Key} {baseNonce : Nonce} {header : Bytes}

theorem writeRecord_eq_ok {kind : UInt8} {sequence : Nat} {plaintext : Bytes} {s s' : Streams}
    (h : writeRecord C key baseNonce header kind sequence plaintext s = (.ok (), s')) :
    ∃ body, Sealed C key baseNonce header sequence [⟨kind, plaintext⟩] body ∧
      s'.reader = s.reader ∧ s'.writer.written = s.writer.written ++ body ∧
      s'.work = s.work ++ sealCalls C key baseNonce header sequence [⟨kind, plaintext⟩] := by
  simp only [writeRecord, Eff.bind_eq_ok, Eff.ofExcept_apply, Prod.mk.injEq] at h
  obtain ⟨len, _, ⟨hlen, rfl⟩, record, _, ⟨hrecord, rfl⟩, c, s₁, hc, _, s₂, h₂, h₃⟩ := h
  obtain ⟨hc, hs₁⟩ := liftCrypto_eq_ok.1 hc
  obtain ⟨hc, hwork⟩ := encrypt_eq_ok.1 hc
  obtain ⟨hw₂, hs₂⟩ := writeAll_eq_ok h₂
  obtain ⟨hw₃, hs₃⟩ := writeAll_eq_ok h₃
  obtain ⟨-, rfl⟩ := checkedAdd_eq_ok.1 hlen
  have hhead : record = Record.head ⟨kind, plaintext⟩ sequence := by
    unfold recordHeader at hrecord
    split at hrecord <;> cases hrecord
    rfl
  subst hhead
  refine ⟨_, .cons hc (.nil _), ?_, ?_, ?_⟩
  · rw [hs₃, hs₂, hs₁]
  · rw [hw₃, hw₂, hs₁]
    simp
  · rw [hs₃, hs₂]
    simp only [hwork, sealCalls, Record.encrypted]
    rw [← hc]; rfl

theorem countChunk_eq_ok {total count sequence filled : Nat} {totals : Nat × Nat × Nat}
    (h : countChunk total count sequence filled = .ok totals) :
    total + filled < 2 ^ 64 ∧ sequence + 1 < 2 ^ 64 ∧
      totals = (total + filled, count + 1, sequence + 1) := by
  unfold countChunk at h
  rcases ha : checkedAdd total filled "plaintext length overflow" with _ | t <;>
    rw [ha] at h <;> [cases h; skip]
  rcases hb : checkedAdd count 1 "chunk counter overflow" with _ | n <;>
    simp only [bind, Except.bind, hb] at h <;> [cases h; skip]
  rcases hc : checkedAdd sequence 1 "record counter exhausted" with _ | q <;>
    simp only [hc, reduceCtorEq] at h
  obtain ⟨hlt, rfl⟩ := checkedAdd_eq_ok.1 ha
  obtain ⟨-, rfl⟩ := checkedAdd_eq_ok.1 hb
  obtain ⟨hnext, rfl⟩ := checkedAdd_eq_ok.1 hc
  exact ⟨hlt, hnext, (Except.ok.inj h).symm⟩

/-- The chunk loop writes the rest of the input as numbered data records, and
its counters are theirs. -/
theorem encryptChunks_eq_ok {P : Bytes} {total count sequence : Nat} {s s' : Streams}
    {totals : Nat × Nat × Nat}
    (h : encryptChunks C key baseNonce header total count sequence s = (.ok totals, s'))
    (hs : s.reader.Delivers P) (htotal : total < 2 ^ 64) :
    ∃ chunks body, chunks.flatten = P ∧
      (∀ c ∈ chunks, 1 ≤ c.length ∧ c.length ≤ defaultChunkSize) ∧
      defaultChunkSize * chunks.length < P.length + defaultChunkSize ∧
      total + P.length < 2 ^ 64 ∧
      Sealed C key baseNonce header sequence (dataRecords chunks) body ∧
      totals = (total + P.length, count + chunks.length, sequence + chunks.length) ∧
      s'.writer.written = s.writer.written ++ body ∧
      s'.work = s.work ++ sealCalls C key baseNonce header sequence (dataRecords chunks) := by
  fun_induction encryptChunks C key baseNonce header total count sequence s generalizing P with
  | case1 => cases h
  | case2 total count sequence s r hfill =>
    obtain ⟨r', hfill', -⟩ := hs.fillBuffer defaultChunkSize
    rw [hfill] at hfill'
    obtain ⟨hnil, -⟩ := Prod.mk.inj hfill'
    have hP : P = [] := by simpa [defaultChunkSize] using hnil
    cases h
    exact ⟨[], [], by simp [hP], by simp, by simp [defaultChunkSize], by simpa [hP], .nil _,
      by simp [hP], by simp, by simp [dataRecords, sealCalls]⟩
  | case3 => cases h
  | case4 => cases h
  | case5 total count sequence s chunk r hfill hchunk s₁ hwrite t n q hcount hshort =>
    obtain ⟨r', hfill', -⟩ := hs.fillBuffer defaultChunkSize
    rw [hfill] at hfill'
    cases hfill'
    have hle : P.length ≤ defaultChunkSize := by
      rw [List.length_take] at hshort; omega
    rw [List.take_of_length_le hle] at hchunk hwrite hcount
    obtain ⟨hlt, -, heq⟩ := countChunk_eq_ok hcount
    obtain ⟨body, hsealed, -, hwritten, hwork⟩ := writeRecord_eq_ok hwrite
    have hpos := List.length_pos_of_ne_nil hchunk
    cases h; cases heq
    exact ⟨[P], body, by simp, by simp; omega, by simp; omega, hlt, hsealed, rfl, hwritten, hwork⟩
  | case6 total count sequence s chunk r hfill hchunk s₁ hwrite t n q hcount hfull ih =>
    obtain ⟨r', hfill', hr⟩ := hs.fillBuffer defaultChunkSize
    rw [hfill] at hfill'
    cases hfill'
    have hlen : (P.take defaultChunkSize).length = defaultChunkSize := by
      rw [List.length_take] at hfull ⊢; omega
    have hP : P.length = defaultChunkSize + (P.drop defaultChunkSize).length := by
      rw [List.length_take] at hlen; rw [List.length_drop]; omega
    obtain ⟨hlt, -, heq⟩ := countChunk_eq_ok hcount
    obtain ⟨first, hfirst, hreader, hwritten, hwork⟩ := writeRecord_eq_ok hwrite
    cases heq
    obtain ⟨chunks, body, hflat, hbounds, hcountle, hsum, hsealed, rfl, hwritten', hwork'⟩ :=
      ih h (by rwa [hreader]) hlt
    have hpos := List.length_pos_of_ne_nil hchunk
    refine ⟨P.take defaultChunkSize :: chunks, first ++ body, by simp [hflat], ?_, ?_, ?_,
      hfirst.append hsealed, ?_, ?_, ?_⟩
    · rintro c (_ | ⟨_, hc⟩)
      · exact ⟨hpos, le_of_eq hlen⟩
      · exact hbounds c hc
    · rw [List.length_cons, Nat.mul_succ]; omega
    · omega
    · simp only [List.length_cons, Prod.mk.injEq]; omega
    · rw [hwritten', hwritten, List.append_assoc]
    · rw [hwork', hwork, List.append_assoc]; rfl

end

/-- A run that succeeds on an input has written a stream whose content it is. -/
theorem encryptStream_eq_ok {salt : Salt} {baseNonce : Nonce} {password P : Bytes} {filename : Str}
    {params : KdfParams} {s s' : Streams} {m : Nat}
    (h : encryptStreamWithParams C salt baseNonce password filename params s = (.ok m, s'))
    (hs : s.reader.Delivers P) :
    ∃ x : Stream C password, x.header = streamHeader params defaultChunkSize salt baseNonce ∧
      x.filename = filename ∧ x.content = P ∧ m = P.length ∧
      s'.writer.written = s.writer.written ++ x.bytes ∧ s'.work = s.work ++ x.work := by
  unfold encryptStreamWithParams at h
  by_cases hpos : filename.bytes = []
  · simp [hpos] at h
  by_cases hlong : maxFilenameBytes < filename.bytes.length
  · simp [hpos, hlong] at h
  simp only [hpos, hlong, if_false] at h
  obtain ⟨key, s₁, hkey, h⟩ := Eff.bind_eq_ok.1 h
  obtain ⟨_, s₂, hheader, h⟩ := Eff.bind_eq_ok.1 h
  obtain ⟨_, s₃, hmeta, h⟩ := Eff.bind_eq_ok.1 h
  obtain ⟨⟨total, count, sequence⟩, s₄, hchunks, h⟩ := Eff.bind_eq_ok.1 h
  obtain ⟨_, s₅, hfinal, hret⟩ := Eff.bind_eq_ok.1 h
  obtain ⟨hkey, hs₁⟩ := liftCrypto_eq_ok.1 hkey
  obtain ⟨hvalid, haccepted, hderived, hk₁⟩ := deriveKey_eq_ok.1 hkey
  obtain ⟨hw₂, hs₂⟩ := writeAll_eq_ok hheader
  obtain ⟨bmeta, hbmeta, hr₃, hw₃, hk₃⟩ := writeRecord_eq_ok hmeta
  have hdeliver : s₃.reader.Delivers P := by rw [hr₃, hs₂, hs₁]; exact hs
  obtain ⟨chunks, bdata, hflat, hbounds, hcount, htotal, hbdata, htotals, hw₄, hk₄⟩ :=
    encryptChunks_eq_ok hchunks hdeliver (by decide)
  cases htotals
  obtain ⟨bfinal, hbfinal, -, hw₅, hk₅⟩ := writeRecord_eq_ok hfinal
  cases hret
  let parts : StreamParts :=
    { params, chunkSize := defaultChunkSize, salt, baseNonce, filename, chunks
      params_valid := hvalid
      chunkSize_bounds := by decide
      filename_bounds := by
        have := List.length_pos_of_ne_nil hpos
        simp only [maxFilenameBytes] at hlong
        omega
      chunk_bounds := hbounds
      content_bound := by rw [hflat]; omega
      count_bound := by simp only [defaultChunkSize] at hcount; omega }
  have hrecords : parts.records =
      [⟨recordMetadata, toBe 2 filename.bytes.length ++ filename.bytes⟩] ++
        (dataRecords chunks ++ [⟨recordFinal, toBe 8 P.length ++ toBe 8 chunks.length⟩]) := by
    simp [parts, StreamParts.records, StreamParts.metadata, StreamParts.final,
      StreamParts.content, hflat]
  rw [Nat.zero_add, Nat.zero_add] at hbfinal hk₅
  let x : Stream C password :=
    { parts with
      key
      body := bmeta ++ (bdata ++ bfinal)
      params_accepted := haccepted
      key_derived := hderived
      body_sealed := by
        rw [hrecords]
        exact hbmeta.append (hbdata.append (by simpa using hbfinal)) }
  refine ⟨x, rfl, rfl, hflat, Nat.zero_add _, ?_, ?_⟩
  · rw [hw₅, hw₄, hw₃, hw₂, hs₁]
    simp [x, Stream.bytes, StreamParts.header, parts]
  · have hwork : x.work = .deriveKey password salt.bytes params ::
        sealCalls C key baseNonce (streamHeader params defaultChunkSize salt baseNonce) 0
          parts.records := rfl
    rw [hwork, hrecords, sealCalls_append, sealCalls_append, hk₅, hk₄, hk₃, hs₂, hk₁]
    simp

/-! ## Runs that succeed -/

/-- The cipher encrypts every plaintext of at most a megabyte under the key. -/
def Crates.Seals (C : Crates) (key : Key) : Prop :=
  ∀ nonce p aad, p.length ≤ maxChunkSize → ∃ c, C.aeadEncrypt key nonce p aad = .ok c

section
variable {key : Key} {baseNonce : Nonce} {header : Bytes}

theorem writeRecord_ok (hseal : C.Seals key) (baseNonce : Nonce) (header : Bytes) (kind : UInt8)
    (sequence : Nat) {plaintext : Bytes} {s : Streams} (hlen : plaintext.length ≤ maxChunkSize) (haccept : s.writer.Accepting) :
    ∃ s', writeRecord C key baseNonce header kind sequence plaintext s = (.ok (), s') ∧
      s'.writer.Accepting := by
  have hlen' : plaintext.length ≤ 1048576 := hlen
  obtain ⟨c, hc⟩ := hseal (deriveRecordNonce baseNonce sequence) plaintext
    (recordAad header (recordHead kind sequence (plaintext.length + tagSize))) hlen
  have hadd : checkedAdd plaintext.length tagSize "encrypted record length overflow" =
      .ok (plaintext.length + tagSize) :=
    checkedAdd_eq_ok.2 ⟨by simp only [tagSize]; omega, rfl⟩
  have hhead := recordHeader_of_lt kind sequence
    (by simp only [tagSize]; omega : plaintext.length + tagSize < 2 ^ 32)
  have henc := liftCrypto_ok (s := s) (encrypt_eq_ok.2 ⟨hc, rfl⟩)
  generalize s.work ++ _ = log at henc
  obtain ⟨w₁, hw₁, -, hacc₁⟩ := writeAll_accepting
    (recordHead kind sequence (plaintext.length + tagSize)) (s := { s with work := log }) haccept
  obtain ⟨w₂, hw₂, -, hacc₂⟩ := writeAll_accepting c (s := ⟨s.reader, w₁, log⟩) hacc₁
  refine ⟨⟨s.reader, w₂, log⟩, ?_, hacc₂⟩
  unfold writeRecord
  rw [hadd, Eff.bind_ok (Eff.ofExcept_apply ..), hhead, Eff.bind_ok (Eff.ofExcept_apply ..),
    Eff.bind_ok henc, Eff.bind_ok hw₁, hw₂]

theorem countChunk_ok {total count sequence filled : Nat} (htotal : total + filled < 2 ^ 64)
    (hcount : count + 1 < 2 ^ 64) (hseq : sequence + 1 < 2 ^ 64) :
    countChunk total count sequence filled = .ok (total + filled, count + 1, sequence + 1) := by
  unfold countChunk
  rw [checkedAdd_eq_ok.2 ⟨htotal, rfl⟩, checkedAdd_eq_ok.2 ⟨hcount, rfl⟩,
    checkedAdd_eq_ok.2 ⟨hseq, rfl⟩]
  rfl

/-- The chunk loop succeeds while the counters last. -/
theorem encryptChunks_ok (hseal : C.Seals key) (baseNonce : Nonce) (header : Bytes) {P : Bytes}
    (total count sequence : Nat) {s : Streams} (hs : s.reader.Delivers P) (haccept : s.writer.Accepting)
    (htotal : total + P.length < 2 ^ 64)
    (hcount : count + (P.length / defaultChunkSize + 1) < 2 ^ 64)
    (hseq : sequence + (P.length / defaultChunkSize + 1) < 2 ^ 64) :
    ∃ totals s', encryptChunks C key baseNonce header total count sequence s = (.ok totals, s') ∧
      s'.writer.Accepting := by
  have hwrites (sequence : Nat) {chunk : Bytes} {s : Streams} (r : Reader)
      (haccept : s.writer.Accepting) (hlen : chunk.length ≤ defaultChunkSize) :
      ∃ s', writeRecord C key baseNonce header recordData sequence chunk { s with reader := r } =
        (.ok (), s') ∧ s'.writer.Accepting :=
    writeRecord_ok (s := { s with reader := r }) hseal _ _ _ _
      (le_trans hlen (by decide : defaultChunkSize ≤ maxChunkSize)) haccept
  fun_induction encryptChunks C key baseNonce header total count sequence s generalizing P with
  | case1 total count sequence s e r hfill =>
    obtain ⟨r', hfill', -⟩ := hs.fillBuffer defaultChunkSize
    rw [hfill] at hfill'; cases hfill'
  | case2 total count sequence s r hfill => exact ⟨_, _, rfl, haccept⟩
  | case3 total count sequence s chunk r hfill hchunk e s₁ hwrite =>
    obtain ⟨r', hfill', -⟩ := hs.fillBuffer defaultChunkSize
    rw [hfill] at hfill'; cases hfill'
    obtain ⟨s', hok, -⟩ := hwrites sequence r haccept (List.length_take_le ..)
    rw [hwrite] at hok; cases hok
  | case4 total count sequence s chunk r hfill hchunk s₁ hwrite e hcounts =>
    obtain ⟨r', hfill', -⟩ := hs.fillBuffer defaultChunkSize
    rw [hfill] at hfill'; cases hfill'
    have hle := List.length_take_le' defaultChunkSize P
    generalize P.length / defaultChunkSize = n at hcount hseq
    rw [countChunk_ok (by omega) (by omega) (by omega)] at hcounts
    cases hcounts
  | case5 total count sequence s chunk r hfill hchunk s₁ hwrite t n q hcounts hshort =>
    obtain ⟨r', hfill', -⟩ := hs.fillBuffer defaultChunkSize
    rw [hfill] at hfill'; cases hfill'
    obtain ⟨s', hok, hacc⟩ := hwrites sequence r haccept (List.length_take_le ..)
    rw [hwrite] at hok; cases hok
    exact ⟨_, _, rfl, hacc⟩
  | case6 total count sequence s chunk r hfill hchunk s₁ hwrite t n q hcounts hfull ih =>
    obtain ⟨r', hfill', hr'⟩ := hs.fillBuffer defaultChunkSize
    rw [hfill] at hfill'; cases hfill'
    obtain ⟨s', hok, hacc⟩ := hwrites sequence r haccept (List.length_take_le ..)
    rw [hwrite] at hok; cases hok
    obtain ⟨body, -, hreader, -, -⟩ := writeRecord_eq_ok hwrite
    have hlen : (P.take defaultChunkSize).length = defaultChunkSize := by
      rw [List.length_take] at hfull ⊢; omega
    have hP : P.length = (P.drop defaultChunkSize).length + defaultChunkSize := by
      rw [List.length_take] at hlen; rw [List.length_drop]; omega
    rw [hP, Nat.add_div_right _ (by decide)] at hcount hseq
    rw [hP] at htotal
    obtain ⟨-, -, heq⟩ := countChunk_eq_ok hcounts
    rw [hlen] at heq
    cases heq
    exact ih (P := P.drop defaultChunkSize) (by rw [hreader]; exact hr') hacc (by omega) (by omega)
      (by omega)

end

/-- An encryption whose input, cipher and output do not fail succeeds. -/
theorem encryptStream_ok {salt : Salt} {baseNonce : Nonce} {password P : Bytes} {filename : Str}
    {params : KdfParams} {key : Key} {s : Streams} (hname : filename.bytes ≠ [])
    (hlong : filename.bytes.length ≤ maxFilenameBytes) (hvalid : validateKdfParams params = .ok ())
    (haccepted : C.argon2Params params = .ok ())
    (hderived : C.hashPasswordInto params password salt.bytes = .ok key) (hseal : C.Seals key)
    (hs : s.reader.Delivers P) (hP : P.length < 2 ^ 64) (haccept : s.writer.Accepting) :
    ∃ s', encryptStreamWithParams C salt baseNonce password filename params s =
      (.ok P.length, s') := by
  have hchunks : P.length / defaultChunkSize + 2 < 2 ^ 64 := by
    simp only [defaultChunkSize]; omega
  suffices ∃ m s', encryptStreamWithParams C salt baseNonce password filename params s = (.ok m, s') by
    obtain ⟨m, s', h⟩ := this
    obtain ⟨x, -, -, -, rfl, -⟩ := encryptStream_eq_ok h hs
    exact ⟨s', h⟩
  have hkey := liftCrypto_ok (s := s) (deriveKey_eq_ok.2 ⟨hvalid, haccepted, hderived, rfl⟩)
  generalize s.work ++ _ = log at hkey
  obtain ⟨w₁, hheader, -, hacc₁⟩ := writeAll_accepting
    (streamHeader params defaultChunkSize salt baseNonce) (s := { s with work := log }) haccept
  have hmetalen : (toBe 2 filename.bytes.length ++ filename.bytes).length ≤ maxChunkSize := by
    simp only [maxFilenameBytes] at hlong
    simp only [List.length_append, length_toBe, maxChunkSize]
    omega
  obtain ⟨s₂, hmeta, hacc₂⟩ := writeRecord_ok (s := ⟨s.reader, w₁, log⟩) hseal baseNonce
    (streamHeader params defaultChunkSize salt baseNonce) recordMetadata 0 hmetalen hacc₁
  obtain ⟨_, -, hreader, -, -⟩ := writeRecord_eq_ok hmeta
  obtain ⟨⟨total, count, sequence⟩, s₃, hloop, hacc₃⟩ := encryptChunks_ok (s := s₂) (P := P) hseal baseNonce
    (streamHeader params defaultChunkSize salt baseNonce) 0 0 1 (by rw [hreader]; exact hs) hacc₂
    (by omega) (by omega) (by omega)
  obtain ⟨s₄, hfinal, -⟩ := writeRecord_ok (s := s₃) hseal baseNonce
    (streamHeader params defaultChunkSize salt baseNonce) recordFinal sequence
    (by simp [maxChunkSize] : (toBe 8 total ++ toBe 8 count).length ≤ maxChunkSize) hacc₃
  refine ⟨total, s₄, ?_⟩
  unfold encryptStreamWithParams
  simp only [if_neg hname, if_neg (Nat.not_lt.2 hlong)]
  rw [Eff.bind_ok hkey, Eff.bind_ok hheader, Eff.bind_ok hmeta]
  refine (Eff.bind_ok hloop _).trans ?_
  rw [Eff.bind_ok hfinal]
  rfl

end Ironlock
