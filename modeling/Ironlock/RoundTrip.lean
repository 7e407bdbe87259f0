import Ironlock.Encoding
import Ironlock.Decoding

/-! Decryption undoes encryption, and accepts exactly the well-formed streams. -/

namespace Ironlock
open ByteOrder

/-- Whatever `encryptStreamWithParams` reports as written, the decryptor reads
back: the name, the content and its length, however either side's input and
output are cut into portions. -/
theorem decode_encode {C : Crates} (hC : C.Inverts) {password P : Bytes} {filename : Str}
    {params : KdfParams} {salt : Salt} {baseNonce : Nonce} {source : Reader}
    {schedule : List WriteEvent} {log : List Work} {m : Nat} {s : Streams}
    (hsource : source.Delivers P)
    (h : encryptStreamWithParams C salt baseNonce password filename params
      ⟨source, ⟨schedule, []⟩, log⟩ = (.ok m, s)) :
    m = P.length ∧ ∀ (reader : Reader) (writer : Writer) (log' : List Work),
      reader.Delivers s.writer.written → writer.Accepting →
      ∃ d s₁ s₂, StreamDecryptor.new C password ⟨reader, writer, log'⟩ = (.ok d, s₁) ∧
        d.filename = filename ∧ StreamDecryptor.decryptTo C d s₁ = (.ok P.length, s₂) ∧
        s₂.writer.written = writer.written ++ P := by
  obtain ⟨x, -, rfl, rfl, rfl, hwritten, -⟩ := encryptStream_eq_ok h hsource
  refine ⟨rfl, fun reader writer log' hreader hwriter => ?_⟩
  have hbytes : s.writer.written = x.bytes := by simpa [Writer.written] using hwritten
  rw [hbytes] at hreader
  exact decrypt_ok hC x hreader hwriter

/-- A byte string that begins as a version 2 file is read to its end, giving a
name and a content, exactly when it is a well-formed stream of them. The header
and the parts of a stream determine it. -/
theorem accepts_iff_stream {C : Crates} (hC : C.Exact) {password b : Bytes} {reader : Reader}
    {writer : Writer} {log : List Work} (hstart : b.take 9 = magicBytes ++ [formatVersion])
    (hreader : reader.Delivers b) (hwriter : writer.Accepting) (filename : Str) (P : Bytes) :
    ((∃ d s₁ m s₂, StreamDecryptor.new C password ⟨reader, writer, log⟩ = (.ok d, s₁) ∧
        StreamDecryptor.decryptTo C d s₁ = (.ok m, s₂) ∧ d.filename = filename ∧
        s₂.writer.written = writer.written ++ P) ↔
      ∃ x : Stream C password, x.bytes = b ∧ x.filename = filename ∧ x.content = P) ∧
    ∀ x y : Stream C password, x.header = y.header → x.filename = y.filename →
      x.chunks = y.chunks → x.bytes = y.bytes := by
  refine ⟨⟨?_, ?_⟩, fun _ _ => Stream.canonical⟩
  · rintro ⟨d, s₁, m, s₂, hnew, hdecrypt, rfl, hwritten⟩
    obtain ⟨x, hbytes, hname, -, hw⟩ := stream_of_decrypted hC hstart hreader hnew hdecrypt
    exact ⟨x, hbytes, hname, List.append_cancel_left (hw.symm.trans hwritten)⟩
  · rintro ⟨x, rfl, rfl, rfl⟩
    obtain ⟨d, s₁, s₂, hnew, hname, hdecrypt, hwritten⟩ := decrypt_ok hC.toInverts x
      (s := ⟨reader, writer, log⟩) hreader hwriter
    exact ⟨d, s₁, _, s₂, hnew, hdecrypt, hname, hwritten⟩

/-! ## The checksum cipher -/

theorem Crates.checksummed_seals (key : Key) : Crates.checksummed.Seals key :=
  fun _ _ _ _ => ⟨_, rfl⟩

/-- An interrupted input and a slow output under the checksum cipher. -/
theorem checksummed_run : ∃ s, encryptStreamWithParams .checksummed (.zero 16) (.zero 12) [112, 119]
    letterA .current ⟨[.data [1, 2], .error ⟨.interrupted, "again"⟩, .data [3]], ⟨[.accept 1], []⟩, []⟩ =
      (.ok 3, s) :=
  encryptStream_ok (P := [1, 2, 3]) (by decide) (by decide) (by decide) rfl rfl
    (Crates.checksummed_seals _) ⟨by decide, rfl⟩ (by decide)
    (by simp [Writer.Accepting])

theorem decode_encode_checksummed : ∃ s : Streams,
    ∀ (reader : Reader) (writer : Writer) (log' : List Work),
      reader.Delivers s.writer.written → writer.Accepting →
      ∃ d s₁ s₂, StreamDecryptor.new .checksummed [112, 119] ⟨reader, writer, log'⟩ = (.ok d, s₁) ∧
        d.filename = letterA ∧ StreamDecryptor.decryptTo .checksummed d s₁ = (.ok 3, s₂) ∧
        s₂.writer.written = writer.written ++ [1, 2, 3] := by
  obtain ⟨s, h⟩ := checksummed_run
  exact ⟨s, (decode_encode Crates.checksummed_exact.toInverts (P := [1, 2, 3]) ⟨by decide, rfl⟩ h).2⟩

theorem accepts_iff_stream_checksummed : ∃ x : Stream .checksummed [112, 119],
    x.content = [1, 2, 3] ∧ ∃ d s₁ m s₂,
      StreamDecryptor.new .checksummed [112, 119] ⟨[.data x.bytes], ⟨[], []⟩, []⟩ = (.ok d, s₁) ∧
      StreamDecryptor.decryptTo .checksummed d s₁ = (.ok m, s₂) ∧ d.filename = letterA ∧
      s₂.writer.written = [1, 2, 3] := by
  obtain ⟨s, h⟩ := checksummed_run
  obtain ⟨x, -, hname, hcontent, -⟩ := encryptStream_eq_ok h (P := [1, 2, 3]) ⟨by decide, rfl⟩
  have hhead : x.header.take 9 = magicBytes ++ [formatVersion] := streamHeader_start ..
  have hlen : x.header.length = 53 := length_streamHeader ..
  have hstart : x.bytes.take 9 = magicBytes ++ [formatVersion] := by
    rw [Stream.bytes, List.take_append_of_le_length (by omega), hhead]
  have hreader : Reader.Delivers [.data x.bytes] x.bytes := by
    refine ⟨?_, by simp [ReadEvent.bytes]⟩
    simp only [List.mem_singleton, forall_eq, ReadEvent.Delivering]
    intro hnil
    simp [hnil] at hstart
  have hwriter : Writer.Accepting ⟨[], []⟩ := by simp [Writer.Accepting]
  exact ⟨x, hcontent, (accepts_iff_stream Crates.checksummed_exact hstart hreader hwriter letterA
    [1, 2, 3]).1.2 ⟨x, rfl, hname, hcontent⟩⟩

end Ironlock
