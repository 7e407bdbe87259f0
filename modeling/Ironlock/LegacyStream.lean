import Ironlock.LegacyFormat
import Ironlock.Fragmentation

/-! The streaming reader of a version 1 file and the one-shot decoder agree. -/

namespace Ironlock
open ByteOrder (Bytes)
open Effect

/-! ## The first nine bytes -/

section
variable {b : Bytes}

theorem take_nine (hmagic : slice b 0 8 = magicBytes) {version : UInt8}
    (hversion : b[8]? = some version) : b.take 9 = magicBytes ++ [version] := by
  rw [List.take_add_one, hversion, ← hmagic]
  rfl

theorem fields_take_nine (b : Bytes) :
    slice (b.take 9) 0 8 = slice b 0 8 ∧ (b.take 9)[8]? = b[8]? := by
  constructor
  · simp [slice, List.take_take]
  · simp

/-- What does not begin as a version 1 file is not one. -/
theorem decryptFile_foreign {C : Crates} {password : Bytes} {log : List Work}
    (h : ¬(slice b 0 8 = magicBytes ∧ b[8]? = some legacyVersion)) :
    decryptFile C password b log = (.error .invalidFileFormat, log) := by
  unfold decryptFile
  by_cases hmin : b.length < minimumSize
  · rw [if_pos hmin, Eff.fail_apply]
  by_cases hmagic : slice b 0 8 = magicBytes
  · rw [if_neg hmin, if_neg (not_not.2 hmagic), if_pos fun hversion => h ⟨hmagic, hversion⟩,
      Eff.fail_apply]
  · rw [if_neg hmin, if_pos hmagic, Eff.fail_apply]

end

namespace StreamDecryptor

/-! ## Any decoder in the place of `decrypt_file` -/

/-- `new_legacy` over a decoder that is handed the whole input. -/
def newLegacyWith (decoder : Bytes → CryptoM (Str × Bytes)) (start : Bytes) :
    StreamM StreamDecryptor := do
  let remainingLimit := maxLegacyFileSize + 1 - start.length
  let rest ← liftRead fun r =>
    match r.readToEnd remainingLimit with
    | (.ok b, r') => (.ok b, r')
    | (.error e, r') => (.error (.ioError e), r')
  let encrypted := start ++ rest
  if maxLegacyFileSize < encrypted.length then
    Eff.fail (.resourceLimit [.text "legacy encrypted files are limited to ",
      .number maxLegacyFileSize, .text " bytes"])
  else
    let (filename, plaintext) ← liftCrypto (decoder encrypted)
    return ⟨filename, .legacy plaintext⟩

/-- `new` over a decoder for version 1 files. -/
def newWith (C : Crates) (password : Bytes) (decoder : Bytes → CryptoM (Str × Bytes)) :
    StreamM StreamDecryptor := do
  let start ← readExactFormat 9
  if slice start 0 8 ≠ magicBytes then Eff.fail .invalidFileFormat
  else if start[8]? = some formatVersion then newV2 C password start
  else if start[8]? = some legacyVersion then newLegacyWith decoder start
  else Eff.fail .invalidFileFormat

theorem newWith_decryptFile (C : Crates) (password : Bytes) :
    newWith C password (decryptFile C password) = new C password := rfl

section
variable (start : Bytes) {rest : Bytes} {s : Streams}

/-- The read behind the first bytes takes all that the limit leaves room for. -/
theorem readRest_run {rest : Bytes} {s : Streams} (hs : s.reader.Delivers rest) (room : Nat) :
    ∃ r, liftRead (fun r => match r.readToEnd room with
        | (.ok b, r') => (.ok b, r')
        | (.error e, r') => (.error (.ioError e), r')) s =
      ((.ok (rest.take room) : Except IronlockError Bytes), { s with reader := r }) ∧
      r.Delivers (rest.drop room) := by
  obtain ⟨r, hr, hr'⟩ := hs.readToEnd room
  exact ⟨r, by simp only [liftRead, hr], hr'⟩

/-- Within the limit the decoder gets the whole input. -/
theorem newLegacyWith_within (decoder : Bytes → CryptoM (Str × Bytes)) (hs : s.reader.Delivers rest)
    (hlen : (start ++ rest).length ≤ maxLegacyFileSize) :
    ∃ r, newLegacyWith decoder start s =
      (do
        let (filename, plaintext) ← liftCrypto (decoder (start ++ rest))
        return ⟨filename, .legacy plaintext⟩ : StreamM StreamDecryptor) { s with reader := r } := by
  obtain ⟨r, hr, -⟩ := readRest_run hs (maxLegacyFileSize + 1 - start.length)
  rw [List.length_append] at hlen
  rw [List.take_of_length_le (by omega)] at hr
  refine ⟨r, ?_⟩
  unfold newLegacyWith
  refine (Eff.bind_ok hr _).trans ?_
  rw [if_neg (by rw [List.length_append]; omega)]

/-- Over the limit the decoder is not reached. -/
theorem newLegacyWith_over (hs : s.reader.Delivers rest) (hstart : start.length ≤ maxLegacyFileSize)
    (hlen : maxLegacyFileSize < (start ++ rest).length) :
    ∃ r, r.Delivers ((start ++ rest).drop (maxLegacyFileSize + 1)) ∧
      ∀ decoder, newLegacyWith decoder start s =
        (.error (.resourceLimit [.text "legacy encrypted files are limited to ",
          .number maxLegacyFileSize, .text " bytes"]), { s with reader := r }) := by
  obtain ⟨r, hr, hrest⟩ := readRest_run hs (maxLegacyFileSize + 1 - start.length)
  rw [List.length_append] at hlen
  refine ⟨r, ?_, fun decoder => ?_⟩
  · rwa [List.drop_append, List.drop_of_length_le (by omega), List.nil_append]
  · unfold newLegacyWith
    refine (Eff.bind_ok hr _).trans ?_
    rw [if_pos (by rw [List.length_append, List.length_take]; omega), Eff.fail_apply]

end

section
variable (C : Crates) (password : Bytes) {b : Bytes} {s : Streams}

/-- A file with the first bytes of version 1 is handed to `new_legacy`. -/
theorem newWith_legacy (hs : s.reader.Delivers b)
    (hstart : b.take 9 = magicBytes ++ [legacyVersion]) :
    ∃ r, r.Delivers (b.drop 9) ∧ ∀ decoder,
      newWith C password decoder s = newLegacyWith decoder (b.take 9) { s with reader := r } := by
  have hlen : (b.take 9).length = 9 := by rw [hstart]; rfl
  rw [← List.take_append_drop 9 b] at hs
  obtain ⟨r, hr, hrest⟩ := readExactFormat_ok hs hlen
  refine ⟨r, hrest, fun decoder => ?_⟩
  unfold newWith
  rw [Eff.bind_ok hr, hstart]
  rfl

/-- A file with the first bytes of neither version is refused. -/
theorem newWith_foreign (decoder : Bytes → CryptoM (Str × Bytes)) (hs : s.reader.Delivers b)
    (hv2 : b.take 9 ≠ magicBytes ++ [formatVersion])
    (hv1 : b.take 9 ≠ magicBytes ++ [legacyVersion]) :
    ∃ r, newWith C password decoder s = (.error .invalidFileFormat, { s with reader := r }) := by
  unfold newWith
  by_cases hlen : 9 ≤ b.length
  case neg =>
    obtain ⟨r, hr⟩ := readExactFormat_short hs (Nat.lt_of_not_le hlen)
    exact ⟨r, by rw [Eff.bind_error hr]⟩
  have htake : (b.take 9).length = 9 := by simpa using hlen
  rw [← List.take_append_drop 9 b] at hs
  obtain ⟨r, hr, -⟩ := readExactFormat_ok hs htake
  obtain ⟨hmagic, hversion⟩ := fields_take_nine b
  refine ⟨r, ?_⟩
  rw [Eff.bind_ok hr, hmagic, hversion]
  by_cases h : slice b 0 8 = magicBytes
  · rw [if_neg (not_not.2 h), if_neg fun hv => hv2 (take_nine h hv),
      if_neg fun hv => hv1 (take_nine h hv), Eff.fail_apply]
  · rw [if_pos h, Eff.fail_apply]

end

/-- An input that does not begin as a version 2 file, in whatever portions it
comes. Up to the size limit, streaming and the one-shot decoder agree: the same
name and content, or the same error, and the same work. Over the limit a version
1 file is refused whatever decoder stands in the place of `decrypt_file`, with
no work done and one byte more than the limit taken from the reader. -/
theorem streaming_agrees_with_decryptFile {C : Crates} {password b : Bytes} {reader : Reader}
    {schedule : List WriteEvent} {log : List Work} (hreader : reader.Delivers b)
    (hwriter : Writer.Accepting ⟨schedule, []⟩)
    (hstart : b.take 9 ≠ magicBytes ++ [formatVersion]) :
    (b.length ≤ 268435456 →
      match decryptFile C password b log with
      | (.ok (name, P), log') => ∃ d s₁ s₂,
          new C password ⟨reader, ⟨schedule, []⟩, log⟩ = (.ok d, s₁) ∧ d.filename = name ∧
          decryptTo C d s₁ = (.ok P.length, s₂) ∧ s₂.writer.written = P ∧ s₂.work = log'
      | (.error e, log') => ∃ s₁,
          new C password ⟨reader, ⟨schedule, []⟩, log⟩ = (.error e, s₁) ∧
          s₁.writer.written = [] ∧ s₁.work = log') ∧
    (268435456 < b.length → b.take 9 = magicBytes ++ [legacyVersion] → ∃ text s₁,
      new C password ⟨reader, ⟨schedule, []⟩, log⟩ = (.error (.resourceLimit text), s₁) ∧
      (∀ decoder : Bytes → CryptoM (Str × Bytes),
        newWith C password decoder ⟨reader, ⟨schedule, []⟩, log⟩ =
          (.error (.resourceLimit text), s₁)) ∧
      s₁.work = log ∧ s₁.writer.written = [] ∧ s₁.reader.Delivers (b.drop 268435457)) := by
  constructor
  · intro hlen
    rw [← newWith_decryptFile]
    by_cases hv1 : b.take 9 = magicBytes ++ [legacyVersion]
    case neg =>
      have hforeign : ¬(slice b 0 8 = magicBytes ∧ b[8]? = some legacyVersion) :=
        fun h => hv1 (take_nine h.1 h.2)
      obtain ⟨r, hnew⟩ := newWith_foreign C password (decryptFile C password)
        (s := ⟨reader, ⟨schedule, []⟩, log⟩) hreader hstart hv1
      rw [decryptFile_foreign hforeign]
      exact ⟨_, hnew, rfl, rfl⟩
    obtain ⟨r₁, hr₁, hnew⟩ := newWith_legacy C password
      (s := ⟨reader, ⟨schedule, []⟩, log⟩) hreader hv1
    have hwhole : b.take 9 ++ b.drop 9 = b := List.take_append_drop ..
    obtain ⟨r₂, hlegacy⟩ := newLegacyWith_within (b.take 9) (decryptFile C password)
      (s := ⟨r₁, ⟨schedule, []⟩, log⟩) hr₁ (by rw [hwhole]; exact hlen)
    rw [hwhole] at hlegacy
    replace hnew := (hnew _).trans hlegacy
    rcases hdecrypt : decryptFile C password b log with ⟨e | ⟨name, P⟩, log'⟩
    · refine ⟨⟨r₂, ⟨schedule, []⟩, log'⟩, ?_, rfl, rfl⟩
      rw [hnew, Eff.bind_error (e := e) (t := ⟨r₂, ⟨schedule, []⟩, log'⟩)
        (by simp [liftCrypto, hdecrypt])]
    · obtain ⟨w, hw, hwritten, -⟩ := writeAll_accepting P (s := ⟨r₂, ⟨schedule, []⟩, log'⟩) hwriter
      refine ⟨⟨name, .legacy P⟩, ⟨r₂, ⟨schedule, []⟩, log'⟩, ⟨r₂, w, log'⟩, ?_, rfl, ?_,
        hwritten, rfl⟩
      · rw [hnew, Eff.bind_ok (liftCrypto_ok hdecrypt)]
        rfl
      · exact (Eff.bind_ok hw _).trans rfl
  · intro hlen hv1
    obtain ⟨r₁, hr₁, hnew⟩ := newWith_legacy C password
      (s := ⟨reader, ⟨schedule, []⟩, log⟩) hreader hv1
    have hwhole : b.take 9 ++ b.drop 9 = b := List.take_append_drop ..
    obtain ⟨r₂, hr₂, hlegacy⟩ := newLegacyWith_over (b.take 9)
      (s := ⟨r₁, ⟨schedule, []⟩, log⟩) hr₁ (by simp [maxLegacyFileSize]) (by rw [hwhole]; exact hlen)
    rw [hwhole] at hr₂
    have hrun := fun decoder => (hnew decoder).trans (hlegacy decoder)
    exact ⟨_, _, hrun (decryptFile C password), hrun, rfl, rfl, hr₂⟩

/-- A file of version 1, its first byte apart. -/
theorem streaming_agrees_with_decryptFile_parts : ∃ d s₁ s₂,
    new .checksummed [112, 119] ⟨[.data (legacyA.take 1), .data (legacyA.drop 1)], ⟨[], []⟩, []⟩ =
      (.ok d, s₁) ∧
    d.filename = letterA ∧ decryptTo .checksummed d s₁ = (.ok 3, s₂) ∧
    s₂.writer.written = [1, 2, 3] := by
  have hdecrypt := Eff.run_eq_ok (m := decryptFile .checksummed [112, 119] legacyA) (s := [])
    (a := (letterA, [1, 2, 3])) (by decide +kernel)
  have hparts : legacyA.take 1 ≠ [] ∧ legacyA.drop 1 ≠ [] := by decide +kernel
  have hreader : Reader.Delivers [.data (legacyA.take 1), .data (legacyA.drop 1)] legacyA := by
    refine ⟨?_, by simp [ReadEvent.bytes, -List.drop_one]⟩
    simpa only [List.forall_mem_cons, List.not_mem_nil, ReadEvent.Delivering, and_true, false_imp_iff,
      implies_true] using hparts
  have hwriter : Writer.Accepting ⟨[], []⟩ := by simp [Writer.Accepting]
  have hstart : legacyA.take 9 ≠ magicBytes ++ [formatVersion] := by decide +kernel
  have hlen : legacyA.length ≤ 1000 := by decide +kernel
  obtain ⟨h, -⟩ := @streaming_agrees_with_decryptFile .checksummed [112, 119] legacyA _ [] [] hreader
    hwriter hstart
  rw [hdecrypt] at h
  obtain ⟨d, s₁, s₂, hnew, hname, hrun, hwritten, -⟩ := h (by omega)
  exact ⟨d, s₁, s₂, hnew, hname, hrun, hwritten⟩

end StreamDecryptor

end Ironlock
