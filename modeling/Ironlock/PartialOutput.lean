import Ironlock.Faults
import Ironlock.Tampering

/-! What a stream that fails has written: the beginning of what it would have
written if no read and no write had failed. -/

namespace Ironlock
open ByteOrder (Bytes)
open Effect

/-- What is written stays written. -/
def Extends (s t : Streams) : Prop := s.writer.written <+: t.writer.written

instance : IsPreorder Streams Extends where
  refl s := List.prefix_refl s.writer.written
  trans _ _ _ h h' := List.IsPrefix.trans h h'

/-- Failures only cut the output of a streaming program short. -/
abbrev CutShort {α : Type} (m : StreamM α) : Prop := Trails Rougher Extends Extends m

theorem Rougher.extends {s t : Streams} (h : Rougher s t) : Extends s t := by
  unfold Extends
  rw [h.written]

namespace CutShort

variable {α β : Type} {m : StreamM α}

theorem bind {f : α → StreamM β} (hm : CutShort m) (hf : ∀ a, CutShort (f a)) : CutShort (m >>= f) :=
  Trails.bind (fun _ _ _ h h' => List.IsPrefix.trans h h') hm hf

theorem pure (a : α) : CutShort (Pure.pure a : StreamM α) := Trails.pure (fun _ _ h => h.extends) a

theorem fail (e : IronlockError) : CutShort (Eff.fail e : StreamM α) := Trails.fail (fun _ _ h => h.extends) e

theorem ofExcept (r : Except IronlockError α) : CutShort (Eff.ofExcept r : StreamM α) :=
  Trails.ofExcept (fun _ _ h => h.extends) r

/-- A program that writes nothing. -/
theorem of_sameWriter (hm : Robust m) (hw : Within SameWriter m) : CutShort m where
  follows := hm
  ahead := by
    intro s t hst
    unfold Extends
    rw [hw s, hw t, hst.written]
  grows := by
    intro s
    unfold Extends
    rw [hw s]

end CutShort

theorem cutShort_writeAll (buf : Bytes) : CutShort (writeAll buf) where
  follows := robust_writeAll buf
  ahead := by
    intro s t hst
    obtain ⟨more, hmore, hprefix, -⟩ := Tampering.writeAll_portions buf s
    obtain ⟨w, ht, hw, -⟩ := writeAll_accepting buf hst.accepting
    unfold Extends
    rw [ht, hw, ← hst.written, Writer.written, hmore, List.flatten_append]
    exact List.prefix_append_right_inj _ |>.2 hprefix
  grows := by
    intro s
    obtain ⟨more, hmore, -, -⟩ := Tampering.writeAll_portions buf s
    unfold Extends
    rw [Writer.written, Writer.written, hmore, List.flatten_append]
    exact List.prefix_append _ _

/-! ## Encryption -/

section
variable (C : Crates) (key : Key) (baseNonce : Nonce) (header : Bytes)

theorem cutShort_liftCrypto {α : Type} (m : CryptoM α) : CutShort (liftCrypto m) :=
  .of_sameWriter (robust_liftCrypto m) (liftCrypto_writer m)

theorem cutShort_writeRecord (kind : UInt8) (sequence : Nat) (plaintext : Bytes) :
    CutShort (writeRecord C key baseNonce header kind sequence plaintext) :=
  .bind (.ofExcept _) fun _ => .bind (.ofExcept _) fun _ => .bind (cutShort_liftCrypto _) fun _ =>
    .bind (cutShort_writeAll _) fun _ => cutShort_writeAll _

theorem encryptChunks_grows (total count sequence : Nat) :
    Within Extends (encryptChunks C key baseNonce header total count sequence) := by
  intro s
  have hrecord {s s' : Streams} {reader : Reader} {sequence : Nat} {chunk : Bytes} {r : Except IronlockError Unit}
      (hwrite : writeRecord C key baseNonce header recordData sequence chunk { s with reader } = (r, s')) :
      Extends s s' := by
    have hgrows := (cutShort_writeRecord C key baseNonce header recordData sequence chunk).grows.run hwrite
    exact hgrows
  fun_induction encryptChunks C key baseNonce header total count sequence s with
  | case1 | case2 => exact List.prefix_refl _
  | case3 total count sequence s chunk reader _ _ e s' hwrite => exact hrecord hwrite
  | case4 total count sequence s chunk reader _ _ s' hwrite => exact hrecord hwrite
  | case5 total count sequence s chunk reader _ _ s' hwrite => exact hrecord hwrite
  | case6 total count sequence s chunk reader _ _ s' hwrite _ _ _ _ _ ih =>
    exact trans_of Extends (hrecord hwrite) ih

/-- The loop goes on from what its first pass has written. -/
theorem encryptChunks_after {total count sequence : Nat} {s : Streams} {chunk : Bytes} {r : Reader}
    (hfill : fillBuffer defaultChunkSize s.reader = (.ok chunk, r)) (hchunk : chunk ≠ []) :
    Extends (writeRecord C key baseNonce header recordData sequence chunk { s with reader := r }).2
      (encryptChunks C key baseNonce header total count sequence s).2 := by
  rw [encryptChunks_pass hfill hchunk]
  rcases writeRecord C key baseNonce header recordData sequence chunk { s with reader := r } with ⟨e | _, s'⟩
  · exact refl_of Extends s'
  rcases hcount : countChunk total count sequence chunk.length with e | ⟨total', count', sequence'⟩
  · exact refl_of Extends s'
  · by_cases hshort : chunk.length < defaultChunkSize
    · simp only [hshort, if_true]
      exact refl_of Extends s'
    · simp only [hshort, if_false]
      exact encryptChunks_grows C key baseNonce header _ _ _ s'

/-- The encrypt loop, by the passes of the run that may fail. -/
theorem cutShort_encryptChunks (total count sequence : Nat) :
    CutShort (encryptChunks C key baseNonce header total count sequence) where
  follows := robust_encryptChunks C key baseNonce header total count sequence
  grows := encryptChunks_grows C key baseNonce header total count sequence
  ahead := by
    intro s t hst
    -- what one pass writes is cut short, and the other run goes on from it
    have hpass {s t s' : Streams} {total count sequence : Nat} {chunk : Bytes} {reader : Reader}
        {r : Except IronlockError Unit} (hst : Rougher s t)
        (hfill : fillBuffer defaultChunkSize s.reader = (.ok chunk, reader)) (hchunk : chunk ≠ [])
        (hwrite : writeRecord C key baseNonce header recordData sequence chunk { s with reader } = (r, s')) :
        Extends s' (encryptChunks C key baseNonce header total count sequence t).2 := by
      obtain ⟨reader', hfill', hst'⟩ := hst.fillBuffer hfill
      have hahead := (cutShort_writeRecord C key baseNonce header recordData sequence chunk).ahead _ _ hst'
      rw [hwrite] at hahead
      exact trans_of Extends hahead (encryptChunks_after C key baseNonce header hfill' hchunk)
    fun_induction encryptChunks C key baseNonce header total count sequence s generalizing t with
    | case1 total count sequence s e reader hfill =>
      exact trans_of Extends hst.extends (encryptChunks_grows C key baseNonce header _ _ _ t)
    | case2 total count sequence s reader hfill =>
      exact trans_of Extends hst.extends (encryptChunks_grows C key baseNonce header _ _ _ t)
    | case3 total count sequence s chunk reader hfill hchunk e s' hwrite =>
      exact hpass hst hfill hchunk hwrite
    | case4 total count sequence s chunk reader hfill hchunk s' hwrite =>
      exact hpass hst hfill hchunk hwrite
    | case5 total count sequence s chunk reader hfill hchunk s' hwrite =>
      exact hpass hst hfill hchunk hwrite
    | case6 total count sequence s chunk reader hfill hchunk s' hwrite total' count' sequence' hcount hlong ih =>
      obtain ⟨reader', hfill', hst'⟩ := hst.fillBuffer hfill
      obtain ⟨t', hwrite', hst''⟩ := robust_writeRecord C key baseNonce header _ _ _ _ _ _ _ hst' hwrite
      rw [encryptChunks_pass hfill' hchunk, hwrite']
      simp only [hcount, hlong, if_false]
      exact ih t' hst''

theorem cutShort_encryptStreamWithParams (salt : Salt) (password : Bytes) (filename : Str) (params : KdfParams) :
    CutShort (encryptStreamWithParams C salt baseNonce password filename params) := by
  apply Trails.ite (CutShort.fail _)
  apply Trails.ite (CutShort.fail _)
  apply CutShort.bind (cutShort_liftCrypto _)
  intro key
  apply CutShort.bind (cutShort_writeAll _)
  intro _
  apply CutShort.bind (cutShort_writeRecord C key _ _ _ _ _)
  intro _
  apply CutShort.bind (cutShort_encryptChunks C key _ _ _ _ _)
  intro _
  exact CutShort.bind (cutShort_writeRecord C key _ _ _ _ _) fun _ => .pure _

end

/-! ## Decryption -/

section
variable (C : Crates)

theorem cutShort_readNextRecord (state : V2State) : CutShort (readNextRecord C state) :=
  .of_sameWriter (robust_readNextRecord C state) (Tampering.readNextRecord_writer state)

theorem cutShort_acceptData (plaintext : Bytes) (total count : Nat) :
    CutShort (acceptData plaintext total count) :=
  Trails.ite (CutShort.fail _) <| CutShort.bind (cutShort_writeAll _) fun _ =>
    CutShort.bind (.ofExcept _) fun _ => CutShort.bind (.ofExcept _) fun _ => .pure _

theorem cutShort_acceptFinal (plaintext : Bytes) (total count : Nat) :
    CutShort (acceptFinal plaintext total count) :=
  .of_sameWriter (robust_acceptFinal plaintext total count) (Tampering.acceptFinal_writer plaintext total count)

theorem decryptChunks_grows (state : V2State) (total count : Nat) :
    Within Extends (decryptChunks C state total count) := by
  intro s
  have hread {state : V2State} {s s' : Streams} {r : Except IronlockError (UInt8 × Bytes × V2State)}
      (h : readNextRecord C state s = (r, s')) : Extends s s' := (cutShort_readNextRecord C state).grows.run h
  have hdata {p : Bytes} {total count : Nat} {s s' : Streams} {r : Except IronlockError (Nat × Nat)}
      (h : acceptData p total count s = (r, s')) : Extends s s' := (cutShort_acceptData p total count).grows.run h
  fun_induction decryptChunks C state total count s with
  | case1 state total count s e s' h => exact hread h
  | case2 state total count s p state' s₁ e s₂ ha h => exact trans_of Extends (hread h) (hdata ha)
  | case3 state total count s p state' s₁ total' count' s₂ ha h ih =>
    exact trans_of Extends (trans_of Extends (hread h) (hdata ha)) ih
  | case4 state total count s p state' s₁ h =>
    exact trans_of Extends (hread h) ((cutShort_acceptFinal p total count).grows s₁)
  | case5 state total count s kind p state' s₁ h => exact hread h

/-- The decrypt loop, by the passes of the run that may fail. -/
theorem cutShort_decryptChunks (state : V2State) (total count : Nat) :
    CutShort (decryptChunks C state total count) where
  follows := robust_decryptChunks C state total count
  grows := decryptChunks_grows C state total count
  ahead := by
    intro s t hst
    fun_induction decryptChunks C state total count s generalizing t with
    | case1 state total count s e s' hread =>
      have hwriter := (Tampering.readNextRecord_writer state).run hread
      unfold Extends
      rw [hwriter]
      exact trans_of Extends hst.extends (decryptChunks_grows C state total count t)
    | case2 state total count s p state' s₁ e s₂ hdata hread =>
      obtain ⟨t₁, hread', hst₁⟩ := robust_readNextRecord C state _ _ _ _ hst hread
      have hahead := (cutShort_acceptData p total count).ahead s₁ t₁ hst₁
      rw [hdata] at hahead
      rw [decryptChunks_pass hread', if_pos rfl]
      rcases hdata' : acceptData p total count t₁ with ⟨e' | ⟨total', count'⟩, t₂⟩
      · rwa [hdata'] at hahead
      · rw [hdata'] at hahead
        exact trans_of Extends hahead (decryptChunks_grows C state' total' count' t₂)
    | case3 state total count s p state' s₁ total' count' s₂ hdata hread ih =>
      obtain ⟨t₁, hread', hst₁⟩ := robust_readNextRecord C state _ _ _ _ hst hread
      obtain ⟨t₂, hdata', hst₂⟩ := robust_acceptData p total count _ _ _ _ hst₁ hdata
      rw [decryptChunks_pass hread', if_pos rfl, hdata']
      exact ih t₂ hst₂
    | case4 state total count s p state' s₁ hread hkind =>
      obtain ⟨t₁, hread', hst₁⟩ := robust_readNextRecord C state _ _ _ _ hst hread
      rw [decryptChunks_pass hread', if_neg hkind, if_pos rfl]
      exact (cutShort_acceptFinal p total count).ahead s₁ t₁ hst₁
    | case5 state total count s kind p state' s₁ hread hdata hfinal =>
      obtain ⟨t₁, hread', hst₁⟩ := robust_readNextRecord C state _ _ _ _ hst hread
      rw [decryptChunks_pass hread', if_neg hdata, if_neg hfinal]
      exact hst₁.extends

theorem cutShort_decryptTo (d : StreamDecryptor) : CutShort (d.decryptTo C) := by
  unfold StreamDecryptor.decryptTo
  cases d.mode with
  | legacy plaintext => exact CutShort.bind (cutShort_writeAll _) fun _ => .pure _
  | v2 state => exact cutShort_decryptChunks C state 0 0

/-- Making a decryptor writes nothing. -/
theorem new_sameWriter (password : Bytes) : Within SameWriter (StreamDecryptor.new C password) := by
  have body (key : Key) (baseNonce : Nonce) (header record : Bytes) (sequence limit : Nat) :
      Within SameWriter (decryptRecordBody C key baseNonce header record sequence limit) :=
    .ite (.fail _) <| .bind (liftCrypto_writer _) fun _ => .bind (liftRead_writer _) fun _ =>
      liftCrypto_writer _
  have record (key : Key) (baseNonce : Nonce) (header : Bytes) (kind : Option UInt8) (limit : Nat) :
      Within SameWriter (readRecord C key baseNonce header 0 kind limit) :=
    .bind (liftRead_writer _) fun _ => .ite (.fail _) <| .ite (.fail _) <| body _ _ _ _ _ _
  have v2 (start : Bytes) : Within SameWriter (StreamDecryptor.newV2 C password start) := by
    refine .bind (liftRead_writer _) fun rest => .ite (.fail _) ?_
    cases Block.ofBytes? saltLength (slice (start ++ rest) 25 41) with
    | none => exact .fail _
    | some salt =>
      cases Block.ofBytes? nonceLength (slice (start ++ rest) 41 53) with
      | none => exact .fail _
      | some baseNonce =>
        refine .bind (liftCrypto_writer _) fun key => .bind (record _ _ _ _ _) fun m => ?_
        refine .ite (.fail _) (.ite (.fail _) ?_)
        cases Str.ofBytes? (m.drop 2) with
        | none => exact .fail _
        | some filename => exact .ite (.fail _) (.pure _)
  have legacy (start : Bytes) : Within SameWriter (StreamDecryptor.newLegacy C password start) :=
    .bind (liftRead_writer _) fun _ => .ite (.fail _) <| .bind (liftCrypto_writer _) fun _ => .pure _
  exact .bind (liftRead_writer _) fun _ => .ite (.fail _) <| .ite (v2 _) <| .ite (legacy _) (.fail _)

/-- Whatever fails while a stream is decrypted, what is written is the beginning
of its content. -/
theorem decryptStream_cut {C : Crates} {password : Bytes} (hC : C.Inverts) (x : Stream C password)
    {reader : Reader} {schedule : List WriteEvent} {log : List Work} {r : Except IronlockError Nat} {s : Streams}
    (hreader : reader.Carries x.bytes)
    (h : (do let d ← StreamDecryptor.new C password
             d.decryptTo C : StreamM Nat) ⟨reader, ⟨schedule, []⟩, log⟩ = (r, s)) :
    s.writer.written <+: x.content ∧ ∀ m, r = .ok m → s.writer.written = x.content := by
  obtain ⟨r₀, hr₀⟩ := Reader.exists_delivers x.bytes
  have hrough : Rougher ⟨reader, ⟨schedule, []⟩, log⟩ ⟨r₀, ⟨[], []⟩, log⟩ :=
    ⟨⟨_, hreader, hr₀⟩, Writer.accepting_nil, rfl, rfl⟩
  obtain ⟨d, t₁, t₂, hnew', -, hdecrypt', hwritten⟩ := decrypt_ok hC x (s := ⟨r₀, ⟨[], []⟩, log⟩) hr₀
    Writer.accepting_nil
  rcases hnew : StreamDecryptor.new C password ⟨reader, ⟨schedule, []⟩, log⟩ with ⟨e | d', s₁⟩
  · rw [Eff.bind_error hnew] at h
    cases h
    have hsame := (new_sameWriter C password).run hnew
    rw [hsame]
    exact ⟨List.nil_prefix, nofun⟩
  obtain ⟨t₁', ht₁', hopened⟩ := StreamDecryptor.robust_new C password _ _ _ _ hrough hnew
  have hsame := hnew'.symm.trans ht₁'
  cases hsame
  rw [Eff.bind_ok hnew] at h
  have hahead := (cutShort_decryptTo C d).ahead s₁ t₁ hopened
  rw [h, hdecrypt'] at hahead
  unfold Extends at hahead
  rw [hwritten] at hahead
  refine ⟨hahead, ?_⟩
  rintro m rfl
  obtain ⟨t₂', ht₂', hout⟩ := StreamDecryptor.robust_decryptTo C d _ _ _ _ hopened h
  have hsame := hdecrypt'.symm.trans ht₂'
  cases hsame
  rw [hout.written, hwritten]
  rfl

end

/-- Failures only cut a stream's output short: whatever fails, an encryption has
written the beginning of what it would have written, and so has a decryption. -/
theorem faults_cut_short {C : Crates} {password b : Bytes} {reader reader' : Reader}
    {schedule schedule' : List WriteEvent} {log : List Work} (hreader : reader.Carries b)
    (hreader' : reader'.Delivers b) (hwriter' : Writer.Accepting ⟨schedule', []⟩) :
    (∀ salt baseNonce filename params,
      (encryptStreamWithParams C salt baseNonce password filename params
          ⟨reader, ⟨schedule, []⟩, log⟩).2.writer.written <+:
        (encryptStreamWithParams C salt baseNonce password filename params
          ⟨reader', ⟨schedule', []⟩, log⟩).2.writer.written) ∧
    ∀ d s₁, StreamDecryptor.new C password ⟨reader, ⟨schedule, []⟩, log⟩ = (.ok d, s₁) →
      ∃ s₁', StreamDecryptor.new C password ⟨reader', ⟨schedule', []⟩, log⟩ = (.ok d, s₁') ∧
        (d.decryptTo C s₁).2.writer.written <+: (d.decryptTo C s₁').2.writer.written := by
  have hrough : Rougher ⟨reader, ⟨schedule, []⟩, log⟩ ⟨reader', ⟨schedule', []⟩, log⟩ :=
    ⟨⟨b, hreader, hreader'⟩, hwriter', rfl, rfl⟩
  constructor
  · intro salt baseNonce filename params
    exact (cutShort_encryptStreamWithParams C baseNonce salt password filename params).ahead _ _ hrough
  · intro d s₁ hnew
    obtain ⟨s₁', hnew', hrough'⟩ := StreamDecryptor.robust_new C password _ _ _ _ hrough hnew
    exact ⟨s₁', hnew', (cutShort_decryptTo C d).ahead s₁ s₁' hrough'⟩

/-- A reader that fails after two of three bytes. -/
theorem faults_cut_short_read : ∃ e s s',
    encryptStreamWithParams .checksummed (.zero 16) (.zero 12) [112, 119] letterA .current
      ⟨[.data [1, 2], .error ⟨.other, "gone"⟩, .data [3]], ⟨[], []⟩, []⟩ = (.error e, s) ∧
    encryptStreamWithParams .checksummed (.zero 16) (.zero 12) [112, 119] letterA .current
      ⟨[.data [1, 2, 3]], ⟨[], []⟩, []⟩ = (.ok 3, s') ∧
    s.writer.written ≠ [] ∧ s.writer.written <+: s'.writer.written := by
  have hrun := Eff.run_eq_ok (m := encryptStreamWithParams .checksummed (.zero 16) (.zero 12) [112, 119] letterA
    .current) (s := ⟨[.data [1, 2, 3]], ⟨[], []⟩, []⟩) (a := 3) (by decide +kernel)
  have hcarries : Reader.Carries [.data [1, 2], .error ⟨.other, "gone"⟩, .data [3]] [1, 2, 3] := ⟨by simp, rfl⟩
  have hdelivers : Reader.Delivers [.data [1, 2, 3]] [1, 2, 3] := ⟨by simp [ReadEvent.Delivering], rfl⟩
  have hcut : (encryptStreamWithParams .checksummed (.zero 16) (.zero 12) [112, 119] letterA .current
      ⟨[.data [1, 2], .error ⟨.other, "gone"⟩, .data [3]], ⟨[], []⟩, []⟩).2.writer.written <+:
        (encryptStreamWithParams .checksummed (.zero 16) (.zero 12) [112, 119] letterA .current
          ⟨[.data [1, 2, 3]], ⟨[], []⟩, []⟩).2.writer.written :=
    (faults_cut_short hcarries hdelivers Writer.accepting_nil).1 _ _ _ _
  have hfails : (encryptStreamWithParams .checksummed (.zero 16) (.zero 12) [112, 119] letterA .current
      ⟨[.data [1, 2], .error ⟨.other, "gone"⟩, .data [3]], ⟨[], []⟩, []⟩).1.isOk = false := by decide +kernel
  have hsome : (encryptStreamWithParams .checksummed (.zero 16) (.zero 12) [112, 119] letterA .current
      ⟨[.data [1, 2], .error ⟨.other, "gone"⟩, .data [3]], ⟨[], []⟩, []⟩).2.writer.written ≠ [] := by
    decide +kernel
  rcases hfaulty : encryptStreamWithParams .checksummed (.zero 16) (.zero 12) [112, 119] letterA .current
    ⟨[.data [1, 2], .error ⟨.other, "gone"⟩, .data [3]], ⟨[], []⟩, []⟩ with ⟨e | m, s⟩
  · rw [hfaulty] at hcut hsome
    exact ⟨e, s, _, rfl, hrun, hsome, hcut⟩
  · rw [hfaulty] at hfails
    cases hfails

end Ironlock
