import Ironlock.RoundTrip
import Ironlock.Lib.Lockstep
import Ironlock.Lib.Chunks

/-! How input and output are cut into portions does not show: two runs on the
same bytes are in lockstep. -/

namespace Ironlock
open ByteOrder (Bytes toBe)
open Effect
open Chunks

/-- Two runs with the same bytes left to read, however they are cut, and the
same bytes written to writers that do not fail. -/
structure Alike (s t : Streams) : Prop where
  delivered : ∃ b, s.reader.Delivers b ∧ t.reader.Delivers b
  accepting : s.writer.Accepting ∧ t.writer.Accepting
  written : s.writer.written = t.writer.written
  work : s.work = t.work

/-- Two runs that have written the same bytes and asked for the same work. -/
structure SameOutput (s t : Streams) : Prop where
  written : s.writer.written = t.writer.written
  work : s.work = t.work

/-- The two runs of a streaming program show the same. -/
abbrev Uncut {α : Type} (m : StreamM α) : Prop := Lockstep Alike SameOutput m

variable {s t : Streams}

theorem Alike.output (h : Alike s t) : SameOutput s t := ⟨h.written, h.work⟩

theorem uncut_fail {α : Type} (e : IronlockError) : Uncut (Eff.fail e : StreamM α) :=
  .fail (fun _ _ h => h.output) e

theorem uncut_ofExcept {α : Type} (r : Except IronlockError α) : Uncut (Eff.ofExcept r : StreamM α) :=
  .ofExcept (fun _ _ h => h.output) r

theorem uncut_liftCrypto {α : Type} (m : CryptoM α) : Uncut (liftCrypto m) := by
  intro s t h
  unfold liftCrypto
  rw [← h.work]
  rcases m s.work with ⟨e | a, log⟩
  · exact ⟨rfl, h.written, rfl⟩
  · exact ⟨rfl, h.delivered, h.accepting, h.written, rfl⟩

theorem uncut_writeAll (buf : Bytes) : Uncut (writeAll buf) := by
  refine .of_runs fun s t h => .inl ?_
  obtain ⟨w, hs, hw, haccept⟩ := writeAll_accepting buf h.accepting.1
  obtain ⟨w', ht, hw', haccept'⟩ := writeAll_accepting buf h.accepting.2
  exact ⟨(), _, _, hs, ht, h.delivered, ⟨haccept, haccept'⟩, by rw [hw, hw', h.written], h.work⟩

/-- An exact read past the end of the input. -/
theorem readExactFormat_short {room : Nat} {b : Bytes} (hs : s.reader.Delivers b)
    (hroom : b.length < room) :
    ∃ r, readExactFormat room s = (.error .invalidFileFormat, { s with reader := r }) := by
  obtain ⟨e, r', hr, hkind⟩ := hs.readExact_short hroom
  exact ⟨r', by simp [readExactFormat, liftRead, hr, hkind]⟩

theorem uncut_readExactFormat (room : Nat) : Uncut (readExactFormat room) := by
  refine .of_runs fun s t h => ?_
  obtain ⟨b, hs, ht⟩ := h.delivered
  by_cases hroom : room ≤ b.length
  · have hcut : b = b.take room ++ b.drop room := (List.take_append_drop ..).symm
    have hlen : (b.take room).length = room := by simpa using hroom
    rw [hcut] at hs ht
    obtain ⟨r, hs, hr⟩ := readExactFormat_ok hs hlen
    obtain ⟨r', ht, hr'⟩ := readExactFormat_ok ht hlen
    exact .inl ⟨_, _, _, hs, ht, ⟨_, hr, hr'⟩, h.accepting, h.written, h.work⟩
  · obtain ⟨r, hs⟩ := readExactFormat_short hs (Nat.lt_of_not_le hroom)
    obtain ⟨r', ht⟩ := readExactFormat_short ht (Nat.lt_of_not_le hroom)
    exact .inr ⟨_, _, _, hs, ht, h.written, h.work⟩

/-- A read that takes the front of what there is, up to its room. -/
theorem uncut_liftRead {f : Reader → Except IronlockError Bytes × Reader} (room : Nat)
    (hf : ∀ r b, Reader.Delivers r b → ∃ r', f r = (.ok (b.take room), r') ∧
      r'.Delivers (b.drop room)) : Uncut (liftRead f) := by
  refine .of_runs fun s t h => .inl ?_
  obtain ⟨b, hs, ht⟩ := h.delivered
  obtain ⟨r, hs, hr⟩ := hf _ _ hs
  obtain ⟨r', ht, hr'⟩ := hf _ _ ht
  have hs : liftRead f s = (.ok (b.take room), { s with reader := r }) := by rw [liftRead, hs]
  have ht : liftRead f t = (.ok (b.take room), { t with reader := r' }) := by rw [liftRead, ht]
  exact ⟨_, _, _, hs, ht, ⟨_, hr, hr'⟩, h.accepting, h.written, h.work⟩

/-- One byte more, or the end. -/
theorem Reader.Delivers.nextRead_one {r : Reader} {b : Bytes} (h : r.Delivers b) :
    ∃ r', Ironlock.nextRead 1 r = (.ok (b.take 1), r') ∧ r'.Delivers (b.drop 1) := by
  obtain ⟨got, rest, r', hr, rfl, hrest, hle, hend⟩ := h.nextRead one_ne_zero
  rcases got with _ | ⟨x, _ | ⟨y, got⟩⟩
  · obtain rfl : rest = [] := by simpa using hend rfl
    exact ⟨r', hr, hrest⟩
  · exact ⟨r', hr, hrest⟩
  · simp at hle

/-! ## Encryption -/

section
variable (C : Crates) (key : Key) (baseNonce : Nonce) (header : Bytes)

theorem uncut_writeRecord (kind : UInt8) (sequence : Nat) (plaintext : Bytes) :
    Uncut (writeRecord C key baseNonce header kind sequence plaintext) :=
  .bind (uncut_ofExcept _) fun _ => .bind (uncut_ofExcept _) fun _ =>
    .bind (uncut_liftCrypto _) fun _ => .bind (uncut_writeAll _) fun _ => uncut_writeAll _

/-- One pass of the chunk loop that finds something to encrypt. -/
theorem encryptChunks_pass {C : Crates} {key : Key} {baseNonce : Nonce} {header chunk : Bytes}
    {total count sequence : Nat} {s : Streams} {r : Reader}
    (hfill : fillBuffer defaultChunkSize s.reader = (.ok chunk, r)) (hchunk : chunk ≠ []) :
    encryptChunks C key baseNonce header total count sequence s =
      match writeRecord C key baseNonce header recordData sequence chunk { s with reader := r } with
      | (.error e, s') => (.error e, s')
      | (.ok (), s') =>
        match countChunk total count sequence chunk.length with
        | .error e => (.error e, s')
        | .ok (total, count, sequence) =>
          if chunk.length < defaultChunkSize then (.ok (total, count, sequence), s')
          else encryptChunks C key baseNonce header total count sequence s' := by
  conv => lhs; unfold encryptChunks
  split <;> rename_i h <;> rw [hfill] at h <;> cases h
  rw [dif_neg hchunk]
  split <;> rename_i hwrite <;> exact hwrite ▸ rfl

/-- The chunk loop: by induction on the first run, with the second filling its
buffer with the same bytes. -/
theorem uncut_encryptChunks (total count sequence : Nat) :
    Uncut (encryptChunks C key baseNonce header total count sequence) := by
  have hfill {s t : Streams} {chunk : Bytes} {r : Reader} (h : Alike s t)
      (hs : fillBuffer defaultChunkSize s.reader = (.ok chunk, r)) :
      ∃ r', fillBuffer defaultChunkSize t.reader = (.ok chunk, r') ∧
        Alike { s with reader := r } { t with reader := r' } := by
    obtain ⟨b, hsb, htb⟩ := h.delivered
    obtain ⟨r₁, hs', hr₁⟩ := hsb.fillBuffer defaultChunkSize
    obtain ⟨r₂, ht', hr₂⟩ := htb.fillBuffer defaultChunkSize
    rw [hs] at hs'; cases hs'
    exact ⟨r₂, ht', ⟨_, hr₁, hr₂⟩, h.accepting, h.written, h.work⟩
  intro s t h
  fun_induction encryptChunks C key baseNonce header total count sequence s generalizing t with
  | case1 total count sequence s e r hs =>
    obtain ⟨b, hsb, -⟩ := h.delivered
    obtain ⟨r₁, hs', -⟩ := hsb.fillBuffer defaultChunkSize
    rw [hs] at hs'; cases hs'
  | case2 total count sequence s r hs =>
    obtain ⟨r', ht, halike⟩ := hfill h hs
    rw [encryptChunks, ht]
    exact ⟨rfl, halike⟩
  | case3 total count sequence s chunk r hs hchunk e s₁ hwrite =>
    obtain ⟨r', ht, halike⟩ := hfill h hs
    obtain ⟨t₁, hwrite', hout⟩ := (uncut_writeRecord C key baseNonce header _ _ _).error halike hwrite
    rw [encryptChunks_pass ht hchunk, hwrite']
    exact ⟨rfl, hout⟩
  | case4 total count sequence s chunk r hs hchunk s₁ hwrite e hcount =>
    obtain ⟨r', ht, halike⟩ := hfill h hs
    obtain ⟨t₁, hwrite', hout⟩ := (uncut_writeRecord C key baseNonce header _ _ _).ok halike hwrite
    rw [encryptChunks_pass ht hchunk, hwrite']
    simp only [hcount]
    exact ⟨trivial, hout.output⟩
  | case5 total count sequence s chunk r hs hchunk s₁ hwrite n c q hcount hshort =>
    obtain ⟨r', ht, halike⟩ := hfill h hs
    obtain ⟨t₁, hwrite', hout⟩ := (uncut_writeRecord C key baseNonce header _ _ _).ok halike hwrite
    rw [encryptChunks_pass ht hchunk, hwrite']
    simp only [hcount, if_pos hshort]
    exact ⟨trivial, hout⟩
  | case6 total count sequence s chunk r hs hchunk s₁ hwrite n c q hcount hfull ih =>
    obtain ⟨r', ht, halike⟩ := hfill h hs
    obtain ⟨t₁, hwrite', hout⟩ := (uncut_writeRecord C key baseNonce header _ _ _).ok halike hwrite
    rw [encryptChunks_pass ht hchunk, hwrite']
    simp only [hcount, if_neg hfull]
    exact ih t₁ hout

end

theorem uncut_encryptStreamWithParams (C : Crates) (salt : Salt) (baseNonce : Nonce)
    (password : Bytes) (filename : Str) (params : KdfParams) :
    Uncut (encryptStreamWithParams C salt baseNonce password filename params) := by
  refine .ite (uncut_fail _) (.ite (uncut_fail _) ?_)
  refine .bind (uncut_liftCrypto _) fun key => .bind (uncut_writeAll _) fun _ => ?_
  refine .bind (uncut_writeRecord C key _ _ _ _ _) fun _ => ?_
  refine .bind (uncut_encryptChunks C key _ _ _ _ _) fun totals => ?_
  exact .bind (uncut_writeRecord C key _ _ _ _ _) fun _ => .pure _

/-! ## Decryption -/

section
variable (C : Crates) (key : Key) (baseNonce : Nonce) (header : Bytes)

theorem uncut_decryptRecordBody (record : Bytes) (sequence maxPlaintext : Nat) :
    Uncut (decryptRecordBody C key baseNonce header record sequence maxPlaintext) := by
  refine .ite (uncut_fail _) (.bind (uncut_liftCrypto _) fun _ => ?_)
  exact .bind (uncut_readExactFormat _) fun _ => uncut_liftCrypto _

theorem uncut_readRecord (sequence : Nat) (kind : Option UInt8) (maxPlaintext : Nat) :
    Uncut (readRecord C key baseNonce header sequence kind maxPlaintext) := by
  refine .bind (uncut_readExactFormat _) fun _ => .ite (uncut_fail _) (.ite (uncut_fail _) ?_)
  exact uncut_decryptRecordBody C key baseNonce header _ _ _

theorem uncut_readNextRecord (state : V2State) : Uncut (readNextRecord C state) := by
  refine .bind (uncut_readExactFormat _) fun _ => .ite (uncut_fail _) (.ite (uncut_fail _) ?_)
  refine .bind (uncut_decryptRecordBody C _ _ _ _ _ _) fun _ => ?_
  exact .bind (uncut_ofExcept _) fun _ => .pure _

theorem uncut_acceptData (plaintext : Bytes) (total count : Nat) :
    Uncut (acceptData plaintext total count) := by
  refine .ite (uncut_fail _) (.bind (uncut_writeAll _) fun _ => ?_)
  exact .bind (uncut_ofExcept _) fun _ => .bind (uncut_ofExcept _) fun _ => .pure _

theorem uncut_acceptFinal (plaintext : Bytes) (total count : Nat) :
    Uncut (acceptFinal plaintext total count) := by
  refine .ite (uncut_fail _) (.ite (uncut_fail _) (.bind ?_ fun _ => .ite (uncut_fail _) (.pure _)))
  exact uncut_liftRead 1 fun _ _ h => h.nextRead_one

/-- One pass of the decrypt loop, after a record that could be read. -/
theorem decryptChunks_pass {C : Crates} {state state' : V2State} {kind : UInt8} {p : Bytes}
    {total count : Nat} {s s₁ : Streams}
    (hread : readNextRecord C state s = (.ok (kind, p, state'), s₁)) :
    decryptChunks C state total count s =
      if kind = recordData then
        match acceptData p total count s₁ with
        | (.error e, s₂) => (.error e, s₂)
        | (.ok (total, count), s₂) => decryptChunks C state' total count s₂
      else if kind = recordFinal then acceptFinal p total count s₁
      else (.error .invalidFileFormat, s₁) := by
  conv => lhs; unfold decryptChunks
  split <;> rename_i h <;> rw [hread] at h <;> cases h
  split
  · split <;> rename_i hdata <;> simp only [hdata]
  · rfl

theorem decryptChunks_error {C : Crates} {state : V2State} {total count : Nat} {e : IronlockError}
    {s s₁ : Streams} (hread : readNextRecord C state s = (.error e, s₁)) :
    decryptChunks C state total count s = (.error e, s₁) := by
  unfold decryptChunks
  split <;> rename_i h <;> rw [hread] at h <;> cases h
  rfl

theorem uncut_decryptChunks (state : V2State) (total count : Nat) :
    Uncut (decryptChunks C state total count) := by
  intro s t h
  fun_induction decryptChunks C state total count s generalizing t with
  | case1 state total count s e s₁ hread =>
    obtain ⟨t₁, hread', hout⟩ := (uncut_readNextRecord C state).error h hread
    rw [decryptChunks_error hread']
    exact ⟨rfl, hout⟩
  | case2 state total count s p state' s₁ e s₂ hdata hread =>
    obtain ⟨t₁, hread', halike⟩ := (uncut_readNextRecord C state).ok h hread
    obtain ⟨t₂, hdata', hout⟩ := (uncut_acceptData p total count).error halike hdata
    rw [decryptChunks_pass hread', if_pos rfl, hdata']
    exact ⟨rfl, hout⟩
  | case3 state total count s p state' s₁ total' count' s₂ hdata hread ih =>
    obtain ⟨t₁, hread', halike⟩ := (uncut_readNextRecord C state).ok h hread
    obtain ⟨t₂, hdata', halike'⟩ := (uncut_acceptData p total count).ok halike hdata
    rw [decryptChunks_pass hread', if_pos rfl, hdata']
    exact ih t₂ halike'
  | case4 state total count s p state' s₁ hread hkind =>
    obtain ⟨t₁, hread', halike⟩ := (uncut_readNextRecord C state).ok h hread
    rw [decryptChunks_pass hread', if_neg hkind, if_pos rfl]
    exact uncut_acceptFinal p total count s₁ t₁ halike
  | case5 state total count s kind p state' s₁ hread hdata hfinal =>
    obtain ⟨t₁, hread', halike⟩ := (uncut_readNextRecord C state).ok h hread
    rw [decryptChunks_pass hread', if_neg hdata, if_neg hfinal]
    exact ⟨rfl, halike.output⟩

end

namespace StreamDecryptor

variable (C : Crates) (password : Bytes)

theorem uncut_newV2 (start : Bytes) : Uncut (newV2 C password start) := by
  refine .bind (uncut_readExactFormat _) fun rest => .ite (uncut_fail _) ?_
  cases Block.ofBytes? saltLength (slice (start ++ rest) 25 41) with
  | none => exact uncut_fail _
  | some salt =>
    cases Block.ofBytes? nonceLength (slice (start ++ rest) 41 53) with
    | none => exact uncut_fail _
    | some baseNonce =>
      refine .bind (uncut_liftCrypto _) fun key => .bind (uncut_readRecord C key _ _ _ _ _) fun m => ?_
      refine .ite (uncut_fail _) (.ite (uncut_fail _) ?_)
      cases Str.ofBytes? (m.drop 2) with
      | none => exact uncut_fail _
      | some filename => exact .ite (uncut_fail _) (.pure _)

theorem uncut_newLegacy (start : Bytes) : Uncut (newLegacy C password start) := by
  refine .bind (uncut_liftRead (maxLegacyFileSize + 1 - start.length) fun r b h => ?_) fun rest =>
    .ite (uncut_fail _) ?_
  · obtain ⟨r', hr, hr'⟩ := h.readToEnd (maxLegacyFileSize + 1 - start.length)
    exact ⟨r', by rw [hr], hr'⟩
  · exact .bind (uncut_liftCrypto _) fun _ => .pure _

theorem uncut_new : Uncut (new C password) := by
  refine .bind (uncut_readExactFormat 9) fun start => .ite (uncut_fail _) ?_
  exact .ite (uncut_newV2 C password start) (.ite (uncut_newLegacy C password start) (uncut_fail _))

theorem uncut_decryptTo (d : StreamDecryptor) : Uncut (decryptTo C d) := by
  unfold decryptTo
  cases d.mode with
  | legacy plaintext => exact .bind (uncut_writeAll _) fun _ => .pure _
  | v2 state => exact uncut_decryptChunks C state 0 0

end StreamDecryptor

/-! ## The records of an encryption -/

section
variable {C : Crates} {key : Key} {baseNonce : Nonce} {header : Bytes}

theorem Alike.refl {b : Bytes} (hs : s.reader.Delivers b) (haccept : s.writer.Accepting) :
    Alike s s := ⟨⟨b, hs, hs⟩, ⟨haccept, haccept⟩, rfl, rfl⟩

/-- Into a writer that does not fail, a record is written whole or not at all. -/
theorem writeRecord_eq_error {kind : UInt8} {sequence : Nat} {plaintext : Bytes} {s s' : Streams}
    {e : IronlockError} (haccept : s.writer.Accepting)
    (h : writeRecord C key baseNonce header kind sequence plaintext s = (.error e, s')) :
    s'.writer = s.writer := by
  have hwrites {buf : Bytes} {s s' : Streams} {e : IronlockError} (haccept : s.writer.Accepting) :
      writeAll buf s ≠ (.error e, s') := by
    obtain ⟨w, hw, -⟩ := writeAll_accepting buf haccept
    simp [hw]
  simp only [writeRecord, Eff.bind_eq_error, Eff.ofExcept_apply, Prod.mk.injEq] at h
  rcases h with ⟨-, rfl⟩ | ⟨len, _, ⟨-, rfl⟩, ⟨-, rfl⟩ | ⟨record, _, ⟨-, rfl⟩, hc | ⟨c, s₁, hc, h⟩⟩⟩
  · rfl
  · rfl
  · exact (liftCrypto_writer _).run hc
  · have hacc : s₁.writer.Accepting := by rw [(liftCrypto_writer _).run hc]; exact haccept
    rcases h with h | ⟨_, s₂, hw, h⟩
    · exact absurd h (hwrites hacc)
    · obtain ⟨w, hw', -, hacc'⟩ := writeAll_accepting record hacc
      rw [hw] at hw'
      cases hw'
      exact absurd h (hwrites hacc')

/-- Whatever becomes of the chunk loop, it has written the first pieces of the
input as records, and all of them when it succeeds. -/
theorem encryptChunks_split {P : Bytes} {total count sequence : Nat} {s s' : Streams}
    {r : Except IronlockError (Nat × Nat × Nat)}
    (h : encryptChunks C key baseNonce header total count sequence s = (r, s'))
    (hs : s.reader.Delivers P) (haccept : s.writer.Accepting) :
    ∃ k body, Sealed C key baseNonce header sequence
        (dataRecords ((chunks defaultChunkSize P).take k)) body ∧
      s'.writer.written = s.writer.written ++ body ∧
      ∀ totals, r = .ok totals → (chunks defaultChunkSize P).length ≤ k ∧
        totals = (total + P.length, count + (chunks defaultChunkSize P).length,
          sequence + (chunks defaultChunkSize P).length) ∧ s'.writer.Accepting := by
  fun_induction encryptChunks C key baseNonce header total count sequence s generalizing P with
  | case1 total count sequence s e r hfill =>
    obtain ⟨r', hfill', -⟩ := hs.fillBuffer defaultChunkSize
    rw [hfill] at hfill'; cases hfill'
  | case2 total count sequence s r hfill =>
    obtain ⟨r', hfill', -⟩ := hs.fillBuffer defaultChunkSize
    rw [hfill] at hfill'
    have hP : P = [] := by simpa [defaultChunkSize] using (Prod.mk.inj hfill').1
    cases h
    subst hP
    refine ⟨0, [], .nil _, by simp, fun totals h => ?_⟩
    cases h
    exact ⟨by simp, by simp, haccept⟩
  | case3 total count sequence s chunk r hfill hchunk e s₁ hwrite =>
    cases h
    have hw := writeRecord_eq_error (s := { s with reader := r }) haccept hwrite
    exact ⟨0, [], .nil _, by simp [hw], by simp⟩
  | case4 total count sequence s chunk r hfill hchunk s₁ hwrite e hcount =>
    obtain ⟨r', hfill', hr⟩ := hs.fillBuffer defaultChunkSize
    rw [hfill] at hfill'; cases hfill'
    cases h
    have hP : P ≠ [] := by rintro rfl; simp at hchunk
    obtain ⟨body, hsealed, -, hwritten, -⟩ := writeRecord_eq_ok hwrite
    refine ⟨1, body, ?_, hwritten, by simp⟩
    rw [chunks_cons (by decide) hP]
    exact hsealed
  | case5 total count sequence s chunk r hfill hchunk s₁ hwrite t n q hcount hshort =>
    obtain ⟨r', hfill', hr⟩ := hs.fillBuffer defaultChunkSize
    rw [hfill] at hfill'; cases hfill'
    cases h
    have hP : P ≠ [] := by rintro rfl; simp at hchunk
    have hle : P.length ≤ defaultChunkSize := by rw [List.length_take] at hshort; omega
    rw [List.take_of_length_le hle] at hwrite hcount
    obtain ⟨body, hsealed, -, hwritten, -⟩ := writeRecord_eq_ok hwrite
    obtain ⟨_, -, halike⟩ := (uncut_writeRecord C key baseNonce header _ _ _).ok
      (.refl (s := { s with reader := r }) hr haccept) hwrite
    obtain ⟨-, -, heq⟩ := countChunk_eq_ok hcount
    cases heq
    rw [chunks_of_le hP hle]
    refine ⟨1, body, hsealed, hwritten, fun totals h => ?_⟩
    cases h
    exact ⟨by simp, by simp, halike.accepting.1⟩
  | case6 total count sequence s chunk r hfill hchunk s₁ hwrite t n q hcount hfull ih =>
    obtain ⟨r', hfill', hr⟩ := hs.fillBuffer defaultChunkSize
    rw [hfill] at hfill'; cases hfill'
    have hP : P ≠ [] := by rintro rfl; simp at hchunk
    obtain ⟨first, hfirst, hreader, hwritten, -⟩ := writeRecord_eq_ok hwrite
    obtain ⟨_, -, halike⟩ := (uncut_writeRecord C key baseNonce header _ _ _).ok
      (.refl (s := { s with reader := r }) hr haccept) hwrite
    have hlen : (P.take defaultChunkSize).length = defaultChunkSize := by
      rw [List.length_take] at hfull ⊢; omega
    have hdrop : (P.drop defaultChunkSize).length + defaultChunkSize = P.length := by
      rw [List.length_take] at hlen; rw [List.length_drop]; omega
    obtain ⟨-, -, heq⟩ := countChunk_eq_ok hcount
    rw [hlen] at heq
    cases heq
    obtain ⟨k, body, hsealed, hwritten', hok⟩ := ih h (by rwa [hreader]) halike.accepting.1
    rw [chunks_cons (by decide) hP]
    refine ⟨k + 1, first ++ body, hfirst.append hsealed, by rw [hwritten', hwritten,
      List.append_assoc], fun totals h => ?_⟩
    obtain ⟨hk, rfl, hacc⟩ := hok totals h
    refine ⟨Nat.succ_le_succ hk, ?_, hacc⟩
    simp only [List.length_cons, Prod.mk.injEq]
    omega

end

/-- The records of an encryption of `P`: the name, the pieces, the totals. -/
def streamRecords (filename : Str) (P : Bytes) : List Record :=
  ⟨recordMetadata, toBe 2 filename.bytes.length ++ filename.bytes⟩ ::
    (dataRecords (chunks defaultChunkSize P) ++
      [⟨recordFinal, toBe 8 P.length ++ toBe 8 (chunks defaultChunkSize P).length⟩])

/-- An encryption writes nothing, or the header and the first of its records;
all of them when it succeeds. -/
theorem encryptStream_split {C : Crates} {salt : Salt} {baseNonce : Nonce} {password P : Bytes}
    {filename : Str} {params : KdfParams} {s s' : Streams} {r : Except IronlockError Nat}
    (h : encryptStreamWithParams C salt baseNonce password filename params s = (r, s'))
    (hs : s.reader.Delivers P) (haccept : s.writer.Accepting) :
    (∃ e, r = .error e ∧ s'.writer.written = s.writer.written) ∨
    ∃ key records body, records <+: streamRecords filename P ∧
      Sealed C key baseNonce (streamHeader params defaultChunkSize salt baseNonce) 0 records body ∧
      s'.writer.written = s.writer.written ++
        (streamHeader params defaultChunkSize salt baseNonce ++ body) ∧
      ∀ m, r = .ok m → m = P.length ∧ records = streamRecords filename P := by
  unfold encryptStreamWithParams at h
  by_cases hpos : filename.bytes = []
  · simp only [hpos, if_true, Eff.fail_apply] at h
    cases h
    exact .inl ⟨_, rfl, rfl⟩
  by_cases hlong : maxFilenameBytes < filename.bytes.length
  · simp only [hpos, hlong, if_true, if_false, Eff.fail_apply] at h
    cases h
    exact .inl ⟨_, rfl, rfl⟩
  simp only [hpos, hlong, if_false] at h
  set header := streamHeader params defaultChunkSize salt baseNonce
  rcases hkey : liftCrypto (deriveKeyFromPassword C password salt.bytes params) s with ⟨e | key, s₁⟩
  · rw [Eff.bind_error hkey] at h
    cases h
    exact .inl ⟨e, rfl, by rw [(liftCrypto_writer _).run hkey]⟩
  obtain ⟨-, hs₁⟩ := liftCrypto_eq_ok.1 hkey
  obtain ⟨w₂, hheader, hw₂, hacc₂⟩ := writeAll_accepting header (s := s₁) (by rw [hs₁]; exact haccept)
  rw [Eff.bind_ok hkey, Eff.bind_ok hheader] at h
  have hwritten₂ : w₂.written = s.writer.written ++ header := by rw [hw₂, hs₁]
  have hs₂ : Reader.Delivers s₁.reader P := by rw [hs₁]; exact hs
  -- From here on the header is out, and what counts is how many records follow.
  right
  rcases hmeta : writeRecord C key baseNonce header recordMetadata 0
      (toBe 2 filename.bytes.length ++ filename.bytes) { s₁ with writer := w₂ } with ⟨e | ⟨⟩, s₃⟩
  · rw [Eff.bind_error hmeta] at h
    cases h
    have hw₃ := writeRecord_eq_error (s := { s₁ with writer := w₂ }) hacc₂ hmeta
    exact ⟨key, [], [], List.nil_prefix, .nil _, by rw [hw₃, hwritten₂, List.append_nil], nofun⟩
  obtain ⟨first, hfirst, hr₃, hw₃, -⟩ := writeRecord_eq_ok hmeta
  obtain ⟨_, -, halike⟩ := (uncut_writeRecord C key baseNonce header _ _ _).ok
    (.refl (s := { s₁ with writer := w₂ }) hs₂ hacc₂) hmeta
  rw [Eff.bind_ok hmeta] at h
  rcases hloop : encryptChunks C key baseNonce header 0 0 1 s₃ with ⟨r₄, s₄⟩
  obtain ⟨k, body, hbody, hw₄, hok⟩ := encryptChunks_split hloop (by rw [hr₃]; exact hs₂)
    halike.accepting.1
  have hwritten₄ : s₄.writer.written = s.writer.written ++ (header ++ (first ++ body)) := by
    rw [hw₄, hw₃, hwritten₂]; simp
  have hsealed := hfirst.append hbody
  have hpre : dataRecords ((chunks defaultChunkSize P).take k) <+:
      dataRecords (chunks defaultChunkSize P) := (List.take_prefix ..).map _
  cases r₄ with
  | error e =>
    rw [Eff.bind_error hloop] at h
    cases h
    refine ⟨key, _, _, ?_, hsealed, hwritten₄, nofun⟩
    exact (List.prefix_cons_inj _).2 (hpre.trans (List.prefix_append ..))
  | ok totals =>
    obtain ⟨hk, rfl, hacc₄⟩ := hok totals rfl
    rw [Eff.bind_ok hloop] at h
    simp only [Nat.zero_add] at h
    rw [List.take_of_length_le hk] at hsealed
    rcases hfinal : writeRecord C key baseNonce header recordFinal
        (1 + (chunks defaultChunkSize P).length)
        (toBe 8 P.length ++ toBe 8 (chunks defaultChunkSize P).length) s₄ with ⟨e | ⟨⟩, s₅⟩
    · rw [Eff.bind_error hfinal] at h
      cases h
      have hw₅ := writeRecord_eq_error hacc₄ hfinal
      refine ⟨key, _, _, ?_, hsealed, by rw [hw₅, hwritten₄], nofun⟩
      exact (List.prefix_cons_inj _).2 (List.prefix_append ..)
    · rw [Eff.bind_ok hfinal] at h
      cases h
      obtain ⟨last, hlast, -, hw₅, -⟩ := writeRecord_eq_ok hfinal
      refine ⟨key, streamRecords filename P, (first ++ body) ++ last, List.prefix_refl _, ?_, ?_,
        fun m h => ?_⟩
      · have : 1 + (chunks defaultChunkSize P).length =
            0 + (⟨recordMetadata, toBe 2 filename.bytes.length ++ filename.bytes⟩ ::
              dataRecords (chunks defaultChunkSize P)).length := by simp; omega
        rw [this] at hlast
        exact hsealed.append hlast
      · rw [hw₅, hwritten₄]; simp
      · cases h
        exact ⟨rfl, rfl⟩

/-- Two readers of the same bytes and two writers that do not fail cannot be
told apart. An encryption ends the same way and writes the same bytes: nothing,
or the header and the first records of the name, the input in pieces of 65536
bytes of which only the last may be shorter, and the totals, all of them when it
succeeds. A decryption of the bytes, valid or not, gives the same decryptor or
the same error, and from the decryptor the same result and the same bytes. -/
theorem fragmentation_invisible {C : Crates} {password b : Bytes} {reader reader' : Reader}
    {schedule schedule' : List WriteEvent} {log : List Work} (hreader : reader.Delivers b)
    (hreader' : reader'.Delivers b) (hwriter : Writer.Accepting ⟨schedule, []⟩)
    (hwriter' : Writer.Accepting ⟨schedule', []⟩) :
    (∀ salt baseNonce filename params r s r' s',
      encryptStreamWithParams C salt baseNonce password filename params
        ⟨reader, ⟨schedule, []⟩, log⟩ = (r, s) →
      encryptStreamWithParams C salt baseNonce password filename params
        ⟨reader', ⟨schedule', []⟩, log⟩ = (r', s') →
      r = r' ∧ s.writer.written = s'.writer.written ∧
      ∃ pieces : List Bytes, pieces.flatten = b ∧ (∀ p ∈ pieces, p ≠ []) ∧
        (∀ p ∈ pieces.dropLast, p.length = 65536) ∧ pieces.length = (b.length + 65535) / 65536 ∧
        ((∃ e, r = .error e ∧ s.writer.written = []) ∨
          ∃ key records body, records <+: (⟨recordMetadata, toBe 2 filename.bytes.length ++
              filename.bytes⟩ :: (dataRecords pieces ++
                [⟨recordFinal, toBe 8 b.length ++ toBe 8 pieces.length⟩]) : List Record) ∧
            Sealed C key baseNonce (streamHeader params defaultChunkSize salt baseNonce) 0 records
              body ∧
            s.writer.written = streamHeader params defaultChunkSize salt baseNonce ++ body ∧
            ∀ m, r = .ok m → m = b.length ∧ records.length = pieces.length + 2)) ∧
    ∀ r s r' s', StreamDecryptor.new C password ⟨reader, ⟨schedule, []⟩, log⟩ = (r, s) →
      StreamDecryptor.new C password ⟨reader', ⟨schedule', []⟩, log⟩ = (r', s') →
      r = r' ∧ s.writer.written = s'.writer.written ∧ ∀ d, r = .ok d →
        (StreamDecryptor.decryptTo C d s).1 = (StreamDecryptor.decryptTo C d s').1 ∧
        (StreamDecryptor.decryptTo C d s).2.writer.written =
          (StreamDecryptor.decryptTo C d s').2.writer.written := by
  have halike : Alike ⟨reader, ⟨schedule, []⟩, log⟩ ⟨reader', ⟨schedule', []⟩, log⟩ :=
    ⟨⟨b, hreader, hreader'⟩, ⟨hwriter, hwriter'⟩, rfl, rfl⟩
  constructor
  · intro salt baseNonce filename params r s r' s' h h'
    obtain ⟨hr, hw⟩ := (uncut_encryptStreamWithParams C salt baseNonce password filename params).same
      (fun _ _ => Alike.output) halike h h'
    refine ⟨hr, hw.written, chunks defaultChunkSize b, flatten_chunks (by decide) b,
      fun _ => ne_nil_of_mem, fun _ => length_eq_of_mem_dropLast, length_chunks (by decide) b, ?_⟩
    rcases encryptStream_split h hreader hwriter with hnone | ⟨key, records, body, hpre, hsealed,
      hwritten, hok⟩
    · exact .inl hnone
    · refine .inr ⟨key, records, body, hpre, hsealed, hwritten, fun m hm => ?_⟩
      obtain ⟨hm, rfl⟩ := hok m hm
      exact ⟨hm, by simp [streamRecords]⟩
  · intro r s r' s' h h'
    obtain ⟨rfl, hout⟩ := (StreamDecryptor.uncut_new C password).same (fun _ _ => Alike.output)
      halike h h'
    refine ⟨rfl, hout.written, fun d hd => ?_⟩
    subst hd
    obtain ⟨t, ht, halike'⟩ := (StreamDecryptor.uncut_new C password).ok halike h
    rw [h'] at ht
    cases ht
    obtain ⟨hr, hout⟩ := (StreamDecryptor.uncut_decryptTo C d).same (fun _ _ => Alike.output)
      halike' rfl rfl
    exact ⟨hr, hout.written⟩

/-- The same three bytes in two portions with an interrupt, and in one. -/
theorem fragmentation_invisible_portions : ∃ s s',
    encryptStreamWithParams .checksummed (.zero 16) (.zero 12) [112, 119] letterA .current
      ⟨[.data [1, 2], .error ⟨.interrupted, "again"⟩, .data [3]], ⟨[.accept 1], []⟩, []⟩ = (.ok 3, s) ∧
    encryptStreamWithParams .checksummed (.zero 16) (.zero 12) [112, 119] letterA .current
      ⟨[.data [1, 2, 3]], ⟨[], []⟩, []⟩ = (.ok 3, s') ∧
    s.writer.written = s'.writer.written := by
  obtain ⟨s, h⟩ := checksummed_run
  rcases h' : encryptStreamWithParams .checksummed (.zero 16) (.zero 12) [112, 119] letterA .current
    ⟨[.data [1, 2, 3]], ⟨[], []⟩, []⟩ with ⟨r', s'⟩
  obtain ⟨rfl, hwritten, -⟩ := (fragmentation_invisible (C := .checksummed) (b := [1, 2, 3])
    ⟨by decide, rfl⟩ ⟨by decide, rfl⟩ (by simp [Writer.Accepting]) (by simp [Writer.Accepting])).1
    _ _ _ _ _ _ _ _ h h'
  exact ⟨s, s', h, rfl, hwritten⟩

end Ironlock
