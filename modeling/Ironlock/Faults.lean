import Ironlock.Lib.Lockstep
import Ironlock.Fragmentation

/-! What failing reads and writes can do to a stream: they can make it fail, and
nothing else. A call that returns has read and written what it would have if
nothing had failed. -/

namespace Ironlock
open ByteOrder (Bytes)
open Effect

/-! ## Readers that may fail -/

/-- A reader of the bytes `b` that may fail anywhere. -/
structure Reader.Carries (r : Reader) (b : Bytes) : Prop where
  full : ∀ ev ∈ r, ev ≠ .data []
  bytes : r.flatMap ReadEvent.bytes = b

namespace Reader.Carries

variable {r r' : Reader} {b got : Bytes} {room : Nat}

theorem of_delivers (h : r.Delivers b) : r.Carries b where
  full := by
    rintro ev hev rfl
    exact h.delivering _ hev rfl
  bytes := h.bytes

/-- A read that is no failure takes some of the bytes, none only at their end. -/
theorem read (h : r.Carries b) (hroom : room ≠ 0) :
    (∃ e r', r.read room = (.error e, r') ∧ r'.Carries b) ∨
      ∃ got rest r', r.read room = (.ok got, r') ∧ b = got ++ rest ∧ r'.Carries rest ∧
        got.length ≤ room ∧ (got = [] → b = []) := by
  obtain ⟨hfull, rfl⟩ := h
  cases r with
  | nil => exact .inr ⟨[], [], [], rfl, rfl, ⟨by simp, rfl⟩, Nat.zero_le _, fun _ => rfl⟩
  | cons ev r =>
    have hrest : ∀ ev ∈ r, ev ≠ .data [] := fun ev hev => hfull ev (List.mem_cons_of_mem _ hev)
    cases ev with
    | error e => exact .inl ⟨e, r, rfl, hrest, rfl⟩
    | data bytes =>
      have hbytes : bytes ≠ [] := fun hnil => hfull _ List.mem_cons_self (by rw [hnil])
      right
      by_cases hle : bytes.length ≤ room
      · exact ⟨bytes, _, r, by simp [Reader.read, hle], rfl, ⟨hrest, rfl⟩, hle, fun h => absurd h hbytes⟩
      · refine ⟨bytes.take room, bytes.drop room ++ r.flatMap ReadEvent.bytes, .data (bytes.drop room) :: r,
          by simp [Reader.read, hle], ?_, ⟨?_, rfl⟩, by simp, ?_⟩
        · rw [← List.append_assoc, List.take_append_drop]
          rfl
        · intro ev hev
          rcases List.mem_cons.1 hev with rfl | hev
          · simp only [ne_eq, ReadEvent.data.injEq, List.drop_eq_nil_iff]
            omega
          · exact hrest ev hev
        · intro hnil
          simp only [List.take_eq_nil_iff, hroom, hbytes, or_self] at hnil

theorem nextRead (h : r.Carries b) (hroom : room ≠ 0) (hr : Ironlock.nextRead room r = (.ok got, r')) :
    ∃ rest, b = got ++ rest ∧ r'.Carries rest ∧ got.length ≤ room ∧ (got = [] → b = []) := by
  fun_induction Ironlock.nextRead room r with
  | case1 r e r₁ hread hkind ih =>
    rcases h.read hroom with ⟨_, _, heq, h'⟩ | ⟨_, _, _, heq, -⟩ <;> rw [hread] at heq <;> cases heq
    exact ih h' hr
  | case2 => cases hr
  | case3 r got₁ r₁ hread =>
    cases hr
    rcases h.read hroom with ⟨_, _, heq, -⟩ | ⟨_, rest, _, heq, hrest⟩ <;> rw [hread] at heq <;> cases heq
    exact ⟨rest, hrest⟩

theorem fillBuffer (h : r.Carries b) (hr : Ironlock.fillBuffer room r = (.ok got, r')) :
    got = b.take room ∧ r'.Carries (b.drop room) := by
  fun_induction Ironlock.fillBuffer room r generalizing b got r' with
  | case1 r =>
    cases hr
    exact ⟨by simp, by simpa using h⟩
  | case2 => cases hr
  | case3 room r hroom r₁ hread =>
    cases hr
    obtain ⟨rest, hb, hrest, -, hend⟩ := h.nextRead hroom hread
    obtain rfl := hend rfl
    cases hb
    exact ⟨by simp, by simpa using hrest⟩
  | case4 room r hroom got₁ r₁ hread hgot more r₂ hmore ih =>
    cases hr
    obtain ⟨rest, rfl, hrest, hle, -⟩ := h.nextRead hroom hread
    obtain ⟨rfl, hrest⟩ := ih hrest hmore
    exact ⟨(Reader.Delivers.take_split hle).1.symm, by rwa [(Reader.Delivers.take_split hle).2]⟩
  | case5 => cases hr

theorem readToEnd (h : r.Carries b) (hr : Reader.readToEnd room r = (.ok got, r')) :
    got = b.take room ∧ r'.Carries (b.drop room) := by
  fun_induction Reader.readToEnd room r generalizing b got r' with
  | case1 r =>
    cases hr
    exact ⟨by simp, by simpa using h⟩
  | case2 room r hroom e r₁ hread _ ih =>
    rcases h.read hroom with ⟨_, _, heq, h'⟩ | ⟨_, _, _, heq, -⟩ <;> rw [hread] at heq <;> cases heq
    exact ih h' hr
  | case3 => cases hr
  | case4 room r hroom r₁ hread =>
    cases hr
    rcases h.read hroom with ⟨_, _, heq, -⟩ | ⟨_, rest, _, heq, hb, hrest, -, hend⟩ <;> rw [hread] at heq <;>
      cases heq
    obtain rfl := hend rfl
    cases hb
    exact ⟨by simp, by simpa using hrest⟩
  | case5 room r hroom got₁ r₁ hread hgot more r₂ hmore ih =>
    cases hr
    rcases h.read hroom with ⟨_, _, heq, -⟩ | ⟨_, rest, _, heq, rfl, hrest, hle, -⟩ <;> rw [hread] at heq <;>
      cases heq
    obtain ⟨rfl, hrest⟩ := ih hrest hmore
    exact ⟨(Reader.Delivers.take_split hle).1.symm, by rwa [(Reader.Delivers.take_split hle).2]⟩
  | case6 => cases hr

theorem readExact (h : r.Carries b) (hr : Reader.readExact room r = (.ok got, r')) :
    ∃ rest, b = got ++ rest ∧ got.length = room ∧ r'.Carries rest := by
  fun_induction Reader.readExact room r generalizing b got r' with
  | case1 r =>
    cases hr
    exact ⟨b, rfl, rfl, h⟩
  | case2 room r hroom e r₁ hread _ ih =>
    rcases h.read hroom with ⟨_, _, heq, h'⟩ | ⟨_, _, _, heq, -⟩ <;> rw [hread] at heq <;> cases heq
    exact ih h' hr
  | case3 => cases hr
  | case4 => cases hr
  | case5 room r hroom got₁ r₁ hread hgot more r₂ hmore ih =>
    cases hr
    rcases h.read hroom with ⟨_, _, heq, -⟩ | ⟨_, rest, _, heq, rfl, hrest, hle, -⟩ <;> rw [hread] at heq <;>
      cases heq
    obtain ⟨rest, rfl, hlength, hrest⟩ := ih hrest hmore
    refine ⟨rest, by rw [List.append_assoc], ?_, hrest⟩
    rw [List.length_append, hlength]
    omega
  | case6 => cases hr

end Reader.Carries

/-! ## Streams that may fail -/

/-- The same to read and the same written, but only the second do not fail. -/
structure Rougher (s t : Streams) : Prop where
  input : ∃ b, s.reader.Carries b ∧ t.reader.Delivers b
  accepting : t.writer.Accepting
  written : s.writer.written = t.writer.written
  work : s.work = t.work

/-- When a streaming program returns, it does so as if nothing could fail. -/
abbrev Robust {α : Type} (m : StreamM α) : Prop := Follows Rougher m

variable {s t : Streams}

theorem robust_liftCrypto {α : Type} (m : CryptoM α) : Robust (liftCrypto m) := by
  intro s t a s' h hm
  obtain ⟨hwork, hs'⟩ := liftCrypto_eq_ok.1 hm
  rw [h.work] at hwork
  refine ⟨_, liftCrypto_ok hwork, ?_⟩
  rw [hs']
  exact ⟨h.input, h.accepting, h.written, rfl⟩

theorem robust_writeAll (buf : Bytes) : Robust (writeAll buf) := by
  intro s t a s' h hm
  obtain ⟨hwritten, hs'⟩ := writeAll_eq_ok hm
  obtain ⟨w, ht, hw, haccept⟩ := writeAll_accepting buf h.accepting
  refine ⟨_, ht, ?_⟩
  rw [hs']
  exact ⟨h.input, haccept, by rw [hwritten, hw, h.written], h.work⟩

/-- One way of reading, by what it takes of the bytes when it returns. -/
theorem robust_liftRead {α : Type} {f : Reader → Except IronlockError α × Reader} {take : Bytes → α}
    {drop : Bytes → Bytes}
    (hs : ∀ r b a r', Reader.Carries r b → f r = (.ok a, r') → a = take b ∧ r'.Carries (drop b))
    (ht : ∀ r b a r' r₀, Reader.Carries r b → f r = (.ok a, r') → Reader.Delivers r₀ b →
      ∃ r₀', f r₀ = (.ok (take b), r₀') ∧ r₀'.Delivers (drop b)) : Robust (liftRead f) := by
  intro s t a s' h hm
  obtain ⟨b, hcarries, hdelivers⟩ := h.input
  unfold liftRead at hm
  rcases hf : f s.reader with ⟨e | a', r'⟩ <;> simp only [hf] at hm <;> cases hm
  obtain ⟨rfl, hcarries'⟩ := hs _ _ _ _ hcarries hf
  obtain ⟨r₀, hf₀, hdelivers'⟩ := ht _ _ _ _ _ hcarries hf hdelivers
  refine ⟨{ t with reader := r₀ }, by simp only [liftRead, hf₀], ?_⟩
  exact ⟨⟨_, hcarries', hdelivers'⟩, h.accepting, h.written, h.work⟩

theorem robust_readExactFormat (room : Nat) : Robust (readExactFormat room) := by
  have hread {r r' : Reader} {b got : Bytes} (h : r.Carries b) (hr : r.readExact room = (.ok got, r')) :
      room ≤ b.length ∧ got = b.take room ∧ r'.Carries (b.drop room) := by
    obtain ⟨rest, rfl, hlength, hrest⟩ := h.readExact hr
    rw [List.take_left' hlength, List.drop_left' hlength, List.length_append, hlength]
    exact ⟨Nat.le_add_right .., rfl, hrest⟩
  refine @robust_liftRead _ _ (List.take room) (List.drop room) (fun r b a r' h hr => ?_)
      (fun r b a r' r₀ h hr hdelivers => ?_) <;>
    rcases hexact : r.readExact room with ⟨e | got, r₁⟩ <;> rw [hexact] at hr <;> cases hr
  · exact (hread h hexact).2
  · obtain ⟨r₀', hr₀, hdelivers'⟩ := hdelivers.readExact (hread h hexact).1
    exact ⟨r₀', by rw [hr₀], hdelivers'⟩

/-- A buffer that is filled is filled alike. -/
theorem Rougher.fillBuffer {s t : Streams} (h : Rougher s t) {room : Nat} {chunk : Bytes} {r : Reader}
    (hs : Ironlock.fillBuffer room s.reader = (.ok chunk, r)) :
    ∃ r', Ironlock.fillBuffer room t.reader = (.ok chunk, r') ∧
      Rougher { s with reader := r } { t with reader := r' } := by
  obtain ⟨b, hcarries, hdelivers⟩ := h.input
  obtain ⟨rfl, hcarries'⟩ := hcarries.fillBuffer hs
  obtain ⟨r', ht, hdelivers'⟩ := hdelivers.fillBuffer room
  exact ⟨r', ht, ⟨_, hcarries', hdelivers'⟩, h.accepting, h.written, h.work⟩

theorem Reader.Carries.nextRead_one {r r' : Reader} {b got : Bytes} (h : r.Carries b)
    (hr : Ironlock.nextRead 1 r = (.ok got, r')) : got = b.take 1 ∧ r'.Carries (b.drop 1) := by
  obtain ⟨rest, rfl, hrest, hle, hend⟩ := h.nextRead one_ne_zero hr
  match got with
  | [] =>
    have hnil : rest = [] := hend rfl
    subst hnil
    exact ⟨rfl, hrest⟩
  | [x] => exact ⟨rfl, hrest⟩
  | x :: y :: got => simp at hle

section
variable (C : Crates) (key : Key) (baseNonce : Nonce) (header : Bytes)

theorem robust_writeRecord (kind : UInt8) (sequence : Nat) (plaintext : Bytes) :
    Robust (writeRecord C key baseNonce header kind sequence plaintext) :=
  .bind (.ofExcept _) fun _ => .bind (.ofExcept _) fun _ => .bind (robust_liftCrypto _) fun _ =>
    .bind (robust_writeAll _) fun _ => robust_writeAll _

theorem robust_encryptChunks (total count sequence : Nat) :
    Robust (encryptChunks C key baseNonce header total count sequence) := by
  intro s t m s' h hm
  fun_induction encryptChunks C key baseNonce header total count sequence s generalizing t with
  | case1 => cases hm
  | case2 total count sequence s reader hs =>
    cases hm
    obtain ⟨r', ht, h'⟩ := h.fillBuffer hs
    rw [encryptChunks, ht]
    exact ⟨_, rfl, h'⟩
  | case3 => cases hm
  | case4 => cases hm
  | case5 total count sequence s chunk reader hs hchunk s₁ hwrite total' count' sequence' hcount hshort =>
    cases hm
    obtain ⟨r', ht, h'⟩ := h.fillBuffer hs
    obtain ⟨t₁, hwrite', h₁⟩ := robust_writeRecord C key baseNonce header _ _ _ _ _ _ _ h' hwrite
    rw [encryptChunks_pass ht hchunk, hwrite']
    simp only [hcount, hshort, if_true]
    exact ⟨t₁, rfl, h₁⟩
  | case6 total count sequence s chunk reader hs hchunk s₁ hwrite total' count' sequence' hcount hlong ih =>
    obtain ⟨r', ht, h'⟩ := h.fillBuffer hs
    obtain ⟨t₁, hwrite', h₁⟩ := robust_writeRecord C key baseNonce header _ _ _ _ _ _ _ h' hwrite
    rw [encryptChunks_pass ht hchunk, hwrite']
    simp only [hcount, hlong, if_false]
    exact ih t₁ h₁ hm

theorem robust_encryptStreamWithParams (salt : Salt) (password : Bytes) (filename : Str) (params : KdfParams) :
    Robust (encryptStreamWithParams C salt baseNonce password filename params) := by
  refine .ite (.fail _) (.ite (.fail _) ?_)
  refine .bind (robust_liftCrypto _) fun key => .bind (robust_writeAll _) fun _ => ?_
  refine .bind (robust_writeRecord C key _ _ _ _ _) fun _ => ?_
  refine .bind (robust_encryptChunks C key _ _ _ _ _) fun _ => ?_
  exact .bind (robust_writeRecord C key _ _ _ _ _) fun _ => .pure _

theorem robust_decryptRecordBody (record : Bytes) (sequence maxPlaintext : Nat) :
    Robust (decryptRecordBody C key baseNonce header record sequence maxPlaintext) := by
  refine .ite (.fail _) (.bind (robust_liftCrypto _) fun _ => ?_)
  exact .bind (robust_readExactFormat _) fun _ => robust_liftCrypto _

theorem robust_readRecord (sequence : Nat) (kind : Option UInt8) (maxPlaintext : Nat) :
    Robust (readRecord C key baseNonce header sequence kind maxPlaintext) := by
  refine .bind (robust_readExactFormat _) fun _ => .ite (.fail _) (.ite (.fail _) ?_)
  exact robust_decryptRecordBody C key baseNonce header _ _ _

theorem robust_readNextRecord (state : V2State) : Robust (readNextRecord C state) := by
  refine .bind (robust_readExactFormat _) fun _ => .ite (.fail _) (.ite (.fail _) ?_)
  refine .bind (robust_decryptRecordBody C _ _ _ _ _ _) fun _ => ?_
  exact .bind (.ofExcept _) fun _ => .pure _

theorem robust_acceptData (plaintext : Bytes) (total count : Nat) :
    Robust (acceptData plaintext total count) := by
  refine .ite (.fail _) (.bind (robust_writeAll _) fun _ => ?_)
  exact .bind (.ofExcept _) fun _ => .bind (.ofExcept _) fun _ => .pure _

theorem robust_acceptFinal (plaintext : Bytes) (total count : Nat) :
    Robust (acceptFinal plaintext total count) := by
  refine .ite (.fail _) (.ite (.fail _) (.bind ?_ fun _ => .ite (.fail _) (.pure _)))
  exact robust_liftRead (fun _ _ _ _ h hr => h.nextRead_one hr) fun _ _ _ _ _ _ _ h => h.nextRead_one

/-- The decrypt loop, by the passes of the run that may fail. -/
theorem robust_decryptChunks (state : V2State) (total count : Nat) :
    Robust (decryptChunks C state total count) := by
  intro s t m s' h hm
  fun_induction decryptChunks C state total count s generalizing t with
  | case1 => cases hm
  | case2 => cases hm
  | case3 state total count s p state' s₁ total' count' s₂ hdata hread ih =>
    obtain ⟨t₁, hread', h₁⟩ := robust_readNextRecord C state _ _ _ _ h hread
    obtain ⟨t₂, hdata', h₂⟩ := robust_acceptData p total count _ _ _ _ h₁ hdata
    rw [decryptChunks_pass hread', if_pos rfl, hdata']
    exact ih t₂ h₂ hm
  | case4 state total count s p state' s₁ hread hkind =>
    obtain ⟨t₁, hread', h₁⟩ := robust_readNextRecord C state _ _ _ _ h hread
    rw [decryptChunks_pass hread', if_neg hkind, if_pos rfl]
    exact robust_acceptFinal p total count s₁ t₁ m s' h₁ hm
  | case5 => cases hm

end

namespace StreamDecryptor

variable (C : Crates) (password : Bytes)

theorem robust_newV2 (start : Bytes) : Robust (newV2 C password start) := by
  refine .bind (robust_readExactFormat _) fun rest => .ite (.fail _) ?_
  cases Block.ofBytes? saltLength (slice (start ++ rest) 25 41) with
  | none => exact .fail _
  | some salt =>
    cases Block.ofBytes? nonceLength (slice (start ++ rest) 41 53) with
    | none => exact .fail _
    | some baseNonce =>
      refine .bind (robust_liftCrypto _) fun key => .bind (robust_readRecord C key _ _ _ _ _) fun m => ?_
      refine .ite (.fail _) (.ite (.fail _) ?_)
      cases Str.ofBytes? (m.drop 2) with
      | none => exact .fail _
      | some filename => exact .ite (.fail _) (.pure _)

theorem robust_newLegacy (start : Bytes) : Robust (newLegacy C password start) := by
  let room := maxLegacyFileSize + 1 - start.length
  refine .bind (@robust_liftRead _ _ (List.take room) (List.drop room) (fun r b a r' h hr => ?_)
      fun r b a r' r₀ h hr hdelivers => ?_)
    fun rest => .ite (.fail _) (.bind (robust_liftCrypto _) fun _ => .pure _)
  · rcases hend : r.readToEnd room with ⟨e | got, r₁⟩ <;> rw [hend] at hr <;> cases hr
    exact h.readToEnd hend
  · obtain ⟨r₀', hr₀, hdelivers'⟩ := hdelivers.readToEnd room
    exact ⟨r₀', by rw [hr₀], hdelivers'⟩

theorem robust_new : Robust (new C password) := by
  refine .bind (robust_readExactFormat 9) fun start => .ite (.fail _) ?_
  exact .ite (robust_newV2 C password start) (.ite (robust_newLegacy C password start) (.fail _))

theorem robust_decryptTo (d : StreamDecryptor) : Robust (decryptTo C d) := by
  unfold decryptTo
  cases d.mode with
  | legacy plaintext => exact .bind (robust_writeAll _) fun _ => .pure _
  | v2 state => exact robust_decryptChunks C state 0 0

end StreamDecryptor

/-! ## Well-formed streams -/

theorem Reader.exists_delivers (b : Bytes) : ∃ r : Reader, r.Delivers b := by
  by_cases hb : b = []
  · exact ⟨[], hb ▸ .nil⟩
  · exact ⟨[.data b], by simpa [ReadEvent.Delivering] using hb, by simp [ReadEvent.bytes]⟩

theorem Writer.accepting_nil : Writer.Accepting ⟨[], []⟩ := by simp [Writer.Accepting]

section
variable {C : Crates} {password P : Bytes} {reader : Reader} {schedule schedule' : List WriteEvent}
  {log : List Work}

/-- An encryption that returns has written a stream of all of its input. -/
theorem encryptStream_carried {salt : Salt} {baseNonce : Nonce} {filename : Str} {params : KdfParams}
    {m : Nat} {s : Streams} (hreader : reader.Carries P)
    (h : encryptStreamWithParams C salt baseNonce password filename params ⟨reader, ⟨schedule, []⟩, log⟩ =
      (.ok m, s)) :
    ∃ x : Stream C password, x.filename = filename ∧ x.content = P ∧ m = P.length ∧
      s.writer.written = x.bytes := by
  obtain ⟨r, hr⟩ := Reader.exists_delivers P
  have hrough : Rougher ⟨reader, ⟨schedule, []⟩, log⟩ ⟨r, ⟨[], []⟩, log⟩ :=
    ⟨⟨P, hreader, hr⟩, Writer.accepting_nil, rfl, rfl⟩
  obtain ⟨t, ht, hout⟩ := robust_encryptStreamWithParams C baseNonce salt password filename params _ _ _ _
    hrough h
  obtain ⟨x, -, hname, hcontent, hm, hwritten, -⟩ := encryptStream_eq_ok ht hr
  exact ⟨x, hname, hcontent, hm, by rw [hout.written, hwritten]; rfl⟩

/-- A decryption of a stream that returns gives the stream's name and content,
also when its two parts are run by themselves. -/
theorem decryptStream_carried (hC : C.Inverts) (x : Stream C password) {d : StreamDecryptor} {m : Nat}
    {s₁ s₂ : Streams} {log' : List Work} (hreader : reader.Carries x.bytes)
    (hnew : StreamDecryptor.new C password ⟨reader, ⟨schedule, []⟩, log⟩ = (.ok d, s₁))
    (hdecrypt : d.decryptTo C ⟨s₁.reader, ⟨schedule', []⟩, log'⟩ = (.ok m, s₂)) :
    d.filename = x.filename ∧ m = x.content.length ∧ s₂.writer.written = x.content := by
  obtain ⟨r, hr⟩ := Reader.exists_delivers x.bytes
  have hrough : Rougher ⟨reader, ⟨schedule, []⟩, log⟩ ⟨r, ⟨[], []⟩, log⟩ :=
    ⟨⟨_, hreader, hr⟩, Writer.accepting_nil, rfl, rfl⟩
  obtain ⟨t₁, ht₁, hopened⟩ := StreamDecryptor.robust_new C password _ _ _ _ hrough hnew
  obtain ⟨b, t, ht, hsealed, htr, -⟩ := new_ok hC x (s := ⟨r, ⟨[], []⟩, log⟩) hr
  rw [ht₁] at ht
  cases ht
  have hrough' : Rougher ⟨s₁.reader, ⟨schedule', []⟩, log'⟩ ⟨t₁.reader, ⟨[], []⟩, log'⟩ :=
    ⟨hopened.input, Writer.accepting_nil, rfl, rfl⟩
  obtain ⟨t₂, ht₂, hout⟩ := StreamDecryptor.robust_decryptTo C _ _ _ _ _ hrough' hdecrypt
  have hcount := x.count_bound
  have hsize := x.chunkSize_bounds
  obtain ⟨t₃, hloop, hw⟩ := @decryptChunks_ok C hC
    ⟨x.key, x.header, x.baseNonce, x.chunkSize, 1⟩ x.chunks 0 0 b ⟨t₁.reader, ⟨[], []⟩, log'⟩
    (by rw [Nat.zero_add, Nat.zero_add]; exact hsealed) htr Writer.accepting_nil x.chunk_bounds hsize.2
    (by rw [Nat.zero_add]; exact x.content_bound) (by omega) (by simp only; omega)
  rw [Nat.zero_add] at hloop
  have hsame := hloop.symm.trans ht₂
  cases hsame
  exact ⟨rfl, rfl, by rw [hout.written, hw]; rfl⟩

end

/-- Failures can only make a stream fail: an encryption, or a decryption, that
returns has returned and written what it would have without them. -/
theorem faults_only_fail {C : Crates} {password b : Bytes} {reader reader' : Reader}
    {schedule schedule' : List WriteEvent} {log : List Work} (hreader : reader.Carries b)
    (hreader' : reader'.Delivers b) (hwriter' : Writer.Accepting ⟨schedule', []⟩) :
    (∀ salt baseNonce filename params m s, encryptStreamWithParams C salt baseNonce password filename params
        ⟨reader, ⟨schedule, []⟩, log⟩ = (.ok m, s) →
      ∃ s', encryptStreamWithParams C salt baseNonce password filename params
          ⟨reader', ⟨schedule', []⟩, log⟩ = (.ok m, s') ∧
        s'.writer.written = s.writer.written ∧ s'.work = s.work) ∧
    ∀ d s₁ m s₂, StreamDecryptor.new C password ⟨reader, ⟨schedule, []⟩, log⟩ = (.ok d, s₁) →
      d.decryptTo C s₁ = (.ok m, s₂) →
      ∃ s₁' s₂', StreamDecryptor.new C password ⟨reader', ⟨schedule', []⟩, log⟩ = (.ok d, s₁') ∧
        d.decryptTo C s₁' = (.ok m, s₂') ∧ s₂'.writer.written = s₂.writer.written ∧ s₂'.work = s₂.work := by
  have hrough : Rougher ⟨reader, ⟨schedule, []⟩, log⟩ ⟨reader', ⟨schedule', []⟩, log⟩ :=
    ⟨⟨b, hreader, hreader'⟩, hwriter', rfl, rfl⟩
  constructor
  · intro salt baseNonce filename params m s h
    obtain ⟨s', hs', hout⟩ := robust_encryptStreamWithParams C baseNonce salt password filename params _ _ _ _
      hrough h
    exact ⟨s', hs', hout.written.symm, hout.work.symm⟩
  · intro d s₁ m s₂ hnew hdecrypt
    obtain ⟨s₁', hs₁', hopened⟩ := StreamDecryptor.robust_new C password _ _ _ _ hrough hnew
    obtain ⟨s₂', hs₂', hout⟩ := StreamDecryptor.robust_decryptTo C d _ _ _ _ hopened hdecrypt
    exact ⟨s₁', s₂', hs₁', hs₂', hout.written.symm, hout.work.symm⟩

/-- A reader and a writer that are interrupted. -/
theorem faults_only_fail_portions : ∃ s s',
    encryptStreamWithParams .checksummed (.zero 16) (.zero 12) [112, 119] letterA .current
      ⟨[.data [1, 2], .error ⟨.interrupted, "again"⟩, .data [3]], ⟨[.error ⟨.interrupted, "again"⟩], []⟩, []⟩ =
        (.ok 3, s) ∧
    encryptStreamWithParams .checksummed (.zero 16) (.zero 12) [112, 119] letterA .current
      ⟨[.data [1, 2, 3]], ⟨[], []⟩, []⟩ = (.ok 3, s') ∧ s'.writer.written = s.writer.written := by
  have hrun := Eff.run_eq_ok (m := encryptStreamWithParams .checksummed (.zero 16) (.zero 12) [112, 119] letterA
    .current) (s := ⟨[.data [1, 2], .error ⟨.interrupted, "again"⟩, .data [3]],
      ⟨[.error ⟨.interrupted, "again"⟩], []⟩, []⟩) (a := 3) (by decide +kernel)
  have hcarries : Reader.Carries [.data [1, 2], .error ⟨.interrupted, "again"⟩, .data [3]] [1, 2, 3] :=
    ⟨by simp, rfl⟩
  have hdelivers : Reader.Delivers [.data [1, 2, 3]] [1, 2, 3] := ⟨by simp [ReadEvent.Delivering], rfl⟩
  obtain ⟨s', hs', hwritten, -⟩ := (faults_only_fail hcarries hdelivers Writer.accepting_nil).1 _ _ _ _ _ _ hrun
  exact ⟨_, s', hrun, hs', hwritten⟩

end Ironlock
