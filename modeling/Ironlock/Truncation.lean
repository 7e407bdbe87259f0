import Ironlock.Fragmentation
import Ironlock.Decoding

/-! Streams that are accepted are prefix-free: cut short they are refused where
the cut is, and continued they are refused behind their end. Nothing is assumed
of the crates. -/

namespace Ironlock
open ByteOrder
open Effect

theorem Reader.Delivers.unique {r : Reader} {b b' : Bytes} (h : r.Delivers b) (h' : r.Delivers b') :
    b = b' := h.bytes.symm.trans h'.bytes

/-! ## Programs that read -/

/-- The first run has `b` to read and then `more`, the second only `b`. -/
structure Ahead (b more : Bytes) (s t : Streams) : Prop where
  longer : s.reader.Delivers (b ++ more)
  shorter : t.reader.Delivers b
  work : s.work = t.work

/-- A program that reads, on an input and on the same input with more behind it:
it does the same on both; or the shorter one ends on it, and the longer run uses
some of what is behind it up; or both runs fail. -/
def Follows {α : Type} (m : StreamM α) : Prop :=
  ∀ b more s t, Ahead b more s t →
    (∃ a s' t' b', m s = (.ok a, s') ∧ m t = (.ok a, t') ∧ Ahead b' more s' t' ∧ b' <:+ b ∧
      s'.writer = s.writer ∧ t'.writer = t.writer) ∨
    (∃ t', m t = (.error .invalidFileFormat, t') ∧ t'.writer = t.writer ∧
      ∀ a s', m s = (.ok a, s') → ∃ rest, s'.reader.Delivers rest ∧ rest.length < more.length) ∨
    ∃ e e' s' t', m s = (.error e, s') ∧ m t = (.error e', t')

namespace Follows

variable {α β : Type} {m : StreamM α}

theorem pure (a : α) : Follows (Pure.pure a : StreamM α) := fun b _ s t h =>
  .inl ⟨a, s, t, b, rfl, rfl, h, List.suffix_refl b, rfl, rfl⟩

theorem fail (e : IronlockError) : Follows (Eff.fail e : StreamM α) := fun _ _ s t _ =>
  .inr (.inr ⟨e, e, s, t, rfl, rfl⟩)

theorem ofExcept (r : Except IronlockError α) : Follows (Eff.ofExcept r : StreamM α) := by
  cases r with
  | ok a => exact pure a
  | error e => exact fail e

theorem ite {c : Prop} [Decidable c] {n : StreamM α} (hm : Follows m) (hn : Follows n) :
    Follows (if c then m else n) := by split <;> assumption

theorem bind {f : α → StreamM β} (hm : Follows m) (hf : ∀ a, Follows (f a)) : Follows (m >>= f) := by
  intro b more s t h
  rcases hm b more s t h with ⟨a, s₁, t₁, b₁, hs, ht, h₁, hsuffix, hsw, htw⟩ |
    ⟨t₁, ht, htw, hpast⟩ | ⟨e, e', s₁, t₁, hs, ht⟩
  · rw [Eff.bind_ok hs, Eff.bind_ok ht]
    rcases hf a b₁ more s₁ t₁ h₁ with ⟨c, s₂, t₂, b₂, hs, ht, h₂, hsuffix', hsw', htw'⟩ |
      ⟨t₂, ht, htw', hpast⟩ | hboth
    · exact .inl ⟨c, s₂, t₂, b₂, hs, ht, h₂, hsuffix'.trans hsuffix, hsw'.trans hsw, htw'.trans htw⟩
    · exact .inr (.inl ⟨t₂, ht, htw'.trans htw, hpast⟩)
    · exact .inr (.inr hboth)
  · refine .inr (.inl ⟨t₁, Eff.bind_error ht f, htw, fun c s₂ hrun => ?_⟩)
    obtain ⟨a, s₁, hs, hrun⟩ := Eff.bind_eq_ok.1 hrun
    obtain ⟨rest, hrest, hlt⟩ := hpast a s₁ hs
    -- Past the cut the longer run only uses up more: compare it with one that has nothing left.
    rcases hf a [] rest s₁ { s₁ with reader := [] } ⟨hrest, .nil, rfl⟩ with
      ⟨_, s', _, b', hs', -, h', hsuffix, -⟩ | ⟨_, -, -, hless⟩ | ⟨_, _, _, _, hs', -⟩
    · rw [hrun] at hs'
      cases hs'
      obtain rfl := List.suffix_nil.1 hsuffix
      exact ⟨rest, h'.longer, hlt⟩
    · obtain ⟨rest', hrest', hlt'⟩ := hless c s₂ hrun
      exact ⟨rest', hrest', hlt'.trans hlt⟩
    · rw [hrun] at hs'
      cases hs'
  · exact .inr (.inr ⟨e, e', s₁, t₁, Eff.bind_error hs f, Eff.bind_error ht f⟩)

end Follows

theorem follows_liftCrypto {α : Type} (m : CryptoM α) : Follows (liftCrypto m) := by
  intro b more s t h
  unfold liftCrypto
  rw [h.work]
  rcases m t.work with ⟨e | a, log⟩
  · exact .inr (.inr ⟨e, e, _, _, rfl, rfl⟩)
  · exact .inl ⟨a, _, _, b, rfl, rfl, ⟨h.longer, h.shorter, rfl⟩, List.suffix_refl b, rfl, rfl⟩

theorem follows_readExactFormat (room : Nat) : Follows (readExactFormat room) := by
  intro b more s t h
  by_cases hroom : room ≤ b.length
  · have hcut : b = b.take room ++ b.drop room := (List.take_append_drop ..).symm
    have hlen : (b.take room).length = room := by simpa using hroom
    have hlonger := h.longer
    have hshorter := h.shorter
    rw [hcut, List.append_assoc] at hlonger
    rw [hcut] at hshorter
    obtain ⟨r, hs, hr⟩ := readExactFormat_ok hlonger hlen
    obtain ⟨r', ht, hr'⟩ := readExactFormat_ok hshorter hlen
    exact .inl ⟨_, _, _, b.drop room, hs, ht, ⟨hr, hr', h.work⟩, List.drop_suffix .., rfl, rfl⟩
  · obtain ⟨r', ht⟩ := readExactFormat_short h.shorter (Nat.lt_of_not_le hroom)
    refine .inr (.inl ⟨_, ht, rfl, fun a s' hs => ?_⟩)
    obtain ⟨rest, heq, hlen, hrest, -⟩ := readExactFormat_eq_ok h.longer hs
    have := congrArg List.length heq
    simp only [List.length_append] at this
    exact ⟨rest, hrest, by omega⟩

section
variable (C : Crates) (key : Key) (baseNonce : Nonce) (header : Bytes)

theorem follows_decryptRecordBody (record : Bytes) (sequence maxPlaintext : Nat) :
    Follows (decryptRecordBody C key baseNonce header record sequence maxPlaintext) := by
  refine .ite (.fail _) (.bind (follows_liftCrypto _) fun _ => ?_)
  exact .bind (follows_readExactFormat _) fun _ => follows_liftCrypto _

theorem follows_readRecord (sequence : Nat) (kind : Option UInt8) (maxPlaintext : Nat) :
    Follows (readRecord C key baseNonce header sequence kind maxPlaintext) := by
  refine .bind (follows_readExactFormat _) fun _ => .ite (.fail _) (.ite (.fail _) ?_)
  exact follows_decryptRecordBody C key baseNonce header _ _ _

theorem follows_readNextRecord (state : V2State) : Follows (readNextRecord C state) := by
  refine .bind (follows_readExactFormat _) fun _ => .ite (.fail _) (.ite (.fail _) ?_)
  refine .bind (follows_decryptRecordBody C _ _ _ _ _ _) fun _ => ?_
  exact .bind (.ofExcept _) fun _ => .pure _

theorem follows_newV2 (password start : Bytes) : Follows (StreamDecryptor.newV2 C password start) := by
  refine .bind (follows_readExactFormat _) fun rest => .ite (.fail _) ?_
  cases Block.ofBytes? saltLength (slice (start ++ rest) 25 41) with
  | none => exact .fail _
  | some salt =>
    cases Block.ofBytes? nonceLength (slice (start ++ rest) 41 53) with
    | none => exact .fail _
    | some baseNonce =>
      refine .bind (follows_liftCrypto _) fun key => ?_
      refine .bind (follows_readRecord C key _ _ _ _ _) fun m => .ite (.fail _) (.ite (.fail _) ?_)
      cases Str.ofBytes? (m.drop 2) with
      | none => exact .fail _
      | some filename => exact .ite (.fail _) (.pure _)

end

/-! ## Frames -/

/-- A record as it lies in a stream, and what it opens to. -/
structure Frame where
  kind : UInt8
  ciphertext : Bytes
  plaintext : Bytes

def Frame.head (f : Frame) (sequence : Nat) : Bytes :=
  recordHead f.kind sequence f.ciphertext.length

/-- The frames one after another, numbered from `sequence` on. -/
def frameBytes : Nat → List Frame → Bytes
  | _, [] => []
  | sequence, f :: fs => f.head sequence ++ f.ciphertext ++ frameBytes (sequence + 1) fs

/-- Every frame opens at its place. -/
def Opens (C : Crates) (key : Key) (baseNonce : Nonce) (header : Bytes) : Nat → List Frame → Prop
  | _, [] => True
  | sequence, f :: fs =>
    C.aeadDecrypt key (deriveRecordNonce baseNonce sequence) f.ciphertext
        (header ++ f.head sequence) = some f.plaintext ∧
      Opens C key baseNonce header (sequence + 1) fs

section
variable {C : Crates} {state state' : V2State} {kind : UInt8} {p : Bytes} {total count : Nat}
  {s s' t : Streams}

theorem readNextRecord_frame {full : Bytes} (hs : s.reader.Delivers full)
    (h : readNextRecord C state s = (.ok (kind, p, state'), s')) :
    ∃ (f : Frame) (rest : Bytes), f.kind = kind ∧ f.plaintext = p ∧
      full = f.head state.nextSequence ++ f.ciphertext ++ rest ∧
      C.aeadDecrypt state.key (deriveRecordNonce state.baseNonce state.nextSequence) f.ciphertext
        (state.header ++ f.head state.nextSequence) = some f.plaintext ∧
      state' = { state with nextSequence := state.nextSequence + 1 } ∧
      s'.reader.Delivers rest ∧ s'.writer = s.writer := by
  obtain ⟨c, rest, hfull, -, -, -, -, hdec, -, hstate, hrest, hw⟩ := readNextRecord_eq_ok hs h
  exact ⟨⟨kind, c, p⟩, rest, rfl, rfl, hfull, hdec, hstate, hrest, hw⟩

/-- The next record on an input cut short: it is there and read as before, or
the cut is inside it. -/
theorem readNextRecord_cut {f : Frame} {b more rest : Bytes} (hahead : Ahead b more s t)
    (h : readNextRecord C state s = (.ok (kind, p, state'), s'))
    (hfull : b ++ more = f.head state.nextSequence ++ f.ciphertext ++ rest)
    (hrest : s'.reader.Delivers rest) :
    (∃ t' b', readNextRecord C state t = (.ok (kind, p, state'), t') ∧
      b = f.head state.nextSequence ++ f.ciphertext ++ b' ∧ rest = b' ++ more ∧
      Ahead b' more s' t' ∧ t'.writer = t.writer) ∨
    (b.length < (f.head state.nextSequence ++ f.ciphertext).length ∧
      ∃ t', readNextRecord C state t = (.error .invalidFileFormat, t') ∧ t'.writer = t.writer) := by
  rcases follows_readNextRecord C state b more s t hahead with
    ⟨_, s₁, t₁, b', hs, ht, hahead', -, -, htw⟩ | ⟨t₁, ht, htw, hpast⟩ | ⟨_, _, _, _, hs, -⟩
  · rw [h] at hs
    cases hs
    obtain rfl := hrest.unique hahead'.longer
    rw [← List.append_assoc] at hfull
    exact .inl ⟨t₁, b', ht, List.append_cancel_right hfull, rfl, hahead', htw⟩
  · obtain ⟨rest', hrest', hlt⟩ := hpast _ _ h
    obtain rfl := hrest.unique hrest'
    have hlen := congrArg List.length hfull
    rw [List.length_append, List.length_append] at hlen
    exact .inr ⟨by omega, t₁, ht, htw⟩
  · rw [h] at hs
    cases hs

/-- The same chunk into another writer that does not fail. -/
theorem acceptData_again {totals : Nat × Nat} (h : acceptData p total count s = (.ok totals, s'))
    (haccept : t.writer.Accepting) :
    s'.reader = s.reader ∧ s'.work = s.work ∧
      ∃ w, acceptData p total count t = (.ok totals, { t with writer := w }) ∧
        w.written = t.writer.written ++ p ∧ w.Accepting := by
  unfold acceptData at h ⊢
  by_cases hp : p = []
  · rw [if_pos hp] at h; cases h
  rw [if_neg hp] at h ⊢
  simp only [Eff.bind_eq_ok, Eff.ofExcept_apply, Prod.mk.injEq] at h
  obtain ⟨_, s₁, hwrite, total', _, ⟨htotal, rfl⟩, count', _, ⟨hcount, rfl⟩, h⟩ := h
  cases h
  obtain ⟨-, hs'⟩ := writeAll_eq_ok hwrite
  obtain ⟨w, hw, hwritten, hacc⟩ := writeAll_accepting p haccept
  refine ⟨by rw [hs'], by rw [hs'], w, ?_, hwritten, hacc⟩
  rw [Eff.bind_ok hw, htotal, hcount]
  rfl

/-- The final record with something behind it. -/
theorem acceptFinal_trailing {m : Nat} {more : Bytes}
    (h : acceptFinal p total count s = (.ok m, s')) (ht : t.reader.Delivers more) (hmore : more ≠ []) :
    ∃ t', acceptFinal p total count t = (.error .invalidFileFormat, t') ∧ t'.writer = t.writer := by
  unfold acceptFinal at h ⊢
  by_cases hlen : p.length = finalPlaintextSize
  case neg => rw [if_pos hlen] at h; cases h
  rw [if_neg (not_not.2 hlen)] at h ⊢
  by_cases htotals : ofBe (slice p 0 8) ≠ total ∨ ofBe (slice p 8 16) ≠ count
  · simp only [htotals, if_true] at h; cases h
  simp only [htotals, if_false]
  obtain ⟨got, rest, r, hnext, -, -, -, hend⟩ := ht.nextRead Nat.one_ne_zero
  have htrailing : liftRead (nextRead 1) t = (.ok got, { t with reader := r }) := by
    rw [liftRead, hnext]
  refine ⟨{ t with reader := r }, ?_, rfl⟩
  rw [Eff.bind_ok htrailing, if_pos fun hgot => hmore (hend hgot), Eff.fail_apply]

/-- What a run of the decrypt loop that succeeded on `full` has read, what the
loop does on `full` cut short, and what it does on `full` continued. -/
structure LoopFrames (C : Crates) (state : V2State) (total count : Nat) (s s' : Streams)
    (full : Bytes) (data : List Frame) (final : Frame) : Prop where
  bytes : full = frameBytes state.nextSequence (data ++ [final])
  data_kind : ∀ f ∈ data, f.kind = recordData
  final_kind : final.kind = recordFinal
  opens : Opens C state.key state.baseNonce state.header state.nextSequence (data ++ [final])
  written : s'.writer.written = s.writer.written ++ data.flatMap Frame.plaintext
  cut : ∀ b more t, full = b ++ more → more ≠ [] → t.reader.Delivers b → s.work = t.work →
    t.writer.Accepting → ∃ t' n, decryptChunks C state total count t =
        (.error .invalidFileFormat, t') ∧ n ≤ data.length ∧
      t'.writer.written = t.writer.written ++ (data.take n).flatMap Frame.plaintext ∧
      ∀ i < data.length,
        i < n ↔ (frameBytes state.nextSequence (data.take (i + 1))).length ≤ b.length
  continued : ∀ more t, more ≠ [] → t.reader.Delivers (full ++ more) → t.work = s.work →
    t.writer.Accepting → ∃ t', decryptChunks C state total count t =
        (.error .invalidFileFormat, t') ∧
      t'.writer.written = t.writer.written ++ data.flatMap Frame.plaintext

theorem decryptChunks_frames {full : Bytes} {m : Nat} (hs : s.reader.Delivers full)
    (h : decryptChunks C state total count s = (.ok m, s')) :
    ∃ data final, LoopFrames C state total count s s' full data final := by
  fun_induction decryptChunks C state total count s generalizing full with
  | case1 => cases h
  | case2 => cases h
  | case5 => cases h
  | case3 state total count s p state₁ s₁ total' count' s₂ hdata hread ih =>
    obtain ⟨f, rest, hkind, rfl, hfull, hopen, rfl, hrest, hw₁⟩ := readNextRecord_frame hs hread
    obtain ⟨-, -, -, hw₂, hr₂⟩ := acceptData_eq_ok hdata
    have hagain (t : Streams) (ht : t.writer.Accepting) := acceptData_again (t := t) hdata ht
    obtain ⟨data, final, rec⟩ := ih (by rw [hr₂]; exact hrest) h
    refine ⟨f :: data, final, ?_, ?_, rec.final_kind, ⟨hopen, rec.opens⟩, ?_, ?_, ?_⟩
    · rw [hfull, rec.bytes]; rfl
    · exact List.forall_mem_cons.2 ⟨hkind, rec.data_kind⟩
    · rw [rec.written, hw₂, hw₁, List.flatMap_cons, List.append_assoc]
    · -- The cut is inside this record, or the rest of the loop is cut.
      intro b more t heq hmore ht hwork haccept
      have hahead : Ahead b more s t := ⟨by rw [← heq]; exact hs, ht, hwork⟩
      rcases readNextRecord_cut hahead hread (by rw [← heq, hfull]) hrest with
        ⟨t₁, b', hread', rfl, rfl, hahead', hw⟩ | ⟨hlt, t₁, hread', hw⟩
      · obtain ⟨hreader, hwork₂, w, hdata', hwritten, hacc⟩ := hagain t₁ (by rw [hw]; exact haccept)
        obtain ⟨t', n, hloop, hn, hwritten', hiff⟩ := rec.cut b' more { t₁ with writer := w } rfl hmore
          hahead'.shorter (by rw [hwork₂]; exact hahead'.work) hacc
        refine ⟨t', n + 1, ?_, Nat.succ_le_succ hn, ?_, ?_⟩
        · rw [decryptChunks_pass hread', if_pos rfl, hdata']
          exact hloop
        · rw [hwritten', List.take_succ_cons, List.flatMap_cons, ← List.append_assoc, ← hw]
          exact congrArg (· ++ _) hwritten
        · intro i hi
          cases i with
          | zero => simp [frameBytes]
          | succ i =>
            have hrest := hiff i (Nat.lt_of_succ_lt_succ hi)
            simp only [List.take_succ_cons, frameBytes, List.length_append] at hrest ⊢
            omega
      · refine ⟨t₁, 0, decryptChunks_error hread', Nat.zero_le _, by simp [hw], fun i hi => ?_⟩
        rw [List.take_succ_cons, frameBytes, List.length_append]
        omega
    · intro more t hmore ht hwork haccept
      rcases follows_readNextRecord C state full more t s ⟨ht, hs, hwork⟩ with
        ⟨_, t₁, _, b', ht₁, hs₁, hahead, -, htw, -⟩ | ⟨_, hs₁, -⟩ | ⟨_, _, _, _, -, hs₁⟩ <;>
        rw [hread] at hs₁ <;> cases hs₁
      obtain rfl := hrest.unique hahead.shorter
      obtain ⟨hreader, hwork₂, w, hdata', hwritten, hacc⟩ := hagain t₁ (by rw [htw]; exact haccept)
      obtain ⟨t', hloop, hwritten'⟩ := rec.continued more { t₁ with writer := w } hmore hahead.longer
        (by rw [hwork₂]; exact hahead.work) hacc
      refine ⟨t', ?_, ?_⟩
      · rw [decryptChunks_pass ht₁, if_pos rfl, hdata']
        exact hloop
      · rw [hwritten', List.flatMap_cons, ← List.append_assoc, ← htw]
        exact congrArg (· ++ _) hwritten
  | case4 state total count s p state₁ s₁ hread hkind =>
    obtain ⟨f, rest, hkind, rfl, hfull, hopen, rfl, hrest, hw₁⟩ := readNextRecord_frame hs hread
    obtain ⟨-, rfl, -, hw₂⟩ := acceptFinal_eq_ok hrest h
    refine ⟨[], f, ?_, by simp, hkind, ⟨hopen, trivial⟩, by simp [hw₂, hw₁], ?_, ?_⟩
    · rw [hfull]; simp [frameBytes]
    · intro b more t heq hmore ht hwork haccept
      have hahead : Ahead b more s t := ⟨by rw [← heq]; exact hs, ht, hwork⟩
      rcases readNextRecord_cut hahead hread (by rw [← heq, hfull]) hrest with
        ⟨_, b', -, -, hnil, -⟩ | ⟨-, t₁, hread', hw⟩
      · exact absurd (List.append_eq_nil_iff.1 hnil.symm).2 hmore
      · exact ⟨t₁, 0, decryptChunks_error hread', le_rfl, by simp [hw], by simp⟩
    · intro more t hmore ht hwork haccept
      rcases follows_readNextRecord C state full more t s ⟨ht, hs, hwork⟩ with
        ⟨_, t₁, _, b', ht₁, hs₁, hahead, -, htw, -⟩ | ⟨_, hs₁, -⟩ | ⟨_, _, _, _, -, hs₁⟩ <;>
        rw [hread] at hs₁ <;> cases hs₁
      obtain rfl := hrest.unique hahead.shorter
      obtain ⟨t', hfinal, hw⟩ := acceptFinal_trailing h hahead.longer hmore
      refine ⟨t', ?_, by simp [hw, htw]⟩
      rw [decryptChunks_final ht₁]
      exact hfinal

end

/-! ## Whole streams -/

namespace StreamDecryptor

variable {C : Crates} {password start rest : Bytes} {s : Streams}

/-- Behind the first bytes of a version 2 file the decryptor is `new_v2`. -/
theorem new_v2 (C : Crates) (password : Bytes) (hstart : start = magicBytes ++ [formatVersion])
    (hs : s.reader.Delivers (start ++ rest)) :
    ∃ r, r.Delivers rest ∧ new C password s = newV2 C password start { s with reader := r } := by
  obtain ⟨r, hread, hr⟩ := readExactFormat_ok hs (by rw [hstart]; rfl : _ = 9)
  refine ⟨r, hr, ?_⟩
  unfold new
  rw [Eff.bind_ok hread, hstart]
  rfl

/-- The whole of a decryption. -/
theorem new_bind_decryptTo {d : StreamDecryptor} {state : V2State} {s₁ : Streams}
    (hnew : new C password s = (.ok d, s₁)) (hmode : d.mode = .v2 state) :
    (new C password >>= decryptTo C) s = decryptChunks C state 0 0 s₁ := by
  rw [Eff.bind_ok hnew, decryptTo, hmode]

/-- A header of 53 bytes, a metadata record, data records and a final record,
each opening at its place. -/
structure Framed (C : Crates) (key : Key) (baseNonce : Nonce) (b header : Bytes) (metadata : Frame)
    (data : List Frame) (final : Frame) : Prop where
  header_length : header.length = 53
  bytes : b = header ++ frameBytes 0 (metadata :: (data ++ [final]))
  metadata_kind : metadata.kind = recordMetadata
  data_kind : ∀ f ∈ data, f.kind = recordData
  final_kind : final.kind = recordFinal
  opens : Opens C key baseNonce header 0 (metadata :: (data ++ [final]))

/-- The first `k` bytes of `b` are refused as malformed, after the plaintexts of
just those data records have been written that end within them. -/
def RefusesCut (C : Crates) (password : Bytes) (log : List Work) (b header : Bytes) (metadata : Frame)
    (data : List Frame) : Prop :=
  ∀ k < b.length, ∀ reader' writer', Reader.Delivers reader' (b.take k) → Writer.Accepting writer' →
    ∃ t n, (new C password >>= decryptTo C) ⟨reader', writer', log⟩ = (.error .invalidFileFormat, t) ∧
      n ≤ data.length ∧ t.writer.written = writer'.written ++ (data.take n).flatMap Frame.plaintext ∧
      ∀ i < data.length, i < n ↔ (header ++ frameBytes 0 (metadata :: data.take (i + 1))).length ≤ k

/-- With anything behind it `b` is refused as malformed, after the plaintexts of
all its data records have been written. -/
def RefusesMore (C : Crates) (password : Bytes) (log : List Work) (b : Bytes) (data : List Frame) : Prop :=
  ∀ more, more ≠ [] → ∀ reader' writer', Reader.Delivers reader' (b ++ more) → Writer.Accepting writer' →
    ∃ t, (new C password >>= decryptTo C) ⟨reader', writer', log⟩ = (.error .invalidFileFormat, t) ∧
      t.writer.written = writer'.written ++ data.flatMap Frame.plaintext

section
variable {b body header rest : Bytes} {r : Reader} {writer : Writer} {log : List Work} {d : StreamDecryptor}
  {state : V2State} {m : Nat} {s₁ s₂ : Streams} {metadata final : Frame} {data : List Frame}

/-- What `newV2` leaves in front of the loop. -/
theorem newV2_frame (hstart : start = magicBytes ++ [formatVersion]) (hr : r.Delivers body)
    (hnew : newV2 C password start ⟨r, writer, log⟩ = (.ok d, s₁)) :
    ∃ state rest c, let metadata : Frame :=
        ⟨recordMetadata, c, toBe 2 d.filename.bytes.length ++ d.filename.bytes⟩
      d.mode = .v2 state ∧ state.nextSequence = 1 ∧ state.header.length = 53 ∧
      start ++ body = state.header ++ (metadata.head 0 ++ metadata.ciphertext ++ rest) ∧
      C.aeadDecrypt state.key (deriveRecordNonce state.baseNonce 0) metadata.ciphertext
        (state.header ++ metadata.head 0) = some metadata.plaintext ∧
      s₁.reader.Delivers rest ∧ s₁.writer = writer := by
  obtain ⟨params, chunkSize, salt, baseNonce, key, c, rest, hbytes, -, -, -, -, -, -, -, -, hdec, -, -,
    hmode, hrest, hw₁⟩ := newV2_eq_ok hstart hr hnew
  exact ⟨_, rest, c, hmode, rfl, length_streamHeader .., by simpa [Frame.head] using hbytes, hdec, hrest, hw₁⟩

/-- Where the records in front of the `i`th end. -/
theorem length_header_frames (hlen : header.length = 53) (i : Nat) :
    (header ++ frameBytes 0 (metadata :: data.take (i + 1))).length =
      53 + (metadata.head 0 ++ metadata.ciphertext).length + (frameBytes 1 (data.take (i + 1))).length := by
  rw [List.length_append, frameBytes, List.length_append, hlen, Nat.add_assoc]

theorem refusesCut (hstart : start = magicBytes ++ [formatVersion]) (hb : b = start ++ body)
    (hr : r.Delivers body) (hnew : newV2 C password start ⟨r, writer, log⟩ = (.ok d, s₁))
    (hmode : d.mode = .v2 state) (hone : state.nextSequence = 1) (hlen : header.length = 53)
    (hbytes : b = header ++ (metadata.head 0 ++ metadata.ciphertext ++ rest)) (hrest : s₁.reader.Delivers rest)
    (frames : LoopFrames C state 0 0 s₁ s₂ rest data final) :
    RefusesCut C password log b header metadata data := by
  have hnine : start.length = 9 := by rw [hstart]; rfl
  have hsize : b.length = 53 + (metadata.head 0 ++ metadata.ciphertext).length + rest.length := by
    rw [hbytes, List.length_append, List.length_append, hlen, Nat.add_assoc]
  have hends := @length_header_frames header metadata data hlen
  have hsame (reader' : Reader) (writer' : Writer) (t : Streams) (e : IronlockError)
      (h : new C password ⟨reader', writer', log⟩ = (.error e, t)) :
      (new C password >>= decryptTo C) ⟨reader', writer', log⟩ = (.error e, t) := Eff.bind_error h _
  intro k hk reader' writer' hreader' hwriter'
  by_cases hshort : k < 9
  · -- The cut is in the magic or before the version.
    obtain ⟨r', hread⟩ := readExactFormat_short (s := ⟨reader', writer', log⟩) hreader'
      (by rw [List.length_take]; omega : _ < 9)
    refine ⟨_, 0, hsame _ _ _ _ (by rw [new, Eff.bind_error hread]), Nat.zero_le _, by simp, fun i _ => ?_⟩
    rw [hends]
    omega
  have htake : b.take k = start ++ body.take (k - 9) := by
    rw [hb, List.take_append, List.take_of_length_le (by omega), hnine]
  have hbody : body = body.take (k - 9) ++ body.drop (k - 9) := (List.take_append_drop ..).symm
  have hb9 : b.length = 9 + body.length := by rw [hb, List.length_append, hnine]
  have hdrop : (body.drop (k - 9)).length = b.length - k := by
    rw [List.length_drop]; omega
  rw [htake] at hreader'
  obtain ⟨r', hr', hrun⟩ := new_v2 C password (s := ⟨reader', writer', log⟩) hstart hreader'
  rw [hbody] at hr
  rcases follows_newV2 C password start _ _ ⟨r, writer, log⟩ ⟨r', writer', log⟩ ⟨hr, hr', rfl⟩ with
    ⟨_, _, t₁, b', hs₁, ht₁, hahead, -, -, htw⟩ | ⟨t₁, ht₁, htw, hpast⟩ | ⟨_, _, _, _, hs₁, -⟩
  · rw [hnew] at hs₁
    cases hs₁
    obtain rfl := hrest.unique hahead.longer
    have hmore : body.drop (k - 9) ≠ [] := List.ne_nil_of_length_pos (by omega)
    obtain ⟨t, n, hcut, hn, hwritten, hiff⟩ := frames.cut b' _ t₁ rfl hmore hahead.shorter
      hahead.work (by rw [htw]; exact hwriter')
    refine ⟨t, n, ?_, hn, by rw [hwritten, htw], fun i hi => ?_⟩
    · rw [new_bind_decryptTo (hrun.trans ht₁) hmode]
      exact hcut
    · rw [hiff i hi, hends, hone]
      have hlenrest : (b' ++ body.drop (k - 9)).length = b'.length + (body.drop (k - 9)).length :=
        List.length_append
      omega
  · obtain ⟨rest', hrest', hlt⟩ := hpast _ _ hnew
    obtain rfl := hrest.unique hrest'
    refine ⟨t₁, 0, hsame _ _ _ _ (hrun.trans ht₁), Nat.zero_le _, by simp [htw], fun i _ => ?_⟩
    rw [hends]
    omega
  · rw [hnew] at hs₁
    cases hs₁

theorem refusesMore (hstart : start = magicBytes ++ [formatVersion]) (hb : b = start ++ body)
    (hr : r.Delivers body) (hnew : newV2 C password start ⟨r, writer, log⟩ = (.ok d, s₁))
    (hmode : d.mode = .v2 state) (hrest : s₁.reader.Delivers rest)
    (frames : LoopFrames C state 0 0 s₁ s₂ rest data final) : RefusesMore C password log b data := by
  intro more hmore reader' writer' hreader' hwriter'
  rw [hb, List.append_assoc] at hreader'
  obtain ⟨r', hr', hrun⟩ := new_v2 C password (s := ⟨reader', writer', log⟩) hstart hreader'
  rcases follows_newV2 C password start _ _ ⟨r', writer', log⟩ ⟨r, writer, log⟩ ⟨hr', hr, rfl⟩ with
    ⟨_, t₁, _, b', ht₁, hs₁, hahead, -, htw, -⟩ | ⟨_, hs₁, -⟩ | ⟨_, _, _, _, -, hs₁⟩ <;>
    rw [hnew] at hs₁ <;> cases hs₁
  obtain rfl := hrest.unique hahead.shorter
  obtain ⟨t, hcont, hwritten⟩ := frames.continued more t₁ hmore hahead.longer hahead.work
    (by rw [htw]; exact hwriter')
  refine ⟨t, ?_, by rw [hwritten, htw]⟩
  rw [new_bind_decryptTo (hrun.trans ht₁) hmode]
  exact hcont

/-- A version 2 input that is accepted is a header and records, each opening at
its place, and the plaintexts of the data records were written. No proper prefix
of it is accepted and nothing that continues it. -/
theorem accepted_prefix_free {reader : Reader} (hstart : b.take 9 = magicBytes ++ [formatVersion])
    (hreader : reader.Delivers b) (hnew : new C password ⟨reader, writer, log⟩ = (.ok d, s₁))
    (hdecrypt : decryptTo C d s₁ = (.ok m, s₂)) :
    ∃ (key : Key) (baseNonce : Nonce) (header : Bytes) (metadata : Frame) (data : List Frame) (final : Frame),
      Framed C key baseNonce b header metadata data final ∧
      s₂.writer.written = writer.written ++ data.flatMap Frame.plaintext ∧
      RefusesCut C password log b header metadata data ∧ RefusesMore C password log b data := by
  obtain ⟨body, hb⟩ : ∃ body, b = (magicBytes ++ [formatVersion]) ++ body :=
    ⟨b.drop 9, by rw [← hstart, List.take_append_drop]⟩
  have hreader₀ := hreader
  rw [hb] at hreader₀
  obtain ⟨r, hr, hnew'⟩ := new_v2 C password (s := ⟨reader, writer, log⟩) rfl hreader₀
  rw [hnew'] at hnew
  obtain ⟨state, rest, c, hmode, hone, hlen, hbytes, hdec, hrest, hw₁⟩ := newV2_frame rfl hr hnew
  rw [← hb] at hbytes
  have hloop : decryptChunks C state 0 0 s₁ = (.ok m, s₂) := by
    rwa [decryptTo, hmode] at hdecrypt
  obtain ⟨data, final, frames⟩ := decryptChunks_frames hrest hloop
  refine ⟨state.key, state.baseNonce, state.header, _, data, final, ?_, by rw [frames.written, hw₁],
    refusesCut rfl hb hr hnew hmode hone hlen hbytes hrest frames,
    refusesMore rfl hb hr hnew hmode hrest frames⟩
  have hopens := frames.opens
  rw [hone] at hopens
  refine ⟨hlen, ?_, rfl, frames.data_kind, frames.final_kind, hdec, hopens⟩
  rw [hbytes, frames.bytes, hone]
  rfl

end

/-- Three bytes under the checksum cipher, with one byte behind them. -/
theorem accepted_prefix_free_checksummed : ∃ b d s₁ s₂ t,
    new .checksummed [112, 119] ⟨[.data b], ⟨[], []⟩, []⟩ = (.ok d, s₁) ∧
    decryptTo .checksummed d s₁ = (.ok 3, s₂) ∧ s₂.writer.written = [1, 2, 3] ∧
    (new .checksummed [112, 119] >>= decryptTo .checksummed) ⟨[.data (b ++ [0])], ⟨[], []⟩, []⟩ =
      (.error .invalidFileFormat, t) ∧ t.writer.written = [1, 2, 3] := by
  obtain ⟨s, h⟩ := checksummed_run
  obtain ⟨x, -, -, hcontent, -⟩ := encryptStream_eq_ok h (P := [1, 2, 3]) ⟨by decide, rfl⟩
  have hhead : x.header.take 9 = magicBytes ++ [formatVersion] := streamHeader_start ..
  have hlen : x.header.length = 53 := length_streamHeader ..
  have hstart : x.bytes.take 9 = magicBytes ++ [formatVersion] := by
    rw [Stream.bytes, List.take_append_of_le_length (by omega), hhead]
  have hreader (more : Bytes) : Reader.Delivers [.data (x.bytes ++ more)] (x.bytes ++ more) := by
    refine ⟨?_, by simp [ReadEvent.bytes]⟩
    simp only [List.mem_singleton, forall_eq, ReadEvent.Delivering]
    intro hnil
    rw [(List.append_eq_nil_iff.1 hnil).1] at hstart
    cases hstart
  have hwriter : Writer.Accepting ⟨[], []⟩ := by simp [Writer.Accepting]
  have hwhole := hreader []
  rw [List.append_nil] at hwhole
  obtain ⟨d, s₁, s₂, hnew, -, hdecrypt, hwritten⟩ := decrypt_ok Crates.checksummed_exact.toInverts x
    (s := ⟨[.data x.bytes], ⟨[], []⟩, []⟩) hwhole hwriter
  rw [hcontent] at hdecrypt hwritten
  obtain ⟨_, _, _, _, data, _, -, hdata, -, hmore⟩ :=
    accepted_prefix_free hstart hwhole hnew hdecrypt
  obtain ⟨t, ht, hwritten'⟩ := hmore [0] (by simp) _ _ (hreader [0]) hwriter
  refine ⟨x.bytes, d, s₁, s₂, t, hnew, hdecrypt, hwritten, ht, ?_⟩
  rw [hwritten', ← hdata, hwritten]
  rfl

end StreamDecryptor

end Ironlock
