import Ironlock.Asked
import Ironlock.Decoding

/-! What hostile input can make the decryptor do: how often and how hard it
derives a key, how large its buffers are, and how long its loop runs. -/

namespace Ironlock
open ByteOrder
open Effect

variable {C : Crates}

/-! ## Work factors -/

/-- The limits of the work factors. -/
structure KdfParams.WithinLimits (p : KdfParams) : Prop where
  memory : 8 ≤ p.memoryKib.toNat ∧ p.memoryKib.toNat ≤ 131072
  iterations : 1 ≤ p.iterations.toNat ∧ p.iterations.toNat ≤ 6
  parallelism : 1 ≤ p.parallelism.toNat ∧ p.parallelism.toNat ≤ 8
  lanes : 8 * p.parallelism.toNat ≤ p.memoryKib.toNat

theorem checkRange_eq_ok {label unit : String} {lo hi v : UInt32}
    (h : checkRange label unit lo hi v = .ok ()) : lo.toNat ≤ v.toNat ∧ v.toNat ≤ hi.toNat := by
  unfold checkRange at h
  split at h
  · rename_i hrange
    exact ⟨UInt32.le_iff_toNat_le.1 hrange.1, UInt32.le_iff_toNat_le.1 hrange.2⟩
  · cases h

theorem validateKdfParams_eq_ok {p : KdfParams} (h : validateKdfParams p = .ok ()) :
    p.WithinLimits := by
  unfold validateKdfParams at h
  rcases hmemory : checkRange "Argon2 memory cost" " KiB" minArgon2MemoryKib maxArgon2MemoryKib
      p.memoryKib with _ | _ <;> rw [hmemory] at h <;> [cases h; skip]
  rcases hiterations : checkRange "Argon2 iterations" "" minArgon2Iterations maxArgon2Iterations
      p.iterations with _ | _ <;> simp only [bind, Except.bind, hiterations] at h <;> [cases h; skip]
  rcases hparallelism : checkRange "Argon2 parallelism" "" minArgon2Parallelism
      maxArgon2Parallelism p.parallelism with _ | _ <;> simp only [hparallelism] at h <;>
    [cases h; skip]
  split at h
  · cases h
  · exact ⟨checkRange_eq_ok hmemory, checkRange_eq_ok hiterations, checkRange_eq_ok hparallelism,
      by omega⟩

/-- The product of the last check is within `u32` wherever it is computed. -/
theorem parallelism_product {p : KdfParams}
    (h : checkRange "Argon2 parallelism" "" minArgon2Parallelism maxArgon2Parallelism p.parallelism =
      .ok ()) : (p.parallelism * 8).toNat = p.parallelism.toNat * 8 := by
  obtain ⟨-, hmax⟩ := checkRange_eq_ok h
  have hmax : p.parallelism.toNat ≤ 8 := hmax
  rw [UInt32.toNat_mul]
  exact Nat.mod_eq_of_lt (by change p.parallelism.toNat * 8 < 2 ^ 32; omega)

/-! ## What is left to read -/

/-- All the bytes a reader has to give. -/
def Reader.bytes (r : Reader) : Bytes := r.flatMap ReadEvent.bytes

/-- Input is only taken from the front. -/
def Consumes (s s' : Streams) : Prop := s'.reader.bytes <:+ s.reader.bytes

instance : IsPreorder Streams Consumes where
  refl _ := List.suffix_refl _
  trans _ _ _ h h' := h'.trans h

theorem Reader.read_bytes {room : Nat} {r r' : Reader} {res : Except IoError Bytes}
    (h : r.read room = (res, r')) : r.bytes = res.toOption.getD [] ++ r'.bytes := by
  match r with
  | [] => cases h; rfl
  | .error e :: r => cases h; rfl
  | .data bytes :: r =>
    simp only [Reader.read] at h
    split_ifs at h <;> cases h
    · rfl
    · simp [Reader.bytes, ReadEvent.bytes, Except.toOption, ← List.append_assoc]

theorem Reader.read_length_le {room : Nat} {r r' : Reader} {b : Bytes}
    (h : r.read room = (.ok b, r')) : b.length ≤ room := by
  match r with
  | [] =>
    cases h
    exact Nat.zero_le room
  | .error e :: r => cases h
  | .data bytes :: r =>
    simp only [Reader.read] at h
    split_ifs at h with hroom <;> cases h
    · exact hroom
    · exact List.length_take_le room bytes

theorem Reader.readExact_bytes {room : Nat} {r r' : Reader} {res : Except IoError Bytes}
    (h : r.readExact room = (res, r')) :
    ∃ taken, r.bytes = taken ++ r'.bytes ∧ ∀ b, res = .ok b → taken = b ∧ b.length = room := by
  fun_induction Reader.readExact room r generalizing res r' with
  | case1 r =>
    cases h
    refine ⟨[], rfl, ?_⟩
    rintro b ⟨⟩
    exact ⟨rfl, rfl⟩
  | case2 room r hpos e r₁ hr hint ih =>
    rw [Reader.read_bytes hr]
    exact ih h
  | case3 room r hpos e r₁ hr =>
    cases h
    exact ⟨[], Reader.read_bytes hr, by simp⟩
  | case4 room r hpos r₁ hr =>
    cases h
    exact ⟨[], Reader.read_bytes hr, by simp⟩
  | case5 room r hpos b r₁ hr hb rest r₂ hrest ih =>
    cases h
    obtain ⟨taken, htaken, hall⟩ := ih hrest
    obtain ⟨rfl, hlen⟩ := hall rest rfl
    have hle := Reader.read_length_le hr
    refine ⟨b ++ taken, ?_, ?_⟩
    · rw [Reader.read_bytes hr, htaken, List.append_assoc]
      rfl
    · rintro _ ⟨⟩
      refine ⟨rfl, ?_⟩
      rw [List.length_append]
      omega
  | case6 room r hpos b r₁ hr hb e r₂ hrest ih =>
    cases h
    obtain ⟨taken, htaken, -⟩ := ih hrest
    refine ⟨b ++ taken, ?_, by simp⟩
    rw [Reader.read_bytes hr, htaken, List.append_assoc]
    rfl

theorem Reader.readToEnd_bytes {limit : Nat} {r r' : Reader} {res : Except IoError Bytes}
    (h : r.readToEnd limit = (res, r')) : r'.bytes <:+ r.bytes := by
  fun_induction Reader.readToEnd limit r generalizing res r' with
  | case1 r =>
    cases h
    exact List.suffix_refl _
  | case2 limit r hpos e r₁ hr hint ih =>
    rw [Reader.read_bytes hr]
    exact ih h
  | case3 limit r hpos e r₁ hr =>
    cases h
    rw [Reader.read_bytes hr]
    exact List.suffix_append ..
  | case4 limit r hpos r₁ hr =>
    cases h
    rw [Reader.read_bytes hr]
    exact List.suffix_append ..
  | case5 limit r hpos b r₁ hr hb rest r₂ hrest ih =>
    cases h
    rw [Reader.read_bytes hr]
    exact (ih hrest).trans (List.suffix_append ..)
  | case6 limit r hpos b r₁ hr hb e r₂ hrest ih =>
    cases h
    rw [Reader.read_bytes hr]
    exact (ih hrest).trans (List.suffix_append ..)

theorem liftCrypto_consumes {α : Type} (m : CryptoM α) : Within Consumes (liftCrypto m) :=
  fun _ => List.suffix_refl _

/-- An exact read that succeeds takes what was asked for. -/
theorem readExactFormat_bytes {room : Nat} {s s' : Streams} {b : Bytes}
    (h : readExactFormat room s = (.ok b, s')) :
    s.reader.bytes = b ++ s'.reader.bytes ∧ b.length = room := by
  unfold readExactFormat liftRead at h
  rcases hr : s.reader.readExact room with ⟨e | c, r'⟩ <;> simp only [hr] at h <;> cases h
  obtain ⟨taken, htaken, hall⟩ := Reader.readExact_bytes hr
  obtain ⟨rfl, hlen⟩ := hall b rfl
  exact ⟨htaken, hlen⟩

theorem readExactFormat_consumes (room : Nat) : Within Consumes (readExactFormat room) := by
  intro s
  unfold Consumes readExactFormat liftRead
  rcases hr : s.reader.readExact room with ⟨e | c, r'⟩ <;> obtain ⟨taken, htaken, -⟩ :=
    Reader.readExact_bytes hr <;> simp only [hr, htaken] <;> exact List.suffix_append ..

theorem decryptRecordBody_consumes (key : Key) (baseNonce : Nonce) (header record : Bytes)
    (sequence maxPlaintext : Nat) :
    Within Consumes (decryptRecordBody C key baseNonce header record sequence maxPlaintext) :=
  .ite (.fail _) <| .bind (liftCrypto_consumes _) fun _ => .bind (readExactFormat_consumes _)
    fun _ => liftCrypto_consumes _

theorem newV2_consumes (password start : Bytes) :
    Within Consumes (StreamDecryptor.newV2 C password start) := by
  refine .bind (readExactFormat_consumes _) fun rest => .ite (.fail _) ?_
  split
  · refine .bind (liftCrypto_consumes _) fun key => .bind ?_ fun metadata => .ite (.fail _) <|
      .ite (.fail _) ?_
    · exact .bind (readExactFormat_consumes _) fun _ => .ite (.fail _) <| .ite (.fail _) <|
        decryptRecordBody_consumes _ _ _ _ _ _
    · split
      · exact .fail _
      · exact .ite (.fail _) (.pure _)
  · exact .fail _

theorem newLegacy_consumes (password start : Bytes) :
    Within Consumes (StreamDecryptor.newLegacy C password start) := by
  refine .bind ?_ fun rest => .ite (.fail _) <| .bind (liftCrypto_consumes _) fun _ => .pure _
  intro s
  unfold Consumes liftRead
  rcases hr : s.reader.readToEnd (maxLegacyFileSize + 1 - start.length) with ⟨e | b, r'⟩ <;>
    simpa only [hr] using Reader.readToEnd_bytes hr

theorem new_consumes (password : Bytes) : Within Consumes (StreamDecryptor.new C password) :=
  .bind (readExactFormat_consumes _) fun _ => .ite (.fail _) <| .ite (newV2_consumes _ _) <|
    .ite (newLegacy_consumes _ _) (.fail _)

/-! ## Derivations and buffers -/

def Work.derivation : Work → Option KdfParams
  | .deriveKey _ _ params => some params
  | _ => none

def Work.allocation : Work → Option Nat
  | .allocate size => some size
  | _ => none

/-- The work factors of the key derivations among the calls. -/
def derivations (calls : List Work) : List KdfParams := calls.filterMap Work.derivation

/-- The sizes of the buffers among the calls. -/
def allocations (calls : List Work) : List Nat := calls.filterMap Work.allocation

/-- No key is derived, and every buffer is of a size in `P`. -/
def Buffers (P : Nat → Prop) (w : Work) : Prop :=
  w.derivation = none ∧ ∀ n, w.allocation = some n → P n

/-- At most `n` keys are derived, within the limits of the work factors, and
every buffer is of a size in `P`. -/
def Derives (n : Nat) (P : Nat → Prop) (s s' : Streams) : Prop :=
  ∃ calls, s'.work = s.work ++ calls ∧ (derivations calls).length ≤ n ∧
    (∀ p ∈ derivations calls, p.WithinLimits) ∧ ∀ size ∈ allocations calls, P size

section
variable {P : Nat → Prop} {s s₁ s' : Streams}

theorem Derives.of_buffers (h : OnlyAsks (Buffers P) s s') : Derives 0 P s s' := by
  obtain ⟨calls, hwork, hcalls⟩ := h
  have hnone : derivations calls = [] := List.filterMap_eq_nil_iff.2 fun w hw => (hcalls w hw).1
  refine ⟨calls, hwork, by rw [hnone]; exact le_refl _, by simp [hnone], ?_⟩
  intro n hn
  obtain ⟨w, hw, hsize⟩ := List.mem_filterMap.1 hn
  exact (hcalls w hw).2 n hsize

theorem Derives.trans {m n : Nat} (h : Derives m P s s₁) (h' : Derives n P s₁ s') :
    Derives (m + n) P s s' := by
  obtain ⟨calls, hwork, hcount, hlimits, hsizes⟩ := h
  obtain ⟨calls', hwork', hcount', hlimits', hsizes'⟩ := h'
  refine ⟨calls ++ calls', by rw [hwork', hwork, List.append_assoc], ?_, ?_, ?_⟩
  · rw [derivations, List.filterMap_append, List.length_append]
    exact Nat.add_le_add hcount hcount'
  · intro p hp
    rw [derivations, List.filterMap_append] at hp
    exact (List.mem_append.1 hp).elim (hlimits p) (hlimits' p)
  · intro size hsize
    rw [allocations, List.filterMap_append] at hsize
    exact (List.mem_append.1 hsize).elim (hsizes size) (hsizes' size)

theorem Derives.mono {m n : Nat} {Q : Nat → Prop} (h : Derives m P s s') (hmn : m ≤ n)
    (hPQ : ∀ size, P size → Q size) : Derives n Q s s' := by
  obtain ⟨calls, hwork, hcount, hlimits, hsizes⟩ := h
  exact ⟨calls, hwork, le_trans hcount hmn, hlimits, fun size h => hPQ size (hsizes size h)⟩

/-- Two parts derive no more than both may. -/
theorem Derives.bind {α β : Type} {m n : Nat} {x : StreamM α} {f : α → StreamM β}
    (hx : Within (Derives m P) x) (hf : ∀ a, Within (Derives n P) (f a)) :
    Within (Derives (m + n) P) (x >>= f) := by
  intro s
  rcases h : x s with ⟨e | a, t⟩
  · rw [Eff.bind_error h]
    exact (hx.run h).mono (Nat.le_add_right m n) fun _ => id
  · rw [Eff.bind_ok h]
    exact (hx.run h).trans (hf a t)

theorem deriveKey_derives (password salt : Bytes) (params : KdfParams) :
    Within (Derives 1 P) (liftCrypto (deriveKeyFromPassword C password salt params)) := by
  intro s
  obtain ⟨hwork, -⟩ | ⟨hvalid, hwork⟩ := deriveKey_cases (liftCrypto_run (s := s) rfl)
  · exact (Derives.of_buffers (.of_work hwork)).mono (Nat.zero_le 1) fun _ => id
  · refine ⟨[.deriveKey password salt params], hwork, le_refl 1, ?_, by simp [allocations, Work.allocation]⟩
    intro p hp
    obtain rfl : p = params := by simpa [derivations, Work.derivation] using hp
    exact validateKdfParams_eq_ok hvalid

/-- The body of a record takes one buffer, of the size the limit allows. -/
theorem decryptRecordBody_buffers (key : Key) (baseNonce : Nonce) (header record : Bytes)
    (sequence maxPlaintext : Nat) :
    Within (OnlyAsks (Buffers fun n => tagSize ≤ n ∧ n ≤ maxPlaintext + tagSize))
      (decryptRecordBody C key baseNonce header record sequence maxPlaintext) := by
  refine decryptRecordBody_asks (fun n hmin hmax => ⟨rfl, ?_⟩) fun _ _ _ => ⟨rfl, nofun⟩
  rintro m ⟨⟩
  exact ⟨hmin, hmax⟩

theorem readRecord_buffers (key : Key) (baseNonce : Nonce) (header : Bytes) (sequence : Nat)
    (expectedType : Option UInt8) (maxPlaintext : Nat) :
    Within (OnlyAsks (Buffers fun n => tagSize ≤ n ∧ n ≤ maxPlaintext + tagSize))
      (readRecord C key baseNonce header sequence expectedType maxPlaintext) :=
  .bind (liftRead_asks _) fun _ => .ite (.fail _) <| .ite (.fail _) <|
    decryptRecordBody_buffers _ _ _ _ _ _

theorem Derives.none {α : Type} {x : StreamM α} (h : Within (OnlyAsks (Buffers P)) x) :
    Within (Derives 0 P) x := fun s => .of_buffers (h s)

theorem Derives.idle {α : Type} (e : IronlockError) :
    Within (Derives 1 P) (Eff.fail e : StreamM α) :=
  fun _ => (Derives.of_buffers (.of_work rfl)).mono (Nat.zero_le 1) fun _ => id

theorem liftCrypto_bind {α β : Type} (m : CryptoM α) (f : α → CryptoM β) :
    liftCrypto (m >>= f) = liftCrypto m >>= fun a => liftCrypto (f a) := by
  funext s
  rcases hm : m s.work with ⟨e | a, log⟩
  · have h : liftCrypto m s = (.error e, { s with work := log }) := by simp only [liftCrypto, hm]
    rw [Eff.bind_error h, liftCrypto, Eff.bind_error hm]
  · rw [Eff.bind_ok (liftCrypto_ok hm), liftCrypto, Eff.bind_ok hm]
    rfl

theorem newV2_derives (password start : Bytes) :
    Within (Derives 1 fun n => tagSize ≤ n ∧ n ≤ maxFilenameBytes + 2 + tagSize)
      (StreamDecryptor.newV2 C password start) := by
  refine Derives.bind (n := 1) (.none (liftRead_asks _)) fun rest => .ite (.idle _) ?_
  split
  · refine Derives.bind (n := 0) (deriveKey_derives _ _ _) fun key => .none ?_
    refine .bind (readRecord_buffers _ _ _ _ _ _) fun metadata => .ite (.fail _) <|
      .ite (.fail _) ?_
    split
    · exact .fail _
    · exact .ite (.fail _) (.pure _)
  · exact .idle _

theorem decryptFile_derives (password data : Bytes) :
    Within (Derives 1 P) (liftCrypto (decryptFile C password data)) := by
  have idle {e : IronlockError} :
      Within (Derives 1 P) (liftCrypto (Eff.fail e : CryptoM (Str × Bytes))) :=
    fun s => (Derives.of_buffers (.of_work rfl)).mono (Nat.zero_le 1) fun _ => id
  unfold decryptFile
  split_ifs
  · exact idle
  · exact idle
  · exact idle
  simp only
  split_ifs
  · exact idle
  split
  · rw [liftCrypto_bind]
    refine Derives.bind (n := 0) (deriveKey_derives _ _ _) fun key => ?_
    rw [liftCrypto_bind]
    exact .none (.bind (decrypt_asks ⟨rfl, nofun⟩) fun _ _ => .of_work rfl)
  · exact idle

theorem newLegacy_derives (password start : Bytes) :
    Within (Derives 1 P) (StreamDecryptor.newLegacy C password start) := by
  refine Derives.bind (n := 1) (.none (liftRead_asks _)) fun rest => .ite (.idle _) ?_
  exact Derives.bind (n := 0) (decryptFile_derives _ _) fun _ => .none (.pure _)

theorem new_derives (password : Bytes) :
    Within (Derives 1 fun n => tagSize ≤ n ∧ n ≤ maxFilenameBytes + 2 + tagSize)
      (StreamDecryptor.new C password) := by
  exact Derives.bind (n := 1) (.none (liftRead_asks _)) fun start => .ite (.idle _) <|
    .ite (newV2_derives _ _) <| .ite (newLegacy_derives _ _) (.idle _)

end

/-! ## The turns of the decrypt loop -/

/-- One turn of the decrypt loop: where it started, what the attempt to read a
record gave and where that left the streams. -/
structure Turn where
  state : V2State
  totalPlaintext : Nat
  chunkCount : Nat
  start : Streams
  read : Except IronlockError (UInt8 × Bytes × V2State)
  stop : Streams

/-- The turns a run of the decrypt loop takes, and how it ends. -/
inductive Turns (C : Crates) : V2State → Nat → Nat → Streams → List Turn →
    Except IronlockError Nat × Streams → Prop
  | failed {state total count s s₁ e} : readNextRecord C state s = (.error e, s₁) →
      Turns C state total count s [⟨state, total, count, s, .error e, s₁⟩] (.error e, s₁)
  | refused {state total count s p state₁ s₁ e s₂} :
      readNextRecord C state s = (.ok (recordData, p, state₁), s₁) →
      acceptData p total count s₁ = (.error e, s₂) →
      Turns C state total count s [⟨state, total, count, s, .ok (recordData, p, state₁), s₁⟩]
        (.error e, s₂)
  | data {state total count s p state₁ s₁ total' count' s₂ turns out} :
      readNextRecord C state s = (.ok (recordData, p, state₁), s₁) →
      acceptData p total count s₁ = (.ok (total', count'), s₂) →
      Turns C state₁ total' count' s₂ turns out →
      Turns C state total count s (⟨state, total, count, s, .ok (recordData, p, state₁), s₁⟩ :: turns)
        out
  | final {state total count s p state₁ s₁} :
      readNextRecord C state s = (.ok (recordFinal, p, state₁), s₁) →
      Turns C state total count s [⟨state, total, count, s, .ok (recordFinal, p, state₁), s₁⟩]
        (acceptFinal p total count s₁)

/-- What every turn of the loop keeps to. -/
structure Turn.Bounded (C : Crates) (chunkSize : Nat) (t : Turn) : Prop where
  run : readNextRecord C t.state t.start = (t.read, t.stop)
  chunkSize_eq : t.state.chunkSize = chunkSize
  /-- the counters are `u64`s -/
  counters : t.state.nextSequence < 2 ^ 64 ∧ t.totalPlaintext < 2 ^ 64 ∧ t.chunkCount < 2 ^ 64
  /-- a buffer is of a size that the type of the record allows -/
  buffers : ∃ calls, t.stop.work = t.start.work ++ calls ∧ derivations calls = [] ∧
    ∀ n ∈ allocations calls, ∃ record u,
      readExactFormat recordHeaderSize t.start = (.ok record, u) ∧ tagSize ≤ n ∧
      (record.headD 0 = recordData ∧ n ≤ chunkSize + tagSize ∨
        record.headD 0 = recordFinal ∧ n ≤ finalPlaintextSize + tagSize)
  /-- a record that was read has used up a head and a tag at least -/
  consumes : ∀ x, t.read = .ok x → ∃ taken, t.start.reader.bytes = taken ++ t.stop.reader.bytes ∧
    recordHeaderSize + tagSize ≤ taken.length

section
variable {state state₁ : V2State} {kind : UInt8} {p : Bytes} {s s₁ : Streams}

theorem readNextRecord_buffers {res : Except IronlockError (UInt8 × Bytes × V2State)}
    (h : readNextRecord C state s = (res, s₁)) :
    OnlyAsks (Buffers fun n => ∃ record u, readExactFormat recordHeaderSize s = (.ok record, u) ∧
      tagSize ≤ n ∧ (record.headD 0 = recordData ∧ n ≤ state.chunkSize + tagSize ∨
        record.headD 0 = recordFinal ∧ n ≤ finalPlaintextSize + tagSize)) s s₁ := by
  unfold readNextRecord at h
  rcases hread : readExactFormat recordHeaderSize s with ⟨e | record, u⟩
  · rw [Eff.bind_error hread] at h
    cases h
    exact (liftRead_asks _).run hread
  rw [Eff.bind_ok hread] at h
  refine trans_of (OnlyAsks _) ((liftRead_asks _).run hread) ?_
  by_cases hseq : ofBe (slice record 1 9) ≠ state.nextSequence
  · simp only [hseq, ne_eq, not_false_eq_true, if_true] at h
    cases h
    exact refl_of (OnlyAsks _) _
  simp only [hseq, if_false] at h
  by_cases hkind : record.headD 0 ≠ recordData ∧ record.headD 0 ≠ recordFinal
  · rw [if_pos hkind] at h
    cases h
    exact refl_of (OnlyAsks _) _
  rw [if_neg hkind] at h
  refine Within.run (.bind (R := OnlyAsks _) ?_ fun _ => .bind (.ofExcept _) fun _ => .pure _) h
  intro v
  refine (decryptRecordBody_buffers _ _ _ _ _ _ v).mono ?_
  rintro w ⟨hderive, hsize⟩
  refine ⟨hderive, fun n hn => ?_⟩
  obtain ⟨hmin, hmax⟩ := hsize n hn
  refine ⟨record, u, rfl, hmin, ?_⟩
  by_cases hdata : record.headD 0 = recordData
  · rw [if_pos hdata] at hmax
    exact .inl ⟨hdata, hmax⟩
  · rw [if_neg hdata] at hmax
    exact .inr ⟨by_contra fun hfinal => hkind ⟨hdata, hfinal⟩, hmax⟩

/-- A body that was decrypted was a tag long at least. -/
theorem decryptRecordBody_takes {key : Key} {baseNonce : Nonce} {header record : Bytes}
    {sequence maxPlaintext : Nat}
    (h : decryptRecordBody C key baseNonce header record sequence maxPlaintext s = (.ok p, s₁)) :
    ∃ c, s.reader.bytes = c ++ s₁.reader.bytes ∧ tagSize ≤ c.length := by
  unfold decryptRecordBody at h
  by_cases hlim : ofBe (slice record 9 13) < tagSize ∨
      maxPlaintext < ofBe (slice record 9 13) - tagSize
  · simp only [hlim, if_true] at h
    cases h
  simp only [hlim, if_false] at h
  have h := (Eff.bind_ok (allocate_run _ s) _).symm.trans h
  obtain ⟨c, u, hread, hopen⟩ := Eff.bind_eq_ok.1 h
  obtain ⟨htaken, hlen⟩ := readExactFormat_bytes hread
  obtain ⟨-, hs₁⟩ := liftCrypto_eq_ok.1 hopen
  refine ⟨c, ?_, by omega⟩
  rw [hs₁]
  exact htaken

/-- A record that was read is a data record or a final record, the next in
number, and its head and its tag at least were there. -/
theorem readNextRecord_takes (h : readNextRecord C state s = (.ok (kind, p, state₁), s₁)) :
    (kind = recordData ∨ kind = recordFinal) ∧ state.nextSequence + 1 < 2 ^ 64 ∧
      state₁ = { state with nextSequence := state.nextSequence + 1 } ∧
      ∃ taken, s.reader.bytes = taken ++ s₁.reader.bytes ∧
        recordHeaderSize + tagSize ≤ taken.length := by
  obtain ⟨record, u, hread, h⟩ := Eff.bind_eq_ok.1 h
  obtain ⟨hhead, hlen⟩ := readExactFormat_bytes hread
  by_cases hseq : ofBe (slice record 1 9) ≠ state.nextSequence
  · simp only [hseq, ne_eq, not_false_eq_true, if_true] at h
    cases h
  simp only [hseq, if_false] at h
  by_cases hkind : record.headD 0 ≠ recordData ∧ record.headD 0 ≠ recordFinal
  · rw [if_pos hkind] at h
    cases h
  rw [if_neg hkind] at h
  obtain ⟨p', v, hbody, h⟩ := Eff.bind_eq_ok.1 h
  obtain ⟨next, w, hnext, h⟩ := Eff.bind_eq_ok.1 h
  rw [Eff.ofExcept_apply, Prod.mk.injEq, checkedAdd_eq_ok] at hnext
  obtain ⟨⟨hlt, rfl⟩, rfl⟩ := hnext
  obtain ⟨c, hc, htag⟩ := decryptRecordBody_takes hbody
  cases h
  refine ⟨?_, hlt, rfl, record ++ c, ?_, ?_⟩
  · by_cases hdata : record.headD 0 = recordData
    · exact .inl hdata
    · exact .inr (by_contra fun hfinal => hkind ⟨hdata, hfinal⟩)
  · rw [hhead, hc, List.append_assoc]
  · rw [List.length_append]
    omega

end

/-- The counters stay within `u64`. -/
theorem acceptData_counts {total count total' count' : Nat} {p : Bytes} {s s' : Streams}
    (h : acceptData p total count s = (.ok (total', count'), s')) :
    total' < 2 ^ 64 ∧ count' < 2 ^ 64 ∧ s'.reader = s.reader := by
  obtain ⟨-, hsum, -, -, hreader⟩ := acceptData_eq_ok h
  unfold acceptData at h
  split_ifs at h
  · cases h
  simp only [Eff.bind_eq_ok, Eff.ofExcept_apply, Prod.mk.injEq, checkedAdd_eq_ok] at h
  obtain ⟨_, _, -, _, _, ⟨⟨-, rfl⟩, rfl⟩, _, _, ⟨⟨hcount, rfl⟩, rfl⟩, h⟩ := h
  cases h
  exact ⟨hsum, hcount, hreader⟩

/-- Every run of the loop is a run of turns. -/
theorem decryptChunks_turns (state : V2State) (total count : Nat) (s : Streams) :
    ∃ turns, Turns C state total count s turns (decryptChunks C state total count s) := by
  fun_induction decryptChunks C state total count s with
  | case1 state total count s e s₁ hread => exact ⟨_, .failed hread⟩
  | case2 state total count s p state₁ s₁ e s₂ haccept hread => exact ⟨_, .refused hread haccept⟩
  | case3 state total count s p state₁ s₁ t n s₂ haccept hread ih =>
    obtain ⟨turns, hturns⟩ := ih
    exact ⟨_, .data hread haccept hturns⟩
  | case4 state total count s p state₁ s₁ hread hne => exact ⟨_, .final hread⟩
  | case5 state total count s kind p state₁ s₁ hread hdata hfinal =>
    obtain ⟨hkind, -⟩ := readNextRecord_takes hread
    rcases hkind with rfl | rfl
    · exact absurd rfl hdata
    · exact absurd rfl hfinal

theorem Turn.bounded {state : V2State} {total count chunkSize : Nat} {s s₁ : Streams}
    {res : Except IronlockError (UInt8 × Bytes × V2State)}
    (hread : readNextRecord C state s = (res, s₁)) (hsize : state.chunkSize = chunkSize)
    (hcounters : state.nextSequence < 2 ^ 64 ∧ total < 2 ^ 64 ∧ count < 2 ^ 64) :
    Turn.Bounded C chunkSize ⟨state, total, count, s, res, s₁⟩ := by
  subst hsize
  obtain ⟨calls, hwork, hcalls⟩ := readNextRecord_buffers hread
  refine ⟨hread, rfl, hcounters, ⟨calls, hwork, ?_, ?_⟩, ?_⟩
  · exact List.filterMap_eq_nil_iff.2 fun w hw => (hcalls w hw).1
  · intro n hn
    obtain ⟨w, hw, hn⟩ := List.mem_filterMap.1 hn
    exact (hcalls w hw).2 n hn
  · rintro ⟨kind, p, state₁⟩ hok
    obtain rfl : res = .ok (kind, p, state₁) := hok
    exact (readNextRecord_takes hread).2.2.2

/-- Every turn keeps to its bounds, and there are no more turns than records
the input has room for, and one. -/
theorem Turns.bounded {state : V2State} {total count : Nat} {s : Streams} {turns : List Turn}
    {out : Except IronlockError Nat × Streams} (h : Turns C state total count s turns out)
    (hcounters : state.nextSequence < 2 ^ 64 ∧ total < 2 ^ 64 ∧ count < 2 ^ 64) :
    (∀ t ∈ turns, t.Bounded C state.chunkSize) ∧
      (recordHeaderSize + tagSize) * turns.length ≤
        s.reader.bytes.length + (recordHeaderSize + tagSize) := by
  have single {t : Turn} {n : Nat} {P : Turn → Prop} (ht : P t) :
      (∀ t' ∈ [t], P t') ∧ (recordHeaderSize + tagSize) * [t].length ≤
        n + (recordHeaderSize + tagSize) :=
    ⟨by simpa using ht, by rw [List.length_singleton]; omega⟩
  induction h with
  | failed hread => exact single (Turn.bounded hread rfl hcounters)
  | refused hread haccept => exact single (Turn.bounded hread rfl hcounters)
  | data hread haccept hturns ih =>
    obtain ⟨-, hnext, rfl, taken, htaken, hlen⟩ := readNextRecord_takes hread
    obtain ⟨htotal, hcount, hreader⟩ := acceptData_counts haccept
    obtain ⟨hrest, hfew⟩ := ih ⟨hnext, htotal, hcount⟩
    refine ⟨?_, ?_⟩
    · intro t ht
      rcases List.mem_cons.1 ht with rfl | ht
      · exact Turn.bounded hread rfl hcounters
      · exact hrest t ht
    · rw [hreader] at hfew
      rw [htaken, List.length_cons, List.length_append, Nat.mul_succ]
      omega
  | final hread => exact single (Turn.bounded hread rfl hcounters)

theorem decryptChunks_buffers {state : V2State} {total count : Nat} {s s' : Streams}
    {r : Except IronlockError Nat} (hsize : state.chunkSize ≤ maxChunkSize)
    (h : decryptChunks C state total count s = (r, s')) :
    OnlyAsks (Buffers fun n => tagSize ≤ n ∧ n ≤ maxChunkSize + tagSize) s s' := by
  have read {state : V2State} {s s₁ : Streams}
      {res : Except IronlockError (UInt8 × Bytes × V2State)} (hsize : state.chunkSize ≤ maxChunkSize)
      (hread : readNextRecord C state s = (res, s₁)) :
      OnlyAsks (Buffers fun n => tagSize ≤ n ∧ n ≤ maxChunkSize + tagSize) s s₁ := by
    refine (readNextRecord_buffers hread).mono ?_
    rintro w ⟨hderive, hbuffer⟩
    refine ⟨hderive, fun n hn => ?_⟩
    obtain ⟨_, _, -, hmin, ⟨-, hmax⟩ | ⟨-, hmax⟩⟩ := hbuffer n hn
    · exact ⟨hmin, by omega⟩
    · exact ⟨hmin, le_trans hmax (by decide)⟩
  fun_induction decryptChunks C state total count s with
  | case1 state total count s e s₁ hread =>
    cases h
    exact read hsize hread
  | case2 state total count s p state₁ s₁ e s₂ haccept hread =>
    cases h
    exact trans_of (OnlyAsks _) (read hsize hread) ((acceptData_asks _ _ _).run haccept)
  | case3 state total count s p state₁ s₁ t n s₂ haccept hread ih =>
    obtain ⟨-, -, rfl, -⟩ := readNextRecord_takes hread
    exact trans_of (OnlyAsks _) (read hsize hread)
      (trans_of (OnlyAsks _) ((acceptData_asks _ _ _).run haccept) (ih hsize h))
  | case4 state total count s p state₁ s₁ hread hne =>
    exact trans_of (OnlyAsks _) (read hsize hread) ((acceptFinal_asks _ _ _).run h)
  | case5 state total count s kind p state₁ s₁ hread hdata hfinal =>
    cases h
    exact read hsize hread

/-- The chunk size a decryptor keeps is the one its header declares, and it is
within the limits of the format. -/
theorem new_state {password : Bytes} {s s₁ : Streams} {d : StreamDecryptor} {state : V2State}
    (h : StreamDecryptor.new C password s = (.ok d, s₁)) (hmode : d.mode = .v2 state) :
    1024 ≤ state.chunkSize ∧ state.chunkSize ≤ maxChunkSize ∧
      state.chunkSize = (parseU32At state.header 21).toNat ∧ state.nextSequence = 1 := by
  unfold StreamDecryptor.new at h
  obtain ⟨start, t, -, h⟩ := Eff.bind_eq_ok.1 h
  split_ifs at h
  · cases h
  · unfold StreamDecryptor.newV2 at h
    obtain ⟨rest, u, -, h⟩ := Eff.bind_eq_ok.1 h
    simp only at h
    by_cases hrange : (parseU32At (start ++ rest) 21).toNat < 1024 ∨
        maxChunkSize < (parseU32At (start ++ rest) 21).toNat
    · rw [if_pos hrange] at h
      cases h
    rw [if_neg hrange] at h
    generalize Block.ofBytes? saltLength _ = salt?, Block.ofBytes? nonceLength _ = nonce? at h
    match salt?, nonce?, h with
    | some salt, some baseNonce, h =>
      obtain ⟨key, v, -, h⟩ := Eff.bind_eq_ok.1 h
      obtain ⟨metadata, w, -, h⟩ := Eff.bind_eq_ok.1 h
      by_cases hshort : metadata.length < 2
      · rw [if_pos hshort] at h
        cases h
      rw [if_neg hshort] at h
      by_cases hname : metadata.length ≠ ofBe (slice metadata 0 2) + 2
      · rw [if_pos hname] at h
        cases h
      rw [if_neg hname] at h
      cases hutf : Str.ofBytes? (metadata.drop 2) with
      | none =>
        rw [hutf] at h
        cases h
      | some filename =>
        simp only [hutf] at h
        by_cases hempty : filename.bytes = []
        · rw [if_pos hempty] at h
          cases h
        rw [if_neg hempty] at h
        cases h
        cases hmode
        exact ⟨Nat.le_of_not_lt fun h => hrange (.inl h), Nat.le_of_not_lt fun h => hrange (.inr h),
          rfl, rfl⟩
  · unfold StreamDecryptor.newLegacy at h
    obtain ⟨rest, u, -, h⟩ := Eff.bind_eq_ok.1 h
    split_ifs at h
    · cases h
    · obtain ⟨⟨filename, plaintext⟩, v, -, h⟩ := Eff.bind_eq_ok.1 h
      cases h
      cases hmode
  · cases h

/-- Whatever is fed to the decryptor, it derives one key at most, with work
factors within the limits, and takes no buffer that the format does not allow.
Making the decryptor takes no more than a metadata record does; the loop's turns
keep to their bounds, and there are no more of them than a 29th of the input and
one. The checks themselves do not overflow. -/
theorem work_bounded {C : Crates} {password : Bytes} {s s' : Streams}
    {r : Except IronlockError Nat}
    (h : (StreamDecryptor.new C password >>= StreamDecryptor.decryptTo C) s = (r, s')) :
    Derives 1 (fun n => 16 ≤ n ∧ n ≤ 1048592) s s' ∧
    (∃ res s₁, StreamDecryptor.new C password s = (res, s₁) ∧
      Derives 1 (fun n => 16 ≤ n ∧ n ≤ 65537 + 16) s s₁ ∧
      ∀ d state, res = .ok d → d.mode = .v2 state →
        1024 ≤ state.chunkSize ∧ state.chunkSize ≤ 1048576 ∧
        state.chunkSize = (parseU32At state.header 21).toNat ∧
        ∃ turns, Turns C state 0 0 s₁ turns (r, s') ∧
          (∀ t ∈ turns, t.Bounded C state.chunkSize) ∧
          turns.length ≤ s.reader.bytes.length / 29 + 1) ∧
    (∀ p : KdfParams, checkRange "Argon2 parallelism" "" minArgon2Parallelism maxArgon2Parallelism
      p.parallelism = .ok () → (p.parallelism * 8).toNat = p.parallelism.toNat * 8) ∧
    ∀ data, 23 + ofBe (slice data 21 23) + saltLength + nonceLength + 16 < 2 ^ 32 := by
  rcases hnew : StreamDecryptor.new C password s with ⟨res, s₁⟩
  have hmade : Derives 1 (fun n => tagSize ≤ n ∧ n ≤ maxFilenameBytes + 2 + tagSize) s s₁ :=
    (new_derives password).run hnew
  refine ⟨?_, ⟨res, s₁, rfl, hmade, ?_⟩, fun p => parallelism_product, ?_⟩
  · rcases res with e | d
    · rw [Eff.bind_error hnew] at h
      cases h
      exact hmade.mono (le_refl 1) fun n hn => ⟨hn.1, le_trans hn.2 (by decide)⟩
    rw [Eff.bind_ok hnew] at h
    have hmade := hmade.mono (le_refl 1) fun n hn =>
      (⟨hn.1, le_trans hn.2 (by decide)⟩ : 16 ≤ n ∧ n ≤ 1048592)
    refine hmade.trans (n := 0) (.of_buffers ?_)
    unfold StreamDecryptor.decryptTo at h
    cases hmode : d.mode with
    | legacy plaintext =>
      rw [hmode] at h
      exact Within.run (.bind (writeAll_asks _) fun _ => .pure _) h
    | v2 state =>
      rw [hmode] at h
      exact decryptChunks_buffers (new_state hnew hmode).2.1 h
  · rintro d state rfl hmode
    obtain ⟨hmin, hmax, hdeclared, hfirst⟩ := new_state hnew hmode
    rw [Eff.bind_ok hnew, StreamDecryptor.decryptTo, hmode] at h
    obtain ⟨turns, hturns⟩ := decryptChunks_turns (C := C) state 0 0 s₁
    obtain ⟨hbounded, hfew⟩ := hturns.bounded (by rw [hfirst]; decide)
    have h : decryptChunks C state 0 0 s₁ = (r, s') := h
    rw [h] at hturns
    refine ⟨hmin, hmax, hdeclared, turns, hturns, hbounded, ?_⟩
    have hless : s₁.reader.bytes.length ≤ s.reader.bytes.length :=
      ((new_consumes password).run hnew).length_le
    have h29 : recordHeaderSize + tagSize = 29 := rfl
    rw [h29] at hfew
    omega
  · intro data
    have hlt := ofBe_lt (slice data 21 23)
    have hle : (slice data 21 23).length ≤ 2 := by
      simp only [slice, List.length_drop, List.length_take]
      omega
    have hpow : 256 ^ (slice data 21 23).length ≤ 256 ^ 2 := Nat.pow_le_pow_right (by decide) hle
    simp only [saltLength, nonceLength]
    omega

/-- A header whose first record promises four gigabytes buys one key
derivation and no buffer. -/
theorem work_bounded_promise :
    let start : Streams := ⟨[.data (streamHeader .current 65536 (.zero 16) (.zero 12) ++
      recordHead recordMetadata 0 (2 ^ 32 - 1))], ⟨[], []⟩, []⟩
    let run := (StreamDecryptor.new .checksummed [112, 119] >>= StreamDecryptor.decryptTo .checksummed) start
    Derives 1 (fun n => 16 ≤ n ∧ n ≤ 1048592) start run.2 ∧
      run.2.work = [.deriveKey [112, 119] (List.replicate 16 0) .current] := by
  intro start run
  exact ⟨(work_bounded (rfl : run = (run.1, run.2))).1, by decide +kernel⟩

end Ironlock
