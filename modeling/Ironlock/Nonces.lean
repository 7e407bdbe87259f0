import Ironlock.Encoding
import Ironlock.Asked

/-! The nonces of a file: what an encryption has sealed and written by the time
it ends, in success or in failure. -/

namespace Ironlock
open ByteOrder
open Effect

variable {C : Crates}

/-! ## The derivation -/

theorem zipWith_xor_injective {a b c : Bytes} (hb : b.length = a.length) (hc : c.length = a.length)
    (h : List.zipWith (· ^^^ ·) a b = List.zipWith (· ^^^ ·) a c) : b = c := by
  induction a generalizing b c with
  | nil => rw [List.length_eq_zero_iff.1 hb, List.length_eq_zero_iff.1 hc]
  | cons x a ih =>
    obtain ⟨y, b, rfl⟩ := List.exists_cons_of_length_eq_add_one hb
    obtain ⟨z, c, rfl⟩ := List.exists_cons_of_length_eq_add_one hc
    simp only [List.zipWith_cons_cons, List.cons.injEq, UInt8.xor_right_inj] at h
    rw [h.1, ih (by simpa using hb) (by simpa using hc) h.2]

/-- Two sequence numbers of 64 bits give two nonces. -/
theorem deriveRecordNonce_injective {baseNonce : Nonce} {i j : Nat} (hi : i < 2 ^ 64)
    (hj : j < 2 ^ 64) (h : deriveRecordNonce baseNonce i = deriveRecordNonce baseNonce j) :
    i = j := by
  have hbytes := List.append_cancel_left (congrArg Block.bytes h)
  have hroom : (baseNonce.bytes.drop 4).length = 8 := by
    rw [List.length_drop, baseNonce.length_eq]
    rfl
  have hseq : toBe 8 i = toBe 8 j :=
    zipWith_xor_injective (by rw [hroom, length_toBe]) (by rw [hroom, length_toBe]) hbytes
  exact toBe_inj (by omega) (by omega) hseq

theorem nonces_nodup (baseNonce : Nonce) {n : Nat} (hn : n ≤ 2 ^ 64) :
    ((List.range n).map (deriveRecordNonce baseNonce)).Nodup := by
  apply List.Nodup.map_on _ List.nodup_range
  intro i hi j hj h
  rw [List.mem_range] at hi hj
  exact deriveRecordNonce_injective (by omega) (by omega) h

/-- Only no records are sealed in nothing. -/
theorem Sealed.nil_of_nil {key : Key} {baseNonce : Nonce} {header b : Bytes} {sequence : Nat}
    {rs : List Record} (h : Sealed C key baseNonce header sequence rs b) (hb : b = []) : rs = [] := by
  cases h with
  | nil => rfl
  | @cons _ r _ c body _ _ =>
    have hlen := congrArg List.length hb
    rw [List.length_append, List.length_append, Record.length_head] at hlen
    cases (Nat.add_eq_zero_iff.1 (Nat.add_eq_zero_iff.1 hlen).1).1

/-! ## What a call is bound to -/

/-- What a ciphertext is sealed and opened under. -/
structure Binding where
  key : Key
  nonce : Nonce
  aad : Bytes
  deriving DecidableEq

def Work.sealing : Work → Option Binding
  | .encrypt key nonce _ aad _ => some ⟨key, nonce, aad⟩
  | _ => none

def Work.opening : Work → Option Binding
  | .decrypt key nonce _ aad => some ⟨key, nonce, aad⟩
  | _ => none

/-- What the encryptions among the calls are bound to, in their order. -/
def sealings (calls : List Work) : List Binding := calls.filterMap Work.sealing

/-- What the decryptions among the calls are bound to, in their order. -/
def openings (calls : List Work) : List Binding := calls.filterMap Work.opening

@[simp] theorem openings_append (calls more : List Work) :
    openings (calls ++ more) = openings calls ++ openings more := List.filterMap_append

/-- What the records are bound to, numbered from `sequence` on. -/
def bindings (key : Key) (baseNonce : Nonce) (header : Bytes) : Nat → List Record → List Binding
  | _, [] => []
  | sequence, r :: rs =>
    ⟨key, deriveRecordNonce baseNonce sequence, header ++ r.head sequence⟩ ::
      bindings key baseNonce header (sequence + 1) rs

section
variable {key : Key} {baseNonce : Nonce} {header : Bytes}

theorem sealings_sealCalls (sequence : Nat) (rs : List Record) :
    sealings (sealCalls C key baseNonce header sequence rs) =
      bindings key baseNonce header sequence rs := by
  induction rs generalizing sequence with
  | nil => rfl
  | cons r rs ih => exact congrArg _ (ih (sequence + 1))

theorem bindings_append (sequence : Nat) (rs rs' : List Record) :
    bindings key baseNonce header sequence (rs ++ rs') =
      bindings key baseNonce header sequence rs ++
        bindings key baseNonce header (sequence + rs.length) rs' := by
  induction rs generalizing sequence with
  | nil => rfl
  | cons r rs ih => simp [bindings, ih, Nat.add_assoc, Nat.add_comm 1]

@[simp] theorem length_bindings (sequence : Nat) (rs : List Record) :
    (bindings key baseNonce header sequence rs).length = rs.length := by
  induction rs generalizing sequence with
  | nil => rfl
  | cons r rs ih => simp [bindings, ih]

theorem bindings_getElem? {sequence i : Nat} {rs : List Record} {b : Binding}
    (h : (bindings key baseNonce header sequence rs)[i]? = some b) :
    b.key = key ∧ b.nonce = deriveRecordNonce baseNonce (sequence + i) := by
  induction rs generalizing sequence i with
  | nil => simp [bindings] at h
  | cons r rs ih =>
    cases i with
    | zero =>
      simp only [bindings, List.getElem?_cons_zero, Option.some.injEq] at h
      subst h
      exact ⟨rfl, rfl⟩
    | succ i =>
      obtain ⟨hkey, hnonce⟩ := ih h
      exact ⟨hkey, by rw [hnonce, Nat.add_right_comm, Nat.add_assoc]⟩

theorem bindings_nonces (sequence : Nat) (rs : List Record) :
    (bindings key baseNonce header sequence rs).map Binding.nonce =
      (List.range' sequence rs.length).map (deriveRecordNonce baseNonce) := by
  induction rs generalizing sequence with
  | nil => rfl
  | cons r rs ih =>
    rw [bindings, List.map_cons, ih, List.length_cons, List.range'_succ, List.map_cons]

/-- The key is the only part of a binding that is not in the file. -/
theorem bindings_public (key key' : Key) (sequence : Nat) (rs : List Record) :
    (bindings key baseNonce header sequence rs).map (fun b => (b.nonce, b.aad)) =
      (bindings key' baseNonce header sequence rs).map fun b => (b.nonce, b.aad) := by
  induction rs generalizing sequence with
  | nil => rfl
  | cons r rs ih => simp only [bindings, List.map_cons, ih]

end

/-! ## How far an encryption has come -/

section
variable (C) (key : Key) (baseNonce : Nonce) (header : Bytes)

/-- The records have been sealed and written whole. -/
def Done (sequence : Nat) (rs : List Record) (s s' : Streams) : Prop :=
  ∃ body, Sealed C key baseNonce header sequence rs body ∧
    (∀ r ∈ rs, r.plaintext.length + tagSize < 2 ^ 32) ∧
    s'.writer.written = s.writer.written ++ body ∧
    s'.work = s.work ++ sealCalls C key baseNonce header sequence rs

/-- Records have been asked to be sealed. Those whose sealing succeeded are
`rs`, and no more than these has been written. -/
def Stopped (sequence : Nat) (s s' : Streams) : Prop :=
  ∃ rs more body written, Sealed C key baseNonce header sequence rs body ∧
    (∀ r ∈ rs, r.plaintext.length + tagSize < 2 ^ 32) ∧
    sequence + (rs ++ more).length ≤ 2 ^ 64 ∧ written <+: body ∧
    s'.writer.written = s.writer.written ++ written ∧
    s'.work = s.work ++ sealCalls C key baseNonce header sequence (rs ++ more)

end

section
variable {key : Key} {baseNonce : Nonce} {header : Bytes} {sequence : Nat} {s s₁ s' : Streams}

theorem Stopped.idle (hseq : sequence ≤ 2 ^ 64) (hwriter : s'.writer = s.writer)
    (hwork : s'.work = s.work) : Stopped C key baseNonce header sequence s s' :=
  ⟨[], [], [], [], .nil _, by simp, hseq, List.nil_prefix, by simp [hwriter],
    by simp [hwork, sealCalls]⟩

theorem Done.nil (hwriter : s'.writer = s.writer) (hwork : s'.work = s.work) :
    Done C key baseNonce header sequence [] s s' :=
  ⟨[], .nil _, by simp, by simp [hwriter], by simp [hwork, sealCalls]⟩

theorem Done.append {rs rs' : List Record} (h : Done C key baseNonce header sequence rs s s₁)
    (h' : Done C key baseNonce header (sequence + rs.length) rs' s₁ s') :
    Done C key baseNonce header sequence (rs ++ rs') s s' := by
  obtain ⟨body, hsealed, hsmall, hwritten, hwork⟩ := h
  obtain ⟨body', hsealed', hsmall', hwritten', hwork'⟩ := h'
  refine ⟨body ++ body', hsealed.append hsealed', ?_, ?_, ?_⟩
  · intro r hr
    rcases List.mem_append.1 hr with hr | hr
    · exact hsmall r hr
    · exact hsmall' r hr
  · rw [hwritten', hwritten, List.append_assoc]
  · rw [hwork', hwork, sealCalls_append, List.append_assoc]

theorem Done.stopped {rs : List Record} (h : Done C key baseNonce header sequence rs s s₁)
    (h' : Stopped C key baseNonce header (sequence + rs.length) s₁ s') :
    Stopped C key baseNonce header sequence s s' := by
  obtain ⟨body, hsealed, hsmall, hwritten, hwork⟩ := h
  obtain ⟨rs', more, body', written, hsealed', hsmall', hlen, hpre, hwritten', hwork'⟩ := h'
  refine ⟨rs ++ rs', more, body ++ body', body ++ written, hsealed.append hsealed', ?_, ?_, ?_,
    ?_, ?_⟩
  · intro r hr
    rcases List.mem_append.1 hr with hr | hr
    · exact hsmall r hr
    · exact hsmall' r hr
  · simp only [List.length_append] at hlen ⊢
    omega
  · exact (List.prefix_append_right_inj body).2 hpre
  · rw [hwritten', hwritten, List.append_assoc]
  · rw [hwork', hwork, List.append_assoc rs, sealCalls_append sequence rs, List.append_assoc]

theorem encrypt_error {nonce : Nonce} {plaintext aad : Bytes} {e : String}
    (h : C.aeadEncrypt key nonce plaintext aad = .error e) :
    liftCrypto (encrypt C key nonce plaintext aad) s =
      (.error (.encryptionFailed [.text "Encryption failed: ", .text e]),
        { s with work := s.work ++ [.encrypt key nonce plaintext aad (.error e)] }) := by
  unfold liftCrypto encrypt
  rw [h]
  rfl

theorem writeAll_written (buf : Bytes) {r : Except IronlockError Unit}
    (h : writeAll buf s = (r, s')) :
    ∃ written, written <+: buf ∧ (r = .ok () → written = buf) ∧
      s'.writer.written = s.writer.written ++ written ∧ s'.work = s.work := by
  obtain ⟨more, hmore, hpre, hall⟩ := Writer.writeAll_portions buf s.writer
  unfold writeAll at h
  rcases hw : s.writer.writeAll buf with ⟨e | u, w⟩ <;> rw [hw] at h hmore hall <;>
    simp only at hmore <;> cases h
  · exact ⟨_, hpre, nofun, by simp [Writer.written, hmore], rfl⟩
  · exact ⟨_, hpre, fun _ => hall rfl, by simp [Writer.written, hmore], rfl⟩

/-- Two writes leave a prefix of what both would. -/
theorem writeAll_both (a b : Bytes) {r : Except IronlockError Unit}
    (h : (writeAll a >>= fun _ => writeAll b) s = (r, s')) :
    ∃ written, written <+: a ++ b ∧ (r = .ok () → written = a ++ b) ∧
      s'.writer.written = s.writer.written ++ written ∧ s'.work = s.work := by
  rcases ha : writeAll a s with ⟨e | u, s₁⟩
  · rw [Eff.bind_error ha] at h
    cases h
    obtain ⟨written, hpre, -, hwritten, hwork⟩ := writeAll_written a ha
    exact ⟨written, hpre.trans (List.prefix_append a b), nofun, hwritten, hwork⟩
  · rw [Eff.bind_ok ha] at h
    obtain ⟨first, -, hall, hfirst, hwork⟩ := writeAll_written a ha
    obtain ⟨second, hpre, hall', hsecond, hwork'⟩ := writeAll_written b h
    obtain rfl := hall rfl
    refine ⟨first ++ second, (List.prefix_append_right_inj first).2 hpre, ?_, ?_, ?_⟩
    · intro hr
      rw [hall' hr]
    · rw [hsecond, hfirst, List.append_assoc]
    · rw [hwork', hwork]

/-- A record is refused before the cipher is called, or the cipher refuses it, or
it is sealed and as much of it written as the writer takes. -/
theorem writeRecord_cases {kind : UInt8} {plaintext : Bytes} {r : Except IronlockError Unit}
    (h : writeRecord C key baseNonce header kind sequence plaintext s = (r, s')) :
    (s' = s ∧ ∃ e, r = .error e) ∨
    plaintext.length + tagSize < 2 ^ 32 ∧
      s'.work = s.work ++ sealCalls C key baseNonce header sequence [⟨kind, plaintext⟩] ∧
      ((s'.writer = s.writer ∧ ∃ e, r = .error e) ∨
        ∃ c written, Record.encrypted C key baseNonce header ⟨kind, plaintext⟩ sequence = .ok c ∧
          written <+: Record.head ⟨kind, plaintext⟩ sequence ++ c ∧
          s'.writer.written = s.writer.written ++ written ∧
          (r = .ok () → written = Record.head ⟨kind, plaintext⟩ sequence ++ c)) := by
  unfold writeRecord at h
  by_cases hadd : plaintext.length + tagSize < 2 ^ 64
  case neg =>
    rw [checkedAdd, if_neg hadd] at h
    cases h
    exact .inl ⟨rfl, _, rfl⟩
  rw [checkedAdd_eq_ok.2 ⟨hadd, rfl⟩, Eff.bind_ok (Eff.ofExcept_apply _ s)] at h
  by_cases hsmall : plaintext.length + tagSize < 2 ^ 32
  case neg =>
    rw [recordHeader, if_neg hsmall] at h
    cases h
    exact .inl ⟨rfl, _, rfl⟩
  rw [recordHeader_of_lt _ _ hsmall, Eff.bind_ok (Eff.ofExcept_apply _ s)] at h
  refine .inr ⟨hsmall, ?_⟩
  cases hc : Record.encrypted C key baseNonce header ⟨kind, plaintext⟩ sequence with
  | error e =>
    have h := (Eff.bind_error (encrypt_error hc) _).symm.trans h
    cases h
    exact ⟨by rw [sealCalls, hc]; rfl, .inl ⟨rfl, _, rfl⟩⟩
  | ok c =>
    have h := (Eff.bind_ok (liftCrypto_ok (encrypt_eq_ok.2 ⟨hc, rfl⟩)) _).symm.trans h
    obtain ⟨written, hpre, hall, hwritten, hwork⟩ := writeAll_both _ _ h
    exact ⟨by rw [hwork, sealCalls, hc]; rfl, .inr ⟨c, written, rfl, hpre, hwritten, hall⟩⟩

theorem writeRecord_done {kind : UInt8} {plaintext : Bytes}
    (h : writeRecord C key baseNonce header kind sequence plaintext s = (.ok (), s')) :
    Done C key baseNonce header sequence [⟨kind, plaintext⟩] s s' := by
  obtain ⟨body, hsealed, -, hwritten, hwork⟩ := writeRecord_eq_ok h
  refine ⟨body, hsealed, ?_, hwritten, hwork⟩
  intro r hr
  rw [List.mem_singleton.1 hr]
  obtain ⟨-, _, hfail⟩ | ⟨hsmall, -⟩ := writeRecord_cases h
  · cases hfail
  · exact hsmall

theorem writeRecord_stopped {kind : UInt8} {plaintext : Bytes} {r : Except IronlockError Unit}
    (hseq : sequence < 2 ^ 64)
    (h : writeRecord C key baseNonce header kind sequence plaintext s = (r, s')) :
    Stopped C key baseNonce header sequence s s' := by
  obtain ⟨rfl, -⟩ | ⟨hsmall, hwork, hwrote⟩ := writeRecord_cases h
  · exact .idle (by omega) rfl rfl
  · obtain ⟨hwriter, -⟩ | ⟨c, written, hc, hpre, hwritten, -⟩ := hwrote
    · exact ⟨[], [⟨kind, plaintext⟩], [], [], .nil _, by simp, hseq, List.nil_prefix,
        by simp [hwriter], hwork⟩
    · refine ⟨[⟨kind, plaintext⟩], [], _, written, .cons hc (.nil _), ?_, hseq, ?_, hwritten,
        hwork⟩
      · simpa using hsmall
      · rwa [List.append_nil]

/-- The chunk loop numbers its records from `sequence` on, and the number it
hands on is the next. -/
theorem encryptChunks_done {total count : Nat} {totals : Nat × Nat × Nat}
    (hseq : sequence < 2 ^ 64)
    (h : encryptChunks C key baseNonce header total count sequence s = (.ok totals, s')) :
    ∃ rs, Done C key baseNonce header sequence rs s s' ∧ totals.2.2 = sequence + rs.length ∧
      totals.2.2 < 2 ^ 64 := by
  fun_induction encryptChunks C key baseNonce header total count sequence s with
  | case1 => cases h
  | case2 total count sequence s reader hfill =>
    cases h
    exact ⟨[], .nil rfl rfl, rfl, hseq⟩
  | case3 => cases h
  | case4 => cases h
  | case5 total count sequence s chunk reader hfill hchunk s₁ hwrite t n q hcount hshort =>
    cases h
    obtain ⟨-, hnext, heq⟩ := countChunk_eq_ok hcount
    cases heq
    exact ⟨_, writeRecord_done (s := { s with reader }) hwrite, rfl, hnext⟩
  | case6 total count sequence s chunk reader hfill hchunk s₁ hwrite t n q hcount hfull ih =>
    obtain ⟨-, hnext, heq⟩ := countChunk_eq_ok hcount
    cases heq
    obtain ⟨rs, hdone, htotals, hlt⟩ := ih hnext h
    refine ⟨⟨recordData, chunk⟩ :: rs, ?_, ?_, hlt⟩
    · have hfirst := writeRecord_done (s := { s with reader }) hwrite
      exact hfirst.append hdone
    · rw [htotals, List.length_cons]
      omega

theorem encryptChunks_stopped {total count : Nat} {r : Except IronlockError (Nat × Nat × Nat)}
    (hseq : sequence < 2 ^ 64)
    (h : encryptChunks C key baseNonce header total count sequence s = (r, s')) :
    Stopped C key baseNonce header sequence s s' := by
  fun_induction encryptChunks C key baseNonce header total count sequence s with
  | case1 total count sequence s e reader hfill =>
    cases h
    exact .idle (by omega) rfl rfl
  | case2 total count sequence s reader hfill =>
    cases h
    exact .idle (by omega) rfl rfl
  | case3 total count sequence s chunk reader hfill hchunk e s₁ hwrite =>
    cases h
    exact writeRecord_stopped (s := { s with reader }) hseq hwrite
  | case4 total count sequence s chunk reader hfill hchunk s₁ hwrite e hcount =>
    cases h
    exact writeRecord_stopped (s := { s with reader }) hseq hwrite
  | case5 total count sequence s chunk reader hfill hchunk s₁ hwrite t n q hcount hshort =>
    cases h
    exact writeRecord_stopped (s := { s with reader }) hseq hwrite
  | case6 total count sequence s chunk reader hfill hchunk s₁ hwrite t n q hcount hfull ih =>
    obtain ⟨-, hnext, heq⟩ := countChunk_eq_ok hcount
    cases heq
    exact (writeRecord_done (s := { s with reader }) hwrite).stopped (ih hnext h)

end

/-- What an encryption has done when it ends, whole or not: the records it has
sealed are numbered from 0, and what it has written is a prefix of the stream
that those sealed with success make. -/
def Halted (C : Crates) (salt : Salt) (baseNonce : Nonce) (password : Bytes) (params : KdfParams)
    (s s' : Streams) (whole : Prop) : Prop :=
  let header := streamHeader params defaultChunkSize salt baseNonce
  ∃ key rs more body calls written,
    (∀ k, C.hashPasswordInto params password salt.bytes = .ok k → k = key) ∧
    Sealed C key baseNonce header 0 rs body ∧
    (∀ r ∈ rs, r.plaintext.length + tagSize < 2 ^ 32) ∧ (rs ++ more).length ≤ 2 ^ 64 ∧
    s'.writer.written = s.writer.written ++ written ∧ written <+: header ++ body ∧
    s'.work = s.work ++ calls ∧ sealings calls = bindings key baseNonce header 0 (rs ++ more) ∧
    (whole → more = [] ∧ written = header ++ body)

section
variable {salt : Salt} {baseNonce : Nonce} {password : Bytes} {params : KdfParams} {s s' : Streams}

/-- A run that ends before the first record has sealed nothing. -/
theorem Halted.early (calls : List Work) (written : Bytes) (hcalls : sealings calls = [])
    (hwork : s'.work = s.work ++ calls) (hwritten : s'.writer.written = s.writer.written ++ written)
    (hpre : written <+: streamHeader params defaultChunkSize salt baseNonce) {whole : Prop}
    (hwhole : ¬whole) : Halted C salt baseNonce password params s s' whole := by
  refine ⟨((C.hashPasswordInto params password salt.bytes).toOption).getD (.zero _), [], [], [],
    calls, written, ?_, .nil _, by simp, by simp, hwritten, ?_, hwork, hcalls,
    fun h => absurd h hwhole⟩
  · intro k hk
    rw [hk]
    rfl
  · exact hpre.trans (List.prefix_append _ _)

/-- A run among the records has written the header, and then what they have come to. -/
theorem Halted.among {key : Key} {calls : List Work} {s₁ : Streams} {whole : Prop}
    (hkey : C.hashPasswordInto params password salt.bytes = .ok key)
    (hcalls : sealings calls = []) (hwork : s₁.work = s.work ++ calls)
    (hwritten : s₁.writer.written =
      s.writer.written ++ streamHeader params defaultChunkSize salt baseNonce)
    (hstopped : Stopped C key baseNonce (streamHeader params defaultChunkSize salt baseNonce) 0 s₁ s')
    (hwhole : ¬whole) : Halted C salt baseNonce password params s s' whole := by
  obtain ⟨rs, more, body, written, hsealed, hsmall, hlen, hpre, hw, hc⟩ := hstopped
  refine ⟨key, rs, more, body, calls ++ sealCalls C key baseNonce
    (streamHeader params defaultChunkSize salt baseNonce) 0 (rs ++ more), _, ?_, hsealed, hsmall,
    by omega, ?_, (List.prefix_append_right_inj _).2 hpre, ?_, ?_, fun h => absurd h hwhole⟩
  · intro k hk
    exact Except.ok.inj (hk.symm.trans hkey)
  · rw [hw, hwritten, List.append_assoc]
  · rw [hc, hwork, List.append_assoc]
  · rw [sealings, List.filterMap_append]
    exact (congrArg (· ++ _) hcalls).trans (sealings_sealCalls 0 _)

/-- A run that wrote every record wrote a whole stream. -/
theorem Halted.done {key : Key} {calls : List Work} {rs : List Record} {s₁ : Streams} {whole : Prop}
    (hkey : C.hashPasswordInto params password salt.bytes = .ok key)
    (hcalls : sealings calls = []) (hwork : s₁.work = s.work ++ calls)
    (hwritten : s₁.writer.written =
      s.writer.written ++ streamHeader params defaultChunkSize salt baseNonce)
    (hdone : Done C key baseNonce (streamHeader params defaultChunkSize salt baseNonce) 0 rs s₁ s')
    (hlen : rs.length ≤ 2 ^ 64) : Halted C salt baseNonce password params s s' whole := by
  obtain ⟨body, hsealed, hsmall, hw, hc⟩ := hdone
  refine ⟨key, rs, [], body, calls ++ sealCalls C key baseNonce
    (streamHeader params defaultChunkSize salt baseNonce) 0 (rs ++ []), _, ?_, hsealed, hsmall,
    by rwa [List.append_nil], ?_, List.prefix_refl _, ?_, ?_, fun _ => ⟨rfl, rfl⟩⟩
  · intro k hk
    exact Except.ok.inj (hk.symm.trans hkey)
  · rw [hw, hwritten, List.append_assoc]
  · rw [hc, hwork, List.append_nil, List.append_assoc]
  · rw [sealings, List.filterMap_append]
    exact (congrArg (· ++ _) hcalls).trans (sealings_sealCalls 0 _)

theorem encryptStream_halted {filename : Str} {r : Except IronlockError Nat}
    (h : encryptStreamWithParams C salt baseNonce password filename params s = (r, s')) :
    Halted C salt baseNonce password params s s' (∃ m, r = .ok m) := by
  unfold encryptStreamWithParams at h
  by_cases hname : filename.bytes = []
  · simp only [hname, if_true] at h
    cases h
    exact .early [] [] rfl (by simp) (by simp) List.nil_prefix nofun
  simp only [hname, if_false] at h
  by_cases hlong : maxFilenameBytes < filename.bytes.length
  · simp only [hlong, if_true] at h
    cases h
    exact .early [] [] rfl (by simp) (by simp) List.nil_prefix nofun
  simp only [hlong, if_false] at h
  rcases hkey : liftCrypto (deriveKeyFromPassword C password salt.bytes params) s with ⟨e | key, s₁⟩
  · rw [Eff.bind_error hkey] at h
    cases h
    have hwriter : s'.writer = s.writer := (liftCrypto_writer _).run hkey
    obtain hwork | ⟨-, hwork⟩ := deriveKey_cases (liftCrypto_run hkey)
    · exact .early [] [] rfl (by simp [hwork.1]) (by simp [hwriter])
        List.nil_prefix nofun
    · exact .early [_] [] rfl hwork (by simp [hwriter]) List.nil_prefix nofun
  rw [Eff.bind_ok hkey] at h
  obtain ⟨hderived, hs₁⟩ := liftCrypto_eq_ok.1 hkey
  obtain ⟨-, -, hderived, hwork₁⟩ := deriveKey_eq_ok.1 hderived
  rcases hheader : writeAll (streamHeader params defaultChunkSize salt baseNonce) s₁ with ⟨e | u, s₂⟩
  · rw [Eff.bind_error hheader] at h
    cases h
    obtain ⟨written, hpre, -, hwritten, hwork⟩ := writeAll_written _ hheader
    rw [hs₁] at hwritten
    exact .early [.deriveKey password salt.bytes params] written rfl (hwork.trans hwork₁) hwritten
      hpre nofun
  rw [Eff.bind_ok hheader] at h
  obtain ⟨hwritten₂, hs₂⟩ := writeAll_eq_ok hheader
  have hwork₂ : s₂.work = s.work ++ [.deriveKey password salt.bytes params] := by rw [hs₂, hwork₁]
  rw [hs₁] at hwritten₂
  have among {whole : Prop} (hstopped : Stopped C key baseNonce
      (streamHeader params defaultChunkSize salt baseNonce) 0 s₂ s') (hwhole : ¬whole) :
      Halted C salt baseNonce password params s s' whole :=
    .among hderived rfl hwork₂ hwritten₂ hstopped hwhole
  rcases hmeta : writeRecord C key baseNonce (streamHeader params defaultChunkSize salt baseNonce)
      recordMetadata 0 (toBe 2 filename.bytes.length ++ filename.bytes) s₂ with ⟨e | u, s₃⟩
  · rw [Eff.bind_error hmeta] at h
    cases h
    exact among (writeRecord_stopped (by decide) hmeta) nofun
  rw [Eff.bind_ok hmeta] at h
  have hdone₃ := writeRecord_done hmeta
  rcases hchunks : encryptChunks C key baseNonce (streamHeader params defaultChunkSize salt baseNonce)
      0 0 1 s₃ with ⟨e | ⟨total, count, sequence⟩, s₄⟩
  · rw [Eff.bind_error hchunks] at h
    cases h
    exact among (hdone₃.stopped (encryptChunks_stopped (by simp) hchunks)) nofun
  rw [Eff.bind_ok hchunks] at h
  obtain ⟨rs, hdone₄, hnext, hlt⟩ := encryptChunks_done (by decide) hchunks
  obtain rfl : sequence = 1 + rs.length := hnext
  rcases hfinal : writeRecord C key baseNonce (streamHeader params defaultChunkSize salt baseNonce)
      recordFinal (1 + rs.length) (toBe 8 total ++ toBe 8 count) s₄ with ⟨e | u, s₅⟩
  · rw [Eff.bind_error hfinal] at h
    cases h
    exact among (hdone₃.stopped (hdone₄.stopped (writeRecord_stopped hlt hfinal))) nofun
  rw [Eff.bind_ok hfinal] at h
  cases h
  refine .done hderived rfl hwork₂ hwritten₂ (hdone₃.append (hdone₄.append (writeRecord_done hfinal))) ?_
  simp only [List.length_append, List.length_singleton] at hlt ⊢
  omega

end

end Ironlock
