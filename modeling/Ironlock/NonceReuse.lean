import Ironlock.Nonces
import Ironlock.Decoding

/-! The decryptor opens each record under what it was sealed under, and no
nonce is used twice in a file. -/

namespace Ironlock
open ByteOrder
open Effect

variable {C : Crates}

/-- A ciphertext is its plaintext and a tag. -/
def Crates.Tagged (C : Crates) : Prop := ∀ key nonce p aad c,
  C.aeadEncrypt key nonce p aad = .ok c → c.length = p.length + tagSize

/-- No decryption is asked for. -/
abbrev NothingOpened : Streams → Streams → Prop := OnlyAsks fun w => w.opening = none

theorem NothingOpened.openings {s s' : Streams} (h : NothingOpened s s') :
    ∃ calls, s'.work = s.work ++ calls ∧ openings calls = [] := by
  obtain ⟨calls, hwork, hnone⟩ := h
  exact ⟨calls, hwork, List.filterMap_eq_nil_iff.2 hnone⟩

theorem deriveKey_opens (password salt : Bytes) (params : KdfParams) :
    Within NothingOpened (liftCrypto (deriveKeyFromPassword C password salt params)) :=
  deriveKey_asks fun _ => rfl

section
variable (C) (sealer opener : Key) (baseNonce : Nonce) (header : Bytes)

/-- The first of the records was read whole and opened; `b'` is left to read of `b`. -/
structure OpenedFirst (sequence : Nat) (r : Record) (b b' : Bytes) (s s' : Streams) : Prop where
  read : ∃ c, r.encrypted C sealer baseNonce header sequence = .ok c ∧ b = r.head sequence ++ c ++ b'
  delivers : s'.reader.Delivers b'
  opened : ∃ calls, s'.work = s.work ++ calls ∧
    openings calls = [⟨opener, deriveRecordNonce baseNonce sequence, header ++ r.head sequence⟩]

/-- What the records are bound to was opened, in order and as far as the run
came; if it came to an end that is `whole`, all of `b` is records it opened. -/
def Opened (sequence : Nat) (rs : List Record) (b : Bytes) (s s' : Streams) (whole : Prop) : Prop :=
  ∃ rs' calls, rs' <+: rs ∧ s'.work = s.work ++ calls ∧
    openings calls = bindings opener baseNonce header sequence rs' ∧
    (whole → Sealed C sealer baseNonce header sequence rs' b)

end

section
variable {sealer opener : Key} {baseNonce : Nonce} {header : Bytes} {sequence : Nat}
  {r : Record} {rs : List Record} {b b' : Bytes} {s s₁ s' : Streams} {whole : Prop}

theorem Opened.nothing (h : NothingOpened s s') (hwhole : ¬whole) :
    Opened C sealer opener baseNonce header sequence rs b s s' whole := by
  obtain ⟨calls, hwork, hcalls⟩ := NothingOpened.openings h
  exact ⟨[], calls, List.nil_prefix, hwork, hcalls, fun h => absurd h hwhole⟩

theorem Opened.mono {whole' : Prop} (hwhole : whole' → whole)
    (h : Opened C sealer opener baseNonce header sequence rs b s s' whole) :
    Opened C sealer opener baseNonce header sequence rs b s s' whole' := by
  obtain ⟨rs', calls, hpre, hwork, hcalls, hsealed⟩ := h
  exact ⟨rs', calls, hpre, hwork, hcalls, fun h => hsealed (hwhole h)⟩

theorem Opened.after (h' : Opened C sealer opener baseNonce header sequence rs b s₁ s' whole)
    (h : NothingOpened s s₁) : Opened C sealer opener baseNonce header sequence rs b s s' whole := by
  obtain ⟨calls, hwork, hcalls⟩ := NothingOpened.openings h
  obtain ⟨rs', calls', hpre, hwork', hcalls', hsealed⟩ := h'
  refine ⟨rs', calls ++ calls', hpre, ?_, ?_, hsealed⟩
  · rw [hwork', hwork, List.append_assoc]
  · rw [openings_append, hcalls, hcalls']
    rfl

theorem OpenedFirst.after (h' : OpenedFirst C sealer opener baseNonce header sequence r b b' s₁ s')
    (h : NothingOpened s s₁) :
    OpenedFirst C sealer opener baseNonce header sequence r b b' s s' := by
  obtain ⟨calls, hwork, hcalls⟩ := NothingOpened.openings h
  obtain ⟨calls', hwork', hcalls'⟩ := h'.opened
  refine ⟨h'.read, h'.delivers, calls ++ calls', ?_, ?_⟩
  · rw [hwork', hwork, List.append_assoc]
  · rw [openings_append, hcalls, hcalls']
    rfl

theorem OpenedFirst.cons
    (h : OpenedFirst C sealer opener baseNonce header sequence r b b' s s₁)
    (h' : Opened C sealer opener baseNonce header (sequence + 1) rs b' s₁ s' whole) :
    Opened C sealer opener baseNonce header sequence (r :: rs) b s s' whole := by
  obtain ⟨c, hc, rfl⟩ := h.read
  obtain ⟨calls, hwork, hcalls⟩ := h.opened
  obtain ⟨rs', calls', hpre, hwork', hcalls', hsealed⟩ := h'
  refine ⟨r :: rs', calls ++ calls', ?_, ?_, ?_, fun hwhole => .cons hc (hsealed hwhole)⟩
  · exact (List.prefix_cons_inj r).2 hpre
  · rw [hwork', hwork, List.append_assoc]
  · rw [openings_append, hcalls, hcalls']
    rfl

/-- Reading a cut-off `x ++ y` for as long as `x` is gives `x`. -/
theorem readExactFormat_cut {x y got : Bytes} (hs : s.reader.Delivers b) (hb : b <+: x ++ y)
    (h : readExactFormat x.length s = (.ok got, s')) :
    got = x ∧ ∃ rest, b = x ++ rest ∧ rest <+: y ∧ s'.reader.Delivers rest ∧ s'.work = s.work := by
  obtain ⟨rest, rfl, hlen, hrest, hs'⟩ := readExactFormat_eq_ok hs h
  obtain ⟨tail, htail⟩ := hb
  rw [List.append_assoc] at htail
  obtain ⟨rfl, hy⟩ := List.append_inj htail hlen
  exact ⟨rfl, rest, rfl, ⟨tail, hy⟩, hrest, by rw [hs']⟩

/-- The body of a sealed record is opened under what the record was sealed
under, unless the run fails before. -/
theorem decryptRecordBody_opened {c rest : Bytes} {maxPlaintext : Nat}
    {res : Except IronlockError Bytes} (hsmall : r.plaintext.length + tagSize < 2 ^ 32)
    (hseq : sequence < 2 ^ 64) (hc : c.length = r.plaintext.length + tagSize)
    (hs : s.reader.Delivers b) (hb : b <+: c ++ rest)
    (h : decryptRecordBody C opener baseNonce header (r.head sequence) sequence maxPlaintext s =
      (res, s')) :
    (NothingOpened s s' ∧ ∃ e, res = .error e) ∨
      ∃ b' calls, b = c ++ b' ∧ b' <+: rest ∧ s'.reader.Delivers b' ∧ s'.work = s.work ++ calls ∧
        openings calls = [⟨opener, deriveRecordNonce baseNonce sequence, header ++ r.head sequence⟩] := by
  have hfield : ofBe (slice (r.head sequence) 9 13) = c.length := by
    rw [Record.head, (recordHead_fields r.kind hseq hsmall).2.2, hc]
  unfold decryptRecordBody at h
  simp only [hfield] at h
  by_cases hlim : c.length < tagSize ∨ maxPlaintext < c.length - tagSize
  · rw [if_pos hlim] at h
    cases h
    exact .inl ⟨refl_of NothingOpened s, _, rfl⟩
  rw [if_neg hlim] at h
  have hrest := (Eff.bind_ok (allocate_run c.length s) _).symm.trans h
  rcases hread : readExactFormat c.length { s with work := s.work ++ [.allocate c.length] }
    with ⟨e | got, s₁⟩
  · have hfail := (Eff.bind_error hread _).symm.trans hrest
    cases hfail
    have hnothing : NothingOpened _ _ := (liftRead_asks _).run hread
    exact .inl ⟨trans_of NothingOpened (.call (w := .allocate c.length) rfl rfl) hnothing, _, rfl⟩
  · have hopen := (Eff.bind_ok hread _).symm.trans hrest
    obtain ⟨rfl, b', rfl, hb', hdelivers, hwork⟩ := readExactFormat_cut
      (s := { s with work := s.work ++ [.allocate c.length] }) hs hb hread
    have hs' : s' = { s₁ with work := s₁.work ++ [.decrypt opener _ got _] } :=
      (congrArg Prod.snd hopen).symm.trans (decrypt_calls ..)
    refine .inr ⟨b', [.allocate got.length, .decrypt opener _ got _], rfl, hb', ?_, ?_, rfl⟩
    · rw [hs']
      exact hdelivers
    · rw [hs']
      simp [hwork, recordAad]

/-- What comes first of a cut-off sequence of sealed records: nothing that can
be read as a head, or the head of the first. -/
theorem readHead_opened {body : Bytes} {res : Except IronlockError Bytes}
    (hsealed : Sealed C sealer baseNonce header sequence rs body) (hb : b <+: body)
    (hs : s.reader.Delivers b) (h : readExactFormat recordHeaderSize s = (res, s₁)) :
    (NothingOpened s s₁ ∧ ∃ e, res = .error e) ∨
      ∃ r rs' c body' b', rs = r :: rs' ∧ r.encrypted C sealer baseNonce header sequence = .ok c ∧
        Sealed C sealer baseNonce header (sequence + 1) rs' body' ∧ res = .ok (r.head sequence) ∧
        b = r.head sequence ++ b' ∧ b' <+: c ++ body' ∧ s₁.reader.Delivers b' ∧ s₁.work = s.work := by
  rcases res with e | got
  · exact .inl ⟨(liftRead_asks _).run h, e, rfl⟩
  cases rs with
  | nil =>
    cases hsealed
    obtain ⟨rest, hrest, hlen, -⟩ := readExactFormat_eq_ok hs h
    rw [List.prefix_nil.1 hb, eq_comm, List.append_eq_nil_iff] at hrest
    rw [hrest.1] at hlen
    cases hlen
  | cons r rs =>
    obtain ⟨c, body', rfl, hc, hsealed⟩ := hsealed.cons_inv
    rw [List.append_assoc] at hb
    rw [← r.length_head sequence] at h
    obtain ⟨rfl, b', rfl, hb', hdelivers, hwork⟩ := readExactFormat_cut hs hb h
    exact .inr ⟨r, rs, c, body', b', rfl, hc, hsealed, rfl, rfl, hb', hdelivers, hwork⟩

/-- The next record the loop takes is the next that was sealed, opened under
what it was sealed under, unless the run fails. -/
theorem readNextRecord_opened (hlen : C.Tagged) {state : V2State} {body : Bytes}
    {res : Except IronlockError (UInt8 × Bytes × V2State)}
    (hsealed : Sealed C sealer state.baseNonce state.header state.nextSequence rs body)
    (hsmall : ∀ r ∈ rs, r.plaintext.length + tagSize < 2 ^ 32)
    (hcount : state.nextSequence + rs.length ≤ 2 ^ 64) (hb : b <+: body)
    (hs : s.reader.Delivers b) (h : readNextRecord C state s = (res, s₁)) :
    (Opened C sealer state.key state.baseNonce state.header state.nextSequence rs b s s₁ False ∧
      ∃ e, res = .error e) ∨
    ∃ r rs' body' b' kind p, rs = r :: rs' ∧
      res = .ok (kind, p, { state with nextSequence := state.nextSequence + 1 }) ∧
      Sealed C sealer state.baseNonce state.header (state.nextSequence + 1) rs' body' ∧
      b' <+: body' ∧
      OpenedFirst C sealer state.key state.baseNonce state.header state.nextSequence r b b' s s₁ := by
  unfold readNextRecord at h
  rcases hread : readExactFormat recordHeaderSize s with ⟨e | record, t⟩
  · rw [Eff.bind_error hread] at h
    cases h
    obtain ⟨hnothing, -⟩ | ⟨_, _, _, _, _, -, -, -, hfail, -⟩ := readHead_opened hsealed hb hs hread
    · exact .inl ⟨.nothing hnothing id, _, rfl⟩
    · cases hfail
  rw [Eff.bind_ok hread] at h
  obtain ⟨-, _, hfail⟩ | ⟨r, rs', c, body', b₁, rfl, hc, hsealed', hhead, rfl, hb₁, hdelivers, hwork⟩ :=
    readHead_opened hsealed hb hs hread
  · cases hfail
  cases hhead
  have hr := hsmall r List.mem_cons_self
  have hlt : state.nextSequence < 2 ^ 64 := by
    rw [List.length_cons] at hcount
    omega
  have failed (e : IronlockError) (hfail : res = .error e) (hnothing : NothingOpened t s₁) :
      Opened C sealer state.key state.baseNonce state.header state.nextSequence (r :: rs')
        (r.head state.nextSequence ++ b₁) s s₁ False ∧ ∃ e, res = .error e :=
    ⟨.nothing (trans_of NothingOpened (.of_work hwork) hnothing) id, e, hfail⟩
  have hfield : ofBe (slice (r.head state.nextSequence) 1 9) = state.nextSequence :=
    (recordHead_fields r.kind hlt hr).2.1
  simp only [hfield, ne_eq, not_true_eq_false, if_false] at h
  by_cases hkind : ¬(r.head state.nextSequence).headD 0 = recordData ∧
      ¬(r.head state.nextSequence).headD 0 = recordFinal
  · rw [if_pos hkind] at h
    cases h
    exact .inl (failed _ rfl (refl_of NothingOpened _))
  rw [if_neg hkind] at h
  rcases hbody : decryptRecordBody C state.key state.baseNonce state.header
    (r.head state.nextSequence) state.nextSequence
    (if (r.head state.nextSequence).headD 0 = recordData then state.chunkSize
      else finalPlaintextSize) t with ⟨result, u⟩
  have hclen := hlen _ _ _ _ _ hc
  obtain ⟨hnothing, e, rfl⟩ | ⟨b', calls, rfl, hb', hdelivers', hwork', hcalls⟩ :=
    decryptRecordBody_opened hr hlt hclen hdelivers hb₁ hbody
  · rw [Eff.bind_error hbody] at h
    cases h
    exact .inl (failed _ rfl hnothing)
  have hfirst : OpenedFirst C sealer state.key state.baseNonce state.header state.nextSequence r
      (r.head state.nextSequence ++ (c ++ b')) b' s u :=
    ⟨⟨c, hc, (List.append_assoc ..).symm⟩, hdelivers', calls, by rw [hwork', hwork], hcalls⟩
  have stopped : Opened C sealer state.key state.baseNonce state.header state.nextSequence (r :: rs')
      (r.head state.nextSequence ++ (c ++ b')) s u False :=
    hfirst.cons (.nothing (refl_of NothingOpened u) id)
  rcases result with e | p
  · rw [Eff.bind_error hbody] at h
    cases h
    exact .inl ⟨stopped, _, rfl⟩
  rw [Eff.bind_ok hbody] at h
  by_cases hnext : state.nextSequence + 1 < 2 ^ 64
  · rw [checkedAdd_eq_ok.2 ⟨hnext, rfl⟩] at h
    cases h
    exact .inr ⟨r, rs', body', b', _, p, rfl, rfl, hsealed', hb', hfirst⟩
  · rw [checkedAdd, if_neg hnext] at h
    cases h
    exact .inl ⟨stopped, _, rfl⟩

theorem decryptChunks_opened (hlen : C.Tagged) (state : V2State) {total count : Nat} {body : Bytes}
    {res : Except IronlockError Nat}
    (hsealed : Sealed C sealer state.baseNonce state.header state.nextSequence rs body)
    (hsmall : ∀ r ∈ rs, r.plaintext.length + tagSize < 2 ^ 32)
    (hcount : state.nextSequence + rs.length ≤ 2 ^ 64) (hb : b <+: body)
    (hs : s.reader.Delivers b) (h : decryptChunks C state total count s = (res, s')) :
    Opened C sealer state.key state.baseNonce state.header state.nextSequence rs b s s'
      (∃ m, res = .ok m) := by
  fun_induction decryptChunks C state total count s generalizing rs b body with
  | case1 state total count s e s₁ hread =>
    cases h
    obtain ⟨hopened, -⟩ | ⟨_, _, _, _, _, _, -, hok, -⟩ :=
      readNextRecord_opened hlen hsealed hsmall hcount hb hs hread
    · exact hopened.mono (by simp)
    · cases hok
  | case2 state total count s p state₁ s₁ e s₂ haccept hread =>
    cases h
    obtain ⟨-, _, hfail⟩ | ⟨r, rs', body', b', _, _, rfl, -, -, -, hfirst⟩ :=
      readNextRecord_opened hlen hsealed hsmall hcount hb hs hread
    · cases hfail
    · exact hfirst.cons (.nothing ((acceptData_asks _ _ _).run haccept) (by simp))
  | case3 state total count s p state₁ s₁ t n s₂ haccept hread ih =>
    obtain ⟨-, _, hfail⟩ | ⟨r, rs', body', b', _, _, rfl, hok, hsealed', hb', hfirst⟩ :=
      readNextRecord_opened hlen hsealed hsmall hcount hb hs hread
    · cases hfail
    cases hok
    obtain ⟨-, -, -, -, hreader⟩ := acceptData_eq_ok haccept
    have hrest := ih hsealed' (fun r hr => hsmall r (List.mem_cons_of_mem _ hr))
      (by simp only [List.length_cons] at hcount ⊢; omega) hb' (hreader ▸ hfirst.delivers) h
    exact hfirst.cons (hrest.after ((acceptData_asks _ _ _).run haccept))
  | case4 state total count s p state₁ s₁ hread hne =>
    obtain ⟨-, _, hfail⟩ | ⟨r, rs', body', b', _, _, rfl, hok, hsealed', hb', hfirst⟩ :=
      readNextRecord_opened hlen hsealed hsmall hcount hb hs hread
    · cases hfail
    cases hok
    refine hfirst.cons ?_
    obtain ⟨calls, hwork, hcalls⟩ := NothingOpened.openings ((acceptFinal_asks _ _ _).run h)
    refine ⟨[], calls, List.nil_prefix, hwork, hcalls, ?_⟩
    rintro ⟨m, rfl⟩
    obtain ⟨-, rfl, -⟩ := acceptFinal_eq_ok hfirst.delivers h
    exact .nil _
  | case5 state total count s kind p state₁ s₁ hread hdata hfinal =>
    cases h
    obtain ⟨-, _, hfail⟩ | ⟨r, rs', body', b', _, _, rfl, -, -, -, hfirst⟩ :=
      readNextRecord_opened hlen hsealed hsmall hcount hb hs hread
    · cases hfail
    · exact hfirst.cons (.nothing (refl_of NothingOpened _) (by simp))

theorem readRecord_opened (hlen : C.Tagged) {body : Bytes} {expectedType : Option UInt8}
    {maxPlaintext : Nat} {res : Except IronlockError Bytes}
    (hsealed : Sealed C sealer baseNonce header sequence rs body)
    (hsmall : ∀ r ∈ rs, r.plaintext.length + tagSize < 2 ^ 32)
    (hcount : sequence + rs.length ≤ 2 ^ 64) (hb : b <+: body) (hs : s.reader.Delivers b)
    (h : readRecord C opener baseNonce header sequence expectedType maxPlaintext s = (res, s₁)) :
    (NothingOpened s s₁ ∧ ∃ e, res = .error e) ∨
    ∃ r rs' body' b', rs = r :: rs' ∧
      Sealed C sealer baseNonce header (sequence + 1) rs' body' ∧ b' <+: body' ∧
      OpenedFirst C sealer opener baseNonce header sequence r b b' s s₁ := by
  unfold readRecord at h
  rcases hread : readExactFormat recordHeaderSize s with ⟨result, t⟩
  obtain ⟨hnothing, e, rfl⟩ | ⟨r, rs', c, body', b₁, rfl, hc, hsealed', rfl, rfl, hb₁, hdelivers, hwork⟩ :=
    readHead_opened hsealed hb hs hread
  · rw [Eff.bind_error hread] at h
    cases h
    exact .inl ⟨hnothing, e, rfl⟩
  rw [Eff.bind_ok hread] at h
  have hr := hsmall r List.mem_cons_self
  have hlt : sequence < 2 ^ 64 := by
    rw [List.length_cons] at hcount
    omega
  have hfield : ofBe (slice (r.head sequence) 1 9) = sequence := (recordHead_fields r.kind hlt hr).2.1
  by_cases htype : expectedType.isSome ∧ (r.head sequence).head? ≠ expectedType
  · rw [if_pos htype] at h
    cases h
    exact .inl ⟨.of_work hwork, _, rfl⟩
  simp only [if_neg htype, hfield, ne_eq, not_true_eq_false, if_false] at h
  obtain ⟨hnothing, e, rfl⟩ | ⟨b', calls, rfl, hb', hdelivers', hwork', hcalls⟩ :=
    decryptRecordBody_opened hr hlt (hlen _ _ _ _ _ hc) hdelivers hb₁ h
  · exact .inl ⟨trans_of NothingOpened (.of_work hwork) hnothing, e, rfl⟩
  · exact .inr ⟨r, rs', body', b', rfl, hsealed', hb', ⟨c, hc, (List.append_assoc ..).symm⟩,
      hdelivers', calls, by rw [hwork', hwork], hcalls⟩

end

section
variable {salt : Salt} {baseNonce : Nonce} {password : Bytes} {params : KdfParams} {sealer : Key}
  {rs : List Record} {body b : Bytes} {s s₁ : Streams} {res : Except IronlockError StreamDecryptor}

/-- Making the decryptor opens nothing, or the first record and keeps what the
next are opened under. -/
def Made (C : Crates) (sealer : Key) (salt : Salt) (baseNonce : Nonce) (password : Bytes)
    (params : KdfParams) (rs : List Record) (b : Bytes) (s s₁ : Streams)
    (res : Except IronlockError StreamDecryptor) : Prop :=
  let header := streamHeader params defaultChunkSize salt baseNonce
  (NothingOpened s s₁ ∧ ∃ e, res = .error e) ∨
  ∃ opener r rs' body' b', C.hashPasswordInto params password salt.bytes = .ok opener ∧
    rs = r :: rs' ∧ Sealed C sealer baseNonce header 1 rs' body' ∧ b' <+: body' ∧
    OpenedFirst C sealer opener baseNonce header 0 r b b' s s₁ ∧
    ∀ d, res = .ok d → d.mode = .v2 ⟨opener, header, baseNonce, defaultChunkSize, 1⟩

theorem newV2_opened (hlen : C.Tagged) {start more : Bytes}
    (hheader : start ++ more = streamHeader params defaultChunkSize salt baseNonce)
    (hmore : more.length = headerSize - 9)
    (hsealed : Sealed C sealer baseNonce (streamHeader params defaultChunkSize salt baseNonce) 0 rs body)
    (hsmall : ∀ r ∈ rs, r.plaintext.length + tagSize < 2 ^ 32) (hcount : rs.length ≤ 2 ^ 64)
    (hb : b <+: more ++ body) (hs : s.reader.Delivers b)
    (h : StreamDecryptor.newV2 C password start s = (res, s₁)) :
    (NothingOpened s s₁ ∧ ∃ e, res = .error e) ∨ ∃ b₁, b = more ++ b₁ ∧
      Made C sealer salt baseNonce password params rs b₁ s s₁ res := by
  unfold StreamDecryptor.newV2 at h
  rcases hread : readExactFormat (headerSize - 9) s with ⟨e | got, t⟩
  · rw [Eff.bind_error hread] at h
    cases h
    exact .inl ⟨(liftRead_asks _).run hread, e, rfl⟩
  rw [Eff.bind_ok hread] at h
  rw [← hmore] at hread
  obtain ⟨rfl, b₁, rfl, hb₁, hdelivers, hwork⟩ := readExactFormat_cut hs hb hread
  obtain ⟨hparams, hchunk, hsalt, hnonce⟩ := streamHeader_fields (p := params) (s := salt)
    (n := baseNonce) (by decide : defaultChunkSize < 2 ^ 32)
  have hblock (n : Nat) (v : Block n) : Block.ofBytes? n v.bytes = some v :=
    Block.ofBytes?_of_length v.length_eq
  simp only [hheader, hparams, hchunk, hsalt, hnonce, hblock] at h
  rw [if_neg (by decide)] at h
  refine .inr ⟨b₁, rfl, ?_⟩
  have quiet {u : Streams} {e : IronlockError} (hfail : res = .error e) (hnothing : NothingOpened t u)
      (hu : s₁ = u) : Made C sealer salt baseNonce password params rs b₁ s s₁ res :=
    .inl ⟨trans_of NothingOpened (.of_work hwork) (hu ▸ hnothing), e, hfail⟩
  rcases hkey : liftCrypto (deriveKeyFromPassword C password salt.bytes params) t with ⟨e | opener, u⟩
  · rw [Eff.bind_error hkey] at h
    cases h
    exact quiet rfl ((deriveKey_opens _ _ _).run hkey) rfl
  rw [Eff.bind_ok hkey] at h
  have hnothing := (deriveKey_opens _ _ _).run hkey
  obtain ⟨hderived, hu⟩ := liftCrypto_eq_ok.1 hkey
  obtain ⟨-, -, hderived, -⟩ := deriveKey_eq_ok.1 hderived
  rcases hrecord : readRecord C opener baseNonce (streamHeader params defaultChunkSize salt baseNonce)
    0 (some recordMetadata) (maxFilenameBytes + 2) u with ⟨result, v⟩
  obtain ⟨hquiet, e, rfl⟩ | ⟨r, rs', body', b', rfl, hsealed', hb', hfirst⟩ :=
    readRecord_opened hlen hsealed hsmall (by omega) hb₁ (hu ▸ hdelivers) hrecord
  · rw [Eff.bind_error hrecord] at h
    cases h
    exact quiet rfl (trans_of NothingOpened hnothing hquiet) rfl
  have hfirst := hfirst.after (trans_of NothingOpened (.of_work hwork) hnothing)
  -- what follows the record only looks at it
  have done {x : Except IronlockError StreamDecryptor} (hx : (x, v) = (res, s₁))
      (hmode : ∀ d, x = .ok d → d.mode = .v2 ⟨opener,
        streamHeader params defaultChunkSize salt baseNonce, baseNonce, defaultChunkSize, 1⟩) :
      Made C sealer salt baseNonce password params (r :: rs') b₁ s s₁ res := by
    cases hx
    exact .inr ⟨opener, r, rs', body', b', hderived, rfl, hsealed', hb', hfirst, hmode⟩
  rcases result with e | metadata
  · rw [Eff.bind_error hrecord] at h
    exact done h nofun
  rw [Eff.bind_ok hrecord] at h
  by_cases hshort : metadata.length < 2
  · rw [if_pos hshort] at h
    exact done h nofun
  rw [if_neg hshort] at h
  by_cases hname : metadata.length ≠ ofBe (slice metadata 0 2) + 2
  · rw [if_pos hname] at h
    exact done h nofun
  rw [if_neg hname] at h
  cases hutf : Str.ofBytes? (metadata.drop 2) with
  | none =>
    rw [hutf] at h
    exact done h nofun
  | some filename =>
    simp only [hutf] at h
    by_cases hempty : filename.bytes = []
    · rw [if_pos hempty] at h
      exact done h nofun
    rw [if_neg hempty] at h
    refine done h ?_
    rintro d ⟨⟩
    rfl

/-- The decryptor of a cut-off version 2 stream is made from its header and its
first record. -/
theorem new_opened (hlen : C.Tagged)
    (hsealed : Sealed C sealer baseNonce (streamHeader params defaultChunkSize salt baseNonce) 0 rs body)
    (hsmall : ∀ r ∈ rs, r.plaintext.length + tagSize < 2 ^ 32) (hcount : rs.length ≤ 2 ^ 64)
    (hb : b <+: streamHeader params defaultChunkSize salt baseNonce ++ body)
    (hs : s.reader.Delivers b) (h : StreamDecryptor.new C password s = (res, s₁)) :
    (NothingOpened s s₁ ∧ ∃ e, res = .error e) ∨
      ∃ b₁, b = streamHeader params defaultChunkSize salt baseNonce ++ b₁ ∧
        Made C sealer salt baseNonce password params rs b₁ s s₁ res := by
  unfold StreamDecryptor.new at h
  rcases hread : readExactFormat 9 s with ⟨e | got, t⟩
  · rw [Eff.bind_error hread] at h
    cases h
    exact .inl ⟨(liftRead_asks _).run hread, e, rfl⟩
  rw [Eff.bind_ok hread] at h
  generalize hheader : streamHeader params defaultChunkSize salt baseNonce = header at *
  have hlen53 : header.length = 53 := by rw [← hheader]; exact length_streamHeader ..
  have h9 : (header.take 9).length = 9 := by rw [List.length_take, hlen53]; rfl
  rw [← List.take_append_drop 9 header, List.append_assoc] at hb
  rw [← h9] at hread
  obtain ⟨rfl, b₁, rfl, hb₁, hdelivers, hwork⟩ := readExactFormat_cut hs hb hread
  have hstart : header.take 9 = magicBytes ++ [formatVersion] := by
    rw [← hheader]
    exact streamHeader_start ..
  have hnew : StreamDecryptor.newV2 C password (header.take 9) t = (res, s₁) := by
    rw [hstart] at h ⊢
    exact h
  subst hheader
  obtain ⟨hnothing, hfail⟩ | ⟨b₂, rfl, hmade⟩ := newV2_opened hlen (List.take_append_drop 9 _)
    (by rw [List.length_drop, hlen53]; rfl) hsealed hsmall hcount hb₁ hdelivers hnew
  · exact .inl ⟨trans_of NothingOpened (.of_work hwork) hnothing, hfail⟩
  refine .inr ⟨b₂, by rw [← List.append_assoc, List.take_append_drop], ?_⟩
  obtain ⟨hnothing, hfail⟩ | ⟨opener, r, rs', body', b', hkey, rfl, hsealed', hb', hfirst, hmode⟩ :=
    hmade
  · exact .inl ⟨trans_of NothingOpened (.of_work hwork) hnothing, hfail⟩
  · exact .inr ⟨opener, r, rs', body', b', hkey, rfl, hsealed', hb', hfirst.after (.of_work hwork), hmode⟩

/-- What a whole run of the decryptor over `b` opens. -/
def ReadBack (C : Crates) (sealer : Key) (salt : Salt) (baseNonce : Nonce) (password : Bytes)
    (params : KdfParams) (rs : List Record) (b : Bytes) (s s' : Streams)
    (r : Except IronlockError Nat) : Prop :=
  let header := streamHeader params defaultChunkSize salt baseNonce
  ∃ opener rs' calls, rs' <+: rs ∧ s'.work = s.work ++ calls ∧
    openings calls = bindings opener baseNonce header 0 rs' ∧
    (rs' ≠ [] → C.hashPasswordInto params password salt.bytes = .ok opener) ∧
    ∀ m, r = .ok m → ∃ body, b = header ++ body ∧ Sealed C sealer baseNonce header 0 rs' body

theorem ReadBack.nothing {s' : Streams} {e : IronlockError} (h : NothingOpened s s') :
    ReadBack C sealer salt baseNonce password params rs b s s' (.error e) := by
  obtain ⟨calls, hwork, hcalls⟩ := NothingOpened.openings h
  exact ⟨.zero _, [], calls, List.nil_prefix, hwork, hcalls, fun h => absurd rfl h, nofun⟩

theorem ReadBack.opened {s' : Streams} {r : Except IronlockError Nat} {opener : Key} {b₁ : Bytes}
    (hkey : C.hashPasswordInto params password salt.bytes = .ok opener)
    (h : Opened C sealer opener baseNonce (streamHeader params defaultChunkSize salt baseNonce) 0 rs
      b₁ s s' (∃ m, r = .ok m)) :
    ReadBack C sealer salt baseNonce password params rs
      (streamHeader params defaultChunkSize salt baseNonce ++ b₁) s s' r := by
  obtain ⟨rs', calls, hpre, hwork, hcalls, hsealed⟩ := h
  exact ⟨opener, rs', calls, hpre, hwork, hcalls, fun _ => hkey,
    fun m hm => ⟨b₁, rfl, hsealed ⟨m, hm⟩⟩⟩

theorem decryptor_readBack (hlen : C.Tagged) {s' : Streams} {r : Except IronlockError Nat}
    (hsealed : Sealed C sealer baseNonce (streamHeader params defaultChunkSize salt baseNonce) 0 rs body)
    (hsmall : ∀ r ∈ rs, r.plaintext.length + tagSize < 2 ^ 32) (hcount : rs.length ≤ 2 ^ 64)
    (hb : b <+: streamHeader params defaultChunkSize salt baseNonce ++ body)
    (hs : s.reader.Delivers b)
    (h : (StreamDecryptor.new C password >>= StreamDecryptor.decryptTo C) s = (r, s')) :
    ReadBack C sealer salt baseNonce password params rs b s s' r := by
  rcases hnew : StreamDecryptor.new C password s with ⟨res, s₁⟩
  have hmade := new_opened hlen hsealed hsmall hcount hb hs hnew
  rcases res with e | d
  · rw [Eff.bind_error hnew] at h
    cases h
    obtain ⟨hnothing, -⟩ | ⟨b₁, rfl, ⟨hnothing, -⟩ | ⟨opener, _, _, _, _, hkey, rfl, -, -, hfirst, -⟩⟩ :=
      hmade
    · exact .nothing hnothing
    · exact .nothing hnothing
    · exact .opened hkey (hfirst.cons (.nothing (refl_of NothingOpened _) nofun))
  · rw [Eff.bind_ok hnew] at h
    obtain ⟨-, _, hfail⟩ | ⟨b₁, rfl, ⟨-, _, hfail⟩ | ⟨opener, first, rs', body', b', hkey, rfl, hsealed',
      hb', hfirst, hmode⟩⟩ := hmade
    · cases hfail
    · cases hfail
    refine .opened hkey (hfirst.cons ?_)
    unfold StreamDecryptor.decryptTo at h
    rw [hmode d rfl] at h
    rw [List.length_cons] at hcount
    exact decryptChunks_opened hlen ⟨opener, _, baseNonce, defaultChunkSize, 1⟩ hsealed'
      (fun r hr => hsmall r (List.mem_cons_of_mem _ hr)) (by simp only; omega) hb' hfirst.delivers h

end

/-! ## Both sides of a file -/

/-- Whatever ends an encryption, the calls it has made to encrypt are under one
key, the i-th under the nonce derived from i, and no two under one nonce. A
decryptor that is given what was written opens the i-th record under the nonce
and the associated data it was sealed under, and under the key too if the
password is the same; where both runs succeed it opens them all. -/
theorem nonces_never_reused {C : Crates} {salt : Salt} {baseNonce : Nonce} {password : Bytes}
    {filename : Str} {params : KdfParams} {s s' : Streams} {r : Except IronlockError Nat}
    (h : encryptStreamWithParams C salt baseNonce password filename params s = (r, s')) :
    ∃ calls written, s'.work = s.work ++ calls ∧
      s'.writer.written = s.writer.written ++ written ∧ (sealings calls).length ≤ 2 ^ 64 ∧
      (∃ key, ∀ i b, (sealings calls)[i]? = some b →
        b.key = key ∧ b.nonce = deriveRecordNonce baseNonce i) ∧
      ((sealings calls).map Binding.nonce).Nodup ∧
      (C.Tagged → ∀ password' (t t' : Streams) r', t.reader.Delivers written →
        (StreamDecryptor.new C password' >>= StreamDecryptor.decryptTo C) t = (r', t') →
        ∃ calls', t'.work = t.work ++ calls' ∧
          (openings calls').map (fun b => (b.nonce, b.aad)) <+:
            (sealings calls).map (fun b => (b.nonce, b.aad)) ∧
          (password' = password → openings calls' <+: sealings calls ∧
            ∀ m m', r = .ok m → r' = .ok m' → openings calls' = sealings calls)) := by
  obtain ⟨key, rs, more, body, calls, written, hkey, hsealed, hsmall, hcount, hwritten, hpre,
    hwork, hcalls, hwhole⟩ := encryptStream_halted h
  refine ⟨calls, written, hwork, hwritten, ?_, ⟨key, ?_⟩, ?_, ?_⟩
  · rw [hcalls, length_bindings]
    exact hcount
  · intro i b hb
    rw [hcalls] at hb
    have := bindings_getElem? hb
    rwa [Nat.zero_add] at this
  · rw [hcalls, bindings_nonces, ← List.range_eq_range']
    exact nonces_nodup baseNonce hcount
  intro hlen password' t t' r' hdelivers hrun
  obtain ⟨opener, rs', calls', hrs', hwork', hcalls', hderived, hall⟩ := decryptor_readBack hlen
    hsealed hsmall (by rw [List.length_append] at hcount; omega) hpre hdelivers hrun
  obtain ⟨unread, rfl⟩ := hrs'
  have hsplit (k : Key) : bindings k baseNonce (streamHeader params defaultChunkSize salt baseNonce) 0
      (rs' ++ unread ++ more) =
      bindings k baseNonce (streamHeader params defaultChunkSize salt baseNonce) 0 rs' ++
        bindings k baseNonce (streamHeader params defaultChunkSize salt baseNonce) (0 + rs'.length)
          (unread ++ more) := by
    rw [List.append_assoc, bindings_append]
  refine ⟨calls', hwork', ?_, ?_⟩
  · rw [hcalls, hcalls', bindings_public opener key, hsplit, List.map_append]
    exact List.prefix_append _ _
  rintro rfl
  have hsame : openings calls' =
      bindings key baseNonce (streamHeader params defaultChunkSize salt baseNonce) 0 rs' := by
    rw [hcalls']
    by_cases hnil : rs' = []
    · rw [hnil]
      rfl
    · rw [hkey opener (hderived hnil)]
  refine ⟨?_, ?_⟩
  · rw [hsame, hcalls, hsplit]
    exact List.prefix_append _ _
  · intro m m' hm hm'
    obtain ⟨rfl, rfl⟩ := hwhole ⟨m, hm⟩
    obtain ⟨body', hbody, hsealed'⟩ := hall m' hm'
    obtain rfl := List.append_cancel_left hbody
    obtain ⟨b₁, b₂, hcut, h₁, h₂⟩ := hsealed.split
    rw [← h₁.unique hsealed', List.self_eq_append_right] at hcut
    have hunread : unread = [] := h₂.nil_of_nil hcut
    rw [hsame, hcalls, hunread, List.append_nil, List.append_nil]

/-- A run over an interrupted input and a slow output, and its file read back. -/
theorem nonces_never_reused_checksummed :
    let run := encryptStreamWithParams .checksummed (.zero 16) (.zero 12) [112, 119] letterA .current
      ⟨[.data [1, 2], .error ⟨.interrupted, "again"⟩, .data [3]], ⟨[.accept 1], []⟩, []⟩
    let back := (StreamDecryptor.new .checksummed [112, 119] >>= StreamDecryptor.decryptTo .checksummed)
      ⟨[.data run.2.writer.written], ⟨[], []⟩, []⟩
    ((sealings run.2.work).map Binding.nonce).Nodup ∧ (sealings run.2.work).length = 3 ∧
      openings back.2.work = sealings run.2.work := by
  intro run back
  have hrun : run.1.toOption = some 3 := by decide +kernel
  have hback : back.1.toOption = some 3 := by decide +kernel
  obtain ⟨calls, written, hwork, hwritten, -, -, hnodup, hopen⟩ :=
    nonces_never_reused (rfl : run = (run.1, run.2))
  obtain rfl : run.2.work = calls := hwork
  obtain rfl : run.2.writer.written = written := hwritten
  obtain ⟨calls', hwork', -, hall⟩ := hopen Crates.checksummed_exact.encrypt_length
    [112, 119] _ back.2 back.1 ⟨by decide +kernel, by simp [ReadEvent.bytes]⟩
    (rfl : back = (back.1, back.2))
  obtain rfl : back.2.work = calls' := hwork'
  exact ⟨hnodup, by decide +kernel, (hall rfl).2 3 3 (congrArg Prod.fst (Eff.run_eq_ok hrun))
    (congrArg Prod.fst (Eff.run_eq_ok hback))⟩

end Ironlock
