import Ironlock.StreamCrypto

/-! What reads and writes amount to, whatever portions they come in: a reader
that delivers `b` is read as `b`, a writer ends with what it was given. -/

namespace Ironlock
open ByteOrder (Bytes)
open Effect

/-! ## Readers -/

def ReadEvent.bytes : ReadEvent → Bytes
  | .data bytes => bytes
  | .error _ => []

/-- An event of a reader that does not fail: some bytes, or an interrupt. -/
def ReadEvent.Delivering : ReadEvent → Prop
  | .data bytes => bytes ≠ []
  | .error e => e.kind = .interrupted

instance (ev : ReadEvent) : Decidable ev.Delivering := by
  cases ev <;> unfold ReadEvent.Delivering <;> infer_instance

/-- The reader gives the bytes `b` and then ends, in portions of any sizes and
with interrupts anywhere. -/
structure Reader.Delivers (r : Reader) (b : Bytes) : Prop where
  delivering : ∀ ev ∈ r, ev.Delivering
  bytes : r.flatMap ReadEvent.bytes = b

namespace Reader.Delivers

variable {r r' : Reader} {b : Bytes}

theorem nil : Reader.Delivers [] [] := ⟨by simp, rfl⟩

theorem portions {ps : List Bytes} (h : ∀ p ∈ ps, p ≠ []) :
    Reader.Delivers (ps.map .data) ps.flatten :=
  ⟨by simpa [ReadEvent.Delivering] using h, by
    simp [List.flatMap, List.map_map, Function.comp_def, ReadEvent.bytes]⟩

/-- One read takes some of the bytes, none only at the end, or is interrupted. -/
theorem read {room : Nat} (h : r.Delivers b) (hroom : room ≠ 0) :
    (∃ e r', r.read room = (.error e, r') ∧ e.kind = .interrupted ∧ r'.Delivers b) ∨
    ∃ got rest r', r.read room = (.ok got, r') ∧ b = got ++ rest ∧ r'.Delivers rest ∧
      got.length ≤ room ∧ (got = [] → b = []) := by
  match r, h with
  | [], ⟨_, hb⟩ => exact .inr ⟨[], [], [], rfl, hb.symm, nil, Nat.zero_le _, fun _ => hb.symm⟩
  | .error e :: r, ⟨hd, hb⟩ =>
    exact .inl ⟨e, r, rfl, hd (.error e) (by simp), fun ev hev => hd ev (by simp [hev]), hb⟩
  | .data p :: r, ⟨hd, hb⟩ =>
    have hp : p ≠ [] := hd (.data p) (by simp)
    have hd' : ∀ ev ∈ r, ev.Delivering := fun ev hev => hd ev (by simp [hev])
    right
    by_cases hle : p.length ≤ room
    · exact ⟨p, r.flatMap ReadEvent.bytes, r, by simp [Reader.read, hle],
        by rw [← hb]; rfl, ⟨hd', rfl⟩, hle, fun h => absurd h hp⟩
    · refine ⟨p.take room, p.drop room ++ r.flatMap ReadEvent.bytes, .data (p.drop room) :: r,
        by simp [Reader.read, hle], ?_, ⟨?_, rfl⟩, by simp, ?_⟩
      · rw [← hb, ← List.append_assoc, List.take_append_drop]; rfl
      · intro ev hev
        rcases List.mem_cons.1 hev with rfl | hev
        · simp only [ReadEvent.Delivering, ne_eq, List.drop_eq_nil_iff]; omega
        · exact hd' ev hev
      · intro hnil
        simp only [List.take_eq_nil_iff, hroom, hp, or_self] at hnil

theorem nextRead {room : Nat} (h : r.Delivers b) (hroom : room ≠ 0) :
    ∃ got rest r', Ironlock.nextRead room r = (.ok got, r') ∧ b = got ++ rest ∧
      r'.Delivers rest ∧ got.length ≤ room ∧ (got = [] → b = []) := by
  fun_induction Ironlock.nextRead room r with
  | case1 r e r₁ hr _ ih =>
    rcases h.read hroom with ⟨e', r', heq, -, h'⟩ | ⟨_, _, _, heq, _⟩ <;> rw [hr] at heq <;>
      cases heq
    exact ih h'
  | case2 r e r₁ hr hkind =>
    rcases h.read hroom with ⟨e', r', heq, hk, -⟩ | ⟨_, _, _, heq, _⟩ <;> rw [hr] at heq <;>
      cases heq
    exact absurd hk hkind
  | case3 r got r₁ hr =>
    rcases h.read hroom with ⟨_, _, heq, _⟩ | ⟨got', rest, r', heq, h'⟩ <;> rw [hr] at heq <;>
      cases heq
    exact ⟨got, rest, r₁, rfl, h'⟩

/-- What a portion takes and what the rest of the loop takes make up what one
take of both would. -/
theorem take_split {got rest : Bytes} {room : Nat} (hle : got.length ≤ room) :
    (got ++ rest).take room = got ++ rest.take (room - got.length) ∧
      (got ++ rest).drop room = rest.drop (room - got.length) := by
  simp [List.take_append, List.drop_append, List.take_of_length_le hle,
    List.drop_of_length_le hle]

theorem fillBuffer (h : r.Delivers b) (room : Nat) :
    ∃ r', Ironlock.fillBuffer room r = (.ok (b.take room), r') ∧ r'.Delivers (b.drop room) := by
  fun_induction Ironlock.fillBuffer room r generalizing b with
  | case1 r => exact ⟨r, by simp, by simpa using h⟩
  | case2 room r hroom e r₁ hr =>
    obtain ⟨_, _, _, heq, _⟩ := h.nextRead hroom
    rw [hr] at heq; cases heq
  | case3 room r hroom r₁ hr =>
    obtain ⟨_, rest, _, heq, rfl, hrest, -, hend⟩ := h.nextRead hroom
    rw [hr] at heq; cases heq
    have : rest = [] := by simpa using hend rfl
    subst this
    exact ⟨r₁, by simp, by simpa using hrest⟩
  | case4 room r hroom got r₁ hr hgot more r₂ hmore ih =>
    obtain ⟨_, rest, _, heq, rfl, hrest, hle, -⟩ := h.nextRead hroom
    rw [hr] at heq; cases heq
    obtain ⟨r', hfill, hr'⟩ := ih hrest
    rw [hmore] at hfill; cases hfill
    exact ⟨r₂, by rw [(take_split hle).1], by rwa [(take_split hle).2]⟩
  | case5 room r hroom got r₁ hr hgot e r₂ hmore ih =>
    obtain ⟨_, rest, _, heq, rfl, hrest, -, -⟩ := h.nextRead hroom
    rw [hr] at heq; cases heq
    obtain ⟨r', hfill, -⟩ := ih hrest
    rw [hmore] at hfill; cases hfill

theorem readToEnd (h : r.Delivers b) (room : Nat) :
    ∃ r', Reader.readToEnd room r = (.ok (b.take room), r') ∧ r'.Delivers (b.drop room) := by
  fun_induction Reader.readToEnd room r generalizing b with
  | case1 r => exact ⟨r, by simp, by simpa using h⟩
  | case2 room r hroom e r₁ hr _ ih =>
    rcases h.read hroom with ⟨_, _, heq, -, h'⟩ | ⟨_, _, _, heq, _⟩ <;> rw [hr] at heq <;> cases heq
    exact ih h'
  | case3 room r hroom e r₁ hr hkind =>
    rcases h.read hroom with ⟨_, _, heq, hk, -⟩ | ⟨_, _, _, heq, _⟩ <;> rw [hr] at heq <;> cases heq
    exact absurd hk hkind
  | case4 room r hroom r₁ hr =>
    rcases h.read hroom with ⟨_, _, heq, _⟩ | ⟨_, rest, _, heq, rfl, hrest, -, hend⟩ <;>
      rw [hr] at heq <;> cases heq
    have : rest = [] := by simpa using hend rfl
    subst this
    exact ⟨r₁, by simp, by simpa using hrest⟩
  | case5 room r hroom got r₁ hr hgot more r₂ hmore ih =>
    rcases h.read hroom with ⟨_, _, heq, _⟩ | ⟨_, rest, _, heq, rfl, hrest, hle, -⟩ <;>
      rw [hr] at heq <;> cases heq
    obtain ⟨r', hfill, hr'⟩ := ih hrest
    rw [hmore] at hfill; cases hfill
    exact ⟨r₂, by rw [(take_split hle).1], by rwa [(take_split hle).2]⟩
  | case6 room r hroom got r₁ hr hgot e r₂ hmore ih =>
    rcases h.read hroom with ⟨_, _, heq, _⟩ | ⟨_, rest, _, heq, rfl, hrest, -, -⟩ <;>
      rw [hr] at heq <;> cases heq
    obtain ⟨r', hfill, -⟩ := ih hrest
    rw [hmore] at hfill; cases hfill

theorem readExact {room : Nat} (h : r.Delivers b) (hroom : room ≤ b.length) :
    ∃ r', Reader.readExact room r = (.ok (b.take room), r') ∧ r'.Delivers (b.drop room) := by
  fun_induction Reader.readExact room r generalizing b with
  | case1 r => exact ⟨r, by simp, by simpa using h⟩
  | case2 room r hpos e r₁ hr _ ih =>
    rcases h.read hpos with ⟨_, _, heq, -, h'⟩ | ⟨_, _, _, heq, _⟩ <;> rw [hr] at heq <;> cases heq
    exact ih h' hroom
  | case3 room r hpos e r₁ hr hkind =>
    rcases h.read hpos with ⟨_, _, heq, hk, -⟩ | ⟨_, _, _, heq, _⟩ <;> rw [hr] at heq <;> cases heq
    exact absurd hk hkind
  | case4 room r hpos r₁ hr =>
    rcases h.read hpos with ⟨_, _, heq, _⟩ | ⟨_, rest, _, heq, rfl, hrest, -, hend⟩ <;>
      rw [hr] at heq <;> cases heq
    have : rest = [] := by simpa using hend rfl
    subst this
    exact absurd (Nat.le_zero.1 hroom) hpos
  | case5 room r hpos got r₁ hr hgot more r₂ hmore ih =>
    rcases h.read hpos with ⟨_, _, heq, _⟩ | ⟨_, rest, _, heq, rfl, hrest, hle, -⟩ <;>
      rw [hr] at heq <;> cases heq
    obtain ⟨r', hfill, hr'⟩ := ih hrest (by simp only [List.length_append] at hroom; omega)
    rw [hmore] at hfill; cases hfill
    exact ⟨r₂, by rw [(take_split hle).1], by rwa [(take_split hle).2]⟩
  | case6 room r hpos got r₁ hr hgot e r₂ hmore ih =>
    rcases h.read hpos with ⟨_, _, heq, _⟩ | ⟨_, rest, _, heq, rfl, hrest, -, -⟩ <;>
      rw [hr] at heq <;> cases heq
    obtain ⟨r', hfill, -⟩ := ih hrest (by simp only [List.length_append] at hroom; omega)
    rw [hmore] at hfill; cases hfill

/-- An exact read of more than there is finds the end. -/
theorem readExact_short {room : Nat} (h : r.Delivers b) (hroom : b.length < room) :
    ∃ e r', Reader.readExact room r = (.error e, r') ∧ e.kind = .unexpectedEof := by
  fun_induction Reader.readExact room r generalizing b with
  | case1 r => exact absurd hroom (Nat.not_lt_zero _)
  | case2 room r hpos e r₁ hr _ ih =>
    rcases h.read hpos with ⟨_, _, heq, -, h'⟩ | ⟨_, _, _, heq, _⟩ <;> rw [hr] at heq <;> cases heq
    exact ih h' hroom
  | case3 room r hpos e r₁ hr hkind =>
    rcases h.read hpos with ⟨_, _, heq, hk, -⟩ | ⟨_, _, _, heq, _⟩ <;> rw [hr] at heq <;> cases heq
    exact absurd hk hkind
  | case4 room r hpos r₁ hr => exact ⟨_, r₁, rfl, rfl⟩
  | case5 room r hpos got r₁ hr hgot more r₂ hmore ih =>
    rcases h.read hpos with ⟨_, _, heq, _⟩ | ⟨_, rest, _, heq, rfl, hrest, hle, -⟩ <;>
      rw [hr] at heq <;> cases heq
    obtain ⟨e, r', hfill, -⟩ := ih hrest (by simp only [List.length_append] at hroom; omega)
    rw [hmore] at hfill; cases hfill
  | case6 room r hpos got r₁ hr hgot e r₂ hmore ih =>
    rcases h.read hpos with ⟨_, _, heq, _⟩ | ⟨_, rest, _, heq, rfl, hrest, -, -⟩ <;>
      rw [hr] at heq <;> cases heq
    obtain ⟨e', r', hfill, hkind⟩ := ih hrest (by simp only [List.length_append] at hroom; omega)
    rw [hmore] at hfill; cases hfill
    exact ⟨e, r₂, rfl, hkind⟩

end Reader.Delivers

/-! ## Writers -/

namespace Writer

theorem write_error_portions {buf : Bytes} {w w' : Writer} {e : IoError}
    (h : w.write buf = (.error e, w')) : w'.portions = w.portions := by
  unfold Writer.write at h
  split at h <;> cases h
  rfl

theorem write_ok_portions {buf : Bytes} {w w' : Writer} {n : Nat}
    (h : w.write buf = (.ok n, w')) :
    n ≤ buf.length ∧ w'.portions = w.portions ++ [buf.take n] := by
  unfold Writer.write at h
  split at h <;> cases h
  · simp
  · rename_i n _ _
    simp only [Nat.min_le_right, true_and]
    rcases Nat.le_total n buf.length with hle | hle
    · rw [Nat.min_eq_left hle]
    · rw [Nat.min_eq_right hle, List.take_of_length_le hle, List.take_length]

/-- Whatever becomes of a full write, what it adds begins the buffer, and all
of the buffer is added when it succeeds. -/
theorem writeAll_portions (buf : Bytes) (w : Writer) :
    ∃ more, (w.writeAll buf).2.portions = w.portions ++ more ∧ more.flatten <+: buf ∧
      ((w.writeAll buf).1 = .ok () → more.flatten = buf) := by
  fun_induction Writer.writeAll buf w with
  | case1 w => exact ⟨[], by simp, List.nil_prefix, fun _ => rfl⟩
  | case2 buf w _ e w₁ hw _ ih =>
    obtain ⟨more, hmore, hpre, hok⟩ := ih
    exact ⟨more, by rw [hmore, write_error_portions hw], hpre, hok⟩
  | case3 buf w _ e w₁ hw _ =>
    exact ⟨[], by simp [write_error_portions hw], List.nil_prefix, nofun⟩
  | case4 buf w _ w₁ hw =>
    obtain ⟨-, hw⟩ := write_ok_portions hw
    exact ⟨[buf.take 0], hw, by simp, nofun⟩
  | case5 buf w _ n w₁ hw hn ih =>
    obtain ⟨more, hmore, hpre, hok⟩ := ih
    obtain ⟨-, hw⟩ := write_ok_portions hw
    refine ⟨buf.take n :: more, by rw [hmore, hw]; simp, ?_, fun h => ?_⟩
    · obtain ⟨rest, hrest⟩ := hpre
      exact ⟨rest, by simp [hrest]⟩
    · simp [hok h]

theorem writeAll_ok {buf : Bytes} {w w' : Writer} (h : w.writeAll buf = (.ok (), w')) :
    w'.written = w.written ++ buf := by
  obtain ⟨more, hmore, -, hok⟩ := writeAll_portions buf w
  rw [h] at hmore hok
  simp only at hmore
  simp [written, hmore, hok rfl]

/-- A writer that does not fail: it accepts something, or is interrupted. -/
def Accepting (w : Writer) : Prop := ∀ ev ∈ w.schedule, match ev with
  | .accept n => n ≠ 0
  | .error e => e.kind = .interrupted

theorem writeAll_accepting (buf : Bytes) {w : Writer} (h : w.Accepting) :
    ∃ w', w.writeAll buf = (.ok (), w') ∧ w'.written = w.written ++ buf ∧ w'.Accepting := by
  suffices ∃ w', w.writeAll buf = (.ok (), w') ∧ w'.Accepting by
    obtain ⟨w', hw, hacc⟩ := this
    exact ⟨w', hw, writeAll_ok hw, hacc⟩
  have keep (buf : Bytes) {w : Writer} (h : w.Accepting) : (w.write buf).2.Accepting := by
    unfold Writer.write
    split <;> rename_i hs <;> intro ev hev <;> apply h <;> simp_all
  fun_induction Writer.writeAll buf w with
  | case1 w => exact ⟨w, rfl, h⟩
  | case2 buf w _ e w₁ hw _ ih => exact ih (by simpa [hw] using keep buf h)
  | case3 buf w _ e w₁ hw hkind =>
    unfold Writer.write at hw
    split at hw <;> cases hw
    exact absurd (h (.error e) (by simp [*])) hkind
  | case4 buf w hbuf w₁ hw =>
    have hb := List.length_pos_of_ne_nil hbuf
    unfold Writer.write at hw
    split at hw <;> simp only [Prod.mk.injEq, Except.ok.injEq, reduceCtorEq, false_and] at hw
    · omega
    · rename_i n sch hs
      have hn : n ≠ 0 := h (.accept n) (by simp [hs])
      omega
  | case5 buf w _ n w₁ hw hn ih => exact ih (by simpa [hw] using keep buf h)

end Writer

/-! ## Streams -/

theorem liftCrypto_eq_ok {α : Type} {m : CryptoM α} {a : α} {s s' : Streams} :
    liftCrypto m s = (.ok a, s') ↔ m s.work = (.ok a, s'.work) ∧ s' = { s with work := s'.work } := by
  rcases s with ⟨r, w, log⟩
  rcases s' with ⟨r', w', log'⟩
  unfold liftCrypto
  rcases m log with ⟨res, log₁⟩
  simp only [Prod.mk.injEq, Streams.mk.injEq]
  grind

theorem liftCrypto_ok {α : Type} {m : CryptoM α} {a : α} {s : Streams} {log : List Work}
    (h : m s.work = (.ok a, log)) : liftCrypto m s = (.ok a, { s with work := log }) := by
  simp only [liftCrypto, h]

theorem writeAll_eq_ok {buf : Bytes} {s s' : Streams} (h : writeAll buf s = (.ok (), s')) :
    s'.writer.written = s.writer.written ++ buf ∧ s' = { s with writer := s'.writer } := by
  unfold writeAll at h
  split at h <;> rename_i hw <;> cases h
  exact ⟨Writer.writeAll_ok hw, rfl⟩

theorem writeAll_accepting (buf : Bytes) {s : Streams} (h : s.writer.Accepting) :
    ∃ w, writeAll buf s = (.ok (), { s with writer := w }) ∧
      w.written = s.writer.written ++ buf ∧ w.Accepting := by
  obtain ⟨w, hw, hwritten, hacc⟩ := Writer.writeAll_accepting buf h
  exact ⟨w, by simp [writeAll, hw], hwritten, hacc⟩

/-- What an exact read takes is the front of what there was to read. -/
theorem readExactFormat_eq_ok {room : Nat} {s s' : Streams} {b got : Bytes}
    (hs : s.reader.Delivers b) (h : readExactFormat room s = (.ok got, s')) :
    ∃ rest, b = got ++ rest ∧ got.length = room ∧ s'.reader.Delivers rest ∧
      s' = { s with reader := s'.reader } := by
  unfold readExactFormat liftRead at h
  by_cases hroom : room ≤ b.length
  · obtain ⟨r', hr, hr'⟩ := hs.readExact hroom
    simp only [hr] at h
    cases h
    exact ⟨b.drop room, by simp, by simpa using hroom, hr', rfl⟩
  · obtain ⟨e, r', hr, -⟩ := hs.readExact_short (Nat.lt_of_not_le hroom)
    simp only [hr] at h
    cases h

theorem readExactFormat_ok {room : Nat} {s : Streams} {got rest : Bytes}
    (hs : s.reader.Delivers (got ++ rest)) (hgot : got.length = room) :
    ∃ r, readExactFormat room s = (.ok got, { s with reader := r }) ∧ r.Delivers rest := by
  have hle : room ≤ (got ++ rest).length := by
    rw [List.length_append, hgot]; exact Nat.le_add_right ..
  obtain ⟨r', hr, hr'⟩ := hs.readExact hle
  rw [List.take_left' hgot] at hr
  rw [List.drop_left' hgot] at hr'
  exact ⟨r', by simp [readExactFormat, liftRead, hr], hr'⟩

end Ironlock
