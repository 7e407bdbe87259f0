import Ironlock.Crypto
import Mathlib.Tactic.SplitIfs
import Mathlib.Algebra.Order.BigOperators.Group.List

/-! Readers and writers that deliver and accept bytes in portions of their own
choosing, with interrupts and failures, and std's exact reads and full writes
over them. -/

namespace Ironlock
open ByteOrder (Bytes)
open Effect

/-- What a reader does when asked for bytes. A portion is cut to the room
there is, and the rest of it comes next; an empty portion is `Ok(0)`. -/
inductive ReadEvent
  | data (bytes : Bytes)
  | error (e : IoError)

/-- A reader by what it will do. At the end of its script it answers `Ok(0)`. -/
abbrev Reader := List ReadEvent

def ReadEvent.size : ReadEvent → Nat
  | .data bytes => bytes.length + 1
  | .error _ => 1

/-- How much is left for a loop to consume. -/
def Reader.size (r : Reader) : Nat := (r.map ReadEvent.size).sum

/-- `Read::read` into a buffer with `room` free bytes. -/
def Reader.read (room : Nat) : Reader → Except IoError Bytes × Reader
  | [] => (.ok [], [])
  | .error e :: r => (.error e, r)
  | .data bytes :: r =>
    if bytes.length ≤ room then (.ok bytes, r)
    else (.ok (bytes.take room), .data (bytes.drop room) :: r)

theorem Reader.read_error_size {room : Nat} {r r' : Reader} {e : IoError}
    (h : r.read room = (.error e, r')) : r'.size < r.size := by
  match r with
  | [] => simp [Reader.read] at h
  | .error e' :: r =>
    simp only [Reader.read, Prod.mk.injEq] at h
    obtain ⟨-, rfl⟩ := h
    simp [Reader.size, ReadEvent.size]
  | .data bytes :: r =>
    simp only [Reader.read] at h
    split_ifs at h <;> cases h

/-- A read that delivers something leaves less to deliver. -/
theorem Reader.read_ok_size {room : Nat} {r r' : Reader} {b : Bytes}
    (h : r.read room = (.ok b, r')) (hb : b ≠ []) : r'.size < r.size := by
  match r with
  | [] => simp [Reader.read] at h; exact absurd h.1 hb
  | .error e' :: r => simp [Reader.read] at h
  | .data bytes :: r =>
    simp only [Reader.read] at h
    split_ifs at h with hroom
    · cases h; simp [Reader.size, ReadEvent.size]
    · cases h
      have : room ≠ 0 := by rintro rfl; simp at hb
      simp only [Reader.size, ReadEvent.size, List.map_cons, List.sum_cons, List.length_drop]
      omega

/-- `next_read`: one read, retried while it is interrupted. -/
def nextRead (room : Nat) (r : Reader) : Except IronlockError Bytes × Reader :=
  match _h : r.read room with
  | (.error e, r') =>
    if e.kind = .interrupted then nextRead room r' else (.error (.ioError e), r')
  | (.ok b, r') => (.ok b, r')
termination_by r.size
decreasing_by exact Reader.read_error_size _h

theorem Reader.read_size_le (room : Nat) (r : Reader) : (r.read room).2.size ≤ r.size := by
  match r with
  | [] => exact le_refl _
  | .error e :: r => simp [Reader.read, Reader.size]
  | .data bytes :: r =>
    simp only [Reader.read]
    split_ifs <;> simp [Reader.size, ReadEvent.size]

theorem nextRead_size_le (room : Nat) (r : Reader) : (nextRead room r).2.size ≤ r.size := by
  fun_induction nextRead room r with
  | case1 r e r₁ hr _ ih => exact le_trans ih (le_of_lt (Reader.read_error_size hr))
  | case2 r e r₁ hr => exact le_of_lt (Reader.read_error_size hr)
  | case3 r b₁ r₁ hr => simpa [hr] using Reader.read_size_le room r

theorem nextRead_size {room : Nat} {r r' : Reader} {b : Bytes}
    (h : nextRead room r = (.ok b, r')) (hb : b ≠ []) : r'.size < r.size := by
  fun_induction nextRead room r with
  | case1 r e r₁ hr _ ih => exact lt_trans (ih h) (Reader.read_error_size hr)
  | case2 => cases h
  | case3 r b₁ r₁ hr => cases h; exact Reader.read_ok_size hr hb

/-- std's `read_exact`. -/
def Reader.readExact (room : Nat) (r : Reader) : Except IoError Bytes × Reader :=
  if room = 0 then (.ok [], r)
  else match _h : r.read room with
    | (.error e, r') => if e.kind = .interrupted then readExact room r' else (.error e, r')
    | (.ok b, r') =>
      if _hb : b = [] then (.error ⟨.unexpectedEof, "failed to fill whole buffer"⟩, r')
      else match readExact (room - b.length) r' with
        | (.ok rest, r'') => (.ok (b ++ rest), r'')
        | (.error e, r'') => (.error e, r'')
termination_by r.size
decreasing_by
  · exact Reader.read_error_size _h
  · exact Reader.read_ok_size _h _hb

/-- `read_to_end` through `take(limit)`: everything up to the limit. How std
sizes the single reads does not show: what one read leaves, the next delivers. -/
def Reader.readToEnd (limit : Nat) (r : Reader) : Except IoError Bytes × Reader :=
  if limit = 0 then (.ok [], r)
  else match _h : r.read limit with
    | (.error e, r') => if e.kind = .interrupted then readToEnd limit r' else (.error e, r')
    | (.ok b, r') =>
      if _hb : b = [] then (.ok [], r')
      else match readToEnd (limit - b.length) r' with
        | (.ok rest, r'') => (.ok (b ++ rest), r'')
        | (.error e, r'') => (.error e, r'')
termination_by r.size
decreasing_by
  · exact Reader.read_error_size _h
  · exact Reader.read_ok_size _h _hb

/-- What a writer does when offered bytes. -/
inductive WriteEvent
  | accept (atMost : Nat)
  | error (e : IoError)

/-- A writer by what it will do, and the portions it has accepted, first to
last. Past its script it accepts whatever it is offered. -/
structure Writer where
  schedule : List WriteEvent
  portions : List Bytes

def Writer.written (w : Writer) : Bytes := w.portions.flatten

/-- `Write::write`: how many of the offered bytes were accepted. -/
def Writer.write (buf : Bytes) (w : Writer) : Except IoError Nat × Writer :=
  match w.schedule with
  | [] => (.ok buf.length, { w with portions := w.portions ++ [buf] })
  | .accept n :: schedule =>
    (.ok (min n buf.length), ⟨schedule, w.portions ++ [buf.take n]⟩)
  | .error e :: schedule => (.error e, { w with schedule })

/-- std's `write_all`. -/
def Writer.writeAll (buf : Bytes) (w : Writer) : Except IoError Unit × Writer :=
  if buf = [] then (.ok (), w)
  else match _h : w.write buf with
    | (.error e, w') => if e.kind = .interrupted then writeAll buf w' else (.error e, w')
    | (.ok n, w') =>
      if n = 0 then (.error ⟨.writeZero, "failed to write whole buffer"⟩, w')
      else writeAll (buf.drop n) w'
termination_by buf.length + w.schedule.length
decreasing_by
  · unfold Writer.write at _h
    split at _h <;> cases _h
    simp [*]
  · have hb : 0 < buf.length := List.length_pos_of_ne_nil (by assumption)
    unfold Writer.write at _h
    split at _h <;> cases _h <;> simp only [*, List.length_drop, List.length_cons] <;> omega

/-- The reader and the writer of a streaming run, and the work it has asked for. -/
structure Streams where
  reader : Reader
  writer : Writer
  work : List Work

abbrev StreamM := Eff Streams IronlockError

def liftCrypto {α : Type} (m : CryptoM α) : StreamM α := fun s =>
  match m s.work with
  | (r, log) => (r, { s with work := log })

def liftRead {α : Type} (f : Reader → Except IronlockError α × Reader) : StreamM α := fun s =>
  match f s.reader with
  | (r, reader) => (r, { s with reader })

def allocate (size : Nat) : StreamM Unit := liftCrypto (work (.allocate size))

/-- `read_exact_format`: a short input is a malformed file, any other failure
an I/O error. -/
def readExactFormat (room : Nat) : StreamM Bytes := liftRead fun r =>
  match r.readExact room with
  | (.ok b, r') => (.ok b, r')
  | (.error e, r') =>
    (.error (if e.kind = .unexpectedEof then .invalidFileFormat else .ioError e), r')

def writeAll (buf : Bytes) : StreamM Unit := fun s =>
  match s.writer.writeAll buf with
  | (.ok (), writer) => (.ok (), { s with writer })
  | (.error e, writer) => (.error (.ioError e), { s with writer })

/-! ## Input is only ever consumed -/

theorem Reader.readExact_size_le (room : Nat) (r : Reader) :
    (r.readExact room).2.size ≤ r.size := by
  fun_induction Reader.readExact room r with
  | case1 => exact le_refl _
  | case2 room r _ e r₁ hr _ ih => exact le_trans ih (le_of_lt (Reader.read_error_size hr))
  | case3 room r _ e r₁ hr => exact le_of_lt (Reader.read_error_size hr)
  | case4 room r _ r₁ hr => simpa [hr] using Reader.read_size_le room r
  | case5 room r _ b r₁ hr hb rest r₂ hrest ih =>
    rw [hrest] at ih; exact le_trans ih (le_of_lt (Reader.read_ok_size hr hb))
  | case6 room r _ b r₁ hr hb e r₂ hrest ih =>
    rw [hrest] at ih; exact le_trans ih (le_of_lt (Reader.read_ok_size hr hb))

theorem Reader.readExact_size {room : Nat} (hroom : room ≠ 0) {r r' : Reader} {b : Bytes}
    (h : r.readExact room = (.ok b, r')) : r'.size < r.size := by
  fun_induction Reader.readExact room r with
  | case1 => exact absurd rfl hroom
  | case2 room r _ e r₁ hr _ ih => exact lt_trans (ih hroom h) (Reader.read_error_size hr)
  | case3 => cases h
  | case4 => cases h
  | case5 room r _ b₁ r₁ hr hb rest r₂ hrest =>
    cases h
    have hle := Reader.readExact_size_le (room - b₁.length) r₁
    rw [hrest] at hle
    exact lt_of_le_of_lt hle (Reader.read_ok_size hr hb)
  | case6 => cases h

/-- No more is left to read. -/
def LessToRead (s t : Streams) : Prop := t.reader.size ≤ s.reader.size

instance : IsPreorder Streams LessToRead where
  refl _ := le_refl _
  trans _ _ _ h h' := le_trans h' h

/-- Nothing is written. -/
def SameWriter (s t : Streams) : Prop := t.writer = s.writer

instance : IsPreorder Streams SameWriter where
  refl _ := rfl
  trans _ _ _ h h' := h'.trans h

theorem liftCrypto_less {α : Type} (m : CryptoM α) : Within LessToRead (liftCrypto m) :=
  fun _ => le_refl _

theorem writeAll_less (buf : Bytes) : Within LessToRead (writeAll buf) := by
  intro s; unfold writeAll; split <;> exact le_refl _

theorem readExactFormat_less (room : Nat) : Within LessToRead (readExactFormat room) := by
  intro s
  have hle := Reader.readExact_size_le room s.reader
  unfold readExactFormat liftRead
  rcases hr : s.reader.readExact room with ⟨e | b, r'⟩ <;> simpa [hr, LessToRead] using hle

theorem liftCrypto_writer {α : Type} (m : CryptoM α) : Within SameWriter (liftCrypto m) :=
  fun _ => rfl

theorem liftRead_writer {α : Type} (f : Reader → Except IronlockError α × Reader) :
    Within SameWriter (liftRead f) := fun _ => rfl

/-- Reading a record header that is there uses input up. -/
theorem readExactFormat_size {room : Nat} (hroom : room ≠ 0) {s s' : Streams} {b : Bytes}
    (h : readExactFormat room s = (.ok b, s')) : s'.reader.size < s.reader.size := by
  unfold readExactFormat liftRead at h
  rcases hr : s.reader.readExact room with ⟨e | c, r'⟩ <;> simp only [hr] at h <;> cases h
  exact Reader.readExact_size hroom hr

end Ironlock
