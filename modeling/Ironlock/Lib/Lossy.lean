import Ironlock.Lib.Utf8

/-! What lossy decoding loses: which byte strings are decoded to the same text. -/

namespace Utf8
open ByteOrder (Bytes)

/-- The places that a character begun still needs after some more bytes of it. -/
def left : List Range → Bytes → Option (List Range)
  | due, [] => some due
  | [], _ :: _ => none
  | r :: due, b :: rest => if r.has b then left due rest else none

/-- A well-formed character. -/
inductive Char : Bytes → Prop
  | mk {b : UInt8} {due : List Range} {tail : Bytes} : follows b = some due → left due tail = some [] →
      Char (b :: tail)

/-- An ill-formed sequence as far as a decoder reads it before `rest`: a byte
that no character starts with, or a character that `rest` does not go on with. -/
inductive Ill (rest : Bytes) : Bytes → Prop
  | byte {b : UInt8} : follows b = none → Ill rest [b]
  | cut {b : UInt8} {due due' : List Range} {r : Range} {tail : Bytes} : follows b = some due →
      left due tail = some (r :: due') → (∀ c ∈ rest.head?, r.has c = false) → Ill rest (b :: tail)

/-- The same characters in the same order, but for ill-formed sequences, which
stand for U+FFFD and for one another. -/
inductive Blurred : Bytes → Bytes → Prop
  | nil : Blurred [] []
  | char {c a b : Bytes} : Char c → Blurred a b → Blurred (c ++ a) (c ++ b)
  | blur {x y a b : Bytes} : Ill a x ∨ x = replacement → Ill b y ∨ y = replacement → Blurred a b →
      Blurred (x ++ a) (y ++ b)

section
variable {a b c x rest tail held : Bytes} {due due' : List Range} {r : Range}

@[simp] theorem left_nil : left due [] = some due := by cases due <;> rfl

theorem left_length (h : left due tail = some due') : due.length = tail.length + due'.length := by
  induction tail generalizing due with
  | nil =>
    rw [left_nil] at h
    cases h
    simp
  | cons b tail ih =>
    cases due with
    | nil => cases h
    | cons r due =>
      simp only [left] at h
      split at h
      · have := ih h
        simp only [List.length_cons]
        omega
      · cases h

/-! ## Decoding one character -/

/-- Bytes that go on with a character are held until it is complete. -/
theorem lossyFrom_held (h : left due tail = some (r :: due')) :
    lossyFrom ⟨held, due⟩ (tail ++ rest) = lossyFrom ⟨held ++ tail, r :: due'⟩ rest := by
  induction tail generalizing due held with
  | nil =>
    rw [left_nil] at h
    cases h
    simp
  | cons b tail ih =>
    cases due with
    | nil => cases h
    | cons q due =>
      simp only [left] at h
      split at h
      · rename_i hb
        cases due with
        | nil =>
          have := left_length h
          simp at this
        | cons q' due =>
          have := @ih (held ++ [b]) _ h
          simpa [lossyFrom, lossyStep, hb] using this
      · cases h

theorem lossyFrom_complete (hdue : due ≠ []) (h : left due tail = some []) :
    lossyFrom ⟨held, due⟩ (tail ++ rest) = held ++ tail ++ lossy rest := by
  induction tail generalizing due held with
  | nil =>
    rw [left_nil] at h
    cases h
    exact absurd rfl hdue
  | cons b tail ih =>
    cases due with
    | nil => cases h
    | cons q due =>
      simp only [left] at h
      split at h
      · rename_i hb
        cases due with
        | nil =>
          cases tail with
          | nil => simp [lossyFrom, lossyStep, hb, lossy]
          | cons => cases h
        | cons q' due =>
          have := @ih (held ++ [b]) _ (by simp) h
          simpa [lossyFrom, lossyStep, hb] using this
      · cases h

theorem lossy_char (h : Char c) : lossy (c ++ a) = c ++ lossy a := by
  cases h with
  | @mk b due tail hb hleft =>
    cases due with
    | nil =>
      cases tail with
      | nil => simp [lossy, lossyFrom, lossyStep, Pending.none, lossyStart, hb]
      | cons => cases hleft
    | cons r due =>
      have := @lossyFrom_complete a tail [b] (r :: due) (by simp) hleft
      simpa [lossy, lossyFrom, lossyStep, Pending.none, lossyStart, hb] using this

theorem lossy_ill (h : Ill a x) : lossy (x ++ a) = replacement ++ lossy a := by
  cases h with
  | byte hb => simp [lossy, lossyFrom, lossyStep, Pending.none, lossyStart, hb]
  | @cut b due due' r tail hb hleft hrest =>
    have hlength := left_length hleft
    cases due with
    | nil => simp at hlength
    | cons q due =>
      have hheld := @lossyFrom_held a tail [b] _ _ _ hleft
      have hcut : lossyFrom ⟨[b] ++ tail, r :: due'⟩ a = replacement ++ lossy a := by
        cases a with
        | nil => simp [lossy, lossyFrom, Pending.none]
        | cons c a =>
          have hc : r.has c = false := hrest c rfl
          simp [lossy, lossyFrom, lossyStep, hc, Pending.none]
      rw [hcut] at hheld
      simpa [lossy, lossyFrom, lossyStep, Pending.none, lossyStart, hb] using hheld

theorem replacement_char : Char replacement := by
  have hfirst : follows 0xEF = some [anyTail, anyTail] := by decide
  exact .mk hfirst (by decide)

/-! ## Decoding a string -/

/-- What is read first: a character, or an ill-formed sequence. -/
theorem split_first (h : a ≠ []) : ∃ x rest, a = x ++ rest ∧ x ≠ [] ∧ (Char x ∨ Ill rest x) := by
  have hscan (due : List Range) (t : Bytes) : ∃ tail rest, t = tail ++ rest ∧ (left due tail = some [] ∨
      ∃ r due', left due tail = some (r :: due') ∧ ∀ c ∈ rest.head?, r.has c = false) := by
    induction due generalizing t with
    | nil => exact ⟨[], t, rfl, .inl rfl⟩
    | cons r due ih =>
      cases t with
      | nil => exact ⟨[], [], rfl, .inr ⟨r, due, rfl, by simp⟩⟩
      | cons c t =>
        by_cases hc : r.has c = true
        · obtain ⟨tail, rest, rfl, h⟩ := ih t
          exact ⟨c :: tail, rest, rfl, by simpa [left, hc] using h⟩
        · exact ⟨[], c :: t, rfl, .inr ⟨r, due, rfl, by simpa using hc⟩⟩
  cases a with
  | nil => exact absurd rfl h
  | cons b t =>
    rcases hb : follows b with _ | due
    · exact ⟨[b], t, rfl, by simp, .inr (.byte hb)⟩
    · obtain ⟨tail, rest, rfl, hleft | ⟨r, due', hleft, hrest⟩⟩ := hscan due t
      · exact ⟨b :: tail, rest, rfl, by simp, .inl (.mk hb hleft)⟩
      · exact ⟨b :: tail, rest, rfl, by simp, .inr (.cut hb hleft hrest)⟩

/-- Where one character ends is plain from its bytes. -/
theorem Char.unique {y s t : Bytes} (hx : Char x) (hy : Char y) (h : x ++ s = y ++ t) : x = y ∧ s = t := by
  cases hx with
  | mk hb hleft =>
    cases hy with
    | mk hb' hleft' =>
      rw [List.cons_append, List.cons_append, List.cons.injEq] at h
      obtain ⟨rfl, h⟩ := h
      rw [hb] at hb'
      cases hb'
      have hlength := (left_length hleft).symm.trans (left_length hleft')
      obtain ⟨rfl, rfl⟩ := List.append_inj h (by simpa using hlength)
      exact ⟨rfl, rfl⟩

theorem lossy_unreadable (h : Ill a x ∨ x = replacement) : lossy (x ++ a) = replacement ++ lossy a := by
  rcases h with h | rfl
  · exact lossy_ill h
  · exact lossy_char replacement_char

/-- What is read first, and what it is decoded to. -/
theorem lossy_first (h : a ≠ []) : ∃ x rest c, a = x ++ rest ∧ x ≠ [] ∧ Char c ∧
    lossy a = c ++ lossy rest ∧ (x = c ∨ c = replacement ∧ Ill rest x) := by
  obtain ⟨x, rest, rfl, hx, hchar | hill⟩ := split_first h
  · exact ⟨x, rest, x, rfl, hx, hchar, lossy_char hchar, .inl rfl⟩
  · exact ⟨x, rest, replacement, rfl, hx, replacement_char, lossy_ill hill, .inr ⟨rfl, hill⟩⟩

theorem Char.ne_nil (h : Char c) : c ≠ [] := by cases h; simp

theorem lossy_ne_nil (h : a ≠ []) : lossy a ≠ [] := by
  obtain ⟨x, rest, c, -, -, hc, heq, -⟩ := lossy_first h
  rw [heq]
  exact List.append_ne_nil_of_left_ne_nil hc.ne_nil _

/-- Two strings are decoded to the same text exactly when they are blurred. -/
theorem lossy_eq_iff : lossy a = lossy b ↔ Blurred a b := by
  constructor
  · intro h
    induction hn : a.length using Nat.strong_induction_on generalizing a b with
    | _ n ih =>
      by_cases ha : a = []
      · subst ha
        by_cases hb : b = []
        · rw [hb]
          exact .nil
        · exact absurd h.symm (lossy_ne_nil hb)
      · have hb : b ≠ [] := by
          rintro rfl
          exact lossy_ne_nil ha h
        obtain ⟨x, s, c, rfl, hx, hc, heq, hread⟩ := lossy_first ha
        obtain ⟨y, t, d, rfl, -, hd, heq', hread'⟩ := lossy_first hb
        rw [heq, heq'] at h
        obtain ⟨rfl, htail⟩ := hc.unique hd h
        have hlt : s.length < n := by
          have := List.length_pos_iff.2 hx
          rw [← hn, List.length_append]
          omega
        have hrest := ih _ hlt htail rfl
        rcases hread with rfl | ⟨rfl, hill⟩ <;> rcases hread' with rfl | ⟨hrep, hill'⟩
        · exact .char hc hrest
        · exact .blur (.inr hrep) (.inl hill') hrest
        · exact .blur (.inl hill) (.inr rfl) hrest
        · exact .blur (.inl hill) (.inl hill') hrest
  · intro h
    induction h with
    | nil => rfl
    | char hc _ ih => rw [lossy_char hc, lossy_char hc, ih]
    | blur hx hy _ ih => rw [lossy_unreadable hx, lossy_unreadable hy, ih]

/-! ## Around an ASCII byte -/

theorem lossyStep_clear {p : Pending} (h : Clear p.due) (b : UInt8) : Clear (lossyStep p b).2.due := by
  have hstart : Clear (lossyStart b).2.due := by
    unfold lossyStart
    split
    · simp [Clear, Pending.none]
    · rename_i due hb
      exact follows_clear hb
    · simp [Clear, Pending.none]
  unfold lossyStep
  split
  · exact hstart
  · rename_i r due hdue
    rw [hdue] at h
    split
    · split
      · simp [Clear, Pending.none]
      · exact h.tail
    · exact hstart

/-- An ASCII byte is decoded to itself, whatever stands around it. -/
theorem lossyFrom_ascii {p : Pending} (hp : Clear p.due) {s : UInt8} (hs : s < 0x80) :
    lossyFrom p (a ++ s :: b) = lossyFrom p a ++ s :: lossy b := by
  induction a generalizing p with
  | nil =>
    have hstart : lossyStart s = ([s], .none) := by simp [lossyStart, follows_ascii hs]
    rcases hdue : p.due with _ | ⟨r, due⟩
    · simp [lossyFrom, lossyStep, hdue, hstart, lossy]
    · have hno : r.has s = false := by
        have := hp r (by simp [hdue])
        simp only [Range.has, Bool.and_eq_false_iff, decide_eq_false_iff_not]
        exact .inl fun hle => absurd (UInt8.lt_of_lt_of_le hs this) (UInt8.not_lt.2 hle)
      simp [lossyFrom, lossyStep, hdue, hno, hstart, lossy]
  | cons c a ih =>
    simp only [List.cons_append, lossyFrom, ih (lossyStep_clear hp c), List.append_assoc]

theorem lossy_ascii {s : UInt8} (hs : s < 0x80) : lossy (a ++ s :: b) = lossy a ++ s :: lossy b :=
  lossyFrom_ascii (by simp [Clear, Pending.none]) hs

/-- Every byte decoded to was there or belongs to U+FFFD. -/
theorem mem_lossyFrom {p : Pending} {s : UInt8} (h : s ∈ lossyFrom p a) :
    s ∈ p.held ∨ s ∈ a ∨ s ∈ replacement := by
  have hstart {b : UInt8} (h : s ∈ (lossyStart b).1 ∨ s ∈ (lossyStart b).2.held) :
      s = b ∨ s ∈ replacement := by
    unfold lossyStart at h
    split at h <;> simp [Pending.none] at h <;> tauto
  have hstep {p : Pending} {b : UInt8} (h : s ∈ (lossyStep p b).1 ∨ s ∈ (lossyStep p b).2.held) :
      s ∈ p.held ∨ s = b ∨ s ∈ replacement := by
    unfold lossyStep at h
    split at h
    · exact .inr (hstart h)
    · split at h
      · split at h <;> simp [Pending.none] at h <;> tauto
      · rw [List.mem_append] at h
        have := @hstart b
        tauto
  induction a generalizing p with
  | nil =>
    simp only [lossyFrom] at h
    split at h
    · cases h
    · exact .inr (.inr h)
  | cons b a ih =>
    rw [lossyFrom, List.mem_append] at h
    have := @hstep p b
    have := @ih (lossyStep p b).2
    rw [List.mem_cons]
    tauto

end

end Utf8
