import Ironlock.Lib.ByteOrder

/-! UTF-8 as a byte automaton: which byte strings are well formed, and the
lossy decoding that puts U+FFFD where they are not. -/

namespace Utf8
open ByteOrder (Bytes)

/-- The bytes that may stand at one continuation place. -/
structure Range where
  lo : UInt8
  hi : UInt8
  deriving DecidableEq, Repr

def Range.has (r : Range) (b : UInt8) : Bool := r.lo ≤ b && b ≤ r.hi

/-- Any continuation byte. -/
def anyTail : Range := ⟨0x80, 0xBF⟩

/-- What must follow a first byte, or `none` for a byte no character starts
with. The narrower second-byte ranges exclude overlong forms, surrogates and
code points above U+10FFFF. -/
def follows (b : UInt8) : Option (List Range) :=
  if b < 0x80 then some []
  else if b < 0xC2 then none
  else if b < 0xE0 then some [anyTail]
  else if b = 0xE0 then some [⟨0xA0, 0xBF⟩, anyTail]
  else if b = 0xED then some [⟨0x80, 0x9F⟩, anyTail]
  else if b < 0xF0 then some [anyTail, anyTail]
  else if b = 0xF0 then some [⟨0x90, 0xBF⟩, anyTail, anyTail]
  else if b < 0xF4 then some [anyTail, anyTail, anyTail]
  else if b = 0xF4 then some [⟨0x80, 0x8F⟩, anyTail, anyTail]
  else none

/-- Well formed from the middle of a character that still needs `due`. -/
def validFrom : List Range → Bytes → Bool
  | [], [] => true
  | _ :: _, [] => false
  | [], b :: rest => match follows b with
    | some due => validFrom due rest
    | none => false
  | r :: due, b :: rest => r.has b && validFrom due rest

def valid (bytes : Bytes) : Bool := validFrom [] bytes

/-- U+FFFD. -/
def replacement : Bytes := [0xEF, 0xBF, 0xBD]

/-- The unfinished character a lossy decoder holds: its bytes so far and the
places still to fill. -/
structure Pending where
  held : Bytes
  due : List Range
  deriving DecidableEq, Repr

def Pending.none : Pending := ⟨[], []⟩

/-- A byte read at the start of a character. -/
def lossyStart (b : UInt8) : Bytes × Pending :=
  match follows b with
  | some [] => ([b], .none)
  | some due => ([], ⟨[b], due⟩)
  | Option.none => (replacement, .none)

/-- A byte that does not continue the character held turns what is held into
one replacement character and is read again as a first byte. -/
def lossyStep (p : Pending) (b : UInt8) : Bytes × Pending :=
  match p.due with
  | [] => lossyStart b
  | r :: due =>
    if r.has b then
      match due with
      | [] => (p.held ++ [b], .none)
      | _ => ([], ⟨p.held ++ [b], due⟩)
    else (replacement ++ (lossyStart b).1, (lossyStart b).2)

def lossyFrom : Pending → Bytes → Bytes
  | p, [] => if p.due = [] then [] else replacement
  | p, b :: rest => (lossyStep p b).1 ++ lossyFrom (lossyStep p b).2 rest

def lossy (bytes : Bytes) : Bytes := lossyFrom .none bytes

theorem follows_ascii {b : UInt8} (h : b < 0x80) : follows b = some [] := by simp [follows, h]

/-- No range of any character takes an ASCII byte. -/
def Clear (due : List Range) : Prop := ∀ r ∈ due, (0x80 : UInt8) ≤ r.lo

theorem follows_clear {b : UInt8} {due : List Range} (h : follows b = some due) : Clear due := by
  unfold follows at h
  split_ifs at h <;> cases h <;> simp [Clear, anyTail]

theorem Clear.tail {r : Range} {due : List Range} (h : Clear (r :: due)) : Clear due :=
  fun x hx => h x (List.mem_cons_of_mem _ hx)

/-- Well-formed strings compose. -/
theorem validFrom_append {due : List Range} {a b : Bytes} (ha : validFrom due a = true)
    (hb : valid b = true) : validFrom due (a ++ b) = true := by
  induction a generalizing due with
  | nil =>
    cases due with
    | nil => exact hb
    | cons r due => simp [validFrom] at ha
  | cons x a ih =>
    cases due with
    | nil =>
      cases hx : follows x with
      | none => simp [validFrom, hx] at ha
      | some due =>
        simp only [validFrom, hx] at ha
        simpa only [List.cons_append, validFrom, hx] using ih ha
    | cons r due =>
      simp only [validFrom, Bool.and_eq_true] at ha
      simp only [List.cons_append, validFrom, Bool.and_eq_true]
      exact ⟨ha.1, ih ha.2⟩

theorem valid_append {a b : Bytes} (ha : valid a = true) (hb : valid b = true) :
    valid (a ++ b) = true := validFrom_append ha hb

/-- An ASCII byte stands alone, so a well-formed string splits at it. -/
theorem validFrom_split (due : List Range) (hc : Clear due) {a b : Bytes} {x : UInt8}
    (hx : x < 0x80) (h : validFrom due (a ++ x :: b) = true) :
    validFrom due a = true ∧ valid b = true := by
  induction a generalizing due with
  | nil =>
    cases due with
    | nil =>
      simp only [List.nil_append, validFrom, follows_ascii hx] at h
      exact ⟨rfl, h⟩
    | cons r due =>
      simp only [List.nil_append, validFrom, Bool.and_eq_true, Range.has, decide_eq_true_eq] at h
      have := hc r (List.mem_cons_self ..)
      exact absurd (UInt8.lt_of_lt_of_le hx (UInt8.le_trans this h.1.1)) (UInt8.lt_irrefl _)
  | cons y a ih =>
    cases due with
    | nil =>
      cases hy : follows y with
      | none => simp [validFrom, hy] at h
      | some due =>
        simp only [List.cons_append, validFrom, hy] at h ⊢
        exact ih _ (follows_clear hy) h
    | cons r due =>
      simp only [List.cons_append, validFrom, Bool.and_eq_true] at h ⊢
      obtain ⟨hl, hr⟩ := ih _ hc.tail h.2
      exact ⟨⟨h.1, hl⟩, hr⟩

theorem valid_split {a b : Bytes} {x : UInt8} (hx : x < 0x80) (h : valid (a ++ x :: b) = true) :
    valid a = true ∧ valid b = true :=
  validFrom_split [] (fun _ h => nomatch h) hx h

theorem valid_intercalate {sep : Bytes} (hsep : valid sep = true) {parts : List Bytes}
    (h : ∀ b ∈ parts, valid b = true) : valid (sep.intercalate parts) = true := by
  rw [List.intercalate]
  induction parts with
  | nil => rfl
  | cons b parts ih =>
    have hrest := ih fun c hc => h c (List.mem_cons_of_mem _ hc)
    cases parts with
    | nil => simpa using h b List.mem_cons_self
    | cons c parts =>
      rw [List.intersperse_cons_cons, List.flatten_cons, List.flatten_cons]
      exact valid_append (h b List.mem_cons_self) (valid_append hsep hrest)

theorem valid_ascii {bytes : Bytes} (h : ∀ b ∈ bytes, b < 0x80) : valid bytes = true := by
  induction bytes with
  | nil => rfl
  | cons b bytes ih =>
    simp only [valid, validFrom, follows_ascii (h b (List.mem_cons_self ..))]
    exact ih fun x hx => h x (List.mem_cons_of_mem _ hx)

/-- From inside a character that the rest completes, the lossy decoder hands
on what it holds and the rest, untouched. -/
theorem lossyFrom_of_valid {p : Pending} {bytes : Bytes} (hp : p.due = [] → p.held = [])
    (h : validFrom p.due bytes = true) : lossyFrom p bytes = p.held ++ bytes := by
  induction bytes generalizing p with
  | nil =>
    cases hd : p.due with
    | nil => simp [lossyFrom, hd, hp hd]
    | cons r due => simp [hd, validFrom] at h
  | cons b bytes ih =>
    cases hd : p.due with
    | nil =>
      rw [hd] at h
      cases hb : follows b with
      | none => simp [validFrom, hb] at h
      | some due =>
        simp only [validFrom, hb] at h
        cases due with
        | nil =>
          have : lossyFrom .none bytes = bytes := ih (fun _ => rfl) h
          simp [lossyFrom, lossyStep, hd, lossyStart, hb, this, hp hd]
        | cons r due =>
          have := ih (p := ⟨[b], r :: due⟩) (fun h => nomatch h) h
          simp [lossyFrom, lossyStep, hd, lossyStart, hb, this, hp hd]
    | cons r due =>
      rw [hd] at h
      simp only [validFrom, Bool.and_eq_true] at h
      cases due with
      | nil =>
        have : lossyFrom .none bytes = bytes := ih (fun _ => rfl) h.2
        simp [lossyFrom, lossyStep, hd, h.1, this]
      | cons r' due =>
        have := ih (p := ⟨p.held ++ [b], r' :: due⟩) (fun h => nomatch h) h.2
        simp [lossyFrom, lossyStep, hd, h.1, this]

/-- Lossy decoding loses nothing of a well-formed string. -/
theorem lossy_of_valid {bytes : Bytes} (h : valid bytes = true) : lossy bytes = bytes :=
  lossyFrom_of_valid (p := .none) (fun _ => rfl) h

end Utf8
