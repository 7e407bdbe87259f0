import Mathlib.Data.List.Induction
import Mathlib.Tactic.Ring

/-! Big-endian integers in byte strings. -/

namespace ByteOrder

abbrev Bytes := List UInt8

instance : LawfulBEq Bytes := inferInstance

/-- The low `n` bytes of `v`, most significant first. -/
def toBe : Nat → Nat → Bytes
  | 0, _ => []
  | n + 1, v => toBe n (v / 256) ++ [UInt8.ofNat v]

/-- The number a byte string spells, most significant byte first. -/
def ofBe (bytes : Bytes) : Nat := bytes.foldl (fun acc b => acc * 256 + b.toNat) 0

@[simp] theorem length_toBe (n v : Nat) : (toBe n v).length = n := by
  induction n generalizing v with
  | zero => rfl
  | succ n ih => simp [toBe, ih]

@[simp] theorem ofBe_nil : ofBe [] = 0 := rfl

theorem ofBe_concat (bytes : Bytes) (b : UInt8) : ofBe (bytes ++ [b]) = ofBe bytes * 256 + b.toNat := by
  simp [ofBe]

theorem ofBe_lt (bytes : Bytes) : ofBe bytes < 256 ^ bytes.length := by
  induction bytes using List.reverseRecOn with
  | nil => simp
  | append_singleton bytes b ih =>
    have hb := b.toNat_lt
    rw [ofBe_concat, List.length_append, List.length_singleton, Nat.pow_succ]
    omega

theorem ofBe_toBe {n v : Nat} (h : v < 256 ^ n) : ofBe (toBe n v) = v := by
  induction n generalizing v with
  | zero => simp at h; simp [toBe, h]
  | succ n ih =>
    have hdiv : v / 256 < 256 ^ n := by
      rw [Nat.pow_succ] at h
      exact Nat.div_lt_of_lt_mul (by omega)
    rw [toBe, ofBe_concat, ih hdiv, UInt8.toNat_ofNat']
    omega

theorem toBe_ofBe (bytes : Bytes) : toBe bytes.length (ofBe bytes) = bytes := by
  induction bytes using List.reverseRecOn with
  | nil => rfl
  | append_singleton bytes b ih =>
    have hb := b.toNat_lt
    have hq : (ofBe bytes * 256 + b.toNat) / 256 = ofBe bytes := by omega
    have hr : UInt8.ofNat (ofBe bytes * 256 + b.toNat) = b := by
      apply UInt8.toNat_inj.mp
      rw [UInt8.toNat_ofNat']
      omega
    rw [ofBe_concat, List.length_append, List.length_singleton, toBe, hq, hr, ih]

theorem toBe_ofBe_of_length {bytes : Bytes} {n : Nat} (h : bytes.length = n) :
    toBe n (ofBe bytes) = bytes := by subst h; exact toBe_ofBe bytes

/-- Numbers that fit in the field are told apart by their encodings. -/
theorem toBe_inj {n a b : Nat} (ha : a < 256 ^ n) (hb : b < 256 ^ n) (h : toBe n a = toBe n b) :
    a = b := by rw [← ofBe_toBe ha, ← ofBe_toBe hb, h]

end ByteOrder
