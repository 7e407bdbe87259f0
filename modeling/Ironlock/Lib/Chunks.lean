import Mathlib.Data.List.Basic

/-! A list cut into pieces of one length, the last of them possibly shorter. -/

namespace Chunks

variable {α : Type} {n : Nat} {l : List α}

/-- The pieces of `l`, `n` elements each as long as there are so many. -/
def chunks (n : Nat) (l : List α) : List (List α) :=
  if _h : n = 0 ∨ l = [] then [] else l.take n :: chunks n (l.drop n)
termination_by l.length
decreasing_by
  obtain ⟨hn, hl⟩ := not_or.1 _h
  have := List.length_pos_of_ne_nil hl
  simp only [List.length_drop]
  omega

@[simp] theorem chunks_nil : chunks n ([] : List α) = [] := by simp [chunks]

theorem chunks_cons (hn : n ≠ 0) (hl : l ≠ []) : chunks n l = l.take n :: chunks n (l.drop n) := by
  rw [chunks, dif_neg (not_or.2 ⟨hn, hl⟩)]

theorem chunks_of_le (hl : l ≠ []) (hle : l.length ≤ n) : chunks n l = [l] := by
  have := List.length_pos_of_ne_nil hl
  rw [chunks_cons (by omega) hl, List.take_of_length_le hle, List.drop_of_length_le hle, chunks_nil]

theorem flatten_chunks (hn : n ≠ 0) (l : List α) : (chunks n l).flatten = l := by
  fun_induction chunks n l with
  | case1 l h => simpa [hn, eq_comm] using h
  | case2 l h ih => rw [List.flatten_cons, ih, List.take_append_drop]

theorem ne_nil_of_mem {c : List α} (hc : c ∈ chunks n l) : c ≠ [] := by
  fun_induction chunks n l with
  | case1 l h => cases hc
  | case2 l h ih =>
    rcases List.mem_cons.1 hc with rfl | hc
    · simpa using h
    · exact ih hc

/-- Only the last piece may be shorter. -/
theorem length_eq_of_mem_dropLast {c : List α} (hc : c ∈ (chunks n l).dropLast) : c.length = n := by
  fun_induction chunks n l with
  | case1 l h => cases hc
  | case2 l h ih =>
    by_cases hrest : l.drop n = []
    · simp [hrest] at hc
    · obtain ⟨hn, -⟩ := not_or.1 h
      rw [chunks_cons hn hrest, List.dropLast_cons_cons, List.mem_cons, ← chunks_cons hn hrest] at hc
      rcases hc with rfl | hc
      · rw [List.drop_eq_nil_iff] at hrest
        rw [List.length_take]
        omega
      · exact ih hc

theorem length_chunks (hn : n ≠ 0) (l : List α) :
    (chunks n l).length = (l.length + (n - 1)) / n := by
  fun_induction chunks n l with
  | case1 l h =>
    obtain rfl : l = [] := h.resolve_left hn
    exact (Nat.div_eq_of_lt (by simp; omega)).symm
  | case2 l h ih =>
    have hpos : 0 < n := Nat.pos_of_ne_zero hn
    rw [List.length_cons, ih, ← Nat.add_div_right _ hpos, List.length_drop]
    rcases Nat.le_total n l.length with hle | hle
    · congr 1; omega
    · have hl := List.length_pos_of_ne_nil (not_or.1 h).2
      rw [Nat.div_eq_of_lt_le (k := 1), Nat.div_eq_of_lt_le (k := 1)] <;> omega

end Chunks
