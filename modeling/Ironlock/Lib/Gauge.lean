import Ironlock.Lib.Effect

/-! Programs that open handles and close them: how many are open, the most that
were open at once, and the limit at which opening another one fails. -/

namespace Effect

structure Gauge where
  live : Nat
  peak : Nat
  limit : Nat
  live_le : live ≤ peak

namespace Gauge

/-- Nothing is open. -/
def idle (limit : Nat) : Gauge := ⟨0, 0, limit, Nat.le_refl 0⟩

/-- One more handle is open. -/
def opened (g : Gauge) : Gauge := ⟨g.live + 1, max g.peak (g.live + 1), g.limit, Nat.le_max_right ..⟩

/-- Handles are closed until at most `n` are open. -/
def closedTo (g : Gauge) (n : Nat) : Gauge :=
  ⟨min g.live n, g.peak, g.limit, Nat.le_trans (Nat.min_le_left ..) g.live_le⟩

end Gauge

/-- A program that keeps a gauge of its handles beside its state. -/
abbrev Metered (σ ε α : Type) : Type := Eff (σ × Gauge) ε α

variable {σ ε α β : Type}

namespace Metered

/-- A program that leaves no handle open and closes none. -/
def free (m : Eff σ ε α) : Metered σ ε α := fun s => ((m s.1).1, ((m s.1).2, s.2))

/-- A program that opens one handle when it succeeds. It fails with `e` at the limit. -/
def opening (e : ε) (m : Eff σ ε α) : Metered σ ε α := fun s =>
  if s.2.limit ≤ s.2.live then (.error e, s)
  else match m s.1 with
    | (.ok a, t) => (.ok a, (t, s.2.opened))
    | (.error e, t) => (.error e, (t, s.2))

/-- Close so many handles. -/
def close (k : Nat) : Metered σ ε Unit := fun s => (.ok (), (s.1, s.2.closedTo (s.2.live - k)))

/-- A function body: whatever it opened is closed when it ends, but for the `k`
handles it returns. -/
def body (k : Nat) (m : Metered σ ε α) : Metered σ ε α := fun s =>
  match m s with
  | (.ok a, t) => (.ok a, (t.1, t.2.closedTo (s.2.live + k)))
  | (.error e, t) => (.error e, (t.1, t.2.closedTo s.2.live))

end Metered

/-- From `s` the metered program does what `n` does, as long as `b` more
handles may be open. It never has more than `b` more open, and not more than `k`
more when it returns. -/
def Uses (s : σ) (m : Metered σ ε α) (n : Eff σ ε α) (b k : Nat) : Prop :=
  ∀ g : Gauge, g.live + b ≤ g.limit → ∃ g' : Gauge, m (s, g) = ((n s).1, ((n s).2, g')) ∧
    g'.limit = g.limit ∧ g.peak ≤ g'.peak ∧ g'.peak ≤ max g.peak (g.live + b) ∧
    ∀ a, (n s).1 = .ok a → g'.live ≤ g.live + k

namespace Uses
open Metered

variable {s : σ} {m m' : Metered σ ε α} {n n' : Eff σ ε α} {b b' c d k l : Nat}

theorem mono (h : Uses s m n b k) (hb : b ≤ b') (hk : k ≤ l) : Uses s m n b' l := by
  intro g hg
  obtain ⟨g', hrun, hlimit, hpeak, hpeak', hlive⟩ := h g (by omega)
  exact ⟨g', hrun, hlimit, hpeak, by omega, fun a ha => Nat.le_trans (hlive a ha) (by omega)⟩

theorem pure (s : σ) (a : α) : Uses s (Pure.pure a : Metered σ ε α) (Pure.pure a) b k := by
  intro g _
  exact ⟨g, rfl, rfl, Nat.le_refl _, Nat.le_max_left .., fun _ _ => Nat.le_add_right ..⟩

theorem fail (s : σ) (e : ε) : Uses s (Eff.fail e : Metered σ ε α) (Eff.fail e) b k := by
  intro g _
  exact ⟨g, rfl, rfl, Nat.le_refl _, Nat.le_max_left .., nofun⟩

theorem ofExcept (s : σ) (r : Except ε α) : Uses s (Eff.ofExcept r : Metered σ ε α) (Eff.ofExcept r) b k := by
  intro g _
  exact ⟨g, rfl, rfl, Nat.le_refl _, Nat.le_max_left .., fun _ _ => Nat.le_add_right ..⟩

theorem free (s : σ) (n : Eff σ ε α) : Uses s (Metered.free n) n b k := by
  intro g _
  exact ⟨g, rfl, rfl, Nat.le_refl _, Nat.le_max_left .., fun _ _ => Nat.le_add_right ..⟩

theorem opening (s : σ) (e : ε) (n : Eff σ ε α) : Uses s (Metered.opening e n) n 1 1 := by
  intro g hg
  have hroom : ¬g.limit ≤ g.live := by omega
  rcases hn : n s with ⟨e' | a, t⟩
  · refine ⟨g, ?_, rfl, Nat.le_refl _, Nat.le_max_left .., nofun⟩
    simp only [Metered.opening, if_neg hroom, hn]
  · refine ⟨g.opened, ?_, rfl, Nat.le_max_left .., Nat.le_refl _, fun _ _ => Nat.le_refl _⟩
    simp only [Metered.opening, if_neg hroom, hn]

theorem body (h : Uses s m n b k) (l : Nat) : Uses s (Metered.body l m) n b l := by
  intro g hg
  obtain ⟨g', hrun, hlimit, hpeak, hpeak', -⟩ := h g hg
  rcases hn : n s with ⟨e | a, t⟩ <;> rw [hn] at hrun
  · refine ⟨g'.closedTo g.live, ?_, hlimit, hpeak, hpeak', nofun⟩
    simp only [Metered.body, hrun]
  · refine ⟨g'.closedTo (g.live + l), ?_, hlimit, hpeak, hpeak', fun _ _ => Nat.min_le_right ..⟩
    simp only [Metered.body, hrun]

theorem bind {f : α → Metered σ ε β} {h : α → Eff σ ε β} (hm : Uses s m n b k)
    (hf : ∀ a t, n s = (.ok a, t) → Uses t (f a) (h a) c l) (hb : b ≤ d) (hc : k + c ≤ d) :
    Uses s (m >>= f) (n >>= h) d (k + l) := by
  intro g hg
  obtain ⟨g₁, hrun, hlimit, hpeak, hpeak', hlive⟩ := hm g (by omega)
  rcases hn : n s with ⟨e | a, t⟩ <;> rw [hn] at hrun
  · rw [Eff.bind_error hn, Eff.bind_error hrun]
    exact ⟨g₁, rfl, hlimit, hpeak, by omega, nofun⟩
  · have hlive₁ := hlive a (by rw [hn])
    obtain ⟨g₂, hrun₂, hlimit₂, hpeak₂, hpeak₂', hlive₂⟩ := hf a t hn g₁ (by omega)
    rw [Eff.bind_ok hn, Eff.bind_ok hrun]
    refine ⟨g₂, hrun₂, hlimit₂.trans hlimit, Nat.le_trans hpeak hpeak₂, by omega, fun x hx => ?_⟩
    have := hlive₂ x hx
    omega

/-- What opens nothing may come first. -/
theorem free_bind {f : α → Metered σ ε β} {h : α → Eff σ ε β}
    (hf : ∀ a t, n s = (.ok a, t) → Uses t (f a) (h a) b k) : Uses s (Metered.free n >>= f) (n >>= h) b k := by
  have := (free (b := 0) (k := 0) s n).bind hf (Nat.zero_le b) (Nat.le_of_eq (Nat.zero_add b))
  rwa [Nat.zero_add] at this

theorem opening_bind {e : ε} {f : α → Metered σ ε β} {h : α → Eff σ ε β}
    (hf : ∀ a t, n s = (.ok a, t) → Uses t (f a) (h a) b k) :
    Uses s (Metered.opening e n >>= f) (n >>= h) (b + 1) (k + 1) := by
  have := (opening s e n).bind hf (Nat.le_add_left 1 b) (Nat.le_of_eq (Nat.add_comm 1 b))
  rwa [Nat.add_comm 1 k] at this

/-- Handles closed are not counted on. -/
theorem close_bind {f : Unit → Metered σ ε β} {h : Eff σ ε β} (hf : Uses s (f ()) h b k) (j : Nat) :
    Uses s (Metered.close j >>= f) h b k := by
  intro g hg
  have hle : (g.closedTo (g.live - j)).live ≤ g.live := Nat.min_le_left ..
  obtain ⟨g', hrun, hlimit, hpeak, hpeak', hlive⟩ :=
    hf (g.closedTo (g.live - j)) (Nat.le_trans (Nat.add_le_add_right hle b) hg)
  refine ⟨g', hrun, hlimit, hpeak, Nat.le_trans hpeak' ?_, fun a ha => Nat.le_trans (hlive a ha) ?_⟩
  · change max g.peak _ ≤ _
    omega
  · exact Nat.add_le_add_right hle k

/-- The peak of the first part is reached by the whole. -/
theorem peak_le {f : α → Metered σ ε β} {h : Eff σ ε β} {g g' : Gauge} {a : α} {t : σ}
    (hf : Uses t (f a) h c l) (hm : m (s, g) = (.ok a, (t, g'))) (hc : g'.live + c ≤ g'.limit) :
    g'.peak ≤ ((m >>= f) (s, g)).2.2.peak := by
  obtain ⟨g'', hrun, -, hpeak, -⟩ := hf g' hc
  rw [Eff.bind_ok hm, hrun]
  exact hpeak

theorem ite {p : Prop} [Decidable p] (hm : p → Uses s m n b k) (hn : ¬p → Uses s m' n' b k) :
    Uses s (if p then m else m') (if p then n else n') b k := by
  split
  · exact hm ‹_›
  · exact hn ‹_›

/-- A cleanup that opens nothing. -/
theorem onError (h : Uses s m n b k) (cleanup : Eff σ ε Unit) :
    Uses s (Eff.onError m (Metered.free cleanup)) (Eff.onError n cleanup) b k := by
  intro g hg
  obtain ⟨g', hrun, hlimit, hpeak, hpeak', hlive⟩ := h g hg
  rcases hn : n s with ⟨e | a, t⟩ <;> rw [hn] at hrun hlive
  · rw [Eff.onError_error hn, Eff.onError_error hrun]
    exact ⟨g', rfl, hlimit, hpeak, hpeak', nofun⟩
  · rw [Eff.onError_ok hn, Eff.onError_ok hrun]
    exact ⟨g', rfl, hlimit, hpeak, hpeak', hlive⟩

theorem body_peak (k : Nat) (m : Metered σ ε α) (x : σ × Gauge) :
    (Metered.body k m x).2.2.peak = (m x).2.2.peak := by
  rcases hm : m x with ⟨e | a, t⟩ <;> simp only [Metered.body, hm] <;> rfl

/-- A function body that fails has closed what it opened. -/
theorem body_error {g g' : Gauge} {e : ε} {t : σ} (h : Metered.body k m (s, g) = (.error e, (t, g'))) :
    g'.live ≤ g.live := by
  rcases hm : m (s, g) with ⟨e' | a, u⟩ <;> simp only [Metered.body, hm] at h <;> cases h
  exact Nat.min_le_right ..

theorem attempt (h : Uses s m n b k)
    (herror : ∀ g e t g', m (s, g) = (.error e, (t, g')) → g'.live ≤ g.live + k) :
    Uses s (Eff.attempt m : Metered σ ε _) (Eff.attempt n) b k := by
  intro g hg
  obtain ⟨g', hrun, hlimit, hpeak, hpeak', hlive⟩ := h g hg
  refine ⟨g', ?_, hlimit, hpeak, hpeak', fun _ _ => ?_⟩
  · simp only [Eff.attempt, hrun]
  · rcases hn : n s with ⟨e | a, t⟩ <;> rw [hn] at hrun hlive
    · exact herror g e t g' hrun
    · exact hlive a rfl

end Uses

/-- When `m` returns `a` it has `j` more handles open, for a `j` with `Q a j`. -/
def Leaves (m : Metered σ ε α) (Q : α → Nat → Prop) : Prop :=
  ∀ s g a t g', m (s, g) = (.ok a, (t, g')) → ∃ j, g'.live = g.live + j ∧ Q a j

namespace Leaves

variable {m m' : Metered σ ε α} {n : Eff σ ε α} {f : α → Metered σ ε β} {Q : α → Nat → Prop}
  {R : β → Nat → Prop} {k : Nat}

theorem pure {a : α} (h : Q a 0) : Leaves (Pure.pure a : Metered σ ε α) Q := by
  rintro s g a t g' hrun
  cases hrun
  exact ⟨0, rfl, h⟩

theorem fail (e : ε) : Leaves (Eff.fail e : Metered σ ε α) Q := nofun

theorem ofExcept {r : Except ε α} (h : ∀ a, r = .ok a → Q a 0) : Leaves (Eff.ofExcept r : Metered σ ε α) Q := by
  intro s g a t g' hrun
  cases r with
  | error e => cases hrun
  | ok b =>
    cases hrun
    exact ⟨0, rfl, h _ rfl⟩

theorem free (n : Eff σ ε α) (h : ∀ a, Q a 0) : Leaves (Metered.free n) Q := by
  intro s g a t g' hrun
  have : g' = g := (congrArg (fun r => r.2.2) hrun).symm
  exact ⟨0, by rw [this, Nat.add_zero], h a⟩

theorem opening (e : ε) (n : Eff σ ε α) : Leaves (Metered.opening e n) fun _ j => j = 1 := by
  intro s g a t g' hrun
  simp only [Metered.opening] at hrun
  split at hrun
  · cases hrun
  · rcases hn : n s with ⟨e' | b, u⟩ <;> rw [hn] at hrun <;> cases hrun
    exact ⟨1, rfl, rfl⟩

theorem bind (hm : Leaves m Q) (hf : ∀ a i, Q a i → Leaves (f a) fun b j => R b (i + j)) :
    Leaves (m >>= f) R := by
  intro s g b u g' hrun
  obtain ⟨a, ⟨t, g₁⟩, hma, hfa⟩ := Eff.bind_eq_ok.1 hrun
  obtain ⟨i, hi, ha⟩ := hm s g a t g₁ hma
  obtain ⟨j, hj, hb⟩ := hf a i ha t g₁ b u g' hfa
  exact ⟨i + j, by rw [hj, hi, Nat.add_assoc], hb⟩

theorem free_bind (hf : ∀ a, Leaves (f a) R) : Leaves (Metered.free n >>= f) R := by
  refine (free (Q := fun _ j => j = 0) n fun _ => rfl).bind fun a i hi => ?_
  rw [hi]
  simp only [Nat.zero_add]
  exact hf a

theorem ite {p : Prop} [Decidable p] (hm : p → Leaves m Q) (hn : ¬p → Leaves m' Q) :
    Leaves (if p then m else m') Q := by
  split
  · exact hm ‹_›
  · exact hn ‹_›

theorem peak_ge (h : Leaves m Q) {s t : σ} {g g' : Gauge} {a : α} (hrun : m (s, g) = (.ok a, (t, g'))) :
    ∃ j, Q a j ∧ g.live + j ≤ g'.peak := by
  obtain ⟨j, hj, ha⟩ := h s g a t g' hrun
  exact ⟨j, ha, hj ▸ g'.live_le⟩

/-- What a body left open that it does not return has been closed. -/
theorem body (h : Leaves m Q) (hk : ∀ a j, Q a j → k ≤ j) : Leaves (Metered.body k m) fun _ j => j = k := by
  intro s g a t g' hrun
  rcases hm : m (s, g) with ⟨e | b, u, g₁⟩ <;> simp only [Metered.body, hm] at hrun <;> cases hrun
  obtain ⟨j, hj, hb⟩ := h s g a _ g₁ hm
  refine ⟨k, ?_, rfl⟩
  have := hk a j hb
  change min g₁.live (g.live + k) = _
  omega

end Leaves

end Effect
