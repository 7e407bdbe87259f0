import Mathlib.Order.Defs.Unbundled

/-! Fallible programs over a state, and the rules for reasoning about them.
A failing program keeps the state it reached, so what happened before the
failure is part of what can be proved about it. -/

namespace Effect

/-- A program over the state `σ` that returns an `α` or fails with an `ε`. -/
def Eff (σ ε α : Type) : Type := σ → Except ε α × σ

variable {σ ε α β γ : Type}

namespace Eff

def pure (a : α) : Eff σ ε α := fun s => (.ok a, s)

def bind (m : Eff σ ε α) (f : α → Eff σ ε β) : Eff σ ε β := fun s =>
  match m s with
  | (.ok a, t) => f a t
  | (.error e, t) => (.error e, t)

instance : Monad (Eff σ ε) where
  pure := Eff.pure
  bind := Eff.bind

def fail (e : ε) : Eff σ ε α := fun s => (.error e, s)

/-- The state as it is. -/
def get : Eff σ ε σ := fun s => (.ok s, s)

/-- Change the state and return a value. -/
def modifyGet (f : σ → α × σ) : Eff σ ε α := fun s => (.ok (f s).1, (f s).2)

def ofExcept (r : Except ε α) : Eff σ ε α := fun s => (r, s)

/-- Run a program and hand its outcome on as a value. -/
def attempt (m : Eff σ ε α) : Eff σ ε (Except ε α) := fun s => (.ok (m s).1, (m s).2)

/-- Run `cleanup` when `m` fails, and fail as `m` did. -/
def onError (m : Eff σ ε α) (cleanup : Eff σ ε Unit) : Eff σ ε α := fun s =>
  match m s with
  | (.ok a, t) => (.ok a, t)
  | (.error e, t) => (.error e, (cleanup t).2)

/-- The same program with its errors renamed. -/
def mapError {ε' : Type} (f : ε → ε') (m : Eff σ ε α) : Eff σ ε' α := fun s =>
  match m s with
  | (.ok a, t) => (.ok a, t)
  | (.error e, t) => (.error (f e), t)

theorem pure_apply (a : α) (s : σ) : (Pure.pure a : Eff σ ε α) s = (.ok a, s) := rfl

theorem bind_apply (m : Eff σ ε α) (f : α → Eff σ ε β) (s : σ) :
    (m >>= f) s = match m s with
      | (.ok a, t) => f a t
      | (.error e, t) => (.error e, t) := rfl

theorem bind_ok {m : Eff σ ε α} {s t : σ} {a : α} (h : m s = (.ok a, t)) (f : α → Eff σ ε β) :
    (m >>= f) s = f a t := by rw [bind_apply, h]

theorem bind_error {m : Eff σ ε α} {s t : σ} {e : ε} (h : m s = (.error e, t))
    (f : α → Eff σ ε β) : (m >>= f) s = (.error e, t) := by rw [bind_apply, h]

protected theorem id_map (m : Eff σ ε α) : (id <$> m : Eff σ ε α) = m := by
  funext s
  change (m >>= fun a => Pure.pure (id a)) s = m s
  rcases hm : m s with ⟨e | a, t⟩
  · rw [bind_error hm]
  · rw [bind_ok hm]
    rfl

protected theorem bind_assoc (m : Eff σ ε α) (f : α → Eff σ ε β) (g : β → Eff σ ε γ) :
    m >>= f >>= g = m >>= fun a => f a >>= g := by
  funext s
  rcases hm : m s with ⟨e | a, t⟩
  · rw [bind_error (bind_error hm f), bind_error hm]
  · rw [bind_ok hm]
    rcases hf : f a t with ⟨e | b, u⟩
    · rw [bind_error ((bind_ok hm f).trans hf), bind_error hf]
    · rw [bind_ok ((bind_ok hm f).trans hf), bind_ok hf]

instance : LawfulMonad (Eff σ ε) :=
  LawfulMonad.mk' _ Eff.id_map (fun _ _ => rfl) Eff.bind_assoc

/-- A run that is seen to return. -/
theorem run_eq_ok {m : Eff σ ε α} {s : σ} {a : α} (h : (m s).1.toOption = some a) :
    m s = (.ok a, (m s).2) := by
  rcases hm : m s with ⟨_ | b, t⟩ <;> rw [hm] at h <;> cases h
  rfl

/-- A sequence succeeds exactly when both of its parts do. -/
theorem bind_eq_ok {m : Eff σ ε α} {f : α → Eff σ ε β} {s u : σ} {b : β} :
    (m >>= f) s = (.ok b, u) ↔ ∃ a t, m s = (.ok a, t) ∧ f a t = (.ok b, u) := by
  rw [bind_apply]
  rcases hm : m s with ⟨_ | a, t⟩
  · simp
  · constructor
    · exact fun h => ⟨a, t, rfl, h⟩
    · rintro ⟨_, _, heq, h⟩
      cases heq
      exact h

/-- A sequence fails in its first part, or in its second after the first. -/
theorem bind_eq_error {m : Eff σ ε α} {f : α → Eff σ ε β} {s u : σ} {e : ε} :
    (m >>= f) s = (.error e, u) ↔
      m s = (.error e, u) ∨ ∃ a t, m s = (.ok a, t) ∧ f a t = (.error e, u) := by
  rw [bind_apply]
  rcases hm : m s with ⟨_ | a, t⟩
  · simp
  · constructor
    · exact fun h => .inr ⟨a, t, rfl, h⟩
    · rintro (h | ⟨_, _, heq, h⟩)
      · cases h
      · cases heq
        exact h

@[simp] theorem fail_apply (e : ε) (s : σ) : (fail e : Eff σ ε α) s = (.error e, s) := rfl

@[simp] theorem ofExcept_apply (r : Except ε α) (s : σ) : ofExcept r s = (r, s) := rfl

@[simp] theorem get_apply (s : σ) : (get : Eff σ ε σ) s = (.ok s, s) := rfl

theorem onError_ok {m : Eff σ ε α} {c : Eff σ ε Unit} {s t : σ} {a : α}
    (h : m s = (.ok a, t)) : onError m c s = (.ok a, t) := by simp [onError, h]

theorem onError_error {m : Eff σ ε α} {c : Eff σ ε Unit} {s t : σ} {e : ε}
    (h : m s = (.error e, t)) : onError m c s = (.error e, (c t).2) := by simp [onError, h]

theorem onError_eq_ok {m : Eff σ ε α} {c : Eff σ ε Unit} {s t : σ} {a : α} :
    onError m c s = (.ok a, t) ↔ m s = (.ok a, t) := by
  rcases hm : m s with ⟨e | b, u⟩
  · simp [onError_error hm]
  · rw [onError_ok hm]

theorem mapError_ok {ε' : Type} {f : ε → ε'} {m : Eff σ ε α} {s t : σ} {a : α}
    (h : m s = (.ok a, t)) : mapError f m s = (.ok a, t) := by simp [mapError, h]

end Eff

/-! ## Triples -/

/-- From a state in `P`, `m` returns into `Q` or fails into `E`. -/
def Triple (P : σ → Prop) (m : Eff σ ε α) (Q : α → σ → Prop) (E : ε → σ → Prop) : Prop :=
  ∀ s, P s → match m s with
    | (.ok a, t) => Q a t
    | (.error e, t) => E e t

namespace Triple

variable {P : σ → Prop} {Q : α → σ → Prop} {R : β → σ → Prop} {E : ε → σ → Prop}

theorem ok {m : Eff σ ε α} {s t : σ} {a : α} (h : Triple P m Q E) (hs : P s)
    (hm : m s = (.ok a, t)) : Q a t := by
  have := h s hs; rwa [hm] at this

theorem error {m : Eff σ ε α} {s t : σ} {e : ε} (h : Triple P m Q E) (hs : P s)
    (hm : m s = (.error e, t)) : E e t := by
  have := h s hs; rwa [hm] at this

theorem pure {a : α} (h : ∀ s, P s → Q a s) : Triple P (Pure.pure a : Eff σ ε α) Q E := h

theorem fail {e : ε} (h : ∀ s, P s → E e s) : Triple P (Eff.fail e : Eff σ ε α) Q E := h

theorem bind {m : Eff σ ε α} {f : α → Eff σ ε β} (hm : Triple P m Q E)
    (hf : ∀ a, Triple (Q a) (f a) R E) : Triple P (m >>= f) R E := by
  intro s hs
  have h := hm s hs
  rw [Eff.bind_apply]
  rcases hms : m s with ⟨e | a, t⟩ <;> rw [hms] at h
  · exact h
  · exact hf a t h

theorem consequence {m : Eff σ ε α} {P' : σ → Prop} {Q' : α → σ → Prop} {E' : ε → σ → Prop}
    (h : Triple P m Q E) (hP : ∀ s, P' s → P s) (hQ : ∀ a s, Q a s → Q' a s)
    (hE : ∀ e s, E e s → E' e s) : Triple P' m Q' E' := by
  intro s hs
  have := h s (hP s hs)
  rcases hms : m s with ⟨e | a, t⟩ <;> rw [hms] at this
  · exact hE e t this
  · exact hQ a t this

theorem post {m : Eff σ ε α} {Q' : α → σ → Prop} (h : Triple P m Q E)
    (hQ : ∀ a s, Q a s → Q' a s) : Triple P m Q' E :=
  h.consequence (fun _ => id) hQ fun _ _ => id

/-- A fact that does not mention the state can be assumed. -/
theorem assuming {m : Eff σ ε α} {p : Prop} (h : p → Triple P m Q E) :
    Triple (fun s => p ∧ P s) m Q E := fun s hs => h hs.1 s hs.2

theorem ite {m n : Eff σ ε α} {c : Prop} [Decidable c] (hm : c → Triple P m Q E)
    (hn : ¬c → Triple P n Q E) : Triple P (if c then m else n) Q E := by
  split
  · exact hm ‹_›
  · exact hn ‹_›

theorem attempt {m : Eff σ ε α} {Q' : Except ε α → σ → Prop}
    (h : Triple P m (fun a => Q' (.ok a)) (fun e => Q' (.error e))) :
    Triple P (Eff.attempt m : Eff σ ε (Except ε α)) Q' E := by
  intro s hs
  have := h s hs
  show Q' (m s).1 (m s).2
  rcases hms : m s with ⟨e | a, t⟩ <;> rw [hms] at this <;> exact this

/-- A failing program ends where its cleanup leaves the state, whether or not
the cleanup itself fails. -/
theorem onError {m : Eff σ ε α} {c : Eff σ ε Unit} {E' : ε → σ → Prop}
    (hm : Triple P m Q E') (hc : ∀ e, Triple (E' e) c (fun _ => E e) fun _ => E e) :
    Triple P (Eff.onError m c) Q E := by
  intro s hs
  have h := hm s hs
  rcases hms : m s with ⟨e | a, t⟩ <;> rw [hms] at h
  · have hct := hc e t h
    rw [Eff.onError_error hms]
    rcases hcs : c t with ⟨_ | _, u⟩ <;> rw [hcs] at hct <;> exact hct
  · rw [Eff.onError_ok hms]; exact h

theorem mapError {ε' : Type} {f : ε → ε'} {m : Eff σ ε α} {E' : ε' → σ → Prop}
    (hm : Triple P m Q fun e => E' (f e)) : Triple P (Eff.mapError f m) Q E' := by
  intro s hs
  have h := hm s hs
  rcases hms : m s with ⟨e | a, t⟩ <;> rw [hms] at h <;> simpa [Eff.mapError, hms] using h

/-- What holds of every outcome separately holds of both together. -/
theorem and {m : Eff σ ε α} {Q' : α → σ → Prop} {E' : ε → σ → Prop} (h : Triple P m Q E)
    (h' : Triple P m Q' E') :
    Triple P m (fun a s => Q a s ∧ Q' a s) (fun e s => E e s ∧ E' e s) := by
  intro s hs
  have := h s hs
  have h' := h' s hs
  rcases hms : m s with ⟨e | a, t⟩ <;> rw [hms] at this h' <;> exact ⟨this, h'⟩

end Triple

/-! ## Programs within a preorder -/

/-- Whatever its outcome, `m` moves the state along `R`. -/
def Within (R : σ → σ → Prop) (m : Eff σ ε α) : Prop := ∀ s, R s (m s).2

namespace Within

variable {R : σ → σ → Prop}

theorem run {m : Eff σ ε α} (hm : Within R m) {s t : σ} {r : Except ε α} (h : m s = (r, t)) :
    R s t := by
  have := hm s; rwa [h] at this

theorem ite {c : Prop} [Decidable c] {m n : Eff σ ε α} (hm : Within R m) (hn : Within R n) :
    Within R (if c then m else n) := by split <;> assumption

theorem mono {m : Eff σ ε α} {R' : σ → σ → Prop} (hm : Within R m) (hR : ∀ s t, R s t → R' s t) :
    Within R' m := fun s => hR s (m s).2 (hm s)

variable [IsPreorder σ R]

theorem pure (a : α) : Within R (Pure.pure a : Eff σ ε α) := fun s => refl_of R s

theorem fail (e : ε) : Within R (Eff.fail e : Eff σ ε α) := fun s => refl_of R s

theorem get : Within R (Eff.get : Eff σ ε σ) := fun s => refl_of R s

theorem ofExcept (r : Except ε α) : Within R (Eff.ofExcept r : Eff σ ε α) := fun s => refl_of R s

theorem bind {m : Eff σ ε α} {f : α → Eff σ ε β} (hm : Within R m) (hf : ∀ a, Within R (f a)) :
    Within R (m >>= f) := by
  intro s
  rcases h : m s with ⟨e | a, t⟩
  · rw [Eff.bind_error h]; exact hm.run h
  · rw [Eff.bind_ok h]; exact trans_of R (hm.run h) (hf a t)

end Within

/-! ## Outcomes that a view of the state decides -/

/-- Wherever `view` shows `x`, `m` ends in `r`, and then it shows `y`. -/
def Ends {τ : Type} (view : σ → τ) (x : τ) (m : Eff σ ε α) (r : Except ε α) (y : τ) : Prop :=
  ∀ s, view s = x → (m s).1 = r ∧ view (m s).2 = y

namespace Ends

variable {τ : Type} {view : σ → τ} {x y z : τ}

theorem run {m : Eff σ ε α} {r : Except ε α} (h : Ends view x m r y) {s : σ} (hs : view s = x) :
    ∃ t, m s = (r, t) ∧ view t = y := by
  obtain ⟨hr, hy⟩ := h s hs
  exact ⟨(m s).2, by rw [← hr], hy⟩

theorem unique {m : Eff σ ε α} {r r' : Except ε α} (h : Ends view x m r y) {s t : σ}
    (hs : view s = x) (hm : m s = (r', t)) : r' = r ∧ view t = y := by
  have := h s hs
  rwa [hm] at this

theorem pure (a : α) : Ends view x (Pure.pure a : Eff σ ε α) (.ok a) x := fun _ hs => ⟨rfl, hs⟩

theorem fail (e : ε) : Ends view x (Eff.fail e : Eff σ ε α) (.error e) x := fun _ hs => ⟨rfl, hs⟩

theorem ofExcept (r : Except ε α) : Ends view x (Eff.ofExcept r) r x := fun _ hs => ⟨rfl, hs⟩

theorem get_bind {f : σ → Eff σ ε β} {r : Except ε β} (h : ∀ s, view s = x → Ends view x (f s) r y) :
    Ends view x (Eff.get >>= f) r y := fun s hs => h s hs s hs

theorem bind {m : Eff σ ε α} {f : α → Eff σ ε β} {a : α} {r : Except ε β}
    (hm : Ends view x m (.ok a) y) (hf : Ends view y (f a) r z) : Ends view x (m >>= f) r z := by
  intro s hs
  obtain ⟨t, ht, hy⟩ := hm.run hs
  rw [Eff.bind_ok ht]
  exact hf t hy

theorem bind_error {m : Eff σ ε α} {e : ε} (hm : Ends view x m (.error e) y) (f : α → Eff σ ε β) :
    Ends view x (m >>= f) (.error e) y := by
  intro s hs
  obtain ⟨t, ht, hy⟩ := hm.run hs
  rw [Eff.bind_error ht]
  exact ⟨rfl, hy⟩

theorem ite_pos {c : Prop} [Decidable c] {m n : Eff σ ε α} {r : Except ε α} (hc : c)
    (hm : Ends view x m r y) : Ends view x (if c then m else n) r y := by rwa [if_pos hc]

theorem ite_neg {c : Prop} [Decidable c] {m n : Eff σ ε α} {r : Except ε α} (hc : ¬c)
    (hn : Ends view x n r y) : Ends view x (if c then m else n) r y := by rwa [if_neg hc]

end Ends

/-! ## Programs that return -/

/-- From every state in `P` the program returns, into `Q`. -/
abbrev Returns (P : σ → Prop) (m : Eff σ ε α) (Q : α → σ → Prop) : Prop := Triple P m Q fun _ _ => False

namespace Returns

variable {P : σ → Prop} {Q : α → σ → Prop} {m : Eff σ ε α}

theorem run (h : Returns P m Q) {s : σ} (hs : P s) : ∃ a t, m s = (.ok a, t) ∧ Q a t := by
  have hm := h s hs
  rcases hr : m s with ⟨e | a, t⟩ <;> rw [hr] at hm
  · exact hm.elim
  · exact ⟨a, t, rfl, hm⟩

theorem of_run (h : ∀ s, P s → ∃ a t, m s = (.ok a, t) ∧ Q a t) : Returns P m Q := by
  intro s hs
  obtain ⟨a, t, hm, hQ⟩ := h s hs
  rw [hm]
  exact hQ

/-- Nothing is cleaned up after it. -/
theorem onError (h : Returns P m Q) (c : Eff σ ε Unit) : Returns P (Eff.onError m c) Q :=
  Triple.onError h fun _ _ hfalse => hfalse.elim

theorem mapError {ε' : Type} (h : Returns P m Q) (f : ε → ε') : Returns P (Eff.mapError f m) Q :=
  Triple.mapError h

theorem attempt (h : Returns P m Q) : Returns P (Eff.attempt m) fun r t => ∃ a, r = .ok a ∧ Q a t := by
  apply of_run
  intro s hs
  obtain ⟨a, t, hm, hQ⟩ := h.run hs
  refine ⟨.ok a, t, ?_, a, rfl, hQ⟩
  rw [Eff.attempt, hm]

end Returns

/-! ## Programs that differ in their errors only -/

/-- From every state the two programs return the same or both fail, and they
leave the same state. -/
def Agree (m n : Eff σ ε α) : Prop :=
  ∀ s, (m s).1.toOption = (n s).1.toOption ∧ (m s).2 = (n s).2

namespace Agree

theorem refl (m : Eff σ ε α) : Agree m m := fun _ => ⟨rfl, rfl⟩

theorem fail (e e' : ε) : Agree (Eff.fail e : Eff σ ε α) (Eff.fail e') := fun _ => ⟨rfl, rfl⟩

theorem bind {m n : Eff σ ε α} {f g : α → Eff σ ε β} (hm : Agree m n) (hf : ∀ a, Agree (f a) (g a)) :
    Agree (m >>= f) (n >>= g) := by
  intro s
  obtain ⟨hr, hs⟩ := hm s
  rcases hm : m s with ⟨e | a, t⟩ <;> rcases hn : n s with ⟨e' | b, u⟩ <;> rw [hm, hn] at hr hs <;>
    cases hr <;> cases hs
  · rw [Eff.bind_error hm, Eff.bind_error hn]
    exact ⟨rfl, rfl⟩
  · rw [Eff.bind_ok hm, Eff.bind_ok hn]
    exact hf _ _

theorem ite {c : Prop} [Decidable c] {m n m' n' : Eff σ ε α} (hm : Agree m m') (hn : Agree n n') :
    Agree (if c then m else n) (if c then m' else n') := by split <;> assumption

end Agree

end Effect
