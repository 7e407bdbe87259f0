import Ironlock.Lib.Effect

/-! Programs run from two states at once: what two runs have in common. -/

namespace Effect

variable {σ ε α β : Type}

/-- From states related by `R`, the two runs of `m` have the same outcome. They
end in states related by `R`, or by `E` when they fail. -/
def Lockstep (R E : σ → σ → Prop) (m : Eff σ ε α) : Prop :=
  ∀ s t, R s t → (m s).1 = (m t).1 ∧ match (m s).1 with
    | .ok _ => R (m s).2 (m t).2
    | .error _ => E (m s).2 (m t).2

namespace Lockstep

variable {R E : σ → σ → Prop} {m : Eff σ ε α}

theorem ok {s t s' : σ} {a : α} (h : Lockstep R E m) (hst : R s t) (hm : m s = (.ok a, s')) :
    ∃ t', m t = (.ok a, t') ∧ R s' t' := by
  obtain ⟨heq, hrel⟩ := h s t hst
  rw [hm] at heq hrel
  exact ⟨(m t).2, Prod.ext heq.symm rfl, hrel⟩

theorem error {s t s' : σ} {e : ε} (h : Lockstep R E m) (hst : R s t) (hm : m s = (.error e, s')) :
    ∃ t', m t = (.error e, t') ∧ E s' t' := by
  obtain ⟨heq, hrel⟩ := h s t hst
  rw [hm] at heq hrel
  exact ⟨(m t).2, Prod.ext heq.symm rfl, hrel⟩

/-- What two runs show of their states, when both relations show it. -/
theorem same {s t s' t' : σ} {r r' : Except ε α} (h : Lockstep R E m) (hR : ∀ s t, R s t → E s t)
    (hst : R s t) (hm : m s = (r, s')) (hm' : m t = (r', t')) : r = r' ∧ E s' t' := by
  obtain ⟨heq, hrel⟩ := h s t hst
  rw [hm, hm'] at heq hrel
  refine ⟨heq, ?_⟩
  cases r with
  | ok a => exact hR s' t' hrel
  | error e => exact hrel

/-- Two runs that both return, or both fail. -/
theorem of_runs (h : ∀ s t, R s t →
    (∃ a s' t', m s = (.ok a, s') ∧ m t = (.ok a, t') ∧ R s' t') ∨
    ∃ e s' t', m s = (.error e, s') ∧ m t = (.error e, t') ∧ E s' t') : Lockstep R E m := by
  intro s t hst
  rcases h s t hst with ⟨a, s', t', hs, ht, hrel⟩ | ⟨e, s', t', hs, ht, hrel⟩
  · rw [hs, ht]; exact ⟨rfl, hrel⟩
  · rw [hs, ht]; exact ⟨rfl, hrel⟩

theorem pure (a : α) : Lockstep R E (Pure.pure a : Eff σ ε α) := fun _ _ h => ⟨rfl, h⟩

theorem fail (hE : ∀ s t, R s t → E s t) (e : ε) : Lockstep R E (Eff.fail e : Eff σ ε α) :=
  fun s t h => ⟨rfl, hE s t h⟩

theorem ofExcept (hE : ∀ s t, R s t → E s t) (r : Except ε α) :
    Lockstep R E (Eff.ofExcept r : Eff σ ε α) := by
  cases r with
  | ok a => exact fun _ _ h => ⟨rfl, h⟩
  | error e => exact fun s t h => ⟨rfl, hE s t h⟩

theorem bind {f : α → Eff σ ε β} (hm : Lockstep R E m) (hf : ∀ a, Lockstep R E (f a)) :
    Lockstep R E (m >>= f) := by
  intro s t hst
  rcases hs : m s with ⟨e | a, s'⟩
  · obtain ⟨t', ht, hrel⟩ := hm.error hst hs
    rw [Eff.bind_error hs, Eff.bind_error ht]
    exact ⟨rfl, hrel⟩
  · obtain ⟨t', ht, hrel⟩ := hm.ok hst hs
    rw [Eff.bind_ok hs, Eff.bind_ok ht]
    exact hf a s' t' hrel

theorem ite {c : Prop} [Decidable c] {n : Eff σ ε α} (hm : Lockstep R E m) (hn : Lockstep R E n) :
    Lockstep R E (if c then m else n) := by split <;> assumption

end Lockstep

/-- From states related by `R`, when the first run of `m` returns the second
returns the same, and they end in states related by `R`. -/
def Follows (R : σ → σ → Prop) (m : Eff σ ε α) : Prop :=
  ∀ s t a s', R s t → m s = (.ok a, s') → ∃ t', m t = (.ok a, t') ∧ R s' t'

namespace Follows

variable {R : σ → σ → Prop} {m : Eff σ ε α}

theorem pure (a : α) : Follows R (Pure.pure a : Eff σ ε α) := by
  intro s t b s' hst h
  cases h
  exact ⟨t, rfl, hst⟩

theorem fail (e : ε) : Follows R (Eff.fail e : Eff σ ε α) := by
  intro s t a s' _ h
  cases h

theorem ofExcept (r : Except ε α) : Follows R (Eff.ofExcept r : Eff σ ε α) := by
  cases r with
  | ok a => exact pure a
  | error e => exact fail e

theorem bind {f : α → Eff σ ε β} (hm : Follows R m) (hf : ∀ a, Follows R (f a)) :
    Follows R (m >>= f) := by
  intro s t b s' hst h
  obtain ⟨a, s₁, hs, h⟩ := Eff.bind_eq_ok.1 h
  obtain ⟨t₁, ht, hst⟩ := hm s t a s₁ hst hs
  rw [Eff.bind_ok ht]
  exact hf a s₁ t₁ b s' hst h

theorem ite {c : Prop} [Decidable c] {n : Eff σ ε α} (hm : Follows R m) (hn : Follows R n) :
    Follows R (if c then m else n) := by split <;> assumption

end Follows

/-- From states related by `R` the second run does all that the first does: it
returns what the first returns, and ends ahead of it, by `E`, in any case. What
runs do only adds, by `G`, to what is there. -/
structure Trails (R E G : σ → σ → Prop) (m : Eff σ ε α) : Prop where
  follows : Follows R m
  ahead : ∀ s t, R s t → E (m s).2 (m t).2
  grows : Within G m

namespace Trails

variable {R E G : σ → σ → Prop} {m : Eff σ ε α}

theorem pure [IsPreorder σ G] (hE : ∀ s t, R s t → E s t) (a : α) :
    Trails R E G (Pure.pure a : Eff σ ε α) := ⟨.pure a, hE, .pure a⟩

theorem fail [IsPreorder σ G] (hE : ∀ s t, R s t → E s t) (e : ε) :
    Trails R E G (Eff.fail e : Eff σ ε α) := ⟨.fail e, hE, .fail e⟩

theorem ofExcept [IsPreorder σ G] (hE : ∀ s t, R s t → E s t) (r : Except ε α) :
    Trails R E G (Eff.ofExcept r : Eff σ ε α) := ⟨.ofExcept r, hE, .ofExcept r⟩

/-- A first run that ends early is behind one that goes on. -/
theorem bind [IsPreorder σ G] {f : α → Eff σ ε β} (hG : ∀ s t u, E s t → G t u → E s u)
    (hm : Trails R E G m) (hf : ∀ a, Trails R E G (f a)) : Trails R E G (m >>= f) where
  follows := .bind hm.follows fun a => (hf a).follows
  grows := .bind hm.grows fun a => (hf a).grows
  ahead := by
    intro s t hst
    rcases hs : m s with ⟨e | a, s'⟩
    · rw [Eff.bind_error hs]
      have hahead := hm.ahead s t hst
      rw [hs] at hahead
      rcases ht : m t with ⟨e' | a, t'⟩
      · rw [Eff.bind_error ht]
        rwa [ht] at hahead
      · rw [Eff.bind_ok ht]
        rw [ht] at hahead
        exact hG _ _ _ hahead ((hf a).grows t')
    · obtain ⟨t', ht, hst'⟩ := hm.follows s t a s' hst hs
      rw [Eff.bind_ok hs, Eff.bind_ok ht]
      exact (hf a).ahead s' t' hst'

theorem ite {c : Prop} [Decidable c] {n : Eff σ ε α} (hm : Trails R E G m) (hn : Trails R E G n) :
    Trails R E G (if c then m else n) := by split <;> assumption

end Trails

/-- From states related by `R`, the two programs return what `V` relates and leave
states related by `R`, or both fail. -/
def Coupled (R : σ → σ → Prop) (V : α → β → Prop) (m : Eff σ ε α) (n : Eff σ ε β) : Prop :=
  ∀ s t, R s t →
    (∃ a b s' t', m s = (.ok a, s') ∧ n t = (.ok b, t') ∧ V a b ∧ R s' t') ∨
    ∃ e e' s' t', m s = (.error e, s') ∧ n t = (.error e', t')

namespace Coupled

variable {γ δ : Type} {R : σ → σ → Prop} {V : α → β → Prop} {U : γ → δ → Prop} {m : Eff σ ε α} {n : Eff σ ε β}
  {s t s' : σ} {a : α} {b : β}

theorem ok (h : Coupled R V m n) (hst : R s t) (hm : m s = (.ok a, s')) :
    ∃ b t', n t = (.ok b, t') ∧ V a b ∧ R s' t' := by
  rcases h s t hst with ⟨a', b, u, t', hm', hn, hV, hR⟩ | ⟨e, e', u, t', hm', -⟩
  · rw [hm] at hm'
    cases hm'
    exact ⟨b, t', hn, hV, hR⟩
  · rw [hm] at hm'
    cases hm'

/-- What the relation says of the states may be used. -/
theorem of_related (h : ∀ s t, R s t → Coupled R V m n) : Coupled R V m n := fun s t hst => h s t hst s t hst

theorem pure (h : V a b) : Coupled R V (Pure.pure a : Eff σ ε α) (Pure.pure b) :=
  fun s t hst => .inl ⟨a, b, s, t, rfl, rfl, h, hst⟩

theorem fail (e e' : ε) : Coupled R V (Eff.fail e : Eff σ ε α) (Eff.fail e') :=
  fun s t _ => .inr ⟨e, e', s, t, rfl, rfl⟩

theorem ofExcept {r : Except ε α} {r' : Except ε β}
    (h : (∃ a b, r = .ok a ∧ r' = .ok b ∧ V a b) ∨ ∃ e e', r = .error e ∧ r' = .error e') :
    Coupled R V (Eff.ofExcept r) (Eff.ofExcept r') := by
  rcases h with ⟨a, b, rfl, rfl, hV⟩ | ⟨e, e', rfl, rfl⟩
  · exact pure hV
  · exact fail e e'

theorem bind {f : α → Eff σ ε γ} {g : β → Eff σ ε δ} (hm : Coupled R V m n)
    (hf : ∀ a b, V a b → Coupled R U (f a) (g b)) : Coupled R U (m >>= f) (n >>= g) := by
  intro s t hst
  rcases hm s t hst with ⟨a, b, s', t', hs, ht, hV, hR⟩ | ⟨e, e', s', t', hs, ht⟩
  · rw [Eff.bind_ok hs, Eff.bind_ok ht]
    exact hf a b hV s' t' hR
  · rw [Eff.bind_error hs, Eff.bind_error ht]
    exact .inr ⟨e, e', s', t', rfl, rfl⟩

/-- The same value on both sides. -/
theorem bind_eq {m n : Eff σ ε α} {f : α → Eff σ ε γ} {g : α → Eff σ ε δ} (hm : Coupled R Eq m n)
    (hf : ∀ a, Coupled R U (f a) (g a)) : Coupled R U (m >>= f) (n >>= g) := by
  refine bind hm ?_
  rintro a _ rfl
  exact hf a

theorem ite {c c' : Prop} [Decidable c] [Decidable c'] {m' : Eff σ ε α} {n' : Eff σ ε β} (hc : c ↔ c')
    (hm : Coupled R V m n) (hn : Coupled R V m' n') :
    Coupled R V (if c then m else m') (if c' then n else n') := by
  by_cases h : c
  · rwa [if_pos h, if_pos (hc.1 h)]
  · rwa [if_neg h, if_neg (mt hc.2 h)]

theorem mapError (h : Coupled R V m n) (f f' : ε → ε) : Coupled R V (Eff.mapError f m) (Eff.mapError f' n) := by
  intro s t hst
  rcases h s t hst with ⟨a, b, s', t', hm, hn, hV, hR⟩ | ⟨e, e', s', t', hm, hn⟩
  · exact .inl ⟨a, b, s', t', Eff.mapError_ok hm, Eff.mapError_ok hn, hV, hR⟩
  · exact .inr ⟨f e, f' e', s', t', by simp [Eff.mapError, hm], by simp [Eff.mapError, hn]⟩

/-- What is cleaned up when both fail does not matter. -/
theorem onError (h : Coupled R V m n) (c c' : Eff σ ε Unit) : Coupled R V (Eff.onError m c) (Eff.onError n c') := by
  intro s t hst
  rcases h s t hst with ⟨a, b, s', t', hm, hn, hV, hR⟩ | ⟨e, e', s', t', hm, hn⟩
  · exact .inl ⟨a, b, s', t', Eff.onError_ok hm, Eff.onError_ok hn, hV, hR⟩
  · exact .inr ⟨e, e', _, _, Eff.onError_error hm, Eff.onError_error hn⟩

end Coupled

end Effect
