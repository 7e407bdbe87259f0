import Ironlock.System

/-! Rules for runs of the program while no other process acts. Assertions speak
of the calls made so far and of the file system they left. -/

namespace Ironlock
open ByteOrder (Bytes)
open Effect
open Fs (Identity Metadata SysCall)

/-- No other process changes the file system. -/
def Env.Quiet (env : Env) : Prop := ∀ n fs, env.others n fs = fs

/-- Some call is made to fail with this error. -/
def Env.Fails (env : Env) (e : IoError) : Prop := ∃ n, env.fault n = some e

/-- No call is made to fail. -/
def Env.Faultless (env : Env) : Prop := ∀ n, env.fault n = none

theorem Env.Faultless.not_fails {env : Env} (h : env.Faultless) (e : IoError) : ¬env.Fails e := by
  rintro ⟨n, hn⟩
  rw [h n] at hn; cases hn

/-- Nothing fails, no one else acts, and every prompt is answered with yes. -/
def Env.calm (C : Crates) : Env where
  crates := C
  target := .linux
  toLowercase := id
  fault _ := none
  others _ fs := fs
  confirm _ := .ok true
  nextU64 k := UInt64.ofNat k
  salt _ := .zero saltLength
  baseNonce _ := .zero nonceLength
  noise _ _ := 0
  cuts _ := []
  accepts _ := []

theorem Env.calm_quiet (C : Crates) : (Env.calm C).Quiet := fun _ _ => rfl

theorem Env.calm_faultless (C : Crates) : (Env.calm C).Faultless := fun _ => rfl

abbrev Assertion := List Step → Fs → Prop

/-- Whatever the other processes do, the assertion goes on holding. -/
def Env.Stable (env : Env) (Φ : Assertion) : Prop :=
  ∀ n steps fs, Φ steps fs → Φ steps (env.others n fs)

theorem Env.Quiet.stable {env : Env} {Φ : Assertion} (hq : env.Quiet) : env.Stable Φ := by
  intro n steps fs h
  rwa [hq n fs]

/-- The assertion holds of the calls made since `w₀` and the file system. -/
def Holds (w₀ : World) (Φ : Assertion) (w : World) : Prop :=
  ∃ steps, w.steps = w₀.steps ++ steps ∧ Φ steps w.fs

/-- From `Φ`, the program returns into `Ψ` or fails into `Χ`. -/
def Runs {α : Type} (Φ : Assertion) (m : FsM α) (Ψ : α → Assertion)
    (Χ : IronlockError → Assertion) : Prop :=
  ∀ w₀, Triple (Holds w₀ Φ) m (fun a => Holds w₀ (Ψ a)) fun e => Holds w₀ (Χ e)

/-- One assertion for a call that is done, another for one that failed. -/
def Assertion.either {α ε : Type} (Ψ : α → Assertion) (Χ : ε → Assertion) : Except ε α → Assertion
  | .ok a => Ψ a
  | .error e => Χ e

namespace Runs

variable {α β : Type} {Φ Δ : Assertion} {Ψ Λ : α → Assertion} {Χ Θ : IronlockError → Assertion}
  {Ω : β → Assertion} {m : FsM α} {env : Env}

theorem ok {w w' : World} {a : α} (h : Runs Φ m Ψ Χ) (hΦ : Φ [] w.fs) (hm : m w = (.ok a, w')) :
    ∃ steps, w'.steps = w.steps ++ steps ∧ Ψ a steps w'.fs :=
  (h w).ok ⟨[], by simp, hΦ⟩ hm

theorem error {w w' : World} {e : IronlockError} (h : Runs Φ m Ψ Χ) (hΦ : Φ [] w.fs)
    (hm : m w = (.error e, w')) : ∃ steps, w'.steps = w.steps ++ steps ∧ Χ e steps w'.fs :=
  (h w).error ⟨[], by simp, hΦ⟩ hm

/-- What holds however the program ends. -/
theorem always {Ψ : Assertion} {w₀ w : World} (h : Runs Φ m (fun _ => Ψ) fun _ => Ψ)
    (hw : Holds w₀ Φ w) : Holds w₀ Ψ (m w).2 := by
  have := h w₀ w hw
  rcases hm : m w with ⟨e | a, w'⟩ <;> rw [hm] at this <;> exact this

theorem pure {a : α} (h : ∀ steps fs, Φ steps fs → Ψ a steps fs) :
    Runs Φ (Pure.pure a) Ψ Χ := fun _ =>
  .pure fun _ ⟨steps, hsteps, hΦ⟩ => ⟨steps, hsteps, h _ _ hΦ⟩

theorem fail {e : IronlockError} (h : ∀ steps fs, Φ steps fs → Χ e steps fs) :
    Runs Φ (Eff.fail e) Ψ Χ := fun _ =>
  .fail fun _ ⟨steps, hsteps, hΦ⟩ => ⟨steps, hsteps, h _ _ hΦ⟩

theorem ofExcept {r : Except IronlockError α}
    (hok : ∀ a, r = .ok a → ∀ steps fs, Φ steps fs → Ψ a steps fs)
    (herr : ∀ e, r = .error e → ∀ steps fs, Φ steps fs → Χ e steps fs) :
    Runs Φ (Eff.ofExcept r) Ψ Χ := by
  cases r with
  | ok a => exact .pure (hok a rfl)
  | error e => exact .fail (herr e rfl)

theorem bind {f : α → FsM β} (hm : Runs Φ m Ψ Χ) (hf : ∀ a, Runs (Ψ a) (f a) Ω Χ) :
    Runs Φ (m >>= f) Ω Χ := fun w₀ => .bind (hm w₀) fun a => hf a w₀

theorem consequence (h : Runs Φ m Ψ Χ) (hΦ : ∀ steps fs, Δ steps fs → Φ steps fs)
    (hΨ : ∀ a steps fs, Ψ a steps fs → Λ a steps fs)
    (hΧ : ∀ e steps fs, Χ e steps fs → Θ e steps fs) : Runs Δ m Λ Θ := fun w₀ =>
  (h w₀).consequence (fun _ ⟨steps, hs, h⟩ => ⟨steps, hs, hΦ _ _ h⟩)
    (fun a _ ⟨steps, hs, h⟩ => ⟨steps, hs, hΨ a _ _ h⟩)
    fun e _ ⟨steps, hs, h⟩ => ⟨steps, hs, hΧ e _ _ h⟩

/-- What two proofs say of one run holds together. -/
theorem and (h : Runs Φ m Ψ Χ) (h' : Runs Δ m Λ Θ) :
    Runs (fun steps fs => Φ steps fs ∧ Δ steps fs) m (fun a steps fs => Ψ a steps fs ∧ Λ a steps fs)
      fun e steps fs => Χ e steps fs ∧ Θ e steps fs := by
  have join {w₀ w : World} {Φ Δ : Assertion} (hΦ : Holds w₀ Φ w) (hΔ : Holds w₀ Δ w) :
      Holds w₀ (fun steps fs => Φ steps fs ∧ Δ steps fs) w := by
    obtain ⟨steps, hsteps, hΦ⟩ := hΦ
    obtain ⟨steps', hsteps', hΔ⟩ := hΔ
    obtain rfl : steps = steps' := List.append_cancel_left (hsteps.symm.trans hsteps')
    exact ⟨steps, hsteps, hΦ, hΔ⟩
  have hΦ := h.consequence (Δ := fun steps fs => Φ steps fs ∧ Δ steps fs) (fun _ _ h => h.1)
    (fun _ _ _ => id) fun _ _ _ => id
  have hΔ := h'.consequence (Δ := fun steps fs => Φ steps fs ∧ Δ steps fs) (fun _ _ h => h.2)
    (fun _ _ _ => id) fun _ _ _ => id
  exact fun w₀ => ((hΦ w₀).and (hΔ w₀)).consequence (fun _ => id)
    (fun _ _ h => join h.1 h.2) fun _ _ h => join h.1 h.2

/-- What every result the program can give satisfies. -/
theorem result {R : α → Prop} (h : Runs Φ m Ψ Χ)
    (hR : ∀ w a w', (∃ steps, Φ steps w.fs) → m w = (.ok a, w') → R a) :
    Runs Φ m (fun a steps fs => R a ∧ Ψ a steps fs) Χ := by
  intro w₀ w hw
  have hm := h w₀ w hw
  rcases hr : m w with ⟨e | a, w'⟩ <;> rw [hr] at hm
  · exact hm
  · obtain ⟨steps, hsteps, hΨ⟩ := hm
    obtain ⟨steps', -, hΦ⟩ := hw
    exact ⟨steps, hsteps, hR w a w' ⟨steps', hΦ⟩ hr, hΨ⟩

theorem pre (h : Runs Φ m Ψ Χ) (hΦ : ∀ steps fs, Δ steps fs → Φ steps fs) : Runs Δ m Ψ Χ :=
  h.consequence hΦ (fun _ _ _ => id) fun _ _ _ => id

theorem post (h : Runs Φ m Ψ Χ) (hΨ : ∀ a steps fs, Ψ a steps fs → Λ a steps fs)
    (hΧ : ∀ e steps fs, Χ e steps fs → Θ e steps fs) : Runs Φ m Λ Θ :=
  h.consequence (fun _ _ => id) hΨ hΧ

/-- Each state the precondition allows can be treated by itself. -/
theorem of_state (h : ∀ steps fs, Φ steps fs →
    Runs (fun steps' fs' => steps' = steps ∧ fs' = fs) m Ψ Χ) : Runs Φ m Ψ Χ := by
  rintro w₀ w ⟨steps, hsteps, hΦ⟩
  exact h steps w.fs hΦ w₀ w ⟨steps, hsteps, rfl, rfl⟩

theorem exists_pre {ι : Type} {Φ : ι → Assertion} (h : ∀ x, Runs (Φ x) m Ψ Χ) :
    Runs (fun steps fs => ∃ x, Φ x steps fs) m Ψ Χ := by
  rintro w₀ w ⟨steps, hsteps, x, hΦ⟩
  exact h x w₀ w ⟨steps, hsteps, hΦ⟩

theorem or {Φ₁ Φ₂ : Assertion} (h₁ : Runs Φ₁ m Ψ Χ) (h₂ : Runs Φ₂ m Ψ Χ) :
    Runs (fun steps fs => Φ₁ steps fs ∨ Φ₂ steps fs) m Ψ Χ := by
  rintro w₀ w ⟨steps, hsteps, hΦ | hΦ⟩
  · exact h₁ w₀ w ⟨steps, hsteps, hΦ⟩
  · exact h₂ w₀ w ⟨steps, hsteps, hΦ⟩

/-- A fact that does not mention the state can be assumed. -/
theorem assuming {p : Prop} (h : p → Runs Φ m Ψ Χ) :
    Runs (fun steps fs => p ∧ Φ steps fs) m Ψ Χ := by
  rintro w₀ w ⟨steps, hsteps, hp, hΦ⟩
  exact h hp w₀ w ⟨steps, hsteps, hΦ⟩

/-- So can one that the precondition implies. -/
theorem of_pre {p : Prop} (hp : ∀ steps fs, Φ steps fs → p) (h : p → Runs Φ m Ψ Χ) :
    Runs Φ m Ψ Χ := by
  rintro w₀ w ⟨steps, hsteps, hΦ⟩
  exact h (hp steps w.fs hΦ) w₀ w ⟨steps, hsteps, hΦ⟩

theorem ite {c : Prop} [Decidable c] {n : FsM α} (hm : c → Runs Φ m Ψ Χ) (hn : ¬c → Runs Φ n Ψ Χ) :
    Runs Φ (if c then m else n) Ψ Χ := by
  split
  · exact hm ‹_›
  · exact hn ‹_›

theorem attempt {Ω : Except IronlockError α → Assertion}
    (h : Runs Φ m (fun a => Ω (.ok a)) fun e => Ω (.error e)) :
    Runs Φ (Eff.attempt m : FsM (Except IronlockError α)) Ω Χ := fun w₀ => .attempt (h w₀)

theorem onError {c : FsM Unit} (hm : Runs Φ m Ψ Θ)
    (hc : ∀ e, Runs (Θ e) c (fun _ => Χ e) fun _ => Χ e) : Runs Φ (Eff.onError m c) Ψ Χ :=
  fun w₀ => .onError (hm w₀) fun e => hc e w₀

theorem mapError {f : IronlockError → IronlockError} (hm : Runs Φ m Ψ fun e => Χ (f e)) :
    Runs Φ (Eff.mapError f m) Ψ Χ := fun w₀ => .mapError (hm w₀)

/-- One system call: it is made to fail and has no other effect, or it has its own. -/
theorem perform {op : SysCall α} {Ω : Except IoError α → Assertion} (hs : env.Stable Φ) {call : Call}
    {fault : Option IoError}
    (h : ∀ steps fs, Φ steps fs → Ω (Sys.outcome fault op fs).1
      (steps ++ [⟨call, fault, fs, (Sys.outcome fault op fs).2⟩]) (Sys.outcome fault op fs).2) :
    Runs Φ (Sys.perform env call fault op) Ω Χ := by
  rintro w₀ w ⟨steps, hsteps, hΦ⟩
  refine ⟨steps ++ [⟨call, fault, env.others w.calls w.fs, _⟩], ?_,
    h steps _ (hs w.calls steps w.fs hΦ)⟩
  simp only [hsteps, List.append_assoc]

theorem try_ {op : SysCall α} {Ω : Except IoError α → Assertion} (hs : env.Stable Φ) {call : Call}
    (hfault : ∀ steps fs e, Φ steps fs → env.Fails e →
      Ω (.error e) (steps ++ [⟨call, some e, fs, fs⟩]) fs)
    (hop : ∀ steps fs, Φ steps fs → Ω (op fs).1 (steps ++ [⟨call, none, fs, (op fs).2⟩]) (op fs).2) :
    Runs Φ (Sys.try_ env call op) Ω Χ := by
  intro w₀ w hw
  have hperform : Runs Φ (Sys.perform env call (env.fault w.calls) op) Ω Χ := by
    refine perform hs fun steps fs hΦ => ?_
    rcases hn : env.fault w.calls with _ | e
    · exact hop steps fs hΦ
    · exact hfault steps fs e hΦ ⟨_, hn⟩
  exact hperform w₀ w hw

theorem run {op : SysCall α} (hs : env.Stable Φ) {call : Call}
    (hfault : ∀ steps fs e, Φ steps fs → env.Fails e →
      Χ (.ioError e) (steps ++ [⟨call, some e, fs, fs⟩]) fs)
    (hop : ∀ steps fs, Φ steps fs → match op fs with
      | (.ok a, fs') => Ψ a (steps ++ [⟨call, none, fs, fs'⟩]) fs'
      | (.error e, fs') => Χ (.ioError e) (steps ++ [⟨call, none, fs, fs'⟩]) fs') :
    Runs Φ (Sys.run env call op) Ψ Χ := by
  refine .bind (Ψ := Assertion.either Ψ fun e => Χ (.ioError e)) (.try_ hs hfault ?_) ?_
  · intro steps fs hΦ
    have := hop steps fs hΦ
    rcases hr : op fs with ⟨e | a, fs'⟩ <;> rw [hr] at this <;> exact this
  · rintro (e | a)
    · exact .fail fun _ _ => id
    · exact .pure fun _ _ => id

theorem draw {f : Nat → α} (h : ∀ k steps fs, Φ steps fs → Ψ (f k) steps fs) :
    Runs Φ (Sys.draw f) Ψ Χ := fun _ _ ⟨steps, hsteps, hΦ⟩ => ⟨steps, hsteps, h _ _ _ hΦ⟩

end Runs

/-! ## Programs that change nothing -/

/-- The file system is as it was, and so it was all along. -/
def Still (w w' : World) : Prop :=
  w'.fs = w.fs ∧ ∃ steps, w'.steps = w.steps ++ steps ∧ ∀ s ∈ steps, s.after = w.fs

instance : IsPreorder World Still where
  refl w := ⟨rfl, [], by simp, by simp⟩
  trans := by
    rintro w₁ w₂ w₃ ⟨hfs, steps, hsteps, hall⟩ ⟨hfs', steps', hsteps', hall'⟩
    refine ⟨hfs'.trans hfs, steps ++ steps', by rw [hsteps', hsteps, List.append_assoc], ?_⟩
    intro s hs
    rcases List.mem_append.1 hs with hs | hs
    · exact hall s hs
    · rw [hall' s hs, hfs]

/-- What a program that only looks makes of the world: the other processes act
before each of its calls, and the calls change nothing. -/
inductive Looked (env : Env) : World → World → Prop
  | refl (w : World) : Looked env w w
  | call {w w' : World} (h : Looked env w w') {call : Call} (hcall : call.looks = true)
      (fault : Option IoError) :
      Looked env w { w' with
        fs := env.others w'.calls w'.fs
        calls := w'.calls + 1
        steps := w'.steps ++ [⟨call, fault, env.others w'.calls w'.fs, env.others w'.calls w'.fs⟩] }
  | draw {w w' : World} (h : Looked env w w') (draws : Nat) : Looked env w { w' with draws := draws }

instance (env : Env) : IsPreorder World (Looked env) where
  refl := .refl
  trans := by
    intro w₁ w₂ w₃ h h'
    induction h' with
    | refl => exact h
    | call _ hcall fault ih => exact .call ih hcall fault
    | draw _ draws ih => exact .draw ih draws

/-- A program that only looks. -/
abbrev Looks {α : Type} (env : Env) (m : FsM α) : Prop := Within (Looked env) m

/-- What holds is not undone by a call that changes nothing. -/
def Idle (Φ : Assertion) : Prop := ∀ steps fs call fault, call.looks = true → Φ steps fs →
  Φ (steps ++ [⟨call, fault, fs, fs⟩]) fs

namespace Looks

variable {α : Type} {env : Env} {call : Call} {op : SysCall α} {m : FsM α}

theorem try_ (hcall : call.looks = true) (hop : ∀ fs, (op fs).2 = fs) :
    Looks env (Sys.try_ env call op) := by
  intro w
  have hsame : (Sys.outcome (env.fault w.calls) op (env.others w.calls w.fs)).2 =
      env.others w.calls w.fs := by
    unfold Sys.outcome
    split
    · rfl
    · exact hop _
  simp only [Sys.try_, Sys.perform, hsame]
  exact .call (.refl w) hcall _

theorem run (hcall : call.looks = true) (hop : ∀ fs, (op fs).2 = fs) :
    Looks env (Sys.run env call op) :=
  .bind (try_ hcall hop) fun r => by
    cases r with
    | ok a => exact .pure a
    | error e => exact .fail _

theorem draw (f : Nat → α) : Looks env (Sys.draw f) := fun w => .draw (.refl w) _

/-- It leaves everything as it was when no one else acts. -/
theorem still (h : Looks env m) (hq : env.Quiet) : Within Still m := by
  intro w
  have hlooked := h w
  generalize (m w).2 = w' at hlooked
  induction hlooked with
  | refl => exact refl_of Still w
  | @call w' _ call hcall fault ih =>
    refine trans_of Still ih ⟨hq _ _, _, rfl, ?_⟩
    simp [hq w'.calls w'.fs]
  | draw _ draws ih => exact ⟨ih.1, ih.2⟩

/-- It keeps what neither the other processes nor calls like its own undo. -/
theorem runs {Φ : Assertion} (h : Looks env m) (hs : env.Stable Φ) (hidle : Idle Φ) :
    Runs Φ m (fun _ => Φ) fun _ => Φ := by
  intro w₀ w hw
  have hlooked := h w
  suffices hall : ∀ w', Looked env w w' → Holds w₀ Φ w' by
    rcases hm : m w with ⟨e | a, w'⟩ <;> rw [hm] at hlooked <;> exact hall w' hlooked
  intro w' hw'
  induction hw' with
  | refl => exact hw
  | @call w' _ call hcall fault ih =>
    obtain ⟨steps, hsteps, hΦ⟩ := ih
    refine ⟨steps ++ [_], ?_, hidle steps _ call fault hcall (hs w'.calls steps w'.fs hΦ)⟩
    simp only [hsteps, List.append_assoc]
  | draw _ draws ih => exact ih

end Looks

/-- A call's result is its own, or an error it was made to fail with. -/
def Tells {α : Type} (env : Env) (op : SysCall α) (fs : Fs) (r : Except IoError α) : Prop :=
  r = (op fs).1 ∨ ∃ e, r = .error e ∧ env.Fails e

theorem Tells.ok {α : Type} {env : Env} {op : SysCall α} {fs : Fs} {a : α}
    (h : Tells env op fs (.ok a)) : (op fs).1 = .ok a := by
  rcases h with h | ⟨_, h, -⟩
  · exact h.symm
  · cases h

theorem Env.Quiet.try_tells {α : Type} {env : Env} (hq : env.Quiet) {call : Call} {op : SysCall α}
    (hop : ∀ fs, (op fs).2 = fs) {w w' : World} {r : Except IoError α}
    (h : Sys.try_ env call op w = (.ok r, w')) : Tells env op w.fs r ∧ w'.fs = w.fs := by
  have hfs : w'.fs = w.fs := by
    have hout : (Sys.outcome (env.fault w.calls) op (env.others w.calls w.fs)).2 = w'.fs :=
      congrArg (fun x => x.2.fs) h
    rw [← hout, hq w.calls w.fs]
    unfold Sys.outcome
    split
    · rfl
    · exact hop w.fs
  refine ⟨?_, hfs⟩
  have hr : (Sys.outcome (env.fault w.calls) op (env.others w.calls w.fs)).1 = r := by
    have := congrArg Prod.fst h
    exact Except.ok.inj this
  rw [hq w.calls w.fs] at hr
  subst hr
  rcases hn : env.fault w.calls with _ | e
  · exact .inl rfl
  · exact .inr ⟨e, rfl, _, hn⟩

theorem Env.Quiet.run_tells {α : Type} {env : Env} (hq : env.Quiet) {call : Call} {op : SysCall α}
    (hop : ∀ fs, (op fs).2 = fs) {w w' : World} {a : α}
    (h : Sys.run env call op w = (.ok a, w')) : (op w.fs).1 = .ok a ∧ w'.fs = w.fs := by
  obtain ⟨r, w₁, hr, h⟩ := Eff.bind_eq_ok.1 h
  obtain ⟨htells, hfs⟩ := hq.try_tells hop hr
  cases r with
  | error e => cases h
  | ok b => cases h; exact ⟨htells.ok, hfs⟩

/-- `G` holds after every call, and `P` of the file system now. -/
def Along (G P : Fs → Prop) : Assertion := fun steps fs => (∀ s ∈ steps, G s.after) ∧ P fs

namespace Runs

variable {α : Type} {G P : Fs → Prop} {m : FsM α} {env : Env} {call : Call} {op : SysCall α}
  {Χ : IronlockError → Assertion}

theorem along_concat {steps : List Step} {s : Step} (h : ∀ t ∈ steps, G t.after) (hs : G s.after) :
    ∀ t ∈ steps ++ [s], G t.after := by
  intro t ht
  rcases List.mem_append.1 ht with ht | ht
  · exact h t ht
  · rw [List.mem_singleton.1 ht]; exact hs

theorem along_exists {ι : Type} {P : ι → Fs → Prop} {Ψ : α → Assertion}
    (h : ∀ x, Runs (Along G (P x)) m Ψ Χ) : Runs (Along G fun fs => ∃ x, P x fs) m Ψ Χ :=
  (exists_pre h).pre fun _ _ ⟨hall, x, hx⟩ => ⟨x, hall, hx⟩

theorem along_assuming {p : Prop} {Ψ : α → Assertion} (h : p → Runs (Along G P) m Ψ Χ) :
    Runs (Along G fun fs => p ∧ P fs) m Ψ Χ :=
  (assuming h).pre fun _ _ ⟨hall, hp, hP⟩ => ⟨hp, hall, hP⟩

theorem along_try {Q : Except IoError α → Fs → Prop} (hq : env.Quiet) (hG : ∀ fs, P fs → G fs)
    (hfault : ∀ fs e, P fs → env.Fails e → Q (.error e) fs)
    (hop : ∀ fs, P fs → G (op fs).2 ∧ Q (op fs).1 (op fs).2) :
    Runs (Along G P) (Sys.try_ env call op) (fun r => Along G (Q r)) Χ :=
  .try_ hq.stable (fun _ fs e h hf => ⟨along_concat h.1 (hG fs h.2), hfault fs e h.2 hf⟩)
    fun _ fs h => ⟨along_concat h.1 (hop fs h.2).1, (hop fs h.2).2⟩

/-- A program that changes nothing keeps what holds, and what its outcome says
of the file system is so. -/
theorem still {R : α → Fs → Prop} (hm : Within Still m) (hG : ∀ fs, P fs → G fs)
    (hR : ∀ w a w', P w.fs → m w = (.ok a, w') → R a w.fs) :
    Runs (Along G P) m (fun a => Along G fun fs => P fs ∧ R a fs) fun _ => Along G P := by
  rintro w₀ w ⟨steps, hsteps, hall, hP⟩
  obtain ⟨hfs, more, hmore, hsame⟩ := hm w
  have hall' : ∀ s ∈ steps ++ more, G s.after := by
    intro s hs
    rcases List.mem_append.1 hs with hs | hs
    · exact hall s hs
    · rw [hsame s hs]; exact hG _ hP
  have hsteps' : (m w).2.steps = w₀.steps ++ (steps ++ more) := by
    rw [hmore, hsteps, List.append_assoc]
  rcases hr : m w with ⟨e | a, w'⟩ <;> rw [hr] at hfs hsteps' <;> simp only at hfs hsteps' ⊢
  · exact ⟨_, hsteps', hall', by rwa [hfs]⟩
  · exact ⟨_, hsteps', hall', by rw [hfs]; exact ⟨hP, hR w a w' hP hr⟩⟩

theorem still_along (hm : Within Still m) (hG : ∀ fs, P fs → G fs) :
    Runs (Along G P) m (fun _ => Along G P) fun _ => Along G P :=
  (still hm hG (R := fun _ _ => True) fun _ _ _ _ _ => trivial).post
    (fun _ _ _ h => ⟨h.1, h.2.1⟩) fun _ _ _ => id

end Runs

end Ironlock
