import Ironlock.SecureFs.Names
import Ironlock.SecureFs.OutputWrites
import Ironlock.SecureFs.Planning

/-! What the guard of a decryption batch lets through, and what it remembers. -/

namespace Ironlock
open ByteOrder (Bytes)
open Effect
open Fs (Identity Metadata SysCall)

/-! ## Programs that leave the guard alone -/

section
variable {α β : Type} {w w' : World} {g : DecryptionBatchGuard}

theorem GuardM.lift_apply (m : FsM α) (w : World) (g : DecryptionBatchGuard) :
    GuardM.lift m (w, g) = ((m w).1, ((m w).2, g)) := rfl

theorem GuardM.lift_eq {m : FsM α} {r : Except IronlockError α} {g' : DecryptionBatchGuard} :
    GuardM.lift m (w, g) = (r, (w', g')) ↔ m w = (r, w') ∧ g' = g := by
  rw [GuardM.lift_apply]
  constructor
  · rintro h
    cases h
    exact ⟨rfl, rfl⟩
  · rintro ⟨h, rfl⟩
    rw [h]

theorem GuardM.lift_bind (m : FsM α) (f : α → FsM β) :
    GuardM.lift (m >>= f) = GuardM.lift m >>= fun a => GuardM.lift (f a) := by
  funext ⟨w, g⟩
  rcases hm : m w with ⟨e | a, w'⟩
  · simp only [Eff.bind_apply, GuardM.lift_apply, hm]
  · simp only [Eff.bind_apply, GuardM.lift_apply, hm]

/-- The file system is as it was, whatever has become of the guard. -/
def GuardStill (s s' : World × DecryptionBatchGuard) : Prop := Still s.1 s'.1

instance : IsPreorder (World × DecryptionBatchGuard) GuardStill where
  refl s := refl_of Still s.1
  trans _ _ _ h h' := trans_of Still h h'

theorem guardStill_lift {m : FsM α} (hm : Within Still m) :
    Within GuardStill (GuardM.lift m) := fun s => hm s.1

/-- A program that only looks at a file system like `w`'s, and what it learns of it. -/
theorem GuardM.lift_still {m : FsM α} {R : α → Prop} (hm : Within Still m)
    (hR : ∀ w₁ a w₂, w₁.fs = w.fs → m w₁ = (.ok a, w₂) → R a) :
    Triple (fun s => s.2 = g ∧ Still w s.1) (GuardM.lift m)
      (fun a s => R a ∧ s.2 = g ∧ Still w s.1) fun _ s => s.2 = g ∧ Still w s.1 := by
  rintro ⟨w₁, g⟩ ⟨rfl, hstill⟩
  rw [GuardM.lift_apply]
  have hstill' := trans_of Still hstill (hm w₁)
  rcases hr : m w₁ with ⟨e | a, w₂⟩ <;> rw [hr] at hstill'
  · exact ⟨rfl, hstill'⟩
  · exact ⟨hR w₁ a w₂ hstill.1 hr, rfl, hstill'⟩

end

namespace DecryptionBatchGuard

/-- What a successful `reserve` has found out about the output and its key. -/
structure Reserved (env : Env) (fs : Fs) (output : Path) (g : DecryptionBatchGuard) (key : Bytes) :
    Prop where
  derived : ∃ q, fs.keyPath output = .ok q ∧ key = keyText env q
  fresh : key ∉ g.reservedOutputs
  links : ∀ names t, fs.resolve false output = .ok names → fs.node names ≠ some (.symlink t)
  handles : ∀ i, fs.IsFile output i → .file i ∉ g.sourceHandles

section
variable {env : Env} {w : World} {g : DecryptionBatchGuard}

theorem insertReserved_spec (key : Bytes) :
    Triple (fun s => s.2 = g ∧ Still w s.1) (insertReserved key)
      (fun new s => Still w s.1 ∧ match new with
        | true => key ∉ g.reservedOutputs ∧
          s.2 = { g with reservedOutputs := key :: g.reservedOutputs }
        | false => s.2 = g) fun _ s => s.2 = g ∧ Still w s.1 := by
  rintro ⟨w₁, g⟩ ⟨rfl, hstill⟩
  simp only [insertReserved, Eff.modifyGet]
  split
  · exact ⟨hstill, rfl⟩
  · exact ⟨hstill, ‹_›, rfl⟩

/-- `reserve` looks at the file system and at no time changes it. -/
theorem reserve_still (hq : env.Quiet) (source output : Path) :
    Within GuardStill (reserve env source output) := by
  have hfail {α : Type} (e : IronlockError) : Within GuardStill (Eff.fail e : GuardM α) := .fail e
  have hinsert (key : Bytes) : Within GuardStill (insertReserved key) := by
    rintro ⟨w, g⟩
    simp only [insertReserved, Eff.modifyGet]
    split <;> exact refl_of Still w
  refine .bind (guardStill_lift ((normalizedPathKey_looks _).still hq)) fun sourceKey => ?_
  refine .bind (fun s => refl_of GuardStill s) fun self => .ite (hfail _) ?_
  refine .bind (guardStill_lift ((normalizedPathKey_looks _).still hq)) fun outputKey => .ite (hfail _) ?_
  have hrest : Within GuardStill (do
      if ← insertReserved outputKey then return ()
      else Eff.fail (.outputCollision [.text "multiple encrypted inputs contain the output filename '",
        .path output, .text "'"]) : GuardM Unit) :=
    .bind (hinsert _) fun _ => .ite (.pure _) (hfail _)
  refine .bind (guardStill_lift ((symlinkMetadata_looks _).still hq)) fun r => ?_
  cases r with
  | error e => exact .ite hrest (.bind (hfail _) fun _ => hrest)
  | ok m =>
    refine .bind (guardStill_lift ((rejectLink_looks _ _).still hq)) fun _ => .ite ?_ hrest
    exact .bind (guardStill_lift ((handleFromPath_looks _).still hq)) fun _ =>
      .ite (.bind (hfail _) fun _ => hrest) hrest

/-- `reserve` only looks; it fails and leaves the guard as it was, or it adds
the output's key to it. -/
theorem reserve_spec (hq : env.Quiet) (hh : env.Honest) (source output : Path) :
    Triple (fun s => s.2 = g ∧ Still w s.1) (reserve env source output)
      (fun _ s => Still w s.1 ∧ ∃ key, Reserved env w.fs output g key ∧
        s.2 = { g with reservedOutputs := key :: g.reservedOutputs })
      fun _ s => s.2 = g ∧ Still w s.1 := by
  -- the last step, once the output has been seen to be free or another file
  have hinsert (key : Bytes) (hkey : ∃ q, w.fs.keyPath output = .ok q ∧ key = keyText env q)
      (hlinks : ∀ names t, w.fs.resolve false output = .ok names → w.fs.node names ≠ some (.symlink t))
      (hhandles : ∀ i, w.fs.IsFile output i → .file i ∉ g.sourceHandles) {e : IronlockError} :
      Triple (fun s => s.2 = g ∧ Still w s.1)
        (do if ← insertReserved key then return () else Eff.fail e : GuardM Unit)
        (fun _ s => Still w s.1 ∧ ∃ key, Reserved env w.fs output g key ∧
          s.2 = { g with reservedOutputs := key :: g.reservedOutputs })
        fun _ s => s.2 = g ∧ Still w s.1 := by
    refine .bind (insertReserved_spec key) fun new => ?_
    cases new with
    | true => exact .pure fun s hs => ⟨hs.1, key, ⟨hkey, hs.2.1, hlinks, hhandles⟩, hs.2.2⟩
    | false => exact .fail fun s hs => ⟨hs.2, hs.1⟩
  refine .bind (GuardM.lift_still (R := fun _ => True) ((normalizedPathKey_looks _).still hq)
    fun _ _ _ _ _ => trivial) fun sourceKey => .assuming fun _ => ?_
  refine .bind (Q := fun self s => self = g ∧ s.2 = g ∧ Still w s.1) ?_ fun self => .assuming ?_
  · rintro ⟨w₁, g⟩ ⟨rfl, hstill⟩
    exact ⟨rfl, rfl, hstill⟩
  rintro rfl
  refine .ite (fun _ => .fail fun _ => id) fun _ => ?_
  refine .bind (GuardM.lift_still (R := fun key => ∃ q, w.fs.keyPath output = .ok q ∧
    key = keyText env q) ((normalizedPathKey_looks _).still hq) ?_) fun outputKey => .assuming fun hkey => ?_
  · intro w₁ key w₂ hfs h
    rw [← hfs]
    exact normalizedPathKey_eq_ok hq hh h
  refine .ite (fun _ => .fail fun _ => id) fun _ => ?_
  refine .bind (GuardM.lift_still (R := fun r => Tells env (Fs.symlinkMetadata output) w.fs r)
    ((symlinkMetadata_looks _).still hq) ?_) fun r => .assuming fun htells => ?_
  · intro w₁ r w₂ hfs h
    rw [← hfs]
    exact (hq.try_tells look_snd h).1
  cases r with
  | error e =>
    refine .ite (fun he => ?_) fun _ => .bind (Q := fun _ _ => False) (.fail fun _ => id)
      fun _ _ hs => hs.elim
    have habsent := hh.notFound htells he
    have hnone : ∀ names x, w.fs.resolve false output = .ok names → w.fs.node names ≠ some x := by
      intro names x hr hx
      simp [Fs.symlinkMetadata, Fs.look, hr, hx] at habsent
    refine hinsert _ hkey (fun names t hr => hnone names _ hr) ?_
    rintro i ⟨names, hr, hx⟩
    exact absurd hx (hnone names _ hr)
  | ok m =>
    obtain ⟨names, x, hr, hx, hm⟩ := look_eq_ok htells.ok
    have hunique : ∀ names', w.fs.resolve false output = .ok names' → names' = names := by
      intro names' hr'
      rw [hr] at hr'; cases hr'; rfl
    refine .bind (GuardM.lift_still (R := fun _ => m.isSymlink = false) ((rejectLink_looks _ _).still hq) ?_)
      fun _ => .assuming fun hlink => ?_
    · intro w₁ a w₂ _ h
      unfold rejectLinkOrReparse at h
      split at h
      · cases h
      · exact Bool.eq_false_of_not_eq_true ‹_›
    have hlinks : ∀ names t, w.fs.resolve false output = .ok names →
        w.fs.node names ≠ some (.symlink t) := by
      intro names' t hr' ht
      rw [hunique _ hr', hx] at ht
      cases ht
      cases hm
      cases hlink
    refine .ite (fun hfile => ?_) fun hfile => ?_
    · refine .bind (GuardM.lift_still (R := fun handle => ∀ i, w.fs.IsFile output i →
        handle = .file i) ((handleFromPath_looks _).still hq) ?_) fun handle => .assuming fun hhandle => ?_
      · intro w₁ handle w₂ hfs h i hi
        exact handleFromPath_isFile hq h (hfs ▸ hi)
      refine .ite (fun _ => .bind (Q := fun _ _ => False) (.fail fun _ => id)
        fun _ _ hs => hs.elim) fun hnot => ?_
      exact hinsert _ hkey hlinks fun i hi => hhandle i hi ▸ hnot
    · refine hinsert _ hkey hlinks ?_
      rintro i ⟨names', hr', hx'⟩
      rw [hunique _ hr', hx] at hx'
      cases hx'
      cases hm
      exact absurd rfl hfile

end

end DecryptionBatchGuard

end Ironlock
