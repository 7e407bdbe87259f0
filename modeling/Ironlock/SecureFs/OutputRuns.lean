import Ironlock.SecureFs.OutputStages

/-! The life of an atomic output, from its opening to its end: whatever fails,
it touches only the places it made and the one it was opened for. -/

namespace Ironlock
open ByteOrder (Bytes)
open Effect
open Fs (Identity Metadata SysCall)

/-! ## Opening -/

section
variable {env : Env} {G P : Fs → Prop} {destination : Path} {d : List Name}

theorem observe_looks (destination : Path) :
    Looks env (AtomicOutput.observe env destination) :=
  .bind (symlinkMetadata_looks _) fun r => by
    cases r with
    | error e => exact .ite (.pure _) (.fail _)
    | ok m =>
      exact .bind (rejectLink_looks _ _) fun _ => .ite (.fail _) <|
        .bind (handleFromPath_looks _) fun _ => .pure _

theorem approve_looks (destination : Path) (force : Bool)
    (observed : Option Identity) :
    Looks env (AtomicOutput.approve env destination force observed) := by
  cases observed with
  | none => exact .pure _
  | some observed =>
    exact .bind (checkOverwrite_looks _ _) fun _ => .bind (handleFromPath_looks _) fun _ =>
      .ite (.fail _) (.pure _)

/-- An observed destination is a regular file in the parent directory. -/
theorem observe_eq_ok (hq : env.Quiet) {w w' : World} {handle : Identity}
    (hplain : w.fs.Plain destination.parentOrHere d) (hne : destination.parentOrHere ≠ .empty)
    (h : AtomicOutput.observe env destination w = (.ok (some handle), w')) :
    ∃ n j, w.fs.At destination d n ∧ handle = .file j ∧
      w.fs.nodeAt (w.fs.entryLoc d n) = some (.file j) := by
  obtain ⟨r, w₁, hr, h⟩ := Eff.bind_eq_ok.1 h
  cases r with
  | error e => simp only at h; split at h <;> cases h
  | ok m =>
    obtain ⟨names, x, hresolve, hx, hm⟩ := symlinkMetadata_eq_ok hq hr
    obtain ⟨_, w₂, hreject, h⟩ := Eff.bind_eq_ok.1 h
    split at h
    · cases h
    rename_i hfile
    obtain ⟨j, hj⟩ := Metadata.isFile_iff.1 (Bool.eq_true_of_not_eq_false hfile)
    obtain rfl : x = .file j := by rw [hm] at hj; exact hj
    obtain ⟨n, hat, rfl⟩ := hplain.at_of_resolve rfl hne hresolve (by rw [hx]; nofun)
    obtain ⟨handle', w₃, hhandle, h⟩ := Eff.bind_eq_ok.1 h
    cases h
    have hfs : w₂.fs = w.fs := by
      rw [(((rejectLink_looks _ _).still hq).run hreject).1, (((symlinkMetadata_looks _).still hq).run hr).1]
    obtain ⟨names', y, hr', hy, hid⟩ := handleFromPath_eq_ok hq hhandle
    rw [hfs] at hr' hy hid
    rw [hat.resolve (.inr fun t ht => by rw [hx] at ht; cases ht)] at hr'
    cases hr'
    rw [hx] at hy
    cases hy
    exact ⟨n, j, hat, (Except.ok.inj hid).symm, hx⟩

theorem AtomicOutput.new_runs (hq : env.Quiet) (h : Growing G P)
    (hcreate : ∀ base d n, P base → base.nodeAt (base.entryLoc d n) = none →
      G (base.create (base.loc d) n)) (destination : Path) (force : Bool) :
    Runs (Along G P) (AtomicOutput.new env destination force)
      (fun o => Along G fun fs => ∃ base d a b, P base ∧ o.Ready base d a b ∧
        o.destination = destination ∧ fs = base.create (base.loc d) (tempName a b))
      fun _ => Along G P := by
  refine .bind (ensureSafeDirectory_runs hq h _) fun _ => ?_
  refine Runs.pre (Φ := Along G fun fs => ∃ d, destination.parentOrHere ≠ .empty ∧ P fs ∧
    fs.Plain destination.parentOrHere d) (.along_exists fun d => .along_assuming fun hne => ?_)
    fun steps fs ⟨hall, hP, hne, d, hd⟩ => ⟨hall, d, hne, hP, hd⟩
  -- what the later steps know of the observed destination
  let Observed (o : Option Identity) (fs : Fs) : Prop := ∀ handle, o = some handle → ∃ n j,
    fs.At destination d n ∧ handle = .file j ∧ fs.nodeAt (fs.entryLoc d n) = some (.file j)
  let Q (o : Option Identity) (fs : Fs) : Prop :=
    (P fs ∧ fs.Plain destination.parentOrHere d) ∧ Observed o fs
  have hobserve : Runs (Along G fun fs => P fs ∧ fs.Plain destination.parentOrHere d)
      (observe env destination) (fun o => Along G (Q o)) fun _ => Along G P := by
    refine (Runs.still ((observe_looks destination).still hq) (fun fs hfs => h.every fs hfs.1)
      (R := Observed) ?_).post (fun _ _ _ => id) fun _ _ _ hfs => ⟨hfs.1, hfs.2.1⟩
    rintro w o w' ⟨-, hplain⟩ hobserve handle rfl
    exact observe_eq_ok hq hplain hne hobserve
  have happrove (o : Option Identity) : Runs (Along G (Q o)) (approve env destination force o)
      (fun _ => Along G (Q o)) fun _ => Along G P :=
    (Runs.still ((approve_looks destination force o).still hq) (fun fs hfs => h.every fs hfs.1.1)
      (R := fun _ _ => True) fun _ _ _ _ _ => trivial).post
      (fun _ _ _ hfs => ⟨hfs.1, hfs.2.1⟩) fun _ _ _ hfs => ⟨hfs.1, hfs.2.1.1⟩
  have htemp (o : Option Identity) : Runs (Along G (Q o))
      (createPrivateTemp env destination.parentOrHere)
      (fun temp => Along G fun fs => ∃ base a b, Q o base ∧
        temp = (destination.parentOrHere.push (.name (tempName a b)), base.nextInode) ∧
        base.nodeAt (base.entryLoc d (tempName a b)) = none ∧
        fs = base.create (base.loc d) (tempName a b)) fun _ => Along G P := by
    refine (createPrivateTempIn_runs hq.stable (fun _ _ hfs => hfs.2.1.2) ?_ ?_ 128).post
      (fun _ _ _ => id) fun _ _ _ hfs => ⟨hfs.1, hfs.2.1.1⟩
    · exact fun steps fs p fault hfs => ⟨Runs.along_concat hfs.1 (h.every fs hfs.2.1.1), hfs.2⟩
    · intro steps fs a b hfs hnone
      exact ⟨Runs.along_concat hfs.1 (hcreate fs d _ hfs.2.1.1 hnone), fs, a, b, hfs.2, rfl, hnone,
        rfl⟩
  refine .bind hobserve fun o => .bind (happrove o) fun _ => .bind (htemp o) fun temp => .pure ?_
  rintro steps fs ⟨hall, base, a, b, ⟨⟨hP, hplain⟩, hobserved⟩, rfl, hnone, rfl⟩
  exact ⟨hall, base, d, a, b, hP, ⟨hplain, hne, rfl, hnone, rfl, hobserved⟩, rfl, rfl⟩

end

/-! ## Writing -/

section
variable {env : Env} {Φ : Bytes → Assertion} {i : Nat}

theorem appendAll_runs (Χ : IronlockError → Assertion) (hs : ∀ c, env.Stable (Φ c))
    (happend : ∀ c steps fs b, Φ c steps fs →
      Φ (c ++ b) (steps ++ [⟨.write (.file i), none, fs, fs.append i b⟩]) (fs.append i b))
    (c : Bytes) (bs : List Bytes) :
    Runs (Φ c) (Sys.appendAll env i bs) (fun _ => Φ (c ++ bs.flatten)) Χ := by
  induction bs generalizing c with
  | nil => exact .pure fun _ _ h => by simpa using h
  | cons b bs ih =>
    refine .bind (Ψ := fun _ => Φ (c ++ b)) (.perform (hs c) fun steps fs h => happend c steps fs b h)
      fun _ => ?_
    simpa using ih (c ++ b)

/-- A streaming program has written what its writer accepted, also when it
fails. -/
theorem stream_runs {α : Type} (hs : ∀ c, env.Stable (Φ c))
    (happend : ∀ c steps fs b, Φ c steps fs →
      Φ (c ++ b) (steps ++ [⟨.write (.file i), none, fs, fs.append i b⟩]) (fs.append i b))
    (c : Bytes) (r : Reader) (m : StreamM α) :
    Runs (Φ c) (Sys.stream env r i m)
      (fun a steps fs => ∃ accepts s', m ⟨r, ⟨accepts, []⟩, []⟩ = (.ok a, s') ∧
        Φ (c ++ s'.writer.written) steps fs)
      fun _ steps fs => ∃ c', Φ c' steps fs := by
  intro w₀ w hw
  rcases hm : m ⟨r, ⟨env.accepts w.calls, []⟩, []⟩ with ⟨result, s'⟩
  have hrun : Runs (Φ c) (do
      Sys.appendAll env i s'.writer.portions
      Eff.ofExcept result)
      (fun a steps fs => ∃ accepts s', m ⟨r, ⟨accepts, []⟩, []⟩ = (.ok a, s') ∧
        Φ (c ++ s'.writer.written) steps fs)
      fun _ steps fs => ∃ c', Φ c' steps fs := by
    refine .bind (appendAll_runs _ hs happend c _) fun _ => .ofExcept ?_ ?_
    · rintro a rfl steps fs h
      exact ⟨_, _, hm, h⟩
    · exact fun e _ steps fs h => ⟨_, h⟩
  have := hrun w₀ w hw
  unfold Sys.stream
  rw [hm]
  exact this

end

/-! ## Committing -/

theorem syncParent_looks {env : Env} (p : Path) :
    Looks env (syncParent env p) :=
  .bind (openRead_looks p) fun _ => syncAll_looks _

namespace AtomicOutput

/-- The destination has what it had, or the new file, or nothing while what it
had is under a temporary name. -/
def Settled (o : AtomicOutput) (base : Fs) (d : List Name) (n : Name) (f : Loc → Option Node) : Prop :=
  f (base.entryLoc d n) = base.nodeAt (base.entryLoc d n) ∨
    f (base.entryLoc d n) = some (.file o.file) ∨
    f (base.entryLoc d n) = none ∧ ∃ a b, f (base.entryLoc d (tempName a b)) =
      base.nodeAt (base.entryLoc d n)

/-- Whatever failed, the file system is that of `base` except at the destination
and at places where `base` has nothing, and the temporary file is there or gone. -/
def Left (o : AtomicOutput) (base : Fs) (d : List Name) (a b : UInt64) (n : Name) (c : Bytes)
    (fs : Fs) : Prop :=
  ∃ f, Over base c f fs ∧
    (∀ l x, base.nodeAt l = some x → l ≠ base.entryLoc d n → f l = some x) ∧
    (f (base.entryLoc d (tempName a b)) = none ∨
      f (base.entryLoc d (tempName a b)) = some (.file o.file)) ∧ o.Settled base d n f

/-- So it is, and the old destination is in quarantine, or nothing is. -/
def LeftBehind (o : AtomicOutput) (base : Fs) (d : List Name) (a b : UInt64) (n : Name) (j : Nat)
    (c : Bytes) (a' b' : UInt64) (fs : Fs) : Prop :=
  o.Left base d a b n c fs ∧ (fs.nodeAt (fs.entryLoc d (tempName a' b')) = none ∨
    fs.nodeAt (fs.entryLoc d (tempName a' b')) = some (.file j))

namespace Ready

variable {env : Env} {G : Fs → Prop} {o : AtomicOutput} {base fs : Fs} {d : List Name}
  {a b a' b' : UInt64} {n : Name} {c : Bytes} {j : Nat}

theorem written_left (h : o.Ready base d a b) (hw : o.Written base d a b c fs) :
    o.Left base d a b n c fs := by
  refine ⟨_, hw, fun l x hx _ => ?_, .inr (Function.update_self ..), ?_⟩
  · have : l ≠ base.entryLoc d (tempName a b) := by rintro rfl; rw [h.absent] at hx; cases hx
    rw [Fs.written, Function.update_of_ne this, hx]
  · by_cases heq : base.entryLoc d n = base.entryLoc d (tempName a b)
    · exact .inr (.inl (by rw [heq, Fs.written, Function.update_self]))
    · exact .inl (by rw [Fs.written, Function.update_of_ne heq])

theorem moved_left (h : o.Ready base d a b) (hf : o.Free base d a b a' b')
    (hold : base.nodeAt (base.entryLoc d n) = some (.file j))
    (hm : o.Moved base d a b n j c a' b' fs) : o.LeftBehind base d a b n j c a' b' fs := by
  have hquarantine := moved_old hf hold hm
  refine ⟨⟨_, hm, fun l x hx hl => ?_, .inr ?_, .inr (.inr ⟨Function.update_self .., a', b', ?_⟩)⟩,
    .inr hquarantine⟩
  · have ht : l ≠ base.entryLoc d (tempName a b) := by rintro rfl; rw [h.absent] at hx; cases hx
    have hq : l ≠ base.entryLoc d (tempName a' b') := by rintro rfl; rw [hf.absent] at hx; cases hx
    rw [Fs.moved, Function.update_of_ne hl, Function.update_of_ne hq, Fs.written,
      Function.update_of_ne ht, hx]
  · have := h.moved_temp hf hold hm
    rwa [hm.nodeAt, hm.entryLoc] at this
  · rwa [hm.nodeAt, hm.entryLoc, ← hold] at hquarantine

theorem swapped_left (h : o.Ready base d a b) (hf : o.Free base d a b a' b')
    (hold : base.nodeAt (base.entryLoc d n) = some (.file j))
    (hs : o.Swapped base d n j c a' b' fs) : o.LeftBehind base d a b n j c a' b' fs := by
  refine ⟨⟨_, hs, fun l x hx hl => ?_, .inl ?_, .inr (.inl (Function.update_self ..))⟩,
    .inr (swapped_old hf hold hs)⟩
  · have hq : l ≠ base.entryLoc d (tempName a' b') := by rintro rfl; rw [hf.absent] at hx; cases hx
    rw [Fs.swapped, Function.update_of_ne hl, Function.update_of_ne hq, hx]
  · have := h.swapped_temp hf hold hs
    rwa [hs.nodeAt, hs.entryLoc] at this

theorem installed_left (h : o.Ready base d a b)
    (hne : base.entryLoc d (tempName a b) ≠ base.entryLoc d n)
    (hi : o.Installed base d n c fs) : o.Left base d a b n c fs := by
  refine ⟨_, hi, fun l x hx hl => ?_, .inl ?_, .inr (.inl (Function.update_self ..))⟩
  · rw [Fs.installed, Function.update_of_ne hl, hx]
  · rw [Fs.installed, Function.update_of_ne hne, h.absent]

theorem left_drop (h : o.Ready base d a b) {i : Nat} (hl : o.Left base d a b n c fs)
    (hi : fs.nodeAt (fs.entryLoc d (tempName a b)) = some (.file i)) :
    o.Left base d a b n c (fs.erase (fs.entryLoc d (tempName a b))) := by
  obtain ⟨f, hf, haround, htemp, hsettled⟩ := hl
  rw [hf.nodeAt, hf.entryLoc] at hi
  refine ⟨_, hf.erase hi, fun l x hx hl => ?_, .inl (Function.update_self ..), ?_⟩
  · have : l ≠ base.entryLoc d (tempName a b) := by rintro rfl; rw [h.absent] at hx; cases hx
    rw [Function.update_of_ne this]
    exact haround l x hx hl
  by_cases heq : base.entryLoc d n = base.entryLoc d (tempName a b)
  · exact .inl (by rw [heq, Function.update_self, h.absent])
  rw [Settled, Function.update_of_ne heq]
  refine hsettled.imp id (.imp id fun ⟨hnone, a', b', hq⟩ => ⟨hnone, a', b', ?_⟩)
  -- the file in quarantine was there before the temporary file
  rw [Function.update_of_ne, hq]
  intro heq'
  rw [heq', hi] at hq
  rcases htemp with ht | ht
  · rw [hi] at ht; cases ht
  · rw [hi] at ht; cases ht
    have := Fs.nodeAt_lt hq.symm
    rw [h.file] at this
    exact lt_irrefl _ this

theorem left_restore (hf : o.Free base d a b a' b')
    (hold : base.nodeAt (base.entryLoc d n) = some (.file j))
    (hne : base.entryLoc d (tempName a b) ≠ base.entryLoc d n)
    (hl : o.Left base d a b n c fs) (hj : fs.nodeAt (fs.entryLoc d (tempName a' b')) = some (.file j))
    (hnone : fs.nodeAt (fs.entryLoc d n) = none) :
    o.Left base d a b n c (fs.move (fs.entryLoc d (tempName a' b')) (fs.loc d) n) := by
  obtain ⟨f, hover, haround, htemp, -⟩ := hl
  rw [hover.nodeAt, hover.entryLoc] at hj hnone
  refine ⟨_, hover.move hj hnone, fun l x hx hl => ?_, ?_, .inl ?_⟩
  · have : l ≠ base.entryLoc d (tempName a' b') := by rintro rfl; rw [hf.absent] at hx; cases hx
    rw [Function.update_of_ne this, Function.update_of_ne hl]
    exact haround l x hx hl
  · rw [Function.update_of_ne hf.ne_temp, Function.update_of_ne hne]
    exact htemp
  · rw [Function.update_of_ne (hf.ne_dest hold).symm, Function.update_self, hold]

variable (hG : ∀ fs, o.Left base d a b n c fs → G fs)
include hG

theorem drop_runs (h : o.Ready base d a b) (hq : env.Quiet) :
    Runs (Along G (o.Left base d a b n c)) (o.drop env) (fun _ => Along G (o.Left base d a b n c))
      fun _ => Along G (o.Left base d a b n c) := by
  refine .bind (Ψ := fun _ => Along G (o.Left base d a b n c)) (removeFile_runs hq.stable
    (fun _ _ ⟨_, f, hf, _⟩ => (h.temp_at hf.keeps).reaches) ?_ ?_ ?_ ?_) fun _ => .pure fun _ _ => id
  · rintro steps fs ⟨_, f, hf, -, htemp, -⟩
    rw [hf.nodeAt, hf.entryLoc]
    exact htemp.imp id fun ht => ⟨_, ht⟩
  · exact fun steps fs e hfs _ => ⟨Runs.along_concat hfs.1 (hG _ hfs.2), hfs.2⟩
  · exact fun steps fs hfs _ => ⟨Runs.along_concat hfs.1 (hG _ hfs.2), hfs.2⟩
  · intro steps fs i hfs hi
    have hl := h.left_drop hfs.2 hi
    exact ⟨Runs.along_concat hfs.1 (hG _ hl), hl⟩

theorem restore_runs (h : o.Ready base d a b) (hq : env.Quiet) (hat : base.At o.destination d n)
    (hf : o.Free base d a b a' b') (hold : base.nodeAt (base.entryLoc d n) = some (.file j)) :
    Runs (Along G (o.LeftBehind base d a b n j c a' b'))
      (QuarantinedFile.restore env (o.quarantined a' b'))
      (fun _ => Along G (o.Left base d a b n c)) fun _ => Along G (o.Left base d a b n c) := by
  refine .bind ((Runs.still_along ((exists_looks _).still hq) fun fs hfs => hG fs hfs.1).post
    (fun _ _ _ => id) fun _ _ _ hfs => ⟨hfs.1, hfs.2.1⟩) fun present => ?_
  refine .ite (fun _ => .pure fun _ _ hfs => ⟨hfs.1, hfs.2.1⟩) fun _ => ?_
  refine .bind (Ψ := fun _ => Along G (o.Left base d a b n c)) (.attempt ?_)
    fun _ => .pure fun _ _ => id
  refine installTemp_runs hq.stable (fun _ _ ⟨_, ⟨_, hover, _⟩, _⟩ => (h.quarantine_at hover.keeps a' b').reaches)
    (fun _ _ hfs => hfs.2.2) (fun _ _ ⟨_, ⟨_, hover, _⟩, _⟩ => (hat.keep hover.keeps).reaches) ?_ ?_ ?_
  · exact fun steps fs e hfs _ => ⟨Runs.along_concat hfs.1 (hG _ hfs.2.1), hfs.2.1⟩
  · exact fun steps fs hfs _ => ⟨Runs.along_concat hfs.1 (hG _ hfs.2.1), hfs.2.1⟩
  · intro steps fs hfs hj hnone
    have hl := left_restore hf hold (h.ne_dest hold) hfs.2.1 hj hnone
    exact ⟨Runs.along_concat hfs.1 (hG _ hl), hl⟩

theorem replace_runs (h : o.Ready base d a b) (hq : env.Quiet) (hat : base.At o.destination d n)
    (hold : base.nodeAt (base.entryLoc d n) = some (.file j)) :
    Runs (Along G (o.Written base d a b c)) (o.replace env (.file j))
      (fun q => Along G fun fs => ∃ a' b', q = o.quarantined a' b' ∧ o.Free base d a b a' b' ∧
        o.Swapped base d n j c a' b' fs)
      fun _ => Along G (o.Left base d a b n c) := by
  have hne := h.ne_dest hold
  have hquarantine : Runs (Along G (o.Written base d a b c))
      (QuarantinedFile.new env o.destination)
      (fun q => Along G fun fs => ∃ a' b', q = o.quarantined a' b' ∧ o.Free base d a b a' b' ∧
        o.Moved base d a b n j c a' b' fs)
      fun _ => Along G (o.Left base d a b n c) := by
    refine (quarantine_runs hq.stable (fun _ _ hfs => (hat.keep hfs.2.keeps).placed)
      (fun _ _ hfs => .inr (h.written_old hold hfs.2)) ?_ ?_).post
      (fun _ _ _ => id) fun _ _ _ hfs => ⟨hfs.1, h.written_left hfs.2⟩
    · exact fun steps fs dst fault hfs =>
        ⟨Runs.along_concat hfs.1 (hG _ (h.written_left hfs.2)), hfs.2⟩
    · intro steps fs a' b' hfs _ hnone
      obtain ⟨hf, hm⟩ := h.written_quarantine hold hfs.2 hnone
      exact ⟨Runs.along_concat hfs.1 (hG _ (h.moved_left hf hold hm).1), a', b', rfl, hf, hm⟩
  refine .bind hquarantine fun q => .along_exists fun a' => .along_exists fun b' =>
    .along_assuming fun hq' => .along_assuming fun hf => ?_
  subst hq'
  have hlook : Runs (Along G (o.Moved base d a b n j c a' b'))
      (Sys.handleFromPath env (o.quarantined a' b').quarantine)
      (fun _ => Along G (o.Moved base d a b n j c a' b'))
      fun _ => Along G (o.LeftBehind base d a b n j c a' b') :=
    (Runs.still_along ((handleFromPath_looks _).still hq) fun fs hm => hG fs (h.moved_left hf hold hm).1).post
      (fun _ _ _ => id) fun _ _ _ hfs => ⟨hfs.1, h.moved_left hf hold hfs.2⟩
  have hinstall : Runs (Along G (o.Moved base d a b n j c a' b'))
      (installTemp env o.tempPath o.destination)
      (fun _ => Along G (o.Swapped base d n j c a' b'))
      fun _ => Along G (o.LeftBehind base d a b n j c a' b') := by
    refine installTemp_runs hq.stable (fun _ _ hfs => (h.temp_at hfs.2.keeps).reaches)
      (fun _ _ hfs => .inr (h.moved_temp hf hold hfs.2)) (fun _ _ hfs => (hat.keep hfs.2.keeps).reaches)
      ?_ ?_ ?_
    · intro steps fs e hfs _
      have hl := h.moved_left hf hold hfs.2
      exact ⟨Runs.along_concat hfs.1 (hG _ hl.1), hl⟩
    · intro steps fs hfs _
      have hl := h.moved_left hf hold hfs.2
      exact ⟨Runs.along_concat hfs.1 (hG _ hl.1), hl⟩
    · intro steps fs hfs _ _
      have hs := h.moved_install hf hold hfs.2
      exact ⟨Runs.along_concat hfs.1 (hG _ (h.swapped_left hf hold hs).1), hs⟩
  have hsync : Runs (Along G (o.Swapped base d n j c a' b'))
      (syncParent env o.destination.parentOrHere)
      (fun _ => Along G (o.Swapped base d n j c a' b'))
      fun _ => Along G (o.LeftBehind base d a b n j c a' b') :=
    (Runs.still_along ((syncParent_looks _).still hq) fun fs hs => hG fs (h.swapped_left hf hold hs).1).post
      (fun _ _ _ => id) fun _ _ _ hfs => ⟨hfs.1, h.swapped_left hf hold hfs.2⟩
  refine .bind (.onError (Θ := fun _ => Along G (o.LeftBehind base d a b n j c a' b'))
    (Ψ := fun _ => Along G (o.Swapped base d n j c a' b')) ?_ fun _ => h.restore_runs hG hq hat hf hold)
    fun _ => .pure fun _ _ hfs => ⟨hfs.1, a', b', rfl, hf, hfs.2⟩
  exact .bind hlook fun _ => .ite
    (fun _ => .fail fun _ _ hfs => ⟨hfs.1, h.moved_left hf hold hfs.2⟩) fun _ =>
    .bind hinstall fun _ => hsync

theorem install_runs (h : o.Ready base d a b) (hq : env.Quiet) (hat : base.At o.destination d n) :
    Runs (Along G (o.Written base d a b c)) (o.install env)
      (fun _ => Along G (o.Installed base d n c)) fun _ => Along G (o.Left base d a b n c) := by
  have hwritten : ∀ fs, o.Written base d a b c fs → o.Left base d a b n c fs :=
    fun fs => h.written_left
  let Done (fs : Fs) : Prop := o.Installed base d n c fs ∧ o.Left base d a b n c fs
  have hinstall : Runs (Along G (o.Written base d a b c)) (installTemp env o.tempPath o.destination)
      (fun _ => Along G Done) fun _ => Along G (o.Left base d a b n c) := by
    refine installTemp_runs hq.stable (fun _ _ hfs => (h.temp_at hfs.2.keeps).reaches)
      (fun _ _ hfs => .inr (written_temp hfs.2)) (fun _ _ hfs => (hat.keep hfs.2.keeps).reaches) ?_ ?_ ?_
    · exact fun steps fs e hfs _ => ⟨Runs.along_concat hfs.1 (hG _ (hwritten _ hfs.2)), hwritten _ hfs.2⟩
    · exact fun steps fs hfs _ => ⟨Runs.along_concat hfs.1 (hG _ (hwritten _ hfs.2)), hwritten _ hfs.2⟩
    · intro steps fs hfs _ hnone
      have hne : base.entryLoc d (tempName a b) ≠ base.entryLoc d n := by
        intro heq
        have := written_temp hfs.2
        rw [hfs.2.entryLoc, heq, ← hfs.2.entryLoc, hnone] at this; cases this
      have hi := h.written_install hfs.2 hnone
      have hl := h.installed_left hne hi
      exact ⟨Runs.along_concat hfs.1 (hG _ hl), hi, hl⟩
  have hlook : Runs (Along G (o.Written base d a b c)) (Sys.symlinkMetadata env o.destination)
      (fun _ => Along G (o.Written base d a b c)) fun _ => Along G (o.Left base d a b n c) :=
    (Runs.still_along ((symlinkMetadata_looks _).still hq) fun fs hfs => hG fs (hwritten fs hfs)).post
      (fun _ _ _ => id) fun _ _ _ hfs => ⟨hfs.1, hwritten _ hfs.2⟩
  have hsync : Runs (Along G Done) (syncParent env o.destination.parentOrHere)
      (fun _ => Along G (o.Installed base d n c)) fun _ => Along G (o.Left base d a b n c) :=
    (Runs.still_along ((syncParent_looks _).still hq) fun fs hfs => hG fs hfs.2).post
      (fun _ _ _ hfs => ⟨hfs.1, hfs.2.1⟩) fun _ _ _ hfs => ⟨hfs.1, hfs.2.2⟩
  have hfail {β : Type} {e : IronlockError} {Ψ : β → Assertion} :
      Runs (Along G (o.Written base d a b c)) (Eff.fail e) Ψ fun _ =>
        Along G (o.Left base d a b n c) := .fail fun _ _ hfs => ⟨hfs.1, hwritten _ hfs.2⟩
  refine .bind hlook fun r => ?_
  have hrest := Runs.bind hinstall fun _ => hsync
  cases r with
  | ok m =>
    refine .bind ((Runs.still_along ((rejectLink_looks _ _).still hq) fun fs hfs => hG fs (hwritten fs hfs)).post
      (fun _ _ _ => id) fun _ _ _ hfs => ⟨hfs.1, hwritten _ hfs.2⟩) fun _ => ?_
    exact .bind (Ψ := fun _ => Along G (o.Written base d a b c)) hfail fun _ => hrest
  | error e =>
    exact .ite (fun _ => hrest) fun _ => .bind (Ψ := fun _ => Along G (o.Written base d a b c))
      hfail fun _ => hrest

/-- What `commit` has when it sets `committed`. -/
def Committed (o : AtomicOutput) (base : Fs) (d : List Name) (a b : UInt64) (n : Name) (c : Bytes) :
    Option QuarantinedFile → Fs → Prop
  | none, fs => o.Installed base d n c fs
  | some q, fs => ∃ j a' b', q = o.quarantined a' b' ∧
      base.nodeAt (base.entryLoc d n) = some (.file j) ∧ o.Free base d a b a' b' ∧
      o.Swapped base d n j c a' b' fs

theorem publish_runs (h : o.Ready base d a b) (hq : env.Quiet) (hat : base.At o.destination d n) :
    Runs (Along G (o.Written base d a b c)) (o.publish env)
      (fun q => Along G (Committed o base d a b n c q)) fun _ => Along G (o.Left base d a b n c) := by
  have hstill {m : FsM Unit} (hm : Within Still m) : Runs (Along G (o.Written base d a b c)) m
      (fun _ => Along G (o.Written base d a b c)) fun _ => Along G (o.Left base d a b n c) :=
    (Runs.still_along hm fun fs hfs => hG fs (h.written_left hfs)).post (fun _ _ _ => id)
      fun _ _ _ hfs => ⟨hfs.1, h.written_left hfs.2⟩
  refine .bind (hstill ((flush_looks _).still hq)) fun _ => .bind (hstill ((syncAll_looks _).still hq)) fun _ => ?_
  rcases hobs : o.observedDestination with _ | handle
  · exact .bind (h.install_runs hG hq hat) fun _ => .pure fun _ _ => id
  · obtain ⟨n', j, hat', rfl, hold⟩ := h.observed handle hobs
    obtain ⟨-, rfl⟩ := hat.unique hat'
    refine .bind (h.replace_runs hG hq hat hold) fun q => .pure ?_
    rintro steps fs ⟨hall, a', b', rfl, hf, hs⟩
    exact ⟨hall, j, a', b', rfl, hold, hf, hs⟩

theorem remove_runs (h : o.Ready base d a b) (hq : env.Quiet) (hat : base.At o.destination d n)
    (hold : base.nodeAt (base.entryLoc d n) = some (.file j)) (hf : o.Free base d a b a' b') :
    Runs (Along G (o.Swapped base d n j c a' b'))
      (QuarantinedFile.remove env (o.quarantined a' b'))
      (fun _ => Along G (o.Installed base d n c)) fun _ => Along G (o.Left base d a b n c) := by
  have hne := h.ne_dest hold
  have hleft : ∀ fs, o.Swapped base d n j c a' b' fs → o.LeftBehind base d a b n j c a' b' fs :=
    fun fs => h.swapped_left hf hold
  have hinstalled : ∀ fs, o.Installed base d n c fs → o.LeftBehind base d a b n j c a' b' fs := by
    intro fs hi
    refine ⟨h.installed_left hne hi, .inl ?_⟩
    rw [hi.nodeAt, hi.entryLoc, Fs.installed, Function.update_of_ne (hf.ne_dest hold), hf.absent]
  refine .onError (Θ := fun _ => Along G (o.LeftBehind base d a b n j c a' b')) ?_
    fun _ => h.restore_runs hG hq hat hf hold
  have hremove : Runs (Along G (o.Swapped base d n j c a' b'))
      (Sys.try_ env (.removeFile (o.quarantined a' b').quarantine)
        (Fs.removeFile (o.quarantined a' b').quarantine))
      (Assertion.either (fun _ => Along G (o.Installed base d n c))
        fun _ => Along G (o.LeftBehind base d a b n j c a' b'))
      fun _ => Along G (o.LeftBehind base d a b n j c a' b') := by
    refine removeFile_runs hq.stable (fun _ _ hfs => (h.quarantine_at hfs.2.keeps a' b').reaches)
      (fun _ _ hfs => .inr ⟨j, swapped_old hf hold hfs.2⟩) ?_ ?_ ?_
    · exact fun steps fs e hfs _ => ⟨Runs.along_concat hfs.1 (hG _ (hleft _ hfs.2).1), hleft _ hfs.2⟩
    · exact fun steps fs hfs _ => ⟨Runs.along_concat hfs.1 (hG _ (hleft _ hfs.2).1), hleft _ hfs.2⟩
    · intro steps fs i hfs _
      have hi := swapped_remove hf hold hfs.2
      exact ⟨Runs.along_concat hfs.1 (hG _ (hinstalled _ hi).1), hi⟩
  refine .bind (.bind hremove fun r => ?_) fun _ =>
    (Runs.still_along ((syncParent_looks _).still hq) fun fs hfs => hG fs (hinstalled fs hfs).1).post
      (fun _ _ _ => id) fun _ _ _ hfs => ⟨hfs.1, hinstalled _ hfs.2⟩
  cases r with
  | ok _ => exact .pure fun _ _ => id
  | error e => exact .fail fun _ _ => id

/-- Whatever fails, `commit` touches nothing but the output's own places; when
it succeeds the new file is at the destination and nothing else has changed. -/
theorem commit_runs (h : o.Ready base d a b) (hq : env.Quiet) (hat : base.At o.destination d n) :
    Runs (Along G (o.Written base d a b c)) (o.commit env)
      (fun p => Along G fun fs => p = o.destination ∧ o.Installed base d n c fs)
      fun _ => Along G (o.Left base d a b n c) := by
  refine .bind (.onError (h.publish_runs hG hq hat) fun _ => h.drop_runs hG hq) fun q => ?_
  cases q with
  | none => exact .pure fun _ _ hfs => ⟨hfs.1, rfl, hfs.2⟩
  | some q =>
    refine .along_exists fun j => .along_exists fun a' => .along_exists fun b' =>
      .along_assuming fun hq' => .along_assuming fun hold => .along_assuming fun hf => ?_
    subst hq'
    exact .bind (h.remove_runs hG hq hat hold hf) fun _ => .pure fun _ _ hfs => ⟨hfs.1, rfl, hfs.2⟩

end Ready

/-! ## What has been opened and written -/

section
variable {env : Env} {o : AtomicOutput} {w w' : World} {base : Fs} {d : List Name} {a b : UInt64}

theorem new_eq_ok (hq : env.Quiet) {destination : Path} {force : Bool}
    (h : AtomicOutput.new env destination force w = (.ok o, w')) :
    ∃ base d a b, o.Ready base d a b ∧ o.destination = destination ∧
      w'.fs = base.create (base.loc d) (tempName a b) := by
  obtain ⟨_, -, -, base, d, a, b, -, h⟩ := (AtomicOutput.new_runs hq (G := fun _ => True)
    (P := fun _ => True) ⟨fun _ _ => trivial, fun _ _ _ _ _ => trivial⟩ (fun _ _ _ _ _ => trivial)
    destination force).ok ⟨fun _ _ => trivial, trivial⟩ h
  exact ⟨base, d, a, b, h⟩

theorem Ready.created (h : o.Ready base d a b) :
    o.Written base d a b [] (base.create (base.loc d) (tempName a b)) := by
  rw [Written, Fs.written, h.file]
  exact .create h.absent

theorem Ready.append {fs : Fs} {c : Bytes} (h : o.Ready base d a b) (hw : o.Written base d a b c fs)
    (bytes : Bytes) : o.Written base d a b (c ++ bytes) (fs.append o.file bytes) := by
  have := Over.append hw bytes
  rwa [← h.file] at this

theorem Ready.appendAll_eq_ok (h : o.Ready base d a b) (hq : env.Quiet) {c : Bytes}
    {portions : List Bytes} (hw : o.Written base d a b c w.fs)
    (happend : Sys.appendAll env o.file portions w = (.ok (), w')) :
    o.Written base d a b (c ++ portions.flatten) w'.fs :=
  ((appendAll_runs (Φ := fun c _ fs => o.Written base d a b c fs) (fun _ _ _ => True) (fun _ => hq.stable)
    (fun _ _ _ bytes hw => h.append hw bytes) c portions).ok hw happend).choose_spec.2

end

end AtomicOutput

end Ironlock
