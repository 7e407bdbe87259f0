import Ironlock.Decoding
import Ironlock.SecureFs.OutputRuns

/-! What a failed `commit` leaves behind when its clean-up is not made to fail:
everything as it was, unless what failed came after the installation. -/

namespace Ironlock
open ByteOrder (Bytes)
open Effect
open Fs (Identity Metadata SysCall)

namespace AtomicOutput

/-- The calls of the destructors: removing the temporary file, and looking for
the destination and moving the old one back. -/
def CleanUp (o : AtomicOutput) : Call → Prop
  | .removeFile p => p = o.tempPath
  | .metadata p => p = o.destination
  | .rename src dst => dst = o.destination ∧ src ≠ o.tempPath
  | _ => False

/-- The calls of `commit` after the installation: the syncs of the directory
and the removal of the old file. -/
def AfterInstall (o : AtomicOutput) : Call → Prop
  | .openRead p => p = o.destination.parentOrHere
  | .sync (.dir _) => True
  | .removeFile p => p ≠ o.tempPath
  | _ => False

instance (o : AtomicOutput) : DecidablePred o.CleanUp := fun call => match call with
  | .removeFile p => inferInstanceAs (Decidable (p = o.tempPath))
  | .metadata p => inferInstanceAs (Decidable (p = o.destination))
  | .rename src dst => inferInstanceAs (Decidable (dst = o.destination ∧ src ≠ o.tempPath))
  | .symlinkMetadata _ | .canonicalize _ | .openRead _ | .openNofollow _ | .openWrite _
  | .createNew _ | .createDir _ | .readDir _ | .stat _ | .duplicate _ | .flush _ | .seek _
  | .write _ | .sync _ => inferInstanceAs (Decidable False)

/-- Everything is as it was before, and the temporary file is gone. -/
structure Restored (o : AtomicOutput) (before after : Fs) : Prop where
  places : ∃ names, before.resolve false o.tempPath = .ok names ∧
    after.nodeAt = Function.update before.nodeAt (before.loc names) none
  content : ∀ i, i ≠ o.file → after.content i = before.content i

/-- Some call after the installation was made to fail. -/
def Late (o : AtomicOutput) (steps : List Step) : Prop :=
  ∃ s ∈ steps, s.fault ≠ none ∧ o.AfterInstall s.call

/-- No call of the clean-up was made to fail. -/
def Clean (o : AtomicOutput) (steps : List Step) : Prop :=
  ∀ s ∈ steps, o.CleanUp s.call → s.fault = none

section
variable {o : AtomicOutput} {steps : List Step} {s : Step}

theorem late_concat : o.Late (steps ++ [s]) ↔ o.Late steps ∨ s.fault ≠ none ∧ o.AfterInstall s.call := by
  simp [Late, or_and_right, exists_or]

theorem clean_concat :
    o.Clean (steps ++ [s]) ↔ o.Clean steps ∧ (o.CleanUp s.call → s.fault = none) := by
  simp [Clean, or_imp, forall_and]

/-- Nothing late has failed, and `P` holds. -/
def Early (o : AtomicOutput) (P : Fs → Prop) : Assertion := fun steps fs => ¬o.Late steps ∧ P fs

/-- Something late has failed, and `P` holds. -/
def TooLate (o : AtomicOutput) (P : Fs → Prop) : Assertion := fun steps fs => o.Late steps ∧ P fs

/-- Nothing late has failed, and `P` holds if the clean-up worked. -/
def Cleaned (o : AtomicOutput) (P : Fs → Prop) : Assertion := fun steps fs =>
  ¬o.Late steps ∧ (o.Clean steps → P fs)

/-- Nothing late has failed, and the temporary file is still to be dropped; the
old destination is at its place, unless its restoration was made to fail. -/
def Pending (o : AtomicOutput) (base : Fs) (d : List Name) (a b : UInt64) (n : Name) (c : Bytes) :
    Assertion := fun steps fs =>
  ¬o.Late steps ∧ (o.Written base d a b c fs ∨ ¬o.Clean steps ∧ ∃ j a' b',
    base.nodeAt (base.entryLoc d n) = some (.file j) ∧ o.Free base d a b a' b' ∧
    o.Moved base d a b n j c a' b' fs)

/-- The new file is at the destination, and no longer at its temporary name. -/
structure Published (o : AtomicOutput) (base : Fs) (d : List Name) (a b : UInt64) (n : Name)
    (fs : Fs) : Prop where
  keeps : base.Keeps fs
  place : fs.At o.destination d n
  dest : fs.nodeAt (fs.entryLoc d n) = some (.file o.file)
  temp : fs.nodeAt (fs.entryLoc d (tempName a b)) = none

/-- What a failing `publish` leaves for the temporary file to be dropped. -/
def Unfinished (o : AtomicOutput) (base : Fs) (d : List Name) (a b : UInt64) (n : Name) (c : Bytes) :
    Assertion := fun steps fs =>
  o.Pending base d a b n c steps fs ∨ o.TooLate (o.Published base d a b n) steps fs

end

section
variable {env : Env} {o : AtomicOutput} {base fs : Fs} {d : List Name} {a b a' b' : UInt64} {n : Name}
  {c : Bytes} {j : Nat} {P : Fs → Prop} {Χ : IronlockError → Assertion}

/-- A call that changes nothing and is not late. -/
theorem early_try {α : Type} (hq : env.Quiet) {call : Call} {op : SysCall α}
    (hcall : ¬o.AfterInstall call) (hop : ∀ fs, (op fs).2 = fs) :
    Runs (o.Early P) (Sys.try_ env call op)
      (fun r => o.Early fun fs => P fs ∧ Tells env op fs r) Χ := by
  refine .try_ hq.stable (fun steps fs e h he => ⟨?_, h.2, .inr ⟨e, rfl, he⟩⟩)
    fun steps fs h => ⟨?_, by rw [hop]; exact h.2, .inl (by rw [hop])⟩ <;>
  · rw [late_concat]
    exact fun hl => hl.elim h.1 fun hl => hcall hl.2

theorem early_run {α : Type} (hq : env.Quiet) {call : Call} {op : SysCall α}
    (hcall : ¬o.AfterInstall call) (hop : ∀ fs, (op fs).2 = fs) :
    Runs (o.Early P) (Sys.run env call op) (fun _ => o.Early P) fun _ => o.Early P := by
  refine .bind (early_try hq hcall hop) fun r => ?_
  cases r with
  | ok a => exact .pure fun _ _ h => ⟨h.1, h.2.1⟩
  | error e => exact .fail fun _ _ h => ⟨h.1, h.2.1⟩

theorem early_handle (hq : env.Quiet) {p : Path} (hp : p ≠ o.destination.parentOrHere) :
    Runs (o.Early P) (Sys.handleFromPath env p) (fun _ => o.Early P) fun _ => o.Early P :=
  .bind (early_run hq hp look_snd) fun _ =>
    .bind (early_run hq id fun _ => rfl) fun _ => .pure fun _ _ => id

theorem not_late_rename {src dst : Path} {fault : Option IoError} {after : Fs} {steps : List Step}
    (h : ¬o.Late steps) : ¬o.Late (steps ++ [⟨.rename src dst, fault, fs, after⟩]) := by
  rw [late_concat]
  exact fun hl => hl.elim h fun hl => hl.2

namespace Ready

/-- The directory's sync can only fail because it is made to. -/
theorem syncParent_late (h : o.Ready base d a b) (hq : env.Quiet)
    (hP : ∀ fs, P fs → base.Keeps fs) :
    Runs (o.Early P) (syncParent env o.destination.parentOrHere) (fun _ => o.Early P)
      fun _ => o.TooLate P := by
  have hopen : Runs (o.Early P) (Sys.run env (.openRead o.destination.parentOrHere)
      (Fs.openRead o.destination.parentOrHere))
      (fun file steps fs => (∃ l, file = .dir l) ∧ o.Early P steps fs) fun _ => o.TooLate P := by
    refine .run hq.stable (fun steps fs e hfs _ => ⟨late_concat.2 (.inr ⟨nofun, rfl⟩), hfs.2⟩) ?_
    intro steps fs hfs
    rw [(h.parent.keep (hP fs hfs.2)).openRead h.parent_ne]
    refine ⟨⟨_, rfl⟩, ?_, hfs.2⟩
    rw [late_concat]
    exact fun hl => hl.elim hfs.1 fun hl => hl.1 rfl
  refine .bind hopen fun file => .assuming ?_
  rintro ⟨l, rfl⟩
  refine .run hq.stable (fun steps fs e hfs _ => ⟨late_concat.2 (.inr ⟨nofun, trivial⟩), hfs.2⟩) ?_
  intro steps fs hfs
  refine ⟨?_, hfs.2⟩
  rw [late_concat]
  exact fun hl => hl.elim hfs.1 fun hl => hl.1 rfl

/-- A name that is not to be restored: the temporary file, or a new one. -/
theorem quarantine_ne_temp (h : o.Ready base d a b) (hf : o.Free base d a b a' b') :
    (o.quarantined a' b').quarantine ≠ o.tempPath := by
  intro heq
  have h₁ := h.quarantine_at (.refl base) a' b'
  rw [heq] at h₁
  obtain ⟨-, hname⟩ := h₁.unique (h.temp_at (.refl base))
  exact hf.ne_temp (by rw [hname])

theorem drop_restores (h : o.Ready base d a b) (hq : env.Quiet) :
    Runs (o.Pending base d a b n c) (o.drop env)
      (fun _ => o.Cleaned (Undone base c)) fun _ => o.Cleaned (Undone base c) := by
  have htemp {steps : List Step} {fs : Fs} (hfs : o.Pending base d a b n c steps fs) :
      base.Keeps fs ∧ fs.nodeAt (fs.entryLoc d (tempName a b)) = some (.file o.file) := by
    rcases hfs.2 with hw | ⟨-, j, a', b', hold, hf, hm⟩
    · exact ⟨hw.keeps, written_temp hw⟩
    · exact ⟨hm.keeps, h.moved_temp hf hold hm⟩
  refine .bind (Ψ := fun _ => o.Cleaned (Undone base c)) (removeFile_runs hq.stable
    (fun _ _ hfs => (h.temp_at (htemp hfs).1).reaches) (fun _ _ hfs => .inr ⟨_, (htemp hfs).2⟩) ?_ ?_ ?_)
    fun _ => .pure fun _ _ => id
  · intro steps fs e hfs _
    refine ⟨?_, fun hclean => absurd ((clean_concat.1 hclean).2 rfl) nofun⟩
    rw [late_concat]; exact fun hl => hl.elim hfs.1 fun hl => hl.2 rfl
  · intro steps fs hfs hnone
    rw [(htemp hfs).2] at hnone; cases hnone
  · intro steps fs i hfs _
    refine ⟨?_, fun hclean => ?_⟩
    · rw [late_concat]; exact fun hl => hl.elim hfs.1 fun hl => hl.1 rfl
    · rcases hfs.2 with hw | ⟨hdirty, -⟩
      · exact h.written_drop hw
      · exact absurd (clean_concat.1 hclean).1 hdirty

theorem restore_restores (h : o.Ready base d a b) (hq : env.Quiet) (hat : base.At o.destination d n)
    (hf : o.Free base d a b a' b') (hold : base.nodeAt (base.entryLoc d n) = some (.file j)) :
    Runs (o.Early (o.Moved base d a b n j c a' b')) (QuarantinedFile.restore env (o.quarantined a' b'))
      (fun _ => o.Pending base d a b n c) fun _ => o.Pending base d a b n c := by
  have hne := h.quarantine_ne_temp hf
  -- looking for the destination finds nothing, unless the look is made to fail
  have hlook : Runs (o.Early (o.Moved base d a b n j c a' b')) (Sys.exists_ env o.destination)
      (fun present steps fs => present = false ∧ o.Early (o.Moved base d a b n j c a' b') steps fs)
      fun _ => o.Pending base d a b n c := by
    refine .bind (Ψ := fun r steps fs => r.isOk = false ∧
      o.Early (o.Moved base d a b n j c a' b') steps fs) (.try_ hq.stable ?_ ?_)
      fun r => .pure fun _ _ => id
    · intro steps fs e hfs _
      refine ⟨rfl, ?_, hfs.2⟩
      rw [late_concat]; exact fun hl => hl.elim hfs.1 fun hl => hl.2
    · intro steps fs hfs
      rw [(hat.keep hfs.2.keeps).reaches.metadata_none (moved_dest hfs.2)]
      refine ⟨rfl, ?_, hfs.2⟩
      rw [late_concat]; exact fun hl => hl.elim hfs.1 fun hl => hl.2
  refine .bind hlook fun present => .assuming ?_
  rintro rfl
  refine .bind (Ψ := fun _ => o.Pending base d a b n c) (.attempt ?_) fun _ => .pure fun _ _ => id
  refine installTemp_runs hq.stable (fun _ _ hfs => (h.quarantine_at hfs.2.keeps a' b').reaches)
    (fun _ _ hfs => .inr (moved_old hf hold hfs.2)) (fun _ _ hfs => (hat.keep hfs.2.keeps).reaches) ?_ ?_ ?_
  · intro steps fs e hfs _
    refine ⟨not_late_rename hfs.1, .inr ⟨fun hclean => ?_, j, a', b', hold, hf, hfs.2⟩⟩
    exact absurd ((clean_concat.1 hclean).2 ⟨rfl, hne⟩) nofun
  · rintro steps fs hfs (hnone | ⟨x, hx⟩)
    · rw [moved_old hf hold hfs.2] at hnone; cases hnone
    · rw [moved_dest hfs.2] at hx; cases hx
  · exact fun steps fs hfs _ _ => ⟨not_late_rename hfs.1, .inl (h.moved_restore hf hold hfs.2)⟩

/-- Once the new file is at the destination, the destructors change nothing. -/
theorem restore_tooLate (h : o.Ready base d a b) (hq : env.Quiet) (hat : base.At o.destination d n)
    (hP : ∀ fs, P fs → base.Keeps fs ∧ fs.nodeAt (fs.entryLoc d n) = some (.file o.file) ∧
      (fs.nodeAt (fs.entryLoc d (tempName a' b')) = none ∨
        fs.nodeAt (fs.entryLoc d (tempName a' b')) = some (.file j))) :
    Runs (o.TooLate P) (QuarantinedFile.restore env (o.quarantined a' b'))
      (fun _ => o.TooLate P) fun _ => o.TooLate P := by
  have hkeep {s : Step} {steps : List Step} {fs : Fs} (hfs : o.TooLate P steps fs) :
      o.TooLate P (steps ++ [s]) fs := ⟨late_concat.2 (.inl hfs.1), hfs.2⟩
  refine .bind (Ψ := fun _ => o.TooLate P) (.bind (Ψ := fun _ => o.TooLate P) (.try_ hq.stable
    (fun _ _ _ hfs _ => hkeep hfs) fun steps fs hfs => ?_) fun _ => .pure fun _ _ => id) fun present => ?_
  · rw [Fs.metadata, look_snd]; exact hkeep hfs
  refine .ite (fun _ => .pure fun _ _ => id) fun _ => .bind (Ψ := fun _ => o.TooLate P)
    (.attempt ?_) fun _ => .pure fun _ _ => id
  refine installTemp_runs (i := j) hq.stable (fun _ _ hfs => (h.quarantine_at (hP _ hfs.2).1 a' b').reaches)
    (fun _ _ hfs => (hP _ hfs.2).2.2) (fun _ _ hfs => (hat.keep (hP _ hfs.2).1).reaches)
    (fun _ _ _ hfs _ => hkeep hfs) (fun _ _ hfs _ => hkeep hfs) ?_
  intro steps fs hfs _ hnone
  rw [(hP _ hfs.2).2.1] at hnone; cases hnone

theorem drop_tooLate (h : o.Ready base d a b) (hq : env.Quiet)
    (hP : ∀ fs, P fs → base.Keeps fs ∧ fs.nodeAt (fs.entryLoc d (tempName a b)) = none) :
    Runs (o.TooLate P) (o.drop env) (fun _ => o.TooLate P) fun _ => o.TooLate P := by
  refine .bind (Ψ := fun _ => o.TooLate P) (removeFile_runs hq.stable
    (fun _ _ hfs => (h.temp_at (hP _ hfs.2).1).reaches) (fun _ _ hfs => .inl (hP _ hfs.2).2)
    (fun _ _ _ hfs _ => ⟨late_concat.2 (.inl hfs.1), hfs.2⟩)
    (fun _ _ hfs _ => ⟨late_concat.2 (.inl hfs.1), hfs.2⟩) ?_) fun _ => .pure fun _ _ => id
  intro steps fs i hfs hi
  rw [(hP _ hfs.2).2] at hi; cases hi

theorem swapped_published (h : o.Ready base d a b) (hat : base.At o.destination d n)
    (hf : o.Free base d a b a' b') (hold : base.nodeAt (base.entryLoc d n) = some (.file j))
    (hs : o.Swapped base d n j c a' b' fs) : o.Published base d a b n fs :=
  ⟨hs.keeps, hat.keep hs.keeps, swapped_dest hs, h.swapped_temp hf hold hs⟩

theorem installed_published (h : o.Ready base d a b) (hat : base.At o.destination d n)
    (hne : base.entryLoc d (tempName a b) ≠ base.entryLoc d n)
    (hi : o.Installed base d n c fs) : o.Published base d a b n fs := by
  refine ⟨hi.keeps, hat.keep hi.keeps, installed_dest hi, ?_⟩
  rw [hi.nodeAt, hi.entryLoc, Fs.installed, Function.update_of_ne hne, h.absent]

theorem replace_restores (h : o.Ready base d a b) (hq : env.Quiet) (hat : base.At o.destination d n)
    (hold : base.nodeAt (base.entryLoc d n) = some (.file j)) :
    Runs (o.Early (o.Written base d a b c)) (o.replace env (.file j))
      (fun q steps fs => ∃ a' b', q = o.quarantined a' b' ∧ o.Free base d a b a' b' ∧
        o.Early (o.Swapped base d n j c a' b') steps fs)
      fun _ => o.Unfinished base d a b n c := by
  have hquarantine : Runs (o.Early (o.Written base d a b c)) (QuarantinedFile.new env o.destination)
      (fun q steps fs => ∃ a' b', q = o.quarantined a' b' ∧ o.Free base d a b a' b' ∧
        o.Early (o.Moved base d a b n j c a' b') steps fs)
      fun _ => o.Unfinished base d a b n c := by
    refine (quarantine_runs hq.stable (fun _ _ hfs => (hat.keep hfs.2.keeps).placed)
      (fun _ _ hfs => .inr (h.written_old hold hfs.2)) ?_ ?_).post
      (fun _ _ _ => id) fun _ _ _ hfs => .inl ⟨hfs.1, .inl hfs.2⟩
    · exact fun steps fs dst fault hfs => ⟨not_late_rename hfs.1, hfs.2⟩
    · intro steps fs a' b' hfs _ hnone
      obtain ⟨hf, hm⟩ := h.written_quarantine hold hfs.2 hnone
      exact ⟨a', b', rfl, hf, not_late_rename hfs.1, hm⟩
  refine .bind hquarantine fun q => .exists_pre fun a' => .exists_pre fun b' =>
    .assuming fun hq' => .assuming fun hf => ?_
  subst hq'
  let Both (fs : Fs) : Prop := o.Published base d a b n fs ∧
    (fs.nodeAt (fs.entryLoc d (tempName a' b')) = none ∨
      fs.nodeAt (fs.entryLoc d (tempName a' b')) = some (.file j))
  -- what a failing step leaves for the restoration of the old destination
  let Broken : Assertion := fun steps fs =>
    o.Early (o.Moved base d a b n j c a' b') steps fs ∨ o.TooLate Both steps fs
  have hrestore : Runs Broken (QuarantinedFile.restore env (o.quarantined a' b'))
      (fun _ => o.Unfinished base d a b n c) fun _ => o.Unfinished base d a b n c :=
    .or ((h.restore_restores hq hat hf hold).post (fun _ _ _ => .inl) fun _ _ _ => .inl)
      ((h.restore_tooLate (j := j) hq hat fun fs hfs => ⟨hfs.1.keeps, hfs.1.dest, hfs.2⟩).post
        (fun _ _ _ hfs => .inr ⟨hfs.1, hfs.2.1⟩) fun _ _ _ hfs => .inr ⟨hfs.1, hfs.2.1⟩)
  have hlook : Runs (o.Early (o.Moved base d a b n j c a' b'))
      (Sys.handleFromPath env (o.quarantined a' b').quarantine)
      (fun _ => o.Early (o.Moved base d a b n j c a' b')) fun _ => Broken := by
    refine (early_handle hq ?_).post (fun _ _ _ => id) fun _ _ _ => .inl
    intro heq
    have := congrArg (List.length ∘ Path.parts) heq
    simp [quarantined] at this
  have hinstall : Runs (o.Early (o.Moved base d a b n j c a' b'))
      (installTemp env o.tempPath o.destination)
      (fun _ => o.Early (o.Swapped base d n j c a' b')) fun _ => Broken := by
    refine installTemp_runs hq.stable (fun _ _ hfs => (h.temp_at hfs.2.keeps).reaches)
      (fun _ _ hfs => .inr (h.moved_temp hf hold hfs.2)) (fun _ _ hfs => (hat.keep hfs.2.keeps).reaches)
      (fun _ _ _ hfs _ => .inl ⟨not_late_rename hfs.1, hfs.2⟩)
      (fun _ _ hfs _ => .inl ⟨not_late_rename hfs.1, hfs.2⟩) ?_
    exact fun steps fs hfs _ _ => ⟨not_late_rename hfs.1, h.moved_install hf hold hfs.2⟩
  have hsync : Runs (o.Early (o.Swapped base d n j c a' b'))
      (syncParent env o.destination.parentOrHere)
      (fun _ => o.Early (o.Swapped base d n j c a' b')) fun _ => Broken :=
    (h.syncParent_late hq fun fs hs => hs.keeps).post (fun _ _ _ => id) fun _ _ _ hfs =>
      .inr ⟨hfs.1, h.swapped_published hat hf hold hfs.2, .inr (swapped_old hf hold hfs.2)⟩
  refine .bind (.onError (Θ := fun _ => Broken)
    (Ψ := fun _ => o.Early (o.Swapped base d n j c a' b')) ?_ fun _ => hrestore)
    fun _ => .pure fun _ _ hfs => ⟨a', b', rfl, hf, hfs⟩
  exact .bind hlook fun _ => .ite (fun _ => .fail fun _ _ => .inl) fun _ =>
    .bind hinstall fun _ => hsync

/-- A rename to a path that is no name in the directory never happens. -/
theorem installTemp_refused (h : o.Ready base d a b) (hq : env.Quiet)
    (hno : ∀ n, ¬base.At o.destination d n) {Ψ : Unit → Assertion} :
    Runs (o.Early (o.Written base d a b c)) (installTemp env o.tempPath o.destination) Ψ
      fun _ => o.Early (o.Written base d a b c) := by
  have hunix (p : Path) : Runs (o.Early (o.Written base d a b c)) (unixPath p)
      (fun _ => o.Early (o.Written base d a b c)) fun _ => o.Early (o.Written base d a b c) :=
    .ite (fun _ => .fail fun _ _ => id) fun _ => .pure fun _ _ => id
  refine .bind (hunix _) fun _ => .bind (hunix _) fun _ => .run hq.stable
    (fun _ _ _ hfs _ => ⟨not_late_rename hfs.1, hfs.2⟩) fun steps fs hfs => ?_
  rcases Fs.renameNoreplace_cases o.tempPath o.destination fs with
    ⟨e, he⟩ | ⟨s, d', n', x, -, -, -, hdst, hnone, he⟩
  · rw [he]; exact ⟨not_late_rename hfs.1, hfs.2⟩
  · have hplain := h.parent.keep hfs.2.keeps
    obtain ⟨n, hat, -⟩ := hplain.at_of_resolve rfl h.parent_ne hdst
      (by rw [Fs.node_concat, hnone]; nofun)
    obtain ⟨q, hparent, hdest, -⟩ := hat.parent
    have : base.At o.destination d n := by
      rw [hdest]
      have hbase := h.parent
      rw [Path.parentOrHere, hparent] at hbase
      refine hbase.at_push ?_
      have := hat.nul
      rw [hdest] at this
      simp only [Path.hasNul, Path.push_parts, List.any_append, Bool.or_eq_false_iff] at this
      simpa using this.2
    exact absurd this (hno n)

/-- Installing where nothing was: the rename is the last thing that can be
undone. -/
theorem install_restores (h : o.Ready base d a b) (hq : env.Quiet) :
    Runs (o.Early (o.Written base d a b c)) (o.install env)
      (fun _ steps _ => ¬o.Late steps) fun _ steps fs => ∃ n, o.Unfinished base d a b n c steps fs := by
  -- as long as nothing has been renamed, any name will do
  have hpending {steps : List Step} {fs : Fs} (hfs : o.Early (o.Written base d a b c) steps fs) :
      ∃ n, o.Unfinished base d a b n c steps fs := ⟨tempName a b, .inl ⟨hfs.1, .inl hfs.2⟩⟩
  let Renamed (n : Name) (fs : Fs) : Prop := base.At o.destination d n ∧
    base.entryLoc d (tempName a b) ≠ base.entryLoc d n ∧ o.Installed base d n c fs
  have hrename : Runs (o.Early (o.Written base d a b c)) (installTemp env o.tempPath o.destination)
      (fun _ steps fs => ∃ n, o.Early (Renamed n) steps fs)
      fun _ steps fs => ∃ n, o.Unfinished base d a b n c steps fs := by
    by_cases hex : ∃ n, base.At o.destination d n
    · obtain ⟨n, hat⟩ := hex
      refine (installTemp_runs (Ψ := fun steps fs => ∃ n, o.Early (Renamed n) steps fs)
        (Χ := o.Early (o.Written base d a b c)) hq.stable (fun _ _ hfs => (h.temp_at hfs.2.keeps).reaches)
        (fun _ _ hfs => .inr (written_temp hfs.2)) (fun _ _ hfs => (hat.keep hfs.2.keeps).reaches)
        (fun _ _ _ hfs _ => ⟨not_late_rename hfs.1, hfs.2⟩)
        (fun _ _ hfs _ => ⟨not_late_rename hfs.1, hfs.2⟩) ?_).post (fun _ _ _ => id)
        fun _ _ _ => hpending
      intro steps fs hfs _ hnone
      refine ⟨n, not_late_rename hfs.1, hat, ?_, h.written_install hfs.2 hnone⟩
      intro heq
      have := written_temp hfs.2
      rw [hfs.2.entryLoc, heq, ← hfs.2.entryLoc, hnone] at this; cases this
    · exact (h.installTemp_refused hq (not_exists.1 hex)).post (fun _ _ _ => id) fun _ _ _ => hpending
  have hsync (n : Name) : Runs (o.Early (Renamed n)) (syncParent env o.destination.parentOrHere)
      (fun _ steps _ => ¬o.Late steps) fun _ steps fs => ∃ n, o.Unfinished base d a b n c steps fs :=
    (h.syncParent_late hq fun fs hfs => hfs.2.2.keeps).post (fun _ _ _ hfs => hfs.1) fun _ _ _ hfs =>
      ⟨n, .inr ⟨hfs.1, h.installed_published hfs.2.1 hfs.2.2.1 hfs.2.2.2⟩⟩
  have hrest := Runs.bind hrename fun _ => .exists_pre hsync
  refine .bind ((early_try hq id look_snd).post (Λ := fun _ => o.Early (o.Written base d a b c))
    (fun _ _ _ hfs => ⟨hfs.1, hfs.2.1⟩) fun _ _ _ => hpending) fun r => ?_
  have hfail {β : Type} {e : IronlockError} {Ψ : β → Assertion} :
      Runs (o.Early (o.Written base d a b c)) (Eff.fail e) Ψ
        fun _ steps fs => ∃ n, o.Unfinished base d a b n c steps fs := .fail fun _ _ => hpending
  cases r with
  | ok m =>
    have hreject : Runs (o.Early (o.Written base d a b c)) (rejectLinkOrReparse o.destination m)
        (fun _ => o.Early (o.Written base d a b c))
        fun _ steps fs => ∃ n, o.Unfinished base d a b n c steps fs :=
      .ite (fun _ => hfail) fun _ => .pure fun _ _ => id
    exact .bind hreject fun _ => .bind (Ψ := fun _ => o.Early (o.Written base d a b c)) hfail
      fun _ => hrest
  | error e =>
    exact .ite (fun _ => hrest) fun _ => .bind (Ψ := fun _ => o.Early (o.Written base d a b c)) hfail
      fun _ => hrest

/-- What `publish` leaves when it fails, for the temporary file to be dropped. -/
theorem publish_restores (h : o.Ready base d a b) (hq : env.Quiet) :
    Runs (o.Early (o.Written base d a b c)) (o.publish env)
      (fun q steps fs => ¬o.Late steps ∧ ∀ r, q = some r → ∃ n j a' b', r = o.quarantined a' b' ∧
        base.At o.destination d n ∧ base.nodeAt (base.entryLoc d n) = some (.file j) ∧
        o.Free base d a b a' b' ∧ o.Swapped base d n j c a' b' fs)
      fun _ steps fs => ∃ n, o.Unfinished base d a b n c steps fs := by
  have hpending {steps : List Step} {fs : Fs} (hfs : o.Early (o.Written base d a b c) steps fs) :
      ∃ n, o.Unfinished base d a b n c steps fs := ⟨tempName a b, .inl ⟨hfs.1, .inl hfs.2⟩⟩
  refine .bind ((early_run hq id fun _ => rfl).post (fun _ _ _ => id) fun _ _ _ => hpending)
    fun _ => .bind ((early_run hq id fun _ => rfl).post (fun _ _ _ => id) fun _ _ _ => hpending)
    fun _ => ?_
  rcases hobs : o.observedDestination with _ | handle
  · exact .bind (h.install_restores hq) fun _ => .pure fun _ _ hfs => ⟨hfs, nofun⟩
  · obtain ⟨n, j, hat, rfl, hold⟩ := h.observed handle hobs
    refine .bind ((h.replace_restores hq hat hold).post (fun _ _ _ => id) fun _ _ _ hfs => ⟨n, hfs⟩)
      fun q => .pure ?_
    rintro steps fs ⟨a', b', rfl, hf, hs⟩
    refine ⟨hs.1, ?_⟩
    rintro _ ⟨⟩
    exact ⟨n, j, a', b', rfl, hat, hold, hf, hs.2⟩

/-- The removal of the old file, and the sync after it, come too late. -/
theorem remove_restores (h : o.Ready base d a b) (hq : env.Quiet) (hat : base.At o.destination d n)
    (hold : base.nodeAt (base.entryLoc d n) = some (.file j)) (hf : o.Free base d a b a' b') :
    Runs (o.Early (o.Swapped base d n j c a' b')) (QuarantinedFile.remove env (o.quarantined a' b'))
      (fun _ steps _ => ¬o.Late steps) fun _ => o.TooLate (o.Published base d a b n) := by
  let Both (fs : Fs) : Prop := o.Published base d a b n fs ∧
    (fs.nodeAt (fs.entryLoc d (tempName a' b')) = none ∨
      fs.nodeAt (fs.entryLoc d (tempName a' b')) = some (.file j))
  have hremove : Runs (o.Early (o.Swapped base d n j c a' b'))
      (Sys.run env (.removeFile (o.quarantined a' b').quarantine)
        (Fs.removeFile (o.quarantined a' b').quarantine))
      (fun _ => o.Early (o.Installed base d n c)) fun _ => o.TooLate Both := by
    refine .bind (Ψ := Assertion.either (fun _ => o.Early (o.Installed base d n c)) fun _ => o.TooLate Both)
      (removeFile_runs hq.stable
        (fun _ _ hfs => (h.quarantine_at hfs.2.keeps a' b').reaches)
        (fun _ _ hfs => .inr ⟨j, swapped_old hf hold hfs.2⟩) ?_ ?_ ?_) ?_
    · intro steps fs e hfs _
      exact ⟨late_concat.2 (.inr ⟨Option.some_ne_none _, h.quarantine_ne_temp hf⟩),
        h.swapped_published hat hf hold hfs.2, .inr (swapped_old hf hold hfs.2)⟩
    · intro steps fs hfs hnone
      rw [swapped_old hf hold hfs.2] at hnone; cases hnone
    · intro steps fs i hfs _
      refine ⟨?_, swapped_remove hf hold hfs.2⟩
      rw [late_concat]
      exact fun hl => hl.elim hfs.1 fun hl => hl.1 rfl
    · rintro (e | _)
      · exact .fail fun _ _ => id
      · exact .pure fun _ _ => id
  have hsync : Runs (o.Early (o.Installed base d n c))
      (syncParent env (o.quarantined a' b').quarantine.parentOrHere)
      (fun _ steps _ => ¬o.Late steps) fun _ => o.TooLate Both := by
    rw [show (o.quarantined a' b').quarantine.parentOrHere = o.destination.parentOrHere from
      Path.push_parentOrHere _ _ (Path.parentOrHere_dirOnly _)]
    refine (h.syncParent_late hq fun fs hfs => hfs.keeps).post (fun _ _ _ hfs => hfs.1)
      fun _ _ _ hfs => ⟨hfs.1, h.installed_published hat (h.ne_dest hold) hfs.2, .inl ?_⟩
    rw [hfs.2.nodeAt, hfs.2.entryLoc, Fs.installed, Function.update_of_ne (hf.ne_dest hold), hf.absent]
  exact .onError (.bind hremove fun _ => hsync) fun _ =>
    (h.restore_tooLate (j := j) hq hat fun fs hfs => ⟨hfs.1.keeps, hfs.1.dest, hfs.2⟩).post
      (fun _ _ _ hfs => ⟨hfs.1, hfs.2.1⟩) fun _ _ _ hfs => ⟨hfs.1, hfs.2.1⟩

/-- How `commit` ends: with nothing late having failed, or with the new file at
the destination. -/
theorem commit_restores (h : o.Ready base d a b) (hq : env.Quiet) :
    Runs (o.Early (o.Written base d a b c)) (o.commit env) (fun _ steps _ => ¬o.Late steps)
      fun _ steps fs => o.Cleaned (Undone base c) steps fs ∨
        ∃ n, o.TooLate (o.Published base d a b n) steps fs := by
  have hdrop : Runs (fun steps fs => ∃ n, o.Unfinished base d a b n c steps fs) (o.drop env)
      (fun _ steps fs => o.Cleaned (Undone base c) steps fs ∨
        ∃ n, o.TooLate (o.Published base d a b n) steps fs)
      fun _ steps fs => o.Cleaned (Undone base c) steps fs ∨
        ∃ n, o.TooLate (o.Published base d a b n) steps fs :=
    .exists_pre fun n => .or
      ((h.drop_restores hq).post (fun _ _ _ => .inl) fun _ _ _ => .inl)
      ((h.drop_tooLate hq fun fs hfs => ⟨hfs.keeps, hfs.temp⟩).post
        (fun _ _ _ hfs => .inr ⟨n, hfs⟩) fun _ _ _ hfs => .inr ⟨n, hfs⟩)
  refine .bind (.onError (h.publish_restores hq) fun _ => hdrop) fun q => ?_
  cases q with
  | none => exact .pure fun _ _ hfs => hfs.1
  | some q =>
    refine .of_state fun steps fs hfs => ?_
    obtain ⟨hearly, hq'⟩ := hfs
    obtain ⟨n, j, a', b', rfl, hat, hold, hf, hs⟩ := hq' q rfl
    have hremove := (h.remove_restores hq hat hold hf (c := c)).consequence
      (Δ := fun steps' fs' => steps' = steps ∧ fs' = fs) (Θ := fun _ steps fs =>
        o.Cleaned (Undone base c) steps fs ∨ ∃ n, o.TooLate (o.Published base d a b n) steps fs)
      (by rintro _ _ ⟨rfl, rfl⟩; exact ⟨hearly, hs⟩) (fun _ _ _ => id) fun _ _ _ hfs => .inr ⟨n, hfs⟩
    exact .bind hremove fun _ => .pure fun _ _ => id

end Ready

/-- When the new file is at the destination, it is not as it was. -/
theorem Ready.published_not_restored (h : o.Ready base d a b) (hw : o.Written base d a b [] fs)
    {after : Fs} (hp : o.Published base d a b n after) : ¬o.Restored fs after := by
  rintro ⟨⟨names, hr, hplaces⟩, -⟩
  rw [(h.temp_at hw.keeps).resolve (.inl rfl)] at hr
  cases hr
  have hsame : after.nodeAt = base.nodeAt := by
    rw [hplaces, hw.nodeAt, ← Fs.entryLoc, hw.entryLoc, Fs.written_undo h.absent]
  have hdest := hp.dest
  rw [hsame, h.file] at hdest
  exact lt_irrefl _ (Fs.nodeAt_lt hdest)

theorem Ready.undone_restored (h : o.Ready base d a b) (hw : o.Written base d a b [] fs)
    {after : Fs} (hu : Undone base c after) : o.Restored fs after where
  places := by
    refine ⟨_, (h.temp_at hw.keeps).resolve (.inl rfl), ?_⟩
    rw [hu.nodeAt, hw.nodeAt, ← Fs.entryLoc, hw.entryLoc, Fs.written_undo h.absent]
  content i hi := by
    rw [h.file] at hi
    rw [hu.content, hw.content, if_neg hi, if_neg hi]

end

/-- A failed `commit` leaves everything as it was exactly when no call after
the installation was made to fail; otherwise the new file is at the
destination. -/
theorem commit_restores_iff {env : Env} (hq : env.Quiet) {destination : Path} {force : Bool}
    {portions : List Bytes} {o : AtomicOutput} {r : Except IronlockError Path} {w₀ w₁ w₂ w₃ : World}
    (hnew : AtomicOutput.new env destination force w₀ = (.ok o, w₁))
    (hwrite : Sys.appendAll env o.file portions w₁ = (.ok (), w₂))
    (hcommit : o.commit env w₂ = (r, w₃)) (hclean : o.Clean (w₃.since w₂)) :
    ((∀ e, r = .error e → o.Restored w₁.fs w₃.fs) ↔ ¬o.Late (w₃.since w₂)) ∧
      (o.Late (w₃.since w₂) → ∃ names, w₃.fs.resolve false o.destination = .ok names ∧
        w₃.fs.node names = some (.file o.file)) := by
  obtain ⟨base, d, a, b, h, -, hw₁⟩ := new_eq_ok hq hnew
  have hcreated : o.Written base d a b [] w₁.fs := hw₁ ▸ h.created
  have hwritten : o.Early (o.Written base d a b portions.flatten) [] w₂.fs :=
    ⟨by simp [Late], h.appendAll_eq_ok hq hcreated hwrite⟩
  cases r with
  | ok p =>
    obtain ⟨steps, hsteps, hlate⟩ := (h.commit_restores hq).ok hwritten hcommit
    rw [World.since_eq hsteps] at hclean ⊢
    exact ⟨⟨fun _ => hlate, fun _ => nofun⟩, fun hl => absurd hl hlate⟩
  | error e =>
    obtain ⟨steps, hsteps, hend⟩ := (h.commit_restores hq).error hwritten hcommit
    rw [World.since_eq hsteps] at hclean ⊢
    rcases hend with ⟨hlate, hundone⟩ | ⟨n, hlate, hp⟩
    · exact ⟨⟨fun _ => hlate, fun _ _ _ => h.undone_restored hcreated (hundone hclean)⟩,
        fun hl => absurd hl hlate⟩
    · refine ⟨⟨fun hr => ?_, fun hno => absurd hlate hno⟩, fun _ => ?_⟩
      · exact absurd (hr e rfl) (h.published_not_restored hcreated hp)
      · exact ⟨_, hp.place.resolve (.inl rfl), hp.dest⟩

/-! ## A sync that fails -/

/-- `/a` -/
def destA : Path := .absolute [⟨[97], .refl true⟩]

/-- `/a` is there and holds a one. -/
def occupied : World := ⟨((Fs.blank []).create [] ⟨[97], .refl true⟩).setContent 0 [1], 0, 0, []⟩

/-- The seventeenth call fails: the sync of the directory after the new file
has been installed. -/
def syncFails : Env :=
  { Env.calm .checksummed with fault := fun k => if k = 16 then some (.os .other) else none }

/-- What `AtomicOutput::new` makes of `/a` there. -/
def replacement : AtomicOutput :=
  ⟨destA, Path.root.push (.name (tempName 0 1)), 1, some (.file 0)⟩

def opened : World := (AtomicOutput.new syncFails destA true occupied).2

/-- A two is written. -/
def filled : World := (Sys.appendAll syncFails 1 [[2]] opened).2

def ended : World := (replacement.commit syncFails filled).2

theorem replacement_opened : AtomicOutput.new syncFails destA true occupied = (.ok replacement, opened) :=
  Eff.run_eq_ok (by decide +kernel)

theorem replacement_filled :
    Sys.appendAll syncFails replacement.file [[2]] opened = (.ok (), filled) :=
  Eff.run_eq_ok (by decide +kernel)

theorem replacement_ended : replacement.commit syncFails filled =
    (.error (.ioError (.os .other)), ended) := by
  have hresult : (replacement.commit syncFails filled).1 = .error (.ioError (.os .other)) := by
    decide +kernel
  rw [← hresult, ended]

theorem replacement_clean : replacement.Clean (ended.since filled) := by
  unfold Clean; decide +kernel

theorem commit_restores_iff_replacement :
    ((∀ e, (.error (.ioError (.os .other)) : Except IronlockError Path) = .error e →
        replacement.Restored opened.fs ended.fs) ↔ ¬replacement.Late (ended.since filled)) ∧
      (replacement.Late (ended.since filled) →
        ∃ names, ended.fs.resolve false replacement.destination = .ok names ∧
          ended.fs.node names = some (.file replacement.file)) :=
  commit_restores_iff (fun _ _ => rfl) replacement_opened replacement_filled replacement_ended
    replacement_clean

/-- One call fails, no clean-up does, `commit` reports the failure, and `/a`
holds the two. -/
theorem failed_sync_not_restored :
    AtomicOutput.new syncFails destA true occupied = (.ok replacement, opened) ∧
    Sys.appendAll syncFails replacement.file [[2]] opened = (.ok (), filled) ∧
    replacement.commit syncFails filled = (.error (.ioError (.os .other)), ended) ∧
    (ended.since filled).countP (fun s => s.fault.isSome) = 1 ∧
    replacement.Clean (ended.since filled) ∧
    ¬replacement.Restored opened.fs ended.fs ∧
    (∃ names, opened.fs.resolve true destA = .ok names ∧ opened.fs.node names = some (.file 0) ∧
      opened.fs.content 0 = [1]) ∧
    ∃ names, ended.fs.resolve true destA = .ok names ∧ ended.fs.node names = some (.file 1) ∧
      ended.fs.content 1 = [2] := by
  refine ⟨replacement_opened, replacement_filled, replacement_ended, by decide +kernel,
    replacement_clean, ?_, ⟨[⟨[97], rfl⟩], by decide +kernel⟩, [⟨[97], rfl⟩], by decide +kernel⟩
  rintro ⟨⟨names, hr, hplaces⟩, -⟩
  have htemp : opened.fs.resolve false replacement.tempPath = .ok [tempName 0 1] := by decide +kernel
  rw [htemp] at hr
  cases hr
  have hdest := congrFun hplaces [⟨[97], rfl⟩]
  rw [Function.update_of_ne (by decide +kernel)] at hdest
  exact absurd hdest (by decide +kernel)

end AtomicOutput

end Ironlock
