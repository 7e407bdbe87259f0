import Ironlock.SecureFs.Decrypt
import Ironlock.SecureFs.Keys

/-! The planners only look, and the sources they find are regular files. -/

namespace Ironlock
open ByteOrder (Bytes)
open Effect
open Fs (Identity Metadata SysCall)

/-! ## Programs that only look -/

section
variable {env : Env}

theorem visitEntry_looks (root p : Path) (stack files : List Path) :
    Looks env (visitEntry env root p stack files) := by
  refine .bind (symlinkMetadata_looks _) fun r => ?_
  cases r with
  | error e => exact .fail _
  | ok m =>
    refine .bind (rejectLink_looks _ _) fun _ => .ite (.bind (canonicalize_looks _) fun r => ?_)
      (.ite (.pure _) (.fail _))
    cases r with
    | error e => exact .fail _
    | ok canonical => exact .ite (.fail _) (.pure _)

theorem visitEntries_looks (root : Path) (ps stack files : List Path) :
    Looks env (visitEntries env root ps stack files) := by
  induction ps generalizing stack files with
  | nil => exact .pure _
  | cons p ps ih => exact .bind (visitEntry_looks _ _ _ _) fun _ => ih _ _

theorem collectDirectories_looks (root : Path) (count : Nat)
    (stack files : List Path) : Looks env (collectDirectories env root count stack files) := by
  induction count generalizing stack files with
  | zero => cases stack <;> [exact .pure _; exact .fail _]
  | succ count ih =>
    cases stack with
    | nil => exact .pure _
    | cons current stack =>
      exact .bind (Looks.run rfl look_snd) fun _ => .bind (visitEntries_looks _ _ _ _) fun _ => ih _ _

theorem collectFilesRecursive_looks (dir : Path) :
    Looks env (collectFilesRecursive env dir) := by
  refine .bind (symlinkMetadata_looks _) fun r => ?_
  cases r with
  | error e => exact .fail _
  | ok m =>
    refine .bind (rejectLink_looks _ _) fun _ => .ite (.fail _) (.bind (canonicalize_looks _) fun r => ?_)
    cases r with
    | error e => exact .fail _
    | ok root => exact .bind .get fun _ => .bind (collectDirectories_looks _ _ _ _) fun _ => .pure _

theorem collectInput_looks (decrypting : Bool) (input : Path) :
    Looks env (collectInput env decrypting input) := by
  refine .bind (symlinkMetadata_looks _) fun r => ?_
  cases r with
  | error e => exact .fail _
  | ok m =>
    exact .bind (rejectLink_looks _ _) fun _ => .ite
      (.bind (collectFilesRecursive_looks _) fun _ => .pure _) (.ite (.pure _) (.fail _))

theorem collectInputsFrom_looks (decrypting : Bool) (inputs files : List Path) :
    Looks env (collectInputsFrom env decrypting inputs files) := by
  induction inputs generalizing files with
  | nil => exact .pure _
  | cons input inputs ih => exact .bind (collectInput_looks _ _) fun _ => ih _

theorem registerSources_looks (sources : List Path) (keys : List Bytes)
    (handles : List Identity) : Looks env (registerSources env sources keys handles) := by
  induction sources generalizing keys handles with
  | nil => exact .pure _
  | cons source sources ih =>
    exact .bind (normalizedPathKey_looks _) fun _ => .bind (handleFromPath_looks _) fun _ =>
      .ite (.fail _) (ih _ _)

theorem uniqueDecryptedPath_looks (p : Path) :
    Looks env (uniqueDecryptedPath env p) := by
  suffices h : ∀ parent stem extension tries,
      Looks env (uniqueDecryptedPathIn env p parent stem extension tries) from h _ _ _ 128
  intro parent stem extension tries
  induction tries with
  | zero => exact .fail _
  | succ tries ih =>
    exact .bind (Looks.draw _) fun _ => .bind (exists_looks _) fun _ => .ite ih (.pure _)

theorem guard_new_looks (plans : List DecryptionPlan) :
    Looks env (DecryptionBatchGuard.new env plans) :=
  .bind (registerSources_looks _ _ _) fun _ => .pure _

theorem planSource_looks (source targetDir : Path) (seen : List Bytes)
    (seenHandles : List Identity) :
    Looks env (planSource env source targetDir seen seenHandles) :=
  .bind (normalizedPathKey_looks _) fun _ => .bind (handleFromPath_looks _) fun _ =>
    .ite (.fail _) (.pure _)

theorem planDirectory_looks (outputBase : Option Path) (root : Path)
    (sources : List Path) (plans : List DecryptionPlan) (seen : List Bytes)
    (seenHandles : List Identity) :
    Looks env (planDirectory env outputBase root sources plans seen seenHandles) := by
  induction sources generalizing plans seen seenHandles with
  | nil => exact .pure _
  | cons source sources ih =>
    exact .ite (ih _ _ _) <| .bind (.ofExcept _) fun _ => .bind (planSource_looks _ _ _ _) fun _ =>
      ih _ _ _

theorem planInput_looks (outputBase : Option Path) (input : Path)
    (plans : List DecryptionPlan) (seen : List Bytes) (seenHandles : List Identity) :
    Looks env (planInput env outputBase input plans seen seenHandles) := by
  refine .bind (symlinkMetadata_looks _) fun r => ?_
  cases r with
  | error e => exact .fail _
  | ok m =>
    refine .bind (rejectLink_looks _ _) fun _ => .ite (.bind (canonicalize_looks _) fun r => ?_) <|
      .ite (.ite (.fail _) (.bind (planSource_looks _ _ _ _) fun _ => .pure _)) (.fail _)
    cases r with
    | error e => exact .fail _
    | ok root =>
      exact .bind (collectFilesRecursive_looks _) fun _ => planDirectory_looks _ _ _ _ _ _

theorem planInputs_looks (outputBase : Option Path) (inputs : List Path)
    (plans : List DecryptionPlan) (seen : List Bytes) (seenHandles : List Identity) :
    Looks env (planInputs env outputBase inputs plans seen seenHandles) := by
  induction inputs generalizing plans seen seenHandles with
  | nil => exact .pure _
  | cons input inputs ih => exact .bind (planInput_looks _ _ _ _ _) fun _ => ih _ _ _

theorem planDecryptionInputs_looks (inputs : List Path) (outputBase : Option Path) :
    Looks env (planDecryptionInputs env inputs outputBase) :=
  .bind (planInputs_looks _ _ _ _ _) fun _ => .pure _

end

/-! ## Regular files -/

section
variable {env : Env} {p : Path} {w w' : World}

theorem symlinkMetadata_isFile (hq : env.Quiet) {m : Metadata}
    (h : Sys.symlinkMetadata env p w = (.ok (.ok m), w')) (hm : m.isFile = true) :
    ∃ i, w.fs.IsFile p i := by
  obtain ⟨names, x, hr, hx, rfl⟩ := symlinkMetadata_eq_ok hq h
  cases x with
  | file i => exact ⟨i, names, hr, hx⟩
  | _ => cases hm

/-- The handle of a regular file is its inode. -/
theorem handleFromPath_isFile (hq : env.Quiet) {handle : Identity} {i : Nat}
    (h : Sys.handleFromPath env p w = (.ok handle, w')) (hi : w.fs.IsFile p i) :
    handle = .file i := by
  obtain ⟨names, x, hr, hx, hid⟩ := handleFromPath_eq_ok hq h
  obtain ⟨names', hr', hx'⟩ := hi.resolve
  rw [hr] at hr'
  cases hr'
  rw [hx] at hx'
  cases hx'
  exact (Except.ok.inj hid).symm

/-- Every registered source's handle is among the handles. -/
theorem registerSources_eq_ok (hq : env.Quiet) {sources : List Path} {keys keys' : List Bytes}
    {handles handles' : List Identity}
    (h : registerSources env sources keys handles w = (.ok (keys', handles'), w')) :
    (∀ handle ∈ handles, handle ∈ handles') ∧
      ∀ source ∈ sources, ∀ i, w.fs.IsFile source i → .file i ∈ handles' := by
  induction sources generalizing keys handles w with
  | nil => cases h; simp
  | cons source sources ih =>
    obtain ⟨key, w₁, hkey, h⟩ := Eff.bind_eq_ok.1 h
    obtain ⟨handle, w₂, hhandle, h⟩ := Eff.bind_eq_ok.1 h
    have hfs₁ := (((normalizedPathKey_looks _).still hq).run hkey).1
    have hfs₂ := (((handleFromPath_looks _).still hq).run hhandle).1
    split at h
    · cases h
    obtain ⟨hkept, hrest⟩ := ih h
    constructor
    · intro handle' hmem
      exact hkept _ (List.mem_cons_of_mem _ hmem)
    · intro source' hmem i hi
      rcases List.mem_cons.1 hmem with rfl | hmem
      · have := handleFromPath_isFile hq hhandle (hfs₁ ▸ hi)
        exact hkept _ (this ▸ List.mem_cons_self)
      · exact hrest source' hmem i (by rw [hfs₂, hfs₁]; exact hi)

/-! ## What is collected -/

theorem visitEntry_eq_ok (hq : env.Quiet) {root : Path} {stack stack' files files' : List Path}
    (hfiles : ∀ q ∈ files, ∃ i, w.fs.IsFile q i)
    (h : visitEntry env root p stack files w = (.ok (stack', files'), w')) :
    ∀ q ∈ files', ∃ i, w.fs.IsFile q i := by
  obtain ⟨r, w₁, hr, h⟩ := Eff.bind_eq_ok.1 h
  cases r with
  | error e => cases h
  | ok m =>
    obtain ⟨_, w₂, -, h⟩ := Eff.bind_eq_ok.1 h
    split at h
    · obtain ⟨r, w₃, -, h⟩ := Eff.bind_eq_ok.1 h
      cases r with
      | error e => cases h
      | ok canonical =>
        simp only at h
        split at h
        · cases h
        · cases h; exact hfiles
    · split at h
      · cases h
        intro q hmem
        rcases List.mem_append.1 hmem with hmem | hmem
        · exact hfiles q hmem
        · rw [List.mem_singleton.1 hmem]; exact symlinkMetadata_isFile hq hr ‹_›
      · cases h

theorem visitEntries_eq_ok (hq : env.Quiet) {root : Path} {ps stack stack' files files' : List Path}
    (hfiles : ∀ q ∈ files, ∃ i, w.fs.IsFile q i)
    (h : visitEntries env root ps stack files w = (.ok (stack', files'), w')) :
    ∀ q ∈ files', ∃ i, w.fs.IsFile q i := by
  induction ps generalizing stack files w with
  | nil => cases h; exact hfiles
  | cons p ps ih =>
    obtain ⟨⟨stack₁, files₁⟩, w₁, hvisit, h⟩ := Eff.bind_eq_ok.1 h
    have hfs := (((visitEntry_looks _ _ _ _).still hq).run hvisit).1
    rw [← hfs]
    exact ih (by rw [hfs]; exact visitEntry_eq_ok hq hfiles hvisit) h

theorem collectDirectories_eq_ok (hq : env.Quiet) {root : Path} {count : Nat}
    {stack files files' : List Path} (hfiles : ∀ q ∈ files, ∃ i, w.fs.IsFile q i)
    (h : collectDirectories env root count stack files w = (.ok files', w')) :
    ∀ q ∈ files', ∃ i, w.fs.IsFile q i := by
  induction count generalizing stack files w with
  | zero => cases stack <;> cases h; exact hfiles
  | succ count ih =>
    cases stack with
    | nil => cases h; exact hfiles
    | cons current stack =>
      obtain ⟨entries, w₁, hread, h⟩ := Eff.bind_eq_ok.1 h
      obtain ⟨⟨stack₁, files₁⟩, w₂, hvisit, h⟩ := Eff.bind_eq_ok.1 h
      have hfs₁ := (((Looks.run rfl look_snd).still hq).run hread).1
      have hfs₂ := (((visitEntries_looks _ _ _ _).still hq).run hvisit).1
      have := visitEntries_eq_ok hq (by rwa [hfs₁]) hvisit
      rw [← hfs₁, ← hfs₂]
      exact ih (by rwa [hfs₂]) h

/-- What a directory walk collects are regular files. -/
theorem collectFilesRecursive_eq_ok (hq : env.Quiet) {dir : Path} {files : List Path}
    (h : collectFilesRecursive env dir w = (.ok files, w')) :
    ∀ q ∈ files, ∃ i, w.fs.IsFile q i := by
  obtain ⟨r, w₁, hr, h⟩ := Eff.bind_eq_ok.1 h
  have hfs₁ := (((symlinkMetadata_looks _).still hq).run hr).1
  cases r with
  | error e => cases h
  | ok m =>
    obtain ⟨_, w₂, hreject, h⟩ := Eff.bind_eq_ok.1 h
    have hfs₂ := (((rejectLink_looks _ _).still hq).run hreject).1
    split at h
    · cases h
    obtain ⟨r, w₃, hcanon, h⟩ := Eff.bind_eq_ok.1 h
    have hfs₃ := (((canonicalize_looks _).still hq).run hcanon).1
    cases r with
    | error e => cases h
    | ok root =>
      obtain ⟨_, _, hget, h⟩ := Eff.bind_eq_ok.1 h
      cases hget
      obtain ⟨files', w₄, hcollect, h⟩ := Eff.bind_eq_ok.1 h
      cases h
      have := collectDirectories_eq_ok hq (by simp) hcollect
      rw [hfs₃, hfs₂, hfs₁] at this
      intro q hmem
      exact this q (List.mem_mergeSort.1 hmem)

theorem collectInput_eq_ok (hq : env.Quiet) {decrypting : Bool} {input : Path} {files : List Path}
    (h : collectInput env decrypting input w = (.ok files, w')) :
    ∀ q ∈ files, ∃ i, w.fs.IsFile q i := by
  obtain ⟨r, w₁, hr, h⟩ := Eff.bind_eq_ok.1 h
  have hfs₁ := (((symlinkMetadata_looks _).still hq).run hr).1
  cases r with
  | error e => cases h
  | ok m =>
    obtain ⟨_, w₂, hreject, h⟩ := Eff.bind_eq_ok.1 h
    have hfs₂ := (((rejectLink_looks _ _).still hq).run hreject).1
    split at h
    · obtain ⟨files', w₃, hcollect, h⟩ := Eff.bind_eq_ok.1 h
      cases h
      have := collectFilesRecursive_eq_ok hq hcollect
      rw [hfs₂, hfs₁] at this
      intro q hmem
      exact this q (List.mem_filter.1 hmem).1
    · split at h
      · cases h
        intro q hmem
        rw [List.mem_singleton.1 hmem]
        exact symlinkMetadata_isFile hq hr ‹_›
      · cases h

theorem collectInputsFrom_eq_ok (hq : env.Quiet) {decrypting : Bool} {inputs files files' : List Path}
    (hfiles : ∀ q ∈ files, ∃ i, w.fs.IsFile q i)
    (h : collectInputsFrom env decrypting inputs files w = (.ok files', w')) :
    ∀ q ∈ files', ∃ i, w.fs.IsFile q i := by
  induction inputs generalizing files w with
  | nil => cases h; exact hfiles
  | cons input inputs ih =>
    obtain ⟨more, w₁, hinput, h⟩ := Eff.bind_eq_ok.1 h
    have hfs := (((collectInput_looks _ _).still hq).run hinput).1
    have hmore := collectInput_eq_ok hq hinput
    rw [← hfs]
    refine ih ?_ h
    intro q hmem
    rw [hfs]
    exact (List.mem_append.1 hmem).elim (hfiles q) (hmore q)

/-! ## What is planned -/

theorem planSource_eq_ok {source targetDir : Path} {seen seen' : List Bytes}
    {seenHandles seenHandles' : List Identity} {plan : DecryptionPlan}
    (h : planSource env source targetDir seen seenHandles w = (.ok (plan, seen', seenHandles'), w')) :
    plan = ⟨source, targetDir⟩ := by
  obtain ⟨_, _, -, h⟩ := Eff.bind_eq_ok.1 h
  obtain ⟨_, _, -, h⟩ := Eff.bind_eq_ok.1 h
  split at h
  · cases h
  · cases h; rfl

theorem planDirectory_eq_ok {outputBase : Option Path} {root : Path}
    {sources : List Path} {plans plans' : List DecryptionPlan} {seen seen' : List Bytes}
    {seenHandles seenHandles' : List Identity}
    (h : planDirectory env outputBase root sources plans seen seenHandles w =
      (.ok (plans', seen', seenHandles'), w')) :
    ∀ plan ∈ plans', plan ∈ plans ∨ plan.source ∈ sources := by
  induction sources generalizing plans seen seenHandles w with
  | nil => cases h; exact fun _ => .inl
  | cons source sources ih =>
    unfold planDirectory at h
    split at h
    · intro plan hmem
      exact (ih h plan hmem).imp id (List.mem_cons_of_mem _)
    · obtain ⟨targetDir, _, -, h⟩ := Eff.bind_eq_ok.1 h
      obtain ⟨⟨plan, _, _⟩, _, hplan, h⟩ := Eff.bind_eq_ok.1 h
      obtain rfl := planSource_eq_ok hplan
      intro plan hmem
      rcases ih h plan hmem with hmem | hmem
      · rcases List.mem_append.1 hmem with hmem | hmem
        · exact .inl hmem
        · rw [List.mem_singleton.1 hmem]; exact .inr List.mem_cons_self
      · exact .inr (List.mem_cons_of_mem _ hmem)

theorem planInput_eq_ok (hq : env.Quiet) {outputBase : Option Path} {input : Path}
    {plans plans' : List DecryptionPlan} {seen seen' : List Bytes}
    {seenHandles seenHandles' : List Identity}
    (hplans : ∀ plan ∈ plans, ∃ i, w.fs.IsFile plan.source i)
    (h : planInput env outputBase input plans seen seenHandles w =
      (.ok (plans', seen', seenHandles'), w')) :
    ∀ plan ∈ plans', ∃ i, w.fs.IsFile plan.source i := by
  obtain ⟨r, w₁, hr, h⟩ := Eff.bind_eq_ok.1 h
  have hfs₁ := (((symlinkMetadata_looks _).still hq).run hr).1
  cases r with
  | error e => cases h
  | ok m =>
    obtain ⟨_, w₂, hreject, h⟩ := Eff.bind_eq_ok.1 h
    have hfs₂ := (((rejectLink_looks _ _).still hq).run hreject).1
    split at h
    · obtain ⟨r, w₃, hcanon, h⟩ := Eff.bind_eq_ok.1 h
      have hfs₃ := (((canonicalize_looks _).still hq).run hcanon).1
      cases r with
      | error e => cases h
      | ok root =>
        obtain ⟨sources, w₄, hcollect, h⟩ := Eff.bind_eq_ok.1 h
        have hsources := collectFilesRecursive_eq_ok hq hcollect
        rw [hfs₃, hfs₂, hfs₁] at hsources
        intro plan hmem
        exact (planDirectory_eq_ok h plan hmem).elim (hplans plan) (hsources _)
    · split at h
      · split at h
        · cases h
        obtain ⟨⟨plan, _, _⟩, w₃, hplan, h⟩ := Eff.bind_eq_ok.1 h
        cases h
        obtain rfl := planSource_eq_ok hplan
        intro plan hmem
        rcases List.mem_append.1 hmem with hmem | hmem
        · exact hplans plan hmem
        · rw [List.mem_singleton.1 hmem]
          exact symlinkMetadata_isFile hq hr ‹_›
      · cases h

theorem planInputs_eq_ok (hq : env.Quiet) {outputBase : Option Path} {inputs : List Path}
    {plans plans' : List DecryptionPlan} {seen : List Bytes} {seenHandles : List Identity}
    (hplans : ∀ plan ∈ plans, ∃ i, w.fs.IsFile plan.source i)
    (h : planInputs env outputBase inputs plans seen seenHandles w = (.ok plans', w')) :
    ∀ plan ∈ plans', ∃ i, w.fs.IsFile plan.source i := by
  induction inputs generalizing plans seen seenHandles w with
  | nil => cases h; exact hplans
  | cons input inputs ih =>
    obtain ⟨⟨plans₁, _, _⟩, w₁, hinput, h⟩ := Eff.bind_eq_ok.1 h
    have hfs := (((planInput_looks _ _ _ _ _).still hq).run hinput).1
    rw [← hfs]
    exact ih (by rw [hfs]; exact planInput_eq_ok hq hplans hinput) h

/-- The sources of a planned batch are regular files. -/
theorem planDecryptionInputs_eq_ok (hq : env.Quiet) {inputs : List Path} {outputBase : Option Path}
    {plans : List DecryptionPlan}
    (h : planDecryptionInputs env inputs outputBase w = (.ok plans, w')) :
    ∀ plan ∈ plans, ∃ i, w.fs.IsFile plan.source i := by
  obtain ⟨plans', _, hplans, h⟩ := Eff.bind_eq_ok.1 h
  cases h
  intro plan hmem
  exact planInputs_eq_ok hq (by simp) hplans plan (List.mem_mergeSort.1 hmem)

/-- Files that are found in order stay in that order. -/
theorem collectInputs_ordered {inputs files : List Path} {decrypting : Bool}
    (h : collectInputsFrom env decrypting inputs [] w = (.ok files, w'))
    (horder : files.Pairwise fun p q => p.le q = true) : collectInputs env inputs decrypting w = (.ok files, w') := by
  rw [collectInputs, Eff.bind_ok h, List.mergeSort_of_pairwise horder]
  rfl

theorem planDecryptionInputs_ordered {inputs : List Path} {outputBase : Option Path} {plans : List DecryptionPlan}
    (h : planInputs env outputBase inputs [] [] [] w = (.ok plans, w'))
    (horder : plans.Pairwise fun a b => a.source.le b.source = true) :
    planDecryptionInputs env inputs outputBase w = (.ok plans, w') := by
  rw [planDecryptionInputs, Eff.bind_ok h, List.mergeSort_of_pairwise horder]
  rfl

end

end Ironlock
