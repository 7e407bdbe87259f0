import Ironlock.Runs
import Ironlock.RegularFiles
import Ironlock.SecureFs.Paths

/-! What the checks on paths establish when they succeed, and that they change
nothing but for the directories they make. -/

namespace Ironlock
open ByteOrder (Bytes)
open Effect
open Fs (Identity Metadata SysCall)

theorem Fs.Metadata.isFile_iff {m : Metadata} : m.isFile = true ↔ ∃ i, m.node = .file i := by
  rcases m with ⟨node, len⟩
  cases node <;> simp [isFile]

section
variable {env : Env} {p : Path} {w w' : World}

/-! ## Calls that only look -/

theorem look_snd {α : Type} {follow : Bool} {f : Fs → List Name → Node → Except IoError α} (fs : Fs) :
    (Fs.look follow p f fs).2 = fs := by
  unfold Fs.look
  split
  · rfl
  · split <;> rfl

theorem look_eq_ok {α : Type} {follow : Bool} {f : Fs → List Name → Node → Except IoError α}
    {fs : Fs} {a : α} (h : (Fs.look follow p f fs).1 = .ok a) :
    ∃ names x, fs.resolve follow p = .ok names ∧ fs.node names = some x ∧ f fs names x = .ok a := by
  unfold Fs.look at h
  split at h
  · cases h
  · split at h
    · cases h
    · exact ⟨_, _, ‹_›, ‹_›, h⟩

theorem symlinkMetadata_looks (p : Path) :
    Looks env (Sys.symlinkMetadata env p) := Looks.try_ rfl look_snd

theorem canonicalize_looks (p : Path) :
    Looks env (Sys.canonicalize env p) := Looks.try_ rfl look_snd

theorem exists_looks (p : Path) : Looks env (Sys.exists_ env p) :=
  .bind (Looks.try_ rfl look_snd) fun _ => .pure _

theorem openRead_looks (p : Path) :
    Looks env (Sys.run env (.openRead p) (Fs.openRead p)) := Looks.run rfl look_snd

theorem duplicate_looks (file : Identity) :
    Looks env (Sys.duplicate env file) := Looks.run rfl fun _ => rfl

theorem flush_looks (file : Identity) :
    Looks env (Sys.flush env file) := Looks.run rfl fun _ => rfl

theorem syncAll_looks (file : Identity) :
    Looks env (Sys.syncAll env file) := Looks.run rfl fun _ => rfl

theorem rewind_looks (file : Identity) :
    Looks env (Sys.rewind env file) := Looks.run rfl fun _ => rfl

theorem stat_looks (file : Identity) :
    Looks env (Sys.stat env file) := Looks.run rfl fun _ => rfl

theorem linkCount_looks (file : Identity) :
    Looks env (Sys.linkCount env file) := Looks.run rfl fun _ => rfl

theorem handleFromFile_looks (file : Identity) :
    Looks env (Sys.handleFromFile env file) := .bind (stat_looks _) fun _ => .pure _

theorem handleFromPath_looks (p : Path) :
    Looks env (Sys.handleFromPath env p) := .bind (openRead_looks _) fun _ => handleFromFile_looks _

theorem handleFromFile_eq_ok {file file' : Identity}
    (h : Sys.handleFromFile env file w = (.ok file', w')) : file' = file := by
  obtain ⟨_, _, -, h⟩ := Eff.bind_eq_ok.1 h
  cases h; rfl

theorem handleFromPath_eq_ok (hq : env.Quiet) {file : Identity}
    (h : Sys.handleFromPath env p w = (.ok file, w')) :
    ∃ names x, w.fs.resolve true p = .ok names ∧ w.fs.node names = some x ∧
      w.fs.identity names x = .ok file := by
  obtain ⟨file', w₁, hopen, h⟩ := Eff.bind_eq_ok.1 h
  rw [handleFromFile_eq_ok h]
  exact look_eq_ok (hq.run_tells look_snd hopen).1

/-- A look at a path that succeeds has seen what is there. -/
theorem symlinkMetadata_eq_ok (hq : env.Quiet) {m : Metadata}
    (h : Sys.symlinkMetadata env p w = (.ok (.ok m), w')) :
    ∃ names x, w.fs.resolve false p = .ok names ∧ w.fs.node names = some x ∧
      m = ⟨x, w.fs.size x⟩ := by
  obtain ⟨htells, -⟩ := hq.try_tells look_snd h
  obtain ⟨names, x, hr, hx, hm⟩ := look_eq_ok htells.ok
  cases hm
  exact ⟨names, x, hr, hx, rfl⟩

/-! ## Checks -/

theorem rejectLink_looks (p : Path) (m : Metadata) : Looks env (rejectLinkOrReparse p m) :=
  .ite (.fail _) (.pure _)

theorem requireDirectory_looks (p : Path) (m : Metadata) : Looks env (requireDirectory p m) :=
  .bind (rejectLink_looks p m) fun _ => .ite (.fail _) (.pure _)

theorem promptConfirmation_looks (env : Env) : Looks env (promptConfirmation env) :=
  Looked.refl

theorem stdAbsolute_looks (p : Path) : Looks env (stdAbsolute p) := Looked.refl

theorem checkOverwrite_looks (p : Path) (force : Bool) :
    Looks env (checkOverwrite env p force) :=
  .bind (symlinkMetadata_looks p) fun r => by
    cases r with
    | error e => exact .ite (.pure _) (.fail _)
    | ok m =>
      exact .bind (rejectLink_looks p m) fun _ => .ite (.fail _) <| .ite (.pure _) <|
        .bind (promptConfirmation_looks env) fun _ => .ite (.pure _) (.fail _)

theorem validateRegularSource_looks (p : Path) :
    Looks env (validateRegularSource env p) :=
  .bind (symlinkMetadata_looks p) fun r => by
    cases r with
    | error e => exact .fail _
    | ok m => exact .bind (rejectLink_looks p m) fun _ => .ite (.fail _) (.pure _)

theorem pathMatchesOpenFile_looks (p : Path) (file : Identity) :
    Looks env (pathMatchesOpenFile env p file) :=
  .bind (handleFromPath_looks p) fun _ => .bind (duplicate_looks file) fun _ =>
    .bind (handleFromFile_looks file) fun _ => .pure _

theorem closestAncestor_looks (p : Path) (names missing : List Name) :
    Looks env (closestAncestor env p names missing) := by
  induction names generalizing missing with
  | nil =>
    refine .bind (canonicalize_looks _) fun r => ?_
    cases r with
    | ok existing => exact .pure _
    | error e => exact .ite (.fail _) (.fail _)
  | cons n names ih =>
    refine .bind (canonicalize_looks _) fun r => ?_
    cases r with
    | ok existing => exact .pure _
    | error e => exact .ite (ih _) (.fail _)

theorem normalizedPathKey_looks (p : Path) :
    Looks env (normalizedPathKey env p) :=
  .bind (stdAbsolute_looks p) fun _ => .bind (closestAncestor_looks _ _ _) fun _ => .pure _

theorem pathsReferToSameFile_looks (source output : Path) :
    Looks env (pathsReferToSameFile env source output) :=
  .bind (normalizedPathKey_looks _) fun _ => .bind (normalizedPathKey_looks _) fun _ =>
    .ite (.pure _) <| .bind (symlinkMetadata_looks _) fun r => by
      cases r with
      | error e => exact .ite (.pure _) (.fail _)
      | ok m =>
        exact .bind (rejectLink_looks _ _) fun _ => .bind (handleFromPath_looks _) fun _ =>
          .bind (handleFromPath_looks _) fun _ => .pure _

theorem verifiedSourceFile_looks (p : Path) :
    Looks env (verifiedSourceFile env p) :=
  .bind (validateRegularSource_looks p) fun _ => .bind (Looks.run rfl look_snd) fun file =>
    .bind (stat_looks _) fun m => .bind (rejectLink_looks _ _) fun _ => by
      cases file with
      | file i =>
        exact .bind (pathMatchesOpenFile_looks _ _) fun _ => .ite (.pure _) (.fail _)
      | dir _ => exact .fail _
      | special _ => exact .fail _

/-! ## Safe directories -/

/-- A path that a walk finds to be a directory itself. -/
def Fs.IsDir (fs : Fs) (p : Path) : Prop :=
  ∃ names, fs.resolve false p = .ok names ∧ fs.node names = some .dir

theorem requireDirectory_eq_ok {m : Metadata} (h : requireDirectory p m w = (.ok (), w')) :
    m.node = .dir := by
  obtain ⟨_, _, -, h⟩ := Eff.bind_eq_ok.1 h
  split at h
  · cases h
  · rename_i hdir
    simpa [Metadata.isDir] using hdir

/-- What holds and is kept by making directories. -/
structure Growing (G P : Fs → Prop) : Prop where
  every : ∀ fs, P fs → G fs
  mkdir : ∀ fs d n, P fs → fs.nodeAt (fs.entryLoc d n) = none → P (fs.mkdir (fs.loc d) n)

theorem Growing.and_plain {G P : Fs → Prop} (h : Growing G P) (p : Path) (d : List Name) :
    Growing G fun fs => P fs ∧ fs.Plain p d where
  every fs hfs := h.every fs hfs.1
  mkdir fs d' n hfs hnone := by
    refine ⟨h.mkdir fs d' n hfs.1 hnone, hfs.2.keep (Fs.mkdir_keeps ?_)⟩
    rw [← Fs.entryLoc_eq]; exact hnone

theorem Growing.and_absolute {G P : Fs → Prop} (h : Growing G P) (p : Path) (a : List Part) :
    Growing G fun fs => P fs ∧ absolute fs.cwd p = .ok a where
  every fs hfs := h.every fs hfs.1
  mkdir fs d n hfs hnone := ⟨h.mkdir fs d n hfs.1 hnone, hfs.2⟩

variable {G P : Fs → Prop}

/-- A look whose metadata is that of a directory. -/
theorem lookDirectory_runs (hq : env.Quiet) (hG : ∀ fs, P fs → G fs) (p : Path)
    (next : IoError → FsM Unit)
    (hnext : ∀ e, Runs (Along G P) (next e) (fun _ => Along G fun fs => P fs ∧ fs.IsDir p)
      fun _ => Along G P) :
    Runs (Along G P) (do
        match ← Sys.symlinkMetadata env p with
        | .ok m => requireDirectory p m
        | .error e => next e)
      (fun _ => Along G fun fs => P fs ∧ fs.IsDir p) fun _ => Along G P := by
  refine .bind (.still (R := fun r fs => Tells env (Fs.symlinkMetadata p) fs r)
    ((symlinkMetadata_looks p).still hq) hG fun w r w' _ h => (hq.try_tells look_snd h).1) ?_
  rintro (e | m)
  · exact (hnext e).pre fun steps fs h => ⟨h.1, h.2.1⟩
  · refine (Runs.still ((requireDirectory_looks p m).still hq) (fun fs h => hG fs h.1)
      (R := fun _ fs => fs.IsDir p) ?_).post (fun _ _ _ h => ⟨h.1, h.2.1.1, h.2.2⟩)
      fun _ _ _ h => ⟨h.1, h.2.1⟩
    rintro w ⟨⟩ w' ⟨-, htells⟩ h
    obtain ⟨names, x, hr, hx, hm⟩ := look_eq_ok (Tells.ok htells)
    cases hm
    have : x = .dir := requireDirectory_eq_ok h
    exact ⟨names, hr, this ▸ hx⟩

theorem createDir_runs (hq : env.Quiet) (h : Growing G P) (p : Path) {Χ : IronlockError → Assertion} :
    Runs (Along G P) (Sys.try_ env (.createDir p) (Fs.createDir p)) (fun _ => Along G P) Χ := by
  refine .along_try (Q := fun _ => P) hq h.every (fun _ _ hP _ => hP) fun fs hP => ?_
  rcases Fs.make_cases p (fun fs d n => ((), fs.mkdir d n)) fs with ⟨e, he⟩ | ⟨d, n, -, hnone, he⟩ <;>
    rw [Fs.createDir, he]
  · exact ⟨h.every fs hP, hP⟩
  · exact ⟨h.every _ (h.mkdir fs d n hP hnone), h.mkdir fs d n hP hnone⟩

theorem ensureDirectory_runs (hq : env.Quiet) (h : Growing G P) (p : Path) :
    Runs (Along G P) (ensureDirectory env p) (fun _ => Along G fun fs => P fs ∧ fs.IsDir p)
      fun _ => Along G P := by
  have hlook := lookDirectory_runs hq h.every p (fun e => Eff.fail (.ioError e))
    fun e => .fail fun _ _ => id
  refine lookDirectory_runs hq h.every p _ fun e => .ite (fun _ => ?_) fun _ => .fail fun _ _ => id
  refine .bind (createDir_runs hq h p) fun r => ?_
  cases r with
  | ok _ => exact hlook
  | error e => exact .ite (fun _ => hlook) fun _ => .bind (.fail fun _ _ => id) fun _ => hlook

/-- One more component of a plain path, found to be a directory. -/
theorem Fs.Plain.push {fs : Fs} {d : List Name} {part : Part} (h : fs.Plain p d)
    (hdir : fs.IsDir (p.push part)) : fs.Plain (p.push part) (part.lead d) := by
  obtain ⟨names, hr, hx⟩ := hdir
  have hnul : (p.push part).hasNul = false := (resolve_eq_ok hr).1
  have hlead : lexicalFrom (fs.start p) (p.parts ++ [part]) = part.lead d := by
    rw [lexicalFrom_append, h.names]; rfl
  refine ⟨h.start, plainFrom_concat.2 ⟨h.plain, ?_⟩, hlead, hnul⟩
  change fs.node (lexicalFrom (fs.start p) (p.parts ++ [part])) = _
  rw [hlead]
  cases part with
  | up => exact h.dirPath.dropLast.node
  | name n =>
    have hat : fs.At (p.push (.name n)) d n := ⟨h.start, ⟨_, rfl, h.plain, h.names⟩, rfl, hnul⟩
    rw [hat.resolve (.inl rfl)] at hr
    cases hr
    exact hx

theorem Fs.plain_root (fs : Fs) : fs.Plain .root [] :=
  ⟨dirPath_nil fs, plainFrom_nil.2 node_nil, rfl, rfl⟩

/-- What holds of the absolute form of a path holds of the path. -/
theorem Fs.Plain.of_absolute {fs : Fs} {a : List Part} {d : List Name}
    (ha : absolute fs.cwd p = .ok a) (h : fs.Plain ⟨.root, a, false⟩ d) :
    p ≠ .empty ∧ ∃ d, fs.Plain p d := by
  unfold absolute at ha
  split at ha
  · cases ha
  rename_i hp
  refine ⟨hp, ?_⟩
  split at ha
  · rename_i habs
    cases ha
    have hstart : fs.start p = [] := by simp [Fs.start, habs]
    refine ⟨d, ?_, ?_, ?_, h.nul⟩ <;> rw [hstart]
    · exact h.start
    · exact h.plain
    · exact h.names
  · rename_i habs
    cases ha
    have hstart : fs.start p = fs.cwd := by simp [Fs.start, habs]
    obtain ⟨hcwd, hplain⟩ := plainFrom_append.1 h.plain
    have hlead : lexicalFrom [] (fs.cwd.map .name) = fs.cwd := by simp [lexicalFrom_names]
    refine ⟨lexicalFrom fs.cwd p.parts, ?_, ?_, ?_, ?_⟩
    · rw [hstart]; exact plainFrom_names.1 hcwd
    · rw [hstart]; change fs.PlainFrom (lexicalFrom [] _) _ at hplain; rwa [hlead] at hplain
    · rw [hstart]
    · have := h.nul
      simp only [Path.hasNul, List.any_append, Bool.or_eq_false_iff] at this
      exact this.2

theorem ensureComponents_runs (hq : env.Quiet) (h : Growing G P) (current : Path) (d : List Name)
    (parts : List Part) :
    Runs (Along G fun fs => P fs ∧ fs.Plain current d) (ensureComponents env current parts)
      (fun _ => Along G fun fs => P fs ∧
        fs.Plain ⟨current.anchor, current.parts ++ parts, false⟩ (lexicalFrom d parts))
      fun _ => Along G P := by
  induction parts generalizing current d with
  | nil =>
    refine .pure fun steps fs hfs => ⟨hfs.1, hfs.2.1, ?_⟩
    obtain ⟨hstart, hplain, hnames, hnul⟩ := hfs.2.2
    rw [List.append_nil]
    exact ⟨hstart, hplain, hnames, hnul⟩
  | cons part parts ih =>
    refine .bind ((ensureDirectory_runs hq (h.and_plain current d) (current.push part)).post
      (Λ := fun _ => Along G fun fs => P fs ∧ fs.Plain (current.push part) (part.lead d))
      (fun _ steps fs hfs => ⟨hfs.1, hfs.2.1.1, hfs.2.1.2.push hfs.2.2⟩)
      fun _ _ _ hfs => ⟨hfs.1, hfs.2.1⟩) fun _ => ?_
    simpa using ih (current.push part) (part.lead d)

/-- When `ensure_safe_directory` succeeds, the path leads to a real directory
through real directories only. -/
theorem ensureSafeDirectory_runs (hq : env.Quiet) (h : Growing G P) (p : Path) :
    Runs (Along G P) (ensureSafeDirectory env p)
      (fun _ => Along G fun fs => P fs ∧ p ≠ .empty ∧ ∃ d, fs.Plain p d) fun _ => Along G P := by
  refine .bind (.still ((stdAbsolute_looks p).still hq) h.every (R := fun a fs => absolute fs.cwd p = .ok a) ?_)
    fun a => ?_
  · intro w a w' _ ha
    simp only [stdAbsolute, Prod.mk.injEq] at ha
    split at ha <;> cases ha.1
    assumption
  refine .bind ((ensureDirectory_runs hq (h.and_absolute p a) .root).post
    (Λ := fun _ => Along G fun fs => (P fs ∧ absolute fs.cwd p = .ok a) ∧ fs.Plain .root [])
    (fun _ steps fs hfs => ⟨hfs.1, hfs.2.1, fs.plain_root⟩) fun _ _ _ hfs => ⟨hfs.1, hfs.2.1⟩)
    fun _ => ?_
  refine (ensureComponents_runs hq (h.and_absolute p a) .root [] a).post
    (fun _ steps fs hfs => ⟨hfs.1, hfs.2.1.1, ?_⟩) fun _ _ _ hfs => ⟨hfs.1, hfs.2.1⟩
  exact Fs.Plain.of_absolute hfs.2.1.2 hfs.2.2

end

end Ironlock
