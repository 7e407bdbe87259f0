import Ironlock.Traversal

/-! What the planners collect in a tree: every file below a directory, once. -/

namespace Ironlock
open ByteOrder (Bytes)
open Effect
open Fs (Identity Metadata SysCall)

namespace Fs

/-- The files an input of a planner stands for: itself, or what is below it. -/
def inputFiles (fs : Fs) (decrypting : Bool) (input : Path) : List Path :=
  match fs.resolve false input with
  | .error _ => []
  | .ok names =>
    if fs.dirAt names then ((fs.below names fs.fileAt).map .absolute).filter fun p =>
      if decrypting then p.encrypted else !p.encrypted
    else [input]

/-- The files the inputs of a planner stand for. -/
def inputsFiles (fs : Fs) (decrypting : Bool) (inputs : List Path) : List Path :=
  inputs.flatMap (fs.inputFiles decrypting)

/-- An input that is there. -/
def Exists (fs : Fs) (p : Path) : Prop := ∃ names x, fs.resolve false p = .ok names ∧ fs.node names = some x

theorem exists_iff {fs : Fs} {p : Path} : fs.Exists p ↔ (fs.symlinkMetadata p).1.isOk = true := by
  constructor
  · rintro ⟨names, x, hr, hx⟩
    simp [Fs.symlinkMetadata, look, hr, hx, Except.isOk, Except.toBool]
  · intro h
    rcases hm : (fs.symlinkMetadata p).1 with e | m <;> rw [hm] at h
    · cases h
    · obtain ⟨names, x, hr, hx, -⟩ := look_eq_ok hm
      exact ⟨names, x, hr, hx⟩

instance (fs : Fs) (p : Path) : Decidable (fs.Exists p) := decidable_of_iff _ exists_iff.symm

end Fs

section
variable {env : Env} {fs : Fs} {k : Nat}

/-- A directory walk collects exactly the files below the directory. -/
theorem collectFilesRecursive_answers (hq : env.Quiet) (hf : env.Faultless) (ht : fs.Tree) {dir : Path} {d : Loc}
    (hr : fs.resolve false dir = .ok d) (hd : fs.nodeAt d = some .dir) :
    ∃ files, Answers fs k (collectFilesRecursive env dir) (.ok files) k ∧
      files.Perm ((fs.below d fs.fileAt).map .absolute) := by
  have hdir : fs.node d = some .dir := by rw [ht.node]; exact hd
  rcases collectFilesRecursive_collects (k := k) hq hf ht.nulFree ht.cwd hr hdir with
    ⟨files, hanswers, hnodup, -, hfiles⟩ | ⟨⟨x, hodd, hx⟩, -⟩
  · refine ⟨_, hanswers, (List.mergeSort_perm ..).trans (List.Perm.map _ ?_)⟩
    refine (List.perm_ext_iff_of_nodup hnodup (fs.nodup_below d _)).2 fun x => ?_
    rw [hfiles, ht.under_iff hd, Fs.mem_below, Fs.fileAt_iff, ht.node]
    tauto
  · exact absurd (ht.dirOrFile hd hx) hodd

/-! ## All inputs -/

theorem collectInput_answers (hq : env.Quiet) (hf : env.Faultless) (ht : fs.Tree) {input : Path}
    (hin : fs.Exists input) (decrypting : Bool) :
    ∃ files, Answers fs k (collectInput env decrypting input) (.ok files) k ∧
      files.Perm (fs.inputFiles decrypting input) := by
  obtain ⟨names, x, hr, hx⟩ := hin
  have hx' : fs.nodeAt names = some x := by rw [← ht.node]; exact hx
  have hlook := symlinkMetadata_answers (k := k) hq hf hr hx
  rcases ht.kinds _ _ hx' with rfl | ⟨i, rfl⟩
  · obtain ⟨files, hcollect, hperm⟩ := collectFilesRecursive_answers (k := k) hq hf ht hr hx'
    refine ⟨_, .bind hlook (.bind (rejectLink_answers rfl) (.ite_pos rfl (.bind hcollect (.pure _)))), ?_⟩
    simp only [Fs.inputFiles, hr, Fs.dirAt_iff.2 hx', if_true]
    exact hperm.filter _
  · refine ⟨[input], .bind hlook (.bind (rejectLink_answers rfl)
      (.ite_neg (by simp [Metadata.isDir]) (.ite_pos rfl (.pure _)))), ?_⟩
    have hdir : fs.dirAt names = false := by simp [Fs.dirAt, hx']
    simp only [Fs.inputFiles, hr, hdir, Bool.false_eq_true, if_false]
    exact List.Perm.refl _

theorem collectInputsFrom_answers (hq : env.Quiet) (hf : env.Faultless) (ht : fs.Tree) {inputs : List Path}
    (hin : ∀ input ∈ inputs, fs.Exists input) (decrypting : Bool) (files : List Path) :
    ∃ files', Answers fs k (collectInputsFrom env decrypting inputs files) (.ok files') k ∧
      files'.Perm (files ++ fs.inputsFiles decrypting inputs) := by
  induction inputs generalizing files with
  | nil => exact ⟨files, .pure _, by simp [Fs.inputsFiles]⟩
  | cons input inputs ih =>
    obtain ⟨more, hmore, hperm⟩ := collectInput_answers (k := k) hq hf ht (hin input List.mem_cons_self) decrypting
    obtain ⟨files', hfiles, hperm'⟩ := ih (fun q hmem => hin q (List.mem_cons_of_mem _ hmem)) (files ++ more)
    refine ⟨files', .bind hmore hfiles, hperm'.trans ?_⟩
    simp only [Fs.inputsFiles, List.flatMap_cons, List.append_assoc]
    exact (hperm.append_right _).append_left _

/-- What an input stands for are regular files. -/
theorem Fs.Tree.inputFiles_isFile (ht : fs.Tree) {decrypting : Bool} {input : Path} (hin : fs.Exists input) :
    ∀ p ∈ fs.inputFiles decrypting input, ∃ i, fs.IsFile p i := by
  obtain ⟨names, x, hr, hx⟩ := hin
  rw [ht.node] at hx
  intro p hp
  simp only [Fs.inputFiles, hr] at hp
  rcases ht.kinds _ _ hx with rfl | ⟨i, rfl⟩
  · rw [if_pos (Fs.dirAt_iff.2 hx)] at hp
    obtain ⟨l, hl, rfl⟩ := List.mem_map.1 (List.mem_filter.1 hp).1
    obtain ⟨-, -, hfile⟩ := Fs.mem_below.1 hl
    obtain ⟨i, hi⟩ := Fs.fileAt_iff.1 hfile
    obtain ⟨d, n, rfl⟩ := List.eq_nil_or_concat l |>.resolve_left (Fs.file_ne_nil hi)
    rw [List.concat_eq_append] at hi ⊢
    exact ⟨i, _, (ht.at_absolute hi).resolve (.inl rfl), by rw [ht.node]; exact hi⟩
  · have hdir : fs.dirAt names = false := by simp [Fs.dirAt, hx]
    rw [if_neg (by simp [hdir])] at hp
    rw [List.mem_singleton.1 hp]
    exact ⟨i, names, hr, by rw [ht.node]; exact hx⟩

theorem Fs.Tree.inputsFiles_isFile (ht : fs.Tree) {decrypting : Bool} {inputs : List Path}
    (hin : ∀ input ∈ inputs, fs.Exists input) :
    ∀ p ∈ fs.inputsFiles decrypting inputs, ∃ i, fs.IsFile p i := by
  intro p hp
  obtain ⟨input, hinput, hp⟩ := List.mem_flatMap.1 hp
  exact ht.inputFiles_isFile (hin input hinput) p hp

/-- The sources of a batch are the files its inputs stand for, sorted. -/
theorem collectInputs_answers (hq : env.Quiet) (hf : env.Faultless) (ht : fs.Tree) {inputs : List Path}
    (hin : ∀ input ∈ inputs, fs.Exists input) (decrypting : Bool) :
    ∃ files, Answers fs k (collectInputs env inputs decrypting) (.ok files) k ∧
      files.Perm (fs.inputsFiles decrypting inputs) ∧ files.Pairwise fun p q => p.le q = true := by
  obtain ⟨files, hfiles, hperm⟩ := collectInputsFrom_answers (k := k) hq hf ht hin decrypting []
  exact ⟨_, .bind hfiles (.pure _), (List.mergeSort_perm ..).trans hperm,
    List.pairwise_mergeSort sortKey_trans sortKey_total files⟩

end

end Ironlock
