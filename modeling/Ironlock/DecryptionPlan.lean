import Ironlock.EncryptionPlan

/-! Planning the decryption of files in a tree: which batches are accepted, and
which directory each source is decrypted into. -/

namespace Ironlock
open ByteOrder (Bytes)
open Effect
open Fs (Identity Metadata SysCall)

/-- The path of a chain of names from where one is. -/
def Path.relative (names : List Name) : Path := ⟨.bare, names.map .name, false⟩

/-- The directory `rel` of an input directory `d`: below the base, or where it is. -/
def mirrored (base : Option Path) (d rel : List Name) : Path := match base with
  | some base => base.join (.relative rel)
  | none => .absolute (d ++ rel)

/-- A plan for an input. A file that is given goes to the base directory, or to
the current one. A file in a directory that is given goes to the same directory
below the base, or it stays in its own. -/
inductive Fs.Assigned (fs : Fs) (base : Option Path) (input : Path) : DecryptionPlan → Prop
  | given {i : Nat} (hfile : fs.IsFile input i) : Assigned fs base input ⟨input, base.getD .here⟩
  | found {d rel : List Name} {n : Name} {i : Nat} (hinput : fs.resolve false input = .ok d)
      (hdir : fs.nodeAt d = some .dir) (hfile : fs.nodeAt (d ++ rel ++ [n]) = some (.file i)) :
      Assigned fs base input ⟨.absolute (d ++ rel ++ [n]), mirrored base d rel⟩

/-- No two of the files are the same. -/
def Fs.Distinct (env : Env) (fs : Fs) (files : List Path) : Prop :=
  files.Pairwise fun p q => ¬fs.SameFile env p q

section
variable {env : Env} {fs : Fs} {k : Nat} {p q : Path} {files files' : List Path}

theorem Fs.Distinct.perm (h : files.Perm files') : fs.Distinct env files ↔ fs.Distinct env files' :=
  h.pairwise_iff fun hpq hqp => hpq hqp.symm

theorem Fs.Distinct.front (h : fs.Distinct env (files ++ files')) : fs.Distinct env files :=
  (List.pairwise_append.1 h).1

theorem Fs.distinct_concat : fs.Distinct env (files ++ [p]) ↔
    fs.Distinct env files ∧ ∀ q ∈ files, ¬fs.SameFile env q p := by
  simp [Fs.Distinct, List.pairwise_append]

/-! ## Registering -/

/-- A part of the planner that takes files on: they are distinct and it goes
on, or they are not and it fails. -/
inductive Decided {α : Type} (env : Env) (fs : Fs) (k : Nat) (files : List Path) (m : FsM α) (a : α) : Prop
  | planned (hdistinct : fs.Distinct env files) (hm : Answers fs k m (.ok a) k)
  | refused (hsame : ¬fs.Distinct env files) {e : IronlockError} (hm : Answers fs k m (.error e) k)

namespace Decided

variable {α β : Type} {m : FsM α} {f : α → FsM β} {a : α} {b : β}

theorem before (hm : Answers fs k m (.ok a) k) (hf : Decided env fs k files (f a) b) :
    Decided env fs k files (m >>= f) b := by
  cases hf with
  | planned hdistinct hf => exact .planned hdistinct (.bind hm hf)
  | refused hsame hf => exact .refused hsame (.bind hm hf)

theorem bind (hm : Decided env fs k files m a)
    (hf : fs.Distinct env files → Decided env fs k (files ++ files') (f a) b) :
    Decided env fs k (files ++ files') (m >>= f) b := by
  cases hm with
  | planned hdistinct hm => exact .before hm (hf hdistinct)
  | refused hsame hm => exact .refused (fun h => hsame h.front) (.bind_error hm f)

/-- It goes on exactly when they are distinct. -/
theorem iff (h : Decided env fs k files m a) {w : World} (hw : w.seen = (fs, k)) :
    (∃ b w', m w = (.ok b, w')) ↔ fs.Distinct env files := by
  cases h with
  | planned hdistinct hm =>
    obtain ⟨w', hrun, -⟩ := hm.run hw
    exact iff_of_true ⟨a, w', hrun⟩ hdistinct
  | refused hsame hm =>
    refine iff_of_false ?_ hsame
    rintro ⟨b, w', hrun⟩
    cases (hm.unique hw hrun).1

theorem perm (h : Decided env fs k files m a) (hperm : files.Perm files') : Decided env fs k files' m a := by
  cases h with
  | planned hdistinct hm => exact .planned ((Fs.Distinct.perm hperm).1 hdistinct) hm
  | refused hsame hm => exact .refused (mt (Fs.Distinct.perm hperm).2 hsame) hm

theorem unique (h : Decided env fs k files m a) {w w' : World} {c : α} (hw : w.seen = (fs, k))
    (hrun : m w = (.ok c, w')) : c = a := by
  cases h with
  | planned hdistinct hm =>
    cases (hm.unique hw hrun).1
    rfl
  | refused hsame hm => cases (hm.unique hw hrun).1

end Decided

/-- What the planner has seen of these files. -/
def seenOf (env : Env) (fs : Fs) (inode : Path → Nat) (files : List Path) : List Bytes × List Identity :=
  ((files.map (fs.keyOf env)).reverse, (files.map fun p => Identity.file (inode p)).reverse)

variable {inode : Path → Nat} {base : Option Path} {root input : Path}

theorem seenOf_concat : seenOf env fs inode (files ++ [p]) =
    (fs.keyOf env p :: (seenOf env fs inode files).1, .file (inode p) :: (seenOf env fs inode files).2) := by
  simp [seenOf]

theorem Batch.repeats_iff (hb : Batch fs (files ++ [p]) inode) :
    fs.keyOf env p ∈ (seenOf env fs inode files).1 ∨ .file (inode p) ∈ (seenOf env fs inode files).2 ↔
      ∃ q ∈ files, fs.SameFile env q p := by
  simp only [seenOf, List.mem_reverse, List.mem_map, Identity.file.injEq, ← exists_or, ← and_or_left]
  refine exists_congr fun q => and_congr_right fun hmem => ?_
  exact (hb.sameFile_iff (List.mem_append_left _ hmem) (List.mem_append_right _ (List.mem_singleton_self p))).symm

theorem planSource_decided (hq : env.Quiet) (hf : env.Faultless) (hb : Batch fs (files ++ [p]) inode)
    (hdistinct : fs.Distinct env files) (dir : Path) :
    Decided env fs k (files ++ [p])
      (planSource env p dir (seenOf env fs inode files).1 (seenOf env fs inode files).2)
      (⟨p, dir⟩, seenOf env fs inode (files ++ [p])) := by
  have hp : p ∈ files ++ [p] := List.mem_append_right _ (List.mem_singleton_self p)
  refine .before (hb.key_answers hq hf hp) (.before (hb.handle_answers hq hf hp) ?_)
  by_cases hsame : ∃ q ∈ files, fs.SameFile env q p
  · refine .refused ?_ (.ite_pos (hb.repeats_iff.2 hsame) (.fail _))
    obtain ⟨q, hmem, hsame⟩ := hsame
    exact fun h => (Fs.distinct_concat.1 h).2 q hmem hsame
  · refine .planned (Fs.distinct_concat.2 ⟨hdistinct, by simpa using hsame⟩) ?_
    rw [seenOf_concat]
    exact .ite_neg (mt hb.repeats_iff.1 hsame) (.pure _)

theorem planDirectory_decided (hq : env.Quiet) (hf : env.Faultless) {target : Path → Path} {sources : List Path}
    (hb : Batch fs (files ++ sources.filter Path.encrypted) inode)
    (htarget : ∀ s ∈ sources, targetDirectory base root s = .ok (target s)) (hdistinct : fs.Distinct env files)
    (plans : List DecryptionPlan) :
    Decided env fs k (files ++ sources.filter Path.encrypted)
      (planDirectory env base root sources plans (seenOf env fs inode files).1 (seenOf env fs inode files).2)
      (plans ++ (sources.filter Path.encrypted).map fun s => ⟨s, target s⟩,
        seenOf env fs inode (files ++ sources.filter Path.encrypted)) := by
  induction sources generalizing files plans with
  | nil =>
    simp only [List.filter_nil, List.append_nil, List.map_nil]
    exact .planned hdistinct (.pure _)
  | cons source sources ih =>
    have hrest : ∀ s ∈ sources, targetDirectory base root s = .ok (target s) := fun s hmem =>
      htarget s (List.mem_cons_of_mem _ hmem)
    unfold planDirectory
    cases hsource : source.encrypted with
    | false =>
      rw [List.filter_cons_of_neg (by simp [hsource])] at hb ⊢
      simp only [if_true]
      exact ih hb hrest hdistinct plans
    | true =>
      rw [List.filter_cons_of_pos hsource, List.append_cons files] at hb ⊢
      simp only [Bool.true_eq_false, if_false]
      refine .before (a := target source) ?_ ?_
      · rw [htarget source List.mem_cons_self]
        exact .ofExcept _
      have hb' : Batch fs (files ++ [source]) inode :=
        ⟨hb.tree, fun s hs => hb.files s (List.mem_append_left _ hs)⟩
      refine .bind (planSource_decided hq hf hb' hdistinct _) fun hdistinct' => ?_
      have hmore := ih hb hrest hdistinct' (plans ++ [⟨source, target source⟩])
      rw [List.append_assoc plans] at hmore
      exact hmore

/-! ## Inputs -/

/-- What is below a directory is a name in some directory below it. -/
theorem Fs.of_below {d l : List Name} (hd : fs.nodeAt d = some .dir)
    (hl : l ∈ fs.below d fs.fileAt) : ∃ rel n i, l = d ++ rel ++ [n] ∧ fs.nodeAt l = some (.file i) := by
  obtain ⟨-, ⟨rest, rfl⟩, hfile⟩ := Fs.mem_below.1 hl
  obtain ⟨i, hi⟩ := Fs.fileAt_iff.1 hfile
  obtain rfl | ⟨rel, n, rfl⟩ := List.eq_nil_or_concat rest
  · rw [List.append_nil, hd] at hi
    cases hi
  · exact ⟨rel, n, i, by simp, hi⟩

theorem targetDirectory_absolute (d rel : List Name) (n : Name) :
    targetDirectory base (.absolute d) (.absolute (d ++ rel ++ [n])) = .ok (mirrored base d rel) := by
  have hrelative : Path.relative (rel ++ [n]) = (Path.relative rel).push (.name n) := by
    simp [Path.relative, Path.push]
  have hstrip : (Path.absolute (d ++ rel ++ [n])).stripPrefix (.absolute d) = some (.relative (rel ++ [n])) := by
    simp [Path.stripPrefix, Path.absolute, Path.relative, List.append_assoc]
  have hparent : (Path.relative (rel ++ [n])).parentOrEmpty = .relative rel := by
    rw [hrelative, Path.parentOrEmpty, Path.push_parent]
    rfl
  have hown : (Path.absolute (d ++ rel ++ [n])).parentOrEmpty = .absolute (d ++ rel) := by
    rw [Fs.absolute_concat, Path.parentOrEmpty, Path.push_parent]
    rfl
  cases base <;> simp only [targetDirectory, hstrip, hparent, hown, mirrored]

theorem planInput_decided (hq : env.Quiet) (hf : env.Faultless) (ht : fs.Tree) (hin : fs.Exists input)
    (hext : ∀ i, fs.IsFile input i → input.encrypted = true) :
    ∃ more : List DecryptionPlan, (more.map (·.source)).Perm (fs.inputFiles true input) ∧
      (∀ plan ∈ more, fs.Assigned base input plan) ∧
      ∀ files plans, Batch fs (files ++ more.map (·.source)) inode → fs.Distinct env files →
        Decided env fs k (files ++ more.map (·.source))
          (planInput env base input plans (seenOf env fs inode files).1 (seenOf env fs inode files).2)
          (plans ++ more, seenOf env fs inode (files ++ more.map (·.source))) := by
  obtain ⟨names, x, hr, hx⟩ := hin
  have hx' : fs.nodeAt names = some x := by rw [← ht.node]; exact hx
  have hlook := symlinkMetadata_answers (k := k) hq hf hr hx
  rcases ht.kinds _ _ hx' with rfl | ⟨i, rfl⟩
  · obtain ⟨found, hcollect, hperm⟩ := collectFilesRecursive_answers (k := k) hq hf ht hr hx'
    have hcanon : Fs.canonicalize input fs = (.ok (.absolute names), fs) := by
      have hfollow := Fs.resolve_follow (fun t ht => by rw [hx] at ht; cases ht) hr
      simp only [Fs.canonicalize, Fs.look, hfollow, hx]
    have htarget : ∀ s ∈ found, ∃ dir, targetDirectory base (.absolute names) s = .ok dir ∧
        fs.Assigned base input ⟨s, dir⟩ := by
      intro s hs
      obtain ⟨l, hl, rfl⟩ := List.mem_map.1 (hperm.mem_iff.1 hs)
      obtain ⟨rel, n, i, rfl, hi⟩ := Fs.of_below hx' hl
      exact ⟨_, targetDirectory_absolute names rel n, .found hr hx' hi⟩
    choose! target htarget hassigned using htarget
    have hsources : ((found.filter Path.encrypted).map fun s => (⟨s, target s⟩ : DecryptionPlan)).map (·.source) =
        found.filter Path.encrypted := by
      rw [List.map_map]
      exact List.map_id _
    refine ⟨(found.filter Path.encrypted).map fun s => ⟨s, target s⟩, ?_, ?_, ?_⟩
    · rw [hsources]
      simp only [Fs.inputFiles, hr, Fs.dirAt_iff.2 hx', if_true]
      exact hperm.filter _
    · intro plan hmem
      obtain ⟨s, hs, rfl⟩ := List.mem_map.1 hmem
      exact hassigned s (List.mem_filter.1 hs).1
    · intro files plans hb hdistinct
      rw [hsources] at hb ⊢
      refine .before hlook (.before (rejectLink_answers rfl) ?_)
      rw [if_pos (by rfl)]
      exact .before (try_answers hq hf hcanon) (.before hcollect
        (planDirectory_decided hq hf hb htarget hdistinct plans))
  · have hi : fs.IsFile input i := ⟨names, hr, hx⟩
    have hdir : fs.dirAt names = false := by simp [Fs.dirAt, hx']
    refine ⟨[⟨input, base.getD .here⟩], ?_, List.forall_mem_singleton.2 (.given hi), ?_⟩
    · simp [Fs.inputFiles, hr, hdir]
    · intro files plans hb hdistinct
      refine .before hlook (.before (rejectLink_answers rfl) ?_)
      rw [if_neg (by simp [Metadata.isDir]), if_pos (by rfl), if_neg (by simp [hext i hi])]
      rcases planSource_decided (k := k) hq hf hb hdistinct (base.getD .here) with ⟨hdistinct', hm⟩ | ⟨hsame, hm⟩
      · exact .planned hdistinct' (.bind hm (.pure _))
      · exact .refused hsame (.bind_error hm _)

theorem planInputs_decided (hq : env.Quiet) (hf : env.Faultless) (ht : fs.Tree) {inputs : List Path}
    (hin : ∀ input ∈ inputs, fs.Exists input)
    (hext : ∀ input ∈ inputs, ∀ i, fs.IsFile input i → input.encrypted = true) :
    ∃ more : List DecryptionPlan, (more.map (·.source)).Perm (fs.inputsFiles true inputs) ∧
      (∀ plan ∈ more, ∃ input ∈ inputs, fs.Assigned base input plan) ∧
      ∀ files plans, Batch fs (files ++ more.map (·.source)) inode → fs.Distinct env files →
        Decided env fs k (files ++ more.map (·.source))
          (planInputs env base inputs plans (seenOf env fs inode files).1 (seenOf env fs inode files).2)
          (plans ++ more) := by
  induction inputs with
  | nil =>
    refine ⟨[], List.Perm.refl _, by simp, ?_⟩
    intro files plans hb hdistinct
    simp only [List.map_nil, List.append_nil]
    exact .planned hdistinct (.pure _)
  | cons input inputs ih =>
    obtain ⟨first, hfirst, hassigned, hplan⟩ := @planInput_decided env fs k inode base input hq hf ht
      (hin input List.mem_cons_self) (hext input List.mem_cons_self)
    obtain ⟨rest, hrest, hassigned', hplan'⟩ := ih (fun q hmem => hin q (List.mem_cons_of_mem _ hmem))
      fun q hmem => hext q (List.mem_cons_of_mem _ hmem)
    refine ⟨first ++ rest, ?_, ?_, ?_⟩
    · rw [List.map_append, Fs.inputsFiles, List.flatMap_cons]
      exact hfirst.append hrest
    · intro plan hmem
      rcases List.mem_append.1 hmem with hmem | hmem
      · exact ⟨input, List.mem_cons_self, hassigned plan hmem⟩
      · obtain ⟨q, hq, hplan⟩ := hassigned' plan hmem
        exact ⟨q, List.mem_cons_of_mem _ hq, hplan⟩
    · intro files plans hb hdistinct
      rw [List.map_append, ← List.append_assoc] at hb ⊢
      have hb' : Batch fs (files ++ first.map (·.source)) inode :=
        ⟨hb.tree, fun s hs => hb.files s (List.mem_append_left _ hs)⟩
      refine .bind (hplan files plans hb' hdistinct) fun hdistinct' => ?_
      rw [← List.append_assoc]
      exact hplan' _ _ hb hdistinct'

/-- A file that is planned has the extension. -/
theorem planInputs_encrypted (hq : env.Quiet) {inputs : List Path} {plans plans' : List DecryptionPlan}
    {seen : List Bytes} {handles : List Identity} {w w' : World}
    (h : planInputs env base inputs plans seen handles w = (.ok plans', w')) :
    ∀ input ∈ inputs, ∀ i, w.fs.IsFile input i → input.encrypted = true := by
  induction inputs generalizing plans seen handles w with
  | nil => simp
  | cons input inputs ih =>
    obtain ⟨⟨plans₁, seen₁, handles₁⟩, w₁, hinput, h⟩ := Eff.bind_eq_ok.1 h
    have hfs : w₁.fs = w.fs := (((planInput_looks _ _ _ _ _).still hq).run hinput).1
    have hrest := ih h
    rw [hfs] at hrest
    refine List.forall_mem_cons.2 ⟨?_, hrest⟩
    rintro i ⟨names, hr, hi⟩
    obtain ⟨r, w₂, hlook, hinput⟩ := Eff.bind_eq_ok.1 hinput
    cases r with
    | error e => cases hinput
    | ok m =>
      obtain ⟨_, w₃, -, hinput⟩ := Eff.bind_eq_ok.1 hinput
      obtain ⟨names', x, hr', hx, rfl⟩ := symlinkMetadata_eq_ok hq hlook
      rw [hr] at hr'
      cases hr'
      rw [hi] at hx
      cases hx
      rw [if_neg (by simp [Metadata.isDir]), if_pos (by rfl)] at hinput
      split at hinput
      · cases hinput
      · rename_i hext
        simpa using hext

end

section
variable {env : Env} {w : World} {inputs : List Path}

/-- Of regular files on Linux, two are the same when they are one inode. -/
theorem Fs.Tree.sameFile_iff {fs : Fs} (ht : fs.Tree) (hlinux : env.target = .linux) {p q : Path} {i j : Nat}
    (hp : fs.IsFile p i) (hq : fs.IsFile q j) : fs.SameFile env p q ↔ i = j := by
  constructor
  · rintro (hkey | ⟨a, hpa, hqa⟩)
    · obtain ⟨names, hr, hi⟩ := hp
      obtain ⟨names', hr', hj⟩ := hq
      rw [ht.keyOf_iff hlinux ⟨names, hr, hi⟩ ⟨names', hr', hj⟩, hr, hr', Except.ok.injEq] at hkey
      subst hkey
      rw [hi] at hj
      cases hj
      rfl
    · exact (hp.unique hpa).trans (hq.unique hqa).symm
  · rintro rfl
    exact .inr ⟨i, hp, hq⟩

/-- The files that a planner of decryptions takes on have the extension, if those that are
given do. -/
theorem Fs.Tree.inputFiles_encrypted {fs : Fs} (ht : fs.Tree) {input : Path} (hin : fs.Exists input)
    (hext : ∀ i, fs.IsFile input i → input.encrypted = true) :
    ∀ p ∈ fs.inputFiles true input, p.encrypted = true := by
  obtain ⟨names, x, hr, hx⟩ := hin
  intro p hp
  simp only [Fs.inputFiles, hr] at hp
  rw [ht.node] at hx
  rcases ht.kinds _ _ hx with rfl | ⟨i, rfl⟩
  · rw [if_pos (Fs.dirAt_iff.2 hx)] at hp
    simpa using (List.mem_filter.1 hp).2
  · have hdir : fs.dirAt names = false := by simp [Fs.dirAt, hx]
    rw [if_neg (by simp [hdir])] at hp
    rw [List.mem_singleton.1 hp]
    exact hext i ⟨names, hr, by rw [ht.node]; exact hx⟩

/-- A batch is planned for decryption exactly when every file that is given has
the extension `il` and no two of its files are the same. What is planned are
these files, once each and in order, each for the directory that mirrors its
own. -/
theorem planDecryptionInputs_sound_complete (hq : env.Quiet) (hf : env.Faultless) (ht : w.fs.Tree)
    (hin : ∀ input ∈ inputs, w.fs.Exists input) (base : Option Path) :
    ((∃ plans w', planDecryptionInputs env inputs base w = (.ok plans, w')) ↔
      (∀ input ∈ inputs, ∀ i, w.fs.IsFile input i → input.encrypted = true) ∧
        w.fs.Distinct env (w.fs.inputsFiles true inputs)) ∧
    (∀ plans w', planDecryptionInputs env inputs base w = (.ok plans, w') →
      (plans.map (·.source)).Perm (w.fs.inputsFiles true inputs) ∧
      (plans.map (·.source)).Pairwise (fun p q => p.le q = true) ∧
      ∀ plan ∈ plans, plan.source.encrypted = true ∧ ∃ input ∈ inputs, w.fs.Assigned base input plan) ∧
    (env.target = .linux → ∀ p ∈ w.fs.inputsFiles true inputs, ∀ q ∈ w.fs.inputsFiles true inputs,
      (w.fs.SameFile env p q ↔ ∃ i, w.fs.IsFile p i ∧ w.fs.IsFile q i)) := by
  have hfiles : ∀ p ∈ w.fs.inputsFiles true inputs, ∃ i, w.fs.IsFile p i := ht.inputsFiles_isFile hin
  have hdecided (hext : ∀ input ∈ inputs, ∀ i, w.fs.IsFile input i → input.encrypted = true) :
      ∃ plans : List DecryptionPlan, (plans.map (·.source)).Perm (w.fs.inputsFiles true inputs) ∧
        (∀ plan ∈ plans, ∃ input ∈ inputs, w.fs.Assigned base input plan) ∧
        Decided env w.fs w.draws (w.fs.inputsFiles true inputs) (planInputs env base inputs [] [] []) plans := by
    choose! inode hinode using hfiles
    obtain ⟨plans, hperm, hassigned, hplan⟩ := @planInputs_decided env w.fs w.draws inode base hq hf ht inputs hin hext
    have hb : Batch w.fs ([] ++ plans.map (·.source)) inode :=
      ⟨ht, fun s hs => hinode s (hperm.mem_iff.1 hs)⟩
    have hdecided := hplan [] [] hb List.Pairwise.nil
    rw [List.nil_append, List.nil_append] at hdecided
    exact ⟨plans, hperm, hassigned, hdecided.perm hperm⟩
  have hencrypted {plans : List DecryptionPlan} {w' : World}
      (h : planDecryptionInputs env inputs base w = (.ok plans, w')) :
      ∃ found, plans = found.mergeSort (fun left right => left.source.le right.source) ∧
        planInputs env base inputs [] [] [] w = (.ok found, w') := by
    obtain ⟨found, w₁, hfound, hsort⟩ := Eff.bind_eq_ok.1 h
    cases hsort
    exact ⟨found, rfl, hfound⟩
  refine ⟨⟨?_, ?_⟩, ?_, ?_⟩
  · rintro ⟨plans, w', h⟩
    obtain ⟨found, -, hfound⟩ := hencrypted h
    have hext := planInputs_encrypted hq hfound
    obtain ⟨_, -, -, hplan⟩ := hdecided hext
    exact ⟨hext, (hplan.iff rfl).1 ⟨found, w', hfound⟩⟩
  · rintro ⟨hext, hdistinct⟩
    obtain ⟨_, -, -, hplan⟩ := hdecided hext
    obtain ⟨found, w', hfound⟩ := (hplan.iff rfl).2 hdistinct
    exact ⟨_, w', Eff.bind_ok hfound _⟩
  · intro plans w' h
    obtain ⟨found, rfl, hfound⟩ := hencrypted h
    have hext := planInputs_encrypted hq hfound
    obtain ⟨plans, hperm, hassigned, hplan⟩ := hdecided hext
    obtain rfl := hplan.unique rfl hfound
    have hsorted : (found.mergeSort fun left right => left.source.le right.source).Perm found :=
      List.mergeSort_perm ..
    refine ⟨(hsorted.map _).trans hperm, ?_, ?_⟩
    · rw [List.pairwise_map]
      exact List.pairwise_mergeSort (fun a b c => sortKey_trans a.source b.source c.source)
        (fun a b => sortKey_total a.source b.source) found
    · intro plan hmem
      have hmem := hsorted.mem_iff.1 hmem
      refine ⟨?_, hassigned plan hmem⟩
      obtain ⟨input, hinput, hsource⟩ := List.mem_flatMap.1 (hperm.mem_iff.1 (List.mem_map_of_mem hmem))
      exact ht.inputFiles_encrypted (hin input hinput) (hext input hinput) _ hsource
  · intro hlinux p hp q hq'
    obtain ⟨i, hi⟩ := hfiles p hp
    obtain ⟨j, hj⟩ := hfiles q hq'
    rw [ht.sameFile_iff hlinux hi hj]
    constructor
    · rintro rfl
      exact ⟨i, hi, hj⟩
    · rintro ⟨a, ha, ha'⟩
      exact (hi.unique ha).trans (hj.unique ha').symm

/-- `/d/a.il`, `/d/e/c.il` and `/d/n`, and `/b.il`. -/
def scattered : World :=
  let d : Name := ⟨[100], .refl true⟩
  let e : Name := ⟨[101], .refl true⟩
  ⟨((((((Fs.blank []).mkdir [] d).mkdir [d] e).create [d] ⟨[97, 46, 105, 108], .refl true⟩).create [d, e]
    ⟨[99, 46, 105, 108], .refl true⟩).create [d] ⟨[110], .refl true⟩).create []
    ⟨[98, 46, 105, 108], .refl true⟩, 0, 0, []⟩

/-- `/d` and `/b.il`. -/
def scatteredInputs : List Path := [.absolute [⟨[100], .refl true⟩], .absolute [⟨[98, 46, 105, 108], .refl true⟩]]

theorem planDecryptionInputs_sound_complete_scattered :
    ∃ plans w', planDecryptionInputs (Env.calm .checksummed) scatteredInputs (some .root) scattered =
      (.ok plans, w') ∧ (plans.map (·.source)).Perm (scattered.fs.inputsFiles true scatteredInputs) ∧
      ∀ plan ∈ plans, ∃ input ∈ scatteredInputs, scattered.fs.Assigned (some .root) input plan := by
  have htree : scattered.fs.Tree :=
    (((((Fs.tree_blank.mkdir rfl (by decide +kernel) (by decide +kernel)).mkdir rfl (by decide +kernel)
      (by decide +kernel)).create rfl (by decide +kernel) (by decide +kernel)).create rfl (by decide +kernel)
      (by decide +kernel)).create rfl (by decide +kernel) (by decide +kernel)).create rfl (by decide +kernel)
      (by decide +kernel)
  have hin : ∀ input ∈ scatteredInputs, scattered.fs.Exists input := by decide +kernel
  have hsound := planDecryptionInputs_sound_complete (Env.calm_quiet .checksummed)
    (Env.calm_faultless .checksummed) htree hin (some .root)
  have hfiles : scattered.fs.inputsFiles true scatteredInputs =
      [.absolute [⟨[100], rfl⟩, ⟨[101], rfl⟩, ⟨[99, 46, 105, 108], rfl⟩],
        .absolute [⟨[100], rfl⟩, ⟨[97, 46, 105, 108], rfl⟩], .absolute [⟨[98, 46, 105, 108], rfl⟩]] := by
    decide +kernel
  have hext : ∀ input ∈ scatteredInputs, ∀ i, scattered.fs.IsFile input i → input.encrypted = true := by
    rw [scatteredInputs, List.forall_mem_cons, List.forall_mem_singleton]
    refine ⟨?_, fun _ _ => by decide⟩
    rintro i ⟨names, hr, hi⟩
    rw [show scattered.fs.resolve false (.absolute [⟨[100], rfl⟩]) = .ok [⟨[100], rfl⟩] by decide +kernel] at hr
    cases hr
    rw [show scattered.fs.node [⟨[100], rfl⟩] = some .dir by decide +kernel] at hi
    cases hi
  have hfile (l : List Name) (i : Nat) (h : scattered.fs.node l = some (.file i))
      (hr : scattered.fs.resolve false (.absolute l) = .ok l) : scattered.fs.IsFile (.absolute l) i := ⟨l, hr, h⟩
  have hother {p q : Path} {i j : Nat} (hp : scattered.fs.IsFile p i) (hq : scattered.fs.IsFile q j) (hij : i ≠ j) :
      ¬scattered.fs.SameFile (Env.calm .checksummed) p q := mt (htree.sameFile_iff rfl hp hq).1 hij
  have hdistinct : scattered.fs.Distinct (Env.calm .checksummed) (scattered.fs.inputsFiles true scatteredInputs) := by
    have ha := hfile [⟨[100], rfl⟩, ⟨[97, 46, 105, 108], rfl⟩] 0 (by decide +kernel) (by decide +kernel)
    have hb := hfile [⟨[98, 46, 105, 108], rfl⟩] 3 (by decide +kernel) (by decide +kernel)
    have hc := hfile [⟨[100], rfl⟩, ⟨[101], rfl⟩, ⟨[99, 46, 105, 108], rfl⟩] 1 (by decide +kernel) (by decide +kernel)
    rw [hfiles, Fs.Distinct, List.pairwise_cons, List.pairwise_pair, List.forall_mem_cons, List.forall_mem_singleton]
    exact ⟨⟨hother hc ha (by decide), hother hc hb (by decide)⟩, hother ha hb (by decide)⟩
  obtain ⟨plans, w', hrun⟩ := hsound.1.2 ⟨hext, hdistinct⟩
  obtain ⟨hperm, -, hassigned⟩ := hsound.2.1 plans w' hrun
  exact ⟨plans, w', hrun, hperm, fun plan hmem => (hassigned plan hmem).2⟩

end

end Ironlock
