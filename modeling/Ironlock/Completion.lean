import Ironlock.DecryptionPlan
import Ironlock.EncryptionEffects

/-! What the program does when nothing fails: its operations return. -/

namespace Ironlock
open ByteOrder (Bytes)
open Effect
open Fs (Identity Metadata SysCall)

/-- No call fails and no other process acts; open files deliver what they hold
and accept what is written to them, in whatever portions. -/
structure Env.Reliable (env : Env) : Prop where
  quiet : env.Quiet
  faultless : env.Faultless
  delivering : ∀ n e, .error e ∈ env.cuts n → e.kind = .interrupted
  accepting : env.Accepting

theorem Env.calm_reliable (C : Crates) : (Env.calm C).Reliable :=
  ⟨Env.calm_quiet C, Env.calm_faultless C, by simp [Env.calm], by simp [Env.Accepting, Writer.Accepting, Env.calm]⟩

/-- In the file system `fs` the program returns, into `Q`. -/
def Completes {α : Type} (fs : Fs) (m : FsM α) (Q : α → Fs → Prop) : Prop :=
  Returns (fun w => w.fs = fs) m fun a w => Q a w.fs

namespace Completes

variable {α β : Type} {env : Env} {fs fs' : Fs} {m : FsM α} {f : α → FsM β} {Q Q' : α → Fs → Prop}
  {R : β → Fs → Prop} {a : α}

theorem run (h : Completes fs m Q) {w : World} (hw : w.fs = fs) : ∃ a w', m w = (.ok a, w') ∧ Q a w'.fs :=
  Returns.run h hw

theorem pure (h : Q a fs) : Completes fs (Pure.pure a) Q := by
  rintro w rfl
  exact h

theorem bind (hm : Completes fs m Q) (hf : ∀ a fs', Q a fs' → Completes fs' (f a) R) :
    Completes fs (m >>= f) R :=
  Triple.bind hm fun a w hw => hf a w.fs hw w rfl

theorem mono (h : Completes fs m Q) (hQ : ∀ a fs', Q a fs' → Q' a fs') : Completes fs m Q' :=
  Triple.post h fun a w => hQ a w.fs

theorem ofExcept {r : Except IronlockError α} (hr : r = .ok a) (h : Q a fs) : Completes fs (Eff.ofExcept r) Q := by
  subst hr
  exact pure h

theorem ite_pos {c : Prop} [Decidable c] {n : FsM α} (hc : c) (h : Completes fs m Q) :
    Completes fs (if c then m else n) Q := by rwa [if_pos hc]

theorem ite_neg {c : Prop} [Decidable c] {n : FsM α} (hc : ¬c) (h : Completes fs n Q) :
    Completes fs (if c then m else n) Q := by rwa [if_neg hc]

theorem onError (h : Completes fs m Q) (c : FsM Unit) : Completes fs (Eff.onError m c) Q := Returns.onError h c

theorem mapError (h : Completes fs m Q) (g : IronlockError → IronlockError) :
    Completes fs (Eff.mapError g m) Q := Returns.mapError h g

theorem attempt (h : Completes fs m Q) :
    Completes fs (Eff.attempt m) fun r fs' => ∃ a, r = .ok a ∧ Q a fs' := Returns.attempt h

/-- What only looks and has an answer. -/
theorem of_answers (h : ∀ k, Answers fs k m (.ok a) k) : Completes fs m fun b fs' => b = a ∧ fs' = fs := by
  apply Returns.of_run
  rintro w rfl
  obtain ⟨w', hrun, hw'⟩ := (h w.draws).run (s := w) rfl
  exact ⟨a, w', hrun, rfl, congrArg Prod.fst hw'⟩

theorem after (hm : ∀ k, Answers fs k m (.ok a) k) (hf : Completes fs (f a) R) : Completes fs (m >>= f) R := by
  refine bind (of_answers hm) ?_
  rintro b fs' ⟨rfl, rfl⟩
  exact hf

theorem draw {f : Nat → α} (h : ∀ k, Q (f k) fs) : Completes fs (Sys.draw f) Q := by
  rintro w rfl
  exact h w.draws

theorem perform (hr : env.Reliable) {call : Call} {op : SysCall α} {r : Except IoError α} {Q : Except IoError α → Fs → Prop}
    (hop : op fs = (r, fs')) (h : Q r fs') : Completes fs (Sys.perform env call none op) Q := by
  rintro w rfl
  simp only [Sys.perform, Sys.outcome, hr.quiet w.calls w.fs, hop]
  exact h

theorem try_ (hr : env.Reliable) {call : Call} {op : SysCall α} {r : Except IoError α} {Q : Except IoError α → Fs → Prop}
    (hop : op fs = (r, fs')) (h : Q r fs') : Completes fs (Sys.try_ env call op) Q := by
  rintro w rfl
  simp only [Sys.try_, Sys.perform, Sys.outcome, hr.faultless w.calls, hr.quiet w.calls w.fs, hop]
  exact h

theorem call (hr : env.Reliable) {call : Call} {op : SysCall α} (hop : op fs = (.ok a, fs')) (h : Q a fs') :
    Completes fs (Sys.run env call op) Q := by
  refine bind (try_ hr hop (Q := fun r fs₁ => r = .ok a ∧ fs₁ = fs') ⟨rfl, rfl⟩) ?_
  rintro r fs₁ ⟨rfl, rfl⟩
  exact pure h

end Completes

/-! ## Open files -/

theorem mem_cutReader {cuts : List Cut} {b : Bytes} {e : IoError} (h : .error e ∈ cutReader cuts b) :
    .error e ∈ cuts := by
  induction cuts generalizing b with
  | nil =>
    unfold cutReader at h
    split at h <;> simp at h
  | cons cut cuts ih =>
    cases cut with
    | error e' =>
      rcases List.mem_cons.1 h with heq | h
      · cases heq
        exact List.mem_cons_self
      · exact List.mem_cons_of_mem _ (ih h)
    | take more =>
      unfold cutReader at h
      split at h
      · exact List.mem_cons_of_mem _ (ih h)
      · rcases List.mem_cons.1 h with heq | h
        · cases heq
        · exact List.mem_cons_of_mem _ (ih h)

theorem Env.Reliable.reader {env : Env} (hr : env.Reliable) (n : Nat) (b : Bytes) :
    (cutReader (env.cuts n) b).Delivers b := by
  have hcarries := cutReader_carries (env.cuts n) b
  refine ⟨?_, hcarries.bytes⟩
  intro ev hev
  cases ev with
  | data bytes =>
    rintro rfl
    exact hcarries.full _ hev rfl
  | error e => exact hr.delivering n e (mem_cutReader hev)

section
variable {env : Env} {fs base : Fs} {o : AtomicOutput} {d : List Name} {a b : UInt64} {c : Bytes} {i : Nat}

theorem reader_completes (hr : env.Reliable) (i : Nat) :
    Completes fs (Sys.reader env i) fun r fs' => r.Delivers (fs.content i) ∧ fs' = fs := by
  rintro w rfl
  exact ⟨hr.reader w.calls _, rfl⟩

namespace AtomicOutput

theorem Ready.appendAll_completes (h : o.Ready base d a b) (hr : env.Reliable) (hw : o.Written base d a b c fs)
    (portions : List Bytes) : Completes fs (Sys.appendAll env o.file portions) fun _ fs' =>
      o.Written base d a b (c ++ portions.flatten) fs' := by
  induction portions generalizing c fs with
  | nil => exact .pure (by simpa using hw)
  | cons portion portions ih =>
    refine .bind (.perform (Q := fun _ fs' => o.Written base d a b (c ++ portion) fs') hr rfl
      (h.append hw portion)) ?_
    intro _ fs' hw'
    rw [List.flatten_cons, ← List.append_assoc]
    exact ih hw'

/-- A streaming program that returns has put what it wrote into the open file. -/
theorem Ready.stream_completes (h : o.Ready base d a b) (hr : env.Reliable) (hw : o.Written base d a b [] fs)
    {α : Type} {r : Reader} {m : StreamM α} {P : Bytes → Prop}
    (hm : ∀ accepts, Writer.Accepting ⟨accepts, []⟩ →
      ∃ x s, m ⟨r, ⟨accepts, []⟩, []⟩ = (.ok x, s) ∧ P s.writer.written) :
    Completes fs (Sys.stream env r o.file m) fun _ fs' => ∃ c, P c ∧ o.Written base d a b c fs' := by
  rintro w rfl
  obtain ⟨x, s, hrun, hP⟩ := hm _ (hr.accepting w.calls)
  have happend : Completes w.fs (do
      Sys.appendAll env o.file s.writer.portions
      Eff.ofExcept (.ok x)) fun _ fs' => ∃ c, P c ∧ o.Written base d a b c fs' := by
    refine .bind (h.appendAll_completes hr hw s.writer.portions) ?_
    intro _ fs' hw'
    exact .ofExcept rfl ⟨_, hP, hw'⟩
  simp only [Sys.stream, hrun]
  exact happend w rfl

end AtomicOutput

end

/-! ## Checks -/

section
variable {env : Env} {fs fs' : Fs} {k : Nat} {p q : Path} {d d' : List Name} {m n : Name} {i : Nat}

theorem symlinkMetadata_absent (hr : env.Reliable) (h : fs.Reaches p d n)
    (hnone : fs.nodeAt (fs.entryLoc d n) = none) :
    Answers fs k (Sys.symlinkMetadata env p) (.ok (.error (.os .notFound))) k :=
  try_answers hr.quiet hr.faultless (by rw [h.symlinkMetadata, hnone])

theorem symlinkMetadata_file (hr : env.Reliable) (h : fs.Reaches p d n)
    (hfile : fs.nodeAt (fs.entryLoc d n) = some (.file i)) :
    Answers fs k (Sys.symlinkMetadata env p) (.ok (.ok ⟨.file i, (fs.content i).length⟩)) k :=
  try_answers hr.quiet hr.faultless (by rw [h.symlinkMetadata, hfile]; rfl)

theorem handleFromPath_file (hr : env.Reliable) (h : fs.Reaches p d n)
    (hfile : fs.nodeAt (fs.entryLoc d n) = some (.file i)) :
    Answers fs k (Sys.handleFromPath env p) (.ok (.file i)) k :=
  handleFromPath_answers hr.quiet hr.faultless (h.openRead hfile)

theorem idle_answers (hr : env.Reliable) (call : Call) : Answers fs k (Sys.run env call Sys.idle) (.ok ()) k :=
  run_answers hr.quiet hr.faultless rfl

theorem handleFromFile_answers (hr : env.Reliable) (i : Nat) :
    Answers fs k (Sys.handleFromFile env (.file i)) (.ok (.file i)) k :=
  .bind (run_answers hr.quiet hr.faultless rfl) (.pure _)

theorem pathMatchesOpenFile_answers (hr : env.Reliable) (h : fs.Reaches p d n)
    (hfile : fs.nodeAt (fs.entryLoc d n) = some (.file i)) :
    Answers fs k (pathMatchesOpenFile env p (.file i)) (.ok true) k := by
  refine .bind (handleFromPath_file hr h hfile) (.bind (idle_answers hr _) (.bind (handleFromFile_answers hr i) ?_))
  rw [decide_eq_true rfl]
  exact .pure _

/-- The regular file at a path is opened as the source it is. -/
theorem verifiedSourceFile_answers (hr : env.Reliable) (h : fs.Reaches p d n)
    (hfile : fs.nodeAt (fs.entryLoc d n) = some (.file i)) :
    Answers fs k (verifiedSourceFile env p) (.ok (i, ⟨.file i, (fs.content i).length⟩)) k := by
  have hopen : fs.openNofollow p = (.ok (.file i), fs) := by
    simp only [Fs.openNofollow, Fs.look, h.resolve (.inl rfl), Fs.node_concat, hfile, Fs.identity]
  have hvalid : Answers fs k (validateRegularSource env p) (.ok ⟨.file i, (fs.content i).length⟩) k :=
    .bind (symlinkMetadata_file hr h hfile) (.bind (rejectLink_answers rfl) (.ite_neg (by simp [Metadata.isFile])
      (.pure _)))
  refine .bind hvalid (.bind (run_answers hr.quiet hr.faultless hopen) (.bind (run_answers hr.quiet hr.faultless rfl)
    (.bind (rejectLink_answers rfl) (.bind (pathMatchesOpenFile_answers hr h hfile) ?_))))
  exact .ite_pos rfl (.pure _)

theorem shredHandle_answers (hr : env.Reliable) (i : Nat) (shred : Bool) :
    Answers fs k (shredHandle env i shred) (.ok (if shred then some (.file i) else none)) k := by
  cases shred with
  | false => exact .ite_neg (by simp) (.pure _)
  | true => exact .ite_pos rfl (.bind (idle_answers hr _) (.bind (handleFromFile_answers hr i) (.pure _)))

/-- A path to nothing is no other's, if its key is not. -/
theorem pathsReferToSameFile_absent (hr : env.Reliable) (ht : fs.Tree) (hp : fs.At p d m) (hq : fs.At q d' n)
    (hnone : fs.nodeAt (d' ++ [n]) = none) (hkeys : fs.keyOf env p ≠ fs.keyOf env q) :
    Answers fs k (pathsReferToSameFile env p q) (.ok false) k := by
  rw [← ht.entryLoc] at hnone
  exact .bind (ht.key_answers hr.quiet hr.faultless hp) (.bind (ht.key_answers hr.quiet hr.faultless hq)
    (.ite_neg hkeys (.bind (symlinkMetadata_absent hr hq.reaches hnone) (.ite_pos rfl (.pure _)))))

theorem requireDirectory_answers {l : Nat} : Answers fs k (requireDirectory p ⟨.dir, l⟩) (.ok ()) k :=
  .bind (rejectLink_answers rfl) (.ite_neg (by simp [Metadata.isDir]) (.pure _))

theorem ensureDirectory_answers (hr : env.Reliable) (h : fs.Plain p d) (hp : p ≠ .empty) :
    Answers fs k (ensureDirectory env p) (.ok ()) k := by
  have hlook := symlinkMetadata_answers (k := k) hr.quiet hr.faultless (h.resolve hp) h.dirPath.node
  exact .bind hlook requireDirectory_answers

theorem Fs.Plain.push_part {part : Part} (h : fs.Plain p d) (hplain : fs.PlainFrom d [part])
    (hnul : Path.hasNul ⟨.bare, [part], false⟩ = false) : fs.Plain (p.push part) (part.lead d) where
  start := h.start
  plain := by
    change fs.PlainFrom (fs.start p) (p.parts ++ [part])
    refine Fs.plainFrom_append.2 ⟨h.plain, ?_⟩
    rwa [h.names]
  names := by
    change lexicalFrom (fs.start p) (p.parts ++ [part]) = _
    rw [lexicalFrom_append, h.names]
    rfl
  nul := by
    have hleft := h.nul
    simp only [Path.hasNul, Path.push_parts, List.any_append, Bool.or_eq_false_iff] at hleft hnul ⊢
    exact ⟨hleft, hnul⟩

theorem ensureComponents_answers (hr : env.Reliable) (h : fs.Plain p d) {parts : List Part}
    (hplain : fs.PlainFrom d parts) (hnul : Path.hasNul ⟨.bare, parts, false⟩ = false) :
    Answers fs k (ensureComponents env p parts) (.ok ()) k ∧
      fs.Plain (parts.foldl Path.push p) (lexicalFrom d parts) := by
  induction parts generalizing p d with
  | nil => exact ⟨.pure _, h⟩
  | cons part parts ih =>
    simp only [Path.hasNul, List.any_cons, Bool.or_eq_false_iff] at hnul
    have hclean : Path.hasNul ⟨.bare, [part], false⟩ = false := by
      simp only [Path.hasNul, List.any_cons, List.any_nil, Bool.or_false]
      exact hnul.1
    have hpush := h.push_part (hplain.front (by simp)) hclean
    obtain ⟨hmore, hend⟩ := ih hpush (Fs.plainFrom_cons.1 hplain).2 hnul.2
    exact ⟨.bind (ensureDirectory_answers hr hpush (Path.push_ne_empty _ _)) hmore, hend⟩

/-- What a path is from the root. -/
theorem absolute_parts (fs : Fs) (hp : p ≠ .empty) :
    absolute fs.cwd p = .ok ((fs.start p).map .name ++ p.parts) := by
  unfold absolute Fs.start
  rw [if_neg hp]
  split <;> rfl

theorem start_nul (hnul : (Path.absolute fs.cwd).hasNul = false) (p : Path) :
    Path.hasNul ⟨.bare, (fs.start p).map .name, false⟩ = false := by
  unfold Fs.start
  split
  · rfl
  · exact hnul

theorem stdAbsolute_answers {a : List Part} (h : absolute fs.cwd p = .ok a) : Answers fs k (stdAbsolute p) (.ok a) k := by
  rintro w hw
  obtain ⟨rfl, rfl⟩ := Prod.mk.inj hw
  simp only [stdAbsolute, h, World.seen, and_self]

/-- A directory that is there is found to be safe. -/
theorem ensureSafeDirectory_answers (hr : env.Reliable) (hnul : (Path.absolute fs.cwd).hasNul = false)
    (h : fs.Plain p d) (hp : p ≠ .empty) : Answers fs k (ensureSafeDirectory env p) (.ok ()) k := by
  have hplain : fs.PlainFrom [] ((fs.start p).map .name ++ p.parts) := by
    refine Fs.plainFrom_append.2 ⟨Fs.plainFrom_names.2 h.start, ?_⟩
    rw [lexicalFrom_names, List.nil_append]
    exact h.plain
  have hclean : Path.hasNul ⟨.bare, (fs.start p).map .name ++ p.parts, false⟩ = false := by
    have hstart := start_nul hnul p
    simp only [Path.hasNul, List.any_append, Bool.or_eq_false_iff] at hstart ⊢
    exact ⟨hstart, h.nul⟩
  exact .bind (stdAbsolute_answers (absolute_parts fs hp)) (.bind (ensureDirectory_answers hr fs.plain_root (by decide))
    (ensureComponents_answers hr fs.plain_root hplain hclean).1)

theorem syncParent_answers (hr : env.Reliable) (h : fs.Plain p d) (hp : p ≠ .empty) :
    Answers fs k (syncParent env p) (.ok ()) k :=
  .bind (run_answers hr.quiet hr.faultless (h.openRead hp)) (idle_answers hr _)

/-! ## Atomic outputs -/

/-- No temporary name is taken in the directory. -/
def Fs.Roomy (fs : Fs) (d : List Name) : Prop := ∀ a b, fs.nodeAt (fs.entryLoc d (tempName a b)) = none

theorem randomTempPath_completes (env : Env) (parent : Path) :
    Completes fs (randomTempPath env parent) fun r fs' =>
      (∃ a b, r = parent.push (.name (tempName a b))) ∧ fs' = fs := by
  refine .bind (.draw (Q := fun _ fs' => fs' = fs) fun _ => rfl) ?_
  rintro a fs₁ rfl
  refine .bind (.draw (Q := fun _ fs' => fs' = fs₁) fun _ => rfl) ?_
  rintro b fs₂ rfl
  exact .pure ⟨⟨a, b, joinRaw_tempFormat ..⟩, rfl⟩

theorem createPrivateTemp_completes (hr : env.Reliable) (h : fs.Plain p d) (hroom : fs.Roomy d) :
    Completes fs (createPrivateTemp env p) fun r fs' => ∃ a b,
      r = (p.push (.name (tempName a b)), fs.nextInode) ∧ fs' = fs.create (fs.loc d) (tempName a b) := by
  change Completes fs (createPrivateTempIn env p (127 + 1)) _
  rw [createPrivateTempIn]
  refine .bind (randomTempPath_completes env p) ?_
  rintro _ fs' ⟨⟨a, b, rfl⟩, rfl⟩
  have hop : Fs.createNew (p.push (.name (tempName a b))) fs' =
      (.ok fs'.nextInode, fs'.create (fs'.loc d) (tempName a b)) :=
    (h.at_push (tempName_nul a b)).reaches.make (hroom a b)
  refine .bind (.attempt (.call (Q := fun i fs₁ => i = fs'.nextInode ∧ fs₁ = fs'.create (fs'.loc d) (tempName a b)) hr hop
    ⟨rfl, rfl⟩)) ?_
  rintro _ fs₁ ⟨i, rfl, rfl, rfl⟩
  exact .pure ⟨a, b, rfl, rfl⟩

theorem unixPath_answers (h : p.hasNul = false) : Answers fs k (unixPath p) (.ok ()) k :=
  .ite_neg (by simp [h]) (.pure _)

/-- A file is renamed to a name that is free. -/
theorem installTemp_completes (hr : env.Reliable) (hp : fs.Reaches p d m) (hq : fs.Reaches q d' n)
    (hfile : fs.nodeAt (fs.entryLoc d m) = some (.file i)) (hnone : fs.nodeAt (fs.entryLoc d' n) = none) :
    Completes fs (installTemp env p q) fun _ fs' => fs' = fs.move (fs.entryLoc d m) (fs.loc d') n :=
  .after (fun _ => unixPath_answers hp.nul) (.after (fun _ => unixPath_answers hq.nul)
    (.call hr (hp.renameNoreplace hq hfile hnone) rfl))

namespace AtomicOutput

variable {destination : Path} {force : Bool} {o : AtomicOutput} {base : Fs} {a b : UInt64} {c : Bytes}

/-- An output for a name that is free is opened. -/
theorem new_completes (hr : env.Reliable) (hnul : (Path.absolute fs.cwd).hasNul = false)
    (hat : fs.At destination d n) (hne : destination.parentOrHere ≠ .empty)
    (hnone : fs.nodeAt (fs.entryLoc d n) = none) (hroom : fs.Roomy d) (force : Bool) :
    Completes fs (AtomicOutput.new env destination force) fun o fs' => ∃ a b, o.Ready fs d a b ∧
      o.destination = destination ∧ o.observedDestination = none ∧
      fs' = fs.create (fs.loc d) (tempName a b) := by
  obtain ⟨q, hparent, -, hplain⟩ := hat.parent
  have hq : destination.parentOrHere = q := by rw [Path.parentOrHere, hparent, Option.getD_some]
  rw [← hq] at hplain
  refine .after (fun _ => ensureSafeDirectory_answers hr hnul hplain hne) (.after (a := none) (fun _ => ?_)
    (.after (a := ()) (fun _ => .pure _) (.bind (createPrivateTemp_completes hr hplain hroom) ?_)))
  · exact .bind (symlinkMetadata_absent hr hat.reaches hnone) (.ite_pos rfl (.pure _))
  · rintro _ fs' ⟨a, b, rfl, rfl⟩
    exact .pure ⟨a, b, ⟨hplain, hne, rfl, hroom a b, rfl, by simp⟩, rfl, rfl, rfl⟩

/-- What has been written is put at its destination while that is free. -/
theorem Ready.commit_completes (h : o.Ready base d a b) (hr : env.Reliable) (hat : base.At o.destination d n)
    (hobserved : o.observedDestination = none) (hw : o.Written base d a b c fs)
    (hnone : base.nodeAt (base.entryLoc d n) = none) (hlasting : tempName a b ≠ n) (hexact : base.Exact) :
    Completes fs (o.commit env) fun p fs' => p = o.destination ∧ o.Installed base d n c fs' := by
  have hfree : fs.nodeAt (fs.entryLoc d n) = none := by
    have hne : base.entryLoc d n ≠ base.entryLoc d (tempName a b) := by
      rw [Fs.entryLoc_eq, Fs.entryLoc_eq, hexact, hexact]
      intro heq
      exact hlasting (List.cons.inj (List.append_cancel_left heq)).1.symm
    rw [hw.entryLoc, hw.nodeAt, Fs.written, Function.update_of_ne hne, hnone]
  have hat' := hat.keep hw.keeps
  have hmove := h.written_install hw hfree
  have hpublish : Completes fs (o.publish env) fun q fs' => q = none ∧ o.Installed base d n c fs' := by
    refine .after (fun _ => idle_answers hr _) (.after (fun _ => idle_answers hr _) ?_)
    rw [hobserved]
    refine .bind (Q := fun _ fs' => o.Installed base d n c fs') ?_ fun _ fs' hinstalled => .pure ⟨rfl, hinstalled⟩
    refine .after (fun _ => symlinkMetadata_absent hr hat'.reaches hfree) ?_
    refine .ite_pos rfl (.bind (installTemp_completes hr (h.temp_at hw.keeps).reaches hat'.reaches
      (written_temp hw) hfree) ?_)
    rintro _ fs' rfl
    refine (Completes.of_answers fun _ => syncParent_answers hr (h.parent.keep hmove.keeps) h.parent_ne).mono ?_
    rintro _ fs' ⟨-, rfl⟩
    exact hmove
  refine .bind (.onError hpublish _) ?_
  rintro _ fs' ⟨rfl, hinstalled⟩
  exact .pure ⟨rfl, hinstalled⟩

/-- A body that returns has its bytes put at a destination that is free. -/
theorem writing_completes (hr : env.Reliable) (hnul : (Path.absolute fs.cwd).hasNul = false) (hexact : fs.Exact)
    (hat : fs.At destination d n)
    (hne : destination.parentOrHere ≠ .empty) (hnone : fs.nodeAt (fs.entryLoc d n) = none) (hroom : fs.Roomy d)
    (hlasting : ∀ a b, tempName a b ≠ n) {P : Bytes → Prop} {body : Nat → FsM Unit}
    (hbody : ∀ (o : AtomicOutput) a b fs', o.Ready fs d a b → o.Written fs d a b [] fs' →
      Completes fs' (body o.file) fun _ fs'' => ∃ c, P c ∧ o.Written fs d a b c fs'') (force : Bool) :
    Completes fs (writing env destination force body) fun p fs' => p = destination ∧
      ∃ c, P c ∧ Over fs c (fs.installed (fs.entryLoc d n) fs.nextInode) fs' := by
  refine .bind (new_completes hr hnul hat hne hnone hroom force) ?_
  rintro o _ ⟨a, b, hready, rfl, hobserved, rfl⟩
  refine .bind (.onError (hbody o a b _ hready hready.created) _) ?_
  rintro _ fs' ⟨c, hP, hw⟩
  refine (hready.commit_completes hr hat hobserved hw hnone (hlasting a b) hexact).mono ?_
  rintro p fs'' ⟨rfl, hinstalled⟩
  rw [Installed, hready.file] at hinstalled
  exact ⟨rfl, c, hP, hinstalled⟩

end AtomicOutput

end

/-! ## Shredding -/

theorem Fs.setContent_self (fs : Fs) (i : Nat) : fs.setContent i (fs.content i) = fs := by
  have hcontent : (fun j => if j = i then fs.content i else fs.content j) = fs.content := by
    funext j
    by_cases hj : j = i
    · rw [if_pos hj, hj]
    · rw [if_neg hj]
  unfold Fs.setContent
  rw [hcontent]

theorem Fs.setContent_setContent (fs : Fs) (i : Nat) (b c : Bytes) :
    (fs.setContent i b).setContent i c = fs.setContent i c := by
  have hcontent : (fun j => if j = i then c else (fs.setContent i b).content j) =
      fun j => if j = i then c else fs.content j := by
    funext j
    by_cases hj : j = i <;> simp [Fs.setContent, hj]
  unfold Fs.setContent at hcontent ⊢
  rw [hcontent]

/-- Nothing has changed but the bytes of one file. -/
def Fs.Rewritten (fs : Fs) (i : Nat) (fs' : Fs) : Prop := ∃ c, fs' = fs.setContent i c

section
variable {env : Env} {fs fs' fs'' : Fs} {p q : Path} {d : List Name} {m n : Name} {i : Nat}

namespace Fs.Rewritten

theorem refl (fs : Fs) (i : Nat) : fs.Rewritten i fs := ⟨fs.content i, (fs.setContent_self i).symm⟩

theorem trans (h : fs.Rewritten i fs') (h' : fs'.Rewritten i fs'') : fs.Rewritten i fs'' := by
  obtain ⟨b, rfl⟩ := h
  obtain ⟨c, rfl⟩ := h'
  exact ⟨c, fs.setContent_setContent i b c⟩

theorem keeps (h : fs.Rewritten i fs') : fs.Keeps fs' := by
  obtain ⟨c, rfl⟩ := h
  exact Fs.setContent_keeps i c

theorem nodeAt (h : fs.Rewritten i fs') : fs'.nodeAt = fs.nodeAt := by
  obtain ⟨c, rfl⟩ := h
  rfl

theorem content (h : fs.Rewritten i fs') {j : Nat} (hj : j ≠ i) : fs'.content j = fs.content j := by
  obtain ⟨c, rfl⟩ := h
  exact if_neg hj

end Fs.Rewritten

theorem overwriteAll_completes (hr : env.Reliable) (i offset : Nat) (bs : List Bytes) :
    Completes fs (Sys.overwriteAll env i offset bs) fun _ => fs.Rewritten i := by
  induction bs generalizing fs offset with
  | nil => exact .pure (.refl fs i)
  | cons b bs ih =>
    refine .bind (.perform (Q := fun _ => fs.Rewritten i) hr rfl ⟨_, rfl⟩) ?_
    intro _ fs₁ hfirst
    exact (ih _).mono fun _ _ => hfirst.trans

theorem writeAllAt_completes (hr : env.Reliable) (i offset : Nat) (buf : Bytes) :
    Completes fs (Sys.writeAllAt env i offset buf) fun _ => fs.Rewritten i := by
  rintro w rfl
  obtain ⟨writer, hwrite, -⟩ := Writer.writeAll_accepting buf (hr.accepting w.calls)
  have hall : Completes w.fs (do
      Sys.overwriteAll env i offset writer.portions
      Eff.ofExcept (.ok ())) fun _ => w.fs.Rewritten i :=
    .bind (overwriteAll_completes hr i offset writer.portions) fun _ _ h => .ofExcept rfl h
  simp only [Sys.writeAllAt, hwrite]
  exact hall w rfl

theorem overwriteRemaining_completes (hr : env.Reliable) (i offset remaining : Nat) :
    Completes fs (overwriteRemaining env i offset remaining) fun _ => fs.Rewritten i := by
  induction remaining using Nat.strong_induction_on generalizing fs offset with
  | _ remaining ih =>
    rw [overwriteRemaining]
    by_cases hzero : remaining = 0
    · exact .ite_pos hzero (.pure (.refl fs i))
    have hless : remaining - min remaining overwriteBufferSize < remaining := by
      simp only [overwriteBufferSize]
      omega
    refine .ite_neg hzero (.bind (.draw (Q := fun _ fs' => fs' = fs) fun _ => rfl) ?_)
    rintro noise fs₁ rfl
    refine .bind (.mapError (writeAllAt_completes hr i offset noise) _) ?_
    intro _ fs₂ hfirst
    exact (ih _ hless _).mono fun _ _ => hfirst.trans

theorem overwritePasses_completes (hr : env.Reliable) (i size passes : Nat) :
    Completes fs (overwritePasses env i size passes) fun _ => fs.Rewritten i := by
  induction passes generalizing fs with
  | zero => exact .pure (.refl fs i)
  | succ passes ih =>
    have hidle (call : Call) (fs : Fs) : Completes fs (Eff.mapError shredIoError (Sys.run env call Sys.idle)) fun _ fs' =>
        fs' = fs := (Completes.of_answers fun _ => idle_answers hr call).mono (fun _ _ h => h.2) |>.mapError _
    refine .bind (hidle _ fs) ?_
    rintro _ fs₁ rfl
    refine .bind (overwriteRemaining_completes hr i 0 size) ?_
    intro _ fs₂ hfirst
    refine .bind (hidle _ fs₂) ?_
    rintro _ fs₃ rfl
    refine .bind (hidle _ fs₃) ?_
    rintro _ fs₄ rfl
    exact ih.mono fun _ _ => hfirst.trans

/-- A file that has one link is overwritten. -/
theorem overwriteQuarantined_completes (hr : env.Reliable) (h : fs.Reaches p d n)
    (hfile : fs.nodeAt (fs.entryLoc d n) = some (.file i)) (hlinks : fs.links i = 1) :
    Completes fs (overwriteQuarantined env p (.file i)) fun _ => fs.Rewritten i := by
  have hanswer {α : Type} {m : FsM α} {a : α} (g : IronlockError → IronlockError) (hm : ∀ k, Answers fs k m (.ok a) k) :
      Completes fs (Eff.mapError g m) fun b fs' => b = a ∧ fs' = fs := (Completes.of_answers hm).mapError g
  refine .bind (.mapError (.call (Q := fun file fs' => file = .file i ∧ fs' = fs) hr (h.openWriteNofollow hfile) ⟨rfl, rfl⟩) _) ?_
  rintro _ fs₁ ⟨rfl, rfl⟩
  refine .bind (hanswer _ fun _ => run_answers hr.quiet hr.faultless rfl) ?_
  rintro _ fs₂ ⟨rfl, rfl⟩
  refine .bind (hanswer _ fun _ => idle_answers hr _) ?_
  rintro _ fs₃ ⟨-, rfl⟩
  refine .bind (hanswer _ fun _ => handleFromFile_answers hr i) ?_
  rintro _ fs₄ ⟨rfl, rfl⟩
  refine .ite_neg (by simp) (.bind (hanswer _ fun _ => run_answers hr.quiet hr.faultless rfl) ?_)
  rintro _ fs₅ ⟨rfl, rfl⟩
  refine .ite_neg (by simp [hlinks]) (.bind (overwritePasses_completes hr i _ 3) ?_)
  intro _ fs₆ hrewritten
  have h' := h.keep hrewritten.keeps
  have hfile' : fs₆.nodeAt (fs₆.entryLoc d n) = some (.file i) := by
    rw [hrewritten.nodeAt, hrewritten.keeps.entryLoc, hfile]
  refine .after (fun _ => symlinkMetadata_file hr h' hfile') ?_
  refine .bind (.mapError (Completes.of_answers fun _ => rejectLink_answers rfl) _) ?_
  rintro _ fs₇ ⟨-, rfl⟩
  refine .bind (.mapError (Completes.of_answers fun _ => pathMatchesOpenFile_answers hr h' hfile') _) ?_
  rintro _ fs₈ ⟨rfl, rfl⟩
  exact .ite_pos rfl (.pure hrewritten)

namespace QuarantinedFile

theorem new_completes (hr : env.Reliable) (hat : fs.At p d m) (hfile : fs.nodeAt (fs.entryLoc d m) = some (.file i))
    (hroom : fs.Roomy d) : Completes fs (QuarantinedFile.new env p) fun q fs' => ∃ a b,
      q = ⟨p, p.parentOrHere.push (.name (tempName a b))⟩ ∧
      fs' = fs.move (fs.entryLoc d m) (fs.loc d) (tempName a b) := by
  change Completes fs (newIn env p (127 + 1)) _
  rw [newIn]
  refine .bind (randomTempPath_completes env _) ?_
  rintro _ fs₁ ⟨⟨a, b, rfl⟩, rfl⟩
  have hbeside := hat.placed.beside (tempName a b) (tempName_nul a b)
  refine .bind (.attempt (installTemp_completes hr hat.reaches hbeside hfile (hroom a b))) ?_
  rintro _ fs₂ ⟨_, rfl, rfl⟩
  exact .pure ⟨a, b, rfl, rfl⟩

theorem remove_completes (hr : env.Reliable) {q : QuarantinedFile} (h : fs.Reaches q.quarantine d n)
    (hfile : fs.nodeAt (fs.entryLoc d n) = some (.file i)) (hparent : fs.Plain q.quarantine.parentOrHere d)
    (hne : q.quarantine.parentOrHere ≠ .empty) :
    Completes fs (q.remove env) fun _ fs' => fs' = fs.erase (fs.entryLoc d n) := by
  have hk : fs.Keeps (fs.erase (fs.entryLoc d n)) := Fs.erase_keeps (Fs.entryLoc_ne_nil _ _ _) hfile
  refine .onError (.bind (.call (Q := fun _ fs' => fs' = fs.erase (fs.entryLoc d n)) hr (h.removeFile hfile) rfl) ?_) _
  rintro _ fs₁ rfl
  exact (Completes.of_answers fun _ => syncParent_answers hr (hparent.keep hk) hne).mono fun _ _ h => h.2

end QuarantinedFile

/-- A file that has one link is shredded: it is gone, and no other is touched. -/
theorem secureDeleteInner_completes (hr : env.Reliable) (hat : fs.At p d m) (hne : p.parentOrHere ≠ .empty)
    (hfile : fs.nodeAt (fs.entryLoc d m) = some (.file i)) (hlinks : fs.links i = 1) (hroom : fs.Roomy d) :
    Completes fs (secureDeleteInner env p (some (.file i))) fun _ fs' => fs.Keeps fs' ∧
      fs'.nodeAt = Function.update fs.nodeAt (fs.entryLoc d m) none ∧ ∀ j, j ≠ i → fs'.content j = fs.content j := by
  refine .bind (.mapError (Completes.of_answers fun _ => verifiedSourceFile_answers hr hat.reaches hfile) _) ?_
  rintro _ fs₁ ⟨rfl, rfl⟩
  refine .bind (.mapError (Completes.of_answers fun _ => handleFromFile_answers hr i) _) ?_
  rintro _ fs₂ ⟨rfl, rfl⟩
  refine .ite_neg (by simp) (.bind (.mapError (QuarantinedFile.new_completes hr hat hfile hroom) _) ?_)
  rintro _ fs₃ ⟨a, b, rfl, rfl⟩
  obtain ⟨q, hparent, -, hplain⟩ := hat.parent
  have hq : p.parentOrHere = q := by rw [Path.parentOrHere, hparent, Option.getD_some]
  rw [← hq] at hplain
  -- the source is in quarantine
  have hnone : fs₂.nodeAt (fs₂.loc d ++ [fs₂.fold (fs₂.loc d) (tempName a b)]) = none := by
    rw [← Fs.entryLoc_eq]
    exact hroom a b
  have hl := Fs.file_ne_nil hfile
  have hapart : fs₂.entryLoc d m ≠ fs₂.entryLoc d (tempName a b) := by
    intro heq
    have hfree := hroom a b
    rw [← heq, hfile] at hfree
    cases hfree
  have hk : fs₂.Keeps (fs₂.move (fs₂.entryLoc d m) (fs₂.loc d) (tempName a b)) := Fs.move_keeps hl hfile hnone
  have hlinks₃ := (Fs.move_links hl hfile hnone i).trans hlinks
  have hnode₃ := Fs.move_nodeAt (d := fs₂.loc d) (n := tempName a b) hl hfile
  have hcontent₃ : (fs₂.move (fs₂.entryLoc d m) (fs₂.loc d) (tempName a b)).content = fs₂.content := Fs.move_content
  generalize fs₂.move (fs₂.entryLoc d m) (fs₂.loc d) (tempName a b) = fs₃ at *
  rw [← Fs.entryLoc_eq] at hnode₃
  have hat₃ := (hplain.keep hk).at_push (tempName_nul a b)
  have hfile₃ : fs₃.nodeAt (fs₃.entryLoc d (tempName a b)) = some (.file i) := by
    rw [hk.entryLoc, hnode₃, Function.update_of_ne hapart.symm, Function.update_self]
  refine .bind (.onError (overwriteQuarantined_completes hr hat₃.reaches hfile₃ hlinks₃) _) ?_
  intro _ fs₄ hrewritten
  have hfile₄ : fs₄.nodeAt (fs₄.entryLoc d (tempName a b)) = some (.file i) := by
    rw [hrewritten.nodeAt, hrewritten.keeps.entryLoc, hfile₃]
  have hbeside : (p.parentOrHere.push (.name (tempName a b))).parentOrHere = p.parentOrHere :=
    Path.push_parentOrHere _ _ (Path.parentOrHere_dirOnly p)
  have hk₄ := hk.trans hrewritten.keeps
  refine (Completes.mapError (QuarantinedFile.remove_completes hr (hat₃.reaches.keep hrewritten.keeps) hfile₄ ?_ ?_)
    _).mono ?_
  · rw [hbeside]
    exact hplain.keep hk₄
  · rwa [hbeside]
  · rintro _ fs₅ rfl
    have hne₄ := Fs.entryLoc_ne_nil fs₄ d (tempName a b)
    refine ⟨hk₄.trans (Fs.erase_keeps hne₄ hfile₄), ?_, ?_⟩
    · rw [Fs.erase_nodeAt hne₄, hrewritten.nodeAt, hnode₃, hk₄.entryLoc]
      funext l
      by_cases hlt : l = fs₂.entryLoc d (tempName a b)
      · subst hlt
        rw [Function.update_self, Function.update_of_ne hapart.symm, hroom a b]
      · rw [Function.update_of_ne hlt]
        by_cases hlm : l = fs₂.entryLoc d m
        · rw [hlm, Function.update_self, Function.update_self]
        · rw [Function.update_of_ne hlm, Function.update_of_ne hlt, Function.update_of_ne hlm]
    · intro j hj
      rw [Fs.erase_content, hrewritten.content hj, hcontent₃]

end

end Ironlock
