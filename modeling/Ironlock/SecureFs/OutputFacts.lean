import Ironlock.Delivery
import Ironlock.SecureFs.AtomicOutput
import Ironlock.SecureFs.PathFacts

/-! What the steps of an atomic output do to the file system. -/

namespace Ironlock
open ByteOrder (Bytes)
open Effect
open Fs (Identity Metadata SysCall)

/-- The file system `base` with `f` at its places, and with `c` in the file
that its next inode now stands for. -/
structure Over (base : Fs) (c : Bytes) (f : Loc → Option Node) (fs : Fs) : Prop where
  keeps : base.Keeps fs
  nextInode : base.nextInode < fs.nextInode
  nodeAt : fs.nodeAt = f
  content : ∀ i, fs.content i = if i = base.nextInode then c else base.content i

namespace Over

variable {base fs : Fs} {c : Bytes} {f : Loc → Option Node} {d : List Name} {n : Name} {i : Nat}

theorem entryLoc (h : Over base c f fs) (d : List Name) (n : Name) :
    fs.entryLoc d n = base.entryLoc d n := h.keeps.loc _

theorem create (hnone : base.nodeAt (base.entryLoc d n) = none) :
    Over base [] (Function.update base.nodeAt (base.entryLoc d n) (some (.file base.nextInode)))
      (base.create (base.loc d) n) where
  keeps := Fs.create_keeps (by rwa [← Fs.entryLoc_eq])
  nextInode := Nat.lt_succ_self _
  nodeAt := by rw [Fs.create_nodeAt, ← Fs.entryLoc_eq]
  content i := by simp [Fs.create, Fs.allocateInode]

theorem append (h : Over base c f fs) (b : Bytes) :
    Over base (c ++ b) f (fs.append base.nextInode b) where
  keeps := h.keeps.trans (Fs.setContent_keeps _ _)
  nextInode := h.nextInode
  nodeAt := h.nodeAt
  content j := by
    have := h.content j
    simp only [Fs.append, Fs.setContent]
    split
    · rename_i heq; subst heq; simpa using this
    · rename_i hne; simpa [hne] using this

theorem move {d' : List Name} {n' : Name} (h : Over base c f fs)
    (hsrc : f (base.entryLoc d n) = some (.file i)) (hdst : f (base.entryLoc d' n') = none) :
    Over base c (Function.update (Function.update f (base.entryLoc d' n') (some (.file i)))
      (base.entryLoc d n) none) (fs.move (fs.entryLoc d n) (fs.loc d') n') where
  keeps := h.keeps.trans <| Fs.move_keeps (Fs.entryLoc_ne_nil _ _ _)
    (by rw [h.nodeAt, h.entryLoc]; exact hsrc)
    (by rw [h.nodeAt, ← Fs.entryLoc_eq, h.entryLoc]; exact hdst)
  nextInode := by rw [Fs.move_nextInode]; exact h.nextInode
  nodeAt := by
    rw [Fs.move_nodeAt (Fs.entryLoc_ne_nil _ _ _) (by rw [h.nodeAt, h.entryLoc]; exact hsrc),
      ← Fs.entryLoc_eq, h.entryLoc, h.entryLoc, h.nodeAt]
  content := by rw [Fs.move_content]; exact h.content

theorem erase (h : Over base c f fs) (hf : f (base.entryLoc d n) = some (.file i)) :
    Over base c (Function.update f (base.entryLoc d n) none) (fs.erase (fs.entryLoc d n)) where
  keeps := h.keeps.trans <| Fs.erase_keeps (Fs.entryLoc_ne_nil _ _ _)
    (by rw [h.nodeAt, h.entryLoc]; exact hf)
  nextInode := h.nextInode
  nodeAt := by rw [Fs.erase_nodeAt (Fs.entryLoc_ne_nil _ _ _), h.nodeAt, h.entryLoc]
  content := h.content

theorem congr {g : Loc → Option Node} (h : Over base c f fs) (hg : f = g) : Over base c g fs :=
  hg ▸ h

end Over

/-! ## Temporary names -/

theorem tempName_nul (a b : UInt64) : (tempName a b).bytes.contains 0 = false := by
  rw [Bool.eq_false_iff]
  intro h
  exact (tempFormat_plain (List.elem_iff.1 h)).2 rfl

section
variable {env : Env} {Φ : Assertion} {parent : Path} {d d' : List Name}

theorem randomTempPath_runs (Χ : IronlockError → Assertion) (env : Env) (parent : Path) :
    Runs Φ (randomTempPath env parent)
      (fun p steps fs => (∃ a b, p = parent.push (.name (tempName a b))) ∧ Φ steps fs) Χ :=
  .bind (Ψ := fun _ => Φ) (.draw fun _ _ _ => id) fun a =>
    .bind (Ψ := fun _ => Φ) (.draw fun _ _ _ => id) fun b =>
      .pure fun _ _ hΦ => ⟨⟨a, b, joinRaw_tempFormat ..⟩, hΦ⟩

theorem createPrivateTempIn_runs {Ψ : Path × Nat → Assertion} (hs : env.Stable Φ)
    (hplain : ∀ steps fs, Φ steps fs → fs.Plain parent d)
    (hfail : ∀ steps fs p fault, Φ steps fs → Φ (steps ++ [⟨.createNew p, fault, fs, fs⟩]) fs)
    (hcreate : ∀ steps fs a b, Φ steps fs → fs.nodeAt (fs.entryLoc d (tempName a b)) = none →
      Ψ (parent.push (.name (tempName a b)), fs.nextInode)
        (steps ++ [⟨.createNew (parent.push (.name (tempName a b))), none, fs,
          fs.create (fs.loc d) (tempName a b)⟩]) (fs.create (fs.loc d) (tempName a b)))
    (tries : Nat) : Runs Φ (createPrivateTempIn env parent tries) Ψ fun _ => Φ := by
  induction tries with
  | zero => exact .fail fun _ _ => id
  | succ tries ih =>
    refine .bind (randomTempPath_runs _ env parent) fun p => .assuming ?_
    rintro ⟨a, b, rfl⟩
    refine .bind (Ψ := fun r => match r with
      | .ok file => Ψ (parent.push (.name (tempName a b)), file)
      | .error _ => Φ) (.attempt (.run hs (fun _ _ _ hΦ _ => hfail _ _ _ _ hΦ) ?_)) ?_
    · intro steps fs hΦ
      have hat := (hplain _ _ hΦ).at_push (tempName_nul a b)
      rcases hx : fs.nodeAt (fs.entryLoc d (tempName a b)) with _ | x
      · rw [Fs.createNew, hat.reaches.make hx]
        exact hcreate _ _ _ _ hΦ hx
      · rw [Fs.createNew, hat.reaches.make_error hx]
        exact hfail _ _ _ _ hΦ
    · rintro (e | file)
      · cases e with
        | ioError e => exact .ite (fun _ => ih) fun _ => .fail fun _ _ => id
        | _ => exact .fail fun _ _ => id
      · exact .pure fun _ _ => id

/-- The same where the directory is not known beforehand. -/
theorem createPrivateTempIn_cases {Ψ : Path × Nat → Assertion} (hs : env.Stable Φ)
    (hfail : ∀ steps fs p fault, Φ steps fs → Φ (steps ++ [⟨.createNew p, fault, fs, fs⟩]) fs)
    (hcreate : ∀ steps fs a b d n, Φ steps fs →
      fs.resolve false (parent.push (.name (tempName a b))) = .ok (d ++ [n]) →
      fs.nodeAt (fs.entryLoc d n) = none →
      Ψ (parent.push (.name (tempName a b)), fs.nextInode)
        (steps ++ [⟨.createNew (parent.push (.name (tempName a b))), none, fs,
          fs.create (fs.loc d) n⟩]) (fs.create (fs.loc d) n))
    (tries : Nat) : Runs Φ (createPrivateTempIn env parent tries) Ψ fun _ => Φ := by
  induction tries with
  | zero => exact .fail fun _ _ => id
  | succ tries ih =>
    refine .bind (randomTempPath_runs _ env parent) fun p => .assuming ?_
    rintro ⟨a, b, rfl⟩
    refine .bind (Ψ := fun r => match r with
      | .ok file => Ψ (parent.push (.name (tempName a b)), file)
      | .error _ => Φ) (.attempt (.run hs (fun _ _ _ hΦ _ => hfail _ _ _ _ hΦ) ?_)) ?_
    · intro steps fs hΦ
      rcases Fs.make_cases (parent.push (.name (tempName a b)))
        (fun fs d n => (fs.nextInode, fs.create d n)) fs with ⟨e, he⟩ | ⟨d, n, hr, hnone, he⟩ <;>
        rw [Fs.createNew, he]
      · exact hfail _ _ _ _ hΦ
      · exact hcreate _ _ _ _ _ _ hΦ hr hnone
    · rintro (e | file)
      · cases e with
        | ioError e => exact .ite (fun _ => ih) fun _ => .fail fun _ _ => id
        | _ => exact .fail fun _ _ => id
      · exact .pure fun _ _ => id

/-! ## Renames -/

theorem unixPath_runs {p : Path} (Χ : IronlockError → Assertion) (hp : p.hasNul = false) :
    Runs Φ (unixPath p) (fun _ => Φ) Χ := by
  rw [unixPath, if_neg (by simp [hp])]
  exact .pure fun _ _ => id

/-- A rename does nothing, or it moves what is there to a name that is free. -/
theorem installTemp_cases {Ψ Χ : Assertion} {src dst : Path} (hs : env.Stable Φ)
    (hfail : ∀ steps fs, Φ steps fs → Χ steps fs)
    (hstay : ∀ steps fs fault, Φ steps fs → Χ (steps ++ [⟨.rename src dst, fault, fs, fs⟩]) fs)
    (hmove : ∀ steps fs s d n x, Φ steps fs → fs.resolve false src = .ok s → fs.node s = some x →
      x ≠ .dir → fs.resolve false dst = .ok (d ++ [n]) → fs.nodeAt (fs.entryLoc d n) = none →
      Ψ (steps ++ [⟨.rename src dst, none, fs, fs.move (fs.loc s) (fs.loc d) n⟩])
        (fs.move (fs.loc s) (fs.loc d) n)) :
    Runs Φ (installTemp env src dst) (fun _ => Ψ) fun _ => Χ := by
  have hunix (p : Path) : Runs Φ (unixPath p) (fun _ => Φ) fun _ => Χ :=
    .ite (fun _ => .fail hfail) fun _ => .pure fun _ _ => id
  refine .bind (hunix _) fun _ => .bind (hunix _) fun _ => .run hs
    (fun _ _ _ hΦ _ => hstay _ _ _ hΦ) fun steps fs hΦ => ?_
  rcases Fs.renameNoreplace_cases src dst fs with ⟨e, he⟩ | ⟨s, d, n, x, hsrc, hx, hdir, hdst, hnone, he⟩ <;>
    rw [he]
  · exact hstay _ _ _ hΦ
  · exact hmove _ _ _ _ _ _ hΦ hsrc hx hdir hdst hnone

/-- A rename of a file to a name: it happens when the file is there and the
name is free. -/
theorem installTemp_runs {Ψ Χ : Assertion} {src dst : Path} {n n' : Name} {i : Nat}
    (hs : env.Stable Φ) (hsrc : ∀ steps fs, Φ steps fs → fs.Reaches src d n)
    (hfile : ∀ steps fs, Φ steps fs → fs.nodeAt (fs.entryLoc d n) = none ∨
      fs.nodeAt (fs.entryLoc d n) = some (.file i))
    (hdst : ∀ steps fs, Φ steps fs → fs.Reaches dst d' n')
    (hfault : ∀ steps fs e, Φ steps fs → env.Fails e →
      Χ (steps ++ [⟨.rename src dst, some e, fs, fs⟩]) fs)
    (hrefuse : ∀ steps fs, Φ steps fs →
      (fs.nodeAt (fs.entryLoc d n) = none ∨ ∃ x, fs.nodeAt (fs.entryLoc d' n') = some x) →
      Χ (steps ++ [⟨.rename src dst, none, fs, fs⟩]) fs)
    (hmove : ∀ steps fs, Φ steps fs → fs.nodeAt (fs.entryLoc d n) = some (.file i) →
      fs.nodeAt (fs.entryLoc d' n') = none →
      Ψ (steps ++ [⟨.rename src dst, none, fs, fs.move (fs.entryLoc d n) (fs.loc d') n'⟩])
        (fs.move (fs.entryLoc d n) (fs.loc d') n')) :
    Runs Φ (installTemp env src dst) (fun _ => Ψ) fun _ => Χ := by
  refine .of_pre (fun steps fs hΦ => (hsrc steps fs hΦ).nul) fun hnul =>
    .of_pre (fun steps fs hΦ => (hdst steps fs hΦ).nul) fun hnul' => ?_
  refine .bind (unixPath_runs _ hnul) fun _ => .bind (unixPath_runs _ hnul') fun _ =>
    .run hs hfault ?_
  · intro steps fs hΦ
    rcases hfile _ _ hΦ with hnone | hf
    · rw [(hsrc _ _ hΦ).renameNoreplace_none (hdst _ _ hΦ) hnone]
      exact hrefuse _ _ hΦ (.inl hnone)
    rcases hx : fs.nodeAt (fs.entryLoc d' n') with _ | x
    · rw [(hsrc _ _ hΦ).renameNoreplace (hdst _ _ hΦ) hf hx]
      exact hmove _ _ hΦ hf hx
    · rw [(hsrc _ _ hΦ).renameNoreplace_exists (hdst _ _ hΦ) hf hx]
      exact hrefuse _ _ hΦ (.inr ⟨x, hx⟩)

/-- The quarantine of a file: it gets a name that was free, beside its own. -/
theorem quarantine_runs {Ψ : QuarantinedFile → Assertion} {original : Path} {n : Name} {i : Nat}
    (hs : env.Stable Φ) (hplaced : ∀ steps fs, Φ steps fs → fs.Placed original d n)
    (hfile : ∀ steps fs, Φ steps fs → fs.nodeAt (fs.entryLoc d n) = none ∨
      fs.nodeAt (fs.entryLoc d n) = some (.file i))
    (hfail : ∀ steps fs dst fault, Φ steps fs → Φ (steps ++ [⟨.rename original dst, fault, fs, fs⟩]) fs)
    (hmove : ∀ steps fs a b, Φ steps fs → fs.nodeAt (fs.entryLoc d n) = some (.file i) →
      fs.nodeAt (fs.entryLoc d (tempName a b)) = none →
      Ψ ⟨original, original.parentOrHere.push (.name (tempName a b))⟩
        (steps ++ [⟨.rename original (original.parentOrHere.push (.name (tempName a b))), none, fs,
          fs.move (fs.entryLoc d n) (fs.loc d) (tempName a b)⟩])
        (fs.move (fs.entryLoc d n) (fs.loc d) (tempName a b))) :
    Runs Φ (QuarantinedFile.new env original) Ψ fun _ => Φ := by
  suffices h : ∀ tries, Runs Φ (QuarantinedFile.newIn env original tries) Ψ fun _ => Φ from h 128
  intro tries
  induction tries with
  | zero => exact .fail fun _ _ => id
  | succ tries ih =>
    refine .bind (randomTempPath_runs _ env _) fun p => .assuming ?_
    rintro ⟨a, b, rfl⟩
    refine .bind (Ψ := fun r => match r with
      | .ok () => Ψ ⟨original, original.parentOrHere.push (.name (tempName a b))⟩
      | .error _ => Φ) (.attempt ?_) ?_
    · exact installTemp_runs hs (fun _ _ hΦ => (hplaced _ _ hΦ).reaches) hfile
        (fun _ _ hΦ => (hplaced _ _ hΦ).beside _ (tempName_nul a b))
        (fun _ _ _ hΦ _ => hfail _ _ _ _ hΦ) (fun _ _ hΦ _ => hfail _ _ _ _ hΦ)
        fun _ _ hΦ hf hnone => hmove _ _ a b hΦ hf hnone
    · rintro (e | _)
      · cases e with
        | ioError e => exact .ite (fun _ => ih) fun _ => .fail fun _ _ => id
        | _ => exact .fail fun _ _ => id
      · exact .pure fun _ _ => id

/-- A quarantine moves what is there to a name that is free, or does nothing. -/
theorem quarantine_cases {Ψ : QuarantinedFile → Assertion} {original : Path} (hs : env.Stable Φ)
    (hstay : ∀ steps fs dst fault, Φ steps fs → Φ (steps ++ [⟨.rename original dst, fault, fs, fs⟩]) fs)
    (hmove : ∀ steps fs a b s d n x, Φ steps fs → fs.resolve false original = .ok s →
      fs.node s = some x → x ≠ .dir →
      fs.resolve false (original.parentOrHere.push (.name (tempName a b))) = .ok (d ++ [n]) →
      fs.nodeAt (fs.entryLoc d n) = none →
      Ψ ⟨original, original.parentOrHere.push (.name (tempName a b))⟩
        (steps ++ [⟨.rename original (original.parentOrHere.push (.name (tempName a b))), none, fs,
          fs.move (fs.loc s) (fs.loc d) n⟩]) (fs.move (fs.loc s) (fs.loc d) n)) :
    Runs Φ (QuarantinedFile.new env original) Ψ fun _ => Φ := by
  suffices h : ∀ tries, Runs Φ (QuarantinedFile.newIn env original tries) Ψ fun _ => Φ from h 128
  intro tries
  induction tries with
  | zero => exact .fail fun _ _ => id
  | succ tries ih =>
    refine .bind (randomTempPath_runs _ env _) fun p => .assuming ?_
    rintro ⟨a, b, rfl⟩
    refine .bind (Ψ := fun r => match r with
      | .ok () => Ψ ⟨original, original.parentOrHere.push (.name (tempName a b))⟩
      | .error _ => Φ) (.attempt (installTemp_cases hs (fun _ _ => id)
        (fun _ _ _ hΦ => hstay _ _ _ _ hΦ) fun _ _ _ _ _ _ hΦ => hmove _ _ a b _ _ _ _ hΦ)) ?_
    rintro (e | _)
    · cases e with
      | ioError e => exact .ite (fun _ => ih) fun _ => .fail fun _ _ => id
      | _ => exact .fail fun _ _ => id
    · exact .pure fun _ _ => id

/-- A removal takes what is there away, or does nothing. -/
theorem removeFile_cases {Ψ : Except IoError Unit → Assertion} {Χ : IronlockError → Assertion}
    {p : Path} (hs : env.Stable Φ)
    (hstay : ∀ steps fs e fault, Φ steps fs →
      Ψ (.error e) (steps ++ [⟨.removeFile p, fault, fs, fs⟩]) fs)
    (herase : ∀ steps fs names x, Φ steps fs → fs.resolve false p = .ok names →
      fs.node names = some x → x ≠ .dir →
      Ψ (.ok ()) (steps ++ [⟨.removeFile p, none, fs, fs.erase (fs.loc names)⟩])
        (fs.erase (fs.loc names))) :
    Runs Φ (Sys.try_ env (.removeFile p) (Fs.removeFile p)) Ψ Χ := by
  refine .try_ hs (fun _ _ e hΦ _ => hstay _ _ e _ hΦ) fun steps fs hΦ => ?_
  rcases Fs.removeFile_cases p fs with ⟨e, he⟩ | ⟨names, x, hr, hx, hdir, he⟩ <;> rw [he]
  · exact hstay _ _ _ _ hΦ
  · exact herase _ _ _ _ hΦ hr hx hdir

/-- The removal of a name: it happens when the name is there. -/
theorem removeFile_runs {Ψ : Except IoError Unit → Assertion} {Χ : IronlockError → Assertion}
    {p : Path} {n : Name} (hs : env.Stable Φ) (hat : ∀ steps fs, Φ steps fs → fs.Reaches p d n)
    (hfile : ∀ steps fs, Φ steps fs → fs.nodeAt (fs.entryLoc d n) = none ∨
      ∃ i, fs.nodeAt (fs.entryLoc d n) = some (.file i))
    (hfault : ∀ steps fs e, Φ steps fs → env.Fails e →
      Ψ (.error e) (steps ++ [⟨.removeFile p, some e, fs, fs⟩]) fs)
    (hnone : ∀ steps fs, Φ steps fs → fs.nodeAt (fs.entryLoc d n) = none →
      Ψ (.error (.os .notFound)) (steps ++ [⟨.removeFile p, none, fs, fs⟩]) fs)
    (herase : ∀ steps fs i, Φ steps fs → fs.nodeAt (fs.entryLoc d n) = some (.file i) →
      Ψ (.ok ()) (steps ++ [⟨.removeFile p, none, fs, fs.erase (fs.entryLoc d n)⟩])
        (fs.erase (fs.entryLoc d n))) :
    Runs Φ (Sys.try_ env (.removeFile p) (Fs.removeFile p)) Ψ Χ := by
  refine .try_ hs hfault fun steps fs hΦ => ?_
  rcases hfile _ _ hΦ with hx | ⟨i, hx⟩
  · rw [(hat _ _ hΦ).removeFile_none hx]
    exact hnone _ _ hΦ hx
  · rw [(hat _ _ hΦ).removeFile hx]
    exact herase _ _ i hΦ hx

end

end Ironlock
