import Ironlock.SecureFs.OutputRuns

/-! Writing a file through an atomic output: whatever fails, all but the
destination is left alone, and a success leaves what was written there. -/

namespace Ironlock
open ByteOrder (Bytes)
open Effect

/-! ## Runs that leave things alone -/

/-- At each of its steps the run from `w` to `w'` spares all but `S` and `I`. -/
def World.Spares (w w' : World) (S : Set Loc) (I : Set Nat) : Prop :=
  w.fs.Spares w'.fs S I ∧
    ∃ steps, w'.steps = w.steps ++ steps ∧ ∀ s ∈ steps, w.fs.Spares s.after S I

namespace World.Spares

variable {w w' w'' : World} {S S' : Set Loc} {I I' : Set Nat}

theorem of_still (h : Still w w') : w.Spares w' S I := by
  obtain ⟨hfs, steps, hsteps, hall⟩ := h
  refine ⟨hfs ▸ .refl _ _ _, steps, hsteps, ?_⟩
  intro s hs
  rw [hall s hs]
  exact .refl _ _ _

theorem refl (w : World) (S : Set Loc) (I : Set Nat) : w.Spares w S I := of_still (refl_of Still w)

theorem trans (h : w.Spares w' S I) (h' : w'.Spares w'' S I) : w.Spares w'' S I := by
  obtain ⟨hfs, steps, hsteps, hall⟩ := h
  obtain ⟨hfs', steps', hsteps', hall'⟩ := h'
  refine ⟨hfs.trans hfs', steps ++ steps', by rw [hsteps', hsteps, List.append_assoc], ?_⟩
  intro s hs
  rcases List.mem_append.1 hs with hs | hs
  · exact hall s hs
  · exact hfs.trans (hall' s hs)

theorem mono (h : w.Spares w' S I) (hS : S ⊆ S') (hI : I ⊆ I') : w.Spares w' S' I' := by
  obtain ⟨hfs, steps, hsteps, hall⟩ := h
  exact ⟨hfs.mono hS hI, steps, hsteps, fun s hs => (hall s hs).mono hS hI⟩

theorem since (h : w.Spares w' S I) : ∀ s ∈ w'.since w, w.fs.Spares s.after S I := by
  obtain ⟨-, steps, hsteps, hall⟩ := h
  rw [World.since_eq hsteps]
  exact hall

end World.Spares

/-- A run that spares what `P` says it does. -/
theorem Runs.spares {α : Type} {m : FsM α} {w w' : World} {S : Set Loc} {I : Set Nat}
    {r : Except IronlockError α} {Q : α → Fs → Prop}
    (h : Runs (Along (w.fs.Spares · S I) (w.fs.Spares · S I)) m
      (fun a => Along (w.fs.Spares · S I) fun fs => w.fs.Spares fs S I ∧ Q a fs)
      fun _ => Along (w.fs.Spares · S I) (w.fs.Spares · S I)) (hm : m w = (r, w')) :
    w.Spares w' S I ∧ ∀ a, r = .ok a → Q a w'.fs := by
  have hstart : Along (w.fs.Spares · S I) (w.fs.Spares · S I) [] w.fs := ⟨by simp, .refl _ _ _⟩
  cases r with
  | error e =>
    obtain ⟨steps, hsteps, hall, hfs⟩ := h.error hstart hm
    exact ⟨⟨hfs, steps, hsteps, hall⟩, nofun⟩
  | ok a =>
    obtain ⟨steps, hsteps, hall, hfs, hQ⟩ := h.ok hstart hm
    refine ⟨⟨hfs, steps, hsteps, hall⟩, ?_⟩
    rintro _ ⟨⟩
    exact hQ

/-- Making directories spares what there is. -/
theorem Growing.spares (fs₀ : Fs) (S : Set Loc) (I : Set Nat) :
    Growing (fs₀.Spares · S I) (fs₀.Spares · S I) := by
  constructor
  · intro fs hfs
    exact hfs
  · intro fs d n hfs hnone
    rw [Fs.entryLoc_eq] at hnone
    exact hfs.trans (.mkdir hnone)

/-! ## Outputs -/

namespace AtomicOutput

/-- The way in which the program writes each of its outputs. -/
def writing (env : Env) (destination : Path) (force : Bool) (body : Nat → FsM Unit) : FsM Path := do
  let o ← AtomicOutput.new env destination force
  Eff.onError (body o.file) (o.drop env)
  o.commit env

section
variable {o : AtomicOutput} {base fs : Fs} {d : List Name} {a b : UInt64} {n : Name} {c : Bytes}

/-- While the new file is only written, nothing that was there is touched. -/
theorem written_spares (h : o.Ready base d a b) (hw : o.Written base d a b c fs) :
    base.Spares fs ∅ ∅ where
  keeps := hw.keeps
  nextInode := hw.nextInode.le
  nodes := by
    intro l x _ hx
    have : l ≠ base.entryLoc d (tempName a b) := by rintro rfl; rw [h.absent] at hx; cases hx
    rw [hw.nodeAt, Fs.written, Function.update_of_ne this, hx]
  content := by
    intro i hi _
    rw [hw.content, if_neg hi.ne]

theorem left_spares (hl : o.Left base d a b n c fs) : base.Spares fs {base.entryLoc d n} ∅ := by
  obtain ⟨f, hover, haround, -, -⟩ := hl
  constructor
  · exact hover.keeps
  · exact hover.nextInode.le
  · intro l x hne hx
    rw [hover.nodeAt]
    exact haround l x hx hne
  · intro i hi _
    rw [hover.content, if_neg hi.ne]

theorem installed_spares (h : o.Installed base d n c fs) :
    base.Spares fs {base.entryLoc d n} ∅ := by
  constructor
  · exact h.keeps
  · exact h.nextInode.le
  · intro l x hne hx
    rw [h.nodeAt, Fs.installed, Function.update_of_ne hne, hx]
  · intro i hi _
    rw [h.content, if_neg hi.ne]

end

/-- What a program that writes to its open file leaves there: bytes of `C` when
it succeeds. -/
def Fills (C : Fs → Bytes → Prop) (body : Nat → FsM Unit) : Prop :=
  ∀ (G : Fs → Prop) (o : AtomicOutput) (base : Fs) (d : List Name) (a b : UInt64),
    o.Ready base d a b → (∀ c fs, o.Written base d a b c fs → G fs) →
    Runs (Along G (o.Written base d a b [])) (body o.file)
      (fun _ => Along G fun fs => ∃ c, C base c ∧ o.Written base d a b c fs)
      fun _ => Along G fun fs => ∃ c, o.Written base d a b c fs

section
variable {env : Env} {C : Fs → Bytes → Prop} {body : Nat → FsM Unit} {fs₀ : Fs} {S : Set Loc}
  {destination : Path} {d : List Name} {n : Name}

/-- A streaming program fills its file with what its writer accepted. -/
theorem Ready.stream_runs {α : Type} {G : Fs → Prop} {o : AtomicOutput} {base : Fs} {a b : UInt64}
    (h : o.Ready base d a b) (hq : env.Quiet) (hG : ∀ c fs, o.Written base d a b c fs → G fs)
    (r : Reader) (m : StreamM α) :
    Runs (Along G (o.Written base d a b [])) (Sys.stream env r o.file m)
      (fun x => Along G fun fs => ∃ accepts s', m ⟨r, ⟨accepts, []⟩, []⟩ = (.ok x, s') ∧
        o.Written base d a b s'.writer.written fs)
      fun _ => Along G fun fs => ∃ c, o.Written base d a b c fs := by
  refine (Ironlock.stream_runs (Φ := fun c => Along G (o.Written base d a b c))
    (fun _ => hq.stable) ?_ [] r m).post ?_ ?_
  · intro c steps fs bytes hfs
    have hw := h.append hfs.2 bytes
    exact ⟨Runs.along_concat hfs.1 (hG _ _ hw), hw⟩
  · rintro x steps fs ⟨accepts, s', hm, hall, hw⟩
    exact ⟨hall, accepts, s', hm, hw⟩
  · rintro e steps fs ⟨c, hall, hw⟩
    exact ⟨hall, c, hw⟩

/-- What a write to `destination` leaves when it succeeds. -/
structure Wrote (C : Fs → Bytes → Prop) (fs₀ : Fs) (S : Set Loc) (d : List Name) (n : Name)
    (fs : Fs) : Prop where
  spares : fs₀.Spares fs S ∅
  installed : ∃ base c i, fs₀.Spares base S ∅ ∧ C base c ∧ fs₀.nextInode ≤ i ∧
    base.Spares fs {base.entryLoc d n} ∅ ∧ fs.nodeAt (fs.entryLoc d n) = some (.file i) ∧
    fs.content i = c

theorem writing_runs (hq : env.Quiet) (hbody : Fills C body) (hat : fs₀.At destination d n)
    (hS : fs₀.entryLoc d n ∈ S) (force : Bool) :
    Runs (Along (fs₀.Spares · S ∅) (fs₀.Spares · S ∅)) (writing env destination force body)
      (fun p steps fs => p = destination ∧ Along (fs₀.Spares · S ∅) (Wrote C fs₀ S d n) steps fs)
      fun _ => Along (fs₀.Spares · S ∅) (fs₀.Spares · S ∅) := by
  have hcreate (base : Fs) (d : List Name) (n : Name) (hbase : fs₀.Spares base S ∅)
      (hnone : base.nodeAt (base.entryLoc d n) = none) :
      fs₀.Spares (base.create (base.loc d) n) S ∅ := by
    rw [Fs.entryLoc_eq] at hnone
    exact hbase.trans (.create hnone)
  refine .bind (AtomicOutput.new_runs hq (.spares fs₀ S ∅) hcreate destination force) fun o =>
    .along_exists fun base => .along_exists fun d' => .along_exists fun a => .along_exists fun b =>
    .along_assuming fun hbase => .along_assuming fun h => .along_assuming fun hdest => ?_
  -- the directory that was found safe is the one the destination is in
  have hat' : base.At o.destination d n := hdest ▸ hat.keep hbase.keeps
  obtain rfl : d' = d := by
    obtain ⟨q, hparent, -, hplain⟩ := hat'.parent
    have := h.parent
    rw [Path.parentOrHere, hparent] at this
    exact this.names.symm.trans hplain.names
  have hloc : base.entryLoc d' n = fs₀.entryLoc d' n := hbase.keeps.loc _
  have hwritten : ∀ c fs, o.Written base d' a b c fs → fs₀.Spares fs S ∅ := fun c fs hw =>
    hbase.trans ((written_spares h hw).mono (Set.empty_subset S) le_rfl)
  have hleft : ∀ c fs, o.Left base d' a b n c fs → fs₀.Spares fs S ∅ := fun c fs hl =>
    hbase.trans ((left_spares hl).mono (by simpa [hloc] using hS) le_rfl)
  have hdrop : Runs (Along (fs₀.Spares · S ∅) fun fs => ∃ c, o.Written base d' a b c fs) (o.drop env)
      (fun _ => Along (fs₀.Spares · S ∅) (fs₀.Spares · S ∅))
      fun _ => Along (fs₀.Spares · S ∅) (fs₀.Spares · S ∅) :=
    .along_exists fun c => (h.drop_runs (hleft c) hq).consequence
      (fun _ _ hfs => ⟨hfs.1, h.written_left hfs.2⟩) (fun _ _ _ hfs => ⟨hfs.1, hleft c _ hfs.2⟩)
      fun _ _ _ hfs => ⟨hfs.1, hleft c _ hfs.2⟩
  have hfill := hbody (fs₀.Spares · S ∅) o base d' a b h hwritten
  refine .pre (.bind (.onError hfill fun _ => hdrop) fun _ => ?_) fun steps fs hstart =>
    ⟨hstart.1, hstart.2 ▸ h.created⟩
  refine .along_exists fun c => .along_assuming fun hc => ?_
  refine (h.commit_runs (hleft c) hq hat').post ?_ fun _ _ _ hfs => ⟨hfs.1, hleft c _ hfs.2⟩
  rintro p steps fs ⟨hall, rfl, hi⟩
  have hspares := installed_spares hi
  refine ⟨hdest, hall, hbase.trans (hspares.mono (by simpa [hloc] using hS) le_rfl), ?_⟩
  refine ⟨base, c, o.file, hbase, hc, ?_, hspares, Ready.installed_dest hi, ?_⟩
  · rw [h.file]; exact hbase.nextInode
  · rw [hi.content, h.file, if_pos rfl]

/-- A write to a path that leads somewhere goes to a plain directory, or nowhere. -/
theorem writing_runs_of_resolve {q : Path} {names : List Name} (hq : env.Quiet) (hbody : Fills C body)
    (hstart : fs₀.DirPath (fs₀.start destination)) (hname : destination = q.push (.name n))
    (hparent : destination.parentOrHere = q) (hr : fs₀.resolve false destination = .ok names)
    (hS : ∀ d, fs₀.At destination d n → fs₀.entryLoc d n ∈ S) (force : Bool) :
    Runs (Along (fs₀.Spares · S ∅) (fs₀.Spares · S ∅)) (writing env destination force body)
      (fun p steps fs => p = destination ∧ ∃ d, fs₀.At destination d n ∧
        Along (fs₀.Spares · S ∅) (Wrote C fs₀ S d n) steps fs)
      fun _ => Along (fs₀.Spares · S ∅) (fs₀.Spares · S ∅) := by
  by_cases hplain : ∃ d, fs₀.At destination d n
  · obtain ⟨d, hat⟩ := hplain
    exact (writing_runs hq hbody hat (hS d hat) force).post (fun _ _ _ h => ⟨h.1, d, hat, h.2⟩)
      fun _ _ _ => id
  -- the opening does not succeed: the directory it found safe was one before
  have hcreate (base : Fs) (d : List Name) (n : Name) (hbase : fs₀.Spares base S ∅)
      (hnone : base.nodeAt (base.entryLoc d n) = none) :
      fs₀.Spares (base.create (base.loc d) n) S ∅ := by
    rw [Fs.entryLoc_eq] at hnone
    exact hbase.trans (.create hnone)
  refine .bind (AtomicOutput.new_runs hq (.spares fs₀ S ∅) hcreate destination force) fun o =>
    .along_exists fun base => .along_exists fun d => .along_exists fun a => .along_exists fun b =>
    .along_assuming fun hbase => .along_assuming fun h => .along_assuming fun hdest => ?_
  refine absurd ⟨d, Fs.At.of_keeps ?_ hbase.keeps hstart hr⟩ hplain
  have hnul : destination.hasNul = false := (Fs.resolve_eq_ok hr).1
  have hparent' := h.parent
  rw [hdest, hparent] at hparent'
  rw [hname, Path.hasNul, Path.push_parts, List.any_append, Bool.or_eq_false_iff] at hnul
  rw [hname]
  exact hparent'.at_push (by simpa using hnul.2)

end

end AtomicOutput

end Ironlock
