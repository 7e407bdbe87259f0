import Ironlock.EncryptShred
import Ironlock.Faults
import Ironlock.ShredFailure

/-! What the encryption of one file leaves alone: all but its output until the
encrypted file is in its place, and all but its source from then on. -/

namespace Ironlock
open ByteOrder (Bytes)
open Effect
open Fs (Identity Metadata SysCall)

/-! ## The encrypted bytes -/

/-- What is read of a file, in some portions and with some failures. -/
theorem cutReader_carries (cuts : List Cut) (b : Bytes) : (cutReader cuts b).Carries b := by
  induction cuts generalizing b with
  | nil =>
    unfold cutReader
    split
    · rename_i hb
      exact ⟨by simp, by simp [hb]⟩
    · exact ⟨by simpa using ‹¬b = []›, by simp [ReadEvent.bytes]⟩
  | cons cut cuts ih =>
    cases cut with
    | error e =>
      obtain ⟨hfull, hbytes⟩ := ih b
      refine ⟨fun ev hev => ?_, hbytes⟩
      rcases List.mem_cons.1 hev with rfl | hev
      · simp
      · exact hfull ev hev
    | take more =>
      unfold cutReader
      split
      · exact ih b
      · rename_i hb
        obtain ⟨hfull, hbytes⟩ := ih (b.drop (more + 1))
        refine ⟨fun ev hev => ?_, ?_⟩
        · rcases List.mem_cons.1 hev with rfl | hev
          · simpa using hb
          · exact hfull ev hev
        · rw [List.flatMap_cons, hbytes, ReadEvent.bytes, List.take_append_drop]

section
variable {env : Env} {password : Bytes} {filename : Str} {source : Nat}

/-- The bytes are a stream of a name and a content. -/
def Encloses (C : Crates) (password c : Bytes) (filename : Str) (content : Bytes) : Prop :=
  ∃ x : Stream C password, x.bytes = c ∧ x.filename = filename ∧ x.content = content

theorem reader_runs {Φ : Assertion} (Χ : IronlockError → Assertion) :
    Runs Φ (Sys.reader env source)
      (fun r steps fs => (∃ cuts, r = cutReader cuts (fs.content source)) ∧ Φ steps fs) Χ :=
  fun _ w ⟨steps, hsteps, hΦ⟩ => ⟨steps, hsteps, ⟨env.cuts w.calls, rfl⟩, hΦ⟩

/-- What is encrypted into an open file. -/
theorem writeEncrypted_fills (hq : env.Quiet) (password : Bytes) (filename : Str) (source : Nat) :
    AtomicOutput.Fills (fun base c => source < base.nextInode →
      Encloses env.crates password c filename (base.content source))
      (writeEncrypted env password filename source) := by
  intro G o base names a b h hG
  refine .bind (reader_runs _) fun r => .bind (Ψ := fun _ steps fs => (source < base.nextInode →
    ∃ cuts, r = cutReader cuts (base.content source)) ∧ Along G (o.Written base names a b []) steps fs)
    (.draw ?_) fun salt => .bind (.draw fun _ _ _ => id) fun baseNonce => .assuming fun hr => ?_
  · rintro _ steps fs ⟨⟨cuts, hr⟩, hall, hw⟩
    refine ⟨fun hlt => ⟨cuts, ?_⟩, hall, hw⟩
    rw [hr, hw.content, if_neg hlt.ne]
  refine .bind (h.stream_runs hq hG r _) fun m => ?_
  refine (Runs.still_along ((flush_looks _).still hq) ?_).post ?_ ?_
  · rintro fs ⟨accepts, s', -, hw⟩
    exact hG _ _ hw
  · rintro _ steps fs ⟨hall, accepts, s', hm, hw⟩
    refine ⟨hall, _, fun hlt => ?_, hw⟩
    obtain ⟨cuts, rfl⟩ := hr hlt
    obtain ⟨x, hname, hcontent, -, hwritten⟩ := encryptStream_carried (cutReader_carries cuts _) hm
    exact ⟨x, hwritten.symm, hname, hcontent⟩
  · rintro _ steps fs ⟨hall, accepts, s', -, hw⟩
    exact ⟨hall, _, hw⟩

end

/-! ## Shredding -/

section
variable {env : Env} {fs₀ : Fs} {p : Path} {names : List Name} {i : Nat}

/-- All is as it was but the place of the path, and the file that was there. -/
abbrev Fs.OnlyFile (fs₀ : Fs) (names : List Name) (i : Nat) (fs : Fs) : Prop :=
  fs₀.Spares fs {fs₀.loc names} {i}

/-- The file is where it was. -/
def Fs.InPlace (fs₀ : Fs) (names : List Name) (i : Nat) (fs : Fs) : Prop :=
  fs₀.OnlyFile names i fs ∧ fs.nodeAt (fs₀.loc names) = some (.file i)

/-- The quarantine's name was new, and names nothing but the file. -/
structure Fs.Hiding (fs₀ : Fs) (names : List Name) (i : Nat) (quarantine : Path) (fs : Fs) : Prop where
  only : fs₀.OnlyFile names i fs
  place : ∃ hideout, fs.resolve false quarantine = .ok hideout ∧ fs₀.nodeAt (fs.loc hideout) = none ∧
    ∀ x, fs.node hideout = some x → x = .file i

theorem quarantine_only (hq : env.Quiet) (hr : fs₀.resolve false p = .ok names) :
    Runs (Along (fs₀.OnlyFile names i) (fs₀.InPlace names i)) (QuarantinedFile.new env p)
      (fun q => Along (fs₀.OnlyFile names i) (fs₀.Hiding names i q.quarantine))
      fun _ => Along (fs₀.OnlyFile names i) (fs₀.InPlace names i) := by
  refine quarantine_cases hq.stable (fun steps fs dst fault h => ⟨Runs.along_concat h.1 h.2.1, h.2⟩) ?_
  rintro steps fs a b s d n x ⟨hall, honly, hfile⟩ hs hx - hdst hnone
  rw [honly.keeps.resolve hr] at hs
  cases hs
  rw [Fs.node, honly.keeps.loc, hfile] at hx
  cases hx
  rw [honly.keeps.loc]
  rw [Fs.entryLoc_eq] at hnone
  have hmoved := honly.move (.inl rfl) hfile hnone
  have hkeeps := Fs.move_keeps (Fs.file_ne_nil hfile) hfile hnone
  refine ⟨Runs.along_concat hall hmoved, hmoved, d ++ [n], hkeeps.resolve hdst, ?_, ?_⟩
  · rw [hkeeps.loc]
    by_contra hsome
    obtain ⟨y, hy⟩ := Option.ne_none_iff_exists'.1 hsome
    have hne : fs.loc (d ++ [n]) ∉ ({fs₀.loc names} : Set Loc) := by
      rintro heq
      rw [Set.mem_singleton_iff, Fs.loc_concat] at heq
      rw [heq, hfile] at hnone
      cases hnone
    rw [Fs.loc_concat] at hne hy
    rw [honly.nodes _ _ hne hy] at hnone
    cases hnone
  · intro y hy
    rw [Fs.node, hkeeps.loc, Fs.loc_concat, Fs.move_nodeAt (Fs.file_ne_nil hfile) hfile] at hy
    have hne : fs.loc d ++ [fs.fold (fs.loc d) n] ≠ fs₀.loc names := by
      intro heq
      rw [heq, hfile] at hnone
      cases hnone
    rw [Function.update_of_ne hne, Function.update_self] at hy
    exact (Option.some.inj hy).symm

/-- A file that has been put in quarantine goes back to its place, or stays. -/
theorem restore_only (hq : env.Quiet) (q : QuarantinedFile) :
    Runs (Along (fs₀.OnlyFile names i) (fs₀.Hiding names i q.quarantine)) (q.restore env)
      (fun _ => Along (fs₀.OnlyFile names i) (fs₀.OnlyFile names i))
      fun _ => Along (fs₀.OnlyFile names i) (fs₀.OnlyFile names i) := by
  have honly (steps : List Step) (fs : Fs)
      (h : Along (fs₀.OnlyFile names i) (fs₀.Hiding names i q.quarantine) steps fs) :
      Along (fs₀.OnlyFile names i) (fs₀.OnlyFile names i) steps fs := ⟨h.1, h.2.only⟩
  refine .bind ((Runs.still_along ((exists_looks _).still hq) fun _ h => h.only).post (fun _ _ _ => id)
    fun _ => honly) fun there => .ite (fun _ => .pure honly) fun _ => .bind (.attempt ?_) fun _ =>
      .pure fun _ _ => id
  refine installTemp_cases hq.stable honly
    (fun steps fs fault h => ⟨Runs.along_concat h.1 h.2.only, h.2.only⟩) ?_
  rintro steps fs s d n x ⟨hall, h⟩ hs hx - hdst hnone
  obtain ⟨hideout, hhideout, hnew, hfile⟩ := h.place
  rw [hhideout] at hs
  cases hs
  obtain rfl := hfile x hx
  rw [Fs.entryLoc_eq] at hnone
  have hmoved := h.only.move (.inr hnew) hx hnone
  exact ⟨Runs.along_concat hall hmoved, hmoved⟩

theorem remove_only (hq : env.Quiet) (q : QuarantinedFile) :
    Runs (Along (fs₀.OnlyFile names i) (fs₀.Hiding names i q.quarantine)) (q.remove env)
      (fun _ => Along (fs₀.OnlyFile names i) (fs₀.OnlyFile names i))
      fun _ => Along (fs₀.OnlyFile names i) (fs₀.OnlyFile names i) := by
  let Φ : Assertion := Along (fs₀.OnlyFile names i) (fs₀.Hiding names i q.quarantine)
  refine .onError (Θ := fun _ => Φ) (.bind (Ψ := fun _ => Φ) (.bind (Ψ := fun _ => Φ)
    (removeFile_cases hq.stable ?_ ?_) fun r => ?_) fun _ => ?_) fun _ => restore_only hq q
  · exact fun steps fs e fault h => ⟨Runs.along_concat h.1 h.2.only, h.2⟩
  · rintro steps fs s x ⟨hall, h⟩ hs hx -
    obtain ⟨hideout, hhideout, hnew, hfile⟩ := h.place
    rw [hhideout] at hs
    cases hs
    obtain rfl := hfile x hx
    have herased := h.only.erase (.inr hnew) hx
    have hkeeps := Fs.erase_keeps (Fs.file_ne_nil hx) hx
    refine ⟨Runs.along_concat hall herased, herased, s, hkeeps.resolve hhideout, ?_, ?_⟩
    · rwa [hkeeps.loc]
    · intro y hy
      rw [Fs.node, hkeeps.loc, Fs.erase_nodeAt (Fs.file_ne_nil hx), Function.update_self] at hy
      cases hy
  · cases r with
    | ok _ => exact .pure fun _ _ => id
    | error e => exact .fail fun _ _ => id
  · exact (Runs.still_along ((syncParent_looks _).still hq) fun _ h => h.only).post
      (fun _ _ _ h => ⟨h.1, h.2.only⟩) fun _ _ _ => id

theorem overwrite_only (hq : env.Quiet) {quarantine : Path} (expected : Identity) :
    Runs (Along (fs₀.OnlyFile names i) (fs₀.Hiding names i quarantine))
      (overwriteQuarantined env quarantine expected)
      (fun _ => Along (fs₀.OnlyFile names i) (fs₀.Hiding names i quarantine))
      fun _ => Along (fs₀.OnlyFile names i) (fs₀.Hiding names i quarantine) := by
  let Φ : Assertion := Along (fs₀.OnlyFile names i) (fs₀.Hiding names i quarantine)
  have hlooks {α : Type} {m : FsM α} (hm : Looks env m) : Runs Φ m (fun _ => Φ) fun _ => Φ :=
    Runs.still_along (hm.still hq) fun _ h => h.only
  have hpasses (len : Nat) : Runs Φ (overwritePasses env i len 3) (fun _ => Φ) fun _ => Φ := by
    refine overwritePasses_runs (Ψ := fun _ => Φ) (Λ := fun _ _ => Φ) (fun _ => hlooks (rewind_looks _))
      (fun _ => ?_) (fun _ => hlooks (flush_looks _)) (fun _ => hlooks (syncAll_looks _)) 3
    refine (overwriteRemaining_runs (Φ := fun _ => Φ) (fun _ => hq.stable) ?_ 0 _ (Nat.zero_add _)).post
      (fun _ _ _ => id) fun _ _ _ h => h.2.choose_spec
    rintro offset steps fs bytes - ⟨hall, h⟩
    have hwritten : fs₀.OnlyFile names i (fs.overwrite i offset bytes) := h.only.setContent rfl _
    obtain ⟨hideout, hhideout, hnew, hfile⟩ := h.place
    exact ⟨Runs.along_concat hall hwritten, hwritten, hideout,
      (Fs.setContent_keeps _ _).resolve hhideout, hnew, hfile⟩
  refine .bind (Ψ := fun file steps fs => (∀ j, file = .file j → j = i) ∧ Φ steps fs) (.mapError
    ((Runs.still ((Looks.run rfl look_snd).still hq) (fun _ h => h.only)
      (R := fun file _ => ∀ j, file = .file j → j = i) ?_).post
        (fun _ _ _ h => ⟨h.2.2, h.1, h.2.1⟩) fun _ _ _ => id)) fun file => .assuming fun hfile => ?_
  · rintro w file w' h hopen j rfl
    obtain ⟨hideout, x, hr, hx, hid⟩ : ∃ hideout x, w.fs.resolve false quarantine = .ok hideout ∧
        w.fs.node hideout = some x ∧ w.fs.identity hideout x = .ok (.file j) := by
      obtain ⟨hideout, x, hr, hx, hid⟩ := look_eq_ok (hq.run_tells look_snd hopen).1
      refine ⟨hideout, x, hr, hx, ?_⟩
      cases x with
      | dir => cases hid
      | _ => exact hid
    obtain ⟨hideout', hr', -, hknown⟩ := h.place
    rw [hr'] at hr
    cases hr
    obtain rfl := hknown x hx
    cases hid
    rfl
  refine .bind (.mapError (hlooks (stat_looks _))) fun metadata =>
    .bind (.mapError (hlooks (duplicate_looks _))) fun _ =>
    .bind (.mapError (hlooks (handleFromFile_looks _))) fun handle => .ite (fun _ => .fail fun _ _ => id)
    fun _ => .bind (.mapError (hlooks (linkCount_looks _))) fun links =>
    .ite (fun _ => .fail fun _ _ => id) fun _ => ?_
  have hlast {next : Except IoError Metadata → FsM Unit}
      (herror : ∀ e, next (.error e) = Eff.fail (.secureDeletionFailed [.io e]))
      (hok : ∀ finalMetadata, next (.ok finalMetadata) = do
        Eff.mapError shredError (rejectLinkOrReparse quarantine finalMetadata)
        if ← Eff.mapError shredError (pathMatchesOpenFile env quarantine file) then return ()
        else Eff.fail (shredFailure "quarantined file changed before deletion")) :
      Runs Φ (Sys.symlinkMetadata env quarantine >>= next) (fun _ => Φ) fun _ => Φ := by
    refine .bind (hlooks (symlinkMetadata_looks _)) fun r => ?_
    cases r with
    | error e =>
      rw [herror]
      exact .fail fun _ _ => id
    | ok final =>
      rw [hok]
      refine .bind (.mapError (hlooks (rejectLink_looks _ _))) fun _ =>
        .bind (.mapError (hlooks (pathMatchesOpenFile_looks _ _))) fun same => ?_
      exact .ite (fun _ => .pure fun _ _ => id) fun _ => .fail fun _ _ => id
  cases file with
  | file j =>
    obtain rfl := hfile j rfl
    exact .bind (hpasses _) fun _ => hlast (fun _ => rfl) fun _ => rfl
  | _ => exact hlast (fun _ => rfl) fun _ => rfl

/-- Shredding touches nothing but its file, whatever fails. -/
theorem shredding_only (hq : env.Quiet) (hr : fs₀.resolve false p = .ok names)
    (expectedSource : Option Identity) :
    Runs (Along (fs₀.OnlyFile names i) (fs₀.InPlace names i)) (secureDeleteInner env p expectedSource)
      (fun _ => Along (fs₀.OnlyFile names i) (fs₀.OnlyFile names i))
      fun _ => Along (fs₀.OnlyFile names i) (fs₀.OnlyFile names i) := by
  have hlooks {α : Type} {m : FsM α} (hm : Looks env m) :
      Runs (Along (fs₀.OnlyFile names i) (fs₀.InPlace names i)) m
        (fun _ => Along (fs₀.OnlyFile names i) (fs₀.InPlace names i))
        fun _ => Along (fs₀.OnlyFile names i) (fs₀.OnlyFile names i) :=
    (Runs.still_along (hm.still hq) fun _ h => h.1).post (fun _ _ _ => id) fun _ _ _ h => ⟨h.1, h.2.1⟩
  refine .bind (.mapError (hlooks (verifiedSourceFile_looks _))) fun source =>
    .bind (.mapError (hlooks (handleFromFile_looks _))) fun handle =>
    .ite (fun _ => .fail fun _ _ h => ⟨h.1, h.2.1⟩) fun _ =>
    .bind (.mapError ((quarantine_only hq hr).post (fun _ _ _ => id) fun _ _ _ h => ⟨h.1, h.2.1⟩)) fun q => ?_
  exact .bind (.onError (overwrite_only hq _) fun _ => restore_only hq q) fun _ => .mapError (remove_only hq q)

end

/-! ## One file -/

/-- The place that a path has in a plain directory. -/
def Fs.outputPlace (fs : Fs) (p : Path) : Set Loc := {l | ∃ d n, fs.At p d n ∧ l = fs.entryLoc d n}

/-- A file that was not there before is there, and encloses the name and the content. -/
def Enclosed (C : Crates) (password : Bytes) (places : Set Loc) (first : Nat) (filename : Str) (content : Bytes)
    (fs : Fs) : Prop :=
  ∃ l ∈ places, ∃ j, fs.nodeAt l = some (.file j) ∧ first ≤ j ∧ Encloses C password (fs.content j) filename content

/-- The source opened and named, and what it is to be shredded by. -/
def encryptionSource (env : Env) (sourcePath outputPath : Path) (shred : Bool) :
    FsM (Nat × Option Identity × Str) := do
  if ← pathsReferToSameFile env sourcePath outputPath then
    Eff.fail (.outputCollision [.text "source and output are the same file: '", .path sourcePath,
      .text "'"])
  else
    let (source, _) ← verifiedSourceFile env sourcePath
    let sourceHandle ← shredHandle env source shred
    let filename ← Eff.ofExcept (originalFilename sourcePath)
    return (source, sourceHandle, filename)

theorem encryptFileToPath_eq (env : Env) (sourcePath outputPath : Path) (password : Bytes)
    (force shred : Bool) : encryptFileToPath env sourcePath outputPath password force shred = do
      let (source, sourceHandle, filename) ← encryptionSource env sourcePath outputPath shred
      let committed ← AtomicOutput.writing env outputPath force (writeEncrypted env password filename source)
      if shred then secureDeleteInner env sourcePath sourceHandle else pure ()
      return committed := by
  rw [encryptFileToPath, encryptionSource, bind_assoc]
  refine congrArg _ (funext fun same => ?_)
  split
  · rfl
  · simp only [AtomicOutput.writing, bind_assoc, pure_bind]

section
variable {env : Env} {source output : Path} {password : Bytes} {force shred : Bool} {w w' : World} {i : Nat}
  {names names' : List Name} {n : Name} {q : Path} {r : Except IronlockError Path}

theorem shredHandle_looks (source : Nat) (shred : Bool) : Looks env (shredHandle env source shred) :=
  .ite (.bind (duplicate_looks _) fun _ => .bind (handleFromFile_looks _) fun _ => .pure _) (.pure _)

theorem encryptionSource_looks : Looks env (encryptionSource env source output shred) :=
  .bind (pathsReferToSameFile_looks _ _) fun _ => .ite (.fail _) <|
    .bind (verifiedSourceFile_looks _) fun _ => .bind (shredHandle_looks _ _) fun _ =>
      .bind (.ofExcept _) fun _ => .pure _

theorem encryptionSource_eq_ok (hq : env.Quiet) {j : Nat} {handle : Option Identity} {filename : Str}
    (h : encryptionSource env source output shred w = (.ok (j, handle, filename), w')) :
    w.fs.IsFile source j ∧ originalFilename source = .ok filename := by
  obtain ⟨same, w₁, hsame, h⟩ := Eff.bind_eq_ok.1 h
  split at h
  · cases h
  obtain ⟨⟨k, m⟩, w₂, hverified, h⟩ := Eff.bind_eq_ok.1 h
  obtain ⟨_, w₃, -, h⟩ := Eff.bind_eq_ok.1 h
  obtain ⟨_, w₄, hname, h⟩ := Eff.bind_eq_ok.1 h
  cases h
  rw [Eff.ofExcept_apply, Prod.mk.injEq] at hname
  have hfs := (((pathsReferToSameFile_looks _ _).still hq).run hsame).1
  exact ⟨hfs ▸ verifiedSourceFile_eq_ok hq hverified, hname.1⟩

/-- An encryption leaves alone all but its output until that holds the file, and
from then on all but the source that it shreds. -/
theorem encryptFileToPath_spec (hq : env.Quiet) (hstart : w.fs.DirPath (w.fs.start output))
    (hname : output = q.push (.name n)) (hparent : output.parentOrHere = q)
    (hr : w.fs.resolve false output = .ok names') (hsource : w.fs.resolve false source = .ok names)
    (hfile : w.fs.node names = some (.file i)) (hapart : w.fs.loc names ∉ w.fs.outputPlace output)
    (h : encryptFileToPath env source output password force shred w = (r, w')) :
    ∃ w₁, w.Spares w₁ (w.fs.outputPlace output) ∅ ∧
      (((∃ e, r = .error e) ∧ w' = w₁) ∨
        (∃ filename, originalFilename source = .ok filename ∧ Enclosed env.crates password
          (w.fs.outputPlace output) w.fs.nextInode filename (w.fs.content i) w₁.fs) ∧
        w₁.Spares w' {l | shred = true ∧ l = w.fs.loc names} {k | shred = true ∧ k = i} ∧
        ∀ p, r = .ok p → p = output) := by
  rw [encryptFileToPath_eq] at h
  rcases hopen : encryptionSource env source output shred w with ⟨e | ⟨j, handle, filename⟩, w₁⟩
  · rw [Eff.bind_error hopen] at h
    cases h
    exact ⟨_, .of_still ((encryptionSource_looks.still hq).run hopen), .inl ⟨⟨e, rfl⟩, rfl⟩⟩
  rw [Eff.bind_ok hopen] at h
  have hstill₁ := (encryptionSource_looks.still hq).run hopen
  have hfs₁ : w₁.fs = w.fs := hstill₁.1
  obtain ⟨hj, horiginal⟩ := encryptionSource_eq_ok hq hopen
  obtain rfl : j = i := hj.unique ⟨names, hsource, hfile⟩
  have hplace (d : List Name) (hat : w₁.fs.At output d n) : w₁.fs.entryLoc d n ∈ w.fs.outputPlace output := by
    rw [hfs₁] at hat ⊢
    exact ⟨d, n, hat, rfl⟩
  have hwriting := AtomicOutput.writing_runs_of_resolve hq (writeEncrypted_fills hq password filename j)
    (hfs₁ ▸ hstart) hname hparent (hfs₁ ▸ hr) hplace force
  rcases hwrite : AtomicOutput.writing env output force (writeEncrypted env password filename j) w₁ with
    ⟨e | committed, w₂⟩ <;>
    obtain ⟨hspares₂, hwrote⟩ := Runs.spares (hwriting.post (Λ := fun p => Along
      (w₁.fs.Spares · (w.fs.outputPlace output) ∅) fun fs => w₁.fs.Spares fs (w.fs.outputPlace output) ∅ ∧
        p = output ∧ ∃ d, w₁.fs.At output d n ∧ AtomicOutput.Wrote _ w₁.fs (w.fs.outputPlace output) d n fs)
      (fun _ _ _ ⟨hp, d, hat, hall, hfs⟩ => ⟨hall, hfs.spares, hp, d, hat, hfs⟩) fun _ _ _ => id) hwrite <;>
    have hspares := (World.Spares.of_still hstill₁).trans hspares₂
  · have h := (Eff.bind_error hwrite _).symm.trans h
    cases h
    exact ⟨_, hspares, .inl ⟨⟨e, rfl⟩, rfl⟩⟩
  have hrest := (Eff.bind_ok hwrite _).symm.trans h
  obtain ⟨rfl, d, hat, hwrote⟩ := hwrote committed rfl
  obtain ⟨base, c, k, hbase, hencloses, hnew, -, hk, hc⟩ := hwrote.installed
  refine ⟨w₂, hspares, .inr ⟨⟨filename, horiginal, _, hplace d hat, k, ?_, hfs₁ ▸ hnew, ?_⟩, ?_⟩⟩
  · rw [← hspares₂.1.keeps.entryLoc]
    exact hk
  · have hlt : j < w.fs.nextInode := Fs.nodeAt_lt hfile
    rw [hfs₁] at hbase
    have := hencloses (hlt.trans_le hbase.nextInode)
    rwa [hbase.content j hlt id, ← hc] at this
  rw [← hspares.1.keeps.loc]
  cases shred with
  | false =>
    cases hrest
    exact ⟨.refl _ _ _, by simp⟩
  | true =>
    -- from here on the source is shredded
    have hkept : w₂.fs.nodeAt (w₂.fs.loc names) = some (.file j) := by
      rw [hspares.1.keeps.loc]
      exact hspares.1.nodes _ _ hapart hfile
    have hshred : Runs (Along (w₂.fs.OnlyFile names j) (w₂.fs.InPlace names j)) (do
        secureDeleteInner env source handle
        return committed) (fun p steps fs => p = committed ∧
          Along (w₂.fs.OnlyFile names j) (w₂.fs.OnlyFile names j) steps fs)
        fun _ => Along (w₂.fs.OnlyFile names j) (w₂.fs.OnlyFile names j) :=
      .bind (shredding_only hq (hspares.1.keeps.resolve hsource) handle) fun _ =>
        .pure fun _ _ hfs => ⟨rfl, hfs⟩
    have hbegin : Along (w₂.fs.OnlyFile names j) (w₂.fs.InPlace names j) [] w₂.fs :=
      ⟨by simp, .refl _ _ _, hkept⟩
    simp only [true_and, Set.ofPred_eq_eq_singleton]
    cases r with
    | error e =>
      obtain ⟨steps, hsteps, hall, hend⟩ := hshred.error hbegin hrest
      exact ⟨⟨hend, steps, hsteps, hall⟩, nofun⟩
    | ok p =>
      obtain ⟨steps, hsteps, hp, hall, hend⟩ := hshred.ok hbegin hrest
      exact ⟨⟨hend, steps, hsteps, hall⟩, fun _ heq => Except.ok.inj heq ▸ hp⟩

end

end Ironlock
