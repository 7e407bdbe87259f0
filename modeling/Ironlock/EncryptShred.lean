import Ironlock.Shredding

/-! The encryption of a file that is shredded afterwards: until the encrypted
file is in its place, nothing that was there is altered. -/

namespace Ironlock
open ByteOrder (Bytes)
open Effect
open Fs (Identity Metadata SysCall)

/-- `encrypt_file_to_path` up to the point where `commit` has returned: the open
source and the path of the encrypted file. -/
def encryptCommitted (env : Env) (sourcePath outputPath : Path) (password : Bytes) (force : Bool) :
    FsM (Nat × Path) := do
  if ← pathsReferToSameFile env sourcePath outputPath then
    Eff.fail (.outputCollision [.text "source and output are the same file: '", .path sourcePath,
      .text "'"])
  else
    let (source, _) ← verifiedSourceFile env sourcePath
    let _ ← shredHandle env source true
    let filename ← Eff.ofExcept (originalFilename sourcePath)
    let output ← AtomicOutput.new env outputPath force
    Eff.onError (writeEncrypted env password filename source output.file) (output.drop env)
    let committed ← output.commit env
    return (source, committed)

theorem encryptFileToPath_shred (env : Env) (sourcePath outputPath : Path) (password : Bytes)
    (force : Bool) : encryptFileToPath env sourcePath outputPath password force true = do
      let (source, committed) ← encryptCommitted env sourcePath outputPath password force
      secureDeleteInner env sourcePath (some (.file source))
      return committed := by
  have hhandle (source : Nat) : shredHandle env source true = do
      Sys.duplicate env (.file source)
      let _ ← Sys.stat env (.file source)
      return some (.file source) := by
    simp only [shredHandle, Sys.handleFromFile, if_true, bind_assoc, pure_bind]
  rw [encryptFileToPath, encryptCommitted, bind_assoc]
  refine congrArg _ (funext fun same => ?_)
  split
  · rfl
  · simp only [hhandle, bind_assoc, pure_bind, if_true]

/-! ## Until the shredding -/

/-- A call alters no file but those that the program made. -/
def AltersOwn (front : List Step) (s : Step) : Prop := ∀ k, s.Alters k → AtomicOutput.Made front k

/-- The calls so far altered no other file, and directories look names up as they
did. -/
def Innocent (base : Fs) : Assertion := fun steps fs => Each AltersOwn steps ∧ fs.fold = base.fold

section
variable {env : Env} {base fs fs' : Fs} {T : Set Loc} {steps : List Step} {call : Call}
  {fault : Option IoError} {p src dst : Path} {o : AtomicOutput}

theorem Innocent.step (h : Innocent base steps fs) (hfold : fs'.fold = fs.fold)
    (hcontent : ∀ k < fs.nextInode, fs'.content k = fs.content k) :
    Innocent base (steps ++ [⟨call, fault, fs, fs'⟩]) fs' :=
  ⟨each_concat.2 ⟨h.1, fun k hk => absurd (hcontent k hk.1) hk.2⟩, hfold.trans h.2⟩

theorem Innocent.inert : Inert (Innocent base) := fun _ _ _ _ h => h.step rfl fun _ _ => rfl

theorem Innocent.stable (hm : env.Meddles T) : env.Stable (Innocent base) :=
  fun n _ fs h => ⟨h.1, (hm n fs).fold.trans h.2⟩

theorem Innocent.looks {α : Type} {m : FsM α} (hm : env.Meddles T) (h : Looks env m) :
    Runs (Innocent base) m (fun _ => Innocent base) fun _ => Innocent base :=
  h.runs (Innocent.stable hm) Innocent.inert.idle

/-- Moving files alters none. -/
theorem installTemp_innocent (hm : env.Meddles T) :
    Runs (Innocent base) (installTemp env src dst) (fun _ => Innocent base) fun _ => Innocent base :=
  installTemp_cases (Innocent.stable hm) (fun _ _ => id) (fun _ _ _ h => Innocent.inert _ _ _ _ h)
    fun _ _ _ _ _ _ h _ _ _ _ _ => h.step Fs.move_fold fun _ _ => congrFun Fs.move_content _

theorem removeFile_innocent (hm : env.Meddles T) :
    Runs (Innocent base) (Sys.try_ env (.removeFile p) (Fs.removeFile p)) (fun _ => Innocent base)
      fun _ => Innocent base :=
  removeFile_cases (Innocent.stable hm) (fun _ _ _ _ h => Innocent.inert _ _ _ _ h)
    fun _ _ _ _ h _ _ _ => h.step rfl fun _ _ => rfl

theorem quarantine_innocent (hm : env.Meddles T) :
    Runs (Innocent base) (QuarantinedFile.new env p) (fun _ => Innocent base) fun _ => Innocent base :=
  quarantine_cases (Innocent.stable hm) (fun _ _ _ _ h => Innocent.inert _ _ _ _ h)
    fun _ _ _ _ _ _ _ _ h _ _ _ _ _ => h.step Fs.move_fold fun _ _ => congrFun Fs.move_content _

theorem restore_innocent (hm : env.Meddles T) (q : QuarantinedFile) :
    Runs (Innocent base) (q.restore env) (fun _ => Innocent base) fun _ => Innocent base :=
  .bind (Innocent.looks hm (exists_looks _)) fun _ => .ite (fun _ => .pure fun _ _ => id) fun _ =>
    .bind (Ψ := fun _ => Innocent base) (.attempt (installTemp_innocent hm)) fun _ =>
      .pure fun _ _ => id

theorem remove_innocent (hm : env.Meddles T) (q : QuarantinedFile) :
    Runs (Innocent base) (q.remove env) (fun _ => Innocent base) fun _ => Innocent base := by
  refine .onError (.bind (.bind (removeFile_innocent hm) fun r => ?_) fun _ =>
    Innocent.looks hm (syncParent_looks _)) fun _ => restore_innocent hm q
  cases r with
  | ok _ => exact .pure fun _ _ => id
  | error e => exact .fail fun _ _ => id

namespace AtomicOutput

theorem drop_innocent (hm : env.Meddles T) :
    Runs (Innocent base) (o.drop env) (fun _ => Innocent base) fun _ => Innocent base :=
  .bind (removeFile_innocent hm) fun _ => .pure fun _ _ => id

theorem commit_innocent (hm : env.Meddles T) :
    Runs (Innocent base) (o.commit env) (fun _ => Innocent base) fun _ => Innocent base := by
  have hrest : Runs (Innocent base) (do
      installTemp env o.tempPath o.destination
      syncParent env o.destination.parentOrHere) (fun _ => Innocent base) fun _ => Innocent base :=
    .bind (installTemp_innocent hm) fun _ => Innocent.looks hm (syncParent_looks _)
  have hreplace (observed : Identity) :
      Runs (Innocent base) (o.replace env observed) (fun _ => Innocent base) fun _ => Innocent base := by
    refine .bind (quarantine_innocent hm) fun q => .bind (.onError (.bind
      (Innocent.looks hm (handleFromPath_looks _)) fun moved => ?_) fun _ => restore_innocent hm q)
      fun _ => .pure fun _ _ => id
    exact .ite (fun _ => .fail fun _ _ => id) fun _ => hrest
  have hinstall : Runs (Innocent base) (o.install env) (fun _ => Innocent base)
      fun _ => Innocent base := by
    refine .bind (Innocent.looks hm (symlinkMetadata_looks _)) fun r => ?_
    cases r with
    | ok metadata =>
      exact .bind (Innocent.looks hm (rejectLink_looks _ _)) fun _ =>
        .bind (.fail fun _ _ => id) fun _ => hrest
    | error e => exact .ite (fun _ => hrest) fun _ => .bind (.fail fun _ _ => id) fun _ => hrest
  have hpublish : Runs (Innocent base) (o.publish env) (fun _ => Innocent base)
      fun _ => Innocent base := by
    refine .bind (Innocent.looks hm (flush_looks _)) fun _ =>
      .bind (Innocent.looks hm (syncAll_looks _)) fun _ => ?_
    rcases o.observedDestination with _ | observed
    · exact .bind hinstall fun _ => .pure fun _ _ => id
    · exact .bind (hreplace observed) fun _ => .pure fun _ _ => id
  refine .bind (.onError hpublish fun _ => drop_innocent hm) fun q => ?_
  cases q with
  | none => exact .pure fun _ _ => id
  | some q => exact .bind (remove_innocent hm q) fun _ => .pure fun _ _ => id

/-- Opening an output makes the file that is then written. -/
theorem new_innocent (hm : env.Meddles T) (destination : Path) (force : Bool) :
    Runs (Innocent base) (AtomicOutput.new env destination force)
      (fun o steps fs => Made steps o.file ∧ Innocent base steps fs) fun _ => Innocent base := by
  have hdirectory : Runs (Innocent base) (ensureSafeDirectory env destination.parentOrHere)
      (fun _ => Innocent base) fun _ => Innocent base :=
    ensureSafeDirectory_keeps (Innocent.stable hm) Innocent.inert
      (fun _ _ _ _ _ h _ => h.step rfl fun _ _ => rfl) _
  refine .bind hdirectory fun _ => .bind (Innocent.looks hm (observe_looks _)) fun observed =>
    .bind (Innocent.looks hm (approve_looks _ _ _)) fun _ => ?_
  refine .bind (Ψ := fun temp steps fs => Made steps temp.2 ∧ Innocent base steps fs)
    (createPrivateTempIn_cases (Innocent.stable hm) (fun _ _ _ _ h => Innocent.inert _ _ _ _ h)
      (fun steps fs a b d n h hr hfree => ⟨?_, h.step rfl fun k hk => ?_⟩) 128)
    fun temp => .pure fun _ _ => id
  · have hmade := (Fs.Reaches.of_resolve hr).make (f := fun fs d n => (fs.nextInode, fs.create d n)) hfree
    exact ⟨_, List.mem_append_right _ (List.mem_singleton_self _), _, rfl, rfl, hmade⟩
  · simp [Fs.create, Fs.allocateInode, hk.ne]

end AtomicOutput

/-- The encrypted bytes go to the file that was made for them. -/
theorem writeEncrypted_innocent (hm : env.Meddles T) (password : Bytes) (filename : Str)
    (source output : Nat) :
    Runs (fun steps fs => AtomicOutput.Made steps output ∧ Innocent base steps fs)
      (writeEncrypted env password filename source output) (fun _ => Innocent base)
      fun _ => Innocent base := by
  let Φ : Assertion := fun steps fs => AtomicOutput.Made steps output ∧ Innocent base steps fs
  have hstable : env.Stable Φ := fun n steps fs h => ⟨h.1, Innocent.stable hm n steps fs h.2⟩
  refine .bind (Ψ := fun _ => Φ) (fun _ _ h => h) fun reader =>
    .bind (Ψ := fun _ => Φ) (.draw fun _ _ _ h => h) fun salt =>
    .bind (Ψ := fun _ => Φ) (.draw fun _ _ _ h => h) fun baseNonce => ?_
  refine .bind ((stream_runs (Φ := fun _ => Φ) (fun _ => hstable) (fun _ steps fs bytes h => ?_) [] _ _).post
    (fun _ _ _ ⟨_, _, _, h⟩ => h.2) fun _ _ _ ⟨_, h⟩ => h.2) fun _ => Innocent.looks hm (flush_looks _)
  refine ⟨h.1.concat, each_concat.2 ⟨h.2.1, fun k hk => ?_⟩, h.2.2⟩
  by_cases hko : k = output
  · rw [hko]
    exact h.1
  · exact absurd (if_neg hko) hk.2

/-- Until `commit` has returned, no file is altered but those the program made. -/
theorem encryptCommitted_innocent (hm : env.Meddles T) (sourcePath outputPath : Path) (password : Bytes)
    (force : Bool) :
    Runs (Innocent base) (encryptCommitted env sourcePath outputPath password force)
      (fun _ => Innocent base) fun _ => Innocent base := by
  have hhandle (source : Nat) : Looks env (shredHandle env source true) :=
    .bind (duplicate_looks _) fun _ => .bind (handleFromFile_looks _) fun _ => .pure _
  refine .bind (Innocent.looks hm (pathsReferToSameFile_looks _ _)) fun same =>
    .ite (fun _ => .fail fun _ _ => id) fun _ => ?_
  refine .bind (Innocent.looks hm (verifiedSourceFile_looks _)) fun source =>
    .bind (Innocent.looks hm (hhandle _)) fun _ => .bind (Ψ := fun _ => Innocent base)
      (.ofExcept (fun _ _ _ _ => id) fun _ _ _ _ => id) fun filename => ?_
  refine .bind (AtomicOutput.new_innocent hm _ _) fun output => ?_
  refine .bind (.onError (writeEncrypted_innocent hm _ _ _ _) fun _ => AtomicOutput.drop_innocent hm)
    fun _ => .bind (AtomicOutput.commit_innocent hm) fun committed => .pure fun _ _ => id

theorem Fs.temporary_congr (hfold : fs'.fold = fs.fold) : fs'.temporary = fs.temporary := by
  simp only [Fs.temporary, Fs.entryLoc, Fs.loc, hfold]

end

/-- Until `commit` has returned a success, no file is altered but those the
program made, and afterwards none but the source that was read, once it was found
to have one link. Another file that is moved away from the path in its place
keeps its bytes and stays linked; it goes back unless the path is taken or that
fails. On success the source was overwritten in three passes before its name was
removed. -/
def ShredsOnlySource (env : Env) (sourcePath outputPath : Path) (password : Bytes) (force : Bool)
    (w : World) : Prop :=
  Each AltersOwn ((encryptCommitted env sourcePath outputPath password force w).2.since w) ∧
  match encryptCommitted env sourcePath outputPath password force w with
  | (.error e, w₁) => encryptFileToPath env sourcePath outputPath password force true w = (.error e, w₁)
  | (.ok (i, _), w₁) =>
    let run := encryptFileToPath env sourcePath outputPath password force true w
    Each (Shred.Spared sourcePath i) (run.2.since w₁) ∧
    Shred.Returns sourcePath i (run.2.since w₁) run.2.fs ∧
    ∀ path, run.1 = .ok path → Shred.Shredded i (run.2.since w₁)

/-- Shredding hits only the file that was encrypted, whatever other processes do
with regular files, and whichever calls fail. -/
theorem encryptFileToPath_spares {env : Env} {sourcePath outputPath : Path} {password : Bytes}
    {force : Bool} {w : World} (hm : env.Meddles w.fs.temporary) :
    ShredsOnlySource env sourcePath outputPath password force w := by
  have hstart : Innocent w.fs [] w.fs := ⟨each_nil, rfl⟩
  have hcommitted : Runs (Innocent w.fs) (encryptCommitted env sourcePath outputPath password force)
      (fun _ => Innocent w.fs) fun _ => Innocent w.fs :=
    encryptCommitted_innocent hm sourcePath outputPath password force
  obtain ⟨steps, hsteps, hinnocent⟩ := hcommitted.always ⟨[], (List.append_nil _).symm, hstart⟩
  refine ⟨by rw [World.since_eq hsteps]; exact hinnocent.1, ?_⟩
  rcases hrun : encryptCommitted env sourcePath outputPath password force w with ⟨e | ⟨i, committed⟩, w₁⟩
  · rw [encryptFileToPath_shred]
    exact Eff.bind_error hrun _
  rw [hrun] at hinnocent
  have hm₁ : env.Meddles w₁.fs.temporary := by
    rw [Fs.temporary_congr hinnocent.2]
    exact hm
  have hshred : Runs (Started (Shred.Spared sourcePath i) w₁.fs sourcePath False) (do
      secureDeleteInner env sourcePath (some (.file i))
      return committed) (fun _ steps fs => Shred.Shredded i steps ∧ Shred.Done sourcePath i steps fs)
      fun _ => Shred.Done sourcePath i :=
    .bind (Shred.shredding_runs hm₁) fun _ => .pure fun _ _ => id
  have hpre : Started (Shred.Spared sourcePath i) w₁.fs sourcePath False [] w₁.fs :=
    ⟨.refl _, each_nil, by simp, nofun⟩
  rw [encryptFileToPath_shred, Eff.bind_ok hrun]
  dsimp only
  rcases hend : (do
    secureDeleteInner env sourcePath (some (.file i))
    return committed : FsM Path) w₁ with ⟨e | path, w₂⟩
  · obtain ⟨steps, hsteps, hdone⟩ := hshred.error hpre hend
    rw [World.since_eq hsteps]
    exact ⟨hdone.1, hdone.2, nofun⟩
  · obtain ⟨steps, hsteps, hshredded, hdone⟩ := hshred.ok hpre hend
    rw [World.since_eq hsteps]
    exact ⟨hdone.1, hdone.2, fun _ _ => hshredded⟩

/-! ## A source that is replaced -/

/-- `/a` -/
def nameA : Name := ⟨[97], .refl true⟩

/-- `/b` -/
def nameB : Name := ⟨[98], .refl true⟩

/-- `/c` -/
def nameC : Name := ⟨[99], .refl true⟩

/-- `/a` holds a one and `/b` a two. -/
def neighbours : World :=
  ⟨(((Fs.blank []).create [] nameA).setContent 0 [1] |>.create [] nameB).setContent 1 [2], 0, 0, []⟩

/-- Just before the quarantine, another process renames `/a` to `/c`, and `/b` to
`/a`. -/
def replacing : Env :=
  { Env.calm .checksummed with
    others := fun n fs => if n = 37 then AtomicOutput.relocate nameA nameC fs
      else if n = 38 then AtomicOutput.relocate nameB nameA fs else fs }

theorem replacing_meddles : replacing.Meddles neighbours.fs.temporary := by
  have hshort (n : Name) (hn : n.bytes.length = 1) : [n] ∉ neighbours.fs.temporary :=
    AtomicOutput.short_not_temporary (fun _ _ => rfl) hn
  intro n fs
  unfold replacing
  dsimp only
  split
  · exact AtomicOutput.relocate_meddled (hshort nameA rfl) (hshort nameC rfl)
  split
  · exact AtomicOutput.relocate_meddled (hshort nameB rfl) (hshort nameA rfl)
  · exact .refl _ _

/-- The encryption of `/a` to `/d` meanwhile. -/
def replaced : Except IronlockError Path × World :=
  encryptFileToPath replacing (.absolute [nameA]) (.absolute [⟨[100], .refl true⟩]) [] false true neighbours

/-- The file that came in the source's place is moved away and back, and neither
is overwritten. -/
theorem encryptFileToPath_spares_replaced :
    ShredsOnlySource replacing (.absolute [nameA]) (.absolute [⟨[100], rfl⟩]) [] false neighbours ∧
    replaced.1.toOption = none ∧ replaced.2.fs.node [nameA] = some (.file 1) ∧
    replaced.2.fs.node [nameC] = some (.file 0) ∧
    replaced.2.fs.content 0 = [1] ∧ replaced.2.fs.content 1 = [2] :=
  ⟨encryptFileToPath_spares replacing_meddles, by decide +kernel⟩

end Ironlock
