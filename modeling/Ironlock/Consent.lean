import Ironlock.EncryptCommand
import Ironlock.NoClobber
import Ironlock.Pipes

/-! Without `--force` and `--shred`, and without a yes at the prompt, a command
changes nothing that was there. -/

namespace Ironlock
open ByteOrder (Bytes)
open Effect
open Fs (Identity Metadata SysCall)

/-- Nobody says yes. -/
def Env.Declines (env : Env) : Prop := ∀ n, env.confirm n ≠ .ok true

/-! ## One output -/

namespace AtomicOutput

section
variable {env : Env} {destination : Path} {o : AtomicOutput} {w w' : World}

/-- What is observed is there when it is asked about. -/
theorem not_vanishes (hq : env.Quiet) (hh : env.Honest) : ¬Vanishes env destination w := by
  rintro ⟨w₁, w₂, w₃, handle, e, -, hobserve, hlook, hkind⟩
  have hfs : w₂.fs = w₁.fs := (((observe_looks destination).still hq).run hobserve).1
  obtain ⟨r, w₄, hseen, hobserve⟩ := Eff.bind_eq_ok.1 hobserve
  cases r with
  | error e =>
    simp only at hobserve
    split at hobserve <;> cases hobserve
  | ok m =>
    have hthere := (hq.try_tells look_snd hseen).1.ok
    rcases (hq.try_tells look_snd hlook).1 with hgone | ⟨e', he, hfails⟩
    · rw [hfs, hthere] at hgone
      cases hgone
    · cases he
      exact hh e hfails hkind

/-- An output that is opened unforced and unapproved has nothing to replace. -/
theorem new_unobserved (hq : env.Quiet) (hh : env.Honest) (hno : env.Declines)
    (h : AtomicOutput.new env destination false w = (.ok o, w')) : o.observedDestination = none := by
  obtain ⟨base, d, a, b, hready, -, -⟩ := new_eq_ok hq h
  cases hobserved : o.observedDestination with
  | none => rfl
  | some handle =>
    obtain ⟨n, j, -, rfl, -⟩ := hready.observed handle hobserved
    obtain ⟨-, w₁, w₂, -, -, happroved⟩ := new_approved h (.inr (not_vanishes hq hh)) hobserved
    rcases happroved with hforce | ⟨m, w₃, -, hprompt⟩
    · cases hforce
    · rw [promptConfirmation] at hprompt
      cases hanswer : env.confirm w₃.calls with
      | error e =>
        rw [hanswer] at hprompt
        cases hprompt
      | ok answer =>
        rw [hanswer] at hprompt
        cases hprompt
        exact absurd hanswer (hno _)

end

/-- All is as it was, and the temporary name is the new file's or nothing's. -/
structure Aside (o : AtomicOutput) (base : Fs) (d : List Name) (a b : UInt64) (fs : Fs) : Prop where
  spares : base.Spares fs ∅ ∅
  temp : ∀ x, fs.nodeAt (base.entryLoc d (tempName a b)) = some x → x = .file o.file

section
variable {env : Env} {o : AtomicOutput} {base fs : Fs} {d s d' : List Name} {a b : UInt64} {n : Name} {c : Bytes}
  {x : Node} {G : Fs → Prop}

theorem Ready.aside (h : o.Ready base d a b) (hw : o.Written base d a b c fs) : o.Aside base d a b fs where
  spares := written_spares h hw
  temp y hy := by
    have htemp := written_temp hw
    rw [hw.entryLoc, hy] at htemp
    exact Option.some.inj htemp

/-- What the temporary path leads to. -/
theorem Aside.source (ha : o.Aside base d a b fs) (h : o.Ready base d a b)
    (hr : fs.resolve false o.tempPath = .ok s) (hx : fs.node s = some x) :
    fs.loc s = base.entryLoc d (tempName a b) ∧ fs.nodeAt (fs.loc s) = some (.file o.file) := by
  have hnames := (h.temp_at ha.spares.keeps).reaches.resolve (.inl rfl)
  rw [hr, Except.ok.injEq] at hnames
  subst hnames
  have hloc : fs.loc (d ++ [tempName a b]) = base.entryLoc d (tempName a b) := ha.spares.keeps.loc _
  rw [Fs.node] at hx
  obtain rfl := ha.temp x (hloc ▸ hx)
  exact ⟨hloc, hx⟩

theorem Aside.move (ha : o.Aside base d a b fs) (h : o.Ready base d a b)
    (hr : fs.resolve false o.tempPath = .ok s) (hx : fs.node s = some x)
    (hnone : fs.nodeAt (fs.entryLoc d' n) = none) :
    o.Aside base d a b (fs.move (fs.loc s) (fs.loc d') n) := by
  obtain ⟨hloc, hfile⟩ := ha.source h hr hx
  rw [Fs.entryLoc_eq] at hnone
  constructor
  · refine ha.spares.move (.inr ?_) hfile hnone
    rw [hloc]
    exact h.absent
  · intro y hy
    rw [← hloc, Fs.move_nodeAt (Fs.file_ne_nil hfile) hfile, Function.update_self] at hy
    cases hy

theorem Aside.erase (ha : o.Aside base d a b fs) (h : o.Ready base d a b)
    (hr : fs.resolve false o.tempPath = .ok s) (hx : fs.node s = some x) :
    o.Aside base d a b (fs.erase (fs.loc s)) := by
  obtain ⟨hloc, hfile⟩ := ha.source h hr hx
  constructor
  · refine ha.spares.erase (.inr ?_) hfile
    rw [hloc]
    exact h.absent
  · intro y hy
    rw [← hloc, Fs.erase_nodeAt (Fs.file_ne_nil hfile), Function.update_self] at hy
    cases hy

variable (hG : ∀ fs, o.Aside base d a b fs → G fs)
include hG

theorem Ready.drop_aside (h : o.Ready base d a b) (hq : env.Quiet) :
    Runs (Along G (o.Aside base d a b)) (o.drop env) (fun _ => Along G (o.Aside base d a b))
      fun _ => Along G (o.Aside base d a b) := by
  refine .bind (Ψ := fun _ => Along G (o.Aside base d a b)) (removeFile_cases hq.stable ?_ ?_)
    fun _ => .pure fun _ _ => id
  · intro steps fs e fault hfs
    exact ⟨Runs.along_concat hfs.1 (hG _ hfs.2), hfs.2⟩
  · intro steps fs s x hfs hr hx _
    have herased := hfs.2.erase h hr hx
    exact ⟨Runs.along_concat hfs.1 (hG _ herased), herased⟩

/-- Whatever fails, an output with nothing to replace puts its file where
nothing is. -/
theorem Ready.commit_aside (h : o.Ready base d a b) (hq : env.Quiet) (hnone : o.observedDestination = none) :
    Runs (Along G (o.Aside base d a b)) (o.commit env) (fun _ => Along G (o.Aside base d a b))
      fun _ => Along G (o.Aside base d a b) := by
  let Φ : Assertion := Along G (o.Aside base d a b)
  have hlooks {α : Type} {m : FsM α} (hm : Looks env m) : Runs Φ m (fun _ => Φ) fun _ => Φ :=
    Runs.still_along (hm.still hq) hG
  have hrename : Runs Φ (installTemp env o.tempPath o.destination) (fun _ => Φ) fun _ => Φ := by
    apply installTemp_cases hq.stable (fun _ _ => id)
    · intro steps fs fault hfs
      exact ⟨Runs.along_concat hfs.1 (hG _ hfs.2), hfs.2⟩
    · intro steps fs s d' n x hfs hr hx _ _ hfree
      have hmoved := hfs.2.move h hr hx hfree
      exact ⟨Runs.along_concat hfs.1 (hG _ hmoved), hmoved⟩
  have hrest := hrename.bind fun _ => hlooks (syncParent_looks o.destination.parentOrHere)
  have hinstall : Runs Φ (o.install env) (fun _ => Φ) fun _ => Φ := by
    refine .bind (hlooks (symlinkMetadata_looks _)) fun r => ?_
    cases r with
    | ok m =>
      refine .bind (hlooks (rejectLink_looks _ _)) fun _ => ?_
      exact .bind (Ψ := fun _ => Φ) (.fail fun _ _ => id) fun _ => hrest
    | error e =>
      apply Runs.ite
      · exact fun _ => hrest
      · exact fun _ => .bind (Ψ := fun _ => Φ) (.fail fun _ _ => id) fun _ => hrest
  have hpublish : Runs Φ (o.publish env) (fun q steps fs => q = none ∧ Φ steps fs) fun _ => Φ := by
    refine .bind (hlooks (flush_looks _)) fun _ => .bind (hlooks (syncAll_looks _)) fun _ => ?_
    rw [hnone]
    exact .bind hinstall fun _ => .pure fun _ _ hfs => ⟨rfl, hfs⟩
  refine .bind (.onError hpublish fun _ => h.drop_aside hG hq) fun q => .assuming ?_
  rintro rfl
  exact .pure fun _ _ => id

end

/-- An unforced write that nobody approves changes nothing that is there. -/
theorem unforced_runs {env : Env} {C : Fs → Bytes → Prop} {body : Nat → FsM Unit} {fs₀ : Fs}
    (hq : env.Quiet) (hh : env.Honest) (hno : env.Declines) (hbody : Fills C body) (destination : Path) :
    Runs (Along (fs₀.Spares · ∅ ∅) (fs₀.Spares · ∅ ∅)) (writing env destination false body)
      (fun _ => Along (fs₀.Spares · ∅ ∅) (fs₀.Spares · ∅ ∅))
      fun _ => Along (fs₀.Spares · ∅ ∅) (fs₀.Spares · ∅ ∅) := by
  have hcreate (base : Fs) (d : List Name) (n : Name) (hbase : fs₀.Spares base ∅ ∅)
      (hnone : base.nodeAt (base.entryLoc d n) = none) :
      fs₀.Spares (base.create (base.loc d) n) ∅ ∅ := by
    rw [Fs.entryLoc_eq] at hnone
    exact hbase.trans (.create hnone)
  have hnew := AtomicOutput.new_runs hq (.spares fs₀ ∅ ∅) hcreate destination false
  refine .bind (hnew.result fun w o w' _ hopened => new_unobserved hq hh hno hopened) fun o =>
    .assuming fun hnone => .along_exists fun base => .along_exists fun d => .along_exists fun a =>
    .along_exists fun b => .along_assuming fun hbase => .along_assuming fun h => .along_assuming fun _ => ?_
  have haside : ∀ fs, o.Aside base d a b fs → fs₀.Spares fs ∅ ∅ := fun fs ha => hbase.trans ha.spares
  have hend (e : IronlockError) : Runs (Along (fs₀.Spares · ∅ ∅) fun fs => ∃ c, o.Written base d a b c fs)
      (o.drop env) (fun _ => Along (fs₀.Spares · ∅ ∅) (fs₀.Spares · ∅ ∅))
      fun _ => Along (fs₀.Spares · ∅ ∅) (fs₀.Spares · ∅ ∅) := by
    refine (h.drop_aside haside hq).consequence ?_ (fun _ _ _ hfs => ⟨hfs.1, haside _ hfs.2⟩)
      fun _ _ _ hfs => ⟨hfs.1, haside _ hfs.2⟩
    rintro steps fs ⟨hall, c, hw⟩
    exact ⟨hall, h.aside hw⟩
  have hfill := hbody (fs₀.Spares · ∅ ∅) o base d a b h fun c fs hw => haside _ (h.aside hw)
  refine .pre (.bind (.onError hfill hend) fun _ => ?_) ?_
  · refine (h.commit_aside haside hq hnone).consequence ?_ (fun _ _ _ hfs => ⟨hfs.1, haside _ hfs.2⟩)
      fun _ _ _ hfs => ⟨hfs.1, haside _ hfs.2⟩
    rintro steps fs ⟨hall, c, -, hw⟩
    exact ⟨hall, h.aside hw⟩
  · rintro steps fs ⟨hall, rfl⟩
    exact ⟨hall, h.created⟩

end AtomicOutput

/-! ## Batches -/

section
variable {env : Env} {password : Bytes} {w w' : World} {g g' : DecryptionBatchGuard}
  {results : List (Except IronlockError Path)} {r : Except IronlockError Path}

theorem AtomicOutput.writing_unforced {C : Fs → Bytes → Prop} {body : Nat → FsM Unit} {destination : Path}
    (hq : env.Quiet) (hh : env.Honest) (hno : env.Declines) (hbody : AtomicOutput.Fills C body)
    (h : AtomicOutput.writing env destination false body w = (r, w')) : w.Spares w' ∅ ∅ := by
  have hrun : Runs (Along (w.fs.Spares · ∅ ∅) (w.fs.Spares · ∅ ∅))
      (AtomicOutput.writing env destination false body)
      (fun _ => Along (w.fs.Spares · ∅ ∅) fun fs => w.fs.Spares fs ∅ ∅ ∧ True)
      fun _ => Along (w.fs.Spares · ∅ ∅) (w.fs.Spares · ∅ ∅) :=
    (AtomicOutput.unforced_runs hq hh hno hbody destination).post (fun _ _ _ hfs => ⟨hfs.1, hfs.2, trivial⟩)
      fun _ _ _ => id
  exact (Runs.spares hrun h).1

theorem encryptFileToPath_unforced (hq : env.Quiet) (hh : env.Honest) (hno : env.Declines)
    {source output : Path} (h : encryptFileToPath env source output password false false w = (r, w')) :
    w.Spares w' ∅ ∅ := by
  rw [encryptFileToPath_eq] at h
  rcases hopen : encryptionSource env source output false w with ⟨e | ⟨j, handle, filename⟩, w₁⟩
  · rw [Eff.bind_error hopen] at h
    cases h
    exact .of_still ((encryptionSource_looks.still hq).run hopen)
  rw [Eff.bind_ok hopen] at h
  have hstill := (encryptionSource_looks.still hq).run hopen
  rcases hwrite : AtomicOutput.writing env output false (writeEncrypted env password filename j) w₁ with
    ⟨e | committed, w₂⟩
  · have hend := (Eff.bind_error hwrite _).symm.trans h
    cases hend
    exact (World.Spares.of_still hstill).trans
      (AtomicOutput.writing_unforced hq hh hno (writeEncrypted_fills hq password filename j) hwrite)
  · have hend := (Eff.bind_ok hwrite _).symm.trans h
    cases hend
    exact (World.Spares.of_still hstill).trans
      (AtomicOutput.writing_unforced hq hh hno (writeEncrypted_fills hq password filename j) hwrite)

theorem decryptFile_unforced (hq : env.Quiet) (hh : env.Honest) (hno : env.Declines) {source : Path}
    {outputDir : Option Path}
    (h : decryptFileToPathGuarded env source password outputDir false (w, g) = (r, (w', g'))) :
    w.Spares w' ∅ ∅ := by
  rw [decryptFile_eq] at h
  rcases hopen : openEncrypted env source password w with ⟨e | ⟨d, reader⟩, w₁⟩
  · simp only [Eff.bind_apply, GuardM.lift_apply, hopen] at h
    cases h
    exact .of_still ((openEncrypted_looks.still hq).run hopen)
  have hstill₁ := (openEncrypted_looks.still hq).run hopen
  rcases hpath : decryptedPath env source outputDir d.filename w₁ with ⟨e | output, w₂⟩ <;>
    have hspares₂ := (World.Spares.of_still hstill₁).trans
      (Runs.spares (decryptedPath_runs hq (.spares w₁.fs ∅ ∅) outputDir d.filename) hpath).1
  · simp only [Eff.bind_apply, GuardM.lift_apply, hopen, hpath] at h
    cases h
    exact hspares₂
  have hreserve := DecryptionBatchGuard.reserve_spec hq hh source output (w := w₂) (g := g)
    (w₂, g) ⟨rfl, refl_of Still w₂⟩
  rcases hres : DecryptionBatchGuard.reserve env source output (w₂, g) with ⟨e | _, w₃, g₃⟩ <;>
    rw [hres] at hreserve
  · simp only [Eff.bind_apply, GuardM.lift_apply, hopen, hpath, hres] at h
    cases h
    exact hspares₂.trans (.of_still hreserve.2)
  simp only [Eff.bind_apply, GuardM.lift_apply, hopen, hpath, hres, Prod.mk.injEq] at h
  obtain ⟨hr, hw', -⟩ := h
  exact (hspares₂.trans (.of_still hreserve.1)).trans
    (AtomicOutput.writing_unforced hq hh hno (writeDecrypted_fills hq d reader) (Prod.ext hr hw'))

theorem encryptPlans_unforced (hq : env.Quiet) (hh : env.Honest) (hno : env.Declines)
    {plans : List EncryptionPlan} (h : encryptPlans env password false false plans w = (.ok results, w')) :
    w.Spares w' ∅ ∅ := by
  induction plans generalizing w results with
  | nil =>
    cases h
    exact .refl _ _ _
  | cons plan plans ih =>
    obtain ⟨r, w₁, hfirst, h⟩ := Eff.bind_eq_ok.1 h
    obtain ⟨rest, w₂, hrest, h⟩ := Eff.bind_eq_ok.1 h
    cases h
    rw [Eff.attempt, Prod.mk.injEq, Except.ok.injEq] at hfirst
    have hspares := encryptFileToPath_unforced hq hh hno (Prod.ext hfirst.1 hfirst.2)
    exact hspares.trans (ih hrest)

theorem decryptPlans_unforced (hq : env.Quiet) (hh : env.Honest) (hno : env.Declines)
    {plans : List DecryptionPlan}
    (h : decryptPlans env password false plans (w, g) = (.ok results, (w', g'))) : w.Spares w' ∅ ∅ := by
  induction plans generalizing w g results with
  | nil =>
    cases h
    exact .refl _ _ _
  | cons plan plans ih =>
    obtain ⟨r, ⟨w₁, g₁⟩, rest, hfirst, hrest, rfl⟩ := decryptPlans_cons h
    exact (decryptFile_unforced hq hh hno hfirst).trans (ih hrest)

end

/-! ## Commands -/

/-- The command was given neither `--force` nor `--shred`. -/
def Commands.Gentle : Commands → Prop
  | .encrypt _ force shred _ => force = false ∧ shred = false
  | .decrypt _ _ force _ => force = false

section
variable {env : Env} {console : Console} {password : Bytes} {s t : Session} {code : Nat}

/-- No system call was made on a file. -/
structure Session.Uncalled (s t : Session) : Prop where
  fs : t.world.fs = s.world.fs
  steps : t.world.steps = s.world.steps

instance : IsPreorder Session Session.Uncalled where
  refl _ := ⟨rfl, rfl⟩
  trans _ _ _ h h' := ⟨h'.fs.trans h.fs, h'.steps.trans h.steps⟩

theorem Session.Uncalled.still (h : s.Uncalled t) : Still s.world t.world :=
  ⟨h.fs, [], by rw [h.steps, List.append_nil], by simp⟩

theorem Prompted.uncalled (s t : Session) (h : Prompted s t) : s.Uncalled t := by
  constructor <;> rw [h.world]

theorem disk_draw_uncalled {α : Type} (f : Nat → α) :
    Within Session.Uncalled (SessionM.disk (Sys.draw f)) := by
  intro s
  rw [disk_draw]
  exact ⟨rfl, rfl⟩

theorem stdio_uncalled {α : Type} (m : StreamM α) : Within Session.Uncalled (SessionM.stdio console m) :=
  fun _ => ⟨rfl, rfl⟩

theorem flushStdout_uncalled : Within Session.Uncalled (SessionM.flushStdout console) := by
  intro s
  have hsame : (SessionM.flushStdout console s).2 = s := flushStdout_state rfl
  rw [hsame]
  exact refl_of Session.Uncalled s

theorem encryptStdin_uncalled : Within Session.Uncalled (encryptStdin env console password) :=
  .bind (disk_draw_uncalled _) fun _ => .bind (disk_draw_uncalled _) fun _ => .bind (stdio_uncalled _) fun _ =>
    flushStdout_uncalled

theorem decryptStdin_uncalled : Within Session.Uncalled (decryptStdin env console password) :=
  .bind (stdio_uncalled _) fun _ => flushStdout_uncalled

/-- Standard input and output are no files on the disk. -/
theorem main_stdin_uncalled {command : Commands}
    (hcommand : (∃ force shred progress, command = .encrypt [] force shred progress) ∨
      ∃ output force progress, command = .decrypt [] output force progress)
    (h : main env console command s = (code, t)) : s.Uncalled t := by
  have hrun : Within Session.Uncalled (run env console command) := by
    obtain ⟨force, shred, progress, rfl⟩ | ⟨output, force, progress, rfl⟩ := hcommand
    · rw [run_encrypt_nil]
      exact .bind (prepareEncryptStdin_prompted.mono Prompted.uncalled) fun _ => encryptStdin_uncalled
    · rw [run_decrypt_nil]
      exact .bind (prepareDecryptStdin_prompted.mono Prompted.uncalled) fun _ => decryptStdin_uncalled
  unfold main at h
  rcases hr : run env console command s with ⟨e | _, t'⟩ <;>
    have huncalled : s.Uncalled t' := hrun.run hr
  · rw [hr] at h
    cases h
    exact ⟨huncalled.fs, huncalled.steps⟩
  · rw [hr] at h
    cases h
    exact huncalled

end

/-- Nothing fails, and every prompt is answered with no. -/
def Env.refusing (C : Crates) : Env := { Env.calm C with confirm := fun _ => .ok false }

/-- The file `/a`, and a file where its encryption would go. -/
def takenA : World := { textA with fs := (textA.fs.create [] ⟨[97, 46, 105, 108], .refl true⟩).setContent 1 [7] }

end Ironlock
