import Ironlock.DecryptionBatch
import Ironlock.Restoration

/-! A decrypted file can be seen only when the whole of its stream has been
verified. -/

namespace Ironlock
open ByteOrder (Bytes)
open Effect
open Fs (Identity Metadata SysCall)

/-! ## New directories -/

/-- What is new is directories, and everything else is as it was. -/
structure Fs.OnlyDirs (fs fs' : Fs) : Prop where
  spares : fs.Spares fs' ∅ ∅
  dirs : ∀ l x, fs'.nodeAt l = some x → fs.nodeAt l = some x ∨ x = .dir

namespace Fs.OnlyDirs

variable {fs fs' fs'' : Fs} {p : Path} {i : Nat}

theorem refl (fs : Fs) : fs.OnlyDirs fs := ⟨.refl fs ∅ ∅, fun _ _ => .inl⟩

theorem trans (h : fs.OnlyDirs fs') (h' : fs'.OnlyDirs fs'') : fs.OnlyDirs fs'' where
  spares := h.spares.trans h'.spares
  dirs := by
    intro l x hx
    rcases h'.dirs l x hx with hx | rfl
    · exact h.dirs l x hx
    · exact .inr rfl

theorem of_still {w w' : World} (h : Still w w') : w.fs.OnlyDirs w'.fs := by
  rw [h.1]
  exact refl _

theorem mkdir {l : Loc} {n : Name} (h : fs.nodeAt (l ++ [fs.fold l n]) = none) :
    fs.OnlyDirs (fs.mkdir l n) where
  spares := .mkdir h
  dirs := by
    intro k x hx
    rw [mkdir_nodeAt] at hx
    by_cases hk : k = l ++ [fs.fold l n]
    · subst hk
      rw [Function.update_self] at hx
      cases hx
      exact .inr rfl
    · rw [Function.update_of_ne hk] at hx
      exact .inl hx

/-- A file is where it was, with its bytes. -/
theorem isFile (h : fs.OnlyDirs fs') (hf : fs.IsFile p i) :
    fs'.IsFile p i ∧ fs'.content i = fs.content i := by
  obtain ⟨names, hr, hx⟩ := hf
  refine ⟨⟨names, h.spares.keeps.resolve hr, ?_⟩, h.spares.content i (nodeAt_lt hx) id⟩
  rw [Fs.node, h.spares.keeps.loc]
  exact h.spares.nodes _ _ id hx

/-- A file that is there was there. -/
theorem file_old (h : fs.OnlyDirs fs') {l : Loc} (hf : fs'.nodeAt l = some (.file i)) :
    fs.nodeAt l = some (.file i) := by
  rcases h.dirs l _ hf with hx | hx
  · exact hx
  · cases hx

end Fs.OnlyDirs

theorem Growing.onlyDirs (fs₀ : Fs) : Growing (fun _ => True) fs₀.OnlyDirs := by
  constructor
  · intro _ _
    trivial
  · intro fs d n hfs hnone
    rw [Fs.entryLoc_eq] at hnone
    exact hfs.trans (.mkdir hnone)

namespace AtomicOutput

section
variable {env : Env} {o : AtomicOutput} {w w' : World} {base fs : Fs} {d : List Name} {a b : UInt64}
  {c : Bytes} {p : Path} {r : Except IronlockError Unit}

theorem Undone.onlyDirs (h : Undone base c fs) : base.OnlyDirs fs where
  spares := by
    constructor
    · exact h.keeps
    · exact h.nextInode.le
    · intro l x _ hx
      rw [h.nodeAt, hx]
    · intro i hi _
      rw [h.content, if_neg hi.ne]
  dirs := by
    intro l x hx
    rw [h.nodeAt] at hx
    exact .inl hx

/-- Dropping an output undoes it, unless its removal was made to fail. -/
theorem Ready.drop_undone (h : o.Ready base d a b) (hq : env.Quiet) (hw : o.Written base d a b c w.fs)
    (hdrop : o.drop env w = (r, w'))
    (hclean : ∀ s ∈ w'.since w, ∀ p, s.call = .removeFile p → s.fault = none) :
    Undone base c w'.fs := by
  let Removed : Assertion := fun steps fs =>
    (∀ s ∈ steps, ∀ p, s.call = .removeFile p → s.fault = none) → Undone base c fs
  have hrun : Runs (fun steps fs => steps = [] ∧ o.Written base d a b c fs) (o.drop env)
      (fun _ => Removed) fun _ => Removed := by
    refine .bind (Ψ := fun _ => Removed) (removeFile_runs hq.stable
      (fun _ _ hfs => (h.temp_at hfs.2.keeps).reaches) (fun _ _ hfs => .inr ⟨_, written_temp hfs.2⟩) ?_ ?_ ?_)
      fun _ => .pure fun _ _ => id
    · rintro steps fs e ⟨rfl, -⟩ _ hall
      exact absurd (hall _ List.mem_cons_self _ rfl) nofun
    · rintro steps fs ⟨-, hfs⟩ hnone
      rw [written_temp hfs] at hnone
      cases hnone
    · rintro steps fs i ⟨-, hfs⟩ - -
      exact h.written_drop hfs
  cases r with
  | ok u =>
    obtain ⟨steps, hsteps, hremoved⟩ := hrun.ok ⟨rfl, hw⟩ hdrop
    rw [World.since_eq hsteps] at hclean
    exact hremoved hclean
  | error e =>
    obtain ⟨steps, hsteps, hremoved⟩ := hrun.error ⟨rfl, hw⟩ hdrop
    rw [World.since_eq hsteps] at hclean
    exact hremoved hclean

/-- What is committed is a name in the directory. -/
theorem Ready.commit_at (h : o.Ready base d a b) (hq : env.Quiet) (hw : o.Written base d a b c w.fs)
    (hcommit : o.commit env w = (.ok p, w')) : ∃ n, base.At o.destination d n := by
  obtain ⟨q, w₁, hpublish, -⟩ := Eff.bind_eq_ok.1 hcommit
  obtain ⟨_, w₂, hflush, hpublish⟩ := Eff.bind_eq_ok.1 (Eff.onError_eq_ok.1 hpublish)
  obtain ⟨_, w₃, hsync, hpublish⟩ := Eff.bind_eq_ok.1 hpublish
  rcases hobs : o.observedDestination with _ | handle
  · by_contra hno
    simp only [hobs] at hpublish
    obtain ⟨_, w₄, hinstall, -⟩ := Eff.bind_eq_ok.1 hpublish
    obtain ⟨looked, w₅, hlook, hinstall⟩ := Eff.bind_eq_ok.1 hinstall
    have hfs : w₅.fs = w.fs := by
      rw [(((symlinkMetadata_looks _).still hq).run hlook).1, (((syncAll_looks _).still hq).run hsync).1,
        (((flush_looks _).still hq).run hflush).1]
    have hwritten : o.Early (o.Written base d a b c) [] w₅.fs := ⟨by simp [Late], hfs ▸ hw⟩
    cases looked with
    | ok m =>
      obtain ⟨_, w₆, -, hinstall⟩ := Eff.bind_eq_ok.1 hinstall
      cases hinstall
    | error e =>
      simp only at hinstall
      split at hinstall
      · obtain ⟨_, w₆, hrename, -⟩ := Eff.bind_eq_ok.1 hinstall
        obtain ⟨steps, -, hfalse⟩ := (h.installTemp_refused hq (not_exists.1 hno)
          (Ψ := fun _ _ _ => False)).ok hwritten hrename
        exact hfalse
      · cases hinstall
  · obtain ⟨n, _, hat, -⟩ := h.observed handle hobs
    exact ⟨n, hat⟩

/-- A commit that succeeds leaves the destination with what was written. -/
theorem Ready.commit_eq_ok (h : o.Ready base d a b) (hq : env.Quiet)
    (hw : o.Written base d a b c w.fs) (hcommit : o.commit env w = (.ok p, w')) :
    p = o.destination ∧ ∃ n, base.At o.destination d n ∧ o.Installed base d n c w'.fs := by
  obtain ⟨n, hat⟩ := h.commit_at hq hw hcommit
  obtain ⟨_, -, -, hp, hi⟩ := (h.commit_runs (G := fun _ => True) (fun _ _ => trivial) hq hat).ok
    ⟨by simp, hw⟩ hcommit
  exact ⟨hp, n, hat, hi⟩

end

end AtomicOutput

/-! ## Runs of a decryption -/

/-- `decrypt_file_to_path_inner` up to the opening of its output: what it
decrypts with, and into. -/
def openDecryption (env : Env) (guarded : Bool) (source : Path) (password : Bytes)
    (outputDir : Option Path) (force : Bool) :
    GuardM (StreamDecryptor × Reader × AtomicOutput) := do
  let (decryptor, reader) ← GuardM.lift (openEncrypted env source password)
  let outputPath ← GuardM.lift (decryptedPath env source outputDir decryptor.filename)
  reserveOutput env guarded source outputPath
  let output ← GuardM.lift (AtomicOutput.new env outputPath force)
  return (decryptor, reader, output)

/-- In the run that starts here `StreamDecryptor::new` or `decrypt_to` fails. -/
inductive StreamFails (env : Env) (guarded : Bool) (source : Path) (password : Bytes)
    (outputDir : Option Path) (force : Bool) (w : World) (g : DecryptionBatchGuard) : Prop
  | new {i : Nat} {m : Metadata} {reader : Reader} {e : IronlockError} {w₁ w₂ w₃ : World}
      (encrypted : source.encrypted = true)
      (verified : verifiedSourceFile env source w = (.ok (i, m), w₁))
      (opened : Sys.reader env i w₁ = (.ok reader, w₂))
      (fails : Sys.readStream reader (StreamDecryptor.new env.crates password) w₂ = (.error e, w₃))
  | decryptTo {d : StreamDecryptor} {reader : Reader} {o : AtomicOutput} {g₁ : DecryptionBatchGuard}
      {e : IronlockError} {w₁ w₂ : World}
      (opened : openDecryption env guarded source password outputDir force (w, g) =
        (.ok (d, reader, o), (w₁, g₁)))
      (fails : Sys.stream env reader o.file (d.decryptTo env.crates) w₁ = (.error e, w₂))

section
variable {env : Env} {guarded : Bool} {source : Path} {password : Bytes} {outputDir : Option Path}
  {force : Bool} {w w' w₁ : World} {g g' g₁ : DecryptionBatchGuard} {d : StreamDecryptor}
  {reader : Reader} {o : AtomicOutput} {r : Except IronlockError Path}

theorem decryptFileToPathInner_eq (env : Env) (guarded : Bool) (source : Path) (password : Bytes)
    (outputDir : Option Path) (force : Bool) :
    decryptFileToPathInner env guarded source password outputDir force = (do
      let (d, reader, o) ← openDecryption env guarded source password outputDir force
      GuardM.lift (Eff.onError (writeDecrypted env d reader o.file) (o.drop env))
      GuardM.lift (o.commit env)) := by
  simp only [decryptFileToPathInner, decryptFileToPathVia, openDecryption, bind_assoc, pure_bind]

theorem reserveOutput_still (hq : env.Quiet) (output : Path) :
    Within GuardStill (reserveOutput env guarded source output) :=
  .ite (DecryptionBatchGuard.reserve_still hq _ _) (.pure _)

/-- An output that has been opened for a decryption is new, and all else is as
it was but for the directories that were missing. -/
theorem openDecryption_eq_ok (hq : env.Quiet)
    (h : openDecryption env guarded source password outputDir force (w, g) =
      (.ok (d, reader, o), (w₁, g₁))) :
    w.steps <+: w₁.steps ∧ ∃ base names a b, w.fs.OnlyDirs base ∧ o.Ready base names a b ∧
      o.Written base names a b [] w₁.fs := by
  obtain ⟨⟨d, reader⟩, ⟨w₂, g₂⟩, hopen, h⟩ := Eff.bind_eq_ok.1 h
  obtain ⟨output, ⟨w₃, g₃⟩, hpath, h⟩ := Eff.bind_eq_ok.1 h
  obtain ⟨_, ⟨w₄, g₄⟩, hreserve, h⟩ := Eff.bind_eq_ok.1 h
  obtain ⟨_, ⟨w₅, g₅⟩, hnew, h⟩ := Eff.bind_eq_ok.1 h
  cases h
  have hgrow := Growing.onlyDirs w.fs
  have hstill₂ := (openEncrypted_looks.still hq).run (GuardM.lift_eq.1 hopen).1
  obtain ⟨steps₃, hsteps₃, -, hdirs₃, -⟩ := (decryptedPath_runs hq hgrow outputDir d.filename).ok
    ⟨by simp, .of_still hstill₂⟩ (GuardM.lift_eq.1 hpath).1
  have hstill₄ : Still w₃ w₄ := (reserveOutput_still hq output).run hreserve
  have hdirs₄ : w.fs.OnlyDirs w₄.fs := hdirs₃.trans (.of_still hstill₄)
  obtain ⟨steps₅, hsteps₅, -, base, names, a, b, hbase, hready, -, hw⟩ :=
    (AtomicOutput.new_runs hq hgrow (fun _ _ _ _ _ => trivial) output force).ok
      ⟨by simp, hdirs₄⟩ (GuardM.lift_eq.1 hnew).1
  obtain ⟨-, steps₂, hsteps₂, -⟩ := hstill₂
  obtain ⟨-, steps₄, hsteps₄, -⟩ := hstill₄
  refine ⟨?_, base, names, a, b, hbase, hready, hw ▸ hready.created⟩
  rw [hsteps₅, hsteps₄, hsteps₃, hsteps₂]
  simp only [List.append_assoc]
  exact List.prefix_append ..

/-- A stream that fails is undone, but for the directories that were made for
its output. -/
theorem streamFails_undone (hq : env.Quiet)
    (hfails : StreamFails env guarded source password outputDir force w g)
    (h : decryptFileToPathInner env guarded source password outputDir force (w, g) = (r, (w', g')))
    (hclean : ∀ s ∈ w'.since w, ∀ p, s.call = .removeFile p → s.fault = none) :
    (∃ e, r = .error e) ∧ w.fs.OnlyDirs w'.fs := by
  rw [decryptFileToPathInner_eq] at h
  cases hfails with
  | @new i m reader e w₁ w₂ w₃ hencrypted hverified hopened hnew =>
    have hopen : openEncrypted env source password w = (.error e, w₃) := by
      rw [openEncrypted, if_neg (by simp [hencrypted]), Eff.bind_ok hverified]
      exact (Eff.bind_ok hopened _).trans hnew
    have hstart : openDecryption env guarded source password outputDir force (w, g) =
        (.error e, (w₃, g)) := Eff.bind_error (GuardM.lift_eq.2 ⟨hopen, rfl⟩) _
    rw [Eff.bind_error hstart] at h
    cases h
    exact ⟨⟨e, rfl⟩, .of_still ((openEncrypted_looks.still hq).run hopen)⟩
  | @decryptTo d reader o g₁ e w₁ w₂ hopened hstream =>
    obtain ⟨hpre, base, names, a, b, hbase, hready, hwritten⟩ := openDecryption_eq_ok hq hopened
    obtain ⟨steps₂, hsteps₂, -, c, hw₂⟩ := (hready.stream_runs (G := fun _ => True) hq
      (fun _ _ _ => trivial) reader (d.decryptTo env.crates)).error ⟨by simp, hwritten⟩ hstream
    have hwrite : writeDecrypted env d reader o.file w₁ = (.error e, w₂) := Eff.bind_error hstream _
    have hdrop : GuardM.lift (Eff.onError (writeDecrypted env d reader o.file) (o.drop env)) (w₁, g₁) =
        (.error e, ((o.drop env w₂).2, g₁)) := GuardM.lift_eq.2 ⟨Eff.onError_error hwrite, rfl⟩
    rw [Eff.bind_ok hopened] at h
    cases (Eff.bind_error hdrop _).symm.trans h
    refine ⟨⟨e, rfl⟩, hbase.trans (AtomicOutput.Undone.onlyDirs (c := c) ?_)⟩
    refine hready.drop_undone hq hw₂ rfl fun s hs => hclean s (World.since_subset ?_ _ hs)
    exact hpre.trans (hsteps₂ ▸ List.prefix_append ..)

theorem Sys.stream_eq_ok {α : Type} {i : Nat} {m : StreamM α} {x : α}
    (h : Sys.stream env reader i m w = (.ok x, w')) :
    ∃ s', m ⟨reader, ⟨env.accepts w.calls, []⟩, []⟩ = (.ok x, s') ∧
      Sys.appendAll env i s'.writer.portions w = (.ok (), w') := by
  rcases hm : m ⟨reader, ⟨env.accepts w.calls, []⟩, []⟩ with ⟨result, s'⟩
  unfold Sys.stream at h
  simp only [hm] at h
  obtain ⟨_, w₁, happend, h⟩ := Eff.bind_eq_ok.1 h
  cases h
  exact ⟨s', rfl, happend⟩

/-- A decryption that succeeds has run `decrypt_to` to its end, and what it
wrote is at the path. -/
theorem decryptFileToPathInner_eq_ok (hq : env.Quiet) {p : Path}
    (h : decryptFileToPathInner env guarded source password outputDir force (w, g) =
      (.ok p, (w', g'))) :
    ∃ d reader o w₁ g₁ m s i,
      openDecryption env guarded source password outputDir force (w, g) =
        (.ok (d, reader, o), (w₁, g₁)) ∧
      d.decryptTo env.crates ⟨reader, ⟨env.accepts w₁.calls, []⟩, []⟩ = (.ok m, s) ∧
      w'.fs.IsFile p i ∧ w'.fs.content i = s.writer.written := by
  rw [decryptFileToPathInner_eq] at h
  obtain ⟨⟨d, reader, o⟩, ⟨w₁, g₁⟩, hopened, h⟩ := Eff.bind_eq_ok.1 h
  obtain ⟨_, ⟨w₂, g₂⟩, hwrite, hcommit⟩ := Eff.bind_eq_ok.1 h
  obtain ⟨m, w₃, hstream, hflush⟩ :=
    Eff.bind_eq_ok.1 (Eff.onError_eq_ok.1 (GuardM.lift_eq.1 hwrite).1)
  obtain ⟨s, hdecrypt, happend⟩ := Sys.stream_eq_ok hstream
  obtain ⟨-, base, names, a, b, -, hready, hwritten⟩ := openDecryption_eq_ok hq hopened
  have hw₂ : o.Written base names a b s.writer.written w₂.fs := by
    rw [(((flush_looks _).still hq).run hflush).1]
    exact hready.appendAll_eq_ok hq hwritten happend
  obtain ⟨rfl, n, hat, hinstalled⟩ := hready.commit_eq_ok hq hw₂ (GuardM.lift_eq.1 hcommit).1
  refine ⟨d, reader, o, w₁, g₁, m, s, o.file, hopened, hdecrypt, ⟨names ++ [n], ?_, ?_⟩, ?_⟩
  · exact (hat.keep hinstalled.keeps).resolve (.inl rfl)
  · exact AtomicOutput.Ready.installed_dest hinstalled
  · rw [hinstalled.content, hready.file, if_pos rfl]

end

/-- When `StreamDecryptor::new` or `decrypt_to` fails and the removal of the
temporary file does not, all is as it was but for directories that were
missing. When the call succeeds its path holds what `decrypt_to` wrote. -/
theorem decryption_verified {env : Env} (hq : env.Quiet) {guarded : Bool} {source : Path}
    {password : Bytes} {outputDir : Option Path} {force : Bool} {w w' : World}
    {g g' : DecryptionBatchGuard} {r : Except IronlockError Path}
    (h : decryptFileToPathInner env guarded source password outputDir force (w, g) = (r, (w', g'))) :
    (StreamFails env guarded source password outputDir force w g →
      (∀ s ∈ w'.since w, ∀ p, s.call = .removeFile p → s.fault = none) →
      (∃ e, r = .error e) ∧ w.fs.OnlyDirs w'.fs ∧
        ∀ p i, w.fs.IsFile p i → w'.fs.IsFile p i ∧ w'.fs.content i = w.fs.content i) ∧
    ∀ p, r = .ok p → ∃ d reader o w₁ g₁ m s i,
      openDecryption env guarded source password outputDir force (w, g) =
        (.ok (d, reader, o), (w₁, g₁)) ∧
      d.decryptTo env.crates ⟨reader, ⟨env.accepts w₁.calls, []⟩, []⟩ = (.ok m, s) ∧
      w'.fs.IsFile p i ∧ w'.fs.content i = s.writer.written := by
  constructor
  · intro hfails hclean
    obtain ⟨he, hdirs⟩ := streamFails_undone hq hfails h hclean
    exact ⟨he, hdirs, fun _ _ => hdirs.isFile⟩
  · rintro p rfl
    exact decryptFileToPathInner_eq_ok hq h

/-- `a.il` without its last byte. -/
def truncatedA : World :=
  { encryptedA with fs := encryptedA.fs.setContent 0 (encryptedA.fs.content 0).dropLast }

/-- The decryption of `a.il` into the working directory. -/
def decryptionA (w : World) : Except IronlockError Path × World × DecryptionBatchGuard :=
  decryptFileToPathInner (Env.calm .checksummed) true decryptA.source [112, 119] none true (w, guardA)

theorem decryptionA_eq (w : World) : decryptFileToPathInner (Env.calm .checksummed) true
    decryptA.source [112, 119] none true (w, guardA) =
      ((decryptionA w).1, ((decryptionA w).2.1, (decryptionA w).2.2)) := rfl

/-- Whether `decrypt_to` succeeds there, into the output that has been opened. -/
def streamedA (w : World) : Option Bool :=
  match openDecryption (Env.calm .checksummed) true decryptA.source [112, 119] none true
    (w, guardA) with
  | (.ok (d, reader, o), (w₁, _)) =>
    some (Sys.stream (Env.calm .checksummed) reader o.file (d.decryptTo .checksummed) w₁).1.isOk
  | (.error _, _) => none

theorem truncatedA_fails : StreamFails (Env.calm .checksummed) true decryptA.source [112, 119] none
    true truncatedA guardA := by
  have hstreamed : streamedA truncatedA = some false := by decide +kernel
  unfold streamedA at hstreamed
  rcases hopened : openDecryption (Env.calm .checksummed) true decryptA.source [112, 119] none true
    (truncatedA, guardA) with ⟨e | ⟨d, reader, o⟩, w₁, g₁⟩
  · rw [hopened] at hstreamed
    cases hstreamed
  · rw [hopened] at hstreamed
    rcases hstream : Sys.stream (Env.calm .checksummed) reader o.file (d.decryptTo .checksummed) w₁
      with ⟨e | m, w₂⟩
    · exact .decryptTo hopened hstream
    · simp only [hstream] at hstreamed
      cases hstreamed

/-- Without its last byte `a.il` is decrypted to no file; with it the three
bytes are written. -/
theorem decryption_verified_a :
    ((decryptionA truncatedA).1.isOk = false ∧ truncatedA.fs.OnlyDirs (decryptionA truncatedA).2.1.fs) ∧
    (decryptionA encryptedA).1 = .ok decryptedA ∧
      ∃ i, (decryptionA encryptedA).2.1.fs.IsFile decryptedA i := by
  constructor
  · obtain ⟨hfails, -⟩ := decryption_verified (Env.calm_quiet _) (decryptionA_eq truncatedA)
    have hnone : ((decryptionA truncatedA).2.1.since truncatedA).all (·.fault.isNone) = true := by
      decide +kernel
    obtain ⟨⟨e, he⟩, hdirs, -⟩ := hfails truncatedA_fails fun s hs _ _ =>
      Option.isNone_iff_eq_none.1 (List.all_eq_true.1 hnone s hs)
    rw [he]
    exact ⟨rfl, hdirs⟩
  · have hok : (decryptionA encryptedA).1 = .ok decryptedA := by decide +kernel
    obtain ⟨-, hwritten⟩ := decryption_verified (Env.calm_quiet _) (decryptionA_eq encryptedA)
    obtain ⟨_, _, _, _, _, _, _, i, -, -, hfile, -⟩ := hwritten decryptedA hok
    exact ⟨hok, i, hfile⟩

end Ironlock
