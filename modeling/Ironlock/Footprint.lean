import Ironlock.Consent

/-! The footprint of a command: what one of its system calls can do to the disk,
whatever fails and whatever other processes do between the calls. -/

namespace Ironlock
open ByteOrder (Bytes)
open Effect
open Fs (Identity Metadata SysCall)

/-- The paths that a run may put a file to, and those that it may shred. -/
structure Scope where
  outputs : Set Path
  shredded : Set Path

/-- A path that a run may take a file from or put one to. -/
def Scope.Has (scope : Scope) (p : Path) : Prop := p ∈ scope.outputs ∨ p ∈ scope.shredded

/-- A temporary name beside a path. -/
def Path.Hides (p q : Path) : Prop := ∃ a b, q = p.parentOrHere.push (.name (tempName a b))

/-- The call opened the file for writing, under a temporary name beside the path. -/
def Step.OpensHidden (s : Step) (p : Path) (i : Nat) : Prop :=
  ∃ q, p.Hides q ∧ s.call = .openWrite q ∧ (s.before.openWriteNofollow q).1 = .ok (.file i)

/-- The run made the file, or opened it where it had hidden a path to shred. -/
def Scope.Writes (scope : Scope) (front : List Step) (i : Nat) : Prop :=
  AtomicOutput.Made front i ∨ ∃ s ∈ front, ∃ p ∈ scope.shredded, s.OpensHidden p i

/-- What one call does, after the calls of `front`. -/
inductive Step.Confined (scope : Scope) (front : List Step) (s : Step) : Prop
  | idle (hsame : s.after = s.before)
  | directory {d : List Name} {n : Name} (hfree : s.before.nodeAt (s.before.entryLoc d n) = none)
      (hafter : s.after = s.before.mkdir (s.before.loc d) n)
  | temporary {p q : Path} {d : List Name} {n : Name} (hp : p ∈ scope.outputs) (hq : p.Hides q)
      (hcall : s.call = .createNew q) (hdst : s.before.resolve false q = .ok (d ++ [n]))
      (hfree : s.before.nodeAt (s.before.entryLoc d n) = none)
      (hafter : s.after = s.before.create (s.before.loc d) n)
  | rename {p q src dst : Path} {names d : List Name} {n : Name} {x : Node} (hp : scope.Has p)
      (hq : p.Hides q) (hends : src = p ∧ dst = q ∨ src = q ∧ dst = p) (hcall : s.call = .rename src dst)
      (hsrc : s.before.resolve false src = .ok names) (hx : s.before.node names = some x) (hdir : x ≠ .dir)
      (hdst : s.before.resolve false dst = .ok (d ++ [n]))
      (hfree : s.before.nodeAt (s.before.entryLoc d n) = none)
      (hafter : s.after = s.before.move (s.before.loc names) (s.before.loc d) n)
  | removal {p q : Path} {names : List Name} {x : Node} (hp : scope.Has p) (hq : p.Hides q)
      (hcall : s.call = .removeFile q) (hsrc : s.before.resolve false q = .ok names)
      (hx : s.before.node names = some x) (hdir : x ≠ .dir)
      (hafter : s.after = s.before.erase (s.before.loc names))
  | write {i : Nat} {bytes : Bytes} (hwrites : scope.Writes front i)
      (hafter : s.after = s.before.setContent i bytes)

/-- Every call so far was of this kind. -/
def Traced (scope : Scope) : Assertion := fun steps _ => Each (Step.Confined scope) steps

/-- So it was, and the file may be written to. -/
def Open (scope : Scope) (i : Nat) : Assertion :=
  fun steps fs => Traced scope steps fs ∧ scope.Writes steps i

theorem Fs.make_free {α : Type} {f : Fs → Loc → Name → α × Fs} {fs : Fs} {p : Path} {d : List Name} {n : Name}
    (hdst : fs.resolve false p = .ok (d ++ [n])) (hfree : fs.nodeAt (fs.entryLoc d n) = none) :
    Fs.make p f fs = (.ok (f fs (fs.loc d) n).1, (f fs (fs.loc d) n).2) := by
  have hnode : fs.node (d ++ [n]) = none := hfree
  simp [Fs.make, hdst, hnode]

section
variable {env : Env} {scope : Scope} {steps : List Step} {s : Step} {fs : Fs} {i : Nat} {p q src dst : Path}

theorem Scope.Writes.concat (h : scope.Writes steps i) : scope.Writes (steps ++ [s]) i := by
  obtain hmade | ⟨t, ht, hp⟩ := h
  · exact .inl hmade.concat
  · exact .inr ⟨t, List.mem_append_left _ ht, hp⟩

theorem Traced.concat (h : Traced scope steps fs) {fs' : Fs} (hs : s.Confined scope steps) :
    Traced scope (steps ++ [s]) fs' := each_concat.2 ⟨h, hs⟩

theorem Open.concat (h : Open scope i steps fs) {fs' : Fs} (hs : s.Confined scope steps) :
    Open scope i (steps ++ [s]) fs' := ⟨h.1.concat hs, h.2.concat⟩

theorem Traced.stable : env.Stable (Traced scope) := fun _ _ _ => id

theorem Open.stable : env.Stable (Open scope i) := fun _ _ _ => id

theorem Traced.inert : Inert (Traced scope) := fun _ _ _ _ h => h.concat (.idle rfl)

theorem Open.inert : Inert (Open scope i) := fun _ _ _ _ h => h.concat (.idle rfl)

/-- A program that only looks. -/
theorem Looks.traced {α : Type} {m : FsM α} (h : Looks env m) :
    Runs (Traced scope) m (fun _ => Traced scope) fun _ => Traced scope :=
  h.runs Traced.stable Traced.inert.idle

theorem Looks.open {α : Type} {m : FsM α} (h : Looks env m) :
    Runs (Open scope i) m (fun _ => Open scope i) fun _ => Open scope i :=
  h.runs Open.stable Open.inert.idle

/-! ## Calls -/

theorem ensureSafeDirectory_traced :
    Runs (Traced scope) (ensureSafeDirectory env p) (fun _ => Traced scope) fun _ => Traced scope := by
  apply ensureSafeDirectory_keeps Traced.stable Traced.inert
  intro steps fs q d n h hfree
  exact h.concat (.directory hfree rfl)

theorem createPrivateTemp_traced (hp : p ∈ scope.outputs) :
    Runs (Traced scope) (createPrivateTemp env p.parentOrHere)
      (fun temp steps fs => p.Hides temp.1 ∧ Open scope temp.2 steps fs) fun _ => Traced scope := by
  apply createPrivateTempIn_cases Traced.stable
  · intro steps fs q fault h
    exact h.concat (.idle rfl)
  · intro steps fs a b d n h hdst hfree
    have hmade : fs.createNew (p.parentOrHere.push (.name (tempName a b))) =
        (.ok fs.nextInode, fs.create (fs.loc d) n) := Fs.make_free hdst hfree
    refine ⟨⟨a, b, rfl⟩, h.concat (.temporary hp ⟨a, b, rfl⟩ rfl hdst hfree rfl), .inl ?_⟩
    exact ⟨_, List.mem_append_right _ (List.mem_singleton_self _), _, rfl, rfl, hmade⟩

theorem installTemp_traced (hp : scope.Has p) (hq : p.Hides q) (hends : src = p ∧ dst = q ∨ src = q ∧ dst = p) :
    Runs (Traced scope) (installTemp env src dst) (fun _ => Traced scope) fun _ => Traced scope := by
  apply installTemp_cases Traced.stable (fun _ _ => id)
  · intro steps fs fault h
    exact h.concat (.idle rfl)
  · intro steps fs names d n x h hsrc hx hdir hdst hfree
    exact h.concat (.rename hp hq hends rfl hsrc hx hdir hdst hfree rfl)

theorem removeFile_traced (hp : scope.Has p) (hq : p.Hides q) (Χ : IronlockError → Assertion) :
    Runs (Traced scope) (Sys.try_ env (.removeFile q) (Fs.removeFile q)) (fun _ => Traced scope) Χ := by
  apply removeFile_cases Traced.stable
  · intro steps fs e fault h
    exact h.concat (.idle rfl)
  · intro steps fs names x h hsrc hx hdir
    exact h.concat (.removal hp hq rfl hsrc hx hdir rfl)

theorem stream_traced {α : Type} (r : Reader) (m : StreamM α) :
    Runs (Open scope i) (Sys.stream env r i m) (fun _ => Open scope i) fun _ => Open scope i := by
  refine (stream_runs (Φ := fun _ => Open scope i) (fun _ => Open.stable) ?_ [] r m).post ?_ ?_
  · intro c steps fs b h
    exact h.concat (.write h.2 rfl)
  · rintro _ steps fs ⟨_, _, -, h⟩
    exact h
  · rintro _ steps fs ⟨_, h⟩
    exact h

/-! ## Outputs -/

namespace AtomicOutput

variable {destination : Path} {force : Bool} {o : AtomicOutput}

theorem new_traced (hp : destination ∈ scope.outputs) :
    Runs (Traced scope) (AtomicOutput.new env destination force)
      (fun o steps fs => (o.destination = destination ∧ destination.Hides o.tempPath) ∧
        Open scope o.file steps fs) fun _ => Traced scope := by
  refine .bind ensureSafeDirectory_traced fun _ => .bind (observe_looks destination).traced fun observed =>
    .bind (approve_looks destination force observed).traced fun _ =>
    .bind (createPrivateTemp_traced hp) fun temp => .pure ?_
  rintro steps fs ⟨hhides, hopen⟩
  exact ⟨⟨rfl, hhides⟩, hopen⟩

variable (hp : o.destination ∈ scope.outputs) (hhides : o.destination.Hides o.tempPath)
include hp hhides

theorem drop_traced : Runs (Traced scope) (o.drop env) (fun _ => Traced scope) fun _ => Traced scope :=
  .bind (removeFile_traced (.inl hp) hhides _) fun _ => .pure fun _ _ => id

end AtomicOutput

theorem QuarantinedFile.restore_traced {quarantined : QuarantinedFile} (hp : scope.Has quarantined.original)
    (hhides : quarantined.original.Hides quarantined.quarantine) :
    Runs (Traced scope) (quarantined.restore env) (fun _ => Traced scope) fun _ => Traced scope := by
  refine .bind (exists_looks _).traced fun _ => .ite (fun _ => .pure fun _ _ => id) fun _ => ?_
  refine .bind (.attempt ?_) fun _ => .pure fun _ _ => id
  exact installTemp_traced hp hhides (.inr ⟨rfl, rfl⟩)

theorem QuarantinedFile.remove_traced {quarantined : QuarantinedFile} (hp : scope.Has quarantined.original)
    (hhides : quarantined.original.Hides quarantined.quarantine) :
    Runs (Traced scope) (quarantined.remove env) (fun _ => Traced scope) fun _ => Traced scope := by
  refine .onError (Θ := fun _ => Traced scope) (.bind (.bind (removeFile_traced hp hhides _) fun r => ?_) fun _ =>
    (syncParent_looks _).traced) fun _ => restore_traced hp hhides
  cases r with
  | ok _ => exact .pure fun _ _ => id
  | error e => exact .fail fun _ _ => id

theorem QuarantinedFile.new_traced (hp : scope.Has p) :
    Runs (Traced scope) (QuarantinedFile.new env p)
      (fun quarantined steps fs => (quarantined.original = p ∧ p.Hides quarantined.quarantine) ∧
        Traced scope steps fs) fun _ => Traced scope := by
  apply quarantine_cases Traced.stable
  · intro steps fs dst fault h
    exact h.concat (.idle rfl)
  · intro steps fs a b names d n x h hsrc hx hdir hdst hfree
    refine ⟨⟨rfl, a, b, rfl⟩, h.concat ?_⟩
    exact .rename hp ⟨a, b, rfl⟩ (.inl ⟨rfl, rfl⟩) rfl hsrc hx hdir hdst hfree rfl

namespace AtomicOutput

variable {destination : Path} {force : Bool} {o : AtomicOutput}
  (hp : o.destination ∈ scope.outputs) (hhides : o.destination.Hides o.tempPath)
include hp hhides

theorem place_traced : Runs (Traced scope) (do
    installTemp env o.tempPath o.destination
    syncParent env o.destination.parentOrHere) (fun _ => Traced scope) fun _ => Traced scope :=
  .bind (installTemp_traced (.inl hp) hhides (.inr ⟨rfl, rfl⟩)) fun _ => (syncParent_looks _).traced

theorem replace_traced (observed : Identity) : Runs (Traced scope) (o.replace env observed)
    (fun quarantined steps fs => (quarantined.original = o.destination ∧
      o.destination.Hides quarantined.quarantine) ∧ Traced scope steps fs) fun _ => Traced scope := by
  refine .bind (QuarantinedFile.new_traced (.inl hp)) fun quarantined => .assuming ?_
  rintro ⟨horiginal, hquarantine⟩
  have hhas : scope.Has quarantined.original := horiginal ▸ .inl hp
  refine .bind (.onError (Θ := fun _ => Traced scope) (.bind (handleFromPath_looks _).traced fun moved =>
    .ite (fun _ => .fail fun _ _ => id) fun _ => place_traced hp hhides) fun _ =>
    QuarantinedFile.restore_traced hhas (horiginal ▸ hquarantine)) fun _ => .pure fun _ _ h => ?_
  exact ⟨⟨horiginal, hquarantine⟩, h⟩

theorem install_traced :
    Runs (Traced scope) (o.install env) (fun _ => Traced scope) fun _ => Traced scope := by
  have hrest : Runs (Traced scope) (do
      installTemp env o.tempPath o.destination
      syncParent env o.destination.parentOrHere) (fun _ => Traced scope) fun _ => Traced scope :=
    place_traced hp hhides
  have hlink (m : Metadata) : Looks env (rejectLinkOrReparse o.destination m) := rejectLink_looks _ m
  refine .bind (symlinkMetadata_looks _).traced fun r => ?_
  cases r with
  | ok m =>
    refine .bind (hlink m).traced fun _ => ?_
    exact .bind (Ψ := fun _ => Traced scope) (.fail fun _ _ => id) fun _ => hrest
  | error e =>
    apply Runs.ite
    · exact fun _ => hrest
    · exact fun _ => .bind (Ψ := fun _ => Traced scope) (.fail fun _ _ => id) fun _ => hrest

theorem commit_traced :
    Runs (Traced scope) (o.commit env) (fun _ => Traced scope) fun _ => Traced scope := by
  have hpublish : Runs (Traced scope) (o.publish env) (fun replaced steps fs =>
      (∀ q, replaced = some q → q.original = o.destination ∧ o.destination.Hides q.quarantine) ∧
        Traced scope steps fs) fun _ => Traced scope := by
    refine .bind (flush_looks _).traced fun _ => .bind (syncAll_looks _).traced fun _ => ?_
    cases o.observedDestination with
    | none => exact .bind (install_traced hp hhides) fun _ => .pure fun _ _ h => ⟨nofun, h⟩
    | some observed =>
      refine .bind (replace_traced hp hhides observed) fun quarantined => .pure fun _ _ h => ⟨?_, h.2⟩
      rintro _ ⟨⟩
      exact h.1
  refine .bind (.onError hpublish fun _ => drop_traced hp hhides) fun replaced => .assuming fun hreplaced => ?_
  cases replaced with
  | none => exact .pure fun _ _ => id
  | some quarantined =>
    obtain ⟨horiginal, hquarantine⟩ := hreplaced quarantined rfl
    have hhas : scope.Has quarantined.original := horiginal ▸ .inl hp
    exact .bind (QuarantinedFile.remove_traced hhas (horiginal ▸ hquarantine)) fun _ => .pure fun _ _ => id

end AtomicOutput

/-- A file that is written as the program writes all of its outputs. -/
theorem AtomicOutput.writing_traced {destination : Path} {force : Bool} {body : Nat → FsM Unit}
    (hp : destination ∈ scope.outputs)
    (hbody : ∀ i, Runs (Open scope i) (body i) (fun _ => Open scope i) fun _ => Open scope i) :
    Runs (Traced scope) (AtomicOutput.writing env destination force body)
      (fun _ => Traced scope) fun _ => Traced scope := by
  refine .bind (AtomicOutput.new_traced hp) fun o => .assuming ?_
  rintro ⟨rfl, hhides⟩
  refine .bind (.onError ((hbody o.file).post (fun _ _ _ h => h.1) fun _ _ _ => id) fun _ =>
    (AtomicOutput.drop_traced hp hhides).pre fun _ _ h => h.1) fun _ => ?_
  exact AtomicOutput.commit_traced hp hhides

/-! ## Shredding -/

/-- What is opened where a path is hidden may be written to. -/
theorem openHidden_traced (hp : p ∈ scope.shredded) (hq : p.Hides q) :
    Runs (Traced scope) (Sys.run env (.openWrite q) (Fs.openWriteNofollow q))
      (fun file steps fs => Traced scope steps fs ∧ ∀ i, file = .file i → scope.Writes steps i)
      fun _ => Traced scope := by
  apply Runs.run Traced.stable
  · intro steps fs e h _
    exact h.concat (.idle rfl)
  · intro steps fs h
    have hsame : (Fs.openWriteNofollow q fs).2 = fs := look_snd fs
    rcases hopen : Fs.openWriteNofollow q fs with ⟨e | file, fs'⟩ <;> rw [hopen] at hsame
    · exact h.concat (.idle hsame)
    · refine ⟨h.concat (.idle hsame), fun i hi => .inr ?_⟩
      refine ⟨_, List.mem_append_right _ (List.mem_singleton_self _), p, hp, q, hq, rfl, ?_⟩
      simp only [hopen, hi]

theorem overwritePasses_traced (len passes : Nat) :
    Runs (Open scope i) (overwritePasses env i len passes) (fun _ => Open scope i) fun _ => Open scope i := by
  refine overwritePasses_runs (Ψ := fun _ => Open scope i) (Λ := fun _ _ => Open scope i)
    (fun _ => (rewind_looks _).open) (fun _ => ?_) (fun _ => (flush_looks _).open)
    (fun _ => (syncAll_looks _).open) passes
  refine (overwriteRemaining_runs (Φ := fun _ => Open scope i) (fun _ => Open.stable) ?_ 0 len
    (Nat.zero_add _)).post (fun _ _ _ => id) ?_
  · intro offset steps fs b _ h
    exact h.concat (.write h.2 rfl)
  · rintro _ steps fs ⟨-, -, h⟩
    exact h

theorem overwriteQuarantined_traced (hp : p ∈ scope.shredded) (hq : p.Hides q) (expected : Identity) :
    Runs (Traced scope) (overwriteQuarantined env q expected) (fun _ => Traced scope)
      fun _ => Traced scope := by
  refine .bind (.mapError (openHidden_traced hp hq)) fun file => ?_
  let Φ : Assertion := fun steps fs => Traced scope steps fs ∧ ∀ i, file = .file i → scope.Writes steps i
  have hlooks {α : Type} {m : FsM α} (hm : Looks env m) : Runs Φ m (fun _ => Φ) fun _ => Traced scope := by
    refine (hm.runs (Φ := Φ) (fun _ _ _ => id) ?_).post (fun _ _ _ => id) fun _ _ _ h => h.1
    intro steps fs call fault _ h
    exact ⟨h.1.concat (.idle rfl), fun i hi => (h.2 i hi).concat⟩
  have hlast {next : Except IoError Metadata → FsM Unit}
      (herror : ∀ e, next (.error e) = Eff.fail (.secureDeletionFailed [.io e]))
      (hok : ∀ finalMetadata, next (.ok finalMetadata) = do
        Eff.mapError shredError (rejectLinkOrReparse q finalMetadata)
        if ← Eff.mapError shredError (pathMatchesOpenFile env q file) then return ()
        else Eff.fail (shredFailure "quarantined file changed before deletion")) :
      Runs (Traced scope) (Sys.symlinkMetadata env q >>= next) (fun _ => Traced scope)
        fun _ => Traced scope := by
    have hlink (m : Metadata) : Looks env (rejectLinkOrReparse q m) := rejectLink_looks _ m
    refine .bind (symlinkMetadata_looks _).traced fun r => ?_
    cases r with
    | error e =>
      rw [herror]
      exact .fail fun _ _ => id
    | ok final =>
      rw [hok]
      refine .bind (.mapError (hlink final).traced) fun _ =>
        .bind (.mapError (pathMatchesOpenFile_looks _ _).traced) fun same => ?_
      exact .ite (fun _ => .pure fun _ _ => id) fun _ => .fail fun _ _ => id
  refine .bind (.mapError (hlooks (stat_looks _))) fun metadata =>
    .bind (.mapError (hlooks (duplicate_looks _))) fun _ =>
    .bind (.mapError (hlooks (handleFromFile_looks _))) fun handle => .ite (fun _ => .fail fun _ _ h => h.1)
    fun _ => .bind (.mapError (hlooks (linkCount_looks _))) fun links =>
    .ite (fun _ => .fail fun _ _ h => h.1) fun _ => ?_
  cases file with
  | file j =>
    have hpasses : Runs Φ (overwritePasses env j metadata.len 3) (fun _ => Traced scope)
        fun _ => Traced scope :=
      (overwritePasses_traced metadata.len 3).consequence (fun _ _ h => ⟨h.1, h.2 j rfl⟩) (fun _ _ _ h => h.1)
        fun _ _ _ h => h.1
    exact .bind hpasses fun _ => hlast (fun _ => rfl) fun _ => rfl
  | _ => exact (hlast (fun _ => rfl) fun _ => rfl).pre fun _ _ h => h.1

theorem secureDeleteInner_traced (hp : p ∈ scope.shredded) (expected : Option Identity) :
    Runs (Traced scope) (secureDeleteInner env p expected) (fun _ => Traced scope) fun _ => Traced scope := by
  refine .bind (.mapError (verifiedSourceFile_looks _).traced) fun source =>
    .bind (.mapError (handleFromFile_looks _).traced) fun handle => .ite (fun _ => .fail fun _ _ => id)
    fun _ => .bind (.mapError (QuarantinedFile.new_traced (.inr hp))) fun quarantined => .assuming ?_
  rintro ⟨rfl, hq⟩
  refine .bind (.onError (overwriteQuarantined_traced hp hq _) fun _ => ?_) fun _ => .mapError ?_
  · exact QuarantinedFile.restore_traced (.inr hp) hq
  · exact QuarantinedFile.remove_traced (.inr hp) hq

/-! ## Files and batches -/

theorem writeEncrypted_traced (password : Bytes) (filename : Str) (source : Nat) :
    Runs (Open scope i) (writeEncrypted env password filename source i) (fun _ => Open scope i)
      fun _ => Open scope i := by
  have hdraw {α : Type} (f : Nat → α) : Runs (Open scope i) (Sys.draw f) (fun _ => Open scope i)
      fun _ => Open scope i := .draw fun _ _ _ => id
  refine .bind ((reader_runs _).post (fun _ _ _ h => h.2) fun _ _ _ => id) fun r =>
    .bind (hdraw _) fun salt => .bind (hdraw _) fun baseNonce => ?_
  exact .bind (stream_traced r _) fun _ => (flush_looks _).open

theorem writeDecrypted_traced (d : StreamDecryptor) (r : Reader) :
    Runs (Open scope i) (writeDecrypted env d r i) (fun _ => Open scope i) fun _ => Open scope i :=
  .bind (stream_traced r _) fun _ => (flush_looks _).open

theorem encryptFileToPath_traced {source output : Path} {password : Bytes} {force shred : Bool}
    (hp : output ∈ scope.outputs) (hshred : shred = true → source ∈ scope.shredded) :
    Runs (Traced scope) (encryptFileToPath env source output password force shred) (fun _ => Traced scope)
      fun _ => Traced scope := by
  rw [encryptFileToPath_eq]
  refine .bind encryptionSource_looks.traced fun opened => .bind (AtomicOutput.writing_traced hp
    fun i => writeEncrypted_traced password opened.2.2 opened.1) fun committed => ?_
  cases shred with
  | false => exact .pure fun _ _ => id
  | true => exact .bind (secureDeleteInner_traced (hshred rfl) _) fun _ => .pure fun _ _ => id

theorem encryptPlans_traced {plans : List EncryptionPlan} {password : Bytes} {force shred : Bool}
    (hp : ∀ plan ∈ plans, plan.output ∈ scope.outputs)
    (hshred : shred = true → ∀ plan ∈ plans, plan.source ∈ scope.shredded) :
    Runs (Traced scope) (encryptPlans env password force shred plans) (fun _ => Traced scope)
      fun _ => Traced scope := by
  induction plans with
  | nil => exact .pure fun _ _ => id
  | cons plan plans ih =>
    refine .bind (.attempt ?_) fun r => .bind (ih ?_ ?_) fun _ => .pure fun _ _ => id
    · exact encryptFileToPath_traced (hp plan List.mem_cons_self) fun h => hshred h plan List.mem_cons_self
    · exact fun other hmem => hp other (List.mem_cons_of_mem _ hmem)
    · exact fun h other hmem => hshred h other (List.mem_cons_of_mem _ hmem)

/-- An output of a decryption has a name of its own in the directory that was planned. -/
theorem decryptedPath_traced {source dir : Path} {filename : Str} :
    Runs (Traced scope) (decryptedPath env source (some dir) filename)
      (fun output steps fs => (∃ n, output = dir.push (.name n)) ∧ Traced scope steps fs)
      fun _ => Traced scope := by
  refine .bind (Ψ := fun safe steps fs => (∃ n : Name, safe.bytes = n.bytes) ∧ Traced scope steps fs)
    (.ofExcept (fun safe hsafe steps fs h => ⟨sanitizedFilename_eq_ok hsafe, h⟩) fun _ _ _ _ => id) fun safe =>
    .assuming ?_
  rintro ⟨n, hn⟩
  refine .bind ensureSafeDirectory_traced fun _ => ?_
  rw [hn, Path.joinRaw_bytes]
  refine .bind (pathsReferToSameFile_looks _ _).traced fun same => .ite (fun _ => ?_) fun _ => ?_
  · apply Runs.result (uniqueDecryptedPath_looks _).traced
    intro w output w' _ h
    obtain ⟨m, rfl⟩ := uniqueDecryptedPath_eq_ok h
    refine ⟨m, ?_⟩
    rw [Path.parentOrEmpty, Path.push_parent]
    rfl
  · exact .pure fun _ _ h => ⟨⟨n, rfl⟩, h⟩

theorem GuardM.lift_triple {α : Type} {m : FsM α} {P : World → Prop} {Q : α → World → Prop}
    {E : IronlockError → World → Prop} (h : Triple P m Q E) :
    Triple (fun s => P s.1) (GuardM.lift m) (fun a s => Q a s.1) fun e s => E e s.1 := by
  rintro ⟨w, g⟩ hw
  have hm := h w hw
  rw [GuardM.lift_apply]
  rcases hr : m w with ⟨e | a, w'⟩ <;> rw [hr] at hm <;> exact hm

/-- What no look at the disk undoes, a reservation does not. -/
theorem reserve_keeps {P : World → Prop} (source output : Path)
    (hP : ∀ {α : Type} {m : FsM α}, Looks env m → Triple P m (fun _ => P) fun _ => P) :
    Triple (fun s => P s.1) (DecryptionBatchGuard.reserve env source output) (fun _ s => P s.1)
      fun _ s => P s.1 := by
  let Φ : World × DecryptionBatchGuard → Prop := fun s => P s.1
  have hfail {α : Type} (e : IronlockError) : Triple Φ (Eff.fail e : GuardM α) (fun _ => Φ) fun _ => Φ :=
    .fail fun _ => id
  have hinsert (key : Bytes) :
      Triple Φ (DecryptionBatchGuard.insertReserved key) (fun _ => Φ) fun _ => Φ := by
    rintro ⟨w, g⟩ hw
    simp only [DecryptionBatchGuard.insertReserved, Eff.modifyGet]
    split <;> exact hw
  have hguard : Triple Φ GuardM.guard (fun _ => Φ) fun _ => Φ := fun _ => id
  refine .bind (GuardM.lift_triple (hP (normalizedPathKey_looks _))) fun sourceKey => .bind hguard fun self =>
    .ite (fun _ => hfail _) fun _ => .bind (GuardM.lift_triple (hP (normalizedPathKey_looks _))) fun outputKey =>
    .ite (fun _ => hfail _) fun _ => ?_
  have hrest : Triple Φ (do
      if ← DecryptionBatchGuard.insertReserved outputKey then return ()
      else Eff.fail (.outputCollision [.text "multiple encrypted inputs contain the output filename '",
        .path output, .text "'"]) : GuardM Unit) (fun _ => Φ) fun _ => Φ :=
    .bind (hinsert _) fun _ => .ite (fun _ => .pure fun _ => id) fun _ => hfail _
  refine .bind (GuardM.lift_triple (hP (symlinkMetadata_looks _))) fun r => ?_
  cases r with
  | error e => exact .ite (fun _ => hrest) fun _ => .bind (hfail _) fun _ => hrest
  | ok m =>
    refine .bind (GuardM.lift_triple (hP (rejectLink_looks _ _))) fun _ => .ite (fun _ => ?_) fun _ => hrest
    exact .bind (GuardM.lift_triple (hP (handleFromPath_looks _))) fun _ =>
      .ite (fun _ => .bind (hfail _) fun _ => hrest) fun _ => hrest

/-- The calls made since `w₀` were of this kind. -/
abbrev TracedSince (scope : Scope) (w₀ : World) (s : World × DecryptionBatchGuard) : Prop :=
  Holds w₀ (Traced scope) s.1

theorem decryptFile_traced {source dir : Path} {password : Bytes} {force : Bool} {w₀ : World}
    (hp : ∀ n, dir.push (.name n) ∈ scope.outputs) :
    Triple (TracedSince scope w₀) (decryptFileToPathGuarded env source password (some dir) force)
      (fun _ => TracedSince scope w₀) fun _ => TracedSince scope w₀ := by
  rw [decryptFile_eq]
  have hpath (opened : StreamDecryptor × Reader) : Triple (TracedSince scope w₀)
      (GuardM.lift (decryptedPath env source (some dir) opened.1.filename))
      (fun output s => (∃ n, output = dir.push (.name n)) ∧ TracedSince scope w₀ s)
      fun _ => TracedSince scope w₀ := by
    refine (GuardM.lift_triple (decryptedPath_traced w₀)).post ?_
    rintro output s ⟨steps, hsteps, hn, htraced⟩
    exact ⟨hn, steps, hsteps, htraced⟩
  refine .bind (GuardM.lift_triple (openEncrypted_looks.traced w₀)) fun opened =>
    .bind (hpath opened) fun output => .assuming ?_
  rintro ⟨n, rfl⟩
  refine .bind (reserve_keeps source _ fun hm => hm.traced w₀) fun _ => GuardM.lift_triple ?_
  exact AtomicOutput.writing_traced (hp n) (fun i => writeDecrypted_traced opened.1 opened.2) w₀

theorem decryptPlans_traced {plans : List DecryptionPlan} {password : Bytes} {force : Bool} {w₀ : World}
    (hp : ∀ plan ∈ plans, ∀ n, plan.targetDir.push (.name n) ∈ scope.outputs) :
    Triple (TracedSince scope w₀) (decryptPlans env password force plans)
      (fun _ => TracedSince scope w₀) fun _ => TracedSince scope w₀ := by
  induction plans with
  | nil => exact .pure fun _ => id
  | cons plan plans ih =>
    refine .bind (.attempt (decryptFile_traced (hp plan List.mem_cons_self))) fun r => .bind (ih ?_) fun _ =>
      .pure fun _ => id
    exact fun other hmem => hp other (List.mem_cons_of_mem _ hmem)

end

/-! ## What follows for each call -/

/-- The place of a path of the scope, or of a temporary name beside one. -/
def Scope.Reaches (scope : Scope) (fs : Fs) (l : Loc) : Prop :=
  ∃ p q names, scope.Has p ∧ (q = p ∨ p.Hides q) ∧ fs.resolve false q = .ok names ∧ fs.loc names = l

/-- An entry is taken away or put, but never replaced, and but for new directories
that is in the scope's reach; a link is lost at temporary names only, and bytes in
files that the run made or hid. -/
structure Step.Lawful (scope : Scope) (front : List Step) (s : Step) : Prop where
  replaces : ∀ l x y, s.before.nodeAt l = some x → s.after.nodeAt l = some y → y = x
  changes : ∀ l, s.after.nodeAt l ≠ s.before.nodeAt l →
    scope.Reaches s.before l ∨ s.before.nodeAt l = none ∧ s.after.nodeAt l = some .dir
  unlinks : ∀ i, s.after.links i < s.before.links i → ∃ p q names, scope.Has p ∧ p.Hides q ∧
    s.call = .removeFile q ∧ s.before.resolve false q = .ok names ∧ s.before.node names = some (.file i)
  writes : ∀ i, i < s.before.nextInode → s.after.content i ≠ s.before.content i → scope.Writes front i

section
variable {scope : Scope} {front : List Step} {s : Step}

/-- A call that adds one entry where nothing was. -/
theorem Step.lawful_add {k : Loc} {y : Node} (hfree : s.before.nodeAt k = none)
    (hnode : s.after.nodeAt = Function.update s.before.nodeAt k (some y))
    (hk : scope.Reaches s.before k ∨ y = .dir) (hlinks : ∀ i, s.before.links i ≤ s.after.links i)
    (hcontent : ∀ i, i < s.before.nextInode → s.after.content i = s.before.content i) :
    s.Lawful scope front where
  replaces l x z hx hz := by
    have hne : l ≠ k := by
      rintro rfl
      rw [hfree] at hx
      cases hx
    rw [hnode, Function.update_of_ne hne, hx] at hz
    exact (Option.some.inj hz).symm
  changes l hl := by
    by_cases hlk : l = k
    · subst hlk
      refine hk.imp id ?_
      rintro rfl
      refine ⟨hfree, ?_⟩
      rw [hnode, Function.update_self]
    · rw [hnode, Function.update_of_ne hlk] at hl
      exact absurd rfl hl
  unlinks i hi := absurd hi (hlinks i).not_gt
  writes i hi hne := absurd (hcontent i hi) hne

theorem Step.Confined.lawful (h : s.Confined scope front) : s.Lawful scope front := by
  cases h with
  | idle hsame =>
    constructor <;> rw [hsame]
    · intro l x y hx hy
      rw [hx] at hy
      exact (Option.some.inj hy).symm
    · exact fun l hl => absurd rfl hl
    · exact fun i hi => absurd hi (lt_irrefl _)
    · exact fun i _ hne => absurd rfl hne
  | @directory d n hfree hafter =>
    rw [Fs.entryLoc_eq] at hfree
    apply Step.lawful_add hfree
    · rw [hafter, Fs.mkdir_nodeAt]
    · exact .inr rfl
    · intro i
      rw [hafter, Fs.mkdir_links hfree]
    · intro i _
      rw [hafter, Fs.mkdir_content]
  | @temporary p q d n hp hq hcall hdst hfree hafter =>
    have hreach : scope.Reaches s.before (s.before.entryLoc d n) := ⟨p, q, _, .inl hp, .inr hq, hdst, rfl⟩
    rw [Fs.entryLoc_eq] at hfree hreach
    apply Step.lawful_add hfree
    · rw [hafter, Fs.create_nodeAt]
    · exact .inl hreach
    · intro i
      rw [hafter]
      exact Fs.create_links hfree i
    · intro i hi
      rw [hafter]
      simp [Fs.create, Fs.put, Fs.allocateInode, hi.ne]
  | @rename p q src dst names d n x hp hq hends hcall hsrc hx hdir hdst hfree hafter =>
    have hboth : (src = p ∨ p.Hides src) ∧ (dst = p ∨ p.Hides dst) := by
      obtain ⟨rfl, rfl⟩ | ⟨rfl, rfl⟩ := hends
      · exact ⟨.inl rfl, .inr hq⟩
      · exact ⟨.inr hq, .inl rfl⟩
    have hfrom : scope.Reaches s.before (s.before.loc names) := ⟨p, src, names, hp, hboth.1, hsrc, rfl⟩
    have hto : scope.Reaches s.before (s.before.entryLoc d n) := ⟨p, dst, _, hp, hboth.2, hdst, rfl⟩
    have hne := Fs.loc_ne_nil hx hdir
    rw [Fs.entryLoc_eq] at hfree hto
    have hnode := Fs.move_nodeAt (d := s.before.loc d) (n := n) hne hx
    rw [← hafter] at hnode
    constructor
    · intro l y z hy hz
      have hl : l ≠ s.before.loc names := by
        rintro rfl
        rw [hnode, Function.update_self] at hz
        cases hz
      have hl' : l ≠ s.before.loc d ++ [s.before.fold (s.before.loc d) n] := by
        rintro rfl
        rw [hfree] at hy
        cases hy
      rw [hnode, Function.update_of_ne hl, Function.update_of_ne hl', hy] at hz
      exact (Option.some.inj hz).symm
    · intro l hl
      by_cases hsource : l = s.before.loc names
      · exact .inl (hsource ▸ hfrom)
      · rw [hnode, Function.update_of_ne hsource] at hl
        by_cases htarget : l = s.before.loc d ++ [s.before.fold (s.before.loc d) n]
        · exact .inl (htarget ▸ hto)
        · rw [Function.update_of_ne htarget] at hl
          exact absurd rfl hl
    · intro i hi
      rw [hafter, Fs.move_links hne hx hfree] at hi
      exact absurd hi (lt_irrefl _)
    · intro i _ hchanged
      rw [hafter, Fs.move_content] at hchanged
      exact absurd rfl hchanged
  | @removal p q names x hp hq hcall hsrc hx hdir hafter =>
    have hne := Fs.loc_ne_nil hx hdir
    have hnode : s.after.nodeAt = Function.update s.before.nodeAt (s.before.loc names) none := by
      rw [hafter, Fs.erase_nodeAt hne]
    constructor
    · intro l y z hy hz
      have hl : l ≠ s.before.loc names := by
        rintro rfl
        rw [hnode, Function.update_self] at hz
        cases hz
      rw [hnode, Function.update_of_ne hl, hy] at hz
      exact (Option.some.inj hz).symm
    · intro l hl
      by_cases hsource : l = s.before.loc names
      · exact .inl ⟨p, q, names, hp, .inr hq, hsrc, hsource.symm⟩
      · rw [hnode, Function.update_of_ne hsource] at hl
        exact absurd rfl hl
    · intro i hi
      have hlinks := Fs.erase_links hne hx i
      by_cases hxi : x = .file i
      · subst hxi
        exact ⟨p, q, names, hp, hq, hcall, hsrc, hx⟩
      · rw [if_neg hxi, Nat.add_zero, ← hafter] at hlinks
        exact absurd hi hlinks.le.not_gt
    · intro i _ hchanged
      rw [hafter, Fs.erase_content] at hchanged
      exact absurd rfl hchanged
  | @write i bytes hwrites hafter =>
    constructor
    · intro l x y hx hy
      rw [hafter, Fs.setContent_nodeAt, hx] at hy
      exact (Option.some.inj hy).symm
    · intro l hl
      rw [hafter, Fs.setContent_nodeAt] at hl
      exact absurd rfl hl
    · intro j hj
      rw [hafter] at hj
      exact absurd hj (lt_irrefl _)
    · intro j _ hchanged
      obtain rfl : j = i := by
        by_contra hne
        refine hchanged ?_
        rw [hafter]
        exact if_neg hne
      exact hwrites

end

/-! ## Commands -/

/-- What a command may put files to, and what it may shred, by its plan. -/
def Commands.scope (env : Env) (w : World) : Commands → Scope
  | .encrypt files _ shred _ =>
    ⟨{p | ∃ plans w', planEncryptionInputs env files w = (.ok plans, w') ∧ ∃ plan ∈ plans, p = plan.output},
      {p | shred = true ∧ ∃ plans w', planEncryptionInputs env files w = (.ok plans, w') ∧
        ∃ plan ∈ plans, p = plan.source}⟩
  | .decrypt files output _ _ =>
    ⟨{p | ∃ plans w', planDecryptionInputs env files output w = (.ok plans, w') ∧
      ∃ plan ∈ plans, ∃ n, p = plan.targetDir.push (.name n)}, ∅⟩

theorem Looked.traced {env : Env} {scope : Scope} {w w' : World} (h : Looked env w w') :
    Holds w (Traced scope) w' := by
  induction h with
  | refl => exact ⟨[], by simp, each_nil⟩
  | @call w' _ call hcall fault ih =>
    obtain ⟨steps, hsteps, htraced⟩ := ih
    refine ⟨steps ++ [_], ?_, Traced.inert _ _ call fault htraced⟩
    simp only [hsteps, List.append_assoc]
  | draw _ draws ih => exact ih

theorem Looks.traced_run {env : Env} {scope : Scope} {α : Type} {m : FsM α} {r : Except IronlockError α}
    {w₀ w w' : World} (h : Looks env m) (hw : Holds w₀ (Traced scope) w) (hm : m w = (r, w')) :
    Holds w₀ (Traced scope) w' := by
  have hend := h.traced.always hw
  rwa [hm] at hend

end Ironlock
