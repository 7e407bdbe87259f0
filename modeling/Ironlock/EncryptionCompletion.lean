import Ironlock.Completion
import Ironlock.Lib.Transfer
import Ironlock.Pipes
import Ironlock.Store

/-! An encryption in a tree, when nothing fails: every file is sealed. -/

namespace Ironlock
open ByteOrder (Bytes)
open Effect
open Fs (Identity Metadata SysCall)
open Transfer (moved)

/-- Keys can be derived from the password, and they seal what they are given. -/
structure Crates.Serves (C : Crates) (password : Bytes) : Prop where
  params : C.argon2Params .current = .ok ()
  keys : ∀ salt, ∃ key, C.hashPasswordInto .current password salt = .ok key ∧ C.Seals key

theorem Crates.checksummed_serves (password : Bytes) : Crates.checksummed.Serves password :=
  ⟨rfl, fun _ => ⟨_, rfl, checksummed_seals _⟩⟩

/-- The bytes are a stream of the content, under the last name of the place. -/
def SealsAt (C : Crates) (password : Bytes) (l : Loc) (content c : Bytes) : Prop :=
  ∃ d n, ∃ name : Str, l = d ++ [n] ∧ name.bytes = n.bytes ∧ Encloses C password c name content

/-! ## One file -/

section
variable {env : Env} {fs base : Fs} {o : AtomicOutput} {d : List Name} {m n : Name} {a b : UInt64} {i : Nat}
  {password c : Bytes} {source output : Path} {filename : Str}

theorem writeEncrypted_completes (hr : env.Reliable) (hC : env.crates.Serves password) (h : o.Ready base d a b)
    (hw : o.Written base d a b [] fs) (hname : filename.bytes ≠ []) (hlong : filename.bytes.length ≤ maxFilenameBytes)
    (hi : i < base.nextInode) (hsize : (base.content i).length < 2 ^ 64) :
    Completes fs (writeEncrypted env password filename i o.file) fun _ fs' =>
      ∃ c, Encloses env.crates password c filename (base.content i) ∧ o.Written base d a b c fs' := by
  have hcontent : fs.content i = base.content i := by rw [hw.content, if_neg hi.ne]
  refine .bind (reader_completes hr i) ?_
  rintro r fs₁ ⟨hdelivers, rfl⟩
  rw [hcontent] at hdelivers
  refine .bind (.draw (Q := fun _ fs' => fs' = fs₁) fun _ => rfl) ?_
  rintro salt fs₂ rfl
  refine .bind (.draw (Q := fun _ fs' => fs' = fs₂) fun _ => rfl) ?_
  rintro baseNonce fs₃ rfl
  obtain ⟨key, hkey, hseals⟩ := hC.keys salt.bytes
  refine .bind (h.stream_completes hr hw (P := fun c => Encloses env.crates password c filename (base.content i)) ?_) ?_
  · intro accepts haccept
    have hstream : ∃ s, encryptStreamWithParams env.crates salt baseNonce password filename .current
        ⟨r, ⟨accepts, []⟩, []⟩ = (.ok (base.content i).length, s) :=
      encryptStream_ok hname hlong (by decide) hC.params hkey hseals hdelivers hsize haccept
    obtain ⟨s, hs⟩ := hstream
    obtain ⟨x, hx, hcontent, -, hwritten⟩ := encryptStream_carried (.of_delivers hdelivers) hs
    exact ⟨_, s, hs, x, hwritten.symm, hx, hcontent⟩
  · rintro _ fs₄ ⟨c, hc, hw'⟩
    refine (Completes.of_answers fun _ => idle_answers hr _).mono ?_
    rintro _ fs₅ ⟨-, rfl⟩
    exact ⟨c, hc, hw'⟩

/-- The place a path leads to. -/
def Fs.place (fs : Fs) (p : Path) : Loc := (fs.resolve false p).toOption.getD []

theorem Fs.At.place {p : Path} (h : fs.At p d n) : fs.place p = d ++ [n] := by
  rw [Fs.place, h.resolve (.inl rfl)]
  rfl

/-- Nothing keeps a plan from being carried out: its source is a file, of a size and a
name that fit, and its output is free. -/
structure EncryptionPlan.Feasible (env : Env) (fs : Fs) (plan : EncryptionPlan) : Prop where
  paths : ∃ d m n, fs.At plan.source d m ∧ fs.At plan.output d n ∧ m.bytes.length ≤ maxFilenameBytes ∧ n.Lasting ∧
    keyText env (.absolute (d ++ [m])) ≠ keyText env (.absolute (d ++ [n]))
  parents : plan.source.parentOrHere ≠ .empty ∧ plan.output.parentOrHere ≠ .empty
  content : ∃ content, fs.bytesAt (fs.place plan.source) = some content ∧ content.length < 2 ^ 64
  free : fs.nodeAt (fs.place plan.output) = none

theorem Fs.Tidy.absolute_nul (ht : fs.Tidy) : (Path.absolute fs.cwd).hasNul = false := by
  have hcwd := ht.cwd.node
  rw [ht.node] at hcwd
  exact ht.toTree.absolute_nul hcwd

/-- The name of a file in a tree is one to encrypt it under. -/
theorem originalFilename_at (ht : fs.Tidy) (hat : fs.At source d m) (hfile : fs.nodeAt (d ++ [m]) = some (.file i)) :
    originalFilename source = .ok ⟨m.bytes, (ht.lasting d m _ hfile).text⟩ := by
  obtain ⟨q, -, rfl, -⟩ := hat.parent
  simp [originalFilename, toStr, Str.ofBytes?, (ht.lasting d m _ hfile).text]

theorem encryptionSource_completes (hr : env.Reliable) (ht : fs.Tidy) (hsource : fs.At source d m)
    (houtput : fs.At output d n) (hfile : fs.nodeAt (d ++ [m]) = some (.file i)) (hfree : fs.nodeAt (d ++ [n]) = none)
    (hkeys : keyText env (.absolute (d ++ [m])) ≠ keyText env (.absolute (d ++ [n]))) (shred : Bool) :
    Completes fs (encryptionSource env source output shred) fun r fs' =>
      r = (i, if shred then some (.file i) else none, ⟨m.bytes, (ht.lasting d m _ hfile).text⟩) ∧ fs' = fs := by
  rw [← ht.keyOf_eq hsource, ← ht.keyOf_eq houtput] at hkeys
  have hplace : fs.nodeAt (fs.entryLoc d m) = some (.file i) := by rw [ht.entryLoc, hfile]
  refine .after (fun _ => pathsReferToSameFile_absent hr ht.toTree hsource houtput hfree hkeys) (.ite_neg (by simp) ?_)
  refine .after (fun _ => verifiedSourceFile_answers hr hsource.reaches hplace) ?_
  refine .after (fun _ => shredHandle_answers hr i shred) (.bind (.ofExcept (originalFilename_at ht hsource hfile)
    (Q := fun name fs' => name = ⟨m.bytes, (ht.lasting d m _ hfile).text⟩ ∧ fs' = fs) ⟨rfl, rfl⟩) ?_)
  rintro _ fs₁ ⟨rfl, rfl⟩
  exact .pure ⟨rfl, rfl⟩

/-- A feasible plan is carried out, and what is stored changes by it alone. -/
theorem encryptFileToPath_completes (hr : env.Reliable) (hC : env.crates.Serves password) (ht : fs.Tidy)
    {plan : EncryptionPlan} (h : plan.Feasible env fs) (force shred : Bool) :
    Completes fs (encryptFileToPath env plan.source plan.output password force shred) fun p fs' =>
      p = plan.output ∧ fs.Restocked fs' ∧ ∃ content c,
        fs.bytesAt (fs.place plan.source) = some content ∧
        SealsAt env.crates password (fs.place plan.source) content c ∧
        fs'.bytesAt = moved shred (fs.place plan.source) (fs.place plan.output) c fs.bytesAt := by
  obtain ⟨d, m, n, hsource, houtput, hlong, hn, hkeys⟩ := h.paths
  obtain ⟨content, hcontent, hsize⟩ := h.content
  have hfree := h.free
  rw [hsource.place] at hcontent ⊢
  rw [houtput.place] at hfree ⊢
  obtain ⟨i, hfile, rfl⟩ := Fs.bytesAt_eq_some.1 hcontent
  have hd := ht.parent hfile
  have hapart : d ++ [m] ≠ d ++ [n] := by
    intro heq
    rw [← heq, hfile] at hfree
    cases hfree
  rw [encryptFileToPath_eq]
  refine .bind (encryptionSource_completes hr ht hsource houtput hfile hfree hkeys shred) ?_
  rintro _ fs₁ ⟨rfl, rfl⟩
  have hbody (o : AtomicOutput) (a b : UInt64) (fs' : Fs) (hready : o.Ready fs₁ d a b)
      (hw : o.Written fs₁ d a b [] fs') : Completes fs' (writeEncrypted env password
        ⟨m.bytes, (ht.lasting d m _ hfile).text⟩ i o.file) fun _ fs'' => ∃ c, Encloses env.crates password c
          ⟨m.bytes, (ht.lasting d m _ hfile).text⟩ (fs₁.content i) ∧ o.Written fs₁ d a b c fs'' :=
    writeEncrypted_completes hr hC hready hw m.bytes_ne_nil hlong (Fs.nodeAt_lt hfile) hsize
  refine .bind (AtomicOutput.writing_completes hr ht.absolute_nul ht.exact houtput h.parents.2
    (by rwa [ht.entryLoc]) (ht.roomy d) hn.temp hbody force) ?_
  rintro _ fs₂ ⟨rfl, c, hc, hover⟩
  rw [ht.entryLoc] at hover
  have hputs := Fs.puts_of_over ht hd hfree hn hover
  have hseals : SealsAt env.crates password (d ++ [m]) (fs₁.content i) c := ⟨d, m, _, rfl, rfl, hc⟩
  cases shred with
  | false => exact .pure ⟨rfl, hputs.toRestocked, _, c, hcontent, hseals, hputs.bytesAt⟩
  | true =>
    have hfile₂ : fs₂.nodeAt (fs₂.entryLoc d m) = some (.file i) := by
      rw [hputs.tidy.entryLoc, hover.nodeAt, Fs.installed, Function.update_of_ne hapart, hfile]
    refine .bind (secureDeleteInner_completes hr (hsource.keep hputs.keeps) h.parents.1 hfile₂
      (hputs.tidy.links (by rwa [hputs.tidy.entryLoc] at hfile₂)) (hputs.tidy.roomy d)) ?_
    rintro _ fs₃ ⟨hkeeps, hnode, hother⟩
    rw [hputs.tidy.entryLoc] at hfile₂ hnode
    have hdrops := Fs.drops_of_update hputs.tidy hkeeps hfile₂ hnode hother
    refine .pure ⟨rfl, hputs.toRestocked.trans hdrops.toRestocked, _, c, hcontent, hseals, ?_⟩
    rw [hdrops.bytesAt, hputs.bytesAt]
    rfl

end

/-! ## The batch -/

/-- From where to where a plan takes what is stored. -/
def EncryptionPlan.job (fs : Fs) (plan : EncryptionPlan) : Loc × Loc := (fs.place plan.source, fs.place plan.output)

/-- What a batch makes of a source's content. -/
def Sealing (C : Crates) (password : Bytes) : Loc → Loc → Bytes → Bytes → Prop :=
  fun source _ => SealsAt C password source

section
variable {env : Env} {fs fs' : Fs} {plan other : EncryptionPlan} {plans : List EncryptionPlan} {password c : Bytes}
  {shred : Bool}

theorem EncryptionPlan.Feasible.job_keep (h : plan.Feasible env fs) (hk : fs.Keeps fs') : plan.job fs' = plan.job fs := by
  obtain ⟨d, m, n, hsource, houtput, -⟩ := h.paths
  rw [EncryptionPlan.job, EncryptionPlan.job, hsource.place, houtput.place, (hsource.keep hk).place,
    (houtput.keep hk).place]

/-- A plan stays feasible while others are carried out. -/
theorem EncryptionPlan.Feasible.keep (h : plan.Feasible env fs) (ht : fs.Tidy) (hre : fs.Restocked fs')
    (hbytes : fs'.bytesAt = moved shred (other.job fs).1 (other.job fs).2 c fs.bytesAt)
    (hsep : Transfer.Separate [other.job fs, plan.job fs]) : plan.Feasible env fs' := by
  obtain ⟨hsources, htargets, hcross, hcross'⟩ := hsep.head List.mem_cons_self
  have hjob := h.job_keep hre.keeps
  have hsource : fs'.bytesAt (fs'.place plan.source) = fs.bytesAt (fs.place plan.source) := by
    rw [show fs'.place plan.source = fs.place plan.source from congrArg Prod.fst hjob, hbytes]
    exact Transfer.moved_other hsources hcross
  have houtput : fs'.bytesAt (fs'.place plan.output) = fs.bytesAt (fs.place plan.output) := by
    rw [show fs'.place plan.output = fs.place plan.output from congrArg Prod.snd hjob, hbytes]
    exact Transfer.moved_other hcross'.symm htargets
  constructor
  · obtain ⟨d, m, n, hsource, houtput, hrest⟩ := h.paths
    exact ⟨d, m, n, hsource.keep hre.keeps, houtput.keep hre.keeps, hrest⟩
  · exact h.parents
  · rw [hsource]
    exact h.content
  · rw [hre.tidy.absent_iff, houtput, hre.dirAt,
      show fs'.place plan.output = fs.place plan.output from congrArg Prod.snd hjob]
    exact ht.absent_iff.1 h.free

/-- A batch of feasible plans is carried out, all of them. -/
theorem encryptPlans_completes (hr : env.Reliable) (hC : env.crates.Serves password) (ht : fs.Tidy)
    (hplans : ∀ plan ∈ plans, plan.Feasible env fs) (hsep : Transfer.Separate (plans.map (EncryptionPlan.job fs)))
    (force shred : Bool) :
    Completes fs (encryptPlans env password force shred plans) fun results fs' =>
      results = plans.map (fun plan => .ok plan.output) ∧ fs.Restocked fs' ∧
        Transfer.Run (Sealing env.crates password) shred (plans.map (EncryptionPlan.job fs)) fs.bytesAt fs'.bytesAt := by
  induction plans generalizing fs with
  | nil => exact .pure ⟨rfl, ⟨.refl fs, ht, rfl⟩, .nil⟩
  | cons plan plans ih =>
    have hplan := hplans plan List.mem_cons_self
    refine .bind (.attempt (encryptFileToPath_completes hr hC ht hplan force shred)) ?_
    rintro _ fs₁ ⟨_, rfl, rfl, hre, content, c, hcontent, hseals, hbytes⟩
    have hmore (other : EncryptionPlan) (hmem : other ∈ plans) : other.Feasible env fs₁ := by
      refine (hplans other (List.mem_cons_of_mem _ hmem)).keep ht hre hbytes ?_
      refine hsep.sublist (List.cons_sublist_cons.2 ?_)
      exact List.singleton_sublist.2 (List.mem_map_of_mem hmem)
    have hjobs : plans.map (EncryptionPlan.job fs₁) = plans.map (EncryptionPlan.job fs) :=
      List.map_congr_left fun other hmem => (hplans other (List.mem_cons_of_mem _ hmem)).job_keep hre.keeps
    have hrest := ih hre.tidy hmore (by rw [hjobs]; exact hsep.tail)
    rw [hjobs] at hrest
    refine .bind hrest ?_
    rintro _ fs₂ ⟨rfl, hre', hrun⟩
    refine .pure ⟨rfl, hre.trans hre', ?_⟩
    refine .cons hcontent ?_ hseals (hbytes ▸ hrun)
    exact (ht.absent_iff.1 hplan.free).1

end

/-! ## The plan -/

/-- Nothing keeps a file from being encrypted beside itself: its path has a directory,
its name and its size fit, and its default output is not there. -/
structure Fs.Fits (fs : Fs) (p : Path) : Prop where
  parent : p.parentOrHere ≠ .empty
  name : ∀ m, p.fileName = some m → m.bytes.length ≤ maxFilenameBytes
  size : ∀ i, fs.IsFile p i → (fs.content i).length < 2 ^ 64
  free : ¬fs.Exists (defaultPath p)

section
variable {env : Env} {fs : Fs} {w w' : World} {p result source output : Path} {plans : List EncryptionPlan}
  {inputs : List Path}

theorem exists_eq_false (hr : env.Reliable) (ht : w.fs.Tree) (h : Sys.exists_ env p w = (.ok false, w')) :
    ¬w.fs.Exists p := by
  rintro ⟨names, x, hresolve, hx⟩
  have hfollow := Fs.resolve_follow (fun t hlink => ht.no_link names t hlink) hresolve
  have hop : Fs.metadata p w.fs = (.ok ⟨x, w.fs.size x⟩, w.fs) := by simp only [Fs.metadata, Fs.look, hfollow, hx]
  have hthere : Answers w.fs w.draws (Sys.exists_ env p) (.ok true) w.draws :=
    .bind (try_answers hr.quiet hr.faultless hop) (.pure _)
  cases (hthere.unique rfl h).1

/-- An output that has a suffix and is not there. -/
def Suffixed (fs : Fs) (source output : Path) : Prop :=
  (∃ suffix, output = suffixedPath source suffix) ∧ ¬fs.Exists output

theorem uniqueEncryptedPath_suffixed (hr : env.Reliable) (ht : w.fs.Tree) {taken : List Bytes}
    (h : uniqueEncryptedPath env source taken w = (.ok result, w')) : Suffixed w.fs source result := by
  rcases hstem : toStr source.fileStem with _ | stem <;> simp only [uniqueEncryptedPath, hstem] at h
  · cases h
  generalize 128 = tries at h
  induction tries generalizing w with
  | zero => cases h
  | succ tries ih =>
    obtain ⟨suffix, w₁, hdraw, h⟩ := Eff.bind_eq_ok.1 h
    obtain ⟨key, w₂, hkey, h⟩ := Eff.bind_eq_ok.1 h
    have hfs₁ : w₁.fs = w.fs := (((Looks.draw _).still hr.quiet).run hdraw).1
    have hfs₂ : w₂.fs = w.fs := (((normalizedPathKey_looks _).still hr.quiet).run hkey).1.trans hfs₁
    split at h
    · rw [← hfs₂]
      exact ih (by rwa [hfs₂]) h
    obtain ⟨present, w₃, hexists, h⟩ := Eff.bind_eq_ok.1 h
    have hfs₃ : w₃.fs = w.fs := (((exists_looks _).still hr.quiet).run hexists).1.trans hfs₂
    cases present with
    | true =>
      rw [← hfs₃]
      exact ih (by rwa [hfs₃]) h
    | false =>
      cases h
      refine ⟨⟨suffix, by rw [suffixedPath, toStr_eq_some hstem, Option.getD_some]⟩, ?_⟩
      rw [← hfs₂]
      exact exists_eq_false hr (by rwa [hfs₂]) hexists

theorem planOutput_suffixed (hr : env.Reliable) (ht : w.fs.Tree) {defaultKeys taken : List Bytes} {key : Bytes}
    {defaultOutput : Path} (h : planOutput env defaultKeys taken source defaultOutput w = (.ok (output, key), w')) :
    output = defaultOutput ∨ Suffixed w.fs source output := by
  obtain ⟨b, w₁, hcollides, h⟩ := Eff.bind_eq_ok.1 h
  have hfs₁ : w₁.fs = w.fs := (((collides_looks _ _ _ _).still hr.quiet).run hcollides).1
  cases b with
  | true =>
    obtain ⟨found, w₂, hunique, h⟩ := Eff.bind_eq_ok.1 h
    obtain ⟨key', w₃, -, h⟩ := Eff.bind_eq_ok.1 h
    split at h
    · cases h
    cases h
    rw [← hfs₁]
    exact .inr (uniqueEncryptedPath_suffixed hr (by rwa [hfs₁]) hunique)
  | false =>
    obtain ⟨found, w₂, hdefault, h⟩ := Eff.bind_eq_ok.1 h
    cases hdefault
    obtain ⟨key', w₃, -, h⟩ := Eff.bind_eq_ok.1 h
    split at h
    · cases h
    cases h
    exact .inl rfl

theorem planOutputs_suffixed (hr : env.Reliable) (ht : w.fs.Tree) {defaultKeys taken : List Bytes}
    {pairs : List (Path × Path)} (h : planOutputs env defaultKeys pairs taken w = (.ok plans, w')) :
    ∀ plan ∈ plans, (plan.source, plan.output) ∈ pairs ∨ Suffixed w.fs plan.source plan.output := by
  induction pairs generalizing plans taken w with
  | nil =>
    cases h
    simp
  | cons pair pairs ih =>
    obtain ⟨⟨output, key⟩, w₁, houtput, h⟩ := Eff.bind_eq_ok.1 h
    obtain ⟨more, w₂, hmore, h⟩ := Eff.bind_eq_ok.1 h
    cases h
    have hfs₁ : w₁.fs = w.fs := (((planOutput_looks _ _ _ _).still hr.quiet).run houtput).1
    have hrest := ih (by rwa [hfs₁]) hmore
    rw [hfs₁] at hrest
    refine List.forall_mem_cons.2 ⟨?_, fun plan hmem => (hrest plan hmem).imp_left (List.mem_cons_of_mem _)⟩
    refine (planOutput_suffixed hr ht houtput).imp_left ?_
    rintro rfl
    exact List.mem_cons_self

/-- An output that is planned is the default one, or one with a suffix that is not there. -/
theorem planEncryptionInputs_suffixed (hr : env.Reliable) (ht : w.fs.Tree)
    (h : planEncryptionInputs env inputs w = (.ok plans, w')) :
    ∀ plan ∈ plans, plan.output = defaultPath plan.source ∨ Suffixed w.fs plan.source plan.output := by
  obtain ⟨sources, w₁, hcollect, h⟩ := Eff.bind_eq_ok.1 h
  have hfs₁ : w₁.fs = w.fs := (((collectInputs_looks _ _).still hr.quiet).run hcollect).1
  obtain ⟨⟨keys, handles⟩, w₂, hregister, h⟩ := Eff.bind_eq_ok.1 h
  have hfs₂ : w₂.fs = w.fs := (((registerSources_looks _ _ _).still hr.quiet).run hregister).1.trans hfs₁
  obtain ⟨defaults, w₃, hdefaults, h⟩ := Eff.bind_eq_ok.1 h
  rw [Eff.ofExcept_apply, Prod.mk.injEq] at hdefaults
  obtain ⟨hdefaults, rfl⟩ := hdefaults
  obtain ⟨defaultKeys, w₄, hdefaultKeys, h⟩ := Eff.bind_eq_ok.1 h
  have hfs₄ : w₄.fs = w.fs := (((pathKeys_looks _).still hr.quiet).run hdefaultKeys).1.trans hfs₂
  intro plan hmem
  have hsuffixed := planOutputs_suffixed hr (by rwa [hfs₄]) h plan hmem
  rw [hfs₄, defaultEncryptedPaths_run hdefaults] at hsuffixed
  refine hsuffixed.imp_left ?_
  intro hpair
  have hzip : sources.zip (sources.map defaultPath) = sources.map fun s => (s, defaultPath s) := by
    simpa using (List.zip_map' : (sources.map id).zip (sources.map defaultPath) = _)
  rw [hzip] at hpair
  obtain ⟨s, -, heq⟩ := List.mem_map.1 hpair
  rw [Prod.mk.injEq] at heq
  rw [← heq.1, heq.2]

/-- No temporary file is named like an encrypted one. -/
theorem tempName_ne_of_extension {n : Name} (h : n.extension = some ironlockExtension) (a b : UInt64) :
    tempName a b ≠ n := by
  rintro rfl
  have hextension : (tempName a b).extension = some (ascii "tmp") := by
    refine Name.extension_eq_some (x := ascii ".ironlock-" ++ hex16 a ++ ascii "-" ++ hex16 b) ?_ ?_ (by decide)
    · simp [tempName, tempFormat, ascii, dot]
    · simp [ascii]
  rw [hextension] at h
  exact absurd h (by decide)

/-- What is made of the name of a source lasts. -/
theorem lasting_of_stem {d : List Name} {m n : Name} {i : Nat} {front : Bytes} (ht : fs.Tidy)
    (hfile : fs.nodeAt (d ++ [m]) = some (.file i)) (hn : n.bytes = m.stem ++ front ++ [dot] ++ ironlockExtension)
    (hfront : ∀ b ∈ front, b < 0x80 ∧ b ≠ 0) : n.Lasting := by
  have hm := ht.lasting d m _ hfile
  have hend : ∀ b ∈ [dot] ++ ironlockExtension, b < 0x80 ∧ b ≠ 0 := by decide +kernel
  have htail : ∀ b ∈ front ++ ([dot] ++ ironlockExtension), b < 0x80 ∧ b ≠ 0 := by
    intro b hb
    rcases List.mem_append.1 hb with hb | hb
    · exact hfront b hb
    · exact hend b hb
  have hbytes : n.bytes = m.stem ++ (front ++ ([dot] ++ ironlockExtension)) := by simp [hn]
  constructor
  · rw [hbytes]
    exact Utf8.valid_append (Name.stem_valid hm.text) (Utf8.valid_ascii fun b hb => (htail b hb).1)
  · rw [hbytes]
    simp only [List.contains_eq_mem, decide_eq_false_iff_not]
    intro hzero
    rcases List.mem_append.1 hzero with hzero | hzero
    · have hnul : 0 ∉ m.bytes := by simpa using hm.nul
      exact hnul (Name.stem_subset hzero)
    · exact (htail 0 hzero).2 rfl
  · exact tempName_ne_of_extension (Name.extension_eq_some hn (by simp [m.stem_ne_nil]) (by decide))

/-- An output is beside its source, and its name lasts. -/
theorem output_beside {d : List Name} {m n : Name} {i : Nat} (ht : fs.Tidy) (hsource : fs.At source d m)
    (houtput : fs.At output d n) (hfile : fs.nodeAt (d ++ [m]) = some (.file i))
    (hpath : output = defaultPath source ∨ Suffixed fs source output) :
    n.Lasting ∧ output = source.parentOrEmpty.push (.name n) := by
  have hstem := Fs.Tree.fileStem_at hsource
  have hname (front : Bytes) (hfront : ∀ b ∈ front, b < 0x80 ∧ b ≠ 0 ∧ b ≠ slash)
      (heq : output = source.parentOrEmpty.joinRaw (m.stem ++ front ++ [dot] ++ ironlockExtension)) :
      n.Lasting ∧ output = source.parentOrEmpty.push (.name n) := by
    have hslash : slash ∉ front ++ ([dot] ++ ironlockExtension) := by
      rw [List.mem_append, not_or]
      exact ⟨fun h => (hfront _ h).2.2 rfl, by decide⟩
    have hnul : 0 ∉ front ++ ([dot] ++ ironlockExtension) := by
      rw [List.mem_append, not_or]
      exact ⟨fun h => (hfront _ h).2.1 rfl, by decide⟩
    obtain ⟨n', hat, hbytes, hjoin⟩ := ht.at_joinRaw hsource hfile hslash hnul (by simp [ironlockExtension, ascii])
    have hassoc : m.stem ++ front ++ [dot] ++ ironlockExtension = m.stem ++ (front ++ ([dot] ++ ironlockExtension)) := by
      simp
    rw [hassoc] at heq
    obtain ⟨-, rfl⟩ := (heq ▸ houtput).unique hat
    refine ⟨lasting_of_stem ht hfile ?_ fun b hb => ⟨(hfront b hb).1, (hfront b hb).2.1⟩, heq.trans hjoin⟩
    rw [hbytes, hassoc]
  rcases hpath with rfl | ⟨⟨suffix, rfl⟩, -⟩
  · refine hname [] (by simp) ?_
    rw [defaultPath, hstem, Option.getD_some, List.append_nil]
  · refine hname (ascii "-" ++ hex16 suffix) ?_ ?_
    · intro b hb
      rcases List.mem_append.1 hb with hb | hb
      · have hdash : ∀ b ∈ ascii "-", b < 0x80 ∧ b ≠ 0 ∧ b ≠ slash := by decide +kernel
        exact hdash b hb
      · exact ⟨hexDigits_ascii hb, (hex16_plain hb).2.2, (hex16_plain hb).1⟩
    · rw [suffixedPath, hstem, Option.getD_some, List.append_assoc m.stem]

theorem Fs.Tree.absent_at {d : List Name} {n : Name} (ht : fs.Tree) (hat : fs.At p d n) (h : ¬fs.Exists p) :
    fs.nodeAt (d ++ [n]) = none := by
  rw [Option.eq_none_iff_forall_ne_some]
  intro x hx
  exact h ⟨d ++ [n], x, hat.resolve (.inl rfl), by rw [ht.node]; exact hx⟩

namespace Planned

variable {files : List Path}

theorem source_mem (h : Planned env fs files plans) {plan : EncryptionPlan} (hmem : plan ∈ plans) : plan.source ∈ files :=
  h.sources.mem_iff.1 (List.mem_map_of_mem hmem)

/-- The plans for files that fit are feasible. -/
theorem feasible (h : Planned env fs files plans) (ht : fs.Tidy) (hfiles : ∀ p ∈ files, ∃ i, fs.IsFile p i)
    (hfits : ∀ p ∈ files, fs.Fits p)
    (hpaths : ∀ plan ∈ plans, plan.output = defaultPath plan.source ∨ Suffixed fs plan.source plan.output) :
    ∀ plan ∈ plans, plan.Feasible env fs := by
  intro plan hmem
  have hsource := h.source_mem hmem
  have hfit := hfits _ hsource
  obtain ⟨i, hi⟩ := hfiles _ hsource
  obtain ⟨d, m, n, hat, houtput⟩ := h.beside plan hmem
  obtain ⟨d', m', hat', hfile⟩ := ht.at_of_isFile hi
  obtain ⟨rfl, rfl⟩ := hat.unique hat'
  obtain ⟨hlasting, hbeside⟩ := output_beside ht hat houtput hfile (hpaths plan hmem)
  have hkeys := h.apart plan hmem plan hmem
  rw [ht.keyOf_eq houtput, ht.keyOf_eq hat] at hkeys
  obtain ⟨q, hparent, hq, -⟩ := hat.parent
  constructor
  · refine ⟨d, m, n, hat, houtput, hfit.name m ?_, hlasting, hkeys.symm⟩
    rw [hq, Path.push_fileName]
  · refine ⟨hfit.parent, ?_⟩
    have hempty := hfit.parent
    have hdirOnly := Path.parentOrHere_dirOnly plan.source
    rw [Path.parentOrHere, hparent, Option.getD_some] at hempty hdirOnly
    rw [hbeside, Path.parentOrEmpty, hparent, Option.getD_some, Path.push_parentOrHere _ _ hdirOnly]
    exact hempty
  · rw [hat.place]
    exact ⟨_, Fs.bytesAt_file hfile, hfit.size i hi⟩
  · rw [houtput.place]
    refine ht.absent_at houtput ?_
    rcases hpaths plan hmem with heq | hsuffixed
    · rw [heq]
      exact hfit.free
    · exact hsuffixed.2

/-- They are of different files, and have different outputs, none of them a source. -/
theorem separate (h : Planned env fs files plans) (ht : fs.Tree) (hdistinct : fs.Distinct env files) :
    Transfer.Separate (plans.map (EncryptionPlan.job fs)) := by
  have hkeys {p q : Path} {d d' : List Name} {n n' : Name} (hp : fs.At p d n) (hq : fs.At q d' n')
      (heq : d ++ [n] = d' ++ [n']) : fs.keyOf env p = fs.keyOf env q := by
    rw [ht.keyOf_eq hp, ht.keyOf_eq hq, heq]
  have hsources : (plans.map EncryptionPlan.source).Pairwise fun p q => ¬fs.SameFile env p q :=
    (Fs.Distinct.perm h.sources).2 hdistinct
  rw [List.pairwise_map] at hsources
  constructor
  · rw [List.map_map, List.Nodup, List.pairwise_map]
    refine hsources.imp_of_mem ?_
    intro a b ha hb hne heq
    obtain ⟨d, m, -, hat, -⟩ := h.beside a ha
    obtain ⟨d', m', -, hat', -⟩ := h.beside b hb
    simp only [Function.comp_apply, EncryptionPlan.job, hat.place, hat'.place] at heq
    exact hne (.inl (hkeys hat hat' heq))
  · rw [List.map_map, List.Nodup, List.pairwise_map]
    refine h.outputs.imp_of_mem ?_
    intro a b ha hb hne heq
    obtain ⟨d, -, n, -, hat⟩ := h.beside a ha
    obtain ⟨d', -, n', -, hat'⟩ := h.beside b hb
    simp only [Function.comp_apply, EncryptionPlan.job, hat.place, hat'.place] at heq
    exact hne (hkeys hat hat' heq)
  · intro a ha b hb
    obtain ⟨plan, hplan, rfl⟩ := List.mem_map.1 ha
    obtain ⟨other, hother, rfl⟩ := List.mem_map.1 hb
    obtain ⟨d, m, -, hat, -⟩ := h.beside plan hplan
    obtain ⟨d', -, n', -, hat'⟩ := h.beside other hother
    simp only [EncryptionPlan.job, hat.place, hat'.place]
    intro heq
    exact h.apart other hother plan hplan (hkeys hat' hat heq.symm)

end Planned

end

/-! ## The command -/

section
variable {env : Env} {console : Console} {password : Str} {inputs : List Path} {force shred progress : Bool}
  {s : Session} {w : World}

/-- When nothing fails, files that fit are planned, and every plan is carried out. -/
theorem encryptInputs_completes (hr : env.Reliable) {password : Bytes} (hC : env.crates.Serves password)
    (ht : w.fs.Tidy) (hin : ∀ input ∈ inputs, w.fs.Exists input)
    (hdistinct : w.fs.Distinct env (w.fs.inputsFiles false inputs))
    (hfresh : FreshSuffixes env w.fs w.draws (w.fs.inputsFiles false inputs))
    (hfits : ∀ p ∈ w.fs.inputsFiles false inputs, w.fs.Fits p) (force shred : Bool) :
    ∃ plans w₁ w₂, planEncryptionInputs env inputs w = (.ok plans, w₁) ∧
      encryptPlans env password force shred plans w₁ = (.ok (plans.map fun plan => .ok plan.output), w₂) ∧
      Planned env w.fs (w.fs.inputsFiles false inputs) plans ∧
      Transfer.Separate (plans.map (EncryptionPlan.job w.fs)) ∧ w.fs.Restocked w₂.fs ∧
      Transfer.Run (Sealing env.crates password) shred (plans.map (EncryptionPlan.job w.fs)) w.fs.bytesAt
        w₂.fs.bytesAt := by
  obtain ⟨sources, inode, hcollect, hb, hperm, hsorted⟩ := batch_of_inputs hr.quiet hr.faultless ht.toTree hin
  obtain ⟨plans, k, hanswers, hplanned⟩ := planEncryptionInputs_answers hr.quiet hr.faultless hcollect hb hperm hsorted
    (hfresh.perm hperm) ((Fs.Distinct.perm hperm).2 hdistinct)
  obtain ⟨w₁, hplan, hw⟩ := hanswers.run (s := w) rfl
  have hfs : w₁.fs = w.fs := congrArg Prod.fst hw
  have hfeasible := hplanned.feasible ht (ht.inputsFiles_isFile hin) hfits
    (planEncryptionInputs_suffixed hr ht.toTree hplan)
  have hseparate := hplanned.separate ht.toTree hdistinct
  obtain ⟨results, w₂, hrun, rfl, hre, hjobs⟩ := (encryptPlans_completes hr hC ht hfeasible hseparate force shred).run hfs
  exact ⟨plans, w₁, w₂, hplan, hrun, hplanned, hseparate, hre, hjobs⟩

/-- When nothing fails, an encryption of files that fit ends in 0. -/
theorem encryption_completes (hr : env.Reliable) (hpassword : password.bytes ≠ [])
    (hC : env.crates.Serves password.bytes) (hconsole : console.Answers password) (ht : s.world.fs.Tidy)
    (hin : ∀ input ∈ inputs, s.world.fs.Exists input) (hsome : s.world.fs.inputsFiles false inputs ≠ [])
    (hdistinct : s.world.fs.Distinct env (s.world.fs.inputsFiles false inputs))
    (hfresh : FreshSuffixes env s.world.fs s.world.draws (s.world.fs.inputsFiles false inputs))
    (hfits : ∀ p ∈ s.world.fs.inputsFiles false inputs, s.world.fs.Fits p) :
    ∃ t plans, main env console (.encrypt inputs force shred progress) s = (0, t) ∧
      Planned env s.world.fs (s.world.fs.inputsFiles false inputs) plans ∧
      Transfer.Separate (plans.map (EncryptionPlan.job s.world.fs)) ∧ s.world.fs.Restocked t.world.fs ∧
      Transfer.Run (Sealing env.crates password.bytes) shred (plans.map (EncryptionPlan.job s.world.fs))
        s.world.fs.bytesAt t.world.fs.bytesAt := by
  obtain ⟨plans, w₁, w₂, hplan, hrun, hplanned, hseparate, hre, hjobs⟩ :=
    encryptInputs_completes hr hC ht hin hdistinct hfresh hfits force shred
  have hfiles : inputs ≠ [] := by
    rintro rfl
    exact hsome rfl
  have hplans : plans ≠ [] := by
    rintro rfl
    exact hsome hplanned.sources.symm.eq_nil
  obtain ⟨t, hmain, rfl⟩ := main_encrypt_answered hconsole hpassword hfiles hplan hplans hrun
    (by simp [Except.isOk, Except.toBool])
  exact ⟨t, plans, hmain, hplanned, hseparate, hre, hjobs⟩

end

/-- What an encryption that succeeds leaves: every source is sealed in its output,
and gone if it is shredded; all other files and the directories are as they were. -/
structure AllStored (C : Crates) (password : Bytes) (shred : Bool) (plans : List EncryptionPlan) (fs fs' : Fs) :
    Prop where
  stored : ∀ plan ∈ plans, ∃ content c, fs.bytesAt (fs.place plan.source) = some content ∧
    SealsAt C password (fs.place plan.source) content c ∧ fs'.bytesAt (fs.place plan.output) = some c ∧
    fs'.bytesAt (fs.place plan.source) = if shred then none else some content
  others : ∀ l, (∀ plan ∈ plans, l ≠ fs.place plan.source ∧ l ≠ fs.place plan.output) → fs'.bytesAt l = fs.bytesAt l
  dirAt : fs'.dirAt = fs.dirAt

/-- An encryption fails for a reason only. When no call fails and no one interferes,
a batch of existing inputs in a tree without hard links and temporary files ends in
0, if no two of its files have one key, each fits where it is, and the suffixes
drawn are fresh; then every file is sealed beside itself, and nothing else changes
but that sources are shredded. -/
theorem encrypt_command_completes {env : Env} (hr : env.Reliable) {password : Str} (hpassword : password.bytes ≠ [])
    (hC : env.crates.Serves password.bytes) {console : Console} (hconsole : console.Answers password)
    {inputs : List Path} {force shred progress : Bool} {s : Session} (ht : s.world.fs.Tidy)
    (hin : ∀ input ∈ inputs, s.world.fs.Exists input) (hsome : s.world.fs.inputsFiles false inputs ≠ [])
    (hdistinct : s.world.fs.Distinct env (s.world.fs.inputsFiles false inputs))
    (hfresh : FreshSuffixes env s.world.fs s.world.draws (s.world.fs.inputsFiles false inputs))
    (hfits : ∀ p ∈ s.world.fs.inputsFiles false inputs, s.world.fs.Fits p) :
    ∃ t plans, main env console (.encrypt inputs force shred progress) s = (0, t) ∧
      Planned env s.world.fs (s.world.fs.inputsFiles false inputs) plans ∧ t.world.fs.Tidy ∧
      AllStored env.crates password.bytes shred plans s.world.fs t.world.fs := by
  obtain ⟨t, plans, hmain, hplanned, hsep, hre, hrun⟩ := @encryption_completes env console password inputs force shred
    progress s hr hpassword hC hconsole ht hin hsome hdistinct hfresh hfits
  refine ⟨t, plans, hmain, hplanned, hre.tidy, ?_, ?_, hre.dirAt⟩
  · intro plan hmem
    have hjob := List.mem_map_of_mem (f := EncryptionPlan.job s.world.fs) hmem
    obtain ⟨content, c, hcontent, hseals, hc⟩ := hrun.at_target hsep hjob
    have hsource := hrun.at_source hsep hjob
    rw [hcontent] at hsource
    exact ⟨content, c, hcontent, hseals, hc, hsource⟩
  · intro l hl
    apply hrun.kept
    · intro hmem
      obtain ⟨job, hjob, rfl⟩ := List.mem_map.1 hmem
      obtain ⟨plan, hplan, rfl⟩ := List.mem_map.1 hjob
      exact (hl plan hplan).1 rfl
    · intro hmem
      obtain ⟨job, hjob, rfl⟩ := List.mem_map.1 hmem
      obtain ⟨plan, hplan, rfl⟩ := List.mem_map.1 hjob
      exact (hl plan hplan).2 rfl

/-- `/a/b`, a file in a directory. -/
def textBelow : World :=
  ⟨(((Fs.blank []).mkdir [] nameA).create [nameA] nameB).setContent 0 [1, 2, 3], 0, 0, []⟩

theorem textBelow_tidy : textBelow.fs.Tidy := by
  have ha : nameA.Lasting := Name.lasting_letter rfl (by decide) (by decide)
  have hb : nameB.Lasting := Name.lasting_letter rfl (by decide) (by decide)
  have hdir : ((Fs.blank []).mkdir [] nameA).Tidy := (Fs.tidy_blank.mkdir rfl (by decide +kernel) ha).1
  exact (hdir.create (by decide +kernel) (by decide +kernel) hb).setContent 0 [1, 2, 3]

theorem textBelow_files : textBelow.fs.inputsFiles false [.absolute [nameA]] = [.absolute [nameA, nameB]] := by
  decide +kernel

theorem textBelow_fresh : FreshSuffixes (Env.calm .checksummed) textBelow.fs textBelow.draws
    (textBelow.fs.inputsFiles false [.absolute [nameA]]) := by
  rw [textBelow_files]
  constructor <;> decide +kernel

/-- `/a/b` and `/a/c`. -/
def textsBelow : World := ⟨(textBelow.fs.create [nameA] nameC).setContent 1 [4, 5], 0, 0, []⟩

theorem textsBelow_tidy : textsBelow.fs.Tidy := by
  have hc : nameC.Lasting := Name.lasting_letter rfl (by decide) (by decide)
  exact (textBelow_tidy.create (by decide +kernel) (by decide +kernel) hc).setContent 1 [4, 5]

/-- `/a` encrypted with what is below it, and shredded. -/
theorem encrypt_command_completes_below : ∃ t plans,
    main (Env.calm .checksummed) (.answering passwordPw []) (.encrypt [.absolute [nameA]] false true false)
      (.start textsBelow) = (0, t) ∧ t.world.fs.Tidy ∧
      AllStored .checksummed passwordPw.bytes true plans textsBelow.fs t.world.fs := by
  have hfiles : textsBelow.fs.inputsFiles false [.absolute [nameA]] =
      [.absolute [nameA, nameC], .absolute [nameA, nameB]] := by decide +kernel
  have hb : textsBelow.fs.IsFile (.absolute [nameA, nameB]) 0 := ⟨[nameA, nameB], by decide +kernel⟩
  have hc : textsBelow.fs.IsFile (.absolute [nameA, nameC]) 1 := ⟨[nameA, nameC], by decide +kernel⟩
  have hdistinct : textsBelow.fs.Distinct (Env.calm .checksummed)
      (textsBelow.fs.inputsFiles false [.absolute [nameA]]) := by
    rw [hfiles]
    refine List.pairwise_pair.2 ?_
    rintro (hkey | ⟨i, hi, hj⟩)
    · revert hkey
      decide +kernel
    · cases (hi.unique hc).symm.trans (hj.unique hb)
  have hfresh : FreshSuffixes (Env.calm .checksummed) textsBelow.fs textsBelow.draws
      (textsBelow.fs.inputsFiles false [.absolute [nameA]]) := by
    rw [hfiles]
    constructor <;> decide +kernel
  have hfits {n : Name} {i : Nat} (hi : textsBelow.fs.IsFile (.absolute [nameA, n]) i)
      (hname : n.bytes.length ≤ maxFilenameBytes) (hsize : (textsBelow.fs.content i).length < 2 ^ 64)
      (hfree : ¬textsBelow.fs.Exists (defaultPath (.absolute [nameA, n]))) :
      textsBelow.fs.Fits (.absolute [nameA, n]) := by
    refine ⟨?_, ?_, ?_, hfree⟩
    · simp [Path.parentOrHere, Path.parent, Path.absolute, Path.empty]
    · intro m hm
      obtain rfl : n = m := Option.some.inj hm
      exact hname
    · intro j hj
      rwa [hj.unique hi]
  have hall : ∀ p ∈ textsBelow.fs.inputsFiles false [.absolute [nameA]], textsBelow.fs.Fits p := by
    rw [hfiles, List.forall_mem_cons, List.forall_mem_singleton]
    exact ⟨hfits hc (by decide) (by decide +kernel) (by decide +kernel),
      hfits hb (by decide) (by decide +kernel) (by decide +kernel)⟩
  have hsome : textsBelow.fs.inputsFiles false [.absolute [nameA]] ≠ [] := by
    rw [hfiles]
    exact List.cons_ne_nil _ _
  obtain ⟨t, plans, hmain, -, htidy, hstored⟩ := @encrypt_command_completes (Env.calm .checksummed)
    (Env.calm_reliable _) passwordPw (by decide) (Crates.checksummed_serves _) (.answering passwordPw [])
    (answering_answers _ _) [.absolute [nameA]] false true false (.start textsBelow) textsBelow_tidy
    (by decide +kernel) hsome hdistinct hfresh hall
  exact ⟨t, plans, hmain, htidy, hstored⟩

end Ironlock
