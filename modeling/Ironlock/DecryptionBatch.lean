import Ironlock.RoundTrip
import Ironlock.Lookup
import Ironlock.SecureFs.GuardFacts

/-! A decryption batch destroys neither its sources nor what it has already
written. -/

namespace Ironlock
open ByteOrder (Bytes)
open Effect
open Fs (Identity Metadata SysCall)

/-- Directories look names up exactly. -/
def Fs.Exact (fs : Fs) : Prop := ∀ d n, fs.fold d n = n

theorem Fs.Exact.loc {fs : Fs} (h : fs.Exact) (names : List Name) : fs.loc names = names := by
  induction names using List.reverseRecOn with
  | nil => rfl
  | append_singleton names n ih => rw [Fs.loc_concat, ih, h]

theorem Fs.Exact.keysRefine {fs : Fs} (h : fs.Exact) (env : Env) : fs.KeysRefine env := by
  intro a b hab
  rw [h.loc, h.loc] at hab
  rw [hab]

/-- Decrypting `source` with `password`, read and written in some portions,
gives `plaintext`. -/
def Decrypts (C : Crates) (password source plaintext : Bytes) : Prop :=
  ∃ cuts accepts d s₁ m s₂,
    StreamDecryptor.new C password ⟨cutReader cuts source, ⟨[], []⟩, []⟩ = (.ok d, s₁) ∧
    d.decryptTo C ⟨s₁.reader, ⟨accepts, []⟩, []⟩ = (.ok m, s₂) ∧ s₂.writer.written = plaintext

/-! ## One file -/

section
variable {env : Env} {source : Path} {password : Bytes} {w w' : World}

theorem verifiedSourceFile_eq_ok (hq : env.Quiet) {i : Nat} {m : Metadata}
    (h : verifiedSourceFile env source w = (.ok (i, m), w')) : w.fs.IsFile source i := by
  obtain ⟨_, w₁, hvalidate, h⟩ := Eff.bind_eq_ok.1 h
  obtain ⟨file, w₂, hopen, h⟩ := Eff.bind_eq_ok.1 h
  obtain ⟨_, _, -, h⟩ := Eff.bind_eq_ok.1 h
  obtain ⟨_, _, -, h⟩ := Eff.bind_eq_ok.1 h
  have hfs := (((validateRegularSource_looks _).still hq).run hvalidate).1
  obtain ⟨names, x, hr, hx, hid⟩ := look_eq_ok (hq.run_tells look_snd hopen).1
  rw [hfs] at hr hx hid
  cases file with
  | dir _ => cases h
  | special _ => cases h
  | file j =>
    obtain ⟨matching, _, -, h⟩ := Eff.bind_eq_ok.1 h
    split at h <;> cases h
    cases x <;> cases hid
    exact ⟨names, hr, hx⟩

theorem openEncrypted_looks : Looks env (openEncrypted env source password) := by
  refine .ite (.fail _) (.bind (verifiedSourceFile_looks _) fun _ => ?_)
  exact .bind Looked.refl fun _ => Looked.refl

theorem openEncrypted_eq_ok (hq : env.Quiet) {d : StreamDecryptor} {reader : Reader}
    (h : openEncrypted env source password w = (.ok (d, reader), w')) :
    ∃ i cuts s₁, w.fs.IsFile source i ∧ s₁.reader = reader ∧
      StreamDecryptor.new env.crates password ⟨cutReader cuts (w.fs.content i), ⟨[], []⟩, []⟩ =
        (.ok d, s₁) := by
  unfold openEncrypted at h
  split at h
  · cases h
  obtain ⟨⟨i, m⟩, w₁, hverified, h⟩ := Eff.bind_eq_ok.1 h
  have hfs := (((verifiedSourceFile_looks _).still hq).run hverified).1
  obtain ⟨reader₀, w₂, hreader, h⟩ := Eff.bind_eq_ok.1 h
  cases hreader
  rw [hfs] at h
  refine ⟨i, env.cuts w₁.calls, ?_⟩
  rcases hnew : StreamDecryptor.new env.crates password
    ⟨cutReader (env.cuts w₁.calls) (w.fs.content i), ⟨[], []⟩, []⟩ with ⟨e | d', s₁⟩ <;>
    simp only [Sys.readStream, hnew] at h <;> cases h
  exact ⟨s₁, verifiedSourceFile_eq_ok hq hverified, rfl, rfl⟩

theorem Fs.Plain.without_dirOnly {fs : Fs} {p : Path} {d : List Name} (h : fs.Plain p d) :
    fs.Plain ⟨p.anchor, p.parts, false⟩ d := ⟨h.start, h.plain, h.names, h.nul⟩

/-- The output of a decryption is a component of a directory found safe. -/
theorem decryptedPath_runs (hq : env.Quiet) {G P : Fs → Prop} (hgrow : Growing G P)
    (outputDir : Option Path) (filename : Str) :
    Runs (Along G P) (decryptedPath env source outputDir filename)
      (fun output => Along G fun fs => P fs ∧ ∃ dir d n, fs.Plain dir d ∧ output = dir.push (.name n))
      fun _ => Along G P := by
  refine .bind (Ψ := fun safe steps fs => (∃ n : Name, safe.bytes = n.bytes) ∧ Along G P steps fs)
    (.ofExcept (fun safe hsafe steps fs hfs => ⟨sanitizedFilename_eq_ok hsafe, hfs⟩)
      fun _ _ _ _ => id) fun safe => .assuming ?_
  rintro ⟨n, hn⟩
  let Q (fs : Fs) : Prop := P fs ∧ ∃ d, fs.Plain (outputDirectory outputDir) d
  refine .bind ((ensureSafeDirectory_runs hq hgrow _).post (Λ := fun _ => Along G Q)
    (fun _ _ _ hfs => ⟨hfs.1, hfs.2.1, hfs.2.2.2⟩) fun _ _ _ => id) fun _ => ?_
  rw [hn, Path.joinRaw_bytes]
  have hevery : ∀ fs, Q fs → G fs := fun fs hfs => hgrow.every fs hfs.1
  refine .bind ((Runs.still_along ((pathsReferToSameFile_looks _ _).still hq) hevery).post
    (fun _ _ _ => id) fun _ _ _ hfs => ⟨hfs.1, hfs.2.1⟩) fun same => .ite (fun _ => ?_) fun _ => ?_
  · have hunique : Within Still (uniqueDecryptedPath env
        ((outputDirectory outputDir).push (.name n))) := (uniqueDecryptedPath_looks _).still hq
    refine (Runs.still hunique hevery (R := fun output _ => ∃ m,
      output = ((outputDirectory outputDir).push (.name n)).parentOrEmpty.push (.name m)) ?_).post
      ?_ fun _ _ _ hfs => ⟨hfs.1, hfs.2.1⟩
    · intro w output w' _ h
      exact uniqueDecryptedPath_eq_ok h
    · rintro output steps fs ⟨hall, ⟨hP, d, hd⟩, m, rfl⟩
      refine ⟨hall, hP, _, d, m, hd.without_dirOnly, ?_⟩
      rw [Path.parentOrEmpty, Path.push_parent]
      rfl
  · refine .pure ?_
    rintro steps fs ⟨hall, hP, d, hd⟩
    exact ⟨hall, hP, _, d, n, hd, rfl⟩

/-- What is decrypted into an open file. -/
theorem writeDecrypted_fills (hq : env.Quiet) (d : StreamDecryptor) (reader : Reader) :
    AtomicOutput.Fills (fun _ c => ∃ accepts m s₂, d.decryptTo env.crates
      ⟨reader, ⟨accepts, []⟩, []⟩ = (.ok m, s₂) ∧ s₂.writer.written = c)
      (writeDecrypted env d reader) := by
  intro G o base names a b h hG
  refine .bind (h.stream_runs hq hG reader (d.decryptTo env.crates)) fun m => ?_
  refine (Runs.still_along ((flush_looks _).still hq) ?_).post ?_ ?_
  · rintro fs ⟨accepts, s', -, hw⟩
    exact hG _ _ hw
  · rintro _ steps fs ⟨hall, accepts, s', hm, hw⟩
    exact ⟨hall, _, ⟨accepts, m, s', hm, rfl⟩, hw⟩
  · rintro _ steps fs ⟨hall, accepts, s', -, hw⟩
    exact ⟨hall, _, hw⟩

end

/-- Each place holds a file that the guard knows as a source, or as the place
of an output it has reserved. -/
def Guarded (env : Env) (g : DecryptionBatchGuard) (fs : Fs) (K : Set Loc) : Prop :=
  ∀ l ∈ K, ∃ i, fs.nodeAt l = some (.file i) ∧
    (.file i ∈ g.sourceHandles ∨ ∃ names, fs.loc names = l ∧ keyText env (.absolute names) ∈ g.reservedOutputs)

/-- What a guard does not forget. -/
structure DecryptionBatchGuard.Grows (g g' : DecryptionBatchGuard) : Prop where
  handles : g'.sourceHandles = g.sourceHandles
  reserved : ∀ key ∈ g.reservedOutputs, key ∈ g'.reservedOutputs

/-- An output that has been committed, at a place with a file and its bytes. -/
structure Stands (fs : Fs) (p : Path) (l : Loc) (i : Nat) (c : Bytes) : Prop where
  leads : fs.resolve false p = .ok l
  file : fs.nodeAt l = some (.file i)
  content : fs.content i = c

/-- The same where directories look names up in any way: the path leads to the names
of the file. -/
structure Rests (fs : Fs) (p : Path) (names : List Name) (i : Nat) (c : Bytes) : Prop where
  leads : fs.resolve false p = .ok names
  file : fs.node names = some (.file i)
  content : fs.content i = c

section
variable {env : Env} {fs fs' : Fs} {g g' : DecryptionBatchGuard} {K : Set Loc} {p : Path} {l : Loc}
  {names : List Name} {i : Nat} {c : Bytes}

theorem DecryptionBatchGuard.Grows.refl (g : DecryptionBatchGuard) : g.Grows g :=
  ⟨rfl, fun _ => id⟩

theorem Guarded.keep (h : Guarded env g fs K) (hs : fs.Spares fs' Kᶜ ∅) (hg : g.Grows g') :
    Guarded env g' fs' K := by
  intro l hl
  obtain ⟨i, hi, hknown⟩ := h l hl
  refine ⟨i, hs.nodes l _ (fun hno => hno hl) hi, ?_⟩
  rw [hg.handles]
  refine hknown.imp id ?_
  rintro ⟨names, hnames, hkey⟩
  exact ⟨names, (hs.keeps.loc names).trans hnames, hg.reserved _ hkey⟩

theorem Guarded.insert (h : Guarded env g fs K) (hi : fs.node names = some (.file i))
    (hkey : keyText env (.absolute names) ∈ g.reservedOutputs) :
    Guarded env g fs (Set.insert (fs.loc names) K) := by
  rintro l (rfl | hl)
  · exact ⟨i, hi, .inr ⟨names, rfl, hkey⟩⟩
  · exact h l hl

theorem Stands.keep (h : Stands fs p l i c) (hs : fs.Spares fs' Kᶜ ∅) (hl : l ∈ K) :
    Stands fs' p l i c where
  leads := hs.keeps.resolve h.leads
  file := hs.nodes l _ (fun hno => hno hl) h.file
  content := (hs.content i (Fs.nodeAt_lt h.file) id).trans h.content

theorem Rests.keep {S : Set Loc} {I : Set Nat} (h : Rests fs p names i c) (hs : fs.Spares fs' S I)
    (hl : fs.loc names ∉ S) (hi : i ∉ I) : Rests fs' p names i c where
  leads := hs.keeps.resolve h.leads
  file := by
    rw [Fs.node, hs.keeps.loc]
    exact hs.nodes _ _ hl h.file
  content := (hs.content i (Fs.nodeAt_lt h.file) hi).trans h.content

theorem Rests.stands (h : Rests fs p l i c) (hexact : fs.Exact) : Stands fs p l i c where
  leads := h.leads
  file := by
    rw [← hexact.loc l]
    exact h.file
  content := h.content

/-- A reserved output is at no guarded place. -/
theorem DecryptionBatchGuard.Reserved.not_guarded {dir : Path} {d : List Name} {n : Name} {key : Bytes}
    (h : Reserved env fs (dir.push (.name n)) g key) (hrefine : fs.KeysRefine env) (hplain : fs.Plain dir d)
    (hK : Guarded env g fs K) :
    fs.At (dir.push (.name n)) d n ∧ key = keyText env (.absolute (d ++ [n])) ∧ fs.entryLoc d n ∉ K := by
  obtain ⟨q, hq, hkey⟩ := h.derived
  have hat := hplain.at_push (hplain.keyPath_nul hq)
  have hlinks : ∀ t, fs.node (d ++ [n]) ≠ some (.symlink t) :=
    fun t => h.links _ t (hat.resolve (.inl rfl))
  obtain rfl := hplain.keyPath_push hlinks hq
  refine ⟨hat, hkey, fun hmem => ?_⟩
  obtain ⟨i, hi, hknown⟩ := hK _ hmem
  rcases hknown with hknown | ⟨names, hnames, hknown⟩
  · refine h.handles i ⟨_, hat.resolve (.inl rfl), ?_⟩ hknown
    rw [Fs.node_concat, hi]
  · have hsame : keyText env (.absolute names) = key := (hrefine _ _ hnames).trans hkey.symm
    exact h.fresh (hsame ▸ hknown)

theorem Fs.Exact.keep (h : fs.Exact) (hk : fs.Keeps fs') : fs'.Exact := by
  intro d n
  rw [hk.fold]
  exact h d n

theorem decryptFile_eq (env : Env) (source : Path) (password : Bytes) (outputDir : Option Path)
    (force : Bool) : decryptFileToPathGuarded env source password outputDir force = (do
      let opened ← GuardM.lift (openEncrypted env source password)
      let output ← GuardM.lift (decryptedPath env source outputDir opened.1.filename)
      DecryptionBatchGuard.reserve env source output
      GuardM.lift (AtomicOutput.writing env output force (writeDecrypted env opened.1 opened.2))) := by
  simp only [AtomicOutput.writing, GuardM.lift_bind]
  rfl

end

section
variable {env : Env} {source : Path} {password : Bytes} {outputDir : Option Path} {force : Bool}
  {w w' : World} {g g' : DecryptionBatchGuard} {K : Set Loc} {r : Except IronlockError Path}

/-- What a call that succeeds has written, and where. -/
def Written (env : Env) (password : Bytes) (source : Path) (before after : Fs)
    (g : DecryptionBatchGuard) (p : Path) (names : List Name) (i : Nat) (c : Bytes) : Prop :=
  Rests after p names i c ∧ keyText env (.absolute names) ∈ g.reservedOutputs ∧
    ∃ j, before.IsFile source j ∧ Decrypts env.crates password (before.content j) c

/-- One decryption touches nothing at the guarded places. When it succeeds its
output is at a new one. -/
theorem decryptFile_spec (hq : env.Quiet) (hh : env.Honest) (hrefine : w.fs.KeysRefine env)
    (hK : Guarded env g w.fs K)
    (h : decryptFileToPathGuarded env source password outputDir force (w, g) = (r, (w', g'))) :
    w.Spares w' Kᶜ ∅ ∧ g.Grows g' ∧
      ∀ p, r = .ok p → ∃ names i c, Written env password source w.fs w'.fs g' p names i c := by
  rw [decryptFile_eq] at h
  rcases hopen : openEncrypted env source password w with ⟨e | ⟨d, reader⟩, w₁⟩
  · simp only [Eff.bind_apply, GuardM.lift_apply, hopen] at h
    cases h
    exact ⟨.of_still ((openEncrypted_looks.still hq).run hopen), .refl g, nofun⟩
  have hstill₁ := (openEncrypted_looks.still hq).run hopen
  rcases hpath : decryptedPath env source outputDir d.filename w₁ with ⟨e | output, w₂⟩ <;>
    have hspares₂ := Runs.spares (decryptedPath_runs hq (.spares w₁.fs Kᶜ ∅) outputDir
      d.filename) hpath
  · simp only [Eff.bind_apply, GuardM.lift_apply, hopen, hpath] at h
    cases h
    exact ⟨(World.Spares.of_still hstill₁).trans hspares₂.1, .refl g, nofun⟩
  obtain ⟨hspares₂, hoked⟩ := hspares₂
  obtain ⟨dir, names, n, hplain, rfl⟩ := hoked _ rfl
  have hspares₂ := (World.Spares.of_still hstill₁ (S := Kᶜ) (I := ∅)).trans hspares₂
  have hreserve := DecryptionBatchGuard.reserve_spec hq hh source (dir.push (.name n)) (w := w₂) (g := g)
    (w₂, g) ⟨rfl, refl_of Still w₂⟩
  rcases hres : DecryptionBatchGuard.reserve env source (dir.push (.name n)) (w₂, g) with
    ⟨e | _, w₃, g₃⟩ <;> rw [hres] at hreserve
  · obtain ⟨rfl, hstill₃⟩ := hreserve
    simp only [Eff.bind_apply, GuardM.lift_apply, hopen, hpath, hres] at h
    cases h
    exact ⟨hspares₂.trans (.of_still hstill₃), .refl _, nofun⟩
  obtain ⟨hstill₃, key, hreserved, rfl⟩ := hreserve
  obtain ⟨hat, rfl, hnot⟩ := hreserved.not_guarded (hrefine.keep hspares₂.1.keeps) hplain
    (hK.keep hspares₂.1 (.refl g))
  have hspares₃ := hspares₂.trans (.of_still hstill₃)
  have hfs₃ : w₃.fs = w₂.fs := hstill₃.1
  have hgrows : g.Grows { g with
      reservedOutputs := keyText env (.absolute (names ++ [n])) :: g.reservedOutputs } :=
    ⟨rfl, fun _ => List.mem_cons_of_mem _⟩
  simp only [Eff.bind_apply, GuardM.lift_apply, hopen, hpath, hres, Prod.mk.injEq] at h
  obtain ⟨hr, hw', rfl⟩ := h
  have hdest : w₃.fs.At (dir.push (.name n)) names n := hfs₃ ▸ hat
  have hrun := AtomicOutput.writing_runs hq (writeDecrypted_fills hq d reader) hdest (S := Kᶜ)
    (by rw [hfs₃]; exact hnot) force
  obtain ⟨hspares₄, hok⟩ := Runs.spares (hrun.post (Λ := fun p => Along (w₃.fs.Spares · Kᶜ ∅) fun fs =>
    w₃.fs.Spares fs Kᶜ ∅ ∧ p = dir.push (.name n) ∧ AtomicOutput.Wrote _ w₃.fs Kᶜ names n fs)
    (fun _ _ _ hfs => ⟨hfs.2.1, hfs.2.2.spares, hfs.1, hfs.2.2⟩) fun _ _ _ => id) (Prod.ext hr hw')
  refine ⟨hspares₃.trans hspares₄, hgrows, fun p hp => ?_⟩
  obtain ⟨rfl, hwrote⟩ := hok p hp
  obtain ⟨base, c, i, -, ⟨accepts, m, s₂, hdecrypt, hwritten⟩, -, -, hfile, hcontent⟩ :=
    hwrote.installed
  obtain ⟨j, cuts, s₁, hj, rfl, hnew⟩ := openEncrypted_eq_ok hq hopen
  refine ⟨names ++ [n], i, c, ⟨?_, by rwa [Fs.node_concat], hcontent⟩, List.mem_cons_self, j, hj, ?_⟩
  · exact (hdest.keep hspares₄.1.keeps).resolve (.inl rfl)
  · exact ⟨cuts, accepts, d, s₁, m, s₂, hnew, hdecrypt, hwritten⟩

end

/-! ## The batch -/

section
variable {env : Env} {password : Bytes} {force : Bool} {plans : List DecryptionPlan}
  {results : List (Except IronlockError Path)} {w w' : World} {g g' : DecryptionBatchGuard}
  {K : Set Loc} {fs₀ : Fs}

theorem decryptPlans_cons {plan : DecryptionPlan} {s s' : World × DecryptionBatchGuard}
    (h : decryptPlans env password force (plan :: plans) s = (.ok results, s')) :
    ∃ r s₁ rest, decryptFileToPathGuarded env plan.source password (some plan.targetDir) force s =
      (r, s₁) ∧ decryptPlans env password force plans s₁ = (.ok rest, s') ∧ results = r :: rest := by
  obtain ⟨r, s₁, hfirst, h⟩ := Eff.bind_eq_ok.1 h
  obtain ⟨rest, s₂, hrest, h⟩ := Eff.bind_eq_ok.1 h
  cases h
  simp only [Eff.attempt, Prod.mk.injEq, Except.ok.injEq] at hfirst
  exact ⟨r, s₁, rest, Prod.ext hfirst.1 hfirst.2, hrest, rfl⟩

/-- Each source is a regular file at one of the places. -/
def SourcesAt (fs : Fs) (plans : List DecryptionPlan) (K : Set Loc) : Prop :=
  ∀ plan ∈ plans, ∃ names j, fs.resolve false plan.source = .ok names ∧ fs.node names = some (.file j) ∧
    fs.loc names ∈ K

/-- A source that is spared is the file it was. -/
theorem source_unique {p : Path} {names : List Name} {i j : Nat} (hs : fs₀.Spares w.fs Kᶜ ∅)
    (hr : fs₀.resolve false p = .ok names) (hj : fs₀.node names = some (.file j)) (hl : fs₀.loc names ∈ K)
    (hi : w.fs.IsFile p i) : i = j := by
  refine hi.unique ⟨names, hs.keeps.resolve hr, ?_⟩
  rw [Fs.node, hs.keeps.loc]
  exact hs.nodes _ _ (fun hno => hno hl) hj

/-- The loop over the plans: by induction on them, with each output that has
been written among the guarded places from then on. The sources stay at `K`. -/
theorem decryptPlans_spec {K' : Set Loc} (hq : env.Quiet) (hh : env.Honest) (hrefine : fs₀.KeysRefine env)
    (hspares : fs₀.Spares w.fs Kᶜ ∅) (hsources : SourcesAt fs₀ plans K) (hle : K ⊆ K')
    (hK : Guarded env g w.fs K')
    (h : decryptPlans env password force plans (w, g) = (.ok results, (w', g'))) :
    w.Spares w' K'ᶜ ∅ ∧ ∃ K'', K' ⊆ K'' ∧ Guarded env g' w'.fs K'' ∧
      ∀ (k : Nat) (p : Path), results[k]? = some (.ok p) → ∃ plan names i c j, plans[k]? = some plan ∧
        fs₀.loc names ∈ K'' ∧ Rests w'.fs p names i c ∧ fs₀.IsFile plan.source j ∧
        Decrypts env.crates password (fs₀.content j) c := by
  induction plans generalizing results w g K' with
  | nil =>
    cases h
    exact ⟨.refl _ _ _, K', le_rfl, hK, by simp⟩
  | cons plan plans ih =>
    obtain ⟨r, ⟨w₁, g₁⟩, rest, hfirst, hrest, rfl⟩ := decryptPlans_cons h
    obtain ⟨hspares₁, hgrows, hok⟩ :=
      decryptFile_spec hq hh (hrefine.keep hspares.keeps) hK hfirst
    have hK₁ := hK.keep hspares₁.1 hgrows
    have hfs₁ : fs₀.Spares w₁.fs Kᶜ ∅ :=
      hspares.trans (hspares₁.1.mono (Set.compl_subset_compl.2 hle) le_rfl)
    have hsources' : SourcesAt fs₀ plans K := fun plan hmem =>
      hsources plan (List.mem_cons_of_mem _ hmem)
    cases r with
    | error e =>
      obtain ⟨hspares₂, K'', hle', hK'', hresults⟩ := ih hfs₁ hsources' hle hK₁ hrest
      refine ⟨hspares₁.trans hspares₂, K'', hle', hK'', ?_⟩
      intro k p hk
      cases k with
      | zero => cases hk
      | succ k => exact hresults k p hk
    | ok path =>
      obtain ⟨names, i, c, hrests, hkey, j, hj, hdecrypts⟩ := hok path rfl
      have hloc : w₁.fs.loc names = fs₀.loc names := hfs₁.keeps.loc names
      have hinsert : K' ⊆ Set.insert (w₁.fs.loc names) K' := fun _ => .inr
      obtain ⟨hspares₂, K'', hle', hK'', hresults⟩ :=
        ih hfs₁ hsources' (hle.trans hinsert) (hK₁.insert hrests.file hkey) hrest
      refine ⟨hspares₁.trans (hspares₂.mono (Set.compl_subset_compl.2 hinsert) le_rfl), K'',
        hinsert.trans hle', hK'', ?_⟩
      intro k p hk
      cases k with
      | succ k => exact hresults k p hk
      | zero =>
        cases hk
        obtain ⟨names', j', hr, hj', hl'⟩ := hsources plan List.mem_cons_self
        obtain rfl := source_unique hspares hr hj' hl' hj
        refine ⟨plan, names, i, c, j, rfl, hle' (.inl hloc.symm), hrests.keep hspares₂.1 (fun hno => hno (.inl rfl)) id,
          ⟨names', hr, hj'⟩, ?_⟩
        rwa [hspares.content j (Fs.nodeAt_lt hj') id] at hdecrypts

/-- A new guard knows every place that a source is at. -/
theorem planned_guarded (hq : env.Quiet) {inputs : List Path} {outputBase : Option Path} {w₀ w₁ w₂ : World}
    (hplan : planDecryptionInputs env inputs outputBase w₀ = (.ok plans, w₁))
    (hguard : DecryptionBatchGuard.new env plans w₁ = (.ok g, w₂)) :
    w₂.fs = w₀.fs ∧ ∃ K, SourcesAt w₀.fs plans K ∧ Guarded env g w₂.fs K := by
  have hfs₁ : w₁.fs = w₀.fs := (((planDecryptionInputs_looks _ _).still hq).run hplan).1
  have hfs₂ : w₂.fs = w₁.fs := (((guard_new_looks _).still hq).run hguard).1
  let K : Set Loc := {l | ∃ plan ∈ plans, ∃ names i, w₀.fs.resolve false plan.source = .ok names ∧
    w₀.fs.node names = some (.file i) ∧ l = w₀.fs.loc names}
  refine ⟨hfs₂.trans hfs₁, K, ?_, ?_⟩
  · intro plan hmem
    obtain ⟨i, names, hr, hi⟩ := planDecryptionInputs_eq_ok hq hplan plan hmem
    exact ⟨names, i, hr, hi, plan, hmem, names, i, hr, hi, rfl⟩
  · rintro _ ⟨plan, hmem, names, i, hr, hi, rfl⟩
    rw [hfs₂, hfs₁]
    refine ⟨i, hi, .inl ?_⟩
    obtain ⟨⟨keys, handles⟩, w', hregister, hg⟩ := Eff.bind_eq_ok.1 hguard
    cases hg
    refine (registerSources_eq_ok hq hregister).2 plan.source (List.mem_map_of_mem hmem) i ?_
    rw [hfs₁]
    exact ⟨names, hr, hi⟩

end

/-- A batch keeps every source as it was. What a call has committed stays as it
is through all later calls, and a reservation that fails is none. -/
theorem decryption_batch_keeps {env : Env} (hq : env.Quiet) (hh : env.Honest) {inputs : List Path}
    {outputBase : Option Path} {password : Bytes} {force : Bool} {front back : List DecryptionPlan}
    {g g₁ g₂ : DecryptionBatchGuard} {results results' : List (Except IronlockError Path)}
    {w₀ w₁ w₂ w₃ w₄ : World} (hexact : w₀.fs.Exact)
    (hplan : planDecryptionInputs env inputs outputBase w₀ = (.ok (front ++ back), w₁))
    (hguard : DecryptionBatchGuard.new env (front ++ back) w₁ = (.ok g, w₂))
    (hfront : decryptPlans env password force front (w₂, g) = (.ok results, (w₃, g₁)))
    (hback : decryptPlans env password force back (w₃, g₁) = (.ok results', (w₄, g₂))) :
    (∀ plan ∈ front ++ back, ∃ l i, Stands w₀.fs plan.source l i (w₀.fs.content i) ∧
      (∀ s ∈ w₄.since w₂, Stands s.after plan.source l i (w₀.fs.content i)) ∧
      Stands w₄.fs plan.source l i (w₀.fs.content i)) ∧
    (∀ (k : Nat) (p : Path), results[k]? = some (.ok p) → ∃ plan l i c j, front[k]? = some plan ∧
      w₀.fs.IsFile plan.source j ∧ Decrypts env.crates password (w₀.fs.content j) c ∧
      Stands w₃.fs p l i c ∧ (∀ s ∈ w₄.since w₃, Stands s.after p l i c) ∧ Stands w₄.fs p l i c) ∧
    ∀ source output s e s', DecryptionBatchGuard.reserve env source output s = (.error e, s') →
      s'.2 = s.2 := by
  obtain ⟨hfs₂, K, hsources, hK⟩ := planned_guarded hq hplan hguard
  have hspares₂ : w₀.fs.Spares w₂.fs Kᶜ ∅ := by
    rw [hfs₂]
    exact .refl _ _ _
  have hrefine : w₀.fs.KeysRefine env := hexact.keysRefine env
  obtain ⟨hspares₃, K', hle, hK', hresults⟩ := decryptPlans_spec hq hh hrefine hspares₂
    (fun plan hmem => hsources plan (List.mem_append_left _ hmem)) le_rfl hK hfront
  obtain ⟨hspares₄, -⟩ := decryptPlans_spec hq hh hrefine (hspares₂.trans hspares₃.1)
    (fun plan hmem => hsources plan (List.mem_append_right _ hmem)) hle hK' hback
  have hexact₃ : w₃.fs.Exact := (hexact.keep hspares₂.keeps).keep hspares₃.1.keeps
  refine ⟨?_, ?_, ?_⟩
  · intro plan hmem
    obtain ⟨l, i, hr, hi, hl⟩ := hsources plan hmem
    rw [hexact.loc] at hl
    have hstands : Stands w₀.fs plan.source l i (w₀.fs.content i) :=
      Rests.stands ⟨hr, hi, rfl⟩ hexact
    have hrun := hspares₃.trans (hspares₄.mono (Set.compl_subset_compl.2 hle) le_rfl)
    have hstands₂ := hstands.keep hspares₂ hl
    exact ⟨l, i, hstands, fun s hs => hstands₂.keep (hrun.since s hs) hl, hstands₂.keep hrun.1 hl⟩
  · intro k p hk
    obtain ⟨plan, l, i, c, j, hplan', hl, hrests, hj, hdecrypts⟩ := hresults k p hk
    rw [hexact.loc] at hl
    have hstands : Stands w₃.fs p l i c := hrests.stands hexact₃
    exact ⟨plan, l, i, c, j, hplan', hj, hdecrypts, hstands,
      fun s hs => hstands.keep (hspares₄.since s hs) hl, hstands.keep hspares₄.1 hl⟩
  · rintro source output ⟨w, g⟩ e s' hreserve
    exact ((DecryptionBatchGuard.reserve_spec hq hh _ _).error ⟨rfl, refl_of Still w⟩ hreserve).1

/-- `a`, encrypted to `a.il` in the root directory. -/
def encryptedA : World :=
  ⟨((Fs.blank []).create [] ⟨[97, 46, 105, 108], .refl true⟩).setContent 0
    (encryptStreamWithParams .checksummed (.zero 16) (.zero 12) [112, 119] letterA .current
      ⟨[.data [1, 2, 3]], ⟨[], []⟩, []⟩).2.writer.written, 0, 0, []⟩

/-- Its decryption in the working directory. -/
def decryptA : DecryptionPlan := ⟨.absolute [⟨[97, 46, 105, 108], .refl true⟩], .here⟩

/-- Where it is written. -/
def decryptedA : Path := Path.here.push (.name ⟨[97], .refl true⟩)

/-- The guard that knows `/a.il`. -/
def guardA : DecryptionBatchGuard := ⟨[[47, 97, 46, 105, 108]], [.file 0], []⟩

/-- `a`, encrypted to `a.il`, and `b`, encrypted to `b.il`. -/
def encryptedAB : World :=
  ⟨(encryptedA.fs.create [] ⟨[98, 46, 105, 108], .refl true⟩).setContent 1
    (encryptStreamWithParams .checksummed (.zero 16) (.zero 12) [112, 119] ⟨[98], rfl⟩ .current
      ⟨[.data [4, 5]], ⟨[], []⟩, []⟩).2.writer.written, 0, 0, []⟩

def decryptB : DecryptionPlan := ⟨.absolute [⟨[98, 46, 105, 108], .refl true⟩], .here⟩

def decryptedB : Path := Path.here.push (.name ⟨[98], .refl true⟩)

/-- The guard that knows `/a.il` and `/b.il`. -/
def guardAB : DecryptionBatchGuard :=
  ⟨[[47, 98, 46, 105, 108], [47, 97, 46, 105, 108]], [.file 1, .file 0], []⟩

/-- What planning leaves of `encryptedAB`, what the guard leaves, and what the
first decryption leaves. -/
def plannedAB : World :=
  (planInputs (Env.calm .checksummed) none [decryptA.source, decryptB.source] [] [] [] encryptedAB).2

def guardedAB : World := (DecryptionBatchGuard.new (Env.calm .checksummed) [decryptA, decryptB] plannedAB).2

def halfwayAB : World × DecryptionBatchGuard :=
  (decryptPlans (Env.calm .checksummed) [112, 119] true [decryptA] (guardedAB, guardAB)).2

theorem encryptedAB_runs : ∃ w₃ g₁ w₄ g₂,
    planDecryptionInputs (Env.calm .checksummed) [decryptA.source, decryptB.source] none encryptedAB =
      (.ok ([decryptA] ++ [decryptB]), plannedAB) ∧
    DecryptionBatchGuard.new (Env.calm .checksummed) ([decryptA] ++ [decryptB]) plannedAB =
      (.ok guardAB, guardedAB) ∧
    decryptPlans (Env.calm .checksummed) [112, 119] true [decryptA] (guardedAB, guardAB) =
      (.ok [.ok decryptedA], (w₃, g₁)) ∧
    decryptPlans (Env.calm .checksummed) [112, 119] true [decryptB] (w₃, g₁) =
      (.ok [.ok decryptedB], (w₄, g₂)) := by
  have hplan : (planInputs (Env.calm .checksummed) none [decryptA.source, decryptB.source] [] [] []
      encryptedAB).1.toOption = some [decryptA, decryptB] := by decide +kernel
  have hguard : (DecryptionBatchGuard.new (Env.calm .checksummed) [decryptA, decryptB] plannedAB).1.toOption =
      some guardAB := by decide +kernel
  have hfirst : (decryptPlans (Env.calm .checksummed) [112, 119] true [decryptA] (guardedAB, guardAB)).1.toOption =
      some [.ok decryptedA] := by decide +kernel
  have hsecond : (decryptPlans (Env.calm .checksummed) [112, 119] true [decryptB] halfwayAB).1.toOption =
      some [.ok decryptedB] := by decide +kernel
  have hfront : decryptPlans (Env.calm .checksummed) [112, 119] true [decryptA] (guardedAB, guardAB) =
      (.ok [.ok decryptedA], halfwayAB) := Eff.run_eq_ok hfirst
  generalize halfwayAB = s at hfront hsecond
  obtain ⟨w₃, g₁⟩ := s
  exact ⟨w₃, g₁, _, _, planDecryptionInputs_ordered (Eff.run_eq_ok hplan) (by decide +kernel),
    Eff.run_eq_ok hguard, hfront, Eff.run_eq_ok hsecond⟩

theorem decryption_batch_keeps_ab : ∃ w₃ g₁ w₄ g₂,
    decryptPlans (Env.calm .checksummed) [112, 119] true [decryptA] (guardedAB, guardAB) =
      (.ok [.ok decryptedA], (w₃, g₁)) ∧
    decryptPlans (Env.calm .checksummed) [112, 119] true [decryptB] (w₃, g₁) =
      (.ok [.ok decryptedB], (w₄, g₂)) ∧
    (∀ plan ∈ [decryptA] ++ [decryptB], ∃ l i, Stands w₄.fs plan.source l i (encryptedAB.fs.content i)) ∧
    ∃ l i c j, encryptedAB.fs.IsFile decryptA.source j ∧
      Decrypts .checksummed [112, 119] (encryptedAB.fs.content j) c ∧
      (∀ s ∈ w₄.since w₃, Stands s.after decryptedA l i c) ∧ Stands w₄.fs decryptedA l i c := by
  obtain ⟨w₃, g₁, w₄, g₂, hplan, hguard, hfront, hback⟩ := encryptedAB_runs
  have hexact : encryptedAB.fs.Exact := fun _ _ => rfl
  obtain ⟨hsources, houtputs, -⟩ := decryption_batch_keeps (Env.calm_quiet _) (Env.calm_faultless _).honest
    hexact hplan hguard hfront hback
  refine ⟨w₃, g₁, w₄, g₂, hfront, hback, ?_, ?_⟩
  · intro plan hmem
    obtain ⟨l, i, -, -, h⟩ := hsources plan hmem
    exact ⟨l, i, h⟩
  · obtain ⟨plan, l, i, c, j, hfirst, hj, hdecrypts, -, hsince, hlast⟩ := houtputs 0 decryptedA rfl
    cases hfirst
    exact ⟨l, i, c, j, hj, hdecrypts, hsince, hlast⟩

end Ironlock
