import Ironlock.EncryptCommand
import Ironlock.RecoveredName

/-! What a decryption gives back of a sealed file: its bytes, under its name, in
the directory that was planned for it. -/

namespace Ironlock
open ByteOrder (Bytes)
open Effect
open Fs (Identity Metadata SysCall)

/-! ## Restored names -/

/-- The path that `unique_decrypted_path` makes with this suffix. -/
def suffixedDecryptedPath (p : Path) (suffix : UInt64) : Path :=
  let stem := match toStr p.fileStem with
    | some stem => stem.bytes
    | none => ascii "decrypted"
  p.parentOrEmpty.joinRaw (stem ++ ascii "-decrypted-" ++ hex16 suffix ++ match toStr p.extension with
    | some extension => [dot] ++ extension.bytes
    | none => [])

/-- The path is that of the name in the directory, or one made from it. -/
def RestoredAs (dir : Path) (name : Str) (p : Path) : Prop :=
  p = dir.joinRaw name.bytes ∨ ∃ suffix, p = suffixedDecryptedPath (dir.joinRaw name.bytes) suffix

section
variable {env : Env} {w w' : World} {source p : Path} {password : Bytes} {outputDir : Option Path} {name : Str}

theorem uniqueDecryptedPath_suffixed (h : uniqueDecryptedPath env p w = (.ok source, w')) :
    ∃ suffix, source = suffixedDecryptedPath p suffix := by
  unfold uniqueDecryptedPath at h
  generalize 128 = tries at h
  induction tries generalizing w with
  | zero => cases h
  | succ tries ih =>
    obtain ⟨suffix, w₁, -, h⟩ := Eff.bind_eq_ok.1 h
    obtain ⟨taken, w₂, -, h⟩ := Eff.bind_eq_ok.1 h
    split at h
    · exact ih h
    · cases h
      exact ⟨suffix, rfl⟩

theorem decryptedPath_restored (h : decryptedPath env source outputDir name w = (.ok p, w')) :
    ∃ safe, sanitizedFilename name = .ok safe ∧ RestoredAs (outputDirectory outputDir) safe p := by
  obtain ⟨safe, w₁, hsafe, h⟩ := Eff.bind_eq_ok.1 h
  rw [Eff.ofExcept_apply, Prod.mk.injEq] at hsafe
  obtain ⟨_, w₂, -, h⟩ := Eff.bind_eq_ok.1 h
  obtain ⟨same, w₃, -, h⟩ := Eff.bind_eq_ok.1 h
  refine ⟨safe, hsafe.1, ?_⟩
  split at h
  · exact .inr (uniqueDecryptedPath_suffixed h)
  · cases h
    exact .inl rfl

/-- The name of a source is one that a decryption gives back. -/
theorem originalFilename_honest (h : originalFilename source = .ok name) : sanitizedFilename name = .ok name := by
  unfold originalFilename at h
  split at h
  · cases h
  rename_i found hfound
  cases h
  have hbytes := toStr_eq_some hfound
  cases hname : source.fileName with
  | none =>
    rw [hname] at hbytes
    cases hbytes
  | some n =>
    rw [hname, Option.map_some, Option.some.injEq] at hbytes
    have hvalid := n.valid
    simp only [validName, Bool.and_eq_true, decide_eq_true_eq, Bool.not_eq_true', hbytes] at hvalid
    obtain ⟨⟨⟨hne, hslash⟩, hdot⟩, hup⟩ := hvalid
    exact sanitizedFilename_honest hne (by simpa using hslash) hdot hup

/-- A decryption that succeeds names its output after what its source recovers. -/
theorem decryptFile_named (hq : env.Quiet) {force : Bool} {g : DecryptionBatchGuard}
    {s' : World × DecryptionBatchGuard}
    (h : decryptFileToPathGuarded env source password outputDir force (w, g) = (.ok p, s')) :
    ∃ d reader w₁ safe, openEncrypted env source password w = (.ok (d, reader), w₁) ∧
      sanitizedFilename d.filename = .ok safe ∧ RestoredAs (outputDirectory outputDir) safe p := by
  obtain ⟨w₄, g₄⟩ := s'
  rw [decryptFile_eq] at h
  obtain ⟨⟨d, reader⟩, ⟨w₁, g₁⟩, hopen, hrest⟩ := Eff.bind_eq_ok.1 h
  obtain ⟨output, ⟨w₂, g₂⟩, hpath, hrest'⟩ := Eff.bind_eq_ok.1 hrest
  obtain ⟨_, ⟨w₃, g₃⟩, -, hwrite⟩ := Eff.bind_eq_ok.1 hrest'
  obtain ⟨hp, -⟩ := AtomicOutput.writing_eq_ok hq (writeDecrypted_fills hq d reader) (GuardM.lift_eq.1 hwrite).1
  obtain ⟨safe, hsafe, hrestored⟩ := decryptedPath_restored (GuardM.lift_eq.1 hpath).1
  exact ⟨d, reader, w₁, safe, (GuardM.lift_eq.1 hopen).1, hsafe, hp ▸ hrestored⟩

end

/-- A decryptor that opens a stream knows its name. -/
theorem newStream_name {C : Crates} {password : Bytes} (hC : C.Inverts) (x : Stream C password)
    {reader : Reader} {schedule : List WriteEvent} {log : List Work} {d : StreamDecryptor} {s : Streams}
    (hreader : reader.Carries x.bytes)
    (hnew : StreamDecryptor.new C password ⟨reader, ⟨schedule, []⟩, log⟩ = (.ok d, s)) :
    d.filename = x.filename := by
  obtain ⟨r, hr⟩ := Reader.exists_delivers x.bytes
  have hrough : Rougher ⟨reader, ⟨schedule, []⟩, log⟩ ⟨r, ⟨[], []⟩, log⟩ :=
    ⟨⟨_, hreader, hr⟩, Writer.accepting_nil, rfl, rfl⟩
  obtain ⟨t, ht, -⟩ := StreamDecryptor.robust_new C password _ _ _ _ hrough hnew
  obtain ⟨b, t', ht', -⟩ := new_ok hC x (s := ⟨r, ⟨[], []⟩, log⟩) hr
  rw [ht] at ht'
  cases ht'
  rfl

/-! ## The batch -/

section
variable {env : Env} {password : Bytes} {force : Bool} {plans : List DecryptionPlan}
  {results : List (Except IronlockError Path)} {w w' : World} {g g' : DecryptionBatchGuard}

/-- A success in a batch is one of a call, made after those before it. -/
theorem decryptPlans_each {s s' : World × DecryptionBatchGuard} {k : Nat} {p : Path}
    (h : decryptPlans env password force plans s = (.ok results, s')) (hk : results[k]? = some (.ok p)) :
    ∃ plan earlier s₁ s₂, plans[k]? = some plan ∧
      decryptPlans env password force (plans.take k) s = (.ok earlier, s₁) ∧
      decryptFileToPathGuarded env plan.source password (some plan.targetDir) force s₁ = (.ok p, s₂) := by
  induction plans generalizing results s k with
  | nil =>
    cases h
    simp at hk
  | cons plan plans ih =>
    obtain ⟨r, s₁, rest, hfirst, hrest, rfl⟩ := decryptPlans_cons h
    cases k with
    | zero =>
      rw [List.getElem?_cons_zero, Option.some.injEq] at hk
      subst hk
      exact ⟨plan, [], s, s₁, rfl, rfl, hfirst⟩
    | succ k =>
      rw [List.getElem?_cons_succ] at hk
      obtain ⟨plan', earlier, s₂, s₃, hplan, hearlier, hcall⟩ := ih hrest hk
      refine ⟨plan', r :: earlier, s₂, s₃, hplan, ?_, hcall⟩
      have hattempt : (Eff.attempt (decryptFileToPathGuarded env plan.source password (some plan.targetDir) force) :
          GuardM (Except IronlockError Path)) s = (.ok r, s₁) := by rw [Eff.attempt, hfirst]
      rw [List.take_succ_cons, decryptPlans, Eff.bind_ok hattempt, Eff.bind_ok hearlier, Eff.pure_apply]

/-- What is restored of a stream that a source held when the batch was planned. -/
theorem decryptPlans_restores {fs₀ : Fs} {K : Set Loc} (hq : env.Quiet) (hh : env.Honest)
    (hC : env.crates.Inverts) (hexact : fs₀.Exact) (hspares : fs₀.Spares w.fs Kᶜ ∅)
    (hsources : SourcesAt fs₀ plans K) (hK : Guarded env g w.fs K)
    (h : decryptPlans env password force plans (w, g) = (.ok results, (w', g')))
    {k : Nat} {p : Path} (hk : results[k]? = some (.ok p)) :
    ∃ plan j, plans[k]? = some plan ∧ fs₀.IsFile plan.source j ∧
      ∀ x : Stream env.crates password, x.bytes = fs₀.content j →
        (∃ safe, sanitizedFilename x.filename = .ok safe ∧ RestoredAs plan.targetDir safe p) ∧
        ∃ l i, Stands w'.fs p l i x.content := by
  have hrefine : fs₀.KeysRefine env := hexact.keysRefine env
  obtain ⟨hspares', K', -, -, hresults⟩ := decryptPlans_spec hq hh hrefine hspares hsources le_rfl hK h
  obtain ⟨plan, l, i, c, j, hplan, -, hrests, hj, hdecrypts⟩ := hresults k p hk
  refine ⟨plan, j, hplan, hj, ?_⟩
  intro x hx
  constructor
  · obtain ⟨plan', earlier, ⟨w₁, g₁⟩, s₂, hplan', hearlier, hcall⟩ := decryptPlans_each h hk
    rw [hplan, Option.some.injEq] at hplan'
    subst hplan'
    have hmem : plan ∈ plans := List.mem_of_getElem? hplan
    -- the source is what it was when the batch began
    have hsources' : SourcesAt fs₀ (plans.take k) K := fun q hq => hsources q (List.mem_of_mem_take hq)
    obtain ⟨hspares₁, -⟩ := decryptPlans_spec hq hh hrefine hspares hsources' le_rfl hK hearlier
    have hfs₁ := hspares.trans hspares₁.1
    obtain ⟨d, reader, w₂, safe, hopen, hsafe, hrestored⟩ := decryptFile_named hq hcall
    obtain ⟨j', cuts, s₁, hj', -, hnew⟩ := openEncrypted_eq_ok hq hopen
    obtain ⟨l', j₀, hr, hnode, hl'⟩ := hsources plan hmem
    obtain rfl := source_unique hfs₁ hr hnode hl' hj'
    obtain rfl := hj.unique ⟨l', hr, hnode⟩
    rw [hfs₁.content _ (Fs.nodeAt_lt hnode) id, ← hx] at hnew
    rw [newStream_name hC x (cutReader_carries cuts _) hnew] at hsafe
    exact ⟨safe, hsafe, hrestored⟩
  · obtain ⟨cuts, accepts, d, s₁, m, s₂, hnew, hdecrypt, hwritten⟩ := hdecrypts
    rw [← hx] at hnew
    obtain ⟨-, -, hcontent⟩ := decryptStream_carried hC x (cutReader_carries cuts _) hnew hdecrypt
    rw [hwritten] at hcontent
    subst hcontent
    exact ⟨l, i, hrests.stands ((hexact.keep hspares.keeps).keep hspares'.1.keeps)⟩

end

/-! ## What is planned -/

section
variable {env : Env} {inputs : List Path} {outputBase : Option Path} {plans : List DecryptionPlan}
  {g : DecryptionBatchGuard} {w₀ w₁ w₂ : World}

theorem planDirectory_grows {root : Path} {sources : List Path} {plans plans' : List DecryptionPlan}
    {seen seen' : List Bytes} {seenHandles seenHandles' : List Identity} {w w' : World}
    (h : planDirectory env outputBase root sources plans seen seenHandles w =
      (.ok (plans', seen', seenHandles'), w')) : ∀ plan ∈ plans, plan ∈ plans' := by
  induction sources generalizing plans seen seenHandles w with
  | nil =>
    cases h
    exact fun _ => id
  | cons source sources ih =>
    unfold planDirectory at h
    split at h
    · exact ih h
    · obtain ⟨targetDir, _, -, h⟩ := Eff.bind_eq_ok.1 h
      obtain ⟨⟨plan, _, _⟩, _, -, h⟩ := Eff.bind_eq_ok.1 h
      intro q hmem
      exact ih h q (List.mem_append_left _ hmem)

/-- One input adds to the plans, and a file that is given is planned for the base
directory. -/
theorem planInput_adds (hq : env.Quiet) {input : Path} {plans plans' : List DecryptionPlan}
    {seen seen' : List Bytes} {seenHandles seenHandles' : List Identity} {w w' : World}
    (h : planInput env outputBase input plans seen seenHandles w = (.ok (plans', seen', seenHandles'), w')) :
    (∀ plan ∈ plans, plan ∈ plans') ∧
      ∀ i, w.fs.IsFile input i → ⟨input, outputBase.getD .here⟩ ∈ plans' := by
  obtain ⟨r, w₁, hr, h⟩ := Eff.bind_eq_ok.1 h
  cases r with
  | error e => cases h
  | ok m =>
    obtain ⟨_, w₂, -, h⟩ := Eff.bind_eq_ok.1 h
    obtain ⟨names, x, hresolve, hx, rfl⟩ := symlinkMetadata_eq_ok hq hr
    split at h
    · rename_i hdir
      obtain ⟨r, w₃, -, h⟩ := Eff.bind_eq_ok.1 h
      cases r with
      | error e => cases h
      | ok root =>
        obtain ⟨sources, w₄, -, h⟩ := Eff.bind_eq_ok.1 h
        refine ⟨planDirectory_grows h, ?_⟩
        rintro i ⟨names', hresolve', hi⟩
        rw [hresolve] at hresolve'
        cases hresolve'
        rw [hx] at hi
        cases hi
        cases hdir
    · split at h
      · split at h
        · cases h
        obtain ⟨⟨plan, _, _⟩, w₃, hplan, h⟩ := Eff.bind_eq_ok.1 h
        cases h
        obtain rfl := planSource_eq_ok hplan
        constructor
        · intro q hmem
          exact List.mem_append_left _ hmem
        · intro i _
          exact List.mem_append_right _ List.mem_cons_self
      · cases h

theorem planInputs_adds (hq : env.Quiet) {plans plans' : List DecryptionPlan} {seen : List Bytes}
    {seenHandles : List Identity} {w w' : World}
    (h : planInputs env outputBase inputs plans seen seenHandles w = (.ok plans', w')) :
    (∀ plan ∈ plans, plan ∈ plans') ∧
      ∀ input ∈ inputs, ∀ i, w.fs.IsFile input i → ⟨input, outputBase.getD .here⟩ ∈ plans' := by
  induction inputs generalizing plans seen seenHandles w with
  | nil =>
    cases h
    exact ⟨fun _ => id, by simp⟩
  | cons input inputs ih =>
    obtain ⟨⟨plans₁, seen₁, handles₁⟩, w₁, hinput, h⟩ := Eff.bind_eq_ok.1 h
    have hfs : w₁.fs = w.fs := (((planInput_looks _ _ _ _ _).still hq).run hinput).1
    obtain ⟨hgrows, hadds⟩ := planInput_adds hq hinput
    obtain ⟨hgrows', hadds'⟩ := ih h
    rw [hfs] at hadds'
    constructor
    · intro plan hmem
      exact hgrows' plan (hgrows plan hmem)
    · intro q hmem i hi
      rcases List.mem_cons.1 hmem with rfl | hmem
      · exact hgrows' _ (hadds i hi)
      · exact hadds' q hmem i hi

/-- Every file that is given is planned, for the base directory. -/
theorem planDecryptionInputs_covers (hq : env.Quiet)
    (hplan : planDecryptionInputs env inputs outputBase w₀ = (.ok plans, w₁)) {input : Path} {i : Nat}
    (hmem : input ∈ inputs) (hi : w₀.fs.IsFile input i) : ⟨input, outputBase.getD .here⟩ ∈ plans := by
  obtain ⟨found, w, hfound, hsort⟩ := Eff.bind_eq_ok.1 hplan
  cases hsort
  exact List.mem_mergeSort.2 ((planInputs_adds hq hfound).2 input hmem i hi)

end

/-! ## There and back -/

/-- The source's bytes, as they were, are in a file of this directory that is named
after it. -/
def EncryptionPlan.Restored (fs₀ : Fs) (plan : EncryptionPlan) (dir : Path) (fs : Fs) : Prop :=
  ∃ i name p l j, fs₀.IsFile plan.source i ∧ originalFilename plan.source = .ok name ∧
    RestoredAs dir name p ∧ Stands fs p l j (fs₀.content i)

/-- A sealed source's stream is the file that its output names. -/
theorem EncryptionPlan.Sealed.at_output {C : Crates} {password : Bytes} {fs₀ fs : Fs} {plan : EncryptionPlan}
    (h : plan.Sealed C password fs₀ fs) (hk : fs₀.Keeps fs) :
    ∃ i name j, ∃ x : Stream C password, fs₀.IsFile plan.source i ∧ originalFilename plan.source = .ok name ∧
      fs.IsFile plan.output j ∧ x.bytes = fs.content j ∧ x.filename = name ∧ x.content = fs₀.content i := by
  obtain ⟨i, name, hi, horiginal, l, ⟨d, n, hat, rfl⟩, j, hj, -, x, hbytes, hname, hcontent⟩ := h
  refine ⟨i, name, j, x, hi, horiginal, ⟨d ++ [n], (hat.keep hk).resolve (.inl rfl), ?_⟩, hbytes, hname, hcontent⟩
  rw [Fs.node_concat, hk.entryLoc]
  exact hj

/-- What is planned for the two outputs, and how their decryption ends. -/
theorem textsAB_returns : ∃ w₁ w₂ w₃ g w₄ s,
    planEncryptionInputs (Env.calm .checksummed) [encryptA.source, encryptB.source] textsAB =
      (.ok [encryptA, encryptB], w₁) ∧
    encryptPlans (Env.calm .checksummed) [112, 119] false true [encryptA, encryptB] w₁ =
      (.ok [.ok encryptA.output, .ok encryptB.output], w₂) ∧
    planDecryptionInputs (Env.calm .checksummed) [encryptA.output, encryptB.output] none w₂ =
      (.ok [⟨encryptA.output, .here⟩, ⟨encryptB.output, .here⟩], w₃) ∧
    DecryptionBatchGuard.new (Env.calm .checksummed) [⟨encryptA.output, .here⟩, ⟨encryptB.output, .here⟩] w₃ =
      (.ok g, w₄) ∧
    decryptPlans (Env.calm .checksummed) [112, 119] false [⟨encryptA.output, .here⟩, ⟨encryptB.output, .here⟩] (w₄, g) =
      (.ok [.ok (Path.here.push (.name nameA)), .ok (Path.here.push (.name nameB))], s) := by
  have hcollect : collectInputs (Env.calm .checksummed) [encryptA.source, encryptB.source] false textsAB =
      (.ok [encryptA.source, encryptB.source], _) :=
    collectInputs_ordered (Eff.run_eq_ok (by decide +kernel)) (by decide +kernel)
  rw [planEncryptionInputs, Eff.bind_ok hcollect]
  exact ⟨_, _, _, ⟨[[47, 98, 46, 105, 108], [47, 97, 46, 105, 108]], [.file 3, .file 2], []⟩, _, _,
    Eff.run_eq_ok (by decide +kernel), Eff.run_eq_ok (by decide +kernel),
    planDecryptionInputs_ordered (Eff.run_eq_ok (by decide +kernel)) (by decide +kernel),
    Eff.run_eq_ok (by decide +kernel), Eff.run_eq_ok (by decide +kernel)⟩

end Ironlock
