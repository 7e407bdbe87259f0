import Ironlock.EncryptionOutputs
import Ironlock.VerifiedOutput

/-! What an encryption that succeeds has changed: its output is there, a source
that it shredded is not, and no other file is new. -/

namespace Ironlock
open ByteOrder (Bytes)
open Effect
open Fs (Identity Metadata SysCall)

/-- Files are new, or newly named, at these places only. -/
def Fs.AddsOnly (fs fs' : Fs) (S : Set Loc) : Prop :=
  ∀ l i, l ∉ S → fs'.nodeAt l = some (.file i) → fs.nodeAt l = some (.file i)

namespace Fs.AddsOnly

variable {fs fs' fs'' : Fs} {S S' : Set Loc}

theorem of_eq (h : fs'.nodeAt = fs.nodeAt) : fs.AddsOnly fs' S := by
  intro l i _ hi
  rwa [h] at hi

theorem trans (h : fs.AddsOnly fs' S) (h' : fs'.AddsOnly fs'' S) : fs.AddsOnly fs'' S := by
  intro l i hl hi
  apply h l i hl
  exact h' l i hl hi

theorem mono (h : fs.AddsOnly fs' S) (hS : S ⊆ S') : fs.AddsOnly fs' S' := by
  intro l i hl hi
  exact h l i (fun hmem => hl (hS hmem)) hi

end Fs.AddsOnly

/-! ## One file -/

section
variable {env : Env} {C : Fs → Bytes → Prop} {body : Nat → FsM Unit} {destination p : Path} {force : Bool}
  {w w' : World}

/-- A write that succeeds makes directories that were missing, and then puts its
file into its place. -/
theorem AtomicOutput.writing_eq_ok (hq : env.Quiet) (hbody : AtomicOutput.Fills C body)
    (h : AtomicOutput.writing env destination force body w = (.ok p, w')) :
    p = destination ∧ ∃ base d n i, w.fs.OnlyDirs base ∧ base.At destination d n ∧ base.Keeps w'.fs ∧
      w'.fs.nodeAt = Function.update base.nodeAt (base.entryLoc d n) (some (.file i)) := by
  obtain ⟨o, w₁, hnew, h⟩ := Eff.bind_eq_ok.1 h
  obtain ⟨_, w₂, hwrite, hcommit⟩ := Eff.bind_eq_ok.1 h
  obtain ⟨steps₁, -, -, base, d, a, b, hbase, hready, rfl, hw⟩ :=
    (AtomicOutput.new_runs hq (Growing.onlyDirs w.fs) (fun _ _ _ _ _ => trivial) destination force).ok
      ⟨by simp, .refl w.fs⟩ hnew
  have hcreated : o.Written base d a b [] w₁.fs := hw ▸ hready.created
  obtain ⟨steps₂, -, -, c, -, hwritten⟩ := (hbody (fun _ => True) o base d a b hready
    fun _ _ _ => trivial).ok ⟨by simp, hcreated⟩ (Eff.onError_eq_ok.1 hwrite)
  obtain ⟨hp, n, hat, hinstalled⟩ := hready.commit_eq_ok hq hwritten hcommit
  exact ⟨hp, base, d, n, o.file, hbase, hat, hinstalled.keeps, hinstalled.nodeAt⟩

end

section
variable {env : Env} {source output p q : Path} {password : Bytes} {force shred : Bool} {w w' : World} {i : Nat}
  {names names' : List Name} {n : Name}

/-- A shredding that succeeds has removed its file, and done nothing else to names. -/
theorem secureDeleteInner_eq_ok (hq : env.Quiet) (hcwd : w.fs.DirPath w.fs.cwd) (hfile : w.fs.IsFile source i)
    {expectedSource : Option Identity} (h : secureDeleteInner env source expectedSource w = (.ok (), w')) :
    ∃ names, w.fs.resolve false source = .ok names ∧
      w'.fs.nodeAt = Function.update w.fs.nodeAt (w.fs.loc names) none := by
  obtain ⟨d, n, hplaced, hsource⟩ := hfile.placed hcwd
  have hstart : Shred.Fresh w.fs i w.fs.nodeAt [] w.fs :=
    ⟨by simp [Shred.Unwritten], by simp [Shred.Late], fun _ => rfl, .refl _, rfl, rfl⟩
  obtain ⟨steps, -, -, hgone⟩ := (Shred.secureDeleteInner_runs hq hplaced hsource expectedSource).ok hstart h
  refine ⟨d ++ [n], hplaced.reaches.resolve (.inl rfl), ?_⟩
  rw [hgone.nodeAt]
  rfl

theorem encryptFileToPath_effect (hq : env.Quiet) (hcwd : w.fs.DirPath w.fs.cwd)
    (hr : w.fs.resolve false output = .ok names') (hsource : w.fs.resolve false source = .ok names)
    (hfile : w.fs.node names = some (.file i)) (hapart : w.fs.loc names ∉ w.fs.outputPlace output)
    (h : encryptFileToPath env source output password force shred w = (.ok p, w')) :
    w.fs.AddsOnly w'.fs (w.fs.outputPlace output) ∧
      (shred = true → w'.fs.nodeAt (w.fs.loc names) = none) := by
  rw [encryptFileToPath_eq] at h
  obtain ⟨⟨j, handle, filename⟩, w₁, hopen, h⟩ := Eff.bind_eq_ok.1 h
  have hfs₁ : w₁.fs = w.fs := ((encryptionSource_looks.still hq).run hopen).1
  obtain ⟨committed, w₂, hwrite, h⟩ := Eff.bind_eq_ok.1 h
  obtain ⟨-, base, d, n, k, hdirs, hat, hkeeps, hnode⟩ :=
    AtomicOutput.writing_eq_ok hq (writeEncrypted_fills hq password filename j) hwrite
  rw [hfs₁] at hdirs
  have hplace : base.entryLoc d n ∈ w.fs.outputPlace output := by
    refine ⟨d, n, hat.of_keeps hdirs.spares.keeps (w.fs.start_dirPath hcwd _) hr, ?_⟩
    exact hdirs.spares.keeps.entryLoc d n
  have hadds : w.fs.AddsOnly w₂.fs (w.fs.outputPlace output) := by
    intro l m hl hm
    have hne : l ≠ base.entryLoc d n := by
      rintro rfl
      exact hl hplace
    rw [hnode, Function.update_of_ne hne] at hm
    exact hdirs.file_old hm
  cases shred with
  | false =>
    cases h
    exact ⟨hadds, nofun⟩
  | true =>
    obtain ⟨_, w₃, hshred, h⟩ := Eff.bind_eq_ok.1 h
    cases h
    have hk : w.fs.Keeps w₂.fs := hdirs.spares.keeps.trans hkeeps
    have hthere : w₂.fs.IsFile source i := by
      refine ⟨names, hk.resolve hsource, ?_⟩
      have hne : w.fs.loc names ≠ base.entryLoc d n := by
        intro heq
        exact hapart (heq ▸ hplace)
      rw [Fs.node, hk.loc, hnode, Function.update_of_ne hne]
      exact hdirs.spares.nodes _ _ id hfile
    have hcwd₂ : w₂.fs.DirPath w₂.fs.cwd := by
      rw [hk.cwd]
      exact hk.dirPath hcwd
    obtain ⟨found, hfound, hgone⟩ := secureDeleteInner_eq_ok hq hcwd₂ hthere hshred
    rw [hk.resolve hsource] at hfound
    cases hfound
    rw [hk.loc] at hgone
    constructor
    · apply hadds.trans
      intro l m _ hm
      rw [hgone] at hm
      by_cases heq : l = w.fs.loc names
      · rw [heq, Function.update_self] at hm
        cases hm
      · rwa [Function.update_of_ne heq] at hm
    · intro _
      rw [hgone, Function.update_self]

end

/-! ## The batch -/

/-- The places of a batch's outputs. -/
def outputPlaces (fs : Fs) (plans : List EncryptionPlan) : Set Loc :=
  {l | ∃ plan ∈ plans, l ∈ fs.outputPlace plan.output}

/-- No file is where the source was. -/
def EncryptionPlan.Erased (fs₀ : Fs) (plan : EncryptionPlan) (fs : Fs) : Prop :=
  ∀ names i, fs₀.resolve false plan.source = .ok names → fs.nodeAt (fs₀.loc names) ≠ some (.file i)

theorem EncryptionPlan.Erased.keep {fs₀ fs fs' : Fs} {plan : EncryptionPlan} {S : Set Loc}
    (h : plan.Erased fs₀ fs) (hadds : fs.AddsOnly fs' S)
    (hS : ∀ names, fs₀.resolve false plan.source = .ok names → fs₀.loc names ∉ S) : plan.Erased fs₀ fs' := by
  intro names i hr hi
  exact h names i hr (hadds _ i (hS names hr) hi)

section
variable {env : Env} {password : Bytes} {force shred : Bool} {fs₀ : Fs} {all done todo plans : List EncryptionPlan}
  {plan : EncryptionPlan} {results : List (Except IronlockError Path)} {w w' : World} {p : Path}

/-- One item that succeeds while a batch is under way. -/
theorem Underway.effect (hq : env.Quiet) (hcwd : fs₀.DirPath fs₀.cwd) (hsep : Separate fs₀ all)
    (hplan : plan ∈ all) (h : Underway env.crates password shred fs₀ all done (plan :: todo) w.fs)
    (hrun : encryptFileToPath env plan.source plan.output password force shred w = (.ok p, w')) :
    w.fs.AddsOnly w'.fs (fs₀.outputPlace plan.output) ∧ (shred = true → plan.Erased fs₀ w'.fs) := by
  obtain ⟨i, ⟨names, hr, hx⟩, hfile, -⟩ := h.todo plan List.mem_cons_self
  have hkeeps := h.spares.keeps
  have hr' := hkeeps.resolve hr
  have hx' : w.fs.node names = some (.file i) := by
    obtain ⟨names', hr'', hx'⟩ := hfile
    rw [hr'] at hr''
    cases hr''
    exact hx'
  obtain ⟨names', houtput⟩ := (hsep.placed plan hplan).output
  have hplace := hkeeps.outputPlace hcwd houtput
  have hapart : w.fs.loc names ∉ w.fs.outputPlace plan.output := by
    rw [hkeeps.loc]
    intro hmem
    exact hsep.apart plan hplan plan hplan names hr (hplace hmem)
  have hcwd' : w.fs.DirPath w.fs.cwd := by
    rw [hkeeps.cwd]
    exact hkeeps.dirPath hcwd
  obtain ⟨hadds, hgone⟩ :=
    encryptFileToPath_effect hq hcwd' (hkeeps.resolve houtput) hr' hx' hapart hrun
  constructor
  · exact hadds.mono hplace
  · intro hshred names₀ k hr₀ hk
    rw [hr] at hr₀
    cases hr₀
    rw [← hkeeps.loc, hgone hshred] at hk
    cases hk

/-- The whole loop, by induction on the items to come. -/
theorem encryptPlans_effect (hq : env.Quiet) (hcwd : fs₀.DirPath fs₀.cwd) (hsep : Separate fs₀ all)
    (hdone : ∀ b ∈ done, b ∈ all ∧ b ∉ plans) (hplans : ∀ b ∈ plans, b ∈ all) (honce : plans.Nodup)
    (h : Underway env.crates password shred fs₀ all done plans w.fs)
    (hrun : encryptPlans env password force shred plans w = (.ok results, w'))
    (hall : ∀ r ∈ results, r.isOk = true) :
    w.fs.AddsOnly w'.fs (outputPlaces fs₀ plans) ∧ (shred = true → ∀ plan ∈ plans, plan.Erased fs₀ w'.fs) := by
  induction plans generalizing done w results with
  | nil =>
    cases hrun
    exact ⟨.of_eq rfl, by simp⟩
  | cons plan plans ih =>
    obtain ⟨hnot, honce⟩ := List.nodup_cons.1 honce
    have hplan : plan ∈ all := hplans plan List.mem_cons_self
    have hrest (b : EncryptionPlan) (hb : b ∈ plans) : b ∈ all ∧ b ≠ plan := by
      refine ⟨hplans b (List.mem_cons_of_mem _ hb), ?_⟩
      rintro rfl
      exact hnot hb
    have hbefore (b : EncryptionPlan) (hb : b ∈ done) : b ∈ all ∧ b ≠ plan := by
      refine ⟨(hdone b hb).1, ?_⟩
      rintro rfl
      exact (hdone b hb).2 List.mem_cons_self
    obtain ⟨r, w₁, hfirst, hrun⟩ := Eff.bind_eq_ok.1 hrun
    obtain ⟨rest, w₂, hloop, hrun⟩ := Eff.bind_eq_ok.1 hrun
    cases hrun
    have hr := hall r List.mem_cons_self
    cases r with
    | error e => cases hr
    | ok p =>
      obtain ⟨steps, -, -, -, hunder⟩ := (encryptFile_survives hq hcwd hsep hplan hbefore hrest
        (Χ := fun _ _ _ => False)).ok ⟨by simp, h⟩ hfirst
      rw [Eff.attempt, Prod.mk.injEq, Except.ok.injEq] at hfirst
      obtain ⟨hadds, herased⟩ := h.effect hq hcwd hsep hplan (Prod.ext hfirst.1 hfirst.2)
      have hsucceeded (b : EncryptionPlan) (hb : b ∈ plan :: done) : b ∈ all ∧ b ∉ plans := by
        rcases List.mem_cons.1 hb with rfl | hb
        · exact ⟨hplan, hnot⟩
        · exact ⟨(hdone b hb).1, fun hmem => (hdone b hb).2 (List.mem_cons_of_mem _ hmem)⟩
      obtain ⟨hadds', herased'⟩ := ih hsucceeded (fun b hb => (hrest b hb).1) honce hunder hloop
        fun r hr => hall r (List.mem_cons_of_mem _ hr)
      constructor
      · apply (hadds.mono ?_).trans (hadds'.mono ?_)
        · exact fun l hl => ⟨plan, List.mem_cons_self, hl⟩
        · rintro l ⟨b, hb, hl⟩
          exact ⟨b, List.mem_cons_of_mem _ hb, hl⟩
      · intro hshred b hb
        rcases List.mem_cons.1 hb with rfl | hb
        · apply (herased hshred).keep hadds'
          rintro names hr ⟨c, hc, hl⟩
          exact hsep.apart c (hrest c hc).1 b hplan names hr hl
        · exact herased' hshred b hb

end

end Ironlock
