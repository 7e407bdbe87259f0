import Ironlock.EncryptionRuns
import Ironlock.OutputAliases
import Mathlib.Order.CompletePartialOrder

/-! An encryption batch loses nothing: until a source's output holds it, the
source is as it was, and from then on no other item touches that output. -/

namespace Ironlock
open ByteOrder (Bytes)
open Effect
open Fs (Identity Metadata SysCall)

/-! ## What becomes of one item -/

/-- A file that has a name beside it for its output. -/
structure EncryptionPlan.Placed (fs : Fs) (plan : EncryptionPlan) : Prop where
  source : ∃ i, fs.IsFile plan.source i
  output : ∃ names, fs.resolve false plan.output = .ok names
  beside : ∃ n, plan.output = plan.output.parentOrHere.push (.name n)

/-- The source is where it was, with the bytes it had. -/
def EncryptionPlan.Kept (fs₀ : Fs) (plan : EncryptionPlan) (fs : Fs) : Prop :=
  ∃ i, fs₀.IsFile plan.source i ∧ fs.IsFile plan.source i ∧ fs.content i = fs₀.content i

/-- A file made since is the output, and encloses the source's name and bytes. -/
def EncryptionPlan.Sealed (C : Crates) (password : Bytes) (fs₀ : Fs) (plan : EncryptionPlan) (fs : Fs) : Prop :=
  ∃ i filename, fs₀.IsFile plan.source i ∧ originalFilename plan.source = .ok filename ∧
    Enclosed C password (fs₀.outputPlace plan.output) fs₀.nextInode filename (fs₀.content i) fs

/-- Nothing that one item touches is another's. -/
structure Separate (fs : Fs) (plans : List EncryptionPlan) : Prop where
  once : plans.Nodup
  placed : ∀ plan ∈ plans, plan.Placed fs
  sources : ∀ a ∈ plans, ∀ b ∈ plans, a ≠ b → ¬fs.Aliased a.source b.source
  outputs : ∀ a ∈ plans, ∀ b ∈ plans, a ≠ b → Disjoint (fs.outputPlace a.output) (fs.outputPlace b.output)
  apart : ∀ a ∈ plans, ∀ b ∈ plans, ∀ names, fs.resolve false b.source = .ok names →
    fs.loc names ∉ fs.outputPlace a.output

section
variable {C : Crates} {password : Bytes} {fs₀ fs fs' : Fs} {plan : EncryptionPlan} {S : Set Loc} {I : Set Nat}

namespace EncryptionPlan

theorem Kept.keep (h : plan.Kept fs₀ fs) (hk : fs₀.Keeps fs) (hs : fs.Spares fs' S I)
    (hS : ∀ names, fs₀.resolve false plan.source = .ok names → fs₀.loc names ∉ S)
    (hI : ∀ i, fs₀.IsFile plan.source i → i ∉ I) : plan.Kept fs₀ fs' := by
  obtain ⟨i, hi, hfile, hcontent⟩ := h
  obtain ⟨names, hr, hx⟩ := hfile
  obtain ⟨names₀, hr₀, -⟩ := id hi
  have hsame := hk.resolve hr₀
  rw [hr] at hsame
  cases hsame
  have hnode : fs.nodeAt (fs.loc names) = some (.file i) := hx
  refine ⟨i, hi, ⟨names, hs.keeps.resolve hr, ?_⟩, ?_⟩
  · rw [Fs.node, hs.keeps.loc]
    refine hs.nodes _ _ ?_ hnode
    rw [hk.loc]
    exact hS names hr₀
  · rw [hs.content i (Fs.nodeAt_lt hnode) (hI i hi), hcontent]

theorem Sealed.keep (h : plan.Sealed C password fs₀ fs) (hs : fs.Spares fs' S I)
    (hS : Disjoint (fs₀.outputPlace plan.output) S) (hI : ∀ i ∈ I, i < fs₀.nextInode) :
    plan.Sealed C password fs₀ fs' := by
  obtain ⟨i, filename, hi, horiginal, l, hl, j, hj, hnew, hencloses⟩ := h
  refine ⟨i, filename, hi, horiginal, l, hl, j, hs.nodes l _ (Set.disjoint_left.1 hS hl) hj, hnew, ?_⟩
  rwa [hs.content j (Fs.nodeAt_lt hj) fun hmem => absurd (hI j hmem) (not_lt.2 hnew)]

end EncryptionPlan

/-- A path in a plain directory was there before, if it led somewhere then. -/
theorem Fs.Keeps.outputPlace (hk : fs₀.Keeps fs) (hcwd : fs₀.DirPath fs₀.cwd) {p : Path} {names : List Name}
    (hr : fs₀.resolve false p = .ok names) : fs.outputPlace p ⊆ fs₀.outputPlace p := by
  rintro l ⟨d, n, hat, rfl⟩
  exact ⟨d, n, hat.of_keeps hk (fs₀.start_dirPath hcwd p) hr, hk.entryLoc d n⟩

end

/-! ## The batch -/

/-- What a batch touches at most: its outputs, and the sources that it shreds. -/
def batchPlaces (fs : Fs) (shred : Bool) (plans : List EncryptionPlan) : Set Loc :=
  {l | ∃ plan ∈ plans, l ∈ fs.outputPlace plan.output ∨
    shred = true ∧ ∃ names, fs.resolve false plan.source = .ok names ∧ l = fs.loc names}

def batchFiles (fs : Fs) (shred : Bool) (plans : List EncryptionPlan) : Set Nat :=
  {i | ∃ plan ∈ plans, shred = true ∧ fs.IsFile plan.source i}

/-- All else is as it was, and every item is held by its source or by its output. -/
structure Surviving (C : Crates) (password : Bytes) (shred : Bool) (fs₀ : Fs) (all : List EncryptionPlan)
    (fs : Fs) : Prop where
  spares : fs₀.Spares fs (batchPlaces fs₀ shred all) (batchFiles fs₀ shred all)
  held : ∀ plan ∈ all, plan.Kept fs₀ fs ∨ plan.Sealed C password fs₀ fs

/-- Between two items: those that succeeded are sealed, and those to come are as
they were. -/
structure Underway (C : Crates) (password : Bytes) (shred : Bool) (fs₀ : Fs)
    (all done todo : List EncryptionPlan) (fs : Fs) : Prop extends Surviving C password shred fs₀ all fs where
  done : ∀ plan ∈ done, plan.Sealed C password fs₀ fs
  todo : ∀ plan ∈ todo, plan.Kept fs₀ fs

section
variable {env : Env} {C : Crates} {password : Bytes} {force shred : Bool} {fs₀ fs fs' : Fs}
  {all done todo plans : List EncryptionPlan} {plan : EncryptionPlan} {names : List Name} {i : Nat}

/-- While an item writes its output, all items are as they were. -/
theorem Underway.writing (hsep : Separate fs₀ all) (hplan : plan ∈ all)
    (hothers : ∀ b ∈ done, b ∈ all ∧ b ≠ plan) (htodo : ∀ b ∈ todo, b ∈ all)
    (h : Underway C password shred fs₀ all done (plan :: todo) fs)
    (hs : fs.Spares fs' (fs₀.outputPlace plan.output) ∅) :
    Underway C password shred fs₀ all done (plan :: todo) fs' := by
  have hkept (b : EncryptionPlan) (hb : b ∈ all) (hkept : b.Kept fs₀ fs) : b.Kept fs₀ fs' :=
    hkept.keep h.spares.keeps hs (hsep.apart plan hplan b hb) fun _ _ => id
  have hsealed (b : EncryptionPlan) (hb : b ∈ all) (hne : b ≠ plan) (hsealed : b.Sealed C password fs₀ fs) :
      b.Sealed C password fs₀ fs' :=
    hsealed.keep hs (hsep.outputs b hb plan hplan hne) fun _ => False.elim
  constructor
  · constructor
    · exact h.spares.trans (hs.mono (fun l hl => ⟨plan, hplan, .inl hl⟩) (Set.empty_subset _))
    · intro b hb
      by_cases heq : b = plan
      · rw [heq]
        exact .inl (hkept plan hplan (h.todo plan List.mem_cons_self))
      · exact (h.held b hb).imp (hkept b hb) (hsealed b hb heq)
  · exact fun b hb => hsealed b (hothers b hb).1 (hothers b hb).2 (h.done b hb)
  · intro b hb
    refine hkept b ?_ (h.todo b hb)
    rcases List.mem_cons.1 hb with rfl | hb
    · exact hplan
    · exact htodo b hb

/-- Once its output is there, an item touches only the source that it shreds. -/
theorem Underway.shredding (hsep : Separate fs₀ all) (hplan : plan ∈ all) (hdone : ∀ b ∈ done, b ∈ all)
    (hothers : ∀ b ∈ todo, b ∈ all ∧ b ≠ plan) (h : Underway C password shred fs₀ all done (plan :: todo) fs)
    (hplanned : plan.Sealed C password fs₀ fs) (hr : fs₀.resolve false plan.source = .ok names)
    (hx : fs₀.node names = some (.file i))
    (hs : fs.Spares fs' {l | shred = true ∧ l = fs₀.loc names} {k | shred = true ∧ k = i}) :
    Underway C password shred fs₀ all (plan :: done) todo fs' := by
  have hi : fs₀.IsFile plan.source i := ⟨names, hr, hx⟩
  have hkept (b : EncryptionPlan) (hb : b ∈ all) (hne : b ≠ plan) (hkept : b.Kept fs₀ fs) :
      b.Kept fs₀ fs' := by
    refine hkept.keep h.spares.keeps hs (fun names' hr' hmem => ?_) fun k hk hmem => ?_
    · obtain ⟨k, ⟨names'', hr'', hk⟩, -⟩ := hkept
      rw [hr'] at hr''
      cases hr''
      rw [Fs.node, hmem.2] at hk
      exact hsep.sources b hb plan hplan hne ⟨i, ⟨names', hr', by rw [Fs.node, hmem.2]; exact hx⟩, hi⟩
    · rw [hmem.2] at hk
      exact hsep.sources b hb plan hplan hne ⟨i, hk, hi⟩
  have hsealed (b : EncryptionPlan) (hb : b ∈ all) (hsealed : b.Sealed C password fs₀ fs) :
      b.Sealed C password fs₀ fs' := by
    refine hsealed.keep hs (Set.disjoint_left.2 fun l hl hmem => ?_) fun k hk => ?_
    · rw [hmem.2] at hl
      exact hsep.apart b hb plan hplan names hr hl
    · rw [hk.2]
      exact Fs.nodeAt_lt hx
  constructor
  · constructor
    · refine h.spares.trans (hs.mono ?_ ?_)
      · rintro l ⟨hshred, rfl⟩
        exact ⟨plan, hplan, .inr ⟨hshred, names, hr, rfl⟩⟩
      · rintro k ⟨hshred, rfl⟩
        exact ⟨plan, hplan, hshred, hi⟩
    · intro b hb
      by_cases heq : b = plan
      · rw [heq]
        exact .inr (hsealed plan hplan hplanned)
      · exact (h.held b hb).imp (hkept b hb heq) (hsealed b hb)
  · intro b hb
    rcases List.mem_cons.1 hb with rfl | hb
    · exact hsealed b hplan hplanned
    · exact hsealed b (hdone b hb) (h.done b hb)
  · exact fun b hb => hkept b (hothers b hb).1 (hothers b hb).2 (h.todo b (List.mem_cons_of_mem _ hb))

/-- The items whose results are successes. -/
def succeeded (r : Except IronlockError Path) (plan : EncryptionPlan) (done : List EncryptionPlan) :
    List EncryptionPlan :=
  match r with
  | .ok _ => plan :: done
  | .error _ => done

/-- One item: it touches its own output, and its own source once that is sealed. -/
theorem encryptFile_survives (hq : env.Quiet) (hcwd : fs₀.DirPath fs₀.cwd) (hsep : Separate fs₀ all)
    (hplan : plan ∈ all) (hdone : ∀ b ∈ done, b ∈ all ∧ b ≠ plan) (htodo : ∀ b ∈ todo, b ∈ all ∧ b ≠ plan)
    {Χ : IronlockError → Assertion} :
    Runs (Along (Surviving env.crates password shred fs₀ all)
        (Underway env.crates password shred fs₀ all done (plan :: todo)))
      (Eff.attempt (encryptFileToPath env plan.source plan.output password force shred) :
        FsM (Except IronlockError Path))
      (fun r steps fs => (∀ p, r = .ok p → p = plan.output) ∧
        Along (Surviving env.crates password shred fs₀ all)
          (Underway env.crates password shred fs₀ all (succeeded r plan done) todo) steps fs) Χ := by
  rintro w₀ w ⟨steps, hsteps, hall, hunder⟩
  obtain ⟨i, hi, hfile, hcontent⟩ := hunder.todo plan List.mem_cons_self
  obtain ⟨names, hr, hx⟩ := id hi
  have hkeeps := hunder.spares.keeps
  have hr' := hkeeps.resolve hr
  have hx' : w.fs.node names = some (.file i) := by
    obtain ⟨names', hr'', hx'⟩ := hfile
    rw [hr'] at hr''
    cases hr''
    exact hx'
  obtain ⟨names', houtput⟩ := (hsep.placed plan hplan).output
  obtain ⟨n, hname⟩ := (hsep.placed plan hplan).beside
  have hplace := hkeeps.outputPlace hcwd houtput
  have hapart : w.fs.loc names ∉ w.fs.outputPlace plan.output := by
    rw [hkeeps.loc]
    exact fun hmem => hsep.apart plan hplan plan hplan names hr (hplace hmem)
  have hstart : w.fs.DirPath (w.fs.start plan.output) := by
    rw [hkeeps.start]
    exact hkeeps.dirPath (fs₀.start_dirPath hcwd _)
  rcases hrun : encryptFileToPath env plan.source plan.output password force shred w with ⟨r, w'⟩
  obtain ⟨w₁, hspares₁, hend⟩ := encryptFileToPath_spec hq hstart hname rfl (hkeeps.resolve houtput) hr'
    hx' hapart hrun
  obtain ⟨hfs₁, steps₁, hsteps₁, hall₁⟩ := hspares₁.mono hplace le_rfl
  have hwriting {fs : Fs} (hs : w.fs.Spares fs (fs₀.outputPlace plan.output) ∅) :=
    Underway.writing hsep hplan hdone (fun b hb => (htodo b hb).1) hunder hs
  have hall₁' : ∀ s ∈ steps ++ steps₁, Surviving env.crates password shred fs₀ all s.after := by
    intro s hs
    rcases List.mem_append.1 hs with hs | hs
    · exact hall s hs
    · exact (hwriting (hall₁ s hs)).toSurviving
  have hunder₁ := hwriting hfs₁
  change ∃ _, _
  simp only [hrun]
  rcases hend with ⟨⟨e, rfl⟩, rfl⟩ | ⟨⟨filename, horiginal, l, hl, j, hj, hnew, hencloses⟩,
    ⟨hfs₂, steps₂, hsteps₂, hall₂⟩, hpath⟩
  · refine ⟨steps ++ steps₁, by rw [hsteps₁, hsteps, List.append_assoc], nofun, hall₁', ?_⟩
    exact ⟨hunder₁.toSurviving, hunder₁.done, fun b hb => hunder₁.todo b (List.mem_cons_of_mem _ hb)⟩
  have hsealed₁ : plan.Sealed env.crates password fs₀ w₁.fs := by
    rw [hcontent] at hencloses
    exact ⟨i, filename, hi, horiginal, l, hplace hl, j, hj, hunder.spares.nextInode.trans hnew, hencloses⟩
  rw [hkeeps.loc] at hfs₂ hall₂
  have hshredding {fs : Fs}
      (hs : w₁.fs.Spares fs {l | shred = true ∧ l = fs₀.loc names} {k | shred = true ∧ k = i}) :=
    Underway.shredding hsep hplan (fun b hb => (hdone b hb).1) htodo hunder₁ hsealed₁ hr hx hs
  refine ⟨steps ++ steps₁ ++ steps₂, by rw [hsteps₂, hsteps₁, hsteps]; simp, hpath, ?_, ?_⟩
  · intro s hs
    rcases List.mem_append.1 hs with hs | hs
    · exact hall₁' s hs
    · exact (hshredding (hall₂ s hs)).toSurviving
  · have hunder₂ := hshredding hfs₂
    refine ⟨hunder₂.toSurviving, fun b hb => ?_, hunder₂.todo⟩
    cases r with
    | error e => exact hunder₂.done b (List.mem_cons_of_mem _ hb)
    | ok p => exact hunder₂.done b hb

/-- What a result of the batch says of its item. -/
def EncryptionPlan.Reported (C : Crates) (password : Bytes) (fs₀ fs : Fs) (plan : EncryptionPlan)
    (r : Except IronlockError Path) : Prop :=
  ∀ p, r = .ok p → p = plan.output ∧ plan.Sealed C password fs₀ fs

/-- The whole loop, by induction on the items to come: those that succeeded stay
sealed to its end. -/
theorem encryptPlans_survives (hq : env.Quiet) (hcwd : fs₀.DirPath fs₀.cwd) (hsep : Separate fs₀ all)
    (hdone : ∀ b ∈ done, b ∈ all ∧ b ∉ plans) (hplans : ∀ b ∈ plans, b ∈ all) (honce : plans.Nodup) :
    Runs (Along (Surviving env.crates password shred fs₀ all)
        (Underway env.crates password shred fs₀ all done plans))
      (encryptPlans env password force shred plans)
      (fun results => Along (Surviving env.crates password shred fs₀ all) fun fs =>
        Underway env.crates password shred fs₀ all done [] fs ∧
          List.Forall₂ (EncryptionPlan.Reported env.crates password fs₀ fs) plans results)
      fun _ _ _ => False := by
  induction plans generalizing done with
  | nil => exact .pure fun steps fs ⟨hall, hunder⟩ => ⟨hall, hunder, .nil⟩
  | cons plan plans ih =>
    obtain ⟨hnot, honce⟩ := List.nodup_cons.1 honce
    have hplan : plan ∈ all := hplans plan List.mem_cons_self
    have hrest (b : EncryptionPlan) (hb : b ∈ plans) : b ∈ all ∧ b ≠ plan := by
      refine ⟨hplans b (List.mem_cons_of_mem _ hb), ?_⟩
      rintro rfl
      exact hnot hb
    have hbefore (b : EncryptionPlan) (hb : b ∈ done) : b ∈ all ∧ b ≠ plan := by
      refine ⟨(hdone b hb).1, ?_⟩
      rintro rfl
      exact (hdone b hb).2 List.mem_cons_self
    refine .bind (encryptFile_survives hq hcwd hsep hplan hbefore hrest) fun r => .assuming fun hpath => ?_
    have hsucceeded (b : EncryptionPlan) (hb : b ∈ succeeded r plan done) : b ∈ all ∧ b ∉ plans := by
      have hcases : b = plan ∨ b ∈ done := by
        cases r with
        | error e => exact .inr hb
        | ok p => exact List.mem_cons.1 hb
      rcases hcases with rfl | hb
      · exact ⟨hplan, hnot⟩
      · exact ⟨(hdone b hb).1, fun hmem => (hdone b hb).2 (List.mem_cons_of_mem _ hmem)⟩
    refine .bind (ih hsucceeded (fun b hb => (hrest b hb).1) honce) fun results => .pure ?_
    rintro steps fs ⟨hall, hunder, hreported⟩
    refine ⟨hall, ⟨hunder.toSurviving, fun b hb => hunder.done b ?_, hunder.todo⟩, .cons ?_ hreported⟩
    · cases r with
      | error e => exact hb
      | ok p => exact List.mem_cons_of_mem _ hb
    · rintro p rfl
      exact ⟨hpath p rfl, hunder.done plan List.mem_cons_self⟩

end

end Ironlock
