import Ironlock.EncryptionEffects
import Ironlock.ExitCodes

/-! What an encryption command does to the disk, whatever fails, and what its
exit code 0 promises. -/

namespace Ironlock
open ByteOrder (Bytes)
open Effect
open Fs (Identity Metadata SysCall)

/-! ## Collected paths -/

/-- The path has no `..`. -/
def Path.Straight (p : Path) : Prop := .up ∉ p.parts

theorem Path.Straight.push {p : Path} (h : p.Straight) (n : Name) : (p.push (.name n)).Straight := by
  intro hmem
  rw [Path.push_parts] at hmem
  rcases List.mem_append.1 hmem with hmem | hmem
  · exact h hmem
  · simp at hmem

theorem Path.absolute_straight (names : List Name) : (Path.absolute names).Straight := by
  intro hmem
  simp [Path.absolute] at hmem

section
variable {env : Env} {p : Path} {w w' : World}

theorem canonicalize_straight (hq : env.Quiet) {canonical : Path}
    (h : Sys.canonicalize env p w = (.ok (.ok canonical), w')) : canonical.Straight := by
  obtain ⟨names, x, -, -, hname⟩ := look_eq_ok (hq.try_tells look_snd h).1.ok
  cases hname
  exact Path.absolute_straight names

theorem readDir_straight (hq : env.Quiet) {entries : List Path} (hp : p.Straight)
    (h : Sys.run env (.readDir p) (Fs.readDir p) w = (.ok entries, w')) : ∀ e ∈ entries, e.Straight := by
  obtain ⟨names, x, -, -, hlist⟩ := look_eq_ok (hq.run_tells look_snd h).1
  cases x with
  | dir =>
    cases hlist
    intro e he
    obtain ⟨n, -, rfl⟩ := List.mem_map.1 he
    exact hp.push n
  | _ => cases hlist

theorem visitEntry_straight (hq : env.Quiet) {root : Path} {stack stack' files files' : List Path}
    (hp : p.Straight) (hstack : ∀ q ∈ stack, q.Straight) (hfiles : ∀ q ∈ files, q.Straight)
    (h : visitEntry env root p stack files w = (.ok (stack', files'), w')) :
    (∀ q ∈ stack', q.Straight) ∧ ∀ q ∈ files', q.Straight := by
  obtain ⟨r, w₁, -, h⟩ := Eff.bind_eq_ok.1 h
  cases r with
  | error e => cases h
  | ok m =>
    obtain ⟨_, w₂, -, h⟩ := Eff.bind_eq_ok.1 h
    split at h
    · obtain ⟨r, w₃, hcanon, h⟩ := Eff.bind_eq_ok.1 h
      cases r with
      | error e => cases h
      | ok canonical =>
        simp only at h
        split at h
        · cases h
        cases h
        refine ⟨?_, hfiles⟩
        intro q hmem
        rcases List.mem_cons.1 hmem with rfl | hmem
        · exact canonicalize_straight hq hcanon
        · exact hstack q hmem
    · split at h
      · cases h
        refine ⟨hstack, ?_⟩
        intro q hmem
        rcases List.mem_append.1 hmem with hmem | hmem
        · exact hfiles q hmem
        · rwa [List.mem_singleton.1 hmem]
      · cases h

theorem visitEntries_straight (hq : env.Quiet) {root : Path} {ps stack stack' files files' : List Path}
    (hps : ∀ q ∈ ps, q.Straight) (hstack : ∀ q ∈ stack, q.Straight) (hfiles : ∀ q ∈ files, q.Straight)
    (h : visitEntries env root ps stack files w = (.ok (stack', files'), w')) :
    (∀ q ∈ stack', q.Straight) ∧ ∀ q ∈ files', q.Straight := by
  induction ps generalizing stack files w with
  | nil =>
    cases h
    exact ⟨hstack, hfiles⟩
  | cons p ps ih =>
    obtain ⟨⟨stack₁, files₁⟩, w₁, hvisit, h⟩ := Eff.bind_eq_ok.1 h
    obtain ⟨hstack₁, hfiles₁⟩ := visitEntry_straight hq (hps p List.mem_cons_self) hstack hfiles hvisit
    exact ih (fun q hmem => hps q (List.mem_cons_of_mem _ hmem)) hstack₁ hfiles₁ h

theorem collectDirectories_straight (hq : env.Quiet) {root : Path} {count : Nat}
    {stack files files' : List Path} (hstack : ∀ q ∈ stack, q.Straight) (hfiles : ∀ q ∈ files, q.Straight)
    (h : collectDirectories env root count stack files w = (.ok files', w')) : ∀ q ∈ files', q.Straight := by
  induction count generalizing stack files w with
  | zero =>
    cases stack <;> cases h
    exact hfiles
  | succ count ih =>
    cases stack with
    | nil =>
      cases h
      exact hfiles
    | cons current stack =>
      obtain ⟨entries, w₁, hread, h⟩ := Eff.bind_eq_ok.1 h
      obtain ⟨⟨stack₁, files₁⟩, w₂, hvisit, h⟩ := Eff.bind_eq_ok.1 h
      have hentries := readDir_straight hq (hstack current List.mem_cons_self) hread
      obtain ⟨hstack₁, hfiles₁⟩ := visitEntries_straight hq hentries
        (fun q hmem => hstack q (List.mem_cons_of_mem _ hmem)) hfiles hvisit
      exact ih hstack₁ hfiles₁ h

/-- Only a file that was given by a path with `..` is collected under one. -/
theorem collectInput_straight (hq : env.Quiet) {decrypting : Bool} {files : List Path}
    (h : collectInput env decrypting p w = (.ok files, w')) : ∀ q ∈ files, q.Straight ∨ q = p := by
  obtain ⟨r, w₁, -, h⟩ := Eff.bind_eq_ok.1 h
  cases r with
  | error e => cases h
  | ok m =>
    obtain ⟨_, w₂, -, h⟩ := Eff.bind_eq_ok.1 h
    split at h
    · obtain ⟨files', w₃, hcollect, h⟩ := Eff.bind_eq_ok.1 h
      cases h
      obtain ⟨r, w₄, -, hcollect⟩ := Eff.bind_eq_ok.1 hcollect
      cases r with
      | error e => cases hcollect
      | ok m =>
        obtain ⟨_, w₅, -, hcollect⟩ := Eff.bind_eq_ok.1 hcollect
        split at hcollect
        · cases hcollect
        obtain ⟨r, w₆, hcanon, hcollect⟩ := Eff.bind_eq_ok.1 hcollect
        cases r with
        | error e => cases hcollect
        | ok root =>
          obtain ⟨_, w₇, hget, hcollect⟩ := Eff.bind_eq_ok.1 hcollect
          cases hget
          obtain ⟨found, w₈, hfound, hcollect⟩ := Eff.bind_eq_ok.1 hcollect
          cases hcollect
          have hroot := canonicalize_straight hq hcanon
          have hall := collectDirectories_straight hq (by simpa using hroot) (by simp) hfound
          intro q hmem
          exact .inl (hall q (List.mem_mergeSort.1 (List.mem_filter.1 hmem).1))
    · split at h
      · cases h
        exact fun q hmem => .inr (List.mem_singleton.1 hmem)
      · cases h

theorem collectInputs_straight (hq : env.Quiet) {decrypting : Bool} {inputs files : List Path}
    (h : collectInputs env inputs decrypting w = (.ok files, w')) : ∀ q ∈ files, q.Straight ∨ q ∈ inputs := by
  obtain ⟨found, w₁, hfrom, hsort⟩ := Eff.bind_eq_ok.1 h
  cases hsort
  suffices hall : ∀ (files : List Path), ∀ w₂, collectInputsFrom env decrypting inputs files w₂ = (.ok found, w') →
      ∀ q ∈ found, q ∈ files ∨ q.Straight ∨ q ∈ inputs by
    intro q hmem
    exact (hall [] w hfrom q (List.mem_mergeSort.1 hmem)).resolve_left (by simp)
  clear h hfrom
  induction inputs with
  | nil =>
    intro files w₂ h q hmem
    cases h
    exact .inl hmem
  | cons input inputs ih =>
    intro files w₂ h q hmem
    obtain ⟨more, w₃, hmore, h⟩ := Eff.bind_eq_ok.1 h
    rcases ih (files ++ more) w₃ h q hmem with hmem | hmem | hmem
    · refine (List.mem_append.1 hmem).imp id fun hmem => ?_
      refine (collectInput_straight hq hmore q hmem).imp id fun heq => ?_
      rw [heq]
      exact List.mem_cons_self
    · exact .inr (.inl hmem)
    · exact .inr (.inr (List.mem_cons_of_mem _ hmem))

/-- Every planned source is a regular file. It is named without `..`, unless it is an input. -/
theorem planEncryptionInputs_sources (hq : env.Quiet) (hh : env.Honest) {inputs : List Path}
    {plans : List EncryptionPlan} (h : planEncryptionInputs env inputs w = (.ok plans, w')) :
    ∀ plan ∈ plans, (plan.source.Straight ∨ plan.source ∈ inputs) ∧ ∃ i, w.fs.IsFile plan.source i := by
  obtain ⟨sources, w₁, hcollect, h⟩ := Eff.bind_eq_ok.1 h
  have hstraight := collectInputs_straight hq hcollect
  have hfiles : ∀ s ∈ sources, ∃ i, w.fs.IsFile s i := by
    obtain ⟨files, w₂, hfrom, hsort⟩ := Eff.bind_eq_ok.1 hcollect
    cases hsort
    intro s hs
    exact collectInputsFrom_eq_ok hq (by simp) hfrom s (List.mem_mergeSort.1 hs)
  obtain ⟨⟨keys, handles⟩, w₂, -, h⟩ := Eff.bind_eq_ok.1 h
  obtain ⟨defaults, w₃, hdefaults, h⟩ := Eff.bind_eq_ok.1 h
  rw [Eff.ofExcept_apply, Prod.mk.injEq] at hdefaults
  obtain ⟨horder, hbeside⟩ := defaultEncryptedPaths_beside hdefaults.1
  obtain ⟨defaultKeys, w₄, -, h⟩ := Eff.bind_eq_ok.1 h
  obtain ⟨hsources, -⟩ := planOutputs_fresh hq hh hbeside h
  rw [horder] at hsources
  intro plan hmem
  have hsource : plan.source ∈ sources := hsources ▸ List.mem_map_of_mem hmem
  exact ⟨hstraight _ hsource, hfiles _ hsource⟩

end

/-! ## The command -/

theorem Looked.still {env : Env} (hq : env.Quiet) {w w' : World} (h : Looked env w w') : Still w w' := by
  induction h with
  | refl => exact refl_of Still w
  | @call w' _ call hcall fault ih =>
    refine trans_of Still ih ⟨hq _ _, _, rfl, ?_⟩
    simp [hq w'.calls w'.fs]
  | draw _ draws ih => exact ⟨ih.1, ih.2⟩

theorem Still.since {w w' : World} (h : Still w w') : ∀ s ∈ w'.since w, s.after = w.fs := by
  obtain ⟨-, steps, hsteps, hall⟩ := h
  rw [World.since_eq hsteps]
  exact hall

/-- What holds of the steps of two runs, one after the other. -/
theorem World.since_forall {w₀ w₁ w₂ : World} {P : Step → Prop} (h₁ : w₀.steps <+: w₁.steps)
    (h₂ : w₁.steps <+: w₂.steps) (hfirst : ∀ s ∈ w₁.since w₀, P s) (hsecond : ∀ s ∈ w₂.since w₁, P s) :
    ∀ s ∈ w₂.since w₀, P s := by
  obtain ⟨steps₁, hsteps₁⟩ := h₁
  obtain ⟨steps₂, hsteps₂⟩ := h₂
  rw [World.since_eq hsteps₁.symm] at hfirst
  rw [World.since_eq hsteps₂.symm] at hsecond
  have hsteps : w₂.steps = w₀.steps ++ (steps₁ ++ steps₂) := by rw [← hsteps₂, ← hsteps₁, List.append_assoc]
  rw [World.since_eq hsteps]
  intro s hs
  rcases List.mem_append.1 hs with hs | hs
  · exact hfirst s hs
  · exact hsecond s hs

/-- What the exit code 0 promises of an encryption: every source is sealed in its
output, and gone if it was to be shredded, and no other file is new. -/
structure AllSealed (C : Crates) (password : Bytes) (shred : Bool) (fs₀ : Fs) (plans : List EncryptionPlan)
    (fs : Fs) : Prop where
  each : ∀ plan ∈ plans, plan.Sealed C password fs₀ fs
  erased : shred = true → ∀ plan ∈ plans, plan.Erased fs₀ fs
  adds : fs₀.AddsOnly fs (outputPlaces fs₀ plans)

/-- What a planned batch does, from the plan to its end. -/
theorem planned_batch_keeps {env : Env} (hq : env.Quiet) (hh : env.Honest) {files : List Path} {password : Bytes}
    {force shred : Bool} {plans : List EncryptionPlan} {results : List (Except IronlockError Path)}
    {w₀ w₁ w₂ : World} (hexact : w₀.fs.Exact) (hcwd : w₀.fs.DirPath w₀.fs.cwd)
    (hnul : (Path.absolute w₀.fs.cwd).hasNul = false) (hstraight : ∀ p ∈ files, p.Straight)
    (hplan : planEncryptionInputs env files w₀ = (.ok plans, w₁))
    (hbatch : encryptPlans env password force shred plans w₁ = (.ok results, w₂)) :
    (∀ step ∈ w₂.since w₀, Surviving env.crates password shred w₀.fs plans step.after) ∧
      Surviving env.crates password shred w₀.fs plans w₂.fs ∧
      ((∀ r ∈ results, r.isOk = true) → AllSealed env.crates password shred w₀.fs plans w₂.fs) := by
  have hstill := ((planEncryptionInputs_looks _).still hq).run hplan
  have hkeyed : ∀ plan ∈ plans, w₀.fs.Keyed plan.source := by
    intro plan hmem
    obtain ⟨hsource, i, hi⟩ := planEncryptionInputs_sources hq hh hplan plan hmem
    exact hi.keyed hcwd hnul (hsource.elim id (hstraight _))
  obtain ⟨hsep, hstart⟩ := planEncryptionInputs_underway hq hh env.crates password shred (hexact.keysRefine env) hcwd hplan
    hkeyed
  obtain ⟨steps, hsteps, hall, hend, hreported⟩ := (encryptPlans_survives hq hcwd hsep (by simp)
    (fun _ => id) hsep.once).ok ⟨by simp, hstart⟩ hbatch
  have hbefore : Surviving env.crates password shred w₀.fs plans w₀.fs := by
    have hsurviving := hstart.toSurviving
    rwa [hstill.1] at hsurviving
  refine ⟨?_, hend.toSurviving, ?_⟩
  · have hgrows : w₀.steps <+: w₁.steps := by
      obtain ⟨-, steps₁, hsteps₁, -⟩ := hstill
      exact ⟨steps₁, hsteps₁.symm⟩
    refine World.since_forall hgrows ⟨steps, hsteps.symm⟩ ?_ ?_
    · intro step hstep
      rw [hstill.since step hstep]
      exact hbefore
    · rwa [World.since_eq hsteps]
  · intro hok
    obtain ⟨hadds, herased⟩ := encryptPlans_effect hq hcwd hsep (by simp) (fun _ => id) hsep.once hstart hbatch hok
    rw [hstill.1] at hadds
    refine ⟨?_, herased, hadds⟩
    intro plan hmem
    obtain ⟨k, hk, rfl⟩ := List.mem_iff_getElem.1 hmem
    have hk' : k < results.length := hreported.length_eq ▸ hk
    have hreport := hreported.get hk hk'
    cases hr : results.get ⟨k, hk'⟩ with
    | error e =>
      have hfirst := hok _ (List.get_mem results ⟨k, hk'⟩)
      rw [hr] at hfirst
      cases hfirst
    | ok p => exact (hreport p hr).2

/-- A command that ends in 0 has no result but successes. -/
theorem Concluded.all_ok {progress : Bool} {title operation : String} {printed : List Message}
    {results : List (Except IronlockError Path)} {s t : Session}
    (h : Concluded progress title operation printed results s t 0) : ∀ r ∈ results, r.isOk = true := by
  by_contra hnot
  have hcode := h.code
  rw [if_neg hnot] at hcode
  cases hcode

end Ironlock
