import Ironlock.Restored

/-! What can be recovered of an encryption batch wherever it stops: each source's
bytes, whole in its directory or sealed in its output, unless `..` undoes a
symbolic link in the source's path. -/

namespace Ironlock
open ByteOrder (Bytes)
open Effect

namespace EncryptionPlan

/-- A file of the source's directory, under the source's name or a temporary one,
has the source's bytes. -/
def Held (fs₀ : Fs) (plan : EncryptionPlan) (fs : Fs) : Prop :=
  ∃ d n i m j, fs₀.resolve false plan.source = .ok (d ++ [n]) ∧ fs₀.node (d ++ [n]) = some (.file i) ∧
    (m = n ∨ ∃ a b, m = tempName a b) ∧ fs.node (d ++ [m]) = some (.file j) ∧ fs.content j = fs₀.content i

/-- The output decrypts to the source's name and bytes, however it is read. -/
def Delivered (C : Crates) (password : Bytes) (fs₀ : Fs) (plan : EncryptionPlan) (fs : Fs) : Prop :=
  ∃ i j filename, fs₀.IsFile plan.source i ∧ fs.IsFile plan.output j ∧
    originalFilename plan.source = .ok filename ∧
    ∀ (reader : Reader) (writer : Writer) (log : List Work), reader.Delivers (fs.content j) → writer.Accepting →
      ∃ d s₁ s₂, StreamDecryptor.new C password ⟨reader, writer, log⟩ = (.ok d, s₁) ∧ d.filename = filename ∧
        StreamDecryptor.decryptTo C d s₁ = (.ok (fs₀.content i).length, s₂) ∧
        s₂.writer.written = writer.written ++ fs₀.content i

def Recoverable (C : Crates) (password : Bytes) (fs₀ : Fs) (plan : EncryptionPlan) (fs : Fs) : Prop :=
  plan.Held fs₀ fs ∨ plan.Delivered C password fs₀ fs

section
variable {C : Crates} {password : Bytes} {fs₀ fs : Fs} {plan : EncryptionPlan}

theorem Kept.held (h : plan.Kept fs₀ fs) (hk : fs₀.Keeps fs) : plan.Held fs₀ fs := by
  obtain ⟨i, ⟨names, hr, hx⟩, ⟨names', hr', hx'⟩, hcontent⟩ := h
  rw [hk.resolve hr] at hr'
  cases hr'
  rcases List.eq_nil_or_concat names with rfl | ⟨d, n, rfl⟩
  · rw [Fs.node_nil] at hx
    cases hx
  · rw [List.concat_eq_append] at hr hx hx'
    exact ⟨d, n, i, n, i, hr, hx, .inl rfl, hx', hcontent⟩

theorem Sealed.delivered (h : plan.Sealed C password fs₀ fs) (hC : C.Inverts) (hk : fs₀.Keeps fs) :
    plan.Delivered C password fs₀ fs := by
  obtain ⟨i, filename, j, x, hi, horiginal, hj, hbytes, rfl, hcontent⟩ := h.at_output hk
  refine ⟨i, j, _, hi, hj, horiginal, fun reader writer log hreader hwriter => ?_⟩
  rw [← hbytes] at hreader
  rw [← hcontent]
  exact decrypt_ok hC x hreader hwriter

end

end EncryptionPlan

theorem Surviving.recoverable {C : Crates} {password : Bytes} {shred : Bool} {fs₀ fs : Fs}
    {plans : List EncryptionPlan} (h : Surviving C password shred fs₀ plans fs) (hC : C.Inverts) :
    ∀ plan ∈ plans, plan.Recoverable C password fs₀ fs := fun plan hmem =>
  (h.held plan hmem).imp (·.held h.spares.keeps) (·.delivered hC h.spares.keeps)

/-- Where keys are those of the places that paths lead to, a planned batch that is
forced and shreds leaves every source recoverable after every step, whatever calls
fail. -/
theorem encryption_batch_recoverable {env env' : Env} (hq : env.Quiet) (hh : env.Honest) (hq' : env'.Quiet)
    (hC : env'.crates.Inverts) {inputs : List Path} {plans : List EncryptionPlan} {w₀ w₁ : World}
    (hexact : w₀.fs.Exact) (hcwd : w₀.fs.DirPath w₀.fs.cwd)
    (hplan : planEncryptionInputs env inputs w₀ = (.ok plans, w₁))
    (hkeyed : ∀ plan ∈ plans, w₀.fs.Keyed plan.source) (password : Bytes) :
    ∃ results w₂, encryptPlans env' password true true plans w₁ = (.ok results, w₂) ∧
      (∀ s ∈ w₂.since w₁, ∀ plan ∈ plans, plan.Recoverable env'.crates password w₀.fs s.after) ∧
      ∀ plan ∈ plans, plan.Recoverable env'.crates password w₀.fs w₂.fs := by
  obtain ⟨hsep, hstart⟩ := planEncryptionInputs_underway hq hh env'.crates password true (hexact.keysRefine env) hcwd hplan
    hkeyed
  have hruns := @encryptPlans_survives env' password true true w₀.fs plans [] plans hq' hcwd hsep (by simp)
    (fun _ => id) hsep.once
  rcases hrun : encryptPlans env' password true true plans w₁ with ⟨e | results, w₂⟩
  · obtain ⟨_, -, hfalse⟩ := hruns.error ⟨by simp, hstart⟩ hrun
    exact hfalse.elim
  · obtain ⟨steps, hsteps, hall, hend, -⟩ := hruns.ok ⟨by simp, hstart⟩ hrun
    refine ⟨results, w₂, rfl, ?_, hend.toSurviving.recoverable hC⟩
    rw [World.since_eq hsteps]
    exact fun s hs => (hall s hs).recoverable hC

theorem encryption_batch_recoverable_ab : ∃ w₁ w₂,
    planEncryptionInputs (Env.calm .checksummed) [encryptA.source, encryptB.source] textsAB =
      (.ok [encryptA, encryptB], w₁) ∧
    encryptPlans (Env.calm .checksummed) [112, 119] true true [encryptA, encryptB] w₁ =
      (.ok [.ok encryptA.output, .ok encryptB.output], w₂) ∧
    encryptA.Recoverable .checksummed [112, 119] textsAB.fs w₂.fs ∧
    encryptB.Recoverable .checksummed [112, 119] textsAB.fs w₂.fs := by
  obtain ⟨w₁, hplan, hruns⟩ := textsAB_runs
  obtain ⟨w₂, hrun, -⟩ := hruns true
  obtain ⟨results, w₂', hrun', -, hend⟩ := encryption_batch_recoverable (Env.calm_quiet .checksummed)
    (Env.calm_faultless _).honest (Env.calm_quiet .checksummed) Crates.checksummed_exact.toInverts
    (fun _ _ => rfl) (Fs.dirPath_nil _) hplan textsAB_keyed [112, 119]
  rw [hrun, Prod.mk.injEq] at hrun'
  obtain ⟨-, rfl⟩ := hrun'
  exact ⟨w₁, w₂, hplan, hrun, hend _ (by simp), hend _ (by simp)⟩

/-! ## A link undone by name -/

theorem Fs.content_ne {fs : Fs} {c : Bytes}
    (h : ∀ e ∈ fs.entries.entries, ∀ i < fs.nextInode, e.2.node = .file i → fs.content i ≠ c) {l : Loc} {i : Nat}
    (hl : fs.nodeAt l = some (.file i)) : fs.content i ≠ c := by
  have hlt := Fs.nodeAt_lt hl
  unfold Fs.nodeAt at hl
  split at hl
  · cases hl
  obtain ⟨e, he, hi⟩ := Option.map_eq_some_iff.1 hl
  exact h ⟨l, e⟩ (AList.mem_lookup_iff.1 he) i hlt hi

/-- The files `/x/a` and `/x/a.il`, and the link `/w/l` to `/x/y`, seen from `/w`. -/
def linkedUp : World :=
  let w : Name := ⟨[119], .refl true⟩
  let x : Name := ⟨[120], .refl true⟩
  let y : Name := ⟨[121], .refl true⟩
  let dirs := (((Fs.blank [w]).mkdir [] w).mkdir [] x).mkdir [x] y
  let links := dirs.put [w] ⟨[108], .refl true⟩ (.symlink (.absolute [x, y])) (by simp)
  ⟨((links.create [x] nameA).setContent 0 [1] |>.create [x] ⟨[97, 46, 105, 108], .refl true⟩).setContent 1 [2], 0, 0, []⟩

/-- `/x/a.il` by way of the link. -/
def throughLink : Path := ⟨.bare, [.name ⟨[108], .refl true⟩, .up, .name ⟨[97, 46, 105, 108], .refl true⟩], false⟩

/-- The first name that is drawn for the output of a file of the stem `a`. -/
def suffixedA : Name := ⟨[97, 45, 48, 48, 48, 48, 48, 48, 48, 48, 48, 48, 48, 48, 48, 48, 48, 48, 46, 105, 108], .refl true⟩

/-- The output that is planned for it. -/
def besideLink : Path := ⟨.bare, [.name ⟨[108], .refl true⟩, .up, .name suffixedA], false⟩

/-- How it is planned with `/x/a`, how the batch ends, and what it leaves. -/
theorem linkedUp_runs :
    let a : Path := .absolute [⟨[120], rfl⟩, nameA]
    let il : Path := .absolute [⟨[120], rfl⟩, ⟨[97, 46, 105, 108], rfl⟩]
    let link : Path := .absolute [⟨[119], rfl⟩, ⟨[108], rfl⟩]
    let plans : List EncryptionPlan := [⟨a, il⟩, ⟨throughLink, besideLink⟩]
    ∃ w₁ w₂, planEncryptionInputs (Env.calm .checksummed) [a, throughLink] linkedUp = (.ok plans, w₁) ∧
      encryptPlans (Env.calm .checksummed) [112, 119] true true plans w₁ =
        (.ok [.ok il, .error (unsafe_ "symbolic links and reparse points are not followed: '" link "'")], w₂) ∧
      (∀ e ∈ w₂.fs.entries.entries, ∀ i < w₂.fs.nextInode, e.2.node = .file i → w₂.fs.content i ≠ [2]) ∧
      ∃ names, w₂.fs.resolve false besideLink = .ok names ∧ w₂.fs.node names = none := by
  intro a il link plans
  have hcollect : collectInputs (Env.calm .checksummed) [a, throughLink] false linkedUp = (.ok [a, throughLink], _) :=
    collectInputs_ordered (Eff.run_eq_ok (by decide +kernel)) (by decide +kernel)
  rw [planEncryptionInputs, Eff.bind_ok hcollect]
  exact ⟨_, _, Eff.run_eq_ok (by decide +kernel), Eff.run_eq_ok (by decide +kernel), by decide +kernel,
    [⟨[120], rfl⟩, suffixedA], by decide +kernel, by decide +kernel⟩

/-- `/x/a` and `l/../a.il` are planned. Then the output of the first replaces the
second, whose bytes are in no file any more, and no call has failed. -/
theorem encryption_batch_loses :
    let env := Env.calm .checksummed
    let a : Path := .absolute [⟨[120], rfl⟩, nameA]
    let il : Path := .absolute [⟨[120], rfl⟩, ⟨[97, 46, 105, 108], rfl⟩]
    let plans : List EncryptionPlan := [⟨a, il⟩, ⟨throughLink, besideLink⟩]
    env.Quiet ∧ env.Faultless ∧ env.crates.Inverts ∧ linkedUp.fs.Exact ∧ linkedUp.fs.DirPath linkedUp.fs.cwd ∧
    throughLink = .parse [108, 47, 46, 46, 47, 97, 46, 105, 108] ∧
    linkedUp.fs.IsFile throughLink 1 ∧ linkedUp.fs.content 1 = [2] ∧
    ∃ w₁ results w₂, planEncryptionInputs env [a, throughLink] linkedUp = (.ok plans, w₁) ∧
      encryptPlans env [112, 119] true true plans w₁ = (.ok results, w₂) ∧
      (∀ l i, w₂.fs.nodeAt l = some (.file i) → w₂.fs.content i ≠ [2]) ∧
      ¬EncryptionPlan.Recoverable env.crates [112, 119] linkedUp.fs ⟨throughLink, besideLink⟩ w₂.fs := by
  intro env a il plans
  have hsource : linkedUp.fs.resolve false throughLink = .ok [⟨[120], rfl⟩, ⟨[97, 46, 105, 108], rfl⟩] := by
    decide +kernel
  have hnode : linkedUp.fs.node [⟨[120], rfl⟩, ⟨[97, 46, 105, 108], rfl⟩] = some (.file 1) := by decide +kernel
  have hcontent : linkedUp.fs.content 1 = [2] := by decide +kernel
  have hcwd : linkedUp.fs.DirPath linkedUp.fs.cwd :=
    (@Fs.dirPath_concat _ [] _).2 ⟨Fs.dirPath_nil _, by decide +kernel⟩
  obtain ⟨w₁, w₂, hplan, hrun, hentries, names, houtput, habsent⟩ := linkedUp_runs
  refine ⟨Env.calm_quiet _, Env.calm_faultless _, Crates.checksummed_exact.toInverts, fun _ _ => rfl, hcwd,
    by decide +kernel, ⟨_, hsource, hnode⟩, hcontent, w₁, _, w₂, hplan, hrun, fun _ _ => Fs.content_ne hentries, ?_⟩
  rintro (⟨d, n, i, m, j, hr, hx, -, hj, hsame⟩ | ⟨i, j, filename, -, ⟨names', hr, hj⟩, -⟩)
  · rw [hsource] at hr
    rw [← Except.ok.inj hr, hnode] at hx
    cases hx
    exact Fs.content_ne hentries hj (hsame.trans hcontent)
  · rw [houtput] at hr
    cases hr
    rw [habsent] at hj
    cases hj

end Ironlock
