import Ironlock.Recoverable
import Ironlock.TreeRoundTrip

/-! The entries of a batch's outputs: where names of one entry have one key, no two
outputs are one entry, and none replaces another. -/

namespace Ironlock
open ByteOrder (Bytes)
open Effect
open Fs (Identity Metadata SysCall)

/-- The paths lead to no one entry. -/
def Fs.OtherEntry (fs : Fs) (p q : Path) : Prop :=
  ∀ names names', fs.resolve false p = .ok names → fs.resolve false q = .ok names' → fs.loc names ≠ fs.loc names'

/-! ## Planned outputs -/

section
variable {env : Env} {inputs : List Path} {plans : List EncryptionPlan} {w w' : World} {p : Path} {n : Name} {i : Nat}

/-- What leads by its names does so for all names beside it. -/
theorem Fs.ByName.beside {fs : Fs} (h : fs.ByName p) (hfile : fs.IsFile p i) (hcwd : fs.DirPath fs.cwd) (n : Name) :
    fs.ByName (p.parentOrEmpty.push (.name n)) := by
  obtain ⟨parts, m, hp⟩ := hfile.last hcwd
  obtain ⟨names, hr, -⟩ := hfile
  have hlex := h names hr
  have hparent : p.parentOrEmpty = ⟨p.anchor, parts, false⟩ := by
    conv_lhs => rw [hp]
    exact congrArg (·.getD .empty) (Path.push_parent ⟨p.anchor, parts, false⟩ (.name m))
  have hparts : p.parts = parts ++ [.name m] := by rw [hp]
  have hname (o : Name) : lexicalFrom (fs.start p) (parts ++ [.name o]) = lexicalFrom (fs.start p) parts ++ [o] := by
    rw [lexicalFrom_append]
    rfl
  rw [hp] at hr
  obtain ⟨-, d, rfl, -, hbeside⟩ := Fs.resolve_push (q := ⟨p.anchor, parts, false⟩) hr
  rw [hparts, hname, Fs.absolute_concat] at hlex
  obtain ⟨-, d', heq, -, hbeside'⟩ := Fs.resolve_push hlex
  obtain ⟨rfl, -⟩ := List.append_inj' heq rfl
  intro names' hr'
  rw [hparent] at hr' ⊢
  have hn : n.bytes.contains 0 = false := by
    have hnul := (Fs.resolve_eq_ok hr').1
    simp only [Path.hasNul, Path.push_parts, List.any_append, Bool.or_eq_false_iff] at hnul
    simpa using hnul.2
  rw [(hbeside n hn).resolve (.inl rfl)] at hr'
  cases hr'
  rw [Path.push_parts, show fs.start (Path.push ⟨p.anchor, parts, false⟩ (.name n)) = fs.start p from rfl, hname,
    Fs.absolute_concat]
  exact (hbeside' n hn).resolve (.inl rfl)

/-- The sources of a batch lead by their names where those of its inputs that are files do. -/
theorem planEncryptionInputs_byName (hq : env.Quiet) (hh : env.Honest) (hcwd : w.fs.DirPath w.fs.cwd)
    (hnul : (Path.absolute w.fs.cwd).hasNul = false) (hinputs : ∀ p ∈ inputs, ∀ i, w.fs.IsFile p i → w.fs.ByName p)
    (h : planEncryptionInputs env inputs w = (.ok plans, w')) : ∀ plan ∈ plans, w.fs.ByName plan.source := by
  intro plan hmem
  obtain ⟨hsource, i, hi⟩ := planEncryptionInputs_sources hq hh h plan hmem
  rcases hsource with hstraight | hinput
  · obtain ⟨parts, n, hp⟩ := hi.last hcwd
    refine Fs.byName_of_names hcwd hnul ?_ hstraight
    rw [hp]
  · exact hinputs _ hinput i hi

theorem planEncryptionInputs_apart (hq : env.Quiet) (hh : env.Honest) (hrefine : w.fs.KeysRefine env)
    (hcwd : w.fs.DirPath w.fs.cwd) (h : planEncryptionInputs env inputs w = (.ok plans, w'))
    (hsources : ∀ plan ∈ plans, w.fs.ByName plan.source) :
    plans.Pairwise fun a b => w.fs.OtherEntry a.output b.output := by
  obtain ⟨keys, hplans, -, hdiffer⟩ := planEncryptionInputs_fresh hq hh h
  have houtput (plan : EncryptionPlan) (hmem : plan ∈ plans) :
      w.fs.ByName plan.output ∧ ∃ key, w.fs.HasKey env plan.output key := by
    obtain ⟨⟨i, hi⟩, -, ⟨n, hname⟩, key, hkey, -⟩ := hplans plan hmem
    refine ⟨?_, key, hkey⟩
    rw [hname]
    exact (hsources plan hmem).beside hi hcwd n
  refine hdiffer.imp_of_mem fun {a b} ha hb hkeys names names' hr hr' hsame => ?_
  obtain ⟨hbyName, key, q, hq, hkey⟩ := houtput a ha
  obtain ⟨hbyName', key', q', hq', hkey'⟩ := houtput b hb
  refine hkeys key key' ⟨q, hq, hkey⟩ ⟨q', hq', hkey'⟩ ?_
  rw [hkey, hkey']
  exact hbyName.refines hbyName' hrefine hr hr' hsame hq hq'

end

/-! ## Encryption -/

section
variable {env : Env} {C : Crates} {password : Bytes} {force shred : Bool} {fs fs' : Fs} {all part : List EncryptionPlan}
  {b : EncryptionPlan} {i : Nat} {names : List Name}

theorem Separate.sublist (h : Separate fs all) (hpart : part.Sublist all) : Separate fs part where
  once := h.once.sublist hpart
  placed plan hmem := h.placed plan (hpart.subset hmem)
  sources a ha b hb := h.sources a (hpart.subset ha) b (hpart.subset hb)
  outputs a ha b hb := h.outputs a (hpart.subset ha) b (hpart.subset hb)
  apart a ha b hb := h.apart a (hpart.subset ha) b (hpart.subset hb)

/-- What the other items touch is no source of this one. -/
theorem Separate.source_place (h : Separate fs all) (hpart : part ⊆ all) (hb : b ∈ all) (hnot : b ∉ part)
    (hr : fs.resolve false b.source = .ok names) (hi : fs.IsFile b.source i) :
    fs.loc names ∉ batchPlaces fs shred part := by
  rintro ⟨a, ha, hl | ⟨-, names', hr', hsame⟩⟩
  · exact h.apart a (hpart ha) b hb names hr hl
  · obtain ⟨names₀, hr₀, hx⟩ := id hi
    rw [hr] at hr₀
    cases hr₀
    rw [Fs.node, hsame] at hx
    refine h.sources a (hpart ha) b hb ?_ ⟨i, ⟨names', hr', hx⟩, hi⟩
    rintro rfl
    exact hnot ha

theorem Separate.source_file (h : Separate fs all) (hpart : part ⊆ all) (hb : b ∈ all) (hnot : b ∉ part)
    (hi : fs.IsFile b.source i) : i ∉ batchFiles fs shred part := by
  rintro ⟨a, ha, -, ha'⟩
  refine h.sources a (hpart ha) b hb ?_ ⟨i, ha', hi⟩
  rintro rfl
  exact hnot ha

/-- Nor is it this one's output. -/
theorem Separate.output_place (h : Separate fs all) (hpart : part ⊆ all) (hb : b ∈ all) (hnot : b ∉ part) :
    Disjoint (fs.outputPlace b.output) (batchPlaces fs shred part) := by
  rw [Set.disjoint_left]
  rintro l hl ⟨a, ha, hla | ⟨-, names, hr, rfl⟩⟩
  · have hne : b ≠ a := by
      rintro rfl
      exact hnot ha
    exact Set.disjoint_left.1 (h.outputs b hb a (hpart ha) hne) hl hla
  · exact h.apart b hb a (hpart ha) names hr hl

/-- After some items have run the others are as they were, and separate. -/
theorem Separate.after (h : Separate fs all) (hcwd : fs.DirPath fs.cwd) {done : List EncryptionPlan}
    (hdone : done ⊆ all) (hpart : part.Sublist all) (hnot : ∀ plan ∈ part, plan ∉ done)
    (hs : fs.Spares fs' (batchPlaces fs shred done) (batchFiles fs shred done)) :
    Separate fs' part ∧ ∀ plan ∈ part, plan.Kept fs fs' := by
  have hsep := h.sublist hpart
  have hk := hs.keeps
  have hkept (plan : EncryptionPlan) (hmem : plan ∈ part) : plan.Kept fs fs' := by
    obtain ⟨i, hi⟩ := (hsep.placed plan hmem).source
    refine EncryptionPlan.Kept.keep ⟨i, hi, hi, rfl⟩ (.refl fs) hs ?_ ?_
    · exact fun names hr => h.source_place hdone (hpart.subset hmem) (hnot plan hmem) hr hi
    · exact fun j hj => h.source_file hdone (hpart.subset hmem) (hnot plan hmem) hj
  have hplace (plan : EncryptionPlan) (hmem : plan ∈ part) : fs'.outputPlace plan.output ⊆ fs.outputPlace plan.output := by
    obtain ⟨names, hr⟩ := (hsep.placed plan hmem).output
    exact hk.outputPlace hcwd hr
  refine ⟨⟨hsep.once, ?_, ?_, ?_, ?_⟩, hkept⟩
  · intro plan hmem
    obtain ⟨i, -, hi, -⟩ := hkept plan hmem
    obtain ⟨names, hr⟩ := (hsep.placed plan hmem).output
    exact ⟨⟨i, hi⟩, ⟨names, hk.resolve hr⟩, (hsep.placed plan hmem).beside⟩
  · rintro a ha b hb hne ⟨i, ha', hb'⟩
    obtain ⟨j, hj, hj', -⟩ := hkept a ha
    obtain ⟨k, hk', hk'', -⟩ := hkept b hb
    rw [hj'.unique ha'] at hj
    rw [hk''.unique hb'] at hk'
    exact hsep.sources a ha b hb hne ⟨i, hj, hk'⟩
  · intro a ha b hb hne
    exact (hsep.outputs a ha b hb hne).mono (hplace a ha) (hplace b hb)
  · intro a ha b hb names hr hl
    obtain ⟨i, ⟨names₀, hr₀, -⟩, -⟩ := hkept b hb
    rw [hk.resolve hr₀] at hr
    cases hr
    rw [hk.loc] at hl
    exact hsep.apart a ha b hb names hr₀ (hplace a ha hl)

end

/-- From one state on the path leads to one file, with its bytes. -/
def Lasts (w w' : World) (p : Path) : Prop :=
  ∃ names i c, Rests w.fs p names i c ∧ (∀ s ∈ w'.since w, Rests s.after p names i c) ∧ Rests w'.fs p names i c

/-- What some items have committed the others leave alone. -/
theorem Separate.lasts {env : Env} (hq : env.Quiet) {password : Bytes} {force shred : Bool}
    {front back : List EncryptionPlan} {results results' : List (Except IronlockError Path)} {w₁ w₂ w₃ : World}
    (hsep : Separate w₁.fs (front ++ back)) (hcwd : w₁.fs.DirPath w₁.fs.cwd)
    (hfront : encryptPlans env password force shred front w₁ = (.ok results, w₂))
    (hback : encryptPlans env password force shred back w₂ = (.ok results', w₃)) {p : Path}
    (hp : .ok p ∈ results) : Lasts w₂ w₃ p := by
  have honce := List.nodup_append.1 hsep.once
  have hsub : front ⊆ front ++ back := List.subset_append_left front back
  obtain ⟨-, hend, hreported⟩ := (hsep.sublist (List.sublist_append_left front back)).run hq hcwd hfront
  have hk := hend.spares.keeps
  obtain ⟨hsep', hkept⟩ := hsep.after hcwd hsub (List.sublist_append_right front back)
    (fun plan hmem hmem' => honce.2.2 plan hmem' plan hmem rfl) hend.spares
  have hcwd' : w₂.fs.DirPath w₂.fs.cwd := by
    rw [hk.cwd]
    exact hk.dirPath hcwd
  obtain ⟨hall, hend', -⟩ := hsep'.run hq hcwd' hback
  -- the item whose output it is
  obtain ⟨k, hk', hget⟩ := List.mem_iff_getElem.1 hp
  have hk'' : k < front.length := hreported.length_eq ▸ hk'
  have hmem : front[k] ∈ front := List.getElem_mem hk''
  obtain ⟨hpath, i, filename, -, -, l, ⟨d, n, hat, rfl⟩, j, hj, hnew, -⟩ := hreported.get hk'' hk' p hget
  have hplan : front[k] ∈ front ++ back := hsub hmem
  have hnot : front[k] ∉ back := fun hmem' => honce.2.2 _ hmem _ hmem' rfl
  have hback' : back ⊆ front ++ back := List.subset_append_right front back
  have hrests : Rests w₂.fs p (d ++ [n]) j (w₂.fs.content j) := by
    refine ⟨?_, ?_, rfl⟩
    · rw [hpath]
      exact (hat.keep hk).resolve (.inl rfl)
    · rw [Fs.node_concat, hk.entryLoc]
      exact hj
  have hdisjoint : Disjoint (w₁.fs.outputPlace front[k].output) (batchPlaces w₁.fs shred back) :=
    hsep.output_place hback' hplan hnot
  have hplace : w₂.fs.loc (d ++ [n]) ∉ batchPlaces w₂.fs shred back := by
    rw [hk.loc]
    refine fun hmem' => Set.disjoint_left.1 hdisjoint ⟨d, n, hat, rfl⟩ ?_
    obtain ⟨b, hb, hl | ⟨hshred, names, hr, hl⟩⟩ := hmem'
    · obtain ⟨names, hr⟩ := (hsep.placed b (hback' hb)).output
      exact ⟨b, hb, .inl (hk.outputPlace hcwd hr hl)⟩
    · obtain ⟨i, ⟨names₀, hr₀, -⟩, -⟩ := hkept b hb
      rw [hk.resolve hr₀] at hr
      cases hr
      exact ⟨b, hb, .inr ⟨hshred, names, hr₀, hl.trans (hk.loc names)⟩⟩
  have hfile : j ∉ batchFiles w₂.fs shred back := by
    rintro ⟨b, hb, -, hb'⟩
    obtain ⟨i, ⟨names, -, hx⟩, hi', -⟩ := hkept b hb
    rw [hi'.unique hb'] at hx
    exact absurd (Fs.nodeAt_lt hx) (not_lt.2 hnew)
  exact ⟨d ++ [n], j, _, hrests, fun s hs => hrests.keep (hall s hs).spares hplace hfile,
    hrests.keep hend'.spares hplace hfile⟩

/-! ## Reservations -/

/-- The path leads to an entry of a directory that is there, and so it does by its names. -/
def Fs.LeadsByName (fs : Fs) (p : Path) : Prop :=
  ∃ names, fs.resolve false p = .ok names ∧
    fs.resolve false (.absolute (lexicalFrom (fs.start p) p.parts)) = .ok names

/-- What a guard reserves from a state on, whatever is done meanwhile that leaves
directories and links alone. Each output leads by its names when it is reserved. -/
inductive Reserves (env : Env) (s : World × DecryptionBatchGuard) : List Path → World × DecryptionBatchGuard → Prop
  | nil : Reserves env s [] s
  | work {outputs : List Path} {w w' : World} {g : DecryptionBatchGuard} (h : Reserves env s outputs (w, g))
      (hkeeps : w.fs.Keeps w'.fs) : Reserves env s outputs (w', g)
  | refused {outputs : List Path} {t t' : World × DecryptionBatchGuard} {source output : Path} {e : IronlockError}
      (h : Reserves env s outputs t)
      (hreserve : DecryptionBatchGuard.reserve env source output t = (.error e, t')) : Reserves env s outputs t'
  | reserved {outputs : List Path} {t t' : World × DecryptionBatchGuard} {source output : Path}
      (h : Reserves env s outputs t) (hleads : t.1.fs.LeadsByName output)
      (hreserve : DecryptionBatchGuard.reserve env source output t = (.ok (), t')) :
      Reserves env s (output :: outputs) t'

/-- The key of the place that the output leads to is reserved. -/
def Noted (env : Env) (fs : Fs) (g : DecryptionBatchGuard) (output : Path) : Prop :=
  ∃ names, fs.resolve false output = .ok names ∧ keyText env (.absolute names) ∈ g.reservedOutputs

section
variable {env : Env} {fs fs' : Fs} {g g' : DecryptionBatchGuard} {outputs : List Path} {output p q : Path}

theorem Noted.keep (h : Noted env fs g output) (hk : fs.Keeps fs') (hg : g.Grows g') : Noted env fs' g' output := by
  obtain ⟨names, hr, hkey⟩ := h
  exact ⟨names, hk.resolve hr, hg.reserved _ hkey⟩

theorem Noted.otherEntry (h : Noted env fs g p) (h' : Noted env fs g q) (hother : fs.OtherEntry p q)
    (hk : fs.Keeps fs') : fs'.OtherEntry p q := by
  obtain ⟨a, ha, -⟩ := h
  obtain ⟨b, hb, -⟩ := h'
  intro names names' hr hr'
  rw [hk.resolve ha] at hr
  rw [hk.resolve hb] at hr'
  cases hr
  cases hr'
  rw [hk.loc, hk.loc]
  exact hother a b ha hb

/-- By induction on what the guard reserves: a new output has a key of its own, so it
is none of the entries whose keys are reserved. -/
theorem Reserves.apart {s t : World × DecryptionBatchGuard} (hq : env.Quiet) (hh : env.Honest)
    (hrefine : s.1.fs.KeysRefine env) (h : Reserves env s outputs t) :
    t.1.fs.KeysRefine env ∧ (∀ p ∈ outputs, Noted env t.1.fs t.2 p) ∧ outputs.Pairwise t.1.fs.OtherEntry := by
  induction h with
  | nil => exact ⟨hrefine, by simp, .nil⟩
  | work _ hkeeps ih =>
    obtain ⟨hrefine, hnoted, hapart⟩ := ih
    refine ⟨hrefine.keep hkeeps, fun p hp => (hnoted p hp).keep hkeeps (.refl _), ?_⟩
    exact hapart.imp_of_mem fun ha hb hother => (hnoted _ ha).otherEntry (hnoted _ hb) hother hkeeps
  | @refused outputs t t' source output e _ hreserve ih =>
    obtain ⟨w, g⟩ := t
    obtain ⟨hguard, hstill⟩ :=
      (DecryptionBatchGuard.reserve_spec hq hh source output).error ⟨rfl, refl_of Still w⟩ hreserve
    rw [hstill.1, hguard]
    exact ih
  | @reserved outputs t t' source output _ hleads hreserve ih =>
    obtain ⟨w, g⟩ := t
    obtain ⟨hrefine, hnoted, hapart⟩ := ih
    obtain ⟨hstill, key, hreserved, hguard⟩ :=
      (DecryptionBatchGuard.reserve_spec hq hh source output).ok ⟨rfl, refl_of Still w⟩ hreserve
    rw [hstill.1, hguard]
    obtain ⟨names, hr, hlex⟩ := hleads
    obtain ⟨a, ha, hkey⟩ := hreserved.derived
    have hbyName : w.fs.ByName output := by
      intro names' hr'
      rw [hr] at hr'
      cases hr'
      exact hlex
    obtain rfl := hbyName.own hr (fun t => hreserved.links names t hr) ha
    have hgrows : g.Grows { g with reservedOutputs := key :: g.reservedOutputs } :=
      ⟨rfl, fun _ => List.mem_cons_of_mem _⟩
    refine ⟨hrefine, ?_, List.pairwise_cons.2 ⟨?_, hapart⟩⟩
    · intro p hp
      rcases List.mem_cons.1 hp with rfl | hp
      · refine ⟨names, hr, ?_⟩
        rw [← hkey]
        exact List.mem_cons_self
      · exact (hnoted p hp).keep (.refl _) hgrows
    · intro p hp names₀ names' hr₀ hr' hsame
      rw [hr] at hr₀
      cases hr₀
      obtain ⟨names'', hr'', hkey'⟩ := hnoted p hp
      rw [hr'] at hr''
      cases hr''
      have hsame' : keyText env (.absolute names') = key := by
        rw [hkey]
        exact hrefine _ _ hsame.symm
      exact hreserved.fresh (hsame' ▸ hkey')

end

/-! ## Decryption -/

/-- What some calls of a decryption batch have committed the others leave alone. -/
theorem decryptPlans_lasts {env : Env} (hq : env.Quiet) (hh : env.Honest) {inputs : List Path}
    {outputBase : Option Path} {password : Bytes} {force : Bool} {front back : List DecryptionPlan}
    {g g₁ g₂ : DecryptionBatchGuard} {results results' : List (Except IronlockError Path)}
    {w₀ w₁ w₂ w₃ w₄ : World} (hrefine : w₀.fs.KeysRefine env)
    (hplan : planDecryptionInputs env inputs outputBase w₀ = (.ok (front ++ back), w₁))
    (hguard : DecryptionBatchGuard.new env (front ++ back) w₁ = (.ok g, w₂))
    (hfront : decryptPlans env password force front (w₂, g) = (.ok results, (w₃, g₁)))
    (hback : decryptPlans env password force back (w₃, g₁) = (.ok results', (w₄, g₂))) {p : Path}
    (hp : .ok p ∈ results) : Lasts w₃ w₄ p := by
  obtain ⟨hfs₂, K, hsources, hK⟩ := planned_guarded hq hplan hguard
  have hspares₂ : w₀.fs.Spares w₂.fs Kᶜ ∅ := by
    rw [hfs₂]
    exact .refl _ _ _
  obtain ⟨hspares₃, K', hle, hK', hresults⟩ := decryptPlans_spec hq hh hrefine hspares₂
    (fun plan hmem => hsources plan (List.mem_append_left _ hmem)) le_rfl hK hfront
  obtain ⟨hspares₄, -⟩ := decryptPlans_spec hq hh hrefine (hspares₂.trans hspares₃.1)
    (fun plan hmem => hsources plan (List.mem_append_right _ hmem)) hle hK' hback
  obtain ⟨k, hk⟩ := List.mem_iff_getElem?.1 hp
  obtain ⟨plan, names, i, c, j, -, hl, hrests, -, -⟩ := hresults k p hk
  have hl' : w₃.fs.loc names ∉ K'ᶜ := by
    rw [(hspares₂.trans hspares₃.1).keeps.loc]
    exact fun hno => hno hl
  exact ⟨names, i, c, hrests, fun s hs => hrests.keep (hspares₄.since s hs) hl' id, hrests.keep hspares₄.1 hl' id⟩

/-! ## Batches -/

/-- The outputs planned for the inputs are different entries. -/
def PlannedApart (env : Env) (inputs : List Path) (w : World) : Prop :=
  ∀ plans w₁, planEncryptionInputs env inputs w = (.ok plans, w₁) →
    plans.Pairwise fun a b => w.fs.OtherEntry a.output b.output

/-- No item of a planned batch replaces what another has committed, wherever it stops between. -/
def EncryptionLasts (env : Env) (inputs : List Path) (w : World) : Prop :=
  ∀ front back password force shred results results' w₁ w₂ w₃,
    planEncryptionInputs env inputs w = (.ok (front ++ back), w₁) →
    encryptPlans env password force shred front w₁ = (.ok results, w₂) →
    encryptPlans env password force shred back w₂ = (.ok results', w₃) →
    ∀ p, .ok p ∈ results → Lasts w₂ w₃ p

/-- Nor does a decryption. -/
def DecryptionLasts (env : Env) (inputs : List Path) (outputBase : Option Path) (w : World) : Prop :=
  ∀ front back password force g g₁ g₂ results results' w₁ w₂ w₃ w₄,
    planDecryptionInputs env inputs outputBase w = (.ok (front ++ back), w₁) →
    DecryptionBatchGuard.new env (front ++ back) w₁ = (.ok g, w₂) →
    decryptPlans env password force front (w₂, g) = (.ok results, (w₃, g₁)) →
    decryptPlans env password force back (w₃, g₁) = (.ok results', (w₄, g₂)) →
    ∀ p, .ok p ∈ results → Lasts w₃ w₄ p

/-- A name of ASCII letters as a directory looks it up that ignores their case. -/
def Name.folded (n : Name) : Name :=
  if n.bytes.all (· < 0x80) then (Name.ofBytes? (lowercaseAscii n.bytes)).getD n else n

/-- `/A.t` and `/a.m`, where no directory minds case. -/
def foldedAM : World :=
  let fs : Fs := { Fs.blank [] with fold := fun _ n => n.folded, named := by simp [Fs.blank] }
  ⟨((fs.create [] ⟨[65, 46, 116], .refl true⟩).setContent 0 [1] |>.create [] ⟨[97, 46, 109], .refl true⟩).setContent 1 [2],
    0, 0, []⟩

theorem lowercaseAscii_idem (b : Bytes) : lowercaseAscii (lowercaseAscii b) = lowercaseAscii b := by
  rw [lowercaseAscii, lowercaseAscii, List.map_map]
  refine List.map_congr_left fun c _ => ?_
  simp only [Function.comp_apply]
  grind

theorem lowercaseAscii_ascii {b : Bytes} (h : ∀ c ∈ b, c < 0x80) : ∀ c ∈ lowercaseAscii b, c < 0x80 := by
  intro c hc
  obtain ⟨d, hd, rfl⟩ := List.mem_map.1 hc
  have hlow := h d hd
  grind

theorem lowercaseAscii_intercalate (parts : List Bytes) :
    lowercaseAscii (List.intercalate [slash] parts) = List.intercalate [slash] (parts.map lowercaseAscii) := by
  induction parts with
  | nil => rfl
  | cons x parts ih =>
    cases parts with
    | nil => simp [lowercaseAscii]
    | cons y parts =>
      have hcons (x y : Bytes) (l : List Bytes) : List.intercalate [slash] (x :: y :: l) =
          x ++ slash :: List.intercalate [slash] (y :: l) := by
        simp [List.intercalate]
      have happend (a b : Bytes) : lowercaseAscii (a ++ slash :: b) =
          lowercaseAscii a ++ slash :: lowercaseAscii b := List.map_append
      rw [hcons, happend, ih]
      simp only [List.map_cons, hcons]

theorem lowercaseAscii_folded (n : Name) :
    lowercaseAscii (Utf8.lossy n.folded.bytes) = lowercaseAscii (Utf8.lossy n.bytes) := by
  unfold Name.folded Name.ofBytes?
  split
  · rename_i hascii
    have hclear : ∀ c ∈ n.bytes, c < 0x80 := by simpa using hascii
    split
    · rw [Option.getD_some, Utf8.lossy_of_valid (Utf8.valid_ascii (lowercaseAscii_ascii hclear)),
        Utf8.lossy_of_valid (Utf8.valid_ascii hclear), lowercaseAscii_idem]
    · rfl
  · rfl

/-- There names of one entry have one key, if keys are in lower case. -/
theorem foldedAM_keysRefine : foldedAM.fs.KeysRefine macos := by
  have hloc (names : List Name) : foldedAM.fs.loc names = names.map Name.folded := by
    induction names using List.reverseRecOn with
    | nil => rfl
    | append_singleton names n ih =>
      rw [Fs.loc_concat, ih, List.map_append]
      rfl
  have hkey (names : List Name) : keyText macos (.absolute names) = slash :: List.intercalate [slash]
      ((names.map Name.folded).map fun n => lowercaseAscii (Utf8.lossy n.bytes)) := by
    have hfolded : ((names.map Name.folded).map fun n => lowercaseAscii (Utf8.lossy n.bytes)) =
        (names.map fun n => Utf8.lossy n.bytes).map lowercaseAscii := by
      simp only [List.map_map, Function.comp_def, lowercaseAscii_folded]
    rw [hfolded, ← lowercaseAscii_intercalate, keyText, if_neg (by decide), lossy_render]
    rfl
  intro a b hab
  rw [hloc, hloc] at hab
  rw [hkey, hkey, hab]

/-- Their encryption, where keys keep case. -/
def encryptUpper : EncryptionPlan :=
  ⟨.absolute [⟨[65, 46, 116], .refl true⟩], .absolute [⟨[65, 46, 105, 108], .refl true⟩]⟩

def encryptLower : EncryptionPlan :=
  ⟨.absolute [⟨[97, 46, 109], .refl true⟩], .absolute [⟨[97, 46, 105, 108], .refl true⟩]⟩

/-- Their encryption, where keys do not. -/
def suffixedUpper : EncryptionPlan := ⟨encryptUpper.source, .absolute [⟨[65, 45, 48, 48, 48, 48, 48, 48, 48, 48, 48, 48,
  48, 48, 48, 48, 48, 48, 46, 105, 108], .refl true⟩]⟩

def suffixedLower : EncryptionPlan := ⟨encryptLower.source, .absolute [⟨[97, 45, 48, 48, 48, 48, 48, 48, 48, 48, 48, 48,
  48, 48, 48, 48, 48, 49, 46, 105, 108], .refl true⟩]⟩

/-- Where keys are in lower case both outputs get names of their own. -/
theorem foldedAM_keeps_both : ∃ w₁ w₂ w₃,
    planEncryptionInputs macos [encryptUpper.source, encryptLower.source] foldedAM =
      (.ok ([suffixedUpper] ++ [suffixedLower]), w₁) ∧
    encryptPlans macos [112, 119] true true [suffixedUpper] w₁ = (.ok [.ok suffixedUpper.output], w₂) ∧
    encryptPlans macos [112, 119] true true [suffixedLower] w₂ = (.ok [.ok suffixedLower.output], w₃) := by
  have hcollect : collectInputs macos [encryptUpper.source, encryptLower.source] false foldedAM =
      (.ok [encryptUpper.source, encryptLower.source], _) :=
    collectInputs_ordered (Eff.run_eq_ok (by decide +kernel)) (by decide +kernel)
  rw [planEncryptionInputs, Eff.bind_ok hcollect]
  exact ⟨_, _, _, Eff.run_eq_ok (by decide +kernel), Eff.run_eq_ok (by decide +kernel),
    Eff.run_eq_ok (by decide +kernel)⟩

/-- A guard that knows both by their keys in lower case. -/
def guardFolded : DecryptionBatchGuard := ⟨[[47, 97, 46, 116], [47, 97, 46, 109]], [.file 0, .file 1], []⟩

/-- It reserves `/A` and `/b`, and refuses `/a` between. -/
theorem foldedAM_reserves : ∃ t, Reserves macos (foldedAM, guardFolded)
    [.absolute [nameB], .absolute [⟨[65], .refl true⟩]] t := by
  let s : World × DecryptionBatchGuard := (foldedAM, guardFolded)
  let s₁ := (DecryptionBatchGuard.reserve macos encryptUpper.source (.absolute [⟨[65], .refl true⟩]) s).2
  let s₂ := (DecryptionBatchGuard.reserve macos encryptLower.source (.absolute [nameA]) s₁).2
  have hupper : (DecryptionBatchGuard.reserve macos encryptUpper.source (.absolute [⟨[65], .refl true⟩]) s).1.toOption =
      some () := by decide +kernel
  have hlower : (DecryptionBatchGuard.reserve macos encryptLower.source (.absolute [nameA]) s₁).1 =
      .error (.outputCollision [.text "multiple encrypted inputs contain the output filename '",
        .path (.absolute [nameA]), .text "'"]) := by decide +kernel
  have hother : (DecryptionBatchGuard.reserve macos encryptLower.source (.absolute [nameB]) s₂).1.toOption = some () := by
    decide +kernel
  have hplaces : s.1.fs.resolve false (.absolute [⟨[65], .refl true⟩]) = .ok [⟨[65], rfl⟩] ∧
      s₂.1.fs.resolve false (.absolute [nameB]) = .ok [nameB] := by decide +kernel
  have hleads {fs : Fs} {n : Name} (h : fs.resolve false (.absolute [n]) = .ok [n]) : fs.LeadsByName (.absolute [n]) :=
    ⟨[n], h, h⟩
  have hfirst : Reserves macos s [.absolute [⟨[65], .refl true⟩]] s₁ :=
    .reserved .nil (hleads hplaces.1) (Eff.run_eq_ok hupper)
  have hrefusal {m : GuardM Unit} {t : World × DecryptionBatchGuard} {e : IronlockError} (h : (m t).1 = .error e) :
      m t = (.error e, (m t).2) := Prod.ext h rfl
  have hrefused : Reserves macos s [.absolute [⟨[65], .refl true⟩]] s₂ := .refused hfirst (hrefusal hlower)
  exact ⟨_, .reserved hrefused (hleads hplaces.2) (Eff.run_eq_ok hother)⟩

/-- Where keys keep case they share one entry: how the batch runs, and what it leaves. -/
theorem foldedAM_keeps_one :
    let il : Path := encryptUpper.output
    ∃ w₁ w₂ w₃, planEncryptionInputs (Env.calm .checksummed) [encryptUpper.source, encryptLower.source] foldedAM =
        (.ok ([encryptUpper] ++ [encryptLower]), w₁) ∧
      encryptPlans (Env.calm .checksummed) [112, 119] true true [encryptUpper] w₁ = (.ok [.ok il], w₂) ∧
      encryptPlans (Env.calm .checksummed) [112, 119] true true [encryptLower] w₂ =
        (.ok [.ok encryptLower.output], w₃) ∧
      ∃ names, w₂.fs.resolve false il = .ok names ∧ w₂.fs.node names = some (.file 2) ∧
        w₃.fs.node names = some (.file 3) ∧ w₃.fs.entries.entries.map Sigma.fst = [w₃.fs.loc names] := by
  intro il
  have hcollect : collectInputs (Env.calm .checksummed) [encryptUpper.source, encryptLower.source] false foldedAM =
      (.ok [encryptUpper.source, encryptLower.source], _) :=
    collectInputs_ordered (Eff.run_eq_ok (by decide +kernel)) (by decide +kernel)
  rw [planEncryptionInputs, Eff.bind_ok hcollect]
  exact ⟨_, _, _, Eff.run_eq_ok (by decide +kernel), Eff.run_eq_ok (by decide +kernel), Eff.run_eq_ok (by decide +kernel),
    [⟨[65, 46, 105, 108], rfl⟩], by decide +kernel, by decide +kernel, by decide +kernel, by decide +kernel⟩

end Ironlock
