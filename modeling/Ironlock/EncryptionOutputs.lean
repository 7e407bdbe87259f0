import Ironlock.EncryptionBatch

/-! The places of planned outputs: no two outputs share one, and none of them is
a source's. -/

namespace Ironlock
open ByteOrder (Bytes)
open Effect
open Fs (Identity Metadata SysCall)

/-! ## Keys and places -/

namespace Fs

/-- The key of a path, if it has one. -/
def HasKey (env : Env) (fs : Fs) (p : Path) (key : Bytes) : Prop :=
  ∃ q, fs.keyPath p = .ok q ∧ key = keyText env q

/-- The key of the path is that of the place it leads to. A `..` after a symbolic
link can make them differ, since keys take it by the names alone. -/
def Keyed (fs : Fs) (p : Path) : Prop :=
  ∀ names, fs.resolve false p = .ok names → fs.keyPath p = .ok (.absolute names)

section
variable {env : Env} {fs : Fs} {p q : Path} {d names : List Name} {m n : Name} {key key' : Bytes} {i : Nat}

theorem HasKey.unique (h : fs.HasKey env p key) (h' : fs.HasKey env p key') : key = key' := by
  obtain ⟨q, hq, rfl⟩ := h
  obtain ⟨q', hq', rfl⟩ := h'
  rw [hq] at hq'
  cases hq'
  rfl

/-- A path that has a key has no NUL in its last name. -/
theorem keyPath_push_nul {a : Path} (h : fs.keyPath (q.push (.name n)) = .ok a) :
    n.bytes.contains 0 = false := by
  obtain ⟨b, hb, hlex⟩ := absolute_lexical fs (Path.push_ne_empty q (.name n))
  rw [Path.push_parts, lexicalFrom_append] at hlex
  rw [keyPath, hb] at h
  simp only [hlex] at h
  have hnul := closest_nul (d := lexicalFrom (fs.start (q.push (.name n))) q.parts) h
  rw [absolute_concat, Path.hasNul, Path.push_parts, List.any_append, Bool.or_eq_false_iff] at hnul
  simpa using hnul.2

/-- Paths whose keys differ are at different places, where names of one entry have one key. -/
theorem outputPlace_disjoint (hrefine : fs.KeysRefine env) (hp : fs.HasKey env p key) (hq : fs.HasKey env q key')
    (hne : key ≠ key') : Disjoint (fs.outputPlace p) (fs.outputPlace q) := by
  rw [Set.disjoint_left]
  rintro _ ⟨d, n, hat, rfl⟩ ⟨d', n', hat', heq⟩
  obtain ⟨a, ha, rfl⟩ := hp
  obtain ⟨b, hb, rfl⟩ := hq
  exact hne ((hat.byName ha).refines (hat'.byName hb) hrefine (hat.resolve (.inl rfl)) (hat'.resolve (.inl rfl))
    heq ha hb)

/-- A file is at the place of no path with another key. -/
theorem Keyed.not_outputPlace (hk : fs.Keyed p) (hrefine : fs.KeysRefine env) (hfile : fs.IsFile p i)
    (hr : fs.resolve false p = .ok names) (hp : fs.HasKey env p key) (hq : fs.HasKey env q key')
    (hne : key ≠ key') : fs.loc names ∉ fs.outputPlace q := by
  rintro ⟨d, n, hat, heq⟩
  obtain ⟨names, hr', hx⟩ := hfile
  rw [hr] at hr'
  cases hr'
  obtain ⟨a, ha, rfl⟩ := hp
  obtain ⟨b, hb, rfl⟩ := hq
  rw [hk _ hr] at ha
  cases ha
  have hlink : ∀ t, fs.node (d ++ [n]) ≠ some (.symlink t) := by
    intro t ht
    rw [Fs.node_concat, ← heq, ← Fs.node, hx] at ht
    cases ht
  rw [(hat.byName hb).own (hat.resolve (.inl rfl)) hlink hb] at hne
  exact hne (hrefine _ _ heq)

theorem exists_names {parts : List Part} (h : .up ∉ parts) : ∃ ns : List Name, parts = ns.map .name := by
  induction parts with
  | nil => exact ⟨[], rfl⟩
  | cons part parts ih =>
    obtain ⟨ns, rfl⟩ := ih fun hmem => h (List.mem_cons_of_mem _ hmem)
    cases part with
    | up => exact absurd List.mem_cons_self h
    | name n => exact ⟨n :: ns, rfl⟩

/-- Without `..` a path leads by its names alone. -/
theorem byName_of_names (hcwd : fs.DirPath fs.cwd) (hnul : (Path.absolute fs.cwd).hasNul = false)
    (hdirOnly : p.dirOnly = false) (hup : .up ∉ p.parts) : fs.ByName p := by
  intro found hr
  obtain ⟨hnulp, -, hwalk⟩ := resolve_eq_ok hr
  obtain ⟨ns, hns⟩ := exists_names hup
  have hstart := fs.start_dirPath hcwd p
  -- the walk goes on from where the path starts
  have hhops : (Path.absolute (fs.start p ++ ns)).hops = ((fs.start p).map Part.name).map some ++ p.hops := by
    simp [Path.hops, Path.absolute, hdirOnly, hns]
  have hnulStart : (Path.absolute (fs.start p)).hasNul = false := by
    unfold Fs.start
    split
    · rfl
    · exact hnul
  have hnul' : (Path.absolute (fs.start p ++ ns)).hasNul = false := by
    simp only [Path.hasNul, Path.absolute, List.map_append, List.any_append, Bool.or_eq_false_iff] at hnulStart ⊢
    rw [← hns]
    exact ⟨hnulStart, hnulp⟩
  have hwalk' : fs.walk false maxLinks (Path.absolute (fs.start p ++ ns)).hops [] = .ok found := by
    rw [hhops, walk_plain (plainFrom_names.2 hstart), lexicalFrom_names, List.nil_append, hwalk]
  rw [hns, lexicalFrom_names]
  simp only [Fs.resolve, hnul', absolute_ne_empty, if_false, Bool.false_eq_true]
  rw [show fs.start (Path.absolute (fs.start p ++ ns)) = [] from rfl, hwalk']

/-- The key of a file is that of its place, whatever links lead there. -/
theorem ByName.keyed (h : fs.ByName p) (hfile : fs.IsFile p i) : fs.Keyed p := by
  intro found hr
  obtain ⟨found', hr', hx⟩ := hfile
  rw [hr] at hr'
  cases hr'
  have hlink : ∀ t, fs.node found ≠ some (.symlink t) := by
    intro t ht
    rw [hx] at ht
    cases ht
  have hresolve := resolve_follow hlink (h found hr)
  rw [keyPath_lexical (resolve_eq_ok hr).2.1]
  generalize lexicalFrom (fs.start p) p.parts = ns at hresolve
  have hcanon : (fs.canonicalize (.absolute ns)).1 = .ok (.absolute found) := by
    simp only [canonicalize, look, hresolve, hx]
  rcases ns.eq_nil_or_concat with rfl | ⟨front, n, rfl⟩
  · change (fs.canonicalize .root).1 = _ at hcanon
    rw [canonicalize_root] at hcanon
    exact hcanon
  · rw [List.concat_eq_append] at hcanon ⊢
    rw [List.reverse_append, List.reverse_singleton, List.singleton_append, closest, List.reverse_cons,
      List.reverse_reverse, hcanon]
    rfl

/-- Without `..` that is so of every file. -/
theorem IsFile.keyed (hcwd : fs.DirPath fs.cwd) (hnul : (Path.absolute fs.cwd).hasNul = false)
    (h : fs.IsFile p i) (hup : .up ∉ p.parts) : fs.Keyed p := by
  obtain ⟨parts, n, hp⟩ := h.last hcwd
  refine (byName_of_names hcwd hnul ?_ hup).keyed h
  rw [hp]

/-- A name beside a file leads into the file's directory. -/
theorem IsFile.resolve_beside (hcwd : fs.DirPath fs.cwd) (h : fs.IsFile p i)
    (hn : n.bytes.contains 0 = false) : ∃ names, fs.resolve false (p.parentOrEmpty.push (.name n)) = .ok names := by
  obtain ⟨parts, m, hp⟩ := h.last hcwd
  obtain ⟨names, hr, -⟩ := h
  rw [hp] at hr
  obtain ⟨-, d, -, -, hbeside⟩ := resolve_push (q := ⟨p.anchor, parts, false⟩) hr
  have hparent : p.parentOrEmpty = ⟨p.anchor, parts, false⟩ := by
    conv_lhs => rw [hp]
    exact congrArg (·.getD .empty) (Path.push_parent ⟨p.anchor, parts, false⟩ (.name m))
  rw [hparent]
  exact ⟨_, (hbeside n hn).resolve (.inl rfl)⟩

end

end Fs

/-! ## What is planned -/

section
variable {env : Env} {w w' : World} {p q : Path} {key : Bytes} {taken : List Bytes}

theorem normalizedPathKey_hasKey (hq : env.Quiet) (hh : env.Honest)
    (h : normalizedPathKey env p w = (.ok key, w')) : w.fs.HasKey env p key ∧ w'.fs = w.fs :=
  ⟨normalizedPathKey_eq_ok hq hh h, (((normalizedPathKey_looks _).still hq).run h).1⟩

theorem pathKeys_looks (ps : List Path) : Looks env (pathKeys env ps) := by
  induction ps with
  | nil => exact .pure _
  | cons p ps ih => exact .bind (normalizedPathKey_looks _) fun _ => .bind ih fun _ => .pure _

theorem uniqueEncryptedPath_looks (p : Path) (taken : List Bytes) :
    Looks env (uniqueEncryptedPath env p taken) := by
  unfold uniqueEncryptedPath
  split
  · exact .fail _
  · generalize 128 = tries
    induction tries with
    | zero => exact .fail _
    | succ tries ih =>
      exact .bind (Looks.draw _) fun _ => .bind (normalizedPathKey_looks _) fun _ => .ite ih <|
        .bind (exists_looks _) fun _ => .ite ih (.pure _)

theorem planOutput_looks (defaultKeys taken : List Bytes) (p q : Path) :
    Looks env (planOutput env defaultKeys taken p q) := by
  refine .bind (collides_looks _ _ _ _) fun b => ?_
  cases b with
  | true =>
    exact .bind (uniqueEncryptedPath_looks _ _) fun _ => .bind (normalizedPathKey_looks _) fun _ =>
      .ite (.fail _) (.pure _)
  | false =>
    exact .bind (.pure _) fun _ => .bind (normalizedPathKey_looks _) fun _ => .ite (.fail _) (.pure _)

theorem planOutputs_looks (defaultKeys taken : List Bytes) (pairs : List (Path × Path)) :
    Looks env (planOutputs env defaultKeys pairs taken) := by
  induction pairs generalizing taken with
  | nil => exact .pure _
  | cons pair pairs ih => exact .bind (planOutput_looks _ _ _ _) fun _ => .bind (ih _) fun _ => .pure _

/-- Planning changes nothing. -/
theorem planEncryptionInputs_looks (inputs : List Path) : Looks env (planEncryptionInputs env inputs) :=
  .bind (collectInputs_looks _ _) fun _ => .bind (registerSources_looks _ _ _) fun _ =>
    .bind (.ofExcept _) fun _ => .bind (pathKeys_looks _) fun _ => planOutputs_looks _ _ _

/-- Registered sources have keys among those returned, and no two are one file. -/
theorem registerSources_apart (hq : env.Quiet) (hh : env.Honest) {sources : List Path}
    (hfiles : ∀ s ∈ sources, ∃ i, w.fs.IsFile s i) {keys keys' : List Bytes} {handles handles' : List Identity}
    (h : registerSources env sources keys handles w = (.ok (keys', handles'), w')) :
    (∀ key ∈ keys, key ∈ keys') ∧ (∀ s ∈ sources, ∃ key ∈ keys', w.fs.HasKey env s key) ∧
      (∀ s ∈ sources, ∀ i, w.fs.IsFile s i → .file i ∉ handles) ∧
      sources.Pairwise fun s t => ¬w.fs.Aliased s t := by
  induction sources generalizing keys handles w with
  | nil =>
    cases h
    exact ⟨fun _ => id, by simp, by simp, .nil⟩
  | cons s sources ih =>
    obtain ⟨key, w₁, hkey, h⟩ := Eff.bind_eq_ok.1 h
    obtain ⟨hkey, hfs₁⟩ := normalizedPathKey_hasKey hq hh hkey
    obtain ⟨handle, w₂, hhandle, h⟩ := Eff.bind_eq_ok.1 h
    have hfs₂ : w₂.fs = w.fs := (((handleFromPath_looks _).still hq).run hhandle).1.trans hfs₁
    obtain ⟨i, hi⟩ := hfiles s List.mem_cons_self
    obtain rfl := handleFromPath_isFile hq hhandle (hfs₁ ▸ hi)
    split at h
    · cases h
    rename_i hnew
    rw [not_or] at hnew
    obtain ⟨hkept, hkeys, hfree, hpair⟩ := ih (fun t ht => hfs₂ ▸ hfiles t (List.mem_cons_of_mem _ ht)) h
    rw [hfs₂] at hkeys hfree hpair
    refine ⟨fun k hk => hkept k (List.mem_cons_of_mem _ hk), ?_, ?_, List.pairwise_cons.2 ⟨?_, hpair⟩⟩
    · intro t ht
      rcases List.mem_cons.1 ht with rfl | ht
      · exact ⟨key, hkept key List.mem_cons_self, hkey⟩
      · exact hkeys t ht
    · intro t ht j hj
      rcases List.mem_cons.1 ht with rfl | ht
      · rw [hj.unique hi]
        exact hnew.2
      · exact fun hmem => hfree t ht j hj (List.mem_cons_of_mem _ hmem)
    · rintro t ht ⟨j, hsj, htj⟩
      rw [hsj.unique hi] at htj
      exact hfree t ht i htj List.mem_cons_self

/-- An output found for a source has a key that is free, and is its default or a
name beside it. -/
theorem planOutput_hasKey (hq : env.Quiet) (hh : env.Honest) {defaultKeys : List Bytes} {output : Path}
    (h : planOutput env defaultKeys taken p q w = (.ok (output, key), w')) :
    w'.fs = w.fs ∧ w.fs.HasKey env output key ∧ key ∉ taken ∧
      (output = q ∨ ∃ n, output = p.parentOrEmpty.push (.name n)) := by
  obtain ⟨b, w₁, hcollides, h⟩ := Eff.bind_eq_ok.1 h
  have hfs₁ : w₁.fs = w.fs := (((collides_looks _ _ _ _).still hq).run hcollides).1
  -- the output's key, once it is known
  have hlast {found : Path} {w₂ : World} (hfs₂ : w₂.fs = w₁.fs)
      (hname : found = q ∨ ∃ n, found = p.parentOrEmpty.push (.name n))
      (h : (do
        let outputKey ← normalizedPathKey env found
        if outputKey ∈ taken then
          Eff.fail (.outputCollision [.text "multiple inputs map to '", .path found, .text "'"])
        else return (found, outputKey) : FsM (Path × Bytes)) w₂ = (.ok (output, key), w')) :
      w'.fs = w.fs ∧ w.fs.HasKey env output key ∧ key ∉ taken ∧
        (output = q ∨ ∃ n, output = p.parentOrEmpty.push (.name n)) := by
    obtain ⟨outputKey, w₃, hkey, h⟩ := Eff.bind_eq_ok.1 h
    obtain ⟨hhas, hfs₃⟩ := normalizedPathKey_hasKey hq hh hkey
    rw [hfs₂, hfs₁] at hhas
    split at h <;> cases h
    exact ⟨hfs₃.trans (hfs₂.trans hfs₁), hhas, ‹_›, hname⟩
  cases b with
  | true =>
    rw [if_pos rfl] at h
    obtain ⟨found, w₂, hfound, h⟩ := Eff.bind_eq_ok.1 h
    exact hlast (uniqueEncryptedPath_free hq hfound).1 (.inr (uniqueEncryptedPath_eq_ok hfound)) h
  | false =>
    rw [if_neg (by simp)] at h
    obtain ⟨found, w₂, hfound, h⟩ := Eff.bind_eq_ok.1 h
    cases hfound
    exact hlast rfl (.inl rfl) h

/-- An output that is planned: a name beside its source whose key is free. -/
structure EncryptionPlan.Fresh (env : Env) (fs : Fs) (taken : List Bytes) (plan : EncryptionPlan) : Prop where
  beside : ∃ n, plan.output = plan.source.parentOrEmpty.push (.name n)
  key : ∃ key, fs.HasKey env plan.output key ∧ key ∉ taken

/-- The outputs planned for the sources that are left, each with a key of its own. -/
theorem planOutputs_fresh (hq : env.Quiet) (hh : env.Honest) {defaultKeys : List Bytes}
    {pairs : List (Path × Path)} {plans : List EncryptionPlan}
    (hdefaults : ∀ pair ∈ pairs, ∃ n, pair.2 = pair.1.parentOrEmpty.push (.name n))
    (h : planOutputs env defaultKeys pairs taken w = (.ok plans, w')) :
    plans.map (·.source) = pairs.map Prod.fst ∧ (∀ plan ∈ plans, plan.Fresh env w.fs taken) ∧
      plans.Pairwise fun a b => ∀ key key', w.fs.HasKey env a.output key → w.fs.HasKey env b.output key' →
        key ≠ key' := by
  induction pairs generalizing taken w plans with
  | nil =>
    cases h
    exact ⟨rfl, by simp, .nil⟩
  | cons pair pairs ih =>
    obtain ⟨⟨output, key⟩, w₁, houtput, h⟩ := Eff.bind_eq_ok.1 h
    obtain ⟨hfs₁, hkey, hfree, hname⟩ := planOutput_hasKey hq hh houtput
    obtain ⟨more, w₂, hmore, h⟩ := Eff.bind_eq_ok.1 h
    cases h
    obtain ⟨horder, hfresh, hpair⟩ := ih (fun pair' hmem => hdefaults pair' (List.mem_cons_of_mem _ hmem)) hmore
    rw [hfs₁] at hfresh hpair
    refine ⟨by rw [List.map_cons, horder, List.map_cons], ?_, List.pairwise_cons.2 ⟨?_, hpair⟩⟩
    · intro plan hplan
      rcases List.mem_cons.1 hplan with rfl | hplan
      · refine ⟨?_, key, hkey, hfree⟩
        rcases hname with rfl | hname
        · exact hdefaults pair List.mem_cons_self
        · exact hname
      · obtain ⟨hbeside, key', hkey', hfree'⟩ := hfresh plan hplan
        exact ⟨hbeside, key', hkey', fun hmem => hfree' (List.mem_cons_of_mem _ hmem)⟩
    · intro plan hplan k k' hk hk' heq
      obtain ⟨-, key', hkey', hfree'⟩ := hfresh plan hplan
      rw [hkey.unique (heq ▸ hk), hkey'.unique hk'] at *
      exact hfree' List.mem_cons_self

end

theorem defaultEncryptedPaths_beside {sources defaults : List Path}
    (h : defaultEncryptedPaths sources = .ok defaults) :
    (sources.zip defaults).map Prod.fst = sources ∧
      ∀ pair ∈ sources.zip defaults, ∃ n, pair.2 = pair.1.parentOrEmpty.push (.name n) := by
  induction sources generalizing defaults with
  | nil => simp
  | cons s sources ih =>
    unfold defaultEncryptedPaths at h
    rcases hs : defaultEncryptedPath s with e | output <;> rw [hs] at h
    · cases h
    rcases hrest : defaultEncryptedPaths sources with e | outputs <;> rw [hrest] at h
    · cases h
    cases h
    obtain ⟨horder, hbeside⟩ := ih hrest
    refine ⟨by rw [List.zip_cons_cons, List.map_cons, horder], fun pair hpair => ?_⟩
    rcases List.mem_cons.1 hpair with rfl | hpair
    · obtain ⟨-, n, -, -, hname⟩ := defaultEncryptedPath_eq_ok hs
      exact ⟨n, hname⟩
    · exact hbeside pair hpair

/-! ## The batch -/

section
variable {env : Env} {inputs : List Path} {plans : List EncryptionPlan} {w w' : World}

/-- What is planned: regular files, no two of them one, and outputs whose keys are no
source's and no other output's. -/
theorem planEncryptionInputs_fresh (hq : env.Quiet) (hh : env.Honest)
    (h : planEncryptionInputs env inputs w = (.ok plans, w')) :
    ∃ keys, (∀ plan ∈ plans, (∃ i, w.fs.IsFile plan.source i) ∧ (∃ key ∈ keys, w.fs.HasKey env plan.source key) ∧
        plan.Fresh env w.fs keys) ∧
      (plans.Pairwise fun a b => ¬w.fs.Aliased a.source b.source) ∧
      plans.Pairwise fun a b => ∀ key key', w.fs.HasKey env a.output key → w.fs.HasKey env b.output key' →
        key ≠ key' := by
  obtain ⟨sources, w₁, hcollect, h⟩ := Eff.bind_eq_ok.1 h
  have hfs₁ : w₁.fs = w.fs := (((collectInputs_looks _ _).still hq).run hcollect).1
  have hfiles : ∀ s ∈ sources, ∃ i, w.fs.IsFile s i := by
    obtain ⟨files, w₂, hfrom, hsort⟩ := Eff.bind_eq_ok.1 hcollect
    cases hsort
    intro s hs
    exact collectInputsFrom_eq_ok hq (by simp) hfrom s (List.mem_mergeSort.1 hs)
  obtain ⟨⟨keys, handles⟩, w₂, hregister, h⟩ := Eff.bind_eq_ok.1 h
  have hfs₂ : w₂.fs = w.fs := (((registerSources_looks _ _ _).still hq).run hregister).1.trans hfs₁
  obtain ⟨-, hkeys, -, halias⟩ := registerSources_apart hq hh (by rwa [hfs₁]) hregister
  rw [hfs₁] at hkeys halias
  obtain ⟨defaults, w₃, hdefaults, h⟩ := Eff.bind_eq_ok.1 h
  rw [Eff.ofExcept_apply, Prod.mk.injEq] at hdefaults
  obtain ⟨hdefaults, rfl⟩ := hdefaults
  obtain ⟨horder, hbeside⟩ := defaultEncryptedPaths_beside hdefaults
  obtain ⟨defaultKeys, w₄, hdefaultKeys, h⟩ := Eff.bind_eq_ok.1 h
  have hfs₄ : w₄.fs = w.fs := (((pathKeys_looks _).still hq).run hdefaultKeys).1.trans hfs₂
  obtain ⟨hsources, hfresh, hdiffer⟩ := planOutputs_fresh hq hh hbeside h
  rw [hfs₄] at hfresh hdiffer
  rw [horder] at hsources
  have hmem (plan : EncryptionPlan) (hplan : plan ∈ plans) : plan.source ∈ sources :=
    hsources ▸ List.mem_map_of_mem hplan
  rw [← hsources, List.pairwise_map] at halias
  exact ⟨keys, fun plan hplan => ⟨hfiles _ (hmem plan hplan), hkeys _ (hmem plan hplan), hfresh plan hplan⟩, halias,
    hdiffer⟩

/-- The items of a planned batch touch nothing of each other's. -/
theorem planEncryptionInputs_separate (hq : env.Quiet) (hh : env.Honest) (hrefine : w.fs.KeysRefine env)
    (hcwd : w.fs.DirPath w.fs.cwd) (h : planEncryptionInputs env inputs w = (.ok plans, w'))
    (hkeyed : ∀ plan ∈ plans, w.fs.Keyed plan.source) : Separate w.fs plans := by
  obtain ⟨keys, hplans, halias, hdiffer⟩ := planEncryptionInputs_fresh hq hh h
  have hsymm : Std.Symm fun a b : EncryptionPlan => ¬w.fs.Aliased a.source b.source := by
    refine ⟨fun a b hab => ?_⟩
    rintro ⟨i, hb, ha⟩
    exact hab ⟨i, ha, hb⟩
  have hsymm' : Std.Symm fun a b : EncryptionPlan => ∀ key key', w.fs.HasKey env a.output key →
      w.fs.HasKey env b.output key' → key ≠ key' :=
    ⟨fun a b hab key key' hb ha heq => hab key' key ha hb heq.symm⟩
  constructor
  · refine halias.imp_of_mem fun {a b} ha _ hab heq => hab ?_
    obtain ⟨⟨i, hi⟩, -⟩ := hplans a ha
    exact ⟨i, hi, heq ▸ hi⟩
  · intro plan hplan
    obtain ⟨⟨i, hi⟩, -, ⟨n, hname⟩, key, ⟨q, hq', -⟩, -⟩ := hplans plan hplan
    refine ⟨⟨i, hi⟩, ?_, n, ?_⟩
    · rw [hname] at hq' ⊢
      exact hi.resolve_beside hcwd (Fs.keyPath_push_nul hq')
    · rw [hname, Path.push_parentOrHere]
      unfold Path.parentOrEmpty Path.parent
      split
      · split <;> rfl
      · rfl
  · exact fun a ha b hb => halias.forall ha hb
  · intro a ha b hb hne
    obtain ⟨-, -, -, key, hkey, -⟩ := hplans a ha
    obtain ⟨-, -, -, key', hkey', -⟩ := hplans b hb
    exact Fs.outputPlace_disjoint hrefine hkey hkey' (hdiffer.forall ha hb hne key key' hkey hkey')
  · intro a ha b hb names hr
    obtain ⟨-, -, -, key, hkey, hfree⟩ := hplans a ha
    obtain ⟨⟨i, hi⟩, ⟨key', htaken, hkey'⟩, -⟩ := hplans b hb
    refine (hkeyed b hb).not_outputPlace hrefine hi hr hkey' hkey ?_
    rintro rfl
    exact hfree htaken

end

/-- What a batch starts with: all of its items are as they were. -/
theorem Separate.underway {fs : Fs} {plans : List EncryptionPlan} (h : Separate fs plans) (C : Crates)
    (password : Bytes) (shred : Bool) : Underway C password shred fs plans [] plans fs := by
  have hkept (plan : EncryptionPlan) (hmem : plan ∈ plans) : plan.Kept fs fs := by
    obtain ⟨i, hi⟩ := (h.placed plan hmem).source
    exact ⟨i, hi, hi, rfl⟩
  exact ⟨⟨.refl _ _ _, fun plan hmem => .inl (hkept plan hmem)⟩, by simp, hkept⟩

/-- What a batch starts with once it has been planned: all of its items are as they were. -/
theorem planEncryptionInputs_underway {env : Env} (hq : env.Quiet) (hh : env.Honest) {inputs : List Path}
    {plans : List EncryptionPlan} {w₀ w₁ : World} (C : Crates) (password : Bytes) (shred : Bool)
    (hrefine : w₀.fs.KeysRefine env) (hcwd : w₀.fs.DirPath w₀.fs.cwd)
    (hplan : planEncryptionInputs env inputs w₀ = (.ok plans, w₁))
    (hkeyed : ∀ plan ∈ plans, w₀.fs.Keyed plan.source) :
    Separate w₀.fs plans ∧ Underway C password shred w₀.fs plans [] plans w₁.fs := by
  have hfs₁ : w₁.fs = w₀.fs := (((planEncryptionInputs_looks _).still hq).run hplan).1
  have hsep := planEncryptionInputs_separate hq hh hrefine hcwd hplan hkeyed
  rw [hfs₁]
  exact ⟨hsep, hsep.underway C password shred⟩

/-- A batch of separate items loses nothing, whatever fails. -/
theorem Separate.run {env : Env} (hq : env.Quiet) {password : Bytes} {force shred : Bool} {plans : List EncryptionPlan}
    {results : List (Except IronlockError Path)} {w w' : World} (hsep : Separate w.fs plans)
    (hcwd : w.fs.DirPath w.fs.cwd) (hrun : encryptPlans env password force shred plans w = (.ok results, w')) :
    (∀ s ∈ w'.since w, Surviving env.crates password shred w.fs plans s.after) ∧
      Surviving env.crates password shred w.fs plans w'.fs ∧
      List.Forall₂ (EncryptionPlan.Reported env.crates password w.fs w'.fs) plans results := by
  obtain ⟨steps, hsteps, hall, hend, hreported⟩ := (encryptPlans_survives hq hcwd hsep (by simp)
    (fun _ => id) hsep.once).ok ⟨by simp, hsep.underway env.crates password shred⟩ hrun
  refine ⟨?_, hend.toSurviving, hreported⟩
  rw [World.since_eq hsteps]
  exact hall

/-- `/a`, a file of three bytes. -/
def textA : World := ⟨((Fs.blank []).create [] ⟨[97], .refl true⟩).setContent 0 [1, 2, 3], 0, 0, []⟩

/-- Its encryption. -/
def encryptA : EncryptionPlan := ⟨.absolute [⟨[97], .refl true⟩], .absolute [⟨[97, 46, 105, 108], .refl true⟩]⟩

/-- `/a`, and `/b` of two bytes. -/
def textsAB : World := ⟨(textA.fs.create [] ⟨[98], .refl true⟩).setContent 1 [4, 5], 0, 0, []⟩

def encryptB : EncryptionPlan := ⟨.absolute [⟨[98], .refl true⟩], .absolute [⟨[98, 46, 105, 108], .refl true⟩]⟩

/-- What is planned for them, and how its encryption ends. -/
theorem textsAB_runs : ∃ w₁, planEncryptionInputs (Env.calm .checksummed) [encryptA.source, encryptB.source] textsAB =
      (.ok [encryptA, encryptB], w₁) ∧
    ∀ force, ∃ w₂, encryptPlans (Env.calm .checksummed) [112, 119] force true [encryptA, encryptB] w₁ =
      (.ok [.ok encryptA.output, .ok encryptB.output], w₂) ∧
      w₂.fs.node [⟨[97], rfl⟩] = none ∧ w₂.fs.node [⟨[98], rfl⟩] = none := by
  have hcollect : collectInputs (Env.calm .checksummed) [encryptA.source, encryptB.source] false textsAB =
      (.ok [encryptA.source, encryptB.source], _) :=
    collectInputs_ordered (Eff.run_eq_ok (by decide +kernel)) (by decide +kernel)
  rw [planEncryptionInputs, Eff.bind_ok hcollect]
  refine ⟨_, Eff.run_eq_ok (by decide +kernel), fun force => ⟨_, Eff.run_eq_ok ?_, ?_⟩⟩
  · cases force <;> decide +kernel
  · cases force <;> decide +kernel

theorem textsAB_keyed : ∀ plan ∈ [encryptA, encryptB], textsAB.fs.Keyed plan.source := by
  have hcwd : textsAB.fs.DirPath textsAB.fs.cwd := Fs.dirPath_nil _
  rw [List.forall_mem_cons, List.forall_mem_singleton]
  exact ⟨Fs.IsFile.keyed (i := 0) hcwd rfl ⟨[⟨[97], rfl⟩], by decide +kernel⟩ (by decide),
    Fs.IsFile.keyed (i := 1) hcwd rfl ⟨[⟨[98], rfl⟩], by decide +kernel⟩ (by decide)⟩

end Ironlock
