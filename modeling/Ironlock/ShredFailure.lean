import Ironlock.SecureFs.Planning
import Ironlock.SecureFs.ShredFacts
import Ironlock.DecryptionBatch

/-! A shredding that fails leaves its source in place, unless what failed came
after the removal. -/

namespace Ironlock
open ByteOrder (Bytes)
open Effect
open Fs (Identity Metadata SysCall)

namespace Shred

/-- The calls of `restore`: looking for the source and moving it back. -/
def Restoring (p : Path) : Call → Prop
  | .metadata q => q = p
  | .rename src dst => dst = p ∧ src ≠ p
  | _ => False

/-- No call of the restoration was made to fail. -/
def Clean (p : Path) (steps : List Step) : Prop :=
  ∀ s ∈ steps, Restoring p s.call → s.fault = none

/-- A call failed, because it was made to or because it opened the empty path,
when nothing named the file any more. -/
def Late (i : Nat) (steps : List Step) : Prop :=
  ∃ s ∈ steps, (s.fault ≠ none ∨ s.call = .openRead .empty) ∧
    ∀ l, s.before.nodeAt l ≠ some (.file i)

/-- At most one call fails, a write among them. -/
def Sole (env : Env) (steps : List Step) : Prop :=
  steps.countP (fun s => s.fault.isSome) ≤ 1 ∧ (env.Accepting ∨ ∀ s ∈ steps, s.fault = none)

/-- Nothing has been overwritten. -/
def Unwritten (steps : List Step) : Prop := ∀ s ∈ steps, ∀ file, s.call ≠ .write file

/-- A call was made to fail before anything was overwritten. -/
def FailsEarly (steps : List Step) : Prop :=
  ∃ front s back, steps = front ++ s :: back ∧ s.fault ≠ none ∧ Unwritten front

/-- A call failed after something had been overwritten. -/
def FailsLater (env : Env) (steps : List Step) : Prop :=
  ¬env.Accepting ∨ ∃ front s back, steps = front ++ s :: back ∧ s.fault ≠ none ∧ ¬Unwritten front

/-- What shredding is to leave: the source as it was but for its bytes, and
with its bytes too when the failure came early, or no source. -/
def Kept (p : Path) (i : Nat) (steps : List Step) (before after : Fs) :
    Except IronlockError Unit → Prop
  | .error _ => after.IsFile p i ∧ after.nodeAt = before.nodeAt ∧
    (after.content i).length = (before.content i).length ∧
    (FailsEarly steps → after.content i = before.content i)
  | .ok () => ∃ names, before.resolve false p = .ok names ∧ after.resolve false p = .ok names ∧
    after.nodeAt = Function.update before.nodeAt (before.loc names) none

section
variable {i : Nat} {env : Env} {steps : List Step} {s : Step}

theorem late_concat : Late i (steps ++ [s]) ↔ Late i steps ∨
    (s.fault ≠ none ∨ s.call = .openRead .empty) ∧ ∀ l, s.before.nodeAt l ≠ some (.file i) := by
  simp [Late, or_and_right, exists_or]

theorem not_late_concat {l : Loc} (h : ¬Late i steps) (hl : s.before.nodeAt l = some (.file i)) :
    ¬Late i (steps ++ [s]) := by
  rw [late_concat]
  rintro (hl' | ⟨-, hno⟩)
  · exact h hl'
  · exact hno l hl

theorem clean_concat {p : Path} :
    Clean p (steps ++ [s]) ↔ Clean p steps ∧ (Restoring p s.call → s.fault = none) := by
  simp [Clean, or_imp, forall_and]

theorem unwritten_concat :
    Unwritten (steps ++ [s]) ↔ Unwritten steps ∧ ∀ file, s.call ≠ .write file := by
  simp [Unwritten, or_imp, forall_and]

theorem FailsLater.concat (h : FailsLater env steps) : FailsLater env (steps ++ [s]) := by
  rcases h with h | ⟨front, t, back, rfl, ht, hfront⟩
  · exact .inl h
  · exact .inr ⟨front, t, back ++ [s], by simp, ht, hfront⟩

/-- A failing call comes before everything that was overwritten, or after some of it. -/
theorem fails_concat (hfault : s.fault ≠ none) (hcall : ∀ file, s.call ≠ .write file) :
    Unwritten (steps ++ [s]) ∨ FailsLater env (steps ++ [s]) := by
  by_cases h : Unwritten steps
  · exact .inl (unwritten_concat.2 ⟨h, hcall⟩)
  · exact .inr (.inr ⟨steps, s, [], rfl, hfault, h⟩)

theorem looks_ne_write {call : Call} (h : call.looks = true) (file : Identity) :
    call ≠ .write file := by
  rintro rfl
  cases h

/-- When only one call fails, it does not both come before what was overwritten
and after it. -/
theorem Sole.unwritten (h : Sole env steps) (hearly : FailsEarly steps)
    (hfails : Unwritten steps ∨ FailsLater env steps) : Unwritten steps := by
  obtain ⟨front, s, back, rfl, hs, hfront⟩ := hearly
  rcases hfails with hfails | hrefuse | ⟨front', s', back', heq, hs', hwritten⟩
  · exact hfails
  · rcases h.2 with haccept | hnone
    · exact absurd haccept hrefuse
    · exact absurd (hnone s (by simp)) hs
  · have hsome : s.fault.isSome = true := Option.isSome_iff_ne_none.2 hs
    have hsome' : s'.fault.isSome = true := Option.isSome_iff_ne_none.2 hs'
    have hcount := h.1
    rcases List.append_eq_append_iff.1 heq with ⟨mid, rfl, hmid⟩ | ⟨mid, rfl, hmid⟩
    · rcases mid with _ | ⟨t, mid⟩
      · rw [List.append_nil] at hwritten
        exact absurd hfront hwritten
      · cases hmid
        simp [List.countP_append, hsome, hsome'] at hcount
        omega
    · rcases mid with _ | ⟨t, mid⟩
      · rw [List.append_nil] at hfront
        exact absurd hfront hwritten
      · cases hmid
        simp [List.countP_append, hsome, hsome'] at hcount
        omega

end

/-! ## Stages -/

/-- The source is at one place, with the length it had. -/
structure Scrubbed (base : Fs) (i : Nat) (f : Loc → Option Node) (fs : Fs) : Prop where
  keeps : base.Keeps fs
  nodeAt : fs.nodeAt = f
  length : (fs.content i).length = (base.content i).length

/-- The places while the source is in quarantine. -/
def quarantined (base : Fs) (quarantine source : Loc) (i : Nat) : Loc → Option Node :=
  Function.update (Function.update base.nodeAt quarantine (some (.file i))) source none

/-- The places once it has been removed. -/
def removed (base : Fs) (source : Loc) : Loc → Option Node :=
  Function.update base.nodeAt source none

/-- Nothing has failed late, and what has not been overwritten is as it was. -/
def Stage (base : Fs) (i : Nat) (f : Loc → Option Node) : Assertion := fun steps fs =>
  ¬Late i steps ∧ (Unwritten steps → fs.content i = base.content i) ∧ Scrubbed base i f fs

/-- So it is, and a call has failed before anything was overwritten or after. -/
def Failed (env : Env) (base : Fs) (i : Nat) (f : Loc → Option Node) : Assertion := fun steps fs =>
  Stage base i f steps fs ∧ (Unwritten steps ∨ FailsLater env steps)

/-- A call has failed late, and the source has been removed. -/
def TooLate (base : Fs) (i : Nat) (source : Loc) : Assertion := fun steps fs =>
  Late i steps ∧ Scrubbed base i (removed base source) fs

section
variable {env : Env} {base fs : Fs} {i : Nat} {f : Loc → Option Node} {l : Loc} {steps : List Step}
  {s : Step} {d : List Name} {n m : Name}

theorem Scrubbed.entryLoc (h : Scrubbed base i f fs) (d : List Name) (n : Name) :
    fs.entryLoc d n = base.entryLoc d n := h.keeps.loc _

theorem Scrubbed.move (h : Scrubbed base i f fs) (hsrc : f (base.entryLoc d n) = some (.file i))
    (hdst : f (base.entryLoc d m) = none) :
    Scrubbed base i (Function.update (Function.update f (base.entryLoc d m) (some (.file i)))
      (base.entryLoc d n) none) (fs.move (fs.entryLoc d n) (fs.loc d) m) where
  keeps := h.keeps.trans <| Fs.move_keeps (Fs.entryLoc_ne_nil _ _ _)
    (by rw [h.nodeAt, h.entryLoc]; exact hsrc)
    (by rw [h.nodeAt, ← Fs.entryLoc_eq, h.entryLoc]; exact hdst)
  nodeAt := by
    rw [Fs.move_nodeAt (Fs.entryLoc_ne_nil _ _ _) (by rw [h.nodeAt, h.entryLoc]; exact hsrc),
      ← Fs.entryLoc_eq, h.entryLoc, h.entryLoc, h.nodeAt]
  length := by rw [Fs.move_content]; exact h.length

theorem Scrubbed.erase (h : Scrubbed base i f fs) (hf : f (base.entryLoc d n) = some (.file i)) :
    Scrubbed base i (Function.update f (base.entryLoc d n) none) (fs.erase (fs.entryLoc d n)) where
  keeps := h.keeps.trans <| Fs.erase_keeps (Fs.entryLoc_ne_nil _ _ _)
    (by rw [h.nodeAt, h.entryLoc]; exact hf)
  nodeAt := by rw [Fs.erase_nodeAt (Fs.entryLoc_ne_nil _ _ _), h.nodeAt, h.entryLoc]
  length := h.length

theorem Stage.concat (h : Stage base i f steps fs) (hl : f l = some (.file i))
    (hbefore : s.before = fs) : Stage base i f (steps ++ [s]) fs := by
  obtain ⟨hlate, hcontent, hfs⟩ := h
  refine ⟨not_late_concat (l := l) hlate ?_, fun hw => hcontent (unwritten_concat.1 hw).1, hfs⟩
  rw [hbefore, hfs.nodeAt, hl]

theorem Failed.concat (h : Failed env base i f steps fs) (hl : f l = some (.file i))
    (hbefore : s.before = fs) (hcall : ∀ file, s.call ≠ .write file) :
    Failed env base i f (steps ++ [s]) fs :=
  ⟨h.1.concat hl hbefore,
    h.2.imp (fun hw => unwritten_concat.2 ⟨hw, hcall⟩) FailsLater.concat⟩

theorem Stage.fault (h : Stage base i f steps fs) (hl : f l = some (.file i)) (hbefore : s.before = fs)
    (hcall : ∀ file, s.call ≠ .write file) (hfault : s.fault ≠ none) :
    Failed env base i f (steps ++ [s]) fs :=
  ⟨h.concat hl hbefore, fails_concat hfault hcall⟩

variable {α : Type} {call : Call} {op : SysCall α} {R : α → Prop}

/-- A look that succeeds unless it is made to fail. -/
theorem stage_try {Χ : IronlockError → Assertion} (hq : env.Quiet) (hl : f l = some (.file i))
    (hcall : call.looks = true)
    (hop : ∀ fs, Scrubbed base i f fs → ∃ a, op fs = (.ok a, fs) ∧ R a) :
    Runs (Stage base i f) (Sys.try_ env call op)
      (fun r => match r with
        | .ok a => fun steps fs => R a ∧ Stage base i f steps fs
        | .error _ => Failed env base i f) Χ := by
  refine .try_ hq.stable ?_ ?_
  · intro steps fs e h _
    exact h.fault hl rfl (looks_ne_write hcall) nofun
  · intro steps fs h
    obtain ⟨a, ha, hR⟩ := hop fs h.2.2
    rw [ha]
    exact ⟨hR, h.concat hl rfl⟩

theorem stage_run (hq : env.Quiet) (hl : f l = some (.file i)) (hcall : call.looks = true)
    (hop : ∀ fs, Scrubbed base i f fs → ∃ a, op fs = (.ok a, fs) ∧ R a) :
    Runs (Stage base i f) (Sys.run env call op) (fun a steps fs => R a ∧ Stage base i f steps fs)
      fun _ => Failed env base i f := by
  refine .bind (stage_try hq hl hcall hop) fun r => ?_
  cases r with
  | ok a => exact .pure fun _ _ => id
  | error e => exact .fail fun _ _ => id

/-- A call that changes nothing and gives nothing back. -/
theorem stage_idle {m : FsM Unit} (hq : env.Quiet) (hl : f l = some (.file i))
    (hm : m = Sys.run env call Sys.idle) (hcall : call.looks = true) :
    Runs (Stage base i f) m (fun _ => Stage base i f) fun _ => Failed env base i f := by
  rw [hm]
  exact (stage_run (R := fun _ => True) hq hl hcall fun fs _ => ⟨(), rfl, trivial⟩).post
    (fun _ _ _ h => h.2) fun _ _ _ => id

theorem stage_handle (hq : env.Quiet) (hl : f l = some (.file i)) :
    Runs (Stage base i f) (Sys.handleFromFile env (.file i))
      (fun handle steps fs => handle = .file i ∧ Stage base i f steps fs)
      fun _ => Failed env base i f :=
  .bind (stage_run (R := fun _ => True) hq hl rfl fun _ _ => ⟨_, rfl, trivial⟩) fun _ =>
    .pure fun _ _ h => ⟨rfl, h.2⟩

theorem stage_path {p : Path} (hq : env.Quiet) (hl : f l = some (.file i))
    (hp : ∀ fs, Scrubbed base i f fs → fs.openRead p = (.ok (.file i), fs)) :
    Runs (Stage base i f) (Sys.handleFromPath env p)
      (fun handle steps fs => handle = .file i ∧ Stage base i f steps fs)
      fun _ => Failed env base i f :=
  .bind (stage_run (R := fun file => file = .file i) hq hl rfl fun fs hs => ⟨_, hp fs hs, rfl⟩)
    fun file => .assuming fun hfile => by subst hfile; exact stage_handle hq hl

/-- Nothing has been overwritten yet. -/
def Fresh (base : Fs) (i : Nat) (f : Loc → Option Node) : Assertion := fun steps fs =>
  Unwritten steps ∧ Stage base i f steps fs

theorem Fresh.failed (h : Fresh base i f steps fs) : Failed env base i f steps fs := ⟨h.2, .inl h.1⟩

/-- A look before anything has been overwritten. -/
theorem fresh_runs {m : FsM α} (hq : env.Quiet) (hm : Looks env m)
    (h : Runs (Stage base i f) m (fun a steps fs => R a ∧ Stage base i f steps fs)
      fun _ => Failed env base i f) :
    Runs (Fresh base i f) m (fun a steps fs => R a ∧ Fresh base i f steps fs)
      fun _ => Failed env base i f := by
  have hunwritten : Runs (fun steps _ => Unwritten steps) m (fun _ steps _ => Unwritten steps)
      fun _ steps _ => Unwritten steps :=
    hm.runs hq.stable fun _ _ _ _ hcall h => unwritten_concat.2 ⟨h, looks_ne_write hcall⟩
  exact (hunwritten.and h).post (fun _ _ _ h => ⟨h.2.1, h.1, h.2.2⟩) fun _ _ _ h => h.2

theorem fresh_idle {m : FsM Unit} (hq : env.Quiet) (hl : f l = some (.file i))
    (hm : m = Sys.run env call Sys.idle) (hcall : call.looks = true) :
    Runs (Fresh base i f) m (fun _ => Fresh base i f) fun _ => Failed env base i f :=
  (fresh_runs (R := fun _ => True) hq (hm ▸ Looks.run hcall fun _ => rfl)
    ((stage_idle hq hl hm hcall).post (fun _ _ _ h => ⟨trivial, h⟩) fun _ _ _ => id)).post
    (fun _ _ _ h => h.2) fun _ _ _ => id

end

/-! ## Programs -/

section
variable {env : Env} {base fs : Fs} {p : Path} {i : Nat} {d : List Name} {n : Name} {a b : UInt64}

/-- The source and the free name it is moved to. -/
structure Hidden (base : Fs) (p : Path) (i : Nat) (d : List Name) (n : Name) (a b : UInt64) : Prop where
  placed : base.Placed p d n
  source : base.nodeAt (base.entryLoc d n) = some (.file i)
  free : base.nodeAt (base.entryLoc d (tempName a b)) = none

/-- The places while it is there. -/
def hidden (base : Fs) (i : Nat) (d : List Name) (n : Name) (a b : UInt64) : Loc → Option Node :=
  quarantined base (base.entryLoc d (tempName a b)) (base.entryLoc d n) i

/-- Where it is. -/
def hideout (p : Path) (a b : UInt64) : Path := p.parentOrHere.push (.name (tempName a b))

/-- The source is back unless the restoration was made to fail. -/
def Restored (env : Env) (base : Fs) (p : Path) (i : Nat) : Assertion := fun steps fs =>
  ¬Late i steps ∧ (Clean p steps → Failed env base i base.nodeAt steps fs)

/-- The source has been removed, and nothing has failed since. -/
def Gone (base : Fs) (i : Nat) (source : Loc) : Assertion := fun steps fs =>
  ¬Late i steps ∧ Scrubbed base i (removed base source) fs

namespace Hidden

theorem ne (h : Hidden base p i d n a b) :
    base.entryLoc d (tempName a b) ≠ base.entryLoc d n := by
  intro heq
  have := h.free
  rw [heq, h.source] at this
  cases this

theorem there (h : Hidden base p i d n a b) :
    hidden base i d n a b (base.entryLoc d (tempName a b)) = some (.file i) := by
  rw [hidden, quarantined, Function.update_of_ne h.ne, Function.update_self]

theorem gone (_ : Hidden base p i d n a b) : hidden base i d n a b (base.entryLoc d n) = none :=
  Function.update_self ..

theorem reaches (h : Hidden base p i d n a b) (hk : base.Keeps fs) :
    fs.Reaches (hideout p a b) d (tempName a b) :=
  (h.placed.beside _ (tempName_nul a b)).keep hk

theorem at_hideout (h : Hidden base p i d n a b) (hs : Scrubbed base i (hidden base i d n a b) fs) :
    fs.nodeAt (fs.entryLoc d (tempName a b)) = some (.file i) := by
  rw [hs.nodeAt, hs.entryLoc, h.there]

/-- It has no other name. -/
def Alone (_ : Hidden base p i d n a b) : Prop :=
  ∀ l, hidden base i d n a b l = some (.file i) → l = base.entryLoc d (tempName a b)

theorem alone (h : Hidden base p i d n a b) (hs : Scrubbed base i (hidden base i d n a b) fs)
    (hlinks : fs.links i = 1) : h.Alone := by
  intro l hl
  rw [← hs.nodeAt] at hl
  rw [← hs.entryLoc]
  exact Fs.links_one hlinks hl (h.at_hideout hs)

/-- The passes change nothing but bytes of the source, of which there are as
many as before. -/
theorem passes_runs (h : Hidden base p i d n a b) (hq : env.Quiet) (passes : Nat) :
    Runs (Stage base i (hidden base i d n a b))
      (overwritePasses env i (base.content i).length passes)
      (fun _ => Stage base i (hidden base i d n a b))
      fun _ => Failed env base i (hidden base i d n a b) := by
  have hwrite (offset : Nat) (steps : List Step) (fs : Fs) (bytes : Bytes)
      (hle : offset + bytes.length ≤ (base.content i).length)
      (hfs : Stage base i (hidden base i d n a b) steps fs) :
      Stage base i (hidden base i d n a b)
        (steps ++ [⟨.write (.file i), none, fs, fs.overwrite i offset bytes⟩])
        (fs.overwrite i offset bytes) := by
    obtain ⟨hlate, -, hs⟩ := hfs
    refine ⟨not_late_concat hlate (h.at_hideout hs), fun hw => ?_, ?_, hs.nodeAt, ?_⟩
    · exact absurd rfl ((unwritten_concat.1 hw).2 (.file i))
    · exact hs.keeps.trans (Fs.setContent_keeps _ _)
    · rw [Fs.overwrite_length (by rw [hs.length]; exact hle), hs.length]
  refine overwritePasses_runs (Ψ := fun _ => Stage base i (hidden base i d n a b))
    (Λ := fun _ _ => Stage base i (hidden base i d n a b)) ?_ ?_ ?_ ?_ passes
  · exact fun _ => stage_idle hq h.there rfl rfl
  · intro _
    refine (overwriteRemaining_runs (Φ := fun _ => Stage base i (hidden base i d n a b))
      (fun _ => hq.stable) hwrite 0 _ (Nat.zero_add _)).post (fun _ _ _ => id) ?_
    rintro e steps fs ⟨hrefuse, -, hfs⟩
    exact ⟨hfs, .inr (.inl hrefuse)⟩
  · exact fun _ => stage_idle hq h.there rfl rfl
  · exact fun _ => stage_idle hq h.there rfl rfl

/-- Overwriting fails for a call that is made to fail, or before it begins. -/
theorem overwrite_runs (h : Hidden base p i d n a b) (hq : env.Quiet) :
    Runs (Fresh base i (hidden base i d n a b))
      (overwriteQuarantined env (hideout p a b) (.file i))
      (fun _ steps fs => h.Alone ∧ Stage base i (hidden base i d n a b) steps fs)
      fun _ => Failed env base i (hidden base i d n a b) := by
  have hl := h.there
  have hopen (fs : Fs) (hs : Scrubbed base i (hidden base i d n a b) fs) :
      fs.openRead (hideout p a b) = (.ok (.file i), fs) :=
    (h.reaches hs.keeps).openRead (h.at_hideout hs)
  refine .bind (.mapError (fresh_runs (R := fun file => file = .file i) hq
    (Looks.run rfl look_snd) (stage_run hq hl rfl fun fs hs =>
      ⟨_, (h.reaches hs.keeps).openWriteNofollow (h.at_hideout hs), rfl⟩)))
    fun file => .assuming fun hfile => ?_
  subst hfile
  refine .bind (.mapError (fresh_runs (R := fun m => m.len = (base.content i).length) hq
    (stat_looks _) (stage_run hq hl rfl fun fs hs => ⟨_, rfl, hs.length⟩)))
    fun m => .assuming fun hlen => ?_
  refine .bind (.mapError (fresh_idle hq hl rfl rfl)) fun _ => ?_
  refine .bind (.mapError (fresh_runs hq (handleFromFile_looks _) (stage_handle hq hl)))
    fun handle => .assuming fun hhandle => ?_
  subst hhandle
  rw [if_neg (by simp)]
  refine .bind (.mapError (fresh_runs
    (R := fun links => links = 1 → h.Alone) hq (linkCount_looks _)
    (stage_run hq hl rfl fun fs hs => ⟨_, rfl, h.alone hs⟩))) fun links => .assuming fun halone => ?_
  refine .ite (fun _ => .fail fun _ _ hfs => hfs.failed) fun hlinks => ?_
  have halone := halone (not_not.1 hlinks)
  rw [hlen]
  refine .bind ((h.passes_runs hq 3).pre fun _ _ hfs => hfs.2) fun _ => ?_
  refine .bind (stage_try (R := fun m => m.isSymlink = false) hq hl rfl fun fs hs => ?_) fun r => ?_
  · refine ⟨⟨.file i, fs.size (.file i)⟩, ?_, rfl⟩
    rw [(h.reaches hs.keeps).symlinkMetadata, h.at_hideout hs]
  cases r with
  | error e => exact .fail fun _ _ => id
  | ok m =>
    refine .assuming fun hsymlink => ?_
    have hreject : rejectLinkOrReparse (hideout p a b) m = pure () := by
      rw [rejectLinkOrReparse, hsymlink]; rfl
    refine .bind (Ψ := fun _ => Stage base i (hidden base i d n a b)) (.mapError ?_) fun _ => ?_
    · rw [hreject]
      exact .pure fun _ _ => id
    refine .bind (Ψ := fun same steps fs => same = true ∧
        Stage base i (hidden base i d n a b) steps fs)
      (.mapError (.bind (stage_path hq hl hopen) fun handle => .assuming fun hhandle => ?_))
      fun same => .assuming fun hsame => ?_
    · subst hhandle
      refine .bind (stage_idle hq hl rfl rfl) fun _ => .bind (stage_handle hq hl) fun handle =>
        .assuming fun hhandle => ?_
      exact .pure fun _ _ hfs => ⟨by simp [hhandle], hfs⟩
    · rw [hsame]
      exact .pure fun _ _ hfs => ⟨halone, hfs⟩

/-! ## Restoring and removing -/

theorem hideout_ne (h : Hidden base p i d n a b) : hideout p a b ≠ p := by
  intro heq
  have hr : base.resolve false (hideout p a b) = .ok (d ++ [tempName a b]) :=
    (h.reaches (.refl base)).resolve (.inl rfl)
  rw [heq, h.placed.reaches.resolve (.inl rfl)] at hr
  exact h.ne (congrArg base.loc (Except.ok.inj hr)).symm

theorem back (h : Hidden base p i d n a b) :
    Function.update (Function.update (hidden base i d n a b) (base.entryLoc d n)
      (some (.file i))) (base.entryLoc d (tempName a b)) none = base.nodeAt := by
  funext l
  have := h.ne
  have := h.free
  have := h.source
  simp only [hidden, quarantined, Function.update_apply]
  split_ifs <;> simp_all

theorem erased (h : Hidden base p i d n a b) :
    Function.update (hidden base i d n a b) (base.entryLoc d (tempName a b)) none =
      removed base (base.entryLoc d n) := by
  funext l
  have := h.free
  simp only [hidden, quarantined, removed, Function.update_apply]
  split_ifs <;> simp_all

/-- Without its only name the source has none. -/
theorem Alone.removed (h : Hidden base p i d n a b) (halone : h.Alone) (l : Loc) :
    removed base (base.entryLoc d n) l ≠ some (.file i) := by
  rw [Shred.removed]
  by_cases hl : l = base.entryLoc d n
  · rw [hl, Function.update_self]
    nofun
  rw [Function.update_of_ne hl]
  intro hi
  have hne : l ≠ base.entryLoc d (tempName a b) := by
    rintro rfl
    rw [h.free] at hi
    cases hi
  have hhidden : hidden base i d n a b l = some (.file i) := by
    rw [hidden, quarantined, Function.update_of_ne hl, Function.update_of_ne hne, hi]
  exact hne (halone l hhidden)

/-- After a failure the source goes back to its place. -/
theorem restore_runs (h : Hidden base p i d n a b) (hq : env.Quiet) :
    Runs (Failed env base i (hidden base i d n a b))
      (QuarantinedFile.restore env ⟨p, hideout p a b⟩)
      (fun _ => Restored env base p i) fun _ => Restored env base p i := by
  have hl := h.there
  have hgone (fs : Fs) (hs : Scrubbed base i (hidden base i d n a b) fs) :
      fs.nodeAt (fs.entryLoc d n) = none := by rw [hs.nodeAt, hs.entryLoc, h.gone]
  refine .bind (Ψ := fun there steps fs => there = false ∧
    Failed env base i (hidden base i d n a b) steps fs)
    (.bind (Ψ := fun r steps fs => r.isOk = false ∧
      Failed env base i (hidden base i d n a b) steps fs) (.try_ hq.stable ?_ ?_)
      fun r => .pure fun _ _ => id) fun there => .assuming fun hthere => ?_
  · intro steps fs e hfs _
    exact ⟨rfl, hfs.concat hl rfl nofun⟩
  · intro steps fs hfs
    rw [(h.placed.reaches.keep hfs.1.2.2.keeps).metadata_none (hgone fs hfs.1.2.2)]
    exact ⟨rfl, hfs.concat hl rfl nofun⟩
  subst hthere
  refine .bind (Ψ := fun _ => Restored env base p i) (.attempt ?_) fun _ => .pure fun _ _ => id
  refine installTemp_runs (d := d) (n := tempName a b) (i := i) hq.stable
    (fun _ fs hfs => h.reaches hfs.1.2.2.keeps) (fun _ fs hfs => .inr (h.at_hideout hfs.1.2.2))
    (fun _ fs hfs => h.placed.reaches.keep hfs.1.2.2.keeps) ?_ ?_ ?_
  · intro steps fs e hfs _
    refine ⟨(hfs.concat hl rfl fun _ => by simp).1.1, fun hclean => ?_⟩
    cases (clean_concat.1 hclean).2 ⟨rfl, h.hideout_ne⟩
  · rintro steps fs hfs (hnone | ⟨x, hx⟩)
    · rw [h.at_hideout hfs.1.2.2] at hnone
      cases hnone
    · rw [hgone fs hfs.1.2.2] at hx
      cases hx
  · intro steps fs hfs _ _
    obtain ⟨⟨hlate, hcontent, hs⟩, hfails⟩ := hfs.concat hl rfl (s := ⟨.rename (hideout p a b) p, none,
      fs, fs.move (fs.entryLoc d (tempName a b)) (fs.loc d) n⟩) fun _ => by simp
    refine ⟨hlate, fun _ => ⟨⟨hlate, ?_, ?_⟩, hfails⟩⟩
    · rw [Fs.move_content]
      exact hcontent
    · rw [← h.back]
      exact hs.move hl h.gone

/-- A restoration after the removal finds nothing to restore. -/
theorem restore_late (h : Hidden base p i d n a b) (hq : env.Quiet) :
    Runs (TooLate base i (base.entryLoc d n)) (QuarantinedFile.restore env ⟨p, hideout p a b⟩)
      (fun _ => TooLate base i (base.entryLoc d n)) fun _ => TooLate base i (base.entryLoc d n) := by
  have hstays (steps : List Step) (fs : Fs) (s : Step) (hfs : TooLate base i (base.entryLoc d n) steps fs) :
      TooLate base i (base.entryLoc d n) (steps ++ [s]) fs := ⟨late_concat.2 (.inl hfs.1), hfs.2⟩
  refine .bind ((exists_looks p).runs hq.stable fun steps fs _ _ _ => hstays steps fs _) fun there =>
    .ite (fun _ => .pure fun _ _ => id) fun _ => .bind (.attempt ?_) fun _ => .pure fun _ _ => id
  have hnone (fs : Fs) (hs : Scrubbed base i (removed base (base.entryLoc d n)) fs) :
      fs.nodeAt (fs.entryLoc d (tempName a b)) = none := by
    rw [hs.nodeAt, hs.entryLoc, removed, Function.update_of_ne h.ne, h.free]
  refine installTemp_runs (d := d) (n := tempName a b) (i := i) hq.stable
    (fun _ fs hfs => h.reaches hfs.2.keeps) (fun _ fs hfs => .inl (hnone fs hfs.2))
    (fun _ fs hfs => h.placed.reaches.keep hfs.2.keeps) (fun _ _ _ hfs _ => hstays _ _ _ hfs)
    (fun _ _ hfs _ => hstays _ _ _ hfs) fun steps fs hfs hf _ => ?_
  rw [hnone fs hfs.2] at hf
  cases hf

/-- The sync of the directory after the removal. -/
theorem syncParent_runs (h : Hidden base p i d n a b) (hq : env.Quiet) (halone : h.Alone) :
    Runs (Gone base i (base.entryLoc d n)) (syncParent env p.parentOrHere)
      (fun _ => Gone base i (base.entryLoc d n)) fun _ => TooLate base i (base.entryLoc d n) := by
  have hfault (steps : List Step) (fs : Fs) (s : Step) (hfs : Gone base i (base.entryLoc d n) steps fs)
      (hbefore : s.before = fs) (hs : s.fault ≠ none ∨ s.call = .openRead .empty) :
      TooLate base i (base.entryLoc d n) (steps ++ [s]) fs := by
    refine ⟨late_concat.2 (.inr ⟨hs, fun l => ?_⟩), hfs.2⟩
    rw [hbefore, hfs.2.nodeAt]
    exact halone.removed h l
  have hstays (steps : List Step) (fs : Fs) (s : Step) (hfs : Gone base i (base.entryLoc d n) steps fs)
      (hnone : s.fault = none) (hcall : s.call ≠ .openRead .empty) :
      Gone base i (base.entryLoc d n) (steps ++ [s]) fs := by
    refine ⟨fun hlate => ?_, hfs.2⟩
    rcases late_concat.1 hlate with hlate | ⟨hs | hs, -⟩
    · exact hfs.1 hlate
    · exact hs hnone
    · exact hcall hs
  refine .bind (.run hq.stable (fun steps fs e hfs _ => hfault _ _ _ hfs rfl (.inl nofun)) ?_)
    fun file => .run hq.stable (fun steps fs e hfs _ => hfault _ _ _ hfs rfl (.inl nofun))
      fun steps fs hfs => hstays _ _ _ hfs rfl nofun
  intro steps fs hfs
  by_cases hempty : p.parentOrHere = .empty
  · rw [hempty]
    exact hfault _ _ _ hfs rfl (.inr rfl)
  · have hd := h.placed.keep hfs.2.keeps
    have hopen : fs.openRead p.parentOrHere = (.ok (.dir (fs.loc d)), fs) := by
      simp only [Fs.openRead, Fs.look, hd.parent hempty, hd.dir.node, Fs.identity]
    rw [hopen]
    exact hstays _ _ _ hfs rfl fun hcall => hempty (Call.openRead.inj hcall)

theorem remove_runs (h : Hidden base p i d n a b) (hq : env.Quiet) (halone : h.Alone) :
    Runs (Stage base i (hidden base i d n a b)) (QuarantinedFile.remove env ⟨p, hideout p a b⟩)
      (fun _ => Gone base i (base.entryLoc d n)) fun _ steps fs =>
        Restored env base p i steps fs ∨ TooLate base i (base.entryLoc d n) steps fs := by
  refine .onError (Θ := fun _ steps fs => Failed env base i (hidden base i d n a b) steps fs ∨
    TooLate base i (base.entryLoc d n) steps fs) (.bind (Ψ := fun _ => Gone base i (base.entryLoc d n))
      (.run hq.stable ?_ ?_) fun _ => ?_) fun e => ?_
  · intro steps fs e hfs _
    exact .inl (hfs.fault h.there rfl (fun _ => by simp) nofun)
  · intro steps fs hfs
    rw [(h.reaches hfs.2.2.keeps).removeFile (h.at_hideout hfs.2.2)]
    refine ⟨not_late_concat hfs.1 (h.at_hideout hfs.2.2), ?_⟩
    rw [← h.erased]
    exact hfs.2.2.erase h.there
  · rw [show (hideout p a b).parentOrHere = p.parentOrHere from
      Path.push_parentOrHere _ _ (Path.parentOrHere_dirOnly p)]
    exact (h.syncParent_runs hq halone).post (fun _ _ _ => id) fun _ _ _ => .inr
  · exact .or ((h.restore_runs hq).post (fun _ _ _ => .inl) fun _ _ _ => .inl)
      ((h.restore_late hq).post (fun _ _ _ => .inr) fun _ _ _ => .inr)

end Hidden

variable {source : Loc}

/-- Shredding removes the source, or puts it back, or fails once it is gone. -/
theorem secureDeleteInner_runs (hq : env.Quiet) (hplaced : base.Placed p d n)
    (hsource : base.nodeAt (base.entryLoc d n) = some (.file i)) (expectedSource : Option Identity) :
    Runs (Fresh base i base.nodeAt) (secureDeleteInner env p expectedSource)
      (fun _ => Gone base i (base.entryLoc d n)) fun _ steps fs =>
        Restored env base p i steps fs ∨ TooLate base i (base.entryLoc d n) steps fs := by
  have hfailed (steps : List Step) (fs : Fs) (h : Failed env base i base.nodeAt steps fs) :
      Restored env base p i steps fs ∨ TooLate base i (base.entryLoc d n) steps fs :=
    .inl ⟨h.1.1, fun _ => h⟩
  have hfile (fs : Fs) (hs : Scrubbed base i base.nodeAt fs) :
      fs.nodeAt (fs.entryLoc d n) = some (.file i) := by rw [hs.nodeAt, hs.entryLoc, hsource]
  have hidle : Idle (Fresh base i base.nodeAt) := fun steps fs call fault hcall hfs =>
    ⟨unwritten_concat.2 ⟨hfs.1, looks_ne_write hcall⟩,
      hfs.2.concat hsource rfl⟩
  refine .bind (.mapError (.result (R := fun found => found.1 = i)
    (((verifiedSourceFile_looks p).runs hq.stable hidle).post (fun _ _ _ => id)
      fun _ steps fs hfs => hfailed _ _ hfs.failed) ?_)) fun found => .assuming fun hfound => ?_
  · rintro w found w' ⟨steps, hfs⟩ hrun
    have hreaches := hplaced.reaches.keep hfs.2.2.2.keeps
    exact (verifiedSourceFile_eq_ok hq hrun).unique
      ⟨_, hreaches.resolve (.inl rfl), hfile _ hfs.2.2.2⟩
  rcases found with ⟨j, m⟩
  obtain rfl : j = i := hfound
  refine .bind (.mapError ((fresh_runs hq (handleFromFile_looks _)
    (stage_handle hq hsource)).post (fun _ _ _ => id) fun _ => hfailed)) fun handle =>
      .assuming fun hhandle => ?_
  subst hhandle
  refine .ite (fun _ => .fail fun _ _ hfs => hfailed _ _ hfs.failed) fun _ => ?_
  refine .bind (Ψ := fun quarantine steps fs => ∃ a b, quarantine = ⟨p, hideout p a b⟩ ∧
    Hidden base p j d n a b ∧ Fresh base j (hidden base j d n a b) steps fs)
    (.mapError ((quarantine_runs (d := d) (n := n) (i := j) hq.stable
      (fun _ fs hfs => hplaced.keep hfs.2.2.2.keeps) (fun _ fs hfs => .inr (hfile fs hfs.2.2.2))
      ?_ ?_).post (fun _ _ _ => id) fun _ _ _ hfs => hfailed _ _ hfs.failed)) fun quarantine => ?_
  · intro steps fs dst fault hfs
    exact ⟨unwritten_concat.2 ⟨hfs.1, nofun⟩, hfs.2.concat hsource rfl⟩
  · rintro steps fs a b ⟨hw, hlate, hcontent, hs⟩ - hfree
    have hfree' : base.nodeAt (base.entryLoc d (tempName a b)) = none := by
      rw [← hs.nodeAt, ← hs.entryLoc, hfree]
    refine ⟨a, b, rfl, ⟨hplaced, hsource, hfree'⟩, unwritten_concat.2 ⟨hw, fun _ => by simp⟩,
      not_late_concat hlate (hfile fs hs), fun _ => ?_, hs.move hsource hfree'⟩
    rw [Fs.move_content, hcontent hw]
  refine .exists_pre fun a => .exists_pre fun b => .assuming fun hquarantine =>
    .assuming fun hhidden => ?_
  subst hquarantine
  refine .bind (.onError (hhidden.overwrite_runs hq) fun _ => (hhidden.restore_runs hq).post
    (fun _ _ _ => .inl) fun _ _ _ => .inl) fun _ => .assuming fun halone => ?_
  exact .mapError (hhidden.remove_runs hq halone)

end

/-- The source is kept as promised exactly when nothing fails after the last of
its names is gone. -/
theorem secureDeleteInner_keeps_iff {env : Env} {p : Path} {expectedSource : Option Identity} {i : Nat}
    {w w' : World} {r : Except IronlockError Unit} (hq : env.Quiet)
    (hcwd : w.fs.DirPath w.fs.cwd) (hfile : w.fs.IsFile p i)
    (hrun : secureDeleteInner env p expectedSource w = (r, w'))
    (hclean : Clean p (w'.since w)) (hsole : Sole env (w'.since w)) :
    Kept p i (w'.since w) w.fs w'.fs r ↔ ¬Late i (w'.since w) := by
  obtain ⟨d, n, hplaced, hsource⟩ := hfile.placed hcwd
  have hnever : ¬Late i [] := by simp [Late]
  have hstart : Fresh w.fs i w.fs.nodeAt [] w.fs :=
    ⟨by simp [Unwritten], hnever, fun _ => rfl, .refl _, rfl, rfl⟩
  have hruns := secureDeleteInner_runs hq hplaced hsource expectedSource
  rcases r with e | _
  · obtain ⟨steps, hsteps, h⟩ := hruns.error hstart hrun
    rw [World.since_eq hsteps] at hclean hsole ⊢
    rcases h with ⟨hlate, hrestored⟩ | ⟨hlate, hs⟩
    · refine iff_of_true ?_ hlate
      obtain ⟨⟨-, hcontent, hs⟩, hfails⟩ := hrestored hclean
      refine ⟨?_, hs.nodeAt, hs.length, fun hearly => hcontent (hsole.unwritten hearly hfails)⟩
      refine ⟨_, (hplaced.reaches.keep hs.keeps).resolve (.inl rfl), ?_⟩
      rw [Fs.node_concat, hs.nodeAt, hs.entryLoc, hsource]
    · refine iff_of_false ?_ (not_not.2 hlate)
      rintro ⟨-, hnodes, -⟩
      have := hs.nodeAt
      rw [hnodes] at this
      have := congrFun this (w.fs.entryLoc d n)
      rw [hsource, removed, Function.update_self] at this
      cases this
  · obtain ⟨steps, hsteps, hlate, hs⟩ := hruns.ok hstart hrun
    rw [World.since_eq hsteps]
    refine iff_of_true ⟨d ++ [n], hplaced.reaches.resolve (.inl rfl), ?_, hs.nodeAt⟩ hlate
    exact (hplaced.reaches.keep hs.keeps).resolve (.inl rfl)

/-! ## A sync that fails -/

/-- `/a` -/
def sourceA : Path := .absolute [⟨[97], .refl true⟩]

/-- `/a` is there and holds a one. -/
def withSource : World := ⟨((Fs.blank []).create [] ⟨[97], .refl true⟩).setContent 0 [1], 0, 0, []⟩

/-- The call after the thirty-third fails: the sync of the directory after the
removal. -/
def lastFails : Env :=
  { Env.calm .checksummed with fault := fun k => if k = 33 then some (.os .other) else none }

def shredded : World := (secureDeleteInner lastFails sourceA (some (.file 0)) withSource).2

theorem shredded_run : secureDeleteInner lastFails sourceA (some (.file 0)) withSource =
    (.error (shredError (.ioError (.os .other))), shredded) := by
  have hresult : (secureDeleteInner lastFails sourceA (some (.file 0)) withSource).1 =
      .error (shredError (.ioError (.os .other))) := by
    decide +kernel
  rw [← hresult, shredded]

theorem shredded_clean : Clean sourceA (shredded.since withSource) := by
  have hrestoring : ∀ c, Restoring sourceA c → c ≠ .sync (.dir []) := by
    rintro c hc rfl
    exact hc
  have hfaults : ∀ s ∈ shredded.since withSource, s.fault ≠ none → s.call = .sync (.dir []) := by
    decide +kernel
  intro s hs hcall
  by_contra hfault
  exact hrestoring _ hcall (hfaults s hs hfault)

theorem shredded_sole : Sole lastFails (shredded.since withSource) := by
  constructor
  · decide +kernel
  · exact .inl fun _ e he => nomatch he

theorem shredded_source : withSource.fs.IsFile sourceA 0 := ⟨[⟨[97], rfl⟩], by decide +kernel⟩

theorem secureDeleteInner_keeps_iff_a :
    Kept sourceA 0 (shredded.since withSource) withSource.fs shredded.fs
      (.error (shredError (.ioError (.os .other)))) ↔ ¬Late 0 (shredded.since withSource) :=
  secureDeleteInner_keeps_iff (fun _ _ => rfl) (Fs.dirPath_nil _) shredded_source shredded_run
    shredded_clean shredded_sole

/-- One call fails, the restoration does not, the failure is reported, and
nothing is at `/a` any more. -/
theorem failed_sync_removes :
    secureDeleteInner lastFails sourceA (some (.file 0)) withSource =
      (.error (shredError (.ioError (.os .other))), shredded) ∧
    withSource.fs.IsFile sourceA 0 ∧
    (shredded.since withSource).countP (fun s => s.fault.isSome) = 1 ∧
    Clean sourceA (shredded.since withSource) ∧
    (∀ j, ¬shredded.fs.IsFile sourceA j) ∧
    ¬Kept sourceA 0 (shredded.since withSource) withSource.fs shredded.fs
      (.error (shredError (.ioError (.os .other)))) := by
  have hgone : shredded.fs.node [⟨[97], rfl⟩] = none := by decide +kernel
  refine ⟨shredded_run, shredded_source, by decide +kernel, shredded_clean, ?_⟩
  have hnofile (j : Nat) : ¬shredded.fs.IsFile sourceA j := by
    rintro ⟨names, hr, hx⟩
    have hname : shredded.fs.resolve false sourceA = .ok [⟨[97], rfl⟩] := by decide +kernel
    rw [hname] at hr
    cases hr
    rw [hgone] at hx
    cases hx
  exact ⟨hnofile, fun hkept => hnofile 0 hkept.1⟩

end Shred

end Ironlock
