import Ironlock.Completion

/-! Two runs that spell one directory differently. The paths they make differ throughout;
what their calls see and do is the same. -/

namespace Ironlock
open ByteOrder (Bytes)
open Effect
open Fs (Identity Metadata SysCall)

namespace Fs

/-! ## Directories stay -/

/-- Every directory of a state is one afterwards. -/
structure Stays (fs fs' : Fs) : Prop where
  fold : fs'.fold = fs.fold
  cwd : fs'.cwd = fs.cwd
  dirs : ∀ l, fs.nodeAt l = some .dir → fs'.nodeAt l = some .dir

section
variable {fs fs' : Fs} {p q : Path} {d : List Name} {n : Name} {l : Loc} {x : Node}

theorem Stays.refl (fs : Fs) : fs.Stays fs := ⟨rfl, rfl, fun _ => id⟩

theorem Keeps.stays (h : fs.Keeps fs') : fs.Stays fs' := ⟨h.fold, h.cwd, h.dirs⟩

theorem Plain.stay (hp : fs.Plain p d) (h : fs.Stays fs') : fs'.Plain p d := by
  have hstart : fs'.start p = fs.start p := by rw [Fs.start, Fs.start, h.cwd]
  have hdir {names : List Name} (hn : fs.node names = some .dir) : fs'.node names = some .dir := by
    rw [Fs.node, Fs.loc, h.fold]
    exact h.dirs _ hn
  refine ⟨?_, ?_, ?_, hp.nul⟩
  · rw [hstart]
    exact fun front hf => hdir (hp.start front hf)
  · rw [hstart]
    exact fun front hf => hdir (hp.plain front hf)
  · rw [hstart]
    exact hp.names

theorem stays_look {α : Type} {follow : Bool} {f : Fs → List Name → Node → Except IoError α} (p : Path) (fs : Fs) :
    fs.Stays (look follow p f fs).2 := by
  rw [look_snd]
  exact .refl fs

theorem stays_createNew (p : Path) (fs : Fs) : fs.Stays (fs.createNew p).2 := by
  rcases make_cases p (fun fs d n => (fs.nextInode, fs.create d n)) fs with ⟨e, he⟩ | ⟨d, n, -, hnone, hmake⟩
  · rw [Fs.createNew, he]
    exact .refl fs
  · rw [Fs.createNew, hmake]
    rw [entryLoc_eq] at hnone
    exact (create_keeps hnone).stays

theorem stays_renameNoreplace (src dst : Path) (fs : Fs) : fs.Stays (fs.renameNoreplace src dst).2 := by
  rcases renameNoreplace_cases src dst fs with ⟨e, he⟩ | ⟨s, d, n, x, -, hx, hdir, -, hnone, hmove⟩
  · rw [he]
    exact .refl fs
  · rw [hmove]
    have hs := loc_ne_nil hx hdir
    have hnode := move_nodeAt (d := fs.loc d) (n := n) hs hx
    rw [entryLoc_eq] at hnone
    refine ⟨move_fold, move_cwd, fun l hl => ?_⟩
    have hls : l ≠ fs.loc s := by
      rintro rfl
      rw [Fs.node, hl] at hx
      exact hdir (Option.some.inj hx).symm
    have hln : l ≠ fs.loc d ++ [fs.fold (fs.loc d) n] := by
      rintro rfl
      rw [hnone] at hl
      cases hl
    rw [hnode, Function.update_of_ne hls, Function.update_of_ne hln, hl]

theorem stays_removeFile (p : Path) (fs : Fs) : fs.Stays (fs.removeFile p).2 := by
  rcases removeFile_cases p fs with ⟨e, he⟩ | ⟨names, x, -, hx, hdir, herase⟩
  · rw [he]
    exact .refl fs
  · rw [herase]
    refine ⟨rfl, rfl, fun l hl => ?_⟩
    have hne : l ≠ fs.loc names := by
      rintro rfl
      rw [Fs.node, hl] at hx
      exact hdir (Option.some.inj hx).symm
    rw [erase_nodeAt (loc_ne_nil hx hdir), Function.update_of_ne hne, hl]

theorem stays_setContent (fs : Fs) (i : Nat) (bytes : Bytes) : fs.Stays (fs.setContent i bytes) :=
  (setContent_keeps i bytes).stays

end

/-! ## Two spellings -/

/-- Two paths, not the empty one, to one directory, with no link on the way. -/
structure Twins (fs : Fs) (p q : Path) (d : List Name) : Prop where
  left : fs.Plain p d
  right : fs.Plain q d
  nonempty : p ≠ .empty ∧ q ≠ .empty
  dirOnly : p.dirOnly = false ∧ q.dirOnly = false
  nul : (Path.absolute fs.cwd).hasNul = false

theorem Twins.stay {fs fs' : Fs} {p q : Path} {d : List Name} (h : fs.Twins p q d) (hs : fs.Stays fs') :
    fs'.Twins p q d :=
  ⟨h.left.stay hs, h.right.stay hs, h.nonempty, h.dirOnly, by rw [hs.cwd]; exact h.nul⟩

end Fs

/-- One name below each of two paths. -/
def Beside (p q a b : Path) : Prop := ∃ n : Name, a = p.push (.name n) ∧ b = q.push (.name n)

section
variable {fs : Fs} {p q a b : Path} {d : List Name} {n : Name} {follow : Bool}

theorem Path.hasNul_push (p : Path) (n : Name) : (p.push (.name n)).hasNul = (p.hasNul || n.bytes.contains 0) := by
  simp [Path.hasNul]

theorem Fs.Plain.walk_push (h : fs.Plain p d) :
    fs.walk follow maxLinks (p.push (.name n)).hops (fs.start (p.push (.name n))) =
      fs.walk follow maxLinks [n.hop] d := by
  have hhops : (p.push (.name n)).hops = p.parts.map some ++ [n.hop] := by simp [Path.hops, Name.hop]
  rw [hhops, ← h.names]
  exact walk_plain h.plain

namespace Fs.Twins

theorem hasNul (h : fs.Twins p q d) (hab : Beside p q a b) : a.hasNul = b.hasNul := by
  obtain ⟨n, rfl, rfl⟩ := hab
  rw [Path.hasNul_push, Path.hasNul_push, h.left.nul, h.right.nul]

theorem resolve (h : fs.Twins p q d) (hab : Beside p q a b) : fs.resolve follow a = fs.resolve follow b := by
  have hnul := h.hasNul hab
  obtain ⟨n, rfl, rfl⟩ := hab
  simp only [Fs.resolve, hnul, Path.push_ne_empty, h.left.walk_push, h.right.walk_push]

theorem look {α : Type} {f : Fs → List Name → Node → Except IoError α} (h : fs.Twins p q d) (hab : Beside p q a b) :
    Fs.look follow a f fs = Fs.look follow b f fs := by
  simp only [Fs.look, h.resolve hab]

theorem parents (h : fs.Twins p q d) (hab : Beside p q a b) : a.parentOrHere = p ∧ b.parentOrHere = q := by
  obtain ⟨n, rfl, rfl⟩ := hab
  exact ⟨p.push_parentOrHere _ h.dirOnly.1, q.push_parentOrHere _ h.dirOnly.2⟩

/-- The two have one name from the root. -/
theorem lexical (h : fs.Twins p q d) (hab : Beside p q a b) :
    ∃ x y, absolute fs.cwd a = .ok x ∧ absolute fs.cwd b = .ok y ∧ lexicalNames x = lexicalNames y := by
  obtain ⟨n, rfl, rfl⟩ := hab
  obtain ⟨x, hx, hnames⟩ := absolute_lexical fs (p.push_ne_empty (.name n))
  obtain ⟨y, hy, hnames'⟩ := absolute_lexical fs (q.push_ne_empty (.name n))
  have hp : fs.start (p.push (.name n)) = fs.start p := rfl
  have hq : fs.start (q.push (.name n)) = fs.start q := rfl
  refine ⟨x, y, hx, hy, ?_⟩
  rw [hnames, hnames', hp, hq, Path.push_parts, Path.push_parts, lexicalFrom_append, lexicalFrom_append, h.left.names,
    h.right.names]

end Fs.Twins

end

/-! ## Two runs in step -/

/-- Two worlds that show the same, in which the paths lead to one directory. -/
def Level (p q : Path) (d : List Name) (w w' : World) : Prop := w'.seen = w.seen ∧ w.fs.Twins p q d

/-- From such worlds the two programs return what `V` relates and leave such worlds, or both fail. -/
abbrev InStep {α β : Type} (p q : Path) (d : List Name) (V : α → β → Prop) (m : FsM α) (n : FsM β) : Prop :=
  Coupled (Level p q d) V m n

section
variable {α β : Type} {env : Env} {p q a b x y : Path} {d : List Name} {op op' : SysCall α} {call call' : Call}

/-- A call that is made with no one else acting. -/
theorem perform_run (hr : env.Reliable) (call : Call) (op : SysCall α) (w : World) :
    ∃ w', Sys.perform env call none op w = (.ok (op w.fs).1, w') ∧ w'.fs = (op w.fs).2 ∧ w'.draws = w.draws := by
  refine ⟨(Sys.perform env call none op w).2, ?_, ?_, rfl⟩
  · simp only [Sys.perform, Sys.outcome, hr.quiet w.calls w.fs]
  · simp only [Sys.perform, Sys.outcome, hr.quiet w.calls w.fs]

theorem try_inStep (hr : env.Reliable) (hop : ∀ fs : Fs, fs.Twins p q d → op fs = op' fs)
    (hstay : ∀ fs : Fs, fs.Stays (op fs).2) : InStep p q d Eq (Sys.try_ env call op) (Sys.try_ env call' op') := by
  rintro w w' ⟨hseen, ht⟩
  obtain ⟨hfs, hdraws⟩ := Prod.mk.inj hseen
  obtain ⟨u, hu, hufs, hudraws⟩ := perform_run hr call op w
  obtain ⟨u', hu', hufs', hudraws'⟩ := perform_run hr call' op' w'
  rw [hfs, ← hop w.fs ht] at hu' hufs'
  refine .inl ⟨(op w.fs).1, (op w.fs).1, u, u', ?_, ?_, rfl, ?_, ?_⟩
  · rw [Sys.try_, hr.faultless w.calls, hu]
  · rw [Sys.try_, hr.faultless w'.calls, hu']
  · rw [World.seen, World.seen, hufs, hufs', hudraws, hudraws', hdraws]
  · rw [hufs]
    exact ht.stay (hstay w.fs)

theorem run_inStep (hr : env.Reliable) (hop : ∀ fs : Fs, fs.Twins p q d → op fs = op' fs)
    (hstay : ∀ fs : Fs, fs.Stays (op fs).2) : InStep p q d Eq (Sys.run env call op) (Sys.run env call' op') := by
  refine .bind_eq (try_inStep hr hop hstay) fun r => ?_
  cases r with
  | ok a => exact .pure rfl
  | error e => exact .fail _ _

/-- What has an answer in every such state. -/
theorem InStep.of_answers {m : FsM α} {n : FsM β} {V : α → β → Prop} {x : α} {y : β}
    (hm : ∀ (fs : Fs) k, fs.Twins p q d → Answers fs k m (.ok x) k)
    (hn : ∀ (fs : Fs) k, fs.Twins p q d → Answers fs k n (.ok y) k) (h : V x y) : InStep p q d V m n := by
  rintro w w' ⟨hseen, ht⟩
  obtain ⟨u, hu, hsu⟩ := (hm w.fs w.draws ht).run (s := w) rfl
  obtain ⟨u', hu', hsu'⟩ := (hn w.fs w.draws ht).run (s := w') hseen
  refine .inl ⟨x, y, u, u', hu, hu', h, hsu'.trans hsu.symm, ?_⟩
  have hfs : u.fs = w.fs := congrArg Prod.fst hsu
  rwa [hfs]

theorem draw_inStep (f : Nat → α) : InStep p q d Eq (Sys.draw f) (Sys.draw f) := by
  rintro w w' ⟨hseen, ht⟩
  obtain ⟨hfs, hdraws⟩ := Prod.mk.inj hseen
  refine .inl ⟨_, _, _, _, rfl, rfl, ?_, ?_, ht⟩
  · change f w.draws = f w'.draws
    rw [hdraws]
  · simp only [World.seen, hfs, hdraws]

/-! ## Calls -/

theorem symlinkMetadata_inStep (hr : env.Reliable) (hab : Beside p q a b) :
    InStep p q d Eq (Sys.symlinkMetadata env a) (Sys.symlinkMetadata env b) :=
  try_inStep hr (fun _ ht => ht.look hab) fun fs => Fs.stays_look a fs

theorem exists_inStep (hr : env.Reliable) (hab : Beside p q a b) :
    InStep p q d Eq (Sys.exists_ env a) (Sys.exists_ env b) :=
  .bind_eq (try_inStep hr (fun _ ht => ht.look hab) fun fs => Fs.stays_look a fs) fun _ => .pure rfl

/-- A call that is the same on both sides and looks at most. -/
theorem same_inStep (hr : env.Reliable) (hlook : ∀ fs, (op fs).2 = fs) :
    InStep p q d Eq (Sys.run env call op) (Sys.run env call op) := by
  refine run_inStep hr (fun _ _ => rfl) fun fs => ?_
  rw [hlook fs]
  exact .refl fs

theorem handleFromFile_inStep (hr : env.Reliable) (file : Identity) :
    InStep p q d Eq (Sys.handleFromFile env file) (Sys.handleFromFile env file) :=
  .bind_eq (same_inStep hr fun _ => rfl) fun _ => .pure rfl

theorem handleFromPath_inStep (hr : env.Reliable) (hab : Beside p q a b) :
    InStep p q d Eq (Sys.handleFromPath env a) (Sys.handleFromPath env b) :=
  .bind_eq (run_inStep hr (fun _ ht => ht.look hab) fun fs => Fs.stays_look a fs) fun file =>
    handleFromFile_inStep hr file

/-! ## Checks -/

theorem rejectLink_inStep (a b : Path) (m : Metadata) :
    InStep p q d Eq (rejectLinkOrReparse a m) (rejectLinkOrReparse b m) :=
  .ite Iff.rfl (.fail _ _) (.pure rfl)

theorem promptConfirmation_inStep (hc : ∀ j k, env.confirm j = env.confirm k) :
    InStep p q d Eq (promptConfirmation env) (promptConfirmation env) := by
  intro w w' hw
  rcases h : env.confirm w.calls with e | answer
  · have h' := (hc w'.calls w.calls).trans h
    exact .inr ⟨_, _, w, w', by rw [promptConfirmation, h], by rw [promptConfirmation, h']⟩
  · have h' := (hc w'.calls w.calls).trans h
    exact .inl ⟨answer, answer, w, w', by rw [promptConfirmation, h], by rw [promptConfirmation, h'], rfl, hw⟩

theorem checkOverwrite_inStep (hr : env.Reliable) (hc : ∀ j k, env.confirm j = env.confirm k) (hab : Beside p q a b)
    (force : Bool) : InStep p q d Eq (checkOverwrite env a force) (checkOverwrite env b force) := by
  refine .bind_eq (symlinkMetadata_inStep hr hab) fun r => ?_
  cases r with
  | ok m =>
    refine .bind_eq (rejectLink_inStep a b m) fun _ => .ite Iff.rfl (.fail _ _) (.ite Iff.rfl (.pure rfl) ?_)
    exact .bind_eq (promptConfirmation_inStep hc) fun answer => .ite Iff.rfl (.pure rfl) (.fail _ _)
  | error e => exact .ite Iff.rfl (.pure rfl) (.fail _ _)

theorem pathMatchesOpenFile_inStep (hr : env.Reliable) (hab : Beside p q a b) (file : Identity) :
    InStep p q d Eq (pathMatchesOpenFile env a file) (pathMatchesOpenFile env b file) :=
  .bind_eq (handleFromPath_inStep hr hab) fun _ => .bind_eq (same_inStep hr fun _ => rfl) fun _ =>
    .bind_eq (handleFromFile_inStep hr file) fun _ => .pure rfl

theorem verifiedSourceFile_inStep (hr : env.Reliable) (hab : Beside p q a b) :
    InStep p q d Eq (verifiedSourceFile env a) (verifiedSourceFile env b) := by
  have hvalid : InStep p q d Eq (validateRegularSource env a) (validateRegularSource env b) := by
    refine .bind_eq (symlinkMetadata_inStep hr hab) fun r => ?_
    cases r with
    | ok m => exact .bind_eq (rejectLink_inStep a b m) fun _ => .ite Iff.rfl (.fail _ _) (.pure rfl)
    | error e => exact .fail _ _
  refine .bind_eq hvalid fun _ => .bind_eq (run_inStep hr (fun _ ht => ht.look hab) fun fs => Fs.stays_look a fs)
    fun file => .bind_eq (same_inStep hr fun _ => rfl) fun m => .bind_eq (rejectLink_inStep a b m) fun _ => ?_
  cases file with
  | file i => exact .bind_eq (pathMatchesOpenFile_inStep hr hab _) fun _ => .ite Iff.rfl (.pure rfl) (.fail _ _)
  | dir l => exact .fail _ _
  | special l => exact .fail _ _

/-! ## Keys -/

theorem closestAncestor_inStep (hr : env.Reliable) (a b : Path) (rev missing : List Name) :
    InStep p q d Eq (closestAncestor env a rev missing) (closestAncestor env b rev missing) := by
  have hlook (names : Path) : InStep p q d Eq (Sys.canonicalize env names) (Sys.canonicalize env names) :=
    try_inStep hr (fun _ _ => rfl) fun fs => Fs.stays_look names fs
  induction rev generalizing missing with
  | nil =>
    refine .bind_eq (hlook _) fun r => ?_
    cases r with
    | ok existing => exact .pure rfl
    | error e => exact .ite Iff.rfl (.fail _ _) (.fail _ _)
  | cons n rev ih =>
    refine .bind_eq (hlook _) fun r => ?_
    cases r with
    | ok existing => exact .pure rfl
    | error e => exact .ite Iff.rfl (ih _) (.fail _ _)

theorem stdAbsolute_inStep (hab : Beside p q a b) :
    InStep p q d (fun x y => lexicalNames x = lexicalNames y) (stdAbsolute a) (stdAbsolute b) := by
  rintro w w' ⟨hseen, ht⟩
  obtain ⟨hfs, -⟩ := Prod.mk.inj hseen
  obtain ⟨x, y, hx, hy, hnames⟩ := ht.lexical hab
  refine .inl ⟨x, y, w, w', by rw [stdAbsolute, hx], ?_, hnames, hseen, ht⟩
  rw [stdAbsolute, hfs, hy]

theorem normalizedPathKey_inStep (hr : env.Reliable) (hab : Beside p q a b) :
    InStep p q d Eq (normalizedPathKey env a) (normalizedPathKey env b) := by
  refine .bind (stdAbsolute_inStep hab) fun x y hnames => ?_
  rw [hnames]
  exact .bind_eq (closestAncestor_inStep hr a b _ _) fun _ => .pure rfl

theorem pathsReferToSameFile_inStep (hr : env.Reliable) (hab : Beside p q a b) (hxy : Beside p q x y) :
    InStep p q d Eq (pathsReferToSameFile env a x) (pathsReferToSameFile env b y) := by
  refine .bind_eq (normalizedPathKey_inStep hr hab) fun _ => .bind_eq (normalizedPathKey_inStep hr hxy) fun _ =>
    .ite Iff.rfl (.pure rfl) (.bind_eq (symlinkMetadata_inStep hr hxy) fun r => ?_)
  cases r with
  | ok m =>
    exact .bind_eq (rejectLink_inStep x y m) fun _ => .bind_eq (handleFromPath_inStep hr hab) fun _ =>
      .bind_eq (handleFromPath_inStep hr hxy) fun _ => .pure rfl
  | error e => exact .ite Iff.rfl (.pure rfl) (.fail _ _)

/-! ## Temporary files and renames -/

theorem randomTempPath_inStep (p q : Path) (d : List Name) :
    InStep p q d (Beside p q) (randomTempPath env p) (randomTempPath env q) := by
  refine .bind_eq (draw_inStep _) fun x => .bind_eq (draw_inStep _) fun y => .pure ⟨tempName x y, ?_, ?_⟩
  · exact joinRaw_tempFormat p x y
  · exact joinRaw_tempFormat q x y

/-- A call is tried, and its outcome looked at. -/
theorem attempt_run (env : Env) (call : Call) (op : SysCall α) :
    (Eff.attempt (Sys.run env call op) : FsM (Except IronlockError α)) =
      (Sys.try_ env call op >>= fun r => pure (r.mapError .ioError)) := by
  funext w
  have htry : Sys.try_ env call op w = (.ok ((Sys.outcome (env.fault w.calls) op (env.others w.calls w.fs)).1),
      (Sys.try_ env call op w).2) := rfl
  rw [Eff.attempt, Sys.run, Eff.bind_ok htry, Eff.bind_ok htry]
  rcases (Sys.outcome (env.fault w.calls) op (env.others w.calls w.fs)).1 with e | a <;> rfl

theorem createPrivateTemp_inStep (hr : env.Reliable) : InStep p q d (fun r r' => Beside p q r.1 r'.1 ∧ r.2 = r'.2)
    (createPrivateTemp env p) (createPrivateTemp env q) := by
  unfold createPrivateTemp
  generalize 128 = tries
  induction tries with
  | zero => exact .fail _ _
  | succ tries ih =>
    refine .bind (randomTempPath_inStep p q d) fun a b hab => ?_
    rw [openPrivateNew, openPrivateNew, attempt_run, attempt_run]
    have hcreate : InStep p q d Eq (Sys.try_ env (.createNew a) (Fs.createNew a))
        (Sys.try_ env (.createNew b) (Fs.createNew b)) := by
      refine try_inStep hr (fun fs ht => ?_) fun fs => Fs.stays_createNew a fs
      simp only [Fs.createNew, Fs.make, ht.resolve hab]
    refine .bind_eq (.bind_eq hcreate fun _ => .pure rfl) fun r => ?_
    rcases r with e | file
    · cases e with
      | ioError e => exact .ite Iff.rfl ih (.fail _ _)
      | _ => exact .fail _ _
    · exact .pure ⟨hab, rfl⟩

theorem unixPath_inStep (hab : Beside p q a b) : InStep p q d Eq (unixPath a) (unixPath b) :=
  .of_related fun _ _ h => .ite (by rw [h.2.hasNul hab]) (.fail _ _) (.pure rfl)

theorem renameNoreplace_beside {fs : Fs} (ht : fs.Twins p q d) (hab : Beside p q a b) (hxy : Beside p q x y) :
    Fs.renameNoreplace a x fs = Fs.renameNoreplace b y fs := by
  simp only [Fs.renameNoreplace, ht.resolve hab, ht.resolve hxy]

theorem installTemp_inStep (hr : env.Reliable) (hab : Beside p q a b) (hxy : Beside p q x y) :
    InStep p q d Eq (installTemp env a x) (installTemp env b y) :=
  .bind_eq (unixPath_inStep hab) fun _ => .bind_eq (unixPath_inStep hxy) fun _ =>
    run_inStep hr (fun _ ht => renameNoreplace_beside ht hab hxy) fun fs => Fs.stays_renameNoreplace a x fs

theorem installTemp_clean (ha : a.hasNul = false) (hx : x.hasNul = false) :
    installTemp env a x = Sys.run env (.rename a x) (Fs.renameNoreplace a x) := by
  funext w
  have hclean {a : Path} (h : a.hasNul = false) : unixPath a w = (.ok (), w) := by
    rw [unixPath, if_neg (by simp [h])]
    rfl
  rw [installTemp, Eff.bind_ok (hclean ha), Eff.bind_ok (hclean hx)]

theorem installTemp_nul (h : a.hasNul = true ∨ x.hasNul = true) (w : World) :
    ∃ m, (Eff.attempt (installTemp env a x) : FsM (Except IronlockError Unit)) w =
      (.ok (.error (.unsafePath m)), w) := by
  by_cases ha : a.hasNul = true
  · have hfail : unixPath a w = (.error (unsafe_ "path contains a NUL byte: '" a "'"), w) := by
      rw [unixPath, if_pos ha]
      rfl
    exact ⟨_, by rw [Eff.attempt, installTemp, Eff.bind_error hfail]; rfl⟩
  · have hok : unixPath a w = (.ok (), w) := by
      rw [unixPath, if_neg ha]
      rfl
    have hfail : unixPath x w = (.error (unsafe_ "path contains a NUL byte: '" x "'"), w) := by
      rw [unixPath, if_pos (h.resolve_left ha)]
      rfl
    exact ⟨_, by rw [Eff.attempt, installTemp, Eff.bind_ok hok, Eff.bind_error hfail]; rfl⟩

/-- An attempt to rename has one outcome, but for the text of a refused path. -/
theorem attempt_installTemp_inStep (hr : env.Reliable) (hab : Beside p q a b) (hxy : Beside p q x y) :
    InStep p q d (fun r r' => r = r' ∨ ∃ m m', r = .error (.unsafePath m) ∧ r' = .error (.unsafePath m'))
      (Eff.attempt (installTemp env a x)) (Eff.attempt (installTemp env b y)) := by
  refine .of_related fun _ _ h => ?_
  have hb := h.2.hasNul hab
  have hy := h.2.hasNul hxy
  by_cases hnul : a.hasNul = true ∨ x.hasNul = true
  · intro w w' hw
    obtain ⟨m, hm⟩ := @installTemp_nul env a x hnul w
    obtain ⟨m', hm'⟩ := @installTemp_nul env b y (by rwa [hb, hy] at hnul) w'
    exact .inl ⟨_, _, w, w', hm, hm', .inr ⟨m, m', rfl, rfl⟩, hw⟩
  · simp only [not_or, Bool.not_eq_true] at hnul
    rw [installTemp_clean hnul.1 hnul.2, installTemp_clean (hb ▸ hnul.1) (hy ▸ hnul.2), attempt_run, attempt_run]
    refine .bind_eq (try_inStep hr (fun _ ht => renameNoreplace_beside ht hab hxy) fun fs =>
      Fs.stays_renameNoreplace a x fs) fun _ => .pure (.inl rfl)

theorem syncParent_inStep (hr : env.Reliable) : InStep p q d Eq (syncParent env p) (syncParent env q) :=
  .of_answers (fun _ _ ht => syncParent_answers hr ht.left ht.nonempty.1)
    (fun _ _ ht => syncParent_answers hr ht.right ht.nonempty.2) rfl

theorem syncParent_beside (hr : env.Reliable) (hab : Beside p q a b) :
    InStep p q d Eq (syncParent env a.parentOrHere) (syncParent env b.parentOrHere) := by
  refine .of_related fun _ _ h => ?_
  rw [(h.2.parents hab).1, (h.2.parents hab).2]
  exact syncParent_inStep hr

/-! ## Quarantine -/

/-- Two files in quarantine, under names beside those they had. -/
structure QuarantinedFile.Mates (p q : Path) (f g : QuarantinedFile) : Prop where
  original : Beside p q f.original g.original
  quarantine : Beside p q f.quarantine g.quarantine

theorem quarantine_inStep (hr : env.Reliable) (hab : Beside p q a b) :
    InStep p q d (QuarantinedFile.Mates p q) (QuarantinedFile.new env a) (QuarantinedFile.new env b) := by
  unfold QuarantinedFile.new
  generalize 128 = tries
  induction tries with
  | zero => exact .fail _ _
  | succ tries ih =>
    refine .of_related fun _ _ h => ?_
    rw [QuarantinedFile.newIn, QuarantinedFile.newIn, (h.2.parents hab).1, (h.2.parents hab).2]
    refine .bind (randomTempPath_inStep p q d) fun x y hxy => ?_
    refine .bind (attempt_installTemp_inStep hr hab hxy) ?_
    rintro r _ (rfl | ⟨m, m', rfl, rfl⟩)
    · rcases r with e | _
      · cases e with
        | ioError e => exact .ite Iff.rfl ih (.fail _ _)
        | _ => exact .fail _ _
      · exact .pure ⟨hab, hxy⟩
    · exact .fail _ _

theorem quarantineRemove_inStep (hr : env.Reliable) {f g : QuarantinedFile} (h : f.Mates p q g) :
    InStep p q d Eq (f.remove env) (g.remove env) := by
  refine .onError (.bind_eq (run_inStep hr (fun fs ht => ?_) fun fs => Fs.stays_removeFile _ fs) fun _ =>
    syncParent_beside hr h.quarantine) _ _
  simp only [Fs.removeFile, ht.resolve h.quarantine]

/-! ## Outputs -/

/-- Two outputs, with their destinations and temporary files beside each other. -/
structure AtomicOutput.Mates (p q : Path) (o o' : AtomicOutput) : Prop where
  destination : Beside p q o.destination o'.destination
  tempPath : Beside p q o.tempPath o'.tempPath
  file : o.file = o'.file
  observed : o.observedDestination = o'.observedDestination

theorem observe_inStep (hr : env.Reliable) (hab : Beside p q a b) :
    InStep p q d Eq (AtomicOutput.observe env a) (AtomicOutput.observe env b) := by
  refine .bind_eq (symlinkMetadata_inStep hr hab) fun r => ?_
  cases r with
  | ok m =>
    exact .bind_eq (rejectLink_inStep a b m) fun _ => .ite Iff.rfl (.fail _ _)
      (.bind_eq (handleFromPath_inStep hr hab) fun _ => .pure rfl)
  | error e => exact .ite Iff.rfl (.pure rfl) (.fail _ _)

theorem approve_inStep (hr : env.Reliable) (hc : ∀ j k, env.confirm j = env.confirm k) (hab : Beside p q a b)
    (force : Bool) (observed : Option Identity) :
    InStep p q d Eq (AtomicOutput.approve env a force observed) (AtomicOutput.approve env b force observed) := by
  cases observed with
  | none => exact .pure rfl
  | some observed =>
    exact .bind_eq (checkOverwrite_inStep hr hc hab force) fun _ => .bind_eq (handleFromPath_inStep hr hab) fun _ =>
      .ite Iff.rfl (.fail _ _) (.pure rfl)

theorem output_inStep (hr : env.Reliable) (hc : ∀ j k, env.confirm j = env.confirm k) (hab : Beside p q a b)
    (force : Bool) : InStep p q d (fun o o' => o.Mates p q o' ∧ o.destination = a ∧ o'.destination = b)
      (AtomicOutput.new env a force) (AtomicOutput.new env b force) := by
  refine .of_related fun _ _ h => ?_
  rw [AtomicOutput.new, AtomicOutput.new]
  simp only [(h.2.parents hab).1, (h.2.parents hab).2]
  have hsafe : InStep p q d Eq (ensureSafeDirectory env p) (ensureSafeDirectory env q) :=
    .of_answers (fun _ _ ht => ensureSafeDirectory_answers hr ht.nul ht.left ht.nonempty.1)
      (fun _ _ ht => ensureSafeDirectory_answers hr ht.nul ht.right ht.nonempty.2) rfl
  refine .bind_eq hsafe fun _ => .bind_eq (observe_inStep hr hab) fun observed =>
    .bind_eq (approve_inStep hr hc hab force observed) fun _ => .bind (createPrivateTemp_inStep hr) ?_
  rintro ⟨temp, file⟩ ⟨temp', _⟩ ⟨htemp, rfl⟩
  exact .pure ⟨⟨hab, htemp, rfl, rfl⟩, rfl, rfl⟩

theorem replace_inStep (hr : env.Reliable) {o o' : AtomicOutput} (h : o.Mates p q o') (observed : Identity) :
    InStep p q d (QuarantinedFile.Mates p q) (o.replace env observed) (o'.replace env observed) := by
  refine .bind (quarantine_inStep hr h.destination) fun f g hfg => ?_
  refine .bind_eq (.onError (.bind_eq (handleFromPath_inStep hr hfg.quarantine) fun _ => ?_) _ _) fun _ => .pure hfg
  exact .ite Iff.rfl (.fail _ _) (.bind_eq (installTemp_inStep hr h.tempPath h.destination) fun _ =>
    syncParent_beside hr h.destination)

theorem install_inStep (hr : env.Reliable) {o o' : AtomicOutput} (h : o.Mates p q o') :
    InStep p q d Eq (o.install env) (o'.install env) := by
  refine .bind_eq (symlinkMetadata_inStep hr h.destination) fun r => ?_
  have hinstall : InStep p q d Eq (do
      installTemp env o.tempPath o.destination
      syncParent env o.destination.parentOrHere) (do
      installTemp env o'.tempPath o'.destination
      syncParent env o'.destination.parentOrHere) :=
    .bind_eq (installTemp_inStep hr h.tempPath h.destination) fun _ => syncParent_beside hr h.destination
  cases r with
  | ok m => exact .bind_eq (rejectLink_inStep _ _ m) fun _ => .fail _ _
  | error e => exact .ite Iff.rfl hinstall (.fail _ _)

theorem commit_inStep (hr : env.Reliable) {o o' : AtomicOutput} (h : o.Mates p q o') :
    InStep p q d (fun r r' => r = o.destination ∧ r' = o'.destination) (o.commit env) (o'.commit env) := by
  have hpublish : InStep p q d (Option.Rel (QuarantinedFile.Mates p q)) (o.publish env) (o'.publish env) := by
    unfold AtomicOutput.publish
    rw [h.file, h.observed]
    refine .bind_eq (same_inStep hr fun _ => rfl) fun _ => .bind_eq (same_inStep hr fun _ => rfl) fun _ => ?_
    cases o'.observedDestination with
    | some observed => exact .bind (replace_inStep hr h observed) fun f g hfg => .pure (.some hfg)
    | none => exact .bind_eq (install_inStep hr h) fun _ => .pure .none
  refine .bind (.onError hpublish _ _) ?_
  rintro _ _ (hfg | _)
  · exact .bind_eq (quarantineRemove_inStep hr hfg) fun _ => .pure ⟨rfl, rfl⟩
  · exact .pure ⟨rfl, rfl⟩

/-! ## Open files -/

theorem appendAll_run (hr : env.Reliable) (i : Nat) (bs : List Bytes) (w : World) :
    ∃ w', Sys.appendAll env i bs w = (.ok (), w') ∧ w'.fs = w.fs.setContent i (w.fs.content i ++ bs.flatten) ∧
      w'.draws = w.draws := by
  induction bs generalizing w with
  | nil => exact ⟨w, rfl, by rw [List.flatten_nil, List.append_nil, Fs.setContent_self], rfl⟩
  | cons b bs ih =>
    obtain ⟨w₁, hfirst, hfs₁, hdraws₁⟩ := perform_run hr (.write (.file i))
      (fun fs => ((.ok () : Except IoError Unit), fs.append i b)) w
    obtain ⟨w', hrest, hfs, hdraws⟩ := ih w₁
    refine ⟨w', by rw [Sys.appendAll, Eff.bind_ok hfirst, hrest], ?_, hdraws.trans hdraws₁⟩
    have hcontent : (w.fs.append i b).content i = w.fs.content i ++ b := if_pos rfl
    rw [hfs, hfs₁, hcontent, Fs.append, Fs.setContent_setContent, List.flatten_cons, List.append_assoc]

theorem stream_inStep (hr : env.Reliable) {r r' : Reader} (hread : ∃ bytes, r.Delivers bytes ∧ r'.Delivers bytes)
    (i : Nat) {m : StreamM α} (hm : Uncut m) : InStep p q d Eq (Sys.stream env r i m) (Sys.stream env r' i m) := by
  rintro w w' ⟨hseen, ht⟩
  obtain ⟨hfs, hdraws⟩ := Prod.mk.inj hseen
  obtain ⟨heq, hout⟩ := hm ⟨r, ⟨env.accepts w.calls, []⟩, []⟩ ⟨r', ⟨env.accepts w'.calls, []⟩, []⟩
    ⟨hread, ⟨hr.accepting _, hr.accepting _⟩, rfl, rfl⟩
  have hwritten : (m ⟨r, ⟨env.accepts w.calls, []⟩, []⟩).2.writer.portions.flatten =
      (m ⟨r', ⟨env.accepts w'.calls, []⟩, []⟩).2.writer.portions.flatten := by
    split at hout
    · exact hout.written
    · exact hout.written
  obtain ⟨u, hu, hufs, hudraws⟩ := appendAll_run hr i (m ⟨r, ⟨env.accepts w.calls, []⟩, []⟩).2.writer.portions w
  obtain ⟨u', hu', hufs', hudraws'⟩ :=
    appendAll_run hr i (m ⟨r', ⟨env.accepts w'.calls, []⟩, []⟩).2.writer.portions w'
  have hrun : Sys.stream env r i m w = ((m ⟨r, ⟨env.accepts w.calls, []⟩, []⟩).1, u) := by
    rw [Sys.stream, Eff.bind_ok hu]
    rfl
  have hrun' : Sys.stream env r' i m w' = ((m ⟨r, ⟨env.accepts w.calls, []⟩, []⟩).1, u') := by
    rw [Sys.stream, Eff.bind_ok hu', heq]
    rfl
  have hlevel : Level p q d u u' := by
    refine ⟨?_, ?_⟩
    · rw [World.seen, World.seen, hufs, hufs', hudraws, hudraws', hfs, hdraws, hwritten]
    · rw [hufs]
      exact ht.stay (Fs.stays_setContent _ _ _)
  rw [hrun, hrun']
  rcases (m ⟨r, ⟨env.accepts w.calls, []⟩, []⟩).1 with e | a
  · exact .inr ⟨e, e, u, u', rfl, rfl⟩
  · exact .inl ⟨a, a, u, u', rfl, rfl, rfl, hlevel⟩

theorem reader_inStep (hr : env.Reliable) (i : Nat) :
    InStep p q d (fun r r' => ∃ bytes, r.Delivers bytes ∧ r'.Delivers bytes) (Sys.reader env i) (Sys.reader env i) := by
  rintro w w' ⟨hseen, ht⟩
  obtain ⟨hfs, -⟩ := Prod.mk.inj hseen
  refine .inl ⟨_, _, w, w', rfl, rfl, ⟨_, hr.reader w.calls _, ?_⟩, hseen, ht⟩
  rw [← hfs]
  exact hr.reader w'.calls _

theorem writeEncrypted_inStep (hr : env.Reliable) (password : Bytes) (filename : Str) (source output : Nat) :
    InStep p q d Eq (writeEncrypted env password filename source output)
      (writeEncrypted env password filename source output) := by
  refine .bind (reader_inStep hr source) fun r r' hread => ?_
  refine .bind_eq (draw_inStep _) fun salt => .bind_eq (draw_inStep _) fun baseNonce => ?_
  exact .bind_eq (stream_inStep hr hread output (uncut_encryptStreamWithParams _ _ _ _ _ _)) fun _ =>
    same_inStep hr fun _ => rfl

/-! ## Shredding -/

/-- One write after another is one write of both. -/
theorem Fs.overwrite_overwrite (fs : Fs) (i offset : Nat) (bytes more : Bytes) :
    (fs.overwrite i offset bytes).overwrite i (offset + bytes.length) more = fs.overwrite i offset (bytes ++ more) := by
  have hcontent : (fs.overwrite i offset bytes).content i =
      (fs.content i).take offset ++ bytes ++ (fs.content i).drop (offset + bytes.length) := if_pos rfl
  rw [Fs.overwrite, hcontent, Fs.overwrite, Fs.setContent_setContent, Fs.overwrite]
  congr 1
  generalize fs.content i = c
  rcases Nat.lt_or_ge c.length offset with hlen | hlen
  · have hdrop (k : Nat) : c.drop (offset + k) = [] := List.drop_eq_nil_of_le (by omega)
    rw [hdrop, hdrop, List.take_of_length_le hlen.le, List.append_nil, List.append_nil,
      List.take_of_length_le (by simp only [List.length_append]; omega),
      List.drop_eq_nil_of_le (by simp only [List.length_append]; omega), List.append_nil, List.append_assoc]
  · have hfront : (c.take offset ++ bytes).length = offset + bytes.length := by
      rw [List.length_append, List.length_take, Nat.min_eq_left hlen]
    have hback : offset + bytes.length + more.length - (offset + bytes.length) = more.length :=
      Nat.add_sub_cancel_left ..
    have hnil : (c.take offset ++ bytes).drop (offset + bytes.length + more.length) = [] :=
      List.drop_eq_nil_of_le (by rw [hfront]; exact Nat.le_add_right ..)
    rw [List.take_left' hfront, List.drop_append, hnil, hfront, hback, List.nil_append, List.drop_drop,
      List.length_append, Nat.add_assoc]
    simp only [List.append_assoc]

theorem Fs.overwrite_nil (fs : Fs) (i offset : Nat) : fs.overwrite i offset [] = fs := by
  rw [Fs.overwrite, List.append_nil, List.length_nil, Nat.add_zero, List.take_append_drop, Fs.setContent_self]

theorem overwriteAll_run (hr : env.Reliable) (i offset : Nat) (bs : List Bytes) (w : World) :
    ∃ w', Sys.overwriteAll env i offset bs w = (.ok (), w') ∧ w'.fs = w.fs.overwrite i offset bs.flatten ∧
      w'.draws = w.draws := by
  induction bs generalizing offset w with
  | nil => exact ⟨w, rfl, by rw [List.flatten_nil, Fs.overwrite_nil], rfl⟩
  | cons b bs ih =>
    obtain ⟨w₁, hfirst, hfs₁, hdraws₁⟩ := perform_run hr (.write (.file i))
      (fun fs => ((.ok () : Except IoError Unit), fs.overwrite i offset b)) w
    obtain ⟨w', hrest, hfs, hdraws⟩ := ih (offset + b.length) w₁
    refine ⟨w', by rw [Sys.overwriteAll, Eff.bind_ok hfirst, hrest], ?_, hdraws.trans hdraws₁⟩
    rw [hfs, hfs₁, Fs.overwrite_overwrite, List.flatten_cons]

theorem writeAllAt_run (hr : env.Reliable) (i offset : Nat) (buf : Bytes) (w : World) :
    ∃ w', Sys.writeAllAt env i offset buf w = (.ok (), w') ∧ w'.fs = w.fs.overwrite i offset buf ∧
      w'.draws = w.draws := by
  obtain ⟨writer, hwrite, hwritten, -⟩ := Writer.writeAll_accepting buf (hr.accepting w.calls)
  obtain ⟨w', hrun, hfs, hdraws⟩ := overwriteAll_run hr i offset writer.portions w
  refine ⟨w', ?_, ?_, hdraws⟩
  · simp only [Sys.writeAllAt, hwrite]
    rw [Eff.bind_ok hrun]
    rfl
  · have hflat : writer.portions.flatten = buf := hwritten
    rw [hfs, hflat]

theorem writeAllAt_inStep (hr : env.Reliable) (i offset : Nat) (buf : Bytes) :
    InStep p q d Eq (Sys.writeAllAt env i offset buf) (Sys.writeAllAt env i offset buf) := by
  rintro w w' ⟨hseen, ht⟩
  obtain ⟨hfs, hdraws⟩ := Prod.mk.inj hseen
  obtain ⟨u, hu, hufs, hudraws⟩ := writeAllAt_run hr i offset buf w
  obtain ⟨u', hu', hufs', hudraws'⟩ := writeAllAt_run hr i offset buf w'
  refine .inl ⟨(), (), u, u', hu, hu', rfl, ?_, ?_⟩
  · rw [World.seen, World.seen, hufs, hufs', hudraws, hudraws', hfs, hdraws]
  · rw [hufs]
    exact ht.stay (Fs.stays_setContent _ _ _)

theorem overwriteRemaining_inStep (hr : env.Reliable) (i offset remaining : Nat) :
    InStep p q d Eq (overwriteRemaining env i offset remaining) (overwriteRemaining env i offset remaining) := by
  induction remaining using Nat.strong_induction_on generalizing offset with
  | _ remaining ih =>
    rw [overwriteRemaining]
    by_cases hzero : remaining = 0
    · rw [if_pos hzero]
      exact .pure rfl
    have hless : remaining - min remaining overwriteBufferSize < remaining := by
      simp only [overwriteBufferSize]
      omega
    rw [if_neg hzero]
    exact .bind_eq (draw_inStep _) fun noise => .bind_eq (.mapError (writeAllAt_inStep hr i offset noise) _ _) fun _ =>
      ih _ hless _

theorem overwritePasses_inStep (hr : env.Reliable) (i size passes : Nat) :
    InStep p q d Eq (overwritePasses env i size passes) (overwritePasses env i size passes) := by
  have hidle (call : Call) : InStep p q d Eq (Eff.mapError shredIoError (Sys.run env call Sys.idle))
      (Eff.mapError shredIoError (Sys.run env call Sys.idle)) := .mapError (same_inStep hr fun _ => rfl) _ _
  induction passes with
  | zero => exact .pure rfl
  | succ passes ih =>
    exact .bind_eq (hidle _) fun _ => .bind_eq (overwriteRemaining_inStep hr i 0 size) fun _ =>
      .bind_eq (hidle _) fun _ => .bind_eq (hidle _) fun _ => ih

theorem overwriteQuarantined_inStep (hr : env.Reliable) (hab : Beside p q a b) (expected : Identity) :
    InStep p q d Eq (overwriteQuarantined env a expected) (overwriteQuarantined env b expected) := by
  have hsame {α : Type} {call : Call} {op : SysCall α} (f : IronlockError → IronlockError)
      (h : ∀ fs, (op fs).2 = fs) : InStep p q d Eq (Eff.mapError f (Sys.run env call op))
        (Eff.mapError f (Sys.run env call op)) := .mapError (same_inStep hr h) f f
  refine .bind_eq (.mapError (run_inStep hr (fun _ ht => ht.look hab) fun fs => Fs.stays_look a fs) _ _) fun file => ?_
  refine .bind_eq (hsame _ fun _ => rfl) fun m => .bind_eq (hsame _ fun _ => rfl) fun _ => ?_
  refine .bind_eq (.mapError (handleFromFile_inStep hr file) _ _) fun handle => .ite Iff.rfl (.fail _ _) ?_
  refine .bind_eq (hsame _ fun _ => rfl) fun links => .ite Iff.rfl (.fail _ _) ?_
  cases file
  on_goal 1 => refine .bind_eq (overwritePasses_inStep hr _ _ 3) fun _ => ?_
  all_goals
    refine .bind_eq (symlinkMetadata_inStep hr hab) fun r => ?_
    rcases r with e | m
    · exact .fail _ _
    · refine .bind_eq (.mapError (rejectLink_inStep a b m) _ _) fun _ => ?_
      exact .bind_eq (.mapError (pathMatchesOpenFile_inStep hr hab _) _ _) fun _ => .ite Iff.rfl (.pure rfl) (.fail _ _)

theorem secureDeleteInner_inStep (hr : env.Reliable) (hab : Beside p q a b) (handle : Option Identity) :
    InStep p q d Eq (secureDeleteInner env a handle) (secureDeleteInner env b handle) := by
  refine .bind_eq (.mapError (verifiedSourceFile_inStep hr hab) _ _) fun source => ?_
  refine .bind_eq (.mapError (handleFromFile_inStep hr _) _ _) fun expected => .ite Iff.rfl (.fail _ _) ?_
  refine .bind (.mapError (quarantine_inStep hr hab) _ _) fun f g hfg => ?_
  exact .bind_eq (.onError (overwriteQuarantined_inStep hr hfg.quarantine expected) _ _) fun _ =>
    .mapError (quarantineRemove_inStep hr hfg) _ _

/-! ## Encryption of one file -/

theorem encryptFileToPath_inStep (hr : env.Reliable) (hc : ∀ j k, env.confirm j = env.confirm k) (hab : Beside p q a b)
    (hxy : Beside p q x y) (password : Bytes) (force shred : Bool) : InStep p q d (fun r r' => r = x ∧ r' = y)
      (encryptFileToPath env a x password force shred) (encryptFileToPath env b y password force shred) := by
  have hname : originalFilename a = originalFilename b := by
    obtain ⟨n, rfl, rfl⟩ := hab
    rw [originalFilename, originalFilename, Path.push_fileName, Path.push_fileName]
  have hhandle (source : Nat) : InStep p q d Eq (shredHandle env source shred) (shredHandle env source shred) :=
    .ite Iff.rfl (.bind_eq (same_inStep hr fun _ => rfl) fun _ =>
      .bind_eq (handleFromFile_inStep hr _) fun _ => .pure rfl) (.pure rfl)
  refine .bind_eq (pathsReferToSameFile_inStep hr hab hxy) fun same => .ite Iff.rfl (.fail _ _) ?_
  refine .bind_eq (verifiedSourceFile_inStep hr hab) fun source => .bind_eq (hhandle _) fun handle => ?_
  rw [hname]
  have hfilename : InStep p q d Eq (Eff.ofExcept (originalFilename b)) (Eff.ofExcept (originalFilename b)) := by
    rcases originalFilename b with e | name
    · exact .fail e e
    · exact .pure rfl
  refine .bind_eq hfilename fun filename => .bind (output_inStep hr hc hxy force) ?_
  rintro o o' ⟨ho, rfl, rfl⟩
  rw [← ho.file]
  refine .bind_eq (.onError (writeEncrypted_inStep hr password filename _ _) _ _) fun _ => ?_
  refine .bind (commit_inStep hr ho) fun result result' hresult => ?_
  exact .ite Iff.rfl (.bind_eq (secureDeleteInner_inStep hr hab handle) fun _ => .pure hresult) (.pure hresult)

end

end Ironlock
