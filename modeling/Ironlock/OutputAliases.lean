import Ironlock.LossyKeys

/-! Outputs that are other names of sources: the planner compares a default
output that is there with its own source only. -/

namespace Ironlock
open ByteOrder (Bytes)
open Effect
open Fs (Identity Metadata SysCall)

/-- Two names of one file. -/
def Fs.Aliased (fs : Fs) (p q : Path) : Prop := ∃ i, fs.IsFile p i ∧ fs.IsFile q i

/-- The planner keeps a source's default output when no other source has it for
a default and no source has its key, unless it is there and is that source. -/
def KeepsDefault (env : Env) (fs : Fs) (sources : List Path) (s : Path) : Prop :=
  (∀ t ∈ sources, t ≠ s → fs.keyOf env (defaultPath t) ≠ fs.keyOf env (defaultPath s)) ∧
    ∀ t ∈ sources, fs.keyOf env t ≠ fs.keyOf env (defaultPath s)

/-- No default output that is kept is another name of another source. -/
def DefaultsApart (env : Env) (fs : Fs) (sources : List Path) : Prop :=
  ∀ s ∈ sources, KeepsDefault env fs sources s → ∀ t ∈ sources, t ≠ s → ¬fs.Aliased (defaultPath s) t

/-! ## What a look finds -/

section
variable {env : Env} {w w' : World} {p q : Path} {i : Nat}

theorem key_run (hq : env.Quiet) (hf : env.Faultless) {key : Bytes}
    (h : normalizedPathKey env p w = (.ok key, w')) : key = w.fs.keyOf env p ∧ w'.seen = w.seen := by
  obtain ⟨r, hpath, rfl⟩ := normalizedPathKey_eq_ok hq hf.honest h
  have hkey : w.fs.pathKey env p = .ok (keyText env r) := by rw [Fs.pathKey, hpath]; rfl
  constructor
  · rw [Fs.keyOf, hkey]
    rfl
  · exact ((normalizedPathKey_answers hq hf hkey).unique rfl h).2

theorem handle_run (hq : env.Quiet) (hf : env.Faultless) {handle : Identity}
    (h : Sys.handleFromPath env p w = (.ok handle, w')) :
    (∃ names x, w.fs.resolve true p = .ok names ∧ w.fs.node names = some x ∧
      w.fs.identity names x = .ok handle) ∧ w'.seen = w.seen := by
  obtain ⟨names, x, hr, hx, hid⟩ := handleFromPath_eq_ok hq h
  have hopen : w.fs.openRead p = (.ok handle, w.fs) := by
    simp only [Fs.openRead, Fs.look, hr, hx, hid]
  exact ⟨⟨names, x, hr, hx, hid⟩, ((handleFromPath_answers hq hf hopen).unique rfl h).2⟩

/-- What a look at the path of no link finds is what opening it finds. -/
theorem Fs.isFile_iff_identity {fs : Fs} {names names' : List Name} {x y : Node} {handle : Identity}
    (hr : fs.resolve false p = .ok names) (hx : fs.node names = some x) (hlink : ∀ t, x ≠ .symlink t)
    (hr' : fs.resolve true p = .ok names') (hy : fs.node names' = some y)
    (hid : fs.identity names' y = .ok handle) : handle = .file i ↔ fs.IsFile p i := by
  have hfollow := Fs.resolve_follow (fun t ht => hlink t (Option.some.inj (hx.symm.trans ht))) hr
  rw [hr'] at hfollow
  cases hfollow
  rw [hx] at hy
  cases hy
  constructor
  · rintro rfl
    cases x with
    | file j =>
      cases hid
      exact ⟨_, hr, hx⟩
    | _ => cases hid
  · rintro ⟨_, hr'', hi⟩
    rw [hr] at hr''
    cases hr''
    rw [hx] at hi
    cases hi
    cases hid
    rfl

theorem pathsReferToSameFile_run (hq : env.Quiet) (hf : env.Faultless) (hp : w.fs.IsFile p i) {b : Bool}
    (h : pathsReferToSameFile env p q w = (.ok b, w')) :
    (b = true ↔ w.fs.SameFile env p q) ∧ w'.seen = w.seen := by
  obtain ⟨_, w₁, hkey, h⟩ := Eff.bind_eq_ok.1 h
  obtain ⟨rfl, hw₁⟩ := key_run hq hf hkey
  obtain ⟨_, w₂, hkey', h⟩ := Eff.bind_eq_ok.1 h
  obtain ⟨rfl, hw₂⟩ := key_run hq hf hkey'
  have hfs₁ : w₁.fs = w.fs := congrArg Prod.fst hw₁
  have hseen : w₂.seen = w.seen := hw₂.trans hw₁
  have hfs₂ : w₂.fs = w.fs := congrArg Prod.fst hseen
  rw [hfs₁] at h
  by_cases heq : w.fs.keyOf env p = w.fs.keyOf env q
  · rw [if_pos heq] at h
    cases h
    exact ⟨iff_of_true rfl (.inl heq), hseen⟩
  rw [if_neg heq] at h
  have hsame : w.fs.SameFile env p q ↔ w.fs.IsFile q i := by
    constructor
    · rintro (hkeys | ⟨j, hpj, hqj⟩)
      · exact absurd hkeys heq
      · rwa [hp.unique hpj]
    · exact fun hqi => .inr ⟨i, hp, hqi⟩
  rw [hsame]
  obtain ⟨r, w₃, hmeta, h⟩ := Eff.bind_eq_ok.1 h
  have hop : w.fs.symlinkMetadata q = ((w.fs.symlinkMetadata q).1, w.fs) := Prod.ext rfl (look_snd _)
  have hlook : Answers w.fs w.draws (Sys.symlinkMetadata env q) (.ok (w.fs.symlinkMetadata q).1) w.draws :=
    try_answers hq hf hop
  obtain ⟨hr, hw₃⟩ := hlook.unique hseen hmeta
  have hfs₃ : w₃.fs = w.fs := congrArg Prod.fst hw₃
  cases r with
  | error e =>
    have h : (if e.kind = .notFound then return false else Eff.fail (.ioError e) : FsM Bool) w₃ = (.ok b, w') := h
    split at h
    · cases h
      refine ⟨iff_of_false (by simp) ?_, hw₃⟩
      rintro ⟨names, hnames, hi⟩
      simp only [Fs.symlinkMetadata, Fs.look, hnames, hi] at hr
      cases hr
    · cases h
  | ok m =>
    obtain ⟨names, x, hnames, hx, hm⟩ := look_eq_ok (Except.ok.inj hr).symm
    cases hm
    obtain ⟨_, w₄, hreject, h⟩ := Eff.bind_eq_ok.1 h
    unfold rejectLinkOrReparse at hreject
    split at hreject
    · cases hreject
    rename_i hlink
    cases hreject
    obtain ⟨handle, w₅, hsource, h⟩ := Eff.bind_eq_ok.1 h
    obtain rfl := handleFromPath_isFile hq hsource (by rwa [hfs₃])
    obtain ⟨-, hw₅⟩ := handle_run hq hf hsource
    obtain ⟨handle, w₆, houtput, h⟩ := Eff.bind_eq_ok.1 h
    obtain ⟨⟨names', y, hnames', hy, hid⟩, hw₆⟩ := handle_run hq hf houtput
    cases h
    have hfs₅ : w₅.fs = w.fs := (congrArg Prod.fst hw₅).trans hfs₃
    rw [hfs₅] at hnames' hy hid
    have hlink' : ∀ t, x ≠ .symlink t := by
      rintro t rfl
      exact hlink rfl
    refine ⟨?_, hw₆.trans (hw₅.trans hw₃)⟩
    rw [decide_eq_true_eq, eq_comm]
    exact Fs.isFile_iff_identity hnames hx hlink' hnames' hy hid

theorem exists_run (hq : env.Quiet) (hf : env.Faultless) {b : Bool}
    (h : Sys.exists_ env p w = (.ok b, w')) : b = (w.fs.metadata p).1.isOk ∧ w'.seen = w.seen := by
  have hop : w.fs.metadata p = ((w.fs.metadata p).1, w.fs) := Prod.ext rfl (look_snd _)
  have hanswers : Answers w.fs w.draws (Sys.exists_ env p) (.ok (w.fs.metadata p).1.isOk) w.draws :=
    .bind (try_answers hq hf hop) (.pure _)
  obtain ⟨heq, hw⟩ := hanswers.unique rfl h
  exact ⟨Except.ok.inj heq, hw⟩

/-! ## What becomes of a default output -/

/-- Why a source's default output cannot be its output when the keys in `taken`
are, of the default outputs whose keys are `keys`. -/
def Collides (env : Env) (fs : Fs) (keys taken : List Bytes) (s : Path) : Prop :=
  1 < keys.count (fs.keyOf env (defaultPath s)) ∨ fs.keyOf env (defaultPath s) ∈ taken ∨
    fs.SameFile env s (defaultPath s)

theorem collides_run (hq : env.Quiet) (hf : env.Faultless) (hp : w.fs.IsFile p i)
    {keys taken : List Bytes} {b : Bool}
    (h : collides env keys taken p (defaultPath p) w = (.ok b, w')) :
    (b = true ↔ Collides env w.fs keys taken p) ∧ w'.seen = w.seen := by
  obtain ⟨_, w₁, hkey, h⟩ := Eff.bind_eq_ok.1 h
  obtain ⟨rfl, hw₁⟩ := key_run hq hf hkey
  by_cases htaken : 1 < keys.count (w.fs.keyOf env (defaultPath p)) ∨ w.fs.keyOf env (defaultPath p) ∈ taken
  · rw [if_pos htaken] at h
    cases h
    exact ⟨iff_of_true rfl (htaken.imp_right .inl), hw₁⟩
  · rw [if_neg htaken] at h
    have hfs₁ : w₁.fs = w.fs := congrArg Prod.fst hw₁
    obtain ⟨hsame, hw'⟩ := pathsReferToSameFile_run hq hf (hfs₁ ▸ hp) h
    rw [hfs₁] at hsame
    rw [not_or] at htaken
    refine ⟨?_, hw'.trans hw₁⟩
    simp only [hsame, Collides, htaken, false_or]

/-- The path taken for a unique one has a suffix drawn for it, and is not there. -/
theorem uniqueEncryptedPath_run (hq : env.Quiet) (hf : env.Faultless) {taken : List Bytes}
    (h : uniqueEncryptedPath env p taken w = (.ok q, w')) :
    w'.fs = w.fs ∧ ∃ j, w.draws ≤ j ∧ j < w'.draws ∧ q = suffixedPath p (env.nextU64 j) ∧
      ∀ i, ¬w.fs.IsFile q i := by
  rcases hstem : toStr p.fileStem with _ | stem <;> simp only [uniqueEncryptedPath, hstem] at h
  · cases h
  generalize 128 = tries at h
  induction tries generalizing w with
  | zero => cases h
  | succ tries ih =>
    obtain ⟨suffix, w₁, hdraw, h⟩ := Eff.bind_eq_ok.1 h
    cases hdraw
    obtain ⟨key, w₂, hkey, h⟩ := Eff.bind_eq_ok.1 h
    obtain ⟨-, hw₂⟩ := key_run hq hf hkey
    have hfs₂ : w₂.fs = w.fs := congrArg Prod.fst hw₂
    have hdraws₂ : w₂.draws = w.draws + 1 := congrArg Prod.snd hw₂
    -- another try, with the suffix drawn next
    have hagain {w₃ : World} (hw₃ : w₃.seen = w₂.seen)
        (h : uniqueEncryptedPathIn env p stem taken tries w₃ = (.ok q, w')) :
        w'.fs = w.fs ∧ ∃ j, w.draws ≤ j ∧ j < w'.draws ∧ q = suffixedPath p (env.nextU64 j) ∧
          ∀ i, ¬w.fs.IsFile q i := by
      have hfs₃ : w₃.fs = w.fs := (congrArg Prod.fst hw₃).trans hfs₂
      have hdraws₃ : w₃.draws = w.draws + 1 := (congrArg Prod.snd hw₃).trans hdraws₂
      obtain ⟨hfs', j, hj, hj', hq', habsent⟩ := ih h
      rw [hfs₃] at hfs' habsent
      exact ⟨hfs', j, by omega, hj', hq', habsent⟩
    split at h
    · exact hagain rfl h
    obtain ⟨present, w₃, hexists, h⟩ := Eff.bind_eq_ok.1 h
    obtain ⟨hpresent, hw₃⟩ := exists_run hq hf hexists
    cases present with
    | true => exact hagain hw₃ h
    | false =>
      cases h
      have hpath : p.parentOrEmpty.joinRaw (stem.bytes ++ ascii "-" ++ hex16 (env.nextU64 w.draws) ++ [dot] ++
          ironlockExtension) = suffixedPath p (env.nextU64 w.draws) := by
        rw [suffixedPath, toStr_eq_some hstem, Option.getD_some]
      have hfs₃ : w'.fs = w.fs := (congrArg Prod.fst hw₃).trans hfs₂
      have hdraws₃ : w'.draws = w.draws + 1 := (congrArg Prod.snd hw₃).trans hdraws₂
      refine ⟨hfs₃, w.draws, le_refl _, by omega, hpath, ?_⟩
      intro i hi
      obtain ⟨names, hr, hx⟩ := hi.resolve
      simp only [hfs₂, Fs.metadata, Fs.look, hr, hx] at hpresent
      cases hpresent

/-- What a source is given for an output when the keys in `taken` are taken, by
suffixes drawn from the `k`th on and before the `k'`th. -/
structure Chosen (env : Env) (fs : Fs) (keys taken : List Bytes) (k k' : Nat) (plan : EncryptionPlan) :
    Prop where
  kept : ¬Collides env fs keys taken plan.source → plan.output = defaultPath plan.source
  moved : Collides env fs keys taken plan.source → ∃ j, k ≤ j ∧ j < k' ∧
    plan.output = suffixedPath plan.source (env.nextU64 j) ∧ ∀ i, ¬fs.IsFile plan.output i

theorem Chosen.widen {fs : Fs} {keys taken : List Bytes} {plan : EncryptionPlan} {k k' l l' : Nat}
    (h : Chosen env fs keys taken k k' plan) (hk : l ≤ k) (hk' : k' ≤ l') :
    Chosen env fs keys taken l l' plan where
  kept := h.kept
  moved hcollides := by
    obtain ⟨j, hj, hj', hout⟩ := h.moved hcollides
    exact ⟨j, hk.trans hj, hj'.trans_le hk', hout⟩

theorem planOutput_run (hq : env.Quiet) (hf : env.Faultless) (hp : w.fs.IsFile p i)
    {keys taken : List Bytes} {key : Bytes}
    (h : planOutput env keys taken p (defaultPath p) w = (.ok (q, key), w')) :
    key = w.fs.keyOf env q ∧ w'.fs = w.fs ∧ w.draws ≤ w'.draws ∧
      Chosen env w.fs keys taken w.draws w'.draws ⟨p, q⟩ := by
  obtain ⟨b, w₁, hcollides, h⟩ := Eff.bind_eq_ok.1 h
  obtain ⟨hb, hw₁⟩ := collides_run hq hf hp hcollides
  have hfs₁ : w₁.fs = w.fs := congrArg Prod.fst hw₁
  have hdraws₁ : w₁.draws = w.draws := congrArg Prod.snd hw₁
  -- the output's key, once it is known
  have hlast {output : Path} {w₂ : World}
      (h : (do
        let outputKey ← normalizedPathKey env output
        if outputKey ∈ taken then
          Eff.fail (.outputCollision [.text "multiple inputs map to '", .path output, .text "'"])
        else return (output, outputKey) : FsM (Path × Bytes)) w₂ = (.ok (q, key), w')) :
      output = q ∧ key = w₂.fs.keyOf env q ∧ w'.seen = w₂.seen := by
    obtain ⟨outputKey, w₃, hkey, h⟩ := Eff.bind_eq_ok.1 h
    obtain ⟨rfl, hw₃⟩ := key_run hq hf hkey
    split at h <;> cases h
    exact ⟨rfl, rfl, hw₃⟩
  cases b with
  | true =>
    rw [if_pos rfl] at h
    obtain ⟨output, w₂, houtput, h⟩ := Eff.bind_eq_ok.1 h
    obtain ⟨hfs₂, j, hj, hj', hpath, habsent⟩ := uniqueEncryptedPath_run hq hf houtput
    obtain ⟨rfl, rfl, hw₃⟩ := hlast h
    have hfs₃ : w'.fs = w₂.fs := congrArg Prod.fst hw₃
    have hdraws₃ : w'.draws = w₂.draws := congrArg Prod.snd hw₃
    rw [hfs₁] at hfs₂ habsent
    refine ⟨by rw [hfs₂], by rw [hfs₃, hfs₂], by omega, fun hno => absurd (hb.1 rfl) hno, fun _ => ?_⟩
    exact ⟨j, by omega, by omega, hpath, habsent⟩
  | false =>
    rw [if_neg (by simp)] at h
    obtain ⟨output, w₂, houtput, h⟩ := Eff.bind_eq_ok.1 h
    cases houtput
    obtain ⟨rfl, rfl, hw₃⟩ := hlast h
    have hfs₃ : w'.fs = w₁.fs := congrArg Prod.fst hw₃
    have hdraws₃ : w'.draws = w₁.draws := congrArg Prod.snd hw₃
    refine ⟨by rw [hfs₁], by rw [hfs₃, hfs₁], by omega, fun _ => rfl, fun hyes => ?_⟩
    cases hb.2 hyes

/-- Each source is given its output when the keys of the outputs before are taken. -/
theorem planOutputs_run (hq : env.Quiet) (hf : env.Faultless) {rest : List Path}
    (hfiles : ∀ s ∈ rest, ∃ i, w.fs.IsFile s i) {keys taken : List Bytes} {plans : List EncryptionPlan}
    (h : planOutputs env keys (rest.zip (rest.map defaultPath)) taken w = (.ok plans, w')) :
    plans.map (·.source) = rest ∧ w.draws ≤ w'.draws ∧
      ∀ before plan after, plans = before ++ plan :: after →
        Chosen env w.fs keys ((before.map fun b => w.fs.keyOf env b.output).reverse ++ taken) w.draws w'.draws
          plan := by
  induction rest generalizing taken w plans with
  | nil =>
    cases h
    exact ⟨rfl, le_refl _, fun before plan after heq => by simp at heq⟩
  | cons s rest ih =>
    obtain ⟨⟨output, key⟩, w₁, hplan, h⟩ := Eff.bind_eq_ok.1 h
    obtain ⟨i, hi⟩ := hfiles s List.mem_cons_self
    obtain ⟨rfl, hfs₁, hdraws₁, hchosen⟩ := planOutput_run hq hf hi hplan
    obtain ⟨more, w₂, hmore, h⟩ := Eff.bind_eq_ok.1 h
    cases h
    have hrest := ih (fun t ht => hfs₁ ▸ hfiles t (List.mem_cons_of_mem _ ht)) hmore
    obtain ⟨horder, hdraws₂, hrest⟩ := hrest
    refine ⟨by rw [List.map_cons, horder], hdraws₁.trans hdraws₂, ?_⟩
    rintro (_ | ⟨b, before⟩) plan after heq
    · cases heq
      exact hchosen.widen (le_refl _) hdraws₂
    · cases heq
      have := hrest before plan after rfl
      rw [hfs₁] at this
      rw [List.map_cons, List.reverse_cons, List.append_assoc, List.singleton_append]
      exact this.widen hdraws₁ (le_refl _)

/-! ## The sources and their defaults -/

/-- Registered sources have keys that differ, and no two are one file. -/
theorem registerSources_run (hq : env.Quiet) (hf : env.Faultless) {sources : List Path}
    (hfiles : ∀ s ∈ sources, ∃ i, w.fs.IsFile s i) {keys keys' : List Bytes} {handles handles' : List Identity}
    (h : registerSources env sources keys handles w = (.ok (keys', handles'), w')) :
    keys' = (sources.map (w.fs.keyOf env)).reverse ++ keys ∧ w'.seen = w.seen ∧
      (∀ s ∈ sources, w.fs.keyOf env s ∉ keys ∧ ∀ i, w.fs.IsFile s i → .file i ∉ handles) ∧
      sources.Pairwise fun s t => w.fs.keyOf env s ≠ w.fs.keyOf env t ∧ ¬w.fs.Aliased s t := by
  induction sources generalizing keys handles w with
  | nil =>
    cases h
    exact ⟨rfl, rfl, by simp, .nil⟩
  | cons s sources ih =>
    obtain ⟨_, w₁, hkey, h⟩ := Eff.bind_eq_ok.1 h
    obtain ⟨rfl, hw₁⟩ := key_run hq hf hkey
    have hfs₁ : w₁.fs = w.fs := congrArg Prod.fst hw₁
    obtain ⟨handle, w₂, hhandle, h⟩ := Eff.bind_eq_ok.1 h
    obtain ⟨i, hi⟩ := hfiles s List.mem_cons_self
    obtain rfl := handleFromPath_isFile hq hhandle (hfs₁ ▸ hi)
    obtain ⟨-, hw₂⟩ := handle_run hq hf hhandle
    have hfs₂ : w₂.fs = w.fs := (congrArg Prod.fst hw₂).trans hfs₁
    split at h
    · cases h
    rename_i hnew
    rw [not_or] at hnew
    obtain ⟨hkeys, hw', hfree, hpair⟩ := ih (fun t ht => hfs₂ ▸ hfiles t (List.mem_cons_of_mem _ ht)) h
    rw [hfs₂] at hkeys hfree hpair
    refine ⟨?_, hw'.trans (hw₂.trans hw₁), ?_, ?_⟩
    · rw [hkeys, List.map_cons, List.reverse_cons, List.append_assoc, List.singleton_append]
    · intro t ht
      rcases List.mem_cons.1 ht with rfl | ht
      · refine ⟨hnew.1, fun j hj => ?_⟩
        rw [hj.unique hi]
        exact hnew.2
      · obtain ⟨hkey', hhandles⟩ := hfree t ht
        exact ⟨fun hmem => hkey' (List.mem_cons_of_mem _ hmem),
          fun j hj hmem => hhandles j hj (List.mem_cons_of_mem _ hmem)⟩
    · refine List.pairwise_cons.2 ⟨fun t ht => ?_, hpair⟩
      obtain ⟨hkey', hhandles⟩ := hfree t ht
      constructor
      · exact fun heq => hkey' (heq ▸ List.mem_cons_self)
      · rintro ⟨j, hsj, htj⟩
        rw [hsj.unique hi] at htj
        exact hhandles i htj List.mem_cons_self

theorem defaultEncryptedPaths_run {sources defaults : List Path}
    (h : defaultEncryptedPaths sources = .ok defaults) : defaults = sources.map defaultPath := by
  induction sources generalizing defaults with
  | nil =>
    cases h
    rfl
  | cons s sources ih =>
    unfold defaultEncryptedPaths at h
    rcases hs : defaultEncryptedPath s with e | output <;> rw [hs] at h
    · cases h
    rcases hrest : defaultEncryptedPaths sources with e | outputs <;> rw [hrest] at h
    · cases h
    cases h
    rw [ih hrest, List.map_cons]
    congr 1
    rcases hstem : toStr s.fileStem with _ | stem <;> simp only [defaultEncryptedPath, hstem] at hs
    · cases hs
    · cases hs
      rw [defaultPath, toStr_eq_some hstem, Option.getD_some]

theorem pathKeys_run (hq : env.Quiet) (hf : env.Faultless) {ps : List Path} {keys : List Bytes}
    (h : pathKeys env ps w = (.ok keys, w')) : keys = ps.map (w.fs.keyOf env) ∧ w'.seen = w.seen := by
  induction ps generalizing w keys with
  | nil =>
    cases h
    exact ⟨rfl, rfl⟩
  | cons q ps ih =>
    obtain ⟨_, w₁, hkey, h⟩ := Eff.bind_eq_ok.1 h
    obtain ⟨rfl, hw₁⟩ := key_run hq hf hkey
    obtain ⟨keys', w₂, hrest, h⟩ := Eff.bind_eq_ok.1 h
    cases h
    obtain ⟨rfl, hw₂⟩ := ih hrest
    have hfs₁ : w₁.fs = w.fs := congrArg Prod.fst hw₁
    exact ⟨by rw [hfs₁, List.map_cons], hw₂.trans hw₁⟩

end

/-! ## Outputs and sources -/

/-- No suffix drawn from the `k`th on and before the `k'`th gives the output of
a source the key of a default output. -/
def SuffixesApart (env : Env) (fs : Fs) (sources : List Path) (k k' : Nat) : Prop :=
  ∀ s ∈ sources, ∀ t ∈ sources, ∀ j, k ≤ j → j < k' →
    fs.keyOf env (suffixedPath s (env.nextU64 j)) ≠ fs.keyOf env (defaultPath t)

/-- No output is another name of a source. -/
def OutputsApart (fs : Fs) (plans : List EncryptionPlan) : Prop :=
  ∀ plan ∈ plans, ∀ other ∈ plans, ¬fs.Aliased plan.output other.source

section
variable {env : Env} {fs : Fs} {sources : List Path} {s : Path} {k k' : Nat} {plans : List EncryptionPlan}

/-- A planned batch: each source has been given its output after those before it. -/
structure Batched (env : Env) (fs : Fs) (k k' : Nat) (sources : List Path) (plans : List EncryptionPlan) :
    Prop where
  order : plans.map (·.source) = sources
  registered : sources.Pairwise fun s t => fs.keyOf env s ≠ fs.keyOf env t ∧ ¬fs.Aliased s t
  chosen : ∀ before plan after, plans = before ++ plan :: after →
    Chosen env fs (sources.map fun s => fs.keyOf env (defaultPath s))
      ((before.map fun b => fs.keyOf env b.output).reverse ++ (sources.map (fs.keyOf env)).reverse) k k' plan

namespace Batched

theorem once (h : Batched env fs k k' sources plans) : sources.Nodup := by
  refine h.registered.imp ?_
  rintro s t ⟨hkey, -⟩ rfl
  exact hkey rfl

theorem source_mem (h : Batched env fs k k' sources plans) {plan : EncryptionPlan} (hplan : plan ∈ plans) :
    plan.source ∈ sources := by
  rw [← h.order]
  exact List.mem_map_of_mem hplan

theorem planned (h : Batched env fs k k' sources plans) (hs : s ∈ sources) :
    ∃ plan ∈ plans, plan.source = s := by
  rwa [← h.order, List.mem_map] at hs

/-- No two sources are one file. -/
theorem not_aliased (h : Batched env fs k k' sources plans) {t : Path} (hs : s ∈ sources) (ht : t ∈ sources)
    (hne : s ≠ t) : ¬fs.Aliased s t := by
  have : Std.Symm fun s t => fs.keyOf env s ≠ fs.keyOf env t ∧ ¬fs.Aliased s t := by
    refine ⟨fun s t hst => ⟨hst.1.symm, ?_⟩⟩
    rintro ⟨i, ht, hs⟩
    exact hst.2 ⟨i, hs, ht⟩
  exact (h.registered.forall hs ht hne).2

/-- An output that is there is a default that was kept, and is not its source. -/
theorem output (h : Batched env fs k k' sources plans) {plan : EncryptionPlan} (hplan : plan ∈ plans) :
    (plan.output = defaultPath plan.source ∧ KeepsDefault env fs sources plan.source ∧
      ¬fs.Aliased plan.output plan.source) ∨ ∀ i, ¬fs.IsFile plan.output i := by
  obtain ⟨before, after, heq⟩ := List.append_of_mem hplan
  have hchosen := h.chosen before plan after heq
  by_cases hcollides : Collides env fs (sources.map fun s => fs.keyOf env (defaultPath s))
      ((before.map fun b => fs.keyOf env b.output).reverse ++ (sources.map (fs.keyOf env)).reverse) plan.source
  · obtain ⟨j, -, -, -, habsent⟩ := hchosen.moved hcollides
    exact .inr habsent
  · have hout := hchosen.kept hcollides
    rw [Collides, not_or, not_or] at hcollides
    obtain ⟨hcount, hfree, hsame⟩ := hcollides
    refine .inl ⟨hout, ⟨fun t ht hne heq => ?_, fun t ht heq => ?_⟩, ?_⟩
    · exact hcount ((one_lt_count_map (f := fun s => fs.keyOf env (defaultPath s)) h.once
        (h.source_mem hplan)).2 ⟨t, ht, hne, heq⟩)
    · rw [← heq] at hfree
      exact hfree (List.mem_append_right _ (List.mem_reverse.2 (List.mem_map_of_mem ht)))
    · rintro ⟨i, houti, hi⟩
      exact hsame (.inr ⟨i, hi, hout ▸ houti⟩)

/-- A default that can be kept is, unless it is its source. -/
theorem output_default (h : Batched env fs k k' sources plans)
    (hfresh : SuffixesApart env fs sources k k') {plan : EncryptionPlan} (hplan : plan ∈ plans)
    (hkeeps : KeepsDefault env fs sources plan.source) (hown : ¬fs.Aliased plan.source (defaultPath plan.source)) :
    plan.output = defaultPath plan.source := by
  obtain ⟨before, after, heq⟩ := List.append_of_mem hplan
  refine (h.chosen before plan after heq).kept ?_
  rintro (hcount | htaken | hkey | halias)
  · obtain ⟨t, ht, hne, hkey⟩ := (one_lt_count_map (f := fun s => fs.keyOf env (defaultPath s)) h.once
      (h.source_mem hplan)).1 hcount
    exact hkeeps.1 t ht hne hkey
  · rcases List.mem_append.1 htaken with htaken | htaken
    · obtain ⟨other, hother, hkey⟩ := List.mem_map.1 (List.mem_reverse.1 htaken)
      obtain ⟨front, back, rfl⟩ := List.append_of_mem hother
      have hmem : other ∈ plans := by
        rw [heq]
        exact List.mem_append_left _ hother
      have hchosen := h.chosen front other (back ++ plan :: after) (by rw [heq, List.append_assoc]; rfl)
      -- the output before it is a default too, of another source, or one with a suffix
      by_cases hcollides : Collides env fs (sources.map fun s => fs.keyOf env (defaultPath s))
          ((front.map fun b => fs.keyOf env b.output).reverse ++ (sources.map (fs.keyOf env)).reverse)
          other.source
      · obtain ⟨j, hj, hj', hout, -⟩ := hchosen.moved hcollides
        rw [hout] at hkey
        exact hfresh _ (h.source_mem hmem) _ (h.source_mem hplan) j hj hj' hkey
      · rw [hchosen.kept hcollides] at hkey
        refine hkeeps.1 _ (h.source_mem hmem) (fun hsource => ?_) hkey
        have honce := h.once
        rw [← h.order, heq, List.map_append, List.map_cons] at honce
        refine (List.nodup_cons.1 (List.nodup_middle.1 honce)).1 (List.mem_append_left _ ?_)
        rw [← hsource]
        exact List.mem_map_of_mem hother
    · obtain ⟨t, ht, hkey⟩ := List.mem_map.1 (List.mem_reverse.1 htaken)
      exact hkeeps.2 t ht hkey
  · exact hkeeps.2 _ (h.source_mem hplan) hkey
  · exact hown halias

theorem apart (h : Batched env fs k k' sources plans) (hapart : DefaultsApart env fs sources) :
    OutputsApart fs plans := by
  intro plan hplan other hother halias
  rcases h.output hplan with ⟨hout, hkeeps, hown⟩ | habsent
  · by_cases heq : other.source = plan.source
    · rw [heq] at halias
      exact hown halias
    · rw [hout] at halias
      exact hapart _ (h.source_mem hplan) hkeeps _ (h.source_mem hother) heq halias
  · obtain ⟨i, hi, -⟩ := halias
    exact habsent i hi

theorem defaults_apart (h : Batched env fs k k' sources plans) (hfresh : SuffixesApart env fs sources k k')
    (hout : OutputsApart fs plans) : DefaultsApart env fs sources := by
  intro s hs hkeeps t ht hne halias
  obtain ⟨plan, hplan, rfl⟩ := h.planned hs
  obtain ⟨other, hother, rfl⟩ := h.planned ht
  obtain ⟨i, hi, hti⟩ := halias
  refine hout plan hplan other hother ⟨i, ?_, hti⟩
  rw [h.output_default hfresh hplan hkeeps]
  · exact hi
  · rintro ⟨j, hsj, hj⟩
    rw [hj.unique hi] at hsj
    exact h.not_aliased ht hs hne ⟨i, hti, hsj⟩

end Batched

end

/-! ## The whole plan -/

section
variable {env : Env} {w w' : World} {inputs : List Path} {plans : List EncryptionPlan}

theorem planEncryptionInputs_batched (hq : env.Quiet) (hf : env.Faultless)
    (hrun : planEncryptionInputs env inputs w = (.ok plans, w')) :
    ∃ sources w₁, collectInputs env inputs false w = (.ok sources, w₁) ∧
      Batched env w.fs w₁.draws w'.draws sources plans := by
  obtain ⟨sources, w₁, hcollect, hrun⟩ := Eff.bind_eq_ok.1 hrun
  have hfs₁ : w₁.fs = w.fs := (((collectInputs_looks _ _).still hq).run hcollect).1
  have hfiles : ∀ s ∈ sources, ∃ i, w.fs.IsFile s i := by
    obtain ⟨files, w₂, hfrom, hsort⟩ := Eff.bind_eq_ok.1 hcollect
    cases hsort
    intro s hs
    exact collectInputsFrom_eq_ok hq (by simp) hfrom s (List.mem_mergeSort.1 hs)
  obtain ⟨⟨keys, handles⟩, w₂, hregister, hrun⟩ := Eff.bind_eq_ok.1 hrun
  obtain ⟨hkeys, hw₂, -, hpair⟩ := registerSources_run hq hf (by rwa [hfs₁]) hregister
  obtain ⟨defaults, w₃, hdefaults, hrun⟩ := Eff.bind_eq_ok.1 hrun
  rw [Eff.ofExcept_apply, Prod.mk.injEq] at hdefaults
  obtain ⟨hdefaults, rfl⟩ := hdefaults
  obtain rfl := defaultEncryptedPaths_run hdefaults
  obtain ⟨defaultKeys, w₄, hdefaultKeys, hrun⟩ := Eff.bind_eq_ok.1 hrun
  obtain ⟨rfl, hw₄⟩ := pathKeys_run hq hf hdefaultKeys
  have hseen : w₄.seen = w₁.seen := hw₄.trans hw₂
  have hfs₂ : w₂.fs = w.fs := (congrArg Prod.fst hw₂).trans hfs₁
  have hfs₄ : w₄.fs = w.fs := (congrArg Prod.fst hseen).trans hfs₁
  have hdraws₄ : w₄.draws = w₁.draws := congrArg Prod.snd hseen
  obtain ⟨horder, -, hchosen⟩ := planOutputs_run hq hf (by rwa [hfs₄]) hrun
  rw [hfs₁] at hkeys hpair
  refine ⟨sources, w₁, hcollect, horder, hpair, ?_⟩
  intro before plan after heq
  have := hchosen before plan after heq
  rwa [hfs₄, hdraws₄, hkeys, List.append_nil, hfs₂, List.map_map] at this

/-- No output of a planned batch is another name of one of its sources as long
as no default output that is kept is; and when no suffix drawn gives the output
of a source the key of a default, only then. -/
theorem planEncryptionInputs_aliases (hq : env.Quiet) (hf : env.Faultless)
    (hrun : planEncryptionInputs env inputs w = (.ok plans, w')) :
    ∃ sources w₁, collectInputs env inputs false w = (.ok sources, w₁) ∧ plans.map (·.source) = sources ∧
      (DefaultsApart env w.fs sources → OutputsApart w.fs plans) ∧
      (SuffixesApart env w.fs sources w₁.draws w'.draws →
        (OutputsApart w.fs plans ↔ DefaultsApart env w.fs sources)) := by
  obtain ⟨sources, w₁, hcollect, hb⟩ := planEncryptionInputs_batched hq hf hrun
  exact ⟨sources, w₁, hcollect, hb.order, hb.apart, fun hfresh => ⟨hb.defaults_apart hfresh, hb.apart⟩⟩

end

/-- `/b.txt` and `/a.txt`. -/
def twoTexts : Fs :=
  ((Fs.blank []).create [] ⟨[98, 46, 116, 120, 116], .refl true⟩).create [] ⟨[97, 46, 116, 120, 116], .refl true⟩

theorem twoTexts_inode : ∀ i, Node.file 0 = .file i → i < twoTexts.nextInode := by
  rintro i ⟨⟩
  decide +kernel

/-- `/b.txt`, which is also named `/a.il`, and `/a.txt`. -/
def linkedDefault : World := ⟨twoTexts.put [] ⟨[97, 46, 105, 108], .refl true⟩ (.file 0) twoTexts_inode, 0, 0, []⟩

/-- `/b.txt` and `/a.txt`, with another file at `/a.il`. -/
def defaultThere : World := ⟨twoTexts.create [] ⟨[97, 46, 105, 108], .refl true⟩, 0, 0, []⟩

theorem planEncryptionInputs_aliases_two :
    let env := Env.calm .checksummed
    let a : Path := .absolute [⟨[97, 46, 116, 120, 116], rfl⟩]
    let b : Path := .absolute [⟨[98, 46, 116, 120, 116], rfl⟩]
    let il : Path := .absolute [⟨[97, 46, 105, 108], rfl⟩]
    ∃ plans w', planEncryptionInputs env [a, b] defaultThere = (.ok plans, w') ∧
      KeepsDefault env defaultThere.fs [a, b] a ∧ (∃ i, defaultThere.fs.IsFile il i) ∧
      DefaultsApart env defaultThere.fs [a, b] ∧ OutputsApart defaultThere.fs plans := by
  intro env a b il
  let w₁ : World := (collectInputsFrom env false [a, b] [] defaultThere).2
  have hcollect : collectInputs env [a, b] false defaultThere = (.ok [a, b], w₁) :=
    collectInputs_ordered (Eff.run_eq_ok (by decide +kernel)) (by decide +kernel)
  obtain ⟨w', hrun, hdraws⟩ : ∃ w', planEncryptionInputs env [a, b] defaultThere =
      (.ok [⟨a, il⟩, ⟨b, .absolute [⟨[98, 46, 105, 108], rfl⟩]⟩], w') ∧ w'.draws = w₁.draws := by
    rw [planEncryptionInputs, Eff.bind_ok hcollect]
    exact ⟨_, Eff.run_eq_ok (by decide +kernel), by decide +kernel⟩
  have hil : defaultThere.fs.IsFile il 2 := ⟨[⟨[97, 46, 105, 108], rfl⟩], by decide +kernel⟩
  refine ⟨_, w', hrun, ⟨by decide +kernel, by decide +kernel⟩, ⟨2, hil⟩, ?_⟩
  obtain ⟨sources, w₂, hsources, -, -, hiff⟩ :=
    planEncryptionInputs_aliases (Env.calm_quiet _) (Env.calm_faultless _) hrun
  rw [hcollect] at hsources
  cases hsources
  have hapart : DefaultsApart env defaultThere.fs [a, b] := by
    intro s hs _ t ht hne
    rcases List.mem_pair.1 hs with rfl | rfl <;> rcases List.mem_pair.1 ht with rfl | rfl
    · exact absurd rfl hne
    · rintro ⟨i, hi, hj⟩
      have hsecond : defaultThere.fs.IsFile b 0 := ⟨[⟨[98, 46, 116, 120, 116], rfl⟩], by decide +kernel⟩
      cases (hi.unique hil).symm.trans (hj.unique hsecond)
    · rintro ⟨i, ⟨names, hr, hi⟩, -⟩
      have habsent : ((defaultThere.fs.resolve false (defaultPath b)).toOption.bind defaultThere.fs.node) = none := by
        decide +kernel
      rw [hr] at habsent
      exact Option.some_ne_none _ (hi.symm.trans habsent)
    · exact absurd rfl hne
  refine ⟨hapart, (hiff ?_).2 hapart⟩
  intro s _ t _ j hle hlt
  exact absurd hlt (Nat.not_lt.2 (hdraws ▸ hle))

/-- A default output that is another name of another source is kept. -/
theorem linkedDefault_kept :
    let env := Env.calm .checksummed
    let a : Path := .absolute [⟨[97, 46, 116, 120, 116], rfl⟩]
    let b : Path := .absolute [⟨[98, 46, 116, 120, 116], rfl⟩]
    let il : Path := .absolute [⟨[97, 46, 105, 108], rfl⟩]
    env.Quiet ∧ env.Faultless ∧ (∀ d n, linkedDefault.fs.fold d n = n) ∧ linkedDefault.fs.LinkFree ∧
    ∃ plans w', planEncryptionInputs env [a, b] linkedDefault = (.ok plans, w') ∧ ⟨a, il⟩ ∈ plans ∧
      b ∈ plans.map (·.source) ∧ linkedDefault.fs.Aliased il b ∧ ¬OutputsApart linkedDefault.fs plans := by
  intro env a b il
  have hfree : linkedDefault.fs.LinkFree := by
    have hfiles : twoTexts.LinkFree := ((Fs.linkFree_blank []).create (d := []) rfl (by decide +kernel)).create
      (d := []) rfl (by decide +kernel)
    exact hfiles.added (d := []) (n := ⟨[97, 46, 105, 108], rfl⟩)
      (.update rfl rfl (@Fs.put_nodeAt twoTexts _ _ _ twoTexts_inode) (.inl (by decide +kernel)) nofun) rfl
      (@Fs.put_nodeAt twoTexts _ _ _ twoTexts_inode)
  let w₁ : World := (collectInputsFrom env false [a, b] [] linkedDefault).2
  have hcollect : collectInputs env [a, b] false linkedDefault = (.ok [a, b], w₁) :=
    collectInputs_ordered (Eff.run_eq_ok (by decide +kernel)) (by decide +kernel)
  obtain ⟨w', hrun⟩ : ∃ w', planEncryptionInputs env [a, b] linkedDefault =
      (.ok [⟨a, il⟩, ⟨b, .absolute [⟨[98, 46, 105, 108], rfl⟩]⟩], w') := by
    rw [planEncryptionInputs, Eff.bind_ok hcollect]
    exact ⟨_, Eff.run_eq_ok (by decide +kernel)⟩
  have halias : linkedDefault.fs.Aliased il b :=
    ⟨0, ⟨[⟨[97, 46, 105, 108], rfl⟩], by decide +kernel⟩, ⟨[⟨[98, 46, 116, 120, 116], rfl⟩], by decide +kernel⟩⟩
  refine ⟨Env.calm_quiet _, Env.calm_faultless _, fun _ _ => rfl, hfree, _, w', hrun, by simp, by simp, halias, ?_⟩
  intro hout
  exact hout ⟨a, il⟩ (by simp) ⟨b, _⟩ (List.mem_cons_of_mem _ List.mem_cons_self) halias

end Ironlock
