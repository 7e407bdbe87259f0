import Ironlock.Collection
import Ironlock.Decoding
import Ironlock.SecureFs.Names

/-! Planning the encryption of files in a tree: which batches are accepted, and
which output each source is given. -/

namespace Ironlock
open ByteOrder (Bytes)
open Effect
open Fs (Identity Metadata SysCall)

/-- `<stem>.il`, beside the source. -/
def defaultPath (source : Path) : Path :=
  source.parentOrEmpty.joinRaw (source.fileStem.getD [] ++ [dot] ++ ironlockExtension)

/-- `<stem>-<suffix>.il`, beside the source. -/
def suffixedPath (source : Path) (suffix : UInt64) : Path :=
  source.parentOrEmpty.joinRaw
    (source.fileStem.getD [] ++ ascii "-" ++ hex16 suffix ++ [dot] ++ ironlockExtension)

/-- The key of a path, empty when it has none. -/
def Fs.keyOf (env : Env) (fs : Fs) (p : Path) : Bytes := (fs.pathKey env p).toOption.getD []

/-- The same file by path, or by hard link. -/
def Fs.SameFile (env : Env) (fs : Fs) (p q : Path) : Prop :=
  fs.keyOf env p = fs.keyOf env q ∨ ∃ i, fs.IsFile p i ∧ fs.IsFile q i

/-- As many suffixes as there are sources, drawn from the `k`th draw on, are
fresh: an output with one of them is not there, and its key is neither that of
a source or of a default output nor that of an output with another of them. -/
structure FreshSuffixes (env : Env) (fs : Fs) (k : Nat) (sources : List Path) : Prop where
  absent : ∀ s ∈ sources, ∀ j < sources.length, ¬fs.Exists (suffixedPath s (env.nextU64 (k + j)))
  not_source : ∀ s ∈ sources, ∀ j < sources.length, ∀ t ∈ sources,
    fs.keyOf env (suffixedPath s (env.nextU64 (k + j))) ≠ fs.keyOf env t
  not_default : ∀ s ∈ sources, ∀ j < sources.length, ∀ t ∈ sources,
    fs.keyOf env (suffixedPath s (env.nextU64 (k + j))) ≠ fs.keyOf env (defaultPath t)
  apart : ∀ s ∈ sources, ∀ t ∈ sources, ∀ i < sources.length, ∀ j < sources.length, i ≠ j →
    fs.keyOf env (suffixedPath s (env.nextU64 (k + i))) ≠
      fs.keyOf env (suffixedPath t (env.nextU64 (k + j)))

/-- A source's default output is its own: no other source shares it, and no
source is it. -/
def OwnsDefault (env : Env) (fs : Fs) (sources : List Path) (s : Path) : Prop :=
  (∀ t ∈ sources, t ≠ s → fs.keyOf env (defaultPath t) ≠ fs.keyOf env (defaultPath s)) ∧
    ∀ t ∈ sources, ¬fs.SameFile env t (defaultPath s)

/-- What a planned batch is, for the files collected. -/
structure Planned (env : Env) (fs : Fs) (files : List Path) (plans : List EncryptionPlan) : Prop where
  sources : (plans.map (·.source)).Perm files
  once : (plans.map (·.source)).Nodup
  sorted : (plans.map (·.source)).Pairwise fun p q => p.le q = true
  beside : ∀ plan ∈ plans, ∃ d m n, fs.At plan.source d m ∧ fs.At plan.output d n
  encrypted : ∀ plan ∈ plans, plan.output.encrypted = true
  outputs : plans.Pairwise fun a b => fs.keyOf env a.output ≠ fs.keyOf env b.output
  apart : ∀ plan ∈ plans, ∀ other ∈ plans, fs.keyOf env plan.output ≠ fs.keyOf env other.source
  default : ∀ plan ∈ plans, OwnsDefault env fs files plan.source → plan.output = defaultPath plan.source

/-! ## Sources and their outputs -/

section
variable {env : Env} {fs : Fs} {k : Nat} {p s t : Path} {i : Nat}

theorem encrypted_of_extension {q : Path} {n : Name} (h : n.extension = some ironlockExtension) :
    (q.push (.name n)).encrypted = true := by
  have hvalid : Utf8.valid ironlockExtension = true := by decide
  simp [Path.encrypted, Path.extension, h, toStr, Str.ofBytes?, hvalid]

namespace Fs.Tree

theorem keyOf_eq (ht : fs.Tree) {d : List Name} {n : Name} (h : fs.At p d n) :
    fs.keyOf env p = keyText env (.absolute (d ++ [n])) := by
  simp [Fs.keyOf, ht.pathKey h, Except.toOption]

theorem key_answers (ht : fs.Tree) (hq : env.Quiet) (hf : env.Faultless) {d : List Name} {n : Name}
    (h : fs.At p d n) : Answers fs k (normalizedPathKey env p) (.ok (fs.keyOf env p)) k := by
  rw [ht.keyOf_eq h]
  exact normalizedPathKey_answers hq hf (ht.pathKey h)

/-- An output made of a source's stem is in the source's directory. -/
theorem at_joinRaw (ht : fs.Tree) {d : List Name} {m : Name} (h : fs.At s d m)
    (hm : fs.nodeAt (d ++ [m]) = some (.file i)) {tail : Bytes} (hslash : slash ∉ tail)
    (hnul : 0 ∉ tail) (hlen : 2 ≤ tail.length) :
    ∃ n, fs.At (s.parentOrEmpty.joinRaw (m.stem ++ tail)) d n ∧ n.bytes = m.stem ++ tail ∧
      s.parentOrEmpty.joinRaw (m.stem ++ tail) = s.parentOrEmpty.push (.name n) := by
  have hvalid : validName (m.stem ++ tail) = true := by
    apply validName_of_length
    · simp only [List.mem_append, not_or]
      exact ⟨fun h => m.slash_not_mem (Name.stem_subset h), hslash⟩
    · have := List.length_pos_iff.2 m.stem_ne_nil
      rw [List.length_append]
      omega
  obtain ⟨n, hjoin, hbytes⟩ := joinRaw_valid s.parentOrEmpty hvalid
  obtain ⟨q, hparent, rfl, hplain⟩ := h.parent
  have hq : (q.push (.name m)).parentOrEmpty = q := by rw [Path.parentOrEmpty, hparent, Option.getD_some]
  refine ⟨n, ?_, hbytes, hjoin⟩
  rw [hjoin, hq]
  refine hplain.at_push ?_
  have hstem : 0 ∉ m.bytes := by simpa using (ht.valid_name hm).2
  rw [hbytes]
  simp only [List.contains_eq_mem, decide_eq_false_iff_not, List.mem_append, not_or]
  exact ⟨fun h => hstem (Name.stem_subset h), hnul⟩

theorem fileStem_at {d : List Name} {m : Name} (h : fs.At s d m) : s.fileStem = some m.stem := by
  obtain ⟨q, -, rfl, -⟩ := h.parent
  simp [Path.fileStem]

/-- What a tree's file has for a default output. -/
theorem defaultPath_at (ht : fs.Tree) {d : List Name} {m : Name} (h : fs.At s d m)
    (hm : fs.nodeAt (d ++ [m]) = some (.file i)) :
    (∃ n, fs.At (defaultPath s) d n) ∧ (defaultPath s).encrypted = true ∧
      defaultEncryptedPath s = .ok (defaultPath s) := by
  have hstem := fileStem_at h
  have hslash : slash ∉ [dot] ++ ironlockExtension := by decide
  obtain ⟨n, hat, hbytes, hjoin⟩ := ht.at_joinRaw h hm hslash (by decide) (by decide)
  have hpath : defaultPath s = s.parentOrEmpty.joinRaw (m.stem ++ ([dot] ++ ironlockExtension)) := by
    rw [defaultPath, hstem, Option.getD_some, List.append_assoc]
  refine ⟨⟨n, by rw [hpath]; exact hat⟩, ?_, ?_⟩
  · rw [hpath, hjoin]
    refine encrypted_of_extension (Name.extension_eq_some ?_ m.stem_ne_nil (by decide))
    rw [hbytes, List.append_assoc]
  · have hvalid := Name.stem_valid (ht.valid_name hm).1
    simp only [defaultEncryptedPath, hstem, toStr, Option.bind_some, Str.ofBytes?, hvalid,
      dif_pos, defaultPath, Option.getD_some]

/-- What it has for an output with a suffix. -/
theorem suffixedPath_at (ht : fs.Tree) {d : List Name} {m : Name} (h : fs.At s d m)
    (hm : fs.nodeAt (d ++ [m]) = some (.file i)) (suffix : UInt64) :
    (∃ n, fs.At (suffixedPath s suffix) d n) ∧ (suffixedPath s suffix).encrypted = true := by
  have hstem := fileStem_at h
  let tail := ascii "-" ++ hex16 suffix ++ ([dot] ++ ironlockExtension)
  have hslash : slash ∉ tail := by
    simp only [tail, List.mem_append, not_or]
    exact ⟨⟨by decide, slash_not_mem_hex16 _⟩, by decide⟩
  have hnul : 0 ∉ tail := by
    simp only [tail, List.mem_append, not_or]
    exact ⟨⟨by decide, fun h => (hex16_plain h).2.2 rfl⟩, by decide⟩
  have hlen : 2 ≤ tail.length := by simp [tail, length_hex16]; omega
  obtain ⟨n, hat, hbytes, hjoin⟩ := ht.at_joinRaw h hm hslash hnul hlen
  have hpath : suffixedPath s suffix = s.parentOrEmpty.joinRaw (m.stem ++ tail) := by
    simp only [suffixedPath, hstem, Option.getD_some, List.append_assoc, tail]
  refine ⟨⟨n, by rw [hpath]; exact hat⟩, ?_⟩
  rw [hpath, hjoin]
  refine encrypted_of_extension (Name.extension_eq_some (x := m.stem ++ ascii "-" ++ hex16 suffix) ?_
    (by simp [m.stem_ne_nil]) (by decide))
  simp only [hbytes, tail, List.append_assoc]

/-- Opening a name that is there finds the file or directory there. -/
theorem openRead_at (ht : fs.Tree) {d : List Name} {n : Name} {x : Node} (h : fs.At p d n)
    (hx : fs.nodeAt (d ++ [n]) = some x) : ∃ handle, fs.openRead p = (.ok handle, fs) ∧
      ∀ i, handle = .file i ↔ fs.IsFile p i := by
  have hr {follow : Bool} : fs.resolve follow p = .ok (d ++ [n]) := h.resolve (.inr (ht.no_link _))
  have hopen : fs.openRead p = (fs.identity (d ++ [n]) x, fs) := by
    simp only [Fs.openRead, look, hr, ht.node, hx]
  have hfile (i : Nat) : fs.IsFile p i ↔ x = .file i := by
    constructor
    · rintro ⟨names, hnames, hi⟩
      rw [hr] at hnames
      cases hnames
      rw [ht.node, hx] at hi
      exact Option.some.inj hi
    · rintro rfl
      exact ⟨_, hr, by rw [ht.node]; exact hx⟩
  rcases ht.kinds _ _ hx with rfl | ⟨j, rfl⟩
  · exact ⟨_, hopen, fun i => by simp [hfile]⟩
  · exact ⟨_, hopen, fun i => by simp [hfile]⟩

end Fs.Tree

/-! ## Registering -/

/-- A tree with the files of a batch, each known by its inode. -/
structure Batch (fs : Fs) (sources : List Path) (inode : Path → Nat) : Prop where
  tree : fs.Tree
  files : ∀ s ∈ sources, fs.IsFile s (inode s)

section
variable {sources : List Path} {inode : Path → Nat}

theorem Batch.tail (h : Batch fs (s :: sources) inode) : Batch fs sources inode :=
  ⟨h.tree, fun t ht => h.files t (List.mem_cons_of_mem _ ht)⟩

theorem Batch.at_source (h : Batch fs sources inode) (hs : s ∈ sources) :
    ∃ d m, fs.At s d m ∧ fs.nodeAt (d ++ [m]) = some (.file (inode s)) := h.tree.at_of_isFile (h.files s hs)

theorem Batch.key_answers (h : Batch fs sources inode) (hq : env.Quiet) (hf : env.Faultless)
    (hs : s ∈ sources) : Answers fs k (normalizedPathKey env s) (.ok (fs.keyOf env s)) k := by
  obtain ⟨d, m, hat, -⟩ := h.at_source hs
  exact h.tree.key_answers hq hf hat

theorem Batch.handle_answers (h : Batch fs sources inode) (hq : env.Quiet) (hf : env.Faultless)
    (hs : s ∈ sources) : Answers fs k (Sys.handleFromPath env s) (.ok (.file (inode s))) k := by
  obtain ⟨d, m, hat, hm⟩ := h.at_source hs
  obtain ⟨handle, hopen, hhandle⟩ := h.tree.openRead_at hat hm
  rw [(hhandle _).2 (h.files s hs)] at hopen
  exact handleFromPath_answers hq hf hopen

theorem Batch.sameFile_iff (h : Batch fs sources inode) (hs : s ∈ sources) (ht : t ∈ sources) :
    fs.SameFile env s t ↔ fs.keyOf env s = fs.keyOf env t ∨ inode s = inode t := by
  refine or_congr Iff.rfl ⟨?_, fun heq => ⟨inode s, h.files s hs, heq ▸ h.files t ht⟩⟩
  rintro ⟨i, hsi, hti⟩
  rw [(h.files s hs).unique hsi, (h.files t ht).unique hti]

/-- Sources whose keys and inodes all differ are registered. -/
theorem registerSources_answers (hq : env.Quiet) (hf : env.Faultless) (h : Batch fs sources inode)
    {keys : List Bytes} {handles : List Identity}
    (hkeys : ((sources.map (fs.keyOf env)).reverse ++ keys).Nodup)
    (hhandles : ((sources.map fun s => Identity.file (inode s)).reverse ++ handles).Nodup) :
    Answers fs k (registerSources env sources keys handles)
      (.ok ((sources.map (fs.keyOf env)).reverse ++ keys,
        (sources.map fun s => Identity.file (inode s)).reverse ++ handles)) k := by
  induction sources generalizing keys handles with
  | nil => exact .pure _
  | cons s sources ih =>
    simp only [List.map_cons, List.reverse_cons, List.append_assoc, List.singleton_append] at hkeys hhandles ⊢
    refine .bind (h.key_answers hq hf List.mem_cons_self)
      (.bind (h.handle_answers hq hf List.mem_cons_self) (.ite_neg ?_ (ih h.tail hkeys hhandles)))
    rintro (hmem | hmem)
    · exact (List.nodup_cons.1 (List.nodup_append.1 hkeys).2.1).1 hmem
    · exact (List.nodup_cons.1 (List.nodup_append.1 hhandles).2.1).1 hmem

/-- Registered sources have keys and inodes that all differ. -/
theorem registerSources_nodup (hq : env.Quiet) (hf : env.Faultless) (h : Batch fs sources inode)
    {keys : List Bytes} {handles : List Identity} (hkeys : keys.Nodup) (hhandles : handles.Nodup)
    {w w' : World} (hw : w.seen = (fs, k)) {r : List Bytes × List Identity}
    (hrun : registerSources env sources keys handles w = (.ok r, w')) :
    ((sources.map (fs.keyOf env)).reverse ++ keys).Nodup ∧
      ((sources.map fun s => Identity.file (inode s)).reverse ++ handles).Nodup := by
  induction sources generalizing keys handles w with
  | nil => exact ⟨hkeys, hhandles⟩
  | cons s sources ih =>
    obtain ⟨key, w₁, hkey, hrun⟩ := Eff.bind_eq_ok.1 hrun
    obtain ⟨heq, hw₁⟩ := (h.key_answers hq hf List.mem_cons_self).unique hw hkey
    cases heq
    obtain ⟨handle, w₂, hhandle, hrun⟩ := Eff.bind_eq_ok.1 hrun
    obtain ⟨heq, hw₂⟩ := (h.handle_answers hq hf List.mem_cons_self).unique hw₁ hhandle
    cases heq
    split at hrun
    · cases hrun
    rename_i hnew
    rw [not_or] at hnew
    have := ih h.tail (List.nodup_cons.2 ⟨hnew.1, hkeys⟩) (List.nodup_cons.2 ⟨hnew.2, hhandles⟩) hw₂ hrun
    simpa only [List.map_cons, List.reverse_cons, List.append_assoc, List.singleton_append] using this

/-- No two sources are the same file exactly when their keys and inodes all differ. -/
theorem Batch.pairwise_iff (h : Batch fs sources inode) :
    (sources.Pairwise fun s t => ¬fs.SameFile env s t) ↔
      ((sources.map (fs.keyOf env)).reverse ++ []).Nodup ∧
        ((sources.map fun s => Identity.file (inode s)).reverse ++ []).Nodup := by
  rw [List.append_nil, List.append_nil, List.nodup_reverse, List.nodup_reverse, List.Nodup, List.Nodup,
    List.pairwise_map, List.pairwise_map, ← List.pairwise_and_iff]
  constructor
  · refine fun hpair => hpair.imp_of_mem fun {s t} hs ht hne => ?_
    rw [h.sameFile_iff hs ht, not_or] at hne
    exact ⟨hne.1, by simpa using hne.2⟩
  · refine fun hpair => hpair.imp_of_mem fun {s t} hs ht hne => ?_
    rw [h.sameFile_iff hs ht, not_or]
    exact ⟨hne.1, by simpa using hne.2⟩

/-! ## Default outputs -/

theorem Batch.defaultEncryptedPaths (h : Batch fs sources inode) :
    defaultEncryptedPaths sources = .ok (sources.map defaultPath) := by
  induction sources with
  | nil => rfl
  | cons s sources ih =>
    obtain ⟨d, m, hat, hm⟩ := h.at_source List.mem_cons_self
    simp only [Ironlock.defaultEncryptedPaths, (h.tree.defaultPath_at hat hm).2.2, ih h.tail]
    rfl

theorem Batch.default_at (h : Batch fs sources inode) (hs : s ∈ sources) :
    ∃ d n, fs.At (defaultPath s) d n := by
  obtain ⟨d, m, hat, hm⟩ := h.at_source hs
  obtain ⟨⟨n, hn⟩, -⟩ := h.tree.defaultPath_at hat hm
  exact ⟨d, n, hn⟩

theorem Batch.defaultKey_answers (h : Batch fs sources inode) (hq : env.Quiet) (hf : env.Faultless)
    (hs : s ∈ sources) :
    Answers fs k (normalizedPathKey env (defaultPath s)) (.ok (fs.keyOf env (defaultPath s))) k := by
  obtain ⟨d, n, hat⟩ := h.default_at hs
  exact h.tree.key_answers hq hf hat

theorem pathKeys_answers (hq : env.Quiet) (hf : env.Faultless) (h : Batch fs sources inode) :
    Answers fs k (pathKeys env (sources.map defaultPath))
      (.ok (sources.map fun s => fs.keyOf env (defaultPath s))) k := by
  induction sources with
  | nil => exact .pure _
  | cons s sources ih =>
    exact .bind (h.defaultKey_answers hq hf List.mem_cons_self) (.bind (ih h.tail) (.pure _))

theorem pathsReferToSameFile_answers (hq : env.Quiet) (hf : env.Faultless) (h : Batch fs sources inode)
    (hs : s ∈ sources) : ∃ same, Answers fs k (pathsReferToSameFile env s (defaultPath s)) (.ok same) k ∧
      (same = true ↔ fs.SameFile env s (defaultPath s)) := by
  obtain ⟨d, n, hat⟩ := h.default_at hs
  have hkeys {r : Bool} {m : FsM Bool} (hne : fs.keyOf env s ≠ fs.keyOf env (defaultPath s))
      (hm : Answers fs k m (.ok r) k) :
      Answers fs k (do
        let sourceKey ← normalizedPathKey env s
        let outputKey ← normalizedPathKey env (defaultPath s)
        if sourceKey = outputKey then return true else m) (.ok r) k :=
    .bind (h.key_answers hq hf hs) (.bind (h.defaultKey_answers hq hf hs) (.ite_neg hne hm))
  by_cases heq : fs.keyOf env s = fs.keyOf env (defaultPath s)
  · refine ⟨true, .bind (h.key_answers hq hf hs) (.bind (h.defaultKey_answers hq hf hs)
      (.ite_pos heq (.pure _))), ?_⟩
    simpa using .inl heq
  have hr {follow : Bool} : fs.resolve follow (defaultPath s) = .ok (d ++ [n]) :=
    hat.resolve (.inr (h.tree.no_link _))
  rcases hx : fs.nodeAt (d ++ [n]) with _ | x
  · refine ⟨false, hkeys heq (.bind (try_answers hq hf (r := .error (.os .notFound)) ?_)
      (.ite_pos rfl (.pure _))), ?_⟩
    · simp only [Fs.symlinkMetadata, Fs.look, hr, h.tree.node, hx]
    · simp only [Bool.false_eq_true, false_iff]
      rintro (hkey | ⟨i, -, names, hnames, hi⟩)
      · exact heq hkey
      · rw [hr] at hnames
        cases hnames
        rw [h.tree.node, hx] at hi
        cases hi
  · obtain ⟨handle, hopen, hhandle⟩ := h.tree.openRead_at hat hx
    have hlink : (⟨x, fs.size x⟩ : Metadata).isSymlink = false := by
      rcases h.tree.kinds _ _ hx with rfl | ⟨i, rfl⟩ <;> rfl
    have hlook := symlinkMetadata_answers (k := k) hq hf hr (by rw [h.tree.node]; exact hx)
    refine ⟨decide (.file (inode s) = handle), hkeys heq (.bind hlook (.bind (rejectLink_answers hlink)
      (.bind (h.handle_answers hq hf hs) (.bind (handleFromPath_answers hq hf hopen) (.pure _))))), ?_⟩
    rw [decide_eq_true_eq, eq_comm, hhandle]
    constructor
    · exact fun hi => .inr ⟨inode s, h.files s hs, hi⟩
    · rintro (hkey | ⟨i, hsi, hi⟩)
      · exact absurd hkey heq
      · rwa [(h.files s hs).unique hsi]

/-! ## Outputs -/

theorem collides_answers (hq : env.Quiet) (hf : env.Faultless) (h : Batch fs sources inode)
    (hs : s ∈ sources) (defaultKeys taken : List Bytes) :
    ∃ b, Answers fs k (collides env defaultKeys taken s (defaultPath s)) (.ok b) k ∧
      (b = true ↔ 1 < defaultKeys.count (fs.keyOf env (defaultPath s)) ∨
        fs.keyOf env (defaultPath s) ∈ taken ∨ fs.SameFile env s (defaultPath s)) := by
  have hkey := h.defaultKey_answers (k := k) hq hf hs
  by_cases hc : 1 < defaultKeys.count (fs.keyOf env (defaultPath s)) ∨
      fs.keyOf env (defaultPath s) ∈ taken
  · refine ⟨true, .bind hkey (.ite_pos hc (.pure _)), ?_⟩
    simp only [true_iff]
    exact hc.imp_right .inl
  · obtain ⟨same, hsame, hiff⟩ := pathsReferToSameFile_answers (k := k) hq hf h hs
    refine ⟨same, .bind hkey (.ite_neg hc hsame), ?_⟩
    rw [not_or] at hc
    simp only [hiff, hc, false_or]

/-- The first suffix drawn is taken when its output is not there and its key is free. -/
theorem uniqueEncryptedPath_answers (hq : env.Quiet) (hf : env.Faultless) (h : Batch fs sources inode)
    (hs : s ∈ sources) {taken : List Bytes}
    (hfree : fs.keyOf env (suffixedPath s (env.nextU64 k)) ∉ taken)
    (habsent : ¬fs.Exists (suffixedPath s (env.nextU64 k))) :
    Answers fs k (uniqueEncryptedPath env s taken) (.ok (suffixedPath s (env.nextU64 k))) (k + 1) := by
  obtain ⟨d, m, hat, hm⟩ := h.at_source hs
  obtain ⟨⟨n, hn⟩, -⟩ := h.tree.suffixedPath_at hat hm (env.nextU64 k)
  have hvalid := Name.stem_valid (h.tree.valid_name hm).1
  have hstem := Fs.Tree.fileStem_at hat
  have hsome : toStr s.fileStem = some ⟨m.stem, hvalid⟩ := by
    simp only [hstem, toStr, Option.bind_some, Str.ofBytes?, hvalid, dif_pos]
  have hcandidate : s.parentOrEmpty.joinRaw (m.stem ++ ascii "-" ++ hex16 (env.nextU64 k) ++ [dot] ++
      ironlockExtension) = suffixedPath s (env.nextU64 k) := by
    rw [suffixedPath, hstem, Option.getD_some]
  have hr {follow : Bool} : fs.resolve follow (suffixedPath s (env.nextU64 k)) = .ok (d ++ [n]) :=
    hn.resolve (.inr (h.tree.no_link _))
  have hnone : fs.node (d ++ [n]) = none := by
    rcases hx : fs.node (d ++ [n]) with _ | x
    · rfl
    · exact absurd ⟨_, x, hr, hx⟩ habsent
  have hmeta : Fs.metadata (suffixedPath s (env.nextU64 k)) fs = (.error (.os .notFound), fs) := by
    simp only [Fs.metadata, Fs.look, hr, hnone]
  rw [uniqueEncryptedPath, hsome]
  change Answers fs k (uniqueEncryptedPathIn env s ⟨m.stem, hvalid⟩ taken (127 + 1)) _ _
  rw [uniqueEncryptedPathIn]
  refine .bind (draw_answers _) ?_
  simp only [hcandidate]
  exact .bind (h.tree.key_answers hq hf hn) (.ite_neg hfree
    (.bind (.bind (try_answers hq hf hmeta) (.pure _)) (.ite_neg (by simp [Except.isOk, Except.toBool])
      (.pure _))))

/-- Where a taken key comes from when `a` suffixes have been drawn: from a
source, from the default output of one already planned, or from an output with
one of these suffixes. -/
def Taken (env : Env) (fs : Fs) (sources planned : List Path) (k a : Nat) (key : Bytes) : Prop :=
  key ∈ sources.map (fs.keyOf env) ∨ (∃ t ∈ planned, key = fs.keyOf env (defaultPath t)) ∨
    ∃ t ∈ sources, ∃ j < a, key = fs.keyOf env (suffixedPath t (env.nextU64 (k + j)))

theorem Taken.mono {planned : List Path} {a b : Nat} {key : Bytes} (h : Taken env fs sources planned k a key)
    (hab : a ≤ b) : Taken env fs sources (planned ++ [s]) k b key := by
  rcases h with h | ⟨t, ht, rfl⟩ | ⟨t, ht, j, hj, rfl⟩
  · exact .inl h
  · exact .inr (.inl ⟨t, List.mem_append_left _ ht, rfl⟩)
  · exact .inr (.inr ⟨t, ht, j, hj.trans_le hab, rfl⟩)

/-- A key that a source has counts more than once when another source has it. -/
theorem one_lt_count_map {f : Path → Bytes} (honce : sources.Nodup) (hs : s ∈ sources) :
    1 < (sources.map f).count (f s) ↔ ∃ t ∈ sources, t ≠ s ∧ f t = f s := by
  rw [((List.perm_cons_erase hs).map f).count_eq, List.map_cons, List.count_cons_self,
    Nat.lt_add_left_iff_pos, List.count_pos_iff]
  constructor
  · intro hmem
    obtain ⟨t, ht, heq⟩ := List.mem_map.1 hmem
    obtain ⟨hne, ht⟩ := honce.mem_erase_iff.1 ht
    exact ⟨t, ht, hne, heq⟩
  · rintro ⟨t, ht, hne, heq⟩
    rw [← heq]
    exact List.mem_map_of_mem (honce.mem_erase_iff.2 ⟨hne, ht⟩)

/-- What the planner finds for one source: an output whose key is free. -/
structure Found (env : Env) (fs : Fs) (sources planned : List Path) (taken : List Bytes) (k a : Nat)
    (s output : Path) : Prop where
  path : output = defaultPath s ∨ ∃ suffix, output = suffixedPath s suffix
  free : fs.keyOf env output ∉ taken
  origin : Taken env fs sources (planned ++ [s]) k a (fs.keyOf env output)
  default : OwnsDefault env fs sources s → output = defaultPath s

theorem planOutput_answers (hq : env.Quiet) (hf : env.Faultless) {planned rest : List Path}
    (h : Batch fs (planned ++ s :: rest) inode) (honce : (planned ++ s :: rest).Nodup)
    (hfresh : FreshSuffixes env fs k (planned ++ s :: rest)) {taken : List Bytes} {a : Nat}
    (ha : a ≤ planned.length)
    (htaken : ∀ key ∈ taken, Taken env fs (planned ++ s :: rest) planned k a key) :
    ∃ output b, b ≤ a + 1 ∧ a ≤ b ∧
      Answers fs (k + a)
        (planOutput env ((planned ++ s :: rest).map fun t => fs.keyOf env (defaultPath t)) taken s (defaultPath s))
        (.ok (output, fs.keyOf env output)) (k + b) ∧
      Found env fs (planned ++ s :: rest) planned taken k b s output := by
  have hs : s ∈ planned ++ s :: rest := by simp
  have hlt : a < (planned ++ s :: rest).length := by
    rw [List.length_append, List.length_cons]
    omega
  obtain ⟨b, hcollides, hb⟩ := collides_answers (k := k + a) hq hf h hs
    ((planned ++ s :: rest).map fun t => fs.keyOf env (defaultPath t)) taken
  cases b with
  | false =>
    have hno := mt hb.2 (by simp)
    rw [not_or, not_or] at hno
    exact ⟨defaultPath s, a, Nat.le_succ a, le_refl a,
      .bind hcollides (.bind (.pure _) (.bind (h.defaultKey_answers hq hf hs)
        (.ite_neg hno.2.1 (.pure _)))),
      .inl rfl, hno.2.1, .inr (.inl ⟨s, by simp, rfl⟩), fun _ => rfl⟩
  | true =>
    have hfree : fs.keyOf env (suffixedPath s (env.nextU64 (k + a))) ∉ taken := by
      intro hmem
      rcases htaken _ hmem with hsource | ⟨t, ht, heq⟩ | ⟨t, ht, j, hj, heq⟩
      · obtain ⟨t, ht, heq⟩ := List.mem_map.1 hsource
        exact hfresh.not_source s hs a hlt t ht heq.symm
      · exact hfresh.not_default s hs a hlt t (List.mem_append_left _ ht) heq
      · exact hfresh.apart s hs t ht a hlt j (hj.trans hlt) hj.ne' heq
    obtain ⟨d, m, hat, hm⟩ := h.at_source hs
    obtain ⟨⟨n, hn⟩, -⟩ := h.tree.suffixedPath_at hat hm (env.nextU64 (k + a))
    refine ⟨suffixedPath s (env.nextU64 (k + a)), a + 1, le_refl _, Nat.le_succ a,
      .bind hcollides (.bind (uniqueEncryptedPath_answers hq hf h hs hfree (hfresh.absent s hs a hlt))
        (.bind (h.tree.key_answers hq hf hn) (.ite_neg hfree (.pure _)))),
      .inr ⟨_, rfl⟩, hfree, .inr (.inr ⟨s, hs, a, Nat.lt_succ_self a, rfl⟩), fun hown => ?_⟩
    -- a default of its own does not collide
    exfalso
    rcases hb.1 rfl with hcount | hmem | hsame
    · obtain ⟨t, ht, hne, heq⟩ := (one_lt_count_map (f := fun t => fs.keyOf env (defaultPath t)) honce hs).1 hcount
      exact hown.1 t ht hne heq
    · rcases htaken _ hmem with hsource | ⟨t, ht, heq⟩ | ⟨t, ht, j, hj, heq⟩
      · obtain ⟨t, ht, heq⟩ := List.mem_map.1 hsource
        exact hown.2 t ht (.inl heq)
      · have hne : t ≠ s := by
          rintro rfl
          exact (List.nodup_middle.1 honce |> List.nodup_cons.1).1 (List.mem_append_left _ ht)
        exact hown.1 t (List.mem_append_left _ ht) hne heq.symm
      · exact hfresh.not_default t ht j (hj.trans hlt) s hs heq.symm
    · exact hown.2 s hs hsame

/-- What the planner makes of the sources that are left. -/
structure Outputs (env : Env) (fs : Fs) (sources rest : List Path) (taken : List Bytes)
    (plans : List EncryptionPlan) : Prop where
  order : plans.map (·.source) = rest
  paths : ∀ plan ∈ plans,
    plan.output = defaultPath plan.source ∨ ∃ suffix, plan.output = suffixedPath plan.source suffix
  free : ∀ plan ∈ plans, fs.keyOf env plan.output ∉ taken
  apart : plans.Pairwise fun a b => fs.keyOf env a.output ≠ fs.keyOf env b.output
  default : ∀ plan ∈ plans, OwnsDefault env fs sources plan.source → plan.output = defaultPath plan.source

theorem planOutputs_answers (hq : env.Quiet) (hf : env.Faultless) {planned rest : List Path}
    (h : Batch fs (planned ++ rest) inode) (honce : (planned ++ rest).Nodup)
    (hfresh : FreshSuffixes env fs k (planned ++ rest)) {taken : List Bytes} {a : Nat}
    (ha : a ≤ planned.length)
    (htaken : ∀ key ∈ taken, Taken env fs (planned ++ rest) planned k a key) :
    ∃ plans k', Answers fs (k + a)
        (planOutputs env ((planned ++ rest).map fun t => fs.keyOf env (defaultPath t))
          (rest.zip (rest.map defaultPath)) taken) (.ok plans) k' ∧
      Outputs env fs (planned ++ rest) rest taken plans := by
  induction rest generalizing planned taken a with
  | nil => exact ⟨[], _, .pure _, by constructor <;> simp⟩
  | cons s rest ih =>
    obtain ⟨output, b, hb, hab, hplan, hfound⟩ := planOutput_answers hq hf h honce hfresh ha htaken
    have happend : planned ++ s :: rest = (planned ++ [s]) ++ rest := by simp
    have htaken' : ∀ key ∈ fs.keyOf env output :: taken,
        Taken env fs (planned ++ [s] ++ rest) (planned ++ [s]) k b key := by
      intro key hkey
      rw [← happend]
      rcases List.mem_cons.1 hkey with rfl | hkey
      · exact hfound.origin
      · exact (htaken key hkey).mono hab
    obtain ⟨plans, k', hplans, hout⟩ := ih (by rwa [← happend]) (by rwa [← happend]) (by rwa [← happend])
      (by rw [List.length_append, List.length_singleton]; omega) htaken'
    rw [← happend] at hplans hout
    refine ⟨⟨s, output⟩ :: plans, k', .bind hplan (.bind hplans (.pure _)), ?_, ?_, ?_, ?_, ?_⟩
    · rw [List.map_cons, hout.order]
    · exact List.forall_mem_cons.2 ⟨hfound.path, hout.paths⟩
    · refine List.forall_mem_cons.2 ⟨hfound.free, fun plan hmem htaken => ?_⟩
      exact hout.free plan hmem (List.mem_cons_of_mem _ htaken)
    · refine List.pairwise_cons.2 ⟨fun plan hmem heq => ?_, hout.apart⟩
      refine hout.free plan hmem ?_
      rw [← heq]
      exact List.mem_cons_self
    · exact List.forall_mem_cons.2 ⟨hfound.default, hout.default⟩

end

/-! ## The whole plan -/

section
variable {files sources : List Path} {inode : Path → Nat} {plans : List EncryptionPlan}

theorem FreshSuffixes.perm (h : FreshSuffixes env fs k files) (hperm : sources.Perm files) :
    FreshSuffixes env fs k sources := by
  have hmem (s : Path) (hs : s ∈ sources) : s ∈ files := hperm.mem_iff.1 hs
  have hlen {j : Nat} (hj : j < sources.length) : j < files.length := hperm.length_eq ▸ hj
  constructor
  · exact fun s hs j hj => h.absent s (hmem s hs) j (hlen hj)
  · exact fun s hs j hj t ht => h.not_source s (hmem s hs) j (hlen hj) t (hmem t ht)
  · exact fun s hs j hj t ht => h.not_default s (hmem s hs) j (hlen hj) t (hmem t ht)
  · exact fun s hs t ht i hi j hj => h.apart s (hmem s hs) t (hmem t ht) i (hlen hi) j (hlen hj)

/-- The outputs of the loop, for all sources of a batch whose keys are taken. -/
theorem Outputs.planned (h : Outputs env fs sources sources taken plans) (hb : Batch fs sources inode)
    (hperm : sources.Perm files) (honce : sources.Nodup) (hsorted : sources.Pairwise fun p q => p.le q = true)
    (htaken : ∀ s ∈ sources, fs.keyOf env s ∈ taken) : Planned env fs files plans := by
  have hsource (plan : EncryptionPlan) (hplan : plan ∈ plans) : plan.source ∈ sources := by
    rw [← h.order]
    exact List.mem_map_of_mem hplan
  constructor
  · rw [h.order]
    exact hperm
  · rw [h.order]
    exact honce
  · rw [h.order]
    exact hsorted
  · intro plan hplan
    obtain ⟨d, m, hat, hm⟩ := hb.at_source (hsource plan hplan)
    rcases h.paths plan hplan with heq | ⟨suffix, heq⟩
    · obtain ⟨⟨n, hn⟩, -⟩ := hb.tree.defaultPath_at hat hm
      exact ⟨d, m, n, hat, by rw [heq]; exact hn⟩
    · obtain ⟨⟨n, hn⟩, -⟩ := hb.tree.suffixedPath_at hat hm suffix
      exact ⟨d, m, n, hat, by rw [heq]; exact hn⟩
  · intro plan hplan
    obtain ⟨d, m, hat, hm⟩ := hb.at_source (hsource plan hplan)
    rcases h.paths plan hplan with heq | ⟨suffix, heq⟩
    · rw [heq]
      exact (hb.tree.defaultPath_at hat hm).2.1
    · rw [heq]
      exact (hb.tree.suffixedPath_at hat hm suffix).2
  · exact h.apart
  · intro plan hplan other hother heq
    exact h.free plan hplan (heq ▸ htaken _ (hsource other hother))
  · intro plan hplan hown
    refine h.default plan hplan ⟨fun t ht => hown.1 t (hperm.mem_iff.1 ht), fun t ht => ?_⟩
    exact hown.2 t (hperm.mem_iff.1 ht)

/-- A batch in which no two files are the same is planned. -/
theorem planEncryptionInputs_answers (hq : env.Quiet) (hf : env.Faultless) {inputs : List Path}
    (hcollect : Answers fs k (collectInputs env inputs false) (.ok sources) k) (hb : Batch fs sources inode)
    (hperm : sources.Perm files) (hsorted : sources.Pairwise fun p q => p.le q = true)
    (hfresh : FreshSuffixes env fs k sources) (hpair : sources.Pairwise fun s t => ¬fs.SameFile env s t) :
    ∃ plans k', Answers fs k (planEncryptionInputs env inputs) (.ok plans) k' ∧
      Planned env fs files plans := by
  obtain ⟨hkeys, hhandles⟩ := hb.pairwise_iff.1 hpair
  have honce : sources.Nodup := by
    rw [List.append_nil, List.nodup_reverse] at hkeys
    exact hkeys.of_map
  have htaken : ∀ key ∈ (sources.map (fs.keyOf env)).reverse ++ [],
      Taken env fs ([] ++ sources) [] k 0 key := by
    intro key hkey
    exact .inl (List.mem_reverse.1 (by rwa [List.append_nil] at hkey))
  obtain ⟨plans, k', hplans, hout⟩ := @planOutputs_answers env fs k inode hq hf [] sources hb honce hfresh
    _ 0 (le_refl 0) htaken
  refine ⟨plans, k', .bind hcollect (.bind (registerSources_answers hq hf hb hkeys hhandles) ?_),
    hout.planned hb hperm honce hsorted ?_⟩
  · rw [hb.defaultEncryptedPaths]
    exact .bind (.ofExcept _) (.bind (pathKeys_answers hq hf hb) hplans)
  · intro s hs
    rw [List.append_nil, List.mem_reverse]
    exact List.mem_map_of_mem hs

end

/-! ## Keys on Linux -/

theorem render_absolute (l : List Name) :
    (Path.absolute l).render = slash :: List.intercalate [slash] (l.map Name.bytes) := by
  simp [Path.render, Path.absolute, Function.comp_def]

/-- Text that names places is different for different places. -/
theorem render_injective {l l' : List Name} (hl : l ≠ []) (hl' : l' ≠ [])
    (h : (Path.absolute l).render = (Path.absolute l').render) : l = l' := by
  rw [render_absolute, render_absolute, List.cons.injEq] at h
  have hsplit {l : List Name} (hl : l ≠ []) :
      (List.intercalate [slash] (l.map Name.bytes)).splitOn slash = l.map Name.bytes := by
    refine List.splitOn_intercalate slash (fun b hb => ?_) (by simpa using hl)
    obtain ⟨n, -, rfl⟩ := List.mem_map.1 hb
    exact n.slash_not_mem
  have := congrArg (List.splitOn slash) h.2
  rw [hsplit hl, hsplit hl'] at this
  exact List.map_injective_iff.2 (fun _ _ => Name.ext) this

theorem render_valid {l : List Name} (h : ∀ n ∈ l, Utf8.valid n.bytes = true) :
    Utf8.valid (Path.absolute l).render = true := by
  rw [render_absolute]
  have hslash : Utf8.valid [slash] = true := by decide
  refine Utf8.valid_append (a := [slash]) hslash (Utf8.valid_intercalate hslash fun b hb => ?_)
  obtain ⟨n, hn, rfl⟩ := List.mem_map.1 hb
  exact h n hn

namespace Fs.Tree

/-- Text is lost of no file's place. -/
theorem lossy_render (ht : fs.Tree) {d : List Name} {n : Name} (h : fs.nodeAt (d ++ [n]) = some (.file i)) :
    Utf8.lossy (Path.absolute (d ++ [n])).render = (Path.absolute (d ++ [n])).render :=
  Utf8.lossy_of_valid (render_valid fun _ hm => (ht.valid_names h hm).1)

/-- On Linux files have the same key exactly when they are at the same place. -/
theorem keyOf_iff (ht : fs.Tree) (hlinux : env.target = .linux) {q : Path} {j : Nat} (hp : fs.IsFile p i)
    (hq : fs.IsFile q j) :
    fs.keyOf env p = fs.keyOf env q ↔ fs.resolve false p = fs.resolve false q := by
  obtain ⟨d, n, hat, hn⟩ := ht.at_of_isFile hp
  obtain ⟨d', n', hat', hn'⟩ := ht.at_of_isFile hq
  rw [ht.keyOf_eq hat, ht.keyOf_eq hat', keyText, keyText, if_pos hlinux, if_pos hlinux, ht.lossy_render hn,
    ht.lossy_render hn', hat.resolve (.inl rfl), hat'.resolve (.inl rfl), Except.ok.injEq]
  exact ⟨render_injective (by simp) (by simp), congrArg fun l => (Path.absolute l).render⟩

/-- Elsewhere, when their places are the same in lower case. -/
theorem keyOf_iff_lowercase (ht : fs.Tree) (hother : env.target ≠ .linux) {q : Path} {j : Nat} (hp : fs.IsFile p i)
    (hq : fs.IsFile q j) :
    fs.keyOf env p = fs.keyOf env q ↔ ∃ l l', fs.resolve false p = .ok l ∧ fs.resolve false q = .ok l' ∧
      env.toLowercase (Path.absolute l).render = env.toLowercase (Path.absolute l').render := by
  obtain ⟨d, n, hat, hn⟩ := ht.at_of_isFile hp
  obtain ⟨d', n', hat', hn'⟩ := ht.at_of_isFile hq
  rw [ht.keyOf_eq hat, ht.keyOf_eq hat', keyText, keyText, if_neg hother, if_neg hother, ht.lossy_render hn,
    ht.lossy_render hn', hat.resolve (.inl rfl), hat'.resolve (.inl rfl)]
  constructor
  · exact fun h => ⟨_, _, rfl, rfl, h⟩
  · rintro ⟨l, l', hl, hl', h⟩
    cases hl
    cases hl'
    exact h

end Fs.Tree

end

section
variable {env : Env} {w w' : World} {inputs : List Path}

theorem Fs.SameFile.symm {fs : Fs} {p q : Path} (h : fs.SameFile env p q) : fs.SameFile env q p :=
  h.imp Eq.symm fun ⟨i, hp, hq⟩ => ⟨i, hq, hp⟩

/-- The sources the planner works on are the files of its inputs, sorted. -/
theorem batch_of_inputs (hq : env.Quiet) (hf : env.Faultless) (ht : w.fs.Tree)
    (hin : ∀ input ∈ inputs, w.fs.Exists input) :
    ∃ sources inode, Answers w.fs w.draws (collectInputs env inputs false) (.ok sources) w.draws ∧
      Batch w.fs sources inode ∧ sources.Perm (w.fs.inputsFiles false inputs) ∧
      sources.Pairwise fun p q => p.le q = true := by
  obtain ⟨sources, hcollect, hperm, hsorted⟩ := collectInputs_answers (k := w.draws) hq hf ht hin false
  have hfiles : ∀ s ∈ sources, ∃ i, w.fs.IsFile s i := fun s hs =>
    ht.inputsFiles_isFile hin s (hperm.mem_iff.1 hs)
  choose! inode hinode using hfiles
  exact ⟨sources, inode, hcollect, ⟨ht, hinode⟩, hperm, hsorted⟩

/-- Of the files of a planned batch no two are the same. -/
theorem planEncryptionInputs_pairwise (hq : env.Quiet) (hf : env.Faultless) (ht : w.fs.Tree)
    (hin : ∀ input ∈ inputs, w.fs.Exists input) {plans : List EncryptionPlan}
    (h : planEncryptionInputs env inputs w = (.ok plans, w')) :
    (w.fs.inputsFiles false inputs).Pairwise fun p q => ¬w.fs.SameFile env p q := by
  obtain ⟨sources, inode, hcollect, hb, hperm, -⟩ := batch_of_inputs hq hf ht hin
  obtain ⟨sources', w₁, hsources, h⟩ := Eff.bind_eq_ok.1 h
  obtain ⟨heq, hw₁⟩ := hcollect.unique rfl hsources
  cases heq
  obtain ⟨registered, w₂, hregister, -⟩ := Eff.bind_eq_ok.1 h
  have hpair := hb.pairwise_iff.2
    (registerSources_nodup hq hf hb List.nodup_nil List.nodup_nil hw₁ hregister)
  exact (hperm.pairwise_iff fun hpq hqp => hpq hqp.symm).1 hpair

/-- A batch is planned exactly when no two of its files are the same by path
or by hard link, and what is planned gives each file an output of its own. On
Linux files are the same by path when they are at the same place, elsewhere when
their places differ at most in letter case. -/
theorem planEncryptionInputs_sound_complete (hq : env.Quiet) (hf : env.Faultless) (ht : w.fs.Tree)
    (hin : ∀ input ∈ inputs, w.fs.Exists input)
    (hfresh : FreshSuffixes env w.fs w.draws (w.fs.inputsFiles false inputs)) :
    ((∃ plans w', planEncryptionInputs env inputs w = (.ok plans, w')) ↔
      (w.fs.inputsFiles false inputs).Pairwise fun p q => ¬w.fs.SameFile env p q) ∧
    (∀ plans w', planEncryptionInputs env inputs w = (.ok plans, w') →
      Planned env w.fs (w.fs.inputsFiles false inputs) plans) ∧
    (env.target = .linux → ∀ p ∈ w.fs.inputsFiles false inputs, ∀ q ∈ w.fs.inputsFiles false inputs,
      (w.fs.keyOf env p = w.fs.keyOf env q ↔ w.fs.resolve false p = w.fs.resolve false q)) ∧
    (env.target ≠ .linux → ∀ p ∈ w.fs.inputsFiles false inputs, ∀ q ∈ w.fs.inputsFiles false inputs,
      (w.fs.keyOf env p = w.fs.keyOf env q ↔ ∃ l l', w.fs.resolve false p = .ok l ∧ w.fs.resolve false q = .ok l' ∧
        env.toLowercase (Path.absolute l).render = env.toLowercase (Path.absolute l').render)) := by
  obtain ⟨sources, inode, hcollect, hb, hperm, hsorted⟩ := batch_of_inputs hq hf ht hin
  have hplan (hpair : (w.fs.inputsFiles false inputs).Pairwise fun p q => ¬w.fs.SameFile env p q) :=
    planEncryptionInputs_answers hq hf hcollect hb hperm hsorted (hfresh.perm hperm)
      ((hperm.pairwise_iff fun hpq hqp => hpq hqp.symm).2 hpair)
  refine ⟨⟨?_, ?_⟩, ?_, ?_, ?_⟩
  · rintro ⟨plans, w', hrun⟩
    exact planEncryptionInputs_pairwise hq hf ht hin hrun
  · intro hpair
    obtain ⟨plans, k', hanswers, -⟩ := hplan hpair
    obtain ⟨w', hrun, -⟩ := hanswers.run (s := w) rfl
    exact ⟨plans, w', hrun⟩
  · intro plans w' hrun
    obtain ⟨plans', k', hanswers, hplanned⟩ := hplan (planEncryptionInputs_pairwise hq hf ht hin hrun)
    obtain ⟨heq, -⟩ := hanswers.unique (s := w) rfl hrun
    cases heq
    exact hplanned
  · intro hlinux p hp q hq'
    obtain ⟨i, hi⟩ := ht.inputsFiles_isFile hin p hp
    obtain ⟨j, hj⟩ := ht.inputsFiles_isFile hin q hq'
    exact ht.keyOf_iff hlinux hi hj
  · intro hother p hp q hq'
    obtain ⟨i, hi⟩ := ht.inputsFiles_isFile hin p hp
    obtain ⟨j, hj⟩ := ht.inputsFiles_isFile hin q hq'
    exact ht.keyOf_iff_lowercase hother hi hj

end

/-- `/a` and `/a.b`, whose stems are the same, and `/c`. -/
def sameStem : World := ⟨(((Fs.blank []).create [] ⟨[97], .refl true⟩).create [] ⟨[97, 46, 98], .refl true⟩).create []
  ⟨[99], .refl true⟩, 0, 0, []⟩

theorem planEncryptionInputs_sound_complete_sameStem :
    ∃ plans w', planEncryptionInputs (Env.calm .checksummed) [.root] sameStem = (.ok plans, w') ∧
      Planned (Env.calm .checksummed) sameStem.fs (sameStem.fs.inputsFiles false [.root]) plans := by
  have htree : sameStem.fs.Tree :=
    ((Fs.tree_blank.create rfl (by decide +kernel) (by decide +kernel)).create rfl (by decide +kernel)
      (by decide +kernel)).create rfl (by decide +kernel) (by decide +kernel)
  have hfiles : sameStem.fs.inputsFiles false [.root] =
      [.absolute [⟨[99], rfl⟩], .absolute [⟨[97, 46, 98], rfl⟩], .absolute [⟨[97], rfl⟩]] := by
    decide +kernel
  have hfresh : FreshSuffixes (Env.calm .checksummed) sameStem.fs sameStem.draws
      (sameStem.fs.inputsFiles false [.root]) := by
    rw [hfiles]
    constructor <;> decide +kernel
  have hin : ∀ input ∈ [Path.root], sameStem.fs.Exists input := by decide +kernel
  have hsound := planEncryptionInputs_sound_complete (Env.calm_quiet .checksummed)
    (Env.calm_faultless .checksummed) htree hin hfresh
  have hfile (n : Name) (i : Nat) (h : sameStem.fs.node [n] = some (.file i))
      (hr : sameStem.fs.resolve false (.absolute [n]) = .ok [n]) :
      sameStem.fs.IsFile (.absolute [n]) i := ⟨[n], hr, h⟩
  have hother {p q : Path} {i j : Nat} (hp : sameStem.fs.IsFile p i) (hq : sameStem.fs.IsFile q j)
      (hkey : sameStem.fs.keyOf (Env.calm .checksummed) p ≠ sameStem.fs.keyOf (Env.calm .checksummed) q)
      (hij : i ≠ j) : ¬sameStem.fs.SameFile (Env.calm .checksummed) p q := by
    rintro (heq | ⟨k, hpk, hqk⟩)
    · exact hkey heq
    · exact hij ((hp.unique hpk).trans (hq.unique hqk).symm)
  have hpair : (sameStem.fs.inputsFiles false [.root]).Pairwise fun p q =>
      ¬sameStem.fs.SameFile (Env.calm .checksummed) p q := by
    have ha := hfile ⟨[97], rfl⟩ 0 (by decide +kernel) (by decide +kernel)
    have hab := hfile ⟨[97, 46, 98], rfl⟩ 1 (by decide +kernel) (by decide +kernel)
    have hc := hfile ⟨[99], rfl⟩ 2 (by decide +kernel) (by decide +kernel)
    rw [hfiles, List.pairwise_cons, List.pairwise_pair, List.forall_mem_cons, List.forall_mem_singleton]
    exact ⟨⟨hother hc hab (by decide +kernel) (by decide), hother hc ha (by decide +kernel) (by decide)⟩,
      hother hab ha (by decide +kernel) (by decide)⟩
  obtain ⟨plans, w', hrun⟩ := hsound.1.2 hpair
  exact ⟨plans, w', hrun, hsound.2.1 plans w' hrun⟩

/-- ASCII letters in lower case. -/
def lowercaseAscii (b : List UInt8) : List UInt8 :=
  b.map fun c => if 65 ≤ c ∧ c ≤ 90 then c + 32 else c

/-- The platform whose keys are in lower case. -/
def macos : Env :=
  { Env.calm .checksummed with target := .macos, toLowercase := lowercaseAscii }

/-- `/A` and `/a`. -/
def twoCases : World := ⟨((Fs.blank []).create [] ⟨[65], .refl true⟩).create [] ⟨[97], .refl true⟩, 0, 0, []⟩

/-- Where keys are in lower case, two files that are different by path and by
inode are rejected as one when their names differ in case only. -/
theorem planEncryptionInputs_rejects_case :
    macos.Quiet ∧ macos.Faultless ∧ twoCases.fs.Tree ∧ twoCases.fs.Exists .root ∧
    FreshSuffixes macos twoCases.fs twoCases.draws (twoCases.fs.inputsFiles false [.root]) ∧
    twoCases.fs.inputsFiles false [.root] = [.absolute [⟨[97], rfl⟩], .absolute [⟨[65], rfl⟩]] ∧
    twoCases.fs.IsFile (.absolute [⟨[97], rfl⟩]) 1 ∧ twoCases.fs.IsFile (.absolute [⟨[65], rfl⟩]) 0 ∧
    ∀ plans w', planEncryptionInputs macos [.root] twoCases ≠ (.ok plans, w') := by
  have htree : twoCases.fs.Tree :=
    (Fs.tree_blank.create rfl (by decide +kernel) (by decide +kernel)).create rfl (by decide +kernel)
      (by decide +kernel)
  have hfiles : twoCases.fs.inputsFiles false [.root] =
      [.absolute [⟨[97], rfl⟩], .absolute [⟨[65], rfl⟩]] := by
    decide +kernel
  refine ⟨fun _ _ => rfl, fun _ => rfl, htree, by decide +kernel, ?_, hfiles,
    ⟨[⟨[97], rfl⟩], by decide +kernel⟩, ⟨[⟨[65], rfl⟩], by decide +kernel⟩, ?_⟩
  · rw [hfiles]
    constructor <;> decide +kernel
  · intro plans w' hrun
    have hin : ∀ input ∈ [Path.root], twoCases.fs.Exists input := by decide +kernel
    have hpair := planEncryptionInputs_pairwise (fun _ _ => rfl) (fun _ => rfl) htree hin hrun
    rw [hfiles, List.pairwise_pair] at hpair
    exact hpair (.inl (by decide +kernel))

end Ironlock
