import Ironlock.DecryptionPlan
import Ironlock.EncryptionCompletion

/-! A decryption into a tree, when nothing fails: every stream is opened, and the
directories it is to go to are made. -/

namespace Ironlock
open ByteOrder (Bytes)
open Effect
open Fs (Identity Metadata SysCall)
open Transfer (moved)

/-! ## Directories -/

namespace Fs

/-- From the place `e` down the names, every place is a directory or a free one to make
one at. -/
def Room (fs : Fs) (e names : List Name) : Prop := ∀ l n, l ++ [n] <+: names →
  fs.nodeAt (e ++ l ++ [n]) = some .dir ∨ fs.nodeAt (e ++ l ++ [n]) = none ∧ n.Lasting

/-- A tidy tree with these directories more and those above them, where other files may be. -/
structure Branched (fs : Fs) (ts : List (List Name)) (fs' : Fs) : Prop where
  keeps : fs.Keeps fs'
  tidy : fs'.Tidy
  dirAt : ∀ l, fs'.dirAt l = true ↔ fs.dirAt l = true ∨ ∃ t ∈ ts, l <+: t

/-- The directory `t` and those above it are there, and no file is other than it was. -/
structure Furnished (fs : Fs) (t : List Name) (fs' : Fs) : Prop where
  keeps : fs.Keeps fs'
  tidy : fs'.Tidy
  bytesAt : fs'.bytesAt = fs.bytesAt
  dirAt : ∀ l, fs'.dirAt l = true ↔ fs.dirAt l = true ∨ l <+: t

section
variable {fs fs' fs'' : Fs} {e t names : List Name} {n : Name}

theorem Room.head (h : fs.Room e (n :: names)) :
    fs.nodeAt (e ++ [n]) = some .dir ∨ fs.nodeAt (e ++ [n]) = none ∧ n.Lasting := by
  have hn := h [] n (by simp)
  rwa [List.append_nil] at hn

theorem Room.tail (h : fs.Room e (n :: names)) : fs.Room (e ++ [n]) names := by
  intro l m hlm
  have hm := h (n :: l) m (by simpa using hlm)
  rwa [List.append_cons e n l] at hm

/-- Directories that are made do not take room away. -/
theorem Room.keep (h : fs.Room e names) (hk : fs.Keeps fs') (hnode : ∀ l, l <+: e ++ names → fs.nodeAt l = none →
    fs'.nodeAt l = none ∨ fs'.nodeAt l = some .dir) : fs'.Room e names := by
  intro l m hlm
  rcases h l m hlm with hdir | ⟨hnone, hm⟩
  · exact .inl (hk.dirs _ hdir)
  · refine (hnode _ ?_ hnone).symm.imp_right fun hnone => ⟨hnone, hm⟩
    rw [List.append_assoc]
    exact (List.prefix_append_right_inj e).2 hlm

theorem Furnished.of_dir (ht : fs.Tidy) (hd : fs.nodeAt t = some .dir) : fs.Furnished t fs := by
  refine ⟨.refl fs, ht, rfl, fun l => ⟨.inl, ?_⟩⟩
  rintro (hl | hl)
  · exact hl
  · rw [dirAt_iff, ← ht.node]
    exact ht.dirPath hd l hl

theorem Furnished.dirPath (h : fs.Furnished t fs') : fs'.DirPath t :=
  h.tidy.dirPath (dirAt_iff.1 ((h.dirAt t).2 (.inr (List.prefix_refl t))))

theorem Furnished.trans {t' : List Name} (h : fs.Furnished t fs') (h' : fs'.Furnished t' fs'') (hfront : t <+: t') :
    fs.Furnished t' fs'' := by
  refine ⟨h.keeps.trans h'.keeps, h'.tidy, h'.bytesAt.trans h.bytesAt, fun l => ?_⟩
  rw [h'.dirAt, h.dirAt, or_assoc]
  refine or_congr_right ⟨?_, .inr⟩
  rintro (hl | hl)
  · exact hl.trans hfront
  · exact hl

theorem Furnished.branched (h : fs.Furnished t fs') (hre : fs'.Restocked fs'') : fs.Branched [t] fs'' := by
  refine ⟨h.keeps.trans hre.keeps, hre.tidy, fun l => ?_⟩
  rw [hre.dirAt, h.dirAt]
  simp

theorem Branched.trans {ts ts' : List (List Name)} (h : fs.Branched ts fs') (h' : fs'.Branched ts' fs'') :
    fs.Branched (ts ++ ts') fs'' := by
  refine ⟨h.keeps.trans h'.keeps, h'.tidy, fun l => ?_⟩
  rw [h'.dirAt, h.dirAt, or_assoc]
  simp [or_and_right, exists_or]

/-- One directory more. -/
theorem Tidy.furnish (ht : fs.Tidy) (hd : fs.nodeAt e = some .dir) (hnone : fs.nodeAt (e ++ [n]) = none)
    (hn : n.Lasting) : fs.Furnished (e ++ [n]) (fs.mkdir e n) := by
  obtain ⟨htidy, hbytes, hnode⟩ := ht.mkdir hd hnone hn
  refine ⟨mkdir_keeps (by rwa [ht.exact]), htidy, hbytes, fun l => ?_⟩
  rw [dirAt_iff, dirAt_iff, hnode]
  by_cases hl : l = e ++ [n]
  · subst hl
    simp
  · rw [Function.update_of_ne hl]
    refine ⟨.inl, ?_⟩
    rintro (hdir | hfront)
    · exact hdir
    · rcases List.prefix_concat_iff.1 hfront with rfl | hfront
      · exact absurd rfl hl
      · rw [← ht.node]
        exact ht.dirPath hd l hfront

theorem Furnished.absent (h : fs.Furnished t fs') (ht : fs.Tree) {l : Loc} (hnone : fs.nodeAt l = none) :
    fs'.nodeAt l = none ∨ fs'.nodeAt l = some .dir := by
  obtain ⟨hbytes, -⟩ := ht.absent_iff.1 hnone
  rcases hx : fs'.nodeAt l with _ | x
  · exact .inl rfl
  · rcases h.tidy.kinds l x hx with rfl | ⟨i, rfl⟩
    · exact .inr rfl
    · rw [← h.bytesAt, bytesAt_file hx] at hbytes
      cases hbytes

end

end Fs

section
variable {env : Env} {fs fs' : Fs} {p : Path} {d e t names : List Name} {n : Name}

theorem Fs.Plain.push_name (h : fs.Plain p e) (hn : n.bytes.contains 0 = false) (hd : fs.node (e ++ [n]) = some .dir) :
    fs.Plain (p.push (.name n)) (e ++ [n]) := by
  refine h.push_part ?_ (by simpa [Path.hasNul] using hn)
  exact Fs.plainFrom_cons.2 ⟨h.dirPath.node, Fs.plainFrom_nil.2 hd⟩

/-- A directory that is missing is made. -/
theorem ensureDirectory_completes (hr : env.Reliable) (ht : fs.Tidy) (h : fs.Plain p e) (hn : n.bytes.contains 0 = false)
    (hroom : fs.nodeAt (e ++ [n]) = some .dir ∨ fs.nodeAt (e ++ [n]) = none ∧ n.Lasting) :
    Completes fs (ensureDirectory env (p.push (.name n))) fun _ fs' => fs.Furnished (e ++ [n]) fs' := by
  have hat := h.at_push hn
  rcases hroom with hdir | ⟨hnone, hlasting⟩
  · have hplain := h.push_name hn (by rwa [ht.node])
    refine (Completes.of_answers fun _ => ensureDirectory_answers hr hplain (Path.push_ne_empty _ _)).mono ?_
    rintro _ fs₁ ⟨-, rfl⟩
    exact .of_dir ht hdir
  · rw [← ht.entryLoc] at hnone
    have hop : Fs.createDir (p.push (.name n)) fs = (.ok (), fs.mkdir (fs.loc e) n) := hat.reaches.make hnone
    rw [ht.loc] at hop
    rw [ht.entryLoc] at hnone
    have he : fs.nodeAt e = some .dir := by
      rw [← ht.node]
      exact h.dirPath.node
    have hfurnished := ht.furnish he hnone hlasting
    have hplain := (h.keep hfurnished.keeps).push_name hn hfurnished.dirPath.node
    have hlook (k : Nat) := symlinkMetadata_answers (k := k) hr.quiet hr.faultless
      (hplain.resolve (Path.push_ne_empty _ _)) hplain.dirPath.node
    refine .after (fun _ => symlinkMetadata_absent hr hat.reaches (by rwa [ht.entryLoc])) (.ite_pos rfl ?_)
    refine .bind (.try_ (Q := fun r fs' => r = .ok () ∧ fs' = fs.mkdir e n) hr hop ⟨rfl, rfl⟩) ?_
    rintro _ _ ⟨rfl, rfl⟩
    refine .after hlook ((Completes.of_answers fun _ => requireDirectory_answers).mono ?_)
    rintro _ _ ⟨-, rfl⟩
    exact hfurnished

theorem ensureComponents_completes (hr : env.Reliable) (ht : fs.Tidy) (h : fs.Plain p e) (hroom : fs.Room e names)
    (hnul : Path.hasNul ⟨.bare, names.map .name, false⟩ = false) :
    Completes fs (ensureComponents env p (names.map .name)) fun _ fs' => fs.Furnished (e ++ names) fs' := by
  have he : fs.nodeAt e = some .dir := by
    rw [← ht.node]
    exact h.dirPath.node
  induction names generalizing p e fs with
  | nil =>
    rw [List.append_nil]
    exact .pure (.of_dir ht he)
  | cons n names ih =>
    simp only [Path.hasNul, List.map_cons, List.any_cons, Bool.or_eq_false_iff] at hnul
    have hn : n.bytes.contains 0 = false := by simpa using hnul.1
    refine .bind (ensureDirectory_completes hr ht h hn hroom.head) ?_
    intro _ fs₁ hfirst
    have hdir := hfirst.dirPath.node
    have hplain := (h.keep hfirst.keeps).push_name hn hdir
    have hroom₁ := hroom.tail.keep hfirst.keeps fun _ _ => hfirst.absent ht.toTree
    rw [hfirst.tidy.node] at hdir
    refine (ih hfirst.tidy hplain hroom₁ hnul.2 hdir).mono ?_
    intro _ fs₂ hrest
    have hmore := hfirst.trans hrest (List.prefix_append _ _)
    rwa [List.append_assoc, List.singleton_append] at hmore

theorem ensureComponents_append (parts parts' : List Part) : ensureComponents env p (parts ++ parts') = (do
    ensureComponents env p parts
    ensureComponents env (parts.foldl Path.push p) parts') := by
  induction parts generalizing p with
  | nil => rfl
  | cons part parts ih =>
    simp only [List.cons_append, ensureComponents, ih, bind_assoc, List.foldl_cons]

/-- The path leads by directories that are there to a place from where it goes down to
`t`, by names that have room. -/
structure Fs.Makes (fs : Fs) (p : Path) (t : List Name) : Prop where
  start : fs.DirPath (fs.start p)
  parts : ∃ front e names, p.parts = front ++ names.map .name ∧ fs.PlainFrom (fs.start p) front ∧
    lexicalFrom (fs.start p) front = e ∧ t = e ++ names ∧ fs.Room e names
  nul : p.hasNul = false
  named : p.anchor ≠ .bare ∨ p.parts ≠ []

theorem Fs.Makes.ne_empty (h : fs.Makes p t) : p ≠ .empty := by
  rintro rfl
  rcases h.named with hanchor | hparts
  · exact hanchor rfl
  · exact hparts rfl

theorem Fs.Makes.keep (h : fs.Makes p t) (hk : fs.Keeps fs')
    (hnode : ∀ l, l <+: t → fs.nodeAt l = none → fs'.nodeAt l = none ∨ fs'.nodeAt l = some .dir) : fs'.Makes p t where
  start := by
    rw [hk.start]
    exact hk.dirPath h.start
  parts := by
    obtain ⟨front, e, names, hparts, hplain, hends, rfl, hroom⟩ := h.parts
    rw [hk.start]
    exact ⟨front, e, names, hparts, hk.plainFrom hplain, hends, rfl, hroom.keep hk hnode⟩
  nul := h.nul
  named := h.named

/-- What is missing of a directory is made. -/
theorem ensureSafeDirectory_completes (hr : env.Reliable) (ht : fs.Tidy) (h : fs.Makes p t) :
    Completes fs (ensureSafeDirectory env p) fun _ fs' => fs.Furnished t fs' ∧ fs'.Plain p t := by
  obtain ⟨front, e, names, hparts, hplain, rfl, rfl, hroom⟩ := h.parts
  have habsolute := absolute_parts fs h.ne_empty
  have hnul := h.nul
  have hstart := start_nul ht.absolute_nul p
  simp only [Path.hasNul, hparts, List.any_append, Bool.or_eq_false_iff] at hnul hstart
  have hlead : fs.PlainFrom [] ((fs.start p).map .name ++ front) := by
    refine Fs.plainFrom_append.2 ⟨Fs.plainFrom_names.2 h.start, ?_⟩
    rwa [lexicalFrom_names, List.nil_append]
  have hends : lexicalFrom [] ((fs.start p).map .name ++ front) = lexicalFrom (fs.start p) front := by
    rw [lexicalFrom_append, lexicalFrom_names, List.nil_append]
  have hclean : Path.hasNul ⟨.bare, (fs.start p).map .name ++ front, false⟩ = false := by
    simp only [Path.hasNul, List.any_append, Bool.or_eq_false_iff]
    exact ⟨hstart, hnul.1⟩
  rw [hparts, ← List.append_assoc] at habsolute
  have hmade : Completes fs (ensureSafeDirectory env p) fun _ fs' =>
      fs.Furnished (lexicalFrom (fs.start p) front ++ names) fs' := by
    refine .after (fun _ => stdAbsolute_answers habsolute)
      (.after (fun _ => ensureDirectory_answers hr fs.plain_root (by decide)) ?_)
    rw [ensureComponents_append]
    refine .after (fun _ => (ensureComponents_answers hr fs.plain_root hlead hclean).1) ?_
    have hfront := (ensureComponents_answers (k := 0) hr fs.plain_root hlead hclean).2
    rw [hends] at hfront
    exact ensureComponents_completes hr ht hfront hroom (by simpa [Path.hasNul] using hnul.2)
  refine hmade.mono ?_
  intro _ fs' hfurnished
  refine ⟨hfurnished, ?_, ?_, ?_, h.nul⟩
  · rw [hfurnished.keeps.start]
    exact hfurnished.keeps.dirPath h.start
  · rw [hfurnished.keeps.start, hparts]
    refine Fs.plainFrom_append.2 ⟨hfurnished.keeps.plainFrom hplain, ?_⟩
    have hdown := Fs.plainFrom_names.2 hfurnished.dirPath
    rw [List.map_append] at hdown
    have hrest := (Fs.plainFrom_append.1 hdown).2
    rwa [lexicalFrom_names, List.nil_append] at hrest
  · rw [hfurnished.keeps.start, hparts, lexicalFrom_append, lexicalFrom_names]

/-! ## One file -/

/-- Programs that hold a guard: in the file system `fs`, with the guard `g`, the program
returns, into `Q`. -/
def CompletesUnder {α : Type} (fs : Fs) (g : DecryptionBatchGuard) (m : GuardM α)
    (Q : α → Fs → DecryptionBatchGuard → Prop) : Prop :=
  Returns (fun s => s.1.fs = fs ∧ s.2 = g) m fun a s => Q a s.1.fs s.2

namespace CompletesUnder

variable {α β : Type} {g : DecryptionBatchGuard} {m : FsM α} {k : GuardM α} {f : α → GuardM β} {a : α}
  {Q Q' : α → Fs → DecryptionBatchGuard → Prop} {R : β → Fs → DecryptionBatchGuard → Prop}

theorem pure (h : Q a fs g) : CompletesUnder fs g (Pure.pure a) Q := by
  rintro ⟨w, g⟩ ⟨rfl, rfl⟩
  exact h

theorem bind (hk : CompletesUnder fs g k Q) (hf : ∀ a fs' g', Q a fs' g' → CompletesUnder fs' g' (f a) R) :
    CompletesUnder fs g (k >>= f) R :=
  Triple.bind hk fun a s hs => hf a s.1.fs s.2 hs s ⟨rfl, rfl⟩

theorem mono (h : CompletesUnder fs g k Q) (hQ : ∀ a fs' g', Q a fs' g' → Q' a fs' g') : CompletesUnder fs g k Q' :=
  Triple.post h fun a s => hQ a s.1.fs s.2

theorem lift {Q : α → Fs → Prop} (h : Completes fs m Q) :
    CompletesUnder fs g (GuardM.lift m) fun a fs' g' => Q a fs' ∧ g' = g := by
  apply Returns.of_run
  rintro ⟨w, g⟩ ⟨hw, rfl⟩
  obtain ⟨a, w', hm, hQ⟩ := h.run hw
  exact ⟨a, (w', g), GuardM.lift_eq.2 ⟨hm, rfl⟩, hQ, rfl⟩

theorem look (hm : ∀ k, Answers fs k m (.ok a) k) (hf : CompletesUnder fs g (f a) R) :
    CompletesUnder fs g (GuardM.lift m >>= f) R := by
  refine bind (lift (Completes.of_answers hm)) ?_
  rintro _ _ _ ⟨⟨rfl, rfl⟩, rfl⟩
  exact hf

theorem guard {f : DecryptionBatchGuard → GuardM β} (hf : CompletesUnder fs g (f g) R) :
    CompletesUnder fs g (GuardM.guard >>= f) R := by
  refine bind (Q := fun g' fs' g'' => g' = g ∧ fs' = fs ∧ g'' = g) ?_ ?_
  · rintro ⟨w, g⟩ ⟨rfl, rfl⟩
    exact ⟨rfl, rfl, rfl⟩
  · rintro _ _ _ ⟨rfl, rfl, rfl⟩
    exact hf

theorem attempt (h : CompletesUnder fs g k Q) :
    CompletesUnder fs g (Eff.attempt k) fun r fs' g' => ∃ a, r = .ok a ∧ Q a fs' g' := Returns.attempt h

theorem ite_pos {c : Prop} [Decidable c] {k' : GuardM α} (hc : c) (h : CompletesUnder fs g k Q) :
    CompletesUnder fs g (if c then k else k') Q := by rwa [if_pos hc]

theorem ite_neg {c : Prop} [Decidable c] {k' : GuardM α} (hc : ¬c) (h : CompletesUnder fs g k' Q) :
    CompletesUnder fs g (if c then k else k') Q := by rwa [if_neg hc]

end CompletesUnder

namespace DecryptionBatchGuard

/-- The guard knows the place of the source, and that of the output is new to it. -/
structure Admits (env : Env) (g : DecryptionBatchGuard) (source target : Loc) : Prop where
  known : keyText env (.absolute source) ∈ g.sourceKeys
  other : keyText env (.absolute target) ∉ g.sourceKeys
  fresh : keyText env (.absolute target) ∉ g.reservedOutputs

/-- The guard that has reserved one output more. -/
def reserving (env : Env) (g : DecryptionBatchGuard) (target : Loc) : DecryptionBatchGuard :=
  { g with reservedOutputs := keyText env (.absolute target) :: g.reservedOutputs }

theorem Admits.apart {g : DecryptionBatchGuard} {source target : Loc} (h : g.Admits env source target) :
    keyText env (.absolute source) ≠ keyText env (.absolute target) := by
  intro heq
  exact h.other (heq ▸ h.known)

/-- An output that is not there is reserved. -/
theorem reserve_completes (hr : env.Reliable) (ht : fs.Tree) {g : DecryptionBatchGuard} {source output : Path}
    {m : Name} (hsource : fs.At source d m) (houtput : fs.At output t n) (hfree : fs.nodeAt (t ++ [n]) = none)
    (hg : g.Admits env (d ++ [m]) (t ++ [n])) :
    CompletesUnder fs g (reserve env source output) fun _ fs' g' => fs' = fs ∧ g' = g.reserving env (t ++ [n]) := by
  have hnone := hfree
  rw [← ht.entryLoc] at hnone
  refine .look (fun _ => ht.key_answers hr.quiet hr.faultless hsource) (.guard (.ite_neg ?_ ?_))
  · rw [not_not, ht.keyOf_eq hsource]
    exact hg.known
  refine .look (fun _ => ht.key_answers hr.quiet hr.faultless houtput) (.ite_neg ?_ ?_)
  · rw [ht.keyOf_eq houtput]
    exact hg.other
  refine .look (fun _ => symlinkMetadata_absent hr houtput.reaches hnone) (.ite_pos rfl ?_)
  rw [ht.keyOf_eq houtput]
  refine .bind (Q := fun new fs' g' => new = true ∧ fs' = fs ∧ g' = g.reserving env (t ++ [n])) ?_ ?_
  · rintro ⟨w, g⟩ ⟨rfl, rfl⟩
    have hinsert : insertReserved (keyText env (.absolute (t ++ [n]))) (w, g) =
        (.ok true, (w, g.reserving env (t ++ [n]))) := by
      simp only [insertReserved, Eff.modifyGet]
      rw [if_neg hg.fresh]
      rfl
    rw [hinsert]
    exact ⟨rfl, rfl, rfl⟩
  · rintro _ _ _ ⟨rfl, rfl, rfl⟩
    exact .ite_pos rfl (.pure ⟨rfl, rfl⟩)

end DecryptionBatchGuard

/-- A decryptor that is given a stream opens it, and writes its content to any output. -/
theorem openEncrypted_completes (hr : env.Reliable) (hC : env.crates.Inverts) {source : Path} {m : Name} {i : Nat}
    {password : Bytes} (hat : fs.At source d m) (hext : source.encrypted = true)
    (hfile : fs.nodeAt (fs.entryLoc d m) = some (.file i)) (x : Stream env.crates password)
    (hx : x.bytes = fs.content i) :
    Completes fs (openEncrypted env source password) fun opened fs' => fs' = fs ∧ opened.1.filename = x.filename ∧
      ∀ accepts, Writer.Accepting ⟨accepts, []⟩ → ∃ count s,
        opened.1.decryptTo env.crates ⟨opened.2, ⟨accepts, []⟩, []⟩ = (.ok count, s) ∧
          s.writer.written = x.content := by
  refine .ite_neg (by simp [hext]) (.after (fun _ => verifiedSourceFile_answers hr hat.reaches hfile)
    (.bind (reader_completes hr i) ?_))
  rintro r fs₁ ⟨hdelivers, rfl⟩
  rw [← hx] at hdelivers
  obtain ⟨b, s₁, hnew, hsealed, hrest, -⟩ := new_ok hC x (s := ⟨r, ⟨[], []⟩, []⟩) hdelivers
  rintro w rfl
  simp only [Sys.readStream, hnew]
  refine ⟨trivial, trivial, fun accepts haccept => ?_⟩
  have hcount := x.count_bound
  obtain ⟨s₂, hloop, hwritten⟩ := @decryptChunks_ok env.crates hC
    ⟨x.key, x.header, x.baseNonce, x.chunkSize, 1⟩ x.chunks 0 0 b ⟨s₁.reader, ⟨accepts, []⟩, []⟩
    (by rw [Nat.zero_add, Nat.zero_add]; exact hsealed) hrest haccept x.chunk_bounds x.chunkSize_bounds.2
    (by rw [Nat.zero_add]; exact x.content_bound) (by omega) (by simp only; omega)
  exact ⟨_, s₂, hloop, hwritten⟩

theorem writeDecrypted_completes (hr : env.Reliable) {base : Fs} {o : AtomicOutput} {a b : UInt64} {content : Bytes}
    {decryptor : StreamDecryptor} {reader : Reader} (h : o.Ready base d a b) (hw : o.Written base d a b [] fs)
    (hdecrypts : ∀ accepts, Writer.Accepting ⟨accepts, []⟩ → ∃ count s,
      decryptor.decryptTo env.crates ⟨reader, ⟨accepts, []⟩, []⟩ = (.ok count, s) ∧ s.writer.written = content) :
    Completes fs (writeDecrypted env decryptor reader o.file) fun _ fs' =>
      ∃ c, c = content ∧ o.Written base d a b c fs' := by
  refine .bind (h.stream_completes hr hw (P := fun c => c = content) hdecrypts) ?_
  rintro _ fs₁ ⟨c, hc, hw'⟩
  refine (Completes.of_answers fun _ => idle_answers hr _).mono ?_
  rintro _ _ ⟨-, rfl⟩
  exact ⟨c, hc, hw'⟩

/-- A name that was read of a directory is safe. -/
theorem sanitizedFilename_name {name : Str} (h : name.bytes = n.bytes) : sanitizedFilename name = .ok name := by
  have hvalid := n.valid
  simp only [validName, Bool.and_eq_true, decide_eq_true_eq, Bool.not_eq_true', ← h] at hvalid
  obtain ⟨⟨⟨hne, hslash⟩, hdot⟩, hup⟩ := hvalid
  exact sanitizedFilename_honest hne (by simpa using hslash) hdot hup

/-- The output has the recovered name, in its directory. -/
theorem decryptedPath_completes (hr : env.Reliable) (ht : fs.Tidy) {source dir : Path} {m : Name} {name : Str}
    (hsource : fs.At source d m) (hdir : fs.Makes dir t) (hname : name.bytes = n.bytes) (hn : n.Lasting)
    (hfree : fs.nodeAt (t ++ [n]) = none)
    (hkeys : keyText env (.absolute (d ++ [m])) ≠ keyText env (.absolute (t ++ [n]))) :
    Completes fs (decryptedPath env source (some dir) name) fun output fs' =>
      output = dir.push (.name n) ∧ fs.Furnished t fs' ∧ fs'.Plain dir t ∧ fs'.nodeAt (t ++ [n]) = none := by
  refine .bind (.ofExcept (sanitizedFilename_name hname) (Q := fun safe fs' => safe = name ∧ fs' = fs) ⟨rfl, rfl⟩) ?_
  rintro _ _ ⟨rfl, rfl⟩
  refine .bind (ensureSafeDirectory_completes hr ht hdir) ?_
  rintro _ fs₁ ⟨hfurnished, hplain⟩
  have ht₁ := hfurnished.tidy
  have hfree₁ : fs₁.nodeAt (t ++ [n]) = none := by
    refine (hfurnished.absent ht.toTree hfree).resolve_right fun hmade => ?_
    rcases (hfurnished.dirAt _).1 (Fs.dirAt_iff.2 hmade) with hdir | hfront
    · rw [(ht.toTree.absent_iff.1 hfree).2] at hdir
      cases hdir
    · have := hfront.length_le
      simp at this
  have hat := hplain.at_push hn.nul
  have hsource₁ := hsource.keep hfurnished.keeps
  rw [hname, Path.joinRaw_bytes]
  refine .after (fun _ => pathsReferToSameFile_absent hr ht₁.toTree hsource₁ hat hfree₁ ?_) (.ite_neg (by simp) ?_)
  · rwa [ht₁.keyOf_eq hsource₁, ht₁.keyOf_eq hat]
  · exact .pure ⟨rfl, hfurnished, hplain, hfree₁⟩

/-- Nothing keeps a plan from being carried out: its source holds a stream, and its
directory, which is there or can be made, has room for a file of the name. -/
structure DecryptionPlan.Feasible (env : Env) (password : Bytes) (fs : Fs) (t : List Name) (n : Name)
    (plan : DecryptionPlan) : Prop where
  source : ∃ d m, fs.At plan.source d m
  encrypted : plan.source.encrypted = true
  stream : ∃ c content, fs.bytesAt (fs.place plan.source) = some c ∧ SealsAt env.crates password (t ++ [n]) content c
  directory : fs.Makes plan.targetDir t
  name : n.Lasting
  free : fs.nodeAt (t ++ [n]) = none

/-- A feasible plan is carried out: what its source holds is opened. -/
theorem decryptFile_completes (hr : env.Reliable) (hC : env.crates.Inverts) (ht : fs.Tidy) {g : DecryptionBatchGuard}
    {plan : DecryptionPlan} {password : Bytes} (h : plan.Feasible env password fs t n)
    (hg : g.Admits env (fs.place plan.source) (t ++ [n])) (force : Bool) :
    CompletesUnder fs g (decryptFileToPathGuarded env plan.source password (some plan.targetDir) force)
      fun p fs' g' => p = plan.targetDir.push (.name n) ∧ g' = g.reserving env (t ++ [n]) ∧ fs.Branched [t] fs' ∧
        ∃ c content, fs.bytesAt (fs.place plan.source) = some c ∧
          SealsAt env.crates password (t ++ [n]) content c ∧
          fs'.bytesAt = moved false (fs.place plan.source) (t ++ [n]) content fs.bytesAt := by
  obtain ⟨d, m, hsource⟩ := h.source
  obtain ⟨c, content, hc, hseals⟩ := h.stream
  obtain ⟨t', n', name, heq, hname, x, rfl, hxname, hxcontent⟩ := id hseals
  obtain ⟨rfl, hn⟩ := List.append_inj' heq rfl
  obtain rfl := List.cons.inj hn |>.1
  rw [hsource.place] at hc hg ⊢
  obtain ⟨i, hfile, hbytes⟩ := Fs.bytesAt_eq_some.1 hc
  rw [decryptFile_eq]
  have hopen := openEncrypted_completes hr hC hsource h.encrypted (by rwa [ht.entryLoc]) x hbytes.symm
  refine .bind (.lift hopen) ?_
  rintro ⟨decryptor, reader⟩ fs₁ _ ⟨⟨rfl, hfilename, hdecrypts⟩, rfl⟩
  rw [hxcontent] at hdecrypts
  have hrecovered : decryptor.filename.bytes = n.bytes := by
    rw [show decryptor.filename = x.filename from hfilename, hxname, hname]
  refine .bind (.lift (decryptedPath_completes hr ht hsource h.directory hrecovered h.name h.free hg.apart)) ?_
  rintro _ fs₂ _ ⟨⟨rfl, hfurnished, hplain, hfree⟩, rfl⟩
  have ht₂ := hfurnished.tidy
  have hat := hplain.at_push h.name.nul
  refine .bind (DecryptionBatchGuard.reserve_completes hr ht₂.toTree (hsource.keep hfurnished.keeps) hat hfree hg) ?_
  rintro _ fs₃ _ ⟨rfl, rfl⟩
  have hparent : (plan.targetDir.push (.name n)).parentOrHere ≠ .empty := by
    rw [Path.parentOrHere, Path.push_parent, Option.getD_some]
    intro hempty
    rcases h.directory.named with hanchor | hparts
    · exact hanchor (congrArg Path.anchor hempty)
    · exact hparts (congrArg Path.parts hempty)
  refine (CompletesUnder.lift (AtomicOutput.writing_completes hr ht₂.absolute_nul ht₂.exact hat hparent
    (by rwa [ht₂.entryLoc]) (ht₂.roomy t) h.name.temp
    (fun o a b fs' hready hw => writeDecrypted_completes hr hready hw hdecrypts) force)).mono ?_
  rintro _ fs₄ _ ⟨⟨rfl, c, rfl, hover⟩, rfl⟩
  rw [ht₂.entryLoc] at hover
  have hd : fs₃.nodeAt t = some .dir := by
    rw [← ht₂.node]
    exact hfurnished.dirPath.node
  have hputs := Fs.puts_of_over ht₂ hd hfree h.name hover
  refine ⟨rfl, rfl, hfurnished.branched hputs.toRestocked, _, _, hc, hseals, ?_⟩
  rw [hputs.bytesAt, hfurnished.bytesAt]
  rfl

/-! ## The batch -/

/-- From where to where a plan takes what is stored, if this is where it is to be. -/
def DecryptionPlan.job (fs : Fs) (target : DecryptionPlan → List Name × Name) (plan : DecryptionPlan) : Loc × Loc :=
  (fs.place plan.source, (target plan).1 ++ [(target plan).2])

/-- What a batch makes of what a source holds. -/
def Opening (C : Crates) (password : Bytes) : Loc → Loc → Bytes → Bytes → Prop :=
  fun _ target c content => SealsAt C password target content c

section
variable {password content : Bytes} {plan : DecryptionPlan} {plans : List DecryptionPlan} {source t' : List Name}
  {n' : Name} {g : DecryptionBatchGuard} {target : DecryptionPlan → List Name × Name}

theorem DecryptionPlan.Feasible.place_keep (h : plan.Feasible env password fs t n) (hk : fs.Keeps fs') :
    fs'.place plan.source = fs.place plan.source := by
  obtain ⟨d, m, hsource⟩ := h.source
  rw [hsource.place, (hsource.keep hk).place]

/-- A plan stays feasible while others are carried out. -/
theorem DecryptionPlan.Feasible.keep (h : plan.Feasible env password fs t n) (ht : fs.Tidy)
    (hb : fs.Branched [t'] fs') (hbytes : fs'.bytesAt = moved false source (t' ++ [n']) content fs.bytesAt)
    (hsource : fs.place plan.source ≠ t' ++ [n']) (htarget : t ++ [n] ≠ t' ++ [n']) (hbelow : ¬t' ++ [n'] <+: t)
    (habove : ¬t ++ [n] <+: t') : plan.Feasible env password fs' t n := by
  have hother {l : Loc} (hl : l ≠ t' ++ [n']) : fs'.bytesAt l = fs.bytesAt l := by
    rw [hbytes]
    exact Function.update_of_ne hl ..
  constructor
  · obtain ⟨d, m, hsource⟩ := h.source
    exact ⟨d, m, hsource.keep hb.keeps⟩
  · exact h.encrypted
  · rw [h.place_keep hb.keeps, hother hsource]
    exact h.stream
  · refine h.directory.keep hb.keeps ?_
    intro l hl hnone
    rcases hx : fs'.nodeAt l with _ | x
    · exact .inl rfl
    rcases hb.tidy.kinds l x hx with rfl | ⟨i, rfl⟩
    · exact .inr rfl
    · have hsome := Fs.bytesAt_file hx
      rw [hother, (ht.absent_iff.1 hnone).1] at hsome
      · cases hsome
      · rintro rfl
        exact hbelow hl
  · exact h.name
  · obtain ⟨hnone, hdir⟩ := ht.absent_iff.1 h.free
    refine hb.tidy.absent_iff.2 ⟨?_, ?_⟩
    · rw [hother htarget, hnone]
    · rw [Bool.eq_false_iff, Ne, hb.dirAt, hdir]
      simpa using habove

/-- A batch of feasible plans is carried out, all of them. -/
theorem decryptPlans_completes (hr : env.Reliable) (hC : env.crates.Inverts) (ht : fs.Tidy)
    (hplans : ∀ plan ∈ plans, plan.Feasible env password fs (target plan).1 (target plan).2)
    (hsep : Transfer.Separate (plans.map (DecryptionPlan.job fs target)))
    (hnested : ∀ plan ∈ plans, ∀ other ∈ plans, ¬(target plan).1 ++ [(target plan).2] <+: (target other).1)
    (hguard : ∀ plan ∈ plans, g.Admits env (plan.job fs target).1 (plan.job fs target).2)
    (hkeys : plans.Pairwise fun a b =>
      keyText env (.absolute (b.job fs target).2) ≠ keyText env (.absolute (a.job fs target).2)) (force : Bool) :
    CompletesUnder fs g (decryptPlans env password force plans) fun results fs' _ =>
      results = plans.map (fun plan => .ok (plan.targetDir.push (.name (target plan).2))) ∧
        fs.Branched (plans.map fun plan => (target plan).1) fs' ∧
        Transfer.Run (Opening env.crates password) false (plans.map (DecryptionPlan.job fs target))
          fs.bytesAt fs'.bytesAt := by
  induction plans generalizing fs g with
  | nil =>
    refine .pure ⟨rfl, ⟨.refl fs, ht, ?_⟩, .nil⟩
    simp
  | cons plan plans ih =>
    have hplan := hplans plan List.mem_cons_self
    have hmem {other : DecryptionPlan} (h : other ∈ plans) : other ∈ plan :: plans := List.mem_cons_of_mem _ h
    refine .bind (.attempt (decryptFile_completes hr hC ht hplan (hguard plan List.mem_cons_self) force)) ?_
    rintro _ fs₁ _ ⟨_, rfl, rfl, rfl, hb, c, content, hc, hseals, hbytes⟩
    have hmore (other : DecryptionPlan) (h : other ∈ plans) :
        other.Feasible env password fs₁ (target other).1 (target other).2 := by
      have hjob := List.mem_map_of_mem (f := DecryptionPlan.job fs target) h
      obtain ⟨-, htargets, hcross, -⟩ := hsep.head hjob
      exact (hplans other (hmem h)).keep ht hb hbytes hcross htargets (hnested plan List.mem_cons_self other (hmem h))
        (hnested other (hmem h) plan List.mem_cons_self)
    have hjob (other : DecryptionPlan) (h : other ∈ plans) : other.job fs₁ target = other.job fs target := by
      rw [DecryptionPlan.job, (hplans other (hmem h)).place_keep hb.keeps, DecryptionPlan.job]
    have hjobs : plans.map (DecryptionPlan.job fs₁ target) = plans.map (DecryptionPlan.job fs target) :=
      List.map_congr_left hjob
    obtain ⟨hfirst, hkeys⟩ := List.pairwise_cons.1 hkeys
    have hrest := @ih fs₁ (g.reserving env ((target plan).1 ++ [(target plan).2])) hb.tidy hmore
      (by rw [hjobs]; exact hsep.tail) (fun a ha b hb => hnested a (hmem ha) b (hmem hb)) ?_ ?_
    · rw [hjobs] at hrest
      refine .bind hrest ?_
      rintro _ fs₂ _ ⟨rfl, hb', hrun⟩
      refine .pure ⟨rfl, hb.trans hb', ?_⟩
      refine .cons hc ?_ hseals (hbytes ▸ hrun)
      exact (ht.absent_iff.1 hplan.free).1
    · intro other h
      rw [hjob other h]
      obtain ⟨hknown, hother, hfresh⟩ := hguard other (hmem h)
      refine ⟨hknown, hother, ?_⟩
      intro hreserved
      rcases List.mem_cons.1 hreserved with heq | hreserved
      · exact hfirst other h heq
      · exact hfresh hreserved
    · refine hkeys.imp_of_mem ?_
      intro a b ha hb hne
      rwa [hjob a ha, hjob b hb]

/-- Nothing keeps these plans from being carried out as a batch: each is feasible, no
two have one output, none has a source for its output, and no output is where a
directory is needed. -/
structure Decryptable (env : Env) (password : Bytes) (fs : Fs) (target : DecryptionPlan → List Name × Name)
    (plans : List DecryptionPlan) : Prop where
  feasible : ∀ plan ∈ plans, plan.Feasible env password fs (target plan).1 (target plan).2
  outputs : plans.Pairwise fun a b =>
    keyText env (.absolute (b.job fs target).2) ≠ keyText env (.absolute (a.job fs target).2)
  apart : ∀ plan ∈ plans, ∀ other ∈ plans,
    keyText env (.absolute (other.job fs target).2) ≠ keyText env (.absolute (plan.job fs target).1)
  nested : ∀ plan ∈ plans, ∀ other ∈ plans, ¬(target plan).1 ++ [(target plan).2] <+: (target other).1

theorem Decryptable.separate (h : Decryptable env password fs target plans) (ht : fs.Tidy)
    (hdistinct : fs.Distinct env (plans.map (·.source))) :
    Transfer.Separate (plans.map (DecryptionPlan.job fs target)) := by
  constructor
  · rw [List.map_map, List.Nodup, List.pairwise_map]
    rw [Fs.Distinct, List.pairwise_map] at hdistinct
    refine hdistinct.imp_of_mem ?_
    intro a b ha hb hne heq
    obtain ⟨d, m, hsource⟩ := (h.feasible a ha).source
    obtain ⟨d', m', hsource'⟩ := (h.feasible b hb).source
    simp only [Function.comp_apply, DecryptionPlan.job, hsource.place, hsource'.place] at heq
    exact hne (.inl (by rw [ht.keyOf_eq hsource, ht.keyOf_eq hsource', heq]))
  · rw [List.map_map, List.Nodup, List.pairwise_map]
    refine h.outputs.imp ?_
    intro a b hne heq
    exact hne (congrArg (fun l => keyText env (.absolute l)) heq).symm
  · intro a ha b hb
    obtain ⟨plan, hplan, rfl⟩ := List.mem_map.1 ha
    obtain ⟨other, hother, rfl⟩ := List.mem_map.1 hb
    intro heq
    exact h.apart plan hplan other hother (congrArg (fun l => keyText env (.absolute l)) heq).symm

end

/-! ## The plan -/

section
variable {k : Nat} {inputs : List Path} {plans : List DecryptionPlan}

/-- Files of which no two are the same are planned, each for its directory. -/
theorem planDecryptionInputs_answers (hr : env.Reliable) (ht : fs.Tree) (hin : ∀ input ∈ inputs, fs.Exists input)
    (hext : ∀ input ∈ inputs, ∀ i, fs.IsFile input i → input.encrypted = true)
    (hdistinct : fs.Distinct env (fs.inputsFiles true inputs)) (base : Option Path) :
    ∃ plans : List DecryptionPlan, Answers fs k (planDecryptionInputs env inputs base) (.ok plans) k ∧
      (plans.map (·.source)).Perm (fs.inputsFiles true inputs) ∧
      ∀ plan ∈ plans, ∃ input ∈ inputs, fs.Assigned base input plan := by
  have hfiles : ∀ p ∈ fs.inputsFiles true inputs, ∃ i, fs.IsFile p i := ht.inputsFiles_isFile hin
  choose! inode hinode using hfiles
  obtain ⟨plans, hperm, hassigned, hplan⟩ := @planInputs_decided env fs k inode base hr.quiet hr.faultless ht inputs
    hin hext
  have hb : Batch fs ([] ++ plans.map (·.source)) inode := ⟨ht, fun s hs => hinode s (hperm.mem_iff.1 hs)⟩
  have hsorted : (plans.mergeSort fun left right => left.source.le right.source).Perm plans := List.mergeSort_perm ..
  refine ⟨_, ?_, (hsorted.map _).trans hperm, fun plan hmem => hassigned plan (hsorted.mem_iff.1 hmem)⟩
  cases hplan [] [] hb List.Pairwise.nil with
  | planned _ hm => exact .bind hm (.pure _)
  | refused hsame _ => exact absurd ((Fs.Distinct.perm hperm).2 hdistinct) hsame

/-- The guard of a batch knows its sources, and has reserved nothing. -/
theorem guard_new_answers (hr : env.Reliable) (ht : fs.Tree) (hfiles : ∀ plan ∈ plans, ∃ i, fs.IsFile plan.source i)
    (hdistinct : fs.Distinct env (plans.map (·.source))) : ∃ handles,
      Answers fs k (DecryptionBatchGuard.new env plans)
        (.ok ⟨((plans.map (·.source)).map (fs.keyOf env)).reverse ++ [], handles, []⟩) k := by
  have hsources : ∀ p ∈ plans.map (·.source), ∃ i, fs.IsFile p i := by
    intro p hp
    obtain ⟨plan, hmem, rfl⟩ := List.mem_map.1 hp
    exact hfiles plan hmem
  choose! inode hinode using hsources
  have hb : Batch fs (plans.map (·.source)) inode := ⟨ht, hinode⟩
  obtain ⟨hkeys, hhandles⟩ := hb.pairwise_iff.1 hdistinct
  exact ⟨_, .bind (registerSources_answers hr.quiet hr.faultless hb hkeys hhandles) (.pure _)⟩

end

/-! ## The command -/

section
variable {console : Console} {password : Str} {inputs : List Path} {base : Option Path} {force progress : Bool}
  {s : Session} {target : DecryptionPlan → List Name × Name}

/-- When nothing fails, files that can be decrypted are planned, and every plan is
carried out. -/
theorem decryptInputs_completes {w : World} {password : Bytes} (target : DecryptionPlan → List Name × Name) (hr : env.Reliable) (hC : env.crates.Inverts)
    (ht : w.fs.Tidy) (hin : ∀ input ∈ inputs, w.fs.Exists input)
    (hext : ∀ input ∈ inputs, ∀ i, w.fs.IsFile input i → input.encrypted = true)
    (hdistinct : w.fs.Distinct env (w.fs.inputsFiles true inputs))
    (hplans : ∀ plans : List DecryptionPlan, (plans.map (·.source)).Perm (w.fs.inputsFiles true inputs) →
      (∀ plan ∈ plans, ∃ input ∈ inputs, w.fs.Assigned base input plan) →
      Decryptable env password w.fs target plans) (force : Bool) :
    ∃ (plans : List DecryptionPlan) (g g' : DecryptionBatchGuard) (w₁ w₂ w₃ : World),
      planDecryptionInputs env inputs base w = (.ok plans, w₁) ∧
      DecryptionBatchGuard.new env plans w₁ = (.ok g, w₂) ∧
      decryptPlans env password force plans (w₂, g) =
        (.ok (plans.map fun plan => .ok (plan.targetDir.push (.name (target plan).2))), (w₃, g')) ∧
      (plans.map (·.source)).Perm (w.fs.inputsFiles true inputs) ∧
      (∀ plan ∈ plans, ∃ input ∈ inputs, w.fs.Assigned base input plan) ∧
      Transfer.Separate (plans.map (DecryptionPlan.job w.fs target)) ∧
      w.fs.Branched (plans.map fun plan => (target plan).1) w₃.fs ∧
      Transfer.Run (Opening env.crates password) false (plans.map (DecryptionPlan.job w.fs target))
        w.fs.bytesAt w₃.fs.bytesAt := by
  obtain ⟨plans, hanswers, hperm, hassigned⟩ := planDecryptionInputs_answers (k := w.draws) hr ht.toTree hin hext
    hdistinct base
  have hdecryptable := hplans plans hperm hassigned
  have hdistinct' : w.fs.Distinct env (plans.map (·.source)) := (Fs.Distinct.perm hperm).2 hdistinct
  have hseparate := hdecryptable.separate ht hdistinct'
  have hfiles : ∀ plan ∈ plans, ∃ i, w.fs.IsFile plan.source i := fun plan hmem =>
    ht.inputsFiles_isFile hin _ (hperm.mem_iff.1 (List.mem_map_of_mem hmem))
  obtain ⟨handles, hguard⟩ := guard_new_answers (k := w.draws) hr ht.toTree hfiles hdistinct'
  obtain ⟨w₁, hplan, hw₁⟩ := hanswers.run (s := w) rfl
  obtain ⟨w₂, hnew, hw₂⟩ := hguard.run (s := w₁) hw₁
  have hworld : w₂.fs = w.fs := congrArg Prod.fst hw₂
  -- the guard knows the sources and no output
  have hadmits : ∀ plan ∈ plans, DecryptionBatchGuard.Admits env
      ⟨((plans.map (·.source)).map (w.fs.keyOf env)).reverse ++ [], handles, []⟩
      (plan.job w.fs target).1 (plan.job w.fs target).2 := by
    have hkey (plan : DecryptionPlan) (hmem : plan ∈ plans) :
        w.fs.keyOf env plan.source = keyText env (.absolute (plan.job w.fs target).1) := by
      obtain ⟨d, m, hsource⟩ := (hdecryptable.feasible plan hmem).source
      rw [ht.keyOf_eq hsource, DecryptionPlan.job, hsource.place]
    intro plan hmem
    refine ⟨?_, ?_, by simp⟩
    · rw [← hkey plan hmem]
      simp only [List.append_nil, List.mem_reverse]
      exact List.mem_map_of_mem (List.mem_map_of_mem hmem)
    · simp only [List.append_nil, List.mem_reverse, List.map_map]
      intro hknown
      obtain ⟨other, hother, heq⟩ := List.mem_map.1 hknown
      rw [Function.comp_apply, hkey other hother] at heq
      exact hdecryptable.apart other hother plan hmem heq.symm
  have hcompletes := decryptPlans_completes hr hC ht hdecryptable.feasible hseparate hdecryptable.nested hadmits
    hdecryptable.outputs force
  obtain ⟨_, ⟨w₃, g'⟩, hrun, rfl, hbranched, hjobs⟩ := Returns.run hcompletes
    (s := (w₂, ⟨((plans.map (·.source)).map (w.fs.keyOf env)).reverse ++ [], handles, []⟩)) ⟨hworld, rfl⟩
  exact ⟨plans, _, g', w₁, w₂, w₃, hplan, hnew, hrun, hperm, hassigned, hseparate, hbranched, hjobs⟩

/-- When nothing fails, a decryption of files that can be decrypted ends in 0. -/
theorem decryption_completes (hr : env.Reliable) (hC : env.crates.Inverts) (hpassword : password.bytes ≠ [])
    (hconsole : console.Answers password) (ht : s.world.fs.Tidy) (hin : ∀ input ∈ inputs, s.world.fs.Exists input)
    (hext : ∀ input ∈ inputs, ∀ i, s.world.fs.IsFile input i → input.encrypted = true)
    (hsome : s.world.fs.inputsFiles true inputs ≠ [])
    (hdistinct : s.world.fs.Distinct env (s.world.fs.inputsFiles true inputs))
    (hplans : ∀ plans : List DecryptionPlan, (plans.map (·.source)).Perm (s.world.fs.inputsFiles true inputs) →
      (∀ plan ∈ plans, ∃ input ∈ inputs, s.world.fs.Assigned base input plan) →
      Decryptable env password.bytes s.world.fs target plans) :
    ∃ t, ∃ plans : List DecryptionPlan, main env console (.decrypt inputs base force progress) s = (0, t) ∧
      (plans.map (·.source)).Perm (s.world.fs.inputsFiles true inputs) ∧
      (∀ plan ∈ plans, ∃ input ∈ inputs, s.world.fs.Assigned base input plan) ∧
      Transfer.Separate (plans.map (DecryptionPlan.job s.world.fs target)) ∧
      s.world.fs.Branched (plans.map fun plan => (target plan).1) t.world.fs ∧
      Transfer.Run (Opening env.crates password.bytes) false (plans.map (DecryptionPlan.job s.world.fs target))
        s.world.fs.bytesAt t.world.fs.bytesAt := by
  obtain ⟨plans, g, g', w₁, w₂, w₃, hplan, hnew, hrun, hperm, hassigned, hseparate, hbranched, hjobs⟩ :=
    decryptInputs_completes target hr hC ht hin hext hdistinct hplans force
  have hinputs : inputs ≠ [] := by
    rintro rfl
    exact hsome rfl
  have hplans : plans ≠ [] := by
    rintro rfl
    exact hsome hperm.symm.eq_nil
  obtain ⟨t, hmain, rfl⟩ := main_decrypt_answered hconsole hpassword hinputs hplan hplans hnew hrun
    (by simp [Except.isOk, Except.toBool])
  exact ⟨t, plans, hmain, hperm, hassigned, hseparate, hbranched, hjobs⟩

end

end

end Ironlock
