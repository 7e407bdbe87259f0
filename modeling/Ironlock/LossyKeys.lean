import Ironlock.EncryptionPlan
import Ironlock.Lib.Lossy
import Ironlock.SecureFs.GuardFacts
import Ironlock.Spelling

/-! Path keys are texts, and names that are no text are blurred in them: which
places have one key, and what the planners report of files whose keys are one. -/

namespace Ironlock
open ByteOrder (Bytes)
open Effect
open Fs (Identity Metadata SysCall)

/-! ## Places with one key -/

/-- Names that are the same, one by one, but for what is no text in them. -/
def SameText (a b : List Name) : Prop := List.Forall₂ (fun n m => Utf8.Blurred n.bytes m.bytes) a b

section
variable {env : Env} {a b : List Name}

theorem slash_ascii : slash < 0x80 := by decide

/-- A path is decoded name by name. -/
theorem lossy_intercalate (parts : List Bytes) :
    Utf8.lossy (List.intercalate [slash] parts) = List.intercalate [slash] (parts.map Utf8.lossy) := by
  induction parts with
  | nil => rfl
  | cons x parts ih =>
    cases parts with
    | nil => simp
    | cons y parts =>
      have hcons (x y : Bytes) (l : List Bytes) : List.intercalate [slash] (x :: y :: l) =
          x ++ slash :: List.intercalate [slash] (y :: l) := by
        simp [List.intercalate]
      rw [hcons, Utf8.lossy_ascii slash_ascii, ih]
      simp only [List.map_cons, hcons]

theorem slash_not_mem_lossy (n : Name) : slash ∉ Utf8.lossy n.bytes := by
  intro h
  rcases Utf8.mem_lossyFrom h with h | h | h
  · simp [Utf8.Pending.none] at h
  · exact n.slash_not_mem h
  · revert h
    decide

theorem lossy_render (a : List Name) : Utf8.lossy (Path.absolute a).render =
    slash :: List.intercalate [slash] (a.map fun n => Utf8.lossy n.bytes) := by
  rw [render_absolute, ← List.nil_append (slash :: _), Utf8.lossy_ascii slash_ascii, lossy_intercalate,
    List.map_map]
  rfl

/-- On Linux two places have one key exactly when their names are the same but
for what is no text in them. -/
theorem keyText_eq_iff (hlinux : env.target = .linux) :
    keyText env (.absolute a) = keyText env (.absolute b) ↔ SameText a b := by
  have hsame : SameText a b ↔ (a.map fun n => Utf8.lossy n.bytes) = b.map fun n => Utf8.lossy n.bytes := by
    rw [← List.forall₂_eq_eq_eq, List.forall₂_map_left_iff, List.forall₂_map_right_iff]
    simp only [Utf8.lossy_eq_iff, SameText]
  rw [keyText, keyText, if_pos hlinux, if_pos hlinux, lossy_render, lossy_render, hsame, List.cons.injEq]
  have hsplit (l : List Name) (hl : l ≠ []) :
      (List.intercalate [slash] (l.map fun n => Utf8.lossy n.bytes)).splitOn slash =
        l.map fun n => Utf8.lossy n.bytes := by
    refine List.splitOn_intercalate slash (fun b hb => ?_) (by simpa using hl)
    obtain ⟨n, -, rfl⟩ := List.mem_map.1 hb
    exact slash_not_mem_lossy n
  have hnil (l : List Name) (hl : l ≠ []) :
      List.intercalate [slash] (l.map fun n => Utf8.lossy n.bytes) ≠ [] := by
    intro h
    have := hsplit l hl
    rw [h, List.splitOn_nil] at this
    cases l with
    | nil => exact hl rfl
    | cons n l =>
      rw [List.map_cons, List.cons.injEq] at this
      exact Utf8.lossy_ne_nil n.bytes_ne_nil this.1.symm
  constructor
  · rintro ⟨-, h⟩
    by_cases ha : a = []
    · by_cases hb : b = []
      · rw [ha, hb]
      · rw [ha] at h
        exact absurd h.symm (hnil b hb)
    · by_cases hb : b = []
      · rw [hb] at h
        exact absurd h (hnil a ha)
      · have := congrArg (List.splitOn slash) h
        rwa [hsplit a ha, hsplit b hb] at this
  · intro h
    exact ⟨rfl, by rw [h]⟩

/-- Places whose names are text are the same when their texts are. -/
theorem SameText.eq (h : SameText a b) (ha : ∀ n ∈ a, Utf8.valid n.bytes = true)
    (hb : ∀ n ∈ b, Utf8.valid n.bytes = true) : a = b := by
  induction h with
  | nil => rfl
  | @cons n m a b hnm _ ih =>
    rw [← Utf8.lossy_eq_iff, Utf8.lossy_of_valid (ha n List.mem_cons_self),
      Utf8.lossy_of_valid (hb m List.mem_cons_self)] at hnm
    rw [Name.ext hnm, ih (fun k hk => ha k (List.mem_cons_of_mem _ hk))
      fun k hk => hb k (List.mem_cons_of_mem _ hk)]

end

/-! ## The key of a path that leads somewhere -/

namespace Fs
variable {fs : Fs} {p : Path} {names found : List Name} {follow : Bool} {parts : List Part} {rest : List Hop}

/-- Without links a walk goes where its names lead. -/
theorem LinkFree.walkWith_lexical (h : fs.LinkFree)
    (next : List Hop → List Name → Except ErrorKind (List Name)) (hrest : rest = [] ∨ rest = [none])
    (hwalk : fs.walkWith follow next (parts.map some ++ rest) names = .ok found) :
    found = lexicalFrom names parts := by
  induction parts generalizing names with
  | nil => rcases hrest with rfl | rfl <;> cases hwalk <;> rfl
  | cons part parts ih =>
    cases part with
    | up => exact ih hwalk
    | name n =>
      have hlast {names' : List Name} (hnil : parts.map some ++ rest = []) (heq : names ++ [n] = names') :
          names' = lexicalFrom names (.name n :: parts) := by
        obtain ⟨hparts, -⟩ := List.append_eq_nil_iff.1 hnil
        rw [List.map_eq_nil_iff.1 hparts, ← heq]
        rfl
      simp only [List.map_cons, List.cons_append, Fs.walkWith] at hwalk
      split at hwalk
      · split at hwalk <;> cases hwalk
        exact hlast ‹_› rfl
      · exact ih hwalk
      · rename_i t hlink
        exact absurd hlink (h.links _ t)
      · split at hwalk <;> cases hwalk
        exact hlast ‹_› rfl

theorem LinkFree.resolve_lexical (h : fs.LinkFree) (hr : fs.resolve follow p = .ok found) :
    found = fs.lexical p := by
  obtain ⟨-, -, hwalk⟩ := resolve_eq_ok hr
  have hrest : (if p.dirOnly then [none] else [] : List Hop) = [] ∨
      (if p.dirOnly then [none] else [] : List Hop) = [none] := by split <;> simp
  exact h.walkWith_lexical (fs.walk follow 39) hrest hwalk

/-- What a path leads to has its own place for a key. -/
theorem LinkFree.keyPath_resolve (h : fs.LinkFree) (hnul : fs.NulFree) (hcwd : fs.DirPath fs.cwd)
    (hr : fs.resolve follow p = .ok found) : fs.keyPath p = .ok (.absolute found) := by
  have hplace := h.resolve_lexical hr
  have hfront := resolve_dirPath (fs.start_dirPath hcwd p) hr
  have hfree := hnul.resolve hr
  refine (h.keyPath_iff (resolve_eq_ok hr).2.1).2 ?_
  rw [← hplace]
  refine ⟨hfree, ?_, rfl⟩
  intro front hf hne x hx
  rcases List.eq_nil_or_concat found with rfl | ⟨d, n, rfl⟩
  · exact absurd (List.prefix_nil.1 hf) hne
  · rw [List.concat_eq_append] at hf hne hfront
    rw [List.dropLast_concat] at hfront
    rcases List.prefix_concat_iff.1 hf with rfl | hf
    · exact absurd rfl hne
    · rw [hfront front hf] at hx
      exact (Option.some.inj hx).symm

end Fs

/-- Paths lead where their names say: no links, no NUL bytes in names, and a
working directory that is there. -/
structure Fs.Literal (fs : Fs) : Prop where
  free : fs.LinkFree
  nul : fs.NulFree
  cwd : fs.DirPath fs.cwd

/-! ## Files of a batch -/

/-- A path to a regular file, with the file's place and inode. -/
structure Item where
  path : Path
  place : List Name
  inode : Nat

structure Fs.Holds (fs : Fs) (x : Item) : Prop where
  resolve : fs.resolve false x.path = .ok x.place
  node : fs.node x.place = some (.file x.inode)

/-- The same file, or one whose name is the same text. -/
def Item.Repeats (x y : Item) : Prop := x.inode = y.inode ∨ SameText x.place y.place

/-- No file repeats one before it. -/
def Distinct (items : List Item) : Prop := items.Pairwise fun x y => ¬x.Repeats y

def keysOf (env : Env) (items : List Item) : List Bytes :=
  (items.map fun x => keyText env (.absolute x.place)).reverse

def handlesOf (items : List Item) : List Identity := (items.map fun x => .file x.inode).reverse

/-- The report that a file was given twice. -/
def repeated (p : Path) : IronlockError :=
  .outputCollision [.text "input '", .path p, .text "' was specified more than once"]

section
variable {env : Env} {fs : Fs} {k : Nat} {x : Item} {done items more : List Item}

theorem keysOf_concat : keyText env (.absolute x.place) :: keysOf env done = keysOf env (done ++ [x]) := by
  simp [keysOf]

theorem handlesOf_concat : .file x.inode :: handlesOf done = handlesOf (done ++ [x]) := by
  simp [handlesOf]

/-- A key or a handle that is taken is that of a file repeated. -/
theorem taken_iff (hlinux : env.target = .linux) :
    (keyText env (.absolute x.place) ∈ keysOf env done ∨ .file x.inode ∈ handlesOf done) ↔
      ∃ y ∈ done, y.Repeats x := by
  simp only [keysOf, handlesOf, List.mem_reverse, List.mem_map, keyText_eq_iff hlinux, Identity.file.injEq,
    Item.Repeats]
  constructor
  · rintro (⟨y, hy, h⟩ | ⟨y, hy, h⟩)
    · exact ⟨y, hy, .inr h⟩
    · exact ⟨y, hy, .inl h⟩
  · rintro ⟨y, hy, h | h⟩
    · exact .inr ⟨y, hy, h⟩
    · exact .inl ⟨y, hy, h⟩

theorem Fs.Literal.key_answers (h : fs.Literal) (hq : env.Quiet) (hf : env.Faultless) {p : Path}
    {follow : Bool} {found : List Name} (hr : fs.resolve follow p = .ok found) :
    Answers fs k (normalizedPathKey env p) (.ok (keyText env (.absolute found))) k := by
  refine normalizedPathKey_answers hq hf ?_
  rw [Fs.pathKey, h.free.keyPath_resolve h.nul h.cwd hr]
  rfl

theorem Fs.Holds.handle_answers (h : fs.Holds x) (hq : env.Quiet) (hf : env.Faultless) :
    Answers fs k (Sys.handleFromPath env x.path) (.ok (.file x.inode)) k := by
  have hr := Fs.resolve_follow (fun t ht => by rw [h.node] at ht; cases ht) h.resolve
  refine handleFromPath_answers hq hf ?_
  simp only [Fs.openRead, Fs.look, hr, h.node, Fs.identity]

/-- What a planner makes of `items` when it has accepted `done`. -/
inductive Verdict (fs : Fs) (k : Nat) {α : Type} (m : FsM α) (accepts : α → Prop) (done items : List Item) :
    Prop
  | accepted {a : α} : Answers fs k m (.ok a) k → accepts a → (Distinct done → Distinct (done ++ items)) →
      Verdict fs k m accepts done items
  | failed {e : IronlockError} : Answers fs k m (.error e) k → (∀ p, e ≠ repeated p) →
      Verdict fs k m accepts done items
  | repeats {before : List Item} {x : Item} {after : List Item} : items = before ++ x :: after →
      (∃ y ∈ done ++ before, y.Repeats x) → Answers fs k m (.error (repeated x.path)) k →
      Verdict fs k m accepts done items

theorem Distinct.concat (h : Distinct done) (hx : ∀ y ∈ done, ¬y.Repeats x) : Distinct (done ++ [x]) := by
  refine List.pairwise_append.2 ⟨h, List.pairwise_singleton .., ?_⟩
  intro y hy z hz
  rw [List.mem_singleton.1 hz]
  exact hx y hy

namespace Verdict
variable {α β : Type} {m : FsM α} {f : α → FsM β} {P : α → Prop} {Q : β → Prop}

/-- What follows goes on from the files accepted. -/
theorem bind (h : Verdict fs k m P done items) (hf : ∀ a, P a → Verdict fs k (f a) Q (done ++ items) more) :
    Verdict fs k (m >>= f) Q done (items ++ more) := by
  cases h with
  | accepted hm ha hdistinct =>
    cases hf _ ha with
    | accepted hn hb hmore =>
      exact .accepted (.bind hm hn) hb fun hdone => by
        rw [← List.append_assoc]
        exact hmore (hdistinct hdone)
    | failed hn he => exact .failed (.bind hm hn) he
    | repeats heq hy hn =>
      refine .repeats (by rw [heq, List.append_assoc]) ?_ (.bind hm hn)
      rwa [← List.append_assoc]
  | failed hm he => exact .failed (.bind_error hm _) he
  | repeats heq hy hm =>
    exact .repeats (by rw [heq, List.append_assoc, List.cons_append]) hy (.bind_error hm _)

/-- A step that is not about the files. -/
theorem bind_ok {a : α} (hm : Answers fs k m (.ok a) k) (hf : Verdict fs k (f a) Q done items) :
    Verdict fs k (m >>= f) Q done items := by
  cases hf with
  | accepted hn hb hdistinct => exact .accepted (.bind hm hn) hb hdistinct
  | failed hn he => exact .failed (.bind hm hn) he
  | repeats heq hy hn => exact .repeats heq hy (.bind hm hn)

theorem pure {a : α} (ha : P a) : Verdict fs k (Pure.pure a : FsM α) P done [] :=
  .accepted (.pure a) ha fun h => by rwa [List.append_nil]

theorem ite {c : Prop} [Decidable c] {n : FsM α} (hm : c → Verdict fs k m P done items)
    (hn : ¬c → Verdict fs k n P done items) : Verdict fs k (if c then m else n) P done items := by
  split
  · exact hm ‹_›
  · exact hn ‹_›

end Verdict

/-! ## Registering -/

/-- Files are registered up to the first that repeats one before it. -/
theorem registerSources_decides (hlinux : env.target = .linux) (hq : env.Quiet) (hf : env.Faultless)
    (h : fs.Literal) (hitems : ∀ x ∈ items, fs.Holds x) :
    ((Distinct done → Distinct (done ++ items)) ∧
      Answers fs k (registerSources env (items.map Item.path) (keysOf env done) (handlesOf done))
        (.ok (keysOf env (done ++ items), handlesOf (done ++ items))) k) ∨
    ∃ before x after, items = before ++ x :: after ∧ (∃ y ∈ done ++ before, y.Repeats x) ∧
      Answers fs k (registerSources env (items.map Item.path) (keysOf env done) (handlesOf done))
        (.error (repeated x.path)) k := by
  induction items generalizing done with
  | nil =>
    rw [List.append_nil]
    exact .inl ⟨id, .pure _⟩
  | cons x items ih =>
    have hx := hitems x List.mem_cons_self
    have hstep {r : Except IronlockError (List Bytes × List Identity)}
        (hm : Answers fs k (if keyText env (.absolute x.place) ∈ keysOf env done ∨
            .file x.inode ∈ handlesOf done then Eff.fail (repeated x.path)
          else registerSources env (items.map Item.path) (keyText env (.absolute x.place) :: keysOf env done)
            (.file x.inode :: handlesOf done)) r k) :
        Answers fs k (registerSources env ((x :: items).map Item.path) (keysOf env done) (handlesOf done)) r k :=
      .bind (h.key_answers hq hf hx.resolve) (.bind (hx.handle_answers hq hf) hm)
    by_cases hy : ∃ y ∈ done, y.Repeats x
    · exact .inr ⟨[], x, items, rfl, by rwa [List.append_nil],
        hstep (.ite_pos ((taken_iff hlinux).2 hy) (.fail _))⟩
    · have hnew (hdone : Distinct done) : Distinct (done ++ [x]) :=
        hdone.concat fun y hy' hrep => hy ⟨y, hy', hrep⟩
      rcases @ih (done ++ [x]) fun y hy => hitems y (List.mem_cons_of_mem _ hy) with
        ⟨hdistinct, hrest⟩ | ⟨before, y, after, rfl, hrep, hrest⟩ <;>
        rw [← keysOf_concat, ← handlesOf_concat] at hrest
      · rw [List.append_assoc, List.singleton_append] at hdistinct hrest
        exact .inl ⟨fun hdone => hdistinct (hnew hdone), hstep (.ite_neg (mt (taken_iff hlinux).1 hy) hrest)⟩
      · rw [List.append_assoc, List.singleton_append] at hrep
        exact .inr ⟨x :: before, y, after, rfl, hrep, hstep (.ite_neg (mt (taken_iff hlinux).1 hy) hrest)⟩

theorem planSource_verdict (hlinux : env.target = .linux) (hq : env.Quiet) (hf : env.Faultless)
    (h : fs.Literal) (hx : fs.Holds x) (targetDir : Path) :
    Verdict fs k (planSource env x.path targetDir (keysOf env done) (handlesOf done))
      (fun r => r.2 = (keysOf env (done ++ [x]), handlesOf (done ++ [x]))) done [x] := by
  refine .bind_ok (h.key_answers hq hf hx.resolve) (.bind_ok (hx.handle_answers hq hf) ?_)
  by_cases hy : ∃ y ∈ done, y.Repeats x
  · refine .repeats (List.nil_append _).symm (by rwa [List.append_nil]) (.ite_pos ((taken_iff hlinux).2 hy) ?_)
    exact .fail _
  · rw [if_neg (mt (taken_iff hlinux).1 hy), keysOf_concat, handlesOf_concat]
    exact .accepted (.pure _) rfl fun hdone => hdone.concat fun y hy' hrep => hy ⟨y, hy', hrep⟩

/-! ## The decryption planner -/

theorem unsafe_ne_repeated (before after : String) (p q : Path) : unsafe_ before p after ≠ repeated q := nofun

theorem planDirectory_verdict (hlinux : env.target = .linux) (hq : env.Quiet) (hf : env.Faultless)
    (h : fs.Literal) (outputBase : Option Path) (root : Path) {sources : List Path}
    (hitems : ∀ x ∈ items, fs.Holds x) (hpaths : items.map Item.path = sources.filter Path.encrypted)
    (plans : List DecryptionPlan) :
    Verdict fs k (planDirectory env outputBase root sources plans (keysOf env done) (handlesOf done))
      (fun r => r.2 = (keysOf env (done ++ items), handlesOf (done ++ items))) done items := by
  induction sources generalizing items done plans with
  | nil =>
    obtain rfl := List.map_eq_nil_iff.1 hpaths
    exact .pure (by rw [List.append_nil])
  | cons source sources ih =>
    unfold planDirectory
    cases hsource : source.encrypted with
    | false =>
      rw [List.filter_cons_of_neg (by simp [hsource])] at hpaths
      exact .ite (fun _ => ih hitems hpaths plans) fun hno => absurd rfl hno
    | true =>
      rw [List.filter_cons_of_pos hsource] at hpaths
      obtain ⟨x, items, rfl, rfl, hrest⟩ := List.map_eq_cons_iff.1 hpaths
      refine .ite (fun hno => absurd hno (by simp)) fun _ => ?_
      cases htarget : targetDirectory outputBase root x.path with
      | error e =>
        refine .failed (.bind_error (.ofExcept _) _) ?_
        unfold targetDirectory at htarget
        split at htarget <;> cases htarget
        exact unsafe_ne_repeated _ _ _
      | ok targetDir =>
        refine .bind_ok (.ofExcept _) ?_
        change Verdict fs k _ _ done ([x] ++ items)
        refine .bind (planSource_verdict hlinux hq hf h (hitems x List.mem_cons_self) targetDir) ?_
        rintro ⟨plan, seen, handles⟩ hr
        cases hr
        have := @ih (done ++ [x]) items (fun y hy => hitems y (List.mem_cons_of_mem _ hy)) hrest (plans ++ [plan])
        rwa [List.append_assoc] at this

theorem exists_items {files : List Path} (h : ∀ q ∈ files, ∃ i, fs.IsFile q i) :
    ∃ items : List Item, items.map Item.path = files ∧ ∀ x ∈ items, fs.Holds x := by
  induction files with
  | nil => exact ⟨[], rfl, by simp⟩
  | cons q files ih =>
    obtain ⟨items, hpaths, hitems⟩ := ih fun p hp => h p (List.mem_cons_of_mem _ hp)
    obtain ⟨i, names, hr, hx⟩ := h q List.mem_cons_self
    exact ⟨⟨q, names, i⟩ :: items, by rw [List.map_cons, hpaths], List.forall_mem_cons.2 ⟨⟨hr, hx⟩, hitems⟩⟩

/-- One input of the planner stands for some files, or it is refused. -/
theorem planInput_verdict (hlinux : env.target = .linux) (hq : env.Quiet) (hf : env.Faultless)
    (h : fs.Literal) (outputBase : Option Path) (input : Path) (done : List Item)
    (plans : List DecryptionPlan) :
    (∃ e, Answers fs k (planInput env outputBase input plans (keysOf env done) (handlesOf done)) (.error e) k ∧
      ∀ p, e ≠ repeated p) ∨
    ∃ items, (∀ x ∈ items, fs.Holds x) ∧
      Answers fs k (collectInput env true input) (.ok (items.map Item.path)) k ∧
      Verdict fs k (planInput env outputBase input plans (keysOf env done) (handlesOf done))
        (fun r => r.2 = (keysOf env (done ++ items), handlesOf (done ++ items))) done items := by
  rcases hm : (fs.symlinkMetadata input).1 with e | m
  · have hop : Fs.symlinkMetadata input fs = (.error e, fs) := Prod.ext hm (look_snd fs)
    refine .inl ⟨_, .bind (try_answers hq hf hop) (.fail _), fun p => ?_⟩
    unfold fileNotFoundOr
    split <;> rintro ⟨⟩
  obtain ⟨names, x, hr, hx, -⟩ := look_eq_ok hm
  have hlook := symlinkMetadata_answers (k := k) hq hf hr hx
  cases x with
  | symlink t => exact absurd hx (h.free.links _ t)
  | special =>
    exact .inl ⟨_, .bind hlook (.bind (rejectLink_answers rfl) (.ite_neg (by simp [Metadata.isDir])
      (.ite_neg (by simp [Metadata.isFile]) (.fail _)))), unsafe_ne_repeated _ _ _⟩
  | dir =>
    have hcanon : Fs.canonicalize input fs = (.ok (.absolute names), fs) := by
      have hfollow := Fs.resolve_follow (fun t ht => by rw [hx] at ht; cases ht) hr
      simp only [Fs.canonicalize, Fs.look, hfollow, hx]
    rcases collectFilesRecursive_collects (k := k) hq hf h.nul h.cwd hr hx with
      ⟨files, hcollect, -⟩ | ⟨-, text, hcollect⟩
    · obtain ⟨w', hrun, -⟩ := hcollect.run (s := ⟨fs, 0, k, []⟩) rfl
      have hfiles := collectFilesRecursive_eq_ok hq hrun
      obtain ⟨items, hpaths, hitems⟩ := exists_items fun q hq =>
        hfiles q (List.mem_of_mem_filter (p := Path.encrypted) hq)
      refine .inr ⟨items, hitems, ?_, ?_⟩
      · rw [hpaths]
        exact .bind hlook (.bind (rejectLink_answers rfl) (.ite_pos rfl (.bind hcollect (.pure _))))
      · refine .bind_ok hlook (.bind_ok (rejectLink_answers rfl) ?_)
        rw [if_pos (by rfl)]
        exact .bind_ok (try_answers hq hf hcanon) (.bind_ok hcollect
          (planDirectory_verdict hlinux hq hf h outputBase _ hitems hpaths plans))
    · exact .inl ⟨_, .bind hlook (.bind (rejectLink_answers rfl) (.ite_pos rfl
        (.bind (try_answers hq hf hcanon) (.bind_error hcollect _)))), fun p hp => by cases hp⟩
  | file i =>
    by_cases hext : input.encrypted = false
    · exact .inl ⟨.invalidExtension, .bind hlook (.bind (rejectLink_answers rfl)
        (.ite_neg (by simp [Metadata.isDir]) (.ite_pos rfl (.ite_pos hext (.fail _))))), fun p hp => by cases hp⟩
    · have hitem : fs.Holds ⟨input, names, i⟩ := ⟨hr, hx⟩
      refine .inr ⟨[⟨input, names, i⟩], List.forall_mem_singleton.2 hitem, ?_, ?_⟩
      · exact .bind hlook (.bind (rejectLink_answers rfl) (.ite_neg (by simp [Metadata.isDir])
          (.ite_pos rfl (.pure _))))
      · refine .bind_ok hlook (.bind_ok (rejectLink_answers rfl) ?_)
        rw [if_neg (by simp [Metadata.isDir]), if_pos (by rfl), if_neg hext, ← List.append_nil [_]]
        refine .bind (planSource_verdict hlinux hq hf h hitem _) ?_
        rintro ⟨plan, seen, handles⟩ hseen
        cases hseen
        exact .pure (by simp)

/-- The inputs up to the one that is refused, all of them when none is, stand
for some files. -/
theorem planInputs_verdict (hlinux : env.target = .linux) (hq : env.Quiet) (hf : env.Faultless)
    (h : fs.Literal) (outputBase : Option Path) (inputs : List Path) (done : List Item)
    (plans : List DecryptionPlan) (files : List Path) :
    ∃ pre post items, inputs = pre ++ post ∧ (∀ x ∈ items, fs.Holds x) ∧
      Answers fs k (collectInputsFrom env true pre files) (.ok (files ++ items.map Item.path)) k ∧
      Verdict fs k (planInputs env outputBase inputs plans (keysOf env done) (handlesOf done))
        (fun _ => post = []) done items := by
  induction inputs generalizing done plans files with
  | nil =>
    refine ⟨[], [], [], rfl, by simp, ?_, .pure rfl⟩
    rw [List.map_nil, List.append_nil]
    exact .pure _
  | cons input inputs ih =>
    rcases planInput_verdict (k := k) hlinux hq hf h outputBase input done plans with
      ⟨e, hrefused, he⟩ | ⟨items, hitems, hcollect, hverdict⟩
    · refine ⟨[], input :: inputs, [], rfl, by simp, ?_, .failed (.bind_error hrefused _) he⟩
      rw [List.map_nil, List.append_nil]
      exact .pure _
    · cases hverdict with
      | @accepted r hm hr hdistinct =>
        obtain ⟨plans', seen, handles⟩ := r
        cases hr
        obtain ⟨pre, post, more, rfl, hmore, hrest, hplan⟩ :=
          ih (done ++ items) plans' (files ++ items.map Item.path)
        have hinput : Verdict fs k (planInput env outputBase input plans (keysOf env done) (handlesOf done))
            (fun r => r = (plans', keysOf env (done ++ items), handlesOf (done ++ items))) done items :=
          .accepted hm rfl hdistinct
        refine ⟨input :: pre, post, items ++ more, rfl, ?_, ?_, hinput.bind ?_⟩
        · exact List.forall_mem_append.2 ⟨hitems, hmore⟩
        · rw [List.map_append, ← List.append_assoc]
          exact .bind hcollect hrest
        · rintro r rfl
          exact hplan
      | failed hm he =>
        refine ⟨[], input :: inputs, [], rfl, by simp, ?_, .failed (.bind_error hm _) he⟩
        rw [List.map_nil, List.append_nil]
        exact .pure _
      | repeats heq hy hm =>
        exact ⟨[input], inputs, items, rfl, hitems, .bind hcollect (.pure _),
          .repeats heq hy (.bind_error hm _)⟩

end

/-! ## The encryption planner -/

/-- The report that two files have one output. -/
def mapsTwice (p : Path) : IronlockError :=
  .outputCollision [.text "multiple inputs map to '", .path p, .text "'"]

/-- The report that a decrypted file would replace a source. -/
def replacesInput (p : Path) : IronlockError :=
  .outputCollision [.text "decrypted output '", .path p, .text "' would replace a pending batch input"]

/-- The report that two decrypted files have one output. -/
def sharesName (p : Path) : IronlockError :=
  .outputCollision [.text "multiple encrypted inputs contain the output filename '", .path p, .text "'"]

/-- The reports that take two files for one. -/
def Confuses (e : IronlockError) : Prop :=
  ∃ p, e = repeated p ∨ e = mapsTwice p ∨ e = replacesInput p ∨ e = sharesName p

/-- However it fails, a program does not take two files for one. -/
abbrev Spares {α : Type} (m : FsM α) : Prop :=
  Triple (fun _ => True) m (fun _ _ => True) fun e _ => ¬Confuses e

section
variable {env : Env} {α β : Type} {m : FsM α} {p q : Path} {w w' : World} {e : IronlockError}

theorem Spares.error (h : Spares m) (hm : m w = (.error e, w')) : ¬Confuses e := Triple.error h trivial hm

theorem spares_pure (a : α) : Spares (Pure.pure a : FsM α) := .pure fun _ _ => trivial

theorem spares_fail (he : ¬Confuses e) : Spares (Eff.fail e : FsM α) := .fail fun _ _ => he

theorem ioError_spared (e : IoError) : ¬Confuses (.ioError e) := by
  rintro ⟨_, h | h | h | h⟩ <;> cases h

theorem unsafe_spared (before after : String) (p : Path) : ¬Confuses (unsafe_ before p after) := by
  rintro ⟨_, h | h | h | h⟩ <;> cases h

theorem fileNotFoundOr_spared (p : Path) (e : IoError) : ¬Confuses (fileNotFoundOr p e) := by
  unfold fileNotFoundOr
  split
  · rintro ⟨_, h | h | h | h⟩ <;> cases h
  · exact ioError_spared e

theorem try_spares {call : Call} {op : SysCall α} : Spares (Sys.try_ env call op) := fun _ _ => trivial

theorem run_spares {call : Call} {op : SysCall α} : Spares (Sys.run env call op) := by
  refine .bind try_spares fun r => ?_
  cases r with
  | ok a => exact spares_pure a
  | error e => exact spares_fail (ioError_spared e)

theorem draw_spares (f : Nat → α) : Spares (Sys.draw f) := fun _ _ => trivial

theorem rejectLink_spares (p : Path) (m : Metadata) : Spares (rejectLinkOrReparse p m) :=
  .ite (fun _ => spares_fail (unsafe_spared _ _ _)) fun _ => spares_pure _

theorem handleFromPath_spares (env : Env) (p : Path) : Spares (Sys.handleFromPath env p) :=
  .bind run_spares fun _ => .bind run_spares fun _ => spares_pure _

theorem closestAncestor_spares (env : Env) (p : Path) (rev missing : List Name) :
    Spares (closestAncestor env p rev missing) := by
  induction rev generalizing missing with
  | nil =>
    refine .bind try_spares fun r => ?_
    cases r with
    | ok existing => exact spares_pure _
    | error e =>
      exact .ite (fun _ => spares_fail (unsafe_spared _ _ _)) fun _ => spares_fail (ioError_spared e)
  | cons n rev ih =>
    refine .bind try_spares fun r => ?_
    cases r with
    | ok existing => exact spares_pure _
    | error e => exact .ite (fun _ => ih _) fun _ => spares_fail (ioError_spared e)

theorem normalizedPathKey_spares (env : Env) (p : Path) : Spares (normalizedPathKey env p) := by
  refine .bind ?_ fun a => .bind (closestAncestor_spares env p _ _) fun _ => spares_pure _
  intro w _
  unfold stdAbsolute
  rcases absolute w.fs.cwd p with e | a
  · exact ioError_spared e
  · trivial

theorem pathKeys_spares (env : Env) (ps : List Path) : Spares (pathKeys env ps) := by
  induction ps with
  | nil => exact spares_pure _
  | cons p ps ih => exact .bind (normalizedPathKey_spares env p) fun _ => .bind ih fun _ => spares_pure _

theorem pathsReferToSameFile_spares (env : Env) (p q : Path) : Spares (pathsReferToSameFile env p q) := by
  refine .bind (normalizedPathKey_spares env p) fun _ => .bind (normalizedPathKey_spares env q) fun _ =>
    .ite (fun _ => spares_pure _) fun _ => .bind try_spares fun r => ?_
  cases r with
  | ok m =>
    exact .bind (rejectLink_spares q m) fun _ => .bind (handleFromPath_spares env p) fun _ =>
      .bind (handleFromPath_spares env q) fun _ => spares_pure _
  | error e => exact .ite (fun _ => spares_pure _) fun _ => spares_fail (ioError_spared e)

theorem collides_spares (env : Env) (defaultKeys unavailable : List Bytes) (p q : Path) :
    Spares (collides env defaultKeys unavailable p q) :=
  .bind (normalizedPathKey_spares env q) fun _ => .ite (fun _ => spares_pure _) fun _ =>
    pathsReferToSameFile_spares env p q

theorem uniqueEncryptedPath_spares (env : Env) (p : Path) (unavailable : List Bytes) :
    Spares (uniqueEncryptedPath env p unavailable) := by
  have hin (stem : Str) (tries : Nat) : Spares (uniqueEncryptedPathIn env p stem unavailable tries) := by
    induction tries with
    | zero =>
      refine spares_fail ?_
      rintro ⟨_, h | h | h | h⟩ <;> simp [repeated, mapsTwice, replacesInput, sharesName] at h
    | succ tries ih =>
      exact .bind (draw_spares _) fun _ => .bind (normalizedPathKey_spares env _) fun _ =>
        .ite (fun _ => ih) fun _ => .bind (.bind try_spares fun _ => spares_pure _) fun _ =>
          .ite (fun _ => ih) fun _ => spares_pure _
  unfold uniqueEncryptedPath
  split
  · refine spares_fail ?_
    rintro ⟨_, h | h | h | h⟩ <;> cases h
  · exact hin _ _

theorem visitEntries_spares (env : Env) (root : Path) (ps stack files : List Path) :
    Spares (visitEntries env root ps stack files) := by
  have hentry (p : Path) (stack files : List Path) : Spares (visitEntry env root p stack files) := by
    refine .bind try_spares fun r => ?_
    cases r with
    | error e => exact spares_fail (ioError_spared e)
    | ok m =>
      refine .bind (rejectLink_spares p m) fun _ => .ite (fun _ => .bind try_spares fun r => ?_)
        fun _ => .ite (fun _ => spares_pure _) fun _ => spares_fail (unsafe_spared _ _ _)
      cases r with
      | error e => exact spares_fail (ioError_spared e)
      | ok canonical => exact .ite (fun _ => spares_fail (unsafe_spared _ _ _)) fun _ => spares_pure _
  induction ps generalizing stack files with
  | nil => exact spares_pure _
  | cons p ps ih => exact .bind (hentry p stack files) fun _ => ih _ _

theorem collectFilesRecursive_spares (env : Env) (dir : Path) : Spares (collectFilesRecursive env dir) := by
  have hloop (root : Path) (count : Nat) (stack files : List Path) :
      Spares (collectDirectories env root count stack files) := by
    induction count generalizing stack files with
    | zero => cases stack <;> [exact spares_pure _; exact spares_fail (ioError_spared _)]
    | succ count ih =>
      cases stack with
      | nil => exact spares_pure _
      | cons current stack =>
        exact .bind run_spares fun _ => .bind (visitEntries_spares env root _ _ _) fun _ => ih _ _
  refine .bind try_spares fun r => ?_
  cases r with
  | error e => exact spares_fail (fileNotFoundOr_spared dir e)
  | ok m =>
    refine .bind (rejectLink_spares dir m) fun _ => .ite (fun _ => spares_fail ?_) fun _ =>
      .bind try_spares fun r => ?_
    · rintro ⟨_, h | h | h | h⟩ <;> cases h
    · cases r with
      | error e => exact spares_fail (ioError_spared e)
      | ok root =>
        refine .bind (Q := fun _ _ => True) (fun _ _ => trivial) fun w => ?_
        exact .bind (hloop root _ _ _) fun _ => spares_pure _

theorem collectInputs_spares (env : Env) (inputs : List Path) (decrypting : Bool) :
    Spares (collectInputs env inputs decrypting) := by
  have hinput (input : Path) : Spares (collectInput env decrypting input) := by
    refine .bind try_spares fun r => ?_
    cases r with
    | error e => exact spares_fail (fileNotFoundOr_spared input e)
    | ok m =>
      exact .bind (rejectLink_spares input m) fun _ => .ite
        (fun _ => .bind (collectFilesRecursive_spares env input) fun _ => spares_pure _)
        fun _ => .ite (fun _ => spares_pure _) fun _ => spares_fail (unsafe_spared _ _ _)
  have hfrom (inputs files : List Path) : Spares (collectInputsFrom env decrypting inputs files) := by
    induction inputs generalizing files with
    | nil => exact spares_pure _
    | cons input inputs ih => exact .bind (hinput input) fun _ => ih _
  exact .bind (hfrom inputs []) fun _ => spares_pure _

theorem defaultEncryptedPaths_spared {sources : List Path} (h : defaultEncryptedPaths sources = .error e) :
    ¬Confuses e := by
  induction sources with
  | nil => cases h
  | cons source sources ih =>
    unfold defaultEncryptedPaths at h
    rcases hsource : defaultEncryptedPath source with e' | output <;> rw [hsource] at h
    · cases h
      unfold defaultEncryptedPath at hsource
      split at hsource <;> cases hsource
      exact ioError_spared _
    · rcases hrest : defaultEncryptedPaths sources with e' | outputs <;> rw [hrest] at h
      · cases h
        exact ih hrest
      · cases h

theorem collides_looks (defaultKeys unavailable : List Bytes) (p q : Path) :
    Looks env (collides env defaultKeys unavailable p q) :=
  .bind (normalizedPathKey_looks _) fun _ => .ite (.pure _) (pathsReferToSameFile_looks _ _)

theorem collectInputs_looks (inputs : List Path) (decrypting : Bool) :
    Looks env (collectInputs env inputs decrypting) :=
  .bind (collectInputsFrom_looks _ _ _) fun _ => .pure _

/-- In a still file system a path has one key. -/
theorem key_unique (hq : env.Quiet) (hh : env.Honest) {w₁ w₂ w₁' w₂' : World} {key key' : Bytes}
    (hfs : w₁.fs = w₂.fs) (h : normalizedPathKey env p w₁ = (.ok key, w₁'))
    (h' : normalizedPathKey env p w₂ = (.ok key', w₂')) : key = key' := by
  obtain ⟨q, hpath, rfl⟩ := normalizedPathKey_eq_ok hq hh h
  obtain ⟨q', hpath', rfl⟩ := normalizedPathKey_eq_ok hq hh h'
  rw [hfs, hpath'] at hpath
  cases hpath
  rfl

/-- The path taken for a unique one has a key that is free. -/
theorem uniqueEncryptedPath_free (hq : env.Quiet) {unavailable : List Bytes}
    (h : uniqueEncryptedPath env p unavailable w = (.ok q, w')) :
    w'.fs = w.fs ∧ ∃ w₁ w₂ key, w₁.fs = w.fs ∧ normalizedPathKey env q w₁ = (.ok key, w₂) ∧
      key ∉ unavailable := by
  have hin {stem : Str} {tries : Nat} {w : World}
      (h : uniqueEncryptedPathIn env p stem unavailable tries w = (.ok q, w')) :
      w'.fs = w.fs ∧ ∃ w₁ w₂ key, w₁.fs = w.fs ∧ normalizedPathKey env q w₁ = (.ok key, w₂) ∧
        key ∉ unavailable := by
    induction tries generalizing w with
    | zero => cases h
    | succ tries ih =>
      obtain ⟨suffix, w₁, hdraw, h⟩ := Eff.bind_eq_ok.1 h
      obtain ⟨key, w₂, hkey, h⟩ := Eff.bind_eq_ok.1 h
      have hfs₁ : w₁.fs = w.fs := by
        cases hdraw
        rfl
      have hfs₂ := (((normalizedPathKey_looks _).still hq).run hkey).1
      have hagain {w₃ : World} (hfs₃ : w₃.fs = w₂.fs)
          (h : uniqueEncryptedPathIn env p stem unavailable tries w₃ = (.ok q, w')) :
          w'.fs = w.fs ∧ ∃ w₁ w₂ key, w₁.fs = w.fs ∧ normalizedPathKey env q w₁ = (.ok key, w₂) ∧
            key ∉ unavailable := by
        have := ih h
        rwa [hfs₃, hfs₂, hfs₁] at this
      split at h
      · exact hagain rfl h
      · obtain ⟨present, w₃, hexists, h⟩ := Eff.bind_eq_ok.1 h
        have hfs₃ := (((exists_looks _).still hq).run hexists).1
        split at h
        · exact hagain hfs₃ h
        · cases h
          exact ⟨by rw [hfs₃, hfs₂, hfs₁], w₁, w₂, key, hfs₁, hkey, ‹_›⟩
  rcases hstem : toStr p.fileStem with _ | stem <;> simp only [uniqueEncryptedPath, hstem] at h
  · cases h
  · exact hin h

/-- The output found for a source has a key that is free. -/
theorem planOutput_spares (hq : env.Quiet) (hh : env.Honest) {defaultKeys unavailable : List Bytes}
    (h : planOutput env defaultKeys unavailable p q w = (.error e, w')) : ¬Confuses e := by
  rcases Eff.bind_eq_error.1 h with h | ⟨b, w₁, hcollides, h⟩
  · exact (collides_spares env _ _ p q).error h
  have hfs₁ : w₁.fs = w.fs := (((collides_looks _ _ _ _).still hq).run hcollides).1
  -- a key that is free when the output is found is free when it is taken
  have hlast {output : Path} {w₂ : World} (hfs₂ : w₂.fs = w.fs)
      (hfree : ∃ w₁ w₂ key, w₁.fs = w.fs ∧ normalizedPathKey env output w₁ = (.ok key, w₂) ∧ key ∉ unavailable)
      (h : (do
        let outputKey ← normalizedPathKey env output
        if outputKey ∈ unavailable then
          Eff.fail (.outputCollision [.text "multiple inputs map to '", .path output, .text "'"])
        else return (output, outputKey) : FsM (Path × Bytes)) w₂ = (.error e, w')) : ¬Confuses e := by
    rcases Eff.bind_eq_error.1 h with h | ⟨outputKey, w₃, hkey, h⟩
    · exact (normalizedPathKey_spares env output).error h
    · obtain ⟨w₄, w₅, key, hfs₄, hkey', hnot⟩ := hfree
      obtain rfl := key_unique hq hh (hfs₂.trans hfs₄.symm) hkey hkey'
      rw [if_neg hnot] at h
      cases h
  cases b with
  | true =>
    rw [if_pos rfl] at h
    rcases Eff.bind_eq_error.1 h with h | ⟨output, w₂, hunique, h⟩
    · exact (uniqueEncryptedPath_spares env p unavailable).error h
    · obtain ⟨hfs₂, hfree⟩ := uniqueEncryptedPath_free hq hunique
      refine hlast (hfs₂.trans hfs₁) ?_ h
      rwa [hfs₁] at hfree
  | false =>
    rw [if_neg (by simp)] at h
    rcases Eff.bind_eq_error.1 h with h | ⟨output, w₂, hpure, h⟩
    · cases h
    · cases hpure
      obtain ⟨key, w₃, hkey, hcollides⟩ := Eff.bind_eq_ok.1 hcollides
      split at hcollides
      · cases hcollides
      · rename_i hno
        exact hlast hfs₁ ⟨w, w₃, key, rfl, hkey, fun hmem => hno (.inr hmem)⟩ h

theorem planOutputs_spares (hq : env.Quiet) (hh : env.Honest) {defaultKeys unavailable : List Bytes}
    {pairs : List (Path × Path)} (h : planOutputs env defaultKeys pairs unavailable w = (.error e, w')) :
    ¬Confuses e := by
  induction pairs generalizing unavailable w with
  | nil => cases h
  | cons pair pairs ih =>
    rcases Eff.bind_eq_error.1 h with h | ⟨⟨output, outputKey⟩, w₁, -, h⟩
    · exact planOutput_spares hq hh h
    · rcases Eff.bind_eq_error.1 h with h | ⟨plans, w₂, -, h⟩
      · exact ih h
      · cases h

end

/-- What was reported of an encryption batch: that the first of its files to
repeat one before it was given twice, or nothing that mistakes one file for
another. -/
def ReportsEncryption (env : Env) (w : World) (inputs : List Path) (r : Except IronlockError (List EncryptionPlan)) :
    Prop :=
  (∃ items, (∀ x ∈ items, w.fs.Holds x) ∧
    (collectInputs env inputs false w).1 = .ok (items.map Item.path) ∧
    (Distinct items ∧ (∀ e, r = .error e → ¬Confuses e) ∨
      ∃ before x after, items = before ++ x :: after ∧ (∃ y ∈ before, y.Repeats x) ∧
        r = .error (repeated x.path))) ∨
  ∃ e, r = .error e ∧ ¬Confuses e

section
variable {env : Env} {w w' : World} {inputs : List Path}

/-- The encryption planner reports a file as given twice exactly when one it
has collected repeats another, and it never finds two files to have one output. -/
theorem planEncryptionInputs_reports (hlinux : env.target = .linux) (hq : env.Quiet) (hf : env.Faultless)
    (h : w.fs.Literal) {r : Except IronlockError (List EncryptionPlan)}
    (hrun : planEncryptionInputs env inputs w = (r, w')) : ReportsEncryption env w inputs r := by
  rcases hcollect : collectInputs env inputs false w with ⟨e | sources, w₁⟩
  · rw [planEncryptionInputs, Eff.bind_error hcollect] at hrun
    cases hrun
    exact .inr ⟨e, rfl, (collectInputs_spares env inputs false).error hcollect⟩
  · have hfs₁ : w₁.fs = w.fs := (((collectInputs_looks _ _).still hq).run hcollect).1
    have hfiles : ∀ q ∈ sources, ∃ i, w.fs.IsFile q i := by
      obtain ⟨files, w₂, hfrom, hsort⟩ := Eff.bind_eq_ok.1 hcollect
      cases hsort
      intro q hmem
      exact collectInputsFrom_eq_ok hq (by simp) hfrom q (List.mem_mergeSort.1 hmem)
    obtain ⟨items, rfl, hitems⟩ := exists_items hfiles
    refine .inl ⟨items, hitems, by rw [hcollect], ?_⟩
    rw [planEncryptionInputs, Eff.bind_ok hcollect] at hrun
    have hseen : w₁.seen = (w.fs, w₁.draws) := by rw [World.seen, hfs₁]
    rcases @registerSources_decides env w.fs w₁.draws [] items hlinux hq hf h hitems with
      ⟨hdistinct, hm⟩ | ⟨before, x, after, heq, hy, hm⟩
    · obtain ⟨w₂, hregister, -⟩ := hm.run hseen
      refine .inl ⟨hdistinct .nil, ?_⟩
      rintro e rfl
      have hregister : registerSources env (items.map Item.path) [] [] w₁ = _ := hregister
      rw [Eff.bind_ok hregister] at hrun
      rcases Eff.bind_eq_error.1 hrun with hrun | ⟨defaults, w₃, hdefaults, hrun⟩
      · exact defaultEncryptedPaths_spared (Prod.mk.inj hrun).1
      · rcases Eff.bind_eq_error.1 hrun with hrun | ⟨defaultKeys, w₄, hkeys, hrun⟩
        · exact (pathKeys_spares env defaults).error hrun
        · exact planOutputs_spares hq hf.honest hrun
    · obtain ⟨w₂, hregister, -⟩ := hm.run hseen
      have hregister : registerSources env (items.map Item.path) [] [] w₁ = _ := hregister
      rw [Eff.bind_error hregister] at hrun
      cases hrun
      exact .inr ⟨before, x, after, heq, hy, rfl⟩

end

/-! ## The guard of a decryption batch -/

namespace DecryptionBatchGuard

section
variable {env : Env} {w : World} {g : DecryptionBatchGuard} {source output : Path}

/-- What `reserve` has found out about the output's key when it returns or
reports a collision. -/
theorem reserve_keys (hq : env.Quiet) (hh : env.Honest) :
    Triple (fun s => s.2 = g ∧ Still w s.1) (reserve env source output)
      (fun _ _ => ∃ q, w.fs.keyPath output = .ok q ∧ keyText env q ∉ g.sourceKeys ∧
        keyText env q ∉ g.reservedOutputs)
      fun e _ => (e = replacesInput output → ∃ q, w.fs.keyPath output = .ok q ∧ keyText env q ∈ g.sourceKeys) ∧
        (e = sharesName output → ∃ q, w.fs.keyPath output = .ok q ∧ keyText env q ∈ g.reservedOutputs) := by
  have hspared {e : IronlockError} (he : ¬Confuses e) :
      (e = replacesInput output → ∃ q, w.fs.keyPath output = .ok q ∧ keyText env q ∈ g.sourceKeys) ∧
        (e = sharesName output → ∃ q, w.fs.keyPath output = .ok q ∧ keyText env q ∈ g.reservedOutputs) :=
    ⟨fun h => absurd ⟨output, .inr (.inr (.inl h))⟩ he, fun h => absurd ⟨output, .inr (.inr (.inr h))⟩ he⟩
  -- a program that looks, does not confuse files, and tells `R` of what it returns
  have hlook {α : Type} {m : FsM α} {R : α → Prop} (hm : Within Still m) (hs : Spares m)
      (hR : ∀ w₁ a w₂, w₁.fs = w.fs → m w₁ = (.ok a, w₂) → R a) :
      Triple (fun s => s.2 = g ∧ Still w s.1) (GuardM.lift m) (fun a s => R a ∧ s.2 = g ∧ Still w s.1)
        fun e _ => (e = replacesInput output →
            ∃ q, w.fs.keyPath output = .ok q ∧ keyText env q ∈ g.sourceKeys) ∧
          (e = sharesName output → ∃ q, w.fs.keyPath output = .ok q ∧ keyText env q ∈ g.reservedOutputs) := by
    rintro ⟨w₁, g⟩ ⟨rfl, hstill⟩
    rw [GuardM.lift_apply]
    have hstill' := trans_of Still hstill (hm w₁)
    rcases hr : m w₁ with ⟨e | a, w₂⟩ <;> rw [hr] at hstill'
    · exact hspared (hs.error hr)
    · exact ⟨hR w₁ a w₂ hstill.1 hr, rfl, hstill'⟩
  -- the last step, once the output has been seen to be free or another file
  have hinsert {q : Path} (hpath : w.fs.keyPath output = .ok q) (hsource : keyText env q ∉ g.sourceKeys) :
      Triple (fun s => s.2 = g ∧ Still w s.1)
        (do if ← insertReserved (keyText env q) then return () else Eff.fail (sharesName output) : GuardM Unit)
        (fun _ _ => ∃ q, w.fs.keyPath output = .ok q ∧ keyText env q ∉ g.sourceKeys ∧
          keyText env q ∉ g.reservedOutputs)
        fun e _ => (e = replacesInput output →
            ∃ q, w.fs.keyPath output = .ok q ∧ keyText env q ∈ g.sourceKeys) ∧
          (e = sharesName output → ∃ q, w.fs.keyPath output = .ok q ∧ keyText env q ∈ g.reservedOutputs) := by
    rintro ⟨w₁, g⟩ ⟨rfl, hstill⟩
    by_cases hmem : keyText env q ∈ g.reservedOutputs
    · have hold : insertReserved (keyText env q) (w₁, g) = (.ok false, (w₁, g)) := by
        simp only [insertReserved, Eff.modifyGet, if_pos hmem]
      rw [Eff.bind_ok hold]
      refine ⟨fun h => ?_, fun _ => ⟨q, hpath, hmem⟩⟩
      simp [replacesInput, sharesName] at h
    · have hnew : insertReserved (keyText env q) (w₁, g) =
          (.ok true, (w₁, { g with reservedOutputs := keyText env q :: g.reservedOutputs })) := by
        simp only [insertReserved, Eff.modifyGet, if_neg hmem]
      rw [Eff.bind_ok hnew]
      exact ⟨q, hpath, hsource, hmem⟩
  refine .bind (hlook (R := fun _ => True) ((normalizedPathKey_looks _).still hq)
    (normalizedPathKey_spares env source) fun _ _ _ _ _ => trivial) fun sourceKey => .assuming fun _ => ?_
  refine .bind (Q := fun self s => self = g ∧ s.2 = g ∧ Still w s.1) ?_ fun self => .assuming ?_
  · rintro ⟨w₁, g⟩ ⟨rfl, hstill⟩
    exact ⟨rfl, rfl, hstill⟩
  rintro rfl
  refine .ite (fun _ => .fail fun _ _ => hspared ?_) fun _ => ?_
  · rintro ⟨_, h | h | h | h⟩ <;> cases h
  refine .bind (hlook (R := fun key => ∃ q, w.fs.keyPath output = .ok q ∧ key = keyText env q)
    ((normalizedPathKey_looks _).still hq) (normalizedPathKey_spares env output) ?_)
    fun outputKey => .assuming ?_
  · intro w₁ key w₂ hfs h
    rw [← hfs]
    exact normalizedPathKey_eq_ok hq hh h
  rintro ⟨q, hpath, rfl⟩
  refine .ite (fun hmem => .fail fun _ _ => ⟨fun _ => ⟨q, hpath, hmem⟩, fun h => ?_⟩) fun hsource => ?_
  · simp [sharesName] at h
  refine .bind (hlook (R := fun _ => True) ((symlinkMetadata_looks _).still hq) try_spares
    fun _ _ _ _ _ => trivial) fun r => .assuming fun _ => ?_
  cases r with
  | error e =>
    exact .ite (fun _ => hinsert hpath hsource) fun _ => .bind (Q := fun _ _ => False)
      (.fail fun _ _ => hspared (ioError_spared e)) fun _ _ hs => hs.elim
  | ok m =>
    refine .bind (hlook (R := fun _ => True) ((rejectLink_looks _ _).still hq) (rejectLink_spares output m)
      fun _ _ _ _ _ => trivial) fun _ => .assuming fun _ => .ite (fun _ => ?_) fun _ => hinsert hpath hsource
    refine .bind (hlook (R := fun _ => True) ((handleFromPath_looks _).still hq)
      (handleFromPath_spares env output) fun _ _ _ _ _ => trivial) fun handle => .assuming fun _ => ?_
    refine .ite (fun _ => .bind (Q := fun _ _ => False) (.fail fun _ _ => hspared ?_)
      fun _ _ hs => hs.elim) fun _ => hinsert hpath hsource
    rintro ⟨_, h | h | h | h⟩ <;> simp [repeated, mapsTwice, replacesInput, sharesName] at h

end

end DecryptionBatchGuard

/-! ## What is mistaken for what -/

/-- Both paths have a key, and the keys differ just when the texts do. -/
def KeysTell (env : Env) (w : World) (p q : Path) (a b : List Name) : Prop :=
  ∃ key key' w₁ w₂, normalizedPathKey env p w = (.ok key, w₁) ∧ normalizedPathKey env q w = (.ok key', w₂) ∧
    (key ≠ key' ↔ ¬SameText a b)

/-- What was reported of a decryption batch: nothing when all its files are
distinct, and a file given twice only when it repeats one before it. -/
def ReportsDecryption (env : Env) (w : World) (inputs : List Path) (r : Except IronlockError (List DecryptionPlan)) :
    Prop :=
  ∃ pre post items, inputs = pre ++ post ∧ (∀ x ∈ items, w.fs.Holds x) ∧
    (collectInputsFrom env true pre [] w).1 = .ok (items.map Item.path) ∧
    ((∃ plans, r = .ok plans) → post = [] ∧ Distinct items) ∧
    ∀ p, r = .error (repeated p) → ∃ before x after, items = before ++ x :: after ∧ x.path = p ∧
      ∃ y ∈ before, y.Repeats x

/-- What a new guard reported of its sources. -/
def ReportsGuard (env : Env) (items : List Item) (r : Except IronlockError DecryptionBatchGuard) : Prop :=
  Distinct items ∧ r = .ok ⟨keysOf env items, handlesOf items, []⟩ ∨
    ∃ before x after, items = before ++ x :: after ∧ (∃ y ∈ before, y.Repeats x) ∧
      r = .error (repeated x.path)

/-- What a guard reported of an output at `b`. -/
def ReportsReserve (sources outputs : List (List Name)) (output : Path) (b : List Name)
    (r : Except IronlockError Unit) : Prop :=
  (r = .ok () → ∀ a ∈ sources ++ outputs, ¬SameText a b) ∧
    (r = .error (replacesInput output) → ∃ a ∈ sources, SameText a b) ∧
    (r = .error (sharesName output) → ∃ a ∈ outputs, SameText a b)

section
variable {env : Env} {w w' : World}

theorem normalizedPathKey_tells (hlinux : env.target = .linux) (hq : env.Quiet) (hf : env.Faultless)
    (h : w.fs.Literal) {p q : Path} {a b : List Name} (hp : w.fs.resolve false p = .ok a)
    (hq' : w.fs.resolve false q = .ok b) : KeysTell env w p q a b := by
  obtain ⟨w₁, hkey, -⟩ := (h.key_answers (k := w.draws) hq hf hp).run (s := w) rfl
  obtain ⟨w₂, hkey', -⟩ := (h.key_answers (k := w.draws) hq hf hq').run (s := w) rfl
  exact ⟨_, _, w₁, w₂, hkey, hkey', not_congr (keyText_eq_iff hlinux)⟩

theorem planDecryptionInputs_reports (hlinux : env.target = .linux) (hq : env.Quiet) (hf : env.Faultless)
    (h : w.fs.Literal) {inputs : List Path} {outputBase : Option Path} {r : Except IronlockError (List DecryptionPlan)}
    (hrun : planDecryptionInputs env inputs outputBase w = (r, w')) : ReportsDecryption env w inputs r := by
  obtain ⟨pre, post, items, heq, hitems, hcollect, hverdict⟩ :=
    planInputs_verdict (k := w.draws) hlinux hq hf h outputBase inputs [] [] []
  refine ⟨pre, post, items, heq, hitems, (hcollect w rfl).1, ?_⟩
  cases hverdict with
  | accepted hm hpost hdistinct =>
    obtain ⟨w₁, hplans, -⟩ := hm.run (s := w) rfl
    have hplans : planInputs env outputBase inputs [] [] [] w = _ := hplans
    rw [planDecryptionInputs, Eff.bind_ok hplans] at hrun
    cases hrun
    refine ⟨fun _ => ⟨hpost, hdistinct .nil⟩, fun p hp => ?_⟩
    cases hp
  | failed hm he =>
    obtain ⟨w₁, hplans, -⟩ := hm.run (s := w) rfl
    have hplans : planInputs env outputBase inputs [] [] [] w = _ := hplans
    rw [planDecryptionInputs, Eff.bind_error hplans] at hrun
    cases hrun
    refine ⟨?_, fun p hp => absurd (Except.error.inj hp) (he p)⟩
    rintro ⟨plans, hplans⟩
    cases hplans
  | @repeats before x after heq hy hm =>
    obtain ⟨w₁, hplans, -⟩ := hm.run (s := w) rfl
    have hplans : planInputs env outputBase inputs [] [] [] w = _ := hplans
    rw [planDecryptionInputs, Eff.bind_error hplans] at hrun
    cases hrun
    refine ⟨?_, fun p hp => ⟨before, x, after, heq, ?_, hy⟩⟩
    · rintro ⟨plans, hplans⟩
      cases hplans
    · simpa [repeated] using hp

theorem DecryptionBatchGuard.new_reports (hlinux : env.target = .linux) (hq : env.Quiet) (hf : env.Faultless)
    (h : w.fs.Literal) {plans : List DecryptionPlan} {items : List Item} (hitems : ∀ x ∈ items, w.fs.Holds x)
    (hpaths : items.map Item.path = plans.map DecryptionPlan.source) {r : Except IronlockError DecryptionBatchGuard}
    (hrun : DecryptionBatchGuard.new env plans w = (r, w')) : ReportsGuard env items r := by
  rcases @registerSources_decides env w.fs w.draws [] items hlinux hq hf h hitems with
    ⟨hdistinct, hm⟩ | ⟨before, x, after, heq, hy, hm⟩
  · obtain ⟨w₁, hregister, -⟩ := hm.run (s := w) rfl
    have hregister : registerSources env (items.map Item.path) [] [] w = _ := hregister
    rw [DecryptionBatchGuard.new, ← hpaths, Eff.bind_ok hregister] at hrun
    cases hrun
    exact .inl ⟨hdistinct .nil, rfl⟩
  · obtain ⟨w₁, hregister, -⟩ := hm.run (s := w) rfl
    have hregister : registerSources env (items.map Item.path) [] [] w = _ := hregister
    rw [DecryptionBatchGuard.new, ← hpaths, Eff.bind_error hregister] at hrun
    cases hrun
    exact .inr ⟨before, x, after, heq, hy, rfl⟩

theorem DecryptionBatchGuard.reserve_reports (hlinux : env.target = .linux) (hq : env.Quiet) (hf : env.Faultless)
    (h : w.fs.Literal) {g : DecryptionBatchGuard} {sources outputs : List (List Name)} {source output : Path}
    {b : List Name} (hsources : g.sourceKeys = sources.map (fun a => keyText env (.absolute a)))
    (houtputs : g.reservedOutputs = outputs.map (fun a => keyText env (.absolute a)))
    (hb : w.fs.resolve false output = .ok b) {r : Except IronlockError Unit} {s' : World × DecryptionBatchGuard}
    (hrun : DecryptionBatchGuard.reserve env source output (w, g) = (r, s')) :
    ReportsReserve sources outputs output b r := by
  have hspec := @DecryptionBatchGuard.reserve_keys env w g source output hq hf.honest
  have hstart : g = g ∧ Still w w := ⟨rfl, refl_of Still w⟩
  have hpath := h.free.keyPath_resolve h.nul h.cwd hb
  have hmem {l : List (List Name)} : keyText env (.absolute b) ∈ l.map (fun a => keyText env (.absolute a)) ↔
      ∃ a ∈ l, SameText a b := by
    simp only [List.mem_map, keyText_eq_iff hlinux]
  refine ⟨?_, ?_, ?_⟩
  · rintro rfl a ha hsame
    obtain ⟨q, hq', hnot, hnot'⟩ := hspec.ok hstart hrun
    rw [hpath] at hq'
    cases hq'
    rw [hsources, hmem] at hnot
    rw [houtputs, hmem] at hnot'
    rcases List.mem_append.1 ha with ha | ha
    · exact hnot ⟨a, ha, hsame⟩
    · exact hnot' ⟨a, ha, hsame⟩
  · rintro rfl
    obtain ⟨q, hq', hin⟩ := (hspec.error hstart hrun).1 rfl
    rw [hpath] at hq'
    cases hq'
    rwa [hsources, hmem] at hin
  · rintro rfl
    obtain ⟨q, hq', hin⟩ := (hspec.error hstart hrun).2 rfl
    rw [hpath] at hq'
    cases hq'
    rwa [houtputs, hmem] at hin

end

/-- On Linux two paths have different keys exactly when the places they lead to
are different texts. What a planner or a guard reports as given twice, or as
one output, is the same file or the same text as one before it. -/
theorem path_keys_apart {env : Env} (hlinux : env.target = .linux) (hq : env.Quiet) (hf : env.Faultless)
    {w : World} (h : w.fs.Literal) :
    (∀ (p q : Path) (a b : List Name), w.fs.resolve false p = .ok a → w.fs.resolve false q = .ok b →
      KeysTell env w p q a b) ∧
    (∀ inputs r w', planEncryptionInputs env inputs w = (r, w') → ReportsEncryption env w inputs r) ∧
    (∀ inputs outputBase r w', planDecryptionInputs env inputs outputBase w = (r, w') →
      ReportsDecryption env w inputs r) ∧
    (∀ (plans : List DecryptionPlan) (items : List Item), (∀ x ∈ items, w.fs.Holds x) →
      items.map Item.path = plans.map DecryptionPlan.source → ∀ r w',
      DecryptionBatchGuard.new env plans w = (r, w') → ReportsGuard env items r) ∧
    ∀ (g : DecryptionBatchGuard) (sources outputs : List (List Name)) (source output : Path) (b : List Name),
      g.sourceKeys = sources.map (fun a => keyText env (.absolute a)) →
      g.reservedOutputs = outputs.map (fun a => keyText env (.absolute a)) →
      w.fs.resolve false output = .ok b → ∀ r s',
      DecryptionBatchGuard.reserve env source output (w, g) = (r, s') →
      ReportsReserve sources outputs output b r := by
  refine ⟨?_, ?_, ?_, ?_, ?_⟩
  · intro p q a b hp hq'
    exact normalizedPathKey_tells hlinux hq hf h hp hq'
  · intro inputs r w' hrun
    exact planEncryptionInputs_reports hlinux hq hf h hrun
  · intro inputs outputBase r w' hrun
    exact planDecryptionInputs_reports hlinux hq hf h hrun
  · intro plans items hitems hpaths r w' hrun
    exact DecryptionBatchGuard.new_reports hlinux hq hf h hitems hpaths hrun
  · intro g sources outputs source output b hsources houtputs hb r s' hrun
    exact DecryptionBatchGuard.reserve_reports hlinux hq hf h hsources houtputs hb hrun

theorem Fs.Tree.literal {fs : Fs} (ht : fs.Tree) : fs.Literal where
  free := by
    refine ⟨fun l t h => ?_, ht.parents⟩
    rcases ht.kinds _ _ h with h | ⟨i, h⟩ <;> cases h
  nul := ht.nulFree
  cwd := ht.cwd

theorem path_keys_apart_sameStem : KeysTell (Env.calm .checksummed) sameStem (.absolute [⟨[97], rfl⟩])
    (.absolute [⟨[97, 46, 98], rfl⟩]) [⟨[97], rfl⟩] [⟨[97, 46, 98], rfl⟩] := by
  have htree : sameStem.fs.Tree :=
    ((Fs.tree_blank.create rfl (by decide +kernel) (by decide +kernel)).create rfl (by decide +kernel)
      (by decide +kernel)).create rfl (by decide +kernel) (by decide +kernel)
  have hapart := path_keys_apart rfl (Env.calm_quiet .checksummed) (Env.calm_faultless .checksummed)
    htree.literal
  exact hapart.1 _ _ _ _ (by decide +kernel) (by decide +kernel)

/-- `/ÿ/a.il` and `/þ/a.il`, where `ÿ` and `þ` stand for the bytes FF and FE. -/
def twoBytes : World :=
  ⟨((((Fs.blank []).mkdir [] ⟨[255], .refl true⟩).mkdir [] ⟨[254], .refl true⟩).create [⟨[255], .refl true⟩]
    ⟨[97, 46, 105, 108], .refl true⟩).create [⟨[254], .refl true⟩] ⟨[97, 46, 105, 108], .refl true⟩, 0, 0, []⟩

/-- Two files in directories whose names are no text are taken for one. -/
theorem twoBytes_confused :
    let env := Env.calm .checksummed
    let p : Path := .absolute [⟨[255], rfl⟩, ⟨[97, 46, 105, 108], rfl⟩]
    let q : Path := .absolute [⟨[254], rfl⟩, ⟨[97, 46, 105, 108], rfl⟩]
    env.target = .linux ∧ env.Quiet ∧ env.Faultless ∧ (∀ d n, twoBytes.fs.fold d n = n) ∧
    twoBytes.fs.LinkFree ∧
    twoBytes.fs.IsFile p 0 ∧ twoBytes.fs.IsFile q 1 ∧
    twoBytes.fs.resolve false p ≠ twoBytes.fs.resolve false q ∧
    (normalizedPathKey env p twoBytes).1.toOption = (normalizedPathKey env q twoBytes).1.toOption ∧
    (∃ w', planDecryptionInputs env [p, q] none twoBytes = (.error (repeated q), w')) ∧
    ∃ w', DecryptionBatchGuard.new env [⟨p, .here⟩, ⟨q, .here⟩] twoBytes = (.error (repeated q), w') := by
  intro env p q
  have herror {α : Type} {m : FsM α} {e : IronlockError}
      (h : (match (m twoBytes).1 with | .error e' => decide (e' = e) | .ok _ => false) = true) :
      ∃ w', m twoBytes = (.error e, w') := by
    rcases hm : m twoBytes with ⟨e' | a, w'⟩ <;> rw [hm] at h
    · exact ⟨w', by rw [of_decide_eq_true h]⟩
    · cases h
  have hfree : twoBytes.fs.LinkFree := by
    have hdirs := ((Fs.linkFree_blank []).mkdir (d := []) (n := ⟨[255], rfl⟩) rfl (by decide +kernel)).mkdir
      (d := []) (n := ⟨[254], rfl⟩) rfl (by decide +kernel)
    have hfile := hdirs.create (d := [⟨[255], rfl⟩]) (n := ⟨[97, 46, 105, 108], rfl⟩) (by decide +kernel)
      (by decide +kernel)
    exact hfile.create (d := [⟨[254], rfl⟩]) (n := ⟨[97, 46, 105, 108], rfl⟩) (by decide +kernel)
      (by decide +kernel)
  refine ⟨rfl, Env.calm_quiet _, Env.calm_faultless _, fun _ _ => rfl, hfree, ?_, ?_, by decide +kernel,
    by decide +kernel, herror (by decide +kernel), herror (by decide +kernel)⟩
  · exact ⟨[⟨[255], rfl⟩, ⟨[97, 46, 105, 108], rfl⟩], by decide +kernel⟩
  · exact ⟨[⟨[254], rfl⟩, ⟨[97, 46, 105, 108], rfl⟩], by decide +kernel⟩

end Ironlock
