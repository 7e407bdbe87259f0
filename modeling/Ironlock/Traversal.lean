import Ironlock.Answers
import Ironlock.Decoding
import Ironlock.SecureFs.Planning

/-! A directory walk visits everything below a directory once, or stops at an
entry that is neither a directory nor a regular file. -/

namespace Ironlock
open ByteOrder (Bytes)
open Effect
open Fs (Identity Metadata SysCall)

/-! ## What lies below a directory -/

namespace Fs

/-- What lies at `s` and below it, by its names from the root. -/
inductive Under (fs : Fs) (s : List Name) : List Name → Prop
  | here : Under fs s s
  | child {d : List Name} {n : Name} : Under fs s d → fs.node d = some .dir →
      n ∈ fs.children (fs.loc d) → Under fs s (d ++ [n])

/-- Whether there is a directory or a regular file. -/
def DirOrFile (fs : Fs) (names : List Name) : Prop :=
  fs.node names = some .dir ∨ ∃ i, fs.node names = some (.file i)

/-- No name holds a NUL byte. -/
structure NulFree (fs : Fs) : Prop where
  names : ∀ l e, fs.entries.lookup l = some e → e.name.bytes.contains 0 = false
  targets : ∀ l e t, fs.entries.lookup l = some e → e.node = .symlink t → t.hasNul = false
  cwd : (Path.absolute fs.cwd).hasNul = false

section
variable {fs : Fs} {s d names found : List Name} {n : Name} {x : Node} {l : Loc}

theorem absolute_hasNul : (Path.absolute names).hasNul = false ↔
    ∀ n ∈ names, n.bytes.contains 0 = false := by
  simp [Path.hasNul, Path.absolute]

/-- A listed entry is there. -/
theorem entry_of_children (h : n ∈ fs.children l) :
    ∃ e, fs.entries.lookup (l ++ [fs.fold l n]) = some e ∧ e.name = n := by
  simp only [children, List.mem_filterMap] at h
  obtain ⟨⟨k, e⟩, hmem, h⟩ := h
  simp only [Option.ite_none_right_eq_some, Option.some.injEq] at h
  obtain ⟨⟨-, rfl⟩, rfl⟩ := h
  have he : fs.entries.lookup k = some e := AList.mem_lookup_iff.2 hmem
  obtain ⟨c, hc⟩ := fs.named _ _ he
  have hk : k.dropLast = c := by rw [hc, List.dropLast_concat]
  exact ⟨e, by rw [hk, ← hc]; exact he, rfl⟩

theorem node_of_children (h : n ∈ fs.children (fs.loc d)) : ∃ x, fs.node (d ++ [n]) = some x := by
  obtain ⟨e, he, -⟩ := entry_of_children h
  exact ⟨e.node, by rw [Fs.node, loc_concat, nodeAt_concat, he]; rfl⟩

/-- Two listed names that are looked up alike are one. -/
theorem children_fold {m : Name} (hn : n ∈ fs.children l) (hm : m ∈ fs.children l)
    (h : fs.fold l n = fs.fold l m) : n = m := by
  obtain ⟨e, he, rfl⟩ := entry_of_children hn
  obtain ⟨e', he', rfl⟩ := entry_of_children hm
  rw [h, he'] at he
  cases he
  rfl

theorem nodup_children (fs : Fs) (l : Loc) : (fs.children l).Nodup := by
  rw [children, List.nodup_iff_pairwise_ne, List.pairwise_filterMap]
  refine (List.nodupKeys_iff_pairwise.1 fs.entries.nodupKeys).imp_of_mem ?_
  rintro ⟨k, e⟩ ⟨k', e'⟩ hmem hmem' hne _ h _ h'
  simp only [Option.ite_none_right_eq_some, Option.some.injEq] at h h'
  obtain ⟨⟨-, hd⟩, rfl⟩ := h
  obtain ⟨⟨-, hd'⟩, rfl⟩ := h'
  obtain ⟨c, hc⟩ := fs.named _ _ (AList.mem_lookup_iff.2 hmem)
  obtain ⟨c', hc'⟩ := fs.named _ _ (AList.mem_lookup_iff.2 hmem')
  simp only at hc hc' hd hd' hne
  subst hc hc'
  rw [List.dropLast_concat] at hd hd'
  subst hd hd'
  intro heq
  exact hne (by rw [heq])

theorem Under.front (h : fs.Under s names) : s <+: names := by
  induction h with
  | here => exact List.prefix_refl s
  | child _ _ _ ih => exact ih.trans (List.prefix_append ..)

theorem Under.trans (h : fs.Under s d) (h' : fs.Under d names) : fs.Under s names := by
  induction h' with
  | here => exact h
  | child _ hdir hn ih => exact .child ih hdir hn

/-- What is below a directory is below one of its entries. -/
theorem Under.head (h : fs.Under s names) :
    names = s ∨ fs.node s = some .dir ∧ ∃ n ∈ fs.children (fs.loc s), fs.Under (s ++ [n]) names := by
  induction h with
  | here => exact .inl rfl
  | @child d n _ hdir hn ih =>
    rcases ih with rfl | ⟨hs, m, hm, hunder⟩
    · exact .inr ⟨hdir, n, hn, .here⟩
    · exact .inr ⟨hs, m, hm, .child hunder hdir hn⟩

theorem NulFree.children (hnul : fs.NulFree) (h : n ∈ fs.children l) :
    n.bytes.contains 0 = false := by
  obtain ⟨e, he, rfl⟩ := entry_of_children h
  exact hnul.names _ _ he

theorem hops_nul {p : Path} (h : p.hasNul = false) (n : Name) (hn : n.hop ∈ p.hops) :
    n.bytes.contains 0 = false := by
  rcases List.mem_append.1 hn with hn | hn
  · obtain ⟨part, hpart, heq⟩ := List.mem_map.1 hn
    cases Option.some.inj heq
    unfold Path.hasNul at h
    rw [List.any_eq_false] at h
    simpa using h _ hpart
  · split at hn <;> simp [Name.hop] at hn

/-- The names a walk arrives at are its own or those of a link's target. -/
theorem NulFree.walkWith (hnul : fs.NulFree) {follow : Bool}
    {next : List Hop → List Name → Except ErrorKind (List Name)} {hops : List Hop}
    (hnext : ∀ hops names found, (∀ n : Name, n.hop ∈ hops → n.bytes.contains 0 = false) →
      (∀ n ∈ names, n.bytes.contains 0 = false) → next hops names = .ok found →
      ∀ n ∈ found, n.bytes.contains 0 = false)
    (hhops : ∀ n : Name, n.hop ∈ hops → n.bytes.contains 0 = false)
    (hnames : ∀ n ∈ names, n.bytes.contains 0 = false)
    (h : fs.walkWith follow next hops names = .ok found) : ∀ n ∈ found, n.bytes.contains 0 = false := by
  induction hops generalizing names with
  | nil =>
    cases h
    exact hnames
  | cons hop rest ih =>
    have hrest : ∀ n : Name, n.hop ∈ rest → n.bytes.contains 0 = false :=
      fun n hn => hhops n (List.mem_cons_of_mem _ hn)
    match hop with
    | none => exact ih hrest hnames h
    | some .up => exact ih hrest (fun n hn => hnames n (List.dropLast_subset _ hn)) h
    | some (.name m) =>
      have hm : ∀ n ∈ names ++ [m], n.bytes.contains 0 = false := by
        intro n hn
        rcases List.mem_append.1 hn with hn | hn
        · exact hnames n hn
        · rw [List.mem_singleton.1 hn]
          exact hhops m List.mem_cons_self
      simp only [Fs.walkWith] at h
      split at h
      · split at h <;> cases h
        exact hm
      · exact ih hrest hm h
      · rename_i target hlink
        split at h
        · cases h
          exact hm
        · refine hnext _ _ _ ?_ ?_ h
          · intro n hn
            rcases List.mem_append.1 hn with hn | hn
            · obtain ⟨e, he, hnode⟩ : ∃ e, fs.entries.lookup (fs.loc (names ++ [m])) = some e ∧
                  e.node = .symlink target := by
                rw [Fs.node, loc_concat, nodeAt_concat] at hlink
                rw [loc_concat]
                simpa using hlink
              exact hops_nul (hnul.targets _ _ _ he hnode) n hn
            · exact hrest n hn
          · split
            · simp
            · exact hnames
      · split at h <;> cases h
        exact hm

theorem NulFree.resolve (hnul : fs.NulFree) {follow : Bool} {p : Path}
    (h : fs.resolve follow p = .ok found) : (Path.absolute found).hasNul = false := by
  obtain ⟨hp, -, hwalk⟩ := resolve_eq_ok h
  have walk (links : Nat) (hops : List Hop) (names found : List Name)
      (hhops : ∀ n : Name, n.hop ∈ hops → n.bytes.contains 0 = false)
      (hnames : ∀ n ∈ names, n.bytes.contains 0 = false)
      (hw : fs.walk follow links hops names = .ok found) :
      ∀ n ∈ found, n.bytes.contains 0 = false := by
    induction links generalizing hops names found with
    | zero => exact hnul.walkWith (fun _ _ _ _ _ h => by cases h) hhops hnames hw
    | succ links ih => exact hnul.walkWith ih hhops hnames hw
  refine absolute_hasNul.2 (walk _ _ _ _ (hops_nul hp) ?_ hwalk)
  unfold Fs.start
  split
  · simp
  · exact absolute_hasNul.1 hnul.cwd

/-- A directory that a path leads to is one all the way down. -/
theorem dirPath_of_resolve {follow : Bool} {p : Path} (hcwd : fs.DirPath fs.cwd)
    (h : fs.resolve follow p = .ok found) (hdir : fs.node found = some .dir) : fs.DirPath found := by
  have hfront := resolve_dirPath (fs.start_dirPath hcwd p) h
  rcases List.eq_nil_or_concat found with rfl | ⟨d, n, rfl⟩
  · exact dirPath_nil fs
  · rw [List.concat_eq_append] at hdir hfront ⊢
    rw [List.dropLast_concat] at hfront
    exact dirPath_concat.2 ⟨hfront, hdir⟩

/-- Real directories, free of NUL bytes. -/
def CleanDir (fs : Fs) (d : List Name) : Prop := fs.DirPath d ∧ (Path.absolute d).hasNul = false

theorem CleanDir.child (h : fs.CleanDir d) (hnul : fs.NulFree) (hn : n ∈ fs.children (fs.loc d))
    (hdir : fs.node (d ++ [n]) = some .dir) : fs.CleanDir (d ++ [n]) := by
  refine ⟨dirPath_concat.2 ⟨h.1, hdir⟩, absolute_hasNul.2 ?_⟩
  intro m hm
  rcases List.mem_append.1 hm with hm | hm
  · exact absolute_hasNul.1 h.2 m hm
  · rw [List.mem_singleton.1 hm]
    exact hnul.children hn

theorem CleanDir.plain (h : fs.CleanDir d) : fs.Plain (.absolute d) d := h.1.plain h.2

theorem CleanDir.at_child (h : fs.CleanDir d) (hnul : fs.NulFree) (hn : n ∈ fs.children (fs.loc d)) :
    fs.At (.absolute (d ++ [n])) d n := by
  rw [absolute_concat]
  exact h.plain.at_push (hnul.children hn)

end

end Fs

/-! ## Pending and collected -/

namespace Fs

/-- Neither lies below the other. -/
def Apart (a b : List Name) : Prop := ¬a <+: b ∧ ¬b <+: a

/-- Everything but directories that lies below `front` lies below `front'` and
nothing more, and what was apart stays apart. -/
structure Unfolds (fs : Fs) (front front' : List (List Name)) : Prop where
  reach : ∀ x, fs.node x ≠ some .dir →
    ((∃ s ∈ front, fs.Under s x) ↔ ∃ s ∈ front', fs.Under s x)
  apart : front.Pairwise Apart → front'.Pairwise Apart

/-- The number of directories from `s` down. -/
def dirsBelow (fs : Fs) (s : List Name) : Nat := (fs.below (fs.loc s) fs.dirAt).length

section
variable {fs : Fs} {s : List Name} {front front' front'' rest kids : List (List Name)}

theorem Apart.symm {a b : List Name} (h : Apart a b) : Apart b a := ⟨h.2, h.1⟩

/-- What is apart from a directory is apart from what is in it. -/
theorem Apart.below {a b c : List Name} (h : Apart a b) (hbc : b <+: c) : Apart a c := by
  constructor
  · intro hac
    rcases List.prefix_or_prefix_of_prefix hac hbc with hab | hba
    · exact h.1 hab
    · exact h.2 hba
  · intro hca
    exact h.2 (hbc.trans hca)

theorem Unfolds.refl (fs : Fs) (front : List (List Name)) : fs.Unfolds front front :=
  ⟨fun _ _ => Iff.rfl, id⟩

theorem Unfolds.trans (h : fs.Unfolds front front') (h' : fs.Unfolds front' front'') :
    fs.Unfolds front front'' :=
  ⟨fun x hx => (h.reach x hx).trans (h'.reach x hx), h'.apart ∘ h.apart⟩

/-- A directory is replaced by its entries. -/
theorem unfolds_children (hs : fs.node s = some .dir)
    (hkids : kids.Perm ((fs.children (fs.loc s)).map (s ++ [·])))
    (hfront : front'.Perm (kids ++ rest)) : fs.Unfolds (s :: rest) front' := by
  have hmem (c : List Name) : c ∈ kids ↔ ∃ n ∈ fs.children (fs.loc s), s ++ [n] = c := by
    rw [hkids.mem_iff, List.mem_map]
  constructor
  · intro x hx
    have hkid : fs.Under s x ↔ ∃ c ∈ kids, fs.Under c x := by
      constructor
      · intro h
        obtain rfl | ⟨-, n, hn, hunder⟩ := h.head
        · exact absurd hs hx
        · exact ⟨_, (hmem _).2 ⟨n, hn, rfl⟩, hunder⟩
      · rintro ⟨c, hc, hunder⟩
        obtain ⟨n, hn, rfl⟩ := (hmem c).1 hc
        exact (Under.child .here hs hn).trans hunder
    simp only [List.mem_cons, hfront.mem_iff, List.mem_append, or_and_right, exists_or,
      exists_eq_left, hkid]
  · intro hapart
    obtain ⟨hs', hrest⟩ := List.pairwise_cons.1 hapart
    rw [hfront.pairwise_iff Apart.symm, List.pairwise_append]
    refine ⟨?_, hrest, ?_⟩
    · rw [hkids.pairwise_iff Apart.symm, List.pairwise_map]
      refine (fs.nodup_children _).imp ?_
      intro n m hne
      constructor <;> intro hpre
      · exact hne (by simpa using hpre.eq_of_length (by simp))
      · exact hne (by simpa using (hpre.eq_of_length (by simp)).symm)
    · intro c hc b hb
      obtain ⟨n, -, rfl⟩ := (hmem c).1 hc
      exact ((hs' b hb).symm.below (List.prefix_append ..)).symm

theorem nodup_of_apart (h : front.Pairwise Apart) : front.Nodup := by
  refine h.imp ?_
  rintro a b hab rfl
  exact hab.1 (List.prefix_refl a)

/-- A directory counts for one more than the directories in it. -/
theorem dirsBelow_children (hs : fs.node s = some .dir) (hnodup : kids.Nodup)
    (hkids : ∀ c ∈ kids, ∃ n ∈ fs.children (fs.loc s), s ++ [n] = c) :
    (kids.map fs.dirsBelow).sum + 1 ≤ fs.dirsBelow s := by
  have hpre (c : List Name) (hc : c ∈ kids) : ∃ k, fs.loc c = fs.loc s ++ [k] := by
    obtain ⟨n, -, rfl⟩ := hkids c hc
    exact ⟨_, loc_concat s n⟩
  have hloc : (fs.loc s :: kids.flatMap fun c => fs.below (fs.loc c) fs.dirAt).Nodup := by
    refine List.nodup_cons.2 ⟨?_, List.nodup_flatMap.2 ⟨fun c _ => fs.nodup_below _ _, ?_⟩⟩
    · intro hmem
      obtain ⟨c, hc, hmem⟩ := List.mem_flatMap.1 hmem
      obtain ⟨k, hk⟩ := hpre c hc
      have := (mem_below.1 hmem).2.1.length_le
      rw [hk] at this
      simp at this
    · refine hnodup.imp_of_mem ?_
      rintro c c' hc hc' hne l hl hl'
      obtain ⟨n, hn, rfl⟩ := hkids c hc
      obtain ⟨m, hm, rfl⟩ := hkids c' hc'
      have h := (mem_below.1 hl).2.1
      have h' := (mem_below.1 hl').2.1
      rw [loc_concat] at h h'
      have heq := (List.prefix_of_prefix_length_le h h' (by simp)).eq_of_length (by simp)
      exact hne (by rw [children_fold hn hm (by simpa using heq)])
  have hsub : (fs.loc s :: kids.flatMap fun c => fs.below (fs.loc c) fs.dirAt) ⊆
      fs.below (fs.loc s) fs.dirAt := by
    intro l hl
    rcases List.mem_cons.1 hl with rfl | hl
    · exact mem_below.2 ⟨⟨.dir, hs⟩, List.prefix_refl _, dirAt_iff.2 hs⟩
    · obtain ⟨c, hc, hl⟩ := List.mem_flatMap.1 hl
      obtain ⟨k, hk⟩ := hpre c hc
      obtain ⟨hx, hunder, hdir⟩ := mem_below.1 hl
      rw [hk] at hunder
      exact mem_below.2 ⟨hx, (List.prefix_append ..).trans hunder, hdir⟩
  have hle := (List.subperm_of_subset hloc hsub).length_le
  rwa [List.length_cons, List.length_flatMap] at hle

end

end Fs

/-! ## One directory -/

section
variable {env : Env} {fs : Fs} {k : Nat} {r d : List Name} {n : Name}

theorem symlinkMetadata_answers (hq : env.Quiet) (hf : env.Faultless) {p : Path} {names : List Name} {x : Node}
    (hr : fs.resolve false p = .ok names) (hx : fs.node names = some x) :
    Answers fs k (Sys.symlinkMetadata env p) (.ok (.ok ⟨x, fs.size x⟩)) k := by
  refine try_answers hq hf ?_
  simp only [Fs.symlinkMetadata, Fs.look, hr, hx]

theorem visitEntry_answers (hq : env.Quiet) (hf : env.Faultless) (hnul : fs.NulFree)
    (hd : fs.CleanDir d) (hn : n ∈ fs.children (fs.loc d)) (hr : r <+: d)
    (stack files : List (List Name)) :
    (fs.node (d ++ [n]) = some .dir ∧
      Answers fs k (visitEntry env (.absolute r) (.absolute (d ++ [n])) (stack.map .absolute)
        (files.map .absolute)) (.ok (((d ++ [n]) :: stack).map .absolute, files.map .absolute)) k) ∨
    ((∃ i, fs.node (d ++ [n]) = some (.file i)) ∧
      Answers fs k (visitEntry env (.absolute r) (.absolute (d ++ [n])) (stack.map .absolute)
        (files.map .absolute)) (.ok (stack.map .absolute, (files ++ [d ++ [n]]).map .absolute)) k) ∨
    ¬fs.DirOrFile (d ++ [n]) ∧ ∃ text,
      Answers fs k (visitEntry env (.absolute r) (.absolute (d ++ [n])) (stack.map .absolute)
        (files.map .absolute)) (.error (.unsafePath text)) k := by
  obtain ⟨x, hx⟩ := Fs.node_of_children hn
  have hat := hd.at_child hnul hn
  have hlook : Answers fs k (Sys.symlinkMetadata env (.absolute (d ++ [n]))) (.ok (.ok ⟨x, fs.size x⟩)) k :=
    symlinkMetadata_answers hq hf (hat.resolve (.inl rfl)) hx
  cases x with
  | dir =>
    have hcanon := (hd.child hnul hn hx).plain.canonicalize (Fs.absolute_ne_empty _)
    have hstarts : (Path.absolute (d ++ [n])).startsWith (.absolute r) = true := by
      have : r.map Part.name <+: (d ++ [n]).map .name := (hr.trans (List.prefix_append ..)).map _
      simp only [Path.startsWith, Path.stripPrefix, Path.absolute, this, and_self, if_true,
        Option.isSome_some]
    refine .inl ⟨hx, .bind hlook (.bind (rejectLink_answers rfl) (.ite_pos rfl
      (.bind (try_answers hq hf hcanon) (.ite_neg (by simp [hstarts]) (.pure _)))))⟩
  | file i =>
    refine .inr (.inl ⟨⟨i, hx⟩, .bind hlook (.bind (rejectLink_answers rfl)
      (.ite_neg (by simp [Metadata.isDir]) (.ite_pos rfl ?_)))⟩)
    rw [List.map_append]
    exact .pure _
  | symlink target =>
    refine .inr (.inr ⟨by simp [Fs.DirOrFile, hx], _, .bind hlook (.bind_error (.ite_pos rfl (.fail _)) _)⟩)
  | special =>
    refine .inr (.inr ⟨by simp [Fs.DirOrFile, hx], _, .bind hlook (.bind (rejectLink_answers rfl)
      (.ite_neg (by simp [Metadata.isDir]) (.ite_neg (by simp [Metadata.isFile]) (.fail _))))⟩)

/-- Its entries go to the stack or to the files, or one of them is neither. -/
theorem visitEntries_answers (hq : env.Quiet) (hf : env.Faultless) (hnul : fs.NulFree)
    (hd : fs.CleanDir d) (hr : r <+: d) {names : List Name} (hnames : names ⊆ fs.children (fs.loc d))
    (stack files : List (List Name)) :
    (∃ dirs own, Answers fs k (visitEntries env (.absolute r) (names.map fun n => .absolute (d ++ [n]))
        (stack.map .absolute) (files.map .absolute))
        (.ok ((dirs ++ stack).map .absolute, (files ++ own).map .absolute)) k ∧
      (dirs ++ own).Perm (names.map (d ++ [·])) ∧ (∀ c ∈ dirs, fs.node c = some .dir) ∧
      ∀ c ∈ own, ∃ i, fs.node c = some (.file i)) ∨
    (∃ n ∈ names, ¬fs.DirOrFile (d ++ [n])) ∧ ∃ text,
      Answers fs k (visitEntries env (.absolute r) (names.map fun n => .absolute (d ++ [n]))
        (stack.map .absolute) (files.map .absolute)) (.error (.unsafePath text)) k := by
  induction names generalizing stack files with
  | nil =>
    refine .inl ⟨[], [], ?_, .refl _, by simp, by simp⟩
    rw [List.nil_append, List.append_nil]
    exact .pure _
  | cons n names ih =>
    obtain ⟨hn, hnames⟩ := List.cons_subset.1 hnames
    rcases visitEntry_answers (k := k) hq hf hnul hd hn hr stack files with
      ⟨hdir, hentry⟩ | ⟨hfile, hentry⟩ | ⟨hodd, text, hentry⟩
    · rcases ih hnames ((d ++ [n]) :: stack) files with
        ⟨dirs, own, hrest, hperm, hdirs, hown⟩ | ⟨⟨m, hm, hodd⟩, text, hrest⟩
      · refine .inl ⟨dirs ++ [d ++ [n]], own, ?_, ?_, ?_, hown⟩
        · rw [List.append_assoc, List.singleton_append]
          exact .bind hentry hrest
        · rw [List.append_assoc, List.singleton_append]
          exact List.perm_middle.trans (hperm.cons _)
        · intro c hc
          rcases List.mem_append.1 hc with hc | hc
          · exact hdirs c hc
          · rwa [List.mem_singleton.1 hc]
      · exact .inr ⟨⟨m, List.mem_cons_of_mem _ hm, hodd⟩, text, .bind hentry hrest⟩
    · rcases ih hnames stack (files ++ [d ++ [n]]) with
        ⟨dirs, own, hrest, hperm, hdirs, hown⟩ | ⟨⟨m, hm, hodd⟩, text, hrest⟩
      · refine .inl ⟨dirs, (d ++ [n]) :: own, ?_, List.perm_middle.trans (hperm.cons _), hdirs, ?_⟩
        · rw [List.append_assoc, List.singleton_append] at hrest
          exact .bind hentry hrest
        · intro c hc
          rcases List.mem_cons.1 hc with rfl | hc
          · exact hfile
          · exact hown c hc
      · exact .inr ⟨⟨m, List.mem_cons_of_mem _ hm, hodd⟩, text, .bind hentry hrest⟩
    · exact .inr ⟨⟨n, List.mem_cons_self, hodd⟩, text, .bind_error hentry _⟩

/-! ## The whole directory -/

/-- The stack is emptied within as many turns as there are directories from it
down. What it stood for has been collected then, unless something else than a
directory or a regular file was met. -/
theorem collectDirectories_answers (hq : env.Quiet) (hf : env.Faultless) (hnul : fs.NulFree) {count : Nat}
    {stack files : List (List Name)} (hstack : ∀ s ∈ stack, r <+: s ∧ fs.CleanDir s)
    (hfiles : ∀ x ∈ files, ∃ i, fs.node x = some (.file i))
    (hcount : (stack.map fs.dirsBelow).sum ≤ count) :
    (∃ files', Answers fs k (collectDirectories env (.absolute r) count (stack.map .absolute)
        (files.map .absolute)) (.ok (files'.map .absolute)) k ∧
      fs.Unfolds (stack ++ files) files' ∧ ∀ x ∈ files', ∃ i, fs.node x = some (.file i)) ∨
    (∃ x, ¬fs.DirOrFile x ∧ ∃ s ∈ stack ++ files, fs.Under s x) ∧ ∃ text,
      Answers fs k (collectDirectories env (.absolute r) count (stack.map .absolute)
        (files.map .absolute)) (.error (.unsafePath text)) k := by
  induction count generalizing stack files with
  | zero =>
    cases stack with
    | nil => exact .inl ⟨files, .pure _, .refl fs _, hfiles⟩
    | cons s stack =>
      have hs := (hstack s List.mem_cons_self).2.1.node
      have := Fs.dirsBelow_children hs List.nodup_nil (by simp)
      rw [List.map_cons, List.sum_cons] at hcount
      omega
  | succ count ih =>
    cases stack with
    | nil => exact .inl ⟨files, .pure _, .refl fs _, hfiles⟩
    | cons s stack =>
      obtain ⟨hr, hs⟩ := hstack s List.mem_cons_self
      have hread : Fs.readDir (.absolute s) fs =
          (.ok ((fs.children (fs.loc s)).map fun n => .absolute (s ++ [n])), fs) := by
        simp only [Fs.readDir, Fs.look, hs.plain.resolve (Fs.absolute_ne_empty _), hs.1.node,
          Fs.absolute_concat]
      have hread : Answers fs k (Sys.run env (.readDir (.absolute s)) (Fs.readDir (.absolute s))) _ k :=
        run_answers hq hf hread
      rcases visitEntries_answers (k := k) hq hf hnul hs hr (List.Subset.refl _) stack files with
        ⟨dirs, own, hvisit, hperm, hdirs, hown⟩ | ⟨⟨n, hn, hodd⟩, text, hvisit⟩
      · have hkid (c : List Name) (hc : c ∈ dirs) : ∃ n ∈ fs.children (fs.loc s), s ++ [n] = c :=
          List.mem_map.1 (hperm.subset (List.mem_append_left _ hc))
        have hnodup : dirs.Nodup := by
          have : (dirs ++ own).Nodup := hperm.nodup_iff.2 <|
            (fs.nodup_children _).map fun n m h => by simpa using h
          exact (List.nodup_append.1 this).1
        have hunfolds : fs.Unfolds (s :: (stack ++ files)) ((dirs ++ stack) ++ (files ++ own)) := by
          refine Fs.unfolds_children hs.1.node hperm ?_
          rw [List.append_assoc, List.append_assoc]
          refine List.Perm.append_left _ ?_
          rw [← List.append_assoc]
          exact List.perm_append_comm
        have hstack' : ∀ c ∈ dirs ++ stack, r <+: c ∧ fs.CleanDir c := by
          intro c hc
          rcases List.mem_append.1 hc with hc | hc
          · obtain ⟨n, hn, rfl⟩ := hkid c hc
            exact ⟨hr.trans (List.prefix_append ..), hs.child hnul hn (hdirs _ hc)⟩
          · exact hstack c (List.mem_cons_of_mem _ hc)
        have hfiles' : ∀ x ∈ files ++ own, ∃ i, fs.node x = some (.file i) := by
          intro x hx
          rcases List.mem_append.1 hx with hx | hx
          · exact hfiles x hx
          · exact hown x hx
        have hcount' : ((dirs ++ stack).map fs.dirsBelow).sum ≤ count := by
          have := Fs.dirsBelow_children hs.1.node hnodup hkid
          rw [List.map_cons, List.sum_cons] at hcount
          rw [List.map_append, List.sum_append]
          omega
        rcases ih hstack' hfiles' hcount' with ⟨files', hrest, hrest', hall⟩ | ⟨⟨x, hodd, hx⟩, text, hrest⟩
        · exact .inl ⟨files', .bind hread (.bind hvisit hrest), hunfolds.trans hrest', hall⟩
        · have hndir : fs.node x ≠ some .dir := fun h => hodd (.inl h)
          exact .inr ⟨⟨x, hodd, (hunfolds.reach x hndir).2 hx⟩, text, .bind hread (.bind hvisit hrest)⟩
      · refine .inr ⟨⟨_, hodd, s, List.mem_cons_self, .child .here hs.1.node hn⟩, text, ?_⟩
        exact .bind hread (.bind_error hvisit _)

/-- A directory walk collects exactly the files below the directory, or finds
an entry that is neither a directory nor a regular file. -/
theorem collectFilesRecursive_collects (hq : env.Quiet) (hf : env.Faultless) (hnul : fs.NulFree)
    (hcwd : fs.DirPath fs.cwd) {dir : Path} {root : List Name} (hroot : fs.resolve false dir = .ok root)
    (hdir : fs.node root = some .dir) :
    (∃ files : List (List Name), Answers fs k (collectFilesRecursive env dir)
        (.ok ((files.map Path.absolute).mergeSort Path.le)) k ∧ files.Nodup ∧
      (∀ x, fs.Under root x → fs.DirOrFile x) ∧
      ∀ x, x ∈ files ↔ fs.Under root x ∧ ∃ i, fs.node x = some (.file i)) ∨
    (∃ x, ¬fs.DirOrFile x ∧ fs.Under root x) ∧ ∃ text,
      Answers fs k (collectFilesRecursive env dir) (.error (.unsafePath text)) k := by
  have hclean : fs.CleanDir root := ⟨Fs.dirPath_of_resolve hcwd hroot hdir, hnul.resolve hroot⟩
  have hcanon : fs.canonicalize dir = (.ok (.absolute root), fs) := by
    have hfollow := Fs.resolve_follow (fun t ht => by rw [hdir] at ht; cases ht) hroot
    simp only [Fs.canonicalize, Fs.look, hfollow, hdir]
  have hcount : ([root].map fs.dirsBelow).sum ≤ fs.entries.entries.length + 1 := by
    have hplaces : fs.places.length = fs.entries.entries.length + 1 := by
      simp [Fs.places, AList.keys, List.keys]
    rw [List.map_singleton, List.sum_singleton, ← hplaces]
    exact List.length_filter_le ..
  have hstart {r : Except IronlockError (List Path)}
      (h : Answers fs k (collectDirectories env (.absolute root) (fs.entries.entries.length + 1)
        [.absolute root] [] >>= fun files => return files.mergeSort Path.le) r k) :
      Answers fs k (collectFilesRecursive env dir) r k := by
    refine .bind (symlinkMetadata_answers hq hf hroot hdir) ?_
    refine .bind (rejectLink_answers rfl) (.ite_neg (by simp [Metadata.isDir]) ?_)
    refine .bind (try_answers hq hf hcanon) (.get_bind fun w hw => ?_)
    obtain ⟨rfl, rfl⟩ := Prod.mk.inj hw
    exact h
  have hstack : ∀ s ∈ [root], root <+: s ∧ fs.CleanDir s := by simpa using hclean
  have hnone : ∀ x ∈ ([] : List (List Name)), ∃ i, fs.node x = some (.file i) := by simp
  rcases collectDirectories_answers (k := k) hq hf hnul hstack hnone hcount with
    ⟨files, hcollect, hunfolds, hfiles⟩ | ⟨⟨x, hodd, s, hs, hx⟩, text, hcollect⟩
  · have hreach (x : List Name) (hx : fs.node x ≠ some .dir) : fs.Under root x ↔ x ∈ files := by
      have := hunfolds.reach x hx
      simp only [List.append_nil, List.mem_singleton, exists_eq_left] at this
      rw [this]
      constructor
      · rintro ⟨c, hc, hunder⟩
        obtain rfl | ⟨hcdir, -⟩ := hunder.head
        · exact hc
        · obtain ⟨i, hi⟩ := hfiles c hc
          rw [hi] at hcdir
          cases hcdir
      · intro hx
        exact ⟨x, hx, .here⟩
    refine .inl ⟨files, hstart (.bind hcollect (.pure _)), ?_, ?_, ?_⟩
    · exact Fs.nodup_of_apart (hunfolds.apart (List.pairwise_singleton ..))
    · intro x hx
      by_cases hxdir : fs.node x = some .dir
      · exact .inl hxdir
      · exact .inr (hfiles x ((hreach x hxdir).1 hx))
    · intro x
      constructor
      · intro hx
        obtain ⟨i, hi⟩ := hfiles x hx
        exact ⟨(hreach x (by rw [hi]; simp)).2 hx, i, hi⟩
      · rintro ⟨hx, i, hi⟩
        exact (hreach x (by rw [hi]; simp)).1 hx
  · rw [List.append_nil, List.mem_singleton] at hs
    subst hs
    exact .inr ⟨⟨x, hodd, hx⟩, text, hstart (.bind_error hcollect _)⟩

theorem sortKey_total (p q : Path) : (p.le q || q.le p) = true := by
  simp only [Path.le, Bool.or_eq_true, decide_eq_true_eq]
  exact le_total ..

theorem sortKey_trans (p q r : Path) (h : p.le q = true) (h' : q.le r = true) : p.le r = true := by
  simp only [Path.le, decide_eq_true_eq] at h h' ⊢
  exact h.trans h'

theorem absolute_injective : Function.Injective Path.absolute := by
  intro names names' h
  have hparts : names.map Part.name = names'.map Part.name := congrArg Path.parts h
  exact List.map_injective_iff.2 (fun n m h => by cases h; rfl) hparts

/-- A directory walk ends. It collects every regular file below the directory
once, in order, when there are only directories and regular files there, and
is refused when anything else is there. -/
theorem collectFilesRecursive_exact (hq : env.Quiet) (hf : env.Faultless) {w : World} (hnul : w.fs.NulFree)
    (hcwd : w.fs.DirPath w.fs.cwd) {dir : Path} {root : List Name}
    (hroot : w.fs.resolve false dir = .ok root) (hdir : w.fs.node root = some .dir) :
    (w.fs.canonicalize dir).1 = .ok (.absolute root) ∧
    ((∀ x, w.fs.Under root x → w.fs.DirOrFile x) →
      ∃ files w', collectFilesRecursive env dir w = (.ok files, w') ∧ w'.fs = w.fs ∧ files.Nodup ∧
        files.Pairwise (fun p q => p.le q = true) ∧
        ∀ p, p ∈ files ↔ ∃ x, p = .absolute x ∧ w.fs.Under root x ∧
          ∃ i, w.fs.node x = some (.file i)) ∧
    ((∃ x, w.fs.Under root x ∧ ¬w.fs.DirOrFile x) →
      ∃ text w', collectFilesRecursive env dir w = (.error (.unsafePath text), w') ∧ w'.fs = w.fs) := by
  have hcollect := collectFilesRecursive_collects (k := w.draws) hq hf hnul hcwd hroot hdir
  refine ⟨?_, ?_, ?_⟩
  · have hfollow := Fs.resolve_follow (fun t ht => by rw [hdir] at ht; cases ht) hroot
    simp only [Fs.canonicalize, Fs.look, hfollow, hdir]
  · intro hall
    rcases hcollect with ⟨files, hanswers, hnodup, -, hfiles⟩ | ⟨⟨x, hodd, hx⟩, -⟩
    · obtain ⟨w', hrun, hseen⟩ := hanswers.run (s := w) rfl
      refine ⟨_, w', hrun, congrArg Prod.fst hseen, ?_, ?_, ?_⟩
      · exact (List.mergeSort_perm ..).nodup_iff.2 (hnodup.map absolute_injective)
      · exact List.pairwise_mergeSort sortKey_trans sortKey_total _
      · intro p
        rw [(List.mergeSort_perm ..).mem_iff, List.mem_map]
        constructor
        · rintro ⟨x, hx, rfl⟩
          exact ⟨x, rfl, (hfiles x).1 hx⟩
        · rintro ⟨x, rfl, hx⟩
          exact ⟨x, (hfiles x).2 hx, rfl⟩
    · exact absurd (hall x hx) hodd
  · rintro ⟨x, hx, hodd⟩
    rcases hcollect with ⟨files, -, -, hall, -⟩ | ⟨-, text, hanswers⟩
    · exact absurd (hall x hx) hodd
    · obtain ⟨w', hrun, hseen⟩ := hanswers.run (s := w) rfl
      exact ⟨text, w', hrun, congrArg Prod.fst hseen⟩

end

namespace Fs.Tree
variable {fs : Fs} {s x : List Name}

theorem nulFree (ht : fs.Tree) : fs.NulFree where
  names := ht.nul
  targets l e t he hnode := by
    obtain ⟨d, hd⟩ := fs.named l e he
    have hx : fs.nodeAt l = some (.symlink t) := by
      subst hd
      rw [nodeAt_concat, he, Option.map_some, hnode]
    rcases ht.kinds _ _ hx with h | ⟨i, h⟩ <;> cases h
  cwd := by
    have := ht.cwd.node
    rw [ht.node] at this
    exact ht.absolute_nul this

/-- What lies below a directory of a tree has its names in front. -/
theorem under_iff (ht : fs.Tree) (hs : fs.nodeAt s = some .dir) :
    fs.Under s x ↔ s <+: x ∧ ∃ y, fs.nodeAt x = some y := by
  constructor
  · intro h
    refine ⟨h.front, ?_⟩
    cases h with
    | here => exact ⟨_, hs⟩
    | child _ _ hn =>
      rw [ht.loc] at hn
      exact ht.mem_children.1 hn
  · rintro ⟨⟨rest, rfl⟩, y, hy⟩
    induction rest using List.reverseRecOn generalizing y with
    | nil =>
      rw [List.append_nil]
      exact .here
    | append_singleton rest n ih =>
      rw [← List.append_assoc] at hy ⊢
      have hdir := ht.parent hy
      refine .child (ih _ hdir) (by rwa [ht.node]) ?_
      rw [ht.loc]
      exact ht.mem_children.2 ⟨y, hy⟩

theorem dirOrFile (ht : fs.Tree) (hs : fs.nodeAt s = some .dir) (h : fs.Under s x) : fs.DirOrFile x := by
  obtain ⟨-, y, hy⟩ := (ht.under_iff hs).1 h
  unfold DirOrFile
  rw [ht.node, hy]
  rcases ht.kinds _ _ hy with rfl | ⟨i, rfl⟩
  · exact .inl rfl
  · exact .inr ⟨i, rfl⟩

end Fs.Tree

/-- `/a/b`, a file in a directory. -/
def nested : World :=
  ⟨((Fs.blank []).mkdir [] ⟨[97], .refl true⟩).create [⟨[97], .refl true⟩] ⟨[98], .refl true⟩, 0, 0, []⟩

/-- `/a/b`, a device in a directory. -/
def nestedDevice : World :=
  ⟨((Fs.blank []).mkdir [] ⟨[97], .refl true⟩).put [⟨[97], .refl true⟩] ⟨[98], .refl true⟩ .special nofun, 0, 0, []⟩

theorem collectFilesRecursive_exact_nested :
    (∃ files w', collectFilesRecursive (Env.calm .checksummed) .root nested = (.ok files, w') ∧
      files.Nodup ∧ ∀ p, p ∈ files ↔ ∃ x, p = .absolute x ∧ nested.fs.Under [] x ∧
        ∃ i, nested.fs.node x = some (.file i)) ∧
    ∃ text w', collectFilesRecursive (Env.calm .checksummed) .root nestedDevice =
      (.error (.unsafePath text), w') := by
  have hq := Env.calm_quiet .checksummed
  have hf := Env.calm_faultless .checksummed
  constructor
  · have htree : nested.fs.Tree :=
      (Fs.tree_blank.mkdir rfl (by decide +kernel) (by decide +kernel)).create (by decide +kernel)
        (by decide +kernel) (by decide +kernel)
    have hroot : nested.fs.resolve false .root = .ok [] := by decide +kernel
    obtain ⟨-, hexact, -⟩ := collectFilesRecursive_exact hq hf htree.nulFree htree.cwd hroot rfl
    obtain ⟨files, w', hrun, -, hnodup, -, hfiles⟩ := hexact fun x hx => htree.dirOrFile rfl hx
    exact ⟨files, w', hrun, hnodup, hfiles⟩
  · have hnul : nestedDevice.fs.NulFree := by
      have hlookup (l : Loc) (e : Entry) (he : nestedDevice.fs.entries.lookup l = some e) :
          e = ⟨⟨[98], rfl⟩, .special⟩ ∨ e = ⟨⟨[97], rfl⟩, .dir⟩ := by
        simp only [nestedDevice, Fs.put_lookup, Fs.mkdir_lookup] at he
        split at he
        · exact .inl (Option.some.inj he).symm
        · split at he
          · exact .inr (Option.some.inj he).symm
          · cases he
      constructor
      · intro l e he
        rcases hlookup l e he with rfl | rfl <;> rfl
      · intro l e t he ht
        rcases hlookup l e he with rfl | rfl <;> cases ht
      · rfl
    have hroot : nestedDevice.fs.resolve false .root = .ok [] := by decide +kernel
    obtain ⟨-, -, hodd⟩ := collectFilesRecursive_exact hq hf hnul (Fs.dirPath_nil _) hroot rfl
    have hdevice : nestedDevice.fs.node [⟨[97], rfl⟩, ⟨[98], rfl⟩] = some .special := by decide +kernel
    obtain ⟨text, w', hrun, -⟩ := hodd ⟨[⟨[97], rfl⟩, ⟨[98], rfl⟩],
      .child (.child .here rfl (by decide +kernel)) (by decide +kernel) (by decide +kernel),
      by simp [Fs.DirOrFile, hdevice]⟩
    exact ⟨text, w', hrun⟩

end Ironlock
