import Ironlock.Resolution

/-! What the system calls do on plain paths, in terms of the nodes at places. -/

namespace Ironlock
open ByteOrder (Bytes)

namespace Fs

section
variable {fs : Fs} {p src dst : Path} {d d' : List Name} {n n' : Name} {i : Nat}

/-- The place of a name in a directory. -/
def entryLoc (fs : Fs) (d : List Name) (n : Name) : Loc := fs.loc (d ++ [n])

theorem entryLoc_eq (fs : Fs) (d : List Name) (n : Name) :
    fs.entryLoc d n = fs.loc d ++ [fs.fold (fs.loc d) n] := loc_concat ..

theorem Keeps.entryLoc {fs' : Fs} (h : fs.Keeps fs') (d : List Name) (n : Name) :
    fs'.entryLoc d n = fs.entryLoc d n := h.loc _

theorem entryLoc_ne_nil (fs : Fs) (d : List Name) (n : Name) : fs.entryLoc d n ≠ [] := by
  simp [entryLoc_eq]

theorem node_concat (fs : Fs) (d : List Name) (n : Name) :
    fs.node (d ++ [n]) = fs.nodeAt (fs.entryLoc d n) := rfl

theorem Plain.openRead (h : fs.Plain p d) (hp : p ≠ .empty) :
    fs.openRead p = (.ok (.dir (fs.loc d)), fs) := by
  simp only [Fs.openRead, look, h.resolve hp, h.dirPath.node, identity]

theorem Reaches.symlinkMetadata (h : fs.Reaches p d n) : fs.symlinkMetadata p =
    (match fs.nodeAt (fs.entryLoc d n) with
      | none => .error (.os .notFound)
      | some x => .ok ⟨x, fs.size x⟩, fs) := by
  simp only [Fs.symlinkMetadata, look, h.resolve (.inl rfl), node_concat]
  split <;> simp_all

theorem Reaches.openRead (h : fs.Reaches p d n) (hf : fs.nodeAt (fs.entryLoc d n) = some (.file i)) :
    fs.openRead p = (.ok (.file i), fs) := by
  have hr : fs.resolve true p = .ok (d ++ [n]) :=
    h.resolve (.inr fun t ht => by rw [node_concat, hf] at ht; cases ht)
  simp only [Fs.openRead, look, hr, node_concat, hf, identity]

theorem Reaches.openWriteNofollow (h : fs.Reaches p d n)
    (hf : fs.nodeAt (fs.entryLoc d n) = some (.file i)) :
    fs.openWriteNofollow p = (.ok (.file i), fs) := by
  simp only [Fs.openWriteNofollow, look, h.resolve (.inl rfl), node_concat, hf, identity]

theorem Reaches.metadata_file (h : fs.Reaches p d n) (hf : fs.nodeAt (fs.entryLoc d n) = some (.file i)) :
    fs.metadata p = (.ok ⟨.file i, (fs.content i).length⟩, fs) := by
  have hr : fs.resolve true p = .ok (d ++ [n]) :=
    h.resolve (.inr fun t ht => by rw [node_concat, hf] at ht; cases ht)
  simp only [Fs.metadata, look, hr, node_concat, hf, size]

theorem Reaches.metadata_none (h : fs.Reaches p d n) (hf : fs.nodeAt (fs.entryLoc d n) = none) :
    fs.metadata p = (.error (.os .notFound), fs) := by
  have hr : fs.resolve true p = .ok (d ++ [n]) :=
    h.resolve (.inr fun t ht => by rw [node_concat, hf] at ht; cases ht)
  simp only [Fs.metadata, look, hr, node_concat, hf]

theorem Reaches.make {α : Type} {f : Fs → Loc → Name → α × Fs} (h : fs.Reaches p d n)
    (hf : fs.nodeAt (fs.entryLoc d n) = none) :
    Fs.make p f fs = (.ok (f fs (fs.loc d) n).1, (f fs (fs.loc d) n).2) := by
  simp only [Fs.make, h.resolve (.inl rfl), node_concat, hf, List.getLast?_concat,
    List.dropLast_concat]

theorem Reaches.make_error {α : Type} {f : Fs → Loc → Name → α × Fs} (h : fs.Reaches p d n) {x : Node}
    (hf : fs.nodeAt (fs.entryLoc d n) = some x) :
    Fs.make p f fs = (.error (.os .alreadyExists), fs) := by
  simp only [Fs.make, h.resolve (.inl rfl), node_concat, hf]

theorem Reaches.renameNoreplace (hsrc : fs.Reaches src d n) (hdst : fs.Reaches dst d' n')
    (hf : fs.nodeAt (fs.entryLoc d n) = some (.file i))
    (hnone : fs.nodeAt (fs.entryLoc d' n') = none) :
    Fs.renameNoreplace src dst fs = (.ok (), fs.move (fs.entryLoc d n) (fs.loc d') n') := by
  simp only [Fs.renameNoreplace, hsrc.resolve (.inl rfl), hdst.resolve (.inl rfl), node_concat, hf,
    hnone, List.getLast?_concat, List.dropLast_concat]
  rfl

theorem Reaches.renameNoreplace_exists (hsrc : fs.Reaches src d n) (hdst : fs.Reaches dst d' n') {x : Node}
    (hf : fs.nodeAt (fs.entryLoc d n) = some (.file i))
    (hx : fs.nodeAt (fs.entryLoc d' n') = some x) :
    Fs.renameNoreplace src dst fs = (.error (.os .alreadyExists), fs) := by
  simp only [Fs.renameNoreplace, hsrc.resolve (.inl rfl), hdst.resolve (.inl rfl), node_concat, hf,
    hx]

theorem Reaches.renameNoreplace_none (hsrc : fs.Reaches src d n) (hdst : fs.Reaches dst d' n')
    (hf : fs.nodeAt (fs.entryLoc d n) = none) :
    Fs.renameNoreplace src dst fs = (.error (.os .notFound), fs) := by
  simp only [Fs.renameNoreplace, hsrc.resolve (.inl rfl), hdst.resolve (.inl rfl), node_concat, hf]

theorem Reaches.removeFile (h : fs.Reaches p d n) (hf : fs.nodeAt (fs.entryLoc d n) = some (.file i)) :
    fs.removeFile p = (.ok (), fs.erase (fs.entryLoc d n)) := by
  simp only [Fs.removeFile, h.resolve (.inl rfl), node_concat, hf]
  rfl

theorem Reaches.removeFile_none (h : fs.Reaches p d n) (hf : fs.nodeAt (fs.entryLoc d n) = none) :
    fs.removeFile p = (.error (.os .notFound), fs) := by
  simp only [Fs.removeFile, h.resolve (.inl rfl), node_concat, hf]

/-- Making an entry does nothing, or finds a place for it and makes it there. -/
theorem make_cases {α : Type} (p : Path) (f : Fs → Loc → Name → α × Fs) (fs : Fs) :
    (∃ e, Fs.make p f fs = (.error e, fs)) ∨
      ∃ d n, fs.resolve false p = .ok (d ++ [n]) ∧ fs.nodeAt (fs.entryLoc d n) = none ∧
        Fs.make p f fs = (.ok (f fs (fs.loc d) n).1, (f fs (fs.loc d) n).2) := by
  unfold Fs.make
  rcases hr : fs.resolve false p with e | names
  · exact .inl ⟨e, rfl⟩
  rcases hx : fs.node names with _ | x
  · rcases hn : names.getLast? with _ | n
    · exact .inl ⟨.os .alreadyExists, by simp [hx, hn]⟩
    · refine .inr ⟨names.dropLast, n, ?_⟩
      have hnames : names.dropLast ++ [n] = names := List.dropLast_append_getLast? n hn
      simp only [hnames, hx, hn, true_and, entryLoc]
      exact ⟨hx, trivial⟩
  · exact .inl ⟨.os .alreadyExists, by simp [hx]⟩

/-- A rename does nothing, or it moves an entry to a name that was free. -/
theorem renameNoreplace_cases (src dst : Path) (fs : Fs) :
    (∃ e, Fs.renameNoreplace src dst fs = (.error e, fs)) ∨
      ∃ s d n x, fs.resolve false src = .ok s ∧ fs.node s = some x ∧ x ≠ .dir ∧
        fs.resolve false dst = .ok (d ++ [n]) ∧ fs.nodeAt (fs.entryLoc d n) = none ∧
        Fs.renameNoreplace src dst fs = (.ok (), fs.move (fs.loc s) (fs.loc d) n) := by
  unfold Fs.renameNoreplace
  rcases hs : fs.resolve false src with e | s
  · exact .inl ⟨e, by rfl⟩
  rcases hd : fs.resolve false dst with e | names
  · exact .inl ⟨e, by rfl⟩
  rcases hx : fs.node s with _ | x
  · exact .inl ⟨.os .notFound, by simp [hx]⟩
  rcases hy : fs.node names with _ | y
  · rcases hn : names.getLast? with _ | n
    · cases x <;> exact .inl ⟨_, by simp [hx, hy, hn]; rfl⟩
    · have hnames : names.dropLast ++ [n] = names := List.dropLast_append_getLast? n hn
      cases x with
      | dir => exact .inl ⟨.os .other, by simp [hx]⟩
      | _ =>
        refine .inr ⟨s, names.dropLast, n, _, rfl, hx, nofun, by rw [hnames], ?_, ?_⟩
        · rw [entryLoc, hnames]; exact hy
        · simp [hx, hy, hn]
  · cases x <;> exact .inl ⟨_, by simp [hx, hy]; rfl⟩

/-- A removal does nothing, or it removes an entry that is no directory. -/
theorem removeFile_cases (p : Path) (fs : Fs) :
    (∃ e, fs.removeFile p = (.error e, fs)) ∨
      ∃ names x, fs.resolve false p = .ok names ∧ fs.node names = some x ∧ x ≠ .dir ∧
        fs.removeFile p = (.ok (), fs.erase (fs.loc names)) := by
  unfold Fs.removeFile
  rcases hr : fs.resolve false p with e | names
  · exact .inl ⟨e, rfl⟩
  rcases hx : fs.node names with _ | x
  · exact .inl ⟨.os .notFound, by simp [hx]⟩
  cases x with
  | dir => exact .inl ⟨.os .isADirectory, by simp [hx]⟩
  | _ => exact .inr ⟨names, _, rfl, hx, nofun, by simp [hx]⟩

/-! ## What the changes keep -/

/-- A change at one place that is no directory and no link, to something that
is no link. -/
theorem Keeps.update {fs' : Fs} {l : Loc} {x : Option Node} (hfold : fs'.fold = fs.fold)
    (hcwd : fs'.cwd = fs.cwd) (hnode : fs'.nodeAt = Function.update fs.nodeAt l x)
    (hold : fs.nodeAt l = none ∨ ∃ i, fs.nodeAt l = some (.file i))
    (hnew : ∀ t, x ≠ some (.symlink t)) : fs.Keeps fs' where
  fold := hfold
  cwd := hcwd
  dirs k hk := by
    rw [hnode]
    by_cases hkl : k = l
    · subst hkl
      rcases hold with h | ⟨i, h⟩ <;> rw [h] at hk <;> cases hk
    · rwa [Function.update_of_ne hkl]
  links k t := by
    rw [hnode]
    by_cases hkl : k = l
    · subst hkl
      rw [Function.update_self]
      constructor
      · intro h; rcases hold with h' | ⟨i, h'⟩ <;> rw [h'] at h <;> cases h
      · intro h; exact absurd h (hnew t)
    · rw [Function.update_of_ne hkl]

theorem mkdir_keeps {l : Loc} (h : fs.nodeAt (l ++ [fs.fold l n]) = none) :
    fs.Keeps (fs.mkdir l n) := .update rfl rfl mkdir_nodeAt (.inl h) nofun

theorem create_keeps {l : Loc} (h : fs.nodeAt (l ++ [fs.fold l n]) = none) :
    fs.Keeps (fs.create l n) := .update rfl rfl create_nodeAt (.inl h) nofun

theorem erase_keeps {l : Loc} (hl : l ≠ []) (h : fs.nodeAt l = some (.file i)) :
    fs.Keeps (fs.erase l) := .update rfl rfl (erase_nodeAt hl) (.inr ⟨i, h⟩) nofun

theorem setContent_keeps (i : Nat) (bytes : Bytes) : fs.Keeps (fs.setContent i bytes) :=
  ⟨rfl, rfl, fun _ => id, fun _ _ => Iff.rfl⟩

theorem move_keeps {s l : Loc} (hs : s ≠ []) (hsrc : fs.nodeAt s = some (.file i))
    (h : fs.nodeAt (l ++ [fs.fold l n]) = none) : fs.Keeps (fs.move s l n) := by
  obtain ⟨e, he, hi⟩ : ∃ e, fs.entries.lookup s = some e ∧ e.node = .file i := by
    simpa [nodeAt, hs] using hsrc
  rw [move_eq he]
  have hput : fs.Keeps (fs.put l n e.node fun i hi => fs.inode_lt s e i he hi) :=
    .update rfl rfl put_nodeAt (.inl h) (by simp [hi])
  refine hput.trans (erase_keeps hs (i := i) ?_)
  have hne : s ≠ l ++ [fs.fold l n] := by rintro rfl; rw [h] at hsrc; cases hsrc
  rw [put_nodeAt, Function.update_of_ne hne, hsrc]

/-! ## Links -/

theorem lookup_of_nodeAt {l : Loc} {x : Node} (hl : l ≠ []) (h : fs.nodeAt l = some x) :
    ∃ e, fs.entries.lookup l = some e ∧ e.node = x := by
  simpa [nodeAt, hl] using h

theorem file_ne_nil {l : Loc} (h : fs.nodeAt l = some (.file i)) : l ≠ [] := by
  rintro rfl
  cases h

theorem loc_ne_nil {names : List Name} {x : Node} (h : fs.node names = some x) (hdir : x ≠ .dir) :
    fs.loc names ≠ [] := by
  intro hnil
  rw [node, hnil] at h
  exact hdir (Option.some.inj h).symm

/-- A name less is a link less. -/
theorem erase_links {l : Loc} {x : Node} (hl : l ≠ []) (h : fs.nodeAt l = some x) (i : Nat) :
    fs.links i = (fs.erase l).links i + if x = .file i then 1 else 0 := by
  obtain ⟨e, he, rfl⟩ := lookup_of_nodeAt hl h
  have hmem : (⟨l, e⟩ : Sigma fun _ : Loc => Entry) ∈ fs.entries.entries :=
    AList.mem_lookup_iff.1 he
  obtain ⟨e', front, back, -, hsplit, herase⟩ :=
    List.exists_of_kerase (List.mem_keys_of_mem hmem)
  obtain rfl : e = e' := by
    refine (List.NodupKeys.eq_of_mk_mem fs.entries.nodupKeys hmem ?_)
    rw [hsplit]
    exact List.mem_append_right _ List.mem_cons_self
  have hentries : (fs.erase l).entries.entries = front ++ back := herase
  simp only [links, hentries, hsplit, List.countP_append, List.countP_cons, decide_eq_true_eq]
  omega

/-- A name more is a link more. -/
theorem put_links {l : Loc} {x : Node} {hx : ∀ i, x = .file i → i < fs.nextInode}
    (h : fs.nodeAt (l ++ [fs.fold l n]) = none) (i : Nat) :
    (fs.put l n x hx).links i = fs.links i + if x = .file i then 1 else 0 := by
  have hnone : l ++ [fs.fold l n] ∉ fs.entries := by
    rw [nodeAt_concat, Option.map_eq_none_iff] at h
    exact AList.lookup_eq_none.1 h
  simp only [links, put, AList.entries_insert_of_notMem hnone, List.countP_cons, decide_eq_true_eq]

theorem mkdir_links {l : Loc} (h : fs.nodeAt (l ++ [fs.fold l n]) = none) (i : Nat) :
    (fs.mkdir l n).links i = fs.links i := by
  rw [mkdir, put_links h]
  rfl

theorem create_links {l : Loc} (h : fs.nodeAt (l ++ [fs.fold l n]) = none) (i : Nat) :
    fs.links i ≤ (fs.create l n).links i := by
  have hput := @put_links fs.allocateInode n l (.file fs.nextInode) (fun j hj => by
    cases hj; exact Nat.lt_succ_self _) h i
  rw [create, hput]
  exact Nat.le_add_right ..

/-- Another name is as many links. -/
theorem move_links {s l : Loc} {x : Node} (hs : s ≠ []) (hsrc : fs.nodeAt s = some x)
    (h : fs.nodeAt (l ++ [fs.fold l n]) = none) (i : Nat) : (fs.move s l n).links i = fs.links i := by
  obtain ⟨e, he, rfl⟩ := lookup_of_nodeAt hs hsrc
  have hne : s ≠ l ++ [fs.fold l n] := by rintro rfl; rw [h] at hsrc; cases hsrc
  have hput : (fs.put l n e.node fun i hi => fs.inode_lt s e i he hi).nodeAt s = some e.node := by
    rw [put_nodeAt, Function.update_of_ne hne, hsrc]
  have herase := erase_links hs hput i
  rw [put_links h, ← move_eq he] at herase
  omega

theorem links_pos {l : Loc} (h : fs.nodeAt l = some (.file i)) : 0 < fs.links i := by
  rw [erase_links (file_ne_nil h) h i, if_pos rfl]
  exact Nat.succ_pos _

/-- A file with one link has one name. -/
theorem links_one {k l : Loc} (hone : fs.links i = 1) (hk : fs.nodeAt k = some (.file i))
    (hl : fs.nodeAt l = some (.file i)) : k = l := by
  by_contra hne
  have hleft : (fs.erase l).nodeAt k = some (.file i) := by
    rw [erase_nodeAt (file_ne_nil hl), Function.update_of_ne hne, hk]
  have hpos := links_pos hleft
  rw [erase_links (file_ne_nil hl) hl i, if_pos rfl] at hone
  omega

/-! ## What is left alone -/

/-- Every entry outside `S` that was there is there, and every old file outside
`I` has its bytes. -/
structure Spares (fs fs' : Fs) (S : Set Loc) (I : Set Nat) : Prop where
  keeps : fs.Keeps fs'
  nextInode : fs.nextInode ≤ fs'.nextInode
  nodes : ∀ l x, l ∉ S → fs.nodeAt l = some x → fs'.nodeAt l = some x
  content : ∀ i, i < fs.nextInode → i ∉ I → fs'.content i = fs.content i

namespace Spares

variable {fs' fs'' : Fs} {S S' : Set Loc} {I I' : Set Nat}

theorem refl (fs : Fs) (S : Set Loc) (I : Set Nat) : fs.Spares fs S I :=
  ⟨.refl fs, le_refl _, fun _ _ _ => id, fun _ _ _ => rfl⟩

theorem trans (h : fs.Spares fs' S I) (h' : fs'.Spares fs'' S I) : fs.Spares fs'' S I where
  keeps := h.keeps.trans h'.keeps
  nextInode := h.nextInode.trans h'.nextInode
  nodes l x hl hx := h'.nodes l x hl (h.nodes l x hl hx)
  content i hi hI := (h'.content i (hi.trans_le h.nextInode) hI).trans (h.content i hi hI)

theorem mono (h : fs.Spares fs' S I) (hS : S ⊆ S') (hI : I ⊆ I') : fs.Spares fs' S' I' :=
  ⟨h.keeps, h.nextInode, fun l x hl => h.nodes l x fun hS' => hl (hS hS'),
    fun i hi hI' => h.content i hi fun hI'' => hI' (hI hI'')⟩

theorem mkdir {l : Loc} (h : fs.nodeAt (l ++ [fs.fold l n]) = none) :
    fs.Spares (fs.mkdir l n) S I where
  keeps := mkdir_keeps h
  nextInode := le_refl _
  nodes k x _ hk := by
    rw [mkdir_nodeAt, Function.update_of_ne, hk]
    rintro rfl
    rw [h] at hk; cases hk
  content _ _ _ := rfl

theorem create {l : Loc} (h : fs.nodeAt (l ++ [fs.fold l n]) = none) :
    fs.Spares (fs.create l n) S I where
  keeps := create_keeps h
  nextInode := Nat.le_succ _
  nodes k x _ hk := by
    rw [create_nodeAt, Function.update_of_ne, hk]
    rintro rfl
    rw [h] at hk; cases hk
  content i hi _ := by simp [Fs.create, allocateInode, hi.ne]

theorem move {s l : Loc} (h : fs.Spares fs' S I) (hs : s ∈ S ∨ fs.nodeAt s = none)
    (hfile : fs'.nodeAt s = some (.file i)) (hnone : fs'.nodeAt (l ++ [fs'.fold l n]) = none) :
    fs.Spares (fs'.move s l n) S I where
  keeps := h.keeps.trans (move_keeps (file_ne_nil hfile) hfile hnone)
  nextInode := by rw [move_nextInode]; exact h.nextInode
  nodes k x hk hx := by
    have hx' := h.nodes k x hk hx
    have hks : k ≠ s := by
      rintro rfl
      rcases hs with hs | hs
      · exact hk hs
      · rw [hs] at hx; cases hx
    have hkl : k ≠ l ++ [fs'.fold l n] := by rintro rfl; rw [hnone] at hx'; cases hx'
    rw [move_nodeAt (file_ne_nil hfile) hfile, Function.update_of_ne hks, Function.update_of_ne hkl, hx']
  content j hj hI := by rw [move_content]; exact h.content j hj hI

theorem erase {s : Loc} (h : fs.Spares fs' S I) (hs : s ∈ S ∨ fs.nodeAt s = none)
    (hfile : fs'.nodeAt s = some (.file i)) : fs.Spares (fs'.erase s) S I where
  keeps := h.keeps.trans (erase_keeps (file_ne_nil hfile) hfile)
  nextInode := h.nextInode
  nodes k x hk hx := by
    have hks : k ≠ s := by
      rintro rfl
      rcases hs with hs | hs
      · exact hk hs
      · rw [hs] at hx; cases hx
    rw [erase_nodeAt (file_ne_nil hfile), Function.update_of_ne hks, h.nodes k x hk hx]
  content := h.content

theorem setContent (h : fs.Spares fs' S I) (hi : i ∈ I) (bytes : Bytes) :
    fs.Spares (fs'.setContent i bytes) S I where
  keeps := h.keeps.trans (setContent_keeps i bytes)
  nextInode := h.nextInode
  nodes := h.nodes
  content j hj hI := by
    have hne : j ≠ i := by rintro rfl; exact hI hi
    have hsame : (fs'.setContent i bytes).content j = fs'.content j := if_neg hne
    rw [hsame, h.content j hj hI]

end Spares

end

end Fs

end Ironlock
