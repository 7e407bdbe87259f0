import Ironlock.SecureFs.OutputStages
import Ironlock.Tree

/-! What a tree stores: the bytes at each place. New files, new directories and
removed files change it at their own place. -/

namespace Ironlock
open ByteOrder (Bytes)

/-- A name that is text, has no NUL and is not that of a temporary file. -/
structure Name.Lasting (n : Name) : Prop where
  text : Utf8.valid n.bytes = true
  nul : n.bytes.contains 0 = false
  temp : ∀ a b, tempName a b ≠ n

namespace Fs

/-- A tree with no temporary files, where no two names are one file. -/
structure Tidy (fs : Fs) : Prop extends fs.Tree where
  single : ∀ k l i, fs.nodeAt k = some (.file i) → fs.nodeAt l = some (.file i) → k = l
  lasting : ∀ d n x, fs.nodeAt (d ++ [n]) = some x → n.Lasting

/-- The bytes of the file at a place, if there is one. -/
def bytesAt (fs : Fs) (l : Loc) : Option Bytes := match fs.nodeAt l with
  | some (.file i) => some (fs.content i)
  | _ => none

section
variable {fs fs' : Fs} {l : Loc} {d : List Name} {n : Name} {x : Node} {i : Nat} {c : Bytes}

theorem bytesAt_file (h : fs.nodeAt l = some (.file i)) : fs.bytesAt l = some (fs.content i) := by
  rw [bytesAt, h]

theorem bytesAt_eq_some : fs.bytesAt l = some c ↔ ∃ i, fs.nodeAt l = some (.file i) ∧ fs.content i = c := by
  constructor
  · intro h
    unfold bytesAt at h
    split at h
    · rename_i i hi
      exact ⟨i, hi, Option.some.inj h⟩
    · cases h
  · rintro ⟨i, hi, rfl⟩
    exact bytesAt_file hi

theorem bytesAt_none (h : ∀ i, fs.nodeAt l ≠ some (.file i)) : fs.bytesAt l = none := by
  rw [Option.eq_none_iff_forall_ne_some]
  intro c hc
  obtain ⟨i, hi, -⟩ := bytesAt_eq_some.1 hc
  exact h i hi

/-- Where the nodes and the bytes of its file are the same, so is what is stored. -/
theorem bytesAt_congr (hnode : fs'.nodeAt l = fs.nodeAt l)
    (hcontent : ∀ i, fs.nodeAt l = some (.file i) → fs'.content i = fs.content i) : fs'.bytesAt l = fs.bytesAt l := by
  unfold bytesAt
  rw [hnode]
  split
  · rw [hcontent _ ‹_›]
  · rfl

/-- Where there is neither a file nor a directory of a tree there is nothing. -/
theorem Tree.absent_iff (ht : fs.Tree) : fs.nodeAt l = none ↔ fs.bytesAt l = none ∧ fs.dirAt l = false := by
  constructor
  · intro h
    simp [bytesAt, dirAt, h]
  · rintro ⟨hbytes, hdir⟩
    rw [Option.eq_none_iff_forall_ne_some]
    intro x hx
    rcases ht.kinds l x hx with rfl | ⟨i, rfl⟩
    · simp [dirAt, hx] at hdir
    · rw [bytesAt_file hx] at hbytes
      cases hbytes

/-- A tree is known by its nodes, their names, and how it looks names up. -/
theorem Tree.of_nodes (hexact : ∀ d n, fs.fold d n = n)
    (hkinds : ∀ l x, fs.nodeAt l = some x → x = .dir ∨ ∃ i, x = .file i)
    (hparents : ∀ l x, fs.nodeAt l = some x → fs.nodeAt l.dropLast = some .dir)
    (hnames : ∀ d n x, fs.nodeAt (d ++ [n]) = some x → n.Lasting) (hcwd : fs.DirPath fs.cwd) : fs.Tree := by
  have hentry (l : Loc) (e : Entry) (he : fs.entries.lookup l = some e) : e.name.Lasting := by
    obtain ⟨d, rfl⟩ := fs.named l e he
    rw [hexact] at he
    exact hnames d e.name e.node (by rw [nodeAt_concat, he]; rfl)
  exact ⟨hexact, hkinds, hparents, fun l e he => (hentry l e he).text, fun l e he => (hentry l e he).nul, hcwd⟩

namespace Tidy

/-- A file with one name has one link. -/
theorem links (ht : fs.Tidy) (h : fs.nodeAt l = some (.file i)) : fs.links i = 1 := by
  rw [erase_links (file_ne_nil h) h, if_pos rfl, Nat.add_eq_right, Fs.links, List.countP_eq_zero]
  rintro ⟨k, e⟩ hmem
  simp only [decide_eq_true_eq]
  intro hfile
  have he : (fs.erase l).entries.lookup k = some e := AList.mem_lookup_iff.2 hmem
  rw [erase_lookup] at he
  split at he
  · cases he
  rename_i hne
  obtain ⟨d, hd⟩ := fs.named k e he
  have hk : fs.nodeAt k = some (.file i) := by rw [hd, nodeAt_concat, ← hd, he, Option.map_some, hfile]
  exact hne (ht.single k l i hk h)

/-- One more entry, in a directory, under a lasting name. -/
theorem added (ht : fs.Tidy) (hk : fs.Keeps fs') (hd : fs.nodeAt d = some .dir) (hnone : fs.nodeAt (d ++ [n]) = none)
    (hn : n.Lasting) (hx : x = .dir ∨ ∃ i, x = .file i ∧ fs.nextInode ≤ i)
    (hnode : fs'.nodeAt = Function.update fs.nodeAt (d ++ [n]) (some x)) : fs'.Tidy := by
  have hcases {l : Loc} {y : Node} (hy : fs'.nodeAt l = some y) :
      l = d ++ [n] ∧ y = x ∨ l ≠ d ++ [n] ∧ fs.nodeAt l = some y := by
    rw [hnode] at hy
    by_cases hl : l = d ++ [n]
    · subst hl
      rw [Function.update_self] at hy
      exact .inl ⟨rfl, (Option.some.inj hy).symm⟩
    · rw [Function.update_of_ne hl] at hy
      exact .inr ⟨hl, hy⟩
  have hlasting : ∀ e m y, fs'.nodeAt (e ++ [m]) = some y → m.Lasting := by
    intro e m y hy
    rcases hcases hy with ⟨heq, -⟩ | ⟨-, hy⟩
    · rwa [(List.cons.inj (List.append_inj' heq rfl).2).1]
    · exact ht.lasting e m y hy
  refine ⟨.of_nodes ?_ ?_ ?_ hlasting ?_, ?_, hlasting⟩
  · intro e m
    rw [hk.fold, ht.exact]
  · intro l y hy
    rcases hcases hy with ⟨-, rfl⟩ | ⟨-, hy⟩
    · exact hx.imp_right fun ⟨i, hi, _⟩ => ⟨i, hi⟩
    · exact ht.kinds l y hy
  · intro l y hy
    apply hk.dirs
    rcases hcases hy with ⟨rfl, -⟩ | ⟨-, hy⟩
    · rwa [List.dropLast_concat]
    · exact ht.parents l y hy
  · rw [hk.cwd]
    exact hk.dirPath ht.cwd
  · have hnew {k l : Loc} {i : Nat} (hl : fs'.nodeAt l = some (.file i)) (hold : fs.nodeAt k = some (.file i)) :
        fs.nodeAt l = some (.file i) := by
      rcases hcases hl with ⟨-, rfl⟩ | ⟨-, hl⟩
      · rcases hx with hx | ⟨j, hj, hle⟩
        · cases hx
        · cases hj
          exact absurd (nodeAt_lt hold) (Nat.not_lt.2 hle)
      · exact hl
    intro k l i hki hli
    rcases hcases hki with ⟨rfl, hi⟩ | ⟨-, hki'⟩
    · rcases hcases hli with ⟨rfl, -⟩ | ⟨-, hli'⟩
      · rfl
      · exact absurd (hnew hki hli') (by rw [hnone]; nofun)
    · exact ht.single k l i hki' (hnew hli hki')

/-- One file less. -/
theorem removed (ht : fs.Tidy) (hk : fs.Keeps fs')
    (hnode : fs'.nodeAt = Function.update fs.nodeAt l none) : fs'.Tidy := by
  have hold {k : Loc} {y : Node} (hy : fs'.nodeAt k = some y) : fs.nodeAt k = some y := by
    rw [hnode] at hy
    by_cases hkl : k = l
    · rw [hkl, Function.update_self] at hy
      cases hy
    · rwa [Function.update_of_ne hkl] at hy
  have hlasting : ∀ e m y, fs'.nodeAt (e ++ [m]) = some y → m.Lasting := fun e m y hy => ht.lasting e m y (hold hy)
  refine ⟨.of_nodes ?_ ?_ ?_ hlasting ?_, ?_, hlasting⟩
  · intro e m
    rw [hk.fold, ht.exact]
  · exact fun k y hy => ht.kinds k y (hold hy)
  · exact fun k y hy => hk.dirs _ (ht.parents k y (hold hy))
  · rw [hk.cwd]
    exact hk.dirPath ht.cwd
  · exact fun k m j hkj hmj => ht.single k m j (hold hkj) (hold hmj)

theorem roomy (ht : fs.Tidy) (d : List Name) (a b : UInt64) : fs.nodeAt (fs.entryLoc d (tempName a b)) = none := by
  rw [ht.entryLoc]
  rcases hx : fs.nodeAt (d ++ [tempName a b]) with _ | x
  · rfl
  · exact absurd rfl ((ht.lasting d _ x hx).temp a b)

end Tidy

end

/-! ## New files and directories, and removed files -/

section
variable {fs fs' : Fs} {l : Loc} {d : List Name} {n : Name} {i : Nat} {c : Bytes}

/-- A tidy tree with the same directories, where other files may be. -/
structure Restocked (fs fs' : Fs) : Prop where
  keeps : fs.Keeps fs'
  tidy : fs'.Tidy
  dirAt : fs'.dirAt = fs.dirAt

theorem Restocked.trans {fs'' : Fs} (h : fs.Restocked fs') (h' : fs'.Restocked fs'') : fs.Restocked fs'' :=
  ⟨h.keeps.trans h'.keeps, h'.tidy, h'.dirAt.trans h.dirAt⟩

/-- What is stored after a file was put where nothing was. -/
structure Puts (fs : Fs) (d : List Name) (n : Name) (c : Bytes) (fs' : Fs) : Prop extends fs.Restocked fs' where
  bytesAt : fs'.bytesAt = Function.update fs.bytesAt (d ++ [n]) (some c)

theorem puts_of_over (ht : fs.Tidy) (hd : fs.nodeAt d = some .dir) (hnone : fs.nodeAt (d ++ [n]) = none)
    (hn : n.Lasting) (h : Over fs c (fs.installed (d ++ [n]) fs.nextInode) fs') : fs.Puts d n c fs' where
  keeps := h.keeps
  tidy := ht.added h.keeps hd hnone hn (.inr ⟨_, rfl, le_rfl⟩) h.nodeAt
  bytesAt := by
    funext l
    by_cases hl : l = d ++ [n]
    · subst hl
      rw [Function.update_self, Fs.bytesAt_file (i := fs.nextInode) (by rw [h.nodeAt, installed, Function.update_self]),
        h.content, if_pos rfl]
    · rw [Function.update_of_ne hl]
      refine bytesAt_congr (by rw [h.nodeAt, installed, Function.update_of_ne hl]) ?_
      intro i hi
      rw [h.content, if_neg (nodeAt_lt hi).ne]
  dirAt := by
    funext l
    by_cases hl : l = d ++ [n]
    · subst hl
      simp [Fs.dirAt, h.nodeAt, installed, hnone]
    · simp [Fs.dirAt, h.nodeAt, installed, Function.update_of_ne hl]

/-- What is stored after a file was removed. -/
structure Drops (fs : Fs) (l : Loc) (fs' : Fs) : Prop extends fs.Restocked fs' where
  bytesAt : fs'.bytesAt = Function.update fs.bytesAt l none

/-- Its bytes may have been written over before. -/
theorem drops_of_update (ht : fs.Tidy) (hk : fs.Keeps fs') (hfile : fs.nodeAt l = some (.file i))
    (hnode : fs'.nodeAt = Function.update fs.nodeAt l none)
    (hcontent : ∀ j, j ≠ i → fs'.content j = fs.content j) : fs.Drops l fs' where
  keeps := hk
  tidy := ht.removed hk hnode
  bytesAt := by
    funext k
    by_cases hkl : k = l
    · subst hkl
      rw [Function.update_self]
      exact bytesAt_none fun j => by simp [hnode]
    · rw [Function.update_of_ne hkl]
      refine bytesAt_congr (by rw [hnode, Function.update_of_ne hkl]) ?_
      intro j hj
      apply hcontent
      rintro rfl
      exact hkl (ht.single _ _ _ hj hfile)
  dirAt := by
    funext k
    by_cases hkl : k = l
    · subst hkl
      simp [Fs.dirAt, hnode, hfile]
    · simp [Fs.dirAt, hnode, Function.update_of_ne hkl]

/-- What is stored after a directory was made. -/
theorem Tidy.mkdir (ht : fs.Tidy) (hd : fs.nodeAt d = some .dir) (hnone : fs.nodeAt (d ++ [n]) = none) (hn : n.Lasting) :
    (fs.mkdir d n).Tidy ∧ (fs.mkdir d n).bytesAt = fs.bytesAt ∧
      (fs.mkdir d n).nodeAt = Function.update fs.nodeAt (d ++ [n]) (some .dir) := by
  have hnode : (fs.mkdir d n).nodeAt = Function.update fs.nodeAt (d ++ [n]) (some .dir) := by
    rw [mkdir_nodeAt, ht.exact]
  have hk : fs.Keeps (fs.mkdir d n) := mkdir_keeps (by rw [ht.exact]; exact hnone)
  refine ⟨ht.added hk hd hnone hn (.inl rfl) hnode, ?_, hnode⟩
  funext l
  by_cases hl : l = d ++ [n]
  · subst hl
    have hbefore : fs.bytesAt (d ++ [n]) = none := bytesAt_none fun i => by rw [hnone]; nofun
    rw [hbefore]
    exact bytesAt_none fun i => by rw [hnode, Function.update_self]; nofun
  · exact bytesAt_congr (by rw [hnode, Function.update_of_ne hl]) fun _ _ => rfl

/-- The empty tree is tidy. -/
theorem tidy_blank : (blank []).Tidy where
  toTree := tree_blank
  single k l i hk _ := by
    by_cases h : k = []
    · simp [nodeAt, h] at hk
    · simp [nodeAt, h, blank] at hk
  lasting d n x h := by simp [nodeAt, blank] at h

theorem Tidy.create (ht : fs.Tidy) (hd : fs.nodeAt d = some .dir)
    (hnone : fs.nodeAt (d ++ [n]) = none) (hn : n.Lasting) : (fs.create d n).Tidy :=
  ht.added (create_keeps (by rw [ht.exact]; exact hnone)) hd hnone hn (.inr ⟨_, rfl, le_rfl⟩)
    (by rw [create_nodeAt, ht.exact])

theorem Tidy.setContent (ht : fs.Tidy) (i : Nat) (bytes : Bytes) : (fs.setContent i bytes).Tidy :=
  ⟨⟨ht.exact, ht.kinds, ht.parents, ht.text, ht.nul, ht.cwd⟩, ht.single, ht.lasting⟩

end

end Fs

/-- A letter is not the name of a temporary file. -/
theorem Name.lasting_letter {n : Name} {b : UInt8} (hn : n.bytes = [b]) (hb : b < 0x80) (hnul : b ≠ 0) : n.Lasting where
  text := by
    rw [hn]
    exact Utf8.valid_ascii (by simpa using hb)
  nul := by simp [hn, hnul.symm]
  temp x y h := by
    have := length_tempFormat x y
    rw [show tempFormat x y = n.bytes from congrArg Name.bytes h, hn] at this
    cases this

end Ironlock
