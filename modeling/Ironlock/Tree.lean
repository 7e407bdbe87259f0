import Ironlock.RegularFiles

/-! Trees of directories and regular files: where paths lead in them, and what
lies below a directory. -/

namespace Ironlock

namespace Fs

/-- A tree of directories and regular files, whose names are text and are
looked up exactly. -/
structure Tree (fs : Fs) : Prop where
  exact : ∀ d n, fs.fold d n = n
  kinds : ∀ l x, fs.nodeAt l = some x → x = .dir ∨ ∃ i, x = .file i
  parents : ∀ l x, fs.nodeAt l = some x → fs.nodeAt l.dropLast = some .dir
  text : ∀ l e, fs.entries.lookup l = some e → Utf8.valid e.name.bytes = true
  nul : ∀ l e, fs.entries.lookup l = some e → e.name.bytes.contains 0 = false
  cwd : fs.DirPath fs.cwd

/-- Whether a place is a directory. -/
def dirAt (fs : Fs) (l : Loc) : Bool := fs.nodeAt l = some .dir

/-- Whether a place is a regular file. -/
def fileAt (fs : Fs) (l : Loc) : Bool := match fs.nodeAt l with
  | some (.file _) => true
  | _ => false

/-- Every place there is. -/
def places (fs : Fs) : List Loc := [] :: fs.entries.keys

/-- The places from `s` down that satisfy `P`. -/
def below (fs : Fs) (s : Loc) (P : Loc → Bool) : List Loc := fs.places.filter fun l => s <+: l ∧ P l

section
variable {fs : Fs} {l s : Loc} {d names found : List Name} {n : Name} {x : Node} {i : Nat}

theorem dirAt_iff : fs.dirAt l = true ↔ fs.nodeAt l = some .dir := by simp [dirAt]

theorem fileAt_iff : fs.fileAt l = true ↔ ∃ i, fs.nodeAt l = some (.file i) := by
  unfold fileAt
  split
  · simp [*]
  · rename_i h
    constructor
    · nofun
    · rintro ⟨i, hi⟩
      exact absurd hi (h i)

theorem mem_places : l ∈ fs.places ↔ ∃ x, fs.nodeAt l = some x := by
  by_cases hl : l = []
  · simp [places, hl]
  · have hkeys : l ∈ fs.entries.keys ↔ ∃ e, fs.entries.lookup l = some e := by
      rw [← Option.isSome_iff_exists, AList.lookup_isSome]
      exact AList.mem_keys.symm
    simp [places, hl, nodeAt, hkeys]

theorem nodup_places (fs : Fs) : fs.places.Nodup := by
  refine List.nodup_cons.2 ⟨?_, fs.entries.keys_nodup⟩
  intro hmem
  obtain ⟨e, he⟩ := Option.isSome_iff_exists.1 (AList.lookup_isSome.2 (AList.mem_keys.1 hmem))
  obtain ⟨d, hd⟩ := fs.named _ _ he
  simp at hd

theorem mem_below {P : Loc → Bool} :
    l ∈ fs.below s P ↔ (∃ x, fs.nodeAt l = some x) ∧ s <+: l ∧ P l = true := by
  simp [below, mem_places]

theorem nodup_below (fs : Fs) (s : Loc) (P : Loc → Bool) : (fs.below s P).Nodup :=
  fs.nodup_places.filter _

end

namespace Tree
variable {fs : Fs} {l s : Loc} {d names found : List Name} {n : Name} {x : Node} {i : Nat} {p : Path}

theorem loc (ht : fs.Tree) (names : List Name) : fs.loc names = names := by
  induction names using List.reverseRecOn with
  | nil => rfl
  | append_singleton names n ih => rw [loc_concat, ih, ht.exact]

theorem node (ht : fs.Tree) (names : List Name) : fs.node names = fs.nodeAt names := by
  rw [Fs.node, ht.loc]

theorem entryLoc (ht : fs.Tree) (d : List Name) (n : Name) : fs.entryLoc d n = d ++ [n] := ht.loc _

theorem no_link (ht : fs.Tree) (names : List Name) (t : Path) : fs.node names ≠ some (.symlink t) := by
  intro h
  rw [ht.node] at h
  rcases ht.kinds _ _ h with h | ⟨i, h⟩ <;> cases h

/-- The entry at a place has the place's last name. -/
theorem entry (ht : fs.Tree) (h : fs.nodeAt (d ++ [n]) = some x) :
    ∃ e, fs.entries.lookup (d ++ [n]) = some e ∧ e.name = n ∧ e.node = x := by
  obtain ⟨e, he, hx⟩ := lookup_of_nodeAt (by simp) h
  obtain ⟨d', hd'⟩ := fs.named _ _ he
  rw [ht.exact] at hd'
  exact ⟨e, he, (List.cons.inj (List.append_inj' hd' rfl).2).1.symm, hx⟩

theorem valid_name (ht : fs.Tree) (h : fs.nodeAt (d ++ [n]) = some x) :
    Utf8.valid n.bytes = true ∧ n.bytes.contains 0 = false := by
  obtain ⟨e, he, rfl, -⟩ := ht.entry h
  exact ⟨ht.text _ _ he, ht.nul _ _ he⟩

theorem parent (ht : fs.Tree) (h : fs.nodeAt (d ++ [n]) = some x) : fs.nodeAt d = some .dir := by
  have := ht.parents _ _ h
  rwa [List.dropLast_concat] at this

theorem dirPath (ht : fs.Tree) (h : fs.nodeAt d = some .dir) : fs.DirPath d := by
  induction d using List.reverseRecOn with
  | nil => exact dirPath_nil fs
  | append_singleton d n ih => exact dirPath_concat.2 ⟨ih (ht.parent h), by rw [ht.node]; exact h⟩

/-- What is above a place that is there is there. -/
theorem front (ht : fs.Tree) (hs : s <+: l) (h : fs.nodeAt l = some x) : ∃ y, fs.nodeAt s = some y := by
  obtain ⟨rest, rfl⟩ := hs
  induction rest using List.reverseRecOn generalizing x with
  | nil => exact ⟨x, by rwa [List.append_nil] at h⟩
  | append_singleton rest n ih =>
    rw [← List.append_assoc] at h
    exact ih (ht.parent h)

theorem valid_names (ht : fs.Tree) (h : fs.nodeAt l = some x) (hn : n ∈ l) :
    Utf8.valid n.bytes = true ∧ n.bytes.contains 0 = false := by
  obtain ⟨front, back, rfl⟩ := List.append_of_mem hn
  obtain ⟨y, hy⟩ := ht.front (s := front ++ [n]) ⟨back, by simp⟩ h
  exact ht.valid_name hy

/-! ## Paths -/

theorem absolute_nul (ht : fs.Tree) (h : fs.nodeAt l = some x) : (Path.absolute l).hasNul = false := by
  simp only [Path.hasNul, Path.absolute, List.any_map, List.any_eq_false]
  intro n hn
  simpa using (ht.valid_names h hn).2

theorem plain (ht : fs.Tree) (h : fs.nodeAt d = some .dir) : fs.Plain (.absolute d) d where
  start := dirPath_nil fs
  plain := plainFrom_names.2 (ht.dirPath h)
  names := by
    change lexicalFrom [] (d.map .name) = d
    rw [lexicalFrom_names, List.nil_append]
  nul := ht.absolute_nul h

theorem at_absolute (ht : fs.Tree) (h : fs.nodeAt (d ++ [n]) = some x) :
    fs.At (.absolute (d ++ [n])) d n := by
  have hpush : Path.absolute (d ++ [n]) = (Path.absolute d).push (.name n) := by
    simp [Path.absolute, Path.push]
  rw [hpush]
  exact (ht.plain (ht.parent h)).at_push (ht.valid_name h).2

theorem start (ht : fs.Tree) (p : Path) : fs.DirPath (fs.start p) := by
  unfold Fs.start
  split
  · exact dirPath_nil fs
  · exact ht.cwd

/-- A walk that ends at what is there has gone down real directories, and a
file can only be its last name. -/
theorem walkWith (ht : fs.Tree) {next : List Hop → List Name → Except ErrorKind (List Name)}
    {follow : Bool} {parts : List Part} {rest : List Hop} (hrest : rest = [] ∨ rest = [none])
    (hd : fs.nodeAt names = some .dir)
    (h : fs.walkWith follow next (parts.map some ++ rest) names = .ok found)
    (hx : fs.nodeAt found = some x) :
    x = .dir ∧ fs.PlainFrom names parts ∧ lexicalFrom names parts = found ∨
      ∃ front n, x ≠ .dir ∧ rest = [] ∧ parts = front ++ [.name n] ∧ fs.PlainFrom names front ∧
        found = lexicalFrom names front ++ [n] := by
  induction parts generalizing names with
  | nil =>
    have hfound : found = names := by
      rcases hrest with rfl | rfl <;> cases h <;> rfl
    subst hfound
    rw [hd] at hx
    cases hx
    exact .inl ⟨rfl, plainFrom_nil.2 (by rw [ht.node]; exact hd), rfl⟩
  | cons part parts ih =>
    have hnames : fs.node names = some .dir := by rw [ht.node]; exact hd
    have hcons (front : List Part) (hplain : fs.PlainFrom (part.lead names) front) :
        fs.PlainFrom names (part :: front) := by
      intro g hg
      cases g with
      | nil => exact hnames
      | cons part' g =>
        obtain ⟨rfl, hg'⟩ := List.cons_prefix_cons.1 hg
        exact hplain g hg'
    have hgo (hd' : fs.nodeAt (part.lead names) = some .dir)
        (h' : fs.walkWith follow next (parts.map some ++ rest) (part.lead names) = .ok found) :
        x = .dir ∧ fs.PlainFrom names (part :: parts) ∧ lexicalFrom names (part :: parts) = found ∨
          ∃ front n, x ≠ .dir ∧ rest = [] ∧ part :: parts = front ++ [.name n] ∧
            fs.PlainFrom names front ∧ found = lexicalFrom names front ++ [n] := by
      rcases ih hd' h' with ⟨hdir, hplain, hlead⟩ | ⟨front, n, hfile, hnil, rfl, hplain, rfl⟩
      · exact .inl ⟨hdir, hcons _ hplain, hlead⟩
      · exact .inr ⟨part :: front, n, hfile, hnil, rfl, hcons _ hplain, rfl⟩
    cases part with
    | up => exact hgo (ht.parents _ _ hd) h
    | name n =>
      simp only [List.map_cons, List.cons_append, Fs.walkWith, ht.node] at h
      split at h
      · rename_i hnone
        split at h <;> cases h
        rw [hnone] at hx
        cases hx
      · exact hgo ‹_› h
      · rename_i t hlink
        exact absurd (by rw [ht.node]; exact hlink) (ht.no_link (names ++ [n]) t)
      · rename_i y hnodir _ hy
        split at h <;> cases h
        obtain ⟨hparts, rfl⟩ := List.append_eq_nil_iff.1 ‹_›
        obtain rfl := List.map_eq_nil_iff.1 hparts
        obtain rfl : y = x := Option.some.inj (hy.symm.trans hx)
        exact .inr ⟨[], n, hnodir, rfl, rfl, plainFrom_nil.2 hnames, rfl⟩

theorem walk (ht : fs.Tree) {follow : Bool} {links : Nat} {parts : List Part} {rest : List Hop}
    (hrest : rest = [] ∨ rest = [none]) (hd : fs.nodeAt names = some .dir)
    (h : fs.walk follow links (parts.map some ++ rest) names = .ok found)
    (hx : fs.nodeAt found = some x) :
    x = .dir ∧ fs.PlainFrom names parts ∧ lexicalFrom names parts = found ∨
      ∃ front n, x ≠ .dir ∧ rest = [] ∧ parts = front ++ [.name n] ∧ fs.PlainFrom names front ∧
        found = lexicalFrom names front ++ [n] := by
  cases links <;> exact ht.walkWith hrest hd h hx

theorem of_resolve (ht : fs.Tree) {follow : Bool} (hr : fs.resolve follow p = .ok found)
    (hx : fs.nodeAt found = some x) :
    x = .dir ∧ fs.Plain p found ∨ ∃ d n, x ≠ .dir ∧ found = d ++ [n] ∧ fs.At p d n := by
  obtain ⟨hnul, -, hwalk⟩ := resolve_eq_ok hr
  have hstart := ht.start p
  have hd : fs.nodeAt (fs.start p) = some .dir := by rw [← ht.node]; exact hstart.node
  have hrest : (if p.dirOnly then [none] else [] : List Hop) = [] ∨
      (if p.dirOnly then [none] else [] : List Hop) = [none] := by split <;> simp
  rcases ht.walk hrest hd hwalk hx with ⟨hdir, hplain, hlead⟩ | ⟨front, n, hfile, hnil, hparts, hplain, rfl⟩
  · exact .inl ⟨hdir, hstart, hplain, hlead, hnul⟩
  · refine .inr ⟨_, n, hfile, rfl, hstart, ⟨front, hparts, hplain, rfl⟩, ?_, hnul⟩
    by_contra hdirOnly
    rw [Bool.not_eq_false] at hdirOnly
    simp [hdirOnly] at hnil

/-- A path to a file ends with a name in a real directory. -/
theorem at_of_isFile (ht : fs.Tree) (h : fs.IsFile p i) :
    ∃ d n, fs.At p d n ∧ fs.nodeAt (d ++ [n]) = some (.file i) := by
  obtain ⟨names, hr, hx⟩ := h
  rw [ht.node] at hx
  rcases ht.of_resolve hr hx with ⟨hdir, -⟩ | ⟨d, n, -, rfl, hat⟩
  · cases hdir
  · exact ⟨d, n, hat, hx⟩

/-! ## Below a directory -/

theorem mem_children (ht : fs.Tree) : n ∈ fs.children d ↔ ∃ x, fs.nodeAt (d ++ [n]) = some x := by
  simp only [children, List.mem_filterMap]
  constructor
  · rintro ⟨⟨l, e⟩, hmem, h⟩
    simp only [Option.ite_none_right_eq_some, Option.some.injEq] at h
    obtain ⟨⟨hl, rfl⟩, rfl⟩ := h
    have he : fs.entries.lookup l = some e := AList.mem_lookup_iff.2 hmem
    obtain ⟨d', hd'⟩ := fs.named _ _ he
    rw [ht.exact] at hd'
    subst hd'
    rw [List.dropLast_concat]
    exact ⟨e.node, by rw [nodeAt_concat, he]; rfl⟩
  · rintro ⟨x, hx⟩
    obtain ⟨e, he, rfl, -⟩ := ht.entry hx
    refine ⟨⟨d ++ [e.name], e⟩, AList.mem_lookup_iff.1 he, ?_⟩
    simp

/-! ## Growing a tree -/

/-- A new entry in a directory of a tree makes another tree. -/
theorem added {fs' : Fs} (ht : fs.Tree) (hk : fs.Keeps fs') (hd : fs.nodeAt d = some .dir)
    (hnone : fs.nodeAt (d ++ [n]) = none) (hx : x = .dir ∨ ∃ i, x = .file i)
    (hname : Utf8.valid n.bytes = true ∧ n.bytes.contains 0 = false)
    (hlookup : ∀ l, fs'.entries.lookup l =
      if l = d ++ [n] then some ⟨n, x⟩ else fs.entries.lookup l) : fs'.Tree := by
  have hnode (l : Loc) (y : Node) (hy : fs'.nodeAt l = some y) :
      l = d ++ [n] ∧ y = x ∨ fs.nodeAt l = some y := by
    unfold nodeAt at hy
    split at hy
    · exact .inr (by rw [nodeAt, if_pos ‹_›, hy])
    · rw [hlookup] at hy
      split at hy
      · exact .inl ⟨‹_›, (Option.some.inj hy).symm⟩
      · exact .inr (by rw [nodeAt, if_neg ‹_›, hy])
  have hentry (l : Loc) (e : Entry) (he : fs'.entries.lookup l = some e) :
      e.name = n ∨ fs.entries.lookup l = some e := by
    rw [hlookup] at he
    split at he
    · cases he
      exact .inl rfl
    · exact .inr he
  refine ⟨fun l m => by rw [hk.fold, ht.exact], ?_, ?_, ?_, ?_, by rw [hk.cwd]; exact hk.dirPath ht.cwd⟩
  · intro l y hy
    rcases hnode l y hy with ⟨-, rfl⟩ | hy
    · exact hx
    · exact ht.kinds l y hy
  · intro l y hy
    refine hk.dirs _ ?_
    rcases hnode l y hy with ⟨rfl, -⟩ | hy
    · rwa [List.dropLast_concat]
    · exact ht.parents l y hy
  · intro l e he
    rcases hentry l e he with rfl | he
    · exact hname.1
    · exact ht.text l e he
  · intro l e he
    rcases hentry l e he with rfl | he
    · exact hname.2
    · exact ht.nul l e he

theorem mkdir (ht : fs.Tree) (hd : fs.nodeAt d = some .dir) (hnone : fs.nodeAt (d ++ [n]) = none)
    (hname : Utf8.valid n.bytes = true ∧ n.bytes.contains 0 = false) : (fs.mkdir d n).Tree :=
  ht.added (mkdir_keeps (by rw [ht.exact]; exact hnone)) hd hnone (.inl rfl) hname fun l => by
    rw [mkdir_lookup, ht.exact]

theorem create (ht : fs.Tree) (hd : fs.nodeAt d = some .dir) (hnone : fs.nodeAt (d ++ [n]) = none)
    (hname : Utf8.valid n.bytes = true ∧ n.bytes.contains 0 = false) : (fs.create d n).Tree :=
  ht.added (create_keeps (by rw [ht.exact]; exact hnone)) hd hnone (.inr ⟨_, rfl⟩) hname fun l => by
    rw [create_lookup, ht.exact]

end Tree

/-- The root alone is a tree. -/
theorem tree_blank : (blank []).Tree where
  exact _ _ := rfl
  kinds l x h := by
    by_cases hl : l = []
    · subst hl; left; simpa [eq_comm] using h
    · simp [nodeAt, hl, blank] at h
  parents l x h := by
    by_cases hl : l = []
    · subst hl; rfl
    · simp [nodeAt, hl, blank] at h
  text l e h := by simp [blank] at h
  nul l e h := by simp [blank] at h
  cwd := dirPath_nil _

end Fs

end Ironlock
