import Ironlock.Calls

/-! Paths to regular files, and the directories they are in. -/

namespace Ironlock

/-- The path is a regular file, and no link to one. -/
def Fs.IsFile (fs : Fs) (p : Path) (i : Nat) : Prop :=
  ∃ names, fs.resolve false p = .ok names ∧ fs.node names = some (.file i)

namespace Fs

section
variable {fs : Fs} {names found : List Name} {hops : List Hop} {p : Path} {i : Nat}

theorem walkWith_follow {next next' : List Hop → List Name → Except ErrorKind (List Name)}
    (hnext : ∀ hops names, next hops names = .ok found → next' hops names = .ok found)
    (hl : ∀ t, fs.node found ≠ some (.symlink t))
    (h : fs.walkWith false next hops names = .ok found) :
    fs.walkWith true next' hops names = .ok found := by
  induction hops generalizing names with
  | nil => exact h
  | cons hop rest ih =>
    match hop with
    | none => exact ih h
    | some .up => exact ih h
    | some (.name n) =>
      simp only [walkWith] at h ⊢
      rcases hx : fs.node (names ++ [n]) with _ | x <;> rw [hx] at h
      · exact h
      · cases x with
        | dir => exact ih h
        | symlink t =>
          simp only at h ⊢
          split at h
          · cases h; exact absurd hx (hl t)
          · rw [if_neg (by simp)]; exact hnext _ _ h
        | _ => exact h

/-- What a walk ends at is also what it ends at when it would follow a link there. -/
theorem walk_follow {links : Nat} (hl : ∀ t, fs.node found ≠ some (.symlink t))
    (h : fs.walk false links hops names = .ok found) : fs.walk true links hops names = .ok found := by
  induction links generalizing hops names with
  | zero => exact walkWith_follow (fun _ _ h => by cases h) hl h
  | succ links ih => exact walkWith_follow (fun _ _ => ih) hl h

theorem resolve_follow (hl : ∀ t, fs.node found ≠ some (.symlink t))
    (h : fs.resolve false p = .ok found) : fs.resolve true p = .ok found := by
  obtain ⟨hnul, hempty, hwalk⟩ := resolve_eq_ok h
  simp only [Fs.resolve, hnul, hempty, walk_follow hl hwalk, if_false, Bool.false_eq_true]

theorem IsFile.resolve (h : fs.IsFile p i) :
    ∃ names, fs.resolve true p = .ok names ∧ fs.node names = some (.file i) := by
  obtain ⟨names, hr, hx⟩ := h
  exact ⟨names, resolve_follow (fun t ht => by rw [hx] at ht; cases ht) hr, hx⟩

theorem IsFile.unique {j : Nat} (h : fs.IsFile p i) (h' : fs.IsFile p j) : i = j := by
  obtain ⟨names, hr, hx⟩ := h
  obtain ⟨names', hr', hx'⟩ := h'
  rw [hr] at hr'
  cases hr'
  rw [hx] at hx'
  cases hx'
  rfl

end

end Fs

/-! ## Files that are left alone, and files that move -/

namespace Fs

section
variable {fs fs' : Fs} {p dst : Path} {i : Nat} {l : Loc} {d : List Name} {n : Name}

/-- A file that the path leads to is where it was when its place did not change. -/
theorem IsFile.keep (h : fs.IsFile p i) (hk : fs.Keeps fs')
    (hplace : ∀ names, fs.resolve false p = .ok names →
      fs'.nodeAt (fs.loc names) = fs.nodeAt (fs.loc names)) : fs'.IsFile p i := by
  obtain ⟨names, hr, hx⟩ := h
  refine ⟨names, hk.resolve hr, ?_⟩
  rw [Fs.node, hk.loc, hplace names hr]
  exact hx

/-- A file that was moved is where its new path leads. -/
theorem move_isFile (hfile : fs.nodeAt l = some (.file i)) (hdst : fs.resolve false dst = .ok (d ++ [n]))
    (hnone : fs.nodeAt (fs.entryLoc d n) = none) : (fs.move l (fs.loc d) n).IsFile dst i := by
  have hl := file_ne_nil hfile
  have hne : fs.entryLoc d n ≠ l := by
    rintro rfl
    rw [hnone] at hfile
    cases hfile
  rw [entryLoc_eq] at hnone hne
  have hk := move_keeps hl hfile hnone
  refine ⟨_, hk.resolve hdst, ?_⟩
  rw [Fs.node_concat, hk.entryLoc, entryLoc_eq, move_nodeAt hl hfile, Function.update_of_ne hne,
    Function.update_self]

end

end Fs

/-! ## Names in a directory -/

namespace Fs

/-- The path is that of a name in a directory, and stays so while no directory
or link changes. -/
structure Placed (fs : Fs) (p : Path) (d : List Name) (n : Name) : Prop where
  dir : fs.DirPath d
  reaches : fs.Reaches p d n
  beside : ∀ m : Name, m.bytes.contains 0 = false →
    fs.Reaches (p.parentOrHere.push (.name m)) d m
  parent : p.parentOrHere ≠ .empty → fs.resolve true p.parentOrHere = .ok d

section
variable {fs fs' : Fs} {p : Path} {d : List Name} {n : Name} {i : Nat}

theorem Placed.keep (h : fs.Placed p d n) (hk : fs.Keeps fs') : fs'.Placed p d n where
  dir := hk.dirPath h.dir
  reaches := h.reaches.keep hk
  beside m hm := (h.beside m hm).keep hk
  parent hp := hk.resolve (h.parent hp)

theorem At.placed (h : fs.At p d n) : fs.Placed p d n := by
  obtain ⟨q, hparent, -, hplain⟩ := h.parent
  have hq : p.parentOrHere = q := by rw [Path.parentOrHere, hparent]; rfl
  constructor
  · exact h.dirPath
  · exact h.reaches
  · intro m hm
    rw [hq]
    exact (hplain.at_push hm).reaches
  · intro hne
    rw [hq] at hne ⊢
    exact hplain.resolve hne

theorem start_dirPath (fs : Fs) (hcwd : fs.DirPath fs.cwd) (p : Path) : fs.DirPath (fs.start p) := by
  unfold Fs.start
  split
  · exact dirPath_nil fs
  · exact hcwd

/-- The last hop of a path to a regular file is a name in a directory that the
other hops lead to. -/
theorem IsFile.last (hcwd : fs.DirPath fs.cwd) (h : fs.IsFile p i) :
    ∃ parts n, p = ⟨p.anchor, parts ++ [.name n], false⟩ := by
  obtain ⟨names, hr, hx⟩ := h
  obtain ⟨-, -, hwalk⟩ := resolve_eq_ok hr
  have hstart := fs.start_dirPath hcwd p
  have hnodir : ¬fs.DirPath names := fun hd => by rw [hd.node] at hx; cases hx
  have hlast : p.hops.getLast? ≠ some none := fun hl => hnodir (walk_dirOnly hstart hl hwalk)
  rcases p with ⟨anchor, ps, dirOnly⟩
  have hdirOnly : dirOnly = false := by
    by_contra hd
    simp [Path.hops, Bool.eq_true_of_not_eq_false hd] at hlast
  subst hdirOnly
  rcases List.eq_nil_or_concat ps with rfl | ⟨parts, part, hps⟩
  · rw [show Path.hops ⟨anchor, [], false⟩ = [] from rfl, walk_nil] at hwalk
    cases hwalk
    exact absurd hstart hnodir
  · rw [List.concat_eq_append] at hps
    subst hps
    cases part with
    | name n => exact ⟨parts, n, rfl⟩
    | up =>
      have hhops : Path.hops ⟨anchor, parts ++ [.up], false⟩ = parts.map some ++ [some .up] := by
        simp [Path.hops]
      rw [hhops] at hwalk
      obtain ⟨links, d, hlead⟩ := walk_lead (by simp) hwalk
      refine absurd ?_ hnodir
      have hlast : (parts.map some ++ [none]).getLast? = some none := by simp
      have hd : fs.DirPath d := walk_dirOnly hstart hlast
        ((hlead false [none] (.inr (by simp))).trans walk_none)
      rw [hlead false _ (.inr (by simp)), walk_up] at hwalk
      cases hwalk
      exact hd.dropLast

/-- Where one name beside a path leads, the others do too. -/
theorem resolve_push {q : Path} {m : Name}
    (h : fs.resolve false (q.push (.name m)) = .ok found) :
    ∃ links d, found = d ++ [m] ∧ (∀ follow rest, follow = true ∨ rest ≠ [] →
        fs.walk follow maxLinks (q.parts.map some ++ rest) (fs.start q) =
          fs.walk follow links rest d) ∧
      ∀ m' : Name, m'.bytes.contains 0 = false → fs.Reaches (q.push (.name m')) d m' := by
  have hhops (m : Name) : (q.push (.name m)).hops = q.parts.map some ++ [m.hop] := by
    simp [Path.hops, Name.hop]
  obtain ⟨hnul, -, hwalk⟩ := resolve_eq_ok h
  rw [hhops] at hwalk
  have hnulq : q.hasNul = false := by
    simp only [Path.hasNul, Path.push_parts, List.any_append, Bool.or_eq_false_iff] at hnul
    exact hnul.1
  obtain ⟨links, d, hlead⟩ := walk_lead (by simp) hwalk
  rw [hlead false _ (.inr (by simp)), walk_name (.inl rfl)] at hwalk
  cases hwalk
  refine ⟨links, d, rfl, hlead, fun m' hm' => ⟨fun {follow} hl => ?_⟩⟩
  have hnul' : (q.push (.name m')).hasNul = false := by
    simp only [Path.hasNul, Path.push_parts, List.any_append, Bool.or_eq_false_iff] at hnulq ⊢
    exact ⟨hnulq, by simpa using hm'⟩
  have hne : q.push (.name m') ≠ .empty := by
    intro he
    have := congrArg Path.parts he
    simp [Path.empty] at this
  have hwalk' : fs.walk follow maxLinks (q.push (.name m')).hops (fs.start (q.push (.name m'))) =
      .ok (d ++ [m']) := by
    rw [hhops]
    exact (hlead follow _ (.inr (by simp))).trans (walk_name hl)
  simp only [Fs.resolve, hnul', hne, hwalk', if_false, Bool.false_eq_true]

/-- A regular file is a name in a directory. -/
theorem IsFile.placed (hcwd : fs.DirPath fs.cwd) (h : fs.IsFile p i) :
    ∃ d n, fs.Placed p d n ∧ fs.nodeAt (fs.entryLoc d n) = some (.file i) := by
  obtain ⟨parts, n, hp⟩ := h.last hcwd
  obtain ⟨q, hq⟩ : ∃ q : Path, q = ⟨p.anchor, parts, false⟩ := ⟨_, rfl⟩
  obtain rfl : p = q.push (.name n) := by rw [hp, hq, Path.push]
  have hdirOnly : q.dirOnly = false := by rw [hq]
  obtain ⟨names, hr, hx⟩ := h
  obtain ⟨links, d, rfl, hlead, hbeside⟩ := resolve_push hr
  have hnul := (resolve_eq_ok hr).1
  simp only [Path.hasNul, Path.push_parts, List.any_append, Bool.or_eq_false_iff] at hnul
  have hlast : (q.parts.map some ++ [none]).getLast? = some none := by simp
  have hd : fs.DirPath d := walk_dirOnly (fs.start_dirPath hcwd _) hlast
    ((hlead false [none] (.inr (by simp))).trans walk_none)
  refine ⟨d, n, ⟨hd, hbeside n (by simpa using hnul.2), ?_, ?_⟩, hx⟩
  · rw [Path.push_parentOrHere _ _ hdirOnly]
    exact hbeside
  · rw [Path.push_parentOrHere _ _ hdirOnly]
    intro hne
    have hwalkq : fs.walk true maxLinks q.hops (fs.start q) = .ok d := by
      have := (hlead true [] (.inl rfl)).trans walk_nil
      rw [List.append_nil] at this
      rw [show q.hops = q.parts.map some by simp [Path.hops, hdirOnly]]
      exact this
    simp only [Fs.resolve, show q.hasNul = false from hnul.1, hne, hwalkq, if_false,
      Bool.false_eq_true]

end

end Fs

end Ironlock
