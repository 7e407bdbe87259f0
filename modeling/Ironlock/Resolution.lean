import Ironlock.Walk

/-! Where paths lead when no symbolic link is on the way, and what changes to
the file system leave resolution alone. -/

namespace Ironlock

namespace Fs

/-- A place whose every ancestor, itself included, is a directory. -/
def DirPath (fs : Fs) (names : List Name) : Prop :=
  ∀ front, front <+: names → fs.node front = some .dir

/-- Components that lead from directory to directory, with no link between. -/
def PlainFrom (fs : Fs) (names : List Name) (parts : List Part) : Prop :=
  ∀ front, front <+: parts → fs.node (lexicalFrom names front) = some .dir

section
variable {fs fs' : Fs} {names : List Name} {n : Name} {parts : List Part} {part : Part}
  {follow : Bool} {p q : Path}

theorem dirPath_nil (fs : Fs) : fs.DirPath [] := by
  intro front h
  rw [List.prefix_nil.1 h, node_nil]

theorem dirPath_concat :
    fs.DirPath (names ++ [n]) ↔ fs.DirPath names ∧ fs.node (names ++ [n]) = some .dir := by
  constructor
  · intro h
    exact ⟨fun front hf => h front (hf.trans (List.prefix_append ..)), h _ (List.prefix_refl _)⟩
  · rintro ⟨h, hlast⟩ front hf
    rcases List.prefix_concat_iff.1 hf with rfl | hf
    · exact hlast
    · exact h front hf

theorem DirPath.front {front : List Name} (h : fs.DirPath names) (hf : front <+: names) :
    fs.DirPath front := fun _ hk => h _ (hk.trans hf)

theorem DirPath.node (h : fs.DirPath names) : fs.node names = some .dir := h _ (List.prefix_refl _)

theorem DirPath.dropLast (h : fs.DirPath names) : fs.DirPath names.dropLast :=
  h.front (List.dropLast_prefix _)

@[simp] theorem plainFrom_nil : fs.PlainFrom names [] ↔ fs.node names = some .dir := by
  simp [PlainFrom]

theorem plainFrom_concat : fs.PlainFrom names (parts ++ [part]) ↔
    fs.PlainFrom names parts ∧ fs.node (lexicalFrom names (parts ++ [part])) = some .dir := by
  constructor
  · intro h
    exact ⟨fun front hf => h front (hf.trans (List.prefix_append ..)), h _ (List.prefix_refl _)⟩
  · rintro ⟨h, hlast⟩ front hf
    rcases List.prefix_concat_iff.1 hf with rfl | hf
    · exact hlast
    · exact h front hf

theorem plainFrom_cons : fs.PlainFrom names (part :: parts) ↔
    fs.node names = some .dir ∧ fs.PlainFrom (part.lead names) parts := by
  constructor
  · intro h
    exact ⟨h [] List.nil_prefix, fun front hf => h (part :: front) (List.cons_prefix_cons.2 ⟨rfl, hf⟩)⟩
  · rintro ⟨hfirst, hmore⟩ front hf
    cases front with
    | nil => exact hfirst
    | cons part' front =>
      obtain ⟨rfl, hfront⟩ := List.cons_prefix_cons.1 hf
      exact hmore front hfront

theorem PlainFrom.front {front : List Part} (h : fs.PlainFrom names parts) (hf : front <+: parts) :
    fs.PlainFrom names front := fun _ hk => h _ (hk.trans hf)

theorem PlainFrom.tail (h : fs.PlainFrom names (part :: parts)) :
    fs.PlainFrom (part.lead names) parts := (plainFrom_cons.1 h).2

theorem plainFrom_append {more : List Part} : fs.PlainFrom names (parts ++ more) ↔
    fs.PlainFrom names parts ∧ fs.PlainFrom (lexicalFrom names parts) more := by
  constructor
  · intro h
    refine ⟨h.front (List.prefix_append ..), fun front hf => ?_⟩
    rw [← lexicalFrom_append]
    exact h _ ((List.prefix_append_right_inj parts).2 hf)
  · rintro ⟨h, hmore⟩ front hf
    rcases List.prefix_or_prefix_of_prefix hf (List.prefix_append parts more) with hf' | ⟨rest, rfl⟩
    · exact h front hf'
    · rw [lexicalFrom_append]
      exact hmore rest ((List.prefix_append_right_inj parts).1 hf)

/-- A chain of plain components leads down real directories only. -/
theorem DirPath.lexicalFrom (hd : fs.DirPath names) (h : fs.PlainFrom names parts) :
    fs.DirPath (lexicalFrom names parts) := by
  induction parts generalizing names with
  | nil => exact hd
  | cons part parts ih =>
    refine ih ?_ h.tail
    cases part with
    | up => exact hd.dropLast
    | name n => exact dirPath_concat.2 ⟨hd, h [.name n] (by simp)⟩

theorem plainFrom_names {ns : List Name} :
    fs.PlainFrom [] (ns.map .name) ↔ fs.DirPath ns := by
  constructor
  · intro h front hf
    have := h (front.map .name) (hf.map _)
    rwa [lexicalFrom_names] at this
  · intro h front hf
    obtain ⟨front, hf', rfl⟩ := List.prefix_map_iff.1 hf
    rw [lexicalFrom_names]
    exact h _ hf'

/-! ## Walks -/

theorem walkWith_plain {next : List Hop → List Name → Except ErrorKind (List Name)}
    {rest : List Hop} (h : fs.PlainFrom names parts) :
    fs.walkWith follow next (parts.map some ++ rest) names =
      fs.walkWith follow next rest (lexicalFrom names parts) := by
  induction parts generalizing names with
  | nil => rfl
  | cons part parts ih =>
    have htail := ih h.tail
    cases part with
    | up => exact htail
    | name n =>
      have hn : fs.node (names ++ [n]) = some .dir := h [.name n] (by simp)
      simp only [List.map_cons, List.cons_append, walkWith, hn]
      exact htail

theorem walk_plain {links : Nat} {rest : List Hop} (h : fs.PlainFrom names parts) :
    fs.walk follow links (parts.map some ++ rest) names =
      fs.walk follow links rest (lexicalFrom names parts) := by
  cases links <;> exact walkWith_plain h

@[simp] theorem walk_nil {links : Nat} : fs.walk follow links [] names = .ok names := by
  cases links <;> simp [walk, walkWith]

@[simp] theorem walk_none {links : Nat} : fs.walk follow links [none] names = .ok names := by
  cases links <;> simp [walk, walkWith]

@[simp] theorem walk_up {links : Nat} : fs.walk follow links [some .up] names = .ok names.dropLast := by
  cases links <;> simp [walk, walkWith]

/-- The last name of a walk: the walk ends there unless it is a link to follow. -/
theorem walk_name {links : Nat} (h : follow = false ∨ ∀ t, fs.node (names ++ [n]) ≠ some (.symlink t)) :
    fs.walk follow links [n.hop] names = .ok (names ++ [n]) := by
  cases links <;> simp only [walk, walkWith] <;> split <;> grind

end

/-! ## Plain paths -/

/-- A path to a directory with no link on the way. -/
structure Plain (fs : Fs) (p : Path) (d : List Name) : Prop where
  start : fs.DirPath (fs.start p)
  plain : fs.PlainFrom (fs.start p) p.parts
  names : lexicalFrom (fs.start p) p.parts = d
  nul : p.hasNul = false

/-- A path to a name in a directory with no link on the way to the directory. -/
structure At (fs : Fs) (p : Path) (d : List Name) (n : Name) : Prop where
  start : fs.DirPath (fs.start p)
  parts : ∃ parts, p.parts = parts ++ [.name n] ∧ fs.PlainFrom (fs.start p) parts ∧
    lexicalFrom (fs.start p) parts = d
  dirOnly : p.dirOnly = false
  nul : p.hasNul = false

section
variable {fs fs' : Fs} {d : List Name} {n : Name} {follow : Bool} {p q : Path}

theorem Plain.dirPath (h : fs.Plain p d) : fs.DirPath d := h.names ▸ h.start.lexicalFrom h.plain

theorem At.dirPath (h : fs.At p d n) : fs.DirPath d := by
  obtain ⟨_, -, hplain, rfl⟩ := h.parts
  exact h.start.lexicalFrom hplain

theorem Plain.walk {links : Nat} (h : fs.Plain p d) :
    fs.walk follow links p.hops (fs.start p) = .ok d := by
  rw [Path.hops, walk_plain h.plain, h.names]
  split
  · exact walk_none
  · exact walk_nil

theorem Plain.resolve (h : fs.Plain p d) (hp : p ≠ .empty) : fs.resolve follow p = .ok d := by
  simp only [Fs.resolve, h.nul, hp, h.walk, if_false, Bool.false_eq_true]

theorem At.ne_empty (h : fs.At p d n) : p ≠ .empty := by
  rintro rfl
  obtain ⟨_, hparts, -⟩ := h.parts
  simp [Path.empty] at hparts

theorem At.resolve (h : fs.At p d n)
    (hl : follow = false ∨ ∀ t, fs.node (d ++ [n]) ≠ some (.symlink t)) :
    fs.resolve follow p = .ok (d ++ [n]) := by
  obtain ⟨parts, hparts, hplain, rfl⟩ := h.parts
  have hhops : p.hops = parts.map some ++ [n.hop] := by
    simp [Path.hops, hparts, h.dirOnly, Name.hop]
  simp only [Fs.resolve, h.nul, h.ne_empty, if_false, Bool.false_eq_true, hhops,
    walk_plain hplain, walk_name hl]

theorem Plain.at_push (h : fs.Plain p d) (hn : n.bytes.contains 0 = false) :
    fs.At (p.push (.name n)) d n where
  start := h.start
  parts := ⟨p.parts, rfl, h.plain, h.names⟩
  dirOnly := rfl
  nul := by
    have := h.nul
    simp only [Path.hasNul, Path.push_parts, List.any_append, Bool.or_eq_false_iff] at this ⊢
    exact ⟨this, by simpa using hn⟩

/-- Calls on the path act on the name in the directory, whatever file is there. -/
structure Reaches (fs : Fs) (p : Path) (d : List Name) (n : Name) : Prop where
  resolve : ∀ {follow : Bool}, (follow = false ∨ ∀ t, fs.node (d ++ [n]) ≠ some (.symlink t)) →
    fs.resolve follow p = .ok (d ++ [n])

theorem At.reaches (h : fs.At p d n) : fs.Reaches p d n := ⟨h.resolve⟩

/-- The parent of a plain path to a name is a plain path to its directory. -/
theorem At.parent (h : fs.At p d n) :
    ∃ q, p.parent = some q ∧ p = q.push (.name n) ∧ fs.Plain q d := by
  obtain ⟨parts, hparts, hplain, hd⟩ := h.parts
  have hp : p = Path.push ⟨p.anchor, parts, false⟩ (.name n) := by
    rcases p with ⟨anchor, ps, dirOnly⟩
    have hdir : dirOnly = false := h.dirOnly
    cases hparts; cases hdir
    rfl
  refine ⟨⟨p.anchor, parts, false⟩, ?_, hp, h.start, hplain, hd, ?_⟩
  · conv_lhs => rw [hp]
    simp
  · have := h.nul
    simp only [Path.hasNul, hparts, List.any_append, Bool.or_eq_false_iff] at this
    exact this.1

theorem At.unique {d' : List Name} {n' : Name} (h : fs.At p d n) (h' : fs.At p d' n') :
    d = d' ∧ n = n' := by
  obtain ⟨ps, hps, -, rfl⟩ := h.parts
  obtain ⟨ps', hps', -, rfl⟩ := h'.parts
  obtain ⟨rfl, heq⟩ := List.append_inj' (hps.symm.trans hps') rfl
  cases heq
  exact ⟨rfl, rfl⟩

end

/-! ## Any walk -/

section
variable {fs fs' : Fs} {names found : List Name} {follow : Bool} {hops : List Hop} {p : Path}

/-- A walk that starts in a real directory ends in one, or at a name in one. -/
theorem walkWith_dirPath {next : List Hop → List Name → Except ErrorKind (List Name)}
    (hnext : ∀ hops names found, fs.DirPath names → next hops names = .ok found →
      fs.DirPath found.dropLast)
    (hd : fs.DirPath names) (h : fs.walkWith follow next hops names = .ok found) :
    fs.DirPath found.dropLast := by
  induction hops generalizing names with
  | nil => cases h; exact hd.dropLast
  | cons hop rest ih =>
    match hop with
    | none => exact ih hd h
    | some .up => exact ih hd.dropLast h
    | some (.name n) =>
      simp only [walkWith] at h
      split at h
      · split at h <;> cases h; simpa using hd
      · exact ih (dirPath_concat.2 ⟨hd, ‹_›⟩) h
      · rename_i target _
        split at h
        · cases h; simpa using hd
        · refine hnext _ _ _ ?_ h
          split
          · exact dirPath_nil fs
          · exact hd
      · split at h <;> cases h; simpa using hd

theorem walk_dirPath {links : Nat} (hd : fs.DirPath names)
    (h : fs.walk follow links hops names = .ok found) : fs.DirPath found.dropLast := by
  induction links generalizing hops names found with
  | zero => exact walkWith_dirPath (fun _ _ _ _ h => by cases h) hd h
  | succ links ih => exact walkWith_dirPath (fun _ _ _ hd h => ih hd h) hd h

/-- A walk that ends with the demand for a directory ends at one. -/
theorem walkWith_dirOnly {next : List Hop → List Name → Except ErrorKind (List Name)}
    (hnext : ∀ hops names found, fs.DirPath names → hops.getLast? = some none →
      next hops names = .ok found → fs.DirPath found)
    (hd : fs.DirPath names) (hlast : hops.getLast? = some none)
    (h : fs.walkWith follow next hops names = .ok found) : fs.DirPath found := by
  induction hops generalizing names with
  | nil => cases hlast
  | cons hop rest ih =>
    rcases eq_or_ne rest [] with rfl | hrest
    · cases hlast
      cases h; exact hd
    have hlast' : rest.getLast? = some none := by
      rwa [List.getLast?_cons_of_ne_nil hrest] at hlast
    match hop with
    | none => exact ih hd hlast' h
    | some .up => exact ih hd.dropLast hlast' h
    | some (.name n) =>
      simp only [walkWith, hrest, if_false, false_and] at h
      split at h
      · cases h
      · exact ih (dirPath_concat.2 ⟨hd, ‹_›⟩) hlast' h
      · refine hnext _ _ _ ?_ ?_ h
        · split
          · exact dirPath_nil fs
          · exact hd
        · rw [List.getLast?_append_of_ne_nil _ hrest, hlast']
      · cases h

theorem walk_dirOnly {links : Nat} (hd : fs.DirPath names) (hlast : hops.getLast? = some none)
    (h : fs.walk follow links hops names = .ok found) : fs.DirPath found := by
  induction links generalizing hops names found with
  | zero => exact walkWith_dirOnly (fun _ _ _ _ _ h => by cases h) hd hlast h
  | succ links ih => exact walkWith_dirOnly (fun _ _ _ hd hlast h => ih hd hlast h) hd hlast h

theorem resolve_eq_ok (h : fs.resolve follow p = .ok found) :
    p.hasNul = false ∧ p ≠ .empty ∧ fs.walk follow maxLinks p.hops (fs.start p) = .ok found := by
  unfold Fs.resolve at h
  split at h
  · cases h
  split at h
  · cases h
  split at h <;> cases h
  exact ⟨Bool.eq_false_of_not_eq_true ‹_›, ‹_›, ‹_›⟩

/-- The first hops of a walk that goes on after them lead to a directory, or to
a link from which the walk goes on. -/
theorem walkWith_lead (next : Bool → List Hop → List Name → Except ErrorKind (List Name))
    {front rest : List Hop} (hrest : rest ≠ [])
    (h : fs.walkWith follow (next follow) (front ++ rest) names = .ok found) :
    (∃ d, ∀ follow' rest', follow' = true ∨ rest' ≠ [] →
      fs.walkWith follow' (next follow') (front ++ rest') names =
        fs.walkWith follow' (next follow') rest' d) ∨
    ∃ front' d, next follow (front' ++ rest) d = .ok found ∧
      ∀ follow' rest', follow' = true ∨ rest' ≠ [] →
        fs.walkWith follow' (next follow') (front ++ rest') names =
          next follow' (front' ++ rest') d := by
  induction front generalizing names with
  | nil => exact .inl ⟨names, fun _ _ _ => rfl⟩
  | cons hop front ih =>
    have hne : front ++ rest ≠ [] := by simp [hrest]
    match hop with
    | none => exact ih h
    | some .up => exact ih h
    | some (.name n) =>
      simp only [List.cons_append, walkWith, hne, if_false, false_and] at h ⊢
      split at h
      · cases h
      · exact ih h
      · rename_i target _
        refine .inr ⟨target.hops ++ front, _, by rwa [List.append_assoc], ?_⟩
        intro follow' rest' hr
        have hno : ¬(front ++ rest' = [] ∧ follow' = false) := by
          rintro ⟨hnil, rfl⟩
          rcases hr with hr | hr
          · cases hr
          · exact hr (List.append_eq_nil_iff.1 hnil).2
        simp only [hno, if_false, List.append_assoc]
      · cases h

/-- What follows does not change where the first hops of a walk lead. -/
theorem walk_lead {links : Nat} {front rest : List Hop} (hrest : rest ≠ [])
    (h : fs.walk follow links (front ++ rest) names = .ok found) :
    ∃ links' d, ∀ follow' rest', follow' = true ∨ rest' ≠ [] →
      fs.walk follow' links (front ++ rest') names = fs.walk follow' links' rest' d := by
  induction links generalizing front names with
  | zero =>
    rcases walkWith_lead (fun _ _ _ => .error .filesystemLoop) hrest h with
      ⟨d, hd⟩ | ⟨_, _, hnext, -⟩
    · exact ⟨0, d, hd⟩
    · cases hnext
  | succ links ih =>
    rcases walkWith_lead (fun follow => fs.walk follow links) hrest h with
      ⟨d, hd⟩ | ⟨front', d, hnext, hd⟩
    · exact ⟨links + 1, d, hd⟩
    · obtain ⟨links', d', hlead⟩ := ih hnext
      exact ⟨links', d', fun follow' rest' hr => (hd follow' rest' hr).trans (hlead follow' rest' hr)⟩

theorem Reaches.nul {d : List Name} {n : Name} (h : fs.Reaches p d n) : p.hasNul = false :=
  (resolve_eq_ok (h.resolve (.inl rfl))).1

/-- What a path below a plain directory resolves to, unless it is a directory. -/
theorem Plain.at_of_resolve {q : Path} {d : List Name} (h : fs.Plain q d) (hq : p.parentOrHere = q)
    (hne : q ≠ .empty) (hr : fs.resolve false p = .ok found) (hx : fs.node found ≠ some .dir) :
    ∃ n, fs.At p d n ∧ found = d ++ [n] := by
  obtain ⟨hnul, hempty, hwalk⟩ := resolve_eq_ok hr
  rcases List.eq_nil_or_concat p.parts with hparts | ⟨parts, part, hparts⟩
  · have hd : fs.DirPath (fs.start p) := by
      rcases p with ⟨anchor, ps, dirOnly⟩
      cases hparts
      cases anchor with
      | root => exact dirPath_nil fs
      | here => exact absurd hq.symm hne
      | bare => subst hq; exact h.start
    have hhops : p.hops = [] ∨ p.hops.getLast? = some none := by
      simp only [Path.hops, hparts]; split <;> simp
    rcases hhops with hhops | hhops
    · rw [hhops, walk_nil] at hwalk
      cases hwalk
      exact absurd hd.node hx
    · exact absurd (walk_dirOnly hd hhops hwalk).node hx
  · have hparent : p.parentOrHere = ⟨p.anchor, parts, false⟩ := by
      rcases p with ⟨anchor, ps, dirOnly⟩
      subst hparts
      simp [Path.parentOrHere, Path.parent, List.concat_eq_append]
      split <;> simp_all
    rw [hparent] at hq
    subst hq
    rw [List.concat_eq_append] at hparts
    have hstart : fs.DirPath (fs.start p) := h.start
    have hlead : lexicalFrom (fs.start p) parts = d := h.names
    by_cases hdirOnly : p.dirOnly = true
    · exact absurd (walk_dirOnly hstart (by simp [Path.hops, hdirOnly]) hwalk).node hx
    have hhops : p.hops = parts.map some ++ [some part] := by
      simp [Path.hops, hparts, hdirOnly]
    have hplain : fs.PlainFrom (fs.start p) parts := h.plain
    rw [hhops, walk_plain hplain, hlead] at hwalk
    cases part with
    | up =>
      have hup : fs.walk false maxLinks [some .up] d = .ok d.dropLast := rfl
      rw [hup] at hwalk
      cases hwalk
      exact absurd h.dirPath.dropLast.node hx
    | name n =>
      refine ⟨n, ⟨hstart, ⟨parts, hparts, hplain, hlead⟩, Bool.eq_false_of_not_eq_true hdirOnly,
        hnul⟩, ?_⟩
      change fs.walk false maxLinks [n.hop] d = _ at hwalk
      rw [walk_name (.inl rfl)] at hwalk
      cases hwalk; rfl

theorem resolve_dirPath (hd : fs.DirPath (fs.start p)) (h : fs.resolve follow p = .ok found) :
    fs.DirPath found.dropLast :=
  walk_dirPath hd (resolve_eq_ok h).2.2

/-- The directories and the links of a state stay, and no link is new: whatever
could be resolved leads where it did. -/
structure Keeps (fs fs' : Fs) : Prop where
  fold : fs'.fold = fs.fold
  cwd : fs'.cwd = fs.cwd
  dirs : ∀ l, fs.nodeAt l = some .dir → fs'.nodeAt l = some .dir
  links : ∀ l t, fs.nodeAt l = some (.symlink t) ↔ fs'.nodeAt l = some (.symlink t)

namespace Keeps

theorem refl (fs : Fs) : fs.Keeps fs := ⟨rfl, rfl, fun _ => id, fun _ _ => Iff.rfl⟩

theorem trans {fs'' : Fs} (h : fs.Keeps fs') (h' : fs'.Keeps fs'') : fs.Keeps fs'' where
  fold := h'.fold.trans h.fold
  cwd := h'.cwd.trans h.cwd
  dirs l hl := h'.dirs l (h.dirs l hl)
  links l t := (h.links l t).trans (h'.links l t)

theorem loc (h : fs.Keeps fs') (names : List Name) : fs'.loc names = fs.loc names := by
  rw [Fs.loc, Fs.loc, h.fold]

theorem start (h : fs.Keeps fs') (p : Path) : fs'.start p = fs.start p := by
  rw [Fs.start, Fs.start, h.cwd]

theorem node_dir (h : fs.Keeps fs') (hn : fs.node names = some .dir) :
    fs'.node names = some .dir := by
  rw [Fs.node, h.loc]; exact h.dirs _ hn

theorem node_link (h : fs.Keeps fs') {t : Path} :
    fs.node names = some (.symlink t) ↔ fs'.node names = some (.symlink t) := by
  rw [Fs.node, Fs.node, h.loc]; exact h.links _ _

theorem dirPath (h : fs.Keeps fs') (hd : fs.DirPath names) : fs'.DirPath names :=
  fun front hf => h.node_dir (hd front hf)

theorem plainFrom (h : fs.Keeps fs') {parts : List Part} (hd : fs.PlainFrom names parts) :
    fs'.PlainFrom names parts := fun front hf => h.node_dir (hd front hf)

theorem walkWith (h : fs.Keeps fs') {next next' : List Hop → List Name → Except ErrorKind (List Name)}
    (hnext : ∀ hops names found, next hops names = .ok found → next' hops names = .ok found)
    (hw : fs.walkWith follow next hops names = .ok found) :
    fs'.walkWith follow next' hops names = .ok found := by
  induction hops generalizing names with
  | nil => exact hw
  | cons hop rest ih =>
    match hop with
    | none => exact ih hw
    | some .up => exact ih hw
    | some (.name n) =>
      simp only [Fs.walkWith] at hw ⊢
      rcases hx : fs.node (names ++ [n]) with _ | x
      · have hno : ∀ t, fs'.node (names ++ [n]) ≠ some (.symlink t) := fun t ht => by
          rw [h.node_link.2 ht] at hx; cases hx
        simp only [hx] at hw
        split at hw <;> cases hw
        subst rest
        rcases hx' : fs'.node (names ++ [n]) with _ | x'
        · rfl
        · cases x' with
          | symlink t => exact absurd hx' (hno t)
          | _ => rfl
      · cases x with
        | dir => rw [h.node_dir hx]; simp only [hx] at hw; exact ih hw
        | symlink t =>
          rw [h.node_link.1 hx]
          simp only [hx] at hw ⊢
          split
          · rwa [if_pos ‹_›] at hw
          · rw [if_neg ‹_›] at hw; exact hnext _ _ _ hw
        | _ =>
          have hno : ∀ t, fs'.node (names ++ [n]) ≠ some (.symlink t) := fun t ht => by
            rw [h.node_link.2 ht] at hx; cases hx
          simp only [hx] at hw
          split at hw <;> cases hw
          subst rest
          rcases hx' : fs'.node (names ++ [n]) with _ | x'
          · rfl
          · cases x' with
            | symlink t => exact absurd hx' (hno t)
            | _ => rfl

theorem walk (h : fs.Keeps fs') {links : Nat} (hw : fs.walk follow links hops names = .ok found) :
    fs'.walk follow links hops names = .ok found := by
  induction links generalizing hops names found with
  | zero => exact h.walkWith (fun _ _ _ h => by cases h) hw
  | succ links ih => exact h.walkWith (fun _ _ _ => ih) hw

theorem resolve (h : fs.Keeps fs') (hr : fs.resolve follow p = .ok found) :
    fs'.resolve follow p = .ok found := by
  unfold Fs.resolve at hr ⊢
  rw [h.start]
  split at hr
  · cases hr
  rw [if_neg ‹_›]
  split at hr
  · cases hr
  rw [if_neg ‹_›]
  split at hr <;> cases hr
  rw [h.walk ‹_›]

end Keeps

theorem Plain.keep {d : List Name} (hp : fs.Plain p d) (h : fs.Keeps fs') : fs'.Plain p d where
  start := by rw [h.start]; exact h.dirPath hp.start
  plain := by rw [h.start]; exact h.plainFrom hp.plain
  names := by rw [h.start]; exact hp.names
  nul := hp.nul

theorem At.keep {d : List Name} {n : Name} (hp : fs.At p d n) (h : fs.Keeps fs') :
    fs'.At p d n where
  start := by rw [h.start]; exact h.dirPath hp.start
  parts := by
    obtain ⟨parts, hparts, hplain, hd⟩ := hp.parts
    exact ⟨parts, hparts, by rw [h.start]; exact h.plainFrom hplain, by rw [h.start]; exact hd⟩
  dirOnly := hp.dirOnly
  nul := hp.nul

/-- Components that lead down directories now, and led somewhere before, led down
directories then. -/
theorem Keeps.plainFrom_of_walkWith (h : fs.Keeps fs') {parts : List Part} {rest : List Hop}
    {next : List Hop → List Name → Except ErrorKind (List Name)} (hd : fs.DirPath names)
    (hplain : fs'.PlainFrom names parts) (hrest : rest ≠ [])
    (hw : fs.walkWith follow next (parts.map some ++ rest) names = .ok found) :
    fs.PlainFrom names parts := by
  induction parts generalizing names with
  | nil => exact plainFrom_nil.2 hd.node
  | cons part parts ih =>
    cases part with
    | up => exact plainFrom_cons.2 ⟨hd.node, ih hd.dropLast hplain.tail hw⟩
    | name n =>
      have hdir' : fs'.node (names ++ [n]) = some .dir := hplain [.name n] (by simp)
      simp only [List.map_cons, List.cons_append, Fs.walkWith] at hw
      rcases hx : fs.node (names ++ [n]) with _ | x <;> rw [hx] at hw
      · simp [hrest] at hw
      cases x with
      | dir => exact plainFrom_cons.2 ⟨hd.node, ih (dirPath_concat.2 ⟨hd, hx⟩) hplain.tail hw⟩
      | symlink t =>
        rw [h.node_link.1 hx] at hdir'
        cases hdir'
      | _ => simp [hrest] at hw

/-- A path in a plain directory was in one before if it led anywhere then. -/
theorem At.of_keeps {d : List Name} {n : Name} (h : fs'.At p d n) (hk : fs.Keeps fs')
    (hstart : fs.DirPath (fs.start p)) (hr : fs.resolve follow p = .ok found) : fs.At p d n where
  start := hstart
  parts := by
    obtain ⟨parts, hparts, hplain, hd⟩ := h.parts
    rw [hk.start] at hplain hd
    refine ⟨parts, hparts, ?_, hd⟩
    obtain ⟨-, -, hwalk⟩ := resolve_eq_ok hr
    have hhops : p.hops = parts.map some ++ [n.hop] := by
      simp [Path.hops, hparts, h.dirOnly, Name.hop]
    rw [hhops] at hwalk
    exact hk.plainFrom_of_walkWith hstart hplain (by simp) hwalk
  dirOnly := h.dirOnly
  nul := h.nul

theorem Reaches.keep {d : List Name} {n : Name} (hp : fs.Reaches p d n) (h : fs.Keeps fs') :
    fs'.Reaches p d n where
  resolve hl := by
    refine h.resolve (hp.resolve (hl.imp id fun hno t ht => ?_))
    exact hno t (h.node_link.1 ht)

end

end Fs

end Ironlock
