import Ironlock.Answers
import Ironlock.RecoveredName

/-! The key of a path is that of its place: it does not depend on how the path
is spelled, nor on which of its directories are there yet. -/

namespace Ironlock
open ByteOrder (Bytes)
open Effect
open Fs (Identity Metadata SysCall)

/-! ## Spellings -/

/-- Another spelling of `p`: a component `.` or a pair `x/..` put in anywhere
after the root, or the working directory put in front or left out. -/
inductive Respells (cwd : List Name) (p q : Bytes) : Prop
  | here (before after : List Bytes) (hp : segments p = before ++ after)
      (hq : segments q = before ++ [dot] :: after)
      (hfront : before = [] → (Path.parse p).isAbsolute = false)
  | back (x : Name) (before after : List Bytes) (hp : segments p = before ++ after)
      (hq : segments q = before ++ x.bytes :: [dot, dot] :: after)
      (hfront : before = [] → (Path.parse p).isAbsolute = false)
  | absolute (hp : (Path.parse p).isAbsolute = false)
      (hq : segments q = [] :: cwd.map Name.bytes ++ segments p)
  | relative (hne : q ≠ []) (hq : (Path.parse q).isAbsolute = false)
      (hp : segments p = [] :: cwd.map Name.bytes ++ segments q)

/-- Where a path leads by its names alone. -/
def Fs.lexical (fs : Fs) (p : Path) : List Name := lexicalFrom (fs.start p) p.parts

section
variable {cwd : List Name} {p q b : Bytes}

theorem segments_ne_nil (b : Bytes) : segments b ≠ [] := List.splitOn_ne_nil slash b

theorem segments_eq_nil (h : segments b = [[]]) : b = [] := by
  have hjoin : [slash].intercalate (b.splitOn slash) = b := List.intercalate_splitOn slash
  rw [show b.splitOn slash = [[]] from h] at hjoin
  exact hjoin.symm

theorem parts_of_segments (b : Bytes) : (Path.parse b).parts = (segments b).filterMap Path.part? := rfl

/-- Only a path that begins with a separator is absolute. -/
theorem parse_isAbsolute : (Path.parse b).isAbsolute = true ↔ ∃ x rest, segments b = [] :: x :: rest := by
  unfold Path.isAbsolute Path.parse segments
  rcases b.splitOn slash with _ | ⟨first, rest⟩
  · simp
  · rcases first with _ | ⟨c, first⟩
    · cases rest <;> simp
    · cases first with
      | nil => by_cases hc : c = dot <;> simp [hc]
      | cons => simp

theorem parse_ne_empty (h : b ≠ []) : Path.parse b ≠ .empty := by
  intro he
  have hparts : (segments b).filterMap Path.part? = [] := congrArg Path.parts he
  have hanchor : (Path.parse b).anchor = .bare := congrArg Path.anchor he
  rcases hs : segments b with _ | ⟨first, rest⟩
  · exact segments_ne_nil b hs
  · have hfirst : slash ∉ first := slash_not_mem_segment (by rw [hs]; exact List.mem_cons_self)
    have hnone : Path.part? first = none := by
      rw [hs, List.filterMap_eq_nil_iff] at hparts
      exact hparts first List.mem_cons_self
    have htext := part?_text hfirst
    rw [hnone] at htext
    have hdrop : first = [] ∨ first = [dot] := by
      by_contra hkeep
      rw [not_or] at hkeep
      rw [if_pos hkeep] at htext
      cases htext
    unfold Path.parse at hanchor
    rw [show b.splitOn slash = first :: rest from hs] at hanchor
    rcases hdrop with rfl | rfl
    · cases rest with
      | nil => exact h (segments_eq_nil hs)
      | cons => cases hanchor
    · cases hanchor

theorem part?_nil : Path.part? [] = none := by decide

theorem part?_here : Path.part? [dot] = none := by decide

theorem part?_up : Path.part? [dot, dot] = some .up := by decide

/-- What is put in after the beginning leaves a path absolute or relative. -/
theorem isAbsolute_insert {before after more : List Bytes} (hne : p ≠ [])
    (hp : segments p = before ++ after) (hq : segments q = before ++ more ++ after)
    (hfront : before = [] → (Path.parse p).isAbsolute = false)
    (hmore : ∃ x rest, more = x :: rest ∧ x ≠ []) :
    (Path.parse q).isAbsolute = (Path.parse p).isAbsolute := by
  obtain ⟨x, rest, rfl, hx⟩ := hmore
  rw [Bool.eq_iff_iff, parse_isAbsolute, parse_isAbsolute]
  cases before with
  | nil =>
    refine iff_of_false ?_ (mt parse_isAbsolute.2 (by simp [hfront rfl]))
    rintro ⟨y, rest', h⟩
    rw [hq] at h
    exact hx (by simpa using (List.cons.inj h).1)
  | cons first before =>
    rw [hp, hq]
    simp only [List.cons_append, List.cons.injEq, exists_and_left]
    refine and_congr_right ?_
    rintro rfl
    refine iff_of_true ?_ ?_
    · cases before <;> exact ⟨_, _, rfl⟩
    · cases before with
      | nil =>
        cases after with
        | nil => exact absurd (segments_eq_nil hp) hne
        | cons => exact ⟨_, _, rfl⟩
      | cons => exact ⟨_, _, rfl⟩

theorem Respells.ne_nil (h : Respells cwd p q) : q ≠ [] := by
  rintro rfl
  have hnil : segments [] = [[]] := rfl
  cases h with
  | here before after hp hq =>
    rw [hnil] at hq
    cases before <;> simp at hq
  | back x before after hp hq =>
    rw [hnil] at hq
    have := congrArg List.length hq
    simp at this
    omega
  | absolute hp hq =>
    rw [hnil] at hq
    have hlength := congrArg List.length hq
    have hpos := List.length_pos_iff.2 (segments_ne_nil p)
    simp only [List.length_cons, List.length_nil, List.length_append] at hlength
    omega
  | relative hne' => exact hne' rfl

theorem lexical_absolute {fs : Fs} (hp : (Path.parse p).isAbsolute = false)
    (hq : segments q = [] :: fs.cwd.map Name.bytes ++ segments p) :
    fs.lexical (Path.parse q) = fs.lexical (Path.parse p) := by
  have habs : (Path.parse q).isAbsolute = true := by
    rw [parse_isAbsolute, hq]
    rcases hs : fs.cwd.map Name.bytes ++ segments p with _ | ⟨x, rest⟩
    · exact absurd (List.append_eq_nil_iff.1 hs).2 (segments_ne_nil p)
    · exact ⟨x, rest, by rw [List.cons_append, hs]⟩
  have hcwd : (fs.cwd.map Name.bytes).filterMap Path.part? = fs.cwd.map .name := by
    rw [List.filterMap_map, ← List.filterMap_eq_map]
    exact List.filterMap_congr fun n _ => Path.part?_bytes n
  simp only [Fs.lexical, Fs.start, habs, hp, if_true, Bool.false_eq_true, if_false, parts_of_segments, hq,
    List.cons_append, List.filterMap_cons, part?_nil, List.filterMap_append, hcwd, lexicalFrom_append,
    lexicalFrom_names, List.nil_append]

/-- All spellings of a path lead to one place. -/
theorem Respells.lexical {fs : Fs} (h : Respells fs.cwd p q) (hne : p ≠ []) :
    fs.lexical (Path.parse q) = fs.lexical (Path.parse p) := by
  cases h with
  | here before after hp hq hfront =>
    have hq' : segments q = before ++ [[dot]] ++ after := by simpa using hq
    have habs := isAbsolute_insert hne hp hq' hfront ⟨_, _, rfl, by simp⟩
    simp only [Fs.lexical, Fs.start, habs, parts_of_segments, hp, hq, List.filterMap_append,
      List.filterMap_cons, part?_here]
  | back x before after hp hq hfront =>
    have hq' : segments q = before ++ [x.bytes, [dot, dot]] ++ after := by simpa using hq
    have habs := isAbsolute_insert hne hp hq' hfront ⟨_, _, rfl, x.bytes_ne_nil⟩
    simp only [Fs.lexical, Fs.start, habs, parts_of_segments, hp, hq, List.filterMap_append,
      List.filterMap_cons, Path.part?_bytes, part?_up, lexicalFrom_append, lexicalFrom_cons, Part.lead,
      List.dropLast_concat]
  | absolute hp hq => exact lexical_absolute hp hq
  | relative _ hq hp => exact (lexical_absolute hq hp).symm

end

/-! ## Keys of places -/

section
variable {env : Env} {p q : Path}

theorem closestAncestor_agree (env : Env) (p q : Path) (rev missing : List Name) :
    Agree (closestAncestor env p rev missing) (closestAncestor env q rev missing) := by
  induction rev generalizing missing with
  | nil =>
    refine .bind (.refl _) fun r => ?_
    cases r with
    | ok existing => exact .refl _
    | error e => exact .ite (.fail _ _) (.refl _)
  | cons n rev ih =>
    refine .bind (.refl _) fun r => ?_
    cases r with
    | ok existing => exact .refl _
    | error e => exact .ite (ih _) (.refl _)

/-- The key of a path is looked for from its place. -/
theorem normalizedPathKey_eq (env : Env) {w : World} (hp : p ≠ .empty) :
    normalizedPathKey env p w = (closestAncestor env p (w.fs.lexical p).reverse [] >>= fun resolved =>
      return keyText env resolved) w := by
  obtain ⟨a, ha, hlex⟩ := Fs.absolute_lexical w.fs hp
  have habs : stdAbsolute p w = (.ok a, w) := by simp only [stdAbsolute, ha]
  unfold normalizedPathKey
  rw [Eff.bind_ok habs, Fs.lexical, hlex]

/-- Paths to one place have one key, or neither has one. -/
theorem normalizedPathKey_agree (env : Env) {w : World} (hp : p ≠ .empty) (hq : q ≠ .empty)
    (h : w.fs.lexical q = w.fs.lexical p) :
    (normalizedPathKey env q w).1.toOption = (normalizedPathKey env p w).1.toOption ∧
      (normalizedPathKey env q w).2 = (normalizedPathKey env p w).2 := by
  rw [normalizedPathKey_eq env hp, normalizedPathKey_eq env hq, h]
  exact Agree.bind (closestAncestor_agree env q p _ _) (fun _ => .refl _) w

end

/-! ## Where links are absent -/

namespace Fs

/-- No symbolic link is there, and every entry is in a directory. -/
structure LinkFree (fs : Fs) : Prop where
  links : ∀ l t, fs.nodeAt l ≠ some (.symlink t)
  parents : ∀ l x, fs.nodeAt l = some x → fs.nodeAt l.dropLast = some .dir

/-- Nothing but directories stands on the way to the last of the names. -/
def Open (fs : Fs) (names : List Name) : Prop :=
  ∀ front, front <+: names → front ≠ names → ∀ x, fs.node front = some x → x = .dir

section
variable {fs : Fs} {names d : List Name} {n : Name} {x : Node}

theorem LinkFree.parent (h : fs.LinkFree) (hx : fs.node (names ++ [n]) = some x) :
    fs.node names = some .dir := by
  rw [Fs.node, loc_concat] at hx
  have := h.parents _ _ hx
  rwa [List.dropLast_concat] at this

/-- What is in front of what is there is a directory. -/
theorem LinkFree.above (h : fs.LinkFree) {front : List Name} (hf : front <+: names) (hne : front ≠ names)
    (hx : fs.node names = some x) : fs.node front = some .dir := by
  obtain ⟨rest, rfl⟩ := hf
  induction rest using List.reverseRecOn generalizing x with
  | nil => exact absurd (List.append_nil front).symm hne
  | append_singleton rest n ih =>
    rw [← List.append_assoc] at hx
    have hdir := h.parent hx
    cases rest with
    | nil => rwa [List.append_nil] at hdir
    | cons m rest => exact ih (by simp) hdir

/-- A walk down names without links ends at the last of them, unless an earlier
one is absent or no directory. -/
theorem walkWith_names (hl : ∀ l t, fs.nodeAt l ≠ some (.symlink t)) (follow : Bool)
    (next : List Hop → List Name → Except ErrorKind (List Name)) (names : List Name)
    (hd : fs.node d = some .dir) :
    (fs.walkWith follow next (names.map Name.hop) d = .ok (d ++ names) ∧
      ∀ front, front <+: names → front ≠ names → fs.node (d ++ front) = some .dir) ∨
    (fs.walkWith follow next (names.map Name.hop) d = .error .notFound ∧
      ∃ front, front <+: names ∧ front ≠ names ∧ fs.node (d ++ front) = none ∧
        ∀ before, before <+: front → before ≠ front → fs.node (d ++ before) = some .dir) ∨
    fs.walkWith follow next (names.map Name.hop) d = .error .notADirectory ∧
      ∃ front x, front <+: names ∧ front ≠ names ∧ fs.node (d ++ front) = some x ∧ x ≠ .dir := by
  induction names generalizing d with
  | nil =>
    refine .inl ⟨by simp [walkWith], ?_⟩
    intro front hf hne
    exact absurd (List.prefix_nil.1 hf) hne
  | cons n names ih =>
    simp only [List.map_cons, walkWith]
    have hstop (hne : names ≠ []) : [n] <+: n :: names ∧ [n] ≠ n :: names := by
      simpa [eq_comm] using hne
    have hfirst (front : List Name) (hf : front <+: [n]) (hne : front ≠ [n]) :
        fs.node (d ++ front) = some .dir := by
      rw [← List.nil_append [n]] at hf
      rcases List.prefix_concat_iff.1 hf with rfl | hf
      · exact absurd rfl hne
      · rw [List.prefix_nil.1 hf, List.append_nil]
        exact hd
    rcases hx : fs.node (d ++ [n]) with _ | x
    · by_cases hnil : names = []
      · exact .inl ⟨by simp [hnil], by rw [hnil]; exact hfirst⟩
      · exact .inr (.inl ⟨by simp [hnil], [n], (hstop hnil).1, (hstop hnil).2, hx, hfirst⟩)
    · cases x with
      | dir =>
        have hmore (front : List Name) (hf : front <+: names) (hne : front ≠ names) :
            n :: front <+: n :: names ∧ n :: front ≠ n :: names := by
          simpa using ⟨hf, hne⟩
        have hall (names : List Name) (h : ∀ front, front <+: names → front ≠ names →
            fs.node (d ++ [n] ++ front) = some .dir) (front : List Name) (hf : front <+: n :: names)
            (hne : front ≠ n :: names) : fs.node (d ++ front) = some .dir := by
          cases front with
          | nil => rwa [List.append_nil]
          | cons m front =>
            obtain ⟨rfl, hrest⟩ := List.cons_prefix_cons.1 hf
            have := h front hrest fun h => hne (by rw [h])
            rwa [List.append_assoc] at this
        rcases ih hx with
          ⟨hwalk, hdirs⟩ | ⟨hwalk, front, hf, hne, hnone, hdirs⟩ | ⟨hwalk, front, x, hf, hne, hxf, hodd⟩
        · exact .inl ⟨by simpa using hwalk, hall _ hdirs⟩
        · exact .inr (.inl ⟨hwalk, n :: front, (hmore _ hf hne).1, (hmore _ hf hne).2, by simpa using hnone,
            hall _ hdirs⟩)
        · exact .inr (.inr ⟨hwalk, n :: front, x, (hmore _ hf hne).1, (hmore _ hf hne).2,
            by simpa using hxf, hodd⟩)
      | symlink t => exact absurd hx (hl _ t)
      | file i =>
        by_cases hnil : names = []
        · exact .inl ⟨by simp [hnil], by rw [hnil]; exact hfirst⟩
        · exact .inr (.inr ⟨by simp [hnil], [n], _, (hstop hnil).1, (hstop hnil).2, hx, by simp⟩)
      | special =>
        by_cases hnil : names = []
        · exact .inl ⟨by simp [hnil], by rw [hnil]; exact hfirst⟩
        · exact .inr (.inr ⟨by simp [hnil], [n], _, (hstop hnil).1, (hstop hnil).2, hx, by simp⟩)

/-- Where a path of names leads. -/
theorem LinkFree.resolve_names (h : fs.LinkFree) (follow : Bool) (hnul : (Path.absolute names).hasNul = false) :
    (fs.resolve follow (.absolute names) = .ok names ∧ fs.Open names) ∨
    (fs.resolve follow (.absolute names) = .error (.os .notFound) ∧ fs.node names = none ∧ fs.Open names) ∨
    fs.resolve follow (.absolute names) = .error (.os .notADirectory) ∧ ¬fs.Open names := by
  have hhops : (Path.absolute names).hops = names.map Name.hop := by
    simp [Path.hops, Path.absolute, Function.comp_def]
  have hstart : fs.start (.absolute names) = [] := rfl
  have hok {found : List Name} (hw : fs.walk follow maxLinks (names.map Name.hop) [] = .ok found) :
      fs.resolve follow (.absolute names) = .ok found := by
    simp only [Fs.resolve, hnul, absolute_ne_empty, hhops, hstart, hw, Bool.false_eq_true, if_false]
  have herror {kind : ErrorKind} (hw : fs.walk follow maxLinks (names.map Name.hop) [] = .error kind) :
      fs.resolve follow (.absolute names) = .error (.os kind) := by
    simp only [Fs.resolve, hnul, absolute_ne_empty, hhops, hstart, hw, Bool.false_eq_true, if_false]
  have hwalk := walkWith_names h.links follow (fs.walk follow 39) names node_nil
  simp only [List.nil_append] at hwalk
  rcases hwalk with ⟨hw, hdirs⟩ | ⟨hw, front, hf, hne, hnone, hdirs⟩ | ⟨hw, front, x, hf, hne, hx, hodd⟩
  · refine .inl ⟨hok hw, ?_⟩
    intro front hf hne x hx
    rw [hdirs front hf hne] at hx
    exact (Option.some.inj hx).symm
  · have hbelow (g : List Name) (hfg : front <+: g) (x : Node) (hx : fs.node g = some x) : False := by
      by_cases heq : front = g
      · rw [← heq, hnone] at hx
        cases hx
      · rw [h.above hfg heq hx] at hnone
        cases hnone
    refine .inr (.inl ⟨herror hw, ?_, ?_⟩)
    · by_contra hsome
      obtain ⟨x, hx⟩ := Option.ne_none_iff_exists'.1 hsome
      exact hbelow names hf x hx
    · intro g hg _ x hx
      rcases List.prefix_or_prefix_of_prefix hg hf with hgf | hfg
      · by_cases heq : g = front
        · exact (hbelow g (by rw [heq]) x hx).elim
        · rw [hdirs g hgf heq] at hx
          exact (Option.some.inj hx).symm
      · exact (hbelow g hfg x hx).elim
  · exact .inr (.inr ⟨herror hw, fun hopen => hodd (hopen front hf hne x hx)⟩)

theorem Open.front {front : List Name} (h : fs.Open names) (hf : front <+: names) : fs.Open front := by
  intro g hg hne x hx
  refine h g (hg.trans hf) ?_ x hx
  rintro rfl
  exact hne (hg.eq_of_length (le_antisymm hg.length_le hf.length_le))

theorem absolute_nul_front {front : List Name} (h : (Path.absolute names).hasNul = false)
    (hf : front <+: names) : (Path.absolute front).hasNul = false := by
  simp only [Path.hasNul, Path.absolute, List.any_map, List.any_eq_false] at h ⊢
  exact fun n hn => h n (hf.subset hn)

/-- The closest ancestor and the names after it give the place back. -/
theorem LinkFree.closest (h : fs.LinkFree) (hnul : (Path.absolute names).hasNul = false)
    (hopen : fs.Open names) (missing : List Name) :
    fs.closest names.reverse missing = .ok (.absolute (names ++ missing)) := by
  induction names using List.reverseRecOn generalizing missing with
  | nil => rfl
  | append_singleton d n ih =>
    have hd : d <+: d ++ [n] := List.prefix_append ..
    have ih := ih (absolute_nul_front hnul hd) (hopen.front hd) (n :: missing)
    rw [List.reverse_append, List.reverse_singleton, List.singleton_append, Fs.closest,
      List.reverse_cons, List.reverse_reverse]
    rw [List.append_assoc, List.singleton_append]
    rcases h.resolve_names true hnul with ⟨hr, -⟩ | ⟨hr, -, -⟩ | ⟨-, hclosed⟩
    · rcases hx : fs.node (d ++ [n]) with _ | x
      · simp only [Fs.canonicalize, look, hr, hx, IoError.os, if_true, ih]
      · simp only [Fs.canonicalize, look, hr, hx, foldl_push, List.append_assoc, List.singleton_append]
    · simp only [Fs.canonicalize, look, hr, IoError.os, if_true, ih]
    · exact absurd hopen hclosed

theorem LinkFree.open_of_closest (h : fs.LinkFree) {q : Path} (hq : fs.closest names.reverse [] = .ok q) :
    (Path.absolute names).hasNul = false ∧ fs.Open names := by
  rcases List.eq_nil_or_concat names with rfl | ⟨d, n, rfl⟩
  · refine ⟨rfl, ?_⟩
    intro front hf hne
    exact absurd (List.prefix_nil.1 hf) hne
  · rw [List.concat_eq_append] at hq ⊢
    have hnul := closest_nul hq
    refine ⟨hnul, ?_⟩
    rcases h.resolve_names true hnul with ⟨-, hopen⟩ | ⟨-, -, hopen⟩ | ⟨hr, -⟩
    · exact hopen
    · exact hopen
    · rw [List.reverse_append, List.reverse_singleton, List.singleton_append, Fs.closest,
        List.reverse_cons, List.reverse_reverse] at hq
      simp only [Fs.canonicalize, look, hr, IoError.os, reduceCtorEq, if_false] at hq

/-- The key of a path is that of its place, unless something else than a
directory stands on the way to it. -/
theorem LinkFree.keyPath_iff (h : fs.LinkFree) {p q : Path} (hp : p ≠ .empty) :
    fs.keyPath p = .ok q ↔ (Path.absolute (fs.lexical p)).hasNul = false ∧ fs.Open (fs.lexical p) ∧
      q = .absolute (fs.lexical p) := by
  obtain ⟨a, ha, hlex⟩ := absolute_lexical fs hp
  have hkey : fs.keyPath p = fs.closest (fs.lexical p).reverse [] := by
    rw [Fs.keyPath, ha, lexical, ← hlex]
  rw [hkey]
  constructor
  · intro hq
    obtain ⟨hnul, hopen⟩ := h.open_of_closest hq
    rw [h.closest hnul hopen, List.append_nil] at hq
    exact ⟨hnul, hopen, (Except.ok.inj hq).symm⟩
  · rintro ⟨hnul, hopen, rfl⟩
    rw [h.closest hnul hopen, List.append_nil]

end

/-! ## Directories and files that come into being -/

/-- Some of the directories that were missing on the way to the names have been
created since, or the file they name. -/
inductive Grown (names : List Name) (fs : Fs) : Fs → Prop
  | refl : Grown names fs fs
  | dir {fs₁ fs₂ : Fs} {front : List Name} : Grown names fs fs₁ → front <+: names →
      Fs.createDir (.absolute front) fs₁ = (.ok (), fs₂) → Grown names fs fs₂
  | file {fs₁ fs₂ : Fs} {i : Nat} : Grown names fs fs₁ →
      Fs.createNew (.absolute names) fs₁ = (.ok i, fs₂) → Grown names fs fs₂

section
variable {fs fs' : Fs} {names d : List Name} {n : Name} {x : Node}

theorem length_loc (fs : Fs) (names : List Name) : (fs.loc names).length = names.length := by
  induction names using List.reverseRecOn with
  | nil => rfl
  | append_singleton names n ih => rw [loc_concat, List.length_append, ih, List.length_append]; rfl

/-- Where making an entry at a path of names succeeds. -/
theorem LinkFree.make_names (h : fs.LinkFree) {α : Type} {f : Fs → Loc → Name → α × Fs} {a : α}
    (hmake : Fs.make (.absolute names) f fs = (.ok a, fs')) :
    ∃ d n, names = d ++ [n] ∧ fs.node d = some .dir ∧ fs.nodeAt (fs.loc d ++ [fs.fold (fs.loc d) n]) = none ∧
      fs' = (f fs (fs.loc d) n).2 := by
  rcases make_cases (.absolute names) f fs with ⟨e, he⟩ | ⟨d, n, hr, hnone, he⟩ <;> rw [hmake] at he
  · cases he
  · have hnames : names = d ++ [n] := by
      rcases h.resolve_names false (resolve_eq_ok hr).1 with ⟨hr', -⟩ | ⟨hr', -⟩ | ⟨hr', -⟩ <;>
        rw [hr] at hr' <;> cases hr'
      rfl
    have hd := resolve_dirPath (dirPath_nil fs) hr
    rw [List.dropLast_concat] at hd
    refine ⟨d, n, hnames, hd.node, ?_, (Prod.mk.inj he).2⟩
    rwa [← loc_concat]

/-- A new entry in a directory is in a directory. -/
theorem LinkFree.added (h : fs.LinkFree) (hk : fs.Keeps fs') (hd : fs.node d = some .dir)
    (hnode : fs'.nodeAt = Function.update fs.nodeAt (fs.loc d ++ [fs.fold (fs.loc d) n]) (some x)) :
    fs'.LinkFree where
  links l t hl := h.links l t ((hk.links l t).2 hl)
  parents l y hl := by
    refine hk.dirs _ ?_
    by_cases hplace : l = fs.loc d ++ [fs.fold (fs.loc d) n]
    · rw [hplace, List.dropLast_concat]
      exact hd
    · rw [hnode, Function.update_of_ne hplace] at hl
      exact h.parents l y hl

theorem LinkFree.mkdir (h : fs.LinkFree) (hd : fs.node d = some .dir)
    (hnone : fs.nodeAt (fs.loc d ++ [fs.fold (fs.loc d) n]) = none) : (fs.mkdir (fs.loc d) n).LinkFree :=
  h.added (mkdir_keeps hnone) hd mkdir_nodeAt

theorem LinkFree.create (h : fs.LinkFree) (hd : fs.node d = some .dir)
    (hnone : fs.nodeAt (fs.loc d ++ [fs.fold (fs.loc d) n]) = none) : (fs.create (fs.loc d) n).LinkFree :=
  h.added (create_keeps hnone) hd create_nodeAt

/-- A new directory, or the last of the names, is not in the way. -/
theorem Open.added (h : fs.Open names) (hk : fs.Keeps fs')
    (hnode : fs'.nodeAt = Function.update fs.nodeAt (fs.loc d ++ [fs.fold (fs.loc d) n]) (some x))
    (hx : x = .dir ∨ names = d ++ [n]) : fs'.Open names := by
  intro front hf hne y hy
  rw [Fs.node, hk.loc, hnode] at hy
  by_cases hplace : fs.loc front = fs.loc d ++ [fs.fold (fs.loc d) n]
  · rw [hplace, Function.update_self] at hy
    rcases hx with rfl | rfl
    · exact (Option.some.inj hy).symm
    · have hlength := congrArg List.length hplace
      rw [← loc_concat, length_loc, length_loc] at hlength
      exact absurd (hf.eq_of_length hlength) hne
  · rw [Function.update_of_ne hplace] at hy
    exact h front hf hne y hy

theorem Grown.keeps (h : fs.Grown names fs') (hfree : fs.LinkFree) (hopen : fs.Open names) :
    fs'.cwd = fs.cwd ∧ fs'.LinkFree ∧ fs'.Open names := by
  induction h with
  | refl => exact ⟨rfl, hfree, hopen⟩
  | dir _ hf hmake ih =>
    obtain ⟨hcwd, hfree, hopen⟩ := ih
    obtain ⟨d, n, rfl, hd, hnone, rfl⟩ := hfree.make_names hmake
    have hk := mkdir_keeps hnone
    exact ⟨hk.cwd.trans hcwd, hfree.mkdir hd hnone, hopen.added hk mkdir_nodeAt (.inl rfl)⟩
  | file _ hmake ih =>
    obtain ⟨hcwd, hfree, hopen⟩ := ih
    obtain ⟨d, n, hnames, hd, hnone, rfl⟩ := hfree.make_names hmake
    have hk := create_keeps hnone
    exact ⟨hk.cwd.trans hcwd, hfree.create hd hnone, hopen.added hk create_nodeAt (.inr hnames)⟩

/-- A path keeps its key while the directories on its way, or the file it
names, come into being. -/
theorem Grown.keyPath {p q : Path} (h : fs.Grown (fs.lexical p) fs') (hfree : fs.LinkFree)
    (hq : fs.keyPath p = .ok q) : fs'.keyPath p = .ok q := by
  have hp : p ≠ .empty := by
    rintro rfl
    cases hq
  obtain ⟨hnul, hopen, rfl⟩ := (hfree.keyPath_iff hp).1 hq
  obtain ⟨hcwd, hfree', hopen'⟩ := h.keeps hfree hopen
  have hlex : fs'.lexical p = fs.lexical p := by rw [lexical, lexical, Fs.start, Fs.start, hcwd]
  exact (hfree'.keyPath_iff hp).2 ⟨by rwa [hlex], by rwa [hlex], by rw [hlex]⟩

end

end Fs

theorem Fs.linkFree_blank (cwd : List Name) : (Fs.blank cwd).LinkFree := by
  constructor
  · intro l t h
    by_cases hl : l = [] <;> simp [Fs.nodeAt, Fs.blank, hl] at h
  · intro l x h
    by_cases hl : l = []
    · rw [hl]
      rfl
    · simp [Fs.nodeAt, Fs.blank, hl] at h

/-- Path keys are independent of spelling and of which directories exist. -/
theorem normalizedPathKey_stable (env : Env) :
    (∀ (w : World) (p q : Bytes), p ≠ [] → Relation.ReflTransGen (Respells w.fs.cwd) p q →
      (∃ key w', normalizedPathKey env (.parse p) w = (.ok key, w') ∧
        normalizedPathKey env (.parse q) w = (.ok key, w')) ∨
      ∃ e e' w', normalizedPathKey env (.parse p) w = (.error e, w') ∧
        normalizedPathKey env (.parse q) w = (.error e', w')) ∧
    (env.Quiet → env.Faultless → ∀ (w w' w₁ : World) (p : Path) (key : Bytes), w.fs.LinkFree →
      normalizedPathKey env p w = (.ok key, w') → w.fs.Grown (w.fs.lexical p) w₁.fs →
      ∃ w₁', normalizedPathKey env p w₁ = (.ok key, w₁')) := by
  constructor
  · intro w p q hne hspell
    have hplace : q ≠ [] ∧ w.fs.lexical (.parse q) = w.fs.lexical (.parse p) := by
      induction hspell with
      | refl => exact ⟨hne, rfl⟩
      | tail _ hstep ih => exact ⟨hstep.ne_nil, (hstep.lexical ih.1).trans ih.2⟩
    obtain ⟨hr, hs⟩ := normalizedPathKey_agree env (parse_ne_empty hne) (parse_ne_empty hplace.1)
      hplace.2
    rcases hp : normalizedPathKey env (.parse p) w with ⟨e | key, w'⟩ <;>
      rcases hq : normalizedPathKey env (.parse q) w with ⟨e' | key', w''⟩ <;>
      rw [hp, hq] at hr hs <;> cases hr <;> cases hs
    · exact .inr ⟨e, e', _, rfl, rfl⟩
    · exact .inl ⟨_, _, rfl, rfl⟩
  · intro hq hf w w' w₁ p key hfree hkey hgrown
    obtain ⟨place, hplace, rfl⟩ := normalizedPathKey_eq_ok hq hf.honest hkey
    have hpath : w₁.fs.pathKey env p = .ok (keyText env place) := by
      rw [Fs.pathKey, hgrown.keyPath hfree hplace]
      rfl
    obtain ⟨w₁', hrun, -⟩ := (normalizedPathKey_answers (k := w₁.draws) hq hf hpath).run (s := w₁) rfl
    exact ⟨w₁', hrun⟩

/-- `/a/b` has its key before `/a` and it are there, and has it still when they
are; `./c/../a` has the key of `a`. -/
theorem normalizedPathKey_stable_missing :
    let env := Env.calm .checksummed
    let w : World := ⟨Fs.blank [], 0, 0, []⟩
    let ab : List Name := [⟨[97], rfl⟩, ⟨[98], rfl⟩]
    ((∃ key w', normalizedPathKey env (.parse [97]) w = (.ok key, w') ∧
        normalizedPathKey env (.parse [46, 47, 99, 47, 46, 46, 47, 97]) w = (.ok key, w')) ∨
      ∃ e e' w', normalizedPathKey env (.parse [97]) w = (.error e, w') ∧
        normalizedPathKey env (.parse [46, 47, 99, 47, 46, 46, 47, 97]) w = (.error e', w')) ∧
    ∃ (key : Bytes) (w' w₁ w₁' : World), w.fs.node ab = none ∧
      normalizedPathKey env (.absolute ab) w = (.ok key, w') ∧ w₁.fs.node ab = some (.file 0) ∧
      normalizedPathKey env (.absolute ab) w₁ = (.ok key, w₁') := by
  intro env w ab
  constructor
  · refine (normalizedPathKey_stable env).1 w [97] _ (by simp) ?_
    have hback : Respells w.fs.cwd [97] [99, 47, 46, 46, 47, 97] :=
      .back ⟨[99], rfl⟩ [] [[97]] (by decide +kernel) (by decide +kernel) fun _ => by decide +kernel
    have hhere : Respells w.fs.cwd [99, 47, 46, 46, 47, 97] [46, 47, 99, 47, 46, 46, 47, 97] :=
      .here [] [[99], [46, 46], [97]] (by decide +kernel) (by decide +kernel) fun _ => by decide +kernel
    exact .tail (.single hback) hhere
  · have hfree : w.fs.LinkFree := Fs.linkFree_blank []
    have hkey : w.fs.pathKey env (.absolute ab) = .ok [47, 97, 47, 98] := by decide +kernel
    obtain ⟨w', hrun, -⟩ := (normalizedPathKey_answers (k := 0) (Env.calm_quiet _) (Env.calm_faultless _)
      hkey).run (s := w) rfl
    let fs₁ := (Fs.createDir (.absolute [⟨[97], rfl⟩]) w.fs).2
    let fs₂ := (Fs.createNew (.absolute ab) fs₁).2
    have ha : Fs.createDir (.absolute [⟨[97], rfl⟩]) w.fs = (.ok (), fs₁) :=
      Prod.ext (by decide +kernel) rfl
    have hb : Fs.createNew (.absolute ab) fs₁ = (.ok 0, fs₂) := Prod.ext (by decide +kernel) rfl
    have hgrown : w.fs.Grown (w.fs.lexical (.absolute ab)) fs₂ :=
      .file (.dir .refl (by decide +kernel) ha) hb
    obtain ⟨w₁', hrun'⟩ := (normalizedPathKey_stable env).2 (Env.calm_quiet _) (Env.calm_faultless _) w w'
      ⟨fs₂, 0, 0, []⟩ (.absolute ab) _ hfree hrun hgrown
    exact ⟨_, w', _, w₁', by decide +kernel, hrun, by decide +kernel, hrun'⟩

end Ironlock
