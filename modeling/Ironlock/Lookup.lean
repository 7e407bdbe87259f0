import Ironlock.SecureFs.Keys

/-! Keys against the way directories look names up: where names that are one entry have
one key, what is found to be different is different. -/

namespace Ironlock
open ByteOrder (Bytes)
open Effect
open Fs (Identity Metadata SysCall)

namespace Fs

/-! ## Walks from one place -/

/-- Two walks end at one place, or fail alike. -/
def EndAlike (fs : Fs) (r r' : Except ErrorKind (List Name)) : Prop :=
  (∃ a b, r = .ok a ∧ r' = .ok b ∧ fs.loc a = fs.loc b) ∨ ∃ e, r = .error e ∧ r' = .error e

section
variable {fs : Fs} {a b d d' names : List Name} {n m : Name} {hops : List Hop} {follow : Bool} {links k : Nat}

theorem loc_dropLast (fs : Fs) (names : List Name) : fs.loc names.dropLast = (fs.loc names).dropLast := by
  rcases names.eq_nil_or_concat with rfl | ⟨front, n, rfl⟩
  · rfl
  · rw [List.concat_eq_append, List.dropLast_concat, loc_concat, List.dropLast_concat]

theorem loc_push (h : fs.loc a = fs.loc b) (n : Name) : fs.loc (a ++ [n]) = fs.loc (b ++ [n]) := by
  rw [loc_concat, loc_concat, h]

theorem EndAlike.node {r r' : Except ErrorKind (List Name)} (h : fs.EndAlike r r') (ha : r = .ok a) :
    ∃ b, r' = .ok b ∧ fs.loc a = fs.loc b := by
  rcases h with ⟨a', b, ha', hb, heq⟩ | ⟨e, he, -⟩
  · rw [ha] at ha'
    cases ha'
    exact ⟨b, hb, heq⟩
  · rw [ha] at he
    cases he

theorem EndAlike.symm {r r' : Except ErrorKind (List Name)} (h : fs.EndAlike r r') : fs.EndAlike r' r := by
  rcases h with ⟨a, b, ha, hb, heq⟩ | ⟨e, he, he'⟩
  · exact .inl ⟨b, a, hb, ha, heq.symm⟩
  · exact .inr ⟨e, he', he⟩

theorem walkWith_alike {next next' : List Hop → List Name → Except ErrorKind (List Name)}
    (hnext : ∀ hops a b, fs.loc a = fs.loc b → fs.EndAlike (next hops a) (next' hops b)) (h : fs.loc a = fs.loc b) :
    fs.EndAlike (fs.walkWith follow next hops a) (fs.walkWith follow next' hops b) := by
  induction hops generalizing a b with
  | nil => exact .inl ⟨a, b, rfl, rfl, h⟩
  | cons hop rest ih =>
    match hop with
    | none => exact ih h
    | some .up => exact ih (by rw [loc_dropLast, loc_dropLast, h])
    | some (.name n) =>
      have hpush := loc_push h n
      have hnode : fs.node (a ++ [n]) = fs.node (b ++ [n]) := by rw [Fs.node, Fs.node, hpush]
      simp only [walkWith, hnode]
      split
      · split
        · exact .inl ⟨_, _, rfl, rfl, hpush⟩
        · exact .inr ⟨_, rfl, rfl⟩
      · exact ih hpush
      · split
        · exact .inl ⟨_, _, rfl, rfl, hpush⟩
        · refine hnext _ _ _ ?_
          split
          · rfl
          · exact h
      · split
        · exact .inl ⟨_, _, rfl, rfl, hpush⟩
        · exact .inr ⟨_, rfl, rfl⟩

/-- Where a walk leads depends on the place it starts at, not on how that is spelled. -/
theorem walk_alike (h : fs.loc a = fs.loc b) :
    fs.EndAlike (fs.walk follow links hops a) (fs.walk follow links hops b) := by
  induction links generalizing hops a b with
  | zero => exact walkWith_alike (fun _ _ _ _ => .inr ⟨_, rfl, rfl⟩) h
  | succ links ih => exact walkWith_alike (fun _ _ _ h => ih h) h

/-- And so does one more name, when it is one entry. -/
theorem walk_name_alike (hd : fs.loc d = fs.loc d') (h : fs.loc (d ++ [n]) = fs.loc (d' ++ [m])) :
    fs.EndAlike (fs.walk follow links [n.hop] d) (fs.walk follow links [m.hop] d') := by
  have hnode : fs.node (d ++ [n]) = fs.node (d' ++ [m]) := by rw [Fs.node, Fs.node, h]
  have hwith {next next' : List Hop → List Name → Except ErrorKind (List Name)}
      (hnext : ∀ hops a b, fs.loc a = fs.loc b → fs.EndAlike (next hops a) (next' hops b)) :
      fs.EndAlike (fs.walkWith follow next [n.hop] d) (fs.walkWith follow next' [m.hop] d') := by
    simp only [walkWith, hnode, if_true]
    split
    · exact .inl ⟨_, _, rfl, rfl, h⟩
    · exact .inl ⟨_, _, rfl, rfl, h⟩
    · split
      · exact .inl ⟨_, _, rfl, rfl, h⟩
      · refine hnext _ _ _ ?_
        split
        · rfl
        · exact hd
    · exact .inl ⟨_, _, rfl, rfl, h⟩
  cases links with
  | zero => exact hwith fun _ _ _ _ => .inr ⟨_, rfl, rfl⟩
  | succ links => exact hwith fun _ _ _ h => walk_alike h

theorem walkWith_more {next next' : List Hop → List Name → Except ErrorKind (List Name)}
    (hnext : ∀ hops a, next hops a ≠ .error .filesystemLoop → next' hops a = next hops a)
    (h : fs.walkWith follow next hops a ≠ .error .filesystemLoop) :
    fs.walkWith follow next' hops a = fs.walkWith follow next hops a := by
  induction hops generalizing a with
  | nil => rfl
  | cons hop rest ih =>
    match hop with
    | none => exact ih h
    | some .up => exact ih h
    | some (.name n) =>
      simp only [walkWith] at h ⊢
      split <;> rename_i hx <;> simp only [hx] at h
      · rfl
      · exact ih h
      · split
        · rfl
        · rename_i hlast
          rw [if_neg hlast] at h
          exact hnext _ _ h
      · rfl

/-- A walk that does not run out of links goes on the same when it may follow more. -/
theorem walk_more (h : fs.walk follow links hops a ≠ .error .filesystemLoop) :
    fs.walk follow (links + k) hops a = fs.walk follow links hops a := by
  induction links generalizing hops a with
  | zero =>
    cases k with
    | zero => rfl
    | succ k => exact walkWith_more (fun _ _ hne => absurd rfl hne) h
  | succ links ih =>
    rw [Nat.add_right_comm]
    exact walkWith_more (fun _ _ hne => ih hne) h

end

/-! ## Keys of places -/

/-- The path leads to the entry that it leads to when `..` is taken by name. -/
def ByName (fs : Fs) (p : Path) : Prop :=
  ∀ names, fs.resolve false p = .ok names →
    fs.resolve false (.absolute (lexicalFrom (fs.start p) p.parts)) = .ok names

/-- Names that are looked up as one entry have one key. -/
def KeysRefine (fs : Fs) (env : Env) : Prop :=
  ∀ a b, fs.loc a = fs.loc b → keyText env (.absolute a) = keyText env (.absolute b)

/-- The key of the name `n` in `d` is that of what a link there leads to, and its own
when that is not there. -/
inductive KeyFrom (fs : Fs) (links : Nat) (d : List Name) (n : Name) : Path → Prop
  | there {found : List Name} (h : fs.walk true links [n.hop] d = .ok found) (hx : fs.node found ≠ none) :
      KeyFrom fs links d n (.absolute found)
  | missing (h : fs.walk true links [n.hop] d = .error .notFound) : KeyFrom fs links d n (.absolute (d ++ [n]))
  | absent {found : List Name} (h : fs.walk true links [n.hop] d = .ok found) (hx : fs.node found = none) :
      KeyFrom fs links d n (.absolute (d ++ [n]))

section
variable {env : Env} {fs fs' : Fs} {p q a b : Path} {d d' ns names names' : List Name} {n m : Name} {links links' : Nat}
  {key key' : Bytes}

theorem KeyFrom.in_budget (h : fs.KeyFrom links d n a) : fs.walk true links [n.hop] d ≠ .error .filesystemLoop := by
  cases h with
  | there h _ | missing h | absent h _ =>
    rw [h]
    simp

/-- The closest place above the name that is there is its directory. -/
theorem closest_above (hlead : ∀ follow rest, follow = true ∨ rest ≠ [] →
      fs.walk follow maxLinks (ns.map (some ∘ Part.name) ++ rest) [] = fs.walk follow links rest d)
    (hnul : (Path.absolute ns).hasNul = false) (hd : fs.DirPath d) (h : fs.closest ns.reverse [n] = .ok a) :
    a = .absolute (d ++ [n]) := by
  have hend : fs.walk true maxLinks (ns.map (some ∘ Part.name)) [] = .ok d := by
    simpa using hlead true [] (.inl rfl)
  rcases ns.eq_nil_or_concat with rfl | ⟨front, k, rfl⟩
  · rw [List.map_nil, walk_nil] at hend
    cases hend
    cases h
    rfl
  · rw [List.concat_eq_append] at *
    have hresolve : fs.resolve true (.absolute (front ++ [k])) = .ok d := by
      have hhops : (Path.absolute (front ++ [k])).hops = (front ++ [k]).map (some ∘ Part.name) := by
        simp [Path.hops, Path.absolute]
      simp only [resolve, hnul, absolute_ne_empty, if_false, Bool.false_eq_true, hhops]
      rw [show fs.start (Path.absolute (front ++ [k])) = [] from rfl, hend]
    have hcanon : (fs.canonicalize (.absolute (front ++ [k]))).1 = .ok (.absolute d) := by
      simp only [canonicalize, look, hresolve, hd.node]
    rw [List.reverse_append, List.reverse_singleton, List.singleton_append, closest, List.reverse_cons,
      List.reverse_reverse, hcanon] at h
    simp only [foldl_push, Except.ok.injEq] at h
    exact h.symm

/-- The key of an entry is read off what its name leads to, in the directory that
the names before it lead to. -/
theorem closest_leads (hr : fs.resolve false (.absolute (ns ++ [n])) = .ok names)
    (ha : fs.closest (ns ++ [n]).reverse [] = .ok a) :
    ∃ links d, names = d ++ [n] ∧ fs.KeyFrom links d n a := by
  have hnul := closest_nul ha
  rw [absolute_concat] at hr
  obtain ⟨links, d, rfl, hlead, -⟩ := resolve_push hr
  have hlead' (follow : Bool) (rest : List Hop) (hrest : follow = true ∨ rest ≠ []) :
      fs.walk follow maxLinks (ns.map (some ∘ Part.name) ++ rest) [] = fs.walk follow links rest d := by
    rw [← hlead follow rest hrest]
    simp only [Path.absolute, List.map_map]
    rfl
  have hd : fs.DirPath d := walk_dirOnly (dirPath_nil fs) (by simp)
    ((hlead' false [none] (.inr (by simp))).trans walk_none)
  have hwalk : fs.walk true maxLinks (Path.absolute (ns ++ [n])).hops (fs.start (Path.absolute (ns ++ [n]))) =
      fs.walk true links [n.hop] d := by
    rw [← hlead' true [n.hop] (.inl rfl)]
    simp [Path.hops, Path.absolute, Fs.start, Path.isAbsolute]
  have hfront : (Path.absolute ns).hasNul = false := by
    rw [absolute_concat, Path.hasNul, Path.push_parts, List.any_append, Bool.or_eq_false_iff] at hnul
    exact hnul.1
  rw [List.reverse_append, List.reverse_singleton, List.singleton_append, closest, List.reverse_cons,
    List.reverse_reverse] at ha
  refine ⟨links, d, rfl, ?_⟩
  rcases hfound : fs.walk true links [n.hop] d with kind | found
  · have hcanon : (fs.canonicalize (.absolute (ns ++ [n]))).1 = .error (.os kind) := by
      simp only [canonicalize, look, resolve, hnul, absolute_ne_empty, if_false, Bool.false_eq_true, hwalk, hfound]
    rw [hcanon] at ha
    dsimp only at ha
    by_cases hkind : (IoError.os kind).kind = .notFound
    · rw [if_pos hkind] at ha
      rw [closest_above hlead' hfront hd ha]
      exact .missing (hfound.trans (congrArg Except.error hkind))
    · rw [if_neg hkind] at ha
      cases ha
  · have hresolve : fs.resolve true (.absolute (ns ++ [n])) = .ok found := by
      simp only [resolve, hnul, absolute_ne_empty, if_false, Bool.false_eq_true, hwalk, hfound]
    rcases hx : fs.node found with _ | x
    · have hcanon : (fs.canonicalize (.absolute (ns ++ [n]))).1 = .error (.os .notFound) := by
        simp only [canonicalize, look, hresolve, hx]
      rw [hcanon] at ha
      simp only [IoError.os, if_true] at ha
      rw [closest_above hlead' hfront hd ha]
      exact .absent hfound hx
    · have hcanon : (fs.canonicalize (.absolute (ns ++ [n]))).1 = .ok (.absolute found) := by
        simp only [canonicalize, look, hresolve, hx]
      rw [hcanon] at ha
      cases ha
      exact .there hfound (by rw [hx]; exact Option.some_ne_none x)

/-- Names of one entry have keys of one text: the two walks end at one place, or
fail alike. -/
theorem KeyFrom.refines (hrefine : fs.KeysRefine env) (h : fs.loc (d ++ [n]) = fs.loc (d' ++ [m]))
    (ha : fs.KeyFrom links d n a) (hb : fs.KeyFrom links' d' m b) : keyText env a = keyText env b := by
  have hd : fs.loc d = fs.loc d' := by
    have hfront := congrArg List.dropLast h
    rwa [← loc_dropLast, ← loc_dropLast, List.dropLast_concat, List.dropLast_concat] at hfront
  have halike : fs.EndAlike (fs.walk true (links + links') [n.hop] d) (fs.walk true (links + links') [m.hop] d') :=
    walk_name_alike hd h
  -- neither walk runs out of links, so both are what they are with as many as both have
  have hmore : fs.walk true (links + links') [n.hop] d = fs.walk true links [n.hop] d :=
    walk_more ha.in_budget
  have hmore' : fs.walk true (links + links') [m.hop] d' = fs.walk true links' [m.hop] d' := by
    rw [Nat.add_comm]
    exact walk_more hb.in_budget
  rw [hmore, hmore'] at halike
  cases ha with
  | there hwalk hx =>
    obtain ⟨found', hwalk', hsame⟩ := halike.node hwalk
    have hx' : fs.node found' ≠ none := by rwa [Fs.node, ← hsame]
    cases hb with
    | there hwalk'' _ =>
      rw [hwalk'] at hwalk''
      cases hwalk''
      exact hrefine _ _ hsame
    | missing hwalk'' =>
      rw [hwalk'] at hwalk''
      cases hwalk''
    | absent hwalk'' hnone =>
      rw [hwalk'] at hwalk''
      cases hwalk''
      exact absurd hnone hx'
  | missing hwalk =>
    cases hb with
    | there hwalk'' _ =>
      obtain ⟨_, hwalk', -⟩ := halike.symm.node hwalk''
      rw [hwalk] at hwalk'
      cases hwalk'
    | missing _ => exact hrefine _ _ h
    | absent _ _ => exact hrefine _ _ h
  | absent hwalk hnone =>
    cases hb with
    | there hwalk'' hx' =>
      obtain ⟨found, hwalk', hsame⟩ := halike.symm.node hwalk''
      rw [hwalk] at hwalk'
      cases hwalk'
      exact absurd (show fs.node _ = none by rwa [Fs.node, hsame]) hx'
    | missing _ => exact hrefine _ _ h
    | absent _ _ => exact hrefine _ _ h

/-- The key of an entry that is no link is its own. -/
theorem KeyFrom.own (ha : fs.KeyFrom links d n a) (hl : ∀ t, fs.node (d ++ [n]) ≠ some (.symlink t)) :
    a = .absolute (d ++ [n]) := by
  have hwalk : fs.walk true links [n.hop] d = .ok (d ++ [n]) := walk_name (.inr hl)
  cases ha with
  | there h _ =>
    rw [hwalk] at h
    cases h
    rfl
  | missing _ => rfl
  | absent _ _ => rfl

theorem loc_eq_nil (h : fs.loc names = []) : names = [] := by
  rcases names.eq_nil_or_concat with rfl | ⟨front, n, rfl⟩
  · rfl
  · rw [List.concat_eq_append, loc_concat] at h
    simp at h

theorem closest_refines (hrefine : fs.KeysRefine env) {ns ns' : List Name}
    (hr : fs.resolve false (.absolute ns) = .ok names) (hr' : fs.resolve false (.absolute ns') = .ok names')
    (h : fs.loc names = fs.loc names') (ha : fs.closest ns.reverse [] = .ok a) (hb : fs.closest ns'.reverse [] = .ok b) :
    keyText env a = keyText env b := by
  have hroot : fs.resolve false (.absolute []) = .ok [] := by
    simp [resolve, Path.hasNul, Path.absolute, Path.empty, Path.hops, Fs.start, Path.isAbsolute]
  rcases ns.eq_nil_or_concat with rfl | ⟨front, n, rfl⟩
  · rw [hroot] at hr
    cases hr
    obtain rfl := loc_eq_nil h.symm
    rcases ns'.eq_nil_or_concat with rfl | ⟨front', m, rfl⟩
    · rw [ha] at hb
      cases hb
      rfl
    · rw [List.concat_eq_append] at hr' hb
      obtain ⟨_, _, hnames, -⟩ := closest_leads hr' hb
      simp at hnames
  · rw [List.concat_eq_append] at hr ha
    obtain ⟨links, d, rfl, hkey⟩ := closest_leads hr ha
    rcases ns'.eq_nil_or_concat with rfl | ⟨front', m, rfl⟩
    · rw [hroot] at hr'
      cases hr'
      have hnil := loc_eq_nil h
      simp at hnil
    · rw [List.concat_eq_append] at hr' hb
      obtain ⟨links', d', rfl, hkey'⟩ := closest_leads hr' hb
      exact hkey.refines hrefine h hkey'

/-! ## Keys of paths -/

theorem keyPath_lexical (hp : p ≠ .empty) :
    fs.keyPath p = fs.closest (lexicalFrom (fs.start p) p.parts).reverse [] := by
  obtain ⟨a, ha, hlex⟩ := absolute_lexical fs hp
  rw [keyPath, ha]
  simp only [hlex]

/-- Paths to one entry have one key. -/
theorem ByName.refines (hp : fs.ByName p) (hq : fs.ByName q) (hrefine : fs.KeysRefine env)
    (hr : fs.resolve false p = .ok names) (hr' : fs.resolve false q = .ok names') (h : fs.loc names = fs.loc names')
    (ha : fs.keyPath p = .ok a) (hb : fs.keyPath q = .ok b) : keyText env a = keyText env b := by
  rw [keyPath_lexical (resolve_eq_ok hr).2.1] at ha
  rw [keyPath_lexical (resolve_eq_ok hr').2.1] at hb
  exact closest_refines hrefine (hp names hr) (hq names' hr') h ha hb

/-- A path to an entry that is no link has the entry's key. -/
theorem ByName.own (hp : fs.ByName p) (hr : fs.resolve false p = .ok names)
    (hl : ∀ t, fs.node names ≠ some (.symlink t)) (ha : fs.keyPath p = .ok a) : a = .absolute names := by
  rw [keyPath_lexical (resolve_eq_ok hr).2.1] at ha
  have hlex := hp names hr
  generalize lexicalFrom (fs.start p) p.parts = ns at ha hlex
  rcases ns.eq_nil_or_concat with rfl | ⟨front, n, rfl⟩
  · simp [resolve, Path.hasNul, Path.absolute, Path.empty, Path.hops, Fs.start, Path.isAbsolute] at hlex
    rw [hlex]
    cases ha
    rfl
  · rw [List.concat_eq_append] at hlex ha
    obtain ⟨links, d, rfl, hkey⟩ := closest_leads hlex ha
    exact hkey.own hl

theorem KeysRefine.keep (h : fs.KeysRefine env) (hk : fs.Keeps fs') : fs'.KeysRefine env := by
  intro a b hab
  rw [hk.loc, hk.loc] at hab
  exact h a b hab

theorem At.keyPath_eq (h : fs.At p d n) : fs.keyPath p = fs.closest (d ++ [n]).reverse [] := by
  obtain ⟨q, -, rfl, hplain⟩ := h.parent
  exact hplain.keyPath_eq n

/-- With no link on the way `..` may be taken by name. -/
theorem At.byName (h : fs.At p d n) (ha : fs.keyPath p = .ok a) : fs.ByName p := by
  intro names hr
  rw [h.resolve (.inl rfl)] at hr
  cases hr
  rw [h.keyPath_eq] at ha
  have hnul := closest_nul ha
  rw [absolute_concat, Path.hasNul, Path.push_parts, List.any_append, Bool.or_eq_false_iff] at hnul
  obtain ⟨parts, hparts, -, hnames⟩ := h.parts
  rw [hparts, lexicalFrom_append, hnames, show lexicalFrom d [Part.name n] = d ++ [n] from rfl, absolute_concat]
  exact ((h.dirPath.plain hnul.1).at_push (by simpa using hnul.2)).resolve (.inl rfl)

end

end Fs

end Ironlock
