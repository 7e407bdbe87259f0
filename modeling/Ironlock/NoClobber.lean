import Ironlock.Quarantine
import Ironlock.Restoration

/-! Whoever else acts on its destination, an output that is written takes away
no link but its own temporary file's and that of the file whose replacement was
approved. -/

namespace Ironlock
open ByteOrder (Bytes)
open Effect
open Fs (Identity Metadata SysCall)

namespace Step

/-- The call takes a link of the file away. -/
def Unlinks (s : Step) (i : Nat) : Prop := s.after.links i < s.before.links i

/-- The call makes the file. -/
def Creates (s : Step) (i : Nat) : Prop :=
  ∃ p, s.call = .createNew p ∧ s.fault = none ∧ s.before.createNew p = (.ok i, s.after)

/-- The call puts the file to the path, with these bytes in it. -/
def Installs (s : Step) (p : Path) (i : Nat) (c : Bytes) : Prop :=
  ∃ src, s.call = .rename src p ∧ s.after.IsFile p i ∧ s.after.content i = c

end Step

namespace AtomicOutput

/-- One of the calls made the file. -/
def Made (steps : List Step) (i : Nat) : Prop := ∃ s ∈ steps, s.Creates i

/-- A file made by one of the calls was put to the destination, complete. -/
def Delivered (destination : Path) (c : Bytes) (steps : List Step) : Prop :=
  ∃ s ∈ steps, ∃ i, Made steps i ∧ s.Installs destination i c

/-- After the calls of `front`, a call takes away links only of files that the
program made or, once a complete file is in its place, of what may be replaced;
and what else was moved away stays linked. -/
structure Harmless (observed approved : Nat → Prop) (destination : Path) (c : Bytes)
    (front : List Step) (s : Step) : Prop where
  unlinks : ∀ i, s.Unlinks i → Made front i ∨ approved i ∧ Delivered destination c front
  takes : ∀ q i, s.Takes destination q i → s.after.IsFile q i
  keeps : ∀ t ∈ front, ∀ q i, t.Takes destination q i → ¬observed i →
    s.before.IsFile destination i ∨ s.before.IsFile q i →
    s.after.IsFile destination i ∨ s.after.IsFile q i

section
variable {destination : Path} {c : Bytes} {observed approved : Nat → Prop} {front : List Step}
  {s : Step} {fs : Fs} {i : Nat} {names d : List Name} {n : Name} {x : Node}

theorem Made.concat (h : Made front i) : Made (front ++ [s]) i := by
  obtain ⟨t, ht, hi⟩ := h
  exact ⟨t, List.mem_append_left _ ht, hi⟩

theorem Delivered.concat (h : Delivered destination c front) :
    Delivered destination c (front ++ [s]) := by
  obtain ⟨t, ht, i, hi, hinstalls⟩ := h
  exact ⟨t, List.mem_append_left _ ht, i, hi.concat, hinstalls⟩

/-- A call that does nothing is harmless. -/
theorem harmless_same (h : s.after = s.before) :
    Harmless observed approved destination c front s where
  unlinks i hi := by
    rw [Step.Unlinks, h] at hi
    exact absurd hi (lt_irrefl _)
  takes q i hi := by
    obtain ⟨-, hbefore, hafter⟩ := hi
    rw [h] at hafter
    exact absurd hbefore hafter
  keeps _ _ _ _ _ _ hi := by rwa [h]

/-- So is one that takes no file from where it was. -/
theorem harmless_growing (hcall : ∀ q, s.call ≠ .rename destination q)
    (hlinks : ∀ i, s.before.links i ≤ s.after.links i)
    (hfiles : ∀ p i, s.before.IsFile p i → s.after.IsFile p i) :
    Harmless observed approved destination c front s where
  unlinks i hi := absurd hi (hlinks i).not_gt
  takes q _ hi := absurd hi.1 (hcall q)
  keeps _ _ _ _ _ _ hi := hi.imp (hfiles _ _) (hfiles _ _)

/-- A rename takes no link away, and leads a file to its new path. -/
theorem harmless_rename {src dst : Path} {fault : Option IoError} (hsrc : fs.resolve false src = .ok names)
    (hx : fs.node names = some x) (hdir : x ≠ .dir) (hdst : fs.resolve false dst = .ok (d ++ [n]))
    (hnone : fs.nodeAt (fs.entryLoc d n) = none)
    (hkeeps : ∀ t ∈ front, ∀ q i, t.Takes destination q i → ¬observed i →
      fs.IsFile destination i ∨ fs.IsFile q i →
      (fs.move (fs.loc names) (fs.loc d) n).IsFile destination i ∨
        (fs.move (fs.loc names) (fs.loc d) n).IsFile q i) :
    Harmless observed approved destination c front
      ⟨.rename src dst, fault, fs, fs.move (fs.loc names) (fs.loc d) n⟩ where
  unlinks i hi := by
    rw [Fs.entryLoc_eq] at hnone
    exact absurd hi (Fs.move_links (Fs.loc_ne_nil hx hdir) hx hnone i).ge.not_gt
  takes q i hi := by
    obtain ⟨hcall, ⟨names', hr, hfile⟩, -⟩ := hi
    cases hcall
    rw [hsrc] at hr
    cases hr
    exact Fs.move_isFile hfile hdst hnone
  keeps := hkeeps

/-- A removal takes away the link of what it removes. -/
theorem harmless_erase {p : Path} {fault : Option IoError} (hx : fs.node names = some x)
    (hdir : x ≠ .dir)
    (hunlinks : ∀ i, x = .file i → Made front i ∨ approved i ∧ Delivered destination c front)
    (hkeeps : ∀ t ∈ front, ∀ q i, t.Takes destination q i → ¬observed i →
      fs.IsFile destination i ∨ fs.IsFile q i →
      (fs.erase (fs.loc names)).IsFile destination i ∨ (fs.erase (fs.loc names)).IsFile q i) :
    Harmless observed approved destination c front
      ⟨.removeFile p, fault, fs, fs.erase (fs.loc names)⟩ where
  unlinks i hi := by
    have hlinks := Fs.erase_links (Fs.loc_ne_nil hx hdir) hx i
    by_cases hxi : x = .file i
    · exact hunlinks i hxi
    · rw [if_neg hxi] at hlinks
      exact absurd hi hlinks.le.not_gt
  takes q _ hi := nomatch hi.1
  keeps := hkeeps

end

/-! ## Stages -/

/-- The output has been opened: nothing but its temporary file is known to stay
as it is, and the calls so far have been as `P` says. -/
structure Opened (P : List Step → Step → Prop) (base : Fs) (o : AtomicOutput) (d : List Name)
    (a b : UInt64) (c : Bytes) (t : Option Node) (steps : List Step) (fs : Fs) : Prop where
  keeps : base.Keeps fs
  each : Each P steps
  made : Made steps o.file
  tempPath : o.tempPath = o.destination.parentOrHere.push (.name (tempName a b))
  beside : ∀ a b, fs.Reaches (o.destination.parentOrHere.push (.name (tempName a b))) d (tempName a b)
  temp : fs.nodeAt (fs.entryLoc d (tempName a b)) = t
  content : t = some (.file o.file) → fs.content o.file = c

/-- Nothing has been moved away from the destination; if a file was seen there,
nothing but a file can be there. -/
structure Waiting (P : List Step → Step → Prop) (base : Fs) (o : AtomicOutput) (d : List Name)
    (a b : UInt64) (c : Bytes) (t : Option Node) (steps : List Step) (fs : Fs) : Prop
    extends Opened P base o d a b c t steps fs where
  untaken : ∀ s ∈ steps, ∀ q i, ¬s.Takes o.destination q i
  seen : o.observedDestination ≠ none → ∃ names, fs.resolve false o.destination = .ok names ∧
    fs.Ordinary (fs.loc names) ∧ fs.loc names ≠ fs.entryLoc d (tempName a b)

/-- The file `k` has been moved away from the destination. -/
structure Holding (P : List Step → Step → Prop) (base : Fs) (o : AtomicOutput) (d : List Name)
    (a b : UInt64) (c : Bytes) (e : List Name) (m : Name) (a' b' : UInt64) (k : Nat)
    (t h : Option Node) (steps : List Step) (fs : Fs) : Prop
    extends Opened P base o d a b c t steps fs,
      Away P base o.destination e m d a' b' k h steps fs where
  dest_temp : fs.entryLoc e m ≠ fs.entryLoc d (tempName a b)
  held_temp : fs.entryLoc d (tempName a' b') ≠ fs.entryLoc d (tempName a b)

section
variable {P : List Step → Step → Prop} {base fs fs' : Fs} {o : AtomicOutput} {d e : List Name}
  {m : Name} {a b a' b' : UInt64} {c c' : Bytes} {t t' h h' : Option Node} {k : Nat} {steps : List Step} {s : Step}

theorem Opened.step (ho : Opened P base o d a b c t steps fs) (hk : fs.Keeps fs') (hs : P steps s)
    (ht : fs'.nodeAt (fs.entryLoc d (tempName a b)) = t')
    (hc : t' = some (.file o.file) → fs'.content o.file = c') :
    Opened P base o d a b c' t' (steps ++ [s]) fs' where
  keeps := ho.keeps.trans hk
  each := each_concat.2 ⟨ho.each, hs⟩
  made := ho.made.concat
  tempPath := ho.tempPath
  beside a b := (ho.beside a b).keep hk
  temp := by rw [hk.entryLoc, ht]
  content := hc

theorem Opened.others (ho : Opened P base o d a b c t steps fs) (hm : fs.Meddled base.temporary fs') :
    Opened P base o d a b c t steps fs' where
  keeps := ho.keeps.trans hm.keeps
  each := ho.each
  made := ho.made
  tempPath := ho.tempPath
  beside a b := (ho.beside a b).keep hm.keeps
  temp := by rw [hm.keeps.entryLoc, hm.temporary (ho.keeps.temporary d a b), ho.temp]
  content ht := by
    rw [hm.content _ _ (ho.keeps.temporary d a b) (ho.temp.trans ht), ho.content ht]

theorem Waiting.others (hw : Waiting P base o d a b c t steps fs) (hm : fs.Meddled base.temporary fs') :
    Waiting P base o d a b c t steps fs' where
  toOpened := hw.toOpened.others hm
  untaken := hw.untaken
  seen ho := by
    obtain ⟨names, hr, hordinary, hne⟩ := hw.seen ho
    refine ⟨names, hm.keeps.resolve hr, ?_, ?_⟩ <;> rw [hm.keeps.loc]
    · exact hm.ordinary hordinary
    · rw [hm.keeps.entryLoc]
      exact hne

theorem Holding.others (hh : Holding P base o d a b c e m a' b' k t h steps fs)
    (hm : fs.Meddled base.temporary fs') : Holding P base o d a b c e m a' b' k t h steps fs' :=
  { hh.toOpened.others hm, hh.toAway.others hm with
    dest_temp := by rw [hm.keeps.entryLoc, hm.keeps.entryLoc]; exact hh.dest_temp
    held_temp := by rw [hm.keeps.entryLoc, hm.keeps.entryLoc]; exact hh.held_temp }

theorem Waiting.step (hw : Waiting P base o d a b c t steps fs) (hk : fs.Keeps fs') (hs : P steps s)
    (ht : fs'.nodeAt (fs.entryLoc d (tempName a b)) = t')
    (hc : t' = some (.file o.file) → fs'.content o.file = c')
    (htakes : ∀ q i, ¬s.Takes o.destination q i)
    (hordinary : o.observedDestination ≠ none → ∀ l, fs.Ordinary l → fs'.Ordinary l) :
    Waiting P base o d a b c' t' (steps ++ [s]) fs' where
  toOpened := hw.toOpened.step hk hs ht hc
  untaken u hu := by
    rcases List.mem_append.1 hu with hu | hu
    · exact hw.untaken u hu
    · rw [List.mem_singleton.1 hu]
      exact htakes
  seen ho := by
    obtain ⟨names, hr, hord, hne⟩ := hw.seen ho
    refine ⟨names, hk.resolve hr, ?_, ?_⟩ <;> rw [hk.loc]
    · exact hordinary ho _ hord
    · rw [hk.entryLoc]
      exact hne

theorem Holding.step (hh : Holding P base o d a b c e m a' b' k t h steps fs) (hk : fs.Keeps fs')
    (haway : Away P base o.destination e m d a' b' k h' (steps ++ [s]) fs')
    (ht : fs'.nodeAt (fs.entryLoc d (tempName a b)) = t')
    (hc : t' = some (.file o.file) → fs'.content o.file = c') :
    Holding P base o d a b c' e m a' b' k t' h' (steps ++ [s]) fs' :=
  { hh.toOpened.step hk (each_concat.1 haway.each).2 ht hc, haway with
    dest_temp := by rw [hk.entryLoc, hk.entryLoc]; exact hh.dest_temp
    held_temp := by rw [hk.entryLoc, hk.entryLoc]; exact hh.held_temp }

end

/-! ## Programs -/

/-- The calls have been as `P` says. -/
def Ended (P : List Step → Step → Prop) : Assertion := fun steps _ => Each P steps

section
variable {env : Env} {base : Fs} {o : AtomicOutput} {d e : List Name} {m : Name} {a b a' b' : UInt64}
  {c c' : Bytes} {t h : Option Node} {k : Nat} {observed approved : Nat → Prop}

theorem Waiting.inert :
    Inert (Waiting (Harmless observed approved o.destination c) base o d a b c' t) :=
  fun _ _ _ _ hw => hw.step (.refl _) (harmless_same rfl) hw.temp hw.content
    (fun _ _ => not_takes_same rfl) fun _ _ => id

theorem Holding.inert :
    Inert (Holding (Harmless observed approved o.destination c) base o d a b c' e m a' b' k t h) :=
  fun _ _ _ _ hh => hh.step (.refl _) (Away.inert (fun _ _ _ _ => harmless_same rfl) _ _ _ _ hh.toAway)
    hh.temp hh.content

theorem Waiting.stable {P : List Step → Step → Prop} (hm : env.Meddles base.temporary) :
    env.Stable (Waiting P base o d a b c' t) := fun n _ fs hw => hw.others (hm n fs)

theorem Holding.stable {P : List Step → Step → Prop} (hm : env.Meddles base.temporary) :
    env.Stable (Holding P base o d a b c' e m a' b' k t h) := fun n _ fs hh => hh.others (hm n fs)

theorem Waiting.append {steps : List Step} {fs : Fs}
    (hw : Waiting (Harmless observed approved o.destination c) base o d a b c'
      (some (.file o.file)) steps fs) (bytes : Bytes) :
    Waiting (Harmless observed approved o.destination c) base o d a b (c' ++ bytes)
      (some (.file o.file))
      (steps ++ [⟨.write (.file o.file), none, fs, fs.append o.file bytes⟩])
      (fs.append o.file bytes) := by
  refine hw.step (Fs.setContent_keeps _ _) ?_ hw.temp (fun _ => ?_) (fun _ _ => nofun) fun _ _ => id
  · refine harmless_growing (fun _ => nofun) (fun _ => le_refl _) fun p i hi => ?_
    exact hi.keep (Fs.setContent_keeps _ _) fun _ _ => rfl
  · rw [Fs.append, Fs.setContent, ← hw.content rfl]
    exact if_pos rfl

/-- Dropping an output takes its temporary file away, if it is still there. -/
theorem Waiting.drop_runs (hm : env.Meddles base.temporary)
    (ht : ∀ x, t = some x → x = .file o.file) :
    Runs (Waiting (Harmless observed approved o.destination c) base o d a b c' t) (o.drop env)
      (fun _ => Ended (Harmless observed approved o.destination c))
      fun _ => Ended (Harmless observed approved o.destination c) := by
  refine .bind (Ψ := fun _ => Ended (Harmless observed approved o.destination c))
    (removeFile_cases (Waiting.stable hm) (fun steps fs e fault hw => (Waiting.inert _ _ _ fault hw).each)
      fun steps fs names x hw hr hx hdir => ?_) fun _ => .pure fun _ _ => id
  have hplace := (hw.beside a b).resolve (.inl rfl)
  rw [← hw.tempPath, hr] at hplace
  cases hplace
  refine each_concat.2 ⟨hw.each, harmless_erase hx hdir (fun i hi => .inl ?_) ?_⟩
  · rw [Fs.node_concat, hw.temp] at hx
    have := ht x hx
    rw [hi] at this
    cases this
    exact hw.made
  · exact fun s hs q i hi => absurd hi (hw.untaken s hs q i)

theorem Holding.drop_runs (hm : env.Meddles base.temporary)
    (ht : ∀ x, t = some x → x = .file o.file) :
    Runs (Holding (Harmless observed approved o.destination c) base o d a b c' e m a' b' k t h)
      (o.drop env) (fun _ => Ended (Harmless observed approved o.destination c))
      fun _ => Ended (Harmless observed approved o.destination c) := by
  refine .bind (Ψ := fun _ => Ended (Harmless observed approved o.destination c))
    (removeFile_cases (Holding.stable hm) (fun steps fs e fault hh => (Holding.inert _ _ _ fault hh).each)
      fun steps fs names' x hh hr hx hdir => ?_) fun _ => .pure fun _ _ => id
  have hplace := (hh.beside a b).resolve (.inl rfl)
  rw [← hh.tempPath, hr] at hplace
  cases hplace
  have hfile : fs.nodeAt (fs.entryLoc d (tempName a b)) = some (.file o.file) := by
    rw [← Fs.node_concat, hx, ht x (hh.temp.symm.trans (by rw [← Fs.node_concat, hx]))]
  have hk := Fs.erase_keeps (Fs.entryLoc_ne_nil _ _ _) hfile
  refine each_concat.2 ⟨hh.each, harmless_erase hx hdir (fun i hi => .inl ?_) ?_⟩
  · rw [Fs.node_concat, hfile] at hx
    rw [hi] at hx
    cases hx
    exact hh.made
  · intro s hs q i hi _ hkept
    refine hh.kept hs hi hk (.inl ?_) ?_ hkept <;>
      rw [← Fs.entryLoc, Fs.erase_nodeAt (Fs.entryLoc_ne_nil _ _ _)]
    · exact Function.update_of_ne hh.dest_temp ..
    · exact Function.update_of_ne hh.held_temp ..

/-- Where nothing was seen, the temporary file is moved to the destination. -/
theorem Waiting.install_runs (hm : env.Meddles base.temporary) (hnone : o.observedDestination = none) :
    Runs (Waiting (Harmless observed approved o.destination c) base o d a b c (some (.file o.file)))
      (installTemp env o.tempPath o.destination)
      (fun _ => Waiting (Harmless observed approved o.destination c) base o d a b c none)
      fun _ => Waiting (Harmless observed approved o.destination c) base o d a b c
        (some (.file o.file)) := by
  refine installTemp_cases (Waiting.stable hm) (fun _ _ => id) (fun _ _ _ hw => Waiting.inert _ _ _ _ hw)
    fun steps fs s d' n x hw hsrc hx hdir hdst hfree => ?_
  have hplace := (hw.beside a b).resolve (.inl rfl)
  rw [← hw.tempPath, hsrc] at hplace
  cases hplace
  have hne := Fs.entryLoc_ne_nil fs d (tempName a b)
  have hkeeps : fs.Keeps (fs.move (fs.loc (d ++ [tempName a b])) (fs.loc d') n) :=
    Fs.move_keeps hne hw.temp (by rwa [← Fs.entryLoc_eq])
  refine hw.step hkeeps (harmless_rename hsrc hx hdir hdst hfree fun s hs q i hi => ?_) ?_ nofun
    (fun _ _ => not_takes_install hsrc hx hdst hfree) fun hsome => absurd hnone hsome
  · exact absurd hi (hw.untaken s hs q i)
  · rw [← Fs.entryLoc, Fs.move_nodeAt hne hw.temp, Function.update_self]

/-- What is at the destination goes to a temporary name. -/
theorem Waiting.take {steps : List Step} {fs : Fs} {names d' : List Name} {n : Name} {x : Node}
    (hw : Waiting (Harmless observed approved o.destination c) base o d a b c (some (.file o.file))
      steps fs) (hsome : o.observedDestination ≠ none)
    (hsrc : fs.resolve false o.destination = .ok names) (hx : fs.node names = some x) (hdir : x ≠ .dir)
    (hdst : fs.resolve false (o.quarantined a' b').quarantine = .ok (d' ++ [n]))
    (hfree : fs.nodeAt (fs.entryLoc d' n) = none) :
    ∃ e m k, Holding (Harmless observed approved o.destination c) base o d a b c e m a' b' k
      (some (.file o.file)) (some (.file k))
      (steps ++ [⟨.rename o.destination (o.quarantined a' b').quarantine, none, fs,
        fs.move (fs.loc names) (fs.loc d') n⟩]) (fs.move (fs.loc names) (fs.loc d') n) := by
  obtain ⟨names', hr, hordinary, hne_temp⟩ := hw.seen hsome
  rw [hsrc] at hr
  cases hr
  obtain ⟨e, m, k, rfl, rfl, rfl, haway⟩ := Away.start hw.keeps hw.each hw.untaken hsrc hordinary
    hx hdir hdst hfree fun _ _ => harmless_rename hsrc hx hdir hdst hfree fun s hs q i hi =>
      absurd hi (hw.untaken s hs q i)
  have hplace : fs.resolve false (o.quarantined a' b').quarantine = .ok (d ++ [tempName a' b']) :=
    (hw.beside a' b').resolve (.inl rfl)
  rw [hdst] at hplace
  obtain ⟨rfl, -⟩ := List.append_inj' (Except.ok.inj hplace).symm rfl
  have hne_temp : fs.entryLoc e m ≠ fs.entryLoc d (tempName a b) := hne_temp
  have htemp_held : fs.entryLoc d (tempName a' b') ≠ fs.entryLoc d (tempName a b) := by
    intro heq
    have := hw.temp
    rw [← heq, hfree] at this
    cases this
  have hne := Fs.loc_ne_nil hx hdir
  have hfree' := hfree
  rw [Fs.entryLoc_eq] at hfree'
  have hk : fs.Keeps (fs.move (fs.entryLoc e m) (fs.loc d) (tempName a' b')) :=
    Fs.move_keeps hne hx hfree'
  have hnodes : (fs.move (fs.entryLoc e m) (fs.loc d) (tempName a' b')).nodeAt = _ :=
    Fs.move_nodeAt hne hx
  rw [← Fs.entryLoc_eq] at hnodes
  have hopened : Opened (Harmless observed approved o.destination c) base o d a b c
      (some (.file o.file)) _ (fs.move (fs.entryLoc e m) (fs.loc d) (tempName a' b')) :=
    hw.toOpened.step hk (each_concat.1 haway.each).2 (by
      rw [hnodes, Function.update_of_ne hne_temp.symm, Function.update_of_ne htemp_held.symm, hw.temp])
      (by
        rw [Fs.move_content]
        exact hw.content)
  refine ⟨e, m, k, { hopened, haway with dest_temp := ?_, held_temp := ?_ }⟩
  · rw [← Fs.entryLoc, hk.entryLoc, hk.entryLoc]
    exact hne_temp
  · rw [← Fs.entryLoc, hk.entryLoc, hk.entryLoc]
    exact htemp_held

/-- Moving what is at the destination to a temporary name. -/
theorem Waiting.quarantine_runs (hm : env.Meddles base.temporary)
    (hsome : o.observedDestination ≠ none) :
    Runs (Waiting (Harmless observed approved o.destination c) base o d a b c (some (.file o.file)))
      (QuarantinedFile.new env o.destination)
      (fun quarantine steps fs => ∃ a' b' e m k, quarantine = o.quarantined a' b' ∧
        Holding (Harmless observed approved o.destination c) base o d a b c e m a' b' k
          (some (.file o.file)) (some (.file k)) steps fs)
      fun _ => Waiting (Harmless observed approved o.destination c) base o d a b c
        (some (.file o.file)) := by
  refine quarantine_cases (Waiting.stable hm) (fun _ _ _ _ hw => Waiting.inert _ _ _ _ hw)
    fun steps fs a' b' names d' n x hw hsrc hx hdir hdst hfree => ?_
  obtain ⟨e, m, k, hh⟩ := hw.take hsome hsrc hx hdir hdst hfree
  exact ⟨a', b', e, m, k, rfl, hh⟩

/-- Moving the temporary file to the destination while the file that was there
is held. -/
theorem Holding.install_runs (hm : env.Meddles base.temporary) :
    Runs (Holding (Harmless observed approved o.destination c) base o d a b c e m a' b' k
        (some (.file o.file)) (some (.file k))) (installTemp env o.tempPath o.destination)
      (fun _ steps fs => Delivered o.destination c steps ∧
        Holding (Harmless observed approved o.destination c) base o d a b c e m a' b' k
          none (some (.file k)) steps fs)
      fun _ => Holding (Harmless observed approved o.destination c) base o d a b c e m a' b' k
        (some (.file o.file)) (some (.file k)) := by
  refine installTemp_cases (Holding.stable hm) (fun _ _ => id) (fun _ _ _ hh => Holding.inert _ _ _ _ hh)
    fun steps fs s d' n x hh hsrc hx hdir hdst hfree => ?_
  have hplace := (hh.beside a b).resolve (.inl rfl)
  rw [← hh.tempPath, hsrc] at hplace
  cases hplace
  have hr := hh.source.resolve (.inl rfl)
  rw [hdst] at hr
  obtain ⟨rfl, hname⟩ := List.append_inj' (Except.ok.inj hr) rfl
  cases hname
  have hne := Fs.entryLoc_ne_nil fs d (tempName a b)
  have hfree' := hfree
  rw [Fs.entryLoc_eq] at hfree'
  have hkeeps : fs.Keeps (fs.move (fs.entryLoc d (tempName a b)) (fs.loc d') m) :=
    Fs.move_keeps hne hh.temp hfree'
  have hnodes : (fs.move (fs.entryLoc d (tempName a b)) (fs.loc d') m).nodeAt = _ :=
    Fs.move_nodeAt hne hh.temp
  rw [← Fs.entryLoc_eq] at hnodes
  have hheld : (fs.move (fs.entryLoc d (tempName a b)) (fs.loc d') m).nodeAt
      (fs.entryLoc d (tempName a' b')) = fs.nodeAt (fs.entryLoc d (tempName a' b')) := by
    rw [hnodes, Function.update_of_ne hh.held_temp, Function.update_of_ne hh.apart.symm]
  refine ⟨⟨_, List.mem_append_right _ (List.mem_singleton_self _), o.file, hh.made.concat, _, rfl,
    Fs.move_isFile hh.temp hdst hfree, ?_⟩, hh.step hkeeps (hh.toAway.step hkeeps ?_
      (fun _ _ => not_takes_install hsrc hx hdst hfree) (fun y hy => ⟨o.file, ?_⟩)
      (hheld.trans hh.held)) ?_ nofun⟩
  · rw [Fs.move_content]
    exact hh.content rfl
  · exact harmless_rename hsrc hx hdir hdst hfree fun s hs q i hi _ hfile =>
      hh.kept hs hi hkeeps (.inr hfree) hheld hfile
  · rw [← Fs.entryLoc, hnodes, Function.update_of_ne hh.dest_temp, Function.update_self] at hy
    exact (Option.some.inj hy).symm
  · rw [← Fs.entryLoc, hnodes, Function.update_self]

/-- What is held is moved back to the destination unless something is there. -/
theorem Holding.restore_runs (hm : env.Meddles base.temporary)
    (hheld : ∀ x, h = some x → x = .file k) :
    Runs (Holding (Harmless observed approved o.destination c) base o d a b c e m a' b' k t h)
      ((o.quarantined a' b').restore env)
      (fun _ steps fs => ∃ h, Holding (Harmless observed approved o.destination c) base o d a b c
        e m a' b' k t h steps fs)
      fun _ steps fs => ∃ h, Holding (Harmless observed approved o.destination c) base o d a b c
        e m a' b' k t h steps fs := by
  refine .bind (((exists_looks _).runs (Holding.stable hm) Holding.inert.idle).post
    (fun _ _ _ => id) fun _ steps fs hh => ⟨h, hh⟩) fun there =>
    .ite (fun _ => .pure fun _ _ hh => ⟨h, hh⟩) fun _ => .bind (.attempt ?_) fun _ => .pure fun _ _ => id
  refine installTemp_cases (Holding.stable hm) (fun _ _ hh => ⟨h, hh⟩)
    (fun _ _ _ hh => ⟨h, Holding.inert _ _ _ _ hh⟩)
    fun steps fs s d' n x hh hsrc hx hdir hdst hfree => ⟨none, ?_⟩
  have hplace : fs.resolve false (o.quarantined a' b').quarantine = .ok (d ++ [tempName a' b']) :=
    hh.quarantine.resolve (.inl rfl)
  rw [hsrc] at hplace
  cases hplace
  have hr : fs.resolve false o.destination = .ok (d' ++ [n]) := hdst
  rw [hh.source.resolve (.inl rfl)] at hr
  obtain ⟨rfl, hname⟩ := List.append_inj' (Except.ok.inj hr) rfl
  cases hname
  have hthere : h = some (.file k) := by
    rw [Fs.node_concat, hh.held] at hx
    rw [hx, hheld x hx]
  obtain ⟨hkeeps, hback, hnodes⟩ := hh.back hthere hfree
  refine hh.step hkeeps (hh.toAway.step hkeeps ?_ (fun _ _ => not_takes_install hsrc hx hdst hfree)
    (fun y hy => ⟨k, ?_⟩) ?_) ?_ ?_
  · refine harmless_rename hsrc hx hdir hdst hfree fun s hs q i hi _ _ => ?_
    obtain ⟨-, rfl⟩ := hh.taken s hs q i hi
    exact .inl hback
  · rw [← Fs.entryLoc, hnodes, Function.update_of_ne hh.apart, Function.update_self] at hy
    exact (Option.some.inj hy).symm
  · rw [← Fs.entryLoc, hnodes, Function.update_self]
  · rw [← Fs.entryLoc, hnodes, Function.update_of_ne hh.held_temp.symm,
      Function.update_of_ne hh.dest_temp.symm, hh.temp]
  · rw [Fs.move_content]
    exact hh.content

/-- The output is there to be dropped. -/
def Active (observed approved : Nat → Prop) (base : Fs) (o : AtomicOutput) (d : List Name)
    (a b : UInt64) (c : Bytes) : Assertion := fun steps fs =>
  ∃ t, (∀ x, t = some x → x = .file o.file) ∧
    (Waiting (Harmless observed approved o.destination c) base o d a b c t steps fs ∨
      ∃ e m a' b' k h, Holding (Harmless observed approved o.destination c) base o d a b c
        e m a' b' k t h steps fs)

theorem Active.drop_runs (hm : env.Meddles base.temporary) :
    Runs (Active observed approved base o d a b c) (o.drop env)
      (fun _ => Ended (Harmless observed approved o.destination c))
      fun _ => Ended (Harmless observed approved o.destination c) :=
  .exists_pre fun _ => .assuming fun ht => .or (Waiting.drop_runs hm ht) <|
    .exists_pre fun _ => .exists_pre fun _ => .exists_pre fun _ => .exists_pre fun _ =>
      .exists_pre fun _ => .exists_pre fun _ => Holding.drop_runs hm ht

/-- Opening what is held finds the file that was moved away. -/
theorem Holding.handle_runs (hm : env.Meddles base.temporary) :
    Runs (Holding (Harmless observed approved o.destination c) base o d a b c e m a' b' k t
        (some (.file k))) (Sys.handleFromPath env (o.quarantined a' b').quarantine)
      (fun handle steps fs => handle = .file k ∧
        Holding (Harmless observed approved o.destination c) base o d a b c e m a' b' k t
          (some (.file k)) steps fs)
      fun _ => Holding (Harmless observed approved o.destination c) base o d a b c e m a' b' k t
        (some (.file k)) := by
  refine .bind (Ψ := fun file steps fs => file = .file k ∧
    Holding (Harmless observed approved o.destination c) base o d a b c e m a' b' k t
      (some (.file k)) steps fs) (.run (Holding.stable hm) (fun _ _ _ hh _ => Holding.inert _ _ _ _ hh) ?_)
    fun file => .assuming fun hfile => ?_
  · intro steps fs hh
    have hopen : fs.openRead (o.quarantined a' b').quarantine = (.ok (.file k), fs) :=
      (hh.beside a' b').openRead hh.held
    rw [hopen]
    exact ⟨rfl, Holding.inert _ _ _ _ hh⟩
  · subst hfile
    exact ((handleFromFile_looks _).runs (Holding.stable hm) Holding.inert.idle).result
      fun w a w' _ h => handleFromFile_eq_ok h

/-- What replacing a file leaves: the complete output has been put in its place,
and the file, which is the one that was observed, is held. -/
theorem replace_runs (hm : env.Meddles base.temporary) {handle : Identity}
    (hsome : o.observedDestination = some handle)
    (hobserved : ∀ k, handle = .file k → observed k ∧ approved k) :
    Runs (Waiting (Harmless observed approved o.destination c) base o d a b c (some (.file o.file)))
      (o.replace env handle)
      (fun quarantine steps fs => ∃ a' b' e m k, quarantine = o.quarantined a' b' ∧
        (observed k ∧ approved k) ∧ Delivered o.destination c steps ∧
        Holding (Harmless observed approved o.destination c) base o d a b c e m a' b' k none
          (some (.file k)) steps fs)
      fun _ => Active observed approved base o d a b c := by
  have htemp (x : Node) (hx : some (.file o.file) = some x) : x = .file o.file :=
    (Option.some.inj hx).symm
  refine .bind ((Waiting.quarantine_runs hm (by simp [hsome])).post (fun _ _ _ => id)
    fun _ _ _ hw => ⟨_, htemp, .inl hw⟩) fun quarantine => .exists_pre fun a' => .exists_pre fun b' =>
    .exists_pre fun e => .exists_pre fun m => .exists_pre fun k => .assuming fun hquarantine => ?_
  subst hquarantine
  have hheld (t : Option Node) (ht : ∀ x, t = some x → x = .file o.file) :
      Runs (Holding (Harmless observed approved o.destination c) base o d a b c e m a' b' k t
          (some (.file k))) ((o.quarantined a' b').restore env)
        (fun _ => Active observed approved base o d a b c)
        fun _ => Active observed approved base o d a b c :=
    (Holding.restore_runs hm fun x hx => (Option.some.inj hx).symm).post
      (fun _ _ _ ⟨h, hh⟩ => ⟨t, ht, .inr ⟨e, m, a', b', k, h, hh⟩⟩)
      fun _ _ _ ⟨h, hh⟩ => ⟨t, ht, .inr ⟨e, m, a', b', k, h, hh⟩⟩
  -- the temporary file is at its name until it is installed
  let Θ : Assertion := fun steps fs =>
    Holding (Harmless observed approved o.destination c) base o d a b c e m a' b' k
      (some (.file o.file)) (some (.file k)) steps fs ∨
    Holding (Harmless observed approved o.destination c) base o d a b c e m a' b' k none
      (some (.file k)) steps fs
  refine .bind (Ψ := fun _ steps fs => (observed k ∧ approved k) ∧ Delivered o.destination c steps ∧
    Holding (Harmless observed approved o.destination c) base o d a b c e m a' b' k none
      (some (.file k)) steps fs) (.onError (Θ := fun _ => Θ) ?_ fun _ => ?_) fun _ => ?_
  · refine .bind ((Holding.handle_runs hm).post (fun _ _ _ => id) fun _ _ _ => .inl) fun moved =>
      .assuming fun hmoved => .ite (fun _ => .fail fun _ _ => .inl) fun hsame => ?_
    have hk := hobserved k ((not_not.1 hsame).symm.trans hmoved)
    refine .bind ((Holding.install_runs hm).post (fun _ _ _ => id) fun _ _ _ => .inl) fun _ => ?_
    refine ((syncParent_looks _).runs (Φ := fun steps fs => Delivered o.destination c steps ∧
      Holding (Harmless observed approved o.destination c) base o d a b c e m a' b' k none
        (some (.file k)) steps fs) ?_ ?_).post (fun _ _ _ hh => ⟨hk, hh⟩) fun _ _ _ hh => .inr hh.2
    · exact fun n steps fs hh => ⟨hh.1, Holding.stable hm n steps fs hh.2⟩
    · exact fun steps fs call fault hcall hh => ⟨hh.1.concat, Holding.inert.idle _ _ _ _ hcall hh.2⟩
  · exact .or (hheld _ htemp) (hheld _ nofun)
  · exact .pure fun _ _ hh => ⟨a', b', e, m, k, rfl, hh⟩

theorem install_runs (hm : env.Meddles base.temporary) (hnone : o.observedDestination = none) :
    Runs (Waiting (Harmless observed approved o.destination c) base o d a b c (some (.file o.file)))
      (o.install env)
      (fun _ => Waiting (Harmless observed approved o.destination c) base o d a b c none)
      fun _ => Active observed approved base o d a b c := by
  have hactive (steps : List Step) (fs : Fs) (hw : Waiting (Harmless observed approved o.destination c)
      base o d a b c (some (.file o.file)) steps fs) : Active observed approved base o d a b c steps fs :=
    ⟨_, fun x hx => (Option.some.inj hx).symm, .inl hw⟩
  have hrest : Runs (Waiting (Harmless observed approved o.destination c) base o d a b c
      (some (.file o.file))) (do
        installTemp env o.tempPath o.destination
        syncParent env o.destination.parentOrHere)
      (fun _ => Waiting (Harmless observed approved o.destination c) base o d a b c none)
      fun _ => Active observed approved base o d a b c := by
    refine .bind ((Waiting.install_runs hm hnone).post (fun _ _ _ => id) fun _ => hactive) fun _ => ?_
    exact ((syncParent_looks _).runs (Waiting.stable hm) Waiting.inert.idle).post (fun _ _ _ => id)
      fun _ _ _ hw => ⟨none, nofun, .inl hw⟩
  refine .bind (((symlinkMetadata_looks _).runs (Waiting.stable hm) Waiting.inert.idle).post
    (fun _ _ _ => id) fun _ => hactive) fun r => ?_
  cases r with
  | ok m =>
    refine .bind (((rejectLink_looks _ _).runs (Waiting.stable hm) Waiting.inert.idle).post
      (fun _ _ _ => id) fun _ => hactive) fun _ => ?_
    exact .bind (Ψ := fun _ => Waiting (Harmless observed approved o.destination c) base o d a b c
      (some (.file o.file))) (.fail hactive) fun _ => hrest
  | error e =>
    refine .ite (fun _ => hrest) fun _ => ?_
    exact .bind (Ψ := fun _ => Waiting (Harmless observed approved o.destination c) base o d a b c
      (some (.file o.file))) (.fail hactive) fun _ => hrest

/-- Once the complete output is in its place, the file it replaces may go. -/
theorem Holding.remove_runs (hm : env.Meddles base.temporary) (hk : observed k ∧ approved k) :
    Runs (fun steps fs => Delivered o.destination c steps ∧
        Holding (Harmless observed approved o.destination c) base o d a b c e m a' b' k none
          (some (.file k)) steps fs) ((o.quarantined a' b').remove env)
      (fun _ => Ended (Harmless observed approved o.destination c))
      fun _ => Ended (Harmless observed approved o.destination c) := by
  let Θ : Assertion := fun steps fs => ∃ h, (∀ x, h = some x → x = .file k) ∧
    Holding (Harmless observed approved o.destination c) base o d a b c e m a' b' k none h steps fs
  have hheld (x : Node) (hx : some (.file k) = some x) : x = .file k := (Option.some.inj hx).symm
  refine .onError (Θ := fun _ => Θ) (.bind (Ψ := fun _ =>
    Holding (Harmless observed approved o.destination c) base o d a b c e m a' b' k none none)
      (.bind (removeFile_cases (Ψ := Assertion.either (fun _ =>
        Holding (Harmless observed approved o.destination c) base o d a b c e m a' b' k none none) fun _ => Θ)
        ?_ ?_ ?_) fun r => ?_) fun _ => ?_) fun _ => ?_
  · exact fun n steps fs hh => ⟨hh.1, Holding.stable hm n steps fs hh.2⟩
  · exact fun steps fs e fault hh => ⟨_, hheld, Holding.inert _ _ _ _ hh.2⟩
  · rintro steps fs names' x ⟨hdelivered, hh⟩ hr hx hdir
    have hplace : fs.resolve false (o.quarantined a' b').quarantine = .ok (d ++ [tempName a' b']) :=
      (hh.beside a' b').resolve (.inl rfl)
    rw [hr] at hplace
    cases hplace
    have hnodes := @Fs.erase_nodeAt fs _ (Fs.entryLoc_ne_nil fs d (tempName a' b'))
    have hkeeps := Fs.erase_keeps (Fs.entryLoc_ne_nil fs d (tempName a' b')) hh.held
    refine hh.step hkeeps (hh.toAway.step hkeeps (harmless_erase hx hdir
      (fun i hi => .inr ⟨?_, hdelivered⟩) ?_) (fun _ _ ht => by cases ht.1) (fun y hy => ?_) ?_) ?_ (by simp)
    · rw [Fs.node_concat, hh.held, hi] at hx
      cases hx
      exact hk.2
    · intro s hs q i hi hno
      obtain ⟨-, rfl⟩ := hh.taken s hs q i hi
      exact absurd hk.1 hno
    · rw [← Fs.entryLoc, hnodes, Function.update_of_ne hh.apart] at hy
      exact hh.ordinary y hy
    · rw [← Fs.entryLoc, hnodes, Function.update_self]
    · rw [← Fs.entryLoc, hnodes, Function.update_of_ne hh.held_temp.symm, hh.temp]
  · cases r with
    | ok _ => exact .pure fun _ _ => id
    | error e => exact .fail fun _ _ => id
  · exact ((syncParent_looks _).runs (Holding.stable hm) Holding.inert.idle).post
      (fun _ _ _ hh => hh.each) fun _ _ _ hh => ⟨none, by simp, hh⟩
  · refine .exists_pre fun h => .assuming fun hh => ?_
    exact (Holding.restore_runs hm hh).post (fun _ _ _ hh => hh.elim fun _ hh => hh.each)
      fun _ _ _ hh => hh.elim fun _ hh => hh.each

theorem commit_harmless (hm : env.Meddles base.temporary)
    (hobserved : ∀ k, o.observedDestination = some (.file k) → observed k ∧ approved k) :
    Runs (Waiting (Harmless observed approved o.destination c) base o d a b c (some (.file o.file)))
      (o.commit env) (fun _ => Ended (Harmless observed approved o.destination c))
      fun _ => Ended (Harmless observed approved o.destination c) := by
  have hactive (steps : List Step) (fs : Fs) (hw : Waiting (Harmless observed approved o.destination c)
      base o d a b c (some (.file o.file)) steps fs) : Active observed approved base o d a b c steps fs :=
    ⟨_, fun x hx => (Option.some.inj hx).symm, .inl hw⟩
  let Ω : Option QuarantinedFile → Assertion := fun q steps fs => match q with
    | none => Ended (Harmless observed approved o.destination c) steps fs
    | some quarantine => ∃ a' b' e m k, quarantine = o.quarantined a' b' ∧
        (observed k ∧ approved k) ∧ Delivered o.destination c steps ∧
        Holding (Harmless observed approved o.destination c) base o d a b c e m a' b' k none
          (some (.file k)) steps fs
  have hpublish : Runs (Waiting (Harmless observed approved o.destination c) base o d a b c
      (some (.file o.file))) (o.publish env) Ω fun _ => Active observed approved base o d a b c := by
    refine .bind (((flush_looks _).runs (Waiting.stable hm) Waiting.inert.idle).post
      (fun _ _ _ => id) fun _ => hactive) fun _ =>
      .bind (((syncAll_looks _).runs (Waiting.stable hm) Waiting.inert.idle).post
        (fun _ _ _ => id) fun _ => hactive) fun _ => ?_
    rcases hobs : o.observedDestination with _ | handle
    · exact .bind (install_runs hm hobs) fun _ => .pure fun _ _ hw => hw.each
    · refine .bind (replace_runs hm hobs fun k hk => hobserved k (by rw [hobs, hk])) fun q => ?_
      exact .pure fun _ _ => id
  refine .bind (.onError hpublish fun _ => Active.drop_runs hm) fun q => ?_
  cases q with
  | none => exact .pure fun _ _ => id
  | some quarantine =>
    refine .exists_pre fun a' => .exists_pre fun b' => .exists_pre fun e => .exists_pre fun m => .exists_pre fun k =>
      .assuming fun hquarantine => .assuming fun hk => ?_
    subst hquarantine
    exact .bind (Holding.remove_runs hm hk) fun _ => .pure fun _ _ => id

end

/-! ## Opening -/

section
variable {env : Env} {base : Fs} {destination : Path} {c : Bytes} {observed approved : Nat → Prop}

theorem Harmless.allowsIdle : AllowsIdle (Harmless observed approved destination c) :=
  fun _ _ _ _ => harmless_same rfl

/-- Making sure of the parent directory. -/
theorem Started.directory_runs (hm : env.Meddles base.temporary) (p : Path) :
    Runs (Started (Harmless observed approved destination c) base destination False)
      (ensureSafeDirectory env p)
      (fun _ => Started (Harmless observed approved destination c) base destination False)
      fun _ => Started (Harmless observed approved destination c) base destination False := by
  refine ensureSafeDirectory_keeps (Started.stable hm) (Started.inert Harmless.allowsIdle) (fun steps fs q d n h hnone => ?_) p
  rw [Fs.entryLoc_eq] at hnone
  have hk := Fs.mkdir_keeps hnone
  have hnodes (l : Loc) (x : Node) (hx : fs.nodeAt l = some x) :
      (fs.mkdir (fs.loc d) n).nodeAt l = some x := by
    rw [Fs.mkdir_nodeAt, Function.update_of_ne, hx]
    rintro rfl
    rw [hnone] at hx
    cases hx
  refine h.step hk (harmless_growing (fun _ => nofun) (fun i => (Fs.mkdir_links hnone i).ge)
    fun p i hi => ?_) (fun _ _ => nofun) hnodes nofun
  obtain ⟨names, hr, hx⟩ := hi
  refine ⟨names, hk.resolve hr, ?_⟩
  rw [Fs.node, hk.loc]
  exact hnodes _ _ hx

theorem Started.observe_runs (hm : env.Meddles base.temporary) :
    Runs (Started (Harmless observed approved destination c) base destination False)
      (observe env destination)
      (fun o => Started (Harmless observed approved destination c) base destination (o ≠ none))
      fun _ => Ended (Harmless observed approved destination c) := by
  have hend {seen : Prop} (steps : List Step) (fs : Fs) (h : Started
      (Harmless observed approved destination c) base destination seen steps fs) :
      Ended (Harmless observed approved destination c) steps fs := h.each
  refine .bind (Started.look_runs hm Harmless.allowsIdle) fun r => ?_
  cases r with
  | error e =>
    refine .ite (fun _ => .pure fun _ _ h => ?_) fun _ => .fail hend
    exact ⟨h.keeps, h.each, h.untaken, fun hne => absurd rfl hne⟩
  | ok m =>
    refine .bind (((rejectLink_looks _ _).runs (Started.stable hm) (Started.inert Harmless.allowsIdle).idle).post
      (fun _ _ _ => id) fun _ => hend) fun _ => .ite (fun _ => .fail hend) fun hfile => ?_
    refine .bind (((handleFromPath_looks _).runs (Started.stable hm) (Started.inert Harmless.allowsIdle).idle).post
      (fun _ _ _ => id) fun _ => hend) fun handle => .pure fun _ _ h => ?_
    exact ⟨h.keeps, h.each, h.untaken, fun _ => h.seen (Bool.eq_true_of_not_eq_false hfile)⟩

theorem Started.temp_runs (hm : env.Meddles base.temporary) (o : Option Identity) :
    Runs (Started (Harmless observed approved destination c) base destination (o ≠ none))
      (createPrivateTemp env destination.parentOrHere)
      (fun temp steps fs => ∃ d a b, Waiting (Harmless observed approved destination c) base
        ⟨destination, temp.1, temp.2, o⟩ d a b [] (some (.file temp.2)) steps fs)
      fun _ => Ended (Harmless observed approved destination c) := by
  refine (createPrivateTempIn_cases (Started.stable hm) (fun _ _ _ _ h => (Started.inert Harmless.allowsIdle) _ _ _ _ h)
    (fun steps fs a b d n h hr hfree => ?_) 128).post (fun _ _ _ => id) fun _ _ _ h => h.each
  obtain ⟨-, d', hplace, -, hbeside⟩ := Fs.resolve_push hr
  obtain ⟨rfl, hname⟩ := List.append_inj' hplace rfl
  cases hname
  have hreaches := hbeside _ (tempName_nul a b)
  have hmade : fs.createNew (destination.parentOrHere.push (.name (tempName a b))) =
      (.ok fs.nextInode, fs.create (fs.loc d) (tempName a b)) := hreaches.make hfree
  have hfree' := hfree
  rw [Fs.entryLoc_eq] at hfree'
  have hk := Fs.create_keeps hfree'
  have hnodes := @Fs.create_nodeAt fs (fs.loc d) (tempName a b)
  rw [← Fs.entryLoc_eq] at hnodes
  have hstays (l : Loc) (x : Node) (hx : fs.nodeAt l = some x) :
      (fs.create (fs.loc d) (tempName a b)).nodeAt l = some x := by
    rw [hnodes, Function.update_of_ne, hx]
    rintro rfl
    rw [hfree] at hx
    cases hx
  have hordinary (l : Loc) (hl : fs.Ordinary l) :
      (fs.create (fs.loc d) (tempName a b)).Ordinary l := by
    intro x hx
    rw [hnodes] at hx
    by_cases heq : l = fs.entryLoc d (tempName a b)
    · rw [heq, Function.update_self] at hx
      exact ⟨_, (Option.some.inj hx).symm⟩
    · rw [Function.update_of_ne heq] at hx
      exact hl x hx
  have hstep := h.step (s := ⟨.createNew (destination.parentOrHere.push (.name (tempName a b))), none,
    fs, fs.create (fs.loc d) (tempName a b)⟩) hk (harmless_growing (fun _ => by simp)
      (fun i => Fs.create_links hfree' i) fun p i hi => ?_) (fun q i hi => by cases hi.1) hstays
      fun _ => hordinary
  · refine ⟨d, a, b, ⟨hstep.keeps, hstep.each, ?_, rfl, fun a b => ?_, ?_, fun _ => ?_⟩,
      hstep.untaken, fun ho => ?_⟩
    · exact ⟨_, List.mem_append_right _ (List.mem_singleton_self _), _, rfl, rfl, hmade⟩
    · exact (hbeside _ (tempName_nul a b)).keep hk
    · rw [hk.entryLoc, hnodes, Function.update_self]
    · simp [Fs.create, Fs.allocateInode]
    · obtain ⟨names, hr, hord, hthere⟩ := h.seen ho
      refine ⟨names, hk.resolve hr, ?_, ?_⟩ <;> rw [hk.loc]
      · exact hordinary _ hord
      · rw [hk.entryLoc]
        intro heq
        rw [heq] at hthere
        exact hthere (h.keeps.temporary d a b) hfree
  · obtain ⟨names, hr, hx⟩ := hi
    refine ⟨names, hk.resolve hr, ?_⟩
    rw [Fs.node, hk.loc]
    exact hstays _ _ hx

theorem new_harmless (hm : env.Meddles base.temporary) (force : Bool) :
    Runs (Started (Harmless observed approved destination c) base destination False)
      (AtomicOutput.new env destination force)
      (fun o steps fs => o.destination = destination ∧ ∃ d a b,
        Waiting (Harmless observed approved destination c) base o d a b [] (some (.file o.file)) steps fs)
      fun _ => Ended (Harmless observed approved destination c) := by
  refine .bind ((Started.directory_runs hm _).post (fun _ _ _ => id) fun _ _ _ h => h.each) fun _ =>
    .bind (Started.observe_runs hm) fun o => ?_
  refine .bind (((approve_looks _ _ _).runs (Started.stable hm) (Started.inert Harmless.allowsIdle).idle).post
    (fun _ _ _ => id) fun _ _ _ h => h.each) fun _ => .bind (Started.temp_runs hm o) fun temp => ?_
  exact .pure fun _ _ h => ⟨rfl, h⟩

end

/-! ## Whole runs -/

/-- A file written as the program writes all of its outputs: what fills it may
fail, and the output is dropped then. -/
def produce (env : Env) (destination : Path) (force : Bool) (portions : List Bytes)
    (filled : Except IronlockError Unit) : FsM Path := do
  let o ← AtomicOutput.new env destination force
  Eff.onError (do
    Sys.appendAll env o.file portions
    Eff.ofExcept filled) (o.drop env)
  o.commit env

/-- The file that `new` observes at the destination. -/
def Observed (env : Env) (destination : Path) (w : World) (i : Nat) : Prop :=
  ∃ w₁ w₂, ensureSafeDirectory env destination.parentOrHere w = (.ok (), w₁) ∧
    observe env destination w₁ = (.ok (some (.file i)), w₂)

/-- It may be replaced: because of `force`, or because the prompt that
`check_overwrite` shows on finding a file was answered with yes. -/
def Approved (env : Env) (destination : Path) (force : Bool) (w : World) (i : Nat) : Prop :=
  ∃ w₁ w₂, ensureSafeDirectory env destination.parentOrHere w = (.ok (), w₁) ∧
    observe env destination w₁ = (.ok (some (.file i)), w₂) ∧
    (force = true ∨ ∃ m w₃, Sys.symlinkMetadata env destination w₂ = (.ok (.ok m), w₃) ∧
      promptConfirmation env w₃ = (.ok true, w₃))

/-- Something is observed at the destination, and nothing is there when
`check_overwrite` looks. -/
def Vanishes (env : Env) (destination : Path) (w : World) : Prop :=
  ∃ w₁ w₂ w₃ handle e, ensureSafeDirectory env destination.parentOrHere w = (.ok (), w₁) ∧
    observe env destination w₁ = (.ok (some handle), w₂) ∧
    Sys.symlinkMetadata env destination w₂ = (.ok (.error e), w₃) ∧ e.kind = .notFound

section
variable {env : Env} {destination : Path} {force : Bool} {o : AtomicOutput} {w w' : World} {i : Nat}

theorem checkOverwrite_eq_ok (h : checkOverwrite env destination force w = (.ok (), w')) :
    force = true ∨
      (∃ e w₁, Sys.symlinkMetadata env destination w = (.ok (.error e), w₁) ∧ e.kind = .notFound) ∨
      ∃ m w₁, Sys.symlinkMetadata env destination w = (.ok (.ok m), w₁) ∧
        promptConfirmation env w₁ = (.ok true, w₁) := by
  by_cases hforce : force = true
  · exact .inl hforce
  refine .inr ?_
  obtain ⟨r, w₁, hlook, h⟩ := Eff.bind_eq_ok.1 h
  cases r with
  | error e =>
    by_cases hkind : e.kind = .notFound
    · exact .inl ⟨e, w₁, hlook, hkind⟩
    · simp only [if_neg hkind] at h
      cases h
  | ok m =>
    obtain ⟨_, w₂, hreject, hrest⟩ := Eff.bind_eq_ok.1 h
    obtain rfl : w₂ = w₁ := by
      unfold rejectLinkOrReparse at hreject
      split at hreject <;> cases hreject
      rfl
    by_cases hfile : m.isFile = false
    · rw [if_pos hfile] at hrest
      cases hrest
    rw [if_neg hfile, if_neg hforce] at hrest
    obtain ⟨answer, w₃, hprompt, hanswer⟩ := Eff.bind_eq_ok.1 hrest
    cases answer with
    | false => cases hanswer
    | true =>
      refine .inr ⟨m, w₂, hlook, ?_⟩
      obtain rfl : w₂ = w₃ := congrArg Prod.snd hprompt
      exact hprompt

theorem new_approved (hnew : AtomicOutput.new env destination force w = (.ok o, w'))
    (hsees : force = true ∨ ¬Vanishes env destination w)
    (ho : o.observedDestination = some (.file i)) :
    Observed env destination w i ∧ Approved env destination force w i := by
  obtain ⟨_, w₁, hdirectory, hnew⟩ := Eff.bind_eq_ok.1 hnew
  obtain ⟨observed, w₂, hobserve, hnew⟩ := Eff.bind_eq_ok.1 hnew
  obtain ⟨_, w₃, happrove, hnew⟩ := Eff.bind_eq_ok.1 hnew
  obtain ⟨temp, w₄, -, hnew⟩ := Eff.bind_eq_ok.1 hnew
  cases hnew
  cases ho
  refine ⟨⟨w₁, w₂, hdirectory, hobserve⟩, w₁, w₂, hdirectory, hobserve, ?_⟩
  obtain ⟨_, w₄, hcheck, -⟩ := Eff.bind_eq_ok.1 happrove
  rcases checkOverwrite_eq_ok hcheck with hforce | ⟨e, w₅, hlook, hkind⟩ | hprompt
  · exact .inl hforce
  · exact hsees.imp id fun hno => absurd ⟨w₁, w₂, w₅, _, e, hdirectory, hobserve, hlook, hkind⟩ hno
  · exact .inr hprompt

end

/-- Whatever the other processes do with regular files, and whichever calls
fail: no link is taken away but those of the program's own temporary file and,
once the complete output has been put to the destination, of the file that was
observed there and approved for replacement; and what else was moved away from
the destination stays linked there or at its quarantine name. It holds unless
`check_overwrite` finds nothing where a file had been observed. -/
theorem produce_harmless {env : Env} {destination : Path} {force : Bool} {portions : List Bytes}
    {filled : Except IronlockError Unit} {w : World} (hm : env.Meddles w.fs.temporary)
    (hsees : force = true ∨ ¬Vanishes env destination w) :
    Each (Harmless (Observed env destination w) (Approved env destination force w) destination
      portions.flatten) ((produce env destination force portions filled w).2.since w) := by
  let P := Harmless (Observed env destination w) (Approved env destination force w) destination
    portions.flatten
  have hstart : Started P w.fs destination False [] w.fs :=
    ⟨.refl _, each_nil, by simp, nofun⟩
  have hopen : Runs (Started P w.fs destination False) (AtomicOutput.new env destination force)
      (fun o steps fs => o.destination = destination ∧ ∃ d a b,
        Waiting P w.fs o d a b [] (some (.file o.file)) steps fs) fun _ => Ended P :=
    new_harmless hm force
  suffices hend : Holds w (Ended P) (produce env destination force portions filled w).2 by
    obtain ⟨steps, hsteps, hsteps'⟩ := hend
    rw [World.since_eq hsteps]
    exact hsteps'
  rcases hnew : AtomicOutput.new env destination force w with ⟨e | o, w₁⟩
  · rw [produce, Eff.bind_error hnew]
    exact hopen.error hstart hnew
  rw [produce, Eff.bind_ok hnew]
  obtain ⟨steps, hsteps, rfl, d, a, b, hw⟩ := hopen.ok hstart hnew
  have hobserved (k : Nat) (hk : o.observedDestination = some (.file k)) :
      Observed env o.destination w k ∧ Approved env o.destination force w k :=
    new_approved hnew hsees hk
  have happend := appendAll_runs (Φ := fun c => Waiting P w.fs o d a b c (some (.file o.file)))
    (fun _ steps fs => ∃ c, Waiting P w.fs o d a b c (some (.file o.file)) steps fs)
    (fun _ => Waiting.stable hm) (fun _ _ _ bytes hw => hw.append bytes) [] portions
  have hrest : Runs (Waiting P w.fs o d a b [] (some (.file o.file))) (do
      Eff.onError (do
        Sys.appendAll env o.file portions
        Eff.ofExcept filled) (o.drop env)
      o.commit env) (fun _ => Ended P) fun _ => Ended P := by
    refine .bind (Ψ := fun _ => Waiting P w.fs o d a b portions.flatten (some (.file o.file)))
      (.onError (Θ := fun _ steps fs => ∃ c, Waiting P w.fs o d a b c (some (.file o.file)) steps fs)
        (.bind (Ψ := fun _ => Waiting P w.fs o d a b portions.flatten (some (.file o.file))) ?_
          fun _ => ?_) fun _ => ?_) fun _ => commit_harmless hm hobserved
    · exact happend
    · exact .ofExcept (fun _ _ _ _ => id) fun _ _ _ _ hw => ⟨_, hw⟩
    · exact .exists_pre fun c => Waiting.drop_runs hm fun x hx => (Option.some.inj hx).symm
  exact hrest.always ⟨steps, hsteps, hw⟩

/-! ## A destination that is hidden for a moment -/

/-- Rename a file in the root directory. -/
def relocate (src dst : Name) (fs : Fs) : Fs :=
  match fs.nodeAt [src] with
  | some (.file _) =>
    if fs.fold [] dst = dst ∧ fs.nodeAt [dst] = none then fs.move [src] [] dst else fs
  | _ => fs

theorem relocate_meddled {T : Set Loc} {src dst : Name} {fs : Fs} (hsrc : [src] ∉ T) (hdst : [dst] ∉ T) :
    fs.Meddled T (relocate src dst fs) := by
  unfold relocate
  rcases hx : fs.nodeAt [src] with _ | ⟨_ | i | _ | _⟩
  case some.file =>
    dsimp only
    split
    · rename_i hfree
      have hne : [src] ≠ ([] : Loc) := by simp
      have hnodes := Fs.move_nodeAt (d := []) (n := dst) hne hx
      rw [List.nil_append, hfree.1] at hnodes
      refine ⟨Fs.move_fold, Fs.move_cwd, Fs.move_nextInode.ge, fun l => ?_, fun _ _ _ _ => ?_⟩
      · by_cases hl : l = [src]
        · subst hl
          refine .inr ⟨hsrc, fun y hy => ⟨i, Option.some.inj (hy.symm.trans hx)⟩, fun y hy => ?_⟩
          rw [hnodes, Function.update_self] at hy
          cases hy
        by_cases hl' : l = [dst]
        · subst hl'
          refine .inr ⟨hdst, fun y hy => ?_, fun y hy => ⟨i, ?_⟩⟩
          · rw [hfree.2] at hy
            cases hy
          · rw [hnodes, Function.update_of_ne hl, Function.update_self] at hy
            exact (Option.some.inj hy).symm
        · left
          rw [hnodes, Function.update_of_ne hl, Function.update_of_ne hl']
      · rw [Fs.move_content]
    · exact .refl T fs
  all_goals exact .refl T fs

/-- Just before `check_overwrite` looks, another process renames `/a` to `/b`,
and back right after. The prompt would be answered with no. -/
def vanishing : Env :=
  { Env.calm .checksummed with
    others := fun n fs => if n = 4 then relocate ⟨[97], .refl true⟩ ⟨[98], .refl true⟩ fs
      else if n = 5 then relocate ⟨[98], .refl true⟩ ⟨[97], .refl true⟩ fs else fs
    confirm := fun _ => .ok false }

/-- The replacement of `/a` by a two. -/
def hidden (force : Bool) : Except IronlockError Path × World :=
  produce vanishing destA force [[2]] (.ok ()) occupied

theorem short_not_temporary {fs : Fs} {n : Name} (hfold : ∀ l n, fs.fold l n = n)
    (hn : n.bytes.length = 1) : [n] ∉ fs.temporary := by
  rintro ⟨d, a, b, h⟩
  rw [Fs.entryLoc_eq, hfold] at h
  obtain ⟨-, hname⟩ := @List.append_inj' _ [] _ _ _ h rfl
  obtain rfl : n = tempName a b := List.singleton_inj.1 hname
  have := length_tempFormat a b
  rw [show (tempFormat a b).length = 1 from hn] at this
  cases this

theorem vanishing_meddles : vanishing.Meddles occupied.fs.temporary := by
  have ha : [(⟨[97], rfl⟩ : Name)] ∉ occupied.fs.temporary := short_not_temporary (fun _ _ => rfl) rfl
  have hb : [(⟨[98], rfl⟩ : Name)] ∉ occupied.fs.temporary := short_not_temporary (fun _ _ => rfl) rfl
  intro n fs
  unfold vanishing
  dsimp only
  split
  · exact relocate_meddled ha hb
  split
  · exact relocate_meddled hb ha
  · exact .refl _ _

/-- With `force` the file may go, and goes. -/
theorem produce_harmless_hidden :
    Each (Harmless (Observed vanishing destA occupied) (Approved vanishing destA true occupied) destA
      [[2]].flatten)
      ((hidden true).2.since occupied) ∧
    ∃ s ∈ (hidden true).2.since occupied, s.Unlinks 0 := by
  constructor
  · exact produce_harmless vanishing_meddles (.inl rfl)
  · unfold Step.Unlinks
    decide +kernel

/-- Without it nobody agrees, and yet the file goes. -/
theorem hidden_clobbered :
    vanishing.Meddles occupied.fs.temporary ∧ (∀ n, vanishing.confirm n = .ok false) ∧
    (hidden false).1 = .ok destA ∧ (∃ s ∈ (hidden false).2.since occupied, s.Unlinks 0) ∧
    ¬Each (Harmless (Observed vanishing destA occupied) (Approved vanishing destA false occupied) destA
      [[2]].flatten)
      ((hidden false).2.since occupied) := by
  have hgone : ∃ s ∈ (hidden false).2.since occupied, s.Unlinks 0 := by
    unfold Step.Unlinks
    decide +kernel
  refine ⟨vanishing_meddles, fun _ => rfl, by decide +kernel, hgone, fun hall => ?_⟩
  obtain ⟨s, hs, hunlinks⟩ := hgone
  obtain ⟨front, back, hsteps⟩ := List.append_of_mem hs
  rcases (hall front s back hsteps).unlinks 0 hunlinks with ⟨t, ht, p, -, -, hmade⟩ | ⟨happroved, -⟩
  · have hold : ∀ t ∈ (hidden false).2.since occupied, t.before.nextInode ≠ 0 := by decide +kernel
    have ht' : t ∈ (hidden false).2.since occupied := by
      rw [hsteps]
      exact List.mem_append_left _ ht
    rcases Fs.make_cases p (fun fs d n => (fs.nextInode, fs.create d n)) t.before with
      ⟨e, he⟩ | ⟨d, n, -, -, he⟩ <;> rw [Fs.createNew, he] at hmade
    · cases hmade
    · exact hold t ht' (Except.ok.inj (Prod.ext_iff.1 hmade).1)
  · obtain ⟨_, _, -, -, hforce | ⟨_, w₃, -, hprompt⟩⟩ := happroved
    · cases hforce
    · cases congrArg Prod.fst hprompt

end AtomicOutput

end Ironlock
