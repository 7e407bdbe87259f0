import Ironlock.Interference

/-! A file that has been moved away to a temporary name while other processes
act, and its way back. -/

namespace Ironlock
open ByteOrder (Bytes)
open Effect
open Fs (Identity Metadata SysCall)

/-- The call moves the file from one path to another. -/
def Step.Takes (s : Step) (p q : Path) (i : Nat) : Prop :=
  s.call = .rename p q ∧ s.before.IsFile p i ∧ ¬s.after.IsFile p i

namespace QuarantinedFile

/-- The path under a random name beside it. -/
def hidden (p : Path) (a b : UInt64) : QuarantinedFile :=
  ⟨p, p.parentOrHere.push (.name (tempName a b))⟩

end QuarantinedFile

/-- The property holds of calls that do nothing. -/
def AllowsIdle (P : List Step → Step → Prop) : Prop :=
  ∀ steps call fault fs, P steps ⟨call, fault, fs, fs⟩

/-- Nothing has been moved away from the path, and if a file has been seen
there, nothing but a file can be. -/
structure Started (P : List Step → Step → Prop) (base : Fs) (p : Path) (seen : Prop)
    (steps : List Step) (fs : Fs) : Prop where
  keeps : base.Keeps fs
  each : Each P steps
  untaken : ∀ s ∈ steps, ∀ q i, ¬s.Takes p q i
  seen : seen → ∃ names, fs.resolve false p = .ok names ∧ fs.Ordinary (fs.loc names) ∧
    (fs.loc names ∈ base.temporary → fs.nodeAt (fs.loc names) ≠ none)

/-- The file `k` has been moved away from the path, to a temporary name where
`h` is now. -/
structure Away (P : List Step → Step → Prop) (base : Fs) (p : Path) (e : List Name) (m : Name)
    (d : List Name) (a b : UInt64) (k : Nat) (h : Option Node) (steps : List Step) (fs : Fs) : Prop where
  keeps : base.Keeps fs
  each : Each P steps
  taken : ∀ s ∈ steps, ∀ q i, s.Takes p q i → q = (QuarantinedFile.hidden p a b).quarantine ∧ i = k
  source : fs.Reaches p e m
  ordinary : fs.Ordinary (fs.entryLoc e m)
  quarantine : fs.Reaches (QuarantinedFile.hidden p a b).quarantine d (tempName a b)
  apart : fs.entryLoc e m ≠ fs.entryLoc d (tempName a b)
  held : fs.nodeAt (fs.entryLoc d (tempName a b)) = h

section
variable {P : List Step → Step → Prop} {base fs fs' : Fs} {p q src dst : Path}
  {d d' e names : List Name} {m n : Name} {a b : UInt64} {i k : Nat} {h h' : Option Node}
  {steps : List Step} {s : Step} {x : Node}

theorem not_takes_same (hs : s.after = s.before) : ¬s.Takes p q i := by
  rintro ⟨-, hbefore, hafter⟩
  rw [hs] at hafter
  exact hafter hbefore

/-- A rename to a path moves nothing away from it. -/
theorem not_takes_install {fault : Option IoError} (hsrc : fs.resolve false src = .ok names)
    (hx : fs.node names = some x) (hdst : fs.resolve false p = .ok (d ++ [n]))
    (hfree : fs.nodeAt (fs.entryLoc d n) = none) :
    ¬Step.Takes ⟨.rename src p, fault, fs, fs'⟩ p q i := by
  rintro ⟨hcall, -, -⟩
  cases hcall
  rw [hsrc] at hdst
  cases hdst
  rw [Fs.node_concat, hfree] at hx
  cases hx

/-! ## Before the move -/

theorem Started.stable {env : Env} {seen : Prop} (hm : env.Meddles base.temporary) :
    env.Stable (Started P base p seen) := by
  intro n steps fs h
  have hk := (hm n fs).keeps
  refine ⟨h.keeps.trans hk, h.each, h.untaken, fun hs => ?_⟩
  obtain ⟨names, hr, hordinary, hthere⟩ := h.seen hs
  refine ⟨names, hk.resolve hr, ?_, ?_⟩ <;> rw [hk.loc]
  · exact (hm n fs).ordinary hordinary
  · intro ht
    rw [(hm n fs).temporary ht]
    exact hthere ht

theorem Started.step {seen : Prop} (h : Started P base p seen steps fs) (hk : fs.Keeps fs')
    (hs : P steps s) (htakes : ∀ q i, ¬s.Takes p q i)
    (hnodes : ∀ l x, fs.nodeAt l = some x → fs'.nodeAt l = some x)
    (hordinary : seen → ∀ l, fs.Ordinary l → fs'.Ordinary l) :
    Started P base p seen (steps ++ [s]) fs' where
  keeps := h.keeps.trans hk
  each := each_concat.2 ⟨h.each, hs⟩
  untaken u hu := by
    rcases List.mem_append.1 hu with hu | hu
    · exact h.untaken u hu
    · rw [List.mem_singleton.1 hu]
      exact htakes
  seen hseen := by
    obtain ⟨names, hr, hord, hthere⟩ := h.seen hseen
    refine ⟨names, hk.resolve hr, ?_, ?_⟩ <;> rw [hk.loc]
    · exact hordinary hseen _ hord
    · intro ht hnone
      obtain ⟨x, hx⟩ := Option.ne_none_iff_exists'.1 (hthere ht)
      rw [hnodes _ x hx] at hnone
      cases hnone

theorem Started.inert {seen : Prop} (hP : AllowsIdle P) : Inert (Started P base p seen) :=
  fun _ _ _ _ h => h.step (.refl _) (hP ..) (fun _ _ => not_takes_same rfl) (fun _ _ => id) fun _ _ => id

/-- A look at the path may see a file there. -/
theorem Started.look_runs {env : Env} {Χ : IronlockError → Assertion} (hm : env.Meddles base.temporary)
    (hP : AllowsIdle P) :
    Runs (Started P base p False) (Sys.symlinkMetadata env p) (fun r => match r with
      | .ok m => Started P base p (m.isFile = true)
      | .error _ => Started P base p False) Χ := by
  refine .try_ (Started.stable hm) (fun _ _ _ h _ => Started.inert hP _ _ _ _ h) fun steps fs h => ?_
  have hsame := Started.inert hP _ _ (.symlinkMetadata p) none h
  have hsnd : (fs.symlinkMetadata p).2 = fs := look_snd fs
  rw [hsnd]
  rcases hr : (fs.symlinkMetadata p).1 with e | m
  · exact hsame
  · refine ⟨hsame.keeps, hsame.each, hsame.untaken, fun hfile => ?_⟩
    obtain ⟨names, x, hresolve, hx, hm⟩ := look_eq_ok hr
    obtain ⟨i, hi⟩ := Metadata.isFile_iff.1 hfile
    cases hm
    obtain rfl : x = .file i := hi
    refine ⟨names, hresolve, fun y hy => ⟨i, ?_⟩, fun _ hnone => ?_⟩
    · exact Option.some.inj (hy.symm.trans hx)
    · rw [← Fs.node, hx] at hnone
      cases hnone

/-! ## The move and the way back -/

theorem Fs.Reaches.of_resolve (h : fs.resolve false p = .ok (d ++ [n])) : fs.Reaches p d n := by
  constructor
  intro follow hfollow
  rcases follow with _ | _
  · exact h
  · refine Fs.resolve_follow (fun t => ?_) h
    rcases hfollow with hfalse | hlink
    · cases hfalse
    · exact hlink t

theorem Fs.Reaches.isFile (h : fs.Reaches p d n) :
    fs.IsFile p i ↔ fs.nodeAt (fs.entryLoc d n) = some (.file i) := by
  constructor
  · rintro ⟨names, hr, hx⟩
    rw [h.resolve (.inl rfl)] at hr
    cases hr
    exact hx
  · intro hx
    exact ⟨_, h.resolve (.inl rfl), hx⟩

/-- A file moved to a temporary name beside it is away. -/
theorem Away.start (hkeeps : base.Keeps fs) (heach : Each P steps)
    (htaken : ∀ s ∈ steps, ∀ q i, ¬s.Takes p q i)
    (hsrc : fs.resolve false p = .ok names) (hordinary : fs.Ordinary (fs.loc names))
    (hx : fs.node names = some x) (hdir : x ≠ .dir)
    (hdst : fs.resolve false (QuarantinedFile.hidden p a b).quarantine = .ok (d' ++ [n]))
    (hfree : fs.nodeAt (fs.entryLoc d' n) = none)
    (hs : ∀ k, x = .file k → P steps ⟨.rename p (QuarantinedFile.hidden p a b).quarantine, none, fs,
      fs.move (fs.loc names) (fs.loc d') n⟩) :
    ∃ e m k, names = e ++ [m] ∧ n = tempName a b ∧ x = .file k ∧
      Away P base p e m d' a b k (some (.file k))
        (steps ++ [⟨.rename p (QuarantinedFile.hidden p a b).quarantine, none, fs,
          fs.move (fs.loc names) (fs.loc d') n⟩]) (fs.move (fs.loc names) (fs.loc d') n) := by
  obtain ⟨k, rfl⟩ := hordinary x hx
  have hne := Fs.loc_ne_nil hx hdir
  obtain ⟨e, m, rfl⟩ : ∃ e m, names = e ++ [m] := by
    rcases List.eq_nil_or_concat names with rfl | ⟨e, m, hnames⟩
    · exact absurd rfl hne
    · exact ⟨e, m, by rw [hnames, List.concat_eq_append]⟩
  obtain ⟨-, d, hplace, -, hbeside⟩ := Fs.resolve_push hdst
  obtain ⟨rfl, hname⟩ := List.append_inj' hplace rfl
  cases hname
  have hapart : fs.entryLoc e m ≠ fs.entryLoc d' (tempName a b) := by
    intro heq
    rw [Fs.node_concat, heq, hfree] at hx
    cases hx
  have hfree' := hfree
  rw [Fs.entryLoc_eq] at hfree'
  have hk : fs.Keeps (fs.move (fs.entryLoc e m) (fs.loc d') (tempName a b)) :=
    Fs.move_keeps hne hx hfree'
  have hnodes : (fs.move (fs.entryLoc e m) (fs.loc d') (tempName a b)).nodeAt = _ :=
    Fs.move_nodeAt hne hx
  rw [← Fs.entryLoc_eq] at hnodes
  refine ⟨e, m, k, rfl, rfl, rfl, hkeeps.trans hk, each_concat.2 ⟨heach, hs k rfl⟩, ?_,
    (Fs.Reaches.of_resolve hsrc).keep hk, ?_, (hbeside _ (tempName_nul a b)).keep hk, ?_, ?_⟩
  · intro s hs q i hi
    rcases List.mem_append.1 hs with hs | hs
    · exact absurd hi (htaken s hs q i)
    · rw [List.mem_singleton.1 hs] at hi
      obtain ⟨hcall, ⟨names', hr, hi⟩, -⟩ := hi
      rw [hsrc] at hr
      cases hr
      rw [hx] at hi
      cases hi
      exact ⟨(Call.rename.inj hcall).2.symm, rfl⟩
  · intro y hy
    rw [← Fs.entryLoc, hk.entryLoc, hnodes, Function.update_self] at hy
    cases hy
  · rw [← Fs.entryLoc, hk.entryLoc, hk.entryLoc]
    exact hapart
  · rw [← Fs.entryLoc, hk.entryLoc, hnodes, Function.update_of_ne hapart.symm, Function.update_self]

theorem Away.others (ha : Away P base p e m d a b k h steps fs) (hm : fs.Meddled base.temporary fs') :
    Away P base p e m d a b k h steps fs' where
  keeps := ha.keeps.trans hm.keeps
  each := ha.each
  taken := ha.taken
  source := ha.source.keep hm.keeps
  ordinary := by
    rw [hm.keeps.entryLoc]
    exact hm.ordinary ha.ordinary
  quarantine := ha.quarantine.keep hm.keeps
  apart := by
    rw [hm.keeps.entryLoc, hm.keeps.entryLoc]
    exact ha.apart
  held := by rw [hm.keeps.entryLoc, hm.temporary (ha.keeps.temporary d a b), ha.held]

theorem Away.step (ha : Away P base p e m d a b k h steps fs) (hk : fs.Keeps fs') (hs : P steps s)
    (htakes : ∀ q i, ¬s.Takes p q i) (hordinary : fs'.Ordinary (fs.entryLoc e m))
    (hheld : fs'.nodeAt (fs.entryLoc d (tempName a b)) = h') :
    Away P base p e m d a b k h' (steps ++ [s]) fs' where
  keeps := ha.keeps.trans hk
  each := each_concat.2 ⟨ha.each, hs⟩
  taken u hu := by
    rcases List.mem_append.1 hu with hu | hu
    · exact ha.taken u hu
    · rw [List.mem_singleton.1 hu]
      exact fun q i hi => absurd hi (htakes q i)
  source := ha.source.keep hk
  ordinary := by
    rw [hk.entryLoc]
    exact hordinary
  quarantine := ha.quarantine.keep hk
  apart := by
    rw [hk.entryLoc, hk.entryLoc]
    exact ha.apart
  held := by rw [hk.entryLoc, hheld]

/-- A call that leaves both places as they are. -/
theorem Away.steady (ha : Away P base p e m d a b k h steps fs) (hk : fs.Keeps fs') (hs : P steps s)
    (htakes : ∀ q i, ¬s.Takes p q i)
    (hnodes : ∀ l, l = fs.entryLoc e m ∨ l = fs.entryLoc d (tempName a b) →
      fs'.nodeAt l = fs.nodeAt l) :
    Away P base p e m d a b k h (steps ++ [s]) fs' := by
  refine ha.step hk hs htakes (fun x hx => ?_) ?_
  · rw [hnodes _ (.inl rfl)] at hx
    exact ha.ordinary x hx
  · rw [hnodes _ (.inr rfl), ha.held]

theorem Away.inert (hP : AllowsIdle P) :
    Inert (Away P base p e m d a b k h) := fun _ _ _ _ ha =>
  ha.steady (.refl _) (hP ..) (fun _ _ => not_takes_same rfl) fun _ _ => rfl

theorem Away.stable {env : Env} (hm : env.Meddles base.temporary) :
    env.Stable (Away P base p e m d a b k h) := fun n _ fs ha => ha.others (hm n fs)

/-- While it is away or when it is back, the file is linked. -/
theorem Away.isFile (ha : Away P base p e m d a b k h steps fs) :
    fs.IsFile (QuarantinedFile.hidden p a b).quarantine i ↔ h = some (.file i) := by
  rw [ha.quarantine.isFile, ha.held]

/-- A file that was moved away is kept by a call that leaves it where it is. -/
theorem Away.kept (ha : Away P base p e m d a b k h steps fs) (hs : s ∈ steps) (hi : s.Takes p q i)
    (hk : fs.Keeps fs')
    (hsource : fs'.nodeAt (fs.entryLoc e m) = fs.nodeAt (fs.entryLoc e m) ∨
      fs.nodeAt (fs.entryLoc e m) = none)
    (hheld : fs'.nodeAt (fs.entryLoc d (tempName a b)) = fs.nodeAt (fs.entryLoc d (tempName a b)))
    (hfile : fs.IsFile p i ∨ fs.IsFile q i) : fs'.IsFile p i ∨ fs'.IsFile q i := by
  obtain ⟨rfl, rfl⟩ := ha.taken s hs q i hi
  rw [ha.source.isFile, ha.quarantine.isFile] at hfile
  rw [(ha.source.keep hk).isFile, (ha.quarantine.keep hk).isFile, hk.entryLoc, hk.entryLoc, hheld]
  refine hfile.imp (fun hfile => ?_) id
  rcases hsource with hsource | hnone
  · rw [hsource, hfile]
  · rw [hnone] at hfile
    cases hfile

/-- The way back. -/
theorem Away.back (ha : Away P base p e m d a b k h steps fs) (hh : h = some (.file k))
    (hfree : fs.nodeAt (fs.entryLoc e m) = none) :
    fs.Keeps (fs.move (fs.entryLoc d (tempName a b)) (fs.loc e) m) ∧
      (fs.move (fs.entryLoc d (tempName a b)) (fs.loc e) m).IsFile p k ∧
      (fs.move (fs.entryLoc d (tempName a b)) (fs.loc e) m).nodeAt =
        Function.update (Function.update fs.nodeAt (fs.entryLoc e m) (some (.file k)))
          (fs.entryLoc d (tempName a b)) none := by
  have hfile := ha.held.trans hh
  have hne := Fs.entryLoc_ne_nil fs d (tempName a b)
  have hfree' := hfree
  rw [Fs.entryLoc_eq] at hfree'
  refine ⟨Fs.move_keeps hne hfile hfree', ?_, ?_⟩
  · exact Fs.move_isFile hfile (ha.source.resolve (.inl rfl)) hfree
  · rw [Fs.move_nodeAt hne hfile, ← Fs.entryLoc_eq]

/-- While a file is away, what is done about it comes after it was moved. -/
theorem Away.after (ha : Away P base p e m d a b k h steps fs) {R : Path → Nat → List Step → Prop}
    (hs : ∀ q i, ¬s.Takes p q i)
    (hR : ∀ back, R (QuarantinedFile.hidden p a b).quarantine k (back ++ [s]))
    (front : List Step) (t : Step) (back : List Step) (hsteps : steps ++ [s] = front ++ t :: back)
    (q : Path) (i : Nat) (ht : t.Takes p q i) : R q i back := by
  rcases List.eq_nil_or_concat back with rfl | ⟨back', u, rfl⟩
  · obtain ⟨-, hts⟩ := List.append_inj' hsteps rfl
    cases hts
    exact absurd ht (hs q i)
  · rw [List.concat_eq_append, ← List.cons_append, ← List.append_assoc] at hsteps
    obtain ⟨rfl, hsu⟩ := List.append_inj' hsteps rfl
    cases hsu
    obtain ⟨rfl, rfl⟩ := ha.taken t (List.mem_append_right _ List.mem_cons_self) q i ht
    rw [List.concat_eq_append]
    exact hR back'

end

end Ironlock
