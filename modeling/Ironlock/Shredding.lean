import Ironlock.NoClobber
import Ironlock.SecureFs.ShredFacts
import Ironlock.SecureFs.Encrypt

/-! Shredding while other processes rename, replace, make and delete files: the
file that was encrypted is the only one whose bytes change. -/

namespace Ironlock
open ByteOrder (Bytes)
open Effect
open Fs (Identity Metadata SysCall)

namespace Step

/-- The call changes the bytes of a file that was there. -/
def Alters (s : Step) (k : Nat) : Prop :=
  k < s.before.nextInode ∧ s.after.content k ≠ s.before.content k

/-- The call opens the file for writing; so many bytes are in it. -/
def Opens (s : Step) (q : Path) (i len : Nat) : Prop :=
  s.call = .openWrite q ∧ s.before.IsFile q i ∧ (s.before.content i).length = len

/-- The call finds that the open file has one link. -/
def FindsOneLink (s : Step) (i : Nat) : Prop :=
  s.call = .stat (.file i) ∧ s.fault = none ∧ s.before.links i = 1

/-- The call writes the bytes into the file, from the offset on. -/
def Overwrites (s : Step) (i offset : Nat) (b : Bytes) : Prop :=
  s.call = .write (.file i) ∧ s.after = s.before.overwrite i offset b

/-- The call removes the file's name. -/
def Removes (s : Step) (q : Path) (i : Nat) : Prop :=
  s.call = .removeFile q ∧ s.before.IsFile q i ∧ ¬s.after.IsFile q i

/-- The call is a failing attempt to move a file back, or finds its path taken. -/
def Blocks (s : Step) (p q : Path) : Prop :=
  (s.call = .rename q p ∧ s.fault ≠ none) ∨ ∃ j, s.before.IsFile p j

end Step

namespace Shred

/-- Each of the file's first `len` bytes was overwritten. -/
def Covers (i len : Nat) (steps : List Step) : Prop :=
  ∀ x < len, ∃ s ∈ steps, ∃ offset b, s.Overwrites i offset b ∧ offset ≤ x ∧ x < offset + b.length

/-- They were, so many times, one after the other. -/
def Wiped (i len : Nat) : Nat → List Step → Prop
  | 0, _ => True
  | passes + 1, steps =>
    ∃ front back, steps = front ++ back ∧ Wiped i len passes front ∧ Covers i len back

/-- The file was opened for writing at the path, and as many bytes of it as it
then had were overwritten so many times. -/
def Erased (q : Path) (i passes : Nat) (steps : List Step) : Prop :=
  ∃ front s back len, steps = front ++ s :: back ∧ s.Opens q i len ∧ Wiped i len passes back

/-- The file was erased in three passes, and then its name was removed. -/
def Shredded (i : Nat) (steps : List Step) : Prop :=
  ∃ q front s back, steps = front ++ s :: back ∧ Erased q i 3 front ∧ s.Removes q i

/-- After the calls of `front`, a call alters no file but `i`, once it was found
to have one link; and any other file that was moved away stays linked. -/
structure Spared (p : Path) (i : Nat) (front : List Step) (s : Step) : Prop where
  alters : ∀ k, s.Alters k → k = i ∧ ∃ t ∈ front, t.FindsOneLink i
  takes : ∀ q k, s.Takes p q k → s.after.IsFile q k
  keeps : ∀ t ∈ front, ∀ q k, t.Takes p q k → k ≠ i → s.before.IsFile p k ∨ s.before.IsFile q k →
    s.after.IsFile p k ∨ s.after.IsFile q k

/-- A file that was moved away was moved back, or it is still there: its path was
taken meanwhile, or moving it back failed. -/
def Returned (p q : Path) (k : Nat) (back : List Step) (fs : Fs) : Prop :=
  (∃ s ∈ back, s.call = .rename q p ∧ s.after.IsFile p k) ∨
    fs.IsFile q k ∧ ∃ s ∈ back, s.Blocks p q

/-- What was moved away from the path has returned, unless it is the file `i`. -/
def Returns (p : Path) (i : Nat) (steps : List Step) (fs : Fs) : Prop :=
  ∀ front t back, steps = front ++ t :: back → ∀ q k, t.Takes p q k → k ≠ i → Returned p q k back fs

section
variable {p q : Path} {i k len passes offset : Nat} {steps front : List Step} {s : Step} {fs : Fs}

theorem Covers.none : Covers i 0 steps := fun _ hx => absurd hx (Nat.not_lt_zero _)

theorem Covers.append (h : Covers i len steps) (more : List Step) : Covers i len (steps ++ more) := by
  intro x hx
  obtain ⟨t, ht, hcover⟩ := h x hx
  exact ⟨t, List.mem_append_left _ ht, hcover⟩

/-- A write where the others ended covers its bytes, too. -/
theorem Covers.write {b : Bytes} (h : Covers i offset steps) (hs : s.Overwrites i offset b) :
    Covers i (offset + b.length) (steps ++ [s]) := by
  intro x hx
  by_cases hold : x < offset
  · exact h.append _ x hold
  · exact ⟨s, List.mem_append_right _ (List.mem_singleton_self s), offset, b, hs, by omega, hx⟩

theorem Wiped.append (h : Wiped i len passes steps) (more : List Step) :
    Wiped i len passes (steps ++ more) := by
  cases passes with
  | zero => trivial
  | succ passes =>
    obtain ⟨front, back, rfl, hfront, hback⟩ := h
    exact ⟨front, back ++ more, List.append_assoc .., hfront, hback.append more⟩

theorem Erased.concat (h : Erased q i passes steps) : Erased q i passes (steps ++ [s]) := by
  obtain ⟨front, t, back, len, rfl, hopens, hwiped⟩ := h
  exact ⟨front, t, back ++ [s], len, by simp, hopens, hwiped.append _⟩

theorem Shredded.concat (h : Shredded i steps) : Shredded i (steps ++ [s]) := by
  obtain ⟨q, front, t, back, rfl, herased, hremoves⟩ := h
  exact ⟨q, front, t, back ++ [s], by simp, herased, hremoves⟩

/-- A call that leaves the bytes as they are and moves nothing away from the path
spares what it does not take away. -/
theorem Spared.unaltering (hcontent : ∀ k < s.before.nextInode, s.after.content k = s.before.content k)
    (htakes : ∀ q k, s.Takes p q k → s.after.IsFile q k)
    (hkeeps : ∀ t ∈ front, ∀ q k, t.Takes p q k → k ≠ i →
      s.before.IsFile p k ∨ s.before.IsFile q k → s.after.IsFile p k ∨ s.after.IsFile q k) :
    Spared p i front s where
  alters k hk := absurd (hcontent k hk.1) hk.2
  takes := htakes
  keeps := hkeeps

theorem Spared.allowsIdle : AllowsIdle (Spared p i) := fun _ _ _ _ =>
  .unaltering (fun _ _ => rfl) (fun _ _ hi => absurd hi (not_takes_same rfl)) fun _ _ _ _ _ _ => id

end

/-! ## The file in quarantine -/

/-- A property of the calls so far that later calls do not undo. -/
def Lasting (F : List Step → Prop) : Prop := ∀ steps s, F steps → F (steps ++ [s])

/-- The file `k` is in quarantine with `len` bytes in it, and the calls so far
are as `F` says. -/
structure Held (i : Nat) (base : Fs) (p : Path) (e : List Name) (m : Name) (d : List Name)
    (a b : UInt64) (k len : Nat) (F : List Step → Prop) (steps : List Step) (fs : Fs) : Prop
    extends Away (Spared p i) base p e m d a b k (some (.file k)) steps fs where
  length : (fs.content k).length = len
  progress : F steps

/-- The file was opened for writing when it had `len` bytes, and since then the
calls were as `F` says. -/
def Since (q : Path) (i len : Nat) (F : List Step → Prop) (steps : List Step) : Prop :=
  ∃ front s back, steps = front ++ s :: back ∧ s.Opens q i len ∧ F back

/-- So many passes are ended, and the next one has come to the offset. -/
def Passing (i len passes offset : Nat) (steps : List Step) : Prop :=
  ∃ front back, steps = front ++ back ∧ Wiped i len passes front ∧ Covers i offset back

/-- The file was found to have one link. -/
def Single (i : Nat) (steps : List Step) : Prop := ∃ s ∈ steps, s.FindsOneLink i

section
variable {env : Env} {i k len passes offset : Nat} {base fs fs' : Fs} {p q : Path} {e d : List Name}
  {m : Name} {a b : UInt64} {F G : List Step → Prop} {steps : List Step} {s : Step}

theorem Lasting.and (hF : Lasting F) (hG : Lasting G) : Lasting fun steps => F steps ∧ G steps :=
  fun steps s h => ⟨hF steps s h.1, hG steps s h.2⟩

theorem Lasting.since (hF : Lasting F) : Lasting (Since q i len F) := by
  rintro steps s ⟨front, t, back, rfl, hopens, hback⟩
  exact ⟨front, t, back ++ [s], by simp, hopens, hF _ _ hback⟩

theorem single_lasting : Lasting (Single i) := by
  rintro steps s ⟨t, ht, hone⟩
  exact ⟨t, List.mem_append_left _ ht, hone⟩

theorem passing_lasting : Lasting (Passing i len passes offset) := by
  rintro steps s ⟨front, back, rfl, hfront, hback⟩
  exact ⟨front, back ++ [s], List.append_assoc .., hfront, hback.append _⟩

theorem Passing.next (h : Passing i len passes len steps) : Passing i len (passes + 1) 0 steps :=
  ⟨steps, [], (List.append_nil _).symm, h, .none⟩

theorem Held.stable (hm : env.Meddles base.temporary) : env.Stable (Held i base p e m d a b k len F) :=
  fun n steps fs h =>
    { h.toAway.others (hm n fs) with
      length := by rw [(hm n fs).content _ _ (h.keeps.temporary d a b) h.held, h.length]
      progress := h.progress }

theorem Held.inert (hF : Lasting F) : Inert (Held i base p e m d a b k len F) :=
  fun _ _ _ _ h => { Away.inert Spared.allowsIdle _ _ _ _ h.toAway with
    length := h.length
    progress := hF _ _ h.progress }

theorem Held.looks {α : Type} {n : FsM α} (hm : env.Meddles base.temporary) (hF : Lasting F)
    (h : Looks env n) :
    Runs (Held i base p e m d a b k len F) n (fun _ => Held i base p e m d a b k len F)
      fun _ => Held i base p e m d a b k len F := h.runs (Held.stable hm) (Held.inert hF).idle

/-- A write to the file in the middle of a pass. -/
theorem Held.write (h : Held i base p e m d a b i len
      (fun steps => Single i steps ∧ Since q i len (Passing i len passes offset) steps) steps fs)
    (bytes : Bytes) (hle : offset + bytes.length ≤ len) :
    Held i base p e m d a b i len
      (fun steps => Single i steps ∧ Since q i len (Passing i len passes (offset + bytes.length)) steps)
      (steps ++ [⟨.write (.file i), none, fs, fs.overwrite i offset bytes⟩])
      (fs.overwrite i offset bytes) := by
  have hkeeps : fs.Keeps (fs.overwrite i offset bytes) := Fs.setContent_keeps _ _
  obtain ⟨hone, front, t, back, hsteps, hopens, first, current, rfl, hfirst, hcurrent⟩ := h.progress
  have hspared : Spared p i steps ⟨.write (.file i), none, fs, fs.overwrite i offset bytes⟩ := by
    constructor
    · rintro k ⟨-, hk⟩
      rw [Fs.overwrite_content] at hk
      by_cases hki : k = i
      · exact ⟨hki, hone⟩
      · exact absurd (if_neg hki) hk
    · exact fun q k hk => nomatch hk.1
    · intro t _ q k _ _ hfile
      exact hfile.imp (fun hfile => hfile.keep hkeeps fun _ _ => rfl) fun hfile =>
        hfile.keep hkeeps fun _ _ => rfl
  refine { h.toAway.steady hkeeps hspared (fun _ _ => nofun) fun _ _ => rfl with
    length := ?_, progress := ⟨single_lasting _ _ hone, ?_⟩ }
  · rw [Fs.overwrite_length (by rw [h.length]; exact hle), h.length]
  · refine ⟨front, t, first ++ (current ++ [⟨.write (.file i), none, fs, fs.overwrite i offset bytes⟩]),
      ?_, hopens, first, _, rfl, hfirst, ?_⟩
    · rw [hsteps]
      simp
    · exact hcurrent.write ⟨rfl, rfl⟩

/-- The passes overwrite the file from its beginning to its end, three times. -/
theorem Held.passes_runs (hm : env.Meddles base.temporary) :
    Runs (Held i base p e m d a b i len
        fun steps => Single i steps ∧ Since q i len (fun _ => True) steps)
      (overwritePasses env i len 3)
      (fun _ => Held i base p e m d a b i len (Erased q i 3))
      fun _ => Away (Spared p i) base p e m d a b i (some (.file i)) := by
  let Λ (passes offset : Nat) : Assertion := Held i base p e m d a b i len
    fun steps => Single i steps ∧ Since q i len (Passing i len passes offset) steps
  have hlasting (passes offset : Nat) : Lasting fun steps =>
      Single i steps ∧ Since q i len (Passing i len passes offset) steps :=
    single_lasting.and passing_lasting.since
  have hidle {n : FsM Unit} (passes offset : Nat) (h : Looks env n) :
      Runs (Λ passes offset) n (fun _ => Λ passes offset)
        fun _ => Away (Spared p i) base p e m d a b i (some (.file i)) :=
    (Held.looks hm (hlasting passes offset) h).post (fun _ _ _ => id) fun _ _ _ h => h.toAway
  have hnext (passes : Nat) (steps : List Step) (fs : Fs) (h : Λ passes len steps fs) :
      Λ (passes + 1) 0 steps fs := by
    obtain ⟨hone, front, t, back, hsteps, hopens, hpassing⟩ := h.progress
    exact { h with progress := ⟨hone, front, t, back, hsteps, hopens, hpassing.next⟩ }
  -- how many passes are ended follows from how many are left
  refine (overwritePasses_runs (Ψ := fun left steps fs => ∃ ended, ended + left = 3 ∧ Λ ended 0 steps fs)
    (Λ := fun left offset steps fs => ∃ ended, ended + (left + 1) = 3 ∧ Λ ended offset steps fs)
    ?_ ?_ ?_ ?_ 3).consequence ?_ ?_ fun _ _ _ => id
  · intro left
    refine .exists_pre fun ended => .assuming fun hended => ?_
    exact (hidle ended 0 (rewind_looks _)).post (fun _ _ _ h => ⟨ended, hended, h⟩) fun _ _ _ => id
  · intro left
    refine .exists_pre fun ended => .assuming fun hended => ?_
    refine (overwriteRemaining_runs (Φ := fun offset => Λ ended offset) (fun _ => Held.stable hm)
      (fun offset steps fs bytes hle h => h.write bytes hle) 0 _ (Nat.zero_add _)).post
      (fun _ _ _ h => ⟨ended, hended, h⟩) fun _ _ _ h => ?_
    obtain ⟨-, offset, h⟩ := h
    exact h.toAway
  · intro left
    refine .exists_pre fun ended => .assuming fun hended => ?_
    exact (hidle ended len (flush_looks _)).post (fun _ _ _ h => ⟨ended, hended, h⟩) fun _ _ _ => id
  · intro left
    refine .exists_pre fun ended => .assuming fun hended => ?_
    exact (hidle ended len (syncAll_looks _)).post
      (fun _ steps fs h => ⟨ended + 1, by omega, hnext ended steps fs h⟩) fun _ _ _ => id
  · rintro steps fs h
    obtain ⟨hone, front, t, back, hsteps, hopens, -⟩ := h.progress
    exact ⟨0, rfl, { h with
      progress := ⟨hone, front, t, back, hsteps, hopens, [], back, rfl, trivial, .none⟩ }⟩
  · rintro _ steps fs ⟨ended, hended, h⟩
    obtain rfl : ended = 3 := hended
    obtain ⟨-, front, t, back, hsteps, hopens, first, rest, rfl, hwiped, -⟩ := h.progress
    refine { h with progress := ⟨front, t, first ++ rest, len, hsteps, hopens, hwiped.append _⟩ }

/-- Overwriting ends well only for the file that was encrypted, which has then
been erased. -/
theorem overwrite_runs (hm : env.Meddles base.temporary) :
    Runs (Away (Spared p i) base p e m d a b k (some (.file k)))
      (overwriteQuarantined env (QuarantinedFile.hidden p a b).quarantine (.file i))
      (fun _ steps fs => k = i ∧ Erased (QuarantinedFile.hidden p a b).quarantine i 3 steps ∧
        Away (Spared p i) base p e m d a b i (some (.file i)) steps fs)
      fun _ => Away (Spared p i) base p e m d a b k (some (.file k)) := by
  have hopened (len : Nat) : Lasting
      (Since (QuarantinedFile.hidden p a b).quarantine k len fun _ => True) :=
    Lasting.since fun _ _ _ => trivial
  have haway {F : List Step → Prop} {len : Nat} (steps : List Step) (fs : Fs)
      (h : Held i base p e m d a b k len F steps fs) :
      Away (Spared p i) base p e m d a b k (some (.file k)) steps fs := h.toAway
  refine .bind (Ψ := fun file steps fs => file = .file k ∧ ∃ len, Held i base p e m d a b k len
      (Since (QuarantinedFile.hidden p a b).quarantine k len fun _ => True) steps fs)
    (.mapError (.run (Away.stable hm) (fun _ _ _ h _ => Away.inert Spared.allowsIdle _ _ _ _ h) ?_))
    fun file => .assuming fun hfile => .exists_pre fun len => ?_
  · intro steps fs h
    rw [h.quarantine.openWriteNofollow h.held]
    exact ⟨rfl, _, { Away.inert Spared.allowsIdle _ _ _ _ h with
      length := rfl
      progress := ⟨steps, _, [], rfl, ⟨rfl, h.isFile.2 rfl, rfl⟩, trivial⟩ }⟩
  subst hfile
  refine .bind (Ψ := fun metadata steps fs => metadata.len = len ∧ Held i base p e m d a b k len
      (Since (QuarantinedFile.hidden p a b).quarantine k len fun _ => True) steps fs)
    (.mapError (.run (Held.stable hm) (fun _ _ _ h _ => haway _ _ (Held.inert (hopened len) _ _ _ _ h))
      fun _ _ h => ⟨h.length, Held.inert (hopened len) _ _ _ _ h⟩))
    fun metadata => .assuming fun hlen => ?_
  refine .bind (.mapError ((Held.looks hm (hopened len) (duplicate_looks _)).post (fun _ _ _ => id)
    fun _ => haway)) fun _ => ?_
  refine .bind (.mapError (((Held.looks hm (hopened len) (handleFromFile_looks _)).result
    fun w handle w' _ h => handleFromFile_eq_ok h).post (fun _ _ _ => id) fun _ => haway))
    fun handle => .assuming fun hhandle => ?_
  subst hhandle
  refine .ite (fun _ => .fail haway) fun hexpected => ?_
  obtain rfl : k = i := by simpa using hexpected
  refine .bind (Ψ := fun links => Held k base p e m d a b k len fun steps =>
      (links = 1 → Single k steps) ∧
        Since (QuarantinedFile.hidden p a b).quarantine k len (fun _ => True) steps)
    (.mapError (.run (Held.stable hm) (fun _ _ _ h _ => haway _ _ (Held.inert (hopened len) _ _ _ _ h))
      fun steps fs h => ?_)) fun links => .ite (fun _ => .fail haway) fun hone => ?_
  · refine { Held.inert (hopened len) _ _ _ _ h with
      progress := ⟨fun hlinks => ?_, (hopened len) _ _ h.progress⟩ }
    exact ⟨_, List.mem_append_right _ (List.mem_singleton_self _), rfl, rfl, hlinks⟩
  rw [hlen]
  refine .bind ((Held.passes_runs hm).pre fun _ _ h => { h with
    progress := ⟨h.progress.1 (not_not.1 hone), h.progress.2⟩ }) fun _ => ?_
  have herased : Lasting (Erased (QuarantinedFile.hidden p a b).quarantine k 3) :=
    fun _ _ h => h.concat
  have hlooks {α : Type} {n : FsM α} (h : Looks env n) :
      Runs (Held k base p e m d a b k len (Erased (QuarantinedFile.hidden p a b).quarantine k 3)) n
        (fun _ => Held k base p e m d a b k len
          (Erased (QuarantinedFile.hidden p a b).quarantine k 3))
        fun _ => Away (Spared p k) base p e m d a b k (some (.file k)) :=
    (Held.looks hm herased h).post (fun _ _ _ => id) fun _ => haway
  refine .bind (hlooks (symlinkMetadata_looks _)) fun r => ?_
  cases r with
  | error e => exact .fail haway
  | ok final =>
    refine .bind (.mapError (hlooks (rejectLink_looks _ _))) fun _ =>
      .bind (.mapError (hlooks (pathMatchesOpenFile_looks _ _))) fun same => ?_
    exact .ite (fun _ => .pure fun _ _ h => ⟨rfl, h.progress, h.toAway⟩) fun _ => .fail haway

/-! ## Restoring and removing -/

/-- The calls have spared all files but `i`, and those that were moved away have
returned. -/
def Done (p : Path) (i : Nat) : Assertion := fun steps fs => Each (Spared p i) steps ∧ Returns p i steps fs

/-- A call that blocks the way back leaves the file where it is. -/
theorem done_of_blocked {h : Option Node} (ha : Away (Spared p i) base p e m d a b k h steps fs)
    (hk : k ≠ i → h = some (.file k))
    (ha' : Away (Spared p i) base p e m d a b k h (steps ++ [s]) fs') (hs : ∀ q i, ¬s.Takes p q i)
    (hblocks : k ≠ i → s.Blocks p (QuarantinedFile.hidden p a b).quarantine) :
    Done p i (steps ++ [s]) fs' := by
  refine ⟨ha'.each, fun front t back hsteps q k' ht => ?_⟩
  refine ha.after (R := fun q k back => k ≠ i → Returned p q k back fs') hs (fun back hne => ?_)
    front t back hsteps q k' ht
  exact .inr ⟨ha'.isFile.2 (hk hne), s, List.mem_append_right _ (List.mem_singleton_self s), hblocks hne⟩

/-- After the restoring, what was moved away is back unless that was blocked. -/
theorem restore_runs (hm : env.Meddles base.temporary) {h : Option Node}
    (hh : ∀ x, h = some x → x = .file k) (hk : k ≠ i → h = some (.file k)) :
    Runs (Away (Spared p i) base p e m d a b k h) ((QuarantinedFile.hidden p a b).restore env)
      (fun _ => Done p i) fun _ => Done p i := by
  have hstill {call : Call} {fault : Option IoError} {steps : List Step} {fs : Fs}
      (ha : Away (Spared p i) base p e m d a b k h steps fs)
      (hblocks : k ≠ i → Step.Blocks ⟨call, fault, fs, fs⟩ p (QuarantinedFile.hidden p a b).quarantine) :
      Done p i (steps ++ [⟨call, fault, fs, fs⟩]) fs :=
    done_of_blocked ha hk (Away.inert Spared.allowsIdle _ _ _ _ ha) (fun _ _ => not_takes_same rfl) hblocks
  have htaken {steps : List Step} {fs : Fs} {x : Node}
      (ha : Away (Spared p i) base p e m d a b k h steps fs)
      (hx : fs.nodeAt (fs.entryLoc e m) = some x) : ∃ j, fs.IsFile p j := by
    obtain ⟨j, rfl⟩ := ha.ordinary x hx
    exact ⟨j, ha.source.isFile.2 hx⟩
  let Ω (there : Bool) : Assertion := cond there (Done p i) (Away (Spared p i) base p e m d a b k h)
  refine .bind (Ψ := Ω) (.bind (Ψ := fun r => Ω r.isOk) (.try_ (Away.stable hm) ?_ ?_)
    fun r => .pure fun _ _ => id) fun there => ?_
  · exact fun _ _ _ ha _ => Away.inert Spared.allowsIdle _ _ _ _ ha
  · intro steps fs ha
    change Ω (fs.metadata p).1.isOk (steps ++ [⟨.metadata p, none, fs, (fs.metadata p).2⟩])
      (fs.metadata p).2
    rcases hx : fs.nodeAt (fs.entryLoc e m) with _ | x
    · rw [ha.source.metadata_none hx]
      exact Away.inert Spared.allowsIdle _ _ _ _ ha
    · obtain ⟨j, hj⟩ := htaken ha hx
      rw [ha.source.metadata_file (ha.source.isFile.1 hj)]
      exact hstill ha fun _ => .inr ⟨j, hj⟩
  cases there with
  | true => exact .pure fun _ _ => id
  | false =>
    refine .bind (Ψ := fun _ => Done p i) (.attempt ?_) fun _ => .pure fun _ _ => id
    refine installTemp_runs (d := d) (n := tempName a b) (i := k) (Away.stable hm)
      (fun _ _ ha => ha.quarantine) (fun steps fs ha => ?_) (fun _ _ ha => ha.source) ?_ ?_ ?_
    · rcases hheld : h with _ | x
      · exact .inl (ha.held.trans hheld)
      · exact .inr (ha.held.trans (hheld.trans (by rw [hh x hheld])))
    · exact fun steps fs fault ha _ => hstill ha fun _ => .inl ⟨rfl, Option.some_ne_none _⟩
    · rintro steps fs ha (hnone | ⟨x, hx⟩)
      · refine hstill ha fun hne => ?_
        rw [ha.held, hk hne] at hnone
        cases hnone
      · exact hstill ha fun _ => .inr (htaken ha hx)
    · intro steps fs ha hheld hfree
      obtain ⟨hkeeps, hback, hnodes⟩ := ha.back (ha.held.symm.trans hheld) hfree
      have hnot (q : Path) (j : Nat) : ¬Step.Takes ⟨.rename (QuarantinedFile.hidden p a b).quarantine p,
          none, fs, fs.move (fs.entryLoc d (tempName a b)) (fs.loc e) m⟩ p q j :=
        not_takes_install (ha.quarantine.resolve (.inl rfl)) ((Fs.node_concat ..).trans hheld)
          (ha.source.resolve (.inl rfl)) hfree
      refine ⟨each_concat.2 ⟨ha.each, .unaltering (fun _ _ => ?_) ?_ ?_⟩, ?_⟩
      · exact congrFun Fs.move_content _
      · exact fun q j hj => absurd hj (hnot q j)
      · intro t ht q j hj _ _
        obtain ⟨-, rfl⟩ := ha.taken t ht q j hj
        exact .inl hback
      · refine ha.after (R := fun q j back => j ≠ i → Returned p q j back _) hnot fun back _ => ?_
        exact .inl ⟨_, List.mem_append_right _ (List.mem_singleton_self _), rfl, hback⟩

/-- What has been erased is removed. -/
theorem remove_runs (hm : env.Meddles base.temporary) :
    Runs (fun steps fs => Erased (QuarantinedFile.hidden p a b).quarantine i 3 steps ∧
        Away (Spared p i) base p e m d a b i (some (.file i)) steps fs)
      ((QuarantinedFile.hidden p a b).remove env)
      (fun _ steps fs => Shredded i steps ∧ Done p i steps fs) fun _ => Done p i := by
  -- whether or not its name is gone, nothing but the file itself is away
  let Θ : Assertion := fun steps fs => ∃ h, (∀ x, h = some x → x = .file i) ∧
    Away (Spared p i) base p e m d a b i h steps fs
  refine .onError (Θ := fun _ => Θ) (.bind (Ψ := fun _ steps fs => Shredded i steps ∧
    Away (Spared p i) base p e m d a b i none steps fs) (.bind (removeFile_cases
      (Ψ := Assertion.either (fun _ steps fs => Shredded i steps ∧
        Away (Spared p i) base p e m d a b i none steps fs) fun _ => Θ)
      ?_ ?_ ?_) fun r => ?_) fun _ => ?_) fun _ => ?_
  · exact fun n steps fs h => ⟨h.1, Away.stable hm n steps fs h.2⟩
  · exact fun steps fs _ fault h => ⟨_, fun x hx => (Option.some.inj hx).symm,
      Away.inert Spared.allowsIdle _ _ _ _ h.2⟩
  · rintro steps fs names x ⟨herased, ha⟩ hr hx hdir
    rw [ha.quarantine.resolve (.inl rfl)] at hr
    cases hr
    have hne := Fs.entryLoc_ne_nil fs d (tempName a b)
    have hkeeps := Fs.erase_keeps hne ha.held
    have hnodes := @Fs.erase_nodeAt fs _ hne
    have hgone : Away (Spared p i) base p e m d a b i none (steps ++ [⟨.removeFile
        (QuarantinedFile.hidden p a b).quarantine, none, fs, fs.erase (fs.entryLoc d (tempName a b))⟩])
        (fs.erase (fs.entryLoc d (tempName a b))) := by
      refine ha.step hkeeps (.unaltering (fun _ _ => rfl) (fun _ _ ht => by cases ht.1) ?_)
        (fun _ _ ht => by cases ht.1)
        (fun y hy => ?_) ?_
      · intro t ht q k hk hne _
        exact absurd (ha.taken t ht q k hk).2 hne
      · rw [hnodes, Function.update_of_ne ha.apart] at hy
        exact ha.ordinary y hy
      · rw [hnodes, Function.update_self]
    refine ⟨⟨_, steps, _, [], rfl, herased, rfl, ha.isFile.2 rfl, ?_⟩, hgone⟩
    exact fun hfile => by cases hgone.isFile.1 hfile
  · cases r with
    | ok _ => exact .pure fun _ _ => id
    | error e => exact .fail fun _ _ => id
  · refine ((syncParent_looks _).runs (Φ := fun steps fs => Shredded i steps ∧
      Away (Spared p i) base p e m d a b i none steps fs) ?_ ?_).post ?_ ?_
    · exact fun n steps fs h => ⟨h.1, Away.stable hm n steps fs h.2⟩
    · exact fun steps fs call fault _ h => ⟨h.1.concat, Away.inert Spared.allowsIdle _ _ _ _ h.2⟩
    · exact fun _ steps fs h => ⟨h.1, h.2.each, fun front t back hsteps q k hk hne => absurd
        (h.2.taken t (by rw [hsteps]; simp) q k hk).2 hne⟩
    · exact fun _ _ _ h => ⟨none, by simp, h.2⟩
  · exact .exists_pre fun h => .assuming fun hh => restore_runs hm hh fun hne => absurd rfl hne

/-! ## Whole runs -/

theorem Started.done {seen : Prop} (h : Started (Spared p i) base p seen steps fs) : Done p i steps fs :=
  ⟨h.each, fun front t back hsteps q k hk => absurd hk (h.untaken t (by rw [hsteps]; simp) q k)⟩

/-- Only a regular file at the path passes for a source. -/
theorem verifiedSourceFile_runs (hm : env.Meddles base.temporary) :
    Runs (Started (Spared p i) base p False) (verifiedSourceFile env p)
      (fun _ => Started (Spared p i) base p True) fun _ => Done p i := by
  have hlooks {α : Type} {n : FsM α} {seen : Prop} (h : Looks env n) :
      Runs (Started (Spared p i) base p seen) n (fun _ => Started (Spared p i) base p seen)
        fun _ => Done p i :=
    (h.runs (Started.stable hm) (Started.inert Spared.allowsIdle).idle).post (fun _ _ _ => id)
      fun _ _ _ => Started.done
  refine .bind (Ψ := fun _ => Started (Spared p i) base p True)
    (.bind (Started.look_runs hm Spared.allowsIdle) fun r => ?_) fun _ => ?_
  · cases r with
    | error e => exact .fail fun _ _ => Started.done
    | ok metadata =>
      refine .bind (hlooks (rejectLink_looks _ _)) fun _ => .ite (fun _ => .fail fun _ _ => Started.done)
        fun hfile => .pure fun _ _ h => ?_
      exact { h with seen := fun _ => h.seen (Bool.eq_true_of_not_eq_false hfile) }
  · refine .bind (hlooks (.run rfl look_snd)) fun file => .bind (hlooks (stat_looks _)) fun metadata =>
      .bind (hlooks (rejectLink_looks _ _)) fun _ => ?_
    cases file with
    | file j =>
      refine .bind (hlooks (pathMatchesOpenFile_looks _ _)) fun same => ?_
      exact .ite (fun _ => .pure fun _ _ => id) fun _ => .fail fun _ _ => Started.done
    | _ => exact .fail fun _ _ => Started.done

theorem shredding_runs (hm : env.Meddles base.temporary) :
    Runs (Started (Spared p i) base p False) (secureDeleteInner env p (some (.file i)))
      (fun _ steps fs => Shredded i steps ∧ Done p i steps fs) fun _ => Done p i := by
  refine .bind (.mapError (verifiedSourceFile_runs hm)) fun source => ?_
  refine .bind (.mapError ((((handleFromFile_looks _).runs (Started.stable hm)
    (Started.inert Spared.allowsIdle).idle).result fun w handle w' _ h => handleFromFile_eq_ok h).post
      (fun _ _ _ => id) fun _ _ _ => Started.done)) fun handle => .assuming fun hhandle => ?_
  refine .ite (fun _ => .fail fun _ _ => Started.done) fun hsame => ?_
  have hexpected : handle = .file i := by
    by_contra hne
    exact hsame ⟨rfl, fun heq => hne (Option.some.inj heq).symm⟩
  rw [hexpected]
  refine .bind (Ψ := fun quarantine steps fs => ∃ a b e m d k, quarantine = QuarantinedFile.hidden p a b ∧
      Away (Spared p i) base p e m d a b k (some (.file k)) steps fs)
    (.mapError ((quarantine_cases (Started.stable hm)
      (fun _ _ _ _ h => Started.inert Spared.allowsIdle _ _ _ _ h) ?_).post (fun _ _ _ => id)
      fun _ _ _ => Started.done)) fun quarantine => ?_
  · intro steps fs a b names d n x h hsrc hx hdir hdst hfree
    obtain ⟨names', hr, hordinary, -⟩ := h.seen trivial
    rw [hsrc] at hr
    cases hr
    have hspared : Spared p i steps ⟨.rename p (QuarantinedFile.hidden p a b).quarantine, none, fs,
        fs.move (fs.loc names) (fs.loc d) n⟩ := by
      refine .unaltering (fun _ _ => congrFun Fs.move_content _) ?_ ?_
      · rintro q j ⟨hcall, ⟨names', hr, hfile⟩, -⟩
        rw [hsrc] at hr
        cases hr
        cases hcall
        exact Fs.move_isFile hfile hdst hfree
      · exact fun t ht q j hj => absurd hj (h.untaken t ht q j)
    obtain ⟨e, m, k, -, -, -, haway⟩ := Away.start h.keeps h.each h.untaken hsrc hordinary hx hdir hdst
      hfree fun _ _ => hspared
    exact ⟨a, b, e, m, d, k, rfl, haway⟩
  · refine .exists_pre fun a => .exists_pre fun b => .exists_pre fun e => .exists_pre fun m =>
      .exists_pre fun d => .exists_pre fun k => .assuming fun hquarantine => ?_
    subst hquarantine
    refine .bind (.onError (overwrite_runs hm) fun _ =>
      restore_runs hm (fun x hx => (Option.some.inj hx).symm) fun _ => rfl) fun _ => ?_
    exact .assuming fun hk => .mapError (remove_runs hm)

end

end Shred

end Ironlock
