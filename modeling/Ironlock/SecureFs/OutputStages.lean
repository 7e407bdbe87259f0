import Ironlock.SecureFs.OutputFacts

/-! The stages an output goes through from the making of its temporary file to
its installation, and how each step leads from one to the next. -/

namespace Ironlock
open ByteOrder (Bytes)
open Fs (Identity)

/-- What an output that has been opened knows of the state `base` just before
its temporary file was made. -/
structure AtomicOutput.Ready (o : AtomicOutput) (base : Fs) (d : List Name) (a b : UInt64) : Prop where
  parent : base.Plain o.destination.parentOrHere d
  parent_ne : o.destination.parentOrHere ≠ .empty
  tempPath : o.tempPath = o.destination.parentOrHere.push (.name (tempName a b))
  absent : base.nodeAt (base.entryLoc d (tempName a b)) = none
  file : o.file = base.nextInode
  observed : ∀ handle, o.observedDestination = some handle → ∃ n j, base.At o.destination d n ∧
    handle = .file j ∧ base.nodeAt (base.entryLoc d n) = some (.file j)

/-! ## Places -/

/-- The temporary file is there. -/
def Fs.written (base : Fs) (temp : Loc) (i : Nat) : Loc → Option Node :=
  Function.update base.nodeAt temp (some (.file i))

/-- So is the temporary file, and the destination is in quarantine. -/
def Fs.moved (base : Fs) (temp quarantine dest : Loc) (i j : Nat) : Loc → Option Node :=
  Function.update (Function.update (base.written temp i) quarantine (some (.file j))) dest none

/-- The new file is at the destination, and the old one in quarantine. -/
def Fs.swapped (base : Fs) (quarantine dest : Loc) (i j : Nat) : Loc → Option Node :=
  Function.update (Function.update base.nodeAt quarantine (some (.file j))) dest (some (.file i))

/-- The new file is at the destination. -/
def Fs.installed (base : Fs) (dest : Loc) (i : Nat) : Loc → Option Node :=
  Function.update base.nodeAt dest (some (.file i))

section
variable {base : Fs} {temp quarantine dest : Loc} {i j : Nat}

theorem Fs.written_undo (ht : base.nodeAt temp = none) :
    Function.update (base.written temp i) temp none = base.nodeAt := by
  funext l
  by_cases hl : l = temp <;> simp_all [Fs.written, Function.update]

theorem Fs.written_install (ht : base.nodeAt temp = none) (hne : temp ≠ dest) :
    Function.update (Function.update (base.written temp i) dest (some (.file i))) temp none =
      base.installed dest i := by
  funext l
  by_cases hl : l = temp <;> simp_all [Fs.written, Fs.installed, Function.update]

theorem Fs.moved_restore (hd : base.nodeAt dest = some (.file j))
    (hq : base.written temp i quarantine = none) (ht : temp ≠ dest) :
    Function.update (Function.update (base.moved temp quarantine dest i j) dest (some (.file j)))
      quarantine none = base.written temp i := by
  funext l
  by_cases hlq : l = quarantine
  · subst hlq; simp [hq]
  · by_cases hld : l = dest <;> simp_all [Fs.moved, Fs.written, Function.update]
    rintro rfl; exact absurd rfl ht

theorem Fs.moved_install (ht : base.nodeAt temp = none) (hne : temp ≠ dest)
    (hq : temp ≠ quarantine) :
    Function.update (Function.update (base.moved temp quarantine dest i j) dest (some (.file i)))
      temp none = base.swapped quarantine dest i j := by
  funext l
  by_cases hl : l = temp <;> by_cases hd : l = dest <;>
    simp_all [Fs.moved, Fs.swapped, Fs.written, Function.update]

theorem Fs.swapped_remove (hq : base.nodeAt quarantine = none) (hne : quarantine ≠ dest) :
    Function.update (base.swapped quarantine dest i j) quarantine none = base.installed dest i := by
  funext l
  by_cases hl : l = quarantine <;> simp_all [Fs.swapped, Fs.installed, Function.update]

end

namespace AtomicOutput

/-- The temporary file holds `c`, and nothing else has changed. -/
def Written (o : AtomicOutput) (base : Fs) (d : List Name) (a b : UInt64) (c : Bytes) : Fs → Prop :=
  Over base c (base.written (base.entryLoc d (tempName a b)) o.file)

/-- The old destination is in quarantine under another temporary name. -/
def Moved (o : AtomicOutput) (base : Fs) (d : List Name) (a b : UInt64) (n : Name) (j : Nat)
    (c : Bytes) (a' b' : UInt64) : Fs → Prop :=
  Over base c (base.moved (base.entryLoc d (tempName a b)) (base.entryLoc d (tempName a' b'))
    (base.entryLoc d n) o.file j)

/-- There it still is when the new file is at the destination. -/
def Swapped (o : AtomicOutput) (base : Fs) (d : List Name) (n : Name) (j : Nat) (c : Bytes)
    (a' b' : UInt64) : Fs → Prop :=
  Over base c (base.swapped (base.entryLoc d (tempName a' b')) (base.entryLoc d n) o.file j)

/-- The new file is at the destination, and nothing else has changed. -/
def Installed (o : AtomicOutput) (base : Fs) (d : List Name) (n : Name) (c : Bytes) : Fs → Prop :=
  Over base c (base.installed (base.entryLoc d n) o.file)

/-- Nothing has changed. -/
def Undone (base : Fs) (c : Bytes) : Fs → Prop := Over base c base.nodeAt

/-- The quarantine of the destination under this temporary name. -/
def quarantined (o : AtomicOutput) (a' b' : UInt64) : QuarantinedFile :=
  ⟨o.destination, o.destination.parentOrHere.push (.name (tempName a' b'))⟩

/-- A temporary name that is free while the temporary file is there. -/
def Free (o : AtomicOutput) (base : Fs) (d : List Name) (a b a' b' : UInt64) : Prop :=
  base.written (base.entryLoc d (tempName a b)) o.file (base.entryLoc d (tempName a' b')) = none

section
variable {o : AtomicOutput} {base fs : Fs} {d : List Name} {a b a' b' : UInt64} {n : Name}
  {c : Bytes} {j : Nat}

theorem Free.absent (h : o.Free base d a b a' b') :
    base.nodeAt (base.entryLoc d (tempName a' b')) = none := by
  by_cases heq : base.entryLoc d (tempName a' b') = base.entryLoc d (tempName a b)
  · rw [Free, heq, Fs.written, Function.update_self] at h; cases h
  · rwa [Free, Fs.written, Function.update_of_ne heq] at h

theorem Free.ne_temp (h : o.Free base d a b a' b') :
    base.entryLoc d (tempName a b) ≠ base.entryLoc d (tempName a' b') := by
  intro heq
  rw [Free, ← heq, Fs.written, Function.update_self] at h; cases h

theorem Free.ne_dest (h : o.Free base d a b a' b')
    (hold : base.nodeAt (base.entryLoc d n) = some (.file j)) :
    base.entryLoc d (tempName a' b') ≠ base.entryLoc d n := by
  intro heq
  have := h.absent
  rw [heq, hold] at this; cases this

namespace Ready

variable (h : o.Ready base d a b)
include h

theorem temp_at (hk : base.Keeps fs) : fs.At o.tempPath d (tempName a b) := by
  rw [h.tempPath]
  exact (h.parent.keep hk).at_push (tempName_nul a b)

/-- Another temporary name beside the destination. -/
theorem quarantine_at (hk : base.Keeps fs) (a' b' : UInt64) :
    fs.At (o.quarantined a' b').quarantine d (tempName a' b') :=
  (h.parent.keep hk).at_push (tempName_nul a' b')

theorem ne_dest (hold : base.nodeAt (base.entryLoc d n) = some (.file j)) :
    base.entryLoc d (tempName a b) ≠ base.entryLoc d n := by
  intro heq
  have := h.absent
  rw [heq, hold] at this; cases this

/-! ## Steps between stages -/

theorem written_old (hold : base.nodeAt (base.entryLoc d n) = some (.file j))
    (hw : o.Written base d a b c fs) : fs.nodeAt (fs.entryLoc d n) = some (.file j) := by
  rw [hw.nodeAt, hw.entryLoc, Fs.written, Function.update_of_ne (h.ne_dest hold).symm, hold]

omit h in
theorem written_temp (hw : o.Written base d a b c fs) :
    fs.nodeAt (fs.entryLoc d (tempName a b)) = some (.file o.file) := by
  rw [hw.nodeAt, hw.entryLoc, Fs.written, Function.update_self]

theorem written_drop (hw : o.Written base d a b c fs) :
    Undone base c (fs.erase (fs.entryLoc d (tempName a b))) :=
  (hw.erase (Function.update_self ..)).congr (Fs.written_undo h.absent)

theorem written_install (hw : o.Written base d a b c fs)
    (hnone : fs.nodeAt (fs.entryLoc d n) = none) :
    o.Installed base d n c (fs.move (fs.entryLoc d (tempName a b)) (fs.loc d) n) := by
  have hne : base.entryLoc d (tempName a b) ≠ base.entryLoc d n := by
    intro heq
    have := written_temp hw
    rw [hw.entryLoc, heq, ← hw.entryLoc, hnone] at this; cases this
  rw [hw.nodeAt, hw.entryLoc] at hnone
  exact (hw.move (Function.update_self ..) hnone).congr (Fs.written_install h.absent hne)

theorem written_quarantine (hold : base.nodeAt (base.entryLoc d n) = some (.file j))
    (hw : o.Written base d a b c fs) (hnone : fs.nodeAt (fs.entryLoc d (tempName a' b')) = none) :
    o.Free base d a b a' b' ∧
      o.Moved base d a b n j c a' b' (fs.move (fs.entryLoc d n) (fs.loc d) (tempName a' b')) := by
  have hfile := h.written_old hold hw
  rw [hw.nodeAt, hw.entryLoc] at hnone hfile
  exact ⟨hnone, hw.move hfile hnone⟩

omit h in
theorem moved_old (hf : o.Free base d a b a' b')
    (hold : base.nodeAt (base.entryLoc d n) = some (.file j))
    (hm : o.Moved base d a b n j c a' b' fs) :
    fs.nodeAt (fs.entryLoc d (tempName a' b')) = some (.file j) := by
  rw [hm.nodeAt, hm.entryLoc, Fs.moved, Function.update_of_ne (hf.ne_dest hold),
    Function.update_self]

theorem moved_temp (hf : o.Free base d a b a' b')
    (hold : base.nodeAt (base.entryLoc d n) = some (.file j))
    (hm : o.Moved base d a b n j c a' b' fs) :
    fs.nodeAt (fs.entryLoc d (tempName a b)) = some (.file o.file) := by
  rw [hm.nodeAt, hm.entryLoc, Fs.moved, Function.update_of_ne (h.ne_dest hold),
    Function.update_of_ne hf.ne_temp, Fs.written, Function.update_self]

omit h in
theorem moved_dest (hm : o.Moved base d a b n j c a' b' fs) :
    fs.nodeAt (fs.entryLoc d n) = none := by
  rw [hm.nodeAt, hm.entryLoc, Fs.moved, Function.update_self]

theorem moved_install (hf : o.Free base d a b a' b')
    (hold : base.nodeAt (base.entryLoc d n) = some (.file j))
    (hm : o.Moved base d a b n j c a' b' fs) :
    o.Swapped base d n j c a' b' (fs.move (fs.entryLoc d (tempName a b)) (fs.loc d) n) := by
  have htemp := h.moved_temp hf hold hm
  have hdest := moved_dest hm
  rw [hm.nodeAt, hm.entryLoc] at htemp hdest
  exact (hm.move htemp hdest).congr (Fs.moved_install h.absent (h.ne_dest hold) hf.ne_temp)

theorem moved_restore (hf : o.Free base d a b a' b')
    (hold : base.nodeAt (base.entryLoc d n) = some (.file j))
    (hm : o.Moved base d a b n j c a' b' fs) :
    o.Written base d a b c (fs.move (fs.entryLoc d (tempName a' b')) (fs.loc d) n) := by
  have hfile := moved_old hf hold hm
  have hdest := moved_dest hm
  rw [hm.nodeAt, hm.entryLoc] at hfile hdest
  exact (hm.move hfile hdest).congr (Fs.moved_restore hold hf (h.ne_dest hold))

omit h in
theorem swapped_old (hf : o.Free base d a b a' b')
    (hold : base.nodeAt (base.entryLoc d n) = some (.file j))
    (hs : o.Swapped base d n j c a' b' fs) :
    fs.nodeAt (fs.entryLoc d (tempName a' b')) = some (.file j) := by
  rw [hs.nodeAt, hs.entryLoc, Fs.swapped, Function.update_of_ne (hf.ne_dest hold),
    Function.update_self]

omit h in
theorem swapped_dest (hs : o.Swapped base d n j c a' b' fs) :
    fs.nodeAt (fs.entryLoc d n) = some (.file o.file) := by
  rw [hs.nodeAt, hs.entryLoc, Fs.swapped, Function.update_self]

theorem swapped_temp (hf : o.Free base d a b a' b')
    (hold : base.nodeAt (base.entryLoc d n) = some (.file j))
    (hs : o.Swapped base d n j c a' b' fs) :
    fs.nodeAt (fs.entryLoc d (tempName a b)) = none := by
  rw [hs.nodeAt, hs.entryLoc, Fs.swapped, Function.update_of_ne (h.ne_dest hold),
    Function.update_of_ne hf.ne_temp, h.absent]

omit h in
theorem swapped_remove (hf : o.Free base d a b a' b')
    (hold : base.nodeAt (base.entryLoc d n) = some (.file j))
    (hs : o.Swapped base d n j c a' b' fs) :
    o.Installed base d n c (fs.erase (fs.entryLoc d (tempName a' b'))) := by
  have hfile := swapped_old hf hold hs
  rw [hs.nodeAt, hs.entryLoc] at hfile
  exact (hs.erase hfile).congr (Fs.swapped_remove hf.absent (hf.ne_dest hold))

omit h in
theorem installed_dest (hi : o.Installed base d n c fs) :
    fs.nodeAt (fs.entryLoc d n) = some (.file o.file) := by
  rw [hi.nodeAt, hi.entryLoc, Fs.installed, Function.update_self]

end Ready

end

end AtomicOutput

end Ironlock
