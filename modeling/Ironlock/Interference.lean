import Ironlock.SecureFs.OutputFacts

/-! Other processes that act while the program runs: what they may do to the
file system, and what the program can rely on all the same. -/

namespace Ironlock
open ByteOrder (Bytes)
open Effect
open Fs (Identity Metadata SysCall)

namespace Fs

/-- Nothing is at the place, or a regular file. -/
def Ordinary (fs : Fs) (l : Loc) : Prop := ∀ x, fs.nodeAt l = some x → ∃ i, x = .file i

/-- The places of the random temporary names. -/
def temporary (fs : Fs) : Set Loc := {l | ∃ d a b, l = fs.entryLoc d (tempName a b)}

/-- Regular files are made, removed, renamed, replaced and written to by others,
but what is at the places of `T` is left alone. -/
structure Meddled (T : Set Loc) (fs fs' : Fs) : Prop where
  fold : fs'.fold = fs.fold
  cwd : fs'.cwd = fs.cwd
  nextInode : fs.nextInode ≤ fs'.nextInode
  nodes : ∀ l, fs'.nodeAt l = fs.nodeAt l ∨ l ∉ T ∧ fs.Ordinary l ∧ fs'.Ordinary l
  content : ∀ l i, l ∈ T → fs.nodeAt l = some (.file i) → fs'.content i = fs.content i

section
variable {T : Set Loc} {fs fs' base : Fs} {l : Loc}

theorem Meddled.refl (T : Set Loc) (fs : Fs) : fs.Meddled T fs :=
  ⟨rfl, rfl, le_refl _, fun _ => .inl rfl, fun _ _ _ _ => rfl⟩

theorem Meddled.keeps (h : fs.Meddled T fs') : fs.Keeps fs' where
  fold := h.fold
  cwd := h.cwd
  dirs l hl := by
    rcases h.nodes l with hsame | ⟨-, hold, -⟩
    · rw [hsame, hl]
    · obtain ⟨i, hi⟩ := hold _ hl
      cases hi
  links l t := by
    rcases h.nodes l with hsame | ⟨-, hold, hnew⟩
    · rw [hsame]
    · constructor <;> intro hl
      · obtain ⟨i, hi⟩ := hold _ hl
        cases hi
      · obtain ⟨i, hi⟩ := hnew _ hl
        cases hi

theorem Meddled.temporary (h : fs.Meddled T fs') (hl : l ∈ T) : fs'.nodeAt l = fs.nodeAt l := by
  rcases h.nodes l with hsame | ⟨hno, -⟩
  · exact hsame
  · exact absurd hl hno

theorem Meddled.ordinary (h : fs.Meddled T fs') (hl : fs.Ordinary l) : fs'.Ordinary l := by
  rcases h.nodes l with hsame | ⟨-, -, hnew⟩
  · intro x hx
    exact hl x (hsame ▸ hx)
  · exact hnew

theorem Keeps.temporary (h : base.Keeps fs) (d : List Name) (a b : UInt64) :
    fs.entryLoc d (tempName a b) ∈ base.temporary := ⟨d, a, b, h.entryLoc d _⟩

end

end Fs

/-- Whatever the other processes do, it is of this kind. -/
def Env.Meddles (env : Env) (T : Set Loc) : Prop := ∀ n (fs : Fs), fs.Meddled T (env.others n fs)

/-! ## Properties of each call -/

/-- Each call was as `P` says, which may speak of the calls before it. -/
def Each (P : List Step → Step → Prop) (steps : List Step) : Prop :=
  ∀ front s back, steps = front ++ s :: back → P front s

section
variable {P : List Step → Step → Prop} {steps : List Step} {s : Step}

theorem each_nil : Each P [] := by
  intro front s back h
  simp at h

theorem each_concat : Each P (steps ++ [s]) ↔ Each P steps ∧ P steps s := by
  constructor
  · intro h
    refine ⟨fun front t back hsteps => h front t (back ++ [s]) ?_, h steps s [] rfl⟩
    rw [hsteps, List.append_assoc, List.cons_append]
  · rintro ⟨h, hs⟩ front t back hsteps
    rcases List.eq_nil_or_concat back with rfl | ⟨back', u, rfl⟩
    · obtain ⟨rfl, ht⟩ := List.append_inj' hsteps rfl
      cases ht
      exact hs
    · rw [List.concat_eq_append, ← List.cons_append, ← List.append_assoc] at hsteps
      exact h front t back' (List.append_inj' hsteps rfl).1

end

/-- What holds is not undone by a call that did nothing. -/
def Inert (Φ : Assertion) : Prop := ∀ steps fs call fault, Φ steps fs →
  Φ (steps ++ [⟨call, fault, fs, fs⟩]) fs

theorem Inert.idle {Φ : Assertion} (h : Inert Φ) : Idle Φ :=
  fun steps fs call fault _ => h steps fs call fault

/-! ## Rules -/

section
variable {env : Env} {Φ : Assertion}

/-- Making sure of a directory makes directories at most. -/
theorem ensureSafeDirectory_keeps (hs : env.Stable Φ) (hinert : Inert Φ)
    (hmkdir : ∀ steps fs p d n, Φ steps fs → fs.nodeAt (fs.entryLoc d n) = none →
      Φ (steps ++ [⟨.createDir p, none, fs, fs.mkdir (fs.loc d) n⟩]) (fs.mkdir (fs.loc d) n))
    (p : Path) : Runs Φ (ensureSafeDirectory env p) (fun _ => Φ) fun _ => Φ := by
  have hcreate (q : Path) : Runs Φ (Sys.try_ env (.createDir q) (Fs.createDir q)) (fun _ => Φ)
      fun _ => Φ := by
    refine .try_ hs (fun _ _ _ hΦ _ => hinert _ _ _ _ hΦ) fun steps fs hΦ => ?_
    rcases Fs.make_cases q (fun fs d n => ((), fs.mkdir d n)) fs with ⟨e, he⟩ | ⟨d, n, -, hnone, he⟩ <;>
      rw [Fs.createDir, he]
    · exact hinert _ _ _ _ hΦ
    · exact hmkdir _ _ _ _ _ hΦ hnone
  have hlook {q : Path} {next : Except IoError Metadata → FsM Unit}
      (hok : ∀ m, next (.ok m) = requireDirectory q m)
      (hnext : ∀ e, Runs Φ (next (.error e)) (fun _ => Φ) fun _ => Φ) :
      Runs Φ (Sys.symlinkMetadata env q >>= next) (fun _ => Φ) fun _ => Φ := by
    refine .bind ((symlinkMetadata_looks q).runs hs hinert.idle) fun r => ?_
    cases r with
    | ok m =>
      rw [hok]
      exact (requireDirectory_looks q m).runs hs hinert.idle
    | error e => exact hnext e
  have hdirectory (q : Path) : Runs Φ (ensureDirectory env q) (fun _ => Φ) fun _ => Φ := by
    refine hlook (fun _ => rfl) fun e => .ite (fun _ => ?_) fun _ => .fail fun _ _ => id
    have hagain {next : Except IoError Metadata → FsM Unit} (hok : ∀ m, next (.ok m) = requireDirectory q m)
        (herror : ∀ e, next (.error e) = Eff.fail (.ioError e)) :
        Runs Φ (Sys.symlinkMetadata env q >>= next) (fun _ => Φ) fun _ => Φ :=
      hlook hok fun e => herror e ▸ .fail fun _ _ => id
    refine .bind (hcreate q) fun r => ?_
    cases r with
    | ok _ => exact hagain (fun _ => rfl) fun _ => rfl
    | error e =>
      exact .ite (fun _ => hagain (fun _ => rfl) fun _ => rfl) fun _ =>
        .bind (.fail fun _ _ => id) fun _ => hagain (fun _ => rfl) fun _ => rfl
  have hcomponents (current : Path) (parts : List Part) :
      Runs Φ (ensureComponents env current parts) (fun _ => Φ) fun _ => Φ := by
    induction parts generalizing current with
    | nil => exact .pure fun _ _ => id
    | cons part parts ih => exact .bind (hdirectory _) fun _ => ih _
  exact .bind ((stdAbsolute_looks p).runs hs hinert.idle) fun a =>
    .bind (hdirectory _) fun _ => hcomponents _ _

end

end Ironlock
