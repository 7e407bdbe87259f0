import Ironlock.SecureFs.Keys
import Ironlock.Tree

/-! What the checks and looks of the program answer when no call fails and no
other process acts: a function of the file system alone. -/

namespace Ironlock
open ByteOrder (Bytes)
open Effect
open Fs (Identity Metadata SysCall)

/-- The file system and the number of draws made. -/
def World.seen (w : World) : Fs × Nat := (w.fs, w.draws)

/-- In the file system `fs`, after `k` draws, the program ends in `r` with the
same file system, after `k'` draws. -/
abbrev Answers {α : Type} (fs : Fs) (k : Nat) (m : FsM α) (r : Except IronlockError α) (k' : Nat) :
    Prop := Ends World.seen (fs, k) m r (fs, k')

section
variable {α : Type} {env : Env} {fs : Fs} {k : Nat} {p : Path} {d names : List Name} {n : Name} {x : Node}
  {i : Nat}

theorem try_answers (hq : env.Quiet) (hf : env.Faultless) {call : Call} {op : SysCall α}
    {r : Except IoError α} (hop : op fs = (r, fs)) : Answers fs k (Sys.try_ env call op) (.ok r) k := by
  rintro w hw
  obtain ⟨rfl, rfl⟩ := Prod.mk.inj hw
  simp only [Sys.try_, Sys.perform, Sys.outcome, hf w.calls, hq w.calls w.fs, hop, World.seen, and_self]

theorem run_answers (hq : env.Quiet) (hf : env.Faultless) {call : Call} {op : SysCall α} {a : α}
    (hop : op fs = (.ok a, fs)) : Answers fs k (Sys.run env call op) (.ok a) k :=
  .bind (try_answers hq hf hop) (.pure a)

theorem draw_answers (f : Nat → α) : Answers fs k (Sys.draw f) (.ok (f k)) (k + 1) := by
  rintro w hw
  obtain ⟨rfl, rfl⟩ := Prod.mk.inj hw
  exact ⟨rfl, rfl⟩

theorem handleFromPath_answers (hq : env.Quiet) (hf : env.Faultless) {handle : Identity}
    (hop : fs.openRead p = (.ok handle, fs)) : Answers fs k (Sys.handleFromPath env p) (.ok handle) k :=
  .bind (run_answers hq hf hop) (.bind (run_answers hq hf rfl) (.pure _))

theorem rejectLink_answers {m : Metadata} (h : m.isSymlink = false) :
    Answers fs k (rejectLinkOrReparse p m) (.ok ()) k := .ite_neg (by simp [h]) (.pure _)

/-! ## Keys -/

/-- What `normalized_path_key` makes of a path. -/
def Fs.pathKey (env : Env) (fs : Fs) (p : Path) : Except IoError Bytes := (fs.keyPath p).map (keyText env)

theorem closestAncestor_answers (hq : env.Quiet) (hf : env.Faultless) {rev missing : List Name} {q : Path}
    (h : fs.closest rev missing = .ok q) : Answers fs k (closestAncestor env p rev missing) (.ok q) k := by
  induction rev generalizing missing with
  | nil =>
    cases h
    have hroot : fs.canonicalize .root = (.ok (.absolute []), fs) :=
      fs.plain_root.canonicalize (by simp [Path.root, Path.empty])
    refine .bind (try_answers hq hf hroot) ?_
    have := Fs.foldl_push [] missing
    rw [List.nil_append] at this
    simp only [this]
    exact .pure _
  | cons n rev ih =>
    have hop : fs.canonicalize (.absolute (n :: rev).reverse) =
        ((fs.canonicalize (.absolute (n :: rev).reverse)).1, fs) := Prod.ext rfl (look_snd fs)
    refine .bind (try_answers hq hf hop) ?_
    rw [Fs.closest] at h
    rcases hr : (fs.canonicalize (.absolute (n :: rev).reverse)).1 with e | existing <;> rw [hr] at h
    · simp only at h ⊢
      split at h
      · exact .ite_pos ‹_› (ih h)
      · cases h
    · cases h
      exact .pure _

theorem normalizedPathKey_answers (hq : env.Quiet) (hf : env.Faultless) {key : Bytes}
    (h : fs.pathKey env p = .ok key) : Answers fs k (normalizedPathKey env p) (.ok key) k := by
  unfold Fs.pathKey Fs.keyPath at h
  rcases ha : absolute fs.cwd p with e | a <;> simp only [ha] at h
  · cases h
  · rcases hc : fs.closest (lexicalNames a).reverse [] with e | q <;> rw [hc] at h <;> cases h
    have habs : Answers fs k (stdAbsolute p) (.ok a) k := by
      rintro w hw
      obtain ⟨rfl, rfl⟩ := Prod.mk.inj hw
      simp only [stdAbsolute, ha, World.seen, and_self]
    exact .bind habs (.bind (closestAncestor_answers hq hf hc) (.pure _))

namespace Fs.Tree

/-- A name in a directory has its place for a key, whether or not it is there. -/
theorem keyPath (ht : fs.Tree) (h : fs.At p d n) : fs.keyPath p = .ok (.absolute (d ++ [n])) := by
  obtain ⟨q, -, rfl, hplain⟩ := h.parent
  rw [hplain.keyPath_eq, List.reverse_append, List.reverse_singleton, List.singleton_append,
    Fs.closest, List.reverse_cons, List.reverse_reverse]
  have hd : fs.nodeAt d = some .dir := by rw [← ht.node]; exact h.dirPath.node
  have hnul : n.bytes.contains 0 = false := by
    have := h.nul
    simp only [Path.hasNul, Path.push_parts, List.any_append, Bool.or_eq_false_iff] at this
    simpa using this.2
  have hat : fs.At (.absolute (d ++ [n])) d n := by
    rw [Fs.absolute_concat]
    exact (ht.plain hd).at_push hnul
  have hr : fs.resolve true (.absolute (d ++ [n])) = .ok (d ++ [n]) :=
    hat.resolve (.inr (ht.no_link _))
  rcases hx : fs.nodeAt (d ++ [n]) with _ | x
  · have hcanon : (fs.canonicalize (.absolute (d ++ [n]))).1 = .error (.os .notFound) := by
      simp only [Fs.canonicalize, look, hr, ht.node, hx]
    simp only [hcanon, IoError.os, if_true]
    cases d using List.reverseRecOn with
    | nil => rfl
    | append_singleton d m =>
      rw [List.reverse_append, List.reverse_singleton, List.singleton_append, Fs.closest,
        List.reverse_cons, List.reverse_reverse,
        (ht.plain hd).canonicalize (Fs.absolute_ne_empty _)]
      exact congrArg Except.ok (Fs.foldl_push _ _)
  · have hcanon : (fs.canonicalize (.absolute (d ++ [n]))).1 = .ok (.absolute (d ++ [n])) := by
      simp only [Fs.canonicalize, look, hr, ht.node, hx]
    simp only [hcanon, List.foldl_nil]

theorem pathKey (ht : fs.Tree) (h : fs.At p d n) :
    fs.pathKey env p = .ok (keyText env (.absolute (d ++ [n]))) := by
  rw [Fs.pathKey, ht.keyPath h]
  rfl

end Fs.Tree

end

end Ironlock
