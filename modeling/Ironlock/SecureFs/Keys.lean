import Ironlock.SecureFs.PathFacts

/-! What a path key is the text of: where the closest ancestor that can be
resolved leads, and the names after it. -/

namespace Ironlock
open ByteOrder (Bytes)
open Effect
open Fs (Identity Metadata SysCall)

/-- No call is made to fail as if its path were absent. -/
def Env.Honest (env : Env) : Prop := ∀ e, env.Fails e → e.kind ≠ .notFound

theorem Env.Faultless.honest {env : Env} (h : env.Faultless) : env.Honest :=
  fun e he => absurd he (h.not_fails e)

namespace Fs

/-- Where a chain of names, given last first, leads with the names after it. -/
def closest (fs : Fs) : List Name → List Name → Except IoError Path
  | [], missing => .ok (.absolute missing)
  | n :: rev, missing => match (fs.canonicalize (.absolute (n :: rev).reverse)).1 with
    | .ok existing => .ok (missing.foldl (fun q n => q.push (.name n)) existing)
    | .error e => if e.kind = .notFound then closest fs rev (n :: missing) else .error e

/-- The path whose text is the key of `p`. -/
def keyPath (fs : Fs) (p : Path) : Except IoError Path :=
  match absolute fs.cwd p with
  | .ok a => fs.closest (lexicalNames a).reverse []
  | .error e => .error e

section
variable {fs : Fs} {p q : Path} {d names : List Name} {n : Name}

theorem foldl_push (names missing : List Name) :
    missing.foldl (fun (q : Path) n => q.push (.name n)) (.absolute names) =
      .absolute (names ++ missing) := by
  induction missing generalizing names with
  | nil => simp
  | cons n missing ih =>
    have hpush : (Path.absolute names).push (.name n) = .absolute (names ++ [n]) := by
      simp [Path.absolute, Path.push]
    rw [List.foldl_cons, hpush, ih, List.append_assoc, List.singleton_append]

/-- The absolute form of a path has the names the path has from where it starts. -/
theorem absolute_lexical (fs : Fs) (hp : p ≠ .empty) :
    ∃ a, absolute fs.cwd p = .ok a ∧ lexicalNames a = lexicalFrom (fs.start p) p.parts := by
  unfold absolute
  rw [if_neg hp]
  split
  · exact ⟨p.parts, rfl, by simp [lexicalNames, Fs.start, *]⟩
  · refine ⟨_, rfl, ?_⟩
    simp only [lexicalNames, lexicalFrom_append, lexicalFrom_names, List.nil_append, Fs.start]
    rw [if_neg ‹_›]

theorem DirPath.plain (h : fs.DirPath d) (hnul : (Path.absolute d).hasNul = false) :
    fs.Plain (.absolute d) d where
  start := dirPath_nil fs
  plain := plainFrom_names.2 h
  names := by
    change Ironlock.lexicalFrom [] (d.map .name) = d
    rw [lexicalFrom_names, List.nil_append]
  nul := hnul

theorem absolute_concat (d : List Name) (n : Name) :
    Path.absolute (d ++ [n]) = (Path.absolute d).push (.name n) := by
  simp [Path.absolute, Path.push]

theorem canonicalize_nul (h : p.hasNul = true) :
    (fs.canonicalize p).1 = .error ⟨.invalidInput, "file name contained an unexpected NUL byte"⟩ := by
  simp [canonicalize, look, resolve, h]

theorem Plain.canonicalize (h : fs.Plain p d) (hp : p ≠ .empty) :
    fs.canonicalize p = (.ok (.absolute d), fs) := by
  simp only [Fs.canonicalize, look, h.resolve hp, h.dirPath.node]

theorem absolute_ne_empty (d : List Name) : Path.absolute d ≠ .empty := by
  simp [Path.absolute, Path.empty]

theorem closest_nul (hq : fs.closest (d ++ [n]).reverse [] = .ok q) :
    (Path.absolute (d ++ [n])).hasNul = false := by
  rw [List.reverse_append, List.reverse_singleton, List.singleton_append, closest,
    List.reverse_cons, List.reverse_reverse] at hq
  by_contra hnul
  rw [Bool.not_eq_false] at hnul
  rw [canonicalize_nul hnul] at hq
  cases hq

/-- A name in a real directory leads to itself, whether or not it is there. -/
theorem closest_entry (hd : fs.DirPath d) (hl : ∀ t, fs.node (d ++ [n]) ≠ some (.symlink t))
    (hq : fs.closest (d ++ [n]).reverse [] = .ok q) : q = .absolute (d ++ [n]) := by
  have hnul := closest_nul hq
  rw [List.reverse_append, List.reverse_singleton, List.singleton_append, closest,
    List.reverse_cons, List.reverse_reverse] at hq
  rw [absolute_concat, Path.hasNul, Path.push_parts, List.any_append, Bool.or_eq_false_iff] at hnul
  have hplain := hd.plain hnul.1
  have hat : fs.At (.absolute (d ++ [n])) d n := by
    rw [absolute_concat]
    exact hplain.at_push (by simpa using hnul.2)
  have hresolve : fs.resolve true (.absolute (d ++ [n])) = .ok (d ++ [n]) := hat.resolve (.inr hl)
  rcases hx : fs.node (d ++ [n]) with _ | x
  · have hcanon : (fs.canonicalize (.absolute (d ++ [n]))).1 = .error (.os .notFound) := by
      simp only [canonicalize, look, hresolve, hx]
    rw [hcanon] at hq
    simp only [IoError.os, if_true] at hq
    rcases List.eq_nil_or_concat d with rfl | ⟨d', m, rfl⟩
    · cases hq; rfl
    · rw [List.concat_eq_append] at hplain hq ⊢
      rw [List.reverse_append, List.reverse_singleton, List.singleton_append, closest,
        List.reverse_cons, List.reverse_reverse, hplain.canonicalize (absolute_ne_empty _)] at hq
      cases hq
      exact foldl_push _ _
  · have hcanon : (fs.canonicalize (.absolute (d ++ [n]))).1 = .ok (.absolute (d ++ [n])) := by
      simp only [canonicalize, look, hresolve, hx]
    rw [hcanon] at hq
    cases hq; rfl

/-- The key of a name in a plain directory starts from its place. -/
theorem Plain.keyPath_eq (h : fs.Plain p d) (n : Name) :
    fs.keyPath (p.push (.name n)) = fs.closest (d ++ [n]).reverse [] := by
  obtain ⟨a, ha, hlex⟩ := absolute_lexical fs (p.push_ne_empty (.name n))
  have hstart : fs.start (p.push (.name n)) = fs.start p := rfl
  rw [hstart, Path.push_parts, lexicalFrom_append, h.names] at hlex
  rw [keyPath, ha]
  simp only [hlex]
  rfl

theorem Plain.keyPath_nul (h : fs.Plain p d) (hq : fs.keyPath (p.push (.name n)) = .ok q) :
    n.bytes.contains 0 = false := by
  rw [h.keyPath_eq] at hq
  have hnul := closest_nul hq
  rw [absolute_concat, Path.hasNul, Path.push_parts, List.any_append, Bool.or_eq_false_iff] at hnul
  simpa using hnul.2

theorem Plain.keyPath_push (h : fs.Plain p d) (hl : ∀ t, fs.node (d ++ [n]) ≠ some (.symlink t))
    (hq : fs.keyPath (p.push (.name n)) = .ok q) : q = .absolute (d ++ [n]) := by
  rw [h.keyPath_eq] at hq
  exact closest_entry h.dirPath hl hq

end

end Fs

section
variable {env : Env} {p q : Path} {w w' : World}

/-- What a look finds absent is absent. -/
theorem Env.Honest.notFound {α : Type} {op : SysCall α} {fs : Fs} {e : IoError} (h : env.Honest)
    (ht : Tells env op fs (.error e)) (he : e.kind = .notFound) : (op fs).1 = .error e := by
  rcases ht with ht | ⟨_, ⟨⟩, hf⟩
  · exact ht.symm
  · exact absurd he (h e hf)

theorem canonicalize_root (fs : Fs) : (fs.canonicalize .root).1 = .ok (.absolute []) := by
  rw [fs.plain_root.canonicalize (by simp [Path.root, Path.empty])]

theorem canonicalize_tells (hq : env.Quiet) {r : Except IoError Path}
    (h : Sys.canonicalize env p w = (.ok r, w')) :
    Tells env (Fs.canonicalize p) w.fs r ∧ w'.fs = w.fs := hq.try_tells look_snd h

theorem closestAncestor_eq_ok (hq : env.Quiet) (hh : env.Honest) {rev missing : List Name}
    (h : closestAncestor env p rev missing w = (.ok q, w')) : w.fs.closest rev missing = .ok q := by
  induction rev generalizing missing w with
  | nil =>
    obtain ⟨r, w₁, hr, h⟩ := Eff.bind_eq_ok.1 h
    obtain ⟨htells, -⟩ := canonicalize_tells hq hr
    cases r with
    | ok existing =>
      have := htells.ok
      rw [canonicalize_root] at this
      cases this
      cases h
      exact congrArg Except.ok (Fs.foldl_push [] missing).symm
    | error e => simp only at h; split at h <;> cases h
  | cons n rev ih =>
    obtain ⟨r, w₁, hr, h⟩ := Eff.bind_eq_ok.1 h
    obtain ⟨htells, hfs⟩ := canonicalize_tells hq hr
    rw [Fs.closest]
    cases r with
    | ok existing =>
      rw [htells.ok]
      cases h; rfl
    | error e =>
      simp only at h
      split at h
      · rename_i he
        rw [hh.notFound htells he]
        simp only [he, if_true]
        rw [← hfs]
        exact ih h
      · cases h

theorem normalizedPathKey_eq_ok (hq : env.Quiet) (hh : env.Honest) {key : Bytes}
    (h : normalizedPathKey env p w = (.ok key, w')) :
    ∃ q, w.fs.keyPath p = .ok q ∧ key = keyText env q := by
  obtain ⟨a, w₁, ha, h⟩ := Eff.bind_eq_ok.1 h
  obtain ⟨q, w₂, hclosest, h⟩ := Eff.bind_eq_ok.1 h
  cases h
  refine ⟨q, ?_, rfl⟩
  have hfs : w₁.fs = w.fs := (((stdAbsolute_looks p).still hq).run ha).1
  have hclosest := closestAncestor_eq_ok hq hh hclosest
  rw [hfs] at hclosest
  simp only [stdAbsolute, Prod.mk.injEq] at ha
  split at ha <;> cases ha.1
  rename_i habs
  rw [Fs.keyPath, habs]
  exact hclosest

end

end Ironlock
