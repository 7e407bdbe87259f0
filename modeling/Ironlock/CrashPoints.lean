import Ironlock.Restoration
import Ironlock.SecureFs.OutputWrites

/-! Where the process may stop while a file is being replaced, and what the
destination is then. -/

namespace Ironlock
open ByteOrder (Bytes)
open Effect

namespace AtomicOutput

/-- A file written as the program writes all of its outputs. -/
def write (env : Env) (destination : Path) (force : Bool) (portions : List Bytes) : FsM Path := do
  let o ← AtomicOutput.new env destination force
  Sys.appendAll env o.file portions
  o.commit env

/-- The destination is the old file as it was, or a file that holds all that
was written, or it is absent while the old file, as it was, has a temporary name
beside it. -/
structure CrashSafe (before : Fs) (destination : Path) (names : List Name) (j : Nat) (c : Bytes)
    (fs : Fs) : Prop where
  leads : fs.resolve false destination = .ok names
  whole : fs.node names = some (.file j) ∧ fs.content j = before.content j ∨
    (∃ i, fs.node names = some (.file i) ∧ fs.content i = c) ∨
    fs.node names = none ∧ ∃ a b, fs.node (names.dropLast ++ [tempName a b]) = some (.file j) ∧
      fs.content j = before.content j

section
variable {env : Env} {before base fs : Fs} {destination : Path} {names d : List Name} {j : Nat}
  {c : Bytes} {o : AtomicOutput} {a b : UInt64} {n : Name}

theorem crashSafe_spares (hleads : before.resolve false destination = .ok names)
    (hold : before.node names = some (.file j)) (h : before.Spares fs ∅ ∅) :
    CrashSafe before destination names j c fs where
  leads := h.keeps.resolve hleads
  whole := by
    refine .inl ⟨?_, h.content j (Fs.nodeAt_lt hold) id⟩
    rw [Fs.node, h.keeps.loc]
    exact h.nodes _ _ id hold

theorem left_crashSafe (h : o.Ready base d a b) (hspares : before.Spares base ∅ ∅)
    (hleads : before.resolve false destination = .ok (d ++ [n]))
    (hold : before.node (d ++ [n]) = some (.file j)) (hl : o.Left base d a b n c fs) :
    CrashSafe before destination (d ++ [n]) j c fs := by
  obtain ⟨f, hover, -, -, hsettled⟩ := hl
  have hkeeps := hspares.keeps.trans hover.keeps
  have hbase : base.nodeAt (base.entryLoc d n) = some (.file j) := by
    rw [Fs.entryLoc, hspares.keeps.loc]
    exact hspares.nodes _ _ id hold
  have hj : fs.content j = before.content j := by
    rw [hover.content, if_neg (Fs.nodeAt_lt hbase).ne]
    exact hspares.content j (Fs.nodeAt_lt hold) id
  have hnode (k : Name) : fs.node (d ++ [k]) = f (base.entryLoc d k) := by
    rw [Fs.node_concat, hover.entryLoc, hover.nodeAt]
  refine ⟨hkeeps.resolve hleads, ?_⟩
  rw [List.dropLast_concat, hnode]
  rcases hsettled with hs | hs | ⟨hs, a', b', hq⟩
  · exact .inl ⟨hs.trans hbase, hj⟩
  · exact .inr (.inl ⟨_, hs, by rw [hover.content, h.file, if_pos rfl]⟩)
  · exact .inr (.inr ⟨hs, a', b', (hnode _).trans (hq.trans hbase), hj⟩)

end

/-- Wherever the process stops while it replaces a file, also when calls fail,
the destination is the old file or the new one, whole, or it is absent while
the old file is whole beside it under a temporary name. -/
theorem write_crashSafe {env : Env} (hq : env.Quiet) {destination : Path} {force : Bool}
    {portions : List Bytes} {w : World} {names : List Name} {j : Nat}
    (hleads : w.fs.resolve false destination = .ok names) (hold : w.fs.node names = some (.file j)) :
    ∀ s ∈ (AtomicOutput.write env destination force portions w).2.since w,
      CrashSafe w.fs destination names j portions.flatten s.after := by
  let G : Fs → Prop := CrashSafe w.fs destination names j portions.flatten
  let P (fs : Fs) : Prop := w.fs.Spares fs ∅ ∅
  have hgrow : Growing G P := by
    refine ⟨fun fs hfs => crashSafe_spares hleads hold hfs, fun fs d n hfs hnone => ?_⟩
    rw [Fs.entryLoc_eq] at hnone
    exact hfs.trans (.mkdir hnone)
  have hcreate (base : Fs) (d : List Name) (n : Name) (hbase : P base)
      (hnone : base.nodeAt (base.entryLoc d n) = none) : G (base.create (base.loc d) n) := by
    rw [Fs.entryLoc_eq] at hnone
    exact crashSafe_spares hleads hold (hbase.trans (.create hnone))
  have hnew := (AtomicOutput.new_runs hq hgrow hcreate destination force).post
    (Θ := fun _ => Along G fun _ => True) (fun _ _ _ => id) fun _ _ _ hfs => ⟨hfs.1, trivial⟩
  have hrun : Runs (Along G P) (AtomicOutput.write env destination force portions)
      (fun _ => Along G fun _ => True) fun _ => Along G fun _ => True := by
    refine .bind hnew fun o => .along_exists fun base => .along_exists fun d =>
      .along_exists fun a => .along_exists fun b => .along_assuming fun hbase =>
      .along_assuming fun h => .along_assuming fun hdest => ?_
    -- the destination is a name in the directory that was found safe
    obtain ⟨n, hat, rfl⟩ : ∃ n, base.At o.destination d n ∧ names = d ++ [n] := by
      rw [hdest]
      have := h.parent
      rw [hdest] at this
      refine this.at_of_resolve rfl (hdest ▸ h.parent_ne) (hbase.keeps.resolve hleads) ?_
      rw [Fs.node, hbase.keeps.loc, hbase.nodes _ _ id hold]
      simp
    have happend := appendAll_runs (Φ := fun c => Along G (o.Written base d a b c))
      (fun _ => Along G fun _ => True) (fun _ => hq.stable) (fun c steps fs bytes hfs => by
        have hw := h.append hfs.2 bytes
        exact ⟨Runs.along_concat hfs.1 (crashSafe_spares hleads hold
          (hbase.trans (written_spares h hw))), hw⟩) [] portions
    refine .pre (.bind happend fun _ => ?_) fun steps fs hstart =>
      ⟨hstart.1, hstart.2 ▸ h.created⟩
    exact (h.commit_runs (fun fs hl => left_crashSafe h hbase hleads hold hl) hq hat).post
      (fun _ _ _ hfs => ⟨hfs.1, trivial⟩) fun _ _ _ hfs => ⟨hfs.1, trivial⟩
  have hstart : Along G P [] w.fs := ⟨by simp, .refl _ _ _⟩
  rcases hm : AtomicOutput.write env destination force portions w with ⟨e | p, w'⟩
  · obtain ⟨steps, hsteps, hall, -⟩ := hrun.error hstart hm
    rw [World.since_eq hsteps]; exact hall
  · obtain ⟨steps, hsteps, hall, -⟩ := hrun.ok hstart hm
    rw [World.since_eq hsteps]; exact hall

/-- The moment at which `/a` is absent while it is replaced. -/
theorem write_crashSafe_occupied :
    ∃ s ∈ (AtomicOutput.write (Env.calm .checksummed) destA true [[2]] occupied).2.since occupied,
      s.after.node [⟨[97], rfl⟩] = none ∧
      CrashSafe occupied.fs destA [⟨[97], rfl⟩] 0 [2] s.after := by
  have habsent : ∃ s ∈ (AtomicOutput.write (Env.calm .checksummed) destA true [[2]]
      occupied).2.since occupied, s.after.node [⟨[97], rfl⟩] = none := by decide +kernel
  obtain ⟨s, hs, hnone⟩ := habsent
  exact ⟨s, hs, hnone,
    write_crashSafe (Env.calm_quiet _) (by decide +kernel) (by decide +kernel) s hs⟩

/-- Nothing fails, the replacement succeeds, and yet there is a moment when
`/a` is absent. -/
theorem write_passes_absence :
    occupied.fs.resolve false destA = .ok [⟨[97], rfl⟩] ∧
    occupied.fs.node [⟨[97], rfl⟩] = some (.file 0) ∧
    (AtomicOutput.write (Env.calm .checksummed) destA true [[2]] occupied).1 = .ok destA ∧
    ∃ s ∈ (AtomicOutput.write (Env.calm .checksummed) destA true [[2]] occupied).2.since occupied,
      s.after.resolve false destA = .ok [⟨[97], rfl⟩] ∧ s.after.node [⟨[97], rfl⟩] = none := by
  decide +kernel

end AtomicOutput

end Ironlock
