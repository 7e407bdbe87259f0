import Ironlock.Decoding
import Ironlock.Runs
import Ironlock.SecureFs.Names

/-! The name a decrypted file recovers is one component of its directory, and
an honest name is recovered as it is. -/

namespace Ironlock
open ByteOrder (Bytes)
open Effect
open Fs (Identity Metadata)

/-- What stands between the separators of a text. -/
def segments (b : Bytes) : List Bytes := b.splitOn slash

/-- The components that lead somewhere: neither empty nor `.`. -/
def leading (b : Bytes) : List Bytes := (segments b).filter fun segment => segment ≠ [] ∧ segment ≠ [dot]

/-- The text of a component. -/
def Part.text : Part → Bytes
  | .up => [dot, dot]
  | .name n => n.bytes

theorem slash_not_mem_segment {b segment : Bytes} (h : segment ∈ segments b) : slash ∉ segment := by
  unfold segments at h
  induction b generalizing segment with
  | nil =>
    rw [List.splitOn_nil, List.mem_singleton] at h
    simp [h]
  | cons c b ih =>
    rw [List.splitOn_cons_eq_if_modifyHead] at h
    split at h
    · rcases List.mem_cons.1 h with rfl | h
      · simp
      · exact ih h
    · rename_i hc
      rcases hs : b.splitOn slash with _ | ⟨first, rest⟩
      · exact absurd hs (List.splitOn_ne_nil slash b)
      · rw [hs, List.modifyHead_cons, List.mem_cons] at h
        rcases h with rfl | h
        · rw [List.mem_cons, not_or]
          exact ⟨fun heq => hc (by simp [heq]), ih (by rw [hs]; exact List.mem_cons_self)⟩
        · exact ih (by rw [hs]; exact List.mem_cons_of_mem _ h)

/-- A segment is a component unless it is empty or `.`. -/
theorem part?_text {segment : Bytes} (h : slash ∉ segment) :
    (Path.part? segment).map Part.text =
      if segment ≠ [] ∧ segment ≠ [dot] then some segment else none := by
  unfold Path.part?
  by_cases hup : segment = [dot, dot]
  · subst hup
    rfl
  · rw [if_neg hup]
    unfold Name.ofBytes?
    by_cases hkeep : segment ≠ [] ∧ segment ≠ [dot]
    · have hvalid : validName segment = true := by
        simp [validName, hkeep, hup, h]
      rw [dif_pos hvalid, if_pos hkeep]
      rfl
    · have hvalid : ¬validName segment = true := by
        intro hv
        simp only [validName, Bool.and_eq_true, decide_eq_true_eq] at hv
        exact hkeep ⟨hv.1.1.1, hv.1.2⟩
      rw [dif_neg hvalid, if_neg hkeep]
      rfl

/-- The components of a parsed path are the segments that lead somewhere. -/
theorem parse_parts (b : Bytes) : (Path.parse b).parts.map Part.text = leading b := by
  change ((segments b).filterMap Path.part?).map Part.text = _
  unfold leading
  have hclean : ∀ segment ∈ segments b, slash ∉ segment := fun _ => slash_not_mem_segment
  generalize segments b = all at hclean ⊢
  induction all with
  | nil => rfl
  | cons segment rest ih =>
    have hpart := part?_text (hclean segment List.mem_cons_self)
    have hrest := ih fun s hs => hclean s (List.mem_cons_of_mem _ hs)
    rcases hp : Path.part? segment with _ | part <;> rw [hp] at hpart
    · have hdrop : ¬(segment ≠ [] ∧ segment ≠ [dot]) := fun h => by rw [if_pos h] at hpart; cases hpart
      rw [List.filterMap_cons_none hp, List.filter_cons_of_neg (by simpa using hdrop), hrest]
    · have hkeep : segment ≠ [] ∧ segment ≠ [dot] := by
        by_contra h
        rw [if_neg h] at hpart
        cases hpart
      rw [if_pos hkeep] at hpart
      rw [List.filterMap_cons_some hp, List.map_cons, hrest, List.filter_cons_of_pos (by simpa using hkeep),
        Option.some.inj hpart]

/-- What a name is sanitised to is its last component that leads somewhere, if
that is no `..`. -/
theorem sanitizedFilename_iff {s n : Str} :
    sanitizedFilename s = .ok n ↔ (leading s.bytes).getLast? = some n.bytes ∧ n.bytes ≠ [dot, dot] := by
  have hlast : (leading s.bytes).getLast? = (Path.parse s.bytes).parts.getLast?.map Part.text := by
    rw [← parse_parts, List.getLast?_map]
  unfold sanitizedFilename Path.fileName
  rw [hlast]
  rcases (Path.parse s.bytes).parts.getLast? with _ | _ | m
  · simp [toStr]
  · simp only [toStr, Option.map_none, Option.bind_none, Option.map_some, Part.text, Option.some.injEq,
      reduceCtorEq, false_iff, not_and, not_not]
    exact Eq.symm
  · have hm := m.valid
    simp only [validName, Bool.and_eq_true, decide_eq_true_eq] at hm
    simp only [Option.map_some, Part.text, Option.some.injEq, toStr, Option.bind_some]
    constructor
    · intro h
      rcases hv : Str.ofBytes? m.bytes with _ | x <;> simp only [hv] at h
      · cases h
      · have hx := Str.ofBytes?_eq_some hv
        split at h <;> cases h
        exact ⟨hx.symm, by rw [hx]; exact hm.2⟩
    · rintro ⟨heq, -⟩
      have hne : n.bytes ≠ [] ∧ n.bytes ≠ [dot] ∧ n.bytes ≠ [dot, dot] := by
        rw [← heq]
        exact ⟨hm.1.1.1, hm.1.2, hm.2⟩
      simp only [heq, Str.ofBytes?_bytes, if_pos hne]

/-- A text without separators that leads somewhere is its own only component. -/
theorem leading_of_clean {b : Bytes} (hslash : slash ∉ b) (hne : b ≠ []) (hdot : b ≠ [dot]) :
    leading b = [b] := by
  rw [leading, segments, List.splitOn_eq_singleton hslash, List.filter_cons_of_pos (by simp [hne, hdot]),
    List.filter_nil]

theorem leading_clean {b segment : Bytes} (h : segment ∈ leading b) :
    slash ∉ segment ∧ segment ≠ [] ∧ segment ≠ [dot] := by
  obtain ⟨hmem, hkeep⟩ := List.mem_filter.1 h
  exact ⟨slash_not_mem_segment hmem, by simpa using hkeep⟩

/-- An honest name is recovered as it is. -/
theorem sanitizedFilename_honest {s : Str} (hne : s.bytes ≠ []) (hslash : slash ∉ s.bytes)
    (hdot : s.bytes ≠ [dot]) (hup : s.bytes ≠ [dot, dot]) : sanitizedFilename s = .ok s := by
  rw [sanitizedFilename_iff, leading_of_clean hslash hne hdot]
  exact ⟨rfl, hup⟩

/-! ## Where a recovered name leads -/

section
variable {env : Env} {w w' : World} {source p : Path} {outputDir : Option Path} {name : Str}

/-- A decrypted file goes to a name in the output directory itself. -/
theorem decryptedPath_child (h : decryptedPath env source outputDir name w = (.ok p, w')) :
    ∃ n, p = (outputDirectory outputDir).push (.name n) := by
  obtain ⟨safe, _, hsafe, h⟩ := Eff.bind_eq_ok.1 h
  obtain ⟨_, _, -, h⟩ := Eff.bind_eq_ok.1 h
  obtain ⟨same, _, -, h⟩ := Eff.bind_eq_ok.1 h
  obtain ⟨n, hn⟩ := sanitizedFilename_eq_ok (Prod.mk.inj hsafe).1
  have hjoin : (outputDirectory outputDir).joinRaw safe.bytes = (outputDirectory outputDir).push (.name n) := by
    rw [hn, Path.joinRaw_bytes]
  split at h
  · obtain ⟨m, hm⟩ := uniqueDecryptedPath_eq_ok h
    refine ⟨m, hm.trans ?_⟩
    rw [hjoin, Path.parentOrEmpty, Path.push_parent, Option.getD_some]
    rfl
  · cases h
    exact ⟨n, hjoin⟩

end

/-- What `AtomicOutput::new` does on paths other than those of names in the
output directory makes no difference. -/
theorem decryptFileToPathVia_congr {env : Env} {new new' : Path → Bool → FsM AtomicOutput}
    {outputDir : Option Path} {force : Bool}
    (h : ∀ n, new ((outputDirectory outputDir).push (.name n)) force =
      new' ((outputDirectory outputDir).push (.name n)) force)
    (guarded : Bool) (sourcePath : Path) (password : Bytes) :
    decryptFileToPathVia env new guarded sourcePath password outputDir force =
      decryptFileToPathVia env new' guarded sourcePath password outputDir force := by
  unfold decryptFileToPathVia
  refine congrArg _ (funext fun ⟨decryptor, reader⟩ => ?_)
  funext s
  rcases hpath : GuardM.lift (decryptedPath env sourcePath outputDir decryptor.filename) s with ⟨e | p, t⟩
  · exact (Eff.bind_error hpath _).trans (Eff.bind_error hpath _).symm
  · refine (Eff.bind_ok hpath _).trans (Eq.trans ?_ (Eff.bind_ok hpath _).symm)
    have hrun : decryptedPath env sourcePath outputDir decryptor.filename s.1 = (.ok p, t.1) := by
      simp only [GuardM.lift, Prod.mk.injEq] at hpath
      exact Prod.ext hpath.1 (congrArg Prod.fst hpath.2)
    obtain ⟨n, rfl⟩ := decryptedPath_child hrun
    rw [h n]

/-- A recovered name never leads out of the output directory: it is sanitised
to a component, the last of those it has, and the output is opened at a name in
the directory itself. Honest names are kept. -/
theorem recovered_names_stay (env : Env) :
    (∀ s n : Str, sanitizedFilename s = .ok n →
      n.bytes ≠ [] ∧ slash ∉ n.bytes ∧ n.bytes ≠ [dot] ∧ n.bytes ≠ [dot, dot] ∧
        (leading s.bytes).getLast? = some n.bytes ∧ sanitizedFilename n = .ok n) ∧
    (∀ (new : Path → Bool → FsM AtomicOutput) (guarded : Bool) (sourcePath : Path) (password : Bytes)
      (outputDir : Option Path) (force : Bool),
      (∀ n, new ((outputDirectory outputDir).push (.name n)) force =
        AtomicOutput.new env ((outputDirectory outputDir).push (.name n)) force) →
      decryptFileToPathVia env new guarded sourcePath password outputDir force =
        decryptFileToPathInner env guarded sourcePath password outputDir force) ∧
    ∀ s : Str, s.bytes ≠ [] → slash ∉ s.bytes → s.bytes ≠ [dot] → s.bytes ≠ [dot, dot] →
      sanitizedFilename s = .ok s := by
  refine ⟨?_, ?_, ?_⟩
  · intro s n h
    obtain ⟨hlast, hup⟩ := sanitizedFilename_iff.1 h
    obtain ⟨hslash, hne, hdot⟩ := leading_clean (List.mem_of_getLast? hlast)
    exact ⟨hne, hslash, hdot, hup, hlast, sanitizedFilename_honest hne hslash hdot hup⟩
  · intro new guarded sourcePath password outputDir force hnew
    exact decryptFileToPathVia_congr hnew guarded sourcePath password
  · intro s hne hslash hdot hup
    exact sanitizedFilename_honest hne hslash hdot hup

/-- An output that cannot be opened at the root, which has no name. -/
def newNamed (p : Path) (force : Bool) : FsM AtomicOutput :=
  if p.parts = [] then Eff.fail .cancelled else AtomicOutput.new (Env.calm .checksummed) p force

/-- `../b/.`, sent by another party, is `b` in the root directory. -/
theorem recovered_names_stay_b :
    let sent : Str := ⟨[46, 46, 47, 98, 47, 46], by decide +kernel⟩
    let kept : Str := ⟨[98], by decide +kernel⟩
    (kept.bytes ≠ [] ∧ slash ∉ kept.bytes ∧ kept.bytes ≠ [dot] ∧ kept.bytes ≠ [dot, dot] ∧
        (leading sent.bytes).getLast? = some kept.bytes ∧ sanitizedFilename kept = .ok kept) ∧
      decryptFileToPathVia (Env.calm .checksummed) newNamed false (.absolute []) [] (some .root) true =
        decryptFileToPathInner (Env.calm .checksummed) false (.absolute []) [] (some .root) true ∧
      sanitizedFilename kept = .ok kept := by
  intro sent kept
  have hsent : sanitizedFilename sent = .ok kept :=
    sanitizedFilename_iff.2 ⟨by decide +kernel, by decide⟩
  have hnew (n : Name) : newNamed ((outputDirectory (some .root)).push (.name n)) true =
      AtomicOutput.new (Env.calm .checksummed) ((outputDirectory (some .root)).push (.name n)) true :=
    if_neg (by simp)
  have h := recovered_names_stay (Env.calm .checksummed)
  exact ⟨h.1 sent kept hsent, h.2.1 _ _ _ _ _ _ hnew,
    h.2.2 kept (by decide) (by decide) (by decide) (by decide)⟩

end Ironlock
