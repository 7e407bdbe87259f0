import Ironlock.SecureFs.Decrypt

/-! The names the program makes: each is one component beside its source or in
its target directory. -/

namespace Ironlock
open ByteOrder (Bytes)
open Effect

/-! ## Stems and extensions -/

theorem splitLast_eq_some {sep : UInt8} {b x y : Bytes} (h : splitLast sep b = some (x, y)) :
    b = x ++ sep :: y ∧ sep ∉ y := by
  induction b generalizing x with
  | nil => cases h
  | cons c rest ih =>
    unfold splitLast at h
    split at h
    · cases h
      obtain ⟨rfl, hnot⟩ := ih ‹_›
      exact ⟨rfl, hnot⟩
    · rename_i hnone
      split at h <;> cases h
      subst sep
      refine ⟨rfl, ?_⟩
      clear ih
      induction y with
      | nil => simp
      | cons c' rest ih =>
        unfold splitLast at hnone
        split at hnone
        · cases hnone
        · split at hnone
          · cases hnone
          · rename_i hsplit hne
            simpa [Ne.symm hne] using ih hsplit

theorem splitLast_eq_none {sep : UInt8} {b : Bytes} : splitLast sep b = none ↔ sep ∉ b := by
  induction b with
  | nil => simp [splitLast]
  | cons c rest ih =>
    unfold splitLast
    rcases h : splitLast sep rest with _ | ⟨x, y⟩
    · have := ih.1 h
      by_cases hc : c = sep
      · simp [hc]
      · simp [hc, this, Ne.symm hc]
    · have hmem : sep ∈ rest := by rw [(splitLast_eq_some h).1]; simp
      simp [hmem]

theorem splitLast_concat {sep : UInt8} {x y : Bytes} (h : sep ∉ y) :
    splitLast sep (x ++ sep :: y) = some (x, y) := by
  induction x with
  | nil => simp [splitLast, splitLast_eq_none.2 h]
  | cons c x ih => simp [splitLast, ih]

namespace Name

/-- What stands after the last dot is the extension, unless nothing stands before it. -/
theorem extension_eq_some {n : Name} {x y : Bytes} (hn : n.bytes = x ++ [dot] ++ y) (hx : x ≠ [])
    (hy : dot ∉ y) : n.extension = some y := by
  rw [List.append_assoc, List.singleton_append] at hn
  unfold extension rsplitAtDot
  rw [hn, splitLast_concat hy]
  cases x with
  | nil => exact absurd rfl hx
  | cons c x => rfl

/-- The stem of text is text. -/
theorem stem_valid {n : Name} (h : Utf8.valid n.bytes = true) : Utf8.valid n.stem = true := by
  unfold stem rsplitAtDot
  rcases hs : splitLast dot n.bytes with _ | ⟨before, after⟩
  · exact h
  · rw [(splitLast_eq_some hs).1] at h
    cases before with
    | nil =>
      rw [(splitLast_eq_some hs).1]
      exact h
    | cons c before => exact (Utf8.valid_split (by decide) h).1

theorem stem_subset {n : Name} {x : UInt8} (h : x ∈ n.stem) : x ∈ n.bytes := by
  unfold stem rsplitAtDot at h
  rcases hs : splitLast dot n.bytes with _ | ⟨before, after⟩ <;> simp only [hs] at h
  · exact h
  · have := (splitLast_eq_some hs).1
    cases before with
    | nil => exact h
    | cons y ys => rw [this]; exact List.mem_append_left _ h

theorem extension_subset {n : Name} {e : Bytes} {x : UInt8} (h : n.extension = some e) (hx : x ∈ e) :
    x ∈ n.bytes := by
  unfold extension rsplitAtDot at h
  rcases hs : splitLast dot n.bytes with _ | ⟨before, after⟩ <;> simp only [hs] at h
  · cases h
  · have := (splitLast_eq_some hs).1
    cases before with
    | nil => cases h
    | cons y ys => cases h; rw [this]; simp [hx]

theorem stem_ne_nil (n : Name) : n.stem ≠ [] := by
  unfold stem rsplitAtDot
  rcases hs : splitLast dot n.bytes with _ | ⟨before, after⟩
  · exact n.bytes_ne_nil
  · cases before with
    | nil => exact n.bytes_ne_nil
    | cons y ys => simp

end Name

theorem validName_of_length {b : Bytes} (hslash : slash ∉ b) (hlen : 2 < b.length) :
    validName b = true := by
  simp only [validName, Bool.and_eq_true, decide_eq_true_eq, Bool.not_eq_true']
  refine ⟨⟨⟨?_, by simpa using hslash⟩, ?_⟩, ?_⟩ <;> rintro rfl <;> simp at hlen

theorem joinRaw_valid (p : Path) {b : Bytes} (h : validName b = true) :
    ∃ n : Name, p.joinRaw b = p.push (.name n) ∧ n.bytes = b := ⟨⟨b, h⟩, p.joinRaw_bytes ⟨b, h⟩, rfl⟩

/-! ## Paths the program makes -/

theorem slash_not_mem_hex16 (v : UInt64) : slash ∉ hex16 v := fun h => (hex16_plain h).1 rfl

theorem toStr_eq_some {b : Option Bytes} {s : Str} (h : toStr b = some s) : b = some s.bytes := by
  obtain ⟨b', rfl, hs⟩ := Option.bind_eq_some_iff.1 h
  rw [Str.ofBytes?_eq_some hs]

/-- The stem of a path is that of a component of its own. -/
theorem fileStem_eq_some {p : Path} {b : Bytes} (h : p.fileStem = some b) :
    ∃ n, p.fileName = some n ∧ b = n.stem := by
  obtain ⟨n, hn, rfl⟩ := Option.map_eq_some_iff.1 h
  exact ⟨n, hn, rfl⟩

theorem defaultEncryptedPath_eq_ok {source output : Path} (h : defaultEncryptedPath source = .ok output) :
    ∃ m n, source.fileName = some m ∧ n.bytes = m.stem ++ [dot] ++ ironlockExtension ∧
      output = source.parentOrEmpty.push (.name n) := by
  unfold defaultEncryptedPath at h
  split at h
  · cases h
  rename_i stem hstem
  cases h
  obtain ⟨m, hm, heq⟩ := fileStem_eq_some (toStr_eq_some hstem)
  have hvalid : validName (stem.bytes ++ [dot] ++ ironlockExtension) = true := by
    apply validName_of_length
    · rw [heq]
      simp only [List.mem_append, not_or]
      exact ⟨⟨fun h => m.slash_not_mem (Name.stem_subset h), by decide⟩, by decide⟩
    · simp [ironlockExtension, ascii]
  obtain ⟨n, hn, hbytes⟩ := joinRaw_valid source.parentOrEmpty hvalid
  exact ⟨m, n, hm, by rw [hbytes, heq], hn⟩

section
variable {env : Env} {w w' : World} {source p result : Path}

/-- A unique encrypted path is a component beside its source. -/
theorem uniqueEncryptedPathIn_eq_ok {stem : Str} {unavailable : List Bytes} {tries : Nat}
    (hstem : slash ∉ stem.bytes)
    (h : uniqueEncryptedPathIn env source stem unavailable tries w = (.ok result, w')) :
    ∃ n, result = source.parentOrEmpty.push (.name n) := by
  induction tries generalizing w with
  | zero => cases h
  | succ tries ih =>
    obtain ⟨suffix, w₁, -, h⟩ := Eff.bind_eq_ok.1 h
    obtain ⟨key, w₂, -, h⟩ := Eff.bind_eq_ok.1 h
    split at h
    · exact ih h
    obtain ⟨present, w₃, -, h⟩ := Eff.bind_eq_ok.1 h
    split at h
    · exact ih h
    cases h
    have hvalid : validName (stem.bytes ++ ascii "-" ++ hex16 suffix ++ [dot] ++ ironlockExtension) =
        true := by
      apply validName_of_length
      · simp only [List.mem_append, not_or]
        exact ⟨⟨⟨⟨hstem, by decide⟩, slash_not_mem_hex16 _⟩, by decide⟩, by decide⟩
      · simp only [List.length_append, length_hex16]
        omega
    exact (joinRaw_valid _ hvalid).imp fun _ => And.left

theorem uniqueEncryptedPath_eq_ok {unavailable : List Bytes}
    (h : uniqueEncryptedPath env source unavailable w = (.ok result, w')) :
    ∃ n, result = source.parentOrEmpty.push (.name n) := by
  rcases hstem : toStr source.fileStem with _ | stem <;> simp only [uniqueEncryptedPath, hstem] at h
  · cases h
  obtain ⟨m, -, heq⟩ := fileStem_eq_some (toStr_eq_some hstem)
  exact uniqueEncryptedPathIn_eq_ok (by rw [heq]; exact fun h => m.slash_not_mem (Name.stem_subset h)) h

theorem uniqueDecryptedPathIn_eq_ok {parent : Path} {stem : Bytes} {extension : Option Str}
    {tries : Nat} (hstem : slash ∉ stem) (hext : ∀ e, extension = some e → slash ∉ e.bytes)
    (h : uniqueDecryptedPathIn env p parent stem extension tries w = (.ok result, w')) :
    ∃ n, result = parent.push (.name n) := by
  induction tries generalizing w with
  | zero => cases h
  | succ tries ih =>
    obtain ⟨suffix, w₁, -, h⟩ := Eff.bind_eq_ok.1 h
    obtain ⟨present, w₂, -, h⟩ := Eff.bind_eq_ok.1 h
    split at h
    · exact ih h
    cases h
    refine (joinRaw_valid parent (validName_of_length ?_ ?_)).imp fun _ => And.left
    · have hfixed : slash ∉ ascii "-decrypted-" := by decide +kernel
      simp only [List.mem_append, not_or]
      refine ⟨⟨⟨hstem, hfixed⟩, slash_not_mem_hex16 _⟩, ?_⟩
      cases extension with
      | none => simp
      | some e =>
        have := hext e rfl
        simp only [List.singleton_append, List.mem_cons, not_or]
        exact ⟨by decide, this⟩
    · simp only [List.length_append, length_hex16]
      omega

/-- A unique decrypted path is a component beside the one it replaces. -/
theorem uniqueDecryptedPath_eq_ok (h : uniqueDecryptedPath env p w = (.ok result, w')) :
    ∃ n, result = p.parentOrEmpty.push (.name n) := by
  refine uniqueDecryptedPathIn_eq_ok ?_ ?_ h
  · split
    · rename_i stem hstem
      obtain ⟨m, -, heq⟩ := fileStem_eq_some (toStr_eq_some hstem)
      rw [heq]
      exact fun h => m.slash_not_mem (Name.stem_subset h)
    · decide +kernel
  · intro e he
    obtain ⟨m, -, hm⟩ := Option.bind_eq_some_iff.1 (toStr_eq_some he)
    exact fun h => m.slash_not_mem (Name.extension_subset hm h)

end

/-- A sanitised name is one component. -/
theorem sanitizedFilename_eq_ok {name safe : Str} (h : sanitizedFilename name = .ok safe) :
    ∃ n : Name, safe.bytes = n.bytes := by
  unfold sanitizedFilename at h
  split at h
  · cases h
  rename_i found hfound
  split at h <;> cases h
  obtain ⟨n, -, heq⟩ := Option.map_eq_some_iff.1 (toStr_eq_some hfound)
  exact ⟨n, heq.symm⟩

end Ironlock
