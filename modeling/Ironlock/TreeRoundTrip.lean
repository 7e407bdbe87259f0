import Ironlock.DecryptionCompletion

/-! A directory that is encrypted and decrypted again is the directory it was. -/

namespace Ironlock
open ByteOrder (Bytes)
open Effect
open Fs (Identity Metadata SysCall)

/-! ## Names and streams -/

section
variable {C : Crates} {password content x y c : Bytes} {l l' : Loc} {d d' : List Name} {n : Name}

/-- A stream is of its name, wherever it is. -/
theorem SealsAt.move (h : SealsAt C password (d ++ [n]) content c) : SealsAt C password (d' ++ [n]) content c := by
  obtain ⟨e, m, name, heq, hname, hc⟩ := h
  obtain ⟨rfl, hn⟩ := List.append_inj' heq rfl
  obtain rfl := (List.cons.inj hn).1
  exact ⟨d', n, name, rfl, hname, hc⟩

/-- A stream has one content. -/
theorem SealsAt.unique (hC : C.Inverts) (h : SealsAt C password l x c) (h' : SealsAt C password l' y c) : y = x := by
  obtain ⟨-, -, -, -, -, a, rfl, -, rfl⟩ := h
  obtain ⟨-, -, -, -, -, b, hb, -, rfl⟩ := h'
  obtain ⟨r, hr⟩ := Reader.exists_delivers a.bytes
  obtain ⟨dec, s₁, s₂, hnew, -, hdecrypt, hwritten⟩ := decrypt_ok hC a (s := ⟨r, ⟨[], []⟩, []⟩) hr Writer.accepting_nil
  obtain ⟨dec', t₁, t₂, hnew', -, hdecrypt', hwritten'⟩ := decrypt_ok hC b (s := ⟨r, ⟨[], []⟩, []⟩) (hb ▸ hr)
    Writer.accepting_nil
  rw [hnew, Prod.mk.injEq, Except.ok.injEq] at hnew'
  obtain ⟨rfl, rfl⟩ := hnew'
  rw [hdecrypt, Prod.mk.injEq] at hdecrypt'
  obtain ⟨-, rfl⟩ := hdecrypt'
  exact List.append_cancel_left (hwritten'.symm.trans hwritten)

/-- An encrypted file is known by its name. -/
theorem encrypted_iff {p : Path} : (p.push (.name n)).encrypted = true ↔ n.extension = some ironlockExtension := by
  constructor
  · intro h
    simp only [Path.encrypted, Path.extension, Path.push_fileName, Option.bind_some, decide_eq_true_eq] at h
    obtain ⟨str, hstr, hbytes⟩ := Option.map_eq_some_iff.1 h
    rw [toStr_eq_some hstr, hbytes]
  · exact encrypted_of_extension

end

section
variable {env : Env} {fs fs' : Fs} {p : Path} {d t l l' : List Name} {m n : Name} {i : Nat}

/-- Places of text have different keys on Linux. -/
theorem keyText_injective (hlinux : env.target = .linux) (hl : ∀ n ∈ l, Utf8.valid n.bytes = true)
    (hl' : ∀ n ∈ l', Utf8.valid n.bytes = true) (hne : l ≠ []) (hne' : l' ≠ [])
    (h : keyText env (.absolute l) = keyText env (.absolute l')) : l = l' := by
  rw [keyText, keyText, if_pos hlinux, if_pos hlinux, Utf8.lossy_of_valid (render_valid hl),
    Utf8.lossy_of_valid (render_valid hl')] at h
  exact render_injective hne hne' h

/-- No two of the places have one key. -/
def KeysApart (env : Env) (S : Set Loc) : Prop := Set.InjOn (fun l => keyText env (.absolute l)) S

/-- On Linux no two places of text have. -/
theorem KeysApart.of_text {S : Set Loc} (hlinux : env.target = .linux) (hne : ∀ l ∈ S, l ≠ [])
    (h : ∀ l ∈ S, ∀ n ∈ l, Utf8.valid n.bytes = true) : KeysApart env S := by
  intro a ha b hb heq
  exact keyText_injective hlinux (h a ha) (h b hb) (hne a ha) (hne b hb) heq

/-- A place that can be made is text. -/
theorem Fs.Makes.text (h : fs.Makes p t) (ht : fs.Tidy) : ∀ n ∈ t, Utf8.valid n.bytes = true := by
  obtain ⟨front, e, names, -, hplain, rfl, rfl, hroom⟩ := h.parts
  have hdir := (h.start.lexicalFrom hplain).node
  rw [ht.node] at hdir
  intro n hn
  rcases List.mem_append.1 hn with hn | hn
  · exact (ht.valid_names hdir hn).1
  · obtain ⟨before, after, rfl⟩ := List.append_of_mem hn
    rcases hroom before n (by simp) with hthere | ⟨-, hlasting⟩
    · exact (ht.lasting _ n _ hthere).text
    · exact hlasting.text

/-! ## The files of a directory -/

/-- The files that an input that is a directory stands for. -/
theorem Fs.mem_inputsFiles {decrypting : Bool} (hinput : fs.resolve false p = .ok d) (hdir : fs.nodeAt d = some .dir)
    {q : Path} : q ∈ fs.inputsFiles decrypting [p] ↔ ∃ rel n i, q = .absolute (d ++ rel ++ [n]) ∧
      fs.nodeAt (d ++ rel ++ [n]) = some (.file i) ∧ q.encrypted = decrypting := by
  simp only [Fs.inputsFiles, List.flatMap_cons, List.flatMap_nil, List.append_nil, Fs.inputFiles, hinput,
    Fs.dirAt_iff.2 hdir, if_true, List.mem_filter, List.mem_map]
  have hkind : (if decrypting = true then q.encrypted else !q.encrypted) = true ↔ q.encrypted = decrypting := by
    cases decrypting <;> simp
  rw [hkind]
  constructor
  · rintro ⟨⟨l, hl, rfl⟩, hq⟩
    obtain ⟨rel, n, i, rfl, hi⟩ := Fs.of_below hdir hl
    exact ⟨rel, n, i, rfl, hi, hq⟩
  · rintro ⟨rel, n, i, rfl, hi, hq⟩
    refine ⟨⟨_, Fs.mem_below.2 ⟨⟨_, hi⟩, ?_, Fs.fileAt_iff.2 ⟨i, hi⟩⟩, rfl⟩, hq⟩
    rw [List.append_assoc]
    exact List.prefix_append _ _

theorem Fs.nodup_inputsFiles {decrypting : Bool} (hinput : fs.resolve false p = .ok d) (hdir : fs.nodeAt d = some .dir) :
    (fs.inputsFiles decrypting [p]).Nodup := by
  simp only [Fs.inputsFiles, List.flatMap_cons, List.flatMap_nil, List.append_nil, Fs.inputFiles, hinput,
    Fs.dirAt_iff.2 hdir, if_true]
  exact ((fs.nodup_below d _).map absolute_injective).filter _

/-- No two of them are the same, if no two have one key. -/
theorem Fs.Tidy.distinct (ht : fs.Tidy) {decrypting : Bool} (hinput : fs.resolve false p = .ok d)
    (hdir : fs.nodeAt d = some .dir) (hkeys : KeysApart env {l | .absolute l ∈ fs.inputsFiles decrypting [p]}) :
    fs.Distinct env (fs.inputsFiles decrypting [p]) := by
  refine (Fs.nodup_inputsFiles hinput hdir).imp_of_mem ?_
  intro a b ha hb hne hsame
  obtain ⟨rel, n, i, rfl, hi, -⟩ := (Fs.mem_inputsFiles hinput hdir).1 ha
  obtain ⟨rel', n', j, rfl, hj, -⟩ := (Fs.mem_inputsFiles hinput hdir).1 hb
  have hfile {l : List Name} {n : Name} {i : Nat} (h : fs.nodeAt (l ++ [n]) = some (.file i)) :
      fs.IsFile (.absolute (l ++ [n])) i :=
    ⟨_, (ht.at_absolute h).resolve (.inl rfl), by rw [ht.node]; exact h⟩
  rcases hsame with hkey | ⟨k, hk, hk'⟩
  · rw [ht.keyOf_eq (ht.at_absolute hi), ht.keyOf_eq (ht.at_absolute hj)] at hkey
    exact hne (congrArg Path.absolute (hkeys ha hb hkey))
  · have hij : i = j := ((hfile hi).unique hk).trans (hk'.unique (hfile hj))
    subst hij
    rw [ht.single _ _ _ hi hj] at hne
    exact hne rfl

/-- The files of a tree are places of text. -/
theorem Fs.Tidy.keysApart (ht : fs.Tidy) (hlinux : env.target = .linux) {decrypting : Bool}
    (hinput : fs.resolve false p = .ok d) (hdir : fs.nodeAt d = some .dir) :
    KeysApart env {l | .absolute l ∈ fs.inputsFiles decrypting [p]} := by
  refine .of_text hlinux ?_ ?_
  · intro l hl
    obtain ⟨rel, n, i, heq, -, -⟩ := (Fs.mem_inputsFiles hinput hdir).1 hl
    rw [absolute_injective heq]
    simp
  · intro l hl
    obtain ⟨rel, n, i, heq, hi, -⟩ := (Fs.mem_inputsFiles hinput hdir).1 hl
    rw [absolute_injective heq]
    exact fun m hm => (ht.valid_names hi hm).1

end

/-! ## There -/

/-- What is below `d` can be encrypted where it is: every file has a size and a name
that fit, and nothing is named like an encrypted file. -/
structure Fs.Sealable (fs : Fs) (d : List Name) : Prop where
  plain : ∀ rel n x, fs.nodeAt (d ++ rel ++ [n]) = some x → n.extension ≠ some ironlockExtension
  name : ∀ rel n x, fs.nodeAt (d ++ rel ++ [n]) = some x → n.bytes.length ≤ maxFilenameBytes
  size : ∀ rel n c, fs.bytesAt (d ++ rel ++ [n]) = some c → c.length < 2 ^ 64

/-- The transfers take every file below `d` to one beside it, and these are the
encrypted files there. -/
structure SealedBelow (d : List Name) (fs fs' : Fs) (jobs : List (Loc × Loc)) : Prop where
  restocked : fs.Restocked fs'
  separate : Transfer.Separate jobs
  beside : ∀ job ∈ jobs, ∃ rel m o, job = (d ++ rel ++ [m], d ++ rel ++ [o])
  covers : ∀ rel m c, fs.bytesAt (d ++ rel ++ [m]) = some c → ∃ o, (d ++ rel ++ [m], d ++ rel ++ [o]) ∈ jobs
  encrypted : ∀ rel o, o.extension = some ironlockExtension ∧ fs'.bytesAt (d ++ rel ++ [o]) ≠ none ↔
    ∃ m, (d ++ rel ++ [m], d ++ rel ++ [o]) ∈ jobs

section
variable {env : Env} {fs fs' : Fs} {p input : Path} {d : List Name} {m n : Name} {i : Nat}

/-- The files below a directory that can be encrypted fit. -/
theorem Fs.Sealable.fits (h : fs.Sealable d) (ht : fs.Tidy) {rel : List Name}
    (hfile : fs.nodeAt (d ++ rel ++ [m]) = some (.file i)) : fs.Fits (.absolute (d ++ rel ++ [m])) := by
  have hat := ht.at_absolute hfile
  constructor
  · rw [Fs.absolute_concat, Path.push_parentOrHere _ _ rfl]
    exact Fs.absolute_ne_empty _
  · intro m' hm'
    rw [Fs.absolute_concat, Path.push_fileName, Option.some.injEq] at hm'
    rw [← hm']
    exact h.name rel m _ hfile
  · rintro j ⟨names, hr, hj⟩
    rw [hat.resolve (.inl rfl)] at hr
    cases hr
    rw [ht.node] at hj
    exact h.size rel m _ (Fs.bytesAt_file hj)
  · rintro ⟨names, x, hr, hx⟩
    obtain ⟨⟨o, hdefault⟩, hencrypted, -⟩ := ht.defaultPath_at hat hfile
    obtain ⟨q, -, hq, -⟩ := hdefault.parent
    rw [hdefault.resolve (.inl rfl)] at hr
    cases hr
    rw [ht.node] at hx
    rw [hq, encrypted_iff] at hencrypted
    exact h.plain rel o x hx hencrypted

end

section
variable {env : Env} {console : Console} {input : Path} {d : List Name} {shred force progress : Bool}
  {s : Session} {w : World}

/-- When nothing fails, a directory that can be encrypted is, every file of it. -/
theorem encryptTree_seals {password : Bytes} (hr : env.Reliable) (hC : env.crates.Serves password) (ht : w.fs.Tidy)
    (hinput : w.fs.resolve false input = .ok d) (hdir : w.fs.nodeAt d = some .dir) (hsealable : w.fs.Sealable d)
    (hkeys : KeysApart env {l | .absolute l ∈ w.fs.inputsFiles false [input]})
    (hfresh : FreshSuffixes env w.fs w.draws (w.fs.inputsFiles false [input])) (force shred : Bool) :
    ∃ plans w₁ w₂, planEncryptionInputs env [input] w = (.ok plans, w₁) ∧
      encryptPlans env password force shred plans w₁ = (.ok (plans.map fun plan => .ok plan.output), w₂) ∧
      SealedBelow d w.fs w₂.fs (plans.map (EncryptionPlan.job w.fs)) ∧
      KeysApart env {l | ∃ job ∈ plans.map (EncryptionPlan.job w.fs), l = job.2} ∧
      Transfer.Run (Sealing env.crates password) shred (plans.map (EncryptionPlan.job w.fs)) w.fs.bytesAt
        w₂.fs.bytesAt := by
  have hfiles {q : Path} := @Fs.mem_inputsFiles w.fs input d false hinput hdir q
  have hplain {rel : List Name} {m : Name} {x : Node} (hx : w.fs.nodeAt (d ++ rel ++ [m]) = some x) :
      (Path.absolute (d ++ rel ++ [m])).encrypted = false := by
    rw [Bool.eq_false_iff, Fs.absolute_concat, Ne, encrypted_iff]
    exact hsealable.plain rel m x hx
  have hin : ∀ q ∈ [input], w.fs.Exists q :=
    List.forall_mem_singleton.2 ⟨d, .dir, hinput, by rw [ht.node]; exact hdir⟩
  have hfits : ∀ q ∈ w.fs.inputsFiles false [input], w.fs.Fits q := by
    intro q hq
    obtain ⟨rel, m, i, rfl, hi, -⟩ := hfiles.1 hq
    exact hsealable.fits ht hi
  obtain ⟨plans, w₁, w₂, hplan, hbatch, hplanned, hsep, hre, hrun⟩ := encryptInputs_completes hr hC ht hin
    (ht.distinct hinput hdir hkeys) hfresh hfits force shred
  -- where a plan is
  have hjob (plan : EncryptionPlan) (hmem : plan ∈ plans) : ∃ rel m o, plan.source = .absolute (d ++ rel ++ [m]) ∧
      plan.job w.fs = (d ++ rel ++ [m], d ++ rel ++ [o]) ∧ o.extension = some ironlockExtension := by
    obtain ⟨rel, m, i, hsource, hi, -⟩ := hfiles.1 (hplanned.source_mem hmem)
    obtain ⟨e, m', o, hat, houtput⟩ := hplanned.beside plan hmem
    have hat' := ht.at_absolute hi
    rw [← hsource] at hat'
    obtain ⟨rfl, rfl⟩ := hat.unique hat'
    refine ⟨rel, m', o, hsource, ?_, ?_⟩
    · rw [EncryptionPlan.job, hat.place, houtput.place]
    · obtain ⟨q, -, hq, -⟩ := houtput.parent
      have hencrypted := hplanned.encrypted plan hmem
      rwa [hq, encrypted_iff] at hencrypted
  have hbeside : ∀ job ∈ plans.map (EncryptionPlan.job w.fs), ∃ rel m o,
      job = (d ++ rel ++ [m], d ++ rel ++ [o]) ∧ o.extension = some ironlockExtension := by
    intro job hmem
    obtain ⟨plan, hplan, rfl⟩ := List.mem_map.1 hmem
    obtain ⟨rel, m, o, -, heq, hext⟩ := hjob plan hplan
    exact ⟨rel, m, o, heq, hext⟩
  refine ⟨plans, w₁, w₂, hplan, hbatch, ⟨hre, hsep, ?_, ?_, ?_⟩, ?_, hrun⟩
  · intro job hmem
    obtain ⟨rel, m, o, heq, -⟩ := hbeside job hmem
    exact ⟨rel, m, o, heq⟩
  · intro rel m c hc
    obtain ⟨i, hi, -⟩ := Fs.bytesAt_eq_some.1 hc
    have hmem := hplanned.sources.mem_iff.2 (hfiles.2 ⟨rel, m, i, rfl, hi, hplain hi⟩)
    obtain ⟨plan, hplan, hsource⟩ := List.mem_map.1 hmem
    obtain ⟨rel', m', o, hsource', heq, -⟩ := hjob plan hplan
    have hplace := absolute_injective (hsource'.symm.trans hsource)
    obtain ⟨hrel, hm⟩ := List.append_inj' hplace rfl
    obtain rfl := List.append_cancel_left hrel
    obtain rfl := (List.cons.inj hm).1
    exact ⟨o, heq ▸ List.mem_map_of_mem hplan⟩
  · intro rel o
    constructor
    · rintro ⟨hext, hthere⟩
      have hbefore : w.fs.bytesAt (d ++ rel ++ [o]) = none := by
        rw [Option.eq_none_iff_forall_ne_some]
        intro c hc
        obtain ⟨i, hi, -⟩ := Fs.bytesAt_eq_some.1 hc
        exact hsealable.plain rel o _ hi hext
      obtain ⟨job, hmem, htarget⟩ := List.mem_map.1 (hrun.new hbefore hthere hsep)
      obtain ⟨rel', m, o', rfl, -⟩ := hbeside job hmem
      obtain ⟨hrel, ho⟩ := List.append_inj' htarget rfl
      obtain rfl := List.append_cancel_left hrel
      obtain rfl := (List.cons.inj ho).1
      exact ⟨m, hmem⟩
    · rintro ⟨m, hmem⟩
      obtain ⟨rel', m', o', heq, hext⟩ := hbeside _ hmem
      obtain ⟨-, c, -, -, hc⟩ := hrun.at_target hsep hmem
      rw [Prod.mk.injEq] at heq
      obtain rfl := (List.cons.inj (List.append_inj' heq.2 rfl).2).1
      exact ⟨hext, by rw [hc]; exact Option.some_ne_none c⟩
  · rintro _ ⟨job, hmem, rfl⟩ _ ⟨job', hmem', rfl⟩ hkey
    obtain ⟨plan, hplan, rfl⟩ := List.mem_map.1 hmem
    obtain ⟨plan', hplan', rfl⟩ := List.mem_map.1 hmem'
    by_contra hne
    obtain ⟨e, m, n, -, hat⟩ := hplanned.beside plan hplan
    obtain ⟨e', m', n', -, hat'⟩ := hplanned.beside plan' hplan'
    have hsymm : Std.Symm fun a b : EncryptionPlan => w.fs.keyOf env a.output ≠ w.fs.keyOf env b.output :=
      ⟨fun _ _ => Ne.symm⟩
    refine hplanned.outputs.forall hplan hplan' (fun heq => hne (by rw [heq])) ?_
    simp only [EncryptionPlan.job, hat.place, hat'.place] at hkey
    rw [ht.keyOf_eq hat, ht.keyOf_eq hat', hkey]

/-- And the command ends in 0. -/
theorem encryptTree_completes {password : Str} (hr : env.Reliable) (hlinux : env.target = .linux)
    (hpassword : password.bytes ≠ []) (hC : env.crates.Serves password.bytes) (hconsole : console.Answers password)
    (ht : s.world.fs.Tidy) (hinput : s.world.fs.resolve false input = .ok d)
    (hdir : s.world.fs.nodeAt d = some .dir) (hsealable : s.world.fs.Sealable d)
    (hsome : ∃ rel m i, s.world.fs.nodeAt (d ++ rel ++ [m]) = some (.file i))
    (hfresh : FreshSuffixes env s.world.fs s.world.draws (s.world.fs.inputsFiles false [input]))
    (force shred progress : Bool) : ∃ t jobs, main env console (.encrypt [input] force shred progress) s = (0, t) ∧
      SealedBelow d s.world.fs t.world.fs jobs ∧
      Transfer.Run (Sealing env.crates password.bytes) shred jobs s.world.fs.bytesAt t.world.fs.bytesAt := by
  obtain ⟨plans, w₁, w₂, hplan, hbatch, hsealed, -, hrun⟩ := encryptTree_seals hr hC ht hinput hdir hsealable
    (ht.keysApart hlinux hinput hdir) hfresh force shred
  have hplans : plans ≠ [] := by
    rintro rfl
    obtain ⟨rel, m, i, hi⟩ := hsome
    obtain ⟨o, hmem⟩ := hsealed.covers rel m _ (Fs.bytesAt_file hi)
    cases hmem
  obtain ⟨t, hmain, rfl⟩ := main_encrypt_answered hconsole hpassword (List.cons_ne_nil _ _) hplan hplans hbatch
    (by simp [Except.isOk, Except.toBool])
  exact ⟨t, _, hmain, hsealed, hrun⟩

end

/-! ## And back -/

/-- Where the encrypted files below a directory are, and where what they hold was. -/
structure Located (fs' : Fs) (input : Path) (d : List Name) (jobs : List (Loc × Loc)) (rel : Path → List Name)
    (names : Path → Name × Name) : Prop where
  source : ∀ q ∈ fs'.inputsFiles true [input], q = .absolute (d ++ rel q ++ [(names q).2])
  job : ∀ q ∈ fs'.inputsFiles true [input], (d ++ rel q ++ [(names q).1], d ++ rel q ++ [(names q).2]) ∈ jobs

/-- Where the files below `d` come back to below `b`. -/
def copies (fs : Fs) (d b : List Name) : Set Loc :=
  {l | ∃ rel m c, fs.bytesAt (d ++ rel ++ [m]) = some c ∧ l = b ++ rel ++ [m]}

/-- The directory below `b` and the name that a plan's source comes back to. -/
def cameFrom (b : List Name) (rel : Path → List Name) (names : Path → Name × Name) (plan : DecryptionPlan) :
    List Name × Name := (b ++ rel plan.source, (names plan.source).1)

section
variable {env : Env} {C : Crates} {password : Bytes} {fs fs' : Fs} {input : Path} {base : Option Path}
  {d b r : List Name} {m m' o o' : Name} {shred : Bool} {jobs : List (Loc × Loc)} {plan : DecryptionPlan}
  {plans : List DecryptionPlan} {rel : Path → List Name} {names : Path → Name × Name}

/-- In one directory different files are sealed in different ones. -/
theorem SealedBelow.names_iff (h : SealedBelow d fs fs' jobs) (hmem : (d ++ r ++ [m], d ++ r ++ [o]) ∈ jobs)
    (hmem' : (d ++ r ++ [m'], d ++ r ++ [o']) ∈ jobs) : m = m' ↔ o = o' := by
  constructor
  · rintro rfl
    have heq := h.separate.of_source hmem hmem' rfl
    rw [Prod.mk.injEq] at heq
    exact (List.cons.inj (List.append_inj' heq.2 rfl).2).1
  · rintro rfl
    have heq := h.separate.of_target hmem hmem' rfl
    rw [Prod.mk.injEq] at heq
    exact (List.cons.inj (List.append_inj' heq.1 rfl).2).1

/-- What is to be opened was sealed. -/
theorem SealedBelow.located (h : SealedBelow d fs fs' jobs) (hinput : fs'.resolve false input = .ok d)
    (hdir : fs'.nodeAt d = some .dir) (n : Name) : ∃ rel names, Located fs' input d jobs rel names := by
  have hopens : ∀ q ∈ fs'.inputsFiles true [input], ∃ rel, ∃ names : Name × Name,
      q = .absolute (d ++ rel ++ [names.2]) ∧ (d ++ rel ++ [names.1], d ++ rel ++ [names.2]) ∈ jobs := by
    intro q hq
    obtain ⟨rel, o, i, rfl, hi, hext⟩ := (Fs.mem_inputsFiles hinput hdir).1 hq
    rw [Fs.absolute_concat, encrypted_iff] at hext
    obtain ⟨m, hmem⟩ := (h.encrypted rel o).1 ⟨hext, by rw [Fs.bytesAt_file hi]; exact Option.some_ne_none _⟩
    exact ⟨rel, (m, o), rfl, hmem⟩
  have hnames : Nonempty (Name × Name) := ⟨(n, n)⟩
  choose! rel names hsource hjob using hopens
  exact ⟨rel, names, hsource, hjob⟩

/-- Each file that was sealed is found again. -/
theorem SealedBelow.found (h : SealedBelow d fs fs' jobs)
    (hrun : Transfer.Run (Sealing C password) shred jobs fs.bytesAt fs'.bytesAt)
    (hinput : fs'.resolve false input = .ok d) (hdir : fs'.nodeAt d = some .dir)
    (hmem : (d ++ r ++ [m], d ++ r ++ [o]) ∈ jobs) : .absolute (d ++ r ++ [o]) ∈ fs'.inputsFiles true [input] := by
  obtain ⟨hext, -⟩ := (h.encrypted r o).2 ⟨m, hmem⟩
  obtain ⟨-, c, -, -, hc⟩ := hrun.at_target h.separate hmem
  obtain ⟨i, hi, -⟩ := Fs.bytesAt_eq_some.1 hc
  refine (Fs.mem_inputsFiles hinput hdir).2 ⟨r, o, i, rfl, hi, ?_⟩
  rw [Fs.absolute_concat]
  exact encrypted_iff.2 hext

/-- A file below a directory that is given is opened in the mirror of its own. -/
theorem Fs.Assigned.targetDir_eq (h : fs.Assigned base input plan) (ht : fs.Tidy)
    (hinput : fs.resolve false input = .ok d) (hdir : fs.nodeAt d = some .dir)
    (hsource : plan.source = .absolute (d ++ r ++ [o])) : plan.targetDir = mirrored base d r := by
  cases h with
  | given hfile =>
    obtain ⟨l, hl, hnode⟩ := hfile
    rw [hinput] at hl
    cases hl
    rw [ht.node, hdir] at hnode
    cases hnode
  | @found d' rel' n _ hin _ _ =>
    rw [hinput] at hin
    cases hin
    obtain ⟨hrel, -⟩ := List.append_inj' (absolute_injective hsource) rfl
    rw [← List.append_cancel_left hrel]

namespace Located

theorem place (h : Located fs' input d jobs rel names) (hsealed : SealedBelow d fs fs' jobs)
    (hrun : Transfer.Run (Sealing C password) shred jobs fs.bytesAt fs'.bytesAt) {q : Path}
    (hq : q ∈ fs'.inputsFiles true [input]) : fs'.place q = d ++ rel q ++ [(names q).2] ∧
      fs'.At q (d ++ rel q) (names q).2 ∧ ∃ i, fs'.nodeAt (d ++ rel q ++ [(names q).2]) = some (.file i) := by
  obtain ⟨-, c, -, -, hc⟩ := hrun.at_target hsealed.separate (h.job q hq)
  obtain ⟨i, hi, -⟩ := Fs.bytesAt_eq_some.1 hc
  have hat := hsealed.restocked.tidy.at_absolute hi
  rw [← h.source q hq] at hat
  exact ⟨hat.place, hat, i, hi⟩

/-- Each plan can be carried out. -/
theorem feasible (h : Located fs' input d jobs rel names) (ht : fs.Tidy) (hsealed : SealedBelow d fs fs' jobs)
    (hrun : Transfer.Run (Sealing env.crates password) shred jobs fs.bytesAt fs'.bytesAt)
    (hinput : fs'.resolve false input = .ok d) (hdir : fs'.nodeAt d = some .dir)
    (hmakes : ∀ rel m c, fs.bytesAt (d ++ rel ++ [m]) = some c → fs'.Makes (mirrored base d rel) (b ++ rel))
    (hfree : ∀ rel m c, fs.bytesAt (d ++ rel ++ [m]) = some c → fs'.nodeAt (b ++ rel ++ [m]) = none)
    (hq : plan.source ∈ fs'.inputsFiles true [input]) (hassigned : fs'.Assigned base input plan) :
    plan.Feasible env password fs' (cameFrom b rel names plan).1 (cameFrom b rel names plan).2 := by
  obtain ⟨hpos, hat, i, hi⟩ := h.place hsealed hrun hq
  obtain ⟨content, c, hcontent, hseals, hc⟩ := hrun.at_target hsealed.separate (h.job _ hq)
  obtain ⟨j, hj, -⟩ := Fs.bytesAt_eq_some.1 hcontent
  refine ⟨⟨_, _, hat⟩, ?_, ?_, ?_, ht.lasting _ _ _ hj, hfree _ _ _ hcontent⟩
  · obtain ⟨-, -, -, -, -, hext⟩ := (Fs.mem_inputsFiles hinput hdir).1 hq
    exact hext
  · rw [hpos]
    exact ⟨c, content, hc, hseals.move⟩
  · rw [hassigned.targetDir_eq hsealed.restocked.tidy hinput hdir (h.source _ hq)]
    exact hmakes _ _ _ hcontent

/-- And all of them, one after the other. -/
theorem decryptable (h : Located fs' input d jobs rel names) (ht : fs.Tidy)
    (hkeys : KeysApart env (copies fs d b ∪ {l | ∃ job ∈ jobs, l = job.2})) (hsealed : SealedBelow d fs fs' jobs)
    (hrun : Transfer.Run (Sealing env.crates password) shred jobs fs.bytesAt fs'.bytesAt)
    (hinput : fs'.resolve false input = .ok d) (hdir : fs'.nodeAt d = some .dir)
    (hmakes : ∀ rel m c, fs.bytesAt (d ++ rel ++ [m]) = some c → fs'.Makes (mirrored base d rel) (b ++ rel))
    (hfree : ∀ rel m c, fs.bytesAt (d ++ rel ++ [m]) = some c → fs'.nodeAt (b ++ rel ++ [m]) = none)
    (hperm : (plans.map (·.source)).Perm (fs'.inputsFiles true [input]))
    (hassigned : ∀ plan ∈ plans, ∃ q ∈ [input], fs'.Assigned base q plan) :
    Decryptable env password fs' (cameFrom b rel names) plans := by
  have hmem {plan : DecryptionPlan} (hplan : plan ∈ plans) : plan.source ∈ fs'.inputsFiles true [input] :=
    hperm.mem_iff.1 (List.mem_map_of_mem hplan)
  have hfeasible : ∀ plan ∈ plans, plan.Feasible env password fs' (cameFrom b rel names plan).1
      (cameFrom b rel names plan).2 := by
    intro plan hplan
    obtain ⟨q, hqin, hplanned⟩ := hassigned plan hplan
    rw [List.mem_singleton.1 hqin] at hplanned
    exact h.feasible ht hsealed hrun hinput hdir hmakes hfree (hmem hplan) hplanned
  have hcopy {plan : DecryptionPlan} (hplan : plan ∈ plans) :
      (cameFrom b rel names plan).1 ++ [(cameFrom b rel names plan).2] ∈ copies fs d b := by
    obtain ⟨content, -, hcontent, -⟩ := hrun.at_target hsealed.separate (h.job _ (hmem hplan))
    exact ⟨_, _, content, hcontent, rfl⟩
  constructor
  · exact hfeasible
  · have hnodup : (plans.map (·.source)).Nodup := hperm.nodup_iff.2 (Fs.nodup_inputsFiles hinput hdir)
    rw [List.Nodup, List.pairwise_map] at hnodup
    refine hnodup.imp_of_mem ?_
    intro x y hx hy hne hkey
    have heq := hkeys (.inl (hcopy hy)) (.inl (hcopy hx)) hkey
    obtain ⟨hrel, hm⟩ := List.append_inj' heq rfl
    have hrel := List.append_cancel_left hrel
    have hjob := h.job _ (hmem hx)
    rw [← hrel] at hjob
    have ho := (hsealed.names_iff (h.job _ (hmem hy)) hjob).1 (List.cons.inj hm).1
    apply hne
    rw [h.source _ (hmem hx), h.source _ (hmem hy), hrel, ho]
  · intro plan hplan other hother hkey
    obtain ⟨hpos, -, i, hi⟩ := h.place hsealed hrun (hmem hplan)
    simp only [DecryptionPlan.job, hpos] at hkey
    have heq := hkeys (.inl (hcopy hother)) (.inr ⟨_, h.job _ (hmem hplan), rfl⟩) hkey
    have hnone := (hfeasible other hother).free
    rw [heq, hi] at hnone
    cases hnone
  · intro plan hplan other hother hfront
    -- a file that was there would have a directory below it
    obtain ⟨content, -, hcontent, -⟩ := hrun.at_target hsealed.separate (h.job _ (hmem hplan))
    obtain ⟨content', -, hcontent', -⟩ := hrun.at_target hsealed.separate (h.job _ (hmem hother))
    obtain ⟨i, hi, -⟩ := Fs.bytesAt_eq_some.1 hcontent
    obtain ⟨j, hj, -⟩ := Fs.bytesAt_eq_some.1 hcontent'
    have hbelow : d ++ rel plan.source ++ [(names plan.source).1] <+: d ++ rel other.source := by
      rw [List.append_assoc]
      rw [cameFrom, cameFrom, List.append_assoc] at hfront
      exact (List.prefix_append_right_inj d).2 ((List.prefix_append_right_inj b).1 hfront)
    have hparent := ht.dirPath (ht.parent hj) _ hbelow
    rw [ht.node, hi] at hparent
    cases hparent

/-- The plan of a file that was there. -/
theorem planned (h : Located fs' input d jobs rel names) (hsealed : SealedBelow d fs fs' jobs)
    (hrun : Transfer.Run (Sealing C password) shred jobs fs.bytesAt fs'.bytesAt)
    (hinput : fs'.resolve false input = .ok d) (hdir : fs'.nodeAt d = some .dir)
    (hperm : (plans.map (·.source)).Perm (fs'.inputsFiles true [input])) {c : Bytes}
    (hc : fs.bytesAt (d ++ r ++ [m]) = some c) : ∃ plan ∈ plans, ∃ o, (d ++ r ++ [m], d ++ r ++ [o]) ∈ jobs ∧
      cameFrom b rel names plan = (b ++ r, m) ∧
      plan.job fs' (cameFrom b rel names) = (d ++ r ++ [o], b ++ r ++ [m]) := by
  obtain ⟨o, hthere⟩ := hsealed.covers r m c hc
  obtain ⟨plan, hplan, hq⟩ := List.mem_map.1 (hperm.mem_iff.2 (hsealed.found hrun hinput hdir hthere))
  have hmem := hperm.mem_iff.1 (List.mem_map_of_mem (f := (·.source)) hplan)
  obtain ⟨hrel, ho⟩ := List.append_inj' (absolute_injective ((h.source _ hmem).symm.trans hq)) rfl
  have hrel := List.append_cancel_left hrel
  have ho := (List.cons.inj ho).1
  have hjob := h.job _ hmem
  rw [hrel] at hjob
  have hm := (hsealed.names_iff hjob hthere).2 ho
  have htarget : cameFrom b rel names plan = (b ++ r, m) := by rw [cameFrom, hrel, hm]
  refine ⟨plan, hplan, o, hthere, htarget, ?_⟩
  rw [DecryptionPlan.job, htarget, (h.place hsealed hrun hmem).1, hrel, ho]

end Located

end

section
variable {env : Env} {console : Console} {input : Path} {base : Option Path} {d b : List Name}
  {shred force progress : Bool} {fs : Fs} {s : Session} {w : World} {jobs : List (Loc × Loc)}

/-- What a decryption of the sealed files below `d` leaves: each is back below `b`, and
no other file has changed. -/
structure OpenedBelow (d b : List Name) (fs fs' fs'' : Fs) : Prop where
  back : ∀ rel m c, fs.bytesAt (d ++ rel ++ [m]) = some c → fs''.bytesAt (b ++ rel ++ [m]) = some c
  kept : ∀ l, l ∉ copies fs d b → fs''.bytesAt l = fs'.bytesAt l

/-- When nothing fails, the sealed files of a directory are opened, every one of them, in
the directories below `b` that are like theirs. -/
theorem decryptTree_opens {password : Bytes} (hr : env.Reliable) (hC : env.crates.Inverts) (ht : fs.Tidy)
    (hsealed : SealedBelow d fs w.fs jobs)
    (hrun : Transfer.Run (Sealing env.crates password) shred jobs fs.bytesAt w.fs.bytesAt)
    (hinput : w.fs.resolve false input = .ok d) (hdir : w.fs.nodeAt d = some .dir)
    (hmakes : ∀ rel m c, fs.bytesAt (d ++ rel ++ [m]) = some c → w.fs.Makes (mirrored base d rel) (b ++ rel))
    (hfree : ∀ rel m c, fs.bytesAt (d ++ rel ++ [m]) = some c → w.fs.nodeAt (b ++ rel ++ [m]) = none)
    (hkeys : KeysApart env (copies fs d b ∪ {l | ∃ job ∈ jobs, l = job.2})) (force : Bool) :
    ∃ plans g g' w₁ w₂ w₃ results, planDecryptionInputs env [input] base w = (.ok plans, w₁) ∧
      DecryptionBatchGuard.new env plans w₁ = (.ok g, w₂) ∧
      decryptPlans env password force plans (w₂, g) = (.ok results, (w₃, g')) ∧ (∀ r ∈ results, r.isOk = true) ∧
      (plans = [] → copies fs d b = ∅) ∧ OpenedBelow d b fs w.fs w₃.fs := by
  have ht' := hsealed.restocked.tidy
  obtain ⟨rel, names, hlocated⟩ := hsealed.located hinput hdir nameA
  have hin : ∀ q ∈ [input], w.fs.Exists q :=
    List.forall_mem_singleton.2 ⟨d, .dir, hinput, by rw [ht'.node]; exact hdir⟩
  have hext : ∀ q ∈ [input], ∀ i, w.fs.IsFile q i → q.encrypted = true := by
    refine List.forall_mem_singleton.2 ?_
    rintro i ⟨l, hl, hnode⟩
    rw [hinput] at hl
    cases hl
    rw [ht'.node, hdir] at hnode
    cases hnode
  have hsources : KeysApart env {l | .absolute l ∈ w.fs.inputsFiles true [input]} := by
    refine hkeys.mono fun l hl => .inr ⟨_, hlocated.job _ hl, ?_⟩
    exact absolute_injective (hlocated.source _ hl)
  obtain ⟨plans, g, g', w₁, w₂, w₃, hplan, hnew, hbatch, hperm, -, hsep, -, hback⟩ :=
    decryptInputs_completes (cameFrom b rel names) hr hC ht' hin hext (ht'.distinct hinput hdir hsources)
      (fun plans => hlocated.decryptable ht hkeys hsealed hrun hinput hdir hmakes hfree) force
  have hplanned {r : List Name} {m : Name} {c : Bytes} (hc : fs.bytesAt (d ++ r ++ [m]) = some c) :=
    hlocated.planned (b := b) hsealed hrun hinput hdir hperm hc
  refine ⟨plans, g, g', w₁, w₂, w₃, _, hplan, hnew, hbatch, by simp [Except.isOk, Except.toBool], ?_, ?_, ?_⟩
  · rintro rfl
    rw [Set.eq_empty_iff_forall_notMem]
    rintro _ ⟨r, m, c, hc, -⟩
    obtain ⟨plan, hplan, -⟩ := hplanned hc
    cases hplan
  · intro r m c hc
    obtain ⟨plan, hplan, o, hthere, -, heq⟩ := hplanned hc
    have hagain : (d ++ r ++ [o], b ++ r ++ [m]) ∈ plans.map (DecryptionPlan.job w.fs (cameFrom b rel names)) :=
      heq ▸ List.mem_map_of_mem hplan
    rw [hrun.back hsealed.separate hback hsep hthere hagain fun x y z => SealsAt.unique hC, hc]
  · intro l hl
    apply hback.left hsep
    intro htargets
    obtain ⟨job, hjobs, rfl⟩ := List.mem_map.1 htargets
    obtain ⟨plan, hplan, rfl⟩ := List.mem_map.1 hjobs
    obtain ⟨content, -, hcontent, -⟩ := hrun.at_target hsealed.separate
      (hlocated.job _ (hperm.mem_iff.1 (List.mem_map_of_mem hplan)))
    exact hl ⟨_, _, content, hcontent, rfl⟩

/-- On Linux the copies and the encrypted files are places of text. -/
theorem SealedBelow.keysApart {C : Crates} {password : Bytes} {fs' : Fs} (h : SealedBelow d fs fs' jobs)
    (hrun : Transfer.Run (Sealing C password) shred jobs fs.bytesAt fs'.bytesAt) (hlinux : env.target = .linux)
    (ht : fs.Tidy)
    (hmakes : ∀ rel m c, fs.bytesAt (d ++ rel ++ [m]) = some c → fs'.Makes (mirrored base d rel) (b ++ rel)) :
    KeysApart env (copies fs d b ∪ {l | ∃ job ∈ jobs, l = job.2}) := by
  refine .of_text hlinux ?_ ?_
  · rintro l (⟨rel, m, c, -, rfl⟩ | ⟨job, hjob, rfl⟩)
    · simp
    · obtain ⟨rel, m, o, rfl⟩ := h.beside job hjob
      simp
  · rintro l (⟨rel, m, c, hc, rfl⟩ | ⟨job, hjob, rfl⟩) n hn
    · obtain ⟨i, hi, -⟩ := Fs.bytesAt_eq_some.1 hc
      rcases List.mem_append.1 hn with hn | hn
      · exact (hmakes _ _ _ hc).text h.restocked.tidy n hn
      · exact (ht.valid_names hi (List.mem_append_right _ hn)).1
    · obtain ⟨rel, m, o, rfl⟩ := h.beside job hjob
      obtain ⟨-, c, -, -, hc⟩ := hrun.at_target h.separate hjob
      obtain ⟨i, hi, -⟩ := Fs.bytesAt_eq_some.1 hc
      exact (h.restocked.tidy.valid_names hi hn).1

/-- And the command ends in 0. -/
theorem decryptTree_completes {password : Str} (hr : env.Reliable) (hlinux : env.target = .linux)
    (hpassword : password.bytes ≠ []) (hC : env.crates.Inverts) (hconsole : console.Answers password) (ht : fs.Tidy)
    (hsealed : SealedBelow d fs s.world.fs jobs)
    (hrun : Transfer.Run (Sealing env.crates password.bytes) shred jobs fs.bytesAt s.world.fs.bytesAt)
    (hinput : s.world.fs.resolve false input = .ok d) (hdir : s.world.fs.nodeAt d = some .dir)
    (hsome : ∃ rel m c, fs.bytesAt (d ++ rel ++ [m]) = some c)
    (hmakes : ∀ rel m c, fs.bytesAt (d ++ rel ++ [m]) = some c → s.world.fs.Makes (mirrored base d rel) (b ++ rel))
    (hfree : ∀ rel m c, fs.bytesAt (d ++ rel ++ [m]) = some c → s.world.fs.nodeAt (b ++ rel ++ [m]) = none)
    (force progress : Bool) : ∃ t, main env console (.decrypt [input] base force progress) s = (0, t) ∧
      OpenedBelow d b fs s.world.fs t.world.fs := by
  obtain ⟨plans, g, g', w₁, w₂, w₃, results, hplan, hnew, hbatch, hall, hnone, hopened⟩ := decryptTree_opens hr hC ht
    hsealed hrun hinput hdir hmakes hfree (hsealed.keysApart hrun hlinux ht hmakes) force
  have hplans : plans ≠ [] := by
    intro hnil
    obtain ⟨rel, m, c, hc⟩ := hsome
    exact Set.eq_empty_iff_forall_notMem.1 (hnone hnil) _ ⟨rel, m, c, hc, rfl⟩
  obtain ⟨t, hmain, rfl⟩ := main_decrypt_answered hconsole hpassword (List.cons_ne_nil _ _) hplan hplans hnew hbatch hall
  exact ⟨t, hmain, hopened⟩

end

/-! ## There and back -/

section
variable {fs : Fs} {p : Path} {d b t rel : List Name} {n : Name}

/-- Below a free place there is nothing. -/
theorem Fs.Tree.absent_below (ht : fs.Tree) (h : fs.nodeAt b = none) (rel : List Name) :
    fs.nodeAt (b ++ rel) = none := by
  rw [Option.eq_none_iff_forall_ne_some]
  intro x hx
  obtain ⟨y, hy⟩ := ht.front (List.prefix_append b rel) hx
  rw [h] at hy
  cases hy

/-- The names on the way to what is there last. -/
theorem Fs.Tidy.lasting_names (ht : fs.Tidy) {x : Node} (h : fs.nodeAt (d ++ rel) = some x) :
    ∀ n ∈ rel, n.Lasting := by
  induction rel using List.reverseRecOn generalizing x with
  | nil => simp
  | append_singleton rel m ih =>
    rw [← List.append_assoc] at h
    have hparent := ht.parents _ x h
    rw [List.dropLast_concat] at hparent
    intro n hn
    rcases List.mem_append.1 hn with hn | hn
    · exact ih hparent n hn
    · rw [List.mem_singleton.1 hn]
      exact ht.lasting _ m x h

/-- Away from the directory that is sealed every file is as it was. -/
theorem SealedBelow.elsewhere {fs' : Fs} {jobs : List (Loc × Loc)} {R : Loc → Loc → Bytes → Bytes → Prop} {away : Bool}
    {l : Loc} (h : SealedBelow d fs fs' jobs) (hrun : Transfer.Run R away jobs fs.bytesAt fs'.bytesAt)
    (hl : ¬d <+: l) : fs'.bytesAt l = fs.bytesAt l := by
  have hjob : ∀ job ∈ jobs, d <+: job.1 ∧ d <+: job.2 := by
    intro job hmem
    obtain ⟨rel, m, o, rfl⟩ := h.beside job hmem
    exact ⟨⟨rel ++ [m], (List.append_assoc ..).symm⟩, rel ++ [o], (List.append_assoc ..).symm⟩
  apply hrun.kept
  · intro hmem
    obtain ⟨job, hj, rfl⟩ := List.mem_map.1 hmem
    exact hl (hjob job hj).1
  · intro hmem
    obtain ⟨job, hj, rfl⟩ := List.mem_map.1 hmem
    exact hl (hjob job hj).2

/-- Where a directory can be made, so can those below it. -/
theorem Fs.Makes.below (h : fs.Makes p t) (hempty : ∀ rel ≠ [], fs.nodeAt (t ++ rel) = none)
    (hrel : ∀ n ∈ rel, n.Lasting) : fs.Makes (p.join (.relative rel)) (t ++ rel) := by
  obtain ⟨front, e, names, hparts, hplain, hends, rfl, hroom⟩ := h.parts
  have hjoin : p.join (.relative rel) = ⟨p.anchor, p.parts ++ rel.map .name, (p.join (.relative rel)).dirOnly⟩ := by
    simp [Path.join, Path.relative, Path.isAbsolute, h.ne_empty]
  have hnul : ∀ n ∈ rel, n.bytes.contains 0 = false := fun n hn => (hrel n hn).nul
  rw [hjoin]
  refine ⟨h.start, ⟨front, e, names ++ rel, ?_, hplain, hends, List.append_assoc .., ?_⟩, ?_, ?_⟩
  · simp only [hparts, List.map_append, List.append_assoc]
  · intro l n hln
    rcases List.prefix_or_prefix_of_prefix hln (List.prefix_append names rel) with hl | hl
    · exact hroom l n hl
    · rcases List.prefix_concat_iff.1 hl with rfl | ⟨k, rfl⟩
      · exact hroom l n (List.prefix_refl _)
      · rw [List.append_assoc, List.prefix_append_right_inj] at hln
        refine .inr ⟨?_, hrel n (hln.subset (by simp))⟩
        have := hempty (k ++ [n]) (by simp)
        simpa only [List.append_assoc] using this
  · have := h.nul
    simp only [Path.hasNul, List.any_append, Bool.or_eq_false_iff] at this ⊢
    refine ⟨this, ?_⟩
    simpa using hnul
  · exact h.named.imp_right fun h => by simp [h]

/-- What can be made is no file. -/
theorem Fs.Makes.no_file (h : fs.Makes p t) (ht : fs.Tidy) : fs.bytesAt t = none := by
  obtain ⟨front, e, names, -, hplain, rfl, rfl, hroom⟩ := h.parts
  refine Fs.bytesAt_none fun i hi => ?_
  rcases names.eq_nil_or_concat with rfl | ⟨before, n, rfl⟩
  · have hnode := (h.start.lexicalFrom hplain).node
    rw [ht.node] at hnode
    rw [List.append_nil, hnode] at hi
    cases hi
  · rw [List.concat_eq_append] at hroom hi
    rw [← List.append_assoc] at hi
    rcases hroom before n (List.prefix_refl _) with hdir | ⟨hnone, -⟩
    · rw [hdir] at hi
      cases hi
    · rw [hnone] at hi
      cases hi

/-- A place where nothing is, apart from the directory that is sealed. -/
structure Fs.Vacant (fs : Fs) (base : Path) (d b : List Name) : Prop where
  makes : fs.Makes base b
  empty : ∀ rel ≠ [], fs.nodeAt (b ++ rel) = none
  apart : ¬d <+: b

section
variable {C : Crates} {password : Bytes} {base : Path} {fs' fs'' : Fs} {shred : Bool} {jobs : List (Loc × Loc)}
  {l : Loc}

/-- Nothing of the directory is on the way to what is made. -/
theorem Fs.Vacant.clear (h : fs.Vacant base d b) (hdir : fs.nodeAt d = some .dir) (hl : l <+: b ++ rel) : ¬d <+: l := by
  intro hd
  rcases List.prefix_or_prefix_of_prefix (hd.trans hl) (List.prefix_append b rel) with hdb | ⟨k, rfl⟩
  · exact h.apart hdb
  · rcases k.eq_nil_or_concat with rfl | ⟨k, n, rfl⟩
    · exact h.apart (by rw [List.append_nil])
    · rw [h.empty _ (by simp)] at hdir
      cases hdir

/-- What was free elsewhere is free still. -/
theorem SealedBelow.free (h : SealedBelow d fs fs' jobs) (ht : fs.Tidy)
    (hrun : Transfer.Run (Sealing C password) shred jobs fs.bytesAt fs'.bytesAt) (hl : ¬d <+: l)
    (hnone : fs.nodeAt l = none) : fs'.nodeAt l = none := by
  have hbefore := ht.absent_iff.1 hnone
  refine h.restocked.tidy.absent_iff.2 ⟨?_, by rw [h.restocked.dirAt]; exact hbefore.2⟩
  rw [← hbefore.1]
  exact h.elsewhere hrun hl

theorem Fs.Vacant.makes_below (h : fs.Vacant base d b) (ht : fs.Tidy) (hdir : fs.nodeAt d = some .dir)
    (hsealed : SealedBelow d fs fs' jobs)
    (hrun : Transfer.Run (Sealing C password) shred jobs fs.bytesAt fs'.bytesAt) {m : Name} {c : Bytes}
    (hc : fs.bytesAt (d ++ rel ++ [m]) = some c) : fs'.Makes (mirrored (some base) d rel) (b ++ rel) := by
  obtain ⟨i, hi, -⟩ := Fs.bytesAt_eq_some.1 hc
  have hparent := ht.parents _ _ hi
  rw [List.dropLast_concat] at hparent
  refine (h.makes.below h.empty (ht.lasting_names hparent)).keep hsealed.restocked.keeps fun l hl hnone => .inl ?_
  exact hsealed.free ht hrun (h.clear hdir hl) hnone

/-- The copy is whole, and there is nothing else in it. -/
theorem Fs.Vacant.copied (h : fs.Vacant base d b) (ht : fs.Tidy) (hdir : fs.nodeAt d = some .dir)
    (hsealed : SealedBelow d fs fs' jobs)
    (hrun : Transfer.Run (Sealing C password) shred jobs fs.bytesAt fs'.bytesAt)
    (hopened : OpenedBelow d b fs fs' fs'') (rel : List Name) : fs''.bytesAt (b ++ rel) = fs.bytesAt (d ++ rel) := by
  rcases hb : fs.bytesAt (d ++ rel) with _ | c
  · rw [hopened.kept _ ?_, hsealed.elsewhere hrun (h.clear hdir (List.prefix_refl _))]
    · rcases rel.eq_nil_or_concat with rfl | ⟨k, n, rfl⟩
      · rw [List.append_nil]
        exact h.makes.no_file ht
      · exact (ht.absent_iff.1 (h.empty _ (by simp))).1
    · rintro ⟨rel', m, c, hc, heq⟩
      rw [List.append_assoc, List.append_cancel_left_eq] at heq
      rw [List.append_assoc, ← heq, hb] at hc
      cases hc
  · rcases rel.eq_nil_or_concat with rfl | ⟨rel, m, rfl⟩
    · rw [List.append_nil, Fs.bytesAt_none fun i => by rw [hdir]; simp] at hb
      cases hb
    · rw [List.concat_eq_append, ← List.append_assoc] at hb ⊢
      exact hopened.back rel m c hb

end

end

section
variable {env env' : Env} {input base : Path} {d b : List Name} {force shred force' : Bool} {w : World}

/-- On targets whose keys ignore case: no two files below `d` have one key, nor two of
their copies below `b`, and no copy has that of an encrypted file. -/
structure Fs.ToldApart (env : Env) (fs : Fs) (d b : List Name) : Prop where
  files : KeysApart env (copies fs d d)
  copies : KeysApart env (copies fs d b)
  sealed : ∀ l ∈ Ironlock.copies fs d b, ∀ rel o, o.extension = some ironlockExtension →
    keyText env (.absolute l) ≠ keyText env (.absolute (d ++ rel ++ [o]))

end

/-- A directory `/a` of two files. -/
def twoBelow (n m : Name) : World :=
  ⟨(((((Fs.blank []).mkdir [] nameA).create [nameA] n).create [nameA] m).setContent 0 [1, 2, 3]).setContent 1 [4, 5],
    0, 0, []⟩

section
variable {n m k : Name} {rel : List Name} {x : Node}

theorem twoBelow_nodeAt : (twoBelow n m).fs.nodeAt = Function.update (Function.update
    (Function.update (Fs.blank []).nodeAt [nameA] (some .dir)) [nameA, n] (some (.file 0))) [nameA, m] (some (.file 1)) := by
  simp only [twoBelow, Fs.setContent_nodeAt, Fs.create_nodeAt, Fs.mkdir_nodeAt]
  rfl

theorem twoBelow_only (h : (twoBelow n m).fs.nodeAt ([nameA] ++ rel ++ [k]) = some x) : rel = [] ∧ (k = n ∨ k = m) := by
  have hlast {o : Name} (heq : [nameA] ++ rel ++ [k] = [nameA] ++ [o]) : rel = [] ∧ k = o := by
    obtain ⟨hrel, hk⟩ := List.append_inj' heq rfl
    exact ⟨List.append_right_eq_self.1 hrel, List.singleton_inj.1 hk⟩
  simp only [twoBelow_nodeAt, Function.update_apply] at h
  split at h
  · rename_i heq
    exact ⟨(hlast heq).1, .inr (hlast heq).2⟩
  split at h
  · rename_i heq
    exact ⟨(hlast heq).1, .inl (hlast heq).2⟩
  split at h
  · rename_i heq
    exact absurd (congrArg List.length heq) (by simp)
  · simp [Fs.nodeAt, Fs.blank] at h

theorem twoBelow_tidy (hne : n ≠ m) (hn : n.Lasting) (hm : m.Lasting) : (twoBelow n m).fs.Tidy := by
  have ha : nameA.Lasting := Name.lasting_letter rfl (by decide) (by decide)
  have hdir : ((Fs.blank []).mkdir [] nameA).Tidy := (Fs.tidy_blank.mkdir rfl rfl ha).1
  have hnone (k : Name) : ((Fs.blank []).mkdir [] nameA).nodeAt ([nameA] ++ [k]) = none := by
    rw [Fs.mkdir_nodeAt, Function.update_of_ne (by simp)]
    rfl
  have hfirst : (((Fs.blank []).mkdir [] nameA).create [nameA] n).Tidy := hdir.create rfl (hnone n) hn
  have hthere : (((Fs.blank []).mkdir [] nameA).create [nameA] n).nodeAt [nameA] = some .dir := by
    rw [Fs.create_nodeAt, Function.update_of_ne (by simp)]
    rfl
  have hfree : (((Fs.blank []).mkdir [] nameA).create [nameA] n).nodeAt ([nameA] ++ [m]) = none := by
    rw [Fs.create_nodeAt, hdir.exact, Function.update_of_ne (by simpa using hne.symm)]
    exact hnone m
  exact ((hfirst.create hthere hfree hm).setContent 0 [1, 2, 3]).setContent 1 [4, 5]

theorem twoBelow_sealable (hn : n.extension ≠ some ironlockExtension ∧ n.bytes.length ≤ maxFilenameBytes)
    (hm : m.extension ≠ some ironlockExtension ∧ m.bytes.length ≤ maxFilenameBytes) :
    (twoBelow n m).fs.Sealable [nameA] := by
  constructor
  · intro rel k x h
    obtain ⟨-, rfl | rfl⟩ := twoBelow_only h
    · exact hn.1
    · exact hm.1
  · intro rel k x h
    obtain ⟨-, rfl | rfl⟩ := twoBelow_only h
    · exact hn.2
    · exact hm.2
  · intro rel k c h
    obtain ⟨i, -, rfl⟩ := Fs.bytesAt_eq_some.1 h
    simp only [twoBelow, Fs.setContent]
    split
    · decide
    split
    · decide
    · rename_i hone hzero
      simp [Fs.create, Fs.mkdir, Fs.put, Fs.allocateInode, Fs.blank, hone, hzero]

theorem twoBelow_vacant {b : Name} (hb : b.Lasting) (hne : b ≠ nameA) :
    (twoBelow n m).fs.Vacant (.absolute [b]) [nameA] [b] := by
  have hnone (rel : List Name) : (twoBelow n m).fs.nodeAt (b :: rel) = none := by
    rw [twoBelow_nodeAt, Function.update_of_ne (by simp [hne]), Function.update_of_ne (by simp [hne]),
      Function.update_of_ne (by simp [hne])]
    rfl
  refine ⟨⟨Fs.dirPath_nil _, ⟨[], [], [b], rfl, Fs.plainFrom_nil.2 rfl, rfl, rfl, ?_⟩, ?_, .inl (by simp [Path.absolute])⟩, ?_, ?_⟩
  · intro l k hl
    have hlen := hl.length_le
    rw [List.length_append, List.length_singleton, List.length_singleton] at hlen
    obtain rfl : l = [] := List.length_eq_zero_iff.1 (by omega)
    obtain rfl : k = b := List.singleton_inj.1 (hl.eq_of_length rfl)
    exact .inr ⟨hnone [], hb⟩
  · simpa [Path.hasNul, Path.absolute] using hb.nul
  · exact fun rel _ => hnone rel
  · intro hfront
    exact hne (List.singleton_inj.1 (hfront.eq_of_length rfl)).symm

end

theorem macos_reliable : macos.Reliable :=
  ⟨fun _ _ => rfl, fun _ => rfl, by simp [macos, Env.calm], by simp [Env.Accepting, Writer.Accepting, macos, Env.calm]⟩

/-- Keys in lower case have the first letter of their path. -/
theorem macos_key (l : List Name) {n : Name} {c : UInt8} (hn : n.bytes = [c]) (hc : c < 0x80) :
    (keyText macos (.absolute (n :: l))).take 2 = lowercaseAscii [slash, c] := by
  obtain ⟨rest, hrest⟩ : ∃ rest, (Path.absolute (n :: l)).render = [slash] ++ c :: rest := by
    rw [render_absolute, List.map_cons, hn]
    cases l with
    | nil => exact ⟨[], rfl⟩
    | cons m l => exact ⟨_, rfl⟩
  rw [keyText, if_neg (by decide), hrest, Utf8.lossy_ascii hc]
  rfl

section
variable {env env' : Env} {console console' : Console} {input base : Path} {d b : List Name}
  {force shred progress force' progress' : Bool} {s : Session}

/-- A directory comes back whole. When nothing fails and no one interferes, a directory
whose files can be encrypted is encrypted, shredded or not, and whoever then decrypts it
with the password to a free place elsewhere gets a copy: at every place below, the bytes
that were there before. Away from the copy the decryption changes no file. -/
theorem tree_round_trip {password : Str} (hr : env.Reliable) (hr' : env'.Reliable) (hlinux : env.target = .linux)
    (hlinux' : env'.target = .linux) (hsame : env'.crates = env.crates) (hC : env.crates.Inverts)
    (hpassword : password.bytes ≠ []) (hserves : env.crates.Serves password.bytes)
    (hconsole : console.Answers password) (hconsole' : console'.Answers password) (ht : s.world.fs.Tidy)
    (hinput : s.world.fs.resolve false input = .ok d) (hdir : s.world.fs.nodeAt d = some .dir)
    (hsealable : s.world.fs.Sealable d) (hsome : ∃ rel m i, s.world.fs.nodeAt (d ++ rel ++ [m]) = some (.file i))
    (hfresh : FreshSuffixes env s.world.fs s.world.draws (s.world.fs.inputsFiles false [input]))
    (hbase : s.world.fs.Makes base b) (hnone : s.world.fs.nodeAt b = none) (hapart : ¬d <+: b) :
    ∃ t, main env console (.encrypt [input] force shred progress) s = (0, t) ∧
      ∀ s' : Session, s'.world.fs = t.world.fs →
        ∃ t', main env' console' (.decrypt [input] (some base) force' progress') s' = (0, t') ∧
          (∀ rel, t'.world.fs.bytesAt (b ++ rel) = s.world.fs.bytesAt (d ++ rel)) ∧
          ∀ l, ¬b <+: l → t'.world.fs.bytesAt l = t.world.fs.bytesAt l := by
  obtain ⟨t, jobs, hmain, hsealed, hrun⟩ := encryptTree_completes hr hlinux hpassword hserves hconsole ht hinput hdir
    hsealable hsome hfresh force shred progress
  have hvacant : s.world.fs.Vacant base d b := ⟨hbase, fun rel _ => ht.absent_below hnone rel, hapart⟩
  have hk := hsealed.restocked.keeps
  have hmakes (rel : List Name) (m : Name) (c : Bytes) (hc : s.world.fs.bytesAt (d ++ rel ++ [m]) = some c) :=
    hvacant.makes_below ht hdir hsealed hrun hc
  refine ⟨t, hmain, fun s' hs' => ?_⟩
  have hsome' : ∃ rel m c, s.world.fs.bytesAt (d ++ rel ++ [m]) = some c := by
    obtain ⟨rel, m, i, hi⟩ := hsome
    exact ⟨rel, m, _, Fs.bytesAt_file hi⟩
  rw [← hs'] at hsealed hrun hk hmakes
  have hfree (rel : List Name) (m : Name) (c : Bytes) (_ : s.world.fs.bytesAt (d ++ rel ++ [m]) = some c) :
      s'.world.fs.nodeAt (b ++ rel ++ [m]) = none := by
    rw [List.append_assoc]
    exact hsealed.free ht hrun (hvacant.clear hdir (List.prefix_refl _)) (hvacant.empty _ (by simp))
  obtain ⟨t', hmain', hopened⟩ := decryptTree_completes hr' hlinux' hpassword (by rwa [hsame]) hconsole' ht hsealed
    (by rwa [hsame]) (hk.resolve hinput) (hk.dirs _ hdir) hsome' hmakes hfree force' progress'
  refine ⟨t', hmain', hvacant.copied ht hdir hsealed hrun hopened, fun l hl => ?_⟩
  rw [hopened.kept l ?_, hs']
  rintro ⟨rel, m, c, -, rfl⟩
  apply hl
  rw [List.append_assoc]
  exact List.prefix_append ..

end

theorem textBelow_sealable : textBelow.fs.Sealable [nameA] := by
  have honly (rel : List Name) (n : Name) (x : Node) (h : textBelow.fs.nodeAt ([nameA] ++ rel ++ [n]) = some x) :
      rel = [] ∧ n = nameB := by
    simp only [textBelow, Fs.setContent_nodeAt, Fs.create_nodeAt, Fs.mkdir_nodeAt, Function.update_apply] at h
    split at h
    · rename_i heq
      obtain ⟨hrel, hn⟩ := List.append_inj' heq rfl
      exact ⟨List.append_right_eq_self.1 hrel, List.singleton_inj.1 hn⟩
    split at h
    · rename_i heq
      exact absurd (congrArg List.length heq) (by simp)
    · simp [Fs.nodeAt, Fs.blank] at h
  constructor
  · intro rel n x h
    obtain ⟨rfl, rfl⟩ := honly rel n x h
    decide
  · intro rel n x h
    obtain ⟨rfl, rfl⟩ := honly rel n x h
    decide
  · intro rel n c h
    obtain ⟨i, hi, -⟩ := Fs.bytesAt_eq_some.1 h
    obtain ⟨rfl, rfl⟩ := honly rel n _ hi
    have hc : textBelow.fs.bytesAt ([nameA] ++ [] ++ [nameB]) = some [1, 2, 3] := by decide +kernel
    rw [hc] at h
    cases h
    decide

/-- `/a` encrypted and shredded, and what was below it decrypted to `/c`. -/
theorem tree_round_trip_a : ∃ t t',
    main (Env.calm .checksummed) (.answering passwordPw []) (.encrypt [.absolute [nameA]] false true false)
      (.start textBelow) = (0, t) ∧
    main (Env.calm .checksummed) (.answering passwordPw [])
      (.decrypt [.absolute [nameA]] (some (.absolute [nameC])) false false) (.start t.world) = (0, t') ∧
    t'.world.fs.bytesAt [nameC, nameB] = some [1, 2, 3] := by
  have hbase : textBelow.fs.Makes (.absolute [nameC]) [nameC] := by
    refine ⟨Fs.dirPath_nil _, ⟨[], [], [nameC], rfl, ?_, rfl, rfl, ?_⟩, by decide, .inl (by decide)⟩
    · intro front hfront
      rw [List.prefix_nil.1 hfront]
      decide +kernel
    · intro l n hl
      rcases List.prefix_cons_iff.1 hl with hnil | ⟨rest, heq, hrest⟩
      · simp at hnil
      · rw [List.prefix_nil.1 hrest] at heq
        have heq : l ++ [n] = [] ++ [nameC] := heq
        obtain ⟨rfl, hn⟩ := List.append_inj' heq rfl
        rw [List.singleton_inj.1 hn]
        exact .inr ⟨by decide +kernel, Name.lasting_letter rfl (by decide) (by decide)⟩
  obtain ⟨t, hmain, hback⟩ := @tree_round_trip (Env.calm .checksummed) (Env.calm .checksummed)
    (.answering passwordPw []) (.answering passwordPw []) (.absolute [nameA]) (.absolute [nameC]) [nameA]
    [nameC] false true false false false (.start textBelow) passwordPw (Env.calm_reliable _) (Env.calm_reliable _) rfl rfl rfl
    Crates.checksummed_exact.toInverts (by decide) (Crates.checksummed_serves _) (answering_answers _ _)
    (answering_answers _ _) textBelow_tidy (by decide +kernel) (by decide +kernel) textBelow_sealable
    ⟨[], nameB, 0, by decide +kernel⟩ textBelow_fresh hbase (by decide +kernel) (by decide)
  obtain ⟨t', hmain', hbytes, -⟩ := hback (.start t.world) rfl
  exact ⟨t, t', hmain, hmain', (hbytes [nameB]).trans (by decide +kernel)⟩

/-! ## In place -/

section
variable {env env' : Env} {console console' : Console} {password : Str} {input : Path} {d : List Name}
  {force progress force' progress' : Bool} {s : Session}

/-- And in place: when the sources were shredded, a decryption without an output brings
every file of the tree back to where it was. -/
theorem tree_restored_in_place (hr : env.Reliable) (hr' : env'.Reliable) (hlinux : env.target = .linux)
    (hlinux' : env'.target = .linux) (hsame : env'.crates = env.crates) (hC : env.crates.Inverts)
    (hpassword : password.bytes ≠ []) (hserves : env.crates.Serves password.bytes)
    (hconsole : console.Answers password) (hconsole' : console'.Answers password) (ht : s.world.fs.Tidy)
    (hinput : s.world.fs.resolve false input = .ok d) (hdir : s.world.fs.nodeAt d = some .dir)
    (hsealable : s.world.fs.Sealable d) (hsome : ∃ rel m i, s.world.fs.nodeAt (d ++ rel ++ [m]) = some (.file i))
    (hfresh : FreshSuffixes env s.world.fs s.world.draws (s.world.fs.inputsFiles false [input])) :
    ∃ t, main env console (.encrypt [input] force true progress) s = (0, t) ∧
      (∀ rel m c, s.world.fs.bytesAt (d ++ rel ++ [m]) = some c → t.world.fs.bytesAt (d ++ rel ++ [m]) = none) ∧
      ∀ s' : Session, s'.world.fs = t.world.fs →
        ∃ t', main env' console' (.decrypt [input] none force' progress') s' = (0, t') ∧
          ∀ l c, s.world.fs.bytesAt l = some c → t'.world.fs.bytesAt l = some c := by
  obtain ⟨t, jobs, hmain, hsealed, hrun⟩ := encryptTree_completes hr hlinux hpassword hserves hconsole ht hinput hdir
    hsealable hsome hfresh force true progress
  have hk := hsealed.restocked.keeps
  have ht' := hsealed.restocked.tidy
  -- the sources are gone
  have hgone {rel : List Name} {m : Name} {c : Bytes} (hc : s.world.fs.bytesAt (d ++ rel ++ [m]) = some c) :
      t.world.fs.bytesAt (d ++ rel ++ [m]) = none := by
    obtain ⟨o, hjob⟩ := hsealed.covers rel m c hc
    have hsource := hrun.at_source hsealed.separate hjob
    rwa [if_pos rfl] at hsource
  have hfree {rel : List Name} {m : Name} {c : Bytes} (hc : s.world.fs.bytesAt (d ++ rel ++ [m]) = some c) :
      t.world.fs.nodeAt (d ++ rel ++ [m]) = none := by
    refine ht'.absent_iff.2 ⟨hgone hc, ?_⟩
    obtain ⟨i, hi, -⟩ := Fs.bytesAt_eq_some.1 hc
    rw [hsealed.restocked.dirAt, Fs.dirAt, hi]
    rfl
  have hmakes (rel : List Name) (m : Name) (c : Bytes) (hc : s.world.fs.bytesAt (d ++ rel ++ [m]) = some c) :
      t.world.fs.Makes (mirrored none d rel) (d ++ rel) := by
    obtain ⟨i, hi, -⟩ := Fs.bytesAt_eq_some.1 hc
    have hparent := hk.dirs _ (ht.parent hi)
    refine ⟨Fs.dirPath_nil _, ⟨[], [], d ++ rel, rfl, ?_, rfl, rfl, ?_⟩, ht'.toTree.absolute_nul hparent,
      .inl (by simp [mirrored, Path.absolute])⟩
    · exact Fs.plainFrom_nil.2 rfl
    · intro l n hln
      have hnode := ((ht'.dirPath hparent).front hln).node
      rw [ht'.node] at hnode
      exact .inl hnode
  refine ⟨t, hmain, fun _ _ _ => hgone, fun s' hs' => ?_⟩
  have hsome' : ∃ rel m c, s.world.fs.bytesAt (d ++ rel ++ [m]) = some c := by
    obtain ⟨rel, m, i, hi⟩ := hsome
    exact ⟨rel, m, _, Fs.bytesAt_file hi⟩
  rw [← hs'] at hsealed hrun hk hmakes
  have hfree' (rel : List Name) (m : Name) (c : Bytes) (hc : s.world.fs.bytesAt (d ++ rel ++ [m]) = some c) :
      s'.world.fs.nodeAt (d ++ rel ++ [m]) = none := by
    rw [hs']
    exact hfree hc
  obtain ⟨t', hmain', hopened⟩ := decryptTree_completes hr' hlinux' hpassword (by rwa [hsame]) hconsole' ht hsealed
    (by rwa [hsame]) (hk.resolve hinput) (hk.dirs _ hdir) hsome' hmakes hfree' force' progress'
  refine ⟨t', hmain', fun l c hc => ?_⟩
  by_cases hl : d <+: l
  · obtain ⟨k, rfl⟩ := hl
    rcases k.eq_nil_or_concat with rfl | ⟨rel, m, rfl⟩
    · rw [List.append_nil, Fs.bytesAt_none fun i => by rw [hdir]; simp] at hc
      cases hc
    · rw [List.concat_eq_append, ← List.append_assoc] at hc ⊢
      exact hopened.back rel m c hc
  · rw [hopened.kept l ?_, hsealed.elsewhere hrun hl, hc]
    rintro ⟨rel, m, -, -, rfl⟩
    apply hl
    rw [List.append_assoc]
    exact List.prefix_append ..

end

/-- `/a` encrypted and shredded, and decrypted where it was. -/
theorem tree_restored_in_place_a : ∃ t t',
    main (Env.calm .checksummed) (.answering passwordPw []) (.encrypt [.absolute [nameA]] false true false)
      (.start textBelow) = (0, t) ∧ t.world.fs.bytesAt [nameA, nameB] = none ∧
    main (Env.calm .checksummed) (.answering passwordPw []) (.decrypt [.absolute [nameA]] none false false)
      (.start t.world) = (0, t') ∧ t'.world.fs.bytesAt [nameA, nameB] = some [1, 2, 3] := by
  obtain ⟨t, hmain, hgone, hback⟩ := @tree_restored_in_place (Env.calm .checksummed) (Env.calm .checksummed)
    (.answering passwordPw []) (.answering passwordPw []) passwordPw (.absolute [nameA]) [nameA]
    false false false false (.start textBelow) (Env.calm_reliable _) (Env.calm_reliable _) rfl rfl rfl
    Crates.checksummed_exact.toInverts (by decide) (Crates.checksummed_serves _) (answering_answers _ _)
    (answering_answers _ _) textBelow_tidy (by decide +kernel) (by decide +kernel) textBelow_sealable
    ⟨[], nameB, 0, by decide +kernel⟩ textBelow_fresh
  have hbytes : textBelow.fs.bytesAt [nameA, nameB] = some [1, 2, 3] := by decide +kernel
  obtain ⟨t', hmain', hall⟩ := hback (.start t.world) rfl
  exact ⟨t, t', hmain, hgone [] nameB _ hbytes, hmain', hall _ _ hbytes⟩

end Ironlock
