import Ironlock.EncryptionCompletion
import Ironlock.LossyKeys
import Ironlock.Respelled

/-! A file that is encrypted under two spellings of its path: which of them are as good as
each other. -/

namespace Ironlock
open ByteOrder (Bytes)
open Effect
open Fs (Identity Metadata SysCall)

section
variable {env : Env} {p q a b x y : Path} {d : List Name}

/-! ## The plan of one file -/

theorem joinRaw_beside (p q : Path) {raw : Bytes} (h : validName raw = true) :
    Beside p q (p.joinRaw raw) (q.joinRaw raw) :=
  ⟨⟨raw, h⟩, p.joinRaw_bytes ⟨raw, h⟩, q.joinRaw_bytes ⟨raw, h⟩⟩

theorem Fs.Twins.parentsOrEmpty {fs : Fs} (h : fs.Twins p q d) (hab : Beside p q a b) :
    a.parentOrEmpty = p ∧ b.parentOrEmpty = q := by
  have hparents := h.parents hab
  obtain ⟨n, rfl, rfl⟩ := hab
  simpa only [Path.parentOrHere, Path.parentOrEmpty, Path.push_parent, Option.getD_some] using hparents

theorem Beside.fileName (hab : Beside p q a b) : ∃ n, a.fileName = some n ∧ b.fileName = some n := by
  obtain ⟨n, rfl, rfl⟩ := hab
  exact ⟨n, Path.push_fileName _ n, Path.push_fileName _ n⟩

theorem Beside.fileStem (hab : Beside p q a b) : a.fileStem = b.fileStem := by
  obtain ⟨n, ha, hb⟩ := hab.fileName
  rw [Path.fileStem, Path.fileStem, ha, hb]

/-- A stem of text with more of a name after it is a name. -/
theorem validName_stem {stem : Str} {tail : Bytes} (hstem : toStr a.fileStem = some stem) (htail : slash ∉ tail)
    (hlen : 2 < tail.length) : validName (stem.bytes ++ tail) = true := by
  obtain ⟨m, -, heq⟩ := fileStem_eq_some (toStr_eq_some hstem)
  apply validName_of_length
  · rw [heq, List.mem_append, not_or]
    exact ⟨fun h => m.slash_not_mem (Name.stem_subset h), htail⟩
  · rw [List.length_append]
    omega

theorem defaultEncryptedPath_beside {fs : Fs} (h : fs.Twins p q d) (hab : Beside p q a b) :
    (∃ x y, defaultEncryptedPath a = .ok x ∧ defaultEncryptedPath b = .ok y ∧ Beside p q x y) ∨
      ∃ e e', defaultEncryptedPath a = .error e ∧ defaultEncryptedPath b = .error e' := by
  obtain ⟨hp, hq⟩ := h.parentsOrEmpty hab
  have hstem := hab.fileStem
  rcases hs : toStr a.fileStem with _ | stem
  · refine .inr ⟨_, _, by rw [defaultEncryptedPath, hs], by rw [defaultEncryptedPath, ← hstem, hs]⟩
  · have hvalid : validName (stem.bytes ++ ([dot] ++ ironlockExtension)) = true :=
      validName_stem hs (by decide) (by decide)
    rw [← List.append_assoc] at hvalid
    refine .inl ⟨_, _, by rw [defaultEncryptedPath, hs], by rw [defaultEncryptedPath, ← hstem, hs], ?_⟩
    rw [hp, hq]
    exact joinRaw_beside p q hvalid

theorem uniqueEncryptedPath_inStep (hr : env.Reliable) (hab : Beside p q a b) (unavailable : List Bytes) :
    InStep p q d (Beside p q) (uniqueEncryptedPath env a unavailable) (uniqueEncryptedPath env b unavailable) := by
  refine .of_related fun _ _ h => ?_
  obtain ⟨hp, hq⟩ := h.2.parentsOrEmpty hab
  rw [uniqueEncryptedPath, uniqueEncryptedPath, ← hab.fileStem]
  rcases hs : toStr a.fileStem with _ | stem
  · exact .fail _ _
  simp only
  generalize 128 = tries
  induction tries with
  | zero => exact .fail _ _
  | succ tries ih =>
    rw [uniqueEncryptedPathIn, uniqueEncryptedPathIn, hp, hq]
    refine .bind_eq (draw_inStep _) fun suffix => ?_
    have hslash : slash ∉ ascii "-" ++ hex16 suffix ++ [dot] ++ ironlockExtension := by
      simp only [List.mem_append, not_or]
      exact ⟨⟨⟨by decide, slash_not_mem_hex16 _⟩, by decide⟩, by decide⟩
    have hvalid := validName_stem hs hslash (by simp only [List.length_append, length_hex16]; omega)
    simp only [← List.append_assoc] at hvalid
    have hxy := joinRaw_beside p q hvalid
    refine .bind_eq (normalizedPathKey_inStep hr hxy) fun key => .ite Iff.rfl ih ?_
    exact .bind_eq (exists_inStep hr hxy) fun there => .ite Iff.rfl ih (.pure hxy)

theorem planOutput_inStep (hr : env.Reliable) (hab : Beside p q a b) (hxy : Beside p q x y)
    (defaultKeys unavailable : List Bytes) : InStep p q d (fun r r' => Beside p q r.1 r'.1 ∧ r.2 = r'.2)
      (planOutput env defaultKeys unavailable a x) (planOutput env defaultKeys unavailable b y) := by
  have hcollides : InStep p q d Eq (collides env defaultKeys unavailable a x)
      (collides env defaultKeys unavailable b y) :=
    .bind_eq (normalizedPathKey_inStep hr hxy) fun _ =>
      .ite Iff.rfl (.pure rfl) (pathsReferToSameFile_inStep hr hab hxy)
  refine .bind_eq hcollides fun taken => ?_
  have hkey (x y : Path) (hxy : Beside p q x y) : InStep p q d (fun r r' => Beside p q r.1 r'.1 ∧ r.2 = r'.2) (do
      let outputKey ← normalizedPathKey env x
      if outputKey ∈ unavailable then
        Eff.fail (.outputCollision [.text "multiple inputs map to '", .path x, .text "'"])
      else return (x, outputKey)) (do
      let outputKey ← normalizedPathKey env y
      if outputKey ∈ unavailable then
        Eff.fail (.outputCollision [.text "multiple inputs map to '", .path y, .text "'"])
      else return (y, outputKey)) :=
    .bind_eq (normalizedPathKey_inStep hr hxy) fun _ => .ite Iff.rfl (.fail _ _) (.pure ⟨hxy, rfl⟩)
  exact .ite Iff.rfl (.bind (uniqueEncryptedPath_inStep hr hab unavailable) hkey) (hkey x y hxy)

/-- A file given alone is all that is collected. -/
theorem collectInputs_file (hr : env.Reliable) {fs : Fs} {k i : Nat} (h : fs.IsFile a i) :
    Answers fs k (collectInputs env [a] false) (.ok [a]) k := by
  obtain ⟨names, hresolve, hfile⟩ := h
  have hlook := symlinkMetadata_answers (k := k) hr.quiet hr.faultless hresolve hfile
  have hinput : Answers fs k (collectInput env false a) (.ok [a]) k :=
    .bind hlook (.bind (rejectLink_answers rfl) (.ite_neg (by simp [Metadata.isDir]) (.ite_pos rfl (.pure _))))
  have hall : Answers fs k (collectInputs env [a] false) (.ok ([a].mergeSort Path.le)) k :=
    .bind (.bind hinput (.pure _)) (.pure _)
  rwa [List.mergeSort_singleton] at hall

/-- From the same file under two spellings the same is planned, or nothing. -/
theorem planEncryptionInputs_beside (hr : env.Reliable) (hab : Beside p q a b) {w w' : World} (hw : Level p q d w w')
    {i : Nat} (ha : w.fs.IsFile a i) (hb : w.fs.IsFile b i) :
    (∃ x y u u', planEncryptionInputs env [a] w = (.ok [⟨a, x⟩], u) ∧
      planEncryptionInputs env [b] w' = (.ok [⟨b, y⟩], u') ∧ Beside p q x y ∧ Level p q d u u') ∨
    ∃ e e' u u', planEncryptionInputs env [a] w = (.error e, u) ∧
      planEncryptionInputs env [b] w' = (.error e', u') := by
  obtain ⟨u, hu, hsu⟩ := (collectInputs_file (k := w.draws) hr ha).run (s := w) rfl
  obtain ⟨u', hu', hsu'⟩ := (collectInputs_file (k := w.draws) hr hb).run (s := w') hw.1
  have hfs : u.fs = w.fs := congrArg Prod.fst hsu
  have hlevel : Level p q d u u' := ⟨hsu'.trans hsu.symm, by rw [hfs]; exact hw.2⟩
  rw [planEncryptionInputs, planEncryptionInputs, Eff.bind_ok hu, Eff.bind_ok hu']
  have hregister : InStep p q d Eq (registerSources env [a] [] []) (registerSources env [b] [] []) :=
    .bind_eq (normalizedPathKey_inStep hr hab) fun _ => .bind_eq (handleFromPath_inStep hr hab) fun _ =>
      .ite Iff.rfl (.fail _ _) (.pure rfl)
  have hdefaults : InStep p q d (fun r r' => ∃ x y, r = [x] ∧ r' = [y] ∧ Beside p q x y)
      (Eff.ofExcept (defaultEncryptedPaths [a])) (Eff.ofExcept (defaultEncryptedPaths [b])) := by
    refine .of_related fun _ _ h => .ofExcept ?_
    rcases defaultEncryptedPath_beside h.2 hab with ⟨x, y, hx, hy, hxy⟩ | ⟨e, e', hx, hy⟩
    · refine .inl ⟨[x], [y], ?_, ?_, x, y, rfl, rfl, hxy⟩
      · rw [defaultEncryptedPaths, hx]
        rfl
      · rw [defaultEncryptedPaths, hy]
        rfl
    · refine .inr ⟨e, e', ?_, ?_⟩
      · rw [defaultEncryptedPaths, hx]
        rfl
      · rw [defaultEncryptedPaths, hy]
        rfl
  have hplan {m m' : Eff World IronlockError (List EncryptionPlan)}
      (h : InStep p q d (fun r r' => ∃ x y, r = [⟨a, x⟩] ∧ r' = [⟨b, y⟩] ∧ Beside p q x y) m m') :
      (∃ x y v v', m u = (.ok [⟨a, x⟩], v) ∧ m' u' = (.ok [⟨b, y⟩], v') ∧ Beside p q x y ∧ Level p q d v v') ∨
        ∃ e e' v v', m u = (.error e, v) ∧ m' u' = (.error e', v') := by
    rcases h u u' hlevel with ⟨_, _, v, v', hv, hv', ⟨x, y, rfl, rfl, hxy⟩, hend⟩ | ⟨e, e', v, v', hv, hv'⟩
    · exact .inl ⟨x, y, v, v', hv, hv', hxy, hend⟩
    · exact .inr ⟨e, e', v, v', hv, hv'⟩
  refine hplan (.bind_eq hregister fun keys => .bind hdefaults ?_)
  rintro _ _ ⟨x, y, rfl, rfl, hxy⟩
  have hkeys : InStep p q d Eq (pathKeys env [x]) (pathKeys env [y]) :=
    .bind_eq (normalizedPathKey_inStep hr hxy) fun _ => .bind_eq (.pure rfl) fun _ => .pure rfl
  refine .bind_eq hkeys fun defaultKeys => .bind (planOutput_inStep hr hab hxy defaultKeys keys.1) ?_
  rintro ⟨output, key⟩ ⟨output', _⟩ ⟨houtput, rfl⟩
  refine .bind (V := fun plans plans' => plans = [] ∧ plans' = []) (.pure ⟨rfl, rfl⟩) ?_
  rintro _ _ ⟨rfl, rfl⟩
  exact .pure ⟨output, output', rfl, rfl, houtput⟩

end

/-! ## One file, spelled in two ways -/

namespace Fs
variable {fs : Fs} {p q : Path} {names found d : List Name} {n : Name} {i : Nat} {follow : Bool}

/-- The way that a walk takes to what follows is one of directories, when there are no links. -/
theorem LinkFree.plainFrom_of_walkWith (h : fs.LinkFree) {parts : List Part} {rest : List Hop}
    {next : List Hop → List Name → Except ErrorKind (List Name)} (hd : fs.DirPath names) (hrest : rest ≠ [])
    (hw : fs.walkWith follow next (parts.map some ++ rest) names = .ok found) : fs.PlainFrom names parts := by
  induction parts generalizing names with
  | nil => exact plainFrom_nil.2 hd.node
  | cons part parts ih =>
    cases part with
    | up => exact plainFrom_cons.2 ⟨hd.node, ih hd.dropLast hw⟩
    | name n =>
      simp only [List.map_cons, List.cons_append, Fs.walkWith] at hw
      rcases hx : fs.node (names ++ [n]) with _ | x <;> rw [hx] at hw
      · simp [hrest] at hw
      cases x with
      | dir => exact plainFrom_cons.2 ⟨hd.node, ih (dirPath_concat.2 ⟨hd, hx⟩) hw⟩
      | symlink t => exact absurd hx (h.links _ t)
      | _ => simp [hrest] at hw

/-- A regular file's path is a name after a plain path to its directory. -/
theorem Literal.plain (h : fs.Literal) (hfile : fs.IsFile p i) (hr : fs.resolve false p = .ok names) :
    ∃ q d n, p = q.push (.name n) ∧ q.dirOnly = false ∧ fs.Plain q d ∧ names = d ++ [n] := by
  obtain ⟨parts, n, hp⟩ := hfile.last h.cwd
  obtain ⟨hnul, -, hwalk⟩ := resolve_eq_ok hr
  have hhops : p.hops = parts.map some ++ [n.hop] := by
    rw [hp]
    simp [Path.hops, Name.hop]
  rw [hhops] at hwalk
  have hplain : fs.PlainFrom (fs.start p) parts :=
    h.free.plainFrom_of_walkWith (fs.start_dirPath h.cwd p) (List.cons_ne_nil _ _) hwalk
  rw [walk_plain hplain, walk_name (.inl rfl)] at hwalk
  cases hwalk
  have hclean : Path.hasNul ⟨p.anchor, parts, false⟩ = false := by
    rw [hp, Path.hasNul, List.any_append, Bool.or_eq_false_iff] at hnul
    exact hnul.1
  exact ⟨⟨p.anchor, parts, false⟩, _, n, hp, rfl, ⟨fs.start_dirPath h.cwd p, hplain, rfl, hclean⟩, rfl⟩

/-- Two paths to one place. -/
def Together (fs : Fs) (p q : Path) : Prop :=
  ∃ names, fs.resolve false p = .ok names ∧ fs.resolve false q = .ok names

end Fs

/-- The path is a single component: its parent is the empty path. -/
def Path.Bare (p : Path) : Prop := p.parent = some .empty

instance (p : Path) : Decidable p.Bare := inferInstanceAs (Decidable (p.parent = some .empty))

/-- Planning the path alone, and then encrypting what is planned, returns `out`. -/
def Encrypts (env : Env) (password : Bytes) (force shred : Bool) (p : Path) (w : World) (out : Path) (w' : World) :
    Prop :=
  ∃ plan w₁, planEncryptionInputs env [p] w = (.ok [plan], w₁) ∧
    encryptFileToPath env plan.source plan.output password force shred w₁ = (.ok out, w')

/-- When `p` can be encrypted so can `q`: the same is left, with the output at one place. -/
def EncryptsToo (env : Env) (password : Bytes) (force shred : Bool) (w : World) (p q : Path) : Prop :=
  ∀ out w', Encrypts env password force shred p w out w' →
    ∃ out' w'', Encrypts env password force shred q w out' w'' ∧ w''.fs = w'.fs ∧ w.fs.Together out out'

/-- What comes of encrypting a file does not depend on which of the two paths names it. -/
def SameOutcome (env : Env) (password : Bytes) (force shred : Bool) (w : World) (p q : Path) : Prop :=
  EncryptsToo env password force shred w p q ∧ EncryptsToo env password force shred w q p

section
variable {env : Env} {password : Bytes} {force shred : Bool} {p q a b out : Path} {w w' : World} {i : Nat}

/-- The plan of a file given alone is to encrypt it to a name beside it. -/
theorem planEncryptionInputs_one (hr : env.Reliable) (hfile : w.fs.IsFile p i) {plan : EncryptionPlan}
    (h : planEncryptionInputs env [p] w = (.ok [plan], w')) :
    plan.source = p ∧ ∃ n, plan.output = p.parentOrEmpty.push (.name n) ∧ n.bytes.contains 0 = false := by
  obtain ⟨sources, w₁, hcollect, h⟩ := Eff.bind_eq_ok.1 h
  obtain ⟨hsources, -⟩ := (collectInputs_file (k := w.draws) hr hfile).unique rfl hcollect
  cases hsources
  obtain ⟨keys, w₂, -, h⟩ := Eff.bind_eq_ok.1 h
  obtain ⟨defaults, w₃, hdefaults, h⟩ := Eff.bind_eq_ok.1 h
  rw [Eff.ofExcept_apply, Prod.mk.injEq] at hdefaults
  obtain ⟨horder, hbeside⟩ := defaultEncryptedPaths_beside hdefaults.1
  obtain ⟨defaultKeys, w₄, -, h⟩ := Eff.bind_eq_ok.1 h
  obtain ⟨hsource, hfresh, -⟩ := planOutputs_fresh hr.quiet hr.faultless.honest hbeside h
  rw [horder] at hsource
  have hsource : plan.source = p := (List.cons.inj hsource).1
  obtain ⟨⟨n, hn⟩, key, ⟨q, hq, -⟩, -⟩ := hfresh plan List.mem_cons_self
  rw [hsource] at hn
  rw [hn] at hq
  exact ⟨hsource, n, hn, Fs.keyPath_push_nul hq⟩

/-- A single component is never encrypted: its output has no directory to make absolute. -/
theorem Path.Bare.not_encrypts (h : p.Bare) (hr : env.Reliable) (hfile : w.fs.IsFile p i) :
    ¬Encrypts env password force shred p w out w' := by
  rintro ⟨plan, w₁, hplan, hrun⟩
  obtain ⟨-, n, houtput, -⟩ := planEncryptionInputs_one hr hfile hplan
  have hempty : p.parentOrEmpty = .empty := by rw [Path.parentOrEmpty, h, Option.getD_some]
  rw [hempty] at houtput
  rw [encryptFileToPath_eq] at hrun
  obtain ⟨source, w₂, -, hrun⟩ := Eff.bind_eq_ok.1 hrun
  obtain ⟨committed, w₃, hwrite, -⟩ := Eff.bind_eq_ok.1 hrun
  obtain ⟨o, w₄, hnew, -⟩ := Eff.bind_eq_ok.1 hwrite
  obtain ⟨_, w₅, hsafe, -⟩ := Eff.bind_eq_ok.1 hnew
  rw [houtput, Path.push_parentOrHere _ _ rfl] at hsafe
  obtain ⟨a, w₆, habs, -⟩ := Eff.bind_eq_ok.1 hsafe
  cases habs

theorem Fs.Together.symm {fs : Fs} (h : fs.Together a b) : fs.Together b a := by
  obtain ⟨names, ha, hb⟩ := h
  exact ⟨names, hb, ha⟩

theorem Fs.Together.isFile {fs : Fs} (h : fs.Together a b) (hfile : fs.IsFile a i) : fs.IsFile b i := by
  obtain ⟨names, ha, hb⟩ := h
  obtain ⟨found, hr, hx⟩ := hfile
  rw [ha] at hr
  cases hr
  exact ⟨names, hb, hx⟩

/-- Two paths with a directory part are twins with a name after them. -/
theorem twins_of_together (hfs : w.fs.Literal) (hfile : w.fs.IsFile a i) (hsame : w.fs.Together a b)
    (ha : ¬a.Bare) (hb : ¬b.Bare) : ∃ p q d, Beside p q a b ∧ w.fs.Twins p q d ∧ w.fs.IsFile b i := by
  have hfile' := hsame.isFile hfile
  obtain ⟨names, hra, hrb⟩ := hsame
  obtain ⟨p, d, n, rfl, hp, hplain, hnames⟩ := hfs.plain hfile hra
  obtain ⟨q, d', n', rfl, hq, hplain', hnames'⟩ := hfs.plain hfile' hrb
  obtain ⟨rfl, hn⟩ := List.append_inj' (hnames.symm.trans hnames') rfl
  obtain rfl := (List.cons.inj hn).1
  have hne {p : Path} (hp : p.dirOnly = false) (hbare : ¬(p.push (.name n)).Bare) : p ≠ .empty := by
    rintro rfl
    exact hbare (Path.push_parent _ _)
  exact ⟨p, q, d, ⟨n, rfl, rfl⟩, ⟨hplain, hplain', ⟨hne hp ha, hne hq hb⟩, ⟨hp, hq⟩, hfs.nul.cwd⟩, hfile'⟩

theorem encryptsToo_of_together (hr : env.Reliable) (hc : ∀ j k, env.confirm j = env.confirm k) (hfs : w.fs.Literal)
    (hfile : w.fs.IsFile a i) (hsame : w.fs.Together a b) (ha : ¬a.Bare) (hb : ¬b.Bare) :
    EncryptsToo env password force shred w a b := by
  obtain ⟨p, q, d, hab, htwins, hfile'⟩ := twins_of_together hfs hfile hsame ha hb
  rintro out w' ⟨plan, w₁, hplan, hrun⟩
  rcases planEncryptionInputs_beside hr hab ⟨rfl, htwins⟩ hfile hfile' with
    ⟨x, y, u, u', hu, hu', hxy, hlevel⟩ | ⟨e, e', u, u', hu, -⟩
  · rw [hplan] at hu
    cases hu
    obtain ⟨_, w'', hrun', ⟨rfl, rfl⟩, hend⟩ :=
      (encryptFileToPath_inStep hr hc hab hxy password force shred).ok hlevel hrun
    refine ⟨_, w'', ⟨_, u', hu', hrun'⟩, congrArg Prod.fst hend.1, ?_⟩
    obtain ⟨-, n, hn, hnul⟩ := planEncryptionInputs_one hr hfile hplan
    obtain ⟨m, rfl, rfl⟩ := hxy
    have hm : m.bytes.contains 0 = false := by
      rw [(htwins.parentsOrEmpty hab).1] at hn
      obtain rfl : m = n := by simpa [Path.push] using congrArg Path.parts hn
      exact hnul
    exact ⟨d ++ [m], (htwins.left.at_push hm).resolve (.inl rfl), (htwins.right.at_push hm).resolve (.inl rfl)⟩
  · rw [hplan] at hu
    cases hu

/-- Encrypting a regular file has one outcome under any two spellings of its path, as long
as both of them or neither is a single component. A single component is never encrypted,
so with one of them the outcomes agree only where the file cannot be encrypted at all. -/
theorem spelling_of_source (hr : env.Reliable) (hc : ∀ j k, env.confirm j = env.confirm k) (hfs : w.fs.Literal)
    (hfile : w.fs.IsFile p i) (hsame : w.fs.Together p q) :
    ((p.Bare ↔ q.Bare) → SameOutcome env password force shred w p q) ∧
      (¬(p.Bare ↔ q.Bare) → (SameOutcome env password force shred w p q ↔
        ∀ out w', ¬Encrypts env password force shred p w out w' ∧ ¬Encrypts env password force shred q w out w')) := by
  have hfile' := hsame.isFile hfile
  constructor
  · intro hboth
    by_cases hp : p.Bare
    · exact ⟨fun out w' h => absurd h (hp.not_encrypts hr hfile),
        fun out w' h => absurd h ((hboth.1 hp).not_encrypts hr hfile')⟩
    · have hq := mt hboth.2 hp
      exact ⟨encryptsToo_of_together hr hc hfs hfile hsame hp hq,
        encryptsToo_of_together hr hc hfs hfile' hsame.symm hq hp⟩
  · intro hone
    constructor
    · rintro ⟨hpq, hqp⟩ out w'
      by_cases hp : p.Bare
      · refine ⟨hp.not_encrypts hr hfile, fun h => ?_⟩
        obtain ⟨out', w'', h', -⟩ := hqp out w' h
        exact hp.not_encrypts hr hfile h'
      · have hq : q.Bare := by
          by_contra hq
          exact hone ⟨fun h => absurd h hp, fun h => absurd h hq⟩
        refine ⟨fun h => ?_, hq.not_encrypts hr hfile'⟩
        obtain ⟨out', w'', h', -⟩ := hpq out w' h
        exact hq.not_encrypts hr hfile' h'
    · exact fun hnone => ⟨fun out w' h => absurd h (hnone out w').1, fun out w' h => absurd h (hnone out w').2⟩

end

/-- `/a/b` and `a/../a/b` are encrypted and shredded alike. -/
theorem spelling_of_source_below : ∃ out w' out' w'',
    Encrypts (Env.calm .checksummed) [112, 119] true true (.absolute [nameA, nameB]) textBelow out w' ∧
    Encrypts (Env.calm .checksummed) [112, 119] true true ⟨.bare, [.name nameA, .up, .name nameA, .name nameB], false⟩
      textBelow out' w'' ∧
    w''.fs = w'.fs ∧ textBelow.fs.Together out out' := by
  have hplan := Eff.run_eq_ok (m := planEncryptionInputs (Env.calm .checksummed) [.absolute [nameA, nameB]])
    (s := textBelow) (a := [⟨.absolute [nameA, nameB], .absolute [nameA, ⟨[98, 46, 105, 108], rfl⟩]⟩])
    (by decide +kernel)
  have hrun := Eff.run_eq_ok (m := encryptFileToPath (Env.calm .checksummed) (.absolute [nameA, nameB])
      (.absolute [nameA, ⟨[98, 46, 105, 108], rfl⟩]) [112, 119] true true)
    (s := (planEncryptionInputs (Env.calm .checksummed) [.absolute [nameA, nameB]] textBelow).2)
    (a := .absolute [nameA, ⟨[98, 46, 105, 108], rfl⟩]) (by decide +kernel)
  have hfile : textBelow.fs.IsFile (.absolute [nameA, nameB]) 0 := ⟨[nameA, nameB], by decide +kernel⟩
  have hsame : textBelow.fs.Together (.absolute [nameA, nameB])
      ⟨.bare, [.name nameA, .up, .name nameA, .name nameB], false⟩ := ⟨[nameA, nameB], by decide +kernel⟩
  obtain ⟨hboth, -⟩ := @spelling_of_source (Env.calm .checksummed) [112, 119] true true _ _ textBelow 0
    (Env.calm_reliable _) (fun _ _ => rfl) textBelow_tidy.toTree.literal hfile hsame
  obtain ⟨out', w'', hother, hfs, hplace⟩ := (hboth (by decide)).1 _ _ ⟨_, _, hplan, hrun⟩
  exact ⟨_, _, out', w'', ⟨_, _, hplan, hrun⟩, hother, hfs, hplace⟩

/-- `a` and `./a` in the root directory: the second is encrypted, and the first is not. -/
theorem spelling_of_source_bare :
    let env := Env.calm .checksummed
    let p := Path.parse [97]
    let q := Path.parse [46, 47, 97]
    env.Reliable ∧ (∀ j k, env.confirm j = env.confirm k) ∧ textA.fs.Literal ∧ textA.fs.IsFile p 0 ∧
    textA.fs.Together p q ∧ (∃ out w', Encrypts env [112, 119] false false q textA out w') ∧
    ¬SameOutcome env [112, 119] false false textA p q := by
  intro env p q
  have ha : Name.Lasting ⟨[97], rfl⟩ := Name.lasting_letter rfl (by decide) (by decide)
  have htidy : textA.fs.Tidy :=
    (Fs.tidy_blank.create rfl (by decide +kernel) ha).setContent 0 [1, 2, 3]
  have hfile : textA.fs.IsFile p 0 := ⟨[⟨[97], rfl⟩], by decide +kernel⟩
  have hplan := Eff.run_eq_ok (m := planEncryptionInputs env [q]) (s := textA)
    (a := [⟨q, .parse [46, 47, 97, 46, 105, 108]⟩]) (by decide +kernel)
  have hrun := Eff.run_eq_ok (m := encryptFileToPath env q (.parse [46, 47, 97, 46, 105, 108]) [112, 119] false false)
    (s := (planEncryptionInputs env [q] textA).2) (a := .parse [46, 47, 97, 46, 105, 108]) (by decide +kernel)
  refine ⟨Env.calm_reliable _, fun _ _ => rfl, htidy.toTree.literal, hfile, ⟨[⟨[97], rfl⟩], by decide +kernel⟩,
    ⟨_, _, _, _, hplan, hrun⟩, ?_⟩
  rintro ⟨-, hother⟩
  obtain ⟨out, w', hbare, -⟩ := hother _ _ ⟨_, _, hplan, hrun⟩
  exact Path.Bare.not_encrypts (by decide +kernel) (Env.calm_reliable _) hfile hbare

end Ironlock
