import Ironlock.EncryptionPlan
import Ironlock.Handles

/-! How many handles the planners, a guard and the decryption of a file hold
open at once. -/

namespace Ironlock
open ByteOrder (Bytes)
open Effect
open Fs (Identity Metadata)

namespace Handles

section
variable (env : Env)

/-! ## Opening and comparing -/

theorem handleFromPath_uses (s : World) (p : Path) :
    Uses s (handleFromPath env p) (Sys.handleFromPath env p) 1 1 :=
  (Uses.opening_bind fun _ _ _ => .free (b := 0) (k := 0) _ _).body 1

theorem pathMatchesOpenFile_uses (s : World) (p : Path) (file : Identity) :
    Uses s (pathMatchesOpenFile env p file) (Ironlock.pathMatchesOpenFile env p file) 2 0 := by
  refine .body (k := 2) ?_ 0
  refine (handleFromPath_uses env s p).bind (c := 1) (l := 1) (fun _ _ _ => ?_) (by omega) (by omega)
  refine .opening_bind (b := 0) (k := 0) fun _ _ _ => ?_
  exact .free_bind fun _ _ _ => .pure _ _

theorem pathsReferToSameFile_uses (s : World) (source output : Path) :
    Uses s (pathsReferToSameFile env source output) (Ironlock.pathsReferToSameFile env source output) 2 0 := by
  refine .body (k := 2) ?_ 0
  refine .free_bind fun _ _ _ => .free_bind fun _ _ _ => .ite (fun _ => .pure _ _) fun _ =>
    .free_bind fun r _ _ => ?_
  cases r with
  | ok m =>
    refine .free_bind fun _ _ _ => ?_
    refine (handleFromPath_uses env _ source).bind (c := 1) (l := 1) (fun _ _ _ => ?_) (by omega) (by omega)
    exact (handleFromPath_uses env _ output).bind (c := 0) (l := 0) (fun _ _ _ => .pure _ _) (by omega) (by omega)
  | error e => exact .ite (fun _ => .pure _ _) fun _ => .fail _ _

theorem verifiedSourceFile_uses (s : World) (p : Path) :
    Uses s (verifiedSourceFile env p) (Ironlock.verifiedSourceFile env p) 3 1 := by
  refine .body (k := 1) ?_ 1
  refine .free_bind fun _ _ _ => .opening_bind (b := 2) (k := 0) fun file _ _ => .free_bind fun _ _ _ =>
    .free_bind fun _ _ _ => ?_
  cases file with
  | file i =>
    exact (pathMatchesOpenFile_uses env _ p _).bind (c := 0) (l := 0)
      (fun _ _ _ => .ite (fun _ => .pure _ _) fun _ => .fail _ _) (by omega) (by omega)
  | dir | special => exact .fail _ _

theorem syncParent_uses (s : World) (p : Path) :
    Uses s (syncParent env p) (Ironlock.syncParent env p) 1 0 :=
  (Uses.opening_bind (b := 0) (k := 0) fun _ _ _ => .free _ _).body 0

/-! ## Collecting -/

theorem collectDirectories_uses (s : World) (root : Path) (count : Nat) (stack files : List Path) :
    Uses s (collectDirectories env root count stack files)
      (Ironlock.collectDirectories env root count stack files) 1 0 := by
  induction count generalizing s stack files with
  | zero => cases stack <;> [exact .pure _ _; exact .fail _ _]
  | succ count ih =>
    cases stack with
    | nil => exact .pure _ _
    | cons current stack =>
      have hlist : Uses s
          (Metered.body 0 do
            let entries ← Metered.opening tooManyOpen (Sys.run env (.readDir current) (Fs.readDir current))
            Metered.free (visitEntries env root entries stack files))
          (do
            let entries ← Sys.run env (.readDir current) (Fs.readDir current)
            visitEntries env root entries stack files) 1 0 :=
        (Uses.opening_bind (b := 0) (k := 0) fun _ _ _ => .free _ _).body 0
      have := hlist.bind (d := 1) (fun r t _ => ih t r.1 r.2) (by omega) (by omega)
      rwa [Eff.bind_assoc] at this

theorem collectFilesRecursive_uses (s : World) (dir : Path) :
    Uses s (collectFilesRecursive env dir) (Ironlock.collectFilesRecursive env dir) 1 0 := by
  refine .body (k := 0) ?_ 0
  refine .free_bind fun r _ _ => ?_
  cases r with
  | error e => exact .fail _ _
  | ok m =>
    refine .free_bind fun _ _ _ => .ite (fun _ => .fail _ _) fun _ => .free_bind fun r _ _ => ?_
    cases r with
    | error e => exact .fail _ _
    | ok root =>
      refine .free_bind fun w _ _ => ?_
      exact (collectDirectories_uses env _ root _ _ _).bind (c := 0) (l := 0) (fun _ _ _ => .pure _ _) (by omega)
        (by omega)

theorem collectInput_uses (s : World) (decrypting : Bool) (input : Path) :
    Uses s (collectInput env decrypting input) (Ironlock.collectInput env decrypting input) 1 0 := by
  refine .free_bind fun r _ _ => ?_
  cases r with
  | error e => exact .fail _ _
  | ok m =>
    refine .free_bind fun _ _ _ => .ite (fun _ => ?_) fun _ => .ite (fun _ => .pure _ _) fun _ => .fail _ _
    exact (collectFilesRecursive_uses env _ input).bind (c := 0) (l := 0) (fun _ _ _ => .pure _ _) (by omega)
      (by omega)

theorem collectInputsFrom_uses (s : World) (decrypting : Bool) (inputs files : List Path) :
    Uses s (collectInputsFrom env decrypting inputs files)
      (Ironlock.collectInputsFrom env decrypting inputs files) 1 0 := by
  induction inputs generalizing s files with
  | nil => exact .pure _ _
  | cons input inputs ih =>
    exact (collectInput_uses env s decrypting input).bind (c := 1) (l := 0) (fun _ _ _ => ih _ _) (by omega)
      (by omega)

theorem collectInputs_uses (s : World) (inputs : List Path) (decrypting : Bool) :
    Uses s (collectInputs env inputs decrypting) (Ironlock.collectInputs env inputs decrypting) 1 0 :=
  ((collectInputsFrom_uses env s decrypting inputs []).bind (c := 0) (d := 1) (l := 0) (fun _ _ _ => .pure _ _)
    (by omega) (by omega)).body 0

/-! ## The planners -/

theorem registerSources_uses (s : World) (sources : List Path) (keys : List Bytes) (handles : List Identity) :
    Uses s (registerSources env sources keys handles) (Ironlock.registerSources env sources keys handles)
      sources.length sources.length := by
  induction sources generalizing s keys handles with
  | nil => exact .pure _ _
  | cons source sources ih =>
    rw [List.length_cons, Nat.add_comm]
    refine .free_bind fun key _ _ => ?_
    refine (handleFromPath_uses env _ source).bind (c := sources.length) (fun handle _ _ => ?_) (by omega) (by omega)
    exact .ite (fun _ => .fail _ _) fun _ => ih _ _ _

theorem collides_uses (s : World) (defaultKeys unavailable : List Bytes) (source defaultOutput : Path) :
    Uses s (collides env defaultKeys unavailable source defaultOutput)
      (Ironlock.collides env defaultKeys unavailable source defaultOutput) 2 0 :=
  .free_bind fun _ _ _ => .ite (fun _ => .pure _ _) fun _ => pathsReferToSameFile_uses env _ source defaultOutput

theorem planOutput_uses (s : World) (defaultKeys unavailable : List Bytes) (source defaultOutput : Path) :
    Uses s (planOutput env defaultKeys unavailable source defaultOutput)
      (Ironlock.planOutput env defaultKeys unavailable source defaultOutput) 2 0 := by
  have hlast (t : World) (output : Path) : Uses t
      (do
        let outputKey ← Metered.free (normalizedPathKey env output)
        if outputKey ∈ unavailable then
          Eff.fail (.outputCollision [.text "multiple inputs map to '", .path output, .text "'"])
        else return (output, outputKey) : HandleM (Path × Bytes))
      (do
        let outputKey ← normalizedPathKey env output
        if outputKey ∈ unavailable then
          Eff.fail (.outputCollision [.text "multiple inputs map to '", .path output, .text "'"])
        else return (output, outputKey)) 0 0 :=
    .free_bind fun _ _ _ => .ite (fun _ => .fail _ _) fun _ => .pure _ _
  refine (collides_uses env s defaultKeys unavailable source defaultOutput).bind (c := 0) (l := 0)
    (fun b t _ => ?_) (by omega) (by omega)
  cases b with
  | true => exact .free_bind fun output t _ => hlast t output
  | false =>
    exact (Uses.pure (b := 0) (k := 0) t defaultOutput).bind (fun output t _ => hlast t output) (by omega)
      (by omega)

theorem planOutputs_uses (s : World) (defaultKeys : List Bytes) (pairs : List (Path × Path))
    (unavailable : List Bytes) : Uses s (planOutputs env defaultKeys pairs unavailable)
      (Ironlock.planOutputs env defaultKeys pairs unavailable) 2 0 := by
  induction pairs generalizing s unavailable with
  | nil => exact .pure _ _
  | cons pair pairs ih =>
    refine (planOutput_uses env s defaultKeys unavailable pair.1 pair.2).bind (c := 2) (l := 0) (fun r t _ => ?_)
      (by omega) (by omega)
    exact (ih t _).bind (c := 0) (l := 0) (fun _ _ _ => .pure _ _) (by omega) (by omega)

/-- The planner needs a handle for each source it has collected, and two more. -/
theorem planEncryptionInputs_uses (s : World) (inputs : List Path) {count : Nat}
    (hcount : ∀ sources t, Ironlock.collectInputs env inputs false s = (.ok sources, t) → sources.length ≤ count) :
    Uses s (planEncryptionInputs env inputs) (Ironlock.planEncryptionInputs env inputs) (count + 2) 0 := by
  refine .body (k := 0 + count) ?_ 0
  refine (collectInputs_uses env s inputs false).bind (c := count + 2) (fun sources t hsources => ?_) (by omega)
    (by omega)
  have hle := hcount sources t hsources
  refine ((registerSources_uses env t sources [] []).bind (c := 2) (d := sources.length + 2) (l := 0)
    (fun r u _ => ?_) (by omega) (by omega)).mono (by omega) (by omega)
  refine (Uses.ofExcept (b := 0) (k := 0) u _).bind (c := 2) (l := 0) (fun defaults _ _ => ?_) (by omega) (by omega)
  exact .free_bind fun defaultKeys _ _ => planOutputs_uses env _ _ _ _

theorem planSource_uses (s : World) (source targetDir : Path) (seen : List Bytes) (seenHandles : List Identity) :
    Uses s (planSource env source targetDir seen seenHandles)
      (Ironlock.planSource env source targetDir seen seenHandles) 1 1 := by
  refine .free_bind fun _ t _ => ?_
  exact (handleFromPath_uses env t source).bind (c := 0) (l := 0)
    (fun _ _ _ => .ite (fun _ => .fail _ _) fun _ => .pure _ _) (by omega) (by omega)

/-- An input that is a file is one source. -/
theorem planInput_uses (hq : env.Quiet) (outputBase : Option Path) {s : World} {input : Path} {i : Nat}
    (hi : s.fs.IsFile input i) (plans : List DecryptionPlan) (seen : List Bytes) (seenHandles : List Identity) :
    Uses s (planInput env outputBase input plans seen seenHandles)
      (Ironlock.planInput env outputBase input plans seen seenHandles) 1 1 := by
  refine .free_bind fun r t hr => ?_
  cases r with
  | error e => exact .fail _ _
  | ok m =>
    obtain ⟨names, x, hnames, hx, rfl⟩ := symlinkMetadata_eq_ok hq hr
    obtain ⟨names', hnames', hx'⟩ := hi
    rw [hnames] at hnames'
    cases hnames'
    rw [hx] at hx'
    cases hx'
    refine .free_bind fun _ t _ => .ite (fun hdir => by simp [Metadata.isDir] at hdir) fun _ =>
      .ite (fun _ => .ite (fun _ => .fail _ _) fun _ => ?_) fun _ => .fail _ _
    exact (planSource_uses env t input _ seen seenHandles).bind (c := 0) (l := 0) (fun _ _ _ => .pure _ _) (by omega)
      (by omega)

theorem planInputs_uses (hq : env.Quiet) (outputBase : Option Path) {s : World} {inputs : List Path}
    (hfiles : ∀ p ∈ inputs, ∃ i, s.fs.IsFile p i) (plans : List DecryptionPlan) (seen : List Bytes)
    (seenHandles : List Identity) :
    Uses s (planInputs env outputBase inputs plans seen seenHandles)
      (Ironlock.planInputs env outputBase inputs plans seen seenHandles) inputs.length inputs.length := by
  induction inputs generalizing s plans seen seenHandles with
  | nil => exact .pure _ _
  | cons input inputs ih =>
    rw [List.length_cons, Nat.add_comm]
    obtain ⟨i, hi⟩ := hfiles input List.mem_cons_self
    refine (planInput_uses env hq outputBase hi plans seen seenHandles).bind (c := inputs.length) (fun r t hr => ?_)
      (by omega) (by omega)
    have hfs : t.fs = s.fs := (((planInput_looks _ _ _ _ _).still hq).run hr).1
    exact ih (fun p hp => hfs ▸ hfiles p (List.mem_cons_of_mem _ hp)) _ _ _

theorem planDecryptionInputs_uses (hq : env.Quiet) (outputBase : Option Path) {s : World} {inputs : List Path}
    (hfiles : ∀ p ∈ inputs, ∃ i, s.fs.IsFile p i) :
    Uses s (planDecryptionInputs env inputs outputBase) (Ironlock.planDecryptionInputs env inputs outputBase)
      inputs.length 0 :=
  ((planInputs_uses env hq outputBase hfiles [] [] []).bind (c := 0) (d := inputs.length) (l := 0)
    (fun _ _ _ => .pure _ _) (by omega) (by omega)).body 0

/-! ## Decrypting under a guard -/

theorem newGuard_uses (s : World) (plans : List DecryptionPlan) :
    Uses s (newGuard env plans) (DecryptionBatchGuard.new env plans) plans.length plans.length := by
  have := registerSources_uses env s (plans.map DecryptionPlan.source) [] []
  rw [List.length_map] at this
  exact (this.bind (c := 0) (l := 0) (fun _ _ _ => .pure _ _) (by omega) (by omega)).body plans.length

theorem lift_uses {α : Type} {s : World × DecryptionBatchGuard} {m : HandleM α} {n : FsM α} {b k : Nat}
    (h : Uses s.1 m n b k) : Uses s (lift m) (GuardM.lift n) b k := by
  intro g hg
  obtain ⟨g', hrun, hrest⟩ := h g hg
  refine ⟨g', ?_, hrest⟩
  simp only [lift, hrun, GuardM.lift]

theorem reserve_uses (s : World × DecryptionBatchGuard) (source output : Path) :
    Uses s (reserve env source output) (DecryptionBatchGuard.reserve env source output) 1 0 := by
  refine .body (k := 1) ?_ 0
  have hinsert (t : World × DecryptionBatchGuard) (key : Bytes) : Uses t
      (do
        if ← Metered.free (DecryptionBatchGuard.insertReserved key) then return ()
        else Eff.fail (.outputCollision
          [.text "multiple encrypted inputs contain the output filename '", .path output, .text "'"]) :
        GuardHandleM Unit)
      (do
        if ← DecryptionBatchGuard.insertReserved key then return ()
        else Eff.fail (.outputCollision
          [.text "multiple encrypted inputs contain the output filename '", .path output, .text "'"])) 0 0 :=
    .free_bind fun _ _ _ => .ite (fun _ => .pure _ _) fun _ => .fail _ _
  refine .free_bind fun _ _ _ => .free_bind fun self _ _ => .ite (fun _ => .fail _ _) fun _ =>
    .free_bind fun key _ _ => .ite (fun _ => .fail _ _) fun _ => .free_bind fun r t _ => ?_
  -- what is rejected goes on to nothing
  have hreject (t : World × DecryptionBatchGuard) (e : IronlockError) {f : Unit → GuardHandleM Unit}
      {h : Unit → GuardM Unit} : Uses t (Eff.fail e >>= f) (Eff.fail e >>= h) 0 0 :=
    (Uses.fail (b := 0) (k := 0) t e).bind (c := 0) (l := 0) (fun _ _ h => nomatch h) (by omega) (by omega)
  cases r with
  | error e =>
    exact .ite (fun _ => (hinsert t key).mono (by omega) (by omega)) fun _ =>
      (hreject t _).mono (by omega) (by omega)
  | ok m =>
    refine .free_bind fun _ t _ => .ite (fun _ => ?_) fun _ => (hinsert t key).mono (by omega) (by omega)
    exact (lift_uses (handleFromPath_uses env t.1 output)).bind (c := 0) (l := 0)
      (fun _ t _ => .ite (fun _ => hreject t _) fun _ => hinsert t key) (by omega) (by omega)

theorem openEncrypted_uses (s : World) (source : Path) (password : Bytes) :
    Uses s (openEncrypted env source password) (Ironlock.openEncrypted env source password) 3 1 := by
  refine .body (k := 1) ?_ 1
  refine .ite (fun _ => .fail _ _) fun _ => ?_
  exact (verifiedSourceFile_uses env s source).bind (c := 0) (l := 0)
    (fun _ _ _ => .free_bind fun _ _ _ => .free _ _) (by omega) (by omega)

theorem decryptedPath_uses (s : World) (source : Path) (outputDir : Option Path) (filename : Str) :
    Uses s (decryptedPath env source outputDir filename)
      (Ironlock.decryptedPath env source outputDir filename) 2 0 := by
  refine (Uses.ofExcept (b := 0) (k := 0) s _).bind (c := 2) (l := 0) (fun name _ _ => .free_bind fun _ t _ => ?_)
    (by omega) (by omega)
  exact (pathsReferToSameFile_uses env t source _).bind (c := 0) (l := 0)
    (fun _ _ _ => .ite (fun _ => .free _ _) fun _ => .pure _ _) (by omega) (by omega)

theorem observe_uses (s : World) (destination : Path) :
    Uses s (observe env destination) (AtomicOutput.observe env destination) 1 1 := by
  refine .body (k := 1) ?_ 1
  refine .free_bind fun r t _ => ?_
  cases r with
  | error e => exact .ite (fun _ => .pure _ _) fun _ => .fail _ _
  | ok m =>
    refine .free_bind fun _ t _ => .ite (fun _ => .fail _ _) fun _ => ?_
    exact (handleFromPath_uses env t destination).bind (c := 0) (l := 0) (fun _ _ _ => .pure _ _) (by omega) (by omega)

theorem approve_uses (s : World) (destination : Path) (force : Bool) (observed : Option Identity) :
    Uses s (approve env destination force observed) (AtomicOutput.approve env destination force observed) 1 0 := by
  cases observed with
  | none => exact .pure _ _
  | some observed =>
    refine .body (k := 1) ?_ 0
    refine .free_bind fun _ t _ => ?_
    exact (handleFromPath_uses env t destination).bind (c := 0) (l := 0)
      (fun _ _ _ => .ite (fun _ => .fail _ _) fun _ => .pure _ _) (by omega) (by omega)

theorem newOutput_uses (s : World) (destination : Path) (force : Bool) :
    Uses s (newOutput env destination force) (AtomicOutput.new env destination force) 2 2 := by
  refine .body (k := 2) ?_ 2
  refine .free_bind fun _ t _ => ?_
  refine (observe_uses env t destination).bind (c := 1) (l := 1) (fun observed t _ => ?_) (by omega) (by omega)
  refine (approve_uses env t destination force observed).bind (c := 1) (l := 1) (fun _ t _ => ?_) (by omega) (by omega)
  exact .opening_bind (b := 0) (k := 0) fun _ _ _ => .pure _ _

theorem writeDecrypted_uses (s : World) (decryptor : StreamDecryptor) (reader : Reader) (output : Nat) :
    Uses s (writeDecrypted env decryptor reader output)
      (Ironlock.writeDecrypted env decryptor reader output) 0 0 :=
  .free_bind fun _ _ _ => .close_bind (.free _ _) 1

theorem replace_uses (s : World) (o : AtomicOutput) (observed : Identity) :
    Uses s (replace env o observed) (o.replace env observed) 2 0 := by
  refine .body (k := 1) ?_ 0
  refine .free_bind fun q t _ => ?_
  refine (Uses.onError (b := 2) (k := 1) ?_ _).bind (c := 0) (l := 0) (fun _ _ _ => .pure _ _) (by omega) (by omega)
  refine (handleFromPath_uses env t q.quarantine).bind (c := 1) (l := 0) (fun _ _ _ => ?_) (by omega) (by omega)
  exact .ite (fun _ => .fail _ _) fun _ => .free_bind fun _ t _ => .close_bind (syncParent_uses env t _) 2

theorem install_uses (s : World) (o : AtomicOutput) : Uses s (install env o) (o.install env) 1 0 := by
  refine .body (k := 0) ?_ 0
  refine .free_bind fun r t _ => ?_
  have hrest (t : World) : Uses t
      (do
        Metered.free (installTemp env o.tempPath o.destination)
        syncParent env o.destination.parentOrHere)
      (do
        installTemp env o.tempPath o.destination
        Ironlock.syncParent env o.destination.parentOrHere) 1 0 :=
    .free_bind fun _ t _ => syncParent_uses env t _
  have hreject (t : World) (e : IronlockError) {f : Unit → HandleM Unit} {h : Unit → FsM Unit} :
      Uses t (Eff.fail e >>= f) (Eff.fail e >>= h) 1 0 :=
    (Uses.fail (b := 0) (k := 0) t e).bind (c := 0) (l := 0) (fun _ _ h => nomatch h) (by omega) (by omega)
  cases r with
  | error e => exact .ite (fun _ => hrest t) fun _ => hreject t _
  | ok m => exact .free_bind fun _ t _ => hreject t _

theorem publish_uses (s : World) (o : AtomicOutput) : Uses s (publish env o) (o.publish env) 2 0 := by
  refine .free_bind fun _ _ _ => .free_bind fun _ t _ => .close_bind ?_ 1
  rcases ho : o.observedDestination with _ | observed
  · exact (install_uses env t o).bind (c := 0) (l := 0) (fun _ _ _ => .pure _ _) (by omega) (by omega)
  · exact (replace_uses env t o observed).bind (c := 0) (l := 0) (fun _ _ _ => .pure _ _) (by omega) (by omega)

theorem removeQuarantined_uses (s : World) (q : QuarantinedFile) :
    Uses s (removeQuarantined env q) (q.remove env) 1 0 :=
  .onError (.free_bind fun _ t _ => syncParent_uses env t _) _

theorem commit_uses (s : World) (o : AtomicOutput) : Uses s (commit env o) (o.commit env) 2 0 := by
  refine .body (k := 0) ?_ 0
  refine (Uses.onError (publish_uses env s o) _).bind (c := 1) (l := 0) (fun r t _ => ?_) (by omega) (by omega)
  cases r with
  | none => exact .pure _ _
  | some q =>
    exact (removeQuarantined_uses env t q).bind (c := 0) (l := 0) (fun _ _ _ => .pure _ _) (by omega) (by omega)

theorem decryptFileToPathGuarded_uses (s : World × DecryptionBatchGuard) (source : Path) (password : Bytes)
    (outputDir : Option Path) (force : Bool) :
    Uses s (decryptFileToPathGuarded env source password outputDir force)
      (Ironlock.decryptFileToPathGuarded env source password outputDir force) 5 0 := by
  refine .body (k := 3) ?_ 0
  refine (lift_uses (openEncrypted_uses env s.1 source password)).bind (c := 4) (l := 2) (fun r t _ => ?_) (by omega)
    (by omega)
  obtain ⟨decryptor, reader⟩ := r
  refine (lift_uses (decryptedPath_uses env t.1 source outputDir _)).bind (c := 4) (l := 2) (fun output t _ => ?_)
    (by omega) (by omega)
  refine (reserve_uses env t source output).bind (c := 4) (l := 2) (fun _ t _ => ?_) (by omega) (by omega)
  refine (lift_uses (newOutput_uses env t.1 output force)).bind (c := 2) (l := 0) (fun o t _ => ?_) (by omega) (by omega)
  refine (lift_uses (.onError (writeDecrypted_uses env t.1 decryptor reader o.file) _)).bind (c := 2) (l := 0)
    (fun _ t _ => ?_) (by omega) (by omega)
  exact lift_uses (commit_uses env t.1 o)

theorem decryptPlans_uses (s : World × DecryptionBatchGuard) (password : Bytes) (force : Bool)
    (plans : List DecryptionPlan) : Uses s (decryptPlans env password force plans)
      (Ironlock.decryptPlans env password force plans) 5 0 := by
  induction plans generalizing s with
  | nil => exact .pure _ _
  | cons plan plans ih =>
    have hplan := decryptFileToPathGuarded_uses env s plan.source password (some plan.targetDir) force
    have hattempt := hplan.attempt fun _ _ _ _ h => Uses.body_error h
    exact hattempt.bind (c := 5) (l := 0)
      (fun _ t _ => (ih t).bind (c := 0) (l := 0) (fun _ _ _ => .pure _ _) (by omega) (by omega)) (by omega)
      (by omega)

end

section
variable {env : Env}

/-! ## What stays open -/

theorem handleFromPath_leaves (p : Path) : Leaves (handleFromPath env p) fun _ j => j = 1 := by
  refine .body (Q := fun _ j => j = 1) ?_ fun _ _ h => h.ge
  exact (Leaves.opening _ _).bind fun _ i hi => .free _ fun _ => hi

/-- Every source registered is open. -/
theorem registerSources_leaves (sources : List Path) (keys : List Bytes) (handles : List Identity) :
    Leaves (registerSources env sources keys handles) fun _ j => j = sources.length := by
  induction sources generalizing keys handles with
  | nil => exact .pure rfl
  | cons source sources ih =>
    refine .free_bind fun key => (handleFromPath_leaves source).bind fun handle i hi => .ite (fun _ => .fail _)
      fun _ => ?_
    intro s g a t g' hrun
    obtain ⟨j, hj, hlen⟩ := ih _ _ s g a t g' hrun
    exact ⟨j, hj, by rw [hi, hlen, List.length_cons, Nat.add_comm]⟩

theorem newGuard_leaves (plans : List DecryptionPlan) :
    Leaves (newGuard env plans) fun _ j => j = plans.length := by
  refine .body (Q := fun _ j => j = plans.length) ?_ fun _ _ h => h.ge
  refine (registerSources_leaves _ [] []).bind fun r i hi => .pure ?_
  rw [hi, List.length_map, Nat.add_zero]

theorem collectDirectories_leaves (root : Path) (count : Nat) (stack files : List Path) :
    Leaves (collectDirectories env root count stack files) fun _ j => j = 0 := by
  induction count generalizing stack files with
  | zero => cases stack <;> [exact .pure rfl; exact .fail _]
  | succ count ih =>
    cases stack with
    | nil => exact .pure rfl
    | cons current stack =>
      have hlist : Leaves (do
          let entries ← Metered.opening tooManyOpen (Sys.run env (.readDir current) (Fs.readDir current))
          Metered.free (visitEntries env root entries stack files)) fun _ j => j = 1 :=
        (Leaves.opening _ _).bind fun _ i hi => .free _ fun _ => hi
      refine (hlist.body (k := 0) fun _ _ _ => Nat.zero_le _).bind fun r i hi => ?_
      rw [hi]
      simp only [Nat.zero_add]
      exact ih _ _

theorem collectFilesRecursive_leaves (dir : Path) :
    Leaves (collectFilesRecursive env dir) fun _ j => j = 0 := by
  refine .body (Q := fun _ j => j = 0) ?_ fun _ _ h => h.ge
  refine .free_bind fun r => ?_
  cases r with
  | error e => exact .fail _
  | ok m =>
    refine .free_bind fun _ => .ite (fun _ => .fail _) fun _ => .free_bind fun r => ?_
    cases r with
    | error e => exact .fail _
    | ok root =>
      exact .free_bind fun w => (collectDirectories_leaves root _ _ _).bind fun _ i hi => .pure hi

/-- Every plan made is of a source that is open. -/
theorem planSource_leaves (source targetDir : Path) (seen : List Bytes) (seenHandles : List Identity) :
    Leaves (planSource env source targetDir seen seenHandles) fun _ j => j = 1 :=
  .free_bind fun _ => (handleFromPath_leaves source).bind fun _ _ hi => .ite (fun _ => .fail _) fun _ => .pure hi

theorem planDirectory_leaves (outputBase : Option Path) (root : Path) (sources : List Path)
    (plans : List DecryptionPlan) (seen : List Bytes) (seenHandles : List Identity) :
    Leaves (planDirectory env outputBase root sources plans seen seenHandles)
      fun r j => r.1.length = plans.length + j := by
  induction sources generalizing plans seen seenHandles with
  | nil => exact .pure rfl
  | cons source sources ih =>
    refine .ite (fun _ => ih plans seen seenHandles) fun _ => ?_
    refine (Leaves.ofExcept (Q := fun _ j => j = 0) fun _ _ => rfl).bind fun targetDir i hi => ?_
    refine (planSource_leaves source targetDir seen seenHandles).bind fun r j hj => ?_
    intro s g a t g' hrun
    obtain ⟨l, hl, hlen⟩ := ih _ _ _ s g a t g' hrun
    refine ⟨l, hl, ?_⟩
    change a.1.length = _
    rw [hlen, List.length_append, List.length_singleton]
    omega

theorem planInput_leaves (outputBase : Option Path) (input : Path) (plans : List DecryptionPlan)
    (seen : List Bytes) (seenHandles : List Identity) :
    Leaves (planInput env outputBase input plans seen seenHandles)
      fun r j => r.1.length = plans.length + j := by
  refine .free_bind fun r => ?_
  cases r with
  | error e => exact .fail _
  | ok m =>
    refine .free_bind fun _ => .ite (fun _ => .free_bind fun r => ?_) fun _ => .ite (fun _ => .ite
      (fun _ => .fail _) fun _ => ?_) fun _ => .fail _
    · cases r with
      | error e => exact .fail _
      | ok root =>
        refine (collectFilesRecursive_leaves input).bind fun sources i hi => ?_
        rw [hi]
        simp only [Nat.zero_add]
        exact planDirectory_leaves outputBase root sources plans seen seenHandles
    · refine (planSource_leaves input _ seen seenHandles).bind fun r i hi => .pure ?_
      rw [List.length_append, List.length_singleton, hi]

theorem planInputs_leaves (outputBase : Option Path) (inputs : List Path) (plans : List DecryptionPlan)
    (seen : List Bytes) (seenHandles : List Identity) :
    Leaves (planInputs env outputBase inputs plans seen seenHandles)
      fun r j => r.length = plans.length + j := by
  induction inputs generalizing plans seen seenHandles with
  | nil => exact .pure rfl
  | cons input inputs ih =>
    refine (planInput_leaves outputBase input plans seen seenHandles).bind fun r i hi => ?_
    intro s g a t g' hrun
    obtain ⟨l, hl, hlen⟩ := ih _ _ _ s g a t g' hrun
    exact ⟨l, hl, by omega⟩

/-- The planner that has registered its sources has held the handles of them all. -/
theorem planEncryptionInputs_peak {s t u : World} {inputs sources : List Path} {limit : Nat}
    {r : List Bytes × List Identity}
    (hcollect : Ironlock.collectInputs env inputs false s = (.ok sources, t))
    (hregister : Ironlock.registerSources env sources [] [] t = (.ok r, u))
    (hlimit : sources.length + 2 ≤ limit) :
    sources.length ≤ (planEncryptionInputs env inputs (s, .idle limit)).2.2.peak := by
  obtain ⟨g₁, hrun₁, hlimit₁, -, -, hlive₁⟩ := collectInputs_uses env s inputs false (.idle limit)
    (by change 0 + 1 ≤ limit; omega)
  rw [hcollect] at hrun₁ hlive₁
  have hidle : g₁.live ≤ 0 := hlive₁ sources rfl
  have hsame : g₁.limit = limit := hlimit₁
  obtain ⟨g₂, hrun₂, hlimit₂, -, -, hlive₂⟩ := registerSources_uses env t sources [] [] g₁ (by omega)
  rw [hregister] at hrun₂ hlive₂
  have hopen := hlive₂ r rfl
  obtain ⟨j, rfl, hpeak⟩ := (registerSources_leaves sources [] []).peak_ge hrun₂
  have hrest (r : List Bytes × List Identity) : Uses u
      (do
        let defaults ← Eff.ofExcept (defaultEncryptedPaths sources)
        let defaultKeys ← Metered.free (pathKeys env defaults)
        planOutputs env defaultKeys (sources.zip defaults) r.1 : HandleM (List EncryptionPlan))
      (do
        let defaults ← Eff.ofExcept (defaultEncryptedPaths sources)
        let defaultKeys ← pathKeys env defaults
        Ironlock.planOutputs env defaultKeys (sources.zip defaults) r.1) 2 0 :=
    (Uses.ofExcept (b := 0) (k := 0) u _).bind (c := 2) (l := 0)
      (fun defaults _ _ => .free_bind fun defaultKeys _ _ => planOutputs_uses env _ _ _ _) (by omega) (by omega)
  rw [planEncryptionInputs, Uses.body_peak, Eff.bind_ok hrun₁]
  have hroom : g₂.live + 2 ≤ g₂.limit := by omega
  exact Nat.le_trans (by omega) (Uses.peak_le (hrest r) hrun₂ hroom)

/-- The planner that succeeds has held the handles of all its sources. -/
theorem planDecryptionInputs_peak {s t : World} {g g' : Gauge} {inputs : List Path} {outputBase : Option Path}
    {plans : List DecryptionPlan}
    (hrun : planDecryptionInputs env inputs outputBase (s, g) = (.ok plans, (t, g'))) :
    g.live + plans.length ≤ g'.peak := by
  rcases hinputs : planInputs env outputBase inputs [] [] [] (s, g) with ⟨e | sorted, u, g₁⟩
  · rw [planDecryptionInputs, Metered.body, Eff.bind_error hinputs] at hrun
    cases hrun
  · rw [planDecryptionInputs, Metered.body, Eff.bind_ok hinputs] at hrun
    cases hrun
    obtain ⟨j, hlen, hpeak⟩ := (planInputs_leaves outputBase inputs [] [] []).peak_ge hinputs
    rw [List.length_nil, Nat.zero_add] at hlen
    rw [List.length_mergeSort, hlen]
    exact hpeak

end

end Handles

/-! ## Batches of files -/

section
variable {env : Env} {w w' : World} {inputs : List Path}

theorem collectInputs_length (hq : env.Quiet) (hfiles : ∀ p ∈ inputs, ∃ i, w.fs.IsFile p i) {decrypting : Bool}
    {sources : List Path} (h : collectInputs env inputs decrypting w = (.ok sources, w')) :
    sources.length = inputs.length := by
  have hfrom {inputs files files' : List Path} {w w' : World} (hfiles : ∀ p ∈ inputs, ∃ i, w.fs.IsFile p i)
      (h : collectInputsFrom env decrypting inputs files w = (.ok files', w')) :
      files'.length = files.length + inputs.length := by
    induction inputs generalizing files w with
    | nil =>
      cases h
      rfl
    | cons input inputs ih =>
      obtain ⟨more, w₁, hinput, h⟩ := Eff.bind_eq_ok.1 h
      have hfs : w₁.fs = w.fs := (((collectInput_looks _ _).still hq).run hinput).1
      rw [ih (fun p hp => hfs ▸ hfiles p (List.mem_cons_of_mem _ hp)) h, List.length_append, List.length_cons]
      obtain ⟨i, names, hr, hx⟩ := hfiles input List.mem_cons_self
      obtain ⟨r, w₂, hmeta, hinput⟩ := Eff.bind_eq_ok.1 hinput
      cases r with
      | error e => cases hinput
      | ok m =>
        obtain ⟨names', x, hr', hx', rfl⟩ := symlinkMetadata_eq_ok hq hmeta
        rw [hr] at hr'
        cases hr'
        rw [hx] at hx'
        cases hx'
        cases hinput
        rw [List.length_singleton]
        omega
  obtain ⟨files, w₁, hcollect, h⟩ := Eff.bind_eq_ok.1 h
  cases h
  rw [List.length_mergeSort, hfrom hfiles hcollect, List.length_nil, Nat.zero_add]

/-- A batch of files has a plan for each of them. -/
theorem planDecryptionInputs_length (hq : env.Quiet) (hfiles : ∀ p ∈ inputs, ∃ i, w.fs.IsFile p i)
    {outputBase : Option Path} {plans : List DecryptionPlan}
    (h : planDecryptionInputs env inputs outputBase w = (.ok plans, w')) : plans.length = inputs.length := by
  have hfrom {inputs : List Path} {plans plans' : List DecryptionPlan} {seen : List Bytes}
      {handles : List Identity} {w w' : World} (hfiles : ∀ p ∈ inputs, ∃ i, w.fs.IsFile p i)
      (h : planInputs env outputBase inputs plans seen handles w = (.ok plans', w')) :
      plans'.length = plans.length + inputs.length := by
    induction inputs generalizing plans seen handles w with
    | nil =>
      cases h
      rfl
    | cons input inputs ih =>
      obtain ⟨r, w₁, hinput, h⟩ := Eff.bind_eq_ok.1 h
      have hfs : w₁.fs = w.fs := (((planInput_looks _ _ _ _ _).still hq).run hinput).1
      rw [ih (fun p hp => hfs ▸ hfiles p (List.mem_cons_of_mem _ hp)) h, List.length_cons]
      obtain ⟨i, names, hr, hx⟩ := hfiles input List.mem_cons_self
      obtain ⟨m, w₂, hmeta, hinput⟩ := Eff.bind_eq_ok.1 hinput
      cases m with
      | error e => cases hinput
      | ok m =>
        obtain ⟨names', x, hr', hx', rfl⟩ := symlinkMetadata_eq_ok hq hmeta
        rw [hr] at hr'
        cases hr'
        rw [hx] at hx'
        cases hx'
        obtain ⟨_, w₃, -, hinput⟩ := Eff.bind_eq_ok.1 hinput
        by_cases hext : input.encrypted = false
        · rw [if_neg (by simp [Metadata.isDir]), if_pos (by rfl), if_pos hext] at hinput
          cases hinput
        · rw [if_neg (by simp [Metadata.isDir]), if_pos (by rfl), if_neg hext] at hinput
          obtain ⟨plan, w₄, -, hinput⟩ := Eff.bind_eq_ok.1 hinput
          cases hinput
          rw [List.length_append, List.length_singleton]
          omega
  obtain ⟨sorted, w₁, hplans, h⟩ := Eff.bind_eq_ok.1 h
  cases h
  rw [List.length_mergeSort, hfrom hfiles hplans, List.length_nil, Nat.zero_add]

end

/-! ## As many files as one likes -/

/-- `a`, `aa`, `aaa` and so on. -/
def letters (k : Nat) : Name := ⟨List.replicate (k + 1) 97, by
  simp only [validName, List.replicate_succ]
  simp [slash, dot]⟩

/-- That many files in the root. -/
def manyFiles : Nat → Fs
  | 0 => Fs.blank []
  | n + 1 => (manyFiles n).create [] (letters n)

theorem letters_text (k : Nat) : Utf8.valid (letters k).bytes = true ∧ (letters k).bytes.contains 0 = false := by
  constructor
  · refine Utf8.valid_ascii fun b hb => ?_
    rw [List.eq_of_mem_replicate hb]
    decide
  · simp [letters, List.replicate_succ]

theorem letters_inj {j k : Nat} (h : letters j = letters k) : j = k := by
  have := congrArg (fun n : Name => n.bytes.length) h
  simpa [letters] using this

theorem manyFiles_facts (n : Nat) : (manyFiles n).Tree ∧ (manyFiles n).nextInode = n ∧
    ∀ k, (manyFiles n).nodeAt [letters k] = if k < n then some (.file k) else none := by
  induction n with
  | zero => exact ⟨Fs.tree_blank, rfl, fun k => rfl⟩
  | succ n ih =>
    obtain ⟨htree, hnext, hnode⟩ := ih
    refine ⟨htree.create (d := []) rfl ?_ (letters_text n), congrArg (· + 1) hnext, fun k => ?_⟩
    · rw [List.nil_append, hnode, if_neg (lt_irrefl n)]
    · rw [manyFiles, Fs.create_nodeAt, htree.exact, List.nil_append, hnext]
      by_cases hk : k = n
      · rw [hk, Function.update_self, if_pos (Nat.lt_succ_self n)]
      · have hne : [letters k] ≠ [letters n] := fun h => hk (letters_inj (List.singleton_inj.1 h))
        rw [Function.update_of_ne hne, hnode]
        refine if_congr ?_ rfl rfl
        omega

/-- Where `k`th of the files is. -/
def letterPath (k : Nat) : Path := .absolute [letters k]

theorem manyFiles_resolve {n k : Nat} (hk : k < n) :
    (manyFiles n).resolve false (letterPath k) = .ok [letters k] ∧ (manyFiles n).IsFile (letterPath k) k := by
  obtain ⟨htree, -, hnode⟩ := manyFiles_facts n
  have hfile : (manyFiles n).nodeAt ([] ++ [letters k]) = some (.file k) := by
    rw [List.nil_append, hnode, if_pos hk]
  have hr : (manyFiles n).resolve false (letterPath k) = .ok [letters k] :=
    (htree.at_absolute hfile).resolve (.inl rfl)
  refine ⟨hr, [letters k], hr, ?_⟩
  rw [htree.node]
  exact hfile

/-- The inode of one of the files. -/
def letterInode (p : Path) : Nat := match p.parts with
  | [.name n] => n.bytes.length - 1
  | _ => 0

theorem letterInode_letterPath (k : Nat) : letterInode (letterPath k) = k := by
  simp [letterInode, letterPath, Path.absolute, letters]

/-- No two of the files are the same. -/
theorem manyFiles_batch (n : Nat) : Batch (manyFiles n) ((List.range n).map letterPath) letterInode ∧
    ((List.range n).map letterPath).Pairwise fun p q => ¬(manyFiles n).SameFile (Env.calm .checksummed) p q := by
  obtain ⟨htree, -⟩ := manyFiles_facts n
  constructor
  · refine ⟨htree, fun p hp => ?_⟩
    obtain ⟨k, hk, rfl⟩ := List.mem_map.1 hp
    rw [letterInode_letterPath]
    exact (manyFiles_resolve (List.mem_range.1 hk)).2
  · rw [List.pairwise_map]
    refine List.nodup_range.imp_of_mem fun {j k} hj hk hne => ?_
    obtain ⟨hrj, hfj⟩ := manyFiles_resolve (List.mem_range.1 hj)
    obtain ⟨hrk, hfk⟩ := manyFiles_resolve (List.mem_range.1 hk)
    rintro (hkey | ⟨i, hji, hki⟩)
    · rw [htree.keyOf_iff rfl hfj hfk, hrj, hrk, Except.ok.injEq] at hkey
      exact hne (letters_inj (List.singleton_inj.1 hkey))
    · exact hne ((hji.unique hfj).symm.trans (hki.unique hfk))

/-- However many different files a batch has, planning it and guarding it keeps
`bound` handles open at most. -/
def HandlesWithin (bound : Nat) : Prop :=
  ∀ (env : Env) (w : World) (inputs : List Path) (inode : Path → Nat), env.Quiet → env.Faultless →
    (∀ p ∈ inputs, w.fs.IsFile p (inode p)) → inputs.Pairwise (fun p q => inode p ≠ inode q) → ∀ limit,
    (Handles.planEncryptionInputs env inputs (w, .idle limit)).2.2.peak ≤ bound ∧
    (∀ outputBase, (Handles.planDecryptionInputs env inputs outputBase (w, .idle limit)).2.2.peak ≤ bound) ∧
    ∀ plans : List DecryptionPlan, plans.map DecryptionPlan.source = inputs →
      (Handles.newGuard env plans (w, .idle limit)).2.2.peak ≤ bound

end Ironlock
