import Ironlock.EncryptionOutputs
import Ironlock.CommandLine

/-! What a command has done when it ends: nothing, or its whole batch, whose
results its exit code and its last line tell. -/

namespace Ironlock
open ByteOrder (Bytes)
open Effect

/-! ## Counting -/

/-- A result that counts as skipped. -/
def isSkipped : Except IronlockError Path → Bool
  | .error .cancelled => true
  | _ => false

/-- A result that counts as an error. -/
def isFailed (r : Except IronlockError Path) : Bool := !r.isOk && !isSkipped r

/-- The counters after these results. -/
def Counters.of (progress : Bool) (results : List (Except IronlockError Path)) : Counters :=
  ⟨results.countP Except.isOk, results.countP isFailed, results.countP isSkipped, progress⟩

theorem Counters.count_of (progress : Bool) (results : List (Except IronlockError Path))
    (r : Except IronlockError Path) :
    (Counters.of progress results).count r = Counters.of progress (results ++ [r]) := by
  simp only [Counters.of, List.countP_append, List.countP_singleton]
  cases r with
  | ok p => rfl
  | error e => cases e <;> rfl

theorem Counters.count_progress (c : Counters) (r : Except IronlockError Path) :
    (c.count r).progress = c.progress := by
  cases r with
  | ok p => rfl
  | error e => cases e <;> rfl

theorem countP_results (results : List (Except IronlockError Path)) :
    results.countP Except.isOk + results.countP isFailed + results.countP isSkipped = results.length := by
  induction results with
  | nil => rfl
  | cons r results ih =>
    have hr : (if r.isOk then 1 else 0) + (if isFailed r then 1 else 0) + (if isSkipped r then 1 else 0) = 1 := by
      cases r with
      | ok p => rfl
      | error e => cases e <;> rfl
    simp only [List.countP_cons, List.length_cons]
    omega

/-- No error and nothing skipped means that all succeeded. -/
theorem Counters.of_clean (progress : Bool) (results : List (Except IronlockError Path)) :
    (Counters.of progress results).errors = 0 ∧ (Counters.of progress results).skipped = 0 ↔
      ∀ r ∈ results, r.isOk = true := by
  have htotal := countP_results results
  simp only [Counters.of]
  constructor
  · rintro ⟨hfailed, hskipped⟩
    exact List.countP_eq_length.1 (by omega)
  · intro hall
    have hok := List.countP_eq_length.2 hall
    omega

/-! ## Lines -/

section
variable {env : Env} {console : Console} {s t : Session} {progress : Bool}

/-- The session after the line of a result. -/
def Session.report (progress : Bool) (s : Session) (line : Message) : Session :=
  if progress then
    { s with bar := s.bar.map fun bar => { bar with position := bar.position + 1, above := bar.above ++ [line] } }
  else { s with lines := s.lines ++ [line] }

theorem Counters.handleResult_apply (c : Counters) (lead : Message) (r : Except IronlockError Path)
    (shredded : Bool) (s : Session) : c.handleResult lead r shredded s =
      (.ok (c.count r), s.report c.progress (lead ++ formatResultSuffix r shredded)) := by
  simp only [Counters.handleResult, Counters.output, Counters.onBar, Session.report]
  cases c.progress with
  | true =>
    have hmap : (s.bar.map fun bar => { bar with above := bar.above ++ [lead ++ formatResultSuffix r shredded] }).map
        (fun bar => { bar with position := bar.position + 1 }) = s.bar.map fun bar =>
          { bar with position := bar.position + 1, above := bar.above ++ [lead ++ formatResultSuffix r shredded] } := by
      rw [Option.map_map]
      rfl
    exact congrArg (fun bar => (Except.ok (c.count r), { s with bar })) hmap
  | false => rfl

/-- The session after the lines of some results. -/
def Session.reports (progress : Bool) (s : Session) (lines : List Message) : Session :=
  lines.foldl (Session.report progress) s

@[simp] theorem Session.report_world (line : Message) : (s.report progress line).world = s.world := by
  unfold Session.report
  split <;> rfl

theorem Session.report_with (line : Message) (w : World) :
    { s.report progress line with world := w } = Session.report progress { s with world := w } line := by
  unfold Session.report
  split <;> rfl

theorem Session.reports_eq (lines : List Message) : s.reports progress lines =
    if progress then { s with bar := s.bar.map fun bar =>
      { bar with position := bar.position + lines.length, above := bar.above ++ lines } }
    else { s with lines := s.lines ++ lines } := by
  induction lines generalizing s with
  | nil => cases progress <;> cases hbar : s.bar <;> simp [Session.reports, ← hbar]
  | cons line lines ih =>
    change (s.report progress line).reports progress lines = _
    rw [ih]
    cases progress with
    | false => simp [Session.report]
    | true =>
      cases hbar : s.bar with
      | none => simp [Session.report, hbar]
      | some bar =>
        simp only [Session.report, hbar, if_true, Option.map_some, List.length_cons, List.append_assoc]
        rw [Nat.add_assoc, Nat.add_comm 1]
        rfl

/-- The line of one encryption. -/
def encryptionLine (shred : Bool) (plan : EncryptionPlan) (r : Except IronlockError Path) : Message :=
  [.text "Encrypting ", .path plan.source, .text " ... "] ++ formatResultSuffix r shred

def decryptionLine (plan : DecryptionPlan) (r : Except IronlockError Path) : Message :=
  [.text "Decrypting ", .path plan.source, .text " ... "] ++ formatResultSuffix r false

variable {password : Bytes} {force shred : Bool} {results : List (Except IronlockError Path)} {w w' : World}

/-- A batch has a result for each of its items. -/
theorem encryptPlans_total (env : Env) (password : Bytes) (force shred : Bool) (plans : List EncryptionPlan)
    (w : World) : ∃ results w',
    encryptPlans env password force shred plans w = (.ok results, w') ∧ results.length = plans.length := by
  induction plans generalizing w with
  | nil => exact ⟨[], w, rfl, rfl⟩
  | cons plan plans ih =>
    rcases hfirst : encryptFileToPath env plan.source plan.output password force shred w with ⟨r, w₁⟩
    obtain ⟨results, w', hrest, hlength⟩ := ih w₁
    refine ⟨r :: results, w', ?_, by rw [List.length_cons, hlength, List.length_cons]⟩
    have hattempt : (Eff.attempt (encryptFileToPath env plan.source plan.output password force shred) :
        FsM (Except IronlockError Path)) w = (.ok r, w₁) := by rw [Eff.attempt, hfirst]
    rw [encryptPlans, Eff.bind_ok hattempt, Eff.bind_ok hrest, Eff.pure_apply]

theorem decryptPlans_total (env : Env) (password : Bytes) (force : Bool) (plans : List DecryptionPlan)
    (s : World × DecryptionBatchGuard) : ∃ results s',
    decryptPlans env password force plans s = (.ok results, s') ∧ results.length = plans.length := by
  induction plans generalizing s with
  | nil => exact ⟨[], s, rfl, rfl⟩
  | cons plan plans ih =>
    rcases hfirst : decryptFileToPathGuarded env plan.source password (some plan.targetDir) force s with ⟨r, s₁⟩
    obtain ⟨results, s', hrest, hlength⟩ := ih s₁
    refine ⟨r :: results, s', ?_, by rw [List.length_cons, hlength, List.length_cons]⟩
    have hattempt : (Eff.attempt (decryptFileToPathGuarded env plan.source password (some plan.targetDir) force) :
        GuardM (Except IronlockError Path)) s = (.ok r, s₁) := by rw [Eff.attempt, hfirst]
    rw [decryptPlans, Eff.bind_ok hattempt, Eff.bind_ok hrest, Eff.pure_apply]

/-- The loop over the encryption plans counts and prints what `encryptPlans` does. -/
theorem encryptLoop_apply (counters : Counters) {plans : List EncryptionPlan}
    (h : encryptPlans env password force shred plans s.world = (.ok results, w)) :
    encryptLoop env password force shred plans counters s = (.ok (results.foldl Counters.count counters),
      Session.reports counters.progress { s with world := w } (List.zipWith (encryptionLine shred) plans results)) := by
  induction plans generalizing s results counters with
  | nil =>
    cases h
    rfl
  | cons plan plans ih =>
    obtain ⟨r, w₁, hfirst, h⟩ := Eff.bind_eq_ok.1 h
    obtain ⟨rest, w₂, hrest, h⟩ := Eff.bind_eq_ok.1 h
    cases h
    rw [encryptLoop, Eff.bind_ok (SessionM.disk_eq hfirst), Eff.bind_ok (Counters.handleResult_apply ..)]
    rw [ih _ (by rwa [Session.report_world]), Counters.count_progress, Session.report_with]
    rfl

/-- The loop over the decryption plans counts and prints what `decryptPlans` does. -/
theorem decryptLoop_apply (counters : Counters) {plans : List DecryptionPlan} {guard guard' : DecryptionBatchGuard}
    (h : decryptPlans env password force plans (s.world, guard) = (.ok results, (w, guard'))) :
    decryptLoop env password force plans guard counters s = (.ok (results.foldl Counters.count counters),
      Session.reports counters.progress { s with world := w } (List.zipWith decryptionLine plans results)) := by
  induction plans generalizing s results counters guard with
  | nil =>
    cases h
    rfl
  | cons plan plans ih =>
    obtain ⟨r, ⟨w₁, guard₁⟩, rest, hfirst, hrest, rfl⟩ := decryptPlans_cons h
    have hguarded : SessionM.guarded guard
        (decryptFileToPathGuarded env plan.source password (some plan.targetDir) force) s =
        (.ok (r, guard₁), { s with world := w₁ }) := by rw [SessionM.guarded, hfirst]
    rw [decryptLoop, Eff.bind_ok hguarded]
    simp only [Eff.bind_ok (Counters.handleResult_apply ..)]
    rw [ih _ (by rwa [Session.report_world]), Counters.count_progress, Session.report_with]
    rfl

theorem Counters.foldl_count (results : List (Except IronlockError Path)) :
    results.foldl Counters.count (Counters.new progress) = Counters.of progress results := by
  induction results using List.reverseRecOn with
  | nil => rfl
  | append_singleton results r ih => rw [List.foldl_append, ih, List.foldl_cons, List.foldl_nil, Counters.count_of]

/-! ## The end of a batch -/

/-- The last line of a batch. -/
def summary (operation : String) (results : List (Except IronlockError Path)) : Message :=
  if ∀ r ∈ results, r.isOk = true then
    [.text "[OK]", .text " ", .number results.length, .text " file(s) ", .text operation, .text " successfully"]
  else [.text "[WARN]", .text " ", .number (results.countP Except.isOk), .text " succeeded, ",
    .number (results.countP isFailed), .text " failed, ", .number (results.countP isSkipped), .text " skipped"]

/-- How `print_summary` ends. -/
def summaryResult (results : List (Except IronlockError Path)) : Except IronlockError Unit :=
  if ∀ r ∈ results, r.isOk = true then .ok ()
  else .error (.batchIncomplete (results.countP isFailed) (results.countP isSkipped))

theorem Counters.printSummary_apply (operation : String) (s : Session) :
    (Counters.of progress results).printSummary operation s = (summaryResult results, { s with
      bar := if progress then s.bar.map fun bar => { bar with finished := true } else s.bar
      lines := s.lines ++ [[], summary operation results] }) := by
  have hbar : (Counters.of progress results).onBar (fun bar => { bar with finished := true }) s = (.ok (), { s with
      bar := if progress then s.bar.map fun bar => { bar with finished := true } else s.bar }) := by
    cases progress <;> rfl
  have hsuccess (h : ∀ r ∈ results, r.isOk = true) : (Counters.of progress results).success = results.length :=
    List.countP_eq_length.2 h
  rw [Counters.printSummary, Eff.bind_ok hbar, Eff.bind_ok (SessionM.println_apply ..)]
  simp only [Counters.of_clean, summaryResult, summary]
  split
  · rename_i hall
    rw [hsuccess hall]
    simp
  · simp [Eff.bind_apply, Counters.of]

end

/-! ## Before the batch -/

/-- The program has only looked at the disk, and shown no bytes and no bar. -/
structure Untouched (env : Env) (s t : Session) : Prop where
  world : Looked env s.world t.world
  stdout : t.stdout = s.stdout
  bar : t.bar = s.bar

instance (env : Env) : IsPreorder Session (Untouched env) where
  refl s := ⟨.refl _, rfl, rfl⟩
  trans := by
    rintro s₁ s₂ s₃ ⟨hworld, hstdout, hbar⟩ ⟨hworld', hstdout', hbar'⟩
    exact ⟨trans_of (Looked env) hworld hworld', hstdout'.trans hstdout, hbar'.trans hbar⟩

/-- The program has only prompted, and told something. -/
structure Prompted (s t : Session) : Prop where
  world : t.world = s.world
  stdout : t.stdout = s.stdout
  bar : t.bar = s.bar

instance : IsPreorder Session Prompted where
  refl s := ⟨rfl, rfl, rfl⟩
  trans := by
    rintro s₁ s₂ s₃ ⟨hworld, hstdout, hbar⟩ ⟨hworld', hstdout', hbar'⟩
    exact ⟨hworld'.trans hworld, hstdout'.trans hstdout, hbar'.trans hbar⟩

theorem Prompted.untouched {env : Env} (s t : Session) (h : Prompted s t) : Untouched env s t :=
  ⟨h.world ▸ .refl _, h.stdout, h.bar⟩

/-- The password that the prompts got. -/
structure Entered (console : Console) (first last : Nat) (password : Str) : Prop where
  nonempty : password.bytes ≠ []
  answered : ∀ k, first ≤ k → k ≤ last → console.readPassword k = .ok password

section
variable {env : Env} {console : Console} {s t : Session} {password : Str}

theorem println_prompted (line : Message) : Within Prompted (SessionM.println line) :=
  fun _ => ⟨rfl, rfl, rfl⟩

theorem eprint_prompted (text : Message) : Within Prompted (SessionM.eprint text) :=
  fun _ => ⟨rfl, rfl, rfl⟩

theorem println_untouched (line : Message) : Within (Untouched env) (SessionM.println line) :=
  (println_prompted line).mono Prompted.untouched

theorem disk_untouched {α : Type} {m : FsM α} (h : Looks env m) : Within (Untouched env) (SessionM.disk m) :=
  fun s => ⟨h s.world, rfl, rfl⟩

theorem promptPassword_prompted (prompt : String) : Within Prompted (promptPassword console prompt) := by
  refine .bind (eprint_prompted _) fun _ => .bind (fun s => ⟨rfl, rfl, rfl⟩) fun k => ?_
  cases console.flushStderr k with
  | some e => exact .fail _
  | none =>
    cases console.readPassword k with
    | error e => exact .fail _
    | ok password => exact .pure _

theorem promptPassword_eq_ok {prompt : String} (h : promptPassword console prompt s = (.ok password, t)) :
    console.readPassword s.asked = .ok password ∧ ∃ stderr, t = { s with asked := s.asked + 1, stderr } := by
  unfold promptPassword at h
  rw [Eff.bind_ok (SessionM.eprint_apply ..), Eff.bind_ok (SessionM.nextPrompt_apply _)] at h
  cases hflush : console.flushStderr s.asked with
  | some e =>
    simp only [hflush] at h
    cases h
  | none =>
    cases hread : console.readPassword s.asked with
    | error e =>
      simp only [hflush, hread] at h
      cases h
    | ok answer =>
      simp only [hflush, hread] at h
      cases h
      exact ⟨rfl, _, rfl⟩

theorem validatePassword_eq_ok (h : validatePassword password = .ok ()) : password.bytes ≠ [] := by
  unfold validatePassword at h
  split at h
  · cases h
  · assumption

theorem promptPasswordDecrypt_prompted : Within Prompted (promptPasswordDecrypt console) :=
  .bind (promptPassword_prompted _) fun _ => .bind (.ofExcept _) fun _ => .pure _

theorem promptPasswordDecrypt_eq_ok (h : promptPasswordDecrypt console s = (.ok password, t)) :
    Entered console s.asked s.asked password ∧ ∃ asked stderr, t = { s with asked, stderr } := by
  obtain ⟨answer, s₁, hprompt, h⟩ := Eff.bind_eq_ok.1 h
  obtain ⟨hread, stderr, rfl⟩ := promptPassword_eq_ok hprompt
  obtain ⟨_, s₂, hvalid, h⟩ := Eff.bind_eq_ok.1 h
  rw [Eff.ofExcept_apply, Prod.mk.injEq] at hvalid
  obtain ⟨hvalid, rfl⟩ := hvalid
  cases h
  refine ⟨⟨validatePassword_eq_ok hvalid, ?_⟩, _, _, rfl⟩
  intro k hle hge
  rwa [le_antisymm hge hle]

theorem promptPasswordWithConfirm_prompted : Within Prompted (promptPasswordWithConfirm console) :=
  .bind (promptPassword_prompted _) fun _ => .bind (.ofExcept _) fun _ => .bind (promptPassword_prompted _)
    fun _ => .bind (.ofExcept _) fun _ => .pure _

theorem promptPasswordWithConfirm_eq_ok (h : promptPasswordWithConfirm console s = (.ok password, t)) :
    Entered console s.asked (s.asked + 1) password ∧ ∃ asked stderr, t = { s with asked, stderr } := by
  obtain ⟨answer, s₁, hprompt, h⟩ := Eff.bind_eq_ok.1 h
  obtain ⟨hread, stderr, rfl⟩ := promptPassword_eq_ok hprompt
  obtain ⟨_, s₂, hvalid, h⟩ := Eff.bind_eq_ok.1 h
  rw [Eff.ofExcept_apply, Prod.mk.injEq] at hvalid
  obtain ⟨hvalid, rfl⟩ := hvalid
  obtain ⟨confirm, s₃, hconfirm, h⟩ := Eff.bind_eq_ok.1 h
  obtain ⟨hread', stderr', rfl⟩ := promptPassword_eq_ok hconfirm
  obtain ⟨_, s₄, hsame, h⟩ := Eff.bind_eq_ok.1 h
  rw [Eff.ofExcept_apply, Prod.mk.injEq] at hsame
  obtain ⟨hsame, rfl⟩ := hsame
  cases h
  unfold validatePasswordConfirmation at hsame
  split at hsame
  · cases hsame
  rename_i heq
  rw [not_not] at heq
  subst heq
  refine ⟨⟨validatePassword_eq_ok hvalid, ?_⟩, _, _, rfl⟩
  intro k hle hge
  rcases Nat.le_succ_iff.1 hge with hge | rfl
  · rwa [le_antisymm hge hle]
  · exact hread'

/-- What is settled before the first encryption. -/
def prepareEncryption (env : Env) (console : Console) (files : List Path) :
    SessionM (List EncryptionPlan × Str) := do
  let plans ← SessionM.disk (planEncryptionInputs env files)
  Eff.ofExcept (requireNonEmptyBatch plans "encryption")
  SessionM.println [.text "Ironlock Encryption"]
  SessionM.println []
  let password ← promptPasswordWithConfirm console
  SessionM.println []
  return (plans, password)

/-- What is settled before the first decryption. -/
def prepareDecryption (env : Env) (console : Console) (files : List Path) (output : Option Path) :
    SessionM (List DecryptionPlan × DecryptionBatchGuard × Str) := do
  let plans ← SessionM.disk (planDecryptionInputs env files output)
  Eff.ofExcept (requireNonEmptyBatch plans "decryption")
  let guard ← SessionM.disk (DecryptionBatchGuard.new env plans)
  SessionM.println [.text "Ironlock Decryption"]
  SessionM.println []
  let password ← promptPasswordDecrypt console
  SessionM.println []
  return (plans, guard, password)

theorem prepareEncryption_untouched (files : List Path) :
    Within (Untouched env) (prepareEncryption env console files) :=
  .bind (disk_untouched (planEncryptionInputs_looks _)) fun _ => .bind (.ofExcept _) fun _ =>
    .bind (println_untouched _) fun _ => .bind (println_untouched _) fun _ =>
    .bind (promptPasswordWithConfirm_prompted.mono Prompted.untouched) fun _ => .bind (println_untouched _) fun _ => .pure _

theorem prepareDecryption_untouched (files : List Path) (output : Option Path) :
    Within (Untouched env) (prepareDecryption env console files output) :=
  .bind (disk_untouched (planDecryptionInputs_looks _ _)) fun _ => .bind (.ofExcept _) fun _ =>
    .bind (disk_untouched (guard_new_looks _)) fun _ => .bind (println_untouched _) fun _ =>
    .bind (println_untouched _) fun _ => .bind (promptPasswordDecrypt_prompted.mono Prompted.untouched) fun _ =>
    .bind (println_untouched _) fun _ => .pure _

theorem requireNonEmptyBatch_eq_ok {α : Type} {items : List α} {operation : String}
    (h : requireNonEmptyBatch items operation = .ok ()) : items ≠ [] := by
  rintro rfl
  cases h

theorem disk_eq_ok {α : Type} {m : FsM α} {a : α} (h : SessionM.disk m s = (.ok a, t)) :
    ∃ w, m s.world = (.ok a, w) ∧ t = { s with world := w } := by
  rcases hm : m s.world with ⟨r, w⟩
  rw [SessionM.disk_eq hm] at h
  cases h
  exact ⟨w, rfl, rfl⟩

theorem prepareEncryption_eq_ok {files : List Path} {plans : List EncryptionPlan}
    (h : prepareEncryption env console files s = (.ok (plans, password), t)) :
    planEncryptionInputs env files s.world = (.ok plans, t.world) ∧ plans ≠ [] ∧
      Entered console s.asked (s.asked + 1) password ∧
      t.lines = s.lines ++ [[.text "Ironlock Encryption"], [], []] ∧ t.bar = s.bar := by
  obtain ⟨plans', s₁, hplan, h⟩ := Eff.bind_eq_ok.1 h
  obtain ⟨w, hplanned, rfl⟩ := disk_eq_ok hplan
  obtain ⟨_, s₂, hsome, h⟩ := Eff.bind_eq_ok.1 h
  rw [Eff.ofExcept_apply, Prod.mk.injEq] at hsome
  obtain ⟨hsome, rfl⟩ := hsome
  rw [Eff.bind_ok (SessionM.println_apply ..), Eff.bind_ok (SessionM.println_apply ..)] at h
  obtain ⟨answer, s₃, hprompt, h⟩ := Eff.bind_eq_ok.1 h
  obtain ⟨hentered, asked, stderr, rfl⟩ := promptPasswordWithConfirm_eq_ok hprompt
  rw [Eff.bind_ok (SessionM.println_apply ..)] at h
  cases h
  exact ⟨hplanned, requireNonEmptyBatch_eq_ok hsome, hentered, by simp, rfl⟩

theorem prepareDecryption_eq_ok {files : List Path} {output : Option Path} {plans : List DecryptionPlan}
    {guard : DecryptionBatchGuard}
    (h : prepareDecryption env console files output s = (.ok (plans, guard, password), t)) :
    (∃ w, planDecryptionInputs env files output s.world = (.ok plans, w) ∧
      DecryptionBatchGuard.new env plans w = (.ok guard, t.world)) ∧ plans ≠ [] ∧
      Entered console s.asked s.asked password ∧
      t.lines = s.lines ++ [[.text "Ironlock Decryption"], [], []] ∧ t.bar = s.bar := by
  obtain ⟨plans', s₁, hplan, h⟩ := Eff.bind_eq_ok.1 h
  obtain ⟨w, hplanned, rfl⟩ := disk_eq_ok hplan
  obtain ⟨_, s₂, hsome, h⟩ := Eff.bind_eq_ok.1 h
  rw [Eff.ofExcept_apply, Prod.mk.injEq] at hsome
  obtain ⟨hsome, rfl⟩ := hsome
  obtain ⟨guard', s₃, hguard, h⟩ := Eff.bind_eq_ok.1 h
  obtain ⟨w', hmade, rfl⟩ := disk_eq_ok hguard
  rw [Eff.bind_ok (SessionM.println_apply ..), Eff.bind_ok (SessionM.println_apply ..)] at h
  obtain ⟨answer, s₄, hprompt, h⟩ := Eff.bind_eq_ok.1 h
  obtain ⟨hentered, asked, stderr, rfl⟩ := promptPasswordDecrypt_eq_ok hprompt
  rw [Eff.bind_ok (SessionM.println_apply ..)] at h
  cases h
  exact ⟨⟨w, hplanned, hmade⟩, requireNonEmptyBatch_eq_ok hsome, hentered, by simp, rfl⟩

/-! ## When the prompts are answered -/

/-- One password is given at every prompt. -/
structure Console.Answers (console : Console) (password : Str) : Prop where
  flushes : ∀ k, console.flushStderr k = none
  answers : ∀ k, console.readPassword k = .ok password

theorem validatePassword_ok (h : password.bytes ≠ []) : validatePassword password = .ok () := if_neg h

namespace Console.Answers

theorem promptPassword (h : console.Answers password) (prompt : String) (s : Session) :
    ∃ t, Ironlock.promptPassword console prompt s = (.ok password, t) := by
  unfold Ironlock.promptPassword
  rw [Eff.bind_ok (SessionM.eprint_apply ..), Eff.bind_ok (SessionM.nextPrompt_apply _)]
  simp only [h.flushes, h.answers]
  exact ⟨_, rfl⟩

theorem promptPasswordWithConfirm (h : console.Answers password) (hpassword : password.bytes ≠ []) (s : Session) :
    ∃ t, Ironlock.promptPasswordWithConfirm console s = (.ok password, t) := by
  have hconfirmed : validatePasswordConfirmation password password = .ok () := if_neg (not_not.2 rfl)
  obtain ⟨s₁, hfirst⟩ := h.promptPassword "Enter password: " s
  obtain ⟨s₂, hsecond⟩ := h.promptPassword "Confirm password: " s₁
  refine ⟨s₂, ?_⟩
  rw [Ironlock.promptPasswordWithConfirm, Eff.bind_ok hfirst, validatePassword_ok hpassword,
    Eff.bind_ok (Eff.ofExcept_apply ..), Eff.bind_ok hsecond, hconfirmed, Eff.bind_ok (Eff.ofExcept_apply ..)]
  rfl

theorem promptPasswordDecrypt (h : console.Answers password) (hpassword : password.bytes ≠ []) (s : Session) :
    ∃ t, Ironlock.promptPasswordDecrypt console s = (.ok password, t) := by
  obtain ⟨s₁, hfirst⟩ := h.promptPassword "Enter password: " s
  refine ⟨s₁, ?_⟩
  rw [Ironlock.promptPasswordDecrypt, Eff.bind_ok hfirst, validatePassword_ok hpassword,
    Eff.bind_ok (Eff.ofExcept_apply ..)]
  rfl

theorem prepareEncryption (h : console.Answers password) (hpassword : password.bytes ≠ [])
    {files : List Path} {plans : List EncryptionPlan} {w : World} (hplan : planEncryptionInputs env files s.world = (.ok plans, w))
    (hsome : plans ≠ []) : ∃ t, Ironlock.prepareEncryption env console files s = (.ok (plans, password), t) := by
  have hbatch : requireNonEmptyBatch plans "encryption" = .ok () := if_neg (by simpa using hsome)
  rw [Ironlock.prepareEncryption, Eff.bind_ok (SessionM.disk_eq hplan), hbatch, Eff.bind_ok (Eff.ofExcept_apply ..),
    Eff.bind_ok (SessionM.println_apply ..), Eff.bind_ok (SessionM.println_apply ..)]
  obtain ⟨t, hprompt⟩ := h.promptPasswordWithConfirm hpassword
    { s with world := w, lines := s.lines ++ [[.text "Ironlock Encryption"]] ++ [[]] }
  rw [Eff.bind_ok hprompt]
  exact ⟨_, Eff.bind_ok (SessionM.println_apply ..) _⟩

theorem prepareDecryption (h : console.Answers password) (hpassword : password.bytes ≠ [])
    {files : List Path} {output : Option Path}
    {plans : List DecryptionPlan} {g : DecryptionBatchGuard} {w w' : World}
    (hplan : planDecryptionInputs env files output s.world = (.ok plans, w)) (hsome : plans ≠ [])
    (hguard : DecryptionBatchGuard.new env plans w = (.ok g, w')) :
    ∃ t, Ironlock.prepareDecryption env console files output s = (.ok (plans, g, password), t) := by
  have hbatch : requireNonEmptyBatch plans "decryption" = .ok () := if_neg (by simpa using hsome)
  have hguard' : DecryptionBatchGuard.new env plans ({ s with world := w } : Session).world = (.ok g, w') := hguard
  rw [Ironlock.prepareDecryption, Eff.bind_ok (SessionM.disk_eq hplan), hbatch, Eff.bind_ok (Eff.ofExcept_apply ..),
    Eff.bind_ok (SessionM.disk_eq hguard'), Eff.bind_ok (SessionM.println_apply ..),
    Eff.bind_ok (SessionM.println_apply ..)]
  obtain ⟨t, hprompt⟩ := h.promptPasswordDecrypt hpassword
    { s with world := w', lines := s.lines ++ [[.text "Ironlock Decryption"]] ++ [[]] }
  rw [Eff.bind_ok hprompt]
  exact ⟨_, Eff.bind_ok (SessionM.println_apply ..) _⟩

end Console.Answers

theorem run_encrypt {files : List Path} {force shred progress : Bool} (hfiles : files ≠ []) :
    run env console (.encrypt files force shred progress) = (do
      let (plans, password) ← prepareEncryption env console files
      let counters ← startBatch progress plans.length
      let counters ← encryptLoop env password.bytes force shred plans counters
      counters.printSummary "encrypted") := by
  have hempty : files.isEmpty = false := by simpa using hfiles
  simp only [run, prepareEncryption, hempty, Bool.false_eq_true, if_false, bind_assoc, pure_bind]

theorem run_decrypt {files : List Path} {output : Option Path} {force progress : Bool} (hfiles : files ≠ []) :
    run env console (.decrypt files output force progress) = (do
      let (plans, guard, password) ← prepareDecryption env console files output
      let counters ← startBatch progress plans.length
      let counters ← decryptLoop env password.bytes force plans guard counters
      counters.printSummary "decrypted") := by
  have hempty : files.isEmpty = false := by simpa using hfiles
  simp only [run, prepareDecryption, hempty, Bool.false_eq_true, if_false, bind_assoc, pure_bind]

end

/-- The session after a batch: a line for each result, where it belongs, and the
summary; the exit code is 0 exactly when all results are successes. -/
structure Concluded (progress : Bool) (title operation : String) (printed : List Message)
    (results : List (Except IronlockError Path)) (s t : Session) (code : Nat) : Prop where
  code : code = if ∀ r ∈ results, r.isOk = true then 0 else 1
  each : printed.length = results.length
  total : results.countP Except.isOk + results.countP isFailed + results.countP isSkipped = results.length
  lines : t.lines = s.lines ++ [[.text title], [], []] ++ (if progress then [] else printed) ++
    [[], summary operation results]
  bar : t.bar = if progress then some ⟨results.length, results.length, true, printed⟩ else s.bar

section
variable {env : Env} {console : Console} {progress : Bool} {title operation : String} {printed : List Message}
  {results : List (Except IronlockError Path)} {s s₁ t : Session} {code : Nat} {w : World}

/-- The end of a batch whose loop has printed a line for each of its results. -/
theorem concluded_of_run {command : Commands} (hlength : printed.length = results.length)
    (hlines : s₁.lines = s.lines ++ [[.text title], [], []]) (hbar : s₁.bar = s.bar)
    (hrun : run env console command s = (Counters.of progress results).printSummary operation
      (Session.reports progress { s₁ with
        world := w
        bar := if progress then some (makeProgressBar results.length) else s₁.bar } printed))
    (h : main env console command s = (code, t)) :
    t.world = w ∧ Concluded progress title operation printed results s t code := by
  rw [main, hrun, Counters.printSummary_apply, Session.reports_eq] at h
  have hend : code = (if ∀ r ∈ results, r.isOk = true then 0 else 1) ∧ t.world = w ∧
      t.lines = s₁.lines ++ (if progress then [] else printed) ++ [[], summary operation results] ∧
      t.bar = if progress then some ⟨results.length, printed.length, true, printed⟩ else s₁.bar := by
    unfold summaryResult at h
    by_cases hall : ∀ r ∈ results, r.isOk = true
    · rw [if_pos hall] at h ⊢
      cases progress <;> cases h <;> simp [makeProgressBar]
    · rw [if_neg hall] at h ⊢
      cases progress <;> cases h <;> simp [makeProgressBar]
  obtain ⟨hcode, hworld, hlines', hbar'⟩ := hend
  rw [hlines] at hlines'
  rw [hbar, hlength] at hbar'
  exact ⟨hworld, hcode, hlength, countP_results results, hlines', hbar'⟩

/-- An encryption command that has been prepared runs its batch. -/
theorem main_encrypt_prepared {files : List Path} {force shred : Bool} {plans : List EncryptionPlan} {password : Str}
    (hfiles : files ≠ []) (hprepare : prepareEncryption env console files s = (.ok (plans, password), s₁))
    (h : main env console (.encrypt files force shred progress) s = (code, t)) : ∃ results,
      encryptPlans env password.bytes force shred plans s₁.world = (.ok results, t.world) ∧
      results.length = plans.length ∧ Concluded progress "Ironlock Encryption" "encrypted"
        (List.zipWith (encryptionLine shred) plans results) results s t code := by
  obtain ⟨-, -, -, hlines, hbar⟩ := prepareEncryption_eq_ok hprepare
  obtain ⟨results, w, hbatch, hlength⟩ := encryptPlans_total env password.bytes force shred plans s₁.world
  have hloop := encryptLoop_apply (Counters.new progress)
    (s := { s₁ with bar := if progress then some (makeProgressBar plans.length) else s₁.bar }) hbatch
  rw [Counters.foldl_count] at hloop
  have hrun : run env console (.encrypt files force shred progress) s =
      (Counters.of progress results).printSummary "encrypted" (Session.reports progress { s₁ with
        world := w
        bar := if progress then some (makeProgressBar results.length) else s₁.bar }
        (List.zipWith (encryptionLine shred) plans results)) := by
    rw [run_encrypt hfiles, Eff.bind_ok hprepare, hlength]
    exact (Eff.bind_ok rfl _).trans (Eff.bind_ok hloop _)
  obtain ⟨rfl, hconcluded⟩ := concluded_of_run (by simp [hlength]) hlines hbar hrun h
  exact ⟨results, hbatch, hlength, hconcluded⟩

/-- When the prompts are answered and every item succeeds, an encryption ends in 0. -/
theorem main_encrypt_answered {files : List Path} {force shred : Bool} {plans : List EncryptionPlan} {password : Str}
    {w₁ : World} (hconsole : console.Answers password) (hpassword : password.bytes ≠ []) (hfiles : files ≠ [])
    (hplan : planEncryptionInputs env files s.world = (.ok plans, w₁)) (hsome : plans ≠ [])
    (hbatch : encryptPlans env password.bytes force shred plans w₁ = (.ok results, w))
    (hall : ∀ r ∈ results, r.isOk = true) :
    ∃ t, main env console (.encrypt files force shred progress) s = (0, t) ∧ t.world = w := by
  obtain ⟨s₁, hprepare⟩ := hconsole.prepareEncryption hpassword hplan hsome
  have hplan' := (prepareEncryption_eq_ok hprepare).1
  rw [hplan, Prod.mk.injEq] at hplan'
  rcases hmain : main env console (.encrypt files force shred progress) s with ⟨code, t⟩
  obtain ⟨results', hbatch', -, hconcluded⟩ := main_encrypt_prepared hfiles hprepare hmain
  rw [← hplan'.2, hbatch, Prod.mk.injEq, Except.ok.injEq] at hbatch'
  obtain ⟨rfl, hworld⟩ := hbatch'
  have hcode := hconcluded.code
  rw [if_pos hall] at hcode
  exact ⟨t, by rw [hcode], hworld.symm⟩

/-- An encryption command ends untouched, or with the results of its batch. -/
theorem main_encrypt {files : List Path} {force shred : Bool} (hfiles : files ≠ [])
    (h : main env console (.encrypt files force shred progress) s = (code, t)) :
    (code = 1 ∧ Untouched env s t) ∨ ∃ plans password results w₁,
      planEncryptionInputs env files s.world = (.ok plans, w₁) ∧ plans ≠ [] ∧
      Entered console s.asked (s.asked + 1) password ∧
      encryptPlans env password.bytes force shred plans w₁ = (.ok results, t.world) ∧
      results.length = plans.length ∧ Concluded progress "Ironlock Encryption" "encrypted"
        (List.zipWith (encryptionLine shred) plans results) results s t code := by
  rcases hprepare : prepareEncryption env console files s with ⟨e | ⟨plans, password⟩, s₁⟩
  · left
    have huntouched := (prepareEncryption_untouched files).run hprepare
    rw [main, run_encrypt hfiles, Eff.bind_error hprepare] at h
    cases h
    exact ⟨rfl, huntouched.world, huntouched.stdout, huntouched.bar⟩
  right
  obtain ⟨hplan, hsome, hentered, -⟩ := prepareEncryption_eq_ok hprepare
  obtain ⟨results, hbatch, hlength, hconcluded⟩ := main_encrypt_prepared hfiles hprepare h
  exact ⟨plans, password, results, s₁.world, hplan, hsome, hentered, hbatch, hlength, hconcluded⟩

/-- A decryption command that has been prepared runs its batch. -/
theorem main_decrypt_prepared {files : List Path} {output : Option Path} {force : Bool} {plans : List DecryptionPlan}
    {guard : DecryptionBatchGuard} {password : Str} (hfiles : files ≠ [])
    (hprepare : prepareDecryption env console files output s = (.ok (plans, guard, password), s₁))
    (h : main env console (.decrypt files output force progress) s = (code, t)) : ∃ results guard',
      decryptPlans env password.bytes force plans (s₁.world, guard) = (.ok results, (t.world, guard')) ∧
      results.length = plans.length ∧ Concluded progress "Ironlock Decryption" "decrypted"
        (List.zipWith decryptionLine plans results) results s t code := by
  obtain ⟨-, -, -, hlines, hbar⟩ := prepareDecryption_eq_ok hprepare
  obtain ⟨results, ⟨w, guard'⟩, hbatch, hlength⟩ := decryptPlans_total env password.bytes force plans
    (s₁.world, guard)
  have hloop := decryptLoop_apply (Counters.new progress)
    (s := { s₁ with bar := if progress then some (makeProgressBar plans.length) else s₁.bar }) hbatch
  rw [Counters.foldl_count] at hloop
  have hrun : run env console (.decrypt files output force progress) s =
      (Counters.of progress results).printSummary "decrypted" (Session.reports progress { s₁ with
        world := w
        bar := if progress then some (makeProgressBar results.length) else s₁.bar }
        (List.zipWith decryptionLine plans results)) := by
    rw [run_decrypt hfiles, Eff.bind_ok hprepare, hlength]
    exact (Eff.bind_ok rfl _).trans (Eff.bind_ok hloop _)
  obtain ⟨rfl, hconcluded⟩ := concluded_of_run (by simp [hlength]) hlines hbar hrun h
  exact ⟨results, guard', hbatch, hlength, hconcluded⟩

theorem main_decrypt_answered {files : List Path} {output : Option Path} {force : Bool} {plans : List DecryptionPlan}
    {guard guard' : DecryptionBatchGuard} {password : Str} {w₁ w₂ : World} (hconsole : console.Answers password)
    (hpassword : password.bytes ≠ []) (hfiles : files ≠ [])
    (hplan : planDecryptionInputs env files output s.world = (.ok plans, w₁)) (hsome : plans ≠ [])
    (hguard : DecryptionBatchGuard.new env plans w₁ = (.ok guard, w₂))
    (hbatch : decryptPlans env password.bytes force plans (w₂, guard) = (.ok results, (w, guard')))
    (hall : ∀ r ∈ results, r.isOk = true) :
    ∃ t, main env console (.decrypt files output force progress) s = (0, t) ∧ t.world = w := by
  obtain ⟨s₁, hprepare⟩ := hconsole.prepareDecryption hpassword hplan hsome hguard
  obtain ⟨⟨w₁', hplan', hguard'⟩, -⟩ := prepareDecryption_eq_ok hprepare
  rw [hplan, Prod.mk.injEq] at hplan'
  rw [← hplan'.2, hguard, Prod.mk.injEq] at hguard'
  rcases hmain : main env console (.decrypt files output force progress) s with ⟨code, t⟩
  obtain ⟨results', guard'', hbatch', -, hconcluded⟩ := main_decrypt_prepared hfiles hprepare hmain
  rw [← hguard'.2, hbatch, Prod.mk.injEq, Except.ok.injEq, Prod.mk.injEq] at hbatch'
  obtain ⟨rfl, hworld, -⟩ := hbatch'
  have hcode := hconcluded.code
  rw [if_pos hall] at hcode
  exact ⟨t, by rw [hcode], hworld.symm⟩

/-- A decryption command ends untouched, or with the results of its batch. -/
theorem main_decrypt {files : List Path} {output : Option Path} {force : Bool} (hfiles : files ≠ [])
    (h : main env console (.decrypt files output force progress) s = (code, t)) :
    (code = 1 ∧ Untouched env s t) ∨ ∃ plans guard password results w₁ w₂ guard',
      planDecryptionInputs env files output s.world = (.ok plans, w₁) ∧ plans ≠ [] ∧
      DecryptionBatchGuard.new env plans w₁ = (.ok guard, w₂) ∧
      Entered console s.asked s.asked password ∧
      decryptPlans env password.bytes force plans (w₂, guard) = (.ok results, (t.world, guard')) ∧
      results.length = plans.length ∧ Concluded progress "Ironlock Decryption" "decrypted"
        (List.zipWith decryptionLine plans results) results s t code := by
  rcases hprepare : prepareDecryption env console files output s with ⟨e | ⟨plans, guard, password⟩, s₁⟩
  · left
    have huntouched := (prepareDecryption_untouched files output).run hprepare
    rw [main, run_decrypt hfiles, Eff.bind_error hprepare] at h
    cases h
    exact ⟨rfl, huntouched.world, huntouched.stdout, huntouched.bar⟩
  right
  obtain ⟨⟨w₁, hplan, hguard⟩, hsome, hentered, -⟩ := prepareDecryption_eq_ok hprepare
  obtain ⟨results, guard', hbatch, hlength, hconcluded⟩ := main_decrypt_prepared hfiles hprepare h
  exact ⟨plans, guard, password, results, w₁, s₁.world, guard', hplan, hsome, hguard, hentered, hbatch, hlength,
    hconcluded⟩

end

/-- Standard streams at which one password is entered, every time. -/
def Console.answering (password : Str) (input : Bytes) : Console :=
  ⟨false, fun _ => none, fun _ => .ok password, [.data input], [], none⟩

theorem answering_answers (password : Str) (input : Bytes) : (Console.answering password input).Answers password :=
  ⟨fun _ => rfl, fun _ => rfl⟩

def Session.start (w : World) : Session := ⟨w, 0, [], [], [], none⟩

/-- The password `pw`. -/
def passwordPw : Str := ⟨[112, 119], by decide⟩

end Ironlock
