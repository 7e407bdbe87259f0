import Ironlock.ExitCodes
import Ironlock.PartialOutput

/-! The program between two pipes: what goes in by standard input comes out of
standard output, sealed or opened. -/

namespace Ironlock
open ByteOrder (Bytes)
open Effect

section
variable {env : Env} {console : Console} {s t : Session} {code : Nat} {force shred progress : Bool}
  {output : Option Path}

theorem stdio_eq_ok {α : Type} {m : StreamM α} {a : α} (h : SessionM.stdio console m s = (.ok a, t)) :
    ∃ streams, m ⟨console.stdin, ⟨console.accepts, []⟩, []⟩ = (.ok a, streams) ∧
      t = { s with stdout := s.stdout ++ streams.writer.written } := by
  rcases hm : m ⟨console.stdin, ⟨console.accepts, []⟩, []⟩ with ⟨r, streams⟩
  rw [SessionM.stdio_eq hm] at h
  cases h
  exact ⟨streams, rfl, rfl⟩

theorem disk_draw {α : Type} (f : Nat → α) (s : Session) : SessionM.disk (Sys.draw f) s =
    (.ok (f s.world.draws), { s with world := { s.world with draws := s.world.draws + 1 } }) := rfl

theorem flushStdout_state {r : Except IronlockError Unit} (h : SessionM.flushStdout console s = (r, t)) :
    t = s := by
  unfold SessionM.flushStdout at h
  cases hflush : console.flushStdout with
  | none =>
    rw [hflush] at h
    cases h
    rfl
  | some e =>
    rw [hflush] at h
    cases h
    rfl

def prepareEncryptStdin (console : Console) : SessionM Str := do
  Eff.ofExcept (requirePipedStdin console)
  let password ← promptPasswordWithConfirm console
  SessionM.eprint []
  return password

def prepareDecryptStdin (console : Console) : SessionM Str := do
  Eff.ofExcept (requirePipedStdin console)
  let password ← promptPasswordDecrypt console
  SessionM.eprint []
  return password

theorem run_encrypt_nil : run env console (.encrypt [] force shred progress) = (do
    let password ← prepareEncryptStdin console
    encryptStdin env console password.bytes) := by
  simp only [run, prepareEncryptStdin, List.isEmpty_nil, if_true, bind_assoc, pure_bind]

theorem run_decrypt_nil : run env console (.decrypt [] output force progress) = (do
    let password ← prepareDecryptStdin console
    decryptStdin env console password.bytes) := by
  simp only [run, prepareDecryptStdin, List.isEmpty_nil, if_true, bind_assoc, pure_bind]

theorem prepareEncryptStdin_prompted : Within Prompted (prepareEncryptStdin console) :=
  .bind (.ofExcept _) fun _ => .bind promptPasswordWithConfirm_prompted fun _ =>
    .bind (eprint_prompted _) fun _ => .pure _

theorem prepareDecryptStdin_prompted : Within Prompted (prepareDecryptStdin console) :=
  .bind (.ofExcept _) fun _ => .bind promptPasswordDecrypt_prompted fun _ =>
    .bind (eprint_prompted _) fun _ => .pure _

theorem prepareEncryptStdin_eq_ok {password : Str} (h : prepareEncryptStdin console s = (.ok password, t)) :
    Entered console s.asked (s.asked + 1) password := by
  obtain ⟨_, s₁, hpiped, h⟩ := Eff.bind_eq_ok.1 h
  rw [Eff.ofExcept_apply, Prod.mk.injEq] at hpiped
  obtain ⟨-, rfl⟩ := hpiped
  obtain ⟨answer, s₂, hprompt, h⟩ := Eff.bind_eq_ok.1 h
  obtain ⟨hentered, -⟩ := promptPasswordWithConfirm_eq_ok hprompt
  cases h
  exact hentered

theorem prepareDecryptStdin_eq_ok {password : Str} (h : prepareDecryptStdin console s = (.ok password, t)) :
    Entered console s.asked s.asked password := by
  obtain ⟨_, s₁, hpiped, h⟩ := Eff.bind_eq_ok.1 h
  rw [Eff.ofExcept_apply, Prod.mk.injEq] at hpiped
  obtain ⟨-, rfl⟩ := hpiped
  obtain ⟨answer, s₂, hprompt, h⟩ := Eff.bind_eq_ok.1 h
  obtain ⟨hentered, -⟩ := promptPasswordDecrypt_eq_ok hprompt
  cases h
  exact hentered

/-- An encryption of standard input that returns has written a stream of all of it. -/
theorem encryptStdin_eq_ok {password P : Bytes} (hin : console.stdin.Carries P)
    (h : encryptStdin env console password s = (.ok (), t)) :
    t.world = { s.world with draws := s.world.draws + 2 } ∧
      ∃ x : Stream env.crates password, x.content = P ∧ t.stdout = s.stdout ++ x.bytes := by
  rw [encryptStdin, Eff.bind_ok (disk_draw ..), Eff.bind_ok (disk_draw ..)] at h
  obtain ⟨m, s₁, hstdio, hflush⟩ := Eff.bind_eq_ok.1 h
  obtain ⟨streams, hstream, rfl⟩ := stdio_eq_ok hstdio
  obtain ⟨x, -, hcontent, -, hwritten⟩ := encryptStream_carried hin hstream
  obtain rfl := flushStdout_state hflush
  exact ⟨rfl, x, hcontent, by rw [hwritten]⟩

/-- What a decryption of standard input shows of a stream is the beginning of its content. -/
theorem decryptStdin_cut {password : Bytes} (hC : env.crates.Inverts) (x : Stream env.crates password)
    (hin : console.stdin.Carries x.bytes) {r : Except IronlockError Unit}
    (h : decryptStdin env console password s = (r, t)) :
    t.world = s.world ∧ ∃ shown, t.stdout = s.stdout ++ shown ∧ shown <+: x.content ∧
      (∀ u, r = .ok u → shown = x.content) := by
  rcases hm : (do let d ← StreamDecryptor.new env.crates password
                  d.decryptTo env.crates : StreamM Nat) ⟨console.stdin, ⟨console.accepts, []⟩, []⟩
    with ⟨r', streams⟩
  obtain ⟨hcut, hall⟩ := decryptStream_cut hC x hin hm
  have hstdio := SessionM.stdio_eq (s := s) hm
  cases r' with
  | error e =>
    have hend := (Eff.bind_error hstdio _).symm.trans h
    cases hend
    exact ⟨rfl, _, rfl, hcut, nofun⟩
  | ok m =>
    have hend := (Eff.bind_ok hstdio _).symm.trans h
    obtain rfl := flushStdout_state hend
    exact ⟨rfl, _, rfl, hcut, fun _ _ => hall m rfl⟩

end

/-! ## Both ends of a pipe -/

/-- What one program seals the other opens, however the pipe cuts the bytes up.
An encryption that ends in 0 took all of its input. Whatever fails in a
decryption of its output under the same password, what is shown is the beginning
of that input, and all of it if it ends in 0. Neither touches a file. -/
theorem piped_round_trip {env env' : Env} (hC : env.crates.Inverts) (hsame : env'.crates = env.crates)
    {console : Console} {P : Bytes} {force shred progress : Bool} {s t : Session}
    (hin : console.stdin.Carries P) (h : main env console (.encrypt [] force shred progress) s = (0, t)) :
    t.world = { s.world with draws := s.world.draws + 2 } ∧ ∃ (password : Str) (sealedBytes : Bytes),
      Entered console s.asked (s.asked + 1) password ∧ t.stdout = s.stdout ++ sealedBytes ∧
      ∀ (console' : Console) (output : Option Path) (force' progress' : Bool) (s' t' : Session) (code : Nat),
        console'.stdin.Carries sealedBytes → Entered console' s'.asked s'.asked password →
        main env' console' (.decrypt [] output force' progress') s' = (code, t') →
        t'.world = s'.world ∧ ∃ shown, t'.stdout = s'.stdout ++ shown ∧ shown <+: P ∧
          (code = 0 → shown = P) := by
  rw [main, run_encrypt_nil] at h
  rcases hprepare : prepareEncryptStdin console s with ⟨e | password, s₁⟩
  · rw [Eff.bind_error hprepare] at h
    cases h
  rw [Eff.bind_ok hprepare] at h
  have hprompted := prepareEncryptStdin_prompted.run hprepare
  rcases hstdin : encryptStdin env console password.bytes s₁ with ⟨e | _, s₂⟩
  · rw [hstdin] at h
    cases h
  rw [hstdin] at h
  cases h
  obtain ⟨hworld, x, rfl, hstdout⟩ := encryptStdin_eq_ok hin hstdin
  rw [hprompted.world] at hworld
  rw [hprompted.stdout] at hstdout
  refine ⟨hworld, password, x.bytes, prepareEncryptStdin_eq_ok hprepare, hstdout, ?_⟩
  intro console' output force' progress' s' t' code hin' hentered' h'
  rw [main, run_decrypt_nil] at h'
  rcases hprepare' : prepareDecryptStdin console' s' with ⟨e | password', s₁'⟩
  · have hprompted' := prepareDecryptStdin_prompted.run hprepare'
    rw [Eff.bind_error hprepare'] at h'
    cases h'
    refine ⟨hprompted'.world, [], ?_, List.nil_prefix, by simp⟩
    rw [List.append_nil]
    exact hprompted'.stdout
  have hprompted' := prepareDecryptStdin_prompted.run hprepare'
  -- the password is the one that was asked for
  have hpassword := (prepareDecryptStdin_eq_ok hprepare').answered s'.asked le_rfl le_rfl
  rw [hentered'.answered s'.asked le_rfl le_rfl, Except.ok.injEq] at hpassword
  subst hpassword
  rw [Eff.bind_ok hprepare'] at h'
  rcases hstdin' : decryptStdin env' console' password.bytes s₁' with ⟨r, s₂'⟩
  rw [hstdin'] at h'
  have hcut : s₂'.world = s₁'.world ∧ ∃ shown, s₂'.stdout = s₁'.stdout ++ shown ∧ shown <+: x.content ∧
      (∀ u, r = .ok u → shown = x.content) := by
    cases env'
    cases hsame
    exact decryptStdin_cut hC x hin' hstdin'
  obtain ⟨hworld', shown, hstdout', hprefix, hall⟩ := hcut
  rw [hprompted'.world] at hworld'
  rw [hprompted'.stdout] at hstdout'
  cases r with
  | error e =>
    cases h'
    exact ⟨hworld', shown, hstdout', hprefix, by simp⟩
  | ok u =>
    cases h'
    exact ⟨hworld', shown, hstdout', hprefix, fun _ => hall u rfl⟩

theorem piped_round_trip_pw : ∃ t t',
    main (Env.calm .checksummed) (.answering passwordPw [1, 2, 3]) (.encrypt [] false false false)
      (.start textA) = (0, t) ∧
    main (Env.calm .checksummed) (.answering passwordPw t.stdout) (.decrypt [] none false false)
      (.start textA) = (0, t') ∧ t'.stdout = [1, 2, 3] := by
  rcases hmain : main (Env.calm .checksummed) (.answering passwordPw [1, 2, 3]) (.encrypt [] false false false)
    (.start textA) with ⟨code, t⟩
  have hcode : (main (Env.calm .checksummed) (.answering passwordPw [1, 2, 3]) (.encrypt [] false false false)
      (.start textA)).1 = 0 := by decide +kernel
  rw [hmain] at hcode
  subst hcode
  have hsame : (Env.calm .checksummed).crates = (Env.calm .checksummed).crates := rfl
  obtain ⟨-, password, sealedBytes, hentered, hstdout, hopen⟩ := piped_round_trip
    Crates.checksummed_exact.toInverts hsame (P := [1, 2, 3]) ⟨by simp [Console.answering], rfl⟩ hmain
  have hpassword := hentered.answered 0 le_rfl (by simp [Session.start])
  cases hpassword
  rw [show (Session.start textA).stdout = [] from rfl, List.nil_append] at hstdout
  subst hstdout
  have hsome : (main (Env.calm .checksummed) (.answering passwordPw [1, 2, 3]) (.encrypt [] false false false)
      (.start textA)).2.stdout ≠ [] := by decide +kernel
  rw [hmain] at hsome
  have hcarries : (Console.answering passwordPw t.stdout).stdin.Carries t.stdout := by
    constructor
    · intro ev hev heq
      rw [heq] at hev
      simp [Console.answering] at hev
      exact hsome hev
    · simp [Console.answering, ReadEvent.bytes]
  rcases hmain' : main (Env.calm .checksummed) (.answering passwordPw t.stdout) (.decrypt [] none false false)
    (.start textA) with ⟨code', t'⟩
  have hcode' : (main (Env.calm .checksummed) (.answering passwordPw
      (main (Env.calm .checksummed) (.answering passwordPw [1, 2, 3]) (.encrypt [] false false false)
        (.start textA)).2.stdout) (.decrypt [] none false false) (.start textA)).1 = 0 := by decide +kernel
  rw [hmain, hmain'] at hcode'
  subst hcode'
  obtain ⟨-, shown, hshown, -, hall⟩ := hopen _ _ _ _ _ t' 0 hcarries
    ⟨hentered.nonempty, fun _ _ _ => rfl⟩ hmain'
  exact ⟨t, t', rfl, hmain', hshown.trans (by rw [hall rfl]; rfl)⟩

/-! ## When nothing fails -/

/-- Standard streams that do not fail, and one password at every prompt. -/
structure Console.Calm (console : Console) (password : Str) (input : Bytes) : Prop where
  piped : console.stdinIsTerminal = false
  flushes : ∀ k, console.flushStderr k = none
  answers : ∀ k, console.readPassword k = .ok password
  delivers : console.stdin.Delivers input
  accepting : Writer.Accepting ⟨console.accepts, []⟩
  shows : console.flushStdout = none

section
variable {env : Env} {console : Console} {password : Str} {input : Bytes} {s : Session}

theorem Console.Calm.toAnswers (h : console.Calm password input) : console.Answers password := ⟨h.flushes, h.answers⟩

theorem Console.Calm.prepareEncryptStdin (h : console.Calm password input) (hpassword : password.bytes ≠ []) :
    ∃ t, Ironlock.prepareEncryptStdin console s = (.ok password, t) := by
  have hpiped : requirePipedStdin console = .ok () := by simp [requirePipedStdin, validateStreamInput, h.piped]
  obtain ⟨s₁, hconfirm⟩ := h.toAnswers.promptPasswordWithConfirm hpassword s
  refine ⟨{ s₁ with stderr := s₁.stderr ++ [[]] }, ?_⟩
  rw [Ironlock.prepareEncryptStdin, hpiped, Eff.bind_ok (Eff.ofExcept_apply ..), Eff.bind_ok hconfirm,
    Eff.bind_ok (SessionM.eprint_apply ..)]
  rfl

theorem Console.Calm.prepareDecryptStdin (h : console.Calm password input) (hpassword : password.bytes ≠ []) :
    ∃ t, Ironlock.prepareDecryptStdin console s = (.ok password, t) := by
  have hpiped : requirePipedStdin console = .ok () := by simp [requirePipedStdin, validateStreamInput, h.piped]
  obtain ⟨s₁, hprompt⟩ := h.toAnswers.promptPasswordDecrypt hpassword s
  refine ⟨{ s₁ with stderr := s₁.stderr ++ [[]] }, ?_⟩
  rw [Ironlock.prepareDecryptStdin, hpiped, Eff.bind_ok (Eff.ofExcept_apply ..), Eff.bind_ok hprompt,
    Eff.bind_ok (SessionM.eprint_apply ..)]
  rfl

theorem flushStdout_ok (h : console.flushStdout = none) (s : Session) :
    SessionM.flushStdout console s = (.ok (), s) := by
  unfold SessionM.flushStdout
  rw [h]
  rfl

theorem Console.Calm.encryptStdin (h : console.Calm password input) (hlength : input.length < 2 ^ 64)
    (hparams : env.crates.argon2Params .current = .ok ()) {key : Key}
    (hkey : env.crates.hashPasswordInto .current password.bytes (env.salt s.world.draws).bytes = .ok key)
    (hseals : env.crates.Seals key) :
    ∃ t, Ironlock.encryptStdin env console password.bytes s = (.ok (), t) := by
  have hstream : ∃ streams, encryptStreamWithParams env.crates (env.salt s.world.draws)
      (env.baseNonce (s.world.draws + 1)) password.bytes stdinName .current
      ⟨console.stdin, ⟨console.accepts, []⟩, []⟩ = (.ok input.length, streams) :=
    encryptStream_ok (by decide) (by decide) (by decide) hparams hkey hseals h.delivers hlength h.accepting
  obtain ⟨streams, hstream⟩ := hstream
  rw [Ironlock.encryptStdin, Eff.bind_ok (disk_draw ..), Eff.bind_ok (disk_draw ..)]
  rw [encryptStream, Eff.bind_ok (SessionM.stdio_eq hstream), flushStdout_ok h.shows]
  exact ⟨_, rfl⟩

theorem Console.Calm.decryptStdin (hC : env.crates.Inverts) (x : Stream env.crates password.bytes)
    (h : console.Calm password x.bytes) : ∃ t, Ironlock.decryptStdin env console password.bytes s = (.ok (), t) := by
  obtain ⟨d, s₁, s₂, hnew, -, hdecrypt, -⟩ := decrypt_ok hC x (s := ⟨console.stdin, ⟨console.accepts, []⟩, []⟩)
    h.delivers h.accepting
  have hstream : (do let d ← StreamDecryptor.new env.crates password.bytes
                     d.decryptTo env.crates : StreamM Nat) ⟨console.stdin, ⟨console.accepts, []⟩, []⟩ =
      (.ok x.content.length, s₂) := by rw [Eff.bind_ok hnew, hdecrypt]
  rw [Ironlock.decryptStdin, Eff.bind_ok (SessionM.stdio_eq hstream), flushStdout_ok h.shows]
  exact ⟨_, rfl⟩

end

/-- When nothing fails both programs end in 0, for every input of less than 2^64
bytes, and what comes out is what went in. -/
theorem piped_complete {env env' : Env} (hC : env.crates.Inverts) (hsame : env'.crates = env.crates)
    {password : Str} {P : Bytes} (hpassword : password.bytes ≠ []) (hlength : P.length < 2 ^ 64)
    (hparams : env.crates.argon2Params .current = .ok ())
    (hkeys : ∀ salt, ∃ key, env.crates.hashPasswordInto .current password.bytes salt = .ok key ∧
      env.crates.Seals key) {console : Console} {force shred progress : Bool} {s : Session}
    (hcalm : console.Calm password P) :
    ∃ t sealedBytes, main env console (.encrypt [] force shred progress) s = (0, t) ∧
      t.stdout = s.stdout ++ sealedBytes ∧
      ∀ (console' : Console) (output : Option Path) (force' progress' : Bool) (s' : Session),
        console'.Calm password sealedBytes → ∃ t',
          main env' console' (.decrypt [] output force' progress') s' = (0, t') ∧ t'.stdout = s'.stdout ++ P := by
  obtain ⟨s₁, hprepare⟩ := hcalm.prepareEncryptStdin (s := s) hpassword
  obtain ⟨key, hkey, hseals⟩ := hkeys (env.salt s₁.world.draws).bytes
  obtain ⟨t, hstdin⟩ := hcalm.encryptStdin (s := s₁) hlength hparams hkey hseals
  obtain ⟨-, x, rfl, hstdout⟩ := encryptStdin_eq_ok (.of_delivers hcalm.delivers) hstdin
  rw [(prepareEncryptStdin_prompted.run hprepare).stdout] at hstdout
  refine ⟨t, x.bytes, ?_, hstdout, ?_⟩
  · rw [main, run_encrypt_nil, Eff.bind_ok hprepare, hstdin]
  intro console' output force' progress' s' hcalm'
  obtain ⟨s₁', hprepare'⟩ := hcalm'.prepareDecryptStdin (s := s') hpassword
  have hdecrypt : ∃ t', decryptStdin env' console' password.bytes s₁' = (.ok (), t') ∧
      t'.stdout = s₁'.stdout ++ x.content := by
    cases env'
    cases hsame
    obtain ⟨t', hstdin'⟩ := hcalm'.decryptStdin (s := s₁') hC x
    obtain ⟨-, shown, hshown, -, hall⟩ := decryptStdin_cut hC x (.of_delivers hcalm'.delivers) hstdin'
    exact ⟨t', hstdin', by rw [hshown, hall () rfl]⟩
  obtain ⟨t', hstdin', hshown⟩ := hdecrypt
  rw [(prepareDecryptStdin_prompted.run hprepare').stdout] at hshown
  refine ⟨t', ?_, hshown⟩
  rw [main, run_decrypt_nil, Eff.bind_ok hprepare', hstdin']

theorem piped_complete_pw : ∃ t sealedBytes,
    main (Env.calm .checksummed) (.answering passwordPw [1, 2, 3]) (.encrypt [] false false false)
      (.start textA) = (0, t) ∧ t.stdout = [] ++ sealedBytes ∧
      ∀ (console' : Console) (output : Option Path) (force' progress' : Bool) (s' : Session),
        console'.Calm passwordPw sealedBytes → ∃ t',
          main (Env.calm .checksummed) console' (.decrypt [] output force' progress') s' = (0, t') ∧
            t'.stdout = s'.stdout ++ [1, 2, 3] := by
  have hcalm : (Console.answering passwordPw [1, 2, 3]).Calm passwordPw [1, 2, 3] :=
    ⟨rfl, fun _ => rfl, fun _ => rfl, ⟨by simp [Console.answering, ReadEvent.Delivering], rfl⟩,
      Writer.accepting_nil, rfl⟩
  exact piped_complete Crates.checksummed_exact.toInverts rfl (by decide) (by simp) rfl
    (fun _ => ⟨_, rfl, Crates.checksummed_seals _⟩) hcalm

end Ironlock
