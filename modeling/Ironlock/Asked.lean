import Ironlock.StreamCrypto
import Ironlock.Delivery

/-! What a part of a streaming run asks of the crates and of the allocator. -/

namespace Ironlock
open ByteOrder
open Effect

variable {C : Crates}

/-- Nothing but `P` is asked for. -/
def OnlyAsks (P : Work → Prop) (s s' : Streams) : Prop :=
  ∃ calls, s'.work = s.work ++ calls ∧ ∀ w ∈ calls, P w

instance (P : Work → Prop) : IsPreorder Streams (OnlyAsks P) where
  refl _ := ⟨[], by simp, by simp⟩
  trans _ _ _ := by
    rintro ⟨calls, h, hP⟩ ⟨calls', h', hP'⟩
    refine ⟨calls ++ calls', by rw [h', h, List.append_assoc], ?_⟩
    intro w hw
    rcases List.mem_append.1 hw with hw | hw
    · exact hP w hw
    · exact hP' w hw

namespace OnlyAsks

variable {P Q : Work → Prop} {s s' : Streams}

theorem of_work (h : s'.work = s.work) : OnlyAsks P s s' := ⟨[], by simp [h], by simp⟩

theorem call {w : Work} (h : s'.work = s.work ++ [w]) (hw : P w) : OnlyAsks P s s' :=
  ⟨[w], h, by simpa using hw⟩

theorem mono (h : OnlyAsks P s s') (hPQ : ∀ w, P w → Q w) : OnlyAsks Q s s' := by
  obtain ⟨calls, hwork, hP⟩ := h
  exact ⟨calls, hwork, fun w hw => hPQ w (hP w hw)⟩

end OnlyAsks

section
variable {P : Work → Prop} {s s' : Streams}

theorem liftCrypto_run {α : Type} {m : CryptoM α} {r : Except IronlockError α}
    (h : liftCrypto m s = (r, s')) : m s.work = (r, s'.work) := by
  unfold liftCrypto at h
  rcases hm : m s.work with ⟨r', log⟩
  rw [hm] at h
  cases h
  rfl

theorem liftRead_asks {α : Type} (f : Reader → Except IronlockError α × Reader) :
    Within (OnlyAsks P) (liftRead f) := fun _ => .of_work rfl

theorem writeAll_asks (buf : Bytes) : Within (OnlyAsks P) (writeAll buf) := by
  intro s
  unfold writeAll
  split <;> exact .of_work rfl

theorem allocate_run (size : Nat) (s : Streams) :
    allocate size s = (.ok (), { s with work := s.work ++ [.allocate size] }) := rfl

theorem deriveKey_asks {password salt : Bytes} {params : KdfParams}
    (h : validateKdfParams params = .ok () → P (.deriveKey password salt params)) :
    Within (OnlyAsks P) (liftCrypto (deriveKeyFromPassword C password salt params)) := by
  intro s
  obtain ⟨hwork, -⟩ | ⟨hvalid, hwork⟩ := deriveKey_cases (liftCrypto_run (s := s) rfl)
  · exact .of_work hwork
  · exact .call hwork (h hvalid)

theorem decrypt_calls (key : Key) (nonce : Nonce) (ciphertext aad : Bytes) (s : Streams) :
    (liftCrypto (decrypt C key nonce ciphertext aad) s).2 =
      { s with work := s.work ++ [.decrypt key nonce ciphertext aad] } := by
  unfold liftCrypto decrypt
  cases C.aeadDecrypt key nonce ciphertext aad <;> rfl

theorem decrypt_asks {key : Key} {nonce : Nonce} {ciphertext aad : Bytes}
    (h : P (.decrypt key nonce ciphertext aad)) :
    Within (OnlyAsks P) (liftCrypto (decrypt C key nonce ciphertext aad)) := by
  intro s
  rw [decrypt_calls]
  exact .call rfl h

theorem acceptData_asks (p : Bytes) (total count : Nat) :
    Within (OnlyAsks P) (acceptData p total count) :=
  .ite (.fail _) <| .bind (writeAll_asks _) fun _ => .bind (.ofExcept _) fun _ =>
    .bind (.ofExcept _) fun _ => .pure _

theorem acceptFinal_asks (p : Bytes) (total count : Nat) :
    Within (OnlyAsks P) (acceptFinal p total count) :=
  .ite (.fail _) <| .ite (.fail _) <| .bind (liftRead_asks _) fun _ => .ite (.fail _) (.pure _)

/-- The body of a record is a buffer within the limit and one decryption. -/
theorem decryptRecordBody_asks {key : Key} {baseNonce : Nonce} {header record : Bytes}
    {sequence maxPlaintext : Nat}
    (halloc : ∀ n, tagSize ≤ n → n ≤ maxPlaintext + tagSize → P (.allocate n))
    (hopen : ∀ nonce c aad, P (.decrypt key nonce c aad)) :
    Within (OnlyAsks P)
      (decryptRecordBody C key baseNonce header record sequence maxPlaintext) := by
  intro s
  unfold decryptRecordBody
  by_cases hlim : ofBe (slice record 9 13) < tagSize ∨
      maxPlaintext < ofBe (slice record 9 13) - tagSize
  · simp only [hlim, if_true]
    exact refl_of (OnlyAsks P) s
  · simp only [hlim, if_false]
    have hsize := halloc (ofBe (slice record 9 13)) (by omega) (by omega)
    refine Within.bind (R := OnlyAsks P) (fun s => .call rfl hsize) ?_ s
    exact fun _ => .bind (liftRead_asks _) fun _ => decrypt_asks (hopen _ _ _)

end

end Ironlock
