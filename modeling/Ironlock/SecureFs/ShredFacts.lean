import Ironlock.SecureFs.OutputFacts
import Ironlock.SecureFs.Shred

/-! What shredding does to the file it overwrites. -/

namespace Ironlock
open ByteOrder (Bytes)
open Effect
open Fs (Identity Metadata SysCall)

/-- No write fails. -/
def Env.Accepting (env : Env) : Prop := ∀ n, (⟨env.accepts n, []⟩ : Writer).Accepting

section
variable {env : Env} {i len : Nat} {Φ : Nat → Assertion}

theorem Fs.overwrite_content (fs : Fs) (i offset : Nat) (b : Bytes) (j : Nat) :
    (fs.overwrite i offset b).content j = if j = i then
      (fs.content i).take offset ++ b ++ (fs.content i).drop (offset + b.length)
    else fs.content j := rfl

theorem Fs.overwrite_length {fs : Fs} {i offset : Nat} {b : Bytes}
    (h : offset + b.length ≤ (fs.content i).length) :
    ((fs.overwrite i offset b).content i).length = (fs.content i).length := by
  rw [overwrite_content, if_pos rfl]
  simp only [List.length_append, List.length_take, List.length_drop]
  omega

theorem overwriteAll_runs (Χ : IronlockError → Assertion) (hs : ∀ offset, env.Stable (Φ offset))
    (hwrite : ∀ offset steps fs b, offset + b.length ≤ len → Φ offset steps fs →
      Φ (offset + b.length) (steps ++ [⟨.write (.file i), none, fs, fs.overwrite i offset b⟩])
        (fs.overwrite i offset b))
    (offset : Nat) (bs : List Bytes) (hlen : offset + bs.flatten.length ≤ len) :
    Runs (Φ offset) (Sys.overwriteAll env i offset bs)
      (fun _ => Φ (offset + bs.flatten.length)) Χ := by
  induction bs generalizing offset with
  | nil => exact .pure fun _ _ h => by simpa using h
  | cons b bs ih =>
    rw [List.flatten_cons, List.length_append] at hlen ⊢
    refine .bind (Ψ := fun _ => Φ (offset + b.length)) (.perform (hs offset) fun steps fs h =>
      hwrite offset steps fs b (by omega) h) fun _ => ?_
    rw [← Nat.add_assoc]
    exact ih (offset + b.length) (by omega)

/-- A write of the whole buffer fails only when some write does. -/
theorem writeAllAt_runs (hs : ∀ offset, env.Stable (Φ offset))
    (hwrite : ∀ offset steps fs b, offset + b.length ≤ len → Φ offset steps fs →
      Φ (offset + b.length) (steps ++ [⟨.write (.file i), none, fs, fs.overwrite i offset b⟩])
        (fs.overwrite i offset b))
    (offset : Nat) (buf : Bytes) (hlen : offset + buf.length ≤ len) :
    Runs (Φ offset) (Sys.writeAllAt env i offset buf) (fun _ => Φ (offset + buf.length))
      fun _ steps fs => ¬env.Accepting ∧ ∃ offset, Φ offset steps fs := by
  intro w₀ w hw
  let writer : Writer := ⟨env.accepts w.calls, []⟩
  obtain ⟨more, hmore, hpre, hok⟩ := Writer.writeAll_portions buf writer
  have hportions : (Writer.writeAll buf writer).2.portions = more := by rw [hmore]; rfl
  have hle := hpre.length_le
  -- a refusal is one of the writer's, which an accepting environment has not
  have hrun (r : Except IronlockError Unit) (hdone : ∀ u, r = .ok u → (Writer.writeAll buf writer).1 = .ok ())
      (hfailed : ∀ e, r = .error e → (Writer.writeAll buf writer).1 ≠ .ok ()) :
      Runs (Φ offset) (do
        Sys.overwriteAll env i offset (Writer.writeAll buf writer).2.portions
        Eff.ofExcept r)
      (fun _ => Φ (offset + buf.length))
      fun _ steps fs => ¬env.Accepting ∧ ∃ offset, Φ offset steps fs := by
    rw [hportions]
    refine .bind (overwriteAll_runs _ hs hwrite offset more (by omega)) fun _ => .ofExcept ?_ ?_
    · intro u hr steps fs h
      rwa [hok (hdone u hr)] at h
    · refine fun e hr steps fs h => ⟨fun haccept => ?_, _, h⟩
      obtain ⟨w', hw', -⟩ := Writer.writeAll_accepting buf (haccept w.calls)
      exact hfailed e hr (by rw [hw'])
  refine hrun _ (fun u hr => ?_) (fun e hr hdone => ?_) w₀ w hw
  · rcases hresult : (Writer.writeAll buf writer).1 with e | _
    · rw [hresult] at hr
      cases hr
    · rfl
  · rw [hdone] at hr
    cases hr

/-- One pass over the file overwrites it from its beginning to its end. -/
theorem overwriteRemaining_runs (hs : ∀ offset, env.Stable (Φ offset))
    (hwrite : ∀ offset steps fs b, offset + b.length ≤ len → Φ offset steps fs →
      Φ (offset + b.length) (steps ++ [⟨.write (.file i), none, fs, fs.overwrite i offset b⟩])
        (fs.overwrite i offset b))
    (offset remaining : Nat) (hlen : offset + remaining = len) :
    Runs (Φ offset) (overwriteRemaining env i offset remaining) (fun _ => Φ len)
      fun _ steps fs => ¬env.Accepting ∧ ∃ offset, Φ offset steps fs := by
  induction remaining using Nat.strong_induction_on generalizing offset with
  | _ remaining ih =>
    rw [overwriteRemaining]
    refine .ite (fun hzero => .pure fun _ _ h => ?_) fun hpos => ?_
    · rwa [← hlen, hzero]
    have hamount : 0 < min remaining overwriteBufferSize := by
      simp only [overwriteBufferSize]
      omega
    have hle : min remaining overwriteBufferSize ≤ remaining := Nat.min_le_left ..
    refine .bind (Ψ := fun randomData steps fs =>
      randomData.length = min remaining overwriteBufferSize ∧ Φ offset steps fs)
      (.draw fun k steps fs h => ⟨by simp, h⟩) fun randomData => .assuming fun hdata => ?_
    refine .bind (.mapError (writeAllAt_runs hs hwrite offset randomData (by omega))) fun _ => ?_
    rw [hdata]
    exact ih _ (by omega) _ (by omega)

/-- The passes, each from its rewinding to its sync. -/
theorem overwritePasses_runs {Ψ : Nat → Assertion} {Λ : Nat → Nat → Assertion} {Χ : Assertion}
    (hrewind : ∀ k, Runs (Ψ (k + 1)) (Sys.rewind env (.file i)) (fun _ => Λ k 0) fun _ => Χ)
    (hover : ∀ k, Runs (Λ k 0) (overwriteRemaining env i 0 len) (fun _ => Λ k len) fun _ => Χ)
    (hflush : ∀ k, Runs (Λ k len) (Sys.flush env (.file i)) (fun _ => Λ k len) fun _ => Χ)
    (hsync : ∀ k, Runs (Λ k len) (Sys.syncAll env (.file i)) (fun _ => Ψ k) fun _ => Χ)
    (passes : Nat) :
    Runs (Ψ passes) (overwritePasses env i len passes) (fun _ => Ψ 0) fun _ => Χ := by
  induction passes with
  | zero => exact .pure fun _ _ => id
  | succ passes ih =>
    exact .bind (.mapError (hrewind passes)) fun _ => .bind (hover passes) fun _ =>
      .bind (.mapError (hflush passes)) fun _ => .bind (.mapError (hsync passes)) fun _ => ih

end

end Ironlock
