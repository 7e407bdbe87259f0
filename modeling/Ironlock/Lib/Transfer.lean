import Mathlib.Logic.Function.Basic
import Mathlib.Data.List.Nodup

/-! Transfers in a partial map: of what is kept under a key something is made
that is put under another, free one, and it may be taken away itself. -/

namespace Transfer

variable {κ ν : Type} [DecidableEq κ]

/-- `y` put under `target`, and what is under `source` taken away or left. -/
def moved (away : Bool) (source target : κ) (y : ν) (f : κ → Option ν) : κ → Option ν :=
  let g := Function.update f target (some y)
  if away then Function.update g source none else g

/-- The transfers, one after the other; what is made of `x` satisfies `R`. -/
inductive Run (R : κ → κ → ν → ν → Prop) (away : Bool) : List (κ × κ) → (κ → Option ν) → (κ → Option ν) → Prop
  | nil {f : κ → Option ν} : Run R away [] f f
  | cons {source target : κ} {jobs : List (κ × κ)} {x y : ν} {f g : κ → Option ν} (hsource : f source = some x)
      (hfree : f target = none) (hmade : R source target x y) (hrest : Run R away jobs (moved away source target y f) g) :
      Run R away ((source, target) :: jobs) f g

/-- No two transfers have the same source or the same target, and none has
another's source for its target. -/
structure Separate (jobs : List (κ × κ)) : Prop where
  sources : (jobs.map Prod.fst).Nodup
  targets : (jobs.map Prod.snd).Nodup
  apart : ∀ a ∈ jobs, ∀ b ∈ jobs, a.1 ≠ b.2

section
variable {R R' : κ → κ → ν → ν → Prop} {away away' : Bool} {jobs jobs' : List (κ × κ)} {f g g' : κ → Option ν}
  {source target k : κ} {y : ν}

theorem moved_target (h : source ≠ target) : moved away source target y f target = some y := by
  cases away with
  | true => simp [moved, h.symm]
  | false => simp [moved]

theorem moved_other (hsource : k ≠ source) (htarget : k ≠ target) : moved away source target y f k = f k := by
  cases away with
  | true => simp [moved, hsource, htarget]
  | false => simp [moved, htarget]

theorem moved_source (h : source ≠ target) : moved away source target y f source = if away then none else f source := by
  cases away with
  | true => simp [moved]
  | false => simp [moved, h]

omit [DecidableEq κ] in
theorem Separate.sublist (h : Separate jobs) (hsub : jobs'.Sublist jobs) : Separate jobs' where
  sources := h.sources.sublist (hsub.map _)
  targets := h.targets.sublist (hsub.map _)
  apart a ha b hb := h.apart a (hsub.subset ha) b (hsub.subset hb)

omit [DecidableEq κ] in
theorem Separate.tail {job : κ × κ} (h : Separate (job :: jobs)) : Separate jobs := h.sublist (List.sublist_cons_self ..)

omit [DecidableEq κ] in
theorem Separate.head {job other : κ × κ} (h : Separate (job :: jobs)) (hmem : other ∈ jobs) :
    other.1 ≠ job.1 ∧ other.2 ≠ job.2 ∧ other.1 ≠ job.2 ∧ job.1 ≠ other.2 := by
  refine ⟨?_, ?_, h.apart _ (List.mem_cons_of_mem _ hmem) _ List.mem_cons_self,
    h.apart _ List.mem_cons_self _ (List.mem_cons_of_mem _ hmem)⟩
  · intro heq
    exact (List.nodup_cons.1 h.sources).1 (heq ▸ List.mem_map_of_mem hmem)
  · intro heq
    exact (List.nodup_cons.1 h.targets).1 (heq ▸ List.mem_map_of_mem hmem)

omit [DecidableEq κ] in
theorem Separate.of_source (h : Separate jobs) {a b : κ × κ} (ha : a ∈ jobs) (hb : b ∈ jobs) (heq : a.1 = b.1) : a = b :=
  List.inj_on_of_nodup_map h.sources ha hb heq

omit [DecidableEq κ] in
theorem Separate.of_target (h : Separate jobs) {a b : κ × κ} (ha : a ∈ jobs) (hb : b ∈ jobs) (heq : a.2 = b.2) : a = b :=
  List.inj_on_of_nodup_map h.targets ha hb heq

/-- What is neither a source nor a target is left alone. -/
theorem Run.kept (h : Run R away jobs f g) (hsource : k ∉ jobs.map Prod.fst) (htarget : k ∉ jobs.map Prod.snd) :
    g k = f k := by
  induction h with
  | nil => rfl
  | cons _ _ _ _ ih =>
    rw [List.map_cons, List.mem_cons, not_or] at hsource htarget
    rw [ih hsource.2 htarget.2, moved_other hsource.1 htarget.1]

/-- A source is taken away, or it is left alone. -/
theorem Run.at_source (h : Run R away jobs f g) (hsep : Separate jobs) {job : κ × κ} (hmem : job ∈ jobs) :
    g job.1 = if away then none else f job.1 := by
  induction h with
  | nil => cases hmem
  | @cons source target jobs x y f g hsource _ _ hrest ih =>
    have hne : source ≠ target := hsep.apart _ List.mem_cons_self _ List.mem_cons_self
    rcases List.mem_cons.1 hmem with rfl | hmem
    · have hsources : source ∉ jobs.map Prod.fst := (List.nodup_cons.1 hsep.sources).1
      have htargets : source ∉ jobs.map Prod.snd := by
        intro htarget
        obtain ⟨other, hother, heq⟩ := List.mem_map.1 htarget
        exact (hsep.head hother).2.2.2 heq.symm
      rw [hrest.kept hsources htargets, moved_source hne]
    · obtain ⟨hfirst, -, hcross, -⟩ := hsep.head hmem
      rw [ih hsep.tail hmem, moved_other hfirst hcross]

/-- Where nothing is taken away, only the targets change. -/
theorem Run.left (h : Run R false jobs f g) (hsep : Separate jobs) (htarget : k ∉ jobs.map Prod.snd) : g k = f k := by
  by_cases hsource : k ∈ jobs.map Prod.fst
  · obtain ⟨job, hmem, rfl⟩ := List.mem_map.1 hsource
    exact h.at_source hsep hmem
  · exact h.kept hsource htarget

/-- What is made of a source is under its target. -/
theorem Run.at_target (h : Run R away jobs f g) (hsep : Separate jobs) {job : κ × κ} (hmem : job ∈ jobs) :
    ∃ x y, f job.1 = some x ∧ R job.1 job.2 x y ∧ g job.2 = some y := by
  induction h with
  | nil => cases hmem
  | @cons source target jobs x y f g hsource _ hmade hrest ih =>
    have hne : source ≠ target := hsep.apart _ List.mem_cons_self _ List.mem_cons_self
    rcases List.mem_cons.1 hmem with rfl | hmem
    · have htargets : target ∉ jobs.map Prod.snd := (List.nodup_cons.1 hsep.targets).1
      have hsources : target ∉ jobs.map Prod.fst := by
        intro hmem
        obtain ⟨other, hother, heq⟩ := List.mem_map.1 hmem
        exact (hsep.head hother).2.2.1 heq
      exact ⟨x, y, hsource, hmade, by rw [hrest.kept hsources htargets, moved_target hne]⟩
    · obtain ⟨hfirst, -, hcross, -⟩ := hsep.head hmem
      obtain ⟨x', y', hx, hmade', hy⟩ := ih hsep.tail hmem
      rw [moved_other hfirst hcross] at hx
      exact ⟨x', y', hx, hmade', hy⟩

/-- What is new is a target. -/
theorem Run.new (h : Run R away jobs f g) (hnone : f k = none) (hsome : g k ≠ none) (hsep : Separate jobs) :
    k ∈ jobs.map Prod.snd := by
  by_contra htarget
  by_cases hsource : k ∈ jobs.map Prod.fst
  · obtain ⟨job, hmem, rfl⟩ := List.mem_map.1 hsource
    obtain ⟨x, -, hx, -⟩ := h.at_target hsep hmem
    rw [hnone] at hx
    cases hx
  · exact hsome ((h.kept hsource htarget).trans hnone)

/-- There and back: if what `R'` makes of what `R` made of a value is the value. -/
theorem Run.back (h : Run R away jobs f g) (hsep : Separate jobs) (h' : Run R' away' jobs' g g') (hsep' : Separate jobs')
    {a b c : κ} (hthere : (a, b) ∈ jobs) (hback : (b, c) ∈ jobs')
    (hinverse : ∀ x y z, R a b x y → R' b c y z → z = x) : g' c = f a := by
  obtain ⟨x, y, hx, hmade, hy⟩ := h.at_target hsep hthere
  obtain ⟨y', z, hy', hmade', hz⟩ := h'.at_target hsep' hback
  cases hy.symm.trans hy'
  rw [hz, hx, hinverse x y z hmade hmade']

end

end Transfer
