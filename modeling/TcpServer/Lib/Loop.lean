import Mathlib.Logic.Basic

/-!
# Counted loops

`while (cond) body` as a function: it needs to be told how often it may go round,
and if that is enough it says how often it did. A body can fail to come back,
which is how loops are nested.

`run_of_invariant` is the rule for a loop whose number of rounds is known: an
invariant that mentions the round gives termination, the count and the final
state at once.
-/

namespace Loop

variable {σ : Type} {cond : σ → Bool} {body : σ → Option σ}

/-- The loop with at most `fuel` tests of its condition: the number of rounds and the state after
the last, or `none` if it would have gone on. -/
def run (cond : σ → Bool) (body : σ → Option σ) : Nat → σ → Option (Nat × σ)
  | 0, _ => none
  | fuel + 1, s =>
      if cond s = true then
        match body s with
        | none => none
        | some t => (run cond body fuel t).map fun r => (r.1 + 1, r.2)
      else some (0, s)

theorem run_stop {fuel : Nat} {s : σ} (h : cond s = false) :
    run cond body (fuel + 1) s = some (0, s) := by
  rw [run, if_neg (by simp [h])]

theorem run_next {fuel : Nat} {s t : σ} (h : cond s = true) (hbody : body s = some t) :
    run cond body (fuel + 1) s = (run cond body fuel t).map fun r => (r.1 + 1, r.2) := by
  rw [run, if_pos h, hbody]

/-- One test more loses nothing. -/
theorem run_succ {fuel : Nat} {s : σ} {r : Nat × σ} (h : run cond body fuel s = some r) :
    run cond body (fuel + 1) s = some r := by
  induction fuel generalizing s r with
  | zero => cases h
  | succ fuel ih =>
      by_cases hcond : cond s = true
      · rw [run, if_pos hcond] at h ⊢
        cases hbody : body s with
        | none => rw [hbody] at h; cases h
        | some t =>
            rw [hbody] at h
            obtain ⟨q, hq, rfl⟩ := Option.map_eq_some_iff.mp h
            simp [ih hq]
      · have hstop : cond s = false := by simpa using hcond
        rw [run_stop hstop] at h ⊢
        exact h

theorem run_mono {fuel fuel' : Nat} {s : σ} {r : Nat × σ} (h : run cond body fuel s = some r)
    (hle : fuel ≤ fuel') : run cond body fuel' s = some r := by
  induction hle with
  | refl => exact h
  | step _ ih => exact run_succ ih

/-- Nor does a body that comes back more often. -/
theorem run_body_mono {body' : σ → Option σ} (hbody : ∀ s t, body s = some t → body' s = some t)
    {fuel : Nat} {s : σ} {r : Nat × σ} (h : run cond body fuel s = some r) :
    run cond body' fuel s = some r := by
  induction fuel generalizing s r with
  | zero => cases h
  | succ fuel ih =>
      rw [run] at h ⊢
      split at h
      · rename_i hcond
        rw [if_pos hcond]
        cases hb : body s with
        | none => rw [hb] at h; cases h
        | some t =>
            rw [hb] at h
            obtain ⟨q, hq, rfl⟩ := Option.map_eq_some_iff.mp h
            simp [hbody s t hb, ih hq]
      · rename_i hcond
        rw [if_neg hcond]
        exact h

/--
**A loop whose rounds can be numbered goes round that often.**

`Inv k` is what holds after `k` rounds. Before the last round the condition must
be true and the body come back, after it the condition must be false.
-/
theorem run_of_invariant {Inv : Nat → σ → Prop} {n : Nat}
    (hround : ∀ k < n, ∀ s, Inv k s → cond s = true ∧ ∃ t, body s = some t ∧ Inv (k + 1) t)
    (hstop : ∀ s, Inv n s → cond s = false) {s : σ} (h : Inv 0 s) :
    ∃ t, run cond body (n + 1) s = some (n, t) ∧ Inv n t := by
  -- on the number of rounds that are left
  have hleft : ∀ m k s, k + m = n → Inv k s →
      ∃ t, run cond body (m + 1) s = some (m, t) ∧ Inv n t := by
    intro m
    induction m with
    | zero =>
        intro k s hk hs
        subst hk
        exact ⟨s, run_stop (hstop s hs), hs⟩
    | succ m ih =>
        intro k s hk hs
        obtain ⟨hcond, u, hbody, hu⟩ := hround k (by omega) s hs
        obtain ⟨t, hrun, ht⟩ := ih (k + 1) u (by omega) hu
        exact ⟨t, by rw [run_next hcond hbody, hrun]; rfl, ht⟩
  exact hleft n 0 s (Nat.zero_add n) h

end Loop
