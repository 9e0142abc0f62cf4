import TcpServer.Lib.Fair

/-!
# Leading from one state to another

Progress of a system of several processes, each of which is scheduled fairly:
`ρ.LeadsTo P Q` says that wherever `P` holds, `Q` holds then or later. Progress
properties are chained by `LeadsTo.trans`.

What proves one is `leadsTo_of_helpful`. As long as `Q` does not hold there has
to be a process that helps: one that can take a step, goes on being able to
until it does, and whose steps take from a variant. No step of any other process
may add to the variant, so that the help is not undone.

`within` leaves a system with the steps that a predicate allows. It is what
fairness has to be about if only some of the steps are meant: a process that can
only do what is not allowed cannot go on.
-/

namespace Lts

variable {σ ℓ : Type} {L : Lts σ ℓ}

/-! ## Fewer steps -/

/-- The system with only those steps that `ok` allows. -/
def within (L : Lts σ ℓ) (ok : σ → ℓ → Prop) [∀ s l, Decidable (ok s l)] : Lts σ ℓ where
  init := L.init
  step s l := if ok s l then L.step s l else none

section Within

variable {ok : σ → ℓ → Prop} [∀ s l, Decidable (ok s l)] {s t : σ} {l : ℓ} {ls : List ℓ}

theorem step_within : (L.within ok).step s l = some t ↔ ok s l ∧ L.step s l = some t := by
  simp only [within, Option.ite_none_right_eq_some]

theorem isSome_within (hok : ok s l) (h : (L.step s l).isSome = true) :
    ((L.within ok).step s l).isSome = true := by
  simp only [within, if_pos hok]
  exact h

/-- It has the runs that `ok` allows. -/
theorem Run.within (h : L.Run ok s ls t) : (L.within ok).Run Any s ls t := by
  induction h with
  | nil s => exact .nil s
  | cons hok hs _ ih => exact .cons trivial (step_within.mpr ⟨hok, hs⟩) ih

end Within

/-! ## Progress -/

namespace Trace

variable {ρ : L.Trace} {P Q R : σ → Prop}

/-- Wherever `P` holds, `Q` holds then or later. -/
def LeadsTo (ρ : L.Trace) (P Q : σ → Prop) : Prop :=
  ∀ t, P (ρ.state t) → ∃ u, t ≤ u ∧ Q (ρ.state u)

theorem LeadsTo.trans (h₁ : ρ.LeadsTo P Q) (h₂ : ρ.LeadsTo Q R) : ρ.LeadsTo P R := by
  intro t ht
  obtain ⟨u, htu, hu⟩ := h₁ t ht
  obtain ⟨v, huv, hv⟩ := h₂ u hu
  exact ⟨v, Nat.le_trans htu huv, hv⟩

theorem LeadsTo.imp (h : ρ.LeadsTo P Q) (hQ : ∀ s, Q s → R s) : ρ.LeadsTo P R := by
  intro t ht
  obtain ⟨u, htu, hu⟩ := h t ht
  exact ⟨u, htu, hQ _ hu⟩

/-- Where one of several things holds, each of which leads to `Q`, `Q` is led to. -/
theorem LeadsTo.exists {ι : Type} {P : ι → σ → Prop} (h : ∀ i, ρ.LeadsTo (P i) Q) :
    ρ.LeadsTo (fun s => ∃ i, P i s) Q := by
  rintro t ⟨i, ht⟩
  exact h i t ht

/-- What always holds may be used on the way. -/
theorem LeadsTo.of_always {I : σ → Prop} (hI : ∀ t, I (ρ.state t))
    (h : ρ.LeadsTo (fun s => I s ∧ P s) Q) : ρ.LeadsTo P Q := by
  intro t ht
  exact h t ⟨hI t, ht⟩

/-- Process `p`, whose actions are `A p`, helps to get from `P` to `Q` in the states `H p`. -/
structure Helpful {κ : Type} (L : Lts σ ℓ) (A : κ → ℓ → Prop) (P Q : σ → Prop) (m : σ → Nat)
    (H : κ → σ → Prop) : Prop where
  /-- Until `Q` holds, somebody helps. -/
  helper : ∀ s, P s → ¬ Q s → ∃ p, H p s
  /-- Who helps can take a step. -/
  enabled : ∀ s p, P s → H p s → ∃ l, A p l ∧ (L.step s l).isSome = true
  /-- A step leads to `Q`, or takes from the variant, or leaves it as it is and the helpers with
  it, none of whom took it. -/
  step : ∀ s l t, P s → ¬ Q s → L.step s l = some t →
    Q t ∨ P t ∧ (m t < m s ∨ m t = m s ∧ ∀ p, H p s → H p t ∧ ¬ A p l)

/-- Who helps at some instant does so for ever, unless the variant or `Q` intervenes. -/
theorem Helpful.stays {κ : Type} {A : κ → ℓ → Prop} {m : σ → Nat} {H : κ → σ → Prop}
    (h : Helpful L A P Q m H) {t : Nat} {p : κ} (ht : P (ρ.state t)) (hp : H p (ρ.state t))
    (hno : ∀ u, t ≤ u → ¬ Q (ρ.state u))
    (hmin : ∀ u, t ≤ u → P (ρ.state u) → ¬ m (ρ.state u) < m (ρ.state t)) {u : Nat} (htu : t ≤ u) :
    P (ρ.state u) ∧ m (ρ.state u) = m (ρ.state t) ∧ H p (ρ.state u) := by
  induction htu with
  | refl => exact ⟨ht, rfl, hp⟩
  | @step u htu ih =>
      obtain ⟨hP, hm, hH⟩ := ih
      cases hl : ρ.label u with
      | none => rw [ρ.pause u hl]; exact ⟨hP, hm, hH⟩
      | some l =>
          rcases h.step _ l _ hP (hno u htu) (ρ.act u l hl) with hQ | ⟨hP', hlt | ⟨heq, hkeep⟩⟩
          · exact absurd hQ (hno (u + 1) (Nat.le_succ_of_le htu))
          · rw [hm] at hlt
            exact absurd hlt (hmin (u + 1) (Nat.le_succ_of_le htu) hP')
          · exact ⟨hP', heq.trans hm, (hkeep p hH).1⟩

/--
**The rule of the helpful process.**

If every process is scheduled fairly, and until `Q` holds there is always one
that helps, then `P` leads to `Q`.
-/
theorem leadsTo_of_helpful {κ : Type} {A : κ → ℓ → Prop} {m : σ → Nat} {H : κ → σ → Prop}
    (hfair : ∀ p, ρ.Fair (A p)) (h : Helpful L A P Q m H) : ρ.LeadsTo P Q := by
  intro t ht
  -- by strong induction on the variant
  induction hm : m (ρ.state t) using Nat.strongRecOn generalizing t with
  | ind k ih =>
      by_contra hnone
      have hno : ∀ u, t ≤ u → ¬ Q (ρ.state u) := fun u htu hu => hnone ⟨u, htu, hu⟩
      have hmin : ∀ u, t ≤ u → P (ρ.state u) → ¬ m (ρ.state u) < m (ρ.state t) := by
        intro u htu hP hlt
        rw [hm] at hlt
        obtain ⟨v, huv, hv⟩ := ih _ hlt u hP rfl
        exact hno v (Nat.le_trans htu huv) hv
      -- somebody helps, goes on doing so, and is therefore scheduled
      obtain ⟨p, hp⟩ := h.helper _ ht (hno t (Nat.le_refl t))
      have hstays := fun u (htu : t ≤ u) => h.stays ht hp hno hmin htu
      obtain ⟨u, l, htu, hA, hl⟩ :=
        hfair p t fun u htu => h.enabled _ p (hstays u htu).1 (hstays u htu).2.2
      obtain ⟨hP, hmu, hH⟩ := hstays u htu
      rcases h.step _ l _ hP (hno u htu) (ρ.act u l hl) with hQ | ⟨hP', hlt | ⟨_, hkeep⟩⟩
      · exact hno (u + 1) (Nat.le_succ_of_le htu) hQ
      · rw [hmu] at hlt
        exact hmin (u + 1) (Nat.le_succ_of_le htu) hP' hlt
      · exact (hkeep p hH).2 hA

end Trace

end Lts
