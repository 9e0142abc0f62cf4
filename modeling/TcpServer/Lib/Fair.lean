import TcpServer.Lib.Lts
import Mathlib.Tactic.ByContra

/-!
# Fair behaviours and variants

An infinite behaviour takes an action or pauses at every instant. The only
fairness asked for is that the system as a whole is not abandoned: if some
action of the system's own stays possible for ever, one is taken. Actions of the
environment may happen any number of times in between, or never.

Under that assumption a variant is enough. If no action increases it, the
system's own actions decrease it, and one of them is possible until the goal is
reached, the goal is reached.
-/

namespace Lts

variable {σ ℓ : Type} {L : Lts σ ℓ}

/-- An infinite behaviour: at each instant an action, or a pause. -/
structure Trace (L : Lts σ ℓ) where
  state : Nat → σ
  label : Nat → Option ℓ
  /-- A pause changes nothing. -/
  pause : ∀ t, label t = none → state (t + 1) = state t
  /-- An action does what the system says it does. -/
  act : ∀ t l, label t = some l → L.step (state t) l = some (state (t + 1))

namespace Trace

variable {ρ : L.Trace} {sys : ℓ → Prop}

/-- If an action of the system's own is possible from some instant on, one is taken later. -/
def Fair (ρ : L.Trace) (sys : ℓ → Prop) : Prop :=
  ∀ t, (∀ u, t ≤ u → ∃ l, sys l ∧ (L.step (ρ.state u) l).isSome = true) →
    ∃ u l, t ≤ u ∧ sys l ∧ ρ.label u = some l

/-- What every action of the behaviour keeps holds throughout it. -/
theorem always (Inv : σ → Prop) (h0 : Inv (ρ.state 0))
    (hstep : ∀ t l, Inv (ρ.state t) → ρ.label t = some l → Inv (ρ.state (t + 1))) :
    ∀ t, Inv (ρ.state t) := by
  intro t
  induction t with
  | zero => exact h0
  | succ t ih =>
      cases hl : ρ.label t with
      | none => rw [ρ.pause t hl]; exact ih
      | some l => exact hstep t l ih hl

/-- A predicate that every action keeps is never lost again. -/
theorem stable (P : σ → Prop) {t u : Nat} (htu : t ≤ u) (ht : P (ρ.state t))
    (hstep : ∀ v l, P (ρ.state v) → ρ.label v = some l → P (ρ.state (v + 1))) :
    P (ρ.state u) := by
  induction htu with
  | refl => exact ht
  | @step u _ ih =>
      cases hl : ρ.label u with
      | none => rw [ρ.pause u hl]; exact ih
      | some l => exact hstep u l ih hl

/-- Things that each hold some time, and then stay, all hold at one time. -/
theorem exists_forall_mem {κ : Type} (P : κ → σ → Prop) (t : Nat) {ks : List κ}
    (hstep : ∀ k v l, P k (ρ.state v) → ρ.label v = some l → P k (ρ.state (v + 1)))
    (h : ∀ k ∈ ks, ∃ u, P k (ρ.state u)) : ∃ v, t ≤ v ∧ ∀ k ∈ ks, P k (ρ.state v) := by
  induction ks with
  | nil => exact ⟨t, Nat.le_refl t, by simp⟩
  | cons k ks ih =>
      obtain ⟨v, htv, hv⟩ := ih fun j hj => h j (List.mem_cons_of_mem k hj)
      obtain ⟨u, hu⟩ := h k List.mem_cons_self
      refine ⟨max u v, Nat.le_trans htv (Nat.le_max_right u v), ?_⟩
      intro j hj
      rcases List.mem_cons.mp hj with rfl | hj
      · exact stable (P j) (Nat.le_max_left u v) hu (hstep j)
      · exact stable (P j) (Nat.le_max_right u v) (hv j hj) (hstep j)

/-- What some action ends, and only actions in `A` do, ends by an action in `A`. -/
theorem exists_act (P : σ → Prop) {A : ℓ → Prop} {t u : Nat} (htu : t ≤ u) (ht : P (ρ.state t))
    (hu : ¬ P (ρ.state u))
    (hkeep : ∀ v l, P (ρ.state v) → ρ.label v = some l → ¬ A l → P (ρ.state (v + 1))) :
    ∃ v l, t ≤ v ∧ A l ∧ ρ.label v = some l := by
  by_contra hnone
  have hall : ∀ v, t ≤ v → P (ρ.state v) := by
    intro v hv
    induction hv with
    | refl => exact ht
    | @step v htv ih =>
        cases hl : ρ.label v with
        | none => rw [ρ.pause v hl]; exact ih
        | some l => exact hkeep v l ih hl fun hA => hnone ⟨v, l, htv, hA, hl⟩
  exact hu (hall u htu)

/-- What a behaviour does inside is a behaviour. -/
def project {τ κ : Type} {M : Lts τ κ} {abs : σ → τ} {act : ℓ → Option κ} (ρ : L.Trace)
    (h : Projects L M abs act) : M.Trace where
  state t := abs (ρ.state t)
  label t := (ρ.label t).bind act
  pause := by
    intro t ht
    cases hl : ρ.label t with
    | none => rw [ρ.pause t hl]
    | some l =>
        rw [hl] at ht
        exact h.hidden (ρ.act t l hl) ht
  act := by
    intro t k hk
    obtain ⟨l, hl, ha⟩ := Option.bind_eq_some_iff.mp hk
    exact h.shown (ρ.act t l hl) ha

/-- A measure that no action increases only ever goes down. -/
theorem measure_antitone {m : σ → Nat}
    (hmono : ∀ t l, ρ.label t = some l → m (ρ.state (t + 1)) ≤ m (ρ.state t)) {t u : Nat}
    (htu : t ≤ u) : m (ρ.state u) ≤ m (ρ.state t) := by
  induction htu with
  | refl => exact Nat.le_refl _
  | @step u _ ih =>
      cases hl : ρ.label u with
      | none => rw [ρ.pause u hl]; exact ih
      | some l => exact Nat.le_trans (hmono u l hl) ih

/--
**The variant rule.**

Along a fair behaviour on which no action increases `m` and the system's own
actions decrease it, the goal is reached, provided one of the system's own
actions is possible wherever the goal does not hold yet.
-/
theorem eventually (Goal : σ → Prop) (m : σ → Nat) (hfair : ρ.Fair sys)
    (hmono : ∀ t l, ρ.label t = some l → m (ρ.state (t + 1)) ≤ m (ρ.state t))
    (hdec : ∀ t l, ρ.label t = some l → sys l → m (ρ.state (t + 1)) < m (ρ.state t))
    (hen : ∀ t, ¬ Goal (ρ.state t) → ∃ l, sys l ∧ (L.step (ρ.state t) l).isSome = true) :
    ∃ t, Goal (ρ.state t) := by
  by_contra hnone
  have hnever : ∀ t, ¬ Goal (ρ.state t) := fun t ht => hnone ⟨t, ht⟩
  -- by induction on the measure, no value of it can be the current one
  have key : ∀ k t, m (ρ.state t) ≠ k := by
    intro k
    induction k using Nat.strongRecOn with
    | ind k ih =>
        intro t hk
        obtain ⟨u, l, htu, hsys, hl⟩ := hfair t (fun u _ => hen u (hnever u))
        have hle := measure_antitone hmono htu
        have hlt := hdec u l hl hsys
        exact ih (m (ρ.state (u + 1))) (by omega) (u + 1) rfl
  exact key (m (ρ.state 0)) 0 rfl

end Trace

/-! ## A finite run, and then nothing -/

/-- The state after `k` of the actions `ls`, or after all of them. -/
def play (L : Lts σ ℓ) : σ → List ℓ → Nat → σ
  | s, [], _ => s
  | s, _ :: _, 0 => s
  | s, l :: ls, k + 1 =>
      match L.step s l with
      | some u => L.play u ls k
      | none => s

variable {ok : σ → ℓ → Prop} {s t : σ} {ls : List ℓ}

theorem play_cons {u : σ} {l : ℓ} (hs : L.step s l = some u) (k : Nat) :
    L.play s (l :: ls) (k + 1) = L.play u ls k := by
  rw [play, hs]

theorem play_zero : L.play s ls 0 = s := by cases ls <;> rfl

/-- Once the actions are used up, the state stays. -/
theorem Run.play_end (h : L.Run ok s ls t) {k : Nat} (hk : ls.length ≤ k) : L.play s ls k = t := by
  induction h generalizing k with
  | nil s => cases k <;> rfl
  | cons _ hs _ ih =>
      cases k with
      | zero => exact absurd hk (by simp)
      | succ k =>
          rw [play_cons hs]
          exact ih (Nat.le_of_succ_le_succ hk)

theorem Run.play_act (h : L.Run ok s ls t) {k : Nat} {l : ℓ} (hl : ls[k]? = some l) :
    L.step (L.play s ls k) l = some (L.play s ls (k + 1)) := by
  induction h generalizing k with
  | nil s => cases hl
  | @cons s u t l' ls _ hs _ ih =>
      rw [play_cons hs]
      cases k with
      | zero =>
          obtain rfl : l' = l := by simpa using hl
          rw [play_zero, play_zero]
          exact hs
      | succ k =>
          rw [play_cons hs]
          exact ih (by simpa using hl)

/-- The behaviour that makes a run and then pauses for ever. -/
def Run.trace (h : L.Run ok s ls t) : L.Trace where
  state := L.play s ls
  label := fun k => ls[k]?
  pause := by
    intro k hk
    have hle : ls.length ≤ k := List.getElem?_eq_none_iff.mp hk
    rw [h.play_end hle, h.play_end (Nat.le_succ_of_le hle)]
  act := fun _ _ hl => h.play_act hl

theorem Run.trace_zero (h : L.Run ok s ls t) : h.trace.state 0 = s := play_zero

/-- It is fair if it goes on until the system has nothing left to do. -/
theorem Run.trace_fair {sys : ℓ → Prop} (h : L.Run ok s ls t)
    (hend : ∀ l, sys l → L.step t l = none) : h.trace.Fair sys := by
  intro u hen
  obtain ⟨l, hsys, hl⟩ := hen (max u ls.length) (Nat.le_max_left _ _)
  have hstate : h.trace.state (max u ls.length) = t := h.play_end (Nat.le_max_right _ _)
  rw [hstate, hend l hsys] at hl
  cases hl

end Lts
