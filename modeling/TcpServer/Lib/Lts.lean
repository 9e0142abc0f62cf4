import Mathlib.Logic.Relation
import Mathlib.Algebra.GroupWithZero.Nat

/-!
# Labelled transition systems

A system is a partial step function: `step s l = some t` says that the action
`l` can happen in `s` and leads to `t`. Keeping it a function makes concrete
runs computable; keeping the action in the step makes it possible to say which
runs are meant, by a predicate `ok` on the states and the actions taken in them.

Three rules carry everything built on top: `Run.invariant` (what every step
keeps, every run keeps), `Run.simulates` (a map that turns steps into abstract
steps turns runs into abstract runs) and `exists_run_of_measure` (a measure that
every step decreases is run down to a goal). `Trace.eventually` is the last of
them for infinite behaviours.
-/

/-- A labelled transition system given by its partial step function. -/
structure Lts (σ ℓ : Type) where
  /-- The states a run may start in. -/
  init : σ → Prop
  /-- What action `l` does in a state, if it can happen there. -/
  step : σ → ℓ → Option σ

namespace Lts

variable {σ ℓ τ κ : Type} {L : Lts σ ℓ} {ok ok' : σ → ℓ → Prop}

/-- `L.Run ok s ls t`: the actions `ls`, each allowed by `ok` where it is taken, lead from `s`
to `t`. -/
inductive Run (L : Lts σ ℓ) (ok : σ → ℓ → Prop) : σ → List ℓ → σ → Prop
  | nil (s : σ) : Run L ok s [] s
  | cons {s u t : σ} {l : ℓ} {ls : List ℓ} :
      ok s l → L.step s l = some u → Run L ok u ls t → Run L ok s (l :: ls) t

/-- A state that some allowed run from a starting state ends in. -/
def Reachable (L : Lts σ ℓ) (ok : σ → ℓ → Prop) (t : σ) : Prop :=
  ∃ (s : σ) (ls : List ℓ), L.init s ∧ L.Run ok s ls t

/-- Every action is allowed. -/
def Any (_ : σ) (_ : ℓ) : Prop := True

instance (s : σ) (l : ℓ) : Decidable (Any s l) := inferInstanceAs (Decidable True)

/-! ## Composing runs and taking them apart -/

theorem Run.append {s u t : σ} {ls ms : List ℓ}
    (h₁ : L.Run ok s ls u) (h₂ : L.Run ok u ms t) : L.Run ok s (ls ++ ms) t := by
  -- on the first run; the second one never changes
  induction h₁ with
  | nil => exact h₂
  | cons hok hs _ ih => exact .cons hok hs (ih h₂)

theorem Run.snoc {s u t : σ} {ls : List ℓ} {l : ℓ}
    (h : L.Run ok s ls u) (hok : ok u l) (hs : L.step u l = some t) :
    L.Run ok s (ls ++ [l]) t := h.append (.cons hok hs (.nil t))

/-- The step is a function, so the first one of a run is known. -/
theorem run_cons_iff {s u t : σ} {l : ℓ} {ls : List ℓ} (hs : L.step s l = some u) :
    L.Run ok s (l :: ls) t ↔ ok s l ∧ L.Run ok u ls t := by
  constructor
  · intro h
    cases h with
    | cons hok hs' hrest =>
        rw [hs] at hs'
        cases hs'
        exact ⟨hok, hrest⟩
  · rintro ⟨hok, hrest⟩
    exact .cons hok hs hrest

/-- A run over a concatenation passes through a state between the two parts. -/
theorem Run.split {s t : σ} {ms : List ℓ} :
    ∀ {ls : List ℓ}, L.Run ok s (ls ++ ms) t → ∃ u, L.Run ok s ls u ∧ L.Run ok u ms t := by
  intro ls
  induction ls generalizing s with
  | nil => intro h; exact ⟨s, .nil s, h⟩
  | cons l ls ih =>
      intro h
      -- a run over a nonempty list begins with its head
      cases h with
      | cons hok hs hrest =>
          obtain ⟨u, h1, h2⟩ := ih hrest
          exact ⟨u, .cons hok hs h1, h2⟩

theorem Run.mono (hsub : ∀ s l, ok s l → ok' s l) {s t : σ} {ls : List ℓ}
    (h : L.Run ok s ls t) : L.Run ok' s ls t := by
  induction h with
  | nil s => exact .nil s
  | cons hok hs _ ih => exact .cons (hsub _ _ hok) hs ih

/-- What holds of every action of a run may be required of it. -/
theorem Run.restrict {P : ℓ → Prop} {s t : σ} {ls : List ℓ} (h : L.Run ok s ls t)
    (hP : ∀ l ∈ ls, P l) : L.Run (fun s l => ok s l ∧ P l) s ls t := by
  induction h with
  | nil s => exact .nil s
  | cons hok hs _ ih =>
      exact .cons ⟨hok, hP _ List.mem_cons_self⟩ hs
        (ih fun l hl => hP l (List.mem_cons_of_mem _ hl))

/-! ## Invariants -/

/-- **What every allowed step keeps, every allowed run keeps.** -/
theorem Run.invariant {P : σ → Prop}
    (hstep : ∀ {s l t}, P s → ok s l → L.step s l = some t → P t)
    {s t : σ} {ls : List ℓ} (h : L.Run ok s ls t) (hs : P s) : P t := by
  induction h with
  | nil => exact hs
  | cons hok hst _ ih => exact ih (hstep hs hok hst)

theorem Reachable.invariant {P : σ → Prop} (hinit : ∀ {s}, L.init s → P s)
    (hstep : ∀ {s l t}, P s → ok s l → L.step s l = some t → P t)
    {t : σ} (h : L.Reachable ok t) : P t := by
  obtain ⟨s, ls, hs, hrun⟩ := h
  exact hrun.invariant hstep (hinit hs)

theorem Reachable.mono (hsub : ∀ s l, ok s l → ok' s l) {t : σ}
    (h : L.Reachable ok t) : L.Reachable ok' t := by
  obtain ⟨s, ls, hs, hrun⟩ := h
  exact ⟨s, ls, hs, hrun.mono hsub⟩

theorem Reachable.run {s t : σ} {ls : List ℓ} (h : L.Reachable ok s)
    (hr : L.Run ok s ls t) : L.Reachable ok t := by
  obtain ⟨s₀, ms, hs, hrun⟩ := h
  exact ⟨s₀, ms ++ ls, hs, hrun.append hr⟩

/-! ## Simulation -/

/--
**A map that turns steps into abstract steps turns runs into abstract runs.**

The abstract step is a reflexive and transitive closure, so a concrete step may
be invisible or stand for several abstract ones. `Inv` is the invariant under
which the map commutes.
-/
theorem Run.simulates (abs : σ → τ) {R : τ → τ → Prop} {Inv : σ → Prop}
    (hinv : ∀ {s l t}, Inv s → ok s l → L.step s l = some t → Inv t)
    (habs : ∀ {s l t}, Inv s → ok s l → L.step s l = some t →
      Relation.ReflTransGen R (abs s) (abs t))
    {s t : σ} {ls : List ℓ} (h : L.Run ok s ls t) (hs : Inv s) :
    Relation.ReflTransGen R (abs s) (abs t) := by
  induction h with
  | nil => exact .refl
  | cons hok hst _ ih => exact (habs hs hok hst).trans (ih (hinv hs hok hst))

/-- `abs` shows the system `M` inside `L`: an action is one of `M`'s, or changes nothing of it. -/
structure Projects (L : Lts σ ℓ) (M : Lts τ κ) (abs : σ → τ) (act : ℓ → Option κ) : Prop where
  shown : ∀ {s l t k}, L.step s l = some t → act l = some k → M.step (abs s) k = some (abs t)
  hidden : ∀ {s l t}, L.step s l = some t → act l = none → abs t = abs s

/-- **What a run does inside is a run.** -/
theorem Run.project {M : Lts τ κ} {okM : τ → κ → Prop} {abs : σ → τ} {act : ℓ → Option κ}
    (h : Projects L M abs act) (hok : ∀ {s l k}, ok s l → act l = some k → okM (abs s) k)
    {s t : σ} {ls : List ℓ} (hr : L.Run ok s ls t) :
    M.Run okM (abs s) (ls.filterMap act) (abs t) := by
  induction hr with
  | nil s => exact .nil _
  | @cons s u t l ls hl hs _ ih =>
      cases ha : act l with
      | none =>
          rw [List.filterMap_cons_none ha, ← h.hidden hs ha]
          exact ih
      | some k =>
          rw [List.filterMap_cons_some ha]
          exact .cons (hok hl ha) (h.shown hs ha) ih

/-! ## What a run gives out -/

/-- What the actions of a run give out, each in the state it is taken in. -/
def outputs {ω : Type} (L : Lts σ ℓ) (out : σ → ℓ → List ω) (s : σ) : List ℓ → List ω
  | [] => []
  | l :: ls =>
      match L.step s l with
      | some u => out s l ++ outputs L out u ls
      | none => []

section Outputs

variable {ω : Type} {out : σ → ℓ → List ω}

theorem outputs_cons {s u : σ} {l : ℓ} {ls : List ℓ} (hs : L.step s l = some u) :
    L.outputs out s (l :: ls) = out s l ++ L.outputs out u ls := by
  rw [outputs, hs]

/-- **What every step gives out under an invariant, every run does.** -/
theorem Run.outputs_forall {P : σ → Prop} {Q : ω → Prop}
    (hstep : ∀ {s l t}, P s → ok s l → L.step s l = some t → P t ∧ ∀ o ∈ out s l, Q o)
    {s t : σ} {ls : List ℓ} (h : L.Run ok s ls t) (hs : P s) : ∀ o ∈ L.outputs out s ls, Q o := by
  induction h with
  | nil => intro o ho; cases ho
  | cons hok hst _ ih =>
      obtain ⟨ht, hout⟩ := hstep hs hok hst
      intro o ho
      rw [outputs_cons hst] at ho
      rcases List.mem_append.mp ho with ho | ho
      · exact hout o ho
      · exact ih ht o ho

/-- **A map under which every step gives out a run turns runs into runs.** -/
theorem Run.refines {M : Lts τ ω} {abs : σ → τ} {P : σ → Prop}
    (hstep : ∀ {s l t}, P s → ok s l → L.step s l = some t →
      P t ∧ M.Run Any (abs s) (out s l) (abs t))
    {s t : σ} {ls : List ℓ} (h : L.Run ok s ls t) (hs : P s) :
    M.Run Any (abs s) (L.outputs out s ls) (abs t) := by
  induction h with
  | nil s => exact .nil _
  | cons hok hst _ ih =>
      obtain ⟨hu, hout⟩ := hstep hs hok hst
      rw [outputs_cons hst]
      exact hout.append (ih hu)

end Outputs

/-! ## What a run costs -/

/--
**The rule of amortised cost.**

What a step costs it takes from what there is left, `a`, or adds to what has been
done, `b`. Then so does a run.
-/
theorem Run.amortized {P : σ → Prop} {cost : ℓ → Nat} {a b : σ → Nat}
    (hstep : ∀ {s l t}, P s → ok s l → L.step s l = some t →
      P t ∧ cost l + a t + b s ≤ a s + b t)
    {s t : σ} {ls : List ℓ} (h : L.Run ok s ls t) (hs : P s) :
    (ls.map cost).sum + a t + b s ≤ a s + b t := by
  induction h with
  | nil s => simp
  | cons hok hst _ ih =>
      obtain ⟨hu, hle⟩ := hstep hs hok hst
      have hrest := ih hu
      rw [List.map_cons, List.sum_cons]
      omega

/-! ## Running until a goal is reached -/

/--
**If allowed steps decrease a measure and one is possible wherever the goal does
not hold yet, some allowed run reaches the goal.**
-/
theorem exists_run_of_measure {Inv Goal : σ → Prop} (m : σ → Nat)
    (hinv : ∀ {s l t}, Inv s → ok s l → L.step s l = some t → Inv t)
    (hdec : ∀ {s l t}, Inv s → ok s l → L.step s l = some t → m t < m s)
    (hen : ∀ {s}, Inv s → ¬ Goal s → ∃ l, ok s l ∧ (L.step s l).isSome = true)
    {s : σ} (hs : Inv s) : ∃ ls t, L.Run ok s ls t ∧ Goal t := by
  -- by strong induction on what is left of the measure
  induction hm : m s using Nat.strongRecOn generalizing s with
  | ind k ih =>
      by_cases hg : Goal s
      · exact ⟨[], s, .nil s, hg⟩
      · obtain ⟨l, hok, hsome⟩ := hen hs hg
        obtain ⟨u, hstep⟩ := Option.isSome_iff_exists.mp hsome
        have hlt : m u < k := by rw [← hm]; exact hdec hs hok hstep
        obtain ⟨ls, t, hrun, ht⟩ := ih (m u) hlt (hinv hs hok hstep) rfl
        exact ⟨l :: ls, t, .cons hok hstep hrun, ht⟩

/-! ## Running it -/

/-- Follow `ls` from `s`, refusing a step that `ok` does not allow. -/
def exec (L : Lts σ ℓ) (ok : σ → ℓ → Prop) [∀ s l, Decidable (ok s l)] (s : σ) :
    List ℓ → Option σ
  | [] => some s
  | l :: ls => if ok s l then (L.step s l).bind fun u => exec L ok u ls else none

/-- What `exec` computes is a run. -/
theorem run_of_exec [∀ s l, Decidable (ok s l)] {ls : List ℓ} {s t : σ}
    (h : L.exec ok s ls = some t) : L.Run ok s ls t := by
  induction ls generalizing s with
  | nil => cases h; exact .nil _
  | cons l ls ih =>
      rw [exec] at h
      split at h
      · rename_i hok
        obtain ⟨u, hu, hrest⟩ := Option.bind_eq_some_iff.mp h
        exact .cons hok hu (ih hrest)
      · exact absurd h (by simp)

/-- A property of the state that `exec` computes holds of the state a run ends in. -/
theorem exists_run_of_exec [∀ s l, Decidable (ok s l)] {P : σ → Prop} {ls : List ℓ} {s : σ}
    (h : ∃ t ∈ L.exec ok s ls, P t) : ∃ t, L.Run ok s ls t ∧ P t := by
  obtain ⟨t, ht, hP⟩ := h
  exact ⟨t, run_of_exec ht, hP⟩

end Lts
