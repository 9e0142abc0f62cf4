import TcpServer.Lib.Lts
import Mathlib.Data.Finset.Card
import Mathlib.Data.List.Infix

/-!
# A service with so many places

Customers queue up, are admitted in the order they came, and say what they want
whenever they like. A customer who has been admitted is heard once, answered once
with the front of what was heard, and leaves. There are `n` places, and one of them
is taken from admission to departure.

This is what a service with workers of its own is for; who serves whom does not
appear in it. `Sound` is what can be relied on: nobody overtakes in the queue, there
are never more than `n` customers inside, and everybody is answered with words of
their own, no more than were heard.
-/

/-- How far a customer has got. -/
inductive Visit (α : Type) where
  | waiting
  | admitted
  | heard (as : List α)
  | answered (as : List α) (m : Nat)
  | gone (as : List α) (m : Nat)
  deriving DecidableEq

namespace Visit

variable {α : Type}

/-- What has been heard. -/
def words : Visit α → List α
  | waiting | admitted => []
  | heard as | answered as _ | gone as _ => as

/-- How many of the words have been given back. -/
def given : Visit α → Nat
  | waiting | admitted | heard _ => 0
  | answered _ m | gone _ m => m

/-- The customer has a place. -/
def inside : Visit α → Bool
  | waiting | gone _ _ => false
  | admitted | heard _ | answered _ _ => true

end Visit

/-- The customers are numbered in the order they come. -/
@[ext] structure Service (α : Type) where
  arrived : Nat
  admitted : Nat
  said : Nat → List α
  visit : Nat → Visit α

namespace Service

variable {α : Type}

/-- What can happen. -/
inductive Event (α : Type) where
  | arrive
  | say (k : Nat) (as : List α)
  | enter (k : Nat)
  | hear (k : Nat) (as : List α)
  /-- Customer `k` gets the first `m` of the words heard. -/
  | answer (k m : Nat)
  | leave (k : Nat)
  deriving DecidableEq

def start : Service α := ⟨0, 0, fun _ => [], fun _ => .waiting⟩

/-- Those who have a place. -/
def present (s : Service α) : Finset Nat :=
  (Finset.range s.admitted).filter fun k => (s.visit k).inside = true

/-- Customer `k` gets on. -/
def move (s : Service α) (k : Nat) (v : Visit α) : Service α :=
  { s with visit := Function.update s.visit k v }

/-- One event, with `n` places. -/
def step [DecidableEq α] (n : Nat) (s : Service α) : Event α → Option (Service α)
  | .arrive => some { s with arrived := s.arrived + 1 }
  | .say k as =>
      if k < s.arrived then
        some { s with said := Function.update s.said k (s.said k ++ as) }
      else none
  | .enter k =>
      if k = s.admitted ∧ s.admitted < s.arrived ∧ s.present.card < n then
        some { s.move k .admitted with admitted := s.admitted + 1 }
      else none
  | .hear k as =>
      if s.visit k = .admitted ∧ as <+: s.said k then some (s.move k (.heard as)) else none
  | .answer k m =>
      match s.visit k with
      | .heard as => if m ≤ as.length then some (s.move k (.answered as m)) else none
      | _ => none
  | .leave k =>
      match s.visit k with
      | .answered as m => some (s.move k (.gone as m))
      | _ => none

/-- The service with `n` places. -/
def lts (α : Type) [DecidableEq α] (n : Nat) : Lts (Service α) (Event α) where
  init s := s = start
  step := step n

/-- What can be relied on. -/
structure Sound (n : Nat) (s : Service α) : Prop where
  queue : s.admitted ≤ s.arrived
  /-- Nobody overtakes. -/
  waiting : ∀ k, s.visit k = .waiting ↔ s.admitted ≤ k
  places : s.present.card ≤ n
  /-- Everybody is heard and answered with words of their own. -/
  words : ∀ k, (s.visit k).words <+: s.said k
  /-- Nobody is given back more than was heard. -/
  given : ∀ k, (s.visit k).given ≤ (s.visit k).words.length

theorem sound_start (n : Nat) : Sound n (start : Service α) where
  queue := Nat.le_refl 0
  waiting := fun k => ⟨fun _ => Nat.zero_le k, fun _ => rfl⟩
  places := Nat.zero_le n
  words := fun _ => List.nil_prefix
  given := fun _ => Nat.le_refl 0

section Moves

variable {n : Nat} {s : Service α} {k : Nat} {v : Visit α}

@[simp] theorem move_visit_self (s : Service α) (k : Nat) (v : Visit α) :
    (s.move k v).visit k = v := Function.update_self ..

theorem move_visit_ne (s : Service α) {j k : Nat} (v : Visit α) (h : j ≠ k) :
    (s.move k v).visit j = s.visit j := Function.update_of_ne h ..

/-- Who is inside after a move was so before, unless the one who moved. -/
theorem present_move_subset (hk : (s.visit k).inside = true ∨ v.inside = false) :
    (s.move k v).present ⊆ s.present := by
  intro j hj
  obtain ⟨hlt, hin⟩ := Finset.mem_filter.mp hj
  refine Finset.mem_filter.mpr ⟨hlt, ?_⟩
  by_cases hjk : j = k
  · subst hjk
    rw [move_visit_self] at hin
    rcases hk with hk | hk
    · exact hk
    · rw [hk] at hin
      cases hin
  · rwa [move_visit_ne s v hjk] at hin

/-- Someone inside gets on. -/
theorem Sound.move (h : Sound n s) (hk : (s.visit k).inside = true) (hv : v ≠ .waiting)
    (hwords : v.words <+: s.said k) (hgiven : v.given ≤ v.words.length) :
    Sound n (s.move k v) where
  queue := h.queue
  waiting := by
    intro j
    by_cases hjk : j = k
    · subst hjk
      have hlt : ¬ s.admitted ≤ j := by
        intro hle
        rw [(h.waiting j).mpr hle] at hk
        cases hk
      rw [move_visit_self]
      exact iff_of_false hv hlt
    · rw [move_visit_ne s v hjk]
      exact h.waiting j
  places := (Finset.card_le_card (present_move_subset (.inl hk))).trans h.places
  words := by
    intro j
    by_cases hjk : j = k
    · subst hjk
      rw [move_visit_self]
      exact hwords
    · rw [move_visit_ne s v hjk]
      exact h.words j
  given := by
    intro j
    by_cases hjk : j = k
    · subst hjk
      rw [move_visit_self]
      exact hgiven
    · rw [move_visit_ne s v hjk]
      exact h.given j

/-- The next one is admitted. -/
theorem Sound.enter (h : Sound n s) (hqueue : s.admitted < s.arrived)
    (hplace : s.present.card < n) :
    Sound n { s.move s.admitted .admitted with admitted := s.admitted + 1 } where
  queue := hqueue
  waiting := by
    intro j
    show (s.move s.admitted .admitted).visit j = .waiting ↔ s.admitted + 1 ≤ j
    by_cases hj : j = s.admitted
    · subst hj
      rw [move_visit_self]
      exact iff_of_false (by simp) (by omega)
    · rw [move_visit_ne s _ hj, h.waiting j]
      omega
  places := by
    have hsub : present { s.move s.admitted .admitted with admitted := s.admitted + 1 }
        ⊆ insert s.admitted s.present := by
      intro j hj
      obtain ⟨hlt, hin⟩ := Finset.mem_filter.mp hj
      rw [Finset.mem_insert]
      by_cases hja : j = s.admitted
      · exact .inl hja
      · refine .inr (Finset.mem_filter.mpr ⟨?_, ?_⟩)
        · have hlt : j < s.admitted + 1 := Finset.mem_range.mp hlt
          exact Finset.mem_range.mpr (by omega)
        · have hin : ((s.move s.admitted .admitted).visit j).inside = true := hin
          rwa [move_visit_ne s _ hja] at hin
    have hcard := (Finset.card_le_card hsub).trans (Finset.card_insert_le _ _)
    omega
  words := by
    intro j
    show ((s.move s.admitted .admitted).visit j).words <+: s.said j
    by_cases hj : j = s.admitted
    · subst hj
      rw [move_visit_self]
      exact List.nil_prefix
    · rw [move_visit_ne s _ hj]
      exact h.words j
  given := by
    intro j
    show ((s.move s.admitted .admitted).visit j).given
      ≤ ((s.move s.admitted .admitted).visit j).words.length
    by_cases hj : j = s.admitted
    · subst hj
      rw [move_visit_self]
      exact Nat.zero_le _
    · rw [move_visit_ne s _ hj]
      exact h.given j

end Moves

variable [DecidableEq α] {n : Nat} {s s' : Service α}

theorem sound_step {ev : Event α} (h : Sound n s) (hs : s.step n ev = some s') : Sound n s' := by
  cases ev with
  | arrive =>
      cases hs
      exact ⟨Nat.le_succ_of_le h.queue, h.waiting, h.places, h.words, h.given⟩
  | say k as =>
      simp only [step, Option.ite_none_right_eq_some, Option.some.injEq] at hs
      obtain ⟨hk, rfl⟩ := hs
      refine ⟨h.queue, h.waiting, h.places, ?_, h.given⟩
      intro j
      show (s.visit j).words <+: Function.update s.said k (s.said k ++ as) j
      by_cases hjk : j = k
      · subst hjk
        rw [Function.update_self]
        exact (h.words j).trans (List.prefix_append _ _)
      · rw [Function.update_of_ne hjk]
        exact h.words j
  | enter k =>
      simp only [step, Option.ite_none_right_eq_some, Option.some.injEq] at hs
      obtain ⟨⟨rfl, hqueue, hplace⟩, rfl⟩ := hs
      exact h.enter hqueue hplace
  | hear k as =>
      simp only [step, Option.ite_none_right_eq_some, Option.some.injEq] at hs
      obtain ⟨⟨hv, has⟩, rfl⟩ := hs
      exact h.move (by rw [hv]; rfl) (by simp) has (Nat.zero_le _)
  | answer k m =>
      have hwords := h.words k
      simp only [step] at hs
      split at hs
      · rename_i as hv
        rw [hv] at hwords
        simp only [Option.ite_none_right_eq_some, Option.some.injEq] at hs
        obtain ⟨hm, rfl⟩ := hs
        exact h.move (by rw [hv]; rfl) (by simp) hwords hm
      · cases hs
  | leave k =>
      have hwords := h.words k
      have hgiven := h.given k
      simp only [step] at hs
      split at hs
      · rename_i as m hv
        rw [hv] at hwords hgiven
        cases hs
        exact h.move (by rw [hv]; rfl) (by simp) hwords hgiven
      · cases hs

/-- **It can be relied on at any time.** -/
theorem sound_run {evs : List (Event α)} (h : (lts α n).Run Lts.Any s evs s') (hs : Sound n s) :
    Sound n s' := by
  refine h.invariant (P := Sound n) ?_ hs
  intro s ev s' hsound _ hstep
  exact sound_step hsound hstep

/-! ## One customer's history -/

/-- What happens to customer `k`. -/
def about (k : Nat) : Event α → Bool
  | .enter j | .hear j _ | .answer j _ | .leave j => j = k
  | .arrive | .say _ _ => false

/-- What has happened to customer `k` who has got that far. -/
def history (k : Nat) : Visit α → List (Event α)
  | .waiting => []
  | .admitted => [.enter k]
  | .heard as => [.enter k, .hear k as]
  | .answered as m => [.enter k, .hear k as, .answer k m]
  | .gone as m => [.enter k, .hear k as, .answer k m, .leave k]

theorem history_step {ev : Event α} (h : Sound n s) (hs : s.step n ev = some s') (k : Nat) :
    history k (s.visit k) ++ [ev].filter (about k) = history k (s'.visit k) := by
  -- only the customer an event is about gets on
  have hother : ∀ (j : Nat) (v : Visit α), j ≠ k →
      history k (s.visit k) ++ [] = history k ((s.move j v).visit k) := by
    intro j v hne
    rw [List.append_nil, move_visit_ne s v (Ne.symm hne)]
  cases ev with
  | arrive =>
      cases hs
      exact List.append_nil _
  | say j as =>
      simp only [step, Option.ite_none_right_eq_some, Option.some.injEq] at hs
      obtain ⟨_, rfl⟩ := hs
      exact List.append_nil _
  | enter j =>
      simp only [step, Option.ite_none_right_eq_some, Option.some.injEq] at hs
      obtain ⟨⟨rfl, _, _⟩, rfl⟩ := hs
      by_cases hk : s.admitted = k
      · rw [(h.waiting k).mpr (Nat.le_of_eq hk)]
        show [] ++ _ = history k ((s.move s.admitted .admitted).visit k)
        rw [hk, move_visit_self]
        simp [about, history]
      · simpa [about, hk] using hother _ .admitted hk
  | hear j as =>
      simp only [step, Option.ite_none_right_eq_some, Option.some.injEq] at hs
      obtain ⟨⟨hv, _⟩, rfl⟩ := hs
      by_cases hk : j = k
      · subst hk
        rw [hv, move_visit_self]
        simp [about, history]
      · simpa [about, hk] using hother _ (.heard as) hk
  | answer j m =>
      simp only [step] at hs
      split at hs
      · rename_i as hv
        simp only [Option.ite_none_right_eq_some, Option.some.injEq] at hs
        obtain ⟨_, rfl⟩ := hs
        by_cases hk : j = k
        · subst hk
          rw [hv, move_visit_self]
          simp [about, history]
        · simpa [about, hk] using hother _ (.answered as m) hk
      · cases hs
  | leave j =>
      simp only [step] at hs
      split at hs
      · rename_i as m hv
        cases hs
        by_cases hk : j = k
        · subst hk
          rw [hv, move_visit_self]
          simp [about, history]
        · simpa [about, hk] using hother _ (.gone as m) hk
      · cases hs

/-- **Every customer goes through the same stages, once.** -/
theorem history_run {evs : List (Event α)} (h : (lts α n).Run Lts.Any s evs s') (hs : Sound n s)
    (k : Nat) : history k (s.visit k) ++ evs.filter (about k) = history k (s'.visit k) := by
  induction h with
  | nil s => exact List.append_nil _
  | @cons s u s' ev evs _ hstep _ ih =>
      rw [← ih (sound_step hs hstep), ← history_step hs hstep k, List.append_assoc,
        ← List.filter_append]
      rfl

end Service
