import Mathlib.Algebra.BigOperators.Group.Finset.Basic
import Mathlib.Algebra.BigOperators.Group.Finset.Piecewise
import Mathlib.Data.Fintype.BigOperators
import Mathlib.Data.List.Nodup
import Mathlib.Logic.Relation

/-!
# Handing jobs to servers, one at a time

A dispatcher hands jobs of a type `α` to servers of a type `ι`. A server works on
at most one job; a job is handed out once. The state records which jobs were
handed to whom, what each server is working on and what it has finished.

From these two rules alone: a job that was handed out is in exactly one place
(`Sound.existsUnique_place`), a server finishes its jobs in the order it got
them, and once every server is idle every job has been finished exactly once, by
the server it was handed to (`Sound.finished_once`).
-/

/-- Jobs handed out, jobs being worked on, jobs finished. -/
structure Dispatcher (ι α : Type) where
  assigned : List (α × ι)
  cur : ι → Option α
  done : ι → List α

namespace Dispatcher

variable {ι α : Type} [DecidableEq ι]

/-- Nothing handed out yet. -/
def empty : Dispatcher ι α where
  assigned := []
  cur := fun _ => none
  done := fun _ => []

/-- The jobs handed to server `i`, in order. -/
def assignedTo (d : Dispatcher ι α) (i : ι) : List α :=
  (d.assigned.filter fun e => e.2 = i).map Prod.fst

/-- Hand job `a` to server `i`. -/
def hand (d : Dispatcher ι α) (i : ι) (a : α) : Dispatcher ι α where
  assigned := d.assigned ++ [(a, i)]
  cur := Function.update d.cur i (some a)
  done := d.done

/-- Server `i` is done with job `a`. -/
def finish (d : Dispatcher ι α) (i : ι) (a : α) : Dispatcher ι α where
  assigned := d.assigned
  cur := Function.update d.cur i none
  done := Function.update d.done i (d.done i ++ [a])

/-- The two rules: only an idle server gets a job, and only a job not handed out before. -/
inductive Step : Dispatcher ι α → Dispatcher ι α → Prop
  | hand {d : Dispatcher ι α} {i : ι} {a : α} :
      d.cur i = none → a ∉ d.assigned.map Prod.fst → Step d (d.hand i a)
  | finish {d : Dispatcher ι α} {i : ι} {a : α} : d.cur i = some a → Step d (d.finish i a)

/-- Where a job can be. -/
inductive Place (ι : Type) where
  | working (i : ι)
  | finished

/-- Job `a` is at that place. -/
def At (d : Dispatcher ι α) (a : α) : Place ι → Prop
  | .working i => d.cur i = some a
  | .finished => ∃ i, a ∈ d.done i

/-- What the rules keep true. -/
structure Sound (d : Dispatcher ι α) : Prop where
  /-- A server's jobs are those it has finished, then the one it works on. -/
  split : ∀ i, d.assignedTo i = d.done i ++ (d.cur i).toList
  /-- No job is handed out twice. -/
  nodup : (d.assigned.map Prod.fst).Nodup

/-! ## The rules keep it true -/

theorem sound_empty : Sound (empty : Dispatcher ι α) where
  split := by intro i; rfl
  nodup := List.nodup_nil

theorem assignedTo_hand_self (d : Dispatcher ι α) (i : ι) (a : α) :
    (d.hand i a).assignedTo i = d.assignedTo i ++ [a] := by
  simp [assignedTo, hand, List.filter_append]

theorem assignedTo_hand_ne (d : Dispatcher ι α) {i j : ι} (a : α) (h : j ≠ i) :
    (d.hand i a).assignedTo j = d.assignedTo j := by
  have hne : i ≠ j := fun he => h he.symm
  simp [assignedTo, hand, List.filter_append, hne]

theorem sound_step {d d' : Dispatcher ι α} (h : Sound d) (hs : Step d d') : Sound d' := by
  cases hs with
  | @hand i a hidle hnew =>
      constructor
      · intro j
        by_cases hj : j = i
        · subst hj
          rw [assignedTo_hand_self, h.split j, hidle]
          simp [hand]
        · rw [assignedTo_hand_ne _ _ hj, h.split j]
          simp [hand, hj]
      · simp only [hand, List.map_append, List.map_cons, List.map_nil]
        exact List.Nodup.append h.nodup (List.nodup_singleton a)
          (List.disjoint_singleton.mpr hnew)
  | @finish i a hcur =>
      constructor
      · intro j
        have hj := h.split j
        by_cases hji : j = i
        · subst hji
          rw [hcur] at hj
          simpa [assignedTo, finish] using hj
        · simpa [assignedTo, finish, hji] using hj
      · exact h.nodup

theorem sound_reachable {d : Dispatcher ι α} (h : Relation.ReflTransGen Step empty d) :
    Sound d := by
  induction h with
  | refl => exact sound_empty
  | tail _ hs ih => exact sound_step ih hs

/-! ## What that means for one job -/

theorem mem_assignedTo {d : Dispatcher ι α} {i : ι} {a : α} :
    a ∈ d.assignedTo i ↔ (a, i) ∈ d.assigned := by
  simp [assignedTo]

/-- A job was handed to one server only. -/
theorem Sound.server_unique {d : Dispatcher ι α} (h : Sound d) {i j : ι} {a : α}
    (hi : (a, i) ∈ d.assigned) (hj : (a, j) ∈ d.assigned) : i = j := by
  have := List.inj_on_of_nodup_map h.nodup hi hj rfl
  exact congrArg Prod.snd this

theorem Sound.assignedTo_nodup {d : Dispatcher ι α} (h : Sound d) (i : ι) :
    (d.assignedTo i).Nodup :=
  h.nodup.sublist (List.Sublist.map Prod.fst List.filter_sublist)

/-- What a server works on was handed to it. -/
theorem Sound.cur_assigned {d : Dispatcher ι α} (h : Sound d) {i : ι} {a : α}
    (hc : d.cur i = some a) : (a, i) ∈ d.assigned := by
  rw [← mem_assignedTo, h.split i, hc]
  simp

/-- What a server has finished was handed to it. -/
theorem Sound.done_assigned {d : Dispatcher ι α} (h : Sound d) {i : ι} {a : α}
    (hd : a ∈ d.done i) : (a, i) ∈ d.assigned := by
  rw [← mem_assignedTo, h.split i]
  exact List.mem_append_left _ hd

/-- A server does not work on what it has finished. -/
theorem Sound.not_done_of_cur {d : Dispatcher ι α} (h : Sound d) {i : ι} {a : α}
    (hc : d.cur i = some a) : a ∉ d.done i := by
  have hnd := h.assignedTo_nodup i
  rw [h.split i, hc] at hnd
  intro hd
  exact (List.nodup_append.mp hnd).2.2 a hd a (by simp) rfl

/-- **A job that was handed out is in exactly one place.** -/
theorem Sound.existsUnique_place {d : Dispatcher ι α} (h : Sound d) {a : α}
    (ha : a ∈ d.assigned.map Prod.fst) : ∃! p, d.At a p := by
  obtain ⟨⟨a', i⟩, hmem, rfl⟩ := List.mem_map.mp ha
  have hsplit : a' ∈ d.done i ++ (d.cur i).toList := by
    rw [← h.split i]; exact mem_assignedTo.mpr hmem
  rcases List.mem_append.mp hsplit with hd | hc
  · refine ⟨.finished, ⟨i, hd⟩, ?_⟩
    intro p hp
    cases p with
    | finished => rfl
    | working j =>
        -- the server working on it would be the one that finished it
        have hji : j = i := h.server_unique (h.cur_assigned hp) hmem
        subst hji
        exact absurd hd (h.not_done_of_cur hp)
  · have hc : d.cur i = some a' := by simpa using hc
    refine ⟨.working i, hc, ?_⟩
    intro p hp
    cases p with
    | working j =>
        have hji : j = i := h.server_unique (h.cur_assigned hp) hmem
        rw [hji]
    | finished =>
        obtain ⟨j, hj⟩ := hp
        have hji : j = i := h.server_unique (h.done_assigned hj) hmem
        subst hji
        exact absurd hj (h.not_done_of_cur hc)

/-- **With every server idle, each job has been finished once, where it was handed.** -/
theorem Sound.finished_once [DecidableEq α] {d : Dispatcher ι α} (h : Sound d)
    (hidle : ∀ i, d.cur i = none) {a : α} {i : ι} (ha : (a, i) ∈ d.assigned) :
    (d.done i).count a = 1 ∧ ∀ j, j ≠ i → a ∉ d.done j := by
  have hdone : d.done i = d.assignedTo i := by
    rw [h.split i, hidle i]; simp
  refine ⟨?_, ?_⟩
  · rw [hdone]
    exact List.count_eq_one_of_mem (h.assignedTo_nodup i) (mem_assignedTo.mpr ha)
  · intro j hj hd
    exact hj (h.server_unique (h.done_assigned hd) ha)

/-! ## Every hand-over is to some server -/

variable [Fintype ι]

/-- What is counted server by server is counted once in all. -/
theorem sum_countP_assignedTo (d : Dispatcher ι α) (p : α → Bool) :
    ∑ i, (d.assignedTo i).countP p = (d.assigned.map Prod.fst).countP p := by
  unfold assignedTo
  induction d.assigned with
  | nil => simp
  | cons e es ih =>
      have hcons : ∀ i, ((List.filter (fun e' => e'.2 = i) (e :: es)).map Prod.fst).countP p
          = (if e.2 = i then if p e.1 then 1 else 0 else 0)
            + ((List.filter (fun e' => e'.2 = i) es).map Prod.fst).countP p := by
        intro i
        by_cases hi : e.2 = i
        · simp [List.countP_cons, hi]; omega
        · simp [hi]
      simp only [hcons, Finset.sum_add_distrib, ih]
      simp [List.countP_cons]
      omega

theorem sum_length_assignedTo (d : Dispatcher ι α) :
    ∑ i, (d.assignedTo i).length = d.assigned.length := by
  have h := d.sum_countP_assignedTo fun _ => true
  simpa using h

theorem Sound.sum_count_le_one [DecidableEq α] {d : Dispatcher ι α} (h : Sound d) (a : α) :
    ∑ i, (d.assignedTo i).count a ≤ 1 := by
  have hsum : ∑ i, (d.assignedTo i).count a = (d.assigned.map Prod.fst).count a :=
    d.sum_countP_assignedTo fun b => b == a
  rw [hsum]
  exact List.nodup_iff_count_le_one.mp h.nodup a

end Dispatcher
