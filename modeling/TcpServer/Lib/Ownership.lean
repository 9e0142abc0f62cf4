import Mathlib.Data.Finset.Basic
import Mathlib.Data.Finset.Insert
import Mathlib.Logic.Function.Basic

/-!
# Who owns which block

A heap from which several owners take blocks and to which they give them back. Each
owner keeps a list of its blocks, the last one taken first; `foreign` are the
blocks that belong to nobody here, because somebody else has taken them or because
they have been forgotten.

`Kept` is what makes it safe to give a block back: it is in use, and no other owner
is going to give it back as well.
-/

namespace Ownership

variable {ι α : Type} {foreign heap : Finset α} {own : ι → List α} {i : ι} {a : α}

/-- The heap is shared out among the owners and `foreign`. -/
structure Kept (foreign heap : Finset α) (own : ι → List α) : Prop where
  mem : ∀ a, a ∈ heap ↔ a ∈ foreign ∨ ∃ i, a ∈ own i
  notForeign : ∀ i, ∀ a ∈ own i, a ∉ foreign
  nodup : ∀ i, (own i).Nodup
  inj : ∀ {i j a}, a ∈ own i → a ∈ own j → i = j

theorem Kept.live (h : Kept foreign heap own) (ha : a ∈ own i) : a ∈ heap :=
  (h.mem a).mpr (.inr ⟨i, ha⟩)

theorem Kept.foreign_subset (h : Kept foreign heap own) : foreign ⊆ heap := fun a ha =>
  (h.mem a).mpr (.inl ha)

/-- Nobody owns anything yet. -/
theorem kept_nil (base : Finset α) : Kept base base (fun _ : ι => []) where
  mem := by simp
  notForeign := by simp
  nodup := fun _ => List.nodup_nil
  inj := fun ha => absurd ha (by simp)

/-- Once nobody owns anything any more, the heap is what belongs to nobody here. -/
theorem Kept.heap_eq (h : Kept foreign heap own) (hnil : ∀ i, own i = []) : heap = foreign := by
  ext a
  rw [h.mem a]
  simp [hnil]

/-! ## What an owner can do -/

section Update

variable [DecidableEq ι]

theorem mem_update {bs : List α} {j : ι} {b : α} :
    b ∈ Function.update own i bs j ↔ j = i ∧ b ∈ bs ∨ j ≠ i ∧ b ∈ own j := by
  by_cases hji : j = i
  · subst hji
    simp
  · simp [hji]

theorem exists_mem_update {bs : List α} {b : α} :
    (∃ j, b ∈ Function.update own i bs j) ↔ b ∈ bs ∨ ∃ j, j ≠ i ∧ b ∈ own j := by
  constructor
  · rintro ⟨j, hj⟩
    rcases mem_update.mp hj with ⟨_, hb⟩ | hb
    · exact .inl hb
    · exact .inr ⟨j, hb⟩
  · rintro (hb | ⟨j, hb⟩)
    · exact ⟨i, mem_update.mpr (.inl ⟨rfl, hb⟩)⟩
    · exact ⟨j, mem_update.mpr (.inr hb)⟩

/-- What somebody owns, owner `i` or another. -/
theorem exists_mem_iff {b : α} : (∃ j, b ∈ own j) ↔ b ∈ own i ∨ ∃ j, j ≠ i ∧ b ∈ own j := by
  conv_lhs => rw [← Function.update_eq_self i own]
  exact exists_mem_update

theorem nodup_update {bs : List α} (h : Kept foreign heap own) (hbs : bs.Nodup) (j : ι) :
    (Function.update own i bs j).Nodup :=
  (Function.forall_update_iff own fun _ l => l.Nodup).mpr ⟨hbs, fun k _ => h.nodup k⟩ j

/-- An owner that is left with fewer of its blocks shares none with another. -/
theorem inj_update {bs : List α} (h : Kept foreign heap own) (hbs : bs ⊆ own i) {j k : ι} {b : α}
    (hj : b ∈ Function.update own i bs j) (hk : b ∈ Function.update own i bs k) : j = k := by
  have hold : ∀ {j}, b ∈ Function.update own i bs j → b ∈ own j := by
    intro j hj
    rcases mem_update.mp hj with ⟨rfl, hb⟩ | ⟨_, hb⟩
    · exact hbs hb
    · exact hb
  exact h.inj (hold hj) (hold hk)

variable [DecidableEq α]

/-- **A block that is not in use may be taken.** -/
theorem Kept.take (h : Kept foreign heap own) (ha : a ∉ heap) (i : ι) :
    Kept foreign (insert a heap) (Function.update own i (a :: own i)) where
  mem := by
    intro b
    rw [Finset.mem_insert, h.mem b, exists_mem_update, exists_mem_iff (i := i), List.mem_cons]
    tauto
  notForeign := by
    intro j b hb hf
    rcases mem_update.mp hb with ⟨rfl, hb⟩ | ⟨_, hb⟩
    · rcases List.mem_cons.mp hb with rfl | hb
      · exact ha (h.foreign_subset hf)
      · exact h.notForeign j b hb hf
    · exact h.notForeign j b hb hf
  nodup := nodup_update h (List.nodup_cons.mpr ⟨fun hb => ha (h.live hb), h.nodup i⟩)
  inj := by
    -- the new block is owner `i`'s, and nobody had it before
    have hold : ∀ {j b}, b ∈ Function.update own i (a :: own i) j → b = a ∧ j = i ∨ b ∈ own j := by
      intro j b hb
      rcases mem_update.mp hb with ⟨rfl, hb⟩ | ⟨_, hb⟩
      · rcases List.mem_cons.mp hb with hb | hb
        · exact .inl ⟨hb, rfl⟩
        · exact .inr hb
      · exact .inr hb
    intro j k b hj hk
    rcases hold hj with ⟨hb, hji⟩ | hj
    · rcases hold hk with ⟨_, hki⟩ | hk
      · exact hji.trans hki.symm
      · exact absurd (h.live hk) (hb ▸ ha)
    · rcases hold hk with ⟨hb, _⟩ | hk
      · exact absurd (h.live hj) (hb ▸ ha)
      · exact h.inj hj hk

/-- **An owner may give its last block back**, whoever else owns what. -/
theorem Kept.give {as : List α} (h : Kept foreign heap own) (hown : own i = a :: as) :
    Kept foreign (heap.erase a) (Function.update own i as) := by
  have hmine : a ∈ own i := by rw [hown]; exact List.mem_cons_self
  have hless : as ⊆ own i := by rw [hown]; exact List.subset_cons_self a as
  obtain ⟨hnot, hnd⟩ := List.nodup_cons.mp (hown ▸ h.nodup i)
  refine ⟨?_, ?_, nodup_update h hnd, inj_update h hless⟩
  · intro b
    rw [Finset.mem_erase, h.mem b, exists_mem_update, exists_mem_iff (i := i), hown, List.mem_cons]
    constructor
    · rintro ⟨hne, hb⟩
      tauto
    · intro hb
      refine ⟨?_, by tauto⟩
      rintro rfl
      rcases hb with hb | hb | ⟨j, hji, hb⟩
      · exact h.notForeign i b hmine hb
      · exact hnot hb
      · exact hji (h.inj hb hmine)
  · intro j b hb
    rcases mem_update.mp hb with ⟨rfl, hmem⟩ | ⟨_, hmem⟩
    · exact h.notForeign j b (hless hmem)
    · exact h.notForeign j b hmem

/-- **What an owner forgets is nobody's from then on**, and stays in use. -/
theorem Kept.forget {as bs : List α} (h : Kept foreign heap own) (hown : own i = as ++ bs) :
    Kept (foreign ∪ as.toFinset) heap (Function.update own i bs) := by
  have hless : bs ⊆ own i := by rw [hown]; exact List.subset_append_right as bs
  obtain ⟨_, hnd, hne⟩ := List.nodup_append.mp (hown ▸ h.nodup i)
  refine ⟨?_, ?_, nodup_update h hnd, inj_update h hless⟩
  · intro b
    rw [h.mem b, Finset.mem_union, List.mem_toFinset, exists_mem_update, exists_mem_iff (i := i),
      hown, List.mem_append]
    tauto
  · intro j b hb hf
    have hold : b ∈ own j := by
      rcases mem_update.mp hb with ⟨rfl, hmem⟩ | ⟨_, hmem⟩
      · exact hless hmem
      · exact hmem
    rcases Finset.mem_union.mp hf with hf | hf
    · exact h.notForeign j b hold hf
    · have hforgot : b ∈ as := List.mem_toFinset.mp hf
      have hmine : b ∈ own i := by rw [hown]; exact List.mem_append_left _ hforgot
      rcases mem_update.mp hb with ⟨_, hb⟩ | ⟨hji, _⟩
      · exact hne b hforgot b hb rfl
      · exact hji (h.inj hold hmine)

end Update

end Ownership
