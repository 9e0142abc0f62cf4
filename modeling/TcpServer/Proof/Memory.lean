import TcpServer.Lib.Ownership
import TcpServer.Model.Memory
import Mathlib.Data.Finset.Lattice.Lemmas

/-!
# Nothing is freed twice

However a program uses its server objects, every pointer that one of its variables
leads to is that of an allocated block, and no two lead to the same one. So no call
frees or touches anything it must not, `tcp_server_destroy` least of all: it can be
called at any time, on a variable it was called on before too (`calls_go_through`).

The blocks a call writes to are its own, but it may write past the end of them. It
does so exactly with a descriptor that no set has room for, or if a client is
accepted with no worker ready (`Confined`).

What can also go wrong is that a block is forgotten. `tcp_server_new` does that to the
object a variable held before, and a second `tcp_server_dispatch` to the pool of the
first; nothing else does (`heap_accounted_for`).
-/

namespace TcpServer.Proof

open TcpServer

variable {ι : Type} [DecidableEq ι] {base foreign : Heap} {m m' : Memory ι}

/-- What the variables hold on to. -/
def owned (m : Memory ι) (i : ι) : List Addr := held (m.var i)

/-- The invariant: the variables share out the heap between them, but for `foreign`. -/
def Shared (foreign : Heap) (m : Memory ι) : Prop := Ownership.Kept foreign m.heap (owned m)

theorem owned_assign (m : Memory ι) (h : Heap) (i : ι) (o : Option ServerBlocks) :
    owned (m.assign h i o) = Function.update (owned m) i (held o) :=
  Function.comp_update held m.var i o

omit [DecidableEq ι] in
theorem owned_of_var {i : ι} {o : ServerBlocks} (h : m.var i = some o) :
    owned m i = o.blocks := by
  rw [owned, held, h]
  rfl

/-! ## What the calls do to the heap -/

section Heap

variable {h h' : Heap} {a self : Addr} {wp : PoolBlocks}

theorem smalloc_eq_some : h.smalloc a = some h' ↔ a ∉ h ∧ insert a h = h' := by
  simp [Heap.smalloc]

theorem touch_eq_some : h.touch a = some h' ↔ a ∈ h ∧ h = h' := by
  simp [Heap.touch]

theorem tcpServerDispatch_eq_some : h.tcpServerDispatch self wp = some h' ↔
    self ∈ h ∧ (wp.self ∉ h ∧ wp.worker ∉ insert wp.self h)
      ∧ insert wp.worker (insert wp.self h) = h' := by
  simp only [Heap.tcpServerDispatch, Heap.workerPoolNew, Option.bind_eq_bind,
    Option.bind_eq_some_iff, smalloc_eq_some, touch_eq_some]
  constructor
  · rintro ⟨h₁, ⟨hself, rfl⟩, h₂, ⟨h₃, ⟨hpool, rfl⟩, h₄, ⟨_, rfl⟩, hworker, rfl⟩, h₅, ⟨_, rfl⟩, h₆,
      ⟨_, rfl⟩, _, rfl⟩
    exact ⟨hself, ⟨hpool, hworker⟩, rfl⟩
  · rintro ⟨hself, ⟨hpool, hworker⟩, rfl⟩
    refine ⟨h, ⟨hself, rfl⟩, _, ⟨_, ⟨hpool, rfl⟩, _, ⟨?_, rfl⟩, hworker, rfl⟩, _, ⟨?_, rfl⟩, _,
      ⟨?_, rfl⟩, ?_, rfl⟩ <;> simp [hself]

theorem tcpServerRun_eq_some {o : ServerBlocks} : h.tcpServerRun o = some h' ↔
    (o.self ∈ h ∧ ∃ wp, o.wp = some wp ∧ wp.self ∈ h ∧ wp.worker ∈ h) ∧ h = h' := by
  simp only [Heap.tcpServerRun, Option.bind_eq_bind, Option.bind_eq_some_iff, touch_eq_some]
  constructor
  · rintro ⟨h₁, ⟨hself, rfl⟩, wp, hwp, h₂, ⟨hpool, rfl⟩, hworker, rfl⟩
    exact ⟨⟨hself, wp, hwp, hpool, hworker⟩, rfl⟩
  · rintro ⟨⟨hself, wp, hwp, hpool, hworker⟩, rfl⟩
    exact ⟨h, ⟨hself, rfl⟩, wp, hwp, h, ⟨hpool, rfl⟩, hworker, rfl⟩

/-- **Destroying an object frees its blocks, each once**, if they are its own. -/
theorem destroy_kept {own : ι → List Addr} {i : ι} {o : Option ServerBlocks}
    (hk : Ownership.Kept foreign h own) (hown : own i = held o) :
    ∃ h', h.tcpServerDestroy o = some h'
      ∧ Ownership.Kept foreign h' (Function.update own i []) := by
  cases o with
  | none =>
      refine ⟨h, rfl, ?_⟩
      rwa [← show own i = [] from hown, Function.update_eq_self]
  | some o =>
      obtain ⟨self, workersN, wp⟩ := o
      cases wp with
      | none =>
          have hown : own i = [self] := hown
          have hself : self ∈ h := hk.live (i := i) (by simp [hown])
          exact ⟨h.erase self, by simp [Heap.tcpServerDestroy, Heap.workerPoolDestroy, Heap.touch,
            Heap.sfree, hself], hk.give hown⟩
      | some wp =>
          have hown : own i = [wp.worker, wp.self, self] := hown
          have hself : self ∈ h := hk.live (i := i) (by simp [hown])
          have hpool : wp.self ∈ h := hk.live (i := i) (by simp [hown])
          have hworker : wp.worker ∈ h := hk.live (i := i) (by simp [hown])
          -- the three are different blocks
          have hnd := hk.nodup i
          rw [hown] at hnd
          obtain ⟨⟨hws, hwo⟩, hso⟩ : (wp.worker ≠ wp.self ∧ wp.worker ≠ self) ∧ wp.self ≠ self := by
            simpa using hnd
          refine ⟨((h.erase wp.worker).erase wp.self).erase self, ?_, ?_⟩
          · simp [Heap.tcpServerDestroy, Heap.workerPoolDestroy, Heap.touch, Heap.sfree, hself,
              hpool, hworker, hws.symm, hwo.symm, hso.symm]
          · have h1 := hk.give hown
            have h2 := h1.give (Function.update_self i [wp.self, self] own)
            rw [Function.update_idem] at h2
            have h3 := h2.give (Function.update_self i [self] own)
            rwa [Function.update_idem] at h3

/-- Taking the two blocks of a pool. -/
theorem dispatch_kept {own : ι → List Addr} {i : ι} (hk : Ownership.Kept foreign h own)
    (hown : own i = [self]) (hs : h.tcpServerDispatch self wp = some h') :
    Ownership.Kept foreign h' (Function.update own i [wp.worker, wp.self, self]) := by
  obtain ⟨_, ⟨hpool, hworker⟩, rfl⟩ := tcpServerDispatch_eq_some.mp hs
  have h1 := hk.take hpool i
  have h2 := h1.take hworker i
  rwa [Function.update_self, Function.update_idem, hown] at h2

end Heap

/-! ## One call -/

/-- The call leaves a variable with the blocks it held before. -/
theorem shared_assign_self {h : Heap} {i : ι} {o o' : ServerBlocks} (hm : Shared foreign m)
    (hh : m.heap = h) (ho : m.var i = some o) (hsame : o'.blocks = o.blocks) :
    Shared foreign (m.assign h i (some o')) := by
  have hheld : held (some o') = owned m i := by
    rw [owned_of_var ho]
    exact hsame
  rw [Shared, owned_assign, hheld, Function.update_eq_self]
  show Ownership.Kept foreign h (owned m)
  rw [← hh]
  exact hm

/-- **Every call keeps the invariant**, with what it forgets given up for lost. -/
theorem shared_step {call : ApiCall ι} (hm : Shared foreign m) (hs : m.step call = some m') :
    Shared (foreign ∪ (m.forgets call).toFinset) m' := by
  cases call with
  | new i self =>
      obtain ⟨h, hh, rfl⟩ := Option.map_eq_some_iff.mp hs
      obtain ⟨hnew, rfl⟩ := smalloc_eq_some.mp hh
      have h1 := Ownership.Kept.forget hm (List.append_nil (owned m i)).symm
      have h2 := h1.take hnew i
      rw [Function.update_self, Function.update_idem] at h2
      rw [Shared, owned_assign]
      exact h2
  | init i workersN sockFd =>
      simp only [Memory.step] at hs
      split at hs
      · cases hs
      · rename_i o ho
        obtain ⟨h, hh, rfl⟩ := Option.map_eq_some_iff.mp hs
        obtain ⟨_, heq⟩ := touch_eq_some.mp hh
        rw [Memory.forgets, List.toFinset_nil, Finset.union_empty]
        exact shared_assign_self hm heq ho rfl
  | dispatch i self worker pipes =>
      simp only [Memory.step] at hs
      split at hs
      · cases hs
      · rename_i o ho
        obtain ⟨h, hh, rfl⟩ := Option.map_eq_some_iff.mp hs
        have hsplit : owned m i = m.forgets (.dispatch i self worker pipes) ++ [o.self] := by
          obtain ⟨_, _, old⟩ := o
          rw [owned_of_var ho, Memory.forgets, ho]
          cases old <;> rfl
        have h1 := Ownership.Kept.forget hm hsplit
        have h2 := dispatch_kept h1 (Function.update_self i [o.self] (owned m)) hh
        rw [Function.update_idem] at h2
        rw [Shared, owned_assign]
        exact h2
  | run i submits =>
      simp only [Memory.step] at hs
      split at hs
      · cases hs
      · rename_i o ho
        obtain ⟨h, hh, rfl⟩ := Option.map_eq_some_iff.mp hs
        obtain ⟨_, heq⟩ := tcpServerRun_eq_some.mp hh
        rw [Memory.forgets, List.toFinset_nil, Finset.union_empty]
        exact shared_assign_self hm heq ho rfl
  | destroy i =>
      obtain ⟨h, hh, rfl⟩ := Option.map_eq_some_iff.mp hs
      obtain ⟨h', hh', hk⟩ := destroy_kept hm (i := i) (o := m.var i) rfl
      rw [hh] at hh'
      cases hh'
      rw [Memory.forgets, List.toFinset_nil, Finset.union_empty, Shared, owned_assign]
      exact hk

omit [DecidableEq ι] in
/-- A block is forgotten by the variable that held on to it. -/
theorem notForeign_of_forgets {call : ApiCall ι} {a : Addr} (hm : Shared foreign m)
    (ha : a ∈ m.forgets call) : a ∉ foreign := by
  cases call with
  | new i self => exact hm.notForeign i a ha
  | dispatch i self worker pipes =>
      simp only [Memory.forgets] at ha
      split at ha
      · rename_i ho
        refine hm.notForeign i a ?_
        rw [owned_of_var ho]
        exact List.mem_append_left _ ha
      · cases ha
  | init i workersN sockFd | run i submits | destroy i => cases ha

/-! ## Every sequence of calls -/

omit [DecidableEq ι] in
theorem shared_start (base : Heap) : Shared base (Memory.start base : Memory ι) :=
  Ownership.kept_nil base

theorem shared_run {ok : Memory ι → ApiCall ι → Prop} {ls : List (ApiCall ι)}
    (h : (Memory.lts base).Run ok m ls m')
    (hm : Shared foreign m) :
    Shared (foreign ∪ ((Memory.lts base).outputs Memory.forgets m ls).toFinset) m'
      ∧ ∀ a ∈ (Memory.lts base).outputs Memory.forgets m ls, a ∉ foreign := by
  -- on the run, for any blocks that are lost already
  induction h generalizing foreign with
  | nil m =>
      refine ⟨?_, fun a ha => by cases ha⟩
      rw [Lts.outputs, List.toFinset_nil, Finset.union_empty]
      exact hm
  | cons _ hs _ ih =>
      obtain ⟨hrest, hnot⟩ := ih (shared_step hm hs)
      rw [Lts.outputs_cons hs, List.toFinset_append, ← Finset.union_assoc]
      refine ⟨hrest, fun a ha => ?_⟩
      rcases List.mem_append.mp ha with ha | ha
      · exact notForeign_of_forgets hm ha
      · exact fun hf => hnot a ha (Finset.mem_union_left _ hf)

/-! ## Where in the blocks -/

/-- How many entries there are for clients to be submitted to. -/
def entries (o : Option ServerBlocks) : Nat :=
  ((o.bind ServerBlocks.wp).map PoolBlocks.workersN).getD 0

/-- The descriptors fit into a set, and the entries that clients are submitted to exist. -/
def InBounds (m : Memory ι) : ApiCall ι → Prop
  | .init _ _ sockFd => ∀ fd ∈ sockFd.toList, fd < fdSetsize
  | .dispatch _ _ _ pipes => ∀ fd ∈ pipes, fd < fdSetsize
  | .run i submits => ∀ k ∈ submits, k < entries (m.var i)
  | .new _ _ | .destroy _ => True

instance (m : Memory ι) : (call : ApiCall ι) → Decidable (InBounds m call)
  | .init _ _ sockFd => inferInstanceAs (Decidable (∀ fd ∈ sockFd.toList, fd < fdSetsize))
  | .dispatch _ _ _ pipes => inferInstanceAs (Decidable (∀ fd ∈ pipes, fd < fdSetsize))
  | .run i submits => inferInstanceAs (Decidable (∀ k ∈ submits, k < entries (m.var i)))
  | .new _ _ | .destroy _ => isTrue trivial

/-- The calls that can be made: on an object, with addresses that are free and numbers that are in
bounds, all of them. -/
structure Callable (m : Memory ι) : Prop where
  new : ∀ i self, self ∉ m.heap → (m.step (.new i self)).isSome = true
  init : ∀ i o workersN sockFd, m.var i = some o → InBounds m (.init i workersN sockFd) →
    (m.step (.init i workersN sockFd)).isSome = true
  dispatch : ∀ i o self worker pipes, m.var i = some o → self ∉ m.heap → worker ∉ m.heap →
    worker ≠ self → InBounds m (.dispatch i self worker pipes) →
    (m.step (.dispatch i self worker pipes)).isSome = true
  run : ∀ i o submits, m.var i = some o → o.wp ≠ none → InBounds m (.run i submits) →
    (m.step (.run i submits)).isSome = true
  /-- An object may be destroyed at any time, and a variable without one too. -/
  destroy : ∀ i, (m.step (.destroy i)).isSome = true

theorem Shared.callable (hm : Shared foreign m) : Callable m where
  new := by
    intro i self hnew
    simp [Memory.step, Heap.smalloc, hnew]
  init := by
    intro i o workersN sockFd ho _
    have hself : o.self ∈ m.heap := hm.live (i := i) (by
      rw [owned_of_var ho]
      exact List.mem_append_right _ (List.mem_singleton_self _))
    simp [Memory.step, ho, Heap.touch, hself]
  dispatch := by
    intro i o self worker pipes ho hpool hworker hne _
    have hself : o.self ∈ m.heap := hm.live (i := i) (by
      rw [owned_of_var ho]
      exact List.mem_append_right _ (List.mem_singleton_self _))
    have hgo : m.heap.tcpServerDispatch o.self ⟨self, worker, o.workersN⟩ = some _ :=
      tcpServerDispatch_eq_some.mpr ⟨hself, ⟨hpool, by simp [hne, hworker]⟩, rfl⟩
    simp [Memory.step, ho, hgo]
  run := by
    intro i o submits ho hwp _
    obtain ⟨self, workersN, wp⟩ := o
    cases wp with
    | none => exact absurd rfl hwp
    | some wp =>
        have hown : owned m i = [wp.worker, wp.self, self] := owned_of_var ho
        have hgo := (tcpServerRun_eq_some (o := ⟨self, workersN, some wp⟩)).mpr
          ⟨⟨hm.live (i := i) (by simp [hown]), wp, rfl, hm.live (i := i) (by simp [hown]),
            hm.live (i := i) (by simp [hown])⟩, rfl⟩
        simp [Memory.step, ho, hgo]
  destroy := by
    intro i
    obtain ⟨h', hh', _⟩ := destroy_kept hm (i := i) (o := m.var i) rfl
    simp [Memory.step, hh']

/-- What a call writes to, from `m` to `m'`. -/
structure Confined (m m' : Memory ι) (call : ApiCall ι) : Prop where
  /-- The blocks are those of its own variable. -/
  own : ∀ a ∈ m.accesses call, a.block ∈ held (m'.var call.var)
  inside : (∀ a ∈ m.accesses call, a.Inside) ↔ InBounds m call

theorem held_assign (m : Memory ι) (h : Heap) (i : ι) (o : ServerBlocks) :
    held ((m.assign h i (some o)).var i) = o.blocks := by
  rw [show (m.assign h i (some o)).var i = some o from Function.update_self ..]
  rfl

omit [DecidableEq ι] in
theorem run_inside_iff {i : ι} {o : ServerBlocks} {wp : PoolBlocks} {submits : List Nat}
    (ho : m.var i = some o) (hwp : o.wp = some wp) :
    (∀ a ∈ m.accesses (.run i submits), a.Inside) ↔ ∀ k ∈ submits, k < wp.workersN := by
  obtain ⟨self, workersN, _⟩ := o
  obtain rfl : _ = some wp := hwp
  have hloop : ∀ k ∈ List.range wp.workersN, k < wp.workersN := fun k => List.mem_range.mp
  simp only [Memory.accesses, ho, List.forall_mem_map, List.forall_mem_append, Access.Inside]
  exact and_iff_right hloop

/-- **A call writes to its own blocks, and past the end of them exactly if it is told to.** -/
theorem confined_step {call : ApiCall ι} (hs : m.step call = some m') : Confined m m' call := by
  cases call with
  | new i self | destroy i => exact ⟨fun _ ha => (List.not_mem_nil ha).elim, by
      simp [Memory.accesses, InBounds]⟩
  | init i workersN sockFd =>
      simp only [Memory.step] at hs
      split at hs
      · cases hs
      · rename_i o ho
        obtain ⟨h, _, rfl⟩ := Option.map_eq_some_iff.mp hs
        refine ⟨?_, by simp [Memory.accesses, ho, Access.Inside, InBounds]⟩
        simp only [ApiCall.var, held_assign, Memory.accesses, ho, List.mem_map]
        rintro a ⟨fd, _, rfl⟩
        exact List.mem_append_right _ (List.mem_singleton_self _)
  | dispatch i self worker pipes =>
      simp only [Memory.step] at hs
      split at hs
      · cases hs
      · rename_i o ho
        obtain ⟨h, _, rfl⟩ := Option.map_eq_some_iff.mp hs
        refine ⟨?_, ?_⟩
        · simp only [ApiCall.var, held_assign, Memory.accesses, ho, List.mem_append, List.mem_map]
          rintro a (⟨k, _, rfl⟩ | ⟨fd, _, rfl⟩)
          · simp [ServerBlocks.blocks]
          · simp [ServerBlocks.blocks]
        · -- the pool is made for as many workers as are dispatched
          have hloop : ∀ k ∈ List.range o.workersN, k < o.workersN := fun k => List.mem_range.mp
          simp only [Memory.accesses, ho, List.forall_mem_append, List.forall_mem_map,
            Access.Inside, InBounds]
          exact ⟨fun hall => hall.2, fun hpipes => ⟨hloop, hpipes⟩⟩
  | run i submits =>
      simp only [Memory.step] at hs
      split at hs
      · cases hs
      · rename_i o ho
        obtain ⟨h, hh, rfl⟩ := Option.map_eq_some_iff.mp hs
        obtain ⟨⟨_, wp, hwp, _⟩, _⟩ := tcpServerRun_eq_some.mp hh
        refine ⟨?_, ?_⟩
        · obtain ⟨self, workersN, _⟩ := o
          obtain rfl : _ = some wp := hwp
          simp only [ApiCall.var, held_assign, Memory.accesses, ho, List.mem_map]
          rintro a ⟨k, _, rfl⟩
          simp [ServerBlocks.blocks]
        · rw [run_inside_iff ho hwp]
          simp [InBounds, entries, ho, hwp]

section Submits

variable {n : Nat} {s : Server n} {p q : Parent n}

/-- The entry a client is submitted to exists, unless it is the one past the end. -/
theorem submits_step {l : Call n} (hs : Parent.Step p l q) (hp : p.pc ≠ .overrun) :
    (∀ k ∈ p.submits l, k < n) ↔ q.pc ≠ .overrun := by
  -- where no client is submitted, the step must lead somewhere else
  have none_of : p.submits l = [] → q.pc ≠ .overrun →
      ((∀ k ∈ p.submits l, k < n) ↔ q.pc ≠ .overrun) := by
    intro hnil hq
    rw [hnil]
    exact iff_of_true (by simp) hq
  cases hs with
  | overrun hpc hnone =>
      have hlast : p.submits .tau = [n] := by
        simp [Parent.submits, hpc, WorkerPool.submitIndex, hnone]
      simp [hlast]
  | @submit i conn nsel rset ret hpc hi hret =>
      have hone : p.submits (.sendmsg i cmdConn conn ret) = [i.val] := by
        simp [Parent.submits, hpc, WorkerPool.submitIndex, hi]
      simp [hone]
  | @submitKilled i conn nsel rset hpc hi =>
      have hone : p.submits (.sendmsg i cmdConn conn .sigpipe) = [i.val] := by
        simp [Parent.submits, hpc, WorkerPool.submitIndex, hi]
      simp [hone]
  | enter hpc | scanned hpc | skip hpc _ | stopped hpc =>
      exact none_of (by simp [Parent.submits, hpc]) (by simp)
  | test hpc =>
      refine none_of (by simp [Parent.submits, hpc]) ?_
      dsimp only [Parent.afterTest]
      split
      · simp
      · split <;> simp
  | close hpc =>
      refine none_of rfl ?_
      dsimp only [Parent.afterClose]
      split <;> simp
  | free hpc _ _ =>
      refine none_of rfl ?_
      dsimp only [Parent.afterRead]
      split <;> simp
  | sigint =>
      refine none_of rfl ?_
      cases hpc : p.pc <;> simp_all [Parent.afterSignal]
  | reap => exact none_of rfl hp
  | select | ready | failed | accept | readEof | stop | stopKilled | ret =>
      exact none_of rfl (by simp)

/-- Nothing undoes the write past the end. -/
theorem overrun_run {ok : Parent n → Call n → Prop} {ls : List (Call n)}
    (h : (Parent.lts s).Run ok p ls q) (hp : p.pc = .overrun) : q.pc = .overrun := by
  refine h.invariant (P := fun p => p.pc = .overrun) ?_ hp
  intro p l q hp _ hs
  cases Parent.step_cases hs with
  | sigint => rw [hp]; rfl
  | _ => simp_all

/-- **The entries that clients are submitted to exist exactly until one is accepted with no worker
ready.** -/
theorem submits_lt_iff {ok : Parent n → Call n → Prop} {ls : List (Call n)}
    (h : (Parent.lts s).Run ok p ls q) (hp : p.pc ≠ .overrun) :
    (∀ k ∈ (Parent.lts s).outputs Parent.submits p ls, k < n) ↔ q.pc ≠ .overrun := by
  induction h with
  | nil p => exact iff_of_true (by simp [Lts.outputs]) hp
  | @cons p u q l ls _ hs hrest ih =>
      rw [Lts.outputs_cons hs, List.forall_mem_append, submits_step (Parent.step_cases hs) hp]
      by_cases hu : u.pc = .overrun
      · rw [overrun_run hrest hu]
        simp [hu]
      · rw [ih hu]
        exact and_iff_right hu

end Submits

/-- A server loop keeps inside the array of a pool until it has accepted a client too many. -/
def LoopConfined (m : Memory ι) : Prop :=
  ∀ i o wp, m.var i = some o → o.wp = some wp →
    ∀ (s : Server wp.workersN) (ls : List (Call wp.workersN)) (q : Parent wp.workersN),
      (Parent.lts s).Run Lts.Any (Parent.start s) ls q →
      ((∀ a ∈ m.accesses (.run i ((Parent.lts s).outputs Parent.submits (Parent.start s) ls)),
        a.Inside) ↔ q.pc ≠ .overrun)

omit [DecidableEq ι] in
theorem loopConfined (m : Memory ι) : LoopConfined m := by
  intro i o wp ho hwp s ls q hrun
  rw [run_inside_iff ho hwp]
  exact submits_lt_iff hrun (by simp [Parent.start])

/--
**However the interface is used, nothing is freed twice and nothing used that was freed.**

After any calls on any variables in any order, whatever addresses `calloc` reuses, as
long as none writes past the end of an array: no variable leads to a block of the
rest of the program, no two lead to the same one, every call goes through that is
made on an object, and what a call writes to are blocks of its own variable. Whether
it keeps inside them is up to the descriptors it is given, and to the server loop.
-/
theorem calls_go_through (base : Heap) {m : Memory ι}
    (h : (Memory.lts base).Reachable InBounds m) :
    Callable m ∧ base ⊆ m.heap ∧ (∀ i, ∀ a ∈ held (m.var i), a ∉ base) ∧
      (∀ i j, ∀ a ∈ held (m.var i), a ∈ held (m.var j) → i = j) ∧
      (∀ call m', m.step call = some m' → Confined m m' call) ∧ LoopConfined m := by
  obtain ⟨s, ls, rfl, hrun⟩ := h
  obtain ⟨hm, _⟩ := shared_run hrun (shared_start base)
  refine ⟨hm.callable, ?_, ?_, fun i j a hi hj => hm.inj hi hj, fun _ _ hs => confined_step hs,
    loopConfined m⟩
  · exact fun a ha => hm.foreign_subset (Finset.mem_union_left _ ha)
  · exact fun i a ha hb => hm.notForeign i a ha (Finset.mem_union_left _ hb)

/-- Two objects, one of which is dispatched and destroyed, twice; its addresses are used again. -/
def reused : List (ApiCall Bool) :=
  [.new true 1, .init true 2 (some 3), .dispatch true 2 3 [4, 5], .new false 4, .run true [0, 1],
    .destroy true, .destroy true, .dispatch false 1 3 [], .new true 2]

theorem calls_go_through_reused :
    ∃ m : Memory Bool, (Memory.lts {0}).Reachable InBounds m ∧
      (held (m.var true) = [2] ∧ held (m.var false) = [3, 1, 4]) ∧ Callable m := by
  obtain ⟨m, hrun, hheld⟩ : ∃ m : Memory Bool, (Memory.lts {0}).Run InBounds
      (Memory.start {0}) reused m ∧ held (m.var true) = [2] ∧ held (m.var false) = [3, 1, 4] :=
    Lts.exists_run_of_exec (by decide +kernel)
  have hr : (Memory.lts {0}).Reachable InBounds m := ⟨_, _, rfl, hrun⟩
  exact ⟨m, hr, hheld, (calls_go_through {0} hr).1⟩

/--
**Every allocated block is held on to or has been forgotten.**

The heap consists of the blocks of the rest of the program, those the variables lead
to, and those that some call forgot, which are never freed. So when every object has
been destroyed, all memory has been given back exactly if no `tcp_server_new` was
made on a variable that held an object and no object was dispatched twice.
-/
theorem heap_accounted_for (base : Heap) {m : Memory ι} {ls : List (ApiCall ι)}
    (h : (Memory.lts base).Run Lts.Any (Memory.start base) ls m) :
    (∀ a, a ∈ m.heap ↔ a ∈ base
        ∨ a ∈ (Memory.lts base).outputs Memory.forgets (Memory.start base) ls
        ∨ ∃ i, a ∈ held (m.var i))
      ∧ ((∀ i, m.var i = none) → (m.heap = base ↔
        (Memory.lts base).outputs Memory.forgets (Memory.start base) ls = [])) := by
  obtain ⟨hm, hnot⟩ := shared_run h (shared_start base)
  refine ⟨?_, ?_⟩
  · intro a
    rw [hm.mem a, Finset.mem_union, List.mem_toFinset, or_assoc]
    rfl
  · intro hnull
    have hnil : ∀ i, owned m i = [] := fun i => by rw [owned, held, hnull i]; rfl
    rw [hm.heap_eq hnil]
    constructor
    · intro heq
      refine List.eq_nil_iff_forall_not_mem.mpr fun a ha => hnot a ha ?_
      rw [← heq]
      exact Finset.mem_union_right _ (List.mem_toFinset.mpr ha)
    · intro hnone
      rw [hnone, List.toFinset_nil, Finset.union_empty]

/-- An object dispatched twice and destroyed: the first pool is left. -/
theorem heap_accounted_for_dispatchedTwice :
    ∃ m : Memory Bool, m.heap = {2, 3} ∧ (m.heap = ∅ ↔
      (Memory.lts ∅).outputs Memory.forgets (Memory.start ∅)
        [.new true 1, .dispatch true 2 3 [], .dispatch true 4 5 [], .destroy true] = []) := by
  obtain ⟨m, hrun, hheap, htrue, hfalse⟩ : ∃ m : Memory Bool, (Memory.lts ∅).Run Lts.Any
      (Memory.start ∅)
      [.new true 1, .dispatch true 2 3 [], .dispatch true 4 5 [], .destroy true] m ∧
        m.heap = {2, 3} ∧ m.var true = none ∧ m.var false = none :=
    Lts.exists_run_of_exec (by decide +kernel)
  refine ⟨m, hheap, (heap_accounted_for ∅ hrun).2 fun i => ?_⟩
  cases i with
  | true => exact htrue
  | false => exact hfalse

end TcpServer.Proof
