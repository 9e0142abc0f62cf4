import TcpServer.Proof.Dispatching

/-!
# The descriptors of a worker

Between `fork` and its loop a worker makes its end of the channel descriptor 2
and closes what it does not need: both numbers of the pair, and the listening
socket. The closes come after the `dup2`, and none of them looks whether its
number is 2, so if one is, the worker has just closed its channel
(`plumbed_prologue_iff`).

With numbers handed out lowest first, whether one is 2 depends on which of 0, 1
and 2 were open. Each worker takes one number for good, so with descriptor 2
closed the workers take what is free below it first, then 2 itself; the ones
that do either of these with 2 are the ones whose channel is lost.
-/

namespace TcpServer.Proof

open TcpServer

variable {n : Nat}

/-! ## The closes after the `dup2` -/

/-- Descriptor 2 is the worker's end of its channel; nothing else is either end, and nothing is
the listening socket. -/
structure Plumbed (i : Fin n) (fds : Descriptors (File n)) : Prop where
  stderr : fds.get stderrFileno = some (.childEnd i)
  ends : ∀ fd, fd ≠ stderrFileno →
    fds.get fd ≠ some (.childEnd i) ∧ fds.get fd ≠ some (.parentEnd i)
  listener : ∀ fd, fds.get fd ≠ some .listening

/-- The table that worker `i` is forked with. -/
structure Forked (i : Fin n) (a b sock : Nat) (fds : Descriptors (File n)) : Prop where
  parentEnd : ∀ fd, fds.get fd = some (.parentEnd i) ↔ fd = a
  childEnd : ∀ fd, fds.get fd = some (.childEnd i) ↔ fd = b
  listening : ∀ fd, fds.get fd = some .listening ↔ fd = sock

section Prologue

variable {φ : Type} {fds : Descriptors φ} {a b sock fd : Nat}

/-- What the prologue closes is closed afterwards. -/
theorem get_prologue_closed (h : fd = a ∨ fd = b ∨ fd = sock) :
    (prologue a b sock fds).get fd = none := by
  unfold prologue
  by_cases hs : fd = sock
  · subst hs; exact Descriptors.get_close_self _ _
  · rw [Descriptors.get_close_ne _ hs]
    by_cases hb : fd = b
    · subst hb; exact Descriptors.get_close_self _ _
    · rw [Descriptors.get_close_ne _ hb]
      rcases h with rfl | rfl | rfl
      · exact Descriptors.get_close_self _ _
      · exact absurd rfl hb
      · exact absurd rfl hs

/-- What is open afterwards is none of the three numbers it closes. -/
theorem ne_of_get_prologue {f : φ} (h : (prologue a b sock fds).get fd = some f) :
    fd ≠ a ∧ fd ≠ b ∧ fd ≠ sock := by
  have hopen : ¬ (fd = a ∨ fd = b ∨ fd = sock) := by
    intro hclosed
    rw [get_prologue_closed hclosed] at h
    cases h
  rw [not_or, not_or] at hopen
  exact hopen

/-- What it does not close comes from the `dup2`. -/
theorem get_prologue_open (ha : fd ≠ a) (hb : fd ≠ b) (hs : fd ≠ sock) :
    (prologue a b sock fds).get fd = (fds.dup2 b stderrFileno).get fd := by
  unfold prologue
  rw [Descriptors.get_close_ne _ hs, Descriptors.get_close_ne _ hb, Descriptors.get_close_ne _ ha]

/-- It leaves the rest of the table alone. -/
theorem get_prologue_ne (ha : fd ≠ a) (hb : fd ≠ b) (hs : fd ≠ sock) (h2 : fd ≠ stderrFileno) :
    (prologue a b sock fds).get fd = fds.get fd := by
  rw [get_prologue_open ha hb hs]
  exact Descriptors.get_dup2_ne fds b h2

end Prologue

/-- **The channel is lost exactly if one of the three numbers that are closed is 2.** -/
theorem plumbed_prologue_iff {i : Fin n} {a b sock : Nat} {fds : Descriptors (File n)}
    (h : Forked i a b sock fds) :
    Plumbed i (prologue a b sock fds) ↔
      stderrFileno ≠ a ∧ stderrFileno ≠ b ∧ stderrFileno ≠ sock := by
  constructor
  · intro hp
    exact ne_of_get_prologue hp.stderr
  · intro hne
    obtain ⟨ha, hb, hs⟩ := hne
    have hb' := (h.childEnd b).mpr rfl
    have hstderr : (prologue a b sock fds).get stderrFileno = some (.childEnd i) := by
      rw [get_prologue_open ha hb hs]
      exact Descriptors.get_dup2_self hb' stderrFileno
    -- a number that is neither 2 nor closed refers to what it referred to before
    have hrest : ∀ fd f, fd ≠ stderrFileno → (prologue a b sock fds).get fd = some f →
        fd ≠ a ∧ fd ≠ b ∧ fd ≠ sock ∧ fds.get fd = some f := by
      intro fd f hne hfd
      obtain ⟨h1, h2, h3⟩ := ne_of_get_prologue hfd
      rw [get_prologue_ne h1 h2 h3 hne] at hfd
      exact ⟨h1, h2, h3, hfd⟩
    refine ⟨hstderr, ?_, ?_⟩
    · intro fd hne
      refine ⟨?_, ?_⟩
      · intro hfd
        obtain ⟨_, hfb, _, hget⟩ := hrest fd _ hne hfd
        exact hfb ((h.childEnd fd).mp hget)
      · intro hfd
        obtain ⟨hfa, _, _, hget⟩ := hrest fd _ hne hfd
        exact hfa ((h.parentEnd fd).mp hget)
    · intro fd hfd
      by_cases hne : fd = stderrFileno
      · subst hne
        rw [hstderr] at hfd
        cases hfd
      · obtain ⟨_, _, hfs, hget⟩ := hrest fd _ hne hfd
        exact hfs ((h.listening fd).mp hget)

/-! ## Numbers handed out lowest first -/

/-- `socketpair` takes the two lowest free numbers, and neither call fails. -/
def LowestFirst (p : Dispatching n) : DispatchCall → Prop
  | .socketpair (some (a, b)) =>
      a = p.fds.lowestFree ∧ b = p.fds.lowestFreeFrom (p.fds.lowestFree + 1)
  | .socketpair none => False
  | .fork pid => 0 ≤ pid
  | .signal => True

instance (p : Dispatching n) : (c : DispatchCall) → Decidable (LowestFirst p c)
  | .socketpair (some (_, _)) => inferInstanceAs (Decidable (_ ∧ _))
  | .socketpair none => isFalse id
  | .fork pid => inferInstanceAs (Decidable (0 ≤ pid))
  | .signal => isTrue trivial

/-- How many of descriptors 0 and 1 are open. -/
def lowOpen {φ : Type} (fds : Descriptors φ) : Nat :=
  (if fds.get 0 = none then 0 else 1) + (if fds.get 1 = none then 0 else 1)

/-- With 2 closed to begin with, `k` numbers have been taken from 0 on: some of 0 and 1, or all
three. -/
def Taken {φ : Type} (k : Nat) (fds : Descriptors φ) : Prop :=
  (fds.get 2 = none ∧ lowOpen fds = k) ∨ (fds.get 2 ≠ none ∧ 3 ≤ k)

/-- The two numbers are 0 and 1, or one of them is 2, or 2 was taken before. -/
theorem pair_avoids_iff {φ : Type} {fds : Descriptors φ} {k : Nat} (h : Taken k fds) :
    (2 ≠ fds.lowestFree ∧ 2 ≠ fds.lowestFreeFrom (fds.lowestFree + 1)) ↔ k = 0 ∨ 3 ≤ k := by
  have ha : fds.get fds.lowestFree = none := Descriptors.get_lowestFreeFrom fds 0
  have hb := Descriptors.get_lowestFreeFrom fds (fds.lowestFree + 1)
  have hab := Descriptors.le_lowestFreeFrom fds (fds.lowestFree + 1)
  have hleast : ∀ fd, fds.get fd = none → fds.lowestFree ≤ fd :=
    fun fd hfd => Descriptors.lowestFreeFrom_le (Nat.zero_le _) hfd
  have hnext : ∀ fd, fds.lowestFree + 1 ≤ fd → fds.get fd = none →
      fds.lowestFreeFrom (fds.lowestFree + 1) ≤ fd :=
    fun fd hle hfd => Descriptors.lowestFreeFrom_le hle hfd
  generalize fds.lowestFree = a at *
  generalize fds.lowestFreeFrom (a + 1) = b at *
  rcases h with ⟨h2, hlow⟩ | ⟨h2, hk⟩
  · have hle := hleast 2 h2
    unfold lowOpen at hlow
    by_cases h0 : fds.get 0 = none
    · have hle0 := hleast 0 h0
      obtain rfl : a = 0 := by omega
      have hle2 := hnext 2 (by omega) h2
      by_cases h1 : fds.get 1 = none
      · have hle1 := hnext 1 (by omega) h1
        rw [if_pos h0, if_pos h1] at hlow
        omega
      · have hb1 : b ≠ 1 := Descriptors.ne_of_free hb h1
        rw [if_pos h0, if_neg h1] at hlow
        omega
    · have ha0 : a ≠ 0 := Descriptors.ne_of_free ha h0
      by_cases h1 : fds.get 1 = none
      · have hle1 := hleast 1 h1
        have hle2 := hnext 2 (by omega) h2
        rw [if_neg h0, if_pos h1] at hlow
        omega
      · have ha1 : a ≠ 1 := Descriptors.ne_of_free ha h1
        rw [if_neg h0, if_neg h1] at hlow
        omega
  · have ha2 : a ≠ 2 := Descriptors.ne_of_free ha h2
    have hb2 : b ≠ 2 := Descriptors.ne_of_free hb h2
    omega

/-- Each worker takes the lowest number for good. -/
theorem taken_next {φ : Type} {fds fds' : Descriptors φ} {k : Nat} (h : Taken k fds)
    (hget : ∀ fd, fds'.get fd = none ↔ fd ≠ fds.lowestFree ∧ fds.get fd = none) :
    Taken (k + 1) fds' := by
  have ha : fds.get fds.lowestFree = none := Descriptors.get_lowestFreeFrom fds 0
  have hleast : ∀ fd, fds.get fd = none → fds.lowestFree ≤ fd :=
    fun fd hfd => Descriptors.lowestFreeFrom_le (Nat.zero_le _) hfd
  generalize fds.lowestFree = a at *
  unfold Taken at h ⊢
  unfold lowOpen at h ⊢
  simp only [ne_eq, hget]
  rcases h with ⟨h2, hlow⟩ | ⟨h2, hk⟩
  · have hle2 := hleast 2 h2
    by_cases h0 : fds.get 0 = none
    · have hle0 := hleast 0 h0
      obtain rfl : a = 0 := by omega
      refine .inl ⟨⟨by decide, h2⟩, ?_⟩
      rw [if_neg (by simp), ← hlow, if_pos h0]
      simp [Nat.add_comm]
    · have ha0 : a ≠ 0 := Descriptors.ne_of_free ha h0
      rw [if_neg h0] at hlow
      by_cases h1 : fds.get 1 = none
      · have hle1 := hleast 1 h1
        obtain rfl : a = 1 := by omega
        rw [if_pos h1] at hlow
        refine .inl ⟨⟨by decide, h2⟩, ?_⟩
        simp [h0, ← hlow]
      · have ha1 : a ≠ 1 := Descriptors.ne_of_free ha h1
        obtain rfl : a = 2 := by omega
        rw [if_neg h1] at hlow
        exact .inr ⟨by simp, by omega⟩
  · exact .inr ⟨fun h => h2 h.2, by omega⟩

/-- How many of the numbers up to 2 are spoken for when dispatching begins. -/
def usedLow {φ : Type} (fds : Descriptors φ) : Nat :=
  if fds.get 2 = none then lowOpen fds else 3

theorem taken_usedLow {φ : Type} (fds : Descriptors φ) : Taken (usedLow fds) fds := by
  unfold Taken usedLow
  by_cases h2 : fds.get 2 = none
  · rw [if_pos h2]; exact .inl ⟨h2, rfl⟩
  · rw [if_neg h2]; exact .inr ⟨h2, Nat.le_refl _⟩

/-- The listening socket gets number 2 exactly if that is the lowest one free. -/
theorem lowestFree_eq_two_iff {φ : Type} (fds : Descriptors φ) :
    2 ≠ fds.lowestFree ↔ fds.get 0 = none ∨ fds.get 1 = none ∨ fds.get 2 ≠ none := by
  have hfree : fds.get fds.lowestFree = none := Descriptors.get_lowestFreeFrom fds 0
  have hleast : ∀ fd, fds.get fd = none → fds.lowestFree ≤ fd :=
    fun fd hfd => Descriptors.lowestFreeFrom_le (Nat.zero_le _) hfd
  constructor
  · intro hne
    by_contra hall
    simp only [not_or, not_not] at hall
    obtain ⟨h0, h1, h2⟩ := hall
    have hle := hleast 2 h2
    have hne0 : fds.lowestFree ≠ 0 := by intro heq; rw [heq] at hfree; exact h0 hfree
    have hne1 : fds.lowestFree ≠ 1 := by intro heq; rw [heq] at hfree; exact h1 hfree
    omega
  · intro hor heq
    rcases hor with h0 | h1 | h2
    · have hle := hleast 0 h0
      omega
    · have hle := hleast 1 h1
      omega
    · rw [← heq] at hfree
      exact h2 hfree

/-! ## The parent's table when it forks -/

/-- What the application leaves to `tcp_server_dispatch`: its own files, and the listening socket
under the number `tcp_server_init` was given. -/
structure AtDispatch (sock : Nat) (fds : Descriptors (File n)) : Prop where
  listening : fds.get sock = some .listening
  app : ∀ fd f, fd ≠ sock → fds.get fd = some f → ∃ k, f = .app k

/-- The table when `m` workers have been dispatched. -/
structure Before (fds₁ : Descriptors (File n)) (sock m : Nat) (fds : Descriptors (File n)) :
    Prop where
  listening : ∀ fd, fds.get fd = some .listening ↔ fd = sock
  noChild : ∀ fd j, fds.get fd ≠ some (.childEnd j)
  parents : ∀ fd (j : Fin n), fds.get fd = some (.parentEnd j) → j.val < m
  taken : Taken (usedLow fds₁ + m) fds

theorem AtDispatch.before {sock : Nat} {fds : Descriptors (File n)} (h : AtDispatch sock fds) :
    Before fds sock 0 fds where
  listening := by
    intro fd
    constructor
    · intro hfd
      by_contra hne
      obtain ⟨k, hk⟩ := h.app fd _ hne hfd
      cases hk
    · rintro rfl
      exact h.listening
  noChild := by
    intro fd j hfd
    by_cases hs : fd = sock
    · subst hs; rw [h.listening] at hfd; cases hfd
    · obtain ⟨k, hk⟩ := h.app fd _ hs hfd
      cases hk
  parents := by
    intro fd j hfd
    exfalso
    by_cases hs : fd = sock
    · subst hs; rw [h.listening] at hfd; cases hfd
    · obtain ⟨k, hk⟩ := h.app fd _ hs hfd
      cases hk
  taken := taken_usedLow fds

/-- The table with the pair that `socketpair` makes for worker `i`. -/
def withPair (fds : Descriptors (File n)) (i : Fin n) : Descriptors (File n) :=
  (fds.install fds.lowestFree (.parentEnd i)).install
    (fds.lowestFreeFrom (fds.lowestFree + 1)) (.childEnd i)

section Pair

variable {fds₁ fds : Descriptors (File n)} {sock : Nat} {i : Fin n}

theorem get_withPair (fds : Descriptors (File n)) (i : Fin n) (fd : Nat) :
    (withPair fds i).get fd
      = if fd = fds.lowestFreeFrom (fds.lowestFree + 1) then some (.childEnd i)
        else if fd = fds.lowestFree then some (.parentEnd i) else fds.get fd := by
  unfold withPair
  split
  · rename_i hb; rw [hb]; exact Descriptors.get_install_self _ _ _
  · rename_i hb
    rw [Descriptors.get_install_ne _ _ hb]
    split
    · rename_i ha; rw [ha]; exact Descriptors.get_install_self _ _ _
    · rename_i ha; exact Descriptors.get_install_ne _ _ ha

theorem Before.forked (h : Before fds₁ sock i fds) :
    Forked i fds.lowestFree (fds.lowestFreeFrom (fds.lowestFree + 1)) sock (withPair fds i) := by
  have hfree := Descriptors.get_lowestFreeFrom fds 0
  have hfree' := Descriptors.get_lowestFreeFrom fds (fds.lowestFree + 1)
  have hlt := Descriptors.le_lowestFreeFrom fds (fds.lowestFree + 1)
  have hsock := (h.listening sock).mpr rfl
  refine ⟨?_, ?_, ?_⟩
  · intro fd
    rw [get_withPair]
    split
    · rename_i hb
      exact ⟨fun heq => (by cases heq), fun ha => by omega⟩
    · split
      · rename_i ha; exact ⟨fun _ => ha, fun _ => rfl⟩
      · rename_i ha
        refine ⟨fun hfd => ?_, fun hfd => absurd hfd ha⟩
        exact absurd (h.parents fd i hfd) (Nat.lt_irrefl _)
  · intro fd
    rw [get_withPair]
    split
    · rename_i hb; exact ⟨fun _ => hb, fun _ => rfl⟩
    · rename_i hb
      refine ⟨fun hfd => ?_, fun hfd => absurd hfd hb⟩
      split at hfd
      · cases hfd
      · exact absurd hfd (h.noChild fd i)
  · intro fd
    rw [get_withPair]
    split
    · rename_i hb
      refine ⟨fun heq => (by cases heq), ?_⟩
      rintro rfl
      rw [← hb, hsock] at hfree'
      cases hfree'
    · split
      · rename_i ha
        refine ⟨fun heq => (by cases heq), ?_⟩
        rintro rfl
        have hfree : fds.get fds.lowestFree = none := hfree
        rw [← ha, hsock] at hfree
        cases hfree
      · exact h.listening fd

/-- The parent keeps its end, and one more number is taken for good. -/
theorem Before.next (h : Before fds₁ sock i fds) :
    Before fds₁ sock (i + 1)
      ((withPair fds i).close (fds.lowestFreeFrom (fds.lowestFree + 1))) := by
  have hf := h.forked
  have hget : ∀ fd, fd ≠ fds.lowestFreeFrom (fds.lowestFree + 1) →
      ((withPair fds i).close (fds.lowestFreeFrom (fds.lowestFree + 1))).get fd
        = if fd = fds.lowestFree then some (.parentEnd i) else fds.get fd := by
    intro fd hfd
    rw [Descriptors.get_close_ne _ hfd, get_withPair, if_neg hfd]
  refine ⟨?_, ?_, ?_, ?_⟩
  · intro fd
    rw [← hf.listening fd]
    constructor
    · intro hfd
      exact (Descriptors.get_of_get_close hfd).2
    · intro hfd
      rw [Descriptors.get_close_ne]
      · exact hfd
      · intro hb
        rw [hb, (hf.childEnd _).mpr rfl] at hfd
        cases hfd
  · intro fd j hfd
    obtain ⟨hb, _⟩ := Descriptors.get_of_get_close hfd
    rw [hget fd hb] at hfd
    split at hfd
    · cases hfd
    · exact h.noChild fd j hfd
  · intro fd j hfd
    obtain ⟨hb, _⟩ := Descriptors.get_of_get_close hfd
    rw [hget fd hb] at hfd
    split at hfd
    · cases hfd; exact Nat.lt_succ_self _
    · exact Nat.lt_succ_of_lt (h.parents fd j hfd)
  · refine taken_next h.taken ?_
    intro fd
    by_cases hb : fd = fds.lowestFreeFrom (fds.lowestFree + 1)
    · have hlt := Descriptors.le_lowestFreeFrom fds (fds.lowestFree + 1)
      have hfree := Descriptors.get_lowestFreeFrom fds (fds.lowestFree + 1)
      rw [← hb] at hlt hfree
      rw [← hb, Descriptors.get_close_self]
      exact ⟨fun _ => ⟨by omega, hfree⟩, fun _ => rfl⟩
    · rw [hget fd hb]
      split <;> simp_all

end Pair

/-! ## The child's table -/

/-- The dispatching process, up to the fork that a run follows the child of. -/
def Preparing (fds₁ : Descriptors (File n)) (sock : Nat) (p : Dispatching n) : Prop :=
  p.self.sockFd = sock ∧
    match p.pc with
    | .looping is => ∃ m, is = (List.finRange n).drop m ∧ Before fds₁ sock m p.fds
    | .forking i is a b => is = (List.finRange n).drop (i + 1) ∧
        ∃ fds, Before fds₁ sock i fds ∧ a = fds.lowestFree ∧
          b = fds.lowestFreeFrom (fds.lowestFree + 1) ∧ p.fds = withPair fds i
    | .routine i => ∃ fds, Before fds₁ sock i fds ∧
        p.fds = prologue fds.lowestFree (fds.lowestFreeFrom (fds.lowestFree + 1)) sock
          (withPair fds i)
    | .returned _ => True

/-- The workers are dispatched in the order of their indices. -/
theorem drop_finRange_cons {m : Nat} {i : Fin n} {is : List (Fin n)}
    (h : i :: is = (List.finRange n).drop m) : m = i ∧ is = (List.finRange n).drop (i + 1) := by
  have hm : m < n := by
    by_contra hle
    rw [List.drop_eq_nil_of_le (by simpa using Nat.le_of_not_lt hle)] at h
    cases h
  rw [List.drop_eq_getElem_cons (by simpa using hm)] at h
  simp only [List.getElem_finRange, Fin.cast_mk, List.cons.injEq] at h
  obtain ⟨rfl, rfl⟩ := h
  exact ⟨rfl, rfl⟩

theorem preparing_step {fds₁ : Descriptors (File n)} {sock : Nat} {p q : Dispatching n}
    {c : DispatchCall} (h : Preparing fds₁ sock p) (hok : LowestFirst p c)
    (hs : Dispatching.Step p c q) : Preparing fds₁ sock q := by
  obtain ⟨hsock, h⟩ := h
  cases hs with
  | @paired i is a b hpc hab ha hb =>
      rw [hpc] at h
      obtain ⟨m, his, hbefore⟩ := h
      obtain ⟨rfl, hrest⟩ := drop_finRange_cons his
      obtain ⟨rfl, rfl⟩ := hok
      exact ⟨hsock, hrest, p.fds, hbefore, rfl, rfl, rfl⟩
  | unpaired hpc => exact absurd hok id
  | @parent i is a b pid hpc hpid =>
      rw [hpc] at h
      obtain ⟨his, fds, hbefore, rfl, rfl, hfds⟩ := h
      refine ⟨hsock, i + 1, his, ?_⟩
      rw [hfds]
      exact hbefore.next
  | @routine i is a b pid hpc hpid =>
      rw [hpc] at h
      obtain ⟨_, fds, hbefore, rfl, rfl, hfds⟩ := h
      refine ⟨hsock, fds, hbefore, ?_⟩
      rw [hfds, hsock]
  | signal hpc => exact ⟨hsock, trivial⟩

theorem preparing_run {sock : Nat} {fds₁ : Descriptors (File n)} {p : Dispatching n}
    {ls : List DispatchCall} (h₁ : AtDispatch sock fds₁)
    (h : (Dispatching.lts (Listener.listen sock) fds₁).Run LowestFirst
      (Dispatching.start (Listener.listen sock) fds₁) ls p) : Preparing fds₁ sock p := by
  refine h.invariant ?_ ?_
  · intro p c q hp hok hs
    exact preparing_step hp hok (Dispatching.step_cases hs)
  · exact ⟨rfl, 0, rfl, h₁.before⟩

/-- **A worker has no copy of the parent's end of its own channel or of a later one.** -/
theorem parentEnd_of_routine {sock : Nat} {fds₁ : Descriptors (File n)} {p : Dispatching n}
    {i : Fin n} (h : Preparing fds₁ sock p) (hpc : p.pc = .routine i) {fd : Nat} {j : Fin n}
    (hfd : p.fds.get fd = some (.parentEnd j)) : j < i := by
  obtain ⟨_, h⟩ := h
  rw [hpc] at h
  obtain ⟨fds, hbefore, hfds⟩ := h
  have hf := hbefore.forked
  rw [hfds] at hfd
  obtain ⟨ha, hb, hs⟩ := ne_of_get_prologue hfd
  by_cases h2 : fd = stderrFileno
  · rw [get_prologue_open ha hb hs, h2,
      Descriptors.get_dup2_self ((hf.childEnd _).mpr rfl) stderrFileno] at hfd
    cases hfd
  · rw [get_prologue_ne ha hb hs h2, get_withPair, if_neg hb, if_neg ha] at hfd
    exact hbefore.parents fd j hfd

/-- What must have been open for the plumbing of worker `i` to come out right: something that keeps
the listening socket from number 2, when it was made from `fds₀`; and descriptor 2, or else
neither 0 nor 1 for the first worker, or 0 and 1 and 2 itself taken by earlier ones. -/
def Usable {φ : Type} (fds₀ : Descriptors φ) (fds₁ : Descriptors (File n)) (i : Nat) : Prop :=
  (fds₀.get 0 = none ∨ fds₀.get 1 = none ∨ fds₀.get 2 ≠ none) ∧
    (fds₁.get 2 ≠ none ∨ lowOpen fds₁ + i = 0 ∨ 3 ≤ lowOpen fds₁ + i)

/--
**Which workers get their channel, for every descriptor table.**

`fds₀` is the table when `tcp_server_init` makes the listening socket, `fds₁`
the table when `tcp_server_dispatch` is called; `p` is worker `i` at the top of
its loop.
-/
theorem plumbed_iff {φ : Type} {fds₀ : Descriptors φ} {fds₁ : Descriptors (File n)}
    {p : Dispatching n} {ls : List DispatchCall} {i : Fin n}
    (h₁ : AtDispatch fds₀.lowestFree fds₁)
    (h : (Dispatching.lts (Listener.listen fds₀.lowestFree) fds₁).Run LowestFirst
      (Dispatching.start (Listener.listen fds₀.lowestFree) fds₁) ls p)
    (hpc : p.pc = .routine i) : Plumbed i p.fds ↔ Usable fds₀ fds₁ i := by
  obtain ⟨_, hp⟩ := preparing_run h₁ h
  rw [hpc] at hp
  obtain ⟨fds, hbefore, hfds⟩ := hp
  have hpair := pair_avoids_iff hbefore.taken
  have hused : usedLow fds₁ + i = 0 ∨ 3 ≤ usedLow fds₁ + i
      ↔ fds₁.get 2 ≠ none ∨ lowOpen fds₁ + i = 0 ∨ 3 ≤ lowOpen fds₁ + i := by
    unfold usedLow
    by_cases h2 : fds₁.get 2 = none
    · simp [h2]
    · simp [h2]
  rw [hfds, plumbed_prologue_iff hbefore.forked, ← and_assoc, Usable, ← hused, ← hpair,
    ← lowestFree_eq_two_iff]
  exact and_comm

/-- The application's table before `tcp_server_init`, with its standard streams open. -/
def standardStreams (n : Nat) : Descriptors (File n) :=
  ((Descriptors.empty.install 0 (.app 0)).install 1 (.app 1)).install 2 (.app 2)

/-- The same with standard error closed. -/
def noStderr (n : Nat) : Descriptors (File n) :=
  (Descriptors.empty.install 0 (.app 0)).install 1 (.app 1)

/-- The same with standard input and standard error closed. -/
def onlyStdout (n : Nat) : Descriptors (File n) := Descriptors.empty.install 1 (.app 1)

/-- Nothing is opened or closed between `tcp_server_init` and `tcp_server_dispatch`. -/
theorem atDispatch_install {fds : Descriptors (File n)}
    (h : ∀ fd f, fds.get fd = some f → ∃ k, f = .app k) :
    AtDispatch fds.lowestFree (fds.install fds.lowestFree .listening) where
  listening := Descriptors.get_install_self _ _ _
  app := by
    intro fd f hne hfd
    rw [Descriptors.get_install_ne _ _ hne] at hfd
    exact h fd f hfd

theorem app_of_install {fds : Descriptors (File n)}
    (h : ∀ fd f, fds.get fd = some f → ∃ k, f = .app k) (fd k : Nat) :
    ∀ fd' f, (fds.install fd (.app k)).get fd' = some f → ∃ k, f = .app k := by
  intro fd' f hfd
  by_cases heq : fd' = fd
  · subst heq
    rw [Descriptors.get_install_self] at hfd
    cases hfd
    exact ⟨k, rfl⟩
  · rw [Descriptors.get_install_ne _ _ heq] at hfd
    exact h fd' f hfd

theorem app_noStderr (n : Nat) : ∀ fd f, (noStderr n).get fd = some f → ∃ k, f = .app k :=
  app_of_install (app_of_install (fun _ _ h => by cases h) 0 0) 1 1

theorem app_onlyStdout (n : Nat) : ∀ fd f, (onlyStdout n).get fd = some f → ∃ k, f = .app k :=
  app_of_install (fun _ _ h => by cases h) 1 1

/-- The listening socket becomes descriptor 0. The first worker closes its channel as the parent's
end; that end takes number 2 for good, so the second has a channel. -/
theorem plumbed_iff_onlyStdout :
    ∃ p q : Dispatching 2, (p.pc = .routine firstWorker ∧ ¬ Plumbed firstWorker p.fds) ∧
      q.pc = .routine secondWorker ∧ Plumbed secondWorker q.fds := by
  have happ := atDispatch_install (app_onlyStdout 2)
  obtain ⟨p, hp, hpc⟩ : ∃ p : Dispatching 2,
      (Dispatching.lts (Listener.listen (onlyStdout 2).lowestFree)
        ((onlyStdout 2).install (onlyStdout 2).lowestFree .listening)).Run LowestFirst
        (Dispatching.start (Listener.listen (onlyStdout 2).lowestFree)
          ((onlyStdout 2).install (onlyStdout 2).lowestFree .listening))
        [.socketpair (some (2, 3)), .fork 0] p ∧ p.pc = .routine firstWorker :=
    Lts.exists_run_of_exec (by decide +kernel)
  obtain ⟨q, hq, hqc⟩ : ∃ q : Dispatching 2,
      (Dispatching.lts (Listener.listen (onlyStdout 2).lowestFree)
        ((onlyStdout 2).install (onlyStdout 2).lowestFree .listening)).Run LowestFirst
        (Dispatching.start (Listener.listen (onlyStdout 2).lowestFree)
          ((onlyStdout 2).install (onlyStdout 2).lowestFree .listening))
        [.socketpair (some (2, 3)), .fork 7, .socketpair (some (3, 4)), .fork 0] q ∧
        q.pc = .routine secondWorker :=
    Lts.exists_run_of_exec (by decide +kernel)
  refine ⟨p, q, ⟨hpc, ?_⟩, hqc, (plumbed_iff happ hq hqc).mpr ⟨by decide +kernel,
    by decide +kernel⟩⟩
  intro hplumbed
  exact absurd ((plumbed_iff happ hp hpc).mp hplumbed).2 (by decide +kernel)

/-- With standard error closed the listening socket becomes descriptor 2, and the worker closes its
channel as the listening socket. -/
theorem channel_closed_as_listener :
    ¬ ∀ (n : Nat) (fds₀ fds₁ : Descriptors (File n)) (p : Dispatching n) (ls : List DispatchCall)
      (i : Fin n), AtDispatch fds₀.lowestFree fds₁ →
      (Dispatching.lts (Listener.listen fds₀.lowestFree) fds₁).Run LowestFirst
        (Dispatching.start (Listener.listen fds₀.lowestFree) fds₁) ls p →
      p.pc = .routine i → Plumbed i p.fds := by
  intro hevery
  obtain ⟨p, hrun, hpc, hclosed⟩ : ∃ p : Dispatching 1,
      (Dispatching.lts (Listener.listen (noStderr 1).lowestFree)
        ((noStderr 1).install (noStderr 1).lowestFree .listening)).Run LowestFirst
        (Dispatching.start (Listener.listen (noStderr 1).lowestFree)
          ((noStderr 1).install (noStderr 1).lowestFree .listening))
        [.socketpair (some (3, 4)), .fork 0] p ∧ p.pc = .routine solo ∧
        p.fds.get stderrFileno = none :=
    Lts.exists_run_of_exec (by decide +kernel)
  have hstderr := (hevery 1 (noStderr 1) _ p _ solo (atDispatch_install (app_noStderr 1)) hrun
    hpc).stderr
  rw [hclosed] at hstderr
  cases hstderr

end TcpServer.Proof
