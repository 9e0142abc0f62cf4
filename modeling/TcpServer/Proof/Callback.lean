import TcpServer.Model.Echo
import TcpServer.Proof.Hexdump

/-!
# One run of the callback

The callback makes three calls in one order, whatever they return: it reads, it
prints, it writes. `Stage` says what it knows of its connection at each of its
places, and `stage_step` that each call leads from one to the next.

What it hands to `hexdump` and to `write` is `rx_bytes`, which a failed `read` has
set to `-1`. Then `hexdump` prints its headline and nothing else, because the
padding wraps round to no rows at all, and `write` refuses a size of `2^64 - 1`. So
nothing of the uninitialised `rx_buffer` gets out either way.
-/

namespace TcpServer.Proof

open TcpServer

/-- Both programs answer in the same way. -/
theorem myConnectionCallback_eq : myConnectionCallback = serverConnectionCb := rfl

/-! ## What it knows -/

/-- The callback has made none of its calls. -/
structure Untouched (s : Stream) : Prop where
  reads : s.reads = []
  writes : s.writes = []
  echoed : s.echoed = []

/-- `rx_buffer` and `rx_bytes` are as a `read` left them that returned `ret`. -/
structure Loaded (f : Callback) (ret : Option (List UInt8)) : Prop where
  fits : (ret.getD []).length ≤ rxSize
  rxBytes : f.rxBytes = (ret.map fun bs => BitVec.ofNat 32 bs.length).getD (-1)
  rxBuffer : ∀ i < (ret.getD []).length, some (f.rxBuffer i) = (ret.getD [])[i]?

/-- One `read` and no `write` has been made on the connection. -/
structure HasRead (f : Callback) (s : Stream) (ret : Option (List UInt8)) : Prop where
  reads : s.reads = [ret]
  writes : s.writes = []
  echoed : s.echoed = []
  loaded : Loaded f ret
  eof : ret = some [] → s.eof = true

/-- One `read` has been made, which returned `ret`, and then one `write`, which returned `m`. -/
structure Exchange (s : Stream) (ret : Option (List UInt8)) (m : Option Nat) : Prop where
  reads : s.reads = [ret]
  writes : s.writes = [m]
  fits : (ret.getD []).length ≤ rxSize
  /-- What has come back is as much of what was read as was written. -/
  echoed : s.echoed = (ret.getD []).take (m.getD 0)
  short : m.getD 0 ≤ (ret.getD []).length
  /-- Nothing is read only at the end of what the client sends. -/
  eof : ret = some [] → s.eof = true
  /-- After a `read` that failed the `write` fails. -/
  failed : ret = none → m = none

/-- The callback has been through with the connection. -/
def Answered (s : Stream) : Prop := ∃ ret m, Exchange s ret m

/-- What the callback has done to its connection, by the place it has reached. -/
def Stage (f : Callback) (s : Stream) : Prop :=
  match f.pc with
  | .reading => Untouched s
  | .dumping => ∃ ret, HasRead f s ret
  | .writing => ∃ ret, HasRead f s ret
  | .done => Answered s

/-! ## The buffer -/

theorem loaded_stored {f : Callback} {bs : List UInt8} (h : bs.length ≤ rxSize) :
    Loaded { f with
      pc := .dumping
      rxBytes := BitVec.ofNat 32 bs.length
      rxBuffer := Callback.stored f.rxBuffer bs } (some bs) where
  fits := h
  rxBytes := rfl
  rxBuffer := by
    intro i hi
    have hi : i < bs.length := hi
    show some (Callback.stored f.rxBuffer bs i) = bs[i]?
    rw [Callback.stored, Bytes.overwrite, if_pos hi, List.getD_eq_getElem?_getD,
      List.getElem?_eq_getElem hi, Option.getD_some]

theorem loaded_failed (f : Callback) : Loaded { f with pc := .dumping, rxBytes := -1 } none where
  fits := by simp
  rxBytes := rfl
  rxBuffer := by
    intro i hi
    cases hi

section Loaded

variable {f : Callback} {bs : List UInt8}

theorem Loaded.toNat_rxBytes (h : Loaded f (some bs)) : f.rxBytes.toNat = bs.length := by
  have hfits : bs.length ≤ 1500 := h.fits
  rw [h.rxBytes, Option.map_some, Option.getD_some]
  exact toNat_ofNat_of_lt (by omega)

/-- What was read is what the buffer holds. -/
theorem Loaded.holds (h : Loaded f (some bs)) : Holds f.rxBuffer f.rxBytes bs := by
  intro i
  rw [h.toNat_rxBytes]
  split
  · rename_i hi
    exact (h.rxBuffer i hi).symm
  · rename_i hi
    exact List.getElem?_eq_none (Nat.le_of_not_lt hi)

theorem Loaded.size_some (h : Loaded f (some bs)) : f.size = bs.length := by
  have hfits : bs.length ≤ 1500 := h.fits
  have hnat := h.toNat_rxBytes
  have hmsb : f.rxBytes.msb = false := by
    rw [BitVec.msb_eq_false_iff_two_mul_lt, hnat]
    omega
  rw [Callback.size, BitVec.signExtend_eq_setWidth_of_msb_false hmsb, BitVec.toNat_setWidth, hnat]
  exact Nat.mod_eq_of_lt (by omega)

theorem Loaded.size_none (h : Loaded f none) : f.size = 2 ^ 64 - 1 := by
  rw [Callback.size, h.rxBytes]
  rfl

/-- `write` takes from the front of what was read. -/
theorem Loaded.map_rxBuffer (h : Loaded f (some bs)) {m : Nat} (hm : m ≤ bs.length) :
    (List.range m).map f.rxBuffer = bs.take m := by
  apply List.ext_getElem?
  intro i
  rw [List.getElem?_map, List.getElem?_take]
  split
  · rename_i hi
    rw [List.getElem?_range hi]
    exact h.rxBuffer i (Nat.lt_of_lt_of_le hi hm)
  · rename_i hi
    rw [List.getElem?_eq_none (by simpa using hi)]
    rfl

end Loaded

/-! ## One call -/

/-- **Each call leads from one stage to the next.** -/
theorem stage_step {f f' : Callback} {s s' : Stream} {call : CallbackCall} (h : Stage f s)
    (hs : Callback.Step f s call f' s') : Stage f' s' := by
  unfold Stage at h
  cases hs with
  | failed hpc =>
      rw [hpc] at h
      refine ⟨none, ?_, h.writes, h.echoed, loaded_failed f, by simp⟩
      simp [h.reads]
  | @read bs hpc hlen hpre heof =>
      rw [hpc] at h
      refine ⟨some bs, ?_, h.writes, h.echoed, loaded_stored hlen, ?_⟩
      · simp [h.reads]
      · intro hbs
        exact (heof (Option.some.inj hbs)).2
  | hexdump hpc hout =>
      rw [hpc] at h
      obtain ⟨ret, hret⟩ := h
      exact ⟨ret, hret.reads, hret.writes, hret.echoed,
        ⟨hret.loaded.fits, hret.loaded.rxBytes, hret.loaded.rxBuffer⟩, hret.eof⟩
  | refused hpc =>
      rw [hpc] at h
      obtain ⟨ret, hret⟩ := h
      refine ⟨ret, none, hret.reads, ?_, hret.loaded.fits, ?_, Nat.zero_le _, hret.eof,
        fun _ => rfl⟩
      · simp [hret.writes]
      · simp [hret.echoed]
  | @write m hpc hm hsize =>
      rw [hpc] at h
      obtain ⟨ret, hret⟩ := h
      cases ret with
      | none =>
          -- the size is one that `write` refuses
          rw [hret.loaded.size_none] at hsize
          omega
      | some bs =>
          rw [hret.loaded.size_some] at hm
          refine ⟨some bs, some m, hret.reads, ?_, hret.loaded.fits, ?_, hm, hret.eof, by simp⟩
          · simp [hret.writes]
          · simp [hret.echoed, hret.loaded.map_rxBuffer hm]

/-- What has been read and what has not, together, stay what they are. -/
theorem taken_pending_step {f f' : Callback} {s s' : Stream} {call : CallbackCall}
    (hs : Callback.Step f s call f' s') :
    s'.sent = s.sent ∧ s'.taken ++ s'.pending = s.taken ++ s.pending := by
  cases hs with
  | failed hpc => simp [Stream.taken]
  | read hpc hlen hpre heof =>
      obtain ⟨rest, hrest⟩ := hpre
      simp [Stream.taken, ← hrest]
  | hexdump hpc hout | refused hpc | write hpc hm hsize => exact ⟨rfl, rfl⟩

/-! ## What it prints -/

/-- What is printed about a connection from which `bs` was read. -/
def page (bs : List UInt8) : List Char := rxDesc ++ '\n' :: dump bs

/-- What a running callback has printed. -/
def shown (f : Callback) (s : Stream) : List Char :=
  match f.pc with
  | .reading => []
  | .dumping => []
  | .writing => page s.taken
  | .done => page s.taken

/-- More rounds change nothing about what `hexdump` does in the end. -/
theorem returns_of_hexdump {desc : Option (List Char)} {mem : Nat → UInt8} {len : BitVec 32}
    {fuel : Nat} {r : Nat × Hexdump} (h : hexdump fuel desc mem len = some r) :
    Returns desc mem len r := by
  refine ⟨fuel, fun fuel' hle => ?_⟩
  exact Loop.run_mono (Loop.run_body_mono (fun s t => round_mono hle s t) h) hle

/-- **It prints what was read**, its headline alone if nothing was. -/
theorem Loaded.dumped {f : Callback} {ret : Option (List UInt8)} (h : Loaded f ret) {fuel : Nat}
    {out : List Char} (hout : f.dumped rxDesc fuel = some out) : out = page (ret.getD []) := by
  obtain ⟨r, hr, rfl⟩ := Option.map_eq_some_iff.mp hout
  have hret := returns_of_hexdump hr
  cases ret with
  | none =>
      -- the bound is `0`
      have hlen : f.rxBytes = -1 := h.rxBytes
      have hstart :
          Returns (some rxDesc) f.rxBuffer f.rxBytes (0, Hexdump.start (some rxDesc)) := by
        refine ⟨1, fun fuel' hle => ?_⟩
        obtain ⟨m, rfl⟩ := Nat.exists_eq_add_of_le' hle
        rw [hlen]
        exact Loop.run_stop (by decide)
      rw [hret.unique hstart]
      show (Hexdump.start (some rxDesc)).stdout = page []
      simp [Hexdump.start, page, dump, rowCount]
  | some bs =>
      have hfits : bs.length ≤ 1500 := h.fits
      obtain ⟨r', hret', hstdout, _⟩ :=
        hexdump_prints h.holds (by unfold rowCount; omega) (some rxDesc)
      rw [hret.unique hret', hstdout]
      show (rxDesc ++ ['\n']) ++ dump bs = rxDesc ++ '\n' :: dump bs
      rw [List.append_assoc]
      rfl

theorem HasRead.taken_eq {f : Callback} {s : Stream} {ret : Option (List UInt8)}
    (h : HasRead f s ret) : s.taken = ret.getD [] := by
  simp [Stream.taken, h.reads]

theorem Exchange.taken_eq {s : Stream} {ret : Option (List UInt8)} {m : Option Nat}
    (h : Exchange s ret m) : s.taken = ret.getD [] := by
  simp [Stream.taken, h.reads]

/-- What a call adds to what the callback has printed is what it prints. -/
theorem shown_step {f f' : Callback} {s s' : Stream} {call : CallbackCall} (h : Stage f s)
    (hs : Callback.Step f s call f' s') : shown f' s' = shown f s ++ Echo.printed f call := by
  cases hs with
  | failed hpc | read hpc hlen hpre heof => simp [shown, hpc, Echo.printed]
  | refused hpc | write hpc hm hsize => simp [shown, hpc, Echo.printed, Stream.taken]
  | hexdump hpc hout =>
      rw [Stage, hpc] at h
      obtain ⟨ret, hret⟩ := h
      simp [shown, hpc, Echo.printed, hout, hret.loaded.dumped hout, hret.taken_eq]

/-! ## Reading it back -/

/-- The rows of a dump, without their newlines. -/
def rows (bs : List UInt8) : List (List Char) :=
  (List.range (rowCount bs.length)).map (rowBody bs)

/-- The blocks that a text of pages is about: each headline begins a new one. -/
def unpage (text : List Char) : List (List UInt8) :=
  ((text.splitOn '\n').splitOn rxDesc).tail.map (List.flatMap undumpLine)

theorem splitOn_rows (bs : List UInt8) (rs : List Nat) (rest : List Char) :
    (rs.flatMap (dumpRow bs) ++ rest).splitOn '\n' = rs.map (rowBody bs) ++ rest.splitOn '\n' := by
  induction rs with
  | nil => rfl
  | cons r rs ih =>
      rw [List.flatMap_cons, dumpRow, List.append_assoc, List.append_assoc, List.singleton_append,
        List.splitOn_append_cons_self_of_not_mem (newline_notMem_rowBody bs r), ih, List.map_cons,
        List.cons_append]

theorem splitOn_pages (bss : List (List UInt8)) :
    (bss.flatMap page).splitOn '\n' = (bss.flatMap fun bs => rxDesc :: rows bs) ++ [[]] := by
  have hdesc : '\n' ∉ rxDesc := by decide
  induction bss with
  | nil => rfl
  | cons bs bss ih =>
      rw [List.flatMap_cons, page, List.append_assoc, List.cons_append,
        List.splitOn_append_cons_self_of_not_mem hdesc, dump, splitOn_rows, ih, List.flatMap_cons,
        List.cons_append, List.cons_append, List.append_assoc]
      rfl

/-- A row is not mistaken for a headline. -/
theorem rxDesc_notMem_rows (bs : List UInt8) : rxDesc ∉ rows bs := by
  intro hmem
  obtain ⟨r, _, heq⟩ := List.mem_map.mp hmem
  have hhead := congrArg List.head? heq
  cases hhead

theorem flatMap_rows (bs : List UInt8) : (rows bs).flatMap undumpLine = bs := by
  have hdump := undump_dump bs
  have hlines : (dump bs).splitOn '\n' = rows bs ++ [[]] := by
    have hsplit := splitOn_rows bs (List.range (rowCount bs.length)) []
    rw [List.append_nil] at hsplit
    exact hsplit
  rw [undump, hlines, List.flatMap_append] at hdump
  simpa [undumpLine, cells] using hdump

/-- **A text of pages can be taken apart again.** -/
theorem unpage_pages (bss : List (List UInt8)) : unpage (bss.flatMap page) = bss := by
  -- with the lines that are left of the page before
  have hgroups : ∀ (bss : List (List UInt8)) (before : List (List Char)), rxDesc ∉ before →
      ((before ++ ((bss.flatMap fun bs => rxDesc :: rows bs) ++ [[]])).splitOn rxDesc).map
        (List.flatMap undumpLine) = before.flatMap undumpLine :: bss := by
    intro bss
    induction bss with
    | nil =>
        intro before hbefore
        have hnot : rxDesc ∉ before ++ [[]] := by
          rw [List.mem_append, not_or]
          exact ⟨hbefore, by decide⟩
        rw [List.flatMap_nil, List.nil_append, List.splitOn_eq_singleton hnot]
        simp [undumpLine, cells]
    | cons bs bss ih =>
        intro before hbefore
        rw [List.flatMap_cons, List.cons_append, List.cons_append,
          List.splitOn_append_cons_self_of_not_mem hbefore, List.append_assoc, List.map_cons,
          ih (rows bs) (rxDesc_notMem_rows bs), flatMap_rows]
  rw [unpage, splitOn_pages, List.map_tail]
  exact congrArg List.tail (hgroups bss [] List.not_mem_nil)

/-! ## What the client does meanwhile -/

/-- The client may have sent more, or shut down its side; the callback has done nothing. -/
structure Later (s s' : Stream) : Prop where
  reads : s'.reads = s.reads
  writes : s'.writes = s.writes
  echoed : s'.echoed = s.echoed
  eof : s.eof = true → s'.eof = true

section Later

variable {s s' : Stream}

theorem Later.refl (s : Stream) : Later s s := ⟨rfl, rfl, rfl, id⟩

theorem Later.taken_eq (h : Later s s') : s'.taken = s.taken := by
  rw [Stream.taken, h.reads, Stream.taken]

theorem Untouched.later (hs : Untouched s) (h : Later s s') : Untouched s' where
  reads := h.reads.trans hs.reads
  writes := h.writes.trans hs.writes
  echoed := h.echoed.trans hs.echoed

theorem Answered.later (hs : Answered s) (h : Later s s') : Answered s' := by
  obtain ⟨ret, m, hex⟩ := hs
  exact ⟨ret, m, h.reads.trans hex.reads, h.writes.trans hex.writes, hex.fits,
    h.echoed.trans hex.echoed, hex.short, fun hret => h.eof (hex.eof hret), hex.failed⟩

theorem Stage.later {f : Callback} (hs : Stage f s) (h : Later s s') : Stage f s' := by
  have htaken : ∀ {ret}, HasRead f s ret → HasRead f s' ret := fun hret =>
    ⟨h.reads.trans hret.reads, h.writes.trans hret.writes, h.echoed.trans hret.echoed,
      hret.loaded, fun heq => h.eof (hret.eof heq)⟩
  unfold Stage at hs ⊢
  cases hpc : f.pc with
  | reading => rw [hpc] at hs; exact hs.later h
  | dumping | writing =>
      rw [hpc] at hs
      obtain ⟨ret, hret⟩ := hs
      exact ⟨ret, htaken hret⟩
  | done => rw [hpc] at hs; exact hs.later h

theorem shown_later (f : Callback) (h : Later s s') : shown f s' = shown f s := by
  unfold shown
  rw [h.taken_eq]

end Later

end TcpServer.Proof
