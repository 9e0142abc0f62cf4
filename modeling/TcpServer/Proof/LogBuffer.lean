import TcpServer.Model.Log

/-!
# What fits into the log buffer

The first two calls of `log_msg` write a header that nothing bounds; only the
third is told how much room is left. A header below `LOG_BUFFER_SIZE` leaves room
for at least its NUL, and the call cuts the message to fit (`text_logMsg`). From
then on the header itself is stored past the end, and the room, a negative
difference, is next to unlimited: `logsWithin_iff`.
-/

namespace TcpServer.Proof

open TcpServer CString

/-- Both parts of the header. -/
def header (timestamp : Timestamp) (moduleName : Str) (line : BitVec 32) (level : LogLvl) :
    List Char :=
  headerTime timestamp level ++ headerPlace line moduleName

/-- What of a message fits behind a header, with a character left for the NUL. -/
def fitting (header message : List Char) : List Char :=
  message.take (logBufferSize - 1 - header.length)

section LogMsg

variable (stack : Nat → Char) (timestamp : Timestamp) (moduleName : Str) (line : BitVec 32)
  (level : LogLvl) (message : List Char)

/-- What `log_msg` should do with its buffer. -/
structure LogsWithin : Prop where
  stored : ∀ i ∈ (logMsg stack timestamp moduleName line level message).buffer.stored,
    i < logBufferSize
  room : 1 ≤ (logMsg stack timestamp moduleName line level message).room.toNat ∧
    (logMsg stack timestamp moduleName line level message).room.toNat ≤ logBufferSize
  /-- The line is the header and as much of the message as fits. -/
  stdout : (logMsg stack timestamp moduleName line level message).stdout
    = logColLine level
      ++ (header timestamp moduleName line level
        ++ fitting (header timestamp moduleName line level) message)
      ++ ['\n'] ++ logColLineReset level

/-- The time and the level are short. -/
theorem length_headerTime : (headerTime timestamp level).length < 120 := by
  have hfits := timestamp.fits
  have hlevel : (logLvlStr level).length ≤ 8 := by cases level <;> decide
  simp [headerTime]
  omega

theorem nul_notMem_header : nul ∉ header timestamp moduleName line level := by
  have hlevel : nul ∉ logLvlStr level := by cases level <;> decide
  have hline : nul ∉ Numerals.decimal line.toInt := Numerals.notMem_decimal (by decide) (by decide)
  have hstart : nul ∉ " [".toList ∧ nul ∉ "] ".toList := by decide
  have hend : nul ∉ ") ".toList ∧ nul ∉ ": ".toList := by decide
  have hblank : nul ≠ ' ' ∧ nul ≠ '(' := by decide
  simp only [header, headerTime, headerPlace, List.mem_append, List.mem_cons, List.mem_nil_iff,
    not_or]
  exact ⟨⟨⟨⟨⟨hstart.1, timestamp.nul_notMem⟩, hstart.2⟩, hlevel⟩, hblank.1, not_false⟩,
    ⟨⟨⟨⟨hblank.2, hline⟩, hend.1⟩, moduleName.nul_notMem⟩, hend.2⟩⟩

/-- The buffer after the first two calls. -/
def headerBuffer : CharArray :=
  (((CharArray.uninit stack).memset 0 nul logBufferSize).strcpy 0
    (headerTime timestamp level)).strcpy (headerTime timestamp level).length
    (headerPlace line moduleName)

/-- It holds the header, and a NUL behind it. -/
theorem length_header_mem_stored : (header timestamp moduleName line level).length
    ∈ (headerBuffer stack timestamp moduleName line level).stored := by
  rw [header, List.length_append]
  exact CharArray.mem_stored_strcpy.mpr (Or.inr ⟨Nat.le_add_right _ _, Nat.le_refl _⟩)

theorem stored_headerBuffer
    (h : (header timestamp moduleName line level).length < logBufferSize) {i : Nat}
    (hi : i ∈ (headerBuffer stack timestamp moduleName line level).stored) :
    i < logBufferSize := by
  rw [header, List.length_append] at h
  rcases CharArray.mem_stored_strcpy.mp hi with hi | hi
  · rcases CharArray.mem_stored_strcpy.mp hi with hi | hi
    · rcases CharArray.mem_stored_put.mp hi with hi | hi
      · cases hi
      · simpa using hi.2
    · omega
  · omega

/-- **What is put behind the header is read with it**, up to its first NUL. -/
theorem text_message (rest : List Char) :
    ((headerBuffer stack timestamp moduleName line level).strcpy
      (header timestamp moduleName line level).length rest).text 0
      = header timestamp moduleName line level ++ rest.takeWhile (· ≠ nul) := by
  have hmem : ((headerBuffer stack timestamp moduleName line level).strcpy
      (header timestamp moduleName line level).length rest).mem
      = (((CharArray.uninit stack).memset 0 nul logBufferSize).strcpy 0
        (header timestamp moduleName line level ++ rest)).mem := by
    have hpieces := CharArray.strcpy_strcpy ((CharArray.uninit stack).memset 0 nul logBufferSize) 0
      (headerTime timestamp level) (headerPlace line moduleName)
    rw [Nat.zero_add] at hpieces
    have hall := CharArray.strcpy_strcpy ((CharArray.uninit stack).memset 0 nul logBufferSize) 0
      (header timestamp moduleName line level) rest
    rw [Nat.zero_add] at hall
    rw [← hall]
    exact CharArray.strcpy_congr hpieces _ _
  have hstop := CharArray.add_length_lt_stop (headerBuffer stack timestamp moduleName line level)
    (header timestamp moduleName line level).length rest
  rw [CharArray.text, hmem, CharArray.strcpy, CharArray.strAt_put _ _ (by simpa using hstop),
    takeWhile_append_of_notMem (nul_notMem_header timestamp moduleName line level)]

/-- The second call begins where the first one ended, and the third one follows. -/
theorem logMsg_headerBuffer :
    logMsg stack timestamp moduleName line level message =
      let size := ((headerTime timestamp level).length : Int)
        + printfResult (headerPlace line moduleName)
      let room := BitVec.ofInt 64 (logBufferSize - size)
      logPrint level room
        ((headerBuffer stack timestamp moduleName line level).snprintf size.toNat room.toNat
          message) := by
  have htime : printfResult (headerTime timestamp level) = (headerTime timestamp level).length := by
    have := length_headerTime timestamp level
    exact printfResult_eq (by omega)
  simp only [logMsg, headerBuffer, htime, Int.toNat_natCast]

/-- What is stored for the header stays stored. -/
theorem stored_logMsg {i : Nat}
    (hi : i ∈ (headerBuffer stack timestamp moduleName line level).stored) :
    i ∈ (logMsg stack timestamp moduleName line level message).buffer.stored := by
  rw [logMsg_headerBuffer]
  dsimp only [logPrint]
  exact CharArray.stored_snprintf (CharArray.stored_snprintf hi _ _) _ _

theorem toNat_room {n : Nat} (h : n < logBufferSize) :
    (BitVec.ofInt 64 (logBufferSize - (n : Int))).toNat = logBufferSize - n := by
  unfold logBufferSize at h ⊢
  rw [BitVec.toNat_ofInt]
  omega

/-- While the header fits, the message is cut to what is left. -/
theorem logMsg_eq (h : (header timestamp moduleName line level).length < logBufferSize) :
    logMsg stack timestamp moduleName line level message =
      logPrint level
        (BitVec.ofInt 64 (logBufferSize - ((header timestamp moduleName line level).length : Int)))
        ((headerBuffer stack timestamp moduleName line level).strcpy
          (header timestamp moduleName line level).length
          (fitting (header timestamp moduleName line level) message)) := by
  have hsize : ((headerTime timestamp level).length : Int)
      + printfResult (headerPlace line moduleName)
      = (header timestamp moduleName line level).length := by
    rw [header, List.length_append] at h ⊢
    unfold logBufferSize at h
    rw [printfResult_eq (by omega), Int.natCast_add]
  have hroom := toNat_room h
  rw [logMsg_headerBuffer]
  dsimp only
  rw [hsize, Int.toNat_natCast, CharArray.snprintf, hroom, if_neg (by omega), Nat.sub_right_comm]
  rfl

/-- The NUL behind the header must be inside the buffer. -/
theorem length_header_lt (h : LogsWithin stack timestamp moduleName line level message) :
    (header timestamp moduleName line level).length < logBufferSize :=
  h.stored _ (stored_logMsg _ _ _ _ _ _
    (length_header_mem_stored stack timestamp moduleName line level))

/-- What is printed ends at the first NUL. -/
theorem nul_notMem_fitting (h : LogsWithin stack timestamp moduleName line level message) :
    nul ∉ fitting (header timestamp moduleName line level) message := by
  have hline := h.stdout
  rw [logMsg_eq _ _ _ _ _ _ (length_header_lt _ _ _ _ _ _ h), logPrint, text_message] at hline
  exact takeWhile_eq_self_iff.mp (List.append_cancel_left (List.append_cancel_left
    (List.append_cancel_right (List.append_cancel_right hline))))

theorem logsWithin_of_fits
    (hfits : (header timestamp moduleName line level).length < logBufferSize)
    (hnul : nul ∉ fitting (header timestamp moduleName line level) message) :
    LogsWithin stack timestamp moduleName line level message := by
  have htext := text_message stack timestamp moduleName line level
    (fitting (header timestamp moduleName line level) message)
  rw [takeWhile_eq_self_iff.mpr hnul] at htext
  have hlength : (fitting (header timestamp moduleName line level) message).length
      ≤ logBufferSize - 1 - (header timestamp moduleName line level).length := by
    rw [fitting, List.length_take]
    exact Nat.min_le_left _ _
  have hstart : 1 < (header timestamp moduleName line level).length := by
    simp [header, headerTime]
  have hsize : logBufferSize = 1024 := rfl
  refine ⟨?_, ?_, ?_⟩ <;> rw [logMsg_eq _ _ _ _ _ _ hfits, logPrint]
  · intro i hi
    dsimp only at hi
    rw [htext, List.length_append, BitVec.toNat_ofInt] at hi
    rcases CharArray.mem_stored_snprintf hi with hi | hi
    · rcases CharArray.mem_stored_strcpy.mp hi with hi | hi
      · exact stored_headerBuffer stack timestamp moduleName line level hfits hi
      · omega
    · omega
  · have hroom := toNat_room hfits
    constructor <;> (dsimp only; omega)
  · rw [htext]

/-- **`log_msg` stays inside its buffer exactly if the header does**, and prints all it should if
there is no NUL in it. -/
theorem logsWithin_iff :
    LogsWithin stack timestamp moduleName line level message ↔
      (header timestamp moduleName line level).length < logBufferSize ∧
        nul ∉ fitting (header timestamp moduleName line level) message := by
  constructor
  · intro h
    exact ⟨length_header_lt _ _ _ _ _ _ h, nul_notMem_fitting _ _ _ _ _ _ h⟩
  · rintro ⟨hfits, hnul⟩
    exact logsWithin_of_fits _ _ _ _ _ _ hfits hnul

end LogMsg

/-- The time of the first worker's line in the examples. -/
def exampleTime : Timestamp :=
  { chars := "08/05/2022 23:05.36".toList, nul_notMem := by decide, fits := by decide }

example : header exampleTime ⟨"worker_pool".toList, by decide⟩ 127 .info
    = " [08/05/2022 23:05.36] INFO (127) worker_pool: ".toList := by decide +kernel

/-- A module whose name is as long as the buffer. -/
def longModule : Str where
  chars := List.replicate logBufferSize 'x'
  nul_notMem := by
    intro h
    exact absurd (List.eq_of_mem_replicate h) (by decide)

theorem longModule_overflows :
    ¬ ∀ (stack : Nat → Char) (timestamp : Timestamp) (moduleName : Str) (line : BitVec 32)
      (level : LogLvl) (message : List Char),
      LogsWithin stack timestamp moduleName line level message := by
  intro hevery
  have hfits := length_header_lt _ _ _ _ _ _
    (hevery (fun _ => nul) exampleTime longModule 60 .info [])
  rw [header, headerPlace, longModule] at hfits
  simp only [List.length_append, List.length_cons, List.length_replicate] at hfits
  omega

end TcpServer.Proof
