import TcpServer.Model.Example
import TcpServer.Proof.Address

/-!
# From the command line to the listening socket

What the example makes of its options: of each kind the last one counts, and a
number that is no port or no number of workers is replaced (`Asked`).

The interface is looked up twice, once for its flags and once for its address.
The two agree on which interface is meant, the one named by the first fifteen
characters, although only one of them clears the field the name goes into.

So the server listens on an interface that was up (`listens_where_asked`), and on
the port asked for exactly if that is one of the applications'
(`listens_on_asked_iff`): what `atoi` makes of a larger number may be a port, but
never the one asked for.
-/

namespace TcpServer.Proof

open TcpServer CString Numerals Strtol

/-! ## The options -/

/-- The argument of the last option of this kind. -/
def lastArg (key : Int) (calls : List (Int × Str)) : Option Str := calls.reverse.lookup key

/-- `parse_option` knows it. -/
def Known (call : Int × Str) : Prop :=
  call.1 = ifaceKey ∨ call.1 = portKey ∨ call.1 = workersKey

instance (call : Int × Str) : Decidable (Known call) := inferInstanceAs (Decidable (_ ∨ _))

/-- What options make of the arguments there are. -/
def withOptions (calls : List (Int × Str)) (args : ServerArgs) : ServerArgs where
  iface := (lastArg ifaceKey calls).or args.iface
  port := ((lastArg portKey calls).map fun arg => atoi arg.chars).getD args.port
  workers := ((lastArg workersKey calls).map fun arg => atoi arg.chars).getD args.workers

section Options

variable {call : Int × Str} {calls : List (Int × Str)}

/-- Later options come first. -/
theorem lastArg_cons (key : Int) (call : Int × Str) (calls : List (Int × Str)) :
    lastArg key (call :: calls) = (lastArg key calls).or (lastArg key [call]) := by
  rw [lastArg, List.reverse_cons, List.lookup_append]
  rfl

theorem lastArg_single (key : Int) (call : Int × Str) :
    lastArg key [call] = if call.1 = key then some call.2 else none := by
  obtain ⟨k, arg⟩ := call
  show [(k, arg)].lookup key = if k = key then some arg else none
  by_cases hk : k = key
  · rw [hk, List.lookup_cons_self, if_pos rfl]
  · have hne : (key == k) = false := beq_eq_false_iff_ne.mpr (Ne.symm hk)
    rw [List.lookup_cons, hne, if_neg hk]
    rfl

theorem withOptions_cons (call : Int × Str) (calls : List (Int × Str)) (args : ServerArgs) :
    withOptions (call :: calls) args = withOptions calls (withOptions [call] args) := by
  have hget : ∀ (a b : Option Str) (d : BitVec 32),
      ((a.or b).map fun arg => atoi arg.chars).getD d
        = (a.map fun arg => atoi arg.chars).getD ((b.map fun arg => atoi arg.chars).getD d) := by
    intro a b d
    cases a <;> rfl
  simp only [withOptions, lastArg_cons _ call calls, Option.or_assoc, hget]

theorem parseOption_known (h : Known call) (args : ServerArgs) :
    parseOption call.1 call.2 args = (0, withOptions [call] args) := by
  have hip : ifaceKey ≠ portKey := by decide
  have hiw : ifaceKey ≠ workersKey := by decide
  have hpw : portKey ≠ workersKey := by decide
  simp only [withOptions, lastArg_single]
  rcases h with h | h | h
  · simp [parseOption, h, hip, hiw]
  · simp [parseOption, h, hip.symm, hpw]
  · simp [parseOption, h, hiw.symm, hpw.symm]

theorem parseOption_unknown (h : ¬ Known call) (args : ServerArgs) :
    parseOption call.1 call.2 args = (argpErrUnknown, args) := by
  simp only [Known, not_or] at h
  rw [parseOption, if_neg h.1, if_neg h.2.1, if_neg h.2.2]

theorem argpParse_known (h : ∀ call ∈ calls, Known call) (args : ServerArgs) :
    argpParse calls args = .returned 0 (withOptions calls args) := by
  induction calls generalizing args with
  | nil => rfl
  | cons call calls ih =>
      have hrest := ih (fun c hc => h c (List.mem_cons_of_mem _ hc)) (withOptions [call] args)
      rw [withOptions_cons, ← hrest, argpParse, parseOption_known (h call List.mem_cons_self)]
      rfl

theorem argpParse_unknown (h : ∃ call ∈ calls, ¬ Known call) (args : ServerArgs) :
    argpParse calls args = .exited argpErrExitStatus := by
  induction calls generalizing args with
  | nil =>
      obtain ⟨call, hmem, _⟩ := h
      cases hmem
  | cons call calls ih =>
      by_cases hknown : Known call
      · obtain ⟨other, hmem, hnot⟩ := h
        have hrest : ∃ c ∈ calls, ¬ Known c := by
          rcases List.mem_cons.mp hmem with rfl | hmem
          · exact absurd hknown hnot
          · exact ⟨other, hmem, hnot⟩
        rw [argpParse, parseOption_known hknown]
        exact ih hrest (withOptions [call] args)
      · rw [argpParse, parseOption_unknown hknown]
        exact if_pos rfl

end Options

/-! ## Whether the interface is up -/

/-- The interface of this name is up, as far as can be found out. -/
def IsUp (m : Machine) (name : List Char) : Prop :=
  m.upSocket ≠ none ∧ (m.flags name).getD 0 &&& iffUp ≠ 0

/-- The name that the kernel is asked for. The field was cleared, so it ends. -/
theorem strAt_ifrName (garbage : Nat → Char) (iface : Str) :
    strAt (((CharArray.uninit garbage).memset 0 nul ifnamsiz).strncpy 0 iface.chars
      (ifnamsiz - 1)).mem 0 ifnamsiz = iface.chars.take (ifnamsiz - 1) := by
  have hread := CharArray.strAt_strncpy ((CharArray.uninit garbage).memset 0 nul ifnamsiz) 0
    (ifnamsiz - 1) iface.nul_notMem
  have hlast : ((CharArray.uninit garbage).memset 0 nul ifnamsiz).mem (0 + (ifnamsiz - 1))
      = nul := by
    rw [CharArray.memset, CharArray.put_mem_add (by decide)]
    exact List.getElem_replicate _
  rw [hlast] at hread
  refine hread.trans ?_
  split <;> simp

theorem netIsIfaceUp_iff (m : Machine) (iface : Str) :
    m.netIsIfaceUp iface = true ↔ IsUp m (iface.chars.take (ifnamsiz - 1)) := by
  rw [Machine.netIsIfaceUp, Machine.ifrFlags, decide_eq_true_eq, IsUp]
  cases m.upSocket with
  | none => simp
  | some fd =>
      dsimp only
      rw [strAt_ifrName]
      simp

/-! ## What `main` comes to -/

/-- The number after the last option of this kind, `0` without one. -/
def numberAsked (key : Int) (calls : List (Int × Str)) : Int :=
  ((lastArg key calls).map fun arg => (atoi arg.chars).toInt).getD 0

/-- What the server is given is what was asked for, as far as that makes sense. -/
structure Asked (calls : List (Int × Str)) (p : ServerParams) : Prop where
  iface : p.serverIface = (lastArg ifaceKey calls).getD tcpServerDfltIface
  port : p.serverPort.toInt =
    if tcpPortMin ≤ numberAsked portKey calls ∧ numberAsked portKey calls ≤ tcpPortMax then
      numberAsked portKey calls
    else 9080
  workers : p.workersN.toInt =
    if 0 < numberAsked workersKey calls then numberAsked workersKey calls else 5

theorem toInt_numberAsked (key : Int) (calls : List (Int × Str)) :
    (((lastArg key calls).map fun arg => atoi arg.chars).getD 0).toInt = numberAsked key calls := by
  unfold numberAsked
  cases lastArg key calls <;> rfl

/-- The validation in `main` is what `Asked` says. -/
theorem asked_iff {calls : List (Int × Str)} {p : ServerParams} :
    Asked calls p ↔
      p = ⟨(withOptions calls .zero).iface.getD tcpServerDfltIface,
        if (withOptions calls .zero).port.toInt < tcpPortMin
            ∨ (withOptions calls .zero).port.toInt > tcpPortMax then tcpServerDfltPort
        else (withOptions calls .zero).port,
        if (withOptions calls .zero).workers.toInt ≤ 0 then tcpServerDfltWorkersN
        else (withOptions calls .zero).workers⟩ := by
  have hport : (withOptions calls .zero).port.toInt = numberAsked portKey calls :=
    toInt_numberAsked portKey calls
  have hworkers : (withOptions calls .zero).workers.toInt = numberAsked workersKey calls :=
    toInt_numberAsked workersKey calls
  have hiface : (withOptions calls .zero).iface = lastArg ifaceKey calls := Option.or_none
  obtain ⟨iface, port, workers⟩ := p
  rw [ServerParams.mk.injEq, hiface]
  constructor
  · rintro ⟨h1, h2, h3⟩
    refine ⟨h1, BitVec.eq_of_toInt_eq ?_, BitVec.eq_of_toInt_eq ?_⟩
    · dsimp only at h2
      rw [h2]
      split <;> split <;> first | rfl | omega
    · dsimp only at h3
      rw [h3]
      split <;> split <;> first | rfl | omega
  · rintro ⟨h1, rfl, rfl⟩
    refine ⟨h1, ?_, ?_⟩
    · dsimp only
      split <;> split <;> first | rfl | omega
    · dsimp only
      split <;> split <;> first | rfl | omega

theorem exists_asked (calls : List (Int × Str)) : ∃ p, Asked calls p := ⟨_, asked_iff.mpr rfl⟩

theorem Asked.unique {calls : List (Int × Str)} {p q : ServerParams} (hp : Asked calls p)
    (hq : Asked calls q) : p = q := (asked_iff.mp hp).trans (asked_iff.mp hq).symm

section Main

variable {m : Machine} {calls : List (Int × Str)} {p : ServerParams}

theorem exampleMain_unknown (h : ∃ call ∈ calls, ¬ Known call) (m : Machine) :
    exampleMain m calls = .exited argpErrExitStatus := by
  rw [exampleMain, argpParse_unknown h]

theorem exampleMain_known (h : ∀ call ∈ calls, Known call) (hp : Asked calls p) (m : Machine) :
    exampleMain m calls =
      if m.netIsIfaceUp p.serverIface = false then .ifaceDown
      else if (tcpServerInit (m.calls p.serverIface)).ret = -1 then .initFailed
      else .serving p := by
  rw [exampleMain, argpParse_known h, asked_iff.mp hp]
  exact if_neg (fun hne => hne rfl)

/-- Who gets past the checks serves what was asked for. -/
theorem serving_iff : exampleMain m calls = .serving p ↔
    (∀ call ∈ calls, Known call) ∧ Asked calls p ∧
      IsUp m (p.serverIface.chars.take (ifnamsiz - 1)) ∧ Goes m.toHost p.serverIface := by
  have hinit : ∀ iface, (tcpServerInit (m.calls iface)).ret = -1 ↔ ¬ Goes m.toHost iface := by
    intro iface
    constructor
    · intro hret hgoes
      rw [(init_goes hgoes 0).1] at hret
      cases hret
    · intro hstops
      exact (init_ret _).resolve_left fun hret => hstops (goes_of_init hret)
  by_cases hknown : ∀ call ∈ calls, Known call
  · obtain ⟨q, hq⟩ := exists_asked calls
    rw [exampleMain_known hknown hq, ← netIsIfaceUp_iff]
    constructor
    · intro h
      split at h
      · cases h
      · rename_i hup
        split at h
        · cases h
        · rename_i hret
          cases h
          exact ⟨hknown, hq, Bool.eq_true_of_not_eq_false hup, not_not.mp (mt (hinit _).mpr hret)⟩
    · rintro ⟨_, hp, hup, hgoes⟩
      rw [hq.unique hp, if_neg (by rw [hup]; decide),
        if_neg fun hret => (hinit _).mp hret hgoes]
  · constructor
    · intro h
      obtain ⟨call, hc⟩ := not_forall.mp hknown
      rw [exampleMain_unknown ⟨call, Classical.not_imp.mp hc⟩] at h
      cases h
    · intro h
      exact absurd h.1 hknown

/-- The port is one of the applications', so sixteen bits keep all of it. -/
theorem Asked.port_range (h : Asked calls p) :
    tcpPortMin ≤ p.serverPort.toInt ∧ p.serverPort.toInt ≤ tcpPortMax := by
  have hport := h.port
  unfold tcpPortMin tcpPortMax at hport ⊢
  split at hport <;> omega

theorem Asked.workers_pos (h : Asked calls p) : 0 < p.workersN.toInt := by
  have hworkers := h.workers
  split at hworkers <;> omega

theorem Asked.bound_port (h : Asked calls p) (m : Machine) :
    ((m.bound p.serverIface p.serverPort).port.toNat : Int) = p.serverPort.toInt := by
  have hrange := h.port_range
  unfold tcpPortMin tcpPortMax at hrange
  exact (bound_port_iff _ _ _).mpr (by omega)

end Main

/-! ## Where the server listens -/

/-- What `-p` asks for, or the port there is without it. -/
def portServed (calls : List (Int × Str)) : Int :=
  if tcpPortMin ≤ numberAsked portKey calls ∧ numberAsked portKey calls ≤ tcpPortMax then
    numberAsked portKey calls
  else 9080

/-- The interface that is meant by the options: the one named by the first characters. -/
def ifaceMeant (calls : List (Int × Str)) : List Char :=
  ((lastArg ifaceKey calls).getD tcpServerDfltIface).chars.take (ifnamsiz - 1)

/--
**The example listens at an endpoint exactly if its options ask for it**: all of
them are known, the interface meant is up and has that address, the calls go
through, and the port is the one asked for or its replacement.
-/
theorem listens_where_asked (m : Machine) (calls : List (Int × Str)) (e : Endpoint) :
    (∃ p, exampleMain m calls = .serving p ∧ m.bound p.serverIface p.serverPort = e) ↔
      (∀ call ∈ calls, Known call) ∧ IsUp m (ifaceMeant calls) ∧
        Goes m.toHost ((lastArg ifaceKey calls).getD tcpServerDfltIface) ∧
        m.ifaces.addr (ifaceMeant calls) = some e.addr ∧
        (e.port.toNat : Int) = portServed calls := by
  constructor
  · rintro ⟨p, hserving, rfl⟩
    obtain ⟨hknown, hasked, hup, hgoes⟩ := serving_iff.mp hserving
    have haddr := (init_goes hgoes p.serverPort).2
    have hport := hasked.bound_port m
    have hiface := hasked.iface
    rw [hasked.port] at hport
    refine ⟨hknown, ?_, ?_, ?_, hport⟩
    · rw [hiface] at hup
      exact hup
    · rw [hiface] at hgoes
      exact hgoes
    · rw [← haddr, hiface]
      rfl
  · rintro ⟨hknown, hup, hgoes, haddr, hport⟩
    obtain ⟨p, hasked⟩ := exists_asked calls
    have haddr' := (init_goes hgoes p.serverPort).2
    have hport' := hasked.bound_port m
    rw [hasked.port] at hport'
    rw [← hasked.iface] at hgoes haddr'
    refine ⟨p, serving_iff.mpr ⟨hknown, hasked, ?_, hgoes⟩, ?_⟩
    · rw [hasked.iface]
      exact hup
    · rw [Endpoint.ext_iff]
      constructor
      · refine Option.some.inj (haddr'.symm.trans ?_)
        rw [hasked.iface]
        exact haddr
      · apply BitVec.eq_of_toNat_eq
        unfold portServed at hport
        omega

/-- What the decimal text of a number asks for. -/
theorem numberAsked_decimal {key : Int} {calls : List (Int × Str)} {arg : Str} {z : Int}
    (harg : lastArg key calls = some arg) (hz : arg.chars = decimal z) :
    numberAsked key calls = (atoi (decimal z)).toInt := by
  unfold numberAsked
  rw [harg, ← hz]
  rfl

/--
**The port asked for is served exactly if it is one of the applications'.**

Any other number that an `int` can hold is replaced by the default. What no `int`
can hold may be cut to a port, which is another one then.
-/
theorem listens_on_asked_iff {m : Machine} {calls : List (Int × Str)} {p : ServerParams} {arg : Str}
    {z : Int} (h : exampleMain m calls = .serving p) (harg : lastArg portKey calls = some arg)
    (hz : arg.chars = decimal z) :
    (((m.bound p.serverIface p.serverPort).port.toNat : Int) = z ↔ 1024 ≤ z ∧ z ≤ 49151) ∧
      (-2 ^ 31 ≤ z → z < 2 ^ 31 → ¬ (1024 ≤ z ∧ z ≤ 49151) →
        (m.bound p.serverIface p.serverPort).port.toNat = 9080) := by
  obtain ⟨-, hasked, -, -⟩ := serving_iff.mp h
  have hrange := hasked.port_range
  have hport := hasked.port
  have heq : ((m.bound p.serverIface p.serverPort).port.toNat : Int) = p.serverPort.toInt :=
    hasked.bound_port m
  have hread := toInt_atoi_decimal (z := z)
  rw [numberAsked_decimal harg hz] at hport
  unfold tcpPortMin tcpPortMax at hrange hport
  constructor
  · constructor
    · intro hserved
      omega
    · rintro ⟨hlo, hhi⟩
      rw [hread.mpr ⟨by omega, by omega⟩, if_pos ⟨hlo, hhi⟩] at hport
      omega
  · intro hlo hhi hnot
    rw [hread.mpr ⟨hlo, hhi⟩, if_neg hnot] at hport
    omega

/-- A machine on which the loopback interface is up, and every call succeeds. -/
def loopbackMachine : Machine where
  toHost := loopbackHost
  flags := fun name => if name = ['l', 'o'] then some 0x49 else none
  upName := fun _ => nul
  upSocket := some 3

theorem goes_loopback : Goes loopbackMachine.toHost tcpServerDfltIface :=
  ⟨by decide, by decide, Or.inr rfl, by decide, rfl, rfl, rfl⟩

def eightyEighty : Str := ⟨['8', '0', '8', '0'], by decide⟩

theorem serving_loopback :
    exampleMain loopbackMachine [(portKey, eightyEighty)]
      = .serving ⟨tcpServerDfltIface, 8080, 5⟩ := by
  refine serving_iff.mpr ⟨by decide, ⟨rfl, by decide, by decide⟩, ?_, goes_loopback⟩
  exact ⟨by decide, by decide⟩

/-- `-p 8080`. -/
theorem listens_on_asked_eightyEighty :
    (loopbackMachine.saddr tcpServerDfltIface 8080).port.toNat = 8080 := by
  have hserved := (listens_on_asked_iff (z := 8080) serving_loopback rfl rfl).1.mpr
    ⟨by decide, by decide⟩
  exact_mod_cast hserved

/-- A number of thirty-three bits is cut to the port that its lower half is. -/
example : numberAsked portKey [(portKey, ⟨"4294976377".toList, by decide⟩)] = 9081 := by
  decide +kernel

end TcpServer.Proof
