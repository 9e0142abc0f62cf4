import TcpServer.Model.Net
import TcpServer.Proof.Leaks

/-!
# Where the server listens

`net_parse_ipv4` keeps an address twice, as a number and as the text it was given.
The two agree for any text that fits its field, of however many spellings
(`addressAgrees_iff`); the texts its caller passes all do, being written by
`inet_ntoa`.

So the address that `tcp_server_init` binds is that of the interface the kernel
found. It found it under the first fifteen characters of the name, and the port
is what sixteen bits keep of it, or any port if they keep nothing:
`listensWhereTold_iff`.
-/

namespace TcpServer.Proof

open TcpServer CString Inet

/-! ## The two forms of an address -/

/-- What `net_parse_ipv4` should do with a text. -/
structure AddressAgrees (ipStr : Str) (ipOut : IpParser) : Prop where
  /-- What the call stores in `ip_str` is inside it. -/
  fits : inetAton ipStr.chars ≠ none →
    ∀ i ∈ (netParseIpv4 ipStr ipOut).2.ipStr.stored.drop ipOut.ipStr.stored.length,
      i < ipNameStrSize
  agrees : inetAton ipStr.chars ≠ none →
    inetAddr ((netParseIpv4 ipStr ipOut).2.ipStr.text 0) = (netParseIpv4 ipStr ipOut).2.dword
  rejected : inetAton ipStr.chars = none →
    (netParseIpv4 ipStr ipOut).2.dwords = ipOut.dwords ∧
      (netParseIpv4 ipStr ipOut).2.ipStr = ipOut.ipStr

section Parse

variable {ipStr : Str}

theorem netParseIpv4_rejected (h : inetAton ipStr.chars = none) (ipOut : IpParser) :
    netParseIpv4 ipStr ipOut = (-1, { ipOut with ipv := 0 }) := by
  rw [netParseIpv4, h]

theorem netParseIpv4_accepted {a : BitVec 32} (h : inetAton ipStr.chars = some a)
    (ipOut : IpParser) :
    netParseIpv4 ipStr ipOut =
      (0,
        { ipv := 4
          dwords := ipOut.dwords.set 0 a (by decide)
          ipStr := ipOut.ipStr.strcpy 0 ipStr.chars }) := by
  rw [netParseIpv4, h]

theorem netParseIpv4_dword {a : BitVec 32} (h : inetAton ipStr.chars = some a) (ipOut : IpParser) :
    (netParseIpv4 ipStr ipOut).2.dword = a := by
  rw [netParseIpv4_accepted h]
  exact Vector.getElem_set_self _

theorem text_strcpy_str (t : CharArray) (s : Str) : (t.strcpy 0 s.chars).text 0 = s.chars := by
  rw [CharArray.text_strcpy, takeWhile_eq_self_iff.mpr s.nul_notMem]

theorem addressAgrees_of_rejected (h : inetAton ipStr.chars = none) (ipOut : IpParser) :
    AddressAgrees ipStr ipOut := by
  refine ⟨fun hsome => absurd h hsome, fun hsome => absurd h hsome, ?_⟩
  intro _
  rw [netParseIpv4_rejected h]
  exact ⟨rfl, rfl⟩

/-- What an accepted text stores: itself and its NUL. -/
theorem stored_accepted (h : inetAton ipStr.chars ≠ none) (ipOut : IpParser) (i : Nat) :
    i ∈ (netParseIpv4 ipStr ipOut).2.ipStr.stored.drop ipOut.ipStr.stored.length ↔
      i ≤ ipStr.chars.length := by
  obtain ⟨a, ha⟩ := Option.ne_none_iff_exists'.mp h
  rw [netParseIpv4_accepted ha]
  simp only [CharArray.strcpy, CharArray.put, List.drop_left, List.mem_range'_1,
    List.length_append, List.length_singleton]
  omega

theorem addressAgrees_of_fits (h : ipStr.chars.length < ipNameStrSize) (ipOut : IpParser) :
    AddressAgrees ipStr ipOut := by
  cases haton : inetAton ipStr.chars with
  | none => exact addressAgrees_of_rejected haton ipOut
  | some a =>
      have hsome : inetAton ipStr.chars ≠ none := by rw [haton]; simp
      refine ⟨?_, ?_, fun hnone => absurd hnone hsome⟩
      · intro _ i hi
        have hle := (stored_accepted hsome ipOut i).mp hi
        omega
      · intro _
        rw [netParseIpv4_dword haton, netParseIpv4_accepted haton]
        show inetAddr ((ipOut.ipStr.strcpy 0 ipStr.chars).text 0) = a
        rw [text_strcpy_str, inetAddr, haton]
        rfl

/-- The NUL of an accepted text must be inside the field. -/
theorem length_lt_of_agrees {ipOut : IpParser} (h : AddressAgrees ipStr ipOut)
    (hsome : inetAton ipStr.chars ≠ none) : ipStr.chars.length < ipNameStrSize :=
  h.fits hsome _ ((stored_accepted hsome ipOut _).mpr (Nat.le_refl _))

end Parse

/-- **The two forms agree for every text that is rejected or fits.** -/
theorem addressAgrees_iff (ipStr : Str) (ipOut : IpParser) :
    AddressAgrees ipStr ipOut ↔
      inetAton ipStr.chars = none ∨ ipStr.chars.length < ipNameStrSize := by
  constructor
  · intro h
    rcases Classical.em (inetAton ipStr.chars = none) with hnone | hsome
    · exact Or.inl hnone
    · exact Or.inr (length_lt_of_agrees h hsome)
  · rintro (hnone | hfits)
    · exact addressAgrees_of_rejected hnone ipOut
    · exact addressAgrees_of_fits hfits ipOut

/-- An address with blanks behind it, as long as the field. -/
def paddedAddress : Str := ⟨"127.0.0.1".toList ++ List.replicate 41 ' ', by decide⟩

theorem paddedAddress_overflows :
    ¬ ∀ (ipStr : Str) (ipOut : IpParser), AddressAgrees ipStr ipOut := by
  intro hevery
  have haton : inetAton paddedAddress.chars = some 0x7f000001 := by decide +kernel
  have hagrees := hevery paddedAddress
    { ipv := 0, dwords := Vector.replicate 4 0, ipStr := CharArray.uninit fun _ => nul }
  exact absurd (length_lt_of_agrees hagrees (by rw [haton]; simp)) (by decide)

/-- What `inet_ntoa` writes fits, with room to spare. -/
theorem addressAgrees_ntoaStr (a : BitVec 32) (ipOut : IpParser) :
    AddressAgrees (ntoaStr a) ipOut := by
  have hlength : (ntoaStr a).chars.length ≤ 15 := length_inetNtoa a
  refine addressAgrees_of_fits ?_ ipOut
  unfold ipNameStrSize
  omega

/-! ## The interface and the port -/

/-- What `tcp_server_init` should do with the interface and the port it is given. -/
structure ListensWhereTold (h : Host) (iface : Str) (serverPort : BitVec 32) : Prop where
  addr : (tcpServerInit (h.calls iface)).ret = 0 →
    h.ifaces.addr iface.chars = some (h.bound iface serverPort).addr
  port : (tcpServerInit (h.calls iface)).ret = 0 →
    ((h.bound iface serverPort).port.toNat : Int) = serverPort.toInt
  /-- What cannot be represented is refused. -/
  refused : ifnamsiz ≤ iface.chars.length ∨ serverPort.toInt < 0 ∨ 2 ^ 16 ≤ serverPort.toInt →
    (tcpServerInit (h.calls iface)).ret = -1

/-- Every call succeeds. The lookup does if there is an interface of the name that is copied, and a
NUL behind the copy: its own, or one that is there by chance. -/
structure Goes (h : Host) (iface : Str) : Prop where
  probe : h.probe ≠ none
  copied : h.ifaces.addr (iface.chars.take (ifnamsiz - 1)) ≠ none
  ends : iface.chars.length < ifnamsiz - 1 ∨ h.ifrName (ifnamsiz - 1) = nul
  socket : h.socket ≠ none
  setsockopt : h.setsockopt = true
  bind : h.bind = true
  listen : h.listen = true

theorem bound_addr (h : Host) (iface : Str) (serverPort : BitVec 32) :
    (h.bound iface serverPort).addr = (h.saddr iface serverPort).addr := by
  unfold Host.bound
  dsimp only
  split <;> rfl

section Lookup

variable {h : Host} {iface : Str}

/-- **The kernel is asked for the first fifteen characters of the name**, or for a name that no
interface has. -/
theorem ioctl_eq (h : Host) (iface : Str) :
    h.ifaces.ioctl ((CharArray.uninit h.ifrName).strncpy 0 iface.chars (ifnamsiz - 1)) =
      if iface.chars.length < ifnamsiz - 1 ∨ h.ifrName (ifnamsiz - 1) = nul then
        h.ifaces.addr (iface.chars.take (ifnamsiz - 1))
      else none := by
  have hread := CharArray.strAt_strncpy (CharArray.uninit h.ifrName) 0 (ifnamsiz - 1)
    iface.nul_notMem
  rw [Nat.zero_add] at hread
  rw [Ifaces.ioctl, show ifnamsiz = ifnamsiz - 1 + 1 from rfl, Nat.add_sub_cancel, hread]
  by_cases hlt : iface.chars.length < ifnamsiz - 1
  · rw [if_pos hlt, if_pos (Or.inl hlt), List.append_nil]
  · rw [if_neg hlt]
    by_cases hnul : h.ifrName (ifnamsiz - 1) = nul
    · rw [if_pos (Or.inr hnul)]
      simp [CharArray.uninit, hnul]
    · rw [if_neg (by simp [hlt, hnul])]
      apply h.ifaces.short
      simp [CharArray.uninit, hnul]
      omega

/-- The address found is passed on unchanged, through its text. -/
theorem netGetIpv4FromIface_found {fd : Nat} {a : BitVec 32} (hprobe : h.probe = some fd)
    (ha : h.ifaces.ioctl ((CharArray.uninit h.ifrName).strncpy 0 iface.chars (ifnamsiz - 1))
      = some a) :
    (h.netGetIpv4FromIface iface).1 = .found fd ∧
      inetAddr ((h.netGetIpv4FromIface iface).2.ipStr.text 0) = a := by
  have haton : inetAton (ntoaStr a).chars = some a := inetAton_inetNtoa a
  have heq : h.netGetIpv4FromIface iface = (.found fd, (netParseIpv4 (ntoaStr a) h.sipv4).2) := by
    rw [Host.netGetIpv4FromIface, hprobe]
    dsimp only
    rw [ha]
    dsimp only
    rw [netParseIpv4_accepted haton]
    rfl
  have hagrees := (addressAgrees_ntoaStr a h.sipv4).agrees (by rw [haton]; simp)
  rw [heq, hagrees, netParseIpv4_dword haton]
  exact ⟨rfl, rfl⟩

theorem netGetIpv4FromIface_not_found
    (h' : h.probe = none ∨
      h.ifaces.ioctl ((CharArray.uninit h.ifrName).strncpy 0 iface.chars (ifnamsiz - 1)) = none)
    (fd : Nat) : (h.netGetIpv4FromIface iface).1 ≠ .found fd := by
  rw [Host.netGetIpv4FromIface]
  cases hprobe : h.probe with
  | none => simp
  | some t =>
      have hnone := h'.resolve_left (by simp [hprobe])
      simp [hnone]

/-- `tcp_server_init` succeeds if everything does, and has found the address that the name copied
stands for. -/
theorem init_goes (hgoes : Goes h iface) (serverPort : BitVec 32) :
    (tcpServerInit (h.calls iface)).ret = 0 ∧
      h.ifaces.addr (iface.chars.take (ifnamsiz - 1)) = some (h.bound iface serverPort).addr := by
  obtain ⟨fd, hprobe⟩ := Option.ne_none_iff_exists'.mp hgoes.probe
  obtain ⟨a, ha⟩ := Option.ne_none_iff_exists'.mp hgoes.copied
  obtain ⟨s, hsock⟩ := Option.ne_none_iff_exists'.mp hgoes.socket
  have hioctl := ioctl_eq h iface
  rw [if_pos hgoes.ends, ha] at hioctl
  obtain ⟨hfound, haddr⟩ := netGetIpv4FromIface_found hprobe hioctl
  have hinit := init_with_socket (c := h.calls iface) hfound hsock
  rw [if_pos ⟨hgoes.setsockopt, hgoes.bind, hgoes.listen⟩] at hinit
  refine ⟨by rw [hinit], ?_⟩
  rw [ha, bound_addr]
  exact congrArg some haddr.symm

theorem goes_of_init (hret : (tcpServerInit (h.calls iface)).ret = 0) : Goes h iface := by
  obtain ⟨t, fd, hlookup, hsock, hcalls, -⟩ := init_ok hret
  have hprobe : h.probe ≠ none := by
    intro hnone
    exact netGetIpv4FromIface_not_found (Or.inl hnone) t hlookup
  have hioctl : h.ifaces.ioctl
      ((CharArray.uninit h.ifrName).strncpy 0 iface.chars (ifnamsiz - 1)) ≠ none := by
    intro hnone
    exact netGetIpv4FromIface_not_found (Or.inr hnone) t hlookup
  rw [ioctl_eq] at hioctl
  split at hioctl
  · rename_i hends
    refine ⟨hprobe, hioctl, hends, ?_, hcalls.1, hcalls.2.1, hcalls.2.2⟩
    intro hnone
    rw [show (h.calls iface).socket = h.socket from rfl, hnone] at hsock
    cases hsock
  · exact absurd rfl hioctl

end Lookup

theorem toNat_htons (serverPort : BitVec 32) :
    ((htons serverPort).toNat : Int) = serverPort.toInt ↔
      0 ≤ serverPort.toInt ∧ serverPort.toInt < 2 ^ 16 := by
  have hlt := serverPort.isLt
  rw [htons, BitVec.toNat_setWidth, BitVec.toInt_eq_toNat_cond]
  split <;> omega

/-- **`bind` keeps to the port exactly if it is one**: what sixteen bits hold, but `0`. -/
theorem bound_port_iff (h : Host) (iface : Str) (serverPort : BitVec 32) :
    ((h.bound iface serverPort).port.toNat : Int) = serverPort.toInt ↔
      1 ≤ serverPort.toInt ∧ serverPort.toInt < 2 ^ 16 := by
  have hkept := toNat_htons serverPort
  by_cases hzero : htons serverPort = 0
  · -- a port that is not `0` is not what is left of this one
    have hbound : (h.bound iface serverPort).port = h.ephemeral := by
      simp only [Host.bound, Host.saddr, hzero, if_true]
    have hnat : (htons serverPort).toNat = 0 := by rw [hzero]; rfl
    have hne : h.ephemeral.toNat ≠ 0 := fun h0 => h.ephemeral_ne_zero (BitVec.eq_of_toNat_eq h0)
    have hlt := h.ephemeral.isLt
    rw [hbound]
    omega
  · have hbound : (h.bound iface serverPort).port = htons serverPort := by
      simp only [Host.bound, Host.saddr, hzero, if_false]
    have hnat : (htons serverPort).toNat ≠ 0 := fun h0 => hzero (BitVec.eq_of_toNat_eq h0)
    rw [hbound]
    omega

/-- What can be represented is not changed on its way. -/
theorem told_of_representable {h : Host} {iface : Str} {serverPort : BitVec 32}
    (hshort : iface.chars.length < ifnamsiz)
    (hport : 1 ≤ serverPort.toInt ∧ serverPort.toInt < 2 ^ 16) :
    ListensWhereTold h iface serverPort := by
  refine ⟨?_, fun _ => (bound_port_iff h iface serverPort).mpr hport, by omega⟩
  intro hret
  have haddr := (init_goes (goes_of_init hret) serverPort).2
  rwa [List.take_of_length_le (by omega)] at haddr

theorem told_of_stops {h : Host} {iface : Str} (hstops : ¬ Goes h iface) (serverPort : BitVec 32) :
    ListensWhereTold h iface serverPort := by
  have hret : (tcpServerInit (h.calls iface)).ret ≠ 0 := fun hret => hstops (goes_of_init hret)
  exact ⟨fun h0 => absurd h0 hret, fun h0 => absurd h0 hret,
    fun _ => (init_ret (h.calls iface)).resolve_left hret⟩

/-- A server that listens must have been told where in a way that can be represented. -/
theorem representable_of_told {h : Host} {iface : Str} {serverPort : BitVec 32}
    (htold : ListensWhereTold h iface serverPort) (hgoes : Goes h iface) :
    iface.chars.length < ifnamsiz ∧ 1 ≤ serverPort.toInt ∧ serverPort.toInt < 2 ^ 16 := by
  have hret := (init_goes hgoes serverPort).1
  refine ⟨Nat.lt_of_not_le ?_, (bound_port_iff h iface serverPort).mp (htold.port hret)⟩
  intro hlong
  have haddr := htold.addr hret
  rw [h.ifaces.short _ hlong] at haddr
  cases haddr

/-- **The server listens where it was told to exactly if that can be represented**, or it does not
listen at all. -/
theorem listensWhereTold_iff (h : Host) (iface : Str) (serverPort : BitVec 32) :
    ListensWhereTold h iface serverPort ↔
      iface.chars.length < ifnamsiz ∧ 1 ≤ serverPort.toInt ∧ serverPort.toInt < 2 ^ 16 ∨
        ¬ Goes h iface := by
  constructor
  · intro htold
    rcases Classical.em (Goes h iface) with hgoes | hstops
    · exact Or.inl (representable_of_told htold hgoes)
    · exact Or.inr hstops
  · rintro (⟨hshort, hport⟩ | hstops)
    · exact told_of_representable hshort hport
    · exact told_of_stops hstops serverPort

/-- A host with a loopback interface, on which every call succeeds. -/
def loopbackHost : Host where
  ifaces :=
    { addr := fun name => if name = "lo".toList then some 0x7f000001 else none
      short := by
        intro name hname
        rw [if_neg]
        rintro rfl
        exact absurd hname (by decide) }
  ifrName := fun _ => nul
  sipv4 := { ipv := 0, dwords := Vector.replicate 4 0, ipStr := CharArray.uninit fun _ => nul }
  probe := some 3
  socket := some 3
  setsockopt := true
  bind := true
  listen := true
  ephemeral := 32768
  ephemeral_ne_zero := by decide

def loopback : Str := ⟨"lo".toList, by decide⟩

/-- A port of seventeen bits: it listens on `9080`. -/
theorem wide_port_bound : ¬ ∀ (h : Host) (iface : Str) (serverPort : BitVec 32),
    ListensWhereTold h iface serverPort := by
  intro hevery
  have hgoes : Goes loopbackHost loopback :=
    ⟨by decide, by decide, Or.inr rfl, by decide, rfl, rfl, rfl⟩
  have hport := (representable_of_told (hevery loopbackHost loopback 74616) hgoes).2.2
  exact absurd hport (by decide)

end TcpServer.Proof
