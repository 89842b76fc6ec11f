import Jinx.Http.BufferView
import Jinx.Lib.Storage

/-! `SocketAddress` and `AddressINet`.

    One storage of 128 bytes holds the address of either family: the family in the first two bytes, in the
    order of the host, the port in the next two, in the order of the network, and the raw address from
    byte 4 (`sockaddr_in`) or from byte 8 on (`sockaddr_in6`). The host is little-endian. -/

namespace Jinx.Posix
open Jinx Jinx.Http

abbrev AF_INET : UInt16 := 2
abbrev AF_INET6 : UInt16 := 10

/-- A 16-bit number in memory. -/
def bytes16 (v : UInt16) : List Byte := [UInt8.ofNat v.toNat, UInt8.ofNat (v.toNat / 256)]

def value16 : List Byte → UInt16
  | [low, high] => UInt16.ofNat (low.toNat + 256 * high.toNat)
  | _ => 0

def htons (v : UInt16) : UInt16 := UInt16.ofNat (v.toNat % 256 * 256 + v.toNat / 256)

def ntohs (v : UInt16) : UInt16 := htons v

@[simp] theorem length_bytes16 (v : UInt16) : (bytes16 v).length = 2 := rfl

@[simp] theorem value16_bytes16 (v : UInt16) : value16 (bytes16 v) = v := by
  apply UInt16.toNat_inj.mp
  have := v.toNat_lt
  simp only [value16, bytes16, UInt16.toNat_ofNat', UInt8.toNat_ofNat']
  omega

theorem bytes16_value16 {bs : List Byte} (h : bs.length = 2) : bytes16 (value16 bs) = bs := by
  obtain ⟨low, high, rfl⟩ := List.length_eq_two.mp h
  have hlow := low.toNat_lt
  have hhigh := high.toNat_lt
  have hvalue : (value16 [low, high]).toNat = low.toNat + 256 * high.toNat := by
    simp only [value16, UInt16.toNat_ofNat']
    omega
  simp only [bytes16, hvalue, List.cons.injEq, and_true]
  constructor <;> apply UInt8.toNat_inj.mp <;> simp only [UInt8.toNat_ofNat'] <;> omega

theorem toNat_htons (v : UInt16) : (htons v).toNat = v.toNat % 256 * 256 + v.toNat / 256 := by
  have := v.toNat_lt
  simp only [htons, UInt16.toNat_ofNat']
  omega

@[simp] theorem ntohs_htons (v : UInt16) : ntohs (htons v) = v := by
  apply UInt16.toNat_inj.mp
  have := v.toNat_lt
  rw [ntohs, toNat_htons, toNat_htons]
  omega

inductive AddressStatus where
  | ok | invalidAddress | unsupportedAddressFamily
  deriving DecidableEq, Repr

/-- `SocketAddress`: `_addr` and `_size`. -/
structure SocketAddress where
  addr : Fin 128 → Byte := fun _ => 0
  size : Nat := 0

namespace SocketAddress

def write (a : SocketAddress) (off : Nat) (bs : List Byte) : SocketAddress :=
  { a with addr := Storage.write a.addr off bs }

/-- `ss_family`. -/
def family (a : SocketAddress) : UInt16 := value16 (Storage.read a.addr 0 2 (by decide))

/-- `sin_port` and `sin6_port`: both structures have it at the same place. -/
def sinPort (a : SocketAddress) : UInt16 := value16 (Storage.read a.addr 2 2 (by decide))

def sinAddr (a : SocketAddress) : List Byte := Storage.read a.addr 4 4 (by decide)

def sin6Addr (a : SocketAddress) : List Byte := Storage.read a.addr 8 16 (by decide)

def setFamily (a : SocketAddress) (family : UInt16) : SocketAddress := a.write 0 (bytes16 family)

def setSinPort (a : SocketAddress) (port : UInt16) : SocketAddress := a.write 2 (bytes16 port)

def setSinAddr (a : SocketAddress) (raw : List Byte) : SocketAddress := a.write 4 raw

def setSin6Addr (a : SocketAddress) (raw : List Byte) : SocketAddress := a.write 8 raw

variable (a : SocketAddress)

@[simp] theorem family_setFamily (family : UInt16) : (a.setFamily family).family = family := by
  rw [SocketAddress.family, setFamily, write, Storage.read_write _ (length_bytes16 family),
    value16_bytes16]

@[simp] theorem family_setSinPort (port : UInt16) : (a.setSinPort port).family = a.family := by
  rw [family, setSinPort, write, Storage.read_write_apart _ (.inl (by decide)), family]

@[simp] theorem family_setSinAddr (raw : List Byte) : (a.setSinAddr raw).family = a.family := by
  rw [family, setSinAddr, write, Storage.read_write_apart _ (.inl (by decide)), family]

@[simp] theorem family_setSin6Addr (raw : List Byte) : (a.setSin6Addr raw).family = a.family := by
  rw [family, setSin6Addr, write, Storage.read_write_apart _ (.inl (by decide)), family]

@[simp] theorem sinPort_setSinPort (port : UInt16) : (a.setSinPort port).sinPort = port := by
  rw [sinPort, setSinPort, write, Storage.read_write _ (length_bytes16 port), value16_bytes16]

@[simp] theorem sinPort_setSinAddr (raw : List Byte) : (a.setSinAddr raw).sinPort = a.sinPort := by
  rw [sinPort, setSinAddr, write, Storage.read_write_apart _ (.inl (by decide)), sinPort]

@[simp] theorem sinPort_setSin6Addr (raw : List Byte) :
    (a.setSin6Addr raw).sinPort = a.sinPort := by
  rw [sinPort, setSin6Addr, write, Storage.read_write_apart _ (.inl (by decide)), sinPort]

theorem sinAddr_setSinAddr {raw : List Byte} (h : raw.length = 4) :
    (a.setSinAddr raw).sinAddr = raw := by
  rw [sinAddr, setSinAddr, write, Storage.read_write _ h]

theorem sin6Addr_setSin6Addr {raw : List Byte} (h : raw.length = 16) :
    (a.setSin6Addr raw).sin6Addr = raw := by
  rw [sin6Addr, setSin6Addr, write, Storage.read_write _ h]

@[simp] theorem setFamily_setFamily (family family' : UInt16) :
    (a.setFamily family).setFamily family' = a.setFamily family' := by
  simp only [setFamily, write]
  rw [Storage.write_write (by simp)]

/-- Storing a family changes nothing exactly when it is the one that is there. -/
theorem setFamily_eq_self_iff {family : UInt16} :
    a.setFamily family = a ↔ a.family = family := by
  constructor
  · intro h
    rw [← h, family_setFamily]
  · intro h
    have hread : Storage.read a.addr 0 2 (by decide) = bytes16 family := by
      rw [← h, SocketAddress.family, bytes16_value16 (by simp [Storage.read])]
    have hwrite := (Storage.write_eq_self_iff _ (length_bytes16 family)).mpr hread
    rw [setFamily, write, hwrite]

end SocketAddress

/-- `sizeof(struct sockaddr_in)`. -/
abbrev sizeofSockaddrIn : Nat := 16

/-- `sizeof(struct sockaddr_in6)`. -/
abbrev sizeofSockaddrIn6 : Nat := 28

/-- `AddressUnspecified::check`. -/
def AddressUnspecified.check (_ : SocketAddress) (_ : Nat) : AddressStatus := .ok

/-- `AddressChecker::commit`, for the checker of `AddressUnspecified`: the size is the capacity. -/
def AddressChecker.commit (a : SocketAddress) (capacity : Nat) : AddressStatus × SocketAddress :=
  let result := AddressUnspecified.check a capacity
  if result = .ok then (result, { a with size := capacity }) else (result, a)

/-- What `inet_pton` returns, with what it writes: `1` and the raw address, `0`, or `-1`. -/
inductive Pton (n : Nat) where
  | parsed (raw : Vector Byte n)
  | unparsable
  | unsupported

/-- `inet_pton` for either family. -/
structure InetPton where
  inet : List Byte → Pton 4
  inet6 : List Byte → Pton 16

namespace AddressINet
open SocketAddress

def setPort (a : SocketAddress) (port : UInt16) : AddressStatus × SocketAddress :=
  if a.family = AF_INET then AddressChecker.commit (a.setSinPort (htons port)) sizeofSockaddrIn
  else if a.family = AF_INET6 then AddressChecker.commit (a.setSinPort (htons port)) sizeofSockaddrIn6
  else (.unsupportedAddressFamily, a)

/-- `set_raw`; the family is an `int` that is stored in 16 bits. -/
def setRaw (a : SocketAddress) (family : Int) (raw : List Byte) (port : UInt16) :
    AddressStatus × SocketAddress :=
  let a := a.setFamily (UInt16.ofInt family)
  if a.family = AF_INET then
    if raw.length ≠ 4 then (.invalidAddress, a)
    else AddressChecker.commit ((a.setSinPort (htons port)).setSinAddr raw) sizeofSockaddrIn
  else if a.family = AF_INET6 then
    if raw.length ≠ 16 then (.invalidAddress, a)
    else AddressChecker.commit ((a.setSinPort (htons port)).setSin6Addr raw) sizeofSockaddrIn6
  else (.unsupportedAddressFamily, a)

/-- `set_address`. -/
def setAddress (p : InetPton) (a : SocketAddress) (str : List Byte) : AddressStatus × SocketAddress :=
  let a := a.setFamily AF_INET
  match p.inet str with
  | .unsupported => (.invalidAddress, a)
  | .parsed raw => AddressChecker.commit (a.setSinAddr raw.toList) sizeofSockaddrIn
  | .unparsable =>
    let a := a.setFamily AF_INET6
    match p.inet6 str with
    | .parsed raw => AddressChecker.commit (a.setSin6Addr raw.toList) sizeofSockaddrIn6
    | .unparsable | .unsupported => (.invalidAddress, a)

def setAddressPort (p : InetPton) (a : SocketAddress) (str : List Byte) (port : UInt16) :
    AddressStatus × SocketAddress :=
  match setAddress p a str with
  | (.ok, a) => setPort a port
  | result => result

/-- `get_port`: `none` where it returns false. -/
def getPort (a : SocketAddress) : Option UInt16 :=
  if a.family = AF_INET then some (ntohs a.sinPort)
  else if a.family = AF_INET6 then some (ntohs a.sinPort)
  else none

/-- `compare`: the second test is on `AF_INET` as well. -/
def compare (a other : SocketAddress) : Bool :=
  if a.family ≠ other.family then false
  else if a.family = AF_INET then a.sinAddr = other.sinAddr && a.sinPort = other.sinPort
  else if a.family = AF_INET then a.sin6Addr = other.sin6Addr && a.sinPort = other.sinPort
  else false

end AddressINet

/-! ### Addresses set from raw bytes -/

inductive INetFamily where
  | inet | inet6
  deriving DecidableEq, Repr

namespace INetFamily

/-- The constant of the family, an `int`. -/
def toInt : INetFamily → Int
  | inet => 2
  | inet6 => 10

/-- The constant as it is stored. -/
def saFamily : INetFamily → UInt16
  | inet => AF_INET
  | inet6 => AF_INET6

/-- The length of a raw address. -/
def length : INetFamily → Nat
  | inet => 4
  | inet6 => 16

/-- The size of the family's `sockaddr`. -/
def sizeofSockaddr : INetFamily → Nat
  | inet => sizeofSockaddrIn
  | inet6 => sizeofSockaddrIn6

end INetFamily

/-- A family, a raw address of the family's length and a port. -/
structure RawAddress where
  family : INetFamily
  raw : List Byte
  port : UInt16
  length_raw : raw.length = family.length
  deriving DecidableEq

namespace RawAddress

/-- `set_raw` with the address, over whatever was there. -/
def set (r : RawAddress) (prev : SocketAddress) : AddressStatus × SocketAddress :=
  AddressINet.setRaw prev r.family.toInt r.raw r.port

/-- The storage holds the address. -/
structure In (r : RawAddress) (a : SocketAddress) : Prop where
  family : a.family = r.family.saFamily
  sinPort : a.sinPort = htons r.port
  raw : (match r.family with | .inet => a.sinAddr | .inet6 => a.sin6Addr) = r.raw
  size : a.size = r.family.sizeofSockaddr

end RawAddress

open SocketAddress AddressINet

theorem htons_inj {v w : UInt16} : htons v = htons w ↔ v = w := by
  constructor
  · intro h
    rw [← ntohs_htons v, h, ntohs_htons]
  · rintro rfl
    rfl

theorem setRaw_inet {prev : SocketAddress} {family : Int} {raw : List Byte} (port : UInt16)
    (hfamily : UInt16.ofInt family = AF_INET) (hlen : raw.length = 4) :
    setRaw prev family raw port =
      (.ok, { ((prev.setFamily AF_INET).setSinPort (htons port)).setSinAddr raw with
        size := sizeofSockaddrIn }) := by
  simp only [setRaw, hfamily, family_setFamily, hlen, ne_eq, not_true_eq_false, if_true, if_false]
  rfl

theorem setRaw_inet6 {prev : SocketAddress} {family : Int} {raw : List Byte} (port : UInt16)
    (hfamily : UInt16.ofInt family = AF_INET6) (hlen : raw.length = 16) :
    setRaw prev family raw port =
      (.ok, { ((prev.setFamily AF_INET6).setSinPort (htons port)).setSin6Addr raw with
        size := sizeofSockaddrIn6 }) := by
  have hne : AF_INET6 ≠ AF_INET := by decide
  simp only [setRaw, hfamily, family_setFamily, hlen, hne, ne_eq, not_true_eq_false, if_true,
    if_false]
  rfl

/-- `set_raw` stores all of an address, whatever was there. -/
theorem RawAddress.set_spec (r : RawAddress) (prev : SocketAddress) :
    (r.set prev).1 = .ok ∧ r.In (r.set prev).2 := by
  obtain ⟨family, raw, port, hraw⟩ := r
  cases family with
  | inet =>
    have hlen : raw.length = 4 := hraw
    rw [RawAddress.set, setRaw_inet port rfl hlen]
    refine ⟨rfl, ⟨?_, ?_, ?_, rfl⟩⟩
    · exact (family_setSinAddr _ raw).trans ((family_setSinPort _ _).trans (family_setFamily _ _))
    · exact (sinPort_setSinAddr _ raw).trans (sinPort_setSinPort _ _)
    · exact sinAddr_setSinAddr _ hlen
  | inet6 =>
    have hlen : raw.length = 16 := hraw
    rw [RawAddress.set, setRaw_inet6 port rfl hlen]
    refine ⟨rfl, ⟨?_, ?_, ?_, rfl⟩⟩
    · exact (family_setSin6Addr _ raw).trans ((family_setSinPort _ _).trans (family_setFamily _ _))
    · exact (sinPort_setSin6Addr _ raw).trans (sinPort_setSinPort _ _)
    · exact sin6Addr_setSin6Addr _ hlen

theorem RawAddress.In.getPort {r : RawAddress} {a : SocketAddress} (h : r.In a) :
    getPort a = some r.port := by
  have hne : AF_INET6 ≠ AF_INET := by decide
  rw [AddressINet.getPort, h.family, h.sinPort, ntohs_htons]
  cases r.family <;> simp [INetFamily.saFamily, hne]

/-- `compare` tells addresses of the family `AF_INET` apart; two of the family `AF_INET6` are never
    equal to it. -/
theorem compare_of_in {r r' : RawAddress} {a a' : SocketAddress} (h : r.In a) (h' : r'.In a') :
    compare a a' = true ↔ r = r' ∧ r.family = .inet := by
  have hne : AF_INET6 ≠ AF_INET := by decide
  have hport := h.sinPort
  have hport' := h'.sinPort
  have hraw := h.raw
  have hraw' := h'.raw
  have hfam := h.family
  have hfam' := h'.family
  obtain ⟨family, raw, port, _⟩ := r
  obtain ⟨family', raw', port', _⟩ := r'
  simp only at hport hport' hraw hraw' hfam hfam'
  cases family with
  | inet =>
    cases family' with
    | inet =>
      simp only at hraw hraw'
      simp only [AddressINet.compare, hfam, hfam', INetFamily.saFamily, hraw, hraw', hport, hport',
        ne_eq, not_true_eq_false, if_false, if_true, Bool.and_eq_true, decide_eq_true_eq, htons_inj,
        RawAddress.mk.injEq, true_and, and_true]
    | inet6 =>
      simp [AddressINet.compare, hfam, hfam', INetFamily.saFamily, hne.symm]
  | inet6 =>
    cases family' <;> simp [AddressINet.compare, hfam, hfam', INetFamily.saFamily, hne]

/-- An address was set: the status, the port that is read back, and the size. -/
structure Faithful (r : RawAddress) (result : AddressStatus × SocketAddress) : Prop where
  status : result.1 = .ok
  port : getPort result.2 = some r.port
  size : result.2.size = r.family.sizeofSockaddr

theorem RawAddress.set_faithful (r : RawAddress) (prev : SocketAddress) :
    Faithful r (r.set prev) :=
  have h := r.set_spec prev
  ⟨h.1, h.2.getPort, h.2.size⟩

/-- Two addresses set from raw bytes are faithful, and `compare` is their equality except that an address
    of the family `AF_INET6` does not equal itself. -/
theorem raw_addresses_iff (r r' : RawAddress) (prev prev' : SocketAddress) :
    (Faithful r (r.set prev) ∧ Faithful r' (r'.set prev') ∧
      (compare (r.set prev).2 (r'.set prev').2 = true ↔ r = r')) ↔
        ¬ (r.family = .inet6 ∧ r = r') := by
  have hcompare := compare_of_in (r.set_spec prev).2 (r'.set_spec prev').2
  simp only [RawAddress.set_faithful, true_and, hcompare]
  cases r.family <;> simp

/-- The address `1::1` with the port 90, set twice, does not compare equal. -/
theorem inet6_not_equal_itself :
    let r : RawAddress := ⟨.inet6, [0, 1, 0, 0, 0, 0, 0, 0, 0, 0, 0, 0, 0, 0, 0, 1], 90, rfl⟩
    compare (r.set {}).2 (r.set {}).2 = false := by
  decide

/-! ### Addresses that are rejected -/

/-- A call that does not return `Ok` leaves the address as it was. -/
def KeepsOnFailure (result : AddressStatus × SocketAddress) (a : SocketAddress) : Prop :=
  result.1 ≠ .ok → result.2 = a

theorem keeps_commit (a b : SocketAddress) (capacity : Nat) :
    KeepsOnFailure (AddressChecker.commit b capacity) a :=
  fun h => absurd rfl h

theorem keeps_setFamily_iff {a : SocketAddress} {family : UInt16} {status : AddressStatus}
    (h : status ≠ .ok) :
    KeepsOnFailure (status, a.setFamily family) a ↔ a.family = family := by
  rw [← setFamily_eq_self_iff]
  exact ⟨fun hkeeps => hkeeps h, fun heq _ => heq⟩

namespace InetPton

/-- The text is an address of one of the families. -/
def parses (p : InetPton) (str : List Byte) : Prop :=
  match p.inet str, p.inet6 str with
  | .parsed _, _ => True
  | .unparsable, .parsed _ => True
  | _, _ => False

/-- The family that stands in the storage when both are given up. -/
def leaves (p : InetPton) (str : List Byte) : UInt16 :=
  match p.inet str with
  | .unsupported => AF_INET
  | _ => AF_INET6

end InetPton

theorem keeps_setAddress_iff (p : InetPton) (a : SocketAddress) (str : List Byte) :
    KeepsOnFailure (setAddress p a str) a ↔ p.parses str ∨ a.family = p.leaves str := by
  simp only [setAddress, InetPton.parses, InetPton.leaves, setFamily_setFamily]
  cases p.inet str with
  | parsed raw => simp [keeps_commit]
  | unsupported => simp [keeps_setFamily_iff]
  | unparsable => cases p.inet6 str <;> simp [keeps_commit, keeps_setFamily_iff]

theorem keeps_setPort (a : SocketAddress) (port : UInt16) : KeepsOnFailure (setPort a port) a := by
  simp only [setPort]
  split
  · exact keeps_commit a _ _
  split
  · exact keeps_commit a _ _
  · exact fun _ => rfl

/-- An address that was parsed has one of the two families. -/
theorem family_setAddress {p : InetPton} {a : SocketAddress} {str : List Byte}
    (h : (setAddress p a str).1 = .ok) :
    (setAddress p a str).2.family = AF_INET ∨ (setAddress p a str).2.family = AF_INET6 := by
  simp only [setAddress] at h ⊢
  cases hinet : p.inet str with
  | parsed raw =>
    left
    exact (family_setSinAddr _ _).trans (family_setFamily _ _)
  | unsupported => simp [hinet] at h
  | unparsable =>
    cases hinet6 : p.inet6 str with
    | parsed raw =>
      right
      exact (family_setSin6Addr _ _).trans (family_setFamily _ _)
    | unparsable => simp [hinet, hinet6] at h
    | unsupported => simp [hinet, hinet6] at h

theorem setPort_status {a : SocketAddress} (port : UInt16)
    (h : a.family = AF_INET ∨ a.family = AF_INET6) : (setPort a port).1 = .ok := by
  simp only [setPort]
  split
  · rfl
  · rename_i hne
    rw [if_pos (h.resolve_left hne)]
    rfl

/-- So the port can be set behind it, and `set_address_port` fails as `set_address` does. -/
theorem keeps_setAddressPort_iff (p : InetPton) (a : SocketAddress) (str : List Byte)
    (port : UInt16) : KeepsOnFailure (setAddressPort p a str port) a ↔
      KeepsOnFailure (setAddress p a str) a := by
  have hfamily := @family_setAddress p a str
  cases hset : setAddress p a str with
  | mk status b =>
    rw [hset] at hfamily
    cases status with
    | ok =>
      have hport := setPort_status port (hfamily rfl)
      simp [KeepsOnFailure, setAddressPort, hset, hport]
    | invalidAddress => simp [KeepsOnFailure, setAddressPort, hset]
    | unsupportedAddressFamily => simp [KeepsOnFailure, setAddressPort, hset]

/-- `set_raw` takes the arguments. -/
def RawAccepted (family : Int) (raw : List Byte) : Prop :=
  (UInt16.ofInt family = AF_INET ∧ raw.length = 4) ∨
    (UInt16.ofInt family = AF_INET6 ∧ raw.length = 16)

theorem keeps_setRaw_iff (a : SocketAddress) (family : Int) (raw : List Byte) (port : UInt16) :
    KeepsOnFailure (setRaw a family raw port) a ↔
      RawAccepted family raw ∨ a.family = UInt16.ofInt family := by
  simp only [setRaw, family_setFamily, RawAccepted]
  by_cases hinet : UInt16.ofInt family = AF_INET
  · have hne : AF_INET ≠ AF_INET6 := by decide
    by_cases hlen : raw.length = 4
    · simp [hinet, hlen, keeps_commit]
    · simp [hinet, hlen, hne, keeps_setFamily_iff]
  · by_cases hinet6 : UInt16.ofInt family = AF_INET6
    · have hne : AF_INET6 ≠ AF_INET := by decide
      by_cases hlen : raw.length = 16
      · simp [hinet6, hne, hlen, keeps_commit]
      · simp [hinet6, hne, hlen, keeps_setFamily_iff]
    · simp [hinet, hinet6, keeps_setFamily_iff]

/-- Each setter leaves the address when it does not return `Ok`: `set_port` always, the other three
    exactly where they take the argument or the family that they have stored is the one that was there. -/
theorem rejected_kept_iff (p : InetPton) (a : SocketAddress) (str : List Byte) (family : Int)
    (raw : List Byte) (port : UInt16) :
    (KeepsOnFailure (setAddress p a str) a ↔ p.parses str ∨ a.family = p.leaves str) ∧
    (KeepsOnFailure (setAddressPort p a str port) a ↔ p.parses str ∨ a.family = p.leaves str) ∧
    (KeepsOnFailure (setRaw a family raw port) a ↔
      RawAccepted family raw ∨ a.family = UInt16.ofInt family) ∧
    KeepsOnFailure (setPort a port) a :=
  ⟨keeps_setAddress_iff p a str,
    (keeps_setAddressPort_iff p a str port).trans (keeps_setAddress_iff p a str),
    keeps_setRaw_iff a family raw port, keeps_setPort a port⟩

/-- Neither family parses the text `"x"`: the address `1.2.3.4` becomes one of the family `AF_INET6` with
    the size of the other. -/
theorem rejected_not_kept :
    let p : InetPton := ⟨fun _ => .unparsable, fun _ => .unparsable⟩
    let a := (setRaw {} 2 [1, 2, 3, 4] 90).2
    (setAddress p a [120]).1 = .invalidAddress ∧ a.family = AF_INET ∧
      (setAddress p a [120]).2.family = AF_INET6 ∧ (setAddress p a [120]).2.size = 16 := by
  decide

end Jinx.Posix
