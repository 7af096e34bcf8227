import Orchids.Lib.Except
import Orchids.Mod.Syslog

/-!
# Wireless frames (`mod_wifi.c`)

`wifi_pcap_callback` on a link of `DLT_PRISM_HEADER`, where a read from `caplen` on is a crash. The time
of the event is left out.

* `wifiPcapCallback`: the fields of a capture.
* `Describes`: the fields are those of the frame: the addresses and the direction by its direction bits,
  the sequence number, and the length of what is after its header.
* `decodes_iff`: for which captures it is so.
-/

namespace Orchids

namespace Wifi

/-- A packet of the capture library, as long as a `bpf_u_int32` says. -/
structure Capture where
  bytes : List UInt8
  length_lt : bytes.length < 2 ^ 32

namespace Capture

variable (p : Capture)

/-- `pkthdr->caplen` -/
def caplen : Nat := p.bytes.length

/-- `n` bytes of the packet. -/
def read (i n : Nat) : Except Reject (List UInt8) :=
  if i + n ≤ p.caplen then .ok ((p.bytes.drop i).take n) else .error (.crash .overread)

end Capture

/-- A number with its lowest byte first. -/
def leNat : List UInt8 → Nat
  | [] => 0
  | b :: l => b.toNat + 256 * leNat l

/-- `%.2x` -/
def hexByte (b : UInt8) : CStr :=
  [b.toNat / 16, b.toNat % 16].map fun d => UInt8.ofNat (if d < 10 then 48 + d else 87 + d)

/-- `%.2x:%.2x:%.2x:%.2x:%.2x:%.2x` -/
def macText (addr : List UInt8) : CStr := List.intercalate [58] (addr.map hexByte)

/-- `attr`, without the time. -/
structure Attr where
  type : Option CStr := none
  subtype : Option CStr := none
  da : Option CStr := none
  sa : Option CStr := none
  bssid : Option CStr := none
  ta : Option CStr := none
  ra : Option CStr := none
  dir : Option CStr := none
  seqnum : Option Int := none
  iswep : Option Int := none
  bodylength : Option Int := none
  rssi : Option Int := none
  deriving DecidableEq

/-- The size of `struct prism2_header_s`. -/
def prismLen : Nat := 144

/-- The offset of `rssi.data`. -/
def rssiOffset : Nat := 68

/-! The members of `struct ieee80211_header_s`. -/

def addr1 : Nat := 4
def addr2 : Nat := 10
def addr3 : Nat := 16
def seqnum : Nat := 22
def addr4 : Nat := 24

def mgtSubtypes : List (Nat × CStr) :=
  [(0x00, ascii "assocreq"), (0x10, ascii "assocresp"), (0x40, ascii "probereq"),
   (0x50, ascii "proberesp"), (0x80, ascii "beacon"), (0xa0, ascii "disassoc"), (0xb0, ascii "auth"),
   (0xc0, ascii "deauth")]

def dataSubtypes : List (Nat × CStr) :=
  [(0x00, ascii "data"), (0x10, ascii "datacfack"), (0x20, ascii "datacfpoll"),
   (0x30, ascii "datacfacpl"), (0x40, ascii "nodata")]

/-- The name of a subtype. -/
def subtypeName (table : List (Nat × CStr)) (unknown : CStr) (subtype : Nat) : CStr :=
  (table.lookup subtype).getD unknown

section

variable (p : Capture)

/-- `GETADDR` -/
def getAddr (addr : Nat) : Except Reject CStr := do return macText (← p.read (prismLen + addr) 6)

/-- `(mac_header->seqnum & SEQ_MASK) >> SEQ_SHIFT` -/
def getSeqnum : Except Reject Int := do
  return (((leNat (← p.read (prismLen + seqnum) 2) &&& 0xfff0) >>> 4 : Nat) : Int)

/-- `pkthdr->caplen - 144 - n`, of unsigned numbers. -/
def bodyLength (n : Nat) : Int := (BitVec.ofNat 32 p.caplen - 144 - BitVec.ofNat 32 n).toNat

/-- `case TYPE_MGT` -/
def management (subtype : Nat) (attr : Attr) : Except Reject Attr := do
  let seqnum ← getSeqnum p
  let da ← getAddr p addr1
  let sa ← getAddr p addr2
  let bssid ← getAddr p addr3
  return { attr with
    type := ascii "management", seqnum, da, sa, bssid
    subtype := subtypeName mgtSubtypes (ascii "unknown_mgmt_subtype") subtype }

/-- `case TYPE_CTL` -/
def control (subtype : Nat) (attr : Attr) : Except Reject Attr := do
  let attr := { attr with type := ascii "control" }
  if subtype = 0xb0 then
    let ra ← getAddr p addr1
    let ta ← getAddr p addr2
    return { attr with subtype := ascii "rts", ra, ta }
  else if subtype = 0xc0 then
    let ra ← getAddr p addr1
    return { attr with subtype := ascii "cts", ra }
  else if subtype = 0xd0 then
    let ra ← getAddr p addr1
    return { attr with subtype := ascii "ack", ra }
  else return { attr with subtype := ascii "unknown_ctl_subtype" }

/-- `case TYPE_DATA` -/
def data (subtype fc1 : Nat) (attr : Attr) : Except Reject Attr := do
  let seqnum ← getSeqnum p
  let attr := { attr with
    type := ascii "data", iswep := (((fc1 &&& 0x40) / 64 : Nat) : Int), seqnum
    subtype := subtypeName dataSubtypes (ascii "unknown_data_subtype") subtype }
  match fc1 &&& 0x03 with
  | 0 =>
    let attr := { attr with dir := ascii "nods", bodylength := bodyLength p 28 }
    let da ← getAddr p addr1
    let sa ← getAddr p addr2
    let bssid ← getAddr p addr3
    return { attr with da, sa, bssid }
  | 1 =>
    let attr := { attr with dir := ascii "tods", bodylength := bodyLength p 28 }
    let bssid ← getAddr p addr1
    let sa ← getAddr p addr2
    let da ← getAddr p addr3
    return { attr with bssid, sa, da }
  | 2 =>
    let attr := { attr with dir := ascii "fromds", bodylength := bodyLength p 28 }
    let da ← getAddr p addr1
    let bssid ← getAddr p addr2
    let sa ← getAddr p addr3
    return { attr with da, bssid, sa }
  | 3 =>
    -- the text that is copied is not the one whose length is taken
    let attr := { attr with dir := ascii "fromds", bodylength := bodyLength p 34 }
    let ra ← getAddr p addr1
    let ta ← getAddr p addr2
    let da ← getAddr p addr3
    let sa ← getAddr p addr4
    return { attr with ra, ta, da, sa }
  | _ => return attr

/-- `wifi_pcap_callback` -/
def wifiPcapCallback : Except Reject Attr := do
  let rssi := leNat (← p.read rssiOffset 4)
  let attr : Attr := { rssi := (rssi : Int) }
  let fc0 := leNat (← p.read prismLen 1)
  let fc1 := leNat (← p.read (prismLen + 1) 1)
  match fc0 &&& 0x0c with
  | 0x00 => management p (fc0 &&& 0xf0) attr
  | 0x04 => control p (fc0 &&& 0xf0) attr
  | 0x08 => data p (fc0 &&& 0xf0) fc1 attr
  | _ => return attr

end

/-! ## Frames -/

/-- The offsets of the addresses that a frame has. -/
structure Roles where
  da : Option Nat := none
  sa : Option Nat := none
  bssid : Option Nat := none
  ta : Option Nat := none
  ra : Option Nat := none

/-- The roles of the addresses of a data frame, by its direction. -/
def dirRoles : Nat → Roles
  | 0 => { da := addr1, sa := addr2, bssid := addr3 }
  | 1 => { bssid := addr1, sa := addr2, da := addr3 }
  | 2 => { da := addr1, bssid := addr2, sa := addr3 }
  | _ => { ra := addr1, ta := addr2, da := addr3, sa := addr4 }

/-- The addresses of a control frame. -/
def controlRoles (subtype : Nat) : Roles :=
  if subtype = 0xb0 then { ra := addr1, ta := addr2 }
  else if subtype = 0xc0 ∨ subtype = 0xd0 then { ra := addr1 }
  else {}

def dirName : Nat → CStr
  | 0 => ascii "nods"
  | 1 => ascii "tods"
  | 2 => ascii "fromds"
  | _ => ascii "dstods"

namespace Capture

variable (p : Capture)

def part (i n : Nat) : List UInt8 := (p.bytes.drop i).take n

/-- The first byte of the frame control. -/
def fc0 : Nat := leNat (p.part prismLen 1)

/-- The second byte of the frame control. -/
def fc1 : Nat := leNat (p.part (prismLen + 1) 1)

def type : Nat := p.fc0 &&& 0x0c

def subtype : Nat := p.fc0 &&& 0xf0

/-- The direction bits. -/
def dir : Nat := p.fc1 &&& 0x03

/-- The roles of the addresses of the frame. -/
def roles : Roles :=
  if p.type = 0x00 then { da := addr1, sa := addr2, bssid := addr3 }
  else if p.type = 0x04 then controlRoles p.subtype
  else if p.type = 0x08 then dirRoles p.dir
  else {}

def address (addr : Nat) : CStr := macText (p.part (prismLen + addr) 6)

/-- The sequence number: the sequence control without its four lowest bits. -/
def sequence : Int := (leNat (p.part (prismLen + seqnum) 2) / 16 : Nat)

/-- The header of a data frame: a fourth address between two access points, and the QoS control if
the highest bit of the subtype is set. -/
def headerLen : Nat :=
  24 + (if p.type = 0x08 ∧ p.dir = 3 then 6 else 0) +
    if p.type = 0x08 ∧ p.subtype &&& 0x80 = 0x80 then 2 else 0

/-- How much is looked at of the header: the frame control, and the addresses of the frame. -/
def looked : Nat :=
  if p.type = 0x00 then 24
  else if p.type = 0x04 then
    if p.subtype = 0xb0 then 16 else if p.subtype = 0xc0 ∨ p.subtype = 0xd0 then 10 else 2
  else if p.type = 0x08 then if p.dir = 3 then 30 else 24
  else 2

end Capture

/-- The fields are those of the frame; the last `fcs` bytes are not counted as its body. -/
structure Describes (fcs : Nat) (p : Capture) (attr : Attr) : Prop where
  da : attr.da = p.roles.da.map p.address
  sa : attr.sa = p.roles.sa.map p.address
  bssid : attr.bssid = p.roles.bssid.map p.address
  ta : attr.ta = p.roles.ta.map p.address
  ra : attr.ra = p.roles.ra.map p.address
  dir : attr.dir = if p.type = 0x08 then some (dirName p.dir) else none
  seqnum : attr.seqnum = if p.type = 0x00 ∨ p.type = 0x08 then some p.sequence else none
  body : ∀ n, attr.bodylength = some n →
    0 ≤ n ∧ n = (p.caplen : Int) - (prismLen + p.headerLen : Nat) - fcs

/-- Nothing is read from `caplen` on, and the fields are those of the frame. -/
def Decodes (fcs : Nat) (p : Capture) : Prop :=
  ∃ attr, wifiPcapCallback p = .ok attr ∧ Describes fcs p attr

/-! ## Reads -/

section

variable {p : Capture} {attr attr' : Attr}

theorem read_eq_ok {i n : Nat} {l : List UInt8} :
    p.read i n = .ok l ↔ i + n ≤ p.caplen ∧ p.part i n = l := by
  rw [Capture.read]
  split
  · rename_i hle
    rw [Except.ok.injEq]
    exact (and_iff_right hle).symm
  · rename_i hgt
    exact iff_of_false nofun fun h => hgt h.1

theorem getAddr_eq_ok {addr : Nat} {a : CStr} :
    getAddr p addr = .ok a ↔ prismLen + addr + 6 ≤ p.caplen ∧ p.address addr = a := by
  rw [getAddr, bind_eq_ok]
  constructor
  · rintro ⟨l, hread, hl⟩
    obtain ⟨hle, rfl⟩ := read_eq_ok.mp hread
    exact ⟨hle, Except.ok.inj hl⟩
  · rintro ⟨hle, rfl⟩
    exact ⟨_, read_eq_ok.mpr ⟨hle, rfl⟩, rfl⟩

theorem leNat_lt (l : List UInt8) : leNat l < 256 ^ l.length := by
  induction l with
  | nil => exact Nat.one_pos
  | cons b l ih =>
    have hb : b.toNat < 256 := b.toNat_lt
    rw [leNat, List.length_cons, Nat.pow_succ]
    omega

/-- The mask and the shift are a division. -/
theorem mask_shift {n : Nat} (h : n < 65536) : (n &&& 0xfff0) >>> 4 = n / 16 := by
  rw [Nat.shiftRight_and_distrib, Nat.shiftRight_eq_div_pow]
  have hmod : n / 2 ^ 4 &&& 2 ^ 12 - 1 = n / 2 ^ 4 % 2 ^ 12 := Nat.and_two_pow_sub_one_eq_mod _ 12
  exact hmod.trans (Nat.mod_eq_of_lt (by omega))

theorem getSeqnum_eq_ok {n : Int} :
    getSeqnum p = .ok n ↔ prismLen + seqnum + 2 ≤ p.caplen ∧ p.sequence = n := by
  have hlt : leNat (p.part (prismLen + seqnum) 2) < 65536 := by
    refine Nat.lt_of_lt_of_le (leNat_lt _) (Nat.pow_le_pow_right (show 0 < 256 by decide)
      (List.length_take_le 2 _))
  rw [getSeqnum, bind_eq_ok]
  constructor
  · rintro ⟨l, hread, hl⟩
    obtain ⟨hle, rfl⟩ := read_eq_ok.mp hread
    rw [mask_shift hlt] at hl
    exact ⟨hle, Except.ok.inj hl⟩
  · rintro ⟨hle, rfl⟩
    refine ⟨_, read_eq_ok.mpr ⟨hle, rfl⟩, ?_⟩
    rw [mask_shift hlt]
    rfl

theorem getSeqnum_bind_eq_ok {f : Int → Except Reject Attr} :
    (getSeqnum p >>= f) = .ok attr ↔ prismLen + seqnum + 2 ≤ p.caplen ∧ f p.sequence = .ok attr := by
  simp only [bind_eq_ok, getSeqnum_eq_ok, and_assoc, exists_and_left, exists_eq_left']

theorem getAddr_bind_eq_ok {addr : Nat} {f : CStr → Except Reject Attr} :
    (getAddr p addr >>= f) = .ok attr ↔
      prismLen + addr + 6 ≤ p.caplen ∧ f (p.address addr) = .ok attr := by
  simp only [bind_eq_ok, getAddr_eq_ok, and_assoc, exists_and_left, exists_eq_left']

/-- The addresses of the frame, in the fields of their roles. -/
def withRoles (p : Capture) (r : Roles) (attr : Attr) : Attr :=
  { attr with
    da := r.da.map p.address, sa := r.sa.map p.address, bssid := r.bssid.map p.address
    ta := r.ta.map p.address, ra := r.ra.map p.address }

/-- The sequence number is behind the first three addresses. -/
theorem three_reads {n : Nat} {P : Prop} :
    (prismLen + seqnum + 2 ≤ n ∧ prismLen + addr1 + 6 ≤ n ∧ prismLen + addr2 + 6 ≤ n ∧
      prismLen + addr3 + 6 ≤ n ∧ P) ↔ 168 ≤ n ∧ P := by
  simp only [prismLen, seqnum, addr1, addr2, addr3]
  constructor
  · rintro ⟨hle, -, -, -, h⟩
    exact ⟨hle, h⟩
  · rintro ⟨hle, h⟩
    exact ⟨hle, by omega, by omega, by omega, h⟩

theorem pure_eq_ok {a a' : Attr} : (pure a : Except Reject Attr) = .ok a' ↔ a = a' :=
  Iff.of_eq (Except.ok.injEq a a')

/-- What is set for every frame. -/
def withRssi (p : Capture) : Attr := { rssi := some (leNat (p.part rssiOffset 4) : Int) }

/-- What a frame of management gives. -/
theorem management_eq_ok {subtype : Nat} :
    management p subtype (withRssi p) = .ok attr ↔ 168 ≤ p.caplen ∧
      withRoles p { da := addr1, sa := addr2, bssid := addr3 }
        { withRssi p with
          type := ascii "management", seqnum := p.sequence
          subtype := subtypeName mgtSubtypes (ascii "unknown_mgmt_subtype") subtype } = attr := by
  rw [management, getSeqnum_bind_eq_ok, getAddr_bind_eq_ok, getAddr_bind_eq_ok, getAddr_bind_eq_ok,
    pure_eq_ok]
  exact three_reads

theorem dir_cases (p : Capture) : p.dir = 0 ∨ p.dir = 1 ∨ p.dir = 2 ∨ p.dir = 3 := by
  have hle : p.dir ≤ 3 := Nat.and_le_right
  omega

/-- What a data frame gives. -/
theorem data_eq_ok {subtype : Nat} :
    data p subtype p.fc1 (withRssi p) = .ok attr ↔
      prismLen + (if p.dir = 3 then 30 else 24) ≤ p.caplen ∧
        withRoles p (dirRoles p.dir)
          { withRssi p with
            type := ascii "data", iswep := some ((p.fc1 &&& 0x40) / 64 : Nat), seqnum := p.sequence
            subtype := subtypeName dataSubtypes (ascii "unknown_data_subtype") subtype
            dir := if p.dir = 3 then ascii "fromds" else dirName p.dir
            bodylength := bodyLength p (if p.dir = 3 then 34 else 28) } = attr := by
  have hdir : p.fc1 &&& 0x03 = p.dir := rfl
  rw [data, getSeqnum_bind_eq_ok, hdir]
  rcases dir_cases p with hd | hd | hd | hd <;> rw [hd] <;>
    simp only [getAddr_bind_eq_ok, pure_eq_ok]
  · exact three_reads
  · exact three_reads
  · exact three_reads
  · rw [three_reads]
    refine ⟨fun h => h.2, fun h => ?_⟩
    have hle : 174 ≤ p.caplen := h.1
    exact ⟨by omega, h⟩

/-- What a control frame gives. -/
theorem control_eq_ok {subtype : Nat} (hmin : 146 ≤ p.caplen) :
    control p subtype (withRssi p) = .ok attr ↔
      prismLen + (if subtype = 0xb0 then 16 else if subtype = 0xc0 ∨ subtype = 0xd0 then 10 else 2) ≤
          p.caplen ∧
        withRoles p (controlRoles subtype)
          { withRssi p with
            type := ascii "control"
            subtype := if subtype = 0xb0 then ascii "rts" else if subtype = 0xc0 then ascii "cts"
              else if subtype = 0xd0 then ascii "ack" else ascii "unknown_ctl_subtype" } = attr := by
  rw [control, controlRoles]
  by_cases hb0 : subtype = 0xb0
  · simp only [hb0, if_true, getAddr_bind_eq_ok, pure_eq_ok]
    refine ⟨fun h => h.2, fun h => ⟨?_, h⟩⟩
    have hle : 160 ≤ p.caplen := h.1
    exact Nat.le_trans (by decide) hle
  · rw [if_neg hb0, if_neg hb0, if_neg hb0, if_neg hb0]
    by_cases hc0 : subtype = 0xc0
    · rw [if_pos hc0, if_pos (.inl hc0), if_pos (.inl hc0), if_pos hc0, getAddr_bind_eq_ok, pure_eq_ok]
      exact Iff.rfl
    · rw [if_neg hc0, if_neg hc0]
      by_cases hd0 : subtype = 0xd0
      · rw [if_pos hd0, if_pos (.inr hd0), if_pos (.inr hd0), if_pos hd0, getAddr_bind_eq_ok,
          pure_eq_ok]
        exact Iff.rfl
      · rw [if_neg hd0, if_neg (not_or.mpr ⟨hc0, hd0⟩), if_neg (not_or.mpr ⟨hc0, hd0⟩), if_neg hd0,
          pure_eq_ok]
        exact (and_iff_right hmin).symm

/-- The part of the source that the type of the frame chooses. -/
theorem callback_eq_ok : wifiPcapCallback p = .ok attr ↔ 146 ≤ p.caplen ∧
    (match p.type with
      | 0x00 => management p p.subtype (withRssi p)
      | 0x04 => control p p.subtype (withRssi p)
      | 0x08 => data p p.subtype p.fc1 (withRssi p)
      | _ => pure (withRssi p)) = .ok attr := by
  simp only [wifiPcapCallback, bind_eq_ok, read_eq_ok, and_assoc, exists_and_left, exists_eq_left']
  constructor
  · rintro ⟨-, -, hle, h⟩
    exact ⟨hle, h⟩
  · rintro ⟨hle, h⟩
    simp only [prismLen, rssiOffset]
    exact ⟨by omega, by omega, hle, h⟩

/-- The body length is a difference of unsigned numbers. -/
theorem bodyLength_emod {n : Nat} :
    bodyLength p n = (((p.caplen : Int) - (prismLen + n : Nat)) % 2 ^ 32 : Int) := by
  have hlt : p.caplen < 2 ^ 32 := p.length_lt
  have h144 : (144 : BitVec 32).toNat = 144 := rfl
  simp only [bodyLength, prismLen, BitVec.toNat_sub, BitVec.toNat_ofNat, h144]
  omega

/-- The body length is what is after the header, without `fcs` bytes, or it is of a shorter frame. -/
theorem bodyLength_iff {n h fcs : Nat} (hn : n < 2 ^ 31) :
    (∀ m, some (bodyLength p n) = some m →
        0 ≤ m ∧ m = (p.caplen : Int) - (prismLen + h : Nat) - fcs) ↔
      n = h + fcs ∧ prismLen + n ≤ p.caplen := by
  have hlt : p.caplen < 2 ^ 32 := p.length_lt
  have hmod := @bodyLength_emod p n
  constructor
  · intro hall
    obtain ⟨hpos, heq⟩ := hall _ rfl
    simp only [prismLen] at hmod heq ⊢
    omega
  · rintro ⟨rfl, hle⟩ m hm
    obtain rfl := Option.some.inj hm
    omega

/-- A frame that is read up to `n`, and has its addresses in the fields of their roles, is described
when its other fields are its own. -/
theorem decodes_of_eq_ok {fcs n : Nat} {r : Roles} {a : Attr} (hroles : p.roles = r)
    (hrun : ∀ attr, wifiPcapCallback p = .ok attr ↔
      146 ≤ p.caplen ∧ n ≤ p.caplen ∧ withRoles p r a = attr) :
    Decodes fcs p ↔ (146 ≤ p.caplen ∧ n ≤ p.caplen) ∧
      a.dir = (if p.type = 0x08 then some (dirName p.dir) else none) ∧
      a.seqnum = (if p.type = 0x00 ∨ p.type = 0x08 then some p.sequence else none) ∧
      ∀ n, a.bodylength = some n →
        0 ≤ n ∧ n = (p.caplen : Int) - (prismLen + p.headerLen : Nat) - fcs := by
  subst hroles
  constructor
  · rintro ⟨attr, hok, hd⟩
    obtain ⟨hmin, hle, rfl⟩ := (hrun attr).mp hok
    exact ⟨⟨hmin, hle⟩, hd.dir, hd.seqnum, hd.body⟩
  · rintro ⟨⟨hmin, hle⟩, hdir, hseq, hbody⟩
    exact ⟨_, (hrun _).mpr ⟨hmin, hle, rfl⟩, rfl, rfl, rfl, rfl, rfl, hdir, hseq, hbody⟩

theorem type_cases (p : Capture) : p.type = 0 ∨ p.type = 4 ∨ p.type = 8 ∨ p.type = 12 := by
  have hle : p.type ≤ 12 := Nat.and_le_right
  have hmod : p.type % 4 = 0 := by
    rw [Capture.type]
    exact (@Nat.and_mod_two_pow p.fc0 12 2).trans (Nat.and_zero _)
  omega

theorem decodes_management (fcs : Nat) (ht : p.type = 0x00) :
    Decodes fcs p ↔ 146 ≤ p.caplen ∧ prismLen + p.looked ≤ p.caplen := by
  have hlooked : p.looked = 24 := if_pos ht
  have hcase : ∀ attr, wifiPcapCallback p = .ok attr ↔
      146 ≤ p.caplen ∧ management p p.subtype (withRssi p) = .ok attr := fun attr => by
    rw [callback_eq_ok, ht]
    exact Iff.rfl
  have hrun := fun attr => (hcase attr).trans (and_congr_right fun _ => management_eq_ok)
  have hne : ¬ p.type = 0x08 := by rw [ht]; decide
  rw [decodes_of_eq_ok (if_pos ht) hrun, if_neg hne, if_pos (.inl ht), hlooked]
  exact ⟨fun h => h.1, fun h => ⟨h, rfl, rfl, nofun⟩⟩

theorem decodes_control (fcs : Nat) (ht : p.type = 0x04) :
    Decodes fcs p ↔ 146 ≤ p.caplen ∧ prismLen + p.looked ≤ p.caplen := by
  have hne : ¬ p.type = 0x00 := by rw [ht]; decide
  have hne' : ¬ p.type = 0x08 := by rw [ht]; decide
  have hlooked : p.looked = if p.subtype = 0xb0 then 16
      else if p.subtype = 0xc0 ∨ p.subtype = 0xd0 then 10 else 2 := by
    rw [Capture.looked, if_neg hne, if_pos ht]
  have hroles : p.roles = controlRoles p.subtype := by rw [Capture.roles, if_neg hne, if_pos ht]
  have hcase : ∀ attr, wifiPcapCallback p = .ok attr ↔
      146 ≤ p.caplen ∧ control p p.subtype (withRssi p) = .ok attr := fun attr => by
    rw [callback_eq_ok, ht]
    exact Iff.rfl
  have hrun := fun attr => (hcase attr).trans (and_congr_right fun hmin => control_eq_ok hmin)
  rw [decodes_of_eq_ok hroles hrun, if_neg hne', if_neg (not_or.mpr ⟨hne, hne'⟩), hlooked]
  exact ⟨fun h => h.1, fun h => ⟨h, rfl, rfl, nofun⟩⟩

/-- The length of the body of a data frame counts 28 bytes as its header, and the fourth direction has
the name of the third. -/
theorem decodes_data (fcs : Nat) (ht : p.type = 0x08) :
    Decodes fcs p ↔ (146 ≤ p.caplen ∧ prismLen + p.looked ≤ p.caplen) ∧
      p.dir ≠ 3 ∧ p.headerLen + fcs = 28 ∧ 172 ≤ p.caplen := by
  have hne : ¬ p.type = 0x00 := by rw [ht]; decide
  have hne' : ¬ p.type = 0x04 := by rw [ht]; decide
  have hlooked : p.looked = if p.dir = 3 then 30 else 24 := by
    rw [Capture.looked, if_neg hne, if_neg hne', if_pos ht]
  have hroles : p.roles = dirRoles p.dir := by rw [Capture.roles, if_neg hne, if_neg hne', if_pos ht]
  have hcase : ∀ attr, wifiPcapCallback p = .ok attr ↔
      146 ≤ p.caplen ∧ data p p.subtype p.fc1 (withRssi p) = .ok attr := fun attr => by
    rw [callback_eq_ok, ht]
    exact Iff.rfl
  have hrun := fun attr => (hcase attr).trans (and_congr_right fun _ => data_eq_ok)
  have hseq : p.type = 0x00 ∨ p.type = 0x08 := .inr ht
  rw [decodes_of_eq_ok hroles hrun, if_pos ht, if_pos hseq, hlooked]
  refine and_congr_right fun hle => ?_
  by_cases hd : p.dir = 3
  · refine iff_of_false (fun h => ?_) fun h => h.1 hd
    have hname : (if p.dir = 3 then some (ascii "fromds") else some (dirName p.dir)) =
        some (dirName p.dir) := h.1
    rw [if_pos hd, hd] at hname
    exact absurd hname (by decide)
  · simp only [if_neg hd] at hle ⊢
    refine (and_congr_right fun _ => and_congr_right fun _ => bodyLength_iff (by decide)).trans ?_
    simp only [prismLen, true_and, not_false_eq_true, ne_eq, hd]
    omega

theorem decodes_reserved (fcs : Nat) (ht : p.type = 0x0c) :
    Decodes fcs p ↔ 146 ≤ p.caplen ∧ prismLen + p.looked ≤ p.caplen := by
  have hne : ¬ p.type = 0x00 := by rw [ht]; decide
  have hne' : ¬ p.type = 0x04 := by rw [ht]; decide
  have hne'' : ¬ p.type = 0x08 := by rw [ht]; decide
  have hlooked : p.looked = 2 := by rw [Capture.looked, if_neg hne, if_neg hne', if_neg hne'']
  have hroles : p.roles = {} := by rw [Capture.roles, if_neg hne, if_neg hne', if_neg hne'']
  have hcase : ∀ attr, wifiPcapCallback p = .ok attr ↔
      146 ≤ p.caplen ∧ prismLen + 2 ≤ p.caplen ∧ withRoles p {} (withRssi p) = attr := fun attr => by
    rw [callback_eq_ok, ht]
    exact and_congr_right fun hmin => pure_eq_ok.trans (and_iff_right hmin).symm
  rw [decodes_of_eq_ok hroles hcase, if_neg hne'', if_neg (not_or.mpr ⟨hne, hne''⟩), hlooked]
  exact ⟨fun h => h.1, fun h => ⟨h, rfl, rfl, nofun⟩⟩

end

/-- The fields are those of the frame, and no byte behind the capture is read, exactly when the capture
has the header up to the last part that the frame's type makes the source look at, and a data frame is
not one between two access points, has a header and a check sequence of 28 bytes, and has them. -/
theorem decodes_iff (fcs : Nat) (p : Capture) :
    Decodes fcs p ↔ (146 ≤ p.caplen ∧ prismLen + p.looked ≤ p.caplen) ∧
      (p.type = 0x08 → p.dir ≠ 3 ∧ p.headerLen + fcs = 28 ∧ 172 ≤ p.caplen) := by
  rcases type_cases p with ht | ht | ht | ht
  · rw [decodes_management fcs ht]
    exact (and_iff_left fun h => absurd (ht.symm.trans h) (by decide)).symm
  · rw [decodes_control fcs ht]
    exact (and_iff_left fun h => absurd (ht.symm.trans h) (by decide)).symm
  · rw [decodes_data fcs ht]
    exact and_congr_right fun _ => ⟨fun h _ => h, fun h => h ht⟩
  · rw [decodes_reserved fcs ht]
    exact (and_iff_left fun h => absurd (ht.symm.trans h) (by decide)).symm

/-- A frame of management that ends in its addresses is read behind the capture. -/
theorem not_decodes : ¬ Decodes 0 ⟨List.replicate 150 0, by rw [List.length_replicate]; decide⟩ := by
  intro h
  have hle : 168 ≤ 150 := ((decodes_management 0 rfl).mp h).2
  exact absurd hle (by decide)

end Wifi

end Orchids
