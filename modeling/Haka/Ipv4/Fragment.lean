import Haka.Stream.Stream

/-!
# IPv4 fragments

The fragments of a datagram wait in a list of the fragment table, sorted by their offsets, under
the key made of the addresses, the identification and the protocol. When the list has no hole and
its last fragment has no more-fragments flag, the payloads are put together in a buffer stream.

The fragment table is a function of the key here. The alerts and the release of dropped packets are
left out.
-/

namespace Haka

/-- The fields of `struct ipv4_header` that reassembly reads, in host byte order. -/
structure Ipv4Header where
  hdrLen : ℕ
  len : ℕ
  id : ℕ
  fragment : UInt16
  proto : ℕ
  src : ℕ
  dst : ℕ

/-- `struct ipv4`. The packet is named by its address. -/
structure Ipv4 where
  address : ℕ
  header : Ipv4Header
  dontReassemble : Bool
  packetPayload : Vbuffer

def ipv4GetHdrLen (ip : Ipv4) : ℕ := ip.header.hdrLen <<< 2

def ipv4GetLen (ip : Ipv4) : ℕ := ip.header.len

/-- `ipv4_get_frag_offset`: the low 13 bits, which count 8 bytes each. -/
def ipv4GetFragOffset (ip : Ipv4) : ℕ := (ip.header.fragment &&& 0x1fff).toNat <<< 3

def ipv4GetFlagsMf (ip : Ipv4) : Bool := ip.header.fragment &&& 0x2000 ≠ 0

/-- `struct ipv4_frag_key`. -/
structure Ipv4FragKey where
  src : ℕ
  dst : ℕ
  id : ℕ
  proto : ℕ
  deriving DecidableEq

/-- The key `ipv4_frag_table_insert` makes of the header. -/
def ipv4FragKey (ip : Ipv4) : Ipv4FragKey :=
  ⟨ip.header.src, ip.header.dst, ip.header.id, ip.header.proto⟩

/-- The loop of `ipv4_frag_check_missing_fragments`, or `none` when it ends without answer. -/
def checkLoop (lastOffset : ℕ) : List Ipv4 → Option Bool
  | [] => none
  | cur :: rest =>
    if ipv4GetFragOffset cur > lastOffset then some false
    else if !ipv4GetFlagsMf cur then some true
    else checkLoop (ipv4GetFragOffset cur + (ipv4GetLen cur - ipv4GetHdrLen cur)) rest

def ipv4FragCheckMissingFragments (list : List Ipv4) : Bool :=
  match checkLoop 0 list with
  | some r => r
  | none => (list.getLast?.map fun last => !ipv4GetFlagsMf last).getD true

/-- `ipv4_frag_insert`: the list, and whether it is complete. A packet without more-fragments flag
drops those behind it, and one that comes behind such a packet is dropped. -/
def ipv4FragInsert (list : List Ipv4) (pkt : Ipv4) : List Ipv4 × Bool :=
  let before := list.takeWhile fun cur => ipv4GetFragOffset cur < ipv4GetFragOffset pkt
  let after := list.dropWhile fun cur => ipv4GetFragOffset cur < ipv4GetFragOffset pkt
  match list.getLast? with
  | none => ([pkt], false)
  | some last =>
    match after with
    | [] =>
      if !ipv4GetFlagsMf last then (list, false)
      else (list ++ [pkt], ipv4FragCheckMissingFragments (list ++ [pkt]))
    | _ :: _ =>
      let list := before ++ pkt :: (if !ipv4GetFlagsMf pkt then [] else after)
      (list, ipv4FragCheckMissingFragments list)

/-- `struct ipv4_frag_table`. -/
abbrev Ipv4FragTable := Ipv4FragKey → Option (List Ipv4)

/-- `ipv4_frag_table_insert`: the table and, when the datagram is complete, its fragments. -/
def ipv4FragTableInsert (table : Ipv4FragTable) (pkt : Ipv4) : Ipv4FragTable × Option (List Ipv4) :=
  match table (ipv4FragKey pkt) with
  | some list =>
    let (list, ret) := ipv4FragInsert list pkt
    (Function.update table (ipv4FragKey pkt) (some list), if ret then some list else none)
  | none => (Function.update table (ipv4FragKey pkt) (some [pkt]), none)

/-- The loop of `ipv4_reassemble` that builds the payload. An overlapping fragment is cut at its
front, or dropped when it brings nothing. -/
def rebuildLoop (h : Heap) (payload : VbufferStream ℕ) (offset : ℕ) :
    List Ipv4 → Heap × VbufferStream ℕ
  | [] => (h, payload)
  | cur :: rest =>
    let curlen := vbufferSize cur.packetPayload
    if ipv4GetFragOffset cur ≠ offset then
      if ipv4GetFragOffset cur + curlen ≤ offset then rebuildLoop h payload offset rest
      else
        let erased := vbufferSubCreate cur.packetPayload 0 (some (offset - ipv4GetFragOffset cur))
        let (h₁, data, _) := vbufferErase h cur.packetPayload erased
        let (h₂, payload, _, _) := vbufferStreamPush h₁ payload data (some cur.address)
        rebuildLoop h₂ payload (offset + curlen) rest
    else
      let (h₁, payload, _, _) := vbufferStreamPush h payload cur.packetPayload (some cur.address)
      rebuildLoop h₁ payload (offset + curlen) rest

/-- `ipv4_reassemble`: the table and, if there is one, the datagram: its first packet and its
payload. -/
def ipv4Reassemble (h : Heap) (table : Ipv4FragTable) (ip : Ipv4) :
    Heap × Ipv4FragTable × Option (Ipv4 × Vbuffer) :=
  if ip.dontReassemble then (h, table, some (ip, ip.packetPayload))
  else if !ipv4GetFlagsMf ip && ipv4GetFragOffset ip = 0 then (h, table, some (ip, ip.packetPayload))
  else
    match ipv4FragTableInsert table ip with
    | (table, none) => (h, table, none)
    | (table, some list) =>
      let first := list.headD ip
      let (h₁, payload) := vbufferStreamInit h
      let (h₂, payload) := rebuildLoop h₁ payload 0 list
      (h₂, Function.update table (ipv4FragKey ip) none,
        some (first, (vbufferStreamFinish payload).data))

end Haka
