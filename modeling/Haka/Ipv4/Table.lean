import Haka.Ipv4.Reassembly
import Haka.Lib.Assoc

/-!
# The hash table of the fragments

`ipv4_frag_table_insert` builds the key of a fragment in a local variable and stores the pointer to
that variable in the table. A later lookup compares what the stored pointer designates at that time,
in a frame that is gone: the key that is looked up itself, when the variable is at the same address
again. So a lookup finds any entry of the right bucket, or misses the entry of its own key.

While each lookup finds the entry of its key and no other, the hash table refines the table that is a
function of the key (`hashStep_refines`).
-/

namespace Haka

open Machine Assoc

/-! ## Keys in memory -/

/-- The bytes of a number in network order, `n` of them. -/
def networkBytes : ℕ → ℕ → List UInt8
  | 0, _ => []
  | n + 1, x => networkBytes n (x / 256) ++ [UInt8.ofNat x]

/-- The 12 bytes of `struct ipv4_frag_key`. The protocol is a number of the (little endian) host,
the rest is as in the header. -/
def keyBytes (key : Ipv4FragKey) : List UInt8 :=
  networkBytes 4 key.src ++ networkBytes 4 key.dst ++ networkBytes 2 key.id ++
    (networkBytes 2 key.proto).reverse

def hashJenMix (a b c : UInt32) : UInt32 × UInt32 × UInt32 :=
  let a := (a - b - c) ^^^ (c >>> 13)
  let b := (b - c - a) ^^^ (a <<< 8)
  let c := (c - a - b) ^^^ (b >>> 13)
  let a := (a - b - c) ^^^ (c >>> 12)
  let b := (b - c - a) ^^^ (a <<< 16)
  let c := (c - a - b) ^^^ (b >>> 5)
  let a := (a - b - c) ^^^ (c >>> 3)
  let b := (b - c - a) ^^^ (a <<< 10)
  let c := (c - a - b) ^^^ (b >>> 15)
  (a, b, c)

/-- The sum of four bytes of the key that `HASH_JEN` takes at once. -/
def hashJenWord (key : List UInt8) (i : ℕ) : UInt32 :=
  (key.getD i 0).toUInt32 + ((key.getD (i + 1) 0).toUInt32 <<< 8) +
    ((key.getD (i + 2) 0).toUInt32 <<< 16) + ((key.getD (i + 3) 0).toUInt32 <<< 24)

/-- `HASH_JEN` at a key of 12 bytes: one round of the loop and an empty rest. -/
def hashJen (key : List UInt8) : UInt32 :=
  let (i, j, hashv) := hashJenMix (0x9e3779b9 + hashJenWord key 0) (0x9e3779b9 + hashJenWord key 4)
    (0xfeedbeef + hashJenWord key 8)
  (hashJenMix i j (hashv + 12)).2.2

def hashToBkt (hashv numBuckets : UInt32) : UInt32 := hashv &&& (numBuckets - 1)

/-- `struct ipv4_frag_elem`: the key pointer and the hash value of its `hh`, and the list. -/
structure Ipv4FragElem where
  key : ℕ
  hashv : UInt32
  list : List Ipv4

/-- A call of `ipv4_reassemble`: the address of its variable `key`, the other memory, the number of
buckets of the table, the heap and the packet. -/
structure FragCall where
  frame : ℕ
  memory : ℕ → UInt8
  numBuckets : UInt32
  heap : Heap
  packet : Ipv4

namespace FragCall

def key (c : FragCall) : List UInt8 := keyBytes (ipv4FragKey c.packet)

def byteAt (c : FragCall) (address : ℕ) : UInt8 :=
  if c.frame ≤ address ∧ address < c.frame + 12 then c.key.getD (address - c.frame) 0
  else c.memory address

/-- The test of `HASH_FIND`: the element is in the bucket of the key, and its key pointer designates
the bytes of the key. -/
def designates (c : FragCall) (e : Ipv4FragElem) : Bool :=
  hashToBkt e.hashv c.numBuckets == hashToBkt (hashJen c.key) c.numBuckets &&
    (List.range 12).map (fun i => c.byteAt (e.key + i)) == c.key

end FragCall

/-- `ipv4_frag_table_insert`: the table and, when the datagram is complete, the place of its element.
`HASH_ADD_KEYPTR` adds at the head of the bucket. -/
def ipv4FragTableInsertHash (hash : Search Ipv4FragElem) (table : List Ipv4FragElem) (c : FragCall) :
    List Ipv4FragElem × Option (List Ipv4FragElem × Ipv4FragElem × List Ipv4FragElem) :=
  match hash.find table c.designates with
  | some (before, ptr, after) =>
    let (list, ret) := ipv4FragInsert ptr.list c.packet
    let ptr := { ptr with list := list }
    (before ++ ptr :: after, if ret then some (before, ptr, after) else none)
  | none => (⟨c.frame, hashJen c.key, [c.packet]⟩ :: table, none)

/-- `ipv4_reassemble` with the hash table. -/
def ipv4ReassembleHash (hash : Search Ipv4FragElem) (table : List Ipv4FragElem) (c : FragCall) :
    Heap × List Ipv4FragElem × Option (Ipv4 × Vbuffer) :=
  let ip := c.packet
  if ip.dontReassemble then (c.heap, table, some (ip, ip.packetPayload))
  else if !ipv4GetFlagsMf ip && ipv4GetFragOffset ip = 0 then
    (c.heap, table, some (ip, ip.packetPayload))
  else
    match ipv4FragTableInsertHash hash table c with
    | (table, none) => (c.heap, table, none)
    | (_, some (before, elem, after)) =>
      let first := elem.list.headD ip
      let (h₁, payload) := vbufferStreamInit c.heap
      let (h₂, payload) := rebuildLoop h₁ payload 0 elem.list
      -- `HASH_DEL`
      (h₂, before ++ after, some (first, (vbufferStreamFinish payload).data))

/-! ## Both tables as machines -/

/-- One call with the hash table. Of the datagram its first packet and its payload are seen. -/
def hashStep (hash : Search Ipv4FragElem) (table : List Ipv4FragElem) (c : FragCall) :
    List Ipv4FragElem × Option (Ipv4 × List UInt8) :=
  let r := ipv4ReassembleHash hash table c
  (r.2.1, r.2.2.map fun d => (d.1, d.2.content r.1))

def keyedStep (table : Ipv4FragTable) (c : FragCall) : Ipv4FragTable × Option (Ipv4 × List UInt8) :=
  let r := ipv4Reassemble c.heap table c.packet
  (r.2.1, r.2.2.map fun d => (d.1, d.2.content r.1))

def Ipv4FragElem.key? (e : Ipv4FragElem) : Option Ipv4FragKey := e.list.head?.map ipv4FragKey

/-- `ipv4_reassemble` looks the packet up in the table. -/
def Ipv4.fragmented (ip : Ipv4) : Bool :=
  !ip.dontReassemble && !(!ipv4GetFlagsMf ip && ipv4GetFragOffset ip = 0)

/-- The elements whose key pointer designates the key of the packet are those with its fragments. -/
def Finds (table : List Ipv4FragElem) (c : FragCall) : Prop :=
  c.packet.fragmented = true →
    ∀ e ∈ table, c.designates e = true ↔ e.key? = some (ipv4FragKey c.packet)

instance (table : List Ipv4FragElem) (c : FragCall) : Decidable (Finds table c) :=
  inferInstanceAs (Decidable (_ → ∀ e ∈ table, _))

section Steps

variable {c : FragCall} {hash : Search Ipv4FragElem} {table before after : List Ipv4FragElem}
  {e : Ipv4FragElem} {keyed : Ipv4FragTable} {list : List Ipv4}

def datagram (c : FragCall) (list : List Ipv4) : Ipv4 × List UInt8 :=
  let (h₁, payload) := vbufferStreamInit c.heap
  let (h₂, payload) := rebuildLoop h₁ payload 0 list
  (list.headD c.packet, (vbufferStreamFinish payload).data.content h₂)

theorem fragmented_eq_true (hf : c.packet.fragmented = true) : c.packet.dontReassemble = false ∧
      (!ipv4GetFlagsMf c.packet && decide (ipv4GetFragOffset c.packet = 0)) = false := by
  simpa only [Ipv4.fragmented, Bool.and_eq_true, Bool.not_eq_true'] using hf

theorem hashStep_whole (hf : c.packet.fragmented = false) :
    hashStep hash table c = (table, some (c.packet, c.packet.packetPayload.content c.heap)) := by
  simp only [hashStep, ipv4ReassembleHash]
  split
  · rfl
  · rw [if_pos (by simp_all [Ipv4.fragmented])]
    rfl

theorem keyedStep_whole (hf : c.packet.fragmented = false) :
    keyedStep keyed c = (keyed, some (c.packet, c.packet.packetPayload.content c.heap)) := by
  simp only [keyedStep, ipv4Reassemble]
  split
  · rfl
  · rw [if_pos (by simp_all [Ipv4.fragmented])]
    rfl

section

variable (hf : c.packet.fragmented = true)

include hf

theorem hashStep_missed
    (hm : hash.find table c.designates = none) :
    hashStep hash table c = (⟨c.frame, hashJen c.key, [c.packet]⟩ :: table, none) := by
  obtain ⟨h1, h2⟩ := fragmented_eq_true hf
  simp only [hashStep, ipv4ReassembleHash, h1, h2, ipv4FragTableInsertHash, hm]
  rfl

theorem keyedStep_missed
    (hm : keyed (ipv4FragKey c.packet) = none) :
    keyedStep keyed c = (Function.update keyed (ipv4FragKey c.packet) (some [c.packet]), none) := by
  obtain ⟨h1, h2⟩ := fragmented_eq_true hf
  simp only [keyedStep, ipv4Reassemble, h1, h2, ipv4FragTableInsert, hm]
  rfl

theorem hashStep_found
    (hm : hash.find table c.designates = some (before, e, after)) :
    hashStep hash table c = if (ipv4FragInsert e.list c.packet).2 then
        (before ++ after, some (datagram c (ipv4FragInsert e.list c.packet).1))
      else (before ++ { e with list := (ipv4FragInsert e.list c.packet).1 } :: after, none) := by
  obtain ⟨h1, h2⟩ := fragmented_eq_true hf
  simp only [hashStep, ipv4ReassembleHash, h1, h2, ipv4FragTableInsertHash, hm]
  cases (ipv4FragInsert e.list c.packet).2 <;> rfl

theorem keyedStep_found
    (hm : keyed (ipv4FragKey c.packet) = some list) :
    keyedStep keyed c = if (ipv4FragInsert list c.packet).2 then
        (Function.update keyed (ipv4FragKey c.packet) none,
          some (datagram c (ipv4FragInsert list c.packet).1))
      else (Function.update keyed (ipv4FragKey c.packet)
        (some (ipv4FragInsert list c.packet).1), none) := by
  obtain ⟨h1, h2⟩ := fragmented_eq_true hf
  simp only [keyedStep, ipv4Reassemble, h1, h2, ipv4FragTableInsert, hm]
  cases (ipv4FragInsert list c.packet).2 with
  | false => rfl
  | true =>
    simp only [if_true, Function.update_idem]
    rfl

end

end Steps

/-! ## Refinement -/

section Refinement

variable {c : FragCall} {hash : Search Ipv4FragElem} {table : List Ipv4FragElem}
  {keyed : Ipv4FragTable} {k : Ipv4FragKey}

def Ipv4FragElem.OneKey (e : Ipv4FragElem) : Prop :=
  ∃ k, e.key? = some k ∧ ∀ f ∈ e.list, ipv4FragKey f = k

/-- The hash table stands for the table that is a function of the key. -/
structure Stores (table : List Ipv4FragElem) (keyed : Ipv4FragTable) : Prop where
  oneKey : ∀ e ∈ table, e.OneKey
  tabulates : Tabulates Ipv4FragElem.key? Ipv4FragElem.list table keyed

theorem fragInsert_mem (list : List Ipv4) (ip : Ipv4) : (ipv4FragInsert list ip).1 ≠ [] ∧
    ∀ f ∈ (ipv4FragInsert list ip).1, f ∈ list ∨ f = ip := by
  rw [ipv4FragInsert]
  split
  · simp
  next last hlast =>
    have hne : list ≠ [] := by
      rintro rfl
      simp at hlast
    split
    next =>
      split
      · exact ⟨hne, fun f hf => .inl hf⟩
      · exact ⟨by simp, by simp⟩
    next =>
      refine ⟨by simp, fun f hf => ?_⟩
      rcases List.mem_append.1 hf with hf | hf
      · exact .inl ((List.takeWhile_sublist _).subset hf)
      rcases List.mem_cons.1 hf with hf | hf
      · exact .inr hf
      · split at hf
        · simp at hf
        · exact .inl ((List.dropWhile_sublist _).subset hf)

theorem oneKey_of_list {e : Ipv4FragElem} (hne : e.list ≠ [])
    (hk : ∀ f ∈ e.list, ipv4FragKey f = k) : e.key? = some k ∧ e.OneKey := by
  obtain ⟨f, rest, hl⟩ := List.exists_cons_of_ne_nil hne
  have hkey : e.key? = some k := by
    rw [Ipv4FragElem.key?, hl, List.head?_cons, Option.map_some, hk f (by simp [hl])]
  exact ⟨hkey, k, hkey, hk⟩

/-- A step whose lookup finds just the entry of its key has the effect and the output of a step of
the table as a function. -/
theorem hashStep_refines (hs : Stores table keyed) (hg : Finds table c) :
    Stores (hashStep hash table c).1 (keyedStep keyed c).1 ∧
      (hashStep hash table c).2 = (keyedStep keyed c).2 := by
  cases hf : c.packet.fragmented with
  | false =>
    rw [hashStep_whole hf, keyedStep_whole hf]
    exact ⟨hs, rfl⟩
  | true =>
    have hg := hg hf
    cases hm : hash.find table c.designates with
    | none =>
      have hnot : ∀ e ∈ table, e.key? ≠ some (ipv4FragKey c.packet) := fun e he hk => by
        rw [← hg e he, hash.missed hm e he] at hk
        cases hk
      rw [hashStep_missed hf hm, keyedStep_missed hf (hs.tabulates.get_none hnot)]
      obtain ⟨hkey, hone⟩ := oneKey_of_list (k := ipv4FragKey c.packet)
        (e := ⟨c.frame, hashJen c.key, [c.packet]⟩) (by simp) (by simp)
      exact ⟨⟨List.forall_mem_cons.2 ⟨hone, hs.oneKey⟩, hs.tabulates.cons hkey hnot⟩, rfl⟩
    | some place =>
      obtain ⟨before, e, after⟩ := place
      obtain ⟨rfl, hd⟩ := hash.found hm
      have he : e ∈ before ++ e :: after := by simp
      have hkey := (hg e he).1 hd
      rw [hashStep_found hf hm, keyedStep_found hf (hs.tabulates.get he hkey)]
      have hothers : ∀ x ∈ before ++ after, x.OneKey := fun x hx =>
        hs.oneKey x (List.perm_middle.symm.subset (List.mem_cons_of_mem e hx))
      split
      · exact ⟨⟨hothers, hs.tabulates.erase hkey⟩, rfl⟩
      · -- the fragments of the element and the packet have the key that was looked up
        obtain ⟨k, hk, hall⟩ := hs.oneKey e he
        cases hk.symm.trans hkey
        obtain ⟨hne, hmem⟩ := fragInsert_mem e.list c.packet
        obtain ⟨hkey', hone⟩ := oneKey_of_list
          (e := { e with list := (ipv4FragInsert e.list c.packet).1 }) hne fun f hf =>
            (hmem f hf).elim (hall f) fun h => h ▸ rfl
        refine ⟨⟨fun x hx => ?_, hs.tabulates.set hkey hkey'⟩, rfl⟩
        rcases List.mem_cons.1 (List.perm_middle.subset hx) with rfl | hx
        · exact hone
        · exact hothers x hx

end Refinement

/-! ## Isolation -/

section Isolation

variable {c : FragCall} {hash hash' : Search Ipv4FragElem} {keyed keyed' : Ipv4FragTable}
  {k : Ipv4FragKey} {is js : List FragCall}

/-- What a caller passes to `ipv4_reassemble`. -/
def FragCall.input (c : FragCall) : Heap × Ipv4 := (c.heap, c.packet)

/-- The call is for a packet with the key `k`. -/
def FragCall.isOf (k : Ipv4FragKey) (c : FragCall) : Bool := ipv4FragKey c.packet = k

theorem keyedStep_same (hk : ipv4FragKey c.packet = k) (h : keyed k = keyed' k) :
    (keyedStep keyed c).1 k = (keyedStep keyed' c).1 k ∧
      (keyedStep keyed c).2 = (keyedStep keyed' c).2 := by
  subst hk
  cases hf : c.packet.fragmented with
  | false =>
    rw [keyedStep_whole hf, keyedStep_whole hf]
    exact ⟨h, rfl⟩
  | true =>
    cases hm : keyed (ipv4FragKey c.packet) with
    | none =>
      rw [keyedStep_missed hf hm, keyedStep_missed hf (h ▸ hm)]
      simp
    | some list =>
      rw [keyedStep_found hf hm, keyedStep_found hf (h ▸ hm)]
      split <;> simp

theorem keyedStep_other (hk : ipv4FragKey c.packet ≠ k) : (keyedStep keyed c).1 k = keyed k := by
  cases hf : c.packet.fragmented with
  | false => rw [keyedStep_whole hf]
  | true =>
    cases hm : keyed (ipv4FragKey c.packet) with
    | none =>
      rw [keyedStep_missed hf hm]
      exact Function.update_of_ne hk.symm _ _
    | some list =>
      rw [keyedStep_found hf hm]
      split <;> exact Function.update_of_ne hk.symm _ _

theorem keyedRun_input (h : is.map FragCall.input = js.map FragCall.input) :
    run keyedStep keyed is = run keyedStep keyed js := by
  induction is generalizing js keyed with
  | nil =>
    rw [List.map_eq_nil_iff.1 (h.symm.trans List.map_nil)]
  | cons c is ih =>
    cases js with
    | nil => cases h
    | cons c' js =>
      obtain ⟨hc, his⟩ := List.cons.inj h
      have hstep : keyedStep keyed c = keyedStep keyed c' := by
        obtain ⟨hheap, hpacket⟩ := Prod.mk.inj hc
        rw [keyedStep, keyedStep, hheap, hpacket]
      rw [run_cons, run_cons, hstep, ih his]

theorem hashRun_refines (hg : Guarded (hashStep hash) Finds [] is) :
    Stores (run (hashStep hash) [] is).1 (run keyedStep (fun _ => none) is).1 ∧
      (run (hashStep hash) [] is).2 = (run keyedStep (fun _ => none) is).2 :=
  run_simulation (fun _ _ _ => hashStep_refines) ⟨by simp, tabulates_nil⟩ hg

/-- **Flows are isolated.** While each lookup finds just the element of its key, the calls for one
key return what they return in a run of these calls alone, and the fragments in a list have one key.
-/
theorem flows_isolated (hi : Guarded (hashStep hash) Finds [] is)
    (hj : Guarded (hashStep hash') Finds [] js)
    (hsame : (is.filter (FragCall.isOf k)).map FragCall.input = js.map FragCall.input) :
    outputsAt (FragCall.isOf k) is (run (hashStep hash) [] is).2 = (run (hashStep hash') [] js).2 ∧
    ∀ e ∈ (run (hashStep hash) [] is).1, ∀ f ∈ e.list, ∀ g ∈ e.list,
      ipv4FragKey f = ipv4FragKey g := by
  obtain ⟨hstores, hout⟩ := hashRun_refines hi
  constructor
  · rw [hout, (hashRun_refines hj).2, ← keyedRun_input hsame]
    refine run_isolated (R := fun s t => s k = t k) (fun s t c hc h => ?_) (fun s t c hc h => ?_)
      rfl is
    · exact keyedStep_same (of_decide_eq_true hc) h
    · rw [keyedStep_other (of_decide_eq_false hc), h]
  · rintro e he f hf g hg
    obtain ⟨k', -, hall⟩ := hstores.oneKey e he
    rw [hall f hf, hall g hg]

/-- Calls whose local variable is at one address, with the table at its first size. -/
def sampleCall (id : ℕ) (i : Heap × Ipv4) : FragCall :=
  ⟨4096, fun _ => 0, 32, i.1, { i.2 with header := { i.2.header with id := id } }⟩

def interleavedCalls : List FragCall :=
  [sampleCall 7 (sampleFragment 10 0 8 true true), sampleCall 8 (sampleFragment 20 16 16 false true),
    sampleCall 7 (sampleFragment 30 8 24 false true), sampleCall 8 (sampleFragment 40 0 16 true true)]

theorem flows_isolated_interleaved : Guarded (hashStep Search.first) Finds [] interleavedCalls ∧
    outputsAt (FragCall.isOf ⟨1, 2, 8, 17⟩) interleavedCalls
        (run (hashStep Search.first) [] interleavedCalls).2 =
      (run (hashStep Search.first) []
        (interleavedCalls.filter (FragCall.isOf ⟨1, 2, 8, 17⟩))).2 := by
  have hi : Guarded (hashStep Search.first) Finds [] interleavedCalls := by decide +kernel
  have hj : Guarded (hashStep Search.first) Finds []
      (interleavedCalls.filter (FragCall.isOf ⟨1, 2, 8, 17⟩)) := by decide +kernel
  exact ⟨hi, (flows_isolated hi hj rfl).1⟩

/-- Two datagrams with keys in one bucket: the second one gets the element of the first, and a
datagram made of both; alone it gets nothing. A call may also leave a list with both keys. -/
theorem bucket_mixes_flows :
    (run (hashStep Search.first) [] [sampleCall 7 (sampleFragment 10 0 8 true true),
        sampleCall 15 (sampleFragment 20 8 24 false true)]).2.map (Option.map Prod.snd) =
      [none, some samplePayload] ∧
    (run (hashStep Search.first) []
        [sampleCall 15 (sampleFragment 20 8 24 false true)]).2.map (Option.map Prod.snd) = [none] ∧
    (run (hashStep Search.first) [] [sampleCall 7 (sampleFragment 10 0 8 true true),
        sampleCall 15 (sampleFragment 20 16 16 false true)]).1.map
      (fun e => e.list.map fun f => f.header.id) = [[7, 15]] := by
  decide +kernel

end Isolation

end Haka
