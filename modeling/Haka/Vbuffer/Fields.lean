import Haka.Lib.Bits
import Haka.Vbuffer.RoundTrip

/-!
# Number fields

`Number:_parse` of `grammar_dg.lua` cuts a record into fields of any number of bits. It keeps a bit
offset from one field to the next, and the field's property reads its value from a sub of the
buffer: by `asnumber` if the field consists of whole bytes, by `asbits` otherwise. The position after
a list of fields is the sum of their widths (`parseNumbers_position`). When every field reads as
the bits it stands for is said by `fields_sliced_iff`.

The host is little endian.
-/

namespace Haka

open List

/-! ## Reading bits -/

/-- `getbits`; the counts of shifts are taken modulo 32. -/
def getbits (x : UInt8) (off size : ℤ) (bigendian : Bool) : UInt8 :=
  let off := if bigendian then 8 - off - size else off
  UInt8.ofNat ((x.toNat >>> (off % 32).toNat) &&& (2 ^ (size % 32).toNat - 1))

def extend32 (x : UInt32) : ℕ := ((x.toNat : ℤ).bmod (2 ^ 32) % 2 ^ 64).toNat

/-- The loop of `vbuffer_asbits` over the bytes from `begin` on; `ret` as an unsigned number. `8 - off`
is compared as an unsigned number. -/
def asbitsLoop (bigendian : Bool) : List UInt8 → ℤ → ℕ → ℕ → ℕ → ℕ
  | [], _, _, _, ret => ret
  | x :: temp, off, bits, shiftbits, ret =>
    let size : ℕ := if 0 ≤ 8 - off ∧ 8 - off < bits then (8 - off).toNat else bits
    let ret :=
      if bigendian then ((ret <<< size) % 2 ^ 64) ||| (getbits x off size true).toNat
      else ret ||| extend32 (shiftLeft32 (getbits x off size false).toUInt32 shiftbits)
    asbitsLoop bigendian temp 0 (bits - size) (shiftbits + size) ret

def vbufferAsbits (h : Heap) (b : Vbuffer) (data : Sub) (offset bits : ℕ) (bigendian : Bool) :
    Number :=
  match vbufferSubSize b data with
  | none => .ret 0
  | some length =>
    let begin := offset / 8
    let «end» := (offset + bits + 7) / 8
    if begin ≥ length then .error "asbits: invalid bit offset"
    else if «end» > length then .error "asbits: invalid bit size"
    else if «end» > 8 then .error "asbits: unsupported size"
    else
      let temp := vbufferSubRead h b data «end»
      .ret ((asbitsLoop bigendian (temp.drop begin) offset bits 0 0 : ℤ).bmod (2 ^ 64))

section Asbits

theorem getbits_toNat (x : UInt8) {off size : ℕ} (hsize : off + size ≤ 8) :
    (getbits x off size true).toNat = Bits.value (((Bits.ofNat 8 x.toNat).drop off).take size) := by
  have hx := x.toNat_lt
  rw [Bits.value_slice (by rw [Bits.length_ofNat]; exact hsize), Bits.value_ofNat,
    Bits.length_ofNat, Nat.mod_eq_of_lt hx, getbits]
  have hoff : ((8 - (off : ℤ) - size) % 32).toNat = 8 - (off + size) := by omega
  have hcount : ((size : ℤ) % 32).toNat = size := by omega
  simp only [if_true, hoff, hcount, Nat.and_two_pow_sub_one_eq_mod, Nat.shiftRight_eq_div_pow]
  rw [UInt8.toNat_ofNat', Nat.mod_eq_of_lt]
  calc x.toNat / 2 ^ (8 - (off + size)) % 2 ^ size ≤ x.toNat / 2 ^ (8 - (off + size)) :=
        Nat.mod_le _ _
    _ ≤ x.toNat := Nat.div_le_self _ _
    _ < 2 ^ 8 := hx

theorem append_bits {ret k n v : ℕ} (hret : ret < 2 ^ k) (hv : v < 2 ^ n) (hk : k + n ≤ 64) :
    ((ret <<< n) % 2 ^ 64) ||| v = ret * 2 ^ n + v ∧ ret * 2 ^ n + v < 2 ^ (k + n) := by
  have hpow : ret * 2 ^ n < 2 ^ 64 :=
    calc ret * 2 ^ n < 2 ^ k * 2 ^ n := Nat.mul_lt_mul_of_pos_right hret (Nat.two_pow_pos n)
      _ = 2 ^ (k + n) := (pow_add 2 k n).symm
      _ ≤ 2 ^ 64 := Nat.pow_le_pow_right (by omega) hk
  constructor
  · rw [Nat.shiftLeft_eq, Nat.mod_eq_of_lt hpow, ← Nat.shiftLeft_eq,
      ← Nat.shiftLeft_add_eq_or_of_lt hv]
  · rw [pow_add]
    calc _ < ret * 2 ^ n + 2 ^ n := Nat.add_lt_add_left hv _
      _ = (ret + 1) * 2 ^ n := by ring
      _ ≤ 2 ^ k * 2 ^ n := Nat.mul_le_mul_right _ hret

theorem asbitsLoop_big (bytes : List UInt8) :
    ∀ {off bits k : ℕ} (shiftbits : ℕ) {ret : ℕ}, off < 8 → off + bits ≤ 8 * bytes.length →
      ret < 2 ^ k → k + bits ≤ 64 →
      asbitsLoop true bytes off bits shiftbits ret =
        ret * 2 ^ bits + Bits.value (((Bits.ofBytes bytes).drop off).take bits) := by
  induction bytes with
  | nil =>
    intro off bits k shiftbits ret hoff hbits _ _
    obtain rfl : bits = 0 := by simp at hbits; omega
    simp [asbitsLoop, Bits.value]
  | cons x bytes ih =>
    intro off bits k shiftbits ret hoff hbits hret hk
    obtain ⟨n, hn⟩ : ∃ n, n = min (8 - off) bits := ⟨_, rfl⟩
    have hsize : (if 0 ≤ 8 - (off : ℤ) ∧ 8 - (off : ℤ) < bits then (8 - (off : ℤ)).toNat else bits) =
        n := by
      split_ifs <;> omega
    have hlen : (((Bits.ofNat 8 x.toNat).drop off).take n).length = n := by
      rw [length_take, length_drop, Bits.length_ofNat]
      omega
    have hbyte := Bits.value_lt (((Bits.ofNat 8 x.toNat).drop off).take n)
    rw [hlen] at hbyte
    have hslice : ((Bits.ofBytes (x :: bytes)).drop off).take bits =
        ((Bits.ofNat 8 x.toNat).drop off).take n ++ ((Bits.ofBytes bytes).drop 0).take (bits - n) := by
      rw [Bits.ofBytes_cons, drop_append_of_le_length (by rw [Bits.length_ofNat]; omega),
        take_append, length_drop, Bits.length_ofNat, drop_zero, hn]
      have hall : ∀ m, 8 - off ≤ m → ((Bits.ofNat 8 x.toNat).drop off).take m =
          (Bits.ofNat 8 x.toNat).drop off := fun m hm =>
        take_of_length_le (by rwa [length_drop, Bits.length_ofNat])
      rcases Nat.le_total (8 - off) bits with h | h
      · rw [Nat.min_eq_left h, hall bits h, hall (8 - off) le_rfl]
      · rw [Nat.min_eq_right h, Nat.sub_eq_zero_of_le h, Nat.sub_self]
    have hrest : bits - n ≤ 8 * bytes.length := by
      rw [length_cons] at hbits
      omega
    obtain ⟨hor, hret'⟩ := append_bits hret hbyte (by omega)
    have hget := getbits_toNat x (show off + n ≤ 8 by omega)
    rw [asbitsLoop]
    simp only [hsize, if_true, hget, hor]
    have hloop := ih (shiftbits + n) (by omega)
      (show 0 + (bits - n) ≤ 8 * bytes.length by omega) hret' (by omega)
    rw [Nat.cast_zero] at hloop
    rw [hloop, hslice, Bits.value_append, length_take, length_drop, Bits.length_ofBytes,
      Nat.sub_zero, Nat.min_eq_left hrest, ← Nat.sub_add_cancel (show n ≤ bits by omega), pow_add,
      Nat.add_sub_cancel]
    ring

def Vbuffer.bits (h : Heap) (b : Vbuffer) (n width : ℕ) : List Bool :=
  ((Bits.ofBytes (b.content h)).drop n).take width

variable {h : Heap} {b : Vbuffer} {data : Sub} {lo hi : ℕ}

theorem bmod_of_lt {m bits : ℕ} (hbits : 0 < bits) (hm : m < 2 ^ (bits - 1)) :
    (m : ℤ).bmod (2 ^ bits) = m := by
  have hpow : 2 ^ (bits - 1) ≤ 2 ^ bits := Nat.pow_le_pow_right (by omega) (by omega)
  exact (bmod_eq_iff hbits (hm.trans_le hpow) (Int.natCast_nonneg m)).2
    ⟨rfl, by exact_mod_cast hm⟩

theorem asbits_spec (hb : b.WF h) (hc : b.Covers data lo hi) (ho : b.Ordered data)
    {offset bits : ℕ} (hoffset : offset < 8) (hpos : 0 < bits) (hbits : bits ≤ 57)
    (hle : offset + bits ≤ 8 * (hi - lo)) :
    vbufferAsbits h b data offset bits true = .ret (Bits.value (b.bits h (8 * lo + offset) bits)) := by
  have hend : (offset + bits + 7) / 8 ≤ hi - lo ∧ (offset + bits + 7) / 8 ≤ 8 ∧
      offset + bits ≤ 8 * ((offset + bits + 7) / 8) ∧ ¬hi - lo ≤ offset / 8 ∧ offset / 8 = 0 := by
    omega
  have htemp : vbufferSubRead h b data ((offset + bits + 7) / 8) =
      ((b.content h).drop lo).take ((offset + bits + 7) / 8) := by
    rw [subRead_spec hb hc ho, Nat.min_eq_left hend.1]
  have hlen : (((b.content h).drop lo).take ((offset + bits + 7) / 8)).length =
      (offset + bits + 7) / 8 := by
    rw [length_take, length_drop, hb.length_content]
    have := hc.le
    omega
  have hloop := asbitsLoop_big (((b.content h).drop lo).take ((offset + bits + 7) / 8)) 0 hoffset
    (by rw [hlen]; exact hend.2.2.1) (show 0 < 2 ^ 0 from Nat.one_pos) (by omega)
  have hslice : ((Bits.ofBytes (((b.content h).drop lo).take ((offset + bits + 7) / 8))).drop
      offset).take bits = b.bits h (8 * lo + offset) bits := by
    rw [Bits.ofBytes_take, Bits.ofBytes_drop, drop_take, take_take, drop_drop,
      Nat.min_eq_left (by omega), Vbuffer.bits]
  have hlt : Bits.value (b.bits h (8 * lo + offset) bits) < 2 ^ (64 - 1) :=
    (Bits.value_lt _).trans_le (Nat.pow_le_pow_right (by omega)
      ((length_take_le _ _).trans (by omega)))
  unfold vbufferAsbits
  simp only [subSize_spec hb hc ho]
  rw [if_neg hend.2.2.2.1, if_neg (not_lt.2 hend.1), if_neg (not_lt.2 hend.2.1), htemp,
    hend.2.2.2.2, drop_zero, hloop, hslice, Nat.zero_mul, Nat.zero_add, bmod_of_lt (by omega) hlt]

end Asbits

/-! ## Parsing -/

def vbufferIteratorRegister (b : Vbuffer) (pos : Iterator) : Iterator :=
  if _vbufferIteratorCheck b pos then { pos with registered := true } else pos

def vbufferSubRegister (b : Vbuffer) : Sub → Sub
  | .sized begin length => .sized (vbufferIteratorRegister b begin) length
  | .between begin «end» =>
    .between (vbufferIteratorRegister b begin) (vbufferIteratorRegister b «end»)

def vbufferIteratorMove (b : Vbuffer) (iter pos : Iterator) : Iterator :=
  if _vbufferIteratorCheck b iter && _vbufferIteratorCheck b pos then
    { vbufferIteratorUpdate iter pos.chunk pos.offset with meter := pos.meter }
  else iter

/-- The property of a field, by the function that reads it. -/
inductive FieldGetter where
  | asnumber (sub : Sub)
  | asbits (sub : Sub) (offset bits : ℕ)

/-- The result of a function of the Lua binding that returns an `int`. -/
def Number.toInt : Number → Number
  | .ret value => .ret (value.bmod (2 ^ 32))
  | n => n

def FieldGetter.read (h : Heap) (b : Vbuffer) (bigendian : Bool) : FieldGetter → Number
  | .asnumber sub => (vbufferAsnumber false h b sub bigendian).toInt
  | .asbits sub offset bits => (vbufferAsbits h b sub offset bits bigendian).toInt

/-- `Number:_parse` for `size` bits: the iterator and the bit offset after it, and the property of
the field, without value if `input:sub` returns `nil`. -/
def numberParse (h : Heap) (b : Vbuffer) (size : ℕ) (input : Iterator) (bitoffset : ℕ) :
    Iterator × ℕ × Option FieldGetter :=
  let bytes := (bitoffset + size + 7) / 8
  let bit := (bitoffset + size) % 8
  let begin := vbufferIteratorRegister b (vbufferIteratorCopy input)
  let (_, _, input, sub) := vbufferIteratorSub h b input bytes false
  let input := vbufferIteratorMove b input begin
  let input := (vbufferIteratorAdvance b input (if bit ≠ 0 then bytes - 1 else bytes)).1
  let getter := sub.map fun (_, sub) =>
    let sub := vbufferSubRegister b sub
    if bitoffset = 0 && bit = 0 then .asnumber sub else .asbits sub bitoffset size
  (input, bit, getter)

/-- The fields of a record, one after the other. -/
def parseNumbers (h : Heap) (b : Vbuffer) : List ℕ → Iterator → ℕ →
    Iterator × ℕ × List (Option FieldGetter)
  | [], input, bitoffset => (input, bitoffset, [])
  | size :: sizes, input, bitoffset =>
    let (input, bitoffset, getter) := numberParse h b size input bitoffset
    let (input, bitoffset, getters) := parseNumbers h b sizes input bitoffset
    (input, bitoffset, getter :: getters)

section Parse

variable {h : Heap} {b : Vbuffer} {input : Iterator} {bitoffset n size : ℕ}

/-- The parse stands at the bit `n` of the buffer. The iterators of Lua are registered. -/
structure AtBit (b : Vbuffer) (input : Iterator) (bitoffset n : ℕ) : Prop where
  inRange : b.InRange input
  registered : input.registered = true
  bit : bitoffset < 8
  position : 8 * b.offsetOf input + bitoffset = n

theorem register_copy (hr : b.InRange input) (hreg : input.registered = true) :
    vbufferIteratorRegister b (vbufferIteratorCopy input) = input := by
  obtain ⟨chunk, offset, meter, registered⟩ := input
  obtain rfl : registered = true := hreg
  rw [vbufferIteratorRegister, if_pos hr.copy.check]
  rfl

/-- One field: the parse goes its bits further, and its property reads from the bytes it is in. -/
theorem numberParse_spec (hb : b.WF h) (hat : AtBit b input bitoffset n) (hsize : size < 2 ^ 32)
    (hle : n + size ≤ 8 * totalSize b.body) :
    ∃ input' sub, numberParse h b size input bitoffset = (input', (bitoffset + size) % 8, some
          (if bitoffset = 0 && (bitoffset + size) % 8 = 0 then .asnumber sub
          else .asbits sub bitoffset size)) ∧
      AtBit b input' ((bitoffset + size) % 8) (n + size) ∧
      sub = .sized input ((bitoffset + size + 7) / 8) := by
  obtain ⟨hr, hreg, hbit, hpos⟩ := hat
  have hbytes : (bitoffset + size + 7) / 8 ≤ totalSize b.body - b.offsetOf input := by omega
  obtain ⟨hto, hlen⟩ := advance_to ((bitoffset + size + 7) / 8) hb hr
  rw [Nat.min_eq_left hbytes] at hlen
  obtain ⟨moved, hmoved⟩ : ∃ moved, vbufferIteratorAdvance b input ((bitoffset + size + 7) / 8) =
      (moved, some ((bitoffset + size + 7) / 8)) := ⟨_, Prod.ext rfl hlen⟩
  rw [hmoved] at hto
  have hsub : vbufferIteratorSub h b input ((bitoffset + size + 7) / 8) false =
      (h, b, moved, some ((bitoffset + size + 7) / 8,
        .sized (vbufferIteratorCopy input) ((bitoffset + size + 7) / 8))) := by
    unfold vbufferIteratorSub vbufferSubCreateFromPosition
    have hmod : (bitoffset + size + 7) / 8 % 2 ^ 32 = (bitoffset + size + 7) / 8 :=
      Nat.mod_eq_of_lt (by omega)
    simp only [hr.check, hmoved, Bool.not_true, Bool.false_eq_true, if_false, hmod]
    rfl
  have hmove : vbufferIteratorMove b moved input = input := by
    rw [vbufferIteratorMove, hto.inRange.check, hr.check]
    simp only [Bool.and_self, if_true, vbufferIteratorUpdate]
    congr 1
    exact hto.registered
  obtain ⟨hend, -⟩ := advance_to
    (if (bitoffset + size) % 8 ≠ 0 then (bitoffset + size + 7) / 8 - 1
      else (bitoffset + size + 7) / 8) hb hr
  unfold numberParse
  simp only [register_copy hr hreg, hsub, hmove, Option.map_some, vbufferSubRegister]
  refine ⟨_, _, rfl, ⟨hend.inRange, hend.registered.trans hreg, by omega, ?_⟩, rfl⟩
  rw [hend.offset]
  split_ifs <;> omega

/-- **The position after the fields.** -/
theorem parseNumbers_position (hb : b.WF h) {sizes : List ℕ} (hsizes : ∀ w ∈ sizes, w < 2 ^ 32)
    (hat : AtBit b input bitoffset n) (hle : n + sizes.sum ≤ 8 * totalSize b.body) :
    AtBit b (parseNumbers h b sizes input bitoffset).1
      (parseNumbers h b sizes input bitoffset).2.1 (n + sizes.sum) := by
  induction sizes generalizing input bitoffset n with
  | nil => exact hat
  | cons size sizes ih =>
    rw [sum_cons] at hle ⊢
    obtain ⟨hsize, hsizes⟩ := forall_mem_cons.1 hsizes
    obtain ⟨input', sub, hparse, hat', -⟩ := numberParse_spec hb hat hsize (by omega)
    simp only [parseNumbers, hparse]
    rw [← Nat.add_assoc]
    exact ih hsizes hat' (by omega)

end Parse

/-! ## Values -/

/-- The `n` bytes of memory from the place of the byte `lo` on are the bytes of the buffer from
there on. -/
def FlatBytes (h : Heap) (b : Vbuffer) (lo n : ℕ) : Prop :=
  ∀ p, b.places[lo]? = some p →
    (blockPlaces p.1 p.2 n).mapM h.byteAt = some (((b.content h).drop lo).take n)

section Values

variable {h : Heap} {b : Vbuffer} {begin : Iterator} {length lo hi : ℕ}

theorem places_first {P Q : List Chunk} {c : Chunk} {start : ℕ} (hbody : b.body = P ++ c :: Q)
    (hstart : start < c.size) :
    b.places[totalSize P + start]? = some (c.data.addr, c.offset + start) := by
  have hslice := places_slice (n := 1) hbody hstart
  have hhead := congrArg head? hslice
  rw [head?_take, if_neg Nat.one_ne_zero, head?_drop] at hhead
  exact hhead

theorem asnumberPlaces_sized (hb : b.WF h) (hc : b.Covers (.sized begin length) lo hi)
    (hlt : lo < hi) :
    ∃ p, b.places[lo]? = some p ∧
      asnumberPlaces b (.sized begin length) (hi - lo) = some (blockPlaces p.1 p.2 (hi - lo)) := by
  have ho := ordered_of_lt hb hc hlt
  unfold asnumberPlaces
  split_ifs with hflat
  · cases hmaps : vbufferMmaps b (.sized begin length) with
    | nil =>
      obtain ⟨W, hW, -⟩ := asnumberPlaces_cases hb hc hlt
      rw [asnumberPlaces, if_pos hflat, hmaps] at hW
      cases hW
    | cons piece rest =>
      obtain ⟨P, Q, hbody, hat, hsize⟩ := mmaps_first_byte hb hc hmaps
      exact ⟨_, hat ▸ places_first hbody hsize, rfl⟩
  · obtain ⟨P, c, Q, hbody, hP, hhi⟩ := inOneChunk_of_not_flat hb hc (by simpa using hflat)
    obtain ⟨start, rfl⟩ := Nat.exists_eq_add_of_le hP
    refine ⟨_, places_first hbody (by omega), ?_⟩
    rw [subReadPlaces_eq hb hc ho, places_slice hbody (by omega)]

theorem ofBytes_append (l : List UInt8) (x : UInt8) :
    ofBytes (l ++ [x]) = ofBytes l + 256 ^ l.length * x.toNat := by
  induction l with
  | nil => simp [ofBytes]
  | cons y l ih =>
    rw [cons_append, ofBytes, ih, ofBytes, length_cons, pow_succ]
    ring

theorem value_ofBytes (l : List UInt8) : Bits.value (Bits.ofBytes l) = ofBytes l.reverse := by
  induction l with
  | nil => rfl
  | cons x l ih =>
    have hx := x.toNat_lt
    rw [Bits.ofBytes_cons, Bits.value_append, Bits.value_ofNat, Nat.mod_eq_of_lt hx, ih,
      reverse_cons, ofBytes_append, length_reverse, Bits.length_ofBytes, pow_mul]
    ring

theorem bits_aligned (h : Heap) (b : Vbuffer) (lo n : ℕ) :
    b.bits h (8 * lo) (8 * n) = Bits.ofBytes (((b.content h).drop lo).take n) := by
  rw [Vbuffer.bits, Bits.ofBytes_take, Bits.ofBytes_drop]

theorem toInt_ret_iff {m v : ℕ} (hm : m < 2 ^ 32) :
    (Number.ret m).toInt = .ret v ↔ m = v ∧ v < 2 ^ 31 := by
  rw [Number.toInt, Number.ret.injEq, bmod_eq_iff (by omega) hm (Int.natCast_nonneg v)]
  norm_cast

theorem toInt_self_iff (v : ℕ) : (Number.ret v).toInt = .ret v ↔ v < 2 ^ 31 := by
  rw [Number.toInt, Number.ret.injEq]
  refine ⟨fun h => ?_, fun h => bmod_of_lt (by omega) h⟩
  have := Int.bmod_lt (x := v) (m := 2 ^ 32) (by omega)
  omega

/-- A field of whole bytes has the value of its bits exactly if it has 1, 2 or 4 bytes one behind
the other in memory and its value is that of an `int`. -/
theorem asnumber_field_iff (hb : b.WF h) (hc : b.Covers (.sized begin length) lo hi)
    (hlt : lo < hi) (hle : hi - lo ≤ 7) :
    (vbufferAsnumber false h b (.sized begin length) true).toInt =
        .ret (Bits.value (b.bits h (8 * lo) (8 * (hi - lo)))) ↔
      hi - lo ∈ [1, 2, 4] ∧ FlatBytes h b lo (hi - lo) ∧
        Bits.value (b.bits h (8 * lo) (8 * (hi - lo))) < 2 ^ 31 := by
  obtain ⟨p, hp, hW⟩ := asnumberPlaces_sized hb hc hlt
  have hsize := subSize_spec hb hc (ordered_of_lt hb hc hlt)
  have hflat : FlatBytes h b lo (hi - lo) ↔ (blockPlaces p.1 p.2 (hi - lo)).mapM h.byteAt =
      some (((b.content h).drop lo).take (hi - lo)) := by
    simp [FlatBytes, hp]
  have hlen : (((b.content h).drop lo).take (hi - lo)).length = hi - lo := by
    rw [length_take, length_drop, hb.length_content]
    have := hc.le
    omega
  rw [hflat]
  unfold vbufferAsnumber
  simp only [hsize, hW, if_neg (show ¬hi - lo > 8 by omega)]
  split_ifs with hn
  · have hn' : hi - lo ∈ [1, 2, 4] := by
      simp only [mem_cons, not_mem_nil, or_false] at hn ⊢
      omega
    cases hread : (blockPlaces p.1 p.2 (hi - lo)).mapM h.byteAt with
    | none => simp [Number.toInt]
    | some bytes =>
      have hbytes : bytes.length = hi - lo := (length_of_mapM hread).trans (length_blockPlaces _ _ _)
      have hshort : hi - lo ≤ 4 := by
        simp only [mem_cons, not_mem_nil, or_false] at hn'
        omega
      have hnumber : numberOf false true bytes = (ofBytes bytes.reverse : ℕ) := by
        simp only [mem_cons, not_mem_nil, or_false] at hn'
        simp only [numberOf, if_true, Bool.bne_false, true_and]
        omega
      have hbound : ofBytes bytes.reverse < 2 ^ 32 :=
        calc ofBytes bytes.reverse < 256 ^ bytes.reverse.length := ofBytes_lt _
          _ ≤ 256 ^ 4 := Nat.pow_le_pow_right (by omega) (by rw [length_reverse, hbytes]; exact hshort)
          _ = 2 ^ 32 := by norm_num
      have hsame : ofBytes bytes.reverse = ofBytes (((b.content h).drop lo).take (hi - lo)).reverse ↔
          bytes = ((b.content h).drop lo).take (hi - lo) := by
        refine ⟨fun heq => reverse_injective (ofBytes_inj ?_ heq), fun heq => by rw [heq]⟩
        rw [length_reverse, length_reverse, hbytes, hlen]
      simp only [hnumber, Option.some.injEq]
      rw [toInt_ret_iff hbound, bits_aligned, value_ofBytes, hsame, and_iff_right hn']
  · have hn' : hi - lo ∉ [1, 2, 4] := by
      simp only [mem_cons, not_mem_nil, or_false] at hn ⊢
      omega
    simp [unsupportedSize, Number.toInt, hn']

/-- What a field of `width` bits from the bit `n` on needs to read as these bits. -/
def FieldRight (h : Heap) (b : Vbuffer) (n width : ℕ) : Prop :=
  Bits.value (b.bits h n width) < 2 ^ 31 ∧
    (n % 8 = 0 → width % 8 = 0 → width ∈ [8, 16, 32] ∧ FlatBytes h b (n / 8) (width / 8))

def FieldsRight (h : Heap) (b : Vbuffer) : ℕ → List ℕ → Prop
  | _, [] => True
  | n, width :: widths => FieldRight h b n width ∧ FieldsRight h b (n + width) widths

/-- The values of the fields of a record from the bit `n` on. -/
def fieldValues (h : Heap) (b : Vbuffer) : ℕ → List ℕ → List ℕ
  | _, [] => []
  | n, width :: widths =>
    Bits.value (b.bits h n width) :: fieldValues h b (n + width) widths

/-- The fields of a record that starts at a byte are parsed and have the values of their bits, and the
context ends behind them. -/
structure FieldsSliced (h : Heap) (b : Vbuffer) (input : Iterator) (widths : List ℕ) : Prop where
  values : (parseNumbers h b widths input 0).2.2.map (Option.map (FieldGetter.read h b true)) =
    (fieldValues h b (8 * b.offsetOf input) widths).map fun v => some (.ret v)
  position : b.offsetOf (parseNumbers h b widths input 0).1 = b.offsetOf input + widths.sum / 8
  bitoffset : (parseNumbers h b widths input 0).2.1 = widths.sum % 8

variable {input : Iterator} {bitoffset n : ℕ}

theorem field_iff (hb : b.WF h) (hat : AtBit b input bitoffset n) {width : ℕ} (hpos : 0 < width)
    (hwidth : width ≤ 57) (hle : n + width ≤ 8 * totalSize b.body) :
    (numberParse h b width input bitoffset).2.2.map (FieldGetter.read h b true) =
      some (.ret (Bits.value (b.bits h n width))) ↔ FieldRight h b n width := by
  obtain ⟨input', sub, hparse, -, rfl⟩ := numberParse_spec hb hat (by omega) hle
  obtain ⟨hr, -, hbit, rfl⟩ := hat
  have hc : b.Covers (.sized input ((bitoffset + width + 7) / 8)) (b.offsetOf input)
      (b.offsetOf input + (bitoffset + width + 7) / 8) := by
    have hc : b.Covers (.sized input ((bitoffset + width + 7) / 8)) _ _ := .sized hr
    rwa [Nat.min_eq_left (by omega)] at hc
  rw [hparse, FieldRight]
  simp only [Option.map_some, Option.some.injEq]
  by_cases haligned : bitoffset = 0 ∧ (bitoffset + width) % 8 = 0
  · obtain ⟨rfl, hbit⟩ := haligned
    obtain ⟨k, rfl⟩ : ∃ k, width = 8 * k := ⟨width / 8, by omega⟩
    obtain ⟨hk, hmem⟩ : (0 + 8 * k + 7) / 8 = k ∧ (8 * k ∈ [8, 16, 32] ↔ k ∈ [1, 2, 4]) := by
      simp only [mem_cons, not_mem_nil, or_false]
      omega
    have hfield := asnumber_field_iff hb hc (by omega) (by omega)
    rw [hk, Nat.add_sub_cancel_left] at hfield
    rw [if_pos (by simp), FieldGetter.read, hk, Nat.add_zero, hfield, hmem,
      Nat.mul_mod_right, Nat.mul_div_cancel_left _ (by omega), Nat.mul_mod_right,
      Nat.mul_div_cancel_left _ (by omega)]
    tauto
  · have hread := asbits_spec hb hc trivial hbit hpos hwidth (by omega)
    rw [if_neg (by simpa using haligned), FieldGetter.read, hread, toInt_self_iff]
    exact (and_iff_left (by omega)).symm

theorem fieldValues_iff (hb : b.WF h) {widths : List ℕ} (hwidths : ∀ w ∈ widths, 1 ≤ w ∧ w ≤ 57)
    (hat : AtBit b input bitoffset n) (hle : n + widths.sum ≤ 8 * totalSize b.body) :
    (parseNumbers h b widths input bitoffset).2.2.map (Option.map (FieldGetter.read h b true)) =
      (fieldValues h b n widths).map (fun v => some (.ret v)) ↔ FieldsRight h b n widths := by
  induction widths generalizing input bitoffset n with
  | nil => simp [parseNumbers, fieldValues, FieldsRight]
  | cons width widths ih =>
    rw [sum_cons] at hle
    obtain ⟨hwidth, hwidths⟩ := forall_mem_cons.1 hwidths
    obtain ⟨input', sub, hparse, hat', -⟩ := numberParse_spec hb hat
      (by omega) (show n + width ≤ 8 * totalSize b.body by omega)
    have hfield := field_iff hb hat hwidth.1 hwidth.2 (by omega)
    rw [FieldsRight, ← hfield, ← ih hwidths hat' (by omega)]
    simp only [parseNumbers, hparse, fieldValues, map_cons, cons.injEq]

/-- **Bit fields.** Fields of 1 to 57 bits in big endian, from a byte of a buffer with enough bits
on, are sliced correctly exactly if their values are below 2 ^ 31, and those of whole bytes have 1,
2 or 4 bytes one behind the other in memory. -/
theorem fields_sliced_iff (hb : b.WF h) (hr : b.InRange input) (hreg : input.registered = true)
    {widths : List ℕ} (hwidths : ∀ w ∈ widths, 1 ≤ w ∧ w ≤ 57)
    (hle : 8 * b.offsetOf input + widths.sum ≤ 8 * totalSize b.body) :
    FieldsSliced h b input widths ↔ FieldsRight h b (8 * b.offsetOf input) widths := by
  have hat : AtBit b input 0 (8 * b.offsetOf input) := ⟨hr, hreg, by omega, by omega⟩
  have hend := parseNumbers_position hb (fun w hw => by have := hwidths w hw; omega) hat hle
  have hposition := hend.position
  have hbit := hend.bit
  rw [← fieldValues_iff hb hwidths hat hle]
  exact ⟨FieldsSliced.values, fun hv => ⟨hv, by omega, by omega⟩⟩

end Values

/-- A byte and half of another in the next chunk. -/
theorem fields_sliced_inserted : FieldsSliced insertedHeap insertedBuffer ⟨3, 0, 0, true⟩ [8, 4] := by
  refine (fields_sliced_iff insertedBuffer_wf (by decide) rfl (by decide) (by decide)).2
    ⟨⟨by decide, fun _ _ => ⟨by decide, ?_⟩⟩, ⟨by decide, fun _ h => absurd h (by decide)⟩, trivial⟩
  intro p hp
  obtain rfl : (1, 0) = p := Option.some.inj hp
  decide

/-- Four bytes `ff`. -/
def onesHeap : Heap := ⟨3, fun a => if a = 1 then replicate 4 255 else []⟩

def onesBuffer : Vbuffer := ⟨[⟨2, ⟨false, false, true, false⟩, .basic 1, 0, 4⟩], endChunk 0 true⟩

/-- 16 bits over two chunks are read from the memory behind the first one; 24 bits at a byte are an
unsupported size; and 32 bits with the highest set are a negative `int`. -/
theorem fields_not_sliced : ¬FieldsSliced insertedHeap insertedBuffer ⟨3, 0, 0, true⟩ [16] ∧
      ¬FieldsSliced onesHeap onesBuffer ⟨2, 0, 0, true⟩ [24] ∧
      ¬FieldsSliced onesHeap onesBuffer ⟨2, 0, 0, true⟩ [32] := by
  refine ⟨fun hs => ?_, fun hs => ?_, fun hs => ?_⟩
  · exact absurd hs.values (by decide)
  · exact absurd hs.values (by decide)
  · exact absurd hs.values (by decide)

end Haka
