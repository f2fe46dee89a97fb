import Haka.Vbuffer.Fields

/-!
# Bit fields of bytes

The loops of `vbuffer_asbits` and `vbuffer_setbits`, on lists of bytes. Each byte has a slot: the
bits that `getbits` and `setbits` touch in it, for an offset and a size that the loop hands over,
with the counts of the shifts taken modulo 32. The offset of the first byte is not reduced modulo 8,
so only the fields that begin in the first byte have the slots they should have, and by the modulus
those in the fifth. In the others a bit is not written at all (`writeBits_lost`), or they or another
field are read wrongly (`readBits_sign`, `readBits_behind`, `readBits_across`).
-/

namespace Haka

open List

/-! ## One byte -/

section Byte

theorem shiftLeft32_toNat (x : UInt32) (n : ℤ) :
    (shiftLeft32 x n).toNat = x.toNat <<< (n % 32).toNat % 2 ^ 32 := by
  have hn : (n % 32).toNat < 32 := by omega
  have hcount : (UInt32.ofNat (n % 32).toNat).toNat = (n % 32).toNat := by
    rw [UInt32.toNat_ofNat', Nat.mod_eq_of_lt (by omega)]
  rw [shiftLeft32, UInt32.toNat_shiftLeft, hcount, Nat.mod_eq_of_lt hn]

theorem mask_toNat (n : ℤ) : (shiftLeft32 1 n - 1).toNat = 2 ^ (n % 32).toNat - 1 := by
  have hlt : 2 ^ (n % 32).toNat < 2 ^ 32 := Nat.pow_lt_pow_right (by omega) (by omega)
  have hone : (shiftLeft32 1 n).toNat = 2 ^ (n % 32).toNat := by
    rw [shiftLeft32_toNat, UInt32.toNat_one, Nat.one_shiftLeft, Nat.mod_eq_of_lt hlt]
  rw [UInt32.toNat_sub_of_le _ _ (by rw [UInt32.le_iff_toNat_le, hone]; exact Nat.two_pow_pos _),
    hone]
  rfl

theorem testBit_not32 (x : UInt32) {l : ℕ} (hl : l < 32) :
    (~~~x).toNat.testBit l = !x.toNat.testBit l := by
  have hbit := BitVec.getLsbD_not (x := x.toBitVec) (i := l)
  simpa [BitVec.getLsbD, hl] using hbit

/-- The lowest bit of a byte that `getbits` and `setbits` touch. -/
def slotShift (bigendian : Bool) (off size : ℤ) : ℕ :=
  ((if bigendian then 8 - off - size else off) % 32).toNat

theorem slotShift_of_le {bigendian : Bool} {off n : ℕ} (hslot : off % 32 + n ≤ 8) :
    slotShift bigendian off n = if bigendian then 8 - (off % 32 + n) else off % 32 := by
  unfold slotShift
  split_ifs <;> omega

/-- The bits of a byte that `getbits` and `setbits` touch. -/
def InSlot (bigendian : Bool) (off size : ℤ) (l : ℕ) : Prop :=
  slotShift bigendian off size ≤ l ∧ l < slotShift bigendian off size + (size % 32).toNat

instance (bigendian : Bool) (off size : ℤ) (l : ℕ) : Decidable (InSlot bigendian off size l) :=
  inferInstanceAs (Decidable (_ ∧ _))

theorem testBit_setbits (x v : UInt8) (off size : ℤ) (bigendian : Bool) {l : ℕ} (hl : l < 8) :
    (setbits x off size v bigendian).toNat.testBit l =
      if InSlot bigendian off size l then v.toNat.testBit (l - slotShift bigendian off size)
      else x.toNat.testBit l := by
  have hbits : (setbits x off size v bigendian).toNat.testBit l =
      (x.toNat.testBit l && !(decide (l ≥ slotShift bigendian off size) &&
          decide (l - slotShift bigendian off size < (size % 32).toNat)) ||
        decide (l ≥ slotShift bigendian off size) &&
          (v.toNat.testBit (l - slotShift bigendian off size) &&
            decide (l - slotShift bigendian off size < (size % 32).toNat))) := by
    unfold setbits slotShift
    simp only [UInt32.toNat_toUInt8, UInt32.toNat_or, UInt32.toNat_and, shiftLeft32_toNat,
      mask_toNat, UInt8.toNat_toUInt32, Nat.testBit_mod_two_pow, Nat.testBit_or, Nat.testBit_and,
      testBit_not32 _ (show l < 32 by omega), Nat.testBit_shiftLeft, Nat.testBit_two_pow_sub_one,
      hl, show l < 32 by omega, decide_true, Bool.true_and]
  rw [hbits]
  by_cases hin : InSlot bigendian off size l
  · have hs := hin.1
    have hm : l - slotShift bigendian off size < (size % 32).toNat := by
      have := hin.2
      omega
    rw [if_pos hin]
    simp [hs, hm]
  · rw [if_neg hin]
    by_cases hs : slotShift bigendian off size ≤ l
    · have hm : ¬l - slotShift bigendian off size < (size % 32).toNat := fun hm =>
        hin ⟨hs, by omega⟩
      simp [hs, hm]
    · simp [hs]

theorem testBit_getbits (x : UInt8) (off size : ℤ) (bigendian : Bool) {l : ℕ} (hl : l < 8) :
    (getbits x off size bigendian).toNat.testBit l =
      (decide (l < (size % 32).toNat) && x.toNat.testBit (slotShift bigendian off size + l)) := by
  unfold getbits slotShift
  simp only [UInt8.toNat_ofNat', Nat.testBit_mod_two_pow, Nat.testBit_and, Nat.testBit_shiftRight,
    Nat.testBit_two_pow_sub_one, hl, decide_true, Bool.true_and, Bool.and_comm]

theorem testBit_byte_of_le (x : UInt8) {l : ℕ} (hl : 8 ≤ l) : x.toNat.testBit l = false :=
  Nat.testBit_lt_two_pow (x.toNat_lt.trans_le (Nat.pow_le_pow_right (by omega) hl))

theorem byte_ext {x y : UInt8} (h : ∀ l < 8, x.toNat.testBit l = y.toNat.testBit l) : x = y := by
  refine UInt8.toNat_inj.1 (Nat.eq_of_testBit_eq fun l => ?_)
  by_cases hl : l < 8
  · exact h l hl
  · rw [testBit_byte_of_le x (by omega), testBit_byte_of_le y (by omega)]

theorem getbits_congr {x y : UInt8} {off size : ℤ} {bigendian : Bool}
    (h : ∀ l < 8, InSlot bigendian off size l → x.toNat.testBit l = y.toNat.testBit l) :
    getbits x off size bigendian = getbits y off size bigendian := by
  refine byte_ext fun l hl => ?_
  rw [testBit_getbits x _ _ _ hl, testBit_getbits y _ _ _ hl]
  by_cases hm : l < (size % 32).toNat
  · congr 1
    by_cases hs : slotShift bigendian off size + l < 8
    · exact h _ hs ⟨Nat.le_add_right _ _, by omega⟩
    · rw [testBit_byte_of_le x (by omega), testBit_byte_of_le y (by omega)]
  · simp [hm]

theorem getbits_setbits (x v : UInt8) {off size : ℤ} (bigendian : Bool)
    (hsize : 0 ≤ size) (hslot : slotShift bigendian off size + size.toNat ≤ 8) :
    (getbits (setbits x off size v bigendian) off size bigendian).toNat =
      v.toNat % 2 ^ size.toNat := by
  have hm : (size % 32).toNat = size.toNat := by omega
  refine Nat.eq_of_testBit_eq fun l => ?_
  rw [Nat.testBit_mod_two_pow]
  by_cases hl : l < 8
  · rw [testBit_getbits _ _ _ _ hl, hm]
    by_cases hlm : l < size.toNat
    · have hin : InSlot bigendian off size (slotShift bigendian off size + l) :=
        ⟨Nat.le_add_right _ _, by omega⟩
      rw [testBit_setbits _ _ _ _ _ (by omega), if_pos hin, Nat.add_sub_cancel_left]
    · simp [hlm]
  · have hlm : ¬l < size.toNat := by omega
    rw [testBit_byte_of_le _ (by omega)]
    simp [hlm]

end Byte

/-! ## The bits of a list of bytes -/

/-- The bits that the loops of `vbuffer_asbits` and `vbuffer_setbits` take in a byte, when `bits`
are left from the offset `off` on. -/
def slotSize (off : ℤ) (bits : ℕ) : ℕ :=
  if 0 ≤ 8 - off ∧ 8 - off < bits then (8 - off).toNat else bits

/-- The offset and the size in the byte `k` of the loops. -/
def bitSlot (off : ℤ) (bits : ℕ) : ℕ → ℤ × ℕ
  | 0 => (off, slotSize off bits)
  | k + 1 => bitSlot 0 (bits - slotSize off bits) k

/-- What `vbuffer_asbits` returns for these bytes. -/
def readBits (bigendian : Bool) (bytes : List UInt8) (offset bits : ℕ) : ℤ :=
  (asbitsLoop bigendian ((bytes.take ((offset + bits + 7) / 8)).drop (offset / 8)) offset bits 0 0 :
    ℤ).bmod (2 ^ 64)

/-- What `vbuffer_setbits` writes over these bytes. -/
def writeBits (bigendian : Bool) (bytes : List UInt8) (offset bits : ℕ) (num : ℤ) : List UInt8 :=
  bytes.take (offset / 8) ++
    setbitsLoop bigendian ((bytes.take ((offset + bits + 7) / 8)).drop (offset / 8)) offset bits num

section Slots

variable {bigendian : Bool} {off : ℤ} {bits : ℕ}

theorem setbitsLoop_cons (x : UInt8) (bytes : List UInt8) (num : ℤ) :
    setbitsLoop bigendian (x :: bytes) off bits num =
      setbits x off (slotSize off bits) (UInt8.ofNat
        (num / 2 ^ (if bigendian then bits - slotSize off bits else 0) % 256).toNat) bigendian ::
      setbitsLoop bigendian bytes 0 (bits - slotSize off bits)
        (if bigendian then num else num / 2 ^ slotSize off bits) := by
  cases bigendian <;> simp [setbitsLoop, slotSize]

theorem setbitsLoop_length (bytes : List UInt8) (num : ℤ) :
    (setbitsLoop bigendian bytes off bits num).length = bytes.length := by
  induction bytes generalizing off bits num with
  | nil => rfl
  | cons x bytes ih => rw [setbitsLoop_cons, length_cons, ih, length_cons]

theorem setbitsLoop_getElem? (bytes : List UInt8) (num : ℤ) (k : ℕ) :
    ∃ v, (setbitsLoop bigendian bytes off bits num)[k]? = bytes[k]?.map fun x =>
      setbits x (bitSlot off bits k).1 (bitSlot off bits k).2 v bigendian := by
  induction bytes generalizing off bits num k with
  | nil => exact ⟨0, rfl⟩
  | cons x bytes ih =>
    rw [setbitsLoop_cons]
    cases k with
    | zero => exact ⟨_, rfl⟩
    | succ k => exact ih _ k

theorem asbitsLoop_congr {xs ys : List UInt8} (hlen : xs.length = ys.length) (shiftbits ret : ℕ)
    (h : ∀ k x y, xs[k]? = some x → ys[k]? = some y →
      getbits x (bitSlot off bits k).1 (bitSlot off bits k).2 bigendian =
        getbits y (bitSlot off bits k).1 (bitSlot off bits k).2 bigendian) :
    asbitsLoop bigendian xs off bits shiftbits ret =
      asbitsLoop bigendian ys off bits shiftbits ret := by
  induction xs generalizing ys off bits shiftbits ret with
  | nil =>
    obtain rfl : ys = [] := length_eq_zero_iff.1 hlen.symm
    rfl
  | cons x xs ih =>
    obtain ⟨y, ys, rfl⟩ : ∃ y l, ys = y :: l := exists_cons_of_length_eq_add_one hlen.symm
    have hhead := h 0 x y rfl rfl
    have hstep := fun sh r => ih (Nat.succ.inj hlen) sh r fun k x' y' hx hy => h (k + 1) x' y' hx hy
    rw [asbitsLoop, asbitsLoop]
    simp only [bitSlot, slotSize] at hhead hstep
    cases bigendian with
    | true =>
      simp only [if_true, hhead]
      exact hstep _ _
    | false =>
      simp only [Bool.false_eq_true, if_false, hhead]
      exact hstep _ _

theorem slotSize_small {o : ℕ} (ho : o < 8) : slotSize o bits = min (8 - o) bits := by
  unfold slotSize
  split_ifs <;> omega

theorem slotSize_eight (hbits : 0 < bits) : slotSize 8 bits = 0 := by
  unfold slotSize
  split_ifs <;> omega

theorem slotSize_large {o : ℕ} (ho : 9 ≤ o) : slotSize o bits = bits := by
  unfold slotSize
  split_ifs <;> omega

theorem bitSlot_small {o : ℕ} (ho : o < 8) (k : ℕ) : bitSlot o bits k =
      if k = 0 then ((o : ℤ), min (8 - o) bits) else (0, min 8 (o + bits - 8 * k)) := by
  induction k generalizing o bits with
  | zero => rw [bitSlot, slotSize_small ho, if_pos rfl]
  | succ k ih =>
    have hrest : bitSlot (0 : ℕ) (bits - min (8 - o) bits) k = _ := ih (by omega)
    rw [Nat.cast_zero] at hrest
    rw [bitSlot, slotSize_small ho, hrest, if_neg (Nat.succ_ne_zero k)]
    split_ifs <;> refine Prod.ext rfl ?_ <;> dsimp only <;> omega

theorem bitSlot_eight (hbits : 0 < bits) (k : ℕ) :
    bitSlot 8 bits k = if k = 0 then (8, 0) else (0, min 8 (bits - 8 * (k - 1))) := by
  cases k with
  | zero => rw [bitSlot, slotSize_eight hbits, if_pos rfl]
  | succ k =>
    have hsmall : bitSlot (0 : ℕ) bits k = _ := bitSlot_small (by omega) k
    rw [Nat.cast_zero] at hsmall
    rw [bitSlot, slotSize_eight hbits, Nat.sub_zero, hsmall, if_neg (Nat.succ_ne_zero k),
      Nat.add_sub_cancel]
    split_ifs <;> refine Prod.ext rfl ?_ <;> dsimp only <;> omega

theorem bitSlot_large {o : ℕ} (ho : 9 ≤ o) (k : ℕ) :
    bitSlot o bits k = if k = 0 then ((o : ℤ), bits) else (0, 0) := by
  cases k with
  | zero => rw [bitSlot, slotSize_large ho, if_pos rfl]
  | succ k =>
    have hsmall : bitSlot (0 : ℕ) 0 k = _ := bitSlot_small (by omega) k
    rw [Nat.cast_zero] at hsmall
    rw [bitSlot, slotSize_large ho, Nat.sub_self, hsmall, if_neg (Nat.succ_ne_zero k)]
    split_ifs <;> refine Prod.ext rfl ?_ <;> dsimp only <;> omega

end Slots

/-! ## The fields that are read and written as they should be -/

/-- The fields for which `vbuffer_setbits` and `vbuffer_asbits` are right: the field begins in the
first byte, or is in the fifth byte from its first bit on. A little-endian field must not reach the
sign of an `int`, and if a big-endian one ends inside a byte, no field behind it may be read across
the first bits of that byte. -/
def BitsSound (bigendian : Bool) (size offset bits : ℕ) : Prop :=
  (offset < 8 ∧ (bigendian = true →
      ¬(8 < offset + bits ∧ offset + bits < 32 ∧ (offset + bits) % 8 ≠ 0 ∧ 5 ≤ size)) ∧
    (bigendian = false → bits ≤ 31)) ∨
  (offset = 32 ∧ bits ≤ 8)

instance (bigendian : Bool) (size offset bits : ℕ) :
    Decidable (BitsSound bigendian size offset bits) :=
  inferInstanceAs (Decidable (_ ∨ _))

section Sound

variable {bigendian : Bool} {size offset bits : ℕ}

variable {i l : ℕ} {bytes : List UInt8}

theorem inSlot_field (hsound : offset < 8 ∨ (offset = 32 ∧ bits ≤ 8)) (hl : l < 8)
    (hi : offset / 8 ≤ i) (hend : i < (offset + bits + 7) / 8) :
    InSlot bigendian (bitSlot offset bits (i - offset / 8)).1
        (bitSlot offset bits (i - offset / 8)).2 l ↔
      offset ≤ 8 * i + (if bigendian then 7 - l else l) ∧
        8 * i + (if bigendian then 7 - l else l) < offset + bits := by
  rcases hsound with ho | ⟨rfl, hbits⟩
  on_goal 1 => rw [bitSlot_small ho]
  on_goal 2 => rw [bitSlot_large (by omega)]
  all_goals
    unfold InSlot slotShift
    split_ifs <;> dsimp only <;> omega

theorem not_inSlot_of_sound (hsound : BitsSound bigendian size offset bits) {o' n : ℕ}
    (hn : 0 < n) (hin : o' + n ≤ 8 * min size 8) (hapart : o' + n ≤ offset ∨ offset + bits ≤ o')
    (hl : l < 8) (hi : o' / 8 ≤ i) (hend : i < (o' + n + 7) / 8)
    (hslot : InSlot bigendian (bitSlot o' n (i - o' / 8)).1 (bitSlot o' n (i - o' / 8)).2 l) :
    ¬(offset ≤ 8 * i + (if bigendian then 7 - l else l) ∧
      8 * i + (if bigendian then 7 - l else l) < offset + bits) := by
  unfold BitsSound at hsound
  rcases lt_trichotomy o' 8 with ho | rfl | ho
  · have := (inSlot_field (.inl ho) hl hi hend).1 hslot
    omega
  on_goal 1 => rw [show ((8 : ℕ) : ℤ) = 8 from rfl, bitSlot_eight hn] at hslot
  on_goal 2 => rw [bitSlot_large (by omega)] at hslot
  all_goals
    unfold InSlot slotShift at hslot
    cases bigendian with
    | true =>
      simp only [if_true, true_implies, reduceCtorEq, false_implies, and_true] at hslot hsound ⊢
      split_ifs at hslot <;> dsimp only at hslot <;> omega
    | false =>
      simp only [Bool.false_eq_true, if_false, false_implies, true_and,
        true_implies] at hslot hsound ⊢
      split_ifs at hslot <;> dsimp only at hslot <;> omega

/-- The bytes that a field lies in. -/
def fieldBytes (bytes : List UInt8) (offset bits : ℕ) : List UInt8 :=
  (bytes.take ((offset + bits + 7) / 8)).drop (offset / 8)

section

variable (hlen : (offset + bits + 7) / 8 ≤ bytes.length)

include hlen

theorem length_fieldBytes :
    (fieldBytes bytes offset bits).length = (offset + bits + 7) / 8 - offset / 8 := by
  rw [fieldBytes, length_drop, length_take]
  omega

theorem fieldBytes_cons
    (hpos : offset / 8 < (offset + bits + 7) / 8) :
    ∃ x rest, fieldBytes bytes offset bits = x :: rest := by
  refine exists_cons_of_ne_nil (ne_nil_of_length_pos ?_)
  rw [length_fieldBytes hlen]
  omega

theorem length_take_field :
    (bytes.take (offset / 8)).length = offset / 8 := by
  rw [length_take]
  omega

def patchBits (bigendian : Bool) (bytes : List UInt8) (offset bits : ℕ) (num : ℤ) : List UInt8 :=
  writeBits bigendian bytes offset bits num ++ bytes.drop ((offset + bits + 7) / 8)

theorem length_writeBits (num : ℤ) :
    (writeBits bigendian bytes offset bits num).length = (offset + bits + 7) / 8 := by
  rw [writeBits, length_append, setbitsLoop_length, length_drop, length_take, length_take]
  omega

end

theorem writeBits_getElem?_of_lt (hi : i < offset / 8) (num : ℤ)
    (hlen : (offset + bits + 7) / 8 ≤ bytes.length) :
    (writeBits bigendian bytes offset bits num)[i]? = bytes[i]? := by
  rw [writeBits, getElem?_append_left (by rw [length_take]; omega), getElem?_take_of_lt hi]

theorem writeBits_getElem? (hi : offset / 8 ≤ i) (hlen : (offset + bits + 7) / 8 ≤ bytes.length)
    (num : ℤ) : (writeBits bigendian bytes offset bits num)[i]? =
      (setbitsLoop bigendian (fieldBytes bytes offset bits) offset bits num)[i - offset / 8]? := by
  have htake := length_take_field hlen
  rw [writeBits, getElem?_append_right (by omega), htake, fieldBytes]

theorem writeBits_getElem?_of_le (hi : offset / 8 ≤ i) (hend : i < (offset + bits + 7) / 8)
    (hlen : (offset + bits + 7) / 8 ≤ bytes.length) (num : ℤ) :
    ∃ v, (writeBits bigendian bytes offset bits num)[i]? = bytes[i]?.map fun x =>
      setbits x (bitSlot offset bits (i - offset / 8)).1 (bitSlot offset bits (i - offset / 8)).2 v
        bigendian := by
  obtain ⟨v, hv⟩ : ∃ v, (setbitsLoop bigendian (fieldBytes bytes offset bits) offset bits
    num)[i - offset / 8]? = _ := setbitsLoop_getElem? _ num (i - offset / 8)
  refine ⟨v, ?_⟩
  rw [writeBits_getElem? hi hlen, hv, fieldBytes, getElem?_drop, Nat.add_sub_cancel' hi,
    getElem?_take_of_lt hend]

theorem length_patchBits (hlen : (offset + bits + 7) / 8 ≤ bytes.length) (num : ℤ) :
    (patchBits bigendian bytes offset bits num).length = bytes.length := by
  rw [patchBits, length_append, length_writeBits hlen, length_drop]
  omega

theorem testBit_patchBits (hlen : (offset + bits + 7) / 8 ≤ bytes.length)
    (hsound : offset < 8 ∨ (offset = 32 ∧ bits ≤ 8)) (num : ℤ) {x y : UInt8}
    (hx : bytes[i]? = some x) (hy : (patchBits bigendian bytes offset bits num)[i]? = some y)
    (hl : l < 8) (hout : ¬(offset ≤ 8 * i + (if bigendian then 7 - l else l) ∧
      8 * i + (if bigendian then 7 - l else l) < offset + bits)) :
    y.toNat.testBit l = x.toNat.testBit l := by
  have hwlen : (writeBits bigendian bytes offset bits num).length = (offset + bits + 7) / 8 :=
    length_writeBits hlen num
  rw [patchBits] at hy
  by_cases hend : i < (offset + bits + 7) / 8
  · rw [getElem?_append_left (by omega)] at hy
    by_cases hi : offset / 8 ≤ i
    · obtain ⟨v, hv⟩ : ∃ v, (writeBits bigendian bytes offset bits num)[i]? = _ :=
        writeBits_getElem?_of_le hi hend hlen num
      rw [hv, hx, Option.map_some, Option.some.injEq] at hy
      rw [← hy, testBit_setbits _ _ _ _ _ hl, if_neg]
      rwa [inSlot_field hsound hl hi hend]
    · rw [writeBits_getElem?_of_lt (by omega) num hlen, hx, Option.some.injEq] at hy
      rw [hy]
  · rw [getElem?_append_right (by omega), hwlen, getElem?_drop,
      Nat.add_sub_cancel' (by omega), hx, Option.some.injEq] at hy
    rw [hy]

/-- **Frame.** A sound field leaves what is read of every other field as it is. -/
theorem readBits_patchBits_of_apart (hsound : BitsSound bigendian size offset bits)
    (hlen : (offset + bits + 7) / 8 ≤ bytes.length) (num : ℤ) {o' n : ℕ} (hn : 0 < n)
    (hin : o' + n ≤ 8 * min size 8) (hapart : o' + n ≤ offset ∨ offset + bits ≤ o') :
    readBits bigendian (patchBits bigendian bytes offset bits num) o' n =
      readBits bigendian bytes o' n := by
  have hplen : (patchBits bigendian bytes offset bits num).length = bytes.length :=
    length_patchBits hlen num
  have hfield : offset < 8 ∨ (offset = 32 ∧ bits ≤ 8) := hsound.imp_left And.left
  unfold readBits
  congr 2
  refine asbitsLoop_congr (by simp only [length_drop, length_take, hplen]) 0 0 ?_
  intro k y x hy hx
  have hk : k < (o' + n + 7) / 8 - o' / 8 := by
    have := (List.getElem?_eq_some_iff.1 hx).1
    rw [length_drop, length_take] at this
    omega
  rw [getElem?_drop, getElem?_take_of_lt (by omega)] at hx hy
  refine getbits_congr fun l hl hslot => ?_
  refine testBit_patchBits hlen hfield num hx hy hl ?_
  refine not_inSlot_of_sound hsound hn hin hapart hl (Nat.le_add_right _ _) (by omega) ?_
  rwa [Nat.add_sub_cancel_left]

end Sound

/-! ## The round trip of a field -/

section RoundTrip

theorem byte_of_nat (num r : ℕ) :
    (UInt8.ofNat ((num : ℤ) / 2 ^ r % 256).toNat).toNat = num / 2 ^ r % 256 := by
  have hcast : ((num : ℤ) / 2 ^ r % 256).toNat = num / 2 ^ r % 256 := by
    have : ((num / 2 ^ r % 256 : ℕ) : ℤ) = (num : ℤ) / 2 ^ r % 256 := by push_cast; rfl
    rw [← this, Int.toNat_natCast]
  rw [hcast, UInt8.toNat_ofNat', Nat.mod_mod]

theorem getbits_setbits_nat (x : UInt8) {off n : ℕ} (bigendian : Bool)
    (hslot : off % 32 + n ≤ 8) (num r : ℕ) :
    (getbits (setbits x off n (UInt8.ofNat ((num : ℤ) / 2 ^ r % 256).toNat) bigendian) off n
      bigendian).toNat = num / 2 ^ r % 2 ^ n := by
  have hshift : slotShift bigendian off n + (n : ℤ).toNat ≤ 8 := by
    rw [slotShift_of_le hslot]
    split_ifs <;> omega
  have hdvd : 2 ^ n ∣ 256 := by
    rw [show 256 = 2 ^ 8 from rfl]
    exact pow_dvd_pow 2 (by omega)
  rw [getbits_setbits x _ bigendian (Int.natCast_nonneg n) hshift, Int.toNat_natCast, byte_of_nat,
    Nat.mod_mod_of_dvd _ hdvd]

theorem asbitsLoop_setbitsLoop_big (bytes : List UInt8) (num : ℕ) :
    ∀ {off bits k : ℕ} (shiftbits : ℕ) {ret : ℕ}, off < 8 → off + bits ≤ 8 * bytes.length →
      ret < 2 ^ k → k + bits ≤ 64 →
      asbitsLoop true (setbitsLoop true bytes off bits num) off bits shiftbits ret =
        ret * 2 ^ bits + num % 2 ^ bits := by
  induction bytes with
  | nil =>
    intro off bits k shiftbits ret hoff hbits _ _
    obtain rfl : bits = 0 := by simp at hbits; omega
    simp [setbitsLoop, asbitsLoop, Nat.mod_one]
  | cons x bytes ih =>
    intro off bits k shiftbits ret hoff hbits hret hk
    obtain ⟨n, hn⟩ : ∃ n, n = min (8 - off) bits := ⟨_, rfl⟩
    have hsize : slotSize off bits = n := (slotSize_small hoff).trans hn.symm
    rw [slotSize] at hsize
    rw [length_cons] at hbits
    rw [setbitsLoop, if_pos rfl, asbitsLoop, if_pos rfl, hsize,
      getbits_setbits_nat x true (by omega) num (bits - n)]
    obtain ⟨hor, hret'⟩ := append_bits hret
      (Nat.mod_lt (num / 2 ^ (bits - n)) (Nat.two_pow_pos n)) (by omega)
    have hloop := ih (shiftbits + n) (by omega)
      (show 0 + (bits - n) ≤ 8 * bytes.length by omega) hret' (by omega)
    rw [Nat.cast_zero] at hloop
    rw [hor, hloop]
    -- the bits of the byte stand above those of the rest
    obtain ⟨r, rfl⟩ : ∃ r, bits = r + n := ⟨bits - n, by omega⟩
    rw [Nat.add_sub_cancel, pow_add, Nat.mod_mul]
    ring

theorem extend32_of_lt {x : UInt32} (hx : x.toNat < 2 ^ 31) : extend32 x = x.toNat := by
  have hhigh : x.toNat < 2 ^ (32 - 1) := hx
  have hsign := bmod_of_lt (by omega) hhigh
  unfold extend32
  omega

theorem asbitsLoop_setbitsLoop_little (bytes : List UInt8) :
    ∀ {off bits shiftbits ret : ℕ} (num : ℕ), off < 8 → off + bits ≤ 8 * bytes.length →
      ret < 2 ^ shiftbits → shiftbits + bits ≤ 31 →
      asbitsLoop false (setbitsLoop false bytes off bits num) off bits shiftbits ret =
        ret + num % 2 ^ bits * 2 ^ shiftbits := by
  induction bytes with
  | nil =>
    intro off bits shiftbits ret num hoff hbits _ _
    obtain rfl : bits = 0 := by simp at hbits; omega
    simp [setbitsLoop, asbitsLoop, Nat.mod_one]
  | cons x bytes ih =>
    intro off bits shiftbits ret num hoff hbits hret hk
    obtain ⟨n, hn⟩ : ∃ n, n = min (8 - off) bits := ⟨_, rfl⟩
    have hsize : slotSize off bits = n := (slotSize_small hoff).trans hn.symm
    rw [slotSize] at hsize
    rw [length_cons] at hbits
    have hbyte : num % 2 ^ n < 2 ^ n := Nat.mod_lt _ (Nat.two_pow_pos n)
    have hget := getbits_setbits_nat x false (by omega : off % 32 + n ≤ 8) num 0
    simp only [pow_zero, Int.ediv_one, Nat.div_one] at hget
    have hlt : num % 2 ^ n * 2 ^ shiftbits < 2 ^ 31 :=
      calc num % 2 ^ n * 2 ^ shiftbits < 2 ^ n * 2 ^ shiftbits :=
            Nat.mul_lt_mul_of_pos_right hbyte (Nat.two_pow_pos _)
        _ = 2 ^ (n + shiftbits) := (pow_add 2 n shiftbits).symm
        _ ≤ 2 ^ 31 := Nat.pow_le_pow_right (by omega) (by omega)
    have hshift : (shiftLeft32 (getbits (setbits x off n
        (UInt8.ofNat ((num : ℤ) % 256).toNat) false) off n false).toUInt32 shiftbits).toNat =
        num % 2 ^ n * 2 ^ shiftbits := by
      rw [shiftLeft32_toNat, UInt8.toNat_toUInt32, hget,
        show ((shiftbits : ℤ) % 32).toNat = shiftbits by omega, Nat.shiftLeft_eq,
        Nat.mod_eq_of_lt (hlt.trans (by norm_num))]
    have hor : ret ||| num % 2 ^ n * 2 ^ shiftbits = ret + num % 2 ^ n * 2 ^ shiftbits := by
      rw [Nat.or_comm, ← Nat.shiftLeft_eq, ← Nat.shiftLeft_add_eq_or_of_lt hret, Nat.shiftLeft_eq,
        Nat.add_comm]
    have hret' : ret + num % 2 ^ n * 2 ^ shiftbits < 2 ^ (shiftbits + n) := by
      rw [pow_add]
      calc _ < 2 ^ shiftbits + num % 2 ^ n * 2 ^ shiftbits := Nat.add_lt_add_right hret _
        _ = (num % 2 ^ n + 1) * 2 ^ shiftbits := by ring
        _ ≤ 2 ^ n * 2 ^ shiftbits := Nat.mul_le_mul_right _ hbyte
        _ = 2 ^ shiftbits * 2 ^ n := Nat.mul_comm _ _
    have hloop := ih (num / 2 ^ n) (by omega)
      (show 0 + (bits - n) ≤ 8 * bytes.length by omega) hret' (by omega)
    push_cast at hloop
    rw [setbitsLoop, if_neg Bool.false_ne_true, asbitsLoop, if_neg Bool.false_ne_true, hsize,
      extend32_of_lt (by rw [hshift]; exact hlt), hshift, hor, hloop]
    obtain ⟨r, rfl⟩ : ∃ r, bits = n + r := ⟨bits - n, by omega⟩
    rw [Nat.add_sub_cancel_left, pow_add 2 n r, Nat.mod_mul, pow_add]
    ring

theorem asbitsLoop_setbitsLoop_byte (x : UInt8) {bits num : ℕ} (bigendian : Bool)
    (hbits : bits ≤ 8) (hnum : num < 2 ^ bits) :
    asbitsLoop bigendian (setbitsLoop bigendian [x] (32 : ℕ) bits num) (32 : ℕ) bits 0 0 = num := by
  have hsize : slotSize (32 : ℕ) bits = bits := slotSize_large (by omega)
  have hlt : num < 256 := hnum.trans_le (Nat.pow_le_pow_right (by omega) hbits)
  have hget := getbits_setbits_nat x bigendian (show 32 % 32 + bits ≤ 8 by omega) num 0
  simp only [pow_zero, Int.ediv_one, Nat.div_one, Nat.mod_eq_of_lt hnum] at hget
  rw [slotSize] at hsize
  cases bigendian with
  | true =>
    simp only [setbitsLoop, asbitsLoop, if_true, hsize, Nat.sub_self, pow_zero, Int.ediv_one, hget]
    simp
  | false =>
    have hshift : (shiftLeft32 (getbits (setbits x (32 : ℕ) bits
        (UInt8.ofNat ((num : ℤ) % 256).toNat) false) (32 : ℕ) bits false).toUInt32
          (0 : ℕ)).toNat = num := by
      rw [shiftLeft32_toNat, UInt8.toNat_toUInt32, hget]
      simp only [Nat.cast_zero, Int.zero_emod, Int.toNat_zero, Nat.shiftLeft_zero]
      omega
    simp only [setbitsLoop, asbitsLoop, Bool.false_eq_true, if_false, hsize]
    rw [extend32_of_lt (by rw [hshift]; omega), hshift, Nat.zero_or]

/-- **Round trip.** A sound field is read back. -/
theorem readBits_patchBits {bigendian : Bool} {offset bits : ℕ} {bytes : List UInt8}
    (hsound : (offset < 8 ∧ (bigendian = false → bits ≤ 31)) ∨ (offset = 32 ∧ bits ≤ 8))
    (hpos : 0 < bits) (hbits : bits ≤ 63) (hend : offset + bits ≤ 64)
    (hlen : (offset + bits + 7) / 8 ≤ bytes.length) {num : ℕ} (hnum : num < 2 ^ bits) :
    readBits bigendian (patchBits bigendian bytes offset bits num) offset bits = num := by
  have hbytes : fieldBytes (patchBits bigendian bytes offset bits num) offset bits =
      setbitsLoop bigendian (fieldBytes bytes offset bits) offset bits num := by
    rw [fieldBytes, patchBits, take_left' (length_writeBits hlen num), writeBits,
      drop_left' (length_take_field hlen), fieldBytes]
  have hlist := length_fieldBytes hlen
  have hloop : asbitsLoop bigendian (setbitsLoop bigendian (fieldBytes bytes offset bits) offset
      bits num) offset bits 0 0 = num := by
    rcases hsound with ⟨ho, hlittle⟩ | ⟨rfl, hsmall⟩
    · cases bigendian with
      | true =>
        rw [asbitsLoop_setbitsLoop_big _ num 0 ho (by omega) (Nat.two_pow_pos 0) (by omega),
          Nat.zero_mul, Nat.zero_add, Nat.mod_eq_of_lt hnum]
      | false =>
        have hshort := hlittle rfl
        rw [asbitsLoop_setbitsLoop_little _ num ho (by omega) (Nat.two_pow_pos 0) (by omega),
          pow_zero, Nat.mul_one, Nat.zero_add, Nat.mod_eq_of_lt hnum]
    · obtain ⟨x, hx⟩ := length_eq_one_iff.1 (hlist.trans (by omega))
      rw [hx]
      exact asbitsLoop_setbitsLoop_byte x bigendian hsmall hnum
  have hlt : num < 2 ^ (64 - 1) := hnum.trans_le (Nat.pow_le_pow_right Nat.two_pos (by omega))
  have hsign := bmod_of_lt (by omega) hlt
  rw [fieldBytes] at hbytes
  unfold readBits
  rw [hbytes, hloop]
  exact hsign

end RoundTrip

/-! ## The fields that are not -/

section Lost

variable {bigendian : Bool} {bits : ℕ}

theorem setbits_congr (x : UInt8) {v w : UInt8} {off size : ℤ}
    (h : ∀ l < 8, InSlot bigendian off size l → v.toNat.testBit (l - slotShift bigendian off size) =
        w.toNat.testBit (l - slotShift bigendian off size)) :
    setbits x off size v bigendian = setbits x off size w bigendian := by
  refine byte_ext fun l hl => ?_
  rw [testBit_setbits x v _ _ _ hl, testBit_setbits x w _ _ _ hl]
  by_cases hin : InSlot bigendian off size l
  · rw [if_pos hin, if_pos hin, h l hl hin]
  · rw [if_neg hin, if_neg hin]

/-- The bit `i` of a number in two's complement. -/
def numBit (num : ℤ) (i : ℕ) : Bool := decide ((num / 2 ^ i) % 2 = 1)

theorem numBit_div (num : ℤ) (r i : ℕ) : numBit (num / 2 ^ r) i = numBit num (r + i) := by
  rw [numBit, numBit, Int.ediv_ediv_of_nonneg (by positivity), ← pow_add]

theorem testBit_byte (num : ℤ) {l : ℕ} (hl : l < 8) :
    (UInt8.ofNat (num % 256).toNat).toNat.testBit l = numBit num l := by
  have hbyte : (UInt8.ofNat (num % 256).toNat).toNat = (num % 256).toNat := by
    rw [UInt8.toNat_ofNat']
    omega
  rw [hbyte, Nat.testBit_eq_decide_div_mod_eq, numBit]
  congr 1
  apply propext
  interval_cases l <;> simp only [pow_zero, Nat.reducePow, Int.reducePow] <;> omega

variable {i : ℕ}

theorem setbits_field_bit (x : UInt8) {off n : ℕ} (big : Bool) (hslot : off % 32 + n ≤ 8) (num : ℤ)
    (hi : i < n) :
    (setbits x off n (UInt8.ofNat (num % 256).toNat) big).toNat.testBit
        (if big then 7 - (off % 32 + i) else off % 32 + i) =
      numBit num (if big then n - 1 - i else i) := by
  have hshift : slotShift big off n = _ := slotShift_of_le hslot
  rw [testBit_setbits _ _ _ _ _ (by split_ifs <;> omega), if_pos, hshift,
    testBit_byte _ (by split_ifs <;> omega)]
  · congr 1
    split_ifs <;> omega
  · rw [InSlot, hshift]
    split_ifs <;> omega

theorem setbitsLoop_field_bit (big : Bool) (bytes : List UInt8) :
    ∀ {off bits : ℕ} (num : ℤ), off < 8 → ∀ {i : ℕ}, i < bits → ∀ {y : UInt8},
      (setbitsLoop big bytes off bits num)[(off + i) / 8]? = some y →
      y.toNat.testBit (if big then 7 - (off + i) % 8 else (off + i) % 8) =
        numBit num (if big then bits - 1 - i else i) := by
  induction bytes with
  | nil =>
    intro off bits num _ i _ y hy
    simp [setbitsLoop] at hy
  | cons x bytes ih =>
    intro off bits num hoff i hi y hy
    obtain ⟨n, hn⟩ : ∃ n, n = min (8 - off) bits := ⟨_, rfl⟩
    have hsize : slotSize off bits = n := (slotSize_small hoff).trans hn.symm
    by_cases hin : i < n
    · -- a bit of the first byte
      rw [show (off + i) / 8 = 0 by omega, setbitsLoop_cons, hsize, getElem?_cons_zero,
        Option.some.injEq] at hy
      have hbit := setbits_field_bit x big (show off % 32 + n ≤ 8 by omega)
        (num / 2 ^ (if big then bits - n else 0)) hin
      rw [Nat.mod_eq_of_lt (show off < 32 by omega), numBit_div, hy] at hbit
      rw [show (off + i) % 8 = off + i by omega, hbit]
      congr 1
      split_ifs <;> omega
    · -- a bit of the rest, which begins at the next byte
      rw [show (off + i) / 8 = (0 + (i - n)) / 8 + 1 by omega, setbitsLoop_cons, hsize,
        getElem?_cons_succ] at hy
      rw [show (off + i) % 8 = (0 + (i - n)) % 8 by omega, ih _ (show 0 < 8 by omega) (by omega) hy]
      split_ifs
      · congr 1
        omega
      · rw [numBit_div]
        congr 1
        omega

theorem numBit_pow {t : ℕ} (hi : i ≠ t) : numBit ((2 ^ t : ℕ) : ℤ) i = numBit ((0 : ℕ) : ℤ) i := by
  have hnat : ∀ n : ℕ, numBit n i = n.testBit i := fun n => by
    rw [Nat.testBit_eq_decide_div_mod_eq, numBit]
    norm_cast
  rw [hnat, hnat, Nat.testBit_two_pow_of_ne hi.symm, Nat.zero_testBit]

/-- Every byte of a field has a bit of its own; so has the rest of a field behind the bytes there
are. -/
theorem setbitsLoop_bit {k off : ℕ} {bytes : List UInt8} (hoff : off < 8) (hk : 8 * k < off + bits)
    (hpos : 0 < bits) (hlen : bytes.length ≤ (off + bits + 7) / 8) :
    ∃ t < bits, ∀ i ≠ k, (setbitsLoop bigendian bytes off bits ((2 ^ t : ℕ) : ℤ))[i]? =
      (setbitsLoop bigendian bytes off bits ((0 : ℕ) : ℤ))[i]? := by
  -- the first bit of the field in the byte
  obtain ⟨p, hp⟩ : ∃ p, p = max off (8 * k) - off := ⟨_, rfl⟩
  obtain ⟨t, ht⟩ : ∃ t, t = if bigendian then bits - 1 - p else p := ⟨_, rfl⟩
  refine ⟨t, by split at ht <;> omega, fun i hi => ?_⟩
  obtain ⟨v, hv⟩ : ∃ v, (setbitsLoop bigendian bytes off bits ((2 ^ t : ℕ) : ℤ))[i]? = _ :=
    setbitsLoop_getElem? bytes _ i
  obtain ⟨w, hw⟩ : ∃ w, (setbitsLoop bigendian bytes off bits ((0 : ℕ) : ℤ))[i]? = _ :=
    setbitsLoop_getElem? bytes _ i
  cases hx : bytes[i]? with
  | none => rw [hv, hw, hx, Option.map_none, Option.map_none]
  | some x =>
    have hil : i < (off + bits + 7) / 8 := (List.getElem?_eq_some_iff.1 hx).1.trans_le hlen
    rw [hx, Option.map_some] at hv hw
    rw [hv, hw]
    refine congrArg some (byte_ext fun l hl => ?_)
    by_cases hin : off ≤ 8 * i + (if bigendian then 7 - l else l) ∧
        8 * i + (if bigendian then 7 - l else l) < off + bits
    · obtain ⟨j, hj⟩ : ∃ j, off + j = 8 * i + (if bigendian then 7 - l else l) :=
        Nat.exists_eq_add_of_le hin.1 |>.imp fun _ h => h.symm
      have hdiv : (off + j) / 8 = i := by split at hj <;> omega
      have hmod : (if bigendian then 7 - (off + j) % 8 else (off + j) % 8) = l := by
        split_ifs at hj ⊢ <;> omega
      rw [← hdiv] at hv hw
      have hbv := setbitsLoop_field_bit bigendian bytes _ hoff (by omega) hv
      have hbw := setbitsLoop_field_bit bigendian bytes _ hoff (by omega) hw
      rw [hmod, hdiv] at hbv hbw
      rw [hbv, hbw]
      refine numBit_pow ?_
      split_ifs at ht hj ⊢ <;> omega
    · have hout : ¬InSlot bigendian _ _ l :=
        (inSlot_field (.inl hoff) hl (by omega) hil).not.2 hin
      rw [Nat.div_eq_of_lt hoff, Nat.sub_zero] at hout
      rw [testBit_setbits x v _ _ _ hl, testBit_setbits x w _ _ _ hl, if_neg hout, if_neg hout]

theorem setbits_none (x v : UInt8) (off : ℤ) : setbits x off 0 v bigendian = x := by
  refine byte_ext fun l hl => ?_
  rw [testBit_setbits x v _ _ _ hl, if_neg]
  rintro ⟨h1, h2⟩
  omega

theorem setbitsLoop_none (bytes : List UInt8) (num : ℤ) :
    setbitsLoop bigendian bytes 0 0 num = bytes := by
  induction bytes generalizing num with
  | nil => rfl
  | cons x bytes ih => simp [setbitsLoop_cons, slotSize, setbits_none, ih]

theorem setbitsLoop_eight (x : UInt8) (bytes : List UInt8) (hbits : 0 < bits) (num : ℤ) :
    setbitsLoop bigendian (x :: bytes) 8 bits num =
      x :: setbitsLoop bigendian bytes 0 bits num := by
  rw [setbitsLoop_cons, slotSize_eight hbits, Nat.cast_zero, setbits_none, Nat.sub_zero]
  split_ifs <;> simp

variable {o : ℕ} {bytes : List UInt8}

theorem setbitsLoop_large (x : UInt8) (bytes : List UInt8) (ho : 9 ≤ o) (num : ℤ) :
    setbitsLoop bigendian (x :: bytes) o bits num =
      setbits x o bits (UInt8.ofNat (num % 256).toNat) bigendian :: bytes := by
  rw [setbitsLoop_cons, slotSize_large ho, Nat.sub_self, setbitsLoop_none]
  split_ifs <;> simp

def BitsKept (offset bits : ℕ) : Prop := offset < 8 ∨ (32 ≤ offset ∧ offset + bits ≤ 40)

theorem setbitsLoop_lost (hpos : 0 < bits) (hend : o + bits ≤ 64) (hlost : ¬BitsKept o bits)
    (hlen : bytes.length = (o + bits + 7) / 8 - o / 8) :
    ∃ t < bits, setbitsLoop bigendian bytes o bits ((2 ^ t : ℕ) : ℤ) =
      setbitsLoop bigendian bytes o bits ((0 : ℕ) : ℤ) := by
  unfold BitsKept at hlost
  obtain ⟨x, rest, rfl⟩ : ∃ x l, bytes = x :: l :=
    exists_cons_of_length_eq_add_one (n := (o + bits + 7) / 8 - o / 8 - 1) (by omega)
  rw [length_cons] at hlen
  by_cases ho : o = 8
  · subst ho
    obtain ⟨t, ht, hrest⟩ : ∃ t < bits, ∀ i ≠ rest.length,
        (setbitsLoop bigendian rest (0 : ℕ) bits ((2 ^ t : ℕ) : ℤ))[i]? = _ :=
      setbitsLoop_bit (by omega) (by omega) hpos (by omega)
    refine ⟨t, ht, ?_⟩
    have hloop : setbitsLoop bigendian rest (0 : ℕ) bits ((2 ^ t : ℕ) : ℤ) =
        setbitsLoop bigendian rest (0 : ℕ) bits ((0 : ℕ) : ℤ) := by
      refine ext_getElem? fun i => ?_
      by_cases hi : i = rest.length
      · rw [getElem?_eq_none (by rw [setbitsLoop_length, hi]),
          getElem?_eq_none (by rw [setbitsLoop_length, hi])]
      · exact hrest i hi
    rw [Nat.cast_zero] at hloop
    rw [show ((8 : ℕ) : ℤ) = 8 from rfl, setbitsLoop_eight x rest hpos,
      setbitsLoop_eight x rest hpos, Nat.cast_zero, hloop]
  · refine ⟨bits - 1, by omega, ?_⟩
    rw [setbitsLoop_large x rest (by omega), setbitsLoop_large x rest (by omega)]
    congr 1
    refine setbits_congr x fun l hl ⟨h1, h2⟩ => ?_
    have hpow := byte_of_nat (2 ^ (bits - 1)) 0
    have hzero := byte_of_nat 0 0
    simp only [pow_zero, Int.ediv_one, Nat.div_one] at hpow hzero
    rw [hpow, hzero, show (256 : ℕ) = 2 ^ 8 from rfl, Nat.testBit_mod_two_pow,
      Nat.testBit_mod_two_pow, Nat.zero_testBit, Nat.testBit_two_pow_of_ne, Bool.and_false]
    -- the highest bit would have to be behind the end of the byte
    unfold slotShift at h1 h2 ⊢
    split_ifs at h1 h2 ⊢ <;> omega

theorem writeBits_lost (hpos : 0 < bits) (hend : o + bits ≤ 64) (hlost : ¬BitsKept o bits)
    (hlen : (o + bits + 7) / 8 ≤ bytes.length) :
    ∃ t < bits, writeBits bigendian bytes o bits ((2 ^ t : ℕ) : ℤ) =
      writeBits bigendian bytes o bits ((0 : ℕ) : ℤ) := by
  obtain ⟨t, ht, hloop⟩ := setbitsLoop_lost hpos hend hlost (length_fieldBytes hlen)
  rw [fieldBytes] at hloop
  exact ⟨t, ht, by rw [writeBits, writeBits, hloop]⟩

/-- Every byte of a field has a bit of its own. -/
theorem writeBits_bit {k : ℕ} (hpos : 0 < bits) (hend : o + bits ≤ 64) (hk : o / 8 ≤ k)
    (hke : k < (o + bits + 7) / 8) (hlen : (o + bits + 7) / 8 ≤ bytes.length) :
    ∃ t < bits, ∀ i ≠ k, (writeBits bigendian bytes o bits ((2 ^ t : ℕ) : ℤ))[i]? =
      (writeBits bigendian bytes o bits ((0 : ℕ) : ℤ))[i]? := by
  by_cases hkept : BitsKept o bits
  · have hbit : ∃ t < bits, ∀ i ≠ k - o / 8, (setbitsLoop bigendian (fieldBytes bytes o bits) o bits
        ((2 ^ t : ℕ) : ℤ))[i]? = (setbitsLoop bigendian (fieldBytes bytes o bits) o bits
          ((0 : ℕ) : ℤ))[i]? := by
      by_cases ho : o < 8
      · have hfield := length_fieldBytes hlen
        exact setbitsLoop_bit ho (by omega) hpos (by omega)
      · have hone := hkept.resolve_left ho
        obtain ⟨x, rest, hx⟩ := fieldBytes_cons hlen (by omega)
        refine ⟨0, hpos, fun i hi => ?_⟩
        rw [hx, setbitsLoop_large x rest (by omega), setbitsLoop_large x rest (by omega)]
        obtain ⟨j, rfl⟩ := Nat.exists_eq_succ_of_ne_zero (show i ≠ 0 by omega)
        rfl
    obtain ⟨t, ht, hbit⟩ := hbit
    refine ⟨t, ht, fun i hi => ?_⟩
    by_cases hlt : i < o / 8
    · rw [writeBits_getElem?_of_lt hlt _ hlen, writeBits_getElem?_of_lt hlt _ hlen]
    · rw [writeBits_getElem? (by omega) hlen, writeBits_getElem? (by omega) hlen]
      exact hbit _ (by omega)
  · obtain ⟨t, ht, heq⟩ : ∃ t < bits, writeBits bigendian bytes o bits ((2 ^ t : ℕ) : ℤ) = _ :=
      writeBits_lost hpos hend hkept hlen
    exact ⟨t, ht, fun i _ => by rw [heq]⟩

theorem readBits_sign : ∀ o < 8, ∀ n < 32, o + (n + 32) ≤ 64 →
    readBits false (patchBits false (replicate ((o + (n + 32) + 7) / 8) 0) o (n + 32) (2 ^ 31))
      o (n + 32) ≠ 2 ^ 31 := by
  decide +kernel

theorem readBits_behind : ∀ o < 8, ∀ n < 32, (8 < o + n ∧ o + n < 32 ∧ (o + n) % 8 ≠ 0) →
    readBits true (patchBits true (replicate 5 0) o n (2 ^ n - 1)) (o + n) (33 - (o + n)) ≠
      readBits true (replicate 5 0) (o + n) (33 - (o + n)) := by
  decide +kernel

theorem readBits_across (bigendian : Bool) : ∀ o < 7, ∀ n < 8, 0 < n → o + n < 8 →
    readBits bigendian (patchBits bigendian (replicate 5 0) (o + 33) n (2 ^ n - 1)) 8 (o + 25) ≠
      readBits bigendian (replicate 5 0) 8 (o + 25) := by
  cases bigendian <;> decide +kernel

end Lost

end Haka
