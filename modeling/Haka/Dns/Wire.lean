import Haka.Dns.Message

/-!
# Names on the wire

What the bytes of a message say, without a parser: where a label leads to (`follow`), and where a name
ends (`NameEnds`). The fields of a label and of a record read as these bytes.
-/

namespace Haka.Dns

open List

open Grammar (Position)

/-! ## The bytes of a message -/

/-- Where the label at an offset leads to: to the next label, to the target of a pointer, or nowhere
for the empty label. -/
def follow (input : List UInt8) (o : ℕ) : Option ℕ :=
  match input[o]?, input[o + 1]? with
  | some b, second =>
    if b.toNat < 64 then if b = 0 then none else some (o + 1 + b.toNat)
    else if 192 ≤ b.toNat then second.map fun c => b.toNat % 64 * 256 + c.toNat
    else none
  | none, _ => none

/-- The name at an offset ends at another one. -/
inductive NameEnds (input : List UInt8) : ℕ → ℕ → Prop
  | zero {o : ℕ} (hb : input[o]? = some 0) : NameEnds input o (o + 1)
  | pointer {o : ℕ} {b c : UInt8} (hb : input[o]? = some b) (hscheme : 192 ≤ b.toNat)
    (hc : input[o + 1]? = some c) : NameEnds input o (o + 2)
  | label {o e : ℕ} {b : UInt8} (hb : input[o]? = some b) (hpos : b ≠ 0) (hlt : b.toNat < 64)
    (hrest : NameEnds input (o + 1 + b.toNat) e) : NameEnds input o e

/-- The labels of the name at an offset, with the empty one at its end: RFC 1035, 4.1.4. -/
inductive Decompresses (input : List UInt8) : ℕ → List (List UInt8) → Prop
  | zero {o : ℕ} (hb : input[o]? = some 0) : Decompresses input o [[]]
  | label {o : ℕ} {b : UInt8} {names : List (List UInt8)} (hb : input[o]? = some b) (hpos : b ≠ 0)
    (hlt : b.toNat < 64) (hrest : Decompresses input (o + 1 + b.toNat) names) :
    Decompresses input o (subAt input (o + 1) b.toNat :: names)
  | pointer {o : ℕ} {b c : UInt8} {names : List (List UInt8)} (hb : input[o]? = some b)
    (hscheme : 192 ≤ b.toNat) (hc : input[o + 1]? = some c)
    (hrest : Decompresses input (b.toNat % 64 * 256 + c.toNat) names) : Decompresses input o names

def wire16 (input : List UInt8) (o : ℕ) : ℕ :=
  (input.getD o 0).toNat * 256 + (input.getD (o + 1) 0).toNat

section Wire

variable {input : List UInt8} {o e e' m size : ℕ}

theorem NameEnds.deterministic (h : NameEnds input o e) (h' : NameEnds input o e') : e = e' := by
  induction h with
  | zero hb =>
    cases h' with
    | zero => rfl
    | pointer hb' hs =>
      obtain rfl := Option.some.inj (hb.symm.trans hb')
      simp at hs
    | label hb' hpos =>
      obtain rfl := Option.some.inj (hb.symm.trans hb')
      exact absurd rfl hpos
  | pointer hb hs =>
    cases h' with
    | zero hb' =>
      obtain rfl := Option.some.inj (hb.symm.trans hb')
      simp at hs
    | pointer => rfl
    | label hb' _ hlt =>
      obtain rfl := Option.some.inj (hb.symm.trans hb')
      omega
  | label hb hpos hlt _ ih =>
    cases h' with
    | zero hb' =>
      obtain rfl := Option.some.inj (hb.symm.trans hb')
      exact absurd rfl hpos
    | pointer hb' hs =>
      obtain rfl := Option.some.inj (hb.symm.trans hb')
      omega
    | label hb' _ _ hrest =>
      obtain rfl := Option.some.inj (hb.symm.trans hb')
      exact ih hrest

theorem subAt_one (hm : m < input.length) : subAt input m 1 = [input[m]] := by
  unfold subAt
  rw [drop_eq_getElem_cons hm]
  rfl

theorem subAt_two (hm : m + 1 < input.length) : subAt input m 2 = [input[m], input[m + 1]] := by
  unfold subAt
  rw [drop_eq_getElem_cons (by omega), drop_eq_getElem_cons hm]
  rfl

theorem length_subAt : (subAt input m size).length = min size (input.length - m) := by
  simp [subAt]

theorem value_one (b : UInt8) : Bits.value (Bits.ofBytes [b]) = b.toNat := by
  rw [Bits.ofBytes_cons, Bits.value_append, Bits.value_ofNat]
  simp [Bits.ofBytes, Bits.value]

theorem value_two (b c : UInt8) : Bits.value (Bits.ofBytes [b, c]) = b.toNat * 256 + c.toNat := by
  have hb := b.toNat_lt
  rw [Bits.ofBytes_cons, Bits.value_append, Bits.value_ofNat, value_one, Bits.length_ofBytes]
  simp only [length_singleton]
  omega

theorem bmod_of_small {x : ℕ} (hx : x < 2 ^ 31) : ((x : ℕ) : ℤ).bmod (2 ^ 32) = x := by
  rw [Int.bmod_def]
  omega

theorem scheme_value {b : UInt8} (hb : input[m]? = some b) :
    (NumberField.mk (subAt input m 1) 0 2).value = .ok (b.toNat / 64 : ℕ) := by
  obtain ⟨hm, rfl⟩ := List.getElem?_eq_some_iff.1 hb
  have hlt := (input[m]).toNat_lt
  unfold NumberField.value asbits
  rw [if_neg (by simp), subAt_one hm, if_neg (by simp), if_neg (by simp),
    Bits.value_slice (by simp), value_one]
  simp only [Bits.length_ofBytes, length_singleton]
  rw [bmod_of_small (by omega)]
  norm_num
  omega

theorem lt_of_scheme_value {v : ℤ} (h : (NumberField.mk (subAt input m 1) 0 2).value = .ok v) :
    m < input.length := by
  by_contra hm
  unfold NumberField.value asbits at h
  rw [if_neg (by simp), if_pos (by rw [length_subAt]; omega)] at h
  cases h

theorem length_value {b : UInt8} (hb : input[m]? = some b) :
    (NumberField.mk (subAt input m 1) 2 6).value = .ok (b.toNat % 64 : ℕ) := by
  obtain ⟨hm, rfl⟩ := List.getElem?_eq_some_iff.1 hb
  unfold NumberField.value asbits
  rw [if_neg (by simp), subAt_one hm, if_neg (by simp), if_neg (by simp),
    Bits.value_slice (by simp), value_one]
  simp only [Bits.length_ofBytes, length_singleton]
  rw [bmod_of_small (by omega)]
  norm_num

theorem pointer_value {v : ℤ} (h : (NumberField.mk (subAt input m 2) 2 14).value = .ok v) :
    ∃ b c, input[m]? = some b ∧ input[m + 1]? = some c ∧ v = (b.toNat % 64 * 256 + c.toNat : ℕ) := by
  unfold NumberField.value at h
  rw [if_neg (by simp)] at h
  unfold asbits at h
  by_cases hm : m + 1 < input.length
  · refine ⟨input[m], input[m + 1], getElem?_eq_getElem (by omega), getElem?_eq_getElem hm, ?_⟩
    have hc := (input[m + 1]).toNat_lt
    rw [subAt_two hm, if_neg (by simp), if_neg (by simp), Bits.value_slice (by simp), value_two] at h
    simp only [Bits.length_ofBytes, length_cons, length_nil, Except.ok.injEq] at h
    rw [← h, bmod_of_small (by omega)]
    omega
  · by_cases h0 : 2 / 8 ≥ (subAt input m 2).length
    · rw [if_pos h0] at h
      cases h
    · rw [if_neg h0, if_pos (show (2 + 14 + 7) / 8 > _ by rw [length_subAt]; omega)] at h
      cases h

theorem wire16_value (hm : m + 2 ≤ input.length) :
    (NumberField.mk (subAt input m 2) 0 16).value = .ok (wire16 input m) := by
  have hb := (input[m]).toNat_lt
  have hc := (input[m + 1]).toNat_lt
  have hwire : wire16 input m = (input[m]).toNat * 256 + (input[m + 1]).toNat := by
    rw [wire16, getD_eq_getElem?_getD, getD_eq_getElem?_getD,
      getElem?_eq_getElem (by omega), getElem?_eq_getElem (by omega)]
    rfl
  unfold NumberField.value
  rw [if_pos (by simp)]
  unfold asnumber
  rw [subAt_two (by omega), if_neg (by simp), if_pos (by simp), value_two, bmod_of_small (by omega),
    hwire]

end Wire

end Haka.Dns
