import Mathlib.Tactic

/-!
# Lists of bits

Numbers as lists of bits, the highest bit first: the value of a list, the bits of a number and of a
list of bytes. A slice of a list of bits is a quotient and a remainder of its value
(`Bits.value_slice`).
-/

namespace Bits

open List

def value : List Bool → ℕ
  | [] => 0
  | b :: l => b.toNat * 2 ^ l.length + value l

/-- The lowest `n` bits of a number. -/
def ofNat : ℕ → ℕ → List Bool
  | 0, _ => []
  | n + 1, x => x.testBit n :: ofNat n x

def ofBytes (l : List UInt8) : List Bool := l.flatMap fun x => ofNat 8 x.toNat

theorem value_append (l m : List Bool) : value (l ++ m) = value l * 2 ^ m.length + value m := by
  induction l with
  | nil => simp [value]
  | cons b l ih =>
    rw [cons_append, value, value, ih, length_append, pow_add]
    ring

theorem value_lt (l : List Bool) : value l < 2 ^ l.length := by
  induction l with
  | nil => exact Nat.one_pos
  | cons b l ih =>
    rw [value, length_cons, pow_succ']
    cases b <;> simp <;> omega

@[simp] theorem length_ofNat (n x : ℕ) : (ofNat n x).length = n := by
  induction n with
  | zero => rfl
  | succ n ih => rw [ofNat, length_cons, ih]

theorem value_ofNat (n x : ℕ) : value (ofNat n x) = x % 2 ^ n := by
  induction n with
  | zero => simp [ofNat, value, Nat.mod_one]
  | succ n ih =>
    rw [ofNat, value, ih, length_ofNat, Nat.toNat_testBit, Nat.mod_pow_succ]
    ring

@[simp] theorem length_ofBytes (l : List UInt8) : (ofBytes l).length = 8 * l.length := by
  induction l with
  | nil => rfl
  | cons x l ih =>
    rw [ofBytes, flatMap_cons, length_append, length_ofNat]
    rw [ofBytes] at ih
    rw [ih, length_cons]
    ring

theorem ofBytes_cons (x : UInt8) (l : List UInt8) : ofBytes (x :: l) = ofNat 8 x.toNat ++ ofBytes l :=
  rfl

theorem ofBytes_drop (l : List UInt8) (k : ℕ) : ofBytes (l.drop k) = (ofBytes l).drop (8 * k) := by
  induction k generalizing l with
  | zero => rfl
  | succ k ih =>
    cases l with
    | nil => simp [ofBytes]
    | cons x l =>
      rw [drop_succ_cons, ih, ofBytes_cons, show 8 * (k + 1) = 8 + 8 * k by ring,
        ← drop_drop, drop_left' (length_ofNat 8 x.toNat)]

theorem ofBytes_take (l : List UInt8) (k : ℕ) : ofBytes (l.take k) = (ofBytes l).take (8 * k) := by
  induction k generalizing l with
  | zero => rfl
  | succ k ih =>
    cases l with
    | nil => simp [ofBytes]
    | cons x l =>
      have hfirst : (ofNat 8 x.toNat).take (8 * (k + 1)) = ofNat 8 x.toNat :=
        take_of_length_le (by rw [length_ofNat]; omega)
      rw [take_succ_cons, ofBytes_cons, ih, ofBytes_cons, take_append, length_ofNat,
        hfirst, show 8 * (k + 1) - 8 = 8 * k by omega]

theorem value_slice {l : List Bool} {a n : ℕ} (h : a + n ≤ l.length) :
    value ((l.drop a).take n) = value l / 2 ^ (l.length - (a + n)) % 2 ^ n := by
  obtain ⟨hmid, hrest⟩ : ((l.drop a).take n).length = n ∧
      ((l.drop a).drop n).length = l.length - (a + n) := by
    simp only [length_take, length_drop]
    omega
  have hsplit : value l = (value (l.take a) * 2 ^ n + value ((l.drop a).take n)) *
      2 ^ (l.length - (a + n)) + value ((l.drop a).drop n) := by
    conv_lhs => rw [← take_append_drop a l, value_append, ← take_append_drop n (l.drop a),
      value_append, length_append, hmid, hrest, pow_add]
    ring
  have hlt := value_lt ((l.drop a).drop n)
  have hmidlt := value_lt ((l.drop a).take n)
  rw [hrest] at hlt
  rw [hmid] at hmidlt
  rw [hsplit, Nat.add_div_of_dvd_right (Dvd.intro_left _ rfl),
    Nat.mul_div_cancel _ (Nat.two_pow_pos _), Nat.div_eq_of_lt hlt, Nat.add_zero,
    Nat.mul_add_mod_self_right, Nat.mod_eq_of_lt hmidlt]

end Bits
