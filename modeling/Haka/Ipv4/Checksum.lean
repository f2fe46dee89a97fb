import Haka.Vbuffer.Mmap
import Haka.Lib.OnesComplement

/-!
# The internet checksum

`inet_checksum_partial` adds the 16-bit words of one piece of memory to a running sum, in the byte
order of the (little endian) host. A piece of odd length leaves a byte over for the next one. At an
odd address the words are read one byte off, which gives the sum with its bytes swapped, and the sum
is swapped before and after. All this is the same up to carries, so that the checksum of the pieces is
the one of RFC 1071 for their concatenation (`checksum_of_pieces`).
-/

namespace Haka

open OnesComplement

/-- `struct checksum_partial`. The sum is an `int32`, here in two's complement. -/
structure ChecksumPartial where
  odd : Bool
  leftover : UInt8
  csum : UInt32

def checksumPartialInit : ChecksumPartial := ⟨false, 0, 0⟩

/-- `swap_util.s` for the two bytes of `swap_util.c`: a 16-bit word as the host reads it. -/
def swapUtil (c₀ c₁ : UInt8) : UInt32 := c₀.toUInt32 + (c₁.toUInt32 <<< 8)

def addCarry (x : UInt32) : UInt32 := if x > 0xffff then x - 0xffff else x

/-- `REDUCE`: the two halves of the sum, through `reduce_util`. -/
def reduceSum (sum : UInt32) : UInt32 := addCarry ((sum &&& (0xffff : UInt32)) + (sum >>> 16))

/-- `sum += *w++`, `n` times. -/
def addWords : ℕ → UInt32 → List UInt8 → UInt32 × List UInt8
  | n + 1, sum, c₀ :: c₁ :: w => addWords n (sum + swapUtil c₀ c₁) w
  | _, sum, w => (sum, w)

/-- `while ((len -= 2 * n) >= 0)` with `n` words in its body. Each round takes bytes, so that there
are at most as many rounds as bytes. -/
def wordLoop (n : ℕ) : ℕ → UInt32 → List UInt8 → UInt32 × List UInt8
  | 0, sum, w => (sum, w)
  | fuel + 1, sum, w =>
    if 2 * n ≤ w.length then
      let (sum, w) := addWords n sum w
      wordLoop n fuel sum w
    else (sum, w)

/-- The first part of `inet_checksum_partial`: the byte left over by the last piece is paired with the
first one of this piece. -/
def takeLeftover (csum : ChecksumPartial) (ptr : ℕ) : List UInt8 → UInt32 × ℕ × List UInt8
  | c :: data =>
    if csum.odd then (csum.csum + swapUtil csum.leftover c, ptr + 1, data)
    else (csum.csum, ptr, c :: data)
  | [] => (csum.csum, ptr, [])

/-- The second part: at an odd address the sum is swapped and the first byte kept back. -/
def alignPtr (sum : UInt32) (ptr : ℕ) : List UInt8 → UInt32 × Option UInt8 × List UInt8
  | c :: data =>
    if ptr % 2 = 1 then (reduceSum sum <<< 8, some c, data) else (sum, none, c :: data)
  | [] => (sum, none, [])

def unrolled (sum : UInt32) (w : List UInt8) : UInt32 × List UInt8 :=
  let (sum, w) := wordLoop 16 w.length sum w
  wordLoop 4 w.length sum w

/-- The loop for the words that are left, behind the other two and a `REDUCE`. -/
def lastLoop (sum : UInt32) (w : List UInt8) : UInt32 × List UInt8 :=
  let (sum, w) := unrolled sum w
  wordLoop 1 w.length (reduceSum sum) w

/-- The rest, from the loops on. A byte that is left is added with the byte kept back
(`byte_swapped`), and otherwise left over. -/
def sumWords (leftover : UInt8) (sum : UInt32) (w : List UInt8) : Option UInt8 → ChecksumPartial
  | none =>
    if (unrolled sum w).2.isEmpty then ⟨false, leftover, (unrolled sum w).1⟩
    else
      match lastLoop sum w with
      | (sum, c :: _) => ⟨true, c, sum⟩
      | (sum, []) => ⟨false, leftover, sum⟩
  | some c₀ =>
    match lastLoop sum w with
    | (sum, c₁ :: _) => ⟨false, leftover, (reduceSum sum <<< 8) + swapUtil c₀ c₁⟩
    | (sum, []) => ⟨true, c₀, reduceSum sum <<< 8⟩

/-- `inet_checksum_partial` of the bytes at the address `ptr`. -/
def inetChecksumPartial (csum : ChecksumPartial) (ptr : ℕ) (data : List UInt8) : ChecksumPartial :=
  let (sum, ptr, data) := takeLeftover csum ptr data
  let (sum, kept, data) := alignPtr sum ptr data
  sumWords csum.leftover sum data kept

def inetChecksumReduce (csum : ChecksumPartial) : UInt16 :=
  let sum := if csum.odd then csum.csum + swapUtil csum.leftover 0 else csum.csum
  (~~~reduceSum sum).toUInt16

def inetChecksum (ptr : ℕ) (data : List UInt8) : UInt16 :=
  inetChecksumReduce (inetChecksumPartial checksumPartialInit ptr data)

/-- `inet_checksum_vbuffer_partial`. The block of a chunk begins at the address `base`. -/
def inetChecksumVbufferPartial (m : ℕ → List UInt8) (base : ℕ → ℕ) (csum : ChecksumPartial)
    (b : Vbuffer) (buf : Sub) : ChecksumPartial :=
  (vbufferMmaps b buf).foldl (fun csum piece =>
    if 0 < piece.2.2 then
      inetChecksumPartial csum (base piece.1.data.addr + piece.1.offset + piece.2.1)
        (pieceBytes m piece)
    else csum) csum

def inetChecksumVbuffer (m : ℕ → List UInt8) (base : ℕ → ℕ) (b : Vbuffer) (buf : Sub) : UInt16 :=
  inetChecksumReduce (inetChecksumVbufferPartial m base checksumPartialInit b buf)

/-! ## The checksum of RFC 1071 -/

/-- The 16-bit words of a byte string in memory order, the last one padded with zero. -/
def memoryWords : List UInt8 → List ℕ
  | c₀ :: c₁ :: l => (c₀.toNat + 256 * c₁.toNat) :: memoryWords l
  | [c₀] => [c₀.toNat]
  | [] => []

def rfc1071 (data : List UInt8) : UInt16 :=
  ~~~UInt16.ofNat (OnesComplement.sum 0xffff (memoryWords data))

-- the numerical example of the RFC, read in little endian order: the sum is 0xf2dd
example : rfc1071 [0x00, 0x01, 0xf2, 0x03, 0xf4, 0xf5, 0xf6, 0xf7] = 0x0d22 := by decide

/-! ## Sums of bytes by their places -/

/-- The sum of the words of a byte string: a byte counts 256 times at every second place, at the first
one if `high` is set. -/
def weigh : Bool → List UInt8 → ℕ
  | _, [] => 0
  | false, c :: l => c.toNat + weigh true l
  | true, c :: l => 256 * c.toNat + weigh false l

@[simp] theorem weigh_nil (high : Bool) : weigh high [] = 0 := by
  cases high <;> rfl

@[simp] theorem weigh_low (c : UInt8) (l : List UInt8) :
    weigh false (c :: l) = c.toNat + weigh true l := rfl

@[simp] theorem weigh_high (c : UInt8) (l : List UInt8) :
    weigh true (c :: l) = 256 * c.toNat + weigh false l := rfl

theorem weigh_append (high : Bool) (l l' : List UInt8) :
    weigh high (l ++ l') = weigh high l + weigh (high ^^ decide (l.length % 2 = 1)) l' := by
  induction l generalizing high with
  | nil => simp
  | cons c l ih =>
    have hodd : decide ((l.length + 1) % 2 = 1) = !decide (l.length % 2 = 1) := by
      rw [← decide_not]
      exact decide_eq_decide.2 (by omega)
    cases high <;> simp [ih, hodd, Nat.add_assoc]

theorem weigh_append_even (high : Bool) {l : List UInt8} (hl : l.length % 2 = 0)
    (l' : List UInt8) : weigh high (l ++ l') = weigh high l + weigh high l' := by
  simp [weigh_append, hl]

theorem same_weigh (high : Bool) (l : List UInt8) :
    Same 0xffff (256 * weigh high l) (weigh (!high) l) := by
  induction l generalizing high with
  | nil => exact ⟨by simp [Nat.ModEq], by simp⟩
  | cons c l ih =>
    cases high with
    | false =>
      rw [weigh_low, Nat.mul_add]
      exact Same.rfl.add (ih true)
    | true =>
      rw [weigh_high, Nat.mul_add, ← Nat.mul_assoc]
      exact (same_mul_base 0xffff c.toNat).add (ih false)

theorem weigh_le {l : List UInt8} (hl : l.length % 2 = 0) :
    weigh false l ≤ 0xffff * (l.length / 2) := by
  match l, hl with
  | [], _ => simp
  | c0 :: c1 :: l, hl =>
    have ih := weigh_le (l := l) (by simp only [List.length_cons] at hl; omega)
    have h0 := c0.toNat_lt
    have h1 := c1.toNat_lt
    simp only [weigh_low, weigh_high, List.length_cons]
    omega

theorem sum_memoryWords (l : List UInt8) : (memoryWords l).sum = weigh false l := by
  fun_induction memoryWords l with
  | case1 c0 c1 l ih => simp [ih, Nat.add_assoc]
  | case2 c => simp
  | case3 => rfl

theorem memoryWords_le (l : List UInt8) : ∀ w ∈ memoryWords l, w ≤ 0xffff := by
  fun_induction memoryWords l with
  | case1 c0 c1 l ih =>
    have h0 := c0.toNat_lt
    have h1 := c1.toNat_lt
    exact List.forall_mem_cons.2 ⟨by omega, ih⟩
  | case2 c =>
    have hc := c.toNat_lt
    simpa using (by omega : c.toNat ≤ 65535)
  | case3 => simp

/-! ## Sums in 32 bits -/

theorem toNat_swapUtil (c0 c1 : UInt8) : (swapUtil c0 c1).toNat = c0.toNat + 256 * c1.toNat := by
  have h0 := c0.toNat_lt
  have h1 := c1.toNat_lt
  have hshift : (c1.toUInt32 <<< 8).toNat = 256 * c1.toNat := by
    rw [UInt32.toNat_shiftLeft, UInt8.toNat_toUInt32, Nat.shiftLeft_eq,
      show (8 : UInt32).toNat % 32 = 8 from rfl]
    omega
  rw [swapUtil, UInt32.toNat_add, UInt8.toNat_toUInt32, hshift]
  omega

theorem toNat_reduceSum (sum : UInt32) : (reduceSum sum).toNat = reduce 0xffff sum.toNat := by
  have hlt := sum.toNat_lt
  have hlow : (sum &&& (0xffff : UInt32)).toNat = sum.toNat % 65536 := by
    exact Nat.and_two_pow_sub_one_eq_mod sum.toNat 16
  have hhigh : (sum >>> 16).toNat = sum.toNat / 65536 := by
    rw [UInt32.toNat_shiftRight, Nat.shiftRight_eq_div_pow]
    rfl
  have hadd : ((sum &&& (0xffff : UInt32)) + (sum >>> 16)).toNat =
      sum.toNat % 65536 + sum.toNat / 65536 := by
    rw [UInt32.toNat_add, hlow, hhigh]
    omega
  rw [reduceSum, addCarry, reduce, carry, ← hadd]
  split
  case isTrue hgt =>
    have hgt : 0xffff < ((sum &&& (0xffff : UInt32)) + (sum >>> 16)).toNat := hgt
    rw [if_pos hgt, UInt32.toNat_sub_of_le _ 0xffff (UInt32.le_iff_toNat_le.2 hgt.le)]
    rfl
  case isFalse hle =>
    have hle : ¬0xffff < ((sum &&& (0xffff : UInt32)) + (sum >>> 16)).toNat := hle
    rw [if_neg hle]

theorem reduceSum_le (sum : UInt32) : (reduceSum sum).toNat ≤ 0xffff := by
  rw [toNat_reduceSum]
  exact reduce_le sum.toNat_lt

theorem toNat_swapSum (sum : UInt32) :
    (reduceSum sum <<< 8).toNat = 256 * reduce 0xffff sum.toNat := by
  have hle := reduceSum_le sum
  rw [toNat_reduceSum] at hle
  rw [UInt32.toNat_shiftLeft, toNat_reduceSum, Nat.shiftLeft_eq,
    show (8 : UInt32).toNat % 32 = 8 from rfl]
  omega

theorem same_reduceSum (sum : UInt32) : Same 0xffff (reduceSum sum).toNat sum.toNat := by
  rw [toNat_reduceSum]
  exact same_reduce 0xffff sum.toNat

theorem same_swapSum (sum : UInt32) : Same 0xffff (reduceSum sum <<< 8).toNat (256 * sum.toNat) := by
  rw [toNat_swapSum]
  exact (same_reduce 0xffff sum.toNat).mul_left 256

/-! ## The loops -/

/-- From the sum and the bytes `w` to what is left of them: an even number of bytes was added. -/
def Summed (sum : UInt32) (w : List UInt8) (r : UInt32 × List UInt8) : Prop :=
  ∃ done, w = done ++ r.2 ∧ done.length % 2 = 0 ∧ r.1.toNat = sum.toNat + weigh false done

variable {w data : List UInt8} {s : ChecksumPartial}

variable {sum : UInt32}

theorem Summed.refl : Summed sum w (sum, w) :=
  ⟨[], by simp⟩

theorem Summed.trans {r r' : UInt32 × List UInt8} (h : Summed sum w r)
    (h' : Summed r.1 r.2 r') : Summed sum w r' := by
  obtain ⟨d, hw, hd, hsum⟩ := h
  obtain ⟨d', hw', hd', hsum'⟩ := h'
  refine ⟨d ++ d', by rw [hw, hw', List.append_assoc], by rw [List.length_append]; omega, ?_⟩
  rw [hsum', hsum, weigh_append_even false hd, Nat.add_assoc]

def Fits (r : UInt32 × List UInt8) : Prop := r.1.toNat + 0xffff * (r.2.length / 2) < 2 ^ 32

theorem Summed.fits {r : UInt32 × List UInt8} (h : Summed sum w r)
    (hf : Fits (sum, w)) : Fits r := by
  obtain ⟨d, hw, hd, hsum⟩ := h
  have hle := weigh_le hd
  have hlen : w.length = d.length + r.2.length := by rw [hw, List.length_append]
  simp only [Fits] at hf ⊢
  omega

theorem addWords_spec (n : ℕ) (hf : Fits (sum, w)) : Summed sum w (addWords n sum w) := by
  fun_induction addWords n sum w with
  | case1 n sum c0 c1 w ih =>
    have h0 := c0.toNat_lt
    have h1 := c1.toNat_lt
    have hadd : (sum + swapUtil c0 c1).toNat = sum.toNat + (c0.toNat + 256 * c1.toNat) := by
      simp only [Fits, List.length_cons] at hf
      rw [UInt32.toNat_add, toNat_swapUtil]
      omega
    have hone : Summed sum (c0 :: c1 :: w) (sum + swapUtil c0 c1, w) :=
      ⟨[c0, c1], rfl, by simp, by simpa using hadd⟩
    exact hone.trans (ih (hone.fits hf))
  | case2 => exact Summed.refl

theorem length_addWords {n : ℕ} (sum : UInt32) (hw : 2 * n ≤ w.length) :
    (addWords n sum w).2.length = w.length - 2 * n := by
  fun_induction addWords n sum w with
  | case1 n sum c0 c1 w ih =>
    simp only [List.length_cons] at hw ⊢
    omega
  | case2 n sum w h =>
    match n, w, h, hw with
    | 0, w, _, _ => rfl
    | n + 1, c0 :: c1 :: w, h, _ => exact absurd rfl (h n c0 c1 w rfl)
    | n + 1, [_], _, hw => exact absurd hw (by simp only [List.length_singleton]; omega)
    | n + 1, [], _, hw => simp at hw

theorem wordLoop_spec {n fuel : ℕ} (hn : 0 < n) (hf : Fits (sum, w)) (hfuel : w.length ≤ fuel) :
    Summed sum w (wordLoop n fuel sum w) ∧ (wordLoop n fuel sum w).2.length < 2 * n := by
  induction fuel generalizing sum w with
  | zero =>
    exact ⟨Summed.refl, by rw [wordLoop]; dsimp only; omega⟩
  | succ fuel ih =>
    rw [wordLoop]
    split
    case isTrue hle =>
      have hone := addWords_spec n hf
      have hlen := length_addWords sum hle
      obtain ⟨hsum, hrest⟩ := ih (hone.fits hf) (by omega)
      exact ⟨hone.trans hsum, hrest⟩
    case isFalse hlt => exact ⟨Summed.refl, by dsimp only; omega⟩

/-! ## One piece -/

def ChecksumPartial.total (s : ChecksumPartial) : ℕ :=
  s.csum.toNat + if s.odd then s.leftover.toNat else 0

/-- The running sum after the bytes `done`. -/
structure Running (done : List UInt8) (s : ChecksumPartial) : Prop where
  odd : s.odd = decide (done.length % 2 = 1)
  same : Same 0xffff s.total (weigh false done)
  bound : s.csum.toNat ≤ 0x1010000 + 0xffff * (done.length / 2)

theorem unrolled_spec (hf : Fits (sum, w)) : Summed sum w (unrolled sum w) := by
  have h := (wordLoop_spec (n := 16) (by omega) hf le_rfl).1
  exact h.trans (wordLoop_spec (by omega) (h.fits hf) le_rfl).1

theorem lastLoop_spec (hf : Fits (sum, w)) :
    ∃ done, w = done ++ (lastLoop sum w).2 ∧ done.length % 2 = 0 ∧
      Same 0xffff (lastLoop sum w).1.toNat (sum.toNat + weigh false done) ∧
      (lastLoop sum w).1.toNat ≤ sum.toNat + 0xffff * (done.length / 2) ∧
      (lastLoop sum w).2.length < 2 := by
  have hu := unrolled_spec hf
  have hfits := hu.fits hf
  obtain ⟨d, hw, hd, hsum⟩ := hu
  have hself : (reduceSum (unrolled sum w).1).toNat ≤ (unrolled sum w).1.toNat := by
    rw [toNat_reduceSum]
    exact reduce_le_self _ _
  have hfits' : Fits (reduceSum (unrolled sum w).1, (unrolled sum w).2) := by
    simp only [Fits] at hfits ⊢
    omega
  obtain ⟨⟨d', hw', hd', hsum'⟩, hrest⟩ := wordLoop_spec (n := 1) (by omega) hfits' le_rfl
  have hd1 := weigh_le hd
  have hd2 := weigh_le hd'
  refine ⟨d ++ d', ?_, ?_, ?_, ?_, hrest⟩
  · rw [List.append_assoc]
    exact hw.trans (congrArg _ hw')
  · rw [List.length_append]
    omega
  · rw [weigh_append_even false hd, ← Nat.add_assoc, ← hsum]
    refine Same.trans ?_ ((same_reduceSum _).add Same.rfl)
    rw [← hsum']
    exact Same.rfl
  · rw [List.length_append]
    have : (lastLoop sum w).1.toNat = (reduceSum (unrolled sum w).1).toNat + weigh false d' := hsum'
    omega

theorem lastLoop_cases (hf : Fits (sum, w)) :
    ∃ done s, done.length % 2 = 0 ∧ Same 0xffff s.toNat (sum.toNat + weigh false done) ∧
      s.toNat ≤ sum.toNat + 0xffff * (done.length / 2) ∧
      ((w = done ∧ lastLoop sum w = (s, [])) ∨
        ∃ c, w = done ++ [c] ∧ lastLoop sum w = (s, [c])) := by
  obtain ⟨done, hw, hd, hsame, hle, hlen⟩ := lastLoop_spec hf
  refine ⟨done, _, hd, hsame, hle, ?_⟩
  generalize lastLoop sum w = r at hw hlen
  obtain ⟨s, rest⟩ := r
  match rest, hlen with
  | [], _ => exact .inl ⟨by simpa using hw, rfl⟩
  | [c], _ => exact .inr ⟨c, hw, rfl⟩

theorem sumWords_none (leftover : UInt8) (hf : Fits (sum, w)) :
    (sumWords leftover sum w none).odd = decide (w.length % 2 = 1) ∧
      Same 0xffff (sumWords leftover sum w none).total (sum.toNat + weigh false w) ∧
      (sumWords leftover sum w none).csum.toNat ≤ sum.toNat + 0xffff * (w.length / 2) := by
  rw [sumWords]
  split
  case isTrue hnil =>
    obtain ⟨d, hw, hd, hsum⟩ := unrolled_spec hf
    rw [List.isEmpty_iff.1 hnil, List.append_nil] at hw
    subst hw
    have hle := weigh_le hd
    refine ⟨by simp [hd], ?_, by dsimp only; omega⟩
    rw [← hsum]
    exact Same.rfl
  case isFalse =>
    obtain ⟨d, s, hd, hsame, hle, ⟨rfl, hr⟩ | ⟨c, rfl, hr⟩⟩ := lastLoop_cases hf
    · rw [hr]
      exact ⟨by simp [hd], hsame, hle⟩
    · rw [hr]
      refine ⟨?_, ?_, ?_⟩
      · simp only [List.length_append, List.length_singleton]
        exact (decide_eq_true (by omega)).symm
      · rw [weigh_append_even false hd, ← Nat.add_assoc]
        exact hsame.add Same.rfl
      · simp only [List.length_append, List.length_singleton]
        omega

theorem sumWords_some (leftover c0 : UInt8) (hf : Fits (sum, w)) :
    (sumWords leftover sum w (some c0)).odd = decide (w.length % 2 = 0) ∧
      Same 0xffff (sumWords leftover sum w (some c0)).total
        (256 * sum.toNat + weigh false (c0 :: w)) ∧
      (sumWords leftover sum w (some c0)).csum.toNat ≤ 0x1010000 := by
  obtain ⟨d, s, hd, hsame, -, hcases⟩ := lastLoop_cases hf
  have hreduced := reduceSum_le s
  have hswap : (reduceSum s <<< 8).toNat ≤ 256 * 0xffff := by
    rw [toNat_swapSum, ← toNat_reduceSum]
    omega
  have hsame : Same 0xffff (reduceSum s <<< 8).toNat (256 * sum.toNat + weigh true d) := by
    refine (same_swapSum s).trans ((hsame.mul_left 256).trans ?_)
    rw [Nat.mul_add]
    exact Same.rfl.add (same_weigh false d)
  rw [sumWords]
  rcases hcases with ⟨rfl, hr⟩ | ⟨c1, rfl, hr⟩
  · rw [hr]
    refine ⟨by simp [hd], ?_, by dsimp only; omega⟩
    rw [weigh_low, Nat.add_comm c0.toNat, ← Nat.add_assoc]
    exact hsame.add Same.rfl
  · rw [hr]
    have h0 := c0.toNat_lt
    have h1 := c1.toNat_lt
    have hadd : ((reduceSum s <<< 8) + swapUtil c0 c1).toNat =
        (reduceSum s <<< 8).toNat + (c0.toNat + 256 * c1.toNat) := by
      rw [UInt32.toNat_add, toNat_swapUtil]
      omega
    refine ⟨?_, ?_, by dsimp only; omega⟩
    · simp only [List.length_append, List.length_singleton]
      exact (decide_eq_false (by omega)).symm
    · have hw : 256 * sum.toNat + weigh false (c0 :: (d ++ [c1])) =
          256 * sum.toNat + weigh true d + (c0.toNat + 256 * c1.toNat) := by
        rw [weigh_low, weigh_append_even true hd, weigh_high, weigh_nil]
        omega
      rw [hw]
      refine Same.trans ?_ (hsame.add Same.rfl)
      rw [← hadd]
      exact Same.rfl

def checksumMax : ℕ := 65535 + 12

theorem alignPtr_spec (leftover : UInt8) (ptr : ℕ) (hf : Fits (sum, data))
    (hlen : data.length ≤ checksumMax) {s' : ChecksumPartial}
    (hs : sumWords leftover (alignPtr sum ptr data).1 (alignPtr sum ptr data).2.2
      (alignPtr sum ptr data).2.1 = s') :
    s'.odd = decide (data.length % 2 = 1) ∧
      Same 0xffff s'.total (sum.toNat + weigh false data) ∧
      s'.csum.toNat ≤ max 0x1010000 (sum.toNat + 0xffff * (data.length / 2)) := by
  subst hs
  fun_cases alignPtr sum ptr data with
  | case1 c data hodd =>
    -- the sum is swapped before and after
    have hswap : Same 0xffff (256 * (reduceSum sum <<< 8).toNat) sum.toNat := by
      refine ((same_swapSum sum).mul_left 256).trans ?_
      rw [← Nat.mul_assoc]
      exact same_mul_base 0xffff sum.toNat
    have hfits : Fits (reduceSum sum <<< 8, data) := by
      have hle := reduceSum_le sum
      rw [toNat_reduceSum] at hle
      simp only [checksumMax, List.length_cons] at hlen
      simp only [Fits, toNat_swapSum]
      omega
    obtain ⟨hodd, hsame, hle⟩ := sumWords_some leftover c hfits
    refine ⟨?_, hsame.trans (hswap.add Same.rfl), le_max_of_le_left hle⟩
    rw [hodd, List.length_cons]
    exact decide_eq_decide.2 (by omega)
  | case2 c data =>
    obtain ⟨hodd, hsame, hle⟩ := sumWords_none leftover hf
    exact ⟨hodd, hsame, le_max_of_le_right hle⟩
  | case3 =>
    obtain ⟨hodd, hsame, hle⟩ := sumWords_none leftover hf
    exact ⟨hodd, hsame, le_max_of_le_right hle⟩

variable {done : List UInt8}

theorem takeLeftover_spec (hs : Running done s) (ptr : ℕ) (hne : data ≠ [])
    (hlen : (done ++ data).length ≤ checksumMax) {r : UInt32 × ℕ × List UInt8}
    (hr : takeLeftover s ptr data = r) :
    ∃ done', done ++ data = done' ++ r.2.2 ∧ done'.length % 2 = 0 ∧
      Same 0xffff r.1.toNat (weigh false done') ∧
      r.1.toNat ≤ 0x1010000 + 0xffff * (done'.length / 2) := by
  subst hr
  have hbound := hs.bound
  have hsame := hs.same
  rw [ChecksumPartial.total, hs.odd] at hsame
  fun_cases takeLeftover s ptr data with
  | case1 c data hodd =>
    rw [hs.odd, decide_eq_true_eq] at hodd
    rw [if_pos (decide_eq_true hodd)] at hsame
    have h0 := s.leftover.toNat_lt
    have h1 := c.toNat_lt
    have hadd : (s.csum + swapUtil s.leftover c).toNat =
        s.csum.toNat + s.leftover.toNat + 256 * c.toNat := by
      simp only [checksumMax, List.length_append, List.length_cons] at hlen
      rw [UInt32.toNat_add, toNat_swapUtil]
      omega
    refine ⟨done ++ [c], by simp, by rw [List.length_append, List.length_singleton]; omega, ?_, ?_⟩
    · rw [hadd, weigh_append]
      simp only [hodd, decide_true, Bool.false_xor, weigh_high, weigh_nil, Nat.add_zero]
      exact hsame.add Same.rfl
    · simp only [hadd, List.length_append, List.length_singleton]
      omega
  | case2 c data hodd =>
    rw [hs.odd] at hodd
    rw [if_neg hodd, Nat.add_zero] at hsame
    exact ⟨done, rfl, by simpa using hodd, hsame, hbound⟩
  | case3 => exact absurd rfl hne

theorem Running.step (hs : Running done s) (ptr : ℕ) (hne : data ≠ [])
    (hlen : (done ++ data).length ≤ checksumMax) :
    Running (done ++ data) (inetChecksumPartial s ptr data) := by
  obtain ⟨done', heq, heven, hsame, hbound⟩ := takeLeftover_spec hs ptr hne hlen rfl
  rw [inetChecksumPartial]
  generalize takeLeftover s ptr data = r at heq hsame hbound ⊢
  obtain ⟨sum, ptr', rest⟩ := r
  dsimp only at heq hsame hbound ⊢
  rw [heq] at hlen ⊢
  rw [List.length_append] at hlen
  have hfits : Fits (sum, rest) := by
    simp only [Fits, checksumMax] at hlen ⊢
    omega
  obtain ⟨hodd, hsame', hle⟩ := alignPtr_spec s.leftover ptr' hfits (by omega) rfl
  refine ⟨?_, ?_, ?_⟩
  · rw [hodd, List.length_append]
    exact decide_eq_decide.2 (by omega)
  · rw [weigh_append_even false heven]
    exact hsame'.trans (hsame.add Same.rfl)
  · rw [List.length_append]
    refine hle.trans (max_le ?_ ?_) <;> omega

theorem running_init : Running [] checksumPartialInit :=
  ⟨rfl, ⟨by rfl, by simp [ChecksumPartial.total, checksumPartialInit]⟩, by
    simp [checksumPartialInit]⟩

theorem Running.steps {pieces : List (ℕ × List UInt8)} (hs : Running done s)
    (hne : ∀ p ∈ pieces, p.2 ≠ []) (hlen : (done ++ pieces.flatMap Prod.snd).length ≤ checksumMax) :
    Running (done ++ pieces.flatMap Prod.snd)
      (pieces.foldl (fun s p => inetChecksumPartial s p.1 p.2) s) := by
  induction pieces generalizing done s with
  | nil => simpa using hs
  | cons p pieces ih =>
    obtain ⟨hp, hne⟩ := List.forall_mem_cons.1 hne
    rw [List.flatMap_cons, ← List.append_assoc] at hlen ⊢
    exact ih (hs.step p.1 hp (by rw [List.length_append] at hlen; omega)) hne hlen

theorem Running.reduce (hs : Running done s)
    (hlen : done.length ≤ checksumMax) : inetChecksumReduce s = rfc1071 done := by
  have hbound := hs.bound
  have hsum : ∀ sum : UInt32, sum.toNat = s.total → (~~~reduceSum sum).toUInt16 = rfc1071 done := by
    rintro sum hsum
    have hw := memoryWords_le done
    have heq : (reduceSum sum).toNat = OnesComplement.sum 0xffff (memoryWords done) := by
      refine Same.eq ?_ (reduceSum_le sum) (sum_le hw)
      refine (same_reduceSum sum).trans (Same.trans ?_ (same_sum hw).symm)
      rw [hsum, sum_memoryWords]
      exact hs.same
    rw [rfc1071, ← heq, UInt32.toUInt16_not]
    rfl
  apply hsum
  rw [ChecksumPartial.total]
  split
  · have h0 := s.leftover.toNat_lt
    simp only [checksumMax] at hlen
    rw [UInt32.toNat_add, toNat_swapUtil, UInt8.toNat_zero]
    omega
  · rfl

/-! ## Buffers -/

/-- A piece of memory as `inet_checksum_partial` gets it: its address and its bytes. -/
def memoryPiece (m : ℕ → List UInt8) (base : ℕ → ℕ) (piece : Chunk × ℕ × ℕ) : ℕ × List UInt8 :=
  (base piece.1.data.addr + piece.1.offset + piece.2.1, pieceBytes m piece)

theorem vbufferPartial_eq (m : ℕ → List UInt8) (base : ℕ → ℕ) (csum : ChecksumPartial) (b : Vbuffer)
    (buf : Sub) :
    inetChecksumVbufferPartial m base csum b buf =
      ((vbufferMmaps b buf).map (memoryPiece m base)).foldl
        (fun s p => inetChecksumPartial s p.1 p.2) csum := by
  rw [inetChecksumVbufferPartial, List.foldl_map]
  refine List.foldl_ext _ _ _ fun s piece hp => ?_
  have hlen := (List.mem_filter.1 hp).2
  simp only [Bool.not_or, Bool.and_eq_true, Bool.not_eq_true', beq_eq_false_iff_ne] at hlen
  rw [if_pos (Nat.pos_of_ne_zero hlen.2)]
  rfl

section Buffers

variable {h : Heap} {b : Vbuffer} {data : Sub} {lo hi : ℕ}

theorem memoryPieces_ne (base : ℕ → ℕ) (hb : b.WF h) :
    ∀ p ∈ (vbufferMmaps b data).map (memoryPiece h.mem base), p.2 ≠ [] := by
  rintro p hp
  obtain ⟨piece, hpiece, rfl⟩ := List.mem_map.1 hp
  obtain ⟨hiter, hlen⟩ := List.mem_filter.1 hpiece
  simp only [Bool.not_or, Bool.and_eq_true, Bool.not_eq_true', beq_eq_false_iff_ne] at hlen
  obtain ⟨hmem, hle⟩ := subIterate_mem hb data piece hiter
  have hsize := (hb.valid_body _ hmem).inBlock
  refine List.ne_nil_of_length_pos ?_
  rw [memoryPiece, pieceBytes_eq hle, List.length_take, List.length_drop, hsize]
  omega

theorem vbuffer_running (base : ℕ → ℕ) (hb : b.WF h) (hc : b.Covers data lo hi)
    (ho : b.Ordered data) (hlen : hi - lo ≤ checksumMax) :
    Running (((b.content h).drop lo).take (hi - lo))
      (inetChecksumVbufferPartial h.mem base checksumPartialInit b data) := by
  have hbytes : ((vbufferMmaps b data).map (memoryPiece h.mem base)).flatMap Prod.snd =
      ((b.content h).drop lo).take (hi - lo) := by
    rw [← mmaps_bytes hb hc ho, List.flatMap_map]
    rfl
  have hrun := running_init.steps (memoryPieces_ne base hb) (by
    rw [List.nil_append, hbytes]
    exact (List.length_take_le _ _).trans hlen)
  rwa [List.nil_append, hbytes, ← vbufferPartial_eq] at hrun

end Buffers

theorem inetChecksum_eq (ptr : ℕ) (hlen : data.length ≤ checksumMax) :
    inetChecksum ptr data = rfc1071 data := by
  cases data with
  | nil => exact running_init.reduce (Nat.zero_le _)
  | cons c data => exact (running_init.step ptr (by simp) hlen).reduce hlen

/-- **Checksums of pieces.** Whatever the pieces and the parity of their addresses, the partial sums
reduce to the checksum of RFC 1071 for the whole string. -/
theorem checksum_of_pieces : (∀ pieces : List (ℕ × List UInt8), (∀ p ∈ pieces, p.2 ≠ []) →
      (pieces.flatMap Prod.snd).length ≤ checksumMax →
      inetChecksumReduce (pieces.foldl (fun s p => inetChecksumPartial s p.1 p.2)
        checksumPartialInit) = rfc1071 (pieces.flatMap Prod.snd)) ∧
    ∀ (h : Heap) (base : ℕ → ℕ) (b : Vbuffer), b.WF h →
      (∀ data lo hi ptr, b.Covers data lo hi → b.Ordered data → hi - lo ≤ checksumMax →
        inetChecksumVbuffer h.mem base b data =
          inetChecksum ptr (((b.content h).drop lo).take (hi - lo))) ∧
      ∀ ptr, (b.content h).length ≤ checksumMax →
        inetChecksumVbuffer h.mem base b (vbufferSubCreate b 0 none) =
          inetChecksum ptr (b.content h) := by
  refine ⟨fun pieces hne hlen => ?_, fun h base b hb => ?_⟩
  · have hrun := running_init.steps hne hlen
    exact hrun.reduce hlen
  · have hsub : ∀ data lo hi ptr, b.Covers data lo hi → b.Ordered data → hi - lo ≤ checksumMax →
        inetChecksumVbuffer h.mem base b data =
          inetChecksum ptr (((b.content h).drop lo).take (hi - lo)) := by
      rintro data lo hi ptr hc ho hlen
      have hbytes : (((b.content h).drop lo).take (hi - lo)).length ≤ checksumMax :=
        (List.length_take_le _ _).trans hlen
      rw [inetChecksum_eq ptr hbytes]
      exact (vbuffer_running base hb hc ho hlen).reduce hbytes
    refine ⟨hsub, fun ptr hlen => ?_⟩
    rw [hb.length_content] at hlen
    rw [hsub _ _ _ ptr (subCreate_all_covers 0 hb) (subCreate_all_ordered 0 hb) (by omega)]
    simp [← hb.length_content]

/-- Four bytes in two chunks, the second one at an odd address if the block is at an even one. -/
def oddBuffer : Vbuffer :=
  ⟨[⟨3, ⟨false, false, true, false⟩, .basic 1, 0, 1⟩, ⟨4, ⟨false, false, true, false⟩, .basic 1, 1, 3⟩],
    endChunk 5 true⟩

theorem checksum_of_pieces_odd : inetChecksumReduce ([(1, [1, 2, 3]), (4, [4]), (7, [5, 6])].foldl
      (fun s p => inetChecksumPartial s p.1 p.2) checksumPartialInit) = rfc1071 [1, 2, 3, 4, 5, 6] ∧
    inetChecksumVbuffer (fun _ => [1, 2, 3, 4]) (fun _ => 100) oddBuffer
      (vbufferSubCreate oddBuffer 0 none) = inetChecksum 0 [1, 2, 3, 4] :=
  ⟨checksum_of_pieces.1 [(1, [1, 2, 3]), (4, [4]), (7, [5, 6])] (by decide) (by decide),
    (checksum_of_pieces.2 ⟨6, fun _ => [1, 2, 3, 4]⟩ (fun _ => 100) oddBuffer (by decide)).2 0
      (by decide)⟩

end Haka
