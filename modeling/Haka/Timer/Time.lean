import Mathlib.Tactic

/-!
# Times

The arithmetic of `struct time`: seconds and nano-seconds, the latter always less than a second. The
number of nano-seconds of a time, `Time.ns`, makes the comparison, the sum and the difference those of
the integers. The quotient is computed with 64 bits and is exact for times below 2^64 nano-seconds. The
multiplier is an `int`: the product is exact for every multiplier that is not negative, and a larger
integer is converted first.
-/

namespace Haka

abbrev secToNsec : ℕ := 1000000000

/-- `struct time`. The seconds are a `time_t`, taken as unbounded. -/
structure Time where
  secs : ℤ
  nsecs : ℕ
  normal : nsecs < secToNsec
  deriving DecidableEq

def invalidTime : Time := ⟨0, 0, by decide⟩

def timeCmp (t₁ t₂ : Time) : Ordering :=
  if t₁.secs < t₂.secs then .lt
  else if t₁.secs > t₂.secs then .gt
  else if t₁.nsecs < t₂.nsecs then .lt
  else if t₁.nsecs > t₂.nsecs then .gt
  else .eq

def timeAdd (t₁ t₂ : Time) : Time :=
  ⟨t₁.secs + t₂.secs + (t₁.nsecs + t₂.nsecs) / secToNsec, (t₁.nsecs + t₂.nsecs) % secToNsec,
    Nat.mod_lt _ (by decide)⟩

/-- `_time_diff`, for a first time that is not before the second. -/
def _timeDiff (t₁ t₂ : Time) : Time :=
  if h : t₁.nsecs ≥ t₂.nsecs then
    ⟨t₁.secs - t₂.secs, t₁.nsecs - t₂.nsecs, lt_of_le_of_lt (Nat.sub_le ..) t₁.normal⟩
  else
    ⟨t₁.secs - t₂.secs - 1, t₁.nsecs + secToNsec - t₂.nsecs, by
      unfold secToNsec at *
      omega⟩

/-- `time_diff`, which also returns the comparison. -/
def timeDiff (t₁ t₂ : Time) : Time × Ordering :=
  (if timeCmp t₁ t₂ ≠ .lt then _timeDiff t₁ t₂ else _timeDiff t₂ t₁, timeCmp t₁ t₂)

/-- A time in nano-seconds as a `uint64`. -/
def Time.toUint64 (t : Time) : ℕ := ((t.secs * secToNsec + t.nsecs) % 2 ^ 64).toNat

def timeDivide (t₁ t₂ : Time) : ℕ := t₁.toUint64 / t₂.toUint64

/-- `time_mult`. The product of the nano-seconds is a `uint64`. -/
def timeMult (t : Time) (mult : Int32) : Time :=
  let nsecs := (t.nsecs * mult.toInt % 2 ^ 64).toNat
  ⟨t.secs * mult.toInt + (nsecs / secToNsec : ℕ), nsecs % secToNsec, Nat.mod_lt _ (by decide)⟩

/-! ## Nano-seconds -/

def Time.ns (t : Time) : ℤ := t.secs * secToNsec + t.nsecs

variable {t1 t2 : Time}

theorem timeCmp_eq_lt : timeCmp t1 t2 = .lt ↔ t1.ns < t2.ns := by
  have h1 := t1.normal
  have h2 := t2.normal
  unfold timeCmp Time.ns
  simp only [secToNsec] at *
  split_ifs <;> simp <;> omega

theorem timeCmp_eq_gt : timeCmp t1 t2 = .gt ↔ t2.ns < t1.ns := by
  have h1 := t1.normal
  have h2 := t2.normal
  unfold timeCmp Time.ns
  simp only [secToNsec] at *
  split_ifs <;> simp <;> omega

@[simp] theorem ns_timeAdd (t1 t2 : Time) : (timeAdd t1 t2).ns = t1.ns + t2.ns := by
  simp only [timeAdd, Time.ns, secToNsec]
  omega

theorem ns_timeDiff_aux : (_timeDiff t1 t2).ns = t1.ns - t2.ns := by
  have h2 := t2.normal
  unfold _timeDiff
  split_ifs with hn <;> simp only [Time.ns, secToNsec] at * <;> omega

theorem ns_timeDiff : (timeDiff t1 t2).1.ns = |t1.ns - t2.ns| := by
  unfold timeDiff
  split_ifs with h <;> rw [ne_eq, timeCmp_eq_lt] at h <;> rw [ns_timeDiff_aux]
  · rw [abs_of_nonneg (by omega)]
  · rw [abs_of_neg (by omega), neg_sub]

theorem ns_timeDiff_of_le (h : t1.ns ≤ t2.ns) : (timeDiff t1 t2).1.ns = t2.ns - t1.ns := by
  rw [ns_timeDiff, abs_sub_comm, abs_of_nonneg (by omega)]

theorem toUint64_of_small {t : Time} (h0 : 0 ≤ t.ns) (h : t.ns < 2 ^ 64) : (t.toUint64 : ℤ) = t.ns := by
  show (((t.ns % 2 ^ 64).toNat : ℕ) : ℤ) = t.ns
  rw [Int.emod_eq_of_lt h0 h]
  exact Int.toNat_of_nonneg h0

theorem timeDivide_of_small (h1 : 0 ≤ t1.ns) (h1' : t1.ns < 2 ^ 64) (h2 : 0 ≤ t2.ns)
    (h2' : t2.ns < 2 ^ 64) : (timeDivide t1 t2 : ℤ) = t1.ns / t2.ns := by
  unfold timeDivide
  rw [Int.natCast_ediv, toUint64_of_small h1 h1', toUint64_of_small h2 h2']

theorem ns_timeMult {t : Time} {mult : Int32} (h0 : 0 ≤ mult.toInt) :
    (timeMult t mult).ns = t.ns * mult.toInt := by
  have ht := t.normal
  have hpos : 0 ≤ (t.nsecs : ℤ) * mult.toInt := by positivity
  have hlt : (t.nsecs : ℤ) * mult.toInt < 2 ^ 64 :=
    calc (t.nsecs : ℤ) * mult.toInt ≤ secToNsec * 2 ^ 31 := by
          gcongr
          exact mult.toInt_lt.le
      _ < 2 ^ 64 := by norm_num
  obtain ⟨n, hn⟩ := Int.eq_ofNat_of_zero_le hpos
  have hsplit : ((n / secToNsec : ℕ) : ℤ) * secToNsec + (n % secToNsec : ℕ) = n := by
    exact_mod_cast Nat.div_add_mod' n secToNsec
  unfold timeMult Time.ns
  dsimp only
  rw [Int.emod_eq_of_lt hpos hlt, hn, Int.toNat_natCast, add_mul, add_mul, add_assoc, hsplit, hn]
  ring

theorem toInt_ofNat_iff (n : ℕ) : (Int32.ofNat n).toInt = n ↔ n < 2 ^ 31 := by
  rw [Int32.toInt_ofNat', Int.bmod_def, Int32.size]
  split_ifs <;> omega

theorem timeCmp_eq_compare (t1 t2 : Time) : timeCmp t1 t2 = compare t1.ns t2.ns := by
  cases h : compare t1.ns t2.ns with
  | lt => exact timeCmp_eq_lt.2 (compare_lt_iff_lt.1 h)
  | gt => exact timeCmp_eq_gt.2 (compare_gt_iff_gt.1 h)
  | eq =>
    have heq := compare_eq_iff_eq.1 h
    cases hcmp : timeCmp t1 t2 with
    | lt => exact absurd heq (timeCmp_eq_lt.1 hcmp).ne
    | gt => exact absurd heq (timeCmp_eq_gt.1 hcmp).ne'
    | eq => rfl

end Haka
