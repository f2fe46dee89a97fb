import Mathlib.Data.List.AList
import Mathlib.Data.Finset.Card
import Mathlib.Algebra.CharZero.Defs
import Mathlib.Order.Interval.Finset.Nat
import Mathlib.Tactic

/-!
# Lua tables with number keys

A table is a finite map from keys to values. Its length is a *border*: a number `n` such that there
is a value at `n`, or `n` is zero, and none at `n + 1`. A table may have several borders, and which
one is its length is left open: `Length` is any choice. `ipairs` goes through the values at
`1, 2, …` up to the first key without one, and `append` inserts the values that `ipairs` finds in
one table at the end of another one, as its length has it at each step.
-/

namespace Lua

open List

variable {κ α : Type*} [DecidableEq κ] [AddMonoidWithOne κ]

abbrev Table (κ α : Type*) := AList fun _ : κ => α

namespace Table

/-- `n` is a border of the table. -/
def IsBorder (t : Table κ α) (n : ℕ) : Prop :=
  (n = 0 ∨ (n : κ) ∈ t) ∧ ((n + 1 : ℕ) : κ) ∉ t

/-- The values at `i, i + 1, …` up to the first key without one, at most `n`. -/
def ipairsFrom (t : Table κ α) : ℕ → ℕ → List α
  | 0, _ => []
  | n + 1, i =>
    match t.lookup (i : κ) with
    | none => []
    | some a => a :: ipairsFrom t n (i + 1)

/-- `ipairs`: a table cannot have more values than entries. -/
def ipairs (t : Table κ α) : List α := t.ipairsFrom t.entries.length 1

end Table

/-- The operator `#`: any border of the table. -/
structure Length (κ α : Type*) [DecidableEq κ] [AddMonoidWithOne κ] where
  len : Table κ α → ℕ
  border : ∀ t : Table κ α, t.IsBorder (len t)

namespace Table

variable (len : Length κ α)

/-- `table.insert`, with the value last. -/
def push (t : Table κ α) (a : α) : Table κ α := t.insert ((len.len t + 1 : ℕ) : κ) a

def append (dst src : Table κ α) : Table κ α := src.ipairs.foldl (push len) dst

/-! ## The length -/

variable {t : Table κ α}

omit [DecidableEq κ] in
theorem cast_add_injective [CharZero κ] (i : ℕ) :
    Function.Injective fun j : ℕ => ((i + j : ℕ) : κ) := by
  intro j j' hj
  exact Nat.add_left_cancel (Nat.cast_injective hj)

variable {i n : ℕ} {a : α} {k : κ} {l : List α}

theorem le_length_of_keys [CharZero κ] (h : ∀ j < n, ((i + j : ℕ) : κ) ∈ t) :
    n ≤ t.entries.length := by
  have hsub : (Finset.range n).image (fun j => ((i + j : ℕ) : κ)) ⊆ t.keys.toFinset := by
    intro k hk
    obtain ⟨j, hj, rfl⟩ := Finset.mem_image.1 hk
    exact mem_toFinset.2 (h j (Finset.mem_range.1 hj))
  calc n = ((Finset.range n).image fun j => ((i + j : ℕ) : κ)).card := by
        rw [Finset.card_image_of_injective _ (cast_add_injective _), Finset.card_range]
    _ ≤ t.keys.toFinset.card := Finset.card_le_card hsub
    _ ≤ t.keys.length := t.keys.toFinset_card_le
    _ = t.entries.length := length_map _

theorem exists_border_ge [CharZero κ] (h : n = 0 ∨ (n : κ) ∈ t) : ∃ m, n ≤ m ∧ t.IsBorder m := by
  by_contra hno
  push Not at hno
  -- without a border every key from `n + 1` on has a value
  have hall : ∀ j, ((n + 1 + j : ℕ) : κ) ∈ t := by
    intro j
    induction j with
    | zero =>
      by_contra hj
      exact hno n le_rfl ⟨h, hj⟩
    | succ j ih =>
      by_contra hj
      exact hno (n + 1 + j) (by omega) ⟨.inr ih, hj⟩
  have := le_length_of_keys fun j (_ : j < t.entries.length + 1) => hall j
  omega

theorem exists_length [CharZero κ] (h : t.IsBorder n) : ∃ len : Length κ α, len.len t = n := by
  classical
  have hex (u : Table κ α) : ∃ m, u.IsBorder m := by
    obtain ⟨m, -, hm⟩ := exists_border_ge (t := u) (.inl rfl)
    exact ⟨m, hm⟩
  refine ⟨⟨Function.update (fun u => (hex u).choose) t n, fun u => ?_⟩, by simp⟩
  by_cases hu : u = t
  · subst hu
    simpa using h
  · rw [Function.update_of_ne hu]
    exact (hex u).choose_spec

instance [CharZero κ] : Nonempty (Length κ α) := by
  obtain ⟨n, -, hn⟩ := exists_border_ge (t := (∅ : Table κ α)) (.inl rfl)
  obtain ⟨len, -⟩ := exists_length hn
  exact ⟨len⟩

/-! ## The values of `ipairs` -/

theorem getElem?_ipairsFrom (n i j : ℕ) : (t.ipairsFrom n i)[j]? =
      if j < n ∧ ∀ k ≤ j, ((i + k : ℕ) : κ) ∈ t then t.lookup ((i + j : ℕ) : κ) else none := by
  induction n generalizing i j with
  | zero => simp [ipairsFrom]
  | succ n ih =>
    rw [ipairsFrom]
    cases hl : t.lookup (i : κ) with
    | none =>
      have hi : (i : κ) ∉ t := AList.lookup_eq_none.1 hl
      rw [if_neg fun h => hi (by simpa using h.2 0 (Nat.zero_le j))]
      rfl
    | some a =>
      have hi : (i : κ) ∈ t := AList.lookup_isSome.1 (by simp [hl])
      cases j with
      | zero => simp [hl, hi]
      | succ j =>
        have hiff : (j < n ∧ ∀ k ≤ j, ((i + 1 + k : ℕ) : κ) ∈ t) ↔
            (j + 1 < n + 1 ∧ ∀ k ≤ j + 1, ((i + k : ℕ) : κ) ∈ t) := by
          refine and_congr (by omega) ⟨fun h k hk => ?_, fun h k hk => ?_⟩
          · cases k with
            | zero => exact hi
            | succ k => simpa [Nat.add_assoc, Nat.add_comm 1 k] using h k (by omega)
          · simpa [Nat.add_assoc, Nat.add_comm 1 k] using h (k + 1) (by omega)
        rw [getElem?_cons_succ, ih, if_congr hiff rfl rfl, Nat.add_right_comm i 1 j]
        rfl

/-- `ipairs` finds the value at `j + 1` if there are values at all keys up to it. -/
theorem getElem?_ipairs [CharZero κ] (j : ℕ) : t.ipairs[j]? =
      if ∀ k ≤ j, ((1 + k : ℕ) : κ) ∈ t then t.lookup ((1 + j : ℕ) : κ) else none := by
  rw [ipairs, getElem?_ipairsFrom]
  refine if_congr ⟨And.right, fun h => ⟨?_, h⟩⟩ rfl rfl
  exact le_length_of_keys fun k (hk : k < j + 1) => h k (by omega)

/-- The keys that `ipairs` visits. -/
theorem mem_of_lt_ipairs [CharZero κ] {j : ℕ} (hj : j < t.ipairs.length) :
    ((1 + j : ℕ) : κ) ∈ t := by
  have h := getElem?_ipairs (t := t) j
  rw [getElem?_eq_getElem hj] at h
  by_contra hno
  rw [if_neg fun hall => hno (hall j le_rfl)] at h
  cases h

theorem getElem_ipairs [CharZero κ] {j : ℕ} (hj : j < t.ipairs.length) :
    t.lookup ((1 + j : ℕ) : κ) = some t.ipairs[j] := by
  have h := getElem?_ipairs (t := t) j
  rw [getElem?_eq_getElem hj, if_pos fun k hk => mem_of_lt_ipairs (by omega)] at h
  exact h.symm

/-- If the keys are `1, …, n`, `ipairs` visits all of them. -/
theorem length_ipairs [CharZero κ] (h : ∀ k, k ∈ t ↔ ∃ j < n, k = ((1 + j : ℕ) : κ)) :
    t.ipairs.length = n := by
  apply le_antisymm
  · by_contra hlt
    obtain ⟨j, hj, heq⟩ := (h _).1 (mem_of_lt_ipairs (j := n) (by omega))
    have := Nat.cast_injective heq
    omega
  · by_contra hlt
    have hnone : t.ipairs[t.ipairs.length]? = none := getElem?_eq_none le_rfl
    have hin : ∀ k ≤ t.ipairs.length, ((1 + k : ℕ) : κ) ∈ t := fun k hk =>
      (h _).2 ⟨k, by omega, rfl⟩
    rw [getElem?_ipairs, if_pos hin] at hnone
    exact AList.lookup_eq_none.1 hnone (hin _ le_rfl)

/-! ## Appending -/

theorem lookup_push_self (a : α) : (t.push len a).lookup ((len.len t + 1 : ℕ) : κ) = some a :=
  AList.lookup_insert t

theorem lookup_push_of_ne (h : k ≠ ((len.len t + 1 : ℕ) : κ)) :
    (t.push len a).lookup k = t.lookup k :=
  AList.lookup_insert_ne h

theorem lookup_push_of_mem (h : k ∈ t) : (t.push len a).lookup k = t.lookup k :=
  lookup_push_of_ne len fun heq => (len.border t).2 (heq ▸ h)

theorem lookup_foldl_push_of_mem (h : k ∈ t) : (l.foldl (push len) t).lookup k = t.lookup k := by
  induction l generalizing t with
  | nil => rfl
  | cons a l ih =>
    have hk := lookup_push_of_mem len (a := a) h
    have hm : k ∈ t.push len a := by
      rw [← AList.lookup_isSome, hk]
      exact AList.lookup_isSome.2 h
    rw [foldl_cons, ih hm, hk]

variable {src : Table κ α}

theorem append_eq_id (h : src.ipairs = []) : (fun t : Table κ α => t.append len src) = id := by
  funext t
  rw [append, h]
  rfl

theorem length_foldl_push (l : List α) :
    (l.foldl (push len) t).entries.length = t.entries.length + l.length := by
  induction l generalizing t with
  | nil => simp
  | cons a l ih =>
    have hone : (t.push len a).entries.length = t.entries.length + 1 := by
      rw [push, AList.entries_insert_of_notMem (len.border t).2, length_cons]
    calc ((a :: l).foldl (push len) t).entries.length
        = (t.push len a).entries.length + l.length := ih
      _ = t.entries.length + (a :: l).length := by rw [length_cons]; omega

omit [AddMonoidWithOne κ] in
theorem card_keys (t : Table κ α) : t.keys.toFinset.card = t.entries.length := by
  rw [toFinset_card_of_nodup t.keys_nodup]
  exact length_map _

/-- If `ipairs` finds as many values as there are entries, the keys are `1, …, n`. -/
theorem mem_iff_of_length [CharZero κ] (h : t.ipairs.length = t.entries.length) (k : κ) :
    k ∈ t ↔ ∃ j < t.ipairs.length, k = ((1 + j : ℕ) : κ) := by
  have heq : (Finset.range t.ipairs.length).image (fun j => ((1 + j : ℕ) : κ)) =
      t.keys.toFinset := by
    apply Finset.eq_of_subset_of_card_le
    · intro k hk
      obtain ⟨j, hj, rfl⟩ := Finset.mem_image.1 hk
      exact mem_toFinset.2 (mem_of_lt_ipairs (Finset.mem_range.1 hj))
    · rw [Finset.card_image_of_injective _ (cast_add_injective _), Finset.card_range, card_keys, h]
  rw [show k ∈ t ↔ k ∈ t.keys.toFinset from mem_toFinset.symm, ← heq, Finset.mem_image]
  simp only [Finset.mem_range, eq_comm]

theorem lookup_append_first [CharZero κ] (h : src.lookup ((1 : ℕ) : κ) = some a) :
    (t.append len src).lookup ((len.len t + 1 : ℕ) : κ) = some a := by
  have h1 : ((1 : ℕ) : κ) ∈ src := AList.lookup_isSome.1 (by simp [h])
  have h0 : src.ipairs[0]? = some a := by
    rw [getElem?_ipairs, if_pos fun k hk => by simpa [Nat.le_zero.1 hk] using h1]
    simpa using h
  obtain ⟨l, hl⟩ : ∃ l, src.ipairs = a :: l := by
    cases hs : src.ipairs with
    | nil => simp [hs] at h0
    | cons b l => exact ⟨l, by simpa [hs] using h0⟩
  have hm : ((len.len t + 1 : ℕ) : κ) ∈ t.push len a :=
    AList.lookup_isSome.1 (by simp [lookup_push_self])
  rw [append, hl, foldl_cons, lookup_foldl_push_of_mem len hm, lookup_push_self]

/-- In a table whose positive keys are `1, …, i` the length is `i`. -/
theorem len_eq [CharZero κ] (h : ∀ j : ℕ, ((j + 1 : ℕ) : κ) ∈ t ↔ j < i) : len.len t = i := by
  obtain ⟨hb, hn⟩ := len.border t
  have hge : i ≤ len.len t := by
    by_contra hlt
    exact hn ((h _).2 (by omega))
  rcases hb with hb | hb
  · omega
  · cases hl : len.len t with
    | zero => omega
    | succ n =>
      rw [hl] at hb hge
      have := (h n).1 hb
      omega

/-- Insertions into a table whose positive keys are `1, …, i`. -/
theorem lookup_foldl_push [CharZero κ] (h : ∀ j : ℕ, ((j + 1 : ℕ) : κ) ∈ t ↔ j < i) (j : ℕ) :
    (l.foldl (push len) t).lookup ((i + j + 1 : ℕ) : κ) = l[j]? := by
  induction l generalizing t i j with
  | nil =>
    refine AList.lookup_eq_none.2 fun hm => ?_
    have := (h (i + j)).1 hm
    omega
  | cons a l ih =>
    have hlen := len_eq len h
    have hm : ∀ j : ℕ, ((j + 1 : ℕ) : κ) ∈ t.push len a ↔ j < i + 1 := by
      intro j
      rw [push, AList.mem_insert, hlen, h, Nat.cast_inj]
      omega
    cases j with
    | zero =>
      have hself := lookup_push_self len (t := t) a
      rw [hlen] at hself
      rw [foldl_cons, lookup_foldl_push_of_mem len ((hm i).2 (by omega)), Nat.add_zero, hself]
      rfl
    | succ j =>
      rw [foldl_cons, show i + (j + 1) + 1 = i + 1 + j + 1 by omega, ih hm, getElem?_cons_succ]

theorem lookup_foldl_push_other (h : ∀ j : ℕ, k ≠ ((j + 1 : ℕ) : κ)) :
    (l.foldl (push len) t).lookup k = t.lookup k := by
  induction l generalizing t with
  | nil => rfl
  | cons a l ih => rw [foldl_cons, ih, lookup_push_of_ne len (h _)]

/-- **Appending keeps the keys** if the keys of the source are `1, …, n`, and none of the positive
integers is one of the destination. -/
theorem lookup_append [CharZero κ] (hd : ∀ j : ℕ, ((j + 1 : ℕ) : κ) ∉ t)
    (hs : ∀ k, k ∈ src ↔ ∃ j < n, k = ((1 + j : ℕ) : κ)) (k : κ) :
    (t.append len src).lookup k = (t.lookup k).or (src.lookup k) := by
  by_cases hk : ∃ j : ℕ, k = ((j + 1 : ℕ) : κ)
  · obtain ⟨j, rfl⟩ := hk
    have hz := lookup_foldl_push len (l := src.ipairs) (i := 0) (by simpa using hd) j
    rw [Nat.zero_add] at hz
    rw [append, hz, AList.lookup_eq_none.2 (hd j), Option.none_or, Nat.add_comm j 1]
    by_cases hj : j < src.ipairs.length
    · rw [getElem?_eq_getElem hj, getElem_ipairs hj]
    · rw [getElem?_eq_none (by omega), AList.lookup_eq_none.2]
      intro hm
      obtain ⟨j', hj', heq⟩ := (hs _).1 hm
      have := Nat.cast_injective heq
      have := length_ipairs hs
      omega
  · have hne : ∀ j : ℕ, k ≠ ((j + 1 : ℕ) : κ) := fun j hj => hk ⟨j, hj⟩
    have hns : k ∉ src := by
      intro hm
      obtain ⟨j, -, rfl⟩ := (hs k).1 hm
      exact hne j (by rw [Nat.add_comm])
    rw [append, lookup_foldl_push_other len hne, AList.lookup_eq_none.2 hns, Option.or_none]

end Table

end Lua
