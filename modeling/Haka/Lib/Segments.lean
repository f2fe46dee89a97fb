import Mathlib.Tactic

/-!
# Lists cut into segments

A list is cut into segments by delimiters: for each index of a list of indices, in order, there is a
segment of plain elements followed by the delimiter of that index. What comes after the last
delimiter is the tail. `ok` says what each segment must satisfy and `base` what the tail must.
-/

namespace Segments

variable {α ι : Type*}

/-- The list is a sequence of segments, each ended by the delimiter of its index, and a tail. -/
def Segs (plain : α → Prop) (delim : ι → α → Prop) (ok : ι → List α → Prop)
    (base : List α → Prop) : List ι → List α → Prop
  | [], l => base l
  | i :: is, l => ∃ seg d rest, l = seg ++ d :: rest ∧ (∀ a ∈ seg, plain a) ∧ ok i seg ∧
      delim i d ∧ Segs plain delim ok base is rest

section Rules

variable {plain : α → Prop} {delim : ι → α → Prop} {ok : ι → List α → Prop} {base : List α → Prop}

variable {l : List α} {is : List ι}

@[simp] theorem segs_nil : Segs plain delim ok base [] l ↔ base l := Iff.rfl

theorem segs_cons {i : ι} : Segs plain delim ok base (i :: is) l ↔
      ∃ seg d rest, l = seg ++ d :: rest ∧ (∀ a ∈ seg, plain a) ∧ ok i seg ∧ delim i d ∧
        Segs plain delim ok base is rest := Iff.rfl

theorem plain_place {A X B seg rest : List α} {d : α} (hX : ∀ a ∈ X, plain a) (hd : ¬plain d)
    (h : A ++ X ++ B = seg ++ d :: rest) :
    (∃ B', seg = A ++ X ++ B' ∧ B = B' ++ d :: rest) ∨
      ∃ A', A = seg ++ d :: A' ∧ rest = A' ++ X ++ B := by
  rcases List.append_eq_append_iff.1 h with ⟨B', hseg, hB⟩ | ⟨C, hAX, hC⟩
  · exact .inl ⟨B', hseg, hB⟩
  cases C with
  | nil => exact .inl ⟨[], by simpa using hAX.symm, by simpa using hC.symm⟩
  | cons c C =>
    obtain ⟨rfl, rfl⟩ : c = d ∧ C ++ B = rest := by
      obtain ⟨h1, h2⟩ := List.cons.inj hC
      exact ⟨h1.symm, h2.symm⟩
    right
    rcases List.append_eq_append_iff.1 hAX with ⟨D, -, hD⟩ | ⟨D, hA, hD⟩
    · exact absurd (hX c (by simp [hD])) hd
    · cases D with
      | nil =>
        have hD' : c :: C = X := by simpa using hD
        exact absurd (hX c (by simp [← hD'])) hd
      | cons e D =>
        obtain ⟨rfl, rfl⟩ := List.cons.inj hD
        exact ⟨D, hA, rfl⟩

/-- **Replacement.** Plain elements may be replaced by plain elements wherever the segments and the
tail allow it. -/
theorem Segs.replace {X Y B : List α} (hdelim : ∀ i a, delim i a → ¬plain a)
    (hX : ∀ a ∈ X, plain a) (hY : ∀ a ∈ Y, plain a)
    (hok : ∀ i A B, ok i (A ++ X ++ B) → ok i (A ++ Y ++ B))
    (hbase : ∀ A, base (A ++ X ++ B) → base (A ++ Y ++ B)) {A : List α}
    (h : Segs plain delim ok base is (A ++ X ++ B)) :
    Segs plain delim ok base is (A ++ Y ++ B) := by
  induction is generalizing A with
  | nil => exact hbase A h
  | cons i is ih =>
    obtain ⟨seg, d, rest, hl, hplain, hseg, hd, hrest⟩ := h
    rcases plain_place hX (hdelim i d hd) hl with ⟨B', rfl, rfl⟩ | ⟨A', rfl, rfl⟩
    · refine ⟨A ++ Y ++ B', d, rest, by simp, fun a ha => ?_, hok i A B' hseg, hd, hrest⟩
      simp only [List.mem_append] at ha hplain
      rcases ha with (ha | ha) | ha
      · exact hplain a (by tauto)
      · exact hY a ha
      · exact hplain a (by tauto)
    · exact ⟨seg, d, A' ++ Y ++ B, by simp, hplain, hseg, hd, ih hrest⟩

/-- **Growth.** A new segment absorbs the tail. -/
theorem Segs.snoc {i : ι} {seg : List α} {d : α} (h : Segs plain delim ok base is l)
    (hseg : ∀ a ∈ seg, plain a) (hd : delim i d)
    (htail : ∀ t, base t → (∀ a ∈ t, plain a) ∧ ok i (t ++ seg)) (hnil : base []) :
    Segs plain delim ok base (is ++ [i]) (l ++ seg ++ [d]) := by
  induction is generalizing l with
  | nil =>
    obtain ⟨ht, hok⟩ := htail l h
    refine ⟨l ++ seg, d, [], by simp, fun a ha => ?_, hok, hd, hnil⟩
    rcases List.mem_append.1 ha with ha | ha
    · exact ht a ha
    · exact hseg a ha
  | cons j is ih =>
    obtain ⟨seg', d', rest, rfl, hplain, hok, hd', hrest⟩ := h
    exact ⟨seg', d', rest ++ seg ++ [d], by simp, hplain, hok, hd', ih hrest⟩

theorem segs_append {js : List ι} : Segs plain delim ok base (is ++ js) l ↔
      ∃ l1 l2, l = l1 ++ l2 ∧ Segs plain delim ok (· = []) is l1 ∧
        Segs plain delim ok base js l2 := by
  induction is generalizing l with
  | nil => simp
  | cons i is ih =>
    simp only [List.cons_append, segs_cons, ih]
    constructor
    · rintro ⟨seg, d, rest, rfl, hplain, hok, hd, l1, l2, rfl, h1, h2⟩
      exact ⟨seg ++ d :: l1, l2, by simp, ⟨seg, d, l1, rfl, hplain, hok, hd, h1⟩, h2⟩
    · rintro ⟨l1, l2, rfl, ⟨seg, d, rest, rfl, hplain, hok, hd, hrest⟩, h2⟩
      exact ⟨seg, d, rest ++ l2, by simp, hplain, hok, hd, rest, l2, rfl, hrest, h2⟩

theorem Segs.mem {P : α → Prop} (hplain : ∀ a, plain a → P a) (hdelim : ∀ i a, delim i a → P a)
    (hbase : ∀ l, base l → ∀ a ∈ l, P a) (h : Segs plain delim ok base is l) : ∀ a ∈ l, P a := by
  induction is generalizing l with
  | nil => exact hbase l h
  | cons i is ih =>
    obtain ⟨seg, d, rest, rfl, hseg, -, hd, hrest⟩ := h
    intro a ha
    rcases List.mem_append.1 ha with ha | ha
    · exact hplain a (hseg a ha)
    · rcases List.mem_cons.1 ha with rfl | ha
      · exact hdelim i a hd
      · exact ih hrest a ha

theorem Segs.imp {ok' : ι → List α → Prop} {base' : List α → Prop} {Q : α → Prop}
    (hok : ∀ i seg, (∀ a ∈ seg, Q a) → ok i seg → ok' i seg)
    (hbase : ∀ t, (∀ a ∈ t, Q a) → base t → base' t) (hQ : ∀ a ∈ l, Q a)
    (h : Segs plain delim ok base is l) : Segs plain delim ok' base' is l := by
  induction is generalizing l with
  | nil => exact hbase l hQ h
  | cons i is ih =>
    obtain ⟨seg, d, rest, rfl, hplain, hseg, hd, hrest⟩ := h
    exact ⟨seg, d, rest, rfl, hplain, hok i seg (fun a ha => hQ a (by simp [ha])) hseg, hd,
      ih (fun a ha => hQ a (by simp [ha])) hrest⟩

end Rules

end Segments
