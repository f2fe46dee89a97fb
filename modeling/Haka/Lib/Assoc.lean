import Mathlib.Tactic

/-!
# Lists of keyed entries

A table is a list of entries, each with a key and a value. `Tabulates` says that it stands for a
partial function: no key occurs twice, and the function has at a key the value of its entry. Adding,
replacing and removing an entry update the function. An entry is found by a search that gives its
place, as what stands before and after it; which one it finds of several is left open.
-/

namespace Assoc

variable {α κ β : Type*}

/-- A search for an entry that meets a condition. -/
structure Search (α : Type*) where
  find : List α → (α → Bool) → Option (List α × α × List α)
  found : ∀ {table p before e after}, find table p = some (before, e, after) →
    table = before ++ e :: after ∧ p e = true
  missed : ∀ {table p}, find table p = none → ∀ e ∈ table, p e = false

/-- The first entry that meets the condition, with what stands before and after it. -/
def findFirst : List α → (α → Bool) → Option (List α × α × List α)
  | [], _ => none
  | e :: table, p =>
    if p e then some ([], e, table)
    else (findFirst table p).map fun r => (e :: r.1, r.2)

theorem findFirst_found {table before after : List α} {p : α → Bool} {e : α}
    (h : findFirst table p = some (before, e, after)) :
    table = before ++ e :: after ∧ p e = true := by
  induction table generalizing before with
  | nil => simp [findFirst] at h
  | cons x table ih =>
    rw [findFirst] at h
    split at h
    case isTrue hp =>
      cases h
      exact ⟨rfl, hp⟩
    case isFalse =>
      obtain ⟨⟨b, y, a⟩, hr, heq⟩ := Option.map_eq_some_iff.1 h
      cases heq
      obtain ⟨rfl, hp⟩ := ih hr
      exact ⟨rfl, hp⟩

theorem findFirst_missed {table : List α} {p : α → Bool} (h : findFirst table p = none) :
    ∀ e ∈ table, p e = false := by
  induction table with
  | nil => simp
  | cons x table ih =>
    rw [findFirst] at h
    split at h
    case isTrue => simp at h
    case isFalse hp =>
      rintro e he
      rcases List.mem_cons.1 he with rfl | he
      · exact Bool.eq_false_iff.2 hp
      · exact ih (Option.map_eq_none_iff.1 h) e he

def Search.first : Search α := ⟨findFirst, findFirst_found, findFirst_missed⟩

variable {key : α → Option κ} {val : α → β} {table before after : List α}
  {f : κ → Option β} {k : κ} {e e' : α}

/-- The table stands for the partial function `f`. -/
structure Tabulates (key : α → Option κ) (val : α → β) (table : List α) (f : κ → Option β) :
    Prop where
  nodup : (table.map key).Nodup
  lookup : ∀ k v, f k = some v ↔ ∃ e ∈ table, key e = some k ∧ val e = v

theorem tabulates_nil : Tabulates key val [] fun _ => none :=
  ⟨List.nodup_nil, by simp⟩

theorem Tabulates.get (hr : Tabulates key val table f) (he : e ∈ table) (hk : key e = some k) :
    f k = some (val e) :=
  (hr.lookup k _).2 ⟨e, he, hk, rfl⟩

theorem Tabulates.get_none (hr : Tabulates key val table f) (hk : ∀ e ∈ table, key e ≠ some k) :
    f k = none := by
  rw [Option.eq_none_iff_forall_ne_some]
  rintro v hv
  obtain ⟨e, he, hke, -⟩ := (hr.lookup k v).1 hv
  exact hk e he hke

theorem Tabulates.others (hr : Tabulates key val (before ++ e :: after) f)
    (hk : key e = some k) : ∀ x ∈ before ++ after, key x ≠ some k := by
  have hnodup := (List.perm_middle.map key).nodup_iff.1 hr.nodup
  rintro x hx hkx
  exact (List.nodup_cons.1 hnodup).1 (List.mem_map.2 ⟨x, hx, by rw [hkx, hk]⟩)

theorem Tabulates.perm (hr : Tabulates key val table f) {table' : List α}
    (hp : table.Perm table') : Tabulates key val table' f := by
  refine ⟨(hp.map key).nodup_iff.1 hr.nodup, fun k v => ?_⟩
  rw [hr.lookup]
  exact ⟨fun ⟨x, hx, h⟩ => ⟨x, hp.subset hx, h⟩, fun ⟨x, hx, h⟩ => ⟨x, hp.symm.subset hx, h⟩⟩

variable [DecidableEq κ]

theorem Tabulates.cons (hr : Tabulates key val table f) (hk : key e = some k)
    (hn : ∀ x ∈ table, key x ≠ some k) :
    Tabulates key val (e :: table) (Function.update f k (some (val e))) := by
  refine ⟨List.nodup_cons.2 ⟨?_, hr.nodup⟩, fun k' v => ?_⟩
  · rintro hm
    obtain ⟨x, hx, hkx⟩ := List.mem_map.1 hm
    exact hn x hx (hkx.trans hk)
  · by_cases hkk : k' = k
    · subst hkk
      simp only [Function.update_self, List.exists_mem_cons_iff]
      constructor
      · rintro hv
        exact .inl ⟨hk, Option.some.inj hv⟩
      · rintro (⟨-, rfl⟩ | ⟨x, hx, hkx, -⟩)
        · rfl
        · exact absurd hkx (hn x hx)
    · simp only [Function.update_of_ne hkk, hr.lookup, List.exists_mem_cons_iff]
      constructor
      · exact .inr
      · rintro (⟨hke, -⟩ | h)
        · exact absurd (Option.some.inj (hke.symm.trans hk)) hkk
        · exact h

theorem Tabulates.erase (hr : Tabulates key val (before ++ e :: after) f) (hk : key e = some k) :
    Tabulates key val (before ++ after) (Function.update f k none) := by
  refine ⟨hr.nodup.sublist ((List.sublist_cons_self e after).append_left before |>.map key),
    fun k' v => ?_⟩
  by_cases hkk : k' = k
  · subst hkk
    rw [Function.update_self]
    constructor
    · rintro hv
      cases hv
    · rintro ⟨x, hx, hkx, -⟩
      exact absurd hkx (hr.others hk x hx)
  · rw [Function.update_of_ne hkk, hr.lookup]
    constructor
    · rintro ⟨x, hx, hkx, hv⟩
      rcases List.mem_cons.1 (List.perm_middle.subset hx) with rfl | hx
      · exact absurd (Option.some.inj (hkx.symm.trans hk)) hkk
      · exact ⟨x, hx, hkx, hv⟩
    · rintro ⟨x, hx, h⟩
      exact ⟨x, List.perm_middle.symm.subset (List.mem_cons_of_mem e hx), h⟩

theorem Tabulates.set (hr : Tabulates key val (before ++ e :: after) f) (hk : key e = some k)
    (hk' : key e' = some k) :
    Tabulates key val (before ++ e' :: after) (Function.update f k (some (val e'))) := by
  have h := ((hr.erase hk).cons hk' (hr.others hk)).perm List.perm_middle.symm
  rwa [Function.update_idem] at h

end Assoc
