import Haka.Lib.Program
import Haka.Dns.Wire

/-!
# Labels as they are linked

A parsed message has a table of labels by their offsets. Every label in it leads where the bytes at its
offset lead: to the next label of its name, or to the target of its pointer.
-/

namespace Haka.Dns

open Grammar (Position)

variable {input : List UInt8} {ctx ctx' : Context} {dns : List ℕ} {o m : ℕ}

/-! ## One label -/

/-- A label at an offset as the grammar reads it, and the position behind it. -/
inductive Shape (input : List UInt8) (o : ℕ) : ℕ → Label → Prop
  | pointer {b : UInt8} (hb : input[o]? = some b) (hscheme : 192 ≤ b.toNat) :
    Shape input o (advance input o 2)
      { compressionScheme := some ⟨subAt input o 1, 0, 2⟩, pointer := some ⟨subAt input o 2, 2, 14⟩ }
  | name {b : UInt8} (hb : input[o]? = some b) (hlt : b.toNat < 64) :
    Shape input o (advance input (o + 1) b.toNat)
      { compressionScheme := some ⟨subAt input o 1, 0, 2⟩, length := some ⟨subAt input o 1, 2, 6⟩
        name := some (subAt input (o + 1) b.toNat) }

theorem modify_append_length {α : Type} (l : List α) (x : α) (f : α → α) {n : ℕ}
    (hn : l.length = n) : (l ++ [x]).modify n f = l ++ [f x] := by
  subst hn
  induction l with
  | nil => rfl
  | cons a l ih => exact congrArg (a :: ·) ih

@[simp] theorem length_linkLabel (labels : List Label) (dn : List ℕ) (self : ℕ) :
    (linkLabel labels dn self).length = labels.length := by
  unfold linkLabel
  split <;> simp

theorem bytes_ok (n : ℕ) :
    bytes input (n : ℤ) ⟨m, 0⟩ = .ok (subAt input m n, ⟨advance input m n, 0⟩) := by
  simp [bytes]

/-- What `label` does when it succeeds. -/
theorem label_spec (hpos : ctx.pos = ⟨m, 0⟩) (h : label input ctx dns = .ok ctx') :
    ∃ m' l, Shape input m m' l ∧ m < input.length ∧
      ctx' = ⟨⟨m', 0⟩, linkLabel ctx.labels dns ctx.labels.length ++ [l],
        setLabel ctx.table m ctx.labels.length⟩ := by
  obtain ⟨v, hscheme, h⟩ := Except.bind_eq_ok.1 h
  simp only [Context.newLabel, hpos] at hscheme h
  have hm : m < input.length := lt_of_scheme_value hscheme
  have hb : input[m]? = some input[m] := List.getElem?_eq_getElem hm
  have hv : v = ((input[m]).toNat / 64 : ℕ) :=
    Except.ok.inj (hscheme.symm.trans (scheme_value hb))
  have hlen := length_linkLabel ctx.labels dns ctx.labels.length
  -- two bits of the byte do not move the position
  have hstay : advance input m 0 = m := by unfold advance; omega
  simp only [Context.number, Context.setFields, number, Nat.zero_add, Nat.reduceMod, Nat.reduceAdd,
    Nat.reduceDiv, ne_eq, OfNat.ofNat_ne_zero, not_false_eq_true, if_true, Nat.sub_self, hstay,
    modify_append_length _ _ _ hlen] at h
  by_cases hptr : v = pointerCompression
  · rw [if_pos hptr] at h
    refine ⟨_, _, .pointer hb ?_, hm, (Except.ok.inj h).symm⟩
    rw [hv, pointerCompression] at hptr
    omega
  · rw [if_neg hptr] at h
    by_cases hname : v = noCompression
    · rw [if_pos hname] at h
      simp only [not_true_eq_false, if_false] at h
      have hsmall : (input[m]).toNat < 64 := by
        rw [hv, noCompression] at hname
        omega
      obtain ⟨count, hcount, h⟩ := Except.bind_eq_ok.1 h
      have hcount : count = ((input[m]).toNat : ℕ) := by
        rw [length_value hb, Nat.mod_eq_of_lt hsmall] at hcount
        exact (Except.ok.inj hcount).symm
      subst hcount
      have hone : advance input m 1 = m + 1 := by unfold advance; omega
      simp only [Context.bytes, bytes_ok, hone, bind, Except.bind, pure, Except.pure,
        modify_append_length _ _ _ hlen] at h
      exact ⟨_, _, .name hb hsmall, hm, (Except.ok.inj h).symm⟩
    · rw [if_neg hname] at h
      cases h

variable {m' r : ℕ} {l : Label} {b : UInt8}

theorem Shape.lt (hs : Shape input o m' l) : o < m' ∧ m' ≤ input.length := by
  cases hs with
  | pointer hb =>
    obtain ⟨ho, -⟩ := List.getElem?_eq_some_iff.1 hb
    unfold advance
    omega
  | name hb =>
    obtain ⟨ho, -⟩ := List.getElem?_eq_some_iff.1 hb
    unfold advance
    omega

theorem Shape.name_eq (hs : Shape input o m' l) (hb : input[o]? = some b) :
    l.name = if b.toNat < 64 then some (subAt input (o + 1) b.toNat) else none := by
  cases hs with
  | pointer hb' hscheme =>
    obtain rfl := Option.some.inj (hb.symm.trans hb')
    rw [if_neg (by omega)]
  | name hb' hlt =>
    obtain rfl := Option.some.inj (hb.symm.trans hb')
    rw [if_pos hlt]

/-- Whether a label is the last one of its name. -/
theorem Shape.isLast_cases {last : Bool} (hs : Shape input o m' l) (h : l.isLast = .ok last) :
    (last = true ∧ m' = o + 2 ∧ ∃ b c g, input[o]? = some b ∧ 192 ≤ b.toNat ∧
        input[o + 1]? = some c ∧ l.pointer = some g ∧
        g.value = .ok (b.toNat % 64 * 256 + c.toNat : ℕ)) ∨
      (last = true ∧ m' = o + 1 ∧ input[o]? = some 0) ∨
      (last = false ∧ ∃ b, input[o]? = some b ∧ b ≠ 0 ∧ b.toNat < 64 ∧
        m' = advance input (o + 1) b.toNat) := by
  obtain ⟨length, hlength, h⟩ := Except.bind_eq_ok.1 h
  cases hs with
  | pointer hb hscheme =>
    left
    obtain rfl : none = length := Except.ok.inj hlength
    obtain ⟨pointer, hptr, h⟩ := Except.bind_eq_ok.1 h
    obtain ⟨p, hv, rfl⟩ : ∃ p, (NumberField.mk (subAt input o 2) 2 14).value = .ok p ∧
        some p = pointer := by
      obtain ⟨p, hv, hp⟩ := Except.bind_eq_ok.1 hptr
      exact ⟨p, hv, Except.ok.inj hp⟩
    obtain ⟨b', c, hb', hc, rfl⟩ := pointer_value hv
    obtain rfl := Option.some.inj (hb.symm.trans hb')
    obtain ⟨ho, -⟩ := List.getElem?_eq_some_iff.1 hc
    refine ⟨(Except.ok.inj h).symm, ?_, _, c, _, hb, hscheme, hc, rfl, hv⟩
    unfold advance
    omega
  | @name b hb hlt =>
    right
    obtain rfl : some ((b.toNat : ℕ) : ℤ) = length := by
      have hv := length_value hb
      rw [Nat.mod_eq_of_lt hlt] at hv
      obtain ⟨v, hv', hlen⟩ := Except.bind_eq_ok.1 hlength
      obtain rfl := Except.ok.inj (hv.symm.trans hv')
      exact Except.ok.inj hlen
    by_cases h0 : b = 0
    · subst h0
      left
      obtain ⟨ho, -⟩ := List.getElem?_eq_some_iff.1 hb
      refine ⟨(Except.ok.inj h).symm, ?_, hb⟩
      show min (o + 1 + 0) input.length = o + 1
      omega
    · right
      have hne : some ((b.toNat : ℕ) : ℤ) ≠ some 0 := by
        intro hz
        exact h0 (UInt8.toNat_inj.1 (by simpa using hz))
      rw [if_neg hne] at h
      exact ⟨(Except.ok.inj h).symm, b, hb, h0, hlt, rfl⟩

/-! ## Linked labels -/

/-- The label `r`. -/
def labelAt (labels : List Label) (r : ℕ) : Label := (labels[r]?).getD {}

/-- A label that has the text the bytes at its offset add to a name. -/
def Spells (input : List UInt8) (o : ℕ) (l : Label) : Prop :=
  match follow input o with
  | none => Decompresses input o l.name.toList
  | some o' => ∀ names, Decompresses input o' names → Decompresses input o (l.name.toList ++ names)

/-- A label that leads where the bytes at its offset lead; a pointer will, once it is resolved. -/
inductive Good (input : List UInt8) (table : List (ℕ × ℕ)) (o : ℕ) (l : Label) : Prop
  | pointer {f g : NumberField} {p : ℤ} (hscheme : l.compressionScheme = some f)
    (hf : f.value = .ok pointerCompression) (hptr : l.pointer = some g) (hg : g.value = .ok p)
    (hfollow : follow input o = some p.toNat) (hspells : Spells input o l)
  | inner {f : NumberField} {r o' : ℕ} (hscheme : l.compressionScheme = some f)
    (hf : f.value = .ok noCompression) (hnext : l.next = some r)
    (hfollow : follow input o = some o') (hmem : (o', r) ∈ table) (hspells : Spells input o l)
  | zero {f : NumberField} (hscheme : l.compressionScheme = some f)
    (hf : f.value = .ok noCompression) (hnext : l.next = none) (hfollow : follow input o = none)
    (hspells : Spells input o l)

/-- The labels of a parse are linked; the label `last`, if there is one, is the last of a name that is
being read. -/
structure Wired (input : List UInt8) (ctx : Context) (last : Option ℕ) : Prop where
  aligned : ctx.pos.bitoffset = 0
  inside : ctx.pos.meter ≤ input.length
  keys : ∀ e ∈ ctx.table, e.1 < ctx.pos.meter
  refs : ∀ e ∈ ctx.table, e.2 < ctx.labels.length
  inj : ∀ e ∈ ctx.table, ∀ e' ∈ ctx.table, e.2 = e'.2 → e = e'
  good : ∀ e ∈ ctx.table, some e.2 ≠ last → Good input ctx.table e.1 (labelAt ctx.labels e.2)
  reading : ∀ r, last = some r → ∃ o, (o, r) ∈ ctx.table ∧
    Shape input o ctx.pos.meter (labelAt ctx.labels r)

theorem Good.mono {table table' : List (ℕ × ℕ)} (hg : Good input table o l)
    (hsub : table ⊆ table') : Good input table' o l := by
  cases hg with
  | pointer hscheme hf hptr hg hfollow hs => exact .pointer hscheme hf hptr hg hfollow hs
  | inner hscheme hf hnext hfollow hmem hs => exact .inner hscheme hf hnext hfollow (hsub hmem) hs
  | zero hscheme hf hnext hfollow hs => exact .zero hscheme hf hnext hfollow hs

theorem setLabel_new {table : List (ℕ × ℕ)} (hkeys : ∀ e ∈ table, e.1 < m) :
    setLabel table m r = table ++ [(m, r)] := by
  unfold setLabel
  rw [if_neg]
  simp only [List.any_eq_true, decide_eq_true_eq, not_exists, not_and]
  intro e he heq
  have := hkeys e he
  omega

theorem labelAt_append {labels : List Label} (hr : r < labels.length) :
    labelAt (labels ++ [l]) r = labelAt labels r := by
  unfold labelAt
  rw [List.getElem?_append_left hr]

theorem labelAt_new (labels : List Label) (l : Label) {n : ℕ} (hn : labels.length = n) :
    labelAt (labels ++ [l]) n = l := by
  subst hn
  simp [labelAt]

theorem labelAt_link {labels : List Label} {dn : List ℕ} {self : ℕ} (hr : r < labels.length) :
    labelAt (linkLabel labels dn self) r =
      if dn.getLast? = some r then { labelAt labels r with next := some self }
      else labelAt labels r := by
  unfold linkLabel labelAt
  cases hlast : dn.getLast? with
  | none => simp
  | some prev =>
    simp only [List.getElem?_modify, Option.some.injEq, List.getElem?_eq_getElem hr]
    split_ifs <;> rfl

theorem Shape.scheme (hs : Shape input o m' l) :
    l.compressionScheme = some ⟨subAt input o 1, 0, 2⟩ := by
  cases hs <;> rfl

theorem Shape.next (hs : Shape input o m' l) : l.next = none := by
  cases hs <;> rfl

theorem scheme_pointer (hb : input[o]? = some b) (hge : 192 ≤ b.toNat) :
    (NumberField.mk (subAt input o 1) 0 2).value = .ok pointerCompression := by
  have hlt := b.toNat_lt
  rw [scheme_value hb, show b.toNat / 64 = 3 by omega]
  rfl

theorem scheme_name (hb : input[o]? = some b) (hlt : b.toNat < 64) :
    (NumberField.mk (subAt input o 1) 0 2).value = .ok noCompression := by
  rw [scheme_value hb, Nat.div_eq_of_lt hlt]
  rfl

theorem follow_name (hb : input[o]? = some b) (h0 : b ≠ 0) (hlt : b.toNat < 64) :
    follow input o = some (o + 1 + b.toNat) := by
  unfold follow
  simp [hb, h0, hlt]

theorem follow_pointer {c : UInt8} (hb : input[o]? = some b) (hge : 192 ≤ b.toNat)
    (hc : input[o + 1]? = some c) : follow input o = some (b.toNat % 64 * 256 + c.toNat) := by
  unfold follow
  simp [hb, hc, hge, not_lt.2 (show 64 ≤ b.toNat by omega)]

/-- **A label more.** The label before it leads to it, as the bytes say. -/
theorem label_wired (hw : Wired input ctx dns.getLast?)
    (hlast : ∀ r, dns.getLast? = some r → (labelAt ctx.labels r).isLast = .ok false)
    (h : label input ctx dns = .ok ctx') :
    Wired input ctx' (some ctx.labels.length) ∧ ctx.table ⊆ ctx'.table ∧
      (ctx.pos.meter, ctx.labels.length) ∈ ctx'.table ∧ ctx.pos.meter < input.length ∧
      ctx.pos.meter < ctx'.pos.meter := by
  have hpos : ctx.pos = ⟨ctx.pos.meter, 0⟩ := by rw [← hw.aligned]
  obtain ⟨m', l, hs, hm, rfl⟩ := label_spec hpos h
  have hlen := length_linkLabel ctx.labels dns ctx.labels.length
  have hnew := labelAt_new (linkLabel ctx.labels dns ctx.labels.length) l hlen
  rw [setLabel_new hw.keys]
  have hmem : ∀ e ∈ ctx.table ++ [(ctx.pos.meter, ctx.labels.length)],
      e ∈ ctx.table ∨ e = (ctx.pos.meter, ctx.labels.length) := fun e he => by simpa using he
  refine ⟨⟨rfl, hs.lt.2, ?_, ?_, ?_, ?_, ?_⟩, by simp, by simp, hm, hs.lt.1⟩
  · intro e he
    have hlt := hs.lt.1
    rcases hmem e he with he | rfl
    · exact (hw.keys e he).trans hlt
    · exact hlt
  · intro e he
    rw [List.length_append, hlen, List.length_singleton]
    rcases hmem e he with he | rfl
    · exact (hw.refs e he).trans (Nat.lt_succ_self _)
    · exact Nat.lt_succ_self _
  · intro e he e' he' heq
    rcases hmem e he with he | rfl <;> rcases hmem e' he' with he' | rfl
    · exact hw.inj e he e' he' heq
    · exact absurd heq (hw.refs e he).ne
    · exact absurd heq.symm (hw.refs e' he').ne
    · rfl
  · rintro ⟨o, r⟩ he hne
    have he : (o, r) ∈ ctx.table := (hmem _ he).resolve_right fun heq => hne (by cases heq; rfl)
    have hr : r < ctx.labels.length := hw.refs _ he
    rw [labelAt_append (by rw [hlen]; exact hr), labelAt_link hr]
    by_cases hprev : dns.getLast? = some r
    · -- the label before, which the new one is behind
      rw [if_pos hprev]
      obtain ⟨o', ho, hshape⟩ := hw.reading _ hprev
      obtain rfl : o' = o := congrArg Prod.fst (hw.inj _ ho _ he rfl)
      obtain ⟨hfalse, -⟩ | ⟨hfalse, -⟩ | ⟨-, b, hb, h0, hlt, hmeter⟩ :=
        hshape.isLast_cases (hlast _ hprev)
      · cases hfalse
      · cases hfalse
      · have hat : ctx.pos.meter = o' + 1 + b.toNat := by
          unfold advance at hmeter
          omega
        have hfollow := follow_name hb h0 hlt
        refine .inner hshape.scheme (scheme_name hb hlt) rfl hfollow (by rw [← hat]; simp) ?_
        rw [Spells, hfollow]
        simp only [hshape.name_eq hb, if_pos hlt]
        exact fun names hrest => .label hb h0 hlt hrest
    · rw [if_neg hprev]
      exact (hw.good _ he fun heq => hprev heq.symm).mono (by simp)
  · intro r hr
    obtain rfl := Option.some.inj hr
    refine ⟨ctx.pos.meter, by simp, ?_⟩
    rw [hnew]
    exact hs

/-! ## Names -/

theorem Wired.finish (hw : Wired input ctx (some r))
    (hlast : (labelAt ctx.labels r).isLast = .ok true) : Wired input ctx none := by
  refine ⟨hw.aligned, hw.inside, hw.keys, hw.refs, hw.inj, ?_, nofun⟩
  rintro ⟨o, r'⟩ he _
  by_cases hr : some r' = some r
  · obtain rfl := Option.some.inj hr
    obtain ⟨o', ho, hshape⟩ := hw.reading _ rfl
    obtain rfl : o' = o := congrArg Prod.fst (hw.inj _ ho _ he rfl)
    obtain ⟨-, -, b, c, g, hb, hge, hc, hptr, hg⟩ | ⟨-, -, hb⟩ | ⟨hfalse, -⟩ :=
      hshape.isLast_cases hlast
    · have hfollow := follow_pointer hb hge hc
      refine .pointer hshape.scheme (scheme_pointer hb hge) hptr hg hfollow ?_
      rw [Spells, hfollow]
      simp only [hshape.name_eq hb, if_neg (show ¬ b.toNat < 64 by omega)]
      exact fun names hrest => .pointer hb hge hc hrest
    · have hfollow : follow input o' = none := by simp [follow, hb]
      refine .zero hshape.scheme (scheme_name hb (by decide)) hshape.next hfollow ?_
      rw [Spells, hfollow]
      simp only [hshape.name_eq hb]
      exact .zero hb
    · cases hfalse
  · exact hw.good _ he hr

/-- What is read from a context: labels are added to the table, and stay linked. -/
structure Reads (input : List UInt8) (ctx ctx' : Context) : Prop where
  wired : Wired input ctx' none
  table : ctx.table ⊆ ctx'.table

/-- A name read from an offset: it ends where the bytes say, and its first label is in the table. -/
structure ReadsName (input : List UInt8) (o : ℕ) (dn : List ℕ) (ctx' : Context) : Prop where
  ends : NameEnds input o ctx'.pos.meter
  first : ∃ r, dn.head? = some r ∧ (o, r) ∈ ctx'.table

/-- A parse that does not run out of fuel, and what it ensures when it succeeds. -/
abbrev Parses {α : Type} (x : Except Stop α) (Q : α → Prop) : Prop := x.Ensures (· ≠ .fuel) Q

theorem value_parses (f : NumberField) : Parses f.value fun _ => True := by
  cases hv : f.value with
  | ok v => trivial
  | error e =>
    unfold NumberField.value asnumber asbits at hv
    split_ifs at hv <;> · cases hv; exact nofun

theorem bytes_parses (ctx : Context) (size : ℤ) : Parses (ctx.bytes input size) fun _ => True := by
  have hbytes : Parses (bytes input size ctx.pos) fun _ => True := by
    cases hv : bytes input size ctx.pos with
    | ok v => trivial
    | error e =>
      unfold bytes at hv
      split_ifs at hv <;> · cases hv; exact nofun
  exact hbytes.bind fun _ _ _ => trivial

theorem label_parses (ctx : Context) (dns : List ℕ) :
    Parses (label input ctx dns) fun _ => True := by
  refine (value_parses _).bind fun v _ _ => ?_
  by_cases hptr : v = pointerCompression
  · rw [if_pos hptr]
    trivial
  · rw [if_neg hptr]
    by_cases hname : v = noCompression
    · rw [if_pos hname]
      refine (value_parses _).bind fun count _ _ => ?_
      exact (bytes_parses _ count).bind fun _ _ _ => trivial
    · rw [if_neg hname]
      exact nofun

theorem fieldValue_parses (f : Option NumberField) : Parses (fieldValue f) fun _ => True := by
  cases f with
  | none => trivial
  | some f => exact (value_parses f).bind fun _ _ _ => trivial

theorem untilcond_parses (ctx : Context) (dns : List ℕ) :
    Parses (untilcond ctx dns) fun _ => True := by
  unfold untilcond
  split
  · trivial
  · refine (fieldValue_parses _).bind fun length _ _ => ?_
    by_cases h0 : length = some 0
    · rw [if_pos h0]
      trivial
    · rw [if_neg h0]
      exact (fieldValue_parses _).bind fun _ _ _ => trivial

/-- The loop over the labels of a name, from the offset `o`. Every label but the last takes a byte,
so that the fuel is enough. -/
theorem dnLoop_spec {fuel : ℕ} (hfuel : input.length - ctx.pos.meter + 2 ≤ fuel)
    (hw : Wired input ctx dns.getLast?) (ho : ∀ r, dns.getLast? = some r → (o, r) ∈ ctx.table)
    (hstart : dns = [] → o = ctx.pos.meter) :
    Parses (dnLoop input fuel ctx dns) fun r => Reads input ctx r.2 ∧
      NameEnds input o r.2.pos.meter ∧ ∃ more, r.1 = dns ++ more ∧
        (dns = [] → ∃ first, more.head? = some first ∧ (o, first) ∈ r.2.table) := by
  induction fuel generalizing ctx dns o with
  | zero => omega
  | succ fuel ih =>
    refine (untilcond_parses ctx dns).bind fun last hcond _ => ?_
    have hlast : ∀ r, dns.getLast? = some r → (labelAt ctx.labels r).isLast = .ok last := by
      intro r hr
      unfold untilcond at hcond
      rw [hr] at hcond
      exact hcond
    cases last with
    | true =>
      cases hr : dns.getLast? with
      | none =>
        unfold untilcond at hcond
        rw [hr] at hcond
        cases hcond
      | some r =>
        rw [hr] at hw
        obtain ⟨o', ho', hshape⟩ := hw.reading r rfl
        obtain rfl : o' = o := congrArg Prod.fst (hw.inj _ ho' _ (ho r hr) rfl)
        have hne : dns ≠ [] := by
          rintro rfl
          cases hr
        refine ⟨⟨hw.finish (hlast r hr), List.Subset.refl _⟩, ?_, [], by simp, fun h => absurd h hne⟩
        obtain ⟨-, hm, b, c, g, hb, hge, hc, -⟩ | ⟨-, hm, hb⟩ | ⟨hfalse, -⟩ :=
          hshape.isLast_cases (hlast r hr)
        · rw [hm]
          exact .pointer hb hge hc
        · rw [hm]
          exact .zero hb
        · cases hfalse
    | false =>
      refine (label_parses ctx dns).bind fun next hlabel _ => ?_
      obtain ⟨hw', htable, hmem, hin, hlt⟩ := label_wired hw hlast hlabel
      have hlast' : (dns ++ [ctx.labels.length]).getLast? = some ctx.labels.length := by simp
      refine (ih (by omega) (by rw [hlast']; exact hw')
        (fun r hr => by rw [hlast'] at hr; obtain rfl := Option.some.inj hr; exact hmem)
        (by simp)).mono ?_
      rintro ⟨dns', ctx'⟩ - ⟨hreads, hends, more, hmore, -⟩
      refine ⟨⟨hreads.wired, List.Subset.trans htable hreads.table⟩, ?_, ctx.labels.length :: more,
        by rw [hmore]; simp, fun hnil => ⟨_, rfl, ?_⟩⟩
      · cases hr : dns.getLast? with
        | none =>
          rw [hstart (List.getLast?_eq_none_iff.1 hr)]
          exact hends
        | some r =>
          obtain ⟨o', ho', hshape⟩ := hw.reading r hr
          obtain rfl : o' = o := congrArg Prod.fst (hw.inj _ ho' _ (ho r hr) rfl)
          obtain ⟨hfalse, -⟩ | ⟨hfalse, -⟩ | ⟨-, b, hb, h0, hlt, hmeter⟩ :=
            hshape.isLast_cases (hlast r hr)
          · cases hfalse
          · cases hfalse
          · have hat : ctx.pos.meter = o' + 1 + b.toNat := by
              unfold advance at hmeter
              omega
            rw [hat] at hends
            exact .label hb h0 hlt hends
      · rw [hstart hnil]
        exact hreads.table hmem

/-- **Names.** A name ends where its bytes say. -/
theorem dn_spec (hw : Wired input ctx none) : Parses (dn input ctx) fun r =>
      Reads input ctx r.2 ∧ ReadsName input ctx.pos.meter r.1 r.2 := by
  refine (dnLoop_spec (by omega) hw (by simp) fun _ => rfl).mono ?_
  rintro ⟨dns', ctx'⟩ - ⟨hreads, hends, more, rfl, hfirst⟩
  exact ⟨hreads, hends, by simpa using hfirst rfl⟩

end Haka.Dns
