import Haka.Lib.Chain
import Haka.Dns.Framing

/-!
# The names of a message

A message that is accepted has a label in its table for every name, and every label of the table leads
where the bytes at its offset lead (`Linked`). So a name is made by following the bytes of the message,
and that ends exactly if no offset is met twice.
-/

namespace Haka.Dns

open List

variable {input : List UInt8} {ctx ctx' : Context}

/-! ## The whole message -/

theorem header_move (input : List UInt8) :
    (header input ⟨⟨0, 0⟩, [], []⟩).2 = Context.move ⟨⟨0, 0⟩, [], []⟩ input 12 := by
  simp [header, Context.number, number, Context.move, advance_advance]

theorem question_spec (hw : Wired input ctx none) :
    Parses (question input ctx) fun r => Reads input ctx r.2 ∧ Named r.2.table [r.1.name] := by
  refine (dn_spec hw).bind ?_
  rintro ⟨name, ctx1⟩ - ⟨hreads, hname⟩
  simp only [number_move hreads.wired.aligned 2 rfl, number_moved _ _ 2 rfl]
  have hmove := hreads.wired.move 4
  exact ⟨hreads.trans hmove, hname.named.mono hmove.table⟩

theorem resourcerecords_spec (n : ℕ) (hw : Wired input ctx none) :
    Parses (resourcerecords input n ctx) fun r =>
      Reads input ctx r.2 ∧ Named r.2.table (r.1.flatMap Record.names) := by
  induction n generalizing ctx with
  | zero => exact ⟨⟨hw, List.Subset.refl _⟩, named_nil _⟩
  | succ n ih =>
    refine (resourcerecord_spec hw).bind ?_
    rintro ⟨record, ctx1⟩ - ⟨hreads1, hnamed1, -⟩
    refine (ih hreads1.wired).bind ?_
    rintro ⟨records, ctx2⟩ - ⟨hreads2, hnamed2⟩
    exact ⟨hreads1.trans hreads2, (hnamed1.mono hreads2.table).append hnamed2⟩

theorem section_spec (count : NumberField) (hw : Wired input ctx none) :
    Parses (section_ input count ctx) fun r =>
      Reads input ctx r.2 ∧ Named r.2.table (r.1.flatMap Record.names) :=
  (value_parses count).bind fun n _ _ => resourcerecords_spec n.toNat hw

/-! ## Pointers -/

def nextOf (labels : List Label) (r : ℕ) : Option ℕ := (labelAt labels r).next

/-- The label `r` leads where the bytes at the offset `o` lead. -/
def Linked (input : List UInt8) (table : List (ℕ × ℕ)) (labels : List Label) (o r : ℕ) : Prop :=
  Option.Rel (fun o' r' => (o', r') ∈ table) (follow input o) (nextOf labels r)

variable {table : List (ℕ × ℕ)} {o : ℕ}

theorem mem_of_getLabel {r : ℕ} (h : getLabel table o = some r) : (o, r) ∈ table := by
  obtain ⟨⟨o', r'⟩, hfind, hr⟩ := Option.map_eq_some_iff.1 h
  have ho := find?_some hfind
  simp only [decide_eq_true_eq] at ho
  subst ho hr
  exact mem_of_find?_eq_some hfind

variable {labels : List Label}

theorem labelAt_modify {self r : ℕ} {f : Label → Label} (hself : self < labels.length) :
    labelAt (labels.modify self f) r = if self = r then f (labelAt labels r) else labelAt labels r := by
  unfold labelAt
  by_cases hr : self = r
  · subst hr
    simp [getElem?_eq_getElem hself]
  · simp [hr]

variable {f : NumberField}

theorem fieldValue_some {v : ℤ} (hf : f.value = .ok v) : fieldValue (some f) = .ok (some v) := by
  show some <$> f.value = _
  rw [hf]
  rfl

theorem Good.linked {r : ℕ} (hg : Good input table o (labelAt labels r))
    (hscheme : (labelAt labels r).compressionScheme = some f) (hf : f.value ≠ .ok pointerCompression) :
    Linked input table labels o r := by
  unfold Linked nextOf
  cases hg with
  | pointer hscheme' hf' =>
    obtain rfl := Option.some.inj (hscheme.symm.trans hscheme')
    exact absurd hf' hf
  | inner _ _ hnext hfollow hmem =>
    rw [hnext, hfollow]
    exact .some hmem
  | zero _ _ hnext hfollow =>
    rw [hnext, hfollow]
    exact .none

/-- A label of the table leads where its bytes lead once it is resolved, and no other label changes. -/
structure Resolves (input : List UInt8) (table : List (ℕ × ℕ)) (labels : List Label) (o r : ℕ)
    (labels' : List Label) : Prop where
  length : labels'.length = labels.length
  others : ∀ r', r ≠ r' → labelAt labels' r' = labelAt labels r'
  good : Good input table o (labelAt labels' r)
  linked : Linked input table labels' o r

theorem resolveLabel_spec {r : ℕ}
    (hr : r < labels.length) (hg : Good input table o (labelAt labels r)) :
    Parses (resolveLabel table labels r) (Resolves input table labels o r) := by
  have hvalue : ∀ {field : Option NumberField} {f : NumberField} {v : ℤ} {x : Option ℤ},
      field = some f → f.value = .ok v → fieldValue field = .ok x → some v = x := by
    rintro _ f v x rfl hv hx
    exact Except.ok.inj ((fieldValue_some hv).symm.trans hx)
  -- a label that is no pointer stays
  have hstay : ∀ {f : NumberField}, (labelAt labels r).compressionScheme = some f →
      f.value = .ok noCompression → Resolves input table labels o r labels := by
    intro f hscheme hf
    refine ⟨rfl, fun _ _ => rfl, hg, hg.linked hscheme ?_⟩
    rw [hf]
    exact nofun
  refine (fieldValue_parses _).bind fun scheme hs _ => ?_
  cases hg with
  | @pointer f g p hscheme hf hptr hg hfollow hspells =>
    obtain rfl := hvalue hscheme hf hs
    refine (fieldValue_parses _).bind fun pointer hp _ => ?_
    obtain rfl := hvalue hptr hg hp
    cases htarget : getLabel table p.toNat with
    | none =>
      simp only [htarget]
      exact nofun
    | some target =>
      simp only [htarget]
      have hself := @labelAt_modify labels r r (fun l => { l with next := some target }) hr
      rw [if_pos rfl] at hself
      refine ⟨by simp, fun r' hne => ?_, ?_, ?_⟩
      · rw [labelAt_modify hr, if_neg hne]
      · rw [hself]
        exact .pointer hscheme hf hptr hg hfollow hspells
      · unfold Linked nextOf
        rw [hself, hfollow]
        exact .some (mem_of_getLabel htarget)
  | inner hscheme hf =>
    obtain rfl := hvalue hscheme hf hs
    exact hstay hscheme hf
  | zero hscheme hf =>
    obtain rfl := hvalue hscheme hf hs
    exact hstay hscheme hf

/-- The loop over the table, by induction on the entries to go: those it has passed stay linked, since a
label has one entry only. -/
theorem resolveAll_spec (es : List (ℕ × ℕ))
    (hinj : ∀ e ∈ table, ∀ e' ∈ table, e.2 = e'.2 → e = e') (hes : es ⊆ table)
    (hrefs : ∀ e ∈ table, e.2 < labels.length)
    (hgood : ∀ e ∈ table, Good input table e.1 (labelAt labels e.2)) :
    Parses (es.foldlM (fun labels e => resolveLabel table labels e.2) labels) fun labels' =>
      ∀ e ∈ table, Good input table e.1 (labelAt labels' e.2) ∧
        (e ∈ es ∨ Linked input table labels e.1 e.2 → Linked input table labels' e.1 e.2) := by
  induction es generalizing labels with
  | nil =>
    exact fun e he => ⟨hgood e he, fun hlinked => hlinked.resolve_left not_mem_nil⟩
  | cons e es ih =>
    obtain ⟨he, hes⟩ := cons_subset.1 hes
    refine (resolveLabel_spec (hrefs e he) (hgood e he)).bind fun labels1 _ hres => ?_
    have hsame : ∀ e' ∈ table, e'.2 ≠ e.2 → labelAt labels1 e'.2 = labelAt labels e'.2 :=
      fun e' _ hne => hres.others _ hne.symm
    have hgood1 : ∀ e' ∈ table, Good input table e'.1 (labelAt labels1 e'.2) := by
      intro e' he'
      by_cases hr : e'.2 = e.2
      · obtain rfl := hinj e' he' e he hr
        exact hres.good
      · rw [hsame e' he' hr]
        exact hgood e' he'
    refine (ih hes (fun e' he' => hres.length ▸ hrefs e' he') hgood1).mono ?_
    intro labels2 _ hlinked e' he'
    refine ⟨(hlinked e' he').1, fun hor => (hlinked e' he').2 ?_⟩
    by_cases hr : e'.2 = e.2
    · obtain rfl := hinj e' he' e he hr
      exact .inr hres.linked
    · refine (hor.imp_left fun hmem => ?_).imp_right fun h => ?_
      · exact (mem_cons.1 hmem).resolve_left fun heq => hr (congrArg Prod.snd heq)
      · unfold Linked nextOf
        rw [hsame e' he' hr]
        exact h

theorem pointerResolution_spec (hw : Wired input ctx none) :
    Parses (pointerResolution ctx) fun ctx' => ctx'.table = ctx.table ∧
      ∀ e ∈ ctx.table, Good input ctx.table e.1 (labelAt ctx'.labels e.2) ∧
        Linked input ctx.table ctx'.labels e.1 e.2 := by
  have hsort : ∀ e, e ∈ sortedPairs ctx.table ↔ e ∈ ctx.table := fun e => mem_insertionSort _
  refine (resolveAll_spec (sortedPairs ctx.table) hw.inj (fun e he => (hsort e).1 he) hw.refs
    fun e he => hw.good e he nofun).bind fun labels _ hlinked => ?_
  exact ⟨rfl, fun e he => (hlinked e he).imp_right fun h => h (.inl ((hsort e).2 he))⟩

/-- **Messages.** Every name begins with a label of the table, whose labels are linked. A message is
read to its end, or refused. -/
theorem message_spec (input : List UInt8) : Parses (message input) fun m => Named m.table m.names ∧
      ∀ e ∈ m.table, Good input m.table e.1 (labelAt m.labels e.2) ∧
        Linked input m.table m.labels e.1 e.2 := by
  have hstart : Wired input (header input ⟨⟨0, 0⟩, [], []⟩).2 none := by
    rw [header_move]
    exact ((start_wired input).move 12).wired
  revert hstart
  intro hstart
  refine (question_spec hstart).bind ?_
  rintro ⟨question, ctx1⟩ - ⟨hreads1, hnamed1⟩
  refine (section_spec _ hreads1.wired).bind ?_
  rintro ⟨answer, ctx2⟩ - ⟨hreads2, hnamed2⟩
  refine (section_spec _ hreads2.wired).bind ?_
  rintro ⟨authority, ctx3⟩ - ⟨hreads3, hnamed3⟩
  refine (section_spec _ hreads3.wired).bind ?_
  rintro ⟨additional, ctx4⟩ - ⟨hreads4, hnamed4⟩
  refine (pointerResolution_spec hreads4.wired).bind ?_
  rintro ⟨pos, labels, table⟩ - ⟨rfl, hlinked⟩
  refine ⟨?_, hlinked⟩
  have hnamed := ((hnamed1.mono (hreads2.trans (hreads3.trans hreads4)).table).append
    (((hnamed2.mono (hreads3.trans hreads4).table).append (hnamed3.mono hreads4.table)).append
      hnamed4))
  rw [← flatMap_append, ← flatMap_append] at hnamed
  exact hnamed

/-! ## Names -/

theorem dnConverterLoop_isSome (labels : List Label) (fuel r : ℕ) (result : List (List UInt8)) :
    (dnConverterLoop labels fuel (some r) result).isSome ↔
      Chain.after (nextOf labels) fuel r = none := by
  induction fuel generalizing r result with
  | zero => simp [dnConverterLoop]
  | succ fuel ih =>
    rw [Chain.after_succ]
    show (dnConverterLoop labels fuel (nextOf labels r) _).isSome ↔ _
    cases nextOf labels r with
    | none => cases fuel <;> simp [dnConverterLoop]
    | some r' => exact ih r' _

/-- The loop of `dn_converter.get` ends exactly if the labels do. -/
theorem converts_iff_ends (labels : List Label) {dn : List ℕ} {r : ℕ} (hr : dn.head? = some r) :
    (∃ fuel text, dnConverterGet labels fuel dn = some text) ↔ Chain.Ends (nextOf labels) r := by
  refine exists_congr fun fuel => ?_
  rw [← dnConverterLoop_isSome labels fuel r [], ← Option.isSome_iff_exists]
  unfold dnConverterGet
  rw [hr, Option.isSome_map]

theorem ends_iff_simple {m : Message} {r : ℕ} (hmem : (o, r) ∈ m.table)
    (hlinked : ∀ e ∈ m.table, Linked input m.table m.labels e.1 e.2) :
    Chain.Ends (nextOf m.labels) r ↔ Chain.Simple (follow input) o := by
  have hstep : ∀ o r, (o, r) ∈ m.table →
      Option.Rel (fun o r => (o, r) ∈ m.table) (follow input o) (nextOf m.labels r) :=
    fun o r he => hlinked (o, r) he
  rw [← Chain.ends_iff hstep hmem]
  refine ⟨Chain.Ends.simple, Chain.Simple.ends (m.table.map Prod.fst).finite_toSet ?_⟩
  -- every offset that is met is one of the table
  intro n o' ho'
  have hrel := Chain.after_rel hstep hmem n
  rw [ho'] at hrel
  revert hrel
  generalize Chain.after (nextOf m.labels) n r = r'
  rintro (hmem' | _)
  exact mem_map.2 ⟨_, hmem', rfl⟩

/-- **Names of a message.** Every name of an accepted message has a first label, and is converted in
finitely many steps exactly if following the message from there meets no offset twice. -/
theorem name_resolves_iff {m : Message} {dn : List ℕ} (h : message input = .ok m)
    (hdn : dn ∈ m.names) :
    (∃ o r, dn.head? = some r ∧ (o, r) ∈ m.table) ∧
      ∀ o r, dn.head? = some r → (o, r) ∈ m.table →
        ((∃ fuel text, dnConverterGet m.labels fuel dn = some text) ↔
          Chain.Simple (follow input) o) := by
  obtain ⟨hnamed, hall⟩ := (message_spec input).ok h
  refine ⟨hnamed dn hdn, fun o r hr hmem => ?_⟩
  rw [converts_iff_ends m.labels hr, ends_iff_simple hmem fun e he => (hall e he).2]

/-- A question for the name `a`, and an answer whose name is a pointer to it. -/
def answerForA : List UInt8 :=
  [0, 1, 129, 0, 0, 1, 0, 1, 0, 0, 0, 0, 1, 97, 0, 0, 1, 0, 1,
    192, 12, 0, 1, 0, 1, 0, 0, 0, 0, 0, 4, 127, 0, 0, 1]

theorem answerForA_accepted :
    ∃ m, message answerForA = .ok m ∧ [2] ∈ m.names ∧ (19, 2) ∈ m.table := by
  have hok : (message answerForA).toOption.map (fun m => (m.names, m.table)) =
      some ([[0, 1], [2]], [(12, 0), (14, 1), (19, 2)]) := by decide +kernel
  cases h : message answerForA with
  | error e =>
    rw [h] at hok
    cases hok
  | ok m =>
    rw [h] at hok
    obtain ⟨hnames, htable⟩ := Prod.mk.inj (Option.some.inj hok)
    exact ⟨m, rfl, by simp [hnames], by simp [htable]⟩

/-- The name of the answer is found through its pointer. -/
theorem name_resolves_answer :
    ∃ m dn, message answerForA = .ok m ∧ dn ∈ m.names ∧ dn.head? = some 2 ∧
      ∃ fuel text, dnConverterGet m.labels fuel dn = some text := by
  obtain ⟨m, h, hdn, hmem⟩ := answerForA_accepted
  have hends : Chain.Ends (follow answerForA) 19 := ⟨4, by decide +kernel⟩
  exact ⟨m, [2], h, hdn, rfl, ((name_resolves_iff h hdn).2 19 2 rfl hmem).2 hends.simple⟩

theorem Good.spells {l : Label} (hg : Good input table o l) : Spells input o l := by
  cases hg <;> assumption

/-- The loop of `dn_converter.get` adds the labels of the name that its label begins. -/
theorem dnConverterLoop_spells (hall : ∀ e ∈ table, Good input table e.1 (labelAt labels e.2) ∧
      Linked input table labels e.1 e.2) {fuel r : ℕ} {result names : List (List UInt8)}
    (hmem : (o, r) ∈ table) (h : dnConverterLoop labels fuel (some r) result = some names) :
    ∃ more, names = result ++ more ∧ Decompresses input o more := by
  induction fuel generalizing o r result with
  | zero => cases h
  | succ fuel ih =>
    obtain ⟨hgood, hlinked⟩ := hall (o, r) hmem
    have hspells := hgood.spells
    replace h : dnConverterLoop labels fuel (nextOf labels r)
      (result ++ (labelAt labels r).name.toList) = some names := h
    unfold Linked at hlinked
    unfold Spells at hspells
    revert hlinked hspells h
    generalize follow input o = next, nextOf labels r = r'
    rintro (hmem' | _) hspells h
    · obtain ⟨more, rfl, hmore⟩ := ih hmem' h
      exact ⟨_, append_assoc .., hspells more hmore⟩
    · refine ⟨_, ?_, hspells⟩
      cases fuel <;> exact (Option.some.inj h).symm

/-- **Decompression.** If following the bytes of a name meets no offset twice, the loop of
`dn_converter.get` ends, and joins the labels of the decompressed name. -/
theorem name_decompressed {m : Message} {dn : List ℕ} (h : message input = .ok m)
    (hdn : dn ∈ m.names) :
    (∃ o r, dn.head? = some r ∧ (o, r) ∈ m.table) ∧
      ∀ o r, dn.head? = some r → (o, r) ∈ m.table → Chain.Simple (follow input) o →
        (∃ fuel names, dnConverterLoop m.labels fuel dn.head? [] = some names) ∧
          ∀ fuel names, dnConverterLoop m.labels fuel dn.head? [] = some names →
            Decompresses input o names := by
  obtain ⟨hnamed, hall⟩ := (message_spec input).ok h
  refine ⟨hnamed dn hdn, fun o r hr hmem hsimple => ?_⟩
  rw [hr]
  obtain ⟨fuel, hfuel⟩ := (ends_iff_simple hmem fun e he => (hall e he).2).2 hsimple
  refine ⟨⟨fuel, Option.isSome_iff_exists.1 ((dnConverterLoop_isSome _ fuel r []).2 hfuel)⟩, ?_⟩
  intro fuel names hloop
  obtain ⟨more, rfl, hmore⟩ := dnConverterLoop_spells hall hmem hloop
  exact hmore

/-- The answer has the name `a`, and the empty label behind it. -/
theorem name_decompressed_answer :
    ∃ m dn, message answerForA = .ok m ∧ dn ∈ m.names ∧ dn.head? = some 2 ∧
      ∃ fuel names, dnConverterLoop m.labels fuel dn.head? [] = some names ∧
        Decompresses answerForA 19 names := by
  obtain ⟨m, h, hdn, hmem⟩ := answerForA_accepted
  have hends : Chain.Ends (follow answerForA) 19 := ⟨4, by decide +kernel⟩
  obtain ⟨⟨fuel, names, hloop⟩, hall⟩ := (name_decompressed h hdn).2 19 2 rfl hmem hends.simple
  exact ⟨m, [2], h, hdn, rfl, fuel, names, hloop, hall fuel names hloop⟩

def selfPointer : List UInt8 := [0, 1, 1, 0, 0, 1, 0, 0, 0, 0, 0, 0, 192, 12, 0, 1, 0, 1]

/-- What goes wrong: the message is accepted, and the conversion of its name never ends. -/
theorem name_never_resolves : ∃ m, message selfPointer = .ok m ∧ [0] ∈ m.names ∧
      ¬ ∃ fuel text, dnConverterGet m.labels fuel [0] = some text := by
  have hok : (message selfPointer).toOption.map (fun m => (m.names, nextOf m.labels 0)) =
      some ([[0]], some 0) := by decide +kernel
  cases h : message selfPointer with
  | error e =>
    rw [h] at hok
    cases hok
  | ok m =>
    rw [h] at hok
    obtain ⟨hnames, hnext⟩ := Prod.mk.inj (Option.some.inj hok)
    have hloop : Chain.after (nextOf m.labels) 1 0 = some 0 := by
      rw [Chain.after_succ, hnext]
      rfl
    refine ⟨m, rfl, by simp [hnames], ?_⟩
    rw [converts_iff_ends m.labels rfl]
    rintro ⟨n, hn⟩
    have hsome := Chain.after_mul hloop n
    rw [Nat.mul_one, hn] at hsome
    cases hsome

end Haka.Dns
