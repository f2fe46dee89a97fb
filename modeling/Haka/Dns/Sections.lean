import Haka.Dns.Resolution

/-!
# The sections of a message

A message says how many entries each of its sections has. The grammar reads as many records as the
three counts of records say, but always one question; and behind the description of a service
(`WKS`) it goes on in the middle of it.
-/

namespace Haka.Dns

variable {input : List UInt8} {ctx ctx' : Context}

/-! ## Well-formed messages -/

/-- A number of entries, one behind the other. -/
inductive Entries (entry : ℕ → ℕ → Prop) : ℕ → ℕ → ℕ → Prop
  | nil {o : ℕ} : Entries entry 0 o o
  | cons {n o m e : ℕ} (hfirst : entry o m) (hrest : Entries entry n m e) :
    Entries entry (n + 1) o e

def QuestionAt (input : List UInt8) (o e : ℕ) : Prop :=
  ∃ m, NameEnds input o m ∧ e = m + 4 ∧ e ≤ input.length

/-- The data of a record by RFC 1035, `len` bytes from the offset `q` on. A service description is an
address, a protocol and a bit map; texts and types without a format of their own may be anything. -/
def RdataAt (input : List UInt8) (len q : ℕ) : RecordType → Prop
  | .A => len = 4
  | .NS | .MD | .MF | .CNAME | .MB | .MG | .MR | .PTR => NameEnds input q (q + len)
  | .SOA => ∃ m r, NameEnds input q m ∧ NameEnds input m r ∧ q + len = r + 20
  | .WKS => 5 ≤ len
  | .MINFO => ∃ m, NameEnds input q m ∧ NameEnds input m (q + len)
  | .MX => NameEnds input (q + 2) (q + len)
  | .NULL | .TXT | .HINFO | .AAAA | .other _ => True

/-- A record whose data is as long as its RDLENGTH says. -/
def RecordAt (input : List UInt8) (o e : ℕ) : Prop :=
  ∃ m, NameEnds input o m ∧ e = m + 10 + wire16 input (m + 8) ∧ e ≤ input.length ∧
    RdataAt input (wire16 input (m + 8)) (m + 10) (recordType (wire16 input m))

/-- A record that does not describe a service. -/
def PlainRecordAt (input : List UInt8) (o e : ℕ) : Prop :=
  RecordAt input o e ∧ ∀ m, NameEnds input o m → recordType (wire16 input m) ≠ .WKS

/-- A message built by RFC 1035: its counts, and where its sections end. -/
structure Built (input : List UInt8) (qdcount ancount nscount arcount q a s e : ℕ) : Prop where
  header : 12 ≤ input.length
  counts : wire16 input 4 = qdcount ∧ wire16 input 6 = ancount ∧ wire16 input 8 = nscount ∧
    wire16 input 10 = arcount
  questions : Entries (QuestionAt input) qdcount 12 q
  answers : Entries (RecordAt input) ancount q a
  authorities : Entries (RecordAt input) nscount a s
  additionals : Entries (RecordAt input) arcount s e

/-- Records are read one by one: after each number of them the parse stands where so many end. -/
def InStep (input : List UInt8) (n : ℕ) (ctx : Context) : Prop :=
  ∀ k ≤ n, ∃ rs ctx', resourcerecords input k ctx = .ok (rs, ctx') ∧
    Entries (RecordAt input) k ctx.pos.meter ctx'.pos.meter

/-- The sections of a message were read one behind the other, record by record, and end at these
offsets. -/
def SectionsEnd (input : List UInt8) (m : Message) (q a s e : ℕ) : Prop :=
  ∃ ctx₁ ctx₂ ctx₃ ctx₄, question input (header input ⟨⟨0, 0⟩, [], []⟩).2 = .ok (m.question, ctx₁) ∧
    section_ input m.header.ancount ctx₁ = .ok (m.answer, ctx₂) ∧
    section_ input m.header.nscount ctx₂ = .ok (m.authority, ctx₃) ∧
    section_ input m.header.arcount ctx₃ = .ok (m.additional, ctx₄) ∧
    InStep input m.answer.length ctx₁ ∧ InStep input m.authority.length ctx₂ ∧
    InStep input m.additional.length ctx₃ ∧
    ctx₁.pos.meter = q ∧ ctx₂.pos.meter = a ∧ ctx₃.pos.meter = s ∧ ctx₄.pos.meter = e

/-! ## What is read -/

theorem question_ends {q : Question} {e : ℕ} (hw : Wired input ctx none)
    (hat : QuestionAt input ctx.pos.meter e) (h : question input ctx = .ok (q, ctx')) :
    Wired input ctx' none ∧ ctx'.pos.meter = e := by
  obtain ⟨m, hname, rfl, hle⟩ := hat
  obtain ⟨⟨name, ctx1⟩, hdn, h⟩ := Except.bind_eq_ok.1 h
  obtain ⟨hreads, hends⟩ := (dn_spec hw).ok hdn
  simp only [number_move hreads.wired.aligned 2 rfl, number_moved _ _ 2 rfl] at h
  obtain ⟨-, rfl⟩ := Prod.mk.inj (Except.ok.inj h)
  refine ⟨(hreads.wired.move 4).wired, ?_⟩
  rw [hname.deterministic hends.ends]
  exact Nat.min_eq_left (hends.ends.deterministic hname ▸ hle)

theorem NameEnds.inside {o e : ℕ} (h : NameEnds input o e) : o < input.length := by
  cases h with
  | zero hb | pointer hb | label hb => exact (List.getElem?_eq_some_iff.1 hb).1

theorem RdataAt.framed {len q : ℕ} {type : RecordType} (h : RdataAt input len q type)
    (hle : q + len ≤ input.length) (htype : type ≠ .WKS) : Framed input len q type := by
  cases type with
  | A =>
    obtain rfl : len = 4 := h
    exact (Nat.min_eq_left (by omega)).symm
  | NS | MD | MF | CNAME | MB | MG | MR | PTR | MINFO => exact h
  | SOA =>
    obtain ⟨m, r, hm, hr, heq⟩ := h
    exact ⟨m, r, hm, hr, by omega⟩
  | WKS => exact absurd rfl htype
  | MX =>
    have hin := NameEnds.inside h
    rw [Framed, Nat.min_eq_left hin.le]
    exact h
  | NULL | TXT | HINFO | AAAA | other => exact hle

theorem RecordAt.deterministic {o e e' : ℕ} (h : RecordAt input o e) (h' : RecordAt input o e') :
    e = e' := by
  obtain ⟨m, hm, rfl, -⟩ := h
  obtain ⟨m', hm', rfl, -⟩ := h'
  rw [hm.deterministic hm']

theorem Entries.deterministic {n o e e' : ℕ} (h : Entries (RecordAt input) n o e)
    (h' : Entries (RecordAt input) n o e') : e = e' := by
  induction h with
  | nil =>
    cases h'
    rfl
  | cons hfirst _ ih =>
    cases h' with
    | cons hfirst' hrest' =>
      obtain rfl := hfirst.deterministic hfirst'
      exact ih hrest'

/-- A record is read to its end exactly if it does not describe a service. -/
theorem record_ends_iff {e : ℕ} {r : Record} (hw : Wired input ctx none)
    (hat : RecordAt input ctx.pos.meter e) (h : resourcerecord input ctx = .ok (r, ctx')) :
    ctx'.pos.meter = e ↔ PlainRecordAt input ctx.pos.meter e := by
  obtain ⟨m, hname, rfl, hle, hdata⟩ := id hat
  obtain ⟨-, -, m', hname', hends⟩ := (resourcerecord_spec hw).ok h
  obtain rfl := hname.deterministic hname'
  have hends := hends (by omega)
  refine ⟨fun heq => ⟨hat, fun m' hm' htype => ?_⟩, fun hplain => ?_⟩
  · obtain rfl := hname.deterministic hm'
    rw [heq, rdataEnds_iff_framed (by omega), htype] at hends
    exact hends
  · exact hends.deterministic ((rdataEnds_iff_framed (by omega)).2 (hdata.framed hle
      (hplain.2 m hname)))

theorem resourcerecords_succ {n : ℕ} {rs : List Record} :
    resourcerecords input (n + 1) ctx = .ok (rs, ctx') ↔ ∃ r rs' ctx₁, rs = r :: rs' ∧
      resourcerecord input ctx = .ok (r, ctx₁) ∧ resourcerecords input n ctx₁ = .ok (rs', ctx') := by
  constructor
  · intro h
    obtain ⟨⟨r, ctx₁⟩, hr, h⟩ := Except.bind_eq_ok.1 h
    obtain ⟨⟨rs', ctx₂⟩, hrs, h⟩ := Except.bind_eq_ok.1 h
    obtain ⟨rfl, rfl⟩ := Prod.mk.inj (Except.ok.inj h)
    exact ⟨r, rs', ctx₁, rfl, hr, hrs⟩
  · rintro ⟨r, rs', ctx₁, rfl, hr, hrs⟩
    rw [resourcerecords, hr]
    show (resourcerecords input n ctx₁ >>= _) = _
    rw [hrs]
    rfl

theorem resourcerecords_wired {n : ℕ} {rs : List Record} (hw : Wired input ctx none)
    (h : resourcerecords input n ctx = .ok (rs, ctx')) : Wired input ctx' none ∧ rs.length = n := by
  induction n generalizing ctx rs with
  | zero =>
    obtain ⟨rfl, rfl⟩ := Prod.mk.inj (Except.ok.inj h)
    exact ⟨hw, rfl⟩
  | succ n ih =>
    obtain ⟨r, rs', ctx₁, rfl, hr, hrs⟩ := resourcerecords_succ.1 h
    obtain ⟨hw', hlen⟩ := ih ((resourcerecord_spec hw).ok hr).1.wired hrs
    exact ⟨hw', congrArg (· + 1) hlen⟩

/-- Well-formed records are read in step exactly if none of them describes a service. -/
theorem inStep_iff {n e : ℕ} {rs : List Record} (hw : Wired input ctx none)
    (hat : Entries (RecordAt input) n ctx.pos.meter e)
    (h : resourcerecords input n ctx = .ok (rs, ctx')) :
    InStep input n ctx ↔ Entries (PlainRecordAt input) n ctx.pos.meter e := by
  induction n generalizing ctx rs with
  | zero =>
    cases hat
    refine ⟨fun _ => .nil, fun _ k hk => ?_⟩
    obtain rfl := Nat.le_zero.1 hk
    exact ⟨[], ctx, rfl, .nil⟩
  | succ n ih =>
    obtain ⟨r, rs', ctx₁, rfl, hr, hrs⟩ := resourcerecords_succ.1 h
    have hw₁ := ((resourcerecord_spec hw).ok hr).1.wired
    obtain _ | ⟨hfirst, hrest⟩ := hat
    have hends := record_ends_iff hw hfirst hr
    constructor
    · intro hstep
      -- the first record alone is read to its end
      obtain ⟨rs₁, ctx₂, hread, hone⟩ := hstep 1 (by omega)
      obtain ⟨_, _, _, rfl, hr', hnil⟩ := resourcerecords_succ.1 hread
      obtain ⟨-, rfl⟩ := Prod.mk.inj (Except.ok.inj (hr.symm.trans hr'))
      obtain ⟨-, rfl⟩ := Prod.mk.inj (Except.ok.inj hnil)
      obtain _ | ⟨hone, hnil⟩ := hone
      cases hnil
      have hmeter := hone.deterministic hfirst
      subst hmeter
      refine .cons (hends.1 rfl) ((ih hw₁ hrest hrs).1 fun k hk => ?_)
      obtain ⟨_, ctx₂, hread, hmore⟩ := hstep (k + 1) (by omega)
      obtain ⟨_, rs₂, _, rfl, hr', hrs'⟩ := resourcerecords_succ.1 hread
      obtain ⟨-, rfl⟩ := Prod.mk.inj (Except.ok.inj (hr.symm.trans hr'))
      obtain _ | ⟨hone', hmore⟩ := hmore
      obtain rfl := hone'.deterministic hone
      exact ⟨rs₂, ctx₂, hrs', hmore⟩
    · intro hplain k hk
      obtain _ | ⟨hfirst', hrest'⟩ := hplain
      obtain rfl := hfirst'.1.deterministic hfirst
      have hmeter := hends.2 hfirst'
      subst hmeter
      cases k with
      | zero => exact ⟨[], ctx, rfl, .nil⟩
      | succ k =>
        obtain ⟨rs₂, ctx₂, hread, hmore⟩ := (ih hw₁ hrest hrs).2 hrest' k (by omega)
        exact ⟨r :: rs₂, ctx₂, resourcerecords_succ.2 ⟨r, rs₂, ctx₁, rfl, hr, hread⟩,
          .cons hfirst hmore⟩

theorem InStep.ends {n e : ℕ} {rs : List Record} (hstep : InStep input n ctx)
    (hat : Entries (RecordAt input) n ctx.pos.meter e)
    (h : resourcerecords input n ctx = .ok (rs, ctx')) : ctx'.pos.meter = e := by
  obtain ⟨_, _, hread, hends⟩ := hstep n le_rfl
  obtain ⟨-, rfl⟩ := Prod.mk.inj (Except.ok.inj (h.symm.trans hread))
  exact hends.deterministic hat

theorem section_reads {count : NumberField} {n : ℕ} {rs : List Record} (hcount : count.value = .ok n)
    (h : section_ input count ctx = .ok (rs, ctx')) :
    resourcerecords input n ctx = .ok (rs, ctx') := by
  obtain ⟨v, hv, h⟩ := Except.bind_eq_ok.1 h
  obtain rfl := Except.ok.inj (hcount.symm.trans hv)
  exact h

theorem header_counts (hle : 12 ≤ input.length) :
    (header input ⟨⟨0, 0⟩, [], []⟩).1.ancount.value = .ok (wire16 input 6) ∧
      (header input ⟨⟨0, 0⟩, [], []⟩).1.nscount.value = .ok (wire16 input 8) ∧
      (header input ⟨⟨0, 0⟩, [], []⟩).1.arcount.value = .ok (wire16 input 10) := by
  rw [← wire16_value (by omega), ← wire16_value (by omega), ← wire16_value (by omega)]
  have hadv : ∀ m n, m + n ≤ 12 → advance input m n = m + n :=
    fun m n hle' => Nat.min_eq_left (hle'.trans hle)
  simp [header, Context.number, number, hadv]

theorem answerForA_record : PlainRecordAt answerForA 19 35 := by
  have hpointer : NameEnds answerForA 19 21 := .pointer rfl (by decide) rfl
  have hlen : wire16 answerForA (21 + 8) = 4 := by decide +kernel
  have htype : recordType (wire16 answerForA 21) = .A := by decide +kernel
  refine ⟨⟨21, hpointer, by rw [hlen], by decide, ?_⟩, fun m hm => ?_⟩
  · rw [htype]
    exact hlen
  · rw [← hpointer.deterministic hm, htype]
    nofun

theorem answerForA_built : Built answerForA 1 1 0 0 19 35 35 35 := by
  have hname : NameEnds answerForA 12 15 := .label rfl (by decide) (by decide) (.zero rfl)
  exact ⟨by decide, by decide +kernel, .cons ⟨15, hname, rfl, by decide⟩ .nil,
    .cons answerForA_record.1 .nil, .nil, .nil⟩

/-- Two questions, for the names `a` and `b`. -/
def twoQuestions : List UInt8 :=
  [0, 1, 1, 0, 0, 2, 0, 0, 0, 0, 0, 0, 1, 97, 0, 0, 1, 0, 1, 1, 98, 0, 0, 1, 0, 1]

end Haka.Dns
