import Haka.Dns.Names

/-!
# The framing of resource records

A resource record says how long its data is, and the next record should begin that many bytes behind
its RDLENGTH. The grammar of most types never looks at that number: the data ends where its own
grammar ends (`RdataEnds`). `record_framed_iff` says for which records of each type the two agree.
-/

namespace Haka.Dns

open Grammar (Position)

/-! ## Reading on -/

def Named (table : List (ℕ × ℕ)) (names : List (List ℕ)) : Prop :=
  ∀ dn ∈ names, ∃ o r, dn.head? = some r ∧ (o, r) ∈ table

section Reading

variable {input : List UInt8} {ctx ctx' ctx'' : Context}

theorem Reads.trans (h : Reads input ctx ctx') (h' : Reads input ctx' ctx'') :
    Reads input ctx ctx'' := ⟨h'.wired, List.Subset.trans h.table h'.table⟩

theorem Named.mono {table table' : List (ℕ × ℕ)} {names : List (List ℕ)} (h : Named table names)
    (hsub : table ⊆ table') : Named table' names := by
  intro dn hdn
  obtain ⟨o, r, hr, hmem⟩ := h dn hdn
  exact ⟨o, r, hr, hsub hmem⟩

theorem ReadsName.named {o : ℕ} {dn : List ℕ} (h : ReadsName input o dn ctx') :
    Named ctx'.table [dn] := by
  intro dn' hdn
  obtain rfl := List.mem_singleton.1 hdn
  obtain ⟨r, hr, hmem⟩ := h.first
  exact ⟨o, r, hr, hmem⟩

theorem Named.append {table : List (ℕ × ℕ)} {names names' : List (List ℕ)} (h : Named table names)
    (h' : Named table names') : Named table (names ++ names') := by
  intro dn hdn
  rcases List.mem_append.1 hdn with hdn | hdn
  · exact h dn hdn
  · exact h' dn hdn

theorem le_advance {m : ℕ} (hm : m ≤ input.length) (n : ℕ) :
    m ≤ advance input m n ∧ advance input m n ≤ input.length := by
  unfold advance
  omega

theorem advance_advance (m n k : ℕ) :
    advance input (advance input m n) k = advance input m (n + k) := by
  unfold advance
  omega

/-- The parse `n` bytes further. -/
def Context.move (ctx : Context) (input : List UInt8) (n : ℕ) : Context :=
  { ctx with pos := ⟨advance input ctx.pos.meter n, 0⟩ }

theorem move_move (ctx : Context) (n k : ℕ) :
    (ctx.move input n).move input k = ctx.move input (n + k) := by
  unfold Context.move
  simp only [advance_advance]

theorem Wired.move (hw : Wired input ctx none) (n : ℕ) : Reads input ctx (ctx.move input n) := by
  obtain ⟨hle, hin⟩ := le_advance hw.inside n
  refine ⟨⟨rfl, hin, fun e he => ?_, hw.refs, hw.inj, hw.good, nofun⟩, List.Subset.refl _⟩
  exact lt_of_lt_of_le (hw.keys e he) hle

theorem number_move (hz : ctx.pos.bitoffset = 0) {size : ℕ} (n : ℕ) (hsize : size = 8 * n) :
    ctx.number input size = (⟨subAt input ctx.pos.meter n, 0, size⟩, ctx.move input n) := by
  have h1 : (0 + size + 7) / 8 = n := by omega
  have h2 : (0 + size) % 8 = 0 := by omega
  unfold Context.number number Context.move
  simp only [hz, h1, h2, ne_eq, not_true_eq_false, if_false]

theorem number_moved (ctx : Context) (k : ℕ) {size : ℕ} (n : ℕ) (hsize : size = 8 * n) :
    (ctx.move input k).number input size =
      (⟨subAt input (ctx.move input k).pos.meter n, 0, size⟩, ctx.move input (k + n)) := by
  rw [number_move rfl n hsize, move_move]

theorem bytes_move (hw : Wired input ctx none) (size : ℤ) :
    Parses (ctx.bytes input size) fun r => 0 ≤ size ∧
      r = (subAt input ctx.pos.meter size.toNat, ctx.move input size.toNat) := by
  refine (bytes_parses ctx size).mono fun r h _ => ?_
  obtain ⟨⟨sub, pos⟩, hbytes, hr⟩ := Except.bind_eq_ok.1 h
  unfold Dns.bytes at hbytes
  rw [if_neg (not_not.2 hw.aligned)] at hbytes
  by_cases hneg : size < 0
  · rw [if_pos hneg] at hbytes
    cases hbytes
  · rw [if_neg hneg] at hbytes
    obtain ⟨rfl, rfl⟩ := Prod.mk.inj (Except.ok.inj hbytes)
    refine ⟨not_lt.1 hneg, (Except.ok.inj hr).symm.trans ?_⟩
    rw [Context.move, ← hw.aligned]

end Reading

/-! ## Record data -/

/-- Where the data of a record ends, from the offset `q` behind its length `len`. A field that the end
of the message cuts off ends there. -/
def RdataEnds (input : List UInt8) (len q e : ℕ) : RecordType → Prop
  | .A => e = advance input q 4
  | .NS | .MD | .MF | .CNAME | .MB | .MG | .MR | .PTR => NameEnds input q e
  | .SOA => ∃ m r, NameEnds input q m ∧ NameEnds input m r ∧ e = advance input r 20
  | .WKS => 40 ≤ len ∧ e = advance input (advance input q 5) (len - 40)
  | .MINFO => ∃ m, NameEnds input q m ∧ NameEnds input m e
  | .MX => NameEnds input (advance input q 2) e
  | .NULL | .TXT | .HINFO | .AAAA | .other _ => e = advance input q len

/-- What a branch of `resourcerecord` ensures. -/
def ReadsRdata (input : List UInt8) (length : NumberField) (ctx : Context) (type : RecordType)
    (r : Rdata × Context) : Prop :=
  Reads input ctx r.2 ∧ Named r.2.table r.1.names ∧
    ∀ len : ℕ, length.value = .ok len → RdataEnds input len ctx.pos.meter r.2.pos.meter type

section Rdata

variable {input : List UInt8} {ctx ctx' : Context} {length : NumberField}

theorem named_nil (table : List (ℕ × ℕ)) : Named table [] := nofun

section

variable (hw : Wired input ctx none)

include hw

theorem nameRdata_spec {type : RecordType}
    (htype : ∀ len e, NameEnds input ctx.pos.meter e → RdataEnds input len ctx.pos.meter e type) :
    Parses (nameRdata input ctx) (ReadsRdata input length ctx type) := by
  refine (dn_spec hw).bind ?_
  rintro ⟨name, ctx'⟩ - ⟨hreads, hname⟩
  exact ⟨hreads, hname.named, fun len _ => htype len _ hname.ends⟩

theorem soa_spec :
    Parses (soa input ctx) (ReadsRdata input length ctx .SOA) := by
  refine (dn_spec hw).bind ?_
  rintro ⟨mname, ctx1⟩ - ⟨hreads1, hname1⟩
  refine (dn_spec hreads1.wired).bind ?_
  rintro ⟨rname, ctx2⟩ - ⟨hreads2, hname2⟩
  have hmove := hreads2.wired.move 20
  simp only [number_move hreads2.wired.aligned 4 rfl, number_moved _ _ 4 rfl]
  refine ⟨(hreads1.trans hreads2).trans hmove, ?_, fun len _ => ⟨_, _, hname1.ends, hname2.ends, rfl⟩⟩
  exact (hname1.named.mono (List.Subset.trans hreads2.table hmove.table)).append
    (hname2.named.mono hmove.table)

theorem wks_spec :
    Parses (wks input length ctx) (ReadsRdata input length ctx .WKS) := by
  have hmove := hw.move 5
  unfold wks
  simp only [number_move hw.aligned 4 rfl, number_moved _ _ 1 rfl]
  refine (value_parses length).bind fun size hsize _ => ?_
  refine (bytes_move hmove.wired _).bind ?_
  rintro _ - ⟨hnonneg, rfl⟩
  refine ⟨hmove.trans (hmove.wired.move _), named_nil _, fun len hlen => ?_⟩
  obtain rfl := Except.ok.inj (hsize.symm.trans hlen)
  refine ⟨by omega, ?_⟩
  show advance input (advance input ctx.pos.meter 5) _ = _
  rw [show ((len : ℤ) - 40).toNat = len - 40 by omega]

theorem minfo_spec :
    Parses (minfo input ctx) (ReadsRdata input length ctx .MINFO) := by
  refine (dn_spec hw).bind ?_
  rintro ⟨rname, ctx1⟩ - ⟨hreads1, hname1⟩
  refine (dn_spec hreads1.wired).bind ?_
  rintro ⟨ename, ctx2⟩ - ⟨hreads2, hname2⟩
  refine ⟨hreads1.trans hreads2, ?_, fun len _ => ⟨_, hname1.ends, hname2.ends⟩⟩
  exact (hname1.named.mono hreads2.table).append hname2.named

theorem mx_spec :
    Parses (mx input ctx) (ReadsRdata input length ctx .MX) := by
  have hmove := hw.move 2
  unfold mx
  simp only [number_move hw.aligned 2 rfl]
  refine (dn_spec hmove.wired).bind ?_
  rintro ⟨name, ctx'⟩ - ⟨hreads, hname⟩
  exact ⟨hmove.trans hreads, hname.named, fun len _ => hname.ends⟩

theorem counted_spec {type : RecordType} {field : List UInt8 → Rdata}
    (hfield : ∀ sub, (field sub).names = [])
    (htype : ∀ len, RdataEnds input len ctx.pos.meter (advance input ctx.pos.meter len) type) :
    Parses (counted input length field ctx) (ReadsRdata input length ctx type) := by
  refine (value_parses length).bind fun size hsize _ => ?_
  refine (bytes_move hw size).bind ?_
  rintro _ - ⟨hnonneg, rfl⟩
  refine ⟨hw.move _, ?_, fun len hlen => ?_⟩
  · rw [hfield]
    exact named_nil _
  · obtain rfl := Except.ok.inj (hsize.symm.trans hlen)
    exact htype len

end

/-- **Record data.** Whatever the type, the data ends where the grammar of the type says. -/
theorem rdata_spec (type : RecordType) (hw : Wired input ctx none) :
    Parses (rdata input length ctx type) (ReadsRdata input length ctx type) := by
  cases type with
  | A =>
    unfold rdata
    simp only [number_move hw.aligned 4 rfl]
    exact ⟨hw.move 4, named_nil _, fun len _ => rfl⟩
  | NS | MD | MF | CNAME | MB | MG | MR | PTR => exact nameRdata_spec hw fun _ _ h => h
  | SOA => exact soa_spec hw
  | WKS => exact wks_spec hw
  | MINFO => exact minfo_spec hw
  | MX => exact mx_spec hw
  | NULL | TXT | HINFO | AAAA | other => exact counted_spec hw (fun _ => rfl) fun _ => rfl

end Rdata

/-! ## Records -/

section Record

variable {input : List UInt8} {ctx : Context}

def Record.names (r : Record) : List (List ℕ) := r.name :: r.rdata.names

/-- **Resource records.** The fields of a record, and where it ends. -/
theorem resourcerecord_spec (hw : Wired input ctx none) : Parses (resourcerecord input ctx) fun r =>
      Reads input ctx r.2 ∧ Named r.2.table r.1.names ∧
        ∃ e, NameEnds input ctx.pos.meter e ∧
          (e + 10 ≤ input.length → RdataEnds input (wire16 input (e + 8)) (e + 10) r.2.pos.meter
            (recordType (wire16 input e))) := by
  refine (dn_spec hw).bind ?_
  rintro ⟨name, ctx1⟩ - ⟨hreads1, hname⟩
  simp only [number_move hreads1.wired.aligned 2 rfl,
    number_moved _ _ 2 rfl, number_moved _ _ 4 rfl]
  refine (value_parses _).bind fun type htype _ => ?_
  have hmove := hreads1.wired.move 10
  refine (rdata_spec (recordType type) hmove.wired).bind ?_
  rintro ⟨data, ctx2⟩ - ⟨hreads2, hnamed, hends⟩
  refine ⟨(hreads1.trans hmove).trans hreads2, ?_, ctx1.pos.meter, hname.ends, fun hle => ?_⟩
  · exact (hname.named.mono (List.Subset.trans hmove.table hreads2.table)).append hnamed
  · have hq : (ctx1.move input 10).pos.meter = ctx1.pos.meter + 10 := Nat.min_eq_left hle
    have h8 : (ctx1.move input (2 + 2 + 4)).pos.meter = ctx1.pos.meter + 8 :=
      Nat.min_eq_left (by omega)
    rw [wire16_value (by omega)] at htype
    obtain rfl := Except.ok.inj htype
    have hlen := hends (wire16 input (ctx1.pos.meter + 8)) (by
      rw [← h8]
      exact wire16_value (by rw [h8]; omega))
    rw [hq] at hlen
    exact hlen

theorem RdataEnds.deterministic {len q e e' : ℕ} {type : RecordType}
    (h : RdataEnds input len q e type) (h' : RdataEnds input len q e' type) : e = e' := by
  cases type with
  | A | NULL | TXT | HINFO | AAAA | other => exact Eq.trans h (Eq.symm h')
  | NS | MD | MF | CNAME | MB | MG | MR | PTR | MX => exact NameEnds.deterministic h h'
  | SOA =>
    obtain ⟨m, r, hm, hr, rfl⟩ := h
    obtain ⟨m', r', hm', hr', rfl⟩ := h'
    obtain rfl := hm.deterministic hm'
    obtain rfl := hr.deterministic hr'
    rfl
  | WKS => exact h.2.trans h'.2.symm
  | MINFO =>
    obtain ⟨m, hm, he⟩ := h
    obtain ⟨m', hm', he'⟩ := h'
    obtain rfl := hm.deterministic hm'
    exact he.deterministic he'

/-- The data of a type from the offset `q` on ends `len` bytes behind it, where a field that the end
of the message cuts off ends there. What is read of a service description is at least 35 bytes short. -/
def Framed (input : List UInt8) (len q : ℕ) : RecordType → Prop
  | .A => len = min 4 (input.length - q)
  | .NS | .MD | .MF | .CNAME | .MB | .MG | .MR | .PTR => NameEnds input q (q + len)
  | .SOA => ∃ m r, NameEnds input q m ∧ NameEnds input m r ∧ q + len = min (r + 20) input.length
  | .WKS => False
  | .MINFO => ∃ m, NameEnds input q m ∧ NameEnds input m (q + len)
  | .MX => NameEnds input (min (q + 2) input.length) (q + len)
  | .NULL | .TXT | .HINFO | .AAAA | .other _ => q + len ≤ input.length

theorem rdataEnds_iff_framed {len q : ℕ} {type : RecordType} (hq : q ≤ input.length) :
    RdataEnds input len q (q + len) type ↔ Framed input len q type := by
  cases type with
  | A | NULL | TXT | HINFO | AAAA | other =>
    simp only [RdataEnds, Framed, advance]
    omega
  | NS | MD | MF | CNAME | MB | MG | MR | PTR | MX | SOA | MINFO => exact Iff.rfl
  | WKS =>
    refine iff_of_false ?_ id
    rintro ⟨hlen, he⟩
    unfold advance at he
    omega

end Record

theorem start_wired (input : List UInt8) : Wired input ⟨⟨0, 0⟩, [], []⟩ none :=
  ⟨rfl, Nat.zero_le _, nofun, nofun, nofun, nofun, nofun⟩

def aRecord (length : UInt8) (data : List UInt8) : List UInt8 :=
  [0, 0, 1, 0, 1, 0, 0, 0, 0, 0, length] ++ data

end Haka.Dns
