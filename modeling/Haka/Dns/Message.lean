import Haka.Grammar.Entity
import Haka.Lib.Bits

/-!
# DNS messages

The grammar of `dns.lua`, read on the bytes of a UDP payload: domain names made of labels, resource
records with a grammar of their own for each type, and the message with its counts. While a message
is parsed every label is put into a table by its offset; at the end the pointers are resolved in it
(`pointerResolution`), and a name is made by following the labels (`dnConverterGet`).

A payload is a list of bytes here, and a position the number of bytes before it: the payload lies in
one block, where every number reads as its bytes. Numbers are read when their field is used, so that a
field that the end of the payload cuts off is no error by itself. The labels are Lua tables, here
numbered in the order in which they are made.
-/

namespace Haka.Dns

open Grammar (Position)

/-- How a parse stops: with `ctx:error`, with a Lua error, or because the fuel of a loop was too
little. -/
inductive Stop where
  | parse (msg : String)
  | lua (msg : String)
  | fuel
  deriving DecidableEq

/-! ## Primitives -/

/-- The bytes `iter:sub(size)` gives at a position. -/
def subAt (input : List UInt8) (meter size : ℕ) : List UInt8 := (input.drop meter).take size

/-- `iter:advance(size)` from a position. -/
def advance (input : List UInt8) (meter size : ℕ) : ℕ := min (meter + size) input.length

/-- The property of a number: the bytes it lies in and its bits in them. -/
structure NumberField where
  sub : List UInt8
  bitoffset : ℕ
  size : ℕ
  deriving DecidableEq

/-- `sub:asnumber('big')`, an `int`; an empty sub has no address to read from and gives 0. -/
def asnumber (sub : List UInt8) : Except Stop ℤ :=
  if sub.length = 0 then .ok 0
  else if sub.length ∈ [1, 2, 4, 8] then
    .ok ((Bits.value (Bits.ofBytes sub) : ℤ).bmod (2 ^ 32))
  else .error (.lua s!"asnumber: unsupported size {sub.length}")

def asbits (sub : List UInt8) (offset bits : ℕ) : Except Stop ℤ :=
  if offset / 8 ≥ sub.length then .error (.lua "asbits: invalid bit offset")
  else if (offset + bits + 7) / 8 > sub.length then .error (.lua "asbits: invalid bit size")
  else .ok ((Bits.value (((Bits.ofBytes sub).drop offset).take bits) : ℤ).bmod (2 ^ 32))

def NumberField.value (f : NumberField) : Except Stop ℤ :=
  if f.bitoffset = 0 ∧ (f.bitoffset + f.size) % 8 = 0 then asnumber f.sub
  else asbits f.sub f.bitoffset f.size

/-- `Number:_parse`. -/
def number (input : List UInt8) (size : ℕ) (pos : Position) : NumberField × Position :=
  let bytes := (pos.bitoffset + size + 7) / 8
  let bit := (pos.bitoffset + size) % 8
  (⟨subAt input pos.meter bytes, pos.bitoffset, size⟩,
    ⟨advance input pos.meter (if bit ≠ 0 then bytes - 1 else bytes), bit⟩)

/-- `Bytes:_parse` with a count. -/
def bytes (input : List UInt8) (size : ℤ) (pos : Position) :
    Except Stop (List UInt8 × Position) :=
  if pos.bitoffset ≠ 0 then .error (.parse "byte primitive requires aligned bits")
  else if size < 0 then .error (.parse s!"byte count must not be negative, got {size}")
  else .ok (subAt input pos.meter size.toNat,
    { pos with meter := advance input pos.meter size.toNat })

/-! ## Labels and names -/

/-- A label, with the fields the grammar gave it. -/
structure Label where
  compressionScheme : Option NumberField := none
  length : Option NumberField := none
  name : Option (List UInt8) := none
  pointer : Option NumberField := none
  next : Option ℕ := none
  deriving DecidableEq

/-- A parse: its position, the labels made so far, and `_labels` of the message. -/
structure Context where
  pos : Position
  labels : List Label
  table : List (ℕ × ℕ)

/-- `_labels[meter] = label`. -/
def setLabel (table : List (ℕ × ℕ)) (meter label : ℕ) : List (ℕ × ℕ) :=
  if table.any fun e => e.1 = meter then
    table.map fun e => if e.1 = meter then (meter, label) else e
  else table ++ [(meter, label)]

/-- `_labels[meter]`. -/
def getLabel (table : List (ℕ × ℕ)) (meter : ℕ) : Option ℕ :=
  (table.find? fun e => e.1 = meter).map Prod.snd

/-- `number(size)` in a record. -/
def Context.number (ctx : Context) (input : List UInt8) (size : ℕ) : NumberField × Context :=
  let (f, pos) := Dns.number input size ctx.pos
  (f, { ctx with pos := pos })

/-- `bytes():count(size)` in a record. -/
def Context.bytes (ctx : Context) (input : List UInt8) (size : ℤ) :
    Except Stop (List UInt8 × Context) := do
  let (sub, pos) ← Dns.bytes input size ctx.pos
  return (sub, { ctx with pos := pos })

/-- `prev_result[#prev_result-1].next = self`. -/
def linkLabel (labels : List Label) (dn : List ℕ) (self : ℕ) : List Label :=
  match dn.getLast? with
  | some prev => labels.modify prev fun l => { l with next := some self }
  | none => labels

/-- A new element of the array `dn`, and the `execute` of a label: the label before it leads to it,
and it is put into the table. -/
def Context.newLabel (ctx : Context) (dn : List ℕ) : Context :=
  let self := ctx.labels.length
  { ctx with
    labels := linkLabel ctx.labels dn self ++ [({} : Label)],
    table := setLabel ctx.table ctx.pos.meter self }

/-- Fields of the label `self`. -/
def Context.setFields (ctx : Context) (self : ℕ) (f : Label → Label) : Context :=
  { ctx with labels := ctx.labels.modify self f }

def noCompression : ℤ := 0

def pointerCompression : ℤ := 3

/-- `label`, for the array `dn`. -/
def label (input : List UInt8) (ctx : Context) (dn : List ℕ) : Except Stop Context := do
  let self := ctx.labels.length
  let ctx := ctx.newLabel dn
  let (scheme, ctx) := ctx.number input 2
  let ctx := ctx.setFields self fun l => { l with compressionScheme := some scheme }
  let value ← scheme.value
  if value = pointerCompression then
    let (pointer, ctx) := ctx.number input 14
    return ctx.setFields self fun l => { l with pointer := some pointer }
  else if value = noCompression then
    let (length, ctx) := ctx.number input 6
    let ctx := ctx.setFields self fun l => { l with length := some length }
    let count ← length.value
    let (name, ctx) ← ctx.bytes input count
    return ctx.setFields self fun l => { l with name := some name }
  else .error (.parse "unsupported compression scheme")

/-- A field of a label, `nil` when the label does not have it. -/
def fieldValue : Option NumberField → Except Stop (Option ℤ)
  | none => .ok none
  | some f => some <$> f.value

/-- `label.length == 0 or label.pointer ~= nil`. -/
def Label.isLast (l : Label) : Except Stop Bool := do
  let length ← fieldValue l.length
  if length = some 0 then return true
  else
    let pointer ← fieldValue l.pointer
    return pointer.isSome

/-- The condition of `untilcond`, on the labels an array has so far. -/
def untilcond (ctx : Context) (dn : List ℕ) : Except Stop Bool :=
  match dn.getLast? with
  | none => .ok false
  | some prev => ((ctx.labels[prev]?).getD {}).isLast

/-- The array `dn`, from the labels it has so far. -/
def dnLoop (input : List UInt8) : ℕ → Context → List ℕ → Except Stop (List ℕ × Context)
  | 0, _, _ => .error .fuel
  | fuel + 1, ctx, dn => do
    let last ← untilcond ctx dn
    if last then return (dn, ctx)
    else
      let next ← label input ctx dn
      dnLoop input fuel next (dn ++ [ctx.labels.length])

/-- `dn`. A label takes a byte or more. -/
def dn (input : List UInt8) (ctx : Context) : Except Stop (List ℕ × Context) :=
  dnLoop input (input.length + 2) ctx []

/-! ## Resource records -/

/-- `TYPE[type] or type`. -/
inductive RecordType where
  | A | NS | MD | MF | CNAME | SOA | MB | MG | MR | NULL | WKS | PTR | HINFO | MINFO | MX | TXT | AAAA
  | other (type : ℤ)
  deriving DecidableEq

/-- The table `TYPE`. -/
def recordType (type : ℤ) : RecordType :=
  match type with
  | 1 => .A
  | 2 => .NS
  | 3 => .MD
  | 4 => .MF
  | 5 => .CNAME
  | 6 => .SOA
  | 7 => .MB
  | 8 => .MG
  | 9 => .MR
  | 10 => .NULL
  | 11 => .WKS
  | 12 => .PTR
  | 13 => .HINFO
  | 14 => .MINFO
  | 15 => .MX
  | 16 => .TXT
  | 28 => .AAAA
  | type => .other type

/-- The fields a branch of `resourcerecord` adds. -/
inductive Rdata where
  | ip (ip : NumberField)
  | name (name : List ℕ)
  | soa (mname rname : List ℕ) (serial refresh retry expire minimum : NumberField)
  | wks (ip proto : NumberField) (ports : List UInt8)
  | minfo (rname ename : List ℕ)
  | mx (pref : NumberField) (name : List ℕ)
  | data (data : List UInt8)
  | unknown (unknown : List UInt8)
  deriving DecidableEq

def Rdata.names : Rdata → List (List ℕ)
  | .name dn => [dn]
  | .soa mname rname _ _ _ _ _ => [mname, rname]
  | .minfo rname ename => [rname, ename]
  | .mx _ dn => [dn]
  | _ => []

/-- A resource record. -/
structure Record where
  name : List ℕ
  type : NumberField
  «class» : NumberField
  ttl : NumberField
  length : NumberField
  rdata : Rdata

/-- `field('name', dn)` of a branch. -/
def nameRdata (input : List UInt8) (ctx : Context) : Except Stop (Rdata × Context) := do
  let (name, ctx) ← dn input ctx
  return (.name name, ctx)

def soa (input : List UInt8) (ctx : Context) : Except Stop (Rdata × Context) := do
  let (mname, ctx) ← dn input ctx
  let (rname, ctx) ← dn input ctx
  let (serial, ctx) := ctx.number input 32
  let (refresh, ctx) := ctx.number input 32
  let (retry, ctx) := ctx.number input 32
  let (expire, ctx) := ctx.number input 32
  let (minimum, ctx) := ctx.number input 32
  return (.soa mname rname serial refresh retry expire minimum, ctx)

/-- `wks`: the ports take `self.length - 40` bytes. -/
def wks (input : List UInt8) (length : NumberField) (ctx : Context) :
    Except Stop (Rdata × Context) := do
  let (ip, ctx) := ctx.number input 32
  let (proto, ctx) := ctx.number input 8
  let size ← length.value
  let (ports, ctx) ← ctx.bytes input (size - 40)
  return (.wks ip proto ports, ctx)

def minfo (input : List UInt8) (ctx : Context) : Except Stop (Rdata × Context) := do
  let (rname, ctx) ← dn input ctx
  let (ename, ctx) ← dn input ctx
  return (.minfo rname ename, ctx)

def mx (input : List UInt8) (ctx : Context) : Except Stop (Rdata × Context) := do
  let (pref, ctx) := ctx.number input 16
  let (name, ctx) ← dn input ctx
  return (.mx pref name, ctx)

/-- `bytes():count(function (self, ctx) return self.length end)`. -/
def counted (input : List UInt8) (length : NumberField) (field : List UInt8 → Rdata)
    (ctx : Context) : Except Stop (Rdata × Context) := do
  let size ← length.value
  let (sub, ctx) ← ctx.bytes input size
  return (field sub, ctx)

/-- The branch of `resourcerecord` on `self.type`. -/
def rdata (input : List UInt8) (length : NumberField) (ctx : Context) :
    RecordType → Except Stop (Rdata × Context)
  | .A =>
    let (ip, ctx) := ctx.number input 32
    .ok (.ip ip, ctx)
  | .NS | .MD | .MF | .CNAME | .MB | .MG | .MR | .PTR => nameRdata input ctx
  | .SOA => soa input ctx
  | .NULL => counted input length .data ctx
  | .WKS => wks input length ctx
  | .MINFO => minfo input ctx
  | .MX => mx input ctx
  | .TXT => counted input length .data ctx
  | .HINFO | .AAAA | .other _ => counted input length .unknown ctx

def resourcerecord (input : List UInt8) (ctx : Context) : Except Stop (Record × Context) := do
  let (name, ctx) ← dn input ctx
  let (type, ctx) := ctx.number input 16
  let («class», ctx) := ctx.number input 16
  let (ttl, ctx) := ctx.number input 32
  let (length, ctx) := ctx.number input 16
  let value ← type.value
  let (data, ctx) ← rdata input length ctx (recordType value)
  return (⟨name, type, «class», ttl, length, data⟩, ctx)

/-- `array(resourcerecord):count(count)`, with `n` elements to go. -/
def resourcerecords (input : List UInt8) : ℕ → Context → Except Stop (List Record × Context)
  | 0, ctx => .ok ([], ctx)
  | n + 1, ctx => do
    let (record, ctx) ← resourcerecord input ctx
    let (records, ctx) ← resourcerecords input n ctx
    return (record :: records, ctx)

/-! ## Messages -/

structure Header where
  id : NumberField
  qr : NumberField
  opcode : NumberField
  aa : NumberField
  tc : NumberField
  rd : NumberField
  ra : NumberField
  rcode : NumberField
  qdcount : NumberField
  ancount : NumberField
  nscount : NumberField
  arcount : NumberField

def header (input : List UInt8) (ctx : Context) : Header × Context :=
  let (id, ctx) := ctx.number input 16
  let (qr, ctx) := ctx.number input 1
  let (opcode, ctx) := ctx.number input 4
  let (aa, ctx) := ctx.number input 1
  let (tc, ctx) := ctx.number input 1
  let (rd, ctx) := ctx.number input 1
  let (ra, ctx) := ctx.number input 1
  let (_, ctx) := ctx.number input 3
  let (rcode, ctx) := ctx.number input 4
  let (qdcount, ctx) := ctx.number input 16
  let (ancount, ctx) := ctx.number input 16
  let (nscount, ctx) := ctx.number input 16
  let (arcount, ctx) := ctx.number input 16
  (⟨id, qr, opcode, aa, tc, rd, ra, rcode, qdcount, ancount, nscount, arcount⟩, ctx)

structure Question where
  name : List ℕ
  type : NumberField
  «class» : NumberField

/-- `question`; there is one, whatever `qdcount` says. -/
def question (input : List UInt8) (ctx : Context) : Except Stop (Question × Context) := do
  let (name, ctx) ← dn input ctx
  let (type, ctx) := ctx.number input 16
  let («class», ctx) := ctx.number input 16
  return (⟨name, type, «class»⟩, ctx)

/-- `answer`, `authority` and `additional`. -/
def section_ (input : List UInt8) (count : NumberField) (ctx : Context) :
    Except Stop (List Record × Context) := do
  let n ← count.value
  resourcerecords input n.toNat ctx

def sortedPairs (table : List (ℕ × ℕ)) : List (ℕ × ℕ) := table.insertionSort fun a b => a.1 ≤ b.1

/-- The body of the loop of `pointer_resolution`. -/
def resolveLabel (table : List (ℕ × ℕ)) (labels : List Label) (self : ℕ) :
    Except Stop (List Label) := do
  let l := (labels[self]?).getD {}
  let scheme ← fieldValue l.compressionScheme
  if scheme = some pointerCompression then
    let pointer ← fieldValue l.pointer
    match pointer with
    | none => .error (.lua "bad argument #2 to 'format' (number expected, got nil)")
    | some pointer =>
      let hex := String.ofList (Nat.toDigits 16 pointer.toNat)
      match getLabel table pointer.toNat with
      | none => .error (.lua s!"reference unknown domain name at offset: 0x{hex}")
      | some target => return labels.modify self fun l => { l with next := some target }
  else return labels

def pointerResolution (ctx : Context) : Except Stop Context := do
  let labels ← (sortedPairs ctx.table).foldlM (fun labels e => resolveLabel ctx.table labels e.2)
    ctx.labels
  return { ctx with labels := labels }

/-- A message, with its labels. -/
structure Message where
  header : Header
  question : Question
  answer : List Record
  authority : List Record
  additional : List Record
  labels : List Label
  table : List (ℕ × ℕ)

def message (input : List UInt8) : Except Stop Message := do
  let (header, ctx) := header input ⟨⟨0, 0⟩, [], []⟩
  let (question, ctx) ← question input ctx
  let (answer, ctx) ← section_ input header.ancount ctx
  let (authority, ctx) ← section_ input header.nscount ctx
  let (additional, ctx) ← section_ input header.arcount ctx
  let ctx ← pointerResolution ctx
  return ⟨header, question, answer, authority, additional, ctx.labels, ctx.table⟩

def Message.names (m : Message) : List (List ℕ) :=
  m.question.name ::
    (m.answer ++ m.authority ++ m.additional).flatMap fun r => r.name :: r.rdata.names

/-! ## Names -/

/-- The loop of `dn_converter.get`; `none` when it did not end within the fuel. -/
def dnConverterLoop (labels : List Label) :
    ℕ → Option ℕ → List (List UInt8) → Option (List (List UInt8))
  | _, none, result => some result
  | 0, some _, _ => none
  | fuel + 1, some self, result =>
    let l := (labels[self]?).getD {}
    -- pointers have no name
    dnConverterLoop labels fuel l.next (result ++ l.name.toList)

/-- `dn_converter.get`. -/
def dnConverterGet (labels : List Label) (fuel : ℕ) (dn : List ℕ) : Option (List UInt8) :=
  (dnConverterLoop labels fuel dn.head? []).map fun result => [46].intercalate result

end Haka.Dns
