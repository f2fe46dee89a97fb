import Mathlib.Tactic
import Mathlib.Data.List.TakeWhile

/-!
# IPv4 addresses and networks as text

`ipv4-addr.c` and `ipv4-network.c`. An address is a `uint32` whose most significant byte is the
first octet of its text. The calls of libc are modelled by what is assumed of them. The mask of a
network is built with shifts of an `int`, which take the count modulo 32, as those of `UInt32`
do: a mask of 32 bits comes out as the mask 0.
-/

namespace Haka

open List

def ipv4AddrStringMaxlen : ℕ := 15
def ipv4NetworkStringMaxlen : ℕ := 18

/-! ## libc -/

def octets (addr : UInt32) : List ℕ :=
  [addr.toNat / 2 ^ 24, addr.toNat / 2 ^ 16 % 256, addr.toNat / 2 ^ 8 % 256, addr.toNat % 256]

def dottedQuad (addr : UInt32) : List Char :=
  ['.'].intercalate ((octets addr).map (Nat.toDigits 10))

/-- `inet_pton(AF_INET, …)`, the bytes read in network order: only a dotted quad is accepted. -/
def inetPton (text : List Char) : Option UInt32 :=
  let n := (text.splitOn '.').foldl (fun n octet => n * 256 + Nat.ofDigitChars 10 octet 0) 0
  let addr := UInt32.ofNat n
  if dottedQuad addr = text then some addr else none

/-- `inet_ntop(AF_INET, …)` fails if the text and its terminator do not fit. -/
def inetNtop (addr : UInt32) (size : ℕ) : Option (List Char) :=
  if (dottedQuad addr).length < size then some (dottedQuad addr) else none

def isspace (c : Char) : Bool := c ∈ [' ', '\t', '\n', '\x0b', '\x0c', '\r']

/-- The sign `strtoul` accepts, and what follows it. -/
def scanSign : List Char → Bool × List Char
  | '-' :: text => (true, text)
  | '+' :: text => (false, text)
  | text => (false, text)

/-- The conversion `%hhu` of `sscanf`. -/
def sscanfHhu (text : List Char) : Option UInt8 :=
  let signed := scanSign (text.dropWhile isspace)
  let digits := signed.2.takeWhile Char.isDigit
  let n := Nat.ofDigitChars 10 digits 0
  if digits = [] then none else some (if signed.1 then -UInt8.ofNat n else UInt8.ofNat n)

/-! ## Addresses -/

/-- `ipv4_addr_from_string`. -/
def ipv4AddrFromString (string : List Char) : Except String UInt32 :=
  match inetPton string with
  | none => .error "invalid IPv4 address format"
  | some addr => .ok addr

/-- `ipv4_addr_to_string`; its `assert` fails if `inet_ntop` does. -/
def ipv4AddrToString (addr : UInt32) (size : ℕ) : Option (List Char) := inetNtop addr size

/-- `TOSTR_ipv4addr`. -/
def tostrIpv4addr (obj : UInt32) : Option (List Char) := ipv4AddrToString obj ipv4AddrStringMaxlen

/-! ## Networks -/

structure Ipv4Network where
  net : UInt32
  mask : UInt8
deriving DecidableEq, Repr

/-- `IPV4_APPLY_NETMASK`. -/
def ipv4ApplyNetmask (addr : UInt32) (mask : UInt8) : UInt32 :=
  addr &&& ((1 <<< mask.toUInt32) - 1) <<< (32 - mask.toUInt32)

/-- `ipv4_network_to_string`; `snprintf` cuts the mask at the end of the buffer. -/
def ipv4NetworkToString (netaddr : Ipv4Network) (size : ℕ) : Option (List Char) := do
  let string ← ipv4AddrToString netaddr.net size
  some (string ++ ('/' :: Nat.toDigits 10 netaddr.mask.toNat).take (size - string.length - 1))

/-- `ipv4_network_from_string`. -/
def ipv4NetworkFromString (string : List Char) : Except String Ipv4Network :=
  if '/' ∉ string then .error "invalid IPv4 network address format" else
  let slashIndex := string.idxOf '/'
  if slashIndex > ipv4AddrStringMaxlen then .error "invalid IPv4 network address format" else do
  let net ← ipv4AddrFromString (string.take slashIndex)
  match sscanfHhu (string.drop (slashIndex + 1)) with
  | none => .error "invalid IPv4 network address format"
  | some mask =>
    if mask > 32 then .error "invalid IPv4 network address format" else
    .ok ⟨ipv4ApplyNetmask net mask, mask⟩

/-- `ipv4_network_contains`. -/
def ipv4NetworkContains (network : Ipv4Network) (addr : UInt32) : Bool :=
  ipv4ApplyNetmask addr network.mask = network.net

/-! ## The text of an address -/

theorem first_octet_lt (a : UInt32) : a.toNat / 2 ^ 24 < 256 := by
  have h := a.toNat_lt
  omega

variable {c : Char}

theorem isDigit_toDigits {n : ℕ} (hc : c ∈ Nat.toDigits 10 n) : c.isDigit = true :=
  Nat.isDigit_of_mem_toDigits (by decide) (by decide) hc

theorem splitOn_dottedQuad (a : UInt32) :
    (dottedQuad a).splitOn '.' = (octets a).map (Nat.toDigits 10) := by
  refine splitOn_intercalate '.' ?_ (by simp [octets])
  intro text ht hdot
  obtain ⟨n, -, rfl⟩ := mem_map.1 ht
  exact absurd (isDigit_toDigits hdot) (by decide)

variable {text : List Char} {a : UInt32}

/-- **`inet_pton` accepts exactly the dotted quads.** -/
theorem inetPton_eq_some_iff : inetPton text = some a ↔ text = dottedQuad a := by
  rw [inetPton, Option.ite_none_right_eq_some, Option.some.injEq]
  constructor
  · rintro ⟨h, rfl⟩
    exact h.symm
  · rintro rfl
    have hread : ((dottedQuad a).splitOn '.').foldl
        (fun n o => n * 256 + Nat.ofDigitChars 10 o 0) 0 = a.toNat := by
      simp only [splitOn_dottedQuad, octets, map_cons, map_nil, foldl_cons, foldl_nil,
        Nat.ofDigitChars_ten_toDigits]
      omega
    rw [hread, UInt32.ofNat_toNat]
    exact ⟨rfl, rfl⟩

theorem slash_notMem_dottedQuad (a : UInt32) : '/' ∉ dottedQuad a := by
  have hdigits (n : ℕ) : '/' ∉ Nat.toDigits 10 n := fun h => absurd (isDigit_toDigits h) (by decide)
  simp [dottedQuad, octets, intercalate, hdigits]

theorem length_dottedQuad (a : UInt32) :
    (dottedQuad a).length = ((octets a).map fun o => (Nat.toDigits 10 o).length).sum + 3 := by
  simp only [dottedQuad, octets, intercalate, map_cons, map_nil, intersperse, flatten_cons,
    flatten_nil, length_append, length_cons, length_nil, sum_cons, sum_nil]
  omega

theorem length_toDigits_octet {n : ℕ} (hn : n < 256) :
    1 ≤ (Nat.toDigits 10 n).length ∧ (Nat.toDigits 10 n).length ≤ 3 ∧
      ((Nat.toDigits 10 n).length ≤ 2 ↔ n < 100) :=
  ⟨Nat.length_toDigits_pos, (Nat.length_toDigits_le_iff (by decide) (by decide)).2 (by omega),
    Nat.length_toDigits_le_iff (by decide) (by decide)⟩

/-- Only addresses whose octets all have three digits take the whole of the buffer. -/
theorem length_dottedQuad_le (a : UInt32) :
    (dottedQuad a).length ≤ 15 ∧ ((dottedQuad a).length < 15 ↔ ∃ o ∈ octets a, o < 100) := by
  have l1 := length_toDigits_octet (first_octet_lt a)
  have l2 := length_toDigits_octet (Nat.mod_lt (a.toNat / 2 ^ 16) (by decide : 0 < 256))
  have l3 := length_toDigits_octet (Nat.mod_lt (a.toNat / 2 ^ 8) (by decide : 0 < 256))
  have l4 := length_toDigits_octet (Nat.mod_lt a.toNat (by decide : 0 < 256))
  rw [length_dottedQuad]
  simp only [octets, mem_cons, not_mem_nil, or_false, exists_eq_or_imp, exists_eq_left, map_cons,
    map_nil, sum_cons, sum_nil]
  omega

/-! ## The mask -/

theorem testBit_netmask : ∀ m i : Fin 32, ((((1 : UInt32) <<< (UInt8.ofNat m).toUInt32) - 1) <<<
      (32 - (UInt8.ofNat m).toUInt32)).toNat.testBit i = decide (32 - m.val ≤ i.val) := by
  decide +kernel

variable {mask : UInt8}

theorem toNat_ipv4ApplyNetmask (a : UInt32) (hm : mask.toNat ≤ 31) :
    (ipv4ApplyNetmask a mask).toNat = a.toNat / 2 ^ (32 - mask.toNat) * 2 ^ (32 - mask.toNat) := by
  refine Nat.eq_of_testBit_eq fun i => ?_
  rw [ipv4ApplyNetmask, UInt32.toNat_and, Nat.testBit_and, Nat.testBit_mul_two_pow,
    Nat.testBit_div_two_pow]
  by_cases hi : i < 32
  · have hbit := testBit_netmask ⟨mask.toNat, by omega⟩ ⟨i, hi⟩
    simp only [UInt8.ofNat_toNat] at hbit
    rw [hbit]
    by_cases hk : 32 - mask.toNat ≤ i
    · simp [hk, Nat.sub_add_cancel hk]
    · simp [hk]
  · have ha : a.toNat.testBit i = false :=
      Nat.testBit_lt_two_pow (a.toNat_lt.trans_le (Nat.pow_le_pow_right (by decide) (by omega)))
    have hk : 32 - mask.toNat ≤ i := by omega
    simp [ha, Nat.sub_add_cancel hk]

theorem ipv4ApplyNetmask_32 (a : UInt32) : ipv4ApplyNetmask a 32 = 0 := by
  exact UInt32.and_zero

/-! ## The parser of networks -/

variable {r : List Char} {n : Ipv4Network}

theorem ipv4NetworkFromString_append {l : List Char} (hl : '/' ∉ l) :
    ipv4NetworkFromString (l ++ '/' :: r) = .ok n ↔
      l.length ≤ 15 ∧ ∃ a, inetPton l = some a ∧ sscanfHhu r = some n.mask ∧ n.mask ≤ 32 ∧
        n.net = ipv4ApplyNetmask a n.mask := by
  have hidx : (l ++ '/' :: r).idxOf '/' = l.length := by
    rw [idxOf_append_of_notMem hl, idxOf_cons_self, Nat.add_zero]
  have hdrop : (l ++ '/' :: r).drop (l.length + 1) = r := by simp [drop_append]
  simp only [ipv4NetworkFromString, hidx, hdrop, take_left' rfl, ipv4AddrFromString]
  rw [if_neg (by simp)]
  by_cases hlen : l.length ≤ 15
  · rw [if_neg (by simpa [ipv4AddrStringMaxlen] using hlen)]
    cases inetPton l with
    | none => simp [bind, Except.bind]
    | some a =>
      cases sscanfHhu r with
      | none => simp [bind, Except.bind]
      | some mask =>
        obtain ⟨net, mask'⟩ := n
        by_cases hm : mask ≤ 32
        · simp only [bind, Except.bind, gt_iff_lt, UInt8.not_lt.2 hm]
          grind
        · simp only [bind, Except.bind, gt_iff_lt, UInt8.not_le.1 hm]
          grind
  · rw [if_pos (by simpa [ipv4AddrStringMaxlen] using hlen)]
    simp [hlen]

theorem ipv4NetworkFromString_eq_ok_iff {string : List Char} :
    ipv4NetworkFromString string = .ok n ↔
      ∃ a r, string = dottedQuad a ++ '/' :: r ∧ sscanfHhu r = some n.mask ∧ n.mask ≤ 32 ∧
        n.net = ipv4ApplyNetmask a n.mask := by
  constructor
  · intro h
    by_cases hslash : '/' ∈ string
    · obtain ⟨l, r, rfl, hl⟩ := eq_append_cons_of_mem hslash
      obtain ⟨-, a, ha, hrest⟩ := (ipv4NetworkFromString_append hl).1 h
      exact ⟨a, r, by rw [inetPton_eq_some_iff.1 ha], hrest⟩
    · rw [ipv4NetworkFromString, if_pos hslash] at h
      cases h
  · rintro ⟨a, r, rfl, hrest⟩
    exact (ipv4NetworkFromString_append (slash_notMem_dottedQuad a)).2
      ⟨(length_dottedQuad_le a).1, a, inetPton_eq_some_iff.2 rfl, hrest⟩

theorem ipv4NetworkFromString_quad (a : UInt32) (hr : sscanfHhu r = some mask) (hm : mask ≤ 32) :
    ipv4NetworkFromString (dottedQuad a ++ '/' :: r) = .ok ⟨ipv4ApplyNetmask a mask, mask⟩ :=
  ipv4NetworkFromString_eq_ok_iff.2 ⟨a, r, rfl, hr, hm, rfl⟩

/-- The parts of a text that `%hhu` reads: white space, a sign, digits, and what it ignores. -/
structure ReadAs (text white sign digits rest : List Char) : Prop where
  text : text = white ++ (sign ++ (digits ++ rest))
  white : ∀ c ∈ white, isspace c = true
  sign : sign = [] ∨ sign = ['+'] ∨ sign = ['-']
  some : digits ≠ []
  digits : ∀ c ∈ digits, c.isDigit = true
  rest : ∀ c ∈ rest.head?, c.isDigit = false

/-- The number that is read, modulo 256. -/
def maskOf (sign digits : List Char) : UInt8 :=
  let n := UInt8.ofNat (Nat.ofDigitChars 10 digits 0)
  if sign = ['-'] then -n else n

theorem exists_sign (body : List Char) :
    ∃ sign, body = sign ++ (scanSign body).2 ∧ (sign = [] ∨ sign = ['+'] ∨ sign = ['-']) ∧
      ((scanSign body).1 = true ↔ sign = ['-']) := by
  unfold scanSign
  split
  · exact ⟨['-'], rfl, by simp, by simp⟩
  · exact ⟨['+'], rfl, by simp, by simp⟩
  · exact ⟨[], rfl, by simp, by simp⟩

theorem isspace_of_isDigit (hc : c.isDigit = true) : isspace c = false := by
  by_contra hs
  simp only [isspace, decide_eq_true_eq, Bool.not_eq_false, mem_cons, not_mem_nil, or_false] at hs
  obtain rfl | rfl | rfl | rfl | rfl | rfl := hs <;> exact absurd hc (by decide)

variable {digits : List Char}

theorem scanSign_append {sign : List Char} (rest : List Char)
    (hsign : sign = [] ∨ sign = ['+'] ∨ sign = ['-']) (hne : digits ≠ [])
    (hdigits : ∀ c ∈ digits, c.isDigit = true) :
    (sign ++ (digits ++ rest)).dropWhile isspace = sign ++ (digits ++ rest) ∧
      scanSign (sign ++ (digits ++ rest)) = (decide (sign = ['-']), digits ++ rest) := by
  obtain ⟨d, ds, rfl⟩ := exists_cons_of_ne_nil hne
  obtain rfl | rfl | rfl := hsign
  · have hd := hdigits d mem_cons_self
    refine ⟨by simp [isspace_of_isDigit hd], ?_⟩
    unfold scanSign
    split
    next heq => cases heq; exact absurd hd (by decide)
    next heq => cases heq; exact absurd hd (by decide)
    next => simp
  · exact ⟨rfl, rfl⟩
  · exact ⟨rfl, rfl⟩

theorem takeWhile_isDigit {rest : List Char} (hdigits : ∀ c ∈ digits, c.isDigit = true)
    (hrest : ∀ c ∈ rest.head?, c.isDigit = false) :
    (digits ++ rest).takeWhile Char.isDigit = digits := by
  rw [takeWhile_append_of_pos hdigits]
  cases rest with
  | nil => simp
  | cons c rest => simp [hrest c rfl]

theorem sscanfHhu_eq_some_iff : sscanfHhu text = some mask ↔
      ∃ white sign digits rest, ReadAs text white sign digits rest ∧ mask = maskOf sign digits := by
  constructor
  · intro h
    obtain ⟨sign, hbody, hsign, hneg⟩ := exists_sign (text.dropWhile isspace)
    simp only [sscanfHhu, hneg, Option.ite_none_left_eq_some, Option.some.injEq] at h
    generalize (scanSign (text.dropWhile isspace)).2 = body at hbody h
    refine ⟨text.takeWhile isspace, sign, body.takeWhile Char.isDigit, body.dropWhile Char.isDigit,
      ⟨?_, fun c => mem_takeWhile_imp, hsign, h.1, fun c => mem_takeWhile_imp, ?_⟩, h.2.symm⟩
    · rw [takeWhile_append_dropWhile, ← hbody, takeWhile_append_dropWhile]
    · intro c hc
      simpa [Option.mem_def.1 hc] using head?_dropWhile_not Char.isDigit body
  · rintro ⟨white, sign, digits, rest, hr, rfl⟩
    obtain ⟨hdrop, hscan⟩ := scanSign_append rest hr.sign hr.some hr.digits
    simp only [sscanfHhu, hr.text, dropWhile_append_of_pos hr.white, hdrop, hscan,
      takeWhile_isDigit hr.digits hr.rest, if_neg hr.some, maskOf, decide_eq_true_eq]

theorem sscanfHhu_digits (hne : digits ≠ []) (hdigits : ∀ c ∈ digits, c.isDigit = true) :
    sscanfHhu digits = some (UInt8.ofNat (Nat.ofDigitChars 10 digits 0)) :=
  sscanfHhu_eq_some_iff.2
    ⟨[], [], digits, [], ⟨by simp, by simp, by simp, hne, hdigits, by simp⟩, rfl⟩

/-- `a/m` gives the network of `a` with the mask `m`. -/
theorem ipv4NetworkFromString_slash (a : UInt32) (mask : UInt8) (hm : mask ≤ 32) :
    ipv4NetworkFromString (dottedQuad a ++ '/' :: Nat.toDigits 10 mask.toNat) =
      .ok ⟨ipv4ApplyNetmask a mask, mask⟩ := by
  refine ipv4NetworkFromString_quad a ?_ hm
  rw [sscanfHhu_digits Nat.toDigits_ne_nil fun c => isDigit_toDigits,
    Nat.ofDigitChars_ten_toDigits, UInt8.ofNat_toNat]

/-- **Membership.** A network `a/m` contains the addresses that agree with `a` in the first `m` bits
exactly if `m` is not 32. -/
theorem network_contains_iff {text : List Char} {a : UInt32} (ha : inetPton text = some a)
    {m : ℕ} (hm : m ≤ 32) :
    (∃ n, ipv4NetworkFromString (text ++ '/' :: Nat.toDigits 10 m) = .ok n ∧ ∀ x,
      ipv4NetworkContains n x = true ↔ x.toNat / 2 ^ (32 - m) = a.toNat / 2 ^ (32 - m)) ↔
      m ≤ 31 := by
  have hmask : (UInt8.ofNat m).toNat = m := UInt8.toNat_ofNat_of_lt (show m < 256 by omega)
  have hnet := ipv4NetworkFromString_slash a (UInt8.ofNat m)
    (UInt8.le_iff_toNat_le.2 (hmask.symm ▸ hm))
  rw [hmask, ← inetPton_eq_some_iff.1 ha] at hnet
  simp only [hnet, Except.ok.injEq, exists_eq_left', ipv4NetworkContains, decide_eq_true_eq]
  constructor
  · intro h
    by_contra hlt
    obtain rfl : m = 32 := by omega
    have hx := (h (a + 1)).1 (by rw [show UInt8.ofNat 32 = 32 from rfl, ipv4ApplyNetmask_32,
      ipv4ApplyNetmask_32])
    rw [Nat.sub_self, pow_zero, Nat.div_one, Nat.div_one, UInt32.toNat_inj] at hx
    exact absurd hx (by simp)
  · intro h x
    rw [← UInt32.toNat_inj, toNat_ipv4ApplyNetmask x (hmask.symm ▸ h),
      toNat_ipv4ApplyNetmask a (hmask.symm ▸ h), hmask]
    exact Nat.mul_left_inj (by positivity)

theorem network_contains_iff_24 :
    (∃ n, ipv4NetworkFromString (dottedQuad 0xc0a80a00 ++ '/' :: Nat.toDigits 10 24) = .ok n ∧
      ∀ x, ipv4NetworkContains n x = true ↔ x.toNat / 2 ^ 8 = 0xc0a80a) ↔ 24 ≤ 31 :=
  network_contains_iff (inetPton_eq_some_iff.2 rfl) (by decide)

theorem host_network_contains_all :
    ∃ n, ipv4NetworkFromString (dottedQuad 0xc0a80a01 ++ '/' :: Nat.toDigits 10 32) = .ok n ∧
      ipv4NetworkContains n 0 = true :=
  ⟨_, ipv4NetworkFromString_slash 0xc0a80a01 32 (by decide), by decide⟩

/-! ## The texts that are accepted -/

/-- A dotted quad, a slash, and a decimal number from 0 to 32. -/
def NetworkText (string : List Char) : Prop :=
  ∃ a digits, string = dottedQuad a ++ '/' :: digits ∧ digits ≠ [] ∧
    (∀ c ∈ digits, c.isDigit = true) ∧ Nat.ofDigitChars 10 digits 0 ≤ 32

/-- A text that `%hhu` reads as a number up to 32 is such a number and nothing else. -/
def PlainMask (after : List Char) : Prop :=
  ∀ white sign digits rest, ReadAs after white sign digits rest → maskOf sign digits ≤ 32 →
    white = [] ∧ sign = [] ∧ rest = [] ∧ Nat.ofDigitChars 10 digits 0 ≤ 32

theorem quad_slash_inj {a' : UInt32} {r' : List Char}
    (h : dottedQuad a ++ '/' :: r = dottedQuad a' ++ '/' :: r') : r = r' := by
  have hdrop (a : UInt32) (r : List Char) :
      (dottedQuad a ++ '/' :: r).dropWhile (· != '/') = '/' :: r := by
    rw [dropWhile_append_of_pos]
    · rfl
    · exact fun c hc => bne_iff_ne.2 fun heq => slash_notMem_dottedQuad a (heq ▸ hc)
  simpa [hdrop] using congrArg (dropWhile (· != '/')) h

theorem ReadAs.of_digits {white sign rest : List Char}
    (hr : ReadAs text white sign digits rest) (hdigits : ∀ c ∈ text, c.isDigit = true) :
    white = [] ∧ sign = [] ∧ rest = [] ∧ digits = text := by
  obtain ⟨rfl, hwhite, hsign, -, -, hrest⟩ := hr
  simp only [mem_append] at hdigits
  obtain rfl : white = [] := by
    refine eq_nil_iff_forall_not_mem.2 fun c hc => ?_
    exact absurd (hwhite c hc) (by rw [isspace_of_isDigit (hdigits c (.inl hc))]; decide)
  obtain rfl : sign = [] := by
    obtain h | rfl | rfl := hsign
    · exact h
    · exact absurd (hdigits '+' (by simp)) (by decide)
    · exact absurd (hdigits '-' (by simp)) (by decide)
  obtain rfl : rest = [] := by
    cases rest with
    | nil => rfl
    | cons c rest => exact absurd (hdigits c (by simp)) (by simp [hrest c rfl])
  simp

/-- **The accepted texts** are the networks in CIDR form exactly if what follows the slash is plain:
`sscanf` accepts white space, a sign, more digits and anything behind the number. -/
theorem network_language_iff (string : List Char) :
    ((∃ n, ipv4NetworkFromString string = .ok n) ↔ NetworkText string) ↔
      ∀ a after, string = dottedQuad a ++ '/' :: after → PlainMask after := by
  constructor
  · rintro h a after rfl white sign digits rest hr hle
    have hscan := sscanfHhu_eq_some_iff.2 ⟨white, sign, digits, rest, hr, rfl⟩
    obtain ⟨a', digits', heq, -, hdigits, hle'⟩ := h.1 ⟨_, ipv4NetworkFromString_quad a hscan hle⟩
    obtain rfl := quad_slash_inj heq
    obtain ⟨hw, hs, hrest, rfl⟩ := hr.of_digits hdigits
    exact ⟨hw, hs, hrest, hle'⟩
  · intro hplain
    constructor
    · rintro ⟨n, hn⟩
      obtain ⟨a, after, rfl, hscan, hle, -⟩ := ipv4NetworkFromString_eq_ok_iff.1 hn
      obtain ⟨white, sign, digits, rest, hr, hmask⟩ := sscanfHhu_eq_some_iff.1 hscan
      obtain ⟨rfl, rfl, rfl, hle'⟩ := hplain a after rfl white sign digits rest hr (hmask ▸ hle)
      refine ⟨a, digits, ?_, hr.some, hr.digits, hle'⟩
      rw [hr.text, nil_append, nil_append, append_nil]
    · rintro ⟨a, digits, rfl, hne, hdigits, hle⟩
      refine ⟨_, ipv4NetworkFromString_quad a (sscanfHhu_digits hne hdigits) ?_⟩
      rw [UInt8.le_iff_toNat_le, UInt8.toNat_ofNat',
        Nat.mod_eq_of_lt (Nat.lt_of_le_of_lt hle (by decide))]
      exact hle

theorem network_trailing_text :
    (∃ n, ipv4NetworkFromString ['1', '.', '2', '.', '3', '.', '4', '/', '8', 'a'] = .ok n) ∧
      ¬ NetworkText ['1', '.', '2', '.', '3', '.', '4', '/', '8', 'a'] := by
  refine ⟨⟨⟨0x01000000, 8⟩, by decide +kernel⟩, ?_⟩
  rintro ⟨a, digits, heq, -, hdigits, -⟩
  have hr := quad_slash_inj (a := 0x01020304) heq
  exact absurd (hdigits 'a' (hr ▸ by simp)) (by decide)

/-! ## Round trips -/

theorem inetNtop_eq_some_iff {size : ℕ} :
    inetNtop a size = some text ↔ (dottedQuad a).length < size ∧ dottedQuad a = text := by
  simp [inetNtop]

/-- The text of an address in an alert is complete, and read back as the address. -/
def Ipv4Shown (a : UInt32) : Prop :=
  ∃ text, tostrIpv4addr a = some text ∧ text = dottedQuad a ∧ ipv4AddrFromString text = .ok a

def NetworkReadBack (n : Ipv4Network) : Prop :=
  ∃ text, ipv4NetworkToString n (ipv4NetworkStringMaxlen + 1) = some text ∧
    ipv4NetworkFromString text = .ok n

theorem ipv4Shown_iff (a : UInt32) : Ipv4Shown a ↔ ∃ o ∈ octets a, o < 100 := by
  rw [← (length_dottedQuad_le a).2]
  constructor
  · rintro ⟨_, htext, -⟩
    exact (inetNtop_eq_some_iff.1 htext).1
  · intro hlen
    refine ⟨_, inetNtop_eq_some_iff.2 ⟨hlen, rfl⟩, rfl, ?_⟩
    rw [ipv4AddrFromString, inetPton_eq_some_iff.2 rfl]

theorem ipv4NetworkToString_eq (hm : n.mask ≤ 32) :
    ipv4NetworkToString n (ipv4NetworkStringMaxlen + 1) =
      some (dottedQuad n.net ++ '/' :: Nat.toDigits 10 n.mask.toNat) := by
  have hlen := (length_dottedQuad_le n.net).1
  have hdigits : (Nat.toDigits 10 n.mask.toNat).length ≤ 2 :=
    (Nat.length_toDigits_le_iff (by decide) (by decide)).2
      ((UInt8.le_iff_toNat_le.1 hm).trans_lt (by decide))
  have hntop : ipv4AddrToString n.net (ipv4NetworkStringMaxlen + 1) = some (dottedQuad n.net) :=
    inetNtop_eq_some_iff.2 ⟨Nat.lt_of_le_of_lt hlen (by decide), rfl⟩
  rw [ipv4NetworkToString, hntop, Option.bind_eq_bind, Option.bind_some, take_of_length_le]
  simp only [length_cons, ipv4NetworkStringMaxlen]
  omega

/-- **Round trips.** The text of an address is complete exactly if an octet has less than three
digits, and a network is read back from its text exactly if its mask is not 32 or its address is 0.
-/
theorem text_round_trips_iff (a : UInt32) {n : Ipv4Network} (hm : n.mask ≤ 32)
    (hn : n.net.toNat % 2 ^ (32 - n.mask.toNat) = 0) :
    (Ipv4Shown a ∧ NetworkReadBack n) ↔
      (∃ o ∈ octets a, o < 100) ∧ (n.mask ≤ 31 ∨ n.net = 0) := by
  obtain ⟨net, mask⟩ := n
  simp only [ipv4Shown_iff, NetworkReadBack, ipv4NetworkToString_eq hm, Option.some.injEq,
    exists_eq_left', ipv4NetworkFromString_slash net mask hm, Except.ok.injEq,
    Ipv4Network.mk.injEq, and_true]
  refine and_congr_right fun _ => ?_
  by_cases h31 : mask ≤ 31
  · refine iff_of_true (UInt32.toNat_inj.1 ?_) (.inl h31)
    rw [toNat_ipv4ApplyNetmask net (UInt8.le_iff_toNat_le.1 h31)]
    exact Nat.div_mul_cancel (Nat.dvd_of_mod_eq_zero hn)
  · obtain rfl : mask = 32 := UInt8.le_antisymm hm (by
      rw [UInt8.le_iff_toNat_le] at h31 ⊢; exact Nat.lt_of_not_le h31)
    rw [ipv4ApplyNetmask_32, or_iff_right h31, eq_comm]

theorem text_round_trips_iff_24 : (Ipv4Shown 0xc0a80a01 ∧ NetworkReadBack ⟨0xc0a80a00, 24⟩) ↔
      (∃ o ∈ octets 0xc0a80a01, o < 100) ∧ ((24 : UInt8) ≤ 31 ∨ (0xc0a80a00 : UInt32) = 0) :=
  text_round_trips_iff 0xc0a80a01 (by decide) (by decide)

theorem long_address_lost : tostrIpv4addr 0xc0a86464 = none := by decide +kernel

end Haka
