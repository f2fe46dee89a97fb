import Mathlib.Tactic

/-!
# Chunks of a virtual buffer

A virtual buffer is a list of chunks (`struct vbuffer_chunk`). A data chunk designates a slice of
a memory block (`struct vbuffer_data_basic`); a control chunk carries a mark, a selection or a push
node and holds no byte. Chunks and data objects are heap objects: both are named by the address
the allocator gave them, so that two pointers are equal exactly when the addresses are.

`Heap` holds the allocator's next address and the memory blocks. The bytes of a chunk are read
from memory, so two chunks of one block share their bytes.
-/

namespace Haka

open List

/-- The heap: the next free address, and the memory block behind the data object at an address. -/
structure Heap where
  next : ℕ
  mem : ℕ → List UInt8

/-- The object behind a chunk (`struct vbuffer_data`), with its address. A push node names its
stream and the stream chunk it ends, `NULL` for the end node left over by a push into an empty
stream. -/
inductive Data where
  | null
  | basic (addr : ℕ)
  | mark (addr : ℕ) (readonly : Bool)
  | select (addr : ℕ)
  | push (addr : ℕ) (stream : ℕ) (chunk : Option ℕ)
  deriving DecidableEq, Repr

/-- The address of a data object, 0 for `NULL`. -/
def Data.addr : Data → ℕ
  | null => 0
  | basic a => a
  | mark a _ => a
  | select a => a
  | push a _ _ => a

/-- `data->ops == &vbuffer_data_ctl_mark_ops`. -/
def Data.isMark : Data → Bool
  | mark _ _ => true
  | _ => false

/-- `data->ops == &vbuffer_data_ctl_select_ops`. -/
def Data.isSelect : Data → Bool
  | select _ => true
  | _ => false

/-- `data->ops == &vbuffer_data_ctl_push_ops`. -/
def Data.isPush : Data → Bool
  | push _ _ _ => true
  | _ => false

/-- `struct vbuffer_chunk_flags`, without `end`: the end chunk of a buffer is the sentinel of its
list and is a field of its own in `Vbuffer`. -/
structure Flags where
  eof : Bool
  modified : Bool
  writable : Bool
  ctl : Bool
  deriving DecidableEq, Repr

/-- `struct vbuffer_chunk`, without its list links and its reference count. -/
structure Chunk where
  id : ℕ
  flags : Flags
  data : Data
  offset : ℕ
  size : ℕ
  deriving DecidableEq, Repr

namespace Chunk

/-- `vbuffer_chunk_mark_modified`. -/
def markModified (c : Chunk) : Chunk := { c with flags := { c.flags with modified := true } }

/-- The effect of `if (mark_modified) vbuffer_chunk_mark_modified(iter)`. -/
def markIf (mark : Bool) (c : Chunk) : Chunk := if mark then c.markModified else c

/-- `chunk->flags.writable = writable`. -/
def setWritable (writable : Bool) (c : Chunk) : Chunk :=
  { c with flags := { c.flags with writable := writable } }

section

variable (k : Bool) (c : Chunk)

include k c

@[simp] theorem markIf_id : (c.markIf k).id = c.id := by
  cases k <;> rfl

@[simp] theorem markIf_data : (c.markIf k).data = c.data := by
  cases k <;> rfl

@[simp] theorem markIf_offset : (c.markIf k).offset = c.offset := by
  cases k <;> rfl

@[simp] theorem markIf_size : (c.markIf k).size = c.size := by
  cases k <;> rfl

@[simp] theorem markIf_ctl : (c.markIf k).flags.ctl = c.flags.ctl := by
  cases k <;> rfl

@[simp] theorem markIf_writable :
    (c.markIf k).flags.writable = c.flags.writable := by
  cases k <;> rfl

theorem markIf_modified :
    (c.markIf k).flags.modified = (k || c.flags.modified) := by
  cases k <;> rfl

end

/-- The bytes a chunk designates: `size` bytes at `offset` in its block. -/
def bytes (m : ℕ → List UInt8) (c : Chunk) : List UInt8 :=
  ((m c.data.addr).drop c.offset).take c.size

@[simp] theorem bytes_markIf (m : ℕ → List UInt8) (k : Bool) (c : Chunk) :
    (c.markIf k).bytes m = c.bytes m := by
  unfold bytes; rw [markIf_data, markIf_offset, markIf_size]

/-- The slice of a chunk lies inside its memory block. A control chunk has size 0. -/
structure Valid (m : ℕ → List UInt8) (c : Chunk) : Prop where
  inBlock : (c.bytes m).length = c.size
  ctlSize : c.flags.ctl = true → c.size = 0

instance (m : ℕ → List UInt8) (c : Chunk) : Decidable (c.Valid m) :=
  decidable_of_iff ((c.bytes m).length = c.size ∧ (c.flags.ctl = true → c.size = 0))
    ⟨fun h => ⟨h.1, h.2⟩, fun h => ⟨h.inBlock, h.ctlSize⟩⟩

variable {m : ℕ → List UInt8} {c : Chunk}

theorem Valid.markIf (h : c.Valid m) (k : Bool) : (c.markIf k).Valid m :=
  ⟨by rw [bytes_markIf, markIf_size]; exact h.inBlock,
    fun hc => by rw [markIf_size]; exact h.ctlSize (by rwa [markIf_ctl] at hc)⟩

theorem Valid.bytes_of_ctl (h : c.Valid m) (hc : c.flags.ctl = true) : c.bytes m = [] := by
  rw [← length_eq_zero_iff, h.inBlock, h.ctlSize hc]

/-! ## Cutting a chunk in two -/

/-- The first part of a chunk cut at `off`: `iter->size = offset`. -/
def left (c : Chunk) (off : ℕ) : Chunk := { c with size := off }

/-- The second part of a chunk cut at `off`, allocated at address `id`. -/
def right (c : Chunk) (off id : ℕ) : Chunk :=
  { c with id := id, offset := c.offset + off, size := c.size - off }

theorem bytes_left (m : ℕ → List UInt8) {off : ℕ} (h : off ≤ c.size) :
    (c.left off).bytes m = (c.bytes m).take off := by
  unfold bytes left
  rw [take_take, Nat.min_eq_left h]

theorem bytes_right (m : ℕ → List UInt8) (c : Chunk) (off id : ℕ) :
    (c.right off id).bytes m = (c.bytes m).drop off := by
  unfold bytes right
  rw [drop_take, drop_drop]

theorem Valid.left (h : c.Valid m) {off : ℕ} (ho : off ≤ c.size) : (c.left off).Valid m := by
  refine ⟨?_, fun hc => ?_⟩
  · rw [bytes_left m ho, length_take, h.inBlock]
    exact Nat.min_eq_left ho
  · have := h.ctlSize hc
    show off = 0
    omega

theorem Valid.right (h : c.Valid m) (off id : ℕ) : (c.right off id).Valid m := by
  refine ⟨?_, fun hc => ?_⟩
  · rw [bytes_right, length_drop, h.inBlock]
    rfl
  · have := h.ctlSize hc
    show c.size - off = 0
    omega

end Chunk

/-! ## Lists of chunks -/

def bytesOf (m : ℕ → List UInt8) (l : List Chunk) : List UInt8 := l.flatMap (Chunk.bytes m)

def totalSize (l : List Chunk) : ℕ := (l.map Chunk.size).sum

/-- The control chunks of a list, in order, each with its address and its data object. -/
def ctlsOf (l : List Chunk) : List (ℕ × Data) :=
  (l.filter fun c => c.flags.ctl).map fun c => (c.id, c.data)

def idsOf (l : List Chunk) : List ℕ := l.map Chunk.id

section Lists

variable (m : ℕ → List UInt8) (a b : List Chunk) (c : Chunk)

@[simp] theorem bytesOf_nil : bytesOf m [] = [] := rfl

@[simp] theorem bytesOf_cons : bytesOf m (c :: a) = c.bytes m ++ bytesOf m a := rfl

@[simp] theorem bytesOf_append : bytesOf m (a ++ b) = bytesOf m a ++ bytesOf m b := by
  simp [bytesOf]

@[simp] theorem totalSize_nil : totalSize [] = 0 := rfl

@[simp] theorem totalSize_cons : totalSize (c :: a) = c.size + totalSize a := by simp [totalSize]

@[simp] theorem totalSize_append : totalSize (a ++ b) = totalSize a + totalSize b := by simp [totalSize]

@[simp] theorem ctlsOf_nil : ctlsOf [] = [] := rfl

@[simp] theorem ctlsOf_append : ctlsOf (a ++ b) = ctlsOf a ++ ctlsOf b := by simp [ctlsOf]

theorem ctlsOf_cons_ctl (h : c.flags.ctl = true) : ctlsOf (c :: a) = (c.id, c.data) :: ctlsOf a := by
  simp [ctlsOf, h]

theorem ctlsOf_cons_data (h : c.flags.ctl = false) : ctlsOf (c :: a) = ctlsOf a := by
  simp [ctlsOf, h]

@[simp] theorem idsOf_nil : idsOf [] = [] := rfl

@[simp] theorem idsOf_cons : idsOf (c :: a) = c.id :: idsOf a := rfl

@[simp] theorem idsOf_append : idsOf (a ++ b) = idsOf a ++ idsOf b := by simp [idsOf]

theorem mem_idsOf {i : ℕ} : i ∈ idsOf a ↔ ∃ c ∈ a, c.id = i := by simp [idsOf]

end Lists

/-! ## Items -/

/-- What a buffer shows when its memory is left aside: bytes, data chunks that hold none, and
control chunks. -/
inductive Item where
  | byte
  | empty
  | ctl (id : ℕ) (data : Data)
  deriving DecidableEq

def Chunk.items (c : Chunk) : List Item :=
  if c.flags.ctl then [.ctl c.id c.data]
  else if c.size = 0 then [.empty] else replicate c.size .byte

def itemsOf (l : List Chunk) : List Item := l.flatMap Chunk.items

def Item.isCtl : Item → Bool
  | ctl _ _ => true
  | _ => false

def Item.ctl? : Item → Option (ℕ × Data)
  | ctl id data => some (id, data)
  | _ => none

/-- The number of items before and at the `n`-th byte: where `n` bytes from the start end. -/
def afterBytes : List Item → ℕ → ℕ
  | _, 0 => 0
  | [], _ + 1 => 0
  | .byte :: l, n + 1 => 1 + afterBytes l n
  | .empty :: l, n + 1 => 1 + afterBytes l (n + 1)
  | .ctl _ _ :: l, n + 1 => 1 + afterBytes l (n + 1)

@[simp] theorem itemsOf_nil : itemsOf [] = [] := rfl

@[simp] theorem itemsOf_cons (c : Chunk) (l : List Chunk) :
    itemsOf (c :: l) = c.items ++ itemsOf l := rfl

@[simp] theorem itemsOf_append (a b : List Chunk) : itemsOf (a ++ b) = itemsOf a ++ itemsOf b := by
  simp [itemsOf]

theorem ctlsOf_eq_items (l : List Chunk) : ctlsOf l = (itemsOf l).filterMap Item.ctl? := by
  induction l with
  | nil => rfl
  | cons c l ih =>
    rw [itemsOf_cons, filterMap_append, ← ih]
    unfold Chunk.items
    cases hc : c.flags.ctl with
    | true => simp [ctlsOf_cons_ctl _ _ hc, Item.ctl?]
    | false =>
      rw [ctlsOf_cons_data _ _ hc]
      by_cases h0 : c.size = 0 <;> simp [h0, Item.ctl?]

variable {l : List Chunk} {n : ℕ}

theorem totalSize_eq_items (h : ∀ c ∈ l, c.flags.ctl = true → c.size = 0) :
    totalSize l = (itemsOf l).count .byte := by
  induction l with
  | nil => rfl
  | cons c l ih =>
    rw [itemsOf_cons, count_append, totalSize_cons, ih fun d hd => h d (by simp [hd])]
    have hc := h c (by simp)
    unfold Chunk.items
    split_ifs with h1 h2
    · simp [hc h1]
    · simp [h2]
    · simp

@[simp] theorem Chunk.items_markIf (k : Bool) (c : Chunk) : (c.markIf k).items = c.items := by
  cases k <;> rfl

theorem Chunk.size_le_items (c : Chunk) (h : c.flags.ctl = true → c.size = 0) :
    c.size ≤ c.items.length := by
  unfold Chunk.items
  split_ifs with h1 h2
  · simp [h h1]
  · simp [h2]
  · simp

theorem afterBytes_pass {c : Chunk} (l : List Item) (h : c.flags.ctl = true → c.size = 0)
    (hn : c.size < n) : afterBytes (c.items ++ l) n = c.items.length + afterBytes l (n - c.size) := by
  have hrep : ∀ k n, k < n → afterBytes (replicate k .byte ++ l) n = k + afterBytes l (n - k) := by
    intro k
    induction k with
    | zero => simp
    | succ k ih =>
      intro n hn
      obtain ⟨n, rfl⟩ : ∃ n', n = n' + 1 := ⟨n - 1, by omega⟩
      rw [replicate_succ, cons_append, afterBytes, ih n (by omega), Nat.add_sub_add_right]
      omega
  obtain ⟨n, rfl⟩ : ∃ n', n = n' + 1 := ⟨n - 1, by omega⟩
  unfold Chunk.items
  split_ifs with h1 h2
  · simp [afterBytes, h h1]
  · simp [afterBytes, h2]
  · rw [hrep _ _ hn, length_replicate]

theorem afterBytes_stop {c : Chunk} (l : List Item) (h : c.flags.ctl = true → c.size = 0)
    (hn : n ≤ c.size) : afterBytes (c.items ++ l) n = n := by
  have hrep : ∀ k n, n ≤ k → afterBytes (replicate k .byte ++ l) n = n := by
    intro k
    induction k with
    | zero => intro n hn; simp [Nat.le_zero.1 hn, afterBytes]
    | succ k ih =>
      intro n hn
      cases n with
      | zero => simp [afterBytes]
      | succ n =>
        rw [replicate_succ, cons_append, afterBytes, ih n (by omega)]
        omega
  cases n with
  | zero => simp [afterBytes]
  | succ n =>
    unfold Chunk.items
    rw [if_neg fun hc => by have := h hc; omega, if_neg (by omega), hrep _ _ hn]

theorem afterBytes_past {l : List Item} (hn : l.count .byte < n) : afterBytes l n = l.length := by
  induction l generalizing n with
  | nil => cases n <;> rfl
  | cons x l ih =>
    obtain ⟨n, rfl⟩ : ∃ n', n = n' + 1 := ⟨n - 1, by omega⟩
    cases x with
    | byte =>
      rw [count_cons_self] at hn
      rw [afterBytes, ih (by omega), length_cons, Nat.add_comm]
    | empty =>
      rw [afterBytes, ih hn, length_cons, Nat.add_comm]
    | ctl i d =>
      rw [afterBytes, ih hn, length_cons, Nat.add_comm]

theorem length_bytesOf {m : ℕ → List UInt8} (h : ∀ c ∈ l, c.Valid m) :
    (bytesOf m l).length = totalSize l := by
  induction l with
  | nil => rfl
  | cons c l ih =>
    rw [bytesOf_cons, length_append, totalSize_cons, (h c (by simp)).inBlock,
      ih fun d hd => h d (by simp [hd])]

theorem bytesOf_eq_nil {m : ℕ → List UInt8} (h : ∀ c ∈ l, c.Valid m)
    (hc : ∀ c ∈ l, c.flags.ctl = true) : bytesOf m l = [] := by
  induction l with
  | nil => rfl
  | cons c l ih =>
    rw [bytesOf_cons, (h c (by simp)).bytes_of_ctl (hc c (by simp)), nil_append]
    exact ih (fun d hd => h d (by simp [hd])) fun d hd => hc d (by simp [hd])

end Haka
