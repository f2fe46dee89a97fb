import Haka.Stream.Pop

/-!
# A stream is a queue

The calls that push to a stream, pop from it, put marks into its data, remove them and finish it
are the inputs of a machine. Over a whole run the popped buffers are the pushed ones, in order and
with their user data, and what was not popped is still held by the stream.

This needs a condition on the pops: while the stream keeps data for its readers, no push node of
another stream may stand before the first mark (`CleanFront`). Without it the erasure of
`_vbuffer_stream_cleanup` forgets a read chunk too early, and its bytes are popped again.
-/

namespace Haka

open Machine

variable {υ : Type}

/-- A call on a stream. -/
inductive StreamCall (υ : Type) where
  | push (buffer : Vbuffer) (userdata : Option υ)
  | pop
  | mark (pos : Iterator) (readonly : Bool)
  | unmark (pos : Iterator)
  | finish

/-- What a call hands over: the bytes and the user data of a successful push or pop. -/
inductive StreamEvent (υ : Type) where
  | pushed (bytes : List UInt8) (userdata : Option υ)
  | popped (bytes : List UInt8) (userdata : Option υ)
  | other
  deriving DecidableEq

def StreamEvent.enq : StreamEvent υ → List (List UInt8 × Option υ)
  | pushed bytes userdata => [(bytes, userdata)]
  | _ => []

def StreamEvent.deq : StreamEvent υ → List (List UInt8 × Option υ)
  | popped bytes userdata => [(bytes, userdata)]
  | _ => []

/-- One call, in the heap its caller has at that moment. -/
def streamStep (σ : Heap × VbufferStream υ) (i : Heap × StreamCall υ) :
    (Heap × VbufferStream υ) × StreamEvent υ :=
  let s := σ.2
  let h := i.1
  match i.2 with
  | .push buffer userdata =>
    let r := vbufferStreamPush h s buffer userdata
    ((r.1, r.2.1), if r.2.2.2.isSome then .pushed (buffer.content h) userdata else .other)
  | .pop =>
    let r := vbufferStreamPop h s
    ((r.1, r.2.1), match r.2.2 with
      | some (buffer, userdata) => .popped (buffer.content r.1) userdata
      | none => .other)
  | .mark pos readonly =>
    let r := vbufferIteratorMark h s.data pos readonly
    ((r.1, { s with data := r.2.1 }), .other)
  | .unmark pos => ((h, { s with data := (vbufferIteratorUnmark s.data pos).1 }), .other)
  | .finish => ((h, vbufferStreamFinish s), .other)

/-- A call as a program makes it: the heap still holds the data of the stream, a pushed buffer is
well formed, apart from the stream and without push node of it, and a mark is inside the data. -/
def CallOk (σ : Heap × VbufferStream υ) (i : Heap × StreamCall υ) : Prop :=
  σ.1.Keeps i.1 σ.2.data.all ∧
  match i.2 with
  | .push buffer _ => buffer.WF i.1 ∧ σ.2.data.Apart buffer ∧ ∀ c ∈ buffer.body, Plain σ.2.id true c
  | .mark pos _ => _vbufferIteratorCheck σ.2.data pos = true → σ.2.data.InRange pos
  | _ => True

def FrontOk (σ : Heap × VbufferStream υ) (i : Heap × StreamCall υ) : Prop :=
  match i.2 with
  | .pop => CleanFront σ.2
  | _ => True

instance (σ : Heap × VbufferStream υ) : ∀ i, Decidable (CallOk σ i)
  | (h, .push b _) => inferInstanceAs (Decidable (σ.1.Keeps h σ.2.data.all ∧ b.WF h ∧
      σ.2.data.Apart b ∧ ∀ c ∈ b.body, Plain σ.2.id true c))
  | (h, .mark pos _) => inferInstanceAs (Decidable (σ.1.Keeps h σ.2.data.all ∧
      (_vbufferIteratorCheck σ.2.data pos = true → σ.2.data.InRange pos)))
  | (h, .pop) | (h, .unmark _) | (h, .finish) =>
    inferInstanceAs (Decidable (σ.1.Keeps h σ.2.data.all ∧ True))

instance (σ : Heap × VbufferStream υ) : ∀ i, Decidable (FrontOk σ i)
  | (_, .pop) => inferInstanceAs (Decidable (CleanFront σ.2))
  | (_, .push _ _) | (_, .mark _ _) | (_, .unmark _) | (_, .finish) =>
    inferInstanceAs (Decidable True)

def HoldsQueue (σ : Heap × VbufferStream υ) (q : List (List UInt8 × Option υ)) : Prop :=
  ∃ pend, Fifo true σ.1 σ.2 pend ∧ q = pend.map fun p => (p.2, p.1.userdata)

theorem streamStep_queue (σ : Heap × VbufferStream υ) (q : List (List UInt8 × Option υ))
    (i : Heap × StreamCall υ) (hq : HoldsQueue σ q) (hi : CallOk σ i ∧ FrontOk σ i) :
    ∃ q', q ++ (streamStep σ i).2.enq = (streamStep σ i).2.deq ++ q' ∧
      HoldsQueue (streamStep σ i).1 q' := by
  obtain ⟨h0, s⟩ := σ
  obtain ⟨h, call⟩ := i
  obtain ⟨pend, hf, rfl⟩ := hq
  obtain ⟨⟨hkeeps, hcall⟩, hfront⟩ := hi
  have hf : Fifo true h s pend := hf.keeps hkeeps
  cases call with
  | push buffer userdata =>
    obtain ⟨hb, ha, hp⟩ := hcall
    cases heof : s.data.last.flags.eof with
    | true =>
      refine ⟨pend.map fun p => (p.2, p.1.userdata), ?_, pend, ?_, rfl⟩
      · simp [streamStep, vbufferStreamPush, heof, StreamEvent.enq, StreamEvent.deq]
      · simpa [streamStep, vbufferStreamPush, heof] using hf
    | false =>
      obtain ⟨h', s', cur, sc, heq, hu, -, hf'⟩ := push_fifo hf ⟨hb, ha, hp⟩ heof userdata
      refine ⟨(pend ++ [(sc, buffer.content h)]).map fun p => (p.2, p.1.userdata), ?_, _, ?_, rfl⟩
      · simp [streamStep, heq, StreamEvent.enq, StreamEvent.deq, hu]
      · simpa [streamStep, heq] using hf'
  | pop =>
    obtain ⟨h', s', out, heq, -, hout⟩ := pop_fifo hf hfront
    rcases hout with ⟨rfl, -, hf'⟩ | ⟨p, pend', b, rfl, rfl, hb, -, hf'⟩
    · refine ⟨pend.map fun p => (p.2, p.1.userdata), ?_, pend, ?_, rfl⟩
      · simp [streamStep, heq, StreamEvent.enq, StreamEvent.deq]
      · simpa [streamStep, heq] using hf'
    · refine ⟨pend'.map fun p => (p.2, p.1.userdata), ?_, pend', ?_, rfl⟩
      · simp [streamStep, heq, StreamEvent.enq, StreamEvent.deq, hb]
      · simpa [streamStep, heq] using hf'
  | mark pos readonly =>
    obtain ⟨h', data, pos', ok, heq, -, -, hf'⟩ := mark_fifo hf hcall readonly
    refine ⟨pend.map fun p => (p.2, p.1.userdata), by simp [streamStep, StreamEvent.enq,
      StreamEvent.deq], pend, ?_, rfl⟩
    simpa [streamStep, heq] using hf'
  | unmark pos =>
    exact ⟨pend.map fun p => (p.2, p.1.userdata), by simp [streamStep, StreamEvent.enq,
      StreamEvent.deq], pend, unmark_fifo hf, rfl⟩
  | finish =>
    exact ⟨pend.map fun p => (p.2, p.1.userdata), by simp [streamStep, StreamEvent.enq,
      StreamEvent.deq], pend, finish_fifo hf, rfl⟩

/-- **Streams are queues.** In every run in which no pop finds a push node of another stream in
front of the readers, the pushed buffers are the popped ones followed by those the stream holds,
byte for byte and with their user data. -/
theorem stream_fifo (h : Heap) (is : List (Heap × StreamCall υ))
    (hcalls : Guarded streamStep (fun σ i => CallOk σ i ∧ FrontOk σ i) (vbufferStreamInit h) is) :
    ∃ q, (run streamStep (vbufferStreamInit h) is).2.flatMap StreamEvent.enq =
        (run streamStep (vbufferStreamInit h) is).2.flatMap StreamEvent.deq ++ q ∧
      HoldsQueue (run streamStep (vbufferStreamInit h) is).1 q := by
  have hinit : HoldsQueue (vbufferStreamInit (υ := υ) h) [] := ⟨[], init_fifo h, rfl⟩
  simpa using run_queue StreamEvent.enq StreamEvent.deq streamStep_queue hinit hcalls

def twoBlocks (next : ℕ) : Heap :=
  ⟨next, fun a => if a = 1 then [97, 98] else if a = 2 then [99] else []⟩

/-- A buffer of one chunk, at address `id`, over a block. -/
def blockBuffer (id addr size : ℕ) : Vbuffer :=
  ⟨[⟨id, ⟨false, false, true, false⟩, .basic addr, 0, size⟩], endChunk (id + 1) true⟩

/-- A buffer pushed, marked for reading, popped while the mark holds its data, unmarked, and a
second buffer pushed and popped. -/
def readRun : List (Heap × StreamCall Unit) :=
  [(twoBlocks 20, .push (blockBuffer 3 1 2) (some ())), (twoBlocks 30, .mark ⟨3, 1, 0, false⟩ true),
    (twoBlocks 40, .pop), (twoBlocks 50, .push (blockBuffer 5 2 1) none),
    (twoBlocks 60, .unmark ⟨32, 0, 0, false⟩), (twoBlocks 70, .pop)]

theorem stream_fifo_readRun :
    (run streamStep (vbufferStreamInit (twoBlocks 10)) readRun).2.flatMap StreamEvent.deq =
      [([97, 98], some ()), ([99], none)] ∧
    ∃ q, (run streamStep (vbufferStreamInit (twoBlocks 10)) readRun).2.flatMap StreamEvent.enq =
        (run streamStep (vbufferStreamInit (twoBlocks 10)) readRun).2.flatMap StreamEvent.deq ++ q ∧
      HoldsQueue (run streamStep (vbufferStreamInit (twoBlocks 10)) readRun).1 q :=
  ⟨by decide +kernel, stream_fifo (twoBlocks 10) readRun (by decide +kernel)⟩

/-- The data of a stream to which two buffers were pushed: it holds that stream's end node and its
push nodes. -/
def chainedBuffer : Heap × Vbuffer :=
  let (h, a) := vbufferCreateFrom ⟨1, fun _ => []⟩ [97]
  let (h, b) := vbufferCreateFrom h [98]
  let (h, t) := vbufferStreamInit (υ := Unit) h
  let (h, t, _, _) := vbufferStreamPush h t a none
  let (h, t, _, _) := vbufferStreamPush h t b none
  (h, t.data)

def chainedHeap (next : ℕ) : Heap :=
  { (vbufferCreateFrom chainedBuffer.1 [99]).1 with next := next }

/-- The data of one stream is pushed to another, marked and popped; then a third buffer is pushed,
the mark removed and the stream popped. -/
def chainedRun : List (Heap × StreamCall Unit) :=
  [(chainedHeap 30, .push chainedBuffer.2 none), (chainedHeap 40, .mark ⟨8, 0, 0, false⟩ true),
    (chainedHeap 50, .pop), (chainedHeap 60, .push (vbufferCreateFrom chainedBuffer.1 [99]).2 none),
    (chainedHeap 70, .unmark ⟨41, 0, 0, false⟩), (chainedHeap 80, .pop)]

/-- The second pop gives the bytes of the first pushed buffer again. -/
theorem chained_stream_repops :
    Guarded streamStep CallOk (vbufferStreamInit (chainedHeap 20)) chainedRun ∧
    (run streamStep (vbufferStreamInit (chainedHeap 20)) chainedRun).2.flatMap StreamEvent.enq =
      [([97, 98], none), ([99], none)] ∧
    (run streamStep (vbufferStreamInit (chainedHeap 20)) chainedRun).2.flatMap StreamEvent.deq =
      [([97, 98], none), ([97, 98, 99], none)] := by
  decide +kernel

end Haka
