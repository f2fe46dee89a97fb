import Haka.Lib.Segments
import Haka.Stream.Stream
import Haka.Vbuffer.Select

/-!
# The layout of a stream's data

The data of a stream is a sequence of segments, one for each read chunk and then one for each
chunk still to pop, each ended by its push node. A left-over end node may stand before the first
push node of a stream without read chunks. The chunks are looked at without their `eof`,
`modified` and `writable` flags, which no part of the layout depends on.
-/

namespace Haka

open List Segments

variable {υ : Type}

/-! ## Chunks without their flags -/

/-- A chunk of which only the `ctl` flag is left. -/
def Chunk.core (c : Chunk) : Chunk := { c with flags := ⟨false, false, false, c.flags.ctl⟩ }

def view (l : List Chunk) : List Chunk := l.map Chunk.core

section View

variable (c : Chunk) (a b : List Chunk) (x : Bool)

@[simp] theorem view_nil : view [] = [] := rfl

@[simp] theorem view_cons : view (c :: a) = c.core :: view a := rfl

@[simp] theorem view_append : view (a ++ b) = view a ++ view b := map_append

@[simp] theorem Chunk.core_id : c.core.id = c.id := rfl

@[simp] theorem Chunk.core_data : c.core.data = c.data := rfl

@[simp] theorem Chunk.core_ctl : c.core.flags.ctl = c.flags.ctl := rfl

@[simp] theorem Chunk.core_orFlag : (c.orFlag x).core = c.core := rfl

@[simp] theorem Chunk.core_setEof : (c.setEof x).core = c.core := rfl

@[simp] theorem Chunk.core_setWritable : (c.setWritable x).core = c.core := rfl

@[simp] theorem Chunk.core_orModified (d : Chunk) : (c.orModified d).core = c.core := rfl

@[simp] theorem Chunk.core_keptReadonly : (keptReadonly c).core = c.core := by
  unfold keptReadonly
  split <;> rfl

@[simp] theorem view_map_keptReadonly : view (a.map keptReadonly) = view a := by
  simp [view]

@[simp] theorem idsOf_view : idsOf (view a) = idsOf a := by
  simp [view, idsOf, Chunk.core]

@[simp] theorem bytesOf_view (m : ℕ → List UInt8) : bytesOf m (view a) = bytesOf m a := by
  simp only [bytesOf, view, flatMap_map]
  rfl

theorem Chunk.Valid.of_core {m : ℕ → List UInt8} {c d : Chunk} (hc : c.Valid m)
    (h : c.core = d.core) : d.Valid m := by
  have hd : d.core.Valid m := h ▸ (⟨hc.inBlock, hc.ctlSize⟩ : c.core.Valid m)
  exact ⟨hd.inBlock, hd.ctlSize⟩

end View

theorem Vbuffer.WF.of_view {h : Heap} {b b' : Vbuffer} (hb : b.WF h)
    (hs : (view b'.all).Sublist (view b.all)) (hl : b'.last.flags.ctl = true) : b'.WF h := by
  have hmem : ∀ c ∈ b'.all, ∃ d ∈ b.all, d.core = c.core := by
    intro c hc
    have : c.core ∈ view b.all := hs.subset (mem_map_of_mem hc)
    simpa [view] using this
  refine ⟨?_, fun c hc => ?_, fun c hc => ?_, hl⟩
  · have hn : (idsOf (view b.all)).Nodup := by
      rw [idsOf_view]
      exact hb.nodup
    have hn' : (idsOf (view b'.all)).Nodup := hn.sublist (hs.map Chunk.id)
    rwa [idsOf_view] at hn'
  · obtain ⟨d, hd, he⟩ := hmem c hc
    have hid : d.core.id = c.core.id := by rw [he]
    exact hid ▸ hb.fresh d hd
  · obtain ⟨d, hd, he⟩ := hmem c hc
    exact (hb.valid d hd).of_core he

theorem view_mapChunk {f : Chunk → Chunk} (hf : ∀ c, (f c).core = c.core) (k : Cut) :
    view (k.mapChunk f).toVbuffer.all = view k.toVbuffer.all := by
  obtain ⟨P, Q, e⟩ := k
  cases Q with
  | nil => simp [Cut.mapChunk, Cut.toVbuffer, Vbuffer.all, hf]
  | cons c Q => simp [Cut.mapChunk, Cut.toVbuffer, Vbuffer.all, hf]

theorem removeCtl_view (P after : List Chunk) (ctl last : Chunk) :
    view (vbufferChunkRemoveCtl P ctl after last).toVbuffer.all = view (P ++ after ++ [last]) :=
  view_mapChunk (fun c => Chunk.core_orModified c ctl) _

theorem ids_of_view {b b' : Vbuffer} (h : (view b'.all).Sublist (view b.all)) :
    ∀ i ∈ idsOf b'.all, i ∈ idsOf b.all := by
  intro i hi
  rw [← idsOf_view] at hi ⊢
  exact (h.map Chunk.id).subset hi

theorem view_split {body seg W : List Chunk} {last d : Chunk}
    (h : view (body ++ [last]) = seg ++ d :: W) :
    ∃ Z rest, body = Z ++ rest ∧ view Z = seg ∧ view (rest ++ [last]) = d :: W := by
  obtain ⟨Z, C, hb, hZ, hC⟩ := map_eq_append_iff.1 h
  rcases eq_nil_or_concat C with rfl | ⟨rest, x, rfl⟩
  · simp at hC
  · rw [concat_eq_append, ← append_assoc] at hb
    obtain ⟨rfl, h1⟩ := append_inj' hb rfl
    obtain rfl : last = x := by simpa using h1
    exact ⟨Z, rest, rfl, hZ, by simpa [view] using hC⟩

/-! ## Segments -/

/-- Data that is neither an end chunk's nor that of a push node of the stream. With `foreign`
unset no push node of another stream is allowed either. -/
def Data.isPlain (sid : ℕ) (foreign : Bool) : Data → Bool
  | null => false
  | push _ stream _ => foreign && decide (stream ≠ sid)
  | _ => true

def Data.isLeft (sid : ℕ) : Data → Bool
  | null => true
  | push _ stream chunk => decide (stream = sid) && chunk.isNone
  | _ => false

/-- A chunk of a pushed buffer, or a mark put into the stream. A mark is a control chunk. -/
structure Plain (sid : ℕ) (foreign : Bool) (c : Chunk) : Prop where
  data : c.data.isPlain sid foreign = true
  mark : c.data.isMark = true → c.flags.ctl = true

instance (sid : ℕ) (foreign : Bool) (c : Chunk) : Decidable (Plain sid foreign c) :=
  decidable_of_iff (c.data.isPlain sid foreign = true ∧ (c.data.isMark = true → c.flags.ctl = true))
    ⟨fun h => ⟨h.1, h.2⟩, fun h => ⟨h.data, h.mark⟩⟩

def Data.isForeign (sid : ℕ) : Data → Bool
  | push _ stream _ => decide (stream ≠ sid)
  | _ => false

def IsLeft (sid : ℕ) (c : Chunk) : Prop := c.data.isLeft sid = true ∧ c.flags.ctl = true

/-- A stream chunk, with the bytes it is to give when it still has to be popped. -/
abbrev Entry (υ : Type) := StreamChunk υ × Option (List UInt8)

/-- The push node of a stream chunk. -/
structure IsNode (sid : ℕ) (sc : StreamChunk υ) (c : Chunk) : Prop where
  id : c.id = sc.ctlIter
  ctl : c.flags.ctl = true
  data : c.data = .push sc.ctlData sid (some sc.id)

def Holds (m : ℕ → List UInt8) (e : Entry υ) (l : List Chunk) : Prop :=
  ∀ bs, e.2 = some bs → bytesOf m l = bs

/-- The chunks are segments ended by the push nodes of the entries; what follows the last push node
holds no byte. -/
def StreamSegs (m : ℕ → List UInt8) (sid : ℕ) (foreign : Bool) :
    List (Entry υ) → List Chunk → Prop :=
  Segs (Plain sid foreign) (fun e => IsNode sid e.1) (Holds m)
    fun l => (∀ c ∈ l, Plain sid foreign c) ∧ bytesOf m l = []

def entries (readChunks : List (StreamChunk υ)) (pend : List (StreamChunk υ × List UInt8)) :
    List (Entry υ) :=
  readChunks.map (fun r => (r, none)) ++ pend.map fun p => (p.1, some p.2)

/-- The layout of a stream's data: its segments, and possibly a left-over end node in front, which
has data unless it is the end chunk. -/
def Layout (m : ℕ → List UInt8) (sid : ℕ) (foreign : Bool) (readChunks : List (StreamChunk υ))
    (pend : List (StreamChunk υ × List UInt8)) (l : List Chunk) : Prop :=
  StreamSegs m sid foreign (entries readChunks pend) l ∨
  ∃ V₁ L V₂, l = V₁ ++ L :: V₂ ∧ IsLeft sid L ∧ (L.data = .null → V₂ = []) ∧
    readChunks = [] ∧ (∀ c ∈ V₁, Plain sid foreign c) ∧
    StreamSegs m sid foreign (entries readChunks pend) (V₁ ++ V₂)

section Facts

variable {m : ℕ → List UInt8} {sid : ℕ} {foreign : Bool} {c : Chunk}
  {es : List (Entry υ)} {A X Y B l : List Chunk} {reads : List (StreamChunk υ)}
  {pend : List (StreamChunk υ × List UInt8)}

variable {sc : StreamChunk υ}

theorem IsNode.not_plain (hc : IsNode sid sc c) : ¬Plain sid foreign c := fun hp => by
  have := hp.data
  simp [hc.data, Data.isPlain] at this

theorem IsNode.not_left (hc : IsNode sid sc c) : c.data.isLeft sid = false := by
  simp [hc.data, Data.isLeft]

theorem Plain.not_left (hc : Plain sid foreign c) : c.data.isLeft sid = false := by
  have hp := hc.data
  cases hd : c.data with
  | push a t k =>
    rw [hd] at hp
    simp only [Data.isPlain, Bool.and_eq_true, decide_eq_true_eq] at hp
    simp [Data.isLeft, hp.2]
  | null => simp [hd, Data.isPlain] at hp
  | _ => rfl

theorem IsLeft.not_plain (hc : IsLeft sid c) : ¬Plain sid foreign c := fun hp => by
  simpa [hc.1] using hp.not_left

@[simp] theorem plain_core : Plain sid foreign c.core ↔ Plain sid foreign c :=
  ⟨fun h => ⟨h.data, h.mark⟩, fun h => ⟨h.data, h.mark⟩⟩

theorem plain_keepsKind (sid : ℕ) (foreign : Bool) : KeepsKind (Plain sid foreign) :=
  fun _ _ hdata hctl hp => ⟨hdata ▸ hp.data, by rw [hdata, hctl]; exact hp.mark⟩

theorem plain_view : (∀ c ∈ view l, Plain sid foreign c) ↔ ∀ c ∈ l, Plain sid foreign c := by
  simp [view]

theorem StreamSegs.not_left (h : StreamSegs m sid foreign es l) :
    ∀ c ∈ l, c.data.isLeft sid = false :=
  Segs.mem (fun _ hc => Plain.not_left hc) (fun _ _ hc => IsNode.not_left hc)
    (fun _ hl _ hc => Plain.not_left (hl.1 _ hc)) h

section

variable (hX : ∀ c ∈ X, Plain sid foreign c)
  (hY : ∀ c ∈ Y, Plain sid foreign c)
  (hb : bytesOf m Y = bytesOf m X)

include hX hY hb

theorem StreamSegs.replace (h : StreamSegs m sid foreign es (A ++ X ++ B)) :
    StreamSegs m sid foreign es (A ++ Y ++ B) := by
  refine Segs.replace (fun _ _ hc => IsNode.not_plain hc) hX hY (fun e A B he bs hbs => ?_)
    (fun A ht => ⟨fun c hc => ?_, ?_⟩) h
  · rw [← he bs hbs]
    simp [hb]
  · simp only [mem_append] at hc ht
    rcases hc with (hc | hc) | hc
    · exact ht.1 c (by tauto)
    · exact hY c hc
    · exact ht.1 c (by tauto)
  · have := ht.2
    simp only [bytesOf_append] at this ⊢
    rwa [hb]

/-- **Replacement.** Plain chunks before the end chunk may be replaced by plain chunks with the same
bytes. -/
theorem Layout.replace (hB : B ≠ [])
    (h : Layout m sid foreign reads pend (A ++ X ++ B)) :
    Layout m sid foreign reads pend (A ++ Y ++ B) := by
  rcases h with h | ⟨V1, L, V2, hl, hL, hn, hr, hV, h⟩
  · exact .inl (h.replace hX hY hb)
  · right
    rcases plain_place hX hL.not_plain hl with ⟨B', rfl, rfl⟩ | ⟨A', rfl, rfl⟩
    · refine ⟨A ++ Y ++ B', L, V2, by simp, hL, hn, hr, fun c hc => ?_, ?_⟩
      · simp only [mem_append] at hc hV
        rcases hc with (hc | hc) | hc
        · exact hV c (by tauto)
        · exact hY c hc
        · exact hV c (by tauto)
      · rw [append_assoc _ B' V2] at h ⊢
        exact h.replace hX hY hb
    · refine ⟨V1, L, A' ++ Y ++ B, by simp, hL, fun h0 => ?_, hr, hV, ?_⟩
      · simp [hB] at hn
        exact absurd h0 hn
      · rw [← append_assoc V1, ← append_assoc V1] at h ⊢
        exact h.replace hX hY hb

end

theorem Layout.mem (h : Layout m sid foreign reads pend l) :
    ∀ c ∈ l, Plain sid foreign c ∨ c.flags.ctl = true ∧ c.data.isMark = false := by
  have hnode : ∀ (e : Entry υ) c, IsNode sid e.1 c →
      Plain sid foreign c ∨ c.flags.ctl = true ∧ c.data.isMark = false :=
    fun e c hc => .inr ⟨hc.ctl, by rw [hc.data]; rfl⟩
  have hsegs : ∀ l, StreamSegs m sid foreign (entries reads pend) l →
      ∀ c ∈ l, Plain sid foreign c ∨ c.flags.ctl = true ∧ c.data.isMark = false :=
    fun l hl => Segs.mem (fun _ => .inl) hnode (fun _ ht c hc => .inl (ht.1 c hc)) hl
  rcases h with h | ⟨V1, L, V2, rfl, hL, -, -, -, h⟩
  · exact hsegs l h
  · intro c hc
    simp only [mem_append, mem_cons] at hc
    rcases hc with hc | rfl | hc
    · exact hsegs _ h c (by simp [hc])
    · refine .inr ⟨hL.2, ?_⟩
      cases hd : c.data with
      | mark a ro =>
        have := hL.1
        simp [hd, Data.isLeft] at this
      | _ => rfl
    · exact hsegs _ h c (by simp [hc])

theorem Layout.not_foreign (h : Layout m sid false reads pend l) :
    ∀ c ∈ l, c.data.isForeign sid = false := by
  have hplain : ∀ c, Plain sid false c → c.data.isForeign sid = false := by
    intro c hc
    have hd := hc.data
    cases hcd : c.data with
    | push a t k => simp [hcd, Data.isPlain] at hd
    | _ => rfl
  have hsegs : ∀ l, StreamSegs m sid false (entries reads pend) l →
      ∀ c ∈ l, c.data.isForeign sid = false :=
    fun l hl => Segs.mem hplain (fun _ c hc => by simp [hc.data, Data.isForeign])
      (fun _ ht c hc => hplain c (ht.1 c hc)) hl
  rcases h with h | ⟨V1, L, V2, rfl, hL, -, -, -, h⟩
  · exact hsegs l h
  · intro c hc
    simp only [mem_append, mem_cons] at hc
    rcases hc with hc | rfl | hc
    · exact hsegs _ h c (by simp [hc])
    · have hl := hL.1
      cases hd : c.data with
      | push a t k =>
        rw [hd] at hl
        simp only [Data.isLeft, Bool.and_eq_true, decide_eq_true_eq] at hl
        simp [Data.isForeign, hl.1]
      | _ => rfl
    · exact hsegs _ h c (by simp [hc])

theorem StreamSegs.mem_congr {m' : ℕ → List UInt8} (hm : ∀ c ∈ l, c.bytes m' = c.bytes m)
    (h : StreamSegs m sid foreign es l) : StreamSegs m' sid foreign es l := by
  have hbytes : ∀ t : List Chunk, (∀ c ∈ t, c.bytes m' = c.bytes m) →
      bytesOf m' t = bytesOf m t := fun t ht => flatMap_congr ht
  refine Segs.imp (fun e seg hseg he bs hbs => ?_)
    (fun t ht hb => ⟨hb.1, ?_⟩) hm h
  · rw [hbytes seg hseg, he bs hbs]
  · rw [hbytes t ht, hb.2]

theorem Layout.mem_congr {m' : ℕ → List UInt8} (hm : ∀ c ∈ l, c.bytes m' = c.bytes m)
    (h : Layout m sid foreign reads pend l) : Layout m' sid foreign reads pend l := by
  rcases h with h | ⟨V1, L, V2, rfl, hL, hn, hr, hV, h⟩
  · exact .inl (h.mem_congr hm)
  · refine .inr ⟨V1, L, V2, rfl, hL, hn, hr, hV, h.mem_congr fun c hc => hm c ?_⟩
    simp only [mem_append, mem_cons] at hc ⊢
    tauto

/-- **Growth.** A push appends a segment, after the end chunk made into a left-over end node. -/
theorem Layout.push {body buf : List Chunk} {last «end» node : Chunk}
    (h : Layout m sid foreign reads pend (body ++ [last]))
    (hend : last.data ≠ .null → «end» = last)
    (hnull : last.data = .null → IsLeft sid «end» ∧ «end».data ≠ .null)
    (hbuf : ∀ c ∈ buf, Plain sid foreign c) (hnode : IsNode sid sc node) :
    Layout m sid foreign reads (pend ++ [(sc, bytesOf m buf)]) (body ++ «end» :: buf ++ [node]) := by
  have hsnoc : ∀ l, StreamSegs m sid foreign (entries reads pend) l →
      StreamSegs m sid foreign (entries reads (pend ++ [(sc, bytesOf m buf)])) (l ++ buf ++ [node]) := by
    intro l hl
    have he : entries reads (pend ++ [(sc, bytesOf m buf)]) =
        entries reads pend ++ [(sc, some (bytesOf m buf))] := by simp [entries]
    rw [he]
    refine Segs.snoc hl hbuf hnode (fun t ht => ⟨ht.1, ?_⟩) ⟨by simp, rfl⟩
    intro bs hbs
    rw [bytesOf_append, ht.2]
    exact Option.some.inj hbs
  rcases h with h | ⟨V1, L, V2, hl, hL, hn, hr, hV, h⟩
  · have hlast : last.data ≠ .null := by
      intro h0
      have := h.not_left last (by simp)
      simp [h0, Data.isLeft] at this
    rw [hend hlast]
    left
    simpa using hsnoc _ h
  · right
    rcases eq_nil_or_concat V2 with rfl | ⟨V, x, rfl⟩
    · obtain ⟨rfl, h1⟩ := append_inj' hl rfl
      obtain rfl : last = L := by simpa using h1
      refine ⟨body, «end», buf ++ [node], by simp, ?_, ?_, hr, hV, by simpa using hsnoc _ h⟩
      · by_cases h0 : last.data = .null
        · exact (hnull h0).1
        · rwa [hend h0]
      · intro h0
        by_cases h1 : last.data = .null
        · exact absurd h0 (hnull h1).2
        · rw [hend h1] at h0
          exact absurd h0 h1
    · rw [concat_eq_append, ← cons_append, ← append_assoc] at hl
      obtain ⟨rfl, h1⟩ := append_inj' hl rfl
      obtain rfl : last = x := by simpa using h1
      have hlast : last.data ≠ .null := by
        intro h0
        have := h.not_left last (by simp)
        simp [h0, Data.isLeft] at this
      rw [hend hlast]
      refine ⟨V1, L, V ++ [last] ++ buf ++ [node], by simp, hL, fun h0 => ?_, hr, hV, ?_⟩
      · simpa using hn h0
      · simpa using hsnoc _ h

theorem StreamSegs.bytes (h : StreamSegs m sid foreign (entries [] pend) l)
    (hv : ∀ c ∈ l, c.Valid m) : bytesOf m l = (pend.map Prod.snd).flatten := by
  induction pend generalizing l with
  | nil => exact h.2
  | cons p pend ih =>
    obtain ⟨seg, d, rest, rfl, -, hseg, hd, hrest⟩ := h
    have hd0 := (hv d (by simp)).bytes_of_ctl hd.ctl
    have hb : bytesOf m seg = p.2 := hseg p.2 rfl
    have hr : bytesOf m rest = (pend.map Prod.snd).flatten := ih hrest fun c hc => hv c (by simp [hc])
    simp [hb, hd0, hr]

end Facts

end Haka
