import Haka.Vbuffer.Read

/-!
# The sub after a replacement

`vbuffer_replace` moves the sub it was given onto the new data, so that a field can be assigned
again through it. The beginning is the first chunk of the replacement; the end is the chunk behind
the removed range for a sub between two iterators, and for a sized one the length of a sub that has
no length. A replacement without a chunk has its end chunk for beginning, which is freed.
-/

namespace Haka

open List

/-- `vbuffer_setstring`: the new buffer is released afterwards. -/
def vbufferSetstring (h : Heap) (b : Vbuffer) (data : Sub) (str : List UInt8) :
    Heap × Vbuffer × Option Sub :=
  let (h, newbuf) := vbufferCreateFrom h str
  vbufferReplace h b data newbuf

/-- A replacement that succeeds leaves the sub on the new data: its size and bytes are those of `d`,
and one more replacement through the sub replaces just them. -/
structure SubOnNewData (h : Heap) (b : Vbuffer) (lo hi : ℕ) (d : Vbuffer) (h' : Heap) (b' : Vbuffer)
    (data' : Sub) : Prop where
  size : vbufferSubSize b' data' = some (d.content h).length
  read : ∀ n, vbufferSubRead h' b' data' n = (d.content h).take n
  replace : ∀ d₂ : Vbuffer, ∃ h₂ b₂ data₂, vbufferReplace h' b' data' d₂ = (h₂, b₂, some data₂) ∧
    b₂.content h₂ = (b.content h).take lo ++ d₂.content h' ++ (b.content h).drop hi
  setstring : ∀ str, ∃ h₂ b₂ data₂, vbufferSetstring h' b' data' str = (h₂, b₂, some data₂) ∧
    b₂.content h₂ = (b.content h).take lo ++ str ++ (b.content h).drop hi

/-- The length a sized sub gets, cut at the end of the buffer, is the one of the new data. -/
def LengthRight (h : Heap) (b : Vbuffer) (data : Sub) (hi : ℕ) (d : Vbuffer) : Prop :=
  ∀ begin length, data = .sized begin length →
    min (d.last.id % 2 ^ 32) ((d.content h).length + (totalSize b.body - hi)) = (d.content h).length

section Replace

variable {h : Heap} {b d : Vbuffer} {data : Sub} {lo hi : ℕ}

/-- The parts of a successful replacement. -/
structure Replaced (h : Heap) (b : Vbuffer) (lo hi : ℕ) (d : Vbuffer) (h' : Heap) (k : Cut) :
    Prop where
  kept : Kept h h' (k.insert d.body)
  before : bytesOf h.mem k.before = (b.content h).take lo
  after : bytesOf h.mem k.after = (b.content h).drop hi
  ids : ∀ i ∈ idsOf (k.insert d.body).all, i ∈ idsOf d.body ∨ i ∈ idsOf b.all ∨ h.next ≤ i

/-- The sub after a replacement that left the cut `k`. -/
def movedSub (data : Sub) (d : Vbuffer) (k : Cut) : Sub :=
  match data with
  | .sized b _ => .sized (vbufferIteratorUpdate b (Cut.mk [] d.body d.last).chunk.id 0)
      (d.last.id % 2 ^ 32)
  | .between b e => .between (vbufferIteratorUpdate b (Cut.mk [] d.body d.last).chunk.id 0)
      (vbufferIteratorUpdate e k.chunk.id 0)

theorem replace_replaced (hb : b.WF h) (hw : b.Writable) (hc : b.Covers data lo hi) (hd : d.WF h)
    (hdw : d.Writable) (ha : b.Apart d) :
    ∃ h' k, vbufferReplace h b data d = (h', k.insert d.body, some (movedSub data d k)) ∧
      Replaced h b lo hi d h' k := by
  obtain ⟨h', ext, k, heq, hr⟩ := extract_removed true hb (fun _ => hw) hc
  have hid : k.markModified.chunk.id = k.chunk.id := by
    obtain ⟨P, Q, e⟩ := k
    cases Q <;> rfl
  have hrep : vbufferReplace h b data d =
      (h', k.markModified.insert d.body, some (movedSub data d k.markModified)) := by
    unfold vbufferReplace movedSub
    rw [heq, hid]
    rfl
  have hkept := replace_kept hb hw hc hd hdw ha
  rw [hrep] at hkept
  refine ⟨h', k.markModified, hrep, hkept, ?_, ?_, ?_⟩
  · rw [Cut.markModified, Cut.mapChunk_before]
    exact hr.before
  · rw [Cut.markModified, Cut.mapChunk_bytes _ remarks_markModified]
    exact hr.after
  · intro i hi
    have hall : i ∈ idsOf d.body ∨ i ∈ idsOf k.markModified.toVbuffer.all := by
      simp only [Cut.insert, Cut.toVbuffer, Vbuffer.all_mk, idsOf_append, mem_append] at hi ⊢
      tauto
    refine hall.imp_right fun hk => ?_
    rw [Cut.markModified, Cut.mapChunk_ids remarks_markModified] at hk
    exact hr.news i hk

namespace Replaced

variable {h' : Heap} {k : Cut}

section

variable (hr : Replaced h b lo hi d h' k)

include hr

theorem totalSize_before (hc : b.Covers data lo hi)
    (hb : b.WF h) : totalSize k.before = lo := by
  have hvalid : ∀ c ∈ k.before, c.Valid h.mem := fun c hc => by
    rw [← hr.kept.mem]
    exact hr.kept.wf.valid c (by simp [Cut.insert, Vbuffer.all, hc])
  rw [← length_bytesOf hvalid, hr.before, length_take, hb.length_content]
  exact Nat.min_eq_left (hc.le.1.trans hc.le.2)

theorem totalSize_after (hb : b.WF h) :
    totalSize k.after = totalSize b.body - hi := by
  have hvalid : ∀ c ∈ k.after, c.Valid h.mem := fun c hc => by
    rw [← hr.kept.mem]
    exact hr.kept.wf.valid c (by simp [Cut.insert, Vbuffer.all, hc])
  rw [← length_bytesOf hvalid, hr.after, length_drop, hb.length_content]

theorem content : (k.insert d.body).content h' =
      (b.content h).take lo ++ d.content h ++ (b.content h).drop hi := by
  unfold Vbuffer.content
  rw [content_insert, hr.kept.mem, hr.before, hr.after]
  rfl

theorem begin_at (hbody : d.body ≠ []) (pos : Iterator) :
    (k.insert d.body).InRange (vbufferIteratorUpdate pos (Cut.mk [] d.body d.last).chunk.id 0) ∧
      (k.insert d.body).offsetOf (vbufferIteratorUpdate pos (Cut.mk [] d.body d.last).chunk.id 0) =
        totalSize k.before := by
  obtain ⟨c, R, hcR⟩ := exists_cons_of_ne_nil hbody
  have hat := inRange_of_cut (P := k.before) (Q := d.body ++ k.after)
    (vbufferIteratorUpdate pos (Cut.mk [] d.body d.last).chunk.id 0) hr.kept.wf
    (by simp [Cut.insert]) (by rw [hcR]; rfl) (Nat.zero_le _)
  exact ⟨hat.1, hat.2.1⟩

theorem end_at (pos : Iterator) :
    (k.insert d.body).InRange (vbufferIteratorUpdate pos k.chunk.id 0) ∧
      (k.insert d.body).offsetOf (vbufferIteratorUpdate pos k.chunk.id 0) =
        totalSize (k.before ++ d.body) + 0 ∧
      _vbufferIteratorFix (k.insert d.body) (vbufferIteratorUpdate pos k.chunk.id 0) =
        (⟨k.before ++ d.body, k.after, k.last⟩, 0) :=
  inRange_of_cut _ hr.kept.wf rfl rfl (Nat.zero_le _)

/-- The bytes the moved sub covers. A sized one goes as far as its length and the buffer do. -/
theorem covers (hb : b.WF h) (hd : d.WF h)
    (hc : b.Covers data lo hi) (hbody : d.body ≠ []) :
    (k.insert d.body).Ordered (movedSub data d k) ∧
      (k.insert d.body).Covers (movedSub data d k) lo (lo + match data with
        | .sized _ _ => min (d.last.id % 2 ^ 32) ((d.content h).length + (totalSize b.body - hi))
        | .between _ _ => (d.content h).length) := by
  have hlo := hr.totalSize_before hc hb
  have hafter := hr.totalSize_after hb
  have hlen := hd.length_content
  cases data with
  | sized pos length =>
    obtain ⟨hin, hofs⟩ := hr.begin_at hbody pos
    refine ⟨trivial, ?_⟩
    have hcov : (k.insert d.body).Covers (movedSub (.sized pos length) d k) _ _ :=
      Vbuffer.Covers.sized hin
    have htotal : totalSize (k.insert d.body).body = lo + (totalSize d.body + totalSize k.after) := by
      simp only [Cut.insert, totalSize_append]
      omega
    rw [hofs, hlo, htotal, Nat.add_min_add_left, hafter, ← hlen] at hcov
    exact hcov
  | between pos «end» =>
    obtain ⟨hin, hofs⟩ := hr.begin_at hbody pos
    obtain ⟨hin', hofs', hfix⟩ := hr.end_at «end»
    have hmem : (Cut.mk [] d.body d.last).chunk.id ∈ idsOf (k.before ++ d.body) := by
      obtain ⟨c, R, hcR⟩ := exists_cons_of_ne_nil hbody
      rw [hcR]
      simp [Cut.chunk]
    have hord : (k.insert d.body).Ordered (movedSub (.between pos «end») d k) := by
      left
      rw [hfix]
      exact hmem
    refine ⟨hord, ?_⟩
    have hreach : (Cut.mk [] d.body d.last).chunk.id ∈
        (k.insert d.body).reach (vbufferIteratorUpdate «end» k.chunk.id 0) := by
      unfold Vbuffer.reach
      rw [hfix]
      exact mem_append_left _ hmem
    have hcov := Vbuffer.Covers.between hin hin' hreach
      (by rw [hofs, hofs', totalSize_append]; omega)
    rw [hofs, hofs', totalSize_append, hlo, ← hlen] at hcov
    exact hcov

theorem size_of_nil (hd : d.WF h) (ha : b.Apart d)
    (hbody : d.body = []) : vbufferSubSize (k.insert d.body) (movedSub data d k) = none := by
  have hlast : d.last ∈ d.all := by simp [Vbuffer.all]
  have hfind : (k.insert d.body).all.find? (fun c => c.id = d.last.id) = none := by
    refine find?_eq_none.2 fun c hc heq => ?_
    have hid : c.id = d.last.id := of_decide_eq_true heq
    rcases hr.ids c.id ((mem_idsOf _).2 ⟨c, hc, rfl⟩) with hin | hin | hge
    · rw [hbody] at hin
      simp at hin
    · exact ha d.last.id ((mem_idsOf _).2 ⟨_, hlast, rfl⟩) (hid ▸ hin)
    · have := hd.fresh _ hlast
      omega
  have hcheck : ∀ pos : Iterator, _vbufferIteratorCheck (k.insert d.body)
      (vbufferIteratorUpdate pos (Cut.mk [] d.body d.last).chunk.id 0) = false := by
    intro pos
    unfold _vbufferIteratorCheck vbufferIteratorUpdate
    simp only [hbody, Cut.chunk, headD_nil] at hfind ⊢
    rw [hfind]
  unfold vbufferSubSize movedSub
  cases data with
  | sized pos length => simp [_vbufferSubCheck, hcheck]
  | between pos «end» => simp [_vbufferSubCheck, hcheck]

theorem subOnNewData (hb : b.WF h) (hc : b.Covers data lo hi)
    (hh : h.Clean) {data' : Sub} (hord : (k.insert d.body).Ordered data')
    (hcov : (k.insert d.body).Covers data' lo (lo + (d.content h).length)) :
    SubOnNewData h b lo hi d h' (k.insert d.body) data' := by
  have hlen : ((b.content h).take lo).length = lo := by
    rw [length_take, hb.length_content]
    exact Nat.min_eq_left (hc.le.1.trans hc.le.2)
  have hcontent : (k.insert d.body).content h' =
      (b.content h).take lo ++ (d.content h ++ (b.content h).drop hi) := by
    rw [hr.content, append_assoc]
  have htake : ((k.insert d.body).content h').take lo = (b.content h).take lo := by
    rw [hcontent, take_left' hlen]
  have hdrop : ((k.insert d.body).content h').drop (lo + (d.content h).length) =
      (b.content h).drop hi := by
    rw [hcontent, ← drop_drop, drop_left' hlen, drop_left]
  have hclean : h'.Clean := hh.mono hr.kept.mem hr.kept.next
  constructor
  · rw [subSize_spec hr.kept.wf hcov hord, Nat.add_sub_cancel_left]
  · intro n
    rw [subRead_spec hr.kept.wf hcov hord, hcontent, drop_left' hlen, Nat.add_sub_cancel_left,
      ← take_take, take_left]
  · intro d2
    obtain ⟨h2, b2, data2, heq, hcon⟩ := replace_content d2 hr.kept.wf hr.kept.writable hcov
    exact ⟨h2, b2, data2, heq, by rw [hcon, htake, hdrop]⟩
  · intro str
    have hnew := createFrom_spec str hclean
    obtain ⟨hwf, hsame⟩ := hnew.others _ hr.kept.wf
    obtain ⟨h2, b2, data2, heq, hcon⟩ := replace_content (vbufferCreateFrom h' str).2 hwf
      hr.kept.writable hcov
    exact ⟨h2, b2, data2, heq, by rw [hcon, hsame, htake, hdrop, hnew.content]⟩

end

end Replaced

/-- **When the sub stays on the new data.** The replacement needs a chunk, and the number found
where the length of a sized sub was expected has to cover the new data and nothing else. -/
theorem replace_keeps_sub_iff (hb : b.WF h) (hw : b.Writable) (hc : b.Covers data lo hi)
    (hd : d.WF h) (hdw : d.Writable) (ha : b.Apart d) (hh : h.Clean) :
    (∃ h' b' data', vbufferReplace h b data d = (h', b', some data') ∧
        SubOnNewData h b lo hi d h' b' data') ↔
      d.body ≠ [] ∧ LengthRight h b data hi d := by
  obtain ⟨h', k, heq, hr⟩ := replace_replaced hb hw hc hd hdw ha
  constructor
  · rintro ⟨h1, b1, data1, heq1, hon⟩
    rw [heq] at heq1
    obtain ⟨rfl, rfl, rfl⟩ : h' = h1 ∧ k.insert d.body = b1 ∧ movedSub data d k = data1 := by
      simpa using heq1
    have hsize := hon.size
    have hbody : d.body ≠ [] := by
      intro hnil
      rw [hr.size_of_nil hd ha hnil] at hsize
      cases hsize
    refine ⟨hbody, ?_⟩
    rintro pos length rfl
    obtain ⟨hord, hcov⟩ := hr.covers hb hd hc hbody
    rw [subSize_spec hr.kept.wf hcov hord, Nat.add_sub_cancel_left] at hsize
    exact Option.some.inj hsize
  · rintro ⟨hbody, hright⟩
    obtain ⟨hord, hcov⟩ := hr.covers hb hd hc hbody
    refine ⟨h', k.insert d.body, movedSub data d k, heq, hr.subOnNewData hb hc hh hord ?_⟩
    cases data with
    | sized pos length =>
      rw [← hright pos length rfl]
      exact hcov
    | between pos «end» => exact hcov

end Replace

/-! ## Examples -/

/-- The heap of `helloBuffer` with the byte "a" in one more block. -/
def helloMoreHeap : Heap :=
  ⟨13, fun a => if a = 1 then [104, 101, 108] else if a = 2 then [108, 111]
    else if a = 10 then [97] else []⟩

/-- The byte "a". -/
def oneBuffer : Vbuffer :=
  ⟨[⟨11, ⟨false, false, true, false⟩, .basic 10, 0, 1⟩], endChunk 12 true⟩

theorem helloBuffer_wf_more : helloBuffer.WF helloMoreHeap := by
  decide

theorem oneBuffer_wf : oneBuffer.WF helloMoreHeap := by
  decide

theorem helloMoreHeap_clean : helloMoreHeap.Clean := by
  intro a ha
  have : 13 ≤ a := ha
  simp only [helloMoreHeap]
  rw [if_neg (by omega), if_neg (by omega), if_neg (by omega)]

/-- Replacing "ell" by "a" through a sub between two iterators. -/
theorem replace_keeps_sub_hello :
    ∃ h' b' data', vbufferReplace helloMoreHeap helloBuffer (vbufferSubCreate helloBuffer 1 (some 3))
        oneBuffer = (h', b', some data') ∧
      SubOnNewData helloMoreHeap helloBuffer 1 4 oneBuffer h' b' data' := by
  have hc : helloBuffer.Covers (vbufferSubCreate helloBuffer 1 (some 3)) 1 4 :=
    subCreate_covers 1 3 helloBuffer_wf_more
  exact (replace_keeps_sub_iff helloBuffer_wf_more helloBuffer_writable hc oneBuffer_wf
    (by unfold Vbuffer.Writable; decide) (by unfold Vbuffer.Apart; decide) helloMoreHeap_clean).2
    ⟨by decide, by rintro pos length hsized; cases hsized⟩

/-- A sized sub on "ell" is on "ao" after "ell" was replaced by "a", since its length became 12; and
replacing by a buffer without chunks leaves a sub that is nowhere. -/
theorem replace_loses_sub :
    helloBuffer.WF helloMoreHeap ∧ helloBuffer.Writable ∧ oneBuffer.WF helloMoreHeap ∧
      helloBuffer.Covers (.sized ⟨3, 1, 0, false⟩ 3) 1 4 ∧
      (∃ h' b' data', vbufferReplace helloMoreHeap helloBuffer (.sized ⟨3, 1, 0, false⟩ 3) oneBuffer =
          (h', b', some data') ∧ vbufferSubSize b' data' = some 2 ∧
        vbufferSubRead h' b' data' 5 = [97, 111]) ∧
      (∃ h' b' data', vbufferReplace helloMoreHeap helloBuffer (vbufferSubCreate helloBuffer 1 (some 3))
          ⟨[], endChunk 12 true⟩ = (h', b', some data') ∧ vbufferSubSize b' data' = none) := by
  have hin : helloBuffer.InRange ⟨3, 1, 0, false⟩ :=
    (inRange_of_cut (P := []) ⟨3, 1, 0, false⟩ helloBuffer_wf_more rfl rfl (by decide)).1
  refine ⟨helloBuffer_wf_more, helloBuffer_writable, oneBuffer_wf, Vbuffer.Covers.sized hin,
    ⟨_, _, _, rfl, by decide +kernel, by decide +kernel⟩, ⟨_, _, _, rfl, by decide +kernel⟩⟩

end Haka
