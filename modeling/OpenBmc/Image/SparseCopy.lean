import OpenBmc.Image.FilemapRanges
import OpenBmc.Lib.Overlay

/-!
# Sparse copies

`sparse_copy` writes the mapped ranges of a part of the source into the destination. One counter,
`written`, is the position in the part: it is set at the start of a range and counts the chunks. Holes
are not written, so they come out right where the destination has zeros or nothing; at the end of an
existing destination nothing stays nothing.
-/

namespace OpenBmc
namespace Image
namespace Filemap

/-! ### The source -/

/-- The variables of the loop over the chunks of a range, and the positions of the two files. -/
structure Chunks where
  dst : List UInt8
  srcPos : ℕ
  dstPos : ℕ
  chunkSize : ℕ
  read : ℕ
  written : ℕ

/-- The loop over the chunks of a range; it tells whether the whole length was written. -/
def copyChunks (content : List UInt8) (length toRead : ℕ) : ℕ → Chunks → Except Error (Chunks × Bool)
  | 0, _ => .error .steps
  | fuel + 1, s =>
    if s.read < toRead then
      let chunkSize := if s.read + s.chunkSize > toRead then toRead - s.read else s.chunkSize
      let size := if length ≠ 0 ∧ s.written + chunkSize > length then length - s.written else chunkSize
      let chunk := (content.drop s.srcPos).take size
      let s : Chunks := ⟨writeAt 0 s.dst s.dstPos chunk, s.srcPos + chunk.length,
        s.dstPos + chunk.length, chunkSize, s.read + size, s.written + size⟩
      if s.written = length then .ok (s, true) else copyChunks content length toRead fuel s
    else .ok (s, false)

def copyRanges (src : Source) (skip seek length : ℕ) :
    List UInt8 → ℕ → List Range → Except Error (List UInt8)
  | dst, _, [] => .ok dst
  | dst, written, r :: rs =>
    let start := r.first * src.blockSize
    let stop := (r.last + 1).toNat * src.blockSize
    if stop ≤ skip then copyRanges src skip seek length dst written rs
    else
      let start := if start < skip ∧ skip < stop then skip else start
      let written := ((written : ℤ) + (start - skip - written)).toNat
      if length ≠ 0 ∧ length ≤ written then .ok dst
      else do
        let (s, done) ← copyChunks src.content length (stop - start) (stop - start + 1)
          ⟨dst, start, seek + start - skip, 1024 * 1024, 0, written⟩
        if done then .ok s.dst else copyRanges src skip seek length s.dst s.written rs

/-- `sparse_copy`; a destination that does not exist is created with its size. -/
def sparseCopy (backend : Backend) (src : Source) (dst : Option (List UInt8)) (skip seek length : ℕ) :
    Except Error (List UInt8) := do
  let dst := dst.getD
    (List.replicate (if length ≠ 0 then length + seek else src.imageSize + seek - skip) 0)
  let ranges ← backend.getMappedRanges src 0 src.blocksCnt
  copyRanges src skip seek length dst 0 ranges

/-! ### The chunks of a range -/

section Copy
variable {src : Source} {skip seek length : ℕ}

/-- The positions in the destination of the bytes of the source from `lo` up to `hi`. -/
def target (skip seek lo hi : ℕ) : Set ℕ := {j | seek ≤ j ∧ lo ≤ skip + (j - seek) ∧ skip + (j - seek) < hi}

/-- What belongs at a position of the destination. -/
def wanted (src : Source) (skip seek j : ℕ) : UInt8 := byteAt 0 src.content (skip + (j - seek))

theorem mem_target {lo hi j : ℕ} : j ∈ target skip seek lo hi ↔
    seek ≤ j ∧ lo ≤ skip + (j - seek) ∧ skip + (j - seek) < hi := Iff.rfl

/-- A chunk that is read at `pos` and written at the same place of the destination. -/
theorem overlay_chunk {pos size : ℕ} (hpos : skip ≤ pos) (dst : List UInt8) :
    Overlay 0 (wanted src skip seek) (target skip seek pos (min (pos + size) src.imageSize)) dst
      (writeAt 0 dst (seek + (pos - skip)) ((src.content.drop pos).take size)) := by
  have hlen : ((src.content.drop pos).take size).length = min size (src.imageSize - pos) := by
    rw [List.length_take, List.length_drop, Source.imageSize]
  have hset : target skip seek pos (min (pos + size) src.imageSize) =
      {j | seek + (pos - skip) ≤ j ∧
        j < seek + (pos - skip) + ((src.content.drop pos).take size).length} := by
    ext j
    rw [mem_target, Set.mem_ofPred_eq, hlen]
    omega
  rw [hset]
  refine Overlay.writeAt fun i hi => ?_
  have hi' : i < size := by
    rw [hlen] at hi
    omega
  rw [byteAt, List.getElem?_take_of_lt hi', List.getElem?_drop, wanted, byteAt]
  congr 2
  omega

/-- How many bytes of a range are copied. -/
def bytesLeft (length toRead : ℕ) (s : Chunks) : ℕ :=
  if length = 0 then toRead - s.read else min (toRead - s.read) (length - s.written)

theorem copyChunks_eq {toRead : ℕ} (fuel : ℕ) (s : Chunks) (hfuel : toRead < fuel + s.read)
    (hread : s.read ≤ toRead) (hchunk : 0 < s.chunkSize) (hlen : length ≠ 0 → s.written < length)
    (hskip : skip ≤ s.srcPos) (hdst : s.dstPos = seek + (s.srcPos - skip)) :
    ∃ s', copyChunks src.content length toRead fuel s =
        .ok (s', decide (length ≠ 0 ∧ s.written + bytesLeft length toRead s = length)) ∧
      s'.written = s.written + bytesLeft length toRead s ∧
      Overlay 0 (wanted src skip seek)
        (target skip seek s.srcPos (min (s.srcPos + bytesLeft length toRead s) src.imageSize))
        s.dst s'.dst := by
  induction fuel generalizing s with
  | zero => omega
  | succ fuel ih =>
    unfold copyChunks
    by_cases hlt : s.read < toRead
    · set chunkSize := if s.read + s.chunkSize > toRead then toRead - s.read else s.chunkSize with hcs
      set size := if length ≠ 0 ∧ s.written + chunkSize > length then length - s.written else chunkSize
        with hsize
      have hcs_pos : 0 < chunkSize ∧ chunkSize ≤ toRead - s.read := by
        rw [hcs]
        split <;> omega
      have hsize_pos : 0 < size ∧ size ≤ chunkSize ∧ (length ≠ 0 → s.written + size ≤ length) := by
        rw [hsize]
        split
        · next h =>
          have := hlen h.1
          omega
        · omega
      set chunk := (src.content.drop s.srcPos).take size with hchunkdef
      have hclen : chunk.length = min size (src.imageSize - s.srcPos) := by
        rw [hchunkdef, List.length_take, List.length_drop, Source.imageSize]
      set s₁ : Chunks := ⟨writeAt 0 s.dst s.dstPos chunk, s.srcPos + chunk.length,
        s.dstPos + chunk.length, chunkSize, s.read + size, s.written + size⟩ with hs₁
      have hwrite : Overlay 0 (wanted src skip seek)
          (target skip seek s.srcPos (min (s.srcPos + size) src.imageSize)) s.dst s₁.dst := by
        rw [hs₁, hdst]
        exact overlay_chunk hskip s.dst
      rw [if_pos hlt]
      by_cases hdone : s₁.written = length
      · have hleft : bytesLeft length toRead s = size := by
          have : s.written + size = length := hdone
          unfold bytesLeft
          rw [if_neg (by omega)]
          omega
        refine ⟨s₁, ?_, ?_, ?_⟩
        · have hyes : length ≠ 0 ∧ s.written + size = length := ⟨by have : s.written + size = length := hdone; omega, hdone⟩
          rw [hleft, decide_eq_true hyes]
          exact if_pos hdone
        · rw [hleft]
        · rw [hleft]
          exact hwrite
      · have hsum : bytesLeft length toRead s = size + bytesLeft length toRead s₁ := by
          have hne : s.written + size ≠ length := hdone
          unfold bytesLeft
          show _ = size + if length = 0 then toRead - (s.read + size)
            else min (toRead - (s.read + size)) (length - (s.written + size))
          split <;> omega
        obtain ⟨s', hrun, hwritten, hover⟩ := ih s₁ (by show toRead < fuel + (s.read + size); omega)
          (by show s.read + size ≤ toRead; omega) hcs_pos.1
          (fun h0 => by
            have hne : s.written + size ≠ length := hdone
            have := hsize_pos.2.2 h0
            show s.written + size < length
            omega)
          (by show skip ≤ s.srcPos + chunk.length; omega)
          (by show s.dstPos + chunk.length = seek + (s.srcPos + chunk.length - skip); omega)
        refine ⟨s', ?_, ?_, ?_⟩
        · rw [hsum, ← Nat.add_assoc]
          exact (if_neg hdone).trans hrun
        · rw [hwritten, hsum, ← Nat.add_assoc]
        · have hunion : target skip seek s.srcPos (min (s.srcPos + bytesLeft length toRead s)
              src.imageSize) =
              target skip seek s.srcPos (min (s.srcPos + size) src.imageSize) ∪
                target skip seek s₁.srcPos (min (s₁.srcPos + bytesLeft length toRead s₁)
                  src.imageSize) := by
            ext j
            have hpos₁ : s₁.srcPos = s.srcPos + min size (src.imageSize - s.srcPos) := by
              rw [← hclen]
            rw [Set.mem_union, mem_target, mem_target, mem_target, hsum, hpos₁]
            omega
          rw [hunion]
          exact hwrite.trans hover
    · have hzero : bytesLeft length toRead s = 0 := by
        unfold bytesLeft
        split <;> omega
      refine ⟨s, ?_, ?_, ?_⟩
      · rw [if_neg hlt, hzero, decide_eq_false]
        rintro ⟨h0, heq⟩
        have := hlen h0
        omega
      · rw [hzero, Nat.add_zero]
      · have hempty : target skip seek s.srcPos (min (s.srcPos + bytesLeft length toRead s)
            src.imageSize) = ∅ := by
          ext j
          rw [mem_target, hzero, Set.mem_empty_iff_false, iff_false]
          rintro ⟨h1, h2, h3⟩
          omega
        rw [hempty]
        exact Overlay.refl

/-! ### All ranges -/

/-- Where the part that is copied ends in the source. -/
def partEnd (src : Source) (skip length : ℕ) : ℕ := if length = 0 then src.imageSize else skip + length

/-- The positions in the destination whose byte of the source lies in one of the ranges. -/
def covered (src : Source) (skip seek stop : ℕ) (rs : List Range) : Set ℕ :=
  {j | j ∈ target skip seek skip stop ∧ ∃ r ∈ rs, r.Has ((skip + (j - seek)) / src.blockSize)}

theorem has_iff {r : Range} (h : (r.first : ℤ) ≤ r.last + 1) {x : ℕ} : r.Has (x / src.blockSize) ↔
    r.first * src.blockSize ≤ x ∧ x < (r.last + 1).toNat * src.blockSize := by
  have hbs := src.blockSize_pos
  rw [← Nat.le_div_iff_mul_le hbs, ← Nat.div_lt_iff_lt_mul hbs]
  unfold Range.Has
  omega

theorem copyRanges_ok (hpart : partEnd src skip length ≤ src.imageSize) (rs : List Range)
    (hb : ∀ r ∈ rs, (r.first : ℤ) ≤ r.last + 1)
    (hinc : rs.Pairwise fun r r' => r.last < r'.first) (dst : List UInt8) (written : ℕ) :
    ∃ dst', copyRanges src skip seek length dst written rs = .ok dst' ∧
      Overlay 0 (wanted src skip seek) (covered src skip seek (partEnd src skip length) rs) dst dst' := by
  induction rs generalizing dst written with
  | nil =>
    refine ⟨dst, rfl, ?_⟩
    have hempty : covered src skip seek (partEnd src skip length) [] = ∅ := by
      ext j
      simp [covered]
    rw [hempty]
    exact Overlay.refl
  | cons r rs ih =>
    obtain ⟨hr, hrs⟩ := List.forall_mem_cons.1 hb
    obtain ⟨hlater, hinc⟩ := List.pairwise_cons.1 hinc
    have hcons : ∀ j, j ∈ covered src skip seek (partEnd src skip length) (r :: rs) ↔
        (j ∈ target skip seek skip (partEnd src skip length) ∧
          r.Has ((skip + (j - seek)) / src.blockSize)) ∨
        j ∈ covered src skip seek (partEnd src skip length) rs := by
      intro j
      simp only [covered, Set.mem_ofPred_eq, List.exists_mem_cons_iff, and_or_left]
    -- The bytes of the later ranges lie behind this one.
    have hbehind : ∀ j, j ∈ covered src skip seek (partEnd src skip length) rs →
        (r.last + 1).toNat * src.blockSize ≤ skip + (j - seek) := by
      rintro j ⟨-, r', hr', hhas⟩
      have hle := ((has_iff (hrs r' hr')).1 hhas).1
      have hstop : (r.last + 1).toNat ≤ r'.first := by
        have := hlater r' hr'
        omega
      exact (Nat.mul_le_mul_right _ hstop).trans hle
    have horder : r.first * src.blockSize ≤ (r.last + 1).toNat * src.blockSize :=
      Nat.mul_le_mul_right _ (by omega)
    unfold copyRanges
    simp only [has_iff hr, mem_target] at hcons
    set start := r.first * src.blockSize
    set stop := (r.last + 1).toNat * src.blockSize
    by_cases hbefore : stop ≤ skip
    · obtain ⟨dst', hrun, hover⟩ := ih hrs hinc dst written
      refine ⟨dst', by rw [if_pos hbefore]; exact hrun, ?_⟩
      have hset : covered src skip seek (partEnd src skip length) (r :: rs) =
          covered src skip seek (partEnd src skip length) rs := by
        ext j
        rw [hcons]
        exact or_iff_right fun h => by omega
      rwa [hset]
    · rw [if_neg hbefore]
      have hmax : (if start < skip ∧ skip < stop then skip else start) = max start skip := by
        split <;> omega
      have hwritten : ((written : ℤ) + ((max start skip : ℕ) - skip - written)).toNat =
          max start skip - skip := by omega
      simp only [hmax, hwritten]
      by_cases hfull : length ≠ 0 ∧ length ≤ max start skip - skip
      · refine ⟨dst, if_pos hfull, ?_⟩
        have hempty : covered src skip seek (partEnd src skip length) (r :: rs) = ∅ := by
          ext j
          rw [hcons, Set.mem_empty_iff_false, iff_false]
          have hend : partEnd src skip length = skip + length := if_neg hfull.1
          rintro (h | h)
          · omega
          · have h1 := hbehind j h
            have h2 := mem_target.1 h.1
            omega
        rw [hempty]
        exact Overlay.refl
      · rw [if_neg hfull]
        obtain ⟨s, hrun, hwr, hover⟩ := @copyChunks_eq src skip seek length
          (stop - max start skip) (stop - max start skip + 1)
          ⟨dst, max start skip, seek + max start skip - skip, 1024 * 1024, 0, max start skip - skip⟩
          (by show _ < _ + 0; omega) (Nat.zero_le _) (by show 0 < 1024 * 1024; omega)
          (fun h0 => by show max start skip - skip < length; omega) (le_max_right _ _)
          (by show seek + max start skip - skip = seek + (max start skip - skip); omega)
        simp only [hrun, bind, Except.bind]
        set s₀ : Chunks :=
          ⟨dst, max start skip, seek + max start skip - skip, 1024 * 1024, 0, max start skip - skip⟩
        -- The range ends at its last block, or where the part ends.
        have hleft : min (max start skip + bytesLeft length (stop - max start skip) s₀) src.imageSize =
            min stop (partEnd src skip length) := by
          unfold partEnd at hpart ⊢
          show min (max start skip + if length = 0 then stop - max start skip - 0
            else min (stop - max start skip - 0) (length - (max start skip - skip))) src.imageSize = _
          by_cases h0 : length = 0
          · rw [if_pos h0] at hpart ⊢
            rw [if_pos h0]
            omega
          · rw [if_neg h0] at hpart ⊢
            rw [if_neg h0]
            omega
        have hown : target skip seek (max start skip)
            (min (max start skip + bytesLeft length (stop - max start skip) s₀) src.imageSize) ∪
              covered src skip seek (partEnd src skip length) rs =
                covered src skip seek (partEnd src skip length) (r :: rs) := by
          ext j
          rw [hcons, Set.mem_union, mem_target, hleft]
          refine or_congr_left ?_
          omega
        by_cases hdone : length ≠ 0 ∧
            max start skip - skip + bytesLeft length (stop - max start skip) s₀ = length
        · refine ⟨s.dst, by rw [decide_eq_true hdone]; rfl, ?_⟩
          have hnone : covered src skip seek (partEnd src skip length) rs = ∅ := by
            ext j
            rw [Set.mem_empty_iff_false, iff_false]
            intro h
            have h1 := hbehind j h
            have h2 := mem_target.1 h.1
            have hend : partEnd src skip length = skip + length := if_neg hdone.1
            omega
          rw [← hown, hnone, Set.union_empty]
          exact hover
        · obtain ⟨dst', hrun', hover'⟩ := ih hrs hinc s.dst s.written
          refine ⟨dst', by rw [decide_eq_false hdone]; exact hrun', ?_⟩
          rw [← hown]
          exact hover.trans hover'

/-! ### Exact copies -/

/-- How many bytes are asked for. -/
def partLength (src : Source) (skip length : ℕ) : ℕ := partEnd src skip length - skip

/-- The mapped ranges of the source are told exactly, and the copy has every byte that was asked for in
its place and every other byte as before. -/
def CopiesExactly (backend : Backend) (src : Source) (dst : Option (List UInt8))
    (skip seek length : ℕ) : Prop :=
  (∃ ranges, backend.getMappedRanges src 0 src.blocksCnt = .ok ranges ∧
    Exact (backend.IsMapped src) 0 src.blocksCnt ranges) ∧
  ∃ dst', sparseCopy backend src dst skip seek length = .ok dst' ∧
    (∀ i < partLength src skip length, dst'[seek + i]? = src.content[skip + i]?) ∧
    ∀ j < (dst.getD []).length, j < seek ∨ seek + partLength src skip length ≤ j →
      dst'[j]? = (dst.getD [])[j]?

theorem not_mapped_of_not_isMapped {backend : Backend} {b : ℕ} (h : ¬ backend.IsMapped src b) :
    ¬ Mapped src.extents b := by
  cases backend with
  | nobmap => exact absurd trivial h
  | seek => exact h
  | fiemap => exact h

theorem isMapped_of_mapped {backend : Backend} {b : ℕ} (h : Mapped src.extents b) :
    backend.IsMapped src b := by
  by_contra hnot
  exact not_mapped_of_not_isMapped hnot h

theorem partEnd_le (hpart : skip + length ≤ src.imageSize) :
    skip ≤ partEnd src skip length ∧ partEnd src skip length ≤ src.imageSize := by
  unfold partEnd
  split <;> omega

/-- What the mapped blocks are written over: the destination, or zeros when there was none. -/
def before (src : Source) (dst : Option (List UInt8)) (skip seek length : ℕ) : List UInt8 :=
  dst.getD (List.replicate (if length ≠ 0 then length + seek else src.imageSize + seek - skip) 0)

theorem byteAt_before {dst : Option (List UInt8)} (j : ℕ) :
    byteAt 0 (before src dst skip seek length) j = byteAt 0 (dst.getD []) j := by
  cases dst with
  | some dst => rfl
  | none =>
    show byteAt 0 (List.replicate _ 0) j = byteAt 0 [] j
    rw [byteAt, List.getElem?_replicate]
    by_cases hj : j < if length ≠ 0 then length + seek else src.imageSize + seek - skip
    · rw [if_pos hj]
      rfl
    · rw [if_neg hj]
      rfl

theorem length_before_none (hpart : skip + length ≤ src.imageSize) :
    (before src none skip seek length).length = seek + partLength src skip length := by
  show (List.replicate _ 0).length = _
  rw [List.length_replicate]
  unfold partLength partEnd
  by_cases h0 : length = 0
  · rw [if_neg (not_not_intro h0), if_pos h0]
    omega
  · rw [if_pos h0, if_neg h0]
    omega

/-- The copy lays the mapped bytes of the part over the destination. -/
theorem sparseCopy_overlay {backend : Backend} {dst : Option (List UInt8)} {ranges : List Range}
    (hpart : skip + length ≤ src.imageSize)
    (hrun : backend.getMappedRanges src 0 src.blocksCnt = .ok ranges)
    (hex : Exact (backend.IsMapped src) 0 src.blocksCnt ranges) :
    ∃ dst', sparseCopy backend src dst skip seek length = .ok dst' ∧
      Overlay 0 (wanted src skip seek)
        {j | j ∈ target skip seek skip (partEnd src skip length) ∧
          backend.IsMapped src ((skip + (j - seek)) / src.blockSize)}
        (before src dst skip seek length) dst' := by
  obtain ⟨-, hend⟩ := partEnd_le hpart
  obtain ⟨dst', hcopy, hover⟩ := @copyRanges_ok src skip seek length hend ranges
    (fun r hr => (hex.bounds r hr).2) hex.increasing (before src dst skip seek length) 0
  refine ⟨dst', by simp only [sparseCopy, hrun, bind, Except.bind]; exact hcopy, ?_⟩
  have hset : covered src skip seek (partEnd src skip length) ranges =
      {j | j ∈ target skip seek skip (partEnd src skip length) ∧
        backend.IsMapped src ((skip + (j - seek)) / src.blockSize)} := by
    ext j
    refine and_congr_right fun hj => ?_
    rw [hex.covers]
    have hlt : (skip + (j - seek)) / src.blockSize < src.blocksCnt :=
      Source.lt_blocksCnt.2 ((Nat.div_mul_le_self _ _).trans_lt (hj.2.2.trans_le hend))
    exact ⟨fun h => h.2.2, fun h => ⟨Nat.zero_le _, hlt, h⟩⟩
  rwa [← hset]

/-- Two files agree at a position that both reach. -/
theorem getElem?_eq_of_byteAt {a b : List UInt8} {i j : ℕ} (hi : i < a.length) (hj : j < b.length)
    (h : byteAt 0 a i = byteAt 0 b j) : a[i]? = b[j]? := by
  rw [byteAt, byteAt, List.getElem?_eq_getElem hi, List.getElem?_eq_getElem hj] at h
  rw [List.getElem?_eq_getElem hi, List.getElem?_eq_getElem hj]
  exact congrArg some h

/-- A copy is exact when the back end finds a block, if it has to, and the destination reaches as far as the
part or the last byte of the part is mapped. -/
theorem copiesExactly_iff {backend : Backend} {src : Source} {dst : Option (List UInt8)}
    {skip seek length : ℕ} (hpart : skip + length ≤ src.imageSize)
    (hzero : ∀ i < partLength src skip length, (dst.getD [])[seek + i]?.getD 0 = 0) :
    CopiesExactly backend src dst skip seek length ↔
      (backend = .fiemap → ∃ b < src.blocksCnt, Mapped src.extents b) ∧
        (dst = none ∨ partLength src skip length = 0 ∨
          seek + partLength src skip length ≤ (dst.getD []).length ∨
            backend.IsMapped src ((skip + partLength src skip length - 1) / src.blockSize)) := by
  obtain ⟨hskip, hend⟩ := partEnd_le hpart
  have hlen : skip + partLength src skip length = partEnd src skip length := by
    unfold partLength
    omega
  by_cases hfound : backend = .fiemap → ∃ b < src.blocksCnt, Mapped src.extents b
  · obtain ⟨ranges, hrun, hex⟩ := @getMappedRanges_exact src backend 0 src.blocksCnt
      (by omega) fun hb => by
        obtain ⟨b, hb, hm⟩ := hfound hb
        exact ⟨b, Nat.zero_le _, by omega, hm⟩
    rw [Nat.zero_add] at hex
    obtain ⟨dst', hcopy, hover⟩ := @sparseCopy_overlay src skip seek length backend dst ranges hpart hrun hex
    -- The bytes of the part, where the copy reaches.
    have hpartBytes : ∀ i < partLength src skip length,
        byteAt 0 dst' (seek + i) = byteAt 0 src.content (skip + i) := by
      intro i hi
      have htarget : seek + i ∈ target skip seek skip (partEnd src skip length) :=
        ⟨by omega, by omega, by omega⟩
      have hpos : skip + (seek + i - seek) = skip + i := by omega
      by_cases hm : backend.IsMapped src ((skip + i) / src.blockSize)
      · rw [hover.inside (seek + i) ⟨htarget, by rwa [hpos]⟩, wanted, hpos]
      · rw [hover.outside (seek + i) (fun h => hm (hpos ▸ h.2)), byteAt_before, byteAt, hzero i hi]
        exact (src.holes _ (not_mapped_of_not_isMapped hm)).symm
    have hrest : ∀ j < (dst.getD []).length, j < seek ∨ seek + partLength src skip length ≤ j →
        dst'[j]? = (dst.getD [])[j]? := by
      intro j hj hout
      have hlong : j < dst'.length := by
        rw [hover.length]
        cases dst with
        | none => cases hj
        | some dst => exact .inl hj
      refine getElem?_eq_of_byteAt hlong hj ?_
      rw [hover.outside j fun h => ?_, byteAt_before]
      have := mem_target.1 h.1
      omega
    have hiff : CopiesExactly backend src dst skip seek length ↔
        ∀ i < partLength src skip length, seek + i < dst'.length := by
      constructor
      · rintro ⟨-, dst'', hcopy', hbytes, -⟩ i hi
        rw [hcopy] at hcopy'
        cases hcopy'
        have hreach := hbytes i hi
        have hin : skip + i < src.content.length := by
          show skip + i < src.imageSize
          omega
        rw [List.getElem?_eq_getElem hin] at hreach
        exact (List.getElem?_eq_some_iff.1 hreach).1
      · intro hreach
        refine ⟨⟨ranges, hrun, hex⟩, dst', hcopy, fun i hi => ?_, hrest⟩
        refine getElem?_eq_of_byteAt (hreach i hi) ?_ (hpartBytes i hi)
        show skip + i < src.imageSize
        omega
    rw [hiff, and_iff_right hfound]
    set n := partLength src skip length
    by_cases hn : n = 0
    · exact iff_of_true (fun i hi => by omega) (.inr (.inl hn))
    cases dst with
    | none =>
      refine iff_of_true (fun i hi => ?_) (.inl rfl)
      rw [hover.length, length_before_none hpart]
      left
      omega
    | some dst =>
      have hlength : ∀ j, j < dst'.length ↔ j < dst.length ∨ ∃ k, (k ∈ target skip seek skip
          (partEnd src skip length) ∧ backend.IsMapped src ((skip + (k - seek)) / src.blockSize)) ∧
            j ≤ k := hover.length
      have hlast : skip + (seek + (n - 1) - seek) = skip + n - 1 := by omega
      constructor
      · intro hreach
        rcases (hlength _).1 (hreach (n - 1) (by omega)) with hd | ⟨k, ⟨hk, hm⟩, hle⟩
        · refine .inr (.inr (.inl ?_))
          show seek + n ≤ dst.length
          omega
        · have hk' := mem_target.1 hk
          have hkn : k = seek + (n - 1) := by omega
          rw [hkn, hlast] at hm
          exact .inr (.inr (.inr hm))
      · rintro (h | h | h | h) i hi
        · cases h
        · exact absurd h hn
        · have h' : seek + n ≤ dst.length := h
          exact (hlength _).2 (.inl (by omega))
        · refine (hlength _).2 (.inr ⟨seek + (n - 1), ⟨⟨by omega, by omega, by omega⟩, ?_⟩, by omega⟩)
          rwa [hlast]
  · refine iff_of_false ?_ fun h => hfound h.1
    rintro ⟨⟨ranges, hrun, -⟩, -⟩
    obtain ⟨rfl, hnone⟩ := Classical.not_imp.1 hfound
    have hnot : ∀ b, 0 ≤ b → b < 0 + src.blocksCnt → ¬ Mapped src.extents b := by
      intro b _ hb hm
      exact hnone ⟨b, by omega, hm⟩
    rw [getMappedRanges_fiemap_none (by omega) hnot] at hrun
    cases hrun

end Copy

/-! ### Two small files -/

theorem twoBlocks_pos : ∀ e ∈ [(0, 1), (2, 1)], 0 < (e : ℕ × ℕ).2 := by decide

theorem twoBlocks_sorted : [(0, 1), (2, 1)].Pairwise fun e e' : ℕ × ℕ => e.1 + e.2 ≤ e'.1 := by decide

theorem twoBlocks_holes (i : ℕ) (h : ¬ Mapped [(0, 1), (2, 1)] (i / 2)) :
    ([1, 2, 0, 0, 3] : List UInt8)[i]?.getD 0 = 0 := by
  by_cases hi : i < 5
  · have hall : ∀ i < 5, ¬ Mapped [(0, 1), (2, 1)] (i / 2) →
        ([1, 2, 0, 0, 3] : List UInt8)[i]?.getD 0 = 0 := by decide
    exact hall i hi h
  · rw [List.getElem?_eq_none (Nat.not_lt.1 hi)]
    rfl

/-- Two blocks of data, the last of them partial, around a hole. -/
def twoBlocks : Source :=
  ⟨[1, 2, 0, 0, 3], 2, Nat.two_pos, [(0, 1), (2, 1)], twoBlocks_pos, twoBlocks_sorted, twoBlocks_holes⟩

theorem copiesExactly_twoBlocks : CopiesExactly .fiemap twoBlocks (some [7, 0]) 1 1 4 :=
  (copiesExactly_iff (by decide) (by decide)).2 (by decide)

theorem allHole_pos : ∀ e ∈ [], 0 < (e : ℕ × ℕ).2 := by simp

theorem allHole_holes (i : ℕ) (_ : ¬ Mapped [] (i / 1)) : ([0] : List UInt8)[i]?.getD 0 = 0 := by
  cases i <;> rfl

def allHole : Source := ⟨[0], 1, Nat.one_pos, [], allHole_pos, List.Pairwise.nil, allHole_holes⟩

/-- A file without data: the generator of its ranges has no first one to give. -/
theorem allHole_fails : 0 + 0 ≤ allHole.imageSize ∧
    (∀ i < partLength allHole 0 0, ([] : List UInt8)[0 + i]?.getD 0 = 0) ∧
      ¬ CopiesExactly .fiemap allHole none 0 0 0 := by
  refine ⟨Nat.zero_le _, fun i _ => rfl, ?_⟩
  rintro ⟨⟨ranges, hrun, -⟩, -⟩
  have hraise : Backend.fiemap.getMappedRanges allHole 0 allHole.blocksCnt = .error .runtime := by rfl
  rw [hraise] at hrun
  cases hrun

end Filemap
end Image
end OpenBmc
