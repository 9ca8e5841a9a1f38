import Mathlib

/-!
# Mapped blocks of a sparse file

A file has data in some of its blocks and holes elsewhere, which read as zeros. `get_mapped_ranges` tells
the mapped blocks of a part of the file as ranges, in one of three ways: by seeking to data and holes, by
the FIEMAP ioctl, whose extents come in batches and are clipped and merged, or as one range that
takes everything as mapped. Merging starts with `next` on the generator of the ranges, which fails when
there is none.
-/

namespace OpenBmc
namespace Image
namespace Filemap

/-! ### The file -/

/-- Block `b` lies in one of the extents, which are given as their first block and their count. -/
def Mapped (extents : List (ℕ × ℕ)) (b : ℕ) : Prop := ∃ e ∈ extents, e.1 ≤ b ∧ b < e.1 + e.2

instance (extents : List (ℕ × ℕ)) : DecidablePred (Mapped extents) := fun b =>
  inferInstanceAs (Decidable (∃ e ∈ extents, e.1 ≤ b ∧ b < e.1 + e.2))

structure Source where
  content : List UInt8
  blockSize : ℕ
  blockSize_pos : 0 < blockSize
  extents : List (ℕ × ℕ)
  count_pos : ∀ e ∈ extents, 0 < e.2
  sorted : extents.Pairwise fun e e' => e.1 + e.2 ≤ e'.1
  /-- What is not mapped reads as zeros. -/
  holes : ∀ i, ¬ Mapped extents (i / blockSize) → content[i]?.getD 0 = 0

inductive Whence where
  | data
  | hole
  deriving DecidableEq

inductive Error where
  /-- `next` of a generator that yields nothing, inside another generator. -/
  | runtime
  | assertion
  | badBlock
  /-- Not an error of the source: a loop was not given enough steps. -/
  | steps

/-- `(first, last)`. -/
structure Range where
  first : ℕ
  last : ℤ
  deriving DecidableEq

namespace Source
variable (src : Source)

def imageSize : ℕ := src.content.length

def blocksCnt : ℕ := (src.imageSize + src.blockSize - 1) / src.blockSize

/-- The next offset in data or in a hole; the end of the file counts as a hole, and -1 is `none`. -/
def lseek (offset : ℕ) : Whence → Option ℕ
  | .data => (List.range' offset (src.imageSize - offset)).find?
      fun o => Mapped src.extents (o / src.blockSize)
  | .hole =>
    if offset < src.imageSize then
      some (((List.range' offset (src.imageSize - offset)).find?
        fun o => ¬ Mapped src.extents (o / src.blockSize)).getD src.imageSize)
    else none

/-! ### Seeking -/

/-- The loop of `_get_ranges`. -/
def getRanges (limit : ℕ) (whence1 whence2 : Whence) : ℕ → ℕ → Except Error (List Range)
  | 0, _ => .error .steps
  | fuel + 1, stop =>
    match src.lseek stop whence1 with
    | none => .ok []
    | some start =>
      if limit ≤ start ∨ start = src.imageSize then .ok []
      else
        let stop :=
          match src.lseek start whence2 with
          | none => src.blocksCnt * src.blockSize
          | some stop => if stop = src.imageSize then src.blocksCnt * src.blockSize else stop
        let stop := if limit < stop then limit else stop
        (getRanges limit whence1 whence2 fuel stop).map
          (⟨start / src.blockSize, (stop / src.blockSize : ℕ) - 1⟩ :: ·)

/-! ### FIEMAP -/

/-- How many extents fit into the buffer. -/
def fiemapExtentCnt : ℕ := (256 * 1024 - 32) / 56

/-- The extents, as offset and length in bytes, that overlap the blocks. -/
def invokeFiemap (block count : ℕ) : Except Error (List (ℕ × ℕ)) :=
  if src.blocksCnt ≠ 0 ∧ src.blocksCnt ≤ block then .error .badBlock
  else .ok (((src.extents.filter fun e => block < e.1 + e.2 ∧ e.1 < block + count).take
    fiemapExtentCnt).map fun e => (e.1 * src.blockSize, e.2 * src.blockSize))

/-- The inner loop of `_do_get_mapped_ranges` up to block `limit`; without a block when it returns. -/
def walkExtents (block limit : ℕ) : ℕ → List (ℕ × ℕ) → Except Error (List Range × Option ℕ)
  | next, [] => .ok ([], some next)
  | _, (extentStart, extentLen) :: extents =>
    let extentBlock := extentStart / src.blockSize
    let extentCount := extentLen / src.blockSize
    if extentStart % src.blockSize ≠ 0 ∨ extentLen % src.blockSize ≠ 0 then .error .assertion
    else if limit ≤ extentBlock then .ok ([], none)
    else do
      let (ranges, next) ← walkExtents block limit (extentBlock + extentCount) extents
      .ok (⟨max extentBlock block, (min (extentBlock + extentCount) limit : ℕ) - 1⟩ :: ranges, next)

def doGetMappedRanges (start count : ℕ) : ℕ → ℕ → Except Error (List Range)
  | 0, _ => .error .steps
  | fuel + 1, block =>
    if block < start + count then do
      let extents ← src.invokeFiemap block count
      if extents = [] then .ok []
      else do
        let (ranges, next) ← src.walkExtents block (start + count) block extents
        match next with
        | none => .ok ranges
        | some block => (doGetMappedRanges start count fuel block).map (ranges ++ ·)
    else .ok []

def mergeRanges : Range → List Range → List Range
  | prev, [] => [prev]
  | prev, r :: rs =>
    if prev.last = (r.first : ℤ) - 1 then mergeRanges ⟨prev.first, r.last⟩ rs
    else prev :: mergeRanges r rs

end Source

/-! ### The back ends -/

inductive Backend where
  | seek
  | fiemap
  | nobmap
  deriving DecidableEq

def Backend.getMappedRanges (src : Source) (start count : ℕ) : Backend → Except Error (List Range)
  | .seek => src.getRanges (start * src.blockSize + count * src.blockSize) .data .hole (count + 1)
      (start * src.blockSize)
  | .fiemap => do
    match ← src.doGetMappedRanges start count (count + 1) start with
    | [] => .error .runtime
    | r :: rs => .ok (Source.mergeRanges r rs)
  | .nobmap => .ok [⟨start, (start : ℤ) + count - 1⟩]

/-- What a back end takes as mapped. -/
def Backend.IsMapped (src : Source) : Backend → ℕ → Prop
  | .nobmap, _ => True
  | _, b => Mapped src.extents b

instance (src : Source) : (backend : Backend) → DecidablePred (backend.IsMapped src)
  | .nobmap => fun _ => inferInstanceAs (Decidable True)
  | .seek => fun b => inferInstanceAs (Decidable (Mapped src.extents b))
  | .fiemap => fun b => inferInstanceAs (Decidable (Mapped src.extents b))

/-! ### Exact ranges -/

def Range.Has (r : Range) (b : ℕ) : Prop := r.first ≤ b ∧ (b : ℤ) ≤ r.last

/-- The ranges are disjoint and increasing, and cover exactly the blocks from `lo` up to `hi` with
`mapped`. -/
structure Exact (mapped : ℕ → Prop) (lo hi : ℕ) (ranges : List Range) : Prop where
  bounds : ∀ r ∈ ranges, lo ≤ r.first ∧ (r.first : ℤ) ≤ r.last + 1
  increasing : ranges.Pairwise fun r r' => r.last < r'.first
  covers : ∀ b, (∃ r ∈ ranges, r.Has b) ↔ lo ≤ b ∧ b < hi ∧ mapped b

namespace Exact
variable {mapped : ℕ → Prop} {lo hi : ℕ} {ranges : List Range}

theorem nil (h : ∀ b, lo ≤ b → b < hi → ¬ mapped b) : Exact mapped lo hi [] where
  bounds := by simp
  increasing := List.Pairwise.nil
  covers := fun b => by
    refine iff_of_false (by simp) ?_
    rintro ⟨hlo, hhi, hb⟩
    exact h b hlo hhi hb

/-- A range before exact ones. -/
theorem cons {a c : ℕ} (hlo : lo ≤ a) (hac : a ≤ c) (hc : c ≤ hi)
    (hbefore : ∀ b, lo ≤ b → b < a → ¬ mapped b) (hin : ∀ b, a ≤ b → b < c → mapped b)
    (h : Exact mapped c hi ranges) : Exact mapped lo hi (⟨a, (c : ℤ) - 1⟩ :: ranges) where
  bounds := List.forall_mem_cons.2 ⟨⟨hlo, by show (a : ℤ) ≤ (c : ℤ) - 1 + 1; omega⟩, fun r hr =>
    ⟨hlo.trans (hac.trans (h.bounds r hr).1), (h.bounds r hr).2⟩⟩
  increasing := List.pairwise_cons.2 ⟨fun r hr => by
    have hle := (h.bounds r hr).1
    show (c : ℤ) - 1 < r.first
    omega, h.increasing⟩
  covers := fun b => by
    rw [List.exists_mem_cons_iff, h.covers]
    show (a ≤ b ∧ (b : ℤ) ≤ (c : ℤ) - 1) ∨ _ ↔ _
    constructor
    · rintro (⟨hab, hbc⟩ | ⟨hcb, hbh, hb⟩)
      · exact ⟨by omega, by omega, hin b hab (by omega)⟩
      · exact ⟨by omega, hbh, hb⟩
    · rintro ⟨hlb, hbh, hb⟩
      by_cases hba : b < a
      · exact absurd hb (hbefore b hlb hba)
      · by_cases hbc : b < c
        · exact .inl ⟨by omega, by omega⟩
        · exact .inr ⟨by omega, hbh, hb⟩

theorem congr {mapped' : ℕ → Prop} (h : Exact mapped lo hi ranges)
    (hm : ∀ b, lo ≤ b → b < hi → (mapped b ↔ mapped' b)) : Exact mapped' lo hi ranges where
  bounds := h.bounds
  increasing := h.increasing
  covers := fun b => (h.covers b).trans (and_congr_right fun hlo => and_congr_right fun hhi => hm b hlo hhi)

end Exact

end Filemap
end Image
end OpenBmc
