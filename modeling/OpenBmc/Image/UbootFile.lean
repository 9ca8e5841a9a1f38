import OpenBmc.Image.Norootfs

/-!
# U-Boot in the tarball and in the full image

`doGenerateImageUbootFile` makes the `image-u-boot` of the tarballs. Behind an SPL it puts U-Boot at
`FLASH_UBOOT_SPL_SIZE`, where the full image has it at `FLASH_UBOOT_OFFSET + FLASH_UBOOT_SPL_SIZE`;
and the window of the SPL in the full image ends at `FLASH_UBOOT_SPL_SIZE`, wherever it starts. With
an SPL the two agree exactly when the offset is 0.
-/

namespace OpenBmc
namespace Image
open Py

/-- What the placing of the SPL and U-Boot reads. -/
structure UbootSource where
  ubootOffset : Int
  ubootSplSize : Int
  splBinary : Str
  deployDirImage : Str
  ubootSuffix : Str
  file : Str → Option (List UInt8)

namespace UbootSource
variable (d : UbootSource)

/-- `${DEPLOY_DIR_IMAGE}/u-boot-spl.${UBOOT_SUFFIX}`; `os.path.join` doubles no slash, which names
the same file. -/
def splPath : Str := pathJoin d.deployDirImage ("u-boot-spl.".toList ++ d.ubootSuffix)

def ubootPath : Str := pathJoin d.deployDirImage ("u-boot.".toList ++ d.ubootSuffix)

end UbootSource

/-- The words of an unquoted value in a shell command. -/
def shellWords (s : Str) : List Str :=
  (s.splitOnP fun c => c = ' ' || c = '\t' || c = '\n').filter (· ≠ [])

/-- `[ ! -z ${value} ]`, unquoted: false without a word, and an error of `[` with more than one. -/
def testNonEmpty (value : Str) : Bool := (shellWords value).length = 1

/-- `dd bs=1k conv=notrunc seek=<seek> if=<path> of=<image>`, where a missing image is an empty
one. -/
def dd (d : UbootSource) (path : Str) (seek : Int) (image : List UInt8) :
    Except BuildError (List UInt8) :=
  match d.file path with
  | none => .error (.noFile path)
  | some img => if seek < 0 then .error (.ddFailed seek path)
    else .ok (writeAt 0 image (1024 * seek.toNat) img)

def doGenerateImageUbootFile (d : UbootSource) (imageDst : List UInt8) :
    Except BuildError (List UInt8) := do
  let mut image := imageDst
  let mut ubootOffset := d.ubootOffset
  if testNonEmpty d.splBinary then
    image ← dd d d.splPath d.ubootOffset image
    ubootOffset := d.ubootSplSize
  dd d d.ubootPath ubootOffset image

/-! ### The two ways of placing -/

namespace UbootSource
variable (d : UbootSource)

/-- The files that the shell helper writes, with their offsets. -/
def placements : List (Str × Int) :=
  if testNonEmpty d.splBinary then [(d.splPath, d.ubootOffset), (d.ubootPath, d.ubootSplSize)]
  else [(d.ubootPath, d.ubootOffset)]

def extent (path : Str) (offset : Int) : Extent UInt8 := ⟨1024 * offset.toNat, (d.file path).getD []⟩

/-- The `_append_image` calls for the SPL and U-Boot, with the end of U-Boot's window. -/
def bootComponents (finishKb : Int) : List Component :=
  if d.splBinary ≠ [] then
    [⟨d.splPath, d.ubootOffset, d.ubootSplSize⟩,
      ⟨d.ubootPath, d.ubootOffset + d.ubootSplSize, finishKb⟩]
  else [⟨d.ubootPath, d.ubootOffset, finishKb⟩]

def bootExtents (finishKb : Int) : List (Extent UInt8) :=
  (d.bootComponents finishKb).map fun c => d.extent c.path c.startKb

end UbootSource

/-- The shell helper and a task agree. `full` are the images that the task finishes with, and
`takesSpl` says that it accepts the SPL. -/
structure PlacedAlike (d : UbootSource) (finishKb : Int) (full : List UInt8 → Prop) (takesSpl : Prop) :
    Prop where
  offsets : d.placements = (d.bootComponents finishKb).map fun c => (c.path, c.startKb)
  /-- What stands in the full image stands in `image-u-boot`, at the same offset. -/
  flash : ∀ nor, full nor → ∀ imageDst, ∃ image, doGenerateImageUbootFile d imageDst = .ok image ∧
    ∀ e ∈ d.bootExtents finishKb, e.IntactIn nor → ∀ i, e.Covers i → image[i]? = nor[i]?
  accepted : ∀ spl, d.splBinary ≠ [] → d.file d.splPath = some spl →
    (spl.length : Int) ≤ d.ubootSplSize * 1024 → takesSpl

def Metadata.ubootSource (d : Metadata) : UbootSource where
  ubootOffset := d.ubootOffset
  ubootSplSize := d.ubootSplSize
  splBinary := d.splBinary
  deployDirImage := d.deployDirImage
  ubootSuffix := d.ubootSuffix
  file := d.file

def NorootfsMetadata.ubootSource (d : NorootfsMetadata) : UbootSource where
  ubootOffset := d.ubootOffset
  ubootSplSize := d.ubootSplSize
  splBinary := d.splBinary
  deployDirImage := d.deployDirImage
  ubootSuffix := d.ubootSuffix
  file := d.file

/-- `do_generate_static` agrees with the helper, from any image that is there before. -/
def StaticAlike (d : Metadata) : Prop :=
  PlacedAlike d.ubootSource d.ubootEnvOffset (fun nor => doGenerateStatic d = .ok nor)
    (∀ nor, ∃ nor', appendImage d d.splPath d.ubootOffset d.ubootSplSize nor = .ok nor')

/-- `do_generate_static_norootfs` agrees with the helper. -/
def NorootfsAlike (sha256 : List UInt8 → Str) (d : NorootfsMetadata) : Prop :=
  PlacedAlike d.ubootSource d.manifestOffset
    (fun nor => ∃ old g, doGenerateStaticNorootfs sha256 d old = .ok g ∧ g.norImage = nor)
    (∀ b, ∃ b', appendPartition sha256 "spl" "u-boot" d.splPath (d.file d.splPath) d.ubootOffset
      d.ubootSplSize b = .ok b')

/-- There is no SPL, or `SPL_BINARY` is one word and U-Boot's partition starts the flash. -/
def OffsetNeutral (d : UbootSource) : Prop :=
  d.splBinary = [] ∨ testNonEmpty d.splBinary ∧ d.ubootOffset = 0

/-! ### The helper's writes -/

section Helper
variable {d : UbootSource} {image : List UInt8}

theorem dd_ok {path : Str} {seek : Int} (hf : ∃ img, d.file path = some img) (hs : 0 ≤ seek) :
    dd d path seek image = .ok ((d.extent path seek).write 0 image) := by
  obtain ⟨img, himg⟩ := hf
  rw [dd, himg]
  show (if seek < 0 then _ else _) = _
  rw [if_neg (by omega), Extent.write, UbootSource.extent, himg]
  rfl

/-- The helper writes its placements in order. -/
theorem doGenerateImageUbootFile_eq : doGenerateImageUbootFile d image =
    d.placements.foldlM (fun image p => dd d p.1 p.2 image) image := by
  unfold doGenerateImageUbootFile UbootSource.placements
  split <;> simp [List.foldlM]

theorem doGenerateImageUbootFile_ok (h : ∀ p ∈ d.placements, (∃ img, d.file p.1 = some img) ∧ 0 ≤ p.2) :
    doGenerateImageUbootFile d image =
      .ok (Extent.writeAll 0 image (d.placements.map fun p => d.extent p.1 p.2)) := by
  rw [doGenerateImageUbootFile_eq]
  generalize d.placements = ps at h
  induction ps generalizing image with
  | nil => rfl
  | cons p ps ih =>
    obtain ⟨hf, hs⟩ := h p (by simp)
    rw [List.foldlM_cons, dd_ok hf hs]
    exact ih fun q hq => h q (by simp [hq])

theorem testNonEmpty_ne_nil (h : testNonEmpty d.splBinary) : d.splBinary ≠ [] := by
  intro he
  rw [he] at h
  revert h
  decide

theorem OffsetNeutral.offsets (h : OffsetNeutral d) (finishKb : Int) :
    d.placements = (d.bootComponents finishKb).map fun c => (c.path, c.startKb) := by
  rcases h with h | ⟨h, h0⟩
  · have hno : ¬ testNonEmpty d.splBinary := fun ht => testNonEmpty_ne_nil ht h
    rw [UbootSource.placements, if_neg hno, UbootSource.bootComponents, if_neg (not_not.2 h)]
    rfl
  · simp [UbootSource.placements, UbootSource.bootComponents, h, testNonEmpty_ne_nil h, h0]

theorem offsetNeutral_of_offsets {finishKb : Int}
    (h : d.placements = (d.bootComponents finishKb).map fun c => (c.path, c.startKb)) :
    OffsetNeutral d := by
  by_cases hspl : d.splBinary = []
  · exact .inl hspl
  unfold UbootSource.placements UbootSource.bootComponents at h
  rw [if_pos hspl] at h
  split at h
  · rename_i ht
    simp only [List.map_cons, List.map_nil, List.cons.injEq, Prod.mk.injEq, true_and, and_true] at h
    exact .inr ⟨ht, by omega⟩
  · simp at h

/-- Once the offsets agree, the helper's image holds all that the task was able to place. -/
theorem OffsetNeutral.placedAlike {finishKb : Int} {full : List UInt8 → Prop} {takesSpl : Prop}
    (h : OffsetNeutral d) (hfits : ∀ nor, full nor → ∀ c ∈ d.bootComponents finishKb,
      (∃ img, d.file c.path = some img) ∧ 0 ≤ c.startKb)
    (hapart : ∀ nor, full nor → (d.bootExtents finishKb).Pairwise Extent.Apart)
    (hspl : ∀ spl, d.file d.splPath = some spl → (spl.length : Int) ≤ (d.ubootSplSize - 0) * 1024 →
      d.ubootOffset = 0 → takesSpl) : PlacedAlike d finishKb full takesSpl := by
  refine { offsets := h.offsets finishKb, flash := ?_, accepted := ?_ }
  · intro nor hnor imageDst
    have hwritten : d.placements.map (fun p => d.extent p.1 p.2) = d.bootExtents finishKb := by
      rw [h.offsets finishKb, List.map_map]
      rfl
    refine ⟨_, doGenerateImageUbootFile_ok ?_, fun e he hin i hi => ?_⟩
    · rw [h.offsets finishKb]
      intro p hp
      obtain ⟨c, hc, rfl⟩ := List.mem_map.1 hp
      exact hfits nor hnor c hc
    · rw [hwritten]
      have hintact : e.IntactIn (Extent.writeAll 0 imageDst (d.bootExtents finishKb)) :=
        Extent.intact_writeAll (hapart nor hnor) e he
      rw [Extent.intactIn_iff.1 hintact i hi, Extent.intactIn_iff.1 hin i hi]
  · intro spl hne hf hle
    obtain ⟨-, h0⟩ := h.resolve_left hne
    exact hspl spl hf (by omega) h0

end Helper

/-! ### The two tasks -/

section Static
variable {d : Metadata}

theorem staticAlike_iff : StaticAlike d ↔ OffsetNeutral d.ubootSource := by
  constructor
  · exact fun h => offsetNeutral_of_offsets h.offsets
  intro h
  have hfits : ∀ nor, doGenerateStatic d = .ok nor →
      ∀ c ∈ d.bootComponents ++ d.systemComponents, c.Fits d := fun nor hnor =>
    (doGenerateStatic_eq_ok_iff.1 hnor).1
  refine h.placedAlike (fun nor hnor c hc => ?_)
    (fun nor hnor => pairwise_bootExtents (hfits nor hnor)) fun spl hf hle h0 nor => ?_
  · have hc := hfits nor hnor c (List.mem_append_left _ hc)
    exact ⟨hc.file, hc.start⟩
  · refine ⟨_, (appendImage_eq_ok_iff (c := ⟨d.splPath, d.ubootOffset, d.ubootSplSize⟩)).2 ⟨?_, rfl⟩⟩
    have h0 : d.ubootOffset = 0 := h0
    have hf : d.file d.splPath = some spl := hf
    have hle : (spl.length : Int) ≤ (d.ubootSplSize - 0) * 1024 := hle
    refine ⟨⟨spl, hf⟩, h0.ge, ?_⟩
    show (((d.file d.splPath).getD []).length : Int) ≤ (d.ubootSplSize - d.ubootOffset) * 1024
    rw [hf, h0]
    exact hle

end Static

section Norootfs
variable {sha256 : List UInt8 → Str} {d : NorootfsMetadata}

/-- A file that `_append_image` takes is there, and its bytes stay in their window. -/
theorem appendPartition_fits {partname typename path : Str} {startKb finishKb : Int} {b b' : Build}
    (h : appendPartition sha256 partname typename path (d.file path) startKb finishKb b = .ok b') :
    (∃ img, d.file path = some img) ∧ 0 ≤ startKb ∧
      ((d.ubootSource.extent path startKb).stop : Int) ≤ finishKb * 1024 := by
  obtain ⟨p, e, -, hr, -, hf, h0, hoff, hstop⟩ := appendPartition_ok h
  refine ⟨⟨_, hf⟩, h0, ?_⟩
  have hsize := hr.size
  show ((1024 * startKb.toNat + ((d.file path).getD []).length : Nat) : Int) ≤ _
  rw [hf]
  push_cast
  simp only [Option.getD_some]
  omega

theorem norootfs_boot {old : List UInt8} {g : Generated}
    (h : doGenerateStaticNorootfs sha256 d old = .ok g) :
    (∀ c ∈ d.ubootSource.bootComponents d.manifestOffset,
      (∃ img, d.file c.path = some img) ∧ 0 ≤ c.startKb) ∧
    (d.ubootSource.bootExtents d.manifestOffset).Pairwise Extent.Apart := by
  obtain ⟨b, hb, -⟩ := bindExcept_ok_iff.1 h
  unfold bootImages at hb
  unfold UbootSource.bootExtents UbootSource.bootComponents
  by_cases hspl : d.splBinary ≠ []
  · rw [if_pos hspl] at hb
    rw [if_pos (show d.ubootSource.splBinary ≠ [] from hspl)]
    obtain ⟨b₁, hs, hb⟩ := bindExcept_ok_iff.1 hb
    obtain ⟨hf, h0, hstop⟩ := appendPartition_fits hs
    obtain ⟨hf', h0', -⟩ := appendPartition_fits hb
    constructor
    · simpa using ⟨⟨hf, h0⟩, hf', h0'⟩
    · simp only [List.map_cons, List.map_nil, List.pairwise_cons, List.mem_singleton, forall_eq,
        List.not_mem_nil, false_imp_iff, implies_true, List.Pairwise.nil, and_true]
      refine Extent.apart_of_stop_le ?_
      -- the window of the SPL ends before U-Boot, which starts an offset behind it
      show (d.ubootSource.extent d.splPath d.ubootOffset).stop ≤
        1024 * (d.ubootOffset + d.ubootSplSize).toNat
      omega
  · rw [if_neg hspl] at hb
    rw [if_neg (show ¬ d.ubootSource.splBinary ≠ [] from hspl)]
    obtain ⟨hf, h0, -⟩ := appendPartition_fits hb
    exact ⟨by simpa using ⟨hf, h0⟩, by simp⟩

theorem norootfsAlike_iff : NorootfsAlike sha256 d ↔ OffsetNeutral d.ubootSource := by
  constructor
  · exact fun h => offsetNeutral_of_offsets h.offsets
  intro h
  refine h.placedAlike (fun nor hnor => ?_) (fun nor hnor => ?_) fun spl hf hle h0 b => ?_
  · obtain ⟨old, g, hg, -⟩ := hnor
    exact (norootfs_boot hg).1
  · obtain ⟨old, g, hg, -⟩ := hnor
    exact (norootfs_boot hg).2
  · have h0 : d.ubootOffset = 0 := h0
    have hf : d.file d.splPath = some spl := hf
    have hle : (spl.length : Int) ≤ (d.ubootSplSize - 0) * 1024 := hle
    unfold appendPartition addManifest
    rw [hf, h0]
    simp only
    rw [if_neg (by omega), if_neg (fun hc => absurd hc.1 (by decide))]
    exact ⟨_, if_neg (by omega)⟩

end Norootfs

namespace Sample

/-- The default layout with an SPL, and U-Boot's partition at a given offset. -/
def withSpl (ubootOffset : Int) : Metadata :=
  { metadata 512 with ubootOffset, splBinary := "spl/u-boot-spl.bin".toList }

end Sample

end Image
end OpenBmc
