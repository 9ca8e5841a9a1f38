import OpenBmc.Image.StaticMtd
import OpenBmc.Lib.Wp
import OpenBmc.Py.JsonText

/-!
# The static image without a root file system

`doGenerateStaticNorootfs` writes the SPL (if the machine has one), U-Boot and the FIT image of the
kernel into the `.static.mtd` file and lists them, with the regions it leaves to the running system,
in a JSON manifest, which it writes last. The manifest agrees with the image exactly when the
environment ends before the kernel starts and the read-write file system starts within the flash:
these two sizes are differences of layout variables that nothing checks.
-/

namespace OpenBmc
namespace Image
open Py

/-- What the task reads. The sizes and offsets are in KiB, as `int` reads them, and the versions as
`os-release` has them. -/
structure NorootfsMetadata where
  ubootOffset : Int
  ubootSplSize : Int
  manifestOffset : Int
  ubootEnvOffset : Int
  kernelOffset : Int
  rwfsOffset : Int
  flashSize : Int
  splBinary : Str
  deployDirImage : Str
  imgDeployDir : Str
  ubootSuffix : Str
  imageLinkName : Str
  initramfsCtype : Str
  versionPurpose : Option Str
  machine : Option Str
  compatibleNames : Option Str
  version : Str
  buildId : Str
  extendedVersion : Str
  file : Str → Option (List UInt8)

structure Partition where
  name : Str
  type : Str
  offset : Int
  size : Int
  numNodes : Option Nat
  sha256 : Option Str

structure Manifest where
  info : List (Str × Json)
  partitions : List Partition
  manifestSha256 : Str

namespace Partition

def toJson (p : Partition) : Json :=
  .obj ([("name".toList, .str p.name), ("type".toList, .str p.type), ("offset".toList, .int p.offset),
    ("size".toList, .int p.size)] ++
    (p.numNodes.map fun n => ("num-nodes".toList, Json.int n)).toList ++
    (p.sha256.map fun s => ("sha256".toList, Json.str s)).toList)

end Partition

namespace Manifest

def toJson (m : Manifest) : Json :=
  .obj [("type".toList, .str "phosphor-image-manifest"), ("version".toList, .int 1),
    ("info".toList, .obj m.info), ("partitions".toList, .arr (m.partitions.map Partition.toJson)),
    ("manifest-sha256".toList, .str m.manifestSha256)]

end Manifest

def optStr : Option Str → Json
  | none => .null
  | some s => .str s

def stripQuotes (s : Str) : Str := stripBy (· = '"') s

namespace NorootfsMetadata
variable (d : NorootfsMetadata)

def info : List (Str × Json) :=
  [("purpose".toList, optStr d.versionPurpose), ("machine".toList, optStr d.machine),
    ("version".toList, .str (stripQuotes d.version)),
    ("build-id".toList, .str (stripQuotes d.buildId))] ++
  (if stripQuotes d.extendedVersion ≠ [] then
    [("extended-version".toList, .str (stripQuotes d.extendedVersion))] else []) ++
  if d.compatibleNames.getD [] ≠ [] then
    [("compatible-names".toList, .arr ((words (d.compatibleNames.getD [])).map Json.str))] else []

def splPath : Str := pathJoin d.deployDirImage ("u-boot-spl.".toList ++ d.ubootSuffix)

def ubootPath : Str := pathJoin d.deployDirImage ("u-boot.".toList ++ d.ubootSuffix)

def fitPath : Str := pathJoin d.imgDeployDir
  (d.imageLinkName ++ ".cpio.".toList ++ d.initramfsCtype ++ ".fitImage".toList)

def manifestPath : Str := pathJoin d.imgDeployDir "phosphor-image-manifest.json".toList

end NorootfsMetadata

/-- The manifest and the image as far as they are made. -/
structure Build where
  partitions : List Partition
  norImage : List UInt8

def addManifest (partname typename : Str) (offset size : Int) (sha256Value : Option Str)
    (partitions : List Partition) : Except BuildError (List Partition) :=
  if typename = "fit".toList ∧ partname ≠ "u-boot-fit".toList ∧ partname ≠ "os-fit".toList then
    .error (.fatal ("Unknown FIT partition type: ".toList ++ partname))
  else
    let numNodes := if typename = "fit".toList then
      if partname = "u-boot-fit".toList then some 1 else some 3
    else none
    .ok (partitions ++
      [⟨partname, typename, offset, size, numNodes, sha256Value.filter (· ≠ [])⟩])

/-- `_append_image`, with the bytes of the file at `imgpath`. -/
def appendPartition (sha256 : List UInt8 → Str) (partname typename imgpath : Str)
    (img : Option (List UInt8)) (startKb finishKb : Int) (b : Build) : Except BuildError Build :=
  match img with
  | none => .error (.noFile imgpath)
  | some img =>
    if (img.length : Int) > (finishKb - startKb) * 1024 then
      .error (.fatal ("Image '".toList ++ imgpath ++ "' is too large!".toList))
    else
      match addManifest partname typename (startKb * 1024) img.length (some (sha256 img))
          b.partitions with
      | .error e => .error e
      | .ok partitions =>
        if startKb < 0 then .error (.ddFailed startKb imgpath)
        else .ok ⟨partitions, writeAt 0 b.norImage (1024 * startKb.toNat) img⟩

/-- What the task leaves: the manifest file and the image. -/
structure Generated where
  manifest : Manifest
  norImage : List UInt8

/-- The text up to the first occurrence of the key, or without its last character (`s[:-1]`). -/
def beforeKey (key text : Str) : Str :=
  if contains key text then (splitSub key text).headD [] else text.dropLast

/-- The manifest with the hash of the part of its text before that hash. -/
def sealManifest (sha256 : List UInt8 → Str) (m : Manifest) : Manifest :=
  { m with manifestSha256 := sha256 ((beforeKey "manifest-sha256".toList (m.toJson.pretty 0)).flatMap
      String.utf8EncodeChar) }

def bootImages (sha256 : List UInt8 → Str) (d : NorootfsMetadata) (b : Build) :
    Except BuildError Build := do
  let mut b := b
  let mut ubootOffset := d.ubootOffset
  if d.splBinary ≠ [] then
    b ← appendPartition sha256 "spl" "u-boot" d.splPath (d.file d.splPath) d.ubootOffset
      d.ubootSplSize b
    ubootOffset := ubootOffset + d.ubootSplSize
  appendPartition sha256 "u-boot-fit" "fit" d.ubootPath (d.file d.ubootPath) ubootOffset
    d.manifestOffset b

/-- The image file may exist already, in any state; without one `dd` starts an empty file. -/
def doGenerateStaticNorootfs (sha256 : List UInt8 → Str) (d : NorootfsMetadata)
    (norImage : List UInt8) : Except BuildError Generated := do
  let boot ← bootImages sha256 d ⟨[], norImage⟩
  let withManifest ← addManifest "manifest" "json" (d.manifestOffset * 1024)
    ((d.ubootEnvOffset - d.manifestOffset) * 1024) none boot.partitions
  let withEnv ← addManifest "u-boot-env" "data" (d.ubootEnvOffset * 1024)
    ((d.kernelOffset - d.ubootEnvOffset) * 1024) none withManifest
  let system ← appendPartition sha256 "os-fit" "fit" d.fitPath (d.file d.fitPath) d.kernelOffset
    d.rwfsOffset ⟨withEnv, boot.norImage⟩
  let partitions ← addManifest "rwfs" "data" (d.rwfsOffset * 1024)
    ((d.flashSize - d.rwfsOffset) * 1024) none system.partitions
  let manifest := sealManifest sha256 ⟨d.info, partitions, []⟩
  let written ← appendPartition sha256 "manifest" "json" d.manifestPath
    (some ((manifest.toJson.pretty 0).flatMap String.utf8EncodeChar)) d.manifestOffset
    d.ubootEnvOffset ⟨partitions, system.norImage⟩
  return ⟨manifest, written.norImage⟩

/-! ### What the manifest promises -/

/-- The byte is in the range of the partition. -/
def Partition.Covers (p : Partition) (i : Int) : Prop := p.offset ≤ i ∧ i < p.offset + p.size

def slice (image : List UInt8) (offset size : Int) : List UInt8 :=
  (image.drop offset.toNat).take size.toNat

/-- The names of the partitions, in the order of the manifest. -/
def NorootfsMetadata.partitionNames (d : NorootfsMetadata) : List Str :=
  (if d.splBinary ≠ [] then ["spl".toList] else []) ++
    ["u-boot-fit".toList, "manifest".toList, "u-boot-env".toList, "os-fit".toList, "rwfs".toList]

/-- The manifest describes the image. -/
structure Agrees (sha256 : List UInt8 → Str) (flashSize : Int) (partitions : List Partition)
    (norImage : List UInt8) : Prop where
  size : ∀ p ∈ partitions, 0 ≤ p.size
  disjoint : partitions.Pairwise fun p p' => ∀ i, ¬ (p.Covers i ∧ p'.Covers i)
  within : ∀ p ∈ partitions, ∀ i, p.Covers i → 0 ≤ i ∧ i < flashSize * 1024
  hash : ∀ p ∈ partitions, ∀ h ∈ p.sha256, sha256 (slice norImage p.offset p.size) = h

/-- The environment ends before the kernel starts, and the read-write file system starts within the
flash. -/
structure Forward (d : NorootfsMetadata) : Prop where
  env : d.ubootEnvOffset ≤ d.kernelOffset
  rwfs : d.rwfsOffset ≤ d.flashSize

/-- The partition records what was written. -/
structure Records (sha256 : List UInt8 → Str) (p : Partition) (e : Extent UInt8) : Prop where
  offset : p.offset = e.start
  size : p.size = e.bytes.length
  hash : ∀ h ∈ p.sha256, sha256 e.bytes = h

variable {sha256 : List UInt8 → Str} {d : NorootfsMetadata}

theorem Records.slice {p : Partition} {e : Extent UInt8} {image : List UInt8} (hr : Records sha256 p e)
    (hi : e.IntactIn image) : slice image p.offset p.size = e.bytes := by
  rw [Image.slice, hr.offset, hr.size, Int.toNat_natCast, Int.toNat_natCast, hi.slice]

/-- An image that is appended fits its window, which does not start before the flash. -/
theorem appendPartition_ok {partname typename imgpath : Str} {img : Option (List UInt8)}
    {startKb finishKb : Int} {b b' : Build}
    (h : appendPartition sha256 partname typename imgpath img startKb finishKb b = .ok b') :
    ∃ p e, b' = ⟨b.partitions ++ [p], e.write 0 b.norImage⟩ ∧ Records sha256 p e ∧
      p.name = partname ∧ img = some e.bytes ∧ 0 ≤ startKb ∧ p.offset = startKb * 1024 ∧
      p.offset + p.size ≤ finishKb * 1024 := by
  unfold appendPartition at h
  cases img with
  | none => cases h
  | some img =>
    simp only at h
    split at h
    · cases h
    rename_i hfits
    unfold addManifest at h
    split at h
    · cases h
    rename_i ps hps
    split at hps
    · cases hps
    cases hps
    split at h
    · cases h
    rename_i hstart
    cases h
    refine ⟨_, ⟨1024 * startKb.toNat, img⟩, rfl, ⟨?_, rfl, fun h hh => ?_⟩, rfl, rfl, by omega, rfl, ?_⟩
    · show startKb * 1024 = ((1024 * startKb.toNat : Nat) : Int)
      omega
    · have hh' : h ∈ (some (sha256 img)).filter (· ≠ []) := hh
      exact Option.mem_some.1 (Option.mem_filter_iff.1 hh').1
    · show startKb * 1024 + (img.length : Int) ≤ _
      omega

theorem addManifest_data {partname typename : Str} {offset size : Int} {ps ps' : List Partition}
    (hfit : typename ≠ "fit".toList) (h : addManifest partname typename offset size none ps = .ok ps') :
    ps' = ps ++ [⟨partname, typename, offset, size, none, none⟩] := by
  unfold addManifest at h
  rw [if_neg (fun hc => hfit hc.1), if_neg hfit] at h
  cases h
  rfl

/-! ### Partitions in order -/

/-- One after the other, from the start of the flash up to `hi`. -/
structure Ordered (hi : Int) (ps : List Partition) : Prop where
  sorted : ps.Pairwise fun p p' => p.offset + p.size ≤ p'.offset
  bounds : ∀ p ∈ ps, 0 ≤ p.offset ∧ 0 ≤ p.size ∧ p.offset + p.size ≤ hi

theorem Ordered.nil (hi : Int) : Ordered hi [] := ⟨.nil, nofun⟩

theorem Ordered.snoc {lo hi : Int} {ps : List Partition} {p : Partition} (h : Ordered lo ps)
    (h0 : 0 ≤ p.offset) (hlo : lo ≤ p.offset) (hs : 0 ≤ p.size) (hhi : p.offset + p.size ≤ hi) :
    Ordered hi (ps ++ [p]) := by
  constructor
  · refine List.pairwise_append.2 ⟨h.sorted, List.pairwise_singleton _ _, fun q hq p' hp' => ?_⟩
    have hb := h.bounds q hq
    rw [List.mem_singleton.1 hp']
    omega
  · intro q hq
    rcases List.mem_append.1 hq with hq | hq
    · have hb := h.bounds q hq
      omega
    · rw [List.mem_singleton.1 hq]
      exact ⟨h0, hs, hhi⟩

theorem Ordered.disjoint {hi : Int} {ps : List Partition} (h : Ordered hi ps) :
    ps.Pairwise fun p p' => ∀ i, ¬ (p.Covers i ∧ p'.Covers i) := by
  refine h.sorted.imp fun hle i hc => ?_
  have h1 := hc.1.2
  have h2 := hc.2.1
  omega

theorem Ordered.within {hi : Int} {ps : List Partition} (h : Ordered hi ps) :
    ∀ p ∈ ps, ∀ i, p.Covers i → 0 ≤ i ∧ i < hi := by
  intro p hp i hc
  have hb := h.bounds p hp
  have h1 := hc.1
  have h2 := hc.2
  omega

/-! ### The run of the task -/

/-- What is written is recorded, in order and up to `hi`. -/
structure Wrote (sha256 : List UInt8 → Str) (hi : Int) (ps : List Partition)
    (es : List (Extent UInt8)) : Prop extends Ordered hi ps where
  records : ∀ p ∈ ps, ∃ e ∈ es, Records sha256 p e
  apart : es.Pairwise Extent.Apart
  stop : ∀ e ∈ es, (e.stop : Int) ≤ hi

theorem Records.stop_eq {p : Partition} {e : Extent UInt8} (h : Records sha256 p e) :
    (e.stop : Int) = p.offset + p.size := by
  rw [h.offset, h.size, Extent.stop]
  push_cast
  rfl

theorem Wrote.snoc {lo hi : Int} {ps : List Partition} {es : List (Extent UInt8)} {p : Partition}
    {e : Extent UInt8} (h : Wrote sha256 lo ps es) (hr : Records sha256 p e) (h0 : 0 ≤ p.offset)
    (hlo : lo ≤ p.offset) (hhi : p.offset + p.size ≤ hi) : Wrote sha256 hi (ps ++ [p]) (es ++ [e]) := by
  have hsize : 0 ≤ p.size := by
    rw [hr.size]
    omega
  refine ⟨h.toOrdered.snoc h0 hlo hsize hhi, fun q hq => ?_, ?_, fun x hx => ?_⟩
  · rcases List.mem_append.1 hq with hq | hq
    · obtain ⟨x, hx, hqx⟩ := h.records q hq
      exact ⟨x, List.mem_append_left _ hx, hqx⟩
    · rw [List.mem_singleton.1 hq]
      exact ⟨e, by simp, hr⟩
  · refine List.pairwise_append.2 ⟨h.apart, List.pairwise_singleton _ _, fun x hx e' he' => ?_⟩
    rw [List.mem_singleton.1 he']
    have hstop := h.stop x hx
    have hoff := hr.offset
    exact Extent.apart_of_stop_le (by omega)
  · rcases List.mem_append.1 hx with hx | hx
    · have hstop := h.stop x hx
      omega
    · rw [List.mem_singleton.1 hx, hr.stop_eq]
      exact hhi

theorem bootImages_ok {b : Build} {nor : List UInt8} (h : bootImages sha256 d ⟨[], nor⟩ = .ok b) :
    ∃ es, b.norImage = Extent.writeAll 0 nor es ∧
      Wrote sha256 (d.manifestOffset * 1024) b.partitions es ∧
      b.partitions.map Partition.name =
        (if d.splBinary ≠ [] then ["spl".toList] else []) ++ ["u-boot-fit".toList] := by
  have hempty : ∀ hi, Wrote sha256 hi [] [] := fun hi => ⟨.nil hi, nofun, .nil, nofun⟩
  unfold bootImages at h
  by_cases hspl : d.splBinary ≠ []
  · rw [if_pos hspl] at h ⊢
    obtain ⟨b₁, hs, h⟩ := bindExcept_ok_iff.1 h
    obtain ⟨p, e, rfl, hr, hname, -, h0, hoff, hhi⟩ := appendPartition_ok hs
    obtain ⟨p', e', rfl, hr', hname', -, h0', hoff', hhi'⟩ := appendPartition_ok h
    refine ⟨[e, e'], rfl, ?_, by simp [hname, hname']⟩
    exact ((hempty 0).snoc hr (by omega) (by omega) hhi).snoc hr' (by omega) (by omega) hhi'
  · rw [if_neg hspl] at h ⊢
    obtain ⟨p, e, rfl, hr, hname, -, h0, hoff, hhi⟩ := appendPartition_ok h
    exact ⟨[e], rfl, (hempty 0).snoc hr (by omega) (by omega) hhi, by simp [hname]⟩

/-- The three regions that hold no image of their own. -/
def region (name type : Str) (startKb finishKb : Int) : Partition :=
  ⟨name, type, startKb * 1024, (finishKb - startKb) * 1024, none, none⟩

/-- A run that completes, taken apart. -/
structure Completed (sha256 : List UInt8 → Str) (d : NorootfsMetadata) (nor : List UInt8)
    (g : Generated) (boot : List Partition) (es : List (Extent UInt8)) (fit : Partition)
    (kernel json : Extent UInt8) : Prop where
  partitions : g.manifest.partitions = boot ++
    [region "manifest" "json" d.manifestOffset d.ubootEnvOffset] ++
    [region "u-boot-env" "data" d.ubootEnvOffset d.kernelOffset] ++ [fit] ++
    [region "rwfs" "data" d.rwfsOffset d.flashSize]
  norImage : g.norImage = Extent.writeAll 0 nor (es ++ [kernel] ++ [json])
  bootWrote : Wrote sha256 (d.manifestOffset * 1024) boot es
  bootNames : boot.map Partition.name =
    (if d.splBinary ≠ [] then ["spl".toList] else []) ++ ["u-boot-fit".toList]
  fitName : fit.name = "os-fit".toList
  fitRecords : Records sha256 fit kernel
  fitStart : 0 ≤ d.kernelOffset ∧ fit.offset = d.kernelOffset * 1024
  fitStop : fit.offset + fit.size ≤ d.rwfsOffset * 1024
  jsonStart : 0 ≤ d.manifestOffset ∧ (json.start : Int) = d.manifestOffset * 1024
  jsonStop : (json.stop : Int) ≤ d.ubootEnvOffset * 1024

theorem doGenerateStaticNorootfs_ok {nor : List UInt8} {g : Generated}
    (h : doGenerateStaticNorootfs sha256 d nor = .ok g) :
    ∃ boot es fit kernel json, Completed sha256 d nor g boot es fit kernel json := by
  have hjson : "json".toList ≠ "fit".toList := by decide
  have hdata : "data".toList ≠ "fit".toList := by decide
  unfold doGenerateStaticNorootfs at h
  obtain ⟨b, hb, h⟩ := bindExcept_ok_iff.1 h
  obtain ⟨ps₁, h₁, h⟩ := bindExcept_ok_iff.1 h
  obtain ⟨ps₂, h₂, h⟩ := bindExcept_ok_iff.1 h
  obtain ⟨b', hfit, h⟩ := bindExcept_ok_iff.1 h
  obtain ⟨ps₃, h₃, h⟩ := bindExcept_ok_iff.1 h
  obtain ⟨b'', hman, h⟩ := bindExcept_ok_iff.1 h
  obtain ⟨es, hnor, hboot, hnames⟩ := bootImages_ok hb
  obtain ⟨p, e, rfl, hr, hname, -, h0, hoff, hhi⟩ := appendPartition_ok hfit
  obtain ⟨p', e', rfl, hr', -, -, h0', hoff', hhi'⟩ := appendPartition_ok hman
  rw [addManifest_data hjson h₁] at h₂
  rw [addManifest_data hdata h₂] at h₃
  cases h
  refine ⟨b.partitions, es, p, e, e', ?_, ?_, hboot, hnames, hname, hr, ⟨h0, hoff⟩, hhi,
    ⟨h0', ?_⟩, ?_⟩
  · exact addManifest_data hdata h₃
  · rw [Extent.writeAll_append, Extent.writeAll_append, ← hnor]
    rfl
  · rw [← hr'.offset, hoff']
  · rw [hr'.stop_eq]
    exact hhi'

section Run
variable {nor : List UInt8} {g : Generated} {boot : List Partition} {es : List (Extent UInt8)}
  {fit : Partition} {kernel json : Extent UInt8}

theorem Completed.names (h : Completed sha256 d nor g boot es fit kernel json) :
    g.manifest.partitions.map Partition.name = d.partitionNames := by
  rw [h.partitions, List.map_append, List.map_append, List.map_append, List.map_append, h.bootNames,
    NorootfsMetadata.partitionNames]
  simp only [List.map_cons, List.map_nil, h.fitName, region, List.append_assoc]
  rfl

theorem nodup_partitionNames (d : NorootfsMetadata) : d.partitionNames.Nodup := by
  unfold NorootfsMetadata.partitionNames
  split <;> decide +kernel

/-- The manifest fits before the environment, so that region at least is not negative. -/
theorem Completed.manifestOffset_le (h : Completed sha256 d nor g boot es fit kernel json) :
    d.manifestOffset ≤ d.ubootEnvOffset := by
  have h1 := h.jsonStart.2
  have h2 := h.jsonStop
  unfold Extent.stop at h2
  push_cast at h2
  omega

theorem Completed.ordered (h : Completed sha256 d nor g boot es fit kernel json) (hf : Forward d) :
    Ordered (d.flashSize * 1024) g.manifest.partitions := by
  have hman := h.manifestOffset_le
  have h0 := h.jsonStart.1
  have henv := hf.env
  have hrwfs := hf.rwfs
  have hfit := h.fitStart
  have hstop := h.fitStop
  have hsize : 0 ≤ fit.size := by
    rw [h.fitRecords.size]
    omega
  have hmanifest : Ordered (d.ubootEnvOffset * 1024)
      (boot ++ [region "manifest" "json" d.manifestOffset d.ubootEnvOffset]) := by
    refine h.bootWrote.toOrdered.snoc ?_ ?_ ?_ ?_ <;> simp only [region] <;> omega
  have henvironment : Ordered (d.kernelOffset * 1024) (boot ++
      [region "manifest" "json" d.manifestOffset d.ubootEnvOffset] ++
      [region "u-boot-env" "data" d.ubootEnvOffset d.kernelOffset]) := by
    refine hmanifest.snoc ?_ ?_ ?_ ?_ <;> simp only [region] <;> omega
  have hkernel : Ordered (d.rwfsOffset * 1024) (boot ++
      [region "manifest" "json" d.manifestOffset d.ubootEnvOffset] ++
      [region "u-boot-env" "data" d.ubootEnvOffset d.kernelOffset] ++ [fit]) :=
    henvironment.snoc (by omega) (by omega) hsize (by omega)
  rw [h.partitions]
  refine hkernel.snoc ?_ ?_ ?_ ?_ <;> simp only [region] <;> omega

theorem Completed.apart (h : Completed sha256 d nor g boot es fit kernel json) (hf : Forward d) :
    (es ++ [kernel] ++ [json]).Pairwise Extent.Apart := by
  have hman := h.manifestOffset_le
  have henv := hf.env
  have hkernel : (kernel.start : Int) = d.kernelOffset * 1024 :=
    h.fitRecords.offset.symm.trans h.fitStart.2
  have hjson := h.jsonStart.2
  have hstop := h.jsonStop
  refine List.pairwise_append.2 ⟨List.pairwise_append.2 ⟨h.bootWrote.apart,
    List.pairwise_singleton _ _, fun e he k hk => ?_⟩, List.pairwise_singleton _ _,
    fun e he j hj => ?_⟩
  · rw [List.mem_singleton.1 hk]
    have he := h.bootWrote.stop e he
    exact Extent.apart_of_stop_le (by omega)
  · rw [List.mem_singleton.1 hj]
    rcases List.mem_append.1 he with he | he
    · have he := h.bootWrote.stop e he
      exact Extent.apart_of_stop_le (by omega)
    · rw [List.mem_singleton.1 he]
      exact Extent.Apart.symm (Extent.apart_of_stop_le (by omega))

/-- Every partition with a hash records one of the images, and these stay intact. -/
theorem Completed.hash (h : Completed sha256 d nor g boot es fit kernel json) (hf : Forward d) :
    ∀ p ∈ g.manifest.partitions, ∀ v ∈ p.sha256, sha256 (slice g.norImage p.offset p.size) = v := by
  have hintact : ∀ e ∈ es ++ [kernel] ++ [json], e.IntactIn g.norImage := by
    rw [h.norImage]
    exact Extent.intact_writeAll (h.apart hf)
  have hrec : ∀ p e, e ∈ es ++ [kernel] ++ [json] → Records sha256 p e → ∀ v ∈ p.sha256,
      sha256 (slice g.norImage p.offset p.size) = v := by
    intro p e he hr v hv
    rw [hr.slice (hintact e he)]
    exact hr.hash v hv
  intro p hp v hv
  rw [h.partitions] at hp
  simp only [List.mem_append, List.mem_singleton] at hp
  rcases hp with (((hp | rfl) | rfl) | rfl) | rfl
  · obtain ⟨e, he, hr⟩ := h.bootWrote.records p hp
    exact hrec p e (by simp [he]) hr v hv
  · cases hv
  · cases hv
  · exact hrec _ kernel (by simp) h.fitRecords v hv
  · cases hv

theorem Completed.agrees_iff (h : Completed sha256 d nor g boot es fit kernel json) :
    Agrees sha256 d.flashSize g.manifest.partitions g.norImage ↔ Forward d := by
  constructor
  · intro ha
    have henv := ha.size (region "u-boot-env" "data" d.ubootEnvOffset d.kernelOffset)
      (by rw [h.partitions]; simp)
    have hrwfs := ha.size (region "rwfs" "data" d.rwfsOffset d.flashSize)
      (by rw [h.partitions]; simp)
    simp only [region] at henv hrwfs
    exact ⟨by omega, by omega⟩
  · intro hf
    have hord := h.ordered hf
    exact ⟨fun p hp => (hord.bounds p hp).2.1, hord.disjoint, hord.within, h.hash hf⟩

end Run

/-- When the task completes, the manifest lists each partition once, and it agrees with the image
exactly when the layout's environment and read-write file system are not negative in size. -/
theorem norootfs_agrees_iff {nor : List UInt8} {g : Generated}
    (h : doGenerateStaticNorootfs sha256 d nor = .ok g) :
    g.manifest.partitions.map Partition.name = d.partitionNames ∧ d.partitionNames.Nodup ∧
      (Agrees sha256 d.flashSize g.manifest.partitions g.norImage ↔ Forward d) := by
  obtain ⟨boot, es, fit, kernel, json, hc⟩ := doGenerateStaticNorootfs_ok h
  exact ⟨hc.names, nodup_partitionNames d, hc.agrees_iff⟩

namespace Sample

def norootfsFiles (path : Str) : Option (List UInt8) :=
  if path = "deploy/u-boot.bin".toList then some [19, 0, 0, 20]
  else if path = "img/bmc.cpio.xz.fitImage".toList then some [208, 13, 254, 237]
  else none

/-- A 32 MiB flash with the kernel and the read-write file system at given offsets. -/
def norootfs (kernelOffset rwfsOffset : Int) : NorootfsMetadata where
  ubootOffset := 0
  ubootSplSize := 64
  manifestOffset := 380
  ubootEnvOffset := 384
  kernelOffset := kernelOffset
  rwfsOffset := rwfsOffset
  flashSize := 32768
  splBinary := []
  deployDirImage := "deploy".toList
  imgDeployDir := "img".toList
  ubootSuffix := "bin".toList
  imageLinkName := "bmc".toList
  initramfsCtype := "xz".toList
  versionPurpose := some "xyz.openbmc_project.Software.Version.VersionPurpose.BMC".toList
  machine := some "evb-ast2600".toList
  compatibleNames := none
  version := "2.18".toList
  buildId := "20250101".toList
  extendedVersion := []
  file := norootfsFiles

/-- A stand-in for the hash: the first byte, in decimal. -/
def firstByte (bytes : List UInt8) : Str := natStr (bytes.headD 0).toNat

end Sample

theorem norootfs_default_agrees : ∃ g,
    doGenerateStaticNorootfs Sample.firstByte (Sample.norootfs 512 28672) [] = .ok g ∧
      Agrees Sample.firstByte 32768 g.manifest.partitions g.norImage := by
  have hok : (doGenerateStaticNorootfs Sample.firstByte (Sample.norootfs 512 28672)
      []).toOption.isSome := by decide +kernel
  cases hg : doGenerateStaticNorootfs Sample.firstByte (Sample.norootfs 512 28672) [] with
  | error e =>
    rw [hg] at hok
    cases hok
  | ok g => exact ⟨g, rfl, (norootfs_agrees_iff hg).2.2.2 ⟨by decide, by decide⟩⟩

/-- The environment of a kernel that starts before it is -128 KiB long. -/
theorem norootfs_negative_env : ∃ g,
    doGenerateStaticNorootfs Sample.firstByte (Sample.norootfs 256 28672) [] = .ok g ∧
      ∃ p ∈ g.manifest.partitions, p.name = "u-boot-env".toList ∧ p.size = -131072 := by
  have hok : (doGenerateStaticNorootfs Sample.firstByte (Sample.norootfs 256 28672)
      []).toOption.isSome := by decide +kernel
  cases hg : doGenerateStaticNorootfs Sample.firstByte (Sample.norootfs 256 28672) [] with
  | error e =>
    rw [hg] at hok
    cases hok
  | ok g =>
    obtain ⟨boot, es, fit, kernel, json, hc⟩ := doGenerateStaticNorootfs_ok hg
    exact ⟨g, rfl, region "u-boot-env" "data" 384 256, by rw [hc.partitions]; simp [Sample.norootfs],
      rfl, rfl⟩

end Image
end OpenBmc
