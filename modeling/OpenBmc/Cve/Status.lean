import OpenBmc.Py.Words

/-!
# CVE statuses

`decode_cve_status` cuts a status at its first four colons. A status with a product has five parts;
the part of the description may have colons of its own. `has_cve_product_match` compares the vendor
and the product that were decoded with the entries of `CVE_PRODUCT`.
-/

namespace OpenBmc
namespace Cve
open Py

/-! ### The functions -/

/-- `s.split(sep, n)`. -/
def splitAtMost (sep : Char) : ℕ → Str → List Str
  | 0, s => [s]
  | n + 1, s =>
    match partition sep s with
    | (a, some b) => a :: splitAtMost sep n b
    | (a, none) => [a]

structure Status where
  detail : Str
  vendor : Str
  product : Str
  description : Str
  mapping : Str

inductive Error
  | indexError

/-- What is read in front of the first colon, and of the parts behind it. -/
def decodeParts (status : Str) : List Str → Except Error (Str × Str × Str)
  | part :: rest =>
    if strip part = "cpe".toList then
      match rest with
      | [vendor, product, description] => .ok (strip vendor, strip product, strip description)
      | [_, _] => .error .indexError
      | _ => .ok (['*'], ['*'], [])
    else .ok (['*'], ['*'], strip ((partition ':' status).2.getD []))
  | [] => .ok (['*'], ['*'], [])

/-- `decode_cve_status`, for the flag of `CVE_STATUS` and the flags of `CVE_CHECK_STATUSMAP`. -/
def decodeCveStatus (statusMap : Str → Option Str) (status : Option Str) :
    Except Error (Option Status) :=
  match status with
  | none => .ok none
  | some status =>
    if status = [] then .ok none
    else
      let statusSplit := splitAtMost ':' 4 status
      (decodeParts status (statusSplit.drop 1)).map fun parts =>
        let detail := statusSplit.headD []
        some ⟨detail, parts.1, parts.2.1, parts.2.2, (statusMap detail).getD "Unpatched".toList⟩

/-- Vendor and product of an entry. -/
def entryParts (entry : Str) : Str × Str :=
  match partition ':' entry with
  | (vendor, some product) => (vendor, product)
  | (product, none) => (['*'], product)

def hasCveProductMatch (status : Status) (products : Str) : Bool :=
  (words products).any fun entry =>
    ((entryParts entry).1 = status.vendor || status.vendor = ['*']) &&
      ((entryParts entry).2 = status.product || status.product = ['*'])

/-! ### Decoding -/

theorem splitAtMost_cons {sep : Char} {a : Str} (h : sep ∉ a) (n : ℕ) (b : Str) :
    splitAtMost sep (n + 1) (a ++ sep :: b) = a :: splitAtMost sep n b := by
  rw [splitAtMost, partition_append h]

theorem splitAtMost_of_not_mem {sep : Char} {a : Str} (h : sep ∉ a) (n : ℕ) :
    splitAtMost sep n a = [a] := by
  cases n with
  | zero => rfl
  | succ n => rw [splitAtMost, partition_of_not_mem h]

/-- A status that ends behind the product. -/
def Cut (status : Str) : Prop :=
  ∃ detail part vendor product, splitAtMost ':' 4 status = [detail, part, vendor, product] ∧
    strip part = "cpe".toList

theorem decodeParts_ok {status : Str} (h : ¬ Cut status) :
    ∃ parts, decodeParts status ((splitAtMost ':' 4 status).drop 1) = .ok parts := by
  rcases hs : splitAtMost ':' 4 status with _ | ⟨detail, _ | ⟨part, rest⟩⟩
  · exact ⟨_, rfl⟩
  · exact ⟨_, rfl⟩
  · show ∃ parts, decodeParts status (part :: rest) = .ok parts
    by_cases hp : strip part = "cpe".toList
    · match rest, hs with
      | [], _ => exact ⟨_, if_pos hp⟩
      | [_], _ => exact ⟨_, if_pos hp⟩
      | [_, _], hs => exact absurd ⟨_, _, _, _, hs, hp⟩ h
      | [_, _, _], _ => exact ⟨_, if_pos hp⟩
      | _ :: _ :: _ :: _ :: _, _ => exact ⟨_, if_pos hp⟩
    · exact ⟨_, if_neg hp⟩

section
variable (statusMap : Str → Option Str)

/-- Decoding returns unless the status ends behind the product. -/
theorem decode_returns {status : Option Str} (h : ∀ s ∈ status, ¬ Cut s) :
    ∃ r, decodeCveStatus statusMap status = .ok r := by
  cases status with
  | none => exact ⟨_, rfl⟩
  | some s =>
    unfold decodeCveStatus
    simp only
    split_ifs with hs
    · exact ⟨_, rfl⟩
    · obtain ⟨parts, hp⟩ := decodeParts_ok (h s rfl)
      rw [hp]
      exact ⟨_, rfl⟩

theorem decode_cpe {detail vendor product : Str} (hd : ':' ∉ detail) (hv : ':' ∉ vendor)
    (hp : ':' ∉ product) (description : Str) :
    decodeCveStatus statusMap (some (detail ++ ": cpe:".toList ++ vendor ++ ':' :: product ++ ':' ::
      description)) = .ok (some ⟨detail, strip vendor, strip product, strip description,
        (statusMap detail).getD "Unpatched".toList⟩) := by
  have htext : detail ++ ": cpe:".toList ++ vendor ++ ':' :: product ++ ':' :: description =
      detail ++ ':' :: (" cpe".toList ++ ':' :: (vendor ++ ':' :: (product ++ ':' :: description))) := by
    simp
  have hcpe : ':' ∉ " cpe".toList := by decide
  have hsplit : splitAtMost ':' 4 (detail ++ ':' :: (" cpe".toList ++ ':' :: (vendor ++ ':' ::
      (product ++ ':' :: description)))) = [detail, " cpe".toList, vendor, product, description] := by
    rw [splitAtMost_cons hd, splitAtMost_cons hcpe, splitAtMost_cons hv, splitAtMost_cons hp]
    rfl
  have hstrip : strip " cpe".toList = "cpe".toList := by decide +kernel
  rw [htext, decodeCveStatus]
  simp only
  rw [if_neg (by simp), hsplit]
  simp only [List.drop_one, List.tail_cons, decodeParts, hstrip, if_true, List.headD_cons]
  rfl

/-- The rest of a status, cut at colons of its own. -/
theorem splitAtMost_head (sep : Char) (n : ℕ) (b : Str) :
    ∃ rest, splitAtMost sep (n + 1) b = (partition sep b).1 :: rest := by
  rw [splitAtMost]
  rcases partition sep b with ⟨a, _ | c⟩
  · exact ⟨_, rfl⟩
  · exact ⟨_, rfl⟩

theorem strip_space (s : Str) : strip (' ' :: s) = strip s := by
  unfold strip stripBy
  rw [List.dropWhile_cons_of_pos (by decide)]

theorem partition_space (s : Str) :
    partition ':' (' ' :: s) = (' ' :: (partition ':' s).1, (partition ':' s).2) := by
  rcases hs : partition ':' s with ⟨a, b⟩
  simp [partition, hs]

theorem decode_description {detail description : Str} (hd : ':' ∉ detail)
    (hno : strip (partition ':' description).1 ≠ "cpe".toList) :
    decodeCveStatus statusMap (some (detail ++ ": ".toList ++ description)) =
      .ok (some ⟨detail, ['*'], ['*'], strip description,
        (statusMap detail).getD "Unpatched".toList⟩) := by
  have htext : detail ++ ": ".toList ++ description = detail ++ ':' :: ' ' :: description := by simp
  obtain ⟨rest, hrest⟩ := splitAtMost_head ':' 2 (' ' :: description)
  rw [partition_space] at hrest
  rw [htext, decodeCveStatus]
  simp only
  rw [if_neg (by simp), splitAtMost_cons hd, hrest]
  simp only [List.drop_one, List.tail_cons, decodeParts, strip_space, hno, if_false, List.headD_cons,
    partition_append hd, Option.getD_some]
  rfl

end

/-! ### Products -/

/-- An entry of `CVE_PRODUCT`. -/
structure Entry where
  vendor : Option Str
  product : Str
  vendor_word : ∀ v ∈ vendor, (∀ c ∈ v, ¬ isSpace c) ∧ ':' ∉ v
  product_word : IsWord product
  product_plain : vendor = none → ':' ∉ product

namespace Entry

def text (e : Entry) : Str :=
  match e.vendor with
  | some vendor => vendor ++ ':' :: e.product
  | none => e.product

theorem isWord_text (e : Entry) : IsWord e.text := by
  unfold text
  cases hv : e.vendor with
  | none => exact e.product_word
  | some v =>
    refine ⟨by simp, fun c hc => ?_⟩
    rcases List.mem_append.1 hc with hc | hc
    · exact (e.vendor_word v hv).1 c hc
    · rcases List.mem_cons.1 hc with rfl | hc
      · decide
      · exact e.product_word.2 c hc

theorem entryParts_text (e : Entry) : entryParts e.text = (e.vendor.getD ['*'], e.product) := by
  unfold entryParts text
  cases hv : e.vendor with
  | none =>
    simp only [partition_of_not_mem (e.product_plain hv)]
    rfl
  | some v =>
    simp only [partition_append (e.vendor_word v hv).2]
    rfl

end Entry

/-- An entry without a vendor has the vendor `*`, and matches that one only. -/
theorem match_iff (status : Status) (entries : List Entry) :
    hasCveProductMatch status ([' '].intercalate (entries.map Entry.text)) ↔ ∃ e ∈ entries,
      (status.vendor = ['*'] ∨ e.vendor.getD ['*'] = status.vendor) ∧
        (status.product = ['*'] ∨ e.product = status.product) := by
  have hwords : words ([' '].intercalate (entries.map Entry.text)) = entries.map Entry.text := by
    rw [words_intercalate, List.flatMap_map]
    refine (List.flatMap_congr fun e _ => e.isWord_text.words).trans ?_
    exact List.map_eq_flatMap.symm
  unfold hasCveProductMatch
  rw [hwords, List.any_map, List.any_eq_true]
  refine exists_congr fun e => and_congr_right fun _ => ?_
  simp only [Function.comp_apply, e.entryParts_text, Bool.and_eq_true, Bool.or_eq_true,
    decide_eq_true_eq]
  exact and_congr or_comm or_comm

/-! ### All of it -/

theorem status_decoded (statusMap : Str → Option Str) :
    (∀ status : Option Str, (∀ s ∈ status, ¬ Cut s) →
      ∃ r, decodeCveStatus statusMap status = .ok r) ∧
    (∀ detail vendor product description : Str, ':' ∉ detail → ':' ∉ vendor → ':' ∉ product →
      decodeCveStatus statusMap (some (detail ++ ": cpe:".toList ++ vendor ++ ':' :: product ++ ':' ::
        description)) = .ok (some ⟨detail, strip vendor, strip product, strip description,
          (statusMap detail).getD "Unpatched".toList⟩)) ∧
    (∀ detail description : Str, ':' ∉ detail →
      strip (partition ':' description).1 ≠ "cpe".toList →
        decodeCveStatus statusMap (some (detail ++ ": ".toList ++ description)) =
          .ok (some ⟨detail, ['*'], ['*'], strip description,
            (statusMap detail).getD "Unpatched".toList⟩)) ∧
    ∀ (status : Status) (entries : List Entry),
      hasCveProductMatch status ([' '].intercalate (entries.map Entry.text)) ↔ ∃ e ∈ entries,
        (status.vendor = ['*'] ∨ e.vendor.getD ['*'] = status.vendor) ∧
          (status.product = ['*'] ∨ e.product = status.product) :=
  ⟨fun _ => decode_returns statusMap, fun _ _ _ d hd hv hp => decode_cpe statusMap hd hv hp d,
    fun _ _ => decode_description statusMap, match_iff⟩

/-- A vendor in the status is not matched by an entry without one. -/
theorem missing_vendor_fails : ∃ status, decodeCveStatus (fun _ => none)
      (some "ignored: cpe:gnu:glibc:".toList) = .ok (some status) ∧
    status.vendor = "gnu".toList ∧ status.product = "glibc".toList ∧
      hasCveProductMatch status "glibc".toList = false :=
  ⟨⟨"ignored".toList, "gnu".toList, "glibc".toList, [], "Unpatched".toList⟩, by rfl, rfl, rfl, by rfl⟩

end Cve
end OpenBmc
