import OpenBmc.PrServ.Table

/-!
# A PR server without upstream

`serve` answers a `get-pr` or an `import-one` request. In a run in which the comparisons of the
requests answered agree with the order of the numbers (`Table.Agrees`) and no import repeats a value
of another checksum, no answer to `get-pr` is smaller than an earlier one or than a stored value,
and no value is answered for two checksums.
-/

namespace OpenBmc
namespace PrServ
open Py Dotted

inductive Request where
  | getPr (version pkgarch checksum : Str) (history : Bool)
  | importOne (version pkgarch checksum value : Str)
deriving DecidableEq

/-- What the request answers and the table it leaves; a read-only server answers no import. -/
def serve [RowOrder] (readOnly : Bool) (t : Table) : Request → Except PyError (Option Str × Table)
  | .getPr version pkgarch checksum history => do
    let (value, t) ← t.getValue readOnly version pkgarch checksum history
    return (some value, t)
  | .importOne version pkgarch checksum value =>
    if readOnly then return (none, t)
    else
      let (value, t) := t.importone readOnly version pkgarch checksum value
      return (some value, t)

/-- The requests of the runs: no history, and dotted integer strings imported. -/
def Request.Plain : Request → Prop
  | .getPr _ _ _ history => history = false
  | .importOne _ _ _ value => IsRevision value

/-- The comparisons of a `get-pr` agree with the numbers; an import brings no value that another
checksum of the package has. -/
def Request.Sound (t : Table) : Request → Prop
  | .getPr version pkgarch checksum _ => t.Agrees version pkgarch checksum
  | .importOne version pkgarch checksum value =>
    ∀ r ∈ t.packageRows version pkgarch, r.value = value → r.checksum = checksum

/-- What the log and the table of such a run satisfy. -/
structure Consistent (log : List (Request × Option Str)) (t : Table) : Prop where
  revisions : t.Revisions
  unique : ∀ r ∈ t, ∀ r' ∈ t, r.version = r'.version → r.pkgarch = r'.pkgarch → r.value = r'.value →
    r.checksum = r'.checksum
  logged : ∀ version pkgarch checksum value,
    (.getPr version pkgarch checksum false, some value) ∈ log → ⟨version, pkgarch, checksum, value⟩ ∈ t

/-- Storing a row keeps the table consistent if no other checksum of the package has its value. -/
theorem Consistent.store {log : List (Request × Option Str)} {t : Table} (h : Consistent log t)
    (row : Row) (hrev : IsRevision row.value)
    (hu : ∀ r ∈ t.packageRows row.version row.pkgarch, r.value = row.value → r.checksum = row.checksum) :
    Consistent log (t.storeValue false row) where
  revisions r hr := by
    rcases Table.mem_storeValue.1 hr with hr | rfl
    exacts [h.revisions r hr, hrev]
  unique r hr r' hr' hv hp hx := by
    rcases Table.mem_storeValue.1 hr with h₁ | rfl <;> rcases Table.mem_storeValue.1 hr' with h₂ | rfl
    · exact h.unique r h₁ r' h₂ hv hp hx
    · exact hu r (Table.mem_packageRows.2 ⟨h₁, hv, hp⟩) hx
    · exact (hu r' (Table.mem_packageRows.2 ⟨h₂, hv.symm, hp.symm⟩) hx.symm).symm
    · rfl
  logged v p c x hm := Table.mem_storeValue.2 (.inl (h.logged v p c x hm))

section Run
variable [RowOrder]

/-- The runs of a server over the requests that `P` allows, with the answers given, latest first. -/
inductive Run (P : Table → Request → Prop) : List (Request × Option Str) → Table → Prop
  | start : Run P [] []
  | step {log : List (Request × Option Str)} {t t' : Table} {req : Request} {answer : Option Str} :
      Run P log t → req.Plain → P t req → serve false t req = .ok (answer, t') →
      Run P ((req, answer) :: log) t'

/-- A sound `get-pr` on a consistent table: the value answered is stored, no other checksum of the
package has it, and no stored value is greater. -/
theorem Consistent.getPr {log : List (Request × Option Str)} {t : Table}
    {version pkgarch checksum : Str} (h : Consistent log t) (ha : t.Agrees version pkgarch checksum) :
    ∃ x, serve false t (.getPr version pkgarch checksum false) =
        .ok (some x, t.storeValue false ⟨version, pkgarch, checksum, x⟩) ∧
      IsRevision x ∧ (∀ r ∈ t.packageRows version pkgarch, r.value = x → r.checksum = checksum) ∧
      ∀ r ∈ t.packageRows version pkgarch, num r.value ≤ num x := by
  obtain ⟨x, hx, hrev, hcase⟩ := Table.newValue_of_agrees h.revisions ha
  refine ⟨x, by simp [serve, Table.getValue, hx, bind, Except.bind, pure, Except.pure], hrev, ?_⟩
  rcases hcase with habove | ⟨hmem, hle⟩
  · refine ⟨fun r hr he => ?_, fun r hr => (habove r hr).le⟩
    have hlt := habove r hr
    rw [he] at hlt
    exact absurd hlt (lt_irrefl _)
  · refine ⟨fun r hr he => ?_, hle⟩
    obtain ⟨hr, hv, hp⟩ := Table.mem_packageRows.1 hr
    exact h.unique r hr _ hmem hv hp he

theorem Run.consistent {log : List (Request × Option Str)} {t : Table}
    (h : Run (fun t req => req.Sound t) log t) : Consistent log t := by
  induction h with
  | start => exact ⟨by simp [Table.Revisions], by simp, by simp⟩
  | @step log t t' req answer _ hplain hsound hserve ih =>
    cases req with
    | getPr version pkgarch checksum history =>
      cases (show history = false from hplain)
      obtain ⟨x, hx, hrev, hu, -⟩ := ih.getPr hsound
      rw [hx] at hserve
      obtain ⟨rfl, rfl⟩ := Prod.mk.inj (Except.ok.inj hserve)
      have hc := ih.store ⟨version, pkgarch, checksum, x⟩ hrev hu
      refine ⟨hc.revisions, hc.unique, fun v p c y hm => ?_⟩
      rcases List.mem_cons.1 hm with he | hm
      · simp only [Prod.mk.injEq, Request.getPr.injEq, Option.some.injEq] at he
        obtain ⟨⟨rfl, rfl, rfl, -⟩, rfl⟩ := he
        exact Table.mem_storeValue.2 (.inr rfl)
      · exact hc.logged v p c y hm
    | importOne version pkgarch checksum value =>
      obtain ⟨rfl, rfl⟩ := Prod.mk.inj (Except.ok.inj hserve)
      have hc := ih.store ⟨version, pkgarch, checksum, value⟩ hplain hsound
      refine ⟨hc.revisions, hc.unique, fun v p c y hm => ?_⟩
      rcases List.mem_cons.1 hm with he | hm
      · simp at he
      · exact hc.logged v p c y hm

/-- In every run of sound requests, a sound `get-pr` is answered with a value that is at least every
earlier answer for its package and every value stored for it, and that was never answered for
another checksum of the package. -/
theorem getPr_never_decreases {log : List (Request × Option Str)} {t : Table}
    (h : Run (fun t req => req.Sound t) log t) {version pkgarch checksum : Str}
    (ha : t.Agrees version pkgarch checksum) :
    ∃ x t', serve false t (.getPr version pkgarch checksum false) = .ok (some x, t') ∧
      (∀ checksum' y, (.getPr version pkgarch checksum' false, some y) ∈ log → num y ≤ num x) ∧
      (∀ r ∈ t'.packageRows version pkgarch, num r.value ≤ num x) ∧
      ∀ checksum', (.getPr version pkgarch checksum' false, some x) ∈ log → checksum' = checksum := by
  have hc := h.consistent
  obtain ⟨x, hx, -, hu, hle⟩ := hc.getPr ha
  refine ⟨x, _, hx, fun c y hm => ?_, fun r hr => ?_, fun c hm => ?_⟩
  · exact hle _ (Table.mem_packageRows.2 ⟨hc.logged _ _ _ _ hm, rfl, rfl⟩)
  · obtain ⟨hr, hv, hp⟩ := Table.mem_packageRows.1 hr
    rcases Table.mem_storeValue.1 hr with hr | rfl
    · exact hle r (Table.mem_packageRows.2 ⟨hr, hv, hp⟩)
    · exact le_rfl
  · exact hu _ (Table.mem_packageRows.2 ⟨hc.logged _ _ _ _ hm, rfl, rfl⟩) rfl

end Run

section Sample

local instance insertionOrder : RowOrder := ⟨id, fun _ => .refl _⟩

/-- After the first checksum of a package got `0`, a second one gets a greater value of its own. -/
theorem second_checksum_increases : ∃ x t',
    serve false [⟨['v'], ['a'], ['1'], ['0']⟩] (.getPr ['v'] ['a'] ['2'] false) = .ok (some x, t') ∧
      (∀ c y, (.getPr ['v'] ['a'] c false, some y) ∈
        [(Request.getPr ['v'] ['a'] ['1'] false, some ['0'])] → num y ≤ num x) ∧
      (∀ r ∈ Table.packageRows t' ['v'] ['a'], num r.value ≤ num x) ∧
      ∀ c, (.getPr ['v'] ['a'] c false, some x) ∈
        [(Request.getPr ['v'] ['a'] ['1'] false, some ['0'])] → c = ['2'] := by
  have hstart : Table.Agrees [] ['v'] ['a'] ['1'] :=
    ⟨by simpa [Table.packageRows] using tip_empty,
      by simpa [Table.checksumRows, Table.packageRows] using tip_empty, by simp [Table.packageRows]⟩
  have hrun : Run (fun t req => req.Sound t) [(.getPr ['v'] ['a'] ['1'] false, some ['0'])]
      [⟨['v'], ['a'], ['1'], ['0']⟩] := .step .start rfl hstart (by decide +kernel)
  have hpackage : Table.packageRows [⟨['v'], ['a'], ['1'], ['0']⟩] ['v'] ['a'] =
      [⟨['v'], ['a'], ['1'], ['0']⟩] := by decide
  have hrows : Table.checksumRows [⟨['v'], ['a'], ['1'], ['0']⟩] ['v'] ['a'] ['2'] = [] := by decide
  refine getPr_never_decreases hrun ⟨?_, ?_, ?_⟩
  · rw [hpackage, Table.nums_singleton]
    exact tip_singleton _
  · rw [hrows, Table.nums_nil]
    exact tip_empty
  · simp [hrows]

/-- With `9` imported for a checksum, a second one gets `10`; asked again, the first gets `9`. -/
theorem digits_decrease : Run (fun _ _ => True)
    [(.getPr ['v'] ['a'] ['1'] false, some ['9']), (.getPr ['v'] ['a'] ['2'] false, some ['1', '0']),
      (.importOne ['v'] ['a'] ['1'] ['9'], some ['9'])]
    [⟨['v'], ['a'], ['1'], ['9']⟩, ⟨['v'], ['a'], ['2'], ['1', '0']⟩] ∧ num ['9'] < num ['1', '0'] := by
  have himport : Run (fun _ _ => True) [(.importOne ['v'] ['a'] ['1'] ['9'], some ['9'])]
      [⟨['v'], ['a'], ['1'], ['9']⟩] :=
    .step .start (show IsRevision ['9'] by decide) trivial (by decide +kernel)
  have hsecond : Run (fun _ _ => True) [(.getPr ['v'] ['a'] ['2'] false, some ['1', '0']),
      (.importOne ['v'] ['a'] ['1'] ['9'], some ['9'])]
      [⟨['v'], ['a'], ['1'], ['9']⟩, ⟨['v'], ['a'], ['2'], ['1', '0']⟩] :=
    .step himport rfl trivial (by decide +kernel)
  exact ⟨.step hsecond rfl trivial (by decide +kernel), by decide +kernel⟩

end Sample

end PrServ
end OpenBmc
