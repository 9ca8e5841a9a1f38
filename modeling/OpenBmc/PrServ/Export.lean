import OpenBmc.PrServ.Order

/-!
# Export and import

`export` without history keeps, for each version and architecture, the rows whose value is the
`max(value)` of SQLite, which compares text: `9` is greater than `10`. A row with an empty version is
never exported.
-/

namespace OpenBmc
namespace PrServ
open Py Dotted

/-- A row of `PRAGMA table_info`. -/
structure Column where
  name : Str
  type : Str
  notnull : Nat
  dfltValue : Option Str
  pk : Nat
deriving DecidableEq

structure Metainfo where
  tblName : Str
  coreVer : Str
  colInfo : List Column
deriving DecidableEq

namespace Table

/-- The columns of the table that `PRTable` creates. -/
def columns : List Column :=
  [⟨"version", "TEXT", 1, none, 1⟩, ⟨"pkgarch", "TEXT", 1, none, 2⟩,
    ⟨"checksum", "TEXT", 1, none, 3⟩, ⟨"value", "TEXT", 0, none, 4⟩]

/-- `max` of a column of texts, compared by code point. -/
def maxText : List Str → Option Str
  | [] => none
  | value :: values =>
    match maxText values with
    | none => some value
    | some m => some (if value < m then m else value)

/-- The row carries the greatest text of its group. -/
def IsMaxValue (t : Table) (r : Row) : Prop :=
  maxText ((t.packageRows r.version r.pkgarch).map Row.value) = some r.value

instance (t : Table) (r : Row) : Decidable (t.IsMaxValue r) := inferInstanceAs (Decidable (_ = _))

/-- A condition `AND T1.<column>=?`, left out for `None` and the empty string. -/
def selects (arg : Option Str) (value : Str) : Bool :=
  match arg with
  | none => true
  | some text => text = [] || value = text

section Export
variable [RowOrder]

def metainfo (table : Str) (colinfo : Bool) : Option Metainfo :=
  if colinfo then some ⟨table, "2.0.0".toList, columns⟩ else none

def datainfo (t : Table) (version pkgarch checksum : Option Str) (history : Bool) : List Row :=
  let selected := t.filter fun r => (history || decide (t.IsMaxValue r)) &&
    selects version r.version && selects pkgarch r.pkgarch && selects checksum r.checksum
  (RowOrder.order selected).filter fun r => r.version ≠ []

/-- `export`. -/
def exportTable (t : Table) (table : Str) (version pkgarch checksum : Option Str)
    (colinfo history : Bool) : Option Metainfo × List Row :=
  (metainfo table colinfo, t.datainfo version pkgarch checksum history)

/-- The rows of an export, imported one after the other. -/
def imported (t : Table) (rows : List Row) : Table :=
  rows.foldl (fun t r => (t.importone false r.version r.pkgarch r.checksum r.value).2) t

/-- Export without any of the filters. -/
def exportAll (t : Table) (history : Bool) : List Row :=
  (t.exportTable [] none none none false history).2

end Export

/-- What export and import promise of a table. -/
structure KeepsMaximum [RowOrder] (t : Table) : Prop where
  present : ∀ version pkgarch, t.packageRows version pkgarch ≠ [] →
    packageRows (t.exportAll false) version pkgarch ≠ []
  greatest : ∀ version pkgarch, ∀ r ∈ packageRows (t.exportAll false) version pkgarch,
    IsGreatest (nums (t.packageRows version pkgarch)) (num r.value)
  maximum : ∀ version pkgarch,
    findPackageMaxValue (imported [] (t.exportAll false)) version pkgarch =
      t.findPackageMaxValue version pkgarch
  history : (imported [] (t.exportAll true)).Perm t

/-- No version is empty, and the text that is greatest among those of a package is above all others
as a revision. -/
structure TextAgrees (t : Table) : Prop where
  named : ∀ r ∈ t, r.version ≠ []
  text : ∀ r ∈ t, t.IsMaxValue r → ∀ r' ∈ t.packageRows r.version r.pkgarch, r'.value ≠ r.value →
    Below (num r'.value) (num r.value)

/-! ### What is exported -/

theorem maxText_eq_none {values : List Str} : maxText values = none ↔ values = [] := by
  cases values with
  | nil => simp [maxText]
  | cons value values =>
    rw [maxText]
    cases maxText values <;> simp

theorem maxText_mem : ∀ {values : List Str} {m : Str}, maxText values = some m → m ∈ values
  | [], m, h => by cases h
  | value :: values, m, h => by
    rw [maxText] at h
    cases hm : maxText values with
    | none =>
      rw [hm] at h
      cases h
      exact List.mem_cons_self
    | some m' =>
      rw [hm] at h
      cases h
      split
      · exact List.mem_cons_of_mem _ (maxText_mem hm)
      · exact List.mem_cons_self

section Selected
variable [RowOrder] {t : Table} {version pkgarch : Str} {r : Row}

theorem mem_exportAll {history : Bool} : r ∈ t.exportAll history ↔
    r ∈ t ∧ (history = true ∨ t.IsMaxValue r) ∧ r.version ≠ [] := by
  simp [exportAll, exportTable, datainfo, selects, (RowOrder.order_perm _).mem_iff, and_assoc]

theorem mem_packageRows_exportAll : r ∈ packageRows (t.exportAll false) version pkgarch ↔
    r ∈ t.packageRows version pkgarch ∧
      maxText ((t.packageRows version pkgarch).map Row.value) = some r.value ∧ version ≠ [] := by
  rw [mem_packageRows, mem_exportAll, mem_packageRows]
  constructor
  · rintro ⟨⟨hr, hmax, hne⟩, rfl, rfl⟩
    exact ⟨⟨hr, rfl, rfl⟩, hmax.resolve_left Bool.false_ne_true, hne⟩
  · rintro ⟨⟨hr, rfl, rfl⟩, hmax, hne⟩
    exact ⟨⟨hr, .inr hmax, hne⟩, rfl, rfl⟩

theorem mem_imported {rows : List Row} : r ∈ imported t rows ↔ r ∈ t ∨ r ∈ rows := by
  induction rows generalizing t with
  | nil => simp [imported]
  | cons x rows ih =>
    show r ∈ imported (t.storeValue false x) rows ↔ _
    rw [ih, mem_storeValue, List.mem_cons, or_assoc]

theorem imported_of_nodup {rows : List Row} (h : (t ++ rows).Nodup) : imported t rows = t ++ rows := by
  induction rows generalizing t with
  | nil => simp [imported]
  | cons x rows ih =>
    have hx : x ∉ t := fun hx => (List.nodup_append.1 h).2.2 x hx x (by simp) rfl
    have hstore : t.storeValue false x = t ++ [x] := by simp [storeValue, hx]
    show imported (t.storeValue false x) rows = _
    rw [hstore, ih (by simpa using h), List.append_assoc]
    rfl

theorem maxText_package (h : t.packageRows version pkgarch ≠ []) :
    ∃ r ∈ t.packageRows version pkgarch,
      maxText ((t.packageRows version pkgarch).map Row.value) = some r.value := by
  cases hm : maxText ((t.packageRows version pkgarch).map Row.value) with
  | none => exact absurd (List.map_eq_nil_iff.1 (maxText_eq_none.1 hm)) h
  | some m =>
    obtain ⟨r, hr, rfl⟩ := List.mem_map.1 (maxText_mem hm)
    exact ⟨r, hr, rfl⟩

/-- A value that is above every other is found, whatever the order of the rows. -/
theorem extremumValue_of_above {rows : List Row} {m : Str} (hrev : ∀ r ∈ rows, IsRevision r.value)
    (hm : ∃ r ∈ rows, r.value = m)
    (habove : ∀ r ∈ rows, r.value ≠ m → Below (num r.value) (num m)) :
    extremumValue (fetchall rows) true = .ok (some m) := by
  have hget : ∀ x ∈ fetchall rows, IsRevision x ∧ (x ≠ m → Below (num x) (num m)) := by
    intro x hx
    obtain ⟨r, hr, rfl⟩ := mem_fetchall.1 hx
    exact ⟨hrev r hr, habove r hr⟩
  refine extremumValue_eq_of_top (fun x hx => (hget x hx).1) (mem_fetchall.2 hm) ?_ ?_
  · intro x hx hne
    exact decide_eq_true ⟨fun hb => lt_asymm hb.lt ((hget x hx).2 hne).lt, hne.symm⟩
  · intro x hx hne
    exact decide_eq_false fun h => h.1 ((hget x hx).2 hne)

theorem packageRows_imported_nonempty {rows : List Row} :
    packageRows (imported [] rows) version pkgarch = [] ↔ packageRows rows version pkgarch = [] := by
  simp only [List.eq_nil_iff_forall_not_mem, mem_packageRows, mem_imported, List.not_mem_nil, false_or]

theorem revisions_imported (hrev : t.Revisions) (history : Bool) :
    Revisions (imported [] (t.exportAll history)) := by
  intro r hr
  rw [mem_imported, mem_exportAll] at hr
  exact hrev r ((hr.resolve_left List.not_mem_nil).1)

/-- The import of an export has, for a package with a version, the text that was greatest. -/
theorem findPackageMaxValue_imported (hrev : t.Revisions) (hversion : version ≠ [])
    (hr : r ∈ t.packageRows version pkgarch)
    (hmax : maxText ((t.packageRows version pkgarch).map Row.value) = some r.value) :
    findPackageMaxValue (imported [] (t.exportAll false)) version pkgarch = .ok (some r.value) := by
  have hmem : ∀ x, x ∈ packageRows (imported [] (t.exportAll false)) version pkgarch ↔
      x ∈ packageRows (t.exportAll false) version pkgarch := by
    simp [mem_packageRows, mem_imported]
  refine extremumValue_of_above (revisions_packageRows (revisions_imported hrev _) _ _) ⟨r, ?_, rfl⟩
    fun x hx hne => ?_
  · exact (hmem r).2 (mem_packageRows_exportAll.2 ⟨hr, hmax, hversion⟩)
  · have hx := (mem_packageRows_exportAll.1 ((hmem x).1 hx)).2.1
    rw [hmax, Option.some.injEq] at hx
    exact absurd hx.symm hne

theorem perm_exportAll (h : ∀ r ∈ t, r.version ≠ []) : (t.exportAll true).Perm t := by
  have hall : t.exportAll true = RowOrder.order t := by
    have hkept : (RowOrder.order t).filter (fun r => r.version ≠ []) = RowOrder.order t := by
      refine List.filter_eq_self.2 fun r hr => ?_
      simpa using h r ((RowOrder.order_perm t).mem_iff.1 hr)
    simpa [exportAll, exportTable, datainfo, selects] using hkept
  rw [hall]
  exact RowOrder.order_perm t

theorem TextAgrees.keeps (h : t.TextAgrees) (hrev : t.Revisions) (hnodup : t.Nodup) :
    t.KeepsMaximum := by
  have hnamed : ∀ {version pkgarch r}, r ∈ t.packageRows version pkgarch → version ≠ [] := by
    intro version pkgarch r hr
    obtain ⟨hmem, rfl, -⟩ := mem_packageRows.1 hr
    exact h.named r hmem
  have habove : ∀ {version pkgarch r}, r ∈ t.packageRows version pkgarch →
      maxText ((t.packageRows version pkgarch).map Row.value) = some r.value →
      ∀ r' ∈ t.packageRows version pkgarch, r'.value ≠ r.value →
        Below (num r'.value) (num r.value) := by
    intro version pkgarch r hr hmax
    obtain ⟨hmem, rfl, rfl⟩ := mem_packageRows.1 hr
    exact h.text r hmem hmax
  refine { present := ?_, greatest := ?_, maximum := ?_, history := ?_ }
  · intro version pkgarch hne
    obtain ⟨r, hr, hmax⟩ := maxText_package hne
    exact List.ne_nil_of_mem (mem_packageRows_exportAll.2 ⟨hr, hmax, hnamed hr⟩)
  · intro version pkgarch r hr
    obtain ⟨hr, hmax, -⟩ := mem_packageRows_exportAll.1 hr
    refine ⟨⟨r, hr, rfl⟩, ?_⟩
    rintro n ⟨r', hr', rfl⟩
    by_cases he : r'.value = r.value
    · rw [he]
    · exact (habove hr hmax r' hr' he).lt.le
  · intro version pkgarch
    by_cases hne : t.packageRows version pkgarch = []
    · have hexp : packageRows (t.exportAll false) version pkgarch = [] := by
        rw [List.eq_nil_iff_forall_not_mem]
        intro r hr
        have := (mem_packageRows_exportAll.1 hr).1
        rw [hne] at this
        cases this
      rw [findPackageMaxValue, findPackageMaxValue, packageRows_imported_nonempty.2 hexp, hne]
    · obtain ⟨r, hr, hmax⟩ := maxText_package hne
      rw [findPackageMaxValue_imported hrev (hnamed hr) hr hmax]
      exact (extremumValue_of_above (revisions_packageRows hrev _ _) ⟨r, hr, rfl⟩
        (habove hr hmax)).symm
  · have hperm := perm_exportAll h.named
    rw [imported_of_nodup (hperm.nodup_iff.2 hnodup)]
    exact hperm

end Selected

/-- The order in which a given row comes last. -/
@[reducible] def lastly (r : Row) : RowOrder where
  order rows := if r ∈ rows then rows.erase r ++ [r] else rows
  order_perm rows := by
    split
    · rename_i h
      exact (List.perm_append_singleton ..).trans (List.perm_cons_erase h).symm
    · exact List.Perm.refl _

theorem TextAgrees.of_keeps {t : Table} (h : ∀ [RowOrder], t.KeepsMaximum) (hrev : t.Revisions) :
    t.TextAgrees := by
  have hnamed : ∀ r ∈ t, r.version ≠ [] := by
    intro r hr
    let _ := lastly r
    have hmem := h.history.mem_iff.2 hr
    rw [mem_imported, mem_exportAll] at hmem
    exact (hmem.resolve_left List.not_mem_nil).2.2
  refine ⟨hnamed, fun r hr hmax x hx hne => ?_⟩
  let _ := lastly x
  have hpackage : r ∈ t.packageRows r.version r.pkgarch := mem_packageRows.2 ⟨hr, rfl, rfl⟩
  have hmaximum := h.maximum r.version r.pkgarch
  rw [findPackageMaxValue_imported hrev (hnamed r hr) hpackage hmax] at hmaximum
  have hfetch : fetchall (t.packageRows r.version r.pkgarch) =
      ((t.packageRows r.version r.pkgarch).erase x).map Row.value ++ [x.value] := by
    rw [fetchall, show RowOrder.order (t.packageRows r.version r.pkgarch) =
      (t.packageRows r.version r.pkgarch).erase x ++ [x] from if_pos hx, List.map_append]
    rfl
  have hrest : ∀ y ∈ ((t.packageRows r.version r.pkgarch).erase x).map Row.value, IsRevision y := by
    intro y hy
    obtain ⟨r', hr', rfl⟩ := List.mem_map.1 hy
    exact hrev r' (mem_packageRows.1 (List.mem_of_mem_erase hr')).1
  have hall : ∀ y ∈ ((t.packageRows r.version r.pkgarch).erase x).map Row.value ++ [x.value],
      IsRevision y := by
    intro y hy
    rcases List.mem_append.1 hy with hy | hy
    · exact hrest y hy
    · rw [List.mem_singleton.1 hy]
      exact hrev x (mem_packageRows.1 hx).1
  have hin : r ∈ (t.packageRows r.version r.pkgarch).erase x :=
    (List.mem_erase_of_ne fun he => hne (by rw [he])).2 hpackage
  -- the other rows have a maximum, and `x` is compared with it last
  obtain ⟨v, hv⟩ : ∃ v, extremumValue (((t.packageRows r.version r.pkgarch).erase x).map Row.value)
      true = .ok (some v) := by
    cases hl : ((t.packageRows r.version r.pkgarch).erase x).map Row.value with
    | nil =>
      rw [List.map_eq_nil_iff.1 hl] at hin
      cases hin
    | cons w l =>
      rw [hl] at hrest
      exact ⟨_, extremumValue_cons hrest⟩
  rw [findPackageMaxValue, hfetch, extremumValue_concat hall hv, Except.ok.injEq,
    Option.some.injEq] at hmaximum
  by_cases hacc : accepts true x.value v
  · rw [if_pos hacc] at hmaximum
    exact absurd hmaximum.symm hne
  · rw [if_neg hacc] at hmaximum
    rw [← hmaximum] at hacc
    by_contra hb
    exact hacc (decide_eq_true ⟨hb, hne⟩)

/-- Export and import keep the maximum of every package, and with history the whole table, whatever
the order of the rows, exactly when texts and revisions agree on the greatest of each package. -/
theorem export_keeps_maximum {t : Table} (hrev : t.Revisions) (hnodup : t.Nodup) :
    (∀ [RowOrder], t.KeepsMaximum) ↔ t.TextAgrees :=
  ⟨fun h => .of_keeps h hrev, fun h => h.keeps hrev hnodup⟩

/-- Two revisions of one package. -/
def twoRows (first second : Str) : Table :=
  [⟨"1.0-r0".toList, "all".toList, "a".toList, first⟩,
    ⟨"1.0-r0".toList, "all".toList, "b".toList, second⟩]

theorem export_keeps_one_digit :
    (∀ [RowOrder], (twoRows "8".toList "9".toList).KeepsMaximum) ↔
      (twoRows "8".toList "9".toList).TextAgrees := by
  have hrev : (twoRows "8".toList "9".toList).Revisions := by
    intro r hr
    rcases List.mem_pair.1 hr with rfl | rfl
    · exact ⟨[8], by decide⟩
    · exact ⟨[9], by decide⟩
  exact export_keeps_maximum hrev (by decide)

/-- Of `9` and `10`, the `9` is exported. -/
theorem export_loses_maximum : ¬ ∀ [RowOrder], (twoRows "9".toList "10".toList).KeepsMaximum := by
  intro h
  let _ : RowOrder := ⟨id, List.Perm.refl⟩
  have hrow : (⟨"1.0-r0".toList, "all".toList, "a".toList, "9".toList⟩ : Row) ∈
      packageRows ((twoRows "9".toList "10".toList).exportAll false) "1.0-r0".toList "all".toList := by
    decide +kernel
  have hle : num "10".toList ≤ num "9".toList := (h.greatest _ _ _ hrow).2
    ⟨⟨"1.0-r0".toList, "all".toList, "b".toList, "10".toList⟩, by decide +kernel, rfl⟩
  have hlt : Below (num "9".toList) (num "10".toList) := by decide +kernel
  exact not_le.2 hlt.lt hle

end Table
end PrServ
end OpenBmc
