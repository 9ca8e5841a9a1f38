import OpenBmc.PrServ.Table

/-!
# A PR server with upstream

`handleGetPr` answers a `get-pr` of a server that may have an upstream one, whose table answers the
questions asked of it. A request is answered unless its checksum is known locally and its package
unknown upstream.
-/

namespace OpenBmc
namespace PrServ
open Py Dotted

section Handler
variable [RowOrder]

/-- `str()` of a value that may be `None`. -/
def strOf (value : Option Str) : Str := value.getD "None".toList

/-- At least the maximum of the table, for a value it has. -/
def Table.raiseLocally (t : Table) (version pkgarch value : Str) : Except PyError Str := do
  let localMax ← t.findPackageMaxValue version pkgarch
  if ← revisionSmaller value localMax then increaseRevision (strOf localMax)
  else return value

/-- At least the maximum of the upstream table: that one if upstream knows the checksum. -/
def Table.raiseToUpstream (up : Table) (version pkgarch checksum value : Str)
    (upstreamMax : Option Str) : Except PyError Str := do
  if ← revisionSmaller value upstreamMax then
    match ← up.findValue version pkgarch checksum false with
    | none => return strOf upstreamMax ++ ".0".toList
    | some _ => return strOf upstreamMax
  else return value

def handleGetPr (readOnly : Bool) (upstream : Option Table) (t : Table)
    (version pkgarch checksum : Str) (history : Bool) : Except PyError (Str × Table) :=
  match upstream with
  | none => t.getValue readOnly version pkgarch checksum history
  | some up => do
    let value ← t.findValue version pkgarch checksum history
    let upstreamMax ← up.findPackageMaxValue version pkgarch
    match value with
    | some existingValue =>
      if history then t.getValue readOnly version pkgarch checksum history
      else
        let value ← t.raiseLocally version pkgarch existingValue
        let value ← up.raiseToUpstream version pkgarch checksum value upstreamMax
        if value ≠ existingValue then
          return (value, t.storeValue readOnly ⟨version, pkgarch, checksum, value⟩)
        else return (value, t)
    | none =>
      if !up.testPackage version pkgarch then t.getValue readOnly version pkgarch checksum history
      else
        match ← up.findValue version pkgarch checksum false with
        | some value => return (value, t.storeValue readOnly ⟨version, pkgarch, checksum, value⟩)
        | none =>
          let upstreamMax ← up.findPackageMaxValue version pkgarch
          let subvalue ← t.findNewSubvalue version pkgarch (strOf upstreamMax)
          return (subvalue, t.storeValue readOnly ⟨version, pkgarch, checksum, subvalue⟩)

end Handler

/-- The revision comparisons of a request agree with the order of the numbers: no proper prefix of a
greatest value is stored, here, upstream or among the sub-revisions of an upstream value, and neither
the greatest local number nor the one after it is a proper prefix of the greatest upstream. `LIKE`
takes an underscore for a wildcard. -/
structure Comparable (t up : Table) (version pkgarch : Str) : Prop where
  tipLocal : Tip (Table.nums (t.packageRows version pkgarch))
  tipUpstream : Tip (Table.nums (up.packageRows version pkgarch))
  sub : ∀ r ∈ up.packageRows version pkgarch,
    '_' ∉ r.value ∧ Tip (Table.nums (t.subRows version pkgarch r.value))
  clear : ∀ g u, IsGreatest (Table.nums (t.packageRows version pkgarch)) g →
    IsGreatest (Table.nums (up.packageRows version pkgarch)) u →
    (g <+: u → g = u) ∧ (bump g <+: u → bump g = u)

/-- What an answer `x` satisfies, where the comparisons agree with the numbers. -/
structure Answered (t up : Table) (version pkgarch checksum : Str) (history : Bool) (x : Str) : Prop where
  /-- Known here, or not known upstream at all: at least both maxima. -/
  greatest : history = false → t.checksumRows version pkgarch checksum ≠ [] ∨
      up.packageRows version pkgarch = [] →
    ∀ r, r ∈ t.packageRows version pkgarch ∨ r ∈ up.packageRows version pkgarch → num r.value ≤ num x
  /-- New here and known upstream: upstream's value for the checksum, or a sub-revision of
  upstream's greatest. -/
  upstream : t.checksumRows version pkgarch checksum = [] → up.packageRows version pkgarch ≠ [] →
    (∃ r ∈ up.checksumRows version pkgarch checksum, r.value = x) ∨
      up.checksumRows version pkgarch checksum = [] ∧
        ∀ r ∈ up.packageRows version pkgarch, num r.value < num x
  /-- For a checksum upstream does not know: its own value, or one nobody has. -/
  fresh : up.checksumRows version pkgarch checksum = [] →
    ⟨version, pkgarch, checksum, x⟩ ∈ t ∨ ∀ r ∈ t.packageRows version pkgarch, r.value ≠ x

variable {readOnly history : Bool} {t up : Table} {version pkgarch checksum : Str}

theorem storeValue_of_mem {row : Row} (h : row ∈ t) : t.storeValue readOnly row = t := by
  simp [Table.storeValue, h]

/-- The value of a known checksum after its comparison with the local maximum. -/
structure Raised (t up : Table) (version pkgarch : Str) (k z : Str) : Prop where
  ge : ∀ r ∈ t.packageRows version pkgarch, num r.value ≤ num z
  noPrefix : ∀ u, IsGreatest (Table.nums (up.packageRows version pkgarch)) u → num z <+: u → num z = u
  new : z = k ∨ ∀ r ∈ t.packageRows version pkgarch, r.value ≠ z

/-- A known value that is below the local maximum is raised above it; one that is not is it. -/
theorem raised_of_comparable (hc : Comparable t up version pkgarch) {k m : Row} {y : Str} {b : Bool}
    (hk : k ∈ t.packageRows version pkgarch)
    (hg : IsGreatest (Table.nums (t.packageRows version pkgarch)) (num m.value))
    (hb : b = true ↔ Below (num k.value) (num m.value)) (hy : num y = bump (num m.value))
    (hne : num m.value ≠ []) : Raised t up version pkgarch k.value (if b then y else k.value) := by
  by_cases hb' : b = true
  · have habove : ∀ r ∈ t.packageRows version pkgarch, num r.value < num y := fun r hr => by
      rw [hy]
      exact (hg.2 ⟨r, hr, rfl⟩).trans_lt (lt_bump hne)
    rw [if_pos hb']
    refine ⟨fun r hr => (habove r hr).le, fun u hu => ?_, .inr fun r hr he => ?_⟩
    · rw [hy]
      exact (hc.clear _ u hg hu).2
    · have := habove r hr
      rw [he] at this
      exact lt_irrefl _ this
  · have heq : num k.value = num m.value :=
      hc.tipLocal.eq_of_not_below hg ⟨k, hk, rfl⟩ fun h => hb' (hb.2 h)
    rw [if_neg hb']
    refine ⟨fun r hr => ?_, fun u hu => ?_, .inl rfl⟩
    · rw [heq]
      exact hg.2 ⟨r, hr, rfl⟩
    · rw [heq]
      exact (hc.clear _ u hg hu).1

/-- The answer for a known checksum: the raised value, or, when that is below the upstream maximum,
this maximum or a sub-revision of it. -/
theorem answered_of_raised {k m z : Str} {b : Bool} (h : Raised t up version pkgarch k z)
    (hg : IsGreatest (Table.nums (up.packageRows version pkgarch)) (num m)) (hm : IsRevision m)
    (hb : b = true ↔ Below (num z) (num m)) (hk : ⟨version, pkgarch, checksum, k⟩ ∈ t)
    (hK : t.checksumRows version pkgarch checksum ≠ []) :
    Answered t up version pkgarch checksum false
      (if b then if up.checksumRows version pkgarch checksum = [] then m ++ ".0".toList else m else z) := by
  by_cases hb' : b = true
  · have hlt := (hb.1 hb').lt
    rw [if_pos hb']
    have hlt' : num m < num (m ++ ".0".toList) := num_lt_of_extend hm (isRevision_append_zero hm)
    by_cases hK' : up.checksumRows version pkgarch checksum = []
    · rw [if_pos hK']
      have hgreat : ∀ r, r ∈ t.packageRows version pkgarch ∨ r ∈ up.packageRows version pkgarch →
          num r.value < num (m ++ ".0".toList) := by
        rintro r (hr | hr)
        · exact (h.ge r hr).trans_lt (hlt.trans hlt')
        · exact (hg.2 ⟨r, hr, rfl⟩).trans_lt hlt'
      refine ⟨fun _ _ r hr => (hgreat r hr).le, fun hn => absurd hn hK, fun _ => .inr fun r hr he => ?_⟩
      have := hgreat r (.inl hr)
      rw [he] at this
      exact lt_irrefl _ this
    · rw [if_neg hK']
      refine ⟨fun _ _ r hr => ?_, fun hn => absurd hn hK, fun hn => absurd hn hK'⟩
      rcases hr with hr | hr
      · exact (h.ge r hr).trans hlt.le
      · exact hg.2 ⟨r, hr, rfl⟩
  · rw [if_neg hb']
    have hle : num m ≤ num z := by
      by_contra hlt
      rcases lt_iff.1 (not_le.1 hlt) with hbelow | ⟨hp, hne⟩
      · exact hb' (hb.2 hbelow)
      · exact hne (h.noPrefix _ hg hp)
    refine ⟨fun _ _ r hr => ?_, fun hn => absurd hn hK, fun _ => ?_⟩
    · rcases hr with hr | hr
      · exact h.ge r hr
      · exact (hg.2 ⟨r, hr, rfl⟩).trans hle
    · rcases h.new with rfl | hnew
      · exact .inl hk
      · exact .inr hnew

section Spec
variable [RowOrder]

theorem findValue_false : t.findValue version pkgarch checksum false =
    Table.extremumValue (Table.fetchall (t.checksumRows version pkgarch checksum)) true := rfl

theorem findValue_isSome (hrev : t.Revisions) (version pkgarch checksum : Str) : ∃ value, t.findValue version pkgarch checksum false =
    .ok value ∧ (value = none ↔ t.checksumRows version pkgarch checksum = []) ∧
      ∀ x, value = some x → ∃ r ∈ t.checksumRows version pkgarch checksum, r.value = x := by
  rw [findValue_false]
  by_cases hK : t.checksumRows version pkgarch checksum = []
  · exact ⟨none, by rw [hK, Table.extremumValue_nil], by simp [hK], by simp⟩
  · obtain ⟨x, hx, hr, -⟩ := Table.extremumValue_max (Table.revisions_checksumRows hrev _ _ _) hK
    exact ⟨some x, hx, by simp [hK], fun y hy => Option.some.inj hy ▸ hr⟩

theorem raiseToUpstream_eq {u value : Str} {b : Bool} (hup : up.Revisions)
    (version pkgarch checksum : Str)
    (hb : revisionSmaller value u = .ok b) :
    up.raiseToUpstream version pkgarch checksum value u = .ok (if b then
      if up.checksumRows version pkgarch checksum = [] then u ++ ".0".toList else u else value) := by
  obtain ⟨known, hk, hnone, -⟩ := findValue_isSome hup version pkgarch checksum
  simp only [Table.raiseToUpstream, bind, Except.bind, hb, hk]
  cases b
  · rfl
  · cases known with
    | none => rw [if_pos rfl, if_pos rfl, if_pos (hnone.1 rfl)]; rfl
    | some x => rw [if_pos rfl, if_pos rfl, if_neg fun h => by cases hnone.2 h]; rfl

/-- The checksum is known here and the package upstream. -/
theorem handleGetPr_known (hrev : t.Revisions) (hup : up.Revisions)
    (hK : t.checksumRows version pkgarch checksum ≠ []) (hU : up.packageRows version pkgarch ≠ []) :
    ∃ x, handleGetPr readOnly (some up) t version pkgarch checksum false =
        .ok (x, t.storeValue readOnly ⟨version, pkgarch, checksum, x⟩) ∧ IsRevision x ∧
      (Comparable t up version pkgarch → Answered t up version pkgarch checksum false x) := by
  have hVrev := Table.revisions_packageRows hrev version pkgarch
  have hKrev := Table.revisions_checksumRows hrev version pkgarch checksum
  have hUrev := Table.revisions_packageRows hup version pkgarch
  have hK'rev := Table.revisions_checksumRows hup version pkgarch checksum
  have hV : t.packageRows version pkgarch ≠ [] := by
    intro h
    rw [Table.checksumRows, h] at hK
    exact hK rfl
  obtain ⟨_, hk, ⟨k, hkK, rfl⟩, -⟩ := Table.extremumValue_max hKrev hK
  obtain ⟨_, hm, ⟨m, hmV, rfl⟩, hmax⟩ := Table.extremumValue_max hVrev hV
  obtain ⟨_, hu, ⟨u, huU, rfl⟩, humax⟩ := Table.extremumValue_max hUrev hU
  have hkV := (Table.mem_checksumRows.1 hkK).1
  have hkt := Table.mem_of_mem_checksumRows hkK
  obtain ⟨b, hb, hbiff⟩ := revisionSmaller_eq (hKrev k hkK) (hVrev m hmV)
  obtain ⟨y, hy, hyrev, hynum⟩ := increaseRevision_eq (hVrev m hmV)
  have hzrev : IsRevision (if b then y else k.value) := by
    split
    exacts [hyrev, hKrev k hkK]
  obtain ⟨b', hb', hbiff'⟩ := revisionSmaller_eq hzrev (hUrev u huU)
  refine ⟨if b' then if up.checksumRows version pkgarch checksum = [] then u.value ++ ".0".toList
    else u.value else if b then y else k.value, ?_, ?_, fun hc => ?_⟩
  · have hlocal : t.raiseLocally version pkgarch k.value = .ok (if b then y else k.value) := by
      rw [Table.raiseLocally, Table.findPackageMaxValue, hm]
      simp only [bind, Except.bind, hb]
      cases b
      exacts [rfl, hy]
    have hraise := raiseToUpstream_eq hup version pkgarch checksum hb'
    generalize (if b' then if up.checksumRows version pkgarch checksum = [] then u.value ++ ".0".toList
      else u.value else if b then y else k.value) = x at hraise ⊢
    simp only [handleGetPr, findValue_false, Table.findPackageMaxValue, hk, hu, bind, Except.bind,
      hlocal, hraise, Bool.false_eq_true, if_false]
    split
    · rfl
    · rename_i he
      rw [not_not.1 he, storeValue_of_mem hkt]
      rfl
  · split
    · split
      exacts [isRevision_append_zero (hUrev u huU), hUrev u huU]
    · exact hzrev
  · exact answered_of_raised (raised_of_comparable hc hkV (hmax hc.tipLocal) hbiff hynum
      (components_ne_nil (hVrev m hmV).components)) (humax hc.tipUpstream) (hUrev u huU) hbiff' hkt hK

theorem findValue_true_some (hrev : t.Revisions) (hK : t.checksumRows version pkgarch checksum ≠ []) :
    ∃ x, t.findValue version pkgarch checksum true = .ok (some x) := by
  obtain ⟨x, hx, -⟩ := Table.extremumValue_min (Table.revisions_checksumRows hrev _ _ _) hK
  exact ⟨x, hx⟩

theorem findValue_nil (history : Bool) (hK : t.checksumRows version pkgarch checksum = []) :
    t.findValue version pkgarch checksum history = .ok none := by
  unfold Table.findValue Table.findExtremumValue
  rw [hK]
  cases history
  exacts [Table.extremumValue_nil true, Table.extremumValue_nil false]

theorem findPackageMaxValue_eq (hup : up.Revisions) (version pkgarch : Str) : ∃ u, up.findPackageMaxValue version pkgarch = .ok u ∧
    (up.packageRows version pkgarch ≠ [] → ∃ r ∈ up.packageRows version pkgarch, u = some r.value ∧
      (Tip (Table.nums (up.packageRows version pkgarch)) →
        IsGreatest (Table.nums (up.packageRows version pkgarch)) (num r.value))) := by
  unfold Table.findPackageMaxValue
  by_cases hU : up.packageRows version pkgarch = []
  · exact ⟨none, by rw [hU, Table.extremumValue_nil], fun h => absurd hU h⟩
  · obtain ⟨x, hx, ⟨r, hr, rfl⟩, hg⟩ := Table.extremumValue_max (Table.revisions_packageRows hup _ _) hU
    exact ⟨_, hx, fun _ => ⟨r, hr, rfl, hg⟩⟩

/-- A request is answered, and its answer stored, unless its checksum is known here, its package
unknown upstream and no history asked for. -/
theorem handleGetPr_answered (readOnly : Bool) (hrev : t.Revisions) (hup : up.Revisions)
    (hok : history = true ∨ t.checksumRows version pkgarch checksum = [] ∨
      up.packageRows version pkgarch ≠ []) :
    ∃ x, handleGetPr readOnly (some up) t version pkgarch checksum history =
        .ok (x, t.storeValue readOnly ⟨version, pkgarch, checksum, x⟩) ∧ IsRevision x ∧
      (Comparable t up version pkgarch → Answered t up version pkgarch checksum history x) := by
  obtain ⟨u, hu, humax⟩ := findPackageMaxValue_eq hup version pkgarch
  obtain ⟨x, hx, hxrev, hxnew⟩ := Table.newValue_eq hrev version pkgarch checksum history
  have hget : t.getValue readOnly version pkgarch checksum history =
      .ok (x, t.storeValue readOnly ⟨version, pkgarch, checksum, x⟩) := by
    rw [Table.getValue, hx]
    rfl
  by_cases hK : t.checksumRows version pkgarch checksum = []
  · have hvalue := findValue_nil history hK
    have hnot : ⟨version, pkgarch, checksum, x⟩ ∉ t := fun h => by
      have : (⟨version, pkgarch, checksum, x⟩ : Row) ∈ t.checksumRows version pkgarch checksum :=
        Table.mem_checksumRows.2 ⟨Table.mem_packageRows.2 ⟨h, rfl, rfl⟩, rfl⟩
      rw [hK] at this
      cases this
    by_cases hU : up.packageRows version pkgarch = []
    · -- a local-only package
      refine ⟨x, ?_, hxrev, fun hc => ?_⟩
      · simpa [handleGetPr, hvalue, hu, bind, Except.bind, Table.testPackage, hU] using hget
      have habove := hxnew.resolve_left hnot hc.tipLocal
      refine ⟨fun _ _ r hr => ?_, fun _ h => absurd hU h, fun _ => .inr fun r hr he => ?_⟩
      · rcases hr with hr | hr
        · exact (habove r hr).le
        · rw [hU] at hr
          cases hr
      · have := habove r hr
        rw [he] at this
        exact lt_irrefl _ this
    obtain ⟨m, hm, rfl, hmax⟩ := humax hU
    have htest : up.testPackage version pkgarch = true := by simpa [Table.testPackage] using hU
    obtain ⟨known, hknown, hnone, hsome⟩ := findValue_isSome hup version pkgarch checksum
    cases known with
    | some y =>
      -- upstream knows the checksum
      obtain ⟨r, hr, rfl⟩ := hsome y rfl
      refine ⟨r.value, ?_, Table.revisions_checksumRows hup _ _ _ r hr, fun _ => ?_⟩
      · simp [handleGetPr, hvalue, hu, bind, Except.bind, htest, hknown, pure, Except.pure]
      · exact ⟨fun _ h => (h.elim (absurd hK) (absurd · hU)), fun _ _ => .inl ⟨r, hr, rfl⟩,
          fun h => by cases hnone.2 h⟩
    | none =>
      -- a sub-revision of upstream's maximum
      have hK' := hnone.1 rfl
      obtain ⟨y, hy, hyrev, hynew⟩ := Table.findNewSubvalue_eq hrev version pkgarch (Table.revisions_packageRows hup _ _ m hm)
      refine ⟨y, ?_, hyrev, fun hc => ?_⟩
      · simp [handleGetPr, hvalue, hu, bind, Except.bind, htest, hknown, strOf, hy, pure, Except.pure]
      · obtain ⟨hu, htip⟩ := hc.sub m hm
        obtain ⟨hlt, hfresh⟩ := hynew hu
        exact ⟨fun _ h => (h.elim (absurd hK) (absurd · hU)),
          fun _ _ => .inr ⟨hK', fun r hr => ((hmax hc.tipUpstream).2 ⟨r, hr, rfl⟩).trans_lt hlt⟩,
          fun _ => .inr (hfresh htip)⟩
  · cases history with
    | true =>
      obtain ⟨y, hy⟩ := findValue_true_some hrev hK
      refine ⟨x, ?_, hxrev, fun hc => ?_⟩
      · simpa [handleGetPr, hy, hu, bind, Except.bind] using hget
      · refine ⟨nofun, fun h => absurd h hK, fun _ => hxnew.imp_right fun h r hr he => ?_⟩
        have := h hc.tipLocal r hr
        rw [he] at this
        exact lt_irrefl _ this
    | false =>
      exact handleGetPr_known hrev hup hK ((hok.resolve_left (by simp)).resolve_left hK)

end Spec

end PrServ
end OpenBmc
