import OpenBmc.PrServ.Upstream

/-!
# Requests of several connections

The handler of a `get-pr` suspends where it asks upstream, and the handlers of other connections run
meanwhile. `Point` says what a suspended handler waits for and what it has computed before; `resume`
runs it from an answer of upstream to its next question or to its own answer. With nobody in between
the points are `handleGetPr` (`drive_begin`).
-/

namespace OpenBmc
namespace PrServ
open Py Dotted

structure GetPr where
  version : Str
  pkgarch : Str
  checksum : Str
  history : Bool
deriving DecidableEq

inductive Point where
  /-- `max_package_pr`, with the value the checksum has here. -/
  | first (value : Option Str)
  /-- `test_pr`, for a known value that is below upstream's maximum. -/
  | raised (existingValue : Str) (upstreamMax : Option Str)
  /-- `test_package`. -/
  | package
  /-- `test_pr`, for a new checksum. -/
  | checksum
  /-- `max_package_pr`, for a checksum new upstream too. -/
  | maximum
deriving DecidableEq

namespace GetPr
variable (req : GetPr)

def row (value : Str) : Row := ⟨req.version, req.pkgarch, req.checksum, value⟩

/-- The answer to a request, stored. -/
def answer (readOnly : Bool) (t : Table) (value : Str) : Point ⊕ Str × Table :=
  .inr (value, t.storeValue readOnly (req.row value))

/-- The answer for a known checksum, stored if it is a new value. -/
def answerKnown (readOnly : Bool) (t : Table) (existingValue value : Str) : Point ⊕ Str × Table :=
  if value ≠ existingValue then req.answer readOnly t value else .inr (value, t)

variable [RowOrder]

/-- From the request to the first question. -/
def begin (t : Table) : Except PyError Point := do
  return .first (← t.findValue req.version req.pkgarch req.checksum req.history)

def resume (readOnly : Bool) (up t : Table) : Point → Except PyError (Point ⊕ Str × Table)
  | .first (some existingValue) => do
    let upstreamMax ← up.findPackageMaxValue req.version req.pkgarch
    if req.history then
      return .inr (← t.getValue readOnly req.version req.pkgarch req.checksum req.history)
    else
      let value ← t.raiseLocally req.version req.pkgarch existingValue
      if ← revisionSmaller value upstreamMax then return .inl (.raised existingValue upstreamMax)
      else return req.answerKnown readOnly t existingValue value
  | .first none => do
    let _ ← up.findPackageMaxValue req.version req.pkgarch
    return .inl .package
  | .raised existingValue upstreamMax => do
    match ← up.findValue req.version req.pkgarch req.checksum false with
    | none => return req.answerKnown readOnly t existingValue (strOf upstreamMax ++ ".0".toList)
    | some _ => return req.answerKnown readOnly t existingValue (strOf upstreamMax)
  | .package => do
    if !up.testPackage req.version req.pkgarch then
      return .inr (← t.getValue readOnly req.version req.pkgarch req.checksum req.history)
    else return .inl .checksum
  | .checksum => do
    match ← up.findValue req.version req.pkgarch req.checksum false with
    | some value => return req.answer readOnly t value
    | none => return .inl .maximum
  | .maximum => do
    let upstreamMax ← up.findPackageMaxValue req.version req.pkgarch
    return req.answer readOnly t (← t.findNewSubvalue req.version req.pkgarch (strOf upstreamMax))

/-- A handler alone, with at most `n` questions left. -/
def drive (readOnly : Bool) (up t : Table) : Nat → Point → Except PyError (Str × Table)
  | 0, _ => .error .valueError
  | n + 1, p => do
    match ← req.resume readOnly up t p with
    | .inl p => drive readOnly up t n p
    | .inr r => return r

end GetPr

section Alone
variable {readOnly : Bool} {up t : Table} {req : GetPr}

theorem answerKnown_eq {k x : Str} : req.answerKnown readOnly t k x =
    .inr (if x ≠ k then (x, t.storeValue readOnly (req.row x)) else (x, t)) := by
  unfold GetPr.answerKnown GetPr.answer
  split <;> rfl

variable [RowOrder]

theorem drive_of_inl {n : Nat} {p q : Point} (h : req.resume readOnly up t p = .ok (.inl q)) :
    req.drive readOnly up t (n + 1) p = req.drive readOnly up t n q := by
  rw [GetPr.drive, h]
  rfl

theorem drive_of_inr {n : Nat} {p : Point} {r : Str × Table}
    (h : req.resume readOnly up t p = .ok (.inr r)) : req.drive readOnly up t (n + 1) p = .ok r := by
  rw [GetPr.drive, h]
  rfl

theorem drive_of_error {n : Nat} {p : Point} {e : PyError}
    (h : req.resume readOnly up t p = .error e) : req.drive readOnly up t (n + 1) p = .error e := by
  rw [GetPr.drive, h]
  rfl

/-- A handler that nobody else interrupts, with one upstream table, is `handleGetPr`. -/
theorem drive_begin : (req.begin t >>= req.drive readOnly up t 4) =
    handleGetPr readOnly (some up) t req.version req.pkgarch req.checksum req.history := by
  simp only [GetPr.begin, handleGetPr, bind, Except.bind, pure, Except.pure]
  rcases t.findValue req.version req.pkgarch req.checksum req.history with e | (_ | k)
  · rfl
  · rcases hu : up.findPackageMaxValue req.version req.pkgarch with e | u
    · refine drive_of_error ?_
      simp [GetPr.resume, hu, bind, Except.bind]
    refine (drive_of_inl (q := .package) ?_).trans ?_
    · simp [GetPr.resume, hu, bind, Except.bind, pure, Except.pure]
    cases hp : up.testPackage req.version req.pkgarch
    · rcases hg : t.getValue readOnly req.version req.pkgarch req.checksum req.history with e | r
      · refine drive_of_error ?_
        simp [GetPr.resume, hp, hg, bind, Except.bind]
      · refine drive_of_inr ?_
        simp [GetPr.resume, hp, hg, bind, Except.bind, pure, Except.pure]
    refine (drive_of_inl (q := .checksum) ?_).trans ?_
    · simp [GetPr.resume, hp, pure, Except.pure]
    rcases hc : up.findValue req.version req.pkgarch req.checksum false with e | (_ | x)
    · refine drive_of_error ?_
      simp [GetPr.resume, hc, bind, Except.bind]
    · refine (drive_of_inl (q := .maximum) ?_).trans ?_
      · simp [GetPr.resume, hc, bind, Except.bind, pure, Except.pure]
      rcases hs : t.findNewSubvalue req.version req.pkgarch (strOf u) with e | x
      · refine (drive_of_error (e := e) ?_).trans ?_
        · simp [GetPr.resume, hu, hs, bind, Except.bind]
        · simp [hs]
      · refine (drive_of_inr (r := (x, t.storeValue readOnly (req.row x))) ?_).trans ?_
        · simp [GetPr.resume, GetPr.answer, hu, hs, bind, Except.bind, pure, Except.pure]
        · simp [GetPr.row, hs]
    · refine drive_of_inr ?_
      simp [GetPr.resume, GetPr.answer, GetPr.row, hc, bind, Except.bind, pure, Except.pure]
  rcases hu : up.findPackageMaxValue req.version req.pkgarch with e | u
  · refine (drive_of_error (e := e) ?_).trans rfl
    simp [GetPr.resume, hu, bind, Except.bind]
  cases hh : req.history
  · rcases hl : t.raiseLocally req.version req.pkgarch k with e | x
    · refine (drive_of_error (e := e) ?_).trans ?_
      · simp [GetPr.resume, hu, hh, hl, bind, Except.bind]
      · simp [hl]
    -- the stored answer as `handleGetPr` writes it
    have hstore : ∀ y : Str, (if y ≠ k then Except.ok (y, t.storeValue readOnly (req.row y))
        else .ok (y, t)) = (Except.ok (if y ≠ k then (y, t.storeValue readOnly (req.row y))
          else (y, t)) : Except PyError (Str × Table)) := fun y => by split <;> rfl
    rcases hb : revisionSmaller (some x) u with e | (_ | _)
    · refine (drive_of_error (e := e) ?_).trans ?_
      · simp [GetPr.resume, hu, hh, hl, hb, bind, Except.bind]
      · simp [Table.raiseToUpstream, hl, hb, bind, Except.bind]
    · refine (drive_of_inr ?_).trans ((hstore x).symm.trans ?_)
      · simp [GetPr.resume, answerKnown_eq, hu, hh, hl, hb, bind, Except.bind, pure, Except.pure]
      · simp [Table.raiseToUpstream, GetPr.row, hl, hb, bind, Except.bind, pure, Except.pure]
    · refine (drive_of_inl (q := .raised k u) ?_).trans ?_
      · simp [GetPr.resume, hu, hh, hl, hb, bind, Except.bind, pure, Except.pure]
      rcases hc : up.findValue req.version req.pkgarch req.checksum false with e | (_ | y)
      · refine (drive_of_error (e := e) ?_).trans ?_
        · simp [GetPr.resume, hc, bind, Except.bind]
        · simp [Table.raiseToUpstream, hl, hb, hc, bind, Except.bind]
      · refine (drive_of_inr ?_).trans ((hstore (strOf u ++ ".0".toList)).symm.trans ?_)
        · simp [GetPr.resume, answerKnown_eq, hc, bind, Except.bind, pure, Except.pure]
        · simp [Table.raiseToUpstream, GetPr.row, hl, hb, hc, bind, Except.bind, pure, Except.pure]
      · refine (drive_of_inr ?_).trans ((hstore (strOf u)).symm.trans ?_)
        · simp [GetPr.resume, answerKnown_eq, hc, bind, Except.bind, pure, Except.pure]
        · simp [Table.raiseToUpstream, GetPr.row, hl, hb, hc, bind, Except.bind, pure, Except.pure]
  · rcases hg : t.getValue readOnly req.version req.pkgarch req.checksum true with e | r
    · refine (drive_of_error (e := e) ?_).trans ?_
      · simp [GetPr.resume, hu, hh, hg, bind, Except.bind]
      · simp
    · refine (drive_of_inr (r := r) ?_).trans ?_
      · simp [GetPr.resume, hu, hh, hg, bind, Except.bind, pure, Except.pure]
      · simp

end Alone

/-! ### Runs -/

section Runs

structure Server where
  upstream : Table
  table : Table
  waiting : List (GetPr × Point)
  /-- The answers given, latest first. -/
  log : List (GetPr × Str)

/-- Nothing this answer compares or extends stands in the way of a value of its own: no prefix of the
greatest value is stored, and no other checksum got the sub-revision that is built without asking. -/
def Point.Clear (req : GetPr) (up t : Table) : Point → Prop
  | .first _ => Tip (Table.nums (t.packageRows req.version req.pkgarch))
  | .raised _ upstreamMax => req.row (strOf upstreamMax ++ ".0".toList) ∈ t ∨
      ∀ r ∈ t.packageRows req.version req.pkgarch, r.value ≠ strOf upstreamMax ++ ".0".toList
  | .package => Tip (Table.nums (t.packageRows req.version req.pkgarch))
  | .checksum => True
  | .maximum => ∀ r ∈ up.packageRows req.version req.pkgarch,
      '_' ∉ r.value ∧ Tip (Table.nums (t.subRows req.version req.pkgarch r.value))

-- the checksums, per version and architecture, that upstream never knows
variable (unknown : Str → Str → Str → Prop)

def Ignorant (up : Table) : Prop :=
  ∀ version pkgarch checksum, unknown version pkgarch checksum →
    up.checksumRows version pkgarch checksum = []

/-- No two unknown checksums of a package have one value. -/
def Distinct (t : Table) : Prop :=
  ∀ r ∈ t, ∀ r' ∈ t, unknown r.version r.pkgarch r.checksum → unknown r'.version r'.pkgarch r'.checksum →
    r.version = r'.version → r.pkgarch = r'.pkgarch → r.value = r'.value → r.checksum = r'.checksum

/-- A writable server with the handlers of any number of connections. Its upstream only grows. -/
inductive Step [RowOrder] : Server → Server → Prop
  | grow {s : Server} {up : Table} : s.upstream ⊆ up → up.Revisions → Ignorant unknown up →
      Step s { s with upstream := up }
  | arrive {s : Server} {req : GetPr} {p : Point} : req.begin s.table = .ok p →
      Step s { s with waiting := (req, p) :: s.waiting }
  | ask {s : Server} {req : GetPr} {p q : Point} {l₁ l₂ : List (GetPr × Point)} :
      s.waiting = l₁ ++ (req, p) :: l₂ → req.resume false s.upstream s.table p = .ok (.inl q) →
      Step s { s with waiting := l₁ ++ (req, q) :: l₂ }
  | answer {s : Server} {req : GetPr} {p : Point} {x : Str} {t : Table} {l₁ l₂ : List (GetPr × Point)} :
      s.waiting = l₁ ++ (req, p) :: l₂ → p.Clear req s.upstream s.table →
      req.resume false s.upstream s.table p = .ok (.inr (x, t)) →
      Step s { s with table := t, waiting := l₁ ++ l₂, log := (req, x) :: s.log }
  | fail {s : Server} {req : GetPr} {p : Point} {e : PyError} {l₁ l₂ : List (GetPr × Point)} :
      s.waiting = l₁ ++ (req, p) :: l₂ → req.resume false s.upstream s.table p = .error e →
      Step s { s with waiting := l₁ ++ l₂ }

/-- The servers that a run of answers, in any order, leads to. -/
inductive Reachable [RowOrder] : Server → Prop
  | start {up t : Table} : up.Revisions → Ignorant unknown up → t.Revisions → Distinct unknown t →
      Reachable ⟨up, t, [], []⟩
  | step {s s' : Server} : Reachable s → Step unknown s s' → Reachable s'

/-- What a suspended handler relies on: the value it found is still stored, and the package it found
upstream is still there. -/
def Point.Holds (req : GetPr) (up t : Table) : Point → Prop
  | .first value => ∀ k, value = some k → req.row k ∈ t
  | .raised existingValue upstreamMax => req.row existingValue ∈ t ∧
      ∃ u, upstreamMax = some u ∧ IsRevision u
  | .package => True
  | .checksum => up.packageRows req.version req.pkgarch ≠ []
  | .maximum => up.packageRows req.version req.pkgarch ≠ []

section Kept
variable {unknown} {up t : Table} {req : GetPr}

theorem Distinct.store {row : Row} (h : Distinct unknown t)
    (hnew : unknown row.version row.pkgarch row.checksum → row ∈ t ∨
      ∀ r ∈ t.packageRows row.version row.pkgarch, r.value ≠ row.value) :
    Distinct unknown (t.storeValue false row) := by
  have hrow : ∀ r ∈ t, unknown r.version r.pkgarch r.checksum →
      unknown row.version row.pkgarch row.checksum → r.version = row.version →
      r.pkgarch = row.pkgarch → r.value = row.value → r.checksum = row.checksum := by
    intro r hr hu hu' hv hp hx
    rcases hnew hu' with hmem | hne
    · exact h r hr row hmem hu hu' hv hp hx
    · exact absurd hx (hne r (Table.mem_packageRows.2 ⟨hr, hv, hp⟩))
  intro r hr r' hr' hu hu' hv hp hx
  rcases Table.mem_storeValue.1 hr with h₁ | rfl <;> rcases Table.mem_storeValue.1 hr' with h₂ | rfl
  · exact h r h₁ r' h₂ hu hu' hv hp hx
  · exact hrow r h₁ hu hu' hv hp hx
  · exact (hrow r' h₂ hu' hu hv.symm hp.symm hx.symm).symm
  · rfl

theorem Point.Holds.mono {up' t' : Table} {p : Point} (h : p.Holds req up t) (hup : up ⊆ up')
    (ht : t ⊆ t') : p.Holds req up' t' := by
  have hpackage : up.packageRows req.version req.pkgarch ≠ [] →
      up'.packageRows req.version req.pkgarch ≠ [] := by
    intro hne
    obtain ⟨r, hr⟩ := List.exists_mem_of_ne_nil _ hne
    obtain ⟨hmem, hv, hp⟩ := Table.mem_packageRows.1 hr
    exact List.ne_nil_of_mem (Table.mem_packageRows.2 ⟨hup hmem, hv, hp⟩)
  cases p with
  | first value => exact fun k hk => ht (h k hk)
  | raised k u => exact ⟨ht h.1, h.2⟩
  | package => trivial
  | checksum => exact hpackage h
  | maximum => exact hpackage h

/-- What an answer `x` and the table after it satisfy. -/
structure Given (req : GetPr) (up t : Table) (x : Str) (t' : Table) : Prop where
  stored : t' = t.storeValue false (req.row x)
  revision : IsRevision x
  fresh : up.checksumRows req.version req.pkgarch req.checksum = [] →
    req.row x ∈ t ∨ ∀ r ∈ t.packageRows req.version req.pkgarch, r.value ≠ x

/-- How a handler goes on: with a question that it has what it needs for, or with an answer. -/
def Continued (req : GetPr) (up t : Table) : Point ⊕ Str × Table → Prop
  | .inl q => q.Holds req up t
  | .inr (x, t') => Given req up t x t'

theorem continued_answerKnown {k x : Str} (hk : req.row k ∈ t) (hx : IsRevision x)
    (hfresh : up.checksumRows req.version req.pkgarch req.checksum = [] → x ≠ k → req.row x ∈ t ∨
      ∀ r ∈ t.packageRows req.version req.pkgarch, r.value ≠ x) :
    Continued req up t (req.answerKnown false t k x) := by
  unfold GetPr.answerKnown
  split
  · rename_i hne
    exact ⟨rfl, hx, fun hK => hfresh hK hne⟩
  · rename_i heq
    obtain rfl := not_not.1 heq
    exact ⟨(storeValue_of_mem hk).symm, hx, fun _ => .inl hk⟩

variable [RowOrder]

theorem row_mem_of_findValue {k : Str} (hrev : t.Revisions)
    (h : t.findValue req.version req.pkgarch req.checksum req.history = .ok (some k)) : req.row k ∈ t := by
  by_cases hK : t.checksumRows req.version req.pkgarch req.checksum = []
  · rw [findValue_nil _ hK] at h
    cases h
  · have hKrev := Table.revisions_checksumRows hrev req.version req.pkgarch req.checksum
    unfold Table.findValue Table.findExtremumValue at h
    cases hh : req.history <;> rw [hh] at h
    · obtain ⟨_, hk, ⟨r, hr, rfl⟩, -⟩ := Table.extremumValue_max hKrev hK
      cases hk.symm.trans h
      exact Table.mem_of_mem_checksumRows hr
    · obtain ⟨_, hk, ⟨r, hr, rfl⟩⟩ := Table.extremumValue_min hKrev hK
      cases hk.symm.trans h
      exact Table.mem_of_mem_checksumRows hr

theorem holds_begin {p : Point} (hrev : t.Revisions) (h : req.begin t = .ok p) : p.Holds req up t := by
  unfold GetPr.begin at h
  rcases hv : t.findValue req.version req.pkgarch req.checksum req.history with e | value
  · rw [hv] at h
    cases h
  · rw [hv] at h
    cases h
    intro k hk
    subst hk
    exact row_mem_of_findValue hrev hv

theorem continued_getValue {r : Str × Table} (hrev : t.Revisions)
    (hclear : Tip (Table.nums (t.packageRows req.version req.pkgarch)))
    (h : t.getValue false req.version req.pkgarch req.checksum req.history = .ok r) :
    Continued req up t (.inr r) := by
  obtain ⟨x, hx, hxrev, hxnew⟩ := Table.newValue_eq hrev req.version req.pkgarch req.checksum req.history
  rw [Table.getValue, hx] at h
  cases h
  refine ⟨rfl, hxrev, fun _ => hxnew.imp_right fun h r hr he => ?_⟩
  have := h hclear r hr
  rw [he] at this
  exact lt_irrefl _ this

/-- The known value, or one that nobody has here. -/
theorem raiseLocally_eq {k : Str} (hrev : t.Revisions) (hk : req.row k ∈ t) :
    ∃ z, t.raiseLocally req.version req.pkgarch k = .ok z ∧ IsRevision z ∧
      (Tip (Table.nums (t.packageRows req.version req.pkgarch)) →
        z = k ∨ ∀ r ∈ t.packageRows req.version req.pkgarch, r.value ≠ z) := by
  have hVrev := Table.revisions_packageRows hrev req.version req.pkgarch
  have hkV : req.row k ∈ t.packageRows req.version req.pkgarch := Table.mem_packageRows.2 ⟨hk, rfl, rfl⟩
  obtain ⟨_, hm, ⟨m, hmV, rfl⟩, hmax⟩ := Table.extremumValue_max hVrev (List.ne_nil_of_mem hkV)
  obtain ⟨b, hb, -⟩ := revisionSmaller_eq (hrev _ hk) (hVrev m hmV)
  obtain ⟨y, hy, hyrev, hynum⟩ := increaseRevision_eq (hVrev m hmV)
  have hb' : revisionSmaller (some k) (some m.value) = .ok b := hb
  simp only [Table.raiseLocally, Table.findPackageMaxValue, hm, bind, Except.bind, hb']
  cases b
  · exact ⟨k, rfl, hrev _ hk, fun _ => .inl rfl⟩
  · refine ⟨y, hy, hyrev, fun htip => .inr fun r hr he => ?_⟩
    have hlt : num r.value < num y := by
      rw [hynum]
      exact ((hmax htip).2 ⟨r, hr, rfl⟩).trans_lt (lt_bump (components_ne_nil (hVrev m hmV).components))
    rw [he] at hlt
    exact lt_irrefl _ hlt

/-- A comparison with upstream's maximum that gives an answer had one. -/
theorem exists_of_revisionSmaller {z : Str} {u : Option Str} {b : Bool} (hup : up.Revisions)
    (hu : up.findPackageMaxValue req.version req.pkgarch = .ok u) (h : revisionSmaller z u = .ok b) :
    ∃ m, u = some m ∧ IsRevision m := by
  by_cases hU : up.packageRows req.version req.pkgarch = []
  · rw [Table.findPackageMaxValue, hU, Table.extremumValue_nil] at hu
    cases hu
    simp [revisionSmaller, revisionGreaterOrEqual, splitDots, bind, Except.bind] at h
  · obtain ⟨_, hu', hmax⟩ := findPackageMaxValue_eq hup req.version req.pkgarch
    obtain ⟨m, hm, rfl, -⟩ := hmax hU
    cases hu'.symm.trans hu
    exact ⟨_, rfl, Table.revisions_packageRows hup _ _ m hm⟩

theorem continued_resume {p : Point} {out : Point ⊕ Str × Table} (hrev : t.Revisions)
    (hup : up.Revisions) (hp : p.Holds req up t)
    (hclear : (∃ r, out = .inr r) → p.Clear req up t) (h : req.resume false up t p = .ok out) :
    Continued req up t out := by
  obtain ⟨u, hu, humax⟩ := findPackageMaxValue_eq hup req.version req.pkgarch
  have hVrev := Table.revisions_packageRows hrev req.version req.pkgarch
  cases p with
  | first value =>
    cases value with
    | none =>
      rw [GetPr.resume, hu] at h
      cases h
      trivial
    | some k =>
      have hk := hp k rfl
      cases hh : req.history
      · -- raised locally, then compared with upstream
        obtain ⟨z, hz, hzrev, hznew⟩ := raiseLocally_eq hrev hk
        rcases hb : revisionSmaller (some z) u with e | (_ | _)
        · simp [GetPr.resume, hu, hh, hz, hb, bind, Except.bind] at h
        · simp [GetPr.resume, hu, hh, hz, hb, bind, Except.bind, pure, Except.pure] at h
          subst h
          have htip := hclear (by rw [answerKnown_eq]; exact ⟨_, rfl⟩)
          exact continued_answerKnown hk hzrev fun _ hne => .inr ((hznew htip).resolve_left hne)
        · simp [GetPr.resume, hu, hh, hz, hb, bind, Except.bind, pure, Except.pure] at h
          subst h
          exact ⟨hk, exists_of_revisionSmaller hup hu hb⟩
      · simp only [GetPr.resume, hu, hh, bind, Except.bind, if_true] at h
        rw [← hh] at h
        rcases hg : t.getValue false req.version req.pkgarch req.checksum req.history with e | r
        · rw [hg] at h
          cases h
        · rw [hg] at h
          cases h
          exact continued_getValue hrev (hclear ⟨_, rfl⟩) hg
  | raised k u =>
    obtain ⟨hk, m, rfl, hm⟩ := hp
    obtain ⟨known, hknown, hnone, -⟩ := findValue_isSome hup req.version req.pkgarch req.checksum
    cases known with
    | none =>
      simp only [GetPr.resume, hknown, bind, Except.bind] at h
      cases h
      have hclear := hclear (by rw [answerKnown_eq]; exact ⟨_, rfl⟩)
      exact continued_answerKnown hk (isRevision_append_zero hm) fun _ _ => hclear
    | some x =>
      simp only [GetPr.resume, hknown, bind, Except.bind] at h
      cases h
      exact continued_answerKnown hk hm fun hK => by cases hnone.2 hK
  | package =>
    cases htest : up.testPackage req.version req.pkgarch
    · rcases hg : t.getValue false req.version req.pkgarch req.checksum req.history with e | r
      · simp [GetPr.resume, htest, hg, bind, Except.bind] at h
      · simp [GetPr.resume, htest, hg, bind, Except.bind, pure, Except.pure] at h
        subst h
        exact continued_getValue hrev (hclear ⟨_, rfl⟩) hg
    · simp only [GetPr.resume, htest] at h
      cases h
      intro hU
      simp [Table.testPackage, hU] at htest
  | checksum =>
    obtain ⟨known, hknown, hnone, hsome⟩ := findValue_isSome hup req.version req.pkgarch req.checksum
    simp only [GetPr.resume, hknown, bind, Except.bind] at h
    cases known with
    | none =>
      cases h
      exact hp
    | some x =>
      cases h
      obtain ⟨r, hr, rfl⟩ := hsome x rfl
      exact ⟨rfl, Table.revisions_checksumRows hup _ _ _ r hr, fun hK => by cases hnone.2 hK⟩
  | maximum =>
    obtain ⟨m, hm, rfl, -⟩ := humax hp
    obtain ⟨y, hy, hyrev, hynew⟩ := Table.findNewSubvalue_eq hrev req.version req.pkgarch (Table.revisions_packageRows hup _ _ m hm)
    simp only [GetPr.resume, hu, bind, Except.bind, strOf, Option.getD_some, hy] at h
    cases h
    obtain ⟨hu, htip⟩ := hclear ⟨_, rfl⟩ m hm
    exact ⟨rfl, hyrev, fun _ => .inr ((hynew hu).2 htip)⟩

/-- The invariant of the runs. -/
structure Server.Kept (unknown : Str → Str → Str → Prop) (s : Server) : Prop where
  upstream : s.upstream.Revisions
  ignorant : Ignorant unknown s.upstream
  revisions : s.table.Revisions
  distinct : Distinct unknown s.table
  holds : ∀ w ∈ s.waiting, w.2.Holds w.1 s.upstream s.table
  stored : ∀ e ∈ s.log, e.1.row e.2 ∈ s.table

theorem Server.Kept.step {s s' : Server} (h : s.Kept unknown) (hs : Step unknown s s') :
    s'.Kept unknown := by
  cases hs with
  | grow hsub hrev hign =>
    exact ⟨hrev, hign, h.revisions, h.distinct,
      fun w hw => (h.holds w hw).mono hsub (List.Subset.refl _), h.stored⟩
  | arrive hp =>
    refine ⟨h.upstream, h.ignorant, h.revisions, h.distinct, fun w hw => ?_, h.stored⟩
    rcases List.mem_cons.1 hw with rfl | hw
    exacts [holds_begin h.revisions hp, h.holds w hw]
  | @ask req p q l₁ l₂ hw hq =>
    have hp := h.holds (req, p) (by simp [hw])
    have hnext : q.Holds req s.upstream s.table :=
      continued_resume h.revisions h.upstream hp (by rintro ⟨_, h⟩; cases h) hq
    refine ⟨h.upstream, h.ignorant, h.revisions, h.distinct, fun w hw' => ?_, h.stored⟩
    rcases List.mem_append.1 hw' with hw' | hw'
    · exact h.holds w (by simp [hw, hw'])
    · rcases List.mem_cons.1 hw' with rfl | hw'
      exacts [hnext, h.holds w (by simp [hw, hw'])]
  | @answer req p x t l₁ l₂ hw hclear hr =>
    have hp := h.holds (req, p) (by simp [hw])
    obtain ⟨rfl, hrev, hfresh⟩ : Given req s.upstream s.table x t :=
      continued_resume h.revisions h.upstream hp (fun _ => hclear) hr
    have hsub : s.table ⊆ s.table.storeValue false (req.row x) := fun r hr =>
      Table.mem_storeValue.2 (.inl hr)
    refine ⟨h.upstream, h.ignorant, fun r hr => ?_, h.distinct.store fun hu => hfresh (h.ignorant _ _ _ hu),
      fun w hw' => ?_, fun e he => ?_⟩
    · rcases Table.mem_storeValue.1 hr with hr | rfl
      exacts [h.revisions r hr, hrev]
    · refine (h.holds w ?_).mono (List.Subset.refl _) hsub
      rcases List.mem_append.1 hw' with hw' | hw' <;> simp [hw, hw']
    · rcases List.mem_cons.1 he with rfl | he
      exacts [Table.mem_storeValue.2 (.inr rfl), hsub (h.stored e he)]
  | @fail req p e l₁ l₂ hw hr =>
    refine ⟨h.upstream, h.ignorant, h.revisions, h.distinct, fun w hw' => h.holds w ?_, h.stored⟩
    rcases List.mem_append.1 hw' with hw' | hw' <;> simp [hw, hw']

theorem Reachable.kept {s : Server} (h : Reachable unknown s) : s.Kept unknown := by
  induction h with
  | start hup hign hrev hd => exact ⟨hup, hign, hrev, hd, by simp, by simp⟩
  | step _ hs ih => exact ih.step hs

end Kept

section Main
variable {unknown} [RowOrder]

end Main

end Runs

section Sample

local instance storedOrder : RowOrder := ⟨id, fun _ => .of_eq rfl⟩

namespace Sample

def row (checksum value : Str) : Row := ⟨['v'], ['a'], checksum, value⟩

def request (checksum : Str) : GetPr := ⟨['v'], ['a'], checksum, false⟩

/-- An upstream table that knows one checksum of one package. -/
def upstream : Table := [row ['1'] ['0']]

def unknown (_ _ checksum : Str) : Prop := checksum ≠ ['1']

theorem revisions_upstream : upstream.Revisions := by
  intro r hr
  rw [List.mem_singleton.1 hr]
  decide

theorem ignorant_upstream : Ignorant unknown upstream := by
  intro v p c hc
  have hne : ['1'] ≠ c := fun h => hc h.symm
  simp [Table.checksumRows, Table.packageRows, upstream, row, hne]

/-- A new checksum got the first sub-revision, while the request for another one waits. -/
def server : Server where
  upstream := upstream
  table := [row ['2'] ['0', '.', '0']]
  waiting := [(request ['3'], .first none)]
  log := [(request ['2'], ['0', '.', '0'])]

theorem reachable_server : Reachable unknown server := by
  have h₀ : Reachable unknown ⟨upstream, [], [], []⟩ :=
    .start revisions_upstream ignorant_upstream (by simp [Table.Revisions]) (by simp [Distinct])
  have h₁ := h₀.step (.arrive (p := .first none) (show (request ['2']).begin _ = _ by decide +kernel))
  have h₂ := h₁.step (.ask (q := .package) (show _ = [] ++ _ from rfl) (by decide +kernel))
  have h₃ := h₂.step (.arrive (p := .first none) (show (request ['3']).begin _ = _ by decide +kernel))
  have h₄ := h₃.step (.ask (q := .checksum) (show _ = [_] ++ _ from rfl) (by decide +kernel))
  have h₅ := h₄.step (.ask (q := .maximum) (show _ = [_] ++ _ from rfl) (by decide +kernel))
  refine h₅.step (.answer (show _ = [_] ++ _ from rfl) ?_ (by decide +kernel))
  have hpackage : upstream.packageRows ['v'] ['a'] = upstream := by decide
  intro r hr
  rw [show Server.upstream _ = upstream from rfl, request, hpackage] at hr
  rw [List.mem_singleton.1 hr]
  exact ⟨by decide, by simpa [Table.subRows, Table.packageRows] using tip_empty⟩

end Sample

end Sample

end PrServ
end OpenBmc
