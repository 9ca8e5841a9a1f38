import OpenBmc.HashServ.Server

/-!
# Equal outputs

A report maps its taskhash to the unihash of the oldest equal output. Once an output has a unihash
this stays the unihash of its oldest row (`Db.equivalent`), so two reports of equal outputs give
their taskhashes one unihash, unless the first stored its own while the second waited for upstream.
-/

namespace OpenBmc
namespace HashServ
open Py

/-- The unihash of the oldest row of an output. -/
def Db.equivalent (db : Db) (method outhash : Str) : Option Str :=
  (db.getUnihashByOuthash method outhash).map Prod.snd

section Oldest

/-- The rows of `l` with their unihashes. -/
def withUnihash (g : OuthashRow → Option Str) (l : List OuthashRow) : List (OuthashRow × Str) :=
  l.filterMap fun r => (g r).map fun u => (r, u)

variable {g g' : OuthashRow → Option Str} {l : List OuthashRow} {u : Str}

theorem withUnihash_congr (h : ∀ r ∈ l, g' r = g r) : withUnihash g' l = withUnihash g l :=
  List.filterMap_congr fun r hr => by rw [h r hr]

/-- Rows that get the unihash `u` leave the oldest one, or one with `u` is as old. -/
theorem oldest_withUnihash (h : ∀ r ∈ l, g' r = g r ∨ g r = none ∧ g' r = some u) :
    Db.oldest (withUnihash g' l) = Db.oldest (withUnihash g l) ∨
      ∃ y, Db.oldest (withUnihash g' l) = some y ∧ y.2 = u ∧
        ∀ x, Db.oldest (withUnihash g l) = some x → y.1.created ≤ x.1.created := by
  induction l with
  | nil => exact .inl rfl
  | cons r l ih =>
    have ih := ih fun r hr => h r (List.mem_cons_of_mem _ hr)
    have hsome : ∀ (f : OuthashRow → Option Str) v, f r = some v →
        Db.oldest (withUnihash f (r :: l)) = (Db.oldest (withUnihash f l)).elim (some (r, v))
          fun c => if c.1.created < r.created then some c else some (r, v) := by
      intro f v hv
      simp only [withUnihash, List.filterMap_cons, hv, Option.map_some, Db.oldest, first_cons]
      congr 1
      funext c
      by_cases hc : c.1.created < r.created <;> simp [hc]
    have hnone : ∀ f : OuthashRow → Option Str, f r = none →
        Db.oldest (withUnihash f (r :: l)) = Db.oldest (withUnihash f l) := by
      intro f hf
      simp only [withUnihash, List.filterMap_cons, hf, Option.map_none]
    rcases h r List.mem_cons_self with hr | ⟨hg, hg'⟩
    · cases hg : g r with
      | none => rwa [hnone g hg, hnone g' (hr.trans hg)]
      | some v =>
        rw [hsome g v hg, hsome g' v (hr.trans hg)]
        rcases ih with ih | ⟨y, hy, hyu, hle⟩
        · rw [ih]
          exact .inl rfl
        · cases hx : Db.oldest (withUnihash g l) with
          | none =>
            by_cases hyr : y.1.created < r.created
            · exact .inr ⟨y, by simp [hy, hyr], hyu, fun x hx => by simp at hx; simp [← hx, hyr.le]⟩
            · exact .inl (by simp [hy, hyr])
          | some x =>
            have hyx := hle x hx
            by_cases hyr : y.1.created < r.created
            · refine .inr ⟨y, by simp [hy, hyr], hyu, fun x' hx' => ?_⟩
              rw [Option.elim_some] at hx'
              split at hx'
              · rwa [← Option.some.inj hx']
              · rw [← Option.some.inj hx']
                exact hyr.le
            · have hxr : ¬ x.1.created < r.created := fun h => hyr (hyx.trans_lt h)
              exact .inl (by simp [hy, hyr, hxr])
    · -- the row `r` gets the unihash
      rw [hnone g hg, hsome g' u hg']
      rcases ih with ih | ⟨y, hy, hyu, hle⟩
      · rw [ih]
        cases hx : Db.oldest (withUnihash g l) with
        | none => exact .inr ⟨(r, u), rfl, rfl, by simp⟩
        | some x =>
          by_cases hxr : x.1.created < r.created
          · exact .inl (by simp [hxr])
          · refine .inr ⟨(r, u), by simp [hxr], rfl, fun x' hx' => ?_⟩
            rw [← Option.some.inj hx']
            exact not_lt.1 hxr
      · by_cases hyr : y.1.created < r.created
        · exact .inr ⟨y, by simp [hy, hyr], hyu, hle⟩
        · exact .inr ⟨(r, u), by simp [hy, hyr], rfl, fun x hx => (not_lt.1 hyr).trans (hle x hx)⟩

end Oldest

section Equivalent
variable {db : Db} {method taskhash outhash unihash : Str}

/-- The rows of an output. -/
def Db.rowsOf (db : Db) (method outhash : Str) : List OuthashRow :=
  db.outhashes.filter fun r => r.method = method ∧ r.outhash = outhash

def Db.unihashOf (db : Db) (r : OuthashRow) : Option Str := db.getEquivalent r.method r.taskhash

theorem filter_joined (p : OuthashRow → Bool) :
    (db.joined.filter fun r => p r.1) = withUnihash db.unihashOf (db.outhashes.filter p) := by
  unfold Db.joined withUnihash Db.unihashOf
  induction db.outhashes with
  | nil => rfl
  | cons r l ih =>
    cases hg : db.getEquivalent r.method r.taskhash <;> cases hp : p r <;> simp [hg, hp, ih]

theorem equivalent_eq : db.equivalent method outhash =
    (Db.oldest (withUnihash db.unihashOf (db.rowsOf method outhash))).map Prod.snd := by
  rw [Db.equivalent, Db.getUnihashByOuthash, Db.rowsOf, ← filter_joined]

/-- Another taskhash with the output, for a taskhash without a unihash: any. -/
theorem getEquivalentForOuthash_eq (h : db.getEquivalent method taskhash = none) :
    db.getEquivalentForOuthash method outhash taskhash = db.equivalent method outhash := by
  unfold Db.getEquivalentForOuthash Db.equivalent Db.getUnihashByOuthash
  congr 2
  refine List.filter_congr fun r hr => ?_
  have hu := (Db.mem_joined.1 (show (r.1, r.2) ∈ db.joined from hr)).2
  have hne : r.1.method = method → r.1.taskhash ≠ taskhash := by
    rintro hm ht
    rw [hm, ht, h] at hu
    cases hu
  by_cases hm : r.1.method = method
  · simp [hm, hne hm]
  · simp [hm]

theorem equivalent_ne_none {r : OuthashRow} {u : Str} (hr : r ∈ db.outhashes)
    (hu : db.unihashOf r = some u) : db.equivalent r.method r.outhash ≠ none := by
  intro h
  rw [equivalent_eq, Option.map_eq_none_iff, Db.oldest, first_eq_none] at h
  have hmem : (r, u) ∈ withUnihash db.unihashOf (db.rowsOf r.method r.outhash) := by
    refine List.mem_filterMap.2 ⟨r, List.mem_filter.2 ⟨hr, by simp⟩, by rw [hu]; rfl⟩
  rw [h] at hmem
  cases hmem

/-- What a taskhash without a unihash needs to get `unihash`: it has one output only, which has no
other unihash. -/
def Fits (db : Db) (method taskhash outhash unihash : Str) : Prop :=
  db.getEquivalent method taskhash = none →
    (∀ r ∈ db.outhashes, r.method = method → r.taskhash = taskhash → r.outhash = outhash) ∧
      ∀ u, db.equivalent method outhash = some u → u = unihash

theorem insertUnihash_of_some {u : Str} (h : db.getEquivalent method taskhash = some u) :
    db.insertUnihash method taskhash unihash = db := by
  refine dif_neg fun hnone => ?_
  rw [Db.getEquivalent_eq_none.2 hnone] at h
  cases h

/-- The unihash of an output after a taskhash got one: the one before, or this one. -/
theorem equivalent_insertUnihash (db : Db) (method taskhash unihash m o : Str) :
    (db.insertUnihash method taskhash unihash).equivalent m o = db.equivalent m o ∨
      (db.insertUnihash method taskhash unihash).equivalent m o = some unihash ∧
        ∃ r ∈ db.rowsOf m o, r.method = method ∧ r.taskhash = taskhash := by
  have hrows : (db.insertUnihash method taskhash unihash).rowsOf m o = db.rowsOf m o := by
    rw [Db.rowsOf, Db.outhashes_insertUnihash, Db.rowsOf]
  rw [equivalent_eq, equivalent_eq, hrows]
  have hget : ∀ r, (db.insertUnihash method taskhash unihash).unihashOf r = db.unihashOf r ∨
      db.unihashOf r = none ∧ (db.insertUnihash method taskhash unihash).unihashOf r = some unihash := by
    intro r
    simp only [Db.unihashOf, Db.getEquivalent_insertUnihash]
    split
    · rename_i h
      obtain ⟨hm, ht⟩ := Prod.mk.inj h.2
      exact .inr ⟨by rw [hm, ht]; exact h.1, rfl⟩
    · exact .inl rfl
  by_cases hex : ∃ r ∈ db.rowsOf m o, r.method = method ∧ r.taskhash = taskhash
  · rcases oldest_withUnihash (l := db.rowsOf m o) (fun r _ => hget r) with h | ⟨y, hy, hyu, -⟩
    · exact .inl (by rw [h])
    · exact .inr ⟨by rw [hy, Option.map_some, hyu], hex⟩
  · refine .inl ?_
    rw [withUnihash_congr fun r hr => ?_]
    unfold Db.unihashOf
    rw [Db.getEquivalent_insertUnihash, if_neg]
    rintro ⟨-, he⟩
    obtain ⟨hm, ht⟩ := Prod.mk.inj he
    exact hex ⟨r, hr, hm, ht⟩

theorem equivalent_insertUnihash_of_some (h : Fits db method taskhash outhash unihash) {m o u : Str}
    (hu : db.equivalent m o = some u) :
    (db.insertUnihash method taskhash unihash).equivalent m o = some u := by
  cases hg : db.getEquivalent method taskhash with
  | some v => rwa [insertUnihash_of_some hg]
  | none =>
    obtain ⟨honly, hfit⟩ := h hg
    rcases equivalent_insertUnihash db method taskhash unihash m o with he | ⟨he, r, hr, hm, ht⟩
    · rwa [he]
    · obtain ⟨hr, hp⟩ := List.mem_filter.1 hr
      obtain ⟨hm', ho'⟩ : r.method = m ∧ r.outhash = o := by simpa using hp
      obtain rfl : o = outhash := ho'.symm.trans (honly r hr hm ht)
      obtain rfl : m = method := hm'.symm.trans hm
      rw [he, hfit u hu]

/-- The output of a taskhash gets the unihash that the taskhash gets. -/
theorem equivalent_insertUnihash_self (h : Fits db method taskhash outhash unihash)
    (hnone : db.getEquivalent method taskhash = none) {r : OuthashRow} (hr : r ∈ db.outhashes)
    (hm : r.method = method) (ht : r.taskhash = taskhash) (ho : r.outhash = outhash) :
    (db.insertUnihash method taskhash unihash).equivalent method outhash = some unihash := by
  rcases equivalent_insertUnihash db method taskhash unihash method outhash with he | ⟨he, -⟩
  · have hr' : r ∈ (db.insertUnihash method taskhash unihash).outhashes := by
      rwa [Db.outhashes_insertUnihash]
    have hu' : (db.insertUnihash method taskhash unihash).unihashOf r = some unihash := by
      rw [Db.unihashOf, hm, ht, Db.getEquivalent_insertUnihash_self, hnone]
      rfl
    have hne := equivalent_ne_none hr' hu'
    rw [hm, ho] at hne
    obtain ⟨u, hu⟩ := Option.ne_none_iff_exists'.1 hne
    rw [hu, (h hnone).2 u (he.symm.trans hu)]
  · exact he

theorem rowsOf_insertOuthash (db : Db) (row : OuthashRow) (m o : Str) :
    (db.insertOuthash row).rowsOf m o = db.rowsOf m o ∨
      (row.method = m ∧ row.outhash = o) ∧ (db.insertOuthash row).rowsOf m o = db.rowsOf m o ++ [row] := by
  unfold Db.rowsOf Db.insertOuthash
  split
  · exact .inl rfl
  · by_cases hp : row.method = m ∧ row.outhash = o
    · exact .inr ⟨hp, by simp [hp]⟩
    · exact .inl (by simp [hp])

/-- A newer row of an output leaves its unihash. -/
theorem equivalent_insertOuthash_of_some {row : OuthashRow}
    (hnow : ∀ r ∈ db.outhashes, r.method = row.method → r.outhash = row.outhash →
      r.created < row.created) {m o u : Str} (hu : db.equivalent m o = some u) :
    (db.insertOuthash row).equivalent m o = some u := by
  have hget : (db.insertOuthash row).unihashOf = db.unihashOf :=
    funext fun r => Db.getEquivalent_insertOuthash ..
  obtain ⟨c, hc, rfl⟩ := Option.map_eq_some_iff.1 (equivalent_eq.symm.trans hu)
  rw [equivalent_eq, hget]
  refine Option.map_eq_some_iff.2 ⟨c, ?_, rfl⟩
  rcases rowsOf_insertOuthash db row m o with hrows | ⟨⟨rfl, rfl⟩, hrows⟩
  · rwa [hrows]
  · rw [hrows, withUnihash, List.filterMap_append]
    cases hg : db.unihashOf row with
    | none => simpa [hg, withUnihash] using hc
    | some v =>
      simp only [List.filterMap_cons, hg, Option.map_some, List.filterMap_nil]
      refine first_concat_of_le hc fun b hb => ?_
      obtain ⟨r, hr, he⟩ := List.mem_filterMap.1 hb
      obtain ⟨hr, hp⟩ := List.mem_filter.1 hr
      obtain ⟨hm, ho⟩ : r.method = row.method ∧ r.outhash = row.outhash := by simpa using hp
      obtain ⟨v', -, rfl⟩ := Option.map_eq_some_iff.1 he
      exact (hnow r hr hm ho).le

end Equivalent

/-- The runs of reports in which equal outputs get one unihash: the connections may report, the clock
moves on, a taskhash without a unihash is not reported while an output of it is stored, and after
upstream's answer for such a taskhash no equal output has another unihash than it gets. -/
def Clear (cfg : Config) (s : Server) : Event → Prop
  | .arrive (.report data mayReport now) =>
    (cfg.readOnly = false ∧ mayReport = true) ∧
    (∀ r ∈ s.db.outhashes, r.method = data.method → r.outhash = data.outhash → r.created < now) ∧
    (s.db.getEquivalent data.method data.taskhash = none →
      ∀ r ∈ s.db.outhashes, r.method = data.method → r.taskhash ≠ data.taskhash)
  | .arrive _ => False
  | .reply w d => ∀ data, w.point = .reportOuthash data →
      s.db.getEquivalent data.method data.taskhash = none →
      ∀ u, s.db.equivalent data.method data.outhash = some u →
        u = (d.map Record.unihash).getD data.unihash
  | .take => False
  | .backfill _ => False

/-- What is stored for a report that waits, with the unihash of its taskhash before. -/
structure Pending (db : Db) (before : Option Str) (data : Report) : Prop where
  row : ∃ r ∈ db.outhashes, r.method = data.method ∧ r.taskhash = data.taskhash ∧ r.outhash = data.outhash
  only : db.getEquivalent data.method data.taskhash = none → ∀ r ∈ db.outhashes,
    r.method = data.method → r.taskhash = data.taskhash → r.outhash = data.outhash
  equal : before = none → ∀ u, db.getEquivalent data.method data.taskhash = some u →
    db.equivalent data.method data.outhash = some u

/-- What is stored for a report that is answered. -/
def Mapped (db : Db) (before : Option Str) (data : Report) : Prop :=
  before = none → ∃ u, db.getEquivalent data.method data.taskhash = some u ∧
    db.equivalent data.method data.outhash = some u

/-- The invariant of the runs. -/
structure Server.Equal (s : Server) : Prop where
  pending : ∀ w ∈ s.waiting, ∃ data now, w.request = .report data true now ∧
    w.point = .reportOuthash data ∧ Pending s.db w.before data
  mapped : ∀ e ∈ s.log, ∃ data now, e.request = .report data true now ∧ Mapped s.db e.before data

section Stores
variable {db : Db} {before : Option Str} {data : Report} {unihash : Str}

theorem Pending.fits (h : Pending db before data)
    (hu : db.getEquivalent data.method data.taskhash = none →
      ∀ u, db.equivalent data.method data.outhash = some u → u = unihash) :
    Fits db data.method data.taskhash data.outhash unihash :=
  fun hnone => ⟨h.only hnone, hu hnone⟩

/-- The unihash of one report is stored: the others wait on. -/
theorem Pending.insertUnihash {before' : Option Str} {data' : Report} (h : Pending db before data)
    (hfits : Fits db data.method data.taskhash data.outhash unihash) (h' : Pending db before' data') :
    Pending (db.insertUnihash data.method data.taskhash unihash) before' data' := by
  obtain ⟨r, hr, hm, ht, ho⟩ := h'.row
  refine ⟨⟨r, by rwa [Db.outhashes_insertUnihash], hm, ht, ho⟩, fun hnone => ?_, fun hb u hu => ?_⟩
  · rw [Db.outhashes_insertUnihash]
    refine h'.only ?_
    cases hg : db.getEquivalent data'.method data'.taskhash with
    | none => rfl
    | some u =>
      rw [Db.getEquivalent_insertUnihash_of_some hg] at hnone
      cases hnone
  · rw [Db.getEquivalent_insertUnihash] at hu
    split at hu
    · -- the taskhash of the other report is this one: its only output too
      rename_i hsame
      obtain ⟨hm', ht'⟩ := Prod.mk.inj hsame.2
      obtain rfl := Option.some.inj hu
      have ho' := h.only hsame.1 r hr (hm.trans hm') (ht.trans ht')
      rw [hm', ← ho, ho']
      exact equivalent_insertUnihash_self hfits hsame.1 hr (hm.trans hm') (ht.trans ht') ho'
    · exact equivalent_insertUnihash_of_some hfits (h'.equal hb u hu)

theorem Mapped.insertUnihash {before' : Option Str} {data' : Report}
    (hfits : Fits db data.method data.taskhash data.outhash unihash) (h' : Mapped db before' data') :
    Mapped (db.insertUnihash data.method data.taskhash unihash) before' data' := by
  intro hb
  obtain ⟨u, hu, he⟩ := h' hb
  exact ⟨u, Db.getEquivalent_insertUnihash_of_some hu, equivalent_insertUnihash_of_some hfits he⟩

/-- The report itself is mapped then. -/
theorem Pending.mapped (h : Pending db before data)
    (hfits : Fits db data.method data.taskhash data.outhash unihash) :
    Mapped (db.insertUnihash data.method data.taskhash unihash) before data := by
  intro hb
  cases hg : db.getEquivalent data.method data.taskhash with
  | some u =>
    rw [insertUnihash_of_some hg]
    exact ⟨u, hg, h.equal hb u hg⟩
  | none =>
    obtain ⟨r, hr, hm, ht, ho⟩ := h.row
    refine ⟨unihash, ?_, equivalent_insertUnihash_self hfits hg hr hm ht ho⟩
    rw [Db.getEquivalent_insertUnihash_self, hg]
    rfl

section Row
variable {now : Str}
  (hnow : ∀ r ∈ db.outhashes, r.method = data.method → r.outhash = data.outhash → r.created < now)
  (hnew : db.getEquivalent data.method data.taskhash = none →
    ∀ r ∈ db.outhashes, r.method = data.method → r.taskhash ≠ data.taskhash)

theorem mem_insertOuthash_of_mem {row r : OuthashRow} (h : r ∈ db.outhashes) :
    r ∈ (db.insertOuthash row).outhashes := by
  unfold Db.insertOuthash
  split
  · exact h
  · exact List.mem_append_left _ h

theorem exists_mem_insertOuthash (db : Db) (row : OuthashRow) :
    ∃ r ∈ (db.insertOuthash row).outhashes, r.key = row.key := by
  unfold Db.insertOuthash
  split
  · rename_i h
    simpa using h
  · exact ⟨row, by simp, rfl⟩

include hnow hnew in
/-- The output row of one report is stored: the others wait on. -/
theorem Pending.insertOuthash {before' : Option Str} {data' : Report} (h' : Pending db before' data') :
    Pending (db.insertOuthash (Config.reportRow data now)) before' data' := by
  obtain ⟨r, hr, hm, ht, ho⟩ := h'.row
  refine ⟨⟨r, mem_insertOuthash_of_mem hr, hm, ht, ho⟩, fun hnone r' hr' hm' ht' => ?_, fun hb u hu => ?_⟩
  · rw [Db.getEquivalent_insertOuthash] at hnone
    rcases Db.mem_outhashes_insertOuthash hr' with hr' | rfl
    · exact h'.only hnone r' hr' hm' ht'
    · -- the taskhash has an output already
      have hm' : data.method = data'.method := hm'
      have ht' : data.taskhash = data'.taskhash := ht'
      rw [← hm', ← ht'] at hnone
      exact absurd (ht.trans ht'.symm) (hnew hnone r hr (hm.trans hm'.symm))
  · rw [Db.getEquivalent_insertOuthash] at hu
    exact equivalent_insertOuthash_of_some hnow (h'.equal hb u hu)

include hnow in
theorem Mapped.insertOuthash {before' : Option Str} {data' : Report} (h' : Mapped db before' data') :
    Mapped (db.insertOuthash (Config.reportRow data now)) before' data' := by
  intro hb
  obtain ⟨u, hu, he⟩ := h' hb
  exact ⟨u, by rwa [Db.getEquivalent_insertOuthash], equivalent_insertOuthash_of_some hnow he⟩

include hnew in
theorem pending_insertOuthash (now : Str) : Pending (db.insertOuthash (Config.reportRow data now))
    (db.getEquivalent data.method data.taskhash) data := by
  obtain ⟨r, hr, hk⟩ := exists_mem_insertOuthash db (Config.reportRow data now)
  obtain ⟨hm, hk⟩ := Prod.mk.inj hk
  obtain ⟨ht, ho⟩ := Prod.mk.inj hk
  refine ⟨⟨r, hr, hm, ht, ho⟩, fun hnone r' hr' hm' ht' => ?_, fun hb u hu => ?_⟩
  · rw [Db.getEquivalent_insertOuthash] at hnone
    rcases Db.mem_outhashes_insertOuthash hr' with hr' | rfl
    · exact absurd ht' (hnew hnone r' hr' hm')
    · rfl
  · rw [Db.getEquivalent_insertOuthash, hb] at hu
    cases hu

end Row

end Stores

section Run
variable {cfg : Config} {s s' : Server} {e : Event}

theorem storeReport_eq (db : Db) (data : Report) (unihash : Str) :
    cfg.storeReport db data unihash = (db.insertUnihash data.method data.taskhash unihash,
      .answer (some ((db.getEquivalent data.method data.taskhash).getD unihash)) false) := by
  unfold Config.storeReport Config.finishReport
  dsimp only
  rw [Db.getEquivalent_insertUnihash_self]

/-- How a report goes on: it waits for upstream, or it is answered and its taskhash mapped. -/
def Continues (db : Db) (before : Option Str) (data : Report) : Outcome → Prop
  | .answer .. => Mapped db before data
  | .wait point => point = .reportOuthash data ∧ Pending db before data
  | .error => False

/-- What the other handlers and the answers before need of a step from `db` to `db'`. -/
structure Carries (db db' : Db) : Prop where
  pending : ∀ before data, Pending db before data → Pending db' before data
  mapped : ∀ before data, Mapped db before data → Mapped db' before data

theorem Carries.refl (db : Db) : Carries db db := ⟨fun _ _ h => h, fun _ _ h => h⟩

theorem Carries.trans {db db' db'' : Db} (h : Carries db db') (h' : Carries db' db'') : Carries db db'' :=
  ⟨fun b d hp => h'.pending b d (h.pending b d hp), fun b d hm => h'.mapped b d (h.mapped b d hm)⟩

theorem Server.Equal.after {db : Db} {data : Report} {now : Str} {before : Option Str}
    {others : List Waiting} {puts : List (Str × Str)} {outcome : Outcome} (h : s.Equal)
    (hsub : ∀ w ∈ others, w ∈ s.waiting) (hc : Carries s.db db)
    (hout : Continues db before data outcome) :
    (s.after db (.report data true now) before others puts outcome).Equal := by
  refine ⟨fun w hw => ?_, fun e he => ?_⟩
  · rw [db_after]
    rcases mem_waiting_after hw with hw | ⟨point, rfl, rfl⟩
    · obtain ⟨data', now', hreq, hpoint, hp⟩ := h.pending w (hsub w hw)
      exact ⟨data', now', hreq, hpoint, hc.pending _ _ hp⟩
    · obtain ⟨rfl, hp⟩ := hout
      exact ⟨data, now, rfl, rfl, hp⟩
  · rw [db_after]
    have hbefore : ∀ e ∈ s.log, ∃ data now, e.request = .report data true now ∧
        Mapped db e.before data := by
      intro e he
      obtain ⟨data', now', hreq, hm⟩ := h.mapped e he
      exact ⟨data', now', hreq, hc.mapped _ _ hm⟩
    rcases log_after s db (.report data true now) before others puts outcome with hlog |
      ⟨v, b, rfl, hlog⟩
    · rw [hlog] at he
      exact hbefore e he
    · rw [hlog] at he
      rcases List.mem_cons.1 he with rfl | he
      · exact ⟨data, now, rfl, hout⟩
      · exact hbefore e he

/-- Storing the unihash of a report. -/
theorem carries_storeReport (cfg : Config) {db : Db} {before : Option Str} {data : Report}
    {unihash : Str} (hp : Pending db before data) (hu : db.getEquivalent data.method data.taskhash = none →
      ∀ u, db.equivalent data.method data.outhash = some u → u = unihash) :
    Carries db (cfg.storeReport db data unihash).1 ∧
      Continues (cfg.storeReport db data unihash).1 before data (cfg.storeReport db data unihash).2 := by
  rw [storeReport_eq]
  have hfits := hp.fits hu
  exact ⟨⟨fun _ _ h => hp.insertUnihash hfits h, fun _ _ h => h.insertUnihash hfits⟩, hp.mapped hfits⟩

/-- A report that comes. -/
theorem carries_report (cfg : Config) {db : Db} {data : Report} {now : Str}
    (hnow : ∀ r ∈ db.outhashes, r.method = data.method → r.outhash = data.outhash → r.created < now)
    (hnew : db.getEquivalent data.method data.taskhash = none →
      ∀ r ∈ db.outhashes, r.method = data.method → r.taskhash ≠ data.taskhash) :
    Carries db (cfg.report db data now).1 ∧ Continues (cfg.report db data now).1
      (db.getEquivalent data.method data.taskhash) data (cfg.report db data now).2 := by
  have hrow : Carries db (db.insertOuthash (Config.reportRow data now)) :=
    ⟨fun _ _ h => h.insertOuthash hnow hnew, fun _ _ h => h.insertOuthash hnow⟩
  have hp := pending_insertOuthash hnew now
  unfold Config.report
  dsimp only
  split
  · -- its unihash is that of the equal output, or its own
    split
    · rename_i unihash heq
      have hu : (db.insertOuthash (Config.reportRow data now)).getEquivalent data.method
          data.taskhash = none → ∀ u, (db.insertOuthash (Config.reportRow data now)).equivalent
          data.method data.outhash = some u → u = unihash := by
        intro hnone u hu
        rw [getEquivalentForOuthash_eq hnone, hu] at heq
        exact Option.some.inj heq
      obtain ⟨hc, hout⟩ := carries_storeReport cfg hp hu
      exact ⟨hrow.trans hc, hout⟩
    · rename_i heq
      split
      · exact ⟨hrow, rfl, hp⟩
      · have hu : (db.insertOuthash (Config.reportRow data now)).getEquivalent data.method
            data.taskhash = none → ∀ u, (db.insertOuthash (Config.reportRow data now)).equivalent
            data.method data.outhash = some u → u = data.unihash := by
          intro hnone u hu
          rw [getEquivalentForOuthash_eq hnone, hu] at heq
          cases heq
        obtain ⟨hc, hout⟩ := carries_storeReport cfg hp hu
        exact ⟨hrow.trans hc, hout⟩
  · -- the output is stored: so is a unihash for the taskhash
    rename_i hhas
    have hmem : (Config.reportRow data now).key ∈ db.outhashes.map OuthashRow.key := by
      simp only [Db.hasOuthash, Bool.or_eq_true, Bool.not_eq_true', decide_eq_false_iff_not, not_or,
        not_not] at hhas
      exact hhas.1
    refine ⟨hrow, ?_⟩
    obtain ⟨r, hr, hk⟩ := List.mem_map.1 hmem
    have hm : r.method = data.method := congrArg Prod.fst hk
    have ht : r.taskhash = data.taskhash := congrArg (fun k => k.2.1) hk
    cases hg : db.getEquivalent data.method data.taskhash with
    | none => exact absurd ht (hnew hg r hr hm)
    | some u =>
      unfold Config.finishReport
      rw [Db.getEquivalent_insertOuthash, hg]
      exact nofun

theorem Server.Equal.step (h : s.Equal) (hok : Clear cfg s e) (hs : Step cfg s e s') : s'.Equal := by
  cases hs with
  | @arrive request db outcome hh =>
    cases request with
    | report data mayReport now =>
      obtain ⟨⟨hro, rfl⟩, hnow, hnew⟩ := hok
      obtain ⟨hc, hout⟩ := carries_report cfg hnow hnew
      have hh : cfg.report s.db data now = (db, outcome) := by
        rw [← hh, Config.handle, hro]
        rfl
      rw [hh] at hc hout
      exact h.after (fun _ hw => hw) hc hout
    | get => exact hok.elim
    | getOuthash => exact hok.elim
    | getStream => exact hok.elim
    | reportEquiv => exact hok.elim
  | @reply w l₁ l₂ d db outcome puts hw hh =>
    obtain ⟨data, now, hreq, hpoint, hp⟩ := h.pending w (by simp [hw])
    obtain ⟨hc, hout⟩ := carries_storeReport cfg hp (hok data hpoint)
    have hh : ((cfg.storeReport s.db data ((d.map Record.unihash).getD data.unihash)).1,
        (cfg.storeReport s.db data ((d.map Record.unihash).getD data.unihash)).2, []) =
        (db, outcome, puts) := by
      rw [← hh, hpoint]
      rfl
    obtain ⟨hdb, hh⟩ := Prod.mk.inj hh
    obtain ⟨hout', -⟩ := Prod.mk.inj hh
    rw [hdb] at hc hout
    rw [hout'] at hout
    rw [hreq]
    refine h.after (fun w' hw' => ?_) hc hout
    rw [hw]
    rcases List.mem_append.1 hw' with hw' | hw' <;> simp [hw']
  | take => exact hok.elim
  | backfill => exact hok.elim

theorem Reachable.equal {init : Db → Prop} (h : Reachable cfg init (Clear cfg) s) : s.Equal := by
  induction h with
  | start => exact ⟨by simp, by simp⟩
  | step _ hok hs ih => exact ih.step hok hs

end Run

section Sample
namespace Sample

/-- A server with an upstream. -/
def asking : Config := ⟨true, false, false, by decide⟩

def empty : Db := ⟨[], [], none, List.nodup_nil, List.nodup_nil⟩

/-- The reports of one output for the taskhashes `t` and `u`. -/
def reportT : Report := ⟨['m'], ['t'], ['o'], ['v']⟩
def reportU : Report := ⟨['m'], ['u'], ['o'], ['w']⟩

def firstRequest : Request := .report reportT true ['1']
def secondRequest : Request := .report reportU true ['2']

def firstWaiting : Waiting := ⟨firstRequest, none, .reportOuthash reportT⟩
def secondWaiting : Waiting := ⟨secondRequest, none, .reportOuthash reportU⟩

def rows : List OuthashRow := [Config.reportRow reportT ['1'], Config.reportRow reportU ['2']]

def firstStored : Db := ⟨[], [Config.reportRow reportT ['1']], none, by decide, by decide⟩
def firstMapped : Db :=
  ⟨[⟨['m'], ['t'], ['v'], []⟩], [Config.reportRow reportT ['1']], none, by decide, by decide⟩

/-- The second report comes after the answer to the first. -/
def bothMapped : Db :=
  ⟨[⟨['m'], ['t'], ['v'], []⟩, ⟨['m'], ['u'], ['v'], []⟩], rows, none, by decide, by decide⟩

def inTurn : Server :=
  ⟨bothMapped, [], [], none,
    [⟨secondRequest, none, some ['v'], false⟩, ⟨firstRequest, none, some ['v'], false⟩]⟩

theorem reachable_inTurn : Reachable asking (fun _ => True) (Clear asking) inTurn := by
  have h₀ : Reachable asking (fun _ => True) (Clear asking) ⟨empty, [], [], none, []⟩ := .start trivial
  have ha : asking.handle empty firstRequest = (firstStored, .wait (.reportOuthash reportT)) := rfl
  have hb : asking.resume firstStored (.reportOuthash reportT) none =
      (firstMapped, .answer (some ['v']) false, []) := rfl
  have hc : asking.handle firstMapped secondRequest = (bothMapped, .answer (some ['v']) false) := rfl
  have h₁ := h₀.step (e := .arrive firstRequest) ⟨⟨rfl, rfl⟩, by simp [empty], by simp [empty]⟩
    (Step.arrive ha)
  have hw : [firstWaiting] = [] ++ firstWaiting :: [] := rfl
  have h₂ := h₁.step (e := .reply firstWaiting none) (fun data hd _ u hu => by cases hu)
    (Step.reply hw hb)
  have h₃ := h₂.step (e := .arrive secondRequest)
    ⟨⟨rfl, rfl⟩, by simp [Server.after, firstMapped, Config.reportRow]; decide, by
      simp [Server.after, firstMapped, Config.reportRow, reportT, reportU]⟩ (Step.arrive hc)
  exact h₃

/-- Both reports wait for upstream, which knows no unihash for the output. -/
def bothStored : Db := ⟨[], rows, none, by decide, by decide⟩

def apartMapped : Db :=
  ⟨[⟨['m'], ['t'], ['v'], []⟩, ⟨['m'], ['u'], ['w'], []⟩], rows, none, by decide, by decide⟩

def halfMapped : Db := ⟨[⟨['m'], ['t'], ['v'], []⟩], rows, none, by decide, by decide⟩

def apart : Server :=
  ⟨apartMapped, [], [], none,
    [⟨secondRequest, none, some ['w'], false⟩, ⟨firstRequest, none, some ['v'], false⟩]⟩

/-- Reports of connections that may report, and an upstream that knows nothing. -/
def Silent : Server → Event → Prop
  | _, .arrive (.report _ mayReport _) => mayReport = true
  | _, .reply _ d => d = none
  | _, _ => False

theorem reachable_apart : Reachable asking (fun _ => True) Silent apart := by
  have h₀ : Reachable asking (fun _ => True) Silent ⟨empty, [], [], none, []⟩ := .start trivial
  have ha : asking.handle empty firstRequest = (firstStored, .wait (.reportOuthash reportT)) := rfl
  have hb : asking.handle firstStored secondRequest = (bothStored, .wait (.reportOuthash reportU)) := rfl
  have hc : asking.resume bothStored (.reportOuthash reportT) none =
      (halfMapped, .answer (some ['v']) false, []) := rfl
  have hd : asking.resume halfMapped (.reportOuthash reportU) none =
      (apartMapped, .answer (some ['w']) false, []) := rfl
  have h₁ := h₀.step (e := .arrive firstRequest) rfl (Step.arrive ha)
  have h₂ := h₁.step (e := .arrive secondRequest) rfl (Step.arrive hb)
  have hw : [secondWaiting, firstWaiting] = [secondWaiting] ++ firstWaiting :: [] := rfl
  have hw' : [secondWaiting] = [] ++ secondWaiting :: [] := rfl
  have h₃ := h₂.step (e := .reply firstWaiting none) rfl (Step.reply hw hc)
  have h₄ := h₃.step (e := .reply secondWaiting none) rfl (Step.reply hw' hd)
  exact h₄

end Sample

end Sample

end HashServ
end OpenBmc
