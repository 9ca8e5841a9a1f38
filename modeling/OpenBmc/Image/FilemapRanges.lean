import OpenBmc.Image.Filemap

/-!
# The mapped ranges are exact

For each back end `get_mapped_ranges` yields ranges that are exact on the blocks it was asked for. With
FIEMAP that holds when a block is mapped at all, and otherwise it fails.
-/

namespace OpenBmc
namespace Image
namespace Filemap
namespace Source
variable {src : Source}

/-! ### Blocks and offsets -/

theorem lt_blocksCnt {b : ℕ} : b < src.blocksCnt ↔ b * src.blockSize < src.imageSize := by
  have hbs := src.blockSize_pos
  unfold blocksCnt
  rw [Nat.lt_div_iff_mul_lt hbs]
  omega

theorem le_blocksCnt : src.imageSize ≤ src.blocksCnt * src.blockSize := by
  by_contra h
  exact absurd (lt_blocksCnt.2 (Nat.not_le.1 h)) (Nat.lt_irrefl _)

theorem lseek_data_eq_some {offset start : ℕ} (h : src.lseek offset .data = some start) :
    offset ≤ start ∧ start < src.imageSize ∧ Mapped src.extents (start / src.blockSize) ∧
      ∀ o, offset ≤ o → o < start → ¬ Mapped src.extents (o / src.blockSize) := by
  unfold lseek at h
  rw [List.find?_range'_eq_some] at h
  obtain ⟨hm, hmem, hbefore⟩ := h
  rw [List.mem_range'_1] at hmem
  exact ⟨hmem.1, by omega, of_decide_eq_true hm, fun o h1 h2 => by simpa using hbefore o h1 h2⟩

theorem lseek_data_eq_none {offset : ℕ} (h : src.lseek offset .data = none) :
    ∀ o, offset ≤ o → o < src.imageSize → ¬ Mapped src.extents (o / src.blockSize) := by
  intro o h1 h2
  unfold lseek at h
  rw [List.find?_eq_none] at h
  simpa using h o (List.mem_range'_1.2 ⟨h1, by omega⟩)

/-- The end of the data at `offset`: a hole, or the end of the file. -/
theorem lseek_hole {offset : ℕ} (h : offset < src.imageSize) : ∃ stop,
    src.lseek offset .hole = some stop ∧ offset ≤ stop ∧
      (∀ o, offset ≤ o → o < stop → Mapped src.extents (o / src.blockSize)) ∧
        (stop = src.imageSize ∨
          stop < src.imageSize ∧ ¬ Mapped src.extents (stop / src.blockSize)) := by
  unfold lseek
  rw [if_pos h]
  refine ⟨_, rfl, ?_⟩
  rcases hf : (List.range' offset (src.imageSize - offset)).find?
      (fun o => decide (¬ Mapped src.extents (o / src.blockSize))) with _ | stop
  · rw [List.find?_eq_none] at hf
    refine ⟨h.le, fun o h1 h2 => ?_, .inl rfl⟩
    simpa using hf o (List.mem_range'_1.2 ⟨h1, by simp only [Option.getD_none] at h2; omega⟩)
  · rw [List.find?_range'_eq_some] at hf
    obtain ⟨hm, hmem, hbefore⟩ := hf
    rw [List.mem_range'_1] at hmem
    refine ⟨hmem.1, fun o h1 h2 => by simpa using hbefore o h1 h2, .inr ⟨?_, by simpa using hm⟩⟩
    simp only [Option.getD_some]
    omega

/-- Between two blocks an offset that is the first of its kind starts its block. -/
theorem aligned {e o : ℕ} {p : ℕ → Prop} (he : e * src.blockSize ≤ o) (ho : p (o / src.blockSize))
    (hbefore : ∀ o', e * src.blockSize ≤ o' → o' < o → ¬ p (o' / src.blockSize)) :
    o / src.blockSize * src.blockSize = o ∧ e ≤ o / src.blockSize := by
  have hbs := src.blockSize_pos
  have hblock : e ≤ o / src.blockSize := (Nat.le_div_iff_mul_le hbs).2 he
  refine ⟨?_, hblock⟩
  by_contra hne
  have hlt : o / src.blockSize * src.blockSize < o := lt_of_le_of_ne (Nat.div_mul_le_self o _) hne
  refine hbefore _ (Nat.mul_le_mul_right _ hblock) hlt ?_
  rwa [Nat.mul_div_cancel _ hbs]

/-! ### Seeking -/

/-- The data that starts at the block `a` ends at the block `c`, as far as block `l`. -/
theorem exists_stop {a l : ℕ} (hl : l ≤ src.blocksCnt) (hal : a < l) (hm : Mapped src.extents a) :
    ∃ stop c, src.lseek (a * src.blockSize) .hole = some stop ∧
      min (if stop = src.imageSize then src.blocksCnt * src.blockSize else stop) (l * src.blockSize) =
        c * src.blockSize ∧
      a < c ∧ c ≤ l ∧ ∀ b, a ≤ b → b < c → Mapped src.extents b := by
  have hbs := src.blockSize_pos
  have hsize : ∀ {b}, b < l → b * src.blockSize < src.imageSize := fun hb =>
    lt_blocksCnt.1 (hb.trans_le hl)
  obtain ⟨stop, hh, hstop, hin, hend⟩ := lseek_hole (hsize hal)
  have hmapped : ∀ b, a ≤ b → b * src.blockSize < stop → Mapped src.extents b := by
    intro b hab hb
    have hb' := hin _ (Nat.mul_le_mul_right _ hab) hb
    rwa [Nat.mul_div_cancel _ hbs] at hb'
  refine ⟨stop, ?_⟩
  rcases hend with rfl | ⟨hlt, hnot⟩
  · refine ⟨l, hh, ?_, hal, le_rfl, fun b hab hb => hmapped b hab (hsize hb)⟩
    rw [if_pos rfl]
    exact min_eq_right (Nat.mul_le_mul_right _ hl)
  · obtain ⟨hd, had⟩ := aligned (p := fun b => ¬ Mapped src.extents b) hstop hnot
      fun o h1 h2 => not_not_intro (hin o h1 h2)
    set d := stop / src.blockSize
    have hne : a ≠ d := fun h => hnot (h ▸ hm)
    refine ⟨min d l, hh, ?_, lt_min (lt_of_le_of_ne had hne) hal, min_le_right _ _, ?_⟩
    · rw [if_neg hlt.ne, ← hd, Nat.mul_min_mul_right]
    · intro b hab hb
      refine hmapped b hab ?_
      rw [← hd]
      exact (Nat.mul_lt_mul_right hbs).2 (hb.trans_le (min_le_left _ _))

theorem getRanges_exact {l : ℕ} (hl : l ≤ src.blocksCnt) (fuel e : ℕ) (hfuel : l < fuel + e) (he : e ≤ l) :
    ∃ ranges, src.getRanges (l * src.blockSize) .data .hole fuel (e * src.blockSize) = .ok ranges ∧
      Exact (Mapped src.extents) e l ranges := by
  have hbs := src.blockSize_pos
  induction fuel generalizing e with
  | zero => omega
  | succ fuel ih =>
    unfold getRanges
    rcases hd : src.lseek (e * src.blockSize) .data with _ | start
    · refine ⟨[], rfl, Exact.nil fun b hb hbl => ?_⟩
      have hsize : b * src.blockSize < src.imageSize := lt_blocksCnt.1 (hbl.trans_le hl)
      have hnot := lseek_data_eq_none hd _ (Nat.mul_le_mul_right _ hb) hsize
      rwa [Nat.mul_div_cancel _ hbs] at hnot
    · obtain ⟨hle, hlt, hm, hbefore⟩ := lseek_data_eq_some hd
      obtain ⟨ha, hea⟩ := aligned hle hm hbefore
      -- The first block that is mapped.
      set a := start / src.blockSize with hadef
      have hunmapped : ∀ b, e ≤ b → b < a → ¬ Mapped src.extents b := by
        intro b hb hba
        have hnot := hbefore (b * src.blockSize) (Nat.mul_le_mul_right _ hb) (by
          rw [← ha]
          exact (Nat.mul_lt_mul_right hbs).2 hba)
        rwa [Nat.mul_div_cancel _ hbs] at hnot
      by_cases hlim : l * src.blockSize ≤ start
      · refine ⟨[], if_pos (.inl hlim), Exact.nil fun b hb hbl => hunmapped b hb ?_⟩
        refine hbl.trans_le ?_
        rwa [← ha, Nat.mul_le_mul_right_iff hbs] at hlim
      · have hal : a < l := by
          rwa [← ha, Nat.mul_le_mul_right_iff hbs, Nat.not_le] at hlim
        have hcond : ¬ (l * src.blockSize ≤ start ∨ start = src.imageSize) := by omega
        obtain ⟨stop, c, hh, hstop, hac, hcl, hin⟩ := exists_stop hl hal hm
        rw [ha] at hh
        obtain ⟨ranges, hrun, hex⟩ := ih c (by omega) hcl
        have hmin : ∀ x : ℕ, (if l * src.blockSize < x then l * src.blockSize else x) =
            min x (l * src.blockSize) := by
          intro x
          split <;> omega
        refine ⟨⟨a, (c : ℤ) - 1⟩ :: ranges, ?_, hex.cons hea hac.le hcl hunmapped hin⟩
        simp only [if_neg hcond, hh, hmin, hstop, hrun, Nat.mul_div_cancel _ hbs, Except.map]
        rw [hadef]

/-! ### FIEMAP -/

/-- An extent within the blocks from `block` up to `limit`. -/
def clip (block limit : ℕ) (e : ℕ × ℕ) : Range :=
  ⟨max e.1 block, (min (e.1 + e.2) limit : ℕ) - 1⟩

theorem clip_eq {block block' limit : ℕ} {e : ℕ × ℕ} (h : block ≤ e.1) (h' : block' ≤ e.1) :
    clip block limit e = clip block' limit e := by
  rw [clip, clip, max_eq_left h, max_eq_left h']

theorem clip_exact {es : List (ℕ × ℕ)} {block limit : ℕ} (hpos : ∀ e ∈ es, 0 < e.2)
    (hsorted : es.Pairwise fun e e' => e.1 + e.2 ≤ e'.1) (hstop : ∀ e ∈ es, block < e.1 + e.2)
    (hbl : block ≤ limit) :
    Exact (Mapped es) block limit ((es.takeWhile fun e => e.1 < limit).map (clip block limit)) := by
  induction es generalizing block with
  | nil => exact Exact.nil fun b _ _ => by simp [Mapped]
  | cons e es ih =>
    obtain ⟨hafter, hsorted⟩ := List.pairwise_cons.1 hsorted
    obtain ⟨hpos₁, hpos⟩ := List.forall_mem_cons.1 hpos
    obtain ⟨hstop₁, hstop⟩ := List.forall_mem_cons.1 hstop
    have hcons : ∀ b, Mapped (e :: es) b ↔ (e.1 ≤ b ∧ b < e.1 + e.2) ∨ Mapped es b := fun b =>
      List.exists_mem_cons_iff ..
    have hlater : ∀ b, Mapped es b → e.1 + e.2 ≤ b := by
      rintro b ⟨e', he', hle, -⟩
      exact (hafter e' he').trans hle
    by_cases hlim : e.1 < limit
    · have hrest := @ih (min (e.1 + e.2) limit) hpos hsorted
        (fun e' he' => by
          have h1 := hafter e' he'
          have h2 := hpos e' he'
          omega) (min_le_right _ _)
      rw [List.takeWhile_cons_of_pos (by simpa using hlim), List.map_cons]
      refine Exact.cons (le_max_right _ _) (by omega) (min_le_right _ _) ?_ ?_ ?_
      · intro b hb hba hm
        rcases (hcons b).1 hm with ⟨hle, -⟩ | hm
        · omega
        · have := hlater b hm
          omega
      · intro b hab hbc
        exact (hcons b).2 (.inl ⟨by omega, by omega⟩)
      · have hmap : (es.takeWhile fun e => e.1 < limit).map (clip block limit) =
            (es.takeWhile fun e => e.1 < limit).map (clip (min (e.1 + e.2) limit) limit) := by
          refine List.map_congr_left fun e' he' => ?_
          have := hafter e' (List.takeWhile_subset _ he')
          exact clip_eq (by omega) (by omega)
        rw [hmap]
        refine hrest.congr fun b hb hbl => ?_
        rw [hcons]
        exact (or_iff_right fun h => by omega).symm
    · rw [List.takeWhile_cons_of_neg (by simpa using hlim)]
      refine Exact.nil fun b hb hbl hm => ?_
      rcases (hcons b).1 hm with ⟨hle, -⟩ | hm
      · omega
      · have := hlater b hm
        omega

/-- The extents in bytes, as the ioctl gives them. -/
def inBytes (src : Source) (e : ℕ × ℕ) : ℕ × ℕ := (e.1 * src.blockSize, e.2 * src.blockSize)

/-- The block behind the last of the extents, `next` when there is none. -/
def lastStop (next : ℕ) (es : List (ℕ × ℕ)) : ℕ := es.foldl (fun _ e => e.1 + e.2) next

theorem lastStop_spec {es rest : List (ℕ × ℕ)} (hne : es ≠ [])
    (hsorted : (es ++ rest).Pairwise fun e e' => e.1 + e.2 ≤ e'.1) (next : ℕ) :
    (∀ e ∈ es, e.1 + e.2 ≤ lastStop next es) ∧ ∀ e ∈ rest, lastStop next es ≤ e.1 := by
  obtain ⟨init, last, rfl⟩ := (List.eq_nil_or_concat es).resolve_left hne
  rw [List.concat_eq_append] at hsorted ⊢
  have hlast : lastStop next (init ++ [last]) = last.1 + last.2 := List.foldl_concat ..
  obtain ⟨hes, -, hrest⟩ := List.pairwise_append.1 hsorted
  rw [hlast]
  refine ⟨fun e he => ?_, fun e he => hrest last (by simp) e he⟩
  rcases List.mem_append.1 he with he | he
  · have := (List.pairwise_append.1 hes).2.2 e he last (by simp)
    omega
  · rw [List.mem_singleton.1 he]

/-- One batch: it is walked up to the first extent that starts behind the last block. -/
theorem walkExtents_eq (block limit next : ℕ) (es : List (ℕ × ℕ)) :
    src.walkExtents block limit next (es.map (inBytes src)) =
      .ok ((es.takeWhile fun e => e.1 < limit).map (clip block limit),
        if ∀ e ∈ es, e.1 < limit then some (lastStop next es) else none) := by
  have hbs := src.blockSize_pos
  induction es generalizing next with
  | nil => simp [walkExtents, lastStop]
  | cons e es ih =>
    simp only [List.map_cons, inBytes, walkExtents, Nat.mul_mod_left, ne_eq, not_true_eq_false,
      or_self, if_false, Nat.mul_div_cancel _ hbs]
    by_cases hlim : e.1 < limit
    · rw [if_neg (Nat.not_le.2 hlim), List.takeWhile_cons_of_pos (by simpa using hlim), ih]
      simp only [List.forall_mem_cons, hlim, true_and, bind, Except.bind, clip, List.map_cons]
      rfl
    · rw [if_pos (Nat.not_lt.1 hlim), List.takeWhile_cons_of_neg (by simpa using hlim), if_neg]
      · rfl
      · exact fun h => hlim (h e (List.mem_cons_self ..))

/-- In a sorted list the extents that start before a block come first. -/
theorem filter_eq_takeWhile {es : List (ℕ × ℕ)}
    (hsorted : es.Pairwise fun e e' => e.1 + e.2 ≤ e'.1) (x : ℕ) :
    es.filter (fun e => e.1 < x) = es.takeWhile fun e => e.1 < x := by
  induction es with
  | nil => rfl
  | cons e es ih =>
    obtain ⟨hafter, hsorted⟩ := List.pairwise_cons.1 hsorted
    by_cases hx : e.1 < x
    · rw [List.filter_cons_of_pos (by simpa using hx), List.takeWhile_cons_of_pos (by simpa using hx),
        ih hsorted]
    · rw [List.filter_cons_of_neg (by simpa using hx), List.takeWhile_cons_of_neg (by simpa using hx),
        List.filter_eq_nil_iff]
      intro e' he'
      have := hafter e' he'
      simp only [decide_eq_true_eq]
      omega

/-- The extents that end behind `block`. -/
def remaining (src : Source) (block : ℕ) : List (ℕ × ℕ) := src.extents.filter fun e => block < e.1 + e.2

theorem remaining_sorted (block : ℕ) :
    (src.remaining block).Pairwise fun e e' => e.1 + e.2 ≤ e'.1 := src.sorted.filter _

theorem doGetMappedRanges_eq {start count : ℕ} (hcnt : start + count ≤ src.blocksCnt) (fuel block : ℕ)
    (hfuel : start + count < fuel + block) (hblock : start ≤ block) (hlt : block < start + count) :
    src.doGetMappedRanges start count fuel block =
      .ok (((src.remaining block).takeWhile fun e => e.1 < start + count).map
        (clip block (start + count))) := by
  induction fuel generalizing block with
  | zero => omega
  | succ fuel ih =>
    have hsorted := src.remaining_sorted block
    -- The batch is the first part of what remains.
    set batch := ((src.remaining block).takeWhile fun e => e.1 < block + count).take fiemapExtentCnt
      with hbatch
    have hinvoke : src.invokeFiemap block count = .ok (batch.map (inBytes src)) := by
      have hbad : ¬ (src.blocksCnt ≠ 0 ∧ src.blocksCnt ≤ block) := by omega
      rw [invokeFiemap, if_neg hbad, hbatch, ← filter_eq_takeWhile hsorted, remaining,
        List.filter_filter]
      simp only [Bool.decide_and, Bool.and_comm]
      rfl
    obtain ⟨rest, hrest⟩ : batch <+: src.remaining block :=
      (List.take_prefix _ _).trans (List.takeWhile_prefix _)
    unfold doGetMappedRanges
    rw [if_pos hlt, hinvoke]
    by_cases hne : batch = []
    · -- No extent starts in what was asked for.
      have htake : (src.remaining block).takeWhile (fun e => e.1 < start + count) = [] := by
        have hnone : (src.remaining block).takeWhile (fun e => e.1 < block + count) = [] :=
          (List.take_eq_nil_iff.1 (hbatch.symm.trans hne)).resolve_left (by decide)
        rcases hr : src.remaining block with _ | ⟨e, es⟩
        · rfl
        · have he : ¬ e.1 < block + count := by
            intro h
            rw [hr, List.takeWhile_cons_of_pos (by simpa using h)] at hnone
            cases hnone
          exact List.takeWhile_cons_of_neg (by simp only [decide_eq_true_eq]; omega)
      rw [htake]
      simp [hne, bind, Except.bind]
    · have hmap : batch.map (inBytes src) ≠ [] := by simpa using hne
      rw [← hrest] at hsorted
      obtain ⟨hstop, hlater⟩ := lastStop_spec hne hsorted block
      set next := lastStop block batch with hnext
      simp only [bind, Except.bind, hmap, if_false, walkExtents_eq]
      by_cases hall : ∀ e ∈ batch, e.1 < start + count
      · have hself : batch.takeWhile (fun e => e.1 < start + count) = batch :=
          List.takeWhile_eq_self_iff.2 fun e he => by simpa using hall e he
        have hjoin : (src.remaining block).takeWhile (fun e => e.1 < start + count) =
            batch ++ rest.takeWhile fun e => e.1 < start + count := by
          rw [← hrest, List.takeWhile_append, hself, if_pos rfl]
        have hbn : block < next := by
          obtain ⟨e, es, hcons⟩ := List.exists_cons_of_ne_nil hne
          have hmem : e ∈ batch := hcons ▸ List.mem_cons_self ..
          have hrem : e ∈ src.remaining block := hrest ▸ List.mem_append_left _ hmem
          have hgt : block < e.1 + e.2 := by simpa using (List.mem_filter.1 hrem).2
          have := hstop e hmem
          omega
        have hrun : src.doGetMappedRanges start count fuel next =
            .ok ((rest.takeWhile fun e => e.1 < start + count).map (clip block (start + count))) := by
          by_cases hlim : next < start + count
          · have hrem : src.remaining next = rest := by
              have hfilter : src.remaining next =
                  (src.remaining block).filter fun e => next < e.1 + e.2 := by
                rw [remaining, remaining, List.filter_filter]
                refine List.filter_congr fun e _ => ?_
                by_cases hgt : next < e.1 + e.2
                · simp [hgt, show block < e.1 + e.2 by omega]
                · simp [hgt]
              have hgone : batch.filter (fun e => next < e.1 + e.2) = [] :=
                List.filter_eq_nil_iff.2 fun e he => by simpa using hstop e he
              have hkept : rest.filter (fun e => next < e.1 + e.2) = rest :=
                List.filter_eq_self.2 fun e he => by
                  have hrem : e ∈ src.remaining block := hrest ▸ List.mem_append_right _ he
                  have hpos := src.count_pos e (List.mem_filter.1 hrem).1
                  have := hlater e he
                  simp only [decide_eq_true_eq]
                  omega
              rw [hfilter, ← hrest, List.filter_append, hgone, hkept, List.nil_append]
            rw [ih next (by omega) (by omega) hlim, hrem]
            refine congrArg _ (List.map_congr_left fun e he => ?_)
            have := hlater e (List.takeWhile_subset _ he)
            exact clip_eq this (by omega)
          · have hnil : rest.takeWhile (fun e => e.1 < start + count) = [] := by
              rcases rest with _ | ⟨e, es⟩
              · rfl
              · have := hlater e (List.mem_cons_self ..)
                exact List.takeWhile_cons_of_neg (by simp only [decide_eq_true_eq]; omega)
            obtain ⟨fuel, rfl⟩ := Nat.exists_eq_succ_of_ne_zero (show fuel ≠ 0 by omega)
            rw [hnil]
            unfold doGetMappedRanges
            exact if_neg hlim
        simp only [if_pos hall, ← hnext, hrun, Except.map, hself, hjoin, List.map_append]
      · have hjoin : (src.remaining block).takeWhile (fun e => e.1 < start + count) =
            batch.takeWhile fun e => e.1 < start + count := by
          rw [← hrest, List.takeWhile_append, if_neg]
          intro hlen
          have hself := (List.takeWhile_prefix (fun e : ℕ × ℕ => decide (e.1 < start + count))
            (l := batch)).eq_of_length hlen
          exact hall fun e he => by simpa using List.takeWhile_eq_self_iff.1 hself e he
        simp only [if_neg hall, hjoin]

/-- Merging consecutive ranges keeps what they cover, and their order. -/
theorem mergeRanges_spec {prev : Range} {rs : List Range}
    (hb : ∀ r ∈ prev :: rs, (r.first : ℤ) ≤ r.last + 1)
    (hinc : (prev :: rs).Pairwise fun r r' => r.last < r'.first) :
    (∀ r ∈ mergeRanges prev rs, prev.first ≤ r.first ∧ (r.first : ℤ) ≤ r.last + 1) ∧
      (mergeRanges prev rs).Pairwise (fun r r' => r.last < r'.first) ∧
        ∀ b, (∃ r ∈ mergeRanges prev rs, r.Has b) ↔ ∃ r ∈ prev :: rs, r.Has b := by
  induction rs generalizing prev with
  | nil => exact ⟨by simpa [mergeRanges] using hb prev, hinc, fun _ => Iff.rfl⟩
  | cons r rs ih =>
    obtain ⟨hprev, hb'⟩ := List.forall_mem_cons.1 hb
    obtain ⟨hr, hrs⟩ := List.forall_mem_cons.1 hb'
    obtain ⟨hlt, hinc'⟩ := List.pairwise_cons.1 hinc
    have hlt₁ := hlt r (List.mem_cons_self ..)
    unfold mergeRanges
    split
    · next hadj =>
      obtain ⟨hrlt, hinc''⟩ := List.pairwise_cons.1 hinc'
      obtain ⟨h1, h2, h3⟩ := @ih ⟨prev.first, r.last⟩
        (List.forall_mem_cons.2 ⟨by show (prev.first : ℤ) ≤ r.last + 1; omega, hrs⟩)
        (List.pairwise_cons.2 ⟨hrlt, hinc''⟩)
      refine ⟨h1, h2, fun b => (h3 b).trans ?_⟩
      simp only [List.exists_mem_cons_iff, ← or_assoc]
      refine or_congr_left ?_
      show prev.first ≤ b ∧ (b : ℤ) ≤ r.last ↔
        (prev.first ≤ b ∧ (b : ℤ) ≤ prev.last) ∨ r.first ≤ b ∧ (b : ℤ) ≤ r.last
      omega
    · obtain ⟨h1, h2, h3⟩ := ih hb' hinc'
      refine ⟨List.forall_mem_cons.2 ⟨⟨le_rfl, hprev⟩, fun x hx => ?_⟩,
        List.pairwise_cons.2 ⟨fun x hx => ?_, h2⟩, fun b => ?_⟩
      · have hx' := h1 x hx
        exact ⟨by omega, hx'.2⟩
      · have hx' := (h1 x hx).1
        omega
      · rw [List.exists_mem_cons_iff, List.exists_mem_cons_iff, h3]

theorem mergeRanges_exact {mapped : ℕ → Prop} {lo hi : ℕ} {prev : Range} {rs : List Range}
    (h : Exact mapped lo hi (prev :: rs)) : Exact mapped lo hi (mergeRanges prev rs) := by
  obtain ⟨hbounds, hinc, hcovers⟩ := mergeRanges_spec (fun r hr => (h.bounds r hr).2) h.increasing
  refine ⟨fun r hr => ⟨?_, (hbounds r hr).2⟩, hinc, fun b => (hcovers b).trans (h.covers b)⟩
  exact (h.bounds prev (List.mem_cons_self ..)).1.trans (hbounds r hr).1

theorem mapped_remaining {block b : ℕ} (h : block ≤ b) :
    Mapped (src.remaining block) b ↔ Mapped src.extents b := by
  constructor
  · rintro ⟨e, he, hb⟩
    exact ⟨e, (List.mem_filter.1 he).1, hb⟩
  · rintro ⟨e, he, hle, hlt⟩
    exact ⟨e, List.mem_filter.2 ⟨he, by simp only [decide_eq_true_eq]; omega⟩, hle, hlt⟩

/-- The ranges before they are merged are exact, and there are some when a block is mapped. -/
theorem doGetMappedRanges_exact {start count : ℕ} (hcnt : start + count ≤ src.blocksCnt) :
    ∃ ranges, src.doGetMappedRanges start count (count + 1) start = .ok ranges ∧
      Exact (Mapped src.extents) start (start + count) ranges ∧
        (ranges = [] ↔ ∀ b, start ≤ b → b < start + count → ¬ Mapped src.extents b) := by
  by_cases hlt : start < start + count
  · refine ⟨_, doGetMappedRanges_eq hcnt (count + 1) start (by omega) le_rfl hlt, ?_, ?_⟩
    · refine (clip_exact (fun e he => src.count_pos e (List.mem_filter.1 he).1)
        (src.remaining_sorted start) (fun e he => by simpa using (List.mem_filter.1 he).2)
        hlt.le).congr fun b hb _ => mapped_remaining hb
    · rw [List.map_eq_nil_iff]
      constructor
      · intro hnil b hb hbl hm
        obtain ⟨e, he, hle, hgt⟩ := (mapped_remaining hb).2 hm
        rcases hr : src.remaining start with _ | ⟨e', es⟩
        · rw [hr] at he
          cases he
        · have hfirst : ¬ e'.1 < start + count := by
            intro h
            rw [hr, List.takeWhile_cons_of_pos (by simpa using h)] at hnil
            cases hnil
          have hsorted := src.remaining_sorted start
          rw [hr] at he hsorted
          rcases List.mem_cons.1 he with rfl | he
          · omega
          · have := (List.pairwise_cons.1 hsorted).1 e he
            omega
      · intro hnone
        rw [List.eq_nil_iff_forall_not_mem]
        intro e he
        have hmem := List.takeWhile_subset _ he
        have hpos := src.count_pos e (List.mem_filter.1 hmem).1
        have hgt : start < e.1 + e.2 := by simpa using (List.mem_filter.1 hmem).2
        have hlim : e.1 < start + count := by simpa using List.mem_takeWhile_imp he
        exact hnone (max e.1 start) (by omega) (by omega)
          ⟨e, (List.mem_filter.1 hmem).1, by omega, by omega⟩
  · refine ⟨[], if_neg hlt, Exact.nil fun b hb hbl => by omega, ?_⟩
    exact iff_of_true rfl fun b hb hbl => by omega

end Source

open Source

/-- A back end yields exact ranges, when one with FIEMAP finds a block. -/
theorem getMappedRanges_exact {src : Source} {backend : Backend} {start count : ℕ}
    (hcnt : start + count ≤ src.blocksCnt)
    (hb : backend = .fiemap → ∃ b, start ≤ b ∧ b < start + count ∧ Mapped src.extents b) :
    ∃ ranges, backend.getMappedRanges src start count = .ok ranges ∧
      Exact (backend.IsMapped src) start (start + count) ranges := by
  cases backend with
  | seek =>
    obtain ⟨ranges, hrun, hex⟩ := getRanges_exact hcnt (count + 1) start (by omega) (by omega)
    rw [Nat.add_mul] at hrun
    exact ⟨ranges, hrun, hex⟩
  | fiemap =>
    obtain ⟨ranges, hrun, hex, hnil⟩ := doGetMappedRanges_exact hcnt
    obtain ⟨b, h1, h2, h3⟩ := hb rfl
    rcases ranges with _ | ⟨r, rs⟩
    · exact absurd h3 (hnil.1 rfl b h1 h2)
    · exact ⟨_, by simp only [Backend.getMappedRanges, hrun, bind, Except.bind], mergeRanges_exact hex⟩
  | nobmap =>
    refine ⟨_, rfl, ?_⟩
    have hall : Exact (fun _ => True) start (start + count) [⟨start, ((start + count : ℕ) : ℤ) - 1⟩] :=
      Exact.cons le_rfl (by omega) le_rfl (fun b h1 h2 => by omega) (fun _ _ _ => trivial)
        (Exact.nil fun b h1 h2 => by omega)
    rw [Nat.cast_add] at hall
    exact hall

/-- With FIEMAP and no mapped block there is no first range to merge. -/
theorem getMappedRanges_fiemap_none {src : Source} {start count : ℕ}
    (hcnt : start + count ≤ src.blocksCnt)
    (h : ∀ b, start ≤ b → b < start + count → ¬ Mapped src.extents b) :
    Backend.fiemap.getMappedRanges src start count = .error .runtime := by
  obtain ⟨ranges, hrun, -, hnil⟩ := doGetMappedRanges_exact hcnt
  rw [hnil.2 h] at hrun
  simp only [Backend.getMappedRanges, hrun, bind, Except.bind]

end Filemap
end Image
end OpenBmc
