import Mathlib.Data.List.Infix
import Mathlib.Data.List.Basic

/-!
# Messages in a stream

A reader that cuts messages from the front of what has arrived. What it takes does not change when
more arrives (`stable`), so it does not matter in which pieces a stream arrives (`Drains.pieces`), and a
stream of encoded messages is read as those messages (`Drains.encoded`). `findSub` looks for a tag; a tag
whose first letter does not come again in it is found behind anything that it is not in.
-/

namespace OpenBmc

/-! ### Finding a tag -/

section find
variable {α : Type} [DecidableEq α]

/-- Where `sub` stands first. -/
def findSub (sub : List α) : List α → Option ℕ
  | [] => if sub = [] then some 0 else none
  | a :: s => if sub <+: a :: s then some 0 else (findSub sub s).map (· + 1)

/-- The same from a position on. -/
def findSubFrom (sub : List α) (start : ℕ) (s : List α) : Option ℕ :=
  (findSub sub (s.drop start)).map (· + start)

theorem findSub_some {sub : List α} : ∀ {s : List α} {i : ℕ}, findSub sub s = some i → sub <+: s.drop i
  | [], i, h => by
    unfold findSub at h
    split_ifs at h with hs
    cases h
    rw [hs]
    exact List.nil_prefix
  | a :: s, i, h => by
    unfold findSub at h
    split_ifs at h with hs
    · cases h
      exact hs
    · obtain ⟨j, hj, rfl⟩ := Option.map_eq_some_iff.1 h
      rw [List.drop_succ_cons]
      exact findSub_some hj

theorem findSub_first {sub : List α} : ∀ {s : List α} {k : ℕ}, k ≤ s.length → sub <+: s.drop k →
    ∃ i ≤ k, findSub sub s = some i
  | [], k, hk, h => by
    rw [List.drop_nil] at h
    exact ⟨0, Nat.zero_le k, if_pos (List.prefix_nil.1 h)⟩
  | a :: s, k, hk, h => by
    by_cases hs : sub <+: a :: s
    · exact ⟨0, Nat.zero_le k, if_pos hs⟩
    · cases k with
      | zero => exact absurd h hs
      | succ k =>
        obtain ⟨i, hi, hf⟩ := findSub_first (Nat.le_of_succ_le_succ hk) h
        exact ⟨i + 1, Nat.succ_le_succ hi, by rw [findSub, if_neg hs, hf]; rfl⟩

theorem findSubFrom_first {sub s : List α} {start k : ℕ} (hs : start ≤ k) (hk : k ≤ s.length)
    (h : sub <+: s.drop k) :
    ∃ i, start ≤ i ∧ i ≤ k ∧ findSubFrom sub start s = some i ∧ sub <+: s.drop i := by
  have hdrop : sub <+: (s.drop start).drop (k - start) := by
    rwa [List.drop_drop, Nat.add_sub_cancel' hs]
  obtain ⟨i, hi, hf⟩ := findSub_first (by rw [List.length_drop]; omega) hdrop
  refine ⟨i + start, by omega, by omega, by rw [findSubFrom, hf]; rfl, ?_⟩
  have hsome := findSub_some hf
  rwa [List.drop_drop, Nat.add_comm] at hsome

theorem findSubFrom_zero (sub s : List α) : findSubFrom sub 0 s = findSub sub s := by
  rw [findSubFrom, List.drop_zero]
  cases findSub sub s <;> rfl

theorem findSub_le {sub s : List α} {i : ℕ} (hsub : sub ≠ []) (h : findSub sub s = some i) :
    i + sub.length ≤ s.length := by
  have hpre := (findSub_some h).length_le
  have hpos : 0 < sub.length := List.length_pos_iff.2 hsub
  rw [List.length_drop] at hpre
  omega

theorem findSubFrom_le {sub s : List α} {start i : ℕ} (hsub : sub ≠ [])
    (h : findSubFrom sub start s = some i) : start ≤ i ∧ i + sub.length ≤ s.length := by
  obtain ⟨j, hj, rfl⟩ := Option.map_eq_some_iff.1 h
  have hle := findSub_le hsub hj
  have hpos : 0 < sub.length := List.length_pos_iff.2 hsub
  rw [List.length_drop] at hle
  omega

/-- What was found stays there. -/
theorem findSub_append {sub : List α} (t : List α) : ∀ {s : List α} {i : ℕ}, findSub sub s = some i →
    findSub sub (s ++ t) = some i
  | [], i, h => by
    unfold findSub at h
    split_ifs at h with hs
    cases h
    subst hs
    cases t with
    | nil => rfl
    | cons a t => exact if_pos List.nil_prefix
  | a :: s, i, h => by
    unfold findSub at h
    split_ifs at h with hs
    · cases h
      exact if_pos (hs.trans (List.prefix_append _ t))
    · obtain ⟨j, hj, rfl⟩ := Option.map_eq_some_iff.1 h
      have hlen : sub.length ≤ (a :: s).length := by
        have hpre := (findSub_some hj).length_le
        rw [List.length_drop] at hpre
        rw [List.length_cons]
        omega
      rw [List.cons_append, findSub, if_neg, findSub_append t hj]
      · rfl
      · intro hpre
        exact hs (List.prefix_of_prefix_length_le hpre (List.prefix_append (a :: s) t) hlen)

theorem findSubFrom_append {sub s : List α} (t : List α) {start i : ℕ} (hs : start ≤ s.length)
    (h : findSubFrom sub start s = some i) : findSubFrom sub start (s ++ t) = some i := by
  obtain ⟨j, hj, rfl⟩ := Option.map_eq_some_iff.1 h
  rw [findSubFrom, List.drop_append_of_le_length hs, findSub_append t hj]
  rfl

omit [DecidableEq α] in
/-- A tag does not begin inside a text and end behind it, where that starts with the tag's first
letter. -/
theorem prefix_append_head {a : α} {tag x y : List α} (ha : a ∉ tag) (h : a :: tag <+: x ++ a :: y)
    (hx : x ≠ []) : a :: tag <+: x := by
  rcases le_total (a :: tag).length x.length with hle | hle
  · exact List.prefix_of_prefix_length_le h (List.prefix_append x _) hle
  · obtain ⟨b, x, rfl⟩ := List.exists_cons_of_ne_nil hx
    have hpre : b :: x <+: a :: tag := List.prefix_of_prefix_length_le (List.prefix_append _ _) h hle
    obtain ⟨rest, hrest⟩ := hpre
    obtain ⟨rfl, htag⟩ := List.cons.inj (hrest : b :: (x ++ rest) = a :: tag)
    cases rest with
    | nil => rw [← hrest, List.append_nil]
    | cons c rest =>
      rw [← hrest, List.prefix_append_right_inj] at h
      obtain ⟨tail, htail⟩ := h
      have hc : c = b := (List.cons.inj htail).1
      exact absurd (by rw [← htag, hc]; simp) ha

omit [DecidableEq α] in
/-- A text that no part of `tag` begins with is found behind it. -/
theorem tag_length_le {tag sub y : List α}
    (h : ∀ i < tag.length, ¬ sub.take (tag.length - i) <+: tag.drop i)
    {i : ℕ} (hi : sub <+: (tag ++ y).drop i) : tag.length ≤ i := by
  by_contra hlt
  rw [List.drop_append_of_le_length (by omega)] at hi
  have htake := hi.take (tag.length - i)
  rw [List.take_left' (List.length_drop ..)] at htake
  exact h i (by omega) htake

omit [DecidableEq α] in
theorem infix_behind {tag sub y : List α}
    (h : ∀ i < tag.length, ¬ sub.take (tag.length - i) <+: tag.drop i)
    (hin : sub <:+: tag ++ y) : sub <:+: y := by
  obtain ⟨before, after, heq⟩ := hin
  have hdrop : (tag ++ y).drop before.length = sub ++ after := by
    rw [← heq, List.append_assoc, List.drop_left]
  have hlen : tag.length ≤ before.length := tag_length_le h (hdrop ▸ List.prefix_append sub after)
  rw [← Nat.add_sub_cancel' hlen, ← List.drop_drop, List.drop_left] at hdrop
  calc sub
    _ <:+: sub ++ after := (List.prefix_append sub after).isInfix
    _ = y.drop (before.length - tag.length) := hdrop.symm
    _ <:+: y := (List.drop_suffix _ y).isInfix

theorem findSub_tag {a : α} {tag : List α} (ha : a ∉ tag) (rest : List α) :
    ∀ {x : List α}, ¬ a :: tag <:+: x → findSub (a :: tag) (x ++ (a :: tag ++ rest)) = some x.length
  | [], _ => if_pos (List.prefix_append _ rest)
  | b :: x, h => by
    have hx : ¬ a :: tag <:+: x := fun hin => h (hin.trans (List.infix_cons_iff.2 (.inr List.infix_rfl)))
    rw [List.cons_append, findSub, if_neg, findSub_tag ha rest hx]
    · rfl
    · intro hpre
      exact h (prefix_append_head ha hpre (List.cons_ne_nil b x)).isInfix

end find

/-! ### Cutting messages -/

/-- What is at the front of what has arrived: nothing yet, a message, or something unreadable. -/
inductive Cut (α β ε : Type)
  | more
  | item (message : β) (rest : List α)
  | fault (error : ε)

/-- The same with more behind it. -/
def Cut.extend {α β ε : Type} (t : List α) : Cut α β ε → Cut α β ε
  | .more => .more
  | .item m rest => .item m (rest ++ t)
  | .fault e => .fault e

theorem Cut.item_ne_more {α β ε : Type} (m : β) (r : List α) : (.item m r : Cut α β ε) ≠ .more :=
  fun h => by cases h

theorem Cut.fault_ne_more {α β ε : Type} (e : ε) : (.fault e : Cut α β ε) ≠ .more := fun h => by cases h

structure Framing (α β ε : Type) where
  cut : List α → Cut α β ε
  idle : cut [] = .more
  shorter : ∀ {q m r}, cut q = .item m r → r.length < q.length
  stable : ∀ {q} (t : List α), cut q ≠ .more → cut (q ++ t) = (cut q).extend t

namespace Framing
variable {α β ε : Type} (F : Framing α β ε)

variable {F} in
theorem stable_item {q r : List α} {m : β} (t : List α) (h : F.cut q = .item m r) :
    F.cut (q ++ t) = .item m (r ++ t) := by
  rw [F.stable t (by rw [h]; exact Cut.item_ne_more m r), h]
  rfl

variable {F} in
theorem stable_fault {q : List α} {e : ε} (t : List α) (h : F.cut q = .fault e) :
    F.cut (q ++ t) = .fault e := by
  rw [F.stable t (by rw [h]; exact Cut.fault_ne_more e), h]
  rfl

/-- Everything that can be taken is taken: what is left, or what went wrong. -/
inductive Drains : List α → List β → Except ε (List α) → Prop
  | more {q : List α} (h : F.cut q = .more) : Drains q [] (.ok q)
  | fault {q : List α} {e : ε} (h : F.cut q = .fault e) : Drains q [] (.error e)
  | item {q r : List α} {m : β} {ms : List β} {out : Except ε (List α)} (h : F.cut q = .item m r)
      (hr : Drains r ms out) : Drains q (m :: ms) out

variable {F} {q r t : List α} {ms ms' : List β} {out out' : Except ε (List α)}

/-- Messages are taken one after the other, by a reader of one kind of message. -/
inductive Takes (take : List α → Cut α β ε) : List α → List β → List α → Prop
  | nil (q : List α) : Takes take q [] q
  | cons {q r q' : List α} {m : β} {ms : List β} (h : take q = .item m r) (hr : Takes take r ms q') :
      Takes take q (m :: ms) q'

theorem Takes.drains {take : List α → Cut α β ε} (htake : ∀ q, take q ≠ .more → F.cut q = take q)
    (h : Takes take q ms r) (hr : F.Drains r ms' out) : F.Drains q (ms ++ ms') out := by
  induction h with
  | nil q => exact hr
  | cons hc _ ih =>
    refine .item ?_ (ih hr)
    rw [htake _ (by rw [hc]; exact Cut.item_ne_more _ _), hc]

theorem Takes.eq_of_nil {take : List α → Cut α β ε} (h : Takes take q [] r) : r = q := by
  cases h
  rfl

theorem Takes.length_le {take : List α → Cut α β ε} (htake : ∀ q, take q ≠ .more → F.cut q = take q)
    (h : Takes take q ms r) : r.length + ms.length ≤ q.length := by
  induction h with
  | nil q => exact le_rfl
  | cons hc _ ih =>
    have hlen := F.shorter ((htake _ (by rw [hc]; exact Cut.item_ne_more _ _)).trans hc)
    rw [List.length_cons]
    omega

theorem Drains.unique (h : F.Drains q ms out) (h' : F.Drains q ms' out') : ms = ms' ∧ out = out' := by
  induction h generalizing ms' with
  | more h =>
    cases h' with
    | more h' => exact ⟨rfl, rfl⟩
    | fault h' => rw [h] at h'; cases h'
    | item h' => rw [h] at h'; cases h'
  | fault h =>
    cases h' with
    | more h' => rw [h] at h'; cases h'
    | fault h' => rw [h] at h'; cases h'; exact ⟨rfl, rfl⟩
    | item h' => rw [h] at h'; cases h'
  | item h _ ih =>
    cases h' with
    | more h' => rw [h] at h'; cases h'
    | fault h' => rw [h] at h'; cases h'
    | item h' hr' =>
      rw [h] at h'
      cases h'
      obtain ⟨rfl, rfl⟩ := ih hr'
      exact ⟨rfl, rfl⟩

/-- What is taken is taken also when more has arrived, and the rest with what arrived. -/
theorem Drains.append (h : F.Drains q ms (.ok r)) (h' : F.Drains (r ++ t) ms' out) :
    F.Drains (q ++ t) (ms ++ ms') out := by
  generalize ho : (Except.ok r : Except ε (List α)) = o at h
  induction h with
  | more _ =>
    cases ho
    exact h'
  | fault _ => cases ho
  | item hc _ ih => exact .item (stable_item t hc) (ih ho)

theorem Drains.append_fault {e : ε} (h : F.Drains q ms (.error e)) (t : List α) :
    F.Drains (q ++ t) ms (.error e) := by
  generalize ho : (Except.error e : Except ε (List α)) = o at h
  induction h with
  | more _ => cases ho
  | fault hc =>
    cases ho
    exact .fault (stable_fault t hc)
  | item hc _ ih => exact .item (stable_item t hc) (ih ho)

/-- In whatever pieces a stream arrives, a reader that takes everything it can from what it has has taken
what can be taken from the whole. -/
theorem Drains.pieces {σ : Type} {step : σ → List α → σ} {out : σ → Except ε (List α)}
    (took : σ → List β → Prop)
    (hok : ∀ s ms r data, took s ms → out s = .ok r →
      ∃ ms', F.Drains (r ++ data) ms' (out (step s data)) ∧ took (step s data) (ms ++ ms'))
    (hfault : ∀ s e data, out s = .error e → step s data = s) (pieces : List (List α)) :
    ∀ (s : σ) (q : List α) (ms : List β), F.Drains q ms (out s) → took s ms →
      ∃ ms', F.Drains (q ++ pieces.flatten) ms' (out (pieces.foldl step s)) ∧
        took (pieces.foldl step s) ms' := by
  induction pieces with
  | nil =>
    intro s q ms h ht
    exact ⟨ms, by rwa [List.flatten_nil, List.append_nil], ht⟩
  | cons data pieces ih =>
    intro s q ms h ht
    rw [List.flatten_cons, ← List.append_assoc, List.foldl_cons]
    cases ho : out s with
    | error e =>
      rw [ho] at h
      refine ih _ _ ms ?_ ?_
      · rw [hfault s e data ho, ho]
        exact h.append_fault data
      · rwa [hfault s e data ho]
    | ok r =>
      rw [ho] at h
      obtain ⟨ms', hd, ht'⟩ := hok s ms r data ht ho
      exact ih _ _ _ (h.append hd) ht'

/-! ### Encoded messages -/

variable {μ : Type} {enc : μ → List α} {val : μ → β}

/-- An encoded message is cut off whole, whatever follows it. -/
def Encodes (F : Framing α β ε) (enc : μ → List α) (val : μ → β) (x : μ) : Prop :=
  ∀ rest, F.cut (enc x ++ rest) = .item (val x) rest

/-- What has arrived of a stream of encoded messages is read as the first of them. -/
theorem Drains.encoded {xs : List μ} (hx : ∀ x ∈ xs, F.Encodes enc val x) (h : F.Drains q ms out)
    (hq : q ++ t = xs.flatMap enc) : ∃ done rest left, out = .ok left ∧ xs = done ++ rest ∧
      ms = done.map val ∧ left ++ t = rest.flatMap enc ∧ (t = [] → rest = []) := by
  induction h generalizing xs with
  | @more q hc =>
    refine ⟨[], xs, q, rfl, rfl, rfl, hq, fun ht => ?_⟩
    cases xs with
    | nil => rfl
    | cons x xs =>
      rw [ht, List.append_nil, List.flatMap_cons] at hq
      rw [hq, hx x List.mem_cons_self] at hc
      cases hc
  | @fault q e hc =>
    have hcut := stable_fault t hc
    rw [hq] at hcut
    cases xs with
    | nil =>
      rw [(List.append_eq_nil_iff.1 hq).1, F.idle] at hc
      cases hc
    | cons x xs =>
      rw [List.flatMap_cons, hx x List.mem_cons_self] at hcut
      cases hcut
  | @item q r m ms out hc _ ih =>
    have hcut := stable_item t hc
    rw [hq] at hcut
    cases xs with
    | nil =>
      have hlen := F.shorter hc
      rw [(List.append_eq_nil_iff.1 hq).1] at hlen
      exact absurd hlen (Nat.not_lt_zero _)
    | cons x xs =>
      rw [List.flatMap_cons, hx x List.mem_cons_self] at hcut
      obtain ⟨rfl, hrest⟩ := Cut.item.inj hcut
      obtain ⟨done, rest, left, ho, hxs, hms, hleft, hall⟩ :=
        ih (fun y hy => hx y (List.mem_cons_of_mem _ hy)) hrest.symm
      exact ⟨x :: done, rest, left, ho, by rw [hxs]; rfl, by rw [hms]; rfl, hleft, hall⟩

end Framing
end OpenBmc
