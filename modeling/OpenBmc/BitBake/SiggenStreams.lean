import OpenBmc.BitBake.SiggenInfo

/-!
# One reader of several streams

Each parser process pickles its objects in one stream after a `reset`, and so does `sync` for each
cache file. The process that unpickles takes the next object of whichever stream has one; in between it
may pickle objects of its own, and it calls `reset`. A stream keeps a writer state at the place the
reader has reached: its numbers are linked to `restore_map` while the stream is half read.
-/

namespace OpenBmc
namespace BitBake
namespace SiggenInfo
open Cls

/-- What a process pickles after it called `reset` with the class attributes `writer`. -/
structure Stream where
  pid : Pid
  writer : Cls
  objects : List Info

def pickleAll (w : Cls) (pid : Pid) : List Info → List Pickled
  | [] => []
  | info :: infos =>
    let (p, w) := w.getstate pid info
    p :: pickleAll w pid infos

def Stream.pickled (s : Stream) : List Pickled := pickleAll s.writer.reset s.pid s.objects

variable {ι : Type*} [DecidableEq ι]

inductive Event (ι : Type*) where
  /-- The next object of a stream is unpickled. -/
  | read (i : ι)
  | reset
  /-- The reader itself pickles an object. -/
  | pickle (pid : Pid) (info : Info)
  deriving DecidableEq

structure Reader (ι : Type*) where
  cls : Cls
  /-- What is still to be read of each stream. -/
  left : ι → List Pickled
  restored : ι → List Info

namespace Reader

def start (streams : ι → Stream) (cls : Cls) : Reader ι :=
  ⟨cls, fun i => (streams i).pickled, fun _ => []⟩

/-- `none` when a lookup fails; at the end of a stream nothing is read. -/
def step (r : Reader ι) : Event ι → Option (Reader ι)
  | .read i =>
    match r.left i with
    | [] => some r
    | p :: ps =>
      match r.cls.setstate p with
      | none => none
      | some (info, cls) =>
        some ⟨cls, Function.update r.left i ps,
          Function.update r.restored i (r.restored i ++ [info])⟩
  | .reset => some { r with cls := r.cls.reset }
  | .pickle pid info => some { r with cls := (r.cls.getstate pid info).2 }

def run (r : Reader ι) : List (Event ι) → Option (Reader ι)
  | [] => some r
  | e :: es => (r.step e).bind fun r => r.run es

end Reader

/-! ### Orderly runs -/

/-- After the events `past` some but not all of the objects of stream `i` were read. -/
def HalfRead (streams : ι → Stream) (past : List (Event ι)) (i : ι) : Prop :=
  0 < past.count (.read i) ∧ past.count (.read i) < (streams i).objects.length

instance (streams : ι → Stream) (past : List (Event ι)) (i : ι) :
    Decidable (HalfRead streams past i) := inferInstanceAs (Decidable (_ ∧ _))

/-- `reset` comes while no stream is half read, and an object is only read while no other stream of
the same process id is. -/
def OrderlyEvent (streams : ι → Stream) (past : List (Event ι)) : Event ι → Prop
  | .read i => ∀ j, j ≠ i → (streams j).pid = (streams i).pid → ¬ HalfRead streams past j
  | .reset => ∀ j, ¬ HalfRead streams past j
  | .pickle _ _ => True

instance [Fintype ι] (streams : ι → Stream) (past : List (Event ι)) :
    DecidablePred (OrderlyEvent streams past)
  | .read i => inferInstanceAs
      (Decidable (∀ j, j ≠ i → (streams j).pid = (streams i).pid → ¬ HalfRead streams past j))
  | .reset => inferInstanceAs (Decidable (∀ j, ¬ HalfRead streams past j))
  | .pickle _ _ => inferInstanceAs (Decidable True)

def Orderly (streams : ι → Stream) (past : List (Event ι)) : List (Event ι) → Prop
  | [] => True
  | e :: es => OrderlyEvent streams past e ∧ Orderly streams (past ++ [e]) es

instance decidableOrderly [Fintype ι] (streams : ι → Stream) (past : List (Event ι)) :
    (es : List (Event ι)) → Decidable (Orderly streams past es)
  | [] => inferInstanceAs (Decidable True)
  | e :: es =>
    have := decidableOrderly streams (past ++ [e]) es
    inferInstanceAs (Decidable (OrderlyEvent streams past e ∧ Orderly streams (past ++ [e]) es))

theorem count_read_self (past : List (Event ι)) (i : ι) :
    (past ++ [Event.read i]).count (.read i) = past.count (.read i) + 1 := by
  rw [List.count_append, List.count_singleton_self]

theorem count_append_of_ne (past : List (Event ι)) {e e' : Event ι} (h : e ≠ e') :
    (past ++ [e]).count e' = past.count e' := by
  rw [List.count_append, List.count_singleton, if_neg (by simpa using h), Nat.add_zero]

omit [DecidableEq ι] in
theorem read_ne {i j : ι} (h : j ≠ i) : Event.read i ≠ .read j := by
  intro he
  exact h (Event.read.inj he).symm

/-! ### The place a stream is at -/

/-- The first `n` objects of `s` were restored and the rest is as a writer linked to the numbers of
the reader `c` pickles it. -/
structure Stream.At (s : Stream) (n : ℕ) (c : Cls) (left : List Pickled) (restored : List Info) :
    Prop where
  restored : restored = s.objects.take n
  left : ∃ w, left = pickleAll w s.pid (s.objects.drop n) ∧
    (n = 0 → ∀ map, Linked w map) ∧ (n < s.objects.length → Linked w (c.mapOf s.pid))

namespace Stream.At
variable {s : Stream} {n : ℕ} {c c' : Cls} {left : List Pickled} {restored : List Info}

theorem start (s : Stream) (c : Cls) : s.At 0 c s.pickled [] := by
  refine ⟨rfl, s.writer.reset, rfl, fun _ map => linked_reset s.writer map, fun _ => ?_⟩
  exact linked_reset s.writer _

theorem frame (h : s.At n c left restored) (hc : c'.mapOf s.pid = c.mapOf s.pid) :
    s.At n c' left restored := by
  obtain ⟨hres, w, hw, hzero, hl⟩ := h
  exact ⟨hres, w, hw, hzero, fun hn => hc ▸ hl hn⟩

/-- A stream that is not half read does not depend on what the reader has. -/
theorem frame_of_not_half (h : s.At n c left restored)
    (hn : ¬ (0 < n ∧ n < s.objects.length)) : s.At n c' left restored := by
  obtain ⟨hres, w, hw, hzero, -⟩ := h
  refine ⟨hres, w, hw, hzero, fun hlt => ?_⟩
  have hn0 : n = 0 := Nat.eq_zero_of_not_pos fun hpos => hn ⟨hpos, hlt⟩
  exact hzero hn0 _

theorem left_eq_nil (h : s.At n c left restored) : left = [] ↔ s.objects.length ≤ n := by
  obtain ⟨-, w, rfl, -⟩ := h
  rw [← List.drop_eq_nil_iff]
  cases s.objects.drop n with
  | nil => exact iff_of_true rfl rfl
  | cons info infos => exact iff_of_false (List.cons_ne_nil _ _) (List.cons_ne_nil _ _)

/-- The next object of the stream is restored as it was saved. -/
theorem next {p : Pickled} {ps : List Pickled} (h : s.At n c (p :: ps) restored) :
    ∃ info c', c.setstate p = some (info, c') ∧ s.At (n + 1) c' ps (restored ++ [info]) ∧
      ∀ q ≠ s.pid, c'.mapOf q = c.mapOf q := by
  have hn : n < s.objects.length := by
    by_contra hge
    exact absurd (h.left_eq_nil.2 (Nat.le_of_not_lt hge)) (List.cons_ne_nil _ _)
  obtain ⟨hres, w, hw, -, hl⟩ := h
  rw [List.drop_eq_getElem_cons hn] at hw
  obtain ⟨rfl, rfl⟩ := List.cons.inj hw
  obtain ⟨c', hrun, hl', hframe⟩ := setstate_getstate (hl hn) s.objects[n]
  refine ⟨s.objects[n], c', hrun, ⟨?_, _, rfl, fun h0 => ?_, fun _ => hl'⟩, hframe⟩
  · rw [hres, List.take_concat_get' _ _ hn]
  · exact absurd h0 (Nat.succ_ne_zero n)

end Stream.At

/-! ### The run -/

/-- Every stream is at the place that the events `past` have brought it to. -/
def Reader.Inv (streams : ι → Stream) (past : List (Event ι)) (r : Reader ι) : Prop :=
  ∀ i, (streams i).At (past.count (.read i)) r.cls (r.left i) (r.restored i)

namespace Reader
variable {streams : ι → Stream} {past : List (Event ι)} {r : Reader ι}

theorem Inv.step {e : Event ι} (h : r.Inv streams past) (he : OrderlyEvent streams past e) :
    ∃ r', r.step e = some r' ∧ r'.Inv streams (past ++ [e]) := by
  cases e with
  | read i =>
    have hself := count_read_self past i
    cases hleft : r.left i with
    | nil =>
      refine ⟨r, by simp only [Reader.step, hleft], fun j => ?_⟩
      by_cases hj : j = i
      · subst hj
        have hi := h j
        have hend : (streams j).objects.length ≤ past.count (.read j) := hi.left_eq_nil.1 hleft
        obtain ⟨hres, w, hw, -⟩ := hi
        refine ⟨?_, w, ?_, fun h0 => ?_, fun hlt => ?_⟩
        · rw [hres, hself, List.take_of_length_le hend, List.take_of_length_le (by omega)]
        · rw [hw, hself, List.drop_eq_nil_of_le hend, List.drop_eq_nil_of_le (by omega)]
        · omega
        · omega
      · rw [count_append_of_ne past (read_ne hj)]
        exact h j
    | cons p ps =>
      obtain ⟨info, c', hrun, hat, hframe⟩ := (hleft ▸ h i).next
      refine ⟨⟨c', Function.update r.left i ps,
        Function.update r.restored i (r.restored i ++ [info])⟩, ?_, fun j => ?_⟩
      · simp only [Reader.step, hleft, hrun]
      · by_cases hj : j = i
        · subst hj
          simp only [hself, Function.update_self]
          exact hat
        · simp only [count_append_of_ne past (read_ne hj), Function.update_of_ne hj]
          by_cases hpid : (streams j).pid = (streams i).pid
          · exact (h j).frame_of_not_half (he j hj hpid)
          · exact (h j).frame (hframe _ hpid)
  | reset =>
    refine ⟨_, rfl, fun j => ?_⟩
    rw [count_append_of_ne past (by simp : Event.reset ≠ .read j)]
    exact (h j).frame_of_not_half (he j)
  | pickle pid info =>
    refine ⟨_, rfl, fun j => ?_⟩
    rw [count_append_of_ne past (by simp : Event.pickle pid info ≠ .read j)]
    refine (h j).frame ?_
    unfold mapOf
    rw [getstate_restoreMap]

theorem Inv.run {es : List (Event ι)} (h : r.Inv streams past) (hes : Orderly streams past es) :
    ∃ r', r.run es = some r' ∧ r'.Inv streams (past ++ es) := by
  induction es generalizing past r with
  | nil => exact ⟨r, rfl, by rwa [List.append_nil]⟩
  | cons e es ih =>
    obtain ⟨r₁, hstep, h₁⟩ := h.step hes.1
    obtain ⟨r₂, hrun, h₂⟩ := ih h₁ hes.2
    refine ⟨r₂, ?_, by rwa [List.append_assoc] at h₂⟩
    show ((r.step e).bind fun r => r.run es) = some r₂
    rw [hstep]
    exact hrun

end Reader

/-- No lookup fails, and what was read of each stream are its first objects as they were saved. -/
theorem streams_restored (streams : ι → Stream) (cls : Cls) (es : List (Event ι))
    (h : Orderly streams [] es) :
    ∃ r, (Reader.start streams cls).run es = some r ∧
      ∀ i, r.restored i = (streams i).objects.take (es.count (.read i)) := by
  have hstart : (Reader.start streams cls).Inv streams [] := fun i => .start (streams i) cls
  obtain ⟨r, hrun, hr⟩ := hstart.run h
  exact ⟨r, hrun, fun i => (hr i).restored⟩

/-- Two processes with interleaved streams, and after a `reset` a third with the id of the first. -/
def threeStreams : Fin 3 → Stream := fun i =>
  let fs := Value.frozenset {"A".toList}
  let info : Info := ⟨some (Dict.ofList [("a".toList, some fs), ("b".toList, none)]), some Dict.empty,
    some (Dict.ofList [("a".toList, some fs), ("b".toList, some (.str []))])⟩
  ⟨if i.val = 1 then 2 else 1, initial,
    [info, ⟨none, none, info.siggenGendeps⟩]⟩

theorem streams_restored_three :
    let es : List (Event (Fin 3)) :=
      [.read 0, .read 1, .read 0, .read 1, .reset, .read 2, .read 2]
    ∃ r, (Reader.start threeStreams initial).run es = some r ∧
      ∀ i, r.restored i = (threeStreams i).objects.take (es.count (.read i)) := by
  refine streams_restored threeStreams initial _ ?_
  decide

end SiggenInfo
end BitBake
end OpenBmc
