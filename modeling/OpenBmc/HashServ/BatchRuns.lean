import OpenBmc.HashServ.Batch

/-!
# Clean runs of the stream batch

In a clean run one attempt at a time works on the batch: the newest one that has begun to send. The
messages on its connection are the pending ones in their order (`Wired`), and the replies stored, the
pending messages, the one held and those left in the generator make up the queries (`Owned`). So a
clean run that ends returns the replies in order, one that has not ended can go on, and none goes on
forever.
-/

namespace OpenBmc
namespace HashServ
namespace Batch

variable {Query Reply Db : Type} {lookup : Db → Query → Reply}

/-! ### The attempt that works on the batch -/

/-- The server's reply to the query, at some time. -/
def Answer (lookup : Db → Query → Reply) (q : Query) (r : Reply) : Prop := ∃ db, r = lookup db q

/-- What is on the wire, by where the sender is: the pending messages sent on this connection, less
the first when its reply is stored. A sender that failed leaves a part of them. -/
def Wired (stored : Nat) (pending wire : List Query) : Sender Query → Prop
  | .resend i => wire = (pending.take i).drop stored
  | .write m (some i) => wire ++ [m] = (pending.take i).drop stored
  | .drain (some i) => wire = (pending.take i).drop stored
  | .write m none => wire ++ [m] = pending.drop stored
  | .finish true => wire <+: pending.drop stored
  | .stopped true => wire <+: pending.drop stored
  | _ => wire = pending.drop stored

theorem prefix_of_append_eq {wire l : List Query} {m : Query} (h : wire ++ [m] = l) : wire <+: l :=
  h ▸ List.prefix_append wire [m]

theorem take_drop_prefix {pending : List Query} {i stored : Nat} :
    (pending.take i).drop stored <+: pending.drop stored :=
  (List.take_prefix i pending).drop stored

theorem Wired.prefix {stored : Nat} {pending wire : List Query} {p : Sender Query}
    (h : Wired stored pending wire p) : wire <+: pending.drop stored := by
  match p, h with
  | .resend i, h => exact h ▸ take_drop_prefix
  | .write m (some i), h => exact (prefix_of_append_eq h).trans take_drop_prefix
  | .drain (some i), h => exact h ▸ take_drop_prefix
  | .write m none, h => exact prefix_of_append_eq h
  | .finish true, h => exact h
  | .stopped true, h => exact h
  | .fetch, h => exact h ▸ List.prefix_refl _
  | .enqueue m, h => exact h ▸ List.prefix_refl _
  | .drain none, h => exact h ▸ List.prefix_refl _
  | .finish false, h => exact h ▸ List.prefix_refl _
  | .stopped false, h => exact h ▸ List.prefix_refl _

/-- A reply is stored: the first message is off the wire, but still pending. -/
theorem Wired.reply {pending wire : List Query} {q : Query} {p : Sender Query}
    (h : Wired 0 pending (q :: wire) p) : Wired 1 pending wire p := by
  have htail : ∀ {l l' : List Query}, q :: l = l'.drop 0 → l = l'.drop 1 := fun h => by
    rw [List.drop_zero] at h
    rw [← h]
    rfl
  match p, h with
  | .resend i, h => exact htail h
  | .write m (some i), h => exact htail h
  | .drain (some i), h => exact htail h
  | .write m none, h => exact htail h
  | .finish true, ⟨rest, h⟩ => exact ⟨rest, htail h⟩
  | .stopped true, ⟨rest, h⟩ => exact ⟨rest, htail h⟩
  | .fetch, h => exact htail h
  | .enqueue m, h => exact htail h
  | .drain none, h => exact htail h
  | .finish false, h => exact htail h
  | .stopped false, h => exact htail h

/-- The first pending message is removed once all of them were sent again. -/
theorem Wired.pop {pending wire : List Query} {q : Query} {p : Sender Query}
    (h : Wired 1 (q :: pending) wire p)
    (hsent : ∀ i, p.nextResend = some i → (q :: pending).length ≤ i) : Wired 0 pending wire p := by
  have htake : ∀ i, p.nextResend = some i →
      ((q :: pending).take i).drop 1 = (pending.take i).drop 0 := by
    intro i hi
    have hlen := hsent i hi
    rw [List.take_of_length_le hlen, List.take_of_length_le (by simp at hlen; omega)]
    rfl
  match p, h, htake with
  | .resend i, h, htake => exact h.trans (htake i rfl)
  | .write m (some i), h, htake => exact Eq.trans h (htake i rfl)
  | .drain (some i), h, htake => exact Eq.trans h (htake i rfl)
  | .write m none, h, _ => exact h
  | .finish true, h, _ => exact h
  | .stopped true, h, _ => exact h
  | .fetch, h, _ => exact h
  | .enqueue m, h, _ => exact h
  | .drain none, h, _ => exact h
  | .finish false, h, _ => exact h
  | .stopped false, h, _ => exact h

/-- The attempt `w` works on the batch. -/
structure Owned (lookup : Db → Query → Reply) (queries : List Query) (b : Shared Query Reply)
    (w : Attempt Query) : Prop where
  next_pos : ∀ i, w.sender.nextResend = some i → 0 < i
  stored_le : w.receiver.stored ≤ b.pending.length
  wired : Wired w.receiver.stored b.pending w.wire w.sender
  split : ∃ answered, queries = answered ++ (b.pending.drop w.receiver.stored ++ (w.sender.held ++ b.msgs)) ∧
    List.Forall₂ (Answer lookup) answered b.results ∧
    b.sentCount = answered.length + (b.pending.drop w.receiver.stored).length

theorem stored_le_one : ∀ r : Receiver, r.stored ≤ 1
  | .wait | .receive | .returned | .raised _ => Nat.zero_le 1
  | .pop => le_refl 1

namespace Owned
variable {queries : List Query} {b b' : Shared Query Reply} {a a' : Attempt Query}

theorem begun (h : Owned lookup queries b a) : a.sender.begun = true := by
  obtain ⟨p, r, wire, broken⟩ := a
  match p, h.next_pos with
  | .resend 0, hpos => exact absurd (hpos 0 rfl) (lt_irrefl 0)
  | .resend (i + 1), _ => rfl
  | .fetch, _ => rfl
  | .enqueue _, _ => rfl
  | .write _ _, _ => rfl
  | .drain _, _ => rfl
  | .finish _, _ => rfl
  | .stopped _, _ => rfl

theorem send (h : Owned lookup queries b a) (hs : a.send b = some (b', a')) :
    Owned lookup queries b' a' := by
  obtain ⟨hpos, hle, hwired, answered, hsplit, hanswers, hcount⟩ := h
  obtain ⟨p, r, wire, broken⟩ := a
  have hone := stored_le_one r
  change r.stored ≤ b.pending.length at hle
  cases p with
  | resend i =>
    simp only [Attempt.send] at hs
    have hw : wire = (b.pending.take i).drop r.stored := hwired
    cases hm : b.pending[i]? with
    | none =>
      rw [hm] at hs
      cases hs
      have hi : b.pending.length ≤ i := List.getElem?_eq_none_iff.1 hm
      rw [List.take_of_length_le hi] at hw
      exact ⟨nofun, hle, hw, answered, hsplit, hanswers, hcount⟩
    | some m =>
      rw [hm] at hs
      cases hs
      refine ⟨?_, hle, ?_, answered, hsplit, hanswers, hcount⟩
      · rintro j ⟨⟩
        exact Nat.succ_pos i
      · -- one more of the pending messages is sent
        obtain ⟨hi, -⟩ := List.getElem?_eq_some_iff.1 hm
        have hpos := hpos i rfl
        show wire ++ [m] = (b.pending.take (i + 1)).drop r.stored
        rw [List.take_add_one, hm, List.drop_append_of_le_length, ← hw]
        · rfl
        · rw [List.length_take]
          omega
  | fetch =>
    simp only [Attempt.send] at hs
    cases hm : b.msgs with
    | nil =>
      rw [hm] at hs
      cases hs
      exact ⟨nofun, hle, hwired, answered, hsplit, hanswers, hcount⟩
    | cons m msgs =>
      rw [hm] at hs
      cases hs
      rw [hm] at hsplit
      exact ⟨nofun, hle, hwired, answered, hsplit, hanswers, hcount⟩
  | enqueue m =>
    cases hs
    have hdrop : (b.pending ++ [m]).drop r.stored = b.pending.drop r.stored ++ [m] :=
      List.drop_append_of_le_length hle
    refine ⟨nofun, ?_, ?_, answered, ?_, hanswers, ?_⟩
    · show _ ≤ (b.pending ++ [m]).length
      rw [List.length_append]
      exact Nat.le_add_right_of_le hle
    · show wire ++ [m] = (b.pending ++ [m]).drop r.stored
      rw [hdrop]
      exact congrArg (· ++ [m]) hwired
    · show _ = answered ++ ((b.pending ++ [m]).drop r.stored ++ ([] ++ b.msgs))
      rw [hdrop, hsplit, List.append_assoc]
      rfl
    · show b.sentCount + 1 = _ + ((b.pending ++ [m]).drop r.stored).length
      rw [hdrop, hcount, List.length_append, ← Nat.add_assoc]
      rfl
  | write m next =>
    cases hs
    cases next with
    | none => exact ⟨nofun, hle, hwired, answered, hsplit, hanswers, hcount⟩
    | some i => exact ⟨hpos, hle, hwired, answered, hsplit, hanswers, hcount⟩
  | drain next =>
    cases next with
    | none =>
      cases hs
      exact ⟨nofun, hle, hwired, answered, hsplit, hanswers, hcount⟩
    | some i =>
      cases hs
      exact ⟨hpos, hle, hwired, answered, hsplit, hanswers, hcount⟩
  | finish raised =>
    cases hs
    cases raised <;> exact ⟨nofun, hle, hwired, answered, hsplit, hanswers, hcount⟩
  | stopped raised => cases hs

theorem sendFails (h : Owned lookup queries b a) (hs : a.sendFails b = some (b', a')) :
    Owned lookup queries b' a' := by
  have hprefix := h.wired.prefix
  obtain ⟨hpos, hle, hwired, answered, hsplit, hanswers, hcount⟩ := h
  obtain ⟨p, r, wire, broken⟩ := a
  cases p with
  | write m next =>
    cases hs
    exact ⟨nofun, hle, hprefix, answered, hsplit, hanswers, hcount⟩
  | drain next =>
    cases hs
    exact ⟨nofun, hle, hprefix, answered, hsplit, hanswers, hcount⟩
  | _ => cases hs

theorem recvFails (h : Owned lookup queries b a) (hs : a.recvFails b = some (b', a')) :
    Owned lookup queries b' a' := by
  obtain ⟨p, r, wire, broken⟩ := a
  cases r with
  | receive =>
    cases hs
    exact ⟨h.next_pos, h.stored_le, h.wired, h.split⟩
  | _ => cases hs

/-- The next message on the wire is the first pending one. -/
theorem recv {db : Db} (h : Owned lookup queries b a) (hs : a.recv lookup db b = some (b', a'))
    (hpop : a.receiver = .pop → ∀ i, a.sender.nextResend = some i → b.pending.length ≤ i) :
    Owned lookup queries b' a' := by
  have hprefix := h.wired.prefix
  obtain ⟨hpos, hle, hwired, answered, hsplit, hanswers, hcount⟩ := h
  obtain ⟨p, r, wire, broken⟩ := a
  cases r with
  | wait =>
    simp only [Attempt.recv] at hs
    split_ifs at hs <;> cases hs <;> exact ⟨hpos, hle, hwired, answered, hsplit, hanswers, hcount⟩
  | receive =>
    cases wire with
    | nil => cases hs
    | cons q wire =>
      cases hs
      obtain ⟨rest, hrest⟩ := hprefix
      change (q :: wire) ++ rest = b.pending at hrest
      have hpending : b.pending = q :: (wire ++ rest) := hrest.symm
      refine ⟨hpos, ?_, Wired.reply hwired, answered ++ [q], ?_, ?_, ?_⟩
      · show 1 ≤ b.pending.length
        rw [hpending]
        exact Nat.succ_pos _
      · show _ = answered ++ [q] ++ (b.pending.drop 1 ++ _)
        rw [hsplit, hpending]
        simp [Receiver.stored]
      · exact List.rel_append hanswers (.cons ⟨db, rfl⟩ .nil)
      · show b.sentCount = (answered ++ [q]).length + (b.pending.drop 1).length
        rw [hcount, hpending]
        simp [Receiver.stored]
        omega
  | pop =>
    change 1 ≤ b.pending.length at hle
    cases hp : b.pending with
    | nil =>
      rw [hp] at hle
      cases hle
    | cons q pending =>
      simp only [Attempt.recv, hp] at hs
      cases hs
      rw [hp] at hwired hsplit hcount hpop
      exact ⟨hpos, Nat.zero_le _, Wired.pop hwired (hpop rfl), answered, hsplit, hanswers, hcount⟩
  | returned => cases hs
  | raised caught => cases hs

end Owned

/-! ### The other attempts -/

/-- An attempt whose sender has not begun. -/
structure Fresh (a : Attempt Query) : Prop where
  sender : a.sender = .resend 0
  wire : a.wire = []
  receiver : a.receiver ≠ .pop

section Others
variable {b b' : Shared Query Reply} {a a' : Attempt Query}

theorem Fresh.not_midway (h : Fresh a) : ¬ a.midway := by
  rintro (hheld | hpop)
  · rw [h.sender] at hheld
    exact hheld rfl
  · exact h.receiver hpop

theorem Fresh.begun (h : Fresh a) : a.sender.begun = false := by
  rw [h.sender]
  rfl

/-- The batches differ only in `done`. -/
def SameWork (b b' : Shared Query Reply) : Prop := b' = { b with done := b'.done }

theorem Owned.sameWork {queries : List Query} {w : Attempt Query} (h : Owned lookup queries b w)
    (hb : SameWork b b') : Owned lookup queries b' w := by
  rw [hb]
  exact ⟨h.next_pos, h.stored_le, h.wired, h.split⟩

/-- An attempt that begins takes the batch over from one that is not midway. -/
theorem Fresh.send {queries : List Query} {w : Attempt Query} (h : Fresh a)
    (hw : Owned lookup queries b w) (hmid : ¬ w.midway) (hs : a.send b = some (b', a')) :
    Owned lookup queries b' a' := by
  obtain ⟨answered, hsplit, hanswers, hcount⟩ := hw.split
  have hheld : w.sender.held = [] := not_not.1 fun hne => hmid (.inl hne)
  have hstored : ∀ {r : Receiver}, r ≠ .pop → r.stored = 0 := by
    intro r hr
    cases r with
    | pop => exact absurd rfl hr
    | _ => rfl
  have hw0 := hstored fun hpop => hmid (.inr hpop)
  have ha0 := hstored h.receiver
  rw [hheld, hw0] at hsplit
  rw [hw0] at hcount
  obtain ⟨p, r, wire, broken⟩ := a
  obtain ⟨rfl, rfl, hr⟩ := h
  change r.stored = 0 at ha0
  simp only [Attempt.send] at hs
  cases hm : b.pending[0]? with
  | none =>
    rw [hm] at hs
    cases hs
    have hnil : b.pending = [] := by
      rw [List.getElem?_eq_none_iff] at hm
      exact List.length_eq_zero_iff.1 (Nat.le_zero.1 hm)
    rw [hnil] at hsplit hcount
    refine ⟨nofun, ?_, ?_, answered, ?_, hanswers, ?_⟩
    · exact ha0.le.trans (Nat.zero_le _)
    · show [] = b.pending.drop r.stored
      rw [hnil, List.drop_nil]
    · show queries = answered ++ (b.pending.drop r.stored ++ _)
      rw [hnil, ha0]
      exact hsplit
    · show b.sentCount = answered.length + (b.pending.drop r.stored).length
      rw [hnil, ha0]
      exact hcount
  | some m =>
    rw [hm] at hs
    cases hs
    refine ⟨?_, ?_, ?_, answered, ?_, hanswers, ?_⟩
    · rintro j ⟨⟩
      exact Nat.one_pos
    · exact ha0.le.trans (Nat.zero_le _)
    · show [] ++ [m] = (b.pending.take 1).drop r.stored
      rw [ha0, List.take_add_one, hm]
      rfl
    · show queries = answered ++ (b.pending.drop r.stored ++ _)
      rw [ha0]
      exact hsplit
    · show b.sentCount = answered.length + (b.pending.drop r.stored).length
      rw [ha0]
      exact hcount

theorem Fresh.recv {db : Db} (h : Fresh a) (hs : a.recv lookup db b = some (b', a')) :
    Fresh a' ∧ SameWork b b' := by
  obtain ⟨p, r, wire, broken⟩ := a
  obtain ⟨rfl, rfl, hr⟩ := h
  cases r with
  | wait =>
    simp only [Attempt.recv] at hs
    split_ifs at hs <;> cases hs <;> exact ⟨⟨rfl, rfl, nofun⟩, rfl⟩
  | pop => exact absurd rfl hr
  | _ => cases hs

theorem Fresh.recvFails (h : Fresh a) (hs : a.recvFails b = some (b', a')) :
    Fresh a' ∧ SameWork b b' := by
  obtain ⟨p, r, wire, broken⟩ := a
  obtain ⟨rfl, rfl, hr⟩ := h
  cases r with
  | receive =>
    cases hs
    exact ⟨⟨rfl, rfl, nofun⟩, rfl⟩
  | _ => cases hs

/-- An attempt that was replaced leaves the batch alone. -/
theorem replaced_send (h : ¬ a.midway) (hs : a.send b = some (b', a'))
    (hfetch : a.sender = .fetch → b.msgs = []) : ¬ a'.midway ∧ SameWork b b' := by
  obtain ⟨p, r, wire, broken⟩ := a
  obtain ⟨hheld, hpop⟩ := not_or.1 h
  have hdone : ∀ {p' : Sender Query} {wire'}, p'.held = [] →
      ¬ (⟨p', r, wire', broken⟩ : Attempt Query).midway := fun hp =>
    not_or.2 ⟨fun hne => hne hp, hpop⟩
  cases p with
  | resend i =>
    simp only [Attempt.send] at hs
    split at hs <;> cases hs <;> exact ⟨hdone rfl, rfl⟩
  | fetch =>
    simp only [Attempt.send, hfetch rfl] at hs
    cases hs
    exact ⟨hdone rfl, rfl⟩
  | enqueue m => exact absurd (List.cons_ne_nil m []) hheld
  | write m next =>
    cases hs
    exact ⟨hdone rfl, rfl⟩
  | drain next =>
    cases next <;> cases hs <;> exact ⟨hdone rfl, rfl⟩
  | finish raised =>
    cases hs
    exact ⟨hdone rfl, rfl⟩
  | stopped raised => cases hs

theorem replaced_recv {db : Db} (h : ¬ a.midway) (hs : a.recv lookup db b = some (b', a'))
    (hreceive : a.receiver ≠ .receive) : ¬ a'.midway ∧ SameWork b b' := by
  obtain ⟨p, r, wire, broken⟩ := a
  obtain ⟨hheld, hpop⟩ := not_or.1 h
  cases r with
  | wait =>
    simp only [Attempt.recv] at hs
    split_ifs at hs <;> cases hs <;> exact ⟨not_or.2 ⟨hheld, nofun⟩, rfl⟩
  | receive => exact absurd rfl hreceive
  | pop => exact absurd rfl hpop
  | _ => cases hs

theorem sendFails_eq (hs : a.sendFails b = some (b', a')) :
    b' = b ∧ a' = { a with sender := .finish true } ∧ a.sender.begun = true := by
  obtain ⟨p, r, wire, broken⟩ := a
  cases p with
  | write m next =>
    cases hs
    exact ⟨rfl, rfl, rfl⟩
  | drain next =>
    cases hs
    exact ⟨rfl, rfl, rfl⟩
  | _ => cases hs

theorem recvFails_eq (hs : a.recvFails b = some (b', a')) :
    b' = b ∧ a' = { a with receiver := .raised true } := by
  obtain ⟨p, r, wire, broken⟩ := a
  cases r with
  | receive =>
    cases hs
    exact ⟨rfl, rfl⟩
  | _ => cases hs

end Others

/-! ### The invariant -/

/-- What works on the batch before the first attempt. -/
def Attempt.dead : Attempt Query := ⟨.stopped true, .raised true, [], true⟩

/-- No attempt but the newest that has begun works on the batch. -/
def Ordered (lookup : Db → Query → Reply) (queries : List Query) (b : Shared Query Reply)
    (attempts : List (Attempt Query)) : Prop :=
  ∃ newer w older, attempts ++ [.dead] = newer ++ w :: older ∧ (∀ a ∈ newer, Fresh a) ∧
    (∀ a ∈ older, ¬ a.midway) ∧ Owned lookup queries b w

/-- Two places in one list. -/
theorem places {α : Type} {n n' o o' : List α} {a w : α} (h : n ++ a :: o = n' ++ w :: o') :
    (∃ m, n' = n ++ a :: m ∧ o = m ++ w :: o') ∨ (n = n' ∧ a = w ∧ o = o') ∨
      ∃ m, n = n' ++ w :: m ∧ o' = m ++ a :: o := by
  rcases List.append_eq_append_iff.1 h with ⟨m, hn', ho⟩ | ⟨m, hn, ho⟩
  · cases m with
    | nil =>
      obtain ⟨rfl, rfl⟩ := List.cons.inj ho
      exact .inr (.inl ⟨by simpa using hn'.symm, rfl, rfl⟩)
    | cons x m =>
      obtain ⟨rfl, rfl⟩ := List.cons.inj ho
      exact .inl ⟨m, hn', rfl⟩
  · cases m with
    | nil =>
      obtain ⟨rfl, rfl⟩ := List.cons.inj ho
      exact .inr (.inl ⟨by simpa using hn, rfl, rfl⟩)
    | cons x m =>
      obtain ⟨rfl, rfl⟩ := List.cons.inj ho
      exact .inr (.inr ⟨m, hn, rfl⟩)

section Steps
variable {queries : List Query} {b b' : Shared Query Reply} {a a' : Attempt Query}
  {n o : List (Attempt Query)}

/-- How a step of one attempt keeps the order: by whether a newer one has begun, and by whether it
works on the batch. -/
theorem Ordered.step (h : Ordered lookup queries b (n ++ a :: o))
    (hfresh : Fresh a → Fresh a' ∧ SameWork b b' ∨ (∀ c ∈ o, ¬ c.midway) ∧
      ∀ w, Owned lookup queries b w → ¬ w.midway → Owned lookup queries b' a')
    (howner : Owned lookup queries b a → Owned lookup queries b' a')
    (hold : (∃ c ∈ n, c.sender.begun = true) → ¬ a.midway → ¬ a'.midway ∧ SameWork b b') :
    Ordered lookup queries b' (n ++ a' :: o) := by
  obtain ⟨newer, w, older, hlist, hnewer, holder, hw⟩ := h
  rw [List.append_assoc, List.cons_append] at hlist
  have hshape : ∀ {c : Attempt Query}, n ++ c :: o ++ [.dead] = n ++ c :: (o ++ [.dead]) := by simp
  rcases places hlist with ⟨m, rfl, ho⟩ | ⟨rfl, rfl, rfl⟩ | ⟨m, rfl, rfl⟩
  · have ha : Fresh a := hnewer a (by simp)
    rcases hfresh ha with ⟨ha', hb⟩ | ⟨hmid, hbegin⟩
    · refine ⟨n ++ a' :: m, w, older, ?_, ?_, holder, hw.sameWork hb⟩
      · rw [hshape, ho]
        simp
      · intro c hc
        rcases List.mem_append.1 hc with hc | hc
        · exact hnewer c (by simp [hc])
        · rcases List.mem_cons.1 hc with rfl | hc
          · exact ha'
          · exact hnewer c (by simp [hc])
    · have hquiet : ∀ c ∈ o ++ [Attempt.dead], ¬ c.midway := by
        intro c hc
        rcases List.mem_append.1 hc with hc | hc
        · exact hmid c hc
        · rw [List.mem_singleton.1 hc]
          exact not_or.2 ⟨fun h => h rfl, nofun⟩
      refine ⟨n, a', o ++ [.dead], hshape, fun c hc => hnewer c (by simp [hc]), hquiet, ?_⟩
      exact hbegin w hw (hquiet w (by simp [ho]))
  · exact ⟨n, a', _, hshape, hnewer, holder, howner hw⟩
  · have hbegun : ∃ c ∈ newer ++ w :: m, c.sender.begun = true := ⟨w, by simp, hw.begun⟩
    obtain ⟨hmid, hb⟩ := hold hbegun (holder a (by simp))
    refine ⟨newer, w, m ++ a' :: (o ++ [.dead]), ?_, hnewer, ?_, hw.sameWork hb⟩
    · simp
    · intro c hc
      rcases List.mem_append.1 hc with hc | hc
      · exact holder c (by simp [hc])
      · rcases List.mem_cons.1 hc with rfl | hc
        · exact hmid
        · exact holder c (List.mem_append_right _ (List.mem_cons_of_mem _ hc))

theorem Ordered.send (h : Ordered lookup queries b (n ++ a :: o)) (hs : a.send b = some (b', a'))
    (hbegin : a.sender = .resend 0 → ∀ c ∈ o, ¬ c.midway)
    (hfetch : a.sender = .fetch → b.msgs ≠ [] → ∀ c ∈ n, c.sender.begun = false) :
    Ordered lookup queries b' (n ++ a' :: o) := by
  refine h.step (fun ha => .inr ⟨hbegin ha.sender, fun w hw hmid => ha.send hw hmid hs⟩)
    (fun hw => hw.send hs) fun ⟨c, hc, hbegun⟩ hmid => replaced_send hmid hs fun hp => ?_
  by_contra hmsgs
  rw [hfetch hp hmsgs c hc] at hbegun
  cases hbegun

theorem Ordered.recv {db : Db} (h : Ordered lookup queries b (n ++ a :: o))
    (hs : a.recv lookup db b = some (b', a'))
    (hreceive : a.receiver = .receive → ∀ c ∈ n, c.sender.begun = false)
    (hpop : a.receiver = .pop → ∀ i, a.sender.nextResend = some i → b.pending.length ≤ i) :
    Ordered lookup queries b' (n ++ a' :: o) := by
  refine h.step (fun ha => .inl (ha.recv hs)) (fun hw => hw.recv hs hpop)
    fun ⟨c, hc, hbegun⟩ hmid => replaced_recv hmid hs fun hr => ?_
  rw [hreceive hr c hc] at hbegun
  cases hbegun

theorem Ordered.sendFails (h : Ordered lookup queries b (n ++ a :: o))
    (hs : a.sendFails b = some (b', a')) : Ordered lookup queries b' (n ++ a' :: o) := by
  obtain ⟨rfl, rfl, hbegun⟩ := sendFails_eq hs
  refine h.step (fun ha => ?_) (fun hw => hw.sendFails hs) fun _ hmid => ⟨?_, rfl⟩
  · rw [ha.begun] at hbegun
    cases hbegun
  · exact not_or.2 ⟨fun h => h rfl, fun hpop => hmid (.inr hpop)⟩

theorem Ordered.recvFails (h : Ordered lookup queries b (n ++ a :: o))
    (hs : a.recvFails b = some (b', a')) : Ordered lookup queries b' (n ++ a' :: o) := by
  refine h.step (fun ha => .inl (ha.recvFails hs)) (fun hw => hw.recvFails hs) fun _ hmid => ?_
  obtain ⟨rfl, rfl⟩ := recvFails_eq hs
  exact ⟨not_or.2 ⟨fun hheld => hmid (.inl hheld), nofun⟩, rfl⟩

/-- A new attempt has not begun. -/
theorem Ordered.connect (h : Ordered lookup queries b o) :
    Ordered lookup queries b (.fresh :: o) := by
  obtain ⟨newer, w, older, hlist, hnewer, holder, hw⟩ := h
  refine ⟨.fresh :: newer, w, older, by rw [List.cons_append, hlist]; rfl, ?_, holder, hw⟩
  intro c hc
  rcases List.mem_cons.1 hc with rfl | hc
  · exact ⟨rfl, rfl, nofun⟩
  · exact hnewer c hc

/-- The sender of `a` came to the end of the generator. -/
def Ended (a : Attempt Query) : Prop := a.sender = .finish false ∨ a.sender = .stopped false

/-- Nothing is left to be sent or answered, as far as the attempt `a` knows. -/
def Empty (b : Shared Query Reply) (a : Attempt Query) : Prop :=
  b.msgs = [] ∧ b.pending = [] ∧ a.sender.held = []

/-- What every step of a coroutine does, as far as the end of the batch is concerned. -/
structure Moves (b b' : Shared Query Reply) (a a' : Attempt Query) : Prop where
  msgs : b.msgs = [] → b'.msgs = []
  done : b.done = true → b'.done = true
  broken : a'.broken = a.broken
  ended : Ended a' → Ended a ∨ b'.msgs = []
  stopped : ∀ r, a'.sender = .stopped r → a.sender = .stopped r ∨ b'.done = true
  crash : a'.receiver = .raised false → a.receiver = .raised false
  returned : a'.receiver = .returned → a.receiver = .returned ∨ a.receiver = .wait ∧ b' = b ∧
    b.pending = [] ∧ a'.sender = a.sender
  receive : a'.receiver = .receive → a.receiver = .receive ∨ b'.pending ≠ []
  empty : Empty b a → Empty b' a'
  of_empty : Empty b' a' → Empty b a ∨ a.receiver = .pop ∧ a'.receiver = .wait ∧
    Empty { b with pending := b.pending.tail } a

theorem moves_send (hs : a.send b = some (b', a')) : Moves b b' a a' := by
  obtain ⟨p, r, wire, broken⟩ := a
  cases p with
  | resend i =>
    simp only [Attempt.send] at hs
    split at hs <;> cases hs <;> constructor <;> simp_all [Ended, Empty, Sender.held]
  | fetch =>
    simp only [Attempt.send] at hs
    split at hs <;> cases hs <;> constructor <;> simp_all [Ended, Empty, Sender.held]
  | drain next => cases next <;> cases hs <;> constructor <;> simp_all [Ended, Empty, Sender.held]
  | stopped raised => cases hs
  | _ => cases hs; constructor <;> simp_all [Ended, Empty, Sender.held]

theorem moves_sendFails (hs : a.sendFails b = some (b', a')) : Moves b b' a a' := by
  obtain ⟨p, r, wire, broken⟩ := a
  cases p with
  | write m next => cases hs; constructor <;> simp_all [Ended, Empty, Sender.held]
  | drain next => cases hs; constructor <;> simp_all [Ended, Empty, Sender.held]
  | _ => cases hs

theorem moves_recvFails (hs : a.recvFails b = some (b', a')) : Moves b b' a a' := by
  obtain ⟨rfl, rfl⟩ := recvFails_eq hs
  constructor <;> simp_all [Ended, Empty, Sender.held]

/-- A reply that is stored has its message pending. -/
theorem moves_recv {db : Db} (hs : a.recv lookup db b = some (b', a'))
    (hpop : a.receiver = .pop → b.pending ≠ []) : Moves b b' a a' := by
  obtain ⟨p, r, wire, broken⟩ := a
  cases r with
  | wait =>
    simp only [Attempt.recv] at hs
    split_ifs at hs <;> cases hs <;> constructor <;> simp_all [Ended, Empty, Sender.held]
  | receive =>
    cases wire with
    | nil => cases hs
    | cons q wire => cases hs; constructor <;> simp_all [Ended, Empty, Sender.held]
  | pop =>
    obtain ⟨q, pending, hp⟩ := List.exists_cons_of_ne_nil (hpop rfl)
    simp only [Attempt.recv, hp] at hs
    cases hs
    constructor <;> simp_all [Ended, Empty, Sender.held]
  | _ => cases hs

end Steps

/-! ### Clean runs keep the invariant -/

/-- What holds of the newest attempt while it runs. -/
structure Newest (s : State Query Reply) (a : Attempt Query) : Prop where
  broken : a.sender = .finish true ∨ a.sender = .stopped true ∨ a.receiver = .raised true →
    a.broken = true
  counted : s.count + (if a.broken then 1 else 0) ≤ s.failures
  returned : a.receiver = .returned → s.exhausted s.batch.pending
  receive : a.receiver = .receive → ¬ s.exhausted s.batch.pending

structure Inv (lookup : Db → Query → Reply) (queries : List Query) (s : State Query Reply) : Prop where
  ordered : Ordered lookup queries s.batch s.attempts
  ended : ∀ a ∈ s.attempts, Ended a → s.batch.msgs = []
  stopped : ∀ a ∈ s.attempts, ∀ r, a.sender = .stopped r → s.batch.done = true
  crash : ∀ a ∈ s.attempts, a.receiver ≠ .raised false
  newest : s.phase = .running → ∃ a rest, s.attempts = a :: rest ∧ Newest s a
  count_le : s.count ≤ s.failures
  failures_le : s.failures ≤ 3
  exited : ∀ outcome, s.phase = .exited outcome →
    ∃ results, outcome = .returned results ∧ List.Forall₂ (Answer lookup) queries results

section Invariant
variable {queries : List Query} {s s' : State Query Reply}

theorem inv_init : Inv lookup queries (State.init queries) where
  ordered := ⟨[], .dead, [], rfl, nofun, nofun, nofun, Nat.zero_le _, List.prefix_refl _, [], rfl,
    .nil, rfl⟩
  ended := nofun
  stopped := nofun
  crash := nofun
  newest := nofun
  count_le := le_refl _
  failures_le := Nat.zero_le _
  exited := nofun

/-- A coroutine takes its step in place. -/
theorem coroutine_eq {k : Nat}
    {f : Shared Query Reply → Attempt Query → Option (Shared Query Reply × Attempt Query)}
    (h : s.coroutine k f = some s') : ∃ n a o b' a', s.attempts = n ++ a :: o ∧ n.length = k ∧
      f s.batch a = some (b', a') ∧ s' = { s with batch := b', attempts := n ++ a' :: o } := by
  obtain ⟨a, ha, h⟩ := Option.bind_eq_some_iff.1 h
  obtain ⟨⟨b', a'⟩, hf, rfl⟩ := Option.map_eq_some_iff.1 h
  obtain ⟨hk, rfl⟩ := List.getElem?_eq_some_iff.1 ha
  refine ⟨s.attempts.take k, s.attempts[k], s.attempts.drop (k + 1), b', a', ?_, ?_, hf, ?_⟩
  · rw [List.getElem_cons_drop, List.take_append_drop]
  · rw [List.length_take, Nat.min_eq_left hk.le]
  · rw [List.set_eq_take_append_cons_drop, if_pos hk]

theorem exhausted_iff {n o : List (Attempt Query)} {a : Attempt Query} {pending : List Query}
    (hlist : s.attempts = n ++ a :: o) : s.exhausted pending ↔
      Empty { s.batch with pending } a ∧ ∀ c ∈ n ++ o, c.sender.held = [] := by
  unfold State.exhausted Empty
  rw [hlist]
  simp only [List.mem_append, List.mem_cons]
  constructor
  · rintro ⟨hmsgs, hpending, hheld⟩
    exact ⟨⟨hmsgs, hpending, hheld a (.inr (.inl rfl))⟩, fun c hc => hheld c (hc.imp id .inr)⟩
  · rintro ⟨⟨hmsgs, hpending, ha⟩, hheld⟩
    refine ⟨hmsgs, hpending, fun c hc => ?_⟩
    rcases hc with hc | rfl | hc
    exacts [hheld c (.inl hc), ha, hheld c (.inr hc)]

/-- A step of one coroutine. -/
theorem Inv.coroutine {n o : List (Attempt Query)} {a a' : Attempt Query} {b' : Shared Query Reply}
    (h : Inv lookup queries s) (hlist : s.attempts = n ++ a :: o) (hmoves : Moves s.batch b' a a')
    (hordered : Ordered lookup queries b' (n ++ a' :: o))
    (hfailed : n = [] → a'.sender = .finish true ∨ a'.sender = .stopped true ∨
      a'.receiver = .raised true → a.sender = .finish true ∨ a.sender = .stopped true ∨
      a.receiver = .raised true ∨ a.broken = true)
    (hreturned : n = [] → s.phase = .running → a.receiver = .wait → a'.receiver = .returned →
      s.batch.pending = [] → s.exhausted s.batch.pending)
    (hpopped : s.phase = .running → a.receiver = .pop → a'.receiver = .wait →
      ∀ c, s.attempts.head? = some c → c.receiver = .receive →
        ¬ s.exhausted s.batch.pending.tail) :
    Inv lookup queries { s with batch := b', attempts := n ++ a' :: o } := by
  have hold : ∀ {c}, c ∈ n ++ a' :: o → c = a' ∨ c ∈ s.attempts := by
    intro c hc
    rw [hlist]
    rcases List.mem_append.1 hc with hc | hc
    · exact .inr (by simp [hc])
    · exact (List.mem_cons.1 hc).imp id fun hc => by simp [hc]
  have ha : a ∈ s.attempts := by simp [hlist]
  set s' : State Query Reply := { s with batch := b', attempts := n ++ a' :: o } with hs'
  have hexh : s.exhausted s.batch.pending → s'.exhausted s'.batch.pending := fun hex => by
    obtain ⟨hempty, hheld⟩ := (exhausted_iff hlist).1 hex
    exact (exhausted_iff (s := s') rfl).2 ⟨hmoves.empty hempty, hheld⟩
  have hexh' : s'.exhausted s'.batch.pending → s.exhausted s.batch.pending ∨
      a.receiver = .pop ∧ a'.receiver = .wait ∧ s.exhausted s.batch.pending.tail := fun hex => by
    obtain ⟨hempty, hheld⟩ := (exhausted_iff (s := s') rfl).1 hex
    rcases hmoves.of_empty hempty with hempty | ⟨hpop, hwait, hempty⟩
    · exact .inl ((exhausted_iff hlist).2 ⟨hempty, hheld⟩)
    · exact .inr ⟨hpop, hwait, (exhausted_iff hlist).2 ⟨hempty, hheld⟩⟩
  refine ⟨hordered, fun c hc hended => ?_, fun c hc r hr => ?_, fun c hc hr => ?_, fun hrun => ?_,
    h.count_le, h.failures_le, h.exited⟩
  · rcases hold hc with rfl | hc
    · exact (hmoves.ended hended).elim (fun he => hmoves.msgs (h.ended a ha he)) id
    · exact hmoves.msgs (h.ended c hc hended)
  · rcases hold hc with rfl | hc
    · exact (hmoves.stopped r hr).elim (fun he => hmoves.done (h.stopped a ha r he)) id
    · exact hmoves.done (h.stopped c hc r hr)
  · rcases hold hc with rfl | hc
    · exact h.crash a ha (hmoves.crash hr)
    · exact h.crash c hc hr
  · obtain ⟨c, rest, hhead, hnew⟩ := h.newest hrun
    rw [hlist] at hhead
    cases n with
    | nil =>
      obtain ⟨rfl, rfl⟩ := List.cons.inj hhead
      refine ⟨a', o, rfl, fun hf => ?_, ?_, fun hr => ?_, fun hr hex => ?_⟩
      · rw [hmoves.broken]
        rcases hfailed rfl hf with hf | hf | hf | hf
        exacts [hnew.broken (.inl hf), hnew.broken (.inr (.inl hf)), hnew.broken (.inr (.inr hf)), hf]
      · rw [hmoves.broken]
        exact hnew.counted
      · rcases hmoves.returned hr with hr | ⟨hwait, rfl, hpending, -⟩
        · exact hexh (hnew.returned hr)
        · exact hexh (hreturned rfl hrun hwait hr hpending)
      · rcases hmoves.receive hr with hr' | hne
        · rcases hexh' hex with hex | ⟨hpop, -, -⟩
          · exact hnew.receive hr' hex
          · rw [hr'] at hpop
            cases hpop
        · exact hne hex.2.1
    | cons d n =>
      obtain ⟨rfl, rfl⟩ := List.cons.inj hhead
      refine ⟨d, n ++ a' :: o, rfl, hnew.broken, hnew.counted, fun hr => hexh (hnew.returned hr),
        fun hr hex => ?_⟩
      rcases hexh' hex with hex | ⟨hpop, hwait, hex⟩
      · exact hnew.receive hr hex
      · exact hpopped hrun hpop hwait d (by rw [hlist]; rfl) hr hex

theorem Ordered.pending_ne_nil {b : Shared Query Reply} {attempts : List (Attempt Query)}
    {a : Attempt Query} (h : Ordered lookup queries b attempts) (ha : a ∈ attempts)
    (hpop : a.receiver = .pop) : b.pending ≠ [] := by
  obtain ⟨newer, w, older, hlist, hnewer, holder, hw⟩ := h
  have ha : a ∈ newer ++ w :: older := by
    rw [← hlist]
    exact List.mem_append_left _ ha
  rcases List.mem_append.1 ha with ha | ha
  · exact absurd hpop (hnewer a ha).receiver
  · rcases List.mem_cons.1 ha with rfl | ha
    · intro hnil
      have hle := hw.stored_le
      rw [hpop, hnil] at hle
      cases hle
    · exact absurd (.inr hpop) (holder a ha)

/-- What a coroutine of a lost attempt raises counts against its connection. -/
theorem lost_nil {n o : List (Attempt Query)} {a : Attempt Query} {k : Nat}
    (hlist : s.attempts = n ++ a :: o) (hk : n.length = k) (hlost : s.lost k) (hn : n = []) :
    a.broken = true := by
  subst hn hk
  simpa [State.lost, hlist] using hlost

theorem send_receiver {b b' : Shared Query Reply} {a a' : Attempt Query}
    (hs : a.send b = some (b', a')) : a'.receiver = a.receiver ∧
      (a'.sender = .finish true ∨ a'.sender = .stopped true → a.sender = .finish true) := by
  obtain ⟨p, r, wire, broken⟩ := a
  cases p with
  | resend i =>
    simp only [Attempt.send] at hs
    split at hs <;> cases hs <;> exact ⟨rfl, by simp⟩
  | fetch =>
    simp only [Attempt.send] at hs
    split at hs <;> cases hs <;> exact ⟨rfl, by simp⟩
  | drain next => cases next <;> cases hs <;> exact ⟨rfl, by simp⟩
  | finish raised => cases hs; exact ⟨rfl, by simp⟩
  | stopped raised => cases hs
  | _ => cases hs; exact ⟨rfl, by simp⟩

theorem Inv.send {k : Nat} (h : Inv lookup queries s) (hclean : s.Clean (.send k : Event Db))
    (hs : s.coroutine k Attempt.send = some s') : Inv lookup queries s' := by
  obtain ⟨n, a, o, b', a', hlist, rfl, hstep, rfl⟩ := coroutine_eq hs
  obtain ⟨hbegin, hfetch⟩ := hclean a (by simp [hlist])
  have hdrop : s.attempts.drop (n.length + 1) = o := by simp [hlist]
  have htake : s.attempts.take n.length = n := by simp [hlist]
  rw [hdrop] at hbegin
  rw [htake] at hfetch
  have hordered := h.ordered
  rw [hlist] at hordered
  obtain ⟨hr, hfinish⟩ := send_receiver hstep
  refine h.coroutine hlist (moves_send hstep) (hordered.send hstep hbegin hfetch) ?_ ?_ ?_
  · rintro - (hf | hf | hf)
    · exact .inl (hfinish (.inl hf))
    · exact .inl (hfinish (.inr hf))
    · exact .inr (.inr (.inl (hr ▸ hf)))
  · intro _ _ hwait hret
    rw [hr, hwait] at hret
    cases hret
  · intro _ hpop hwait
    rw [hr, hpop] at hwait
    cases hwait

theorem Inv.sendFails {k : Nat} (h : Inv lookup queries s) (hlost : s.lost k)
    (hs : s.coroutine k Attempt.sendFails = some s') : Inv lookup queries s' := by
  obtain ⟨n, a, o, b', a', hlist, hk, hstep, rfl⟩ := coroutine_eq hs
  have hordered := h.ordered
  rw [hlist] at hordered
  refine h.coroutine hlist (moves_sendFails hstep) (hordered.sendFails hstep)
    (fun hn _ => .inr (.inr (.inr (lost_nil hlist hk hlost hn)))) ?_ ?_
  all_goals obtain ⟨rfl, rfl, -⟩ := sendFails_eq hstep
  · intro _ _ hwait hret
    rw [hwait] at hret
    cases hret
  · intro _ hpop hwait
    rw [hpop] at hwait
    cases hwait

theorem Inv.recvFails {k : Nat} (h : Inv lookup queries s) (hlost : s.lost k)
    (hs : s.coroutine k Attempt.recvFails = some s') : Inv lookup queries s' := by
  obtain ⟨n, a, o, b', a', hlist, hk, hstep, rfl⟩ := coroutine_eq hs
  have hordered := h.ordered
  rw [hlist] at hordered
  refine h.coroutine hlist (moves_recvFails hstep) (hordered.recvFails hstep)
    (fun hn _ => .inr (.inr (.inr (lost_nil hlist hk hlost hn)))) ?_ ?_
  all_goals obtain ⟨rfl, rfl⟩ := recvFails_eq hstep
  · exact fun _ _ _ hret => nomatch hret
  · exact fun _ _ hwait => nomatch hwait

theorem recv_frame {db : Db} {b b' : Shared Query Reply} {a a' : Attempt Query}
    (hs : a.recv lookup db b = some (b', a')) :
    a'.sender = a.sender ∧ a'.broken = a.broken ∧ a'.receiver ≠ .raised true := by
  obtain ⟨p, r, wire, broken⟩ := a
  cases r with
  | wait =>
    simp only [Attempt.recv] at hs
    split_ifs at hs <;> cases hs <;> exact ⟨rfl, rfl, nofun⟩
  | receive =>
    cases wire with
    | nil => cases hs
    | cons q wire => cases hs; exact ⟨rfl, rfl, nofun⟩
  | pop =>
    simp only [Attempt.recv] at hs
    split at hs <;> cases hs <;> exact ⟨rfl, rfl, nofun⟩
  | returned => cases hs
  | raised caught => cases hs

theorem Inv.recv {k : Nat} {db : Db} (h : Inv lookup queries s) (hclean : s.Clean (.recv k db))
    (hs : s.coroutine k (Attempt.recv lookup db) = some s') : Inv lookup queries s' := by
  obtain ⟨n, a, o, b', a', hlist, rfl, hstep, rfl⟩ := coroutine_eq hs
  obtain ⟨hwait, hreceive, hpop⟩ := hclean a (by simp [hlist])
  have htake : s.attempts.take n.length = n := by simp [hlist]
  rw [htake] at hreceive
  have hordered := h.ordered
  have hpending := hordered.pending_ne_nil (a := a) (by simp [hlist])
  rw [hlist] at hordered
  obtain ⟨hsender, -, hraised⟩ := recv_frame hstep
  refine h.coroutine hlist (moves_recv hstep hpending)
    (hordered.recv hstep hreceive fun hr => (hpop hr).1) ?_ ?_ ?_
  · rintro - (hf | hf | hf)
    · exact .inl (hsender ▸ hf)
    · exact .inr (.inl (hsender ▸ hf))
    · exact absurd hf hraised
  · rintro rfl hrun hr - hnil
    exact hwait hr hnil rfl hrun
  · exact fun hrun hr _ => (hpop hr).2 hrun

theorem Inv.connect (h : Inv lookup queries s) :
    Inv lookup queries { s with attempts := .fresh :: s.attempts, phase := .running } := by
  refine ⟨h.ordered.connect, fun a ha hended => ?_, fun a ha r hr => ?_, fun a ha hr => ?_, fun _ => ?_,
    h.count_le, h.failures_le, nofun⟩
  · rcases List.mem_cons.1 ha with rfl | ha
    · rcases hended with hended | hended <;> cases hended
    · exact h.ended a ha hended
  · rcases List.mem_cons.1 ha with rfl | ha
    · cases hr
    · exact h.stopped a ha r hr
  · rcases List.mem_cons.1 ha with rfl | ha
    · cases hr
    · exact h.crash a ha hr
  · exact ⟨.fresh, s.attempts, rfl, ⟨by simp [Attempt.fresh], h.count_le, nofun, nofun⟩⟩

/-- The wrapper has not caught three failures before. -/
theorem Inv.caught (h : Inv lookup queries s) (hcount : s.count < s.failures) :
    Inv lookup queries s.caught := by
  have hlt : ¬ 3 ≤ s.count := by
    have := h.failures_le
    omega
  unfold State.caught
  rw [if_neg hlt]
  exact ⟨h.ordered, h.ended, h.stopped, h.crash, nofun, hcount, h.failures_le, nofun⟩

theorem Inv.connectFails (h : Inv lookup queries s) (hlt : s.failures < 3) :
    Inv lookup queries { s with failures := s.failures + 1, phase := .connecting } :=
  ⟨h.ordered, h.ended, h.stopped, h.crash, nofun, Nat.le_succ_of_le h.count_le, hlt, nofun⟩

theorem Inv.breaks {a : Attempt Query} {rest : List (Attempt Query)} (h : Inv lookup queries s)
    (hlist : s.attempts = a :: rest) (hrun : s.phase = .running) (hlt : s.failures < 3) :
    Inv lookup queries
      { s with failures := s.failures + 1, attempts := { a with broken := true } :: rest } := by
  have hordered := h.ordered
  rw [hlist] at hordered
  have hold : ∀ {c}, c ∈ ({ a with broken := true } : Attempt Query) :: rest →
      ∃ d ∈ s.attempts, c.sender = d.sender ∧ c.receiver = d.receiver := by
    intro c hc
    rw [hlist]
    rcases List.mem_cons.1 hc with rfl | hc
    · exact ⟨a, by simp, rfl, rfl⟩
    · exact ⟨c, by simp [hc], rfl, rfl⟩
  obtain ⟨c, rest', hhead, hnew⟩ := h.newest hrun
  obtain ⟨rfl, rfl⟩ := List.cons.inj (hlist.symm.trans hhead)
  have hexh : ∀ {pending : List Query}, State.exhausted { s with
      failures := s.failures + 1
      attempts := { a with broken := true } :: rest } pending ↔ s.exhausted pending := by
    intro pending
    rw [exhausted_iff (n := []) hlist]
    exact exhausted_iff (n := []) (a := { a with broken := true }) rfl
  have hcount : s.count ≤ s.failures := h.count_le
  refine ⟨?_, fun c hc hended => ?_, fun c hc r hr => ?_, fun c hc hr => ?_, fun _ => ?_,
    Nat.le_succ_of_le hcount, hlt, h.exited⟩
  · exact Ordered.step (n := []) hordered
      (fun ha => .inl ⟨⟨ha.sender, ha.wire, ha.receiver⟩, rfl⟩)
      (fun hw => ⟨hw.next_pos, hw.stored_le, hw.wired, hw.split⟩) fun ⟨_, hc, _⟩ => nomatch hc
  · obtain ⟨d, hd, hsender, -⟩ := hold hc
    exact h.ended d hd (hended.imp (hsender ▸ ·) (hsender ▸ ·))
  · obtain ⟨d, hd, hsender, -⟩ := hold hc
    exact h.stopped d hd r (hsender ▸ hr)
  · obtain ⟨d, hd, -, hreceiver⟩ := hold hc
    exact h.crash d hd (hreceiver ▸ hr)
  · exact ⟨_, rest, rfl, ⟨fun _ => rfl, Nat.succ_le_succ hcount, fun hr => hexh.2 (hnew.returned hr),
      fun hr hex => hnew.receive hr (hexh.1 hex)⟩⟩

/-- A newest attempt that has begun works on the batch. -/
theorem Ordered.head {b : Shared Query Reply} {a : Attempt Query} {rest : List (Attempt Query)}
    (h : Ordered lookup queries b (a :: rest)) (hbegun : a.sender.begun = true) :
    Owned lookup queries b a := by
  obtain ⟨newer, w, older, hlist, hnewer, holder, hw⟩ := h
  cases newer with
  | nil =>
    obtain ⟨rfl, rfl⟩ := List.cons.inj hlist
    exact hw
  | cons c newer =>
    obtain ⟨rfl, -⟩ := List.cons.inj hlist
    rw [(hnewer a (by simp)).begun] at hbegun
    cases hbegun

/-- When both coroutines of the newest attempt return, every query has its reply. -/
theorem Inv.processed {a : Attempt Query} {rest : List (Attempt Query)} (h : Inv lookup queries s)
    (hlist : s.attempts = a :: rest) (hrun : s.phase = .running) (hsender : a.sender = .stopped false)
    (hreceiver : a.receiver = .returned) : Inv lookup queries s.processed := by
  have hordered := h.ordered
  rw [hlist] at hordered
  have hw := hordered.head (by rw [hsender]; rfl)
  obtain ⟨c, rest', hhead, hnew⟩ := h.newest hrun
  obtain ⟨rfl, rfl⟩ := List.cons.inj (hlist.symm.trans hhead)
  obtain ⟨hmsgs, hpending, -⟩ := hnew.returned hreceiver
  obtain ⟨answered, hsplit, hanswers, hcount⟩ := hw.split
  rw [hsender, hmsgs, hpending, List.drop_nil] at hsplit
  rw [hpending, List.drop_nil] at hcount
  have hqueries : queries = answered := hsplit.trans (List.append_nil answered)
  have hlen : s.batch.results.length = s.batch.sentCount := by
    rw [hcount, ← hanswers.length_eq]
    rfl
  unfold State.processed
  rw [if_neg (not_not.2 hlen)]
  refine ⟨h.ordered, h.ended, h.stopped, h.crash, nofun, h.count_le, h.failures_le, ?_⟩
  rintro outcome ⟨⟩
  exact ⟨s.batch.results, rfl, hqueries ▸ hanswers⟩

theorem Inv.gather {a : Attempt Query} {rest : List (Attempt Query)} {g : Gathered}
    (h : Inv lookup queries s) (hlist : s.attempts = a :: rest) (hrun : s.phase = .running)
    (hs : s.gather a g = some s') : Inv lookup queries s' := by
  obtain ⟨c, rest', hhead, hnew⟩ := h.newest hrun
  obtain ⟨rfl, rfl⟩ := List.cons.inj (hlist.symm.trans hhead)
  have hcaught : a.broken = true → Inv lookup queries s.caught := fun hbroken => by
    have hcounted := hnew.counted
    rw [if_pos hbroken] at hcounted
    exact h.caught hcounted
  cases g with
  | finished =>
    simp only [State.gather] at hs
    split at hs
    · rename_i hsender hreceiver
      cases hs
      exact h.processed hlist hrun hsender hreceiver
    · cases hs
  | senderRaised =>
    simp only [State.gather] at hs
    split at hs
    · rename_i hsender
      cases hs
      exact hcaught (hnew.broken (.inr (.inl hsender)))
    · cases hs
  | receiverRaised =>
    simp only [State.gather] at hs
    split at hs
    · rename_i hreceiver
      cases hs
      exact hcaught (hnew.broken (.inr (.inr hreceiver)))
    · rename_i hreceiver
      exact absurd hreceiver (h.crash a (by simp [hlist]))
    · cases hs

theorem Inv.step {e : Event Db} (h : Inv lookup queries s) (hclean : s.Clean e)
    (hs : s.step lookup e = some s') : Inv lookup queries s' := by
  unfold State.step at hs
  split at hs
  · cases hs
  · cases hs
    exact h.connect
  · rename_i outer hphase
    split_ifs at hs with hlt houter
    · cases hs
      have hs' := h.connectFails hlt
      rw [← hphase] at hs'
      exact hs'.caught (Nat.lt_succ_of_le h.count_le)
    · cases hs
      have hs' := h.connectFails hlt
      rwa [← hphase] at hs'
  · rename_i hrun
    split at hs
    · rename_i a rest hlist
      split_ifs at hs with hb
      cases hs
      exact h.breaks hlist hrun hb.1
    · cases hs
  · rename_i g hrun
    obtain ⟨a, ha, hs⟩ := Option.bind_eq_some_iff.1 hs
    obtain ⟨rest, hlist⟩ := List.head?_eq_some_iff.1 ha
    exact h.gather hlist hrun hs
  · exact h.send hclean hs
  · split_ifs at hs with hlost
    exact h.sendFails hlost hs
  · exact h.recv hclean hs
  · split_ifs at hs with hlost
    exact h.recvFails hlost hs
  · cases hs

theorem inv_of_cleanRun (h : CleanRun lookup (State.init queries) s) : Inv lookup queries s := by
  induction h with
  | start => exact inv_init
  | step _ hclean hs ih => exact ih.step hclean hs

/-! ### Going on -/

theorem send_isSome {b : Shared Query Reply} {a : Attempt Query}
    (h : ∀ r, a.sender ≠ .stopped r) : (a.send b).isSome := by
  obtain ⟨p, r, wire, broken⟩ := a
  cases p with
  | resend i =>
    simp only [Attempt.send]
    split <;> rfl
  | fetch =>
    simp only [Attempt.send]
    split <;> rfl
  | drain next => cases next <;> rfl
  | stopped r => exact absurd rfl (h r)
  | _ => rfl

theorem coroutine_isSome {a : Attempt Query} {rest : List (Attempt Query)}
    {f : Shared Query Reply → Attempt Query → Option (Shared Query Reply × Attempt Query)}
    (hlist : s.attempts = a :: rest) (hf : (f s.batch a).isSome) : ∃ s', s.coroutine 0 f = some s' := by
  obtain ⟨r, hr⟩ := Option.isSome_iff_exists.1 hf
  refine ⟨{ s with batch := r.1, attempts := s.attempts.set 0 r.2 }, ?_⟩
  simp [State.coroutine, hlist, hr]

/-- The receiver goes on when the sender has ended. -/
theorem Inv.recv_isSome {a : Attempt Query} {rest : List (Attempt Query)} {db : Db}
    (h : Inv lookup queries s) (hlist : s.attempts = a :: rest) (hnew : Newest s a)
    (hsender : a.sender = .stopped false) (hreturned : a.receiver ≠ .returned)
    (hraised : ∀ caught, a.receiver ≠ .raised caught) : (a.recv lookup db s.batch).isSome := by
  have hordered := h.ordered
  rw [hlist] at hordered
  have hw := hordered.head (by rw [hsender]; rfl)
  have hmsgs := h.ended a (by simp [hlist]) (.inr hsender)
  have hdone := h.stopped a (by simp [hlist]) false hsender
  have hwired := hw.wired
  obtain ⟨p, r, wire, broken⟩ := a
  cases hsender
  cases r with
  | wait =>
    simp only [Attempt.recv, hdone]
    split_ifs <;> rfl
  | receive =>
    cases wire with
    | cons q wire => rfl
    | nil =>
      -- the sender has sent all that is pending, so nothing is
      have hpending : [] = s.batch.pending := hwired
      refine absurd ⟨hmsgs, hpending.symm, fun c hc => ?_⟩ (hnew.receive rfl)
      obtain ⟨newer, w, older, hlist', hnewer, holder, -⟩ := hordered
      cases newer with
      | nil =>
        obtain ⟨rfl, rfl⟩ := List.cons.inj hlist'
        rw [hlist] at hc
        rcases List.mem_cons.1 hc with rfl | hc
        · rfl
        · by_contra hheld
          exact holder c (by simp [hc]) (.inl hheld)
      | cons c newer =>
        obtain ⟨rfl, -⟩ := List.cons.inj hlist'
        cases (hnewer _ (List.mem_cons_self ..)).sender
  | pop =>
    simp only [Attempt.recv]
    split <;> rfl
  | returned => exact absurd rfl hreturned
  | raised caught => exact absurd rfl (hraised caught)

/-- The batch is not stuck before it ends. -/
theorem Inv.progress [Inhabited Db] (h : Inv lookup queries s)
    (hphase : ∀ outcome, s.phase ≠ .exited outcome) : ∃ (e : Event Db) (s' : State Query Reply),
      s.step lookup e = some s' := by
  cases hp : s.phase with
  | connecting =>
    exact ⟨.connect, { s with attempts := .fresh :: s.attempts, phase := .running }, by
      simp [State.step, hp]⟩
  | exited outcome => exact absurd hp (hphase outcome)
  | running =>
    obtain ⟨a, rest, hlist, hnew⟩ := h.newest hp
    have hgather : ∀ g, s.step lookup (.gather g : Event Db) = s.gather a g := fun g => by
      simp [State.step, hp, hlist]
    by_cases hstopped : ∃ r, a.sender = .stopped r
    · obtain ⟨raised, hsender⟩ := hstopped
      cases raised with
      | true => exact ⟨.gather .senderRaised, s.caught, by rw [hgather, State.gather, hsender]⟩
      | false =>
        by_cases hreturned : a.receiver = .returned
        · exact ⟨.gather .finished, s.processed, by rw [hgather, State.gather, hsender, hreturned]⟩
        by_cases hraised : ∃ caught, a.receiver = .raised caught
        · obtain ⟨caught, hreceiver⟩ := hraised
          cases caught with
          | true =>
            exact ⟨.gather .receiverRaised, s.caught, by rw [hgather, State.gather, hreceiver]⟩
          | false => exact absurd hreceiver (h.crash a (by simp [hlist]))
        · obtain ⟨s', hs'⟩ : ∃ s', s.coroutine 0 (Attempt.recv lookup default) = some s' :=
            coroutine_isSome hlist (h.recv_isSome hlist hnew hsender hreturned (not_exists.1 hraised))
          exact ⟨.recv 0 default, s', by simp [State.step, hp, hs']⟩
    · obtain ⟨s', hs'⟩ := coroutine_isSome hlist (send_isSome (not_exists.1 hstopped))
      exact ⟨.send 0, s', by simp [State.step, hp, hs']⟩

end Invariant

/-! ### Coming to an end -/

/-- The messages that are not removed yet, but for those that `others` hold. -/
def outstanding (b : Shared Query Reply) (a : Attempt Query) (others : Nat) : Nat :=
  b.msgs.length + b.pending.length + (a.sender.held.length + others)

/-- A bound on the steps of a sender, given that at most `u` messages are pending. -/
def Sender.work (u : Nat) : Sender Query → Nat
  | .resend i => 3 * (u - i) + 12
  | .write _ (some i) => 3 * (u - i) + 14
  | .drain (some i) => 3 * (u - i) + 13
  | .fetch => 4
  | .enqueue _ => 8
  | .write _ none => 6
  | .drain none => 5
  | .finish _ => 1
  | .stopped _ => 0

def Receiver.work : Receiver → Nat
  | .wait => 3
  | .receive => 2
  | .pop => 1
  | .returned => 0
  | .raised _ => 0

def Attempt.work (u : Nat) (a : Attempt Query) : Nat := a.sender.work u + a.receiver.work

theorem Attempt.work_mono {u u' : Nat} (a : Attempt Query) (h : u ≤ u') : a.work u ≤ a.work u' := by
  obtain ⟨p, r, wire, broken⟩ := a
  refine Nat.add_le_add_right ?_ _
  match p with
  | .resend i | .write _ (some i) | .drain (some i) =>
    simp only [Sender.work]
    omega
  | .fetch | .enqueue _ | .write _ none | .drain none | .finish _ | .stopped _ => exact le_refl _

section Work
variable {b b' : Shared Query Reply} {a a' : Attempt Query} {others : Nat}

/-- What a step of a coroutine leaves to be done is less than before. -/
def Works (b b' : Shared Query Reply) (a a' : Attempt Query) (others : Nat) : Prop :=
  outstanding b' a' others ≤ outstanding b a others ∧
    a'.work (outstanding b' a' others) + 5 * b'.msgs.length + 4 * outstanding b' a' others <
      a.work (outstanding b a others) + 5 * b.msgs.length + 4 * outstanding b a others

theorem works_send (hs : a.send b = some (b', a')) : Works b b' a a' others := by
  obtain ⟨p, r, wire, broken⟩ := a
  cases p with
  | resend i =>
    simp only [Attempt.send] at hs
    cases hm : b.pending[i]? with
    | none =>
      rw [hm] at hs
      cases hs
      simp only [Works, outstanding, Attempt.work, Sender.work, Sender.held]
      omega
    | some m =>
      rw [hm] at hs
      cases hs
      obtain ⟨hi, -⟩ := List.getElem?_eq_some_iff.1 hm
      simp only [Works, outstanding, Attempt.work, Sender.work, Sender.held]
      omega
  | fetch =>
    simp only [Attempt.send] at hs
    split at hs <;> cases hs <;>
      simp_all only [Works, outstanding, Attempt.work, Sender.work, Sender.held, List.length_cons,
        List.length_nil] <;> omega
  | drain next =>
    cases next <;> cases hs <;>
      simp only [Works, outstanding, Attempt.work, Sender.work, Sender.held] <;> omega
  | write m next =>
    cases hs
    cases next <;> simp only [Works, outstanding, Attempt.work, Sender.work, Sender.held] <;> omega
  | enqueue m =>
    cases hs
    simp only [Works, outstanding, Attempt.work, Sender.work, Sender.held, List.length_append,
      List.length_cons, List.length_nil]
    omega
  | finish raised =>
    cases hs
    simp only [Works, outstanding, Attempt.work, Sender.work, Sender.held]
    omega
  | stopped raised => cases hs

theorem works_sendFails (hs : a.sendFails b = some (b', a')) : Works b b' a a' others := by
  obtain ⟨p, r, wire, broken⟩ := a
  cases p with
  | write m next =>
    cases hs
    cases next <;> simp only [Works, outstanding, Attempt.work, Sender.work, Sender.held] <;> omega
  | drain next =>
    cases hs
    cases next <;> simp only [Works, outstanding, Attempt.work, Sender.work, Sender.held] <;> omega
  | _ => cases hs

theorem works_recv {db : Db} (hs : a.recv lookup db b = some (b', a')) : Works b b' a a' others := by
  obtain ⟨p, r, wire, broken⟩ := a
  have hmono := fun u u' (h : u ≤ u') => Attempt.work_mono (⟨p, .returned, wire, broken⟩ : Attempt Query) h
  cases r with
  | wait =>
    simp only [Attempt.recv] at hs
    split_ifs at hs <;> cases hs <;>
      simp only [Works, outstanding, Attempt.work, Receiver.work] <;> omega
  | receive =>
    cases wire with
    | nil => cases hs
    | cons q wire =>
      cases hs
      simp only [Works, outstanding, Attempt.work, Receiver.work]
      omega
  | pop =>
    simp only [Attempt.recv] at hs
    cases hm : b.pending with
    | nil =>
      rw [hm] at hs
      cases hs
      simp only [Works, outstanding, Attempt.work, Receiver.work]
      omega
    | cons q pending =>
      rw [hm] at hs
      cases hs
      have h := hmono (b.msgs.length + pending.length + (p.held.length + others))
        (b.msgs.length + (pending.length + 1) + (p.held.length + others)) (by omega)
      simp only [Attempt.work, Receiver.work] at h
      simp only [Works, outstanding, Attempt.work, Receiver.work, hm, List.length_cons]
      omega
  | returned => cases hs
  | raised caught => cases hs

theorem works_recvFails (hs : a.recvFails b = some (b', a')) : Works b b' a a' others := by
  obtain ⟨p, r, wire, broken⟩ := a
  cases r with
  | receive =>
    cases hs
    simp only [Works, outstanding, Attempt.work, Receiver.work]
    omega
  | _ => cases hs

end Work

namespace State

def outstanding (s : State Query Reply) : Nat :=
  s.batch.msgs.length + s.batch.pending.length +
    (s.attempts.map fun a => a.sender.held.length).sum

/-- How many attempts can still start. -/
def credit (s : State Query Reply) : Nat :=
  3 - s.failures + match s.phase with
    | .connecting => 1
    | .running => if (s.attempts.head?.map Attempt.broken).getD false then 1 else 0
    | .exited _ => 0

/-- A bound on the steps that are left. -/
def work (s : State Query Reply) : Nat :=
  (s.attempts.map (Attempt.work s.outstanding)).sum + 5 * s.batch.msgs.length + 4 * s.outstanding +
    s.credit * (3 * s.outstanding + 17) + (3 - s.failures) + match s.phase with
      | .running => 1
      | _ => 0

end State

section Termination
variable {queries : List Query} {s s' : State Query Reply}

theorem outstanding_eq {n o : List (Attempt Query)} {a : Attempt Query}
    (hlist : s.attempts = n ++ a :: o) : s.outstanding =
      Batch.outstanding s.batch a ((n ++ o).map fun a => a.sender.held.length).sum := by
  unfold State.outstanding Batch.outstanding
  rw [hlist]
  simp only [List.map_append, List.map_cons, List.sum_append, List.sum_cons]
  omega

theorem sum_work_le {l : List (Attempt Query)} {u u' : Nat} (h : u ≤ u') :
    (l.map (Attempt.work u)).sum ≤ (l.map (Attempt.work u')).sum :=
  List.sum_le_sum fun a _ => a.work_mono h

theorem work_coroutine {n o : List (Attempt Query)} {a a' : Attempt Query} {b' : Shared Query Reply}
    (hlist : s.attempts = n ++ a :: o) (hbroken : a'.broken = a.broken)
    (hworks : ∀ others, Works s.batch b' a a' others) :
    State.work { s with batch := b', attempts := n ++ a' :: o } < s.work := by
  set s' : State Query Reply := { s with batch := b', attempts := n ++ a' :: o } with hs'
  have hcredit : s'.credit = s.credit := by
    have hhead : s'.attempts.head?.map Attempt.broken = s.attempts.head?.map Attempt.broken := by
      rw [hlist, hs']
      cases n with
      | nil => exact congrArg some hbroken
      | cons c n => rfl
    unfold State.credit
    rw [hhead]
  obtain ⟨hle, hlt⟩ := hworks ((n ++ o).map fun a => a.sender.held.length).sum
  rw [← outstanding_eq hlist, ← outstanding_eq (s := s') rfl] at hle hlt
  have hn := sum_work_le (l := n) hle
  have ho := sum_work_le (l := o) hle
  have hmul : s'.credit * (3 * s'.outstanding + 17) ≤ s.credit * (3 * s.outstanding + 17) := by
    rw [hcredit]
    exact Nat.mul_le_mul_left _ (by omega)
  have hsum : (s'.attempts.map (Attempt.work s'.outstanding)).sum =
      (n.map (Attempt.work s'.outstanding)).sum + (a'.work s'.outstanding +
        (o.map (Attempt.work s'.outstanding)).sum) := by
    rw [hs']
    simp
  have hsum' : (s.attempts.map (Attempt.work s.outstanding)).sum =
      (n.map (Attempt.work s.outstanding)).sum + (a.work s.outstanding +
        (o.map (Attempt.work s.outstanding)).sum) := by
    rw [hlist]
    simp
  unfold State.work
  rw [hsum, hsum']
  show _ + 5 * b'.msgs.length + _ + _ + (3 - s.failures) + _ < _
  have hphase : s'.phase = s.phase := rfl
  rw [hphase]
  omega

theorem work_of_coroutine {k : Nat}
    {f : Shared Query Reply → Attempt Query → Option (Shared Query Reply × Attempt Query)}
    (h : s.coroutine k f = some s')
    (hf : ∀ b b' a a', f b a = some (b', a') → a'.broken = a.broken ∧ ∀ others, Works b b' a a' others) :
    s'.work < s.work := by
  obtain ⟨n, a, o, b', a', hlist, -, hstep, rfl⟩ := coroutine_eq h
  obtain ⟨hbroken, hworks⟩ := hf _ _ _ _ hstep
  exact work_coroutine hlist hbroken hworks

theorem work_connect (hphase : s.phase = .connecting) :
    State.work { s with attempts := .fresh :: s.attempts, phase := .running } < s.work := by
  have hout : State.outstanding { s with attempts := .fresh :: s.attempts, phase := .running } =
      s.outstanding := by
    simp [State.outstanding, Attempt.fresh, Sender.held]
  have hfresh : (Attempt.fresh : Attempt Query).work s.outstanding = 3 * s.outstanding + 15 := rfl
  have hmul := Nat.add_one_mul (3 - s.failures) (3 * s.outstanding + 17)
  unfold State.work State.credit
  rw [hout, hphase, List.map_cons, List.sum_cons, hfresh]
  simp only [List.head?_cons, Option.map_some, Option.getD_some, Attempt.fresh, Bool.false_eq_true,
    if_false, Nat.add_zero]
  omega

/-- A failure costs the attempt that it would let start. -/
theorem work_connectFails (hphase : s.phase = .connecting) (hlt : s.failures < 3) :
    State.work { s with failures := s.failures + 1 } < s.work := by
  have hout : State.outstanding { s with failures := s.failures + 1 } = s.outstanding := rfl
  have hmul := Nat.mul_le_mul_right (3 * s.outstanding + 17)
    (show 3 - (s.failures + 1) + 1 ≤ 3 - s.failures + 1 by omega)
  unfold State.work State.credit
  rw [hout, hphase]
  dsimp only
  omega

theorem caught_eq (h : s.count < 3) :
    s.caught = { s with count := s.count + 1, phase := .connecting } := by
  unfold State.caught
  rw [if_neg (by omega)]

theorem work_caught (hphase : s.phase = .running)
    (hbroken : (s.attempts.head?.map Attempt.broken).getD false = true) (hcount : s.count < 3) :
    s.caught.work < s.work := by
  have hout : State.outstanding { s with count := s.count + 1, phase := .connecting } =
      s.outstanding := rfl
  rw [caught_eq hcount]
  unfold State.work State.credit
  rw [hout, hphase]
  simp only [hbroken, if_true]
  omega

theorem work_processed (hphase : s.phase = .running) : s.processed.work < s.work := by
  have hout : ∀ outcome, State.outstanding { s with phase := .exited outcome } = s.outstanding :=
    fun _ => rfl
  have hmul := Nat.add_one_mul (3 - s.failures) (3 * s.outstanding + 17)
  have hexit : ∀ outcome, State.work { s with phase := .exited outcome } < s.work := fun outcome => by
    unfold State.work State.credit
    rw [hout, hphase]
    cases (s.attempts.head?.map Attempt.broken).getD false <;>
      simp only [if_true, if_false, Bool.false_eq_true, Nat.add_zero] <;> omega
  unfold State.processed
  split_ifs
  · exact hexit _
  · exact hexit _

theorem work_breaks {a : Attempt Query} {rest : List (Attempt Query)} (hlist : s.attempts = a :: rest)
    (hphase : s.phase = .running) (hlt : s.failures < 3) (hbroken : a.broken = false) :
    State.work { s with failures := s.failures + 1, attempts := { a with broken := true } :: rest } <
      s.work := by
  have hout : State.outstanding { s with
      failures := s.failures + 1
      attempts := { a with broken := true } :: rest } = s.outstanding := by
    unfold State.outstanding
    rw [hlist]
    rfl
  have hwork : ∀ u, Attempt.work u { a with broken := true } = a.work u := fun _ => rfl
  have hcredit : 3 - (s.failures + 1) + 1 = 3 - s.failures := by omega
  unfold State.work State.credit
  rw [hout, hphase, hlist]
  simp only [List.map_cons, List.sum_cons, hwork, List.head?_cons, Option.map_some, Option.getD_some,
    hbroken, if_true, Bool.false_eq_true, if_false, hcredit, Nat.add_zero]
  omega

theorem work_step {e : Event Db} (h : Inv lookup queries s) (hs : s.step lookup e = some s') :
    s'.work < s.work := by
  unfold State.step at hs
  split at hs
  · cases hs
  · rename_i hphase
    cases hs
    exact work_connect hphase
  · rename_i outer hphase
    split_ifs at hs with hlt houter
    · cases hs
      have hcount : s.count < 3 := Nat.lt_of_le_of_lt h.count_le hlt
      have hsame : State.caught { s with failures := s.failures + 1 } =
          { s with count := s.count + 1, failures := s.failures + 1 } := by
        rw [caught_eq (s := { s with failures := s.failures + 1 }) hcount, hphase]
      rw [hsame]
      exact work_connectFails hphase hlt
    · cases hs
      exact work_connectFails hphase hlt
  · rename_i hphase
    split at hs
    · rename_i a rest hlist
      split_ifs at hs with hb
      cases hs
      exact work_breaks hlist hphase hb.1 hb.2
    · cases hs
  · rename_i g hphase
    obtain ⟨a, ha, hs⟩ := Option.bind_eq_some_iff.1 hs
    obtain ⟨c, rest, hhead, hnew⟩ := h.newest hphase
    have hfailures := h.failures_le
    have hcaught : a.broken = true → s.caught.work < s.work := fun hbroken => by
      rw [hhead] at ha
      obtain rfl := Option.some.inj ha
      have hcounted := hnew.counted
      rw [if_pos hbroken] at hcounted
      exact work_caught hphase (by simp [hhead, hbroken]) (by omega)
    have hnew : Newest s a := by
      rw [hhead] at ha
      exact Option.some.inj ha ▸ hnew
    have hmem : a ∈ s.attempts := List.mem_of_mem_head? ha
    cases g with
    | finished =>
      simp only [State.gather] at hs
      split at hs <;> cases hs
      exact work_processed hphase
    | senderRaised =>
      simp only [State.gather] at hs
      split at hs <;> cases hs
      rename_i hsender
      exact hcaught (hnew.broken (.inr (.inl hsender)))
    | receiverRaised =>
      simp only [State.gather] at hs
      split at hs <;> cases hs
      · rename_i hreceiver
        exact hcaught (hnew.broken (.inr (.inr hreceiver)))
      · rename_i hreceiver
        exact absurd hreceiver (h.crash a hmem)
  · exact work_of_coroutine hs fun _ _ _ _ h => ⟨(moves_send h).broken, fun _ => works_send h⟩
  · split_ifs at hs
    exact work_of_coroutine hs fun _ _ _ _ h => ⟨(moves_sendFails h).broken, fun _ => works_sendFails h⟩
  · exact work_of_coroutine hs fun _ _ _ _ h => ⟨(recv_frame h).2.1, fun _ => works_recv h⟩
  · split_ifs at hs
    exact work_of_coroutine hs fun _ _ _ _ h => ⟨(moves_recvFails h).broken, fun _ => works_recvFails h⟩
  · cases hs

/-- No run goes on forever. -/
theorem no_infinite_run (run : Nat → State Query Reply) (hinv : ∀ n, Inv lookup queries (run n))
    (hstep : ∀ n, ∃ e : Event Db, (run n).step lookup e = some (run (n + 1))) : False :=
  not_strictAnti_of_wellFoundedLT (fun n => (run n).work) (strictAnti_nat_of_succ_lt fun n => by
    obtain ⟨e, he⟩ := hstep n
    exact work_step (hinv n) he)

end Termination

/-! ### The claim of the batch -/

section Result
variable [Inhabited Db] (lookup : Db → Query → Reply) (queries : List Query)

/-- A clean run ends with the replies to the queries in order, and every clean run comes to an end:
it is not stuck before, and none goes on forever. -/
theorem send_stream_batch :
    (∀ s, CleanRun lookup (State.init queries) s →
      (∀ outcome, s.phase = .exited outcome → ∃ results, outcome = .returned results ∧
        List.Forall₂ (Answer lookup) queries results) ∧
      ((∀ outcome, s.phase ≠ .exited outcome) → ∃ e s', s.step lookup e = some s')) ∧
    ¬ ∃ run : Nat → State Query Reply, run 0 = .init queries ∧
      ∀ n, ∃ e, (run n).Clean e ∧ (run n).step lookup e = some (run (n + 1)) := by
  refine ⟨fun s h => ⟨(inv_of_cleanRun h).exited, (inv_of_cleanRun h).progress⟩, ?_⟩
  rintro ⟨run, hstart, hstep⟩
  have hrun : ∀ n, CleanRun lookup (State.init queries) (run n) := by
    intro n
    induction n with
    | zero => exact hstart ▸ .start
    | succ n ih =>
      obtain ⟨e, hclean, hs⟩ := hstep n
      exact ih.step hclean hs
  exact no_infinite_run run (fun n => inv_of_cleanRun (hrun n)) fun n =>
    (hstep n).imp fun _ h => h.2

end Result

/-! ### A clean run with a failure -/

/-- A schedule whose steps are all clean. -/
def State.runClean [DecidableEq Query] [DecidableEq Reply] (lookup : Db → Query → Reply)
    (s : State Query Reply) : List (Event Db) → Option (State Query Reply)
  | [] => some s
  | e :: es => if s.Clean e then (s.step lookup e).bind fun s' => s'.runClean lookup es else none

theorem cleanRun_of_runClean [DecidableEq Query] [DecidableEq Reply] {s₀ s s' : State Query Reply}
    {es : List (Event Db)} (h : CleanRun lookup s₀ s) (hrun : s.runClean lookup es = some s') :
    CleanRun lookup s₀ s' := by
  induction es generalizing s with
  | nil =>
    cases hrun
    exact h
  | cons e es ih =>
    rw [State.runClean] at hrun
    split_ifs at hrun with hclean
    obtain ⟨t, ht, hrun⟩ := Option.bind_eq_some_iff.1 hrun
    exact ih (h.step hclean ht) hrun

namespace Sample

/-- The first message cannot be sent and is sent again. -/
def cleanSchedule : List (Event Unit) :=
  .connect :: send 3 ++ [.breaks, .sendFails 0, .send 0, .gather .senderRaised, .connect] ++
    send 7 ++ recv 7 ++ send 3 ++ [.gather .finished]

theorem both_replies : ∃ s, CleanRun echo (State.init [1, 2]) s ∧
    s.phase = .exited (.returned [1, 2]) ∧
    ∃ results, Outcome.returned [1, 2] = .returned results ∧
      List.Forall₂ (Answer echo) [1, 2] results := by
  have hsome : (((State.init [1, 2]).runClean echo cleanSchedule).map State.phase) =
      some (.exited (.returned [1, 2])) := by
    decide
  obtain ⟨s, hs, hphase⟩ := Option.map_eq_some_iff.1 hsome
  have hrun := cleanRun_of_runClean .start hs
  exact ⟨s, hrun, hphase, ((send_stream_batch echo [1, 2]).1 s hrun).1 _ hphase⟩

end Sample

end Batch
end HashServ
end OpenBmc
