import OpenBmc.BitBake.WorkerPipe

/-!
# The events of a task on their way

A worker passes the events of its tasks on to the server. `runQueueWorkerPipe.read` cuts them at their
tags and does not load them, so that, unlike the server, it takes a tag in a pickle for one of its own.
Events without one come through both pipes, each in its own pieces, and are handled once and in their
order (`relay_read`).
-/

namespace OpenBmc
namespace BitBake
namespace WorkerPipe
open Py Names

/-- `count`, without overlaps; the number is at least the length. -/
def countSub (sub : Bytes) : ℕ → Bytes → ℕ
  | 0, _ => 0
  | n + 1, s =>
    match findSub sub s with
    | none => 0
    | some i => countSub sub n (s.drop (i + sub.length)) + 1

/-- One event, with its tags; the fault is the assertion. -/
def takeMsg (queue : Bytes) : Cut UInt8 Bytes Unit :=
  match findSub eventEnd queue with
  | none => .more
  | some index =>
    let msg := queue.take (index + 8)
    if eventTag <+: msg ∧ countSub eventTag msg.length msg = 1 then .item msg (queue.drop (index + 8))
    else .fault ()

structure Relay where
  queue : Bytes
  sent : List Bytes
  failed : Bool

def relayLoop : ℕ → Relay → Relay
  | 0, s => s
  | n + 1, s =>
    match takeMsg s.queue with
    | .more => s
    | .fault _ => { s with failed := true }
    | .item msg rest => relayLoop n { s with queue := rest, sent := s.sent ++ [msg] }

/-- `runQueueWorkerPipe.read`; what is sent is what `worker_fire_prepickled` is given. -/
def relay (s : Relay) (data : Bytes) : Relay :=
  if s.failed then s
  else relayLoop ((s.queue ++ data).length + 1) { s with queue := s.queue ++ data }

def Relay.start : Relay := ⟨[], [], false⟩

def Relay.out (s : Relay) : Except Unit Bytes := if s.failed then .error () else .ok s.queue

/-! ### What is cut off -/

theorem takeMsg_item {queue msg rest : Bytes} (h : takeMsg queue = .item msg rest) :
    queue = msg ++ rest ∧ rest.length < queue.length := by
  unfold takeMsg at h
  cases hf : findSub eventEnd queue with
  | none =>
    rw [hf] at h
    cases h
  | some i =>
    rw [hf] at h
    simp only at h
    split at h
    · cases h
      have hlen := index_le hf
      exact ⟨(List.take_append_drop _ queue).symm, by rw [List.length_drop]; omega⟩
    · cases h

theorem takeMsg_extend {queue : Bytes} (t : Bytes) (h : takeMsg queue ≠ .more) :
    takeMsg (queue ++ t) = (takeMsg queue).extend t := by
  unfold takeMsg at h ⊢
  cases hf : findSub eventEnd queue with
  | none =>
    rw [hf] at h
    exact absurd rfl h
  | some i =>
    have hlen := index_le hf
    simp only [findSub_append t hf, List.take_append_of_le_length hlen,
      List.drop_append_of_le_length hlen]
    split <;> rfl

def relaying : Framing UInt8 Bytes Unit where
  cut := takeMsg
  idle := rfl
  shorter h := (takeMsg_item h).2
  stable t h := takeMsg_extend t h

theorem relayLoop_spec : ∀ (n : ℕ) (s : Relay), s.queue.length < n → s.failed = false →
    ∃ ms, relaying.Drains s.queue ms (relayLoop n s).out ∧ (relayLoop n s).sent = s.sent ++ ms
  | 0, _, hn, _ => absurd hn (Nat.not_lt_zero _)
  | n + 1, s, hn, hs => by
    rw [relayLoop]
    cases hc : takeMsg s.queue with
    | more =>
      refine ⟨[], ?_, (List.append_nil _).symm⟩
      rw [Relay.out, hs]
      exact .more hc
    | fault e => exact ⟨[], .fault hc, (List.append_nil _).symm⟩
    | item msg rest =>
      have hlen := (takeMsg_item hc).2
      obtain ⟨ms, hd, hsent⟩ := relayLoop_spec n { s with queue := rest, sent := s.sent ++ [msg] }
        (by simp only; omega) hs
      refine ⟨msg :: ms, .item hc hd, ?_⟩
      rw [hsent, List.append_assoc, List.singleton_append]

theorem Relay.out_ok {s : Relay} {r : Bytes} (h : s.out = .ok r) : s.failed = false ∧ s.queue = r := by
  rw [Relay.out] at h
  cases hs : s.failed with
  | false =>
    rw [hs] at h
    exact ⟨rfl, Except.ok.inj h⟩
  | true =>
    rw [hs] at h
    cases h

theorem relays_drains (chunks : List Bytes) :
    relaying.Drains chunks.flatten (chunks.foldl relay .start).sent (chunks.foldl relay .start).out := by
  have hok : ∀ (s : Relay) (ms : List Bytes) (r data : Bytes), s.sent = ms → s.out = .ok r →
      ∃ ms', relaying.Drains (r ++ data) ms' (relay s data).out ∧ (relay s data).sent = ms ++ ms' := by
    intro s ms r data ht ho
    obtain ⟨hf, rfl⟩ := Relay.out_ok ho
    have hrelay : relay s data =
        relayLoop ((s.queue ++ data).length + 1) { s with queue := s.queue ++ data } := by
      rw [relay, hf]
      rfl
    obtain ⟨ms', hd, hsent⟩ :=
      relayLoop_spec _ { s with queue := s.queue ++ data } (Nat.lt_succ_self _) hf
    rw [hrelay]
    exact ⟨ms', hd, by rw [hsent, ht]⟩
  have hfault : ∀ (s : Relay) (e : Unit) (data : Bytes), s.out = .error e → relay s data = s := by
    intro s e data ho
    rw [Relay.out] at ho
    cases hs : s.failed with
    | false =>
      rw [hs] at ho
      cases ho
    | true => rw [relay, if_pos hs]
  obtain ⟨ms, hd, hsent⟩ := Framing.Drains.pieces (fun s ms => s.sent = ms) hok hfault chunks .start [] []
    (.more relaying.idle) rfl
  rw [hsent]
  exact hd

theorem drains_flatten {q : Bytes} {ms : List Bytes} {out : Except Unit Bytes}
    (h : relaying.Drains q ms out) : ∃ rest, q = ms.flatten ++ rest ∧ ∀ r, out = .ok r → r = rest := by
  induction h with
  | @more q _ => exact ⟨q, rfl, fun r hr => (Except.ok.inj hr).symm⟩
  | @fault q _ _ => exact ⟨q, rfl, fun r hr => by cases hr⟩
  | item hc _ ih =>
    obtain ⟨rest, hq, hout⟩ := ih
    refine ⟨rest, ?_, hout⟩
    rw [(takeMsg_item hc).1, hq, List.flatten_cons, List.append_assoc]

/-- What is passed on is what has arrived, from its start and without a gap; a worker that has not
failed holds the rest. -/
theorem relay_sent (chunks : List Bytes) :
    (chunks.foldl relay .start).sent.flatten <+: chunks.flatten ∧
      ((chunks.foldl relay .start).failed = false →
        (chunks.foldl relay .start).sent.flatten ++ (chunks.foldl relay .start).queue =
          chunks.flatten) := by
  obtain ⟨rest, hq, hout⟩ := drains_flatten (relays_drains chunks)
  refine ⟨⟨rest, hq.symm⟩, fun hf => ?_⟩
  have hqueue : (chunks.foldl relay .start).queue = rest := hout _ (by rw [Relay.out, hf]; rfl)
  rw [hqueue, hq]

/-! ### Events on their way -/

section relay
variable {E : Type} {p : Pickles E}

/-- An event with no tag in its pickle. -/
def Relayable (p : Pickles E) (e : Event E) : Prop :=
  ¬ eventTag <:+: p.dumps e ∧ ¬ eventEnd <:+: p.dumps e

theorem findSub_eq_none {sub s : Bytes} (h : ¬ sub <:+: s) : findSub sub s = none := by
  cases hf : findSub sub s with
  | none => rfl
  | some i => exact absurd ((findSub_some hf).isInfix.trans (List.drop_suffix i s).isInfix) h

/-- A begin tag is neither in the end tag nor over its start. -/
theorem eventTag_not_in {d : Bytes} (h : ¬ eventTag <:+: d) : ¬ eventTag <:+: d ++ eventEnd := by
  rintro ⟨before, after, heq⟩
  have hdrop : (d ++ eventEnd).drop before.length = eventTag ++ after := by
    rw [← heq, List.append_assoc, List.drop_left]
  rcases Nat.lt_or_ge before.length d.length with hlt | hge
  · rw [List.drop_append_of_le_length hlt.le] at hdrop
    have hpre : eventTag <+: d.drop before.length :=
      prefix_append_head (by decide) (hdrop ▸ List.prefix_append eventTag after) (by simpa using hlt)
    exact h (hpre.isInfix.trans (List.drop_suffix _ d).isInfix)
  · have hend : eventTag <:+: eventEnd := by
      rw [← Nat.add_sub_cancel' hge, ← List.drop_drop, List.drop_left] at hdrop
      calc eventTag
        _ <:+: eventTag ++ after := (List.prefix_append eventTag after).isInfix
        _ = eventEnd.drop (before.length - d.length) := hdrop.symm
        _ <:+: eventEnd := (List.drop_suffix _ eventEnd).isInfix
    revert hend
    decide

theorem countSub_event {d : Bytes} (h : ¬ eventTag <:+: d) (n : ℕ) :
    countSub eventTag (n + 2) (eventTag ++ (d ++ eventEnd)) = 1 := by
  have hfirst : findSub eventTag (eventTag ++ (d ++ eventEnd)) = some 0 := by
    obtain ⟨i, hi, hf⟩ := findSub_first (Nat.zero_le (eventTag ++ (d ++ eventEnd)).length)
      (List.prefix_append eventTag (d ++ eventEnd))
    rw [hf, Nat.le_zero.1 hi]
  have hrest : (eventTag ++ (d ++ eventEnd)).drop (0 + eventTag.length) = d ++ eventEnd := by
    rw [Nat.zero_add, List.drop_left]
  rw [countSub, hfirst]
  simp only [hrest]
  rw [countSub, findSub_eq_none (eventTag_not_in h)]

theorem takeMsg_encode {e : Event E} (h : Relayable p e) :
    relaying.Encodes (fun e => encode p (.event e)) (fun e => encode p (.event e)) e := by
  intro rest
  have hno : ¬ eventEnd <:+: eventTag ++ p.dumps e := fun hin => h.2 (infix_behind (by decide) hin)
  have hmsg : encode p (.event e) ++ rest = eventTag ++ p.dumps e ++ (eventEnd ++ rest) := by
    simp only [encode, List.append_assoc]
  have hfind : findSub eventEnd (encode p (.event e) ++ rest) =
      some (eventTag ++ p.dumps e).length := by
    rw [hmsg]
    exact findSub_tag (by decide) rest hno
  have hlen : (encode p (.event e)).length = (eventTag ++ p.dumps e).length + 8 := by
    rw [encode, ← List.append_assoc, List.length_append, length_eventEnd]
  have hcount : countSub eventTag (encode p (.event e)).length (encode p (.event e)) = 1 := by
    rw [hlen]
    exact countSub_event h.1 _
  have hcut : takeMsg (encode p (.event e) ++ rest) = .item (encode p (.event e)) rest := by
    rw [takeMsg, hfind]
    simp only [List.take_left' hlen, List.drop_left' hlen, hcount]
    exact if_pos ⟨List.prefix_append _ _, trivial⟩
  exact hcut

/-- The events of a task come to the server through the worker, once and in their order, in whatever
pieces each of the two receives them. -/
theorem relay_read (hp : p.Faithful) (fakerootlogs : Option (Str → Option Str)) (es : List (Event E))
    (hes : ∀ e ∈ es, Relayable p e) (chunks pieces : List Bytes)
    (hchunks : chunks.flatten = es.flatMap fun e => encode p (.event e))
    (hpieces : pieces.flatten = (chunks.foldl relay .start).sent.flatten) :
    (chunks.foldl relay .start).out = .ok [] ∧
      (pieces.foldl (read p fakerootlogs) (.start E)).out = .ok [] ∧
      (pieces.foldl (read p fakerootlogs) (.start E)).actions =
        es.flatMap fun e => act fakerootlogs (.event e) := by
  obtain ⟨done, rest, left, ho, hes', hsent, hleft, hall⟩ :=
    (relays_drains chunks).encoded (fun e he => takeMsg_encode (hes e he))
      ((List.append_nil _).trans hchunks)
  obtain rfl := hall rfl
  rw [List.append_nil] at hes' hleft
  subst hes' hleft
  obtain ⟨ms, hd, ht⟩ := reads_drains p fakerootlogs pieces
  have hstream : pieces.flatten ++ [] = (es.map Message.event).flatMap (encode p) := by
    rw [List.append_nil, hpieces, hsent, List.flatMap_map]
    rfl
  have hsendable : ∀ x ∈ es.map Message.event, (framing p).Encodes (encode p) id x := by
    intro x hx
    obtain ⟨e, -, rfl⟩ := List.mem_map.1 hx
    exact cut_event hp e
  obtain ⟨done, rest, left, ho', hxs, hms, hleft, hall⟩ := hd.encoded hsendable hstream
  obtain rfl := hall rfl
  rw [List.append_nil] at hxs hleft
  rw [hleft] at ho'
  refine ⟨ho, ho', ?_⟩
  rw [ht, hms, List.map_id, ← hxs, List.flatMap_map]

def sampleEncoded : Bytes := encode samplePickles (.event (.other 0))

theorem relay_read_sample :
    ([sampleEncoded.take 9, sampleEncoded.drop 9].foldl relay .start).out = .ok [] ∧
      ([([sampleEncoded.take 9, sampleEncoded.drop 9].foldl relay .start).sent.flatten].foldl
        (read samplePickles none) (.start ℕ)).out = .ok [] ∧
      ([([sampleEncoded.take 9, sampleEncoded.drop 9].foldl relay .start).sent.flatten].foldl
        (read samplePickles none) (.start ℕ)).actions = [.fireFromWorker (.other 0)] := by
  have hes : ∀ e ∈ [Event.other 0], Relayable samplePickles e := by
    intro e he
    rw [List.mem_singleton.1 he]
    exact ⟨by decide, by decide⟩
  have hchunks : [sampleEncoded.take 9, sampleEncoded.drop 9].flatten =
      [Event.other 0].flatMap fun e => encode samplePickles (.event e) := by
    rw [List.flatten_cons, List.flatten_singleton, List.take_append_drop, List.flatMap_singleton,
      sampleEncoded]
  exact relay_read samplePickles_faithful none [.other 0] hes _ _ hchunks List.flatten_singleton

/-- With an end tag in its pickle the assertion fails. -/
example : (relay .start (encode samplePickles (.event (.other 1)))).failed = true := by decide

end relay

end WorkerPipe
end BitBake
end OpenBmc
