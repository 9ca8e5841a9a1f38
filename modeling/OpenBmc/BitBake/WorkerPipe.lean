import Mathlib.Logic.Equiv.List
import OpenBmc.Lib.Framing
import OpenBmc.BitBake.Names

/-!
# What the server reads from a worker

`runQueuePipe.read` cuts events and exit statuses from the bytes that have arrived. In whatever pieces
they arrive it does what it would do with all of them at once (`read_chunks`), and what a worker sends
is handled once and in its order (`read_stream`), an event also when its pickle holds the tag that ends
it.
-/

namespace OpenBmc
namespace BitBake
namespace WorkerPipe
open Py Names

abbrev Bytes := List UInt8

def ascii (s : String) : Bytes := s.toList.map fun c => UInt8.ofNat c.toNat

def eventTag : Bytes := ascii "<event>"

def eventEnd : Bytes := ascii "</event>"

def exitTag : Bytes := ascii "<exitcode>"

def exitEnd : Bytes := ascii "</exitcode>"

/-- What `pickle.loads` raises: that the data stops too early, another error that is caught where it is
called, or one that is not. -/
inductive LoadError
  | truncated
  | caught (text : Str)
  | uncaught

inductive Event (E : Type)
  | taskUniHashUpdate (taskid unihash : Str)
  | other (event : E)

/-- `pickle`, of events and of exit statuses; taking an exit status apart is part of loading it. -/
structure Pickles (E : Type) where
  dumps : Event E → Bytes
  loads : Bytes → Except LoadError (Event E)
  dumpsExit : Str × Int → Bytes
  loadsExit : Bytes → Except LoadError (Str × Int)

inductive Message (E : Type)
  | event (event : Event E)
  | exitcode (task : Str) (status : Int)

/-- What ends the server: `bb.msg.fatal`, or an exception that nobody catches. -/
inductive Fault
  | fatal (error : Str) (data : Bytes)
  | raised

inductive Action (E : Type)
  | fireFromWorker (event : Event E)
  | updatedTaskhash (taskid unihash : Str)
  | processWaitpid (task : Str) (status : Int) (fakerootlog : Option Str)

/-- What is done with a message. -/
def act {E : Type} (fakerootlogs : Option (Str → Option Str)) : Message E → List (Action E)
  | .event (.taskUniHashUpdate taskid unihash) =>
    [.fireFromWorker (.taskUniHashUpdate taskid unihash), .updatedTaskhash taskid unihash]
  | .event (.other e) => [.fireFromWorker (.other e)]
  | .exitcode task status =>
    [.processWaitpid task status (do
      let logs ← fakerootlogs
      let (_, _, _, taskfn) ← splitTidMcfn task
      if taskfn = [] then none else logs taskfn)]

section read
variable {E : Type} (p : Pickles E) (fakerootlogs : Option (Str → Option Str))

/-- An event that begins the queue, by the ends that are found one after the other until it loads. -/
def loadEvent (queue : Bytes) : ℕ → Option ℕ → Cut UInt8 (Message E) Fault
  | 0, _ => .more
  | _ + 1, none => .more
  | n + 1, some index =>
    if eventTag <+: queue then
      match p.loads ((queue.take index).drop 7) with
      | .ok e => .item (.event e) (queue.drop (index + 8))
      | .error .truncated => loadEvent queue n (findSubFrom eventEnd (index + 1) queue)
      | .error (.caught text) => .fault (.fatal text ((queue.take index).drop 7))
      | .error .uncaught => .fault .raised
    else .more

def takeEvent (queue : Bytes) : Cut UInt8 (Message E) Fault :=
  loadEvent p queue (queue.length + 1) (findSub eventEnd queue)

/-- An exit status that begins the queue. -/
def takeExit (queue : Bytes) : Cut UInt8 (Message E) Fault :=
  match findSub exitEnd queue with
  | none => .more
  | some index =>
    if exitTag <+: queue then
      let data := (queue.take index).drop 10
      match p.loadsExit data with
      | .ok (task, status) =>
        -- `split_tid_mcfn` raises for a task without a colon
        if (splitTidMcfn task).isSome then .item (.exitcode task status) (queue.drop (index + 11))
        else .fault .raised
      | .error .truncated => .fault (.fatal "pickle data was truncated".toList data)
      | .error (.caught text) => .fault (.fatal text data)
      | .error .uncaught => .fault .raised
    else .more

structure Pipe (E : Type) where
  queue : Bytes
  actions : List (Action E)
  fault : Option Fault

/-- One of the two inner loops; the second component is `found`. -/
def takeAll (take : Bytes → Cut UInt8 (Message E) Fault) : ℕ → Pipe E × Bool → Pipe E × Bool
  | 0, s => s
  | n + 1, s =>
    match take s.1.queue with
    | .more => s
    | .fault e => ({ s.1 with fault := some e }, s.2)
    | .item m rest =>
      takeAll take n ({ s.1 with queue := rest, actions := s.1.actions ++ act fakerootlogs m }, true)

def readLoop : ℕ → Pipe E → Pipe E
  | 0, s => s
  | n + 1, s =>
    if s.queue = [] then s
    else
      let events := takeAll fakerootlogs (takeEvent p) (s.queue.length + 1) (s, false)
      if events.1.fault.isSome then events.1
      else
        let exits := takeAll fakerootlogs (takeExit p) (events.1.queue.length + 1) events
        if exits.1.fault.isSome ∨ exits.2 = false then exits.1 else readLoop n exits.1

/-- `read`, of a server that still runs. -/
def read (s : Pipe E) (data : Bytes) : Pipe E :=
  if s.fault.isSome then s
  else readLoop p fakerootlogs ((s.queue ++ data).length + 1) { s with queue := s.queue ++ data }

end read

/-! ### The messages in the queue -/

section framing
variable {E : Type} (p : Pickles E)

theorem eventEnd_ne_nil : eventEnd ≠ [] := by decide

theorem length_eventEnd : eventEnd.length = 8 := by decide

theorem exitEnd_ne_nil : exitEnd ≠ [] := by decide

theorem length_exitEnd : exitEnd.length = 11 := by decide

/-- A queue begins with an event or with an exit status. -/
theorem not_both {queue : Bytes} (h : eventTag <+: queue) : ¬ exitTag <+: queue := fun h' => by
  have hpre := List.prefix_of_prefix_length_le h h' (by decide)
  revert hpre
  decide

theorem loadEvent_extend (queue t : Bytes) : ∀ (n n' : ℕ) (index : Option ℕ), n ≤ n' →
    (∀ i, index = some i → i + 8 ≤ queue.length) → loadEvent p queue n index ≠ .more →
      loadEvent p (queue ++ t) n' index = (loadEvent p queue n index).extend t
  | 0, _, _, _, _, h => absurd rfl h
  | n + 1, 0, _, hn, _, _ => absurd hn (Nat.not_succ_le_zero n)
  | n + 1, n' + 1, none, _, _, h => absurd rfl h
  | n + 1, n' + 1, some i, hn, hi, h => by
    have hlen := hi i rfl
    rw [loadEvent] at h ⊢
    rw [loadEvent]
    split at h
    · rename_i htag
      have htake : (queue ++ t).take i = queue.take i := List.take_append_of_le_length (by omega)
      have hdrop : (queue ++ t).drop (i + 8) = queue.drop (i + 8) ++ t :=
        List.drop_append_of_le_length hlen
      rw [if_pos htag, if_pos (htag.trans (List.prefix_append queue t)), htake, hdrop]
      cases hload : p.loads ((queue.take i).drop 7) with
      | ok e => rfl
      | error e =>
        cases e with
        | truncated =>
          rw [hload] at h
          simp only at h ⊢
          cases hf : findSubFrom eventEnd (i + 1) queue with
          | none =>
            rw [hf] at h
            cases n <;> exact absurd rfl h
          | some j =>
            rw [findSubFrom_append t (by omega) hf, ← hf]
            refine loadEvent_extend queue t n n' _ (Nat.le_of_succ_le_succ hn) (fun k hk => ?_) h
            have hle := (findSubFrom_le eventEnd_ne_nil hk).2
            rwa [length_eventEnd] at hle
        | caught text => rfl
        | uncaught => rfl
    · exact absurd rfl h

theorem loadEvent_shorter {queue rest : Bytes} {m : Message E} : ∀ {n : ℕ} {index : Option ℕ},
    (∀ i, index = some i → i + 8 ≤ queue.length) → loadEvent p queue n index = .item m rest →
      rest.length < queue.length
  | 0, _, _, h => by cases h
  | n + 1, none, _, h => by cases h
  | n + 1, some i, hi, h => by
    rw [loadEvent] at h
    split at h
    · cases hload : p.loads ((queue.take i).drop 7) with
      | ok e =>
        rw [hload] at h
        cases h
        rw [List.length_drop]
        have hlen := hi i rfl
        omega
      | error e =>
        rw [hload] at h
        cases e with
        | truncated =>
          refine loadEvent_shorter (fun k hk => ?_) h
          have hle := (findSubFrom_le eventEnd_ne_nil hk).2
          rwa [length_eventEnd] at hle
        | caught text => cases h
        | uncaught => cases h
    · cases h

theorem loadEvent_tag {queue : Bytes} {n : ℕ} {index : Option ℕ} (h : loadEvent p queue n index ≠ .more) :
    eventTag <+: queue := by
  by_contra htag
  refine h ?_
  cases n with
  | zero => rfl
  | succ n =>
    cases index with
    | none => rfl
    | some i => rw [loadEvent, if_neg htag]

theorem index_le {queue : Bytes} {i : ℕ} (h : findSub eventEnd queue = some i) :
    i + 8 ≤ queue.length := by
  have hle := findSub_le eventEnd_ne_nil h
  rwa [length_eventEnd] at hle

theorem takeEvent_extend {queue : Bytes} (t : Bytes) (h : takeEvent p queue ≠ .more) :
    takeEvent p (queue ++ t) = (takeEvent p queue).extend t := by
  unfold takeEvent at h ⊢
  cases hf : findSub eventEnd queue with
  | none =>
    rw [hf] at h
    exact absurd rfl h
  | some i =>
    rw [hf] at h
    rw [findSub_append t hf]
    refine loadEvent_extend p queue t _ _ _ (by simp) (fun k hk => ?_) h
    cases hk
    exact index_le hf

theorem takeEvent_shorter {queue rest : Bytes} {m : Message E} (h : takeEvent p queue = .item m rest) :
    rest.length < queue.length :=
  loadEvent_shorter p (fun _ hi => index_le hi) h

theorem takeExit_tag {queue : Bytes} (h : takeExit p queue ≠ .more) : exitTag <+: queue := by
  by_contra htag
  refine h ?_
  rw [takeExit]
  cases findSub exitEnd queue with
  | none => rfl
  | some i => exact if_neg htag

theorem takeExit_extend {queue : Bytes} (t : Bytes) (h : takeExit p queue ≠ .more) :
    takeExit p (queue ++ t) = (takeExit p queue).extend t := by
  have htag := takeExit_tag p h
  unfold takeExit at h ⊢
  cases hf : findSub exitEnd queue with
  | none =>
    rw [hf] at h
    exact absurd rfl h
  | some i =>
    have hlen := findSub_le exitEnd_ne_nil hf
    rw [length_exitEnd] at hlen
    have htake : (queue ++ t).take i = queue.take i := List.take_append_of_le_length (by omega)
    have hdrop : (queue ++ t).drop (i + 11) = queue.drop (i + 11) ++ t :=
      List.drop_append_of_le_length hlen
    rw [findSub_append t hf]
    simp only [if_pos htag, if_pos (htag.trans (List.prefix_append queue t)), htake, hdrop]
    cases p.loadsExit ((queue.take i).drop 10) with
    | ok exit =>
      by_cases hs : (splitTidMcfn exit.1).isSome
      · simp only [if_pos hs]
        rfl
      · simp only [if_neg hs]
        rfl
    | error e => cases e <;> rfl

theorem takeExit_shorter {queue rest : Bytes} {m : Message E} (h : takeExit p queue = .item m rest) :
    rest.length < queue.length := by
  have htag := takeExit_tag p (h ▸ Cut.item_ne_more m rest)
  unfold takeExit at h
  cases hf : findSub exitEnd queue with
  | none =>
    rw [hf] at h
    cases h
  | some i =>
    have hlen := findSub_le exitEnd_ne_nil hf
    rw [length_exitEnd] at hlen
    rw [hf] at h
    simp only [if_pos htag] at h
    cases hload : p.loadsExit ((queue.take i).drop 10) with
    | ok exit =>
      rw [hload] at h
      simp only at h
      split at h
      · cases h
        rw [List.length_drop]
        omega
      · cases h
    | error e =>
      rw [hload] at h
      cases e <;> cases h

/-- What can be taken from the queue, of either kind. -/
def framing : Framing UInt8 (Message E) Fault where
  cut queue :=
    match takeEvent p queue with
    | .more => takeExit p queue
    | c => c
  idle := rfl
  shorter {queue m rest} h := by
    cases he : takeEvent p queue with
    | more =>
      rw [he] at h
      exact takeExit_shorter p h
    | item m' rest' =>
      rw [he] at h
      cases h
      exact takeEvent_shorter p he
    | fault e =>
      rw [he] at h
      cases h
  stable {queue} t h := by
    cases he : takeEvent p queue with
    | more =>
      rw [he] at h
      have htag := takeExit_tag p h
      have hmore : takeEvent p (queue ++ t) = .more := by
        by_contra hne
        exact not_both (loadEvent_tag p hne) (htag.trans (List.prefix_append queue t))
      simp only [hmore]
      exact takeExit_extend p t h
    | item m rest =>
      have hext := takeEvent_extend p t (by rw [he]; exact Cut.item_ne_more m rest)
      rw [he] at hext
      rw [hext]
      rfl
    | fault e =>
      have hext := takeEvent_extend p t (by rw [he]; exact Cut.fault_ne_more e)
      rw [he] at hext
      rw [hext]
      rfl

theorem cut_of_takeEvent {queue : Bytes} (h : takeEvent p queue ≠ .more) :
    (framing p).cut queue = takeEvent p queue := by
  cases he : takeEvent p queue with
  | more => exact absurd he h
  | item m rest => simp only [framing, he]
  | fault e => simp only [framing, he]

theorem cut_of_takeExit {queue : Bytes} (h : takeExit p queue ≠ .more) :
    (framing p).cut queue = takeExit p queue := by
  have hmore : takeEvent p queue = .more := by
    by_contra hne
    exact not_both (loadEvent_tag p hne) (takeExit_tag p h)
  simp only [framing, hmore]

theorem cut_of_neither {queue : Bytes} (he : takeEvent p queue = .more) (hx : takeExit p queue = .more) :
    (framing p).cut queue = .more := by
  simp only [framing, he, hx]

end framing

/-! ### The loops -/

section loops
variable {E : Type} {p : Pickles E} {fakerootlogs : Option (Str → Option Str)}

/-- What the queue becomes, or what ended the server. -/
def Pipe.out (s : Pipe E) : Except Fault Bytes :=
  match s.fault with
  | none => .ok s.queue
  | some e => .error e

/-- An inner loop takes what it can, and says whether it took anything. -/
structure TookAll (fakerootlogs : Option (Str → Option Str)) (take : Bytes → Cut UInt8 (Message E) Fault)
    (s s' : Pipe E × Bool) (ms : List (Message E)) : Prop where
  takes : Framing.Takes take s.1.queue ms s'.1.queue
  actions : s'.1.actions = s.1.actions ++ ms.flatMap (act fakerootlogs)
  found : s'.2 = (s.2 || !ms.isEmpty)
  ends : s'.1.fault = none ∧ take s'.1.queue = .more ∨
    ∃ e, s'.1.fault = some e ∧ take s'.1.queue = .fault e

theorem takeAll_spec (fakerootlogs : Option (Str → Option Str))
    {take : Bytes → Cut UInt8 (Message E) Fault}
    (hshort : ∀ {q m r}, take q = .item m r → r.length < q.length) :
    ∀ (n : ℕ) (s : Pipe E × Bool), s.1.queue.length < n → s.1.fault = none →
      ∃ ms, TookAll fakerootlogs take s (takeAll fakerootlogs take n s) ms
  | 0, _, hn, _ => absurd hn (Nat.not_lt_zero _)
  | n + 1, s, hn, hs => by
    rw [takeAll]
    cases hc : take s.1.queue with
    | more => exact ⟨[], .nil _, by simp, by simp, .inl ⟨hs, hc⟩⟩
    | fault e => exact ⟨[], .nil _, by simp, by simp, .inr ⟨e, rfl, hc⟩⟩
    | item m rest =>
      have hlen := hshort hc
      obtain ⟨ms, h⟩ := takeAll_spec fakerootlogs hshort n
        ({ s.1 with queue := rest, actions := s.1.actions ++ act fakerootlogs m }, true)
        (by simp only; omega) hs
      refine ⟨m :: ms, .cons hc h.takes, ?_, ?_, h.ends⟩
      · rw [h.actions, List.flatMap_cons, List.append_assoc]
      · rw [h.found]
        simp

theorem readLoop_spec (p : Pickles E) (fakerootlogs : Option (Str → Option Str)) :
    ∀ (n : ℕ) (s : Pipe E), s.queue.length < n → s.fault = none →
    ∃ ms, (framing p).Drains s.queue ms (readLoop p fakerootlogs n s).out ∧
      (readLoop p fakerootlogs n s).actions = s.actions ++ ms.flatMap (act fakerootlogs)
  | 0, _, hn, _ => absurd hn (Nat.not_lt_zero _)
  | n + 1, s, hn, hs => by
    rw [readLoop]
    split
    · rename_i hnil
      refine ⟨[], ?_, by simp⟩
      rw [Pipe.out, hs, hnil]
      exact .more (framing p).idle
    · obtain ⟨ms, he⟩ := takeAll_spec fakerootlogs (takeEvent_shorter p) (s.queue.length + 1)
        (s, false) (Nat.lt_succ_self _) hs
      simp only
      generalize takeAll fakerootlogs (takeEvent p) (s.queue.length + 1) (s, false) = events at he ⊢
      have hevents := fun q (h : takeEvent p q ≠ .more) => cut_of_takeEvent p h
      rcases he.ends with ⟨hf, hmore⟩ | ⟨e, hf, hfault⟩
      · obtain ⟨ms', hx⟩ := takeAll_spec fakerootlogs (takeExit_shorter p) (events.1.queue.length + 1)
          events (Nat.lt_succ_self _) hf
        generalize takeAll fakerootlogs (takeExit p) (events.1.queue.length + 1) events = exits at hx ⊢
        have hexits := fun q (h : takeExit p q ≠ .more) => cut_of_takeExit p h
        have hactions : exits.1.actions = s.actions ++ (ms ++ ms').flatMap (act fakerootlogs) := by
          rw [hx.actions, he.actions, List.flatMap_append, List.append_assoc]
        rw [hf]
        simp only [Option.isSome_none, Bool.false_eq_true, if_false]
        rcases hx.ends with ⟨hf', hmore'⟩ | ⟨e, hf', hfault'⟩
        · rw [hf']
          simp only [Option.isSome_none, Bool.false_eq_true, false_or]
          split
          · -- nothing was found, so the queue is the one that both loops saw
            rename_i hfound
            have hnone : ms = [] ∧ ms' = [] := by
              rw [hx.found, he.found] at hfound
              simpa using hfound
            obtain ⟨rfl, rfl⟩ := hnone
            have hq : exits.1.queue = events.1.queue := hx.takes.eq_of_nil
            have hq' : events.1.queue = s.queue := he.takes.eq_of_nil
            refine ⟨[], ?_, by simpa using hactions⟩
            rw [Pipe.out, hf', hq, hq']
            rw [hq'] at hmore
            rw [hq, hq'] at hmore'
            exact .more (cut_of_neither p hmore hmore')
          · rename_i hfound
            have hne : ms ≠ [] ∨ ms' ≠ [] := by
              by_contra hno
              simp only [not_or, not_not] at hno
              exact hfound (by rw [hx.found, he.found, hno.1, hno.2]; rfl)
            have hle := he.takes.length_le hevents
            have hle' := hx.takes.length_le hexits
            have hlt : exits.1.queue.length < n := by
              simp only at hle
              rcases hne with h | h <;> have hpos := List.length_pos_iff.2 h <;> omega
            obtain ⟨rest, hd, ha⟩ := readLoop_spec p fakerootlogs n exits.1 hlt hf'
            refine ⟨ms ++ (ms' ++ rest), he.takes.drains hevents (hx.takes.drains hexits hd), ?_⟩
            rw [ha, hactions]
            simp
        · rw [hf']
          simp only [Option.isSome_some, true_or, if_true]
          have hcut : (framing p).cut exits.1.queue = .fault e := by
            rw [cut_of_takeExit p (by rw [hfault']; exact Cut.fault_ne_more e), hfault']
          have hout : exits.1.out = .error e := by rw [Pipe.out, hf']
          rw [hout]
          exact ⟨ms ++ (ms' ++ []), he.takes.drains hevents (hx.takes.drains hexits (.fault hcut)),
            by rw [hactions, List.append_nil]⟩
      · rw [hf]
        simp only [Option.isSome_some, if_true]
        have hcut : (framing p).cut events.1.queue = .fault e := by
          rw [cut_of_takeEvent p (by rw [hfault]; exact Cut.fault_ne_more e), hfault]
        have hout : events.1.out = .error e := by rw [Pipe.out, hf]
        rw [hout]
        exact ⟨ms ++ [], he.takes.drains hevents (.fault hcut), by rw [he.actions, List.append_nil]⟩

def Pipe.start (E : Type) : Pipe E := ⟨[], [], none⟩

theorem out_ok {s : Pipe E} {r : Bytes} (h : s.out = .ok r) : s.fault = none ∧ s.queue = r := by
  rw [Pipe.out] at h
  cases hs : s.fault with
  | none =>
    rw [hs] at h
    exact ⟨rfl, Except.ok.inj h⟩
  | some e =>
    rw [hs] at h
    cases h

/-- The actions are those of the messages. -/
def Pipe.Took (fakerootlogs : Option (Str → Option Str)) (s : Pipe E) (ms : List (Message E)) : Prop :=
  s.actions = ms.flatMap (act fakerootlogs)

theorem reads_drains (p : Pickles E) (fakerootlogs : Option (Str → Option Str)) (chunks : List Bytes) :
    ∃ ms, (framing p).Drains chunks.flatten ms (chunks.foldl (read p fakerootlogs) (.start E)).out ∧
      (chunks.foldl (read p fakerootlogs) (.start E)).Took fakerootlogs ms := by
  refine Framing.Drains.pieces (Pipe.Took fakerootlogs) ?_ ?_ chunks (.start E) [] [] ?_ rfl
  · intro s ms r data ht ho
    have hf := out_ok ho
    obtain ⟨ms', hd, ha⟩ := readLoop_spec p fakerootlogs _
      { s with queue := s.queue ++ data } (Nat.lt_succ_self _) hf.1
    have hread : read p fakerootlogs s data =
        readLoop p fakerootlogs ((s.queue ++ data).length + 1) { s with queue := s.queue ++ data } := by
      rw [read, hf.1]
      rfl
    rw [hread, ← hf.2]
    refine ⟨ms', hd, ?_⟩
    rw [Pipe.Took, ha, List.flatMap_append]
    exact congrArg (· ++ _) ht
  · intro s e data ho
    have hs : s.fault.isSome := by
      rw [Pipe.out] at ho
      cases hs : s.fault with
      | none =>
        rw [hs] at ho
        cases ho
      | some e => rfl
    rw [read, if_pos hs]
  · exact .more (framing p).idle

/-- In whatever pieces the bytes arrive, any bytes, the server does the same, fails in the same way or
has the same left. -/
theorem read_chunks (p : Pickles E) (fakerootlogs : Option (Str → Option Str)) (chunks : List Bytes) :
    (chunks.foldl (read p fakerootlogs) (.start E)).actions =
        (read p fakerootlogs (.start E) chunks.flatten).actions ∧
      (chunks.foldl (read p fakerootlogs) (.start E)).out =
        (read p fakerootlogs (.start E) chunks.flatten).out := by
  obtain ⟨ms, hd, ht⟩ := reads_drains p fakerootlogs chunks
  obtain ⟨ms', hd', ht'⟩ := reads_drains p fakerootlogs [chunks.flatten]
  rw [List.flatten_singleton] at hd'
  obtain ⟨rfl, hout⟩ := hd.unique hd'
  exact ⟨ht.trans ht'.symm, hout⟩

end loops

/-! ### What a worker sends -/

section stream
variable {E : Type}

/-- What a worker sends for a message. -/
def encode (p : Pickles E) : Message E → Bytes
  | .event e => eventTag ++ (p.dumps e ++ eventEnd)
  | .exitcode task status => exitTag ++ (p.dumpsExit (task, status) ++ exitEnd)

/-- A pickle loads as what was pickled, and the part before an end tag in it does not load yet. -/
structure Pickles.Faithful (p : Pickles E) : Prop where
  loads_dumps : ∀ e, p.loads (p.dumps e) = .ok e
  truncated : ∀ e x, x ++ eventEnd <+: p.dumps e → p.loads x = .error .truncated
  loadsExit_dumpsExit : ∀ exit, p.loadsExit (p.dumpsExit exit) = .ok exit

/-- An exit status is of a task with a colon in its name and has no end tag in its pickle. -/
def Sendable (p : Pickles E) : Message E → Prop
  | .event _ => True
  | .exitcode task status => (splitTidMcfn task).isSome ∧ ¬ exitEnd <:+: p.dumpsExit (task, status)

variable {p : Pickles E}

theorem length_eventTag : eventTag.length = 7 := by decide

theorem length_exitTag : exitTag.length = 10 := by decide

theorem eventEnd_behind {y : Bytes} {i : ℕ} (h : eventEnd <+: (eventTag ++ y).drop i) : 7 ≤ i :=
  tag_length_le (by decide) h

theorem exitEnd_behind {y : Bytes} (h : exitEnd <:+: exitTag ++ y) : exitEnd <:+: y :=
  infix_behind (by decide) h

theorem drop_eventTag (y : Bytes) (k : ℕ) : (eventTag ++ y).drop (7 + k) = y.drop k := by
  rw [← List.drop_drop, ← length_eventTag, List.drop_left]

theorem take_eventTag (y : Bytes) (k : ℕ) : ((eventTag ++ y).take (7 + k)).drop 7 = y.take k := by
  rw [List.drop_take, Nat.add_sub_cancel_left, ← length_eventTag, List.drop_left]

/-- The ends that are found in the pickle are passed over, up to the one behind it. -/
theorem loadEvent_encode (hp : p.Faithful) (e : Event E) (rest : Bytes) :
    ∀ (n start : ℕ), start ≤ 7 + (p.dumps e).length → 7 + (p.dumps e).length < start + n →
      loadEvent p (eventTag ++ (p.dumps e ++ (eventEnd ++ rest))) n
        (findSubFrom eventEnd start (eventTag ++ (p.dumps e ++ (eventEnd ++ rest)))) =
          .item (.event e) rest
  | 0, start, hs, hn => by omega
  | n + 1, start, hs, hn => by
    have hlen : 7 + (p.dumps e).length ≤ (eventTag ++ (p.dumps e ++ (eventEnd ++ rest))).length := by
      rw [List.length_append, List.length_append, length_eventTag]
      omega
    have hat : eventEnd <+:
        (eventTag ++ (p.dumps e ++ (eventEnd ++ rest))).drop (7 + (p.dumps e).length) := by
      rw [drop_eventTag, List.drop_left]
      exact List.prefix_append eventEnd rest
    obtain ⟨i, hsi, hi, hf, hend⟩ := findSubFrom_first hs hlen hat
    obtain ⟨k, rfl⟩ := Nat.exists_eq_add_of_le (eventEnd_behind hend)
    have hk : k ≤ (p.dumps e).length := by omega
    rw [hf, loadEvent, if_pos (List.prefix_append _ _), take_eventTag, Nat.add_assoc, drop_eventTag]
    rcases hk.eq_or_lt with rfl | hlt
    · rw [List.take_left, hp.loads_dumps, ← length_eventEnd, ← List.drop_drop, List.drop_left,
        List.drop_left]
    · -- an end inside the pickle: what stands before it does not load yet
      have htrunc : p.loads ((p.dumps e).take k) = .error .truncated := by
        refine hp.truncated e _ ?_
        rw [drop_eventTag, List.drop_append_of_le_length hk] at hend
        have hin : eventEnd <+: (p.dumps e).drop k :=
          prefix_append_head (by decide) hend (by simpa using hlt)
        calc (p.dumps e).take k ++ eventEnd
          _ <+: (p.dumps e).take k ++ (p.dumps e).drop k := (List.prefix_append_right_inj _).2 hin
          _ = p.dumps e := List.take_append_drop k (p.dumps e)
      rw [List.take_append_of_le_length hk, htrunc]
      exact loadEvent_encode hp e rest n (7 + k + 1) (by omega) (by omega)

theorem cut_event (hp : p.Faithful) (e : Event E) : (framing p).Encodes (encode p) id (.event e) := by
  intro rest
  have htake : takeEvent p (encode p (.event e) ++ rest) = .item (.event e) rest := by
    rw [encode, List.append_assoc, List.append_assoc, takeEvent, ← findSubFrom_zero]
    refine loadEvent_encode hp e rest _ 0 (Nat.zero_le _) ?_
    rw [List.length_append, List.length_append, length_eventTag]
    omega
  rw [cut_of_takeEvent p (by rw [htake]; exact Cut.item_ne_more _ _), htake]
  rfl

theorem cut_exitcode (hp : p.Faithful) {task : Str} {status : Int}
    (h : Sendable p (.exitcode task status)) :
    (framing p).Encodes (encode p) id (.exitcode task status) := by
  intro rest
  have htake : takeExit p (encode p (.exitcode task status) ++ rest) =
      .item (.exitcode task status) rest := by
    have hno : ¬ exitEnd <:+: exitTag ++ p.dumpsExit (task, status) := fun hin =>
      h.2 (exitEnd_behind hin)
    have hfind : findSub exitEnd (exitTag ++ p.dumpsExit (task, status) ++ (exitEnd ++ rest)) =
        some (10 + (p.dumpsExit (task, status)).length) := by
      rw [← length_exitTag, ← List.length_append]
      exact findSub_tag (by decide) rest hno
    have hdrop : (exitTag ++ p.dumpsExit (task, status) ++ (exitEnd ++ rest)).drop
        (10 + (p.dumpsExit (task, status)).length + 11) = rest := by
      rw [← length_exitTag, ← List.length_append, ← List.drop_drop, List.drop_left, ← length_exitEnd,
        List.drop_left]
    have hdata : ((exitTag ++ p.dumpsExit (task, status) ++ (exitEnd ++ rest)).take
        (10 + (p.dumpsExit (task, status)).length)).drop 10 = p.dumpsExit (task, status) := by
      rw [← length_exitTag, ← List.length_append, List.take_left, List.drop_left]
    have htag : exitTag <+: exitTag ++ p.dumpsExit (task, status) ++ (exitEnd ++ rest) := by
      rw [List.append_assoc]
      exact List.prefix_append _ _
    rw [encode, ← List.append_assoc, List.append_assoc, takeExit, hfind]
    simp only [if_pos htag, hdata, hdrop, hp.loadsExit_dumpsExit, if_pos h.1]
  rw [cut_of_takeExit p (by rw [htake]; exact Cut.item_ne_more _ _), htake]
  rfl

theorem encodes_sendable (hp : p.Faithful) {x : Message E} (h : Sendable p x) :
    (framing p).Encodes (encode p) id x := by
  cases x with
  | event e => exact cut_event hp e
  | exitcode task status => exact cut_exitcode hp h

/-- The text as numbers. -/
def sampleCodes (s : Str) : List ℕ := s.map Char.toNat

theorem ofNat_sampleCodes (s : Str) : (sampleCodes s).map Char.ofNat = s := by
  rw [sampleCodes, List.map_map]
  exact (List.map_congr_left fun c _ => Char.ofNat_toNat c).trans s.map_id

/-- An event as a number. -/
def sampleNumber : Event ℕ → ℕ
  | .other n => Encodable.encode (.inl n : ℕ ⊕ List ℕ × List ℕ)
  | .taskUniHashUpdate taskid unihash =>
    Encodable.encode (.inr (sampleCodes taskid, sampleCodes unihash) : ℕ ⊕ List ℕ × List ℕ)

def sampleEvent (n : ℕ) : Except LoadError (Event ℕ) :=
  match (Encodable.decode n : Option (ℕ ⊕ List ℕ × List ℕ)) with
  | some (.inl n) => .ok (.other n)
  | some (.inr (taskid, unihash)) =>
    .ok (.taskUniHashUpdate (taskid.map Char.ofNat) (unihash.map Char.ofNat))
  | none => .error (.caught [])

theorem sampleEvent_number (e : Event ℕ) : sampleEvent (sampleNumber e) = .ok e := by
  cases e with
  | other n => simp only [sampleNumber, sampleEvent, Encodable.encodek]
  | taskUniHashUpdate taskid unihash =>
    simp only [sampleNumber, sampleEvent, Encodable.encodek, ofNat_sampleCodes]

/-- A pickle of an event is as many end tags as its number says, and a dot. -/
def sampleTags (n : ℕ) : Bytes := (List.replicate n eventEnd).flatten

theorem length_sampleTags (n : ℕ) : (sampleTags n).length = n * 8 := by
  rw [sampleTags, List.length_flatten, List.map_replicate, length_eventEnd, List.sum_replicate]
  rfl

theorem not_dot_mem_sampleTags (n : ℕ) : (46 : UInt8) ∉ sampleTags n := by
  intro h
  obtain ⟨tag, htag, hin⟩ := List.mem_flatten.1 h
  rw [List.eq_of_mem_replicate htag] at hin
  revert hin
  decide

def samplePickles : Pickles ℕ where
  dumps e := sampleTags (sampleNumber e) ++ [46]
  loads x := if x.getLast? = some 46 then sampleEvent (x.length / 8) else .error .truncated
  dumpsExit exit := List.replicate (Encodable.encode (sampleCodes exit.1, exit.2)) 73 ++ [46]
  loadsExit x :=
    match (Encodable.decode (x.length - 1) : Option (List ℕ × ℤ)) with
    | some (task, status) => .ok (task.map Char.ofNat, status)
    | none => .error (.caught [])

theorem samplePickles_faithful : samplePickles.Faithful where
  loads_dumps e := by
    have hlen : (sampleTags (sampleNumber e) ++ [46]).length / 8 = sampleNumber e := by
      rw [List.length_append, length_sampleTags, List.length_singleton]
      omega
    simp only [samplePickles, List.getLast?_concat, if_true, hlen, sampleEvent_number]
  truncated e x h := by
    have hle := h.length_le
    simp only [samplePickles, List.length_append, length_eventEnd, List.length_singleton] at hle
    have hpre : x <+: sampleTags (sampleNumber e) :=
      List.prefix_of_prefix_length_le ((List.prefix_append x _).trans h) (List.prefix_append _ [46])
        (by omega)
    refine if_neg fun hlast => ?_
    exact not_dot_mem_sampleTags _ (hpre.subset (List.mem_of_getLast? hlast))
  loadsExit_dumpsExit exit := by
    simp only [samplePickles, List.length_append, List.length_replicate, List.length_singleton,
      Nat.add_sub_cancel, Encodable.encodek, ofNat_sampleCodes]

theorem samplePickles_sendable {task : Str} (status : ℤ) (h : (splitTidMcfn task).isSome) :
    Sendable samplePickles (.exitcode task status) := by
  refine ⟨h, fun hin => ?_⟩
  have hmem : (60 : UInt8) ∈ samplePickles.dumpsExit (task, status) := hin.subset (by decide)
  rcases List.mem_append.1 hmem with h | h
  · have h60 := List.eq_of_mem_replicate h
    revert h60
    decide
  · revert h
    decide

/-- What a worker sends is handled once and in its order, in whatever pieces it arrives; what has not
been handled is still to come or stands in the queue. -/
theorem read_stream (hp : p.Faithful) (fakerootlogs : Option (Str → Option Str)) (xs : List (Message E))
    (hx : ∀ x ∈ xs, Sendable p x) (chunks : List Bytes) (t : Bytes)
    (h : chunks.flatten ++ t = xs.flatMap (encode p)) :
    (chunks.foldl (read p fakerootlogs) (.start E)).fault = none ∧
      ∃ done rest, xs = done ++ rest ∧
        (chunks.foldl (read p fakerootlogs) (.start E)).actions = done.flatMap (act fakerootlogs) ∧
        (chunks.foldl (read p fakerootlogs) (.start E)).queue ++ t = rest.flatMap (encode p) ∧
        (t = [] → rest = []) := by
  obtain ⟨ms, hd, ht⟩ := reads_drains p fakerootlogs chunks
  obtain ⟨done, rest, left, ho, hxs, hms, hleft, hall⟩ :=
    hd.encoded (fun x hin => encodes_sendable hp (hx x hin)) h
  rw [List.map_id] at hms
  obtain ⟨hf, hq⟩ := out_ok ho
  exact ⟨hf, done, rest, hxs, by rw [ht, hms], by rw [hq]; exact hleft, hall⟩

def sampleMessages : List (Message ℕ) :=
  [.event (.taskUniHashUpdate "a.bb:do_compile".toList "1f".toList),
    .exitcode "a.bb:do_compile".toList 0]

def sampleStream : Bytes := sampleMessages.flatMap (encode samplePickles)

theorem sampleMessages_sendable : ∀ x ∈ sampleMessages, Sendable samplePickles x := by
  intro x hin
  rcases List.mem_cons.1 hin with rfl | hin
  · exact True.intro
  · rw [List.mem_singleton.1 hin]
    exact samplePickles_sendable 0 (by decide)

theorem read_stream_sample :
    ([sampleStream.take 20, sampleStream.drop 20].foldl (read samplePickles none) (.start ℕ)).out =
        .ok [] ∧
      ([sampleStream.take 20, sampleStream.drop 20].foldl (read samplePickles none) (.start ℕ)).actions =
        [.fireFromWorker (.taskUniHashUpdate "a.bb:do_compile".toList "1f".toList),
          .updatedTaskhash "a.bb:do_compile".toList "1f".toList,
          .processWaitpid "a.bb:do_compile".toList 0 none] := by
  have hstream : [sampleStream.take 20, sampleStream.drop 20].flatten ++ [] =
      sampleMessages.flatMap (encode samplePickles) := by
    rw [List.append_nil, List.flatten_cons, List.flatten_singleton, List.take_append_drop, sampleStream]
  have h := read_stream samplePickles_faithful none sampleMessages sampleMessages_sendable _ [] hstream
  -- the numbers of the sample are too large to run it
  generalize [sampleStream.take 20, sampleStream.drop 20].foldl (read samplePickles none)
    (.start ℕ) = s at h ⊢
  obtain ⟨hf, done, rest, hxs, ha, hq, hall⟩ := h
  obtain rfl := hall rfl
  rw [List.append_nil] at hxs hq
  rw [← hxs] at ha
  exact ⟨by rw [Pipe.out, hf, hq]; rfl, ha⟩

end stream

end WorkerPipe
end BitBake
end OpenBmc
