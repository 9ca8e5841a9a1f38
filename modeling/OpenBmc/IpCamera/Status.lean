import OpenBmc.IpCamera.Operations

/-!
# The status of a camera

A refresh reaches its success branch, its failure branch, or neither (`outcome`). `Life hist c` says
that a record came to be `c` through refreshes with the outcomes `hist` and through changes that do
not touch its status. The status fields always tell the last outcome, and the streams are those of the
last success (`Life.coherent`).
-/

namespace OpenBmc
namespace IpCamera
open Py

/-- The branch a refresh reached. -/
inductive Outcome
  | succeeded (streams : Dict Slug StreamRec)
  | failed (error : Str)

/-- The streams of the last success. -/
def lastStreams (hist : List Outcome) : Dict Slug StreamRec :=
  (hist.filterMap fun | .succeeded streams => some streams | .failed _ => none).getLast?.getD Dict.empty

/-- The text a failed refresh records. -/
def failureText (log : List Sent) : Str :=
  if lastRefusal log [] ≠ [] then lastRefusal log [] else "unable to enumerate profiles"

theorem failureText_ne_nil (log : List Sent) : failureText log ≠ [] := by
  unfold failureText
  split
  · assumption
  · decide

section Status
variable [UnicodeData] {cfg : Config}

/-- A profile list was found and read; or none was, without an exception. -/
def outcome (cfg : Config) (importStreams : Bool) (env : TurnEnv) (c : Camera) : Option Outcome :=
  match (listing (afterRefresh cfg importStreams env c).sent).filter Json.truthy with
  | some items => (profileStreams cfg.streamPrefix items).toOption.map fun r => .succeeded r.1
  | none =>
    if returned (refreshCamera cfg importStreams env ⟨c, []⟩) then
      some (.failed (failureText (afterRefresh cfg importStreams env c).sent))
    else none

/-- The same status fields and the same streams, in whatever order. -/
structure SameStatus (c c' : Camera) : Prop where
  present : c'.present = c.present
  functional : c'.functional = c.functional
  authStatus : c'.authStatus = c.authStatus
  lastError : c'.lastError = c.lastError
  streams : ∀ s, c'.streams.get? s = c.streams.get? s

/-- The record's refreshes had the outcomes `hist`; what else happened to it left its status alone. -/
inductive Life (cfg : Config) : List Outcome → Camera → Prop
  | fresh : Life cfg [] Camera.fresh
  | edited {hist c c'} : Life cfg hist c → SameStatus c c' → Life cfg hist c'
  | refreshed {hist c} (importStreams : Bool) (env : TurnEnv) : Life cfg hist c →
      Life cfg (hist ++ (outcome cfg importStreams env c).toList) (afterRefresh cfg importStreams env c).camera

/-- The status fields tell the last outcome. -/
def StatusIs (c : Camera) : Option Outcome → Prop
  | none => c.present = none ∧ c.functional = none ∧ c.authStatus = none ∧ c.lastError = none
  | some (.succeeded _) => c.present = some true ∧ c.functional = some true ∧
      c.authStatus = some "ok" ∧ c.lastError = some []
  | some (.failed error) => c.present = some false ∧ c.functional = some false ∧
      c.authStatus = some "failed" ∧ c.lastError = some error ∧ error ≠ []

omit [UnicodeData] in
theorem StatusIs.same {c c' : Camera} {o : Option Outcome} (h : StatusIs c o) (hs : SameStatus c c') :
    StatusIs c' o := by
  unfold StatusIs at h ⊢
  rw [hs.present, hs.functional, hs.authStatus, hs.lastError]
  exact h

/-- A refresh ends in one of its branches and writes that branch's status, or leaves the status. -/
theorem afterRefresh_status (cfg : Config) (importStreams : Bool) (env : TurnEnv) (c : Camera) :
    (∃ streams, outcome cfg importStreams env c = some (.succeeded streams) ∧
      StatusIs (afterRefresh cfg importStreams env c).camera (some (.succeeded streams)) ∧
      (afterRefresh cfg importStreams env c).camera.streams = streams) ∨
    (∃ error, outcome cfg importStreams env c = some (.failed error) ∧
      StatusIs (afterRefresh cfg importStreams env c).camera (some (.failed error)) ∧
      (afterRefresh cfg importStreams env c).camera.streams = c.streams) ∨
    outcome cfg importStreams env c = none ∧
      SameStatus c (afterRefresh cfg importStreams env c).camera := by
  obtain ⟨e, reqs, hsent, h, hret⟩ := refreshed_afterRefresh cfg importStreams env c
  have hsel : ∀ {probes sent selected}, Probed env 0 probes selected → reqs = probes ++ sent →
      (∀ q ∈ sent, q.isProbe = false) →
      (listing (afterRefresh cfg importStreams env c).sent).filter Json.truthy = selected :=
    fun hp hr hs => by rw [hsent, hr]; exact hp.listing hs
  unfold outcome
  generalize (afterRefresh cfg importStreams env c).camera = c' at h
  cases h with
  | unresolved =>
    have hnone : (listing (afterRefresh cfg importStreams env c).sent).filter Json.truthy = none := by
      rw [hsent]; rfl
    rw [hnone, if_neg (by rw [← hret]; simp)]
    exact .inr (.inr ⟨rfl, rfl, rfl, rfl, rfl, fun _ => rfl⟩)
  | @interrupted _ _ _ _ _ selected _ hp hs =>
    rw [hsel hp (List.append_nil _).symm (by simp)]
    refine .inr (.inr ⟨?_, rfl, rfl, rfl, rfl, fun _ => rfl⟩)
    cases selected with
    | none =>
      have hraised : ¬ returned (refreshCamera cfg importStreams env ⟨c, []⟩) := by rw [← hret]; simp
      exact if_neg hraised
    | some items =>
      obtain ⟨e, he⟩ := hs items rfl
      simp [he, Except.toOption]
  | unreachable _ hp =>
    rw [hsel hp (List.append_nil _).symm (by simp), if_pos (by rw [← hret])]
    exact .inr (.inl ⟨_, rfl, ⟨rfl, rfl, rfl, by rw [hsent]; rfl, failureText_ne_nil _⟩, rfl⟩)
  | enumerated _ hp hs hpre =>
    rw [hsel hp rfl fun q hq => by
      have hq := hpre.subset hq
      split at hq
      · exact isProbe_reconcileRequests hq
      · simp at hq]
    exact .inl ⟨_, by simp only [hs]; rfl, ⟨rfl, rfl, rfl, rfl⟩, rfl⟩

theorem Life.coherent {hist : List Outcome} {c : Camera} (h : Life cfg hist c) :
    StatusIs c hist.getLast? ∧ ∀ s, c.streams.get? s = (lastStreams hist).get? s := by
  induction h with
  | fresh => exact ⟨⟨rfl, rfl, rfl, rfl⟩, fun s => rfl⟩
  | edited _ hs ih => exact ⟨ih.1.same hs, fun s => (hs.streams s).trans (ih.2 s)⟩
  | refreshed importStreams env _ ih =>
    rename_i hist c _
    rcases afterRefresh_status cfg importStreams env c with ⟨streams, ho, hst, hs⟩ |
      ⟨error, ho, hst, hs⟩ | ⟨ho, hst⟩
    · rw [ho, Option.toList_some, List.getLast?_concat]
      refine ⟨hst, fun s => ?_⟩
      simp [hs, lastStreams, List.filterMap_append]
    · rw [ho, Option.toList_some, List.getLast?_concat]
      refine ⟨hst, fun s => ?_⟩
      simpa [hs, lastStreams, List.filterMap_append] using ih.2 s
    · rw [ho, Option.toList_none, List.append_nil]
      exact ⟨ih.1.same hst, fun s => (hst.streams s).trans (ih.2 s)⟩

/-- The record has a life. -/
def Lived (cfg : Config) (c : Camera) : Prop := ∃ hist, Life cfg hist c

theorem lived_of {c c' : Camera} (h : Lived cfg c ∨ c = Camera.fresh) (hs : SameStatus c c') :
    Lived cfg c' := by
  rcases h with ⟨hist, h⟩ | rfl
  · exact ⟨hist, h.edited hs⟩
  · exact ⟨[], Life.fresh.edited hs⟩

theorem keeps_lived {env : Env} {op : Op} : Keeps cfg (fun _ => Lived cfg) env op where
  refreshed k c imports h := by
    obtain ⟨hist, h⟩ := h
    exact ⟨_, h.refreshed imports _⟩
  found _ items item found _ _ _ c hc := lived_of hc ⟨rfl, rfl, rfl, rfl, fun _ => rfl⟩
  added address username password imports _ endpoint host _ _ c hc := by
    refine ⟨fun _ _ => lived_of hc ⟨rfl, rfl, rfl, rfl, fun _ => rfl⟩, fun _ _ => lived_of hc ?_⟩
    simp only [Camera.added, Camera.named]
    split <;> exact ⟨rfl, rfl, rfl, rfl, fun _ => rfl⟩
  credentials k username password _ c hc := lived_of (.inl hc) ⟨rfl, rfl, rfl, rfl, fun _ => rfl⟩

end Status

attribute [local instance] asciiData

end IpCamera
end OpenBmc
