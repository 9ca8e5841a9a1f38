import OpenBmc.BitBake.SceneQueue
import OpenBmc.BitBake.TaskWeights
import OpenBmc.Lib.Dag
import OpenBmc.Lib.Dict
import OpenBmc.Lib.Wp

/-!
# Dependency loops

`circular_depchains_handler` searches the tasks that could not be counted off for loops, and prints
each that it finds once. `IsLoop` says what a loop is; `findChains_spec` what the search keeps: the
chains it prints are loops, in the order that starts with the lowest task, and as long as it has
printed none the tasks it has left behind lead into no loop.
-/

namespace OpenBmc
namespace BitBake

/-! ### Chains in a normal order -/

section reorder
variable {α : Type} [LinearOrder α]

/-- The index of the lowest entry, as the `for` loop over the indices finds it. -/
def lowestEntry (chain : List α) : Nat :=
  (List.range chain.length).foldl
    (fun lowest entry =>
      match chain[entry]?, chain[lowest]? with
      | some a, some b => if a < b then entry else lowest
      | _, _ => lowest) 0

def chainReorder (chain : List α) : List α :=
  chain.drop (lowestEntry chain) ++ chain.take (lowestEntry chain)

theorem lowestEntry_spec {chain : List α} (hne : chain ≠ []) :
    ∃ a, chain[lowestEntry chain]? = some a ∧ ∀ b ∈ chain, a ≤ b := by
  have hpos := List.length_pos_of_ne_nil hne
  suffices hall : ∀ n ≤ chain.length, ∃ a, chain[(List.range n).foldl
      (fun lowest entry =>
        match chain[entry]?, chain[lowest]? with
        | some a, some b => if a < b then entry else lowest
        | _, _ => lowest) 0]? = some a ∧ ∀ i < n, ∀ b, chain[i]? = some b → a ≤ b by
    obtain ⟨a, ha, hle⟩ := hall chain.length le_rfl
    refine ⟨a, ha, fun b hb => ?_⟩
    obtain ⟨i, hi, hb⟩ := List.getElem_of_mem hb
    exact hle i hi b (hb ▸ List.getElem?_eq_getElem hi)
  intro n
  induction n with
  | zero =>
    intro _
    exact ⟨chain[0], List.getElem?_eq_getElem hpos, fun i hi => absurd hi (Nat.not_lt_zero i)⟩
  | succ n ih =>
    intro hn
    obtain ⟨a, ha, hle⟩ := ih (by omega)
    have hentry : chain[n]? = some chain[n] := List.getElem?_eq_getElem hn
    rw [List.range_succ, List.foldl_append, List.foldl_cons, List.foldl_nil]
    simp only [hentry, ha]
    by_cases hlt : chain[n] < a
    · rw [if_pos hlt]
      refine ⟨chain[n], hentry, fun i hi b hb => ?_⟩
      rcases Nat.lt_succ_iff_lt_or_eq.1 hi with hi | rfl
      · exact hlt.le.trans (hle i hi b hb)
      · exact (Option.some.inj (hentry.symm.trans hb)).le
    · rw [if_neg hlt]
      refine ⟨a, ha, fun i hi b hb => ?_⟩
      rcases Nat.lt_succ_iff_lt_or_eq.1 hi with hi | rfl
      · exact hle i hi b hb
      · exact (not_lt.1 hlt).trans (Option.some.inj (hentry.symm.trans hb)).le

theorem chainReorder_isRotated (chain : List α) : chainReorder chain ~r chain := by
  have h : chain.drop (lowestEntry chain) ++ chain.take (lowestEntry chain) ~r
      chain.take (lowestEntry chain) ++ chain.drop (lowestEntry chain) := List.isRotated_append
  rwa [List.take_append_drop] at h

/-- The chain starts with its lowest task. -/
def LowestFirst (chain : List α) : Prop := ∀ a ∈ chain.head?, ∀ b ∈ chain, a ≤ b

theorem chainReorder_lowestFirst {chain : List α} (hne : chain ≠ []) :
    LowestFirst (chainReorder chain) := by
  obtain ⟨a, ha, hle⟩ := lowestEntry_spec hne
  have hhead : (chainReorder chain).head? = some a := by
    rw [chainReorder, List.head?_append, List.head?_drop, ha]
    rfl
  intro b hb c hc
  rw [hhead, Option.mem_some_iff] at hb
  exact hb ▸ hle c ((chainReorder_isRotated chain).mem_iff.1 hc)

/-- A loop has one order that starts with its lowest task. -/
theorem LowestFirst.eq {c d : List α} (hc : LowestFirst c) (hd : LowestFirst d) (hn : c.Nodup)
    (h : c ~r d) : c = d := by
  rcases c with _ | ⟨a, l⟩
  · exact (List.isRotated_nil_iff'.1 h)
  rcases d with _ | ⟨b, m⟩
  · exact List.isRotated_nil_iff.1 h
  have hab : a = b := le_antisymm
    (hc a rfl b (h.mem_iff.2 List.mem_cons_self)) (hd b rfl a (h.mem_iff.1 List.mem_cons_self))
  obtain ⟨n, hle, hrot⟩ := List.isRotated_iff_mod.1 h
  rcases hle.eq_or_lt with rfl | hlt
  · rw [← hrot, List.rotate_length]
  · have hhead := List.head?_rotate hlt
    rw [hrot, List.head?_cons, List.getElem?_eq_getElem hlt, ← hab] at hhead
    have hfirst : (a :: l)[n] = (a :: l)[0] := (Option.some.inj hhead).symm
    have hn0 : n = 0 := hn.getElem_inj_iff.1 hfirst
    rw [← hrot, hn0, List.rotate_zero]

end reorder

/-! ### The search -/

/-- A line of the message. -/
inductive Line (α : Type)
  /-- `Dependency loop #%d found:` -/
  | found (number : Nat)
  /-- `  Task %s (dependent Tasks %s)` -/
  | task (dep : α) (depends : List α)
  | blank
  /-- `Halted dependency loops search after 10 matches.` -/
  | halted
  deriving DecidableEq

/-- What ends the search before its end. -/
inductive Stop
  | tooManyLoops
  | keyError
  | fuel
  deriving DecidableEq

structure Search (α : Type) where
  validChains : List (List α)
  exploredDeps : Dict α (List α)
  msgs : List (Line α)

def startSearch {α : Type} : Search α := ⟨[], .empty, []⟩

section search
variable {α : Type} [LinearOrder α] (g : RunTasks α)

def loopLines (number : Nat) (chain : List α) : List (Line α) :=
  .found number :: chain.map (fun dep => .task dep (g.depends dep)) ++ [.blank]

/-- A new chain is kept and printed. -/
def addChain (newChain : List α) (s : Search α) : Search α :=
  if newChain ∈ s.validChains then s
  else
    { s with
      validChains := s.validChains ++ [newChain]
      msgs := s.msgs ++ loopLines g (s.validChains.length + 1) newChain }

def halt (s : Search α) : Search α := { s with msgs := s.msgs ++ [.halted] }

/-- The branch for a task that is on the chain already. -/
def foundLoop (chain : List α) : EStateM Stop (Search α) Unit := do
  modify (addChain g (chainReorder chain))
  let s ← get
  if 10 < s.validChains.length then
    modify halt
    throw .tooManyLoops

def scan (s : Search α) (prevChain : List α) (revdep : α) : Bool :=
  match s.exploredDeps.get? revdep with
  | none => true
  | some deps => revdep ∈ deps || prevChain.any (· ∈ deps)

/-- `if dep not in total_deps: total_deps.append(dep)`. -/
def addDep (totalDeps : List α) (dep : α) : List α :=
  if dep ∈ totalDeps then totalDeps else totalDeps ++ [dep]

/-- The body of the loop over the tasks that depend on the last of the chain. -/
def visitRevdep (find : α → List α → EStateM Stop (Search α) Unit) (prevChain : List α)
    (totalDeps : List α) (revdep : α) : EStateM Stop (Search α) (List α) :=
  if revdep ∈ prevChain then do
    foundLoop g (prevChain.drop (prevChain.idxOf revdep))
    pure totalDeps
  else do
    let s ← get
    if scan s prevChain revdep then find revdep prevChain
    let s ← get
    match s.exploredDeps.get? revdep with
    | none => throw .keyError
    | some deps => pure (deps.foldl addDep totalDeps)

def findChains : Nat → α → List α → EStateM Stop (Search α) Unit
  | 0, _, _ => throw .fuel
  | fuel + 1, tid, prevChain => do
    let totalDeps ← (g.revdeps tid).foldlM
      (visitRevdep g (findChains fuel) (prevChain ++ [tid])) (g.revdeps tid)
    modify fun s => { s with exploredDeps := s.exploredDeps.set tid totalDeps }

/-- The messages for the tasks that cannot be built; too many loops are no error here. -/
def circularDepchainsHandler (fuel : Nat) (tasks : List α) : Except Stop (List (Line α)) :=
  match tasks.forM (fun task => findChains g fuel task []) startSearch with
  | .ok _ s => .ok s.msgs
  | .error .tooManyLoops s => .ok s.msgs
  | .error e _ => .error e

inductive Outcome (α : Type)
  | weights (weight : α → Nat)
  | fatal (problemTasks : List α) (msgs : List (Line α))

def calculateTaskWeights (fuel : Nat) (endpoints : List α) : Except Stop (Outcome α) :=
  match g.countRounds fuel endpoints (g.startWeights endpoints) with
  | none => .error .fuel
  | some w =>
    if g.problemTasks w = [] then .ok (.weights w.weight)
    else (circularDepchainsHandler g fuel (g.problemTasks w)).map (.fatal (g.problemTasks w))

/-! ### What the search keeps -/

/-- `t` is followed by a task that depends on it. -/
def Follows (t r : α) : Prop := g.Dependent r t

/-- A simple cycle of the graph, each task followed by one that depends on it. -/
structure IsLoop (chain : List α) : Prop where
  ne_nil : chain ≠ []
  nodup : chain.Nodup
  follows : (chain : Cycle α).Chain (Follows g)

/-- The chains found: loops, each in its normal order, and none of them twice. -/
structure Loops (chains : List (List α)) : Prop where
  isLoop : ∀ c ∈ chains, IsLoop g c
  lowestFirst : ∀ c ∈ chains, LowestFirst c
  nodup : chains.Nodup

/-- The lines printed for the chains. -/
def report (chains : List (List α)) : List (Line α) :=
  (chains.zipIdx 1).flatMap fun p => loopLines g p.2 p.1

structure Searched (s : Search α) : Prop where
  loops : Loops g s.validChains
  few : s.validChains.length ≤ 10
  msgs : s.msgs = report g s.validChains
  /-- As long as no loop was found, there is none above the explored tasks. -/
  acc : s.validChains = [] → ∀ t ∈ s.exploredDeps, Acc g.Dependent t

/-- The search was ended by too many loops. -/
structure Halted (s : Search α) : Prop where
  loops : Loops g s.validChains
  many : 10 < s.validChains.length
  msgs : s.msgs = report g s.validChains ++ [.halted]

/-- The chain of the search: each task depends on the one before it, none stands in it twice. -/
structure Path (chain : List α) : Prop where
  nodup : chain.Nodup
  tids : ∀ t ∈ chain, t ∈ g.tids
  follows : chain.IsChain (Follows g)

variable {g}

omit [LinearOrder α] in
theorem report_append (chains : List (List α)) (c : List α) :
    report g (chains ++ [c]) = report g chains ++ loopLines g (chains.length + 1) c := by
  simp [report, List.zipIdx_append, Nat.add_comm]

theorem IsLoop.chainReorder {c : List α} (h : IsLoop g c) : IsLoop g (chainReorder c) where
  ne_nil := fun he => h.ne_nil (List.isRotated_nil_iff'.1 (he ▸ chainReorder_isRotated c)).symm
  nodup := (chainReorder_isRotated c).nodup_iff.2 h.nodup
  follows := by
    rw [Cycle.coe_eq_coe.2 (chainReorder_isRotated c)]
    exact h.follows

theorem Loops.append {chains : List (List α)} (h : Loops g chains) {c : List α} (hc : IsLoop g c)
    (hlow : LowestFirst c) (hnew : c ∉ chains) : Loops g (chains ++ [c]) where
  isLoop := by
    intro d hd
    rcases List.mem_append.1 hd with hd | hd
    · exact h.isLoop d hd
    · exact List.mem_singleton.1 hd ▸ hc
  lowestFirst := by
    intro d hd
    rcases List.mem_append.1 hd with hd | hd
    · exact h.lowestFirst d hd
    · exact List.mem_singleton.1 hd ▸ hlow
  nodup := List.nodup_append.2 ⟨h.nodup, List.nodup_singleton c, fun a ha b hb he =>
    hnew (List.mem_singleton.1 hb ▸ he ▸ ha)⟩

/-- No two of the chains are the same loop. -/
theorem Loops.pairwise {chains : List (List α)} (h : Loops g chains) :
    chains.Pairwise fun c d => ¬ c ~r d :=
  h.nodup.imp_of_mem fun {c d} hc hd hne hrot =>
    hne ((h.lowestFirst c hc).eq (h.lowestFirst d hd) (h.isLoop c hc).nodup hrot)

namespace Path
variable {chain : List α}

/-- The part of the chain from a task that depends on its last one. -/
theorem isLoop {tid revdep : α} (h : Path g (chain ++ [tid])) (hdep : g.Dependent revdep tid)
    (hmem : revdep ∈ chain ++ [tid]) :
    IsLoop g ((chain ++ [tid]).drop ((chain ++ [tid]).idxOf revdep)) := by
  have hlt := List.idxOf_lt_length_of_mem hmem
  have hdrop := List.drop_eq_getElem_cons hlt
  rw [List.getElem_idxOf hlt] at hdrop
  have hsuffix := List.drop_suffix ((chain ++ [tid]).idxOf revdep) (chain ++ [tid])
  have hlast : ((chain ++ [tid]).drop ((chain ++ [tid]).idxOf revdep)).getLast? = some tid := by
    rw [List.getLast?_drop, if_neg (Nat.not_le.2 hlt), List.getLast?_append]
    rfl
  refine ⟨?_, h.nodup.sublist hsuffix.sublist, ?_⟩
  · rw [hdrop]
    exact List.cons_ne_nil _ _
  · have hchain := h.follows.suffix hsuffix
    rw [hdrop] at hchain hlast ⊢
    rw [Cycle.chain_coe_cons, ← List.cons_append, List.isChain_append]
    refine ⟨hchain, List.isChain_singleton revdep, ?_⟩
    intro a ha b hb
    rw [hlast, Option.mem_some_iff] at ha
    rw [List.head?_cons, Option.mem_some_iff] at hb
    exact ha ▸ hb ▸ hdep

omit [LinearOrder α] in
theorem append {tid revdep : α} (h : Path g (chain ++ [tid])) (hdep : g.Dependent revdep tid)
    (hmem : revdep ∉ chain ++ [tid]) : Path g (chain ++ [tid] ++ [revdep]) where
  nodup := List.nodup_append.2 ⟨h.nodup, List.nodup_singleton revdep, fun a ha b hb he =>
    hmem (List.mem_singleton.1 hb ▸ he ▸ ha)⟩
  tids := by
    intro t ht
    rcases List.mem_append.1 ht with ht | ht
    · exact h.tids t ht
    · exact List.mem_singleton.1 ht ▸ (g.closed tid revdep hdep).2
  follows := by
    refine List.isChain_append.2 ⟨h.follows, List.isChain_singleton revdep, ?_⟩
    intro a ha b hb
    rw [List.getLast?_append, List.getLast?_singleton] at ha
    obtain rfl : tid = a := Option.some.inj ha
    rw [List.head?_cons, Option.mem_some_iff] at hb
    exact hb ▸ hdep

omit [LinearOrder α] in
theorem singleton {tid : α} (ht : tid ∈ g.tids) : Path g ([] ++ [tid]) where
  nodup := List.nodup_singleton tid
  tids := fun _ h => List.mem_singleton.1 h ▸ ht
  follows := List.isChain_singleton tid

omit [LinearOrder α] in
/-- A chain has no more tasks than the graph. -/
theorem length_le (h : Path g chain) : chain.length ≤ g.tids.length :=
  (h.nodup.subperm fun t ht => h.tids t ht).length_le

end Path

/-! ### The steps of the search -/

/-- The search goes on from `s` to `s'`. -/
structure Further (g : RunTasks α) (s s' : Search α) : Prop where
  searched : Searched g s'
  explored : ∀ t ∈ s.exploredDeps, t ∈ s'.exploredDeps
  none_found : s'.validChains = [] → s.validChains = []

theorem Further.refl {s : Search α} (h : Searched g s) : Further g s s := ⟨h, fun _ ht => ht, id⟩

theorem Further.trans {s s' s'' : Search α} (h : Further g s s') (h' : Further g s' s'') :
    Further g s s'' :=
  ⟨h'.searched, fun t ht => h'.explored t (h.explored t ht), fun hn => h.none_found (h'.none_found hn)⟩

/-- The outcome of a step of the search: it goes on, or ends at too many loops. -/
def Goes (g : RunTasks α) {β : Type} (m : EStateM Stop (Search α) β) (s : Search α)
    (Q : β → Search α → Prop) : Prop :=
  wp m (fun b s' => Further g s s' ∧ Q b s') (fun e s' => e = .tooManyLoops ∧ Halted g s') s

/-- After a loop was found there is one. -/
theorem foundLoop_spec {c : List α} (hc : IsLoop g c) {s : Search α} (h : Searched g s) :
    Goes g (foundLoop g c) s fun _ s' => s'.validChains ≠ [] := by
  have hex : (addChain g (chainReorder c) s).exploredDeps = s.exploredDeps := by
    unfold addChain
    split <;> rfl
  have hmem : chainReorder c ∈ (addChain g (chainReorder c) s).validChains := by
    unfold addChain
    split
    · assumption
    · exact List.mem_append_right _ (List.mem_singleton_self _)
  have hloops : Loops g (addChain g (chainReorder c) s).validChains := by
    unfold addChain
    split
    · exact h.loops
    · exact h.loops.append hc.chainReorder (chainReorder_lowestFirst hc.ne_nil) ‹_›
  have hmsgs : (addChain g (chainReorder c) s).msgs =
      report g (addChain g (chainReorder c) s).validChains := by
    unfold addChain
    split
    · exact h.msgs
    · show s.msgs ++ _ = _
      rw [h.msgs, report_append]
  have hne : (addChain g (chainReorder c) s).validChains ≠ [] := List.ne_nil_of_mem hmem
  unfold Goes foundLoop
  rw [wp_bind, wp_modify, wp_bind, wp_get, wp_ite]
  constructor
  · intro hmany
    rw [wp_bind, wp_modify, wp_throw]
    refine ⟨rfl, hloops, hmany, ?_⟩
    show _ ++ _ = _
    rw [hmsgs]
    rfl
  · intro hfew
    rw [wp_pure]
    exact ⟨⟨⟨hloops, Nat.not_lt.1 hfew, hmsgs, fun h => absurd h hne⟩,
      fun t ht => hex ▸ ht, fun h => absurd h hne⟩, hne⟩

/-- What is known of the tasks on which the search goes on. -/
def Finds (g : RunTasks α) (find : α → List α → EStateM Stop (Search α) Unit)
    (prevChain : List α) : Prop :=
  ∀ tid s, Path g (prevChain ++ [tid]) → Searched g s →
    Goes g (find tid prevChain) s fun _ s' => tid ∈ s'.exploredDeps

/-- A visited task is explored, unless a loop was found. -/
theorem visitRevdep_spec {find : α → List α → EStateM Stop (Search α) Unit} {chain : List α}
    {tid revdep : α} (hfind : Finds g find (chain ++ [tid])) (hpath : Path g (chain ++ [tid]))
    (hdep : g.Dependent revdep tid) {s : Search α} (h : Searched g s) (totalDeps : List α) :
    Goes g (visitRevdep g find (chain ++ [tid]) totalDeps revdep) s fun _ s' =>
      s'.validChains = [] → revdep ∈ s'.exploredDeps := by
  unfold visitRevdep
  by_cases hmem : revdep ∈ chain ++ [tid]
  · rw [if_pos hmem]
    unfold Goes
    rw [wp_bind]
    refine (foundLoop_spec (hpath.isLoop hdep hmem) h).mono ?_ fun _ _ he => he
    intro _ s' hs'
    exact ⟨hs'.1, fun hnil => absurd hnil hs'.2⟩
  · rw [if_neg hmem]
    have hafter : ∀ s', Further g s s' → revdep ∈ s'.exploredDeps →
        wp (do
          let s ← get
          match s.exploredDeps.get? revdep with
          | none => throw .keyError
          | some deps => pure (deps.foldl addDep totalDeps) : EStateM Stop (Search α) (List α))
        (fun _ s' => Further g s s' ∧ (s'.validChains = [] → revdep ∈ s'.exploredDeps))
        (fun e s' => e = .tooManyLoops ∧ Halted g s') s' := by
      intro s' hs' hexp
      obtain ⟨deps, hdeps⟩ := Dict.mem_iff_get?_isSome.1 hexp
      rw [wp_bind, wp_get, hdeps]
      exact ⟨hs', fun _ => hexp⟩
    unfold Goes
    rw [wp_bind, wp_get]
    by_cases hscan : scan s (chain ++ [tid]) revdep
    · rw [if_pos hscan, wp_bind]
      refine (hfind revdep s (hpath.append hdep hmem) h).mono ?_ fun _ _ he => he
      intro _ s' hs'
      exact hafter s' hs'.1 hs'.2
    · rw [if_neg hscan, wp_bind]
      refine hafter s (.refl h) ?_
      rw [Dict.mem_iff_get?_isSome]
      unfold scan at hscan
      cases hget : s.exploredDeps.get? revdep with
      | none => rw [hget] at hscan; exact absurd rfl hscan
      | some deps => exact ⟨deps, rfl⟩

/-- The search from a task ends, and leaves it explored. -/
theorem findChains_spec (fuel : Nat) : ∀ (prevChain : List α) (tid : α) (s : Search α),
    g.tids.length < fuel + prevChain.length → Path g (prevChain ++ [tid]) → Searched g s →
      Goes g (findChains g fuel tid prevChain) s fun _ s' => tid ∈ s'.exploredDeps := by
  induction fuel with
  | zero =>
    intro prevChain tid s hfuel hpath _
    have hle := hpath.length_le
    rw [List.length_append, List.length_singleton] at hle
    omega
  | succ fuel ih =>
    intro prevChain tid s hfuel hpath h
    have hfind : Finds g (findChains g fuel) (prevChain ++ [tid]) := by
      intro r s' hr hs'
      refine ih _ r s' ?_ hr hs'
      rw [List.length_append, List.length_singleton]
      omega
    unfold Goes findChains
    rw [wp_bind]
    -- the dependents before `rest` are explored
    refine (wp_foldlM (I := fun rest _ s' => (∀ r ∈ rest, g.Dependent r tid) ∧ Further g s s' ∧
      (s'.validChains = [] → ∀ r ∈ g.revdeps tid, r ∈ rest ∨ r ∈ s'.exploredDeps))
      (E := fun e s' => e = .tooManyLoops ∧ Halted g s')
      ⟨fun r hr => hr, .refl h, fun _ r hr => .inl hr⟩ ?_).mono ?_ fun _ _ he => he
    · rintro r rest total s' ⟨hrest, hs', hall⟩
      refine (visitRevdep_spec hfind hpath (hrest r List.mem_cons_self) hs'.searched total).mono ?_
        fun _ _ he => he
      rintro _ s'' ⟨hs'', hr⟩
      refine ⟨fun q hq => hrest q (List.mem_cons_of_mem r hq), hs'.trans hs'', ?_⟩
      intro hnone q hq
      rcases hall (hs''.none_found hnone) q hq with hq | hq
      · rcases List.mem_cons.1 hq with rfl | hq
        · exact .inr (hr hnone)
        · exact .inl hq
      · exact .inr (hs''.explored q hq)
    · rintro total s' ⟨-, hs', hall⟩
      rw [wp_modify]
      have hmem : ∀ t, t ∈ s'.exploredDeps.set tid total ↔ t = tid ∨ t ∈ s'.exploredDeps :=
        fun _ => Dict.mem_set
      refine ⟨⟨{ hs'.searched with acc := ?_ }, fun t ht => (hmem t).2 (.inr (hs'.explored t ht)),
        hs'.none_found⟩, (hmem tid).2 (.inl rfl)⟩
      intro hnone
      have hacc := hs'.searched.acc hnone
      have htid : Acc g.Dependent tid := ⟨tid, fun r hr => by
        rcases hall hnone r hr with hr | hr
        · exact absurd hr List.not_mem_nil
        · exact hacc r hr⟩
      intro t ht
      rcases (hmem t).1 ht with rfl | ht
      · exact htid
      · exact hacc t ht

/-! ### The handler -/

theorem startSearch_searched : Searched g (startSearch : Search α) where
  loops := ⟨fun _ h => absurd h List.not_mem_nil, fun _ h => absurd h List.not_mem_nil,
    List.nodup_nil⟩
  few := Nat.zero_le 10
  msgs := rfl
  acc := fun _ _ h => absurd h List.not_mem_nil

/-- The lines that were printed: those for the loops found, and the last one if they were too many. -/
structure Printed (g : RunTasks α) (chains : List (List α)) (msgs : List (Line α)) : Prop where
  loops : Loops g chains
  msgs : msgs = report g chains ++ if 10 < chains.length then [.halted] else []

/-- The search from tasks that cannot be counted off prints a loop. -/
theorem circularDepchainsHandler_spec {fuel : Nat} (hfuel : g.tids.length < fuel) {tasks : List α}
    (htids : ∀ t ∈ tasks, t ∈ g.tids) (hacc : ∀ t ∈ tasks, ¬ Acc g.Dependent t) (hne : tasks ≠ []) :
    ∃ msgs chains, circularDepchainsHandler g fuel tasks = .ok msgs ∧ Printed g chains msgs ∧
      chains ≠ [] := by
  have hrun : wp (tasks.forM fun task => findChains g fuel task [])
      (fun _ s => Searched g s ∧ ∀ t ∈ tasks, t ∈ s.exploredDeps)
      (fun e s => e = .tooManyLoops ∧ Halted g s) startSearch := by
    refine (wp_forM (I := fun rest s => (∀ t ∈ rest, t ∈ tasks) ∧ Searched g s ∧
      ∀ t ∈ tasks, t ∈ rest ∨ t ∈ s.exploredDeps)
      (E := fun e s => e = .tooManyLoops ∧ Halted g s)
      ⟨fun t ht => ht, startSearch_searched, fun t ht => .inl ht⟩ ?_).mono ?_ fun _ _ he => he
    · rintro t rest s ⟨hrest, hs, hall⟩
      have ht := hrest t List.mem_cons_self
      refine (findChains_spec fuel [] t s hfuel (.singleton (htids t ht)) hs).mono ?_
        fun _ _ he => he
      rintro _ s' ⟨hs', hexp⟩
      refine ⟨fun q hq => hrest q (List.mem_cons_of_mem t hq), hs'.searched, ?_⟩
      intro q hq
      rcases hall q hq with hq | hq
      · rcases List.mem_cons.1 hq with rfl | hq
        · exact .inr hexp
        · exact .inl hq
      · exact .inr (hs'.explored q hq)
    · rintro _ s ⟨-, hs, hall⟩
      refine ⟨hs, fun t ht => ?_⟩
      rcases hall t ht with ht | ht
      · exact absurd ht List.not_mem_nil
      · exact ht
  unfold circularDepchainsHandler
  cases hres : tasks.forM (fun task => findChains g fuel task []) startSearch with
  | ok _ s =>
    obtain ⟨hs, hall⟩ := hrun.of_ok hres
    refine ⟨s.msgs, s.validChains, rfl, ⟨hs.loops, ?_⟩, ?_⟩
    · rw [if_neg (Nat.not_lt.2 hs.few), List.append_nil, hs.msgs]
    · obtain ⟨t, ht⟩ := List.exists_mem_of_ne_nil tasks hne
      exact fun hnone => hacc t ht (hs.acc hnone t (hall t ht))
  | error e s =>
    obtain ⟨rfl, hs⟩ := hrun.of_error hres
    refine ⟨s.msgs, s.validChains, rfl, ⟨hs.loops, ?_⟩, ?_⟩
    · rw [if_pos hs.many, hs.msgs]
    · intro hnil
      have hmany := hs.many
      rw [hnil] at hmany
      exact absurd hmany (Nat.not_lt_zero _)

omit [LinearOrder α] in
/-- From each task of a loop a chain of dependents leads back to it. -/
theorem IsLoop.transGen {c : List α} (h : IsLoop g c) :
    ∃ t, Relation.TransGen g.Dependent t t := by
  obtain ⟨t, ht⟩ := List.exists_mem_of_ne_nil c h.ne_nil
  have hchain : (c : Cycle α).Chain (Relation.TransGen (Follows g)) :=
    h.follows.imp fun _ _ => .single
  exact ⟨t, (Cycle.chain_iff_pairwise.1 hchain t ht t ht).swap⟩

/-- Builds are refused exactly for cyclic graphs; the loops printed are loops of the graph, and the
weights of the others are those of their dependents. -/
theorem calculateTaskWeights_spec (g : RunTasks α) {fuel : Nat} (hfuel : g.tids.length < fuel) :
    ∃ outcome, calculateTaskWeights g fuel g.endpoints = .ok outcome ∧
      ((∃ problemTasks msgs, outcome = .fatal problemTasks msgs) ↔
        ∃ t, Relation.TransGen g.Dependent t t) ∧
      (∀ problemTasks msgs, outcome = .fatal problemTasks msgs → problemTasks ≠ [] ∧
        ∃ chains : List (List α), chains ≠ [] ∧ (∀ c ∈ chains, IsLoop g c) ∧
          chains.Pairwise (fun c d => ¬ c ~r d) ∧
          msgs = report g chains ++ if 10 < chains.length then [.halted] else []) ∧
      ∀ weight, outcome = .weights weight → ∀ t ∈ g.tids,
        weight t = (if t ∈ g.endpoints then 10 else 1) + ((g.revdeps t).map weight).sum := by
  obtain ⟨w, done, hw, hrun⟩ := g.exists_countRounds
  have hcyclic : ∀ t, Relation.TransGen g.Dependent t t → g.problemTasks w ≠ [] := by
    intro t ht
    obtain ⟨r, -, hr⟩ := Relation.TransGen.tail'_iff.1 ht
    have htid := (g.closed t r hr).1
    exact List.ne_nil_of_mem (hw.mem_problemTasks.2 ⟨htid, Dag.not_acc_of_transGen ht⟩)
  unfold calculateTaskWeights
  rw [hrun fuel hfuel]
  by_cases hprob : g.problemTasks w = []
  · refine ⟨.weights w.weight, if_pos hprob, ?_, ?_, ?_⟩
    · constructor
      · rintro ⟨_, _, h⟩
        cases h
      · rintro ⟨t, ht⟩
        exact absurd hprob (hcyclic t ht)
    · intro _ _ h
      cases h
    · rintro _ ⟨⟩ t ht
      refine hw.weight_eq ?_
      by_contra hacc
      exact List.not_mem_nil (hprob ▸ hw.mem_problemTasks.2 ⟨ht, hacc⟩)
  · have hmem : ∀ t ∈ g.problemTasks w, t ∈ g.tids ∧ ¬ Acc g.Dependent t := fun t ht =>
      hw.mem_problemTasks.1 ht
    obtain ⟨msgs, chains, hmsgs, hprinted, hne⟩ := circularDepchainsHandler_spec hfuel
      (fun t ht => (hmem t ht).1) (fun t ht => (hmem t ht).2) hprob
    obtain ⟨c, hc⟩ := List.exists_mem_of_ne_nil chains hne
    refine ⟨.fatal (g.problemTasks w) msgs, ?_, ?_, ?_, ?_⟩
    · show (if g.problemTasks w = [] then _ else _) = _
      rw [if_neg hprob, hmsgs]
      rfl
    · exact ⟨fun _ => (hprinted.loops.isLoop c hc).transGen, fun _ => ⟨_, _, rfl⟩⟩
    · rintro _ _ ⟨⟩
      exact ⟨hprob, chains, hne, hprinted.loops.isLoop, hprinted.loops.pairwise, hprinted.msgs⟩
    · intro _ h
      cases h

end search

/-- Three tasks: the last two depend on each other, and the first on the second. Their loop is
printed once. -/
def mutualTasks : RunTasks (Fin 3) where
  tids := [0, 1, 2]
  depends := ![[1], [2], [1]]
  revdeps := ![[], [0, 2], [1]]
  nodup_tids := by decide
  nodup_depends := by decide
  nodup_revdeps := by decide
  symm := by decide
  closed := by decide

example : circularDepchainsHandler mutualTasks 4 [1, 2] = .ok
    [.found 1, .task 1 [2], .task 2 [1], .blank] := by rfl

theorem calculateTaskWeights_mutual :
    ∃ outcome, calculateTaskWeights mutualTasks 4 mutualTasks.endpoints = .ok outcome ∧
      ((∃ problemTasks msgs, outcome = .fatal problemTasks msgs) ↔
        ∃ t, Relation.TransGen mutualTasks.Dependent t t) ∧
      (∀ problemTasks msgs, outcome = .fatal problemTasks msgs → problemTasks ≠ [] ∧
        ∃ chains : List (List (Fin 3)), chains ≠ [] ∧ (∀ c ∈ chains, IsLoop mutualTasks c) ∧
          chains.Pairwise (fun c d => ¬ c ~r d) ∧
          msgs = report mutualTasks chains ++ if 10 < chains.length then [.halted] else []) ∧
      ∀ weight, outcome = .weights weight → ∀ t ∈ mutualTasks.tids,
        weight t = (if t ∈ mutualTasks.endpoints then 10 else 1) +
          ((mutualTasks.revdeps t).map weight).sum :=
  calculateTaskWeights_spec mutualTasks (by decide)

end BitBake
end OpenBmc
