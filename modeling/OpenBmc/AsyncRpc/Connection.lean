import OpenBmc.Py.JsonSpaces

/-!
# Messages on a stream

A message is written as one line, or, where its text is too long, as a line that announces a chunk
stream, pieces of the text in lines of their own, and an empty line. The reader strips every line on
the right, so it loses the spaces that a piece ends in. Everything written is ASCII: the stream is
given by its characters.
-/

namespace OpenBmc
namespace AsyncRpc
open Py

/-! ### Sending -/

/-- `zip_longest(*[iter(l)] * n, fillvalue="")`: pieces of length `n`, the last maybe shorter. -/
def pieces {α : Type} (n : Nat) : Nat → List α → List (List α)
  | 0, _ => []
  | _ + 1, [] => []
  | fuel + 1, a :: l => (a :: l).take n :: pieces n fuel ((a :: l).drop n)

def chunkStream : Str := "chunk-stream".toList

def header : Str := Json.dumps (.obj [(chunkStream, .null)])

def chunkify (msg : Str) (maxChunk : Nat) : List Str :=
  if msg.length < maxChunk - 1 then [msg ++ ['\n']]
  else
    (header ++ ['\n']) :: ((pieces (maxChunk - 1) msg.length msg).map (· ++ ['\n']) ++ [['\n']])

/-- What `send_message` writes. -/
def sendMessage (maxChunk : Nat) (msg : Json) : Str := (chunkify msg.dumps maxChunk).flatten

/-- The length in UTF-8. -/
def byteLength (s : Str) : Nat := (s.map Char.utf8Size).sum

/-! ### Receiving -/

inductive ConnectionError
  | closed
  | badMessage
  /-- A line is longer than the reader takes. -/
  | limitOverrun
  | notJson
  /-- `in` on a value that holds none. -/
  | typeError
deriving DecidableEq

/-- A line, and what is left of the stream; `limit` is the reader's. -/
def recv (limit : Nat) (stream : Str) : Except ConnectionError (Str × Str) :=
  match partition '\n' stream with
  | (line, some rest) => if limit < line.length then .error .limitOverrun else .ok (rstrip line, rest)
  | ([], none) => .error .closed
  | (_ :: _, none) => .error .badMessage

/-- The lines up to an empty one, joined. -/
def recvChunks (limit : Nat) : Nat → Str → Except ConnectionError (Str × Str)
  | 0, _ => .error .closed
  | fuel + 1, stream => do
    let got ← recv limit stream
    if got.1 = [] then .ok ([], got.2)
    else
      let more ← recvChunks limit fuel got.2
      .ok (got.1 ++ more.1, more.2)

/-- `"chunk-stream" in m`. -/
def hasChunkStream : Json → Except ConnectionError Bool
  | .obj items => .ok ((items.map Prod.fst).contains chunkStream)
  | .arr elems => .ok (elems.any fun v => match v with
    | .str s => s = chunkStream
    | _ => false)
  | .str s => .ok (contains chunkStream s)
  | _ => .error .typeError

def loads? [FloatData] (text : Str) : Except ConnectionError Json :=
  match loads text with
  | some m => .ok m
  | none => .error .notJson

def recvMessage [FloatData] (limit : Nat) (stream : Str) : Except ConnectionError (Json × Str) := do
  let got ← recv limit stream
  let m ← loads? got.1
  if !m.truthy then .ok (m, got.2)
  else if ← hasChunkStream m then
    let lines ← recvChunks limit (got.2.length + 1) got.2
    let m ← loads? lines.1
    .ok (m, lines.2)
  else .ok (m, got.2)

/-- The message arrives as it is, whatever follows it, and no line of it is longer than `maxChunk`
bytes. -/
def Arrives [FloatData] (limit maxChunk : Nat) (msg : Json) : Prop :=
  (∀ rest, recvMessage limit (sendMessage maxChunk msg ++ rest) = .ok (msg, rest)) ∧
    ∀ line ∈ chunkify msg.dumps maxChunk, byteLength line ≤ maxChunk

/-- No piece of the text ends with a space of a string. -/
def Unbroken (maxChunk : Nat) (msg : Json) : Prop :=
  ∀ k, msg.marked[(k + 1) * (maxChunk - 1) - 1]? ≠ some (' ', true)

/-! ### Pieces -/

section Pieces
variable {α β : Type} {n fuel : Nat} {l : List α}

theorem map_pieces (f : α → β) : (pieces n fuel l).map (List.map f) = pieces n fuel (l.map f) := by
  induction fuel generalizing l with
  | zero => rfl
  | succ fuel ih =>
    cases l with
    | nil => rfl
    | cons a l =>
      rw [List.map_cons, pieces, pieces, List.map_cons, ih, List.map_take, List.map_drop, List.map_cons]

theorem flatten_pieces (hn : 0 < n) (hl : l.length ≤ fuel) : (pieces n fuel l).flatten = l := by
  induction fuel generalizing l with
  | zero => rw [List.length_eq_zero_iff.1 (Nat.le_zero.1 hl)]; rfl
  | succ fuel ih =>
    cases l with
    | nil => rfl
    | cons a l =>
      rw [pieces, List.flatten_cons, ih, List.take_append_drop]
      rw [List.length_drop, List.length_cons] at *
      omega

theorem length_le_of_mem_pieces {g : List α} (hg : g ∈ pieces n fuel l) : g.length ≤ n := by
  induction fuel generalizing l with
  | zero => cases hg
  | succ fuel ih =>
    cases l with
    | nil => cases hg
    | cons a l =>
      rcases List.mem_cons.1 hg with rfl | hg
      · exact List.length_take_le _ _
      · exact ih hg

theorem ne_nil_of_mem_pieces {g : List α} (hn : 0 < n) (hg : g ∈ pieces n fuel l) : g ≠ [] := by
  induction fuel generalizing l with
  | zero => cases hg
  | succ fuel ih =>
    cases l with
    | nil => cases hg
    | cons a l =>
      rcases List.mem_cons.1 hg with rfl | hg
      · obtain ⟨m, rfl⟩ := Nat.exists_eq_succ_of_ne_zero hn.ne'
        exact List.cons_ne_nil _ _
      · exact ih hg

/-- A last element of a piece stands at a multiple of `n`, or at the end. -/
theorem getLast?_pieces (hn : 0 < n) (hl : l.length ≤ fuel) {x : α} (hx : l.getLast? ≠ some x) :
    (∀ g ∈ pieces n fuel l, g.getLast? ≠ some x) ↔ ∀ k, l[(k + 1) * n - 1]? ≠ some x := by
  induction fuel generalizing l with
  | zero =>
    rw [List.length_eq_zero_iff.1 (Nat.le_zero.1 hl)]
    simp [pieces]
  | succ fuel ih =>
    cases l with
    | nil => simp [pieces]
    | cons a l =>
      set m := a :: l with hm
      have hfirst : (m.take n).getLast? ≠ some x ↔ m[n - 1]? ≠ some x := by
        by_cases hlen : m.length ≤ n - 1
        · have htake : m.take n = m := List.take_of_length_le (by omega)
          rw [htake, List.getElem?_eq_none hlen]
          simp [hx]
        · have hlen' : (m.take n).length = n := by rw [List.length_take]; omega
          rw [List.getLast?_eq_getElem?, hlen', List.getElem?_take, if_pos (by omega)]
      have hlast : (m.drop n).getLast? ≠ some x := by
        intro h
        rw [List.getLast?_drop] at h
        split at h
        · cases h
        · exact hx h
      have hlen : (m.drop n).length ≤ fuel := by
        rw [List.length_drop]
        simp only [hm, List.length_cons] at hl ⊢
        omega
      have hpieces : pieces n (fuel + 1) m = m.take n :: pieces n fuel (m.drop n) := rfl
      rw [hpieces, List.forall_mem_cons, hfirst, ih hlen hlast]
      have hidx : ∀ k, (m.drop n)[(k + 1) * n - 1]? = m[(k + 2) * n - 1]? := by
        intro k
        rw [List.getElem?_drop]
        congr 1
        have : 0 < (k + 1) * n := Nat.mul_pos (Nat.succ_pos k) hn
        have : (k + 2) * n = (k + 1) * n + n := by ring
        omega
      simp only [hidx]
      constructor
      · rintro ⟨h₀, h⟩ k
        cases k with
        | zero => simpa using h₀
        | succ k => exact h k
      · intro h
        exact ⟨by simpa using h 0, fun k => h (k + 1)⟩

/-- A piece that is shorter is the last one. -/
theorem getLast?_of_length_lt {g : List α} (hn : 0 < n) (hl : l.length ≤ fuel)
    (hg : g ∈ pieces n fuel l) (hlen : g.length < n) : g.getLast? = l.getLast? := by
  induction fuel generalizing l with
  | zero => cases hg
  | succ fuel ih =>
    cases l with
    | nil => cases hg
    | cons a l =>
      rcases List.mem_cons.1 hg with rfl | hg
      · rw [List.length_take] at hlen
        rw [List.take_of_length_le (by omega)]
      · have hdrop : ((a :: l).drop n).length ≤ fuel := by
          rw [List.length_drop]
          rw [List.length_cons] at *
          omega
        rw [ih hdrop hg, List.getLast?_drop]
        split
        · rename_i hle
          rw [List.drop_of_length_le hle] at hg
          cases fuel <;> cases hg
        · rfl

end Pieces

/-! ### Stripped pieces -/

section Stripped
variable {l : List (Char × Bool)}

/-- `rstrip` of a marked text. -/
def rstripMarked (l : List (Char × Bool)) : List (Char × Bool) := l.rdropWhile fun e => isSpace e.1

theorem map_fst_rstripMarked (l : List (Char × Bool)) :
    (rstripMarked l).map Prod.fst = rstrip (l.map Prod.fst) := by
  rw [rstripMarked, rstrip, List.rdropWhile, List.rdropWhile, ← List.map_reverse, List.dropWhile_map,
    List.map_reverse]
  rfl

theorem rstripMarked_space {e : Char × Bool} (he : isSpace e.1) :
    rstripMarked (l ++ [e]) = rstripMarked l :=
  List.rdropWhile_concat_pos (p := fun e : Char × Bool => isSpace e.1) _ _ he

theorem rstripMarked_other {e : Char × Bool} (he : ¬ isSpace e.1) :
    rstripMarked (l ++ [e]) = l ++ [e] :=
  List.rdropWhile_concat_neg (p := fun e : Char × Bool => isSpace e.1) _ _ he

theorem isSpace_iff {c : Char} (hc : IsText c) : isSpace c = true ↔ c = ' ' := by
  obtain ⟨h₁, h₂⟩ := hc
  constructor
  · intro h
    have hn : c.toNat = 32 := by
      simp only [isSpace, Bool.or_eq_true, Bool.and_eq_true, decide_eq_true_eq, beq_iff_eq] at h
      omega
    exact Char.toNat_inj.1 hn
  · rintro rfl
    decide

theorem thinned_rstripMarked (hl : ∀ e ∈ l, IsText e.1) : Thinned l (rstripMarked l) := by
  induction l using List.reverseRecOn with
  | nil => exact .nil
  | append_singleton l e ih =>
    by_cases he : isSpace e.1
    · obtain ⟨c, b⟩ := e
      obtain rfl := (isSpace_iff (hl _ (by simp))).1 he
      rw [rstripMarked_space he, ← List.append_nil (rstripMarked l)]
      exact (ih fun e he => hl e (by simp [he])).append (.drop b .nil)
    · rw [rstripMarked_other he]
      exact .refl _

theorem stringSpaces_le {l' : List (Char × Bool)} (h : Thinned l l') :
    stringSpaces l' ≤ stringSpaces l := by
  induction h with
  | nil => exact le_rfl
  | keep e _ ih =>
    simp only [stringSpaces, List.count_cons] at ih ⊢
    omega
  | drop b _ ih =>
    simp only [stringSpaces, List.count_cons] at ih ⊢
    omega

theorem stringSpaces_lt (hl : ∀ e ∈ l, IsText e.1) (h : l.getLast? = some (' ', true)) :
    stringSpaces (rstripMarked l) < stringSpaces l := by
  obtain ⟨l, rfl⟩ := List.getLast?_eq_some_iff.1 h
  have hle := stringSpaces_le (thinned_rstripMarked fun e he => hl e (List.mem_append_left _ he))
  have hone : stringSpaces [(' ', true)] = 1 := rfl
  have hspace : isSpace ' ' = true := by decide
  rw [rstripMarked_space hspace, stringSpaces_append, hone]
  omega

theorem stringSpaces_eq (hl : ∀ e ∈ l, IsText e.1) (hs : Single l)
    (h : l.getLast? ≠ some (' ', true)) :
    stringSpaces (rstripMarked l) = stringSpaces l := by
  induction l using List.reverseRecOn with
  | nil => rfl
  | append_singleton l e _ =>
    by_cases he : isSpace e.1
    · -- the space of a separator: what stands before it is none
      obtain ⟨c, b⟩ := e
      obtain rfl := (isSpace_iff (hl _ (by simp))).1 he
      obtain rfl : b = false := by simpa using h
      have hlast : rstripMarked l = l := by
        refine List.rdropWhile_eq_self_iff.2 fun hne hsp => ?_
        have hlast := hs.rel_getLast_head_of_append hne (List.cons_ne_nil _ _) rfl
        exact hlast ((isSpace_iff (hl _ (List.mem_append_left _ (List.getLast_mem hne)))).1 hsp)
      have hzero : stringSpaces [(' ', false)] = 0 := rfl
      rw [rstripMarked_space he, hlast, stringSpaces_append, hzero, Nat.add_zero]
    · rw [rstripMarked_other he]

theorem stringSpaces_flatten (gs : List (List (Char × Bool))) :
    stringSpaces gs.flatten = (gs.map stringSpaces).sum := by
  induction gs with
  | nil => rfl
  | cons g gs ih => rw [List.flatten_cons, stringSpaces_append, ih, List.map_cons, List.sum_cons]

theorem thinned_flatten {gs : List (List (Char × Bool))} (hl : ∀ g ∈ gs, ∀ e ∈ g, IsText e.1) :
    Thinned gs.flatten (gs.map rstripMarked).flatten := by
  induction gs with
  | nil => exact .nil
  | cons g gs ih =>
    exact (thinned_rstripMarked (hl g List.mem_cons_self)).append
      (ih fun g hg => hl g (List.mem_cons_of_mem _ hg))

/-- The stripped pieces lost a space of a string if and only if one of them ended with it. -/
theorem stringSpaces_pieces {gs : List (List (Char × Bool))} (hl : ∀ g ∈ gs, ∀ e ∈ g, IsText e.1)
    (hs : ∀ g ∈ gs, Single g) :
    stringSpaces (gs.map rstripMarked).flatten = stringSpaces gs.flatten ↔
      ∀ g ∈ gs, g.getLast? ≠ some (' ', true) := by
  induction gs with
  | nil => simp
  | cons g gs ih =>
    have ih := ih (fun g hg => hl g (List.mem_cons_of_mem _ hg)) fun g hg => hs g (List.mem_cons_of_mem _ hg)
    have hle := stringSpaces_le (thinned_flatten fun g hg => hl g (List.mem_cons_of_mem _ hg))
    rw [List.map_cons, List.flatten_cons, List.flatten_cons, stringSpaces_append, stringSpaces_append,
      List.forall_mem_cons, ← ih]
    have hg := hl g List.mem_cons_self
    by_cases hlast : g.getLast? = some (' ', true)
    · have := stringSpaces_lt hg hlast
      simp only [hlast, ne_eq, not_true_eq_false, false_and, iff_false]
      omega
    · have := stringSpaces_eq hg (hs g List.mem_cons_self) hlast
      simp only [hlast, ne_eq, not_false_eq_true, true_and]
      omega

end Stripped

/-! ### Reading lines -/

section Lines
variable {limit : Nat} {line rest : Str}

theorem recv_line (hline : '\n' ∉ line) (rest : Str) : recv limit (line ++ '\n' :: rest) =
    if limit < line.length then .error .limitOverrun else .ok (rstrip line, rest) := by
  rw [recv, partition_append hline]

theorem recvChunks_line (hline : '\n' ∉ line) (hlen : line.length ≤ limit) (fuel : Nat) (rest : Str) :
    recvChunks limit (fuel + 1) (line ++ '\n' :: rest) =
      if rstrip line = [] then .ok ([], rest)
      else (recvChunks limit fuel rest).map fun r => (rstrip line ++ r.1, r.2) := by
  rw [recvChunks, recv_line hline, if_neg (by omega)]
  simp only [bind, Except.bind]
  split
  · rfl
  · cases recvChunks limit fuel rest <;> rfl

/-- Lines that are not blank, up to an empty one. -/
theorem recvChunks_lines {gs : List Str} {fuel : Nat} (hfuel : gs.length < fuel)
    (hgs : ∀ g ∈ gs, '\n' ∉ g ∧ g.length ≤ limit) (hblank : ∀ g ∈ gs, rstrip g ≠ []) (rest : Str) :
    recvChunks limit fuel ((gs.map (· ++ ['\n'])).flatten ++ '\n' :: rest) =
      .ok ((gs.map rstrip).flatten, rest) := by
  induction gs generalizing fuel with
  | nil =>
    obtain ⟨fuel, rfl⟩ := Nat.exists_eq_succ_of_ne_zero (Nat.ne_zero_of_lt hfuel)
    exact recvChunks_line List.not_mem_nil (Nat.zero_le _) fuel rest
  | cons g gs ih =>
    obtain ⟨fuel, rfl⟩ := Nat.exists_eq_succ_of_ne_zero (Nat.ne_zero_of_lt hfuel)
    obtain ⟨hg, hlen⟩ := hgs g List.mem_cons_self
    have hrest := ih (Nat.lt_of_succ_lt_succ hfuel) (fun g hg => hgs g (List.mem_cons_of_mem _ hg))
      fun g hg => hblank g (List.mem_cons_of_mem _ hg)
    have htext : ((g :: gs).map (· ++ ['\n'])).flatten ++ '\n' :: rest =
        g ++ '\n' :: ((gs.map (· ++ ['\n'])).flatten ++ '\n' :: rest) := by simp
    rw [htext, recvChunks_line hg hlen, if_neg (hblank g List.mem_cons_self), hrest]
    rfl

/-- A blank line ends the message, and the lines behind it are left on the stream. -/
theorem recvChunks_blank {gs : List Str} {fuel : Nat} (hfuel : gs.length < fuel)
    (hgs : ∀ g ∈ gs, '\n' ∉ g ∧ g.length ≤ limit) (hblank : ∃ g ∈ gs, rstrip g = []) (rest : Str) :
    ∃ text rest', recvChunks limit fuel ((gs.map (· ++ ['\n'])).flatten ++ '\n' :: rest) =
      .ok (text, rest') ∧ rest.length < rest'.length := by
  induction gs generalizing fuel with
  | nil => simp at hblank
  | cons g gs ih =>
    obtain ⟨fuel, rfl⟩ := Nat.exists_eq_succ_of_ne_zero (Nat.ne_zero_of_lt hfuel)
    obtain ⟨hg, hlen⟩ := hgs g List.mem_cons_self
    have htext : ((g :: gs).map (· ++ ['\n'])).flatten ++ '\n' :: rest =
        g ++ '\n' :: ((gs.map (· ++ ['\n'])).flatten ++ '\n' :: rest) := by simp
    rw [htext, recvChunks_line hg hlen]
    by_cases hne : rstrip g = []
    · rw [if_pos hne]
      refine ⟨_, _, rfl, ?_⟩
      simp only [List.length_append, List.length_cons]
      omega
    · rw [if_neg hne]
      obtain ⟨text, rest', hrest, hlt⟩ := ih (Nat.lt_of_succ_lt_succ hfuel)
        (fun g hg => hgs g (List.mem_cons_of_mem _ hg)) (by simpa [hne] using hblank)
      rw [hrest]
      exact ⟨_, _, rfl, hlt⟩

/-- A line that is longer than the reader takes is not read. -/
theorem recvChunks_long {g : Str} {gs : List Str} (hg : '\n' ∉ g) (hlen : limit < g.length) (fuel : Nat)
    (rest : Str) : ∃ e, recvChunks limit fuel (((g :: gs).map (· ++ ['\n'])).flatten ++ '\n' :: rest) =
      .error e := by
  have htext : ((g :: gs).map (· ++ ['\n'])).flatten ++ '\n' :: rest =
      g ++ '\n' :: ((gs.map (· ++ ['\n'])).flatten ++ '\n' :: rest) := by simp
  cases fuel with
  | zero => exact ⟨_, rfl⟩
  | succ fuel =>
    rw [htext, recvChunks, recv_line hg, if_pos hlen]
    exact ⟨_, rfl⟩

end Lines

/-! ### Messages -/

theorem not_mem_newline {l : List (Char × Bool)} (hl : ∀ e ∈ l, IsText e.1) :
    '\n' ∉ l.map Prod.fst := by
  intro h
  obtain ⟨e, he, hn⟩ := List.mem_map.1 h
  have := (hl e he).1
  rw [hn] at this
  exact absurd this (by decide)

theorem getLast?_marked (items : List (Str × Json)) :
    (Json.obj items).marked.getLast? = some ('}', false) := by
  have htokens : ∃ ts, (Json.obj items).tokens = ts ++ [.punct '}'] := by
    cases items with
    | nil => exact ⟨[.punct '{'], rfl⟩
    | cons e items =>
      obtain ⟨k, v⟩ := e
      exact ⟨.punct '{' :: .str k :: .punct ':' :: (v.tokens ++ Json.tokensItems items), by
        simp [Json.tokens]⟩
  obtain ⟨ts, hts⟩ := htokens
  rw [Json.marked, hts, List.flatMap_append]
  simp [Token.marked]

theorem rstrip_dumps (items : List (Str × Json)) :
    rstrip (Json.obj items).dumps = (Json.obj items).dumps := by
  obtain ⟨l, hl⟩ := List.getLast?_eq_some_iff.1 (getLast?_marked items)
  rw [Json.dumps, ← map_fst_rstripMarked, hl, rstripMarked_other (by decide)]

theorem length_header : header.length = 22 := by decide +kernel

theorem byteLength_of_isText {s : Str} (hs : ∀ c ∈ s, IsText c) : byteLength (s ++ ['\n']) = s.length + 1 := by
  have hone : ∀ c : Char, c.toNat < 128 → c.utf8Size = 1 := by
    intro c hc
    have hle : c.val ≤ 0x7f := by
      rw [UInt32.le_iff_toNat_le]
      exact Nat.le_of_lt_succ hc
    simp [Char.utf8Size, hle]
  induction s with
  | nil => rfl
  | cons c s ih =>
    have hc := (hs c List.mem_cons_self).2
    have ih := ih fun c hc => hs c (List.mem_cons_of_mem _ hc)
    simp only [byteLength, List.cons_append, List.map_cons, List.sum_cons, List.length_cons] at ih ⊢
    rw [hone c (by omega), ih]
    omega

section Pieces
variable {maxChunk : Nat}

theorem sendMessage_short {m : Json} (hlt : m.dumps.length < maxChunk - 1) (rest : Str) :
    sendMessage maxChunk m ++ rest = m.dumps ++ '\n' :: rest := by
  simp [sendMessage, chunkify, hlt]

theorem sendMessage_long {m : Json} (hlt : ¬ m.dumps.length < maxChunk - 1) (rest : Str) :
    sendMessage maxChunk m ++ rest = header ++ '\n' ::
      (((pieces (maxChunk - 1) m.dumps.length m.dumps).map (· ++ ['\n'])).flatten ++ '\n' :: rest) := by
  simp [sendMessage, chunkify, hlt]

/-- The pieces of the marked text. -/
def markedPieces (maxChunk : Nat) (m : Json) : List (List (Char × Bool)) :=
  pieces (maxChunk - 1) m.marked.length m.marked

theorem pieces_dumps (m : Json) : pieces (maxChunk - 1) m.dumps.length m.dumps =
    (markedPieces maxChunk m).map (List.map Prod.fst) := by
  rw [markedPieces, map_pieces, Json.dumps, List.length_map]

theorem flatten_markedPieces (hmax : 32 ≤ maxChunk) (m : Json) :
    (markedPieces maxChunk m).flatten = m.marked :=
  flatten_pieces (by omega) le_rfl

theorem isInfix_of_mem_pieces (hmax : 32 ≤ maxChunk) {m : Json} {g : List (Char × Bool)}
    (hg : g ∈ markedPieces maxChunk m) : g <:+: m.marked := by
  rw [← flatten_markedPieces hmax m]
  exact List.infix_of_mem_flatten hg

theorem unbroken_iff (hmax : 32 ≤ maxChunk) (items : List (Str × Json)) :
    Unbroken maxChunk (.obj items) ↔
      ∀ g ∈ markedPieces maxChunk (.obj items), g.getLast? ≠ some (' ', true) := by
  rw [markedPieces, getLast?_pieces (by omega) le_rfl]
  · rfl
  · simp [getLast?_marked]

/-- The pieces as they are written. -/
def lines (maxChunk : Nat) (m : Json) : List Str := (markedPieces maxChunk m).map (List.map Prod.fst)

theorem length_lines_lt (ls : List Str) (rest : Str) :
    ls.length < ((ls.map (· ++ ['\n'])).flatten ++ '\n' :: rest).length + 1 := by
  have hle : ls.length ≤ ((ls.map (· ++ ['\n'])).flatten).length := by
    induction ls with
    | nil => exact le_rfl
    | cons a ls ih =>
      simp only [List.map_cons, List.flatten_cons, List.length_append, List.length_cons]
      omega
  rw [List.length_append]
  omega

end Pieces

section Messages
variable [FloatData] {limit maxChunk : Nat} {items : List (Str × Json)} {rest : Str}

theorem isText_dumps {m : Json} (hv : m.Valid) : ∀ e ∈ m.marked, IsText e.1 := by
  intro e he
  obtain ⟨t, ht, he⟩ := List.mem_flatMap.1 he
  exact isText_token (valid_tokens m hv t ht) e he

theorem valid_header : (Json.obj [(chunkStream, .null)]).Valid := by
  simp [Json.Valid, ItemsValid]

theorem recvMessage_line {m : Json} (hline : loads (rstrip m.dumps) = some m) (hn : '\n' ∉ m.dumps)
    (hlen : m.dumps.length ≤ limit) (rest : Str) :
    recvMessage limit (m.dumps ++ '\n' :: rest) =
      if !m.truthy then .ok (m, rest)
      else (hasChunkStream m).bind fun b =>
        if b then (recvChunks limit (rest.length + 1) rest).bind fun r => (loads? r.1).map fun m => (m, r.2)
        else .ok (m, rest) := by
  rw [recvMessage, recv_line hn, if_neg (by omega)]
  simp only [bind, Except.bind, loads?, hline]
  split
  · rfl
  · cases hasChunkStream m with
    | error e => rfl
    | ok b =>
      cases b with
      | false => rfl
      | true =>
        simp only [if_true]
        cases recvChunks limit (rest.length + 1) rest with
        | error e => rfl
        | ok r =>
          simp only
          cases loads r.1 <;> rfl

/-- A message of one line. -/
theorem recvMessage_short (hv : (Json.obj items).Valid) (hkey : chunkStream ∉ items.map Prod.fst)
    (hlen : (Json.obj items).dumps.length ≤ limit) (rest : Str) :
    recvMessage limit ((Json.obj items).dumps ++ '\n' :: rest) = .ok (.obj items, rest) := by
  rw [recvMessage_line (by rw [rstrip_dumps, loads_dumps hv]) (not_mem_newline (isText_dumps hv)) hlen]
  split
  · rfl
  · simp [hasChunkStream, hkey, Except.bind]

/-- The line that announces a chunk stream. -/
theorem recvMessage_header (hlen : header.length ≤ limit) (rest : Str) :
    recvMessage limit (header ++ '\n' :: rest) =
      (recvChunks limit (rest.length + 1) rest).bind fun r => (loads? r.1).map fun m => (m, r.2) := by
  rw [header, recvMessage_line (by rw [rstrip_dumps, loads_dumps valid_header])
    (not_mem_newline (isText_dumps valid_header)) hlen]
  simp [hasChunkStream, Json.truthy, Except.bind]

/-- No line is longer than `maxChunk` bytes. -/
theorem byteLength_le (hmax : 32 ≤ maxChunk) {m : Json} (hv : m.Valid) :
    ∀ line ∈ chunkify m.dumps maxChunk, byteLength line ≤ maxChunk := by
  have htext : ∀ {m : Json}, m.Valid → ∀ c ∈ m.dumps, IsText c := by
    intro m hv c hc
    obtain ⟨e, he, rfl⟩ := List.mem_map.1 hc
    exact isText_dumps hv e he
  intro line hline
  unfold chunkify at hline
  split at hline
  · rename_i hlt
    rw [List.mem_singleton.1 hline, byteLength_of_isText (htext hv)]
    omega
  · rcases List.mem_cons.1 hline with rfl | hline
    · have hhead : byteLength (header ++ ['\n']) = header.length + 1 :=
        byteLength_of_isText (htext valid_header)
      rw [hhead, length_header]
      omega
    · rcases List.mem_append.1 hline with hline | hline
      · obtain ⟨g, hg, rfl⟩ := List.mem_map.1 hline
        have hlen := length_le_of_mem_pieces hg
        have hflat := flatten_pieces (n := maxChunk - 1) (by omega) (le_refl m.dumps.length)
        rw [byteLength_of_isText fun c hc => htext hv c ?_]
        · omega
        · rw [← hflat]
          exact List.mem_flatten_of_mem hg hc
      · rw [List.mem_singleton.1 hline]
        have : byteLength ['\n'] = 1 := rfl
        omega

section Long
variable (hmax : 32 ≤ maxChunk) (hv : (Json.obj items).Valid)
include hmax hv

theorem single_of_mem_pieces {g : List (Char × Bool)} (hg : g ∈ markedPieces maxChunk (.obj items)) :
    (∀ e ∈ g, IsText e.1) ∧ Single g := by
  have hwithin := isInfix_of_mem_pieces hmax hg
  have hsingle : Single (Json.obj items).marked := (single_tokens (valid_tokens _ hv)).1
  refine ⟨fun e he => isText_dumps hv e (hwithin.subset he), ?_⟩
  obtain ⟨before, after, heq⟩ := hwithin
  rw [← heq] at hsingle
  exact hsingle.left_of_append.right_of_append

/-- A piece is blank only where it ends with a space of a string. -/
theorem rstripMarked_ne_nil {g : List (Char × Bool)} (hg : g ∈ markedPieces maxChunk (.obj items))
    (hlast : g.getLast? ≠ some (' ', true)) : rstripMarked g ≠ [] := by
  intro hnil
  obtain ⟨htext, hsingle⟩ := single_of_mem_pieces hmax hv hg
  have hne := ne_nil_of_mem_pieces (by omega) hg
  obtain ⟨l, e, rfl⟩ := (List.eq_nil_or_concat' g).resolve_left hne
  have hspace := List.rdropWhile_eq_nil_iff.1 hnil
  obtain ⟨c, b⟩ := e
  obtain rfl := (isSpace_iff (htext (c, b) (by simp))).1 (hspace (c, b) (by simp))
  obtain rfl : b = false := by simpa using hlast
  cases List.eq_nil_or_concat' l with
  | inl hl =>
    -- the last piece, and the text does not end with a space
    subst hl
    have := getLast?_of_length_lt (by omega) le_rfl hg (by simp; omega)
    rw [getLast?_marked] at this
    cases this
  | inr hl =>
    obtain ⟨l, d, rfl⟩ := hl
    have hd := hsingle.rel_getLast_head_of_append (by simp) (List.cons_ne_nil _ _) rfl
    rw [List.getLast_append_singleton] at hd
    exact hd ((isSpace_iff (htext d (by simp))).1 (hspace d (by simp)))

theorem mem_lines {g : Str} (hg : g ∈ lines maxChunk (.obj items)) :
    '\n' ∉ g ∧ g.length ≤ maxChunk - 1 := by
  obtain ⟨l, hl, rfl⟩ := List.mem_map.1 hg
  refine ⟨not_mem_newline (single_of_mem_pieces hmax hv hl).1, ?_⟩
  rw [List.length_map]
  exact length_le_of_mem_pieces hl

/-- The stripped pieces make up a text of the message if and only if no string lost a space. -/
theorem loads_lines : loads ((lines maxChunk (.obj items)).map rstrip).flatten = some (.obj items) ↔
    Unbroken maxChunk (.obj items) := by
  have htext : ∀ g ∈ markedPieces maxChunk (.obj items), ∀ e ∈ g, IsText e.1 :=
    fun g hg => (single_of_mem_pieces hmax hv hg).1
  have hsingle : ∀ g ∈ markedPieces maxChunk (.obj items), Single g :=
    fun g hg => (single_of_mem_pieces hmax hv hg).2
  have hflat : ((lines maxChunk (.obj items)).map rstrip).flatten =
      ((markedPieces maxChunk (.obj items)).map rstripMarked).flatten.map Prod.fst := by
    rw [lines, List.map_flatten, List.map_map, List.map_map]
    congr 2
    funext g
    exact (map_fst_rstripMarked g).symm
  have hthin := thinned_flatten htext
  have hcount := stringSpaces_pieces htext hsingle
  rw [flatten_markedPieces hmax] at hthin hcount
  rw [hflat, loads_thinned hv hthin, unbroken_iff hmax, hcount]

/-- A chunk stream arrives if and only if it is unbroken. -/
theorem recvMessage_long (hlong : ¬ (Json.obj items).dumps.length < maxChunk - 1)
    (hlimit : maxChunk - 1 ≤ limit) :
    (∀ rest, recvMessage limit (sendMessage maxChunk (.obj items) ++ rest) = .ok (.obj items, rest)) ↔
      Unbroken maxChunk (.obj items) := by
  set ls := lines maxChunk (.obj items) with hls
  have hlines : ∀ g ∈ ls, '\n' ∉ g ∧ g.length ≤ limit := by
    intro g hg
    obtain ⟨hn, hlen⟩ := mem_lines hmax hv hg
    exact ⟨hn, by omega⟩
  have hrecv : ∀ rest, recvMessage limit (sendMessage maxChunk (.obj items) ++ rest) =
      (recvChunks limit (((ls.map (· ++ ['\n'])).flatten ++ '\n' :: rest).length + 1)
        ((ls.map (· ++ ['\n'])).flatten ++ '\n' :: rest)).bind
        fun r => (loads? r.1).map fun m => (m, r.2) := by
    intro rest
    rw [sendMessage_long hlong, recvMessage_header (by rw [length_header]; omega), pieces_dumps]
    rfl
  constructor
  · intro h
    have h := h []
    rw [hrecv] at h
    by_cases hblank : ∃ g ∈ ls, rstrip g = []
    · obtain ⟨text, rest', hchunks, hlt⟩ := recvChunks_blank (length_lines_lt ls []) hlines hblank []
      rw [hchunks] at h
      have hrest : rest' = [] := by
        cases hl : loads? text <;> simp [Except.bind, hl, Except.map] at h
        exact h.2
      rw [hrest] at hlt
      exact absurd hlt (Nat.lt_irrefl _)
    · push Not at hblank
      rw [recvChunks_lines (length_lines_lt ls []) hlines hblank] at h
      refine (loads_lines hmax hv).1 ?_
      cases hl : loads (ls.map rstrip).flatten with
      | none => simp [Except.bind, loads?, hl, Except.map] at h
      | some m =>
        simp [Except.bind, loads?, hl, Except.map] at h
        rw [h]
  · intro h rest
    have hblank : ∀ g ∈ ls, rstrip g ≠ [] := by
      intro g hg
      obtain ⟨l, hl, rfl⟩ := List.mem_map.1 hg
      have hne := rstripMarked_ne_nil hmax hv hl ((unbroken_iff hmax items).1 h l hl)
      rw [← map_fst_rstripMarked]
      simpa using hne
    rw [hrecv, recvChunks_lines (length_lines_lt ls rest) hlines hblank]
    simp [Except.bind, loads?, hls, (loads_lines hmax hv).2 h, Except.map]

/-- A line that is too long for the reader is not read. -/
theorem recvMessage_limit (hlimit : limit < min (Json.obj items).dumps.length (maxChunk - 1))
    (rest : Str) : ∃ e, recvMessage limit (sendMessage maxChunk (.obj items) ++ rest) = .error e := by
  have hn : '\n' ∉ (Json.obj items).dumps := not_mem_newline (isText_dumps hv)
  have hn' : '\n' ∉ header := not_mem_newline (isText_dumps valid_header)
  by_cases hlt : (Json.obj items).dumps.length < maxChunk - 1
  · rw [sendMessage_short hlt, recvMessage, recv_line hn, if_pos (by omega)]
    exact ⟨_, rfl⟩
  · rw [sendMessage_long hlt]
    by_cases hhead : limit < header.length
    · rw [recvMessage, recv_line hn', if_pos hhead]
      exact ⟨_, rfl⟩
    · have hne : (Json.obj items).dumps.length ≠ 0 := by omega
      obtain ⟨k, hk⟩ := Nat.exists_eq_succ_of_ne_zero hne
      obtain ⟨c, text, hc⟩ := List.exists_cons_of_ne_nil (List.ne_nil_of_length_pos (Nat.pos_of_ne_zero hne))
      have hpieces : pieces (maxChunk - 1) (Json.obj items).dumps.length (Json.obj items).dumps =
          (Json.obj items).dumps.take (maxChunk - 1) ::
            pieces (maxChunk - 1) k ((Json.obj items).dumps.drop (maxChunk - 1)) := by
        rw [hk, hc]
        rfl
      have htake : '\n' ∉ (Json.obj items).dumps.take (maxChunk - 1) :=
        fun h => hn (List.mem_of_mem_take h)
      have hlen : limit < ((Json.obj items).dumps.take (maxChunk - 1)).length := by
        rw [List.length_take]
        omega
      rw [recvMessage_header (by omega), hpieces]
      obtain ⟨e, he⟩ := recvChunks_long htake hlen _ rest
      rw [he]
      exact ⟨_, rfl⟩

/-- The message arrives if and only if the reader takes its lines, and no piece of its text ends with
a space of a string. -/
theorem arrives_iff (hkey : chunkStream ∉ items.map Prod.fst) :
    Arrives limit maxChunk (.obj items) ↔
      min (Json.obj items).dumps.length (maxChunk - 1) ≤ limit ∧ Unbroken maxChunk (.obj items) := by
  rw [Arrives, and_iff_left (byteLength_le hmax hv)]
  by_cases hlimit : min (Json.obj items).dumps.length (maxChunk - 1) ≤ limit
  · rw [and_iff_right hlimit]
    by_cases hlt : (Json.obj items).dumps.length < maxChunk - 1
    · refine iff_of_true (fun rest => ?_) fun k => ?_
      · rw [sendMessage_short hlt]
        exact recvMessage_short hv hkey (by omega) rest
      · rw [Json.dumps, List.length_map] at hlt
        have : maxChunk - 1 ≤ (k + 1) * (maxChunk - 1) := Nat.le_mul_of_pos_left _ (Nat.succ_pos k)
        rw [List.getElem?_eq_none (by omega)]
        exact nofun
    · exact recvMessage_long hmax hv hlt (by omega)
  · refine iff_of_false (fun h => ?_) fun h => hlimit h.1
    obtain ⟨e, he⟩ := recvMessage_limit hmax hv (Nat.lt_of_not_le hlimit) []
    rw [h []] at he
    cases he

end Long

end Messages

section Sample

local instance textFloats : FloatData := ⟨id⟩

namespace Sample

/-- The 31st character of the text is the 24th of the string. -/
def message (text : Str) : Json := .obj [(['a'], .str (List.replicate 23 'x' ++ text))]

theorem valid_message (text : Str) : (message text).Valid := by
  simp [message, Json.Valid, ItemsValid]

end Sample

theorem message_arrives : Arrives 65536 32 (Sample.message ['y', ' ', 'z']) ↔
    min (Sample.message ['y', ' ', 'z']).dumps.length (32 - 1) ≤ 65536 ∧
      Unbroken 32 (Sample.message ['y', ' ', 'z']) :=
  arrives_iff le_rfl (Sample.valid_message _) (by decide +kernel)

/-- The first piece ends with the space, which is lost. -/
theorem space_is_lost : (Sample.message [' ', 'y']).Valid ∧
    recvMessage 65536 (sendMessage 32 (Sample.message [' ', 'y'])) =
      .ok (Sample.message ['y'], []) ∧
    ¬ Arrives 65536 32 (Sample.message [' ', 'y']) := by
  have hrecv : recvMessage 65536 (sendMessage 32 (Sample.message [' ', 'y'])) =
      .ok (Sample.message ['y'], []) := rfl
  refine ⟨Sample.valid_message _, hrecv, fun h => ?_⟩
  have hmsg := h.1 []
  rw [List.append_nil, hrecv] at hmsg
  cases hmsg

end Sample

end AsyncRpc
end OpenBmc
