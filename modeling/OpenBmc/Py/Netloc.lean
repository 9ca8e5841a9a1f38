import OpenBmc.Py.UrlRoundTrip

/-!
# Host names that survive a rewrite

`IsHost h` holds of a host name as `hostname` returns it, unless it contains a bracket. Such a name,
with a port behind it, is again a network location that passes the checks, and `hostname` and `port`
read the same two values back from it.
-/

namespace OpenBmc
namespace Py

/-! ### IPv6 addresses ignore the case of their digits -/

theorem splitOnP_map {p q : Char → Bool} {f : Char → Char} (h : ∀ c, q (f c) = p c) (s : Str) :
    (s.map f).splitOnP q = (s.splitOnP p).map (List.map f) := by
  induction s with
  | nil => simp
  | cons c cs ih =>
    rw [List.map_cons, List.splitOnP_cons_eq_if_modifyHead, List.splitOnP_cons_eq_if_modifyHead, ih,
      h]
    split
    · simp
    · rcases hs : cs.splitOnP p with _ | ⟨a, l⟩ <;> simp

theorem splitOn_map_toLower (sep : Char) (hsep : ∀ c : Char, c.toLower = sep ↔ c = sep) (s : Str) :
    (s.map Char.toLower).splitOn sep = (s.splitOn sep).map (List.map Char.toLower) :=
  splitOnP_map (fun c => by by_cases hc : c = sep <;> simp [hc, hsep]) s

theorem toLower_eq_iff {c d : Char} (hd : d.isLower = false) (hu : d.isUpper = false) :
    c.toLower = d ↔ c = d := by
  by_cases h : c.isUpper
  · constructor
    · rintro rfl; rw [isLower_toLower h] at hd; cases hd
    · rintro rfl; rw [h] at hu; cases hu
  · rw [toLower_of_not_isUpper h]

theorem isHexDigit_iff {c : Char} : isHexDigit c ↔ (48 ≤ c.toNat ∧ c.toNat ≤ 57) ∨
    (97 ≤ c.toNat ∧ c.toNat ≤ 102) ∨ (65 ≤ c.toNat ∧ c.toNat ≤ 70) := by
  have hle : ∀ a b : Char, a ≤ b ↔ a.toNat ≤ b.toNat := fun a b => by
    rw [Char.le_def, UInt32.le_iff_toNat_le]; rfl
  simp [isHexDigit, isDigit_iff, hle, or_assoc]

theorem isHexDigit_toLower (c : Char) : isHexDigit c.toLower = isHexDigit c := by
  by_cases h : c.isUpper
  · have hu := isUpper_iff.1 h
    rw [Bool.eq_iff_iff, isHexDigit_iff, isHexDigit_iff, toNat_toLower h]
    omega
  · rw [toLower_of_not_isUpper h]

theorem isDigit_toLower (c : Char) : c.toLower.isDigit = c.isDigit := by
  by_cases h : c.isUpper
  · have hu := isUpper_iff.1 h
    rw [Bool.eq_iff_iff, isDigit_iff, isDigit_iff, toNat_toLower h]
    omega
  · rw [toLower_of_not_isUpper h]

theorem isHextet_map_toLower (s : Str) : isHextet (s.map Char.toLower) = isHextet s := by
  have hall : (s.map Char.toLower).all isHexDigit = s.all isHexDigit := by
    rw [List.all_map]
    congr 1
    exact funext isHexDigit_toLower
  simp [isHextet, hall]

theorem map_toLower_of_digits {s : Str} (h : s.all Char.isDigit) : s.map Char.toLower = s := by
  have hfix : ∀ c ∈ s, c.toLower = id c := fun c hc => by
    have hd := isDigit_iff.1 (List.all_eq_true.1 h c hc)
    exact toLower_of_not_isUpper fun hu => by have := isUpper_iff.1 hu; omega
  rw [List.map_congr_left hfix, List.map_id]

theorem isOctet_map_toLower {s : Str} (h : isOctet s) : s.map Char.toLower = s := by
  simp only [isOctet, Bool.and_eq_true] at h
  exact map_toLower_of_digits h.1.1.1.2

theorem isIPv4_map_toLower {s : Str} (h : isIPv4 s) : isIPv4 (s.map Char.toLower) := by
  have hparts := splitOn_map_toLower '.' (fun c => toLower_eq_iff rfl rfl) s
  have hfix : (s.splitOn '.').map (List.map Char.toLower) = s.splitOn '.' := by
    simp only [isIPv4, Bool.and_eq_true, List.all_eq_true] at h
    rw [List.map_congr_left fun part hp => isOctet_map_toLower (h.2 part hp), List.map_id']
  rw [isIPv4, hparts, hfix]
  exact h

theorem partsOk_map_toLower (parts : List Str) :
    partsOk (parts.map (List.map Char.toLower)) = partsOk parts := by
  have hnil : ∀ s : Str, s.map Char.toLower = [] ↔ s = [] := fun s => List.map_eq_nil_iff
  have hcount : ∀ l : List Str, (l.map (List.map Char.toLower)).count [] = l.count [] := fun l => by
    rw [List.count_eq_countP, List.count_eq_countP, List.countP_map]
    exact List.countP_congr fun s _ => by simp
  have hidx : ∀ l : List Str, (l.map (List.map Char.toLower)).idxOf [] = l.idxOf [] := fun l => by
    induction l with
    | nil => rfl
    | cons s l ih =>
      rw [List.map_cons, List.idxOf_cons, List.idxOf_cons, ih]
      cases s <;> rfl
  have hall : (parts.map (List.map Char.toLower)).all (fun part => part = [] || isHextet part) =
      parts.all fun part => part = [] || isHextet part := by
    rw [List.all_map]
    congr 1
    funext s
    simp [isHextet_map_toLower]
  have hhead : (parts.map (List.map Char.toLower)).head? = some [] ↔ parts.head? = some [] := by
    simp [List.head?_map]
  have hlast : (parts.map (List.map Char.toLower)).getLast? = some [] ↔
      parts.getLast? = some [] := by
    simp [List.getLast?_map]
  simp only [partsOk, hall, hhead, hlast, ← List.map_drop, ← List.map_dropLast, hcount, hidx,
    List.length_map]

theorem isIPv6Addr_map_toLower {addr : Str} (h : isIPv6Addr addr) :
    isIPv6Addr (addr.map Char.toLower) := by
  have hparts := splitOn_map_toLower ':' (fun c => toLower_eq_iff rfl rfl) addr
  have hchars : (addr.map Char.toLower).all (fun c => isHexDigit c || c = ':' || c = '.') =
      addr.all fun c => isHexDigit c || c = ':' || c = '.' := by
    rw [List.all_map]
    congr 1
    funext c
    simp [isHexDigit_toLower, toLower_eq_iff (c := c) (d := ':') rfl rfl,
      toLower_eq_iff (c := c) (d := '.') rfl rfl]
  have hlast : (((addr.splitOn ':').map (List.map Char.toLower)).getLast?).getD [] =
      ((addr.splitOn ':').getLast?.getD []).map Char.toLower := by
    rw [List.getLast?_map]
    cases (addr.splitOn ':').getLast? <;> rfl
  have hdot : ∀ s : Str, '.' ∈ s.map Char.toLower ↔ '.' ∈ s := fun s => by
    simp [List.mem_map, toLower_eq_iff (d := '.') rfl rfl]
  have hzeros : ∀ l : List Str, (l.map (List.map Char.toLower)).dropLast ++ [['0'], ['0']] =
      (l.dropLast ++ [['0'], ['0']]).map (List.map Char.toLower) := fun l => by
    rw [List.map_append, List.map_dropLast]; rfl
  simp only [isIPv6Addr, Bool.and_eq_true, decide_eq_true_eq] at h ⊢
  rw [hparts, hchars, List.length_map, hlast, hzeros, partsOk_map_toLower, partsOk_map_toLower]
  refine ⟨h.1, ?_⟩
  by_cases hd : '.' ∈ (addr.splitOn ':').getLast?.getD []
  · rw [if_pos ((hdot _).2 hd)]
    have := h.2
    rw [if_pos hd, Bool.and_eq_true] at this
    rw [Bool.and_eq_true]
    exact ⟨isIPv4_map_toLower this.1, this.2⟩
  · rw [if_neg (mt (hdot _).1 hd)]
    simpa [hd] using h.2

theorem isAscii_of_isIPv6Addr {addr : Str} (h : isIPv6Addr addr) :
    ∀ c ∈ addr, isAscii c ∧ c ≠ 'v' ∧ c ≠ '%' := fun c hc => by
  simp only [isIPv6Addr, Bool.and_eq_true, List.all_eq_true] at h
  have := h.1.1 c hc
  simp only [Bool.or_eq_true, decide_eq_true_eq] at this
  rcases this with (hx | rfl) | rfl
  · have hn := isHexDigit_iff.1 hx
    refine ⟨by simp only [isAscii, decide_eq_true_eq]; omega, ?_, ?_⟩ <;> rintro rfl <;>
      simp at hn
  · decide
  · decide

theorem colon_mem_of_isIPv6Addr {addr : Str} (h : isIPv6Addr addr) : ':' ∈ addr := by
  simp only [isIPv6Addr, Bool.and_eq_true, decide_eq_true_eq] at h
  by_contra hn
  have hlen := h.1.2
  rw [List.splitOn_eq_singleton hn] at hlen
  simp at hlen

/-! ### Lower-casing a host -/

theorem isIPvFuture_iff {h : Str} : isIPvFuture h ↔ ∃ hex tail, h = 'v' :: (hex ++ '.' :: tail) ∧
    hex ≠ [] ∧ (∀ c ∈ hex, isHexDigit c) ∧ tail ≠ [] ∧ '\n' ∉ tail := by
  constructor
  · intro hf
    match h with
    | [] => cases hf
    | c :: rest =>
      unfold isIPvFuture at hf
      split at hf
      · rename_i rest' heq
        obtain ⟨rfl, rfl⟩ := List.cons.inj heq
        simp only [Bool.and_eq_true, decide_eq_true_eq] at hf
        obtain ⟨hne, hf⟩ := hf
        split at hf
        · rename_i tail hdrop
          simp only [Bool.and_eq_true, decide_eq_true_eq] at hf
          refine ⟨rest.takeWhile isHexDigit, tail, ?_, hne, fun c hc => List.mem_takeWhile_imp hc,
            hf⟩
          rw [← hdrop, List.takeWhile_append_dropWhile]
        · cases hf
      · cases hf
  · rintro ⟨hex, tail, rfl, hne, hhex, ht, hnl⟩
    have htake : (hex ++ '.' :: tail).takeWhile isHexDigit = hex := by
      rw [List.takeWhile_append_of_pos hhex]
      simp [isHexDigit]
    have hdrop : (hex ++ '.' :: tail).dropWhile isHexDigit = '.' :: tail := by
      rw [List.dropWhile_append_of_pos hhex]
      simp [isHexDigit]
    simp [isIPvFuture, htake, hdrop, hne, ht, hnl]

section Lower
variable [UnicodeData]

theorem lowerHost_of_not_mem {h : Str} (hp : '%' ∉ h) : lowerHost h = lower h := by
  simp [lowerHost, partition_of_not_mem hp]

theorem lowerHost_zone {a : Str} (ha : '%' ∉ a) (zone : Str) :
    lowerHost (a ++ '%' :: zone) = lower a ++ '%' :: zone := by
  simp [lowerHost, partition_append ha]

theorem lowerHost_lowerHost (h : Str) : lowerHost (lowerHost h) = lowerHost h := by
  have hnot : '%' ∉ lower (partition '%' h).1 := fun hm =>
    not_mem_partition_fst h (mem_of_mem_lower hm rfl rfl)
  rcases hp : partition '%' h with ⟨a, _ | zone⟩
  · rw [hp] at hnot
    have hl : lowerHost h = lower a := by simp [lowerHost, hp]
    rw [hl, lowerHost_of_not_mem hnot, lower_lower]
  · rw [hp] at hnot
    have hl : lowerHost h = lower a ++ '%' :: zone := by simp [lowerHost, hp]
    rw [hl, lowerHost_zone hnot, lower_lower]

theorem mem_of_mem_lowerHost {h : Str} {d : Char} (hd : d ∈ lowerHost h) (ha : isAscii d)
    (hl : d.isLower = false) : d ∈ h := by
  rcases hp : partition '%' h with ⟨a, _ | zone⟩
  · simp only [lowerHost, hp, Option.map_none, Option.getD_none, List.append_nil] at hd
    rw [← (partition_none hp).1]
    exact mem_of_mem_lower hd ha hl
  · simp only [lowerHost, hp, Option.map_some, Option.getD_some, List.mem_append] at hd
    rw [partition_some hp, List.mem_append]
    exact hd.imp (fun hd => mem_of_mem_lower hd ha hl) id

theorem mem_of_mem_lowerHost_delim {h : Str} {d : Char} (hd : d ∈ lowerHost h)
    (hn : isNfkcDelim d) : d ∈ h := by
  rcases hp : partition '%' h with ⟨a, _ | zone⟩
  · simp only [lowerHost, hp, Option.map_none, Option.getD_none, List.append_nil] at hd
    rw [← (partition_none hp).1]
    exact mem_of_mem_lower_delim hd hn
  · simp only [lowerHost, hp, Option.map_some, Option.getD_some, List.mem_append] at hd
    rw [partition_some hp, List.mem_append]
    exact hd.imp (fun hd => mem_of_mem_lower_delim hd hn) id

theorem lowerHost_ne_nil {h : Str} (hn : h ≠ []) : lowerHost h ≠ [] := by
  rcases hp : partition '%' h with ⟨a, _ | zone⟩
  · have ha := (partition_none hp).1
    simpa [lowerHost, hp, lower_eq_nil, ha] using hn
  · simp [lowerHost, hp]

theorem isIPv6_lowerHost {h : Str} (hi : isIPv6 h) : isIPv6 (lowerHost h) := by
  simp only [isIPv6, Bool.and_eq_true] at hi
  have hasc := isAscii_of_isIPv6Addr hi.1
  have hlow : lower (partition '%' h).1 = (partition '%' h).1.map Char.toLower :=
    lower_ascii fun c hc => (hasc c hc).1
  have haddr := isIPv6Addr_map_toLower hi.1
  have hnot : '%' ∉ (partition '%' h).1.map Char.toLower := fun hm =>
    (isAscii_of_isIPv6Addr haddr _ hm).2.2 rfl
  rcases hp : partition '%' h with ⟨a, _ | zone⟩
  · rw [hp] at hlow haddr hnot
    simp only [lowerHost, hp, hlow, isIPv6, Option.map_none, Option.getD_none, List.append_nil,
      partition_of_not_mem hnot, haddr, Bool.and_self]
  · rw [hp] at hi hlow haddr hnot
    simp only [lowerHost, hp, hlow, isIPv6, Option.map_some, Option.getD_some,
      partition_append hnot, haddr, Bool.true_and]
    exact hi.2

theorem lowerFrom_append_ascii {s t : Str} : ∀ {b : Str}, (∀ c ∈ s, isAscii c) →
    lowerFrom b (s ++ t) = s.map Char.toLower ++ lowerFrom (b ++ s) t := by
  induction s with
  | nil => simp
  | cons c cs ih =>
    intro b h
    rw [List.cons_append, lowerFrom, UnicodeData.lowerAt_ascii _ _ _ (h c (by simp)),
      ih fun d hd => h d (by simp [hd])]
    simp

theorem isIPvFuture_lowerHost {h : Str} (hf : isIPvFuture h) : isIPvFuture (lowerHost h) := by
  obtain ⟨hex, tail, rfl, hne, hhex, ht, hnl⟩ := isIPvFuture_iff.1 hf
  have hpre : ∀ c ∈ 'v' :: (hex ++ ['.']), isAscii c ∧ c ≠ '%' := fun c hc => by
    simp only [List.mem_cons, List.mem_append, List.not_mem_nil, or_false] at hc
    rcases hc with rfl | hc | rfl
    · decide
    · have := isHexDigit_iff.1 (hhex c hc)
      refine ⟨by simp only [isAscii, decide_eq_true_eq]; omega, ?_⟩
      rintro rfl
      simp at this
    · decide
  have hsplit : 'v' :: (hex ++ '.' :: tail) = 'v' :: (hex ++ ['.']) ++ tail := by simp
  have hlow : lowerHost ('v' :: (hex ++ '.' :: tail)) = 'v' :: (hex.map Char.toLower ++ '.' ::
      (lowerFrom ('v' :: (hex ++ ['.'])) (partition '%' tail).1 ++
        ((partition '%' tail).2.map ('%' :: ·)).getD [])) := by
    rw [hsplit, lowerHost, partition_append_left fun hm => (hpre _ hm).2 rfl, lower,
      lowerFrom_append_ascii fun c hc => (hpre c hc).1]
    simp [show 'v'.toLower = 'v' from rfl, show '.'.toLower = '.' from rfl]
  have hmem : ∀ c ∈ lowerFrom ('v' :: (hex ++ ['.'])) (partition '%' tail).1, c ≠ '\n' := by
    rintro c hc rfl
    obtain ⟨d, hd, b, a, hm⟩ := mem_lowerFrom hc
    rcases UnicodeData.lowerAt_letter b d a _ hm rfl with rfl | h
    · exact hnl (mem_of_mem_partition_fst hd)
    · cases h
  rw [hlow]
  refine isIPvFuture_iff.2 ⟨_, _, rfl, by simpa using hne, fun c hc => ?_, ?_, ?_⟩
  · obtain ⟨d, hd, rfl⟩ := List.mem_map.1 hc
    rw [isHexDigit_toLower]
    exact hhex d hd
  · rcases hp : partition '%' tail with ⟨a, _ | zone⟩
    · rw [← (partition_none hp).1] at ht
      cases a with
      | nil => exact absurd rfl ht
      | cons c cs => simp [lowerFrom, UnicodeData.lowerAt_ne_nil]
    · simp
  · intro hm
    rcases List.mem_append.1 hm with hm | hm
    · exact hmem _ hm rfl
    · rcases hp : partition '%' tail with ⟨a, _ | zone⟩
      · simp [hp] at hm
      · simp only [hp, Option.map_some, Option.getD_some, List.mem_cons] at hm
        rcases hm with hm | hm
        · cases hm
        · exact hnl (mem_of_partition_some hp hm)

theorem bracketedHostOk_lowerHost {h : Str} (hb : bracketedHostOk h) :
    bracketedHostOk (lowerHost h) := by
  unfold bracketedHostOk at hb ⊢
  split at hb
  · have hf := isIPvFuture_lowerHost hb
    obtain ⟨hex, tail, heq, -⟩ := isIPvFuture_iff.1 hf
    rw [if_pos (by rw [heq]; rfl)]
    exact hf
  · have hi := isIPv6_lowerHost hb
    rw [if_neg, hi]
    intro hv
    cases hl : lowerHost h with
    | nil => simp [hl] at hv
    | cons c cs =>
      rw [hl] at hi hv
      simp only [List.head?_cons, Option.some.injEq] at hv
      subst hv
      simp only [isIPv6, Bool.and_eq_true] at hi
      exact (isAscii_of_isIPv6Addr hi.1 'v' (by rw [partition, if_neg (by decide)]; simp)).2.1 rfl

end Lower

/-! ### A host and a port as a network location -/

/-- The host, in brackets when it contains a colon, and the port behind it. -/
def hostPort (host : Str) (port : Option Nat) : Str :=
  (if ':' ∈ host ∧ host.head? ≠ some '[' then '[' :: (host ++ [']']) else host) ++
    (port.map fun n => ':' :: natStr n).getD []

theorem checkNetloc_eq_ok_iff {netloc : Str} : checkNetloc netloc = .ok () ↔
    ('[' ∈ netloc ↔ ']' ∈ netloc) ∧ ('[' ∈ netloc → bracketedNetlocOk netloc) ∧
      ∀ c ∈ netloc, isNfkcDelim c = false := by
  unfold checkNetloc
  split
  · refine ⟨nofun, fun ⟨hb, _⟩ => ?_⟩
    tauto
  rename_i hbr
  split
  · rename_i hno
    refine ⟨nofun, fun ⟨_, hb, _⟩ => ?_⟩
    have := hb hno.1
    rw [hno.2] at this
    cases this
  rename_i hok
  split
  · rename_i hany
    obtain ⟨c, hc, hd⟩ := List.any_eq_true.1 hany
    refine ⟨nofun, fun ⟨_, _, hn⟩ => ?_⟩
    rw [hn c hc] at hd
    cases hd
  · rename_i hany
    refine ⟨fun _ => ⟨by tauto, fun hm => ?_, fun c hc => ?_⟩, fun _ => rfl⟩
    · exact Bool.eq_true_of_not_eq_false fun hf => hok ⟨hm, hf⟩
    · exact Bool.eq_false_iff.2 fun hd => hany (List.any_eq_true.2 ⟨c, hc, hd⟩)

/-- A host name as `hostname` returns it, or the empty one. -/
structure HostText [UnicodeData] (h : Str) : Prop where
  ends : ∀ c ∈ h, isNetlocEnd c = false
  user : '@' ∉ h
  nfkc : ∀ c ∈ h, isNfkcDelim c = false
  breaks : NoBreaks h
  lower : lowerHost h = h
  colon : ':' ∈ h → bracketedHostOk h

/-- A host name that a network location can hold: brackets go around it only, or inside these. -/
structure IsHost [UnicodeData] (h : Str) : Prop extends HostText h where
  head : h.head? ≠ some '['
  lbracket : '[' ∈ h → ':' ∈ h
  rbracket : ']' ∉ h

theorem mem_of_mem_hostinfo {netloc : Str} {c : Char} (h : c ∈ (hostinfo netloc).1) :
    c ∈ (rpartition '@' netloc).2 := by
  unfold hostinfo at h
  rcases hp : partition '[' (rpartition '@' netloc).2 with ⟨a, _ | b⟩
  · simp only [hp] at h
    exact mem_of_mem_partition_fst h
  · simp only [hp] at h
    exact mem_of_partition_some hp (mem_of_mem_partition_fst h)

theorem bracketedHostOk_of_colon_mem {netloc : Str} (hn : checkNetloc netloc = .ok ())
    (h : ':' ∈ (hostinfo netloc).1) : bracketedHostOk (hostinfo netloc).1 := by
  rcases hp : partition '[' (rpartition '@' netloc).2 with ⟨a, _ | b⟩
  · simp only [hostinfo, hp] at h
    exact absurd h (not_mem_partition_fst _)
  · have hmem : '[' ∈ netloc := mem_of_mem_rpartition_snd (by rw [partition_some hp]; simp)
    have hb := (checkNetloc_eq_ok_iff.1 hn).2.1 hmem
    simp only [bracketedNetlocOk, hp, Bool.and_eq_true] at hb
    simp only [hostinfo, hp]
    exact hb.2

theorem head?_of_bracketedHostOk {h : Str} (hb : bracketedHostOk h) : h.head? ≠ some '[' := fun he => by
  cases h with
  | nil => cases he
  | cons c cs =>
    obtain rfl : c = '[' := by simpa using he
    simp only [bracketedHostOk, isIPv6, isIPv6Addr, List.head?_cons, Option.some.injEq] at hb
    simp [partition, isHexDigit] at hb

/-- The host of a network location holds brackets of one kind at most; with a colon it holds no
closing one. -/
theorem brackets_hostinfo (netloc : Str) : ('[' ∉ (hostinfo netloc).1 ∧ ':' ∉ (hostinfo netloc).1) ∨
    ']' ∉ (hostinfo netloc).1 := by
  rcases hp : partition '[' (rpartition '@' netloc).2 with ⟨a, _ | b⟩
  · simp only [hostinfo, hp]
    refine .inl ⟨fun h => ?_, not_mem_partition_fst _⟩
    exact (partition_none hp).2 (mem_of_mem_partition_fst h)
  · simp only [hostinfo, hp]
    exact .inr (not_mem_partition_fst _)

section HostPort
variable [UnicodeData]

theorem hostText_nil : HostText [] where
  ends := by simp
  user := by simp
  nfkc := by simp
  breaks := by simp [NoBreaks]
  lower := by simp [lowerHost, partition, lower, lowerFrom]
  colon := by simp

theorem getD_hostname (p : ParseResult) : p.hostname.getD [] = lowerHost (hostinfo p.netloc).1 := by
  unfold ParseResult.hostname
  simp only
  split
  · rename_i hnil
    rw [hnil]
    exact hostText_nil.lower.symm
  · rfl

theorem hostText_of_hostname {p : ParseResult} (hp : Parsed p) : HostText (p.hostname.getD []) := by
  rw [getD_hostname]
  have hraw : ∀ c ∈ (hostinfo p.netloc).1, c ∈ p.netloc := fun c hc =>
    mem_of_mem_rpartition_snd (mem_of_mem_hostinfo hc)
  have hcheck := (checkNetloc_eq_ok_iff.1 hp.check).2.2
  refine ⟨fun c hc => ?_, fun hc => ?_, fun c hc => ?_, fun c hc => ?_, lowerHost_lowerHost _,
    fun hc => ?_⟩
  · by_contra hend
    have hend : isNetlocEnd c = true := by simpa using hend
    have hcs : isAscii c ∧ c.isLower = false := by
      simp only [isNetlocEnd, Bool.or_eq_true, decide_eq_true_eq] at hend
      rcases hend with (rfl | rfl) | rfl <;> decide
    have := hp.netloc c (hraw c (mem_of_mem_lowerHost hc hcs.1 hcs.2))
    rw [hend] at this
    cases this
  · exact not_mem_rpartition_snd _ (mem_of_mem_hostinfo (mem_of_mem_lowerHost hc rfl rfl))
  · by_contra hd
    have hd : isNfkcDelim c = true := by simpa using hd
    have := hcheck c (hraw c (mem_of_mem_lowerHost_delim hc hd))
    rw [hd] at this
    cases this
  · have hbr : ∀ c ∈ (hostinfo p.netloc).1, c ≠ '\t' ∧ c ≠ '\r' ∧ c ≠ '\n' := fun c hc =>
      hp.breaks c (by simp [hraw c hc])
    refine ⟨?_, ?_, ?_⟩ <;> rintro rfl <;> have := hbr _ (mem_of_mem_lowerHost hc rfl rfl) <;>
      simp at this
  · exact bracketedHostOk_lowerHost (bracketedHostOk_of_colon_mem hp.check
      (mem_of_mem_lowerHost hc rfl rfl))

theorem hostname_ne_nil {p : ParseResult} {h : Str} (hh : p.hostname = some h) : h ≠ [] := by
  unfold ParseResult.hostname at hh
  simp only at hh
  split at hh
  · cases hh
  · rw [← Option.some.inj hh]
    exact lowerHost_ne_nil ‹_›

theorem brackets_hostname (p : ParseResult) :
    ('[' ∉ p.hostname.getD [] ∧ ':' ∉ p.hostname.getD []) ∨ ']' ∉ p.hostname.getD [] := by
  rw [getD_hostname]
  have hmem : ∀ c ∈ ['[', ']', ':'], c ∈ lowerHost (hostinfo p.netloc).1 → c ∈ (hostinfo p.netloc).1 :=
    fun c hc hm => by
      have hcs : isAscii c ∧ c.isLower = false := by
        simp only [List.mem_cons, List.not_mem_nil, or_false] at hc
        rcases hc with rfl | rfl | rfl <;> decide
      exact mem_of_mem_lowerHost hm hcs.1 hcs.2
  refine (brackets_hostinfo p.netloc).imp (fun h => ⟨?_, ?_⟩) ?_
  · exact mt (hmem _ (by simp)) h.1
  · exact mt (hmem _ (by simp)) h.2
  · exact mt (hmem _ (by simp))

theorem isHost_of_hostname {p : ParseResult} (hp : Parsed p)
    (hb : '[' ∈ p.hostname.getD [] ∨ ']' ∈ p.hostname.getD [] → ':' ∈ p.hostname.getD []) :
    IsHost (p.hostname.getD []) where
  toHostText := hostText_of_hostname hp
  head hh := head?_of_bracketedHostOk ((hostText_of_hostname hp).colon
    (hb (.inl (List.mem_of_head? hh)))) hh
  lbracket h := hb (.inl h)
  rbracket h := (brackets_hostname p).elim (fun hno => hno.2 (hb (.inr h))) fun hno => hno h

omit [UnicodeData] in
theorem mem_hostPort {h : Str} {o : Option Nat} {c : Char} (hc : c ∈ hostPort h o) :
    c ∈ h ∨ (c = '[' ∧ ':' ∈ h) ∨ (c = ']' ∧ ':' ∈ h) ∨ c = ':' ∨ c.isDigit := by
  rw [hostPort, List.mem_append] at hc
  rcases hc with hc | hc
  · split at hc
    · simp only [List.mem_cons, List.mem_append, List.not_mem_nil, or_false] at hc
      tauto
    · exact .inl hc
  · cases o with
    | none => simp at hc
    | some n =>
      simp only [Option.map_some, Option.getD_some, List.mem_cons] at hc
      rcases hc with hc | hc
      · tauto
      · exact .inr (.inr (.inr (.inr (isDigit_of_mem_natStr hc))))

omit [UnicodeData] in
/-- A property of the characters of the host, of brackets, colons and digits holds of all of
them. -/
theorem forall_hostPort {h : Str} {P : Char → Prop} (hP : ∀ c ∈ h, P c) (hl : P '[')
    (hr : P ']') (hc : P ':') (hd : ∀ c : Char, c.isDigit → P c) (o : Option Nat) :
    ∀ c ∈ hostPort h o, P c := fun c hm => by
  rcases mem_hostPort hm with h | ⟨rfl, -⟩ | ⟨rfl, -⟩ | rfl | h
  exacts [hP c h, hl, hr, hc, hd c h]

/-- A bracket without a colon next to it makes no network location. -/
theorem checkNetloc_hostPort_error {p : ParseResult} {o : Option Nat}
    (hb : ¬ ('[' ∈ p.hostname.getD [] ∨ ']' ∈ p.hostname.getD [] → ':' ∈ p.hostname.getD [])) :
    ∃ e, checkNetloc (hostPort (p.hostname.getD []) o) = .error e := by
  have hone := brackets_hostname p
  generalize p.hostname.getD [] = h at hb hone
  rw [Classical.not_imp] at hb
  obtain ⟨hbr, hc⟩ := hb
  have heq : hostPort h o = h ++ (o.map fun n => ':' :: natStr n).getD [] := by simp [hostPort, hc]
  have hmem : ∀ c ∈ ['[', ']'], c ∈ hostPort h o ↔ c ∈ h := fun c hm => by
    refine ⟨fun hcm => ?_, fun hcm => by rw [heq]; simp [hcm]⟩
    rcases mem_hostPort hcm with hcm | ⟨-, hcm⟩ | ⟨-, hcm⟩ | rfl | hd
    · exact hcm
    · exact absurd hcm hc
    · exact absurd hcm hc
    · simp at hm
    · simp only [List.mem_cons, List.not_mem_nil, or_false] at hm
      rcases hm with rfl | rfl <;> simp at hd
  rcases hcheck : checkNetloc (hostPort h o) with e | u
  · exact ⟨e, rfl⟩
  · have hiff := (checkNetloc_eq_ok_iff.1 hcheck).1
    rw [hmem _ (by simp), hmem _ (by simp)] at hiff
    tauto

namespace IsHost
variable {h : Str}

theorem hostPort_eq (hh : IsHost h) (o : Option Nat) :
    hostPort h o = (if ':' ∈ h then '[' :: (h ++ [']']) else h) ++
      (o.map fun n => ':' :: natStr n).getD [] := by
  simp [hostPort, hh.head]

omit [UnicodeData] in
theorem partition_port (o : Option Nat) :
    (partition ':' ((o.map fun n => ':' :: natStr n).getD [])).2 = o.map natStr := by
  cases o <;> simp [partition]

theorem hostinfo_hostPort (hh : IsHost h) (o : Option Nat) :
    hostinfo (hostPort h o) = (h, o.map natStr) := by
  have huser : '@' ∉ hostPort h o := fun hm =>
    forall_hostPort (P := (· ≠ '@')) (fun c hc => by rintro rfl; exact hh.user hc) (by decide)
      (by decide) (by decide) (fun c hd => by rintro rfl; simp at hd) o '@' hm rfl
  have hport : (if o.map natStr = some [] then none else o.map natStr) = o.map natStr := by
    cases o <;> simp [natStr_ne_nil]
  unfold hostinfo
  rw [rpartition_of_not_mem huser]
  by_cases hc : ':' ∈ h
  · have heq : hostPort h o = '[' :: (h ++ ']' :: (o.map fun n => ':' :: natStr n).getD []) := by
      rw [hh.hostPort_eq, if_pos hc]; simp
    simp only [heq, partition, if_true, partition_append hh.rbracket, Option.getD_some,
      partition_port, hport]
  · have hbr : '[' ∉ hostPort h o := fun hm => by
      rcases mem_hostPort hm with h | ⟨-, h⟩ | ⟨h, -⟩ | h | h
      · exact hc (hh.lbracket h)
      · exact hc h
      · cases h
      · cases h
      · simp at h
    have hsplit : partition ':' (hostPort h o) = (h, o.map natStr) := by
      rw [hh.hostPort_eq, if_neg hc, partition_append_left hc]
      cases o <;> simp [partition]
    simp only [partition_of_not_mem hbr, hsplit, hport]

theorem checkNetloc_hostPort (hh : IsHost h) (o : Option Nat) :
    checkNetloc (hostPort h o) = .ok () := by
  have hl : '[' ∈ hostPort h o ↔ ':' ∈ h := by
    constructor
    · intro hm
      rcases mem_hostPort hm with h | ⟨-, h⟩ | ⟨h, -⟩ | h | h
      · exact hh.lbracket h
      · exact h
      · cases h
      · cases h
      · simp at h
    · intro hc; rw [hh.hostPort_eq, if_pos hc]; simp
  have hr : ']' ∈ hostPort h o ↔ ':' ∈ h := by
    constructor
    · intro hm
      rcases mem_hostPort hm with h | ⟨h, -⟩ | ⟨-, h⟩ | h | h
      · exact absurd h hh.rbracket
      · cases h
      · exact h
      · cases h
      · simp at h
    · intro hc; rw [hh.hostPort_eq, if_pos hc]; simp
  have huser : '@' ∉ hostPort h o := fun hm =>
    forall_hostPort (P := (· ≠ '@')) (fun c hc => by rintro rfl; exact hh.user hc) (by decide)
      (by decide) (by decide) (fun c hd => by rintro rfl; simp at hd) o '@' hm rfl
  refine checkNetloc_eq_ok_iff.2 ⟨hl.trans hr.symm, fun hm => ?_, ?_⟩
  · have hc := hl.1 hm
    have heq : hostPort h o = '[' :: (h ++ ']' :: (o.map fun n => ':' :: natStr n).getD []) := by
      rw [hh.hostPort_eq, if_pos hc]; simp
    unfold bracketedNetlocOk
    rw [rpartition_of_not_mem huser]
    simp only [heq, partition, if_true, partition_append hh.rbracket, hh.colon hc]
    cases o <;> simp
  · exact forall_hostPort hh.nfkc (by decide) (by decide) (by decide) (fun c hd => by
      have := isDigit_iff.1 hd
      exact not_isNfkcDelim_of_isAscii (by simp only [isAscii, decide_eq_true_eq]; omega)) o

end IsHost

section Rewrite
variable {p : ParseResult} {h : Str} {o : Option Nat}

/-- The URL with its network location reduced to host and port. -/
def ParseResult.withHostPort (p : ParseResult) (h : Str) (o : Option Nat) : ParseResult :=
  { p with netloc := hostPort h o }

omit [UnicodeData] in
theorem port_le {o : Option Nat} (hp : p.port = .ok o) : ∀ n ∈ o, n ≤ 65535 := fun n hn => by
  unfold ParseResult.port at hp
  split at hp
  · cases hp; cases hn
  · split at hp
    · split at hp
      · cases hp
        simp only [Option.mem_def, Option.some.injEq] at hn
        omega
      · cases hp
    · cases hp

/-- A network location with a host or a port is not empty. -/
theorem netloc_ne_nil (h : p.hostname ≠ none ∨ p.port ≠ .ok none) : p.netloc ≠ [] := fun hn => by
  simp [ParseResult.hostname, ParseResult.port, hn, hostinfo, rpartition, partition] at h

theorem Shaped.withHostPort (hp : Shaped p) (hn : hostPort h o ≠ [] → p.netloc ≠ [])
    (hh : HostText h) : Shaped (p.withHostPort h o) where
  scheme := hp.scheme
  netloc := forall_hostPort hh.ends rfl rfl rfl (fun c hd => by
    simp only [isNetlocEnd, Bool.or_eq_false_iff, decide_eq_false_iff_not]
    refine ⟨⟨?_, ?_⟩, ?_⟩ <;> rintro rfl <;> simp at hd) o
  path := hp.path
  slash := fun hne => hp.slash (hn hne)
  params := hp.params
  query := hp.query
  breaks := by
    have hb := hp.breaks
    simp only [noBreaks_append, ParseResult.withHostPort] at hb ⊢
    exact ⟨⟨⟨forall_hostPort hh.breaks (by decide) (by decide) (by decide) (fun c hd => by
      refine ⟨?_, ?_, ?_⟩ <;> rintro rfl <;> simp at hd) o, hb.1.1.2⟩, hb.1.2⟩, hb.2⟩

@[simp] theorem hostname_withHostPort (hh : IsHost h) :
    (p.withHostPort h o).hostname = if h = [] then none else some h := by
  simp [ParseResult.hostname, ParseResult.withHostPort, hh.hostinfo_hostPort, hh.lower]

@[simp] theorem port_withHostPort (hh : IsHost h) (ho : ∀ n ∈ o, n ≤ 65535) :
    (p.withHostPort h o).port = .ok o := by
  simp only [ParseResult.port, ParseResult.withHostPort, hh.hostinfo_hostPort]
  cases o with
  | none => rfl
  | some n =>
    have hall : (natStr n).all Char.isDigit := by
      simpa using fun c hc => isDigit_of_mem_natStr hc
    simp [hall, ho n rfl]

end Rewrite

end HostPort

/-! ### A network location with a user -/

section Netloc
variable {info netloc : Str}

theorem hostinfo_user (h : '@' ∉ netloc) : hostinfo (info ++ '@' :: netloc) = hostinfo netloc := by
  unfold hostinfo
  rw [rpartition_append h, rpartition_of_not_mem h]

theorem bracketedNetlocOk_user (h : '@' ∉ netloc) :
    bracketedNetlocOk (info ++ '@' :: netloc) = bracketedNetlocOk netloc := by
  unfold bracketedNetlocOk
  rw [rpartition_append h, rpartition_of_not_mem h]

/-- The user must not bring a bracket or a delimiter of its own. -/
theorem checkNetloc_user (h : '@' ∉ netloc) (hl : '[' ∉ info) (hr : ']' ∉ info)
    (hn : ∀ c ∈ info, isNfkcDelim c = false) (hok : checkNetloc netloc = .ok ()) :
    checkNetloc (info ++ '@' :: netloc) = .ok () := by
  obtain ⟨hbr, hb, hc⟩ := checkNetloc_eq_ok_iff.1 hok
  have hmem : ∀ d : Char, d ∉ info → d ≠ '@' → (d ∈ info ++ '@' :: netloc ↔ d ∈ netloc) := by
    intro d hd hne
    simp [hd, hne]
  refine checkNetloc_eq_ok_iff.2 ⟨?_, fun hm => ?_, fun c hm => ?_⟩
  · rw [hmem '[' hl (by decide), hmem ']' hr (by decide), hbr]
  · rw [bracketedNetlocOk_user h]
    exact hb ((hmem '[' hl (by decide)).1 hm)
  · rcases List.mem_append.1 hm with hm | hm
    · exact hn c hm
    · rcases List.mem_cons.1 hm with rfl | hm
      · decide
      · exact hc c hm

end Netloc

end Py
end OpenBmc
