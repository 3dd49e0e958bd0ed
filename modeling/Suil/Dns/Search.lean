import Suil.Dns.Labels
import Mathlib.Data.List.GetD

/-! The search list of the resolver: `dns_resconf_search` goes through the full names that a name
may stand for, one with each call. -/
namespace Suil.Dns

/-- `search` up to its NULs, and `options.ndots`. -/
structure DnsResolvConf where
  search : List (List UInt8)
  ndots : ℕ
  search_length : search.length = 4

/-- The buffer and the length of the name with a dot at its end. -/
def dnsDAnchor (dst : Bytes) (lim : ℕ) (src : List UInt8) : Bytes × ℕ :=
  if src = [] then (dst, 0)
  else
    let dst := putAll dst lim 0 src
    let r :=
      if src.getLast? ≠ some '.'.toUInt8 then
        (put dst lim src.length '.'.toUInt8, src.length + 1)
      else (dst, src.length)
    (terminate r.1 lim r.2, r.2)

/-- `*state` as a call leaves it: the stage, the place in the search list and the dots of the
name. -/
def packed (stage srchi ndots : ℕ) : ℕ :=
  (0xff &&& stage) <<< 0 ||| (0xff &&& srchi) <<< 8 ||| (0xff &&& ndots) <<< 16

section Search
variable (dst : Bytes) (lim : ℕ) (qname : List UInt8) (conf : DnsResolvConf)

/-- What is behind the `switch`: the buffer, the length of the name and `*state`. -/
def searched (r : Bytes × ℕ) (state srchi ndots : ℕ) : Bytes × ℕ × ℕ :=
  (terminate r.1 lim r.2, r.2, packed state srchi ndots)

/-- From case 2 on. -/
def searchLast (state srchi ndots : ℕ) : Bytes × ℕ × ℕ :=
  if ndots < conf.ndots then searched lim (dnsDAnchor dst lim qname) (state + 1) srchi ndots
  else searched lim (dst, 0) (state + 1) srchi ndots

/-- From case 1 on. -/
def searchNext (state srchi ndots : ℕ) : Bytes × ℕ × ℕ :=
  let name := conf.search.getD srchi []
  if name ≠ [] then
    let dst := putAll dst lim 0 qname
    let r := dnsDAnchor dst lim (bytesAt dst 0 qname.length)
    searched lim (putAll r.1 lim r.2 name, r.2 + name.length) state (srchi + 1) ndots
  else searchLast dst lim qname conf (state + 1) srchi ndots

def dnsResconfSearch (state : ℕ) : Bytes × ℕ × ℕ :=
  let srchi := 0xff &&& state >>> 8
  let ndots := 0xff &&& state >>> 16
  match 0xff &&& state with
  | 0 =>
    let ndots := ndots + qname.count '.'.toUInt8
    if ndots ≥ conf.ndots then searched lim (dnsDAnchor dst lim qname) (state + 1) srchi ndots
    else searchNext dst lim qname conf (state + 1) srchi ndots
  | 1 => searchNext dst lim qname conf state srchi ndots
  | 2 => searchLast dst lim qname conf state srchi ndots
  | _ => searched lim (dst, 0) state srchi ndots

end Search

/-- The names of at most `n` calls, up to the first one that has none. -/
def searchNames (lim : ℕ) (qname : List UInt8) (conf : DnsResolvConf) :
    ℕ → Bytes → ℕ → List (List UInt8)
  | 0, _, _ => []
  | n + 1, dst, state =>
    let r := dnsResconfSearch dst lim qname conf state
    if r.2.1 = 0 then [] else bytesAt r.1 0 r.2.1 :: searchNames lim qname conf n r.1 r.2.2

/-- A name with a dot at its end. -/
def anchored (name : List UInt8) : List UInt8 :=
  if name.getLast? ≠ some '.'.toUInt8 then name ++ ['.'.toUInt8] else name

/-- The name in the domains from one on, and at last by itself if it has few dots. -/
def remaining (qname : List UInt8) (conf : DnsResolvConf) (srchi : ℕ) : List (List UInt8) :=
  ((conf.search.drop srchi).takeWhile (· ≠ [])).map (anchored qname ++ ·) ++
    if qname.count '.'.toUInt8 < conf.ndots then [anchored qname] else []

/-- The full names that a name may stand for: a name with enough dots is tried by itself first. -/
def candidates (qname : List UInt8) (conf : DnsResolvConf) : List (List UInt8) :=
  (if qname.count '.'.toUInt8 ≥ conf.ndots then [anchored qname] else []) ++ remaining qname conf 0

variable {dst : Bytes} {lim n srchi ndots stage : ℕ} {qname name : List UInt8}
  {conf : DnsResolvConf}

theorem low_byte (m : ℕ) : 0xff &&& m = m % 256 := by
  rw [Nat.and_comm, Nat.and_two_pow_sub_one_eq_mod m 8]

theorem packed_eq (hstage : stage < 256) (hsrchi : srchi < 256) (hndots : ndots < 256) :
    packed stage srchi ndots = stage + srchi * 256 + ndots * 65536 := by
  have hlow {m : ℕ} (hm : m < 256) : 0xff &&& m = m := (low_byte m).trans (Nat.mod_eq_of_lt hm)
  have hshifted : srchi <<< 8 + stage < 2 ^ 16 := by rw [Nat.shiftLeft_eq]; omega
  rw [packed, hlow hstage, hlow hsrchi, hlow hndots, Nat.shiftLeft_zero, Nat.or_comm stage,
    ← Nat.shiftLeft_add_eq_or_of_lt (b := stage) (i := 8) hstage, Nat.or_comm,
    ← Nat.shiftLeft_add_eq_or_of_lt hshifted, Nat.shiftLeft_eq, Nat.shiftLeft_eq]
  omega

theorem unpack (hstage : stage < 256) (hsrchi : srchi < 256) (hndots : ndots < 256) :
    0xff &&& packed stage srchi ndots = stage ∧
    0xff &&& packed stage srchi ndots >>> 8 = srchi ∧
    0xff &&& packed stage srchi ndots >>> 16 = ndots := by
  rw [packed_eq hstage hsrchi hndots, low_byte, low_byte, low_byte, Nat.shiftRight_eq_div_pow,
    Nat.shiftRight_eq_div_pow]
  omega

theorem dnsDAnchor_eq (h : name ≠ []) : dnsDAnchor dst lim name =
    (terminate (putAll dst lim 0 (anchored name)) lim (anchored name).length,
      (anchored name).length) := by
  rw [dnsDAnchor, if_neg h, anchored]
  split
  next =>
    rw [putAll_append, List.length_append, Nat.zero_add]
    rfl
  next => rfl

theorem terminate_of_lt {i : ℕ} (h : i < lim) : terminate dst lim i = Function.update dst i 0 := by
  rw [terminate, if_pos (by omega), Nat.min_eq_left (by omega)]

theorem bytesAt_terminate (h : n < lim) : bytesAt (terminate dst lim n) 0 n = bytesAt dst 0 n := by
  rw [terminate_of_lt h]
  refine bytesAt_congr fun k hk => ?_
  exact Function.update_of_ne (by omega) _ _

theorem bytesAt_putAll_front {bs : List UInt8} :
    bytesAt (putAll dst lim n bs) 0 n = bytesAt dst 0 n :=
  bytesAt_congr fun k hk => putAll_of_lt (by omega)

theorem length_le_anchored (name : List UInt8) : name.length ≤ (anchored name).length := by
  unfold anchored
  split
  next => rw [List.length_append]; exact Nat.le_add_right _ _
  next => exact Nat.le_refl _

theorem anchored_length_ne_zero (h : name ≠ []) : (anchored name).length ≠ 0 := by
  have hpos := List.length_pos_iff.mpr h
  have hle := length_le_anchored name
  omega

theorem packed_low {state : ℕ} (stage : ℕ) (h : state % 256 = stage) :
    packed state srchi ndots = packed stage srchi ndots := by
  rw [packed, packed, low_byte state, low_byte stage, ← h, Nat.mod_mod]

/-- A call that ends with the name by itself. -/
theorem searched_anchored (dst : Bytes) (state srchi ndots : ℕ) (h : name ≠ [])
    (hlim : (anchored name).length < lim) :
    (searched lim (dnsDAnchor dst lim name) state srchi ndots).2 =
      ((anchored name).length, packed state srchi ndots) ∧
    bytesAt (searched lim (dnsDAnchor dst lim name) state srchi ndots).1 0 (anchored name).length =
      anchored name := by
  rw [dnsDAnchor_eq h]
  refine ⟨rfl, ?_⟩
  rw [searched, bytesAt_terminate hlim, bytesAt_terminate hlim, bytesAt_putAll (by omega)]

/-- A call that ends with the name in a domain. -/
theorem searchNext_domain (dst : Bytes) (state ndots : ℕ) (h : qname ≠ [])
    (hname : conf.search.getD srchi [] ≠ [])
    (hlim : (anchored qname ++ conf.search.getD srchi []).length < lim) :
    (searchNext dst lim qname conf state srchi ndots).2 =
      ((anchored qname ++ conf.search.getD srchi []).length, packed state (srchi + 1) ndots) ∧
    bytesAt (searchNext dst lim qname conf state srchi ndots).1 0
        (anchored qname ++ conf.search.getD srchi []).length =
      anchored qname ++ conf.search.getD srchi [] := by
  have hlength := length_le_anchored qname
  rw [List.length_append] at hlim
  have hcopied : bytesAt (putAll dst lim 0 qname) 0 qname.length = qname :=
    bytesAt_putAll (by omega)
  rw [searchNext]
  simp only [if_pos hname, hcopied, dnsDAnchor_eq h]
  rw [List.length_append]
  refine ⟨rfl, ?_⟩
  rw [searched]
  dsimp only
  rw [bytesAt_terminate hlim, bytesAt_add, Nat.zero_add, bytesAt_putAll (by omega),
    bytesAt_putAll_front, bytesAt_terminate (by omega), bytesAt_putAll (by omega)]

theorem remaining_cons (qname : List UInt8) (hname : conf.search.getD srchi [] ≠ []) : srchi < 4 ∧
    remaining qname conf srchi =
      (anchored qname ++ conf.search.getD srchi []) :: remaining qname conf (srchi + 1) := by
  have hlt : srchi < conf.search.length := by
    by_contra hge
    exact hname (List.getD_eq_default _ _ (Nat.not_lt.mp hge))
  rw [List.getD_eq_getElem _ _ hlt] at hname ⊢
  refine ⟨conf.search_length ▸ hlt, ?_⟩
  rw [remaining, remaining, List.drop_eq_getElem_cons hlt,
    List.takeWhile_cons_of_pos (by simpa using hname), List.map_cons, List.cons_append]

theorem remaining_last (hname : conf.search.getD srchi [] = []) : remaining qname conf srchi =
    if qname.count '.'.toUInt8 < conf.ndots then [anchored qname] else [] := by
  have hnil : (conf.search.drop srchi).takeWhile (· ≠ []) = [] := by
    by_cases hlt : srchi < conf.search.length
    · rw [List.getD_eq_getElem _ _ hlt] at hname
      rw [List.drop_eq_getElem_cons hlt, List.takeWhile_cons_of_neg (by simpa using hname)]
    · rw [List.drop_eq_nil_of_le (Nat.not_lt.mp hlt), List.takeWhile_nil]
  rw [remaining, hnil]
  rfl

theorem searchNames_done (hsrchi : srchi < 256) (hndots : ndots < 256) :
    searchNames lim qname conf n dst (packed 3 srchi ndots) = [] := by
  cases n with
  | zero => rfl
  | succ n =>
    have hcall : (dnsResconfSearch dst lim qname conf (packed 3 srchi ndots)).2.1 = 0 := by
      rw [dnsResconfSearch, (unpack (by decide) hsrchi hndots).1]
      rfl
    rw [searchNames]
    exact if_pos hcall

/-- The rest of the names after a call that is in stage 1. -/
theorem searchNext_names {state : ℕ} (h : qname ≠ []) (hstate : state % 256 = 1)
    (hsrchi : srchi ≤ 4) (hdots : qname.count '.'.toUInt8 < 256)
    (hfits : ∀ name ∈ remaining qname conf srchi, name.length < lim)
    (ih : ∀ dst, srchi + 1 ≤ 4 → (∀ name ∈ remaining qname conf (srchi + 1), name.length < lim) →
      searchNames lim qname conf n dst (packed 1 (srchi + 1) (qname.count '.'.toUInt8)) =
        (remaining qname conf (srchi + 1)).take n) :
    let r := searchNext dst lim qname conf state srchi (qname.count '.'.toUInt8)
    (if r.2.1 = 0 then [] else bytesAt r.1 0 r.2.1 :: searchNames lim qname conf n r.1 r.2.2) =
      (remaining qname conf srchi).take (n + 1) := by
  intro r
  have hlength_ne := anchored_length_ne_zero h
  by_cases hname : conf.search.getD srchi [] = []
  · rw [remaining_last hname] at hfits ⊢
    have hlast : r = searchLast dst lim qname conf (state + 1) srchi (qname.count '.'.toUInt8) :=
      if_neg (not_not.mpr hname)
    by_cases hfew : qname.count '.'.toUInt8 < conf.ndots
    · rw [if_pos hfew] at hfits ⊢
      obtain ⟨hlength, htext⟩ := searched_anchored dst (state + 1 + 1) srchi
        (qname.count '.'.toUInt8) h (hfits _ (List.mem_singleton_self _))
      have hr : r = searched lim (dnsDAnchor dst lim qname) (state + 1 + 1) srchi
          (qname.count '.'.toUInt8) := hlast.trans (if_pos hfew)
      rw [hr, hlength, if_neg hlength_ne, htext, packed_low 3 (by omega),
        searchNames_done (by omega) hdots]
      exact (List.take_of_length_le (Nat.succ_le_succ (Nat.zero_le n))).symm
    · have hr : r.2.1 = 0 := by rw [hlast, searchLast, if_neg hfew]; rfl
      rw [if_pos hr, if_neg hfew]
      rfl
  · obtain ⟨hlt, hcons⟩ := remaining_cons qname hname
    rw [hcons] at hfits ⊢
    obtain ⟨hlength, htext⟩ := searchNext_domain dst state
      (qname.count '.'.toUInt8) h hname (hfits _ List.mem_cons_self)
    have hnonzero : (anchored qname ++ conf.search.getD srchi []).length ≠ 0 := by
      rw [List.length_append]
      omega
    change (if r.2.1 = 0 then [] else _) = _
    rw [hlength, if_neg hnonzero, htext, packed_low 1 hstate,
      ih _ hlt fun name hmem => hfits name (List.mem_cons_of_mem _ hmem), List.take_succ_cons]

theorem searchNames_remaining (h : qname ≠ []) (hsrchi : srchi ≤ 4)
    (hdots : qname.count '.'.toUInt8 < 256)
    (hfits : ∀ name ∈ remaining qname conf srchi, name.length < lim) :
    searchNames lim qname conf n dst (packed 1 srchi (qname.count '.'.toUInt8)) =
      (remaining qname conf srchi).take n := by
  induction n generalizing dst srchi with
  | zero => rfl
  | succ n ih =>
    have hsmall : srchi < 256 := by omega
    obtain ⟨hstage, hplace, hcount⟩ := unpack (show 1 < 256 by decide) hsmall hdots
    have hcall : dnsResconfSearch dst lim qname conf
        (packed 1 srchi (qname.count '.'.toUInt8)) = searchNext dst lim qname conf
          (packed 1 srchi (qname.count '.'.toUInt8)) srchi (qname.count '.'.toUInt8) := by
      rw [dnsResconfSearch]
      simp only [hstage, hplace, hcount]
    have hlow : packed 1 srchi (qname.count '.'.toUInt8) % 256 = 1 := (low_byte _).symm.trans hstage
    rw [searchNames, hcall]
    exact searchNext_names h hlow hsrchi hdots hfits fun _ hnext hrest => ih hnext hrest

/-- Whatever the buffer holds, the calls give the full names of a name one after the other, as long
as the number of its dots fits `*state`. -/
theorem searchNames_candidates (h : qname ≠ []) (hdots : qname.count '.'.toUInt8 < 256)
    (hfits : ∀ name ∈ candidates qname conf, name.length < lim) (n : ℕ) (dst : Bytes) :
    searchNames lim qname conf n dst 0 = (candidates qname conf).take n := by
  cases n with
  | zero => rfl
  | succ n =>
    have hcall : dnsResconfSearch dst lim qname conf 0 =
        if qname.count '.'.toUInt8 ≥ conf.ndots then
          searched lim (dnsDAnchor dst lim qname) 1 0 (qname.count '.'.toUInt8)
        else searchNext dst lim qname conf 1 0 (qname.count '.'.toUInt8) := by
      rw [dnsResconfSearch]
      simp
    rw [searchNames, hcall]
    by_cases hmany : qname.count '.'.toUInt8 ≥ conf.ndots
    · have hall : candidates qname conf = anchored qname :: remaining qname conf 0 := by
        rw [candidates, if_pos hmany]
        rfl
      rw [hall] at hfits ⊢
      obtain ⟨hlength, htext⟩ := searched_anchored dst 1 0
        (qname.count '.'.toUInt8) h (hfits _ List.mem_cons_self)
      rw [if_pos hmany, hlength, if_neg (anchored_length_ne_zero h), htext, List.take_succ_cons,
        searchNames_remaining h (Nat.zero_le 4) hdots fun name hmem =>
          hfits name (List.mem_cons_of_mem _ hmem)]
    · have hall : candidates qname conf = remaining qname conf 0 := by
        rw [candidates, if_neg hmany]
        rfl
      rw [hall] at hfits ⊢
      rw [if_neg hmany]
      exact searchNext_names h rfl (Nat.zero_le 4) hdots hfits fun _ hnext hrest =>
        searchNames_remaining h hnext hdots hrest

/-- One domain, and one dot that makes a name be tried by itself first. -/
def oneDomain : DnsResolvConf where
  search := [[0x61, 0x2e], [], [], []]
  ndots := 1
  search_length := rfl

theorem searchNames_candidates_oneDomain :
    candidates [0x77] oneDomain = [[0x77, 0x2e, 0x61, 0x2e], [0x77, 0x2e]] ∧
    ∀ n dst, searchNames 256 [0x77] oneDomain n dst 0 = (candidates [0x77] oneDomain).take n := by
  have hall : candidates [0x77] oneDomain = [[0x77, 0x2e, 0x61, 0x2e], [0x77, 0x2e]] := by decide
  refine ⟨hall, fun n dst => searchNames_candidates (by decide) (by decide) ?_ n dst⟩
  rw [hall]
  decide

end Suil.Dns
