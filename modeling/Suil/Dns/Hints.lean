import Suil.Dns.Iterator
import Suil.Dns.Comp

/-! The nameservers of a zone: `dns_hints_insert`, and the iterator of `dns_hints_grep`, which goes
through them by priority and in a shuffled order where the priority is the same. -/
namespace Suil.Dns
open CText (strcaseeq strcaseeq_iff strcaseeq_congr)

variable {α : Type*}

/-- A name that fits `zone` with its NUL. -/
abbrev Zone := { name : List UInt8 // name.length ≤ 255 }

/-- An element of `addrs`; what an address is, no function asks. -/
structure Nameserver (α : Type*) where
  ss : α
  priority : UInt32

/-- The first `count` elements of `addrs`. -/
structure DnsHintsSoa (α : Type*) where
  zone : Zone
  addrs : List (Nameserver α)
  addrs_le : addrs.length ≤ 16

def DnsHintsSoa.count (soa : DnsHintsSoa α) : ℕ := soa.addrs.length

/-- The list from `head` on. -/
abbrev DnsHints (α : Type*) := List (DnsHintsSoa α)

def dnsHintsFetch (H : DnsHints α) (zone : Zone) : Option (DnsHintsSoa α) :=
  H.find? fun soa => strcaseeq zone.1 soa.zone.1

/-- Where an address goes; `count` stays where it is once the array is full. -/
def place (addrs : List (Nameserver α)) (addr : Nameserver α) : List (Nameserver α) :=
  if addrs.length < 16 then addrs ++ [addr] else addrs.set (addrs.length % 16) addr

theorem length_place {addrs : List (Nameserver α)} (h : addrs.length ≤ 16) (addr : Nameserver α) :
    (place addrs addr).length ≤ 16 := by
  unfold place
  split
  next hlt =>
    rw [List.length_append]
    exact hlt
  next => exact List.length_set.trans_le h

def DnsHintsSoa.insert (soa : DnsHintsSoa α) (addr : Nameserver α) : DnsHintsSoa α :=
  { soa with addrs := place soa.addrs addr, addrs_le := length_place soa.addrs_le addr }

/-- The zone that `dns_hints_fetch` finds is the first one of the name. -/
def insertAt (zone : Zone) (addr : Nameserver α) : DnsHints α → DnsHints α
  | [] => []
  | soa :: H =>
    if strcaseeq zone.1 soa.zone.1 then soa.insert addr :: H else soa :: insertAt zone addr H

/-- The arguments of `dns_hints_insert`, and whether there is memory for a zone. -/
structure HintsCall (α : Type*) where
  zone : Zone
  sa : α
  priority : UInt32
  malloc : Bool

def HintsCall.addr (c : HintsCall α) : Nameserver α := { ss := c.sa, priority := max 1 c.priority }

/-- No result where the source returns an error; the hints are then as they were. -/
def dnsHintsInsert (H : DnsHints α) (c : HintsCall α) : Option (DnsHints α) :=
  match dnsHintsFetch H c.zone with
  | some _ => some (insertAt c.zone c.addr H)
  | none =>
    if c.malloc then
      let soa : DnsHintsSoa α := { zone := c.zone, addrs := [], addrs_le := Nat.zero_le 16 }
      some (soa.insert c.addr :: H)
    else none

structure DnsHintsI where
  zone : Zone
  next : ℕ
  seed : UInt32

section Iterator
variable (i : DnsHintsI) (soa : DnsHintsSoa α)

def DnsHintsSoa.priority (p : ℕ) : UInt32 := (soa.addrs[p]?).elim 0 (·.priority)

/-- The difference of two `unsigned` is stored in an `int`. -/
def dnsHintsICmp (a b : ℕ) : ℤ :=
  let cmp := (soa.priority a - soa.priority b).toBitVec.toInt
  if cmp ≠ 0 then cmp
  else (dnsKShuffle16 (.ofNat a) i.seed).toNat - (dnsKShuffle16 (.ofNat b) i.seed).toNat

/-- The loop of `dns_hints_i_start`. -/
def startFrom : ℕ → List ℕ → ℕ
  | p0, [] => p0
  | p0, p :: ps => startFrom (if dnsHintsICmp i soa p p0 < 0 then p else p0) ps

def dnsHintsIStart : ℕ := startFrom i soa 0 (List.range' 1 (soa.count - 1))

/-- The second loop of `dns_hints_i_skip`. -/
def skipFrom (p0 : ℕ) : ℕ → List ℕ → ℕ
  | pZ, [] => pZ
  | pZ, p :: ps =>
    if dnsHintsICmp i soa p p0 ≤ 0 then skipFrom p0 pZ ps
    else if dnsHintsICmp i soa p pZ ≥ 0 then skipFrom p0 pZ ps
    else skipFrom p0 p ps

def dnsHintsISkip (p0 : ℕ) : ℕ :=
  match (List.range soa.count).dropWhile (dnsHintsICmp i soa · p0 ≤ 0) with
  | [] => soa.count
  | pZ :: rest => skipFrom i soa p0 pZ rest

/-- The loop of `dns_hints_grep`: the elements it returns pointers to, and where to go on. -/
def grepFrom : ℕ → ℕ → List ℕ × ℕ
  | 0, next => ([], next)
  | lim + 1, next =>
    if next < soa.count then
      let r := grepFrom lim (dnsHintsISkip i soa next)
      (next :: r.1, r.2)
    else ([], next)

end Iterator

def dnsHintsIInit (zone : Zone) (seed : UInt32) (H : DnsHints α) : DnsHintsI :=
  let i := { zone, next := 0, seed }
  match dnsHintsFetch H zone with
  | none => i
  | some soa => { i with next := dnsHintsIStart i soa }

def dnsHintsGrep (lim : ℕ) (i : DnsHintsI) (H : DnsHints α) : List (Nameserver α) × DnsHintsI :=
  match dnsHintsFetch H i.zone with
  | none => ([], i)
  | some soa =>
    let r := grepFrom i soa lim i.next
    (r.1.filterMap (soa.addrs[·]?), { i with next := r.2 })

section Insert
variable {H H' : DnsHints α} {zone zone' : Zone} {addr : Nameserver α} {c : HintsCall α}

/-- Of more than sixteen addresses the last one is kept, and the second to the sixteenth. -/
def kept (l : List (Nameserver α)) : List (Nameserver α) :=
  if l.length ≤ 16 then l else l.drop (l.length - 1) ++ (l.take 16).drop 1

theorem kept_append (l : List (Nameserver α)) (addr : Nameserver α) :
    kept (l ++ [addr]) = place (kept l) addr := by
  have hlength : (l ++ [addr]).length = l.length + 1 := List.length_append
  by_cases hlt : l.length < 16
  · have hshort : kept l = l := if_pos (Nat.le_of_lt hlt)
    rw [kept, if_pos (by omega), hshort, place, if_pos hlt]
  · have hnew : kept (l ++ [addr]) = addr :: (l.take 16).drop 1 := by
      rw [kept, if_neg (by omega), hlength, Nat.add_sub_cancel, List.drop_left,
        List.take_append_of_le_length (by omega)]
      rfl
    have hold : ∃ a, kept l = a :: (l.take 16).drop 1 := by
      by_cases hle : l.length ≤ 16
      · obtain ⟨a, rest, rfl⟩ := List.exists_cons_of_length_pos (l := l) (by omega)
        refine ⟨a, ?_⟩
        rw [kept, if_pos hle, List.take_of_length_le hle]
        rfl
      · obtain ⟨a, ha⟩ := List.length_eq_one_iff.mp
          (by rw [List.length_drop]; omega : (l.drop (l.length - 1)).length = 1)
        exact ⟨a, by rw [kept, if_neg hle, ha]; rfl⟩
    obtain ⟨a, ha⟩ := hold
    have hfull : (kept l).length = 16 := by
      rw [ha, List.length_cons, List.length_drop, List.length_take]
      omega
    rw [hnew, place, if_neg (by omega), hfull, ha]
    rfl

theorem kept_eq_foldl (l : List (Nameserver α)) : kept l = l.foldl place [] := by
  induction l using List.reverseRecOn with
  | nil => rfl
  | append_singleton l addr ih => rw [kept_append, ih, List.foldl_append]; rfl

theorem mem_of_mem_kept {l : List (Nameserver α)} (h : addr ∈ kept l) : addr ∈ l := by
  unfold kept at h
  split at h
  next => exact h
  next =>
    cases List.mem_append.mp h with
    | inl hlast => exact List.mem_of_mem_drop hlast
    | inr hfirst => exact List.mem_of_mem_take (List.mem_of_mem_drop hfirst)

/-- The nameservers that some calls give for a zone. -/
def given (calls : List (HintsCall α)) (zone : Zone) : List (Nameserver α) :=
  (calls.filter fun c => strcaseeq zone.1 c.zone.1).map HintsCall.addr

/-- What is known of a zone. -/
def addrsOf (H : DnsHints α) (zone : Zone) : List (Nameserver α) :=
  (dnsHintsFetch H zone).elim [] (·.addrs)

theorem addrsOf_cons (soa : DnsHintsSoa α) (H : DnsHints α) (zone : Zone) :
    addrsOf (soa :: H) zone =
      if strcaseeq zone.1 soa.zone.1 then soa.addrs else addrsOf H zone := by
  rw [addrsOf, dnsHintsFetch, List.find?_cons]
  cases strcaseeq zone.1 soa.zone.1 <;> rfl

theorem addrsOf_insertAt (h : (dnsHintsFetch H zone).isSome) :
    addrsOf (insertAt zone addr H) zone' =
      if strcaseeq zone'.1 zone.1 then place (addrsOf H zone') addr else addrsOf H zone' := by
  induction H with
  | nil => cases h
  | cons soa H ih =>
    by_cases hsoa : strcaseeq zone.1 soa.zone.1
    · rw [insertAt, if_pos hsoa, addrsOf_cons, addrsOf_cons, strcaseeq_congr hsoa]
      change (if strcaseeq zone'.1 soa.zone.1 then place soa.addrs addr else addrsOf H zone') = _
      split
      next => rfl
      next => rfl
    · have hrest : (dnsHintsFetch H zone).isSome := by
        rwa [dnsHintsFetch, List.find?_cons_of_neg (by exact hsoa)] at h
      rw [insertAt, if_neg hsoa, addrsOf_cons, addrsOf_cons, ih hrest]
      by_cases hsame : strcaseeq zone'.1 zone.1
      · have hother : ¬strcaseeq zone'.1 soa.zone.1 := fun hboth =>
          hsoa (strcaseeq_iff.mpr ((strcaseeq_iff.mp hsame).symm.trans (strcaseeq_iff.mp hboth)))
        rw [if_pos hsame, if_neg hother, if_neg hother, if_pos hsame]
      · rw [if_neg hsame, if_neg hsame]

theorem addrsOf_insert (h : dnsHintsInsert H c = some H') (zone : Zone) :
    addrsOf H' zone =
      if strcaseeq zone.1 c.zone.1 then place (addrsOf H zone) c.addr else addrsOf H zone := by
  rw [dnsHintsInsert] at h
  split at h
  next soa hfetch =>
    cases h
    exact addrsOf_insertAt (Option.isSome_of_eq_some hfetch)
  next hfetch =>
    obtain ⟨-, h⟩ := Option.ite_none_right_eq_some.mp h
    cases h
    rw [addrsOf_cons]
    change (if strcaseeq zone.1 c.zone.1 then place [] c.addr else addrsOf H zone) = _
    by_cases hsame : strcaseeq zone.1 c.zone.1
    · have hnone : dnsHintsFetch H zone = none := by
        refine List.find?_eq_none.mpr fun soa hsoa => ?_
        have hother := List.find?_eq_none.mp hfetch soa hsoa
        intro hboth
        exact hother
          (strcaseeq_iff.mpr ((strcaseeq_iff.mp hsame).symm.trans (strcaseeq_iff.mp hboth)))
      rw [if_pos hsame, if_pos hsame, addrsOf, hnone]
      rfl
    · rw [if_neg hsame, if_neg hsame]

theorem addrsOf_foldlM {calls : List (HintsCall α)} (h : calls.foldlM dnsHintsInsert H = some H')
    (zone : Zone) : addrsOf H' zone = (given calls zone).foldl place (addrsOf H zone) := by
  induction calls generalizing H with
  | nil =>
    cases h
    rfl
  | cons c calls ih =>
    rw [List.foldlM_cons] at h
    obtain ⟨H₁, hinsert, hrest⟩ := Option.bind_eq_some_iff.mp h
    rw [ih hrest, addrsOf_insert hinsert]
    by_cases hsame : strcaseeq zone.1 c.zone.1
    · rw [if_pos hsame, given, given, List.filter_cons, if_pos hsame]
      rfl
    · rw [if_neg hsame, given, given, List.filter_cons, if_neg hsame]

/-- What is known of a zone after any calls of `dns_hints_insert`: of more than sixteen nameservers
the first one gives way to each that comes. -/
theorem dnsHintsInsert_keeps {calls : List (HintsCall α)}
    (h : calls.foldlM dnsHintsInsert [] = some H) (zone : Zone) :
    addrsOf H zone = kept (given calls zone) :=
  (addrsOf_foldlM h zone).trans (kept_eq_foldl _).symm

end Insert

section Grep
variable {i : DnsHintsI} {soa : DnsHintsSoa α} {H : DnsHints α} {zone : Zone} {a b p p0 pZ : ℕ}

/-- The priorities are so close that their differences fit an `int`. -/
def Comparable (addrs : List (Nameserver α)) : Prop :=
  ∀ x ∈ addrs, ∀ y ∈ addrs, x.priority.toNat < y.priority.toNat + 2 ^ 31

/-- A number that compares as `dns_hints_i_cmp` does. -/
def hintsKey (i : DnsHintsI) (soa : DnsHintsSoa α) (p : ℕ) : ℕ :=
  (soa.priority p).toNat * 65536 + (dnsKShuffle16 (.ofNat p) i.seed).toNat

theorem toInt_sub_eq {x y : UInt32} (h : x.toNat < y.toNat + 2 ^ 31)
    (h' : y.toNat < x.toNat + 2 ^ 31) :
    (x - y).toBitVec.toInt = (x.toNat : ℤ) - y.toNat := by
  have hx := x.toNat_lt
  have hy := y.toNat_lt
  have hsub : (x - y).toBitVec.toNat = (2 ^ 32 - y.toNat + x.toNat) % 2 ^ 32 := UInt32.toNat_sub x y
  rw [BitVec.toInt_eq_toNat_cond, hsub]
  split
  next => omega
  next => omega

theorem DnsHintsSoa.priority_eq (ha : a < soa.count) : ∃ x ∈ soa.addrs, soa.priority a = x.priority :=
  ⟨soa.addrs[a], List.getElem_mem ha, by rw [priority, List.getElem?_eq_getElem ha]; rfl⟩

theorem Comparable.cmp (h : Comparable soa.addrs) (i : DnsHintsI) (ha : a < soa.count)
    (hb : b < soa.count) :
    (dnsHintsICmp i soa a b < 0 ↔ hintsKey i soa a < hintsKey i soa b) ∧
    (dnsHintsICmp i soa a b ≤ 0 ↔ hintsKey i soa a ≤ hintsKey i soa b) := by
  obtain ⟨x, hx, hpa⟩ := soa.priority_eq ha
  obtain ⟨y, hy, hpb⟩ := soa.priority_eq hb
  have hsub := toInt_sub_eq (h x hx y hy) (h y hy x hx)
  have halt := (dnsKShuffle16 (.ofNat a) i.seed).toNat_lt
  have hblt := (dnsKShuffle16 (.ofNat b) i.seed).toNat_lt
  simp only [dnsHintsICmp, hintsKey, hpa, hpb, hsub]
  constructor
  · split
    · omega
    · omega
  · split
    · omega
    · omega

theorem hintsKey_inj (ha : a < soa.count) (hb : b < soa.count)
    (h : hintsKey i soa a = hintsKey i soa b) : a = b := by
  have hle := soa.addrs_le
  have hcount : soa.count = soa.addrs.length := rfl
  have halt := (dnsKShuffle16 (.ofNat a) i.seed).toNat_lt
  have hblt := (dnsKShuffle16 (.ofNat b) i.seed).toNat_lt
  rw [hintsKey, hintsKey] at h
  have hshuffled : (dnsKShuffle16 (.ofNat a) i.seed).toNat =
      (dnsKShuffle16 (.ofNat b) i.seed).toNat := by omega
  have hnat := congrArg UInt16.toNat (dnsKShuffle16_injective i.seed (UInt16.toNat_inj.mp hshuffled))
  rwa [UInt16.toNat_ofNat_of_lt' (show a < 65536 by omega),
    UInt16.toNat_ofNat_of_lt' (show b < 65536 by omega)] at hnat

theorem startFrom_eq (h : Comparable soa.addrs) {ps : List ℕ} (hp : ∀ p ∈ p0 :: ps, p < soa.count) :
    startFrom i soa p0 ps = Selection.lowest (hintsKey i soa) p0 ps := by
  induction ps generalizing p0 with
  | nil => rfl
  | cons p ps ih =>
    obtain ⟨h0, hps⟩ := List.forall_mem_cons.mp hp
    obtain ⟨h1, hrest⟩ := List.forall_mem_cons.mp hps
    simp only [startFrom, Selection.lowest, (h.cmp i h1 h0).1]
    refine ih (List.forall_mem_cons.mpr ⟨?_, hrest⟩)
    split
    · exact h1
    · exact h0

theorem skipFrom_eq (h : Comparable soa.addrs) (h0 : p0 < soa.count) {ps : List ℕ}
    (hp : ∀ p ∈ pZ :: ps, p < soa.count) :
    skipFrom i soa p0 pZ ps = Selection.lowest (hintsKey i soa) pZ
      (ps.filter fun p => hintsKey i soa p0 < hintsKey i soa p) := by
  induction ps generalizing pZ with
  | nil => rfl
  | cons p ps ih =>
    obtain ⟨hZ, hps⟩ := List.forall_mem_cons.mp hp
    obtain ⟨h1, hrest⟩ := List.forall_mem_cons.mp hps
    rw [skipFrom]
    by_cases hle : dnsHintsICmp i soa p p0 ≤ 0
    · have hnot : ¬hintsKey i soa p0 < hintsKey i soa p := not_lt.mpr ((h.cmp i h1 h0).2.mp hle)
      rw [if_pos hle, List.filter_cons_of_neg (by simpa using hnot)]
      exact ih (List.forall_mem_cons.mpr ⟨hZ, hrest⟩)
    · have hgt : hintsKey i soa p0 < hintsKey i soa p :=
        not_le.mp fun hkey => hle ((h.cmp i h1 h0).2.mpr hkey)
      rw [if_neg hle, List.filter_cons_of_pos (by simpa using hgt), Selection.lowest]
      by_cases hge : dnsHintsICmp i soa p pZ ≥ 0
      · rw [if_pos hge, if_neg fun hlt => absurd ((h.cmp i h1 hZ).1.mpr hlt) (not_lt.mpr hge)]
        exact ih (List.forall_mem_cons.mpr ⟨hZ, hrest⟩)
      · rw [if_neg hge, if_pos ((h.cmp i h1 hZ).1.mp (not_le.mp hge))]
        exact ih (List.forall_mem_cons.mpr ⟨h1, hrest⟩)

theorem dnsHintsIStart_eq (h : Comparable soa.addrs) (i : DnsHintsI) : dnsHintsIStart i soa =
    (Selection.start (hintsKey i soa) (List.range soa.count)).getD soa.count := by
  rw [dnsHintsIStart]
  cases hcount : soa.count with
  | zero => rfl
  | succ n =>
    have hrange : List.range (n + 1) = 0 :: List.range' 1 n := by
      rw [List.range_eq_range', List.range'_succ]
    rw [hrange, Nat.add_sub_cancel]
    refine startFrom_eq h fun p hp => ?_
    rw [hcount]
    exact List.mem_range.mp (hrange ▸ hp)

theorem filter_of_dropWhile_nil {p : α → Bool} {l : List α} (h : l.dropWhile p = []) :
    l.filter (!p ·) = [] :=
  List.filter_eq_nil_iff.mpr fun a ha => by simpa using List.dropWhile_eq_nil_iff.mp h a ha

theorem filter_of_dropWhile_cons {p : α → Bool} {l rest : List α} {a : α}
    (h : l.dropWhile p = a :: rest) : l.filter (!p ·) = a :: rest.filter (!p ·) := by
  induction l with
  | nil => cases h
  | cons b l ih =>
    cases hp : p b with
    | true =>
      rw [List.dropWhile_cons_of_pos hp] at h
      rw [List.filter_cons_of_neg (by simp [hp]), ih h]
    | false =>
      rw [List.dropWhile_cons_of_neg (by simp [hp])] at h
      cases h
      rw [List.filter_cons_of_pos (by simp [hp])]

theorem dnsHintsISkip_eq (h : Comparable soa.addrs) (h0 : p0 < soa.count) : dnsHintsISkip i soa p0 =
    (Selection.skip (hintsKey i soa) (List.range soa.count) p0).getD soa.count := by
  have hlater : (List.range soa.count).filter (fun p => hintsKey i soa p0 < hintsKey i soa p) =
      (List.range soa.count).filter (fun p => !decide (dnsHintsICmp i soa p p0 ≤ 0)) :=
    List.filter_congr fun p hp => by
      rw [← decide_not, decide_eq_decide, (h.cmp i (List.mem_range.mp hp) h0).2, not_le]
  rw [dnsHintsISkip, Selection.skip, hlater]
  split
  next hnil =>
    rw [filter_of_dropWhile_nil hnil]
    rfl
  next pZ rest hcons =>
    have hsub : ∀ p ∈ pZ :: rest, p < soa.count := fun p hp =>
      List.mem_range.mp ((List.dropWhile_sublist _).subset (hcons ▸ hp))
    have hrest : rest.filter (fun p => !decide (dnsHintsICmp i soa p p0 ≤ 0)) =
        rest.filter fun p => hintsKey i soa p0 < hintsKey i soa p :=
      List.filter_congr fun p hp => by
        rw [← decide_not, decide_eq_decide,
          (h.cmp i (hsub p (List.mem_cons_of_mem pZ hp)) h0).2, not_le]
    rw [filter_of_dropWhile_cons hcons, hrest]
    exact skipFrom_eq h h0 hsub

theorem grepFrom_eq (h : Comparable soa.addrs) (i : DnsHintsI) (n : ℕ) {o : Option ℕ}
    (ho : ∀ r ∈ o, r < soa.count) : grepFrom i soa n (o.getD soa.count) =
      (Selection.visits (hintsKey i soa) (List.range soa.count) n o,
        (Selection.after (hintsKey i soa) (List.range soa.count) n o).getD soa.count) := by
  induction n generalizing o with
  | zero => rfl
  | succ n ih =>
    cases o with
    | none => exact if_neg (Nat.lt_irrefl soa.count)
    | some r =>
      have hr := ho r rfl
      have hnext : ∀ p ∈ Selection.skip (hintsKey i soa) (List.range soa.count) r,
          p < soa.count := fun p hp =>
        List.mem_range.mp (List.mem_filter.mp (Selection.start_eq_some hp).1).1
      rw [grepFrom, Option.getD_some, if_pos hr, dnsHintsISkip_eq h hr, ih hnext]
      rfl

section FilterMap
variable {β γ : Type*} {f : β → Option γ} {l : List β}

theorem take_filterMap (h : ∀ b ∈ l, (f b).isSome) (n : ℕ) :
    (l.filterMap f).take n = (l.take n).filterMap f := by
  induction l generalizing n with
  | nil => simp
  | cons b l ih =>
    obtain ⟨hb, hl⟩ := List.forall_mem_cons.mp h
    obtain ⟨c, hc⟩ := Option.isSome_iff_exists.mp hb
    cases n with
    | zero => rfl
    | succ n =>
      rw [List.take_succ_cons, List.filterMap_cons_some hc, List.filterMap_cons_some hc,
        List.take_succ_cons, ih hl]

theorem drop_filterMap (h : ∀ b ∈ l, (f b).isSome) (n : ℕ) :
    (l.filterMap f).drop n = (l.drop n).filterMap f := by
  induction l generalizing n with
  | nil => simp
  | cons b l ih =>
    obtain ⟨hb, hl⟩ := List.forall_mem_cons.mp h
    obtain ⟨c, hc⟩ := Option.isSome_iff_exists.mp hb
    cases n with
    | zero => rfl
    | succ n => rw [List.drop_succ_cons, List.filterMap_cons_some hc, List.drop_succ_cons, ih hl]

theorem splitLengths_filterMap (h : ∀ b ∈ l, (f b).isSome) (ns : List ℕ) :
    ns.splitLengths (l.filterMap f) = (ns.splitLengths l).map (List.filterMap f) := by
  induction ns generalizing l with
  | nil => rfl
  | cons n ns ih =>
    rw [List.splitLengths_cons, List.splitLengths_cons, take_filterMap h, drop_filterMap h,
      ih fun b hb => h b (List.mem_of_mem_drop hb)]
    rfl

end FilterMap

theorem filterMap_range (l : List (Nameserver α)) : (List.range l.length).filterMap (l[·]?) = l := by
  induction l with
  | nil => rfl
  | cons a l ih =>
    have hfirst : (fun p : ℕ => (a :: l)[p]?) 0 = some a := rfl
    rw [List.length_cons, List.range_succ_eq_map, List.filterMap_cons_some hfirst,
      List.filterMap_map]
    exact congrArg (a :: ·) ih

theorem priority_le (h : hintsKey i soa a < hintsKey i soa b) : soa.priority a ≤ soa.priority b := by
  have halt := (dnsKShuffle16 (.ofNat a) i.seed).toNat_lt
  have hblt := (dnsKShuffle16 (.ofNat b) i.seed).toNat_lt
  rw [hintsKey, hintsKey] at h
  exact UInt32.le_iff_toNat_le.mpr (by omega)

theorem dnsHintsGrep_eq {j : DnsHintsI} (h : dnsHintsFetch H j.zone = some soa) (n : ℕ) :
    dnsHintsGrep n j H = ((grepFrom j soa n j.next).1.filterMap (soa.addrs[·]?),
      { j with next := (grepFrom j soa n j.next).2 }) := by
  rw [dnsHintsGrep, h]

theorem dnsHintsGrep_of_fetch (hsoa : dnsHintsFetch H zone = some soa) (hnear : Comparable soa.addrs)
    (seed : UInt32) :
    ∃ order : List (Nameserver α), order.Perm soa.addrs ∧
      order.Pairwise (fun x y => x.priority ≤ y.priority) ∧
      ∀ lims, Selection.calls (fun lim i => some (dnsHintsGrep lim i H)) lims
        (dnsHintsIInit zone seed H) = some (lims.splitLengths order) := by
  let i : DnsHintsI := ⟨zone, dnsHintsIStart ⟨zone, 0, seed⟩ soa, seed⟩
  let at_ (o : Option ℕ) : DnsHintsI := { i with next := o.getD soa.count }
  have hstart : dnsHintsIInit zone seed H =
      at_ (Selection.start (hintsKey i soa) (List.range soa.count)) := by
    rw [dnsHintsIInit, hsoa]
    exact congrArg (fun next => DnsHintsI.mk zone next seed)
      (dnsHintsIStart_eq hnear ⟨zone, 0, seed⟩)
  have hcall (n : ℕ) (o : Option ℕ) (ho : ∀ r ∈ o, r ∈ List.range soa.count) :
      some (dnsHintsGrep n (at_ o) H) =
        some ((Selection.visits (hintsKey i soa) (List.range soa.count) n o).filterMap
          (soa.addrs[·]?), at_ (Selection.after (hintsKey i soa) (List.range soa.count) n o)) := by
    have hgrep := grepFrom_eq hnear (at_ o) n fun r hr => List.mem_range.mp (ho r hr)
    have hnext : (at_ o).next = o.getD soa.count := rfl
    rw [dnsHintsGrep_eq hsoa, hnext, hgrep]
    rfl
  have hkey : ∀ a ∈ List.range soa.count, ∀ b ∈ List.range soa.count,
      hintsKey i soa a = hintsKey i soa b → a = b := fun a ha b hb =>
    hintsKey_inj (List.mem_range.mp ha) (List.mem_range.mp hb)
  obtain ⟨idx, hperm, hsorted, hcalls⟩ := Selection.calls_divided
    (fun lim i => some (dnsHintsGrep lim i H)) at_ (List.filterMap (soa.addrs[·]?)) hcall
    List.nodup_range hkey
  have hisSome : ∀ p ∈ idx, (soa.addrs[p]?).isSome := fun p hp => by
    have hlt : p < soa.addrs.length := List.mem_range.mp (hperm.subset hp)
    rw [List.getElem?_eq_getElem hlt]
    rfl
  refine ⟨idx.filterMap (soa.addrs[·]?), ?_, ?_, fun lims => ?_⟩
  · exact (hperm.filterMap _).trans (.of_eq (filterMap_range soa.addrs))
  · refine hsorted.filterMap _ fun a b hkey x hx y hy => ?_
    have hle := priority_le hkey
    rw [DnsHintsSoa.priority, DnsHintsSoa.priority, hx, hy] at hle
    exact hle
  · rw [hstart, hcalls lims, splitLengths_filterMap hisSome]

/-- The calls of `dns_hints_grep` go through what is known of a zone, each call where the last one
has ended. -/
theorem dnsHintsGrep_divided (hnear : Comparable (addrsOf H zone)) (seed : UInt32) :
    ∃ order : List (Nameserver α), order.Perm (addrsOf H zone) ∧
      order.Pairwise (fun x y => x.priority ≤ y.priority) ∧
      ∀ lims, Selection.calls (fun lim i => some (dnsHintsGrep lim i H)) lims
        (dnsHintsIInit zone seed H) = some (lims.splitLengths order) := by
  cases hsoa : dnsHintsFetch H zone with
  | none =>
    have hnone : addrsOf H zone = [] := by rw [addrsOf, hsoa]; rfl
    have hinit : dnsHintsIInit zone seed H = ⟨zone, 0, seed⟩ := by rw [dnsHintsIInit, hsoa]
    have hgrep (n : ℕ) : dnsHintsGrep n ⟨zone, 0, seed⟩ H = ([], ⟨zone, 0, seed⟩) := by
      rw [dnsHintsGrep, hsoa]
    refine ⟨[], hnone ▸ .refl [], List.Pairwise.nil, fun lims => ?_⟩
    rw [hinit]
    induction lims with
    | nil => rfl
    | cons n lims ih =>
      rw [Selection.calls, hgrep, Option.bind_some, ih, List.splitLengths_cons, List.take_nil,
        List.drop_nil]
      rfl
  | some soa =>
    have haddrs : addrsOf H zone = soa.addrs := by rw [addrsOf, hsoa]; rfl
    rw [haddrs] at hnear ⊢
    exact dnsHintsGrep_of_fetch hsoa hnear seed

end Grep

/-- After any calls of `dns_hints_insert`, those of `dns_hints_grep`, however many and whatever
their limits, go through the nameservers that were kept for a zone once, those of the lowest
priority first. -/
theorem dnsHintsGrep_finds_inserted {calls : List (HintsCall α)} {H : DnsHints α}
    (h : calls.foldlM dnsHintsInsert [] = some H) (zone : Zone)
    (hnear : Comparable (given calls zone)) (seed : UInt32) :
    ∃ order : List (Nameserver α), order.Perm (kept (given calls zone)) ∧
      order.Pairwise (fun x y => x.priority ≤ y.priority) ∧
      ∀ lims, Selection.calls (fun lim i => some (dnsHintsGrep lim i H)) lims
        (dnsHintsIInit zone seed H) = some (lims.splitLengths order) := by
  rw [← dnsHintsInsert_keeps h zone]
  refine dnsHintsGrep_divided (fun x hx y hy => ?_) seed
  rw [dnsHintsInsert_keeps h zone] at hx hy
  exact hnear x (mem_of_mem_kept hx) y (mem_of_mem_kept hy)

/-- The root of the names. -/
def rootZone : Zone := ⟨['.'.toUInt8], Nat.le_of_ble_eq_true rfl⟩

/-- Two nameservers of the root, one of them preferred. -/
def twoHints : List (HintsCall ℕ) :=
  [{ zone := rootZone, sa := 1, priority := 20, malloc := true },
   { zone := rootZone, sa := 2, priority := 0, malloc := false }]

theorem dnsHintsGrep_finds_inserted_two : ∃ H : DnsHints ℕ, ∃ order : List (Nameserver ℕ),
    order.Perm (kept (given twoHints rootZone)) ∧
      order.Pairwise (fun x y => x.priority ≤ y.priority) ∧
      ∀ lims, Selection.calls (fun lim i => some (dnsHintsGrep lim i H)) lims
        (dnsHintsIInit rootZone 7 H) = some (lims.splitLengths order) := by
  obtain ⟨H, hH⟩ := Option.isSome_iff_exists.mp
    (by decide : (twoHints.foldlM dnsHintsInsert []).isSome)
  have hgiven : given twoHints rootZone = [⟨1, 20⟩, ⟨2, 1⟩] := rfl
  have hnear : Comparable (given twoHints rootZone) := by
    rw [hgiven]
    unfold Comparable
    decide
  exact ⟨H, dnsHintsGrep_finds_inserted hH rootZone hnear 7⟩

end Suil.Dns
