import Mathlib.Data.List.Infix
import Mathlib.Data.List.TakeWhile
import Suil.Dns.Comp
import Suil.Dns.Labels

/-! What `dns_d_comp` makes of a name: its labels, the last ones by a pointer if the loops over the
dictionary find them. -/
namespace Suil.Dns
open CText (tolower strcaseeq map_tolower_eq_of_strcaseeq)

/-- A label that can be written with dots. -/
structure IsLabel (l : List UInt8) : Prop where
  pos : 1 ≤ l.length
  le : l.length ≤ 63
  no_dot : '.'.toUInt8 ∉ l
  no_nul : 0 ∉ l

/-- The texts of a name: with a dot behind the last label or without. -/
inductive Writes : List UInt8 → List (List UInt8) → Prop
  | root : Writes ['.'.toUInt8] []
  | anchored (l : List UInt8) (ls : List (List UInt8)) : Writes (dotted (l :: ls)) (l :: ls)
  | plain (ls : List (List UInt8)) (l : List UInt8) : Writes (dotted ls ++ l) (ls ++ [l])

variable {lim len k : ℕ} {l src : List UInt8} {ls : List (List UInt8)} {s : Comp}

theorem low_six (h : len ≤ 63) : 0x3f &&& len = len := by
  have hmask : (0x3f : ℕ) = 2 ^ 6 - 1 := rfl
  rw [Nat.and_comm, hmask, Nat.and_two_pow_sub_one_eq_mod, Nat.mod_eq_of_lt (by omega)]

theorem dnsDCompFrom_label (hdot : '.'.toUInt8 ∉ l) :
    dnsDCompFrom lim (l ++ src) s = dnsDCompFrom lim src
      { s with b := putAll s.b lim s.x l, x := s.x + l.length, srcX := s.srcX + l.length } := by
  induction l generalizing s with
  | nil => rfl
  | cons ch l ih =>
    have hne : ch ≠ '.'.toUInt8 := fun heq => hdot (heq ▸ List.mem_cons_self)
    rw [List.cons_append, dnsDCompFrom, if_neg hne, ih fun hl => hdot (List.mem_cons_of_mem ch hl)]
    simp only [putAll, List.length_cons, Nat.add_assoc, Nat.add_comm 1]

/-- Where the next label starts, both in the text and in the buffer. -/
structure Fresh (s : Comp) : Prop where
  x : s.x = s.p + 1
  srcX : s.srcX = s.srcP

/-- The buffer holds `w` and nothing else matters yet. -/
def Holds (b : Bytes) (lim p : ℕ) (w : List UInt8) : Prop :=
  w.length = p ∧ (p ≤ lim → bytesAt b 0 p = w)

theorem Holds.label {b : Bytes} {p : ℕ} {w : List UInt8} (h : Holds b lim p w) :
    Holds (put (putAll b lim (p + 1) l) lim p (.ofNat l.length)) lim (p + 1 + l.length)
      (w ++ UInt8.ofNat l.length :: l) := by
  refine ⟨by rw [List.length_append, h.1, List.length_cons]; omega, fun hlim => ?_⟩
  rw [Nat.add_assoc, bytesAt_add, Nat.zero_add, Nat.add_comm 1, bytesAt_succ, put_self (by omega)]
  have hbefore : bytesAt (put (putAll b lim (p + 1) l) lim p (.ofNat l.length)) 0 p =
      bytesAt b 0 p := bytesAt_congr fun k hk => by
    rw [Nat.zero_add, put_of_ne (Nat.ne_of_lt hk), putAll_of_lt (Nat.lt_succ_of_lt hk)]
  have hlabel : bytesAt (put (putAll b lim (p + 1) l) lim p (.ofNat l.length)) (p + 1) l.length =
      bytesAt (putAll b lim (p + 1) l) (p + 1) l.length :=
    bytesAt_congr fun k _ => put_of_ne (by omega)
  rw [hbefore, h.2 (by omega), hlabel, bytesAt_putAll hlim]

/-- The first loop writes one label after the other. -/
theorem dnsDCompFrom_dotted (src : List UInt8) (hls : ∀ l ∈ ls, IsLabel l) (hs : Fresh s) {w : List UInt8}
    (hw : Holds s.b lim s.p w) : ∃ s', Fresh s' ∧ Holds s'.b lim s'.p (w ++ wireLabels ls) ∧
      dnsDCompFrom lim (dotted ls ++ src) s = dnsDCompFrom lim src s' := by
  induction ls generalizing s w with
  | nil => exact ⟨s, hs, by rwa [wireLabels, List.flatMap_nil, List.append_nil], rfl⟩
  | cons l ls ih =>
    have hl := hls l List.mem_cons_self
    let s₁ : Comp :=
      { b := put (putAll s.b lim (s.p + 1) l) lim s.p (.ofNat l.length), p := s.p + 1 + l.length,
        x := s.p + 1 + l.length + 1, srcP := s.srcP + l.length + 1, srcX := s.srcP + l.length + 1 }
    have hfirst : dnsDCompFrom lim (dotted (l :: ls) ++ src) s =
        dnsDCompFrom lim (dotted ls ++ src) s₁ := by
      rw [dotted_cons, List.append_assoc, dnsDCompFrom_label hl.no_dot, List.cons_append,
        dnsDCompFrom, if_pos rfl]
      simp only [hs.x, hs.srcX, Nat.add_sub_cancel_left, low_six hl.le, s₁]
    obtain ⟨s', hfresh, hholds, hrest⟩ := ih (fun l' hl' => hls l' (List.mem_cons_of_mem l hl'))
      (⟨rfl, rfl⟩ : Fresh s₁) hw.label
    refine ⟨s', hfresh, ?_, hfirst.trans hrest⟩
    rwa [wireLabels_cons, ← List.append_assoc]

theorem Holds.root {b : Bytes} {p : ℕ} {w : List UInt8} (h : Holds b lim p w) :
    Holds (put b lim p 0) lim (p + 1) (w ++ [0]) := by
  refine ⟨by rw [List.length_append, h.1]; rfl, fun hlim => ?_⟩
  have hbefore : bytesAt (put b lim p 0) 0 p = bytesAt b 0 p := bytesAt_congr fun k hk => by
    rw [Nat.zero_add, put_of_ne (Nat.ne_of_lt hk)]
  rw [bytesAt_add, hbefore, h.2 (by omega), Nat.zero_add, bytesAt_succ, put_self hlim]
  rfl

theorem dnsDCompLast_of_eq (hs : s.srcX = s.srcP) (hp : 1 < s.p) :
    dnsDCompLast lim s = (put s.b lim s.p 0, s.p + 1) := by
  simp only [dnsDCompLast, hs, gt_iff_lt, Nat.lt_irrefl, hp, reduceIte]

theorem dnsDCompLast_of_lt (hs : s.srcP < s.srcX) (hx : 1 < s.x) :
    dnsDCompLast lim s =
      (put (put s.b lim s.p (.ofNat (0x3f &&& (s.srcX - s.srcP)))) lim s.x 0, s.x + 1) := by
  simp only [dnsDCompLast, hs, gt_iff_lt, hx, reduceIte]

/-- Before the dictionary is asked, the name stands in the buffer, label by label. -/
theorem dnsDCompLast_eq (lim : ℕ) (hw : Writes src ls) (hls : ∀ l ∈ ls, IsLabel l) (dst : Bytes) :
    ∃ b, dnsDCompLast lim (dnsDCompFrom lim src { b := dst, p := 0, x := 1, srcP := 0, srcX := 0 }) =
        (b, (wireLabels ls).length + 1) ∧
      Holds b lim ((wireLabels ls).length + 1) (wireLabels ls ++ [0]) := by
  let s₀ : Comp := { b := dst, p := 0, x := 1, srcP := 0, srcX := 0 }
  have hfresh₀ : Fresh s₀ := ⟨rfl, rfl⟩
  have hholds₀ : Holds s₀.b lim s₀.p [] := ⟨rfl, fun _ => rfl⟩
  cases hw with
  | root =>
    refine ⟨put dst lim 0 0, ?_, hholds₀.root⟩
    simp [dnsDCompFrom, dnsDCompLast, wireLabels]
  | anchored l ls =>
    obtain ⟨s', hfresh, hholds, hrun⟩ := dnsDCompFrom_dotted [] hls hfresh₀ hholds₀
    rw [List.append_nil] at hrun
    rw [List.nil_append] at hholds
    have hpos := (hls l List.mem_cons_self).pos
    have hlength := hholds.1
    have hp : 1 < s'.p := by
      rw [wireLabels_cons, List.length_append, List.length_cons] at hlength
      omega
    refine ⟨put s'.b lim s'.p 0, ?_, hlength ▸ hholds.root⟩
    rw [hrun, dnsDCompFrom, dnsDCompLast_of_eq hfresh.srcX hp, hlength]
  | plain ls l =>
    obtain ⟨s', hfresh, hholds, hrun⟩ := dnsDCompFrom_dotted l
      (fun l' hl' => hls l' (List.mem_append_left _ hl')) hfresh₀ hholds₀
    rw [List.nil_append] at hholds
    have hl := hls l (List.mem_append_right _ List.mem_cons_self)
    have hpos := hl.pos
    have hwire : wireLabels (ls ++ [l]) = wireLabels ls ++ UInt8.ofNat l.length :: l := by
      rw [wireLabels, List.flatMap_append, List.flatMap_singleton]
      rfl
    have hlast : dnsDCompFrom lim l s' =
        { s' with b := putAll s'.b lim s'.x l, x := s'.x + l.length, srcX := s'.srcX + l.length } := by
      conv_lhs => rw [← List.append_nil l]
      rw [dnsDCompFrom_label hl.no_dot, dnsDCompFrom]
    have hlabel : Holds _ lim _ (wireLabels (ls ++ [l])) := hwire ▸ hholds.label
    refine ⟨_, ?_, hlabel.1 ▸ hlabel.root⟩
    rw [hrun, hlast, dnsDCompLast_of_lt (by simp only [hfresh.srcX]; omega)
      (by simp only [hfresh.x]; omega), hlabel.1]
    simp only [hfresh.x, hfresh.srcX, Nat.add_sub_cancel_left, low_six hl.le]

/-- A name up to letter case. -/
def lower (ls : List (List UInt8)) : List (List UInt8) := ls.map (·.map tolower)

theorem lower_cons : lower (l :: ls) = l.map tolower :: lower ls := rfl

section Match
variable {dst : Bytes} {P : DnsPacket} {own : ℕ → Prop} {d c ay ax bp : ℕ} {a b : List UInt8}
  {as bs : List (List UInt8)} {fuel n : ℕ}

theorem matchFrom_stop {x y : List UInt8 × ℕ} (h : ¬ (x.1 ≠ [] ∧ y.1 ≠ [] ∧ strcaseeq x.1 y.1)) :
    matchFrom dst lim P (fuel + 1) x y = some (x.1, y.1) := by
  rw [matchFrom, if_neg h]

theorem matchFrom_go {x y : List UInt8 × ℕ} (h : x.1 ≠ [] ∧ y.1 ≠ [] ∧ strcaseeq x.1 y.1) :
    matchFrom dst lim P (fuel + 1) x y =
      matchFrom dst lim P fuel (dnsLExpand dst lim x.2) (dnsLExpand P.data P.end_ y.2) := by
  rw [matchFrom, if_pos h]

/-- Both names run out of labels together only if they are the same. Otherwise `a.label` is one of
the labels that were compared. -/
theorem matchFrom_spec {by_ : ℕ} (has : Spells dst (· < lim) 0 0 ay as)
    (hbs : Spells P.data own d d by_ bs) (hown : ∀ q, own q → q < P.end_) (hd : d ≤ 127)
    (ha : a ≠ []) (hb : b ≠ []) (haz : ∀ l ∈ a :: as, 0 ∉ l) (hbz : ∀ l ∈ b :: bs, 0 ∉ l)
    (hfuel : as.length + 2 ≤ fuel) :
    ∃ r t, matchFrom dst lim P fuel (a, ay) (b, by_) = some (r, t) ∧ (r = [] ∨ r ∈ a :: as) ∧
      (r = [] → t = [] → lower (a :: as) = lower (b :: bs)) := by
  induction as generalizing a b bs ay by_ fuel with
  | nil =>
    obtain ⟨fuel, rfl⟩ := Nat.exists_eq_add_of_le' hfuel
    cases hsame : strcaseeq a b with
    | false =>
      exact ⟨a, b, matchFrom_stop (by simp [hsame]), .inr List.mem_cons_self,
        fun hnil => absurd hnil ha⟩
    | true =>
      have hanil := has.dnsLExpand_nil (fun _ => id) (Nat.zero_le 127)
      refine ⟨_, _, (matchFrom_go ⟨ha, hb, hsame⟩).trans (matchFrom_stop fun h => h.1 hanil),
        .inl hanil, fun _ hbnil => ?_⟩
      cases bs with
      | nil =>
        have heq := map_tolower_eq_of_strcaseeq hsame (haz a List.mem_cons_self)
          (hbz b List.mem_cons_self)
        rw [lower_cons, heq, ← lower_cons]
      | cons b' bs =>
        obtain ⟨q, hexpand, _⟩ := hbs.dnsLExpand_cons hown hd
        rw [dnsLExpand, hexpand] at hbnil
        exact absurd hbnil (hbs.ne_nil b' List.mem_cons_self)
  | cons a' as ih =>
    obtain ⟨fuel, rfl⟩ := Nat.exists_eq_add_of_le' (by omega : 1 ≤ fuel)
    cases hsame : strcaseeq a b with
    | false =>
      exact ⟨a, b, matchFrom_stop (by simp [hsame]), .inr List.mem_cons_self,
        fun hnil => absurd hnil ha⟩
    | true =>
      have hfuel' : as.length + 2 ≤ fuel := by
        rw [List.length_cons] at hfuel
        omega
      obtain ⟨ay', haexpand, has'⟩ := has.dnsLExpand_cons (fun _ => id) (Nat.zero_le 127)
      have ha' := has.ne_nil a' List.mem_cons_self
      rw [matchFrom_go ⟨ha, hb, hsame⟩, dnsLExpand, haexpand]
      cases bs with
      | nil =>
        have hbnil := hbs.dnsLExpand_nil hown hd
        obtain ⟨fuel, rfl⟩ := Nat.exists_eq_add_of_le' (by omega : 1 ≤ fuel)
        exact ⟨a', _, matchFrom_stop fun h => h.2.1 hbnil,
          .inr (List.mem_cons_of_mem a List.mem_cons_self), fun hnil => absurd hnil ha'⟩
      | cons b' bs =>
        obtain ⟨by', hbexpand, hbs'⟩ := hbs.dnsLExpand_cons hown hd
        rw [dnsLExpand, hbexpand]
        obtain ⟨r, t, hmatch, hr, heq⟩ := ih has' hbs' ha' (hbs.ne_nil b' List.mem_cons_self)
          (fun l hl => haz l (List.mem_cons_of_mem a hl))
          (fun l hl => hbz l (List.mem_cons_of_mem b hl)) hfuel'
        refine ⟨r, t, hmatch, hr.imp_right (List.mem_cons_of_mem a), fun hrnil htnil => ?_⟩
        have hhead := map_tolower_eq_of_strcaseeq hsame (haz a List.mem_cons_self)
          (hbz b List.mem_cons_self)
        rw [lower_cons, hhead, heq hrnil htnil, ← lower_cons]

/-- What is left in `a.label` while a suffix with first label `l` is looked for. -/
def Left (l : List UInt8) (as : List (List UInt8)) (a : List UInt8) : Prop := a = [] ∨ a ∈ l :: as

/-- Where the suffix of a name is said to be, there is one that differs from it in the first label
at most, and has one of the suffix's own labels there. -/
def Found (P : DnsPacket) (own : ℕ → Prop) (d c : ℕ) (l : List UInt8) (as bs : List (List UInt8))
    (t : ℕ) : Prop :=
  t ≤ 0x3fff ∧ ∃ bs', bs' <:+ bs ∧ Spells P.data own d c t bs' ∧
    ∃ a ∈ l :: as, lower (a :: as) = lower bs'

theorem matchFrom_left {by_ : ℕ} (has : Spells dst (· < lim) 0 0 ax as)
    (hbs : Spells P.data own d d by_ bs) (hown : ∀ q, own q → q < P.end_) (hd : d ≤ 127)
    (ha : Left l as a) (hb : b ≠ []) (haz : ∀ l' ∈ l :: as, 0 ∉ l') (hbz : ∀ l' ∈ b :: bs, 0 ∉ l')
    (hfuel : as.length + 2 ≤ fuel) :
    ∃ r t, matchFrom dst lim P fuel (a, ax) (b, by_) = some (r, t) ∧ Left l as r ∧
      (r = [] → t = [] → ∃ a ∈ l :: as, lower (a :: as) = lower (b :: bs)) := by
  by_cases hnil : a = []
  · obtain ⟨fuel, rfl⟩ := Nat.exists_eq_add_of_le' (by omega : 1 ≤ fuel)
    exact ⟨a, b, matchFrom_stop fun h => h.1 hnil, .inl hnil, fun _ hbnil => absurd hbnil hb⟩
  · have hmem := ha.resolve_left hnil
    have htail : ∀ l' ∈ a :: as, l' ∈ l :: as :=
      List.forall_mem_cons.mpr ⟨hmem, fun l' hl' => List.mem_cons_of_mem l hl'⟩
    obtain ⟨r, t, hmatch, hr, heq⟩ := matchFrom_spec has hbs hown hd hnil hb
      (fun l' hl' => haz l' (htail l' hl')) hbz hfuel
    exact ⟨r, t, hmatch, hr.imp_right (htail r), fun hrnil htnil => ⟨a, hmem, heq hrnil htnil⟩⟩

theorem scanFrom_spec (has : Spells dst (· < lim) 0 0 ax as)
    (hbs : Spells P.data own d c bp bs) (hown : ∀ q, own q → q < P.end_) (hc : c ≤ 127)
    (hd : d ≤ 127) (ha : Left l as a) (haz : ∀ l' ∈ l :: as, 0 ∉ l') (hbz : ∀ l' ∈ bs, 0 ∉ l')
    (hfuel : as.length + 2 ≤ fuel) (hn : bs.length + 1 ≤ n) :
    ∃ res a', scanFrom fuel dst lim P ax n a bp = some (res, a') ∧ Left l as a' ∧
      ∀ t, res = some t → Found P own d (max c d) l as bs t := by
  induction bs generalizing a bp c n with
  | nil =>
    obtain ⟨n, rfl⟩ := Nat.exists_eq_add_of_le' hn
    have hnil : (dnsLExpand P.data P.end_ bp).1 = [] := hbs.dnsLExpand_nil hown hc
    exact ⟨none, a, by rw [List.length_nil, Nat.zero_add, scanFrom, if_pos hnil], ha,
      fun t ht => nomatch ht⟩
  | cons b bs ih =>
    obtain ⟨n, rfl⟩ := Nat.exists_eq_add_of_le' (by omega : 1 ≤ n)
    obtain ⟨q, hexpand, hrest⟩ := hbs.dnsLExpand_cons hown hc
    have hb := hbs.ne_nil b List.mem_cons_self
    obtain ⟨r, t, hmatch, hr, heq⟩ := matchFrom_left has hrest hown hd ha hb haz hbz hfuel
    have hlabel : dnsLExpand P.data P.end_ bp = (b, q) := hexpand
    rw [scanFrom, hlabel, if_neg hb, hmatch, Option.bind_some]
    by_cases hfound : r = [] ∧ t = [] ∧ bp ≤ 0x3fff
    · rw [if_pos hfound]
      refine ⟨some bp, r, rfl, hr, fun t' ht' => ?_⟩
      rw [← Option.some.inj ht']
      exact ⟨hfound.2.2, _, List.suffix_refl _, hbs.mono (Nat.le_refl d) (Nat.le_max_left c d),
        heq hfound.1 hfound.2.1⟩
    · rw [if_neg hfound]
      obtain ⟨res, a', hscan, hleft, hres⟩ := ih hrest hd hr
        (fun l' hl' => hbz l' (List.mem_cons_of_mem b hl')) (Nat.le_of_succ_le_succ hn)
      refine ⟨res, a', hscan, hleft, fun t' ht' => ?_⟩
      obtain ⟨hsmall, bs', hsuffix, hspells, hlower⟩ := hres t' ht'
      rw [Nat.max_self] at hspells
      exact ⟨hsmall, bs', hsuffix.trans (List.suffix_cons b bs),
        hspells.mono (Nat.le_refl d) (Nat.le_max_right c d), hlower⟩

/-- The names in the slots of a dictionary are known ones. The pointers to a slot's name are few:
so many that a name which ends there still has fewer than those of the next slot may be. -/
def Knows (data : Bytes) (own : ℕ → Prop) (known : List (List UInt8) → Prop) (k : ℕ)
    (dict : List ℕ) : Prop :=
  ∀ i e, dict[i]? = some e → e ≠ 0 →
    ∃ bs, known bs ∧ Spells data own (2 * (k + i) + 1) (2 * (k + i)) e bs

theorem scanDict_spec {known : List (List UInt8) → Prop} {k : ℕ} {dict : List ℕ}
    (has : Spells dst (· < lim) 0 0 ax as) (hdict : Knows P.data own known k dict)
    (hown : ∀ q, own q → q < P.end_) (hk : k + dict.length ≤ 16) (ha : Left l as a)
    (haz : ∀ l' ∈ l :: as, 0 ∉ l')
    (hknown : ∀ bs, known bs → (∀ l' ∈ bs, 0 ∉ l') ∧ bs.length + 1 ≤ fuel)
    (hfuel : as.length + 2 ≤ fuel) :
    ∃ res, scanDict fuel dst lim P ax dict a = some res ∧ ∀ t, res = some t →
      ∃ i < dict.length, (∀ j ≤ i, ∀ e, dict[j]? = some e → e ≠ 0) ∧
        ∃ bs, known bs ∧ Found P own (2 * (k + i) + 1) (2 * (k + i) + 1) l as bs t := by
  induction dict generalizing k a with
  | nil => exact ⟨none, rfl, fun t ht => nomatch ht⟩
  | cons e dict ih =>
    rw [List.length_cons] at hk
    rw [scanDict]
    by_cases hzero : e = 0
    · exact ⟨none, if_pos hzero, fun t ht => nomatch ht⟩
    · obtain ⟨bs, hbs, hspells⟩ := hdict 0 e rfl hzero
      have hwf := hknown bs hbs
      obtain ⟨res, a', hscan, hleft, hres⟩ := scanFrom_spec (n := fuel) has hspells hown (by omega)
        (by omega) ha haz hwf.1 hfuel hwf.2
      rw [if_neg hzero, hscan, Option.bind_some]
      cases res with
      | some t =>
        refine ⟨some t, rfl, fun t' ht' => ⟨0, Nat.zero_lt_succ _, fun j hj e' he' => ?_, bs, hbs, ?_⟩⟩
        · rw [Nat.le_zero.mp hj] at he'
          exact Option.some.inj he' ▸ hzero
        · obtain ⟨hsmall, bs', hsuffix, hs, hlower⟩ := hres t' (by rw [← ht'])
          exact ⟨hsmall, bs', hsuffix, hs.mono (Nat.le_refl _) (by omega), hlower⟩
      | none =>
        have hrest : Knows P.data own known (k + 1) dict := fun i e' he' hne => by
          obtain ⟨bs, hbs, hs⟩ := hdict (i + 1) e' he' hne
          have hindex : k + (i + 1) = k + 1 + i := by omega
          exact ⟨bs, hbs, hindex ▸ hs⟩
        obtain ⟨res, hscan', hres'⟩ := ih hrest (by omega) hleft
        refine ⟨res, hscan', fun t ht => ?_⟩
        obtain ⟨i, hi, hbefore, bs, hbs, hfound⟩ := hres' t ht
        have hindex : k + 1 + i = k + (i + 1) := by omega
        refine ⟨i + 1, Nat.succ_lt_succ hi, fun j hj e' he' => ?_, bs, hbs, hindex ▸ hfound⟩
        cases j with
        | zero => exact Option.some.inj he' ▸ hzero
        | succ j => exact hbefore j (Nat.le_of_succ_le_succ hj) e' he'

theorem compressFrom_spec {known : List (List UInt8) → Prop} {ap : ℕ}
    (has : Spells dst (· < lim) 0 0 ap as) (hdict : Knows P.data own known 0 P.dict)
    (hown : ∀ q, own q → q < P.end_) (haz : ∀ l ∈ as, 0 ∉ l)
    (hknown : ∀ bs, known bs → (∀ l ∈ bs, 0 ∉ l) ∧ bs.length + 1 ≤ fuel)
    (hfuel : as.length + 1 ≤ fuel) (hn : as.length + 1 ≤ n) :
    ∃ res, compressFrom fuel dst lim P n ap = some res ∧ ∀ r, res = some r →
      ∃ pre l rest t, as = pre ++ l :: rest ∧ ap + (wireLabels pre).length + 2 ≤ lim ∧
        r = (putPointer dst (ap + (wireLabels pre).length) t,
          ap + (wireLabels pre).length + 2) ∧
        ∃ i < 16, (∀ j ≤ i, ∀ e, P.dict[j]? = some e → e ≠ 0) ∧
          ∃ bs, known bs ∧ Found P own (2 * i + 1) (2 * i + 1) l rest bs t := by
  induction as generalizing ap n with
  | nil =>
    obtain ⟨n, rfl⟩ := Nat.exists_eq_add_of_le' hn
    have hnil : (dnsLExpand dst lim ap).1 = [] := has.dnsLExpand_nil (fun _ => id) (Nat.zero_le _)
    exact ⟨none, by rw [List.length_nil, Nat.zero_add, compressFrom, if_pos hnil],
      fun r hr => nomatch hr⟩
  | cons l as ih =>
    obtain ⟨n, rfl⟩ := Nat.exists_eq_add_of_le' (by omega : 1 ≤ n)
    obtain ⟨hexpand, hrest, hroom⟩ := has.dnsLExpand_plain fun _ => id
    have hl := has.ne_nil l List.mem_cons_self
    obtain ⟨res, hscan, hres⟩ := scanDict_spec hrest hdict hown (by rw [P.dict_length])
      (.inr List.mem_cons_self : Left l as l) haz hknown hfuel
    rw [compressFrom, hexpand, if_neg hl, hscan, Option.bind_some]
    cases res with
    | some t =>
      refine ⟨_, rfl, fun r hr => ⟨[], l, as, t, rfl, hroom, (Option.some.inj hr).symm, ?_⟩⟩
      obtain ⟨i, hi, hbefore, bs, hbs, hfound⟩ := hres t rfl
      rw [Nat.zero_add] at hfound
      exact ⟨i, P.dict_length ▸ hi, hbefore, bs, hbs, hfound⟩
    | none =>
      obtain ⟨res, hcompress, hres'⟩ := ih hrest (fun l' hl' => haz l' (List.mem_cons_of_mem l hl'))
        (Nat.le_of_succ_le hfuel) (Nat.le_of_succ_le_succ hn)
      refine ⟨res, hcompress, fun r hr => ?_⟩
      obtain ⟨pre, l', rest, t, hsplit, hroom', hr', hfound⟩ := hres' r hr
      have hlength : ap + (wireLabels (l :: pre)).length =
          ap + 1 + l.length + (wireLabels pre).length := by
        rw [wireLabels_cons, List.length_append, List.length_cons]
        omega
      exact ⟨l :: pre, l', rest, t, by rw [hsplit, List.cons_append], hlength ▸ hroom',
        hlength ▸ hr', hfound⟩

end Match
end Suil.Dns
