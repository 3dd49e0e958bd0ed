import Suil.Dns.Packet

/-! What a name in a packet spells, and that `dns_l_expand` and `dns_d_expand` read it so. -/
namespace Suil.Dns

/-- The labels that are met from `p` on. At most `c` pointers lead to the first of them and at
most `d` to each of the others; all that is read is at positions `own`. -/
inductive Spells (data : Bytes) (own : ℕ → Prop) (d : ℕ) : ℕ → ℕ → List (List UInt8) → Prop
  | root {c p : ℕ} : own p → data p = 0 → Spells data own d c p []
  | label {c p : ℕ} {l : List UInt8} {ls : List (List UInt8)} : 1 ≤ l.length → l.length ≤ 63 →
      (∀ q, p ≤ q → q ≤ p + l.length → own q) → data p = UInt8.ofNat l.length →
      bytesAt data (p + 1) l.length = l → Spells data own d d (p + 1 + l.length) ls →
      Spells data own d c p (l :: ls)
  | pointer {c p : ℕ} {ls : List (List UInt8)} : own p → own (p + 1) →
      lead (data p) = .pointer → Spells data own d c (target data p) ls →
      Spells data own d (c + 1) p ls

/-- Each label with the dot behind it. -/
def dotted (ls : List (List UInt8)) : List UInt8 := ls.flatMap (· ++ ['.'.toUInt8])

/-- Each label behind its length, as a name starts in a packet. -/
def wireLabels (ls : List (List UInt8)) : List UInt8 :=
  ls.flatMap fun l => UInt8.ofNat l.length :: l

variable {data data' : Bytes} {own own' : ℕ → Prop} {c c' d d' p q end_ hops fuel len : ℕ}
  {l : List UInt8} {ls : List (List UInt8)}

@[simp] theorem length_bytesAt : (bytesAt data p len).length = len := by
  rw [bytesAt, List.length_map, List.length_range]

theorem bytesAt_congr (h : ∀ k < len, data' (p + k) = data (p + k)) :
    bytesAt data' p len = bytesAt data p len :=
  List.map_congr_left fun k hk => h k (List.mem_range.mp hk)

theorem bytesAt_add (n m : ℕ) :
    bytesAt data p (n + m) = bytesAt data p n ++ bytesAt data (p + n) m := by
  simp only [bytesAt, List.range_add, List.map_append, List.map_map]
  rw [List.append_cancel_left_eq]
  exact List.map_congr_left fun k _ => congrArg data (Nat.add_assoc p n k).symm

theorem bytesAt_succ (n : ℕ) : bytesAt data p (n + 1) = data p :: bytesAt data (p + 1) n := by
  rw [Nat.add_comm, bytesAt_add]
  rfl

@[simp] theorem wireLabels_cons :
    wireLabels (l :: ls) = UInt8.ofNat l.length :: l ++ wireLabels ls := by
  rw [wireLabels, List.flatMap_cons]
  rfl

theorem put_of_ne {dst : Bytes} {lim i q : ℕ} {b : UInt8} (h : q ≠ i) :
    put dst lim i b q = dst q := by
  rw [put]
  split
  · exact Function.update_of_ne h _ _
  · rfl

theorem put_self {dst : Bytes} {lim i : ℕ} {b : UInt8} (h : i < lim) : put dst lim i b i = b := by
  rw [put, if_pos h, Function.update_self]

theorem putAll_of_lt {dst : Bytes} {lim i q : ℕ} {bs : List UInt8} (h : q < i) :
    putAll dst lim i bs q = dst q := by
  induction bs generalizing dst i with
  | nil => rfl
  | cons b bs ih => rw [putAll, ih (Nat.lt_succ_of_lt h), put_of_ne (Nat.ne_of_lt h)]

theorem bytesAt_putAll {dst : Bytes} {lim i : ℕ} {bs : List UInt8} (h : i + bs.length ≤ lim) :
    bytesAt (putAll dst lim i bs) i bs.length = bs := by
  induction bs generalizing dst i with
  | nil => rfl
  | cons b bs ih =>
    rw [List.length_cons] at h
    rw [List.length_cons, bytesAt_succ, putAll, putAll_of_lt (Nat.lt_succ_self i),
      put_self (by omega), ih (by omega)]

theorem putAll_append {dst : Bytes} {lim i : ℕ} {bs cs : List UInt8} :
    putAll dst lim i (bs ++ cs) = putAll (putAll dst lim i bs) lim (i + bs.length) cs := by
  induction bs generalizing dst i with
  | nil => rfl
  | cons b bs ih => rw [List.cons_append, putAll, ih, putAll, List.length_cons]; congr 1; omega

theorem lead_zero : lead 0 = .follows 0 := by decide

theorem lead_ofNat (h : len ≤ 63) : lead (UInt8.ofNat len) = .follows len := by
  have hall : ∀ k : Fin 64, lead (UInt8.ofNat k) = .follows k := by decide
  exact hall ⟨len, Nat.lt_succ_of_le h⟩

namespace Spells

theorem ne_nil (h : Spells data own d c p ls) : ∀ l ∈ ls, l ≠ [] := by
  induction h with
  | root => exact fun l hl => absurd hl List.not_mem_nil
  | @label _ _ l ls hpos _ _ _ _ _ ih =>
    exact List.forall_mem_cons.mpr ⟨List.ne_nil_of_length_pos hpos, ih⟩
  | pointer _ _ _ _ ih => exact ih

theorem mono (h : Spells data own d c p ls) (hd : d ≤ d') (hc : c ≤ c') :
    Spells data own d' c' p ls := by
  induction h generalizing c' with
  | root hp hzero => exact .root hp hzero
  | label hpos hlen hown hlead hl _ ih => exact .label hpos hlen hown hlead hl (ih hd)
  | pointer hp hp' hlead _ ih =>
    obtain ⟨c', rfl⟩ := Nat.exists_eq_add_one_of_ne_zero (Nat.ne_zero_of_lt hc)
    exact .pointer hp hp' hlead (ih (Nat.le_of_succ_le_succ hc))

/-- Only the positions that are read matter. -/
theorem frame (h : Spells data own d c p ls) (hown : ∀ q, own q → own' q ∧ data' q = data q) :
    Spells data' own' d c p ls := by
  induction h with
  | root hp hzero => exact .root (hown _ hp).1 ((hown _ hp).2.trans hzero)
  | @label c p l ls hpos hlen hin hlead hl _ ih =>
    refine .label hpos hlen (fun q hq hq' => (hown q (hin q hq hq')).1) ?_ ?_ ih
    · rw [(hown p (hin p (Nat.le_refl p) (Nat.le_add_right p _))).2, hlead]
    · rw [bytesAt_congr fun k hk => (hown _ (hin _ (by omega) (by omega))).2, hl]
  | @pointer c p ls hp hp' hlead _ ih =>
    have htarget : target data' p = target data p := by
      rw [target, target, (hown _ hp).2, (hown _ hp').2]
    refine .pointer (hown _ hp).1 (hown _ hp').1 ?_ (htarget.symm ▸ ih)
    rw [(hown _ hp).2, hlead]

/-- Labels that are written out, in front of a name that is there already. -/
theorem prepend {pre tail : List (List UInt8)} (hpre : ∀ l ∈ pre, 1 ≤ l.length ∧ l.length ≤ 63)
    (hbytes : bytesAt data p (wireLabels pre).length = wireLabels pre)
    (hown : ∀ q, p ≤ q → q < p + (wireLabels pre).length → own q)
    (htail : Spells data own d c' (p + (wireLabels pre).length) tail) (hd : c' ≤ d)
    (hc : pre = [] → c' ≤ c) : Spells data own d c p (pre ++ tail) := by
  induction pre generalizing p c with
  | nil => exact htail.mono (Nat.le_refl d) (hc rfl)
  | cons l pre ih =>
    have hlength : (wireLabels (l :: pre)).length = 1 + l.length + (wireLabels pre).length := by
      rw [wireLabels_cons, List.length_append, List.length_cons, Nat.add_comm 1]
    rw [hlength] at hown htail
    rw [hlength, bytesAt_add, Nat.add_comm 1, bytesAt_succ, wireLabels_cons] at hbytes
    obtain ⟨hfirst, hrest⟩ := List.append_inj hbytes (by
      rw [List.length_cons, List.length_cons, length_bytesAt])
    obtain ⟨hlead, hl⟩ := List.cons.inj hfirst
    have hwf := hpre l List.mem_cons_self
    have hassoc : p + (1 + l.length + (wireLabels pre).length) =
        p + 1 + l.length + (wireLabels pre).length := by omega
    refine .label hwf.1 hwf.2 (fun q hq hq' => hown q hq (by omega)) hlead hl (ih
      (fun l' hl' => hpre l' (List.mem_cons_of_mem l hl')) ?_ (fun q hq hq' => hown q (by omega)
        (by omega)) (hassoc ▸ htail) fun _ => hd)
    rwa [← Nat.add_assoc, Nat.add_right_comm] at hrest

/-- `dns_l_expand` finds the first label, and where the others are. -/
theorem dnsLExpand_cons (h : Spells data own d c p (l :: ls)) (hown : ∀ q, own q → q < end_)
    (hc : c ≤ hops) : ∃ q, dnsLExpandFrom data end_ hops p = (l, q) ∧ Spells data own d d q ls := by
  generalize hls : l :: ls = ls' at h
  induction h generalizing hops with
  | root => cases hls
  | @label c p l' ls' hpos hlen hin hlead hl hrest =>
    obtain ⟨rfl, rfl⟩ := List.cons.inj hls
    have hp := hown p (hin p (Nat.le_refl p) (Nat.le_add_right p _))
    have hlast := hown (p + l.length) (hin _ (Nat.le_add_right p _) (Nat.le_refl _))
    refine ⟨p + 1 + l.length, ?_, hrest⟩
    rw [dnsLExpandFrom.eq_def, if_neg (by omega), hlead, lead_ofNat hlen]
    simp only []
    rw [if_neg (by omega), hl]
  | @pointer c p ls' hp hp' hlead _ ih =>
    obtain ⟨hops, rfl⟩ := Nat.exists_eq_add_of_le' hc
    obtain ⟨q, hexpand, hq⟩ := ih (Nat.le_add_left c hops) hls
    have hlt := hown _ hp
    have hlt' := hown _ hp'
    refine ⟨q, ?_, hq⟩
    rw [← Nat.add_assoc, dnsLExpandFrom.eq_def, if_neg (by omega), hlead]
    simp only []
    rw [if_neg (by omega), hexpand]

/-- Without pointers the other labels are right behind the first one. -/
theorem dnsLExpand_plain (h : Spells data own 0 0 p (l :: ls)) (hown : ∀ q, own q → q < end_) :
    dnsLExpand data end_ p = (l, p + 1 + l.length) ∧
      Spells data own 0 0 (p + 1 + l.length) ls ∧ p + 2 ≤ end_ := by
  have h' := h
  cases h' with
  | label hpos hlen hin hlead hl hrest =>
    have hp := hown p (hin p (Nat.le_refl p) (Nat.le_add_right p _))
    have hlast := hown (p + l.length) (hin _ (Nat.le_add_right p _) (Nat.le_refl _))
    refine ⟨?_, hrest, by omega⟩
    rw [dnsLExpand, dnsLExpandFrom.eq_def, if_neg (by omega), hlead, lead_ofNat hlen]
    simp only []
    rw [if_neg (by omega), hl]

/-- Nothing but the root is there, and `dns_l_expand` says so. -/
theorem dnsLExpand_nil (h : Spells data own d c p []) (hown : ∀ q, own q → q < end_)
    (hc : c ≤ hops) : (dnsLExpandFrom data end_ hops p).1 = [] := by
  generalize hls : [] = ls' at h
  induction h generalizing hops with
  | root hp hzero =>
    have hlt := hown _ hp
    rw [dnsLExpandFrom.eq_def, if_neg (by omega), hzero, lead_zero]
    simp only []
    rw [if_neg (by omega)]
    rfl
  | label => cases hls
  | @pointer c p ls' hp hp' hlead _ ih =>
    obtain ⟨hops, rfl⟩ := Nat.exists_eq_add_of_le' hc
    have hlt := hown _ hp
    have hlt' := hown _ hp'
    rw [← Nat.add_assoc, dnsLExpandFrom.eq_def, if_neg (by omega), hlead]
    simp only []
    rw [if_neg (by omega), ih (Nat.le_add_left c hops) hls]

end Spells

theorem dotted_cons : dotted (l :: ls) = l ++ '.'.toUInt8 :: dotted ls := by
  rw [dotted, List.flatMap_cons, List.append_assoc]
  rfl

/-- What `dns_d_expand` writes for the rest of a name, behind `dstp` bytes. -/
def textFrom (dstp : ℕ) (ls : List (List UInt8)) : List UInt8 :=
  if dstp = 0 ∧ ls = [] then ['.'.toUInt8] else dotted ls

theorem Spells.dnsDExpandFrom_eq {P : DnsPacket} (h : Spells P.data own d c p ls)
    (hown : ∀ q, own q → q < P.end_) (hd : d ≤ 127) {nptrs : ℕ} (hc : c + nptrs ≤ 127)
    (hfuel : c + 1 + (d + 1) * ls.length ≤ fuel) (lim dstp : ℕ) (dst : Bytes) :
    dnsDExpandFrom lim P fuel dst p dstp nptrs =
      some (.ok (dstp + (textFrom dstp ls).length),
        terminate (putAll dst lim dstp (textFrom dstp ls)) lim
          (dstp + (textFrom dstp ls).length)) := by
  induction h generalizing nptrs fuel dst dstp with
  | root hp hzero =>
    obtain ⟨fuel, rfl⟩ := Nat.exists_eq_add_of_le' (by omega : 1 ≤ fuel)
    rw [dnsDExpandFrom, dnsDExpandRound, if_pos (hown _ hp), hzero, lead_zero]
    simp only [reduceIte]
    by_cases hfirst : dstp = 0
    · rw [if_pos hfirst, textFrom, if_pos ⟨hfirst, rfl⟩]
      rfl
    · rw [if_neg hfirst, textFrom, if_neg fun h => hfirst h.1]
      rfl
  | @label c p l ls hpos hlen hin hlead hl _ ih =>
    obtain ⟨fuel, rfl⟩ := Nat.exists_eq_add_of_le' (by omega : 1 ≤ fuel)
    have hp := hown p (hin p (Nat.le_refl p) (Nat.le_add_right p _))
    have hlast := hown (p + l.length) (hin _ (Nat.le_add_right p _) (Nat.le_refl _))
    have htext : textFrom dstp (l :: ls) = l ++ '.'.toUInt8 :: textFrom (dstp + l.length + 1) ls := by
      rw [textFrom, if_neg (by simp), textFrom, if_neg (by omega), dotted_cons]
    rw [dnsDExpandFrom, dnsDExpandRound, if_pos hp, hlead, lead_ofNat hlen]
    simp only []
    rw [if_neg (by omega), if_neg (by omega), hl]
    dsimp only
    rw [ih (Nat.zero_add d ▸ hd) (by
      rw [List.length_cons, Nat.mul_add] at hfuel; omega), htext, putAll_append, putAll]
    have hlength : dstp + l.length + 1 + (textFrom (dstp + l.length + 1) ls).length =
        dstp + (l ++ '.'.toUInt8 :: textFrom (dstp + l.length + 1) ls).length := by
      rw [List.length_append, List.length_cons]
      omega
    rw [hlength]
  | @pointer c p ls hp hp' hlead _ ih =>
    obtain ⟨fuel, rfl⟩ := Nat.exists_eq_add_of_le' (by omega : 1 ≤ fuel)
    have hlt := hown _ hp
    have hlt' := hown _ hp'
    rw [dnsDExpandFrom, dnsDExpandRound, if_pos hlt, hlead]
    simp only []
    rw [if_neg (by omega), if_neg (by omega)]
    exact ih (by omega) (by omega) _ _

/-- With room for it, the whole text comes out, and a NUL behind it. -/
theorem Spells.dnsDExpand_text {P : DnsPacket} (h : Spells P.data own d c p ls)
    (hown : ∀ q, own q → q < P.end_) (hd : d ≤ 127) (hc : c ≤ 127)
    (hfuel : c + 1 + (d + 1) * ls.length ≤ fuel) {lim : ℕ} (hlim : (textFrom 0 ls).length < lim)
    (dst : Bytes) :
    ∃ dst', dnsDExpand fuel dst lim p P = some (.ok (textFrom 0 ls).length, dst') ∧
      bytesAt dst' 0 (textFrom 0 ls).length = textFrom 0 ls ∧ dst' (textFrom 0 ls).length = 0 := by
  have hrun := h.dnsDExpandFrom_eq hown hd (Nat.add_zero c ▸ hc : c + 0 ≤ 127) hfuel lim 0 dst
  rw [Nat.zero_add] at hrun
  have hlast : min (textFrom 0 ls).length (lim - 1) = (textFrom 0 ls).length :=
    Nat.min_eq_left (by omega)
  refine ⟨_, hrun, ?_, ?_⟩
  · rw [terminate, if_pos (by omega), hlast]
    refine Eq.trans (bytesAt_congr fun k hk => ?_) (@bytesAt_putAll dst lim 0
      (textFrom 0 ls) (by omega))
    rw [Function.update_of_ne (by omega)]
  · rw [terminate, if_pos (by omega), hlast, Function.update_self]

end Suil.Dns
