import Suil.Lib.Ends
import Suil.Lib.Narrow
import Suil.Utils.Elements

/-! `trim` and `strip` with their indices. The one at the end starts from `int(str.size())`, and
nothing is returned where an `int` overflows. -/
namespace Suil.Utils.Strip

open CText (Str)
open Text (CString View isCharIn)
open Narrow (int)

def checked (x : ℤ) : Option ℤ := if -2 ^ 31 ≤ x ∧ x < 2 ^ 31 then some x else none

/-- The loop from the front, where the rest of the string begins at `s`. -/
def front (what : Str) (s : ℕ) : Str → Option ℕ
  | [] => some s
  | c :: str =>
    if isCharIn what c then
      if s + 1 < 2 ^ 31 then front what (s + 1) str else none
    else some s

/-- The loop from the back. -/
def back (what str : Str) (s : ℕ) (e : ℤ) : ℤ :=
  if s ≤ e ∧ isCharIn what (str.getD e.toNat 0) then back what str s (e - 1) else e
termination_by (e + 1 - s).toNat

/-- A negative length is a `size_t` that reaches to the end. -/
def substr (str : Str) (s : ℕ) (n : ℤ) : Str :=
  if n < 0 then str.drop s else CText.substr str s n.toNat

def trim (str : Str) : Option Str → Option Str
  | none => some str
  | some what => do
    let s ← front what 0 str
    let e ← checked (int str.length - 1)
    let n ← checked (1 + back what str s e - s)
    some (substr str s n)

/-- The loop that fills `out`. -/
def copy (what str : Str) (e : ℤ) (i : ℕ) (out : Str) : Str :=
  if i ≤ e then
    if isCharIn what (str.getD i 0) then copy what str e (i + 1) out
    else copy what str e (i + 1) (out ++ [str.getD i 0])
  else out
termination_by (e + 1 - i).toNat

def strip (str what : Str) : Option Str := do
  let e ← checked (int str.length - 1)
  let s ← front what 0 str
  some (copy what str (back what str s e) s [])

def listed (what : CString) (c : UInt8) : Bool := what.chars.contains c

/-- Both functions do what they are for, and what follows from it. -/
structure Follows (what : CString) (str : Str) : Prop where
  trim : trim str (some what.chars) = some (Ends.inner (listed what) str)
  strip : strip str what.chars = some (str.filter fun c => !listed what c)
  strip_trim : ∀ t, Strip.trim str (some what.chars) = some t →
    Strip.strip t what.chars = Strip.strip str what.chars
  trim_trim : ∀ t, Strip.trim str (some what.chars) = some t →
    Strip.trim t (some what.chars) = some t
  strip_strip : ∀ t, Strip.strip str what.chars = some t → Strip.strip t what.chars = some t
  kept : (∀ c ∈ str, listed what c = false) →
    Strip.trim str (some what.chars) = some str ∧ Strip.strip str what.chars = some str

/-- The indices reach every byte that is not listed. A string below `2 ^ 31` bytes always fits. -/
structure Fits (p : UInt8 → Bool) (str : Str) : Prop where
  front : (str.takeWhile p).length < 2 ^ 31
  back : ∀ c ∈ str.drop (int str.length).toNat, p c

section Loops
variable {what str out : Str} {s n i : ℕ}

theorem front_eq (hs : s < 2 ^ 31) : front what s str =
    if s + (str.takeWhile (isCharIn what)).length < 2 ^ 31 then
      some (s + (str.takeWhile (isCharIn what)).length)
    else none := by
  induction str generalizing s with
  | nil => exact (if_pos hs).symm
  | cons c str ih =>
    unfold front
    cases hc : isCharIn what c with
    | true =>
      rw [if_pos rfl, List.takeWhile_cons, hc, if_pos rfl, List.length_cons]
      by_cases hnext : s + 1 < 2 ^ 31
      · have hsum : s + 1 + (str.takeWhile (isCharIn what)).length =
            s + ((str.takeWhile (isCharIn what)).length + 1) := by omega
        rw [if_pos hnext, ih hnext, hsum]
      · rw [if_neg hnext, if_neg (by omega)]
    | false =>
      rw [if_neg Bool.false_ne_true, List.takeWhile_cons, hc, if_neg Bool.false_ne_true]
      exact (if_pos hs).symm

theorem take_succ_drop (hn : n < str.length) (hs : s ≤ n) :
    (str.take (n + 1)).drop s = (str.take n).drop s ++ [str.getD n 0] := by
  have hlen : s ≤ (str.take n).length := by
    rw [List.length_take]
    omega
  rw [List.getD_eq_getElem str 0 hn, List.take_succ_eq_append_getElem hn,
    List.drop_append_of_le_length hlen]

/-- The loop from the back drops what it passes. -/
theorem back_eq (what : Str) (s : ℕ) (hn : n ≤ str.length) : ∃ m : ℕ, back what str s (n - 1) = m - 1 ∧
    (s ≤ n → s ≤ m) ∧ m ≤ n ∧
    (str.take m).drop s = ((str.take n).drop s).rdropWhile (isCharIn what) := by
  induction n with
  | zero =>
    refine ⟨0, ?_, id, Nat.le_refl 0, ?_⟩
    · rw [back, if_neg]
      rintro ⟨hs, -⟩
      omega
    · rw [List.take_zero, List.drop_nil, List.rdropWhile_nil]
  | succ n ih =>
    have hcast : ((n + 1 : ℕ) : ℤ) - 1 = n := by omega
    rw [hcast, back]
    by_cases hs : s ≤ n
    · rw [take_succ_drop hn hs]
      cases hc : isCharIn what (str.getD n 0) with
      | true =>
        obtain ⟨m, hm, hsm, hmn, htake⟩ := ih (by omega)
        have hstep : (s : ℤ) ≤ n ∧ isCharIn what (str.getD (n : ℤ).toNat 0) :=
          ⟨by omega, hc⟩
        refine ⟨m, ?_, fun _ => hsm hs, by omega, ?_⟩
        · rw [if_pos hstep, hm]
        · rw [List.rdropWhile_concat_pos _ _ _ hc, htake]
      | false =>
        refine ⟨n + 1, ?_, id, Nat.le_refl _, ?_⟩
        · rw [if_neg, hcast]
          rintro ⟨-, h⟩
          exact Bool.false_ne_true (hc.symm.trans h)
        · rw [List.rdropWhile_concat_neg, take_succ_drop hn hs]
          rw [hc]
          exact Bool.false_ne_true
    · refine ⟨n + 1, ?_, id, Nat.le_refl _, ?_⟩
      · rw [if_neg, hcast]
        rintro ⟨h, -⟩
        omega
      · have hnil : (str.take (n + 1)).drop s = [] := by
          rw [List.drop_eq_nil_iff, List.length_take]
          omega
        rw [hnil, List.rdropWhile_nil]

/-- What is copied from `i` on. -/
theorem copy_eq (hn : n ≤ str.length) : copy what str (n - 1) i out =
    out ++ ((str.take n).drop i).filter fun c => !isCharIn what c := by
  induction hd : n - i generalizing i out with
  | zero =>
    have hnil : (str.take n).drop i = [] := by
      rw [List.drop_eq_nil_iff, List.length_take]
      omega
    rw [copy, if_neg (by omega), hnil, List.filter_nil, List.append_nil]
  | succ d ih =>
    have hi : i < (str.take n).length := by
      rw [List.length_take]
      omega
    have hget : (str.take n)[i] = str.getD i 0 := by
      rw [List.getElem_take, List.getD_eq_getElem str 0 (by omega)]
    rw [copy, if_pos (by omega), List.drop_eq_getElem_cons hi, hget, List.filter_cons]
    cases hc : isCharIn what (str.getD i 0) with
    | true =>
      rw [if_pos rfl, ih (by omega)]
      rfl
    | false =>
      rw [if_neg Bool.false_ne_true, ih (by omega), List.append_assoc]
      rfl

end Loops

section Result
variable {what str t : Str} {x : CString} {v : View} {e : ℤ}

theorem front_eq_some {s : ℕ} : front what 0 str = some s ↔
    (str.takeWhile (isCharIn what)).length < 2 ^ 31 ∧
      (str.takeWhile (isCharIn what)).length = s := by
  rw [front_eq (by omega), Nat.zero_add]
  split_ifs with h
  · rw [Option.some.injEq]
    exact (and_iff_right h).symm
  · constructor
    · exact False.elim
    · exact fun hs => absurd hs.1 h

theorem checked_eq_some {k e : ℤ} : checked k = some e ↔ (-2 ^ 31 ≤ k ∧ k < 2 ^ 31) ∧ k = e := by
  unfold checked
  split_ifs with h
  · rw [Option.some.injEq]
    exact (and_iff_right h).symm
  · constructor
    · exact False.elim
    · exact fun hs => absurd hs.1 h

theorem Fits.of_short {p : UInt8 → Bool} (h : str.length < 2 ^ 31) : Fits p str where
  front := by
    have hle := (List.takeWhile_sublist (l := str) p).length_le
    omega
  back := by
    rw [Narrow.int_natCast_eq_iff.mpr h, Int.toNat_natCast, List.drop_length]
    exact nofun

/-- The bytes that both loops look at. -/
def reached (str : Str) : Str := str.take (int str.length).toNat

theorem reached_length (str : Str) : (reached str).length < 2 ^ 31 := by
  have hbound := (Narrow.int_bounds str.length).2
  unfold reached
  rw [List.length_take]
  omega

theorem takeWhile_of_all {p : UInt8 → Bool} (h : ∀ c ∈ str, p c) : str.takeWhile p = str := by
  apply List.takeWhile_eq_self_iff.mpr
  exact h

/-- Where the string fits, its last index is one and the loop from the front ends before it. -/
theorem Fits.index {p : UInt8 → Bool} (h : Fits p str) : 0 ≤ int str.length ∧
    (str.takeWhile p).length ≤ (int str.length).toNat := by
  have hfront := h.front
  by_cases hshort : str.length < 2 ^ 31
  · have hpre := (List.takeWhile_sublist (l := str) p).length_le
    have heq : int str.length = str.length := Narrow.int_natCast_eq_iff.mpr hshort
    omega
  · have hall : (str.takeWhile p).length < (int str.length).toNat := by
      by_contra hge
      have htake : ∀ c ∈ str.take (int str.length).toNat, p c := by
        intro c hc
        have hpre : str.take (int str.length).toNat <+: str.takeWhile p := by
          apply List.prefix_of_prefix_length_le (List.take_prefix _ _) (List.takeWhile_prefix p)
          rw [List.length_take]
          omega
        exact List.mem_takeWhile_imp (hpre.subset hc)
      have hstr : str.takeWhile p = str := by
        apply takeWhile_of_all
        intro c hc
        rw [← List.take_append_drop (int str.length).toNat str, List.mem_append] at hc
        exact hc.elim (htake c) (h.back c)
      rw [hstr] at hfront
      exact hshort hfront
    omega

theorem dropWhile_eq {p : UInt8 → Bool}
    (h : (str.takeWhile p).length ≤ (int str.length).toNat) : str.dropWhile p =
      (reached str).drop (str.takeWhile p).length ++ str.drop (int str.length).toNat := by
  have hreach : (str.takeWhile p).length ≤ (reached str).length := by
    have hpre := (List.takeWhile_sublist (l := str) p).length_le
    unfold reached
    rw [List.length_take]
    omega
  have hdrop : (str.takeWhile p ++ str.dropWhile p).drop (str.takeWhile p).length =
      str.dropWhile p := List.drop_left
  rw [← List.drop_append_of_le_length hreach, reached, List.take_append_drop, ← hdrop,
    List.takeWhile_append_dropWhile]

theorem trim_eq_some : trim str (some what) = some t ↔ ∃ s, front what 0 str = some s ∧
    ∃ e, checked (int str.length - 1) = some e ∧
    ∃ n, checked (1 + back what str s e - s) = some n ∧ substr str s n = t := by
  rw [trim]
  simp only [Option.bind_eq_bind, Option.bind_eq_some_iff, Option.some.injEq]

theorem strip_eq_some : strip str what = some t ↔ ∃ e, checked (int str.length - 1) = some e ∧
    ∃ s, front what 0 str = some s ∧ copy what str (back what str s e) s [] = t := by
  rw [strip]
  simp only [Option.bind_eq_bind, Option.bind_eq_some_iff, Option.some.injEq]

theorem trim_eq (h : Fits (isCharIn what) str) :
    trim str (some what) = some (Ends.inner (isCharIn what) str) := by
  obtain ⟨hpos, hle⟩ := h.index
  have hfront := h.front
  have hbound := (Narrow.int_bounds str.length).2
  have hlen := Narrow.toNat_int_le str.length
  have hcast : int str.length - 1 = ((int str.length).toNat : ℤ) - 1 := by omega
  obtain ⟨m, hm, hsm, hmn, htake⟩ :=
    back_eq what (str.takeWhile (isCharIn what)).length hlen
  have hcount := hsm hle
  refine trim_eq_some.mpr ⟨_, front_eq_some.mpr ⟨hfront, rfl⟩, _,
    checked_eq_some.mpr ⟨⟨by omega, by omega⟩, rfl⟩, m - (str.takeWhile (isCharIn what)).length,
    checked_eq_some.mpr ⟨?_, ?_⟩, ?_⟩
  · rw [hcast, hm]
    omega
  · rw [hcast, hm]
    omega
  · have hn : ((m : ℤ) - (str.takeWhile (isCharIn what)).length).toNat =
        m - (str.takeWhile (isCharIn what)).length := by omega
    rw [substr, if_neg (by omega), hn, CText.substr, ← List.drop_take, htake, Ends.inner,
      dropWhile_eq hle, Ends.rdropWhile_append h.back]
    rfl

/-- The bytes that the loop from the front passes are not copied anyway. -/
theorem filter_drop (n : ℕ) : ((str.take n).drop (str.takeWhile (isCharIn what)).length).filter
    (fun c => !isCharIn what c) = (str.take n).filter fun c => !isCharIn what c := by
  have hpass : ((str.take n).take (str.takeWhile (isCharIn what)).length).filter
      (fun c => !isCharIn what c) = [] := by
    rw [List.filter_eq_nil_iff]
    intro c hc
    have hpre : str.take (str.takeWhile (isCharIn what)).length = str.takeWhile (isCharIn what) :=
      (List.prefix_iff_eq_take.mp (List.takeWhile_prefix _)).symm
    have hmem : c ∈ str.takeWhile (isCharIn what) := by
      rw [← hpre]
      rw [List.take_take, Nat.min_comm, ← List.take_take] at hc
      exact List.mem_of_mem_take hc
    rw [List.mem_takeWhile_imp hmem]
    exact Bool.false_ne_true
  conv => rhs; rw [← List.take_append_drop (str.takeWhile (isCharIn what)).length (str.take n)]
  rw [List.filter_append, hpass, List.nil_append]

theorem copy_back (h : int str.length - 1 = e) :
    copy what str (back what str (str.takeWhile (isCharIn what)).length e)
      (str.takeWhile (isCharIn what)).length [] =
    (reached str).filter fun c => !isCharIn what c := by
  unfold reached
  by_cases hpos : 0 ≤ int str.length
  · have hlen := Narrow.toNat_int_le str.length
    have hcast : e = ((int str.length).toNat : ℤ) - 1 := by omega
    obtain ⟨m, hm, -, hmn, htake⟩ :=
      back_eq what (str.takeWhile (isCharIn what)).length hlen
    rw [hcast, hm, copy_eq (by omega), List.nil_append, htake, Ends.filter_rdropWhile, filter_drop]
  · have hzero : (int str.length).toNat = 0 := by omega
    have hback : back what str (str.takeWhile (isCharIn what)).length e = e := by
      rw [back, if_neg]
      rintro ⟨hs, -⟩
      omega
    rw [hback, copy, if_neg (by omega), hzero]
    rfl

theorem strip_iff : strip str what = some t ↔
    (str.takeWhile (isCharIn what)).length < 2 ^ 31 ∧ int str.length ≠ -2 ^ 31 ∧
      (reached str).filter (fun c => !isCharIn what c) = t := by
  have hbound := Narrow.int_bounds str.length
  rw [strip_eq_some]
  constructor
  · rintro ⟨e, he, s, hs, ht⟩
    obtain ⟨hrange, he⟩ := checked_eq_some.mp he
    obtain ⟨hfront, rfl⟩ := front_eq_some.mp hs
    rw [copy_back he] at ht
    exact ⟨hfront, by omega, ht⟩
  · rintro ⟨hfront, hne, ht⟩
    refine ⟨_, checked_eq_some.mpr ⟨⟨by omega, by omega⟩, rfl⟩, _, front_eq_some.mpr ⟨hfront, rfl⟩, ?_⟩
    rw [copy_back rfl, ht]

theorem reached_append (str : Str) : reached str ++ str.drop (int str.length).toNat = str :=
  List.take_append_drop _ str

theorem strip_eq (h : Fits (isCharIn what) str) :
    strip str what = some (str.filter fun c => !isCharIn what c) := by
  have hindex := h.index.1
  refine strip_iff.mpr ⟨h.front, by omega, ?_⟩
  have hrest : (str.drop (int str.length).toNat).filter (fun c => !isCharIn what c) = [] := by
    rw [List.filter_eq_nil_iff]
    intro c hc
    rw [h.back c hc]
    exact Bool.false_ne_true
  conv => rhs; rw [← reached_append str]
  rw [List.filter_append, hrest, List.append_nil]

theorem Fits.inner (h : Fits (isCharIn what) str) :
    Fits (isCharIn what) (Ends.inner (isCharIn what) str) := by
  apply Fits.of_short
  have hreached := reached_length str
  have hle := (Ends.inner_sublist (isCharIn what) (reached str)).length_le
  rw [← reached_append str, Ends.inner_append h.back]
  omega

theorem Fits.filter (h : Fits (isCharIn what) str) :
    Fits (isCharIn what) (str.filter fun c => !isCharIn what c) := by
  apply Fits.of_short
  have hreached := reached_length str
  have heq := (strip_iff.mp (strip_eq h)).2.2
  have hle := (List.filter_sublist (p := fun c => !isCharIn what c) (l := reached str)).length_le
  rw [← heq]
  omega

/-- The NUL is the only byte that is taken for a listed one. -/
theorem isCharIn_eq {c : UInt8} (h : c ≠ 0) : isCharIn x.chars c = listed x c := by
  have hc : (c == 0) = false := beq_eq_false_iff_ne.mpr h
  rw [isCharIn, hc, Bool.or_false, listed]

theorem isCharIn_of_mem (h : 0 ∉ str) : ∀ c ∈ str, isCharIn x.chars c = listed x c := by
  intro c hc
  apply isCharIn_eq
  rintro rfl
  exact h hc

theorem fits_iff (h : 0 ∉ str) : Fits (isCharIn x.chars) str ↔ Fits (listed x) str := by
  have heq := isCharIn_of_mem (x := x) h
  have htake := Ends.takeWhile_congr heq
  have hback : ∀ c ∈ str.drop (int str.length).toNat, isCharIn x.chars c = listed x c :=
    fun c hc => heq c (List.mem_of_mem_drop hc)
  constructor
  · intro hfits
    constructor
    · rw [← htake]
      exact hfits.front
    · exact fun c hc => hback c hc ▸ hfits.back c hc
  · intro hfits
    constructor
    · rw [htake]
      exact hfits.front
    · exact fun c hc => (hback c hc).symm ▸ hfits.back c hc

theorem listed_nul : listed x 0 = false := by
  unfold listed
  rw [List.contains_eq_mem]
  exact decide_eq_false x.nul

theorem Follows.no_nul (h : Follows x str) : 0 ∉ str := by
  intro hmem
  have heq := (strip_iff.mp h.strip).2.2
  have hkept : (0 : UInt8) ∈ str.filter fun c => !listed x c := by
    rw [List.mem_filter, listed_nul]
    exact ⟨hmem, rfl⟩
  rw [← heq, List.mem_filter] at hkept
  have hnul : isCharIn x.chars 0 = true := Bool.or_true _
  rw [hnul] at hkept
  exact Bool.false_ne_true hkept.2

theorem Follows.fits (h : Follows x str) : Fits (listed x) str := by
  obtain ⟨hfront, -, heq⟩ := strip_iff.mp h.strip
  have hall := isCharIn_of_mem (x := x) h.no_nul
  constructor
  · rw [← Ends.takeWhile_congr hall]
    exact hfront
  · have hreach : (reached str).filter (fun c => !isCharIn x.chars c) =
        (reached str).filter fun c => !listed x c := by
      apply List.filter_congr
      intro c hc
      rw [hall c (List.mem_of_mem_take hc)]
    rw [hreach] at heq
    conv at heq => rhs; rw [← reached_append str]
    rw [List.filter_append] at heq
    have hnil := List.append_right_eq_self.mp heq.symm
    intro c hc
    have hc' := List.filter_eq_nil_iff.mp hnil c hc
    simpa using hc'

theorem follows (h : 0 ∉ str) (hfits : Fits (listed x) str) : Follows x str := by
  have hall := isCharIn_of_mem (x := x) h
  have hchar : Fits (isCharIn x.chars) str := (fits_iff h).mpr hfits
  have htrim := trim_eq hchar
  have hstrip := strip_eq hchar
  have hinner : Ends.inner (isCharIn x.chars) str = Ends.inner (listed x) str :=
    Ends.inner_congr hall
  have hfilter : str.filter (fun c => !isCharIn x.chars c) = str.filter fun c => !listed x c :=
    List.filter_congr fun c hc => congrArg not (hall c hc)
  constructor
  · rw [htrim, hinner]
  · rw [hstrip, hfilter]
  · intro t ht
    obtain rfl := Option.some.inj (htrim.symm.trans ht)
    rw [strip_eq hchar.inner, hstrip, Ends.filter_inner]
  · intro t ht
    obtain rfl := Option.some.inj (htrim.symm.trans ht)
    rw [trim_eq hchar.inner, Ends.inner_inner]
  · intro t ht
    obtain rfl := Option.some.inj (hstrip.symm.trans ht)
    rw [strip_eq hchar.filter, List.filter_filter]
    simp only [Bool.and_self]
  · intro hnone
    constructor
    · rw [htrim, hinner, Ends.inner_eq_self hnone]
    · rw [hstrip, hfilter, List.filter_eq_self.mpr]
      intro c hc
      rw [hnone c hc]
      rfl

/-- Where the indices reach, as they do in every string below `2 ^ 31` bytes, `trim` is the one of
views. -/
theorem trim_text (v : View) (what : Str) (h : Fits (isCharIn what) v.text) :
    trim v.text (some what) = some (Text.trim v (some what)).text := by
  have hlen := (List.takeWhile_sublist (l := v.text) (isCharIn what)).length_le
  have hdrop : v.text.drop (v.text.takeWhile (isCharIn what)).length =
      v.text.dropWhile (isCharIn what) := by
    conv => lhs; arg 2; rw [← List.takeWhile_append_dropWhile (p := isCharIn what) (l := v.text)]
    exact List.drop_left
  have hpre : Ends.inner (isCharIn what) v.text <+: v.text.dropWhile (isCharIn what) :=
    List.rdropWhile_prefix _ _
  have hcount : ((v.text.dropWhile (isCharIn what)).reverse.dropWhile (isCharIn what)).length =
      (Ends.inner (isCharIn what) v.text).length := by
    rw [Ends.inner, List.rdropWhile, List.length_reverse]
  rw [trim_eq h, Text.trim, View.substr]
  dsimp only
  rw [CText.substr, hdrop, hcount, View.data, List.drop_append_of_le_length hlen, hdrop,
    List.take_append_of_le_length hpre.length_le, ← List.prefix_iff_eq_take.mp hpre]

end Result

/-- Both functions follow their definitions exactly when the string has no NUL and its indices
reach every byte that is not listed. -/
theorem follows_iff (what : CString) (str : Str) :
    Follows what str ↔ 0 ∉ str ∧ Fits (listed what) str := by
  constructor
  · exact fun h => ⟨h.no_nul, h.fits⟩
  · exact fun h => follows h.1 h.2

/-- A NUL is stripped though no list has it. -/
theorem not_follows_nul : ¬ ∀ what str, Follows what str :=
  fun h => (h ⟨[' '.toUInt8], by decide⟩ [0]).no_nul List.mem_cons_self

end Suil.Utils.Strip
