import Suil.Lib.Cut
import Suil.Utils.Number

/-! `split` and `parts`. A pointer is an offset into the buffer that the string is a view of. -/
namespace Suil.Utils.Text

open CText (Str substr cString)

/-- What a C string has before its NUL. -/
structure CString where
  chars : Str
  nul : 0 ∉ chars

/-- A `std::string_view`: its characters, and what the buffer has behind them. A NUL ends the
buffer. -/
structure View where
  text : Str
  rest : Str

namespace View
variable (v : View)

/-- What stands from `data()` on. -/
def data : Str := v.text ++ v.rest

def size : ℕ := v.text.length

end View

/-- The view of a whole `std::string`, which a NUL follows. -/
def CString.view (s : CString) (beyond : Str) : View := ⟨s.chars, 0 :: beyond⟩

/-- The C string at `p`. -/
def cstr (data : Str) (p : ℕ) : Str := cString (data.drop p)

/-- Where `d` occurs first. -/
def strstr (s d : Str) : Option ℕ := (List.range (s.length + 1)).find? fun k => d.isPrefixOf (s.drop k)

def cmp (data : Str) (p : ℕ) (d : Str) : Option ℕ :=
  if d = [] then some (p + (cstr data p).length) else (strstr (cstr data p) d).map (p + ·)

/-- `len` for a delimiter that is not null. -/
def delimLength (d : Str) : ℕ := if d = [] then 1 else d.length

/-- A size that has wrapped. -/
structure LengthError

/-- The loop of `split` at the match `ap`; `none` if it takes more rounds. -/
def splitLoop (data d : Str) (eptr : ℕ) : ℕ → Option ℕ → ℕ → List Str → Option (ℕ × List Str)
  | _, none, ptr, out => some (ptr, out)
  | 0, some _, _, _ => none
  | rounds + 1, some ap, ptr, out =>
    if ap ≠ eptr then
      splitLoop data d eptr rounds (cmp data (ap + delimLength d) d) (ap + delimLength d)
        (out ++ [substr data ptr (ap - ptr)])
    else splitLoop data d eptr rounds (cmp data ap d) ptr out

/-- What `split` does with what is left behind the last delimiter. -/
def splitRest (data : Str) (eptr ptr : ℕ) (out : List Str) : Except LengthError (List Str) :=
  if ptr ≠ eptr then
    if ptr < eptr then .ok (out ++ [substr data ptr (eptr - ptr)]) else .error ⟨⟩
  else .ok out

/-- What `split` returns when its loop ends within the given number of rounds. -/
def split (rounds : ℕ) (str : View) : Option Str → Option (Except LengthError (List Str))
  | none => some (splitRest str.data str.size 0 [])
  | some d =>
    (splitLoop str.data d str.size rounds (cmp str.data 0 d) 0 []).map fun r =>
      splitRest str.data str.size r.1 r.2

/-- `split` ends with the pieces `out`, and takes no more rounds for it when it is given more. -/
def Returns (str : View) (delim : Option Str) (out : List Str) : Prop :=
  ∃ n, ∀ rounds ≥ n, split rounds str delim = some (.ok out)

/-- The leftmost split of a string. -/
structure Splits (d s : Str) (out : List Str) : Prop where
  free : ∀ p ∈ out, ¬ d <:+: p
  joins : d.intercalate out = s ∨ d.intercalate out ++ d = s
  kept : ∀ ps qs rest, out = ps ++ qs → s = Cut.terminated d ps ++ (d ++ rest) →
    qs.head? = some []
  leftmost : ∀ ps qs p rest, out = ps ++ qs → s = Cut.terminated d ps ++ (p ++ (d ++ rest)) →
    ∃ q qs', qs = q :: qs' ∧ q.length ≤ p.length

section Search
variable {s d data out : Str} {k p n : ℕ} {x : CString} {beyond : Str}

theorem strstr_some (h : strstr s d = some k) :
    d <+: s.drop k ∧ k ≤ s.length ∧ ∀ j < k, ¬ d <+: s.drop j := by
  obtain ⟨hk, hmem, hfirst⟩ := List.find?_range_eq_some.mp h
  refine ⟨List.isPrefixOf_iff_prefix.mp hk, Nat.le_of_lt_succ (List.mem_range.mp hmem), ?_⟩
  intro j hj hpre
  have hno := hfirst j hj
  rw [List.isPrefixOf_iff_prefix.mpr hpre] at hno
  cases hno

theorem strstr_none (h : strstr s d = none) : ¬ d <:+: s := by
  rintro ⟨a, b, rfl⟩
  have hno := List.find?_range_eq_none.mp h a.length (by simp only [List.length_append]; omega)
  have hpre : d <+: (a ++ d ++ b).drop a.length := by
    rw [List.append_assoc, List.drop_left]
    exact List.prefix_append d b
  rw [List.isPrefixOf_iff_prefix.mpr hpre] at hno
  cases hno

theorem cstr_zero (data : Str) : cstr data 0 = cString data := rfl

theorem cstr_view (h : p ≤ x.chars.length) : cstr (x.view beyond).data p = x.chars.drop p := by
  have hnul : 0 ∉ x.chars.drop p := fun hmem => x.nul (List.mem_of_mem_drop hmem)
  have hend : cString (0 :: beyond) = [] := rfl
  unfold cstr CString.view View.data
  rw [List.drop_append_of_le_length h, CText.cString_append hnul, hend, List.append_nil]

theorem substr_view (h : p + n ≤ x.chars.length) :
    substr (x.view beyond).data p n = (x.chars.drop p).take n := by
  have hle : n ≤ (x.chars.drop p).length := by
    rw [List.length_drop]
    omega
  have hp : p ≤ x.chars.length := by omega
  unfold substr CString.view View.data
  rw [List.drop_append_of_le_length hp, List.take_append_of_le_length hle]

theorem cmp_view (hd : d ≠ []) (h : p ≤ x.chars.length) :
    cmp (x.view beyond).data p d = (strstr (x.chars.drop p) d).map (p + ·) := by
  rw [cmp, if_neg hd, cstr_view h]

/-- What stands at the first occurrence. -/
theorem split_at_strstr (h : strstr s d = some k) :
    s = s.take k ++ (d ++ s.drop (k + d.length)) ∧
      ∀ p' rest', s = p' ++ (d ++ rest') → k ≤ p'.length := by
  obtain ⟨⟨rest, hrest⟩, hk, hfirst⟩ := strstr_some h
  constructor
  · have hdrop : s.drop (k + d.length) = rest := by
      rw [← List.drop_drop, ← hrest, List.drop_left]
    rw [hdrop, hrest, List.take_append_drop]
  · rintro p' rest' rfl
    by_contra hlt
    refine hfirst p'.length (by omega) ?_
    rw [List.drop_left]
    exact List.prefix_append d rest'

end Search

section Split
variable {d : Str} {p rounds : ℕ} {x : CString} {beyond : Str}

/-- The piece, if any, behind the last delimiter. -/
def lastPiece (s : Str) (ptr : ℕ) : List Str := if ptr = s.length then [] else [s.drop ptr]

theorem leftmost_lastPiece (h : ¬ d <:+: x.chars.drop p) (hp : p ≤ x.chars.length) :
    Cut.Leftmost d (x.chars.drop p) (lastPiece x.chars p) := by
  unfold lastPiece
  split_ifs with heq
  · rw [heq, List.drop_length]
    exact .done
  · refine .last (fun hnil => heq ?_) h
    have hlen := List.drop_eq_nil_iff.mp hnil
    omega

/-- The loop from `p` on, where the delimiter is not empty. -/
theorem splitLoop_view (hd : d ≠ []) (x : CString) (beyond : Str) (hp : p ≤ x.chars.length) :
    ∃ ptr pieces, (∀ rounds > x.chars.length - p, ∀ out,
        splitLoop (x.view beyond).data d x.chars.length rounds (cmp (x.view beyond).data p d) p
          out = some (ptr, out ++ pieces)) ∧
      ptr ≤ x.chars.length ∧
      Cut.Leftmost d (x.chars.drop p) (pieces ++ lastPiece x.chars ptr) := by
  induction hn : x.chars.length - p using Nat.strong_induction_on generalizing p with
  | _ n ih =>
    rw [cmp_view hd hp]
    cases h : strstr (x.chars.drop p) d with
    | none =>
      refine ⟨p, [], fun rounds _ out => ?_, hp, leftmost_lastPiece (strstr_none h) hp⟩
      rw [List.append_nil]
      cases rounds with
      | zero => rfl
      | succ rounds => rfl
    | some k =>
      obtain ⟨hcut, hfirst⟩ := split_at_strstr h
      have hpos := List.length_pos_iff.mpr hd
      have hlen : k + d.length ≤ n := by
        have hl := congrArg List.length hcut
        have hk := (strstr_some h).2.1
        simp only [List.length_append, List.length_take, List.length_drop] at hl hk
        omega
      have hne : p + k ≠ x.chars.length := by omega
      have hdelim : delimLength d = d.length := if_neg hd
      have hpiece : substr (x.view beyond).data p (p + k - p) = (x.chars.drop p).take k := by
        rw [Nat.add_sub_cancel_left, substr_view (by omega)]
      obtain ⟨ptr, pieces, hloop, hptr, hleft⟩ :=
        ih (n - (k + d.length)) (by omega) (p := p + k + d.length) (by omega) (by omega)
      refine ⟨ptr, (x.chars.drop p).take k :: pieces, fun rounds hrounds out => ?_, hptr, ?_⟩
      · cases rounds with
        | zero => omega
        | succ rounds =>
          rw [Option.map_some, splitLoop, if_pos hne, hdelim, hpiece, hloop rounds (by omega),
            List.append_assoc]
          rfl
      · have hrest : (x.chars.drop p).drop (k + d.length) = x.chars.drop (p + k + d.length) := by
          rw [List.drop_drop, Nat.add_assoc]
        rw [hrest] at hcut
        have htake : ((x.chars.drop p).take k).length = k := by
          rw [List.length_take, List.length_drop]
          omega
        have hstep := Cut.Leftmost.cut (p := (x.chars.drop p).take k) (fun p' rest' heq => ?_) hleft
        · rw [← hcut] at hstep
          exact hstep
        · rw [← hcut] at heq
          rw [htake]
          exact hfirst p' rest' heq

theorem splitRest_view {ptr : ℕ} (h : ptr ≤ x.chars.length) (out : List Str) :
    splitRest (x.view beyond).data x.chars.length ptr out = .ok (out ++ lastPiece x.chars ptr) := by
  unfold splitRest lastPiece
  by_cases heq : ptr = x.chars.length
  · rw [if_neg (Decidable.not_not.mpr heq), if_pos heq, List.append_nil]
  · rw [if_pos heq, if_neg heq, if_pos (by omega), substr_view (by omega),
      List.take_of_length_le]
    rw [List.length_drop]

theorem split_leftmost (hd : d ≠ []) (x : CString) (beyond : Str) :
    ∃ out, Returns (x.view beyond) (some d) out ∧ Cut.Leftmost d x.chars out := by
  obtain ⟨ptr, pieces, hloop, hptr, hleft⟩ := splitLoop_view hd x beyond (Nat.zero_le _)
  refine ⟨pieces ++ lastPiece x.chars ptr, ⟨x.chars.length + 1, fun rounds hrounds => ?_⟩, hleft⟩
  have hsize : (x.view beyond).size = x.chars.length := rfl
  unfold split
  simp only [hsize]
  rw [hloop rounds (by omega), List.nil_append, Option.map_some, splitRest_view hptr]

theorem Splits.of_leftmost {s : Str} {out : List Str} (hd : d ≠ []) (h : Cut.Leftmost d s out) :
    Splits d s out where
  free := h.free hd
  joins := h.joins
  kept ps qs rest hout hs := by
    have hempty : s = Cut.terminated d ps ++ ([] ++ (d ++ rest)) := hs
    obtain ⟨q, qs', rfl, hq⟩ := h.leftmost hout hempty hd
    rw [List.length_eq_zero_iff.mp (Nat.le_zero.mp hq)]
    rfl
  leftmost ps qs p rest hout hs := h.leftmost hout hs hd

/-- With an empty delimiter the loop stays where the string ends. -/
theorem splitLoop_empty (x : CString) (beyond : Str) (rounds ptr : ℕ) (out : List Str) :
    splitLoop (x.view beyond).data [] x.chars.length rounds (some x.chars.length) ptr out = none := by
  induction rounds with
  | zero => rfl
  | succ rounds ih =>
    have hcmp : cmp (x.view beyond).data x.chars.length [] = some x.chars.length := by
      rw [cmp, if_pos rfl, cstr_view (Nat.le_refl _), List.drop_length]
      rfl
    rw [splitLoop, if_neg (Decidable.not_not.mpr rfl), hcmp]
    exact ih

theorem split_empty (x : CString) (beyond : Str) (rounds : ℕ) :
    split rounds (x.view beyond) (some []) = none := by
  have hcmp : cmp (x.view beyond).data 0 [] = some x.chars.length := by
    rw [cmp, if_pos rfl, cstr_view (Nat.zero_le _), List.drop_zero, Nat.zero_add]
  have hloop := splitLoop_empty x beyond rounds 0 []
  unfold split
  simp only
  rw [hcmp]
  exact congrArg _ hloop

end Split

theorem split_iff (x d : CString) (beyond : Str) :
    (∃ out, Returns (x.view beyond) (some d.chars) out ∧
      (d.chars ≠ [] → Splits d.chars x.chars out)) ↔ d.chars ≠ [] := by
  constructor
  · rintro ⟨out, ⟨n, hn⟩, -⟩ hd
    have hnone := split_empty x beyond n
    rw [← hd, hn n (Nat.le_refl n)] at hnone
    cases hnone
  · intro hd
    obtain ⟨out, hreturns, hleft⟩ := split_leftmost hd x beyond
    exact ⟨out, hreturns, fun _ => .of_leftmost hd hleft⟩

/-- `split("a", "")` does not end. -/
theorem split_runs_on :
    ¬ ∀ (x d : CString) (beyond : Str), ∃ out, Returns (x.view beyond) (some d.chars) out ∧
      (d.chars ≠ [] → Splits d.chars x.chars out) := by
  intro h
  obtain ⟨out, ⟨n, hn⟩, -⟩ := h ⟨['a'.toUInt8], by decide⟩ ⟨[], by decide⟩ []
  have hnone := split_empty ⟨['a'.toUInt8], by decide⟩ [] n
  rw [hn n (Nat.le_refl n)] at hnone
  cases hnone

end Suil.Utils.Text
