import Suil.Utils.Number
import Mathlib.Data.List.TakeWhile

/-! Which strings `to_number` reads right: white space, a sign and digits, with nothing or a
`'.'` behind them, against what `strtonum` accepts. -/
namespace Suil.Utils.Number

open CText (Str)
open Hex (Fault)

inductive Sign
  | absent
  | plus
  | minus

def Sign.chars : Sign → Str
  | absent => []
  | plus => ['+'.toUInt8]
  | minus => ['-'.toUInt8]

def Sign.apply : Sign → ℕ → ℤ
  | minus, n => -n
  | _, n => n

/-- The number that the digits write. -/
def value (ds : List ℕ) : ℕ := ds.foldl (fun acc d => acc * 10 + d) 0

/-- Optional white space, an optional sign and digits that write `v` stand before `rest`. -/
def Numeral (s : Str) (v : ℤ) (rest : Str) : Prop :=
  ∃ spaces sign ds, s = spaces ++ (Sign.chars sign ++ (ds.map digitChar ++ rest)) ∧
    (∀ c ∈ spaces, isspace c = true) ∧ ds ≠ [] ∧ (∀ d ∈ ds, d < 10) ∧ v = sign.apply (value ds)

/-- Nothing or a `'.'` comes next. -/
def Ends (rest : Str) : Prop := rest.head? = none ∨ rest.head? = some '.'.toUInt8

/-- `s` writes the number `v`. -/
def Written (s : Str) (v : ℤ) : Prop := ∃ rest, Numeral s v rest ∧ Ends rest

def NoDigit (rest : Str) : Prop := rest.head?.bind (digitValue 10) = none

/-- `to_number` returns only the number that is written, and throws where none is. -/
def Sound (T : Integral) (s : Str) : Prop :=
  (∀ v, to_number T s = .ok v → Written s v) ∧
    ((∀ v, ¬ Written s v) → ∃ e, to_number T s = .error e)

/-- The string is too long to be read; or it begins with a byte, neither `'.'` nor NUL, and a
number of 64 bits at its front has no NUL behind it and, where the string ends or goes on with
`'.'`, is a value of the type. -/
def Guarded (T : Integral) (s : Str) : Prop :=
  19 < s.length ∨
    (s.head? ≠ none ∧ s.head? ≠ some '.'.toUInt8 ∧ s.head? ≠ some 0 ∧
      ∀ v rest, Numeral s v rest → NoDigit rest → INT64_MIN ≤ v → v ≤ INT64_MAX →
        rest.head? ≠ some 0 ∧ (Ends rest → T.Value v))

/-- The number that `strtoll` reads, whether or not it is in range, and what follows it. -/
def scanned (s : Str) : Option (ℤ × Str) :=
  let signed := readSign (s.dropWhile isspace)
  if (signed.2.head?.bind (digitValue 10)).isNone then none
  else
    let read := readDigits 10 0 signed.2
    some (if signed.1 then -read.1 else read.1, read.2)

section Scan
variable {s rest rest' : Str} {v v' l : ℤ} {ds : List ℕ} {d acc : ℕ} {c : UInt8} {T : Integral}

set_option maxRecDepth 4000 in
/-- The characters with a value in base ten. -/
theorem digitValue_ten (h : digitValue 10 c = some d) : d < 10 ∧ c = digitChar d := by
  have hall : ∀ n < 256, (digitValue 10 (.ofNat n)).all fun d =>
      decide (d < 10 ∧ UInt8.ofNat n = digitChar d) := by
    decide
  have hc := hall c.toNat c.toNat_lt
  rw [UInt8.ofNat_toNat, h] at hc
  exact of_decide_eq_true hc

theorem readDigits_spec (s : Str) (acc : ℕ) : ∃ ds : List ℕ,
    s = ds.map digitChar ++ (readDigits 10 acc s).2 ∧ (∀ d ∈ ds, d < 10) ∧
      (readDigits 10 acc s).1 = ds.foldl (fun acc d => acc * 10 + d) acc ∧
      NoDigit (readDigits 10 acc s).2 := by
  induction s generalizing acc with
  | nil => exact ⟨[], rfl, nofun, rfl, rfl⟩
  | cons c s ih =>
    unfold readDigits
    cases hc : digitValue 10 c with
    | none => exact ⟨[], rfl, nofun, rfl, hc⟩
    | some d =>
      obtain ⟨hd, rfl⟩ := digitValue_ten hc
      obtain ⟨ds, hs, hds, hval, hend⟩ := ih (acc * 10 + d)
      refine ⟨d :: ds, ?_, ?_, hval, hend⟩
      · rw [List.map_cons, List.cons_append]
        exact congrArg _ hs
      · intro e he
        rcases List.mem_cons.mp he with rfl | he
        · exact hd
        · exact hds e he

theorem readDigits_append (hds : ∀ d ∈ ds, d < 10) (hrest : NoDigit rest) (acc : ℕ) :
    readDigits 10 acc (ds.map digitChar ++ rest) =
      (ds.foldl (fun acc d => acc * 10 + d) acc, rest) := by
  induction ds generalizing acc with
  | nil =>
    cases rest with
    | nil => rfl
    | cons c rest =>
      have hc : digitValue 10 c = none := hrest
      rw [List.map_nil, List.nil_append, readDigits, hc]
      rfl
  | cons d ds ih =>
    have hd := (digitChar_cases (hds d List.mem_cons_self)).1
    rw [List.map_cons, List.cons_append, readDigits, hd]
    exact ih (fun e he => hds e (List.mem_cons_of_mem d he)) _

theorem readSign_spec (s : Str) : ∃ sign : Sign, s = sign.chars ++ (readSign s).2 ∧
    ∀ n : ℕ, (if (readSign s).1 then -(n : ℤ) else n) = sign.apply n := by
  cases s with
  | nil => exact ⟨.absent, rfl, fun _ => rfl⟩
  | cons c s =>
    by_cases hminus : c = '-'.toUInt8
    · rw [readSign, if_pos hminus, hminus]
      exact ⟨.minus, rfl, fun _ => rfl⟩
    · by_cases hplus : c = '+'.toUInt8
      · rw [readSign, if_neg hminus, if_pos hplus, hplus]
        exact ⟨.plus, rfl, fun _ => rfl⟩
      · rw [readSign, if_neg hminus, if_neg hplus]
        exact ⟨.absent, rfl, fun _ => rfl⟩

theorem readSign_append (sign : Sign) (rest : Str) (hds : ∀ d ∈ ds, d < 10) (hne : ds ≠ []) :
    ∃ b, readSign ((sign.chars ++ (ds.map digitChar ++ rest)).dropWhile isspace) =
        (b, ds.map digitChar ++ rest) ∧ ∀ n : ℕ, (if b then -(n : ℤ) else n) = sign.apply n := by
  cases sign with
  | absent =>
    cases ds with
    | nil => exact absurd rfl hne
    | cons d ds =>
      obtain ⟨-, hspace, hminus, hplus⟩ := digitChar_cases (hds d List.mem_cons_self)
      refine ⟨false, ?_, fun _ => rfl⟩
      rw [Sign.chars, List.nil_append, List.map_cons, List.cons_append, List.dropWhile_cons,
        hspace, if_neg Bool.false_ne_true, readSign, if_neg hminus, if_neg hplus]
  | plus => exact ⟨false, rfl, fun _ => rfl⟩
  | minus => exact ⟨true, rfl, fun _ => rfl⟩

theorem Numeral.scanned_eq (h : Numeral s v rest) (hrest : NoDigit rest) :
    scanned s = some (v, rest) := by
  obtain ⟨spaces, sign, ds, rfl, hspaces, hne, hds, rfl⟩ := h
  obtain ⟨b, hread, hsign⟩ := readSign_append sign rest hds hne
  have hhead : ((ds.map digitChar ++ rest).head?.bind (digitValue 10)).isNone = false := by
    cases ds with
    | nil => exact absurd rfl hne
    | cons d ds =>
      have hd := (digitChar_cases (hds d List.mem_cons_self)).1
      rw [List.map_cons, List.cons_append, List.head?_cons, Option.bind_some, hd]
      rfl
  unfold scanned
  rw [List.dropWhile_append_of_pos hspaces, hread]
  simp only [hhead, readDigits_append hds hrest, hsign, Bool.false_eq_true, if_false]
  rfl

theorem scanned_some (h : scanned s = some (v, rest)) : Numeral s v rest ∧ NoDigit rest := by
  unfold scanned at h
  obtain ⟨sign, hsigned, hsign⟩ := readSign_spec (s.dropWhile isspace)
  obtain ⟨ds, hdigits, hds, hval, hend⟩ :=
    readDigits_spec (readSign (s.dropWhile isspace)).2 0
  by_cases hnone : ((readSign (s.dropWhile isspace)).2.head?.bind (digitValue 10)).isNone
  · rw [if_pos hnone] at h
    cases h
  rw [if_neg hnone] at h
  obtain ⟨hv, hrest⟩ := Prod.mk.inj (Option.some.inj h)
  rw [hrest] at hdigits hend
  refine ⟨⟨s.takeWhile isspace, sign, ds, ?_, ?_, ?_, hds, ?_⟩, hend⟩
  · rw [← hdigits, ← hsigned, List.takeWhile_append_dropWhile]
  · exact fun c hc => List.mem_takeWhile_imp hc
  · rintro rfl
    rw [List.map_nil, List.nil_append] at hdigits
    rw [hdigits] at hnone
    exact hnone (by rw [hend]; rfl)
  · rw [← hv, hsign, hval]
    rfl

theorem Numeral.unique (h : Numeral s v rest) (h' : Numeral s v' rest') (hrest : NoDigit rest)
    (hrest' : NoDigit rest') : v = v' ∧ rest = rest' := by
  have heq := (h.scanned_eq hrest).symm.trans (h'.scanned_eq hrest')
  exact Prod.mk.inj (Option.some.inj heq)

theorem Ends.noDigit (h : Ends rest) : NoDigit rest := by
  unfold NoDigit
  rcases h with h | h
  · rw [h]
    rfl
  · rw [h]
    rfl

theorem strtoll_none (h : scanned s = none) : strtoll s 10 = ⟨0, 0, s⟩ := by
  unfold scanned at h
  by_cases hnone : ((readSign (s.dropWhile isspace)).2.head?.bind (digitValue 10)).isNone
  · unfold strtoll
    simp only [readBase_ten]
    exact if_pos hnone
  · rw [if_neg hnone] at h
    cases h

theorem strtoll_some (h : scanned s = some (v, rest)) : strtoll s 10 = clamp v rest := by
  unfold scanned at h
  by_cases hnone : ((readSign (s.dropWhile isspace)).2.head?.bind (digitValue 10)).isNone
  · rw [if_pos hnone] at h
    cases h
  · rw [if_neg hnone] at h
    obtain ⟨rfl, rfl⟩ := Prod.mk.inj (Option.some.inj h)
    unfold strtoll
    simp only [readBase_ten]
    exact if_neg hnone

/-- `ep` may stand before nothing, a `'.'` or a NUL. -/
theorem matchany_iff (s : Str) :
    matchany (s.headD 0) ['.'.toUInt8, 0] = true ↔ Ends s ∨ s.head? = some 0 := by
  cases s with
  | nil => exact iff_of_true rfl (.inl (.inl rfl))
  | cons c s => simp [matchany, Ends]

/-- What `to_number` does with what `strtoll` has read. -/
theorem to_number_of_strtoll (hlen : s.length ≤ 19) (h : strtoll s 10 = ⟨l, 0, rest⟩)
    (hmin : INT64_MIN ≤ l) (hmax : l ≤ INT64_MAX) :
    (Ends rest ∨ rest.head? = some 0) ∧ to_number T s = .ok (T.cast l) ∨
      ¬ (Ends rest ∨ rest.head? = some 0) ∧ ∃ e, to_number T s = .error e := by
  have hwindow : ¬ INT64_MIN > INT64_MAX := by decide
  rw [to_number, strtonum, if_neg (Nat.not_lt.mpr hlen), if_neg hwindow, h]
  by_cases hend : matchany (rest.headD 0) ['.'.toUInt8, 0]
  · have hok : ¬ ((0 : ℕ) ≠ 0 ∨ ¬ matchany (rest.headD 0) ['.'.toUInt8, 0]) := by
      rintro (h | h)
      · exact h rfl
      · exact h hend
    refine .inl ⟨(matchany_iff rest).mp hend, ?_⟩
    simp only [if_neg hok, if_neg (Int.not_lt.mpr hmin), gt_iff_lt, if_neg (Int.not_lt.mpr hmax)]
    rfl
  · refine .inr ⟨mt (matchany_iff rest).mpr hend, ?_⟩
    simp only [if_pos (Or.inr hend)]
    exact ⟨_, rfl⟩

theorem to_number_long (h : 19 < s.length) : ∃ e, to_number T s = .error e := by
  rw [to_number, strtonum, if_pos h]
  exact ⟨_, rfl⟩

theorem to_number_range (h : strtoll s 10 = ⟨l, ERANGE, rest⟩) : ∃ e, to_number T s = .error e := by
  by_cases hlen : 19 < s.length
  · exact to_number_long hlen
  · have hwindow : ¬ INT64_MIN > INT64_MAX := by decide
    have herrno : ERANGE ≠ 0 := by decide
    rw [to_number, strtonum, if_neg hlen, if_neg hwindow, h]
    simp only [if_pos (Or.inl herrno)]
    exact ⟨_, rfl⟩

theorem clamp_cases (v : ℤ) (rest : Str) :
    INT64_MIN ≤ v ∧ v ≤ INT64_MAX ∧ clamp v rest = ⟨v, 0, rest⟩ ∨
      ¬ (INT64_MIN ≤ v ∧ v ≤ INT64_MAX) ∧ ∃ l, clamp v rest = ⟨l, ERANGE, rest⟩ := by
  unfold clamp
  split_ifs with hmin hmax
  · exact .inr ⟨by omega, _, rfl⟩
  · exact .inr ⟨by omega, _, rfl⟩
  · exact .inl ⟨Int.not_lt.mp hmin, Int.not_lt.mp hmax, rfl⟩

/-- `T(l)` is a value of the type. -/
theorem value_cast (T : Integral) (l : ℤ) : T.Value (T.cast l) := by
  cases T with
  | bool =>
    by_cases hl : l = 0
    · exact .inl (if_pos hl)
    · exact .inr (if_neg hl)
  | signed bits le =>
    have hpos : (0 : ℤ) < 2 ^ bits := Int.pow_pos (by omega)
    have hpow : (2 : ℤ) ^ (bits + 1) = 2 * 2 ^ bits := by rw [Int.pow_succ, Int.mul_comm]
    have hlo := Int.emod_nonneg (l + 2 ^ bits) (b := 2 ^ (bits + 1)) (by omega)
    have hhi := Int.emod_lt_of_pos (l + 2 ^ bits) (b := 2 ^ (bits + 1)) (by omega)
    unfold Integral.cast Integral.Value
    simp only
    omega
  | unsigned bits le =>
    have hpos : (0 : ℤ) < 2 ^ bits := Int.pow_pos (by omega)
    exact ⟨Int.emod_nonneg l (by omega), Int.emod_lt_of_pos l hpos⟩

theorem cast_eq_iff (T : Integral) (l : ℤ) : T.cast l = l ↔ T.Value l :=
  ⟨fun h => h ▸ value_cast T l, cast_of_value⟩

/-- Neither nothing nor a `'.'` nor a NUL begins a number. -/
theorem scanned_head (h : Ends s ∨ s.head? = some 0) : scanned s = none := by
  cases s with
  | nil => rfl
  | cons c s =>
    rcases h with (h | h) | h
    · cases h
    · rw [Option.some.inj h]
      rfl
    · rw [Option.some.inj h]
      rfl

theorem not_written_of_none (h : scanned s = none) : ¬ Written s v := by
  rintro ⟨rest, hnum, hend⟩
  have hsome := hnum.scanned_eq hend.noDigit
  rw [h] at hsome
  cases hsome

theorem written_iff_of_some (h : scanned s = some (v, rest)) :
    Written s v' ↔ Ends rest ∧ v' = v := by
  obtain ⟨hnum, hdigit⟩ := scanned_some h
  constructor
  · rintro ⟨rest', hnum', hend⟩
    obtain ⟨rfl, rfl⟩ := hnum.unique hnum' hdigit hend.noDigit
    exact ⟨hend, rfl⟩
  · rintro ⟨hend, rfl⟩
    exact ⟨rest, hnum, hend⟩

theorem sound_of_error (h : ∃ e, to_number T s = .error e) : Sound T s := by
  obtain ⟨e, he⟩ := h
  refine ⟨fun v hv => ?_, fun _ => ⟨e, he⟩⟩
  rw [he] at hv
  cases hv

theorem sound_iff_of_ok (h : to_number T s = .ok v) : Sound T s ↔ Written s v := by
  refine ⟨fun hs => hs.1 v h, fun hw => ⟨fun v' hv' => ?_, fun hno => absurd hw (hno v)⟩⟩
  rw [h] at hv'
  exact Except.ok.inj hv' ▸ hw

theorem guarded_iff_of_some (hlen : s.length ≤ 19) (h : scanned s = some (v, rest)) :
    Guarded T s ↔ (INT64_MIN ≤ v → v ≤ INT64_MAX →
      rest.head? ≠ some 0 ∧ (Ends rest → T.Value v)) := by
  obtain ⟨hnum, hdigit⟩ := scanned_some h
  have hhead : ¬ (Ends s ∨ s.head? = some 0) := by
    intro hbad
    rw [scanned_head hbad] at h
    cases h
  constructor
  · rintro (hlong | ⟨-, -, -, hall⟩)
    · exact absurd hlong (Nat.not_lt.mpr hlen)
    · exact hall v rest hnum hdigit
  · intro hv
    refine .inr ⟨fun h => hhead (.inl (.inl h)), fun h => hhead (.inl (.inr h)),
      fun h => hhead (.inr h), fun v' rest' hnum' hdigit' => ?_⟩
    obtain ⟨rfl, rfl⟩ := hnum.unique hnum' hdigit hdigit'
    exact hv

theorem sound_iff_of_some (hlen : s.length ≤ 19) (h : scanned s = some (v, rest)) :
    Sound T s ↔ (INT64_MIN ≤ v → v ≤ INT64_MAX →
      rest.head? ≠ some 0 ∧ (Ends rest → T.Value v)) := by
  have hstrtoll := strtoll_some h
  rcases clamp_cases v rest with ⟨hmin, hmax, hclamp⟩ | ⟨hrange, l, hclamp⟩
  · rw [hclamp] at hstrtoll
    rcases to_number_of_strtoll hlen hstrtoll hmin hmax with ⟨hends, hok⟩ | ⟨hends, herror⟩
    · rw [sound_iff_of_ok hok, written_iff_of_some h, cast_eq_iff]
      constructor
      · rintro ⟨hend, hvalue⟩ - -
        refine ⟨fun hnul => ?_, fun _ => hvalue⟩
        rcases hend with h | h
        · rw [h] at hnul
          cases hnul
        · rw [h] at hnul
          exact absurd (Option.some.inj hnul) (by decide)
      · intro hv
        obtain ⟨hnul, hvalue⟩ := hv hmin hmax
        have hend := hends.resolve_right hnul
        exact ⟨hend, hvalue hend⟩
    · refine iff_of_true (sound_of_error herror) fun _ _ => ⟨?_, ?_⟩
      · exact fun hnul => hends (.inr hnul)
      · exact fun hend => absurd (.inl hend) hends
  · rw [hclamp] at hstrtoll
    exact iff_of_true (sound_of_error (to_number_range hstrtoll))
      fun hmin hmax => absurd ⟨hmin, hmax⟩ hrange

theorem sound_iff_of_none (hlen : s.length ≤ 19) (h : scanned s = none) :
    Sound T s ↔ ¬ (Ends s ∨ s.head? = some 0) := by
  have hmin : INT64_MIN ≤ 0 := by decide
  have hmax : (0 : ℤ) ≤ INT64_MAX := by decide
  rcases to_number_of_strtoll hlen (strtoll_none h) hmin hmax with ⟨hends, hok⟩ | ⟨hends, herror⟩
  · rw [sound_iff_of_ok hok]
    exact iff_of_false (not_written_of_none h) fun hno => hno hends
  · exact iff_of_true (sound_of_error herror) hends

end Scan

theorem to_number_sound_iff (T : Integral) (s : Str) : Sound T s ↔ Guarded T s := by
  by_cases hlen : 19 < s.length
  · exact iff_of_true (sound_of_error (to_number_long hlen)) (.inl hlen)
  · have hle := Nat.not_lt.mp hlen
    cases h : scanned s with
    | some read => rw [sound_iff_of_some hle h, guarded_iff_of_some hle h]
    | none =>
      rw [sound_iff_of_none hle h]
      constructor
      · intro hhead
        refine .inr ⟨fun h => hhead (.inl (.inl h)), fun h => hhead (.inl (.inr h)),
          fun h => hhead (.inr h), fun v rest hnum hdigit => ?_⟩
        rw [hnum.scanned_eq hdigit] at h
        cases h
      · rintro (hlong | ⟨hnil, hdot, hnul, -⟩)
        · exact absurd hlong hlen
        · rintro ((h | h) | h)
          · exact hnil h
          · exact hdot h
          · exact hnul h

/-- The string `"."` is read as 0. -/
theorem to_number_not_sound : ¬ ∀ (T : Integral) (s : Str), Sound T s := by
  intro hall
  have hok : to_number (.signed 31 (by decide)) ['.'.toUInt8] = .ok 0 := rfl
  exact not_written_of_none rfl ((hall (.signed 31 (by decide)) ['.'.toUInt8]).1 0 hok)

end Suil.Utils.Number
