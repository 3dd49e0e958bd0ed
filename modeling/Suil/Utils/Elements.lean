import Suil.Utils.Split
import Suil.Utils.Numeral

/-! `Command::value` for lists of numbers and of truth values: the parts of the argument, trimmed
and converted where they stand. A string is shorter than `2 ^ 31`. -/
namespace Suil.Utils.Text

open CText
open Number (Integral Sign to_number)
open Hex (Fault)

/-- The `n` characters from `p` on. -/
def View.substr (v : View) (p n : ℕ) : View :=
  ⟨CText.substr v.data p n, (v.data.drop p).drop n⟩

/-- A NUL-terminated copy. -/
def View.copy (v : View) : View := ⟨v.text, [0]⟩

theorem cmp_ge {data d : Str} {p ap : ℕ} (h : cmp data p d = some ap) : p ≤ ap := by
  unfold cmp at h
  split at h
  · have := Option.some.inj h
    omega
  · obtain ⟨k, -, rfl⟩ := Option.map_eq_some_iff.mp h
    exact Nat.le_add_right p k

theorem delimLength_pos (d : Str) : 0 < delimLength d := by
  unfold delimLength
  split_ifs with hd
  · exact Nat.one_pos
  · exact List.length_pos_iff.mpr hd

/-- What is left behind the last delimiter. -/
def partsRest (str : View) (ptr : ℕ) : List View :=
  if ptr < str.size then [str.substr ptr (str.size - ptr)] else []

/-- The loop of `parts` from `ptr` on. -/
def partsFrom (str : View) (d : Str) (ptr : ℕ) : List View :=
  match _hap : cmp str.data ptr d with
  | none => partsRest str ptr
  | some ap =>
    if ap < str.size then str.substr ptr (ap - ptr) :: partsFrom str d (ap + delimLength d)
    else partsRest str ptr
termination_by str.size - ptr
decreasing_by
  have := cmp_ge _hap
  have := delimLength_pos d
  omega

def parts (str : View) : Option Str → List View
  | none => partsRest str 0
  | some d => partsFrom str d 0

/-- `strchr` finds the NUL of the string, too. -/
def isCharIn (str : Str) (c : UInt8) : Bool := str.contains c || c == 0

def trim (str : View) : Option Str → View
  | none => str
  | some what =>
    let s := (str.text.takeWhile (isCharIn what)).length
    let n := ((str.text.drop s).reverse.dropWhile (isCharIn what)).length
    str.substr s n

/-- The C strings that `cast` to `bool` takes for true. -/
def truthy (s : Str) : Bool :=
  sameLetters s ['1'.toUInt8] || sameLetters s ("true".toList.map Char.toUInt8)

/-- `cast`, which looks for the end of the string itself where it makes a `bool` of it. -/
def cast (T : Integral) (data : View) : Except Fault ℤ :=
  match T with
  | .bool => .ok (if truthy (cstr data.data 0) then 1 else 0)
  | T => to_number T data.text

/-- `setValue` for one value. -/
def setValue (T : Integral) (from_ : View) : Except Fault ℤ := cast T (trim from_ (some [' '.toUInt8]))

/-- The loop of `setValue` for a list of values. -/
def setValues (T : Integral) (out : List ℤ) : List View → Except Fault (List ℤ)
  | [] => .ok out
  | part :: parts => do
    let val ← setValue T part
    setValues T (out ++ [val]) parts

/-- `Command::value` for a `std::vector<T>`, after it has looked for the argument and its text. -/
def value (T : Integral) (lf : String) (known : Bool) (found : Option View) (default : List ℤ) :
    Except Fault (List ℤ) :=
  if ¬ known then
    .error (.InvalidArguments ("passed parameter '" ++ lf ++ "' is not an argument"))
  else
    match found with
    | none => .ok default
    | some text =>
      if text.text ≠ [] then setValues T default (parts text (some [','.toUInt8])) else .ok default

/-- A value of the type is written by the text. -/
def Spelled (T : Integral) (v : ℤ) (text : Str) : Prop :=
  match T with
  | .bool =>
    v = 1 ∧ (text = "true".toList.map Char.toUInt8 ∨ text = ['1'.toUInt8]) ∨
      v = 0 ∧ (text = "false".toList.map Char.toUInt8 ∨ text = ['0'.toUInt8])
  | T => T.Value v ∧ ∃ sign ds, (sign = Sign.absent ∨ sign = Sign.minus) ∧ ds ≠ [] ∧
      ds.length ≤ 18 ∧ (∀ d ∈ ds, d < 10) ∧ text = sign.chars ++ ds.map Number.digitChar ∧
      v = sign.apply (Number.value ds)

/-- A value and its text. -/
structure Item (T : Integral) where
  val : ℤ
  text : Str
  spelled : Spelled T val text

def comma : UInt8 := ','.toUInt8

/-- The texts with commas between them. -/
def joined (ts : List Str) : Str := [comma].intercalate ts

/-- What stands behind a text when others follow it. -/
def following (ts : List Str) : Str := ts.flatMap (comma :: ·)

/-- The views of the texts in the joined string, before `rest`. -/
def views (rest : Str) : List Str → List View
  | [] => []
  | t :: ts => ⟨t, following ts ++ rest⟩ :: views rest ts

/-- Characters that separate nothing and are not trimmed. -/
structure Plain (t : Str) : Prop where
  ne_nil : t ≠ []
  no_comma : comma ∉ t
  no_nul : 0 ∉ t
  no_space : ' '.toUInt8 ∉ t

section Parts
variable {t : Str} {ts : List Str} {c : UInt8} {k : ℕ} {s d rest : Str}

theorem joined_cons (t : Str) (ts : List Str) : joined (t :: ts) = t ++ following ts := by
  induction ts generalizing t with
  | nil => rw [joined, List.intercalate_singleton, following, List.flatMap_nil, List.append_nil]
  | cons u ts ih =>
    have hrest := ih u
    rw [joined] at hrest ⊢
    rw [List.intercalate_cons_cons, hrest, following, following, List.flatMap_cons,
      List.append_assoc]
    rfl

theorem strstr_eq_some (hk : k ≤ s.length) (hd : d <+: s.drop k)
    (hfirst : ∀ j < k, ¬ d <+: s.drop j) : strstr s d = some k := by
  refine List.find?_range_eq_some.mpr ⟨List.isPrefixOf_iff_prefix.mpr hd,
    List.mem_range.mpr (Nat.lt_succ_of_le hk), fun j hj => ?_⟩
  have hno := mt List.isPrefixOf_iff_prefix.mp (hfirst j hj)
  rw [Bool.not_eq_true] at hno
  rw [hno]
  rfl

theorem strstr_eq_none (h : ¬ d <:+: s) : strstr s d = none := by
  cases hs : strstr s d with
  | none => rfl
  | some k =>
    refine absurd ?_ h
    exact (strstr_some hs).1.isInfix.trans (List.drop_suffix k s).isInfix

theorem strstr_char (h : c ∉ t) : strstr (t ++ c :: s) [c] = some t.length := by
  refine strstr_eq_some (by rw [List.length_append]; omega) ?_ fun j hj hpre => h ?_
  · rw [List.drop_left]
    exact ⟨s, rfl⟩
  · obtain ⟨u, hu⟩ := hpre
    rw [List.drop_append_of_le_length (Nat.le_of_lt hj), List.drop_eq_getElem_cons hj] at hu
    rw [(List.cons.inj hu).1]
    exact List.getElem_mem hj

theorem strstr_char_none (h : c ∉ t) : strstr t [c] = none := by
  refine strstr_eq_none fun hinf => h ?_
  exact hinf.subset List.mem_cons_self

theorem cstr_of_no_nul (pre : Str) (h : 0 ∉ s) :
    cstr (pre ++ (s ++ 0 :: rest)) pre.length = s := by
  have hview : cstr (CString.view ⟨s, h⟩ rest).data 0 = s := cstr_view (Nat.zero_le s.length)
  unfold cstr at hview ⊢
  rw [List.drop_left]
  exact hview

theorem following_no_nul (h : ∀ t ∈ ts, Plain t) : 0 ∉ following ts := by
  intro hmem
  obtain ⟨t, ht, hc⟩ := List.mem_flatMap.mp hmem
  rcases List.mem_cons.mp hc with h0 | h0
  · exact absurd h0 (by decide)
  · exact (h t ht).no_nul h0

/-- `t` and the texts `ts` stand in the view at `pre`, and a NUL behind it. -/
structure At (str : View) (pre t : Str) (ts : List Str) (rest : Str) : Prop where
  text : str.text = pre ++ (t ++ following ts)
  rest : str.rest = 0 :: rest
  plain : ∀ u ∈ t :: ts, Plain u

variable {str : View} {pre u : Str}

theorem At.drop (h : At str pre t ts rest) :
    str.data.drop pre.length = t ++ (following ts ++ 0 :: rest) := by
  rw [View.data, h.text, h.rest, List.append_assoc, List.drop_left, List.append_assoc]

theorem At.size (h : At str pre t ts rest) :
    str.size = pre.length + (t.length + (following ts).length) := by
  rw [View.size, h.text, List.length_append, List.length_append]

theorem At.substr (h : At str pre t ts rest) :
    str.substr pre.length t.length = ⟨t, following ts ++ 0 :: rest⟩ := by
  rw [View.substr, CText.substr, h.drop, List.take_left, List.drop_left]

theorem At.cmp (h : At str pre t ts rest) : cmp str.data pre.length [comma] =
    (strstr (t ++ following ts) [comma]).map (pre.length + ·) := by
  have hnul : 0 ∉ t ++ following ts := by
    intro hmem
    rcases List.mem_append.mp hmem with h0 | h0
    · exact (h.plain t List.mem_cons_self).no_nul h0
    · exact following_no_nul (fun u hu => h.plain u (List.mem_cons_of_mem t hu)) h0
  have hcstr : cstr (pre ++ ((t ++ following ts) ++ 0 :: rest)) pre.length = t ++ following ts :=
    cstr_of_no_nul pre hnul
  rw [Text.cmp, if_neg (List.cons_ne_nil _ _), View.data, h.text, h.rest, List.append_assoc, hcstr]

theorem At.next (h : At str pre t (u :: ts) rest) : At str (pre ++ (t ++ [comma])) u ts rest where
  text := by
    rw [h.text, following, List.flatMap_cons]
    simp only [List.append_assoc, List.cons_append, List.nil_append]
    rfl
  rest := h.rest
  plain v hv := h.plain v (List.mem_cons_of_mem t hv)

theorem partsFrom_none {p : ℕ} (h : Text.cmp str.data p d = none) :
    partsFrom str d p = partsRest str p := by
  rw [partsFrom]
  split
  · rfl
  · next ap hap =>
    rw [h] at hap
    cases hap

theorem partsFrom_some {p ap : ℕ} (h : Text.cmp str.data p d = some ap) (hlt : ap < str.size) :
    partsFrom str d p = str.substr p (ap - p) :: partsFrom str d (ap + delimLength d) := by
  rw [partsFrom]
  split
  · next hap =>
    rw [h] at hap
    cases hap
  · next ap' hap =>
    rw [h] at hap
    obtain rfl := Option.some.inj hap
    exact if_pos hlt

/-- The loop of `parts` where a text begins. -/
theorem partsFrom_eq (h : At str pre t ts rest) :
    partsFrom str [comma] pre.length = views (0 :: rest) (t :: ts) := by
  induction ts generalizing pre t with
  | nil =>
    have ht := h.plain t List.mem_cons_self
    have hpos := List.length_pos_iff.mpr ht.ne_nil
    have hnil : following [] = [] := rfl
    have hcmp := h.cmp
    rw [hnil, List.append_nil, strstr_char_none ht.no_comma] at hcmp
    have hsize := h.size
    rw [hnil, List.length_nil, Nat.add_zero] at hsize
    have hlen : str.size - pre.length = t.length := by omega
    rw [partsFrom_none hcmp, partsRest, if_pos (by omega), hlen, h.substr]
    rfl
  | cons u ts ih =>
    have ht := h.plain t List.mem_cons_self
    have hcons : following (u :: ts) = comma :: (u ++ following ts) := by
      rw [following, List.flatMap_cons, List.cons_append]
      rfl
    have hcmp := h.cmp
    rw [hcons, strstr_char ht.no_comma, Option.map_some] at hcmp
    have hsize := h.size
    rw [hcons, List.length_cons] at hsize
    have hnext : pre.length + t.length + delimLength [comma] = (pre ++ (t ++ [comma])).length := by
      rw [List.length_append, List.length_append, Nat.add_assoc]
      rfl
    rw [partsFrom_some hcmp (by omega), Nat.add_sub_cancel_left, h.substr, hnext, ih h.next]
    rfl

end Parts

section Conversion
variable {T : Integral} {v : ℤ} {t rest : Str} {ds : List ℕ} {d : ℕ}

theorem trim_plain (h : Plain t) : trim ⟨t, rest⟩ (some [' '.toUInt8]) = ⟨t, rest⟩ := by
  have hchar : ∀ c ∈ t, ¬ isCharIn [' '.toUInt8] c = true := by
    intro c hc hin
    have hcases : c = ' '.toUInt8 ∨ c = 0 := by simpa [isCharIn] using hin
    rcases hcases with rfl | rfl
    · exact h.no_space hc
    · exact h.no_nul hc
  have hfront : t.takeWhile (isCharIn [' '.toUInt8]) = [] :=
    List.takeWhile_eq_nil_iff.mpr fun hl => hchar _ (List.get_mem t ⟨0, hl⟩)
  have hback : t.reverse.dropWhile (isCharIn [' '.toUInt8]) = t.reverse :=
    List.dropWhile_eq_self_iff.mpr fun hl =>
      hchar _ (List.mem_reverse.mp (List.getElem_mem hl))
  simp only [trim, hfront, List.length_nil, List.drop_zero, hback, List.length_reverse,
    View.substr, substr, View.data, List.take_left, List.drop_left]

/-- Neither spelling of true has a comma in it. -/
theorem truthy_of_comma (h : comma ∈ t) : truthy t = false := by
  have hmem : comma ∈ t.map tolower := List.mem_map.mpr ⟨comma, h, rfl⟩
  cases htrue : truthy t with
  | false => rfl
  | true =>
    rcases Bool.or_eq_true_iff.mp htrue with h1 | h1
    · rw [sameLetters_iff.mp h1] at hmem
      exact absurd hmem (by decide)
    · rw [sameLetters_iff.mp h1] at hmem
      exact absurd hmem (by decide)

theorem value_lt (hds : ∀ d ∈ ds, d < 10) : Number.value ds < 10 ^ ds.length := by
  have hfold : ∀ acc, ds.foldl (fun acc d => acc * 10 + d) acc < (acc + 1) * 10 ^ ds.length := by
    induction ds with
    | nil =>
      intro acc
      exact Nat.lt_of_lt_of_le (Nat.lt_succ_self acc) (Nat.le_of_eq (Nat.mul_one _).symm)
    | cons d ds ih =>
      intro acc
      have hd := hds d List.mem_cons_self
      have hrest := ih (fun e he => hds e (List.mem_cons_of_mem d he)) (acc * 10 + d)
      have hle : (acc * 10 + d + 1) * 10 ^ ds.length ≤ (acc + 1) * 10 * 10 ^ ds.length :=
        Nat.mul_le_mul_right _ (by omega)
      rw [List.foldl_cons, List.length_cons, Nat.pow_succ', ← Nat.mul_assoc]
      omega
  have h := hfold 0
  rw [Nat.zero_add, Nat.one_mul] at h
  exact h

theorem digitChar_plain (h : d < 10) : Number.digitChar d ≠ comma ∧ Number.digitChar d ≠ 0 ∧
    Number.digitChar d ≠ ' '.toUInt8 := by
  have hall : ∀ d < 10, Number.digitChar d ≠ comma ∧ Number.digitChar d ≠ 0 ∧
      Number.digitChar d ≠ ' '.toUInt8 := by decide
  exact hall d h

theorem Spelled.plain_of_bool (h : Spelled .bool v t) : Plain t := by
  rcases h with ⟨-, rfl | rfl⟩ | ⟨-, rfl | rfl⟩
  · exact ⟨by decide, by decide, by decide, by decide⟩
  · exact ⟨by decide, by decide, by decide, by decide⟩
  · exact ⟨by decide, by decide, by decide, by decide⟩
  · exact ⟨by decide, by decide, by decide, by decide⟩

/-- What `Spelled` says of a type other than `bool`. -/
structure SpelledInt (T : Integral) (v : ℤ) (t : Str) : Prop where
  value : T.Value v
  text : ∃ sign ds, (sign = Sign.absent ∨ sign = Sign.minus) ∧ ds ≠ [] ∧ ds.length ≤ 18 ∧
    (∀ d ∈ ds, d < 10) ∧ t = sign.chars ++ ds.map Number.digitChar ∧
      v = sign.apply (Number.value ds)

theorem Spelled.int (hT : T ≠ .bool) (h : Spelled T v t) : SpelledInt T v t := by
  cases T with
  | bool => exact absurd rfl hT
  | signed bits le => exact ⟨h.1, h.2⟩
  | unsigned bits le => exact ⟨h.1, h.2⟩

theorem SpelledInt.plain (h : SpelledInt T v t) : Plain t := by
  obtain ⟨sign, ds, hsign, hne, -, hds, rfl, -⟩ := h.text
  have hchar : ∀ c ∈ sign.chars ++ ds.map Number.digitChar, c ≠ comma ∧ c ≠ 0 ∧ c ≠ ' '.toUInt8 := by
    intro c hc
    rcases List.mem_append.mp hc with hc | hc
    · rcases hsign with rfl | rfl
      · cases hc
      · rw [List.mem_singleton.mp hc]
        decide
    · obtain ⟨d, hd, rfl⟩ := List.mem_map.mp hc
      exact digitChar_plain (hds d hd)
  refine ⟨fun hnil => ?_, fun hc => (hchar _ hc).1 rfl, fun hc => (hchar _ hc).2.1 rfl,
    fun hc => (hchar _ hc).2.2 rfl⟩
  exact hne (List.map_eq_nil_iff.mp (List.append_eq_nil_iff.mp hnil).2)

theorem Spelled.plain (h : Spelled T v t) : Plain t := by
  by_cases hT : T = .bool
  · subst hT
    exact h.plain_of_bool
  · exact (h.int hT).plain

theorem SpelledInt.to_number_eq (h : SpelledInt T v t) : to_number T t = .ok v := by
  obtain ⟨sign, ds, hsign, hne, hlen, hds, rfl, hv⟩ := h.text
  have hlt := value_lt hds
  have hpow : 10 ^ ds.length ≤ 10 ^ 18 := Nat.pow_le_pow_right (by decide) hlen
  have hnum : Number.Numeral (sign.chars ++ ds.map Number.digitChar) v [] :=
    ⟨[], sign, ds, by rw [List.append_nil, List.nil_append], nofun, hne, hds, hv⟩
  have hshort : (sign.chars ++ ds.map Number.digitChar).length ≤ 19 := by
    have hsigned : sign.chars.length ≤ 1 := by
      rcases hsign with rfl | rfl
      · exact Nat.zero_le 1
      · exact Nat.le_refl 1
    rw [List.length_append, List.length_map]
    omega
  have hrange : Number.INT64_MIN ≤ v ∧ v ≤ Number.INT64_MAX := by
    unfold Number.INT64_MIN Number.INT64_MAX
    rcases hsign with rfl | rfl
    · have hvalue : v = (Number.value ds : ℤ) := hv
      omega
    · have hvalue : v = -(Number.value ds : ℤ) := hv
      omega
  have hstrtoll := Number.strtoll_some (hnum.scanned_eq rfl)
  rcases Number.clamp_cases v [] with ⟨hmin, hmax, hclamp⟩ | ⟨hout, -⟩
  · rw [hclamp] at hstrtoll
    rcases Number.to_number_of_strtoll (T := T) hshort hstrtoll hmin hmax with ⟨-, hok⟩ | ⟨hend, -⟩
    · rw [hok, Number.cast_of_value h.value]
    · exact absurd (.inl (.inl rfl)) hend
  · exact absurd hrange hout

theorem setValue_int (hT : T ≠ .bool) (h : Spelled T v t) : setValue T ⟨t, rest⟩ = .ok v := by
  have hnum := (h.int hT).to_number_eq
  rw [setValue, trim_plain h.plain]
  cases T with
  | bool => exact absurd rfl hT
  | signed bits le => exact hnum
  | unsigned bits le => exact hnum

/-- The last text is read to its end. -/
theorem setValue_bool_last (h : Spelled .bool v t) : setValue .bool ⟨t, 0 :: rest⟩ = .ok v := by
  have hcstr : cstr (View.data ⟨t, 0 :: rest⟩) 0 = t :=
    cstr_of_no_nul [] h.plain.no_nul
  rw [setValue, trim_plain h.plain, cast, hcstr]
  rcases h with ⟨rfl, rfl | rfl⟩ | ⟨rfl, rfl | rfl⟩
  · rfl
  · rfl
  · rfl
  · rfl

/-- Any other text is read on behind its comma, and is not a spelling of true. -/
theorem setValue_bool_comma (h : Spelled .bool v t) :
    setValue .bool ⟨t, comma :: rest⟩ = .ok 0 := by
  have hcomma : comma ∈ cstr (View.data ⟨t, comma :: rest⟩) 0 := by
    rw [cstr_zero, View.data, cString_append h.plain.no_nul, cString,
      List.takeWhile_cons_of_pos (by decide)]
    exact List.mem_append_right t List.mem_cons_self
  rw [setValue, trim_plain h.plain, cast, truthy_of_comma hcomma]
  rfl

end Conversion

/-- The values that are read where the texts of truth values stand. -/
def readBack : List (Item .bool) → List ℤ
  | [] => []
  | [i] => [i.val]
  | _ :: j :: items => 0 :: readBack (j :: items)

section Lists
variable {T : Integral} {lf : String}

theorem joined_no_nul (items : List (Item T)) : 0 ∉ joined (items.map Item.text) := by
  cases items with
  | nil => exact List.not_mem_nil
  | cons i items =>
    have hplain : ∀ t ∈ items.map Item.text, Plain t := by
      intro t ht
      obtain ⟨j, -, rfl⟩ := List.mem_map.mp ht
      exact j.spelled.plain
    rw [List.map_cons, joined_cons]
    intro hmem
    rcases List.mem_append.mp hmem with h0 | h0
    · exact i.spelled.plain.no_nul h0
    · exact following_no_nul hplain h0

/-- The texts of the items with commas between them, as the value of an argument. -/
def argument (items : List (Item T)) : CString := ⟨joined (items.map Item.text), joined_no_nul items⟩

theorem parts_argument (i : Item T) (items : List (Item T)) (beyond : Str) :
    parts ((argument (i :: items)).view beyond) (some [comma]) =
      views (0 :: beyond) ((i :: items).map Item.text) := by
  have hat : At ((argument (i :: items)).view beyond) [] i.text (items.map Item.text) beyond := by
    refine ⟨joined_cons _ _, rfl, fun u hu => ?_⟩
    have hmem : u ∈ (i :: items).map Item.text := hu
    obtain ⟨j, -, rfl⟩ := List.mem_map.mp hmem
    exact j.spelled.plain
  exact partsFrom_eq hat

theorem value_argument (i : Item T) (items : List (Item T)) (beyond : Str) :
    value T lf true (some ((argument (i :: items)).view beyond)) [] =
      setValues T [] (views (0 :: beyond) ((i :: items).map Item.text)) := by
  have hne : ((argument (i :: items)).view beyond).text ≠ [] := by
    intro hnil
    have hjoined : joined ((i :: items).map Item.text) = [] := hnil
    rw [List.map_cons, joined_cons] at hjoined
    exact i.spelled.plain.ne_nil (List.append_eq_nil_iff.mp hjoined).1
  rw [← parts_argument i items beyond]
  exact if_pos hne

theorem setValues_cons {part : View} {val : ℤ} (h : setValue T part = .ok val) (out : List ℤ)
    (parts : List View) : setValues T out (part :: parts) = setValues T (out ++ [val]) parts := by
  rw [setValues, h]
  rfl

theorem setValues_int (hT : T ≠ .bool) (items : List (Item T)) (rest : Str) (out : List ℤ) :
    setValues T out (views rest (items.map Item.text)) = .ok (out ++ items.map Item.val) := by
  induction items generalizing out with
  | nil =>
    rw [List.map_nil, List.map_nil, List.append_nil]
    rfl
  | cons i items ih =>
    rw [List.map_cons, views, setValues_cons (setValue_int hT i.spelled), ih, List.append_assoc]
    rfl

theorem setValues_bool (items : List (Item .bool)) (beyond : Str) (out : List ℤ) :
    setValues .bool out (views (0 :: beyond) (items.map Item.text)) = .ok (out ++ readBack items) := by
  induction items generalizing out with
  | nil =>
    rw [readBack, List.append_nil]
    rfl
  | cons i items ih =>
    cases items with
    | nil =>
      have hval : setValue .bool ⟨i.text, following [] ++ 0 :: beyond⟩ = .ok i.val :=
        setValue_bool_last i.spelled
      rw [List.map_cons, List.map_nil, views, setValues_cons hval]
      rfl
    | cons j items =>
      have hval : setValue .bool
          ⟨i.text, following ((j :: items).map Item.text) ++ 0 :: beyond⟩ = .ok 0 := by
        rw [List.map_cons, following, List.flatMap_cons, List.append_assoc]
        exact setValue_bool_comma i.spelled
      rw [List.map_cons, views, setValues_cons hval, ih, List.append_assoc]
      rfl

/-- The list is right when only its last element may be true. -/
theorem readBack_eq_iff (items : List (Item .bool)) :
    readBack items = items.map Item.val ↔ ∀ i ∈ items.dropLast, i.val = 0 := by
  induction items with
  | nil => exact iff_of_true rfl nofun
  | cons i items ih =>
    cases items with
    | nil => exact iff_of_true rfl nofun
    | cons j items =>
      rw [readBack, List.map_cons, List.cons.injEq, ih, List.dropLast_cons_cons, List.forall_mem_cons]
      exact and_congr_left fun _ => eq_comm

theorem value_argument_iff (T : Integral) (lf : String) (items : List (Item T)) (beyond : Str) :
    value T lf true (some ((argument items).view beyond)) [] = .ok (items.map Item.val) ↔
      (T = .bool → ∀ i ∈ items.dropLast, i.val = 0) := by
  cases items with
  | nil => exact iff_of_true rfl fun _ => nofun
  | cons i items =>
    rw [value_argument]
    by_cases hT : T = .bool
    · subst hT
      rw [setValues_bool, List.nil_append, Except.ok.injEq, readBack_eq_iff]
      exact (true_imp_iff).symm.trans (imp_congr_left (iff_of_true trivial rfl))
    · rw [setValues_int hT, List.nil_append]
      exact iff_of_true rfl fun h => absurd h hT

end Lists

section Views
variable {v : View} {s t : Str}

/-- A NUL stands in the view or right behind it. -/
def View.Closed (v : View) : Prop := 0 ∈ v.text ∨ v.rest.head? = none ∨ v.rest.head? = some 0

/-- No spelling of true goes on as another. -/
theorem truthy_append (hs : truthy s = true) (ht : t ≠ []) : truthy (s ++ t) = false := by
  have hlower : ∀ u : Str, truthy u = true →
      u.map tolower = ['1'.toUInt8] ∨ u.map tolower = "true".toList.map Char.toUInt8 := by
    intro u hu
    exact (Bool.or_eq_true_iff.mp hu).imp sameLetters_iff.mp sameLetters_iff.mp
  have hpos := List.length_pos_iff.mpr ht
  cases hst : truthy (s ++ t) with
  | false => rfl
  | true =>
    have hboth := hlower _ hst
    rw [List.map_append] at hboth
    rcases hlower s hs with h | h
    · rw [h] at hboth
      rcases hboth with h' | h'
      · have hlen := congrArg List.length h'
        simp only [List.length_append, List.length_map, List.length_cons] at hlen
        omega
      · exact absurd (List.cons.inj h').1 (by decide)
    · have hlen := congrArg List.length h
      rw [List.length_map] at hlen
      rcases hboth with h' | h'
      · have hlen' := congrArg List.length h'
        simp only [List.length_append, List.length_map, List.length_cons, List.length_nil] at hlen'
        have hfour : ("true".toList).length = 4 := rfl
        rw [List.length_map, hfour] at hlen
        omega
      · rw [h] at h'
        have hnil := List.append_right_eq_self.mp h'
        exact absurd (List.map_eq_nil_iff.mp hnil) ht

/-- What the conversion to `bool` finds in the view, and in a copy of it. -/
theorem cstr_cases (v : View) : v.Closed ∧ cstr v.data 0 = cstr v.copy.data 0 ∨
    ¬ v.Closed ∧ cstr v.copy.data 0 = v.text ∧ ∃ t ≠ [], cstr v.data 0 = v.text ++ t := by
  unfold View.Closed View.copy View.data
  by_cases htext : 0 ∈ v.text
  · rw [cstr_zero, cstr_zero, cString_append_of_mem htext, cString_append_of_mem htext]
    exact .inl ⟨.inl htext, rfl⟩
  · have hcopy : cString [0] = [] := rfl
    rw [cstr_zero, cstr_zero, cString_append htext, cString_append htext, hcopy, List.append_nil,
      ← cString_eq_nil_iff]
    by_cases hrest : cString v.rest = []
    · rw [hrest, List.append_nil]
      exact .inl ⟨.inr rfl, rfl⟩
    · refine .inr ⟨fun h => ?_, rfl, cString v.rest, hrest, rfl⟩
      exact h.elim htext hrest

theorem cast_bool_copy_iff (v : View) : cast .bool v = cast .bool v.copy ↔
    v.Closed ∨ truthy v.text = false ∧ truthy (cstr v.data 0) = false := by
  have hcast : cast .bool v = cast .bool v.copy ↔
      truthy (cstr v.data 0) = truthy (cstr v.copy.data 0) := by
    rw [cast, cast, Except.ok.injEq]
    cases truthy (cstr v.data 0) <;> cases truthy (cstr v.copy.data 0) <;> decide
  rw [hcast]
  rcases cstr_cases v with ⟨hclosed, heq⟩ | ⟨hopen, hcopy, t, ht, hdata⟩
  · exact iff_of_true (congrArg truthy heq) (.inl hclosed)
  · rw [hcopy, hdata]
    cases hs : truthy v.text with
    | true => simp [hopen, truthy_append hs ht]
    | false => simp [hopen]

theorem cast_copy_iff (T : Integral) (v : View) : cast T v = cast T v.copy ↔
    (T = .bool → v.Closed ∨ truthy v.text = false ∧ truthy (cstr v.data 0) = false) := by
  cases T with
  | bool =>
    rw [cast_bool_copy_iff]
    exact (true_imp_iff).symm.trans (imp_congr_left (iff_of_true trivial rfl))
  | signed bits le => exact iff_of_true rfl nofun
  | unsigned bits le => exact iff_of_true rfl nofun

end Views

/-- The list that is read back, and the conversion of a view, for every type. -/
theorem own_text_iff (T : Integral) :
    (∀ (lf : String) (items : List (Item T)) (beyond : Str),
      value T lf true (some ((argument items).view beyond)) [] = .ok (items.map Item.val) ↔
        (T = .bool → ∀ i ∈ items.dropLast, i.val = 0)) ∧
      ∀ v : View, cast T v = cast T v.copy ↔
        (T = .bool → v.Closed ∨ truthy v.text = false ∧ truthy (cstr v.data 0) = false) :=
  ⟨value_argument_iff T, cast_copy_iff T⟩

/-- `"true,false"` is read as two times false. -/
theorem value_not_own_text :
    ¬ ∀ T : Integral,
      (∀ (lf : String) (items : List (Item T)) (beyond : Str),
        value T lf true (some ((argument items).view beyond)) [] = .ok (items.map Item.val)) ∧
      ∀ v : View, cast T v = cast T v.copy := by
  intro h
  have hiff := value_argument_iff .bool "flags"
    [⟨1, "true".toList.map Char.toUInt8, .inl ⟨rfl, .inl rfl⟩⟩,
      ⟨0, "false".toList.map Char.toUInt8, .inr ⟨rfl, .inl rfl⟩⟩] []
  have hzero := hiff.mp ((h _).1 _ _ _) rfl _ List.mem_cons_self
  exact absurd hzero (by decide)

end Suil.Utils.Text
