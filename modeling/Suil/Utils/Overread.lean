import Suil.Utils.B64

/-! Which strings `decode` reads beyond their end. The bytes of the string are `it 0` to
`it (n - 1)`; what stands behind them may be anything. -/
namespace Suil.Utils.B64

/-- What the caller of `decode` gets. -/
def Run.result (run : Run) : Except InvalidArguments (List UInt8) :=
  match run.thrown with
  | some e => .error e
  | none => .ok run.os

/-- The two memories hold the same `n` bytes. -/
def Agree (n : ℕ) (it it' : ℕ → UInt8) : Prop := ∀ k < n, it k = it' k

/-- Where the last group begins. -/
def lastGroup (n : ℕ) : ℕ := 4 * ((n - 1) / 4)

/-- The first byte outside the alphabet is at `d`. -/
structure StopsAt (it : ℕ → UInt8) (n d : ℕ) : Prop where
  lt : d < n
  mem : ∀ k < d, it k ∈ b64table
  not_mem : it d ∉ b64table

/-- A byte stands outside the alphabet, and the first one is not an `'='`, or stands before the
last group, or the length of the last group and its offset in it come to four or more. -/
def Bounded (it : ℕ → UInt8) (n : ℕ) : Prop :=
  ∃ d, StopsAt it n d ∧
    (it d ≠ pad ∨ d < lastGroup n ∨ 4 ≤ n - lastGroup n + (d - lastGroup n))

/-- The bytes of the first `q` groups. -/
def groupBytes (it : ℕ → UInt8) : ℕ → List UInt8
  | 0 => []
  | q + 1 => [first it, second it, third it] ++ groupBytes (fun k => it (k + 4)) q

/-- The first `n` bytes of one memory, then those of another. -/
def fill (n : ℕ) (it beyond : ℕ → UInt8) (k : ℕ) : UInt8 := if k < n then it k else beyond k

section Runs
variable {it it' : ℕ → UInt8} {n d q i sz : ℕ} {os : List UInt8}

theorem lastGroup_eq (n : ℕ) : lastGroup n = 4 * ((n - 1) / 4) ∧ n - lastGroup n ≤ 4 ∧
    (0 < n → lastGroup n < n) := by
  unfold lastGroup
  omega

theorem agree_fill (n : ℕ) (it beyond : ℕ → UInt8) : Agree n (fill n it beyond) it :=
  fun _ hk => if_pos hk

theorem fill_ge {beyond : ℕ → UInt8} {k : ℕ} (hk : n ≤ k) : fill n it beyond k = beyond k :=
  if_neg (Nat.not_lt.mpr hk)

theorem Agree.symm (h : Agree n it it') : Agree n it' it := fun k hk => (h k hk).symm

theorem StopsAt.congr (h : StopsAt it n d) (ha : Agree n it it') : StopsAt it' n d where
  lt := h.lt
  mem k hk := ha k (Nat.lt_trans hk h.lt) ▸ h.mem k hk
  not_mem := ha d h.lt ▸ h.not_mem

theorem exists_stopsAt (h : ¬ ∀ k < n, it k ∈ b64table) : ∃ d, StopsAt it n d := by
  induction n with
  | zero => exact absurd (fun k hk => absurd hk (Nat.not_lt_zero k)) h
  | succ n ih =>
    by_cases hn : ∀ k < n, it k ∈ b64table
    · refine ⟨n, Nat.lt_succ_self n, hn, fun hmem => h fun k hk => ?_⟩
      rcases Nat.lt_succ_iff_lt_or_eq.mp hk with hlt | heq
      · exact hn k hlt
      · exact heq ▸ hmem
    · obtain ⟨d, hd⟩ := ih hn
      exact ⟨d, Nat.lt_succ_of_lt hd.lt, hd.mem, hd.not_mem⟩

theorem groupBytes_congr (h : Agree (4 * q) it it') : groupBytes it q = groupBytes it' q := by
  induction q generalizing it it' with
  | zero => rfl
  | succ q ih =>
    have h0 := h 0 (by omega)
    have h1 := h 1 (by omega)
    have h2 := h 2 (by omega)
    have h3 := h 3 (by omega)
    have htail : Agree (4 * q) (fun k => it (k + 4)) fun k => it' (k + 4) :=
      fun k hk => h (k + 4) (by omega)
    rw [groupBytes, groupBytes, ih htail, first, first, second, second, third, third, h0, h1, h2,
      h3]

/-- `putLast` reads no byte behind those that it is told to put. -/
theorem putLast_congr (h : Agree sz it it') : putLast it sz os = putLast it' sz os := by
  have hfirst : (if sz > 1 then [first it] else []) = if sz > 1 then [first it'] else [] :=
    ite_congr rfl (fun hs => by rw [first, first, h 0 (by omega), h 1 (by omega)]) fun _ => rfl
  have hsecond : (if sz > 2 then [second it] else []) = if sz > 2 then [second it'] else [] :=
    ite_congr rfl (fun hs => by rw [second, second, h 1 (by omega), h 2 (by omega)]) fun _ => rfl
  have hthird : (if sz > 3 then [third it] else []) = if sz > 3 then [third it'] else [] :=
    ite_congr rfl (fun hs => by rw [third, third, h 2 (by omega), h 3 (by omega)]) fun _ => rfl
  rw [putLast, putLast, hfirst, hsecond, hthird]

theorem putLast_of_gt (h : 3 < sz) : putLast it sz os = os ++ [first it, second it, third it] := by
  simp only [putLast, gt_iff_lt, if_pos h, if_pos (show 2 < sz by omega),
    if_pos (show 1 < sz by omega), List.append_assoc, List.cons_append, List.nil_append]

theorem decodeFrom_groups (hq : 4 * q < n) (h : ∀ k < 4 * q, it k ∈ b64table) :
    decodeFrom it ⟨n, false⟩ os =
      decodeFrom (fun k => it (k + 4 * q)) ⟨n - 4 * q, false⟩ (os ++ groupBytes it q) := by
  induction q generalizing it n os with
  | zero => rw [groupBytes, List.append_nil]; rfl
  | succ q ih =>
    have hshift : ∀ k, k + 4 * q + 4 = k + 4 * (q + 1) := by omega
    have hsub : n - 4 - 4 * q = n - 4 * (q + 1) := by omega
    rw [decodeFrom_group (by omega) fun k hk => h k (by omega),
      ih (by omega) fun k hk => h (k + 4) (by omega), groupBytes, List.append_assoc, hsub]
    simp only [hshift]

/-- A byte outside the alphabet in a group before the last one. -/
theorem decode_reject_early (h : StopsAt it n d) (hd : d < lastGroup n) :
    (decode it n).result = .error invalid := by
  obtain ⟨hg, -, -⟩ := lastGroup_eq n
  have hq : 4 * (d / 4) + d % 4 = d := Nat.div_add_mod d 4
  have hmod : d % 4 < 4 := Nat.mod_lt d (by decide)
  have hlt := h.lt
  have hbad : it (d % 4 + 4 * (d / 4)) ∉ b64table := by
    rw [Nat.add_comm, hq]
    exact h.not_mem
  rw [decode, decodeFrom_groups (q := d / 4) (by omega) fun k hk => h.mem k (by omega),
    decodeFrom_reject (by omega) hmod hbad]
  rfl

theorem decode_last (h : ∀ k < lastGroup n, it k ∈ b64table) :
    decode it n = decodeLast (fun k => it (k + lastGroup n)) ⟨n - lastGroup n, false⟩
      (groupBytes it ((n - 1) / 4)) := by
  obtain ⟨hg, hle, hlt⟩ := lastGroup_eq n
  rw [hg] at h hle hlt ⊢
  by_cases hn : n = 0
  · subst hn
    exact decodeFrom_last (Nat.zero_le 4)
  · rw [decode, decodeFrom_groups (hlt (by omega)) h, List.nil_append, decodeFrom_last hle]

theorem StopsAt.scan_eq (h : StopsAt it n d) (hd : lastGroup n ≤ d) :
    scan (fun k => it (k + lastGroup n)) 0 = d - lastGroup n := by
  obtain ⟨-, hle, -⟩ := lastGroup_eq n
  have hlt := h.lt
  refine B64.scan_eq (by omega) (Nat.zero_le _) (fun k _ hk => h.mem _ (by omega)) ?_
  rw [Nat.sub_add_cancel hd]
  exact h.not_mem

theorem decode_reject_last (h : StopsAt it n d) (hd : lastGroup n ≤ d) (hpad : it d ≠ pad) :
    (decode it n).result = .error invalid := by
  have hlt := h.lt
  have hbad : it (d - lastGroup n + lastGroup n) ≠ pad := by
    rw [Nat.sub_add_cancel hd]
    exact hpad
  rw [decode_last fun k hk => h.mem k (by omega),
    decodeLast_reject (h.scan_eq hd) (by omega) hbad]
  rfl

theorem decode_accept (h : StopsAt it n d) (hd : lastGroup n ≤ d) (hpad : it d = pad) :
    (decode it n).result = .ok (putLast (fun k => it (k + lastGroup n))
      (Size.sub ⟨n - lastGroup n, false⟩ (4 - (d - lastGroup n))).sz
      (groupBytes it ((n - 1) / 4))) := by
  obtain ⟨-, hle, -⟩ := lastGroup_eq n
  have hlt := h.lt
  have heq : it (d - lastGroup n + lastGroup n) = pad := by
    rw [Nat.sub_add_cancel hd]
    exact hpad
  rw [decode_last fun k hk => h.mem k (by omega),
    decodeLast_accept (h.scan_eq hd) (by omega) hle (.inr heq)]
  rfl

/-- Nothing but the alphabet, and a byte outside it right behind the string. -/
theorem decode_accept_all (h : ∀ k < n, it k ∈ b64table) (hend : it n ∉ b64table) :
    ∃ os, (decode it n).result = .ok os := by
  obtain ⟨-, hle, hlt⟩ := lastGroup_eq n
  have hg : lastGroup n ≤ n := by
    unfold lastGroup
    omega
  have hscan : scan (fun k => it (k + lastGroup n)) 0 = n - lastGroup n := by
    refine B64.scan_eq hle (Nat.zero_le _) (fun k _ hk => h _ (by omega)) ?_
    rw [Nat.sub_add_cancel hg]
    exact hend
  rw [decode_last fun k hk => h k (by omega),
    decodeLast_accept hscan (Nat.le_refl _) hle (.inl rfl)]
  exact ⟨_, rfl⟩

/-- The scan steps over the bound when it meets nothing but the alphabet. -/
theorem scan_through (hi : i ≤ 4) (h : ∀ k ≤ 4, it k ∈ b64table) : scan it i = 5 := by
  induction hk : 4 - i generalizing i with
  | zero =>
    have hmem := h i hi
    have hne : it i ≠ pad := fun heq => pad_not_mem (heq ▸ hmem)
    rw [scan, if_pos ⟨hne, (mem_b64table_iff _).mp hmem⟩, if_neg (by omega)]
    omega
  | succ k ih =>
    have hmem := h i hi
    have hne : it i ≠ pad := fun heq => pad_not_mem (heq ▸ hmem)
    rw [scan, if_pos ⟨hne, (mem_b64table_iff _).mp hmem⟩, if_pos (by omega)]
    exact ih (by omega) (by omega)

theorem decode_reject_all (h : ∀ k, it k ∈ b64table) : (decode it n).result = .error invalid := by
  obtain ⟨-, hle, -⟩ := lastGroup_eq n
  have hscan : scan (fun k => it (k + lastGroup n)) 0 = 5 :=
    scan_through (Nat.zero_le 4) fun k _ => h _
  have hsub : ((Size.sub ⟨n - lastGroup n, false⟩ 5).sz ≠ 0) := by
    simp only [Size.sub, if_neg (show ¬ 5 ≤ n - lastGroup n by omega)]
    omega
  have hpad : it (5 + lastGroup n) ≠ pad := fun heq => pad_not_mem (heq ▸ h _)
  rw [decode_last fun k _ => h k, decodeLast, hscan]
  simp only [if_pos (And.intro hsub hpad)]
  rfl

/-- Where the correction of the size wraps, the byte behind the last group is read. -/
theorem decode_accept_wrapped (h : StopsAt it n d) (hd : lastGroup n ≤ d) (hpad : it d = pad)
    (hlen : n - lastGroup n + (d - lastGroup n) < 4) :
    (decode it n).result = .ok (groupBytes it ((n - 1) / 4) ++
      [first fun k => it (k + lastGroup n), second fun k => it (k + lastGroup n),
        third fun k => it (k + lastGroup n)]) := by
  have hbig : 3 < (Size.sub ⟨n - lastGroup n, false⟩ (4 - (d - lastGroup n))).sz := by
    simp only [Size.sub, if_neg (show ¬ 4 - (d - lastGroup n) ≤ n - lastGroup n by omega)]
    omega
  rw [decode_accept h hd hpad, putLast_of_gt hbig]

theorem result_congr_of_bounded (hb : Bounded it n) (ha : Agree n it it') :
    (decode it n).result = (decode it' n).result := by
  obtain ⟨d, h, hstop⟩ := hb
  have h' := h.congr ha
  have hd := ha d h.lt
  by_cases hearly : d < lastGroup n
  · rw [decode_reject_early h hearly, decode_reject_early h' hearly]
  by_cases hpad : it d = pad
  · have hlen : 4 ≤ n - lastGroup n + (d - lastGroup n) := by
      rcases hstop with hne | hlt | hlen
      · exact absurd hpad hne
      · exact absurd hlt hearly
      · exact hlen
    have hlt := h.lt
    obtain ⟨hg, hle, -⟩ := lastGroup_eq n
    have hput : (Size.sub ⟨n - lastGroup n, false⟩ (4 - (d - lastGroup n))).sz ≤
        d - lastGroup n := by
      simp only [Size.sub, if_pos (show 4 - (d - lastGroup n) ≤ n - lastGroup n by omega)]
      omega
    have hgroups : Agree (4 * ((n - 1) / 4)) it it' := fun k hk => ha k (by omega)
    rw [decode_accept h (by omega) hpad, decode_accept h' (by omega) (hd ▸ hpad),
      groupBytes_congr hgroups, putLast_congr fun k hk => ha _ (by omega)]
  · rw [decode_reject_last h (by omega) hpad, decode_reject_last h' (by omega) (hd ▸ hpad)]

/-- The third byte of a group depends on its fourth digit. -/
theorem third_ne (h0 : it 2 = it' 2) (h : it 3 = table 0) (h' : it' 3 = table 1) :
    third it ≠ third it' := by
  have ht : ASCII_LOOKUP (it 3) = 0 := h ▸ lookup_table (by decide)
  have ht' : ASCII_LOOKUP (it' 3) = 1 := h' ▸ lookup_table (by decide)
  intro heq
  have hnat := congrArg UInt8.toNat heq
  rw [third_toNat rfl ht (by decide), third_toNat rfl ht' (by decide), h0] at hnat
  have hzero : (0 : UInt8).toNat = 0 := rfl
  have hone : (1 : UInt8).toNat = 1 := rfl
  omega

/-- Without a byte outside the alphabet, what follows the string decides. -/
theorem result_ne_of_all (h : ∀ k < n, it k ∈ b64table) :
    (decode (fill n it fun _ => 0) n).result ≠ (decode (fill n it fun _ => table 0) n).result := by
  have hleft : ∀ k < n, fill n it (fun _ => 0) k ∈ b64table := fun k hk =>
    agree_fill n it _ k hk ▸ h k hk
  have hend : fill n it (fun _ => 0) n ∉ b64table := by
    rw [fill_ge (Nat.le_refl n)]
    exact nul_not_mem
  have hright : ∀ k, fill n it (fun _ => table 0) k ∈ b64table := by
    intro k
    by_cases hk : k < n
    · exact agree_fill n it _ k hk ▸ h k hk
    · rw [fill_ge (Nat.not_lt.mp hk)]
      exact table_mem (by decide)
  obtain ⟨os, hos⟩ := decode_accept_all hleft hend
  rw [hos, decode_reject_all hright]
  exact nofun

theorem result_ne_of_third (h : StopsAt it n d) (h' : StopsAt it' n d) (hd : lastGroup n ≤ d)
    (hpad : it d = pad) (hpad' : it' d = pad) (hlen : n - lastGroup n + (d - lastGroup n) < 4)
    (hne : third (fun k => it (k + lastGroup n)) ≠ third fun k => it' (k + lastGroup n)) :
    (decode it n).result ≠ (decode it' n).result := by
  rw [decode_accept_wrapped h hd hpad hlen, decode_accept_wrapped h' hd hpad' hlen]
  intro heq
  have hlast := (List.append_inj' (Except.ok.inj heq) rfl).2
  exact hne (List.cons.inj (List.cons.inj (List.cons.inj hlast).2).2).1

/-- With too few digits before the `'='`, the fourth byte from the last group on is put. -/
theorem result_ne_of_wrapped (h : StopsAt it n d) (hd : lastGroup n ≤ d) (hpad : it d = pad)
    (hlen : n - lastGroup n + (d - lastGroup n) < 4) :
    (decode (fill n it fun _ => table 0) n).result ≠
      (decode (fill n it fun k => if k = 3 + lastGroup n then table 1 else table 0) n).result := by
  have hlt := h.lt
  have ha := agree_fill n it fun _ => table 0
  have ha' := agree_fill n it fun k => if k = 3 + lastGroup n then table 1 else table 0
  refine result_ne_of_third (h.congr ha.symm) (h.congr ha'.symm) hd ((ha d hlt).trans hpad)
    ((ha' d hlt).trans hpad) hlen (third_ne ?_ ?_ ?_)
  · unfold fill
    split
    · rfl
    · exact (if_neg (by omega)).symm
  · exact fill_ge (by omega)
  · exact (fill_ge (by omega)).trans (if_pos rfl)

end Runs

/-- What `decode` gives for the `n` bytes, whatever stands behind them. -/
theorem decode_independent_iff (it : ℕ → UInt8) (n : ℕ) :
    (∀ m m', Agree n m it → Agree n m' it → (decode m n).result = (decode m' n).result) ↔
      Bounded it n := by
  constructor
  · intro h
    by_cases hall : ∀ k < n, it k ∈ b64table
    · exact absurd (h _ _ (agree_fill n it _) (agree_fill n it _)) (result_ne_of_all hall)
    · obtain ⟨d, hd⟩ := exists_stopsAt hall
      refine ⟨d, hd, ?_⟩
      by_contra hno
      have hpad : it d = pad := by
        by_contra hne
        exact hno (.inl hne)
      exact absurd (h _ _ (agree_fill n it _) (agree_fill n it _))
        (result_ne_of_wrapped hd (by omega) hpad (by omega))
  · intro hb m m' hm hm'
    rw [← result_congr_of_bounded hb hm.symm, result_congr_of_bounded hb hm'.symm]

/-- `"QUJD"` is accepted before a NUL and throws before another digit. -/
theorem decode_not_independent :
    ¬ ∀ n m m', Agree n m m' → (decode m n).result = (decode m' n).result := by
  intro h
  have hmem : ∀ k < 4, memory [81, 85, 74, 68] (fun _ => 0) k ∈ b64table := by decide
  refine result_ne_of_all hmem (h 4 _ _ fun k hk => ?_)
  rw [agree_fill 4 _ _ k hk, agree_fill 4 _ _ k hk]

end Suil.Utils.B64
