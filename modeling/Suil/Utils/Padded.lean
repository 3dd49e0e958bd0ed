import Suil.Utils.B64
import Mathlib.Data.List.TakeWhile

/-! What `decode` accepts. -/
namespace Suil.Utils.B64

/-- A multiple of four bytes, of the alphabet but for at most two `'='` at the end. -/
def Padded (s : List UInt8) : Prop :=
  s.length % 4 = 0 ∧
    ∃ digits k, s = digits ++ List.replicate k pad ∧ (∀ d ∈ digits, d ∈ b64table) ∧ k ≤ 2

/-- `decode` accepts padded Base64 only, to as many bytes as it stands for, and throws for any
other string. -/
structure Exact (s : List UInt8) (run : Run) : Prop where
  accepts : run.thrown = none ↔ Padded s
  rejects : ¬ Padded s → run.thrown = some invalid
  length : run.thrown = none → run.os.length = 3 * (s.length / 4) - s.count pad
  wrapped : run.wrapped = false

/-- The first byte outside the alphabet is not an `'='`, or stands before the last group of up
to four bytes. -/
def Misplaced (s : List UInt8) : Prop :=
  ∃ digits c rest, s = digits ++ c :: rest ∧ (∀ d ∈ digits, d ∈ b64table) ∧ c ∉ b64table ∧
    (c ≠ pad ∨ digits.length < 4 * ((s.length - 1) / 4))

/-- `rest` begins with the first byte of `s` outside the alphabet. -/
structure Leads (s digits rest : List UInt8) : Prop where
  eq : s = digits ++ rest
  mem : ∀ d ∈ digits, d ∈ b64table
  head : ∀ c, rest.head? = some c → c ∉ b64table

section Leads
variable {s digits digits' rest rest' group : List UInt8}

theorem exists_leads (s : List UInt8) : ∃ digits rest, Leads s digits rest := by
  refine ⟨s.takeWhile (· ∈ b64table), s.dropWhile (· ∈ b64table),
    List.takeWhile_append_dropWhile.symm, fun d hd => ?_, fun c hc => ?_⟩
  · simpa using List.mem_takeWhile_imp hd
  · have := List.head?_dropWhile_not (· ∈ b64table) s
    rw [hc] at this
    simpa using this

theorem Leads.unique (h : Leads s digits rest) (h' : Leads s digits' rest') :
    digits = digits' ∧ rest = rest' := by
  induction digits generalizing s digits' with
  | nil =>
    cases digits' with
    | nil => exact ⟨rfl, h.eq.symm.trans h'.eq⟩
    | cons c cs =>
      have hhead : rest.head? = some c := by
        rw [show rest = c :: cs ++ rest' from h.eq.symm.trans h'.eq]
        rfl
      exact absurd (h'.mem c List.mem_cons_self) (h.head c hhead)
  | cons d ds ih =>
    cases digits' with
    | nil =>
      have hhead : rest'.head? = some d := by
        rw [show rest' = d :: ds ++ rest from h'.eq.symm.trans h.eq]
        rfl
      exact absurd (h.mem d List.mem_cons_self) (h'.head d hhead)
    | cons c cs =>
      have heq : d :: (ds ++ rest) = c :: (cs ++ rest') := h.eq.symm.trans h'.eq
      obtain ⟨rfl, htail⟩ := List.cons.inj heq
      obtain ⟨rfl, rfl⟩ := ih ⟨rfl, fun e he => h.mem e (List.mem_cons_of_mem _ he), h.head⟩
        ⟨htail, fun e he => h'.mem e (List.mem_cons_of_mem _ he), h'.head⟩
      exact ⟨rfl, rfl⟩

theorem Leads.append (h : Leads s digits rest) (hg : ∀ d ∈ group, d ∈ b64table) :
    Leads (group ++ s) (group ++ digits) rest where
  eq := by rw [h.eq, List.append_assoc]
  mem d hd := (List.mem_append.mp hd).elim (hg d) (h.mem d)
  head := h.head

theorem Leads.padded_iff (h : Leads s digits rest) :
    Padded s ↔ s.length % 4 = 0 ∧ ∃ k ≤ 2, rest = List.replicate k pad := by
  refine and_congr_right fun _ => ⟨?_, ?_⟩
  · rintro ⟨digits', k, hs, hmem, hk⟩
    have hhead : ∀ c, (List.replicate k pad).head? = some c → c ∉ b64table := by
      intro c hc
      cases k with
      | zero => exact absurd hc nofun
      | succ k =>
        rw [← Option.some.inj hc]
        exact pad_not_mem
    exact ⟨k, hk, (h.unique ⟨hs, hmem, hhead⟩).2⟩
  · rintro ⟨k, hk, rfl⟩
    exact ⟨digits, k, h.eq, h.mem, hk⟩

theorem Leads.misplaced_iff (h : Leads s digits rest) :
    Misplaced s ↔ ∃ c tail, rest = c :: tail ∧
      (c ≠ pad ∨ digits.length < 4 * ((s.length - 1) / 4)) := by
  constructor
  · rintro ⟨digits', c, tail, hs, hmem, hc, hplace⟩
    have hhead : ∀ e, (c :: tail).head? = some e → e ∉ b64table := by
      rintro e ⟨⟩
      exact hc
    obtain ⟨rfl, rfl⟩ := h.unique ⟨hs, hmem, hhead⟩
    exact ⟨c, tail, rfl, hplace⟩
  · rintro ⟨c, tail, rfl, hplace⟩
    exact ⟨digits, c, tail, h.eq, h.mem, h.head c rfl, hplace⟩

theorem Misplaced.not_padded (h : Misplaced s) (hs : s ≠ []) : ¬ Padded s := by
  obtain ⟨digits, rest, hl⟩ := exists_leads s
  intro hp
  obtain ⟨c, tail, hrest, hplace⟩ := hl.misplaced_iff.mp h
  obtain ⟨hmod, k, hk, hrest'⟩ := hl.padded_iff.mp hp
  have hc : c = pad := by
    have hmem : c ∈ List.replicate k pad := by
      rw [← hrest', hrest]
      exact List.mem_cons_self
    exact List.eq_of_mem_replicate hmem
  have hlen : s.length = digits.length + k := by
    rw [hl.eq, hrest', List.length_append, List.length_replicate]
  have hpos := List.length_pos_iff.mpr hs
  rcases hplace with hne | hlt
  · exact hne hc
  · omega

/-- A whole group of digits in front changes neither. -/
theorem padded_append (hg : ∀ d ∈ group, d ∈ b64table) (hlen : group.length = 4) :
    Padded (group ++ s) ↔ Padded s := by
  obtain ⟨digits, rest, hl⟩ := exists_leads s
  rw [hl.padded_iff, (hl.append hg).padded_iff, List.length_append, hlen]
  refine and_congr_left fun _ => ?_
  omega

theorem misplaced_append (hg : ∀ d ∈ group, d ∈ b64table) (hlen : group.length = 4)
    (hs : s ≠ []) : Misplaced (group ++ s) ↔ Misplaced s := by
  obtain ⟨digits, rest, hl⟩ := exists_leads s
  have hpos := List.length_pos_iff.mpr hs
  have hplace : 4 + digits.length < 4 * ((4 + s.length - 1) / 4) ↔
      digits.length < 4 * ((s.length - 1) / 4) := by
    omega
  rw [hl.misplaced_iff, (hl.append hg).misplaced_iff, List.length_append, List.length_append,
    hlen]
  simp only [hplace]

theorem misplaced_of_group (group : List UInt8) (hlen : group.length = 4) (hs : s ≠ [])
    (hg : ¬ ∀ d ∈ group, d ∈ b64table) : Misplaced (group ++ s) := by
  obtain ⟨digits, rest, hl⟩ := exists_leads group
  have hpos := List.length_pos_iff.mpr hs
  cases rest with
  | nil =>
    refine absurd (fun d hd => hl.mem d ?_) hg
    rwa [hl.eq, List.append_nil] at hd
  | cons c tail =>
    have hlen' : digits.length + (tail.length + 1) = 4 := by
      rw [← hlen, hl.eq, List.length_append, List.length_cons]
    refine ⟨digits, c, tail ++ s, ?_, hl.mem, hl.head c rfl, .inr ?_⟩
    · rw [hl.eq, List.append_assoc]
      rfl
    · rw [List.length_append, hlen]
      omega

end Leads

/-- What `decode` makes of `s` after it has put `os`. -/
inductive Outcome (s os : List UInt8) : Run → Prop
  | rejected {os'} : Misplaced s → Outcome s os ⟨os', some invalid, false⟩
  | padded {os'} : Padded s → os'.length = os.length + (3 * (s.length / 4) - s.count pad) →
    Outcome s os ⟨os', none, false⟩
  | accepted {os' wrapped} : ¬ Padded s → ¬ Misplaced s → Outcome s os ⟨os', none, wrapped⟩

section Outcome
variable {s os digits rest : List UInt8} {beyond : ℕ → UInt8} {run : Run}

theorem memory_append_lt (beyond : ℕ → UInt8) (l t : List UInt8) : ∀ k (hk : k < l.length),
    memory (l ++ t) beyond k = l[k] := by
  induction l with
  | nil => exact nofun
  | cons c l ih =>
    intro k hk
    cases k with
    | zero => rfl
    | succ k => exact ih k (Nat.lt_of_succ_lt_succ hk)

theorem memory_append_add (beyond : ℕ → UInt8) (l t : List UInt8) (k : ℕ) :
    memory (l ++ t) beyond (k + l.length) = memory t beyond k := by
  induction l with
  | nil => rfl
  | cons c l ih => exact ih

theorem Leads.scan_eq (h : Leads s digits rest) (hs : digits.length ≤ 4) :
    scan (memory s beyond) 0 = digits.length := by
  refine B64.scan_eq hs (Nat.zero_le _) (fun k _ hk => ?_) ?_
  · rw [h.eq, memory_append_lt beyond digits rest k hk]
    exact h.mem _ (List.getElem_mem hk)
  · have hat := memory_append_add beyond digits rest 0
    rw [Nat.zero_add] at hat
    rw [h.eq, hat]
    cases rest with
    | nil => exact nul_not_mem
    | cons c tail => exact h.head c rfl

theorem Leads.count_pad {k : ℕ} (h : Leads s digits (List.replicate k pad)) :
    s.count pad = k := by
  have hnot : pad ∉ digits := fun hm => pad_not_mem (h.mem pad hm)
  rw [h.eq, List.count_append, List.count_eq_zero.mpr hnot, List.count_replicate_self,
    Nat.zero_add]

theorem length_putLast {it : ℕ → UInt8} {n : ℕ} (hn : n ≤ 4) :
    (putLast it n os).length = os.length + (n - 1) := by
  unfold putLast
  obtain rfl | rfl | rfl | rfl | rfl : n = 0 ∨ n = 1 ∨ n = 2 ∨ n = 3 ∨ n = 4 := by omega
  all_goals simp

/-- The last group. -/
theorem outcome_last (hs : s ≠ []) (hlen : s.length ≤ 4) :
    Outcome s os (decodeFrom (memory s beyond) ⟨s.length, false⟩ os) := by
  obtain ⟨digits, rest, hl⟩ := exists_leads s
  have hpos := List.length_pos_iff.mpr hs
  have hsum : s.length = digits.length + rest.length := by
    rw [hl.eq, List.length_append]
  have hdigits : digits.length ≤ 4 := by omega
  have hscan : scan (memory s beyond) 0 = digits.length := hl.scan_eq hdigits
  have hat := memory_append_add beyond digits rest 0
  rw [Nat.zero_add, ← hl.eq] at hat
  rw [decodeFrom_last hlen]
  by_cases hbad : ∃ c tail, rest = c :: tail ∧ c ≠ pad
  · obtain ⟨c, tail, hrest, hc⟩ := hbad
    have hlt : digits.length < s.length := by
      rw [hsum, hrest, List.length_cons]
      omega
    have hne : memory s beyond digits.length ≠ pad := by
      rw [hat, hrest]
      exact hc
    rw [decodeLast_reject hscan hlt hne]
    exact .rejected (hl.misplaced_iff.mpr ⟨c, tail, hrest, .inl hc⟩)
  · have hstop : digits.length = s.length ∨ memory s beyond digits.length = pad := by
      cases rest with
      | nil => exact .inl hsum.symm
      | cons c tail =>
        rw [hat]
        exact .inr (Decidable.not_not.mp fun hc => hbad ⟨c, tail, rfl, hc⟩)
    rw [decodeLast_accept hscan (by omega) hlen hstop]
    by_cases hp : Padded s
    · obtain ⟨hmod, k, hk, hrest⟩ := hl.padded_iff.mp hp
      have hfour : s.length = 4 := by omega
      have hcount : s.count pad = k := (hrest ▸ hl).count_pad
      rw [hrest, List.length_replicate] at hsum
      have hsub : Size.sub ⟨s.length, false⟩ (4 - digits.length) = ⟨digits.length, false⟩ := by
        simp only [Size.sub, hfour, if_pos (Nat.sub_le 4 _), Size.mk.injEq, Bool.false_or,
          decide_eq_false_iff_not]
        omega
      rw [hsub]
      refine .padded hp ?_
      rw [length_putLast hdigits, hcount, hfour]
      omega
    · refine .accepted hp fun hm => ?_
      obtain ⟨c, tail, hrest, hc | hlt⟩ := hl.misplaced_iff.mp hm
      · exact hbad ⟨c, tail, hrest, hc⟩
      · omega

/-- A whole group of digits in front of the others. -/
theorem Outcome.append (group bytes : List UInt8) (h : Outcome s (os ++ bytes) run)
    (hg : ∀ d ∈ group, d ∈ b64table) (hlen : group.length = 4) (hb : bytes.length = 3)
    (hs : s ≠ []) : Outcome (group ++ s) os run := by
  cases h with
  | rejected hm => exact .rejected ((misplaced_append hg hlen hs).mpr hm)
  | padded hp hlength =>
    have hnot : pad ∉ group := fun hm => pad_not_mem (hg pad hm)
    obtain ⟨digits, rest, hl⟩ := exists_leads s
    obtain ⟨hmod, k, hk, rfl⟩ := hl.padded_iff.mp hp
    have hcount := hl.count_pad
    have hpos := List.length_pos_iff.mpr hs
    refine .padded ((padded_append hg hlen).mpr hp) ?_
    rw [List.length_append, List.count_append, List.count_eq_zero.mpr hnot, hlen]
    rw [List.length_append] at hlength
    omega
  | accepted hp hm =>
    exact .accepted (mt (padded_append hg hlen).mp hp) (mt (misplaced_append hg hlen hs).mp hm)

theorem outcome (hs : s ≠ []) :
    Outcome s os (decodeFrom (memory s beyond) ⟨s.length, false⟩ os) := by
  induction hn : s.length using Nat.strong_induction_on generalizing s os with
  | _ n ih =>
    subst hn
    match s with
    | [] => exact absurd rfl hs
    | [_] | [_, _] | [_, _, _] | [_, _, _, _] => exact outcome_last hs (by simp)
    | a :: b :: c :: d :: e :: tail =>
      have hlong : 4 < (a :: b :: c :: d :: e :: tail).length := by
        simp only [List.length_cons]
        omega
      by_cases hg : ∀ x ∈ [a, b, c, d], x ∈ b64table
      · have hmem : ∀ k < 4, memory (a :: b :: c :: d :: e :: tail) beyond k ∈ b64table := by
          intro k hk
          have hat := memory_append_lt beyond [a, b, c, d] (e :: tail) k hk
          exact hat ▸ hg _ (List.getElem_mem hk)
        rw [decodeFrom_group hlong hmem]
        have hlt : (e :: tail).length < (a :: b :: c :: d :: e :: tail).length := by
          simp only [List.length_cons]
          omega
        exact Outcome.append [a, b, c, d] [first _, second _, third _]
          (ih _ hlt (List.cons_ne_nil e tail) rfl) hg rfl rfl (List.cons_ne_nil e tail)
      · have hbad : ∃ k < 4, memory (a :: b :: c :: d :: e :: tail) beyond k ∉ b64table := by
          by_contra hno
          refine hg fun x hx => ?_
          obtain ⟨k, hk, rfl⟩ := List.getElem_of_mem hx
          have hat := memory_append_lt beyond [a, b, c, d] (e :: tail) k hk
          exact hat ▸ Decidable.not_not.mp fun hm => hno ⟨k, hk, hm⟩
        obtain ⟨k, hk, hm⟩ := hbad
        rw [decodeFrom_reject hlong hk hm]
        exact .rejected (misplaced_of_group [a, b, c, d] rfl (List.cons_ne_nil e tail) hg)

end Outcome

theorem decode_exact_iff (s : List UInt8) (beyond : ℕ → UInt8) :
    Exact s (decode (memory s beyond) s.length) ↔ s ≠ [] ∧ (Padded s ∨ Misplaced s) := by
  by_cases hs : s = []
  · subst hs
    refine iff_of_false (fun h => ?_) fun h => h.1 rfl
    have hwrapped := h.wrapped
    rw [List.length_nil, decode_empty] at hwrapped
    cases hwrapped
  · rw [decode]
    have h : Outcome s [] (decodeFrom (memory s beyond) ⟨s.length, false⟩ []) := outcome hs
    generalize decodeFrom (memory s beyond) ⟨s.length, false⟩ [] = run at h
    cases h with
    | rejected hm =>
      have hp := hm.not_padded hs
      have hthrown : some invalid ≠ none := Option.some_ne_none _
      refine iff_of_true ⟨?_, fun _ => rfl, fun h => absurd h hthrown, rfl⟩ ⟨hs, .inr hm⟩
      exact iff_of_false hthrown hp
    | padded hp hlength =>
      rw [List.length_nil, Nat.zero_add] at hlength
      exact iff_of_true ⟨iff_of_true rfl hp, fun h => absurd hp h, fun _ => hlength, rfl⟩
        ⟨hs, .inl hp⟩
    | accepted hp hm =>
      exact iff_of_false (fun h => hp (h.accepts.mp rfl)) fun h => h.2.elim hp hm

/-- `"QUI"`, to which an `'='` is missing, is accepted. -/
theorem not_decode_exact_unpadded :
    ¬ Exact [81, 85, 73] (decode (memory [81, 85, 73] fun _ => 0) 3) := by
  have hall : ([81, 85, 73].all fun c => ASCII_LOOKUP c ≠ 64) = true := by decide
  have hmem : ∀ c ∈ [81, 85, 73], c ∈ b64table := fun c hc =>
    (mem_b64table_iff c).mpr (of_decide_eq_true (List.all_eq_true.mp hall c hc))
  have hl : Leads [81, 85, 73] [81, 85, 73] [] := ⟨rfl, hmem, nofun⟩
  have hscan : scan (memory [81, 85, 73] fun _ => 0) 0 = 3 := hl.scan_eq (by decide)
  intro h
  rw [decode, decodeFrom_last (by decide),
    decodeLast_accept hscan (by decide) (by decide) (.inl rfl)] at h
  exact absurd (h.accepts.mp rfl).1 (by decide)

end Suil.Utils.B64
