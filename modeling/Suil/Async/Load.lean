import Suil.Lib.Ownership
import Suil.Async.Thread
import Mathlib.Data.List.Perm.Subperm
import Mathlib.Algebra.Ring.Nat

/-! The statistics of a `suil::Thread`: `schedule`, `add` and `record` on any number of
threads, and the takers of what was scheduled: the drain of `_scheduleQ`, `handleEvent`,
`fireExpiredTimers` and `remove`. One step is one atomic access. The epoll set and the timer
list are left out: an object may be taken whenever it is scheduled. -/
namespace Suil.Async.Load
open Transition Ownership
open Thread (Waiter)

/-- What `schedule` and `add` publish. -/
inductive Item
  | coro (c : ℕ)
  | waiter (w : Waiter)
  deriving DecidableEq

/-- `publish` is about to make an object SCHEDULED, `total`, `count` and `peak` are in
`record`, the last with the two values that `std::max` is given, and `taken` is about to
decrement `inflight`. The number of a call of `schedule` or `add` is a ghost. -/
inductive Pc
  | out
  | publish (w : Waiter)
  | total (n : ℕ)
  | count (n : ℕ)
  | peak (inflight maxInflight : Option ℕ)
  | taken (n : ℕ)
  deriving DecidableEq

/-- `waiting` holds the coroutines queued and the objects SCHEDULED, each with the number of
its call. The rest are ghosts: the calls that have published, those of them that have not
counted what they published, the decrements of `inflight` at 0, and the stores that have
lowered `maxInflight`. -/
structure State where
  inflight : ℕ
  maxInflight : ℕ
  totalQueued : ℕ
  waiting : List (ℕ × Item)
  pc : ℕ → Pc
  calls : ℕ
  uncounted : List ℕ
  wraps : ℕ
  lowers : ℕ

namespace State

def start : State := ⟨0, 0, 0, [], fun _ => .out, 0, [], 0, 0⟩

variable (s : State)

def goto (i : ℕ) (pc : Pc) : State := { s with pc := Function.update s.pc i pc }

/-- Makes `x` visible to the takers and goes on with `record`. -/
def put (i : ℕ) (x : Item) : State :=
  { s with
    waiting := s.waiting ++ [(s.calls, x)], calls := s.calls + 1
    uncounted := s.calls :: s.uncounted }.goto i (.total s.calls)

/-- `_stats.totalQueued++`. -/
def total (i n : ℕ) : State :=
  { s with totalQueued := (s.totalQueued + 1) % 2 ^ 64 }.goto i (.count n)

/-- `_stats.inflight++`. -/
def count (i n : ℕ) : State :=
  { s with
    inflight := (s.inflight + 1) % 2 ^ 64, uncounted := s.uncounted.erase n }.goto i
    (.peak none none)

/-- The store to `_stats.maxInflight`. -/
def store (i a b : ℕ) : State :=
  { s with
    maxInflight := max a b
    lowers := if max a b < s.maxInflight then s.lowers + 1 else s.lowers }.goto i .out

/-- `try_dequeue`, or the compare-exchange on an object that is SCHEDULED. -/
def take (i n : ℕ) : State :=
  { s with waiting := s.waiting.filter fun e => e.1 ≠ n }.goto i (.taken n)

/-- `_stats.inflight--`; then the coroutine is resumed. -/
def decrement (i : ℕ) : State :=
  { s with
    inflight := (s.inflight + 2 ^ 64 - 1) % 2 ^ 64
    wraps := if s.inflight = 0 then s.wraps + 1 else s.wraps }.goto i .out

end State

/-- `answer` is whether `epoll_ctl` succeeds. -/
inductive Act
  | schedule (i c : ℕ)
  | add (i : ℕ) (w : Waiter) (answer : Bool)
  | publish (i : ℕ)
  | step (i : ℕ)
  | loadInflight (i : ℕ)
  | loadMax (i : ℕ)
  | take (i n : ℕ)

/-- An object is awaited by one coroutine at a time. -/
def next (s : State) : Act → Option State
  | .schedule i c => if s.pc i = .out then some (s.put i (.coro c)) else none
  | .add i w answer =>
    if s.pc i = .out ∧ ∀ e ∈ s.waiting, e.2 ≠ .waiter w then
      match w, answer with
      | .event _, false => some s
      | _, _ => some (s.goto i (.publish w))
    else none
  | .publish i =>
    match s.pc i with
    | .publish w =>
      if ∀ e ∈ s.waiting, e.2 ≠ .waiter w then some (s.put i (.waiter w)) else none
    | _ => none
  | .step i =>
    match s.pc i with
    | .total n => some (s.total i n)
    | .count n => some (s.count i n)
    | .peak (some a) (some b) => some (s.store i a b)
    | .taken _ => some (s.decrement i)
    | _ => none
  | .loadInflight i =>
    match s.pc i with
    | .peak none b => some (s.goto i (.peak (some s.inflight) b))
    | _ => none
  | .loadMax i =>
    match s.pc i with
    | .peak a none => some (s.goto i (.peak a (some s.maxInflight)))
    | _ => none
  | .take i n =>
    if s.pc i = .out ∧ n ∈ s.waiting.map Prod.fst then some (s.take i n) else none

def system : System State Act where
  init s := s = .start
  next := next

namespace Item

def isCoro : Item → Bool
  | coro _ => true
  | _ => false

def isEvent : Item → Bool
  | waiter (.event _) => true
  | _ => false

def isDelay : Item → Bool
  | waiter (.delay _) => true
  | _ => false

end Item

/-- The number of items of a kind that are queued or SCHEDULED. -/
def State.number (s : State) (kind : Item → Bool) : ℕ := s.waiting.countP fun e => kind e.2

/-- The accounting: `inflight` never wraps, equals what is queued and scheduled when nobody is
in a call, and `maxInflight` only grows; both stay below `totalQueued`. -/
structure Exact (s : State) : Prop where
  wraps : s.wraps = 0
  load : s.inflight ≤ s.totalQueued
  quiet : (∀ i, s.pc i = .out) →
    s.inflight = s.number Item.isCoro + s.number Item.isEvent + s.number Item.isDelay
  lowers : s.lowers = 0
  peak : s.maxInflight ≤ s.totalQueued

/-- `inflight` is decremented for an item after `record` has incremented it for that item, no
other `record` changes `maxInflight` between a load of it and the store, and `totalQueued` does
not overflow. -/
def Ordered (s : State) : Act → Prop
  | .step i => (∀ n, s.pc i = .taken n → n ∉ s.uncounted) ∧
      (∀ a b, s.pc i = .peak (some a) (some b) → s.maxInflight = b) ∧
      ∀ n, s.pc i = .total n → s.totalQueued + 1 < 2 ^ 64
  | _ => True

namespace Pc

/-- The call that is in `record` and has not counted its item. -/
def recording : Pc → Option ℕ
  | total n | count n => some n
  | _ => none

/-- The call that has incremented `totalQueued` but not `inflight`. -/
def counting : Pc → Option ℕ
  | count n => some n
  | _ => none

def taking : Pc → Option ℕ
  | taken n => some n
  | _ => none

/-- What `record` has read is at most `k`. -/
def Below (k : ℕ) : Pc → Prop
  | peak a b => (∀ x, a = some x → x ≤ k) ∧ ∀ x, b = some x → x ≤ k
  | _ => True

end Pc

/-- The numbers of what is queued or SCHEDULED. -/
def State.serials (s : State) : List ℕ := s.waiting.map Prod.fst

/-- `inflight` is the number of items that were counted and not taken off again: those waiting
and those just taken, but for the ones that `record` has not reached. `announced` are the calls
between their two increments, `taken` those whose item was taken. -/
structure Tokens (s : State) (announced taken : List ℕ) : Prop where
  recording : Held s.uncounted fun i => (s.pc i).recording
  counting : Held announced fun i => (s.pc i).counting
  taking : Held taken fun i => (s.pc i).taking
  published : ∀ n ∈ s.uncounted, n ∈ s.serials ++ taken
  gone : ∀ n ∈ taken, n ∉ s.serials
  fresh : ∀ n, n ∈ s.serials ∨ n ∈ taken → n < s.calls
  nodup : s.serials.Nodup
  inflight : s.inflight + s.uncounted.length = s.serials.length + taken.length
  total : s.inflight + announced.length ≤ s.totalQueued
  bound : s.totalQueued < 2 ^ 64

/-- What `record` has read, and `maxInflight` itself, stay below `totalQueued`. -/
structure Peaks (s : State) : Prop where
  read : ∀ i, (s.pc i).Below s.totalQueued
  below : s.maxInflight ≤ s.totalQueued
  wraps : s.wraps = 0
  lowers : s.lowers = 0

section Steps
variable {s s' : State} {announced taken : List ℕ} {i n : ℕ} {pc : Pc}

@[simp] theorem goto_pc {j : ℕ} : (s.goto i pc).pc j = if j = i then pc else s.pc j := by
  simp [State.goto, Function.update_apply]

theorem goto_comp {f : Pc → Option ℕ} :
    (fun j => f ((s.goto i pc).pc j)) = Function.update (fun j => f (s.pc j)) i (f pc) := by
  funext j
  rw [goto_pc, Function.update_apply]
  split_ifs <;> rfl

/-- A step between two places at which nothing is counted or taken. -/
theorem Tokens.goto (h : Tokens s announced taken)
    (hrec : (s.pc i).recording = pc.recording) (hcnt : (s.pc i).counting = pc.counting)
    (htak : (s.pc i).taking = pc.taking) : Tokens (s.goto i pc) announced taken := by
  constructor
  · rw [goto_comp]
    exact h.recording.keep hrec
  · rw [goto_comp]
    exact h.counting.keep hcnt
  · rw [goto_comp]
    exact h.taking.keep htak
  · exact h.published
  · exact h.gone
  · exact h.fresh
  · exact h.nodup
  · exact h.inflight
  · exact h.total
  · exact h.bound

theorem serials_put {x : Item} : (s.put i x).serials = s.serials ++ [s.calls] := by
  simp [State.put, State.goto, State.serials]

theorem Tokens.put {x : Item} (h : Tokens s announced taken)
    (hrec : (s.pc i).recording = none) (htak : (s.pc i).taking = none) :
    Tokens (s.put i x) announced taken := by
  have hcnt : (s.pc i).counting = none := by
    cases hp : s.pc i <;> rw [hp] at hrec <;> first | rfl | exact absurd hrec nofun
  have hnew : s.calls ∉ s.serials ++ taken := by
    intro hm
    exact absurd (h.fresh _ (List.mem_append.mp hm)) (Nat.lt_irrefl _)
  constructor
  · show Held (s.calls :: s.uncounted) _
    rw [State.put, goto_comp]
    exact h.recording.insert hrec fun hm => hnew (h.published _ hm)
  · rw [State.put, goto_comp]
    exact h.counting.keep hcnt
  · rw [State.put, goto_comp]
    exact h.taking.keep htak
  · intro n hn
    rw [serials_put, List.append_assoc, List.mem_append, List.singleton_append, List.mem_cons]
    rcases List.mem_cons.mp hn with rfl | hn
    · exact .inr (.inl rfl)
    · exact (List.mem_append.mp (h.published n hn)).imp_right .inr
  · intro n hn hm
    rw [serials_put, List.mem_append, List.mem_singleton] at hm
    rcases hm with hm | rfl
    · exact h.gone n hn hm
    · exact absurd (h.fresh _ (.inr hn)) (Nat.lt_irrefl _)
  · intro n hn
    show n < s.calls + 1
    rw [serials_put, List.mem_append, List.mem_singleton] at hn
    rcases hn with (hn | rfl) | hn
    · exact Nat.lt_succ_of_lt (h.fresh n (.inl hn))
    · exact Nat.lt_succ_self _
    · exact Nat.lt_succ_of_lt (h.fresh n (.inr hn))
  · rw [serials_put]
    exact List.nodup_append.mpr ⟨h.nodup, List.nodup_singleton _, by
      intro a ha b hb hab
      rw [List.mem_singleton] at hb
      exact hnew (List.mem_append_left _ (hb ▸ hab ▸ ha))⟩
  · have := h.inflight
    rw [serials_put, List.length_append, List.length_singleton]
    show s.inflight + (s.calls :: s.uncounted).length = _
    rw [List.length_cons]
    omega
  · exact h.total
  · exact h.bound

theorem Tokens.total_step (h : Tokens s announced taken) (hi : s.pc i = .total n)
    (hb : s.totalQueued + 1 < 2 ^ 64) : Tokens (s.total i n) (n :: announced) taken := by
  have hrec : (s.pc i).recording = some n := by rw [hi]; rfl
  have hmod : (s.totalQueued + 1) % 2 ^ 64 = s.totalQueued + 1 := Nat.mod_eq_of_lt hb
  constructor
  · rw [State.total, goto_comp]
    exact h.recording.keep hrec
  · rw [State.total, goto_comp]
    refine h.counting.insert (by rw [hi]; rfl) fun hm => ?_
    obtain ⟨j, hj⟩ := h.counting.mem.mp hm
    have hrecj : (s.pc j).recording = some n := by
      cases hp : s.pc j <;> rw [hp] at hj <;> first | exact hj | exact absurd hj nofun
    have hji := h.recording.unique hrecj hrec
    rw [hji, hi] at hj
    exact absurd hj nofun
  · rw [State.total, goto_comp]
    exact h.taking.keep (by rw [hi]; rfl)
  · exact h.published
  · exact h.gone
  · exact h.fresh
  · exact h.nodup
  · exact h.inflight
  · have := h.total
    show s.inflight + (n :: announced).length ≤ (s.totalQueued + 1) % 2 ^ 64
    rw [hmod, List.length_cons]
    omega
  · show (s.totalQueued + 1) % 2 ^ 64 < 2 ^ 64
    rw [hmod]
    exact hb

theorem Tokens.count (h : Tokens s announced taken) (hi : s.pc i = .count n) :
    Tokens (s.count i n) (announced.erase n) taken := by
  have hrec : (s.pc i).recording = some n := by rw [hi]; rfl
  have hcnt : (s.pc i).counting = some n := by rw [hi]; rfl
  have hmem : n ∈ s.uncounted := h.recording.mem.mpr ⟨i, hrec⟩
  have hmem' : n ∈ announced := h.counting.mem.mpr ⟨i, hcnt⟩
  have hlen := List.length_erase_of_mem hmem
  have hpos := List.length_pos_of_mem hmem
  have hlen' := List.length_erase_of_mem hmem'
  have hpos' := List.length_pos_of_mem hmem'
  have htotal := h.total
  have hmod : (s.inflight + 1) % 2 ^ 64 = s.inflight + 1 := by
    apply Nat.mod_eq_of_lt
    have := h.bound
    omega
  constructor
  · rw [State.count, goto_comp]
    exact h.recording.erase hrec
  · rw [State.count, goto_comp]
    exact h.counting.erase hcnt
  · rw [State.count, goto_comp]
    exact h.taking.keep (by rw [hi]; rfl)
  · exact fun m hm => h.published m (List.mem_of_mem_erase hm)
  · exact h.gone
  · exact h.fresh
  · exact h.nodup
  · have := h.inflight
    show (s.inflight + 1) % 2 ^ 64 + (s.uncounted.erase n).length = s.serials.length + _
    omega
  · show (s.inflight + 1) % 2 ^ 64 + _ ≤ s.totalQueued
    omega
  · exact h.bound

theorem serials_take : (s.take i n).serials = s.serials.filter (· ≠ n) := by
  simp only [State.take, State.goto, State.serials, List.filter_map]
  rfl

theorem mem_serials_take {m : ℕ} : m ∈ (s.take i n).serials ↔ m ∈ s.serials ∧ m ≠ n := by
  rw [serials_take, List.mem_filter, decide_eq_true_iff]

theorem length_serials_take (h : s.serials.Nodup) (hn : n ∈ s.serials) :
    (s.take i n).serials.length + 1 = s.serials.length := by
  have hlen := List.length_erase_of_mem hn
  have hpos := List.length_pos_of_mem hn
  have heq : (s.take i n).serials = s.serials.erase n := by
    rw [serials_take, h.erase_eq_filter]
    refine List.filter_congr fun m _ => ?_
    rw [Bool.eq_iff_iff]
    simp
  rw [heq]
  omega

theorem Tokens.take (h : Tokens s announced taken) (hi : s.pc i = .out) (hn : n ∈ s.serials) :
    Tokens (s.take i n) announced (n :: taken) := by
  constructor
  · rw [State.take, goto_comp]
    exact h.recording.keep (by rw [hi]; rfl)
  · rw [State.take, goto_comp]
    exact h.counting.keep (by rw [hi]; rfl)
  · rw [State.take, goto_comp]
    exact h.taking.insert (by rw [hi]; rfl) fun hm => h.gone n hm hn
  · intro m hm
    rw [List.mem_append, List.mem_cons, mem_serials_take]
    by_cases hmn : m = n
    · exact .inr (.inl hmn)
    · exact (List.mem_append.mp (h.published m hm)).imp (fun hs => ⟨hs, hmn⟩) .inr
  · intro m hm hm'
    obtain ⟨hs, hne⟩ := mem_serials_take.mp hm'
    rcases List.mem_cons.mp hm with rfl | hm
    · exact hne rfl
    · exact h.gone m hm hs
  · rintro m (hm | hm)
    · exact h.fresh m (.inl (mem_serials_take.mp hm).1)
    · rcases List.mem_cons.mp hm with rfl | hm
      · exact h.fresh m (.inl hn)
      · exact h.fresh m (.inr hm)
  · rw [serials_take]
    exact h.nodup.filter _
  · have := h.inflight
    have := length_serials_take (i := i) h.nodup hn
    show s.inflight + s.uncounted.length = _
    rw [List.length_cons]
    omega
  · exact h.total
  · exact h.bound

/-- The items that were counted and not taken off are `n` and others. -/
theorem Tokens.inflight_pos (h : Tokens s announced taken) (hi : s.pc i = .taken n)
    (hcounted : n ∉ s.uncounted) : 0 < s.inflight := by
  have hmem : n ∈ taken := h.taking.mem.mpr ⟨i, by rw [hi]; rfl⟩
  have hnodup : (n :: s.uncounted).Nodup := List.nodup_cons.mpr ⟨hcounted, h.recording.nodup⟩
  have hsub : n :: s.uncounted ⊆ s.serials ++ taken :=
    List.cons_subset.mpr ⟨List.mem_append_right _ hmem, h.published⟩
  have hlen := (hnodup.subperm hsub).length_le
  rw [List.length_cons, List.length_append] at hlen
  have := h.inflight
  omega

theorem decrement_eq (hpos : 0 < s.inflight) (hb : s.inflight < 2 ^ 64) :
    s.decrement i = { s with inflight := s.inflight - 1 }.goto i .out := by
  have hmod : (s.inflight + 2 ^ 64 - 1) % 2 ^ 64 = s.inflight - 1 := by omega
  have hzero : s.inflight ≠ 0 := by omega
  simp only [State.decrement, hmod, hzero, if_false]

theorem Tokens.decrement (h : Tokens s announced taken) (hi : s.pc i = .taken n)
    (hcounted : n ∉ s.uncounted) :
    Tokens ({ s with inflight := s.inflight - 1 }.goto i .out) announced (taken.erase n) := by
  have htak : (s.pc i).taking = some n := by rw [hi]; rfl
  have hmem : n ∈ taken := h.taking.mem.mpr ⟨i, htak⟩
  have hlen := List.length_erase_of_mem hmem
  have hpos := h.inflight_pos hi hcounted
  constructor
  · rw [goto_comp]
    exact h.recording.keep (by rw [hi]; rfl)
  · rw [goto_comp]
    exact h.counting.keep (by rw [hi]; rfl)
  · rw [goto_comp]
    exact h.taking.erase htak
  · intro m hm
    have hne : m ≠ n := by
      rintro rfl
      exact hcounted hm
    rw [List.mem_append, List.mem_erase_of_ne hne]
    exact List.mem_append.mp (h.published m hm)
  · exact fun m hm => h.gone m (List.mem_of_mem_erase hm)
  · exact fun m hm => h.fresh m (hm.imp_right List.mem_of_mem_erase)
  · exact h.nodup
  · have := h.inflight
    have := List.length_pos_of_mem hmem
    show s.inflight - 1 + s.uncounted.length = s.serials.length + _
    omega
  · have := h.total
    show s.inflight - 1 + _ ≤ s.totalQueued
    omega
  · exact h.bound

theorem Pc.Below.mono {k l : ℕ} (h : pc.Below k) (hkl : k ≤ l) : pc.Below l := by
  cases pc with
  | peak a b => exact ⟨fun x hx => Nat.le_trans (h.1 x hx) hkl, fun x hx => Nat.le_trans (h.2 x hx) hkl⟩
  | _ => trivial

theorem Peaks.advance (h : Peaks s) (hpc : s'.pc = Function.update s.pc i pc)
    (hbelow : pc.Below s'.totalQueued) (htotal : s.totalQueued ≤ s'.totalQueued)
    (hmax : s'.maxInflight ≤ s'.totalQueued) (hwraps : s'.wraps = 0) (hlowers : s'.lowers = 0) :
    Peaks s' where
  read j := by
    rw [hpc, Function.update_apply]
    split_ifs
    · exact hbelow
    · exact (h.read j).mono htotal
  below := hmax
  wraps := hwraps
  lowers := hlowers

theorem Peaks.goto (h : Peaks s) (hbelow : pc.Below s.totalQueued) : Peaks (s.goto i pc) :=
  h.advance rfl hbelow (Nat.le_refl _) h.below h.wraps h.lowers

theorem Peaks.put {x : Item} (h : Peaks s) : Peaks (s.put i x) :=
  h.advance rfl trivial (Nat.le_refl _) h.below h.wraps h.lowers

theorem Peaks.total (h : Peaks s) (hb : s.totalQueued + 1 < 2 ^ 64) : Peaks (s.total i n) := by
  have hle : s.totalQueued ≤ (s.total i n).totalQueued := by
    show s.totalQueued ≤ (s.totalQueued + 1) % 2 ^ 64
    rw [Nat.mod_eq_of_lt hb]
    exact Nat.le_succ _
  exact h.advance rfl trivial hle (Nat.le_trans h.below hle) h.wraps h.lowers

theorem Peaks.store {a b : ℕ} (h : Peaks s) (hi : s.pc i = .peak (some a) (some b))
    (hb : s.maxInflight = b) : Peaks (s.store i a b) := by
  obtain ⟨hra, hrb⟩ : (Pc.peak (some a) (some b)).Below s.totalQueued := hi ▸ h.read i
  have hmax : max a b ≤ s.totalQueued := Nat.max_le.mpr ⟨hra a rfl, hrb b rfl⟩
  have hkeep : ¬ max a b < s.maxInflight := by
    rw [hb]
    exact Nat.not_lt.mpr (Nat.le_max_right a b)
  refine h.advance rfl trivial (Nat.le_refl _) hmax h.wraps ?_
  show (if max a b < s.maxInflight then s.lowers + 1 else s.lowers) = 0
  rw [if_neg hkeep]
  exact h.lowers

/-- Steps of `record` after its increments count and take nothing. -/
theorem Tokens.peak {a b : Option ℕ} (h : Tokens s announced taken) (hi : s.pc i = .peak a b)
    (hrec : pc.recording = none) (hcnt : pc.counting = none) (htak : pc.taking = none) :
    Tokens (s.goto i pc) announced taken := by
  apply h.goto
  · rw [hi, hrec]
    rfl
  · rw [hi, hcnt]
    rfl
  · rw [hi, htak]
    rfl

theorem Tokens.store {a b : ℕ} (h : Tokens s announced taken)
    (hi : s.pc i = .peak (some a) (some b)) : Tokens (s.store i a b) announced taken := by
  have ht : Tokens (s.goto i .out) announced taken := h.peak hi rfl rfl rfl
  exact ⟨ht.recording, ht.counting, ht.taking, ht.published, ht.gone, ht.fresh, ht.nodup,
    ht.inflight, ht.total, ht.bound⟩

theorem Tokens.inflight_lt (h : Tokens s announced taken) : s.inflight < 2 ^ 64 := by
  have htotal := h.total
  have hbound := h.bound
  omega

theorem tokens_step (h : Tokens s announced taken) (hp : Peaks s) (ha : Ordered s (.step i))
    (hn : next s (.step i) = some s') :
    (∃ announced' taken', Tokens s' announced' taken') ∧ Peaks s' := by
  simp only [next] at hn
  split at hn
  next n hi =>
    obtain rfl := Option.some.inj hn
    have hb := ha.2.2 n hi
    exact ⟨⟨n :: announced, taken, h.total_step hi hb⟩, hp.total hb⟩
  next n hi =>
    obtain rfl := Option.some.inj hn
    exact ⟨⟨announced.erase n, taken, h.count hi⟩,
      hp.advance rfl ⟨nofun, nofun⟩ (Nat.le_refl _) hp.below hp.wraps
        hp.lowers⟩
  next a b hi =>
    obtain rfl := Option.some.inj hn
    exact ⟨⟨announced, taken, h.store hi⟩, hp.store hi (ha.2.1 a b hi)⟩
  next n hi =>
    obtain rfl := Option.some.inj hn
    have hcounted := ha.1 n hi
    rw [decrement_eq (h.inflight_pos hi hcounted) h.inflight_lt]
    exact ⟨⟨announced, taken.erase n, h.decrement hi hcounted⟩,
      hp.advance rfl trivial (Nat.le_refl _) hp.below hp.wraps hp.lowers⟩
  next => exact absurd hn nofun

/-- One step that meets the condition. -/
theorem tokens_next {a : Act} (h : Tokens s announced taken) (hp : Peaks s) (ha : Ordered s a)
    (hn : next s a = some s') : (∃ announced' taken', Tokens s' announced' taken') ∧ Peaks s' := by
  have hout : ∀ {i}, s.pc i = .out → (s.pc i).recording = none ∧ (s.pc i).counting = none ∧
      (s.pc i).taking = none := by
    intro i hi
    rw [hi]
    exact ⟨rfl, rfl, rfl⟩
  cases a with
  | schedule i c =>
    simp only [next, Option.ite_none_right_eq_some, Option.some.injEq] at hn
    obtain ⟨hi, rfl⟩ := hn
    exact ⟨⟨announced, taken, h.put (hout hi).1 (hout hi).2.2⟩, hp.put⟩
  | add i w answer =>
    simp only [next, Option.ite_none_right_eq_some] at hn
    obtain ⟨⟨hi, -⟩, hn⟩ := hn
    obtain ⟨hrec, hcnt, htak⟩ := hout hi
    split at hn
    · obtain rfl := Option.some.inj hn
      exact ⟨⟨announced, taken, h⟩, hp⟩
    · obtain rfl := Option.some.inj hn
      exact ⟨⟨announced, taken, h.goto hrec hcnt htak⟩, hp.goto trivial⟩
  | publish i =>
    simp only [next] at hn
    split at hn
    next w hi =>
      simp only [Option.ite_none_right_eq_some, Option.some.injEq] at hn
      obtain ⟨-, rfl⟩ := hn
      exact ⟨⟨announced, taken, h.put (by rw [hi]; rfl) (by rw [hi]; rfl)⟩, hp.put⟩
    next => exact absurd hn nofun
  | step i => exact tokens_step h hp ha hn
  | loadInflight i =>
    simp only [next] at hn
    split at hn
    next b hi =>
      obtain rfl := Option.some.inj hn
      obtain ⟨-, hb⟩ : (Pc.peak none b).Below s.totalQueued := hi ▸ hp.read i
      have hinflight : s.inflight ≤ s.totalQueued := by
        have := h.total
        omega
      refine ⟨⟨announced, taken, h.peak hi rfl rfl rfl⟩, hp.goto ⟨?_, hb⟩⟩
      rintro x ⟨⟩
      exact hinflight
    next => exact absurd hn nofun
  | loadMax i =>
    simp only [next] at hn
    split at hn
    next a hi =>
      obtain rfl := Option.some.inj hn
      obtain ⟨ha', -⟩ : (Pc.peak a none).Below s.totalQueued := hi ▸ hp.read i
      refine ⟨⟨announced, taken, h.peak hi rfl rfl rfl⟩, hp.goto ⟨ha', ?_⟩⟩
      rintro x ⟨⟩
      exact hp.below
    next => exact absurd hn nofun
  | take i n =>
    simp only [next, Option.ite_none_right_eq_some, Option.some.injEq] at hn
    obtain ⟨⟨hi, hmem⟩, rfl⟩ := hn
    exact ⟨⟨announced, n :: taken, h.take hi hmem⟩,
      hp.advance rfl trivial (Nat.le_refl _) hp.below hp.wraps hp.lowers⟩

end Steps

theorem tokens_start : Tokens .start [] [] where
  recording := Held.empty
  counting := Held.empty
  taking := Held.empty
  published := nofun
  gone := nofun
  fresh := by simp [State.start, State.serials]
  nodup := List.nodup_nil
  inflight := rfl
  total := Nat.le_refl _
  bound := Nat.two_pow_pos 64

theorem peaks_start : Peaks .start where
  read _ := trivial
  below := Nat.le_refl _
  wraps := rfl
  lowers := rfl

theorem inductive_tokens : system.Inductive Ordered fun s =>
    (∃ announced taken, Tokens s announced taken) ∧ Peaks s where
  init := by
    rintro s rfl
    exact ⟨⟨[], [], tokens_start⟩, peaks_start⟩
  step := by
    rintro s a t ⟨⟨announced, taken, h⟩, hp⟩ ha hn
    exact tokens_next h hp ha hn

theorem countP_kinds (l : List (ℕ × Item)) : l.countP (fun e => e.2.isCoro) +
    l.countP (fun e => e.2.isEvent) + l.countP (fun e => e.2.isDelay) = l.length := by
  induction l with
  | nil => rfl
  | cons e l ih =>
    have hkind : ∀ x : Item, (if x.isCoro then 1 else 0) + (if x.isEvent then 1 else 0) +
        (if x.isDelay then 1 else 0) = 1 := by
      rintro (_ | _ | _) <;> rfl
    have := hkind e.2
    simp only [List.countP_cons, List.length_cons]
    omega

theorem Tokens.exact {s : State} {announced taken : List ℕ} (h : Tokens s announced taken)
    (hp : Peaks s) : Exact s where
  wraps := hp.wraps
  load := by
    have := h.total
    omega
  quiet hout := by
    have hrec : s.uncounted = [] := by
      apply List.eq_nil_iff_forall_not_mem.mpr
      intro n hn
      obtain ⟨i, hi⟩ := h.recording.mem.mp hn
      rw [hout i] at hi
      exact absurd hi nofun
    have htak : taken = [] := by
      apply List.eq_nil_iff_forall_not_mem.mpr
      intro n hn
      obtain ⟨i, hi⟩ := h.taking.mem.mp hn
      rw [hout i] at hi
      exact absurd hi nofun
    have hin := h.inflight
    rw [hrec, htak, State.serials, List.length_map] at hin
    exact hin.trans (countP_kinds s.waiting).symm
  lowers := hp.lowers
  peak := hp.below

theorem exact_of_ordered (s : State) (hs : system.ReachableBy Ordered s) : Exact s := by
  obtain ⟨⟨announced, taken, h⟩, hp⟩ := inductive_tokens.holds hs
  exact h.exact hp

/-- A test that implies `Ordered`. -/
def ordered (s : State) : Act → Bool
  | .step i =>
    match s.pc i with
    | .taken n => n ∉ s.uncounted
    | .peak (some _) (some b) => s.maxInflight = b
    | .total _ => s.totalQueued + 1 < 2 ^ 64
    | _ => true
  | _ => true

theorem ordered_sound (s : State) (a : Act) (h : ordered s a = true) : Ordered s a := by
  cases a with
  | step i =>
    refine ⟨fun n hi => ?_, fun a b hi => ?_, fun n hi => ?_⟩ <;>
      simp only [ordered, hi] at h <;> exact of_decide_eq_true h
  | _ => trivial

/-- A coroutine is scheduled, taken, counted and resumed while a Delay is scheduled. -/
theorem exact_of_ordered_resumed :
    ∃ s, system.ReachableBy Ordered s ∧ Exact s ∧ s.maxInflight = 2 ∧ s.inflight = 1 := by
  obtain ⟨s, hs, hp⟩ := system.exists_reachableBy_of_runIf ordered
    [.schedule 1 7, .step 1, .add 2 (.delay 4) true, .publish 2, .take 0 0, .step 1, .step 2,
      .step 2, .loadMax 2, .loadInflight 2, .step 2, .step 0, .loadInflight 1, .loadMax 1, .step 1]
    (fun s => s.maxInflight == 2 && s.inflight == 1) ordered_sound rfl (by decide)
  simp only [Bool.and_eq_true, beq_iff_eq] at hp
  exact ⟨s, hs, exact_of_ordered s hs, hp⟩

/-- The loop resumes a coroutine before `record` has counted it. -/
theorem exists_not_exact : ∃ s, system.Reachable s ∧ ¬ Exact s := by
  obtain ⟨s, hs, hp⟩ := system.exists_reachable_of_run [.schedule 1 7, .take 0 0, .step 0]
    (fun s => s.wraps == 1 && s.inflight == 2 ^ 64 - 1) rfl (by decide)
  simp only [Bool.and_eq_true, beq_iff_eq] at hp
  refine ⟨s, hs, fun h => ?_⟩
  have := h.wraps
  omega

end Suil.Async.Load
