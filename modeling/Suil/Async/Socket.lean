import Suil.Async.Common
import Suil.Async.Thread
import Mathlib.Data.List.Basic
import Mathlib.Tactic.SplitIfs
import Mathlib.Algebra.BigOperators.Group.List.Basic
import Mathlib.Algebra.Ring.Nat
import Mathlib.Algebra.Ring.Int.Defs

/-! `Socket::sendAll` and `Socket::receiveAll`. The kernel's answers and the results of
the waits are given as a list, one turn of the loop each. The two loops differ in the
system call only. The deadline and `_tID` only reach `fdwait` and are left out. -/
namespace Suil.Async.Socket
open Thread (State)
open Narrow (int)

def EBADF : ℤ := 9
def EAGAIN : ℤ := 11
def EWOULDBLOCK : ℤ := EAGAIN
def EPIPE : ℤ := 32
def ECONNRESET : ℤ := 104
def ETIMEDOUT : ℤ := 110
def EINPROGRESS : ℤ := 115

def INT_MAX : ℕ := 2 ^ 31 - 1

/-- The `errno` of a failed system call; Linux keeps it below 4096. -/
structure Errno where
  val : ℤ
  pos : 0 < val
  lt : val < 4096

/-- Conversion to `int16`. -/
def int16 (n : ℤ) : ℤ := n.bmod (2 ^ 16)

/-- What `::send` or `::recv` returns: a count, or -1 with an `errno`. -/
inductive Answer
  | count (n : ℕ)
  | failed (errno : Errno)

/-- One turn of the loop. `ev` and `errno` are the result of `fdwait` and the value of
`errno` after it; they are looked at only if the call would block. -/
structure Turn where
  answer : Answer
  ev : State
  errno : ℤ

/-- A call so far: `value` is what it has returned, `nSent` (`nReceived`) the bytes moved,
`error` the `_error` of the socket, `mem` the memory the system call works on. `last` is
the turn that left the loop by a `break`, a ghost. -/
structure Transfer (σ : Type*) where
  value : Option ℤ
  nSent : ℕ
  error : ℤ
  mem : σ
  last : Option Turn

section Loop
variable {σ : Type*} (move : σ → ℕ → ℕ → σ) (size : ℕ)

/-- The loop of `sendAll` and of `receiveAll`; `move m off n` is what moving `n` bytes from
(to) `buf[off]` does. `continue` goes to the loop condition as well. -/
def transferAll (nSent : ℕ) (error : ℤ) (mem : σ) : List Turn → Transfer σ
  | [] => ⟨none, nSent, error, mem, none⟩
  | t :: ts =>
    match t.answer with
    | .failed errno =>
      if errno.val = EPIPE then ⟨some (int nSent), nSent, ECONNRESET, mem, some t⟩
      else if errno.val ≠ EAGAIN ∧ errno.val ≠ EWOULDBLOCK then
        ⟨some (-1), nSent, int16 errno.val, mem, some t⟩
      else if t.ev ≠ .fired then
        ⟨some (-1), nSent, int16 (if t.ev = .timeout then ETIMEDOUT else t.errno), mem, some t⟩
      else if nSent < size then transferAll nSent error mem ts
      else ⟨some (int nSent), nSent, error, mem, none⟩
    | .count 0 => ⟨some (int nSent), nSent, ECONNRESET, mem, some t⟩
    | .count rc =>
      if nSent + rc < size then transferAll (nSent + rc) error (move mem nSent rc) ts
      else ⟨some (int ↑(nSent + rc)), nSent + rc, error, move mem nSent rc, none⟩

end Loop

/-- `::send(_fd, &buf[off], ..)` appends `n` bytes of `buf` to what the peer is sent. -/
def sendBytes {β : Type*} (buf : ℕ → β) (wire : List β) (off n : ℕ) : List β :=
  wire ++ (List.range n).map fun i => buf (off + i)

def sendAll {β : Type*} (buf : ℕ → β) (size : ℕ) (error : ℤ) (wire : List β)
    (turns : List Turn) : Transfer (List β) :=
  transferAll (sendBytes buf) size 0 error wire turns

/-- The buffer of `receiveAll` and the position in the stream the kernel has received. -/
structure Inbox (β : Type*) where
  buf : ℕ → β
  next : ℕ

/-- `::recv(_fd, &buf[off], ..)` moves the next `n` bytes of the stream to `buf[off]`. -/
def recvBytes {β : Type*} (stream : ℕ → β) (m : Inbox β) (off n : ℕ) : Inbox β where
  buf j := if off ≤ j ∧ j < off + n then stream (m.next + (j - off)) else m.buf j
  next := m.next + n

def receiveAll {β : Type*} (stream : ℕ → β) (size : ℕ) (error : ℤ) (m : Inbox β)
    (turns : List Turn) : Transfer (Inbox β) :=
  transferAll (recvBytes stream) size 0 error m turns

/-- A count is between 0 and the length asked for, `left` at the first turn. -/
def Honest : ℕ → List Turn → Prop
  | _, [] => True
  | left, t :: ts =>
    match t.answer with
    | .count n => n ≤ left ∧ Honest (left - n) ts
    | .failed _ => Honest left ts

namespace Turn

def count (t : Turn) : ℕ :=
  match t.answer with
  | .count n => n
  | .failed _ => 0

/-- The call would block. -/
def blocks (t : Turn) : Bool :=
  match t.answer with
  | .count _ => false
  | .failed e => e.val = EAGAIN

/-- The connection is gone: a count of 0 or EPIPE. -/
def resets (t : Turn) : Bool :=
  match t.answer with
  | .count n => n = 0
  | .failed e => e.val = EPIPE

/-- The transfer cannot go on: no bytes, an error, or a wait that did not fire. -/
def ends (t : Turn) : Bool :=
  match t.answer with
  | .count n => n = 0
  | .failed _ => !t.blocks || t.ev ≠ .fired

/-- The error numbers that name why `t` ended a transfer. -/
def Cause (t : Turn) (error : ℤ) : Prop :=
  error ≠ 0 ∧
    match t.answer with
    | .count _ => error = ECONNRESET
    | .failed e =>
      if e.val = EPIPE then error = ECONNRESET
      else if t.blocks then t.ev = .timeout → error = ETIMEDOUT
      else error = e.val

end Turn

/-- What a caller may rely on. `error` is the last error of the socket before the call. -/
structure Transfer.Truthful {σ : Type*} (r : Transfer σ) (size : ℕ) (error : ℤ) : Prop where
  exact : ∀ v, r.value = some v → (v = size ↔ r.nSent = size)
  quiet : r.value = some (size : ℤ) → r.error = error
  cause : ∀ v, r.value = some v → v ≠ size → ∃ t, r.last = some t ∧ t.Cause r.error

/-- The bytes that go through before the first turn that ends the transfer. -/
def delivered (turns : List Turn) : ℕ := ((turns.takeWhile (!·.ends)).map Turn.count).sum

/-- A nonempty transfer is at most INT_MAX bytes long unless it stays incomplete, and a
wait that fails without a timeout leaves an `errno` that `int16` does not turn into 0. An
empty one waits and the wait fires, or `_error` was ECONNRESET before. -/
def Reports (size : ℕ) (error : ℤ) (turns : List Turn) : Prop :=
  if size = 0 then ∀ t ∈ turns.head?, t.ends → t.resets ∧ error = ECONNRESET
  else if delivered turns = size then size ≤ INT_MAX
  else ∀ t ∈ turns.find? (·.ends), t.blocks → t.ev ≠ .timeout → int16 t.errno ≠ 0

namespace Turn
variable (t : Turn) (nSent : ℕ)

/-- What a turn that ends the transfer after `nSent` bytes makes of the result and of `_error`. -/
def stop : ℤ × ℤ :=
  match t.answer with
  | .count _ => (int nSent, ECONNRESET)
  | .failed e =>
    if e.val = EPIPE then (int nSent, ECONNRESET)
    else if t.blocks then (-1, int16 (if t.ev = .timeout then ETIMEDOUT else t.errno))
    else (-1, int16 e.val)

variable {t}

end Turn

section Loop
variable {σ : Type*} (move : σ → ℕ → ℕ → σ) (size : ℕ) {t : Turn} {ts : List Turn}
  (nSent : ℕ) (error : ℤ) (mem : σ)

theorem transferAll_ends (h : t.ends) :
    transferAll move size nSent error mem (t :: ts) =
      ⟨some (t.stop nSent).1, nSent, (t.stop nSent).2, mem, some t⟩ := by
  unfold transferAll
  split
  next e he =>
    simp only [Turn.ends, Turn.blocks, Turn.stop, he, EWOULDBLOCK, and_self] at h ⊢
    split_ifs <;> simp_all
  next he => simp [Turn.stop, he]
  next rc hrc he =>
    have : rc = 0 := by simpa [Turn.ends, he] using h
    exact absurd this (by simpa using hrc)

/-- A turn that does not end the transfer moves its bytes and goes to the loop condition. -/
theorem transferAll_goes (ts : List Turn) (h : ¬ t.ends) :
    ∃ mem', (mem' = mem ∧ t.count = 0 ∨ mem' = move mem nSent t.count) ∧
      transferAll move size nSent error mem (t :: ts) =
        if nSent + t.count < size then transferAll move size (nSent + t.count) error mem' ts
        else ⟨some (int ↑(nSent + t.count)), nSent + t.count, error, mem', none⟩ := by
  cases he : t.answer with
  | count n =>
    have hn : n ≠ 0 := by simpa [Turn.ends, he] using h
    obtain ⟨k, rfl⟩ := Nat.exists_eq_succ_of_ne_zero hn
    refine ⟨move mem nSent t.count, .inr rfl, ?_⟩
    simp [transferAll, Turn.count, he]
  | failed e =>
    have hb : t.blocks = true ∧ t.ev = .fired := by simpa [Turn.ends, he] using h
    have hval : e.val = EAGAIN := by simpa [Turn.blocks, he] using hb.1
    have hpipe : EAGAIN ≠ EPIPE := by decide
    refine ⟨mem, .inl ⟨rfl, by simp [Turn.count, he]⟩, ?_⟩
    simp [transferAll, Turn.count, he, hval, hpipe, hb.2]

end Loop

theorem honest_cons {left : ℕ} {t : Turn} {ts : List Turn} (h : Honest left (t :: ts)) :
    t.count ≤ left ∧ Honest (left - t.count) ts := by
  unfold Honest at h
  unfold Turn.count
  split at h
  next he => simpa [he] using h
  next he => simpa [he] using h

theorem delivered_cons (t : Turn) (ts : List Turn) :
    delivered (t :: ts) = if t.ends then 0 else t.count + delivered ts := by
  unfold delivered
  cases h : t.ends <;> simp [h]

theorem delivered_of_honest_zero {ts : List Turn} (h : Honest 0 ts) : delivered ts = 0 := by
  induction ts with
  | nil => rfl
  | cons t ts ih =>
    obtain ⟨hle, hrest⟩ := honest_cons h
    rw [delivered_cons]
    split_ifs
    · rfl
    · have := ih (by simpa using hrest)
      omega

/-- How a call stands: it still runs, it has moved all bytes, or a turn has ended it. -/
inductive Stands {σ : Type*} (size nSent : ℕ) (error : ℤ) (turns : List Turn)
    (r : Transfer σ) : Prop
  | running : r.value = none → nSent + delivered turns = r.nSent → r.nSent < size →
      turns.find? (·.ends) = none → Stands size nSent error turns r
  | complete : r.value = some (int size) → r.nSent = size → r.error = error →
      r.last = none → nSent + delivered turns = size → Stands size nSent error turns r
  | stopped (t : Turn) : turns.find? (·.ends) = some t → r.last = some t →
      nSent + delivered turns = r.nSent → r.nSent < size →
      r.value = some (t.stop r.nSent).1 → r.error = (t.stop r.nSent).2 →
      Stands size nSent error turns r

theorem transferAll_stands {σ : Type*} (move : σ → ℕ → ℕ → σ) {size nSent : ℕ} (error : ℤ)
    (mem : σ) {turns : List Turn} (hn : nSent < size) (hh : Honest (size - nSent) turns) :
    Stands size nSent error turns (transferAll move size nSent error mem turns) := by
  induction turns generalizing nSent mem with
  | nil => exact .running rfl rfl hn rfl
  | cons t ts ih =>
    obtain ⟨hle, hrest⟩ := honest_cons hh
    by_cases ht : t.ends
    · rw [transferAll_ends _ _ _ _ _ ht]
      have hd : delivered (t :: ts) = 0 := by simp [delivered_cons, ht]
      have hf : (t :: ts).find? (·.ends) = some t := by simp [ht]
      exact .stopped t hf rfl (by simp [hd]) hn rfl rfl
    · obtain ⟨mem', -, heq⟩ := transferAll_goes move size nSent error mem ts ht
      have hd : delivered (t :: ts) = t.count + delivered ts := by simp [delivered_cons, ht]
      have hf : (t :: ts).find? (·.ends) = ts.find? (·.ends) := by simp [ht]
      rw [heq]
      split_ifs with hlt
      · have hsub : size - nSent - t.count = size - (nSent + t.count) := by omega
        cases ih _ hlt (hsub ▸ hrest) with
        | running hv hsum hlt' hnone =>
          exact .running hv (by omega) hlt' (hf.trans hnone)
        | complete hv hs he hl hsum =>
          exact .complete hv hs he hl (by omega)
        | stopped u hu hl hsum hlt' hv he =>
          exact .stopped u (hf.trans hu) hl (by omega) hlt' hv he
      · have hsize : nSent + t.count = size := by omega
        have hzero : size - nSent - t.count = 0 := by omega
        have hd' : delivered ts = 0 := delivered_of_honest_zero (hzero ▸ hrest)
        exact .complete (by rw [hsize]) hsize rfl rfl (by omega)

theorem int_eq_iff (n : ℕ) : int n = n ↔ n ≤ INT_MAX := by
  rw [Narrow.int_natCast_eq_iff, INT_MAX]
  omega

theorem int16_errno (e : Errno) : int16 e.val = e.val := by
  have hpos := e.pos
  have hlt := e.lt
  unfold int16
  rw [Int.bmod_def]
  split_ifs <;> omega

/-- Only a wait that fails without a timeout can leave no cause. -/
theorem Turn.cause_stop_iff {t : Turn} (nSent : ℕ) :
    t.Cause (t.stop nSent).2 ↔ (t.blocks → t.ev ≠ .timeout → int16 t.errno ≠ 0) := by
  cases he : t.answer with
  | count n => simp [Turn.Cause, Turn.stop, Turn.blocks, he, ECONNRESET]
  | failed e =>
    have hpos := e.pos
    by_cases hpipe : e.val = EPIPE
    · have hne : EPIPE ≠ EAGAIN := by decide
      simp [Turn.Cause, Turn.stop, Turn.blocks, he, hpipe, hne, ECONNRESET]
    · by_cases hb : t.blocks
      · have ht : int16 ETIMEDOUT = ETIMEDOUT := by decide
        have hz : ETIMEDOUT ≠ 0 := by decide
        by_cases hev : t.ev = .timeout
        · simp [Turn.Cause, Turn.stop, he, hpipe, hb, hev, ht, hz]
        · simp [Turn.Cause, Turn.stop, he, hpipe, hb, hev]
      · have hval : e.val ≠ 0 := by omega
        simp [Turn.Cause, Turn.stop, he, hpipe, hb, int16_errno, hval]

theorem Turn.stop_of_resets {t : Turn} {nSent : ℕ} (h : t.resets) :
    t.stop nSent = (int nSent, ECONNRESET) := by
  unfold Turn.resets at h
  unfold Turn.stop
  split at h <;> simp_all

theorem Turn.stop_of_not_resets {t : Turn} {nSent : ℕ} (h : t.ends) (hr : ¬ t.resets) :
    (t.stop nSent).1 = -1 := by
  cases he : t.answer with
  | count n => simp_all [Turn.ends, Turn.resets]
  | failed e =>
    have hpipe : e.val ≠ EPIPE := by simpa [Turn.resets, he] using hr
    simp only [Turn.stop, he, hpipe, if_false]
    split_ifs <;> rfl

theorem Turn.stop_lt {t : Turn} {nSent size : ℕ} (h : nSent < size) :
    (t.stop nSent).1 < size := by
  have hle := Narrow.int_le (Int.natCast_nonneg nSent)
  unfold Turn.stop
  split
  · simp only; omega
  · split_ifs <;> simp only <;> omega

section Truthful
variable {σ : Type*} (move : σ → ℕ → ℕ → σ) {size : ℕ} {error : ℤ} {mem : σ} {turns : List Turn}

/-- A request for no bytes runs the body of the loop once. -/
theorem transferAll_truthful_zero (hh : Honest 0 turns) :
    (transferAll move 0 0 error mem turns).Truthful 0 error ↔ Reports 0 error turns := by
  cases turns with
  | nil => exact ⟨fun _ => by simp [Reports], fun _ => ⟨nofun, nofun, nofun⟩⟩
  | cons t ts =>
    have hcount : t.count = 0 := Nat.le_zero.mp (honest_cons hh).1
    by_cases ht : t.ends
    · have hr : Reports 0 error (t :: ts) ↔ t.resets ∧ error = ECONNRESET := by
        simp [Reports, ht]
      rw [transferAll_ends _ _ _ _ _ ht, hr]
      by_cases hres : t.resets
      · rw [Turn.stop_of_resets hres]
        constructor
        · exact fun h => ⟨hres, (h.quiet rfl).symm⟩
        · rintro ⟨-, rfl⟩
          exact ⟨by simp [Narrow.int], fun _ => rfl, by simp [Narrow.int]⟩
      · constructor
        · intro h
          have := (h.exact _ rfl).mpr rfl
          rw [Turn.stop_of_not_resets ht hres] at this
          exact absurd this (by decide)
        · exact fun h => absurd h.1 hres
    · have hr : Reports 0 error (t :: ts) := by simp [Reports, ht]
      obtain ⟨mem', -, heq⟩ := transferAll_goes move 0 0 error mem ts ht
      rw [heq, hcount]
      refine ⟨fun _ => hr, fun _ => ?_⟩
      constructor <;> simp [Narrow.int]

theorem transferAll_truthful_iff (hh : Honest size turns) :
    (transferAll move size 0 error mem turns).Truthful size error ↔ Reports size error turns := by
  rcases Nat.eq_zero_or_pos size with rfl | hpos
  · exact transferAll_truthful_zero move hh
  have hne : size ≠ 0 := by omega
  cases transferAll_stands move error mem hpos hh with
  | running hv hsum hlt hnone =>
    have hd : delivered turns ≠ size := by omega
    have hr : Reports size error turns := by simp [Reports, hne, hd, hnone]
    exact ⟨fun _ => hr, fun _ => ⟨by simp [hv], by simp [hv], by simp [hv]⟩⟩
  | complete hv hs he hl hsum =>
    have hd : delivered turns = size := by omega
    have hr : Reports size error turns ↔ size ≤ INT_MAX := by simp [Reports, hne, hd]
    rw [hr, ← int_eq_iff]
    constructor
    · intro h
      exact (h.exact _ hv).mpr hs
    · intro h
      rw [h] at hv
      constructor
      · simp [hv, hs]
      · exact fun _ => he
      · simp [hv]
  | stopped t hf hl hsum hlt hv he =>
    have hd : delivered turns ≠ size := by omega
    have hr : Reports size error turns ↔ (t.blocks → t.ev ≠ .timeout → int16 t.errno ≠ 0) := by
      simp [Reports, hne, hd, hf]
    have hval := Turn.stop_lt (t := t) hlt
    rw [hr, ← Turn.cause_stop_iff, ← he]
    constructor
    · intro h
      obtain ⟨u, hu, hc⟩ := h.cause _ hv (by omega)
      rw [hl] at hu
      exact Option.some.inj hu ▸ hc
    · intro h
      constructor
      · intro v hv'
        have : v = (t.stop _).1 := Option.some.inj (hv'.symm.trans hv)
        omega
      · intro hv'
        have : (size : ℤ) = (t.stop _).1 := Option.some.inj (hv'.symm.trans hv)
        omega
      · exact fun v _ _ => ⟨t, hl, h⟩

theorem transferAll_nSent_le (hh : Honest size turns) :
    (transferAll move size 0 error mem turns).nSent ≤ size := by
  rcases Nat.eq_zero_or_pos size with rfl | hpos
  · cases turns with
    | nil => exact Nat.le_refl 0
    | cons t ts =>
      have hcount : t.count = 0 := Nat.le_zero.mp (honest_cons hh).1
      by_cases ht : t.ends
      · simp [transferAll_ends, ht]
      · obtain ⟨mem', -, heq⟩ := transferAll_goes move 0 0 error mem ts ht
        simp [heq, hcount]
  · cases transferAll_stands move error mem hpos hh with
    | running _ _ hlt _ => omega
    | complete _ hs _ _ _ => omega
    | stopped _ _ _ _ hlt _ _ => omega

/-- What holds of the memory and the number of bytes moved, and is kept by every piece,
holds when the loop is left and while it runs. -/
theorem transferAll_mem {P : ℕ → σ → Prop} {nSent : ℕ}
    (hP : ∀ n m rc, P n m → P (n + rc) (move m n rc)) (h : P nSent mem) :
    P (transferAll move size nSent error mem turns).nSent
      (transferAll move size nSent error mem turns).mem := by
  induction turns generalizing nSent mem with
  | nil => exact h
  | cons t ts ih =>
    by_cases ht : t.ends
    · rw [transferAll_ends _ _ _ _ _ ht]
      exact h
    · obtain ⟨mem', hm, heq⟩ := transferAll_goes move size nSent error mem ts ht
      have h' : P (nSent + t.count) mem' := by
        rcases hm with ⟨rfl, hz⟩ | rfl
        · rwa [hz]
        · exact hP _ _ _ h
      rw [heq]
      split_ifs
      · exact ih h'
      · exact h'

end Truthful

section Bytes
variable {β : Type*}

/-- The kernel has been handed `buf[0..k)` in order and nothing else. -/
def Sent (buf : ℕ → β) (size : ℕ) (wire : List β) (r : Transfer (List β)) : Prop :=
  r.nSent ≤ size ∧ r.mem = wire ++ (List.range r.nSent).map buf

/-- The next bytes of the stream stand in `buf[0..k)` in order, the rest of `buf` is as before. -/
def Received (stream : ℕ → β) (size : ℕ) (m : Inbox β) (r : Transfer (Inbox β)) : Prop :=
  r.nSent ≤ size ∧ r.mem.next = m.next + r.nSent ∧
    ∀ j, r.mem.buf j = if j < r.nSent then stream (m.next + j) else m.buf j

variable {size : ℕ} {error : ℤ} {turns : List Turn}

theorem sent_sendAll (error : ℤ) (buf : ℕ → β) (wire : List β) (hh : Honest size turns) :
    Sent buf size wire (sendAll buf size error wire turns) := by
  refine ⟨transferAll_nSent_le _ hh, ?_⟩
  refine transferAll_mem (sendBytes buf) (P := fun n m => m = wire ++ (List.range n).map buf) ?_ ?_
  · rintro n m rc rfl
    simp [sendBytes, List.range_add]
  · simp

theorem received_receiveAll (error : ℤ) (stream : ℕ → β) (m : Inbox β) (hh : Honest size turns) :
    Received stream size m (receiveAll stream size error m turns) := by
  refine ⟨transferAll_nSent_le _ hh, ?_⟩
  refine transferAll_mem (recvBytes stream) (P := fun n i => i.next = m.next + n ∧
    ∀ j, i.buf j = if j < n then stream (m.next + j) else m.buf j) ?_ ?_
  · rintro n i rc ⟨hnext, hbuf⟩
    refine ⟨by simp only [recvBytes, hnext]; omega, fun j => ?_⟩
    show (if n ≤ j ∧ j < n + rc then stream (i.next + (j - n)) else i.buf j) = _
    by_cases hlow : j < n
    · have hout : ¬ (n ≤ j ∧ j < n + rc) := by omega
      have hin : j < n + rc := by omega
      rw [if_neg hout, if_pos hin, hbuf, if_pos hlow]
    · by_cases hin : j < n + rc
      · have hpiece : n ≤ j ∧ j < n + rc := by omega
        have hpos : i.next + (j - n) = m.next + j := by omega
        rw [if_pos hpiece, if_pos hin, hpos]
      · have hout : ¬ (n ≤ j ∧ j < n + rc) := by omega
        rw [if_neg hout, if_neg hin, hbuf, if_neg hlow]
  · simp

/-- Both calls move every byte once, and are truthful exactly if `Reports` holds. -/
theorem sendAll_receiveAll_truthful_iff (buf stream : ℕ → β) (wire : List β) (m : Inbox β)
    (size : ℕ) (error : ℤ) (turns : List Turn) (hh : Honest size turns) :
    (Sent buf size wire (sendAll buf size error wire turns) ∧
        (sendAll buf size error wire turns).Truthful size error ↔ Reports size error turns) ∧
      (Received stream size m (receiveAll stream size error m turns) ∧
        (receiveAll stream size error m turns).Truthful size error ↔
          Reports size error turns) := by
  have hsend := sent_sendAll error buf wire hh
  have hrecv := received_receiveAll error stream m hh
  constructor
  · rw [and_iff_right hsend]
    exact transferAll_truthful_iff _ hh
  · rw [and_iff_right hrecv]
    exact transferAll_truthful_iff _ hh

end Bytes

/-- The kernel takes the three bytes in two pieces with a wait in between. -/
def twoPieces : List Turn :=
  [⟨.count 2, .created, 0⟩, ⟨.failed ⟨EAGAIN, by decide, by decide⟩, .fired, 0⟩,
    ⟨.count 1, .created, 0⟩]

theorem sendAll_receiveAll_truthful_twoPieces :
    Honest 3 twoPieces ∧
      (sendAll id 3 0 [] twoPieces).Truthful 3 0 ∧
      (receiveAll id 3 0 ⟨fun _ => 0, 5⟩ twoPieces).Truthful 3 0 := by
  have hh : Honest 3 twoPieces := ⟨by decide, by decide, trivial⟩
  have hr : Reports 3 0 twoPieces := by
    simp [Reports, delivered, twoPieces, Turn.ends, Turn.blocks, Turn.count, INT_MAX]
  obtain ⟨hsend, hrecv⟩ :=
    sendAll_receiveAll_truthful_iff id id [] ⟨fun _ => 0, 5⟩ 3 0 twoPieces hh
  exact ⟨hh, (hsend.mpr hr).2, (hrecv.mpr hr).2⟩

/-- An empty request sets ECONNRESET, and 2^31 bytes that all go out return a negative count. -/
theorem sendAll_untruthful :
    (Honest 0 [⟨.count 0, .created, 0⟩] ∧
      ¬ (sendAll id 0 0 [] [⟨.count 0, .created, 0⟩]).Truthful 0 0) ∧
    (Honest (2 ^ 31) [⟨.count (2 ^ 31), .created, 0⟩] ∧
      ¬ (sendAll id (2 ^ 31) 0 [] [⟨.count (2 ^ 31), .created, 0⟩]).Truthful (2 ^ 31) 0) := by
  have hempty : Honest 0 [⟨.count 0, .created, 0⟩] := ⟨by decide, trivial⟩
  have hlong : Honest (2 ^ 31) [⟨.count (2 ^ 31), .created, 0⟩] := ⟨by decide, trivial⟩
  constructor
  · refine ⟨hempty, fun h => ?_⟩
    have hr := (transferAll_truthful_iff _ hempty).mp h
    simp [Reports, Turn.ends, Turn.resets, ECONNRESET] at hr
  · refine ⟨hlong, fun h => ?_⟩
    have hr := (transferAll_truthful_iff _ hlong).mp h
    simp [Reports, delivered, Turn.ends, Turn.count, INT_MAX] at hr

end Suil.Async.Socket
