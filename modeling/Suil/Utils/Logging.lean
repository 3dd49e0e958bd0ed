import Suil.Lib.CText
import Suil.Lib.Narrow

/-! `DefaultFormatter::operator()`. The process id, the time, and the text that the message
stands for are given. -/
namespace Suil.Utils.Logging
open CText (Chars)
open Narrow

inductive Level
  | TRACE | DEBUG | INFO | NOTICE | WARNING | ERROR | CRITICAL

def LOGLVL_STR : Level → Chars
  | .TRACE => "TRC".toList
  | .DEBUG => "DBG".toList
  | .INFO => "INF".toList
  | .NOTICE => "NTC".toList
  | .WARNING => "WRN".toList
  | .ERROR => "ERR".toList
  | .CRITICAL => "CRT".toList

def SUIL_LOG_BUFFER_SIZE : ℕ := 2048

/-- A `std::string` as `"%s"` prints it, up to a NUL. -/
def c_str (s : Chars) : Chars := s.takeWhile (· ≠ Char.ofNat 0)

/-- Filled from the left, as with `"%05d"` and `"%10s"`. -/
def fill (c : Char) (width : ℕ) (s : Chars) : Chars := List.replicate (width - s.length) c ++ s

/-- What a message is formatted from. -/
structure Call where
  name : Chars
  l : Level
  tag : Chars
  pid : ℕ
  datetime : Chars
  message : Chars

/-- The text before the message. `name()` is a `c_str`, and never a null pointer. -/
def Call.header (c : Call) : Chars :=
  match c.l with
  | .DEBUG | .ERROR | .CRITICAL | .WARNING =>
    c_str c.name ++ "/".toList ++ fill '0' 5 (toString c.pid).toList ++ ": [".toList ++
      c.datetime ++ "] [".toList ++ fill ' ' 3 (LOGLVL_STR c.l) ++ "] [".toList ++
      fill ' ' 10 (c.tag.take 10) ++ "] ".toList
  | _ => c_str c.name ++ ": ".toList

/-- A write into the buffer at an index. -/
structure Write where
  index : ℤ
  byte : Char

/-- The writes of consecutive bytes, from an index on. -/
def writeAt (i : ℤ) : Chars → List Write
  | [] => []
  | b :: s => ⟨i, b⟩ :: writeAt (i + 1) s

/-- The writes of `snprintf`, which leaves room for a NUL. -/
def snprintf (i : ℤ) (sz : ℕ) (text : Chars) : List Write :=
  if sz = 0 then [] else writeAt i (text.take (sz - 1) ++ [Char.ofNat 0])

/-- What `snprintf` returns: the length of the whole text, and -1 where an `int` cannot hold it. -/
def printed (text : Chars) : ℤ := if text.length < 2 ^ 31 then text.length else -1

/-- What was written, whether `sz - wr` has wrapped, and what is returned. -/
structure Formatted where
  writes : List Write
  wrapped : Bool
  returned : ℕ

def trailer : Chars := [Char.ofNat 27, '[', '0', 'm', '\n', Char.ofNat 0]

def DefaultFormatter (c : Call) : Formatted :=
  let sz := SUIL_LOG_BUFFER_SIZE - 8
  let wr := printed c.header
  let rest := size_t (sz - wr)
  let total := int (wr + printed c.message)
  { writes := snprintf 0 sz c.header ++ snprintf wr rest c.message ++ writeAt total trailer
    wrapped := sz < size_t wr
    returned := size_t (total + 5) }

/-- Every write is in the buffer, `sz - wr` does not wrap, and the size is below the buffer's. -/
structure Formatted.Inside (f : Formatted) : Prop where
  writes : ∀ w ∈ f.writes, 0 ≤ w.index ∧ w.index < SUIL_LOG_BUFFER_SIZE
  wrapped : f.wrapped = false
  returned : f.returned < SUIL_LOG_BUFFER_SIZE

section Inside
variable {i : ℤ} {s : Chars} {w : Write} {sz : ℕ} {x y : ℤ}

theorem index_of_mem_writeAt (h : w ∈ writeAt i s) : i ≤ w.index ∧ w.index < i + s.length := by
  induction s generalizing i with
  | nil => cases h
  | cons b s ih =>
    rw [List.length_cons]
    rcases List.mem_cons.mp h with rfl | hm
    · dsimp only
      omega
    · have := ih hm
      omega

theorem index_of_mem_snprintf (h : w ∈ snprintf i sz s) : i ≤ w.index ∧ w.index < i + sz := by
  unfold snprintf at h
  split_ifs at h with hz
  · cases h
  · have hindex := index_of_mem_writeAt h
    rw [List.length_append, List.length_take, List.length_singleton] at hindex
    omega

theorem printed_of_lt (h : s.length < 2 ^ 31) : printed s = s.length := if_pos h

theorem printed_of_ge (h : 2 ^ 31 ≤ s.length) : printed s = -1 := if_neg (Nat.not_lt.mpr h)

/-- The last of the six bytes is the one with the highest index. -/
theorem trailer_inside (h : ∀ w ∈ writeAt i trailer, 0 ≤ w.index ∧ w.index < SUIL_LOG_BUFFER_SIZE) :
    0 ≤ i ∧ i ≤ 2042 := by
  have hfirst : (⟨i, Char.ofNat 27⟩ : Write) ∈ writeAt i trailer := List.mem_cons_self
  have hlast : (⟨i + 1 + 1 + 1 + 1 + 1, Char.ofNat 0⟩ : Write) ∈ writeAt i trailer := by
    simp [writeAt, trailer]
  have hlo := (h _ hfirst).1
  have hhi := (h _ hlast).2
  have hsize : SUIL_LOG_BUFFER_SIZE = 2048 := rfl
  dsimp only at hlo hhi
  omega

theorem snprintf_inside (hi : 0 ≤ i) (hle : i + sz ≤ SUIL_LOG_BUFFER_SIZE)
    (h : w ∈ snprintf i sz s) :
    0 ≤ w.index ∧ w.index < SUIL_LOG_BUFFER_SIZE := by
  obtain ⟨hlo, hhi⟩ := index_of_mem_snprintf h
  omega

theorem fill_length (c : Char) (width : ℕ) (s : Chars) :
    (fill c width s).length = max width s.length := by
  rw [fill, List.length_append, List.length_replicate]
  omega

theorem level_length (l : Level) : (LOGLVL_STR l).length = 3 := by cases l <;> rfl

/-- Only the name, the process id and the time make the header longer. -/
theorem header_length (c : Call) : c.header.length =
    (c_str c.name).length +
      match c.l with
      | .DEBUG | .ERROR | .CRITICAL | .WARNING =>
        max 5 (toString c.pid).length + c.datetime.length + 25
      | _ => 2 := by
  have htag : max 10 (c.tag.take 10).length = 10 := by
    rw [List.length_take]
    omega
  unfold Call.header
  cases c.l with
  | TRACE | INFO | NOTICE => rw [List.length_append]; rfl
  | DEBUG | WARNING | ERROR | CRITICAL =>
    have hslash : "/".toList.length = 1 := rfl
    have hopen : ": [".toList.length = 3 := rfl
    have hnext : "] [".toList.length = 3 := rfl
    have hclose : "] ".toList.length = 2 := rfl
    simp only [List.length_append, fill_length, htag, hslash, hopen, hnext, hclose,
      level_length]
    simp only [String.length_toList]
    omega

theorem header_pos (c : Call) : 0 < c.header.length := by
  rw [header_length]
  cases c.l with
  | TRACE | INFO | NOTICE => exact Nat.succ_pos _
  | DEBUG | WARNING | ERROR | CRITICAL => exact Nat.succ_pos _

end Inside

section Fields
variable (c : Call)

/-- The index of the trailer. -/
def Call.total : ℤ := int (printed c.header + printed c.message)

theorem writes_eq : (DefaultFormatter c).writes =
    snprintf 0 2040 c.header ++
      snprintf (printed c.header) (size_t (2040 - printed c.header)) c.message ++
      writeAt c.total trailer := rfl

theorem wrapped_iff : (DefaultFormatter c).wrapped = false ↔ c.header.length ≤ 2040 := by
  have hwrapped : (DefaultFormatter c).wrapped = decide (2040 < size_t (printed c.header)) := rfl
  rw [hwrapped, decide_eq_false_iff_not, Nat.not_lt]
  by_cases hlt : c.header.length < 2 ^ 31
  · rw [printed_of_lt hlt, size_t_of_fits (by omega) (by omega)]
    omega
  · rw [printed_of_ge (Nat.not_lt.mp hlt), size_t_of_neg (by decide) (by decide)]
    omega

/-- A message that `vsnprintf` cannot count puts the trailer over the last character of the
header. -/
theorem total_inside_iff (h : c.header.length ≤ 2040) : 0 ≤ c.total ∧ c.total ≤ 2042 ↔
    c.header.length + c.message.length ≤ 2042 ∨ 2 ^ 31 ≤ c.message.length := by
  have hpos := header_pos c
  rw [Call.total, printed_of_lt (by omega)]
  by_cases hlt : c.message.length < 2 ^ 31
  · rw [printed_of_lt hlt, int_eq_emod]
    split_ifs <;> omega
  · rw [printed_of_ge (Nat.not_lt.mp hlt), int_of_fits (by omega) (by omega)]
    omega

theorem returned_eq : (DefaultFormatter c).returned = size_t (c.total + 5) := rfl

end Fields

/-- The header and the message must fit in front of the trailer. -/
theorem formatter_inside_iff (c : Call) : (DefaultFormatter c).Inside ↔
    c.header.length ≤ 2040 ∧
      (c.header.length + c.message.length ≤ 2042 ∨ 2 ^ 31 ≤ c.message.length) := by
  have hsize : SUIL_LOG_BUFFER_SIZE = 2048 := rfl
  constructor
  · intro h
    have hheader := (wrapped_iff c).mp h.wrapped
    have htrailer := trailer_inside fun w hw => h.writes w (List.mem_append_right _ hw)
    exact ⟨hheader, (total_inside_iff c hheader).mp htrailer⟩
  · rintro ⟨hheader, hfits⟩
    obtain ⟨hlo, hhi⟩ := (total_inside_iff c hheader).mpr hfits
    have hwr : printed c.header = c.header.length := printed_of_lt (by omega)
    have hrest : size_t (2040 - c.header.length) = (2040 - c.header.length : ℤ).toNat :=
      size_t_of_fits (by omega) (by omega)
    constructor
    · intro w hw
      rw [writes_eq, hwr, hrest, List.mem_append, List.mem_append] at hw
      rcases hw with (hw | hw) | hw
      · exact snprintf_inside (Int.le_refl 0) (by omega) hw
      · exact snprintf_inside (by omega) (by omega) hw
      · have hindex := index_of_mem_writeAt hw
        have hlen : trailer.length = 6 := rfl
        omega
    · exact (wrapped_iff c).mpr hheader
    · rw [returned_eq, size_t_of_fits (by omega) (by omega)]
      omega

/-- A line of 2041 characters from a logger without a name; the NUL is written behind the
buffer. -/
theorem inside_fails : ¬ ∀ c : Call, (DefaultFormatter c).Inside := by
  intro hall
  let c : Call := ⟨[], .INFO, [], 1, [], List.replicate 2041 'x'⟩
  have hmessage : c.message.length = 2041 := List.length_replicate
  have hlast : (⟨2048, Char.ofNat 0⟩ : Write) ∈ (DefaultFormatter c).writes := by
    have htotal : c.total = 2043 := by
      have hheader : printed c.header = 2 := rfl
      have hprinted : printed c.message = 2041 := by rw [printed_of_lt (by omega), hmessage]; rfl
      rw [Call.total, hheader, hprinted]
      rfl
    rw [writes_eq, htotal]
    refine List.mem_append_right _ ?_
    simp [writeAt, trailer]
  exact absurd ((hall c).writes _ hlast).2 (by decide)

end Suil.Utils.Logging
