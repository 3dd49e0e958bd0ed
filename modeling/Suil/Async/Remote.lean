import Suil.Async.Address
import Suil.Async.Thread

/-! `SocketAddress::remote`. The answers of `dns_ai_nextent` and of the waits between them are
given; the resolver itself opens. An entry is named by the number of those before it. -/
namespace Suil.Async.Address
open CText (Str cString)
open Thread (State)

/-- An entry, `EAGAIN` with the result of the wait that follows it and the `errno` that this
leaves, or another error that is not the last answer. -/
inductive Answer
  | entry (e : Sockaddr)
  | again (fdw : State) (errno : ℕ)
  | error

/-- The error that ends a lookup. -/
inductive Final
  | ENOENT
  | other
  deriving DecidableEq

/-- What `dns_ai_nextent` answers: the entries and the `EAGAIN`s, and the final error over and
over again. -/
structure Oracle where
  answers : List Answer
  final : Final

/-- The number of entries that were handed out, those that were freed, and those that are kept. -/
structure Held where
  handed : ℕ
  freed : List ℕ
  ipv4 : Option (ℕ × In4)
  ipv6 : Option (ℕ × In6)

namespace Held

def start : Held := ⟨0, [], none, none⟩

def free (h : Held) : Held := { h with freed := h.freed ++ [h.handed], handed := h.handed + 1 }

/-- What the loop does with an entry. -/
def take (h : Held) : Sockaddr → Held
  | .inet a =>
    if h.ipv4.isNone then { h with ipv4 := some (h.handed, a), handed := h.handed + 1 } else h.free
  | .inet6 a =>
    if h.ipv6.isNone then { h with ipv6 := some (h.handed, a), handed := h.handed + 1 } else h.free
  | .other => h.free

def both (h : Held) : Bool := h.ipv4.isSome && h.ipv6.isSome

end Held

/-- How the loop is left. -/
inductive Stop
  | timedOut (errno : ℕ) (h : Held)
  | found (h : Held)

/-- The loop; `none` if it takes more rounds. Any other error leaves a null pointer, which is
freed. -/
def resolve (final : Final) : ℕ → List Answer → Held → Option Stop
  | 0, _, _ => none
  | rounds + 1, [], h =>
    if final = .ENOENT then some (.found h)
    else if h.both then some (.found h)
    else resolve final rounds [] h
  | rounds + 1, .again fdw errno :: answers, h =>
    if fdw ≠ .fired then some (.timedOut errno h) else resolve final rounds answers h
  | rounds + 1, .error :: answers, h =>
    if h.both then some (.found h) else resolve final rounds answers h
  | rounds + 1, .entry e :: answers, h =>
    if (h.take e).both then some (.found (h.take e)) else resolve final rounds answers (h.take e)

/-- What the call has returned, the entries handed out and freed, and whether a query was opened
and closed. -/
structure Returned where
  addr : SocketAddress
  errno : ℕ
  handed : ℕ
  freed : List ℕ
  opened : Bool
  closed : Bool

/-- The entries that the mode has freed. -/
def dropped {α β : Type*} (mode : Mode) (ipv4 : Option (ℕ × α)) (ipv6 : Option (ℕ × β)) : List ℕ :=
  match mode with
  | .IPV4 => (ipv6.map Prod.fst).toList
  | .IPV6 => (ipv4.map Prod.fst).toList
  | .IP_ANY | .IP_PV4 => if ipv4.isSome ∧ ipv6.isSome then (ipv6.map Prod.fst).toList else []
  | .IP_PV6 => if ipv6.isSome ∧ ipv4.isSome then (ipv4.map Prod.fst).toList else []

/-- What follows the loop. -/
def conclude (port : ℤ) (mode : Mode) (h : Held) : Returned :=
  let freed := h.freed ++ dropped mode h.ipv4 h.ipv6
  match choose mode h.ipv4 h.ipv6 with
  | (some it, _) => ⟨.inet it.2 (htons port), 0, h.handed, freed ++ [it.1], true, true⟩
  | (none, some it) => ⟨.inet6 it.2 (htons port), 0, h.handed, freed ++ [it.1], true, true⟩
  | (none, none) => ⟨.unspec, EADDRNOTAVAIL, h.handed, freed, true, true⟩

/-- `SocketAddress::remote`: what it returns within the given number of rounds, or that an
assertion fails. -/
def remote (pton : Pton) (name : Str) (port : ℤ) (mode : Mode) (oracle : Oracle) (rounds : ℕ) :
    Option (Option Returned) :=
  let addr := ipFromLiteral pton (cString name) port mode
  if addr.2 = 0 then some (some ⟨addr.1, addr.2, 0, [], false, false⟩)
  else if invalidPort port then some none
  else
    (resolve oracle.final rounds oracle.answers .start).map fun stop =>
      match stop with
      | .timedOut errno h => some ⟨addr.1, errno, h.handed, h.freed, true, false⟩
      | .found h => some (conclude port mode h)

/-- The addresses of the entries, in order. -/
def Answer.ip? : Answer → Option Ip
  | entry (.inet a) => some (.inet a)
  | entry (.inet6 a) => some (.inet6 a)
  | _ => none

def ips (answers : List Answer) : List Ip := answers.filterMap Answer.ip?

/-- The wait, if there is one, ends because the descriptor is ready. -/
def Answer.Fires : Answer → Prop
  | entry _ => True
  | again fdw _ => fdw = .fired
  | error => True

/-- Every entry is freed once, the query is closed, and the result is the address, or there is
an error. -/
structure Tidy (port : ℤ) (ip : Option Ip) (r : Returned) : Prop where
  freed : r.freed.Perm (List.range r.handed)
  closed : r.closed = r.opened
  addr : r.addr = (answer port 0 ip).1
  errno : ip = none → r.errno ≠ 0

/-- The call ends, and has tidied up. -/
def Finishes (pton : Pton) (name : Str) (port : ℤ) (mode : Mode) (oracle : Oracle) : Prop :=
  let found := ips oracle.answers
  ∃ r, (∃ n, ∀ rounds ≥ n, remote pton name port mode oracle rounds = some (some r)) ∧
    Tidy port ((mode.prefers (pton.inet (cString name)) (pton.inet6 (cString name))).or
      (mode.prefers (found.findSome? Ip.inet?) (found.findSome? Ip.inet6?))) r

/-- After what was seen, every wait fires up to the answer that gives the second of both families,
or to an `ENOENT` at the end. -/
def CompletesFrom (final : Final) (seen : List Ip) (answers : List Answer) : Prop :=
  ∃ pre rest, answers = pre ++ rest ∧ (∀ a ∈ pre, a.Fires) ∧
    (((seen ++ ips pre).findSome? Ip.inet?).isSome ∧
        ((seen ++ ips pre).findSome? Ip.inet6?).isSome ∨
      rest = [] ∧ final = .ENOENT)

def Oracle.Completes (oracle : Oracle) : Prop := CompletesFrom oracle.final [] oracle.answers

/-- The entries are freed or kept, and what is kept are the first addresses of `seen`. -/
structure Held.Ok (h : Held) (seen : List Ip) : Prop where
  perm : (h.freed ++ ((h.ipv4.map Prod.fst).toList ++ (h.ipv6.map Prod.fst).toList)).Perm
    (List.range h.handed)
  ipv4 : h.ipv4.map Prod.snd = seen.findSome? Ip.inet?
  ipv6 : h.ipv6.map Prod.snd = seen.findSome? Ip.inet6?

section Entries
variable {h : Held} {seen : List Ip}

theorem Held.Ok.start : Held.Ok .start [] := ⟨.nil, rfl, rfl⟩

theorem Held.Ok.both_iff (hok : h.Ok seen) : h.both = true ↔
    (seen.findSome? Ip.inet?).isSome ∧ (seen.findSome? Ip.inet6?).isSome := by
  rw [← hok.ipv4, ← hok.ipv6, Option.isSome_map, Option.isSome_map, Held.both, Bool.and_eq_true]

theorem Held.Ok.free (hok : h.Ok seen) {ip : List Ip}
    (h4 : (seen ++ ip).findSome? Ip.inet? = seen.findSome? Ip.inet?)
    (h6 : (seen ++ ip).findSome? Ip.inet6? = seen.findSome? Ip.inet6?) :
    h.free.Ok (seen ++ ip) where
  perm := by
    have hperm := hok.perm.append_right [h.handed]
    rw [← List.range_succ, List.append_assoc] at hperm
    unfold Held.free
    rw [List.append_assoc]
    exact (List.perm_append_comm.append_left _).trans hperm
  ipv4 := hok.ipv4.trans h4.symm
  ipv6 := hok.ipv6.trans h6.symm

theorem Held.Ok.inet (hok : h.Ok seen) (a : In4) :
    (h.take (.inet a)).Ok (seen ++ [Ip.inet a]) := by
  have hsix : (seen ++ [Ip.inet a]).findSome? Ip.inet6? = seen.findSome? Ip.inet6? := by
    rw [List.findSome?_append]
    exact Option.or_none
  have hfour : (seen ++ [Ip.inet a]).findSome? Ip.inet? =
      (seen.findSome? Ip.inet?).or (some a) := List.findSome?_append
  rw [← hok.ipv4] at hfour
  unfold Held.take
  simp only
  split_ifs with hnone
  · have hkept : h.ipv4 = none := Option.isNone_iff_eq_none.mp hnone
    have hperm := hok.perm.append_right [h.handed]
    rw [← List.range_succ, hkept] at hperm
    rw [hkept] at hfour
    refine ⟨List.Perm.trans ?_ hperm, hfour.symm, hok.ipv6.trans hsix.symm⟩
    simp only [Option.map_some, Option.map_none, Option.toList_some, Option.toList_none,
      List.nil_append, List.append_assoc]
    exact List.perm_append_comm.append_left _
  · have hkept : (h.ipv4.map Prod.snd).isSome := by
      rw [Option.isSome_map]
      exact Option.isNone_eq_false_iff.mp (Bool.eq_false_iff.mpr hnone)
    rw [Option.or_of_isSome hkept] at hfour
    exact hok.free (hfour.trans hok.ipv4) hsix

theorem Held.Ok.inet6 (hok : h.Ok seen) (a : In6) :
    (h.take (.inet6 a)).Ok (seen ++ [Ip.inet6 a]) := by
  have hfour : (seen ++ [Ip.inet6 a]).findSome? Ip.inet? = seen.findSome? Ip.inet? := by
    rw [List.findSome?_append]
    exact Option.or_none
  have hsix : (seen ++ [Ip.inet6 a]).findSome? Ip.inet6? =
      (seen.findSome? Ip.inet6?).or (some a) := List.findSome?_append
  rw [← hok.ipv6] at hsix
  unfold Held.take
  simp only
  split_ifs with hnone
  · have hkept : h.ipv6 = none := Option.isNone_iff_eq_none.mp hnone
    have hperm := hok.perm.append_right [h.handed]
    rw [← List.range_succ, hkept] at hperm
    rw [hkept] at hsix
    refine ⟨List.Perm.trans ?_ hperm, hok.ipv4.trans hfour.symm, hsix.symm⟩
    simp only [Option.map_some, Option.map_none, Option.toList_some, Option.toList_none,
      List.append_nil, List.append_assoc]
    exact List.Perm.refl _
  · have hkept : (h.ipv6.map Prod.snd).isSome := by
      rw [Option.isSome_map]
      exact Option.isNone_eq_false_iff.mp (Bool.eq_false_iff.mpr hnone)
    rw [Option.or_of_isSome hkept] at hsix
    exact hok.free hfour (hsix.trans hok.ipv6)

theorem Held.Ok.take (hok : h.Ok seen) (e : Sockaddr) :
    (h.take e).Ok (seen ++ ((Answer.entry e).ip?).toList) := by
  cases e with
  | inet a => exact hok.inet a
  | inet6 a => exact hok.inet6 a
  | other =>
    have hsame : seen ++ (Answer.entry Sockaddr.other).ip?.toList = seen := List.append_nil seen
    exact hok.free (by rw [hsame]) (by rw [hsame])

/-- Later addresses do not matter once there is one of each family. -/
theorem Held.Ok.append (hok : h.Ok seen) (hboth : h.both = true) (more : List Ip) :
    h.Ok (seen ++ more) := by
  obtain ⟨h4, h6⟩ := hok.both_iff.mp hboth
  refine ⟨hok.perm, ?_, ?_⟩
  · rw [List.findSome?_append, Option.or_of_isSome h4]
    exact hok.ipv4
  · rw [List.findSome?_append, Option.or_of_isSome h6]
    exact hok.ipv6

end Entries

/-- What the loop comes to, for as many rounds as it needs. -/
def outcomeOf (final : Final) : List Answer → Held → Option Stop
  | [], h => if final = .ENOENT then some (.found h) else none
  | .again fdw errno :: answers, h =>
    if fdw ≠ .fired then some (.timedOut errno h) else outcomeOf final answers h
  | .error :: answers, h => outcomeOf final answers h
  | .entry e :: answers, h =>
    if (h.take e).both then some (.found (h.take e)) else outcomeOf final answers (h.take e)

section Loop
variable {final : Final} {rounds : ℕ} {answers : List Answer} {h h' : Held} {seen : List Ip}

/-- Another error at the end is asked for over and over again. -/
theorem resolve_nil (hnot : ¬ h.both = true) :
    resolve final (rounds + 1) [] h = outcomeOf final [] h := by
  induction rounds with
  | zero =>
    simp only [resolve, outcomeOf, if_neg hnot]
  | succ rounds ih =>
    rw [resolve, if_neg hnot, ih, outcomeOf]
    split_ifs with hfinal
    · rfl
    · rfl

theorem resolve_eq (hrounds : answers.length < rounds) (hnot : ¬ h.both = true) :
    resolve final rounds answers h = outcomeOf final answers h := by
  induction answers generalizing rounds h with
  | nil =>
    obtain ⟨n, rfl⟩ := Nat.exists_eq_add_of_lt hrounds
    exact resolve_nil hnot
  | cons a answers ih =>
    obtain _ | rounds := rounds
    · exact absurd hrounds (Nat.not_lt_zero _)
    · have hlt : answers.length < rounds := Nat.lt_of_succ_lt_succ hrounds
      cases a with
      | again fdw errno => simp only [resolve, outcomeOf, ih hlt hnot]
      | error => simp only [resolve, outcomeOf, if_neg hnot, ih hlt hnot]
      | entry e =>
        simp only [resolve, outcomeOf]
        split_ifs with hboth
        · rfl
        · exact ih hlt hboth

theorem ips_cons (a : Answer) : ips (a :: answers) = a.ip?.toList ++ ips answers := by
  unfold ips
  cases hip : a.ip? with
  | none => rw [List.filterMap_cons_none hip]; rfl
  | some ip => rw [List.filterMap_cons_some hip]; rfl

theorem completesFrom_nil (hok : h.Ok seen) (hnot : ¬ h.both = true) :
    CompletesFrom final seen [] ↔ final = .ENOENT := by
  constructor
  · rintro ⟨pre, rest, heq, -, hboth | hend⟩
    · have hpre : pre = [] := (List.nil_eq_append_iff.mp heq).1
      rw [hpre, ips, List.filterMap_nil, List.append_nil] at hboth
      exact absurd (hok.both_iff.mpr hboth) hnot
    · exact hend.2
  · exact fun hend => ⟨[], [], rfl, fun a ha => absurd ha List.not_mem_nil, .inr ⟨rfl, hend⟩⟩

theorem completesFrom_cons (hok : h.Ok seen) (hnot : ¬ h.both = true) (a : Answer) :
    CompletesFrom final seen (a :: answers) ↔
      a.Fires ∧ CompletesFrom final (seen ++ a.ip?.toList) answers := by
  constructor
  · rintro ⟨_ | ⟨b, pre⟩, rest, heq, hfires, hend⟩
    · rcases hend with hboth | hend
      · rw [ips, List.filterMap_nil, List.append_nil] at hboth
        exact absurd (hok.both_iff.mpr hboth) hnot
      · rw [hend.1] at heq
        exact absurd heq (List.cons_ne_nil a answers)
    · obtain ⟨rfl, hrest⟩ := List.cons.inj heq
      rw [ips_cons, ← List.append_assoc] at hend
      exact ⟨hfires a List.mem_cons_self,
        pre, rest, hrest, fun b hb => hfires b (List.mem_cons_of_mem a hb), hend⟩
  · rintro ⟨hfire, pre, rest, heq, hfires, hend⟩
    rw [List.append_assoc, ← ips_cons] at hend
    exact ⟨a :: pre, rest, by rw [heq]; rfl, List.forall_mem_cons.mpr ⟨hfire, hfires⟩, hend⟩

theorem completesFrom_of_both (hok : h.Ok seen) (hboth : h.both = true) :
    CompletesFrom final seen answers := by
  refine ⟨[], answers, rfl, fun a ha => absurd ha List.not_mem_nil, .inl ?_⟩
  rw [ips, List.filterMap_nil, List.append_nil]
  exact hok.both_iff.mp hboth

theorem outcomeOf_found_iff (hok : h.Ok seen) (hnot : ¬ h.both = true) :
    (∃ h', outcomeOf final answers h = some (.found h')) ↔ CompletesFrom final seen answers := by
  induction answers generalizing h seen with
  | nil =>
    rw [completesFrom_nil hok hnot, outcomeOf]
    split_ifs with hfinal
    · exact iff_of_true ⟨h, rfl⟩ hfinal
    · exact iff_of_false (fun hf => by cases hf.choose_spec) hfinal
  | cons a answers ih =>
    rw [completesFrom_cons hok hnot]
    cases a with
    | again fdw errno =>
      have hsame : seen ++ (Answer.again fdw errno).ip?.toList = seen := List.append_nil seen
      rw [hsame, ← ih hok hnot, outcomeOf]
      split_ifs with hfdw
      · exact iff_of_false (fun hf => by cases hf.choose_spec) fun hf => hfdw hf.1
      · exact ⟨fun hf => ⟨not_not.mp hfdw, hf⟩, fun hf => hf.2⟩
    | error =>
      have hsame : seen ++ Answer.error.ip?.toList = seen := List.append_nil seen
      rw [hsame, ← ih hok hnot, outcomeOf]
      exact ⟨fun hf => ⟨trivial, hf⟩, fun hf => hf.2⟩
    | entry e =>
      rw [outcomeOf]
      split_ifs with hboth
      · exact iff_of_true ⟨_, rfl⟩ ⟨trivial, completesFrom_of_both (hok.take e) hboth⟩
      · rw [← ih (hok.take e) hboth]
        exact ⟨fun hf => ⟨trivial, hf⟩, fun hf => hf.2⟩

/-- What is kept at the end are the first addresses of all answers. -/
theorem outcomeOf_ok (hok : h.Ok seen) (hout : outcomeOf final answers h = some (.found h')) :
    h'.Ok (seen ++ ips answers) := by
  induction answers generalizing h seen with
  | nil =>
    rw [outcomeOf] at hout
    split_ifs at hout
    cases hout
    rw [ips, List.filterMap_nil, List.append_nil]
    exact hok
  | cons a answers ih =>
    rw [ips_cons, ← List.append_assoc]
    cases a with
    | again fdw errno =>
      rw [outcomeOf] at hout
      split_ifs at hout
      · cases hout
      · have hsame : seen ++ (Answer.again fdw errno).ip?.toList = seen := List.append_nil seen
        rw [hsame]
        exact ih hok hout
    | error =>
      have hsame : seen ++ Answer.error.ip?.toList = seen := List.append_nil seen
      rw [hsame]
      exact ih hok hout
    | entry e =>
      rw [outcomeOf] at hout
      split_ifs at hout with hboth
      · cases hout
        exact (hok.take e).append hboth (ips answers)
      · exact ih (hok.take e) hout

end Loop

/-- The entry that is copied into the result. -/
def taken {α β : Type*} : Option (ℕ × α) × Option (ℕ × β) → List ℕ
  | (some it, _) => [it.1]
  | (none, some it) => [it.1]
  | (none, none) => []

/-- Each entry that is kept is freed by the mode or with the result. -/
theorem dropped_taken {α β : Type*} (mode : Mode) (ipv4 : Option (ℕ × α)) (ipv6 : Option (ℕ × β)) :
    (dropped mode ipv4 ipv6 ++ taken (choose mode ipv4 ipv6)).Perm
      ((ipv4.map Prod.fst).toList ++ (ipv6.map Prod.fst).toList) := by
  cases ipv4 with
  | none => cases mode <;> cases ipv6 <;> exact .refl _
  | some a =>
    cases ipv6 with
    | none => cases mode <;> exact .refl _
    | some b =>
      cases mode with
      | IP_ANY => exact .swap a.1 b.1 []
      | IPV4 => exact .swap a.1 b.1 []
      | IPV6 => exact .refl _
      | IP_PV4 => exact .swap a.1 b.1 []
      | IP_PV6 => exact .refl _

theorem answer_fst (port : ℤ) (errno errno' : ℕ) (ip : Option Ip) :
    (answer port errno ip).1 = (answer port errno' ip).1 := by
  cases ip with
  | none => rfl
  | some ip => rfl

section Conclude
variable {h : Held} {seen : List Ip} {port : ℤ} {mode : Mode}

theorem conclude_freed : (conclude port mode h).freed =
    h.freed ++ dropped mode h.ipv4 h.ipv6 ++ taken (choose mode h.ipv4 h.ipv6) := by
  unfold conclude
  rcases choose mode h.ipv4 h.ipv6 with ⟨_ | a, _ | b⟩
  · exact (List.append_nil _).symm
  · rfl
  · rfl
  · rfl

theorem conclude_handed : (conclude port mode h).handed = h.handed := by
  unfold conclude
  rcases choose mode h.ipv4 h.ipv6 with ⟨_ | a, _ | b⟩ <;> rfl

theorem conclude_closed :
    (conclude port mode h).closed = (conclude port mode h).opened := by
  unfold conclude
  rcases choose mode h.ipv4 h.ipv6 with ⟨_ | a, _ | b⟩ <;> rfl

theorem conclude_answer : ((conclude port mode h).addr, (conclude port mode h).errno) =
    answer port EADDRNOTAVAIL
      (mode.prefers (h.ipv4.map Prod.snd) (h.ipv6.map Prod.snd)) := by
  unfold conclude
  cases mode <;> cases h.ipv4 <;> cases h.ipv6 <;> rfl

theorem tidy_conclude (hok : h.Ok seen) : Tidy port
    (mode.prefers (seen.findSome? Ip.inet?) (seen.findSome? Ip.inet6?))
    (conclude port mode h) := by
  have hanswer := @conclude_answer h port mode
  rw [hok.ipv4, hok.ipv6] at hanswer
  refine ⟨?_, conclude_closed, (congrArg Prod.fst hanswer).trans (answer_fst ..), ?_⟩
  · rw [conclude_freed, conclude_handed, List.append_assoc]
    exact ((dropped_taken mode h.ipv4 h.ipv6).append_left h.freed).trans hok.perm
  · intro hnone
    rw [hnone] at hanswer
    have herrno : (conclude port mode h).errno = EADDRNOTAVAIL := congrArg Prod.snd hanswer
    rw [herrno]
    decide

end Conclude

/-- What the call returns once there are enough rounds for all answers. -/
def outcome (port : ℤ) (mode : Mode) (addr : SocketAddress) : Stop → Returned
  | .timedOut errno h => ⟨addr, errno, h.handed, h.freed, true, false⟩
  | .found h => conclude port mode h

section Call
variable {pton : Pton} {name : Str} {port : ℤ} {mode : Mode} {oracle : Oracle}

theorem remote_resolves (hport : ¬ invalidPort port)
    (hliteral : (ipFromLiteral pton (cString name) port mode).2 ≠ 0) {rounds : ℕ}
    (hrounds : oracle.answers.length < rounds) :
    remote pton name port mode oracle rounds =
      (outcomeOf oracle.final oracle.answers .start).map fun stop =>
        some (outcome port mode (ipFromLiteral pton (cString name) port mode).1 stop) := by
  have hstart : ¬ Held.start.both = true := by decide
  unfold remote
  simp only [if_neg hliteral, if_neg hport, resolve_eq hrounds hstart]
  cases outcomeOf oracle.final oracle.answers .start with
  | none => rfl
  | some stop =>
    cases stop with
    | timedOut errno h => rfl
    | found h => rfl

/-- A name that is looked up is answered iff the loop gets to its regular end. -/
theorem finishes_lookup_iff (hport : ¬ invalidPort port)
    (hliteral : (ipFromLiteral pton (cString name) port mode).2 ≠ 0) :
    Finishes pton name port mode oracle ↔ oracle.Completes := by
  have hstart : ¬ Held.start.both = true := by decide
  unfold Oracle.Completes Finishes
  simp only [literal_none hliteral hport, Option.none_or]
  rw [← outcomeOf_found_iff Held.Ok.start hstart]
  constructor
  · rintro ⟨r, ⟨n, hrun⟩, htidy⟩
    have hend := hrun (n + (oracle.answers.length + 1)) (Nat.le_add_right ..)
    rw [remote_resolves hport hliteral (by omega)] at hend
    cases hout : outcomeOf oracle.final oracle.answers .start with
    | none =>
      rw [hout] at hend
      cases hend
    | some stop =>
      rw [hout] at hend
      cases stop with
      | timedOut errno h =>
        cases hend
        exact absurd htidy.closed Bool.false_ne_true
      | found h => exact ⟨h, rfl⟩
  · rintro ⟨h, hout⟩
    refine ⟨conclude port mode h, ⟨oracle.answers.length + 1, fun rounds hrounds => ?_⟩, ?_⟩
    · rw [remote_resolves hport hliteral hrounds, hout]
      rfl
    · exact tidy_conclude (outcomeOf_ok Held.Ok.start hout)

end Call

theorem finishes_iff (pton : Pton) (name : Str) (port : ℤ) (mode : Mode) (oracle : Oracle) :
    Finishes pton name port mode oracle ↔ ¬ invalidPort port ∧
      (mode.prefers (pton.inet (cString name)) (pton.inet6 (cString name)) ≠ none ∨
        oracle.Completes) := by
  by_cases hliteral : (ipFromLiteral pton (cString name) port mode).2 = 0
  · obtain ⟨hport, ip, hip⟩ := literal_of_errno hliteral
    refine iff_of_true ?_ ⟨hport, .inl (hip ▸ Option.some_ne_none ip)⟩
    have haddr := congrArg Prod.fst (ipFromLiteral_eq pton (cString name) mode hport)
    rw [hip] at haddr
    refine ⟨_, ⟨0, fun rounds _ => if_pos hliteral⟩, ?_⟩
    rw [hip]
    exact ⟨.refl _, rfl, haddr, fun hnone => absurd hnone (Option.some_ne_none ip)⟩
  · by_cases hport : invalidPort port
    · refine iff_of_false ?_ fun h => h.1 hport
      rintro ⟨r, ⟨n, hrun⟩, -⟩
      have hend := hrun n (Nat.le_refl n)
      unfold remote at hend
      simp only [if_neg hliteral, if_pos hport] at hend
      cases hend
    · rw [finishes_lookup_iff hport hliteral, literal_none hliteral hport]
      exact ⟨fun h => ⟨hport, .inr h⟩, fun h => h.2.resolve_left fun hne => hne rfl⟩

/-- A name that does not exist is looked up forever. -/
theorem not_finishes_nxdomain : ¬ ∀ (pton : Pton) (name : Str) (port : ℤ) (mode : Mode)
    (oracle : Oracle), Finishes pton name port mode oracle := by
  intro h
  obtain ⟨r, ⟨n, hrun⟩, -⟩ := h ⟨fun _ => none, fun _ => none⟩ ("none.".toList.map Char.toUInt8) 80
    .IPV4 ⟨[], .other⟩
  have hend := hrun (n + 1) (Nat.le_succ n)
  rw [remote_resolves (by decide) (by decide) (Nat.zero_lt_succ n)] at hend
  cases hend

end Suil.Async.Address
