import Suil.Dns.Pushed
import Suil.Lib.Transition

/-! A packet that is being filled: names go in by `dns_d_push`, other bytes one at a time, and the
header and the bytes that are no part of a name may be written again. -/
namespace Suil.Dns
open CText (tolower)
open Transition

/-- The packet, where each name was pushed, and the positions of the other bytes. -/
structure Packing where
  P : DnsPacket
  names : List (ℕ × List (List UInt8))
  raw : List ℕ

namespace Packing

inductive Act
  | push (src : List UInt8) (ls : List (List UInt8))
  | byte (b : UInt8)
  | poke (q : ℕ) (b : UInt8)

/-- A name of a packet has fewer labels than that. -/
def turns : ℕ := 65536

def next (s : Packing) : Act → Option Packing
  | .push src ls => (dnsDPush turns s.P src).map fun r =>
      { s with P := r.2, names := if r.1 = none then (s.P.end_, ls) :: s.names else s.names }
  | .byte b =>
    if h : s.P.end_ < s.P.size then
      some { s with
        P := { s.P with end_ := s.P.end_ + 1, data := Function.update s.P.data s.P.end_ b,
                        end_le := h },
        raw := s.P.end_ :: s.raw }
    else none
  | .poke q b =>
    if q < 12 ∨ q ∈ s.raw then
      some { s with P := { s.P with data := Function.update s.P.data q b } }
    else none

def blank (P : DnsPacket) : Packing := { P, names := [], raw := [] }

def system : System Packing Act where
  init s := ∃ size data hmin hmax, s = blank (dnsPInit size data hmin hmax)
  next := next

/-- The bytes of the names. -/
def own (s : Packing) (q : ℕ) : Prop := 12 ≤ q ∧ q < s.P.end_ ∧ q ∉ s.raw

/-- Every name that is pushed has labels that can be written with dots. -/
def Proper (_ : Packing) : Act → Prop
  | .push src ls => Writes src ls ∧ ∀ l ∈ ls, IsLabel l
  | _ => True

/-- And none of them has a label twice. -/
def Distinct (s : Packing) (a : Act) : Prop :=
  Proper s a ∧ ∀ src ls, a = .push src ls → (lower ls).Nodup

/-- Names that the loops can handle. -/
def Short (bs : List (List UInt8)) : Prop := (∀ l ∈ bs, 0 ∉ l) ∧ bs.length + 1 ≤ turns

/-- The dictionary knows names of the kind `known`, and each pushed name is there as `R` says. -/
structure Inv (known : List (List UInt8) → Prop) (R : List (List UInt8) → List (List UInt8) → Prop)
    (s : Packing) : Prop where
  header : 12 ≤ s.P.end_
  raw : ∀ q ∈ s.raw, q < s.P.end_
  knows : Knows s.P.data s.own known 0 s.P.dict
  names : ∀ p ls, (p, ls) ∈ s.names →
    ∃ ls', R ls ls' ∧ Spells s.P.data s.own 33 32 p ls'

variable {known : List (List UInt8) → Prop} {R : List (List UInt8) → List (List UInt8) → Prop}
  {s t : Packing} {src : List UInt8} {ls : List (List UInt8)}

/-- What does not touch the bytes of the names, nor the dictionary, changes nothing. -/
theorem Inv.frame (h : Inv known R s) (hheader : 12 ≤ t.P.end_) (hraw : ∀ q ∈ t.raw, q < t.P.end_)
    (hown : ∀ q, s.own q → t.own q ∧ t.P.data q = s.P.data q) (hdict : t.P.dict = s.P.dict)
    (hnames : t.names = s.names) : Inv known R t where
  header := hheader
  raw := hraw
  knows := hdict ▸ h.knows.frame hown
  names p ls hp := (h.names p ls (hnames ▸ hp)).imp fun _ hls => ⟨hls.1, hls.2.frame hown⟩

theorem Inv.byte {b : UInt8} (h : Inv known R s) (ht : next s (.byte b) = some t) :
    Inv known R t := by
  obtain ⟨hlt, ht⟩ := Option.dite_none_right_eq_some.mp ht
  obtain rfl := Option.some.inj ht
  have hheader := h.header
  refine h.frame (Nat.le_succ_of_le h.header) ?_ (fun q hq => ?_) rfl rfl
  · exact List.forall_mem_cons.mpr ⟨Nat.lt_succ_self _, fun q hq => Nat.lt_succ_of_lt (h.raw q hq)⟩
  · have hne : q ≠ s.P.end_ := Nat.ne_of_lt hq.2.1
    exact ⟨⟨hq.1, Nat.lt_succ_of_lt hq.2.1, List.not_mem_cons_of_ne_of_not_mem hne hq.2.2⟩,
      Function.update_of_ne hne _ _⟩

theorem Inv.poke {q : ℕ} {b : UInt8} (h : Inv known R s) (ht : next s (.poke q b) = some t) :
    Inv known R t := by
  obtain ⟨hq, ht⟩ := Option.ite_none_right_eq_some.mp ht
  obtain rfl := Option.some.inj ht
  refine h.frame h.header h.raw (fun q' hq' => ⟨hq', Function.update_of_ne ?_ _ _⟩) rfl rfl
  intro heq
  cases hq with
  | inl hlt => exact absurd hq'.1 (by omega)
  | inr hmem => exact hq'.2.2 (heq ▸ hmem)

/-- A push comes to an end, and the name is there as `dns_d_push` has it. -/
theorem Inv.push (h : Inv known R s) (hw : Writes src ls) (hls : ∀ l ∈ ls, IsLabel l)
    (hknown : ∀ bs, known bs → Short bs)
    (hnear : ∀ ls', ls.length < turns → Near known ls ls' → R ls ls' ∧ known ls') :
    ∃ t, next s (.push src ls) = some t ∧ Inv known R t := by
  have hheader := h.header
  obtain ⟨e, P', hpush, _, hdata, hcases⟩ := dnsDPush_spec hw hls h.knows
    (fun q hq => hq.2.1) hknown (Nat.le_trans s.P.size_le (Nat.le_succ 65535))
  refine ⟨_, by rw [next, hpush, Option.map_some], ?_⟩
  cases hcases with
  | inl hfull =>
    obtain ⟨he, hend, hdict⟩ := hfull
    refine h.frame (hend ▸ h.header) (fun q hq => hend ▸ h.raw q hq) (fun q hq => ?_) hdict
      (by simp [he])
    exact ⟨⟨hq.1, hend ▸ hq.2.1, hq.2.2⟩, hdata q hq.2.1⟩
  | inr hfits =>
    obtain ⟨he, hend, hcount, ls', hls', hspells, hknows⟩ := hfits
    have hturns : ls.length < turns :=
      Nat.lt_of_lt_of_le hcount (Nat.le_trans s.P.size_le (Nat.le_succ 65535))
    obtain ⟨hR, hnew⟩ := hnear ls' hturns hls'
    -- a name at the end of the packet has no other bytes in it
    have hown : ∀ q, (s.own q ∨ s.P.end_ ≤ q ∧ q < P'.end_) →
        12 ≤ q ∧ q < P'.end_ ∧ q ∉ s.raw := fun q hq => by
      cases hq with
      | inl hold => exact ⟨hold.1, Nat.lt_trans hold.2.1 hend, hold.2.2⟩
      | inr hq => exact ⟨by omega, hq.2, fun hmem => absurd (h.raw q hmem) (by omega)⟩
    have hframe : ∀ q, s.own q → (12 ≤ q ∧ q < P'.end_ ∧ q ∉ s.raw) ∧ P'.data q = s.P.data q :=
      fun q hq => ⟨hown q (.inl hq), hdata q hq.2.1⟩
    refine ⟨Nat.le_trans hheader (Nat.le_of_lt hend), fun q hq => Nat.lt_trans (h.raw q hq) hend,
      fun i e' he' hne => ?_, fun p ls₀ hp => ?_⟩
    · obtain ⟨bs, hbs, hs⟩ := hknows i e' he' hne
      refine ⟨bs, ?_, hs.frame fun q hq => ⟨hown q hq, rfl⟩⟩
      cases hbs with
      | inl hbs => exact hbs
      | inr hbs => exact hbs ▸ hnew
    · simp only [he, reduceIte, List.mem_cons] at hp
      cases hp with
      | inl heq =>
        obtain ⟨rfl, rfl⟩ := Prod.mk.inj heq
        exact ⟨ls', hR, hspells.frame fun q hq => ⟨hown q hq, rfl⟩⟩
      | inr hold => exact (h.names p ls₀ hold).imp fun _ hls => ⟨hls.1, hls.2.frame hframe⟩

theorem Inv.init (hs : system.init s) : Inv known R s := by
  obtain ⟨size, data, hmin, hmax, rfl⟩ := hs
  refine ⟨Nat.le_refl 12, fun q hq => absurd hq List.not_mem_nil, fun i e he hne => ?_,
    fun p ls hp => absurd hp List.not_mem_nil⟩
  exact absurd (List.eq_of_mem_replicate (List.mem_of_getElem? he)) hne

/-- The invariant, for any account of what becomes of a name. -/
theorem inductive_inv {ok : Packing → Act → Prop} (hok : ∀ s a, ok s a → Proper s a)
    (hknown : ∀ bs, known bs → Short bs)
    (hnear : ∀ s src ls ls', ok s (.push src ls) → ls.length < turns → Near known ls ls' →
      R ls ls' ∧ known ls') : system.Inductive ok (Inv known R) where
  init _ := Inv.init
  step s a t hs ha ht := by
    cases a with
    | push src ls =>
      obtain ⟨hw, hls⟩ := hok s _ ha
      obtain ⟨t', ht', hinv⟩ := hs.push hw hls hknown fun ls' => hnear s src ls ls' ha
      exact Option.some.inj (ht'.symm.trans ht) ▸ hinv
    | byte b => exact hs.byte ht
    | poke q b => exact hs.poke ht

theorem length_lower (ls : List (List UInt8)) : (lower ls).length = ls.length := List.length_map _

theorem lower_append (pre rest : List (List UInt8)) : lower (pre ++ rest) = lower pre ++ lower rest :=
  List.map_append

theorem textFrom_lower {ls' : List (List UInt8)} (h : lower ls' = lower ls) :
    (textFrom 0 ls').map tolower = (textFrom 0 ls).map tolower := by
  have hdotted : ∀ ls, (dotted ls).map tolower = dotted (lower ls) := fun ls => by
    induction ls with
    | nil => rfl
    | cons l ls ih =>
      rw [dotted_cons, lower_cons, dotted_cons, List.map_append, List.map_cons, ih]
      rfl
  have hnil : ls' = [] ↔ ls = [] := by
    rw [← List.length_eq_zero_iff, ← List.length_eq_zero_iff, ← length_lower ls', h, length_lower]
  by_cases hempty : ls = []
  · rw [textFrom, if_pos ⟨rfl, hnil.mpr hempty⟩, textFrom, if_pos ⟨rfl, hempty⟩]
  · rw [textFrom, if_neg fun h => hempty (hnil.mp h.2), textFrom, if_neg fun h => hempty h.2,
      hdotted, hdotted, h]

theorem short_of_labels (hls : ∀ l ∈ ls, IsLabel l) (hcount : ls.length < turns) : Short ls :=
  ⟨fun l hl => (hls l hl).no_nul, hcount⟩

/-- What a name is stored as is short again. -/
theorem short_of_near {ls' : List (List UInt8)} (hknown : ∀ bs, known bs → Short bs)
    (hls : ∀ l ∈ ls, IsLabel l) (hcount : ls.length < turns) (h : Near known ls ls') :
    Short ls' := by
  cases h with
  | inl heq => exact heq ▸ short_of_labels hls hcount
  | inr hnear =>
    obtain ⟨pre, l, rest, a, bs, bs', rfl, rfl, _, hlower, hbs, hsuffix⟩ := hnear
    refine ⟨fun l' hl' => ?_, ?_⟩
    · cases List.mem_append.mp hl' with
      | inl hpre => exact (hls l' (List.mem_append_left _ hpre)).no_nul
      | inr hbs' => exact (hknown bs hbs).1 l' (hsuffix.subset hbs')
    · have hlength : bs'.length = rest.length + 1 := by
        rw [← length_lower, hlower, length_lower, List.length_cons]
      rw [List.length_append, List.length_cons] at hcount
      rw [List.length_append, hlength]
      exact hcount

/-- Names without a label twice. -/
def Single (bs : List (List UInt8)) : Prop := Short bs ∧ (lower bs).Nodup

/-- A label of the name's own that stands further on cannot be the first of a suffix that has it
once. -/
theorem near_single {ls' : List (List UInt8)} (hdistinct : (lower ls).Nodup)
    (h : Near Single ls ls') : lower ls' = lower ls := by
  cases h with
  | inl heq => rw [heq]
  | inr hnear =>
    obtain ⟨pre, l, rest, a, bs, bs', rfl, rfl, ha, hlower, hbs, hsuffix⟩ := hnear
    have hnodup : (lower (a :: rest)).Nodup :=
      hlower ▸ hbs.2.sublist (hsuffix.sublist.map (List.map tolower))
    cases List.mem_cons.mp ha with
    | inl heq => rw [lower_append, lower_append, hlower, heq]
    | inr hmem =>
      rw [lower_cons, List.nodup_cons] at hnodup
      exact absurd (List.mem_map_of_mem hmem) hnodup.1

/-- In every packet that is filled with names that have no label twice, each name that was pushed
comes back up to letter case; and the next push comes to an end, too. -/
theorem pushed_name_comes_back (hs : system.ReachableBy Distinct s) :
    (∀ src ls, Distinct s (.push src ls) → ∃ t, system.next s (.push src ls) = some t) ∧
    ∀ p ls, (p, ls) ∈ s.names → ∀ fuel lim dst, 34 * (ls.length + 1) ≤ fuel →
      (textFrom 0 ls).length < lim →
      ∃ dst', dnsDExpand fuel dst lim p s.P = some (.ok (textFrom 0 ls).length, dst') ∧
        (bytesAt dst' 0 (textFrom 0 ls).length).map tolower = (textFrom 0 ls).map tolower ∧
        dst' (textFrom 0 ls).length = 0 := by
  have hnear : ∀ (s : Packing) src ls ls', Distinct s (.push src ls) → ls.length < turns →
      Near Single ls ls' → lower ls' = lower ls ∧ Single ls' := fun s src ls ls' hd hcount h => by
    have hlower := near_single (hd.2 src ls rfl) h
    exact ⟨hlower, short_of_near (fun _ => And.left) hd.1.2 hcount h, hlower ▸ hd.2 src ls rfl⟩
  have hinv : Inv Single (fun ls ls' => lower ls' = lower ls) s :=
    (inductive_inv (fun _ _ hd => hd.1) (fun _ hbs => hbs.1) hnear).holds hs
  refine ⟨fun src ls hd => ?_, fun p ls hp fuel lim dst hfuel hlim => ?_⟩
  · obtain ⟨t, ht, _⟩ := hinv.push hd.1.1 hd.1.2 (fun _ => And.left)
      fun ls' => hnear s src ls ls' hd
    exact ⟨t, ht⟩
  · obtain ⟨ls', hlower, hspells⟩ := hinv.names p ls hp
    have htext := textFrom_lower hlower
    have hlength : (textFrom 0 ls').length = (textFrom 0 ls).length := by
      rw [← List.length_map tolower, htext, List.length_map]
    have hcount : ls'.length = ls.length := by rw [← length_lower, hlower, length_lower]
    obtain ⟨dst', hrun, hbytes, hnul⟩ := hspells.dnsDExpand_text (fun q hq => hq.2.1) (by decide)
      (by decide) (by omega : 32 + 1 + (33 + 1) * ls'.length ≤ fuel) (hlength ▸ hlim) dst
    rw [hlength] at hrun hbytes hnul
    exact ⟨dst', hrun, by rw [hbytes, htext], hnul⟩

/-- A packet for the runs below. -/
def small : DnsPacket := dnsPInit 512 (fun _ => 0) (by decide) (by decide)

/-- `a.b.` with its labels. -/
def firstName : List UInt8 × List (List UInt8) := ([97, 46, 98, 46], [[97], [98]])

/-- `c.b.`, whose `b` is a pointer to that of the first. -/
def secondName : List UInt8 × List (List UInt8) := ([99, 46, 98, 46], [[99], [98]])

def twoNames : List Act := [.push firstName.1 firstName.2, .push secondName.1 secondName.2]

theorem twoNames_distinct (a : Act) (ha : a ∈ twoNames) (s : Packing) : Distinct s a := by
  have hlabels : ∀ ls ∈ [firstName.2, secondName.2], ∀ l ∈ ls,
      1 ≤ l.length ∧ l.length ≤ 63 ∧ '.'.toUInt8 ∉ l ∧ 0 ∉ l := by decide
  have hdistinct : ∀ src ls, Writes src ls → ls ∈ [firstName.2, secondName.2] →
      (lower ls).Nodup → Distinct s (.push src ls) := fun src ls hw hls hnodup => by
    refine ⟨⟨hw, fun l hl => ?_⟩, fun src' ls' h => (Act.push.inj h).2 ▸ hnodup⟩
    obtain ⟨hpos, hle, hdot, hnul⟩ := hlabels ls hls l hl
    exact ⟨hpos, hle, hdot, hnul⟩
  simp only [twoNames, List.mem_cons, List.not_mem_nil, or_false] at ha
  cases ha with
  | inl ha =>
    exact ha ▸ hdistinct _ _ (.anchored [97] [[98]]) (List.mem_cons_self ..) (by decide)
  | inr ha =>
    exact ha ▸ hdistinct _ _ (.anchored [99] [[98]]) (by decide) (by decide)

/-- The run with the two names, and the bytes of the second. -/
theorem twoNames_run : ∃ t, system.run (blank small) twoNames = some t ∧
    t.names = [(17, secondName.2), (12, firstName.2)] ∧
    bytesAt t.P.data 17 4 = [1, 99, 192, 14] := by
  have hrun : (system.run (blank small) twoNames).map
      (fun t => (t.names, bytesAt t.P.data 17 4)) =
      some ([(17, secondName.2), (12, firstName.2)], [1, 99, 192, 14]) := by decide +kernel
  obtain ⟨t, ht, heq⟩ := Option.map_eq_some_iff.mp hrun
  obtain ⟨hnames, hbytes⟩ := Prod.mk.inj heq
  exact ⟨t, ht, hnames, hbytes⟩

theorem blank_small_reachable (ok : Packing → Act → Prop) :
    system.ReachableBy ok (blank small) :=
  .init ⟨512, fun _ => 0, by decide, by decide, rfl⟩

theorem pushed_name_comes_back_twoNames : ∃ t,
    system.run (blank small) twoNames = some t ∧
    t.names = [(17, secondName.2), (12, firstName.2)] ∧
    bytesAt t.P.data 17 4 = [1, 99, 192, 14] ∧
    ∀ p ls, (p, ls) ∈ t.names → ∀ fuel lim dst, 34 * (ls.length + 1) ≤ fuel →
      (textFrom 0 ls).length < lim →
      ∃ dst', dnsDExpand fuel dst lim p t.P = some (.ok (textFrom 0 ls).length, dst') ∧
        (bytesAt dst' 0 (textFrom 0 ls).length).map tolower = (textFrom 0 ls).map tolower ∧
        dst' (textFrom 0 ls).length = 0 := by
  obtain ⟨t, ht, hnames, hbytes⟩ := twoNames_run
  have hs : system.ReachableBy Distinct t :=
    Transition.System.run_reachableBy twoNames_distinct (blank_small_reachable _) ht
  exact ⟨t, ht, hnames, hbytes, (pushed_name_comes_back hs).2⟩

/-- The name, or the name with one label replaced by one that stands further on in it. -/
def Slip (ls ls' : List (List UInt8)) : Prop :=
  lower ls' = lower ls ∨ ∃ pre l rest a, ls = pre ++ l :: rest ∧ a ∈ rest ∧
    lower ls' = lower (pre ++ a :: rest)

theorem slip_of_near {ls' : List (List UInt8)} (h : Near known ls ls') : Slip ls ls' := by
  cases h with
  | inl heq => exact .inl (by rw [heq])
  | inr hnear =>
    obtain ⟨pre, l, rest, a, bs, bs', rfl, rfl, ha, hlower, _, _⟩ := hnear
    have hsame : lower (pre ++ bs') = lower (pre ++ a :: rest) := by
      rw [lower_append, lower_append, hlower]
    cases List.mem_cons.mp ha with
    | inl heq => exact .inl (heq ▸ hsame)
    | inr hmem => exact .inr ⟨pre, l, rest, a, rfl, hmem, hsame⟩

/-- In every packet that is filled with names, each of them comes back up to letter case and, at
most, one label that was taken for another one of the same name. -/
theorem pushed_name_slips_at_most (hs : system.ReachableBy Proper s) :
    (∀ src ls, Proper s (.push src ls) → ∃ t, system.next s (.push src ls) = some t) ∧
    ∀ p ls, (p, ls) ∈ s.names → ∃ ls', Slip ls ls' ∧
      ∀ fuel lim dst, 34 * (ls'.length + 1) ≤ fuel → (textFrom 0 ls').length < lim →
        ∃ dst', dnsDExpand fuel dst lim p s.P = some (.ok (textFrom 0 ls').length, dst') ∧
          bytesAt dst' 0 (textFrom 0 ls').length = textFrom 0 ls' ∧
          dst' (textFrom 0 ls').length = 0 := by
  have hnear : ∀ (s : Packing) src ls ls', Proper s (.push src ls) → ls.length < turns →
      Near Short ls ls' → Slip ls ls' ∧ Short ls' := fun _ _ _ _ hp hcount h =>
    ⟨slip_of_near h, short_of_near (fun _ => id) hp.2 hcount h⟩
  have hinv : Inv Short Slip s :=
    (inductive_inv (fun _ _ => id) (fun _ => id) hnear).holds hs
  refine ⟨fun src ls hp => ?_, fun p ls hp => ?_⟩
  · obtain ⟨t, ht, _⟩ := hinv.push hp.1 hp.2 (fun _ => id) fun ls' => hnear s src ls ls' hp
    exact ⟨t, ht⟩
  · obtain ⟨ls', hslip, hspells⟩ := hinv.names p ls hp
    exact ⟨ls', hslip, fun fuel lim dst hfuel hlim => hspells.dnsDExpand_text (fun q hq => hq.2.1)
      (by decide) (by decide) (by omega : 32 + 1 + (33 + 1) * ls'.length ≤ fuel) hlim dst⟩

theorem pushed_name_slips_at_most_twoNames : ∃ t,
    system.run (blank small) twoNames = some t ∧
    t.names = [(17, secondName.2), (12, firstName.2)] ∧
    ∀ p ls, (p, ls) ∈ t.names → ∃ ls', Slip ls ls' ∧
      ∀ fuel lim dst, 34 * (ls'.length + 1) ≤ fuel → (textFrom 0 ls').length < lim →
        ∃ dst', dnsDExpand fuel dst lim p t.P = some (.ok (textFrom 0 ls').length, dst') ∧
          bytesAt dst' 0 (textFrom 0 ls').length = textFrom 0 ls' ∧
          dst' (textFrom 0 ls').length = 0 := by
  obtain ⟨t, ht, hnames, _⟩ := twoNames_run
  have hs : system.ReachableBy Proper t :=
    Transition.System.run_reachableBy (fun a ha s => (twoNames_distinct a ha s).1)
      (blank_small_reachable _) ht
  exact ⟨t, ht, hnames, (pushed_name_slips_at_most hs).2⟩

/-- A name does slip: behind `x.c.b.b.`, the name `x.b.` becomes `b.b.`, since `a.label` is still
the second label when the walk goes on after `x` alone. -/
example : ((system.run (blank small)
    [.push [120, 46, 99, 46, 98, 46, 98, 46] [[120], [99], [98], [98]],
      .push [120, 46, 98, 46] [[120], [98]]]).bind fun s =>
        (dnsDExpand 200 (fun _ => 0) 100 21 s.P).map fun r => bytesAt r.2 0 4) =
    some [98, 46, 98, 46] := by decide +kernel

end Packing
end Suil.Dns
