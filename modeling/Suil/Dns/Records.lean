import Suil.Dns.Packet
import Mathlib.Data.List.TakeWhile

/-! The records of a packet: `dns_rr_parse`, `dns_rr_skip` and `dns_rr_section`, which counts the
records from the first one where `dns_p_study` has not noted where the sections end. -/
namespace Suil.Dns

/-- A number of two bytes. -/
def be16 (data : Bytes) (p : ℕ) : ℕ :=
  (0xff &&& data p).toNat <<< 8 ||| (0xff &&& data (p + 1)).toNat

/-- The sections are bits of a mask: questions 1, answers 2, authority 4 and additional 8. The
counts stand in the header, from byte 4 on. -/
def dnsPCount (P : DnsPacket) (section_ : ℕ) : ℕ :=
  (if section_ &&& 1 ≠ 0 then be16 P.data 4 else 0) +
  (if section_ &&& 2 ≠ 0 then be16 P.data 6 else 0) +
  (if section_ &&& 4 ≠ 0 then be16 P.data 8 else 0) +
  if section_ &&& 8 ≠ 0 then be16 P.data 10 else 0

/-- The loop of `dns_p_qend` over the questions that are left. -/
def qendFrom (P : DnsPacket) : ℕ → ℕ → ℕ
  | 0, qend => min qend P.end_
  | count + 1, qend =>
    if qend < P.end_ then
      let qend := dnsDSkip P qend
      if P.end_ = qend then P.end_
      else if P.end_ - qend < 4 then P.end_
      else qendFrom P count (qend + 4)
    else min qend P.end_

def dnsPQend (P : DnsPacket) : ℕ := qendFrom P (dnsPCount P 1) 12

structure Span where
  p : ℕ
  len : ℕ
  deriving DecidableEq

structure DnsRr where
  section_ : ℕ
  dn : Span
  type : ℕ
  klass : ℕ
  ttl : ℕ
  rd : Span
  deriving DecidableEq

/-- No record where the source returns `DNS_EILLEGAL`. The section is a question's, or is left as
it was. -/
def dnsRrParse (rr : DnsRr) (src : ℕ) (P : DnsPacket) : Option DnsRr :=
  if src ≥ P.end_ then none
  else
    let p := dnsDSkip P src
    let rr := { rr with dn := { p := src, len := p - src } }
    if P.end_ - p < 4 then none
    else
      let rr := { rr with type := be16 P.data p, klass := be16 P.data (p + 2) }
      let p := p + 4
      if src < dnsPQend P then some { rr with section_ := 1, ttl := 0, rd := { p := 0, len := 0 } }
      else if P.end_ - p < 4 then none
      else
        let ttl := (0x7f &&& P.data p).toNat <<< 24 ||| (0xff &&& P.data (p + 1)).toNat <<< 16 |||
          be16 P.data (p + 2)
        let p := p + 4
        if P.end_ - p < 2 then none
        else
          let rd := { p := p + 2, len := be16 P.data p }
          let p := p + 2
          if P.end_ - p < rd.len then none else some { rr with ttl, rd }

def dnsRrLen (src : ℕ) (P : DnsPacket) : ℕ :=
  let rp := dnsDSkip P src
  if P.end_ - rp < 4 then P.end_ - src
  else
    let rp := rp + 4
    if rp ≤ dnsPQend P then rp - src
    else if P.end_ - rp < 6 then P.end_ - src
    else
      let rp := rp + 6
      let rdlen := be16 P.data (rp - 2)
      if P.end_ - rp < rdlen then P.end_ - src else rp + rdlen - src

def dnsRrSkip (src : ℕ) (P : DnsPacket) : ℕ := src + dnsRrLen src P

variable {P : DnsPacket} {src : ℕ}

theorem lt_dnsDSkip (h : src < P.end_) : src < dnsDSkip P src := by
  induction src using dnsDSkip.induct P with
  | case1 src _ hlead =>
    rw [dnsDSkip, if_pos h, hlead]
    exact Nat.lt_succ_self src
  | case2 src _ len hlead hne hfit ih =>
    rw [dnsDSkip, if_pos h, hlead]
    simp only [if_neg hne, if_pos hfit]
    have := ih (by omega)
    omega
  | case3 src _ len hlead hne hfit =>
    rw [dnsDSkip, if_pos h, hlead]
    simp only [if_neg hne, if_neg hfit, h]
  | case4 src _ hlead =>
    rw [dnsDSkip, if_pos h, hlead]
    exact h
  | case5 src _ hlead hshort =>
    rw [dnsDSkip, if_pos h, hlead]
    simp only [if_pos hshort, h]
  | case6 src _ hlead hshort =>
    rw [dnsDSkip, if_pos h, hlead]
    simp only [if_neg hshort]
    omega
  | case7 src hlt => exact absurd h hlt

/-- A walk over the records goes on, and not past the end. -/
theorem lt_dnsRrSkip (h : src < P.end_) : src < dnsRrSkip src P ∧ dnsRrSkip src P ≤ P.end_ := by
  have hskip := lt_dnsDSkip h
  rw [dnsRrSkip, dnsRrLen]
  simp only []
  split
  · omega
  · split
    · omega
    · split
      · omega
      · split
        · omega
        · omega

/-- The records that a walk from `rp` on stops at. -/
def positionsFrom (P : DnsPacket) (rp : ℕ) : List ℕ :=
  if rp < P.end_ then rp :: positionsFrom P (dnsRrSkip rp P) else []
termination_by P.end_ - rp
decreasing_by
  have hnext := (lt_dnsRrSkip ‹rp < P.end_›).1
  omega

/-- The last loop of `dns_rr_section`, over the sections behind this one. -/
def sectionFrom (P : DnsPacket) (index : ℕ) : List ℕ → ℕ → ℕ → ℕ
  | [], section_, _ => section_
  | next :: rest, section_, count =>
    if index ≥ count then sectionFrom P index rest next (count + dnsPCount P next) else section_

def dnsRrSection (src : ℕ) (P : DnsPacket) : ℕ :=
  if src ≥ P.qd.base ∧ src < P.qd.end_ then 1
  else if src ≥ P.an.base ∧ src < P.an.end_ then 2
  else if src ≥ P.ns.base ∧ src < P.ns.end_ then 4
  else if src ≥ P.ar.base ∧ src < P.ar.end_ then 8
  else
    let index := ((positionsFrom P 12).takeWhile (· < src)).length
    15 &&& sectionFrom P index [2, 4, 8, 16] 1 (dnsPCount P 1)

/-- `dns_s_study`: the section from `base` on, with so many records. -/
def studyFrom (P : DnsPacket) : ℕ → ℕ → ℕ
  | 0, rp => rp
  | count + 1, rp => if rp < P.end_ then studyFrom P count (dnsRrSkip rp P) else rp

def dnsSStudy (section_ base : ℕ) (P : DnsPacket) : DnsSMemo :=
  { base, end_ := studyFrom P (dnsPCount P section_) base }

/-- Each section is studied with what is known of those before it. -/
def dnsPStudy (P : DnsPacket) : DnsPacket :=
  let P := { P with qd := dnsSStudy 1 12 P }
  let P := { P with an := dnsSStudy 2 P.qd.end_ P }
  let P := { P with ns := dnsSStudy 4 P.an.end_ P }
  { P with ar := dnsSStudy 8 P.ns.end_ P }

def dnsPUnstudy (P : DnsPacket) : DnsPacket :=
  { P with qd := ⟨0, 0⟩, an := ⟨0, 0⟩, ns := ⟨0, 0⟩, ar := ⟨0, 0⟩ }

section Memos
variable {P Q : DnsPacket} {n m rp q : ℕ}

/-- Packets that differ in their memos and their dictionaries only. -/
structure SameBytes (P Q : DnsPacket) : Prop where
  data : P.data = Q.data
  end_ : P.end_ = Q.end_

theorem SameBytes.dnsDSkip (h : SameBytes P Q) (src : ℕ) : dnsDSkip P src = dnsDSkip Q src := by
  induction src using Dns.dnsDSkip.induct P with
  | case1 src hsrc hlead =>
    rw [Dns.dnsDSkip, Dns.dnsDSkip.eq_def Q, ← h.data, ← h.end_, hlead]
    rfl
  | case2 src hsrc len hlead hne hfit ih =>
    rw [Dns.dnsDSkip, Dns.dnsDSkip.eq_def Q, ← h.data, ← h.end_, hlead]
    simp only [if_neg hne, if_pos hfit, ih]
  | case3 src hsrc len hlead hne hfit =>
    rw [Dns.dnsDSkip, Dns.dnsDSkip.eq_def Q, ← h.data, ← h.end_, hlead]
    simp only [if_neg hne, if_neg hfit]
  | case4 src hsrc hlead =>
    rw [Dns.dnsDSkip, Dns.dnsDSkip.eq_def Q, ← h.data, ← h.end_, hlead]
  | case5 src hsrc hlead hshort =>
    rw [Dns.dnsDSkip, Dns.dnsDSkip.eq_def Q, ← h.data, ← h.end_, hlead]
  | case6 src hsrc hlead hshort =>
    rw [Dns.dnsDSkip, Dns.dnsDSkip.eq_def Q, ← h.data, ← h.end_, hlead]
  | case7 src hsrc =>
    rw [Dns.dnsDSkip, Dns.dnsDSkip.eq_def Q, ← h.end_, if_neg hsrc, if_neg hsrc]

theorem SameBytes.dnsPCount (h : SameBytes P Q) (section_ : ℕ) :
    dnsPCount P section_ = dnsPCount Q section_ := by
  unfold Dns.dnsPCount
  rw [h.data]

theorem SameBytes.qendFrom (h : SameBytes P Q) (count qend : ℕ) :
    qendFrom P count qend = qendFrom Q count qend := by
  induction count generalizing qend with
  | zero => rw [Dns.qendFrom, Dns.qendFrom, h.end_]
  | succ count ih =>
    rw [Dns.qendFrom, Dns.qendFrom, h.end_, h.dnsDSkip]
    simp only [ih]

theorem SameBytes.dnsPQend (h : SameBytes P Q) : dnsPQend P = dnsPQend Q := by
  rw [Dns.dnsPQend, Dns.dnsPQend, h.dnsPCount, h.qendFrom]

theorem SameBytes.dnsRrSkip (h : SameBytes P Q) (src : ℕ) : dnsRrSkip src P = dnsRrSkip src Q := by
  unfold Dns.dnsRrSkip dnsRrLen
  rw [h.dnsDSkip, h.dnsPQend, h.end_, h.data]

theorem SameBytes.positionsFrom (h : SameBytes P Q) (rp : ℕ) :
    positionsFrom P rp = positionsFrom Q rp := by
  induction rp using Dns.positionsFrom.induct P with
  | case1 rp hrp ih => rw [Dns.positionsFrom, Dns.positionsFrom.eq_def Q, ← h.end_, ih, h.dnsRrSkip]
  | case2 rp hrp => rw [Dns.positionsFrom, Dns.positionsFrom.eq_def Q, ← h.end_, if_neg hrp, if_neg hrp]

theorem SameBytes.studyFrom (h : SameBytes P Q) (n rp : ℕ) : studyFrom P n rp = studyFrom Q n rp := by
  induction n generalizing rp with
  | zero => rfl
  | succ n ih => rw [Dns.studyFrom, Dns.studyFrom, h.end_, h.dnsRrSkip, ih]

theorem le_studyFrom (n rp : ℕ) : rp ≤ studyFrom P n rp := by
  induction n generalizing rp with
  | zero => exact le_refl rp
  | succ n ih =>
    rw [studyFrom]
    split
    · next hrp => exact le_trans (le_of_lt (lt_dnsRrSkip hrp).1) (ih _)
    · exact le_refl rp

theorem studyFrom_of_end_le (hrp : P.end_ ≤ rp) (n : ℕ) : studyFrom P n rp = rp := by
  cases n with
  | zero => rfl
  | succ n => rw [studyFrom, if_neg (not_lt.mpr hrp)]

theorem studyFrom_add (n m rp : ℕ) : studyFrom P m (studyFrom P n rp) = studyFrom P (n + m) rp := by
  induction n generalizing rp with
  | zero => rw [studyFrom, Nat.zero_add]
  | succ n ih =>
    rw [studyFrom, Nat.succ_add, studyFrom]
    split
    · exact ih _
    · next hrp => exact studyFrom_of_end_le (not_lt.mp hrp) m

theorem le_of_mem_positionsFrom (hq : q ∈ positionsFrom P rp) : rp ≤ q := by
  induction rp using positionsFrom.induct P with
  | case1 rp hrp ih =>
    rw [positionsFrom, if_pos hrp] at hq
    cases List.mem_cons.mp hq with
    | inl heq => exact le_of_eq heq.symm
    | inr hmem => exact le_trans (le_of_lt (lt_dnsRrSkip hrp).1) (ih hmem)
  | case2 rp hrp =>
    rw [positionsFrom, if_neg hrp] at hq
    cases hq

theorem lt_end_of_mem_positionsFrom (hq : q ∈ positionsFrom P rp) : q < P.end_ := by
  induction rp using positionsFrom.induct P with
  | case1 rp hrp ih =>
    rw [positionsFrom, if_pos hrp] at hq
    cases List.mem_cons.mp hq with
    | inl heq => exact heq ▸ hrp
    | inr hmem => exact ih hmem
  | case2 rp hrp =>
    rw [positionsFrom, if_neg hrp] at hq
    cases hq

theorem positionsFrom_pairwise (P : DnsPacket) (rp : ℕ) :
    (positionsFrom P rp).Pairwise (· < ·) := by
  induction rp using positionsFrom.induct P with
  | case1 rp hrp ih =>
    rw [positionsFrom, if_pos hrp]
    refine List.pairwise_cons.mpr ⟨fun q hq => ?_, ih⟩
    have hlt := (lt_dnsRrSkip hrp).1
    have hle := le_of_mem_positionsFrom hq
    omega
  | case2 rp hrp =>
    rw [positionsFrom, if_neg hrp]
    exact List.Pairwise.nil

/-- A section ends where the records behind it begin. -/
theorem positionsFrom_studyFrom (n rp : ℕ) :
    positionsFrom P (studyFrom P n rp) = (positionsFrom P rp).drop n := by
  induction n generalizing rp with
  | zero => rfl
  | succ n ih =>
    rw [studyFrom]
    split
    · next hrp => rw [ih, positionsFrom.eq_def P rp, if_pos hrp, List.drop_succ_cons]
    · next hrp => rw [positionsFrom, if_neg hrp, List.drop_nil]

theorem lt_studyFrom_of_mem_take (hq : q ∈ (positionsFrom P rp).take n) : q < studyFrom P n rp := by
  induction n generalizing rp with
  | zero => cases hq
  | succ n ih =>
    by_cases hrp : rp < P.end_
    · rw [positionsFrom, if_pos hrp, List.take_succ_cons] at hq
      rw [studyFrom, if_pos hrp]
      cases List.mem_cons.mp hq with
      | inl heq =>
        rw [heq]
        exact lt_of_lt_of_le (lt_dnsRrSkip hrp).1 (le_studyFrom n _)
      | inr hmem => exact ih hmem
    · rw [positionsFrom, if_neg hrp, List.take_nil] at hq
      cases hq

/-- A record is in the first `n` exactly if so few stand before it. -/
theorem lt_studyFrom_iff (hq : q ∈ positionsFrom P rp) :
    q < studyFrom P n rp ↔ ((positionsFrom P rp).takeWhile (· < q)).length < n := by
  induction n generalizing rp with
  | zero =>
    have hle := le_of_mem_positionsFrom hq
    rw [studyFrom]
    omega
  | succ n ih =>
    rw [studyFrom]
    by_cases hrp : rp < P.end_
    · rw [positionsFrom, if_pos hrp] at hq
      rw [positionsFrom, if_pos hrp, if_pos hrp]
      have hnext := (lt_dnsRrSkip hrp).1
      cases List.mem_cons.mp hq with
      | inl heq =>
        have hle : dnsRrSkip rp P ≤ studyFrom P n (dnsRrSkip rp P) := le_studyFrom n _
        rw [List.takeWhile_cons_of_neg (by simp [heq])]
        exact iff_of_true (by omega) (Nat.succ_pos n)
      | inr hmem =>
        have hle := le_of_mem_positionsFrom hmem
        rw [List.takeWhile_cons_of_pos (by simpa using by omega), List.length_cons,
          Nat.succ_lt_succ_iff]
        exact ih hmem
    · rw [positionsFrom, if_neg hrp] at hq
      cases hq

theorem sameBytes_dnsPStudy (P : DnsPacket) : SameBytes (dnsPStudy P) P := ⟨rfl, rfl⟩

theorem sameBytes_dnsPUnstudy (P : DnsPacket) : SameBytes (dnsPUnstudy P) P := ⟨rfl, rfl⟩

theorem SameBytes.dnsSStudy (h : SameBytes P Q) (section_ base : ℕ) :
    dnsSStudy section_ base P = dnsSStudy section_ base Q := by
  rw [Dns.dnsSStudy, Dns.dnsSStudy, h.dnsPCount, h.studyFrom]

theorem dnsPStudy_an (P : DnsPacket) : (dnsPStudy P).an =
    { base := studyFrom P (dnsPCount P 1) 12,
      end_ := studyFrom P (dnsPCount P 1 + dnsPCount P 2) 12 } := by
  have hsame : SameBytes { P with qd := dnsSStudy 1 12 P } P := ⟨rfl, rfl⟩
  have hmemo : (dnsPStudy P).an = dnsSStudy 2 (dnsPStudy P).qd.end_ P := hsame.dnsSStudy 2 _
  rw [hmemo, ← studyFrom_add]
  rfl

theorem dnsPStudy_ns (P : DnsPacket) : (dnsPStudy P).ns =
    { base := studyFrom P (dnsPCount P 1 + dnsPCount P 2) 12,
      end_ := studyFrom P (dnsPCount P 1 + dnsPCount P 2 + dnsPCount P 4) 12 } := by
  have hsame : SameBytes { P with qd := (dnsPStudy P).qd, an := (dnsPStudy P).an } P := ⟨rfl, rfl⟩
  have hmemo : (dnsPStudy P).ns = dnsSStudy 4 (dnsPStudy P).an.end_ P := hsame.dnsSStudy 4 _
  rw [hmemo, dnsPStudy_an, dnsSStudy, studyFrom_add]

theorem dnsPStudy_ar (P : DnsPacket) : (dnsPStudy P).ar =
    { base := studyFrom P (dnsPCount P 1 + dnsPCount P 2 + dnsPCount P 4) 12,
      end_ := studyFrom P (dnsPCount P 1 + dnsPCount P 2 + dnsPCount P 4 + dnsPCount P 8) 12 } := by
  have hsame : SameBytes
      { P with qd := (dnsPStudy P).qd, an := (dnsPStudy P).an, ns := (dnsPStudy P).ns } P :=
    ⟨rfl, rfl⟩
  have hmemo : (dnsPStudy P).ar = dnsSStudy 8 (dnsPStudy P).ns.end_ P := hsame.dnsSStudy 8 _
  rw [hmemo, dnsPStudy_ns, dnsSStudy, studyFrom_add]

/-- The section of a record with `index` records before it. -/
def sectionOf (P : DnsPacket) (index : ℕ) : ℕ :=
  if index < dnsPCount P 1 then 1
  else if index < dnsPCount P 1 + dnsPCount P 2 then 2
  else if index < dnsPCount P 1 + dnsPCount P 2 + dnsPCount P 4 then 4
  else if index < dnsPCount P 1 + dnsPCount P 2 + dnsPCount P 4 + dnsPCount P 8 then 8
  else 0

/-- The loop that shifts the section ends at the one that the count is in. -/
theorem sectionFrom_eq (P : DnsPacket) (index : ℕ) :
    15 &&& sectionFrom P index [2, 4, 8, 16] 1 (dnsPCount P 1) = sectionOf P index := by
  simp only [sectionFrom, sectionOf, ge_iff_le]
  by_cases h1 : index < dnsPCount P 1
  · rw [if_neg (not_le.mpr h1), if_pos h1]
    rfl
  · rw [if_pos (not_lt.mp h1), if_neg h1]
    by_cases h2 : index < dnsPCount P 1 + dnsPCount P 2
    · rw [if_neg (not_le.mpr h2), if_pos h2]
      rfl
    · rw [if_pos (not_lt.mp h2), if_neg h2]
      by_cases h4 : index < dnsPCount P 1 + dnsPCount P 2 + dnsPCount P 4
      · rw [if_neg (not_le.mpr h4), if_pos h4]
        rfl
      · rw [if_pos (not_lt.mp h4), if_neg h4]
        by_cases h8 : index < dnsPCount P 1 + dnsPCount P 2 + dnsPCount P 4 + dnsPCount P 8
        · rw [if_neg (not_le.mpr h8), if_pos h8]
          rfl
        · rw [if_pos (not_lt.mp h8), if_neg h8]
          rfl

theorem SameBytes.sectionOf (h : SameBytes P Q) (index : ℕ) :
    sectionOf P index = sectionOf Q index := by
  simp only [Dns.sectionOf, h.dnsPCount]

theorem dnsRrSection_dnsPUnstudy (P : DnsPacket) (src : ℕ) : dnsRrSection src (dnsPUnstudy P) =
    sectionOf P ((positionsFrom P 12).takeWhile (· < src)).length := by
  have hnone : ¬(src ≥ 0 ∧ src < 0) := fun h => Nat.not_lt_zero src h.2
  have hsame := sameBytes_dnsPUnstudy P
  rw [← hsame.sectionOf, ← hsame.positionsFrom, ← sectionFrom_eq]
  exact (if_neg hnone).trans ((if_neg hnone).trans ((if_neg hnone).trans (if_neg hnone)))

/-- Between the bases, and then behind the last of the sections. -/
theorem dnsRrSection_dnsPStudy {src : ℕ} (hsrc : src ∈ positionsFrom P 12) :
    dnsRrSection src (dnsPStudy P) =
      sectionOf P ((positionsFrom P 12).takeWhile (· < src)).length := by
  have hsame := sameBytes_dnsPStudy P
  have hbase : src ≥ 12 := le_of_mem_positionsFrom hsrc
  have hqd : (dnsPStudy P).qd = { base := 12, end_ := studyFrom P (dnsPCount P 1) 12 } := rfl
  rw [dnsRrSection, hqd, dnsPStudy_an, dnsPStudy_ns, dnsPStudy_ar]
  simp only [sectionFrom_eq, hsame.sectionOf, hsame.positionsFrom]
  simp only [sectionOf, ← lt_studyFrom_iff hsrc]
  by_cases h1 : src < studyFrom P (dnsPCount P 1) 12
  · rw [if_pos ⟨hbase, h1⟩, if_pos h1]
  · rw [if_neg (fun h => h1 h.2), if_neg h1]
    by_cases h2 : src < studyFrom P (dnsPCount P 1 + dnsPCount P 2) 12
    · rw [if_pos ⟨not_lt.mp h1, h2⟩, if_pos h2]
    · rw [if_neg (fun h => h2 h.2), if_neg h2]
      by_cases h4 : src < studyFrom P (dnsPCount P 1 + dnsPCount P 2 + dnsPCount P 4) 12
      · rw [if_pos ⟨not_lt.mp h2, h4⟩, if_pos h4]
      · rw [if_neg (fun h => h4 h.2), if_neg h4]
        by_cases h8 : src <
            studyFrom P (dnsPCount P 1 + dnsPCount P 2 + dnsPCount P 4 + dnsPCount P 8) 12
        · rw [if_pos ⟨not_lt.mp h4, h8⟩, if_pos h8]
        · rw [if_neg (fun h => h8 h.2), if_neg h8]

/-- What `dns_p_study` has noted of the sections says of each record what counting says. -/
theorem dnsRrSection_studied {src : ℕ} (hsrc : src ∈ positionsFrom P 12) :
    dnsRrSection src (dnsPStudy P) = dnsRrSection src (dnsPUnstudy P) := by
  rw [dnsRrSection_dnsPStudy hsrc, dnsRrSection_dnsPUnstudy]

theorem dnsPStudy_dnsPStudy (P : DnsPacket) : dnsPStudy (dnsPStudy P) = dnsPStudy P := by
  have hsame := sameBytes_dnsPStudy P
  have hqd : (dnsPStudy (dnsPStudy P)).qd = (dnsPStudy P).qd := hsame.dnsSStudy 1 12
  have han : (dnsPStudy (dnsPStudy P)).an = (dnsPStudy P).an := by
    simp only [dnsPStudy_an, hsame.studyFrom, hsame.dnsPCount]
  have hns : (dnsPStudy (dnsPStudy P)).ns = (dnsPStudy P).ns := by
    simp only [dnsPStudy_ns, hsame.studyFrom, hsame.dnsPCount]
  have har : (dnsPStudy (dnsPStudy P)).ar = (dnsPStudy P).ar := by
    simp only [dnsPStudy_ar, hsame.studyFrom, hsame.dnsPCount]
  calc dnsPStudy (dnsPStudy P)
    _ = { dnsPStudy P with
          qd := (dnsPStudy (dnsPStudy P)).qd, an := (dnsPStudy (dnsPStudy P)).an,
          ns := (dnsPStudy (dnsPStudy P)).ns, ar := (dnsPStudy (dnsPStudy P)).ar } := rfl
    _ = dnsPStudy P := by rw [hqd, han, hns, har]

end Memos

/-- A question for `a.`, two answers of which the second has a pointer to the first one's name, and
a nameserver of the root. -/
def fourRecords : DnsPacket :=
  let header : List UInt8 := [0, 0, 0, 0, 0, 1, 0, 2, 0, 1, 0, 0]
  let records : List UInt8 := [1, 97, 0, 0, 1, 0, 1] ++ [1, 97, 0, 0, 1, 0, 1, 0, 0, 0, 0, 0, 0] ++
    [0xc0, 19, 0, 1, 0, 1, 0, 0, 0, 0, 0, 0] ++ [0, 0, 2, 0, 1, 0, 0, 0, 0, 0, 0]
  { dnsPInit 55 (fun _ => 0) (by decide) (by decide) with
    data p := (header ++ records).getD p 0
    end_ := 55
    end_le := le_refl 55 }

theorem positionsFrom_fourRecords : positionsFrom fourRecords 12 = [12, 19, 32, 44] := by
  decide +kernel

theorem dnsRrSection_studied_fourRecords :
    dnsRrSection 32 (dnsPStudy fourRecords) = dnsRrSection 32 (dnsPUnstudy fourRecords) ∧
    dnsRrSection 44 (dnsPStudy fourRecords) = dnsRrSection 44 (dnsPUnstudy fourRecords) :=
  ⟨dnsRrSection_studied (by rw [positionsFrom_fourRecords]; decide),
    dnsRrSection_studied (by rw [positionsFrom_fourRecords]; decide)⟩

end Suil.Dns
