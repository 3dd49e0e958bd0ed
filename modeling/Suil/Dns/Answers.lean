import Suil.Dns.Labels
import Suil.Dns.Socket

/-! What the socket of the resolver keeps to in every run: the answers that are fetched answer the
query, a TCP connection carries whole messages, and descriptors are closed once. -/
namespace Suil.Dns
open CText (cString tolower strcaseeq)
open Exchange (system)

variable {so so' : DnsSocket} {c c' : Control} {r : Reply} {s s' : Exchange} {P A Q : DnsPacket}

/-- What a submitted query leaves in the socket. -/
def Asks (so : DnsSocket) (Q : DnsPacket) : Prop :=
  ∃ rr, dnsRrParse blankRr 12 Q = some rr ∧ rr.type = so.qtype ∧ rr.klass = so.qclass ∧
    dnsDExpand (expandTurns Q) (fun _ => 0) qnameSize rr.dn.p Q = some (.ok so.qlen, so.qname)

theorem submit_cases {mkqid : UInt16} {realloc error : Option SoError}
    (h : dnsSoSubmit so Q mkqid realloc = some (error, so')) : so' = dnsSoReset so ∨
      ∃ A qlen qname qtype qclass state, state ≠ .unset ∧ state ≠ .DNS_SO_UDP_DONE ∧
        state ≠ .DNS_SO_TCP_RECV ∧ state ≠ .DNS_SO_TCP_DONE ∧
        so' = { dnsSoReset so with
          answer := some A, qname, qlen, qtype, qclass, query := some (withQid Q mkqid),
          qid := qid (withQid Q mkqid), state } ∧ Asks so' Q := by
  unfold dnsSoSubmit at h
  dsimp only at h
  split at h
  next =>
    cases h
    exact .inl rfl
  next rr hrr =>
    split at h
    next => cases h
    next =>
      cases h
      exact .inl rfl
    next qlen qname hexpand =>
      cases realloc with
      | some errno =>
        cases h
        exact .inl rfl
      | none =>
        cases h
        refine .inr ⟨_, qlen, qname, rr.type, rr.klass, _, ?_, ?_, ?_, ?_, rfl, rr, hrr, rfl, rfl,
          hexpand⟩
        · split <;> decide
        · split <;> decide
        · split <;> decide
        · split <;> decide

/-- What verifying an answer establishes. -/
theorem dnsSoVerify_eq (h : dnsSoVerify so A = some none) :
    so.qid = qid A ∧ 0 < dnsPCount A 1 ∧ ∃ rr qname, dnsRrParse blankRr 12 A = some rr ∧
      rr.type = so.qtype ∧ rr.klass = so.qclass ∧
      dnsDExpand (expandTurns A) (fun _ => 0) qnameSize rr.dn.p A = some (.ok so.qlen, qname) ∧
      strcaseeq (bytesAt so.qname 0 qnameSize) (bytesAt qname 0 qnameSize) := by
  unfold dnsSoVerify at h
  split at h
  next => cases h
  next hqid =>
    split at h
    next => cases h
    next hcount =>
      split at h
      next => cases h
      next rr hrr =>
        split at h
        next => cases h
        next htype =>
          split at h
          next => cases h
          next => cases h
          next qlen qname hexpand =>
            split at h
            next => cases h
            next hlen =>
              split at h
              next hname =>
                have hqlen : qlen = so.qlen := Decidable.not_not.mp (not_or.mp hlen).2
                obtain ⟨htype, hclass⟩ := not_or.mp htype
                exact ⟨Decidable.not_not.mp hqid, Nat.pos_of_ne_zero hcount, rr, qname, hrr,
                  Decidable.not_not.mp htype, Decidable.not_not.mp hclass, hqlen ▸ hexpand, hname⟩
              next => cases h

/-- A verified answer repeats the question. -/
theorem Asks.asked_eq (h : Asks so Q) (hA : dnsSoVerify so A = some none) :
    asked A = asked Q ∧ (asked A).isSome := by
  obtain ⟨-, -, rr, qname, hrr, htype, hclass, hexpand, hname⟩ := dnsSoVerify_eq hA
  obtain ⟨rr', hrr', htype', hclass', hexpand'⟩ := h
  have hlower : (cString (bytesAt so.qname 0 qnameSize)).map tolower =
      (cString (bytesAt qname 0 qnameSize)).map tolower :=
    CText.strcaseeq_iff.mp hname
  have hasked : asked A = some (so.qtype, so.qclass, so.qlen,
      (cString (bytesAt so.qname 0 qnameSize)).map tolower) := by
    rw [asked, hrr]
    simp only [hexpand]
    rw [htype, hclass, hlower]
  have hasked' : asked Q = some (so.qtype, so.qclass, so.qlen,
      (cString (bytesAt so.qname 0 qnameSize)).map tolower) := by
    rw [asked, hrr']
    simp only [hexpand']
    rw [htype', hclass']
  exact ⟨hasked.trans hasked'.symm, Option.isSome_of_eq_some hasked⟩

/-- The fields that no turn changes. -/
structure Kept (so so' : DnsSocket) : Prop where
  type : so'.type = so.type
  qid : so'.qid = so.qid
  qname : so'.qname = so.qname
  qlen : so'.qlen = so.qlen
  qtype : so'.qtype = so.qtype
  qclass : so'.qclass = so.qclass
  query : so'.query = so.query

theorem Kept.refl (so : DnsSocket) : Kept so so := ⟨rfl, rfl, rfl, rfl, rfl, rfl, rfl⟩

theorem Kept.retired {so₁ : DnsSocket} (h : so₁ = so ∨ ∃ olim, so₁ = so.retired olim) :
    Kept so so₁ := by
  cases h with
  | inl h =>
    cases h
    exact .refl so
  | inr h =>
    obtain ⟨olim, rfl⟩ := h
    exact ⟨rfl, rfl, rfl, rfl, rfl, rfl, rfl⟩

theorem Turns.kept (h : Turns r so c so' c') : Kept so so' := by
  cases h with
  | raised => exact .refl so
  | moves => exact ⟨rfl, rfl, rfl, rfl, rfl, rfl, rfl⟩
  | trash => exact ⟨rfl, rfl, rfl, rfl, rfl, rfl, rfl⟩
  | accepts => exact ⟨rfl, rfl, rfl, rfl, rfl, rfl, rfl⟩
  | answered => exact .refl so
  | opens => exact ⟨rfl, rfl, rfl, rfl, rfl, rfl, rfl⟩
  | retires => exact ⟨rfl, rfl, rfl, rfl, rfl, rfl, rfl⟩
  | sends => exact .refl so
  | receives => exact .refl so
  | rejects _ hso => exact .retired hso
  | done _ hso => exact .retired hso
  | sent => exact ⟨rfl, rfl, rfl, rfl, rfl, rfl, rfl⟩
  | whole => exact ⟨rfl, rfl, rfl, rfl, rfl, rfl, rfl⟩
  | piece => exact ⟨rfl, rfl, rfl, rfl, rfl, rfl, rfl⟩
  | length _ _ _ _ hnew =>
    cases hnew
    exact ⟨rfl, rfl, rfl, rfl, rfl, rfl, rfl⟩
  | starves => exact ⟨rfl, rfl, rfl, rfl, rfl, rfl, rfl⟩
  | ends => exact ⟨rfl, rfl, rfl, rfl, rfl, rfl, rfl⟩

theorem Kept.verify (h : Kept so so') (A : DnsPacket) : dnsSoVerify so' A = dnsSoVerify so A := by
  rw [dnsSoVerify, dnsSoVerify, h.qid, h.qtype, h.qclass, h.qlen, h.qname]

theorem Kept.asks (h : Kept so so') (hQ : Asks so Q) : Asks so' Q := by
  obtain ⟨rr, hrr, htype, hclass, hexpand⟩ := hQ
  exact ⟨rr, hrr, htype.trans h.qtype.symm, hclass.trans h.qclass.symm,
    by rw [h.qlen, h.qname, hexpand]⟩

/-- The steps of a run, and what each of them leaves. -/
inductive Steps (s : Exchange) : SoAct → Exchange → Prop
  | asks {so' : DnsSocket} {Q : DnsPacket} {mkqid : UInt16} {realloc error : Option SoError}
      (h : dnsSoSubmit s.so Q mkqid realloc = some (error, so')) :
      Steps s (.submit Q mkqid realloc)
        { s with so := so', control := .out, submitted := some Q, wire := [], entered := [],
                 heard := [] }
  | checks : Steps s .check { s with control := .switch }
  | turns {r : Reply} {so' : DnsSocket} {c' : Control} (h : Turns r s.so s.control so' c')
      (hfresh : ∀ fd ∈ Exchange.opened s.so so', fd ∉ s.open_) :
      Steps s (.reply r) { s with
        so := so', control := c'
        wire := s.wire ++ (Exchange.written s.so so' s.control).1
        entered := s.entered ++ (Exchange.written s.so so' s.control).2
        heard := s.heard ++ Exchange.read s.so so' r.bytes
        open_ := Exchange.opened s.so so' ++ s.open_ }
  | fetches {A Q : DnsPacket}
      (hstate : s.so.state = .DNS_SO_UDP_DONE ∨ s.so.state = .DNS_SO_TCP_DONE)
      (hA : s.so.answer = some A) (hQ : s.submitted = some Q) :
      Steps s .fetch { s with
        so := { s.so with answer := none }
        taken := ⟨Q, s.so.qid, A, s.so.state = .DNS_SO_TCP_DONE⟩ :: s.taken }
  | stays : Steps s .fetch s
  | resets : Steps s .reset
      { s with so := dnsSoReset s.so, control := .out, submitted := none, wire := [],
               entered := [], heard := [] }
  | clears {open_ : List ℕ} (h : closeAll s.open_ s.so.old = some open_) :
      Steps s .clear { s with so := { s.so with old := [], olim := 0 }, open_ }
  | destroys {open_ : List ℕ} (h : closeAll s.open_ s.so.owned = some open_) :
      Steps s .destroy
        { s with so := { dnsSoReset s.so with udp := none, tcp := none, old := [], olim := 0 },
                 control := .out, submitted := none, wire := [], entered := [], heard := [], open_ }

theorem dnsSoFetch_eq (h : dnsSoFetch so = some (A, so')) :
    (so.state = .DNS_SO_UDP_DONE ∨ so.state = .DNS_SO_TCP_DONE) ∧ so.answer = some A ∧
      so' = { so with answer := none } := by
  unfold dnsSoFetch at h
  split at h
  next hstate =>
    obtain ⟨A', hA, heq⟩ := Option.map_eq_some_iff.mp h
    cases heq
    exact ⟨.inl hstate, hA, rfl⟩
  next hstate =>
    obtain ⟨A', hA, heq⟩ := Option.map_eq_some_iff.mp h
    cases heq
    exact ⟨.inr hstate, hA, rfl⟩
  next => cases h

theorem steps_of_next {a : SoAct} (h : Exchange.next s a = some s') : Steps s a s' := by
  cases a with
  | submit Q mkqid realloc =>
    obtain ⟨-, h⟩ := Option.ite_none_right_eq_some.mp h
    obtain ⟨⟨error, so'⟩, hsubmit, rfl⟩ := Option.map_eq_some_iff.mp h
    exact .asks hsubmit
  | check =>
    obtain ⟨-, h⟩ := Option.ite_none_right_eq_some.mp h
    cases h
    exact .checks
  | reply r =>
    obtain ⟨⟨so', c'⟩, hturn, h⟩ := Option.bind_eq_some_iff.mp h
    obtain ⟨hfresh, h⟩ := Option.ite_none_right_eq_some.mp h
    cases h
    exact .turns (turns_of_turn hturn) hfresh
  | fetch =>
    obtain ⟨-, h⟩ := Option.ite_none_right_eq_some.mp h
    split at h
    next A so' Q hfetch hQ =>
      cases h
      obtain ⟨hstate, hA, rfl⟩ := dnsSoFetch_eq hfetch
      exact .fetches hstate hA hQ
    next =>
      cases h
      exact .stays
  | reset =>
    obtain ⟨-, h⟩ := Option.ite_none_right_eq_some.mp h
    cases h
    exact .resets
  | clear =>
    obtain ⟨-, h⟩ := Option.ite_none_right_eq_some.mp h
    obtain ⟨open_, hclose, rfl⟩ := Option.map_eq_some_iff.mp h
    exact .clears hclose
  | destroy =>
    obtain ⟨-, h⟩ := Option.ite_none_right_eq_some.mp h
    obtain ⟨open_, hclose, rfl⟩ := Option.map_eq_some_iff.mp h
    exact .destroys hclose

/-- Callers fetch an answer after `dns_so_check` has returned 0. -/
def Guarded (s : Exchange) : SoAct → Prop
  | .fetch => s.control = .returned none
  | _ => True

section Root

/-- A packet that asks for the root, whatever else it holds. -/
structure AsksRoot (P : DnsPacket) : Prop where
  end_ : P.end_ = 17
  count : be16 P.data 4 = 1
  root : P.data 12 = 0
  type : be16 P.data 13 = 1
  klass : be16 P.data 15 = 1

theorem AsksRoot.skip {P : DnsPacket} (h : AsksRoot P) : dnsDSkip P 12 = 13 := by
  rw [dnsDSkip, if_pos (by rw [h.end_]; decide), h.root]
  rfl

theorem AsksRoot.parse {P : DnsPacket} (h : AsksRoot P) :
    dnsRrParse blankRr 12 P = some ⟨1, ⟨12, 1⟩, 1, 1, 0, ⟨0, 0⟩⟩ := by
  have hcount : dnsPCount P 1 = 1 := by rw [dnsPCount, h.count]; rfl
  have hqend : dnsPQend P = 17 := by
    rw [dnsPQend, hcount, qendFrom, h.end_, h.skip]
    simp [qendFrom, h.end_]
  rw [dnsRrParse, h.end_, h.skip, hqend]
  simp [h.type, h.klass]

theorem AsksRoot.expand {P : DnsPacket} (h : AsksRoot P) :
    dnsDExpand (expandTurns P) (fun _ => 0) qnameSize 12 P =
      some (.ok 1, terminate (put (fun _ => 0) qnameSize 0 '.'.toUInt8) qnameSize 1) := by
  have hturns : expandTurns P = 2431 + 1 := by rw [expandTurns, h.end_]
  rw [dnsDExpand, hturns, dnsDExpandFrom, dnsDExpandRound, if_pos (by rw [h.end_]; decide), h.root]
  rfl

/-- A question for the root. -/
def asking : DnsPacket :=
  { dnsPInit 17 (fun p => if p = 5 ∨ p = 14 ∨ p = 16 then 1 else 0) (by decide) (by decide) with
    end_ := 17
    end_le := le_refl 17 }

/-- A question for the root, and the count of it. -/
def rootQuery : DnsPacket := { asking with data := Function.update asking.data 5 1 }

theorem le_minbuf : 12 ≤ 768 := by decide

theorem minbuf_le : 768 ≤ 65535 := by decide

theorem rootQuery_asks : AsksRoot rootQuery := ⟨rfl, by decide, by decide, by decide, by decide⟩

/-- The socket after the question for the root was submitted. -/
def rootSo (type : SoType) : DnsSocket :=
  { Exchange.fresh 3 type with
    answer := some (dnsPInit 768 (fun _ => 0) le_minbuf minbuf_le)
    qname := terminate (put (fun _ => 0) qnameSize 0 '.'.toUInt8) qnameSize 1
    qlen := 1, qtype := 1, qclass := 1, query := some (withQid rootQuery 7), qid := 7
    state := if type = .SOCK_STREAM then .DNS_SO_TCP_INIT else .DNS_SO_UDP_INIT }

theorem submit_root (type : SoType) :
    dnsSoSubmit (Exchange.fresh 3 type) rootQuery 7 none = some (none, rootSo type) := by
  unfold dnsSoSubmit
  rw [rootQuery_asks.parse]
  simp only [dnsSoReset, rootQuery_asks.expand]
  rfl

theorem rootSo_verify (type : SoType) {P : DnsPacket} (h : AsksRoot P) (hqid : qid P = 7) :
    dnsSoVerify (rootSo type) P = some none := by
  have hcount : dnsPCount P 1 = 1 := by rw [dnsPCount, h.count]; rfl
  have hname : strcaseeq (bytesAt (rootSo type).qname 0 qnameSize)
      (bytesAt (rootSo type).qname 0 qnameSize) = true := CText.strcaseeq_iff.mpr rfl
  unfold dnsSoVerify
  rw [hqid, hcount, h.parse]
  simp only [h.expand]
  have hlen : ¬(1 ≥ qnameSize ∨ 1 ≠ (rootSo type).qlen) := not_or.mpr ⟨by decide, not_not.mpr rfl⟩
  have hid : ¬(rootSo type).qid ≠ 7 := not_not.mpr rfl
  have hasked : ¬(1 ≠ (rootSo type).qtype ∨ 1 ≠ (rootSo type).qclass) :=
    not_or.mpr ⟨not_not.mpr rfl, not_not.mpr rfl⟩
  rw [if_neg hid, if_neg (by decide), if_neg hasked, if_neg hlen]
  exact if_pos hname

/-- After the first call of `dns_so_check` has begun. -/
def rootRun (type : SoType) : Exchange :=
  { Exchange.blank 3 type with
    so := rootSo type, control := .switch, submitted := some rootQuery }

theorem rootRun_reachable (type : SoType) : system.ReachableBy Guarded (rootRun type) := by
  have hinit : system.ReachableBy Guarded (Exchange.blank 3 type) := .init ⟨3, type, rfl⟩
  have hsubmit : Exchange.next (Exchange.blank 3 type) (.submit rootQuery 7 none) =
      some { rootRun type with control := .out } := by
    have hso : (Exchange.blank 3 type).so = Exchange.fresh 3 type := rfl
    rw [Exchange.next, hso, submit_root]
    rfl
  have hout : system.ReachableBy Guarded { rootRun type with control := .out } :=
    hinit.step (a := .submit rootQuery 7 none) trivial hsubmit
  exact hout.step (a := .check) trivial rfl

/-- A reply of the kernel. -/
def answering (rc : Except SoError ℕ) (bytes : Bytes) : SoAct :=
  .reply { rc, bytes, keep := false, realloc := none }

end Root

section Query

/-- The query on its way over TCP. -/
structure Sent (s : Exchange) : Prop where
  receiving : s.control = .receiving → s.so.state = .DNS_SO_TCP_RECV
  entered : s.entered.length = s.so.qout
  wire : ∀ Q, s.so.query = some Q → s.wire = s.entered.zipIdx.map fun x => frame Q (x.1 + x.2)
  le : ∀ Q, s.so.query = some Q → s.so.qout ≤ Q.end_ + 2
  whole : s.so.state = .DNS_SO_TCP_RECV ∨ s.so.state = .DNS_SO_TCP_DONE →
    ∀ Q, s.so.query = some Q → s.so.qout = Q.end_ + 2

/-- Nothing is written where the query has not got any further. -/
theorem written_of_eq (h : so'.qout = so.qout) : Exchange.written so so' c = ([], []) := by
  cases c with
  | sending qsrc =>
    rw [Exchange.written, h, Nat.sub_self]
    cases so.query with
    | none => rfl
    | some Q => rfl
  | out => rfl
  | returned error => rfl
  | switch => rfl
  | receiving => rfl

theorem Fails.ne_receiving (h : Fails c) : c ≠ .receiving := by
  cases h with
  | inl h => exact fun hc => absurd (h.symm.trans hc) nofun
  | inr h =>
    obtain ⟨error, rfl⟩ := h
    nofun

/-- A turn that leaves the query where it is. -/
theorem Sent.keep (h : Sent s) (hkept : Kept s.so so') (hqout : so'.qout = s.so.qout)
    (hreceiving : c' = .receiving → so'.state = .DNS_SO_TCP_RECV)
    (hstate : so'.state = .DNS_SO_TCP_RECV ∨ so'.state = .DNS_SO_TCP_DONE →
      ∀ Q, s.so.query = some Q → s.so.qout = Q.end_ + 2) (heard : List UInt8) (open_ : List ℕ) :
    Sent { s with
      so := so', control := c'
      wire := s.wire ++ (Exchange.written s.so so' s.control).1
      entered := s.entered ++ (Exchange.written s.so so' s.control).2, heard, open_ } := by
  rw [written_of_eq hqout, List.append_nil, List.append_nil]
  exact ⟨hreceiving, h.entered.trans hqout.symm, fun Q hQ => h.wire Q (hkept.query.symm.trans hQ),
    fun Q hQ => hqout.trans_le (h.le Q (hkept.query.symm.trans hQ)),
    fun hdone Q hQ => hqout.trans (hstate hdone Q (hkept.query.symm.trans hQ))⟩

/-- The bytes of one call of `send`. -/
theorem Sent.sent {n qsrc : ℕ} (h : Sent s) (hQ : s.so.query = some Q)
    (hn : s.so.qout + n ≤ Q.end_ + 2) (hcontrol : s.control = .sending qsrc)
    (heard : List UInt8) (open_ : List ℕ) :
    Sent { s with
      so := { s.so with qout := s.so.qout + n }, control := .sending qsrc
      wire := s.wire ++ (Exchange.written s.so { s.so with qout := s.so.qout + n } s.control).1
      entered := s.entered ++
        (Exchange.written s.so { s.so with qout := s.so.qout + n } s.control).2
      heard, open_ } := by
  have hwritten : Exchange.written s.so { s.so with qout := s.so.qout + n } s.control =
      ((List.range n).map fun i => frame Q (qsrc + (s.so.qout + i)), List.replicate n qsrc) := by
    rw [hcontrol, Exchange.written, hQ, Option.elim_some, Nat.add_sub_cancel_left]
  rw [hwritten]
  refine ⟨nofun, ?_, fun Q' hQ' => ?_, fun Q' hQ' => ?_, fun hdone Q' hQ' => ?_⟩
  · rw [List.length_append, List.length_replicate, h.entered]
  · cases hQ.symm.trans hQ'
    have hlast : (List.replicate n qsrc).zipIdx s.so.qout =
        (List.range n).map fun i => (qsrc, s.so.qout + i) := by
      refine List.ext_getElem (by simp) fun i hi hi' => ?_
      simp
    rw [List.zipIdx_append, List.map_append, h.wire Q hQ, h.entered, Nat.zero_add, hlast,
      List.map_map]
    rfl
  · cases hQ.symm.trans hQ'
    exact hn
  · have hlt := h.whole hdone Q hQ
    cases hQ.symm.trans hQ'
    change s.so.qout + n = Q.end_ + 2
    omega

theorem Sent.turns (h : Sent s) (ht : Turns r s.so s.control so' c')
    (heard : List UInt8) (open_ : List ℕ) :
    Sent { s with
      so := so', control := c'
      wire := s.wire ++ (Exchange.written s.so so' s.control).1
      entered := s.entered ++ (Exchange.written s.so so' s.control).2, heard, open_ } := by
  have keep := @Sent.keep so' c' s h ht.kept
  generalize hc : s.control = c at ht
  rw [← hc]
  cases ht with
  | raised hfails => exact keep rfl (absurd · hfails.ne_receiving) h.whole _ _
  | moves _ _ _ hst =>
    exact keep rfl (by nofun)
      (fun hdone => absurd hdone (not_or.mpr ⟨hst.2.2.2.1, hst.2.2.2.2⟩)) _ _
  | trash => exact keep rfl (by nofun) h.whole _ _
  | accepts => exact keep rfl (by nofun) (by nofun) _ _
  | answered => exact keep rfl (by nofun) h.whole _ _
  | opens => exact keep rfl (by nofun) (by nofun) _ _
  | retires _ hfails => exact keep rfl (absurd · hfails.ne_receiving) h.whole _ _
  | sends => exact keep rfl (by nofun) h.whole _ _
  | receives hstate => exact keep rfl (fun _ => hstate) h.whole _ _
  | rejects _ hso hfails =>
    obtain rfl | ⟨olim, rfl⟩ := hso
    · exact keep rfl (absurd · hfails.ne_receiving) h.whole _ _
    · exact keep rfl (absurd · hfails.ne_receiving) h.whole _ _
  | done _ hso =>
    obtain rfl | ⟨olim, rfl⟩ := hso
    · exact keep rfl (by nofun) h.whole _ _
    · exact keep rfl (by nofun) h.whole _ _
  | sent hQ hn => exact h.sent hQ hn hc _ _
  | whole hQ hout =>
    refine keep rfl (by nofun) (fun _ Q' hQ' => ?_) _ _
    cases hQ.symm.trans hQ'
    exact Nat.le_antisymm (h.le _ hQ) hout
  | piece => exact keep rfl (fun _ => h.receiving hc) h.whole _ _
  | length _ _ _ _ hnew =>
    cases hnew
    exact keep rfl (fun _ => h.receiving hc) h.whole _ _
  | starves _ _ _ _ hfails => exact keep rfl (absurd · hfails.ne_receiving) h.whole _ _
  | ends => exact keep rfl (by nofun) (fun _ => h.whole (.inl (h.receiving hc))) _ _

theorem sent_inductive : system.Inductive (fun _ _ => True) Sent where
  init := by
    rintro s ⟨udp, type, rfl⟩
    exact ⟨nofun, rfl, nofun, nofun, nofun⟩
  step s a s' h _ hn := by
    cases steps_of_next hn with
    | asks hsubmit =>
      cases submit_cases hsubmit with
      | inl h => subst h; exact ⟨nofun, rfl, nofun, nofun, nofun⟩
      | inr h =>
        obtain ⟨A, qlen, qname, qtype, qclass, state, -, -, hrecv, hdone, rfl, -⟩ := h
        exact ⟨nofun, rfl, fun _ _ => rfl, fun _ _ => Nat.zero_le _,
          fun h => absurd h (not_or.mpr ⟨hrecv, hdone⟩)⟩
    | checks => exact ⟨nofun, h.entered, h.wire, h.le, h.whole⟩
    | turns ht => exact h.turns ht _ _
    | fetches => exact ⟨h.receiving, h.entered, h.wire, h.le, h.whole⟩
    | stays => exact h
    | resets => exact ⟨nofun, rfl, nofun, nofun, nofun⟩
    | clears => exact ⟨h.receiving, h.entered, h.wire, h.le, h.whole⟩
    | destroys => exact ⟨nofun, rfl, nofun, nofun, nofun⟩

/-- What is written to a connection is the query, from where the call that writes it has begun: a
call that goes on with a query sends the bytes twice as far on. -/
theorem query_on_the_wire (hs : system.Reachable s) (hQ : s.so.query = some Q) :
    s.wire = s.entered.zipIdx.map (fun x => frame Q (x.1 + x.2)) ∧
    (s.so.state = .DNS_SO_TCP_RECV ∨ s.so.state = .DNS_SO_TCP_DONE → s.wire.length = Q.end_ + 2) ∧
    ((∀ q ∈ s.entered, q = 0) → s.wire = (List.range s.wire.length).map (frame Q)) := by
  have h := sent_inductive.holds hs
  have hlength : s.wire.length = s.so.qout := by
    rw [h.wire Q hQ, List.length_map, List.length_zipIdx, h.entered]
  refine ⟨h.wire Q hQ, fun hdone => hlength.trans (h.whole hdone Q hQ), fun hzero => ?_⟩
  rw [hlength, h.wire Q hQ]
  refine List.ext_getElem (by simp [h.entered]) fun k hk hk' => ?_
  have hk : k < s.entered.length := by simpa using hk
  have hentered : s.entered[k] = 0 := hzero _ (List.getElem_mem hk)
  simp [hentered]

/-- The query goes out in two parts, in two calls of `dns_so_check`. -/
def sendRun : List SoAct :=
  [answering (.ok 5) fun _ => 0, answering (.ok 0) fun _ => 0, answering (.ok 0) fun _ => 0,
   answering (.ok 4) fun _ => 0, answering (.error .DNS_EAGAIN) fun _ => 0, .check,
   answering (.ok 0) fun _ => 0, answering (.ok 15) fun _ => 0]

theorem query_on_the_wire_resumed : ∃ s : Exchange,
    s.wire = s.entered.zipIdx.map (fun x => frame (withQid rootQuery 7) (x.1 + x.2)) ∧
    (s.so.state = .DNS_SO_TCP_RECV ∨ s.so.state = .DNS_SO_TCP_DONE →
      s.wire.length = (withQid rootQuery 7).end_ + 2) ∧
    ((∀ q ∈ s.entered, q = 0) →
      s.wire = (List.range s.wire.length).map (frame (withQid rootQuery 7))) ∧
    s.wire = (List.range 19).map fun k => if k < 4 then frame (withQid rootQuery 7) k
      else frame (withQid rootQuery 7) (4 + k) := by
  obtain ⟨s, hrun⟩ := Option.isSome_iff_exists.mp
    (by decide : (system.run (rootRun .SOCK_STREAM) sendRun).isSome)
  have hs := Transition.System.run_reachable (rootRun_reachable .SOCK_STREAM).reachable hrun
  have hQ : s.so.query = some (withQid rootQuery 7) := by
    cases hrun
    rfl
  obtain ⟨hwire, hwhole, hintact⟩ := query_on_the_wire hs hQ
  refine ⟨s, hwire, hwhole, hintact, ?_⟩
  cases hrun
  decide

end Query

section Answer

/-- The answer on its way over TCP. -/
structure Heard (s : Exchange) : Prop where
  receiving : s.control = .receiving → s.so.state = .DNS_SO_TCP_RECV
  length : s.heard.length = s.so.apos
  early : s.so.state ≠ .DNS_SO_TCP_RECV → s.so.state ≠ .DNS_SO_TCP_DONE →
    s.so.apos = 0 ∧ s.so.alen = 0
  le : s.so.apos ≤ s.so.alen + 2
  padding : s.so.apos < 2 → ∀ k < s.so.apos, s.so.padding k = s.heard.getD k 0
  known : s.so.alen ≠ 0 → 2 ≤ s.so.apos ∧ s.so.alen = be16 (s.heard.getD · 0) 0
  data : ∀ A, s.so.answer = some A → ∀ q, q + 2 < s.so.apos → A.data q = s.heard.getD (q + 2) 0
  done : s.so.state = .DNS_SO_TCP_DONE → ∀ A, s.so.answer = some A →
    A.end_ = s.so.alen ∧ s.so.apos = s.so.alen + 2

/-- Nothing is read where the answer has not got any further. -/
theorem read_of_eq {bytes : Bytes} (h : so'.apos = so.apos) : Exchange.read so so' bytes = [] := by
  rw [Exchange.read, h, Nat.sub_self]
  rfl

/-- A turn that reads nothing. -/
theorem Heard.keep {bytes : Bytes} (h : Heard s) (hapos : so'.apos = s.so.apos)
    (halen : so'.alen = s.so.alen) (hpadding : so'.padding = s.so.padding)
    (hreceiving : c' = .receiving → so'.state = .DNS_SO_TCP_RECV)
    (hearly : so'.state ≠ .DNS_SO_TCP_RECV → so'.state ≠ .DNS_SO_TCP_DONE →
      s.so.apos = 0 ∧ s.so.alen = 0)
    (hdata : ∀ A, so'.answer = some A → ∀ q, q + 2 < s.so.apos → A.data q = s.heard.getD (q + 2) 0)
    (hdone : so'.state = .DNS_SO_TCP_DONE → ∀ A, so'.answer = some A →
      A.end_ = s.so.alen ∧ s.so.apos = s.so.alen + 2)
    (wire : List UInt8) (entered open_ : List ℕ) :
    Heard { s with
      so := so', control := c', wire, entered, heard := s.heard ++ Exchange.read s.so so' bytes,
      open_ } := by
  rw [read_of_eq hapos, List.append_nil]
  refine ⟨hreceiving, h.length.trans hapos.symm, ?_, ?_, ?_, ?_, ?_, ?_⟩
  · rwa [hapos, halen]
  · rw [hapos, halen]
    exact h.le
  · rw [hapos, hpadding]
    exact h.padding
  · rw [hapos, halen]
    exact h.known
  · rwa [hapos]
  · rwa [hapos, halen]

/-- A turn that leaves the state and the answer as they are. -/
theorem Heard.same {bytes : Bytes} (h : Heard s) (hapos : so'.apos = s.so.apos)
    (halen : so'.alen = s.so.alen) (hpadding : so'.padding = s.so.padding)
    (hstate : so'.state = s.so.state) (hanswer : so'.answer = s.so.answer)
    (hreceiving : c' = .receiving → s.so.state = .DNS_SO_TCP_RECV)
    (wire : List UInt8) (entered open_ : List ℕ) :
    Heard { s with
      so := so', control := c', wire, entered, heard := s.heard ++ Exchange.read s.so so' bytes,
      open_ } := by
  have hearly := h.early
  have hdata := h.data
  have hdone := h.done
  rw [← hstate] at hreceiving hearly hdone
  rw [← hanswer] at hdata hdone
  exact h.keep hapos halen hpadding hreceiving hearly hdata hdone wire entered open_

/-- A turn before the first byte of the answer. -/
theorem Heard.unread {bytes : Bytes} (h : Heard s) (hzero : s.so.apos = 0 ∧ s.so.alen = 0)
    (hapos : so'.apos = s.so.apos) (halen : so'.alen = s.so.alen)
    (hpadding : so'.padding = s.so.padding) (hreceiving : c' ≠ .receiving)
    (hdone : so'.state ≠ .DNS_SO_TCP_DONE) (wire : List UInt8) (entered open_ : List ℕ) :
    Heard { s with
      so := so', control := c', wire, entered, heard := s.heard ++ Exchange.read s.so so' bytes,
      open_ } := by
  have hdata : ∀ A, so'.answer = some A → ∀ q, q + 2 < s.so.apos →
      A.data q = s.heard.getD (q + 2) 0 := fun A _ q hq => by omega
  exact h.keep hapos halen hpadding (absurd · hreceiving) (fun _ _ => hzero) hdata (absurd · hdone)
    wire entered open_

theorem getD_bytesAt {l : List UInt8} {bytes : Bytes} {n k : ℕ} (hk : l.length ≤ k)
    (hn : k < l.length + n) : (l ++ bytesAt bytes 0 n).getD k 0 = bytes (k - l.length) := by
  have hlt : k - l.length < (bytesAt bytes 0 n).length := by
    rw [length_bytesAt]
    omega
  rw [List.getD_append_right l _ 0 k hk, List.getD_eq_getElem _ 0 hlt]
  simp [bytesAt]

/-- What a segment leaves in the answer, and in front of it. -/
theorem Heard.segment (h : Heard s) (hA : s.so.answer = some A) (bytes : Bytes) (n : ℕ) :
    (∀ A', (segment s.so A bytes n).answer = some A' → ∀ q, q + 2 < s.so.apos + n →
      A'.data q = (s.heard ++ bytesAt bytes 0 n).getD (q + 2) 0) ∧
    (s.so.apos < 2 → ∀ k < s.so.apos + n,
      (segment s.so A bytes n).padding k = (s.heard ++ bytesAt bytes 0 n).getD k 0) := by
  refine ⟨fun A' hA' q hq => ?_, fun hlt k hk => ?_⟩
  · cases hA'
    change (if s.so.apos ≤ q + 2 ∧ q + 2 < s.so.apos + n then bytes (q + 2 - s.so.apos)
      else A.data q) = _
    by_cases hle : s.so.apos ≤ q + 2
    · rw [if_pos ⟨hle, hq⟩, getD_bytesAt (h.length.trans_le hle) (h.length.symm ▸ hq), h.length]
    · have hbefore : q + 2 < s.so.apos := not_le.mp hle
      rw [if_neg (fun hand => hle hand.1), h.data A hA q hbefore,
        List.getD_append _ _ _ _ (h.length.symm ▸ hbefore)]
  · change (if s.so.apos ≤ k ∧ k < s.so.apos + n then bytes (k - s.so.apos)
      else s.so.padding k) = _
    by_cases hle : s.so.apos ≤ k
    · rw [if_pos ⟨hle, hk⟩, getD_bytesAt (h.length.trans_le hle) (h.length.symm ▸ hk), h.length]
    · have hbefore : k < s.so.apos := not_le.mp hle
      rw [if_neg (fun hand => hle hand.1), h.padding hlt k hbefore,
        List.getD_append _ _ _ _ (h.length.symm ▸ hbefore)]

theorem Heard.length_append {bytes : Bytes} {n : ℕ} (h : Heard s) :
    (s.heard ++ bytesAt bytes 0 n).length = s.so.apos + n := by
  rw [List.length_append, length_bytesAt, h.length]

theorem read_segment {bytes : Bytes} {n : ℕ} (h : so'.apos = so.apos + n) :
    Exchange.read so so' bytes = bytesAt bytes 0 n := by
  rw [Exchange.read, h, Nat.add_sub_cancel_left]

theorem be16_congr {data data' : Bytes} {p : ℕ} (h : data p = data' p)
    (h' : data (p + 1) = data' (p + 1)) : be16 data p = be16 data' p := by
  rw [be16, be16, h, h']

theorem Heard.turns (h : Heard s) (ht : Turns r s.so s.control so' c') (wire : List UInt8)
    (entered open_ : List ℕ) :
    Heard { s with
      so := so', control := c', wire, entered
      heard := s.heard ++ Exchange.read s.so so' r.bytes, open_ } := by
  have keep := @Heard.keep so' c' s r.bytes h
  have same := @Heard.same so' c' s r.bytes h
  have unread := @Heard.unread so' c' s r.bytes h
  have hzero {st : SoState} (hstate : s.so.state = st) (hrecv : st ≠ .DNS_SO_TCP_RECV)
      (hdone : st ≠ .DNS_SO_TCP_DONE) : s.so.apos = 0 ∧ s.so.alen = 0 :=
    h.early (hstate ▸ hrecv) (hstate ▸ hdone)
  have hreceiving (hc : s.control = .receiving) : s.so.state = .DNS_SO_TCP_RECV ∧
      s.so.state ≠ .DNS_SO_TCP_DONE := by
    rw [h.receiving hc]
    decide
  generalize hc : s.control = c at ht
  cases ht with
  | raised hfails | retires _ hfails =>
    exact same rfl rfl rfl rfl rfl (absurd · hfails.ne_receiving) _ _ _
  | moves hrecv hdone _ hst =>
    have hdone' := hst.2.2.2.2
    exact unread (h.early hrecv hdone) rfl rfl rfl nofun hdone' _ _ _
  | trash hstate =>
    have hbefore := hzero hstate (by decide) (by decide)
    have hdone : s.so.state ≠ .DNS_SO_TCP_DONE := by
      rw [hstate]
      decide
    exact unread hbefore rfl rfl rfl nofun hdone _ _ _
  | accepts hstate | opens hstate =>
    have hbefore := hzero hstate (by decide) (by decide)
    exact unread hbefore rfl rfl rfl nofun nofun _ _ _
  | answered | sends | sent => exact same rfl rfl rfl rfl rfl nofun _ _ _
  | receives hstate => exact same rfl rfl rfl rfl rfl (fun _ => hstate) _ _ _
  | rejects _ hso hfails =>
    obtain rfl | ⟨olim, rfl⟩ := hso
    · exact same rfl rfl rfl rfl rfl (absurd · hfails.ne_receiving) _ _ _
    · exact same rfl rfl rfl rfl rfl (absurd · hfails.ne_receiving) _ _ _
  | done _ hso =>
    obtain rfl | ⟨olim, rfl⟩ := hso
    · exact same rfl rfl rfl rfl rfl nofun _ _ _
    · exact same rfl rfl rfl rfl rfl nofun _ _ _
  | whole =>
    have hearly {P : Prop} (hne : SoState.DNS_SO_TCP_RECV ≠ .DNS_SO_TCP_RECV) : P := absurd rfl hne
    exact keep rfl rfl rfl nofun hearly h.data nofun _ _ _
  | @piece A n hA hn hknown =>
    obtain ⟨hdata, hpadding⟩ := h.segment hA r.bytes n
    obtain ⟨hrecv, hdone⟩ := hreceiving hc
    rw [read_segment (n := n) rfl]
    have hmore : s.so.alen ≠ 0 → 2 ≤ s.so.apos + n ∧
        s.so.alen = be16 ((s.heard ++ bytesAt r.bytes 0 n).getD · 0) 0 := by
      intro halen
      obtain ⟨hpos, hbe⟩ := h.known halen
      have hlength : 2 ≤ s.heard.length := h.length.symm ▸ hpos
      have hsame {k : ℕ} (hk : k < 2) :
          (s.heard ++ bytesAt r.bytes 0 n).getD k 0 = s.heard.getD k 0 :=
        List.getD_append _ _ _ k (hk.trans_le hlength)
      exact ⟨Nat.le_trans hpos (Nat.le_add_right _ n),
        hbe.trans (be16_congr (hsame (by decide)).symm (hsame (by decide)).symm)⟩
    exact {
      receiving := fun _ => hrecv
      length := h.length_append
      early := fun hne => absurd hrecv hne
      le := hn
      padding := fun hlt => hpadding (Nat.lt_of_le_of_lt (Nat.le_add_right _ n) hlt)
      known := hmore
      data := hdata
      done := fun hd => absurd hd hdone }
  | @length A n so₁ hA hlt hn halen hnew =>
    obtain ⟨-, hpadding⟩ := h.segment hA r.bytes n
    obtain ⟨hrecv, hdone⟩ := hreceiving hc
    cases hnew
    rw [read_segment (n := n) rfl]
    exact {
      receiving := fun _ => hrecv
      length := h.length_append
      early := fun hne => absurd hrecv hne
      le := hn.trans_le (Nat.le_add_left 2 _)
      padding := fun hshort => absurd hshort (not_lt.mpr hn.ge)
      known := fun _ => ⟨hn.ge, be16_congr (hpadding hlt 0 (by omega)) (hpadding hlt 1 (by omega))⟩
      data := fun A' _ q hq => by
        change q + 2 < s.so.apos + n at hq
        omega
      done := fun hd => absurd hd hdone }
  | @starves A n c' hA hlt hn halen hfails =>
    obtain ⟨hdata, hpadding⟩ := h.segment hA r.bytes n
    obtain ⟨hrecv, hdone⟩ := hreceiving hc
    rw [read_segment (n := n) rfl]
    exact {
      receiving := fun hreceives => absurd hreceives hfails.ne_receiving
      length := h.length_append
      early := fun hne => absurd hrecv hne
      le := hn.trans_le (Nat.le_add_left 2 _)
      padding := fun _ => hpadding hlt
      known := fun hne => absurd halen hne
      data := hdata
      done := fun hd => absurd hd hdone }
  | ends hA hpos hle =>
    have hearly {P : Prop} (hne : SoState.DNS_SO_TCP_DONE ≠ .DNS_SO_TCP_DONE) : P := absurd rfl hne
    refine keep rfl rfl rfl nofun (fun _ => hearly) (fun A hA' q hq => ?_) (fun _ A hA' => ?_) _ _ _
    · cases hA'
      exact h.data _ hA q hq
    · cases hA'
      exact ⟨rfl, Nat.le_antisymm h.le hpos⟩

theorem Heard.blank (h : s.heard = [] ∧ s.control ≠ .receiving ∧ s.so.apos = 0 ∧ s.so.alen = 0 ∧
    s.so.state ≠ .DNS_SO_TCP_DONE) : Heard s := by
  obtain ⟨hheard, hcontrol, hapos, halen, hstate⟩ := h
  refine ⟨(absurd · hcontrol), by rw [hheard, hapos]; rfl, fun _ _ => ⟨hapos, halen⟩, by omega,
    fun _ k hk => absurd (hapos ▸ hk) (Nat.not_lt_zero k), (absurd halen ·), fun A _ q hq => ?_,
    (absurd · hstate)⟩
  omega

theorem heard_inductive : system.Inductive (fun _ _ => True) Heard where
  init := by
    rintro s ⟨udp, type, rfl⟩
    exact .blank ⟨rfl, nofun, rfl, rfl, nofun⟩
  step s a s' h _ hn := by
    cases steps_of_next hn with
    | asks hsubmit =>
      cases submit_cases hsubmit with
      | inl h => subst h; exact .blank ⟨rfl, nofun, rfl, rfl, nofun⟩
      | inr h =>
        obtain ⟨A, qlen, qname, qtype, qclass, state, -, -, -, hdone, rfl, -⟩ := h
        exact .blank ⟨rfl, nofun, rfl, rfl, hdone⟩
    | checks => exact ⟨nofun, h.length, h.early, h.le, h.padding, h.known, h.data, h.done⟩
    | turns ht => exact h.turns ht _ _ _
    | fetches => exact ⟨h.receiving, h.length, h.early, h.le, h.padding, h.known, nofun, nofun⟩
    | stays => exact h
    | resets => exact .blank ⟨rfl, nofun, rfl, rfl, nofun⟩
    | clears =>
      exact ⟨h.receiving, h.length, h.early, h.le, h.padding, h.known, h.data, h.done⟩
    | destroys => exact .blank ⟨rfl, nofun, rfl, rfl, nofun⟩

end Answer

section Fetch

/-- An answer answers the query: it has its id, and it repeats its question. One that was cut off
came over TCP, or the socket has no TCP. -/
structure Taken.Matches (x : Taken) (type : SoType) : Prop where
  id : Dns.qid x.answer = x.qid
  given : Dns.qid x.query ≠ 0 → x.qid = Dns.qid x.query
  count : 0 < dnsPCount x.answer 1
  asked : Dns.asked x.answer = Dns.asked x.query
  some : (Dns.asked x.answer).isSome
  whole : tc x.answer → x.overTcp ∨ type = .SOCK_DGRAM

/-- The query that an answer is for, and what `dns_so_verify` has said of the answer. -/
structure Verified (s : Exchange) : Prop where
  unset : s.so.state = .unset → s.so.query = none ∧ s.so.answer = none
  asks : s.so.state ≠ .unset → ∃ Q, s.submitted = some Q ∧ (qid Q ≠ 0 → s.so.qid = qid Q) ∧
    Asks s.so Q
  udp : s.so.state = .DNS_SO_UDP_DONE → ∀ A, s.so.answer = some A → dnsSoVerify s.so A = some none
  returned : s.control = .returned none → ∀ A, s.so.answer = some A →
    dnsSoVerify s.so A = some none ∧ (s.so.state = .DNS_SO_TCP_DONE ∧ 12 ≤ A.end_ ∨
      s.so.state = .DNS_SO_UDP_DONE ∧ (tc A = false ∨ s.so.type = .SOCK_DGRAM))

theorem Fails.ne_returned (h : Fails c) : c ≠ .returned none := by
  cases h with
  | inl h => exact fun hc => absurd (h.symm.trans hc) nofun
  | inr h =>
    obtain ⟨error, rfl⟩ := h
    nofun

theorem Verified.keep (h : Verified s) (hkept : Kept s.so so')
    (hunset : s.so.state = .unset → so'.state = .unset)
    (hempty : so'.state = .unset → so'.query = none ∧ so'.answer = none)
    (hudp : so'.state = .DNS_SO_UDP_DONE → ∀ A, so'.answer = some A →
      dnsSoVerify s.so A = some none)
    (hreturned : c' = .returned none → ∀ A, so'.answer = some A →
      dnsSoVerify s.so A = some none ∧ (so'.state = .DNS_SO_TCP_DONE ∧ 12 ≤ A.end_ ∨
        so'.state = .DNS_SO_UDP_DONE ∧ (tc A = false ∨ s.so.type = .SOCK_DGRAM)))
    (wire heard : List UInt8) (entered open_ : List ℕ) :
    Verified { s with so := so', control := c', wire, entered, heard, open_ } := by
  refine ⟨hempty, fun hstate => ?_, fun hstate A hA => ?_, fun hc A hA => ?_⟩
  · obtain ⟨Q, hQ, hid, hasks⟩ := h.asks (mt hunset hstate)
    exact ⟨Q, hQ, fun hne => hkept.qid.trans (hid hne), hkept.asks hasks⟩
  · exact (hkept.verify A).trans (hudp hstate A hA)
  · obtain ⟨hverify, hstate⟩ := hreturned hc A hA
    exact ⟨(hkept.verify A).trans hverify,
      hstate.imp_right fun hudp => ⟨hudp.1, hudp.2.imp_right hkept.type.trans⟩⟩

/-- A turn that leaves the state and the answer as they are. -/
theorem Verified.same (h : Verified s) (hkept : Kept s.so so') (hstate : so'.state = s.so.state)
    (hanswer : so'.answer = s.so.answer) (hc : c' ≠ .returned none) (wire heard : List UInt8)
    (entered open_ : List ℕ) :
    Verified { s with so := so', control := c', wire, entered, heard, open_ } := by
  have hempty : so'.state = .unset → so'.query = none ∧ so'.answer = none := by
    rw [hstate, hkept.query, hanswer]
    exact h.unset
  have hudp : so'.state = .DNS_SO_UDP_DONE → ∀ A, so'.answer = some A →
      dnsSoVerify s.so A = some none := by
    rw [hstate, hanswer]
    exact h.udp
  exact h.keep hkept hstate.trans hempty hudp (absurd · hc) wire heard entered open_

/-- A turn after which the call is not at its end, nor the answer verified. -/
theorem Verified.goesOn (h : Verified s) (hkept : Kept s.so so') (hset : s.so.state ≠ .unset)
    (hset' : so'.state ≠ .unset) (hudp : so'.state ≠ .DNS_SO_UDP_DONE) (hc : c' ≠ .returned none)
    (wire heard : List UInt8) (entered open_ : List ℕ) :
    Verified { s with so := so', control := c', wire, entered, heard, open_ } :=
  h.keep hkept (absurd · hset) (absurd · hset') (absurd · hudp) (absurd · hc) wire heard entered
    open_

theorem Verified.turns (h : Verified s) (ht : Turns r s.so s.control so' c')
    (hrecv : s.control = .receiving → s.so.state = .DNS_SO_TCP_RECV)
    (wire heard : List UInt8) (entered open_ : List ℕ) :
    Verified { s with so := so', control := c', wire, entered, heard, open_ } := by
  have hkept := ht.kept
  have keep := @Verified.keep so' c' s h hkept
  have same := @Verified.same so' c' s h hkept
  have goesOn := @Verified.goesOn so' c' s h hkept
  have hset {A : DnsPacket} (hA : s.so.answer = some A) : s.so.state ≠ .unset := fun hunset =>
    Option.some_ne_none A (hA.symm.trans (h.unset hunset).2)
  have hreceiving (hc : s.control = .receiving) : s.so.state ≠ .DNS_SO_UDP_DONE := by
    rw [hrecv hc]
    decide
  generalize hc : s.control = c at ht
  cases ht with
  | raised hfails => exact same rfl rfl hfails.ne_returned _ _ _ _
  | moves _ _ hunset hst =>
    obtain ⟨hunset', hudp, -⟩ := hst
    exact goesOn hunset hunset' hudp nofun _ _ _ _
  | trash hstate hA =>
    have hunset := hset hA
    have hudp : s.so.state ≠ .DNS_SO_UDP_DONE := by
      rw [hstate]
      decide
    exact goesOn hunset hunset hudp nofun _ _ _ _
  | @accepts A n hstate hA hverify =>
    have hunset := hset hA
    have hudp : ∀ A', some (datagram A r.bytes n) = some A' → dnsSoVerify s.so A' = some none :=
      fun A' hA' => Option.some.inj hA' ▸ hverify
    exact keep (absurd · hunset) nofun (fun _ => hudp) nofun _ _ _ _
  | answered hstate hA hwhole =>
    have hreturned : ∀ A', s.so.answer = some A' → dnsSoVerify s.so A' = some none ∧
        (s.so.state = .DNS_SO_TCP_DONE ∧ 12 ≤ A'.end_ ∨
          s.so.state = .DNS_SO_UDP_DONE ∧ (tc A' = false ∨ s.so.type = .SOCK_DGRAM)) := by
      intro A' hA'
      obtain rfl := Option.some.inj (hA.symm.trans hA')
      exact ⟨h.udp hstate _ hA, .inr ⟨hstate, hwhole⟩⟩
    exact keep id h.unset h.udp (fun _ => hreturned) _ _ _ _
  | opens hstate =>
    have hunset : s.so.state ≠ .unset := by
      rw [hstate]
      decide
    exact goesOn hunset nofun nofun nofun _ _ _ _
  | retires _ hfails => exact same rfl rfl hfails.ne_returned _ _ _ _
  | sends | receives | sent => exact same rfl rfl nofun _ _ _ _
  | rejects _ hso hfails =>
    obtain rfl | ⟨olim, rfl⟩ := hso
    · exact same rfl rfl hfails.ne_returned _ _ _ _
    · exact same rfl rfl hfails.ne_returned _ _ _ _
  | done hstate hso hA hend hverify =>
    have hdone : so'.state = .DNS_SO_TCP_DONE := by
      obtain rfl | ⟨olim, rfl⟩ := hso
      · exact hstate
      · exact hstate
    have hunset : s.so.state ≠ .unset := by
      rw [hstate]
      decide
    have hunset' : so'.state ≠ .unset := by
      rw [hdone]
      decide
    have hudp : so'.state ≠ .DNS_SO_UDP_DONE := by
      rw [hdone]
      decide
    have hreturned : ∀ A', so'.answer = some A' → dnsSoVerify s.so A' = some none ∧
        (so'.state = .DNS_SO_TCP_DONE ∧ 12 ≤ A'.end_ ∨
          so'.state = .DNS_SO_UDP_DONE ∧ (tc A' = false ∨ s.so.type = .SOCK_DGRAM)) := by
      intro A' hA'
      obtain rfl := Option.some.inj (hA.symm.trans hA')
      exact ⟨(hkept.verify _).symm.trans hverify, .inl ⟨hdone, hend⟩⟩
    exact keep (absurd · hunset) (absurd · hunset') (absurd · hudp) (fun _ => hreturned) _ _ _ _
  | @whole Q _ hQ =>
    have hunset : s.so.state ≠ .unset := fun hunset =>
      Option.some_ne_none Q (hQ.symm.trans (h.unset hunset).1)
    exact goesOn hunset nofun nofun nofun _ _ _ _
  | piece hA => exact goesOn (hset hA) (hset hA) (hreceiving hc) nofun _ _ _ _
  | length hA _ _ _ hnew =>
    cases hnew
    exact goesOn (hset hA) (hset hA) (hreceiving hc) nofun _ _ _ _
  | starves hA _ _ _ hfails =>
    exact goesOn (hset hA) (hset hA) (hreceiving hc) hfails.ne_returned _ _ _ _
  | ends hA => exact goesOn (hset hA) nofun nofun nofun _ _ _ _

theorem Verified.blank (hunset : s.so.state = .unset)
    (hempty : s.so.query = none ∧ s.so.answer = none) (hc : s.control = .out) : Verified s :=
  ⟨fun _ => hempty, (absurd hunset ·), fun hudp => absurd (hunset.symm.trans hudp) nofun,
    fun hret => absurd (hc.symm.trans hret) nofun⟩

theorem qid_withQid {mkqid : UInt16} (h : qid Q ≠ 0) : qid (withQid Q mkqid) = qid Q := by
  rw [withQid, if_neg h]

theorem Verified.fetch (h : Verified s) (hret : s.control = .returned none)
    (hA : s.so.answer = some A) (hQ : s.submitted = some Q) :
    Taken.Matches ⟨Q, s.so.qid, A, s.so.state = .DNS_SO_TCP_DONE⟩ s.so.type := by
  obtain ⟨hverify, hstate⟩ := h.returned hret A hA
  obtain ⟨Q', hQ', hid, hasks⟩ := h.asks (by
    intro hunset
    exact absurd (hA.symm.trans (h.unset hunset).2) nofun)
  cases hQ.symm.trans hQ'
  obtain ⟨hqid, hcount, -⟩ := dnsSoVerify_eq hverify
  obtain ⟨hasked, hsome⟩ := hasks.asked_eq hverify
  refine ⟨hqid.symm, hid, hcount, hasked, hsome, fun htc => ?_⟩
  cases hstate with
  | inl hdone => exact .inl (decide_eq_true hdone.1)
  | inr hudp => exact .inr (hudp.2.resolve_left fun hfalse => absurd (htc.symm.trans hfalse) nofun)

theorem verified_inductive : system.InductiveUnder (fun _ _ => True) Heard Verified where
  init := by
    rintro s ⟨udp, type, rfl⟩
    exact .blank rfl ⟨rfl, rfl⟩ rfl
  step s a s' hheard h _ hn := by
    cases steps_of_next hn with
    | @asks so' Q mkqid realloc error hsubmit =>
      cases submit_cases hsubmit with
      | inl hreset =>
        subst hreset
        exact .blank rfl ⟨rfl, rfl⟩ rfl
      | inr hset =>
        obtain ⟨A, qlen, qname, qtype, qclass, state, hunset, hudp, -, -, rfl, hasks⟩ := hset
        exact ⟨(absurd · hunset), fun _ => ⟨Q, rfl, qid_withQid, hasks⟩, (absurd · hudp), nofun⟩
    | checks => exact ⟨h.unset, h.asks, h.udp, nofun⟩
    | turns ht => exact h.turns ht hheard.receiving _ _ _ _
    | fetches => exact ⟨fun hunset => ⟨(h.unset hunset).1, rfl⟩, h.asks, nofun, nofun⟩
    | stays => exact h
    | resets => exact .blank rfl ⟨rfl, rfl⟩ rfl
    | clears => exact ⟨h.unset, h.asks, h.udp, h.returned⟩
    | destroys => exact .blank rfl ⟨rfl, rfl⟩ rfl

theorem verified (hs : system.Reachable s) : Verified s :=
  verified_inductive.holds (fun _ hu => heard_inductive.holds hu) hs

theorem fetched_inductive : system.InductiveUnder Guarded Verified
    (fun s => ∀ x ∈ s.taken, x.Matches s.so.type) where
  init := by
    rintro s ⟨udp, type, rfl⟩
    nofun
  step s a s' hverified h hok hn := by
    cases steps_of_next hn with
    | asks hsubmit =>
      cases submit_cases hsubmit with
      | inl hreset =>
        subst hreset
        exact h
      | inr hset =>
        obtain ⟨A, qlen, qname, qtype, qclass, state, -, -, -, -, rfl, -⟩ := hset
        exact h
    | checks => exact h
    | turns ht => exact fun x hx => ht.kept.type.symm ▸ h x hx
    | fetches _ hA hQ =>
      intro x hx
      cases List.mem_cons.mp hx with
      | inl hnew => exact hnew ▸ hverified.fetch hok hA hQ
      | inr hold => exact h x hold
    | stays => exact h
    | resets => exact h
    | clears => exact h
    | destroys => exact h

/-- The message comes in pieces, in two calls of `dns_so_check`. -/
def readRun : List SoAct :=
  let message := frame (withQid rootQuery 7)
  [answering (.ok 5) fun _ => 0, answering (.ok 0) fun _ => 0, answering (.ok 0) fun _ => 0,
   answering (.ok 19) fun _ => 0, answering (.ok 0) fun _ => 0, answering (.ok 0) fun _ => 0,
   answering (.ok 1) message, answering (.ok 1) fun k => message (1 + k),
   answering (.ok 10) fun k => message (2 + k), answering (.error .DNS_EAGAIN) fun _ => 0, .check,
   answering (.ok 0) fun _ => 0, answering (.ok 100) fun k => message (12 + k),
   answering (.ok 0) fun _ => 0]

/-- The end of a call over TCP. -/
theorem next_done {A : DnsPacket} (hcontrol : s.control = .switch)
    (hstate : s.so.state = .DNS_SO_TCP_DONE) (htype : s.so.type = .SOCK_STREAM)
    (hA : s.so.answer = some A) (hend : 12 ≤ A.end_) (hverify : dnsSoVerify s.so A = some none)
    (r : Reply) : Exchange.next s (.reply r) = some { s with control := .returned none } := by
  have hturn : turn r s.so s.control = some (s.so, .returned none) := by
    rw [hcontrol, turn, dnsSoSwitch, hstate]
    simp only [htype, if_true, hA, Option.bind_some]
    rw [if_neg (not_lt.mpr hend), hverify]
    rfl
  have hopened : Exchange.opened s.so s.so = [] := by
    refine if_neg ?_
    rintro ⟨hinit, -⟩
    rw [hstate] at hinit
    cases hinit
  rw [Exchange.next, hturn, Option.bind_some]
  simp only [hopened, written_of_eq rfl, read_of_eq rfl, List.append_nil, List.nil_append]
  exact if_pos fun fd hfd => absurd hfd List.not_mem_nil

/-- A run that has come to its answer over TCP. -/
theorem exists_answered : ∃ (s : Exchange) (A : DnsPacket), system.ReachableBy Guarded s ∧
    s.control = .returned none ∧ s.so.state = .DNS_SO_TCP_DONE ∧ s.so.answer = some A ∧
    A.end_ = 17 ∧ s.submitted = some rootQuery ∧ s.taken = [] := by
  let test : Exchange → SoAct → Bool := fun _ a => match a with
    | .fetch => false
    | _ => true
  obtain ⟨s, hrun⟩ := Option.isSome_iff_exists.mp
    (by decide : (system.runIf test (rootRun .SOCK_STREAM) readRun).isSome)
  have hs : system.ReachableBy Guarded s := by
    refine Transition.System.runIf_reachableBy (fun u a ha => ?_) (rootRun_reachable _) hrun
    cases a with
    | fetch => cases ha
    | _ => trivial
  obtain ⟨A, hA, hroot, hqid, hcontrol, hstate, htype, hverify, hQ, htaken⟩ : ∃ A,
      s.so.answer = some A ∧ AsksRoot A ∧ qid A = 7 ∧ s.control = .switch ∧
      s.so.state = .DNS_SO_TCP_DONE ∧ s.so.type = .SOCK_STREAM ∧
      dnsSoVerify s.so A = dnsSoVerify (rootSo .SOCK_STREAM) A ∧ s.submitted = some rootQuery ∧
      s.taken = [] := by
    cases hrun
    exact ⟨_, rfl, ⟨rfl, by decide, by decide, by decide, by decide⟩, by decide, rfl, rfl, rfl, rfl,
      rfl, rfl⟩
  have hn := next_done hcontrol hstate htype hA (by rw [hroot.end_]; decide)
    (hverify.trans (rootSo_verify _ hroot hqid)) ⟨.ok 0, fun _ => 0, false, none⟩
  exact ⟨_, A, hs.step (a := .reply _) trivial hn, rfl, hstate, hA, hroot.end_, hQ, htaken⟩

/-- Whatever arrives, and over whatever connections: an answer that is fetched has the id of its
query and repeats its question, and it was not cut off where TCP may be used. -/
theorem fetched_answers_match (hs : system.ReachableBy Guarded s) :
    ∀ x ∈ s.taken, x.Matches s.so.type :=
  fetched_inductive.holds (fun _ hu => verified hu.reachable) hs

theorem fetched_answers_match_root : ∃ s : Exchange, s.taken.length = 1 ∧
    ∀ x ∈ s.taken, x.Matches s.so.type := by
  obtain ⟨s, A, hs, hret, hstate, hA, -, hQ, htaken⟩ := exists_answered
  have hfetch : dnsSoFetch s.so = some (A, { s.so with answer := none }) := by
    unfold dnsSoFetch
    split
    next hudp => exact absurd (hstate.symm.trans hudp) nofun
    next => rw [hA]; rfl
    next _ hother => exact absurd hstate hother
  have hn : Exchange.next s .fetch = some { s with
      so := { s.so with answer := none }
      taken := [⟨rootQuery, s.so.qid, A, s.so.state = .DNS_SO_TCP_DONE⟩] } := by
    rw [Exchange.next, hret, hfetch, hQ, htaken]
    rfl
  have hguarded : Guarded s .fetch := hret
  exact ⟨_, rfl, fetched_answers_match (hs.step hguarded hn)⟩

/-- However the bytes arrive, and in however many calls: an answer over TCP is the message that the
bytes read since the query was submitted begin with, and nothing behind it has been read. A
connection that was kept over a reset goes on where it was, in the midst of a message perhaps. -/
theorem answer_off_the_wire (hs : system.Reachable s) (hret : s.control = .returned none)
    (htcp : s.so.state = .DNS_SO_TCP_DONE) (hA : s.so.answer = some A) :
    s.heard.length = A.end_ + 2 ∧ be16 (s.heard.getD · 0) 0 = A.end_ ∧
      bytesAt A.data 0 A.end_ = s.heard.drop 2 := by
  have h := heard_inductive.holds hs
  obtain ⟨hend, hapos⟩ := h.done htcp A hA
  have hmin : 12 ≤ A.end_ := by
    obtain ⟨-, hdone | hudp⟩ := (verified hs).returned hret A hA
    · exact hdone.2
    · exact absurd (htcp.symm.trans hudp.1) nofun
  have hlength : s.heard.length = A.end_ + 2 := by rw [h.length, hapos, hend]
  refine ⟨hlength, ?_, ?_⟩
  · rw [hend, ← (h.known (by omega)).2]
  · have hlengths : (bytesAt A.data 0 A.end_).length = (s.heard.drop 2).length := by
      rw [length_bytesAt, List.length_drop, hlength, Nat.add_sub_cancel]
    refine List.ext_getElem hlengths fun q hq hq' => ?_
    rw [length_bytesAt] at hq
    have hdata := h.data A hA q (by omega)
    rw [List.getD_eq_getElem _ _ (by omega)] at hdata
    simp [bytesAt, hdata, Nat.add_comm]

theorem answer_off_the_wire_pieces : ∃ (s : Exchange) (A : DnsPacket), A.end_ = 17 ∧
    s.heard.length = A.end_ + 2 ∧ be16 (s.heard.getD · 0) 0 = A.end_ ∧
      bytesAt A.data 0 A.end_ = s.heard.drop 2 := by
  obtain ⟨s, A, hs, hret, hstate, hA, hend, -, -⟩ := exists_answered
  exact ⟨s, A, hend, answer_off_the_wire hs.reachable hret hstate hA⟩

end Fetch

section Descriptors
open Exchange (opened)
variable {open_ fds rest : List ℕ}

theorem closeAll_perm (h : open_.Perm (fds ++ rest)) :
    ∃ open', closeAll open_ fds = some open' ∧ open'.Perm rest := by
  induction fds generalizing open_ with
  | nil => exact ⟨open_, rfl, h⟩
  | cons fd fds ih =>
    have hmem : fd ∈ open_ := h.mem_iff.mpr List.mem_cons_self
    obtain ⟨open', hclose, hperm⟩ := ih (h.erase fd |>.trans (by rw [List.cons_append,
      List.erase_cons_head]))
    exact ⟨open', by rw [closeAll, if_pos hmem, hclose], hperm⟩

theorem owned_retired (so : DnsSocket) (olim : ℕ) : (so.retired olim).owned.Perm so.owned := by
  have hcomm : (so.old ++ so.tcp.toList).Perm (so.tcp.toList ++ so.old) := List.perm_append_comm
  rw [DnsSocket.owned, DnsSocket.owned, List.append_assoc, List.append_assoc]
  exact hcomm.append_left _

/-- A turn that opens nothing. -/
theorem owned_keep (h : so'.state = .DNS_SO_TCP_CONN → so.state = .DNS_SO_TCP_CONN)
    (howned : so'.owned.Perm so.owned) : so'.owned.Perm (opened so so' ++ so.owned) := by
  rw [opened, if_neg fun hand => absurd (hand.1.symm.trans (h hand.2)) nofun]
  exact howned

/-- A turn keeps what is owned, and it owns what it opens. -/
theorem Turns.owned (h : Turns r so c so' c') : so'.owned.Perm (opened so so' ++ so.owned) := by
  cases h with
  | raised => exact owned_keep id (.refl _)
  | moves _ _ _ hst => exact owned_keep (absurd · hst.2.2.1) (.refl _)
  | trash => exact owned_keep id (.refl _)
  | accepts => exact owned_keep (by nofun) (.refl _)
  | answered => exact owned_keep id (.refl _)
  | @opens olim fd hstate =>
    rw [opened, if_pos ⟨hstate, rfl⟩]
    have hmiddle : (so.udp.toList ++ [fd] ++ (so.old ++ so.tcp.toList)).Perm
        (fd :: (so.udp.toList ++ (so.old ++ so.tcp.toList))) := by
      rw [List.append_assoc]
      exact List.perm_middle
    refine hmiddle.trans (List.Perm.cons fd ?_)
    rw [DnsSocket.owned, List.append_assoc]
    exact List.perm_append_comm.append_left _
  | retires => exact owned_keep id (owned_retired so _)
  | sends => exact owned_keep id (.refl _)
  | receives => exact owned_keep id (.refl _)
  | rejects _ hso =>
    obtain rfl | ⟨olim, rfl⟩ := hso
    · exact owned_keep id (.refl _)
    · exact owned_keep id (owned_retired so olim)
  | done _ hso =>
    obtain rfl | ⟨olim, rfl⟩ := hso
    · exact owned_keep id (.refl _)
    · exact owned_keep id (owned_retired so olim)
  | sent => exact owned_keep id (.refl _)
  | whole => exact owned_keep (by nofun) (.refl _)
  | piece => exact owned_keep id (.refl _)
  | length _ _ _ _ hnew =>
    cases hnew
    exact owned_keep id (.refl _)
  | starves => exact owned_keep id (.refl _)
  | ends => exact owned_keep (by nofun) (.refl _)

theorem opened_nodup (so so' : DnsSocket) : (opened so so').Nodup := by
  unfold opened
  split
  · cases so'.tcp with
    | none => exact List.nodup_nil
    | some fd => exact List.nodup_singleton fd
  · exact List.nodup_nil

theorem owned_inductive : system.Inductive (fun _ _ => True)
    (fun s => s.open_.Perm s.so.owned ∧ s.open_.Nodup) where
  init := by
    rintro s ⟨udp, type, rfl⟩
    exact ⟨.refl _, List.nodup_singleton udp⟩
  step s a s' h _ hn := by
    obtain ⟨hperm, hnodup⟩ := h
    cases steps_of_next hn with
    | asks hsubmit =>
      cases submit_cases hsubmit with
      | inl hreset =>
        subst hreset
        exact ⟨hperm, hnodup⟩
      | inr hset =>
        obtain ⟨A, qlen, qname, qtype, qclass, state, -, -, -, -, rfl, -⟩ := hset
        exact ⟨hperm, hnodup⟩
    | checks => exact ⟨hperm, hnodup⟩
    | turns ht hfresh =>
      exact ⟨(hperm.append_left _).trans ht.owned.symm,
        List.nodup_append.mpr ⟨opened_nodup _ _, hnodup, fun fd hfd fd' hfd' heq =>
          hfresh fd hfd (heq ▸ hfd')⟩⟩
    | fetches => exact ⟨hperm, hnodup⟩
    | stays => exact ⟨hperm, hnodup⟩
    | resets => exact ⟨hperm, hnodup⟩
    | @clears open_ hclose =>
      have hold : s.open_.Perm (s.so.old ++ (s.so.udp.toList ++ s.so.tcp.toList)) :=
        hperm.trans List.perm_append_comm
      obtain ⟨open', hclose', hrest⟩ := closeAll_perm hold
      cases hclose.symm.trans hclose'
      have howned : { s.so with old := [], olim := 0 }.owned = s.so.udp.toList ++ s.so.tcp.toList :=
        List.append_nil _
      have hkept := (List.nodup_append.mp (hold.nodup_iff.mp hnodup)).2.1
      exact ⟨howned ▸ hrest, hrest.nodup_iff.mpr hkept⟩
    | @destroys open_ hclose =>
      obtain ⟨open', hclose', hrest⟩ :=
        closeAll_perm (hperm.trans (.of_eq (List.append_nil _).symm))
      cases hclose.symm.trans hclose'
      exact ⟨hrest, hrest.nodup_iff.mpr List.nodup_nil⟩

/-- The descriptors that are open are those that the socket still knows, each of them once; closing
never fails, and leaves none behind. -/
theorem descriptors_owned_once (hs : system.Reachable s) :
    s.open_.Perm s.so.owned ∧ s.so.owned.Nodup ∧ (Exchange.Idle s.control →
      (∃ t, Exchange.next s .clear = some t) ∧
      ∃ t, Exchange.next s .destroy = some t ∧ t.open_ = []) := by
  obtain ⟨hperm, hnodup⟩ := owned_inductive.holds hs
  refine ⟨hperm, hperm.nodup_iff.mp hnodup, fun hidle => ⟨?_, ?_⟩⟩
  · obtain ⟨open', hclose, -⟩ := closeAll_perm (hperm.trans List.perm_append_comm)
    exact ⟨_, by rw [Exchange.next, if_pos hidle, hclose]; rfl⟩
  · obtain ⟨open', hclose, hrest⟩ := closeAll_perm (hperm.trans (.of_eq (List.append_nil _).symm))
    exact ⟨_, by rw [Exchange.next, if_pos hidle, hclose]; rfl, hrest.eq_nil⟩

theorem descriptors_owned_once_resumed : ∃ s : Exchange, s.open_ = [5, 3] ∧
    s.open_.Perm s.so.owned ∧ s.so.owned.Nodup ∧ (Exchange.Idle s.control →
      (∃ t, Exchange.next s .clear = some t) ∧
      ∃ t, Exchange.next s .destroy = some t ∧ t.open_ = []) := by
  obtain ⟨s, hrun⟩ := Option.isSome_iff_exists.mp
    (by decide : (system.run (rootRun .SOCK_STREAM) (sendRun.take 5)).isSome)
  have hs := Transition.System.run_reachable (rootRun_reachable .SOCK_STREAM).reachable hrun
  refine ⟨s, ?_, descriptors_owned_once hs⟩
  cases hrun
  rfl

end Descriptors

end Suil.Dns
