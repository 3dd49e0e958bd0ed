import Suil.Dns.Compressed

/-! One call of `dns_d_push`: what the new name spells, and that the dictionary still knows its
names. -/
namespace Suil.Dns

variable {lim len fuel t p n : ℕ} {l src : List UInt8} {ls bs : List (List UInt8)}
  {dst data data' : Bytes} {P : DnsPacket} {own own' : ℕ → Prop} {known : List (List UInt8) → Prop}
  {c c' d d' : ℕ}

theorem high_bits (h : len < 64) : lead (0xc0 ||| UInt8.ofNat len) = .pointer ∧
    (0x3f &&& (0xc0 ||| UInt8.ofNat len)).toNat = len := by
  have hall : ∀ k : Fin 64, lead (0xc0 ||| UInt8.ofNat k) = .pointer ∧
      (0x3f &&& (0xc0 ||| UInt8.ofNat k)).toNat = k := by decide
  exact hall ⟨len, h⟩

/-- Both bytes of a pointer, read back. -/
theorem target_putPointer (dst : Bytes) (p : ℕ) (ht : t ≤ 0x3fff) :
    lead (putPointer dst p t p) = .pointer ∧ target (putPointer dst p t) p = t := by
  have hhigh : 0x3f &&& t >>> 8 = t / 2 ^ 8 := by
    rw [Nat.shiftRight_eq_div_pow]
    exact low_six (by omega)
  have hlow : 0xff &&& t = t % 2 ^ 8 := by
    rw [Nat.and_comm]
    exact Nat.and_two_pow_sub_one_eq_mod t 8
  have hfirst : putPointer dst p t p = 0xc0 ||| UInt8.ofNat (t / 2 ^ 8) := by
    rw [putPointer, Function.update_of_ne (Nat.ne_of_lt (Nat.lt_succ_self p)), Function.update_self,
      hhigh]
  have hsecond : putPointer dst p t (p + 1) = UInt8.ofNat (t % 2 ^ 8) := by
    rw [putPointer, Function.update_self, hlow]
  obtain ⟨hlead, hbits⟩ := high_bits (by omega : t / 2 ^ 8 < 64)
  refine ⟨hfirst ▸ hlead, ?_⟩
  have hbyte : (0xff &&& UInt8.ofNat (t % 2 ^ 8)).toNat = t % 2 ^ 8 := by
    have hlt : t % 2 ^ 8 < UInt8.size := Nat.mod_lt t (Nat.two_pow_pos 8)
    rw [UInt8.toNat_and, UInt8.toNat_ofNat_of_lt' hlt, Nat.and_comm]
    exact (Nat.and_two_pow_sub_one_eq_mod _ 8).trans (Nat.mod_mod _ _)
  rw [target, hfirst, hsecond, hbits, hbyte,
    ← Nat.shiftLeft_add_eq_or_of_lt (Nat.mod_lt _ (Nat.two_pow_pos 8)), Nat.shiftLeft_eq]
  exact Nat.div_add_mod' t (2 ^ 8)

theorem putPointer_of_lt {q : ℕ} (h : q < p) : putPointer dst p t q = dst q := by
  rw [putPointer, Function.update_of_ne (by omega), Function.update_of_ne (by omega)]

/-- A position spells one name. -/
theorem Spells.unique (h : Spells data own d c p ls) (h' : Spells data own' d' c' p bs) : ls = bs := by
  induction h generalizing c' bs with
  | root _ hzero =>
    cases h' with
    | root => rfl
    | label hpos hlen _ hlead =>
      have hsame := lead_ofNat hlen
      rw [← hlead, hzero, lead_zero] at hsame
      injection hsame with hlength
      omega
    | pointer _ _ hlead =>
      rw [hzero, lead_zero] at hlead
      cases hlead
  | @label c p l ls hpos hlen _ hbyte hl _ ih =>
    cases h' with
    | root _ hzero =>
      have hsame := lead_ofNat hlen
      rw [← hbyte, hzero, lead_zero] at hsame
      injection hsame with hlength
      omega
    | @label _ _ l' ls' hpos' hlen' _ hbyte' hl' hrest' =>
      have hsame := lead_ofNat hlen
      rw [← hbyte, hbyte', lead_ofNat hlen'] at hsame
      injection hsame with hlength
      have hlabel : l = l' := by rw [← hl, ← hl', hlength]
      rw [hlength] at hrest'
      rw [hlabel, ih hrest']
    | pointer _ _ hlead =>
      rw [hbyte, lead_ofNat hlen] at hlead
      cases hlead
  | pointer _ _ hlead _ ih =>
    cases h' with
    | root _ hzero =>
      rw [hzero, lead_zero] at hlead
      cases hlead
    | label _ hlen _ hbyte =>
      rw [hbyte, lead_ofNat hlen] at hlead
      cases hlead
    | pointer _ _ _ hrest => exact ih hrest

/-- The bytes that `dns_d_comp` leaves in the buffer for a name: its labels, or the first of them
and a pointer. -/
inductive Packed (P : DnsPacket) (own : ℕ → Prop) (known : List (List UInt8) → Prop) (b : Bytes)
    (ls : List (List UInt8)) : ℕ → Prop
  | plain : bytesAt b 0 ((wireLabels ls).length + 1) = wireLabels ls ++ [0] →
      Packed P own known b ls ((wireLabels ls).length + 1)
  | pointer {pre rest bs : List (List UInt8)} {l : List UInt8} {t i : ℕ} : ls = pre ++ l :: rest →
      bytesAt b 0 (wireLabels pre).length = wireLabels pre →
      lead (b (wireLabels pre).length) = .pointer → target b (wireLabels pre).length = t →
      i < 16 → (∀ j ≤ i, ∀ e, P.dict[j]? = some e → e ≠ 0) → known bs →
      Found P own (2 * i + 1) (2 * i + 1) l rest bs t →
      Packed P own known b ls ((wireLabels pre).length + 2)

theorem length_le_wireLabels (ls : List (List UInt8)) : ls.length ≤ (wireLabels ls).length := by
  induction ls with
  | nil => exact Nat.le_refl 0
  | cons l ls ih =>
    rw [wireLabels_cons, List.length_append, List.length_cons, List.length_cons]
    omega

theorem dnsDComp_packed (dst : Bytes) (hw : Writes src ls) (hls : ∀ l ∈ ls, IsLabel l)
    (hdict : Knows P.data own known 0 P.dict) (hown : ∀ q, own q → q < P.end_)
    (hknown : ∀ bs, known bs → (∀ l ∈ bs, 0 ∉ l) ∧ bs.length + 1 ≤ fuel) (hfuel : lim ≤ fuel) :
    ∃ b n, dnsDComp fuel dst lim src P = some (b, n) ∧ 1 ≤ n ∧
      (n ≤ lim → ls.length < lim ∧ Packed P own known b ls n) := by
  have hcount := length_le_wireLabels ls
  obtain ⟨b, hlast, hholds⟩ := dnsDCompLast_eq lim hw hls dst
  rw [dnsDComp, hlast]
  simp only []
  by_cases hroom : (wireLabels ls).length + 1 < lim
  · have hbytes := hholds.2 (Nat.le_of_lt hroom)
    rw [bytesAt_add] at hbytes
    obtain ⟨hlabels, hroot⟩ := List.append_inj hbytes length_bytesAt
    have hzero : b (0 + (wireLabels ls).length) = 0 := (List.cons.inj hroot).1
    have has : Spells b (· < lim) 0 0 0 (ls ++ []) :=
      .prepend (fun l hl => ⟨(hls l hl).pos, (hls l hl).le⟩) hlabels
        (fun q _ hq => by omega) (.root (by omega) hzero) (Nat.le_refl 0) fun _ => Nat.le_refl 0
    rw [List.append_nil] at has
    obtain ⟨res, hcompress, hres⟩ := compressFrom_spec (n := fuel) has hdict hown
      (fun l hl => (hls l hl).no_nul) hknown (by omega) (by omega)
    rw [if_pos hroom, hcompress]
    cases res with
    | none => exact ⟨b, _, rfl, by omega, fun hn => ⟨by omega, .plain (hholds.2 hn)⟩⟩
    | some r =>
      obtain ⟨pre, l, rest, t, hsplit, _, hr, i, hi, hbefore, bs, hbs, hfound⟩ := hres r rfl
      rw [Nat.zero_add] at hr
      refine ⟨r.1, r.2, rfl, by rw [hr]; omega, fun _ => ?_⟩
      obtain ⟨hlead, htarget⟩ := target_putPointer b (wireLabels pre).length hfound.1
      rw [hr]
      refine ⟨by omega, .pointer hsplit ?_ hlead htarget hi hbefore hbs hfound⟩
      have hpre : wireLabels ls = wireLabels pre ++ wireLabels (l :: rest) := by
        rw [hsplit, wireLabels, List.flatMap_append]
        rfl
      rw [bytesAt_congr fun k hk => putPointer_of_lt (by omega)]
      rw [hpre, List.length_append, bytesAt_add] at hlabels
      exact (List.append_inj hlabels length_bytesAt).1
  · exact ⟨b, _, if_neg hroom, by omega, fun hn => ⟨by omega, .plain (hholds.2 hn)⟩⟩

theorem pointer_bits (b : UInt8) : 0xc0 = 0xc0 &&& b ↔ lead b = .pointer := by
  have hall : ∀ k : Fin 256, 0xc0 = 0xc0 &&& UInt8.ofNat k ↔ lead (UInt8.ofNat k) = .pointer := by
    decide +kernel
  have hb := hall ⟨b.toNat, b.toNat_lt⟩
  rwa [UInt8.ofNat_toNat] at hb

/-- Labels are passed over, and so is what the walk stops at. -/
theorem dictSlot_of_ne {dn lp : ℕ} (hlt : lp < P.end_) (hlead : lead (P.data lp) ≠ .pointer ∨ lp = dn) :
    dictSlot P dn lp = dictSlot P dn (dnsLSkip P.data P.end_ lp) := by
  rw [dictSlot, if_pos hlt, if_neg]
  intro h
  cases hlead with
  | inl hne => exact hne ((pointer_bits _).mp h.1)
  | inr heq => exact h.2.2 heq

theorem dictSlot_end {dn : ℕ} : dictSlot P dn P.end_ = none := by
  rw [dictSlot, if_neg (Nat.lt_irrefl _)]

theorem dictSlot_labels {pre : List (List UInt8)} {dn : ℕ}
    (hpre : ∀ l ∈ pre, 1 ≤ l.length ∧ l.length ≤ 63)
    (hbytes : bytesAt P.data p (wireLabels pre).length = wireLabels pre)
    (hend : p + (wireLabels pre).length ≤ P.end_) :
    dictSlot P dn p = dictSlot P dn (p + (wireLabels pre).length) := by
  induction pre generalizing p with
  | nil => rfl
  | cons l pre ih =>
    have hlength : (wireLabels (l :: pre)).length = 1 + l.length + (wireLabels pre).length := by
      rw [wireLabels_cons, List.length_append, List.length_cons, Nat.add_comm 1]
    rw [hlength] at hend
    rw [hlength, bytesAt_add, Nat.add_comm 1, bytesAt_succ, wireLabels_cons] at hbytes
    obtain ⟨hfirst, hrest⟩ := List.append_inj hbytes (by
      rw [List.length_cons, List.length_cons, length_bytesAt])
    have hbyte : P.data p = UInt8.ofNat l.length := (List.cons.inj hfirst).1
    have hwf := hpre l List.mem_cons_self
    have hlead : lead (P.data p) = .follows l.length := by rw [hbyte, lead_ofNat hwf.2]
    have hskip : dnsLSkip P.data P.end_ p = p + (l.length + 1) := by
      rw [dnsLSkip, if_neg (by omega), hlead]
      simp only []
      rw [if_neg (by omega), if_pos (by omega)]
      omega
    rw [dictSlot_of_ne (by omega) (.inl (by rw [hlead]; exact Lead.noConfusion)), hskip,
      ih (fun l' hl' => hpre l' (List.mem_cons_of_mem l hl')) hrest (by omega), hlength]
    congr 1
    omega

/-- Which slot the name takes over: the one that its pointer leads to, if labels stand before it. -/
theorem dictSlot_plain {dn : ℕ} (hpre : ∀ l ∈ ls, 1 ≤ l.length ∧ l.length ≤ 63)
    (hbytes : bytesAt P.data dn ((wireLabels ls).length + 1) = wireLabels ls ++ [0])
    (hend : dn + (wireLabels ls).length + 1 = P.end_) : dictSlot P dn dn = none := by
  rw [bytesAt_add] at hbytes
  obtain ⟨hlabels, hroot⟩ := List.append_inj hbytes length_bytesAt
  have hzero : P.data (dn + (wireLabels ls).length) = 0 := (List.cons.inj hroot).1
  have hskip : dnsLSkip P.data P.end_ (dn + (wireLabels ls).length) = P.end_ := by
    rw [dnsLSkip, if_neg (by omega), hzero, lead_zero]
    simp only []
    rw [if_neg (by omega), if_neg (by omega)]
  rw [dictSlot_labels hpre hlabels (by omega), dictSlot_of_ne (by omega) (.inl (by
    rw [hzero, lead_zero]; exact Lead.noConfusion)), hskip, dictSlot_end]

theorem dictSlot_pointer {pre : List (List UInt8)} {dn : ℕ}
    (hpre : ∀ l ∈ pre, 1 ≤ l.length ∧ l.length ≤ 63)
    (hbytes : bytesAt P.data dn (wireLabels pre).length = wireLabels pre)
    (hlead : lead (P.data (dn + (wireLabels pre).length)) = .pointer)
    (hend : dn + (wireLabels pre).length + 2 = P.end_) :
    dictSlot P dn dn = if pre = [] then none
      else slotOf (target P.data (dn + (wireLabels pre).length)) P.dict := by
  have hskip : dnsLSkip P.data P.end_ (dn + (wireLabels pre).length) = P.end_ := by
    rw [dnsLSkip, if_neg (by omega), hlead]
  rw [dictSlot_labels hpre hbytes (by omega)]
  by_cases hnil : pre = []
  · rw [if_pos hnil, dictSlot_of_ne (by omega) (.inr (by rw [hnil]; rfl)), hskip, dictSlot_end]
  · have hpos : 0 < (wireLabels pre).length := by
      obtain ⟨l, pre', rfl⟩ := List.exists_cons_of_ne_nil hnil
      exact Nat.succ_pos _
    rw [if_neg hnil, dictSlot, if_pos (by omega), if_pos ⟨(pointer_bits _).mpr hlead, by omega,
      by omega⟩, hskip, dictSlot_end]
    cases slotOf (target P.data (dn + (wireLabels pre).length)) P.dict <;> rfl

theorem slotOf_eq_some {dict : List ℕ} {i : ℕ} (h : slotOf t dict = some i) :
    dict[i]? = some t ∧ t ≠ 0 := by
  induction dict generalizing i with
  | nil => cases h
  | cons e dict ih =>
    rw [slotOf] at h
    by_cases hzero : e = 0
    · rw [if_pos hzero] at h
      cases h
    · rw [if_neg hzero] at h
      by_cases heq : e = t
      · rw [if_pos heq] at h
        rw [← Option.some.inj h, ← heq]
        exact ⟨rfl, hzero⟩
      · rw [if_neg heq] at h
        obtain ⟨i', hi', rfl⟩ := Option.map_eq_some_iff.mp h
        exact ih hi'

/-- The slots up to a name in use are all before the first free one. -/
theorem lt_idxOf_zero {dict : List ℕ} {i : ℕ} (hi : i < dict.length)
    (h : ∀ j ≤ i, ∀ e, dict[j]? = some e → e ≠ 0) : i < dict.idxOf 0 := by
  by_contra hle
  have hlt : dict.idxOf 0 < dict.length := by omega
  exact h _ (Nat.le_of_not_lt hle) 0
    (List.getElem?_eq_some_iff.mpr ⟨hlt, List.getElem_idxOf hlt⟩) rfl

theorem Knows.set {dict : List ℕ} {k dn : ℕ} {known' : List (List UInt8) → Prop}
    (h : Knows data own known 0 dict) (hknown : ∀ bs, known bs → known' bs) (hls : known' ls)
    (hspells : k < dict.length → Spells data own (2 * k + 1) (2 * k) dn ls) :
    Knows data own known' 0 (dict.set k dn) := fun i e he hne => by
  rw [List.getElem?_set] at he
  by_cases hki : k = i
  · rw [if_pos hki] at he
    obtain ⟨hlt, hdn⟩ := Option.ite_none_right_eq_some.mp he
    rw [← hki, ← Option.some.inj hdn, Nat.zero_add]
    exact ⟨ls, hls, hspells hlt⟩
  · rw [if_neg hki] at he
    exact (h i e he hne).imp fun bs hbs => ⟨hknown bs hbs.1, hbs.2⟩

theorem Knows.frame {k : ℕ} {dict : List ℕ} (h : Knows data own known k dict)
    (hown : ∀ q, own q → own' q ∧ data' q = data q) : Knows data' own' known k dict :=
  fun i e he hne => (h i e he hne).imp fun _ hbs => ⟨hbs.1, hbs.2.frame hown⟩

theorem bytesAt_withBuffer (dp i : ℕ) :
    bytesAt (withBuffer data dp dst) (dp + i) len = bytesAt dst i len :=
  List.map_congr_left fun k _ => by
    rw [withBuffer, if_neg (by omega)]
    congr 1
    omega

theorem withBuffer_add (dp i : ℕ) : withBuffer data dp dst (dp + i) = dst i := by
  rw [withBuffer, if_neg (by omega), Nat.add_sub_cancel_left]

theorem target_withBuffer (dp i : ℕ) : target (withBuffer data dp dst) (dp + i) = target dst i := by
  rw [target, Nat.add_assoc, withBuffer_add, withBuffer_add, target]

/-- What a pushed name comes back as: itself, or with a suffix of a known name in the place of its
own, where only the first label of that may differ and is one of its own labels, too. -/
def Near (known : List (List UInt8) → Prop) (ls ls' : List (List UInt8)) : Prop :=
  ls' = ls ∨ ∃ pre l rest a bs bs', ls = pre ++ l :: rest ∧ ls' = pre ++ bs' ∧ a ∈ l :: rest ∧
    lower bs' = lower (a :: rest) ∧ known bs ∧ bs' <:+ bs

theorem dnsPDictadd_set (P : DnsPacket) (dn : ℕ) : (dnsPDictadd P dn).dict =
    P.dict.set ((dictSlot P dn dn).getD (P.dict.idxOf 0)) dn := by
  rw [dnsPDictadd]
  cases dictSlot P dn dn <;> rfl

theorem dnsPDictadd_data (P : DnsPacket) (dn : ℕ) : (dnsPDictadd P dn).data = P.data ∧
    (dnsPDictadd P dn).end_ = P.end_ ∧ (dnsPDictadd P dn).size = P.size := by
  rw [dnsPDictadd]
  cases dictSlot P dn dn <;> exact ⟨rfl, rfl, rfl⟩

/-- The packet behind a name that fits, and its dictionary. -/
theorem Packed.spells {b : Bytes} (h : Packed P own known b ls n) (hls : ∀ l ∈ ls, IsLabel l)
    (hdict : Knows P.data own known 0 P.dict) (hown : ∀ q, own q → q < P.end_)
    (hend : P.end_ + n ≤ P.size) :
    let P' : DnsPacket :=
      { P with end_ := P.end_ + n, data := withBuffer P.data P.end_ b, end_le := hend }
    let own' := fun q => own q ∨ P.end_ ≤ q ∧ q < P.end_ + n
    ∃ ls', Near known ls ls' ∧ Spells P'.data own' 33 32 P.end_ ls' ∧
      Knows P'.data own' (fun bs => known bs ∨ bs = ls') 0 (dnsPDictadd P' P.end_).dict := by
  intro P' own'
  have hframe : ∀ q, own q → own' q ∧ P'.data q = P.data q := fun q hq =>
    ⟨.inl hq, if_pos (hown q hq)⟩
  have hdict' := hdict.frame hframe
  have hstart : ∀ len, bytesAt P'.data P.end_ len = bytesAt b 0 len := fun len =>
    bytesAt_withBuffer P.end_ 0
  cases h with
  | plain hbytes =>
    have hlabels := hbytes
    rw [bytesAt_add] at hlabels
    obtain ⟨hlabels, hroot⟩ := List.append_inj hlabels length_bytesAt
    have hzero : P'.data (P.end_ + (wireLabels ls).length) = 0 :=
      (withBuffer_add P.end_ _).trans ((congrArg b (Nat.zero_add _)).symm.trans (List.cons.inj hroot).1)
    have hroot : ∀ d, Spells P'.data own' d 0 (P.end_ + (wireLabels ls).length) [] := fun d =>
      .root (.inr ⟨by omega, by omega⟩) hzero
    have hspells : ∀ d c, Spells P'.data own' d c P.end_ (ls ++ []) := fun d c =>
      .prepend (fun l hl => ⟨(hls l hl).pos, (hls l hl).le⟩) ((hstart _).trans hlabels)
        (fun q hq hq' => .inr ⟨hq, by omega⟩) (hroot d) (Nat.zero_le d) fun _ => Nat.zero_le c
    rw [List.append_nil] at hspells
    refine ⟨ls, .inl rfl, hspells 33 32, ?_⟩
    have hslot : dictSlot P' P.end_ P.end_ = none :=
      dictSlot_plain (fun l hl => ⟨(hls l hl).pos, (hls l hl).le⟩) ((hstart _).trans hbytes)
        (Nat.add_assoc _ _ _)
    rw [dnsPDictadd_set, hslot]
    exact hdict'.set (fun _ => .inl) (.inr rfl) fun _ => hspells _ _
  | @pointer pre rest bs l t i hsplit hbytes hlead htarget hi hbefore hbs hfound =>
    obtain ⟨_, bs', hsuffix, htspells, a, ha, hlower⟩ := hfound
    have hpre : ∀ l ∈ pre, 1 ≤ l.length ∧ l.length ≤ 63 := fun l hl => by
      have hmem : l ∈ ls := hsplit ▸ List.mem_append_left _ hl
      exact ⟨(hls l hmem).pos, (hls l hmem).le⟩
    have hlead' : lead (P'.data (P.end_ + (wireLabels pre).length)) = .pointer :=
      (congrArg lead (withBuffer_add P.end_ _)).trans hlead
    have htarget' : target P'.data (P.end_ + (wireLabels pre).length) = t :=
      (target_withBuffer P.end_ _).trans htarget
    -- the name, if so many pointers are allowed on the way to what it points to
    have hname : ∀ {d c c₀}, Spells P'.data own' d c₀ t bs' → c₀ + 1 ≤ d →
        (pre = [] → c₀ + 1 ≤ c) → Spells P'.data own' d c P.end_ (pre ++ bs') :=
      fun hs hd hc => .prepend hpre ((hstart _).trans hbytes)
        (fun q hq hq' => .inr ⟨hq, by omega⟩) (.pointer (.inr ⟨by omega, by omega⟩)
          (.inr ⟨by omega, by omega⟩) hlead' (htarget'.symm ▸ hs)) hd hc
    have hnext : Spells P'.data own' (2 * (i + 1) + 1) (2 * (i + 1)) P.end_ (pre ++ bs') :=
      hname ((htspells.frame hframe).mono (by omega) (Nat.le_refl _)) (by omega) fun _ => by omega
    refine ⟨pre ++ bs', .inr ⟨pre, l, rest, a, bs, bs', hsplit, rfl, ha, hlower.symm, hbs, hsuffix⟩,
      hnext.mono (by omega) (by omega), ?_⟩
    rw [dnsPDictadd_set]
    refine hdict'.set (fun _ => .inl) (.inr rfl) fun hlt => ?_
    have hslot : dictSlot P' P.end_ P.end_ = if pre = [] then none else slotOf t P.dict :=
      (dictSlot_pointer hpre ((hstart _).trans hbytes) hlead' (Nat.add_assoc _ _ _)).trans (by
        rw [htarget'])
    have hfree : Spells P'.data own' (2 * P.dict.idxOf 0 + 1) (2 * P.dict.idxOf 0) P.end_
        (pre ++ bs') := by
      have hlt := lt_idxOf_zero (P.dict_length ▸ hi) hbefore
      exact hnext.mono (by omega) (by omega)
    by_cases hnil : pre = []
    · rw [hslot, if_pos hnil]
      exact hfree
    · rw [hslot, if_neg hnil]
      cases hsome : slotOf t P.dict with
      | none => exact hfree
      | some k =>
        obtain ⟨hk, hne⟩ := slotOf_eq_some hsome
        obtain ⟨bs₀, _, hspells₀⟩ := hdict k t hk hne
        rw [hspells₀.unique htspells, Nat.zero_add] at hspells₀
        exact hname (hspells₀.frame hframe) (Nat.le_refl _) fun h => absurd h hnil

theorem withBuffer_of_lt {dp q : ℕ} (h : q < dp) : withBuffer data dp dst q = data q := if_pos h

/-- A name that is well formed goes in, or there is no room for it and the packet stays as it is up
to its end. -/
theorem dnsDPush_spec (hw : Writes src ls) (hls : ∀ l ∈ ls, IsLabel l)
    (hdict : Knows P.data own known 0 P.dict) (hown : ∀ q, own q → q < P.end_)
    (hknown : ∀ bs, known bs → (∀ l ∈ bs, 0 ∉ l) ∧ bs.length + 1 ≤ fuel) (hfuel : P.size ≤ fuel) :
    ∃ e P', dnsDPush fuel P src = some (e, P') ∧ P'.size = P.size ∧
      (∀ q < P.end_, P'.data q = P.data q) ∧
      ((e = some .DNS_ENOBUFS ∧ P'.end_ = P.end_ ∧ P'.dict = P.dict) ∨
        e = none ∧ P.end_ < P'.end_ ∧ ls.length < P.size ∧ ∃ ls', Near known ls ls' ∧
          Spells P'.data (fun q => own q ∨ P.end_ ≤ q ∧ q < P'.end_) 33 32 P.end_ ls' ∧
          Knows P'.data (fun q => own q ∨ P.end_ ≤ q ∧ q < P'.end_)
            (fun bs => known bs ∨ bs = ls') 0 P'.dict) := by
  have hend := P.end_le
  obtain ⟨b, n, hcomp, hpos, hpacked⟩ := dnsDComp_packed (fun i => P.data (P.end_ + i)) hw hls
    hdict hown hknown (by omega : P.size - P.end_ ≤ fuel)
  rw [dnsDPush, hcomp, Option.map_some]
  simp only []
  rw [if_neg (by omega)]
  by_cases hroom : n > P.size - P.end_
  · rw [dif_pos hroom]
    exact ⟨_, _, rfl, rfl, fun q hq => withBuffer_of_lt hq, .inl ⟨rfl, rfl, rfl⟩⟩
  · rw [dif_neg hroom]
    obtain ⟨hcount, hpacked⟩ := hpacked (Nat.le_of_not_lt hroom)
    have hfits : P.end_ + n ≤ P.size := by omega
    obtain ⟨ls', hnear, hspells, hknows⟩ := hpacked.spells hls hdict hown hfits
    let P' : DnsPacket :=
      { P with end_ := P.end_ + n, data := withBuffer P.data P.end_ b, end_le := hfits }
    obtain ⟨hdata, hend', hsize⟩ := dnsPDictadd_data P' P.end_
    refine ⟨_, _, rfl, hsize, fun q hq => ?_, .inr ⟨rfl, ?_, by omega, ls', hnear, ?_, ?_⟩⟩
    · rw [hdata]
      exact withBuffer_of_lt hq
    · rw [hend']
      exact Nat.lt_add_of_pos_right hpos
    · rw [hdata, hend']
      exact hspells
    · rw [hdata, hend']
      exact hknows

end Suil.Dns
