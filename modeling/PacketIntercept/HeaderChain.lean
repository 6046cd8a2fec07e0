import PacketIntercept.FrameGrammar

namespace PacketIntercept.HeaderChain

open ByteMemory Common CheckedLoads ParsingHelpers XdpSockProg FrameGrammar

inductive Helper
  | ethhdr
  | ip6hdr
  | iphdr
  | icmp6hdr
  | icmphdr
  | icmphdrCommon
  | udphdr
  | tcphdr
  deriving DecidableEq

def call (f : Frame) (pos : Nat) : Helper → Option Parsed
  | .ethhdr => parseEthhdr f pos
  | .ip6hdr => parseIp6hdr f pos
  | .iphdr => parseIphdr f pos
  | .icmp6hdr => parseIcmp6hdr f pos
  | .icmphdr => parseIcmphdr f pos
  | .icmphdrCommon => parseIcmphdrCommon f pos
  | .udphdr => parseUdphdr f pos
  | .tcphdr => parseTcphdr f pos

inductive Verdict
  | outOfCalls
  | rejected
  | accepted (hdrs : List Parsed)
  deriving DecidableEq

/-- A parser made of the helpers on one cursor. Which helper comes next, if
any, depends on what the calls so far returned; a negative result ends it. -/
def chain (f : Frame) (next : List Int → Option Helper) :
    Nat → Nat → List Int → List Parsed → Option Verdict
  | 0, _, _, _ => some .outOfCalls
  | fuel + 1, pos, seen, hdrs =>
      match next seen with
      | none => some (.accepted hdrs)
      | some k => do
          let p ← call f pos k
          if p.ret < 0 then pure .rejected
          else chain f next fuel p.pos (seen ++ [p.ret]) (hdrs ++ [p])

/-- The byte strings each helper takes for its header. Where the Ethernet
header ends depends on what follows it: a tag is only skipped when it is
complete. -/
def IsHeader : Helper → Frame → Frame → Prop
  | .ethhdr, h, rest => ∃ t, t ≤ vlanMaxDepth ∧ h.length = 14 + 4 * t ∧
      (∀ j, j < t → IsVlan (be16 (bytes h) (12 + 4 * j))) ∧
      (t = vlanMaxDepth ∨ ¬ IsVlan (be16 (bytes h) (12 + 4 * t)) ∨ rest.length < 4)
  | .ip6hdr, h, _ => h.length = 40
  | .iphdr, h, _ => 20 ≤ h.length ∧ h.length = 4 * ((bytes h 0).toNat % 16)
  | .icmp6hdr, h, _ => h.length = 8
  | .icmphdr, h, _ => h.length = 8
  | .icmphdrCommon, h, _ => h.length = 4
  | .udphdr, h, _ => h.length = 8 ∧ 8 ≤ be16 (bytes h) 4
  | .tcphdr, h, _ => 20 ≤ h.length ∧ h.length = 4 * ((bytes h 12).toNat / 16)

/-- What the header says about itself or what follows: the EtherType as it
stands in memory, the next protocol, the type, or a length. -/
def contents : Helper → Frame → Nat
  | .ethhdr, h => leNat (bytes h) (h.length - 2) 2
  | .ip6hdr, h => (bytes h 6).toNat
  | .iphdr, h => (bytes h 9).toNat
  | .icmp6hdr, h => (bytes h 0).toNat
  | .icmphdr, h => (bytes h 0).toNat
  | .icmphdrCommon, h => (bytes h 0).toNat
  | .udphdr, h => be16 (bytes h) 4 - 8
  | .tcphdr, h => h.length

theorem isHeader_length {k : Helper} {h rest : Frame} (hh : IsHeader k h rest) : 4 ≤ h.length := by
  cases k with
  | ethhdr =>
      obtain ⟨t, -, hl, -, -⟩ := hh
      omega
  | ip6hdr =>
      have hl : h.length = 40 := hh
      omega
  | iphdr =>
      have hl := hh.1
      omega
  | icmp6hdr =>
      have hl : h.length = 8 := hh
      omega
  | icmphdr =>
      have hl : h.length = 8 := hh
      omega
  | icmphdrCommon =>
      have hl : h.length = 4 := hh
      omega
  | udphdr =>
      have hl := hh.1
      omega
  | tcphdr =>
      have hl := hh.1
      omega

section At

variable {f h rest : Frame} {pos : Nat}

theorem length_of_drop (hpos : pos ≤ f.length) (hd : f.drop pos = h ++ rest) :
    f.length = pos + h.length + rest.length := by
  have hl := congrArg List.length hd
  rw [List.length_drop, List.length_append] at hl
  omega

theorem drop_header (hpos : pos ≤ f.length) (hd : f.drop pos = h ++ rest) :
    pos + h.length ≤ f.length ∧ f.drop (pos + h.length) = rest := by
  have hf := length_of_drop hpos hd
  exact ⟨by omega, by rw [← List.drop_drop, hd, List.drop_left]⟩

theorem bytes_of_drop (hd : f.drop pos = h ++ rest) {i : Nat} (hi : i < h.length) :
    bytes f (pos + i) = bytes h i := by
  have hb := bytes_append_left h rest hi
  rw [← hd] at hb
  rw [← hb, bytes, bytes, List.getD_eq_getElem?_getD, List.getD_eq_getElem?_getD, List.getElem?_drop]

theorem be16_of_drop (hd : f.drop pos = h ++ rest) {i : Nat} (hi : i + 2 ≤ h.length) :
    be16 (bytes f) (pos + i) = be16 (bytes h) i := by
  rw [be16, be16, bytes_of_drop hd (i := i) (by omega), Nat.add_assoc,
    bytes_of_drop hd (i := i + 1) (by omega)]

theorem leNat_of_drop (hd : f.drop pos = h ++ rest) {i w : Nat} (hi : i + w ≤ h.length) :
    leNat (bytes f) (pos + i) w = leNat (bytes h) i w := by
  apply leNat_congr
  intro j hj
  rw [Nat.add_assoc, bytes_of_drop hd (i := i + j) (by omega)]

theorem exists_drop {n : Nat} (hn : pos + n ≤ f.length) :
    ∃ h rest, f.drop pos = h ++ rest ∧ h.length = n ∧ f.length = pos + n + rest.length := by
  refine ⟨(f.drop pos).take n, (f.drop pos).drop n, (List.take_append_drop n _).symm, ?_, ?_⟩
  · rw [List.length_take, List.length_drop]
    omega
  · rw [List.length_drop, List.length_drop]
    omega

end At

/-- A helper refuses when no header of its kind starts at the cursor; otherwise
it returns the contents and moves the cursor behind the header. -/
def Decides (f : Frame) (pos : Nat) (k : Helper) : Prop :=
  (∃ p, call f pos k = some p ∧ p.ret = -1 ∧
    ∀ h rest, f.drop pos = h ++ rest → ¬ IsHeader k h rest) ∨
  ∃ h rest, f.drop pos = h ++ rest ∧ IsHeader k h rest ∧
    call f pos k = some ⟨contents k h, pos + h.length, pos⟩

theorem refuses {f : Frame} {pos : Nat} {k : Helper} (hcall : call f pos k = some ⟨-1, pos, pos⟩)
    (hno : ∀ h rest, f.drop pos = h ++ rest → ¬ IsHeader k h rest) : Decides f pos k :=
  .inl ⟨_, hcall, rfl, hno⟩

section Calls

variable (f : Frame) {pos : Nat} (hpos : pos ≤ f.length)
include hpos

theorem decides_fixed {k : Helper} {size typeAt : Nat} (ht : typeAt < size)
    (hcall : call f pos k = parseFixed f size typeAt pos)
    (hk : ∀ h rest, IsHeader k h rest ↔ h.length = size)
    (hc : ∀ h, contents k h = (bytes h typeAt).toNat) : Decides f pos k := by
  by_cases hl : pos + size ≤ f.length
  · right
    obtain ⟨h, rest, hd, hn, -⟩ := exists_drop hl
    refine ⟨h, rest, hd, (hk h rest).mpr hn, ?_⟩
    have hng : ¬ (pos + size > f.length) := by omega
    rw [hcall, hc, hn, parseFixed, if_neg hng, load_one f _ (by omega), bytes_of_drop hd (by omega)]
    rfl
  · apply refuses
    · rw [hcall, parseFixed, if_pos (by omega)]
    · intro h rest hd hh
      have hf := length_of_drop hpos hd
      have hn := (hk h rest).mp hh
      omega

theorem decides_iphdr : Decides f pos .iphdr := by
  by_cases hl : pos + 20 ≤ f.length
  · have hng : ¬ (pos + 20 > f.length) := by omega
    have hcall : call f pos .iphdr = if (bytes f pos).toNat % 16 * 4 < 20 then some ⟨-1, pos, pos⟩
        else if pos + (bytes f pos).toNat % 16 * 4 > f.length then some ⟨-1, pos, pos⟩
        else some ⟨(bytes f (pos + 9)).toNat, pos + (bytes f pos).toNat % 16 * 4, pos⟩ := by
      rw [call, parseIphdr, if_neg hng, load_one f pos (by omega), load_one f (pos + 9) (by omega)]
      rfl
    by_cases hs : 20 ≤ (bytes f pos).toNat % 16 * 4 ∧ pos + (bytes f pos).toNat % 16 * 4 ≤ f.length
    · right
      obtain ⟨h, rest, hd, hn, -⟩ := exists_drop hs.2
      have h0 : bytes f pos = bytes h 0 := bytes_of_drop hd (i := 0) (by omega)
      refine ⟨h, rest, hd, ⟨by omega, by rw [← h0]; omega⟩, ?_⟩
      rw [hcall, if_neg (by omega), if_neg (by omega), contents, hn,
        bytes_of_drop hd (i := 9) (by omega)]
    · apply refuses
      · rw [hcall]
        split
        · rfl
        · rw [if_pos (by omega)]
      · intro h rest hd hh
        have hf := length_of_drop hpos hd
        have h0 : bytes f pos = bytes h 0 := bytes_of_drop hd (i := 0) (by have := hh.1; omega)
        have h20 := hh.1
        have hn := hh.2
        rw [← h0] at hn
        omega
  · apply refuses
    · rw [call, parseIphdr, if_pos (by omega)]
    · intro h rest hd hh
      have hf := length_of_drop hpos hd
      have h20 := hh.1
      omega

theorem decides_tcphdr : Decides f pos .tcphdr := by
  by_cases hl : pos + 20 ≤ f.length
  · have hng : ¬ (pos + 20 > f.length) := by omega
    have hcall : call f pos .tcphdr = if (bytes f (pos + 12)).toNat / 16 * 4 < 20
        then some ⟨-1, pos, pos⟩
        else if pos + (bytes f (pos + 12)).toNat / 16 * 4 > f.length then some ⟨-1, pos, pos⟩
        else some ⟨((bytes f (pos + 12)).toNat / 16 * 4 : Nat),
          pos + (bytes f (pos + 12)).toNat / 16 * 4, pos⟩ := by
      rw [call, parseTcphdr, if_neg hng, load_one f (pos + 12) (by omega)]
      rfl
    by_cases hs : 20 ≤ (bytes f (pos + 12)).toNat / 16 * 4 ∧
        pos + (bytes f (pos + 12)).toNat / 16 * 4 ≤ f.length
    · right
      obtain ⟨h, rest, hd, hn, -⟩ := exists_drop hs.2
      have h12 : bytes f (pos + 12) = bytes h 12 := bytes_of_drop hd (by omega)
      refine ⟨h, rest, hd, ⟨by omega, by rw [← h12]; omega⟩, ?_⟩
      rw [hcall, if_neg (by omega), if_neg (by omega), contents, hn]
    · apply refuses
      · rw [hcall]
        split
        · rfl
        · rw [if_pos (by omega)]
      · intro h rest hd hh
        have hf := length_of_drop hpos hd
        have h20 := hh.1
        have hn := hh.2
        rw [← bytes_of_drop hd (i := 12) (by omega)] at hn
        omega
  · apply refuses
    · rw [call, parseTcphdr, if_pos (by omega)]
    · intro h rest hd hh
      have hf := length_of_drop hpos hd
      have h20 := hh.1
      omega

theorem decides_udphdr : Decides f pos .udphdr := by
  by_cases hl : pos + 8 ≤ f.length
  · obtain ⟨h, rest, hd, hn, -⟩ := exists_drop hl
    have hcall := parseUdphdr_eq f pos hl
    rw [be16_of_drop hd (by omega)] at hcall
    by_cases h8 : 8 ≤ be16 (bytes h) 4
    · right
      refine ⟨h, rest, hd, ⟨hn, h8⟩, ?_⟩
      rw [call, hcall, udpDataLen_of_ge h8 (be16_lt _ _),
        if_neg (Int.not_lt.mpr (Int.natCast_nonneg _)), contents, hn]
    · left
      rw [if_pos (udpDataLen_neg (by omega))] at hcall
      refine ⟨_, hcall, rfl, ?_⟩
      intro h' rest' hd' hh
      have hb := be16_of_drop hd' (i := 4) (by have := hh.1; omega)
      rw [be16_of_drop hd (by omega)] at hb
      have hge := hh.2
      omega
  · apply refuses
    · rw [call, parseUdphdr, if_pos (by omega)]
    · intro h rest hd hh
      have hf := length_of_drop hpos hd
      have hn := hh.1
      omega

theorem decides_ethhdr : Decides f pos .ethhdr := by
  by_cases hl : pos + 14 ≤ f.length
  · right
    obtain ⟨t, ht, hr, htags, hin, hexit⟩ := vlanLoop_spec f vlanMaxDepth (pos + 12) (by omega) []
    obtain ⟨h, rest, hd, hn, hf⟩ := exists_drop (show pos + (14 + 4 * t) ≤ f.length by omega)
    have hbe : ∀ j, j ≤ t → be16 (bytes f) (pos + 12 + 4 * j) = be16 (bytes h) (12 + 4 * j) := by
      intro j hj
      rw [Nat.add_assoc, be16_of_drop hd (by omega)]
    refine ⟨h, rest, hd, ⟨t, ht, hn, ?_, ?_⟩, ?_⟩
    · intro j hj
      rw [← hbe j (by omega)]
      exact (htags j hj).1
    · rw [← hbe t le_rfl]
      rcases hexit with he | he | he
      · exact .inl he
      · exact .inr (.inl he)
      · exact .inr (.inr (by omega))
    · have hng : ¬ (pos + 14 > f.length) := by omega
      have hcall : call f pos .ethhdr =
          some ⟨leNat (bytes f) (pos + 12 + 4 * t) 2, pos + 12 + 2 + 4 * t, pos⟩ := by
        simp only [call, parseEthhdr, parseEthhdrVlan, hng, if_false,
          load_eq f (pos + 12) 2 (by omega), Option.bind_eq_bind, Option.bind_some]
        rw [show pos + 14 = pos + 12 + 2 by omega, hr]
        rfl
      rw [hcall, contents, hn, show 14 + 4 * t - 2 = 12 + 4 * t by omega,
        ← leNat_of_drop hd (by omega), show pos + (12 + 4 * t) = pos + 12 + 4 * t by omega,
        show pos + (14 + 4 * t) = pos + 12 + 2 + 4 * t by omega]
  · apply refuses
    · rw [call, parseEthhdr, parseEthhdrVlan, if_pos (by omega)]
      rfl
    · intro h rest hd hh
      obtain ⟨t, -, hn, -, -⟩ := hh
      have hf := length_of_drop hpos hd
      omega

theorem decides (k : Helper) : Decides f pos k := by
  cases k with
  | ethhdr => exact decides_ethhdr f hpos
  | ip6hdr => exact decides_fixed f hpos (by decide) rfl (fun _ _ => Iff.rfl) (fun _ => rfl)
  | iphdr => exact decides_iphdr f hpos
  | icmp6hdr => exact decides_fixed f hpos (by decide) rfl (fun _ _ => Iff.rfl) (fun _ => rfl)
  | icmphdr => exact decides_fixed f hpos (by decide) rfl (fun _ _ => Iff.rfl) (fun _ => rfl)
  | icmphdrCommon => exact decides_fixed f hpos (by decide) rfl (fun _ _ => Iff.rfl) (fun _ => rfl)
  | udphdr => exact decides_udphdr f hpos
  | tcphdr => exact decides_tcphdr f hpos

end Calls

theorem isHeader_unique {k : Helper} {h h' rest rest' : Frame} (hh : IsHeader k h rest)
    (hh' : IsHeader k h' rest') (he : h ++ rest = h' ++ rest') : h = h' := by
  have hd : (h ++ rest).drop 0 = h' ++ rest' := he
  have hn := isHeader_length hh
  have hn' := isHeader_length hh'
  have hbytes : ∀ i, i < h.length → i < h'.length → bytes h i = bytes h' i := by
    intro i hi hi'
    rw [← bytes_append_left h rest hi, ← bytes_append_left h' rest' hi', he]
  suffices hl : h.length = h'.length from (List.append_inj he hl).1
  cases k with
  | ethhdr =>
      obtain ⟨t, ht, hl, htags, hexit⟩ := hh
      obtain ⟨t', ht', hl', htags', hexit'⟩ := hh'
      have hlen := congrArg List.length he
      rw [List.length_append, List.length_append] at hlen
      have hbe : ∀ j, j ≤ t → j ≤ t' →
          be16 (bytes h) (12 + 4 * j) = be16 (bytes h') (12 + 4 * j) := by
        intro j hj hj'
        rw [be16, be16, hbytes _ (by omega) (by omega), hbytes _ (by omega) (by omega)]
      -- the one that stops earlier stops at a complete tag of the other
      rcases Nat.lt_trichotomy t t' with hlt | heq | hgt
      · have hv := htags' t hlt
        rw [← hbe t le_rfl (by omega)] at hv
        rcases hexit with hx | hx | hx
        · omega
        · exact absurd hv hx
        · omega
      · omega
      · have hv := htags t' hgt
        rw [hbe t' (by omega) le_rfl] at hv
        rcases hexit' with hx | hx | hx
        · omega
        · exact absurd hv hx
        · omega
  | ip6hdr => exact Eq.trans hh (Eq.symm hh')
  | iphdr => rw [hh.2, hh'.2, hbytes 0 (by omega) (by omega)]
  | icmp6hdr => exact Eq.trans hh (Eq.symm hh')
  | icmphdr => exact Eq.trans hh (Eq.symm hh')
  | icmphdrCommon => exact Eq.trans hh (Eq.symm hh')
  | udphdr => rw [hh.1, hh'.1]
  | tcphdr =>
      have h20 := hh.1
      have h20' := hh'.1
      rw [hh.2, hh'.2, hbytes 12 (by omega) (by omega)]

/-- The headers that stand from pos on, before rest, in the order the parser
asks for them, with what it learns from each. -/
inductive Reads (next : List Int → Option Helper) :
    List Int → Nat → List Frame → Frame → List Parsed → Prop
  | done {seen : List Int} {pos : Nat} {rest : Frame} (hn : next seen = none) :
      Reads next seen pos [] rest []
  | header {seen : List Int} {pos : Nat} {k : Helper} {h rest : Frame} {hs : List Frame}
      {ps : List Parsed} (hn : next seen = some k) (hh : IsHeader k h (hs.flatten ++ rest))
      (hr : Reads next (seen ++ [(contents k h : Int)]) (pos + h.length) hs rest ps) :
      Reads next seen pos (h :: hs) rest (⟨contents k h, pos + h.length, pos⟩ :: ps)

variable {next : List Int → Option Helper}

theorem reads_unique {seen : List Int} {pos : Nat} {hs hs' : List Frame} {rest rest' : Frame}
    {ps ps' : List Parsed} (hr : Reads next seen pos hs rest ps)
    (hr' : Reads next seen pos hs' rest' ps') (he : hs.flatten ++ rest = hs'.flatten ++ rest') :
    hs = hs' ∧ ps = ps' := by
  induction hr generalizing hs' ps' with
  | done hn =>
      cases hr' with
      | done _ => exact ⟨rfl, rfl⟩
      | header hn' _ _ =>
          rw [hn] at hn'
          cases hn'
  | @header seen pos k h rest hs ps hn hh _ ih =>
      cases hr' with
      | done hn' =>
          rw [hn] at hn'
          cases hn'
      | @header _ _ k' h' _ hs' ps' hn' hh' hr' =>
          obtain rfl : k = k' := Option.some.inj (hn.symm.trans hn')
          rw [List.flatten_cons, List.flatten_cons, List.append_assoc, List.append_assoc] at he
          obtain rfl : h = h' := isHeader_unique hh hh' he
          obtain ⟨rfl, rfl⟩ := ih hr' (List.append_cancel_left he)
          exact ⟨rfl, rfl⟩

/-- Each header takes at least four bytes, so the calls run out after the frame. -/
theorem chain_spec (f : Frame) (fuel pos : Nat) (seen : List Int) (hdrs : List Parsed)
    (hpos : pos ≤ f.length) (hfuel : f.length < pos + 4 * fuel) :
    (chain f next fuel pos seen hdrs = some .rejected ∧
      ∀ hs rest ps, f.drop pos = hs.flatten ++ rest → ¬ Reads next seen pos hs rest ps) ∨
    ∃ hs rest ps, f.drop pos = hs.flatten ++ rest ∧ Reads next seen pos hs rest ps ∧
      chain f next fuel pos seen hdrs = some (.accepted (hdrs ++ ps)) := by
  induction fuel generalizing pos seen hdrs with
  | zero => omega
  | succ fuel ih =>
      cases hn : next seen with
      | none =>
          right
          refine ⟨[], f.drop pos, [], rfl, .done hn, ?_⟩
          rw [chain, hn, List.append_nil]
      | some k =>
          rcases decides f hpos k with ⟨p, hcall, hneg, hno⟩ | ⟨h, rest, hd, hh, hcall⟩
          · left
            constructor
            · rw [chain, hn]
              simp only [hcall, Option.bind_eq_bind, Option.bind_some, hneg]
              rfl
            · intro hs rest ps hd hr
              cases hr with
              | done hn' =>
                  rw [hn] at hn'
                  cases hn'
              | @header _ _ k' h _ hs ps hn' hh hr =>
                  obtain rfl : k = k' := Option.some.inj (hn.symm.trans hn')
                  rw [List.flatten_cons, List.append_assoc] at hd
                  exact hno h _ hd hh
          · have hf := length_of_drop hpos hd
            have h4 := isHeader_length hh
            have hd' := (drop_header hpos hd).2
            have hstep : chain f next (fuel + 1) pos seen hdrs = chain f next fuel (pos + h.length)
                (seen ++ [(contents k h : Int)])
                (hdrs ++ [⟨contents k h, pos + h.length, pos⟩]) := by
              rw [chain, hn]
              simp only [hcall, Option.bind_eq_bind, Option.bind_some,
                Int.not_lt.mpr (Int.natCast_nonneg _), if_false]
            rcases ih (pos + h.length) (seen ++ [(contents k h : Int)])
              (hdrs ++ [⟨contents k h, pos + h.length, pos⟩]) (by omega) (by omega) with
              ⟨hrej, hno⟩ | ⟨hs, rest', ps, hds, hr, hacc⟩
            · left
              refine ⟨hstep.trans hrej, ?_⟩
              intro hs rest' ps hds hr
              cases hr with
              | done hn' =>
                  rw [hn] at hn'
                  cases hn'
              | @header _ _ k' h' _ hs ps hn' hh' hr =>
                  obtain rfl : k = k' := Option.some.inj (hn.symm.trans hn')
                  rw [List.flatten_cons, List.append_assoc] at hds
                  have he := hd.symm.trans hds
                  obtain rfl : h = h' := isHeader_unique hh hh' he
                  exact hno hs rest' ps (hd'.trans (List.append_cancel_left he)) hr
            · right
              refine ⟨h :: hs, rest', ⟨contents k h, pos + h.length, pos⟩ :: ps, ?_, ?_, ?_⟩
              · rw [List.flatten_cons, List.append_assoc, ← hds, hd', hd]
              · refine .header hn ?_ hr
                rwa [← hds, hd']
              · rw [hstep, hacc, List.append_assoc]
                rfl

/-- Every parser built from the helpers makes at most one call for each four
bytes and one more, never reads outside the frame, and accepts exactly the
frames that start with the headers it asks for; those headers are unique. -/
theorem chain_accepts_headers (f : Frame) (next : List Int → Option Helper) :
    ∃ v, chain f next (f.length / 4 + 1) 0 [] [] = some v ∧ v ≠ .outOfCalls ∧
      (∀ ps, v = .accepted ps ↔
        ∃ hs rest, f = hs.flatten ++ rest ∧ Reads next [] 0 hs rest ps) ∧
      ∀ hs rest ps hs' rest' ps', f = hs.flatten ++ rest → Reads next [] 0 hs rest ps →
        f = hs'.flatten ++ rest' → Reads next [] 0 hs' rest' ps' → hs = hs' := by
  have huniq : ∀ hs rest ps hs' rest' ps', f = hs.flatten ++ rest → Reads next [] 0 hs rest ps →
      f = hs'.flatten ++ rest' → Reads next [] 0 hs' rest' ps' → hs = hs' ∧ ps = ps' := by
    intro hs rest ps hs' rest' ps' hd hr hd' hr'
    exact reads_unique hr hr' (hd.symm.trans hd')
  have hs' := fun hs rest ps hs' rest' ps' hd hr hd' hr' =>
    (huniq hs rest ps hs' rest' ps' hd hr hd' hr').1
  rcases @chain_spec next f (f.length / 4 + 1) 0 [] [] (Nat.zero_le _) (by omega) with
    ⟨hrej, hno⟩ | ⟨hs, rest, ps, hd, hr, hacc⟩
  · refine ⟨.rejected, hrej, Verdict.noConfusion, ?_, hs'⟩
    intro ps
    constructor
    · intro he
      cases he
    · rintro ⟨hs, rest, hd, hr⟩
      exact absurd hr (hno hs rest ps hd)
  · refine ⟨.accepted ps, hacc, Verdict.noConfusion, ?_, hs'⟩
    intro ps'
    constructor
    · intro he
      cases he
      exact ⟨hs, rest, hd, hr⟩
    · rintro ⟨hs', rest', hd', hr'⟩
      rw [(huniq hs rest ps hs' rest' ps' hd hr hd' hr').2]

theorem header_of_call {f : Frame} {pos : Nat} {k : Helper} {p : Parsed} (hpos : pos ≤ f.length)
    (hcall : call f pos k = some p) (hp : p.ret ≠ -1) :
    ∃ h rest, f.drop pos = h ++ rest ∧ IsHeader k h rest ∧ p = ⟨contents k h, pos + h.length, pos⟩ := by
  rcases decides f hpos k with ⟨p', hcall', hneg, -⟩ | ⟨h, rest, hd, hh, hcall'⟩
  · rw [hcall] at hcall'
    cases hcall'
    exact absurd hneg hp
  · rw [hcall] at hcall'
    exact ⟨h, rest, hd, hh, Option.some.inj hcall'⟩

theorem call_of_isHeader {f h rest : Frame} {pos : Nat} {k : Helper} (hpos : pos ≤ f.length)
    (hd : f.drop pos = h ++ rest) (hh : IsHeader k h rest) :
    call f pos k = some ⟨contents k h, pos + h.length, pos⟩ := by
  rcases decides f hpos k with ⟨p, -, -, hno⟩ | ⟨h', rest', hd', hh', hcall⟩
  · exact absurd hh (hno h rest hd)
  · rwa [isHeader_unique hh hh' (hd.symm.trans hd')]

/-- The helper xdp_sock_prog calls next, given what its calls returned. -/
def xdpNext : List Int → Option Helper
  | [] => some .ethhdr
  | [ethType] => if ethType = htons ethPIp then some .iphdr else none
  | [_, ipType] => if ipType = ipprotoUdp then some .udphdr else none
  | _ => none

theorem xdpNext_ip {ethType : Int} {k : Helper} (h : xdpNext [ethType] = some k) :
    ethType = htons ethPIp ∧ k = .iphdr := by
  rw [xdpNext] at h
  split at h
  · next he => exact ⟨he, (Option.some.inj h).symm⟩
  · cases h

theorem xdpNext_udp {ethType ipType : Int} {k : Helper} (h : xdpNext [ethType, ipType] = some k) :
    ipType = ipprotoUdp ∧ k = .udphdr := by
  rw [xdpNext] at h
  split at h
  · next he => exact ⟨he, (Option.some.inj h).symm⟩
  · cases h

theorem parseHeaders_calls (f : Frame) (udp : Parsed) :
    parseHeaders f = some (some udp) ↔
      ∃ eth ip, call f 0 .ethhdr = some eth ∧ eth.ret = htons ethPIp ∧
        call f eth.pos .iphdr = some ip ∧ ip.ret = ipprotoUdp ∧
        call f ip.pos .udphdr = some udp ∧ toSizeT udp.ret = sizeofPayload ∧
        load f (udp.hdr + 2) 2 = some (htons destPort) := by
  constructor
  · intro h
    simp only [parseHeaders, Option.bind_eq_bind, Option.bind_eq_some_iff] at h
    obtain ⟨eth, heth, h⟩ := h
    by_cases he : eth.ret = htons ethPIp
    · rw [if_neg (not_not.mpr he), Option.bind_eq_some_iff] at h
      obtain ⟨ip, hip, h⟩ := h
      by_cases hi : ip.ret = ipprotoUdp
      · rw [if_neg (not_not.mpr hi), Option.bind_eq_some_iff] at h
        obtain ⟨udp', hudp, h⟩ := h
        by_cases hs : toSizeT udp'.ret = sizeofPayload
        · rw [if_neg (not_not.mpr hs), Option.bind_eq_some_iff] at h
          obtain ⟨dest, hdest, h⟩ := h
          by_cases hd : dest = htons destPort
          · rw [if_neg (not_not.mpr hd)] at h
            cases h
            exact ⟨eth, ip, heth, he, hip, hi, hudp, hs, hd ▸ hdest⟩
          · rw [if_pos hd] at h
            cases h
        · rw [if_pos hs] at h
          cases h
      · rw [if_pos hi] at h
        cases h
    · rw [if_pos he] at h
      cases h
  · rintro ⟨eth, ip, heth, he, hip, hi, hudp, hs, hd⟩
    simp only [call] at heth hip hudp
    simp only [parseHeaders, heth, hip, hudp, hd, Option.bind_eq_bind, Option.bind_some, he, hi, hs,
      ne_eq, not_true_eq_false, if_false]
    rfl

theorem reads_xdpNext {hs : List Frame} {rest : Frame} {eth ip udp : Parsed}
    (hr : Reads xdpNext [] 0 hs rest [eth, ip, udp]) :
    ∃ h1 h2 h3, hs = [h1, h2, h3] ∧
      IsHeader .ethhdr h1 ([h2, h3].flatten ++ rest) ∧ (contents .ethhdr h1 : Int) = htons ethPIp ∧
      IsHeader .iphdr h2 ([h3].flatten ++ rest) ∧ (contents .iphdr h2 : Int) = ipprotoUdp ∧
      IsHeader .udphdr h3 ([].flatten ++ rest) ∧
      eth = ⟨contents .ethhdr h1, 0 + h1.length, 0⟩ ∧
      ip = ⟨contents .iphdr h2, 0 + h1.length + h2.length, 0 + h1.length⟩ ∧
      udp = ⟨contents .udphdr h3, 0 + h1.length + h2.length + h3.length,
        0 + h1.length + h2.length⟩ := by
  cases hr with
  | header hn1 hh1 hr =>
      cases hn1
      cases hr with
      | header hn2 hh2 hr =>
          obtain ⟨he, rfl⟩ := xdpNext_ip hn2
          cases hr with
          | header hn3 hh3 hr =>
              obtain ⟨hi, rfl⟩ := xdpNext_udp hn3
              cases hr with
              | done => exact ⟨_, _, _, rfl, hh1, he, hh2, hi, hh3, rfl, rfl, rfl⟩

/-- xdp_sock_prog is such a parser: it goes on to the payload exactly when the
frame starts with the three headers its calls ask for and the UDP header gives
the payload's length and the port. -/
theorem parseHeaders_iff_reads (f : Frame) (udp : Parsed) :
    parseHeaders f = some (some udp) ↔
      ∃ hs rest eth ip, f = hs.flatten ++ rest ∧ Reads xdpNext [] 0 hs rest [eth, ip, udp] ∧
        udp.ret = sizeofPayload ∧ be16 (bytes f) (udp.hdr + 2) = destPort := by
  rw [parseHeaders_calls]
  constructor
  · rintro ⟨eth, ip, heth, he, hip, hi, hudp, hs, hdest⟩
    obtain ⟨h1, rest1, hd1, hh1, rfl⟩ := header_of_call (Nat.zero_le _) heth (by rw [he]; decide)
    have hpos1 := drop_header (Nat.zero_le _) hd1
    obtain ⟨h2, rest2, hd2, hh2, rfl⟩ := header_of_call hpos1.1 hip (by rw [hi]; decide)
    have hpos2 := drop_header hpos1.1 hd2
    have hne : udp.ret ≠ -1 := by
      intro hneg
      rw [hneg] at hs
      exact toSizeT_neg_one hs
    obtain ⟨h3, rest3, hd3, hh3, rfl⟩ := header_of_call hpos2.1 hudp hne
    have hpos3 := drop_header hpos2.1 hd3
    obtain rfl : rest1 = h2 ++ rest2 := hpos1.2.symm.trans hd2
    obtain rfl : rest2 = h3 ++ rest3 := hpos2.2.symm.trans hd3
    dsimp only at he hi hs hdest ⊢
    refine ⟨[h1, h2, h3], rest3, _, _, ?_, .header rfl ?_ (.header (if_pos he) ?_
      (.header (if_pos hi) ?_ (.done rfl))), ?_, ?_⟩
    · simpa using hd1
    · simpa using hh1
    · simpa using hh2
    · simpa using hh3
    · have hlt : contents .udphdr h3 < 2 ^ 64 :=
        lt_of_le_of_lt (Nat.sub_le _ _) (lt_trans (be16_lt _ _) (by decide))
      rw [toSizeT_natCast hlt] at hs
      exact congrArg Nat.cast hs
    · have h8 := hh3.1
      rw [load_eq f _ 2 (by omega)] at hdest
      exact (leNat_two_eq_htons _ _ destPort (by decide)).mp (Option.some.inj hdest)
  · rintro ⟨hs, rest, eth, ip, hf, hr, hret, hdest⟩
    obtain ⟨h1, h2, h3, rfl, hh1, he, hh2, hi, hh3, rfl, rfl, rfl⟩ := reads_xdpNext hr
    have hd1 : f.drop 0 = h1 ++ ([h2, h3].flatten ++ rest) := by
      rw [hf, List.drop_zero, List.flatten_cons, List.append_assoc]
    obtain ⟨hpos1, hd2⟩ := drop_header (Nat.zero_le _) hd1
    rw [List.flatten_cons, List.append_assoc] at hd2
    obtain ⟨hpos2, hd3⟩ := drop_header hpos1 hd2
    rw [List.flatten_cons, List.append_assoc] at hd3
    obtain ⟨hpos3, -⟩ := drop_header hpos2 hd3
    dsimp only at hret hdest
    refine ⟨_, _, call_of_isHeader (Nat.zero_le _) hd1 hh1, he, call_of_isHeader hpos1 hd2 hh2, hi,
      call_of_isHeader hpos2 hd3 hh3, ?_, ?_⟩
    · dsimp only
      rw [hret]
      exact toSizeT_natCast (by decide)
    · have h8 := hh3.1
      rw [load_eq f _ 2 (by dsimp only; omega)]
      exact congrArg some ((leNat_two_eq_htons _ _ destPort (by decide)).mpr hdest)

end PacketIntercept.HeaderChain
