import PacketIntercept.XdpSockProg

namespace PacketIntercept.FrameGrammar

open ByteMemory Common CheckedLoads ParsingHelpers XdpSockProg

def ihl (f : Frame) (pos : Nat) : Nat := (bytes f pos).toNat % 16

structure IpHeader (f : Frame) (pos : Nat) : Prop where
  fixed : pos + 20 ≤ f.length
  ihl_ge : 5 ≤ ihl f pos
  options : pos + 4 * ihl f pos ≤ f.length
  protocol : (bytes f (pos + 9)).toNat = ipprotoUdp

/-- A complete UDP header at pos for a datagram that holds one struct Payload. -/
structure UdpHeader (f : Frame) (pos : Nat) : Prop where
  fixed : pos + 8 ≤ f.length
  len : be16 (bytes f) (pos + 4) = 8 + sizeofPayload

structure Datagram (f : Frame) (tags : Nat) : Prop where
  ipv4 : be16 (bytes f) (12 + 4 * tags) = ethPIp
  ip : IpHeader f (14 + 4 * tags)
  udp : UdpHeader f (14 + 4 * tags + 4 * ihl f (14 + 4 * tags))
  dest : be16 (bytes f) (14 + 4 * tags + 4 * ihl f (14 + 4 * tags) + 2) = destPort

structure Headers (f : Frame) (tags : Nat) : Prop extends Datagram f tags where
  eth : 14 ≤ f.length
  tags_le : tags ≤ vlanMaxDepth
  vlan : ∀ j, j < tags → IsVlan (be16 (bytes f) (12 + 4 * j)) ∧ 14 + 4 * (j + 1) ≤ f.length

def Accepts (f : Frame) : Prop := (∃ tags, Headers f tags) ∧ payloadOffset + sizeofPayload ≤ f.length

def payloadStart (f : Frame) (tags : Nat) : Nat := 14 + 4 * tags + 4 * ihl f (14 + 4 * tags) + 8

theorem ethPIp_not_vlan : ¬ IsVlan ethPIp := by
  rw [IsVlan]
  decide

theorem tags_unique {f : Frame} {s t : Nat}
    (hs : ∀ j, j < s → IsVlan (be16 (bytes f) (12 + 4 * j)) ∧ 14 + 4 * (j + 1) ≤ f.length)
    (ht : be16 (bytes f) (12 + 4 * t) = ethPIp) : s ≤ t := by
  by_contra hlt
  have hv := (hs t (by omega)).1
  rw [ht] at hv
  exact ethPIp_not_vlan hv

theorem parseEthhdr_spec (f : Frame) :
    (f.length < 14 ∧ parseEthhdr f 0 = some ⟨-1, 0, 0⟩) ∨
    (14 ≤ f.length ∧ ∃ t, t ≤ vlanMaxDepth ∧
      parseEthhdr f 0 = some ⟨leNat (bytes f) (12 + 4 * t) 2, 14 + 4 * t, 0⟩ ∧
      (∀ j, j < t → IsVlan (be16 (bytes f) (12 + 4 * j)) ∧ 14 + 4 * (j + 1) ≤ f.length) ∧
      (t = vlanMaxDepth ∨ ¬ IsVlan (be16 (bytes f) (12 + 4 * t)) ∨
        f.length < 14 + 4 * (t + 1))) := by
  by_cases hl : 14 ≤ f.length
  · right
    obtain ⟨t, ht, hr, htags, _, hexit⟩ := vlanLoop_spec f vlanMaxDepth 12 (by omega) []
    refine ⟨hl, t, ht, ?_, htags, hexit⟩
    have hng : ¬ (0 + 14 > f.length) := by omega
    simp only [parseEthhdr, parseEthhdrVlan, hng, if_false, load_eq f (0 + 12) 2 (by omega),
      Option.bind_eq_bind, Option.bind_some, Nat.zero_add, pure]
    rw [hr]
    rfl
  · left
    refine ⟨by omega, ?_⟩
    have hgt : 0 + 14 > f.length := by omega
    simp [parseEthhdr, parseEthhdrVlan, hgt]

theorem udpDataLen_of_ge {v : Nat} (h8 : 8 ≤ v) (hv : v < 2 ^ 16) :
    udpDataLen v = (v - 8 : Nat) := by
  have hm : (v + 2 ^ 64 - 8) % 2 ^ 64 = v - 8 := by omega
  rw [udpDataLen, hm]
  exact Int.bmod_eq_of_le (m := 2 ^ 32) (by omega) (by omega)

/-- A length field below 8 wraps round in size_t and comes out negative as an int. -/
theorem udpDataLen_neg {v : Nat} (h8 : v < 8) : udpDataLen v < 0 := by
  have hm : (v + 2 ^ 64 - 8) % 2 ^ 64 = v + 2 ^ 64 - 8 := by omega
  have he : ((v + 2 ^ 64 - 8 : Nat) : Int) % (2 ^ 32 : Nat) = v + 2 ^ 32 - 8 := by omega
  rw [udpDataLen, hm]
  unfold toInt
  rw [Int.bmod_def, he]
  omega

theorem toSizeT_natCast {v : Nat} (hv : v < 2 ^ 64) : toSizeT (v : Int) = v := by
  unfold toSizeT
  omega

theorem toSizeT_neg_one : toSizeT (-1) ≠ sizeofPayload := by decide

theorem neg_one_ne_udp : (-1 : Int) ≠ ipprotoUdp := by decide

theorem parseIphdr_spec (f : Frame) (pos : Nat) :
    ∃ r, parseIphdr f pos = some r ∧ (r.ret = ipprotoUdp ↔ IpHeader f pos) ∧
      (IpHeader f pos → r.pos = pos + 4 * ihl f pos) := by
  by_cases hl : pos + 20 ≤ f.length
  · have hng : ¬ (pos + 20 > f.length) := by omega
    have hb := load_one f pos (by omega)
    have hp := load_one f (pos + 9) (by omega)
    by_cases h5 : 5 ≤ ihl f pos
    · have hn5 : ¬ ((bytes f pos).toNat % 16 * 4 < 20) := by rw [ihl] at h5; omega
      by_cases ho : pos + 4 * ihl f pos ≤ f.length
      · have hno : ¬ (pos + (bytes f pos).toNat % 16 * 4 > f.length) := by rw [ihl] at ho; omega
        refine ⟨⟨(bytes f (pos + 9)).toNat, pos + 4 * ihl f pos, pos⟩, ?_, ?_, fun _ => rfl⟩
        · simp only [parseIphdr, hng, if_false, hb, Option.bind_eq_bind, Option.bind_some, hn5, hno,
            hp, pure, ihl, Nat.mul_comm 4]
        · constructor
          · intro he
            exact ⟨hl, h5, ho, by simpa using he⟩
          · intro h
            exact congrArg Nat.cast h.protocol
      · have hgt : pos + (bytes f pos).toNat % 16 * 4 > f.length := by rw [ihl] at ho; omega
        refine ⟨⟨-1, pos, pos⟩, ?_, ?_, fun h => absurd h.options ho⟩
        · simp only [parseIphdr, hng, if_false, hb, Option.bind_eq_bind, Option.bind_some, hn5, hgt,
            if_true, pure]
        · exact ⟨fun he => absurd he neg_one_ne_udp, fun h => absurd h.options ho⟩
    · have hlt : (bytes f pos).toNat % 16 * 4 < 20 := by rw [ihl] at h5; omega
      refine ⟨⟨-1, pos, pos⟩, ?_, ?_, fun h => absurd h.ihl_ge h5⟩
      · simp only [parseIphdr, hng, if_false, hb, Option.bind_eq_bind, Option.bind_some, hlt,
          if_true, pure]
      · exact ⟨fun he => absurd he neg_one_ne_udp, fun h => absurd h.ihl_ge h5⟩
  · have hgt : pos + 20 > f.length := by omega
    refine ⟨⟨-1, pos, pos⟩, by simp [parseIphdr, hgt], ?_, fun h => absurd h.fixed hl⟩
    exact ⟨fun he => absurd he neg_one_ne_udp, fun h => absurd h.fixed hl⟩

theorem parseUdphdr_eq (f : Frame) (pos : Nat) (hl : pos + 8 ≤ f.length) :
    parseUdphdr f pos = some (if udpDataLen (be16 (bytes f) (pos + 4)) < 0 then ⟨-1, pos + 8, pos⟩
      else ⟨udpDataLen (be16 (bytes f) (pos + 4)), pos + 8, pos⟩) := by
  have hng : ¬ (pos + 8 > f.length) := by omega
  rw [parseUdphdr, if_neg hng, load_eq f (pos + 4) 2 (by omega), Option.bind_eq_bind,
    Option.bind_some, htons_leNat_two]
  exact (apply_ite some _ _ _).symm

theorem udpDataLen_eq_payload (m : Mem) (pos : Nat) :
    toSizeT (if udpDataLen (be16 m pos) < 0 then -1 else udpDataLen (be16 m pos)) = sizeofPayload ↔
      be16 m pos = 8 + sizeofPayload := by
  have hv := be16_lt m pos
  by_cases h8 : be16 m pos < 8
  · rw [if_pos (udpDataLen_neg h8)]
    refine ⟨fun h => absurd h toSizeT_neg_one, fun h => ?_⟩
    omega
  · have he := udpDataLen_of_ge (Nat.le_of_not_lt h8) hv
    have hlt : be16 m pos - 8 < 2 ^ 64 := by omega
    rw [he, if_neg (Int.not_lt.mpr (Int.natCast_nonneg _)), toSizeT_natCast hlt]
    omega

theorem udpDataLen_payload : udpDataLen (8 + sizeofPayload) = sizeofPayload := by
  rw [udpDataLen_of_ge (Nat.le_add_right 8 sizeofPayload) (by decide), Nat.add_sub_cancel_left]

theorem parseUdphdr_spec (f : Frame) (pos : Nat) :
    ∃ r, parseUdphdr f pos = some r ∧ (toSizeT r.ret = sizeofPayload ↔ UdpHeader f pos) ∧
      (UdpHeader f pos → r = ⟨sizeofPayload, pos + 8, pos⟩) := by
  by_cases hl : pos + 8 ≤ f.length
  · refine ⟨_, parseUdphdr_eq f pos hl, ?_, ?_⟩
    · rw [apply_ite Parsed.ret, udpDataLen_eq_payload]
      exact ⟨fun h => ⟨hl, h⟩, UdpHeader.len⟩
    · intro h
      rw [h.len, udpDataLen_payload, if_neg (Int.not_lt.mpr (Int.natCast_nonneg _))]
  · have hgt : pos + 8 > f.length := by omega
    have hno : ¬ UdpHeader f pos := fun h => hl h.fixed
    refine ⟨⟨-1, pos, pos⟩, by rw [parseUdphdr, if_pos hgt], ?_, fun h => absurd h hno⟩
    exact ⟨fun hs => absurd hs toSizeT_neg_one, fun h => absurd h hno⟩

theorem parseHeaders_of_eth {f : Frame} {t : Nat}
    (he : parseEthhdr f 0 = some ⟨leNat (bytes f) (12 + 4 * t) 2, 14 + 4 * t, 0⟩) :
    (Datagram f t ∧
      parseHeaders f = some (some ⟨sizeofPayload, payloadStart f t, payloadStart f t - 8⟩)) ∨
    (¬ Datagram f t ∧ parseHeaders f = some none) := by
  obtain ⟨ip, hip, hret, hpos⟩ := parseIphdr_spec f (14 + 4 * t)
  obtain ⟨udp, hudp, hlen, hval⟩ := parseUdphdr_spec f (14 + 4 * t + 4 * ihl f (14 + 4 * t))
  have hcast : ((leNat (bytes f) (12 + 4 * t) 2 : Nat) : Int) = htons ethPIp ↔
      be16 (bytes f) (12 + 4 * t) = ethPIp := by
    rw [Int.natCast_inj, leNat_two_eq_htons _ _ _ (by decide)]
  simp only [parseHeaders, he, hip, Option.bind_eq_bind, Option.bind_some, ne_eq, ite_not, hcast]
  by_cases h4 : be16 (bytes f) (12 + 4 * t) = ethPIp
  · by_cases hi : IpHeader f (14 + 4 * t)
    · rw [if_pos h4, if_pos (hret.mpr hi), hpos hi, hudp, Option.bind_some]
      by_cases hu : UdpHeader f (14 + 4 * t + 4 * ihl f (14 + 4 * t))
      · have hload := load_eq f (14 + 4 * t + 4 * ihl f (14 + 4 * t) + 2) 2
          (by have := hu.fixed; omega)
        rw [if_pos (hlen.mpr hu), hval hu, hload]
        simp only [Option.bind_some, leNat_two_eq_htons _ _ destPort (by decide)]
        by_cases hd : be16 (bytes f) (14 + 4 * t + 4 * ihl f (14 + 4 * t) + 2) = destPort
        · exact .inl ⟨⟨h4, hi, hu, hd⟩, if_pos hd⟩
        · exact .inr ⟨fun h => hd h.dest, if_neg hd⟩
      · exact .inr ⟨fun h => hu h.udp, if_neg (mt hlen.mp hu)⟩
    · rw [if_pos h4]
      exact .inr ⟨fun h => hi h.ip, if_neg (mt hret.mp hi)⟩
  · exact .inr ⟨fun h => h4 h.ipv4, if_neg h4⟩

/-- Parsing never faults, and goes through exactly on the frames of the grammar. -/
theorem parseHeaders_spec (f : Frame) :
    ((∀ tags, ¬ Headers f tags) ∧ parseHeaders f = some none) ∨
    (∃ tags, Headers f tags ∧
      parseHeaders f = some (some ⟨sizeofPayload, payloadStart f tags, payloadStart f tags - 8⟩)) := by
  rcases parseEthhdr_spec f with ⟨hl, he⟩ | ⟨hl, t, ht, he, htags, hexit⟩
  · refine .inl ⟨fun tags h => absurd h.eth (Nat.not_le.mpr hl), ?_⟩
    rw [parseHeaders, he]
    rfl
  · rcases parseHeaders_of_eth he with ⟨hd, hp⟩ | ⟨hd, hp⟩
    · exact .inr ⟨t, ⟨hd, hl, ht, htags⟩, hp⟩
    · refine .inl ⟨fun tags h => ?_, hp⟩
      have hle := tags_unique htags h.ipv4
      have heq : tags = t := by
        by_contra hne
        have hv := h.vlan t (by omega)
        rcases hexit with hx | hx | hx
        · have := h.tags_le
          omega
        · exact hx hv.1
        · omega
      subst heq
      exact hd h.toDatagram

theorem xdpSockProg_cases (ctx : XdpMd) (maps : Maps) :
    (Accepts ctx.frame ∧ xdpSockProg ctx maps = some ⟨recorded ctx maps,
      mapCalls (frameUid ctx.frame % 2 ^ 32) (framePayload ctx.frame) ctx.rxQueueIndex.toNat⟩) ∨
    (¬ Accepts ctx.frame ∧ xdpSockProg ctx maps = some ⟨maps, []⟩) := by
  rcases parseHeaders_spec ctx.frame with ⟨hno, hp⟩ | ⟨tags, hh, hp⟩
  · refine .inr ⟨fun h => absurd h.1 (not_exists.mpr hno), ?_⟩
    simp [xdpSockProg, hp]
  · by_cases hl : payloadOffset + sizeofPayload ≤ ctx.frame.length
    · have h106 : 106 ≤ ctx.frame.length := le_trans (by decide) hl
      refine .inl ⟨⟨⟨tags, hh⟩, hl⟩, ?_⟩
      rw [xdpSockProg, hp, Option.bind_eq_bind, Option.bind_some, if_pos ⟨rfl, h106, hl⟩,
        recordPayload_eq ctx maps hl]
    · refine .inr ⟨fun h => hl h.2, ?_⟩
      rw [xdpSockProg, hp, Option.bind_eq_bind, Option.bind_some, if_neg (fun h => hl h.2.2)]
      rfl

theorem xdpSockProg_of_accepts {ctx : XdpMd} (maps : Maps) (h : Accepts ctx.frame) :
    xdpSockProg ctx maps = some ⟨recorded ctx maps,
      mapCalls (frameUid ctx.frame % 2 ^ 32) (framePayload ctx.frame) ctx.rxQueueIndex.toNat⟩ := by
  rcases xdpSockProg_cases ctx maps with ⟨_, hr⟩ | ⟨hno, _⟩
  · exact hr
  · exact absurd h hno

/-- No load leaves the frame, the maps are touched exactly for the frames of the
grammar, and this is what happens to them. -/
theorem xdp_follows_grammar (ctx : XdpMd) (maps : Maps) :
    ∃ r, xdpSockProg ctx maps = some r ∧
      (r.calls ≠ [] ↔ Accepts ctx.frame) ∧
      (Accepts ctx.frame →
        (∀ k, r.maps.uidTimestamps k =
          if k.val = frameUid ctx.frame % 2 ^ 32 then ctx.now else maps.uidTimestamps k) ∧
        (∀ k, r.maps.pktPayload k =
          if k.val = frameUid ctx.frame % 2 ^ 32 then framePayload ctx.frame
          else maps.pktPayload k) ∧
        ∀ cpu i, r.maps.xdpStatsMap cpu i =
          if cpu = ctx.cpu ∧ i.val = ctx.rxQueueIndex.toNat then maps.xdpStatsMap cpu i + 1
          else maps.xdpStatsMap cpu i) ∧
      (¬ Accepts ctx.frame → r.maps = maps) := by
  rcases xdpSockProg_cases ctx maps with ⟨hacc, hr⟩ | ⟨hno, hr⟩
  · refine ⟨_, hr, ⟨fun _ => hacc, fun _ => by simp [mapCalls]⟩, fun _ => ?_, fun h => absurd hacc h⟩
    exact ⟨recorded_uidTimestamps ctx maps, recorded_pktPayload ctx maps, fun _ _ => rfl⟩
  · exact ⟨_, hr, ⟨fun h => absurd rfl h, fun h => absurd h hno⟩, fun h => absurd h hno, fun _ => rfl⟩

end PacketIntercept.FrameGrammar
