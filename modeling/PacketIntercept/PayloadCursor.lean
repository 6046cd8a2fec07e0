import PacketIntercept.ClientFrame

namespace PacketIntercept.PayloadCursor

open ByteMemory Common CheckedLoads ParsingHelpers XdpSockProg FrameGrammar ClientFrame

/-- The run takes both the key and the stored value from the struct Payload at pos. -/
def UsesPayloadAt (ctx : XdpMd) (maps : Maps) (pos : Nat) : Prop :=
  ∃ r, xdpSockProg ctx maps = some r ∧
    r.calls = mapCalls (uid (bytes ctx.frame) pos % 2 ^ 32)
      ((ctx.frame.drop pos).take sizeofPayload) ctx.rxQueueIndex.toNat

def SameHeaders (f g : Frame) (pos : Nat) : Prop :=
  g.length = f.length ∧ ∀ i, i < pos → bytes g i = bytes f i

def Plain (f : Frame) : Prop := be16 (bytes f) 12 = ethPIp ∧ ihl f 14 = 5

theorem be16_congr {m m' : Mem} {pos : Nat} (h0 : m pos = m' pos) (h1 : m (pos + 1) = m' (pos + 1)) :
    be16 m pos = be16 m' pos := by
  rw [be16, be16, h0, h1]

theorem ihl_congr {f g : Frame} {pos : Nat} (h : bytes g pos = bytes f pos) : ihl g pos = ihl f pos := by
  rw [ihl, ihl, h]

theorem headers_congr {f g : Frame} {tags : Nat} (hf : Headers f tags)
    (hs : SameHeaders f g (payloadStart f tags)) : Headers g tags := by
  obtain ⟨hlen, hbytes⟩ := hs
  have hge := hf.ip.ihl_ge
  rw [payloadStart] at hbytes
  have hw (pos : Nat) (hpos : pos + 1 < 14 + 4 * tags + 4 * ihl f (14 + 4 * tags) + 8) :
      be16 (bytes g) pos = be16 (bytes f) pos :=
    be16_congr (hbytes pos (by omega)) (hbytes (pos + 1) hpos)
  have hihl : ihl g (14 + 4 * tags) = ihl f (14 + 4 * tags) := ihl_congr (hbytes _ (by omega))
  refine ⟨⟨?_, ⟨?_, ?_, ?_, ?_⟩, ⟨?_, ?_⟩, ?_⟩, ?_, hf.tags_le, ?_⟩
  · rw [hw _ (by omega)]
    exact hf.ipv4
  · rw [hlen]
    exact hf.ip.fixed
  · rw [hihl]
    exact hge
  · rw [hihl, hlen]
    exact hf.ip.options
  · rw [hbytes _ (by omega)]
    exact hf.ip.protocol
  · rw [hihl, hlen]
    exact hf.udp.fixed
  · rw [hihl, hw _ (by omega)]
    exact hf.udp.len
  · rw [hihl, hw _ (by omega)]
    exact hf.dest
  · rw [hlen]
    exact hf.eth
  · intro j hj
    rw [hw _ (by omega), hlen]
    exact hf.vlan j hj

theorem headers_untagged {f : Frame} {tags : Nat} (h : Headers f tags)
    (h4 : be16 (bytes f) 12 = ethPIp) : tags = 0 := by
  by_contra hne
  have hv := (h.vlan 0 (by omega)).1
  rw [h4] at hv
  exact ethPIp_not_vlan hv

theorem payloadOffset_eq_iff {f : Frame} {tags : Nat} (h : Headers f tags) :
    payloadOffset = payloadStart f tags ↔ Plain f := by
  have hge := h.ip.ihl_ge
  rw [payloadOffset, payloadStart, Plain]
  constructor
  · intro he
    obtain rfl : tags = 0 := by omega
    simp only [Nat.mul_zero, Nat.add_zero] at he hge
    exact ⟨h.ipv4, by omega⟩
  · rintro ⟨h4, h5⟩
    obtain rfl := headers_untagged h h4
    rw [Nat.mul_zero, Nat.add_zero, h5]

theorem bytes_set (f : Frame) {i : Nat} (v : UInt8) (hi : i < f.length) (j : Nat) :
    bytes (f.set i v) j = if j = i then v else bytes f j := by
  rw [bytes, bytes, List.getD_eq_getElem?_getD, List.getD_eq_getElem?_getD, List.getElem?_set]
  by_cases hj : j = i
  · subst hj
    simp [hi]
  · simp [hj, Ne.symm hj]

theorem uid_low_byte {m m' : Mem} {pos pos' : Nat} (h : uid m pos % 2 ^ 32 = uid m' pos' % 2 ^ 32) :
    m (pos + 8) = m' (pos' + 8) := by
  have hlow (m : Mem) (pos : Nat) : leNat m (pos + 8) 4 = uid m pos % 2 ^ 32 :=
    (leNat_mod m (pos + 8) 4 4).symm
  have hkey : leNat m (pos + 8) 4 = leNat m' (pos' + 8) 4 := by rw [hlow, hlow, h]
  exact leNat_inj 4 hkey 0 (by omega)

theorem exists_misread {ctx : XdpMd} {tags : Nat} (maps : Maps) (hh : Headers ctx.frame tags)
    (hl : payloadOffset + sizeofPayload ≤ ctx.frame.length)
    (hne : payloadOffset ≠ payloadStart ctx.frame tags) :
    ∃ g, SameHeaders ctx.frame g (payloadStart ctx.frame tags) ∧
      ¬ UsesPayloadAt { ctx with frame := g } maps (payloadStart ctx.frame tags) := by
  have hs : payloadStart ctx.frame tags < 14 + 4 * 3 + 4 * 16 + 8 := by
    have hi : ihl ctx.frame (14 + 4 * tags) < 16 := Nat.mod_lt _ (by decide)
    have ht : tags ≤ 2 := hh.tags_le
    rw [payloadStart]
    omega
  have hge : payloadOffset < payloadStart ctx.frame tags := by
    have := hh.ip.ihl_ge
    rw [payloadOffset, payloadStart] at *
    omega
  have hin : payloadStart ctx.frame tags + 8 < ctx.frame.length := by
    rw [payloadOffset, sizeofPayload] at hl
    omega
  let g := ctx.frame.set (payloadStart ctx.frame tags + 8) (bytes ctx.frame (payloadOffset + 8) + 1)
  have hg : SameHeaders ctx.frame g (payloadStart ctx.frame tags) := by
    refine ⟨List.length_set, fun i hi => ?_⟩
    rw [bytes_set _ _ hin, if_neg (by omega)]
  have hacc : Accepts g := ⟨⟨tags, headers_congr hh hg⟩, by rw [hg.1]; exact hl⟩
  refine ⟨g, hg, ?_⟩
  rintro ⟨r, hr, hcalls⟩
  rw [xdpSockProg_of_accepts maps hacc, Option.some.injEq] at hr
  rw [← hr, mapCalls, mapCalls] at hcalls
  have hkey := uid_low_byte (MapCall.lookupUidTimestamps.inj (List.cons.inj hcalls).1)
  rw [bytes_set _ _ hin, bytes_set _ _ hin, if_pos rfl, if_neg (by omega)] at hkey
  exact byte_add_one_ne _ hkey.symm

/-- The fixed offset is the cursor exactly on untagged frames without IP
options, and only there does the run use the UDP payload whatever it holds. -/
theorem uses_udp_payload_iff_plain (ctx : XdpMd) (maps : Maps) (r : XdpResult)
    (hr : xdpSockProg ctx maps = some r) (hacc : r.calls ≠ []) :
    ∃ udp, parseHeaders ctx.frame = some (some udp) ∧
      (payloadOffset = udp.pos ↔ Plain ctx.frame) ∧
      ((∀ g, SameHeaders ctx.frame g udp.pos → UsesPayloadAt { ctx with frame := g } maps udp.pos) ↔
        Plain ctx.frame) := by
  rcases xdpSockProg_cases ctx maps with ⟨⟨htags, hl⟩, _⟩ | ⟨_, hx⟩
  · rcases parseHeaders_spec ctx.frame with ⟨hno, _⟩ | ⟨tags, hh, hp⟩
    · exact absurd htags (not_exists.mpr hno)
    · refine ⟨_, hp, payloadOffset_eq_iff hh, ?_⟩
      rw [← payloadOffset_eq_iff hh]
      constructor
      · intro hall
        by_contra hne
        obtain ⟨g, hg, hmis⟩ := exists_misread maps hh hl hne
        exact hmis (hall g hg)
      · intro he g hg
        have hg' : Accepts g := ⟨⟨tags, headers_congr hh hg⟩, by rw [hg.1]; exact hl⟩
        refine ⟨_, xdpSockProg_of_accepts maps hg', ?_⟩
        dsimp only
        rw [← he]
        rfl
  · rw [hx, Option.some.injEq] at hr
    exact absurd (by rw [← hr]) hacc

theorem uses_udp_payload_client :
    ∃ udp, parseHeaders (clientFrame 3 1) = some (some udp) ∧
      (payloadOffset = udp.pos ↔ Plain (clientFrame 3 1)) ∧
      ((∀ g, SameHeaders (clientFrame 3 1) g udp.pos → UsesPayloadAt ⟨g, 0, 0, 0⟩ zeroMaps udp.pos) ↔
        Plain (clientFrame 3 1)) := by
  have hacc := (clientFrame_isClientFrame 3 1 (by decide) (by decide)).accepts
  exact uses_udp_payload_iff_plain ⟨clientFrame 3 1, 0, 0, 0⟩ zeroMaps _
    (xdpSockProg_of_accepts zeroMaps hacc) (by simp [mapCalls])

theorem tagged_headers : Headers (frameOf tagged 3 1) 1 := by
  refine ⟨⟨?_, ⟨?_, ?_, ?_, ?_⟩, ⟨?_, ?_⟩, ?_⟩, ?_, ?_, ?_⟩
  all_goals decide +kernel

/-- Behind a tag the uid is taken for the upper half of another one. -/
theorem tagged_frame_misread :
    (∃ r, xdpSockProg ⟨frameOf tagged 3 1, 0, 0, 0⟩ zeroMaps = some r ∧ r.calls ≠ []) ∧
      parseHeaders (frameOf tagged 3 1) = some (some ⟨sizeofPayload, 46, 38⟩) ∧
      ¬ UsesPayloadAt ⟨frameOf tagged 3 1, 0, 0, 0⟩ zeroMaps 46 := by
  have hacc : Accepts (frameOf tagged 3 1) := ⟨⟨1, tagged_headers⟩, by decide +kernel⟩
  have hx := @xdpSockProg_of_accepts ⟨frameOf tagged 3 1, 0, 0, 0⟩ zeroMaps hacc
  refine ⟨⟨_, hx, by simp [mapCalls]⟩, by decide +kernel, ?_⟩
  rintro ⟨r, hr, hcalls⟩
  rw [hx, Option.some.injEq] at hr
  rw [← hr, mapCalls, mapCalls] at hcalls
  have hkey := MapCall.lookupUidTimestamps.inj (List.cons.inj hcalls).1
  exact absurd hkey (by decide +kernel)

end PacketIntercept.PayloadCursor
