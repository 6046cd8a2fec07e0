import PacketIntercept.LoaderLifecycle
import PacketIntercept.Nlattr

namespace PacketIntercept.NetlinkDump

open ByteMemory CheckedLoads RewriteHelpers Nlattr Params LoaderLifecycle Runs

def nlmsgHdrlen : Nat := 16
def nlmsgError : Nat := 2
def nlmsgDone : Nat := 3
def rtmNewlink : Nat := 16
def nlmFMulti : Nat := 2

def libbpfErrnoWrngpid : Int := 4011
def libbpfErrnoInvseq : Int := 4012
def libbpfErrnoNlparse : Int := 4013
def sizeofIfinfomsg : Nat := 16

def iflaXdp : Nat := 43
def iflaMax : Nat := 53

def iflaXdpAttached : Nat := 2
def iflaXdpProgId : Nat := 4
def iflaXdpDrvProgId : Nat := 5
def iflaXdpSkbProgId : Nat := 6
def iflaXdpHwProgId : Nat := 7
def iflaXdpMax : Nat := 7

def xdpAttachedNone : Nat := 0
def xdpAttachedMulti : Nat := 4

structure XdpLinkInfo where
  progId : Nat
  drvProgId : Nat
  hwProgId : Nat
  skbProgId : Nat
  attachMode : Nat

def noInfo : XdpLinkInfo := ⟨0, 0, 0, 0, 0⟩

/-- How the messages of one datagram end the loop over them. -/
inductive Flow (σ : Type)
  | next (multipart : Bool) (cookie : σ)
  | returned (ret : Int) (cookie : σ)

def toInt32 (v : Nat) : Int := if v < 2 ^ 31 then v else v - 2 ^ 32

variable {σ : Type}

/-- The loop over the messages of a datagram, of which rest is still to come. -/
def messages (pid seq : Nat) (fn : Frame → σ → Option (Int × σ)) :
    Nat → Frame → Bool → σ → Option (Flow σ)
  | 0, _, _, _ => none
  | fuel + 1, rest, multipart, cookie =>
      if rest.length < nlmsgHdrlen then some (.next multipart cookie)
      else do
        let len ← load rest 0 4
        if len < nlmsgHdrlen ∨ rest.length < len then pure (.next multipart cookie)
        else do
          let nlmsgPid ← load rest 12 4
          if nlmsgPid ≠ pid then pure (.returned (-libbpfErrnoWrngpid) cookie)
          else do
            let nlmsgSeq ← load rest 8 4
            if nlmsgSeq ≠ seq then pure (.returned (-libbpfErrnoInvseq) cookie)
            else do
              let flags ← load rest 6 2
              let multipart := multipart || flags / nlmFMulti % 2 == 1
              let type ← load rest 4 2
              if type = nlmsgError then do
                let error ← load rest nlmsgHdrlen 4
                if error = 0 then messages pid seq fn fuel (rest.drop (nlaAlign len)) multipart cookie
                else pure (.returned (toInt32 error) cookie)
              else if type = nlmsgDone then pure (.returned 0 cookie)
              else do
                let (ret, cookie) ← fn (rest.take len) cookie
                if ret ≠ 0 then pure (.returned ret cookie)
                else messages pid seq fn fuel (rest.drop (nlaAlign len)) multipart cookie

inductive Received (σ : Type)
  | waiting
  | returned (ret : Int) (cookie : σ)

/-- What recv returns is given: an error, or the bytes of a datagram. -/
def bpfNetlinkRecv (pid seq : Nat) (fn : Frame → σ → Option (Int × σ)) :
    List (Except Int Frame) → σ → Option (Received σ)
  | [], _ => some .waiting
  | .error errno :: _, cookie => some (.returned (-errno) cookie)
  | .ok buf :: recvs, cookie =>
      if buf.length = 0 then some (.returned 0 cookie)
      else do
        match ← messages pid seq fn (buf.length / nlmsgHdrlen + 1) buf false cookie with
        | .returned ret cookie => pure (.returned ret cookie)
        | .next true cookie => bpfNetlinkRecv pid seq fn recvs cookie
        | .next false cookie => pure (.returned 0 cookie)

def nlaParse (stream : Frame) (len : Int) (maxtype : Nat) : Option Parse :=
  parseLoop stream maxtype none (stream.length / 4 + 1) 0 len (fun _ => none)

def getattrU8 (stream : Frame) (nla : Nat) : Option Nat := load stream (nla + nlaHdrlen) 1

def getattrU32 (stream : Frame) (nla : Nat) : Option Nat := load stream (nla + nlaHdrlen) 4

/-- The id in an attribute, or the old one where there is no such attribute. -/
def progIdOr (stream : Frame) (attr : Option Nat) (old : Nat) : Option Nat :=
  match attr with
  | none => some old
  | some nla => getattrU32 stream nla

/-- The attributes nested in the one at nla. -/
def parseNested (stream : Frame) (nla maxtype : Nat) : Option (Frame × Parse) := do
  let len ← load stream nla 2
  let nested := (stream.drop (nla + nlaHdrlen)).take (len - nlaHdrlen)
  let parse ← nlaParse nested (len - nlaHdrlen) maxtype
  pure (nested, parse)

def getXdpInfo (ifindex ifiIndex : Int) (stream : Frame) (tb : Index) (info : XdpLinkInfo) :
    Option (Int × XdpLinkInfo) :=
  if ifindex ≠ 0 ∧ ifindex ≠ ifiIndex then some (0, info)
  else
    match tb iflaXdp with
    | none => some (0, info)
    | some nla => do
        match ← parseNested stream nla iflaXdpMax with
        | (_, .unfinished) => none
        | (nested, .returned ret xdpTb) =>
            if ret ≠ 0 then pure (ret, info)
            else
              match xdpTb iflaXdpAttached with
              | none => pure (0, info)
              | some attached => do
                  let mode ← getattrU8 nested attached
                  if mode = xdpAttachedNone then pure (0, { info with attachMode := mode })
                  else do
                    let progId ← progIdOr nested (xdpTb iflaXdpProgId) info.progId
                    let skbProgId ← progIdOr nested (xdpTb iflaXdpSkbProgId) info.skbProgId
                    let drvProgId ← progIdOr nested (xdpTb iflaXdpDrvProgId) info.drvProgId
                    let hwProgId ← progIdOr nested (xdpTb iflaXdpHwProgId) info.hwProgId
                    pure (0, ⟨progId, drvProgId, hwProgId, skbProgId, mode⟩)

def dumpLinkNlmsg (ifindex : Int) (nlh : Frame) (info : XdpLinkInfo) : Option (Int × XdpLinkInfo) := do
  let stream := nlh.drop (nlmsgHdrlen + sizeofIfinfomsg)
  match ← nlaParse stream (nlh.length - (nlmsgHdrlen + sizeofIfinfomsg)) iflaMax with
  | .unfinished => none
  | .returned ret tb =>
      if ret ≠ 0 then pure (-libbpfErrnoNlparse, info)
      else do
        let ifiIndex ← load nlh 20 4
        getXdpInfo ifindex (toInt32 ifiIndex) stream tb info

def getXdpId (info : XdpLinkInfo) (flags : BitVec 32) : Nat :=
  if info.attachMode ≠ xdpAttachedMulti then info.progId
  else if flags &&& xdpFlagsDrvMode ≠ 0 then info.drvProgId
  else if flags &&& xdpFlagsHwMode ≠ 0 then info.hwProgId
  else if flags &&& xdpFlagsSkbMode ≠ 0 then info.skbProgId
  else 0

/-- The socket, or the error of opening it, and the error of sending the request. -/
structure Netlink where
  sock : Int
  sendErrno : Int
  pid : Nat
  seq : Nat
  recvs : List (Except Int Frame)

def libbpfNlGetLink (nl : Netlink) (ifindex : Int) : Option (Received XdpLinkInfo) :=
  if nl.sendErrno ≠ 0 then some (.returned (-nl.sendErrno) noInfo)
  else bpfNetlinkRecv nl.pid nl.seq (dumpLinkNlmsg ifindex) nl.recvs noInfo

/-- The return value, with the id that is stored where it is zero. -/
def bpfGetLinkXdpId (nl : Netlink) (ifindex : Int) (flags : BitVec 32) : Option (Received Nat) :=
  if !flagsAdmitted flags then some (.returned (-einval) 0)
  else if nl.sock < 0 then some (.returned nl.sock 0)
  else do
    match ← libbpfNlGetLink nl ifindex with
    | .waiting => pure .waiting
    | .returned ret info => pure (.returned ret (if ret = 0 then getXdpId info flags else 0))

def leBytes (v w : Nat) : Frame := (List.range w).map (leByte v)

/-- An attribute about XDP has room for what is read from it. -/
def Sized (x : Attr) : Prop :=
  (x.kind = iflaXdpAttached → 1 ≤ x.data.length) ∧
  (iflaXdpProgId ≤ x.kind → x.kind ≤ iflaXdpHwProgId → 4 ≤ x.data.length)

/-- One link of a dump: its index, the rest of struct ifinfomsg, and its attributes,
with those nested in the one about XDP. -/
structure Link where
  ifindex : Nat
  head : Frame
  tail : Frame
  attrs : List Attr
  xdp : Option (List Attr)
  ifindex_lt : ifindex < 2 ^ 31
  head_length : head.length = 4
  tail_length : tail.length = 8
  xdp_data : (lastWith Attr.kind iflaXdp attrs).map Attr.data = xdp.map encodeAll
  xdp_sized : ∀ xs, xdp = some xs → ∀ x ∈ xs, Sized x

def Link.payload (l : Link) : Frame := l.head ++ (leBytes l.ifindex 4 ++ (l.tail ++ encodeAll l.attrs))

def message (seq pid type flags : Nat) (payload : Frame) : Frame :=
  leBytes (nlmsgHdrlen + payload.length) 4 ++ (leBytes type 2 ++ (leBytes flags 2 ++
    (leBytes seq 4 ++ (leBytes pid 4 ++ payload))))

def linkMessage (seq pid : Nat) (l : Link) : Frame := message seq pid rtmNewlink nlmFMulti l.payload

/-- The end of a dump carries a status. -/
def doneMessage (seq pid : Nat) : Frame := message seq pid nlmsgDone nlmFMulti (leBytes 0 4)

def linksDatagram (seq pid : Nat) (links : List Link) : Frame := links.flatMap (linkMessage seq pid)

/-- A dump in several datagrams, the last of which ends with the end of the dump. -/
def dump (seq pid : Nat) (parts : List (List Link)) (last : List Link) : List (Except Int Frame) :=
  parts.map (fun links => .ok (linksDatagram seq pid links)) ++
    [.ok (linksDatagram seq pid last ++ doneMessage seq pid)]

/-- The number at the beginning of an attribute's data. -/
def value (w : Nat) (a : Attr) : Nat := leNat (bytes a.data) 0 w

def idIn (xs : List Attr) (type old : Nat) : Nat :=
  ((lastWith Attr.kind type xs).map (value 4)).getD old

/-- What a link says about its programs, over what is known already. -/
def Link.report (l : Link) (info : XdpLinkInfo) : XdpLinkInfo :=
  match l.xdp with
  | none => info
  | some xs =>
      match (lastWith Attr.kind iflaXdpAttached xs).map (value 1) with
      | none => info
      | some mode =>
          if mode = xdpAttachedNone then { info with attachMode := mode }
          else
            ⟨idIn xs iflaXdpProgId info.progId, idIn xs iflaXdpDrvProgId info.drvProgId,
              idIn xs iflaXdpHwProgId info.hwProgId, idIn xs iflaXdpSkbProgId info.skbProgId, mode⟩

def observe (ifindex : Int) (info : XdpLinkInfo) (l : Link) : XdpLinkInfo :=
  if ifindex ≠ 0 ∧ ifindex ≠ l.ifindex then info else l.report info

theorem length_leBytes (v w : Nat) : (leBytes v w).length = w := by
  rw [leBytes, List.length_map, List.length_range]

theorem load_append (p q : Frame) (k w : Nat) : load (p ++ q) (p.length + k) w = load q k w := by
  induction w generalizing k with
  | zero => rfl
  | succ w ih =>
      have hget : (p ++ q)[p.length + k]? = q[k]? := by
        rw [List.getElem?_append_right (Nat.le_add_right _ _), Nat.add_sub_cancel_left]
      rw [load, load, hget, Nat.add_assoc, ih]

theorem load_skip (v n k w : Nat) (c : Frame) : load (leBytes v n ++ c) (n + k) w = load c k w := by
  have h := load_append (leBytes v n) c k w
  rwa [length_leBytes] at h

theorem load_leBytes {v w : Nat} (hv : v < 256 ^ w) (c : Frame) : load (leBytes v w ++ c) 0 w = some v := by
  have hread : leNat (bytes (leBytes v w ++ c)) 0 w = v % 256 ^ w := by
    apply leNat_leByte
    intro i hi
    rw [Nat.zero_add, bytes_append_left _ _ (by rwa [length_leBytes]), bytes, leBytes]
    simp [hi]
  rw [load_eq _ _ _ (by rw [List.length_append, length_leBytes]; omega), hread, Nat.mod_eq_of_lt hv]

section Message

variable {seq pid type flags : Nat} {payload rest : Frame}

theorem length_message : (message seq pid type flags payload).length = nlmsgHdrlen + payload.length := by
  simp only [message, List.length_append, length_leBytes, nlmsgHdrlen]
  omega

theorem message_append : message seq pid type flags payload ++ rest =
    leBytes (nlmsgHdrlen + payload.length) 4 ++ (leBytes type 2 ++ (leBytes flags 2 ++
      (leBytes seq 4 ++ (leBytes pid 4 ++ (payload ++ rest))))) := by
  simp only [message, List.append_assoc]

theorem load_message_len (h : nlmsgHdrlen + payload.length < 2 ^ 32) :
    load (message seq pid type flags payload ++ rest) 0 4 = some (nlmsgHdrlen + payload.length) := by
  rw [message_append]
  exact load_leBytes h _

theorem load_message_type (h : type < 2 ^ 16) :
    load (message seq pid type flags payload ++ rest) 4 2 = some type := by
  rw [message_append]
  exact (load_skip _ 4 0 2 _).trans (load_leBytes h _)

theorem load_message_flags (h : flags < 2 ^ 16) :
    load (message seq pid type flags payload ++ rest) 6 2 = some flags := by
  rw [message_append]
  exact (load_skip _ 4 2 2 _).trans ((load_skip _ 2 0 2 _).trans (load_leBytes h _))

theorem load_message_seq (h : seq < 2 ^ 32) :
    load (message seq pid type flags payload ++ rest) 8 4 = some seq := by
  rw [message_append]
  exact (load_skip _ 4 4 4 _).trans ((load_skip _ 2 2 4 _).trans ((load_skip _ 2 0 4 _).trans
    (load_leBytes h _)))

theorem load_message_pid (h : pid < 2 ^ 32) :
    load (message seq pid type flags payload ++ rest) 12 4 = some pid := by
  rw [message_append]
  exact (load_skip _ 4 8 4 _).trans ((load_skip _ 2 6 4 _).trans ((load_skip _ 2 4 4 _).trans
    ((load_skip _ 4 0 4 _).trans (load_leBytes h _))))

end Message

theorem encodeAll_aligned (attrs : List Attr) : (encodeAll attrs).length % 4 = 0 := by
  induction attrs with
  | nil => rfl
  | cons a attrs ih =>
      have ha : a.encode.length % 4 = 0 := by
        rw [a.length_encode, nlaAlign, Nat.mul_mod_left]
      rw [encodeAll, List.flatMap_cons, List.length_append, ← encodeAll]
      omega

theorem Link.length_payload (l : Link) : l.payload.length = 16 + (encodeAll l.attrs).length := by
  simp only [Link.payload, List.length_append, length_leBytes, l.head_length, l.tail_length]
  omega

theorem nlaAlign_of_mod {len : Nat} (h : len % 4 = 0) : nlaAlign len = len := by
  rw [nlaAlign]
  omega

section Messages

variable {seq pid : Nat} (hseq : seq < 2 ^ 32) (hpid : pid < 2 ^ 32)
  (fn : Frame → σ → Option (Int × σ)) (multipart : Bool) (cookie : σ)
include hseq hpid

theorem messages_link (l : Link) (rest : Frame) (hlen : (linkMessage seq pid l).length < 2 ^ 32)
    (fuel : Nat) {cookie' : σ} (hfn : fn (linkMessage seq pid l) cookie = some (0, cookie')) :
    messages pid seq fn (fuel + 1) (linkMessage seq pid l ++ rest) multipart cookie =
      messages pid seq fn fuel rest true cookie' := by
  have hmsg : (linkMessage seq pid l).length = nlmsgHdrlen + l.payload.length := length_message
  have halign : nlaAlign (nlmsgHdrlen + l.payload.length) = (linkMessage seq pid l).length := by
    have hmod := encodeAll_aligned l.attrs
    rw [hmsg]
    apply nlaAlign_of_mod
    rw [l.length_payload, nlmsgHdrlen]
    omega
  have hlong : ¬ (linkMessage seq pid l ++ rest).length < nlmsgHdrlen := by
    rw [List.length_append, hmsg]
    omega
  have hin : ¬ (nlmsgHdrlen + l.payload.length < nlmsgHdrlen ∨
      (linkMessage seq pid l ++ rest).length < nlmsgHdrlen + l.payload.length) := by
    rw [List.length_append, hmsg]
    omega
  rw [messages, if_neg hlong]
  simp only [linkMessage] at hfn hmsg halign hin hlen ⊢
  rw [hmsg] at hlen
  simp only [load_message_len hlen, load_message_pid hpid, load_message_seq hseq,
    load_message_flags (show nlmFMulti < 2 ^ 16 by decide),
    load_message_type (show rtmNewlink < 2 ^ 16 by decide), Option.bind_eq_bind, Option.bind_some,
    if_neg hin, ne_eq, not_true_eq_false, if_false, halign, List.drop_left]
  rw [← hmsg, List.take_left, hfn]
  simp [rtmNewlink, nlmsgError, nlmsgDone, nlmFMulti]

theorem messages_done (rest : Frame) (fuel : Nat) :
    messages pid seq fn (fuel + 1) (doneMessage seq pid ++ rest) multipart cookie =
      some (.returned 0 cookie) := by
  have hmsg : (doneMessage seq pid).length = nlmsgHdrlen + (leBytes 0 4).length := length_message
  have hlong : ¬ (doneMessage seq pid ++ rest).length < nlmsgHdrlen := by
    rw [List.length_append, hmsg]
    omega
  have hin : ¬ (nlmsgHdrlen + (leBytes 0 4).length < nlmsgHdrlen ∨
      (doneMessage seq pid ++ rest).length < nlmsgHdrlen + (leBytes 0 4).length) := by
    rw [List.length_append, hmsg]
    omega
  rw [messages, if_neg hlong]
  simp only [doneMessage] at hin ⊢
  simp only [load_message_len (show nlmsgHdrlen + (leBytes 0 4).length < 2 ^ 32 by decide),
    load_message_pid hpid, load_message_seq hseq,
    load_message_flags (show nlmFMulti < 2 ^ 16 by decide),
    load_message_type (show nlmsgDone < 2 ^ 16 by decide), Option.bind_eq_bind, Option.bind_some,
    if_neg hin, ne_eq, not_true_eq_false, if_false]
  simp [nlmsgError, nlmsgDone]

/-- The links of a datagram are gone through in order. -/
theorem messages_links (g : σ → Link → σ) (links : List Link) (rest : Frame) (fuel : Nat)
    (hlen : ∀ l ∈ links, (linkMessage seq pid l).length < 2 ^ 32)
    (hfn : ∀ l ∈ links, ∀ s, fn (linkMessage seq pid l) s = some (0, g s l)) :
    messages pid seq fn (fuel + links.length) (linksDatagram seq pid links ++ rest) multipart cookie =
      messages pid seq fn fuel rest (multipart || !links.isEmpty) (links.foldl g cookie) := by
  induction links generalizing multipart cookie with
  | nil => simp [linksDatagram]
  | cons l links ih =>
      have hfirst := messages_link hseq hpid fn multipart cookie l (linksDatagram seq pid links ++ rest)
        (hlen l (by simp)) (fuel + links.length) (hfn l (by simp) cookie)
      have hrest := ih true (g cookie l) (fun l' hl' => hlen l' (by simp [hl']))
        (fun l' hl' => hfn l' (by simp [hl']))
      rw [linksDatagram, List.flatMap_cons, ← linksDatagram, List.append_assoc, List.length_cons,
        ← Nat.add_assoc, hfirst, hrest]
      simp

end Messages

/-- What an index says about a type is the last attribute of that type. -/
theorem index_lookup {maxtype : Nat} {attrs : List Attr} {tb : Index} (h : Indexes maxtype attrs tb)
    {t : Nat} (ht : t ≤ maxtype) :
    lastWith Attr.kind t attrs = none ∧ tb t = none ∨
      ∃ before a after, attrs = before ++ a :: after ∧ lastWith Attr.kind t attrs = some a ∧ a.kind = t ∧
        tb t = some (encodeAll before).length := by
  cases hlast : lastWith Attr.kind t attrs with
  | none =>
      refine .inl ⟨rfl, ?_⟩
      cases htb : tb t with
      | none => rfl
      | some pos =>
          obtain ⟨_, before, a, after, hsplit, hk, _⟩ := (h t pos).mp htb
          exact absurd hk (lastWith_eq_none.mp hlast a (by simp [hsplit]))
  | some a =>
      have hk := (lastWith_some hlast).2
      obtain ⟨_, as, bs, hrev, hno⟩ := List.find?_eq_some_iff_append.mp hlast
      have hsplit : attrs = bs.reverse ++ a :: as.reverse := by
        rw [← List.reverse_reverse attrs, hrev]
        simp
      refine .inr ⟨bs.reverse, a, as.reverse, hsplit, rfl, hk, (h t _).mpr ⟨ht, ?_⟩⟩
      refine ⟨bs.reverse, a, as.reverse, hsplit, hk, ?_, rfl⟩
      intro b hb
      simpa using hno b (List.mem_reverse.mp hb)

theorem nlaParse_attrs {attrs : List Attr} (hlen : (encodeAll attrs).length < 2 ^ 31) (maxtype : Nat) :
    ∃ tb, nlaParse (encodeAll attrs) (encodeAll attrs).length maxtype = some (.returned 0 tb) ∧
      Indexes maxtype attrs tb :=
  (parse_outcome hlen (List.append_nil _).symm (fun _ _ _ p hp => by cases hp)).ends
    (.inl (by decide))

section Stream

variable {attrs before after : List Attr} {a : Attr} (hsplit : attrs = before ++ a :: after)
include hsplit

theorem encodeAll_split : encodeAll attrs = encodeAll before ++ (a.body ++ (a.pad ++ encodeAll after)) := by
  rw [hsplit]
  simp [encodeAll, Attr.encode]

theorem stream_data : ((encodeAll attrs).drop ((encodeAll before).length + nlaHdrlen)).take a.data.length =
    a.data := by
  have hbody : a.body ++ (a.pad ++ encodeAll after) =
      (le16 (nlaHdrlen + a.data.length) ++ le16 a.type) ++ (a.data ++ (a.pad ++ encodeAll after)) := by
    rw [Attr.body]
    simp only [List.append_assoc]
  have hfour : nlaHdrlen = (le16 (nlaHdrlen + a.data.length) ++ le16 a.type).length := by
    rw [List.length_append, length_le16, length_le16, nlaHdrlen]
  rw [encodeAll_split hsplit, ← List.drop_drop, List.drop_left, hbody]
  nth_rewrite 1 [hfour]
  rw [List.drop_left, List.take_left]

theorem stream_load {w : Nat} (hw : w ≤ a.data.length) :
    load (encodeAll attrs) ((encodeAll before).length + nlaHdrlen) w = some (value w a) := by
  have hin := attr_inside rfl (encodeAll_split hsplit)
  have hslice : leNat (bytes (encodeAll attrs)) ((encodeAll before).length + nlaHdrlen) w = value w a := by
    rw [value]
    apply leNat_congr
    intro i hi
    rw [Nat.zero_add, ← bytes_slice _ _ a.data.length i (by omega), stream_data hsplit]
  rw [load_eq _ _ _ (by omega), hslice]

end Stream

section Info

variable {xs : List Attr} {tb : Index} (htb : Indexes iflaXdpMax xs tb) (hsized : ∀ x ∈ xs, Sized x)
include htb hsized

theorem progIdOr_eq {type : Nat} (hlo : iflaXdpProgId ≤ type) (hhi : type ≤ iflaXdpHwProgId) (old : Nat) :
    progIdOr (encodeAll xs) (tb type) old = some (idIn xs type old) := by
  rcases index_lookup htb hhi with ⟨hnone, he⟩ | ⟨before, a, after, hsplit, hlast, hk, he⟩
  · rw [he, idIn, hnone]
    rfl
  · have hroom := (hsized a (by simp [hsplit])).2 (hk ▸ hlo) (hk ▸ hhi)
    rw [he, idIn, hlast]
    exact stream_load hsplit hroom

theorem attached_eq :
    (lastWith Attr.kind iflaXdpAttached xs).map (value 1) = none ∧ tb iflaXdpAttached = none ∨
      ∃ mode pos, (lastWith Attr.kind iflaXdpAttached xs).map (value 1) = some mode ∧
        tb iflaXdpAttached = some pos ∧ getattrU8 (encodeAll xs) pos = some mode := by
  rcases index_lookup htb (show iflaXdpAttached ≤ iflaXdpMax by decide) with ⟨hnone, he⟩ |
    ⟨before, a, after, hsplit, hlast, hk, he⟩
  · exact .inl ⟨by rw [hnone]; rfl, he⟩
  · have hroom := (hsized a (by simp [hsplit])).1 hk
    exact .inr ⟨value 1 a, _, by rw [hlast]; rfl, he, stream_load hsplit hroom⟩

end Info

theorem parseNested_attr {attrs before after xs : List Attr} {a : Attr}
    (hsplit : attrs = before ++ a :: after) (hdata : a.data = encodeAll xs) (maxtype : Nat) :
    ∃ tb, parseNested (encodeAll attrs) (encodeAll before).length maxtype =
        some (encodeAll xs, .returned 0 tb) ∧ Indexes maxtype xs tb := by
  have hlt := a.length_lt
  have hlen : load (encodeAll attrs) (encodeAll before).length 2 = some (nlaHdrlen + a.data.length) :=
    load_len rfl (encodeAll_split hsplit)
  have hint : ((nlaHdrlen + a.data.length : Nat) : Int) - (nlaHdrlen : Nat) = (encodeAll xs).length := by
    rw [hdata]
    omega
  obtain ⟨tb, hparse, htb⟩ := @nlaParse_attrs xs (by rw [← hdata]; omega) maxtype
  refine ⟨tb, ?_, htb⟩
  simp only [parseNested, hlen, Option.bind_eq_bind, Option.bind_some, Nat.add_sub_cancel_left,
    stream_data hsplit, hint]
  rw [hdata, hparse]
  rfl

theorem getXdpInfo_link (l : Link) {tb : Index} (htb : Indexes iflaMax l.attrs tb) (ifindex : Int)
    (info : XdpLinkInfo) :
    getXdpInfo ifindex l.ifindex (encodeAll l.attrs) tb info = some (0, observe ifindex info l) := by
  rw [getXdpInfo, observe]
  by_cases hother : ifindex ≠ 0 ∧ ifindex ≠ l.ifindex
  · rw [if_pos hother, if_pos hother]
  · rw [if_neg hother, if_neg hother, Link.report]
    have hdata := l.xdp_data
    rcases index_lookup htb (show iflaXdp ≤ iflaMax by decide) with ⟨hnone, he⟩ |
      ⟨before, a, after, hsplit, hlast, -, he⟩
    · rw [hnone] at hdata
      have hxdp : l.xdp = none := Option.map_eq_none_iff.mp hdata.symm
      rw [he, hxdp]
    · rw [hlast] at hdata
      obtain ⟨xs, hxdp, hxs⟩ := Option.map_eq_some_iff.mp hdata.symm
      obtain ⟨xdpTb, hnested, hx⟩ := parseNested_attr hsplit hxs.symm iflaXdpMax
      have hsized := l.xdp_sized xs hxdp
      simp only [he, hxdp, hnested, Option.bind_eq_bind, Option.bind_some, ne_eq, not_true_eq_false,
        if_false]
      rcases attached_eq hx hsized with ⟨hm, hat⟩ | ⟨mode, pos, hm, hat, hload⟩
      · simp only [hm, hat]
        rfl
      · simp only [hm, hat, hload, Option.bind_some,
          progIdOr_eq hx hsized (show iflaXdpProgId ≤ iflaXdpProgId by decide) (by decide),
          progIdOr_eq hx hsized (show iflaXdpProgId ≤ iflaXdpSkbProgId by decide) (by decide),
          progIdOr_eq hx hsized (show iflaXdpProgId ≤ iflaXdpDrvProgId by decide) (by decide),
          progIdOr_eq hx hsized (show iflaXdpProgId ≤ iflaXdpHwProgId by decide) (by decide)]
        split <;> rfl

theorem linkMessage_stream (seq pid : Nat) (l : Link) :
    (linkMessage seq pid l).drop (nlmsgHdrlen + sizeofIfinfomsg) = encodeAll l.attrs := by
  have hsplit : linkMessage seq pid l =
      (leBytes (nlmsgHdrlen + l.payload.length) 4 ++ (leBytes rtmNewlink 2 ++ (leBytes nlmFMulti 2 ++
        (leBytes seq 4 ++ (leBytes pid 4 ++ (l.head ++ (leBytes l.ifindex 4 ++ l.tail))))))) ++
      encodeAll l.attrs := by
    rw [linkMessage, message, Link.payload]
    simp only [List.append_assoc]
  rw [hsplit]
  apply List.drop_left'
  simp only [List.length_append, length_leBytes, l.head_length, l.tail_length, nlmsgHdrlen, sizeofIfinfomsg]

theorem load_ifindex (seq pid : Nat) (l : Link) : load (linkMessage seq pid l) 20 4 = some l.ifindex := by
  have hlt := l.ifindex_lt
  have hhead := load_append l.head (leBytes l.ifindex 4 ++ (l.tail ++ encodeAll l.attrs)) 0 4
  rw [l.head_length] at hhead
  rw [linkMessage, message, Link.payload]
  exact (load_skip _ 4 16 4 _).trans ((load_skip _ 2 14 4 _).trans ((load_skip _ 2 12 4 _).trans
    ((load_skip _ 4 8 4 _).trans ((load_skip _ 4 4 4 _).trans (hhead.trans (load_leBytes (by omega) _))))))

theorem dumpLinkNlmsg_link {seq pid : Nat} {l : Link} (hlen : (linkMessage seq pid l).length < 2 ^ 31)
    (ifindex : Int) (info : XdpLinkInfo) :
    dumpLinkNlmsg ifindex (linkMessage seq pid l) info = some (0, observe ifindex info l) := by
  have hmsg : (linkMessage seq pid l).length = nlmsgHdrlen + l.payload.length := length_message
  rw [l.length_payload] at hmsg
  have hint : ((linkMessage seq pid l).length : Int) - ((nlmsgHdrlen : Nat) + (sizeofIfinfomsg : Nat)) =
      (encodeAll l.attrs).length := by
    rw [hmsg, nlmsgHdrlen, sizeofIfinfomsg]
    omega
  have hidx : toInt32 l.ifindex = l.ifindex := if_pos l.ifindex_lt
  obtain ⟨tb, hparse, htb⟩ := @nlaParse_attrs l.attrs (by omega) iflaMax
  simp only [dumpLinkNlmsg, linkMessage_stream, hint, hparse, Option.bind_eq_bind, Option.bind_some, ne_eq,
    not_true_eq_false, if_false, load_ifindex, hidx]
  exact getXdpInfo_link l htb ifindex info

/-- The kernel's answer to the request, in datagrams that fit the receive buffer. -/
structure Answers (nl : Netlink) (parts : List (List Link)) (last : List Link) : Prop where
  opened : 0 ≤ nl.sock
  sent : nl.sendErrno = 0
  seq_lt : nl.seq < 2 ^ 32
  pid_lt : nl.pid < 2 ^ 32
  recvs : nl.recvs = dump nl.seq nl.pid parts last
  nonempty : ∀ links ∈ parts, links ≠ []
  fits : ∀ links ∈ parts, (linksDatagram nl.seq nl.pid links).length ≤ 4096
  last_fits : (linksDatagram nl.seq nl.pid last ++ doneMessage nl.seq nl.pid).length ≤ 4096

theorem linkMessage_length_ge (seq pid : Nat) (l : Link) : nlmsgHdrlen ≤ (linkMessage seq pid l).length := by
  have hmsg : (linkMessage seq pid l).length = nlmsgHdrlen + l.payload.length := length_message
  omega

theorem linksDatagram_length_ge (seq pid : Nat) (links : List Link) :
    nlmsgHdrlen * links.length ≤ (linksDatagram seq pid links).length := by
  induction links with
  | nil => exact Nat.le_refl 0
  | cons l links ih =>
      have hl := linkMessage_length_ge seq pid l
      rw [linksDatagram, List.flatMap_cons, List.length_append, ← linksDatagram, List.length_cons,
        Nat.mul_add, Nat.mul_one]
      omega

theorem linkMessage_length_le {seq pid : Nat} {links : List Link} {l : Link} (hl : l ∈ links) :
    (linkMessage seq pid l).length ≤ (linksDatagram seq pid links).length := by
  obtain ⟨before, after, rfl⟩ := List.append_of_mem hl
  rw [linksDatagram, List.flatMap_append, List.flatMap_cons, List.length_append, List.length_append]
  omega

section Recv

variable {seq pid : Nat} (hseq : seq < 2 ^ 32) (hpid : pid < 2 ^ 32) (ifindex : Int)
include hseq hpid

theorem messages_part {links : List Link} (hne : links ≠ [])
    (hfits : (linksDatagram seq pid links).length ≤ 4096) (info : XdpLinkInfo) :
    messages pid seq (dumpLinkNlmsg ifindex) ((linksDatagram seq pid links).length / nlmsgHdrlen + 1)
        (linksDatagram seq pid links) false info =
      some (.next true (links.foldl (observe ifindex) info)) := by
  have hge := linksDatagram_length_ge seq pid links
  rw [nlmsgHdrlen] at hge ⊢
  obtain ⟨fuel, hfuel⟩ : ∃ k, (linksDatagram seq pid links).length / 16 + 1 = k + 1 + links.length :=
    ⟨(linksDatagram seq pid links).length / 16 - links.length, by omega⟩
  have hrun := messages_links hseq hpid (dumpLinkNlmsg ifindex) false info (observe ifindex) links []
    (fuel + 1) (fun l hl => by have := @linkMessage_length_le seq pid links l hl; omega)
    (fun l hl s => dumpLinkNlmsg_link (by have := @linkMessage_length_le seq pid links l hl; omega) ifindex s)
  rw [List.append_nil] at hrun
  rw [hfuel, hrun]
  cases links with
  | nil => exact absurd rfl hne
  | cons l links => rfl

theorem messages_last {links : List Link}
    (hfits : (linksDatagram seq pid links ++ doneMessage seq pid).length ≤ 4096) (info : XdpLinkInfo) :
    messages pid seq (dumpLinkNlmsg ifindex)
        ((linksDatagram seq pid links ++ doneMessage seq pid).length / nlmsgHdrlen + 1)
        (linksDatagram seq pid links ++ doneMessage seq pid) false info =
      some (.returned 0 (links.foldl (observe ifindex) info)) := by
  have hge := linksDatagram_length_ge seq pid links
  rw [List.length_append] at hfits ⊢
  rw [nlmsgHdrlen] at hge ⊢
  obtain ⟨fuel, hfuel⟩ : ∃ k, ((linksDatagram seq pid links).length + (doneMessage seq pid).length) / 16 + 1 =
      k + 1 + links.length :=
    ⟨((linksDatagram seq pid links).length + (doneMessage seq pid).length) / 16 - links.length, by omega⟩
  have hrun := messages_links hseq hpid (dumpLinkNlmsg ifindex) false info (observe ifindex) links
    (doneMessage seq pid) (fuel + 1)
    (fun l hl => by have := @linkMessage_length_le seq pid links l hl; omega)
    (fun l hl s => dumpLinkNlmsg_link (by have := @linkMessage_length_le seq pid links l hl; omega) ifindex s)
  have hdone := messages_done hseq hpid (dumpLinkNlmsg ifindex) (false || !links.isEmpty)
    (links.foldl (observe ifindex) info) [] fuel
  rw [List.append_nil] at hdone
  rw [hfuel, hrun, hdone]

theorem recv_dump (parts : List (List Link)) {last : List Link} (hne : ∀ links ∈ parts, links ≠ [])
    (hfits : ∀ links ∈ parts, (linksDatagram seq pid links).length ≤ 4096)
    (hlast : (linksDatagram seq pid last ++ doneMessage seq pid).length ≤ 4096) (info : XdpLinkInfo) :
    bpfNetlinkRecv pid seq (dumpLinkNlmsg ifindex) (dump seq pid parts last) info =
      some (.returned 0 ((parts.flatten ++ last).foldl (observe ifindex) info)) := by
  induction parts generalizing info with
  | nil =>
      have hpos : (linksDatagram seq pid last ++ doneMessage seq pid).length ≠ 0 := by
        have hd : (doneMessage seq pid).length = nlmsgHdrlen + (leBytes 0 4).length := length_message
        rw [List.length_append, hd, nlmsgHdrlen]
        omega
      rw [dump, List.map_nil, List.nil_append, bpfNetlinkRecv, if_neg hpos, messages_last hseq hpid ifindex hlast]
      rfl
  | cons links parts ih =>
      have hlinks := hne links (by simp)
      have hpos : (linksDatagram seq pid links).length ≠ 0 := by
        have hge := linksDatagram_length_ge seq pid links
        have h1 := List.length_pos_of_ne_nil hlinks
        rw [nlmsgHdrlen] at hge
        omega
      have hrest := ih (fun x hx => hne x (by simp [hx])) (fun x hx => hfits x (by simp [hx]))
        (links.foldl (observe ifindex) info)
      rw [dump] at hrest
      rw [dump, List.map_cons, List.cons_append, bpfNetlinkRecv, if_neg hpos,
        messages_part hseq hpid ifindex hlinks (hfits links (by simp)), List.flatten_cons, List.append_assoc,
        List.foldl_append, ← hrest]
      rfl

end Recv

/-- Of links with different indices only the one asked for is looked at. -/
theorem foldl_observe {ifindex : Int} (hidx : ifindex ≠ 0) (links : List Link) (info : XdpLinkInfo)
    (hnd : links.Pairwise (fun l k => l.ifindex ≠ k.ifindex)) :
    links.foldl (observe ifindex) info =
      ((links.find? (fun l => decide ((l.ifindex : Int) = ifindex))).map (Link.report · info)).getD info := by
  induction links generalizing info with
  | nil => rfl
  | cons l links ih =>
      obtain ⟨hl, hrest⟩ := List.pairwise_cons.mp hnd
      rw [List.foldl_cons, ih _ hrest, List.find?_cons]
      by_cases he : (l.ifindex : Int) = ifindex
      · have hnone : links.find? (fun k => decide ((k.ifindex : Int) = ifindex)) = none := by
          rw [List.find?_eq_none]
          intro k hk
          have hne := hl k hk
          simp only [decide_eq_true_eq]
          omega
        rw [hnone, observe, if_neg (fun h => h.2 he.symm)]
        simp [he]
      · rw [observe, if_pos ⟨hidx, fun h => he h.symm⟩]
        simp [he]

/-- bpf_get_link_xdp_id reads the kernel's dump back: flags that ask for more than
one mode are refused; otherwise the id is the one all links together come to, those
with another index left out when an index is given, so that with different indices
it is the one the link asked for reports, and zero where there is none. -/
theorem dump_read_back {nl : Netlink} {parts : List (List Link)} {last : List Link}
    (h : Answers nl parts last) (ifindex : Int) (flags : BitVec 32) :
    (flagsAdmitted flags = false →
      bpfGetLinkXdpId nl ifindex flags = some (.returned (-einval) 0)) ∧
    (flagsAdmitted flags = true →
      bpfGetLinkXdpId nl ifindex flags = some (.returned 0
        (getXdpId ((parts.flatten ++ last).foldl (observe ifindex) noInfo) flags))) ∧
    (flagsAdmitted flags = true → ifindex ≠ 0 →
      (parts.flatten ++ last).Pairwise (fun l k => l.ifindex ≠ k.ifindex) →
      bpfGetLinkXdpId nl ifindex flags = some (.returned 0
        (match (parts.flatten ++ last).find? (fun l => decide ((l.ifindex : Int) = ifindex)) with
          | some l => getXdpId (l.report noInfo) flags
          | none => 0))) := by
  have hread (hflags : flagsAdmitted flags = true) : bpfGetLinkXdpId nl ifindex flags = some (.returned 0
      (getXdpId ((parts.flatten ++ last).foldl (observe ifindex) noInfo) flags)) := by
    have hrecv := recv_dump h.seq_lt h.pid_lt ifindex parts h.nonempty h.fits h.last_fits noInfo
    rw [bpfGetLinkXdpId, hflags, Bool.not_true, if_neg Bool.false_ne_true, if_neg (Int.not_lt.mpr h.opened),
      libbpfNlGetLink, if_neg (not_not.mpr h.sent), h.recvs, hrecv]
    rfl
  refine ⟨?_, hread, ?_⟩
  · intro hflags
    rw [bpfGetLinkXdpId, hflags]
    rfl
  · intro hflags hidx hnd
    rw [hread hflags, foldl_observe hidx _ _ hnd]
    cases (parts.flatten ++ last).find? (fun l => decide ((l.ifindex : Int) = ifindex)) <;> rfl

def attachedAttr : Attr := ⟨2, [1], [0, 0, 0], by decide, by decide, rfl⟩

def progIdAttr : Attr := ⟨4, [7, 0, 0, 0], [], by decide, by decide, rfl⟩

def xdpAttr : Attr := ⟨43, encodeAll [attachedAttr, progIdAttr], [], by decide, by decide, rfl⟩

theorem sized_xdp : ∀ x ∈ [attachedAttr, progIdAttr], Sized x := by
  intro x hx
  rcases List.mem_pair.mp hx with rfl | rfl
  · exact ⟨by decide, by decide⟩
  · exact ⟨by decide, by decide⟩

def ethLink : Link where
  ifindex := 2
  head := [0, 0, 1, 0]
  tail := [0, 0, 0, 0, 0, 0, 0, 0]
  attrs := [xdpAttr]
  xdp := some [attachedAttr, progIdAttr]
  ifindex_lt := by decide
  head_length := rfl
  tail_length := rfl
  xdp_data := rfl
  xdp_sized := fun _ h => Option.some.inj h ▸ sized_xdp

def loLink : Link where
  ifindex := 1
  head := [0, 0, 4, 3]
  tail := [0, 0, 0, 0, 0, 0, 0, 0]
  attrs := []
  xdp := none
  ifindex_lt := by decide
  head_length := rfl
  tail_length := rfl
  xdp_data := rfl
  xdp_sized := fun _ h => by cases h

theorem ethLink_read_back :
    bpfGetLinkXdpId ⟨3, 0, 100, 1, dump 1 100 [[loLink]] [ethLink]⟩ 2 0 = some (.returned 0 7) := by
  have h : Answers ⟨3, 0, 100, 1, dump 1 100 [[loLink]] [ethLink]⟩ [[loLink]] [ethLink] := by
    refine ⟨by decide, rfl, by decide, by decide, rfl, ?_, ?_, by decide⟩
    · intro links hl
      rw [List.mem_singleton.mp hl]
      exact List.cons_ne_nil _ _
    · intro links hl
      rw [List.mem_singleton.mp hl]
      decide
  have hnd : ([[loLink]].flatten ++ [ethLink]).Pairwise (fun l k => l.ifindex ≠ k.ifindex) :=
    List.pairwise_pair.mpr (by decide)
  exact (dump_read_back h 2 0).2.2 (by decide) (by decide) hnd

end PacketIntercept.NetlinkDump
