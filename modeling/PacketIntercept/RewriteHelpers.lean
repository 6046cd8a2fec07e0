import Mathlib.Data.List.Basic
import PacketIntercept.HeaderChain

namespace PacketIntercept.RewriteHelpers

open ByteMemory CheckedLoads ParsingHelpers HeaderChain

/-- What an XDP program rewrites: the frame from data to data_end, with the
number of bytes free in front of it. -/
structure Ctx where
  frame : Frame
  room : Nat
  deriving DecidableEq

def ethAlen : Nat := 6

section Helpers

-- the helper bpf_xdp_adjust_head, with none for a negative error
variable (adjustHead : Ctx → Int → Option Ctx)

def vlanTagPop (ctx : Ctx) (eth : Nat) : Option (Int × Ctx) := do
  let proto ← load ctx.frame (eth + 12) 2
  if !protoIsVlan proto then pure (-1, ctx)
  else if eth + 14 + 4 > ctx.frame.length then pure (-1, ctx)
  else do
    let tci ← load ctx.frame (eth + 14) 2
    let hProto ← load ctx.frame (eth + 16) 2
    let ethCpy ← loadBytes ctx.frame eth 14
    match adjustHead ctx 4 with
    | none => pure (-1, ctx)
    | some ctx =>
        if 14 > ctx.frame.length then pure (-1, ctx)
        else do
          let f ← storeBytes ctx.frame 0 ethCpy
          let f ← storeBytes f 12 (le16 hProto)
          pure (htons tci, { ctx with frame := f })

def vlanTagPush (ctx : Ctx) (eth : Nat) (vlid : Int) : Option (Int × Ctx) := do
  let ethCpy ← loadBytes ctx.frame eth 14
  match adjustHead ctx (-4) with
  | none => pure (-1, ctx)
  | some ctx =>
      if 14 > ctx.frame.length then pure (-1, ctx)
      else do
        let f ← storeBytes ctx.frame 0 ethCpy
        if 14 + 4 > f.length then pure (-1, { ctx with frame := f })
        else do
          let f ← storeBytes f 14 (le16 (htons (vlid % 2 ^ 16).toNat))
          let hProto ← load f 12 2
          let f ← storeBytes f 16 (le16 hProto)
          let f ← storeBytes f 12 (le16 (htons ethP8021Q))
          pure (0, { ctx with frame := f })

end Helpers

/-- Exchanges the n bytes at src with those at dst, through a temporary. -/
def swapFields (f : Frame) (src dst n : Nat) : Option Frame := do
  let tmp ← loadBytes f src n
  let other ← loadBytes f dst n
  let f ← storeBytes f src other
  storeBytes f dst tmp

def swapSrcDstMac (f : Frame) (eth : Nat) : Option Frame := swapFields f (eth + 6) eth ethAlen

/-- What the documentation of bpf_xdp_adjust_head promises: a successful call
moves data by delta, and what stays between data and data_end is unchanged. -/
structure MovesHead (adjustHead : Ctx → Int → Option Ctx) : Prop where
  shrink : ∀ {ctx ctx' : Ctx} {n : Nat}, adjustHead ctx n = some ctx' →
    ctx'.frame = ctx.frame.drop n
  grow : ∀ {ctx ctx' : Ctx} {n : Nat}, adjustHead ctx (-n) = some ctx' →
    ∃ new, List.length new = n ∧ ctx'.frame = new ++ ctx.frame

def be16Bytes (v : Nat) : List UInt8 := [UInt8.ofNat (v / 256), UInt8.ofNat v]

@[simp] theorem length_be16Bytes (v : Nat) : (be16Bytes v).length = 2 := rfl

@[simp] theorem length_le16 (v : Nat) : (le16 v).length = 2 := rfl

theorem le16_htons {v : Nat} (hv : v < 2 ^ 16) : le16 (htons v) = be16Bytes v := by
  have hdiv : v / 256 < 256 := by omega
  have hlow : htons v / 256 ^ 0 % 256 = v / 256 := by
    rw [htons, Nat.pow_zero, Nat.div_one, Nat.mul_add_mod_self_right, Nat.mod_eq_of_lt hdiv]
  have hhigh : htons v / 256 ^ 1 % 256 = v % 256 := by
    rw [htons, Nat.pow_one, Nat.add_comm, Nat.add_mul_div_right _ _ (by decide),
      Nat.div_eq_of_lt hdiv, Nat.zero_add, Nat.mod_mod]
  rw [le16, leByte, leByte, hlow, hhigh, be16Bytes]
  congr 2
  exact UInt8.ofNat_mod_size

section At

variable {a c : Frame} {pos : Nat}

theorem bytes_at (ha : a.length = pos) (i : Nat) : bytes (a ++ c) (pos + i) = bytes c i := by
  subst ha
  exact bytes_append_right a c i

theorem leNat_at (ha : a.length = pos) (w : Nat) :
    leNat (bytes (a ++ c)) pos w = leNat (bytes c) 0 w := by
  apply leNat_congr
  intro i _
  rw [bytes_at ha, Nat.zero_add]

theorem be16_at (ha : a.length = pos) {v : Nat} (hv : v < 2 ^ 16) :
    be16 (bytes (a ++ (be16Bytes v ++ c))) pos = v := by
  have h0 : bytes (a ++ (be16Bytes v ++ c)) pos = UInt8.ofNat (v / 256) := bytes_at ha 0
  have h1 : bytes (a ++ (be16Bytes v ++ c)) (pos + 1) = UInt8.ofNat v := bytes_at ha 1
  rw [be16, h0, h1, UInt8.toNat_ofNat', UInt8.toNat_ofNat']
  omega

theorem le16_at (ha : a.length = pos) {p : Frame} (hp : p.length = 2) :
    le16 (leNat (bytes (a ++ (p ++ c))) pos 2) = p := by
  rw [le16_leNat]
  obtain ⟨x, y, rfl⟩ : ∃ x y, p = [x, y] := List.length_eq_two.mp hp
  have h0 : bytes (a ++ ([x, y] ++ c)) pos = x := bytes_at ha 0
  have h1 : bytes (a ++ ([x, y] ++ c)) (pos + 1) = y := bytes_at ha 1
  rw [h0, h1]

end At

theorem exists_split (g : Frame) (hg : g.length = 18) :
    ∃ b x y : Frame, b.length = 14 ∧ x.length = 2 ∧ y.length = 2 ∧ g = b ++ (x ++ y) := by
  refine ⟨g.take 14, (g.drop 14).take 2, (g.drop 14).drop 2, ?_, ?_, ?_, ?_⟩
  · rw [List.length_take, hg]
    rfl
  · rw [List.length_take, List.length_drop, hg]
    rfl
  · rw [List.length_drop, List.length_drop, hg]
  · rw [List.take_append_drop, List.take_append_drop]

/-- Neighbouring fields change places. -/
theorem swapFields_adjacent {a x y c : Frame} {dst src n : Nat} (ha : a.length = dst)
    (hx : x.length = n) (hy : y.length = n) (hsrc : src = dst + n) :
    swapFields (a ++ (x ++ (y ++ c))) src dst n = some (a ++ (y ++ (x ++ c))) := by
  have hax : (a ++ x).length = src := by rw [List.length_append, ha, hx, hsrc]
  have hs : loadBytes (a ++ (x ++ (y ++ c))) src n = some y := by
    rw [← List.append_assoc]
    exact loadBytes_at hax hy
  have hst : storeBytes (a ++ (x ++ (y ++ c))) src x = some (a ++ (x ++ (x ++ c))) := by
    rw [← List.append_assoc, storeBytes_at hax (by rw [hx, hy]), List.append_assoc]
  simp only [swapFields, hs, loadBytes_at ha hx, Option.bind_eq_bind, Option.bind_some, hst]
  exact storeBytes_at ha (by rw [hx, hy])

theorem vlanTagPop_untagged {adjustHead : Ctx → Int → Option Ctx} {ctx : Ctx} {macs c : Frame}
    (hmacs : macs.length = 12) (hc : 2 ≤ c.length) (hv : IsVlan (be16 (bytes c) 0) → c.length < 6)
    (hf : ctx.frame = macs ++ c) : vlanTagPop adjustHead ctx 0 = some (-1, ctx) := by
  have hlen : ctx.frame.length = 12 + c.length := by rw [hf, List.length_append, hmacs]
  have hbe : be16 (bytes ctx.frame) 12 = be16 (bytes c) 0 := by
    have h0 : bytes (macs ++ c) 12 = bytes c 0 := bytes_at hmacs 0
    have h1 : bytes (macs ++ c) (12 + 1) = bytes c 1 := bytes_at hmacs 1
    rw [hf, be16, be16, h0, h1]
  simp only [vlanTagPop, load_eq ctx.frame (0 + 12) 2 (by omega), Option.bind_eq_bind,
    Option.bind_some]
  by_cases hvlan : IsVlan (be16 (bytes c) 0)
  · have hp : protoIsVlan (leNat (bytes ctx.frame) (0 + 12) 2) = true := by
      rw [protoIsVlan_iff, Nat.zero_add, hbe]
      exact hvlan
    have hshort := hv hvlan
    have hgt : 0 + 14 + 4 > ctx.frame.length := by omega
    simp only [hp, Bool.not_true, Bool.false_eq_true, if_false, hgt, if_true]
    rfl
  · have hp : protoIsVlan (leNat (bytes ctx.frame) (0 + 12) 2) = false := by
      rw [← Bool.not_eq_true, protoIsVlan_iff, Nat.zero_add, hbe]
      exact hvlan
    simp only [hp, Bool.not_false, if_true]
    rfl

section Rewriting

variable {adjustHead : Ctx → Int → Option Ctx} (hadj : MovesHead adjustHead) {ctx : Ctx}
  {macs c : Frame} (hmacs : macs.length = 12)
include hadj hmacs

theorem vlanTagPush_eq {p : Frame} (hp : p.length = 2) (hf : ctx.frame = macs ++ (p ++ c))
    (vlid : Int) :
    vlanTagPush adjustHead ctx 0 vlid = match adjustHead ctx (-4) with
      | none => some (-1, ctx)
      | some ctx' => some (0, { ctx' with frame := macs ++ (be16Bytes ethP8021Q ++
          (be16Bytes (vlid % 2 ^ 16).toNat ++ (p ++ c))) }) := by
  have hload : loadBytes ctx.frame 0 14 = some (macs ++ p) := by
    rw [hf, ← List.append_assoc]
    exact loadBytes_at (a := []) rfl (by simp [hmacs, hp])
  simp only [vlanTagPush, hload, Option.bind_eq_bind, Option.bind_some]
  cases ha : adjustHead ctx (-4) with
  | none => rfl
  | some ctx' =>
      obtain ⟨new, hnew, hframe⟩ := hadj.grow (n := 4) ha
      -- the fourteen bytes the old header goes back to, then the new tag
      obtain ⟨b, x, y, hb, hx, hy, hsplit⟩ := exists_split (new ++ (macs ++ p))
        (by simp only [List.length_append, hnew, hmacs, hp])
      have hgrown : ctx'.frame = [] ++ (b ++ (x ++ (y ++ c))) := by
        rw [hframe, hf, ← List.append_assoc macs, ← List.append_assoc new, hsplit]
        simp only [List.append_assoc, List.nil_append]
      have hethLen : (macs ++ p).length = 14 := by rw [List.length_append, hmacs, hp]
      have hst1 : storeBytes ctx'.frame 0 (macs ++ p) = some ((macs ++ p) ++ (x ++ (y ++ c))) := by
        rw [hgrown]
        exact storeBytes_at rfl (by rw [hb, hethLen])
      have hst2 : storeBytes ((macs ++ p) ++ (x ++ (y ++ c))) 14
          (le16 (htons (vlid % 2 ^ 16).toNat)) =
          some ((macs ++ p) ++ (be16Bytes (vlid % 2 ^ 16).toNat ++ (y ++ c))) := by
        rw [le16_htons (by omega)]
        exact storeBytes_at hethLen hx
      have hload3 : load ((macs ++ p) ++ (be16Bytes (vlid % 2 ^ 16).toNat ++ (y ++ c))) 12 2 =
          some (leNat (bytes (macs ++ (p ++ (be16Bytes (vlid % 2 ^ 16).toNat ++ (y ++ c))))) 12 2) := by
        rw [List.append_assoc]
        exact load_eq _ 12 2 (by simp only [List.length_append]; omega)
      have hst3 : storeBytes ((macs ++ p) ++ (be16Bytes (vlid % 2 ^ 16).toNat ++ (y ++ c))) 16 p =
          some (macs ++ (p ++ (be16Bytes (vlid % 2 ^ 16).toNat ++ (p ++ c)))) := by
        rw [← List.append_assoc (macs ++ p), storeBytes_at (by simp [hmacs, hp]) (by rw [hy, hp])]
        simp only [List.append_assoc]
      have hst4 : storeBytes (macs ++ (p ++ (be16Bytes (vlid % 2 ^ 16).toNat ++ (p ++ c)))) 12
          (le16 (htons ethP8021Q)) = some (macs ++ (be16Bytes ethP8021Q ++
            (be16Bytes (vlid % 2 ^ 16).toNat ++ (p ++ c)))) := by
        rw [le16_htons (by decide)]
        exact storeBytes_at hmacs hp
      have hl1 : ¬ 14 > ctx'.frame.length := by
        rw [hgrown, List.nil_append, List.length_append]
        omega
      have hl2 : ¬ 14 + 4 > ((macs ++ p) ++ (x ++ (y ++ c))).length := by
        simp only [List.length_append]
        omega
      simp only [hl1, if_false, hst1, Option.bind_some, hl2, hst2, hload3, le16_at hmacs hp, hst3,
        hst4]
      rfl

theorem vlanTagPop_eq {tpid tci : Nat} (hv : IsVlan tpid) (ht : tci < 2 ^ 16) (hc : 2 ≤ c.length)
    (hf : ctx.frame = macs ++ (be16Bytes tpid ++ (be16Bytes tci ++ c))) :
    vlanTagPop adjustHead ctx 0 = match adjustHead ctx 4 with
      | none => some (-1, ctx)
      | some ctx' => some (tci, { ctx' with frame := macs ++ c }) := by
  have hvlt : tpid < 2 ^ 16 := by
    rcases hv with rfl | rfl <;> decide
  obtain ⟨q, c', hq, rfl⟩ : ∃ q c', List.length q = 2 ∧ c = q ++ c' :=
    ⟨c.take 2, c.drop 2, by rw [List.length_take]; omega, (List.take_append_drop 2 c).symm⟩
  have hlen : ctx.frame.length = 18 + c'.length := by
    rw [hf]
    simp only [List.length_append, length_be16Bytes]
    omega
  have hproto : protoIsVlan (leNat (bytes ctx.frame) 12 2) = true := by
    rw [protoIsVlan_iff, hf, be16_at hmacs hvlt]
    exact hv
  have htci : htons (leNat (bytes ctx.frame) 14 2) = tci := by
    rw [htons_leNat_two, hf, ← List.append_assoc]
    exact be16_at (by simp [hmacs]) ht
  have hq' : le16 (leNat (bytes ctx.frame) 16 2) = q := by
    rw [hf, ← List.append_assoc (be16Bytes tpid), ← List.append_assoc macs]
    exact le16_at (by simp [hmacs]) hq
  have hcpy : loadBytes ctx.frame 0 14 = some (macs ++ be16Bytes tpid) := by
    rw [hf, ← List.append_assoc]
    exact loadBytes_at (a := []) rfl (by simp [hmacs])
  have hng : ¬ 0 + 14 + 4 > ctx.frame.length := by omega
  simp only [vlanTagPop, load_eq ctx.frame (0 + 12) 2 (by omega),
    load_eq ctx.frame (0 + 14) 2 (by omega), load_eq ctx.frame (0 + 16) 2 (by omega),
    Option.bind_eq_bind, Option.bind_some, Nat.zero_add, hproto, Bool.not_true, Bool.false_eq_true,
    if_false, hcpy, htci]
  rw [if_neg (by omega)]
  cases ha : adjustHead ctx 4 with
  | none => rfl
  | some ctx' =>
      have hframe := hadj.shrink (n := 4) ha
      have hP : (macs ++ (be16Bytes tpid ++ (be16Bytes tci ++ q))).length = 18 := by
        simp [hmacs, hq]
      have hcut : ctx'.frame =
          [] ++ ((macs ++ (be16Bytes tpid ++ (be16Bytes tci ++ q))).drop 4 ++ c') := by
        rw [hframe, hf, List.nil_append, ← List.drop_append_of_le_length (by omega)]
        simp only [List.append_assoc]
      have hst1 : storeBytes ctx'.frame 0 (macs ++ be16Bytes tpid) =
          some ((macs ++ be16Bytes tpid) ++ c') := by
        rw [hcut]
        exact storeBytes_at rfl (by simp [hmacs, hq])
      have hst2 : storeBytes ((macs ++ be16Bytes tpid) ++ c') 12 q = some (macs ++ (q ++ c')) := by
        rw [List.append_assoc]
        exact storeBytes_at hmacs (by rw [length_be16Bytes, hq])
      have hl : ¬ 14 > ctx'.frame.length := by
        rw [hframe, List.length_drop]
        omega
      simp only [hl, if_false, hst1, Option.bind_some, hq', hst2]
      rfl

end Rewriting

end PacketIntercept.RewriteHelpers
