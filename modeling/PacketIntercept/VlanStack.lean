import PacketIntercept.RewriteHelpers

namespace PacketIntercept.VlanStack

open ByteMemory CheckedLoads ParsingHelpers HeaderChain RewriteHelpers

structure Tag where
  tpid : Nat
  tci : Nat
  vlan : IsVlan tpid
  tci_lt : tci < 2 ^ 16

def Tag.encode (t : Tag) : Frame := be16Bytes t.tpid ++ be16Bytes t.tci

/-- A frame as a stack of tags between the addresses and the rest, which starts
with the EtherType and no further complete tag. -/
structure Tagged where
  dst : Frame
  src : Frame
  tags : List Tag
  inner : Frame
  dst_length : dst.length = ethAlen
  src_length : src.length = ethAlen
  inner_length : 2 ≤ inner.length
  untagged : IsVlan (be16 (bytes inner) 0) → inner.length < 6

def encodeTags (tags : List Tag) : Frame := tags.flatMap Tag.encode

def Tagged.encode (t : Tagged) : Frame := t.dst ++ (t.src ++ (encodeTags t.tags ++ t.inner))

inductive Op
  | push (vlid : Int)
  | pop
  | swapMac

/-- How far the operation moves the head of the frame. -/
def Op.delta : Op → Int
  | .push _ => -4
  | .pop => 4
  | .swapMac => 0

section Run

variable (adjustHead : Ctx → Int → Option Ctx)

/-- One helper called with eth at data; the swap returns nothing, which counts as 0. -/
def exec (ctx : Ctx) : Op → Option (Int × Ctx)
  | .push vlid => vlanTagPush adjustHead ctx 0 vlid
  | .pop => vlanTagPop adjustHead ctx 0
  | .swapMac => do
      let f ← swapSrcDstMac ctx.frame 0
      pure (0, { ctx with frame := f })

def execAll (ctx : Ctx) : List Op → Option (List Int × Ctx)
  | [] => some ([], ctx)
  | op :: ops => do
      let (r, ctx) ← exec adjustHead ctx op
      let (rs, ctx) ← execAll ctx ops
      pure (r :: rs, ctx)

/-- Whether the head could be moved, for each operation of a run. -/
def moved (ctx : Ctx) : List Op → List Bool
  | [] => []
  | op :: ops => (adjustHead ctx op.delta).isSome ::
      match exec adjustHead ctx op with
      | some (_, ctx) => moved ctx ops
      | none => []

end Run

def pushed (vlid : Int) : Tag where
  tpid := ethP8021Q
  tci := (vlid % 2 ^ 16).toNat
  vlan := .inl rfl
  tci_lt := by omega

/-- The operations on the stack. Without room for the move nothing changes. -/
def Tagged.exec (t : Tagged) (ok : Bool) : Op → Int × Tagged
  | .push vlid => if ok then (0, { t with tags := pushed vlid :: t.tags }) else (-1, t)
  | .pop =>
      match t.tags with
      | [] => (-1, t)
      | tag :: tags => if ok then (tag.tci, { t with tags := tags }) else (-1, t)
  | .swapMac => (0, { t with
      dst := t.src, src := t.dst, dst_length := t.src_length, src_length := t.dst_length })

def Tagged.execAll (t : Tagged) : List Op → List Bool → List Int × Tagged
  | [], _ => ([], t)
  | op :: ops, oks =>
      let (r, t) := t.exec (oks.headD false) op
      let (rs, t) := t.execAll ops oks.tail
      (r :: rs, t)

theorem Tagged.macs_length (t : Tagged) : (t.dst ++ t.src).length = 12 := by
  rw [List.length_append, t.dst_length, t.src_length]
  rfl

theorem Tagged.encode_eq (t : Tagged) :
    t.encode = (t.dst ++ t.src) ++ (encodeTags t.tags ++ t.inner) := by
  rw [Tagged.encode, List.append_assoc]

theorem inner_ge (tags : List Tag) {inner : Frame} (h : 2 ≤ inner.length) :
    2 ≤ (encodeTags tags ++ inner).length := by
  rw [List.length_append]
  omega

section Refinement

variable {adjustHead : Ctx → Int → Option Ctx} (hadj : MovesHead adjustHead) {ctx : Ctx} {t : Tagged}
  (hf : ctx.frame = t.encode)
include hadj hf

theorem push_refines (vlid : Int) :
    ∃ ctx', exec adjustHead ctx (.push vlid) =
        some ((t.exec (adjustHead ctx (-4)).isSome (.push vlid)).1, ctx') ∧
      ctx'.frame = (t.exec (adjustHead ctx (-4)).isSome (.push vlid)).2.encode := by
  obtain ⟨p, c, hp, hpc⟩ : ∃ p c, List.length p = 2 ∧ encodeTags t.tags ++ t.inner = p ++ c := by
    refine ⟨_, _, ?_, (List.take_append_drop 2 _).symm⟩
    rw [List.length_take]
    exact min_eq_left (inner_ge t.tags t.inner_length)
  have hf' : ctx.frame = (t.dst ++ t.src) ++ (p ++ c) := by rw [hf, t.encode_eq, hpc]
  rw [exec, vlanTagPush_eq hadj t.macs_length hp hf']
  cases ha : adjustHead ctx (-4) with
  | none => exact ⟨ctx, rfl, hf⟩
  | some ctx' =>
      refine ⟨_, rfl, ?_⟩
      simp [Tagged.exec, Tagged.encode_eq, encodeTags, Tag.encode, pushed, ← hpc]

theorem pop_refines :
    ∃ ctx', exec adjustHead ctx .pop = some ((t.exec (adjustHead ctx 4).isSome .pop).1, ctx') ∧
      ctx'.frame = (t.exec (adjustHead ctx 4).isSome .pop).2.encode := by
  cases htags : t.tags with
  | nil =>
      refine ⟨ctx, ?_, ?_⟩
      · rw [exec, vlanTagPop_untagged t.macs_length t.inner_length t.untagged]
        · simp only [Tagged.exec, htags]
        · rw [hf, t.encode_eq, htags]
          rfl
      · simp only [Tagged.exec, htags]
        exact hf
  | cons tag tags =>
      have hf' : ctx.frame = (t.dst ++ t.src) ++
          (be16Bytes tag.tpid ++ (be16Bytes tag.tci ++ (encodeTags tags ++ t.inner))) := by
        rw [hf, t.encode_eq, htags]
        simp [encodeTags, Tag.encode]
      rw [exec, vlanTagPop_eq hadj t.macs_length tag.vlan tag.tci_lt (inner_ge tags t.inner_length) hf']
      cases ha : adjustHead ctx 4 with
      | none =>
          refine ⟨ctx, ?_, ?_⟩
          · simp [Tagged.exec, htags]
          · simpa [Tagged.exec, htags] using hf
      | some ctx' =>
          refine ⟨{ ctx' with frame := (t.dst ++ t.src) ++ (encodeTags tags ++ t.inner) }, ?_, ?_⟩
          · simp only [Tagged.exec, htags, Option.isSome_some, if_true]
          · simp [Tagged.exec, htags, Tagged.encode_eq]

end Refinement

theorem swap_refines {adjustHead : Ctx → Int → Option Ctx} {ctx : Ctx} {t : Tagged}
    (hf : ctx.frame = t.encode) (ok : Bool) :
    ∃ ctx', exec adjustHead ctx .swapMac = some ((t.exec ok .swapMac).1, ctx') ∧
      ctx'.frame = (t.exec ok .swapMac).2.encode := by
  have hswap : swapSrcDstMac ctx.frame 0 =
      some (t.src ++ (t.dst ++ (encodeTags t.tags ++ t.inner))) := by
    rw [hf]
    exact swapFields_adjacent (a := []) rfl t.dst_length t.src_length rfl
  refine ⟨{ ctx with frame := t.src ++ (t.dst ++ (encodeTags t.tags ++ t.inner)) }, ?_, ?_⟩
  · simp only [exec, hswap, Option.bind_eq_bind, Option.bind_some]
    rfl
  · rfl

theorem exec_refines {adjustHead : Ctx → Int → Option Ctx} (hadj : MovesHead adjustHead) {ctx : Ctx}
    {t : Tagged} (hf : ctx.frame = t.encode) (op : Op) :
    ∃ ctx', exec adjustHead ctx op = some ((t.exec (adjustHead ctx op.delta).isSome op).1, ctx') ∧
      ctx'.frame = (t.exec (adjustHead ctx op.delta).isSome op).2.encode := by
  cases op with
  | push vlid => exact push_refines hadj hf vlid
  | pop => exact pop_refines hadj hf
  | swapMac => exact swap_refines hf _

theorem execAll_refines {adjustHead : Ctx → Int → Option Ctx} (hadj : MovesHead adjustHead)
    (ops : List Op) {ctx : Ctx} {t : Tagged} (hf : ctx.frame = t.encode) :
    ∃ ctx', execAll adjustHead ctx ops = some ((t.execAll ops (moved adjustHead ctx ops)).1, ctx') ∧
      ctx'.frame = (t.execAll ops (moved adjustHead ctx ops)).2.encode := by
  induction ops generalizing ctx t with
  | nil => exact ⟨ctx, rfl, hf⟩
  | cons op ops ih =>
      obtain ⟨ctx1, hexec, hf1⟩ := exec_refines hadj hf op
      obtain ⟨ctx2, hall, hf2⟩ := ih hf1
      refine ⟨ctx2, ?_, ?_⟩
      · simp only [execAll, hexec, Option.bind_eq_bind, Option.bind_some, hall, moved,
          Tagged.execAll, List.headD_cons, List.tail_cons]
        rfl
      · simp only [moved, hexec, Tagged.execAll, List.headD_cons, List.tail_cons]
        exact hf2

theorem Tag.tpid_lt (t : Tag) : t.tpid < 2 ^ 16 := by
  rcases t.vlan with h | h <;> rw [h] <;> decide

section Parser

variable {inner : Frame} (hin : 2 ≤ inner.length)
  (hun : IsVlan (be16 (bytes inner) 0) → inner.length < 6) {pre : Frame} {pos : Nat}
  (hpre : pre.length = pos)

include hun hpre in
theorem vlanLoop_untagged (k : Nat) (ids : List Nat) :
    vlanLoop (pre ++ inner) true (k + 1) (leNat (bytes (pre ++ inner)) pos 2) (pos + 2) ids =
      some (leNat (bytes inner) 0 2, pos + 2, ids) := by
  have hlen : (pre ++ inner).length = pos + inner.length := by rw [List.length_append, hpre]
  rw [← leNat_at hpre (c := inner) 2]
  by_cases hv : IsVlan (be16 (bytes (pre ++ inner)) pos)
  · have hb : be16 (bytes (pre ++ inner)) pos = be16 (bytes inner) 0 := by
      rw [← htons_leNat_two, leNat_at hpre, htons_leNat_two]
    have hshort := hun (hb ▸ hv)
    have hgt : pos + 2 + 4 > (pre ++ inner).length := by omega
    rw [vlanLoop, (protoIsVlan_iff _ _).mpr hv]
    simp only [Bool.not_true, Bool.false_eq_true, if_false, hgt, if_true]
  · have hp : protoIsVlan (leNat (bytes (pre ++ inner)) pos 2) = false := by
      rw [← Bool.not_eq_true, protoIsVlan_iff]
      exact hv
    rw [vlanLoop, hp]
    rfl

include hpre in
theorem vlanLoop_tag {rest : Frame} (hrest : 2 ≤ rest.length) (tag : Tag) (k : Nat)
    (ids : List Nat) :
    vlanLoop (pre ++ (tag.encode ++ rest)) true (k + 1)
        (leNat (bytes (pre ++ (tag.encode ++ rest))) pos 2) (pos + 2) ids =
      vlanLoop (pre ++ (tag.encode ++ rest)) true k
        (leNat (bytes (pre ++ (tag.encode ++ rest))) (pos + 4) 2) (pos + 4 + 2)
        (ids ++ [tag.tci &&& vlanVidMask]) := by
  have hlen : pos + 2 + 4 ≤ (pre ++ (tag.encode ++ rest)).length := by
    simp only [Tag.encode, List.length_append, length_be16Bytes]
    omega
  have hv : protoIsVlan (leNat (bytes (pre ++ (tag.encode ++ rest))) pos 2) = true := by
    rw [protoIsVlan_iff, Tag.encode, List.append_assoc, be16_at hpre tag.tpid_lt]
    exact tag.vlan
  have htci : htons (leNat (bytes (pre ++ (tag.encode ++ rest))) (pos + 2) 2) = tag.tci := by
    rw [htons_leNat_two, Tag.encode, List.append_assoc, ← List.append_assoc pre]
    exact be16_at (by simp [hpre]) tag.tci_lt
  have hng : ¬ pos + 2 + 4 > (pre ++ (tag.encode ++ rest)).length := by omega
  rw [vlanLoop, hv]
  simp only [Bool.not_true, Bool.false_eq_true, if_false, hng, if_true,
    load_eq _ (pos + 2 + 2) 2 (Nat.le_trans (by omega) hlen),
    load_eq _ (pos + 2) 2 (Nat.le_trans (by omega) hlen), Option.bind_eq_bind,
    Option.bind_some, htci, pure]

include hin hun hpre in
/-- The loop takes the first k tags, wherever they stand in the frame. -/
theorem vlanLoop_encoded (k : Nat) (tags : List Tag) (ids : List Nat) :
    vlanLoop (pre ++ (encodeTags tags ++ inner)) true k
        (leNat (bytes (pre ++ (encodeTags tags ++ inner))) pos 2) (pos + 2) ids =
      some (leNat (bytes (encodeTags (tags.drop k) ++ inner)) 0 2,
        pos + 2 + 4 * min k tags.length, ids ++ (tags.take k).map (fun t => t.tci &&& vlanVidMask)) := by
  induction k generalizing tags pre pos ids with
  | zero =>
      rw [vlanLoop, leNat_at hpre, List.take_zero, List.map_nil, List.append_nil]
      simp
  | succ k ih =>
      cases tags with
      | nil => simpa [encodeTags] using vlanLoop_untagged hun hpre k ids
      | cons tag tags =>
          have hcons : encodeTags (tag :: tags) ++ inner =
              tag.encode ++ (encodeTags tags ++ inner) := by
            rw [encodeTags, List.flatMap_cons, List.append_assoc, ← encodeTags]
          rw [hcons, vlanLoop_tag hpre (inner_ge tags hin) tag, ← List.append_assoc pre,
            ih (by simp [hpre, Tag.encode]) tags]
          simp only [List.drop_succ_cons, List.take_succ_cons, List.map_cons, List.length_cons,
            List.append_assoc, List.singleton_append, Option.some.injEq, Prod.mk.injEq, and_true,
            true_and]
          omega

end Parser

/-- parse_ethhdr_vlan reports the two outermost tags of the stack. -/
theorem parseEthhdrVlan_encoded (t : Tagged) :
    parseEthhdrVlan t.encode 0 true =
      some (⟨leNat (bytes (encodeTags (t.tags.drop vlanMaxDepth) ++ t.inner)) 0 2,
          14 + 4 * min vlanMaxDepth t.tags.length, 0⟩,
        (t.tags.take vlanMaxDepth).map (fun tag => tag.tci &&& vlanVidMask)) := by
  have hge := inner_ge t.tags t.inner_length
  have hng : ¬ 0 + 14 > t.encode.length := by
    rw [t.encode_eq, List.length_append, t.macs_length]
    omega
  have hloop := vlanLoop_encoded t.inner_length t.untagged t.macs_length vlanMaxDepth t.tags []
  rw [← t.encode_eq] at hloop
  simp only [parseEthhdrVlan, hng, if_false, load_eq t.encode (0 + 12) 2 (by omega),
    Option.bind_eq_bind, Option.bind_some]
  rw [Nat.zero_add, Nat.zero_add, hloop]
  rfl

theorem be16Bytes_be16 (m : Mem) (pos : Nat) : be16Bytes (be16 m pos) = [m pos, m (pos + 1)] := by
  have h1 : (m (pos + 1)).toNat < 256 := (m (pos + 1)).toNat_lt
  have hhigh : be16 m pos / 256 = (m pos).toNat := by
    rw [be16]
    omega
  have hlow : UInt8.ofNat (be16 m pos) = m (pos + 1) := by
    apply UInt8.toNat_inj.mp
    rw [UInt8.toNat_ofNat', be16]
    omega
  rw [be16Bytes, hhigh, hlow, UInt8.ofNat_toNat]

theorem exists_encodeTags (n : Nat) (g : Frame) (hn : g.length ≤ n) (hg : 2 ≤ g.length) :
    ∃ tags inner, g = encodeTags tags ++ inner ∧ 2 ≤ inner.length ∧
      (IsVlan (be16 (bytes inner) 0) → inner.length < 6) := by
  induction n generalizing g with
  | zero => omega
  | succ n ih =>
      by_cases hv : IsVlan (be16 (bytes g) 0) ∧ 6 ≤ g.length
      · obtain ⟨h4, rest, hd, h4l, hl⟩ := exists_drop (f := g) (n := 4) (show 0 + 4 ≤ g.length by omega)
        rw [List.drop_zero] at hd
        obtain ⟨tags, inner, hrest, hin, hun⟩ := ih rest (by omega) (by omega)
        refine ⟨⟨be16 (bytes g) 0, be16 (bytes g) 2, hv.1, be16_lt _ _⟩ :: tags, inner, ?_, hin, hun⟩
        obtain ⟨w, x, y, z, rfl⟩ := List.length_eq_four.mp h4l
        rw [encodeTags, List.flatMap_cons, Tag.encode, be16Bytes_be16, be16Bytes_be16, hd]
        exact congrArg ([w, x, y, z] ++ ·) hrest
      · refine ⟨[], g, rfl, hg, ?_⟩
        intro hvlan
        by_contra hlt
        exact hv ⟨hvlan, by omega⟩

theorem exists_tagged {f : Frame} (h14 : 14 ≤ f.length) : ∃ t : Tagged, f = t.encode := by
  obtain ⟨dst, f1, hd1, hl1, hf1⟩ := exists_drop (f := f) (n := 6) (show 0 + 6 ≤ f.length by omega)
  rw [List.drop_zero] at hd1
  obtain ⟨src, f2, hd2, hl2, hf2⟩ := exists_drop (f := f1) (n := 6) (show 0 + 6 ≤ f1.length by omega)
  rw [List.drop_zero] at hd2
  obtain ⟨tags, inner, hg, hin, hun⟩ := exists_encodeTags f2.length f2 le_rfl (by omega)
  refine ⟨⟨dst, src, tags, inner, hl1, hl2, hin, hun⟩, ?_⟩
  rw [Tagged.encode, hd1, hd2, hg]

/-- A run of the helpers gives the results of the stack and leaves its frame,
and parse_ethhdr_vlan then finds the ids of the two tags on top and the
EtherType below them. -/
def ActsAsStack (adjustHead : Ctx → Int → Option Ctx) (ctx : Ctx) (t : Tagged) (ops : List Op) : Prop :=
  ∃ rs t' ctx', t.execAll ops (moved adjustHead ctx ops) = (rs, t') ∧
    execAll adjustHead ctx ops = some (rs, ctx') ∧ ctx'.frame = t'.encode ∧
    parseEthhdrVlan ctx'.frame 0 true =
      some (⟨leNat (bytes (encodeTags (t'.tags.drop vlanMaxDepth) ++ t'.inner)) 0 2,
          14 + 4 * min vlanMaxDepth t'.tags.length, 0⟩,
        (t'.tags.take vlanMaxDepth).map (fun tag => tag.tci &&& vlanVidMask))

/-- Every frame with an Ethernet header is a stack of tags, and every run of the
rewriting helpers on it acts as on the stack, wherever the head cannot be moved. -/
theorem rewriting_refines_stack {adjustHead : Ctx → Int → Option Ctx} (hadj : MovesHead adjustHead)
    {ctx : Ctx} (h14 : 14 ≤ ctx.frame.length) :
    ∃ t : Tagged, ctx.frame = t.encode ∧ ∀ ops, ActsAsStack adjustHead ctx t ops := by
  obtain ⟨t, hf⟩ := exists_tagged h14
  refine ⟨t, hf, ?_⟩
  intro ops
  obtain ⟨ctx', hall, hf'⟩ := execAll_refines hadj ops hf
  refine ⟨_, _, ctx', rfl, hall, hf', ?_⟩
  rw [hf']
  exact parseEthhdrVlan_encoded _

/-- A head that moves into the free room, and not past the last fourteen bytes. -/
def moveHead (ctx : Ctx) (delta : Int) : Option Ctx :=
  if delta < 0 then
    if delta.natAbs ≤ ctx.room then
      some ⟨List.replicate delta.natAbs 0 ++ ctx.frame, ctx.room - delta.natAbs⟩
    else none
  else if delta.natAbs + 14 ≤ ctx.frame.length then
    some ⟨ctx.frame.drop delta.natAbs, ctx.room + delta.natAbs⟩
  else none

theorem moveHead_moves : MovesHead moveHead where
  shrink := by
    intro ctx ctx' n h
    rw [moveHead, if_neg (Int.not_lt.mpr (Int.natCast_nonneg n)), Int.natAbs_natCast] at h
    split at h
    · cases h
      rfl
    · cases h
  grow := by
    intro ctx ctx' n h
    rw [moveHead, Int.natAbs_neg, Int.natAbs_natCast] at h
    split at h
    · split at h
      · cases h
        exact ⟨_, List.length_replicate, rfl⟩
      · cases h
    · next hn =>
        obtain rfl : n = 0 := by omega
        split at h
        · cases h
          exact ⟨[], rfl, rfl⟩
        · cases h

def bareCtx : Ctx where
  frame := List.replicate 12 0 ++ [8, 0]
  room := 4

theorem bareCtx_acts_as_stack :
    MovesHead moveHead ∧ ∃ t : Tagged, bareCtx.frame = t.encode ∧
      ∀ ops, ActsAsStack moveHead bareCtx t ops :=
  ⟨moveHead_moves, rewriting_refines_stack moveHead_moves (by decide)⟩

example : execAll moveHead bareCtx [.push 5, .push 6, .pop, .pop] =
    some ([0, -1, 5, -1], bareCtx) := by decide

end PacketIntercept.VlanStack
