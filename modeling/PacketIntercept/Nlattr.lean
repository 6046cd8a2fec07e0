import PacketIntercept.RewriteHelpers

namespace PacketIntercept.Nlattr

open ByteMemory CheckedLoads ParsingHelpers HeaderChain RewriteHelpers

def nlaHdrlen : Nat := 4

def nlaAlign (len : Nat) : Nat := (len + 3) / 4 * 4

def libbpfNlaString : Nat := 5

def libbpfNlaTypeMax : Nat := 8

structure LibbpfNlaPolicy where
  type : Nat
  minlen : Nat
  maxlen : Nat

def nlaAttrMinlen : Nat → Nat
  | 1 => 1
  | 2 => 2
  | 3 => 4
  | 4 => 8
  | 5 => 1
  | _ => 0

/-- Fourteen bits of the type field count; the rest are flags. -/
def nlaType (f : Frame) (nla : Nat) : Option Nat := do
  let type ← load f (nla + 2) 2
  pure (type % 2 ^ 14)

def libbpfNlaLen (f : Frame) (nla : Nat) : Option Int := do
  let len ← load f nla 2
  pure (len - nlaHdrlen)

/-- The first comparison is made in size_t, so a negative rest passes it. -/
def nlaOk (f : Frame) (nla : Nat) (remaining : Int) : Option Bool :=
  if toSizeT remaining < nlaHdrlen then some false
  else do
    let len ← load f nla 2
    pure (decide (nlaHdrlen ≤ len) && decide ((len : Int) ≤ remaining))

def nlaNext (f : Frame) (nla : Nat) (remaining : Int) : Option (Nat × Int) := do
  let len ← load f nla 2
  pure (nla + nlaAlign len, remaining - nlaAlign len)

def minlen (pt : LibbpfNlaPolicy) : Nat :=
  if pt.minlen ≠ 0 then pt.minlen else if pt.type ≠ 0 then nlaAttrMinlen pt.type else 0

def validateNla (f : Frame) (nla maxtype : Nat) (policy : Nat → LibbpfNlaPolicy) : Option Int := do
  let type ← nlaType f nla
  if maxtype < type then pure 0
  else if libbpfNlaTypeMax < (policy type).type then pure 0
  else do
    let len ← libbpfNlaLen f nla
    if (len % 2 ^ 32).toNat < minlen (policy type) then pure (-1)
    else if (policy type).maxlen ≠ 0 ∧ len > (policy type).maxlen then pure (-1)
    else if (policy type).type = libbpfNlaString then do
      let last ← load f (nla + nlaHdrlen + len.toNat - 1) 1
      if last ≠ 0 then pure (-1) else pure 0
    else pure 0

/-- The array tb: where the attribute of each type stands. -/
abbrev Index := Nat → Option Nat

inductive Parse
  | unfinished
  | returned (err : Int) (tb : Index)

/-- The loop of libbpf_nla_parse. None is a load outside the stream. -/
def parseLoop (f : Frame) (maxtype : Nat) (policy : Option (Nat → LibbpfNlaPolicy)) :
    Nat → Nat → Int → Index → Option Parse
  | 0, _, _, _ => some .unfinished
  | fuel + 1, nla, rem, tb => do
      let ok ← nlaOk f nla rem
      if !ok then pure (.returned 0 tb)
      else do
        let type ← nlaType f nla
        if maxtype < type then do
          let (nla, rem) ← nlaNext f nla rem
          parseLoop f maxtype policy fuel nla rem tb
        else do
          let err ← match policy with
            | none => pure 0
            | some policy => validateNla f nla maxtype policy
          if err < 0 then pure (.returned err tb)
          else do
            let tb := Function.update tb type (some nla)
            let (nla, rem) ← nlaNext f nla rem
            parseLoop f maxtype policy fuel nla rem tb

def libbpfNlaParse (f : Frame) (maxtype : Nat) (policy : Option (Nat → LibbpfNlaPolicy)) (fuel : Nat) :
    Option Parse :=
  parseLoop f maxtype policy fuel 0 f.length (fun _ => none)

/-- One attribute of a stream, with the bytes that fill it up to a multiple of four. -/
structure Attr where
  type : Nat
  data : Frame
  pad : Frame
  type_lt : type < 2 ^ 16
  length_lt : nlaHdrlen + data.length < 2 ^ 16
  pad_length : nlaHdrlen + data.length + pad.length = nlaAlign (nlaHdrlen + data.length)

def Attr.kind (a : Attr) : Nat := a.type % 2 ^ 14

def Attr.body (a : Attr) : Frame := le16 (nlaHdrlen + a.data.length) ++ (le16 a.type ++ a.data)

def Attr.encode (a : Attr) : Frame := a.body ++ a.pad

def encodeAll (attrs : List Attr) : Frame := attrs.flatMap Attr.encode

/-- What a policy asks of an attribute. -/
def Meets (pt : LibbpfNlaPolicy) (data : Frame) : Prop :=
  pt.type ≤ libbpfNlaTypeMax →
    minlen pt ≤ data.length ∧ (pt.maxlen ≠ 0 → data.length ≤ pt.maxlen) ∧
    (pt.type = libbpfNlaString → data.getLast? = some 0)

def Attr.Accepted (a : Attr) (maxtype : Nat) (policy : Option (Nat → LibbpfNlaPolicy)) : Prop :=
  a.kind ≤ maxtype → ∀ p, policy = some p → Meets (p a.kind) a.data

/-- The last attribute of a type stands at pos. -/
def LastAt (attrs : List Attr) (t pos : Nat) : Prop :=
  ∃ before a after, attrs = before ++ a :: after ∧ a.kind = t ∧ (∀ b ∈ after, b.kind ≠ t) ∧
    pos = (encodeAll before).length

/-- Each type up to maxtype points at the last attribute of that type. -/
def Indexes (maxtype : Nat) (attrs : List Attr) (tb : Index) : Prop :=
  ∀ t pos, tb t = some pos ↔ t ≤ maxtype ∧ LastAt attrs t pos

/-- No complete attribute starts here. -/
def Ends (g : Frame) : Prop :=
  g.length < nlaHdrlen ∨ leNat (bytes g) 0 2 < nlaHdrlen ∨ g.length < leNat (bytes g) 0 2

theorem leNat_le16 {v : Nat} (hv : v < 2 ^ 16) (c : Frame) : leNat (bytes (le16 v ++ c)) 0 2 = v := by
  have h0 : bytes (le16 v ++ c) 0 = leByte v 0 := rfl
  have h1 : bytes (le16 v ++ c) 1 = leByte v 1 := rfl
  have hread := @leNat_leByte (bytes (le16 v ++ c)) 0 v 2 (by
    intro i hi
    rcases (by omega : i = 0 ∨ i = 1) with rfl | rfl
    · exact h0
    · exact h1)
  rw [hread, Nat.mod_eq_of_lt (by omega)]

theorem leNat_two_lt (m : Mem) (pos : Nat) : leNat m pos 2 < 2 ^ 16 := by
  have h0 : (m pos).toNat < 256 := (m pos).toNat_lt
  have h1 : (m (pos + 1)).toNat < 256 := (m (pos + 1)).toNat_lt
  simp only [leNat]
  omega

theorem le_nlaAlign (len : Nat) : len ≤ nlaAlign len := by
  rw [nlaAlign]
  omega

theorem le16_at_front (g : Frame) (hg : 2 ≤ g.length) : g = le16 (leNat (bytes g) 0 2) ++ g.drop 2 := by
  have hp : (g.take 2).length = 2 := by
    rw [List.length_take]
    omega
  have hle := @le16_at [] (g.drop 2) 0 rfl (g.take 2) hp
  rw [List.nil_append, List.take_append_drop] at hle
  rw [hle, List.take_append_drop]

theorem load_eq_none (f : Frame) (pos w : Nat) (hw : 0 < w) (h : f.length < pos + w) :
    load f pos w = none := by
  induction w generalizing pos with
  | zero => omega
  | succ w ih =>
      cases hb : f[pos]? with
      | none => simp [load, hb]
      | some b =>
          have hlt : pos < f.length := (List.getElem?_eq_some_iff.mp hb).1
          simp [load, hb, ih (pos + 1) (by omega) (by omega)]

/-- A complete attribute is followed by its padding, or the stream stops inside it. -/
theorem exists_attr {g : Frame} (h : ¬ Ends g) :
    (∃ a rest, g = Attr.encode a ++ rest) ∨
      ∃ a rest, g = Attr.body a ++ rest ∧ rest.length < a.pad.length := by
  rw [Ends, not_or, not_or, Nat.not_lt, Nat.not_lt, Nat.not_lt] at h
  obtain ⟨h4, hlen, hle⟩ := h
  rw [nlaHdrlen] at h4 hlen
  have hlt := leNat_two_lt (bytes g) 0
  have htype := leNat_two_lt (bytes (g.drop 2)) 0
  have hdata : (((g.drop 2).drop 2).take (leNat (bytes g) 0 2 - 4)).length = leNat (bytes g) 0 2 - 4 := by
    rw [List.length_take, List.length_drop, List.length_drop]
    omega
  have hsum : nlaHdrlen + (((g.drop 2).drop 2).take (leNat (bytes g) 0 2 - 4)).length =
      leNat (bytes g) 0 2 := by
    rw [hdata, nlaHdrlen]
    omega
  have hsplit : g = le16 (leNat (bytes g) 0 2) ++ (le16 (leNat (bytes (g.drop 2)) 0 2) ++
      (((g.drop 2).drop 2).take (leNat (bytes g) 0 2 - 4) ++
        ((g.drop 2).drop 2).drop (leNat (bytes g) 0 2 - 4))) := by
    rw [List.take_append_drop, ← le16_at_front (g.drop 2) (by rw [List.length_drop]; omega)]
    exact le16_at_front g (by omega)
  generalize ((g.drop 2).drop 2).take (leNat (bytes g) 0 2 - 4) = data at hsum hsplit
  generalize ((g.drop 2).drop 2).drop (leNat (bytes g) 0 2 - 4) = rest at hsplit
  generalize leNat (bytes g) 0 2 = len at hlen hle hlt hsum hsplit
  generalize leNat (bytes (g.drop 2)) 0 2 = type at htype hsplit
  subst hsum
  have hpad := le_nlaAlign (nlaHdrlen + data.length)
  rcases Nat.lt_or_ge rest.length (nlaAlign (nlaHdrlen + data.length) - (nlaHdrlen + data.length)) with
    hshort | hlong
  · right
    refine ⟨⟨type, data, List.replicate (nlaAlign (nlaHdrlen + data.length) -
      (nlaHdrlen + data.length)) 0, htype, hlt, ?_⟩, rest, ?_, ?_⟩
    · rw [List.length_replicate]
      omega
    · rw [hsplit, Attr.body]
      simp only [List.append_assoc]
    · rw [List.length_replicate]
      exact hshort
  · left
    refine ⟨⟨type, data, rest.take (nlaAlign (nlaHdrlen + data.length) -
      (nlaHdrlen + data.length)), htype, hlt, ?_⟩, rest.drop (nlaAlign (nlaHdrlen + data.length) -
      (nlaHdrlen + data.length)), ?_⟩
    · rw [List.length_take]
      omega
    · rw [hsplit, Attr.encode, Attr.body]
      simp only [List.append_assoc, List.take_append_drop]

theorem Attr.length_body (a : Attr) : a.body.length = nlaHdrlen + a.data.length := by
  rw [Attr.body, List.length_append, List.length_append, length_le16, length_le16, nlaHdrlen]
  omega

theorem Attr.length_encode (a : Attr) : a.encode.length = nlaAlign (nlaHdrlen + a.data.length) := by
  rw [Attr.encode, List.length_append, a.length_body, a.pad_length]

section Attribute

variable {f pre rest : Frame} {a : Attr} {pos : Nat} (hpre : pre.length = pos)
  (hf : f = pre ++ (a.body ++ rest))
include hpre hf

theorem attr_inside : pos + (nlaHdrlen + a.data.length) + rest.length = f.length := by
  rw [hf, List.length_append, List.length_append, a.length_body, hpre]
  omega

theorem load_len : load f pos 2 = some (nlaHdrlen + a.data.length) := by
  have hin := attr_inside hpre hf
  rw [nlaHdrlen] at hin
  rw [load_eq f pos 2 (by omega), hf, leNat_at hpre, Attr.body, List.append_assoc,
    leNat_le16 a.length_lt]

theorem nlaType_attr : nlaType f pos = some a.kind := by
  have hin := attr_inside hpre hf
  rw [nlaHdrlen] at hin
  have hsplit : f = (pre ++ le16 (nlaHdrlen + a.data.length)) ++ (le16 a.type ++ (a.data ++ rest)) := by
    rw [hf, Attr.body]
    simp only [List.append_assoc]
  have htype : leNat (bytes f) (pos + 2) 2 = a.type := by
    rw [hsplit, leNat_at (by rw [List.length_append, length_le16, hpre]), leNat_le16 a.type_lt]
  rw [nlaType, load_eq f (pos + 2) 2 (by omega), htype]
  rfl

theorem nlaOk_attr (hint : f.length < 2 ^ 31) :
    nlaOk f pos ((nlaHdrlen + a.data.length + rest.length : Nat) : Int) = some true := by
  have hin := attr_inside hpre hf
  have hsize : ¬ toSizeT ((nlaHdrlen + a.data.length + rest.length : Nat) : Int) < nlaHdrlen := by
    rw [FrameGrammar.toSizeT_natCast (by omega), nlaHdrlen]
    omega
  rw [nlaOk, if_neg hsize, load_len hpre hf]
  simp

theorem nlaNext_attr (rem : Int) :
    nlaNext f pos rem = some (pos + a.encode.length, rem - a.encode.length) := by
  rw [nlaNext, load_len hpre hf, a.length_encode]
  rfl

theorem load_last (hne : 0 < a.data.length) :
    ∃ b, a.data.getLast? = some b ∧ load f (pos + nlaHdrlen + a.data.length - 1) 1 = some b.toNat := by
  have hin := attr_inside hpre hf
  obtain ⟨ys, b, hb⟩ : ∃ ys b, a.data = ys ++ [b] := by
    rcases List.eq_nil_or_concat a.data with hnil | h
    · rw [hnil] at hne
      exact absurd hne (by decide)
    · simpa using h
  have hpos : pos + nlaHdrlen + a.data.length - 1 = pos + nlaHdrlen + ys.length := by
    rw [hb, List.length_append, List.length_singleton]
    omega
  have hsplit : f = (pre ++ (le16 (nlaHdrlen + a.data.length) ++ (le16 a.type ++ ys))) ++
      ([b] ++ rest) := by
    rw [hf, Attr.body]
    nth_rewrite 2 [hb]
    simp only [List.append_assoc]
  have hl : (pre ++ (le16 (nlaHdrlen + a.data.length) ++ (le16 a.type ++ ys))).length =
      pos + nlaHdrlen + ys.length := by
    simp only [List.length_append, length_le16, hpre, nlaHdrlen]
    omega
  have hlast : bytes f (pos + nlaHdrlen + ys.length) = b := by
    rw [hsplit]
    exact bytes_at hl 0
  refine ⟨b, by rw [hb, List.getLast?_concat], ?_⟩
  rw [load_one f _ (by omega), hpos, hlast]

theorem validateNla_attr {maxtype : Nat} (hk : a.kind ≤ maxtype) (p : Nat → LibbpfNlaPolicy) :
    Meets (p a.kind) a.data ∧ validateNla f pos maxtype p = some 0 ∨
      ¬ Meets (p a.kind) a.data ∧ validateNla f pos maxtype p = some (-1) := by
  have hlen : libbpfNlaLen f pos = some (a.data.length : Int) := by
    rw [libbpfNlaLen, load_len hpre hf]
    simp [nlaHdrlen]
  have hlt := a.length_lt
  have hwrap : ((a.data.length : Int) % 2 ^ 32).toNat = a.data.length := by omega
  have hnk : ¬ maxtype < a.kind := Nat.not_lt.mpr hk
  simp only [validateNla, nlaType_attr hpre hf, Option.bind_eq_bind, Option.bind_some, hnk, if_false,
    hlen, hwrap]
  generalize p a.kind = pt
  by_cases htype : libbpfNlaTypeMax < pt.type
  · left
    rw [if_pos htype]
    exact ⟨fun hle => absurd hle (Nat.not_le.mpr htype), rfl⟩
  · rw [if_neg htype]
    have htype' := Nat.le_of_not_lt htype
    by_cases hmin : a.data.length < minlen pt
    · right
      rw [if_pos hmin]
      exact ⟨fun h => absurd (h htype').1 (Nat.not_le.mpr hmin), rfl⟩
    · rw [if_neg hmin]
      have hmin' := Nat.le_of_not_lt hmin
      by_cases hmax : pt.maxlen ≠ 0 ∧ (a.data.length : Int) > pt.maxlen
      · right
        rw [if_pos hmax]
        refine ⟨fun h => ?_, rfl⟩
        have hle := (h htype').2.1 hmax.1
        omega
      · rw [if_neg hmax]
        have hmax' : pt.maxlen ≠ 0 → a.data.length ≤ pt.maxlen := by
          intro h0
          by_contra hgt
          exact hmax ⟨h0, by omega⟩
        by_cases hstr : pt.type = libbpfNlaString
        · have hpos : 0 < a.data.length := by
            have h1 : 0 < minlen pt := by
              rw [minlen]
              split
              · omega
              · rw [hstr]
                decide
            omega
          obtain ⟨b, hb, hload⟩ := load_last hpre hf hpos
          rw [if_pos hstr, Int.toNat_natCast, hload, Option.bind_some]
          by_cases h0 : b.toNat = 0
          · left
            rw [if_neg (not_not.mpr h0)]
            have hz : b = 0 := UInt8.toNat_inj.mp h0
            exact ⟨fun _ => ⟨hmin', hmax', fun _ => hz ▸ hb⟩, rfl⟩
          · right
            rw [if_pos h0]
            refine ⟨fun h => h0 ?_, rfl⟩
            have hlast := (h htype').2.2 hstr
            rw [hb, Option.some.injEq] at hlast
            rw [hlast]
            rfl
        · left
          rw [if_neg hstr]
          exact ⟨fun _ => ⟨hmin', hmax', fun h => absurd h hstr⟩, rfl⟩

end Attribute

theorem lastAt_snoc_self (attrs : List Attr) (a : Attr) (pos : Nat) :
    LastAt (attrs ++ [a]) a.kind pos ↔ pos = (encodeAll attrs).length := by
  constructor
  · rintro ⟨before, x, after, hsplit, -, hafter, rfl⟩
    rcases List.eq_nil_or_concat after with rfl | ⟨after, y, rfl⟩
    · rw [(List.append_inj' hsplit rfl).1]
    · rw [List.concat_eq_append, ← List.cons_append, ← List.append_assoc] at hsplit
      have hy : [a] = [y] := (List.append_inj' hsplit rfl).2
      cases hy
      exact absurd rfl (hafter a (by simp))
  · rintro rfl
    exact ⟨attrs, a, [], rfl, rfl, fun b hb => absurd hb List.not_mem_nil, rfl⟩

theorem lastAt_snoc_of_ne (attrs : List Attr) {a : Attr} {t : Nat} (ht : a.kind ≠ t) (pos : Nat) :
    LastAt (attrs ++ [a]) t pos ↔ LastAt attrs t pos := by
  constructor
  · rintro ⟨before, x, after, hsplit, hx, hafter, hpos⟩
    rcases List.eq_nil_or_concat after with rfl | ⟨after, y, rfl⟩
    · have hxa : [a] = [x] := (List.append_inj' hsplit rfl).2
      cases hxa
      exact absurd hx ht
    · rw [List.concat_eq_append, ← List.cons_append, ← List.append_assoc] at hsplit
      refine ⟨before, x, after, (List.append_inj' hsplit rfl).1, hx, ?_, hpos⟩
      intro b hb
      exact hafter b (by simp [hb])
  · rintro ⟨before, x, after, rfl, hx, hafter, hpos⟩
    refine ⟨before, x, after ++ [a], by simp, hx, ?_, hpos⟩
    intro b hb
    rcases List.mem_append.mp hb with hb | hb
    · exact hafter b hb
    · rw [List.mem_singleton.mp hb]
      exact ht

def indexed (maxtype : Nat) (past : List Attr) (a : Attr) (tb : Index) : Index :=
  if maxtype < a.kind then tb else Function.update tb a.kind (some (encodeAll past).length)

theorem indexes_nil (maxtype : Nat) : Indexes maxtype [] fun _ => none := by
  intro t pos
  constructor
  · intro h
    cases h
  · rintro ⟨-, before, a, after, hsplit, -⟩
    simp at hsplit

theorem indexes_snoc {maxtype : Nat} {past : List Attr} {tb : Index} (h : Indexes maxtype past tb)
    (a : Attr) : Indexes maxtype (past ++ [a]) (indexed maxtype past a tb) := by
  intro t pos
  by_cases ht : a.kind = t
  · subst ht
    rw [lastAt_snoc_self, indexed]
    by_cases hk : maxtype < a.kind
    · rw [if_pos hk, h]
      omega
    · rw [if_neg hk, Function.update_self, Option.some.injEq]
      omega
  · rw [lastAt_snoc_of_ne past ht, ← h t pos, indexed]
    split
    · rfl
    · rw [Function.update_of_ne (Ne.symm ht)]

/-- After an attribute whose padding is missing the rest is negative, and the
next turn reads behind the stream. -/
theorem parseLoop_behind {f : Frame} {maxtype : Nat} {policy : Option (Nat → LibbpfNlaPolicy)} {pos : Nat}
    {rem : Int} (hpos : f.length < pos) (hrem : rem < 0) (hlow : -4 ≤ rem) (fuel : Nat) (tb : Index) :
    parseLoop f maxtype policy (fuel + 1) pos rem tb = none := by
  have hsize : ¬ toSizeT rem < nlaHdrlen := by
    rw [toSizeT, nlaHdrlen]
    omega
  rw [parseLoop, nlaOk, if_neg hsize, load_eq_none f pos 2 (by decide) (by omega)]
  rfl

section Loop

variable {f : Frame} (hint : f.length < 2 ^ 31) {maxtype : Nat}
  {policy : Option (Nat → LibbpfNlaPolicy)}
include hint

theorem parseLoop_ends {pre g : Frame} (hf : f = pre ++ g) (hg : Ends g) (fuel : Nat) (tb : Index) :
    parseLoop f maxtype policy (fuel + 1) pre.length g.length tb = some (.returned 0 tb) := by
  have hlen : f.length = pre.length + g.length := by rw [hf, List.length_append]
  have hsize : toSizeT (g.length : Int) = g.length := FrameGrammar.toSizeT_natCast (by omega)
  have hok : nlaOk f pre.length g.length = some false := by
    rw [nlaOk, hsize]
    by_cases h4 : g.length < nlaHdrlen
    · rw [if_pos h4]
    · have hload : load f pre.length 2 = some (leNat (bytes g) 0 2) := by
        rw [nlaHdrlen] at h4
        rw [load_eq f pre.length 2 (by omega), hf, leNat_at rfl]
      rw [if_neg h4, hload, Option.bind_eq_bind, Option.bind_some]
      rcases hg with hg | hg | hg
      · exact absurd hg h4
      · simp [Nat.not_le.mpr hg]
      · have hgt : ¬ ((leNat (bytes g) 0 2 : Nat) : Int) ≤ g.length := by omega
        simp [hgt]
  simp only [parseLoop, hok, Option.bind_eq_bind, Option.bind_some, Bool.not_false, if_true]
  rfl

theorem parseLoop_attr {pre rest : Frame} {a : Attr} (hf : f = pre ++ (a.body ++ rest)) (fuel : Nat)
    (past : List Attr) (hpast : (encodeAll past).length = pre.length) (tb : Index) :
    (a.Accepted maxtype policy ∧ parseLoop f maxtype policy (fuel + 1) pre.length
        ((a.body ++ rest).length : Nat) tb =
      parseLoop f maxtype policy fuel (pre.length + a.encode.length)
        ((a.body ++ rest).length - a.encode.length) (indexed maxtype past a tb)) ∨
    (¬ a.Accepted maxtype policy ∧ parseLoop f maxtype policy (fuel + 1) pre.length
        ((a.body ++ rest).length : Nat) tb = some (.returned (-1) tb)) := by
  have hok := nlaOk_attr rfl hf hint
  have hrem : (a.body ++ rest).length = nlaHdrlen + a.data.length + rest.length := by
    rw [List.length_append, a.length_body]
  rw [← hrem] at hok
  simp only [parseLoop, hok, Option.bind_eq_bind, Option.bind_some, Bool.not_true, Bool.false_eq_true,
    if_false, nlaType_attr rfl hf, nlaNext_attr rfl hf, indexed, hpast]
  by_cases hk : maxtype < a.kind
  · left
    refine ⟨fun hle => absurd hk (Nat.not_lt.mpr hle), ?_⟩
    rw [if_pos hk, if_pos hk]
  · rw [if_neg hk, if_neg hk]
    cases policy with
    | none =>
        left
        refine ⟨fun _ p hp => (by cases hp), ?_⟩
        rfl
    | some p =>
        have hk' := Nat.le_of_not_lt hk
        rcases validateNla_attr rfl hf hk' p with ⟨hm, hv⟩ | ⟨hm, hv⟩
        · left
          refine ⟨fun _ q hq => Option.some.inj hq ▸ hm, ?_⟩
          simp only [hv, Option.bind_some]
          rfl
        · right
          refine ⟨fun h => hm (h hk' p rfl), ?_⟩
          simp only [hv, Option.bind_some]
          rfl

/-- The loop goes through accepted attributes one after the other. -/
theorem parseLoop_attrs (attrs : List Attr) (tail : Frame) (fuel : Nat) (past : List Attr) (tb : Index)
    (hf : f = encodeAll past ++ (encodeAll attrs ++ tail)) (htb : Indexes maxtype past tb)
    (hacc : ∀ a ∈ attrs, a.Accepted maxtype policy) :
    ∃ tb', Indexes maxtype (past ++ attrs) tb' ∧
      parseLoop f maxtype policy (fuel + attrs.length) (encodeAll past).length
          (encodeAll attrs ++ tail).length tb =
        parseLoop f maxtype policy fuel (encodeAll (past ++ attrs)).length tail.length tb' := by
  induction attrs generalizing past tb with
  | nil => exact ⟨tb, by rwa [List.append_nil], by rw [List.append_nil]; rfl⟩
  | cons a attrs ih =>
      have hbody : encodeAll (a :: attrs) ++ tail = a.body ++ (a.pad ++ (encodeAll attrs ++ tail)) := by
        simp [encodeAll, Attr.encode]
      have hall : encodeAll (past ++ [a]) = encodeAll past ++ a.encode := by
        simp [encodeAll]
      rw [hbody] at hf
      rcases parseLoop_attr hint hf (fuel + attrs.length) past rfl tb with ⟨_, hstep⟩ | ⟨hrej, _⟩
      · obtain ⟨tb', htb', hrest⟩ := ih (past ++ [a]) (indexed maxtype past a tb)
          (by rw [hall, hf, Attr.encode]; simp only [List.append_assoc]) (indexes_snoc htb a)
          (fun b hb => hacc b (by simp [hb]))
        refine ⟨tb', by simpa using htb', ?_⟩
        have hrem : ((a.body ++ (a.pad ++ (encodeAll attrs ++ tail))).length : Int) -
            a.encode.length = (encodeAll attrs ++ tail).length := by
          have hsum : (a.body ++ (a.pad ++ (encodeAll attrs ++ tail))).length =
              a.encode.length + (encodeAll attrs ++ tail).length := by
            rw [← List.append_assoc a.body, List.length_append]
            rfl
          omega
        have hpos : (encodeAll (past ++ [a])).length = (encodeAll past).length + a.encode.length := by
          rw [hall, List.length_append]
        rw [hpos] at hrest
        rw [hbody, List.length_cons, ← Nat.add_assoc, hstep, hrem, hrest, List.append_assoc,
          List.singleton_append]
      · exact absurd (hacc a (by simp)) hrej

theorem parseLoop_unpadded {past : List Attr} {a : Attr} {rest : Frame}
    (hf : f = encodeAll past ++ (a.body ++ rest)) (hshort : rest.length < a.pad.length)
    (hacc : a.Accepted maxtype policy) (fuel : Nat) (tb : Index) :
    parseLoop f maxtype policy (fuel + 2) (encodeAll past).length (a.body ++ rest).length tb = none := by
  rcases parseLoop_attr hint hf (fuel + 1) past rfl tb with ⟨_, hstep⟩ | ⟨hrej, _⟩
  · have hin := attr_inside rfl hf
    have hlen := a.length_encode
    have hpad := a.pad_length
    have halign : nlaAlign (nlaHdrlen + a.data.length) < nlaHdrlen + a.data.length + 4 := by
      rw [nlaAlign]
      omega
    have hbody : (a.body ++ rest).length = nlaHdrlen + a.data.length + rest.length := by
      rw [List.length_append, a.length_body]
    rw [hstep, hbody]
    apply parseLoop_behind
    · omega
    · omega
    · omega
  · exact absurd hacc hrej

end Loop

theorem length_encode_ge (a : Attr) : 4 ≤ a.encode.length := by
  have h := le_nlaAlign (nlaHdrlen + a.data.length)
  rw [a.length_encode]
  rw [nlaHdrlen] at h ⊢
  omega

theorem length_encodeAll_ge (attrs : List Attr) : 4 * attrs.length ≤ (encodeAll attrs).length := by
  induction attrs with
  | nil => exact Nat.le_refl 0
  | cons a attrs ih =>
      have ha := length_encode_ge a
      rw [encodeAll, List.flatMap_cons, List.length_append, ← encodeAll, List.length_cons]
      omega

/-- What is left when all accepted attributes have been taken off the front. -/
inductive Tail (maxtype : Nat) (policy : Option (Nat → LibbpfNlaPolicy)) : Frame → Prop
  | ends {g : Frame} (h : Ends g) : Tail maxtype policy g
  | refused {a : Attr} (rest : Frame) (h : ¬ a.Accepted maxtype policy) :
      Tail maxtype policy (a.body ++ rest)
  | unpadded {a : Attr} {rest : Frame} (hacc : a.Accepted maxtype policy)
      (hshort : rest.length < a.pad.length) : Tail maxtype policy (a.body ++ rest)

theorem exists_decomposition (maxtype : Nat) (policy : Option (Nat → LibbpfNlaPolicy)) (n : Nat)
    (g : Frame) (hn : g.length ≤ n) :
    ∃ attrs tail, g = encodeAll attrs ++ tail ∧ (∀ a ∈ attrs, a.Accepted maxtype policy) ∧
      Tail maxtype policy tail := by
  induction n generalizing g with
  | zero =>
      refine ⟨[], g, rfl, fun a ha => absurd ha List.not_mem_nil, .ends (.inl ?_)⟩
      rw [nlaHdrlen]
      omega
  | succ n ih =>
      by_cases hg : Ends g
      · exact ⟨[], g, rfl, fun a ha => absurd ha List.not_mem_nil, .ends hg⟩
      · rcases exists_attr hg with ⟨a, rest, rfl⟩ | ⟨a, rest, rfl, hshort⟩
        · by_cases hacc : a.Accepted maxtype policy
          · have h4 := length_encode_ge a
            rw [List.length_append] at hn
            obtain ⟨attrs, tail, hrest, haccs, htail⟩ := ih rest (by omega)
            refine ⟨a :: attrs, tail, ?_, ?_, htail⟩
            · rw [hrest, encodeAll, encodeAll, List.flatMap_cons, List.append_assoc]
            · intro b hb
              rcases List.mem_cons.mp hb with rfl | hb
              · exact hacc
              · exact haccs b hb
          · refine ⟨[], a.body ++ (a.pad ++ rest), ?_, fun b hb => absurd hb List.not_mem_nil,
              .refused (a.pad ++ rest) hacc⟩
            rw [Attr.encode, List.append_assoc]
            rfl
        · refine ⟨[], a.body ++ rest, rfl, fun b hb => absurd hb List.not_mem_nil, ?_⟩
          by_cases hacc : a.Accepted maxtype policy
          · exact .unpadded hacc hshort
          · exact .refused rest hacc

/-- How the parse comes out for each kind of tail. -/
structure Outcome (maxtype : Nat) (policy : Option (Nat → LibbpfNlaPolicy)) (attrs : List Attr)
    (tail : Frame) (r : Option Parse) : Prop where
  ends : Ends tail → ∃ tb, r = some (.returned 0 tb) ∧ Indexes maxtype attrs tb
  refused : ∀ a rest, tail = Attr.body a ++ rest → ¬ a.Accepted maxtype policy →
    ∃ tb, r = some (.returned (-1) tb) ∧ Indexes maxtype attrs tb
  unpadded : ∀ a rest, tail = Attr.body a ++ rest → a.Accepted maxtype policy →
    rest.length < a.pad.length → r = none

theorem parse_outcome {f : Frame} (hint : f.length < 2 ^ 31) {maxtype : Nat}
    {policy : Option (Nat → LibbpfNlaPolicy)} {attrs : List Attr} {tail : Frame}
    (hf : f = encodeAll attrs ++ tail) (hacc : ∀ a ∈ attrs, a.Accepted maxtype policy) :
    Outcome maxtype policy attrs tail (libbpfNlaParse f maxtype policy (f.length / 4 + 1)) := by
  have hge := length_encodeAll_ge attrs
  have hlen : f.length = (encodeAll attrs).length + tail.length := by rw [hf, List.length_append]
  obtain ⟨fuel, hfuel⟩ : ∃ n, f.length / 4 + 1 = n + 1 + attrs.length :=
    ⟨f.length / 4 - attrs.length, by omega⟩
  obtain ⟨tb, htb, hrun⟩ := parseLoop_attrs hint attrs tail (fuel + 1) [] (fun _ => none) hf
    (indexes_nil maxtype) hacc
  have hparse : libbpfNlaParse f maxtype policy (f.length / 4 + 1) =
      parseLoop f maxtype policy (fuel + 1) (encodeAll attrs).length tail.length tb := by
    rw [← hf] at hrun
    rw [libbpfNlaParse, hfuel]
    exact hrun
  rw [hparse]
  refine ⟨fun hends => ?_, fun a rest htail hrej => ?_, fun a rest htail hok hshort => ?_⟩
  · exact ⟨tb, parseLoop_ends hint hf hends fuel tb, htb⟩
  · subst htail
    rcases parseLoop_attr hint hf fuel attrs rfl tb with ⟨hok, _⟩ | ⟨_, hstep⟩
    · exact absurd hok hrej
    · exact ⟨tb, hstep, htb⟩
  · subst htail
    have hbody := a.length_body
    rw [nlaHdrlen] at hbody
    rw [List.length_append] at hlen
    obtain ⟨fuel, rfl⟩ : ∃ n, fuel = n + 1 := ⟨fuel - 1, by omega⟩
    exact parseLoop_unpadded hint hf hshort hok fuel tb

/-- Every stream falls into attributes the policy accepts and a tail that starts
none, one it refuses or one without its padding, and the outcome is as follows:
the index of the attributes with 0, the index with -1, or a read behind the
stream. -/
theorem nla_parse_outcomes (f : Frame) (hint : f.length < 2 ^ 31) (maxtype : Nat)
    (policy : Option (Nat → LibbpfNlaPolicy)) :
    (∃ attrs tail, f = encodeAll attrs ++ tail ∧ (∀ a ∈ attrs, a.Accepted maxtype policy) ∧
      Tail maxtype policy tail) ∧
    ∀ attrs tail, f = encodeAll attrs ++ tail → (∀ a ∈ attrs, a.Accepted maxtype policy) →
      Outcome maxtype policy attrs tail (libbpfNlaParse f maxtype policy (f.length / 4 + 1)) := by
  constructor
  · exact exists_decomposition maxtype policy f.length f (Nat.le_refl _)
  · intro attrs tail hf hacc
    exact parse_outcome hint hf hacc

theorem unpadded_attribute_read_behind : libbpfNlaParse [5, 0, 1, 0, 7] 3 none 2 = none := by
  refine ((nla_parse_outcomes [5, 0, 1, 0, 7] (by decide) 3 none).2 [] _ rfl ?_).unpadded
    ⟨1, [7], [0, 0, 0], by decide, by decide, rfl⟩ [] rfl ?_ (by decide)
  · exact fun a ha => absurd ha List.not_mem_nil
  · intro _ p hp
    cases hp

end PacketIntercept.Nlattr
