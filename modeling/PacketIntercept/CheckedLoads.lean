import PacketIntercept.ByteMemory

namespace PacketIntercept.CheckedLoads

open ByteMemory

abbrev Frame := List UInt8

/-- A load of w bytes, least significant first. It faults, with none, when one
of them lies outside the frame. -/
def load (f : Frame) (pos : Nat) : Nat → Option Nat
  | 0 => some 0
  | w + 1 => do
      let b ← f[pos]?
      let rest ← load f (pos + 1) w
      pure (b.toNat + 256 * rest)

def loadBytes (f : Frame) (pos n : Nat) : Option (List UInt8) :=
  if pos + n ≤ f.length then some ((f.drop pos).take n) else none

/-- A store of bytes, which faults where a load would. -/
def storeBytes (f : Frame) (pos : Nat) (bs : List UInt8) : Option Frame :=
  if pos + bs.length ≤ f.length then some (f.take pos ++ bs ++ f.drop (pos + bs.length)) else none

/-- The bytes of a two-byte value in memory, least significant first. -/
def le16 (v : Nat) : List UInt8 := [leByte v 0, leByte v 1]

def bytes (f : Frame) : Mem := fun i => f.getD i 0

def htons (v : Nat) : Nat := v % 256 * 256 + v / 256

theorem load_eq (f : Frame) (pos w : Nat) (h : pos + w ≤ f.length) :
    load f pos w = some (leNat (bytes f) pos w) := by
  induction w generalizing pos with
  | zero => rfl
  | succ w ih =>
      have hb : f[pos]? = some (bytes f pos) := by
        rw [bytes, List.getD_eq_getElem?_getD, List.getElem?_eq_getElem (by omega)]
        rfl
      simp only [load, hb, ih (pos + 1) (by omega), Option.bind_eq_bind, Option.bind_some, pure, leNat]

theorem load_one (f : Frame) (pos : Nat) (h : pos < f.length) :
    load f pos 1 = some (bytes f pos).toNat := by
  rw [load_eq f pos 1 h]
  rfl

theorem loadBytes_eq (f : Frame) {pos n : Nat} (h : pos + n ≤ f.length) :
    loadBytes f pos n = some ((f.drop pos).take n) := if_pos h

theorem storeBytes_at {a b c bs : Frame} {pos : Nat} (ha : a.length = pos)
    (hb : b.length = bs.length) : storeBytes (a ++ (b ++ c)) pos bs = some (a ++ (bs ++ c)) := by
  subst ha
  have hl : a.length + bs.length ≤ (a ++ (b ++ c)).length := by
    rw [List.length_append, List.length_append]
    omega
  rw [storeBytes, if_pos hl, List.take_left, ← List.drop_drop, List.drop_left, ← hb, List.drop_left,
    List.append_assoc]

theorem loadBytes_at {a b c : Frame} {pos n : Nat} (ha : a.length = pos) (hb : b.length = n) :
    loadBytes (a ++ (b ++ c)) pos n = some b := by
  subst ha hb
  have hl : a.length + b.length ≤ (a ++ (b ++ c)).length := by
    rw [List.length_append, List.length_append]
    omega
  rw [loadBytes_eq _ hl, List.drop_left, List.take_left]

theorem bytes_slice (f : Frame) (pos n i : Nat) (hi : i < n) :
    bytes ((f.drop pos).take n) i = bytes f (pos + i) := by
  simp [bytes, List.getElem?_take_of_lt hi, List.getElem?_drop]

theorem bytes_replicate_zero (n i : Nat) : bytes (List.replicate n 0) i = 0 := by
  rw [bytes, List.getD_eq_getElem?_getD, List.getElem?_replicate]
  split <;> rfl

theorem bytes_append_left (f g : Frame) {i : Nat} (hi : i < f.length) :
    bytes (f ++ g) i = bytes f i := by
  simp [bytes, List.getElem?_append_left hi]

theorem bytes_append_right (f g : Frame) (i : Nat) : bytes (f ++ g) (f.length + i) = bytes g i := by
  simp [bytes, List.getElem?_append_right]

/-- A two-byte load gives a constant in network byte order exactly when the
bytes spell that constant big-endian. -/
theorem leNat_two_eq_htons (m : Mem) (pos v : Nat) (hv : v < 2 ^ 16) :
    leNat m pos 2 = htons v ↔ be16 m pos = v := by
  have h0 : (m pos).toNat < 256 := (m pos).toNat_lt
  have h1 : (m (pos + 1)).toNat < 256 := (m (pos + 1)).toNat_lt
  simp only [leNat, be16, htons, Nat.mul_zero, Nat.add_zero]
  omega

theorem htons_leNat_two (m : Mem) (pos : Nat) : htons (leNat m pos 2) = be16 m pos := by
  have h0 : (m pos).toNat < 256 := (m pos).toNat_lt
  simp only [leNat, be16, htons, Nat.mul_zero, Nat.add_zero]
  omega

theorem le16_leNat (m : Mem) (pos : Nat) : le16 (leNat m pos 2) = [m pos, m (pos + 1)] := by
  have h0 : (m pos).toNat < 256 := (m pos).toNat_lt
  have h1 : (m (pos + 1)).toNat < 256 := (m (pos + 1)).toNat_lt
  have hlow : leNat m pos 2 / 256 ^ 0 % 256 = (m pos).toNat := by
    simp only [leNat]
    omega
  have hhigh : leNat m pos 2 / 256 ^ 1 % 256 = (m (pos + 1)).toNat := by
    simp only [leNat]
    omega
  rw [le16, leByte, leByte, hlow, hhigh, UInt8.ofNat_toNat, UInt8.ofNat_toNat]

theorem be16_lt (m : Mem) (pos : Nat) : be16 m pos < 2 ^ 16 := by
  have h0 : (m pos).toNat < 256 := (m pos).toNat_lt
  have h1 : (m (pos + 1)).toNat < 256 := (m (pos + 1)).toNat_lt
  rw [be16]
  omega

end PacketIntercept.CheckedLoads
