import Mathlib.Algebra.Order.Group.Nat
import Mathlib.Tactic.Ring

/-! Numbers of a fixed width as bytes, least significant first, and cuts of byte strings. -/
namespace Binary

abbrev Bytes := List UInt8

def le : Nat → Nat → Bytes
  | 0, _ => []
  | w + 1, n => UInt8.ofNat n :: le w (n / 256)

def ofLe : Bytes → Nat
  | [] => 0
  | b :: rest => b.toNat + 256 * ofLe rest

@[simp] theorem length_le (w n : Nat) : (le w n).length = w := by
  induction w generalizing n with
  | zero => rfl
  | succ w ih => rw [le,List.length_cons,ih]

theorem ofLe_le (w n : Nat) : ofLe (le w n) = n % 256 ^ w := by
  induction w generalizing n with
  | zero => rw [le,ofLe,Nat.pow_zero,Nat.mod_one]
  | succ w ih =>
    have hbyte : (UInt8.ofNat n).toNat = n % 256 := UInt8.toNat_ofNat'
    rw [le,ofLe,ih,hbyte,pow_succ',Nat.mod_mul]

theorem ofLe_le_of_lt {w n : Nat} (h : n < 256 ^ w) : ofLe (le w n) = n := by
  rw [ofLe_le,Nat.mod_eq_of_lt h]

theorem le_append (w v a b : Nat) : le w a ++ le v b = le (w + v) (a % 256 ^ w + 256 ^ w * b) := by
  induction w generalizing a with
  | zero => simp [le,Nat.mod_one]
  | succ w ih =>
    have hsum : a % 256 ^ (w + 1) + 256 ^ (w + 1) * b =
        a % 256 + 256 * (a / 256 % 256 ^ w + 256 ^ w * b) := by
      rw [pow_succ',Nat.mod_mul]
      ring
    have hbyte : UInt8.ofNat (a % 256 + 256 * (a / 256 % 256 ^ w + 256 ^ w * b)) = UInt8.ofNat a := by
      apply UInt8.toNat_inj.1
      rw [UInt8.toNat_ofNat',UInt8.toNat_ofNat']
      omega
    have hrest : (a % 256 + 256 * (a / 256 % 256 ^ w + 256 ^ w * b)) / 256 =
        a / 256 % 256 ^ w + 256 ^ w * b := by omega
    rw [hsum,Nat.succ_add,le,le,List.cons_append,ih,hbyte,hrest]

@[simp] theorem ofLe_le_uint16 (x : UInt16) : UInt16.ofNat (ofLe (le 2 x.toNat)) = x := by
  rw [ofLe_le_of_lt (by exact x.toNat_lt),UInt16.ofNat_toNat]

@[simp] theorem ofLe_le_uint32 (x : UInt32) : UInt32.ofNat (ofLe (le 4 x.toNat)) = x := by
  rw [ofLe_le_of_lt (by exact x.toNat_lt),UInt32.ofNat_toNat]

@[simp] theorem ofLe_le_uint64 (x : UInt64) : UInt64.ofNat (ofLe (le 8 x.toNat)) = x := by
  rw [ofLe_le_of_lt (by exact x.toNat_lt),UInt64.ofNat_toNat]

def slice (bs : Bytes) (start stop : Nat) : Bytes := (bs.drop start).take (stop - start)

theorem slice_append (a b c : Bytes) :
    slice (a ++ (b ++ c)) a.length (a.length + b.length) = b := by
  rw [slice,List.drop_left,Nat.add_sub_cancel_left,List.take_left]

theorem slice_of_eq {bs a b c : Bytes} {start stop : Nat} (h : bs = a ++ (b ++ c))
    (hstart : start = a.length) (hstop : stop = a.length + b.length) : slice bs start stop = b := by
  rw [h,hstart,hstop,slice_append]

theorem slice_words {a : Bytes} {words : List UInt64} {i : Nat} (h : i < words.length) :
    slice (a ++ words.flatMap fun w => le 8 w.toNat) (a.length + i * 8) (a.length + 8 + i * 8) =
      le 8 words[i].toNat := by
  induction words generalizing a i with
  | nil => cases h
  | cons w words ih =>
    rw [List.flatMap_cons]
    cases i with
    | zero => exact slice_of_eq rfl (by omega) (by rw [length_le])
    | succ i =>
      have hcut := ih (a := a ++ le 8 w.toNat) (i := i) (by simpa using h)
      rw [List.length_append,length_le,List.append_assoc] at hcut
      rw [List.getElem_cons_succ,← hcut]
      congr 1 <;> omega

theorem slice_drop {bs : Bytes} {base start stop : Nat} (h : base ≤ start) (h' : start ≤ stop) :
    slice (bs.drop base) (start - base) (stop - base) = slice bs start stop := by
  have hlen : stop - base - (start - base) = stop - start := by omega
  rw [slice,slice,List.drop_drop,Nat.add_sub_cancel' h,hlen]

end Binary
