import AiLake.Binary.LittleEndian
import Mathlib.Data.List.Basic

/-! Bincode with fixed-width numbers: little-endian, a vector as its length in eight bytes and its
elements. `Reads r bs a`: `r` takes exactly `bs` and gets `a`. -/
namespace Bincode

open Binary

abbrev Reader (α : Type) := StateT Bytes Option α

def readBytes (n : Nat) : Reader Bytes := fun bs =>
  if n ≤ bs.length then some (bs.take n, bs.drop n) else none

def readNat (w : Nat) : Reader Nat := do
  let bs ← readBytes w
  pure (ofLe bs)

def readUsize : Reader Nat := readNat 8

def readU8 : Reader UInt8 := do
  let n ← readNat 1
  pure (UInt8.ofNat n)

def readU64 : Reader UInt64 := do
  let n ← readNat 8
  pure (UInt64.ofNat n)

def readF32 : Reader (BitVec 32) := do
  let n ← readNat 4
  pure (BitVec.ofNat 32 n)

section Vectors

variable {α : Type}

def readMany (r : Reader α) : Nat → Reader (List α)
  | 0 => pure []
  | n + 1 => do
    let a ← r
    let rest ← readMany r n
    pure (a :: rest)

def readVec (r : Reader α) : Reader (List α) := do
  let n ← readUsize
  readMany r n

def usize (n : Nat) : Bytes := le 8 n

def u64 (x : UInt64) : Bytes := le 8 x.toNat

def f32 (x : BitVec 32) : Bytes := le 4 x.toNat

def vec (write : α → Bytes) (xs : List α) : Bytes := usize xs.length ++ xs.flatMap write

end Vectors

section Reads

variable {α β : Type} {r : Reader α} {bs rest : Bytes} {a : α} {n : Nat} {xs : List α}

def Reads (r : Reader α) (bs : Bytes) (a : α) : Prop := ∀ rest, r (bs ++ rest) = some (a, rest)

theorem bind_eq_some {f : α → Reader β} {b : β} :
    (r >>= f) bs = some (b, rest) ↔ ∃ a mid, r bs = some (a, mid) ∧ f a mid = some (b, rest) := by
  change (r bs).bind (fun p => f p.1 p.2) = _ ↔ _
  simp only [Option.bind_eq_some_iff,Prod.exists]

theorem pure_eq_some {b : α} : (pure a : Reader α) bs = some (b, rest) ↔ a = b ∧ bs = rest := by
  change some (a, bs) = _ ↔ _
  simp

theorem Reads.pure (a : α) : Reads (Pure.pure a) [] a := fun _ => rfl

theorem Reads.bind_apply (h : Reads r bs a) (f : α → Reader β) (rest : Bytes) :
    (r >>= f) (bs ++ rest) = f a rest := by
  change (r (bs ++ rest)).bind (fun p => f p.1 p.2) = _
  rw [h rest,Option.bind_some]

theorem Reads.bind {f : α → Reader β} {cs : Bytes} {b : β} (h : Reads r bs a)
    (h' : Reads (f a) cs b) : Reads (r >>= f) (bs ++ cs) b := by
  intro rest
  rw [List.append_assoc,h.bind_apply,h' rest]

theorem Reads.map (h : Reads r bs a) (g : α → β) :
    Reads (r >>= fun a => Pure.pure (g a)) bs (g a) := by
  intro rest
  rw [h.bind_apply]
  rfl

theorem reads_readBytes (bs : Bytes) : Reads (readBytes bs.length) bs bs := by
  intro rest
  have hle : bs.length ≤ (bs ++ rest).length := by simp
  rw [readBytes,if_pos hle,List.take_left,List.drop_left]

theorem reads_readNat {w : Nat} (h : n < 256 ^ w) : Reads (readNat w) (le w n) n := by
  have hread := (reads_readBytes (le w n)).map ofLe
  rw [length_le,ofLe_le_of_lt h] at hread
  exact hread

theorem readUsize_usize (n : Nat) (rest : Bytes) :
    readUsize (usize n ++ rest) = some (n % 2 ^ 64, rest) := by
  have hread := (reads_readBytes (usize n)).map ofLe rest
  rw [usize,length_le,ofLe_le] at hread
  exact hread

theorem reads_readUsize (h : n < 2 ^ 64) : Reads readUsize (usize n) n :=
  reads_readNat (by norm_num; omega)

theorem reads_readU8 (x : UInt8) : Reads readU8 [x] x := by
  have hle : le 1 x.toNat = [x] := by simp [le]
  have hread := (reads_readNat (w := 1) (n := x.toNat) (by exact x.toNat_lt)).map UInt8.ofNat
  rw [hle,UInt8.ofNat_toNat] at hread
  exact hread

theorem reads_readU64 (x : UInt64) : Reads readU64 (u64 x) x := by
  have hread := (reads_readNat (w := 8) (n := x.toNat) (by exact x.toNat_lt)).map UInt64.ofNat
  rwa [UInt64.ofNat_toNat] at hread

theorem reads_readF32 (x : BitVec 32) : Reads readF32 (f32 x) x := by
  have hread := (reads_readNat (w := 4) (n := x.toNat) (by exact x.isLt)).map (BitVec.ofNat 32)
  rwa [BitVec.ofNat_toNat,BitVec.setWidth_eq] at hread

theorem reads_readMany {write : α → Bytes} (h : ∀ x ∈ xs, Reads r (write x) x) :
    Reads (readMany r xs.length) (xs.flatMap write) xs := by
  induction xs with
  | nil => exact Reads.pure []
  | cons x xs ih =>
    rw [List.flatMap_cons]
    exact (h x List.mem_cons_self).bind ((ih fun y hy => h y (List.mem_cons_of_mem _ hy)).map (x :: ·))

theorem reads_readVec {write : α → Bytes} (hlen : xs.length < 2 ^ 64)
    (h : ∀ x ∈ xs, Reads r (write x) x) : Reads (readVec r) (vec write xs) xs :=
  (reads_readUsize hlen).bind (reads_readMany h)

theorem length_of_readMany (h : readMany r n bs = some (xs, rest)) : xs.length = n := by
  induction n generalizing bs rest xs with
  | zero =>
    obtain ⟨rfl,-⟩ := pure_eq_some.1 h
    rfl
  | succ n ih =>
    obtain ⟨a,mid,-,h⟩ := bind_eq_some.1 h
    obtain ⟨as,mid',has,h⟩ := bind_eq_some.1 h
    obtain ⟨rfl,-⟩ := pure_eq_some.1 h
    rw [List.length_cons,ih has]

theorem readVec_usize (hn : n < 2 ^ 64) (h : readVec r (usize n ++ bs) = some (xs, rest)) :
    xs.length = n ∧ readMany r n bs = some (xs, rest) := by
  obtain ⟨k,mid,hk,hmany⟩ := bind_eq_some.1 h
  rw [reads_readUsize hn bs] at hk
  obtain ⟨rfl,rfl⟩ := Prod.mk.inj (Option.some.inj hk)
  exact ⟨length_of_readMany hmany, hmany⟩

end Reads
end Bincode
