import AiLake.AvroRaw
import AiLake.Binary.LittleEndian
import Mathlib.Data.Nat.Bitwise

/-! `bloom.rs`: Bloom filters over terms, and their bytes. -/
namespace AiLake

open Binary

def fnv64a (data : Bytes) (seed : UInt64) : UInt64 :=
  data.foldl (fun h b => (h ^^^ b.toUInt64) * 0x00000100000001B3) (0xcbf29ce484222325 ^^^ seed)

/-- A filter has whole words, and at least one of them. -/
structure BloomFilter where
  bits : List UInt64
  numBits : UInt64
  words : numBits.toNat = 64 * bits.length
  pos : 0 < bits.length

namespace BloomFilter

/-- `sized` is what the formula makes of the capacity and the rate of false positives. -/
def withCapacity (sized : Fin (2 ^ 63)) : BloomFilter :=
  let words := (max sized.val 64 + 63) / 64
  { bits := List.replicate words 0
    numBits := UInt64.ofNat (64 * words)
    words := by
      have hsized := sized.2
      rw [List.length_replicate,UInt64.toNat_ofNat_of_lt' (by change 64 * words < 2 ^ 64; omega)]
    pos := by
      rw [List.length_replicate]
      omega }

def probes (numBits : UInt64) (term : String) : List Nat :=
  let h1 := fnv64a (utf8 term) 0
  let h2 := fnv64a (utf8 term) 0xcbf29ce484222325
  (List.range 4).map fun i => ((h1 + UInt64.ofNat i * h2) % numBits).toNat

def mask (pos : Nat) : UInt64 := 1 <<< UInt64.ofNat (pos % 64)

def setBit (f : BloomFilter) (pos : Nat) : BloomFilter :=
  { f with
    bits := f.bits.modify (pos / 64) (· ||| mask pos)
    words := by rw [List.length_modify,f.words]
    pos := by rw [List.length_modify]; exact f.pos }

def hasBit (f : BloomFilter) (pos : Nat) : Bool := f.bits.getD (pos / 64) 0 &&& mask pos != 0

def insert (f : BloomFilter) (term : String) : BloomFilter := (probes f.numBits term).foldl setBit f

def mayContain (f : BloomFilter) (term : String) : Bool := (probes f.numBits term).all f.hasBit

def toBytes (f : BloomFilter) : Bytes := le 8 f.numBits.toNat ++ f.bits.flatMap fun w => le 8 w.toNat

def fromBytes (bytes : Bytes) : Option BloomFilter :=
  if bytes.length < 8 then none
  else
    let numBits := UInt64.ofNat (ofLe (slice bytes 0 8))
    if h : numBits.toNat = 0 ∨ numBits.toNat % 64 ≠ 0 then none
    else if bytes.length < 8 + numBits.toNat / 64 * 8 then none
    else some
      { bits := (List.range (numBits.toNat / 64)).map fun i =>
          UInt64.ofNat (ofLe (slice bytes (8 + i * 8) (16 + i * 8)))
        numBits := numBits
        words := by
          rw [List.length_map,List.length_range]
          omega
        pos := by
          rw [List.length_map,List.length_range]
          omega }

/-! The bits that are set. -/

variable {f : BloomFilter}

theorem toNat_mask (p : Nat) : (mask p).toNat = 2 ^ (p % 64) := by
  have hlt : p % 64 < 64 := Nat.mod_lt _ (by decide)
  have hall : ∀ k : Fin 64, ((1 : UInt64) <<< UInt64.ofNat k).toNat = 2 ^ k.val := by decide
  exact hall ⟨p % 64,hlt⟩

theorem hasBit_eq (q : Nat) : f.hasBit q = (f.bits.getD (q / 64) 0).toNat.testBit (q % 64) := by
  rw [hasBit,Bool.eq_iff_iff,bne_iff_ne,ne_eq,← UInt64.toNat_inj,UInt64.toNat_and,toNat_mask,
    Nat.and_two_pow]
  cases (f.bits.getD (q / 64) 0).toNat.testBit (q % 64) <;> simp

theorem hasBit_setBit {p : Nat} (h : p < f.numBits.toNat) (q : Nat) :
    (f.setBit p).hasBit q ↔ f.hasBit q ∨ q = p := by
  have hlt : p / 64 < f.bits.length := by
    have := f.words
    omega
  rw [hasBit_eq,hasBit_eq,setBit]
  by_cases hword : p / 64 = q / 64
  · have hbit : q = p ↔ p % 64 = q % 64 := by omega
    rw [hword] at hlt
    simp [hword,hlt,toNat_mask,Nat.testBit_two_pow,hbit]
  · have hne : q ≠ p := by
      rintro rfl
      exact hword rfl
    simp [hword,hne]

/-- After an insertion the bits are those from before and the probes of the term. -/
theorem hasBit_foldl {ps : List Nat} (h : ∀ p ∈ ps, p < f.numBits.toNat) (q : Nat) :
    (ps.foldl setBit f).hasBit q ↔ f.hasBit q ∨ q ∈ ps := by
  induction ps generalizing f with
  | nil => simp
  | cons p ps ih =>
    obtain ⟨hp,hps⟩ := List.forall_mem_cons.1 h
    rw [List.foldl_cons,ih (f := f.setBit p) hps,hasBit_setBit hp,or_assoc,List.mem_cons]

theorem numBits_insert (term : String) : (f.insert term).numBits = f.numBits := by
  unfold insert
  induction probes f.numBits term generalizing f with
  | nil => rfl
  | cons p ps ih => exact ih (f := f.setBit p)

theorem lt_of_mem_probes {p : Nat} {term : String} (h : p ∈ probes f.numBits term) :
    p < f.numBits.toNat := by
  obtain ⟨i,-,rfl⟩ := List.mem_map.1 h
  have hpos := f.pos
  have hwords := f.words
  rw [UInt64.toNat_mod]
  exact Nat.mod_lt _ (by omega)

theorem numBits_inserts (terms : List String) : (terms.foldl insert f).numBits = f.numBits := by
  induction terms generalizing f with
  | nil => rfl
  | cons t terms ih => rw [List.foldl_cons,ih,numBits_insert]

/-- By induction on the terms: the bits are those from before and all the probes. -/
theorem hasBit_inserts (terms : List String) (q : Nat) :
    (terms.foldl insert f).hasBit q ↔ f.hasBit q ∨ ∃ t ∈ terms, q ∈ probes f.numBits t := by
  induction terms generalizing f with
  | nil => simp
  | cons t terms ih =>
    rw [List.foldl_cons,ih,numBits_insert,insert,hasBit_foldl fun p => lt_of_mem_probes,or_assoc]
    simp

theorem hasBit_withCapacity (sized : Fin (2 ^ 63)) (q : Nat) : (withCapacity sized).hasBit q = false := by
  have hword : (withCapacity sized).bits.getD (q / 64) 0 = 0 := by
    rw [withCapacity,List.getD_eq_getElem?_getD,List.getElem?_replicate]
    split <;> rfl
  rw [hasBit,hword,UInt64.zero_and]
  rfl

/-! The bytes. -/

/-- A filter is read back as it was. -/
theorem fromBytes_toBytes (f : BloomFilter) : fromBytes f.toBytes = some f := by
  have hwords := f.words
  have hlen : f.toBytes.length = 8 + f.bits.length * 8 := by simp [toBytes,List.length_flatMap]
  have hnum : UInt64.ofNat (ofLe (slice f.toBytes 0 8)) = f.numBits := by
    have hcut : slice f.toBytes 0 8 = le 8 f.numBits.toNat :=
      slice_of_eq (a := []) rfl rfl (by simp)
    rw [hcut,ofLe_le_uint64]
  have hbits : (List.range (f.numBits.toNat / 64)).map (fun i =>
      UInt64.ofNat (ofLe (slice f.toBytes (8 + i * 8) (16 + i * 8)))) = f.bits := by
    refine List.ext_getElem (by simp; omega) fun i hi hi' => ?_
    have hcut := slice_words (a := le 8 f.numBits.toNat) hi'
    rw [length_le] at hcut
    rw [List.getElem_map,List.getElem_range,toBytes,hcut,ofLe_le_uint64]
  have hpos := f.pos
  unfold fromBytes
  rw [if_neg (by omega)]
  simp only [hnum]
  rw [dif_neg (by omega),if_neg (by omega)]
  simp only [hbits]

/-- A filter that terms were inserted into is read back from its bytes, and may contain exactly the
terms all of whose probes are probes of inserted ones: none of these is missed. -/
theorem read_mayContain_iff (sized : Fin (2 ^ 63)) (terms : List String) :
    ∃ f, fromBytes (terms.foldl insert (withCapacity sized)).toBytes = some f ∧
      ∀ term, f.mayContain term ↔
        ∀ p ∈ probes f.numBits term, ∃ t ∈ terms, p ∈ probes f.numBits t := by
  refine ⟨_,fromBytes_toBytes _,fun term => ?_⟩
  rw [mayContain,List.all_eq_true]
  simp only [hasBit_inserts,hasBit_withCapacity,numBits_inserts,Bool.false_eq_true,false_or]

end BloomFilter
end AiLake
