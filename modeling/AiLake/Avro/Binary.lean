import Mathlib.Data.List.Basic
import Mathlib.Algebra.Group.Int.Defs
import Mathlib.Algebra.Group.Nat.Defs

/-! The Avro encoding of values under a schema, and container files. `Reads t bs v`: a reader of
type `t` takes exactly `bs` and gets `v`. -/
namespace Avro

open List Option

abbrev Bytes := List UInt8

/-! Integers. -/

/- Groups of seven bits, the low group first; every byte but the last has its high bit set. -/
def varintFrom : Nat → Nat → Bytes
  | 0, n => [UInt8.ofNat n]
  | fuel + 1, n =>
    if n < 128 then [UInt8.ofNat n] else UInt8.ofNat (n % 128 + 128) :: varintFrom fuel (n / 128)

def varint (n : Nat) : Bytes := varintFrom n n

def readVarint : Bytes → Option (Nat × Bytes)
  | [] => none
  | b :: rest =>
    if b.toNat < 128 then some (b.toNat, rest)
    else (readVarint rest).map fun p => (b.toNat - 128 + 128 * p.1, p.2)

def zigzag : Int → Nat
  | .ofNat n => 2 * n
  | .negSucc n => 2 * n + 1

def unzigzag (n : Nat) : Int := if n % 2 = 0 then (n / 2 : Nat) else Int.negSucc (n / 2)

def readLong (bs : Bytes) : Option (Int × Bytes) :=
  (readVarint bs).map fun p => (unzigzag p.1, p.2)

theorem readVarint_varintFrom (fuel n : Nat) (h : n ≤ fuel) (rest : Bytes) :
    readVarint (varintFrom fuel n ++ rest) = some (n, rest) := by
  induction fuel generalizing n with
  | zero =>
    obtain rfl : n = 0 := by omega
    rfl
  | succ fuel ih =>
    by_cases hn : n < 128
    · have hb : (UInt8.ofNat n).toNat = n := by
        rw [UInt8.toNat_ofNat']
        omega
      simp only [varintFrom,hn,if_true,singleton_append,readVarint,hb]
    · have hb : (UInt8.ofNat (n % 128 + 128)).toNat = n % 128 + 128 := by
        rw [UInt8.toNat_ofNat']
        omega
      have hbig : ¬n % 128 + 128 < 128 := by omega
      simp only [varintFrom,hn,if_false,cons_append,readVarint,hb,hbig,
        ih (n / 128) (by omega),map_some,Option.some.injEq,Prod.mk.injEq,and_true]
      omega

theorem unzigzag_zigzag (n : Int) : unzigzag (zigzag n) = n := by
  cases n with
  | ofNat n =>
    have hn : 2 * n % 2 = 0 := by omega
    have hd : 2 * n / 2 = n := by omega
    simp [zigzag,unzigzag,hn,hd]
  | negSucc n =>
    have hd : (2 * n + 1) / 2 = n := by omega
    simp [zigzag,unzigzag,hd]

@[simp] theorem readLong_varint (n : Int) (rest : Bytes) :
    readLong (varint (zigzag n) ++ rest) = some (n, rest) := by
  simp [readLong,varint,readVarint_varintFrom,unzigzag_zigzag]

/-! Schemas and values. -/

mutual
inductive Ty where
  | null
  | boolean
  | int
  | long
  | bytes
  | string
  | array (items : Ty)
  | union (branches : Branches)
  | record (fields : Fields)
  deriving DecidableEq, Repr

inductive Branches where
  | nil
  | cons (type : Ty) (rest : Branches)
  deriving DecidableEq, Repr

inductive Fields where
  | nil
  | cons (name : String) (type : Ty) (rest : Fields)
  deriving DecidableEq, Repr
end

def Fields.ofList : List (String × Ty) → Fields
  | [] => .nil
  | (name, type) :: rest => .cons name type (ofList rest)

/-- Schemas as JSON texts, and the parser that a reader takes them apart with. -/
structure SchemaTexts where
  text : Ty → String
  parse : String → Option Ty

/-- The schema is read back from its text. -/
def SchemaTexts.Knows (schemas : SchemaTexts) (t : Ty) : Prop :=
  schemas.parse (schemas.text t) = some t

inductive Value where
  | null
  | boolean (b : Bool)
  | int (n : Int)
  | long (n : Int)
  | bytes (b : Bytes)
  | string (s : String)
  | array (items : List Value)
  | union (index : Nat) (v : Value)
  | record (fields : List (String × Value))

def field (fields : List (String × Value)) (name : String) : Option Value :=
  (fields.find? fun p => p.1 = name).map Prod.snd

/-! The reader. -/

def readBytes (bs : Bytes) : Option (Bytes × Bytes) :=
  (readLong bs).bind fun p =>
    if p.1 < 0 ∨ p.2.length < p.1.toNat then none
    else some (p.2.take p.1.toNat, p.2.drop p.1.toNat)

def readString (bs : Bytes) : Option (String × Bytes) :=
  (readBytes bs).bind fun p => (String.fromUTF8? ⟨p.1.toArray⟩).map fun s => (s, p.2)

section Items

variable {α : Type} (item : Bytes → Option (α × Bytes))

def readN : Nat → Bytes → Option (List α × Bytes)
  | 0, bs => some ([], bs)
  | n + 1, bs => (item bs).bind fun p => (readN n p.2).map fun q => (p.1 :: q.1, q.2)

/- Arrays and maps come in blocks, each of a byte at least. A negative count is followed by the
block's size; the count 0 ends them. -/
def readBlocks : Nat → Bytes → Option (List α × Bytes)
  | 0, _ => none
  | fuel + 1, bs => (readLong bs).bind fun p =>
    if p.1 = 0 then some ([], p.2)
    else
      (if p.1 < 0 then (readLong p.2).map Prod.snd else some p.2).bind fun bs' =>
        (readN item p.1.natAbs bs').bind fun q =>
          (readBlocks fuel q.2).map fun r => (q.1 ++ r.1, r.2)

end Items

def fitsInt (n : Int) : Bool := -2 ^ 31 ≤ n ∧ n < 2 ^ 31

mutual
def read : Ty → Bytes → Option (Value × Bytes)
  | .null, bs => some (.null, bs)
  | .boolean, bs =>
    match bs with
    | 0 :: rest => some (.boolean false, rest)
    | 1 :: rest => some (.boolean true, rest)
    | _ => none
  | .int, bs => (readLong bs).bind fun p => if fitsInt p.1 then some (.int p.1, p.2) else none
  | .long, bs => (readLong bs).map fun p => (.long p.1, p.2)
  | .bytes, bs => (readBytes bs).map fun p => (.bytes p.1, p.2)
  | .string, bs => (readString bs).map fun p => (.string p.1, p.2)
  | .array items, bs => (readBlocks (read items) bs.length bs).map fun p => (.array p.1, p.2)
  | .union branches, bs => (readLong bs).bind fun p =>
    if p.1 < 0 then none
    else (readBranch branches p.1.toNat p.2).map fun q => (.union p.1.toNat q.1, q.2)
  | .record fields, bs => (readFields fields bs).map fun p => (.record p.1, p.2)

def readBranch : Branches → Nat → Bytes → Option (Value × Bytes)
  | .nil, _, _ => none
  | .cons type _, 0, bs => read type bs
  | .cons _ rest, n + 1, bs => readBranch rest n bs

def readFields : Fields → Bytes → Option (List (String × Value) × Bytes)
  | .nil, bs => some ([], bs)
  | .cons name type rest, bs => (read type bs).bind fun p =>
    (readFields rest p.2).map fun q => ((name, p.1) :: q.1, q.2)
end

attribute [simp] read readFields

/-- Reading takes exactly `bs` and gives `v`. -/
def Reads (t : Ty) (bs : Bytes) (v : Value) : Prop :=
  ∀ rest, read t (bs ++ rest) = some (v, rest)

def ReadsFields (fields : Fields) (bs : Bytes) (vs : List (String × Value)) : Prop :=
  ∀ rest, readFields fields (bs ++ rest) = some (vs, rest)

theorem readBytes_append (b rest : Bytes) :
    readBytes (varint (zigzag b.length) ++ (b ++ rest)) = some (b, rest) := by
  have hlen : ¬((b.length : Int) < 0 ∨ (b ++ rest).length < (b.length : Int).toNat) := by
    simp
  rw [readBytes,readLong_varint,bind_some,if_neg hlen]
  simp

theorem fromUTF8?_toByteArray (s : String) : String.fromUTF8? s.toByteArray = some s := by
  simp only [String.fromUTF8?,s.isValidUTF8,dif_pos]
  rfl

theorem readString_append (s : String) (rest : Bytes) :
    readString (varint (zigzag s.toByteArray.data.toList.length) ++
      (s.toByteArray.data.toList ++ rest)) = some (s, rest) := by
  have hs : String.fromUTF8? ⟨s.toByteArray.data.toList.toArray⟩ = some s := by
    rw [Array.toArray_toList]
    exact fromUTF8?_toByteArray s
  rw [readString,readBytes_append,bind_some,hs,map_some]

theorem varint_ne_nil (n : Nat) : varint n ≠ [] := by
  unfold varint
  cases n with
  | zero => simp [varintFrom]
  | succ n =>
    unfold varintFrom
    split <;> simp

section Items

variable {ι α : Type} {item : Bytes → Option (α × Bytes)} {xs : List ι} {encode : ι → Bytes}
  {value : ι → α}

theorem readN_flatMap (h : ∀ x ∈ xs, ∀ rest, item (encode x ++ rest) = some (value x, rest))
    (rest : Bytes) :
    readN item xs.length (xs.flatMap encode ++ rest) = some (xs.map value, rest) := by
  induction xs with
  | nil => rfl
  | cons x xs ih =>
    have hx := h x mem_cons_self (xs.flatMap encode ++ rest)
    have hrest := ih fun y hy => h y (mem_cons_of_mem _ hy)
    rw [length_cons,readN,flatMap_cons,append_assoc,hx,bind_some,hrest]
    rfl

theorem readBlocks_flatMap (h : ∀ x ∈ xs, ∀ rest, item (encode x ++ rest) = some (value x, rest))
    (hne : xs ≠ []) (fuel : Nat) (rest : Bytes) :
    readBlocks item (fuel + 2) (varint (zigzag xs.length) ++ (xs.flatMap encode ++
      (varint (zigzag 0) ++ rest))) = some (xs.map value, rest) := by
  have hlen : ¬(xs.length : Int) = 0 := by simpa using hne
  have hneg : ¬(xs.length : Int) < 0 := by omega
  have habs : (xs.length : Int).natAbs = xs.length := by simp
  rw [readBlocks,readLong_varint,bind_some,if_neg hlen,if_neg hneg,bind_some,
    habs,readN_flatMap h,bind_some,readBlocks,readLong_varint,bind_some,
    if_pos rfl]
  simp

theorem exists_length_eq_add_two {a b c d : Bytes} (ha : a ≠ []) (hc : c ≠ []) :
    ∃ fuel, (a ++ (b ++ (c ++ d))).length = fuel + 2 := by
  have ha' := length_pos_iff.2 ha
  have hc' := length_pos_iff.2 hc
  refine ⟨(a ++ (b ++ (c ++ d))).length - 2, ?_⟩
  simp only [length_append]
  omega

end Items

namespace Reads

theorem null : Reads .null [] .null := fun _ => rfl

theorem int {n : Int} (h : fitsInt n = true) : Reads .int (varint (zigzag n)) (.int n) := by
  intro rest
  rw [read,readLong_varint,bind_some,if_pos h]

theorem long (n : Int) : Reads .long (varint (zigzag n)) (.long n) := by
  intro rest
  rw [read,readLong_varint,map_some]

theorem bytes (b : Bytes) : Reads .bytes (varint (zigzag b.length) ++ b) (.bytes b) := by
  intro rest
  rw [read,append_assoc,readBytes_append,map_some]

theorem string (s : String) :
    Reads .string (varint (zigzag s.toByteArray.data.toList.length) ++ s.toByteArray.data.toList)
      (.string s) := by
  intro rest
  rw [read,append_assoc,readString_append,map_some]

theorem union_zero {t : Ty} {rest : Branches} {bs : Bytes} {v : Value} (h : Reads t bs v) :
    Reads (.union (.cons t rest)) (varint (zigzag 0) ++ bs) (.union 0 v) := by
  intro more
  have hneg : ¬(0 : Int) < 0 := by decide
  rw [read,append_assoc,readLong_varint,bind_some,if_neg hneg]
  exact congrArg (Option.map fun q : Value × Bytes => (Value.union 0 q.1, q.2)) (h more)

theorem union_one {t t' : Ty} {rest : Branches} {bs : Bytes} {v : Value} (h : Reads t bs v) :
    Reads (.union (.cons t' (.cons t rest))) (varint (zigzag 1) ++ bs) (.union 1 v) := by
  intro more
  have hneg : ¬(1 : Int) < 0 := by decide
  rw [read,append_assoc,readLong_varint,bind_some,if_neg hneg]
  exact congrArg (Option.map fun q : Value × Bytes => (Value.union 1 q.1, q.2)) (h more)

theorem array {ι : Type} {t : Ty} {xs : List ι} {encode : ι → Bytes} {value : ι → Value}
    (h : ∀ x ∈ xs, Reads t (encode x) (value x)) (hne : xs ≠ []) :
    Reads (.array t) (varint (zigzag xs.length) ++ (xs.flatMap encode ++ varint (zigzag 0)))
      (.array (xs.map value)) := by
  intro rest
  obtain ⟨fuel,hfuel⟩ := exists_length_eq_add_two (b := xs.flatMap encode) (d := rest)
    (varint_ne_nil (zigzag xs.length)) (varint_ne_nil (zigzag 0))
  rw [read,append_assoc,append_assoc,hfuel,readBlocks_flatMap h hne,map_some]

theorem emptyArray (t : Ty) : Reads (.array t) (varint (zigzag 0)) (.array []) := by
  intro rest
  have hpos := length_pos_iff.2 (varint_ne_nil (zigzag 0))
  obtain ⟨fuel,hfuel⟩ : ∃ fuel, (varint (zigzag 0) ++ rest).length = fuel + 1 :=
    ⟨(varint (zigzag 0) ++ rest).length - 1, by simp only [length_append]; omega⟩
  rw [read,hfuel,readBlocks,readLong_varint,bind_some,if_pos rfl,map_some]

theorem record {fields : Fields} {bs : Bytes} {vs : List (String × Value)}
    (h : ReadsFields fields bs vs) : Reads (.record fields) bs (.record vs) := by
  intro rest
  rw [read,h rest,map_some]

end Reads

namespace ReadsFields

theorem nil : ReadsFields .nil [] [] := fun _ => rfl

theorem cons {name : String} {t : Ty} {fields : Fields} {bs bs' : Bytes} {v : Value}
    {vs : List (String × Value)} (h : Reads t bs v) (h' : ReadsFields fields bs' vs) :
    ReadsFields (.cons name t fields) (bs ++ bs') ((name, v) :: vs) := by
  intro rest
  rw [readFields,append_assoc,h,bind_some,h',map_some]

theorem ofList {ι : Type} {xs : List ι} {name : ι → String} {type : ι → Ty} {encode : ι → Bytes}
    {value : ι → Value} (h : ∀ x ∈ xs, Reads (type x) (encode x) (value x)) :
    ReadsFields (.ofList (xs.map fun x => (name x, type x))) (xs.flatMap encode)
      (xs.map fun x => (name x, value x)) := by
  induction xs with
  | nil => exact nil
  | cons x xs ih =>
    have hx := h x mem_cons_self
    have hrest := ih fun y hy => h y (mem_cons_of_mem _ hy)
    exact cons hx hrest

end ReadsFields

/-! Object container files. -/

def magic : Bytes := [0x4F, 0x62, 0x6A, 0x01]

def takePrefix (p bs : Bytes) : Option Bytes :=
  if p.isPrefixOf bs then some (bs.drop p.length) else none

def readEntry (bs : Bytes) : Option ((String × Bytes) × Bytes) :=
  (readString bs).bind fun p => (readBytes p.2).map fun q => ((p.1, q.1), q.2)

/- The blocks of objects, up to the end of the file; each is followed by the sync marker. -/
def readDataBlocks (t : Ty) (sync : Bytes) : Nat → Bytes → Option (List Value)
  | 0, _ => none
  | fuel + 1, bs =>
    if bs.isEmpty then some []
    else (readLong bs).bind fun count => (readBytes count.2).bind fun block =>
      (takePrefix sync block.2).bind fun rest =>
        if count.1 < 0 then none
        else (readN (read t) count.1.toNat block.1).bind fun p =>
          (readDataBlocks t sync fuel rest).map fun vs => p.1 ++ vs

/- `parse` is the parser of schema texts. Only files without compression are read. -/
def readContainer (parse : String → Option Ty) (bs : Bytes) : Option (List Value) :=
  (takePrefix magic bs).bind fun bs =>
    (readBlocks readEntry bs.length bs).bind fun header =>
      let entry (key : String) := (header.1.find? fun p => p.1 = key).map Prod.snd
      if (entry "avro.codec").any (· ≠ "null".toByteArray.data.toList) ∨ header.2.length < 16 then none
      else ((entry "avro.schema").bind fun b => (String.fromUTF8? ⟨b.toArray⟩).bind parse).bind fun t =>
        let sync := header.2.take 16
        let blocks := header.2.drop 16
        readDataBlocks t sync (blocks.length + 1) blocks

@[simp] theorem takePrefix_append (p bs : Bytes) : takePrefix p (p ++ bs) = some bs := by
  simp [takePrefix]

end Avro
