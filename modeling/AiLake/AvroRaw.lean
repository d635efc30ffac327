import AiLake.Avro.Binary

/-! `avro_raw.rs`: Avro bytes written by hand. Every function gives the bytes that it appends to
the buffer. -/
namespace AiLake

open Avro Option

/- The shifts of the source compute the zigzag number, for every `i64`. -/
def encodeLong (n : Int) : Bytes := varint (zigzag n)

def encodeInt (n : Int) : Bytes := encodeLong n

def encodeBytesField (b : Bytes) : Bytes := encodeLong b.length ++ b

def utf8 (s : String) : Bytes := s.toByteArray.data.toList

def encodeString (s : String) : Bytes := encodeBytesField (utf8 s)

def encodeUnionNull : Bytes := encodeLong 0

def encodeUnionLong (index n : Int) : Bytes := encodeLong index ++ encodeLong n

def encodeUnionBytes (index : Int) (b : Bytes) : Bytes := encodeLong index ++ encodeBytesField b

def encodeEmptyArray : Bytes := encodeLong 0

def syncMarker : Bytes :=
  [0xDE, 0xAD, 0xBE, 0xEF, 0xCA, 0xFE, 0xBA, 0xBE, 0xDE, 0xAD, 0xBE, 0xEF, 0xCA, 0xFE, 0xBA, 0xBE]

def encodeEntry (entry : String × Bytes) : Bytes := encodeString entry.1 ++ encodeBytesField entry.2

/- All records go into one block; without records the file ends after its header. -/
def writeAvroContainer (schemaJson : String) (extraMeta : List (String × Bytes))
    (records : List Bytes) : Bytes :=
  let entries := ("avro.schema", utf8 schemaJson) :: ("avro.codec", utf8 "null") :: extraMeta
  magic ++ (encodeLong entries.length ++ (entries.flatMap encodeEntry ++ (encodeLong 0 ++
    (syncMarker ++ if records.isEmpty then []
      else encodeLong records.length ++ (encodeBytesField records.flatten ++ syncMarker)))))

theorem reads_encodeInt {n : Int} (h : fitsInt n = true) : Reads .int (encodeInt n) (.int n) :=
  .int h

theorem reads_encodeLong (n : Int) : Reads .long (encodeLong n) (.long n) := .long n

theorem reads_encodeString (s : String) : Reads .string (encodeString s) (.string s) := .string s

theorem reads_encodeUnionNull {branches : Branches} :
    Reads (.union (.cons .null branches)) encodeUnionNull (.union 0 .null) := by
  have h : Reads (.union (.cons .null branches)) (encodeLong 0 ++ []) (.union 0 .null) :=
    .union_zero .null
  rwa [List.append_nil] at h

theorem reads_encodeUnionLong (n : Int) {branches : Branches} :
    Reads (.union (.cons .null (.cons .long branches))) (encodeUnionLong 1 n)
      (.union 1 (.long n)) := .union_one (.long n)

theorem reads_encodeUnionBytes (b : Bytes) {branches : Branches} :
    Reads (.union (.cons .null (.cons .bytes branches))) (encodeUnionBytes 1 b)
      (.union 1 (.bytes b)) := .union_one (.bytes b)

theorem reads_encodeEmptyArray (t : Ty) : Reads (.array t) encodeEmptyArray (.array []) :=
  .emptyArray t

theorem readEntry_encodeEntry (entry : String × Bytes) (rest : Bytes) :
    readEntry (encodeEntry entry ++ rest) = some (entry, rest) := by
  simp only [readEntry,encodeEntry,encodeString,encodeBytesField,encodeLong,utf8,
    List.append_assoc,readString_append,bind_some,readBytes_append,map_some]

theorem readHeader (schemaJson : String) (extraMeta : List (String × Bytes)) (rest : Bytes) :
    let entries := ("avro.schema", utf8 schemaJson) :: ("avro.codec", utf8 "null") :: extraMeta
    let bs := encodeLong entries.length ++ (entries.flatMap encodeEntry ++ (encodeLong 0 ++ rest))
    readBlocks readEntry bs.length bs = some (entries, rest) := by
  intro entries bs
  obtain ⟨fuel,hfuel⟩ := exists_length_eq_add_two (b := entries.flatMap encodeEntry) (d := rest)
    (varint_ne_nil (zigzag entries.length)) (varint_ne_nil (zigzag 0))
  have hentry : ∀ e ∈ entries, ∀ rest, readEntry (encodeEntry e ++ rest) = some (id e, rest) :=
    fun e _ rest => readEntry_encodeEntry e rest
  have hblocks := readBlocks_flatMap hentry (by simp [entries]) fuel rest
  have hbs : bs.length = fuel + 2 := hfuel
  rw [List.map_id] at hblocks
  rw [hbs]
  exact hblocks

theorem readDataBlocks_block (t : Ty) (records : List Bytes) (fuel : Nat) :
    readDataBlocks t syncMarker (fuel + 2) (encodeLong records.length ++
      (encodeBytesField records.flatten ++ syncMarker)) =
        (readN (read t) records.length records.flatten).map Prod.fst := by
  have hempty : (encodeLong records.length ++
      (encodeBytesField records.flatten ++ syncMarker)).isEmpty = false := by
    simp [encodeLong,varint_ne_nil]
  have hsync : takePrefix syncMarker syncMarker = some [] := by
    simpa using takePrefix_append syncMarker []
  have hneg : ¬(records.length : Int) < 0 := by omega
  have hcount : (records.length : Int).toNat = records.length := rfl
  have hend : readDataBlocks t syncMarker (fuel + 1) [] = some [] := rfl
  rw [readDataBlocks,hempty,if_neg Bool.false_ne_true,encodeLong,encodeBytesField,encodeLong,
    List.append_assoc,readLong_varint,bind_some,readBytes_append,bind_some,hsync,
    bind_some,if_neg hneg,hcount,hend]
  cases readN (read t) records.length records.flatten <;> simp

theorem readBlocks_writeAvroContainer (t : Ty) (records : List Bytes) :
    let bs := if records.isEmpty then []
      else encodeLong records.length ++ (encodeBytesField records.flatten ++ syncMarker)
    readDataBlocks t syncMarker (bs.length + 1) bs =
      (readN (read t) records.length records.flatten).map Prod.fst := by
  intro bs
  cases records with
  | nil => rfl
  | cons r records =>
    have hbs : bs = encodeLong (r :: records).length ++
        (encodeBytesField (r :: records).flatten ++ syncMarker) := rfl
    have hpos : 0 < bs.length := by
      rw [hbs,encodeLong,List.length_append]
      have := List.length_pos_iff.2 (varint_ne_nil (zigzag (r :: records).length))
      omega
    obtain ⟨fuel,hfuel⟩ : ∃ fuel, bs.length + 1 = fuel + 2 := ⟨bs.length - 1, by omega⟩
    rw [hfuel,hbs]
    exact readDataBlocks_block t (r :: records) fuel

/-- A container is read back record by record, as far as the records can be told apart. -/
theorem readContainer_writeAvroContainer {parse : String → Option Ty} {schemaJson : String} {t : Ty}
    (hparse : parse schemaJson = some t) (extraMeta : List (String × Bytes))
    (records : List Bytes) :
    readContainer parse (writeAvroContainer schemaJson extraMeta records) =
      (readN (read t) records.length records.flatten).map Prod.fst := by
  have hschema : String.fromUTF8? ⟨(utf8 schemaJson).toArray⟩ = some schemaJson := by
    rw [utf8,Array.toArray_toList]
    exact fromUTF8?_toByteArray schemaJson
  have hsync (rest : Bytes) : (syncMarker ++ rest).take 16 = syncMarker ∧
      (syncMarker ++ rest).drop 16 = rest := ⟨rfl,rfl⟩
  rw [readContainer,writeAvroContainer,takePrefix_append,bind_some,readHeader,
    bind_some]
  rw [if_neg (by simp [utf8,syncMarker])]
  dsimp only
  rw [List.find?_cons_of_pos (by simp),map_some,
    bind_some,hschema,bind_some,hparse,bind_some,(hsync _).1,
    (hsync _).2]
  exact readBlocks_writeAvroContainer t records

theorem readContainer_of_reads {ι : Type} {parse : String → Option Ty} {schemaJson : String}
    {t : Ty} {xs : List ι} {encode : ι → Bytes} {value : ι → Value}
    (hparse : parse schemaJson = some t) (hreads : ∀ x ∈ xs, Reads t (encode x) (value x))
    (extraMeta : List (String × Bytes)) :
    readContainer parse (writeAvroContainer schemaJson extraMeta (xs.map encode)) =
      some (xs.map value) := by
  have hn := readN_flatMap hreads []
  rw [List.append_nil,List.flatMap_def] at hn
  rw [readContainer_writeAvroContainer hparse,List.length_map,hn]
  rfl

end AiLake
