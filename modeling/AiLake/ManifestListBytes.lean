import AiLake.ManifestList

/-! Manifest lists down to machine integers: the writer shifts and masks 64-bit words, a reader of
Avro gets every manifest with its length and content. -/
namespace AiLake.ManifestBytes

open Avro

/-! Longs. -/

/- The loop of `encode_long`: seven bits a round, so that ten rounds are enough for a word. -/
def encodeGroups : Nat → UInt64 → Bytes
  | 0, _ => []
  | rounds + 1, v =>
    let b := (v &&& 0x7F).toUInt8
    let v := v >>> 7
    if v = 0 then [b] else (b ||| 0x80) :: encodeGroups rounds v

def encodeLong64 (n : Int64) : Bytes := encodeGroups 10 ((n <<< 1) ^^^ (n >>> 63)).toUInt64

def encodeInt32 (n : Int32) : Bytes := encodeLong64 n.toInt64

theorem toNat_shift_seven (v : UInt64) : (v >>> 7).toNat = v.toNat / 128 := by
  simp [Nat.shiftRight_eq_div_pow]

theorem low_seven (v : UInt64) : (v &&& 0x7F).toUInt8 = UInt8.ofNat (v.toNat % 128) := by
  have hmask (k : Nat) : k &&& 127 = k % 128 := Nat.and_two_pow_sub_one_eq_mod k 7
  apply UInt8.toNat_inj.1
  simp only [UInt64.toNat_toUInt8,UInt64.toNat_and,UInt64.toNat_ofNat,UInt8.toNat_ofNat']
  rw [Nat.mod_eq_of_lt (by decide : 127 < 2 ^ 64),hmask]

theorem continued {n : Nat} (h : n < 128) : UInt8.ofNat n ||| 0x80 = UInt8.ofNat (n + 128) := by
  have hor : 128 ||| n = 128 + n := by
    simpa using (Nat.two_pow_add_eq_or_of_lt (i := 7) h 1).symm
  apply UInt8.toNat_inj.1
  simp only [UInt8.toNat_or,UInt8.toNat_ofNat',UInt8.toNat_ofNat]
  rw [Nat.mod_eq_of_lt (by omega),Nat.or_comm]
  simp
  omega

theorem encodeGroups_succ (rounds : Nat) (v : UInt64) : encodeGroups (rounds + 1) v =
    if v.toNat < 128 then [UInt8.ofNat v.toNat]
    else UInt8.ofNat (v.toNat % 128 + 128) :: encodeGroups rounds (v >>> 7) := by
  have hzero : v >>> 7 = 0 ↔ v.toNat < 128 := by
    rw [← UInt64.toNat_inj,toNat_shift_seven]
    simp
  simp only [encodeGroups,hzero,low_seven,continued (Nat.mod_lt v.toNat (by decide : 128 > 0))]
  split
  case isTrue h => rw [Nat.mod_eq_of_lt h]
  case isFalse h => rfl

theorem encodeGroups_eq (rounds : Nat) (v : UInt64) (fuel : Nat)
    (hrounds : v.toNat < 128 ^ rounds) (hfuel : v.toNat ≤ fuel) (hpos : 0 < rounds) : encodeGroups rounds v = varintFrom fuel v.toNat := by
  induction rounds generalizing v fuel with
  | zero => omega
  | succ rounds ih =>
    rw [encodeGroups_succ]
    cases fuel with
    | zero =>
      have hv : v.toNat = 0 := by omega
      simp [hv,varintFrom]
    | succ fuel =>
      rw [varintFrom]
      split
      case isTrue => rfl
      case isFalse hbig =>
        have hpow : (128 : Nat) ^ (rounds + 1) = 128 ^ rounds * 128 := Nat.pow_succ ..
        have hrest : v.toNat / 128 < 128 ^ rounds := by
          rw [Nat.div_lt_iff_lt_mul (by decide)]
          omega
        have hpos : 0 < rounds := by
          rw [Nat.pos_iff_ne_zero]
          rintro rfl
          omega
        rw [ih (v >>> 7) fuel (by rwa [toNat_shift_seven]) (by rw [toNat_shift_seven]; omega) hpos,
          toNat_shift_seven]

theorem sshiftRight_sign (x : BitVec 64) :
    x.sshiftRight 63 = if x.msb then BitVec.allOnes 64 else 0#64 := by
  have hmsb : x.msb = decide (2 ^ 63 ≤ x.toNat) := BitVec.msb_eq_decide x
  cases hx : x.msb with
  | true =>
    have hhigh : 2 ^ 63 ≤ x.toNat := by simpa [hx] using hmsb
    have hzero : ~~~x >>> 63 = 0 := by
      apply BitVec.eq_of_toNat_eq
      rw [BitVec.toNat_ushiftRight,BitVec.toNat_not,Nat.shiftRight_eq_div_pow]
      simp
      omega
    rw [BitVec.sshiftRight_eq_of_msb_true hx,hzero]
    rfl
  | false =>
    have hlow : x.toNat < 2 ^ 63 := by simpa [hx] using hmsb
    rw [BitVec.sshiftRight_eq_of_msb_false hx]
    apply BitVec.eq_of_toNat_eq
    rw [BitVec.toNat_ushiftRight,Nat.shiftRight_eq_div_pow,Nat.div_eq_of_lt hlow]
    rfl

theorem toNat_zigzagBits (x : BitVec 64) :
    ((x <<< 1) ^^^ x.sshiftRight 63).toNat = zigzag x.toInt := by
  have hmsb : x.msb = decide (2 ^ 63 ≤ x.toNat) := BitVec.msb_eq_decide x
  have hdouble : (x <<< 1).toNat = x.toNat * 2 % 2 ^ 64 := by
    rw [BitVec.toNat_shiftLeft,Nat.shiftLeft_eq]
  rw [sshiftRight_sign,BitVec.toInt_eq_msb_cond]
  cases hx : x.msb with
  | true =>
    have hhigh : 2 ^ 63 ≤ x.toNat := by simpa [hx] using hmsb
    have hlt := x.isLt
    have hneg : (x.toNat : Int) - (2 ^ 64 : Nat) = Int.negSucc (2 ^ 64 - 1 - x.toNat) := by
      omega
    rw [if_pos rfl,if_pos rfl,BitVec.xor_allOnes,BitVec.toNat_not,hdouble,hneg,zigzag]
    omega
  | false =>
    have hlow : x.toNat < 2 ^ 63 := by simpa [hx] using hmsb
    rw [if_neg Bool.false_ne_true,if_neg Bool.false_ne_true,BitVec.xor_zero,hdouble,
      Nat.mod_eq_of_lt (by omega),Nat.mul_comm]
    rfl

theorem encodeLong64_eq (n : Int64) : encodeLong64 n = encodeLong n.toInt := by
  have hword : ((n <<< 1) ^^^ (n >>> 63)).toUInt64.toNat = zigzag n.toInt :=
    toNat_zigzagBits n.toBitVec
  have hbound := ((n <<< 1) ^^^ (n >>> 63)).toUInt64.toNat_lt
  rw [encodeLong64,encodeGroups_eq 10 _ _ (by omega) (Nat.le_refl _) (by decide),hword]
  rfl

theorem encodeInt32_eq (n : Int32) : encodeInt32 n = encodeInt n.toInt := by
  rw [encodeInt32,encodeLong64_eq,Int32.toInt_toInt64]
  rfl

/-! The list. -/

structure ListedManifest where
  path : String
  length : Int64
  content : Int32
  deriving DecidableEq

/- Lengths of texts and blocks fit a long: no Rust value is larger. -/
def listRecord (snapshotId sequenceNumber rows : Int64) (m : ListedManifest) : Bytes :=
  [encodeString m.path, encodeLong64 m.length, encodeInt32 0, encodeInt32 m.content,
    encodeLong64 sequenceNumber, encodeLong64 sequenceNumber, encodeLong64 snapshotId, encodeInt32 1,
    encodeInt32 0, encodeInt32 0, encodeLong64 rows, encodeLong64 0, encodeLong64 0,
    encodeEmptyArray].flatten

def writeManifestListMultiTyped (schemas : SchemaTexts) (manifests : List ListedManifest)
    (snapshotId sequenceNumber addedRows : Int64) : Bytes :=
  writeAvroContainer (schemas.text manifestFileType) [] (manifests.zipIdx.map fun p =>
    listRecord snapshotId sequenceNumber (if p.2 + 1 = manifests.length then addedRows else 0) p.1)

def ListedManifest.entry (m : ListedManifest) : ManifestListEntry := ⟨m.path, m.content.toInt⟩

def ListedManifest.sized (m : ListedManifest) : ManifestListEntry × Int := (m.entry, m.length.toInt)

def listRecords (manifests : List ListedManifest) (snapshotId sequenceNumber addedRows : Int64) :
    List ManifestFile :=
  AiLake.writeManifestListMultiTyped (manifests.map ListedManifest.sized) snapshotId.toInt
    sequenceNumber.toInt addedRows.toInt

theorem writeManifestListMultiTyped_eq (schemas : SchemaTexts) (manifests : List ListedManifest)
    (snapshotId sequenceNumber addedRows : Int64) :
    writeManifestListMultiTyped schemas manifests snapshotId sequenceNumber addedRows =
      writeManifestList schemas (listRecords manifests snapshotId sequenceNumber addedRows) := by
  rw [writeManifestListMultiTyped,writeManifestList,listRecords,
    AiLake.writeManifestListMultiTyped,List.zipIdx_map,List.map_map,List.map_map,
    List.length_map]
  congr 1
  apply List.map_congr_left
  intro p _
  have hrows : (if p.2 + 1 = manifests.length then addedRows else 0).toInt =
      if p.2 + 1 = manifests.length then addedRows.toInt else 0 := by
    split <;> rfl
  simp only [listRecord,encodeLong64_eq,encodeInt32_eq,hrows]
  rfl

theorem fitsInt_content (manifests : List ListedManifest) :
    ∀ e ∈ manifests.map ListedManifest.sized, fitsInt e.1.content = true := by
  intro e he
  obtain ⟨m,_,rfl⟩ := List.mem_map.1 he
  exact fitsInt_toInt m.content

def listedIn (v : Value) : Option (String × Int × Int) :=
  (recordOf v).bind fun fields => (fieldAs stringOf fields "manifest_path").bind fun path =>
    (fieldAs longOf fields "manifest_length").bind fun length =>
      (fieldAs intOf fields "content").map fun content => (path, length, content)

theorem listedIn_manifestFileValue (r : ManifestFile) :
    listedIn (manifestFileValue r) = some (r.manifestPath, r.manifestLength, r.content) := by
  simp [listedIn,manifestFileValue,recordOf,fieldAs,field,stringOf,longOf,intOf]

theorem map_listRecords (manifests : List ListedManifest)
    (snapshotId sequenceNumber addedRows : Int64) :
    (listRecords manifests snapshotId sequenceNumber addedRows).map
        (fun r => (r.manifestPath, r.manifestLength, r.content)) =
      manifests.map fun m => (m.path, m.length.toInt, m.content.toInt) := by
  apply List.ext_getElem
  · simp [listRecords,AiLake.writeManifestListMultiTyped]
  · intro i hi hi'
    simp [listRecords,AiLake.writeManifestListMultiTyped,ListedManifest.sized,
      ListedManifest.entry]

/-- A reader of Avro gets every manifest of a list with its length and content, in order, and the
reader of the commit path its path and content. -/
theorem manifestList_roundTrip {schemas : SchemaTexts} (hschema : schemas.Knows manifestFileType)
    (manifests : List ListedManifest) (snapshotId sequenceNumber addedRows : Int64) :
    (∃ values, readContainer schemas.parse
        (writeManifestListMultiTyped schemas manifests snapshotId sequenceNumber addedRows) =
          some values ∧
      values.map listedIn =
        manifests.map fun m => some (m.path, m.length.toInt, m.content.toInt)) ∧
    readManifestListTyped schemas
        (writeManifestListMultiTyped schemas manifests snapshotId sequenceNumber addedRows) =
      some (manifests.map fun m => ⟨m.path, m.content.toInt⟩) := by
  let records := listRecords manifests snapshotId sequenceNumber addedRows
  have hrange : ∀ r ∈ records, CountsInRange r := by
    intro r hr
    exact countsInRange_multiTyped (fitsInt_content manifests) _ _ _ hr
  rw [writeManifestListMultiTyped_eq]
  constructor
  · have hlisted : (records.map manifestFileValue).map listedIn =
        manifests.map fun m => some (m.path, m.length.toInt, m.content.toInt) := by
      have hrecords := map_listRecords manifests snapshotId sequenceNumber addedRows
      calc (records.map manifestFileValue).map listedIn
        _ = records.map fun r => some (r.manifestPath, r.manifestLength, r.content) := by
          rw [List.map_map]
          exact List.map_congr_left fun r _ => listedIn_manifestFileValue r
        _ = (records.map fun r => (r.manifestPath, r.manifestLength, r.content)).map some := by
          rw [List.map_map]
          rfl
        _ = manifests.map fun m => some (m.path, m.length.toInt, m.content.toInt) := by
          rw [hrecords,List.map_map]
          rfl
    refine ⟨records.map manifestFileValue, ?_, hlisted⟩
    exact readContainer_of_reads hschema (fun r hr => reads_manifestFileBytes (hrange r hr)) []
  · have hread := readManifestListTyped_multiTyped hschema (fitsInt_content manifests)
      snapshotId.toInt sequenceNumber.toInt addedRows.toInt
    rw [List.map_map] at hread
    exact hread

theorem manifestList_roundTrip_extremes :
    (∃ values, readContainer (demoSchemas manifestFileType).parse
        (writeManifestListMultiTyped (demoSchemas manifestFileType)
          [⟨"m0.avro", Int64.minValue, 1⟩, ⟨"", Int64.maxValue, Int32.minValue⟩] (-1) 0 7) =
          some values ∧
      values.map listedIn =
        [⟨"m0.avro", Int64.minValue, 1⟩, ⟨"", Int64.maxValue, Int32.minValue⟩].map
          fun m : ListedManifest => some (m.path, m.length.toInt, m.content.toInt)) ∧
    readManifestListTyped (demoSchemas manifestFileType)
        (writeManifestListMultiTyped (demoSchemas manifestFileType)
          [⟨"m0.avro", Int64.minValue, 1⟩, ⟨"", Int64.maxValue, Int32.minValue⟩] (-1) 0 7) =
      some ([⟨"m0.avro", Int64.minValue, 1⟩, ⟨"", Int64.maxValue, Int32.minValue⟩].map
        fun m : ListedManifest => ⟨m.path, m.content.toInt⟩) :=
  manifestList_roundTrip (demoSchemas_knows _) _ (-1) 0 7

end AiLake.ManifestBytes
