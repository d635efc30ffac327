import AiLake.FileLayoutSpec

/-! `index_loader.rs`: the index of the primary column fetched by ranges, beside the loader of
`reader.rs` that has the whole file. -/
namespace AiLake.IndexLoader

open Binary

/-- The local store refuses a range that does not lie in the file. Object stores clip it. -/
inductive RangeStore where
  | localFiles
  | objects
  deriving DecidableEq, Repr

def maxLocalRangeBytes : Nat := 256 * 1024 * 1024

def RangeStore.getRange (store : RangeStore) (file : Bytes) (start stop : Nat) :
    Except AilakeError Bytes :=
  match store with
  | .localFiles =>
    if stop < start then
      .error (.invalidArgument ("invalid byte range: " ++ toString start ++ ".." ++ toString stop))
    else if file.length < stop then
      .error (.invalidArgument ("byte range " ++ toString start ++ ".." ++ toString stop ++
        " exceeds file size " ++ toString file.length))
    else if maxLocalRangeBytes < stop - start then
      .error (.invalidArgument
        ("byte range exceeds the " ++ toString maxLocalRangeBytes ++ " byte limit"))
    else .ok (slice file start stop)
  | .objects =>
    -- an empty range and one that starts after the last byte are errors
    if stop ≤ start ∨ file.length ≤ start then .error .store
    else .ok (slice file start stop)

/-- The bytes of the file from `base` on. -/
structure TailBuf where
  base : Nat
  bytes : Bytes

def TailBuf.slice (tail : TailBuf) (start stop : Nat) : Option Bytes :=
  if start < tail.base ∨ tail.base + tail.bytes.length < stop then none
  else some (Binary.slice tail.bytes (start - tail.base) (stop - tail.base))

def speculativeTailBytes : Nat := 65536

/-! The decoders of the index crate are parameters. -/

structure IndexCodec (ι κ : Type) where
  hnsw : Bytes → Except AilakeError ι
  quantizeToF16 : ι → ι
  ivfPq : Bytes → Except AilakeError κ

inductive AnyIndex (ι κ : Type) where
  | hnsw (index : ι)
  | ivfPq (index : κ)
  deriving DecidableEq, Repr

def decodeIndex {ι κ : Type} (codec : IndexCodec ι κ) (header : AilakeHeader) (bytes : Bytes) :
    Except AilakeError (AnyIndex ι κ) :=
  if header.flags &&& flagIndexIvfPq ≠ 0 then do
    let index ← codec.ivfPq bytes
    return .ivfPq index
  else do
    let index ← codec.hnsw bytes
    return .hnsw (if header.precision = .f16 then codec.quantizeToF16 index else index)

structure LoadedIndex (ι κ : Type) where
  header : AilakeHeader
  bytes : Bytes
  index : AnyIndex ι κ
  deriving DecidableEq

section Loaders

variable {ι κ : Type} (pq : ParquetEngine) (codec : IndexCodec ι κ) (store : RangeStore)
  (tailBytes : Nat) (file : Bytes)

/- The second request has the size that the end of the first one gives. -/
def readTail : Except AilakeError TailBuf := do
  let guessLen := min tailBytes file.length
  let base := file.length - guessLen
  let tail ← store.getRange file base file.length
  match parquetFooterStart tail with
  | .ok _ => return ⟨base, tail⟩
  | .error _ =>
    if tail.length < 8 then throw .notAnAilakeFile
    else
      let footerThriftLen := ofLe (slice tail (tail.length - 8) (tail.length - 4))
      let exactLen := min (8 + footerThriftLen) file.length
      let base := file.length - exactLen
      let tail ← store.getRange file base file.length
      return ⟨base, tail⟩

def resolveAilkOffset : Except AilakeError (Nat × TailBuf) := do
  let tail ← readTail store tailBytes file
  match ← pq.keyValue tail.bytes footerOffsetKey with
  | none => throw .notAnAilakeFile
  | some text =>
    match parseU64 text with
    | none => throw .notAnAilakeFile
    | some offset => return (offset, tail)

/-- From the tail where it has the range, and else from the store. -/
def fetchRange (tail : TailBuf) (start stop : Nat) : Except AilakeError Bytes :=
  match tail.slice start stop with
  | some bytes => .ok bytes
  | none => store.getRange file start stop

def loadPrimaryIndex : Except AilakeError (LoadedIndex ι κ) := do
  let (ailkOffset, tail) ← resolveAilkOffset pq store tailBytes file
  let headerEnd ← checkedAdd ailkOffset headerSize
  let headerBytes ← fetchRange store file tail ailkOffset headerEnd
  if headerBytes.length ≠ headerSize then throw .notAnAilakeFile
  else
    let header ← AilakeHeader.fromBytes headerBytes
    let indexStart ← checkedAdd ailkOffset header.hnswOffset.toNat
    let indexEnd ← checkedAdd indexStart header.hnswLen.toNat
    let bytes ← fetchRange store file tail indexStart indexEnd
    let index ← decodeIndex codec header bytes
    return ⟨header, bytes, index⟩

def loadAnyIndexForColumn (column : String) : Except AilakeError (LoadedIndex ι κ) := do
  let ailkStart ← ailkOffsetForColumn pq file column
  let header ← readHeaderAtOffset file ailkStart
  let bytes ← indexBytes file ailkStart header
  let index ← decodeIndex codec header bytes
  return ⟨header, bytes, index⟩

def sectionAt (offset : Nat) : Except AilakeError (AilakeHeader × Bytes) := do
  let header ← readHeaderAtOffset file offset
  let bytes ← indexBytes file offset header
  return (header, bytes)

def namedSection (key : String) : Except AilakeError (AilakeHeader × Bytes) := do
  let offset ← offsetUnder pq file key (.error .notAnAilakeFile)
  sectionAt file offset

/-- The footer has no key for the column, or one for the same section as the plain key; and the
section ends in the file, as the local store makes sure. -/
structure FastPathAgrees (column : String) : Prop where
  section_eq : pq.keyValue file (columnOffsetKey column) = .ok none ∨
    namedSection pq file (columnOffsetKey column) = namedSection pq file footerOffsetKey
  inside : store = .localFiles ∨ ∃ found, namedSection pq file footerOffsetKey = .ok found

end Loaders

/-- The metadata are parsed from the end of a buffer, and a lookup in them does not fail. -/
structure ReadsFooter (pq : ParquetEngine) : Prop where
  from_end : ∀ before tail key value, pq.keyValue tail key = .ok value →
    pq.keyValue (before ++ tail) key = .ok value
  lookup : ∀ file key key' value, pq.keyValue file key = .ok value →
    ∃ value', pq.keyValue file key' = .ok value'

section Ranges

variable {store : RangeStore} {file bytes : Bytes} {start stop : Nat}

/-- The bytes of a range that was asked for: those of the file, all of them unless the store clips. -/
def Fetched (store : RangeStore) (file : Bytes) (start stop : Nat) (bytes : Bytes) : Prop :=
  bytes = slice file start stop ∧
    (stop ≤ file.length ∨ store = .objects ∧ bytes.length < stop - start)

theorem fetched_getRange (h : store.getRange file start stop = .ok bytes) :
    Fetched store file start stop bytes := by
  cases store with
  | localFiles =>
    simp only [RangeStore.getRange] at h
    split_ifs at h with horder hend hlimit
    cases h
    exact ⟨rfl, .inl (by omega)⟩
  | objects =>
    simp only [RangeStore.getRange] at h
    split_ifs at h with hempty
    cases h
    refine ⟨rfl,?_⟩
    by_cases hstop : stop ≤ file.length
    · exact .inl hstop
    · refine .inr ⟨rfl,?_⟩
      rw [slice,List.length_take,List.length_drop]
      omega

variable {tail : TailBuf}

def TailBuf.EndOf (tail : TailBuf) (file : Bytes) : Prop :=
  tail.base ≤ file.length ∧ tail.bytes = file.drop tail.base

theorem fetched_fetchRange (htail : tail.EndOf file) (hle : start ≤ stop)
    (h : fetchRange store file tail start stop = .ok bytes) :
    Fetched store file start stop bytes := by
  unfold fetchRange at h
  split at h
  · rename_i part hpart
    cases h
    obtain ⟨hbase,hbytes⟩ := htail
    rw [TailBuf.slice] at hpart
    split_ifs at hpart with hout
    rw [hbytes,List.length_drop] at hout
    cases hpart
    rw [hbytes,slice_drop (by omega) hle]
    exact ⟨rfl, .inl (by omega)⟩
  · exact fetched_getRange h

theorem endOf_of_getRange {len : Nat} (h : store.getRange file (file.length - len) file.length =
    .ok bytes) : TailBuf.EndOf ⟨file.length - len, bytes⟩ file := by
  obtain ⟨rfl,-⟩ := fetched_getRange h
  refine ⟨Nat.sub_le _ _, ?_⟩
  rw [slice,List.take_of_length_le (by rw [List.length_drop])]

theorem endOf_readTail {tailBytes : Nat} (h : readTail store tailBytes file = .ok tail) :
    tail.EndOf file := by
  obtain ⟨first,hfirst,h⟩ := bind_eq_ok.1 h
  split at h
  · cases h
    exact endOf_of_getRange hfirst
  · split_ifs at h
    obtain ⟨second,hsecond,h⟩ := bind_eq_ok.1 h
    cases h
    exact endOf_of_getRange hsecond

end Ranges

section Agreement

variable {ι κ : Type} {pq : ParquetEngine} {codec : IndexCodec ι κ} {store : RangeStore}
  {tailBytes : Nat} {file : Bytes} {loaded : LoadedIndex ι κ}

theorem checkedAdd_ok {a b n : Nat} (h : checkedAdd a b = .ok n) : n = a + b ∧ a + b < 2 ^ 64 := by
  rw [checkedAdd] at h
  split_ifs at h with hlt
  cases h
  exact ⟨rfl,hlt⟩

theorem resolveAilkOffset_ok (hpq : ReadsFooter pq) {offset : Nat} {tail : TailBuf}
    (h : resolveAilkOffset pq store tailBytes file = .ok (offset, tail)) :
    tail.EndOf file ∧ ∃ text, pq.keyValue file footerOffsetKey = .ok (some text) ∧
      parseU64 text = some offset := by
  obtain ⟨tail',htail,h⟩ := bind_eq_ok.1 h
  obtain ⟨value,hvalue,h⟩ := bind_eq_ok.1 h
  have hend := endOf_readTail htail
  have hfile : file.take tail'.base ++ tail'.bytes = file := by
    rw [hend.2,List.take_append_drop]
  have hkey := hpq.from_end (file.take tail'.base) _ _ _ hvalue
  rw [hfile] at hkey
  cases value with
  | none => cases h
  | some text =>
    dsimp only at h
    split at h
    · cases h
    · rename_i offset' hoffset
      cases h
      exact ⟨hend,text,hkey,hoffset⟩

theorem length_of_sectionAt {offset : Nat} {header : AilakeHeader} {bytes : Bytes}
    (h : sectionAt file offset = .ok (header, bytes)) :
    bytes.length = header.hnswLen.toNat := by
  obtain ⟨header',-,h⟩ := bind_eq_ok.1 h
  obtain ⟨bytes',hbytes,h⟩ := bind_eq_ok.1 h
  cases h
  rw [indexBytes,sectionPart] at hbytes
  split at hbytes
  · cases hbytes
  · split at hbytes
    · cases hbytes
    · rename_i start hstart stop hstop
      split_ifs at hbytes with hlen
      cases hbytes
      obtain ⟨rfl,-⟩ := checkedAdd_ok hstop
      rw [slice,List.length_take,List.length_drop]
      omega

theorem sectionAt_of_header {offset : Nat} {header : AilakeHeader}
    (h : readHeaderAtOffset file offset = .ok header) :
    sectionAt file offset = (indexBytes file offset header).map fun bytes => (header, bytes) := by
  rw [sectionAt,h]
  rfl

theorem loadPrimaryIndex_ok (hpq : ReadsFooter pq)
    (h : loadPrimaryIndex pq codec store tailBytes file = .ok loaded) :
    ∃ offset text, pq.keyValue file footerOffsetKey = .ok (some text) ∧
      parseU64 text = some offset ∧ readHeaderAtOffset file offset = .ok loaded.header ∧
      (sectionAt file offset = .ok (loaded.header, loaded.bytes) ∨ store = .objects ∧
        (∃ e, sectionAt file offset = .error e) ∧
        loaded.bytes.length < loaded.header.hnswLen.toNat) ∧
      decodeIndex codec loaded.header loaded.bytes = .ok loaded.index := by
  obtain ⟨⟨offset,tail⟩,hoffset,h⟩ := bind_eq_ok.1 h
  obtain ⟨hend,text,hkey,htext⟩ := resolveAilkOffset_ok hpq hoffset
  obtain ⟨headerEnd,hheaderEnd,h⟩ := bind_eq_ok.1 h
  obtain ⟨headerBytes,hheaderBytes,h⟩ := bind_eq_ok.1 h
  split_ifs at h with hsize
  obtain ⟨header,hheader,h⟩ := bind_eq_ok.1 h
  obtain ⟨start,hstart,h⟩ := bind_eq_ok.1 h
  obtain ⟨stop,hstop,h⟩ := bind_eq_ok.1 h
  obtain ⟨bytes,hbytes,h⟩ := bind_eq_ok.1 h
  obtain ⟨index,hindex,h⟩ := bind_eq_ok.1 h
  cases h
  have hadd := checkedAdd_ok hheaderEnd
  have hread : readHeaderAtOffset file offset = .ok header := by
    obtain ⟨rfl,hcut⟩ := fetched_fetchRange hend (by omega) hheaderBytes
    have hin : headerEnd ≤ file.length := by
      rcases hcut with hin | ⟨-,hshort⟩
      · exact hin
      · omega
    simp only [readHeaderAtOffset,hheaderEnd]
    rw [if_neg (by omega),hheader]
  have hpart : indexBytes file offset header =
      if file.length < stop then .error .notAnAilakeFile else .ok (slice file start stop) := by
    simp only [indexBytes,sectionPart,hstart,hstop]
  have hlen := checkedAdd_ok hstop
  obtain ⟨rfl,hcut⟩ := fetched_fetchRange hend (by omega) hbytes
  refine ⟨offset,text,hkey,htext,hread,?_,hindex⟩
  by_cases hin : stop ≤ file.length
  · left
    rw [sectionAt_of_header hread,hpart,if_neg (by omega)]
    rfl
  · obtain ⟨hstore,hshort⟩ := hcut.resolve_left hin
    refine .inr ⟨hstore,⟨.notAnAilakeFile,?_⟩,?_⟩
    · rw [sectionAt_of_header hread,hpart,if_pos (by omega)]
      rfl
    · change (slice file start stop).length < header.hnswLen.toNat
      omega

theorem loadAnyIndexForColumn_ok {column : String} :
    loadAnyIndexForColumn pq codec file column = .ok loaded ↔
      (∃ offset, ailkOffsetForColumn pq file column = .ok offset ∧
        sectionAt file offset = .ok (loaded.header, loaded.bytes)) ∧
      decodeIndex codec loaded.header loaded.bytes = .ok loaded.index := by
  constructor
  · intro h
    obtain ⟨offset,hoffset,h⟩ := bind_eq_ok.1 h
    obtain ⟨header,hheader,h⟩ := bind_eq_ok.1 h
    obtain ⟨bytes,hbytes,h⟩ := bind_eq_ok.1 h
    obtain ⟨index,hindex,h⟩ := bind_eq_ok.1 h
    cases h
    refine ⟨⟨offset,hoffset,?_⟩,hindex⟩
    rw [sectionAt_of_header hheader,hbytes]
    rfl
  · rintro ⟨⟨offset,hoffset,hsection⟩,hindex⟩
    obtain ⟨header,hheader,hsection⟩ := bind_eq_ok.1 hsection
    obtain ⟨bytes,hbytes,hsection⟩ := bind_eq_ok.1 hsection
    cases hsection
    refine bind_eq_ok.2 ⟨offset, hoffset, bind_eq_ok.2 ⟨loaded.header,hheader,?_⟩⟩
    exact bind_eq_ok.2 ⟨loaded.bytes, hbytes, bind_eq_ok.2 ⟨loaded.index,hindex,rfl⟩⟩

theorem namedSection_of_parse {key text : String} {offset : Nat}
    (hkey : pq.keyValue file key = .ok (some text)) (htext : parseU64 text = some offset) :
    namedSection pq file key = sectionAt file offset := by
  simp only [namedSection,offsetUnder,hkey,htext]
  rfl

/-- An index that was loaded by ranges is loaded from the whole file, with the same header and the same
bytes, exactly under the condition. -/
theorem loadPrimaryIndex_agrees_iff (hpq : ReadsFooter pq) (column : String)
    (h : loadPrimaryIndex pq codec store tailBytes file = .ok loaded) :
    loadAnyIndexForColumn pq codec file column = .ok loaded ↔
      FastPathAgrees pq store file column := by
  obtain ⟨offset,text,hkey,htext,hheader,hsection,hindex⟩ := loadPrimaryIndex_ok hpq h
  have hplain := namedSection_of_parse hkey htext
  have hoffset : ailkOffset pq file = .ok offset := by
    simp only [ailkOffset,offsetUnder,hkey,htext]
  obtain ⟨own,hown⟩ := hpq.lookup file footerOffsetKey (columnOffsetKey column) _ hkey
  rw [loadAnyIndexForColumn_ok]
  constructor
  · rintro ⟨⟨found,hfound,hat⟩,-⟩
    have hwhole : sectionAt file offset = .ok (loaded.header, loaded.bytes) := by
      rcases hsection with hwhole | ⟨-,-,hshort⟩
      · exact hwhole
      · have := length_of_sectionAt hat
        omega
    refine ⟨?_, .inr ⟨_, hplain.trans hwhole⟩⟩
    cases own with
    | none => exact .inl hown
    | some ownText =>
      simp only [ailkOffsetForColumn,offsetUnder,hown] at hfound
      split at hfound
      · rename_i n hn
        cases hfound
        right
        rw [namedSection_of_parse hown hn,hplain,hat,hwhole]
      · cases hfound
  · intro hagrees
    have hwhole : sectionAt file offset = .ok (loaded.header, loaded.bytes) := by
      rcases hsection with hwhole | ⟨hstore,⟨e,he⟩,-⟩
      · exact hwhole
      · rcases hagrees.inside with hlocal | ⟨found,hfound⟩
        · rw [hstore] at hlocal
          cases hlocal
        · rw [hplain,he] at hfound
          cases hfound
    refine ⟨?_,hindex⟩
    rcases hagrees.section_eq with hnone | hsame
    · refine ⟨offset,?_,hwhole⟩
      simp only [ailkOffsetForColumn,offsetUnder,hnone]
      exact hoffset
    · rw [hplain,hwhole] at hsame
      cases own with
      | none =>
        refine ⟨offset,?_,hwhole⟩
        simp only [ailkOffsetForColumn,offsetUnder,hown]
        exact hoffset
      | some ownText =>
        obtain ⟨n,hn,hat⟩ := bind_eq_ok.1 hsame
        refine ⟨n,?_,hat⟩
        simp only [offsetUnder,hown] at hn
        simp only [ailkOffsetForColumn,offsetUnder,hown]
        exact hn

end Agreement

/-! The file with two columns, whose footer is kept. -/

def demoCodec : IndexCodec Bytes Bytes where
  hnsw := .ok
  quantizeToF16 := id
  ivfPq := .ok

theorem readsFooter_demoFooter (passes : FilePasses) (fts : Option Bytes) :
    ReadsFooter (demoFooter passes fts) where
  from_end _ _ _ _ h := h
  lookup _ _ _ _ _ := ⟨_,rfl⟩

def demoLoaded : LoadedIndex Bytes Bytes where
  header := sectionHeader (demoSection "a" [1]) 0 [1] .hnsw
  bytes := [1]
  index := .hnsw [1]

theorem loadPrimaryIndex_agrees_first_column :
    loadAnyIndexForColumn (demoFooter .two none) demoCodec (demoBytes .two none) "a" =
      .ok demoLoaded := by
  have hfast : loadPrimaryIndex (demoFooter .two none) demoCodec .objects speculativeTailBytes
      (demoBytes .two none) = .ok demoLoaded := by decide +kernel
  have hinside : ∃ found, namedSection (demoFooter .two none) (demoBytes .two none) footerOffsetKey =
      .ok found := ⟨(demoLoaded.header, demoLoaded.bytes), by decide +kernel⟩
  exact (loadPrimaryIndex_agrees_iff (readsFooter_demoFooter .two none) "a" hfast).2
    ⟨.inl (by decide +kernel), .inr hinside⟩

/-- The table's primary column need not be the first one of the file: by ranges the index of `a` is
searched for `b`. -/
theorem loadPrimaryIndex_other_column :
    loadPrimaryIndex (demoFooter .two none) demoCodec .localFiles speculativeTailBytes
        (demoBytes .two none) = .ok demoLoaded ∧
      (loadAnyIndexForColumn (demoFooter .two none) demoCodec (demoBytes .two none) "b").map
        (·.bytes) = .ok [2, 3] ∧
      loadAnyIndexForColumn (demoFooter .two none) demoCodec (demoBytes .two none) "b" ≠
        .ok demoLoaded := by
  decide +kernel

end AiLake.IndexLoader
