import AiLake.FileLayout
import AiLake.Listing

/-! What the reader finds in a file that the writer laid out. -/
namespace AiLake

open Binary List

theorem parseU64_toString {n : Nat} (h : n < 2 ^ 64) : parseU64 (toString n) = some n := by
  have hlist : (toString n).toList = Nat.toDigits 10 n := by
    rw [Nat.toString_eq_ofList_toDigits,String.toList_ofList]
  have hplus : ∀ cs, Nat.toDigits 10 n ≠ '+' :: cs := by
    intro cs hcs
    have hmem : '+' ∈ Nat.toDigits 10 n := hcs ▸ mem_cons_self
    exact absurd (Nat.isDigit_of_mem_toDigits (by decide) (by decide) hmem) (by decide)
  unfold parseU64
  rw [hlist]
  split
  · rename_i cs hcs
    exact absurd hcs (hplus cs)
  · rw [parseDigits_toDigits,Option.filter_some,if_pos (decide_eq_true h)]

theorem checkedAdd_of_lt {a b : Nat} (h : a + b < 2 ^ 64) : checkedAdd a b = .ok (a + b) := by
  rw [checkedAdd,if_pos h]

theorem toNat_ofNat_of_lt {n : Nat} (h : n < 2 ^ 64) : (UInt64.ofNat n).toNat = n :=
  UInt64.toNat_ofNat_of_lt' h

section Sections

variable {recordCount : UInt64} {columns : List SectionColumn} {sections : List Bytes}

def sectionBytes (c : SectionColumn) (recordCount : UInt64) (offset : Nat) (index : Bytes)
    (kind : IndexKind) : Bytes :=
  (sectionHeader c recordCount index kind).toBytes ++
    (encodeCentroid c.centroid ++ (index ++ (sectionTrailer c offset index kind).toBytes))

theorem length_sectionBytes (c : SectionColumn) (recordCount : UInt64) (offset : Nat) (index : Bytes)
    (kind : IndexKind) : (sectionBytes c recordCount offset index kind).length =
      headerSize + (encodeCentroid c.centroid).length + index.length + trailerSize := by
  simp only [sectionBytes,length_append,AilakeHeader.length_toBytes,
    AilakeTrailer.length_toBytes]
  omega

theorem buildSections_cons {start : Nat} {c : SectionColumn}
    (h : buildSections recordCount start (c :: columns) = .ok sections) :
    ∃ index kind rest, c.index = .ok (index, kind) ∧
      buildSections recordCount (start + (sectionBytes c recordCount start index kind).length)
        columns = .ok rest ∧ sections = sectionBytes c recordCount start index kind :: rest := by
  rw [buildSections,buildAilkSection] at h
  rcases hindex : c.index with e | ⟨index,kind⟩
  · simp [hindex] at h
  · simp only [hindex] at h
    split at h
    · cases h
    · rename_i rest hrest
      cases h
      exact ⟨index,kind,rest,rfl,hrest,rfl⟩

theorem length_buildSections {start : Nat}
    (h : buildSections recordCount start columns = .ok sections) :
    sections.length = columns.length := by
  induction columns generalizing start sections with
  | nil =>
    cases h
    rfl
  | cons c columns ih =>
    obtain ⟨index,kind,rest,-,hrest,rfl⟩ := buildSections_cons h
    rw [length_cons,length_cons,ih hrest]

theorem sectionOffset_cons (start : Nat) (first : Bytes) (rest : List Bytes) (i : Nat) :
    sectionOffset start (first :: rest) (i + 1) = sectionOffset (start + first.length) rest i := by
  simp only [sectionOffset,take_succ_cons,flatten_cons,length_append]
  omega

theorem section_of_column {start : Nat}
    (h : buildSections recordCount start columns = .ok sections) {i : Nat} {c : SectionColumn}
    (hc : columns[i]? = some c) : ∃ index kind, c.index = .ok (index, kind) ∧
      sections[i]? = some
        (sectionBytes c recordCount (sectionOffset start sections i) index kind) := by
  induction columns generalizing start sections i with
  | nil => cases hc
  | cons first columns ih =>
    obtain ⟨index,kind,rest,hindex,hrest,rfl⟩ := buildSections_cons h
    cases i with
    | zero =>
      cases hc
      exact ⟨index, kind, hindex, by simp [sectionOffset]⟩
    | succ i =>
      obtain ⟨index',kind',hindex',hbytes⟩ := ih hrest hc
      exact ⟨index', kind', hindex', by rw [sectionOffset_cons]; exact hbytes⟩

theorem flatten_eq_of_getElem? {i : Nat} {bytes : Bytes} (h : sections[i]? = some bytes) :
    sections.flatten = (sections.take i).flatten ++ (bytes ++ (sections.drop (i + 1)).flatten) := by
  induction sections generalizing i with
  | nil => cases h
  | cons first rest ih =>
    cases i with
    | zero =>
      cases h
      simp
    | succ i =>
      rw [flatten_cons,ih h]
      simp

theorem sectionOffset_lt (start : Nat) (hne : ∀ bytes ∈ sections, bytes ≠ []) {i j : Nat}
    (hij : i < j) (hi : i < sections.length) :
    sectionOffset start sections i < sectionOffset start sections j := by
  have hmono : (sections.take (i + 1)).flatten.length ≤ (sections.take j).flatten.length :=
    ((take_sublist_take_left (by omega)).flatten).length_le
  have hstep : (sections.take (i + 1)).flatten.length =
      (sections.take i).flatten.length + sections[i].length := by
    rw [take_add_one,getElem?_eq_getElem hi,Option.toList_some,flatten_append,
      length_append,flatten_singleton]
  have hpos := length_pos_iff.2 (hne _ (getElem_mem hi))
  simp only [sectionOffset]
  omega

theorem ne_nil_of_mem_buildSections {start : Nat}
    (h : buildSections recordCount start columns = .ok sections) :
    ∀ bytes ∈ sections, bytes ≠ [] := by
  intro bytes hmem
  obtain ⟨i,hi,rfl⟩ := getElem_of_mem hmem
  have hlen := length_buildSections h
  obtain ⟨index,kind,-,hbytes⟩ := section_of_column h
    (getElem?_eq_getElem (show i < columns.length by omega))
  rw [getElem?_eq_getElem hi,Option.some.injEq] at hbytes
  rw [hbytes,← length_pos_iff,length_sectionBytes]
  simp only [headerSize]
  omega

theorem sectionOffset_inj {start : Nat}
    (h : buildSections recordCount start columns = .ok sections) {i j : Nat}
    (hi : i < columns.length) (hj : j < columns.length)
    (he : sectionOffset start sections i = sectionOffset start sections j) : i = j := by
  have hlen := length_buildSections h
  have hne := ne_nil_of_mem_buildSections h
  rcases Nat.lt_trichotomy i j with hlt | heq | hgt
  · have := sectionOffset_lt start hne hlt (by omega)
    omega
  · exact heq
  · have := sectionOffset_lt start hne hgt (by omega)
    omega

end Sections

section ReadSection

variable {file before after : Bytes} {c : SectionColumn} {recordCount : UInt64} {index : Bytes}
  {kind : IndexKind} {offset : Nat}

structure ReadsSection (file : Bytes) (offset : Nat) (c : SectionColumn) (recordCount : UInt64)
    (index : Bytes) (kind : IndexKind) : Prop where
  header : readHeaderAtOffset file offset = .ok (sectionHeader c recordCount index kind)
  centroid : centroidBytes file offset (sectionHeader c recordCount index kind) =
    .ok (encodeCentroid c.centroid)
  index : indexBytes file offset (sectionHeader c recordCount index kind) = .ok index

theorem sectionPart_of_eq {a b rest : Bytes} {ailkStart : Nat} {off len : Nat}
    (hfile : file = a ++ (b ++ rest)) (hlen : file.length < 2 ^ 64)
    (hoff : ailkStart + off = a.length) (hb : len = b.length) :
    sectionPart file ailkStart (UInt64.ofNat off) (UInt64.ofNat len) = .ok b := by
  have htotal : file.length = a.length + (b.length + rest.length) := by
    rw [hfile,length_append,length_append]
  rw [sectionPart,toNat_ofNat_of_lt (by omega),toNat_ofNat_of_lt (by omega),
    checkedAdd_of_lt (by omega)]
  dsimp only
  rw [checkedAdd_of_lt (by omega)]
  dsimp only
  rw [if_neg (by omega),slice_of_eq hfile hoff (by omega)]

theorem readsSection_of_eq (hlen : file.length < 2 ^ 64)
    (hfile : file = before ++ (sectionBytes c recordCount offset index kind ++ after)) :
    ReadsSection file before.length c recordCount index kind := by
  have htotal : file.length = before.length + (headerSize + (encodeCentroid c.centroid).length +
      index.length + trailerSize + after.length) := by
    rw [hfile,length_append,length_append,length_sectionBytes]
  refine ⟨?_,?_,?_⟩
  · rw [readHeaderAtOffset,checkedAdd_of_lt (by omega)]
    dsimp only
    rw [if_neg (by omega)]
    have hparts : file = before ++ ((sectionHeader c recordCount index kind).toBytes ++
        ((encodeCentroid c.centroid ++ (index ++ (sectionTrailer c offset index kind).toBytes)) ++
          after)) := by rw [hfile,sectionBytes,append_assoc]
    rw [slice_of_eq hparts rfl (by rw [AilakeHeader.length_toBytes])]
    exact AilakeHeader.fromBytes_toBytes rfl
  · have hparts : file = (before ++ (sectionHeader c recordCount index kind).toBytes) ++
        (encodeCentroid c.centroid ++
          (index ++ (sectionTrailer c offset index kind).toBytes ++ after)) := by
      rw [hfile,sectionBytes]
      simp only [append_assoc]
    exact sectionPart_of_eq hparts hlen (by simp) rfl
  · have hparts : file = (before ++ ((sectionHeader c recordCount index kind).toBytes ++
        encodeCentroid c.centroid)) ++
          (index ++ ((sectionTrailer c offset index kind).toBytes ++ after)) := by
      rw [hfile,sectionBytes]
      simp only [append_assoc]
    exact sectionPart_of_eq hparts hlen (by simp) rfl

theorem ailkOffsetFromTrailer_of_eq {thrift : Bytes} (ht : thrift.length < 2 ^ 32)
    (hoffset : offset < 2 ^ 64)
    (hfile : file = before ++ (sectionBytes c recordCount offset index kind ++ parquetTail thrift)) :
    ailkOffsetFromTrailer file = .ok offset := by
  let body := before ++ ((sectionHeader c recordCount index kind).toBytes ++
    (encodeCentroid c.centroid ++ index))
  have hbody : file = (body ++ (sectionTrailer c offset index kind).toBytes) ++
      parquetTail thrift := by
    rw [hfile,sectionBytes]
    simp only [body,append_assoc]
  have hstart : parquetFooterStart file = .ok (body.length + trailerSize) := by
    rw [hbody,parquetFooterStart_append _ ht,length_append,AilakeTrailer.length_toBytes]
  have hslice : slice file (body.length + trailerSize - trailerSize) (body.length + trailerSize) =
      (sectionTrailer c offset index kind).toBytes := by
    have hparts : file = body ++ ((sectionTrailer c offset index kind).toBytes ++
        parquetTail thrift) := by rw [hbody,append_assoc]
    exact slice_of_eq hparts (by omega) (by rw [AilakeTrailer.length_toBytes])
  rw [ailkOffsetFromTrailer,hstart]
  dsimp only
  rw [if_neg (by omega),hslice,AilakeTrailer.fromBytes_toBytes]
  dsimp only [sectionTrailer]
  rw [toNat_ofNat_of_lt hoffset]

end ReadSection
/-! The keys of the footer. -/

section Keys

/-- The text after the prefix that every key of the format has. -/
def ailakeKey (rest : String) : String := "ailake." ++ rest

theorem ailakeKey_inj {a b : String} : ailakeKey a = ailakeKey b ↔ a = b := by
  constructor
  · intro h
    have hlist := congrArg String.toList h
    rw [ailakeKey,ailakeKey,String.toList_append,String.toList_append] at hlist
    exact String.toList_inj.1 (append_cancel_left hlist)
  · exact fun h => h ▸ rfl

theorem columnOffsetKey_eq (column : String) :
    columnOffsetKey column = ailakeKey (column ++ ".footer_offset") := by
  rw [columnOffsetKey,ailakeKey,String.append_assoc]

theorem columnOffsetKey_inj {a b : String} : columnOffsetKey a = columnOffsetKey b ↔ a = b := by
  rw [columnOffsetKey_eq,columnOffsetKey_eq,ailakeKey_inj]
  constructor
  · intro h
    have hlist := congrArg String.toList h
    rw [String.toList_append,String.toList_append] at hlist
    exact String.toList_inj.1 (append_cancel_right hlist)
  · exact fun h => h ▸ rfl

theorem suffix_columnOffsetKey (column : String) :
    ".footer_offset".toList <:+ (columnOffsetKey column).toList := by
  rw [columnOffsetKey,String.toList_append]
  exact suffix_append _ _

theorem ne_columnOffsetKey {key : String} (column : String)
    (h : ¬".footer_offset".toList <:+ key.toList) : key ≠ columnOffsetKey column := by
  intro he
  exact h (he ▸ suffix_columnOffsetKey column)

theorem footerOffsetKey_ne (column : String) : footerOffsetKey ≠ columnOffsetKey column := by
  intro h
  have hlen := congrArg String.length h
  simp only [columnOffsetKey,String.length_append] at hlen
  have hkey : footerOffsetKey.length = 20 := by decide
  have hprefix : "ailake.".length = 7 := by decide
  have hsuffix : ".footer_offset".length = 14 := by decide
  omega

theorem kvFtsOffset_ne (column : String) : kvFtsOffset ≠ columnOffsetKey column :=
  ne_columnOffsetKey column (by decide)

variable {kv kv' : Properties} {key : String}

theorem get_append : Properties.get (kv ++ kv') key = (kv.get key).or (kv'.get key) := by
  unfold Properties.get
  rw [find?_append]
  cases kv.find? fun p => p.1 = key <;> rfl

theorem get_eq_none (h : ∀ p ∈ kv, p.1 ≠ key) : kv.get key = none := by
  unfold Properties.get
  rw [find?_eq_none.2 (by simpa using h),Option.map_none]

theorem get_of_nodup (hn : (kv.map Prod.fst).Nodup) {value : String} (hmem : (key, value) ∈ kv) :
    kv.get key = some value := by
  unfold Properties.get
  rw [find?_eq_of_nodup hn hmem]
  rfl

def ownKeys : List String :=
  ["ailake.format_version", "ailake.precision", "ailake.metric", "ailake.record_count",
    "ailake.vector_column", "ailake.dim", "ailake.pq_only"]

theorem fst_mem_ownKeys {batch : RecordBatch} {c : SectionColumn} {p : String × String}
    (h : p ∈ ownKeyValues batch c) : p.1 ∈ ownKeys := by
  have hsub : (ownKeyValues batch c).map Prod.fst ⊆ ownKeys := by
    unfold ownKeyValues ownKeys
    cases c.policy.keepRaw <;> simp
  exact hsub (mem_map_of_mem h)

theorem get_ownKeyValues {batch : RecordBatch} {c : SectionColumn}
    (hkey : ∀ own ∈ ownKeys, own ≠ key) : Properties.get (ownKeyValues batch c) key = none :=
  get_eq_none fun p hp => hkey p.1 (fst_mem_ownKeys hp)

theorem ownKeys_ne_footerOffsetKey : ∀ own ∈ ownKeys, own ≠ footerOffsetKey := by decide

theorem ownKeys_ne_kvFtsOffset : ∀ own ∈ ownKeys, own ≠ kvFtsOffset := by decide

theorem ownKeys_ne_columnOffsetKey (column : String) :
    ∀ own ∈ ownKeys, own ≠ columnOffsetKey column := by
  have hsuffix : ∀ own ∈ ownKeys, ¬".footer_offset".toList <:+ own.toList := by decide
  exact fun own hown => ne_columnOffsetKey column (hsuffix own hown)

variable {start : Nat} {columns : List SectionColumn} {sections : List Bytes}

theorem fst_offsetKeyValues (primary : SectionColumn) (rest : List SectionColumn) :
    (offsetKeyValues start (primary :: rest) sections).map Prod.fst =
      footerOffsetKey :: (rest.map (·.policy.columnName)).map columnOffsetKey := by
  rw [offsetKeyValues,map_map,zipIdx_cons,map_cons]
  congr 1
  have hkey : ∀ p ∈ rest.zipIdx (0 + 1), (Prod.fst ∘ fun p : SectionColumn × Nat => (offsetKey p.2 p.1,
      toString (sectionOffset start sections p.2))) p =
        (fun c : SectionColumn => columnOffsetKey c.policy.columnName) p.1 := by
    intro p hp
    have hpos := (mem_zipIdx hp).1
    simp only [Function.comp_apply,offsetKey]
    rw [if_neg (by omega)]
  rw [map_congr_left hkey,map_map]
  conv_rhs => rw [← zipIdx_map_fst (0 + 1) rest]
  rw [map_map]
  rfl

theorem nodup_offsetKeys (hn : (columns.map (·.policy.columnName)).Nodup) :
    ((offsetKeyValues start columns sections).map Prod.fst).Nodup := by
  cases columns with
  | nil => exact .nil
  | cons primary rest =>
    have hrest : (rest.map (·.policy.columnName)).Nodup := by
      rw [map_cons,nodup_cons] at hn
      exact hn.2
    rw [fst_offsetKeyValues,nodup_cons]
    refine ⟨fun hmem => ?_, hrest.map fun a b h => columnOffsetKey_inj.1 h⟩
    obtain ⟨column,-,hcolumn⟩ := mem_map.1 hmem
    exact footerOffsetKey_ne column hcolumn.symm

theorem get_offsetKey (hn : (columns.map (·.policy.columnName)).Nodup) {i : Nat} {c : SectionColumn}
    (hc : columns[i]? = some c) : Properties.get (offsetKeyValues start columns sections)
      (offsetKey i c) = some (toString (sectionOffset start sections i)) := by
  refine get_of_nodup (nodup_offsetKeys hn) (mem_map.2 ⟨(c, i), ?_, rfl⟩)
  exact mem_zipIdx_iff_getElem?.2 hc

theorem get_footerOffsetKey (primary : SectionColumn) (rest : List SectionColumn) :
    Properties.get (offsetKeyValues start (primary :: rest) sections) footerOffsetKey =
      some (toString (sectionOffset start sections 0)) := by
  simp [Properties.get,offsetKeyValues,offsetKey]

theorem get_columnOffsetKey_primary {primary : SectionColumn} {rest : List SectionColumn}
    (h : primary.policy.columnName ∉ rest.map (·.policy.columnName)) :
    Properties.get (offsetKeyValues start (primary :: rest) sections)
      (columnOffsetKey primary.policy.columnName) = none := by
  refine get_eq_none fun p hp he => ?_
  have hmem := mem_map_of_mem (f := Prod.fst) hp
  rw [fst_offsetKeyValues,he,mem_cons] at hmem
  rcases hmem with hplain | hother
  · exact footerOffsetKey_ne _ hplain.symm
  · obtain ⟨column,hcolumn,heq⟩ := mem_map.1 hother
    exact h (columnOffsetKey_inj.1 heq ▸ hcolumn)

theorem get_offsetKeyValues_fts :
    Properties.get (offsetKeyValues start columns sections) kvFtsOffset = none := by
  refine get_eq_none fun p hp he => ?_
  obtain ⟨q,-,rfl⟩ := mem_map.1 hp
  simp only [offsetKey] at he
  split at he
  · exact absurd he (by decide)
  · exact kvFtsOffset_ne _ he.symm

end Keys
section File

variable {pq : ParquetEngine} {batch : RecordBatch} {passes : FilePasses}
  {columns : List SectionColumn} {fts : Option Bytes} {file : Bytes}

def laidOut (pq : ParquetEngine) (batch : RecordBatch) (columns : List SectionColumn) :
    Nat × List Bytes :=
  match columns with
  | [] => (0, [])
  | primary :: _ =>
    match firstPass pq batch primary columns with
    | .error _ => (0, [])
    | .ok (_, footerStart, sections) => (footerStart, sections)

def writtenAt (pq : ParquetEngine) (batch : RecordBatch) (columns : List SectionColumn) (i : Nat) :
    Nat := sectionOffset (laidOut pq batch columns).1 (laidOut pq batch columns).2 i

def footerKeyValues (pq : ParquetEngine) (batch : RecordBatch) (passes : FilePasses)
    (columns : List SectionColumn) (fts : Option Bytes) : Properties :=
  match columns with
  | [] => []
  | primary :: _ =>
    ownKeyValues batch primary ++
      match passes with
      | .single => []
      | .two => offsetKeyValues (laidOut pq batch columns).1 columns (laidOut pq batch columns).2 ++
          ftsKeyValues (laidOut pq batch columns).1 (laidOut pq batch columns).2 fts

/-- The pairs are found again in the footer of the file. -/
def KeepsKeyValues (pq : ParquetEngine) (file : Bytes) (kv : Properties) : Prop :=
  ∀ rest, pq.keyValue file (ailakeKey rest) = .ok (kv.get (ailakeKey rest))

def passedFts (passes : FilePasses) (fts : Option Bytes) : Option Bytes :=
  match passes with
  | .two => fts
  | .single => none

structure LaidOut (pq : ParquetEngine) (batch : RecordBatch) (passes : FilePasses)
    (columns : List SectionColumn) (fts : Option Bytes) (file groups thrift : Bytes) : Prop where
  start : (laidOut pq batch columns).1 = groups.length
  sections : buildSections (UInt64.ofNat batch.numRows) groups.length columns =
    .ok (laidOut pq batch columns).2
  thrift_lt : thrift.length < 2 ^ 32
  bytes : file = groups ++ ((laidOut pq batch columns).2.flatten ++
    (ftsBytes (passedFts passes fts) ++ parquetTail thrift))

theorem writeBatchWithKv_ok {c : SectionColumn} {extra : List (String × String)} {bytes : Bytes}
    {recordCount : UInt64} (h : writeBatchWithKv pq batch c extra = .ok (bytes, recordCount)) :
    ∃ groups, pq.rowGroups batch c = .ok groups ∧ recordCount = UInt64.ofNat batch.numRows ∧
      bytes = groups ++ parquetTail (pq.thrift batch c (ownKeyValues batch c ++ extra)) := by
  unfold writeBatchWithKv at h
  split at h
  · cases h
  · split at h
    · cases h
    · rename_i groups hgroups
      cases h
      exact ⟨groups,hgroups,rfl,rfl⟩

theorem firstPass_ok {primary : SectionColumn} {v1 : Bytes} {footerStart : Nat}
    {sections : List Bytes} (h : firstPass pq batch primary columns = .ok (v1, footerStart, sections)) :
    ∃ groups, pq.rowGroups batch primary = .ok groups ∧ footerStart = groups.length ∧
      v1 = groups ++ parquetTail (pq.thrift batch primary (ownKeyValues batch primary ++ [])) ∧
      buildSections (UInt64.ofNat batch.numRows) groups.length columns = .ok sections := by
  unfold firstPass at h
  split at h
  · cases h
  · rename_i bytes recordCount hv1
    obtain ⟨groups,hgroups,rfl,rfl⟩ := writeBatchWithKv_ok hv1
    rw [parquetFooterStart_append _ (pq.thrift_lt ..)] at h
    dsimp only at h
    split at h
    · cases h
    · rename_i sections' hsections
      cases h
      exact ⟨groups,hgroups,rfl,rfl,hsections⟩

theorem laidOut_of_writeFile (h : writeFile pq batch passes columns fts = .ok file) :
    columns ≠ [] ∧ ∃ groups thrift, LaidOut pq batch passes columns fts file groups thrift := by
  cases columns with
  | nil => cases passes <;> cases h
  | cons primary rest =>
    refine ⟨by simp, ?_⟩
    rcases hfirst : firstPass pq batch primary (primary :: rest) with e | ⟨v1,footerStart,sections⟩
    · cases passes <;> simp [writeFile,writeMultiFile,writeMultiSinglePass,hfirst] at h
    · have hlaid : laidOut pq batch (primary :: rest) = (footerStart, sections) := by
        simp [laidOut,hfirst]
      obtain ⟨groups,hgroups,rfl,rfl,hsections⟩ := firstPass_ok hfirst
      cases passes with
      | single =>
        simp only [writeFile,writeMultiSinglePass,hfirst,take_left,drop_left] at h
        cases h
        exact ⟨groups, _, by rw [hlaid], by rw [hlaid]; exact hsections, pq.thrift_lt .., by
          rw [hlaid]
          rfl⟩
      | two =>
        simp only [writeFile,writeMultiFile,hfirst] at h
        split at h
        · cases h
        · rename_i v2 recordCount hv2
          obtain ⟨groups',hgroups',-,rfl⟩ := writeBatchWithKv_ok hv2
          rw [hgroups,Except.ok.injEq] at hgroups'
          subst hgroups'
          rw [parquetFooterStart_append _ (pq.thrift_lt ..)] at h
          simp only [take_left,drop_left] at h
          cases h
          exact ⟨groups, _, by rw [hlaid], by rw [hlaid]; exact hsections, pq.thrift_lt .., by
            rw [hlaid]
            rfl⟩

variable {groups thrift : Bytes} (h : LaidOut pq batch passes columns fts file groups thrift)
  (hlen : file.length < 2 ^ 64)

include h hlen

theorem LaidOut.reads {i : Nat} {c : SectionColumn} (hc : columns[i]? = some c) :
    ∃ index kind, c.index = .ok (index, kind) ∧ ReadsSection file (writtenAt pq batch columns i) c
      (UInt64.ofNat batch.numRows) index kind := by
  obtain ⟨index,kind,hindex,hbytes⟩ := section_of_column h.sections hc
  refine ⟨index,kind,hindex,?_⟩
  have hfile : file = (groups ++ ((laidOut pq batch columns).2.take i).flatten) ++
      (sectionBytes c (UInt64.ofNat batch.numRows) (sectionOffset groups.length
        (laidOut pq batch columns).2 i) index kind ++ (((laidOut pq batch columns).2.drop
          (i + 1)).flatten ++ (ftsBytes (passedFts passes fts) ++ parquetTail thrift))) := by
    rw [h.bytes,flatten_eq_of_getElem? hbytes]
    simp only [append_assoc]
  have hread := readsSection_of_eq hlen hfile
  have hat : writtenAt pq batch columns i =
      (groups ++ ((laidOut pq batch columns).2.take i).flatten).length := by
    rw [writtenAt,sectionOffset,h.start,length_append]
  rw [hat]
  exact hread

theorem LaidOut.writtenAt_lt {i : Nat} : writtenAt pq batch columns i < 2 ^ 64 := by
  have hflat : ((laidOut pq batch columns).2.take i).flatten.length ≤
      (laidOut pq batch columns).2.flatten.length := ((take_sublist _ _).flatten).length_le
  have htotal := congrArg List.length h.bytes
  simp only [length_append] at htotal
  rw [writtenAt,sectionOffset,h.start]
  omega

theorem LaidOut.offsetUnder {key : String} {i : Nat} {fallback : Except AilakeError Nat}
    (hkey : pq.keyValue file key = .ok (some (toString (writtenAt pq batch columns i)))) :
    offsetUnder pq file key fallback = .ok (writtenAt pq batch columns i) := by
  simp only [AiLake.offsetUnder,hkey,parseU64_toString (h.writtenAt_lt hlen)]

theorem LaidOut.ailkOffsetFromTrailer (hne : columns ≠ []) (hfts : passedFts passes fts = none) :
    ailkOffsetFromTrailer file = .ok (writtenAt pq batch columns (columns.length - 1)) := by
  have hpos := length_pos_iff.2 hne
  have hlast : columns[columns.length - 1]? = some (columns.getLast hne) := by
    rw [getLast_eq_getElem,getElem?_eq_getElem]
  obtain ⟨index,kind,-,hbytes⟩ := section_of_column h.sections hlast
  have hsections := length_buildSections h.sections
  have hdrop : (laidOut pq batch columns).2.drop (columns.length - 1 + 1) = [] := by
    rw [drop_eq_nil_iff]
    omega
  have hfile : file = (groups ++ ((laidOut pq batch columns).2.take (columns.length - 1)).flatten) ++
      (sectionBytes (columns.getLast hne) (UInt64.ofNat batch.numRows)
        (writtenAt pq batch columns (columns.length - 1)) index kind ++ parquetTail thrift) := by
    rw [h.bytes,flatten_eq_of_getElem? hbytes,hdrop,hfts,writtenAt,h.start]
    simp [ftsBytes]
  exact ailkOffsetFromTrailer_of_eq h.thrift_lt (h.writtenAt_lt hlen) hfile

omit h in
theorem loadFtsBlob_of_eq {before blob after : Bytes}
    (hfile : file = before ++ (ftsSection blob ++ after))
    (hkey : pq.keyValue file kvFtsOffset = .ok (some (toString before.length))) :
    loadFtsBlob pq file = .ok (some blob) := by
  have hblob : (ftsSection blob).length = ailkFtsHeaderSize + blob.length := by
    simp [ftsSection,ailkFtsMagic,ailkFtsHeaderSize]
    omega
  have htotal : file.length = before.length + (ailkFtsHeaderSize + blob.length + after.length) := by
    rw [hfile,length_append,length_append,hblob]
  have hmod : blob.length % 2 ^ 64 = blob.length := Nat.mod_eq_of_lt (by omega)
  let hdr : Bytes := ailkFtsMagic ++ le 2 1 ++ le 2 0 ++ le 8 (blob.length % 2 ^ 64)
  have hparts : file = before ++ (hdr ++ (blob ++ after)) := by
    rw [hfile,ftsSection]
    simp only [hdr,append_assoc]
  have hparts' : file = (before ++ hdr) ++ (blob ++ after) :=
    hparts.trans (append_assoc before hdr (blob ++ after)).symm
  have hhdr : hdr.length = ailkFtsHeaderSize := rfl
  have hslice : slice file before.length (before.length + ailkFtsHeaderSize) = hdr :=
    slice_of_eq hparts rfl (by rw [hhdr])
  have hmagic : slice hdr 0 4 = ailkFtsMagic := rfl
  have hread : ofLe (slice hdr 8 16) = blob.length := by
    have hcut : slice hdr 8 16 = le 8 (blob.length % 2 ^ 64) := rfl
    rw [hcut,hmod,ofLe_le_of_lt (by omega)]
  have hcut : slice file (before.length + ailkFtsHeaderSize)
      (before.length + ailkFtsHeaderSize + blob.length) = blob :=
    slice_of_eq hparts' (by rw [length_append,hhdr]) (by rw [length_append,hhdr])
  simp only [loadFtsBlob,hkey,parseU64_toString (show before.length < 2 ^ 64 by omega),hslice,
    hmagic,hread,hcut,ne_eq,not_true_eq_false,if_false]
  rw [if_neg (by omega),if_neg (by omega)]

end File

/-! The round trip. -/

/-- Each column's section is found by name, the first one's also as the primary one, and read back
as it was written; so is the text blob. -/
structure RoundTrips (pq : ParquetEngine) (batch : RecordBatch) (columns : List SectionColumn)
    (fts : Option Bytes) (file : Bytes) : Prop where
  column : ∀ (i : Nat) (c : SectionColumn), columns[i]? = some c →
    ailkOffsetForColumn pq file c.policy.columnName = .ok (writtenAt pq batch columns i) ∧
    ∃ index kind, c.index = .ok (index, kind) ∧ ReadsSection file (writtenAt pq batch columns i) c
      (UInt64.ofNat batch.numRows) index kind
  primary : ailkOffset pq file = .ok (writtenAt pq batch columns 0)
  fts : loadFtsBlob pq file = .ok fts

/-- The names of the columns are distinct; a file written in one pass has one column and no text. -/
def Addressable (passes : FilePasses) (columns : List SectionColumn) (fts : Option Bytes) : Prop :=
  match passes with
  | .two => (columns.map (·.policy.columnName)).Nodup
  | .single => columns.length = 1 ∧ fts = none

section RoundTrip

variable {pq : ParquetEngine} {batch : RecordBatch} {passes : FilePasses}
  {columns : List SectionColumn} {fts : Option Bytes} {file groups thrift : Bytes}

theorem KeepsKeyValues.column {kv : Properties} (h : KeepsKeyValues pq file kv) (column : String) :
    pq.keyValue file (columnOffsetKey column) = .ok (kv.get (columnOffsetKey column)) := by
  rw [columnOffsetKey_eq]
  exact h _

theorem KeepsKeyValues.plain {kv : Properties} (h : KeepsKeyValues pq file kv) :
    pq.keyValue file footerOffsetKey = .ok (kv.get footerOffsetKey) := h "footer_offset"

theorem KeepsKeyValues.text {kv : Properties} (h : KeepsKeyValues pq file kv) :
    pq.keyValue file kvFtsOffset = .ok (kv.get kvFtsOffset) := h "fts_offset"

theorem nodup_names_of_roundTrips (h : LaidOut pq batch passes columns fts file groups thrift)
    (hr : RoundTrips pq batch columns fts file) : (columns.map (·.policy.columnName)).Nodup := by
  rw [nodup_iff_injective_getElem]
  intro i j hij
  have hi : i.1 < columns.length := by simpa using i.2
  have hj : j.1 < columns.length := by simpa using j.2
  have hoff : writtenAt pq batch columns i.1 = writtenAt pq batch columns j.1 := by
    have h₁ := (hr.column i.1 _ (getElem?_eq_getElem hi)).1
    have h₂ := (hr.column j.1 _ (getElem?_eq_getElem hj)).1
    have hname : columns[i.1].policy.columnName = columns[j.1].policy.columnName := by
      simpa using hij
    rw [hname,h₂] at h₁
    exact (Except.ok.inj h₁).symm
  rw [writtenAt,writtenAt,h.start] at hoff
  exact Fin.ext (sectionOffset_inj h.sections hi hj hoff)

theorem LaidOut.roundTrips_two (h : LaidOut pq batch .two columns fts file groups thrift)
    (hlen : file.length < 2 ^ 64) (hne : columns ≠ [])
    (hkv : KeepsKeyValues pq file (footerKeyValues pq batch .two columns fts))
    (hn : (columns.map (·.policy.columnName)).Nodup) : RoundTrips pq batch columns fts file := by
  obtain ⟨primary,rest,rfl⟩ := exists_cons_of_ne_nil hne
  have hplain : ailkOffset pq file = .ok (writtenAt pq batch (primary :: rest) 0) := by
    refine h.offsetUnder hlen ?_
    rw [hkv.plain,footerKeyValues,get_append,get_ownKeyValues ownKeys_ne_footerOffsetKey,
      Option.none_or,get_append,get_footerOffsetKey]
    rfl
  refine ⟨fun i c hc => ⟨?_, h.reads hlen hc⟩, hplain, ?_⟩
  · cases i with
    | zero =>
      cases hc
      rw [map_cons,nodup_cons] at hn
      have hnone : pq.keyValue file (columnOffsetKey primary.policy.columnName) = .ok none := by
        rw [hkv.column,footerKeyValues,get_append,
          get_ownKeyValues (ownKeys_ne_columnOffsetKey _),Option.none_or,get_append,
          get_columnOffsetKey_primary hn.1,Option.none_or]
        congr 1
        refine get_eq_none fun p hp he => ?_
        cases fts with
        | none => cases hp
        | some blob =>
          cases mem_singleton.1 hp
          exact kvFtsOffset_ne _ he
      simp only [ailkOffsetForColumn,AiLake.offsetUnder,hnone]
      exact hplain
    | succ i =>
      refine h.offsetUnder hlen ?_
      have hkey : columnOffsetKey c.policy.columnName = offsetKey (i + 1) c := rfl
      rw [hkv.column,footerKeyValues,get_append,get_ownKeyValues (ownKeys_ne_columnOffsetKey _),
        Option.none_or,get_append,hkey,get_offsetKey hn hc]
      rfl
  · have hget : pq.keyValue file kvFtsOffset = .ok (Properties.get (ftsKeyValues
        (laidOut pq batch (primary :: rest)).1 (laidOut pq batch (primary :: rest)).2 fts)
          kvFtsOffset) := by
      rw [hkv.text,footerKeyValues,get_append,get_ownKeyValues ownKeys_ne_kvFtsOffset,
        Option.none_or,get_append,get_offsetKeyValues_fts,Option.none_or]
    cases fts with
    | none =>
      simp only [loadFtsBlob,hget]
      rfl
    | some blob =>
      have hfile : file = (groups ++ (laidOut pq batch (primary :: rest)).2.flatten) ++
          (ftsSection blob ++ parquetTail thrift) := by
        rw [h.bytes]
        simp [passedFts,ftsBytes]
      refine loadFtsBlob_of_eq hlen hfile ?_
      rw [hget,ftsKeyValues,h.start,length_append]
      simp [Properties.get]

theorem LaidOut.resolved_single (h : LaidOut pq batch .single columns fts file groups thrift)
    (hlen : file.length < 2 ^ 64) (hne : columns ≠ [])
    (hkv : KeepsKeyValues pq file (footerKeyValues pq batch .single columns fts)) :
    ailkOffset pq file = .ok (writtenAt pq batch columns (columns.length - 1)) ∧
      (∀ column, ailkOffsetForColumn pq file column =
        .ok (writtenAt pq batch columns (columns.length - 1))) ∧
      loadFtsBlob pq file = .ok none := by
  obtain ⟨primary,rest,rfl⟩ := exists_cons_of_ne_nil hne
  have hown : footerKeyValues pq batch .single (primary :: rest) fts =
      ownKeyValues batch primary := by simp [footerKeyValues]
  rw [hown] at hkv
  have hplain : ailkOffset pq file =
      .ok (writtenAt pq batch (primary :: rest) ((primary :: rest).length - 1)) := by
    simp only [ailkOffset,AiLake.offsetUnder,hkv.plain,
      get_ownKeyValues ownKeys_ne_footerOffsetKey]
    exact h.ailkOffsetFromTrailer hlen hne rfl
  refine ⟨hplain, fun column => ?_, ?_⟩
  · simp only [ailkOffsetForColumn,AiLake.offsetUnder,hkv.column,
      get_ownKeyValues (ownKeys_ne_columnOffsetKey column)]
    exact hplain
  · simp only [loadFtsBlob,hkv.text,get_ownKeyValues ownKeys_ne_kvFtsOffset]

theorem LaidOut.writtenAt_last (h : LaidOut pq batch passes columns fts file groups thrift)
    (hne : columns ≠ [])
    (he : writtenAt pq batch columns (columns.length - 1) = writtenAt pq batch columns 0) :
    columns.length = 1 := by
  have hpos := length_pos_iff.2 hne
  rw [writtenAt,writtenAt,h.start] at he
  have := sectionOffset_inj h.sections (by omega) hpos he
  omega

/-- A file is read back exactly when its sections can be addressed. The trailer next to the footer,
without a text section, is that of the first column only if there is no other. -/
theorem writeFile_roundTrips_iff (hfile : writeFile pq batch passes columns fts = .ok file)
    (hlen : file.length < 2 ^ 64)
    (hkv : KeepsKeyValues pq file (footerKeyValues pq batch passes columns fts)) :
    (RoundTrips pq batch columns fts file ↔ Addressable passes columns fts) ∧
      (passedFts passes fts = none → (ailkOffsetFromTrailer file =
        .ok (writtenAt pq batch columns 0) ↔ columns.length = 1)) := by
  obtain ⟨hne,groups,thrift,h⟩ := laidOut_of_writeFile hfile
  refine ⟨?_, fun hfts => ?_⟩
  · cases passes with
    | two =>
      exact ⟨nodup_names_of_roundTrips h, h.roundTrips_two hlen hne hkv⟩
    | single =>
      obtain ⟨hplain,hcolumn,hblob⟩ := h.resolved_single hlen hne hkv
      constructor
      · intro hr
        have hprimary := hr.primary
        rw [hplain,Except.ok.injEq] at hprimary
        have htext := hr.fts
        rw [hblob,Except.ok.injEq] at htext
        exact ⟨h.writtenAt_last hne hprimary, htext.symm⟩
      · rintro ⟨hone,rfl⟩
        rw [hone] at hplain hcolumn
        refine ⟨fun i c hc => ⟨?_, h.reads hlen hc⟩, hplain, hblob⟩
        have hi : i < columns.length := (List.getElem?_eq_some_iff.1 hc).1
        have hzero : i = 0 := by omega
        subst hzero
        exact hcolumn _
  · rw [h.ailkOffsetFromTrailer hlen hne hfts,Except.ok.injEq]
    constructor
    · exact h.writtenAt_last hne
    · intro hone
      rw [hone]

end RoundTrip
/-! Files with two columns, with a footer that keeps its pairs. -/

def demoParquet (kv : Properties) : ParquetEngine where
  rowGroups _ _ := .ok [0, 0]
  thrift _ _ _ := [0]
  thrift_lt _ _ _ := by decide
  keyValue _ key := .ok (kv.get key)

def demoSection (name : String) (index : Bytes) : SectionColumn where
  policy := ⟨⟨name, 1, .f32, true, none, none⟩, .cosine, none⟩
  embeddings := []
  centroid := ([0], 0)
  index := .ok (index, .hnsw)

def demoNoRows : RecordBatch := ⟨[], [], rfl⟩

def demoSections : List SectionColumn := [demoSection "a" [1], demoSection "b" [2, 3]]

/-- The engine whose footer keeps what the writer puts there. -/
def demoFooter (passes : FilePasses) (fts : Option Bytes) : ParquetEngine :=
  demoParquet (footerKeyValues (demoParquet []) demoNoRows passes demoSections fts)

def demoBytes (passes : FilePasses) (fts : Option Bytes) : Bytes :=
  ((writeFile (demoFooter passes fts) demoNoRows passes demoSections fts).toOption).getD []

theorem writeFile_roundTrips_two_columns :
    RoundTrips (demoFooter .two (some [5])) demoNoRows demoSections (some [5])
      (demoBytes .two (some [5])) := by
  have hfile : writeFile (demoFooter .two (some [5])) demoNoRows .two demoSections (some [5]) =
      .ok (demoBytes .two (some [5])) := by decide +kernel
  have hlen : (demoBytes .two (some [5])).length < 2 ^ 64 := by decide +kernel
  have hnames : (demoSections.map (·.policy.columnName)).Nodup := by decide
  exact (writeFile_roundTrips_iff hfile hlen fun _ => rfl).1.2 hnames

/-- In a file that was written in one pass, the offset of the first column leads to the second. -/
theorem singlePass_resolves_last_column :
    writeFile (demoFooter .single none) demoNoRows .single demoSections none =
        .ok (demoBytes .single none) ∧
      ailkOffsetForColumn (demoFooter .single none) (demoBytes .single none) "a" =
        .ok (writtenAt (demoFooter .single none) demoNoRows demoSections 1) ∧
      ailkOffset (demoFooter .single none) (demoBytes .single none) =
        .ok (writtenAt (demoFooter .single none) demoNoRows demoSections 1) ∧
      writtenAt (demoFooter .single none) demoNoRows demoSections 0 ≠
        writtenAt (demoFooter .single none) demoNoRows demoSections 1 := by
  decide +kernel

end AiLake
