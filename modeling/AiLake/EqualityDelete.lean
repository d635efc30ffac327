import Mathlib.Data.List.Nodup
import AiLake.Provider

/-! The equality-delete filter: what the predicate of each delete file is once its Avro rows are
read, and which rows of a batch it takes out. -/
namespace AiLake

open List

/-- How the standard library prints floats and decodes bytes that may not be UTF-8. -/
structure TextForms where
  float32 : F32 → String
  float64 : F64 → String
  utf8Lossy : List UInt8 → String

inductive AvroValue where
  | null
  | boolean (b : Bool)
  | int (n : Int)
  | long (n : Int)
  | float (x : F32)
  | double (x : F64)
  | bytes (b : List UInt8)
  | string (s : String)
  | union (branch : Nat) (v : AvroValue)
  | other (kind : String)
  deriving DecidableEq, Repr

/-- The payload of a delete file: Avro records over one record type, with at least one column. -/
structure EqualityDeleteAvro where
  columns : List String
  records : List (List (String × AvroValue))
  named : columns ≠ []
  aligned : ∀ r ∈ records, r.map Prod.fst = columns
  deriving DecidableEq

section Reading

variable (tx : TextForms) {c : String} {p : Field × Cell}

def AvroValue.text : AvroValue → Option String
  | .string s => some s
  | .int n | .long n => some (toString n)
  | .float x => some (tx.float32 x)
  | .double x => some (tx.float64 x)
  | .bytes b => some (tx.utf8Lossy b)
  | _ => none

def readEqualityDeleteValues (f : EqualityDeleteAvro) : List (String × String) :=
  f.records.flatMap fun r => r.filterMap fun p => (p.2.text tx).map fun s => (p.1, s)

/-- One delete file's predicate: a set of values for each column. -/
abbrev ColumnSets := List (String × List String)

def ColumnSets.insert : ColumnSets → String → String → ColumnSets
  | [], col, val => [(col, [val])]
  | (c, vals) :: rest, col, val =>
    if c = col then (c, vals.insert val) :: rest else (c, vals) :: insert rest col val

def ColumnSets.ofPairs (pairs : List (String × String)) : ColumnSets :=
  pairs.foldl (fun cols p => cols.insert p.1 p.2) []

/-- `EqualityDeleteFilter`: the sequence number of each delete file beside its predicate. -/
abbrev EqualityDeleteFilter := List (Int × ColumnSets)

def EqualityDeleteFilter.ofFiles (files : List (Int × EqualityDeleteAvro)) :
    EqualityDeleteFilter :=
  files.map fun f => (f.1, ColumnSets.ofPairs (readEqualityDeleteValues tx f.2))

/-- The column types whose values the matcher can put into text. -/
def DataType.handled : DataType → Bool
  | .utf8 | .largeUtf8 | .int32 | .int64 | .float32 | .float64 => true
  | _ => false

def Scalar.text : DataType → Scalar → Option String
  | .utf8, .str s | .largeUtf8, .str s => some s
  | .int32, .int n | .int64, .int n => some (toString n)
  | .float32, .float32 x => some (tx.float32 x)
  | .float64, .float64 x => some (tx.float64 x)
  | _, _ => none

/-- The field that `index_of` finds for a column name, with the row's cell in it. -/
def Row.column (schema : List Field) (r : Row) (name : String) : Option (Field × Cell) :=
  (schema.zip r.cells).find? fun p => p.1.name = name

/- The loop of `row_matches`; `found` is `any_column_found`. -/
def rowMatchesLoop (schema : List Field) (r : Row) : Bool → ColumnSets → Bool
  | found, [] => found
  | found, (col, vals) :: rest =>
    match r.column schema col with
    | none => rowMatchesLoop schema r found rest
    | some (_, none) => false
    | some (f, some v) =>
      match v.text tx f.dataType with
      | some s => if s ∈ vals then rowMatchesLoop schema r true rest else false
      | none => rowMatchesLoop schema r true rest

def rowMatches (cols : ColumnSets) (schema : List Field) (r : Row) : Bool :=
  rowMatchesLoop tx schema r false cols

namespace EqualityDeleteFilter

def deletes (filter : EqualityDeleteFilter) (schema : List Field) (r : Row)
    (dataFileSequenceNumber : Int) : Bool :=
  filter.any fun f => decide (dataFileSequenceNumber < f.1) && rowMatches tx f.2 schema r

def shouldDeleteRow (filter : EqualityDeleteFilter) (b : RecordBatch) (i : Nat)
    (dataFileSequenceNumber : Int) : Bool :=
  match b.rows[i]? with
  | some r => filter.deletes tx b.schema r dataFileSequenceNumber
  | none => false

def apply (filter : EqualityDeleteFilter) (b : RecordBatch) (dataFileSequenceNumber : Int) :
    RecordBatch :=
  if filter.isEmpty then b
  else b.filterRows fun i _ => !filter.shouldDeleteRow tx b i dataFileSequenceNumber

end EqualityDeleteFilter

/-! Grouping the pairs of a file by column keeps them. -/

variable {cols : ColumnSets}

theorem ColumnSets.mem_keys_insert {col val : String} :
    c ∈ (cols.insert col val).map Prod.fst ↔ c = col ∨ c ∈ cols.map Prod.fst := by
  induction cols with
  | nil => simp [ColumnSets.insert]
  | cons e rest ih =>
    obtain ⟨k,vs⟩ := e
    by_cases h : k = col
    · simp only [ColumnSets.insert,h,if_true,map_cons,mem_cons]
      tauto
    · simp only [ColumnSets.insert,h,if_false,map_cons,mem_cons,ih]
      tauto

theorem ColumnSets.nodup_keys_insert (h : (cols.map Prod.fst).Nodup) (col val : String) :
    ((cols.insert col val).map Prod.fst).Nodup := by
  induction cols with
  | nil => simp [ColumnSets.insert]
  | cons e rest ih =>
    obtain ⟨k,vs⟩ := e
    rw [map_cons,nodup_cons] at h
    by_cases hc : k = col
    · simpa [ColumnSets.insert,hc] using h
    · simp only [ColumnSets.insert,if_neg hc,map_cons,nodup_cons]
      refine ⟨fun hm => ?_, ih h.2⟩
      rcases ColumnSets.mem_keys_insert.1 hm with hk | hk
      · exact hc hk
      · exact h.1 hk

theorem ColumnSets.mem_insert (h : (cols.map Prod.fst).Nodup) {col val s : String} :
    (∃ vals, (c, vals) ∈ cols.insert col val ∧ s ∈ vals) ↔
      (c = col ∧ s = val) ∨ ∃ vals, (c, vals) ∈ cols ∧ s ∈ vals := by
  induction cols with
  | nil => simp [ColumnSets.insert,and_assoc]
  | cons e rest ih =>
    obtain ⟨k,vs⟩ := e
    rw [map_cons,nodup_cons] at h
    by_cases hc : k = col
    · subst hc
      simp only [ColumnSets.insert,if_true,mem_cons,Prod.mk.injEq,or_and_right,exists_or,
        and_assoc]
      grind
    · simp only [ColumnSets.insert,hc,if_false,mem_cons,or_and_right,exists_or,ih h.2]
      exact or_left_comm

/-- What grouping guarantees: one entry for each column, holding exactly that column's values. -/
structure ColumnSets.Groups (cols : ColumnSets) (pairs : List (String × String)) : Prop where
  nodup : (cols.map Prod.fst).Nodup
  values : ∀ c s, (∃ vals, (c, vals) ∈ cols ∧ s ∈ vals) ↔ (c, s) ∈ pairs
  keys : ∀ c, c ∈ cols.map Prod.fst ↔ ∃ s, (c, s) ∈ pairs

theorem ColumnSets.groups_insert {pairs : List (String × String)} (h : cols.Groups pairs)
    (p : String × String) : (cols.insert p.1 p.2).Groups (pairs ++ [p]) where
  nodup := nodup_keys_insert h.nodup p.1 p.2
  values c s := by
    rw [mem_insert h.nodup,h.values,mem_append,mem_singleton,Prod.ext_iff]
    tauto
  keys c := by
    rw [mem_keys_insert,h.keys]
    simp only [mem_append,mem_singleton,Prod.ext_iff,exists_or]
    constructor
    · rintro (rfl | hs)
      · exact .inr ⟨p.2,rfl,rfl⟩
      · exact .inl hs
    · rintro (hs | ⟨s,rfl,-⟩)
      · exact .inr hs
      · exact .inl rfl

theorem ColumnSets.groups_foldl {before : List (String × String)} (h : cols.Groups before)
    (pairs : List (String × String)) :
    (pairs.foldl (fun cols p => cols.insert p.1 p.2) cols).Groups (before ++ pairs) := by
  induction pairs generalizing before cols with
  | nil => simpa using h
  | cons p rest ih => simpa using ih (groups_insert h p)

theorem ColumnSets.groups_ofPairs (pairs : List (String × String)) :
    (ColumnSets.ofPairs pairs).Groups pairs := by
  have hnil : ColumnSets.Groups [] [] := ⟨nodup_nil, by simp, by simp⟩
  exact groups_foldl hnil pairs

theorem ColumnSets.Groups.mem_iff {pairs : List (String × String)} (h : cols.Groups pairs)
    {s : String} {vals : List String} (hc : (c, vals) ∈ cols) : s ∈ vals ↔ (c, s) ∈ pairs := by
  rw [← h.values]
  constructor
  · exact fun hs => ⟨vals,hc,hs⟩
  · rintro ⟨vals',hc',hs⟩
    have he := inj_on_of_nodup_map h.nodup hc' hc rfl
    rw [Prod.mk.injEq] at he
    exact he.2 ▸ hs

/-! The matcher against the columns that the delete file names. -/

def EqualityDeleteAvro.listed (f : EqualityDeleteAvro) (c : String) : List String :=
  f.records.flatMap fun r => r.filterMap fun p => if p.1 = c then p.2.text tx else none

/-- The text form of a row's value in a column, if it has a value there that has one. -/
def Row.text (schema : List Field) (r : Row) (c : String) : Option String :=
  (r.column schema c).bind fun p => p.2.bind (Scalar.text tx p.1.dataType)

/-- The row has, in every column that the file names, one of the values listed for it. -/
def EqualityDeleteAvro.Selects (f : EqualityDeleteAvro) (schema : List Field) (r : Row) : Prop :=
  ∀ c ∈ f.columns, ∃ s ∈ f.listed tx c, r.text tx schema c = some s

instance (f : EqualityDeleteAvro) (schema : List Field) (r : Row) :
    Decidable (f.Selects tx schema r) := by
  unfold EqualityDeleteAvro.Selects
  infer_instance

/-- The matcher can compare a column: the file lists a value for it that decodes, the data file
has it, and its type is one that is put into text. -/
def EqualityDeleteAvro.checks (f : EqualityDeleteAvro) (schema : List Field) (c : String) : Bool :=
  !(f.listed tx c).isEmpty && (schema.find? fun g => g.name = c).any fun g => g.dataType.handled

/-- The row agrees with the file on the columns that were decoded and are in the data file, one at
least; a column of another type only has to be non-null. -/
def EqualityDeleteAvro.PartlySelects (f : EqualityDeleteAvro) (schema : List Field) (r : Row) :
    Prop :=
  (∃ c ∈ f.columns, f.listed tx c ≠ [] ∧ r.column schema c ≠ none) ∧
  ∀ c ∈ f.columns, f.listed tx c ≠ [] → ∀ p ∈ r.column schema c,
    p.2 ≠ none ∧ (p.1.dataType.handled → ∃ s ∈ f.listed tx c, r.text tx schema c = some s)

variable {tx} {f : EqualityDeleteAvro} {schema : List Field} {r : Row}

theorem mem_listed {s : String} : s ∈ f.listed tx c ↔ (c, s) ∈ readEqualityDeleteValues tx f := by
  simp only [EqualityDeleteAvro.listed,readEqualityDeleteValues,mem_flatMap,
    mem_filterMap,Option.map_eq_some_iff,Prod.mk.injEq]
  constructor
  · rintro ⟨rec,hrec,p,hp,hs⟩
    split at hs
    · exact ⟨rec,hrec,p,hp,s,hs,‹_›,rfl⟩
    · cases hs
  · rintro ⟨rec,hrec,p,hp,s',hs,hc,rfl⟩
    exact ⟨rec, hrec, p, hp, by rw [if_pos hc,hs]⟩

theorem mem_columns_of_mem_listed {s : String} (h : s ∈ f.listed tx c) : c ∈ f.columns := by
  simp only [EqualityDeleteAvro.listed,mem_flatMap,mem_filterMap] at h
  obtain ⟨rec,hrec,p,hp,hs⟩ := h
  split at hs
  · rename_i hc
    rw [← f.aligned rec hrec,← hc]
    exact mem_map_of_mem hp
  · cases hs

theorem text_isSome_iff {t : DataType} {v : Scalar} (h : v.hasType t) :
    (v.text tx t).isSome ↔ t.handled := by
  cases t <;> cases v <;> simp_all [Scalar.hasType,Scalar.text,DataType.handled]

theorem map_fst_column {cells : List Cell} (h : fits schema cells) (id : Nat) (c : String) :
    ((⟨id, cells⟩ : Row).column schema c).map Prod.fst = schema.find? fun g => g.name = c := by
  unfold Row.column
  induction schema generalizing cells with
  | nil => rfl
  | cons g gs ih =>
    cases cells with
    | nil => cases h
    | cons cell cells =>
      rw [fits,Bool.and_eq_true] at h
      have hi := ih h.2
      by_cases hg : g.name = c
      · simp [hg]
      · simpa [hg] using hi

theorem hasType_of_column {cells : List Cell} (h : fits schema cells) {id : Nat} {g : Field}
    {v : Scalar} (hc : (⟨id, cells⟩ : Row).column schema c = some (g, some v)) :
    v.hasType g.dataType := by
  unfold Row.column at hc
  have hm := mem_of_find?_eq_some hc
  clear hc
  induction schema generalizing cells with
  | nil => simp at hm
  | cons g' gs ih =>
    cases cells with
    | nil => simp at hm
    | cons cell cells =>
      rw [fits,Bool.and_eq_true] at h
      rw [zip_cons_cons,mem_cons,Prod.mk.injEq] at hm
      rcases hm with ⟨rfl,rfl⟩ | hm
      · exact h.1
      · exact ih h.2 hm

theorem rowMatchesLoop_eq_true {found : Bool} : rowMatchesLoop tx schema r found cols = true ↔
      (found ∨ ∃ e ∈ cols, r.column schema e.1 ≠ none) ∧
      ∀ e ∈ cols, ∀ p ∈ r.column schema e.1,
        p.2 ≠ none ∧ ∀ s, p.2.bind (Scalar.text tx p.1.dataType) = some s → s ∈ e.2 := by
  induction cols generalizing found with
  | nil => simp [rowMatchesLoop]
  | cons e rest ih =>
    obtain ⟨col,vals⟩ := e
    rcases hc : r.column schema col with _ | ⟨g, _ | v⟩
    · simp [rowMatchesLoop,hc,ih]
    · simp [rowMatchesLoop,hc]
    · rcases ht : v.text tx g.dataType with _ | s
      · simp [rowMatchesLoop,hc,ht,ih]
      · by_cases hs : s ∈ vals
        · simp [rowMatchesLoop,hc,ht,ih,hs]
        · simp [rowMatchesLoop,hc,ht,hs]

theorem bind_text (h : r.column schema c = some p) :
    p.2.bind (Scalar.text tx p.1.dataType) = r.text tx schema c := by
  rw [Row.text,h,Option.bind_some]

theorem handled_of_text {s : String} (hr : fits schema r.cells) (hp : r.column schema c = some p)
    (h : r.text tx schema c = some s) : p.1.dataType.handled := by
  rw [← bind_text hp] at h
  obtain ⟨g, _ | v⟩ := p
  · cases h
  · exact (text_isSome_iff (hasType_of_column hr hp)).1 (Option.isSome_of_mem h)

variable (tx) in
theorem text_of_handled (hr : fits schema r.cells) (hp : r.column schema c = some p)
    (hn : p.2 ≠ none) (h : p.1.dataType.handled) : ∃ s, r.text tx schema c = some s := by
  rw [← bind_text hp]
  obtain ⟨g, _ | v⟩ := p
  · exact absurd rfl hn
  · exact Option.isSome_iff_exists.1 ((text_isSome_iff (hasType_of_column hr hp)).2 h)

theorem rowMatches_iff_partlySelects (hr : fits schema r.cells) :
    rowMatches tx (ColumnSets.ofPairs (readEqualityDeleteValues tx f)) schema r = true ↔
      f.PartlySelects tx schema r := by
  have hg := ColumnSets.groups_ofPairs (readEqualityDeleteValues tx f)
  have hkey : ∀ {c}, f.listed tx c ≠ [] ↔
      c ∈ (ColumnSets.ofPairs (readEqualityDeleteValues tx f)).map Prod.fst := by
    intro c
    rw [hg.keys]
    exact ⟨fun h => (exists_mem_of_ne_nil _ h).imp fun _ => mem_listed.1,
      fun ⟨_,h⟩ => ne_nil_of_mem (mem_listed.2 h)⟩
  rw [rowMatches,rowMatchesLoop_eq_true]
  constructor
  · rintro ⟨hfound,hall⟩
    obtain ⟨e,he,hcol⟩ := hfound.resolve_left Bool.false_ne_true
    have hne := hkey.2 (mem_map_of_mem he)
    obtain ⟨s,hs⟩ := exists_mem_of_ne_nil _ hne
    refine ⟨⟨e.1, mem_columns_of_mem_listed hs, hne, hcol⟩, fun c _ hc p hp => ?_⟩
    obtain ⟨e',he',rfl⟩ := mem_map.1 (hkey.1 hc)
    refine ⟨(hall e' he' p hp).1, fun hh => ?_⟩
    obtain ⟨s',hs'⟩ := text_of_handled tx hr hp (hall e' he' p hp).1 hh
    have hmem := (hall e' he' p hp).2 s' (by rw [bind_text hp,hs'])
    exact ⟨s', mem_listed.2 ((hg.mem_iff he').1 hmem), hs'⟩
  · rintro ⟨⟨c,hc,hne,hcol⟩,hall⟩
    obtain ⟨e,he,rfl⟩ := mem_map.1 (hkey.1 hne)
    refine ⟨.inr ⟨e,he,hcol⟩, fun e' he' p hp => ?_⟩
    have hne' := hkey.2 (mem_map_of_mem he')
    obtain ⟨s,hs⟩ := exists_mem_of_ne_nil _ hne'
    have ha := hall e'.1 (mem_columns_of_mem_listed hs) hne' p hp
    refine ⟨ha.1, fun s' hs' => ?_⟩
    rw [bind_text hp] at hs'
    obtain ⟨s'',hmem,hs''⟩ := ha.2 (handled_of_text hr hp hs')
    rw [hs',Option.some.injEq] at hs''
    exact (hg.mem_iff he').2 (mem_listed.1 (hs'' ▸ hmem))

theorem column_of_text {s : String} (h : r.text tx schema c = some s) :
    ∃ p, r.column schema c = some p := by
  obtain ⟨p,hp,-⟩ := Option.bind_eq_some_iff.1 h
  exact ⟨p,hp⟩

theorem partlySelects_of_selects (h : f.Selects tx schema r) : f.PartlySelects tx schema r := by
  obtain ⟨c,hc⟩ := exists_mem_of_ne_nil _ f.named
  obtain ⟨s,hs,ht⟩ := h c hc
  obtain ⟨p,hp⟩ := column_of_text ht
  refine ⟨⟨c, hc, ne_nil_of_mem hs, by simp [hp]⟩, fun c' hc' _ p' hp' => ?_⟩
  refine ⟨fun hn => ?_, fun _ => h c' hc'⟩
  obtain ⟨s',-,ht'⟩ := h c' hc'
  rw [← bind_text hp',hn] at ht'
  cases ht'

theorem selects_of_partlySelects (hr : fits schema r.cells)
    (hc : ∀ c ∈ f.columns, f.checks tx schema c) (h : f.PartlySelects tx schema r) :
    f.Selects tx schema r := by
  intro c hcol
  have hchk := hc c hcol
  simp only [EqualityDeleteAvro.checks,Bool.and_eq_true,Bool.not_eq_true',
    isEmpty_eq_false_iff,Option.any_eq_true] at hchk
  obtain ⟨hne,g,hfind,hh⟩ := hchk
  rw [← map_fst_column hr r.id,Option.map_eq_some_iff] at hfind
  obtain ⟨p,hp,rfl⟩ := hfind
  exact (h.2 c hcol hne p hp).2 hh

theorem fits_of_mem {b : RecordBatch} (h : r ∈ b.rows) : fits b.schema r.cells :=
  all_eq_true.1 b.valid r h

variable (tx) (files : List (Int × EqualityDeleteAvro)) (s : Int)

/-- The row is selected by a delete file committed after the data file. -/
def SelectedAfter (schema : List Field) (r : Row) : Prop :=
  ∃ f ∈ files, s < f.1 ∧ f.2.Selects tx schema r

instance (schema : List Field) (r : Row) : Decidable (SelectedAfter tx files s schema r) := by
  unfold SelectedAfter
  infer_instance

theorem deletes_iff {b : RecordBatch} (h : r ∈ b.rows) :
    (EqualityDeleteFilter.ofFiles tx files).deletes tx b.schema r s = true ↔
      ∃ f ∈ files, s < f.1 ∧ f.2.PartlySelects tx b.schema r := by
  simp only [EqualityDeleteFilter.deletes,EqualityDeleteFilter.ofFiles,any_map,
    any_eq_true,Function.comp_apply,Bool.and_eq_true,decide_eq_true_eq,
    rowMatches_iff_partlySelects (fits_of_mem h)]

theorem shouldDeleteRow_get (filter : EqualityDeleteFilter) (b : RecordBatch)
    (i : Fin b.rows.length) :
    filter.shouldDeleteRow tx b i s = filter.deletes tx b.schema (b.rows.get i) s := by
  simp [EqualityDeleteFilter.shouldDeleteRow]

theorem rows_apply (filter : EqualityDeleteFilter) (b : RecordBatch) :
    (filter.apply tx b s).rows = b.rows.filter fun r => !filter.deletes tx b.schema r s := by
  unfold EqualityDeleteFilter.apply
  split
  · rename_i h
    rw [List.isEmpty_iff] at h
    simp [h,EqualityDeleteFilter.deletes]
  · have hp : b.rows.zipIdx.filter (fun p => !filter.shouldDeleteRow tx b p.2 s) =
        b.rows.zipIdx.filter (fun p => !filter.deletes tx b.schema p.1 s) := by
      refine filter_congr fun p hp => ?_
      rw [mem_zipIdx_iff_getElem?] at hp
      rw [EqualityDeleteFilter.shouldDeleteRow,hp]
    rw [RecordBatch.rows_filterRows,hp]
    conv_rhs => rw [← zipIdx_map_fst 0 b.rows,filter_map]
    rfl

end Reading
end AiLake
