import AiLake.AvroManifest
import Mathlib.Data.List.Basic

/-! Partition values through a manifest. A value has a component for each field of the spec; the
reader joins those that the partition record holds, and goes back to `key_metadata` only without
any. -/
namespace AiLake

open List

theorem not_mem_of_mem_splitOn {c : Char} {cs l : List Char} (h : l ∈ cs.splitOn c) : c ∉ l := by
  induction cs generalizing l with
  | nil =>
    obtain rfl : l = [] := by simpa [List.splitOn] using h
    exact not_mem_nil
  | cons x cs ih =>
    rw [List.splitOn,splitOnP_cons_eq_if_modifyHead] at h
    by_cases hx : x = c
    · rw [if_pos (by simpa using hx)] at h
      rcases mem_cons.1 h with rfl | h
      · exact not_mem_nil
      · exact ih h
    · rw [if_neg (by simpa using hx)] at h
      change l ∈ List.modifyHead (List.cons x) (cs.splitOn c) at h
      cases hsplit : cs.splitOn c with
      | nil => simp [hsplit] at h
      | cons head rest =>
        rw [hsplit,modifyHead_cons] at h
        rcases mem_cons.1 h with rfl | h
        · have hhead := ih (l := head) (by simp [hsplit])
          simp [hhead,Ne.symm hx]
        · exact ih (by simp [hsplit,h])

theorem unitSeparator_not_mem_of_mem_split {raw part : String}
    (h : part ∈ splitPartitionValue raw) : unitSeparator ∉ part.toList := by
  obtain ⟨l,hl,rfl⟩ := mem_map.1 h
  rw [String.toList_ofList]
  exact not_mem_of_mem_splitOn hl

theorem unitSeparator_not_mem_toString (n : Int) : unitSeparator ∉ (toString n).toList := by
  have hdigits (m : Nat) : unitSeparator ∉ (Nat.repr m).toList := by
    intro hmem
    rw [Nat.repr,String.toList_ofList] at hmem
    exact absurd (Nat.isDigit_of_mem_toDigits (by decide) (by decide) hmem) (by decide)
  rw [Int.toString_eq_repr]
  cases n with
  | ofNat m => exact hdigits m
  | negSucc m =>
    change unitSeparator ∉ ("-" ++ Nat.repr (m + 1)).toList
    rw [String.toList_append,mem_append,not_or]
    exact ⟨by decide, hdigits (m + 1)⟩

theorem joinPartitionValues_eq_iff {vals : List String} {raw : String} (hne : vals ≠ [])
    (hsep : ∀ v ∈ vals, unitSeparator ∉ v.toList) :
    joinPartitionValues vals = raw ↔ vals = splitPartitionValue raw := by
  have htoList : (joinPartitionValues vals).toList =
      [unitSeparator].intercalate (vals.map String.toList) := by
    rw [joinPartitionValues,String.toList_intercalate]
    rfl
  have hsplit : splitPartitionValue (joinPartitionValues vals) = vals := by
    rw [splitPartitionValue,htoList,splitOn_intercalate]
    · simp
    · intro l hl
      obtain ⟨v,hv,rfl⟩ := mem_map.1 hl
      exact hsep v hv
    · simpa using hne
  constructor
  · rintro rfl
    exact hsplit.symm
  · rintro rfl
    apply String.toList_injective
    rw [htoList,splitPartitionValue,map_map]
    simp [Function.comp_def,intercalate_splitOn]

/-! Components and their fields. -/

def PartitionField.accepts (field : PartitionField) (part : String) : Bool :=
  if field.sourceType = "int" ∨ field.sourceType = "integer" then (parseSigned 32 part).isSome
  else if field.sourceType = "long" then (parseSigned 64 part).isSome
  else true

def PartitionField.canonical (field : PartitionField) (part : String) : Bool :=
  if field.sourceType = "int" ∨ field.sourceType = "integer" then
    (parseSigned 32 part).map toString = some part
  else if field.sourceType = "long" then (parseSigned 64 part).map toString = some part
  else true

/-- Either no component is written, or all are: each is there, has a field and is the text of what
it is written as. -/
def PartitionKept (spec : Option PartitionSpec) (value : Option String) : Prop :=
  ∀ s ∈ spec, ∀ raw ∈ value,
    let parts := splitPartitionValue raw
    (∀ p ∈ parts.zip s.fields, p.1 = "" ∨ p.2.accepts p.1 = false) ∨
      (parts.length ≤ s.fields.length ∧
        ∀ p ∈ parts.zip s.fields, p.1 ≠ "" ∧ p.2.canonical p.1 = true)

def componentText (field : PartitionField) (part : String) : Option String :=
  (encodePartitionValue field (some part |>.filter (· ≠ ""))).map PartitionDatum.text

theorem componentText_empty (field : PartitionField) : componentText field "" = none := rfl

theorem componentText_of_ne {part : String} (h : part ≠ "") (field : PartitionField) :
    componentText field part = (encodePartitionValue field (some part)).map PartitionDatum.text := by
  have hfilter : (some part).filter (· ≠ "") = some part := by simp [h]
  rw [componentText,hfilter]

theorem componentText_eq_none_iff (field : PartitionField) (part : String) :
    componentText field part = none ↔ part = "" ∨ field.accepts part = false := by
  by_cases hempty : part = ""
  · simp [hempty,componentText_empty]
  · rw [componentText_of_ne hempty]
    simp only [encodePartitionValue,PartitionField.accepts,hempty,false_or]
    split
    · simp
    · split <;> simp

theorem componentText_eq_self_iff (field : PartitionField) (part : String) :
    componentText field part = some part ↔ part ≠ "" ∧ field.canonical part = true := by
  by_cases hempty : part = ""
  · simp [hempty,componentText_empty]
  · rw [componentText_of_ne hempty]
    simp only [encodePartitionValue,PartitionField.canonical,ne_eq,hempty,not_false_eq_true,
      true_and]
    split
    · simp [Option.map_map,Function.comp_def,PartitionDatum.text]
    · split <;> simp [Option.map_map,Function.comp_def,PartitionDatum.text]

theorem unitSeparator_not_mem_componentText {field : PartitionField} {part text : String}
    (hpart : unitSeparator ∉ part.toList) (h : componentText field part = some text) :
    unitSeparator ∉ text.toList := by
  have hne : part ≠ "" := by
    rintro rfl
    rw [componentText_empty] at h
    cases h
  rw [componentText_of_ne hne] at h
  obtain ⟨d,hd,rfl⟩ := Option.map_eq_some_iff.1 h
  have hint (bits : Nat) (mk : Int → PartitionDatum) (hmk : ∀ n, (mk n).text = toString n)
      (hd : (parseSigned bits part).map mk = some d) : unitSeparator ∉ d.text.toList := by
    obtain ⟨n,-,rfl⟩ := Option.map_eq_some_iff.1 hd
    rw [hmk]
    exact unitSeparator_not_mem_toString n
  simp only [encodePartitionValue] at hd
  split at hd
  · exact hint 32 .int (fun _ => rfl) hd
  · split at hd
    · exact hint 64 .long (fun _ => rfl) hd
    · cases hd
      exact hpart

theorem partitionTexts_zipIdx (fields : List PartitionField) (parts : List String) (k : Nat) :
    ((fields.zipIdx k).map fun p => encodePartitionValue p.1 ((parts[p.2]?).filter (· ≠ ""))
      ).filterMap (fun d => d.map PartitionDatum.text) =
        ((parts.drop k).zip fields).filterMap fun p => componentText p.2 p.1 := by
  induction fields generalizing k with
  | nil => simp
  | cons field fields ih =>
    rw [zipIdx_cons,map_cons,filterMap_cons]
    dsimp only
    rw [ih (k + 1)]
    cases hpart : parts[k]? with
    | none =>
      have hdrop : parts.drop k = [] := drop_eq_nil_of_le (getElem?_eq_none_iff.1 hpart)
      have hdrop' : parts.drop (k + 1) = [] :=
        drop_eq_nil_of_le (Nat.le_succ_of_le (getElem?_eq_none_iff.1 hpart))
      simp [hdrop,hdrop',encodePartitionValue]
    | some part =>
      obtain ⟨hk,rfl⟩ := List.getElem?_eq_some_iff.1 hpart
      rw [drop_eq_getElem_cons hk,zip_cons_cons,filterMap_cons]
      rfl

theorem filterMap_eq_map_iff {α β : Type} {g : α → Option β} {f : α → β} {l : List α} :
    l.filterMap g = l.map f ↔ ∀ a ∈ l, g a = some (f a) := by
  induction l with
  | nil => simp
  | cons a l ih =>
    rw [filterMap_cons,map_cons,forall_mem_cons,← ih]
    cases ha : g a with
    | none =>
      have hlen := length_filterMap_le g l
      constructor
      · intro h
        have := congrArg List.length h
        simp only [length_cons,length_map] at this
        omega
      · rintro ⟨h,-⟩
        cases h
    | some b => simp

theorem filterMap_componentText_eq_iff (fields : List PartitionField) (parts : List String) :
    ((parts.zip fields).filterMap fun p => componentText p.2 p.1) = parts ↔
      parts.length ≤ fields.length ∧
        ∀ p ∈ parts.zip fields, p.1 ≠ "" ∧ p.2.canonical p.1 = true := by
  have hself (p : String × PartitionField) := componentText_eq_self_iff p.2 p.1
  simp only [← hself]
  constructor
  · intro h
    have hle : parts.length ≤ fields.length := by
      have hlen := length_filterMap_le (fun p : String × PartitionField => componentText p.2 p.1)
        (parts.zip fields)
      rw [h,length_zip] at hlen
      omega
    refine ⟨hle, filterMap_eq_map_iff.1 ?_⟩
    rw [h,map_fst_zip hle]
  · rintro ⟨hle,hall⟩
    rw [filterMap_eq_map_iff.2 hall,map_fst_zip hle]

theorem readPartitionRecord_eq {record : List (Option PartitionDatum)} {vals : List String}
    (h : record.filterMap (fun d => d.map PartitionDatum.text) = vals) :
    readPartitionRecord record = if vals = [] then none else some (joinPartitionValues vals) := by
  rw [readPartitionRecord,h]
  match vals with
  | [] => rfl
  | [v] => simp [joinPartitionValues]
  | v :: v' :: vals => rfl

theorem readPartitionRecord_partitionRecord (s : PartitionSpec) (value : Option String) :
    let vals := ((splitPartitionValue (value.getD "")).zip s.fields).filterMap
      fun p => componentText p.2 p.1
    readPartitionRecord (partitionRecord (some s) value) =
      if vals = [] then none else some (joinPartitionValues vals) :=
  readPartitionRecord_eq (partitionTexts_zipIdx s.fields (splitPartitionValue (value.getD "")) 0)

theorem storedPartitionValue_none (spec : Option PartitionSpec) :
    storedPartitionValue spec none = none := by
  cases spec with
  | none => rfl
  | some s =>
    have hsplit : splitPartitionValue ((none : Option String).getD "") = [""] := by decide
    have hnil : ([""].zip s.fields).filterMap (fun p => componentText p.2 p.1) = [] := by
      cases s.fields <;> simp [componentText_empty]
    have hread := readPartitionRecord_partitionRecord s none
    rw [hsplit,hnil] at hread
    rw [storedPartitionValue,hread]
    rfl

theorem storedPartitionValue_some (spec : Option PartitionSpec) (value : String) :
    ∃ value', storedPartitionValue spec (some value) = some value' := by
  unfold storedPartitionValue
  cases readPartitionRecord (partitionRecord spec (some value)) with
  | none => exact ⟨value,rfl⟩
  | some value' => exact ⟨value',rfl⟩

theorem storedPartitionValue_eq_iff (spec : Option PartitionSpec) (value : Option String) :
    storedPartitionValue spec value = value ↔ PartitionKept spec value := by
  match spec, value with
  | none, value => simp [storedPartitionValue,partitionRecord,readPartitionRecord,PartitionKept]
  | some s, none => simp [storedPartitionValue_none,PartitionKept]
  | some s, some raw =>
    let vals := ((splitPartitionValue raw).zip s.fields).filterMap fun p => componentText p.2 p.1
    have hread : readPartitionRecord (partitionRecord (some s) (some raw)) =
      if vals = [] then none else some (joinPartitionValues vals) :=
      readPartitionRecord_partitionRecord s (some raw)
    have hnone : vals = [] ↔ ∀ p ∈ (splitPartitionValue raw).zip s.fields,
        p.1 = "" ∨ p.2.accepts p.1 = false := by
      simp only [vals,filterMap_eq_nil_iff,componentText_eq_none_iff]
    have hall : vals = splitPartitionValue raw ↔ _ :=
      filterMap_componentText_eq_iff s.fields (splitPartitionValue raw)
    have hkept : PartitionKept (some s) (some raw) ↔
        vals = [] ∨ vals = splitPartitionValue raw := by
      rw [hnone,hall]
      simp [PartitionKept]
    rw [hkept,storedPartitionValue,hread]
    by_cases hempty : vals = []
    · simp [hempty]
    · have hsep : ∀ v ∈ vals, unitSeparator ∉ v.toList := by
        intro v hv
        obtain ⟨p,hp,hv⟩ := mem_filterMap.1 hv
        exact unitSeparator_not_mem_componentText
          (unitSeparator_not_mem_of_mem_split (of_mem_zip hp).1) hv
      rw [if_neg hempty,Option.some_or,Option.some.injEq,joinPartitionValues_eq_iff hempty hsep]
      simp [hempty]

end AiLake
