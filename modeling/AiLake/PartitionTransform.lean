import AiLake.PartitionValue
import AiLake.Search
import AiLake.TableHistory

/-! From a writer's partition value to the filter of a search: the value is transformed component by
component, encoded under the spec's types, read back as text and compared with the filter, which
nothing transforms. -/
namespace AiLake

open StoreProgram List Option

variable {cs : List Char} {n : Int}

/-! The transforms. -/

namespace PartitionDef

/- `truncate[W]`; any other transform leaves values as they are. -/
def truncateWidth (d : PartitionDef) : Option Nat :=
  let cs := d.transform.toList
  if "truncate[".toList <+: cs ∧ "]".toList <:+ cs.drop 9 then
    parseU64 (String.ofList (cs.drop 9).dropLast)
  else none

def isInteger (d : PartitionDef) : Bool :=
  d.columnType = "int" ∨ d.columnType = "long" ∨ d.columnType = "integer"

/- The 64 bits of a number, read as an `i64`. -/
def wrap (n : Int) : Int := n.bmod (2 ^ 64)

/- `n - n.rem_euclid(w)`, which wraps around; `none` where the remainder panics. -/
def truncateInt (w n : Int) : Option Int :=
  if w = 0 ∨ (n = -2 ^ 63 ∧ w = -1) then none else some (wrap (n - n % w))

def number (d : PartitionDef) (raw : String) : Option Int :=
  if d.isInteger then parseSigned 64 raw else none

def apply (d : PartitionDef) (raw : String) : Option String :=
  match d.truncateWidth with
  | none => some raw
  | some w =>
    match d.number raw with
    | some n => (truncateInt (wrap w) n).map toString
    | none => some (String.ofList (raw.toList.take w))

/-- The transform does not change the component: it has no more characters than the width, or is
the text of a multiple of it. -/
def leaves (d : PartitionDef) (part : String) : Bool :=
  match d.truncateWidth with
  | none => true
  | some w =>
    match d.number part with
    | some n => toString n = part ∧ n % wrap w = 0
    | none => part.toList.length ≤ w

end PartitionDef

/- One component for each field; a component that is missing is empty. -/
def transformAll : List PartitionDef → List String → Option (List String)
  | [], _ => some []
  | d :: defs, parts =>
    (d.apply (parts.headD "")).bind fun part =>
      (transformAll defs parts.tail).map fun rest => part :: rest

def applyPartitionTransforms (defs : List PartitionDef) (raw : String) : Option String :=
  if defs.isEmpty then some raw
  else (transformAll defs (splitPartitionValue raw)).map joinPartitionValues

/-! Integers and their texts. -/

theorem le_foldl_digits (cs : List Char) (n : Nat) :
    n ≤ cs.foldl (fun n c => 10 * n + (c.toNat - '0'.toNat)) n := by
  induction cs generalizing n with
  | nil => exact Nat.le_refl n
  | cons c cs ih =>
    have hrest := ih (10 * n + (c.toNat - '0'.toNat))
    rw [foldl_cons]
    omega

theorem foldl_of_parseDigits {n : Nat} (h : parseDigits cs = some n) :
    cs ≠ [] ∧ cs.foldl (fun n c => 10 * n + (c.toNat - '0'.toNat)) 0 = n := by
  cases cs with
  | nil => cases h
  | cons c cs =>
    rw [parseDigits] at h
    split at h
    · exact ⟨cons_ne_nil c cs, Option.some.inj h⟩
    · cases h
    · intro hnil
      cases hnil

theorem length_le_of_parseDigits_take {n w : Nat}
    (h : parseDigits ((Nat.toDigits 10 n).take w) = some n) : (Nat.toDigits 10 n).length ≤ w := by
  by_contra hw
  obtain ⟨hne,hvalue⟩ := foldl_of_parseDigits h
  obtain ⟨-,hall⟩ := foldl_of_parseDigits (parseDigits_toDigits n)
  -- The digits go on after the prefix, so that their value is at least ten times the prefix's.
  obtain ⟨c,rest,hrest⟩ : ∃ c rest, (Nat.toDigits 10 n).drop w = c :: rest :=
    exists_cons_of_ne_nil (by rw [Ne,drop_eq_nil_iff]; omega)
  have hgrow := le_foldl_digits rest (10 * n + (c.toNat - '0'.toNat))
  rw [← take_append_drop w (Nat.toDigits 10 n),foldl_append,hvalue,hrest,
    foldl_cons] at hall
  obtain rfl : n = 0 := by omega
  cases w with
  | zero => exact hne rfl
  | succ w =>
    have hone : (Nat.toDigits 10 0).length = 1 := rfl
    omega

theorem toList_toString_ofNat (n : Nat) : (toString (n : Int)).toList = Nat.toDigits 10 n := by
  rw [Int.toString_eq_repr]
  change (Nat.repr n).toList = _
  rw [Nat.toList_repr]

theorem toList_toString_negSucc (n : Nat) :
    (toString (Int.negSucc n)).toList = '-' :: Nat.toDigits 10 (n + 1) := by
  rw [Int.toString_eq_repr]
  change ("-" ++ Nat.repr (n + 1)).toList = _
  rw [String.toList_append,Nat.toList_repr]
  rfl

theorem ne_cons_of_digits {rest : List Char} {c : Char} (h : ∀ x ∈ cs, x.isDigit = true)
    (hc : c.isDigit = false) : cs ≠ c :: rest := by
  rintro rfl
  rw [h c mem_cons_self] at hc
  cases hc

/-- The number in front of its range check. -/
def signedValue (cs : List Char) : Option Int :=
  match cs with
  | '-' :: cs => (parseDigits cs).map fun n : Nat => -(n : Int)
  | '+' :: cs => (parseDigits cs).map fun n : Nat => (n : Int)
  | cs => (parseDigits cs).map fun n : Nat => (n : Int)

theorem parseSigned_eq (bits : Nat) (s : String) : parseSigned bits s =
    (signedValue s.toList).filter fun n => -2 ^ (bits - 1) ≤ n ∧ n < 2 ^ (bits - 1) := by
  unfold parseSigned
  fun_cases signedValue s.toList with
  | case1 digits => cases h : parseDigits digits <;> simp [h]
  | case2 digits => cases h : parseDigits digits <;> simp [h]
  | case3 hminus hplus =>
    split
    · simp_all
    · simp_all
    · cases parseDigits _ <;> simp

theorem signedValue_of_digits (h : ∀ x ∈ cs, x.isDigit = true) :
    signedValue cs = (parseDigits cs).map fun n : Nat => (n : Int) := by
  unfold signedValue
  split
  · exact absurd rfl (ne_cons_of_digits h (by decide))
  · exact absurd rfl (ne_cons_of_digits h (by decide))
  · rfl

theorem isDigit_of_mem_toDigits (n : Nat) : ∀ c ∈ Nat.toDigits 10 n, c.isDigit = true :=
  fun _ hc => Nat.isDigit_of_mem_toDigits (by decide) (by decide) hc

theorem signedValue_toString (n : Int) : signedValue (toString n).toList = some n := by
  cases n with
  | ofNat m =>
    rw [Int.ofNat_eq_natCast,toList_toString_ofNat,signedValue_of_digits (isDigit_of_mem_toDigits m),
      parseDigits_toDigits]
    rfl
  | negSucc m =>
    rw [toList_toString_negSucc,signedValue,parseDigits_toDigits,map_some,Int.negSucc_eq]
    rfl

theorem parseSigned_toString {bits : Nat} (h : -2 ^ (bits - 1) ≤ n ∧ n < 2 ^ (bits - 1)) :
    parseSigned bits (toString n) = some n := by
  rw [parseSigned_eq,signedValue_toString,filter_some,if_pos (by simpa using h)]

theorem range_of_parseSigned {bits : Nat} {s : String} (h : parseSigned bits s = some n) :
    signedValue s.toList = some n ∧ -2 ^ (bits - 1) ≤ n ∧ n < 2 ^ (bits - 1) := by
  rw [parseSigned_eq,filter_eq_some_iff] at h
  exact ⟨h.1, by simpa using h.2⟩

theorem length_le_of_signedValue_take {w : Nat}
    (h : signedValue ((toString n).toList.take w) = some n) : (toString n).toList.length ≤ w := by
  cases n with
  | ofNat m =>
    rw [Int.ofNat_eq_natCast,toList_toString_ofNat] at h ⊢
    rw [signedValue_of_digits fun c hc => isDigit_of_mem_toDigits m c (mem_of_mem_take hc)] at h
    obtain ⟨k,hk,hcast⟩ := map_eq_some_iff.1 h
    obtain rfl : k = m := by omega
    exact length_le_of_parseDigits_take hk
  | negSucc m =>
    rw [toList_toString_negSucc] at h ⊢
    cases w with
    | zero => cases h
    | succ w =>
      rw [take_succ_cons,signedValue] at h
      obtain ⟨k,hk,hcast⟩ := map_eq_some_iff.1 h
      obtain rfl : k = m + 1 := by omega
      have hlen := length_le_of_parseDigits_take hk
      rw [length_cons]
      omega

/-! What a component comes back as. -/

namespace PartitionDef

variable {n k : Int} {d : PartitionDef} {part : String}

theorem wrap_range (n : Int) : -2 ^ 63 ≤ wrap n ∧ wrap n < 2 ^ 63 := by
  unfold wrap
  rw [Int.bmod_def]
  omega

theorem wrap_eq_iff (hk : -2 ^ 63 ≤ k ∧ k < 2 ^ 63) (hn : k - 2 ^ 63 ≤ n ∧ n ≤ k) :
    wrap n = k ↔ n = k := by
  unfold wrap
  rw [Int.bmod_def]
  omega

theorem number_range (h : d.number part = some n) : -2 ^ 63 ≤ n ∧ n < 2 ^ 63 := by
  unfold number at h
  split at h
  · exact (range_of_parseSigned h).2
  · cases h

theorem truncateInt_eq_self_iff {w : Int} (hw : -2 ^ 63 ≤ w ∧ w < 2 ^ 63)
    (hn : -2 ^ 63 ≤ n ∧ n < 2 ^ 63) (h : truncateInt w n = some k) : k = n ↔ n % w = 0 := by
  unfold truncateInt at h
  split at h
  · cases h
  next hpanic =>
    obtain rfl := Option.some.inj h
    have hzero : w ≠ 0 := fun he => hpanic (.inl he)
    have hlow := Int.emod_nonneg n hzero
    have hhigh := Int.emod_lt_abs n hzero
    have habs : |w| ≤ 2 ^ 63 := abs_le.2 ⟨hw.1,hw.2.le⟩
    rw [wrap_eq_iff hn (by omega)]
    omega

theorem truncateInt_range {w : Int} (h : truncateInt w n = some k) : -2 ^ 63 ≤ k ∧ k < 2 ^ 63 := by
  unfold truncateInt at h
  split at h
  · cases h
  · obtain rfl := Option.some.inj h
    exact wrap_range _

theorem number_toString (hd : d.isInteger = true) (hn : -2 ^ 63 ≤ n ∧ n < 2 ^ 63) :
    d.number (toString n) = some n := by
  rw [number,if_pos hd]
  exact parseSigned_toString hn

theorem isInteger_of_number (h : d.number part = some n) : d.isInteger = true := by
  unfold number at h
  split at h
  · assumption
  · cases h

theorem take_eq_self_iff {w : Nat} :
    String.ofList (part.toList.take w) = part ↔ part.toList.length ≤ w := by
  rw [← String.toList_inj,String.toList_ofList,List.take_eq_self_iff]

theorem apply_eq_self_iff {t : String} (h : d.apply part = some t) :
    t = part ↔ d.leaves part = true := by
  unfold apply at h
  unfold leaves
  cases hwidth : d.truncateWidth with
  | none =>
    rw [hwidth] at h
    simpa using (Option.some.inj h).symm
  | some w =>
    rw [hwidth] at h
    cases hnumber : d.number part with
    | none =>
      simp only [hnumber] at h
      rw [← Option.some.inj h,take_eq_self_iff]
      simp
    | some n =>
      simp only [hnumber] at h
      obtain ⟨k,hk,rfl⟩ := map_eq_some_iff.1 h
      have hself := truncateInt_eq_self_iff (wrap_range w) (number_range hnumber) hk
      simp only [decide_eq_true_eq]
      constructor
      · rintro rfl
        have hread := number_toString (isInteger_of_number hnumber) (truncateInt_range hk)
        obtain rfl : k = n := Option.some.inj (hread.symm.trans hnumber)
        exact ⟨rfl, hself.1 rfl⟩
      · rintro ⟨htext,hmultiple⟩
        rw [hself.2 hmultiple,htext]

theorem apply_empty (d : PartitionDef) : d.apply "" = some "" := by
  have hnumber : d.number "" = none := by
    unfold number
    split <;> rfl
  unfold apply
  cases d.truncateWidth with
  | none => rfl
  | some w =>
    simp [hnumber]

theorem apply_eq_of_text {t : String} {bits : Nat} (h : d.apply (toString n) = some t)
    (hread : parseSigned bits t = some n) : t = toString n := by
  have hvalue := (range_of_parseSigned hread).1
  unfold apply at h
  cases hwidth : d.truncateWidth with
  | none =>
    rw [hwidth] at h
    exact (Option.some.inj h).symm
  | some w =>
    rw [hwidth] at h
    cases hnumber : d.number (toString n) with
    | none =>
      simp only [hnumber] at h
      obtain rfl := Option.some.inj h
      rw [String.toList_ofList] at hvalue
      exact take_eq_self_iff.2 (length_le_of_signedValue_take hvalue)
    | some k =>
      simp only [hnumber] at h
      obtain ⟨k',hk',rfl⟩ := map_eq_some_iff.1 h
      rw [signedValue_toString] at hvalue
      rw [Option.some.inj hvalue]

end PartitionDef

theorem unitSeparator_not_mem_apply {d : PartitionDef} {part t : String}
    (hpart : unitSeparator ∉ part.toList) (h : d.apply part = some t) :
    unitSeparator ∉ t.toList := by
  unfold PartitionDef.apply at h
  split at h
  · rw [← Option.some.inj h]
    exact hpart
  · split at h
    · obtain ⟨k,-,rfl⟩ := map_eq_some_iff.1 h
      exact unitSeparator_not_mem_toString k
    · rw [← Option.some.inj h,String.toList_ofList]
      exact fun hmem => hpart (mem_of_mem_take hmem)

/-- The text of a slot is the component exactly when neither the transform nor the type changed
it. -/
theorem componentText_apply_eq_iff {d : PartitionDef} {field : PartitionField} {part t : String}
    (h : d.apply part = some t) : componentText field t = some part ↔
      part ≠ "" ∧ d.leaves part = true ∧ field.canonical part = true := by
  rw [← PartitionDef.apply_eq_self_iff h]
  constructor
  · intro htext
    suffices heq : t = part by
      subst heq
      have hself := (componentText_eq_self_iff field t).1 htext
      exact ⟨hself.1,rfl,hself.2⟩
    have hne : t ≠ "" := by
      rintro rfl
      rw [componentText_empty] at htext
      cases htext
    rw [componentText_of_ne hne] at htext
    obtain ⟨datum,hdatum,rfl⟩ := map_eq_some_iff.1 htext
    simp only [encodePartitionValue] at hdatum
    split at hdatum
    · obtain ⟨n,hn,rfl⟩ := map_eq_some_iff.1 hdatum
      exact PartitionDef.apply_eq_of_text h hn
    · split at hdatum
      · obtain ⟨n,hn,rfl⟩ := map_eq_some_iff.1 hdatum
        exact PartitionDef.apply_eq_of_text h hn
      · cases hdatum
        rfl
  · rintro ⟨hne,rfl,hcanonical⟩
    exact (componentText_eq_self_iff field t).2 ⟨hne,hcanonical⟩

/-! Whole values. -/

/-- What the reader finds in the partition record of transformed components. -/
def slotTexts (fields : List PartitionField) (parts : List String) : List String :=
  (parts.zip fields).filterMap fun p => componentText p.2 p.1

section Transformed

variable {defs : List PartitionDef} {parts ts : List String}

theorem transformAll_cons {d : PartitionDef} {part : String}
    (h : transformAll (d :: defs) (part :: parts) = some ts) :
    ∃ t rest, d.apply part = some t ∧ transformAll defs parts = some rest ∧ ts = t :: rest := by
  obtain ⟨t,ht,hmap⟩ := bind_eq_some_iff.1 h
  obtain ⟨rest,hrest,hts⟩ := map_eq_some_iff.1 hmap
  exact ⟨t,rest,ht,hrest,hts.symm⟩

theorem transformAll_nil (defs : List PartitionDef) :
    transformAll defs [] = some (defs.map fun _ => "") := by
  induction defs with
  | nil => rfl
  | cons d defs ih =>
    rw [transformAll,headD_nil,d.apply_empty,bind_some,tail_nil,ih]
    rfl

theorem unitSeparator_not_mem_transformAll (h : transformAll defs parts = some ts)
    (hparts : ∀ part ∈ parts, unitSeparator ∉ part.toList) :
    ∀ t ∈ ts, unitSeparator ∉ t.toList := by
  induction defs generalizing parts ts with
  | nil =>
    cases h
    simp
  | cons d defs ih =>
    cases parts with
    | nil =>
      rw [transformAll_nil] at h
      cases h
      simp
    | cons part parts =>
      obtain ⟨t,rest,ht,hrest,rfl⟩ := transformAll_cons h
      rw [forall_mem_cons] at hparts ⊢
      exact ⟨unitSeparator_not_mem_apply hparts.1 ht, ih hrest hparts.2⟩

theorem transformAll_ne_nil (h : transformAll defs parts = some ts) (hdefs : defs ≠ []) :
    ts ≠ [] := by
  cases defs with
  | nil => exact absurd rfl hdefs
  | cons d defs =>
    obtain ⟨t,-,hrest⟩ := bind_eq_some_iff.1 h
    obtain ⟨rest,-,rfl⟩ := map_eq_some_iff.1 hrest
    exact cons_ne_nil t rest

/-- The transforms leave a value as it is when it has a component for each of them that none
changes. -/
theorem transformAll_eq_self_iff (h : transformAll defs parts = some ts) : ts = parts ↔
    parts.length = defs.length ∧ ∀ p ∈ parts.zip defs, p.2.leaves p.1 = true := by
  induction defs generalizing parts ts with
  | nil =>
    cases h
    rw [zip_nil_right,length_nil,length_eq_zero_iff]
    simp [eq_comm (a := [])]
  | cons d defs ih =>
    cases parts with
    | nil =>
      rw [transformAll_nil] at h
      cases h
      simp
    | cons part parts =>
      obtain ⟨t,rest,ht,hrest,rfl⟩ := transformAll_cons h
      rw [cons_eq_cons,PartitionDef.apply_eq_self_iff ht,ih hrest,zip_cons_cons,
        forall_mem_cons,length_cons,length_cons,Nat.succ_inj]
      exact and_left_comm

theorem slotTexts_cons (field : PartitionField) (fields : List PartitionField) (t : String)
    (ts : List String) : slotTexts (field :: fields) (t :: ts) =
      (componentText field t).toList ++ slotTexts fields ts := by
  rw [slotTexts,zip_cons_cons,filterMap_cons]
  cases componentText field t <;> rfl

theorem slotTexts_empty {α : Type} (fields : List PartitionField) (l : List α) :
    slotTexts fields (l.map fun _ => "") = [] := by
  induction l generalizing fields with
  | nil => rfl
  | cons x l ih =>
    cases fields with
    | nil => rfl
    | cons field fields =>
      rw [map_cons,slotTexts_cons,ih,componentText_empty]
      rfl

theorem length_slotTexts_le (fields : List PartitionField)
    (h : transformAll defs parts = some ts) : (slotTexts fields ts).length ≤ parts.length := by
  induction parts generalizing defs ts fields with
  | nil =>
    rw [transformAll_nil] at h
    cases h
    rw [slotTexts_empty,length_nil]
  | cons part parts ih =>
    cases defs with
    | nil =>
      cases h
      exact Nat.zero_le _
    | cons d defs =>
      obtain ⟨t,rest,ht,hrest,rfl⟩ := transformAll_cons h
      cases fields with
      | nil => exact Nat.zero_le _
      | cons field fields =>
        have hle := ih fields hrest
        have hone : (componentText field t).toList.length ≤ 1 := by
          cases componentText field t <;> simp
        rw [slotTexts_cons,length_append,length_cons]
        omega

/-- The slots give back a value when each of its components has a transform and a field that keep
it. -/
theorem slotTexts_eq_iff (fields : List PartitionField) (h : transformAll defs parts = some ts) :
    slotTexts fields ts = parts ↔
      (parts.length ≤ defs.length ∧ ∀ p ∈ parts.zip defs, p.2.leaves p.1 = true) ∧
        parts.length ≤ fields.length ∧
          ∀ p ∈ parts.zip fields, p.1 ≠ "" ∧ p.2.canonical p.1 = true := by
  induction parts generalizing defs ts fields with
  | nil =>
    rw [transformAll_nil] at h
    cases h
    rw [slotTexts_empty]
    simp
  | cons part parts ih =>
    cases defs with
    | nil =>
      cases h
      simp [slotTexts]
    | cons d defs =>
      obtain ⟨t,rest,ht,hrest,rfl⟩ := transformAll_cons h
      cases fields with
      | nil => simp [slotTexts]
      | cons field fields =>
        have hle := length_slotTexts_le fields hrest
        -- A slot that holds nothing leaves too few components.
        have hsplit : slotTexts (field :: fields) (t :: rest) = part :: parts ↔
            componentText field t = some part ∧ slotTexts fields rest = parts := by
          rw [slotTexts_cons]
          cases componentText field t with
          | none =>
            simp only [toList_none,nil_append,reduceCtorEq,false_and,iff_false]
            intro heq
            rw [heq,length_cons] at hle
            omega
          | some text => simp
        rw [hsplit,componentText_apply_eq_iff ht,ih fields hrest]
        simp only [zip_cons_cons,forall_mem_cons,length_cons,
          Nat.add_le_add_iff_right]
        tauto

end Transformed

/-- The filter is the value that listed files have. Either nothing of the value is written under the
spec's types, and the transforms leave it as it is; or all of it is, and neither they nor the types
change a component. -/
def FilterFinds (defs : List PartitionDef) (spec : Option PartitionSpec) (v : String) : Prop :=
  let parts := splitPartitionValue v
  let fields := (spec.map (·.fields)).getD []
  ((defs ≠ [] → parts.length = defs.length ∧ ∀ p ∈ parts.zip defs, p.2.leaves p.1 = true) ∧
      ∀ p ∈ parts.zip fields, p.1 = "" ∨ p.2.accepts p.1 = false) ∨
    ((defs ≠ [] → parts.length ≤ defs.length ∧ ∀ p ∈ parts.zip defs, p.2.leaves p.1 = true) ∧
      parts.length ≤ fields.length ∧
        ∀ p ∈ parts.zip fields, p.1 ≠ "" ∧ p.2.canonical p.1 = true)

theorem splitPartitionValue_ne_nil (v : String) : splitPartitionValue v ≠ [] := by
  rw [splitPartitionValue,Ne,map_eq_nil_iff]
  exact splitOn_ne_nil _ _

theorem slotTexts_eq_nil_iff (fields : List PartitionField) (parts : List String) :
    slotTexts fields parts = [] ↔ ∀ p ∈ parts.zip fields, p.1 = "" ∨ p.2.accepts p.1 = false := by
  simp only [slotTexts,filterMap_eq_nil_iff,componentText_eq_none_iff]

theorem storedPartitionValue_eq (spec : Option PartitionSpec) (t : String) :
    let texts := slotTexts ((spec.map (·.fields)).getD []) (splitPartitionValue t)
    storedPartitionValue spec (some t) =
      some (if texts = [] then t else joinPartitionValues texts) := by
  intro texts
  cases spec with
  | none =>
    have hnil : texts = [] := by simp [texts,slotTexts]
    rw [if_pos hnil]
    rfl
  | some s =>
    have hread := readPartitionRecord_partitionRecord s (some t)
    have htexts : texts = ((splitPartitionValue t).zip s.fields).filterMap
      fun p => componentText p.2 p.1 := rfl
    rw [storedPartitionValue,hread,getD_some,← htexts]
    split <;> rfl

theorem storedPartitionValue_applied_iff {defs : List PartitionDef} {spec : Option PartitionSpec}
    {v t : String} (h : applyPartitionTransforms defs v = some t) :
    storedPartitionValue spec (some t) = some v ↔ FilterFinds defs spec v := by
  let fields := (spec.map (·.fields)).getD []
  unfold applyPartitionTransforms at h
  split at h
  next hempty =>
    obtain rfl := Option.some.inj h
    have hdefs : defs = [] := isEmpty_iff.1 hempty
    rw [storedPartitionValue_eq_iff,PartitionKept,FilterFinds,hdefs]
    cases spec with
    | none => simp
    | some s => simp
  next hempty =>
    have hdefs : defs ≠ [] := fun he => hempty (isEmpty_iff.2 he)
    obtain ⟨ts,hts,rfl⟩ := map_eq_some_iff.1 h
    have hsep := unitSeparator_not_mem_transformAll hts
      fun part hpart => unitSeparator_not_mem_of_mem_split hpart
    have hne := transformAll_ne_nil hts hdefs
    have hsplit : splitPartitionValue (joinPartitionValues ts) = ts :=
      ((joinPartitionValues_eq_iff hne hsep).1 rfl).symm
    have hself := transformAll_eq_self_iff hts
    have hslots := slotTexts_eq_iff fields hts
    have hnone : slotTexts fields ts = [] ∧ ts = splitPartitionValue v ↔
        (defs ≠ [] → (splitPartitionValue v).length = defs.length ∧
          ∀ p ∈ (splitPartitionValue v).zip defs, p.2.leaves p.1 = true) ∧
        ∀ p ∈ (splitPartitionValue v).zip fields, p.1 = "" ∨ p.2.accepts p.1 = false := by
      rw [← hself,← slotTexts_eq_nil_iff]
      constructor
      · rintro ⟨hnil,heq⟩
        exact ⟨fun _ => heq, heq ▸ hnil⟩
      · rintro ⟨heq,hnil⟩
        exact ⟨(heq hdefs).symm ▸ hnil, heq hdefs⟩
    rw [storedPartitionValue_eq,hsplit,Option.some.injEq]
    have hfinds : FilterFinds defs spec v ↔
        (slotTexts fields ts = [] ∧ ts = splitPartitionValue v) ∨
          slotTexts fields ts = splitPartitionValue v := by
      rw [hnone,hslots]
      simp only [FilterFinds,hdefs,ne_eq,not_false_eq_true,true_implies]
      rfl
    rw [hfinds]
    by_cases hnil : slotTexts fields ts = []
    · have hparts := splitPartitionValue_ne_nil v
      rw [if_pos hnil,joinPartitionValues_eq_iff hne hsep,hnil]
      simp [hparts.symm]
    · have htexts : ∀ text ∈ slotTexts fields ts, unitSeparator ∉ text.toList := by
        intro text htext
        obtain ⟨p,hp,htext⟩ := mem_filterMap.1 htext
        exact unitSeparator_not_mem_componentText (hsep p.1 (of_mem_zip hp).1) htext
      rw [if_neg hnil,joinPartitionValues_eq_iff hnil htexts]
      simp [hnil]

/-! Searches. -/

section Runs

variable {site : Site} {fmt : FileFormat} {writer : TableWriter} {m : IcebergMetadata}
  {views : List View} {c : Content} {w w' : Store} {snapshotId id : SnapshotId} {nowMs : Int}
  {writes : List BatchWrite} {defs : List PartitionDef} {v t : String}

end Runs

def partitionedDemo (partitionBy columnType : Option String) (defs : List PartitionDef) :
    IcebergMetadata :=
  .new demoSite.root 2 partitionBy columnType defs [] 0

def partitionedTable (m : IcebergMetadata) : Store := ((createTable demoSite m).run emptyStore).2

theorem tableOf_partitionedDemo (partitionBy columnType : Option String)
    (defs : List PartitionDef) :
    TableOf demoSite (partitionedTable (partitionedDemo partitionBy columnType defs))
      (partitionedDemo partitionBy columnType defs) [] ⟨[], []⟩ where
  reliable _ := rfl
  stored := (run_createTable (fun _ => rfl) (fun _ => rfl) rfl rfl).2
  location := rfl
  holds := ⟨rfl, rfl, by simp, by simp, by simp⟩

def partitionWriter (value : String) : TableWriter :=
  ⟨{ demoPolicy with partitionValue := some value }, none, "s", none⟩

def partitionAppend (value : String) : Program SnapshotId :=
  appendBatches demoSite demoFormat (partitionWriter value) [demoBatch 7 "a"] 1 0

def agentAndYear : List PartitionDef :=
  [⟨"agent_id", "identity", "string"⟩, ⟨"ts", "truncate[4]", "string"⟩]

/-- The paths that a listing shows after an append, all and those a filter keeps. -/
def pathsAfter (m : IcebergMetadata) (value : String) (filter : Option String) :
    Except AilakeError (List String) :=
  ((listFiles demoSite none).run ((partitionAppend value).run (partitionedTable m)).2).1.map
    fun files => (files.filter (inPartition filter)).map (·.path)

/-- A file is written with the value, and the filter with the same value does not keep it. -/
def LosesFile (m : IcebergMetadata) (defs : List PartitionDef) (v t : String) : Prop :=
  applyPartitionTransforms defs v = some t ∧
    ((partitionAppend t).run (partitionedTable m)).1 = .ok 1 ∧
    pathsAfter m t none = .ok ["data/part-s-00000.parquet"] ∧ pathsAfter m t (some v) = .ok []

end AiLake
