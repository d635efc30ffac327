import AiLake.PartitionTransform
import Mathlib.Order.Bounds.Basic

/-! `truncate[W]` against its definition: integers go down to a multiple of the width, texts to
their first characters, and a second application changes nothing. -/
namespace AiLake

open Option

namespace PartitionDef

variable {d : PartitionDef} {w : Nat} {n k : Int} {raw t : String}

def cut (w : Nat) (raw : String) : String := String.ofList (raw.toList.take w)

/-- What the transform is to return for a value. -/
structure Truncated (d : PartitionDef) (w : Nat) (raw t : String) : Prop where
  integer : ∀ n, d.number raw = some n →
    ∃ k : Int, t = toString k ∧ IsGreatest {j : Int | (w : Int) ∣ j ∧ j ≤ n} k
  text : d.isInteger = false → t = cut w raw
  again : d.apply t = some t

/-- When it does. A number needs a width other than 0 and a multiple within 64 bits; a width of more
than 63 bits counts as the negative number with its bits, right for numbers below its absolute
value. A text in an integer column must not be cut to a number, unless the transform leaves it. -/
def Truncatable (d : PartitionDef) (w : Nat) (raw : String) : Prop :=
  match d.number raw with
  | some n => 0 < w ∧ -2 ^ 63 ≤ n - n % w ∧ (w ≤ 2 ^ 63 ∨ n < 2 ^ 64 - w)
  | none => ∀ n, d.number (cut w raw) = some n →
      toString n = cut w raw ∧ truncateInt (wrap w) n = some n

theorem width_lt (h : d.truncateWidth = some w) : w < 2 ^ 64 := by
  unfold truncateWidth at h
  simp only at h
  split at h
  · exact of_decide_eq_true (filter_eq_some_iff.1 h).2
  · cases h

theorem isGreatest_multiple (hw : 0 < w) (n : Int) :
    IsGreatest {j : Int | (w : Int) ∣ j ∧ j ≤ n} (n - n % w) := by
  have hpos : (0 : Int) < w := Int.natCast_pos.2 hw
  refine ⟨⟨Int.dvd_self_sub_emod,?_⟩,?_⟩
  · have := Int.emod_nonneg n hpos.ne'
    omega
  · rintro j ⟨⟨q,rfl⟩,hle⟩
    have hdiv : q ≤ n / w := (Int.le_ediv_iff_mul_le hpos).2 (by rwa [mul_comm])
    have hsplit := Int.mul_ediv_add_emod n w
    have := Int.mul_le_mul_of_nonneg_left hdiv hpos.le
    omega

theorem wrap_eq_self_iff (n : Int) : wrap n = n ↔ -2 ^ 63 ≤ n ∧ n < 2 ^ 63 := by
  unfold wrap
  rw [Int.bmod_def]
  omega

theorem truncateInt_of_le (hw : 0 < w) (hle : w ≤ 2 ^ 63) (n : Int) :
    truncateInt (wrap w) n = some (wrap (n - n % w)) := by
  rcases Nat.lt_or_eq_of_le hle with hlt | rfl
  · have hwrap : wrap w = w := (wrap_eq_self_iff _).2 (by omega)
    rw [truncateInt,hwrap,if_neg (by omega)]
  · have hwrap : wrap ((2 ^ 63 : Nat) : Int) = -((2 ^ 63 : Nat) : Int) := by decide
    rw [truncateInt,hwrap,if_neg (by omega),Int.emod_neg]

theorem truncateInt_of_lt (hlt : 2 ^ 63 < w) (hw : w < 2 ^ 64) (hn : 0 ≤ n ∧ n < 2 ^ 63) :
    truncateInt (wrap w) n = some (n - n % (2 ^ 64 - w)) := by
  have hwrap : wrap w = -(2 ^ 64 - w) := by
    unfold wrap
    rw [Int.bmod_def]
    omega
  have hlow := Int.emod_nonneg n (b := 2 ^ 64 - w) (by omega)
  have hhigh := Int.emod_lt_of_pos n (b := 2 ^ 64 - w) (by omega)
  rw [truncateInt,hwrap,if_neg (by omega),Int.emod_neg,(wrap_eq_self_iff _).2 (by omega)]

theorem truncateInt_right_iff (hpos : 0 < w) (hw : w < 2 ^ 64) (hn : -2 ^ 63 ≤ n ∧ n < 2 ^ 63) :
    truncateInt (wrap w) n = some (n - n % w) ↔
      -2 ^ 63 ≤ n - n % w ∧ (w ≤ 2 ^ 63 ∨ n < 2 ^ 64 - w) := by
  have hlow := Int.emod_nonneg n (b := w) (by omega)
  by_cases hle : w ≤ 2 ^ 63
  · rw [truncateInt_of_le hpos hle,some_inj,wrap_eq_self_iff]
    omega
  · by_cases hneg : n < 0
    · -- the multiple below a negative number is the width itself, which is out of range
      have hmod : n % w = n + w := by
        rw [← Int.add_emod_right,Int.emod_eq_of_lt (by omega) (by omega)]
      constructor
      · intro h
        have := truncateInt_range h
        omega
      · omega
    · have hmod : n % w = n := Int.emod_eq_of_lt (by omega) (by omega)
      rw [truncateInt_of_lt (by omega) hw (by omega),some_inj,hmod]
      constructor
      · intro h
        have := Int.emod_lt_of_pos n (b := 2 ^ 64 - w) (by omega)
        omega
      · intro h
        rw [Int.emod_eq_of_lt (by omega) (by omega)]

theorem apply_of_number (hwidth : d.truncateWidth = some w) (h : d.number raw = some n) :
    d.apply raw = (truncateInt (wrap w) n).map toString := by
  simp only [apply,hwidth,h]

theorem apply_of_text (hwidth : d.truncateWidth = some w) (h : d.number raw = none) :
    d.apply raw = some (cut w raw) := by
  simp only [apply,hwidth,h,cut]

theorem cut_cut (w : Nat) (raw : String) : cut w (cut w raw) = cut w raw := by
  rw [cut,cut,String.toList_ofList,List.take_take,Nat.min_self]

theorem toString_int_inj {n k : Int} (h : toString n = toString k) : n = k := by
  have hvalue := signedValue_toString n
  rw [h,signedValue_toString] at hvalue
  exact (Option.some.inj hvalue).symm

theorem apply_cut_iff (hwidth : d.truncateWidth = some w) : d.apply (cut w raw) = some (cut w raw) ↔
    ∀ n, d.number (cut w raw) = some n →
      toString n = cut w raw ∧ truncateInt (wrap w) n = some n := by
  cases hnumber : d.number (cut w raw) with
  | none =>
    rw [apply_of_text hwidth hnumber,cut_cut]
    exact ⟨fun _ n hn => (nomatch hn), fun _ => rfl⟩
  | some n =>
    rw [apply_of_number hwidth hnumber]
    constructor
    · intro h n' hn'
      obtain rfl := Option.some.inj hn'
      obtain ⟨k,hk,htext⟩ := map_eq_some_iff.1 h
      have hread := number_toString (isInteger_of_number hnumber) (truncateInt_range hk)
      rw [htext,hnumber,some_inj] at hread
      subst hread
      exact ⟨htext,hk⟩
    · intro h
      obtain ⟨htext,hk⟩ := h n rfl
      rw [hk,map_some,htext]

theorem truncated_number_iff (hwidth : d.truncateWidth = some w) (hnumber : d.number raw = some n) :
    (∃ t, d.apply raw = some t ∧ d.Truncated w raw t) ↔
      0 < w ∧ -2 ^ 63 ≤ n - n % w ∧ (w ≤ 2 ^ 63 ∨ n < 2 ^ 64 - w) := by
  have hn := number_range hnumber
  have hinteger := isInteger_of_number hnumber
  rw [apply_of_number hwidth hnumber]
  constructor
  · rintro ⟨t,ht,htrunc⟩
    obtain ⟨k,hk,rfl⟩ := map_eq_some_iff.1 ht
    obtain ⟨k',htext,hgreatest⟩ := htrunc.integer n hnumber
    obtain rfl := toString_int_inj htext
    have hpos : 0 < w := by
      refine Nat.pos_of_ne_zero fun h => ?_
      subst h
      cases hk
    rw [hgreatest.unique (isGreatest_multiple hpos n)] at hk
    exact ⟨hpos, (truncateInt_right_iff hpos (width_lt hwidth) hn).1 hk⟩
  · rintro ⟨hpos,hright⟩
    have hk := (truncateInt_right_iff hpos (width_lt hwidth) hn).2 hright
    have hrange := truncateInt_range hk
    have hmultiple : (n - n % w) % w = 0 := Int.emod_eq_zero_of_dvd Int.dvd_self_sub_emod
    have hlow := Int.emod_nonneg n (b := w) (by omega)
    have hagain := (truncateInt_right_iff hpos (width_lt hwidth) hrange).2 (by omega)
    rw [hmultiple,Int.sub_zero] at hagain
    refine ⟨_, by rw [hk,map_some], ?_, ?_, ?_⟩
    · intro n' hn'
      obtain rfl := Option.some.inj (hnumber.symm.trans hn')
      exact ⟨_, rfl, isGreatest_multiple hpos n⟩
    · intro hd
      rw [hd] at hinteger
      cases hinteger
    · rw [apply_of_number hwidth (number_toString hinteger hrange),hagain,map_some]

theorem truncated_iff (hwidth : d.truncateWidth = some w) :
    (∃ t, d.apply raw = some t ∧ d.Truncated w raw t) ↔ d.Truncatable w raw := by
  unfold Truncatable
  cases hnumber : d.number raw with
  | some n => exact truncated_number_iff hwidth hnumber
  | none =>
    rw [apply_of_text hwidth hnumber,← apply_cut_iff hwidth]
    constructor
    · rintro ⟨t,ht,htrunc⟩
      obtain rfl := Option.some.inj ht
      exact htrunc.again
    · intro h
      exact ⟨_, rfl, ⟨fun n hn => (nomatch hnumber.symm.trans hn), fun _ => rfl, h⟩⟩

end PartitionDef

theorem length_transformAll {defs : List PartitionDef} {parts ts : List String}
    (h : transformAll defs parts = some ts) : ts.length = defs.length := by
  induction defs generalizing parts ts with
  | nil =>
    cases h
    rfl
  | cons d defs ih =>
    obtain ⟨t,-,h⟩ := bind_eq_some_iff.1 h
    obtain ⟨rest,hrest,rfl⟩ := map_eq_some_iff.1 h
    rw [List.length_cons,List.length_cons,ih hrest]

theorem length_split_applied {defs : List PartitionDef} {raw v : String} (hdefs : defs ≠ [])
    (h : applyPartitionTransforms defs raw = some v) :
    (splitPartitionValue v).length = defs.length := by
  rw [applyPartitionTransforms,if_neg (by simpa using hdefs)] at h
  obtain ⟨ts,hts,rfl⟩ := map_eq_some_iff.1 h
  have hsep := unitSeparator_not_mem_transformAll hts
    fun part hpart => unitSeparator_not_mem_of_mem_split hpart
  rw [← (joinPartitionValues_eq_iff (transformAll_ne_nil hts hdefs) hsep).1 rfl]
  exact length_transformAll hts

/-- A transform returns what it should exactly for the values that it can truncate; a value of
several columns splits into one component for each. -/
theorem truncate_right_iff {d : PartitionDef} {w : Nat} (hwidth : d.truncateWidth = some w) :
    (∀ raw, (∃ t, d.apply raw = some t ∧ d.Truncated w raw t) ↔ d.Truncatable w raw) ∧
      ∀ defs raw v, defs ≠ [] → applyPartitionTransforms defs raw = some v →
        (splitPartitionValue v).length = defs.length :=
  ⟨fun _ => PartitionDef.truncated_iff hwidth, fun _ _ _ => length_split_applied⟩

theorem truncate_right_demo :
    (∃ t, (PartitionDef.mk "k" "truncate[4]" "string").apply "2025-01" = some t ∧
      (PartitionDef.mk "k" "truncate[4]" "string").Truncated 4 "2025-01" t) ∧
    ∃ t, (PartitionDef.mk "n" "truncate[10]" "long").apply "-7" = some t ∧
      (PartitionDef.mk "n" "truncate[10]" "long").Truncated 10 "-7" t := by
  constructor
  · refine ((truncate_right_iff (by decide)).1 _).2 fun n hn => ?_
    cases hn
  · refine ((truncate_right_iff (by decide)).1 _).2 ?_
    change (0 < 10 ∧ -2 ^ 63 ≤ (-7 : Int) - -7 % 10 ∧ _)
    decide

/-- The least 64-bit number is rounded up to the greatest, a width of 0 panics, and a text cut to a
number is rounded by the next application. -/
theorem truncate_wrong :
    ((PartitionDef.mk "n" "truncate[3]" "long").apply "-9223372036854775808" =
        some "9223372036854775807" ∧
      (PartitionDef.mk "n" "truncate[0]" "long").apply "5" = none ∧
      (PartitionDef.mk "n" "truncate[2]" "long").apply "13x" = some "13" ∧
      (PartitionDef.mk "n" "truncate[2]" "long").apply "13" = some "12") ∧
    ¬∃ t, (PartitionDef.mk "n" "truncate[3]" "long").apply "-9223372036854775808" = some t ∧
      (PartitionDef.mk "n" "truncate[3]" "long").Truncated 3 "-9223372036854775808" t := by
  refine ⟨by decide +kernel, ?_⟩
  rw [PartitionDef.truncated_number_iff (by decide) (by decide : _ = some (-2 ^ 63))]
  decide

end AiLake
