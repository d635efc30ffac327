import Mathlib.Data.List.Sort
import Mathlib.Data.Prod.Lex

/-! The first `k` of a list in the order of a key: by a stable sort, and by one that leaves the
order of equal keys open. -/
namespace Ranking

open List

variable {α β : Type} [LinearOrder β] (key : α → β)

def sorted (l : List α) : List α := l.insertionSort fun a b => key a ≤ key b

/-- How many come before an element that stands between `before` and `after`. -/
def rank (before : List α) (a : α) (after : List α) : Nat :=
  before.countP (fun b => key b ≤ key a) + after.countP fun b => key b < key a

/-- A sort that may put equal keys in any order. -/
structure UnstableSort where
  sort : List α → List α
  perm : ∀ l, (sort l).Perm l
  ordered : ∀ l, (sort l).Pairwise fun a b => key a ≤ key b

variable {key}

theorem perm_sorted (l : List α) : (sorted key l).Perm l := perm_insertionSort _ l

theorem mem_sorted {l : List α} {a : α} : a ∈ sorted key l ↔ a ∈ l := (perm_sorted l).mem_iff

theorem pairwise_sorted (l : List α) : (sorted key l).Pairwise fun a b => key a ≤ key b := by
  have : Std.Total fun a b : α => key a ≤ key b := ⟨fun a b => le_total _ _⟩
  have : IsTrans α fun a b => key a ≤ key b := ⟨fun a b c => le_trans⟩
  exact pairwise_insertionSort _ l

theorem getElem?_orderedInsert {s : List α} (hs : s.Pairwise fun a b => key a ≤ key b) (a x : α)
    (j : Nat) : (s.orderedInsert (fun a b => key a ≤ key b) a)[j]? = some x ↔
      (a = x ∧ s.countP (fun b => key b < key a) = j) ∨
        ∃ i, s[i]? = some x ∧ i + (if key a ≤ key x then 1 else 0) = j := by
  induction s generalizing j with
  | nil => cases j <;> simp
  | cons b s ih =>
    obtain ⟨hb,hs⟩ := pairwise_cons.1 hs
    rcases le_or_gt (key a) (key b) with hab | hba
    · -- Everything in the list is at least as large.
      have hle (y : α) (hy : y ∈ b :: s) : key a ≤ key y := by
        cases hy with
        | head => exact hab
        | tail _ hy => exact hab.trans (hb y hy)
      have hcount : (b :: s).countP (fun b => key b < key a) = 0 :=
        countP_eq_zero.2 fun y hy => by simpa using hle y hy
      have hinsert : (b :: s).orderedInsert (fun a b => key a ≤ key b) a = a :: b :: s := if_pos hab
      rw [hinsert,hcount]
      cases j with
      | zero =>
        simp only [getElem?_cons_zero,Option.some.injEq,and_true]
        refine ⟨Or.inl,?_⟩
        rintro (h | ⟨i,hi,hj⟩)
        · exact h
        · simp [hle x (mem_of_getElem? hi)] at hj
      | succ j =>
        simp only [getElem?_cons_succ]
        constructor
        · intro h
          exact .inr ⟨j, h, by simp [hle x (mem_of_getElem? h)]⟩
        · rintro (⟨_,hj⟩ | ⟨i,hi,hj⟩)
          · simp at hj
          · have hx := hle x (mem_of_getElem? hi)
            rw [if_pos hx] at hj
            obtain rfl : i = j := by omega
            exact hi
    · have hinsert : (b :: s).orderedInsert (fun a b => key a ≤ key b) a =
          b :: s.orderedInsert (fun a b => key a ≤ key b) a := if_neg hba.not_ge
      rw [hinsert,countP_cons,if_pos (by simpa using hba)]
      cases j with
      | zero =>
        simp only [getElem?_cons_zero,Option.some.injEq]
        constructor
        · rintro rfl
          exact .inr ⟨0, by simp, by simp [hba]⟩
        · rintro (⟨_,h⟩ | ⟨i,hi,hj⟩)
          · omega
          · obtain rfl : i = 0 := by omega
            simpa using hi
      | succ j =>
        rw [getElem?_cons_succ,ih hs]
        refine or_congr (and_congr_right' (by omega)) ⟨?_,?_⟩
        · rintro ⟨i,hi,rfl⟩
          exact ⟨i + 1, hi, by omega⟩
        · rintro ⟨i,hi,hj⟩
          cases i with
          | zero =>
            obtain rfl : b = x := by simpa using hi
            rw [if_neg hba.not_ge] at hj
            omega
          | succ i => exact ⟨i, hi, by omega⟩

theorem getElem?_sorted (l : List α) (x : α) (j : Nat) : (sorted key l)[j]? = some x ↔
    ∃ before after, l = before ++ x :: after ∧ rank key before x after = j := by
  induction l generalizing j with
  | nil => simp [sorted]
  | cons a l ih =>
    have hcount : (sorted key l).countP (fun b => key b < key a) =
        l.countP fun b => key b < key a := (perm_sorted l).countP_eq _
    have hcons : sorted key (a :: l) =
        (sorted key l).orderedInsert (fun a b => key a ≤ key b) a := rfl
    rw [hcons,getElem?_orderedInsert (pairwise_sorted l),hcount]
    constructor
    · rintro (⟨rfl,hj⟩ | ⟨i,hi,hj⟩)
      · exact ⟨[], l, rfl, by simpa [rank] using hj⟩
      · obtain ⟨before,after,rfl,hrank⟩ := (ih i).1 hi
        refine ⟨a :: before, after, rfl, ?_⟩
        simp only [rank,countP_cons,decide_eq_true_eq] at hrank ⊢
        omega
    · rintro ⟨before,after,hl,hrank⟩
      cases before with
      | nil =>
        obtain ⟨rfl,rfl⟩ := List.cons.inj hl
        exact .inl ⟨rfl, by simpa [rank] using hrank⟩
      | cons b before =>
        obtain ⟨rfl,rfl⟩ := List.cons.inj hl
        refine .inr ⟨rank key before x after, (ih _).2 ⟨before,after,rfl,rfl⟩, ?_⟩
        simp only [rank,countP_cons,decide_eq_true_eq] at hrank ⊢
        omega

theorem forall_mem_take_sorted {l : List α} {k : Nat} {P : α → Prop} :
    (∀ x ∈ (sorted key l).take k, P x) ↔
      ∀ before x after, l = before ++ x :: after → ¬P x → k ≤ rank key before x after := by
  constructor
  · intro h before x after hl hx
    by_contra hk
    have hget : (sorted key l)[rank key before x after]? = some x :=
      (getElem?_sorted l x _).2 ⟨before,after,hl,rfl⟩
    refine hx (h x (mem_of_getElem? (i := rank key before x after) ?_))
    rw [getElem?_take_of_lt (by omega),hget]
  · intro h x hx
    by_contra hP
    obtain ⟨j,hj⟩ := getElem?_of_mem hx
    rw [getElem?_take] at hj
    split at hj
    · obtain ⟨before,after,hl,hrank⟩ := (getElem?_sorted l x j).1 hj
      have := h before x after hl hP
      omega
    · cases hj

def UnstableSort.stable : UnstableSort key := ⟨sorted key, perm_sorted, pairwise_sorted⟩

theorem UnstableSort.countP_lt_of_mem_take (s : UnstableSort key) {l : List α} {k : Nat} {a : α}
    (h : a ∈ (s.sort l).take k) : l.countP (fun b => key b < key a) < k := by
  obtain ⟨before,after,hsplit⟩ := append_of_mem h
  have hlen : before.length < k := by
    have htake := congrArg List.length hsplit
    simp only [length_take,length_append,length_cons] at htake
    omega
  have hsort : s.sort l = before ++ a :: (after ++ (s.sort l).drop k) := by
    have happend := take_append_drop k (s.sort l)
    rw [hsplit] at happend
    simpa using happend.symm
  have hordered := s.ordered l
  rw [hsort,pairwise_append,pairwise_cons] at hordered
  -- Nothing from the element on is smaller.
  have hrest : (a :: (after ++ (s.sort l).drop k)).countP (fun b => key b < key a) = 0 := by
    refine countP_eq_zero.2 fun b hb => ?_
    cases hb with
    | head => simp
    | tail _ hb => simpa using hordered.2.1.1 b hb
  calc l.countP (fun b => key b < key a)
      = (s.sort l).countP (fun b => key b < key a) := ((s.perm l).countP_eq _).symm
    _ = before.countP (fun b => key b < key a) := by rw [hsort,countP_append,hrest,Nat.add_zero]
    _ ≤ before.length := countP_le_length
    _ < k := hlen

/-- A key that puts `a` first among the elements with its key. -/
def preferring [DecidableEq α] (key : α → β) (a b : α) : β ×ₗ Nat :=
  toLex (key b, if b = a then 0 else 1)

theorem key_le_of_preferring [DecidableEq α] {a b c : α}
    (h : preferring key a b ≤ preferring key a c) : key b ≤ key c := by
  cases Prod.Lex.le_iff.1 h with
  | inl hlt => exact le_of_lt hlt
  | inr heq => exact heq.1.le

def UnstableSort.preferring [DecidableEq α] (key : α → β) (a : α) : UnstableSort key :=
  ⟨sorted (Ranking.preferring key a), perm_sorted,
    fun l => (pairwise_sorted l).imp key_le_of_preferring⟩

/-- An element with fewer than `k` smaller keys is one of the first `k` of some sort. -/
theorem UnstableSort.exists_mem_take [DecidableEq α] {l : List α} {k : Nat} {a : α} (ha : a ∈ l)
    (h : l.countP (fun b => key b < key a) < k) :
    ∃ s : UnstableSort key, a ∈ (s.sort l).take k := by
  refine ⟨preferring key a, ?_⟩
  have hperm := (preferring key a).perm l
  obtain ⟨before,after,hsplit,hfirst⟩ := eq_append_cons_of_mem (hperm.mem_iff.2 ha)
  have hordered : ((preferring key a).sort l).Pairwise fun b c =>
      Ranking.preferring key a b ≤ Ranking.preferring key a c :=
    @pairwise_sorted _ _ _ (Ranking.preferring key a) l
  rw [hsplit,pairwise_append] at hordered
  have hbefore (b : α) (hb : b ∈ before) : key b < key a := by
    have hne : b ≠ a := fun he => hfirst (he ▸ hb)
    cases Prod.Lex.le_iff.1 (hordered.2.2 b hb a mem_cons_self) with
    | inl hlt => exact hlt
    | inr heq => simp [Ranking.preferring,hne] at heq
  have hlen : before.length < k := by
    calc before.length = before.countP (fun b => key b < key a) :=
          (countP_eq_length.2 fun b hb => by simpa using hbefore b hb).symm
      _ ≤ ((preferring key a).sort l).countP (fun b => key b < key a) := by
          rw [hsplit,countP_append]
          exact Nat.le_add_right _ _
      _ = l.countP (fun b => key b < key a) := hperm.countP_eq _
      _ < k := h
  rw [hsplit,take_append,take_of_length_le hlen.le]
  obtain ⟨j,hj⟩ := Nat.exists_eq_add_of_lt hlen
  have hk : k - before.length = j + 1 := by omega
  rw [hk,take_succ_cons]
  exact mem_append_right _ mem_cons_self

end Ranking
