import AiLake.Ranking

/-! Selecting the `k` best in several rounds: what may be left out, and that the `k` best of what
was kept are the `k` best of everything. -/
namespace Ranking

open List

variable {α β : Type} [LinearOrder β] (key : α → β)

/-- A selection that puts the element of rank `k` in its place, the others on their sides. -/
structure SelectNth where
  select : Nat → List α → List α
  perm : ∀ k l, (select k l).Perm l
  parted : ∀ {k l}, k < l.length → ∃ x, (select k l)[k]? = some x ∧
    (∀ a ∈ (select k l).take k, key a ≤ key x) ∧ ∀ a ∈ (select k l).drop k, key x ≤ key a

/-- `m` is left of `l`, and whatever is missing has `k` elements of `m` before it. -/
def Keeps (k : Nat) (l m : List α) : Prop :=
  ∃ rest, l.Perm (m ++ rest) ∧ ∀ a ∈ rest, k ≤ m.countP fun b => key b ≤ key a

variable {key} {k : Nat} {l l' m m' : List α}

theorem map_eq_map_sorted (hm : m.Pairwise fun a b => key a ≤ key b) (hperm : m.Perm l) :
    m.map key = (sorted key l).map key := by
  have hkeys : (m.map key).Pairwise (· ≤ ·) := pairwise_map.2 hm
  have hsorted : ((sorted key l).map key).Pairwise (· ≤ ·) :=
    pairwise_map.2 (pairwise_sorted l)
  exact ((hperm.trans (perm_sorted l).symm).map key).eq_of_pairwise' hkeys hsorted

namespace Keeps

theorem refl (l : List α) : Keeps key k l l :=
  ⟨[], by rw [append_nil], by simp⟩

theorem perm (h : Keeps key k l m) (hl : l'.Perm l) : Keeps key k l' m := by
  obtain ⟨rest,hperm,hrest⟩ := h
  exact ⟨rest, hl.trans hperm, hrest⟩

theorem of_perm (hm : m.Perm l) : Keeps key k l m := (refl m).perm hm.symm

theorem append (h : Keeps key k l m) (h' : Keeps key k l' m') : Keeps key k (l ++ l') (m ++ m') := by
  obtain ⟨rest,hperm,hrest⟩ := h
  obtain ⟨rest',hperm',hrest'⟩ := h'
  refine ⟨rest ++ rest', ?_, fun a ha => ?_⟩
  · have hswap : (m ++ rest ++ (m' ++ rest')).Perm (m ++ m' ++ (rest ++ rest')) := by
      rw [append_assoc,append_assoc]
      exact (perm_append_comm_assoc rest m' rest').append_left m
    exact (hperm.append hperm').trans hswap
  · rw [countP_append]
    rcases mem_append.1 ha with ha | ha
    · exact (hrest a ha).trans (Nat.le_add_right _ _)
    · exact (hrest' a ha).trans (Nat.le_add_left _ _)

theorem trans (h : Keeps key k l m) (h' : Keeps key k m m') : Keeps key k l m' := by
  obtain ⟨rest,hperm,hrest⟩ := h
  obtain ⟨rest',hperm',hrest'⟩ := h'
  refine ⟨rest' ++ rest, ?_, fun a ha => ?_⟩
  · rw [← append_assoc]
    exact hperm.trans (hperm'.append_right rest)
  · rcases mem_append.1 ha with ha | ha
    · exact hrest' a ha
    · -- The elements before `a` are still there, or one of them left for want of room.
      have hcount := hrest a ha
      rw [hperm'.countP_eq,countP_append] at hcount
      by_cases hnone : rest'.countP (fun b => key b ≤ key a) = 0
      · omega
      · obtain ⟨b,hb,hba⟩ := countP_pos_iff.1 (Nat.pos_of_ne_zero hnone)
        have hba : key b ≤ key a := by simpa using hba
        refine (hrest' b hb).trans (countP_mono_left fun c _ hc => ?_)
        simp only [decide_eq_true_eq] at hc ⊢
        exact hc.trans hba

theorem map_eq_take (h : Keeps key k l m) (hlen : m.length ≤ k)
    (hm : m.Pairwise fun a b => key a ≤ key b) :
    m.map key = ((sorted key l).take k).map key := by
  obtain ⟨rest,hperm,hrest⟩ := h
  have hbelow : ∀ b ∈ m, ∀ a ∈ rest, key b ≤ key a := by
    intro b hb a ha
    have hall : m.countP (fun b => key b ≤ key a) = m.length :=
      le_antisymm countP_le_length (hlen.trans (hrest a ha))
    simpa using countP_eq_length.1 hall b hb
  have hsorted : (m ++ sorted key rest).Pairwise fun a b => key a ≤ key b :=
    pairwise_append.2
      ⟨hm, pairwise_sorted rest, fun b hb a ha => hbelow b hb a (mem_sorted.1 ha)⟩
  have hall : (m ++ sorted key rest).Perm l := ((perm_sorted rest).append_left m).trans hperm.symm
  rw [map_take,← map_eq_map_sorted hsorted hall,map_append]
  rcases rest with _ | ⟨a,rest⟩
  · rw [take_of_length_le]
    · simp [sorted]
    · simpa [sorted] using hlen
  · have hfull : (m.map key).length = k := by
      rw [length_map]
      exact le_antisymm hlen ((hrest a mem_cons_self).trans countP_le_length)
    rw [take_append_of_le_length hfull.ge,take_of_length_le hfull.le]

end Keeps

theorem SelectNth.keeps_take (s : SelectNth key) (hlen : k < l.length) :
    Keeps key k l ((s.select k l).take k) := by
  obtain ⟨x,-,hbefore,hafter⟩ := s.parted hlen
  refine ⟨(s.select k l).drop k, ?_, fun a ha => ?_⟩
  · rw [take_append_drop]
    exact (s.perm k l).symm
  · have hall : ∀ b ∈ (s.select k l).take k, decide (key b ≤ key a) = true := fun b hb =>
      decide_eq_true ((hbefore b hb).trans (hafter a ha))
    rw [countP_eq_length.2 hall,length_take,(s.perm k l).length_eq]
    exact le_min le_rfl hlen.le

/-- A whole sort puts every element in its place. -/
def SelectNth.stable : SelectNth key where
  select _ l := sorted key l
  perm _ l := perm_sorted l
  parted {k l} hlen := by
    have hlen : k < (sorted key l).length := by rwa [(perm_sorted l).length_eq]
    have hordered : (sorted key l).Pairwise fun a b => key a ≤ key b := pairwise_sorted l
    rw [← take_append_drop k (sorted key l), pairwise_append,
      drop_eq_getElem_cons hlen] at hordered
    refine ⟨(sorted key l)[k], getElem?_eq_getElem hlen,
      fun a ha => hordered.2.2 a ha _ mem_cons_self, fun a ha => ?_⟩
    rw [drop_eq_getElem_cons hlen] at ha
    cases ha with
    | head => exact le_rfl
    | tail _ ha => exact (pairwise_cons.1 hordered.2.1).1 a ha

end Ranking
