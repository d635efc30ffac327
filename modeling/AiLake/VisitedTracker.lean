import Mathlib.Data.List.Basic

/-! The visited marks of a thread: a node is marked by the number of the search that visited it, so
nothing is cleared until the numbers wrap around. -/
namespace AiLake

open List

/-- The search in which each node was visited last, and the number of the present one. -/
structure VisitedTracker where
  gen : List UInt32
  current : UInt32

namespace VisitedTracker

def init : VisitedTracker := ⟨[], 0⟩

def prepare (t : VisitedTracker) (n : Nat) : VisitedTracker :=
  let gen := if t.gen.length < n then t.gen ++ replicate (n - t.gen.length) 0 else t.gen
  if t.current + 1 = 0 then ⟨gen.map fun _ => 0, 1⟩ else ⟨gen, t.current + 1⟩

/-- Whether the node is new to this search. The vector is read without a check: `none` stands for an
access outside of it. -/
def visit (t : VisitedTracker) (idx : Nat) : Option (Bool × VisitedTracker) :=
  t.gen[idx]?.map fun slot =>
    if slot = t.current then (false, t) else (true, { t with gen := t.gen.set idx t.current })

inductive Call where
  | prepare (n : Nat)
  | visit (idx : Nat)

def Call.run (t : VisitedTracker) : Call → Option VisitedTracker
  | .prepare n => some (t.prepare n)
  | .visit idx => (t.visit idx).map Prod.snd

/-- What a caller knows: the size of the latest `prepare` and the nodes visited since. -/
structure Search where
  size : Nat
  visited : List Nat

def Search.after (s : Search) : Call → Search
  | .prepare n => ⟨n, []⟩
  | .visit idx => ⟨s.size, idx :: s.visited⟩

def search (calls : List Call) : Search := calls.foldl Search.after ⟨0, []⟩

def Ranged : Search → List Call → Prop
  | _, [] => True
  | s, call :: rest => (∀ idx, call = .visit idx → idx < s.size) ∧ Ranged (s.after call) rest

/-- The marks of the present number are the nodes of the search; no mark has a later number. -/
structure Marks (t : VisitedTracker) (s : Search) : Prop where
  size : s.size ≤ t.gen.length
  le : ∀ slot ∈ t.gen, slot ≤ t.current
  marked : ∀ i, t.gen[i]? = some t.current ↔ i ∈ s.visited

variable {t : VisitedTracker} {s : Search} {idx : Nat}

theorem marks_init : Marks init ⟨0, []⟩ :=
  ⟨Nat.le_refl 0, by simp [init], by simp [init]⟩

theorem marks_of_lt {gen : List UInt32} {current : UInt32} {n : Nat} (hn : n ≤ gen.length)
    (hlt : ∀ slot ∈ gen, slot < current) : Marks ⟨gen, current⟩ ⟨n, []⟩ := by
  refine ⟨hn, fun slot hslot => UInt32.le_of_lt (hlt slot hslot), fun i => ?_⟩
  have hne : gen[i]? ≠ some current := fun hi => UInt32.lt_irrefl _ (hlt _ (mem_of_getElem? hi))
  simp [hne]

theorem Marks.prepare (h : Marks t s) (n : Nat) : Marks (t.prepare n) ⟨n, []⟩ := by
  obtain ⟨gen,hgen⟩ : ∃ gen, gen =
      if t.gen.length < n then t.gen ++ replicate (n - t.gen.length) 0 else t.gen := ⟨_,rfl⟩
  have hlen : n ≤ gen.length := by
    rw [hgen]
    split
    · rw [length_append,length_replicate]
      omega
    · omega
  have hle : ∀ slot ∈ gen, slot ≤ t.current := by
    intro slot hslot
    rw [hgen] at hslot
    split at hslot
    · cases mem_append.1 hslot with
      | inl hold => exact h.le slot hold
      | inr hnew =>
        rw [eq_of_mem_replicate hnew]
        exact UInt32.zero_le
    · exact h.le slot hslot
  rw [VisitedTracker.prepare,← hgen]
  split
  · -- the numbers start again, and no mark is left
    refine marks_of_lt (by simpa using hlen) fun slot hslot => ?_
    obtain ⟨_,-,rfl⟩ := mem_map.1 hslot
    decide
  · rename_i hwrap
    refine marks_of_lt hlen fun slot hslot => ?_
    have hnat : t.current.toNat + 1 < 2 ^ 32 := by
      have hlt := t.current.toNat_lt
      by_contra hmax
      refine hwrap (UInt32.toNat_inj.1 ?_)
      rw [UInt32.toNat_add]
      change (t.current.toNat + 1) % 2 ^ 32 = 0
      omega
    have hslot' := UInt32.le_iff_toNat_le.1 (hle slot hslot)
    rw [UInt32.lt_iff_toNat_lt,UInt32.toNat_add]
    change slot.toNat < (t.current.toNat + 1) % 2 ^ 32
    omega

theorem Marks.visit (h : Marks t s) (hidx : idx < s.size) : ∃ t',
    t.visit idx = some (decide (idx ∉ s.visited), t') ∧ Marks t' ⟨s.size, idx :: s.visited⟩ := by
  have hlen : idx < t.gen.length := Nat.lt_of_lt_of_le hidx h.size
  rw [VisitedTracker.visit,getElem?_eq_getElem hlen,Option.map_some]
  by_cases hmark : t.gen[idx] = t.current
  · have hmem : idx ∈ s.visited := (h.marked idx).1 (by rw [getElem?_eq_getElem hlen,hmark])
    rw [if_pos hmark]
    refine ⟨t, by simp [hmem], h.size, h.le, fun i => ?_⟩
    rw [h.marked,mem_cons]
    exact ⟨.inr, fun hi => hi.elim (fun heq => heq ▸ hmem) id⟩
  · have hmem : idx ∉ s.visited := by
      intro hmem
      have hget := (h.marked idx).2 hmem
      rw [getElem?_eq_getElem hlen] at hget
      exact hmark (Option.some.inj hget)
    rw [if_neg hmark]
    refine ⟨{ t with gen := t.gen.set idx t.current }, by simp [hmem], ?_, ?_, fun i => ?_⟩
    · rw [length_set]
      exact h.size
    · intro slot hslot
      cases mem_or_eq_of_mem_set hslot with
      | inl hold => exact h.le slot hold
      | inr hnew => exact hnew ▸ UInt32.le_refl _
    · rw [mem_cons]
      by_cases hi : i = idx
      · subst hi
        simp [getElem?_set_self hlen]
      · rw [getElem?_set_ne (Ne.symm hi),h.marked]
        simp [hi]

theorem Marks.run (h : Marks t s) {calls : List Call} (hcalls : Ranged s calls) : ∃ t',
    calls.foldlM Call.run t = some t' ∧ Marks t' (calls.foldl Search.after s) := by
  induction calls generalizing t s with
  | nil => exact ⟨t,rfl,h⟩
  | cons call rest ih =>
    obtain ⟨hcall,hrest⟩ := hcalls
    cases call with
    | prepare n => exact ih (h.prepare n) hrest
    | visit idx =>
      obtain ⟨t',hvisit,hmarks⟩ := h.visit (hcall idx rfl)
      obtain ⟨u,hu,hmarks'⟩ := ih hmarks hrest
      refine ⟨u,?_,hmarks'⟩
      rw [foldlM_cons,Call.run,hvisit]
      exact hu

/-- After any calls, the tracker is there, and a visit tells whether the node is new since the latest
`prepare`, however many there were. -/
theorem visit_exact {calls : List Call} (hcalls : Ranged ⟨0, []⟩ calls) :
    ∃ t, calls.foldlM Call.run init = some t ∧ ∀ idx < (search calls).size, ∃ t',
      t.visit idx = some (decide (idx ∉ (search calls).visited), t') := by
  obtain ⟨t,ht,hmarks⟩ := marks_init.run hcalls
  refine ⟨t, ht, fun idx hidx => ?_⟩
  obtain ⟨t',ht',-⟩ := hmarks.visit hidx
  exact ⟨t',ht'⟩

theorem visit_exact_reused : ∃ t,
    [Call.prepare 3, .visit 2, .prepare 2, .visit 1].foldlM Call.run init = some t ∧
      ∀ idx < 2, ∃ t', t.visit idx = some (decide (idx ∉ [1]), t') :=
  visit_exact (by simp [Ranged,Search.after])

end VisitedTracker
end AiLake
