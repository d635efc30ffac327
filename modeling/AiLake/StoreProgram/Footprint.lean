import AiLake.StoreProgram.Basic

/-! Programs that keep to a part of the store: it is closed under the references that they follow,
and grows by what they write. -/
namespace StoreProgram

universe u

variable {K V E : Type} {α β : Type u} {op : Op K V}

/-- The names that an object refers to, and where a program may write and lock. -/
structure Footprint (K V : Type) where
  refs : V → Set K
  writes : Set K
  locks : Set K

namespace Footprint

variable {F : Footprint K V} {S S' : Set K} {o : K → Option V}

/-- The objects of `S` refer to names of `S`. -/
def Closed (F : Footprint K V) (S : Set K) (objects : K → Option V) : Prop :=
  ∀ k ∈ S, ∀ v, objects k = some v → F.refs v ⊆ S

theorem Closed.congr {o' : K → Option V} (h : F.Closed S o) (heq : ∀ k ∈ S, o' k = o k) :
    F.Closed S o' := by
  intro k hk v hv
  exact h k hk v ((heq k hk).symm.trans hv)

theorem Closed.update [DecidableEq K] {k : K} {v : V} (h : F.Closed S o) (hv : F.refs v ⊆ S) :
    F.Closed (insert k S) (Function.update o k (some v)) := by
  intro k' hk' v' hv'
  have hrefs : F.refs v' ⊆ S := by
    by_cases heq : k' = k
    · subst heq
      rw [Function.update_self] at hv'
      cases hv'
      exact hv
    · rw [Function.update_of_ne heq] at hv'
      exact h k' (Set.mem_of_mem_insert_of_ne hk' heq) v' hv'
  exact hrefs.trans (Set.subset_insert k S)

/-- The calls that a program with this footprint makes once it knows the names `S`. -/
def Allows (F : Footprint K V) (S : Set K) : Op K V → Prop
  | .get k | .head k => k ∈ S
  | .put k v => k ∈ F.writes ∧ F.refs v ⊆ S
  | .delete _ => False
  | .tryLock k | .unlock k => k ∈ F.locks
  | .enter | .leave => True

/-- The answers that it may count on. -/
def Expects (F : Footprint K V) (S : Set K) : (op : Op K V) → op.Reply → Prop
  | .get _, r => ∀ v, r = some v → F.refs v ⊆ S
  | .head _, _ | .put _ _, _ | .delete _, _ | .tryLock _, _ | .unlock _, _ | .enter, _ | .leave, _ =>
    True

/-- What it knows after an answer. -/
def track (S : Set K) : (op : Op K V) → op.Reply → Set K
  | .put k _, r => {k' | k' ∈ S ∨ r = true ∧ k' = k}
  | .get _, _ | .head _, _ | .delete _, _ | .tryLock _, _ | .unlock _, _ | .enter, _ | .leave, _ => S

theorem subset_track (S : Set K) (op : Op K V) (r : op.Reply) : S ⊆ track S op r := by
  cases op with
  | put k v => exact fun k' hk' => .inl hk'
  | _ => exact subset_rfl

end Footprint

open Footprint

/-- The program keeps to its footprint from the names `S` on, and returns what `Q` says, for the
names it then knows. -/
def Prog.Within (F : Footprint K V) : Prog K V E α → Set K → (α → Set K → Prop) → Prop
  | .done a, S, Q => Q a S
  | .fail _, _, _ => True
  | .call op next, S, Q =>
    F.Allows S op ∧ ∀ r, F.Expects S op r → (next r).Within F (track S op r) Q

namespace Prog

variable {F : Footprint K V} {S S' : Set K} {Q : α → Set K → Prop} {k : K} {p : Prog K V E α}

theorem within_pure {a : α} (h : Q a S) : (pure a : Prog K V E α).Within F S Q := h

theorem within_fail (e : E) : (fail e : Prog K V E α).Within F S Q := trivial

theorem Within.mono {Q' : α → Set K → Prop} (h : p.Within F S Q)
    (hQ : ∀ a S', S ⊆ S' → Q a S' → Q' a S') : p.Within F S Q' := by
  induction p generalizing S with
  | done a => exact hQ a S subset_rfl h
  | fail e => trivial
  | call op next ih =>
    refine ⟨h.1, fun r hr => ih r (h.2 r hr) fun a S' hS' => hQ a S' ?_⟩
    exact (subset_track S op r).trans hS'

theorem Within.bind {f : α → Prog K V E β} {Q' : β → Set K → Prop} (hp : p.Within F S Q)
    (hf : ∀ a S', S ⊆ S' → Q a S' → (f a).Within F S' Q') : (p >>= f).Within F S Q' := by
  induction p generalizing S with
  | done a => exact hf a S subset_rfl hp
  | fail e => trivial
  | call op next ih =>
    refine ⟨hp.1, fun r hr => ih r (hp.2 r hr) fun a S' hS' => hf a S' ?_⟩
    exact (subset_track S op r).trans hS'

theorem Within.attempt (h : p.Within F S fun _ _ => True) :
    p.attempt.Within F S fun _ _ => True := by
  induction p generalizing S with
  | done a => trivial
  | fail e => trivial
  | call op next ih => exact ⟨h.1, fun r hr => ih r (h.2 r hr)⟩

theorem within_get (hk : k ∈ S) : (get k : Prog K V E (Option V)).Within F S
    fun r S' => S' = S ∧ ∀ v, r = some v → F.refs v ⊆ S :=
  ⟨hk, fun _ hr => ⟨rfl,hr⟩⟩

theorem within_head (hk : k ∈ S) : (head k : Prog K V E Bool).Within F S fun _ S' => S' = S :=
  ⟨hk, fun _ _ => rfl⟩

theorem within_put {v : V} (hk : k ∈ F.writes) (hv : F.refs v ⊆ S) :
    (put k v : Prog K V E Bool).Within F S fun r S' => r = true → k ∈ S' :=
  ⟨⟨hk,hv⟩, fun _ _ hr => .inr ⟨hr,rfl⟩⟩

theorem within_unlock (hk : k ∈ F.locks) :
    (unlock k : Prog K V E Bool).Within F S fun _ _ => True :=
  ⟨hk, fun _ _ => trivial⟩

theorem within_leave : (leave : Prog K V E Unit).Within F S fun _ _ => True :=
  ⟨trivial, fun _ _ => trivial⟩

end Prog

variable [DecidableEq K] {F : Footprint K V} {S : Set K} {w w' : World K V}

theorem Footprint.Allows.perform (hop : F.Allows S op) (hclosed : F.Closed S w.objects) :
    F.Expects S op (op.perform w).1 ∧ F.Closed (track S op (op.perform w).1) (op.perform w).2.objects ∧
      (∀ k ∉ F.writes, (op.perform w).2.objects k = w.objects k) ∧
      track S op (op.perform w).1 ⊆ S ∪ F.writes := by
  cases op with
  | get k =>
    refine ⟨fun v hv => ?_, hclosed, fun _ _ => rfl, Set.subset_union_left⟩
    cases hfault : w.faults 0 with
    | true => simp [Op.perform,hfault] at hv
    | false => exact hclosed k hop v (by simpa [Op.perform,hfault] using hv)
  | head k => exact ⟨trivial, hclosed, fun _ _ => rfl, Set.subset_union_left⟩
  | put k v =>
    cases hfault : w.faults 0 with
    | true =>
      simp only [Op.perform,hfault,if_true,track,Bool.false_eq_true,false_and,or_false]
      exact ⟨trivial, hclosed, fun _ _ => rfl, Set.subset_union_left⟩
    | false =>
      have htrack : track S (.put k v) true = insert k S := by
        ext k'
        simp [track,or_comm]
      simp only [Op.perform,hfault,Bool.false_eq_true,if_false,htrack]
      refine ⟨trivial, hclosed.update hop.2, fun k' hk' => ?_, ?_⟩
      · exact Function.update_of_ne (ne_of_mem_of_not_mem hop.1 hk').symm _ _
      · exact Set.insert_subset (.inr hop.1) Set.subset_union_left
  | delete k => exact absurd hop id
  | tryLock k =>
    have hobj : ((Op.tryLock k).perform w).2.objects = w.objects := by
      simp only [Op.perform]
      split
      · rfl
      · split <;> rfl
    exact ⟨trivial, hobj.symm ▸ hclosed, fun _ _ => by rw [hobj], Set.subset_union_left⟩
  | unlock k =>
    have hobj : ((Op.unlock k).perform w).2.objects = w.objects := by
      simp only [Op.perform]
      split <;> rfl
    exact ⟨trivial, hobj.symm ▸ hclosed, fun _ _ => by rw [hobj], Set.subset_union_left⟩
  | enter => exact ⟨trivial, hclosed, fun _ _ => rfl, Set.subset_union_left⟩
  | leave => exact ⟨trivial, hclosed, fun _ _ => rfl, Set.subset_union_left⟩

theorem Footprint.Allows.perform_congr (hop : F.Allows S op) (hlocks : F.locks = ∅)
    (hfaults : w'.faults = w.faults) (hagree : ∀ k ∈ S, w'.objects k = w.objects k) :
    (op.perform w').1 = (op.perform w).1 ∧
      ∀ k ∈ track S op (op.perform w).1, (op.perform w').2.objects k = (op.perform w).2.objects k := by
  have hnone {k : K} (hk : k ∈ F.locks) : False := by
    rw [hlocks] at hk
    exact hk
  cases op with
  | get k => exact ⟨by simp only [Op.perform,hfaults,hagree k hop], hagree⟩
  | head k => exact ⟨by simp only [Op.perform,hfaults,hagree k hop], hagree⟩
  | put k v =>
    cases hfault : w.faults 0 with
    | true =>
      simp only [Op.perform,hfaults,hfault,if_true,track,Bool.false_eq_true,false_and,or_false]
      exact ⟨trivial,hagree⟩
    | false =>
      simp only [Op.perform,hfaults,hfault,Bool.false_eq_true,if_false]
      refine ⟨trivial, fun k' hk' => ?_⟩
      by_cases heq : k' = k
      · subst heq
        simp [World.write]
      · have hk : k' ∈ S := hk'.resolve_right fun h => heq h.2
        simpa [World.write,heq] using hagree k' hk
  | delete k => exact absurd hop id
  | tryLock k => exact (hnone hop).elim
  | unlock k => exact (hnone hop).elim
  | enter => exact ⟨rfl,hagree⟩
  | leave => exact ⟨rfl,hagree⟩

theorem Footprint.Allows.perform_objects (hop : F.Allows S op) (k : K) :
    (op.perform w).2.objects k = w.objects k ∨ k ∈ track S op (op.perform w).1 := by
  cases op with
  | put k' v =>
    cases hfault : w.faults 0 with
    | true =>
      left
      simp [Op.perform,hfault]
    | false =>
      by_cases heq : k = k'
      · right
        simp [Op.perform,hfault,track,heq]
      · left
        simp [Op.perform,hfault,World.write,heq]
  | delete k' => exact absurd hop id
  | tryLock k' =>
    left
    simp only [Op.perform]
    split
    · rfl
    · split <;> rfl
  | unlock k' =>
    left
    simp only [Op.perform]
    split <;> rfl
  | _ => exact .inl rfl

theorem Footprint.Allows.perform_isSome (hop : F.Allows S op) {k : K} (hk : w.objects k ≠ none) :
    (op.perform w).2.objects k ≠ none := by
  cases op with
  | put k' v =>
    simp only [Op.perform]
    split
    · exact hk
    · by_cases heq : k = k'
      · subst heq
        simp [World.write]
      · simpa [World.write,heq] using hk
  | delete k' => exact absurd hop id
  | tryLock k' =>
    simp only [Op.perform]
    split
    · exact hk
    · split <;> exact hk
  | unlock k' =>
    simp only [Op.perform]
    split <;> exact hk
  | _ => exact hk

theorem Prog.Within.run {p : Prog K V E α} {Q : α → Set K → Prop} (h : p.Within F S Q)
    (hclosed : F.Closed S w.objects) :
    (∀ k ∉ F.writes, (p.run w).2.objects k = w.objects k) ∧
      ∃ S', S ⊆ S' ∧ S' ⊆ S ∪ F.writes ∧ F.Closed S' (p.run w).2.objects ∧
        ∀ a, (p.run w).1 = .ok a → Q a S' := by
  induction p generalizing S w with
  | done a =>
    refine ⟨fun _ _ => rfl, S, subset_rfl, Set.subset_union_left, hclosed, fun b hb => ?_⟩
    cases hb
    exact h
  | fail e => exact ⟨fun _ _ => rfl, S, subset_rfl, Set.subset_union_left, hclosed, fun _ ha => nomatch ha⟩
  | call op next ih =>
    obtain ⟨hexpects,hclosed',hoff,hsub⟩ := h.1.perform hclosed
    obtain ⟨hoff',S',hS',hS'sub,hrest⟩ := ih _ (h.2 _ hexpects) hclosed'
    refine ⟨fun k hk => (hoff' k hk).trans (hoff k hk), S', ?_, ?_, hrest⟩
    · exact (subset_track S op _).trans hS'
    · exact hS'sub.trans (Set.union_subset hsub Set.subset_union_right)

theorem Prog.Within.run_congr {p : Prog K V E α} {Q : α → Set K → Prop} (h : p.Within F S Q)
    (hread : p.ReadOnly) (hclosed : F.Closed S w.objects) (hfaults : w'.faults = w.faults)
    (hagree : ∀ k ∈ S, w'.objects k = w.objects k) : (p.run w').1 = (p.run w).1 := by
  induction p generalizing w w' with
  | done a => rfl
  | fail e => rfl
  | call op next ih =>
    have htick : w'.tick.faults = w.tick.faults := by
      funext n
      rw [World.tick_faults,World.tick_faults,hfaults]
    cases op with
    | get k =>
      have hreply : ((Op.get k).perform w').1 = ((Op.get k).perform w).1 := by
        simp only [Op.perform,hfaults,hagree k h.1]
      have hrest := h.2 _ (Allows.perform h.1 hclosed).1
      simp only [Prog.run,hreply]
      exact ih _ hrest (hread _) hclosed htick hagree
    | head k =>
      have hreply : ((Op.head k).perform w').1 = ((Op.head k).perform w).1 := by
        simp only [Op.perform,hfaults,hagree k h.1]
      have hrest := h.2 _ (Allows.perform h.1 hclosed).1
      simp only [Prog.run,hreply]
      exact ih _ hrest (hread _) hclosed htick hagree
    | _ => exact absurd hread id

end StoreProgram
