import Mathlib.Data.List.Basic
import Mathlib.Data.List.Nodup
import Mathlib.Data.List.Perm.Subperm
import Mathlib.Data.List.Sort
import Mathlib.Logic.Relation
import Mathlib.Order.Nat

/-! Best-first search of a graph with a bounded list of results; an access that fails ends the
search. -/
namespace BestFirst

open List

variable {D N E : Type}

/-- The comparisons among these distances fit together: `lt` is a strict weak order on them. -/
def Consistent (lt : D → D → Bool) (ds : List D) : Prop :=
  ∀ a ∈ ds, ∀ b ∈ ds, ∀ c ∈ ds, lt a b → lt a c ∨ lt c b

/-- What the heaps hand out: an entry that is stored, and the right one where the comparisons fit
together. -/
structure Heaps (lt : D → D → Bool) (N : Type) where
  nearest : List (D × N) → Option (D × N)
  farthest : List (D × N) → Option (D × N)
  nearest_mem : ∀ {l e}, nearest l = some e → e ∈ l
  nearest_nil : ∀ {l}, nearest l = none → l = []
  not_lt_nearest : ∀ {l e}, nearest l = some e → Consistent lt (l.map Prod.fst) →
    ∀ x ∈ l, ¬lt x.1 e.1
  farthest_mem : ∀ {l e}, farthest l = some e → e ∈ l
  farthest_nil : ∀ {l}, farthest l = none → l = []
  not_farthest_lt : ∀ {l e}, farthest l = some e → Consistent lt (l.map Prod.fst) →
    ∀ x ∈ l, ¬lt e.1 x.1

section Order

variable {better : D → D → Bool} {l : List (D × N)} {e : D × N}

/-- The entry that stays when each better one takes the place of the one before. -/
def best (better : D → D → Bool) : List (D × N) → Option (D × N)
  | [] => none
  | e :: l => some (l.foldl (fun b x => if better x.1 b.1 then x else b) e)

theorem foldl_best (irrefl : ∀ a, ¬better a a) (trans : ∀ a b c, better a b → better b c → better a c)
    (l : List (D × N)) (e : D × N) :
    let r := l.foldl (fun b x => if better x.1 b.1 then x else b) e
    r ∈ e :: l ∧ (r = e ∨ better r.1 e.1) ∧ ∀ x ∈ l, ¬better x.1 r.1 := by
  induction l generalizing e with
  | nil => exact ⟨mem_cons_self, .inl rfl, nofun⟩
  | cons x l ih =>
    obtain ⟨hmem,hr,hl⟩ := ih (if better x.1 e.1 then x else e)
    simp only [foldl_cons]
    split at hmem <;> rename_i hx
    · simp only [if_pos hx] at hr hl ⊢
      refine ⟨mem_cons_of_mem e hmem, .inr ?_, forall_mem_cons.2 ⟨fun hlt => ?_, hl⟩⟩
      · cases hr with
        | inl he =>
          rw [he]
          exact hx
        | inr hlt => exact trans _ _ _ hlt hx
      · cases hr with
        | inl he => exact irrefl _ (he ▸ hlt)
        | inr hlt' => exact irrefl _ (trans _ _ _ hlt hlt')
    · simp only [if_neg hx] at hr hl ⊢
      refine ⟨?_, hr, forall_mem_cons.2 ⟨fun hlt => ?_, hl⟩⟩
      · cases mem_cons.1 hmem with
        | inl he =>
          rw [he]
          exact mem_cons_self
        | inr h => exact mem_cons_of_mem e (mem_cons_of_mem x h)
      · cases hr with
        | inl he => exact hx (he ▸ hlt)
        | inr hlt' => exact hx (trans _ _ _ hlt hlt')

theorem best_eq_some (irrefl : ∀ a, ¬better a a)
    (trans : ∀ a b c, better a b → better b c → better a c) (h : best better l = some e) :
    e ∈ l ∧ ∀ x ∈ l, ¬better x.1 e.1 := by
  cases l with
  | nil => cases h
  | cons a l =>
    cases h
    obtain ⟨hmem,hr,hl⟩ := foldl_best irrefl trans l a
    refine ⟨hmem, forall_mem_cons.2 ⟨fun hlt => ?_, hl⟩⟩
    cases hr with
    | inl he => exact irrefl _ (he ▸ hlt)
    | inr hlt' => exact irrefl _ (trans _ _ _ hlt hlt')

theorem best_flip_eq_some (irrefl : ∀ a, ¬better a a)
    (trans : ∀ a b c, better a b → better b c → better a c)
    (h : best (fun a b => better b a) l = some e) : e ∈ l ∧ ∀ x ∈ l, ¬better e.1 x.1 :=
  @best_eq_some _ _ (fun a b => better b a) l e irrefl (fun a b c hab hbc => trans c b a hbc hab) h

theorem best_eq_none (h : best better l = none) : l = [] := by
  cases l with
  | nil => rfl
  | cons a l => cases h

/-- Heaps that hand out a minimal and a maximal entry of a strict order. -/
def Heaps.ofOrder {lt : D → D → Bool} (irrefl : ∀ a, ¬lt a a)
    (trans : ∀ a b c, lt a b → lt b c → lt a c) : Heaps lt N where
  nearest := best lt
  farthest := best fun a b => lt b a
  nearest_mem h := (best_eq_some irrefl trans h).1
  nearest_nil := best_eq_none
  not_lt_nearest h _ := (best_eq_some irrefl trans h).2
  farthest_mem h := (best_flip_eq_some irrefl trans h).1
  farthest_nil := best_eq_none
  not_farthest_lt h _ := (best_flip_eq_some irrefl trans h).2

theorem Heaps.not_ofOrder_farthest_lt {lt : D → D → Bool} {irrefl : ∀ a, ¬lt a a}
    {trans : ∀ a b c, lt a b → lt b c → lt a c}
    (h : (Heaps.ofOrder irrefl trans).farthest l = some e) : ∀ x ∈ l, ¬lt e.1 x.1 :=
  (best_flip_eq_some irrefl trans h).2

theorem pairwise_orderedInsert {α : Type} {r : α → α → Prop} [DecidableRel r] (irrefl : ∀ a, ¬r a a)
    (trans : ∀ a b c, r a b → r b c → r a c) {l : List α} (hl : l.Pairwise fun a b => ¬r b a) (a : α) :
    (l.orderedInsert r a).Pairwise fun a b => ¬r b a := by
  induction l with
  | nil => exact pairwise_singleton _ a
  | cons b l ih =>
    obtain ⟨hb,hl⟩ := pairwise_cons.1 hl
    rw [orderedInsert_cons]
    split
    · rename_i hab
      refine pairwise_cons.2 ⟨forall_mem_cons.2 ⟨fun hba => ?_, fun y hy hya => ?_⟩,
        pairwise_cons.2 ⟨hb,hl⟩⟩
      · exact irrefl a (trans _ _ _ hab hba)
      · exact hb y hy (trans _ _ _ hya hab)
    · rename_i hab
      refine pairwise_cons.2 ⟨fun y hy => ?_, ih hl⟩
      cases mem_orderedInsert r |>.1 hy with
      | inl he => exact he ▸ hab
      | inr hy => exact hb y hy

theorem pairwise_insertionSort {α : Type} {r : α → α → Prop} [DecidableRel r] (irrefl : ∀ a, ¬r a a)
    (trans : ∀ a b c, r a b → r b c → r a c) (l : List α) :
    (l.insertionSort r).Pairwise fun a b => ¬r b a := by
  induction l with
  | nil => exact .nil
  | cons a l ih => exact pairwise_orderedInsert irrefl trans ih a

end Order

/-- The nodes to expand, the results and the nodes that have been looked at. -/
structure Frontier (D N : Type) where
  cands : List (D × N)
  found : List (D × N)
  visited : List N

namespace Frontier

variable {n : N} {d : D}

def empty : Frontier D N := ⟨[], [], []⟩

variable [DecidableEq D] [DecidableEq N] {lt : D → D → Bool} (heaps : Heaps lt N) (infinity : D)
variable (distance : N → Except E D)

def enter (s : Frontier D N) (n : N) : Except E (Frontier D N) :=
  if n ∈ s.visited then pure s
  else do
    let d ← distance n
    pure ⟨(d, n) :: s.cands, (d, n) :: s.found, n :: s.visited⟩

def bound (found : List (D × N)) : D := ((heaps.farthest found).map Prod.fst).getD infinity

def dropFarthest (found : List (D × N)) : List (D × N) :=
  match heaps.farthest found with
  | none => found
  | some e => found.erase e

/-- A node goes to both heaps when there is room for it or it is nearer than the farthest result. -/
def accept (ef : Nat) (s : Frontier D N) (d : D) (n : N) : Frontier D N :=
  if lt d (bound heaps infinity s.found) ∨ s.found.length < ef then
    ⟨(d, n) :: s.cands,
      if ef < ((d, n) :: s.found).length then dropFarthest heaps ((d, n) :: s.found)
      else (d, n) :: s.found,
      n :: s.visited⟩
  else { s with visited := n :: s.visited }

def offer (ef : Nat) (s : Frontier D N) (n : N) : Except E (Frontier D N) :=
  if n ∈ s.visited then pure s
  else do
    let d ← distance n
    pure (accept heaps infinity ef s d n)

/-- The node to expand next; `none` ends the search. -/
def next (s : Frontier D N) : Option (N × Frontier D N) :=
  match heaps.nearest s.cands with
  | none => none
  | some c =>
    if lt (bound heaps infinity s.found) c.1 then none
    else some (c.2, { s with cands := s.cands.erase c })

variable (expand : N → Except E (List N)) (stuck : E)

/-- The search loop; `stuck` is a loop that would go on. -/
def explore (ef : Nat) : Nat → Frontier D N → Except E (Frontier D N)
  | fuel, s =>
    match next heaps infinity s, fuel with
    | none, _ => pure s
    | some _, 0 => throw stuck
    | some (c, s), fuel + 1 => do
      let nbs ← expand c
      let s ← nbs.foldlM (offer heaps infinity distance ef) s
      explore ef fuel s

/-- The entries are nodes that have been looked at, each result once. -/
structure Sound (P : N → Prop) (s : Frontier D N) : Prop where
  nodup : s.visited.Nodup
  known : ∀ n ∈ s.visited, P n
  cands : ∀ e ∈ s.cands, e.2 ∈ s.visited ∧ distance e.2 = .ok e.1
  found : ∀ e ∈ s.found, e.2 ∈ s.visited ∧ distance e.2 = .ok e.1
  distinct : (s.found.map Prod.snd).Nodup

/-- What a search adds: the candidates grow only by nodes that were not looked at before. -/
structure Grows (s t : Frontier D N) : Prop where
  cands : t.cands.length + s.visited.length ≤ s.cands.length + t.visited.length
  found : s.found.length ≤ t.found.length
  visited : s.visited ⊆ t.visited

variable {heaps infinity distance expand stuck} {P : N → Prop} {s t u : Frontier D N} {ef : Nat}

omit [DecidableEq D] [DecidableEq N] in
theorem Grows.refl (s : Frontier D N) : Grows s s := ⟨le_rfl, le_rfl, fun _ h => h⟩

omit [DecidableEq D] [DecidableEq N] in
theorem Grows.trans (h : Grows s t) (h' : Grows t u) : Grows s u := by
  refine ⟨?_, h.found.trans h'.found, fun _ hn => h'.visited (h.visited hn)⟩
  have := h.cands
  have := h'.cands
  omega

omit [DecidableEq D] [DecidableEq N] in
theorem sound_empty : Sound distance P (empty : Frontier D N) :=
  ⟨nodup_nil,nofun,nofun,nofun,nodup_nil⟩

theorem dropFarthest_sublist (found : List (D × N)) :
    (dropFarthest heaps found).Sublist found := by
  unfold dropFarthest
  split
  · exact .refl _
  · exact erase_sublist

variable (heaps) in
theorem length_dropFarthest (found : List (D × N)) :
    found.length ≤ (dropFarthest heaps found).length + 1 := by
  unfold dropFarthest
  split
  · omega
  · rename_i e he
    rw [length_erase_of_mem (heaps.farthest_mem he)]
    omega

omit [DecidableEq D] [DecidableEq N] in
theorem Sound.visit (h : Sound distance P s) (hn : n ∉ s.visited) (hP : P n) :
    Sound distance P { s with visited := n :: s.visited } where
  nodup := nodup_cons.2 ⟨hn,h.nodup⟩
  known := forall_mem_cons.2 ⟨hP,h.known⟩
  cands e he := ⟨mem_cons_of_mem n (h.cands e he).1, (h.cands e he).2⟩
  found e he := ⟨mem_cons_of_mem n (h.found e he).1, (h.found e he).2⟩
  distinct := h.distinct

omit [DecidableEq D] [DecidableEq N] in
theorem Sound.push (h : Sound distance P s) (hn : n ∉ s.visited) (hP : P n)
    (hd : distance n = .ok d) :
    Sound distance P ⟨(d, n) :: s.cands, (d, n) :: s.found, n :: s.visited⟩ where
  nodup := (h.visit hn hP).nodup
  known := (h.visit hn hP).known
  cands := forall_mem_cons.2 ⟨⟨mem_cons_self,hd⟩, (h.visit hn hP).cands⟩
  found := forall_mem_cons.2 ⟨⟨mem_cons_self,hd⟩, (h.visit hn hP).found⟩
  distinct := by
    refine nodup_cons.2 ⟨fun hmem => ?_, h.distinct⟩
    obtain ⟨e,he,rfl⟩ := mem_map.1 hmem
    exact hn (h.found e he).1

omit [DecidableEq D] [DecidableEq N] in
theorem Sound.of_sublist {cands found : List (D × N)} (h : Sound distance P s)
    (hcands : cands.Sublist s.cands) (hfound : found.Sublist s.found) :
    Sound distance P ⟨cands, found, s.visited⟩ where
  nodup := h.nodup
  known := h.known
  cands e he := h.cands e (hcands.subset he)
  found e he := h.found e (hfound.subset he)
  distinct := h.distinct.sublist (hfound.map Prod.snd)

theorem Sound.accept (h : Sound distance P s) (hn : n ∉ s.visited) (hP : P n)
    (hd : distance n = .ok d) : Sound distance P (s.accept heaps infinity ef d n) := by
  unfold Frontier.accept
  split
  · refine (h.push hn hP hd).of_sublist (.refl _) ?_
    split
    · exact dropFarthest_sublist _
    · exact .refl _
  · exact h.visit hn hP

theorem grows_accept (s : Frontier D N) (d : D) (n : N) :
    Grows s (s.accept heaps infinity ef d n) := by
  unfold Frontier.accept
  split
  · refine ⟨by simp only [length_cons]; omega, ?_, fun _ h => mem_cons_of_mem n h⟩
    split
    · have := length_dropFarthest heaps ((d, n) :: s.found)
      simp only [length_cons] at this ⊢
      omega
    · simp
  · exact ⟨by simp only [length_cons]; omega, le_rfl, fun _ h => mem_cons_of_mem n h⟩

theorem mem_visited_accept (s : Frontier D N) (d : D) (n : N) :
    n ∈ (s.accept heaps infinity ef d n).visited := by
  unfold Frontier.accept
  split <;> exact mem_cons_self

/-- What a step with one node comes to, for nodes whose distance can be taken. -/
structure Takes (distance : N → Except E D) (P : N → Prop)
    (f : Frontier D N → N → Except E (Frontier D N)) : Prop where
  step : ∀ {s n}, Sound distance P s → P n →
    ∃ t, f s n = .ok t ∧ Sound distance P t ∧ Grows s t ∧ n ∈ t.visited

omit [DecidableEq D] in
theorem takes_enter (hdist : ∀ n, P n → ∃ d, distance n = .ok d) :
    Takes distance P (enter distance) where
  step {s n} hs hn := by
    unfold enter
    split
    · rename_i hmem
      exact ⟨s, rfl, hs, .refl s, hmem⟩
    · rename_i hmem
      obtain ⟨d,hd⟩ := hdist n hn
      rw [hd]
      refine ⟨_, rfl, hs.push hmem hn hd, ⟨?_, by simp, fun _ h => mem_cons_of_mem n h⟩,
        mem_cons_self⟩
      simp only [length_cons]
      omega

variable (heaps infinity ef) in
theorem takes_offer (hdist : ∀ n, P n → ∃ d, distance n = .ok d) :
    Takes distance P (offer heaps infinity distance ef) where
  step {s n} hs hn := by
    unfold offer
    split
    · rename_i hmem
      exact ⟨s, rfl, hs, .refl s, hmem⟩
    · rename_i hmem
      obtain ⟨d,hd⟩ := hdist n hn
      rw [hd]
      exact ⟨_, rfl, hs.accept hmem hn hd, grows_accept s d n, mem_visited_accept s d n⟩

omit [DecidableEq D] [DecidableEq N] in
theorem Takes.foldlM {f : Frontier D N → N → Except E (Frontier D N)} (hf : Takes distance P f)
    {ns : List N} (hs : Sound distance P s) (hns : ∀ n ∈ ns, P n) :
    ∃ t, ns.foldlM f s = .ok t ∧ Sound distance P t ∧ Grows s t ∧ ns ⊆ t.visited := by
  induction ns generalizing s with
  | nil => exact ⟨s, rfl, hs, .refl s, nil_subset _⟩
  | cons n ns ih =>
    obtain ⟨hn,hns⟩ := forall_mem_cons.1 hns
    obtain ⟨t,ht,hsound,hgrows,hmem⟩ := hf.step hs hn
    obtain ⟨u,hu,hsound',hgrows',hsub⟩ := ih hsound hns
    refine ⟨u, ?_, hsound', hgrows.trans hgrows', cons_subset.2 ⟨hgrows'.visited hmem, hsub⟩⟩
    rw [foldlM_cons,ht]
    exact hu

theorem next_eq_some (h : next heaps infinity s = some (n, t)) :
    ∃ c ∈ s.cands, c.2 = n ∧ t = { s with cands := s.cands.erase c } := by
  unfold next at h
  split at h
  · cases h
  · rename_i c hc
    split at h
    · cases h
    · cases h
      exact ⟨c, heaps.nearest_mem hc, rfl, rfl⟩

theorem Sound.next (hs : Sound distance P s) (h : s.next heaps infinity = some (n, t)) :
    Sound distance P t ∧ P n ∧ t.cands.length + 1 = s.cands.length ∧ t.found = s.found ∧
      t.visited = s.visited := by
  obtain ⟨c,hc,rfl,rfl⟩ := next_eq_some h
  have hpos := length_pos_of_mem hc
  refine ⟨hs.of_sublist erase_sublist (.refl _), hs.known _ (hs.cands c hc).1, ?_, rfl, rfl⟩
  simp only [length_erase_of_mem hc]
  omega

/-- A search that never leaves a finite set of nodes comes to an end, and its results are nodes of
the set. -/
theorem explore_sound {nodes : List N} (hdist : ∀ n, P n → ∃ d, distance n = .ok d)
    (hexpand : ∀ n, P n → ∃ nbs, expand n = .ok nbs ∧ ∀ m ∈ nbs, P m) (hP : ∀ n, P n → n ∈ nodes)
    {fuel : Nat} (hs : Sound distance P s)
    (hfuel : s.cands.length + nodes.length ≤ fuel + s.visited.length) :
    ∃ t, explore heaps infinity distance expand stuck ef fuel s = .ok t ∧ Sound distance P t ∧
      s.found.length ≤ t.found.length ∧ s.visited ⊆ t.visited := by
  induction fuel generalizing s with
  | zero =>
    unfold explore
    cases hnext : s.next heaps infinity with
    | none => exact ⟨s, rfl, hs, le_rfl, fun _ h => h⟩
    | some p =>
      -- the nodes that have been looked at are no more than all of them
      have hlen : s.visited.length ≤ nodes.length :=
        (subperm_of_subset hs.nodup fun n hn => hP n (hs.known n hn)).length_le
      have := (hs.next hnext).2.2.1
      omega
  | succ fuel ih =>
    unfold explore
    cases hnext : s.next heaps infinity with
    | none => exact ⟨s, rfl, hs, le_rfl, fun _ h => h⟩
    | some p =>
      obtain ⟨c,s'⟩ := p
      obtain ⟨hs',hc,hcands,hfound,hvisited⟩ := hs.next hnext
      obtain ⟨nbs,hnbs,hall⟩ := hexpand c hc
      obtain ⟨t,ht,hsound,hgrows,-⟩ :=
        (takes_offer heaps infinity ef hdist).foldlM hs' hall
      have hcost := hgrows.cands
      obtain ⟨u,hu,hsound',hlen,hsub⟩ := ih hsound (by rw [hvisited] at hcost; omega)
      refine ⟨u, ?_, hsound', (hfound ▸ hgrows.found).trans hlen,
        fun n hn => hsub (hgrows.visited (hvisited ▸ hn))⟩
      simp only [hnbs,bind,Except.bind,ht]
      exact hu

/-- Every node that has been looked at is a result. -/
def Full (s : Frontier D N) : Prop := ∀ n ∈ s.visited, ∃ d, (d, n) ∈ s.found

/-- The neighbours of a node have been looked at. -/
def Done (expand : N → Except E (List N)) (s : Frontier D N) (n : N) : Prop :=
  ∃ nbs, expand n = .ok nbs ∧ nbs ⊆ s.visited

/-- A node that has been looked at is still to be expanded, or its neighbours have been looked at. -/
def Pending (expand : N → Except E (List N)) (s : Frontier D N) : Prop :=
  ∀ n ∈ s.visited, (∃ d, (d, n) ∈ s.cands) ∨ Done expand s n

omit [DecidableEq D] [DecidableEq N] in
theorem Done.mono (h : Done expand s n) (hst : s.visited ⊆ t.visited) : Done expand t n := by
  obtain ⟨nbs,hnbs,hsub⟩ := h
  exact ⟨nbs, hnbs, fun m hm => hst (hsub hm)⟩

omit [DecidableEq D] [DecidableEq N] in
theorem Full.push (h : Full s) :
    Full (⟨(d, n) :: s.cands, (d, n) :: s.found, n :: s.visited⟩ : Frontier D N) := by
  refine forall_mem_cons.2 ⟨⟨d,mem_cons_self⟩, fun m hm => ?_⟩
  obtain ⟨x,hx⟩ := h m hm
  exact ⟨x, mem_cons_of_mem _ hx⟩

omit [DecidableEq D] [DecidableEq N] in
theorem Sound.length_found (hs : Sound distance P s) : s.found.length ≤ s.visited.length := by
  rw [← length_map Prod.snd]
  refine (subperm_of_subset hs.distinct fun n hn => ?_).length_le
  obtain ⟨e,he,rfl⟩ := mem_map.1 hn
  exact (hs.found e he).1

section Roomy

variable {nodes : List N} (hP : ∀ n, P n → n ∈ nodes) (hef : nodes.length ≤ ef)
include hP hef

theorem accept_eq {n : N} {d : D} (hs : Sound distance P s) (hn : n ∉ s.visited) (hPn : P n) :
    s.accept heaps infinity ef d n =
      ⟨(d, n) :: s.cands, (d, n) :: s.found, n :: s.visited⟩ := by
  have hlen : (n :: s.visited).length ≤ nodes.length :=
    (subperm_of_subset (hs.visit hn hPn).nodup
      fun m hm => hP m ((hs.visit hn hPn).known m hm)).length_le
  have hfound := hs.length_found
  simp only [length_cons] at hlen
  rw [Frontier.accept,if_pos (.inr (by omega)),if_neg (by simp only [length_cons]; omega)]

theorem offer_full {n : N} (hs : Sound distance P s) (hfull : Full s) (hPn : P n)
    (h : s.offer heaps infinity distance ef n = .ok t) :
    Full t ∧ (∀ e ∈ s.cands, e ∈ t.cands) ∧
      ∀ m ∈ t.visited, m ∈ s.visited ∨ ∃ d, (d, m) ∈ t.cands := by
  unfold offer at h
  split at h
  · cases h
    exact ⟨hfull, fun _ he => he, fun _ hm => .inl hm⟩
  · rename_i hn
    cases hd : distance n with
    | error e =>
      rw [hd] at h
      cases h
    | ok d =>
      rw [hd] at h
      cases h
      rw [accept_eq hP hef hs hn hPn]
      refine ⟨hfull.push, fun e he => mem_cons_of_mem _ he, ?_⟩
      exact forall_mem_cons.2 ⟨.inr ⟨d,mem_cons_self⟩, fun m hm => .inl hm⟩

theorem offerAll_full {ns : List N} (hdist : ∀ n, P n → ∃ d, distance n = .ok d)
    (hs : Sound distance P s) (hfull : Full s) (hns : ∀ n ∈ ns, P n)
    (h : ns.foldlM (offer heaps infinity distance ef) s = .ok t) :
    Full t ∧ (∀ e ∈ s.cands, e ∈ t.cands) ∧
      ∀ m ∈ t.visited, m ∈ s.visited ∨ ∃ d, (d, m) ∈ t.cands := by
  induction ns generalizing s with
  | nil =>
    cases h
    exact ⟨hfull, fun _ he => he, fun _ hm => .inl hm⟩
  | cons n ns ih =>
    obtain ⟨hn,hns⟩ := forall_mem_cons.1 hns
    obtain ⟨u,hu,hsound,-,-⟩ :=
      (takes_offer heaps infinity ef hdist).step hs hn
    rw [foldlM_cons,hu] at h
    obtain ⟨hfull',hcands,hnew⟩ := offer_full hP hef hs hfull hn hu
    obtain ⟨hfull'',hcands',hnew'⟩ := ih hsound hfull' hns h
    refine ⟨hfull'', fun e he => hcands' e (hcands e he), fun m hm => ?_⟩
    cases hnew' m hm with
    | inr hm => exact .inr hm
    | inl hm =>
      cases hnew m hm with
      | inl hm => exact .inl hm
      | inr hm =>
        obtain ⟨d,hd⟩ := hm
        exact .inr ⟨d, hcands' _ hd⟩

omit hP hef in
theorem cands_of_next (hfar : ∀ l e, heaps.farthest l = some e →
      (∀ x ∈ l, P x.2 ∧ distance x.2 = .ok x.1) → ∀ x ∈ l, ¬lt e.1 x.1)
    (hs : Sound distance P s) (hfull : Full s) (h : s.next heaps infinity = none) :
    s.cands = [] := by
  unfold next at h
  split at h
  · rename_i hnone
    exact heaps.nearest_nil hnone
  · rename_i c hc
    split at h
    · rename_i hlt
      have hmem := hs.cands c (heaps.nearest_mem hc)
      obtain ⟨d,hd⟩ := hfull c.2 hmem.1
      have hdist : d = c.1 := by
        have := (hs.found _ hd).2.symm.trans hmem.2
        cases this
        rfl
      cases he : heaps.farthest s.found with
      | none =>
        rw [heaps.farthest_nil he] at hd
        cases hd
      | some e =>
        rw [bound,he] at hlt
        have hnot := hfar s.found e he
          (fun x hx => ⟨hs.known _ (hs.found x hx).1, (hs.found x hx).2⟩) _ hd
        exact absurd (hdist ▸ hlt) hnot
    · cases h

omit hP hef [DecidableEq D] [DecidableEq N] in
theorem Pending.done (hpending : Pending expand s) (hcands : s.cands = []) :
    ∀ n ∈ s.visited, Done expand s n := by
  intro n hn
  refine (hpending n hn).resolve_left fun hd => ?_
  rw [hcands] at hd
  obtain ⟨d,hd⟩ := hd
  cases hd

theorem Pending.step {c : N} {nbs : List N} (hdist : ∀ n, P n → ∃ d, distance n = .ok d)
    (hs : Sound distance P s) (hfull : Full s) (hpending : Pending expand s)
    (hnext : s.next heaps infinity = some (c, t)) (hnbs : expand c = .ok nbs)
    (hall : ∀ m ∈ nbs, P m) (h : nbs.foldlM (offer heaps infinity distance ef) t = .ok u) :
    Full u ∧ Pending expand u := by
  obtain ⟨ht,-,-,hfound,hvisited⟩ := hs.next hnext
  obtain ⟨e,he,rfl,hte⟩ := next_eq_some hnext
  have hfull' : Full t := by
    intro n hn
    rw [hvisited] at hn
    rw [hfound]
    exact hfull n hn
  obtain ⟨v,hv,-,hgrows,hsub⟩ := (takes_offer heaps infinity ef hdist).foldlM ht hall
  obtain rfl : v = u := by
    rw [h] at hv
    cases hv
    rfl
  obtain ⟨hfull'',hcands,hnew⟩ := offerAll_full hP hef hdist ht hfull' hall h
  refine ⟨hfull'', fun n hn => ?_⟩
  cases hnew n hn with
  | inr hcand => exact .inl hcand
  | inl hold =>
    rw [hvisited] at hold
    by_cases hn : n = e.2
    · rw [hn]
      exact .inr ⟨nbs,hnbs,hsub⟩
    · cases hpending n hold with
      | inr hdone => exact .inr (hdone.mono fun m hm => hgrows.visited (hvisited ▸ hm))
      | inl hcand =>
        obtain ⟨d,hd⟩ := hcand
        refine .inl ⟨d, hcands _ ?_⟩
        rw [hte]
        exact (mem_erase_of_ne fun heq => hn (congrArg Prod.snd heq)).2 hd

theorem explore_full {fuel : Nat} (hdist : ∀ n, P n → ∃ d, distance n = .ok d)
    (hexpand : ∀ n, P n → ∃ nbs, expand n = .ok nbs ∧ ∀ m ∈ nbs, P m)
    (hfar : ∀ l e, heaps.farthest l = some e → (∀ x ∈ l, P x.2 ∧ distance x.2 = .ok x.1) →
      ∀ x ∈ l, ¬lt e.1 x.1)
    (hs : Sound distance P s) (hfull : Full s) (hpending : Pending expand s)
    (h : explore heaps infinity distance expand stuck ef fuel s = .ok t) :
    Full t ∧ ∀ n ∈ t.visited, Done expand t n := by
  induction fuel generalizing s with
  | zero =>
    unfold explore at h
    cases hnext : s.next heaps infinity with
    | some p =>
      rw [hnext] at h
      cases h
    | none =>
      rw [hnext] at h
      cases h
      exact ⟨hfull, hpending.done (cands_of_next hfar hs hfull hnext)⟩
  | succ fuel ih =>
    unfold explore at h
    cases hnext : s.next heaps infinity with
    | none =>
      rw [hnext] at h
      cases h
      exact ⟨hfull, hpending.done (cands_of_next hfar hs hfull hnext)⟩
    | some p =>
      obtain ⟨c,s'⟩ := p
      obtain ⟨hs',hc,-,-,-⟩ := hs.next hnext
      obtain ⟨nbs,hnbs,hall⟩ := hexpand c hc
      obtain ⟨u,hu,hsound,-,-⟩ := (takes_offer heaps infinity ef hdist).foldlM hs' hall
      obtain ⟨hfull',hpending'⟩ := hpending.step hP hef hdist hs hfull hnext hnbs hall hu
      rw [hnext] at h
      simp only [hnbs] at h
      exact ih hsound hfull' hpending' (by rw [← h]; simp only [bind,Except.bind,hu])

end Roomy

omit [DecidableEq D] [DecidableEq N] in
theorem mem_visited_of_reaches (hdone : ∀ n ∈ s.visited, Done expand s n) {a b : N}
    (ha : a ∈ s.visited)
    (h : Relation.ReflTransGen (fun x y => ∃ nbs, expand x = .ok nbs ∧ y ∈ nbs) a b) :
    b ∈ s.visited := by
  induction h with
  | refl => exact ha
  | tail _ hstep ih =>
    obtain ⟨nbs,hnbs,hmem⟩ := hstep
    obtain ⟨nbs',hnbs',hsub⟩ := hdone _ ih
    obtain rfl : nbs = nbs' := by
      rw [hnbs] at hnbs'
      cases hnbs'
      rfl
    exact hsub hmem

section Congr

variable {heaps' : Heaps lt N} (hnear : ∀ l, heaps.nearest l = heaps'.nearest l)
variable (hfar : ∀ l, l.length ≤ ef + 1 → heaps.farthest l = heaps'.farthest l)
include hfar

variable (infinity) in
theorem accept_congr (hs : s.found.length ≤ ef) (d : D) (n : N) :
    s.accept heaps infinity ef d n = s.accept heaps' infinity ef d n ∧
      (s.accept heaps infinity ef d n).found.length ≤ ef := by
  have hdrop : dropFarthest heaps ((d, n) :: s.found) = dropFarthest heaps' ((d, n) :: s.found) := by
    rw [dropFarthest,dropFarthest,hfar _ (by simpa using hs)]
  refine ⟨?_,?_⟩
  · rw [Frontier.accept,Frontier.accept,bound,bound,hfar _ (by omega),hdrop]
  · unfold Frontier.accept
    split
    · split
      · -- one over the bound, and the farthest goes
        rename_i hlen
        simp only [length_cons] at hlen
        cases he : heaps.farthest ((d, n) :: s.found) with
        | none => cases heaps.farthest_nil he
        | some e =>
          have herase := length_erase_of_mem (heaps.farthest_mem he)
          simp only [dropFarthest,he,herase,length_cons]
          omega
      · rename_i hlen
        exact Nat.le_of_not_lt hlen
    · exact hs

variable (infinity distance) in
theorem offerAll_congr (ns : List N) (hs : s.found.length ≤ ef) :
    ns.foldlM (offer heaps infinity distance ef) s =
        ns.foldlM (offer heaps' infinity distance ef) s ∧
      ∀ t, ns.foldlM (offer heaps infinity distance ef) s = .ok t → t.found.length ≤ ef := by
  induction ns generalizing s with
  | nil =>
    refine ⟨rfl, fun t ht => ?_⟩
    cases ht
    exact hs
  | cons n ns ih =>
    simp only [foldlM_cons,offer]
    split
    · exact ih hs
    · cases distance n with
      | error e => exact ⟨rfl, fun t ht => nomatch ht⟩
      | ok d =>
        obtain ⟨heq,hlen⟩ := accept_congr infinity hfar hs d n
        obtain ⟨hrest,hall⟩ := ih hlen
        refine ⟨hrest.trans ?_, hall⟩
        rw [heq]
        rfl

include hnear in
theorem explore_congr {fuel : Nat} (hs : s.found.length ≤ ef) :
    explore heaps infinity distance expand stuck ef fuel s =
      explore heaps' infinity distance expand stuck ef fuel s := by
  have hnext (s : Frontier D N) (hs : s.found.length ≤ ef) :
      s.next heaps infinity = s.next heaps' infinity := by
    rw [Frontier.next,Frontier.next,hnear,bound,bound,hfar _ (by omega)]
  induction fuel generalizing s with
  | zero =>
    unfold explore
    rw [hnext s hs]
    cases s.next heaps' infinity <;> rfl
  | succ fuel ih =>
    unfold explore
    rw [hnext s hs]
    cases hn : s.next heaps' infinity with
    | none => rfl
    | some p =>
      obtain ⟨c,t⟩ := p
      obtain ⟨e,-,-,rfl⟩ := next_eq_some hn
      cases hexpand : expand c with
      | error e =>
        simp only [hexpand]
        rfl
      | ok nbs =>
        obtain ⟨heq,hlen⟩ := offerAll_congr infinity distance hfar nbs
          (s := { s with cands := s.cands.erase e }) hs
        simp only [hexpand,bind,Except.bind,← heq]
        cases hfold : nbs.foldlM (offer heaps infinity distance ef)
            { s with cands := s.cands.erase e } with
        | error e => rfl
        | ok u => exact ih (hlen u hfold)

end Congr

/-- Every node that has been looked at is still to be expanded and is a result. -/
def Fresh (s : Frontier D N) : Prop := ∀ n ∈ s.visited, ∃ d, (d, n) ∈ s.cands ∧ (d, n) ∈ s.found

omit [DecidableEq D] [DecidableEq N] in
theorem fresh_empty : Fresh (empty : Frontier D N) := fun _ hn => nomatch hn

omit [DecidableEq D] in
theorem Fresh.enterAll {ns : List N} (hs : Fresh s) (h : ns.foldlM (enter distance) s = .ok t) :
    Fresh t := by
  induction ns generalizing s with
  | nil =>
    cases h
    exact hs
  | cons n ns ih =>
    rw [foldlM_cons] at h
    unfold enter at h
    split at h
    · exact ih hs h
    · cases hd : distance n with
      | error e =>
        rw [hd] at h
        cases h
      | ok d =>
        rw [hd] at h
        have hfresh : Fresh (⟨(d, n) :: s.cands, (d, n) :: s.found, n :: s.visited⟩ :
            Frontier D N) := by
          refine forall_mem_cons.2 ⟨⟨d,mem_cons_self,mem_cons_self⟩,?_⟩
          intro m hm
          obtain ⟨x,hcand,hfound⟩ := hs m hm
          exact ⟨x, mem_cons_of_mem _ hcand, mem_cons_of_mem _ hfound⟩
        exact ih hfresh h

section Search

variable {nodes eps : List N} (hP : ∀ n, P n → n ∈ nodes)
variable (hdist : ∀ n, P n → ∃ d, distance n = .ok d)
variable (hexpand : ∀ n, P n → ∃ nbs, expand n = .ok nbs ∧ ∀ m ∈ nbs, P m) (heps : ∀ n ∈ eps, P n)
include hP hdist hexpand heps

variable (heaps infinity stuck ef) in
/-- A whole search within a finite set of nodes comes to an end, with a result if there is a node to
start from. -/
theorem search_sound : ∃ s t, eps.foldlM (enter distance) empty = .ok s ∧
    explore heaps infinity distance expand stuck ef nodes.length s = .ok t ∧
      Sound distance P t ∧ s.visited ⊆ t.visited ∧ (eps ≠ [] → t.found ≠ []) := by
  obtain ⟨s,hs,hsound,hgrows,hsub⟩ := (takes_enter hdist).foldlM sound_empty heps
  have hcands : s.cands.length ≤ s.visited.length := by simpa [empty] using hgrows.cands
  have hfuel : s.cands.length + nodes.length ≤ nodes.length + s.visited.length := by omega
  obtain ⟨t,ht,hsound',hlen,hvisited⟩ := explore_sound hdist hexpand hP hsound hfuel
  refine ⟨s, t, hs, ht, hsound', hvisited, fun hne hnil => ?_⟩
  obtain ⟨e,he⟩ := exists_mem_of_ne_nil eps hne
  obtain ⟨d,-,hfound⟩ := fresh_empty.enterAll hs e (hsub he)
  have := length_pos_of_mem hfound
  rw [hnil] at hlen
  simp only [length_nil] at hlen
  omega

theorem search_full (hef : nodes.length ≤ ef)
    (hfar : ∀ l e, heaps.farthest l = some e → (∀ x ∈ l, P x.2 ∧ distance x.2 = .ok x.1) →
      ∀ x ∈ l, ¬lt e.1 x.1)
    (hs : eps.foldlM (enter distance) empty = .ok s) {fuel : Nat}
    (ht : explore heaps infinity distance expand stuck ef fuel s = .ok t) {a b : N} (ha : a ∈ eps)
    (hab : Relation.ReflTransGen (fun x y => ∃ nbs, expand x = .ok nbs ∧ y ∈ nbs) a b)
    (hvisited : s.visited ⊆ t.visited) : ∃ d, (d, b) ∈ t.found := by
  obtain ⟨u,hu,hsound,-,hsub⟩ := (takes_enter hdist).foldlM sound_empty heps
  obtain rfl : u = s := by
    rw [hs] at hu
    cases hu
    rfl
  have hfresh : Fresh u := fresh_empty.enterAll hs
  obtain ⟨hfull,hdone⟩ := explore_full hP hef hdist hexpand hfar hsound
    (fun n hn => (hfresh n hn).imp fun d hd => hd.2)
    (fun n hn => .inl ((hfresh n hn).imp fun d hd => hd.1)) ht
  exact hfull b (mem_visited_of_reaches hdone (hvisited (hsub ha)) hab)

end Search

end Frontier
end BestFirst
