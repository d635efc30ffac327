import AiLake.TopK
import Mathlib.Data.List.Induction
import Mathlib.Algebra.Group.Nat.Defs

/-! How a search keeps its nearest rows: file by file over the whole table, and by a parallel fold over
the vectors of a file without an index. -/
namespace AiLake.TopK

open Ranking List

variable {α β V : Type} [LinearOrder β]

structure SearchResult (β : Type) where
  rowId : Nat
  distance : β
  filePath : String
  deriving DecidableEq, Repr

/-- `select_nth_unstable_by` and `sort_unstable_by` with the order of the distances. -/
structure SliceOrder (distance : α → β) where
  nth : SelectNth distance
  unstable : UnstableSort distance

/-- The common part of `select_search_top_k` and `select_distance_top_k`. -/
def SliceOrder.selectTopK {distance : α → β} (slice : SliceOrder distance) (results : List α) (k : Nat) :
    List α :=
  slice.unstable.sort
    (if results.length > k then (slice.nth.select k results).take k else results)

def selectSearchTopK (slice : SliceOrder (@SearchResult.distance β))
    (results : List (SearchResult β)) (k : Nat) : List (SearchResult β) :=
  if k = 0 then [] else slice.selectTopK results k

/-- The results of the files as they are folded into one list. -/
def foldResults (slice : SliceOrder (@SearchResult.distance β)) (k : Nat)
    (files : List (List (SearchResult β))) : List (SearchResult β) :=
  files.foldl (fun results outcome => selectSearchTopK slice (results ++ outcome) k) []

/-- What `search_inner` returns when it does not rank by text. -/
def searchResults (slice : SliceOrder (@SearchResult.distance β)) (k : Nat)
    (files : List (List (SearchResult β))) : List (SearchResult β) :=
  selectSearchTopK slice (foldResults slice k files) k

section FlatSearch

variable (slice : SliceOrder (Prod.snd : Nat × β → β)) (dist : V → β)

def selectDistanceTopK (results : List (Nat × β)) (k : Nat) : List (Nat × β) :=
  slice.selectTopK results k

def usizeMax : Nat := 2 ^ 64 - 1

def trimSearchTopKBuffer (results : List (Nat × β)) (k : Nat) : List (Nat × β) :=
  if results.length ≥ max (min (2 * k) usizeMax) (min (k + 1) usizeMax) then
    selectDistanceTopK slice results k
  else results

/-- The work of the threads: parts that are folded, and the tree by which their results are reduced. -/
inductive Reduction (V : Type) where
  | identity
  | fold (part : List (V × Nat))
  | reduce (left right : Reduction V)
  deriving Repr

def Reduction.items : Reduction V → List (V × Nat)
  | .identity => []
  | .fold part => part
  | .reduce left right => left.items ++ right.items

def foldPart (k : Nat) (part : List (V × Nat)) : List (Nat × β) :=
  part.foldl (fun best item => trimSearchTopKBuffer slice (best ++ [(item.2, dist item.1)]) k) []

def Reduction.results (k : Nat) : Reduction V → List (Nat × β)
  | .identity => []
  | .fold part => foldPart slice dist k part
  | .reduce left right => selectDistanceTopK slice (left.results k ++ right.results k) k

def flatSearch (k : Nat) (tree : Reduction V) : List (Nat × β) :=
  if k = 0 then [] else selectDistanceTopK slice (tree.results slice dist k) k

end FlatSearch

/-! What the selections keep. -/

namespace SliceOrder

variable {distance : α → β} (slice : SliceOrder distance)

theorem keeps_selectTopK (results : List α) (k : Nat) :
    Keeps distance k results (slice.selectTopK results k) := by
  unfold selectTopK
  split
  · next hlen => exact (slice.nth.keeps_take hlen).trans (.of_perm (slice.unstable.perm _))
  · exact .of_perm (slice.unstable.perm results)

theorem length_selectTopK (results : List α) (k : Nat) : (slice.selectTopK results k).length ≤ k := by
  unfold selectTopK
  rw [(slice.unstable.perm _).length_eq]
  split
  · exact length_take_le k _
  · omega

theorem map_selectTopK {l results : List α} {k : Nat} (h : Keeps distance k l results) :
    (slice.selectTopK results k).map distance = ((sorted distance l).take k).map distance :=
  (h.trans (slice.keeps_selectTopK results k)).map_eq_take (slice.length_selectTopK results k)
    (slice.unstable.ordered _)

end SliceOrder

theorem keeps_selectSearchTopK (slice : SliceOrder (@SearchResult.distance β))
    (results : List (SearchResult β)) {k : Nat} (hk : k ≠ 0) :
    Keeps SearchResult.distance k results (selectSearchTopK slice results k) := by
  rw [selectSearchTopK,if_neg hk]
  exact slice.keeps_selectTopK results k

theorem keeps_foldResults (slice : SliceOrder (@SearchResult.distance β)) {k : Nat} (hk : k ≠ 0)
    (files : List (List (SearchResult β))) :
    Keeps SearchResult.distance k files.flatten (foldResults slice k files) := by
  induction files using List.reverseRecOn with
  | nil => exact .refl []
  | append_singleton files outcome ih =>
    rw [foldResults,foldl_append,foldl_cons,foldl_nil,flatten_append,
      flatten_singleton]
    exact (ih.append (.refl outcome)).trans (keeps_selectSearchTopK slice _ hk)

theorem map_selectSearchTopK (slice : SliceOrder (@SearchResult.distance β)) {k : Nat}
    {l results : List (SearchResult β)} (h : k ≠ 0 → Keeps SearchResult.distance k l results) :
    (selectSearchTopK slice results k).map (·.distance) =
      ((sorted SearchResult.distance l).take k).map (·.distance) := by
  unfold selectSearchTopK
  split
  · next hk => simp [hk]
  · next hk => exact slice.map_selectTopK (h hk)

theorem map_foldResults (slice : SliceOrder (@SearchResult.distance β)) (k : Nat)
    (files : List (List (SearchResult β))) :
    (foldResults slice k files).map (·.distance) =
      ((sorted SearchResult.distance files.flatten).take k).map (·.distance) := by
  rcases files.eq_nil_or_concat with rfl | ⟨files,outcome,rfl⟩
  · simp [foldResults,sorted]
  · rw [concat_eq_append,foldResults,foldl_append,foldl_cons,foldl_nil,
      flatten_append,flatten_singleton]
    exact map_selectSearchTopK slice fun hk => (keeps_foldResults slice hk files).append (.refl outcome)

section Candidates

variable {β V : Type} (dist : V → β)

def candidates (part : List (V × Nat)) : List (Nat × β) :=
  part.map fun item => (item.2, dist item.1)

variable {dist} in
theorem mem_candidates {raw : List V} {result : Nat × β}
    (h : result ∈ candidates dist raw.zipIdx) :
    ∃ vector, raw[result.1]? = some vector ∧ result.2 = dist vector := by
  obtain ⟨⟨vector,i⟩,hitem,rfl⟩ := mem_map.1 h
  exact ⟨vector, mem_zipIdx_iff_getElem?.1 hitem, rfl⟩

theorem nodup_candidates (raw : List V) : ((candidates dist raw.zipIdx).map (·.1)).Nodup := by
  have hpositions : (candidates dist raw.zipIdx).map (·.1) = List.range raw.length := by
    rw [candidates,map_map,range_eq_range',← zipIdx_map_snd 0 raw]
    rfl
  rw [hpositions]
  exact nodup_range

end Candidates

section FlatSearch

variable (slice : SliceOrder (Prod.snd : Nat × β → β)) (dist : V → β) {k : Nat}

theorem keeps_trimSearchTopKBuffer (results : List (Nat × β)) :
    Keeps Prod.snd k results (trimSearchTopKBuffer slice results k) := by
  unfold trimSearchTopKBuffer
  split
  · exact slice.keeps_selectTopK results k
  · exact .refl results

theorem keeps_foldPart (part : List (V × Nat)) :
    Keeps Prod.snd k (candidates dist part) (foldPart slice dist k part) := by
  induction part using List.reverseRecOn with
  | nil => exact .refl []
  | append_singleton part item ih =>
    rw [foldPart,foldl_append,foldl_cons,foldl_nil,candidates,map_append]
    exact (ih.append (.refl [(item.2, dist item.1)])).trans (keeps_trimSearchTopKBuffer slice _)

/-- By induction on the tree: a reduction selects from what its two sides kept. -/
theorem Reduction.keeps_results (tree : Reduction V) :
    Keeps Prod.snd k (candidates dist tree.items) (tree.results slice dist k) := by
  induction tree with
  | identity => exact .refl []
  | fold part => exact keeps_foldPart slice dist part
  | reduce left right ihl ihr =>
    rw [Reduction.items,candidates,map_append]
    exact (ihl.append ihr).trans (slice.keeps_selectTopK _ k)

/-- The `k` smallest distances of the vectors, each with the position of a vector of its own. -/
structure Nearest (raw : List V) (k : Nat) (results : List (Nat × β)) : Prop where
  distances : results.map (·.2) = ((sorted dist raw).take k).map dist
  distinct : (results.map (·.1)).Nodup
  tagged : ∀ result ∈ results, ∃ vector, raw[result.1]? = some vector ∧ result.2 = dist vector

theorem map_sorted_candidates (raw : List V) :
    (sorted Prod.snd (candidates dist raw.zipIdx)).map Prod.snd = (sorted dist raw).map dist := by
  have hl : ((sorted Prod.snd (candidates dist raw.zipIdx)).map Prod.snd).Pairwise (· ≤ ·) :=
    pairwise_map.2 (pairwise_sorted _)
  have hr : ((sorted dist raw).map dist).Pairwise (· ≤ ·) := pairwise_map.2 (pairwise_sorted raw)
  refine List.Perm.eq_of_pairwise' hl hr ?_
  have hcandidates : (candidates dist raw.zipIdx).map Prod.snd = raw.map dist := by
    rw [candidates,map_map]
    conv_rhs => rw [← zipIdx_map_fst 0 raw,map_map]
    rfl
  rw [((perm_sorted _).map Prod.snd).congr_left,hcandidates]
  exact ((perm_sorted raw).map dist).symm

theorem nearest_flatSearch {raw : List V} {tree : Reduction V} (htree : tree.items.Perm raw.zipIdx) :
    Nearest dist raw k (flatSearch slice dist k tree) := by
  unfold flatSearch
  split
  · next hk => exact ⟨by simp [hk], nodup_nil, by simp⟩
  · have hkeeps : Keeps Prod.snd k (candidates dist raw.zipIdx) (tree.results slice dist k) :=
      (tree.keeps_results slice dist).perm (htree.map _).symm
    obtain ⟨rest,hperm,-⟩ := hkeeps.trans (slice.keeps_selectTopK _ k)
    refine ⟨?_, ?_, fun result hresult => ?_⟩
    · have hsmallest := slice.map_selectTopK hkeeps
      rw [map_take,map_sorted_candidates,← map_take] at hsmallest
      exact hsmallest
    · have hnodup := (hperm.map (·.1)).nodup_iff.1 (nodup_candidates dist raw)
      rw [map_append] at hnodup
      exact hnodup.of_append_left
    · exact mem_candidates (hperm.mem_iff.2 (mem_append_left _ hresult))

end FlatSearch

/-- Selecting while the files come in, in any order, or within the threads and at every node of
their reduction, gives the distances of one sort of everything. -/
theorem incremental_topK (slice : SliceOrder (@SearchResult.distance β))
    (pairs : SliceOrder (Prod.snd : Nat × β → β)) (k : Nat) :
    (∀ files finished : List (List (SearchResult β)), finished.Perm files →
      (foldResults slice k finished).map (·.distance) =
          ((sorted SearchResult.distance files.flatten).take k).map (·.distance) ∧
        (searchResults slice k finished).map (·.distance) =
          ((sorted SearchResult.distance files.flatten).take k).map (·.distance)) ∧
      ∀ (dist : V → β) (raw : List V) (tree : Reduction V), tree.items.Perm raw.zipIdx →
        Nearest dist raw k (flatSearch pairs dist k tree) := by
  refine ⟨fun files finished hfinished => ⟨?_,?_⟩, fun dist raw tree htree => ?_⟩
  · rw [map_foldResults,map_take,map_take,
      ← map_eq_map_sorted (pairwise_sorted finished.flatten)
        ((perm_sorted finished.flatten).trans hfinished.flatten)]
  · exact map_selectSearchTopK slice fun hk =>
      (keeps_foldResults slice hk finished).perm hfinished.symm.flatten
  · exact nearest_flatSearch pairs dist htree

def SliceOrder.stable {distance : α → β} : SliceOrder distance := ⟨.stable, .stable⟩

theorem incremental_topK_two_files :
    (foldResults (.stable : SliceOrder (@SearchResult.distance Nat)) 2
        [[⟨0, 5, "b"⟩], [⟨3, 1, "a"⟩, ⟨4, 7, "a"⟩]]).map (·.distance) = [1, 5] ∧
      Nearest (fun v : Nat => v) [4, 2, 9] 2
        (flatSearch .stable (fun v : Nat => v) 2
          (.reduce (.reduce .identity (.fold [(4, 0)])) (.fold [(2, 1), (9, 2)]))) := by
  have htheorem := incremental_topK (V := Nat) (.stable : SliceOrder (@SearchResult.distance Nat))
    .stable 2
  refine ⟨?_, htheorem.2 _ _ _ (List.Perm.refl _)⟩
  refine (htheorem.1 _ _ (List.Perm.refl _)).1.trans ?_
  decide

end AiLake.TopK
