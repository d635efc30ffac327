import AiLake.Checked
import AiLake.SearchTopK
import Mathlib.Data.List.FinRange
import Mathlib.Data.List.NodupEquivFin
import Mathlib.Data.List.Perm.Basic

/-! Hybrid ranking: candidates of all files are ranked by distance and by text score, and a
candidate's two ranks or values are fused. -/
namespace Ranking

open List

theorem exists_places {α : Type} {l l' : List α} {n : Nat} (h : l'.Perm l) (hn : l.length = n) :
    ∃ place : Equiv.Perm (Fin n), ∀ i, l'[(place i : Nat)]? = l[(i : Nat)]? := by
  subst hn
  have hindexed : List.Forall₂ (fun a (i : Fin l.length) => l[(i : Nat)]? = some a) l
      (finRange l.length) := by
    refine forall₂_iff_get.2 ⟨by simp, fun i hi _ => ?_⟩
    simp
  obtain ⟨order,hrel,hperm⟩ := List.perm_comp_forall₂ h hindexed
  have hlen : order.length = l.length := by simpa using hperm.length_eq
  let at_ : Fin order.length ≃ Fin l.length := Nodup.getEquivOfForallMemList order
    (hperm.nodup_iff.2 (nodup_finRange _)) fun i => hperm.mem_iff.2 (mem_finRange i)
  refine ⟨at_.symm.trans (finCongr hlen), fun i => ?_⟩
  obtain ⟨r,rfl⟩ := at_.surjective i
  have hr : (r : Nat) < l'.length := by rw [hrel.length_eq]; exact r.isLt
  have hget := (forall₂_iff_get.1 hrel).2 r hr r.isLt
  have hplace : ((at_.symm.trans (finCongr hlen)) (at_ r) : Nat) = r := by simp
  rw [hplace,getElem?_eq_getElem hr]
  exact hget.symm

theorem UnstableSort.exists_ranks {α β : Type} [LinearOrder β] {key : α → β} (s : UnstableSort key)
    {l : List α} {n : Nat} (hn : l.length = n) : ∃ rank : Equiv.Perm (Fin n),
      (∀ i, (s.sort l)[(rank i : Nat)]? = l[(i : Nat)]?) ∧
        ∀ (i j : Fin n) (a b : α), l[(i : Nat)]? = some a → l[(j : Nat)]? = some b →
          rank i < rank j → key a ≤ key b := by
  obtain ⟨rank,hrank⟩ := exists_places (s.perm l) hn
  refine ⟨rank, hrank, fun i j a b ha hb hlt => ?_⟩
  rw [← hrank] at ha hb
  obtain ⟨hi,rfl⟩ := List.getElem?_eq_some_iff.1 ha
  obtain ⟨hj,rfl⟩ := List.getElem?_eq_some_iff.1 hb
  exact pairwise_iff_getElem.1 (s.ordered l) _ _ hi hj hlt

end Ranking

namespace AiLake.TopK

open Ranking List

structure RawCandidate (F : Type) where
  rowId : Nat
  distance : F
  filePath : String
  text : String

/-- What the scores use of `f32` beside its arithmetic and the order of `total_cmp`. -/
structure FloatOps (F : Type) where
  abs : F → F
  lt : F → F → Bool
  min : F → F → F
  max : F → F → F
  infinity : F
  epsilon : F

inductive Fusion where
  | rrf
  | linear

section Fuse

variable {F : Type} [Add F] [Sub F] [Mul F] [Div F] [Neg F] [NatCast F] (ops : FloatOps F)

def rrfScore (vecRank bm25Rank : Nat) (bm25Weight : F) : F :=
  let vecWeight := ((1 : Nat) : F) - bm25Weight
  let rrf := vecWeight / (((60 : Nat) : F) + vecRank) + bm25Weight / (((60 : Nat) : F) + bm25Rank);
  -rrf

def linearScore (vecDist minVec maxVec bm25 minBm25 maxBm25 bm25Weight : F) : F :=
  let normVec := if ops.lt (ops.abs (maxVec - minVec)) ops.epsilon then ((0 : Nat) : F)
    else (vecDist - minVec) / (maxVec - minVec)
  let normBm25 := if ops.lt (ops.abs (maxBm25 - minBm25)) ops.epsilon then ((1 : Nat) : F) / (2 : Nat)
    else (bm25 - minBm25) / (maxBm25 - minBm25)
  let vecWeight := ((1 : Nat) : F) - bm25Weight
  vecWeight * normVec + bm25Weight * (((1 : Nat) : F) - normBm25)

def lowest (values : List F) : F := values.foldl ops.min ops.infinity

def highest (values : List F) : F := values.foldl ops.max (-ops.infinity)

/-- The score of a candidate with these ranks, distance and text score. -/
def Fusion.score (bm25Weight : F) (distances scores : List F) (vecRank bm25Rank : Nat)
    (distance score : F) : Fusion → F
  | .rrf => rrfScore vecRank bm25Rank bm25Weight
  | .linear => linearScore ops distance (lowest ops distances) (highest ops distances) score
    (lowest ops scores) (highest ops scores) bm25Weight

/-- The rank of each position, from the positions in the order of their ranks. -/
def bm25RankOf (n : Nat) (indexed : List (F × Nat)) : Option (List Nat) :=
  indexed.zipIdx.foldlM (fun ranks p => Checked.modify ranks p.1.2 fun _ => p.2) (replicate n 0)

def fused (fusion : Fusion) (bm25Weight : F) (candidates : List (RawCandidate F × F))
    (bm25RankOf : List Nat) : Option (List F) :=
  match fusion with
  | .rrf => (range candidates.length).zipIdx.mapM fun p =>
    bm25RankOf[p.2]?.map fun rank => rrfScore p.1 rank bm25Weight
  | .linear =>
    let distances := candidates.map (·.1.distance)
    let scores := candidates.map (·.2)
    some (candidates.map fun c => linearScore ops c.1.distance (lowest ops distances)
      (highest ops distances) c.2 (lowest ops scores) (highest ops scores) bm25Weight)

variable [LinearOrder F] (byDistance : UnstableSort fun c : RawCandidate F × F => c.1.distance)
  (byScore : UnstableSort fun p : F × Nat => OrderDual.toDual p.1)
  (slice : SliceOrder (@SearchResult.distance F))

/-- The end of a hybrid search; `none` stands for an index out of range. -/
def fuseCandidates (fusion : Fusion) (bm25Weight : F) (bm25 : String → F) (k : Nat)
    (rawCandidates : List (RawCandidate F)) : Option (List (SearchResult F)) := do
  let scores := rawCandidates.map fun c => bm25 c.text
  let candidates := byDistance.sort (rawCandidates.zip scores)
  let indexed := byScore.sort (candidates.map (·.2)).zipIdx
  let ranks ← bm25RankOf candidates.length indexed
  let fused ← fused ops fusion bm25Weight candidates ranks
  let results ← candidates.zipIdx.mapM fun p =>
    fused[p.2]?.map fun score => ⟨p.1.1.rowId, score, p.1.1.filePath⟩
  pure (selectSearchTopK slice results k)

end Fuse

theorem bm25RankOf_eq {F : Type} {n : Nat} {indexed : List (F × Nat)}
    (hnodup : (indexed.map (·.2)).Nodup) (hlt : ∀ p ∈ indexed, p.2 < n) :
    ∃ ranks, bm25RankOf n indexed = some ranks ∧ ranks.length = n ∧
      ∀ (r : Nat) (p : F × Nat), indexed[r]? = some p → ranks[p.2]? = some r := by
  induction indexed using List.reverseRecOn with
  | nil => exact ⟨replicate n 0, rfl, length_replicate, fun r p hp => nomatch hp⟩
  | append_singleton indexed p ih =>
    rw [map_append,nodup_append] at hnodup
    obtain ⟨hinit,-,hnew⟩ := hnodup
    obtain ⟨ranks,hranks,hlen,hget⟩ := ih hinit fun q hq => hlt q (mem_append_left _ hq)
    have hp : p.2 < ranks.length := hlen ▸ hlt p (by simp)
    refine ⟨ranks.modify p.2 fun _ => indexed.length, ?_, by rw [length_modify,hlen], ?_⟩
    · rw [bm25RankOf,zipIdx_append,foldlM_append]
      change (bm25RankOf n indexed >>= fun ranks => _) = _
      rw [hranks]
      simp [Checked.modify,hp]
    · intro r q hq
      rw [getElem?_modify]
      by_cases hr : r < indexed.length
      · rw [getElem?_append_left hr] at hq
        have hne : p.2 ≠ q.2 := fun heq =>
          hnew q.2 (mem_map_of_mem (mem_of_getElem? hq)) p.2 (by simp) heq.symm
        simp [hne,hget r q hq]
      · have hend : r = indexed.length ∧ p = q := by
          rw [getElem?_append_right (Nat.le_of_not_lt hr),getElem?_singleton] at hq
          split at hq
          · exact ⟨by omega, Option.some.inj hq⟩
          · cases hq
        obtain ⟨rfl,rfl⟩ := hend
        simp [hp]

/-- The results are among the rows, each row at most once, and have the `k` smallest scores. -/
structure Smallest {F : Type} [LinearOrder F] (k : Nat) (rows results : List (SearchResult F)) :
    Prop where
  among : results.Subperm rows
  scores : results.map (·.distance) = ((sorted SearchResult.distance rows).take k).map (·.distance)

section Fused

variable {F : Type} [LinearOrder F] {n k : Nat}

theorem smallest_selectSearchTopK (slice : SliceOrder (@SearchResult.distance F))
    {rows results : List (SearchResult F)} (h : results.Perm rows) :
    Smallest k rows (selectSearchTopK slice results k) := by
  refine ⟨?_, map_selectSearchTopK slice fun _ => .of_perm h⟩
  by_cases hk : k = 0
  · rw [selectSearchTopK,if_pos hk]
    exact nil_subperm
  · obtain ⟨rest,hperm,-⟩ := (keeps_selectSearchTopK slice results hk).perm h.symm
    exact hperm.subperm_left.2 (sublist_append_left _ rest).subperm

variable [Add F] [Sub F] [Mul F] [Div F] [Neg F] [NatCast F] (ops : FloatOps F)

/-- The candidate that the order by distance puts at rank `v`, and its text score. -/
def ranked (candidates : List (RawCandidate F × F)) (h : candidates.length = n) (v : Fin n) :
    RawCandidate F × F :=
  candidates[v]

def rankedRow (fusion : Fusion) (w : F) (candidates : List (RawCandidate F × F))
    (h : candidates.length = n) (bm25Rank : Fin n → Fin n) (v : Fin n) : SearchResult F where
  rowId := (ranked candidates h v).1.rowId
  distance := fusion.score ops w (candidates.map (·.1.distance)) (candidates.map (·.2)) v (bm25Rank v)
    (ranked candidates h v).1.distance (ranked candidates h v).2
  filePath := (ranked candidates h v).1.filePath

omit [LinearOrder F] in
theorem fused_eq (fusion : Fusion) (w : F) {candidates : List (RawCandidate F × F)} {ranks : List Nat}
    (hn : candidates.length = n) {rank : Fin n → Fin n}
    (hranks : ∀ v : Fin n, ranks[(v : Nat)]? = some (rank v : Nat)) :
    fused ops fusion w candidates ranks =
      some (ofFn fun v => (rankedRow ops fusion w candidates hn rank v).distance) := by
  cases fusion with
  | rrf =>
    refine Checked.mapM_eq_some.2 (forall₂_iff_get.2 ⟨by simp [hn], fun v hv _ => ?_⟩)
    have hv : v < n := by simpa [hn] using hv
    simp [hranks ⟨v,hv⟩,rankedRow,Fusion.score]
  | linear =>
    subst hn
    exact congrArg some (ofFn_getElem_eq_map candidates _).symm

omit [Add F] [Sub F] [Mul F] [Div F] [Neg F] [NatCast F] in
theorem exists_bm25Ranks (byScore : UnstableSort fun p : F × Nat => OrderDual.toDual p.1)
    {candidates : List (RawCandidate F × F)} (hn : candidates.length = n) :
    ∃ (rank : Equiv.Perm (Fin n)) (ranks : List Nat),
      bm25RankOf candidates.length (byScore.sort (candidates.map (·.2)).zipIdx) = some ranks ∧
      (∀ v : Fin n, ranks[(v : Nat)]? = some (rank v : Nat)) ∧
      ∀ v u, rank v < rank u → (ranked candidates hn u).2 ≤ (ranked candidates hn v).2 := by
  subst hn
  have hindexed (v : Fin candidates.length) : (candidates.map (·.2)).zipIdx[(v : Nat)]? =
      some ((ranked candidates rfl v).2, (v : Nat)) := by simp [ranked]
  obtain ⟨rank,hrank,hle⟩ := byScore.exists_ranks (l := (candidates.map (·.2)).zipIdx)
    (n := candidates.length) (by simp)
  have hnodup : ((byScore.sort (candidates.map (·.2)).zipIdx).map (·.2)).Nodup := by
    rw [((byScore.perm _).map _).nodup_iff,zipIdx_map_snd]
    exact nodup_range'
  have hlt : ∀ p ∈ byScore.sort (candidates.map (·.2)).zipIdx, p.2 < candidates.length := by
    intro p hp
    simpa using snd_lt_of_mem_zipIdx ((byScore.perm _).mem_iff.1 hp)
  obtain ⟨ranks,hranks,-,hget⟩ := bm25RankOf_eq hnodup hlt
  refine ⟨rank, ranks, hranks, fun v => hget _ _ ((hrank v).trans (hindexed v)), fun v u hvu => ?_⟩
  exact hle v u _ _ (hindexed v) (hindexed u) hvu

omit [LinearOrder F] in
theorem results_eq (fusion : Fusion) (w : F) {candidates : List (RawCandidate F × F)}
    (hn : candidates.length = n) (rank : Fin n → Fin n) :
    candidates.zipIdx.mapM (fun p =>
      (ofFn fun v => (rankedRow ops fusion w candidates hn rank v).distance)[p.2]?.map fun score =>
        (⟨p.1.1.rowId, score, p.1.1.filePath⟩ : SearchResult F)) =
      some (ofFn (rankedRow ops fusion w candidates hn rank)) := by
  refine Checked.mapM_eq_some.2 (forall₂_iff_get.2 ⟨by simp [hn], fun v _ hv => ?_⟩)
  have hv : v < n := by simpa using hv
  simp [hv,rankedRow,ranked]

/-- Every candidate keeps its row, its path and the score of its own ranks, distance and text. -/
theorem fuse_own_scores (byDistance : UnstableSort fun c : RawCandidate F × F => c.1.distance)
    (byScore : UnstableSort fun p : F × Nat => OrderDual.toDual p.1)
    (slice : SliceOrder (@SearchResult.distance F)) (fusion : Fusion) (w : F) (bm25 : String → F)
    (k : Nat) (raw : List (RawCandidate F)) :
    let candidates := byDistance.sort (raw.zip (raw.map fun c => bm25 c.text))
    ∃ vecRank bm25Rank : Equiv.Perm (Fin raw.length),
      (∀ i j, vecRank i < vecRank j → raw[i].distance ≤ raw[j].distance) ∧
      (∀ i j, bm25Rank i < bm25Rank j → bm25 raw[j].text ≤ bm25 raw[i].text) ∧
      ∃ results, fuseCandidates ops byDistance byScore slice fusion w bm25 k raw = some results ∧
        Smallest k (ofFn fun i => ⟨raw[i].rowId, fusion.score ops w
          (candidates.map (·.1.distance)) (candidates.map (·.2)) (vecRank i) (bm25Rank i)
          raw[i].distance (bm25 raw[i].text), raw[i].filePath⟩) results := by
  intro candidates
  have hzip (i : Fin raw.length) : (raw.zip (raw.map fun c => bm25 c.text))[(i : Nat)]? =
      some (raw[i], bm25 raw[i].text) := by simp
  have hn : candidates.length = raw.length := by
    rw [(byDistance.perm _).length_eq]
    simp
  obtain ⟨vecRank,hvec,hvecle⟩ := byDistance.exists_ranks
    (l := raw.zip (raw.map fun c => bm25 c.text)) (n := raw.length) (by simp)
  have hranked (i : Fin raw.length) : ranked candidates hn (vecRank i) = (raw[i], bm25 raw[i].text) := by
    have hget := hvec i
    rw [hzip,getElem?_eq_getElem (by rw [hn]; exact (vecRank i).isLt)] at hget
    exact Option.some.inj hget
  obtain ⟨rank,ranks,hranks,hrank,hrankle⟩ := exists_bm25Ranks byScore hn
  refine ⟨vecRank, vecRank.trans rank, fun i j hlt => hvecle i j _ _ (hzip i) (hzip j) hlt,
    fun i j hlt => ?_, ?_⟩
  · have hle := hrankle _ _ hlt
    rw [hranked,hranked] at hle
    exact hle
  · refine ⟨selectSearchTopK slice (ofFn (rankedRow ops fusion w candidates hn rank)) k, ?_,
      smallest_selectSearchTopK slice ?_⟩
    · rw [fuseCandidates]
      change (bm25RankOf candidates.length _ >>= fun ranks => _) = _
      rw [hranks,Option.bind_eq_bind,Option.bind_some,fused_eq ops fusion w hn hrank,
        Option.bind_eq_bind,Option.bind_some,results_eq]
      rfl
    · -- the rows in the order of their ranks, rearranged
      refine (List.Perm.trans (.of_eq (congrArg ofFn (funext fun i => ?_)))
        (Equiv.Perm.ofFn_comp_perm vecRank _)).symm
      simp only [Function.comp_apply,rankedRow,hranked]
      rfl

end Fused

end AiLake.TopK
