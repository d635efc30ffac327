import AiLake.HnswInsert
import AiLake.HnswRescore
import AiLake.StoreProgram.History

/-! A deserialised index in use: searches, insertions and quantisation in any order. The check of a
snapshot covers every access of a traversal; the conditions on the steps are what it leaves out. -/
namespace AiLake.Hnsw

open BestFirst Checked

namespace HnswSerializer

variable {snap : HnswSnapshot}

theorem lt_of_checkEntryPoint (h : checkEntryPoint snap = .ok ()) (ep : Nat)
    (hep : snap.entryPoint = some ep) : ep < snap.rowIds.length := by
  unfold checkEntryPoint at h
  rw [hep] at h
  simp only at h
  split at h
  · cases h
  · exact Nat.lt_of_not_le ‹_›

theorem checkNode_eq_ok {n level i : Nat} {lists : List (List Nat)}
    (h : checkNode n ((lists, level), i) = .ok ()) :
    lists.length = (level + 1) % 2 ^ 64 ∧ ∀ l ∈ lists, ∀ nb ∈ l, nb < n := by
  unfold checkNode at h
  split at h
  · cases h
  · rename_i hlen
    refine ⟨not_not.1 hlen, fun l hl nb hnb => ?_⟩
    have hcheck := eq_ok_of_forM (eq_ok_of_forM h l hl) nb hnb
    unfold checkNeighbor at hcheck
    split at hcheck
    · cases hcheck
    · exact Nat.lt_of_not_le ‹_›

theorem lists_of_checkGraph (h : checkGraph snap = .ok ()) {c level : Nat}
    (hlevel : snap.nodeLevels[c]? = some level) : ∃ lists, snap.neighbors[c]? = some lists ∧
      lists.length = (level + 1) % 2 ^ 64 ∧ ∀ l ∈ lists, ∀ nb ∈ l, nb < snap.rowIds.length := by
  unfold checkGraph at h
  simp only at h
  split at h
  · cases h
  · rename_i hneighbors
    split at h
    · cases h
    · rename_i hlevels
      obtain ⟨_,hnodes,-⟩ := bind_eq_ok.1 h
      have hc : c < snap.neighbors.length := by
        rw [not_not.1 hneighbors,← not_not.1 hlevels]
        exact (List.getElem?_eq_some_iff.1 hlevel).1
      have hmem : ((snap.neighbors[c], level), c) ∈
          (snap.neighbors.zip snap.nodeLevels).zipIdx := by
        refine List.mem_zipIdx_iff_getElem?.2 ?_
        rw [List.getElem?_zip_eq_some]
        exact ⟨List.getElem?_eq_getElem hc, hlevel⟩
      exact ⟨snap.neighbors[c], List.getElem?_eq_getElem hc,
        checkNode_eq_ok (eq_ok_of_forM hnodes _ hmem)⟩

/-- An accepted snapshot is an index whose accesses are in range, if nothing wrapped around in the
check. -/
theorem formed_of_validate (h : validateSnapshot snap = .ok ()) (metric : VectorMetric)
    (hwords : snap.rowIds.length * snap.dim < 2 ^ 64)
    (hlevels : ∀ level ∈ snap.nodeLevels, level + 1 < 2 ^ 64) : (restored snap metric).Formed := by
  obtain ⟨_,hentry,h⟩ := bind_eq_ok.1 h
  obtain ⟨_,hlayers,hvectors⟩ := bind_eq_ok.1 h
  refine ⟨⟨?_, fun _ hf16 => nomatch hf16⟩, lt_of_checkEntryPoint hentry, ?_⟩
  · unfold checkVectors at hvectors
    simp only at hvectors
    split at hvectors
    · cases hvectors
    · rename_i hlen
      rw [Nat.mod_eq_of_lt hwords] at hlen
      exact not_not.1 hlen
  · intro hne c level layer hlevel hle
    rw [checkLayers,if_pos (show snap.neighbors ≠ [] from hne)] at hlayers
    obtain ⟨lists,hlists,hlen,hmem⟩ := lists_of_checkGraph hlayers hlevel
    rw [Nat.mod_eq_of_lt (hlevels level (List.mem_of_getElem? hlevel))] at hlen
    have hlayer : layer < lists.length := by omega
    exact ⟨lists[layer], HnswIndex.list_eq_ok.2 ⟨lists, hlists, List.getElem?_eq_getElem hlayer⟩,
      hmem _ (List.getElem_mem hlayer)⟩

theorem restored_of_fromBytes {decode : List UInt8 → Except String HnswSnapshot} {bytes : List UInt8}
    {idx : HnswIndex} (h : fromBytes decode bytes = .ok idx) :
    ∃ snap metric, validateSnapshot snap = .ok () ∧ idx = restored snap metric := by
  obtain ⟨snap,-,h⟩ := bind_eq_ok.1 h
  obtain ⟨metric,-,h⟩ := bind_eq_ok.1 h
  obtain ⟨_,hvalid,h⟩ := bind_eq_ok.1 h
  cases h
  exact ⟨snap,metric,hvalid,rfl⟩

end HnswSerializer

namespace HnswIndex

variable {D : Type} {sp : Space D} {rt : Runtime sp} {idx idx' : HnswIndex}

theorem Wired.formed (h : idx.Wired idx.rowIds.length) (hentry : idx.Entered idx.rowIds.length) :
    idx.Formed where
  sized := h.sized
  entry ep hep := (hentry ep hep).1
  lists _ c level layer hlevel hle := by
    obtain ⟨l,hl⟩ := (h.shape c layer).2 ⟨level,hlevel,hle⟩
    exact ⟨l, hl, fun nb hnb => (h.links c layer l hl nb hnb).1⟩

/-! A search of an index in use. -/

def Rescores (idx : HnswIndex) : Prop := idx.metric = .normalizedCosine ∧ idx.flatVecsF16.isSome

instance : Decidable idx.Rescores := inferInstanceAs (Decidable (_ ∧ _))

def pool (idx : HnswIndex) (topK ef : Nat) : Nat :=
  if idx.Rescores then max (max ef (topK * 10)) topK else topK

variable [DecidableEq D]

/-- A search is safe: nothing wrapped around in the check, the heaps are granted, no distances
contradict each other, and re-scored row ids are positions. -/
structure SafeToSearch (rt : Runtime sp) (idx : HnswIndex) (query : List F32) (topK ef : Nat) :
    Prop where
  words : idx.rowIds.length * idx.dim < 2 ^ 64
  levels : ∀ level ∈ idx.nodeLevels, level + 1 < 2 ^ 64
  room : idx.neighbors ≠ [] → 32 ≤ rt.limit ∧ 16 * (max ef (idx.pool topK ef) * 2) ≤ rt.limit ∧
    16 * (max ef (idx.pool topK ef) + 1) ≤ rt.limit
  attained : idx.neighbors ≠ [] → Comparable sp (idx.Attained sp (idx.stored sp query))
  exact : idx.neighbors = [] ∨ idx.Rescores → Comparable sp (idx.Exact sp (idx.stored sp query))
  positions : idx.Rescores → ∀ i, idx.Candidate sp (idx.stored sp query) i →
    ∀ rowId, idx.rowIds[i]? = some rowId → rowId.toNat < idx.rowIds.length

variable {query : List F32} {topK ef : Nat}

theorem search_of_not_rescores (h : ¬idx.Rescores) (rt : Runtime sp) (query : List F32) (topK ef : Nat) :
    idx.search rt query topK ef = idx.searchTyped rt (idx.stored sp query) topK ef := by
  unfold search stored
  split
  · rename_i hmetric
    rw [if_neg fun hf16 => h ⟨hmetric,hf16⟩]
  · rfl

omit [DecidableEq D] in
theorem vectorOfRow_eq_vector (hwords : idx.rowIds.length * idx.dim < 2 ^ 64)
    {rowId : UInt64} (h : rowId.toNat < idx.rowIds.length) :
    idx.vectorOfRow rowId = idx.vector rowId.toNat := by
  have hend : (rowId.toNat + 1) * idx.dim ≤ idx.rowIds.length * idx.dim := Nat.mul_le_mul_right _ h
  have hstart : rowId.toNat * idx.dim ≤ (rowId.toNat + 1) * idx.dim := Nat.mul_le_mul_right _ (Nat.le_succ _)
  rw [vectorOfRow,vector,Nat.mod_eq_of_lt (by omega),Nat.mod_eq_of_lt (by omega)]

theorem outcome_search (hidx : idx.Formed) (h : idx.SafeToSearch rt query topK ef) :
    Outcome (fun _ => False) (fun hits => hits.length ≤ topK ∧ ∀ h ∈ hits, h.1 ∈ idx.rowIds)
      (idx.search rt query topK ef) := by
  have htyped := outcome_searchTyped (F := fun _ => False) hidx (fun hne => .inr (h.room hne))
    (fun hne => (h.attained hne).orders) fun hnil => (h.exact (.inl hnil)).orders
  by_cases hrescores : idx.Rescores
  · have hq : idx.stored sp query = sp.normalizeL2 query := if_pos hrescores.1
    have hpool : idx.pool topK ef = max (max ef (topK * 10)) topK := if_pos hrescores
    rw [search_eq_rescored hrescores.1 hrescores.2,← hq,← hpool]
    refine htyped.bind fun candidates hc => ?_
    have hrescore : Outcome (fun _ => False) (List.Forall₂ (fun _ (s : Hit D) =>
        s.1 ∈ idx.rowIds ∧ idx.Exact sp (idx.stored sp query) s.2) candidates)
        (candidates.mapM (idx.rescore sp (idx.stored sp query))) := by
      refine Outcome.mapM fun c hmem => ?_
      obtain ⟨i,hi,hrow⟩ := hc.2 c hmem
      have hlt := h.positions hrescores i hi c.1 hrow
      obtain ⟨v,hv⟩ := hidx.sized.exists_vector hlt
      rw [rescore,vectorOfRow_eq_vector h.words hlt,hv]
      exact ⟨List.mem_of_getElem? hrow, _, v, hv, by rw [hrescores.1]⟩
    refine hrescore.bind fun scored hscored => ?_
    have hall : ∀ s ∈ scored, s.1 ∈ idx.rowIds ∧ idx.Exact sp (idx.stored sp query) s.2 := by
      intro s hs
      obtain ⟨_,-,hs⟩ := exists_of_mem_right hscored hs
      exact hs
    exact (outcome_selectTopK (h.exact (.inr hrescores)).orders (fun s hs => (hall s hs).2) topK).mono
      fun r hr => ⟨hr.1, fun s hs => (hall s (hr.2.1 s hs)).1⟩
  · have hpool : idx.pool topK ef = topK := if_neg hrescores
    rw [search_of_not_rescores hrescores]
    rw [hpool] at htyped
    refine htyped.mono fun hits hhits => ⟨hhits.1, fun s hs => ?_⟩
    obtain ⟨i,-,hrow⟩ := hhits.2 s hs
    exact List.mem_of_getElem? hrow

/-! An insertion into an index in use. -/

/-- An insertion is safe: the graph is that of a build, also where the check of a snapshot does not
look, the reservations are granted, and no distances contradict each other. -/
structure SafeToInsert (rt : Runtime sp) (idx : HnswIndex) (rowId : UInt64) (v : List F32)
    (level : Nat) : Prop where
  wired : idx.Wired idx.rowIds.length
  entered : idx.Entered idx.rowIds.length
  lists : 24 * (level + 1) ≤ rt.limit
  room : idx.entryPoint ≠ none → Affords rt (fun _ => False) idx.config
  comparable : idx.entryPoint ≠ none → ∀ j w,
    (idx.append rowId level (idx.stored sp v)).vector j = .ok w →
      Comparable sp ((idx.append rowId level (idx.stored sp v)).Exact sp w)

end HnswIndex

/-! Runs. -/

variable {D : Type} [DecidableEq D] {sp : Space D}

/-- A use of an index. The level of an inserted node is drawn at random. -/
inductive Use (sp : Space D) where
  | quantize
  | search (rt : Runtime sp) (query : List F32) (topK ef : Nat)
  | insert (rt : Runtime sp) (rowId : UInt64) (vector : List F32) (level : Nat)

namespace Use

def run (idx : HnswIndex) : Use sp → Except Fault (HnswIndex × List (Hit D))
  | .quantize => pure (idx.quantizeToF16 sp, [])
  | .search rt query topK ef => do
    let hits ← idx.search rt query topK ef
    pure (idx, hits)
  | .insert rt rowId v level => do
    let idx ← idx.insertNode rt rowId v level
    pure (idx, [])

def OfDim (dim : Nat) : Use sp → Prop
  | .quantize => True
  | .search _ query _ _ => query.length = dim
  | .insert _ _ v _ => v.length = dim

def topK : Use sp → Nat
  | .search _ _ topK _ => topK
  | _ => 0

/-- The use ends without a panic and returns rows of the index, no more than asked for. -/
def Safe (idx : HnswIndex) (u : Use sp) : Prop :=
  ∃ idx' hits, u.run idx = .ok (idx', hits) ∧ hits.length ≤ u.topK ∧ ∀ h ∈ hits, h.1 ∈ idx.rowIds

def Meets (idx : HnswIndex) : Use sp → Prop
  | .quantize => True
  | .search rt query topK ef => idx.SafeToSearch rt query topK ef
  | .insert rt rowId v level => idx.SafeToInsert rt rowId v level

variable (sp) in
def Step (idx : HnswIndex) (u : Use sp) (idx' : HnswIndex) : Prop :=
  u.OfDim idx.dim ∧ u.Meets idx ∧ ∃ hits, u.run idx = .ok (idx', hits)

/-- What a deserialised index keeps: where nothing wrapped around, all its accesses are in range. -/
def Checks (idx : HnswIndex) : Prop :=
  idx.rowIds.length * idx.dim < 2 ^ 64 → (∀ level ∈ idx.nodeLevels, level + 1 < 2 ^ 64) → idx.Formed

omit [DecidableEq D] in
theorem checks_quantize {idx : HnswIndex} (h : Checks idx) : Checks (idx.quantizeToF16 sp) := by
  intro hwords hlevels
  have hidx := h hwords hlevels
  refine ⟨⟨hidx.sized.flat, fun f16s hf16 => ?_⟩, hidx.entry, hidx.lists⟩
  cases hf16
  rw [List.length_map]
  exact hidx.sized.flat

theorem inserted_of_insert {idx : HnswIndex} {rt : Runtime sp} {rowId : UInt64} {v : List F32}
    {level : Nat} (hv : v.length = idx.dim) (h : idx.SafeToInsert rt rowId v level) :
    ∃ idx', idx.insertNode rt rowId v level = .ok idx' ∧ idx'.Formed := by
  obtain ⟨idx',hinsert,hins⟩ := outcome_false.1 (HnswIndex.outcome_insertNode h.wired h.entered hv
    (.inr h.lists) fun hne => ⟨h.room hne, fun j w hw => (h.comparable hne j w hw).orders⟩)
  have hlen : (idx.stored sp v).length = idx.dim := (HnswIndex.length_stored v).trans hv
  obtain ⟨hwired,hentered⟩ := hins.wired_append h.wired h.entered hlen
  exact ⟨idx', hinsert, hwired.formed hentered⟩

theorem checks_step {idx idx' : HnswIndex} {u : Use sp} (h : Checks idx) (hstep : Step sp idx u idx') :
    Checks idx' := by
  obtain ⟨hdim,hmeets,hits,hrun⟩ := hstep
  cases u with
  | quantize =>
    cases hrun
    exact checks_quantize h
  | search rt query topK ef =>
    obtain ⟨_,-,hrun⟩ := bind_eq_ok.1 hrun
    cases hrun
    exact h
  | insert rt rowId v level =>
    obtain ⟨idx'',hinsert,hformed⟩ := inserted_of_insert hdim hmeets
    simp only [run,hinsert] at hrun
    cases hrun
    exact fun _ _ => hformed

theorem safe_of_checks {idx : HnswIndex} {u : Use sp} (h : Checks idx) (hdim : u.OfDim idx.dim)
    (hmeets : u.Meets idx) : u.Safe idx := by
  cases u with
  | quantize => exact ⟨_,[],rfl,le_rfl,nofun⟩
  | search rt query topK ef =>
    obtain ⟨hits,hsearch,hlen,hrows⟩ := outcome_false.1
      (HnswIndex.outcome_search (h hmeets.words hmeets.levels) hmeets)
    exact ⟨idx, hits, by rw [run,hsearch]; rfl, hlen, hrows⟩
  | insert rt rowId v level =>
    obtain ⟨idx',hinsert,-⟩ := inserted_of_insert hdim hmeets
    exact ⟨idx', [], by rw [run,hinsert]; rfl, le_rfl, nofun⟩

open StoreProgram in
/-- In every run of a deserialised index whose uses meet the condition, each use is safe. -/
theorem safe_of_deserialised {decode : List UInt8 → Except String HnswSnapshot} {bytes : List UInt8}
    {idx₀ idx : HnswIndex} {uses : List (Use sp)} {u : Use sp}
    (hload : HnswSerializer.fromBytes decode bytes = .ok idx₀)
    (hrun : History (Step sp) idx₀ uses idx) (hdim : u.OfDim idx.dim) (hmeets : u.Meets idx) :
    u.Safe idx := by
  refine safe_of_checks (hrun.invariant Checks (fun _ _ _ h hstep => checks_step h hstep) ?_) hdim hmeets
  obtain ⟨snap,metric,hvalid,rfl⟩ := HnswSerializer.restored_of_fromBytes hload
  exact HnswSerializer.formed_of_validate hvalid metric

end Use

def demoSnapshot (rowId : UInt64) : HnswSnapshot :=
  ⟨16, 150, 10, 3, 1, [rowId], [0x3F800000#32], [[[]]], [0], some 0, 0⟩

/-- Two rows; on layer 1 the first node has a link to the second, which is not on that layer. -/
def demoCrossed : HnswSnapshot :=
  ⟨16, 150, 10, 1, 1, [0, 1], [5#32, 9#32], [[[1], [1]], [[0]]], [1, 0], some 0, 1⟩

theorem safe_demoSnapshot : ∃ idx idx', HnswSerializer.fromBytes (fun _ => .ok (demoSnapshot 0)) [] =
    .ok idx ∧ StoreProgram.History (Use.Step demoSpace) idx [.quantize] idx' ∧
      Use.Meets idx' (.search (.standard demoSpace (2 ^ 63 - 1)) [0x3F800000#32] 1 10) ∧
        Use.Safe idx' (.search (.standard demoSpace (2 ^ 63 - 1)) [0x3F800000#32] 1 10) := by
  have hload : HnswSerializer.fromBytes (fun _ => .ok (demoSnapshot 0)) [] =
      .ok (HnswSerializer.restored (demoSnapshot 0) .normalizedCosine) := by decide +kernel
  have hrun : StoreProgram.History (Use.Step demoSpace)
      (HnswSerializer.restored (demoSnapshot 0) .normalizedCosine) [.quantize] (demoRow 0) :=
    .step .start ⟨trivial,trivial,[],rfl⟩
  have hmeets : Use.Meets (demoRow 0)
      (.search (.standard demoSpace (2 ^ 63 - 1)) [0x3F800000#32] 1 10) := by
    refine ⟨by decide, by decide, fun _ => ?_, fun _ => comparable_of_linear demoSpace_lt _,
      fun _ => comparable_of_linear demoSpace_lt _, fun _ i hi rowId hrow => ?_⟩
    · have hpool : (demoRow 0).pool 1 10 = 10 := by decide
      rw [hpool]
      exact ⟨show 32 ≤ 2 ^ 63 - 1 by decide, show 16 * (max 10 10 * 2) ≤ 2 ^ 63 - 1 by decide,
        show 16 * (max 10 10 + 1) ≤ 2 ^ 63 - 1 by decide⟩
    · obtain rfl : i = 0 := Nat.lt_one_iff.1 hi.1
      cases hrow
      decide
  exact ⟨_, _, hload, hrun, hmeets, Use.safe_of_deserialised hload hrun rfl hmeets⟩

/-- An insertion on layer 1 selects the second node and looks for its list on that layer; a re-scored
search reads the eighth of one vector. -/
theorem accepted_snapshots_fail :
    (HnswSerializer.fromBytes (fun _ => .ok demoCrossed) [] =
        .ok (HnswSerializer.restored demoCrossed .euclidean) ∧
      ¬Use.Safe (HnswSerializer.restored demoCrossed .euclidean)
        (.insert (.standard demoSpace (2 ^ 63 - 1)) 2 [7#32] 1)) ∧
    HnswSerializer.fromBytes (fun _ => .ok (demoSnapshot 7)) [] =
        .ok (HnswSerializer.restored (demoSnapshot 7) .normalizedCosine) ∧
      ¬Use.Safe ((HnswSerializer.restored (demoSnapshot 7) .normalizedCosine).quantizeToF16 demoSpace)
        (.search (.standard demoSpace (2 ^ 63 - 1)) [0x3F800000#32] 1 10) := by
  refine ⟨⟨by decide +kernel, fun h => ?_⟩, by decide +kernel, fun h => ?_⟩
  · obtain ⟨idx',hits,hrun,-⟩ := h
    have hfault : (HnswSerializer.restored demoCrossed .euclidean).insertNode
        (.standard demoSpace (2 ^ 63 - 1)) 2 [7#32] 1 = .error .outOfRange := by decide +kernel
    rw [Use.run,hfault] at hrun
    cases hrun
  · obtain ⟨idx',hits,hrun,-⟩ := h
    have hfault : ((HnswSerializer.restored (demoSnapshot 7) .normalizedCosine).quantizeToF16
        demoSpace).search (.standard demoSpace (2 ^ 63 - 1)) [0x3F800000#32] 1 10 =
          .error .outOfRange := by decide +kernel
    rw [Use.run,hfault] at hrun
    cases hrun

end AiLake.Hnsw
