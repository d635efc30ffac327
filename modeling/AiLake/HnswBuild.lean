import AiLake.HnswInsert

/-! The serial build: from the unlinked index on, what the insertions keep. -/
namespace AiLake.Hnsw

open BestFirst Checked List

variable {D : Type} {sp : Space D} {rt : Runtime sp} {F : Fault → Prop}

namespace HnswBuilder

variable (b : HnswBuilder) (levels : Nat → Nat)

def Uniform : Prop := ∀ p ∈ b.vectors, p.2.length = b.dim

variable {b levels}

theorem vector_unlinked (h : b.Uniform) {i : Nat} (hi : i < b.vectors.length) :
    (b.unlinked levels).vector i = .ok b.vectors[i].2 := by
  have hlen : ∀ v ∈ b.vectors.map Prod.snd, v.length = b.dim := by
    simpa using fun v rowId hmem => h (rowId, v) hmem
  have hslice := slice_flatten hlen (i := i) (by simpa using hi)
  rw [getElem_map] at hslice
  exact checked_eq_ok.2 (by rw [← hslice]; rfl)

theorem list_unlinked {a layer : Nat} {l : List Nat} :
    (b.unlinked levels).list a layer = .ok l ↔
      a < b.vectors.length ∧ layer < levels a + 1 ∧ l = [] := by
  rw [HnswIndex.list_eq_ok]
  constructor
  · intro h
    obtain ⟨lists,hlists,hl⟩ := h
    obtain ⟨j,hj,rfl⟩ := mem_map.1 (mem_of_getElem? hlists)
    have hlt := (List.getElem?_eq_some_iff.1 hlists).1
    simp only [unlinked,length_map,length_range] at hlt
    simp only [unlinked,getElem?_map,getElem?_range hlt,Option.map_some,
      Option.some.injEq] at hlists
    rw [← hlists,getElem?_replicate] at hl
    split at hl
    · rename_i hlayer
      exact ⟨hlt, hlayer, (Option.some.inj hl).symm⟩
    · cases hl
  · intro h
    obtain ⟨ha,hlayer,rfl⟩ := h
    refine ⟨List.replicate (levels a + 1) [], ?_, ?_⟩
    · simp only [unlinked,getElem?_map,getElem?_range ha,Option.map_some]
    · rw [getElem?_replicate,if_pos hlayer]

theorem nodeLevels_unlinked {i level : Nat} : (b.unlinked levels).nodeLevels[i]? = some level ↔
    i < b.vectors.length ∧ level = levels i := by
  simp only [unlinked,getElem?_map]
  by_cases hi : i < b.vectors.length
  · rw [getElem?_range hi]
    simp [hi,eq_comm]
  · rw [getElem?_eq_none (by simpa using hi)]
    simp [hi]

theorem wired_unlinked (h : b.Uniform) : (b.unlinked levels).Wired 0 where
  sized := by
    refine ⟨?_, fun f16s hf16 => nomatch hf16⟩
    simp only [unlinked,length_flatMap,length_map]
    rw [map_congr_left h,map_const',sum_replicate,smul_eq_mul]
  neighbors := by simp [unlinked]
  levels := by simp [unlinked]
  shape a layer := by
    constructor
    · intro hl
      obtain ⟨l,hl⟩ := hl
      obtain ⟨ha,hlayer,-⟩ := list_unlinked.1 hl
      exact ⟨levels a, nodeLevels_unlinked.2 ⟨ha,rfl⟩, Nat.le_of_lt_succ hlayer⟩
    · intro hon
      obtain ⟨level,hlevel,hle⟩ := hon
      obtain ⟨ha,rfl⟩ := nodeLevels_unlinked.1 hlevel
      exact ⟨[], list_unlinked.2 ⟨ha, Nat.lt_succ_of_le hle, rfl⟩⟩
  links a layer l hl c hc := by
    obtain ⟨-,-,rfl⟩ := list_unlinked.1 hl
    cases hc
  fresh a layer l _ hl := (list_unlinked.1 hl).2.2

variable (b levels) in
structure Inserts (k : Nat) (idx : HnswIndex) : Prop where
  fields : idx.config = b.config ∧ idx.metric = b.metric ∧ idx.dim = b.dim ∧
    idx.flatVecs = (b.unlinked levels).flatVecs ∧ idx.flatVecsF16 = none ∧
      idx.rowIds = (b.unlinked levels).rowIds ∧ idx.nodeLevels = (b.unlinked levels).nodeLevels
  wired : idx.Wired k
  entered : idx.Entered k
  tidy : idx.Tidy
  topped : idx.Topped k

theorem inserts_unlinked (h : b.Uniform) : b.Inserts levels 0 (b.unlinked levels) where
  fields := ⟨rfl,rfl,rfl,rfl,rfl,rfl,rfl⟩
  wired := wired_unlinked h
  entered _ hep := nomatch hep
  tidy a layer l hl := by
    obtain ⟨-,-,rfl⟩ := list_unlinked.1 hl
    exact ⟨nodup_nil, not_mem_nil, Nat.zero_le _⟩
  topped := ⟨fun j hj => absurd hj (Nat.not_lt_zero j), fun _ => rfl⟩

variable {k : Nat} {idx idx' : HnswIndex}

theorem Inserts.vector (h : b.Inserts levels k idx) (i : Nat) :
    idx.vector i = (b.unlinked levels).vector i := by
  obtain ⟨-,-,hdim,hflat,-⟩ := h.fields
  rw [HnswIndex.vector,HnswIndex.vector,hdim,hflat]
  rfl

theorem Inserts.exact (h : b.Inserts levels k idx) (q : List F32) :
    idx.Exact sp q = (b.unlinked levels).Exact sp q := by
  funext d
  simp only [HnswIndex.Exact,h.vector,h.fields.2.1]
  rfl

theorem Inserts.length_rowIds (h : b.Inserts levels k idx) :
    idx.rowIds.length = b.vectors.length := by
  rw [h.fields.2.2.2.2.2.1]
  exact length_map ..

theorem Inserts.nodeLevels (h : b.Inserts levels k idx) (hk : k < b.vectors.length) :
    idx.nodeLevels[k]? = some (levels k) := by
  rw [h.fields.2.2.2.2.2.2]
  exact nodeLevels_unlinked.2 ⟨hk,rfl⟩

theorem Inserts.inserted (h : b.Inserts levels k idx) (hk : k < b.vectors.length)
    (hins : HnswIndex.Inserted k (levels k) idx idx') : b.Inserts levels (k + 1) idx' where
  fields := by
    obtain ⟨h1,h2,h3,h4,h5,h6,h7⟩ := hins.fields
    rw [h1,h2,h3,h4,h5,h6,h7]
    exact h.fields
  wired := hins.wired h.wired (h.nodeLevels hk)
  entered := hins.entered h.entered (h.nodeLevels hk)
  tidy := hins.tidy h.wired h.tidy
  topped := hins.topped h.topped (h.nodeLevels hk)

theorem insertNext_eq [DecidableEq D] (hb : b.Uniform) (h : b.Inserts levels k idx) (hk : k < b.vectors.length) :
    insertNext rt idx k = idx.insertAt rt k (levels k) b.vectors[k].2 := by
  simp only [insertNext,h.nodeLevels hk,checked,h.vector,vector_unlinked hb hk]
  rfl

theorem outcome_insertNext [DecidableEq D] (hb : b.Uniform) (h : b.Inserts levels k idx)
    (hk : k < b.vectors.length) (hcap : 2 ≤ b.vectors.length → HnswIndex.Affords rt F b.config)
    (horder : HnswIndex.OrdersStored rt F (b.unlinked levels)) :
    Outcome F (HnswIndex.Inserted k (levels k) idx) (insertNext rt idx k) := by
  rw [insertNext_eq hb h hk]
  have horder' : HnswIndex.OrdersStored rt F idx := by
    intro j v hv
    rw [h.vector] at hv
    rw [h.exact]
    exact horder j v hv
  refine HnswIndex.outcome_insertAt h.wired h.entered h.fields.2.2.2.2.1
    (by rw [h.length_rowIds]; exact hk) (h.nodeLevels hk) fun hep => ⟨?_, horder', horder' k _ ?_⟩
  · -- a search needs a node that was there before
    obtain ⟨ep,hep⟩ := Option.ne_none_iff_exists'.1 hep
    have := (h.entered ep hep).1
    rw [h.fields.1]
    exact hcap (by omega)
  · rw [h.vector,vector_unlinked hb hk]

theorem outcome_buildSerial [DecidableEq D] (hb : b.Uniform)
    (hlevels : F .capacity ∨ ∀ i < b.vectors.length, 24 * (levels i + 1) ≤ rt.limit)
    (hcap : 2 ≤ b.vectors.length → HnswIndex.Affords rt F b.config)
    (horder : HnswIndex.OrdersStored rt F (b.unlinked levels)) (I : Nat → HnswIndex → Prop)
    (hstart : I 0 (b.unlinked levels))
    (hstep : ∀ k idx idx', k < b.vectors.length → b.Inserts levels k idx → I k idx →
      HnswIndex.Inserted k (levels k) idx idx' → I (k + 1) idx') :
    Outcome F (fun idx => b.Inserts levels b.vectors.length idx ∧ I b.vectors.length idx)
      (b.buildSerialTyped rt levels) := by
  unfold buildSerialTyped
  refine (Outcome.forM fun level hlevel => outcome_reserve ?_).bind fun _ _ => ?_
  · obtain ⟨i,hi,rfl⟩ := mem_map.1 hlevel
    exact hlevels.imp_right fun h => h i (mem_range.1 hi)
  · refine Outcome.foldlM_range (fun k idx => b.Inserts levels k idx ∧ I k idx) b.vectors.length
      ⟨inserts_unlinked hb, hstart⟩ fun k hk idx h => ?_
    have hins := outcome_insertNext hb h.1 hk hcap horder
    exact hins.mono fun idx' hidx' => ⟨h.1.inserted hk hidx', hstep k idx idx' hk h.1 h.2 hidx'⟩

end HnswBuilder
end AiLake.Hnsw
