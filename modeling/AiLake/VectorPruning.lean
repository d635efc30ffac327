import AiLake.FileFormat
import Mathlib.Analysis.InnerProductSpace.PiL2

/-! Files are left out of a search by the distance of the query from their centroid and by their radius.
The arithmetic is exact here. -/
namespace AiLake.VectorPruning

open List

/-! `ailake-vec`: the distances, and the centroid and radius of the vectors of a file. -/

noncomputable section

def dotProduct (a b : List ℝ) : ℝ := (List.zipWith (· * ·) a b).sum

def euclideanDistance (a b : List ℝ) : ℝ :=
  √(List.zipWith (fun x y => (x - y) * (x - y)) a b).sum

def norm (a : List ℝ) : ℝ := √(a.map fun x => x * x).sum

def cosineDistance (a b : List ℝ) : ℝ :=
  if norm a = 0 ∨ norm b = 0 then 1 else 1 - dotProduct a b / (norm a * norm b)

def normalizedCosineDistance (a b : List ℝ) : ℝ := 1 - dotProduct a b

def exactDistance : VectorMetric → List ℝ → List ℝ → ℝ
  | .cosine => cosineDistance
  | .euclidean => euclideanDistance
  | .dotProduct => fun a b => -dotProduct a b
  | .normalizedCosine => normalizedCosineDistance

structure Centroid where
  values : List ℝ
  radius : ℝ

def centre (vectors : List (List ℝ)) : List ℝ :=
  (List.range (vectors.headD []).length).map fun i =>
    (vectors.map (·.getD i 0)).sum / vectors.length

/-- `compute_centroid_and_radius`; every vector and every distance is finite here. -/
def computeCentroidAndRadius (vectors : List (List ℝ)) (metric : VectorMetric) : Centroid :=
  if vectors = [] then ⟨[], 0⟩
  else ⟨centre vectors, (vectors.map (exactDistance metric (centre vectors))).foldl max 0⟩

/-! `ailake-query`: the pruner. -/

structure FileGeometry where
  path : String
  centroid : Option (List ℝ)
  radius : Option ℝ

def decodeCentroid (entry : FileGeometry) : Option Centroid :=
  entry.centroid.map fun values => ⟨values, entry.radius.getD 0⟩

def computeDistance (a b : List ℝ) : VectorMetric → ℝ
  | .cosine | .normalizedCosine => cosineDistance a b
  | .euclidean => euclideanDistance a b
  | .dotProduct => -dotProduct a b

open Classical in
def keeps (query : List ℝ) (metric : VectorMetric) (threshold : ℝ) (entry : FileGeometry) : Bool :=
  match decodeCentroid entry with
  | some centroid =>
    if centroid.values.length ≠ query.length then true
    else decide (computeDistance query centroid.values metric - centroid.radius ≤ threshold)
  | none => true

/-- `VectorPruner::prune`. -/
def prune (files : List FileGeometry) (query : List ℝ) (metric : VectorMetric) (threshold : ℝ) :
    List FileGeometry :=
  files.filter (keeps query metric threshold)

end

/-- The entry has the geometry of these vectors. -/
def FileGeometry.Describes (entry : FileGeometry) (vectors : List (List ℝ)) (metric : VectorMetric) :
    Prop :=
  entry.centroid = some (computeCentroidAndRadius vectors metric).values ∧
    entry.radius = some (computeCentroidAndRadius vectors metric).radius

/-- No file with a vector within the threshold is dropped, for vectors of one dimension. -/
def KeepsHits (metric : VectorMetric) (dim : Nat) : Prop :=
  ∀ (files : List FileGeometry) (entry : FileGeometry) (vectors : List (List ℝ)) (query : List ℝ)
    (threshold : ℝ), entry ∈ files → vectors ≠ [] → (∀ v ∈ vectors, v.length = dim) →
    query.length = dim → entry.Describes vectors metric →
    (∃ v ∈ vectors, exactDistance metric query v ≤ threshold) →
    entry ∈ prune files query metric threshold

/-! One file. -/

section OneFile

variable {vectors : List (List ℝ)} {metric : VectorMetric} {dim : Nat} {v query : List ℝ}

theorem length_centre (hne : vectors ≠ []) (hdim : ∀ v ∈ vectors, v.length = dim) :
    (centre vectors).length = dim := by
  obtain ⟨v,vectors,rfl⟩ := exists_cons_of_ne_nil hne
  simp [centre,hdim v mem_cons_self]

theorem le_foldl_max (l : List ℝ) (start : ℝ) : start ≤ l.foldl max start := by
  induction l generalizing start with
  | nil => exact le_rfl
  | cons x l ih => exact (le_max_left start x).trans (ih _)

theorem le_foldl_max_of_mem {l : List ℝ} {x start : ℝ} (h : x ∈ l) : x ≤ l.foldl max start := by
  induction l generalizing start with
  | nil => cases h
  | cons y l ih =>
    cases h with
    | head => exact (le_max_right start x).trans (le_foldl_max l _)
    | tail _ h => exact ih h

noncomputable def radiusOf (vectors : List (List ℝ)) (metric : VectorMetric) : ℝ :=
  (vectors.map (exactDistance metric (centre vectors))).foldl max 0

theorem radiusOf_nonneg : 0 ≤ radiusOf vectors metric := le_foldl_max _ 0

theorem exactDistance_le_radiusOf (metric : VectorMetric) (hv : v ∈ vectors) :
    exactDistance metric (centre vectors) v ≤ radiusOf vectors metric :=
  le_foldl_max_of_mem (mem_map_of_mem hv)

theorem keepsHits_iff : KeepsHits metric dim ↔
    ∀ (vectors : List (List ℝ)) (query : List ℝ), vectors ≠ [] → (∀ v ∈ vectors, v.length = dim) →
      query.length = dim → ∀ v ∈ vectors,
      computeDistance query (centre vectors) metric - radiusOf vectors metric ≤
        exactDistance metric query v := by
  have hkeeps {entry : FileGeometry} {vectors : List (List ℝ)} {query : List ℝ} {threshold : ℝ}
      (hne : vectors ≠ []) (hdim : ∀ v ∈ vectors, v.length = dim) (hquery : query.length = dim)
      (hentry : entry.Describes vectors metric) : keeps query metric threshold entry ↔
        computeDistance query (centre vectors) metric - radiusOf vectors metric ≤ threshold := by
    obtain ⟨hcentroid,hradius⟩ := hentry
    rw [computeCentroidAndRadius,if_neg hne] at hcentroid hradius
    have hlen : (centre vectors).length = query.length := by rw [length_centre hne hdim,hquery]
    simp [keeps,decodeCentroid,hcentroid,hradius,hlen,radiusOf]
  constructor
  · intro h vectors query hne hdim hquery v hv
    let entry : FileGeometry := ⟨"", some (computeCentroidAndRadius vectors metric).values,
      some (computeCentroidAndRadius vectors metric).radius⟩
    have hkept := h [entry] entry vectors query _ mem_cons_self hne hdim hquery ⟨rfl,rfl⟩
      ⟨v,hv,le_rfl⟩
    exact (hkeeps hne hdim hquery ⟨rfl,rfl⟩).1 (mem_filter.1 hkept).2
  · rintro h files entry vectors query threshold hmem hne hdim hquery hentry ⟨v,hv,hhit⟩
    refine mem_filter.2 ⟨hmem, (hkeeps hne hdim hquery hentry).2 ?_⟩
    exact (h vectors query hne hdim hquery v hv).trans hhit

end OneFile

/-! The Euclidean distance keeps the triangle inequality. -/

section Euclidean

theorem zipWith_ofFn {n : Nat} (f : ℝ → ℝ → ℝ) (a b : Fin n → ℝ) :
    List.zipWith f (List.ofFn a) (List.ofFn b) = List.ofFn fun i => f (a i) (b i) := by
  refine ext_getElem (by simp) fun i h₁ h₂ => ?_
  simp

theorem euclideanDistance_ofFn {n : Nat} (a b : Fin n → ℝ) :
    euclideanDistance (List.ofFn a) (List.ofFn b) = dist (WithLp.toLp 2 a) (WithLp.toLp 2 b) := by
  rw [euclideanDistance,zipWith_ofFn,sum_ofFn,EuclideanSpace.dist_eq]
  congr 1
  refine Finset.sum_congr rfl fun i _ => ?_
  rw [Real.dist_eq,sq_abs,pow_two]

theorem exists_ofFn {n : Nat} {a : List ℝ} (h : a.length = n) : ∃ f : Fin n → ℝ, a = List.ofFn f := by
  subst h
  exact ⟨a.get, (ofFn_get a).symm⟩

theorem euclideanDistance_comm (a b : List ℝ) : euclideanDistance a b = euclideanDistance b a := by
  rw [euclideanDistance,euclideanDistance,zipWith_comm]
  congr 3
  funext x y
  ring

theorem euclideanDistance_triangle {n : Nat} {a b c : List ℝ} (ha : a.length = n) (hb : b.length = n)
    (hc : c.length = n) :
    euclideanDistance a c ≤ euclideanDistance a b + euclideanDistance b c := by
  obtain ⟨f,rfl⟩ := exists_ofFn ha
  obtain ⟨g,rfl⟩ := exists_ofFn hb
  obtain ⟨h,rfl⟩ := exists_ofFn hc
  rw [euclideanDistance_ofFn,euclideanDistance_ofFn,euclideanDistance_ofFn]
  exact dist_triangle _ _ _

theorem keepsHits_euclidean (dim : Nat) : KeepsHits .euclidean dim := by
  rw [keepsHits_iff]
  intro vectors query hne hdim hquery v hv
  have hradius : euclideanDistance (centre vectors) v ≤ radiusOf vectors .euclidean :=
    exactDistance_le_radiusOf .euclidean hv
  have htriangle := euclideanDistance_triangle hquery (hdim v hv) (length_centre hne hdim)
  rw [euclideanDistance_comm v] at htriangle
  change euclideanDistance query (centre vectors) - _ ≤ euclideanDistance query v
  linarith

end Euclidean

/-! Vectors without coordinates, and the cosine distance on a line. -/

theorem keepsHits_zero (metric : VectorMetric) : KeepsHits metric 0 := by
  rw [keepsHits_iff]
  intro vectors query hne hdim hquery v hv
  have hcentre := eq_nil_of_length_eq_zero (length_centre hne hdim)
  have hradius : 0 ≤ radiusOf vectors metric := radiusOf_nonneg
  obtain rfl := eq_nil_of_length_eq_zero (hdim v hv)
  obtain rfl := eq_nil_of_length_eq_zero hquery
  rw [hcentre]
  cases metric <;>
    simp [computeDistance,exactDistance,cosineDistance,normalizedCosineDistance,norm,dotProduct,
      hradius]

theorem cosineDistance_singleton (x y : ℝ) :
    cosineDistance [x] [y] = 1 - (SignType.sign x : ℝ) * (SignType.sign y : ℝ) := by
  have hnorm (z : ℝ) : norm [z] = |z| := by simp [norm,Real.sqrt_mul_self_eq_abs]
  simp only [cosineDistance,hnorm,abs_eq_zero]
  split
  · next h =>
    rcases h with rfl | rfl
    · simp
    · simp
  · next h =>
    obtain ⟨hx,hy⟩ := not_or.1 h
    have hdot : dotProduct [x] [y] = x * y := by simp [dotProduct]
    have hx' : x / |x| = (SignType.sign x : ℝ) := by
      rw [div_eq_iff (abs_ne_zero.2 hx),sign_mul_abs]
    have hy' : y / |y| = (SignType.sign y : ℝ) := by
      rw [div_eq_iff (abs_ne_zero.2 hy),sign_mul_abs]
    rw [hdot,mul_div_mul_comm,hx',hy']

theorem keepsHits_cosine_one : KeepsHits .cosine 1 := by
  rw [keepsHits_iff]
  intro vectors query hne hdim hquery v hv
  have hradius : cosineDistance (centre vectors) v ≤ radiusOf vectors .cosine :=
    exactDistance_le_radiusOf .cosine hv
  have hpos : 0 ≤ radiusOf vectors .cosine := radiusOf_nonneg
  obtain ⟨x,rfl⟩ := length_eq_one_iff.1 hquery
  obtain ⟨y,rfl⟩ := length_eq_one_iff.1 (hdim v hv)
  obtain ⟨c,hc⟩ := length_eq_one_iff.1 (length_centre hne hdim)
  rw [hc,cosineDistance_singleton] at hradius
  change cosineDistance [x] (centre vectors) - _ ≤ cosineDistance [x] [y]
  rw [hc,cosineDistance_singleton,cosineDistance_singleton]
  generalize SignType.sign x = a at *
  generalize SignType.sign y = b at *
  generalize SignType.sign c = m at *
  cases a <;> cases b <;> cases m <;> simp at hradius ⊢ <;> linarith

/-! Zeros behind the coordinates change no distance. -/

section Padding

variable {k n : Nat} {vectors : List (List ℝ)} {a b : List ℝ}

def pad (n : Nat) (a : List ℝ) : List ℝ := a ++ List.replicate n 0

theorem sum_zipWith_pad {f : ℝ → ℝ → ℝ} (hf : f 0 0 = 0) (h : a.length = b.length) :
    (List.zipWith f (pad n a) (pad n b)).sum = (List.zipWith f a b).sum := by
  rw [pad,pad,zipWith_append h,sum_append,zipWith_replicate,hf]
  simp

theorem dotProduct_pad (h : a.length = b.length) : dotProduct (pad n a) (pad n b) = dotProduct a b :=
  sum_zipWith_pad (mul_zero 0) h

theorem norm_pad : norm (pad n a) = norm a := by simp [norm,pad]

theorem exactDistance_pad (metric : VectorMetric) (h : a.length = b.length) :
    exactDistance metric (pad n a) (pad n b) = exactDistance metric a b := by
  cases metric with
  | cosine => simp only [exactDistance,cosineDistance,norm_pad,dotProduct_pad h]
  | euclidean => simp only [exactDistance,euclideanDistance,
      sum_zipWith_pad (f := fun x y => (x - y) * (x - y)) (by norm_num) h]
  | dotProduct => simp only [exactDistance,dotProduct_pad h]
  | normalizedCosine => simp only [exactDistance,normalizedCosineDistance,dotProduct_pad h]

theorem computeDistance_pad (metric : VectorMetric) (h : a.length = b.length) :
    computeDistance (pad n a) (pad n b) metric = computeDistance a b metric := by
  have hcosine := exactDistance_pad (n := n) .cosine h
  cases metric with
  | cosine => exact hcosine
  | euclidean => exact exactDistance_pad .euclidean h
  | dotProduct => exact exactDistance_pad .dotProduct h
  | normalizedCosine => exact hcosine

theorem centre_pad (hne : vectors ≠ []) (hdim : ∀ v ∈ vectors, v.length = k) :
    centre (vectors.map (pad n)) = pad n (centre vectors) := by
  have hhead : ((vectors.map (pad n)).headD []).length = k + n := by
    obtain ⟨v,vectors,rfl⟩ := exists_cons_of_ne_nil hne
    simp [pad,hdim v mem_cons_self]
  have hhead' : (vectors.headD []).length = k := by
    obtain ⟨v,vectors,rfl⟩ := exists_cons_of_ne_nil hne
    exact hdim v mem_cons_self
  rw [centre,centre,hhead,hhead',range_add,map_append,pad]
  congr 1
  · refine map_congr_left fun i hi => ?_
    have hi := mem_range.1 hi
    rw [map_map,length_map]
    congr 2
    refine map_congr_left fun v hv => ?_
    exact getD_append v _ 0 i (by rw [hdim v hv]; exact hi)
  · rw [map_map]
    refine eq_replicate_iff.2 ⟨by simp, fun x hx => ?_⟩
    obtain ⟨i,-,rfl⟩ := mem_map.1 hx
    have hzero : ((vectors.map (pad n)).map (·.getD (k + i) 0)) =
        List.replicate vectors.length 0 := by
      rw [map_map]
      refine eq_replicate_iff.2 ⟨by simp, fun y hy => ?_⟩
      obtain ⟨v,hv,rfl⟩ := mem_map.1 hy
      have hle : v.length ≤ k + i := (hdim v hv).trans_le (Nat.le_add_right k i)
      rw [Function.comp_apply,pad,getD_append_right _ _ _ _ hle]
      rw [getD_eq_getElem?_getD,getElem?_replicate]
      split
      · rfl
      · rfl
    simp only [Function.comp_apply,hzero]
    simp

theorem radiusOf_pad (metric : VectorMetric) (hne : vectors ≠ [])
    (hdim : ∀ v ∈ vectors, v.length = k) :
    radiusOf (vectors.map (pad n)) metric = radiusOf vectors metric := by
  rw [radiusOf,radiusOf,centre_pad hne hdim,map_map]
  congr 1
  refine map_congr_left fun v hv => exactDistance_pad metric ?_
  rw [length_centre hne hdim,hdim v hv]

theorem KeepsHits.of_add {metric : VectorMetric} (h : KeepsHits metric (k + n)) :
    KeepsHits metric k := by
  rw [keepsHits_iff] at h ⊢
  intro vectors query hne hdim hquery v hv
  have hpad := h (vectors.map (pad n)) (pad n query) (by simpa using hne) ?_ ?_ (pad n v)
    (mem_map_of_mem hv)
  · rw [centre_pad hne hdim,radiusOf_pad metric hne hdim,computeDistance_pad,exactDistance_pad]
      at hpad
    · exact hpad
    · rw [hquery,hdim v hv]
    · rw [hquery,length_centre hne hdim]
  · intro w hw
    obtain ⟨u,hu,rfl⟩ := mem_map.1 hw
    simp [pad,hdim u hu]
  · simp [pad,hquery]

end Padding

/-! Files that are dropped in spite of a hit. -/

theorem not_keepsHits_dotProduct : ¬KeepsHits .dotProduct 1 := by
  intro h
  have hhit := keepsHits_iff.1 h [[1],[3]] [1] (by simp) (by simp) rfl [3] (by simp)
  norm_num [centre,radiusOf,computeDistance,exactDistance,dotProduct,range_succ] at hhit

theorem not_keepsHits_normalizedCosine : ¬KeepsHits .normalizedCosine 1 := by
  intro h
  have hhit := keepsHits_iff.1 h [[1],[1],[-1]] [-1] (by simp) (by simp) rfl [-1] (by simp)
  have hcosine : cosineDistance [-1] [1 / 3] = 2 := by
    rw [cosineDistance_singleton]
    norm_num
  norm_num [centre,radiusOf,computeDistance,exactDistance,normalizedCosineDistance,dotProduct,
    range_succ,hcosine] at hhit

theorem acrossAxis :
    centre [[3, 4], [3, -4]] = [3, 0] ∧ radiusOf [[3, 4], [3, -4]] .cosine = 2 / 5 ∧
      cosineDistance [0, 1] [3, 0] = 1 ∧ cosineDistance [0, 1] [3, 4] = 1 / 5 := by
  have hcentre : centre [[3,4],[3,-4]] = [3,0] := by norm_num [centre,range_succ]
  have hnorm : norm [3,4] = 5 ∧ norm [3,-4] = 5 ∧ norm [3,0] = 3 ∧ norm [0,1] = 1 := by
    refine ⟨?_,?_,?_,?_⟩ <;> rw [norm,Real.sqrt_eq_iff_mul_self_eq] <;> norm_num
  refine ⟨hcentre,?_,?_,?_⟩
  · norm_num [radiusOf,hcentre,exactDistance,cosineDistance,dotProduct,hnorm]
  · norm_num [cosineDistance,dotProduct,hnorm]
  · norm_num [cosineDistance,dotProduct,hnorm]

theorem not_keepsHits_cosine : ¬KeepsHits .cosine 2 := by
  intro h
  have hhit := keepsHits_iff.1 h [[3,4],[3,-4]] [0,1] (by simp) (by simp) rfl [3,4] (by simp)
  obtain ⟨hcentre,hradius,hfar,hnear⟩ := acrossAxis
  rw [hcentre,hradius,computeDistance,exactDistance,hfar,hnear] at hhit
  norm_num at hhit

/-- A hit is never dropped under the Euclidean distance, and under the others only where the vectors
have too few coordinates. -/
theorem keepsHits_iff_euclidean (metric : VectorMetric) (dim : Nat) :
    KeepsHits metric dim ↔ metric = .euclidean ∨ dim = 0 ∨ (metric = .cosine ∧ dim = 1) := by
  constructor
  · intro h
    rcases Nat.eq_zero_or_pos dim with rfl | hpos
    · exact .inr (.inl rfl)
    obtain ⟨n,rfl⟩ := Nat.exists_eq_add_of_le hpos
    cases metric with
    | euclidean => exact .inl rfl
    | dotProduct => exact absurd h.of_add not_keepsHits_dotProduct
    | normalizedCosine => exact absurd h.of_add not_keepsHits_normalizedCosine
    | cosine =>
      cases n with
      | zero => exact .inr (.inr ⟨rfl,rfl⟩)
      | succ n =>
        have htwo : 1 + (n + 1) = 2 + n := by omega
        rw [htwo] at h
        exact absurd h.of_add not_keepsHits_cosine
  · rintro (rfl | rfl | ⟨rfl,rfl⟩)
    · exact keepsHits_euclidean dim
    · exact keepsHits_zero metric
    · exact keepsHits_cosine_one

/-- The cosine distance of the query from the centroid `(3, 0)` is one and the radius two fifths, while
the vector `(3, 4)` is at one fifth. -/
theorem prune_drops_hit :
    ∃ entry : FileGeometry, entry.Describes [[3, 4], [3, -4]] .cosine ∧
      exactDistance .cosine [0, 1] [3, 4] ≤ 1 / 5 ∧ prune [entry] [0, 1] .cosine (1 / 5) = [] := by
  obtain ⟨hcentre,hradius,hfar,hnear⟩ := acrossAxis
  refine ⟨⟨"f", some (centre [[3,4],[3,-4]]), some (radiusOf [[3,4],[3,-4]] .cosine)⟩,
    ⟨by simp [computeCentroidAndRadius], by simp [computeCentroidAndRadius,radiusOf]⟩, hnear.le, ?_⟩
  rw [hcentre,hradius]
  norm_num [prune,keeps,decodeCentroid,computeDistance,hfar]

end AiLake.VectorPruning
