import AiLake.Checked
import Mathlib.Algebra.BigOperators.Fin
import Mathlib.Algebra.BigOperators.Intervals

/-! The vector kernels of `distance.rs`, with a ring in place of `f32`: registers go through the
slices chunk by chunk, and a loop adds the rest. -/
namespace AiLake.Simd

open Checked Finset

section Kernels

variable {R β : Type} {n m w : Nat}

/-- The `w` numbers from `base` on; an error is a load that leaves the slice. -/
def load (w : Nat) (slice : Fin n → β) (base : Nat) : Except Nat (Fin w → β) :=
  if h : base + w ≤ n then .ok fun i => slice ⟨base + i, by omega⟩ else .error base

def read (slice : Fin n → β) (i : Nat) : Except Nat β :=
  if h : i < n then .ok (slice ⟨i, h⟩) else .error i

/-- `_mm256_cvtph_ps` on what was loaded; for slices of `f32` nothing is converted. -/
def loadAs (w : Nat) (conv : β → R) (b : Fin m → β) (base : Nat) : Except Nat (Fin w → R) := do
  let y ← load w b base
  pure fun i => conv (y i)

/-- Two converted halves of a register. -/
def loadHalves (conv : β → R) (b : Fin m → β) (base : Nat) : Except Nat (Fin 16 → R) := do
  let lo ← loadAs 8 conv b base
  let hi ← loadAs 8 conv b (base + 8)
  pure (Fin.append lo hi : Fin (8 + 8) → R)

variable [CommRing R] (term : R → R → R) (conv : β → R) (a : Fin n → R) (b : Fin m → β)

def squaredDifference (x y : R) : R := (x - y) * (x - y)

/-- One `fmadd`: of the two registers, or of their difference with itself. -/
def fmadd (loadB : Nat → Except Nat (Fin w → R)) (base : Nat) (acc : Fin w → R) :
    Except Nat (Fin w → R) := do
  let x ← load w a base
  let y ← loadB base
  pure fun i => term (x i) (y i) + acc i

/-- The loop over `start..n`. -/
def tail (start : Nat) (sum : R) : Except Nat R :=
  (List.range (min n m - start)).foldlM (fun sum k => do
    let x ← read a (start + k)
    let y ← read b (start + k)
    pure (sum + term x (conv y))) sum

structure M128 (R : Type) where
  (e0 e1 e2 e3 : R)

def M128.add (x y : M128 R) : M128 R := ⟨x.e0 + y.e0, x.e1 + y.e1, x.e2 + y.e2, x.e3 + y.e3⟩

def M128.movehdup (x : M128 R) : M128 R := ⟨x.e1, x.e1, x.e3, x.e3⟩

def M128.movehl (x y : M128 R) : M128 R := ⟨y.e2, y.e3, x.e2, x.e3⟩

def hsum256 (v : Fin 8 → R) : R :=
  let hi : M128 R := ⟨v 4, v 5, v 6, v 7⟩
  let lo : M128 R := ⟨v 0, v 1, v 2, v 3⟩
  let s := lo.add hi
  let sums := s.add s.movehdup
  sums.e0 + (s.movehdup.movehl sums).e0

def hsum512 (v : Fin 16 → R) : R :=
  hsum256 fun i => v (i.castAdd 8) + v (i.natAdd 8)

def vaddvq (v : Fin 4 → R) : R := ∑ i, v i

/-- Two accumulators of eight lanes; a chunk of eight may be left for the first one. -/
def unrolled : Except Nat R := do
  let chunks16 := min n m / 16
  let acc ← (List.range chunks16).foldlM (fun acc i => do
    let acc0 ← fmadd term a (loadAs 8 conv b) (i * 16) acc.1
    let acc1 ← fmadd term a (loadAs 8 conv b) (i * 16 + 8) acc.2
    pure (acc0, acc1)) (0, 0)
  let chunks8 := min n m / 8
  let acc0 ← if chunks8 > chunks16 * 2 then fmadd term a (loadAs 8 conv b) (chunks16 * 16) acc.1
    else pure acc.1
  tail term conv a b (chunks8 * 8) (hsum256 (acc0 + acc.2))

/-- One accumulator of `w` lanes. -/
def plain (loadB : Nat → Except Nat (Fin w → R)) (hsum : (Fin w → R) → R) : Except Nat R := do
  let chunks := min n m / w
  let acc ← (List.range chunks).foldlM (fun acc i => fmadd term a loadB (i * w) acc) 0
  tail term conv a b (chunks * w) (hsum acc)

end Kernels

section Members

variable {R H : Type} {n m : Nat} [CommRing R] (sqrt : R → R) (toF32 : H → R) (a : Fin n → R)
  (b : Fin m → R) (c : Fin m → H)

def dotScalar : R := (((List.ofFn a).zip (List.ofFn b)).map fun p => p.1 * p.2).sum
def euclideanScalar : R :=
  sqrt (((List.ofFn a).zip (List.ofFn b)).map fun p => (p.1 - p.2) * (p.1 - p.2)).sum
def dotF16Scalar : Except Nat R := tail (· * ·) toF32 a c 0 0
def euclideanF16Scalar : Except Nat R := sqrt <$> tail squaredDifference toF32 a c 0 0

def avx2Dot : Except Nat R := unrolled (· * ·) id a b
def avx2Euclidean : Except Nat R := sqrt <$> unrolled squaredDifference id a b
def f16cDot : Except Nat R := unrolled (· * ·) toF32 a c
def f16cEuclidean : Except Nat R := sqrt <$> unrolled squaredDifference toF32 a c
def avx512Dot : Except Nat R := plain (· * ·) id a b (loadAs 16 id b) hsum512
def avx512Euclidean : Except Nat R := sqrt <$> plain squaredDifference id a b (loadAs 16 id b) hsum512
def avx512DotF16 : Except Nat R := plain (· * ·) toF32 a c (loadHalves toF32 c) hsum512
def avx512EuclideanF16 : Except Nat R :=
  sqrt <$> plain squaredDifference toF32 a c (loadHalves toF32 c) hsum512
def neonDot : Except Nat R := plain (· * ·) id a b (loadAs 4 id b) vaddvq
def neonEuclidean : Except Nat R := sqrt <$> plain squaredDifference id a b (loadAs 4 id b) vaddvq

end Members

section Sums

variable {R β : Type} {n w : Nat} [CommRing R] {term : R → R → R} {conv : β → R} {a : Fin n → R}
  {b : Fin n → β}

theorem hsum256_eq (v : Fin 8 → R) : hsum256 v = ∑ i, v i := by
  change v 0 + v 4 + (v 1 + v 5) + (v 2 + v 6 + (v 3 + v 7)) = _
  rw [Fin.sum_univ_eight]
  ring

theorem hsum512_eq (v : Fin 16 → R) : hsum512 v = ∑ i, v i := by
  rw [hsum512,hsum256_eq,sum_add_distrib]
  exact (Fin.sum_univ_add (a := 8) (b := 8) v).symm

theorem vaddvq_eq (v : Fin 4 → R) : vaddvq v = ∑ i, v i := rfl

variable (term conv a b) in
def termAt (k : Nat) : R := if h : k < n then term (a ⟨k, h⟩) (conv (b ⟨k, h⟩)) else 0

theorem sum_termAt : ∑ k ∈ range n, termAt term conv a b k = ∑ i, term (a i) (conv (b i)) := by
  rw [← Fin.sum_univ_eq_sum_range]
  exact sum_congr rfl fun i _ => dif_pos i.2

variable (conv b) in
/-- The lanes are the numbers from `base` on, wherever they are all in the slice. -/
def Loads (loadB : Nat → Except Nat (Fin w → R)) : Prop :=
  ∀ base (h : base + w ≤ n), loadB base = .ok fun i => conv (b ⟨base + i, by omega⟩)

omit [CommRing R] in
variable (conv b) in
theorem loads_loadAs (w : Nat) : Loads conv b (loadAs w conv b) := by
  intro base h
  rw [loadAs,load,dif_pos h]
  rfl

omit [CommRing R] in
variable (conv b) in
theorem loads_loadHalves : Loads conv b (loadHalves conv b) := by
  intro base h
  rw [loadHalves,loads_loadAs conv b 8 base (by omega),loads_loadAs conv b 8 (base + 8) (by omega)]
  refine congrArg Except.ok (funext fun i => ?_)
  refine Fin.addCases (m := 8) (n := 8) (fun j => ?_) (fun j => ?_) i
  · exact Fin.append_left ..
  · refine (Fin.append_right ..).trans (congrArg (fun k => conv (b k)) (Fin.ext ?_))
    exact Nat.add_assoc base 8 j

variable (term a) in
theorem fmadd_spec {loadB : Nat → Except Nat (Fin w → R)} (hB : Loads conv b loadB) {base : Nat}
    (h : base + w ≤ n) (acc : Fin w → R) :
    Outcome (fun _ => False) (fun acc' => ∑ i, acc' i =
      ∑ i, acc i + ∑ k ∈ range w, termAt term conv a b (base + k)) (fmadd term a loadB base acc) := by
  rw [fmadd,load,dif_pos h,hB base h]
  change ∑ i : Fin w, (_ + acc i) = _
  rw [sum_add_distrib,add_comm,← Fin.sum_univ_eq_sum_range (fun k => termAt term conv a b (base + k))]
  refine congrArg _ (sum_congr rfl fun i _ => ?_)
  rw [termAt,dif_pos (by omega)]

theorem tail_spec {start : Nat} (h : start ≤ n) (sum : R)
    (hsum : sum = ∑ k ∈ range start, termAt term conv a b k) :
    tail term conv a b start sum = .ok (∑ i, term (a i) (conv (b i))) := by
  have hloop : Outcome (fun _ => False) (fun s => s = ∑ k ∈ range (start + (n - start)),
      termAt term conv a b k) (tail term conv a b start sum) := by
    rw [tail,min_self]
    refine Outcome.foldlM_range (fun k s => s = ∑ i ∈ range (start + k), termAt term conv a b i) _
      hsum fun k hk s hs => ?_
    have hlt : start + k < n := by omega
    rw [read,read,dif_pos hlt,dif_pos hlt]
    change s + _ = _
    rw [← Nat.add_assoc,sum_range_succ,← hs,termAt,dif_pos hlt]
  obtain ⟨s,hs,rfl⟩ := outcome_false.1 hloop
  rw [hs,Nat.add_sub_cancel' h,sum_termAt]

theorem plain_eq {loadB : Nat → Except Nat (Fin w → R)} (hB : Loads conv b loadB)
    {hsum : (Fin w → R) → R} (hhsum : ∀ v, hsum v = ∑ i, v i) :
    plain term conv a b loadB hsum = .ok (∑ i, term (a i) (conv (b i))) := by
  have hle := Nat.div_mul_le_self n w
  have hloop := Outcome.foldlM_range (F := fun _ => False) (b := 0)
    (f := fun acc i => fmadd term a loadB (i * w) acc)
    (fun k acc => ∑ i, acc i = ∑ j ∈ range (k * w), termAt term conv a b j) (n / w) (by simp)
    fun k hk acc hacc => ?_
  · obtain ⟨acc,hfold,hacc⟩ := outcome_false.1 hloop
    simp only [plain,min_self,hfold]
    exact tail_spec hle _ ((hhsum acc).trans hacc)
  · have hchunk : k * w + w ≤ n := by
      rw [← Nat.succ_mul]
      exact (Nat.mul_le_mul_right w hk).trans hle
    refine (fmadd_spec term a hB hchunk acc).mono fun acc' hacc' => ?_
    rw [hacc',hacc,Nat.succ_mul,sum_range_add]

theorem unrolled_eq : unrolled term conv a b = .ok (∑ i, term (a i) (conv (b i))) := by
  have hB := loads_loadAs conv b 8
  have hsum (u v : Fin 8 → R) : hsum256 (u + v) = ∑ i, u i + ∑ i, v i := by
    rw [hsum256_eq,← sum_add_distrib]
    rfl
  have hloop := Outcome.foldlM_range (F := fun _ => False) (b := (0, 0)) (f := fun acc i => do
      let acc0 ← fmadd term a (loadAs 8 conv b) (i * 16) acc.1
      let acc1 ← fmadd term a (loadAs 8 conv b) (i * 16 + 8) acc.2
      pure (acc0, acc1))
    (fun k acc => ∑ i, acc.1 i + ∑ i, acc.2 i = ∑ j ∈ range (k * 16), termAt term conv a b j) (n / 16)
    (by simp) fun k hk acc hacc => ?_
  · obtain ⟨acc,hfold,hacc⟩ := outcome_false.1 hloop
    simp only [unrolled,min_self,hfold]
    change (if _ then _ else _) = _
    split
    · have hchunk : n / 16 * 16 + 8 ≤ n := by omega
      obtain ⟨acc0,hacc0,h0⟩ := outcome_false.1 (fmadd_spec term a hB hchunk acc.1)
      rw [hacc0]
      refine tail_spec (Nat.div_mul_le_self n 8) _ ?_
      rw [hsum,h0,add_right_comm,hacc,show n / 8 * 8 = n / 16 * 16 + 8 by omega,sum_range_add]
    · refine tail_spec (Nat.div_mul_le_self n 8) _ ?_
      rw [hsum,hacc,show n / 8 * 8 = n / 16 * 16 by omega]
  · refine (fmadd_spec term a hB (by omega) acc.1).bind fun acc0 h0 => ?_
    refine (fmadd_spec term a hB (by omega) acc.2).bind fun acc1 h1 => Outcome.pure ?_
    rw [h0,h1,add_add_add_comm,hacc,show (k + 1) * 16 = k * 16 + 8 + 8 by omega,
      sum_range_add,sum_range_add,add_assoc]

end Sums

/-- Every kernel returns, without leaving the slices, what the scalar loop returns, and that is the sum
with one term for each index. -/
theorem kernels_eq_scalar {R H : Type} [CommRing R] (sqrt : R → R) (toF32 : H → R) {n : Nat}
    (a b : Fin n → R) (c : Fin n → H) :
    dotScalar a b = ∑ i, a i * b i ∧
    euclideanScalar sqrt a b = sqrt (∑ i, (a i - b i) * (a i - b i)) ∧
    dotF16Scalar toF32 a c = .ok (∑ i, a i * toF32 (c i)) ∧
    euclideanF16Scalar sqrt toF32 a c =
      .ok (sqrt (∑ i, (a i - toF32 (c i)) * (a i - toF32 (c i)))) ∧
    (∀ kernel ∈ [avx2Dot a b, avx512Dot a b, neonDot a b], kernel = .ok (dotScalar a b)) ∧
    (∀ kernel ∈ [avx2Euclidean sqrt a b, avx512Euclidean sqrt a b, neonEuclidean sqrt a b],
      kernel = .ok (euclideanScalar sqrt a b)) ∧
    (∀ kernel ∈ [f16cDot toF32 a c, avx512DotF16 toF32 a c], kernel = dotF16Scalar toF32 a c) ∧
    ∀ kernel ∈ [f16cEuclidean sqrt toF32 a c, avx512EuclideanF16 sqrt toF32 a c],
      kernel = euclideanF16Scalar sqrt toF32 a c := by
  have hzip (term : R → R → R) : (((List.ofFn a).zip (List.ofFn b)).map fun p => term p.1 p.2).sum =
      ∑ i, term (a i) (b i) := by
    rw [← List.sum_ofFn]
    congr 1
    refine List.ext_getElem (by simp) fun i h₁ h₂ => by simp
  have hdot : dotScalar a b = ∑ i, a i * b i := hzip (· * ·)
  have hsquares : euclideanScalar sqrt a b = sqrt (∑ i, squaredDifference (a i) (b i)) :=
    congrArg sqrt (hzip squaredDifference)
  have hf16 (term : R → R → R) : tail term toF32 a c 0 0 = .ok (∑ i, term (a i) (toF32 (c i))) :=
    tail_spec (Nat.zero_le n) 0 (by simp)
  refine ⟨hdot, hsquares, hf16 _, by rw [euclideanF16Scalar,hf16]; rfl, ?_, ?_, ?_, ?_⟩
  · simp only [List.forall_mem_cons,avx2Dot,avx512Dot,neonDot,unrolled_eq,
      plain_eq (loads_loadAs id b _) hsum512_eq,plain_eq (loads_loadAs id b _) vaddvq_eq,hdot]
    simp
  · simp only [List.forall_mem_cons,avx2Euclidean,avx512Euclidean,neonEuclidean,unrolled_eq,
      plain_eq (loads_loadAs id b _) hsum512_eq,plain_eq (loads_loadAs id b _) vaddvq_eq,hsquares]
    simp
  · simp [f16cDot,avx512DotF16,dotF16Scalar,unrolled_eq,
      plain_eq (loads_loadHalves toF32 c) hsum512_eq,hf16]
  · simp [f16cEuclidean,avx512EuclideanF16,euclideanF16Scalar,unrolled_eq,
      plain_eq (loads_loadHalves toF32 c) hsum512_eq,hf16]

end AiLake.Simd
