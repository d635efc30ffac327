import AiLake.StoreProgram.History
import Mathlib.Logic.Function.Basic
import Mathlib.Algebra.Group.Nat.Defs

/-! The circuit breaker of `ailake-cache` under concurrent calls. The state is locked while a call
is let in and while its result is recorded. -/
namespace AiLake.CircuitBreaker

open StoreProgram Function

inductive BreakerState where
  | closed (failures : Nat)
  | opened (openedAt : Nat)
  | halfOpen
  deriving DecidableEq, Repr

/-- What `CircuitBreaker::new` accepts. -/
structure Config where
  failureThreshold : Nat
  cooldown : Nat
  threshold_pos : 0 < failureThreshold
  cooldown_pos : 0 < cooldown

/-- The first block of `execute`: the state it leaves and whether the call is the probe, or the error. -/
def admission (cooldown now : Nat) : BreakerState → Option (BreakerState × Bool)
  | .closed failures => some (.closed failures, false)
  | .opened openedAt => if now - openedAt ≥ cooldown then some (.halfOpen, true) else none
  | .halfOpen => none

def u32Max : Nat := 2 ^ 32 - 1

/-- The state once the result of an operation is recorded. -/
def record (threshold now : Nat) (ok : Bool) (state : BreakerState) : BreakerState :=
  if ok then .closed 0
  else
    let failures := match state with
      | .halfOpen => threshold
      | .closed failures => min (failures + 1) u32Max
      | .opened _ => threshold
    if failures ≥ threshold then .opened now else .closed failures

/-- Where a call of `execute` is: before the first block, in its operation, before its result is
recorded, or over (returned, refused or dropped). -/
inductive Phase where
  | waiting
  | running (probe : Bool)
  | finished (probe ok : Bool)
  | over
  deriving DecidableEq, Repr

/-- A probe between its admission and its record. -/
def Phase.probing : Phase → Bool
  | .running probe | .finished probe _ => probe
  | _ => false

def Phase.isRunning : Phase → Bool
  | .running _ => true
  | _ => false

variable {ι : Type} [DecidableEq ι]

structure Breaker (ι : Type) where
  circuit : BreakerState
  phase : ι → Phase
  clock : Nat

def Breaker.new : Breaker ι := ⟨.closed 0, fun _ => .waiting, 0⟩

inductive Event (ι : Type) where
  | check (i : ι)
  | finish (i : ι) (ok : Bool)
  | record (i : ι)
  | drop (i : ι)
  deriving DecidableEq, Repr

inductive Step (config : Config) : Breaker ι → Nat × Event ι → Breaker ι → Prop
  | admitted {s : Breaker ι} {now : Nat} {i : ι} {circuit : BreakerState} {probe : Bool}
      (hnow : s.clock ≤ now) (hphase : s.phase i = .waiting)
      (hcheck : admission config.cooldown now s.circuit = some (circuit, probe)) :
      Step config s (now, .check i) ⟨circuit, update s.phase i (.running probe), now⟩
  | refused {s : Breaker ι} {now : Nat} {i : ι} (hnow : s.clock ≤ now)
      (hphase : s.phase i = .waiting) (hcheck : admission config.cooldown now s.circuit = none) :
      Step config s (now, .check i) ⟨s.circuit, update s.phase i .over, now⟩
  | finish {s : Breaker ι} {now : Nat} {i : ι} {probe : Bool} (ok : Bool) (hnow : s.clock ≤ now)
      (hphase : s.phase i = .running probe) :
      Step config s (now, .finish i ok)
        ⟨s.circuit, update s.phase i (.finished probe ok), now⟩
  | record {s : Breaker ι} {now : Nat} {i : ι} {probe ok : Bool} (hnow : s.clock ≤ now)
      (hphase : s.phase i = .finished probe ok) :
      Step config s (now, .record i)
        ⟨record config.failureThreshold now ok s.circuit, update s.phase i .over, now⟩
  | drop {s : Breaker ι} {now : Nat} {i : ι} (hnow : s.clock ≤ now) (hphase : s.phase i ≠ .over) :
      Step config s (now, .drop i) ⟨s.circuit, update s.phase i .over, now⟩

/-! The protocol, and the events that keep to it. -/

/-- The cooldown since the circuit last opened is over. The half-open state is entered after it. -/
def Elapsed (cooldown now : Nat) : BreakerState → Prop
  | .opened openedAt => cooldown ≤ now - openedAt
  | _ => True

structure Lawful (config : Config) (s : Breaker ι) (event : Nat × Event ι) (t : Breaker ι) : Prop where
  /-- Nothing starts and nothing closes during the cooldown. -/
  calm {openedAt : Nat} (hopen : s.circuit = .opened openedAt)
    (hearly : event.1 - openedAt < config.cooldown) :
    (∀ i, (t.phase i).isRunning → (s.phase i).isRunning) ∧ ∀ failures, t.circuit ≠ .closed failures
  single (hhalf : t.circuit = .halfOpen) {i j : ι} (hi : (t.phase i).probing)
    (hj : (t.phase j).probing) : i = j
  decides (hhalf : s.circuit = .halfOpen) (hleft : t.circuit ≠ .halfOpen) :
    ∃ i ok, event.2 = .record i ∧ s.phase i = .finished true ok
  admits {now : Nat} (hnow : t.clock ≤ now) (helapsed : Elapsed config.cooldown now t.circuit)
    (hnone : ∀ i, (t.phase i).probing = false) :
    (admission config.cooldown now t.circuit).isSome

/-- The condition on an event: other calls than the probe are recorded in the closed state, or in
the open one, a success after the cooldown; a probe is not dropped. -/
def Orderly (config : Config) (s : Breaker ι) : Nat × Event ι → Prop
  | (now, .record i) => ∀ ok, s.phase i = .finished false ok →
      s.circuit ≠ .halfOpen ∧
        ∀ openedAt, s.circuit = .opened openedAt → ok → config.cooldown ≤ now - openedAt
  | (_, .drop i) => (s.phase i).probing = false
  | _ => True

/-- The circuit is half-open exactly while one probe is on its way. -/
structure OneProbe (s : Breaker ι) : Prop where
  halfOpen {i : ι} (h : (s.phase i).probing) : s.circuit = .halfOpen
  single {i j : ι} (hi : (s.phase i).probing) (hj : (s.phase j).probing) : i = j
  present (h : s.circuit = .halfOpen) : ∃ i, (s.phase i).probing

section Circuit

variable {cooldown threshold now openedAt : Nat} {ok : Bool} {circuit : BreakerState}

theorem admission_early (h : now - openedAt < cooldown) :
    admission cooldown now (.opened openedAt) = none := if_neg (Nat.not_le_of_lt h)

theorem admission_eq_some {state : BreakerState} {probe : Bool}
    (h : admission cooldown now state = some (circuit, probe)) :
    (∃ failures, state = .closed failures ∧ circuit = .closed failures ∧ probe = false) ∨
      ∃ openedAt, state = .opened openedAt ∧ circuit = .halfOpen ∧ probe = true := by
  cases state with
  | closed failures =>
    cases h
    exact .inl ⟨failures,rfl,rfl,rfl⟩
  | opened openedAt =>
    by_cases helapsed : now - openedAt ≥ cooldown
    · rw [admission,if_pos helapsed] at h
      cases h
      exact .inr ⟨openedAt,rfl,rfl,rfl⟩
    · rw [admission,if_neg helapsed] at h
      cases h
  | halfOpen => cases h

theorem record_ne_halfOpen (state : BreakerState) : record threshold now ok state ≠ .halfOpen := by
  cases ok with
  | true => exact BreakerState.noConfusion
  | false =>
    rw [record.eq_def,if_neg Bool.false_ne_true]
    dsimp only
    generalize (match state with
      | .halfOpen => threshold
      | .closed failures => min (failures + 1) u32Max
      | .opened _ => threshold) = failures
    split
    · exact BreakerState.noConfusion
    · exact BreakerState.noConfusion

theorem record_failure_opened : record threshold now false (.opened openedAt) = .opened now := by
  simp [record]

end Circuit

section Steps

variable {config : Config} {s t : Breaker ι} {event : Nat × Event ι} {i j : ι} {p : Phase}

theorem probing_update (h : p.probing = (s.phase i).probing) :
    (update s.phase i p j).probing = (s.phase j).probing := by
  by_cases hj : j = i
  · rw [hj,update_self,h]
  · rw [update_of_ne hj]

theorem probing_update_of_ne (hp : p.probing = false)
    (h : (update s.phase i p j).probing) : j ≠ i ∧ (s.phase j).probing := by
  have hj : j ≠ i := by
    rintro rfl
    rw [update_self,hp] at h
    cases h
  rw [update_of_ne hj] at h
  exact ⟨hj,h⟩

theorem isRunning_of_update (hp : p.isRunning = false)
    (h : (update s.phase i p j).isRunning) : (s.phase j).isRunning := by
  have hj : j ≠ i := by
    rintro rfl
    rw [update_self,hp] at h
    cases h
  rwa [update_of_ne hj] at h

namespace OneProbe

omit [DecidableEq ι]

theorem of_none (hcircuit : s.circuit ≠ .halfOpen) (hnone : ∀ j, ¬(s.phase j).probing) : OneProbe s :=
  ⟨fun h => absurd h (hnone _), fun h => absurd h (hnone _), fun h => absurd h hcircuit⟩

theorem none_of_ne_halfOpen (h : OneProbe s) (hcircuit : s.circuit ≠ .halfOpen) (j : ι) :
    ¬(s.phase j).probing := fun hj => hcircuit (h.halfOpen hj)

theorem relabel (h : OneProbe s) (hcircuit : t.circuit = s.circuit)
    (hphase : ∀ j, (t.phase j).probing = (s.phase j).probing) : OneProbe t where
  halfOpen hi := hcircuit.trans (h.halfOpen (hphase _ ▸ hi))
  single hi hj := h.single (hphase _ ▸ hi) (hphase _ ▸ hj)
  present hhalf := by
    obtain ⟨i,hi⟩ := h.present (hcircuit.symm.trans hhalf)
    exact ⟨i, (hphase i).trans hi⟩

theorem admits (h : OneProbe s) {now : Nat} (helapsed : Elapsed config.cooldown now s.circuit)
    (hnone : ∀ i, (s.phase i).probing = false) :
    (admission config.cooldown now s.circuit).isSome := by
  cases hcircuit : s.circuit with
  | closed failures => rfl
  | opened openedAt =>
    rw [hcircuit] at helapsed
    have hopen : admission config.cooldown now (.opened openedAt) = some (.halfOpen, true) :=
      if_pos helapsed
    rw [hopen]
    rfl
  | halfOpen =>
    obtain ⟨i,hi⟩ := h.present hcircuit
    rw [hnone i] at hi
    cases hi

end OneProbe

theorem OneProbe.step (h : OneProbe s) (horderly : Orderly config s event)
    (hstep : Step config s event t) : OneProbe t := by
  cases hstep with
  | @admitted now i circuit probe hnow hphase hcheck =>
    rcases admission_eq_some hcheck with ⟨failures,hs,rfl,rfl⟩ | ⟨openedAt,hs,rfl,rfl⟩
    · have hcircuit : s.circuit ≠ .halfOpen := by simp [hs]
      refine of_none BreakerState.noConfusion fun j hj => ?_
      exact h.none_of_ne_halfOpen hcircuit j (probing_update_of_ne rfl hj).2
    · -- The call is the only probe: there was none while the circuit was open.
      have hcircuit : s.circuit ≠ .halfOpen := by simp [hs]
      have honly (j : ι) (hj : (update s.phase i (.running true) j).probing) : j = i := by
        by_contra hne
        rw [update_of_ne hne] at hj
        exact h.none_of_ne_halfOpen hcircuit j hj
      refine ⟨fun _ => rfl, fun hi hj => (honly _ hi).trans (honly _ hj).symm, fun _ => ⟨i,?_⟩⟩
      simp [Phase.probing]
  | refused hnow hphase hcheck =>
    exact h.relabel rfl fun j => probing_update (by rw [hphase]; rfl)
  | finish ok hnow hphase => exact h.relabel rfl fun j => probing_update (by rw [hphase]; rfl)
  | @record now i probe ok hnow hphase =>
    refine of_none (record_ne_halfOpen _) fun j hj => ?_
    obtain ⟨hne,hj⟩ := probing_update_of_ne rfl hj
    cases probe with
    | true => exact hne (h.single hj (by rw [hphase]; rfl))
    | false => exact h.none_of_ne_halfOpen (horderly ok hphase).1 j hj
  | drop hnow hphase => exact h.relabel rfl fun j => probing_update horderly.symm

theorem OneProbe.calm (h : OneProbe s) (horderly : Orderly config s event)
    (hstep : Step config s event t) {openedAt : Nat} (hopen : s.circuit = .opened openedAt)
    (hearly : event.1 - openedAt < config.cooldown) :
    (∀ i, (t.phase i).isRunning → (s.phase i).isRunning) ∧
      ∀ failures, t.circuit ≠ .closed failures := by
  cases hstep with
  | admitted hnow hphase hcheck =>
    rw [hopen,admission_early hearly] at hcheck
    cases hcheck
  | refused hnow hphase hcheck => exact ⟨fun j => isRunning_of_update rfl, fun _ => by simp [hopen]⟩
  | finish ok hnow hphase => exact ⟨fun j => isRunning_of_update rfl, fun _ => by simp [hopen]⟩
  | @record now i probe ok hnow hphase =>
    refine ⟨fun j => isRunning_of_update rfl, fun failures => ?_⟩
    cases probe with
    | true =>
      have hhalf := h.halfOpen (i := i) (by rw [hphase]; rfl)
      rw [hopen] at hhalf
      cases hhalf
    | false =>
      cases ok with
      | true => exact absurd ((horderly true hphase).2 openedAt hopen rfl) (Nat.not_le_of_lt hearly)
      | false => simp [hopen,record_failure_opened]
  | drop hnow hphase => exact ⟨fun j => isRunning_of_update rfl, fun _ => by simp [hopen]⟩

theorem decides_of_orderly (horderly : Orderly config s event) (hstep : Step config s event t)
    (hhalf : s.circuit = .halfOpen) (hleft : t.circuit ≠ .halfOpen) :
    ∃ i ok, event.2 = .record i ∧ s.phase i = .finished true ok := by
  cases hstep with
  | admitted hnow hphase hcheck =>
    rw [hhalf] at hcheck
    cases hcheck
  | refused hnow hphase hcheck => exact absurd hhalf hleft
  | finish ok hnow hphase => exact absurd hhalf hleft
  | @record now i probe ok hnow hphase =>
    cases probe with
    | true => exact ⟨i,ok,rfl,hphase⟩
    | false => exact absurd hhalf (horderly ok hphase).1
  | drop hnow hphase => exact absurd hhalf hleft

theorem OneProbe.lawful (h : OneProbe s) (horderly : Orderly config s event)
    (hstep : Step config s event t) : Lawful config s event t where
  calm := h.calm horderly hstep
  single _ := (h.step horderly hstep).single
  decides := decides_of_orderly horderly hstep
  admits _ := (h.step horderly hstep).admits

theorem OneProbe.orderly (h : OneProbe s) (hstep : Step config s event t)
    (hlawful : Lawful config s event t) : Orderly config s event := by
  cases hstep with
  | admitted | refused | finish => exact trivial
  | @record now i probe ok hnow hphase =>
    intro ok' hphase'
    obtain ⟨rfl,rfl⟩ : probe = false ∧ ok = ok' := by simpa [hphase] using hphase'
    refine ⟨fun hhalf => ?_, fun openedAt hopen hok => ?_⟩
    · obtain ⟨i',ok',hevent,hprobe⟩ := hlawful.decides hhalf (record_ne_halfOpen _)
      cases hevent
      simp [hphase] at hprobe
    · by_contra hearly
      refine (hlawful.calm hopen (Nat.lt_of_not_le hearly)).2 0 ?_
      simp [record,hok]
  | @drop now i hnow hphase =>
    change (s.phase i).probing = false
    by_contra hprobing
    have hprobing : (s.phase i).probing := by simpa using hprobing
    -- With the probe gone nothing can leave the half-open state.
    have hnone (j : ι) : (update s.phase i .over j).probing = false := by
      by_contra hj
      obtain ⟨hne,hj⟩ := probing_update_of_ne rfl (by simpa using hj)
      exact hne (h.single hj hprobing)
    have hadmits := hlawful.admits (Nat.le_refl _) (by simp [h.halfOpen hprobing,Elapsed]) hnone
    simp [h.halfOpen hprobing,admission] at hadmits

end Steps

omit [DecidableEq ι] in
theorem oneProbe_new : OneProbe (Breaker.new : Breaker ι) :=
  .of_none BreakerState.noConfusion fun _ => Bool.noConfusion

/-- A run keeps to the protocol in all its steps and states exactly when all its events are orderly. -/
theorem protocol_iff_orderly (config : Config) (events : List (Nat × Event ι)) (t : Breaker ι) :
    History (fun s event t => Step config s event t ∧ Lawful config s event t) .new events t ↔
      History (fun s event t => Step config s event t ∧ Orderly config s event) .new events t := by
  constructor
  · intro h
    induction h with
    | start => exact .start
    | step _ hstep ih =>
      have hprobe := ih.invariant OneProbe (fun s e t hs hst => hs.step hst.2 hst.1) oneProbe_new
      exact ih.step ⟨hstep.1, hprobe.orderly hstep.1 hstep.2⟩
  · intro h
    induction h with
    | start => exact .start
    | step h hstep ih =>
      have hprobe := h.invariant OneProbe (fun s e t hs hst => hs.step hst.2 hst.1) oneProbe_new
      exact ih.step ⟨hstep.1, hprobe.lawful hstep.2 hstep.1⟩

def demoConfig : Config := ⟨1, 10, by decide, by decide⟩

/-- Two calls are let in; the failure of one opens the circuit and the success of the other closes it
one moment later. -/
theorem late_success_closes :
    ∃ (events : List (Nat × Event Nat)) (s t : Breaker Nat),
      History (Step demoConfig) .new events s ∧ Step demoConfig s (1, .record 1) t ∧
        s.circuit = .opened 0 ∧ t.circuit = .closed 0 ∧ ¬Lawful demoConfig s (1, .record 1) t := by
  have hrun : ∃ events s, History (Step demoConfig) Breaker.new events s ∧ s.circuit = .opened 0 ∧
      s.clock = 0 ∧ s.phase 1 = .finished false true := by
    have h₀ : History (Step demoConfig) (Breaker.new : Breaker Nat) _ _ :=
      .step .start (.admitted (i := 0) (Nat.le_refl 0) rfl rfl)
    have h₁ := h₀.step (.admitted (i := 1) (Nat.le_refl 0) rfl rfl)
    have h₂ := h₁.step (.finish (i := 0) false (Nat.le_refl 0) rfl)
    have h₃ := h₂.step (.finish (i := 1) true (Nat.le_refl 0) rfl)
    exact ⟨_, _, h₃.step (.record (i := 0) (Nat.le_refl 0) rfl), rfl, rfl, rfl⟩
  obtain ⟨events,s,hrun,hopen,hclock,hphase⟩ := hrun
  refine ⟨events, s, _, hrun, .record (hclock ▸ Nat.zero_le 1) hphase, hopen, rfl, fun h => ?_⟩
  exact (h.calm hopen (by decide)).2 0 rfl

end AiLake.CircuitBreaker
