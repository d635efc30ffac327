import AiLake.FencedLeaseSpec

/-! Every run of acquisitions, renewals, releases and checks on one lock path. -/
namespace AiLake

open StoreProgram

abbrev LeasePool (A τ ι : Type) := Pool ι (LeaseWorld A) (leaseInterface A τ) LeaseError LeaseAnswer
  (LeaseGhost A τ)

def writeTag (n : Nat) (content : LeasePayload) : Nat × LeasePayload := (n, content)

def onTime : LeaseStep := ⟨0, false, false⟩

def leaseLater : LeaseStep := ⟨lockLeaseMs, false, false⟩

section Runs

variable {A τ ι : Type} {pid : A → Nat} {etag : Nat → LeasePayload → τ}
  {p : LeasePool A τ ι} {e : LeaseStep} {w : LeaseWorld A} {a : A} {t retries clock : Nat}
  {l : HeldLock} {op : LeaseOp A τ} {i : ι} {calls : ι → LeaseCall A}
  {labels : List (ι × LeaseStep)}

def leaseStart (retries clock : Nat) (calls : ι → LeaseCall A) : LeasePool A τ ι where
  shared := .init clock
  thread i := ⟨(calls i).program retries, .init (calls i)⟩

/-- Instance `a` has won token `t`, and the lock object is under that lease. -/
def LeaseHeld (p : LeasePool A τ ι) (a : A) (t : Nat) : Prop :=
  ∃ j h, (p.ghosts j).call.caller = a ∧ (p.ghosts j).won = some h ∧ p.shared.holder = some h ∧
    h.fencingToken = t

theorem LeaseSound.held_unique (h : LeaseSound etag p.shared p.ghosts) {a' : A} {t' : Nat}
    (hheld : LeaseHeld p a t) (hheld' : LeaseHeld p a' t') : a = a' ∧ t = t' := by
  obtain ⟨j,l,hcaller,hwon,hl,ht⟩ := hheld
  obtain ⟨j',l',hcaller',hwon',hl',ht'⟩ := hheld'
  rw [hl] at hl'
  cases hl'
  have hj := h.unique j j' l l hwon hwon' rfl
  subst hj
  exact ⟨hcaller.symm.trans hcaller', ht.symm.trans ht'⟩

theorem LeaseSound.held_of_memory (h : LeaseSound etag p.shared p.ghosts)
    (hmemory : p.shared.memory a = some l) (hl : p.shared.holder = some l) :
    LeaseHeld p a l.fencingToken := by
  obtain ⟨j,hj,hwon⟩ := h.memory a l hmemory
  exact ⟨j,l,hj,hwon,hl,rfl⟩

theorem leaseSound_start (retries clock : Nat) (calls : ι → LeaseCall A) :
    LeaseSound etag (leaseStart retries clock calls : LeasePool A τ ι).shared
      (leaseStart retries clock calls : LeasePool A τ ι).ghosts := by
  refine ⟨?_,?_,?_,?_,?_⟩ <;> intros <;> contradiction

theorem LeaseGhost.won_wrote_inv {g : LeaseGhost A τ} {payload : LeasePayload}
    (hnone : g.won = none) (hl : (g.wrote payload).won = some l) :
    (∃ a, g.call = .acquire a) ∧ l = payload.holder := by
  by_cases hcall : ∃ a, g.call = .acquire a
  · obtain ⟨a,hcall⟩ := hcall
    rw [LeaseGhost.won_wrote hcall] at hl
    exact ⟨⟨a,hcall⟩, (Option.some.inj hl).symm⟩
  · rw [LeaseGhost.wrote_of_ne fun a ha => hcall ⟨a,ha⟩,hnone] at hl
    cases hl

variable [DecidableEq A] [DecidableEq τ]

theorem LeaseWorld.perform_object (h : (w.perform pid etag e op).2.object ≠ w.object) :
    (∃ payload, op = .create payload) ∨ ∃ tag payload content n, op = .update tag payload ∧
      w.object = some (content, n) ∧ etag n content = tag := by
  cases op with
  | create payload => exact .inl ⟨payload,rfl⟩
  | update tag payload =>
    refine .inr ⟨tag,payload,?_⟩
    cases hobject : w.object with
    | none =>
      refine absurd ?_ h
      simp only [perform,answer,wait,hobject]
    | some current =>
      obtain ⟨content,n⟩ := current
      by_cases hcond : etag n content = tag
      · exact ⟨content,n,rfl,rfl,hcond⟩
      · refine absurd ?_ h
        simp only [perform,answer,wait,hobject,if_neg hcond]
  | head =>
    refine absurd ?_ h
    simp only [perform,answer]
    split
    · rfl
    · split <;> rfl
  | get =>
    refine absurd ?_ h
    simp only [perform,answer]
    split
    · rfl
    · split <;> rfl
  | lockToken a => exact absurd rfl h
  | nowMs => exact absurd rfl h
  | remember a held => exact absurd rfl h
  | remembered a => exact absurd rfl h
  | forget a => exact absurd rfl h

theorem LeaseWorld.perform_head : (w.perform pid etag e .head).2.object = w.object := by
  by_contra h
  rcases perform_object h with ⟨_,h⟩ | ⟨_,_,_,_,h,-⟩
  · cases h
  · cases h

theorem LeaseWorld.perform_get_found {w' : LeaseWorld A} {content : LeasePayload}
    (h : w.perform pid etag e .get = (.found content, w')) : w.holder = some content.holder := by
  simp only [perform,answer] at h
  split at h
  · cases h
  · split at h
    · cases h
    · rename_i content' n hobject
      cases h
      change w.object = some (content, n) at hobject
      rw [holder,hobject,Option.map_some]

theorem checkLockFence_alone
    (h : (Script.run (LeaseWorld.perform pid etag) e (checkLockFence a t) w).1 = .ok true) :
    ∃ l, w.memory a = some l ∧ w.holder = some l ∧ l.fencingToken = t := by
  obtain ⟨held,w₁,hremembered,h⟩ := Script.run_call h
  obtain ⟨hmemory,rfl⟩ := Prod.mk.inj hremembered
  cases held with
  | none => cases h
  | some held =>
    change (Script.run _ e (if held.fencingToken ≠ t then _ else _) _).1 = _ at h
    split at h
    · cases h
    · rename_i htoken
      obtain ⟨looked,w₂,hhead,h⟩ := Script.run_call h
      cases looked with
      | error => cases h
      | notFound => cases h
      | found tag =>
        obtain ⟨looked,w₃,hget,h⟩ := Script.run_call h
        cases looked with
        | error => cases h
        | notFound => cases h
        | found current =>
          change (Script.run _ e (if current.owner = held.owner ∧ current.fence = t then _
            else _) _).1 = _ at h
          split at h
          · rename_i howns
            have hheld : current.holder = held :=
              holder_eq.2 ⟨howns.1, howns.2.trans (not_ne_iff.1 htoken).symm⟩
            have hholder := LeaseWorld.perform_get_found hget
            have hsame : w₂.object = w.object := (congrArg (·.2.object) hhead).symm.trans
              LeaseWorld.perform_head
            rw [LeaseWorld.holder,hsame,hheld] at hholder
            exact ⟨held, hmemory, hholder, not_ne_iff.1 htoken⟩
          · cases h

theorem LeaseSound.won_fresh {ghosts : ι → LeaseGhost A τ} (h : LeaseSound etag w ghosts)
    (hetag : ∀ n n' x x', etag n x = etag n' x' → x = x') (hmax : w.BelowMax)
    (hallows : (ghosts i).Allows op) (hnone : (ghosts i).won = none)
    (hl : ((ghosts i).track op (w.answer pid etag e op).1).won = some l) {j : ι} {l' : HeldLock}
    (hj : (ghosts j).won = some l') : l'.fencingToken < l.fencingToken := by
  have hput {payload : LeasePayload} (hsound : PutSound w ghosts i payload)
      (hl : ((ghosts i).wrote payload).won = some l) : l'.fencingToken < l.fencingToken := by
    obtain ⟨⟨a,hcall⟩,rfl⟩ := LeaseGhost.won_wrote_inv hnone hl
    exact hsound.fresh a hcall j l' hj
  have hsame (hl : (ghosts i).won = some l) : l'.fencingToken < l.fencingToken := by
    rw [hnone] at hl
    cases hl
  cases op with
  | lockToken a => exact hsame hl
  | nowMs => exact hsame hl
  | remember a held => exact hsame hl
  | remembered a => exact hsame hl
  | forget a => exact hsame hl
  | head =>
    revert hl
    generalize (w.answer pid etag e (.head : LeaseOp A τ)).1 = looked
    intro hl
    cases looked <;> exact hsame hl
  | get =>
    revert hl
    generalize (w.answer pid etag e (.get : LeaseOp A τ)).1 = looked
    intro hl
    cases looked <;> exact hsame hl
  | create payload =>
    rw [LeaseGhost.track_create] at hl
    split at hl
    · rename_i hok
      refine hput (h.create hallows ?_) hl
      by_contra hobject
      obtain ⟨o,hobject⟩ := Option.ne_none_iff_exists'.1 hobject
      simp only [LeaseWorld.answer,hobject] at hok
      split at hok <;> cases hok
    · exact hsame hl
  | update tag payload =>
    rw [LeaseGhost.track_update] at hl
    split at hl
    · rename_i hok
      cases hobject : w.object with
      | none =>
        simp only [LeaseWorld.answer,hobject] at hok
        split at hok <;> cases hok
      | some o =>
        obtain ⟨content,n⟩ := o
        by_cases hcond : etag n content = tag
        · exact hput (h.update hetag hmax hallows hobject hcond) hl
        · simp only [LeaseWorld.answer,hobject,if_neg hcond] at hok
          split at hok <;> cases hok
    · exact hsame hl

theorem LeaseSound.changes_held (h : LeaseSound etag p.shared p.ghosts)
    (hetag : ∀ n n' x x', etag n x = etag n' x' → x = x')
    (hcall : (p.ghosts i).call = .renew a t ∨ (p.ghosts i).call = .release a t)
    (hallows : (p.ghosts i).Allows op)
    (hne : (p.shared.perform pid etag e op).2.object ≠ p.shared.object) : LeaseHeld p a t := by
  rcases LeaseWorld.perform_object hne with ⟨payload,rfl⟩ | ⟨tag,payload,current,n,rfl,hobject,
    hcond⟩
  · obtain ⟨⟨b,hb⟩,-⟩ := hallows
    rcases hcall with hcall | hcall
    · cases hb.symm.trans hcall
    · cases hb.symm.trans hcall
  · obtain ⟨htag,-,content,hgot,hcontinues⟩ := hallows
    have hcontent := h.update_current hetag htag hgot hobject hcond
    have howns : content.fence = t ∧ (p.ghosts i).held = some content.holder := by
      unfold LeaseGhost.Continues at hcontinues
      rcases hcall with hcall | hcall
      · rw [hcall] at hcontinues
        exact hcontinues.2
      · rw [hcall] at hcontinues
        exact hcontinues.2
    have hcaller : (p.ghosts i).call.caller = a := by
      rcases hcall with hcall | hcall <;> rw [hcall] <;> rfl
    obtain ⟨j,hj,hwon⟩ := h.held i _ howns.2
    refine ⟨j, content.holder, hj.trans hcaller, hwon, ?_, howns.1⟩
    rw [LeaseWorld.holder,hobject,Option.map_some,hcontent]

variable [DecidableEq ι]

def leaseSteps (pid : A → Nat) (etag : Nat → LeasePayload → τ) (C : LeaseWorld A → Prop) :
    LeasePool A τ ι → ι × LeaseStep → LeasePool A τ ι → Prop :=
  Pool.Steps (leaseTracking A τ) (LeaseWorld.perform pid etag) fun p _ _ => C p.shared

theorem leaseSound_run (hetag : ∀ n n' x x', etag n x = etag n' x' → x = x')
    (h : History (leaseSteps pid etag LeaseWorld.BelowMax) (leaseStart retries clock calls)
      labels p) : LeaseSound etag p.shared p.ghosts ∧ p.Tracked (leaseTracking A τ) LeaseEnds := by
  refine Pool.tracked_invariant (LeaseSound etag) ?_ h (leaseSound_start retries clock calls)
    fun i => ensures_program (calls i) retries
  intro p i e op next hsound _ hallows hmax
  have hwait : LeaseSound etag (p.shared.wait e.elapsed) p.ghosts := hsound.congr rfl rfl
  exact hwait.answer pid hetag hmax hallows e

theorem call_run {C : LeaseWorld A → Prop}
    (h : History (leaseSteps pid etag C) (leaseStart retries clock calls) labels p) (i : ι) :
    (p.ghosts i).call = calls i := by
  refine h.invariant (fun p => (p.ghosts i).call = calls i) ?_ rfl
  intro p a q hp hq
  obtain ⟨op,next,-,rfl⟩ := Pool.step_eq_some.1 hq.1
  rw [Pool.ghosts_answered]
  by_cases hi : i = a.1
  · subst hi
    rw [Function.update_self]
    exact (LeaseGhost.call_track _ _ _).trans hp
  · rw [Function.update_of_ne hi]
    exact hp


/-- A check that found its own lease did so at a moment when that lease was in force. -/
theorem checked_run (hetag : ∀ n n' x x', etag n x = etag n' x' → x = x')
    (h : History (leaseSteps pid etag LeaseWorld.BelowMax) (leaseStart retries clock calls)
      labels p) {content : LeasePayload} (hgot : (p.ghosts i).got = some content)
    (hheld : (p.ghosts i).held = some content.holder) : ∃ before after r, labels = before ++ after ∧
      History (leaseSteps pid etag LeaseWorld.BelowMax) (leaseStart retries clock calls) before r ∧
      LeaseHeld r (calls i).caller content.fence := by
  induction h generalizing content with
  | start => cases hgot
  | @step labels p q a h hstep ih =>
    -- the moment before the last step, or one that came earlier
    have hkeep (hgot : (p.ghosts i).got = some content)
        (hheld : (p.ghosts i).held = some content.holder) :
        ∃ before after r, labels ++ [a] = before ++ after ∧
          History (leaseSteps pid etag LeaseWorld.BelowMax) (leaseStart retries clock calls)
            before r ∧ LeaseHeld r (calls i).caller content.fence := by
      obtain ⟨before,after,r,rfl,hr,hrheld⟩ := ih hgot hheld
      exact ⟨before, after ++ [a], r, by rw [List.append_assoc], hr, hrheld⟩
    obtain ⟨op,next,hprog,rfl⟩ := Pool.step_eq_some.1 hstep.1
    obtain ⟨hsound,htracked⟩ := leaseSound_run hetag h
    rw [Pool.ghosts_answered] at hgot hheld
    by_cases hi : i = a.1
    · subst hi
      rw [Function.update_self] at hgot hheld
      have hallows := htracked.allows hprog
      cases op with
      | lockToken b => exact hkeep hgot hheld
      | nowMs => exact hkeep hgot hheld
      | remember b held => exact hkeep hgot hheld
      | forget b => exact hkeep hgot hheld
      | remembered b =>
        have hnone : (p.ghosts a.1).got = none := hallows.2
        exact absurd (hnone.symm.trans hgot) (nomatch ·)
      | create payload =>
        change (LeaseGhost.track _ (.create payload) _).got = _ at hgot
        change (LeaseGhost.track _ (.create payload) _).held = _ at hheld
        rw [LeaseGhost.track_create] at hgot hheld
        split at hgot
        · rw [if_pos ‹_›,LeaseGhost.held_wrote] at hheld
          rw [LeaseGhost.got_wrote] at hgot
          exact hkeep hgot hheld
        · rw [if_neg ‹_›] at hheld
          exact hkeep hgot hheld
      | update tag payload =>
        change (LeaseGhost.track _ (.update tag payload) _).got = _ at hgot
        change (LeaseGhost.track _ (.update tag payload) _).held = _ at hheld
        rw [LeaseGhost.track_update] at hgot hheld
        split at hgot
        · rw [if_pos ‹_›,LeaseGhost.held_wrote] at hheld
          rw [LeaseGhost.got_wrote] at hgot
          exact hkeep hgot hheld
        · rw [if_neg ‹_›] at hheld
          exact hkeep hgot hheld
      | head =>
        revert hgot hheld
        generalize (p.shared.perform pid etag a.2 (.head : LeaseOp A τ)).1 = looked
        intro hgot hheld
        cases looked with
        | found tag => cases hgot
        | notFound => exact hkeep hgot hheld
        | error => exact hkeep hgot hheld
      | get =>
        revert hgot hheld
        generalize hget : p.shared.perform pid etag a.2 (.get : LeaseOp A τ) = answer
        intro hgot hheld
        obtain ⟨looked,w⟩ := answer
        cases looked with
        | found c =>
          cases hgot
          obtain ⟨j,hj,hwon⟩ := hsound.held _ _ hheld
          refine ⟨labels, [a], p, rfl, h, j, _, ?_, hwon, LeaseWorld.perform_get_found hget, rfl⟩
          rw [hj,call_run h]
        | notFound => exact hkeep hgot hheld
        | error => exact hkeep hgot hheld
    · rw [Function.update_of_ne hi] at hgot hheld
      exact hkeep hgot hheld

/-- What exclusive leases are, for runs of the steps that are taken where `C` holds. -/
structure LeasesExclusive (pid : A → Nat) (etag : Nat → LeasePayload → τ) (C : LeaseWorld A → Prop)
    (start : LeasePool A τ ι) : Prop where
  /-- A token that an acquisition returns is one that it has won. -/
  returned : ∀ labels p, History (leaseSteps pid etag C) start labels p → ∀ i fence,
    (p.thread i).program = .done (.token (some fence)) →
    ∃ l, (p.ghosts i).won = some l ∧ l.fencingToken = fence
  /-- The token that a step wins is later than all that were won before. -/
  increasing : ∀ labels p, History (leaseSteps pid etag C) start labels p → ∀ i e q,
    leaseSteps pid etag C p (i, e) q → ∀ l, (p.ghosts i).won = none → (q.ghosts i).won = some l →
    ∀ j l', (p.ghosts j).won = some l' → l'.fencingToken < l.fencingToken
  /-- At one moment the fence holds for one instance and token at most. -/
  single : ∀ labels p, History (leaseSteps pid etag C) start labels p → ∀ a t a' t' e e',
    (Script.run (LeaseWorld.perform pid etag) e (checkLockFence a t) p.shared).1 = .ok true →
    (Script.run (LeaseWorld.perform pid etag) e' (checkLockFence a' t') p.shared).1 = .ok true →
    a = a' ∧ t = t'
  /-- A check that was answered step by step was right at one moment of the run. -/
  checked : ∀ labels p, History (leaseSteps pid etag C) start labels p → ∀ i a t,
    (start.ghosts i).call = .check a t → (p.thread i).program = .done (.flag true) →
    ∃ before after r, labels = before ++ after ∧ History (leaseSteps pid etag C) start before r ∧
      LeaseHeld r a t
  /-- There is one lease in force at most. -/
  held_unique : ∀ labels p, History (leaseSteps pid etag C) start labels p → ∀ a t a' t',
    LeaseHeld p a t → LeaseHeld p a' t' → a = a' ∧ t = t'
  /-- Renewals and releases change the lease of their own instance and token only. -/
  owned : ∀ labels p, History (leaseSteps pid etag C) start labels p → ∀ i a t e q,
    (start.ghosts i).call = .renew a t ∨ (start.ghosts i).call = .release a t →
    leaseSteps pid etag C p (i, e) q → q.shared.object ≠ p.shared.object → LeaseHeld p a t

/-- Fenced leases are exclusive as long as the counter of the tokens goes on. -/
theorem leasesExclusive_belowMax (hetag : ∀ n n' x x', etag n x = etag n' x' → x = x')
    (retries clock : Nat) (calls : ι → LeaseCall A) :
    LeasesExclusive pid etag LeaseWorld.BelowMax (leaseStart retries clock calls) where
  returned labels p h i fence hprog := by
    have hends := (leaseSound_run hetag h).2 i
    rw [hprog] at hends
    exact hends.1 fence rfl
  increasing labels p h i e q hq l hnone hl j l' hj := by
    obtain ⟨hsound,htracked⟩ := leaseSound_run hetag h
    obtain ⟨op,next,hprog,rfl⟩ := Pool.step_eq_some.1 hq.1
    rw [Pool.ghosts_answered,Function.update_self] at hl
    have hwait : LeaseSound etag (p.shared.wait e.elapsed) p.ghosts := hsound.congr rfl rfl
    exact hwait.won_fresh hetag hq.2 (htracked.allows hprog) hnone hl hj
  single labels p h a t a' t' e e' hcheck hcheck' := by
    have hsound := (leaseSound_run hetag h).1
    obtain ⟨l,hmemory,hl,rfl⟩ := checkLockFence_alone hcheck
    obtain ⟨l',hmemory',hl',rfl⟩ := checkLockFence_alone hcheck'
    exact hsound.held_unique (hsound.held_of_memory hmemory hl) (hsound.held_of_memory hmemory' hl')
  checked labels p h i a t hcall hprog := by
    have hends := (leaseSound_run hetag h).2 i
    rw [hprog] at hends
    have hstart : calls i = .check a t := hcall
    obtain ⟨content,hgot,rfl,hheld⟩ := hends.2 a t ((call_run h i).trans hstart) rfl
    obtain ⟨before,after,r,hlabels,hr,hrheld⟩ := checked_run hetag h hgot hheld
    rw [hstart] at hrheld
    exact ⟨before,after,r,hlabels,hr,hrheld⟩
  held_unique labels p h a t a' t' hheld hheld' :=
    (leaseSound_run hetag h).1.held_unique hheld hheld'
  owned labels p h i a t e q hcall hq hne := by
    obtain ⟨hsound,htracked⟩ := leaseSound_run hetag h
    obtain ⟨op,next,hprog,rfl⟩ := Pool.step_eq_some.1 hq.1
    change calls i = _ ∨ calls i = _ at hcall
    rw [← call_run h i] at hcall
    exact hsound.changes_held hetag hcall (htracked.allows hprog) hne

def takeover : LeasePool Bool (Nat × LeasePayload) (Fin 4) := leaseStart 0 0 fun i =>
  match i with
  | 0 => .acquire false
  | 1 => .acquire true
  | 2 => .check true 2
  | 3 => .check false 1

def takeoverSchedule : List (Fin 4 × LeaseStep) :=
  List.replicate 5 (0, onTime) ++ (1, leaseLater) :: List.replicate 6 (1, onTime) ++
    List.replicate 4 (2, onTime) ++ List.replicate 3 (3, onTime)

/-- Two instances, one after the other: the second takes the lease over once it has run out. -/
theorem leasesExclusive_takeover :
    LeasesExclusive (fun _ => 0) writeTag LeaseWorld.BelowMax takeover ∧
      (takeover.exec (leaseTracking Bool _) (LeaseWorld.perform (fun _ => 0) writeTag)
        takeoverSchedule).map (fun p => (List.finRange 4).map fun i => (p.thread i).program.result) =
      some [some (.ok (.token (some 1))), some (.ok (.token (some 2))), some (.ok (.flag true)),
        some (.ok (.flag false))] :=
  ⟨leasesExclusive_belowMax (fun _ _ _ _ h => (Prod.mk.inj h).2) 0 0 _, by decide +kernel⟩

end Runs

/-! The counter of the tokens stands still at its maximum. -/

section Saturation

def acquisitions : LeasePool Unit (Nat × LeasePayload) Nat := leaseStart 0 0 fun _ => .acquire ()

/-- The first `n` acquisitions have been made, and the last of them has won token `fence`. -/
structure AcquiredUpTo (n fence : Nat) (p : LeasePool Unit (Nat × LeasePayload) Nat) : Prop where
  waiting : ∀ m, n ≤ m → p.thread m = acquisitions.thread m
  object : ∃ content k, p.shared.object = some (content, k) ∧ content.fence = fence ∧
    content.expiresMs ≤ p.shared.clock + lockLeaseMs
  won : ∃ j l, (p.ghosts j).won = some l ∧ l.fencingToken = fence

theorem play_acquire {w : LeaseWorld Unit} {content : LeasePayload} {k : Nat}
    (hobject : w.object = some (content, k))
    (hexpires : content.expiresMs ≤ w.clock + lockLeaseMs) :
    ∃ owner sequence, (acquisitions.thread 0).program.play (leaseTracking Unit _)
      (LeaseWorld.perform (fun _ => 0) writeTag) [leaseLater, onTime, onTime, onTime, onTime]
      (acquisitions.thread 0).ghost w = some
        (.call (.update (k, content)
            ⟨owner, nextFence content.fence, w.clock + lockLeaseMs + lockLeaseMs⟩)
          fun reply => (acquired () owner (nextFence content.fence) reply (.fail .store)).bind
            fun fence => .done (.token fence),
        ⟨.acquire (), none, some (k, content), some content, none⟩,
        { w with clock := w.clock + lockLeaseMs, sequence := sequence }) := by
  obtain ⟨object,writes,clock,sequence,memory⟩ := w
  cases hobject
  have hexpired : decide (content.expiresMs ≤ clock + lockLeaseMs) = true := decide_eq_true hexpires
  refine ⟨"pid=" ++ toString 0 ++ "-" ++ toString (clock + lockLeaseMs) ++ "-" ++
    toString (sequence ()), Function.update sequence () (sequence () + 1), ?_⟩
  change Script.play _ _ [onTime] (Script.bind
    (if (!decide (content.expiresMs ≤ clock + lockLeaseMs)) = true then _ else _) _) _ _ = some _
  rw [hexpired]
  exact rfl

def acquisitionSteps : LeasePool Unit (Nat × LeasePayload) Nat → Nat × LeaseStep →
    LeasePool Unit (Nat × LeasePayload) Nat → Prop :=
  leaseSteps (fun _ => 0) writeTag fun _ => True

theorem acquiredUpTo_one : ∃ labels p, History acquisitionSteps acquisitions labels p ∧
    AcquiredUpTo 1 1 p := by
  obtain ⟨p,hexec,hshared,hself,hother⟩ : ∃ p : LeasePool Unit (Nat × LeasePayload) Nat,
      acquisitions.exec (leaseTracking Unit _) (LeaseWorld.perform (fun _ => 0) writeTag)
        ([onTime,onTime,onTime,onTime].map fun e => (0, e)) = some p ∧ _ :=
    Pool.exec_thread [onTime,onTime,onTime,onTime] rfl rfl
  refine ⟨_, p, Pool.history_of_exec .start hexec, ?_, ?_, ?_⟩
  · intro m hm
    exact hother m (by omega)
  · rw [hshared]
    exact ⟨_, _, rfl, rfl, Nat.le_refl _⟩
  · refine ⟨0,?_⟩
    rw [Pool.ghosts,hself]
    exact ⟨_,rfl,rfl⟩

theorem perform_update_onTime {w : LeaseWorld Unit} {content : LeasePayload} {k : Nat}
    (hobject : w.object = some (content, k)) (payload : LeasePayload) :
    w.perform (fun _ => 0) writeTag onTime (.update (k, content) payload) = (.ok, w.write payload) := by
  obtain ⟨object,writes,clock,sequence,memory⟩ := w
  cases hobject
  have hcond : writeTag k content = (k, content) := rfl
  simp only [LeaseWorld.perform,LeaseWorld.answer,LeaseWorld.wait,hcond,if_pos]
  rfl

theorem AcquiredUpTo.next {n fence : Nat} {p : LeasePool Unit (Nat × LeasePayload) Nat}
    (h : AcquiredUpTo n fence p) : ∃ labels q r l,
    p.exec (leaseTracking Unit _) (LeaseWorld.perform (fun _ => 0) writeTag) labels = some q ∧
    acquisitionSteps q (n, onTime) r ∧ (q.ghosts n).won = none ∧ (r.ghosts n).won = some l ∧
    l.fencingToken = nextFence fence ∧ (∃ j l', (q.ghosts j).won = some l' ∧
      l'.fencingToken = fence) ∧ AcquiredUpTo (n + 1) (nextFence fence) r := by
  obtain ⟨hwaiting,⟨content,k,hobject,rfl,hexpires⟩,j,l,hl,hfence⟩ := h
  obtain ⟨owner,sequence,hplay⟩ := play_acquire hobject hexpires
  obtain ⟨q,hexec,hshared,hself,hother⟩ := Pool.exec_thread _ (hwaiting n (Nat.le_refl n)) hplay
  have hj : j ≠ n := by
    rintro rfl
    have hnone : (p.thread j).ghost.won = none := by
      rw [hwaiting j (Nat.le_refl j)]
      rfl
    exact absurd (hnone.symm.trans hl) (nomatch ·)
  have hobject' : q.shared.object = some (content, k) := by rw [hshared,← hobject]
  have hclock : q.shared.clock = p.shared.clock + lockLeaseMs := by rw [hshared]
  have hans := perform_update_onTime hobject'
    ⟨owner, nextFence content.fence, p.shared.clock + lockLeaseMs + lockLeaseMs⟩
  refine ⟨_, q, _, ⟨owner, nextFence content.fence⟩, hexec,
    ⟨Pool.step_eq_some.2 ⟨_, _, by rw [hself], rfl⟩, trivial⟩, ?_, ?_, rfl, ⟨j,l,?_,hfence⟩, ?_⟩
  · rw [Pool.ghosts,hself]
  · rw [Pool.ghosts_answered,Function.update_self,hans,Pool.ghosts,hself]
    rfl
  · rw [Pool.ghosts,hother j hj]
    exact hl
  · refine ⟨?_,?_,?_⟩
    · intro m hm
      rw [← hwaiting m (by omega),← hother m (by omega)]
      exact Function.update_of_ne (by omega) ..
    · refine ⟨_, q.shared.writes, congrArg (·.2.object) hans, rfl, ?_⟩
      change _ ≤ LeaseWorld.clock (Prod.snd _) + _
      rw [hans]
      exact Nat.le_of_eq (by rw [← hclock]; rfl)
    · refine ⟨n, ⟨owner, nextFence content.fence⟩, ?_, rfl⟩
      rw [Pool.ghosts_answered,Function.update_self,hans,Pool.ghosts,hself]
      rfl

theorem acquiredUpTo_succ (n : Nat) : ∃ labels p, History acquisitionSteps acquisitions labels p ∧
    AcquiredUpTo (n + 1) (min (n + 1) (2 ^ 64 - 1)) p := by
  induction n with
  | zero =>
    obtain ⟨labels,p,h,hp⟩ := acquiredUpTo_one
    exact ⟨labels,p,h,hp⟩
  | succ n ih =>
    obtain ⟨labels,p,h,hp⟩ := ih
    obtain ⟨labels',q,r,l,hexec,hstep,-,-,-,-,hr⟩ := hp.next
    refine ⟨_, r, (Pool.history_of_exec h hexec).step hstep, ?_⟩
    have hfence : nextFence (min (n + 1) (2 ^ 64 - 1)) = min (n + 1 + 1) (2 ^ 64 - 1) := by
      unfold nextFence
      omega
    rw [← hfence]
    exact hr

/-- The acquisition after the one with the last token gets that token again. -/
theorem leasesExclusive_saturated :
    ¬LeasesExclusive (fun _ => 0) writeTag (fun _ => True) acquisitions := by
  intro h
  obtain ⟨labels,p,hp,hacquired⟩ := acquiredUpTo_succ (2 ^ 64 - 2)
  obtain ⟨labels',q,r,l,hexec,hstep,hnone,hwon,hl,⟨j,l',hj,hl'⟩,-⟩ := hacquired.next
  have hlt := h.increasing _ q (Pool.history_of_exec hp hexec) _ _ r hstep l hnone hwon j l' hj
  rw [hl,hl'] at hlt
  unfold nextFence at hlt
  omega

end Saturation
end AiLake
