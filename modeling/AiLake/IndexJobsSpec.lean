import AiLake.IndexJobs

/-! The record of an index job under all interleavings. -/
namespace AiLake.IndexJob

open StoreProgram Function

variable {H : Type}

def JobCall.overrides : JobCall H → Bool
  | .markCancelled _ _ | .failOrRetry _ _ => true
  | _ => false

def JobCall.marks : JobCall H → Bool
  | .markCancelled _ _ => true
  | _ => false

/-- What a call may put in place of the record that it read. -/
structure JobCall.Rewrites (call : JobCall H) (old new : IndexJobRecord) : Prop where
  attempts : old.attempts ≤ maxAttempts → new.attempts ≤ maxAttempts
  status : old.status = .succeeded → new.status = .succeeded ∨ call.overrides = true

/-- What is known of a call in progress: the record it goes on from, the tokens that it was handed,
found at its handle and checked. It has `looked` between its look at the fence and its put. -/
structure JobGhost (H : Type) where
  call : JobCall H
  read : Option IndexJobRecord
  granted : Option Nat
  token : Option Nat
  fence : Option Nat
  looked : Bool

namespace JobGhost

def init (call : JobCall H) : JobGhost H := ⟨call, none, none, none, none, false⟩

def track (g : JobGhost H) : (op : JobOp H) → op.Reply → JobGhost H
  | .get, some job => { g with read := g.read <|> some job }
  | .put _, _ => { g with looked := false }
  | .tryAcquire _, some (some fence) => { g with granted := some fence }
  | .token _, some fence => { g with token := some fence }
  | .token _, none => { g with looked := g.looked || (g.call.marks && g.token.isNone) }
  | .checkFence fence, some true => { g with fence := some fence, looked := true }
  | _, _ => g

/-- A worker puts the record only after a look at the fence. -/
def Allows (g : JobGhost H) : JobOp H → Prop
  | .put job => (∃ old, g.read = some old ∧ g.call.Rewrites old job) ∧
      (g.call.worker ≠ none → g.looked = true)
  | .tryAcquire h | .token h | .takeToken h => g.call.worker = some h
  | .setToken h fence => g.call.worker = some h ∧ g.granted = some fence
  | .checkFence fence => g.token = some fence
  | _ => True

@[simp] theorem call_track (g : JobGhost H) (op : JobOp H) (r : op.Reply) :
    (g.track op r).call = g.call := by
  unfold track
  split <;> rfl

end JobGhost

def jobTracking (H : Type) : Tracking (jobInterface H) (JobGhost H) :=
  ⟨JobGhost.track, JobGhost.Allows, fun _ _ _ => True⟩

/-! What the programs do. -/

/-- From `g` on, the program makes only the calls that are allowed. -/
def Keeps {α : Type} (g : JobGhost H) (p : JobScript H α) : Prop :=
  p.Ensures (jobTracking H) g fun _ g' => g'.call = g.call

section Programs

variable {α β : Type} {g : JobGhost H} {h : H} {old job : IndexJobRecord}

theorem Keeps.bind {p : JobScript H α} {f : α → JobScript H β} (hp : Keeps g p)
    (hf : ∀ a g', g'.call = g.call → Keeps g' (f a)) : Keeps g (p >>= f) := by
  refine Script.ensures_bind.2 (hp.mono fun r g' hg' => ?_)
  cases r with
  | error e => exact hg'
  | ok a => exact (hf a g' hg').mono fun _ _ hcall => hcall.trans hg'

theorem Keeps.attempt {p : JobScript H α} (hp : Keeps g p) : Keeps g p.attempt :=
  Script.ensures_attempt.2 hp

theorem Keeps.ite {c : Prop} [Decidable c] {p q : JobScript H α} (hp : c → Keeps g p)
    (hq : ¬c → Keeps g q) : Keeps g (if c then p else q) := Script.Ensures.ite hp hq

theorem keeps_pure (a : α) : Keeps g (pure a) := rfl

theorem keeps_fail (e : JobError) : Keeps g (.fail e : JobScript H α) := rfl

theorem Keeps.call {op : JobOp H} {f : op.Reply → JobScript H β} (hallows : g.Allows op)
    (htrack : ∀ r, g.track op r = g) (hf : ∀ r, Keeps g (f r)) :
    Keeps g (.call op .done >>= f) := by
  refine ⟨hallows, fun r _ => ?_⟩
  change Script.Ensures (jobTracking H) (f r) (g.track op r) _
  rw [htrack]
  exact hf r

theorem keeps_record {f : IndexJobRecord → JobScript H β} (hread : g.read = none)
    (hf : ∀ job g', g'.call = g.call → g'.token = g.token → g'.read = some job → Keeps g' (f job)) :
    Keeps g (record >>= f) := by
  refine ⟨trivial, fun reply _ => ?_⟩
  cases reply with
  | none => exact rfl
  | some job => exact hf job { g with read := g.read <|> some job } rfl rfl (by rw [hread]; rfl)

theorem keeps_write (hread : g.read = some old) (hrewrites : g.call.Rewrites old job)
    (hlooked : g.call.worker ≠ none → g.looked = true) : Keeps g (write job) := by
  refine ⟨trivial, fun now _ => ⟨⟨⟨old,hread,hrewrites.attempts,hrewrites.status⟩,hlooked⟩,
    fun reply _ => ?_⟩⟩
  cases reply with
  | false => exact rfl
  | true => exact rfl

theorem keeps_writeFenced (hworker : g.call.worker = some h) (hread : g.read = some old)
    (hrewrites : g.call.Rewrites old job) : Keeps g (writeFenced h job) := by
  refine ⟨hworker, fun fence _ => ?_⟩
  cases fence with
  | none => exact JobGhost.call_track ..
  | some fence =>
    refine ⟨rfl, fun valid _ => ?_⟩
    match valid with
    | none => exact rfl
    | some false => exact rfl
    | some true =>
      exact keeps_write (g := { g with token := some fence, fence := some fence, looked := true })
        hread hrewrites fun _ => rfl

theorem keeps_releaseClaim (hworker : g.call.worker = some h) : Keeps g (releaseClaim h) := by
  refine ⟨hworker, fun fence _ => ?_⟩
  cases fence with
  | none => exact rfl
  | some fence =>
    refine ⟨trivial, fun reply _ => ?_⟩
    cases reply with
    | false => exact rfl
    | true => exact rfl

theorem JobGhost.read_again (hread : g.read = some old) (job : IndexJobRecord) :
    { g with read := g.read <|> some job } = g := by
  rw [hread]
  exact congrArg (fun read => { g with read := read }) hread.symm

theorem keeps_isCancelRequested {f : Bool → JobScript H β} (hread : g.read = some old)
    (hf : ∀ b, Keeps g (f b)) : Keeps g (isCancelRequested >>= f) := by
  refine Script.ensures_bind.2 ⟨trivial, fun reply _ => ?_⟩
  cases reply with
  | none => exact rfl
  | some job =>
    change Script.Ensures (jobTracking H) _ { g with read := g.read <|> some job } _
    rw [JobGhost.read_again hread]
    refine Script.Ensures.ite (fun _ => hf true) fun _ => ⟨trivial, fun marker _ => ?_⟩
    cases marker with
    | none => exact rfl
    | some b => exact hf b

theorem keeps_claimFenced (hworker : g.call.worker = some h) (hread : g.read = none) :
    Keeps g (claimFenced h) := by
  refine keeps_record hread fun job g₁ hcall₁ _ hread₁ => ?_
  have hworker₁ : g₁.call.worker = some h := hcall₁ ▸ hworker
  refine Keeps.ite (fun _ => ?_) fun hopen => ?_
  · exact (keeps_releaseClaim hworker₁).bind fun _ _ _ => keeps_pure _
  push Not at hopen
  obtain ⟨hstatus,_,hattempts⟩ := hopen
  have hrewrites : ∀ new : IndexJobRecord, new.attempts ≤ job.attempts + 1 →
      g₁.call.Rewrites job new := by
    intro new hnew
    exact ⟨fun _ => by omega, fun hsucceeded => absurd hsucceeded hstatus⟩
  refine keeps_isCancelRequested hread₁ fun cancel => Keeps.ite (fun _ => ?_) fun _ => ?_
  · refine (keeps_writeFenced hworker₁ hread₁
      (hrewrites job.cancelledEarly (Nat.le_succ _))).bind fun _ g₂ hcall₂ => ?_
    exact (keeps_releaseClaim (hcall₂ ▸ hworker₁)).bind fun _ _ _ => keeps_pure _
  · refine (keeps_writeFenced hworker₁ hread₁
      (hrewrites job.started (Nat.le_refl _))).attempt.bind fun r g₂ hcall₂ => ?_
    cases r with
    | ok _ => exact keeps_pure _
    | error e =>
      exact (keeps_releaseClaim (hcall₂ ▸ hworker₁)).attempt.bind fun _ _ _ => keeps_fail _

theorem keeps_tryClaim (hworker : g.call.worker = some h) (hread : g.read = none) :
    Keeps g (tryClaim h) := by
  refine ⟨hworker, fun reply _ => ?_⟩
  match reply with
  | none => exact rfl
  | some none => exact rfl
  | some (some fence) =>
    exact ⟨⟨hworker,rfl⟩, fun _ _ => keeps_claimFenced (g := { g with granted := some fence })
      hworker hread⟩

theorem keeps_renewClaim (hworker : g.call.worker = some h) : Keeps g (renewClaim h) := by
  refine ⟨hworker, fun fence _ => ?_⟩
  cases fence with
  | none => exact JobGhost.call_track ..
  | some fence =>
    refine ⟨trivial, fun reply _ => ?_⟩
    cases reply with
    | none => exact rfl
    | some b => exact rfl

theorem keeps_markCancelled {reason : String} (hcall : g.call = .markCancelled h reason)
    (hread : g.read = none) (htoken : g.token = none) : Keeps g (markCancelled h reason) := by
  refine keeps_record hread fun job g₁ hcall₁ htoken₁ hread₁ => ?_
  have hworker : g₁.call.worker = some h := by rw [hcall₁,hcall,JobCall.worker]
  have hoverrides : g₁.call.overrides = true := by rw [hcall₁,hcall,JobCall.overrides]
  have hmarks : g₁.call.marks = true := by rw [hcall₁,hcall,JobCall.marks]
  refine ⟨hworker, fun fence _ => ?_⟩
  cases fence with
  | some fence =>
    exact keeps_writeFenced (g := { g₁ with token := some fence }) hworker hread₁
      ⟨id, fun _ => .inr hoverrides⟩
  | none =>
    refine keeps_write (g := { g₁ with looked := g₁.looked || (g₁.call.marks && g₁.token.isNone) })
      hread₁ ⟨id, fun _ => .inr hoverrides⟩ fun _ => ?_
    simp [hmarks,htoken₁,htoken]

theorem keeps_failOrRetry {error : String} (hcall : g.call = .failOrRetry h error)
    (hread : g.read = none) : Keeps g (failOrRetry h error) := by
  refine keeps_record hread fun job g₁ hcall₁ _ hread₁ => ?_
  have hworker : g₁.call.worker = some h := by rw [hcall₁,hcall,JobCall.worker]
  have hoverrides : g₁.call.overrides = true := by rw [hcall₁,hcall,JobCall.overrides]
  refine Keeps.ite (fun _ => ?_) fun _ => ?_
  all_goals
    refine (keeps_writeFenced hworker hread₁ ?_).bind fun _ _ _ => keeps_pure _
    exact ⟨id, fun _ => .inr hoverrides⟩

theorem keeps_requestCancel (hworker : g.call.worker = none) (hread : g.read = none) :
    Keeps g requestCancel := by
  refine keeps_record hread fun job g₁ hcall₁ _ hread₁ => ?_
  refine Keeps.ite (fun _ => keeps_fail _) fun hopen => ?_
  refine Keeps.call trivial (fun _ => rfl) fun reply => ?_
  cases reply with
  | false => exact keeps_fail _
  | true =>
    refine Keeps.bind (keeps_write hread₁ ?_ (absurd (hcall₁ ▸ hworker))) fun _ _ _ => keeps_pure _
    exact ⟨id, fun hsucceeded => absurd (.inl hsucceeded) hopen⟩

theorem keeps_retry (hworker : g.call.worker = none) (hread : g.read = none) : Keeps g retry := by
  refine keeps_record hread fun job g₁ hcall₁ _ hread₁ => ?_
  refine Keeps.ite (fun _ => keeps_fail _) fun hclosed => ?_
  have hstatus : job.status ≠ .succeeded := by
    intro hsucceeded
    simp [hsucceeded] at hclosed
  refine Keeps.call trivial (fun _ => rfl) fun _ => ?_
  exact (keeps_write hread₁ ⟨fun _ => Nat.zero_le _, fun hsucceeded => absurd hsucceeded hstatus⟩
    (absurd (hcall₁ ▸ hworker))).bind fun _ _ _ => keeps_pure _

theorem IndexJobRecord.attempts_abandoned (job : IndexJobRecord) (cancel : Bool) :
    (job.abandoned cancel).attempts = job.attempts := by
  cases cancel <;> rfl

theorem keeps_recoverAfterRestart (hworker : g.call.worker = none) (hread : g.read = none) :
    Keeps g recoverAfterRestart := by
  refine keeps_record hread fun job g₁ hcall₁ _ hread₁ => ?_
  refine Keeps.ite (fun _ => keeps_pure _) fun hrunning => ?_
  have hrewrites : ∀ new : IndexJobRecord, new.attempts = job.attempts →
      g₁.call.Rewrites job new := by
    intro new hnew
    refine ⟨fun hle => hnew ▸ hle, fun hsucceeded => ?_⟩
    simp [hsucceeded] at hrunning
  have hworker₁ : g₁.call.worker = none := hcall₁ ▸ hworker
  refine Keeps.ite (fun _ => ?_) fun _ => ?_
  · refine (keeps_write hread₁ ?_ (absurd hworker₁)).bind fun _ _ _ => keeps_pure _
    exact hrewrites _ rfl
  · refine keeps_isCancelRequested hread₁ fun cancel => ?_
    refine (keeps_write hread₁ ?_ (absurd hworker₁)).bind fun _ _ _ => keeps_pure _
    exact hrewrites _ (job.attempts_abandoned cancel)

theorem keeps_program (call : JobCall H) : Keeps (.init call) call.program := by
  cases call with
  | tryClaim h => exact (keeps_tryClaim rfl rfl).bind fun _ _ _ => keeps_pure _
  | renewClaim h => exact (keeps_renewClaim rfl).bind fun _ _ _ => keeps_pure _
  | releaseClaim h => exact keeps_releaseClaim rfl
  | updateProgress h progress =>
    refine keeps_record rfl fun job g hcall _ hread => ?_
    refine Keeps.ite (fun _ => ?_) fun _ => keeps_pure _
    exact keeps_writeFenced (by rw [hcall]; rfl) hread ⟨id,.inl⟩
  | succeed h =>
    refine keeps_record rfl fun job g hcall _ hread => ?_
    exact keeps_writeFenced (by rw [hcall]; rfl) hread ⟨id, fun _ => .inl rfl⟩
  | markCancelled h reason => exact keeps_markCancelled rfl rfl rfl
  | failOrRetry h error => exact (keeps_failOrRetry rfl rfl).bind fun _ _ _ => keeps_pure _
  | requestCancel => exact (keeps_requestCancel rfl rfl).bind fun _ _ _ => keeps_pure _
  | retry => exact (keeps_retry rfl rfl).bind fun _ _ _ => keeps_pure _
  | recoverAfterRestart =>
    exact (keeps_recoverAfterRestart rfl rfl).bind fun _ _ _ => keeps_pure _

end Programs

/-! Tokens and claims. -/

namespace JobWorld

/-- A later token was handed out than the one of the handle's claim. -/
def TakenOver (w : JobWorld H) (h : H) : Prop :=
  ∃ fence, w.claimed h = some fence ∧ fence < w.lastFence

/-- The token was handed to the handle, which has not claimed the job with an earlier one since. -/
def Handed (w : JobWorld H) (h : H) (fence : Nat) : Prop :=
  fence ≤ w.lastFence ∧ ∀ fence', w.claimed h = some fence' → fence ≤ fence'

/-- Nothing is handed out between the two, and no handle is given a token. -/
structure Shrinks (w w' : JobWorld H) : Prop where
  lastFence : w'.lastFence = w.lastFence
  claimed : ∀ h fence, w'.claimed h = some fence → w.claimed h = some fence
  holder : ∀ fence, w'.holder = some fence → w.holder = some fence
  tokens : ∀ h fence, w'.tokens h = some fence → w.tokens h = some fence

variable {w w' : JobWorld H} {h : H} {fence : Nat}

theorem Shrinks.handed (hs : w.Shrinks w') (hw : w.Handed h fence) : w'.Handed h fence := by
  refine ⟨?_, fun fence' hclaimed => hw.2 fence' (hs.claimed h fence' hclaimed)⟩
  rw [hs.lastFence]
  exact hw.1

theorem Shrinks.takenOver (hs : w.Shrinks w') (hw : w'.TakenOver h) : w.TakenOver h := by
  obtain ⟨fence,hclaimed,hlt⟩ := hw
  refine ⟨fence, hs.claimed h fence hclaimed, ?_⟩
  rw [← hs.lastFence]
  exact hlt

theorem Shrinks.refl (w : JobWorld H) : w.Shrinks w :=
  ⟨rfl, fun _ _ => id, fun _ => id, fun _ _ => id⟩

theorem shrinks_wait (w : JobWorld H) (e : JobStep) : w.Shrinks (w.wait e) := by
  refine ⟨rfl, fun _ _ => id, fun fence hholder => ?_, fun _ _ => id⟩
  simp only [wait] at hholder
  split at hholder
  · cases hholder
  · exact hholder

theorem shrinks_request (w w' : JobWorld H) (hs : w.Shrinks w') (outcome : StoreOutcome) :
    w.Shrinks (w.request w' outcome).2 := by
  cases outcome with
  | ok => exact hs
  | fails => exact .refl w
  | lost => exact hs

variable [DecidableEq H]

theorem shrinks_giveBack (w : JobWorld H) (h : H) : w.Shrinks (w.giveBack h) := by
  refine ⟨rfl, fun h' fence hclaimed => ?_, fun _ => id, fun h' fence htoken => ?_⟩
  · simp only [giveBack] at hclaimed
    split at hclaimed
    · obtain ⟨-,hnone⟩ | ⟨-,hclaimed⟩ := update_eq_some.1 hclaimed
      · cases hnone
      · exact hclaimed
    · exact hclaimed
  · obtain ⟨-,hnone⟩ | ⟨-,htoken⟩ := update_eq_some.1 htoken
    · cases hnone
    · exact htoken

theorem shrinks_answer (w : JobWorld H) (e : JobStep) {op : JobOp H}
    (hacquire : ∀ h, op ≠ .tryAcquire h) (hset : ∀ h fence, op ≠ .setToken h fence) :
    w.Shrinks (w.answer e op).2 := by
  cases op with
  | get => exact .refl w
  | put record =>
    exact shrinks_request w { w with record := record } ⟨rfl, fun _ _ => id, fun _ => id, fun _ _ => id⟩ _
  | nowMs => exact .refl w
  | cancelExists => exact .refl w
  | putCancel =>
    exact shrinks_request w { w with cancelMarker := true } ⟨rfl, fun _ _ => id, fun _ => id, fun _ _ => id⟩ _
  | deleteCancel =>
    exact shrinks_request w { w with cancelMarker := false } ⟨rfl, fun _ _ => id, fun _ => id, fun _ _ => id⟩ _
  | tryAcquire h => exact absurd rfl (hacquire h)
  | checkFence fence => exact .refl w
  | renewLock fence => exact .refl w
  | releaseLock fence =>
    refine shrinks_request w { w with holder := if w.holder = some fence then none else w.holder }
      ⟨rfl, fun _ _ => id, fun fence' hholder => ?_, fun _ _ => id⟩ _
    simp only at hholder
    split at hholder
    · cases hholder
    · exact hholder
  | token h => exact .refl w
  | setToken h fence => exact absurd rfl (hset h fence)
  | takeToken h => exact shrinks_giveBack w h

theorem answer_tryAcquire (w : JobWorld H) (e : JobStep) (h : H) :
    ((w.answer e (.tryAcquire h)).2 = w ∧ ∀ fence, (w.answer e (.tryAcquire h)).1 ≠ some (some fence)) ∨
    w.holder = none ∧ ((w.answer e (.tryAcquire h)).2 = w.grant e.skipped ∧
        (w.answer e (.tryAcquire h)).1 = none ∨
      (w.answer e (.tryAcquire h)).2 = (w.grant e.skipped).claim h ∧
        (w.answer e (.tryAcquire h)).1 = some (some (w.lastFence + 1 + e.skipped))) := by
  cases hholder : w.holder with
  | some fence =>
    left
    cases houtcome : e.outcome <;> simp [answer,hholder,houtcome]
  | none => cases houtcome : e.outcome <;> simp [answer,hholder,houtcome]

end JobWorld

/-- The claim of a call's worker was taken over, or the one that the call is made under. -/
def JobGhost.Overtaken (g : JobGhost H) (w : JobWorld H) : Prop :=
  ∃ h, g.call.worker = some h ∧
    (w.TakenOver h ∨ ∃ fence, g.fence = some fence ∧ fence < w.lastFence)

structure JobGhost.Sound (w : JobWorld H) (g : JobGhost H) : Prop where
  granted : ∀ h fence, g.call.worker = some h → g.granted = some fence → w.Handed h fence
  token : ∀ h fence, g.call.worker = some h → g.token = some fence → w.Handed h fence
  fence : g.token = none → g.fence = none
  looked : g.looked = true → ¬g.Overtaken w
  read : ∀ job, g.call.overrides = true → g.read = some job → job.status ≠ .succeeded

structure JobSound {ι : Type} (w : JobWorld H) (ghosts : ι → JobGhost H) : Prop where
  holder : ∀ fence, w.holder = some fence → fence = w.lastFence
  tokens : ∀ h fence, w.tokens h = some fence → w.Handed h fence
  calls : ∀ i, (ghosts i).Sound w

section Invariant

variable {ι : Type} {w w' : JobWorld H} {ghosts : ι → JobGhost H} {i : ι} {g : JobGhost H} {h : H}

theorem JobGhost.Sound.shrinks (hg : g.Sound w) (hs : w.Shrinks w') : g.Sound w' := by
  refine ⟨fun h fence hworker hgranted => hs.handed (hg.granted h fence hworker hgranted),
    fun h fence hworker htoken => hs.handed (hg.token h fence hworker htoken), hg.fence, ?_, hg.read⟩
  rintro hlooked ⟨h,hworker,hover⟩
  refine hg.looked hlooked ⟨h,hworker,?_⟩
  rw [hs.lastFence] at hover
  exact hover.imp_left hs.takenOver

theorem JobSound.shrinks (hw : JobSound w ghosts) (hs : w.Shrinks w') : JobSound w' ghosts := by
  refine ⟨fun fence hholder => ?_, fun h fence htoken => ?_, fun i => (hw.calls i).shrinks hs⟩
  · rw [hs.lastFence]
    exact hw.holder fence (hs.holder fence hholder)
  · exact hs.handed (hw.tokens h fence (hs.tokens h fence htoken))

theorem JobWorld.Handed.grant {fence : Nat} (hw : w.Handed h fence) (skipped : Nat) :
    (w.grant skipped).Handed h fence := by
  refine ⟨?_,hw.2⟩
  have hle := hw.1
  simp only [JobWorld.grant]
  omega

theorem JobGhost.Sound.grant (hg : g.Sound w) (hlooked : g.looked = false) (skipped : Nat) :
    g.Sound (w.grant skipped) := by
  refine ⟨fun h fence hworker hgranted => (hg.granted h fence hworker hgranted).grant skipped,
    fun h fence hworker htoken => (hg.token h fence hworker htoken).grant skipped, hg.fence, ?_,
    hg.read⟩
  intro htrue
  rw [hlooked] at htrue
  cases htrue

theorem JobSound.grant (hw : JobSound w ghosts) (hlooked : ∀ j, (ghosts j).looked = false)
    (skipped : Nat) : JobSound (w.grant skipped) ghosts := by
  refine ⟨fun fence hholder => ?_, fun h fence htoken => (hw.tokens h fence htoken).grant skipped,
    fun j => (hw.calls j).grant (hlooked j) skipped⟩
  cases hholder
  rfl

theorem JobGhost.Sound.get {job : IndexJobRecord} (hg : g.Sound w)
    (hopen : g.call.overrides = true → job.status ≠ .succeeded) :
    { g with read := g.read <|> some job }.Sound w := by
  refine ⟨hg.granted, hg.token, hg.fence, hg.looked, fun job' hoverrides hread => ?_⟩
  cases hold : g.read with
  | some old =>
    rw [JobGhost.read_again hold] at hread
    exact hg.read job' hoverrides hread
  | none =>
    simp only [hold] at hread
    cases hread
    exact hopen hoverrides

theorem JobGhost.Sound.put (hg : g.Sound w) : { g with looked := false }.Sound w :=
  ⟨hg.granted, hg.token, hg.fence, fun hlooked => absurd hlooked Bool.false_ne_true, hg.read⟩

theorem JobGhost.Sound.found {fence : Nat} (hg : g.Sound w) (hworker : g.call.worker = some h)
    (hhanded : w.Handed h fence) : { g with token := some fence }.Sound w := by
  refine ⟨hg.granted, fun h' fence' hworker' htoken => ?_, fun hnone => absurd hnone nofun,
    hg.looked, hg.read⟩
  cases htoken
  rw [hworker] at hworker'
  cases hworker'
  exact hhanded

theorem JobGhost.Sound.notFound (hg : g.Sound w)
    (hmarks : g.call.marks = true → ∀ h, g.call.worker = some h → ¬w.TakenOver h) :
    { g with looked := g.looked || (g.call.marks && g.token.isNone) }.Sound w := by
  refine ⟨hg.granted, hg.token, hg.fence, fun hlooked => ?_, hg.read⟩
  simp only [Bool.or_eq_true,Bool.and_eq_true,Option.isNone_iff_eq_none] at hlooked
  rcases hlooked with hlooked | ⟨hmark,htoken⟩
  · exact hg.looked hlooked
  · rintro ⟨h, hworker, hover | ⟨fence,hfence,-⟩⟩
    · exact hmarks hmark h hworker hover
    · rw [hg.fence htoken] at hfence
      cases hfence

theorem JobGhost.Sound.checked {fence : Nat} (hg : g.Sound w) (htoken : g.token = some fence)
    (hlast : fence = w.lastFence) : { g with fence := some fence, looked := true }.Sound w := by
  refine ⟨hg.granted, hg.token, fun hnone => ?_, fun _ => ?_, hg.read⟩
  · rw [htoken] at hnone
    cases hnone
  · rintro ⟨h, hworker, ⟨fence',hclaimed,hlt⟩ | ⟨fence',hfence,hlt⟩⟩
    · have hle := (hg.token h fence hworker htoken).2 fence' hclaimed
      omega
    · cases hfence
      omega

theorem JobGhost.Sound.acquired {fence : Nat} (hg : g.Sound w) (hworker : g.call.worker = some h)
    (hhanded : w.Handed h fence) : { g with granted := some fence }.Sound w := by
  refine ⟨fun h' fence' hworker' hgranted => ?_, hg.token, hg.fence, hg.looked, hg.read⟩
  cases hgranted
  rw [hworker] at hworker'
  cases hworker'
  exact hhanded

variable [DecidableEq H]

theorem JobWorld.Handed.claim {h' : H} {fence : Nat} (hw : w.Handed h fence) :
    (w.claim h').Handed h fence := by
  refine ⟨hw.1, fun fence' hclaimed => ?_⟩
  obtain ⟨-,hnew⟩ | ⟨-,hclaimed⟩ := update_eq_some.1 hclaimed
  · cases hnew
    exact hw.1
  · exact hw.2 fence' hclaimed

theorem JobWorld.handed_claim (w : JobWorld H) (h : H) : (w.claim h).Handed h w.lastFence := by
  refine ⟨Nat.le_refl _, fun fence' hclaimed => ?_⟩
  simp only [JobWorld.claim,update_self] at hclaimed
  cases hclaimed
  exact Nat.le_refl _

theorem JobSound.claim (hw : JobSound w ghosts) (hlooked : ∀ j, (ghosts j).looked = false) (h : H) :
    JobSound (w.claim h) ghosts := by
  refine ⟨hw.holder, fun h' fence htoken => (hw.tokens h' fence htoken).claim, fun j => ?_⟩
  have hj := hw.calls j
  refine ⟨fun h' fence hworker hgranted => (hj.granted h' fence hworker hgranted).claim,
    fun h' fence hworker htoken => (hj.token h' fence hworker htoken).claim, hj.fence, ?_, hj.read⟩
  intro htrue
  rw [hlooked j] at htrue
  cases htrue

theorem JobSound.setToken {fence : Nat} (hw : JobSound w ghosts) (hhanded : w.Handed h fence) :
    JobSound { w with tokens := Function.update w.tokens h (some fence) } ghosts := by
  refine ⟨hw.holder, fun h' fence' htoken => ?_, fun j => ?_⟩
  · obtain ⟨rfl,hnew⟩ | ⟨-,htoken⟩ := update_eq_some.1 htoken
    · cases hnew
      exact hhanded
    · exact hw.tokens h' fence' htoken
  · have hj := hw.calls j
    exact ⟨hj.granted,hj.token,hj.fence,hj.looked,hj.read⟩

variable [DecidableEq ι]

omit [DecidableEq H] in
theorem JobSound.update (hw : JobSound w ghosts) (hg : g.Sound w) :
    JobSound w (Function.update ghosts i g) := by
  refine ⟨hw.holder, hw.tokens, fun j => ?_⟩
  by_cases hj : j = i
  · subst hj
    rw [update_self]
    exact hg
  · rw [update_of_ne hj]
    exact hw.calls j

end Invariant

/-! Runs. -/

section Runs

variable {ι : Type}

abbrev JobPool (ι H : Type) := Pool ι (JobWorld H) (jobInterface H) JobError Unit (JobGhost H)

/-- The record is safe if a put finds the record as its call read it, calls that override the status
meet a job that has not succeeded, the lock is not handed out between a worker's look at the fence
and its put, and an overtaken worker does not mark the job cancelled after dropping its token. -/
structure Orderly (p : JobPool ι H) (i : ι) (e : JobStep) : Prop where
  unchanged : ∀ job, (p.thread i).program.next = some (.put job) →
    (p.ghosts i).read = some p.shared.record
  notSucceeded : (p.thread i).program.next = some .get → (p.ghosts i).call.overrides = true →
    p.shared.record.status ≠ .succeeded
  apart : ∀ h, (p.thread i).program.next = some (.tryAcquire h) → (p.shared.wait e).holder = none →
    ∀ j, (p.ghosts j).looked = false
  dropped : ∀ h, (p.thread i).program.next = some (.token h) → (p.ghosts i).call.marks = true →
    p.shared.tokens h = none → ¬p.shared.TakenOver h

variable [DecidableEq ι] [DecidableEq H] {p : JobPool ι H} {i : ι} {e : JobStep}

theorem JobSound.step {op : JobOp H} {next : op.Reply → JobScript H Unit}
    (hw : JobSound p.shared p.ghosts) (hprog : (p.thread i).program = .call op next)
    (hallows : (p.ghosts i).Allows op) (hC : Orderly p i e) :
    JobSound (p.shared.perform e op).2
      (Function.update p.ghosts i ((p.ghosts i).track op (p.shared.perform e op).1)) := by
  have hnext : (p.thread i).program.next = some op := by rw [hprog]; rfl
  have hwait : JobSound (p.shared.wait e) p.ghosts := hw.shrinks (p.shared.shrinks_wait e)
  have hcall := hwait.calls i
  unfold JobWorld.perform
  by_cases hacquire : ∃ h, op = .tryAcquire h
  · obtain ⟨h,rfl⟩ := hacquire
    obtain ⟨hsame,hreply⟩ | ⟨hfree, ⟨hgrant,hreply⟩ | ⟨hgrant,hreply⟩⟩ :=
      (p.shared.wait e).answer_tryAcquire e h
    · have htrack : (p.ghosts i).track (.tryAcquire h)
          ((p.shared.wait e).answer e (.tryAcquire h)).1 = p.ghosts i := by
        unfold JobGhost.track
        split <;> simp_all
      rw [hsame,htrack]
      exact hwait.update hcall
    · have hgranted := hwait.grant (hC.apart h hnext hfree) e.skipped
      rw [hgrant,hreply]
      exact hgranted.update (hgranted.calls i)
    · have hclaimed := (hwait.grant (hC.apart h hnext hfree) e.skipped).claim
        (hC.apart h hnext hfree) h
      rw [hgrant,hreply]
      exact hclaimed.update ((hclaimed.calls i).acquired hallows (JobWorld.handed_claim _ h))
  by_cases hset : ∃ h fence, op = .setToken h fence
  · obtain ⟨h,fence,rfl⟩ := hset
    exact (hwait.setToken (hcall.granted h fence hallows.1 hallows.2)).update
      ((hwait.setToken (hcall.granted h fence hallows.1 hallows.2)).calls i)
  push Not at hacquire hset
  have hs := (p.shared.wait e).shrinks_answer e hacquire hset
  refine (hwait.shrinks hs).update ?_
  have hcall' := hcall.shrinks hs
  cases op with
  | get =>
    simp only [JobWorld.answer]
    split
    · exact hcall'.get (hC.notSucceeded hnext)
    · exact hcall'
  | put job => exact hcall'.put
  | token h =>
    simp only [JobWorld.answer]
    cases htoken : (p.shared.wait e).tokens h with
    | some fence => exact hcall'.found hallows (hwait.tokens h fence htoken)
    | none =>
      refine hcall'.notFound fun hmarks h' hworker => ?_
      have hh : h' = h := Option.some_inj.1 (hworker.symm.trans hallows)
      subst hh
      exact hC.dropped h' hnext hmarks htoken
  | checkFence fence =>
    simp only [JobWorld.answer]
    by_cases hok : e.outcome = .ok ∧ (p.shared.wait e).holder = some fence
    · simp only [hok,if_true,decide_true]
      exact hcall'.checked hallows (hwait.holder fence hok.2)
    · have htrack : (p.ghosts i).track (.checkFence fence) (if e.outcome = .ok
          then some (decide ((p.shared.wait e).holder = some fence)) else none) = p.ghosts i := by
        unfold JobGhost.track
        split <;> simp_all
      rw [htrack]
      exact hcall'
  | tryAcquire h => exact absurd rfl (hacquire h)
  | setToken h fence => exact absurd rfl (hset h fence)
  | nowMs => exact hcall'
  | cancelExists => exact hcall'
  | putCancel => exact hcall'
  | deleteCancel => exact hcall'
  | renewLock fence => exact hcall'
  | releaseLock fence => exact hcall'
  | takeToken h => exact hcall'

omit [DecidableEq ι] in
theorem JobWorld.record_perform (w : JobWorld H) (e : JobStep) (op : JobOp H) :
    (w.perform e op).2.record = w.record ∨
      ∃ job, op = .put job ∧ (w.perform e op).2.record = job := by
  have hrequest : ∀ w' w'' : JobWorld H, w''.record = w'.record →
      (w'.request w'' e.outcome).2.record = w'.record := by
    intro w' w'' hrecord
    cases e.outcome with
    | ok => exact hrecord
    | fails => rfl
    | lost => exact hrecord
  cases op with
  | put job =>
    unfold perform
    simp only [answer]
    cases e.outcome with
    | ok => exact .inr ⟨job,rfl,rfl⟩
    | fails => exact .inl rfl
    | lost => exact .inr ⟨job,rfl,rfl⟩
  | tryAcquire h =>
    left
    unfold perform
    obtain ⟨hsame,-⟩ | ⟨-, ⟨hgrant,-⟩ | ⟨hgrant,-⟩⟩ := (w.wait e).answer_tryAcquire e h
    · rw [hsame,wait]
    · rw [hgrant,grant,wait]
    · rw [hgrant,claim,grant,wait]
  | putCancel => exact .inl (hrequest (w.wait e) _ rfl)
  | deleteCancel => exact .inl (hrequest (w.wait e) _ rfl)
  | releaseLock fence => exact .inl (hrequest (w.wait e) _ rfl)
  | get => exact .inl rfl
  | nowMs => exact .inl rfl
  | cancelExists => exact .inl rfl
  | checkFence fence => exact .inl rfl
  | renewLock fence => exact .inl rfl
  | token h => exact .inl rfl
  | setToken h fence => exact .inl rfl
  | takeToken h => exact .inl rfl

/-- No record, stored or read, counts more attempts than there may be. -/
structure AttemptsSound (w : JobWorld H) (ghosts : ι → JobGhost H) : Prop where
  record : w.record.attempts ≤ maxAttempts
  read : ∀ i job, (ghosts i).read = some job → job.attempts ≤ maxAttempts

omit [DecidableEq H] in
theorem JobGhost.read_track {g : JobGhost H} {op : JobOp H} {r : op.Reply} {job : IndexJobRecord}
    (h : (g.track op r).read = some job) : g.read = some job ∨ op = .get ∧ HEq r (some job) := by
  unfold track at h
  split at h
  case h_1 found =>
    cases hread : g.read with
    | some old =>
      rw [JobGhost.read_again hread] at h
      exact .inl (hread ▸ h)
    | none =>
      simp only [hread] at h
      cases h
      exact .inr ⟨rfl,HEq.rfl⟩
  all_goals exact .inl h

theorem AttemptsSound.step {op : JobOp H} (hw : AttemptsSound p.shared p.ghosts)
    (hallows : (p.ghosts i).Allows op) :
    AttemptsSound (p.shared.perform e op).2
      (Function.update p.ghosts i ((p.ghosts i).track op (p.shared.perform e op).1)) := by
  constructor
  · obtain hsame | ⟨job,rfl,hput⟩ := p.shared.record_perform e op
    · rw [hsame]
      exact hw.record
    · obtain ⟨⟨old,hread,hrewrites⟩,-⟩ := hallows
      rw [hput]
      exact hrewrites.attempts (hw.read i old hread)
  · intro j job hread
    by_cases hj : j = i
    · subst hj
      rw [update_self] at hread
      obtain hread | ⟨rfl,hreply⟩ := JobGhost.read_track hread
      · exact hw.read j job hread
      · have hreply' := eq_of_heq hreply
        simp only [JobWorld.perform,JobWorld.answer] at hreply'
        split at hreply'
        · cases hreply'
          exact hw.record
        · cases hreply'
    · rw [update_of_ne hj] at hread
      exact hw.read j job hread

abbrev jobSteps (C : JobPool ι H → ι → JobStep → Prop) :
    JobPool ι H → ι × JobStep → JobPool ι H → Prop :=
  Pool.Steps (jobTracking H) JobWorld.perform C

def startJob (calls : ι → JobCall H) (id : String) (clock lastFence : Nat) : JobPool ι H where
  shared := .created id clock lastFence
  thread i := ⟨(calls i).program, .init (calls i)⟩

/-- A job that succeeded stays so. -/
def SucceededStays (C : JobPool ι H → ι → JobStep → Prop) (start : JobPool ι H) : Prop :=
  ∀ labels p labels' q, History (jobSteps C) start labels p →
    p.shared.record.status = .succeeded → History (jobSteps C) p labels' q →
    q.shared.record.status = .succeeded

/-- A worker whose claim was taken over does not change the record. -/
def OvertakenSilent (C : JobPool ι H → ι → JobStep → Prop) (start : JobPool ι H) : Prop :=
  ∀ labels p a q, History (jobSteps C) start labels p → jobSteps C p a q →
    (p.ghosts a.1).Overtaken p.shared → q.shared.record = p.shared.record

def AttemptsBounded (C : JobPool ι H → ι → JobStep → Prop) (start : JobPool ι H) : Prop :=
  ∀ labels p, History (jobSteps C) start labels p → p.shared.record.attempts ≤ maxAttempts

omit [DecidableEq ι] [DecidableEq H] in
theorem tracked_startJob (calls : ι → JobCall H) (id : String) (clock lastFence : Nat) :
    (startJob calls id clock lastFence).Tracked (jobTracking H) fun _ _ => True := by
  intro i
  exact (keeps_program (calls i)).mono fun _ _ _ => trivial

omit [DecidableEq ι] [DecidableEq H] in
theorem sound_startJob (calls : ι → JobCall H) (id : String) (clock lastFence : Nat) :
    JobSound (startJob calls id clock lastFence).shared (startJob calls id clock lastFence).ghosts where
  holder := nofun
  tokens := nofun
  calls _ := ⟨nofun, nofun, fun _ => rfl, nofun, nofun⟩

omit [DecidableEq ι] [DecidableEq H] in
theorem attemptsSound_startJob (calls : ι → JobCall H) (id : String) (clock lastFence : Nat) :
    AttemptsSound (startJob calls id clock lastFence).shared
      (startJob calls id clock lastFence).ghosts :=
  ⟨Nat.zero_le _, nofun⟩

variable {calls : ι → JobCall H} {id : String} {clock lastFence : Nat} {labels : List (ι × JobStep)}

theorem sound_of_run (hrun : History (jobSteps Orderly) (startJob calls id clock lastFence) labels p) :
    JobSound p.shared p.ghosts ∧ p.Tracked (jobTracking H) fun _ _ => True :=
  Pool.tracked_invariant JobSound
    (fun _ _ _ _ _ hw hprog hallows hC => ⟨trivial, hw.step hprog hallows hC⟩) hrun
    (sound_startJob calls id clock lastFence) (tracked_startJob calls id clock lastFence)

theorem attemptsBounded_startJob (C : JobPool ι H → ι → JobStep → Prop) :
    AttemptsBounded C (startJob calls id clock lastFence) := by
  intro labels p hrun
  have hsound := Pool.tracked_invariant AttemptsSound
    (fun _ _ _ _ _ hw _ hallows _ => ⟨trivial, hw.step hallows⟩) hrun
    (attemptsSound_startJob calls id clock lastFence) (tracked_startJob calls id clock lastFence)
  exact hsound.1.record

theorem record_orderly {a : ι × JobStep} {q : JobPool ι H} (hsound : JobSound p.shared p.ghosts)
    (htracked : p.Tracked (jobTracking H) fun _ _ => True) (hstep : jobSteps Orderly p a q) :
    (p.shared.record.status = .succeeded → q.shared.record.status = .succeeded) ∧
      ((p.ghosts a.1).Overtaken p.shared → q.shared.record = p.shared.record) := by
  obtain ⟨op,next,hprog,rfl⟩ := Pool.step_eq_some.1 hstep.1
  have hnext : (p.thread a.1).program.next = some op := by rw [hprog]; rfl
  change (_ → (p.shared.perform a.2 op).2.record.status = _) ∧
    (_ → (p.shared.perform a.2 op).2.record = _)
  obtain hsame | ⟨job,rfl,hput⟩ := p.shared.record_perform a.2 op
  · rw [hsame]
    exact ⟨fun hstatus => hstatus, fun _ => rfl⟩
  · obtain ⟨⟨old,hread,hrewrites⟩,hlooked⟩ := htracked.allows hprog
    have hunchanged := hstep.2.unchanged job hnext
    rw [hread] at hunchanged
    cases hunchanged
    rw [hput]
    constructor
    · intro hstatus
      rcases hrewrites.status hstatus with hnew | hoverrides
      · exact hnew
      · exact absurd hstatus ((hsound.calls a.1).read _ hoverrides hread)
    · rintro ⟨h,hworker,hover⟩
      have hlook := hlooked (by rw [hworker]; nofun)
      exact absurd ⟨h,hworker,hover⟩ ((hsound.calls a.1).looked hlook)

/-- In every orderly run a job that succeeded stays so and a worker whose claim was taken over changes
nothing; the attempts are bounded in every run. -/
theorem indexJob_lifecycle (calls : ι → JobCall H) (id : String) (clock lastFence : Nat) :
    SucceededStays Orderly (startJob calls id clock lastFence) ∧
      OvertakenSilent Orderly (startJob calls id clock lastFence) ∧
      AttemptsBounded (fun _ _ _ => True) (startJob calls id clock lastFence) := by
  refine ⟨?_, ?_, attemptsBounded_startJob _⟩
  · intro labels p labels' q hrun hstatus hrest
    induction hrest with
    | start => exact hstatus
    | step hrest hstep ih =>
      obtain ⟨hsound,htracked⟩ := sound_of_run (hrun.trans hrest)
      exact (record_orderly hsound htracked hstep).1 ih
  · intro labels p a q hrun hstep hover
    obtain ⟨hsound,htracked⟩ := sound_of_run hrun
    exact (record_orderly hsound htracked hstep).2 hover

end Runs

/-- Two workers, the second one waiting for the lock, and a request to cancel. -/
def disputed : JobPool (Fin 5) Bool := startJob (fun i =>
  match i with
  | 0 => .tryClaim true
  | 1 => .succeed true
  | 2 => .requestCancel
  | 3 => .updateProgress true 50
  | 4 => .tryClaim false) "job" 0 0

def promptly : JobStep := ⟨0, .ok, false, 0⟩

def tooLate : JobStep := ⟨0, .ok, true, 0⟩

def prompt (threads : List (Fin 5)) : List (Fin 5 × JobStep) := threads.map fun i => (i, promptly)

/-- A request to cancel puts back the record from before the job succeeded, and a worker puts its
record after its lease ran out and the lock went to another. -/
theorem disputed_lifecycle_fails : ¬SucceededStays (fun _ _ _ => True) disputed ∧
    ¬OvertakenSilent (fun _ _ _ => True) disputed := by
  constructor
  · intro h
    obtain ⟨p,q,hp,hsucceeded,hq,hrunning⟩ : ∃ p q,
        disputed.exec (jobTracking Bool) JobWorld.perform
          (prompt [0,0,0,0,0,0,0,0,0,2,1,1,1,1,1]) = some p ∧
        p.shared.record.status = .succeeded ∧
        p.exec (jobTracking Bool) JobWorld.perform (prompt [2,2,2]) = some q ∧
        q.shared.record.status = .running := ⟨_,_,rfl,rfl,rfl,rfl⟩
    have hstays := h _ p _ q (Pool.history_of_exec .start hp) hsucceeded
      (Pool.history_of_exec .start hq)
    rw [hrunning] at hstays
    cases hstays
  · intro h
    obtain ⟨p,q,hp,hclaimed,hlast,hworker,hq,hprogress⟩ : ∃ p q,
        disputed.exec (jobTracking Bool) JobWorld.perform
          (prompt [0,0,0,0,0,0,0,0,0,3,3,3,3] ++ [(4, tooLate)]) = some p ∧
        p.shared.claimed true = some 1 ∧ p.shared.lastFence = 2 ∧
        (p.ghosts 3).call.worker = some true ∧
        p.step (jobTracking Bool) JobWorld.perform 3 promptly = some q ∧
        q.shared.record.progress ≠ p.shared.record.progress :=
      ⟨_, _, rfl, rfl, rfl, rfl, rfl, by decide⟩
    have hover : (p.ghosts 3).Overtaken p.shared := by
      refine ⟨true, hworker, .inl ⟨1,hclaimed,?_⟩⟩
      rw [hlast]
      decide
    have hsilent := h _ p (3, promptly) q (Pool.history_of_exec .start hp) ⟨hq,trivial⟩ hover
    exact hprogress (congrArg IndexJobRecord.progress hsilent)

end AiLake.IndexJob
