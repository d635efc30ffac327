import AiLake.CompactionJobs

/-! The life of a compaction job under all interleavings. -/
namespace AiLake.CompactionJob

open StoreProgram Function

/-- How far a request is: not begun, its worker spawned, executing the compaction, or over with its
status still to be written. -/
inductive Phase where
  | calling
  | pending
  | executing
  | closing
  | finished
  deriving DecidableEq, Repr

namespace Phase

def Active : Phase → Prop
  | .pending | .executing | .closing => True
  | _ => False

instance : DecidablePred Active := fun g => by cases g <;> unfold Active <;> infer_instance

def answered : Except String JobRecord → Phase
  | .ok _ => .pending
  | .error _ => .finished

def track (g : Phase) : (op : JobOp) → op.Reply → Phase
  | .create _, reply => answered reply
  | .mutate .retry, reply => answered reply
  | .mutate .cancel, _ => .finished
  | .mutate (.update status _ _), _ => if status = .running then g else .finished
  | .get, _ => g
  | .beginCompaction _, _ => .executing
  | .endCompaction, _ => .closing

def Allows (g : Phase) : JobOp → Prop
  | .create _ => g = .calling
  | .mutate .retry | .mutate .cancel => g = .calling
  | .mutate (.update status _ _) => if status = .running then g = .pending
      else status.terminal = true ∧ (g = .pending ∨ g = .closing)
  | .get => True
  | .beginCompaction _ => g = .pending
  | .endCompaction => g = .executing

end Phase

def jobTracking : Tracking jobInterface Phase := ⟨Phase.track, Phase.Allows, fun _ _ _ => True⟩

section Programs

variable {β : Type} {g : Phase} {Q : Except String β → Phase → Prop}

theorem ensures_isCancelRequested {f : Bool → JobScript β}
    (h : ∀ b, (f b).Ensures jobTracking g Q) :
    (isCancelRequested >>= f).Ensures jobTracking g Q :=
  Script.Ensures.call trivial fun _ _ => h _

theorem ensures_updateJob {status : JobStatus} {result error : Option String}
    (hterminal : status.terminal = true) (hg : g = .pending ∨ g = .closing) :
    (updateJob status result error >>= fun _ => (pure () : JobScript Unit)).Ensures jobTracking g
      fun _ _ => True := by
  refine Script.Ensures.call ?_ fun _ _ => trivial
  have hne : status ≠ .running := by
    rintro rfl
    cases hterminal
  simp only [jobTracking,Phase.Allows,if_neg hne]
  exact ⟨hterminal,hg⟩

theorem ensures_compactionWorker (job : JobRecord) :
    (compactionWorker job).Ensures jobTracking .pending fun _ _ => True := by
  refine ensures_isCancelRequested fun b => ?_
  cases b with
  | true => exact ensures_updateJob rfl (.inl rfl)
  | false =>
    refine Script.Ensures.call rfl fun _ _ => ?_
    refine Script.Ensures.call rfl fun _ _ => ?_
    refine Script.Ensures.call rfl fun outcome _ => ?_
    cases outcome with
    | error message => exact ensures_updateJob rfl (.inr rfl)
    | ok result =>
      refine ensures_isCancelRequested fun b => ?_
      cases b with
      | true => exact ensures_updateJob rfl (.inr rfl)
      | false => exact ensures_updateJob rfl (.inr rfl)

theorem ensures_spawned (reply : Except String JobRecord) :
    (spawned reply).Ensures jobTracking (.answered reply) fun _ _ => True := by
  cases reply with
  | ok job => exact ensures_compactionWorker job
  | error message => trivial

theorem ensures_program (call : JobCall) :
    call.program.Ensures jobTracking .calling fun _ _ => True := by
  cases call with
  | submit request => exact Script.Ensures.call rfl fun reply _ => ensures_spawned reply
  | retry => exact Script.Ensures.call rfl fun reply _ => ensures_spawned reply
  | cancel =>
    refine Script.Ensures.call rfl fun reply _ => ?_
    cases reply <;> trivial

end Programs

def JobWorld.Open (w : JobWorld) : Prop := ∃ job, w.record = some job ∧ job.status.terminal = false

/-- One worker at most is active, and none once the job has come to its end. -/
structure JobSound {ι : Type} (w : JobWorld) (phases : ι → Phase) : Prop where
  single : ∀ i j, (phases i).Active → (phases j).Active → i = j
  opened : ∀ i, (phases i).Active → w.Open

section Invariant

variable {ι : Type} {w w' : JobWorld} {phases : ι → Phase} {i : ι} {job : JobRecord}

theorem JobWorld.put_record (w : JobWorld) (outcome : StoreOutcome) (answered stored : JobRecord) :
    (w.put outcome answered stored).2.record = some stored ∨
      (w.put outcome answered stored).2.record = w.record := by
  cases outcome with
  | ok => exact .inl rfl
  | fails => exact .inr rfl
  | lost => exact .inl rfl

theorem JobWorld.put_ok {outcome : StoreOutcome} {answered stored job : JobRecord}
    (h : (w.put outcome answered stored).1 = .ok job) :
    job = answered ∧ (w.put outcome answered stored).2.record = some stored := by
  cases outcome with
  | ok =>
    cases h
    exact ⟨rfl,rfl⟩
  | fails => cases h
  | lost => cases h

theorem JobWorld.mutate_ok {id : String} {e : JobStep} {change : JobChange}
    (h : (w.answer id e (.mutate change)).1 = .ok job) :
    ∃ job', (w.answer id e (.mutate change)).2.record = some job' ∧ job'.status = job.status := by
  cases hrecord : w.record with
  | none =>
    simp only [answer,hrecord] at h
    cases h
  | some current =>
    simp only [answer,hrecord] at h ⊢
    cases happly : change.apply current with
    | error message =>
      rw [happly] at h
      cases h
    | ok changed =>
      rw [happly] at h
      obtain ⟨rfl,hput⟩ := put_ok h
      exact ⟨_,hput,rfl⟩

theorem Phase.active_answered {reply : Except String JobRecord} (h : (Phase.answered reply).Active) :
    ∃ job, reply = .ok job := by
  cases reply with
  | ok job => exact ⟨job,rfl⟩
  | error message => exact h.elim

theorem JobSound.not_active (h : JobSound w phases) (hclosed : ¬w.Open) (j : ι) :
    ¬(phases j).Active := fun hj => hclosed (h.opened j hj)

theorem not_open_of_terminal (hrecord : w.record = some job) (hterminal : job.status.terminal = true) :
    ¬w.Open := by
  rintro ⟨job',hjob',hopen⟩
  rw [hrecord] at hjob'
  cases hjob'
  rw [hterminal] at hopen
  cases hopen

theorem not_open_of_none (hrecord : w.record = none) : ¬w.Open := by
  rintro ⟨job',hjob',-⟩
  rw [hrecord] at hjob'
  cases hjob'

variable [DecidableEq ι]

theorem JobSound.moves (h : JobSound w phases) {g : Phase}
    (hself : g.Active → w'.Open ∧ ((phases i).Active ∨ ∀ j, ¬(phases j).Active))
    (hother : ∀ j ≠ i, (phases j).Active → w'.Open) :
    JobSound w' (Function.update phases i g) := by
  constructor
  · intro j k hj hk
    by_cases hji : j = i <;> by_cases hki : k = i
    · rw [hji,hki]
    · subst hji
      rw [update_self] at hj
      rw [update_of_ne hki] at hk
      rcases (hself hj).2 with hactive | hnone
      · exact h.single j k hactive hk
      · exact absurd hk (hnone k)
    · subst hki
      rw [update_self] at hk
      rw [update_of_ne hji] at hj
      rcases (hself hk).2 with hactive | hnone
      · exact h.single j k hj hactive
      · exact absurd hj (hnone j)
    · rw [update_of_ne hji] at hj
      rw [update_of_ne hki] at hk
      exact h.single j k hj hk
  · intro j hj
    by_cases hji : j = i
    · subst hji
      rw [update_self] at hj
      exact (hself hj).1
    · rw [update_of_ne hji] at hj
      exact hother j hji hj

theorem JobSound.goes (h : JobSound w phases) {g : Phase} (hactive : (phases i).Active)
    (hopen : w'.Open) : JobSound w' (Function.update phases i g) :=
  h.moves (fun _ => ⟨hopen, .inl hactive⟩) fun _ _ _ => hopen

theorem JobSound.ends (h : JobSound w phases) (hactive : (phases i).Active) :
    JobSound w' (Function.update phases i .finished) :=
  h.moves (fun hg => hg.elim) fun j hj hactive' => absurd (h.single j i hactive' hactive) hj

theorem JobSound.spawns (h : JobSound w phases) {reply : Except String JobRecord}
    (hclosed : ¬w.Open) (hopen : ∀ job, reply = .ok job → w'.Open) :
    JobSound w' (Function.update phases i (.answered reply)) := by
  refine h.moves (fun hg => ?_) fun j _ hj => absurd hj (h.not_active hclosed j)
  obtain ⟨job,hjob⟩ := Phase.active_answered hg
  exact ⟨hopen job hjob, .inr (h.not_active hclosed)⟩

/-- A job is cancelled when it is not queued, or when no worker is active. -/
def CancelSafe (w : JobWorld) (phases : ι → Phase) : Prop :=
  ∀ job, w.record = some job → job.status = .queued → ∀ j, ¬(phases j).Active

omit [DecidableEq ι] in
theorem cancel_open {job' : JobRecord} (hcancel : job.cancel = .ok job')
    (hstatus : job.status.terminal = false) (hqueued : job.status ≠ .queued) :
    job'.status.terminal = false := by
  unfold JobRecord.cancel at hcancel
  split at hcancel
  · exact absurd ‹_› hqueued
  · cases hcancel
    rfl
  · cases hcancel
    exact hstatus
  · cases hcancel
    exact hstatus
  · cases hcancel

theorem retry_queued {job' : JobRecord} (hretry : job.retry = .ok job') :
    job.status.terminal = true ∧ job'.status = .queued := by
  unfold JobRecord.retry at hretry
  split at hretry
  · cases hretry
  · rename_i hstatus
    split at hretry
    · cases hretry
    · cases hretry
      refine ⟨?_,rfl⟩
      rcases not_not.1 hstatus with hfailed | hcancelled
      · rw [hfailed]
        rfl
      · rw [hcancelled]
        rfl

theorem JobSound.create (h : JobSound w phases) (id : String) (e : JobStep)
    (request : CompactRequest) :
    JobSound (w.answer id e (.create request)).2
      (Function.update phases i (.answered (w.answer id e (.create request)).1)) := by
  cases hrecord : w.record with
  | none =>
    simp only [JobWorld.answer,hrecord]
    refine h.spawns (not_open_of_none hrecord) fun job hjob => ?_
    exact ⟨_, (JobWorld.put_ok hjob).2, rfl⟩
  | some job =>
    simp only [JobWorld.answer,hrecord]
    exact h.moves (fun hg => hg.elim) fun j _ hj => h.opened j hj

theorem JobSound.update (h : JobSound w phases) (id : String) (e : JobStep) {status : JobStatus}
    {result error : Option String}
    (hallows : (phases i).Allows (.mutate (.update status result error))) :
    JobSound (w.answer id e (.mutate (.update status result error))).2
      (Function.update phases i ((phases i).track (.mutate (.update status result error))
        (w.answer id e (.mutate (.update status result error))).1)) := by
  by_cases hrunning : status = .running
  · simp only [Phase.Allows,if_pos hrunning] at hallows
    simp only [Phase.track,if_pos hrunning]
    have hactive : (phases i).Active := by
      rw [hallows]
      trivial
    refine h.goes hactive ?_
    obtain ⟨job,hrecord,hopen⟩ := h.opened i hactive
    simp only [JobWorld.answer,hrecord,JobChange.apply]
    rcases w.put_record e.outcome (job.update status result error)
      { job.update status result error with updatedAt := w.clock } with hput | hput
    · refine ⟨_,hput,?_⟩
      change status.terminal = false
      rw [hrunning]
      rfl
    · exact ⟨job, hput.trans hrecord, hopen⟩
  · simp only [Phase.Allows,if_neg hrunning] at hallows
    simp only [Phase.track,if_neg hrunning]
    refine h.ends ?_
    rcases hallows.2 with hpending | hclosing
    · rw [hpending]
      trivial
    · rw [hclosing]
      trivial

theorem JobSound.cancel (h : JobSound w phases) (id : String) (e : JobStep)
    (hcancel : CancelSafe w phases) :
    JobSound (w.answer id e (.mutate .cancel)).2 (Function.update phases i .finished) := by
  refine h.moves (fun hg => hg.elim) fun j _ hj => ?_
  obtain ⟨job,hrecord,hopen⟩ := h.opened j hj
  simp only [JobWorld.answer,hrecord,JobChange.apply]
  cases happly : job.cancel with
  | error message => exact ⟨job,hrecord,hopen⟩
  | ok job' =>
    have hopen' : job'.status.terminal = false :=
      cancel_open happly hopen fun hqueued => hcancel job hrecord hqueued j hj
    rcases w.put_record e.outcome job' { job' with updatedAt := w.clock } with hput | hput
    · exact ⟨_,hput,hopen'⟩
    · exact ⟨job, hput.trans hrecord, hopen⟩

theorem JobSound.retry (h : JobSound w phases) (id : String) (e : JobStep) :
    JobSound (w.answer id e (.mutate .retry)).2
      (Function.update phases i (.answered (w.answer id e (.mutate .retry)).1)) := by
  cases hrecord : w.record with
  | none =>
    simp only [JobWorld.answer,hrecord]
    exact h.moves (fun hg => hg.elim) fun j _ hj => h.opened j hj
  | some job =>
    simp only [JobWorld.answer,hrecord,JobChange.apply]
    cases happly : job.retry with
    | error message => exact h.moves (fun hg => hg.elim) fun j _ hj => h.opened j hj
    | ok job' =>
      obtain ⟨hterminal,hqueued⟩ := retry_queued happly
      refine h.spawns (not_open_of_terminal hrecord hterminal) fun job'' hjob'' => ?_
      refine ⟨_, (JobWorld.put_ok hjob'').2, ?_⟩
      change job'.status.terminal = false
      rw [hqueued]
      rfl

theorem JobSound.answer (h : JobSound w phases) (id : String) (e : JobStep) {op : JobOp}
    (hallows : (phases i).Allows op) (hcancel : op = .mutate .cancel → CancelSafe w phases) :
    JobSound (w.answer id e op).2
      (Function.update phases i ((phases i).track op (w.answer id e op).1)) := by
  cases op with
  | create request => exact h.create id e request
  | mutate change =>
    cases change with
    | update status result error => exact h.update id e hallows
    | cancel => exact h.cancel id e (hcancel rfl)
    | retry => exact h.retry id e
  | get =>
    have hsame : (w.answer id e .get).2 = w := by
      simp only [JobWorld.answer]
      split <;> rfl
    rw [hsame]
    change JobSound w (Function.update phases i (phases i))
    rw [update_eq_self]
    exact h
  | beginCompaction request =>
    have hactive : (phases i).Active := by
      rw [show phases i = .pending from hallows]
      trivial
    exact h.goes hactive (h.opened i hactive)
  | endCompaction =>
    have hactive : (phases i).Active := by
      rw [show phases i = .executing from hallows]
      trivial
    exact h.goes hactive (h.opened i hactive)

omit [DecidableEq ι] in
theorem JobSound.status_answer (h : JobSound w phases) (id : String) (e : JobStep) {op : JobOp}
    (hallows : (phases i).Allows op) (hrecord : w.record = some job)
    (hterminal : job.status.terminal = true) (hretry : op ≠ .mutate .retry) :
    ∃ job', (w.answer id e op).2.record = some job' ∧ job'.status = job.status := by
  have hnone := h.not_active (not_open_of_terminal hrecord hterminal)
  cases op with
  | create request =>
    simp only [JobWorld.answer,hrecord]
    exact ⟨job,rfl,rfl⟩
  | mutate change =>
    cases change with
    | update status result error =>
      refine absurd ?_ (hnone i)
      simp only [Phase.Allows] at hallows
      split at hallows
      · rw [hallows]
        trivial
      · rcases hallows.2 with hpending | hclosing
        · rw [hpending]
          trivial
        · rw [hclosing]
          trivial
    | cancel =>
      simp only [JobWorld.answer,hrecord,JobChange.apply]
      cases happly : job.cancel with
      | error message => exact ⟨job,hrecord,rfl⟩
      | ok job' =>
        have hstatus : job'.status = job.status := by
          unfold JobRecord.cancel at happly
          split at happly
          · rename_i hqueued
            rw [hqueued] at hterminal
            cases hterminal
          · rename_i hrunning
            rw [hrunning] at hterminal
            cases hterminal
          · cases happly
            rfl
          · cases happly
            rfl
          · cases happly
        rcases w.put_record e.outcome job' { job' with updatedAt := w.clock } with hput | hput
        · exact ⟨_,hput,hstatus⟩
        · exact ⟨job, hput.trans hrecord, rfl⟩
    | retry => exact absurd rfl hretry
  | get =>
    have hsame : (w.answer id e .get).2 = w := by
      simp only [JobWorld.answer]
      split <;> rfl
    rw [hsame]
    exact ⟨job,hrecord,rfl⟩
  | beginCompaction request => exact ⟨job,hrecord,rfl⟩
  | endCompaction => exact ⟨job,hrecord,rfl⟩

end Invariant

/-! Runs. -/

abbrev JobPool (ι : Type) := Pool ι JobWorld jobInterface String Unit Phase

def jobStart {ι : Type} (clock : Nat) (calls : ι → JobCall) : JobPool ι where
  shared := ⟨none, clock⟩
  thread i := ⟨(calls i).program, .calling⟩

section Runs

variable {ι : Type} [DecidableEq ι] {id : String} {C C' : JobPool ι → ι → JobStep → Prop}
  {clock : Nat} {start : ι → JobCall} {labels : List (ι × JobStep)} {p : JobPool ι}

def jobSteps (id : String) (C : JobPool ι → ι → JobStep → Prop) :
    JobPool ι → ι × JobStep → JobPool ι → Prop :=
  Pool.Steps jobTracking (JobWorld.perform id) C

omit [DecidableEq ι] in
def calls (p : JobPool ι) (i : ι) (op : JobOp) : Prop := (p.thread i).program.next = some op

/-- A cancellation never meets a queued job whose worker is still to come. -/
def CancelsSafely (p : JobPool ι) (i : ι) (_ : JobStep) : Prop :=
  calls p i (.mutate .cancel) → CancelSafe p.shared p.ghosts

/-- A compaction is not begun after a cancellation that was answered with a cancelled job, as long as
no retry is called. -/
def CancelHolds (id : String) (C : JobPool ι → ι → JobStep → Prop) (start : JobPool ι) : Prop :=
  ∀ labels p, History (jobSteps id C) start labels p → ∀ i e q job,
    jobSteps id C p (i, e) q → calls p i (.mutate .cancel) →
    (p.shared.perform id e (.mutate .cancel)).1 = .ok job → job.status = .cancelled →
    ∀ labels' r, History (jobSteps id fun p i e => C p i e ∧ ¬calls p i (.mutate .retry)) q labels' r →
    ∀ j e' r' request, jobSteps id C r (j, e') r' → ¬calls r j (.beginCompaction request)

/-- The status of a job that has come to its end is changed by a retry only. -/
def TerminalHolds (id : String) (C : JobPool ι → ι → JobStep → Prop) (start : JobPool ι) : Prop :=
  ∀ labels p, History (jobSteps id C) start labels p → ∀ job, p.shared.record = some job →
    job.status.terminal = true → ∀ i e q, jobSteps id C p (i, e) q →
    (q.shared.record.map (·.status)) ≠ some job.status → calls p i (.mutate .retry)

/-- Two workers never execute the compaction at a time. -/
def SingleWorker (id : String) (C : JobPool ι → ι → JobStep → Prop) (start : JobPool ι) : Prop :=
  ∀ labels p, History (jobSteps id C) start labels p → ∀ i j, p.ghosts i = .executing →
    p.ghosts j = .executing → i = j

theorem jobSound_run (h : History (jobSteps id CancelsSafely) (jobStart clock start) labels p) :
    JobSound p.shared p.ghosts ∧ p.Tracked jobTracking fun _ _ => True := by
  refine Pool.tracked_invariant JobSound ?_ h ?_ fun i => ensures_program (start i)
  · intro p i e op next hsound hprog hallows hsafe
    have hwait : JobSound { p.shared with clock := p.shared.clock + e.elapsed } p.ghosts :=
      ⟨hsound.single,hsound.opened⟩
    refine ⟨trivial, hwait.answer id e hallows fun hop => ?_⟩
    refine hsafe ?_
    rw [calls,hprog,Script.next,hop]
  · exact ⟨fun i j hi => hi.elim, fun i hi => hi.elim⟩

theorem status_step {q : JobPool ι} {i : ι} {e : JobStep} {job : JobRecord}
    (h : History (jobSteps id CancelsSafely) (jobStart clock start) labels p)
    (hq : jobSteps id CancelsSafely p (i, e) q) (hrecord : p.shared.record = some job)
    (hterminal : job.status.terminal = true) (hretry : ¬calls p i (.mutate .retry)) :
    ∃ job', q.shared.record = some job' ∧ job'.status = job.status := by
  obtain ⟨hsound,htracked⟩ := jobSound_run h
  obtain ⟨op,next,hprog,rfl⟩ := Pool.step_eq_some.1 hq.1
  have hwait : JobSound { p.shared with clock := p.shared.clock + e.elapsed } p.ghosts :=
    ⟨hsound.single,hsound.opened⟩
  refine hwait.status_answer id e (htracked.allows hprog) hrecord hterminal fun hop => hretry ?_
  rw [calls,hprog,Script.next,hop]

theorem status_run {labels' : List (ι × JobStep)} {q : JobPool ι} {job : JobRecord}
    (h : History (jobSteps id CancelsSafely) (jobStart clock start) labels p)
    (hrecord : p.shared.record = some job) (hterminal : job.status.terminal = true)
    (h' : History (jobSteps id fun p i e => CancelsSafely p i e ∧ ¬calls p i (.mutate .retry))
      p labels' q) :
    History (jobSteps id CancelsSafely) (jobStart clock start) (labels ++ labels') q ∧
      ∃ job', q.shared.record = some job' ∧ job'.status = job.status := by
  induction h' with
  | start =>
    rw [List.append_nil]
    exact ⟨h,job,hrecord,rfl⟩
  | step _ hstep ih =>
    obtain ⟨hrun,job',hrecord',hstatus⟩ := ih
    have hstep' := And.intro hstep.1 hstep.2.1
    rw [← List.append_assoc]
    refine ⟨hrun.step hstep', ?_⟩
    rw [← hstatus] at hterminal ⊢
    exact status_step hrun hstep' hrecord' hterminal hstep.2.2

/-- The life of a compaction job, in every run in which no cancellation meets a queued job whose
worker is still to come. -/
theorem jobs_lifecycle (id : String) (clock : Nat) (start : ι → JobCall) :
    CancelHolds id CancelsSafely (jobStart clock start) ∧
      TerminalHolds id CancelsSafely (jobStart clock start) ∧
      SingleWorker id CancelsSafely (jobStart clock start) := by
  refine ⟨?_,?_,?_⟩
  · intro labels p h i e q job hq hcancel hreply hstatus labels' r hr j e' r' request hr' hbegin
    have hcancelled : ∃ job', q.shared.record = some job' ∧ job'.status = .cancelled := by
      obtain ⟨op,next,hprog,rfl⟩ := Pool.step_eq_some.1 hq.1
      rw [calls,hprog] at hcancel
      cases hcancel
      obtain ⟨job',hrecord,hstatus'⟩ := JobWorld.mutate_ok hreply
      exact ⟨job', hrecord, hstatus'.trans hstatus⟩
    obtain ⟨job',hrecord,hstatus'⟩ := hcancelled
    have hterminal : job'.status.terminal = true := by rw [hstatus']; rfl
    obtain ⟨hrun,job'',hrecord',hstatus''⟩ := status_run (h.step hq) hrecord hterminal hr
    obtain ⟨hsound,htracked⟩ := jobSound_run hrun
    obtain ⟨op,next,hprog,-⟩ := Pool.step_eq_some.1 hr'.1
    rw [calls,hprog] at hbegin
    cases hbegin
    have hpending : r.ghosts j = .pending := htracked.allows hprog
    rw [← hstatus''] at hterminal
    refine hsound.not_active (not_open_of_terminal hrecord' hterminal) j ?_
    rw [hpending]
    trivial
  · intro labels p h job hrecord hterminal i e q hq hne
    by_contra hretry
    obtain ⟨job',hrecord',hstatus⟩ := status_step h hq hrecord hterminal hretry
    refine hne ?_
    rw [hrecord',Option.map_some,hstatus]
  · intro labels p h i j hi hj
    refine (jobSound_run h).1.single i j ?_ ?_
    · rw [hi]
      trivial
    · rw [hj]
      trivial

end Runs

def cancelledEarly : JobPool (Fin 3) := jobStart 0 fun i =>
  match i with
  | 0 => .submit .default
  | 1 => .cancel
  | 2 => .retry

def promptly : JobStep := ⟨0, .ok, .ok ""⟩

theorem cancelledEarly_steps : ∃ p q r s t job job',
    cancelledEarly.step jobTracking (JobWorld.perform "job") 0 promptly = some p ∧
    calls p 1 (.mutate .cancel) ∧
    (p.shared.perform "job" promptly (.mutate .cancel)).1 = .ok job ∧ job.status = .cancelled ∧
    p.step jobTracking (JobWorld.perform "job") 1 promptly = some q ∧ calls q 0 .get ∧
    q.step jobTracking (JobWorld.perform "job") 0 promptly = some r ∧
    calls r 0 (.mutate (.update .running none none)) ∧ r.shared.record = some job' ∧
    job'.status = .cancelled ∧
    r.step jobTracking (JobWorld.perform "job") 0 promptly = some s ∧
    (s.shared.record.map (·.status)) = some .running ∧ calls s 0 (.beginCompaction .default) ∧
    s.step jobTracking (JobWorld.perform "job") 0 promptly = some t :=
  ⟨_,_,_,_,_,_,_,rfl,rfl,rfl,rfl,rfl,rfl,rfl,rfl,rfl,rfl,rfl,rfl,rfl,rfl⟩

/-- A cancelled job is executed by the worker that was spawned for it, and together with the worker of
a retry. -/
theorem cancelledEarly_executed :
    ¬CancelHolds "job" (fun _ _ _ => True) cancelledEarly ∧
      ¬TerminalHolds "job" (fun _ _ _ => True) cancelledEarly ∧
      ¬SingleWorker "job" (fun _ _ _ => True) cancelledEarly := by
  obtain ⟨p,q,r,s,t,job,job',hp,hcancel,hreply,hstatus,hq,hget,hr,hrun,hrecord,hstatus',
    hs,hrunning,hbegin,ht⟩ := cancelledEarly_steps
  have hfirst : History (jobSteps "job" fun _ _ _ => True) cancelledEarly [(0, promptly)] p :=
    .step .start ⟨hp,trivial⟩
  refine ⟨fun h => ?_, fun h => ?_, fun h => ?_⟩
  · have hget' : ¬calls q 0 (.mutate .retry) := fun hretry => nomatch hget.symm.trans hretry
    have hrun' : ¬calls r 0 (.mutate .retry) := fun hretry => nomatch hrun.symm.trans hretry
    have hr' : jobSteps "job" (fun p i _ => True ∧ ¬calls p i (.mutate .retry)) q (0, promptly) r :=
      ⟨hr,trivial,hget'⟩
    have hs' : jobSteps "job" (fun p i _ => True ∧ ¬calls p i (.mutate .retry)) r (0, promptly) s :=
      ⟨hs,trivial,hrun'⟩
    exact h _ p hfirst 1 promptly q job ⟨hq,trivial⟩ hcancel hreply hstatus _ s
      ((History.start.step hr').step hs') 0 promptly t _ ⟨ht,trivial⟩ hbegin
  · have hq' : jobSteps "job" (fun _ _ _ => True) p (1, promptly) q := ⟨hq,trivial⟩
    have hr' : jobSteps "job" (fun _ _ _ => True) q (0, promptly) r := ⟨hr,trivial⟩
    have hretry := h _ r ((hfirst.step hq').step hr') job' hrecord
      (by rw [hstatus']; rfl) 0 promptly s ⟨hs,trivial⟩ (by rw [hrunning,hstatus']; decide)
    exact nomatch hrun.symm.trans hretry
  · obtain ⟨p,hp,hfirst,hsecond⟩ : ∃ p, cancelledEarly.exec jobTracking (JobWorld.perform "job")
        ([0,1,2,0,0,0,2,2,2].map fun i => (i, promptly)) = some p ∧
        p.ghosts 0 = .executing ∧ p.ghosts 2 = .executing := ⟨_,rfl,rfl,rfl⟩
    exact absurd (h _ p (Pool.history_of_exec .start hp) 0 2 hfirst hsecond) (by decide)

end AiLake.CompactionJob
