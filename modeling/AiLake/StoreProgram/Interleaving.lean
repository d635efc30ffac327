import AiLake.StoreProgram.History
import Mathlib.Logic.Function.Basic

/-! Programs that call on a shared state, side by side and one call at a time. What a program knows
is a ghost state, which the answers change. -/
namespace StoreProgram

open List Function

structure Interface where
  Op : Type
  Reply : Op → Type

/-- A program: a result, an error, or a call with what to do for each answer. -/
inductive Script (F : Interface) (E α : Type) where
  | done (a : α)
  | fail (e : E)
  | call (op : F.Op) (next : F.Reply op → Script F E α)

variable {F : Interface} {E α β γ σ ω ι : Type}

theorem update_eq_some [DecidableEq ι] {f : ι → Option α} {i j : ι} {x : Option α} {a : α} :
    update f i x j = some a ↔ j = i ∧ x = some a ∨ j ≠ i ∧ f j = some a := by
  by_cases hj : j = i
  · simp [hj]
  · simp [hj]

namespace Script

def bind : Script F E α → (α → Script F E β) → Script F E β
  | .done a, f => f a
  | .fail e, _ => .fail e
  | .call op next, f => .call op fun r => (next r).bind f

instance : Monad (Script F E) where
  pure := .done
  bind := bind

def ofExcept : Except E α → Script F E α
  | .ok a => .done a
  | .error e => .fail e

/-- `p` with its error handed back as a value, for callers that go on after it. -/
def attempt : Script F E α → Script F E (Except E α)
  | .done a => .done (.ok a)
  | .fail e => .done (.error e)
  | .call op next => .call op fun r => (next r).attempt

/-- How a program that makes no more calls has ended. -/
def result : Script F E α → Option (Except E α)
  | .done a => some (.ok a)
  | .fail e => some (.error e)
  | .call _ _ => none

theorem result_eq_ok {p : Script F E α} {a : α} : p.result = some (.ok a) ↔ p = .done a := by
  cases p with
  | done b => simp [result]
  | fail e => simp [result]
  | call op next => simp [result]

def next : Script F E α → Option F.Op
  | .call op _ => some op
  | _ => none

/-- Running a program alone, with every call meeting the same surroundings. -/
def run (perform : σ → ω → (op : F.Op) → F.Reply op × σ) (e : ω) :
    Script F E α → σ → Except E α × σ
  | .done a, s => (.ok a, s)
  | .fail err, s => (.error err, s)
  | .call op next, s => (next (perform s e op).1).run perform e (perform s e op).2

theorem run_bind (perform : σ → ω → (op : F.Op) → F.Reply op × σ) (e : ω) (p : Script F E α)
    (f : α → Script F E β) (s : σ) :
    (p >>= f).run perform e s = match p.run perform e s with
      | (.ok a, t) => (f a).run perform e t
      | (.error err, t) => (.error err, t) := by
  induction p generalizing s with
  | done a => rfl
  | fail err => rfl
  | call op next ih => exact ih _ _

theorem run_call {perform : σ → ω → (op : F.Op) → F.Reply op × σ} {e : ω} {op : F.Op}
    {f : F.Reply op → Script F E β} {s : σ} {x : Except E β}
    (h : ((Script.call op .done).bind f |>.run perform e s).1 = x) :
    ∃ r t, perform s e op = (r, t) ∧ ((f r).run perform e t).1 = x := ⟨_,_,rfl,h⟩

end Script

/-- How the ghost state of a program follows its calls, which calls it may make, and which answers it
may count on. -/
structure Tracking (F : Interface) (γ : Type) where
  track : γ → (op : F.Op) → F.Reply op → γ
  allows : γ → F.Op → Prop
  expects : γ → (op : F.Op) → F.Reply op → Prop

/-- Programs that are followed without a ghost state. -/
def Tracking.plain (F : Interface) : Tracking F Unit where
  track _ _ _ := ()
  allows _ _ := True
  expects _ _ _ := True

namespace Script

variable {T : Tracking F γ} {g : γ} {s t : σ}

/-- The program makes only the calls that are allowed, and ends as `Q` says, whatever it is answered
within what it may count on. -/
def Ensures (T : Tracking F γ) : Script F E α → γ → (Except E α → γ → Prop) → Prop
  | .done a, g, Q => Q (.ok a) g
  | .fail e, g, Q => Q (.error e) g
  | .call op next, g, Q =>
    T.allows g op ∧ ∀ r, T.expects g op r → (next r).Ensures T (T.track g op r) Q

theorem Ensures.mono {p : Script F E α} {Q Q' : Except E α → γ → Prop} (h : p.Ensures T g Q)
    (hQ : ∀ r g, Q r g → Q' r g) : p.Ensures T g Q' := by
  induction p generalizing g with
  | done a => exact hQ _ _ h
  | fail e => exact hQ _ _ h
  | call op next ih => exact ⟨h.1, fun r hr => ih r (h.2 r hr)⟩

/-- A sequence ensures what its second part ensures from where the first one ends. -/
theorem ensures_bind {p : Script F E α} {f : α → Script F E β} {Q : Except E β → γ → Prop} :
    (p >>= f).Ensures T g Q ↔ p.Ensures T g fun r g' =>
      match r with
      | .ok a => (f a).Ensures T g' Q
      | .error e => Q (.error e) g' := by
  induction p generalizing g with
  | done a => exact Iff.rfl
  | fail e => exact Iff.rfl
  | call op next ih =>
    constructor
    · exact fun h => ⟨h.1, fun r hr => (ih r).1 (h.2 r hr)⟩
    · exact fun h => ⟨h.1, fun r hr => (ih r).2 (h.2 r hr)⟩

theorem Ensures.call {op : F.Op} {f : F.Reply op → Script F E β} {Q : Except E β → γ → Prop}
    (hallows : T.allows g op) (h : ∀ r, T.expects g op r → (f r).Ensures T (T.track g op r) Q) :
    (bind (.call op .done) f).Ensures T g Q := ⟨hallows,h⟩

/-- A result as `P` says, or an error of `B`. -/
def Ends (B : E → Prop) (P : α → γ → Prop) : Except E α → γ → Prop
  | .ok a, g => P a g
  | .error e, _ => B e

/-- The program makes only the calls that are allowed, and ends with a result as `P` says or with an
error of `B`. -/
def Attains (T : Tracking F γ) (B : E → Prop) (p : Script F E α) (g : γ) (P : α → γ → Prop) : Prop :=
  p.Ensures T g (Ends B P)

theorem Attains.bind {B : E → Prop} {p : Script F E α} {f : α → Script F E β} {P : α → γ → Prop}
    {P' : β → γ → Prop} (h : p.Attains T B g P) (hf : ∀ a g', P a g' → (f a).Attains T B g' P') :
    (p >>= f).Attains T B g P' := by
  refine ensures_bind.2 (Ensures.mono h fun r g' hr => ?_)
  cases r with
  | ok a => exact hf a g' hr
  | error e => exact hr

theorem Attains.call {B : E → Prop} {op : F.Op} {f : F.Reply op → Script F E β} {P : β → γ → Prop}
    (hallows : T.allows g op) (h : ∀ r, T.expects g op r → (f r).Attains T B (T.track g op r) P) :
    (Script.bind (.call op .done) f).Attains T B g P := ⟨hallows,h⟩

theorem Ensures.ite {c : Prop} [Decidable c] {p q : Script F E α} {Q : Except E α → γ → Prop}
    (hp : c → p.Ensures T g Q) (hq : ¬c → q.Ensures T g Q) :
    (if c then p else q).Ensures T g Q := by
  split
  · exact hp ‹c›
  · exact hq ‹¬c›

theorem ensures_attempt {p : Script F E α} {Q : Except E (Except E α) → γ → Prop} :
    p.attempt.Ensures T g Q ↔ p.Ensures T g fun r g' => Q (.ok r) g' := by
  induction p generalizing g with
  | done a => exact Iff.rfl
  | fail e => exact Iff.rfl
  | call op next ih =>
    constructor
    · exact fun h => ⟨h.1, fun r hr => (ih r).1 (h.2 r hr)⟩
    · exact fun h => ⟨h.1, fun r hr => (ih r).2 (h.2 r hr)⟩

/-- Where calls that meet `C` take a program that runs alone. -/
inductive Reaches (perform : σ → ω → (op : F.Op) → F.Reply op × σ) (C : σ → ω → F.Op → Prop)
    (p : Script F E α) (s : σ) : Script F E α → σ → Prop
  | start : Reaches perform C p s p s
  | step {op : F.Op} {next : F.Reply op → Script F E α} {t : σ} {e : ω}
      (h : Reaches perform C p s (.call op next) t) (he : C t e op) :
      Reaches perform C p s (next (perform t e op).1) (perform t e op).2

variable {perform : σ → ω → (op : F.Op) → F.Reply op × σ} {C : σ → ω → F.Op → Prop}

theorem Reaches.bind {p q : Script F E α} (h : Reaches perform C p s q t) (f : α → Script F E β) :
    Reaches perform C (p >>= f) s (q >>= f) t := by
  induction h with
  | start => exact .start
  | @step op next t e _ he ih =>
    have ih' : Reaches perform C (p >>= f) s (.call op fun r => (next r).bind f) t := ih
    exact ih'.step he

theorem Reaches.trans {p q r : Script F E α} {u : σ} (h : Reaches perform C p s q t)
    (h' : Reaches perform C q t r u) : Reaches perform C p s r u := by
  induction h' with
  | start => exact h
  | step _ he ih => exact .step ih he

theorem reaches_run {e : ω} (hC : ∀ s op, C s e op) (p : Script F E α) (s : σ) :
    ∃ q, Reaches perform C p s q (p.run perform e s).2 ∧ q.result = some (p.run perform e s).1 := by
  induction p generalizing s with
  | done a => exact ⟨_,.start,rfl⟩
  | fail err => exact ⟨_,.start,rfl⟩
  | call op next ih =>
    obtain ⟨q,hq,hresult⟩ := ih (perform s e op).1 (perform s e op).2
    exact ⟨q, (Reaches.step .start (hC s op)).trans hq, hresult⟩

theorem Ensures.reaches {p q : Script F E α} {Q : Except E α → γ → Prop} (I : σ → γ → Prop)
    (hstep : ∀ s g e op, I s g → T.allows g op → C s e op →
      T.expects g op (perform s e op).1 ∧ I (perform s e op).2 (T.track g op (perform s e op).1))
    (hp : p.Ensures T g Q) (hI : I s g) (h : Reaches perform C p s q t) :
    ∃ g', I t g' ∧ q.Ensures T g' Q := by
  induction h with
  | start => exact ⟨g,hI,hp⟩
  | @step op next t e _ he ih =>
    obtain ⟨g',hI',hallows,hnext⟩ := ih
    obtain ⟨hexpects,hI''⟩ := hstep t g' e op hI' hallows he
    exact ⟨_, hI'', hnext _ hexpects⟩

end Script

structure Thread (F : Interface) (E α γ : Type) where
  program : Script F E α
  ghost : γ

structure Pool (ι σ : Type) (F : Interface) (E α γ : Type) where
  shared : σ
  thread : ι → Thread F E α γ

def Script.play (T : Tracking F γ) (perform : σ → ω → (op : F.Op) → F.Reply op × σ) :
    List ω → Script F E α → γ → σ → Option (Script F E α × γ × σ)
  | [], p, g, s => some (p, g, s)
  | e :: rest, .call op next, g, s => (next (perform s e op).1).play T perform rest
      (T.track g op (perform s e op).1) (perform s e op).2
  | _ :: _, .done _, _, _ | _ :: _, .fail _, _, _ => none

namespace Pool

variable [DecidableEq ι] {T : Tracking F γ} {perform : σ → ω → (op : F.Op) → F.Reply op × σ}
  {labels : List (ι × ω)}

def ghosts (p : Pool ι σ F E α γ) (i : ι) : γ := (p.thread i).ghost

/-- The pool once program `i` has been answered; `e` is what the surroundings decide about the call. -/
def answered (T : Tracking F γ) (perform : σ → ω → (op : F.Op) → F.Reply op × σ)
    (p : Pool ι σ F E α γ) (i : ι) (e : ω) (op : F.Op) (next : F.Reply op → Script F E α) :
    Pool ι σ F E α γ where
  shared := (perform p.shared e op).2
  thread := update p.thread i ⟨next (perform p.shared e op).1,
    T.track (p.thread i).ghost op (perform p.shared e op).1⟩

def step (T : Tracking F γ) (perform : σ → ω → (op : F.Op) → F.Reply op × σ)
    (p : Pool ι σ F E α γ) (i : ι) (e : ω) : Option (Pool ι σ F E α γ) :=
  match (p.thread i).program with
  | .done _ | .fail _ => none
  | .call op next => some (p.answered T perform i e op next)

/-- The steps that meet a condition on the state before them. -/
def Steps (T : Tracking F γ) (perform : σ → ω → (op : F.Op) → F.Reply op × σ)
    (C : Pool ι σ F E α γ → ι → ω → Prop) (p : Pool ι σ F E α γ) (a : ι × ω)
    (q : Pool ι σ F E α γ) : Prop :=
  p.step T perform a.1 a.2 = some q ∧ C p a.1 a.2

def exec (T : Tracking F γ) (perform : σ → ω → (op : F.Op) → F.Reply op × σ)
    (p : Pool ι σ F E α γ) : List (ι × ω) → Option (Pool ι σ F E α γ)
  | [] => some p
  | a :: rest => (p.step T perform a.1 a.2).bind fun q => q.exec T perform rest

variable {p q : Pool ι σ F E α γ} {i : ι} {e : ω} {Q : Except E α → γ → Prop}

@[simp] theorem ghosts_answered {op : F.Op} {next : F.Reply op → Script F E α} :
    (p.answered T perform i e op next).ghosts =
      update p.ghosts i (T.track (p.ghosts i) op (perform p.shared e op).1) := by
  funext j
  by_cases hj : j = i
  · subst hj
    simp [ghosts,answered]
  · simp [ghosts,answered,hj]

theorem step_eq_some : p.step T perform i e = some q ↔ ∃ op next,
    (p.thread i).program = .call op next ∧ q = p.answered T perform i e op next := by
  unfold step
  cases (p.thread i).program with
  | done a => simp
  | fail e => simp
  | call op next =>
    constructor
    · intro h
      cases h
      exact ⟨op,next,rfl,rfl⟩
    · rintro ⟨op',next',h,rfl⟩
      cases h
      rfl

/-- Every program keeps to what it is allowed and ends as `Q` says. -/
def Tracked (T : Tracking F γ) (Q : Except E α → γ → Prop) (p : Pool ι σ F E α γ) : Prop :=
  ∀ i, (p.thread i).program.Ensures T (p.thread i).ghost Q

theorem Tracked.answered {op : F.Op} {next : F.Reply op → Script F E α} (h : p.Tracked T Q)
    (hprog : (p.thread i).program = .call op next)
    (hexpects : T.expects (p.ghosts i) op (perform p.shared e op).1) :
    (p.answered T perform i e op next).Tracked T Q := by
  intro j
  by_cases hj : j = i
  · subst hj
    have hi := h j
    rw [hprog] at hi
    simp only [Pool.answered,update_self]
    exact hi.2 _ hexpects
  · simp only [Pool.answered,update_of_ne hj]
    exact h j

omit [DecidableEq ι] in
theorem Tracked.allows {op : F.Op} {next : F.Reply op → Script F E α} (h : p.Tracked T Q)
    (hprog : (p.thread i).program = .call op next) : T.allows (p.ghosts i) op := by
  have hi := h i
  rw [hprog] at hi
  exact hi.1

theorem tracked_invariant {C : Pool ι σ F E α γ → ι → ω → Prop} (I : σ → (ι → γ) → Prop)
    (hstep : ∀ (p : Pool ι σ F E α γ) i e op next, I p.shared p.ghosts →
      (p.thread i).program = .call op next → T.allows (p.ghosts i) op → C p i e →
      T.expects (p.ghosts i) op (perform p.shared e op).1 ∧
        I (perform p.shared e op).2
          (update p.ghosts i (T.track (p.ghosts i) op (perform p.shared e op).1)))
    (h : History (Steps T perform C) p labels q) (hI : I p.shared p.ghosts) (hT : p.Tracked T Q) :
    I q.shared q.ghosts ∧ q.Tracked T Q := by
  refine h.invariant (fun p => I p.shared p.ghosts ∧ p.Tracked T Q) ?_ ⟨hI,hT⟩
  intro p a q hp hq
  obtain ⟨op,next,hprog,rfl⟩ := step_eq_some.1 hq.1
  obtain ⟨hexpects,hI'⟩ := hstep p a.1 a.2 op next hp.1 hprog (hp.2.allows hprog) hq.2
  refine ⟨?_, hp.2.answered hprog hexpects⟩
  rw [ghosts_answered]
  exact hI'

/-- A program that goes on alone comes to its end, and keeps what its calls keep. -/
theorem exists_history_alone (e : ω) (I : σ → (ι → γ) → Prop)
    (hstep : ∀ s g op, I s g → T.allows (g i) op → T.expects (g i) op (perform s e op).1 ∧
      I (perform s e op).2 (update g i (T.track (g i) op (perform s e op).1)))
    (h : (p.thread i).program.Ensures T (p.ghosts i) Q) (hI : I p.shared p.ghosts) :
    ∃ labels q r, History (Steps T perform fun _ _ _ => True) p labels q ∧
      (q.thread i).program.result = some r ∧ Q r (q.ghosts i) ∧ I q.shared q.ghosts ∧
        ∀ j ≠ i, q.thread j = p.thread j := by
  obtain ⟨prog,hprog⟩ : ∃ prog, (p.thread i).program = prog := ⟨_,rfl⟩
  induction prog generalizing p with
  | done a =>
    rw [hprog] at h
    exact ⟨[], p, .ok a, .start, by rw [hprog]; rfl, h, hI, fun _ _ => rfl⟩
  | fail err =>
    rw [hprog] at h
    exact ⟨[], p, .error err, .start, by rw [hprog]; rfl, h, hI, fun _ _ => rfl⟩
  | call op next ih =>
    rw [hprog] at h
    obtain ⟨hexpects,hI'⟩ := hstep p.shared p.ghosts op hI h.1
    have hthread : (p.answered T perform i e op next).thread i =
        ⟨next (perform p.shared e op).1, T.track (p.ghosts i) op (perform p.shared e op).1⟩ :=
      update_self ..
    obtain ⟨labels,q,r,hrun,hresult,hQ,hIq,hother⟩ :=
      ih (perform p.shared e op).1 (p := p.answered T perform i e op next)
        (by rw [ghosts,hthread]; exact h.2 _ hexpects) (by rw [ghosts_answered]; exact hI')
        (by rw [hthread])
    have hfirst : History (Steps T perform fun _ _ _ => True) p [(i, e)]
        (p.answered T perform i e op next) :=
      .step .start ⟨step_eq_some.2 ⟨op,next,hprog,rfl⟩, trivial⟩
    refine ⟨_, q, r, hfirst.trans hrun, hresult, hQ, hIq, fun j hj => ?_⟩
    rw [hother j hj]
    exact update_of_ne hj ..

theorem exec_thread (es : List ω) {prog prog' : Script F E α} {g g' : γ} {s' : σ}
    (hthread : p.thread i = ⟨prog, g⟩)
    (hplay : prog.play T perform es g p.shared = some (prog', g', s')) :
    ∃ q, p.exec T perform (es.map fun e => (i, e)) = some q ∧ q.shared = s' ∧
      q.thread i = ⟨prog', g'⟩ ∧ ∀ j ≠ i, q.thread j = p.thread j := by
  induction es generalizing p prog g with
  | nil =>
    cases hplay
    exact ⟨p, rfl, rfl, hthread, fun _ _ => rfl⟩
  | cons e rest ih =>
    cases prog with
    | done a => cases hplay
    | fail err => cases hplay
    | call op next =>
      have hstep : p.step T perform i e = some (p.answered T perform i e op next) :=
        step_eq_some.2 ⟨op, next, by rw [hthread], rfl⟩
      obtain ⟨q,hexec,hshared,hself,hother⟩ := ih (p := p.answered T perform i e op next)
        (update_self ..) (by rw [hthread]; exact hplay)
      refine ⟨q, ?_, hshared, hself, fun j hj => ?_⟩
      · rw [map_cons,exec,hstep,Option.bind_some,hexec]
      · rw [hother j hj]
        exact update_of_ne hj ..

theorem exec_thread_of_notMem (h : p.exec T perform labels = some q) (hi : ∀ a ∈ labels, a.1 ≠ i) :
    q.thread i = p.thread i := by
  induction labels generalizing p with
  | nil =>
    cases h
    rfl
  | cons a rest ih =>
    obtain ⟨r,hr,hq⟩ := Option.bind_eq_some_iff.1 h
    obtain ⟨op,next,-,rfl⟩ := step_eq_some.1 hr
    rw [ih hq fun b hb => hi b (mem_cons_of_mem a hb)]
    exact update_of_ne (hi a mem_cons_self).symm ..

theorem history_of_exec {labels' : List (ι × ω)} {start : Pool ι σ F E α γ}
    (h : History (Steps T perform fun _ _ _ => True) start labels p)
    (hq : p.exec T perform labels' = some q) :
    History (Steps T perform fun _ _ _ => True) start (labels ++ labels') q := by
  induction labels' generalizing labels p with
  | nil =>
    cases hq
    rw [append_nil]
    exact h
  | cons a rest ih =>
    obtain ⟨r,hr,hq⟩ := Option.bind_eq_some_iff.1 hq
    have hnext := ih (h.step ⟨hr,trivial⟩) hq
    rwa [append_assoc,singleton_append] at hnext

/-- The pool after a schedule whose steps meet a condition. -/
def execIf (T : Tracking F γ) (perform : σ → ω → (op : F.Op) → F.Reply op × σ)
    (C : Pool ι σ F E α γ → ι → ω → Prop) [∀ p i e, Decidable (C p i e)]
    (p : Pool ι σ F E α γ) : List (ι × ω) → Option (Pool ι σ F E α γ)
  | [] => some p
  | a :: rest =>
    if C p a.1 a.2 then (p.step T perform a.1 a.2).bind fun q => q.execIf T perform C rest else none

theorem history_of_execIf {C : Pool ι σ F E α γ → ι → ω → Prop} [∀ p i e, Decidable (C p i e)]
    (h : p.execIf T perform C labels = some q) : History (Steps T perform C) p labels q ∧
      ∀ i, (∀ a ∈ labels, a.1 ≠ i) → q.thread i = p.thread i := by
  induction labels generalizing p with
  | nil =>
    cases h
    exact ⟨.start, fun _ _ => rfl⟩
  | cons a rest ih =>
    unfold execIf at h
    split at h
    · rename_i hC
      obtain ⟨r,hr,hq⟩ := Option.bind_eq_some_iff.1 h
      obtain ⟨hrun,hother⟩ := ih hq
      refine ⟨(History.step .start ⟨hr,hC⟩).trans hrun, fun i hi => ?_⟩
      obtain ⟨op,next,-,rfl⟩ := step_eq_some.1 hr
      rw [hother i fun b hb => hi b (mem_cons_of_mem a hb)]
      exact update_of_ne (hi a mem_cons_self).symm ..
    · cases h

end Pool
end StoreProgram
