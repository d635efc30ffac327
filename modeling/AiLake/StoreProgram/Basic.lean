import Mathlib.Data.Set.Insert
import Mathlib.Tactic.Simps.Basic

/-! Programs over an object store, as trees of calls that may fail, run alone or one call at a time
next to others. -/
namespace StoreProgram

universe u

variable {K V E : Type} {α β : Type u}

/-- One call. `tryLock` is the advisory lock object, `enter` and `leave` the mutex of the process. -/
inductive Op (K V : Type) where
  | get (k : K)
  | head (k : K)
  | put (k : K) (v : V)
  | delete (k : K)
  | tryLock (k : K)
  | unlock (k : K)
  | enter
  | leave
  deriving DecidableEq, Repr

/-- What a call answers: `none` and `false` are its errors, except that `tryLock` also
answers `some false` for a lock that is held. -/
@[reducible] def Op.Reply : Op K V → Type
  | .get _ => Option V
  | .tryLock _ => Option Bool
  | .head _ | .put _ _ | .delete _ | .unlock _ => Bool
  | .enter | .leave => Unit

/-- The store, the two kinds of lock, and which of the coming calls fail. -/
structure World (K V : Type) where
  objects : K → Option V
  locked : K → Bool
  mutex : Bool
  faults : Nat → Bool

namespace World

variable {w : World K V}

@[simps] def tick (w : World K V) : World K V := { w with faults := fun n => w.faults (n + 1) }

def Reliable (w : World K V) : Prop := ∀ n, w.faults n = false

/-- The same store once its calls stop failing. -/
@[simps] def reliably (w : World K V) : World K V := { w with faults := fun _ => false }

theorem reliable_reliably (w : World K V) : w.reliably.Reliable := fun _ => rfl

theorem tick_of_reliable (h : w.Reliable) : w.tick = w := by
  have hf : w.tick.faults = w.faults := funext fun n => (h (n + 1)).trans (h n).symm
  simp only [tick] at hf ⊢
  rw [hf]

theorem Reliable.tick (h : w.Reliable) : w.tick.Reliable := fun n => h (n + 1)

@[simps] def setMutex (w : World K V) (b : Bool) : World K V := { w with mutex := b }

/-- The two stores agree but for the objects at `S`. -/
structure SameOff (S : Set K) (w w' : World K V) : Prop where
  objects : ∀ k, k ∉ S → w'.objects k = w.objects k
  locked : w'.locked = w.locked
  mutex : w'.mutex = w.mutex

namespace SameOff

variable {S T : Set K} {w₁ w₂ w₃ : World K V}

theorem refl (S : Set K) (w : World K V) : SameOff S w w := ⟨fun _ _ => rfl, rfl, rfl⟩

theorem tick (S : Set K) (w : World K V) : SameOff S w w.tick := ⟨fun _ _ => rfl, rfl, rfl⟩

theorem trans (h : SameOff S w₁ w₂) (h' : SameOff S w₂ w₃) : SameOff S w₁ w₃ :=
  ⟨fun k hk => (h'.objects k hk).trans (h.objects k hk), h'.locked.trans h.locked,
    h'.mutex.trans h.mutex⟩

theorem mono (h : SameOff S w₁ w₂) (hST : S ⊆ T) : SameOff T w₁ w₂ :=
  ⟨fun k hk => h.objects k fun hS => hk (hST hS), h.locked, h.mutex⟩

end SameOff

variable [DecidableEq K]

@[simps] def write (w : World K V) (k : K) (v : V) : World K V :=
  { w with objects := Function.update w.objects k (some v) }

@[simps] def remove (w : World K V) (k : K) : World K V :=
  { w with objects := Function.update w.objects k none }

@[simps] def setLock (w : World K V) (k : K) (b : Bool) : World K V :=
  { w with locked := Function.update w.locked k b }

theorem Reliable.write (h : w.Reliable) (k : K) (v : V) : (w.write k v).Reliable := h
theorem Reliable.remove (h : w.Reliable) (k : K) : (w.remove k).Reliable := h
theorem Reliable.setLock (h : w.Reliable) (k : K) (b : Bool) : (w.setLock k b).Reliable := h

theorem SameOff.write {S : Set K} {k : K} (hk : k ∈ S) (w : World K V) (v : V) :
    SameOff S w (w.write k v) where
  objects _ hk' := Function.update_of_ne (ne_of_mem_of_not_mem hk hk').symm _ _
  locked := rfl
  mutex := rfl

theorem SameOff.tick_write (w : World K V) (k : K) (v : V) : SameOff {k} w (w.tick.write k v) :=
  (SameOff.tick _ w).trans (.write (Set.mem_singleton k) _ _)

end World

/-- A program: a result, an error, or a call with what to do for each answer. -/
inductive Prog (K V E : Type) (α : Type u) where
  | done (a : α)
  | fail (e : E)
  | call (op : Op K V) (next : op.Reply → Prog K V E α)

namespace Prog

def bind : Prog K V E α → (α → Prog K V E β) → Prog K V E β
  | .done a, f => f a
  | .fail e, _ => .fail e
  | .call op next, f => .call op fun r => (next r).bind f

instance : Monad (Prog K V E) where
  pure := .done
  bind := bind

/-- `p` with its error handed back as a value, for callers that go on after it. -/
def attempt : Prog K V E α → Prog K V E (Except E α)
  | .done a => .done (.ok a)
  | .fail e => .done (.error e)
  | .call op next => .call op fun r => (next r).attempt

def ofExcept : Except E α → Prog K V E α
  | .ok a => .done a
  | .error e => .fail e

def get (k : K) : Prog K V E (Option V) := .call (.get k) .done
def head (k : K) : Prog K V E Bool := .call (.head k) .done
def put (k : K) (v : V) : Prog K V E Bool := .call (.put k v) .done
def delete (k : K) : Prog K V E Bool := .call (.delete k) .done
def tryLock (k : K) : Prog K V E (Option Bool) := .call (.tryLock k) .done
def unlock (k : K) : Prog K V E Bool := .call (.unlock k) .done
def enter : Prog K V E Unit := .call .enter .done
def leave : Prog K V E Unit := .call .leave .done

def ReadOnly : Prog K V E α → Prop
  | .done _ | .fail _ => True
  | .call (.get _) next => ∀ r, (next r).ReadOnly
  | .call (.head _) next => ∀ r, (next r).ReadOnly
  | .call _ _ => False

theorem readOnly_pure (a : α) : (pure a : Prog K V E α).ReadOnly := by
  change ReadOnly (.done a)
  trivial

theorem readOnly_get (k : K) : (get k : Prog K V E (Option V)).ReadOnly := fun _ => trivial

theorem ReadOnly.bind {p : Prog K V E α} {f : α → Prog K V E β} (hp : p.ReadOnly)
    (hf : ∀ a, (f a).ReadOnly) : (p >>= f).ReadOnly := by
  induction p with
  | done a => exact hf a
  | fail e => trivial
  | call op next ih =>
    cases op with
    | get k => exact fun r => ih r (hp r)
    | head k => exact fun r => ih r (hp r)
    | _ => exact absurd hp id

theorem ReadOnly.attempt {p : Prog K V E α} (hp : p.ReadOnly) : p.attempt.ReadOnly := by
  induction p with
  | done a => trivial
  | fail e => trivial
  | call op next ih =>
    cases op with
    | get k => exact fun r => ih r (hp r)
    | head k => exact fun r => ih r (hp r)
    | _ => exact absurd hp id

end Prog

variable [DecidableEq K]

/-- The effect of one call. A failed call changes nothing, and the mutex never fails. -/
def Op.perform (w : World K V) : (op : Op K V) → op.Reply × World K V
  | .get k => (if w.faults 0 then none else w.objects k, w.tick)
  | .head k => (!w.faults 0 && (w.objects k).isSome, w.tick)
  | .put k v => if w.faults 0 then (false, w.tick) else (true, w.tick.write k v)
  | .delete k => if w.faults 0 then (false, w.tick) else (true, w.tick.remove k)
  | .tryLock k =>
    if w.faults 0 then (none, w.tick)
    else if w.locked k then (some false, w.tick)
    else (some true, w.tick.setLock k true)
  | .unlock k => if w.faults 0 then (false, w.tick) else (true, w.tick.setLock k false)
  | .enter => ((), w.tick.setMutex true)
  | .leave => ((), w.tick.setMutex false)

namespace Prog

def run : Prog K V E α → World K V → Except E α × World K V
  | .done a, w => (.ok a, w)
  | .fail e, w => (.error e, w)
  | .call op next, w => (next (op.perform w).1).run (op.perform w).2

@[simp] theorem run_pure (a : α) (w : World K V) :
    (pure a : Prog K V E α).run w = (.ok a, w) := rfl

@[simp] theorem run_done (a : α) (w : World K V) :
    (done a : Prog K V E α).run w = (.ok a, w) := rfl

@[simp] theorem run_fail (e : E) (w : World K V) :
    (fail e : Prog K V E α).run w = (.error e, w) := rfl

theorem run_get (k : K) (w : World K V) : (get k : Prog K V E (Option V)).run w =
    (.ok (if w.faults 0 then none else w.objects k), w.tick) := rfl

theorem run_head (k : K) (w : World K V) : (head k : Prog K V E Bool).run w =
    (.ok (!w.faults 0 && (w.objects k).isSome), w.tick) := rfl

theorem run_put (k : K) (v : V) (w : World K V) : (put k v : Prog K V E Bool).run w =
    (.ok (!w.faults 0), if w.faults 0 then w.tick else w.tick.write k v) := by
  simp only [put,run,Op.perform]
  cases w.faults 0 <;> rfl

theorem run_delete (k : K) (w : World K V) : (delete k : Prog K V E Bool).run w =
    (.ok (!w.faults 0), if w.faults 0 then w.tick else w.tick.remove k) := by
  simp only [delete,run,Op.perform]
  cases w.faults 0 <;> rfl

theorem run_tryLock (k : K) (w : World K V) : (tryLock k : Prog K V E (Option Bool)).run w =
    (.ok (if w.faults 0 then none else some !w.locked k),
      if w.faults 0 ∨ w.locked k then w.tick else w.tick.setLock k true) := by
  simp only [tryLock,run,Op.perform]
  cases w.faults 0 <;> cases w.locked k <;> rfl

theorem run_unlock (k : K) (w : World K V) : (unlock k : Prog K V E Bool).run w =
    (.ok (!w.faults 0), if w.faults 0 then w.tick else w.tick.setLock k false) := by
  simp only [unlock,run,Op.perform]
  cases w.faults 0 <;> rfl

theorem run_enter (w : World K V) :
    (enter : Prog K V E Unit).run w = (.ok (), w.tick.setMutex true) := rfl

theorem run_leave (w : World K V) :
    (leave : Prog K V E Unit).run w = (.ok (), w.tick.setMutex false) := rfl

theorem run_ofExcept (r : Except E α) (w : World K V) : (ofExcept r).run w = (r, w) := by
  cases r <;> rfl

theorem run_bind (p : Prog K V E α) (f : α → Prog K V E β) (w : World K V) :
    (p >>= f).run w = match p.run w with
      | (.ok a, w') => (f a).run w'
      | (.error e, w') => (.error e, w') := by
  induction p generalizing w with
  | done a => rfl
  | fail e => rfl
  | call op next ih => exact ih _ _

theorem run_attempt (p : Prog K V E α) (w : World K V) :
    p.attempt.run w = (.ok (p.run w).1, (p.run w).2) := by
  induction p generalizing w with
  | done a => rfl
  | fail e => rfl
  | call op next ih => exact ih _ _

/-- A sequence succeeds exactly when both parts do, the second where the first stopped. -/
theorem run_bind_ok {p : Prog K V E α} {f : α → Prog K V E β} {w w'' : World K V} {b : β} :
    (p >>= f).run w = (.ok b, w'') ↔
      ∃ a w', p.run w = (.ok a, w') ∧ (f a).run w' = (.ok b, w'') := by
  rw [run_bind]
  rcases hp : p.run w with ⟨_ | a, w'⟩ <;> simp [and_assoc]

end Prog

/-! A store whose calls all succeed. -/

section Reliable

variable {w : World K V} (hr : w.Reliable)

include hr

theorem World.Reliable.perform (op : Op K V) : (op.perform w).2.Reliable := by
  have hf : w.faults 0 = false := hr 0
  cases op with
  | tryLock k =>
    cases hl : w.locked k <;> simp only [Op.perform,hf,hl,Bool.false_eq_true,if_false,if_true]
    · exact hr.tick.setLock k true
    · exact hr.tick
  | put k v => simpa only [Op.perform,hf,Bool.false_eq_true,if_false] using hr.tick.write k v
  | delete k => simpa only [Op.perform,hf,Bool.false_eq_true,if_false] using hr.tick.remove k
  | unlock k =>
    simpa only [Op.perform,hf,Bool.false_eq_true,if_false] using hr.tick.setLock k false
  | _ => exact hr.tick

theorem World.Reliable.run (p : Prog K V E α) : (p.run w).2.Reliable := by
  induction p generalizing w with
  | done a => exact hr
  | fail e => exact hr
  | call op next ih => exact ih _ (hr.perform op)

namespace Prog

theorem run_get_of_reliable (k : K) :
    (get k : Prog K V E (Option V)).run w = (.ok (w.objects k), w) := by
  rw [run_get,hr 0,World.tick_of_reliable hr]
  rfl

theorem run_put_of_reliable (k : K) (v : V) :
    (put k v : Prog K V E Bool).run w = (.ok true, w.write k v) := by
  rw [run_put,hr 0,World.tick_of_reliable hr]
  rfl

theorem run_delete_of_reliable (k : K) :
    (delete k : Prog K V E Bool).run w = (.ok true, w.remove k) := by
  rw [run_delete,hr 0,World.tick_of_reliable hr]
  rfl

end Prog
end Reliable

namespace Prog

variable {p : Prog K V E α} {f : α → Prog K V E β}

/-- The program ends well on every store whose calls succeed. -/
def Succeeds (p : Prog K V E α) : Prop :=
  ∀ w : World K V, w.Reliable → ∃ a w', p.run w = (.ok a, w')

theorem succeeds_pure (a : α) : (pure a : Prog K V E α).Succeeds := fun w _ => ⟨a,w,rfl⟩

theorem Succeeds.bind (hp : p.Succeeds) (hf : ∀ a, (f a).Succeeds) : (p >>= f).Succeeds := by
  intro w hr
  obtain ⟨a,w₁,h₁⟩ := hp w hr
  have hr₁ : w₁.Reliable := by
    have hrun := hr.run p
    rw [h₁] at hrun
    exact hrun
  obtain ⟨b,w₂,h₂⟩ := hf a w₁ hr₁
  exact ⟨b, w₂, run_bind_ok.2 ⟨a,w₁,h₁,h₂⟩⟩

theorem ReadOnly.objects_run (hp : p.ReadOnly) (w : World K V) :
    (p.run w).2.objects = w.objects := by
  induction p generalizing w with
  | done a => rfl
  | fail e => rfl
  | call op next ih =>
    cases op with
    | get k => exact ih _ (hp _) _
    | head k => exact ih _ (hp _) _
    | _ => exact absurd hp id

/-- However it ends, the program changes no object off `S` and no lock. -/
def Touches (S : Set K) (p : Prog K V E α) : Prop := ∀ w : World K V, w.SameOff S (p.run w).2

variable {S : Set K}

theorem touches_pure (a : α) : (pure a : Prog K V E α).Touches S := fun w => .refl S w

theorem touches_fail (e : E) : (fail e : Prog K V E α).Touches S := fun w => .refl S w

theorem touches_ofExcept (r : Except E α) : (ofExcept r : Prog K V E α).Touches S := by
  intro w
  rw [run_ofExcept]
  exact .refl S w

theorem Touches.bind (hp : p.Touches S) (hf : ∀ a, (f a).Touches S) : (p >>= f).Touches S := by
  intro w
  have h := hp w
  rw [run_bind]
  rcases hrun : p.run w with ⟨e | a, w'⟩ <;> rw [hrun] at h
  · exact h
  · exact h.trans (hf a w')

theorem touches_put {k : K} (hk : k ∈ S) (v : V) : (put k v : Prog K V E Bool).Touches S := by
  intro w
  rw [run_put]
  dsimp only
  split
  · exact .tick S w
  · exact (World.SameOff.tick S w).trans (.write hk _ v)

theorem ReadOnly.touches (hp : p.ReadOnly) : p.Touches S := by
  intro w
  induction p generalizing w with
  | done a => exact .refl S w
  | fail e => exact .refl S w
  | call op next ih =>
    cases op with
    | get k => exact (World.SameOff.tick S w).trans (ih _ (hp _) _)
    | head k => exact (World.SameOff.tick S w).trans (ih _ (hp _) _)
    | _ => exact absurd hp id

/-- However it ends, the program changes no object off `S` and no lock; what it returns meets `P`. -/
structure Confined (S : Set K) (P : α → Prop) (p : Prog K V E α) : Prop where
  touches : p.Touches S
  returns : ∀ (w : World K V) (a : α) (w' : World K V), p.run w = (.ok a, w') → P a

theorem confined_pure {P : α → Prop} {a : α} (h : P a) : (pure a : Prog K V E α).Confined S P where
  touches := touches_pure a
  returns _ _ _ hrun := by
    cases hrun
    exact h

theorem confined_fail {P : α → Prop} (e : E) : (fail e : Prog K V E α).Confined S P where
  touches := touches_fail e
  returns _ _ _ hrun := nomatch hrun

theorem Touches.confined {P : β → Prop} (hp : p.Touches S) (hf : ∀ a, (f a).Confined S P) :
    (p >>= f).Confined S P where
  touches := hp.bind fun a => (hf a).touches
  returns w b w'' hrun := by
    obtain ⟨a,w',-,hrest⟩ := run_bind_ok.1 hrun
    exact (hf a).returns w' b w'' hrest

end Prog
end StoreProgram
