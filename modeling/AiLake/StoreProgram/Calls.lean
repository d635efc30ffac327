import Mathlib.Logic.Basic

/-! Calls on a session: they change its state and may fail, and what was changed before an error
stays changed. -/
namespace StoreProgram

abbrev Call (σ ε α : Type) := ExceptT ε (StateM σ) α

namespace Call

variable {σ ε α β : Type} {I : σ → Prop}

def outcome (c : Call σ ε α) (s : σ) : Except ε α × σ := c.run s

def ofExcept (x : Except ε α) : Call σ ε α := ExceptT.mk (pure x)

/-- The call can return this value, from some state. -/
def Returns (c : Call σ ε α) (a : α) : Prop := ∃ s, (c.outcome s).1 = .ok a

def Fails (c : Call σ ε α) : Prop := ∀ s, ∃ e, (c.outcome s).1 = .error e

/-- The call keeps an invariant of the session, whether it fails or not. -/
def Keeps (I : σ → Prop) (c : Call σ ε α) : Prop := ∀ s, I s → I (c.outcome s).2

theorem outcome_bind (c : Call σ ε α) (f : α → Call σ ε β) (s : σ) :
    (c >>= f).outcome s = match c.outcome s with
      | (.ok a, s') => (f a).outcome s'
      | (.error e, s') => (.error e, s') := by
  change (ExceptT.bindCont (fun a => f a) (c.run s).1).run (c.run s).2 = _
  unfold outcome
  rcases hc : c.run s with ⟨_ | a, s'⟩ <;> rfl

theorem outcome_ofExcept_bind (x : Except ε α) (f : α → Call σ ε β) (s : σ) :
    (ofExcept x >>= f).outcome s = match x with
      | .ok a => (f a).outcome s
      | .error e => (.error e, s) := by
  cases x <;> rfl

theorem outcome_modifyGet_bind (g : σ → α × σ) (f : α → Call σ ε β) (s : σ) :
    ((modifyGet g : Call σ ε α) >>= f).outcome s = (f (g s).1).outcome (g s).2 := rfl

theorem returns_ofExcept {x : Except ε α} {a : α} (h : (ofExcept x : Call σ ε α).Returns a) :
    x = .ok a := h.choose_spec

theorem Keeps.pure (a : α) : (Pure.pure a : Call σ ε α).Keeps I := fun _ hs => hs

theorem Keeps.throw (e : ε) : (MonadExcept.throw e : Call σ ε α).Keeps I := fun _ hs => hs

theorem Keeps.ofExcept (x : Except ε α) : (Call.ofExcept x : Call σ ε α).Keeps I := fun _ hs => hs

theorem Keeps.get : (MonadState.get : Call σ ε σ).Keeps I := fun _ hs => hs

theorem Keeps.modify {g : σ → σ} (h : ∀ s, I s → I (g s)) :
    (MonadState.modifyGet (fun s => (PUnit.unit, g s)) : Call σ ε PUnit).Keeps I := h

theorem Keeps.bind {c : Call σ ε α} {f : α → Call σ ε β} (hc : c.Keeps I)
    (hf : ∀ a, c.Returns a → (f a).Keeps I) : (c >>= f).Keeps I := by
  intro s hs
  have hs' := hc s hs
  rw [outcome_bind]
  rcases hout : c.outcome s with ⟨_ | a, s'⟩
  · rw [hout] at hs'
    exact hs'
  · rw [hout] at hs'
    exact hf a ⟨s, by rw [hout]⟩ s' hs'

theorem Fails.throw (e : ε) : (MonadExcept.throw e : Call σ ε α).Fails := fun _ => ⟨e,rfl⟩

theorem Fails.bind {c : Call σ ε α} {f : α → Call σ ε β} (h : ∀ a, c.Returns a → (f a).Fails) :
    (c >>= f).Fails := by
  intro s
  rw [outcome_bind]
  rcases hout : c.outcome s with ⟨e | a, s'⟩
  · exact ⟨e,rfl⟩
  · exact h a ⟨s, by rw [hout]⟩ s'

end Call
end StoreProgram
