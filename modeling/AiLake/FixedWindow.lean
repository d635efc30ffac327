import Mathlib.Data.List.Induction

/-! Windows of a fixed span over timed events: the first event opens a window, and the first one
after its end opens the next. -/
namespace FixedWindow

variable {α β : Type}

structure Window (α : Type) where
  started : Nat
  events : List α

/-- An event joins the open window, or opens one. -/
def add (span : Nat) (window : Option (Window α)) (now : Nat) (a : α) : Window α :=
  match window with
  | none => ⟨now, [a]⟩
  | some w => if now - w.started < span then ⟨w.started, w.events ++ [a]⟩ else ⟨now, [a]⟩

def last (span : Nat) (events : List (Nat × α)) : Option (Window α) :=
  events.foldl (fun w e => some (add span w e.1 e.2)) none

def current (span : Nat) (events : List (Nat × α)) (now : Nat) : List α :=
  match last span events with
  | none => []
  | some w => if now - w.started < span then w.events else []

variable {span now : Nat} {events : List (Nat × α)}

theorem last_snoc (span : Nat) (events : List (Nat × α)) (now : Nat) (a : α) :
    last span (events ++ [(now, a)]) = some (add span (last span events) now a) := by
  rw [last,List.foldl_append]
  rfl

theorem events_add (span : Nat) (events : List (Nat × α)) (now : Nat) (a : α) :
    (add span (last span events) now a).events = current span events now ++ [a] := by
  rw [current]
  cases last span events with
  | none => rfl
  | some w =>
    simp only [add]
    split <;> rfl

theorem started_add (span : Nat) (events : List (Nat × α)) (now : Nat) (a : α) :
    (add span (last span events) now a).started = match last span events with
      | none => now
      | some w => if now - w.started < span then w.started else now := by
  cases last span events with
  | none => rfl
  | some w =>
    simp only [add]
    split <;> rfl

theorem length_current_le (span : Nat) (events : List (Nat × α)) (now : Nat) :
    (current span events now).length ≤ events.length := by
  induction events using List.reverseRecOn generalizing now with
  | nil => exact Nat.le_refl 0
  | append_singleton events e ih =>
    rw [current,last_snoc,List.length_append,List.length_singleton]
    dsimp only
    split
    · rw [events_add,List.length_append,List.length_singleton]
      have := ih e.1
      omega
    · exact Nat.zero_le _

theorem mem_of_mem_current {a : α} (h : a ∈ current span events now) :
    ∃ t, (t, a) ∈ events := by
  induction events using List.reverseRecOn generalizing now with
  | nil => cases h
  | append_singleton events e ih =>
    rw [current,last_snoc] at h
    dsimp only at h
    split at h
    · rw [events_add,List.mem_append,List.mem_singleton] at h
      rcases h with h | rfl
      · obtain ⟨t,ht⟩ := ih h
        exact ⟨t, List.mem_append_left _ ht⟩
      · exact ⟨e.1, List.mem_append_right _ (List.mem_singleton_self _)⟩
    · cases h

theorem last_map (span : Nat) (f : α → β) (events : List (Nat × α)) :
    last span (events.map fun e => (e.1, f e.2)) =
      (last span events).map fun w => ⟨w.started, w.events.map f⟩ := by
  induction events using List.reverseRecOn with
  | nil => rfl
  | append_singleton events e ih =>
    rw [List.map_append,List.map_singleton,last_snoc,last_snoc,ih,Option.map_some]
    congr 1
    cases last span events with
    | none => rfl
    | some w =>
      simp only [add,Option.map_some]
      split <;> simp

theorem current_map (span : Nat) (f : α → β) (events : List (Nat × α)) (now : Nat) :
    current span (events.map fun e => (e.1, f e.2)) now = (current span events now).map f := by
  rw [current,current,last_map]
  cases last span events with
  | none => rfl
  | some w =>
    simp only [Option.map_some]
    split <;> rfl

end FixedWindow
