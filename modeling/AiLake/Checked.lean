import Mathlib.Data.List.Basic
import Mathlib.Data.List.Forall2
import Mathlib.Tactic.Ring

/-! Computations that stop at an access out of range (`none`), or tell how they stopped, with a rule
for each way to put them together. -/
namespace Checked

open List

variable {α β γ : Type} {l s : List α} {f : α → Option β} {r : List β} {start stop : Nat} {b : β}

def slice (l : List α) (start stop : Nat) : Option (List α) :=
  if start ≤ stop ∧ stop ≤ l.length then some ((l.drop start).take (stop - start)) else none

def modify (l : List α) (i : Nat) (f : α → α) : Option (List α) :=
  if i < l.length then some (l.modify i f) else none

theorem isSome_slice : (slice l start stop).isSome ↔ start ≤ stop ∧ stop ≤ l.length := by
  unfold slice
  split <;> simp_all

theorem slice_eq_some (h : slice l start stop = some s) :
    s = (l.drop start).take (stop - start) ∧ start ≤ stop ∧ stop ≤ l.length := by
  unfold slice at h
  split at h
  · rename_i hin
    exact ⟨(Option.some.inj h).symm, hin⟩
  · cases h

theorem length_of_slice (h : slice l start stop = some s) : s.length = stop - start := by
  obtain ⟨rfl,-,hstop⟩ := slice_eq_some h
  rw [length_take,length_drop]
  omega

theorem getElem?_of_slice {i : Nat} (h : slice l start stop = some s) (hi : i < stop - start) :
    s[i]? = l[start + i]? := by
  obtain ⟨rfl,-,-⟩ := slice_eq_some h
  rw [getElem?_take_of_lt hi,getElem?_drop]

theorem slice_flatten {ls : List (List α)} {dim i : Nat} (h : ∀ l ∈ ls, l.length = dim)
    (hi : i < ls.length) : slice ls.flatten (i * dim) ((i + 1) * dim) = some ls[i] := by
  induction ls generalizing i with
  | nil => cases hi
  | cons l ls ih =>
    obtain ⟨hl,hls⟩ := forall_mem_cons.1 h
    cases i with
    | zero =>
      subst hl
      simp [slice]
    | succ i =>
      have hrest := ih hls (Nat.lt_of_succ_lt_succ hi)
      obtain ⟨heq,hle,hstop⟩ := slice_eq_some hrest
      have hstart : (i + 1) * dim = l.length + i * dim := by rw [hl]; ring
      have hend : (i + 1 + 1) * dim = l.length + (i + 1) * dim := by rw [hl]; ring
      rw [slice,if_pos,hend,hstart,flatten_cons,drop_append,Nat.add_sub_add_left]
      · rw [drop_of_length_le (by omega),Nat.add_sub_cancel_left,nil_append,← hstart,
          ← heq]
        rfl
      · rw [hend,hstart,flatten_cons,length_append]
        omega

theorem isSome_bind_some (x : Option α) (f : α → β) :
    (x.bind fun a => some (f a)).isSome = x.isSome := by
  cases x <;> rfl

theorem mapM_eq_some : l.mapM f = some r ↔ List.Forall₂ (fun a b => f a = some b) l r := by
  induction l generalizing r with
  | nil =>
    rw [mapM_nil,forall₂_nil_left_iff]
    exact ⟨fun h => (Option.some.inj h).symm, fun h => congrArg some h.symm⟩
  | cons a l ih =>
    rw [mapM_cons,forall₂_cons_left_iff]
    constructor
    · intro h
      obtain ⟨b,hb,h⟩ := Option.bind_eq_some_iff.1 h
      obtain ⟨bs,hbs,h⟩ := Option.bind_eq_some_iff.1 h
      exact ⟨b, bs, hb, ih.1 hbs, (Option.some.inj h).symm⟩
    · intro h
      obtain ⟨b,bs,hb,hbs,rfl⟩ := h
      rw [hb,ih.2 hbs]
      rfl

theorem exists_of_mem_right {R : α → β → Prop} (h : List.Forall₂ R l r) (hb : b ∈ r) :
    ∃ a ∈ l, R a b := by
  induction h with
  | nil => cases hb
  | @cons a c l r hac _ ih =>
    cases hb with
    | head => exact ⟨a,mem_cons_self,hac⟩
    | tail _ hb =>
      obtain ⟨x,hx,hxb⟩ := ih hb
      exact ⟨x, mem_cons_of_mem a hx, hxb⟩

theorem map_eq_map_of_forall₂ {f : α → γ} {g : β → γ}
    (h : List.Forall₂ (fun a b => g b = f a) l r) : r.map g = l.map f := by
  induction h with
  | nil => rfl
  | cons hab _ ih => rw [map_cons,map_cons,hab,ih]

theorem isSome_mapM : (l.mapM f).isSome ↔ ∀ a ∈ l, (f a).isSome := by
  induction l with
  | nil => simp
  | cons a l ih =>
    rw [mapM_cons,forall_mem_cons,← ih]
    cases f a with
    | none => simp
    | some b =>
      cases l.mapM f with
      | none => simp
      | some bs => simp

theorem length_of_mapM (h : l.mapM f = some r) :
    r.length = l.length := (mapM_eq_some.1 h).length_eq.symm

theorem mapM_eq_map {g : α → β} (h : ∀ a ∈ l, f a = some (g a)) : l.mapM f = some (l.map g) := by
  refine mapM_eq_some.2 ?_
  rw [forall₂_map_right_iff]
  exact forall₂_same.2 h

theorem getElem?_of_mapM (h : l.mapM f = some r) (i : Nat) : r[i]? = (l[i]?).bind f := by
  have hrel := mapM_eq_some.1 h
  clear h
  induction hrel generalizing i with
  | nil => simp
  | cons hab _ ih =>
    cases i with
    | zero => simpa using hab.symm
    | succ i => simpa using ih i

variable {ε : Type} {x : Except ε α} {F F' : ε → Prop} {Q : α → Prop} {R : β → Prop}

theorem bind_eq_ok {f : α → Except ε β} : x >>= f = .ok b ↔ ∃ a, x = .ok a ∧ f a = .ok b := by
  cases x with
  | ok a => simp [bind,Except.bind]
  | error e => simp [bind,Except.bind]

/-- The computation ends with a value that `Q` holds of, or stops in a way that `F` admits. -/
def Outcome (F : ε → Prop) (Q : α → Prop) : Except ε α → Prop
  | .ok a => Q a
  | .error e => F e

theorem Outcome.ok (h : Outcome F Q x) {a : α} (hx : x = .ok a) : Q a := by
  rwa [hx] at h

theorem Outcome.error (h : Outcome F Q x) {e : ε} (hx : x = .error e) : F e := by
  rwa [hx] at h

theorem Outcome.mono {Q' : α → Prop} (h : Outcome F Q x) (hQ : ∀ a, Q a → Q' a) :
    Outcome F Q' x := by
  cases x with
  | ok a => exact hQ a h
  | error e => exact h

theorem Outcome.bind {f : α → Except ε β} (h : Outcome F Q x) (hf : ∀ a, Q a → Outcome F R (f a)) :
    Outcome F R (x >>= f) := by
  cases x with
  | ok a => exact hf a h
  | error e => exact h

theorem Outcome.self (h : Outcome F Q x) : Outcome F (fun a => Q a ∧ x = .ok a) x := by
  cases x with
  | ok a => exact ⟨h,rfl⟩
  | error e => exact h

theorem Outcome.pure {a : α} (h : Q a) : Outcome F Q (pure a : Except ε α) := h

/-- A loop over the numbers below `n`, with what holds after each of them. -/
theorem Outcome.foldlM_range {f : β → Nat → Except ε β} (I : Nat → β → Prop) (n : Nat) (hb : I 0 b)
    (hf : ∀ k < n, ∀ b, I k b → Outcome F (I (k + 1)) (f b k)) :
    Outcome F (I n) ((List.range n).foldlM f b) := by
  induction n with
  | zero => exact hb
  | succ n ih =>
    rw [range_succ,foldlM_append]
    refine (ih fun k hk => hf k (Nat.lt_succ_of_lt hk)).bind fun c hc => ?_
    rw [foldlM_cons]
    exact (hf n (Nat.lt_succ_self n) c hc).bind fun d hd => hd

theorem Outcome.mapM {f : α → Except ε β} {S : α → β → Prop} (hf : ∀ a ∈ l, Outcome F (S a) (f a)) :
    Outcome F (List.Forall₂ S l) (l.mapM f) := by
  induction l with
  | nil => exact .nil
  | cons a l ih =>
    obtain ⟨ha,hl⟩ := forall_mem_cons.1 hf
    rw [mapM_cons]
    refine ha.bind fun b hb => (ih hl).bind fun bs hbs => ?_
    exact Outcome.pure (.cons hb hbs)

theorem Outcome.forM {f : α → Except ε PUnit} (h : ∀ a ∈ l, Outcome F (fun _ => True) (f a)) :
    Outcome F (fun _ => True) (l.forM f) := by
  induction l with
  | nil => exact trivial
  | cons a l ih =>
    obtain ⟨ha,hl⟩ := forall_mem_cons.1 h
    exact Outcome.bind ha fun _ _ => ih hl

theorem eq_ok_of_forM {f : α → Except ε PUnit} (h : l.forM f = .ok ()) : ∀ a ∈ l, f a = .ok () := by
  induction l with
  | nil => exact nofun
  | cons a l ih =>
    obtain ⟨_,ha,hl⟩ := bind_eq_ok.1 h
    exact forall_mem_cons.2 ⟨ha, ih hl⟩

theorem outcome_false : Outcome (fun _ => False) Q x ↔ ∃ a, x = .ok a ∧ Q a := by
  cases x with
  | ok a => simp [Outcome]
  | error e => simp [Outcome]

end Checked
