import AiLake.FencedLease

/-! Fenced leases under all interleavings. -/
namespace AiLake

open StoreProgram Function

/-- The lease before or the same one: a later lease has a later token. -/
def HeldLock.Before (h h' : HeldLock) : Prop := h = h' ∨ h.fencingToken < h'.fencingToken

namespace HeldLock

variable {h h' h'' : HeldLock}

theorem Before.refl (h : HeldLock) : h.Before h := .inl rfl

theorem Before.le (hb : h.Before h') : h.fencingToken ≤ h'.fencingToken := by
  rcases hb with rfl | hlt
  · exact Nat.le_refl _
  · exact Nat.le_of_lt hlt

theorem Before.trans (hb : h.Before h') (hb' : h'.Before h'') : h.Before h'' := by
  rcases hb with rfl | hlt
  · exact hb'
  · exact .inr (Nat.lt_of_lt_of_le hlt hb'.le)

theorem Before.antisymm (hb : h.Before h') (hb' : h'.Before h) : h = h' := by
  rcases hb with heq | hlt
  · exact heq
  · exact absurd hb'.le (Nat.not_le_of_lt hlt)

end HeldLock

def LeasePayload.holder (c : LeasePayload) : HeldLock := ⟨c.owner, c.fence⟩

def LeaseWorld.holder {A : Type} (w : LeaseWorld A) : Option HeldLock :=
  w.object.map fun o => o.1.holder

def LeaseWorld.BelowMax {A : Type} (w : LeaseWorld A) : Prop :=
  ∀ h, w.holder = some h → h.fencingToken < 2 ^ 64 - 1

/-- What is known of a call in progress: what it found in the instance's memory, the etag and the
content that it read, and the lease that it won. -/
structure LeaseGhost (A τ : Type) where
  call : LeaseCall A
  held : Option HeldLock
  tag : Option τ
  got : Option LeasePayload
  won : Option HeldLock

namespace LeaseGhost

variable {A τ : Type}

def init (call : LeaseCall A) : LeaseGhost A τ := ⟨call, none, none, none, none⟩

/-- A put that was answered well makes an acquisition succeed. -/
def wrote (g : LeaseGhost A τ) (payload : LeasePayload) : LeaseGhost A τ :=
  match g.call with
  | .acquire _ => { g with won := some payload.holder }
  | _ => g

/-- What a call may put in place of the content that it read. -/
def Continues (g : LeaseGhost A τ) (content payload : LeasePayload) : Prop :=
  match g.call with
  | .acquire _ => payload.fence = nextFence content.fence
  | .renew _ t | .release _ t =>
    payload.holder = content.holder ∧ content.fence = t ∧ g.held = some content.holder
  | .check _ _ => False

def track (g : LeaseGhost A τ) : (op : LeaseOp A τ) → op.Reply → LeaseGhost A τ
  | .remembered _, held => { g with held := held }
  | .head, .found tag => { g with tag := some tag, got := none }
  | .get, .found content => { g with got := some content }
  | .create payload, .ok => g.wrote payload
  | .update _ payload, .ok => g.wrote payload
  | _, _ => g

def Allows (g : LeaseGhost A τ) : LeaseOp A τ → Prop
  | .create payload => (∃ a, g.call = .acquire a) ∧ g.won = none ∧ payload.fence = 1
  | .update tag payload => g.tag = some tag ∧ g.won = none ∧
      ∃ content, g.got = some content ∧ g.Continues content payload
  | .remember a held => a = g.call.caller ∧ g.won = some held
  | .remembered a => a = g.call.caller ∧ g.got = none
  | _ => True

/-- An object that was there once is not found missing. -/
def Expects (_ : LeaseGhost A τ) : (op : LeaseOp A τ) → op.Reply → Prop
  | .update _ _, reply => reply ≠ .notFound
  | _, _ => True

@[simp] theorem call_wrote (g : LeaseGhost A τ) (payload : LeasePayload) :
    (g.wrote payload).call = g.call := by
  unfold wrote
  split <;> rfl

@[simp] theorem got_wrote (g : LeaseGhost A τ) (payload : LeasePayload) :
    (g.wrote payload).got = g.got := by
  unfold wrote
  split <;> rfl

@[simp] theorem held_wrote (g : LeaseGhost A τ) (payload : LeasePayload) :
    (g.wrote payload).held = g.held := by
  unfold wrote
  split <;> rfl

theorem won_wrote {g : LeaseGhost A τ} {a : A} (h : g.call = .acquire a) (payload : LeasePayload) :
    (g.wrote payload).won = some payload.holder := by
  simp only [wrote,h]

theorem wrote_of_ne {g : LeaseGhost A τ} (h : ∀ a, g.call ≠ .acquire a) (payload : LeasePayload) :
    g.wrote payload = g := by
  unfold wrote
  split
  · rename_i a ha
    exact absurd ha (h a)
  · rfl

@[simp] theorem call_track (g : LeaseGhost A τ) (op : LeaseOp A τ) (r : op.Reply) :
    (g.track op r).call = g.call := by
  cases op <;> cases r <;> simp [track]

theorem track_create (g : LeaseGhost A τ) (payload : LeasePayload) (r : PutReply) :
    g.track (.create payload) r = if r = .ok then g.wrote payload else g := by
  cases r <;> rfl

theorem track_update (g : LeaseGhost A τ) (tag : τ) (payload : LeasePayload) (r : PutReply) :
    g.track (.update tag payload) r = if r = .ok then g.wrote payload else g := by
  cases r <;> rfl

end LeaseGhost

def leaseTracking (A τ : Type) : Tracking (leaseInterface A τ) (LeaseGhost A τ) :=
  ⟨LeaseGhost.track, LeaseGhost.Allows, LeaseGhost.Expects⟩

section Programs

variable {A τ α β : Type} {g : LeaseGhost A τ} {Q : Except LeaseError β → LeaseGhost A τ → Prop}
  {a : A} {t : Nat}

theorem ensures_leasePayload {owner : String} {fence : Nat} {f : LeasePayload → LeaseScript A τ β}
    (h : ∀ payload : LeasePayload, payload.holder = ⟨owner, fence⟩ →
      (f payload).Ensures (leaseTracking A τ) g Q) :
    (leasePayload owner fence >>= f).Ensures (leaseTracking A τ) g Q :=
  Script.Ensures.call trivial fun now _ => h ⟨owner, fence, now + lockLeaseMs⟩ rfl

theorem ensures_leaseIsExpired {content : LeasePayload} {f : Bool → LeaseScript A τ β}
    (h : ∀ b, (f b).Ensures (leaseTracking A τ) g Q) :
    (leaseIsExpired content >>= f).Ensures (leaseTracking A τ) g Q :=
  Script.Ensures.call trivial fun _ _ => h _

theorem ensures_forgetLock {f : Unit → LeaseScript A τ β}
    (h : (f ()).Ensures (leaseTracking A τ) g Q) :
    (forgetLock a >>= f).Ensures (leaseTracking A τ) g Q :=
  Script.Ensures.call trivial fun _ _ => h

/-- A token that is handed out was won. -/
def AcquireEnds (r : Except LeaseError (Option Nat)) (g : LeaseGhost A τ) : Prop :=
  ∀ fence, r = .ok (some fence) → ∃ h, g.won = some h ∧ h.fencingToken = fence

theorem ensures_acquired (h : HeldLock) {reply : PutReply} {retry : LeaseScript A τ (Option Nat)}
    (hcall : g.call = .acquire a) (hretry : reply = .notFound → retry = .fail .store)
    (hwon : reply = .ok → g.won = some h) :
    (acquired a h.owner h.fencingToken reply retry).Ensures (leaseTracking A τ) g AcquireEnds := by
  cases reply with
  | ok =>
    refine Script.Ensures.call ⟨?_, hwon rfl⟩ fun _ _ fence hr => ?_
    · rw [hcall]
      rfl
    · cases hr
      exact ⟨h, hwon rfl, rfl⟩
  | conflict => exact fun _ hr => nomatch hr
  | notFound =>
    rw [acquired,hretry rfl]
    exact fun _ hr => nomatch hr
  | error => exact fun _ hr => nomatch hr

theorem ensures_acquireRound {retry : LeaseScript A τ (Option Nat)} (hcall : g.call = .acquire a)
    (hwon : g.won = none) : (acquireRound a retry).Ensures (leaseTracking A τ) g AcquireEnds := by
  refine Script.Ensures.call trivial fun owner _ => ?_
  refine Script.Ensures.call trivial fun looked _ => ?_
  cases looked with
  | error => exact fun _ hr => nomatch hr
  | notFound =>
    refine ensures_leasePayload fun payload hholder => ?_
    have hfence : payload.fence = 1 := congrArg HeldLock.fencingToken hholder
    refine Script.Ensures.call ⟨⟨a,hcall⟩,hwon,hfence⟩ fun reply _ => ?_
    refine ensures_acquired ⟨owner,1⟩ ?_ (fun _ => rfl) fun hreply => ?_
    · exact (LeaseGhost.call_track _ _ _).trans hcall
    · subst hreply
      rw [← hholder]
      exact LeaseGhost.won_wrote hcall _
  | found tag =>
    refine Script.Ensures.call trivial fun looked _ => ?_
    cases looked with
    | error => exact fun _ hr => nomatch hr
    | notFound => exact fun _ hr => nomatch hr
    | found current =>
      refine ensures_leaseIsExpired fun expired => ?_
      cases expired with
      | false => exact fun _ hr => nomatch hr
      | true =>
        refine ensures_leasePayload fun payload hholder => ?_
        have hfence : payload.fence = nextFence current.fence :=
          congrArg HeldLock.fencingToken hholder
        have hcontinues : LeaseGhost.Continues { g with tag := some tag, got := some current }
            current payload := by
          simp only [LeaseGhost.Continues,hcall]
          exact hfence
        refine Script.Ensures.call ⟨rfl,hwon,current,rfl,hcontinues⟩ fun reply hreply => ?_
        refine ensures_acquired ⟨owner, nextFence current.fence⟩ ?_ (fun h => absurd h hreply)
          fun hok => ?_
        · exact (LeaseGhost.call_track _ _ _).trans hcall
        · subst hok
          rw [← hholder]
          exact LeaseGhost.won_wrote (g := { g with tag := some tag, got := some current }) hcall _

theorem ensures_tryAcquireLockFenced (retries : Nat) (hcall : g.call = .acquire a)
    (hwon : g.won = none) :
    (tryAcquireLockFenced a retries).Ensures (leaseTracking A τ) g AcquireEnds := by
  cases retries with
  | zero => exact ensures_acquireRound hcall hwon
  | succ n => exact ensures_acquireRound hcall hwon

theorem allows_update {held : HeldLock} {tag : τ} {current payload : LeasePayload}
    (hcall : g.call = .renew a t ∨ g.call = .release a t) (hwon : g.won = none)
    (htoken : held.fencingToken = t) (howns : current.holder = held)
    (hpayload : payload.holder = held) :
    (leaseTracking A τ).allows { g with held := some held, tag := some tag, got := some current }
      (.update tag payload) := by
  refine ⟨rfl,hwon,current,rfl,?_⟩
  have hfence : current.fence = t := (congrArg HeldLock.fencingToken howns).trans htoken
  rcases hcall with hcall | hcall
  · simp only [LeaseGhost.Continues,hcall]
    exact ⟨hpayload.trans howns.symm, hfence, by rw [howns]⟩
  · simp only [LeaseGhost.Continues,hcall]
    exact ⟨hpayload.trans howns.symm, hfence, by rw [howns]⟩

theorem holder_eq {c : LeasePayload} {h : HeldLock} :
    c.holder = h ↔ c.owner = h.owner ∧ c.fence = h.fencingToken := HeldLock.mk.injEq .. ▸ Iff.rfl

theorem ensures_renewLockFenced (hcall : g.call = .renew a t) (hgot : g.got = none)
    (hwon : g.won = none) :
    (renewLockFenced a t).Ensures (leaseTracking A τ) g fun _ _ => True := by
  refine Script.Ensures.call ⟨by rw [hcall]; rfl, hgot⟩ fun held _ => ?_
  cases held with
  | none => trivial
  | some held =>
    refine Script.Ensures.ite (fun _ => trivial) fun htoken => ?_
    refine Script.Ensures.call trivial fun looked _ => ?_
    cases looked with
    | error => trivial
    | notFound => exact ensures_forgetLock trivial
    | found tag =>
      refine Script.Ensures.call trivial fun looked _ => ?_
      cases looked with
      | error => trivial
      | notFound => trivial
      | found current =>
        refine Script.Ensures.ite (fun _ => ensures_forgetLock trivial) fun howns => ?_
        have hheld : current.holder = held := holder_eq.2 (by
          simpa only [not_or,ne_eq,not_not] using howns)
        refine ensures_leaseIsExpired fun expired => ?_
        cases expired with
        | true => exact ensures_forgetLock trivial
        | false =>
          refine ensures_leasePayload fun payload hpayload => ?_
          refine Script.Ensures.call (allows_update (.inl hcall) hwon (not_ne_iff.1 htoken) hheld
            hpayload) fun reply _ => ?_
          cases reply <;> trivial

theorem ensures_releaseLockFenced (hcall : g.call = .release a t) (hgot : g.got = none)
    (hwon : g.won = none) :
    (releaseLockFenced a t).Ensures (leaseTracking A τ) g fun _ _ => True := by
  have hforget {g : LeaseGhost A τ} :
      (forgetLock a : LeaseScript A τ Unit).Ensures (leaseTracking A τ) g fun _ _ => True :=
    ⟨trivial, fun _ _ => trivial⟩
  refine Script.Ensures.call ⟨by rw [hcall]; rfl, hgot⟩ fun held _ => ?_
  cases held with
  | none => trivial
  | some held =>
    refine Script.Ensures.ite (fun _ => trivial) fun htoken => ?_
    refine Script.Ensures.call trivial fun looked _ => ?_
    cases looked with
    | error => trivial
    | notFound => exact hforget
    | found tag =>
      refine Script.Ensures.call trivial fun looked _ => ?_
      cases looked with
      | error => trivial
      | notFound => exact hforget
      | found current =>
        refine Script.Ensures.ite (fun howns => ?_) fun _ => hforget
        refine Script.Ensures.call trivial fun now _ => ?_
        refine Script.Ensures.call (allows_update (.inr hcall) hwon (not_ne_iff.1 htoken)
          (holder_eq.2 howns) rfl) fun reply _ => ?_
        cases reply with
        | ok => exact hforget
        | conflict => exact hforget
        | notFound => trivial
        | error => trivial

/-- A fence that holds was read in the lock object. -/
def CheckEnds (t : Nat) (r : Except LeaseError Bool) (g : LeaseGhost A τ) : Prop :=
  r = .ok true → ∃ content, g.got = some content ∧ content.fence = t ∧ g.held = some content.holder

theorem ensures_checkLockFence (hcall : g.call = .check a t) (hgot : g.got = none) :
    (checkLockFence a t).Ensures (leaseTracking A τ) g (CheckEnds t) := by
  refine Script.Ensures.call ⟨by rw [hcall]; rfl, hgot⟩ fun held _ => ?_
  cases held with
  | none => exact fun h => nomatch h
  | some held =>
    refine Script.Ensures.ite (fun _ h => nomatch h) fun htoken => ?_
    refine Script.Ensures.call trivial fun looked _ => ?_
    cases looked with
    | error => exact fun h => nomatch h
    | notFound => exact fun h => nomatch h
    | found tag =>
      refine Script.Ensures.call trivial fun looked _ => ?_
      cases looked with
      | error => exact fun h => nomatch h
      | notFound => exact fun h => nomatch h
      | found current =>
        refine Script.Ensures.ite (fun howns => ?_) fun _ h => nomatch h
        refine ensures_leaseIsExpired fun expired _ => ⟨current,rfl,howns.2,?_⟩
        have hheld : current.holder = held :=
          holder_eq.2 ⟨howns.1, howns.2.trans (not_ne_iff.1 htoken).symm⟩
        rw [hheld]
        rfl

def LeaseEnds (r : Except LeaseError LeaseAnswer) (g : LeaseGhost A τ) : Prop :=
  (∀ fence, r = .ok (.token (some fence)) → ∃ h, g.won = some h ∧ h.fencingToken = fence) ∧
    ∀ a t, g.call = .check a t → r = .ok (.flag true) →
      ∃ content, g.got = some content ∧ content.fence = t ∧ g.held = some content.holder

theorem ensures_call_eq {p : LeaseScript A τ β} {call : LeaseCall A} (hcall : g.call = call)
    (h : p.Ensures (leaseTracking A τ) g Q) :
    p.Ensures (leaseTracking A τ) g fun r g' => Q r g' ∧ g'.call = call := by
  induction p generalizing g with
  | done a => exact ⟨h,hcall⟩
  | fail e => exact ⟨h,hcall⟩
  | call op next ih =>
    exact ⟨h.1, fun r hr => ih r ((LeaseGhost.call_track g op r).trans hcall) (h.2 r hr)⟩

theorem ensures_program (call : LeaseCall A) (retries : Nat) :
    (call.program retries).Ensures (leaseTracking A τ) (.init call) LeaseEnds := by
  cases call with
  | acquire a =>
    refine Script.ensures_bind.2 ((ensures_call_eq rfl
      (ensures_tryAcquireLockFenced retries rfl rfl)).mono fun r g hr => ?_)
    cases r with
    | error e => exact ⟨fun _ h => (nomatch h), fun _ _ _ h => (nomatch h)⟩
    | ok fence =>
      refine ⟨fun f h => ?_, fun _ _ _ h => (nomatch h)⟩
      cases h
      exact hr.1 f rfl
  | renew a t =>
    refine Script.ensures_bind.2 ((ensures_call_eq rfl
      (ensures_renewLockFenced rfl rfl rfl)).mono fun r g hr => ?_)
    cases r with
    | error e => exact ⟨fun _ h => (nomatch h), fun _ _ _ h => (nomatch h)⟩
    | ok b =>
      refine ⟨fun _ h => (nomatch h), fun a' t' hcall _ => ?_⟩
      cases hcall.symm.trans hr.2
  | release a t =>
    refine Script.ensures_bind.2 ((ensures_releaseLockFenced rfl rfl rfl).mono fun r g _ => ?_)
    cases r with
    | error e => exact ⟨fun _ h => (nomatch h), fun _ _ _ h => (nomatch h)⟩
    | ok _ => exact ⟨fun _ h => (nomatch h), fun _ _ _ h => (nomatch h)⟩
  | check a t =>
    refine Script.ensures_bind.2 ((ensures_call_eq rfl
      (ensures_checkLockFence rfl rfl)).mono fun r g hr => ?_)
    cases r with
    | error e => exact ⟨fun _ h => (nomatch h), fun _ _ _ h => (nomatch h)⟩
    | ok b =>
      refine ⟨fun _ h => (nomatch h), fun a' t' hcall hflag => ?_⟩
      cases hcall.symm.trans hr.2
      cases hflag
      exact hr.1 rfl

end Programs

/-! The invariant. -/

/-- The leases that were won come before the one in the lock object, each under its own token; an
instance remembers what it won; a call has read what came before what is there now. -/
structure LeaseSound {A τ ι : Type} (etag : Nat → LeasePayload → τ) (w : LeaseWorld A)
    (ghosts : ι → LeaseGhost A τ) : Prop where
  won : ∀ j h, (ghosts j).won = some h → ∃ h', w.holder = some h' ∧ h.Before h'
  unique : ∀ i j h h', (ghosts i).won = some h → (ghosts j).won = some h' →
    h.fencingToken = h'.fencingToken → i = j
  memory : ∀ a h, w.memory a = some h → ∃ j, (ghosts j).call.caller = a ∧ (ghosts j).won = some h
  held : ∀ i h, (ghosts i).held = some h →
    ∃ j, (ghosts j).call.caller = (ghosts i).call.caller ∧ (ghosts j).won = some h
  tag : ∀ i t, (ghosts i).tag = some t → ∃ n x h, etag n x = t ∧ w.holder = some h ∧
    x.holder.Before h ∧ ∀ c, (ghosts i).got = some c → x.holder.Before c.holder ∧ c.holder.Before h

/-- What a call has read came before what is there now. -/
def LeaseGhost.Read {A τ : Type} (etag : Nat → LeasePayload → τ) (w : LeaseWorld A)
    (g : LeaseGhost A τ) : Prop :=
  ∀ t, g.tag = some t → ∃ n x h, etag n x = t ∧ w.holder = some h ∧ x.holder.Before h ∧
    ∀ c, g.got = some c → x.holder.Before c.holder ∧ c.holder.Before h

section Invariant

variable {A τ ι : Type} {etag : Nat → LeasePayload → τ} {w : LeaseWorld A}
  {ghosts : ι → LeaseGhost A τ} {i : ι}

namespace LeaseSound

theorem congr (h : LeaseSound etag w ghosts) {w' : LeaseWorld A} (hobject : w'.object = w.object)
    (hmemory : w'.memory = w.memory) :
    LeaseSound etag w' ghosts := by
  have hholder : w'.holder = w.holder := by rw [LeaseWorld.holder,LeaseWorld.holder,hobject]
  refine ⟨?_,h.unique,?_,h.held,?_⟩
  · rw [hholder]
    exact h.won
  · rw [hmemory]
    exact h.memory
  · rw [hholder]
    exact h.tag

theorem write (h : LeaseSound etag w ghosts) {payload : LeasePayload}
    (hbefore : ∀ l, w.holder = some l → l.Before payload.holder) :
    LeaseSound etag (w.write payload) ghosts := by
  refine ⟨?_,h.unique,h.memory,h.held,?_⟩
  · intro j l hl
    obtain ⟨l',hl',hb⟩ := h.won j l hl
    exact ⟨_, rfl, hb.trans (hbefore l' hl')⟩
  · intro j t ht
    obtain ⟨n,x,l,hx,hl,hb,hgot⟩ := h.tag j t ht
    exact ⟨n, x, _, hx, rfl, hb.trans (hbefore l hl), fun c hc =>
      ⟨(hgot c hc).1, (hgot c hc).2.trans (hbefore l hl)⟩⟩

theorem update_current (h : LeaseSound etag w ghosts)
    (hetag : ∀ n n' x x', etag n x = etag n' x' → x = x') {t : τ} {content current : LeasePayload}
    {n : Nat} (htag : (ghosts i).tag = some t) (hgot : (ghosts i).got = some content)
    (hobject : w.object = some (current, n)) (hcond : etag n current = t) :
    content.holder = current.holder := by
  obtain ⟨n',x,l,hx,hl,-,hbefore⟩ := h.tag i t htag
  have hcurrent : current = x := hetag n n' current x (hcond.trans hx.symm)
  have hl' : l = current.holder := by
    rw [LeaseWorld.holder,hobject] at hl
    exact (Option.some.inj hl).symm
  obtain ⟨hxc,hcl⟩ := hbefore content hgot
  rw [hl'] at hcl
  rw [← hcurrent] at hxc
  exact hcl.antisymm hxc

variable [DecidableEq ι]

theorem ghost (h : LeaseSound etag w ghosts) {g : LeaseGhost A τ} (hcall : g.call = (ghosts i).call)
    (hwon : g.won = (ghosts i).won)
    (hheld : ∀ l, g.held = some l →
      ∃ j, (ghosts j).call.caller = (ghosts i).call.caller ∧ (ghosts j).won = some l)
    (htag : g.Read etag w) :
    LeaseSound etag w (Function.update ghosts i g) := by
  have hcall' : ∀ j, (Function.update ghosts i g j).call = (ghosts j).call :=
    (forall_update_iff ghosts fun j g => g.call = (ghosts j).call).2 ⟨hcall, fun _ _ => rfl⟩
  have hwon' : ∀ j, (Function.update ghosts i g j).won = (ghosts j).won :=
    (forall_update_iff ghosts fun j g => g.won = (ghosts j).won).2 ⟨hwon, fun _ _ => rfl⟩
  have hheld' : ∀ k l, (Function.update ghosts i g k).held = some l →
      ∃ j, (ghosts j).call.caller = (ghosts k).call.caller ∧ (ghosts j).won = some l :=
    (forall_update_iff ghosts fun k g => ∀ l, g.held = some l →
      ∃ j, (ghosts j).call.caller = (ghosts k).call.caller ∧ (ghosts j).won = some l).2
      ⟨hheld, fun k _ => h.held k⟩
  have htag' : ∀ j, (Function.update ghosts i g j).Read etag w :=
    (forall_update_iff ghosts fun _ g => g.Read etag w).2 ⟨htag, fun j _ => h.tag j⟩
  refine ⟨?_,?_,?_,?_,htag'⟩
  · intro j l hl
    rw [hwon'] at hl
    exact h.won j l hl
  · intro j k l l' hl hl'
    rw [hwon'] at hl hl'
    exact h.unique j k l l' hl hl'
  · intro a l hl
    obtain ⟨j,hj,hl⟩ := h.memory a l hl
    exact ⟨j, by rw [hcall',hj], by rw [hwon',hl]⟩
  · intro k l hl
    obtain ⟨j,hj,hl⟩ := hheld' k l hl
    exact ⟨j, by rw [hcall',hcall',hj], by rw [hwon',hl]⟩

theorem win (h : LeaseSound etag w ghosts) {l : HeldLock} (hholder : w.holder = some l)
    (hnone : (ghosts i).won = none)
    (hlt : ∀ j l', (ghosts j).won = some l' → l'.fencingToken < l.fencingToken) :
    LeaseSound etag w (Function.update ghosts i { ghosts i with won := some l }) := by
  -- whoever had won keeps the win
  have hkeep {j : ι} {l' : HeldLock} (hj : (ghosts j).won = some l') :
      (Function.update ghosts i { ghosts i with won := some l } j).won = some l' := by
    have hne : j ≠ i := by
      rintro rfl
      rw [hnone] at hj
      cases hj
    rw [update_of_ne hne,hj]
  have hcall : ∀ j, (Function.update ghosts i { ghosts i with won := some l } j).call =
      (ghosts j).call :=
    (forall_update_iff ghosts fun j g => g.call = (ghosts j).call).2 ⟨rfl, fun _ _ => rfl⟩
  have hheld : ∀ j, (Function.update ghosts i { ghosts i with won := some l } j).held =
      (ghosts j).held :=
    (forall_update_iff ghosts fun j g => g.held = (ghosts j).held).2 ⟨rfl, fun _ _ => rfl⟩
  have htag : ∀ j, (Function.update ghosts i { ghosts i with won := some l } j).Read etag w :=
    (forall_update_iff ghosts fun _ g => g.Read etag w).2 ⟨h.tag i, fun j _ => h.tag j⟩
  refine ⟨?_,?_,?_,?_,htag⟩
  · intro j l' hl'
    by_cases hj : j = i
    · subst hj
      rw [update_self] at hl'
      cases hl'
      exact ⟨l, hholder, .refl l⟩
    · rw [update_of_ne hj] at hl'
      exact h.won j l' hl'
  · intro j k l₁ l₂ h₁ h₂ heq
    by_cases hj : j = i <;> by_cases hk : k = i
    · rw [hj,hk]
    · subst hj
      rw [update_self] at h₁
      rw [update_of_ne hk] at h₂
      cases h₁
      exact absurd heq (Nat.ne_of_gt (hlt k l₂ h₂))
    · subst hk
      rw [update_self] at h₂
      rw [update_of_ne hj] at h₁
      cases h₂
      exact absurd heq (Nat.ne_of_lt (hlt j l₁ h₁))
    · rw [update_of_ne hj] at h₁
      rw [update_of_ne hk] at h₂
      exact h.unique j k l₁ l₂ h₁ h₂ heq
  · intro a l' hl'
    obtain ⟨j,hj,hl'⟩ := h.memory a l' hl'
    exact ⟨j, by rw [hcall,hj], hkeep hl'⟩
  · intro k l' hl'
    rw [hheld] at hl'
    obtain ⟨j,hj,hl'⟩ := h.held k l' hl'
    exact ⟨j, by rw [hcall,hcall,hj], hkeep hl'⟩

end LeaseSound

/-- A put that may be carried out: the lease goes on, and an acquisition takes a new token. -/
structure PutSound (w : LeaseWorld A) (ghosts : ι → LeaseGhost A τ) (i : ι) (payload : LeasePayload) :
    Prop where
  before : ∀ l, w.holder = some l → l.Before payload.holder
  fresh : ∀ a, (ghosts i).call = .acquire a →
    ∀ j l, (ghosts j).won = some l → l.fencingToken < payload.fence

namespace LeaseSound

variable {payload : LeasePayload}

theorem create (h : LeaseSound etag w ghosts) (hallows : (ghosts i).Allows (.create payload))
    (hobject : w.object = none) : PutSound w ghosts i payload := by
  have hnone : w.holder = none := by rw [LeaseWorld.holder,hobject,Option.map_none]
  obtain ⟨-,-,hfence⟩ := hallows
  refine ⟨?_,?_⟩
  · intro l hl
    rw [hnone] at hl
    cases hl
  · intro _ _ j l hl
    obtain ⟨l',hl',-⟩ := h.won j l hl
    rw [hnone] at hl'
    cases hl'

theorem update (h : LeaseSound etag w ghosts) (hetag : ∀ n n' x x', etag n x = etag n' x' → x = x')
    (hmax : w.BelowMax) {t : τ} {current : LeasePayload} {n : Nat}
    (hallows : (ghosts i).Allows (.update t payload)) (hobject : w.object = some (current, n))
    (hcond : etag n current = t) : PutSound w ghosts i payload := by
  obtain ⟨htag,-,content,hgot,hcontinues⟩ := hallows
  have hcontent := h.update_current hetag htag hgot hobject hcond
  have hholder : w.holder = some current.holder := by rw [LeaseWorld.holder,hobject,Option.map_some]
  have hfence : content.fence = current.fence := congrArg HeldLock.fencingToken hcontent
  have hlt : current.fence < 2 ^ 64 - 1 := hmax _ hholder
  have hwon (j : ι) (l : HeldLock) (hl : (ghosts j).won = some l) :
      l.fencingToken ≤ current.fence := by
    obtain ⟨l',hl',hb⟩ := h.won j l hl
    rw [hholder] at hl'
    cases hl'
    exact hb.le
  unfold LeaseGhost.Continues at hcontinues
  split at hcontinues
  · -- the token after the one that was read, which no acquisition has had
    have hnext : payload.fence = current.fence + 1 := by
      rw [hcontinues,nextFence,hfence]
      omega
    refine ⟨?_,?_⟩
    · intro l hl
      rw [hholder] at hl
      cases hl
      exact .inr (by change current.fence < payload.fence; omega)
    · intro _ _ j l hl
      have := hwon j l hl
      omega
  all_goals
    rename_i hcall
    try exact hcontinues.elim
  all_goals
    have hsame : payload.holder = current.holder := hcontinues.1.trans hcontent
    refine ⟨?_,?_⟩
    · intro l hl
      rw [hholder] at hl
      cases hl
      exact .inl hsame.symm
    · intro a ha
      rw [hcall] at ha
      cases ha

variable [DecidableEq ι]

theorem idle (h : LeaseSound etag w ghosts) :
    LeaseSound etag w (Function.update ghosts i (ghosts i)) := by
  rw [update_eq_self]
  exact h

theorem put (h : LeaseSound etag w ghosts) (hput : PutSound w ghosts i payload)
    (hwon : (ghosts i).won = none) (e : LeaseStep) :
    LeaseSound etag (w.put e payload).2 (Function.update ghosts i
      (if (w.put e payload).1 = .ok then (ghosts i).wrote payload else ghosts i)) := by
  have hwrite := h.write hput.before
  unfold LeaseWorld.put
  split
  · exact h.idle
  · split
    · exact hwrite.idle
    · rw [if_pos rfl]
      by_cases hcall : ∃ a, (ghosts i).call = .acquire a
      · obtain ⟨a,hcall⟩ := hcall
        have hwrote : (ghosts i).wrote payload = { ghosts i with won := some payload.holder } := by
          simp only [LeaseGhost.wrote,hcall]
        rw [hwrote]
        exact hwrite.win rfl hwon (hput.fresh a hcall)
      · rw [LeaseGhost.wrote_of_ne (fun a ha => hcall ⟨a,ha⟩),update_eq_self]
        exact hwrite

theorem put_ne_notFound (w : LeaseWorld A) (e : LeaseStep) (payload : LeasePayload) :
    (w.put e payload).1 ≠ .notFound := by
  unfold LeaseWorld.put
  split
  · exact nofun
  · split
    · exact nofun
    · exact nofun

variable [DecidableEq A] [DecidableEq τ] (pid : A → Nat)

omit [DecidableEq ι] [DecidableEq τ] in
theorem memorize (h : LeaseSound etag w ghosts) {a : A} {held : Option HeldLock}
    (hheld : ∀ l, held = some l → ∃ j, (ghosts j).call.caller = a ∧ (ghosts j).won = some l) :
    LeaseSound etag { w with memory := Function.update w.memory a held } ghosts :=
  ⟨h.won, h.unique, (forall_update_iff w.memory fun b held => ∀ l, held = some l →
    ∃ j, (ghosts j).call.caller = b ∧ (ghosts j).won = some l).2 ⟨hheld, fun b _ => h.memory b⟩,
    h.held, h.tag⟩

theorem answer (h : LeaseSound etag w ghosts)
    (hetag : ∀ n n' x x', etag n x = etag n' x' → x = x') (hmax : w.BelowMax)
    {op : LeaseOp A τ} (hallows : (ghosts i).Allows op) (e : LeaseStep) :
    (ghosts i).Expects op (w.answer pid etag e op).1 ∧
      LeaseSound etag (w.answer pid etag e op).2
        (Function.update ghosts i ((ghosts i).track op (w.answer pid etag e op).1)) := by
  cases op with
  | lockToken a =>
    have hcongr : LeaseSound etag (w.answer pid etag e (.lockToken a)).2 ghosts := h.congr rfl rfl
    exact ⟨trivial,hcongr.idle⟩
  | nowMs => exact ⟨trivial,h.idle⟩
  | head =>
    refine ⟨trivial,?_⟩
    simp only [LeaseWorld.answer]
    split
    · exact h.idle
    · split
      · exact h.idle
      · rename_i content n hobject
        refine h.ghost rfl rfl (h.held i) fun t ht => ?_
        cases ht
        refine ⟨n, content, content.holder, rfl, ?_, .refl _, fun c hc => nomatch hc⟩
        rw [LeaseWorld.holder,hobject,Option.map_some]
  | get =>
    refine ⟨trivial,?_⟩
    simp only [LeaseWorld.answer]
    split
    · exact h.idle
    · split
      · exact h.idle
      · rename_i content n hobject
        refine h.ghost rfl rfl (h.held i) fun t ht => ?_
        obtain ⟨n',x,l,hx,hl,hb,-⟩ := h.tag i t ht
        refine ⟨n', x, l, hx, hl, hb, fun c hc => ?_⟩
        cases hc
        have hcontent : l = content.holder := by
          rw [LeaseWorld.holder,hobject] at hl
          exact (Option.some.inj hl).symm
        rw [← hcontent]
        exact ⟨hb, .refl l⟩
  | create payload =>
    refine ⟨trivial,?_⟩
    rw [LeaseGhost.track_create]
    cases hobject : w.object with
    | none =>
      simp only [LeaseWorld.answer,hobject]
      exact h.put (h.create hallows hobject) hallows.2.1 e
    | some current =>
      have hreply : (if e.fails = true then PutReply.error else .conflict) ≠ .ok := by
        split <;> decide
      simp only [LeaseWorld.answer,hobject]
      rw [if_neg hreply]
      exact h.idle
  | update t payload =>
    rw [LeaseGhost.track_update]
    cases hobject : w.object with
    | none =>
      -- the object that the call has seen is still there
      obtain ⟨n,x,l,-,hl,-⟩ := h.tag i t hallows.1
      rw [LeaseWorld.holder,hobject] at hl
      cases hl
    | some object =>
      obtain ⟨current,n⟩ := object
      by_cases hcond : etag n current = t
      · simp only [LeaseWorld.answer,hobject,if_pos hcond]
        refine ⟨?_, h.put (h.update hetag hmax hallows hobject hcond) hallows.2.1 e⟩
        exact put_ne_notFound w e payload
      · simp only [LeaseWorld.answer,hobject,if_neg hcond]
        refine ⟨?_,?_⟩
        · change (if e.fails = true then PutReply.error else .conflict) ≠ .notFound
          split <;> decide
        · have hreply : (if e.fails = true then PutReply.error else .conflict) ≠ .ok := by
            split <;> decide
          rw [if_neg hreply]
          exact h.idle
  | remember a held =>
    refine ⟨trivial, (h.memorize fun l hl => ?_).idle⟩
    cases hl
    exact ⟨i,hallows.1.symm,hallows.2⟩
  | remembered a =>
    refine ⟨trivial,?_⟩
    refine h.ghost rfl rfl (fun l hl => ?_) (h.tag i)
    obtain ⟨j,hj,hl⟩ := h.memory a l hl
    exact ⟨j, hj.trans hallows.1, hl⟩
  | forget a => exact ⟨trivial, (h.memorize fun _ (hl : none = some _) => nomatch hl).idle⟩

end LeaseSound
end Invariant
end AiLake
