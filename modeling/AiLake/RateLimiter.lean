import AiLake.FixedWindow
import Mathlib.Data.Option.Basic
import Mathlib.Logic.Function.Basic
import Mathlib.Algebra.Group.Nat.Defs

/-! `RateLimiter` of the cache crate without Redis: counters of calls in fixed windows, by token and
by address. Times are in nanoseconds. -/
namespace AiLake

open FixedWindow List Function

inductive RateLimitClass where
  | search
  | write
  deriving DecidableEq, Repr

structure RateLimitConfig where
  window : Nat
  searchPerToken : UInt64
  writePerToken : UInt64
  searchPerIp : UInt64
  writePerIp : UInt64
  deriving DecidableEq, Repr

inductive RateLimitError where
  | configuration (message : String)
  deriving DecidableEq, Repr

/-- A limiter that `new` accepted, with the hash that its keys are made with. -/
structure RateLimiter where
  config : RateLimitConfig
  digest : String → String
  window_pos : 0 < config.window

def RateLimiter.new (config : RateLimitConfig) (digest : String → String) :
    Except RateLimitError RateLimiter :=
  if h : config.window = 0 then .error (.configuration "window must be greater than zero")
  else .ok ⟨config, digest, Nat.pos_of_ne_zero h⟩

structure LocalRateWindow where
  started : Nat
  count : Nat
  deriving DecidableEq, Repr

structure RateLimitDecision where
  allowed : Bool
  retryAfterSecs : Nat
  dimension : Option String
  deriving DecidableEq, Repr

/-- The windows by key, and the totals of `stats`. -/
structure RateState where
  windows : String → Option LocalRateWindow
  allowedTotal : Nat
  limitedTotal : Nat

def RateState.empty : RateState := ⟨fun _ => none, 0, 0⟩

structure RateCall where
  cls : RateLimitClass
  token : Option String
  ip : Option String
  now : Nat
  deriving DecidableEq, Repr

def maxU64 : Nat := 2 ^ 64 - 1

namespace RateLimiter

variable (limiter : RateLimiter)

def limits : RateLimitClass → UInt64 × UInt64
  | .search => (limiter.config.searchPerToken, limiter.config.searchPerIp)
  | .write => (limiter.config.writePerToken, limiter.config.writePerIp)

/-- The counter of one kind of identity, where it has a limit. -/
def dimension (kind : String) (name : Option String) (limit : UInt64) : List (String × UInt64) :=
  if 0 < limit then
    match name with
    | some name => [(kind ++ limiter.digest name, limit)]
    | none => []
  else []

def dimensions (c : RateCall) : List (String × UInt64) :=
  limiter.dimension "token:" c.token (limiter.limits c.cls).1 ++
    limiter.dimension "ip:" c.ip (limiter.limits c.cls).2

/- `state.retain`: windows that are over are dropped. -/
def retain (now : Nat) (windows : String → Option LocalRateWindow) :
    String → Option LocalRateWindow :=
  fun key => (windows key).filter fun w => now - w.started < limiter.config.window

def counted (now : Nat) (window : Option LocalRateWindow) : LocalRateWindow :=
  let w := window.getD ⟨now, 0⟩
  let w := if limiter.config.window ≤ now - w.started then ⟨now, 0⟩ else w
  { w with count := min (w.count + 1) maxU64 }

/-- The loop over the counters. The key that exceeds its limit last is reported. -/
def countAll (now : Nat) : (String → Option LocalRateWindow) → List (String × UInt64) → Option String →
    (String → Option LocalRateWindow) × Option String
  | windows, [], denied => (windows, denied)
  | windows, (key, limit) :: rest, denied =>
    let w := limiter.counted now (windows key)
    countAll now (update windows key (some w)) rest
      (if limit.toNat < w.count then some key else denied)

def check (state : RateState) (c : RateCall) : RateLimitDecision × RateState :=
  match limiter.dimensions c with
  | [] => (⟨true, 0, none⟩, { state with allowedTotal := (state.allowedTotal + 1) % 2 ^ 64 })
  | dims =>
    match limiter.countAll c.now (limiter.retain c.now state.windows) dims none with
    | (windows, some key) =>
      (⟨false, max (limiter.config.window / 10 ^ 9) 1, some key⟩,
        { state with windows := windows, limitedTotal := (state.limitedTotal + 1) % 2 ^ 64 })
    | (windows, none) =>
      (⟨true, 0, none⟩,
        { state with windows := windows, allowedTotal := (state.allowedTotal + 1) % 2 ^ 64 })

def checks : RateState → List RateCall → List (RateCall × RateLimitDecision)
  | _, [] => []
  | state, c :: rest => (c, (limiter.check state c).1) :: checks (limiter.check state c).2 rest

def after (state : RateState) (calls : List RateCall) : RateState :=
  calls.foldl (fun s c => (limiter.check s c).2) state

end RateLimiter

/-! What the quotas say, without keys and counters. -/

inductive RateDimension where
  | token
  | ip
  deriving DecidableEq, Repr

def RateCall.identity (c : RateCall) : RateDimension → Option String
  | .token => c.token
  | .ip => c.ip

namespace RateLimiter

variable (limiter : RateLimiter)

def limit (d : RateDimension) (cls : RateLimitClass) : Nat :=
  match d with
  | .token => (limiter.limits cls).1.toNat
  | .ip => (limiter.limits cls).2.toNat

/-- The call is one of this identity, whose class has a quota there. A limit of zero is none. -/
def Quota (d : RateDimension) (name : String) (c : RateCall) : Prop :=
  c.identity d = some name ∧ 0 < limiter.limit d c.cls

instance (d : RateDimension) (name : String) (c : RateCall) : Decidable (limiter.Quota d name c) :=
  inferInstanceAs (Decidable (_ ∧ _))

def callsOf {α : Type} (call : α → RateCall) (d : RateDimension) (name : String) (entries : List α) :
    List (Nat × α) :=
  (entries.filter fun e => limiter.Quota d name (call e)).map fun e => ((call e).now, e)

def windowOf {α : Type} (call : α → RateCall) (d : RateDimension) (name : String) (entries : List α)
    (now : Nat) : List α :=
  current limiter.config.window (limiter.callsOf call d name entries) now

/-- A call is denied only if the quota of its own class is used up for the token or the address, and
no class gets more calls in a window than its quota. -/
structure QuotasExact (trace : List (RateCall × RateLimitDecision)) : Prop where
  denied : ∀ before c decision after, trace = before ++ (c, decision) :: after →
    decision.allowed = false → ∃ d name, limiter.Quota d name c ∧
      limiter.limit d c.cls ≤
        ((limiter.windowOf Prod.fst d name before c.now).filter (·.1.cls = c.cls)).length
  allowed : ∀ before c decision after, trace = before ++ (c, decision) :: after →
    ∀ d name, limiter.Quota d name c →
      ((limiter.windowOf Prod.fst d name (before ++ [(c, decision)]) c.now).filter fun e =>
        e.1.cls = c.cls ∧ e.2.allowed).length ≤ limiter.limit d c.cls

/-- Where the calls of both classes reach the quota of a call's class, so do those of that class
alone, for one of the two identities. -/
def QuotasApart (calls : List RateCall) : Prop :=
  ∀ before c after, calls = before ++ c :: after →
    (∃ d name, limiter.Quota d name c ∧
      limiter.limit d c.cls ≤ (limiter.windowOf id d name before c.now).length) →
    ∃ d name, limiter.Quota d name c ∧
      limiter.limit d c.cls ≤
        ((limiter.windowOf id d name before c.now).filter (·.cls = c.cls)).length

/-- The hash tells the names in the calls apart. -/
def DigestsApart (calls : List RateCall) : Prop :=
  ∀ c ∈ calls, ∀ c' ∈ calls, ∀ d d' name name', c.identity d = some name →
    c'.identity d' = some name' → limiter.digest name = limiter.digest name' → name = name'

def key (d : RateDimension) (name : String) : String :=
  match d with
  | .token => "token:" ++ limiter.digest name
  | .ip => "ip:" ++ limiter.digest name

variable {limiter}

theorem limit_le (d : RateDimension) (cls : RateLimitClass) : limiter.limit d cls ≤ maxU64 := by
  cases d with
  | token => exact Nat.le_of_lt_succ (limiter.limits cls).1.toNat_lt
  | ip => exact Nat.le_of_lt_succ (limiter.limits cls).2.toNat_lt

theorem token_ne_ip (a b : String) : "token:" ++ a ≠ "ip:" ++ b := by
  intro h
  have hlist := congrArg String.toList h
  rw [String.toList_append,String.toList_append] at hlist
  have htoken : "token:".toList = ['t','o','k','e','n',':'] := by decide
  have hip : "ip:".toList = ['i','p',':'] := by decide
  simp [htoken,hip] at hlist

theorem key_inj {d d' : RateDimension} {name name' : String}
    (h : limiter.key d name = limiter.key d' name') :
    d = d' ∧ limiter.digest name = limiter.digest name' := by
  cases d <;> cases d' <;> simp only [key] at h
  · exact ⟨rfl, (String.append_right_inj _).1 h⟩
  · exact absurd h (token_ne_ip _ _)
  · exact absurd h.symm (token_ne_ip _ _)
  · exact ⟨rfl, (String.append_right_inj _).1 h⟩

theorem mem_dimension {kind : String} {name : Option String} {limit : UInt64} {p : String × UInt64} :
    p ∈ limiter.dimension kind name limit ↔
      ∃ n, name = some n ∧ 0 < limit ∧ p = (kind ++ limiter.digest n, limit) := by
  unfold dimension
  split
  · rename_i hpos
    cases name <;> simp [hpos]
  · rename_i hpos
    simp [hpos]

theorem toNat_pos {x : UInt64} : 0 < x.toNat ↔ 0 < x := by
  rw [UInt64.lt_iff_toNat_lt]
  rfl

theorem mem_dimensions {c : RateCall} {p : String × UInt64} :
    p ∈ limiter.dimensions c ↔ ∃ d name, limiter.Quota d name c ∧
      p.1 = limiter.key d name ∧ p.2.toNat = limiter.limit d c.cls := by
  rw [dimensions,mem_append,mem_dimension,mem_dimension]
  constructor
  · rintro (⟨name,hname,hpos,rfl⟩ | ⟨name,hname,hpos,rfl⟩)
    · exact ⟨.token, name, ⟨hname, toNat_pos.2 hpos⟩, rfl, rfl⟩
    · exact ⟨.ip, name, ⟨hname, toNat_pos.2 hpos⟩, rfl, rfl⟩
  · rintro ⟨d,name,⟨hname,hpos⟩,hkey,hlimit⟩
    cases d with
    | token =>
      exact .inl ⟨name, hname, toNat_pos.1 hpos, Prod.ext hkey (UInt64.toNat_inj.1 hlimit)⟩
    | ip => exact .inr ⟨name, hname, toNat_pos.1 hpos, Prod.ext hkey (UInt64.toNat_inj.1 hlimit)⟩

theorem nodup_dimensions (c : RateCall) : ((limiter.dimensions c).map Prod.fst).Nodup := by
  have hone (kind : String) (name : Option String) (limit : UInt64) :
      ((limiter.dimension kind name limit).map Prod.fst).Nodup := by
    unfold dimension
    split
    · cases name <;> simp
    · simp
  rw [dimensions,map_append,nodup_append]
  refine ⟨hone _ _ _, hone _ _ _, fun a ha b hb hab => ?_⟩
  obtain ⟨p,hp,rfl⟩ := mem_map.1 ha
  obtain ⟨q,hq,rfl⟩ := mem_map.1 hb
  obtain ⟨n,-,-,rfl⟩ := mem_dimension.1 hp
  obtain ⟨n',-,-,rfl⟩ := mem_dimension.1 hq
  exact token_ne_ip _ _ hab

section Loop

variable {now : Nat} {dims : List (String × UInt64)}

theorem windows_countAll (hn : (dims.map Prod.fst).Nodup)
    (windows : String → Option LocalRateWindow) (denied : Option String) (key : String) :
    (limiter.countAll now windows dims denied).1 key =
      if key ∈ dims.map Prod.fst then some (limiter.counted now (windows key)) else windows key := by
  induction dims generalizing windows denied with
  | nil => rfl
  | cons p rest ih =>
    obtain ⟨k,limit⟩ := p
    rw [map_cons,nodup_cons] at hn
    rw [countAll,ih hn.2,map_cons]
    by_cases hkey : key = k
    · subst hkey
      rw [if_neg hn.1,update_self,if_pos mem_cons_self]
    · rw [update_of_ne hkey]
      by_cases hmem : key ∈ rest.map Prod.fst
      · rw [if_pos hmem,if_pos (mem_cons_of_mem _ hmem)]
      · rw [if_neg hmem,if_neg (by simp only [mem_cons,not_or]; exact ⟨hkey,hmem⟩)]

theorem denied_countAll (hn : (dims.map Prod.fst).Nodup)
    (windows : String → Option LocalRateWindow) (denied : Option String) :
    (limiter.countAll now windows dims denied).2.isSome = true ↔ denied.isSome = true ∨
      ∃ p ∈ dims, p.2.toNat < (limiter.counted now (windows p.1)).count := by
  induction dims generalizing windows denied with
  | nil => simp [countAll]
  | cons p rest ih =>
    obtain ⟨k,limit⟩ := p
    rw [map_cons,nodup_cons] at hn
    have hrest : ∀ q ∈ rest, update windows k (some (limiter.counted now (windows k))) q.1 =
        windows q.1 := by
      intro q hq
      refine update_of_ne (fun he => hn.1 ?_) _ _
      have hmem := mem_map_of_mem (f := Prod.fst) hq
      rwa [he] at hmem
    have hexists : (∃ q ∈ rest, q.2.toNat < (limiter.counted now
        (update windows k (some (limiter.counted now (windows k))) q.1)).count) ↔
          ∃ q ∈ rest, q.2.toNat < (limiter.counted now (windows q.1)).count := by
      constructor
      · rintro ⟨q,hq,hlt⟩
        rw [hrest q hq] at hlt
        exact ⟨q,hq,hlt⟩
      · rintro ⟨q,hq,hlt⟩
        rw [← hrest q hq] at hlt
        exact ⟨q,hq,hlt⟩
    rw [countAll,ih hn.2,hexists]
    simp only [mem_cons,exists_eq_or_imp]
    by_cases hlt : limit.toNat < (limiter.counted now (windows k)).count <;> simp [hlt]

end Loop

/-! The counters of the limiter are the windows of the identities. -/

section Windows

variable {α : Type} {call : α → RateCall} {d : RateDimension} {name : String}

theorem callsOf_snoc (entries : List α) (e : α) :
    limiter.callsOf call d name (entries ++ [e]) =
      if limiter.Quota d name (call e) then
        limiter.callsOf call d name entries ++ [((call e).now, e)]
      else limiter.callsOf call d name entries := by
  rw [callsOf,filter_append,map_append]
  by_cases hq : limiter.Quota d name (call e) <;> simp [callsOf,hq]

theorem windowOf_map (entries : List α) (now : Nat) :
    limiter.windowOf id d name (entries.map call) now =
      (limiter.windowOf call d name entries now).map call := by
  have hcalls : limiter.callsOf id d name (entries.map call) =
      (limiter.callsOf call d name entries).map fun e => (e.1, call e.2) := by
    simp only [callsOf,filter_map,map_map]
    rfl
  rw [windowOf,windowOf,hcalls,current_map]

/-- What the limiter keeps for an identity, up to a time: its last window with the count, or nothing
once that window is over. -/
def Keeps (limiter : RateLimiter) (d : RateDimension) (name : String) (calls : List RateCall)
    (now : Nat) (window : Option LocalRateWindow) : Prop :=
  match window with
  | some w => ∃ events, last limiter.config.window (limiter.callsOf id d name calls) =
      some ⟨w.started, events⟩ ∧ w.count = min events.length maxU64
  | none => ∀ w, last limiter.config.window (limiter.callsOf id d name calls) = some w →
      limiter.config.window ≤ now - w.started

variable {calls : List RateCall} {now now' : Nat} {window : Option LocalRateWindow}

theorem Keeps.mono (h : Keeps limiter d name calls now window) (hle : now ≤ now') :
    Keeps limiter d name calls now' window := by
  cases window with
  | some w => exact h
  | none =>
    intro w hw
    have := h w hw
    omega

theorem Keeps.retain (h : Keeps limiter d name calls now window) :
    Keeps limiter d name calls now
      (window.filter fun w => now - w.started < limiter.config.window) := by
  cases window with
  | none => exact h
  | some w =>
    by_cases hopen : now - w.started < limiter.config.window
    · rw [Option.filter_some,if_pos (by simpa using hopen)]
      exact h
    · rw [Option.filter_some,if_neg (by simpa using hopen)]
      obtain ⟨events,hlast,-⟩ := h
      intro w' hw'
      rw [hlast] at hw'
      cases hw'
      exact Nat.le_of_not_lt hopen

theorem Keeps.counted (h : Keeps limiter d name calls now window) {c : RateCall}
    (hq : limiter.Quota d name c) (hnow : c.now = now) :
    Keeps limiter d name (calls ++ [c]) now (some (limiter.counted now window)) ∧
      (limiter.counted now window).count =
        min ((limiter.windowOf id d name calls now).length + 1) maxU64 := by
  subst hnow
  have hspan := limiter.window_pos
  have hlast : last limiter.config.window (limiter.callsOf id d name (calls ++ [c])) =
      some (add limiter.config.window (last limiter.config.window (limiter.callsOf id d name calls))
        c.now c) := by
    rw [callsOf_snoc]
    simp only [id_eq,if_pos hq]
    exact last_snoc ..
  -- the start and the count of the entry are those of the window with the call added
  have hadd : ∃ n, limiter.counted c.now window = ⟨(add limiter.config.window
      (last limiter.config.window (limiter.callsOf id d name calls)) c.now c).started,
        min (n + 1) maxU64⟩ ∧ min (n + 1) maxU64 =
          min ((limiter.windowOf id d name calls c.now).length + 1) maxU64 := by
    rw [started_add,windowOf,current]
    cases window with
    | none =>
      refine ⟨0,?_,?_⟩
      · simp only [RateLimiter.counted,Option.getD_none,Nat.sub_self]
        rw [if_neg (by omega)]
        cases hw : last limiter.config.window (limiter.callsOf id d name calls) with
        | none => rfl
        | some w =>
          have := h w hw
          dsimp only
          rw [if_neg (by omega)]
      · cases hw : last limiter.config.window (limiter.callsOf id d name calls) with
        | none => rfl
        | some w =>
          have := h w hw
          dsimp only
          rw [if_neg (by omega)]
          rfl
    | some w =>
      obtain ⟨events,hw,hcount⟩ := h
      rw [hw]
      dsimp only
      by_cases hopen : c.now - w.started < limiter.config.window
      · refine ⟨w.count,?_,?_⟩
        · simp only [RateLimiter.counted,Option.getD_some]
          rw [if_neg (by omega),if_pos hopen]
        · rw [if_pos hopen,hcount]
          omega
      · refine ⟨0,?_,?_⟩
        · simp only [RateLimiter.counted,Option.getD_some]
          rw [if_pos (by omega),if_neg hopen]
        · rw [if_neg hopen]
          rfl
  obtain ⟨n,hwindow,hcount⟩ := hadd
  rw [hwindow]
  refine ⟨⟨(add limiter.config.window (last limiter.config.window
    (limiter.callsOf id d name calls)) c.now c).events, hlast, ?_⟩, hcount⟩
  rw [events_add,length_append,length_singleton]
  exact hcount

theorem Keeps.skip (h : Keeps limiter d name calls now window) {c : RateCall}
    (hq : ¬limiter.Quota d name c) : Keeps limiter d name (calls ++ [c]) now window := by
  have hcalls : limiter.callsOf id d name (calls ++ [c]) = limiter.callsOf id d name calls := by
    rw [callsOf_snoc]
    simp only [id_eq,if_neg hq]
  unfold Keeps at h ⊢
  rw [hcalls]
  exact h

end Windows

section Run

variable {calls : List RateCall} {c : RateCall} {state : RateState}

theorem windows_check (state : RateState) (c : RateCall) (hne : limiter.dimensions c ≠ [])
    (k : String) : (limiter.check state c).2.windows k =
      if k ∈ (limiter.dimensions c).map Prod.fst then
        some (limiter.counted c.now (limiter.retain c.now state.windows k))
      else limiter.retain c.now state.windows k := by
  rw [← windows_countAll (nodup_dimensions c) (limiter.retain c.now state.windows) none k]
  unfold check
  split
  · exact absurd ‹_› hne
  · split
    · rename_i h
      rw [h]
    · rename_i h
      rw [h]

theorem allowed_check (state : RateState) (c : RateCall) :
    (limiter.check state c).1.allowed = false ↔ ∃ d name, limiter.Quota d name c ∧
      limiter.limit d c.cls <
        (limiter.counted c.now (limiter.retain c.now state.windows (limiter.key d name))).count := by
  have hiff : (limiter.check state c).1.allowed = false ↔
      (limiter.countAll c.now (limiter.retain c.now state.windows) (limiter.dimensions c)
        none).2.isSome = true := by
    unfold check
    split
    · rename_i hnil
      rw [hnil]
      simp [countAll]
    · split
      · rename_i h
        rw [h]
        simp
      · rename_i h
        rw [h]
        simp
  rw [hiff,denied_countAll (nodup_dimensions c)]
  constructor
  · rintro (h | ⟨p,hp,hlt⟩)
    · cases h
    · obtain ⟨d,name,hq,hkey,hlimit⟩ := mem_dimensions.1 hp
      rw [hkey,hlimit] at hlt
      exact ⟨d,name,hq,hlt⟩
  · rintro ⟨d,name,hq,hlt⟩
    have hlimit : (UInt64.ofNat (limiter.limit d c.cls)).toNat = limiter.limit d c.cls :=
      UInt64.toNat_ofNat_of_lt' (Nat.lt_succ_of_le (limit_le d c.cls))
    refine .inr ⟨(limiter.key d name, UInt64.ofNat (limiter.limit d c.cls)),
      mem_dimensions.2 ⟨d,name,hq,rfl,hlimit⟩, ?_⟩
    rw [hlimit]
    exact hlt

theorem after_snoc (state : RateState) (calls : List RateCall) (c : RateCall) :
    limiter.after state (calls ++ [c]) = (limiter.check (limiter.after state calls) c).2 := by
  rw [after,foldl_append]
  rfl

theorem keeps_after {d : RateDimension} {name : String} (htimes : calls.Pairwise (·.now ≤ ·.now))
    (happart : ∀ c ∈ calls, ∀ d' name', c.identity d' = some name' →
      limiter.digest name' = limiter.digest name → name' = name)
    {now : Nat} (hnow : ∀ c ∈ calls, c.now ≤ now) :
    Keeps limiter d name calls now
      ((limiter.after .empty calls).windows (limiter.key d name)) := by
  induction calls using List.reverseRecOn generalizing now with
  | nil =>
    intro w hw
    cases hw
  | append_singleton calls c ih =>
    rw [pairwise_append] at htimes
    have hkeeps : Keeps limiter d name calls c.now
        ((limiter.after .empty calls).windows (limiter.key d name)) :=
      ih htimes.1 (fun c' hc' => happart c' (mem_append_left _ hc'))
        fun c' hc' => htimes.2.2 c' hc' c (mem_singleton_self c)
    refine Keeps.mono ?_ (hnow c (mem_append_right _ (mem_singleton_self c)))
    rw [after_snoc]
    have hmem : limiter.key d name ∈ (limiter.dimensions c).map Prod.fst ↔
        limiter.Quota d name c := by
      constructor
      · intro h
        obtain ⟨p,hp,hkey⟩ := mem_map.1 h
        obtain ⟨d',name',hq,hkey',-⟩ := mem_dimensions.1 hp
        obtain ⟨rfl,hdigest⟩ := key_inj (hkey'.symm.trans hkey)
        have := happart c (mem_append_right _ (mem_singleton_self c)) d' name' hq.1 hdigest
        exact this ▸ hq
      · intro hq
        have hlimit : (UInt64.ofNat (limiter.limit d c.cls)).toNat = limiter.limit d c.cls :=
          UInt64.toNat_ofNat_of_lt' (Nat.lt_succ_of_le (limit_le d c.cls))
        exact mem_map.2 ⟨(limiter.key d name, UInt64.ofNat (limiter.limit d c.cls)),
          mem_dimensions.2 ⟨d,name,hq,rfl,hlimit⟩, rfl⟩
    by_cases hnil : limiter.dimensions c = []
    · have hq : ¬limiter.Quota d name c := by
        rw [← hmem,hnil]
        exact not_mem_nil
      have hwindows : (limiter.check (limiter.after .empty calls) c).2.windows =
          (limiter.after .empty calls).windows := by
        simp only [check,hnil]
      rw [hwindows]
      exact hkeeps.skip hq
    · rw [windows_check _ _ hnil]
      by_cases hq : limiter.Quota d name c
      · rw [if_pos (hmem.2 hq)]
        exact (hkeeps.retain.counted hq rfl).1
      · rw [if_neg (mt hmem.1 hq)]
        exact hkeeps.retain.skip hq

/-- A call is denied exactly when the calls of both classes in a window have reached the limit. -/
theorem denied_iff {before : List RateCall} (htimes : (before ++ [c]).Pairwise (·.now ≤ ·.now))
    (happart : limiter.DigestsApart (before ++ [c])) (hlen : before.length + 1 < 2 ^ 64) :
    (limiter.check (limiter.after .empty before) c).1.allowed = false ↔
      ∃ d name, limiter.Quota d name c ∧
        limiter.limit d c.cls ≤ (limiter.windowOf id d name before c.now).length := by
  rw [pairwise_append] at htimes
  have hcount (d : RateDimension) (name : String) (hq : limiter.Quota d name c) :
      (limiter.counted c.now (limiter.retain c.now (limiter.after .empty before).windows
        (limiter.key d name))).count = (limiter.windowOf id d name before c.now).length + 1 := by
    have hkeeps : Keeps limiter d name before c.now
        ((limiter.after .empty before).windows (limiter.key d name)) :=
      keeps_after htimes.1
        (fun c' hc' d' name' hname' hdigest => happart c' (mem_append_left _ hc') c
          (mem_append_right _ (mem_singleton_self c)) d' d name' name hname' hq.1 hdigest)
        fun c' hc' => htimes.2.2 c' hc' c (mem_singleton_self c)
    have hle : (limiter.windowOf id d name before c.now).length ≤ before.length := by
      refine Nat.le_trans (length_current_le _ _ _) ?_
      rw [callsOf,length_map]
      exact length_filter_le _ _
    have hmin := (hkeeps.retain.counted hq rfl).2
    rw [RateLimiter.retain,hmin,maxU64]
    omega
  rw [allowed_check]
  constructor
  · rintro ⟨d,name,hq,hlt⟩
    rw [hcount d name hq] at hlt
    exact ⟨d, name, hq, Nat.le_of_lt_succ hlt⟩
  · rintro ⟨d,name,hq,hle⟩
    refine ⟨d,name,hq,?_⟩
    rw [hcount d name hq]
    exact Nat.lt_succ_of_le hle

theorem checks_append (state : RateState) (calls calls' : List RateCall) :
    limiter.checks state (calls ++ calls') =
      limiter.checks state calls ++ limiter.checks (limiter.after state calls) calls' := by
  induction calls generalizing state with
  | nil => rfl
  | cons c calls ih =>
    rw [cons_append,checks,checks,ih,cons_append]
    rfl

theorem map_fst_checks (state : RateState) (calls : List RateCall) :
    (limiter.checks state calls).map Prod.fst = calls := by
  induction calls generalizing state with
  | nil => rfl
  | cons c calls ih => rw [checks,map_cons,ih]

theorem windowOf_checks (d : RateDimension) (name : String) (calls : List RateCall) (now : Nat) :
    limiter.windowOf id d name calls now =
      (limiter.windowOf Prod.fst d name (limiter.checks .empty calls) now).map Prod.fst := by
  rw [← windowOf_map,map_fst_checks]

/-- A place in the trace is a place in the calls, with the answer that the limiter gives there. -/
theorem checks_eq_append {before after : List (RateCall × RateLimitDecision)}
    {decision : RateLimitDecision}
    (h : limiter.checks .empty calls = before ++ (c, decision) :: after) :
    calls = before.map Prod.fst ++ c :: after.map Prod.fst ∧
      before = limiter.checks .empty (before.map Prod.fst) ∧
      decision = (limiter.check (limiter.after .empty (before.map Prod.fst)) c).1 := by
  have hcalls : calls = before.map Prod.fst ++ c :: after.map Prod.fst := by
    rw [← map_fst_checks .empty calls,h,map_append,map_cons]
  rw [hcalls,checks_append,checks] at h
  have hlen : (limiter.checks .empty (before.map Prod.fst)).length = before.length := by
    rw [← length_map (f := Prod.fst),map_fst_checks,length_map]
  obtain ⟨hbefore,hrest⟩ := append_inj h hlen
  refine ⟨hcalls,hbefore.symm,?_⟩
  rw [List.cons.injEq,Prod.mk.injEq] at hrest
  exact hrest.1.2.symm

variable (htimes : calls.Pairwise (·.now ≤ ·.now)) (happart : limiter.DigestsApart calls)
  (hlen : calls.length < 2 ^ 64)

include htimes happart hlen

theorem denied_iff_of_append {before after : List RateCall} (h : calls = before ++ c :: after) :
    (limiter.check (limiter.after .empty before) c).1.allowed = false ↔
      ∃ d name, limiter.Quota d name c ∧
        limiter.limit d c.cls ≤ (limiter.windowOf id d name before c.now).length := by
  have hsplit : calls = (before ++ [c]) ++ after := by rw [h,append_assoc,singleton_append]
  have hsub : ∀ x ∈ before ++ [c], x ∈ calls := by
    intro x hx
    rw [hsplit]
    exact mem_append_left _ hx
  have htotal := congrArg List.length h
  rw [length_append,length_cons] at htotal
  refine denied_iff ?_ (fun x hx y hy => happart x (hsub x hx) y (hsub y hy)) (by omega)
  rw [hsplit,pairwise_append] at htimes
  exact htimes.1

theorem allowed_le {before after : List RateCall} (h : calls = before ++ after) (d : RateDimension)
    (name : String) (cls : RateLimitClass) (hlimit : 0 < limiter.limit d cls)
    {w : Window (RateCall × RateLimitDecision)}
    (hw : last limiter.config.window
      (limiter.callsOf Prod.fst d name (limiter.checks .empty before)) = some w) :
    (w.events.filter fun e => e.1.cls = cls ∧ e.2.allowed).length ≤ limiter.limit d cls := by
  induction before using List.reverseRecOn generalizing after w with
  | nil => cases hw
  | append_singleton before c ih =>
    have hsplit : calls = before ++ c :: after := by
      rw [h,append_assoc,singleton_append]
    have hdenied := denied_iff_of_append htimes happart hlen hsplit
    rw [checks_append,checks,checks,callsOf_snoc] at hw
    split at hw
    · rename_i hq
      rw [last_snoc,Option.some.injEq] at hw
      subst hw
      rw [events_add,filter_append,length_append]
      -- the calls of the open window were within the limit before
      have hopen : ((current limiter.config.window (limiter.callsOf Prod.fst d name
          (limiter.checks .empty before)) c.now).filter fun e => e.1.cls = cls ∧
            e.2.allowed).length ≤ limiter.limit d cls := by
        rw [current]
        split
        · exact Nat.zero_le _
        · rename_i w hlast
          split
          · exact ih hsplit hlast
          · exact Nat.zero_le _
      by_cases hthis : c.cls = cls ∧
          (limiter.check (limiter.after .empty before) c).1.allowed = true
      · obtain ⟨rfl,hallowed⟩ := hthis
        have hlt : (limiter.windowOf id d name before c.now).length < limiter.limit d c.cls := by
          by_contra hge
          have := hdenied.2 ⟨d, name, hq, Nat.le_of_not_lt hge⟩
          rw [hallowed] at this
          cases this
        rw [windowOf_checks,length_map,windowOf] at hlt
        have hfilter := length_filter_le (fun e : RateCall × RateLimitDecision =>
          decide (e.1.cls = c.cls ∧ e.2.allowed = true)) (current limiter.config.window
            (limiter.callsOf Prod.fst d name (limiter.checks .empty before)) c.now)
        simp only [filter_cons,filter_nil,hallowed,and_self,decide_true,if_true,
          length_singleton]
        omega
      · rw [filter_cons,if_neg (by simpa using hthis),filter_nil]
        exact hopen
    · exact ih hsplit hw

/-- The quotas are exact for a sequence of calls exactly when the calls keep them apart. -/
theorem checks_quotasExact_iff :
    limiter.QuotasExact (limiter.checks .empty calls) ↔ limiter.QuotasApart calls := by
  constructor
  · intro hexact before c after h hfull
    have hdenied := (denied_iff_of_append htimes happart hlen h).2 hfull
    have htrace : limiter.checks .empty calls = limiter.checks .empty before ++
        (c, (limiter.check (limiter.after .empty before) c).1) ::
          limiter.checks (limiter.check (limiter.after .empty before) c).2 after := by
      rw [h,checks_append,checks]
    obtain ⟨d,name,hq,hle⟩ := hexact.denied _ _ _ _ htrace hdenied
    refine ⟨d,name,hq,?_⟩
    rw [windowOf_checks,filter_map,length_map]
    exact hle
  · intro happart'
    refine ⟨fun before c decision after h hdenied => ?_, fun before c decision after h d name hq => ?_⟩
    · obtain ⟨hcalls,hbefore,rfl⟩ := checks_eq_append h
      have hfull := (denied_iff_of_append htimes happart hlen hcalls).1 hdenied
      obtain ⟨d,name,hq,hle⟩ := happart' _ _ _ hcalls hfull
      refine ⟨d,name,hq,?_⟩
      rw [windowOf_map,filter_map,length_map] at hle
      exact hle
    · obtain ⟨hcalls,hbefore,rfl⟩ := checks_eq_append h
      have hsnoc : before ++ [(c, (limiter.check (limiter.after .empty (before.map Prod.fst)) c).1)] =
          limiter.checks .empty (before.map Prod.fst ++ [c]) := by
        rw [checks_append,← hbefore]
        rfl
      have hsplit : calls = (before.map Prod.fst ++ [c]) ++ after.map Prod.fst := by
        rw [hcalls,append_assoc,singleton_append]
      rw [hsnoc,windowOf,current]
      split
      · exact Nat.zero_le _
      · rename_i w hlast
        split
        · exact allowed_le htimes happart hlen hsplit d name c.cls hq.2 hlast
        · exact Nat.zero_le _

omit htimes happart hlen in
theorem quotasApart_of_one_class (h : ∀ c ∈ calls, ∀ c' ∈ calls, ∀ d name,
    c.identity d = some name → c'.identity d = some name → c'.cls = c.cls) :
    limiter.QuotasApart calls := by
  rintro before c after hcalls ⟨d,name,hq,hle⟩
  refine ⟨d,name,hq,?_⟩
  rw [filter_eq_self.2]
  · exact hle
  · intro c' hc'
    obtain ⟨t,ht⟩ := mem_of_mem_current hc'
    obtain ⟨e,he,heq⟩ := mem_map.1 ht
    obtain ⟨hmem,hquota⟩ := mem_filter.1 he
    cases heq
    have hc : c ∈ calls := hcalls ▸ mem_append_right _ mem_cons_self
    have hbefore : c' ∈ calls := hcalls ▸ mem_append_left _ hmem
    exact decide_eq_true (h c hc c' hbefore d name hq.1 (of_decide_eq_true hquota).1)

end Run

/-! A limiter with a quota of two searches and one write for a token. -/

def demo : RateLimiter where
  config := ⟨10, 2, 1, 0, 0⟩
  digest := id
  window_pos := by decide

def demoCall (cls : RateLimitClass) (now : Nat) : RateCall := ⟨cls, some "t", some "a", now⟩

theorem checks_quotasExact_searches : demo.QuotasExact
    (demo.checks .empty [demoCall .search 0, demoCall .search 1, demoCall .search 2]) := by
  have htimes : [demoCall .search 0,demoCall .search 1,demoCall .search 2].Pairwise
      (·.now ≤ ·.now) := by decide
  have hclass : ∀ c ∈ [demoCall .search 0,demoCall .search 1,demoCall .search 2],
      c.cls = .search := by decide
  refine (checks_quotasExact_iff htimes (fun _ _ _ _ _ _ _ _ _ _ h => h) (by decide)).2 ?_
  exact quotasApart_of_one_class fun c hc c' hc' _ _ _ _ => (hclass c' hc').trans (hclass c hc).symm

/-- Two searches use up the quota of the first write. -/
theorem first_write_denied :
    (demo.checks .empty [demoCall .search 0, demoCall .search 1, demoCall .write 2]).map
        (·.2.allowed) = [true, true, false] ∧
      ¬demo.QuotasExact
        (demo.checks .empty [demoCall .search 0, demoCall .search 1, demoCall .write 2]) := by
  refine ⟨by decide, fun h => ?_⟩
  obtain ⟨d,name,hq,hle⟩ := h.denied
    (demo.checks .empty [demoCall .search 0,demoCall .search 1]) (demoCall .write 2) _ [] rfl
    (by decide)
  cases d with
  | token =>
    have hname : name = "t" := (Option.some.inj hq.1).symm
    subst hname
    exact absurd hle (by decide)
  | ip => exact absurd hq.2 (by decide)

end RateLimiter
end AiLake
