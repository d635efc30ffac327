import AiLake.CachingStore

/-! How old the bytes can be that a read through the cache returns. -/
namespace AiLake.Cache

open StoreProgram List Function

/-! The keys. -/

section Keys

variable {config : CacheConfig} {scope path path' : String} {range range' : Option (Nat × Nat)}
  {s s' : Option Int}

/-- The text of a snapshot in a key. -/
def snapshotText : Option Int → String
  | none => "current"
  | some id => toString id

theorem cacheKey_toList (kind : CacheKind) (identity : String) :
    (cacheKey config scope kind s identity).toList = config.space.toList ++ (':' ::
      (kind.text.toList ++ (':' :: (scope.toList ++ (':' :: ((snapshotText s).toList ++
        (':' :: identity.toList))))))) := by
  have hcolon : ":".toList = [':'] := by decide
  cases s <;> simp only [cacheKey,snapshotText,String.toList_append,hcolon,append_assoc,
    cons_append,nil_append]

theorem colon_notMem_toString (n : Nat) : ':' ∉ (toString n).toList := by
  intro h
  rw [Nat.toString_eq_ofList_toDigits,String.toList_ofList] at h
  exact absurd (Nat.isDigit_of_mem_toDigits (by decide) (by decide) h) (by decide)

theorem colon_notMem_snapshotText (s : Option Int) : ':' ∉ (snapshotText s).toList := by
  cases s with
  | none => decide
  | some id =>
    cases id with
    | ofNat n => exact colon_notMem_toString n
    | negSucc n =>
      change ':' ∉ ("-" ++ toString (n + 1)).toList
      rw [String.toList_append,mem_append,not_or]
      exact ⟨by decide, colon_notMem_toString (n + 1)⟩

theorem append_cons_inj {α : Type} {c : α} {a b x y : List α} (ha : c ∉ a) (hb : c ∉ b)
    (h : a ++ c :: x = b ++ c :: y) : x = y := by
  induction a generalizing b with
  | nil =>
    cases b with
    | nil => exact (List.cons.inj h).2
    | cons d b =>
      have hd := (List.cons.inj h).1
      exact absurd (hd ▸ mem_cons_self) hb
  | cons d a ih =>
    cases b with
    | nil =>
      have hd := (List.cons.inj h).1
      exact absurd (hd ▸ mem_cons_self) ha
    | cons d' b =>
      exact ih (fun hc => ha (mem_cons_of_mem d hc)) (fun hc => hb (mem_cons_of_mem d' hc))
        (List.cons.inj h).2

theorem identityOf_eq_of_readKey_eq
    (h : readKey config scope path range s = readKey config scope path' range' s') :
    identityOf path range = identityOf path' range' := by
  have hlist := congrArg String.toList h
  simp only [readKey,cacheKey_toList] at hlist
  have hkinds := (List.cons.inj (append_cancel_left hlist)).2
  have hkind : kindOf path = kindOf path' := by
    cases hk : kindOf path <;> cases hk' : kindOf path' <;> rw [hk,hk'] at hkinds
    · cases hkinds
    · cases hkinds
  rw [hkind] at hkinds
  have hscopes := (List.cons.inj (append_cancel_left hkinds)).2
  have hsnapshots := (List.cons.inj (append_cancel_left hscopes)).2
  exact String.toList_inj.1 (append_cons_inj (colon_notMem_snapshotText s)
    (colon_notMem_snapshotText s') hsnapshots)

theorem dropped_readKey : CacheWorld.dropped scope path (readKey config scope path none s) = true := by
  have hmarker : (":" ++ scope ++ ":").toList = ':' :: (scope.toList ++ [':']) := by
    have hcolon : ":".toList = [':'] := by decide
    rw [String.toList_append,String.toList_append,hcolon]
    rfl
  rw [CacheWorld.dropped,Bool.and_eq_true,containsText,endsWith,decide_eq_true_iff,
    decide_eq_true_iff,hmarker,readKey,cacheKey_toList]
  constructor
  · refine ⟨config.space.toList ++ ':' :: (kindOf path).text.toList,
      (snapshotText s).toList ++ ':' :: path.toList, ?_⟩
    simp only [identityOf,append_assoc,cons_append,nil_append]
  · refine ⟨config.space.toList ++ ':' :: ((kindOf path).text.toList ++ ':' :: (scope.toList ++ ':' ::
      ((snapshotText s).toList ++ [':']))), ?_⟩
    simp only [identityOf,append_assoc,cons_append,nil_append]

end Keys

/-! The calls. -/

/-- How far a write has come. -/
inductive Stage where
  | before
  | wrote
  | dropped
  deriving DecidableEq, Repr

/-- What is known of a call: the bytes it found and has yet to insert, whether they came from the
second tier, and how far a write is. -/
structure CacheGhost where
  call : CacheCall
  pending : Option Bytes
  fromRedis : Bool
  got : Option Bytes
  stage : Stage

def CacheCall.Writes (path : String) : CacheCall → Prop
  | .put path' _ | .delete path' => path' = path
  | _ => False

namespace CacheGhost

def init (call : CacheCall) : CacheGhost := ⟨call, none, false, none, .before⟩

def track (g : CacheGhost) : (op : CacheOp) → op.Reply → CacheGhost
  | .localGet _, some v => { g with got := some v }
  | .redisGet _, some v => { g with pending := some v, fromRedis := true, got := some v }
  | .innerGet _ _, some v => { g with pending := some v, fromRedis := false, got := some v }
  | .localInsert _ _, _ => { g with pending := if g.fromRedis then none else g.pending }
  | .redisPut _ _, _ => { g with pending := none }
  | .innerPut _ _, true | .innerDelete _, true => { g with stage := .wrote }
  | .invalidateIdentity _, _ => { g with stage := .dropped }
  | _, _ => g

variable (config : CacheConfig) (scope : String)

def Uses (g : CacheGhost) (key : String) : Prop :=
  ∃ path range s, g.call = .get path range ∧ cacheable path = true ∧
    key = readKey config scope path range s

def Allows (g : CacheGhost) : CacheOp → Prop
  | .localGet key | .redisGet key => g.Uses config scope key
  | .localInsert key v | .redisPut key v => g.Uses config scope key ∧ g.pending = some v
  | .innerGet path range => g.call = .get path range
  | .innerPut path data => g.call = .put path data ∧ g.stage = .before
  | .innerDelete path => g.call = .delete path ∧ g.stage = .before
  | .invalidateIdentity path => g.call.Writes path ∧ g.stage = .wrote
  | _ => True

@[simp] theorem call_track (g : CacheGhost) (op : CacheOp) (r : op.Reply) :
    (g.track op r).call = g.call := by
  cases op <;> first | rfl | (cases r <;> rfl)

end CacheGhost

def cacheTracking (config : CacheConfig) (scope : String) : Tracking cacheInterface CacheGhost :=
  ⟨CacheGhost.track, CacheGhost.Allows config scope, fun _ _ _ => True⟩

section Programs

variable {config : CacheConfig} {scope : String} {g : CacheGhost}

def ReadEnds (r : Except StoreError Bytes) (g : CacheGhost) : Prop := ∀ v, r = .ok v → g.got = some v

theorem ensures_innerRead {path : String} {range : Option (Nat × Nat)}
    (hcall : g.call = .get path range) :
    (innerRead path range).Ensures (cacheTracking config scope) g fun r g' =>
      g'.call = .get path range ∧ ∀ v, r = .ok v → g'.got = some v ∧ g'.pending = some v ∧
        g'.fromRedis = false := by
  refine Script.Ensures.call hcall fun reply _ => ?_
  cases reply with
  | none => exact ⟨hcall, fun _ h => nomatch h⟩
  | some value =>
    refine ⟨hcall, fun v h => ?_⟩
    cases h
    exact ⟨rfl,rfl,rfl⟩

theorem ensures_cacheGet {path : String} {range : Option (Nat × Nat)} {s : Option Int}
    (hcall : g.call = .get path range) (hcacheable : cacheable path = true) :
    (cacheGet (readKey config scope path range s)).Ensures (cacheTracking config scope) g fun r g' =>
      g'.call = .get path range ∧ ∀ v, r = .ok (some v) → g'.got = some v := by
  have huses (g' : CacheGhost) (hcall' : g'.call = .get path range) :
      g'.Uses config scope (readKey config scope path range s) :=
    ⟨path,range,s,hcall',hcacheable,rfl⟩
  refine Script.Ensures.call (huses g hcall) fun reply _ => ?_
  cases reply with
  | some value =>
    refine ⟨hcall, fun v h => ?_⟩
    cases h
    rfl
  | none =>
    refine Script.Ensures.call (huses g hcall) fun reply _ => ?_
    cases reply with
    | none => exact ⟨hcall, fun _ h => nomatch h⟩
    | some value =>
      refine Script.Ensures.call ⟨huses _ hcall, rfl⟩ fun _ _ => ⟨hcall, fun v h => ?_⟩
      cases h
      rfl

theorem ensures_read {path : String} {range : Option (Nat × Nat)} (hcall : g.call = .get path range) :
    (read config scope path range).Ensures (cacheTracking config scope) g ReadEnds := by
  unfold read
  split
  · rename_i hcacheable
    refine Script.Ensures.call trivial fun s _ => ?_
    refine Script.ensures_bind.2 ((ensures_cacheGet hcall hcacheable).mono fun r g' hr => ?_)
    cases r with
    | error e => exact fun _ h => nomatch h
    | ok found =>
      cases found with
      | some value =>
        intro v h
        cases h
        exact hr.2 value rfl
      | none =>
        refine Script.ensures_bind.2 ((ensures_innerRead hr.1).mono fun r g'' hr' => ?_)
        cases r with
        | error e => exact fun _ h => nomatch h
        | ok value =>
          obtain ⟨hgot,hpending,hredis⟩ := hr'.2 value rfl
          refine Script.Ensures.call ⟨⟨path,range,s,hr'.1,hcacheable,rfl⟩,hpending⟩ fun _ _ => ?_
          refine Script.Ensures.call ⟨⟨path,range,s,hr'.1,hcacheable,rfl⟩,?_⟩ fun _ _ v h => ?_
          · change (if g''.fromRedis then none else g''.pending) = some value
            rw [hredis]
            exact hpending
          · cases h
            exact hgot
  · refine (ensures_innerRead hcall).mono fun r g' hr v h => ?_
    exact (hr.2 v h).1

/-- What a finished call has found, and that a finished write has dropped the entries. -/
def CacheEnds (r : Except StoreError (Option Bytes)) (g : CacheGhost) : Prop :=
  (∀ v, r = .ok (some v) → g.got = some v) ∧
    ∀ path, g.call.Writes path → r = .ok none → g.stage = .dropped

theorem cacheEnds_fail {e : StoreError} : CacheEnds (.error e) g :=
  ⟨fun _ h => (nomatch h), fun _ _ h => nomatch h⟩

theorem ensures_invalidate (path : String) {written : Bool} (hcall : g.call.Writes path)
    (hstage : written = true → g.stage = .wrote) :
    (invalidate path written >>= fun _ => (pure none : CacheScript (Option Bytes))).Ensures
      (cacheTracking config scope) g CacheEnds := by
  cases written with
  | true =>
    exact Script.Ensures.call ⟨hcall, hstage rfl⟩ fun _ _ => ⟨fun _ h => (nomatch h), fun _ _ _ => rfl⟩
  | false => exact cacheEnds_fail

theorem ensures_program (call : CacheCall) :
    (call.program config scope).Ensures (cacheTracking config scope) (.init call) CacheEnds := by
  cases call with
  | get path range =>
    refine Script.ensures_bind.2 ((ensures_read rfl).mono fun r g' hr => ?_)
    cases r with
    | error e => exact cacheEnds_fail
    | ok value =>
      refine ⟨fun v h => ?_, fun _ _ h => nomatch h⟩
      cases h
      exact hr value rfl
  | put path data =>
    refine Script.Ensures.call ⟨rfl,rfl⟩ fun written _ => ensures_invalidate path ?_ ?_
    · cases written <;> rfl
    · rintro rfl
      rfl
  | delete path =>
    refine Script.Ensures.call ⟨rfl,rfl⟩ fun written _ => ensures_invalidate path ?_ ?_
    · cases written <;> rfl
    · rintro rfl
      rfl
  | observe snapshot =>
    refine Script.Ensures.call trivial fun _ _ => ?_
    exact Script.Ensures.call trivial fun _ _ => ⟨fun _ h => (nomatch h), fun _ h => h.elim⟩

end Programs

/-! What the tiers hold. -/

section Fresh

variable {ι : Type} {config : CacheConfig} {scope path : String}
  {slice : Bytes → Nat × Nat → Option Bytes} {n : Nat} {range : Option (Nat × Nat)} {v : Bytes}
  {w w' : CacheWorld} {ghosts : ι → CacheGhost} {i : ι}
  {key key' : String} {t : LocalState} {entry : Entry} {content : Option Bytes}

/-- The bytes are those of write number `n` of the path or of a later one. -/
def Since (slice : Bytes → Nat × Nat → Option Bytes) (w : CacheWorld) (path : String) (n : Nat)
    (range : Option (Nat × Nat)) (v : Bytes) : Prop :=
  ∃ k content, n ≤ k ∧ (w.history path)[k]? = some (some content) ∧
    CacheWorld.part slice content range = some v

def Extends (w w' : CacheWorld) : Prop := ∀ path, w.history path <+: w'.history path

theorem Since.mono (h : Since slice w path n range v) (hext : Extends w w') :
    Since slice w' path n range v := by
  obtain ⟨k,content,hk,hcontent,hpart⟩ := h
  obtain ⟨rest,hrest⟩ := hext path
  refine ⟨k,content,hk,?_,hpart⟩
  rw [← hrest,List.getElem?_append_left (List.getElem?_eq_some_iff.1 hcontent).1]
  exact hcontent

theorem since_content {content : Bytes} (hn : n < (w.history path).length)
    (hcontent : w.content path = some content)
    (hpart : CacheWorld.part slice content range = some v) : Since slice w path n range v := by
  refine ⟨(w.history path).length - 1, content, by omega, ?_, hpart⟩
  rw [← getLast?_eq_getElem?]
  unfold CacheWorld.content at hcontent
  cases hlast : (w.history path).getLast? with
  | none =>
    rw [hlast] at hcontent
    cases hcontent
  | some last =>
    rw [hlast] at hcontent
    rw [← hcontent]
    rfl

theorem redisLookup_eq_some : w.redisLookup key = some v ↔
    ∃ entries t, w.redis = some entries ∧ entries key = some (v, t) ∧ w.clock < t := by
  unfold CacheWorld.redisLookup
  cases w.redis with
  | none => simp
  | some entries =>
    cases hentry : entries key with
    | none => simp [hentry]
    | some entry =>
      obtain ⟨value,t⟩ := entry
      by_cases hlive : t > w.clock
      · simp [hentry,hlive]
      · simp only [hentry,if_neg hlive]
        constructor
        · exact nofun
        · rintro ⟨entries',t',hentries',hentry',hlive'⟩
          cases hentries'
          rw [hentry] at hentry'
          cases hentry'
          exact absurd hlive' hlive

/-! What each operation of the local tier leaves. -/

theorem lookup_hit {now : Nat} (h : (t.lookup key now).1 = some v) :
    ∃ entry, t.entries key = some entry ∧ now < entry.expiresAt ∧ entry.value = v := by
  unfold LocalState.lookup at h
  cases hentry : t.entries key with
  | none =>
    rw [hentry] at h
    cases h
  | some entry =>
    rw [hentry] at h
    by_cases hlive : entry.expiresAt > now
    · simp only [if_pos hlive] at h
      exact ⟨entry, rfl, hlive, Option.some.inj h⟩
    · simp only [if_neg hlive] at h
      cases h

theorem remove_entries (h : (t.remove key).entries key' = some entry) :
    t.entries key' = some entry := by
  obtain ⟨-,hnone⟩ | ⟨-,h⟩ := update_eq_some.1 h
  · cases hnone
  · exact h

theorem lookup_entries {now : Nat} (h : (t.lookup key now).2.entries key' = some entry) :
    t.entries key' = some entry := by
  unfold LocalState.lookup at h
  split at h
  · exact h
  · split at h
    · exact h
    · exact remove_entries h

theorem evict_entries {maxBytes bytes : Nat} {entries : String → Option Entry} {order : List String}
    (h : (LocalState.evict maxBytes entries bytes order).entries key = some entry) :
    entries key = some entry := by
  induction order generalizing entries bytes with
  | nil => exact h
  | cons oldest order ih =>
    unfold LocalState.evict at h
    split at h
    · split at h
      · obtain ⟨-,hnone⟩ | ⟨-,hkey⟩ := update_eq_some.1 (ih h)
        · cases hnone
        · exact hkey
      · exact ih h
    · exact h

theorem insert_entries {maxBytes expiresAt : Nat}
    (h : (t.insert maxBytes key v expiresAt).entries key' = some entry) :
    key' = key ∧ entry.value = v ∨ t.entries key' = some entry := by
  obtain ⟨rfl,hnew⟩ | ⟨-,hentry⟩ := update_eq_some.1 (evict_entries h)
  · cases hnew
    exact .inl ⟨rfl,rfl⟩
  · exact .inr hentry

theorem drop_entries {c : String → Bool} (h : (t.drop c).entries key = some entry) :
    c key = false ∧ t.entries key = some entry := by
  unfold LocalState.drop at h
  by_cases hc : c key = true
  · simp only [if_pos hc] at h
    cases h
  · simp only [if_neg hc] at h
    exact ⟨Bool.eq_false_iff.2 hc, h⟩

theorem write_extends {path' : String} : Extends w (w.write path' content) := by
  intro p
  change _ <+: update w.history path' _ p
  by_cases hp : p = path'
  · subst hp
    rw [update_self]
    exact prefix_append _ _
  · rw [update_of_ne hp]

theorem store_eq {e : CacheStep} {path' : String} :
    (w.store e path' content).2 = w ∨ (w.store e path' content).2 = w.write path' content := by
  unfold CacheWorld.store
  split
  · exact .inl rfl
  · split
    · exact .inr rfl
    · exact .inr rfl

theorem store_extends {e : CacheStep} {path' : String} : Extends w (w.store e path' content).2 := by
  rcases store_eq (w := w) with hstore | hstore
  · rw [hstore]
    exact fun _ => prefix_rfl
  · rw [hstore]
    exact write_extends

/-- Nothing that can be read of the path is older than its write number `n`. -/
structure CacheFresh (config : CacheConfig) (scope : String)
    (slice : Bytes → Nat × Nat → Option Bytes) (path : String) (n : Nat) (w : CacheWorld)
    (ghosts : ι → CacheGhost) : Prop where
  written : n < (w.history path).length
  tier : ∀ i range s entry, (ghosts i).call = .get path range → cacheable path = true →
    w.tier.entries (readKey config scope path range s) = some entry → w.clock < entry.expiresAt →
    Since slice w path n range entry.value
  redis : ∀ i range s v, (ghosts i).call = .get path range → cacheable path = true →
    w.redisLookup (readKey config scope path range s) = some v → Since slice w path n range v
  pending : ∀ i range v, (ghosts i).call = .get path range → cacheable path = true →
    (ghosts i).pending = some v → Since slice w path n range v

/-- Two reads under one key are reads of one path and range. -/
def Unaliased (ghosts : ι → CacheGhost) : Prop :=
  ∀ i j path range path' range', (ghosts i).call = .get path range →
    (ghosts j).call = .get path' range' → identityOf path range = identityOf path' range' →
    path = path' ∧ range = range'

namespace CacheFresh

variable {op : CacheOp}

theorem shrink (h : CacheFresh config scope slice path n w ghosts) (hext : Extends w w')
    (hclock : w.clock ≤ w'.clock)
    (htier : ∀ key entry, w'.tier.entries key = some entry → w.tier.entries key = some entry)
    (hredis : w'.redis = w.redis) : CacheFresh config scope slice path n w' ghosts := by
  refine ⟨?_,?_,?_,?_⟩
  · exact Nat.lt_of_lt_of_le h.written (hext path).length_le
  · intro i range s entry hcall hcacheable hentry hlive
    exact (h.tier i range s entry hcall hcacheable (htier _ _ hentry)
      (Nat.lt_of_le_of_lt hclock hlive)).mono hext
  · intro i range s v hcall hcacheable hlookup
    refine (h.redis i range s v hcall hcacheable ?_).mono hext
    obtain ⟨entries,t,hentries,hentry,hlive⟩ := redisLookup_eq_some.1 hlookup
    exact redisLookup_eq_some.2 ⟨entries, t, hredis.symm.trans hentries, hentry,
      Nat.lt_of_le_of_lt hclock hlive⟩
  · intro i range v hcall hcacheable hpending
    exact (h.pending i range v hcall hcacheable hpending).mono hext

theorem uses_key {key : String} (huses : (ghosts i).Uses config scope key)
    (hcall : (ghosts i).call = .get path range) :
    cacheable path = true ∧ ∃ s, key = readKey config scope path range s := by
  obtain ⟨path',range',s,hcall',hcacheable,rfl⟩ := huses
  cases hcall.symm.trans hcall'
  exact ⟨hcacheable,s,rfl⟩

theorem extends_answer (e : CacheStep) (op : CacheOp) :
    Extends w (w.answer config scope slice e op).2 := by
  have hrefl : Extends w w := fun _ => prefix_rfl
  cases op with
  | innerPut path data => exact store_extends
  | innerDelete path => exact store_extends
  | redisPut key value =>
    simp only [CacheWorld.answer]
    split <;> exact hrefl
  | snapshotFor => exact hrefl
  | localGet key => exact hrefl
  | redisGet key => exact hrefl
  | localInsert key value => exact hrefl
  | innerGet path range => exact hrefl
  | invalidateIdentity path => exact hrefl
  | setSnapshot snapshot => exact hrefl
  | invalidateSnapshot snapshot => exact hrefl

theorem reply (h : CacheFresh config scope slice path n w ghosts)
    (hallows : (ghosts i).Allows config scope op) (e : CacheStep)
    (hcall : (ghosts i).call = .get path range) :
    (∀ v, ((ghosts i).track op (w.answer config scope slice e op).1).pending = some v →
      (ghosts i).pending = some v ∨ Since slice w path n range v) ∧
    ∀ v, ((ghosts i).track op (w.answer config scope slice e op).1).got = some v →
      (ghosts i).got = some v ∨ Since slice w path n range v := by
  cases op with
  | localGet key =>
    obtain ⟨hcacheable,s,rfl⟩ := uses_key hallows hcall
    change (∀ v, (CacheGhost.track _ (.localGet _) (w.tier.lookup _ w.clock).1).pending = _ → _) ∧
      ∀ v, (CacheGhost.track _ (.localGet _) (w.tier.lookup _ w.clock).1).got = _ → _
    cases hhit : (w.tier.lookup (readKey config scope path range s) w.clock).1 with
    | none => exact ⟨fun _ => .inl, fun _ => .inl⟩
    | some value =>
      obtain ⟨entry,hentry,hlive,rfl⟩ := lookup_hit hhit
      refine ⟨fun _ => .inl, fun v hv => .inr ?_⟩
      cases hv
      exact h.tier i range s entry hcall hcacheable hentry hlive
  | redisGet key =>
    obtain ⟨hcacheable,s,rfl⟩ := uses_key hallows hcall
    simp only [CacheWorld.answer]
    split
    · exact ⟨fun _ => .inl, fun _ => .inl⟩
    · cases hhit : w.redisLookup (readKey config scope path range s) with
      | none => exact ⟨fun _ => .inl, fun _ => .inl⟩
      | some value =>
        have hsince := h.redis i range s value hcall hcacheable hhit
        refine ⟨fun v hv => .inr ?_, fun v hv => .inr ?_⟩
        · cases hv
          exact hsince
        · cases hv
          exact hsince
  | innerGet path' range' =>
    have hpath : (ghosts i).call = .get path' range' := hallows
    cases hcall.symm.trans hpath
    simp only [CacheWorld.answer]
    split
    · exact ⟨fun _ => .inl, fun _ => .inl⟩
    · cases hcontent : w.content path with
      | none => exact ⟨fun _ => .inl, fun _ => .inl⟩
      | some content =>
        rw [Option.bind_some]
        cases hpart : CacheWorld.part slice content range with
        | none => exact ⟨fun _ => .inl, fun _ => .inl⟩
        | some value =>
          have hsince := since_content h.written hcontent hpart
          refine ⟨fun v hv => .inr ?_, fun v hv => .inr ?_⟩
          · cases hv
            exact hsince
          · cases hv
            exact hsince
  | localInsert key value =>
    refine ⟨fun v hv => .inl ?_, fun _ => .inl⟩
    change (if (ghosts i).fromRedis then none else (ghosts i).pending) = some v at hv
    split at hv
    · cases hv
    · exact hv
  | redisPut key value => exact ⟨fun v hv => (nomatch hv), fun _ => .inl⟩
  | snapshotFor => exact ⟨fun _ => .inl, fun _ => .inl⟩
  | innerPut path data =>
    generalize (w.answer config scope slice e (.innerPut path data)).1 = written
    cases written <;> exact ⟨fun _ => .inl, fun _ => .inl⟩
  | innerDelete path =>
    generalize (w.answer config scope slice e (.innerDelete path)).1 = written
    cases written <;> exact ⟨fun _ => .inl, fun _ => .inl⟩
  | invalidateIdentity path => exact ⟨fun _ => .inl, fun _ => .inl⟩
  | setSnapshot snapshot => exact ⟨fun _ => .inl, fun _ => .inl⟩
  | invalidateSnapshot snapshot => exact ⟨fun _ => .inl, fun _ => .inl⟩

theorem inserted (h : CacheFresh config scope slice path n w ghosts) (halias : Unaliased ghosts)
    {key : String} (huses : (ghosts i).Uses config scope key) (hpending : (ghosts i).pending = some v)
    {j : ι} {s : Option Int} (hj : (ghosts j).call = .get path range)
    (hkey : readKey config scope path range s = key) : Since slice w path n range v := by
  obtain ⟨path',range',s',hcall,hcacheable,rfl⟩ := huses
  obtain ⟨rfl,rfl⟩ := halias j i path range path' range' hj hcall (identityOf_eq_of_readKey_eq hkey)
  exact h.pending i range v hcall hcacheable hpending

theorem store (h : CacheFresh config scope slice path n w ghosts) (e : CacheStep) {path' : String}
    {content : Option Bytes} :
    CacheFresh config scope slice path n (w.store e path' content).2 ghosts := by
  rcases store_eq (w := w) with hstore | hstore
  · rw [hstore]
    exact h
  · rw [hstore]
    exact h.shrink write_extends (Nat.le_refl _) (fun _ _ hentry => hentry) rfl

theorem world (h : CacheFresh config scope slice path n w ghosts) (halias : Unaliased ghosts)
    (hallows : (ghosts i).Allows config scope op) (e : CacheStep) :
    CacheFresh config scope slice path n (w.answer config scope slice e op).2 ghosts := by
  have hrefl : Extends w w := fun _ => prefix_rfl
  cases op with
  | localInsert key value =>
    refine ⟨h.written,?_,h.redis,h.pending⟩
    intro j range s entry hj hcacheable hentry hlive
    rcases insert_entries hentry with ⟨hkey,rfl⟩ | hentry
    · exact h.inserted halias hallows.1 hallows.2 hj hkey
    · exact h.tier j range s entry hj hcacheable hentry hlive
  | redisPut key value =>
    simp only [CacheWorld.answer]
    split
    · exact h
    · refine ⟨h.written,h.tier,?_,h.pending⟩
      intro j range s v hj hcacheable hlookup
      obtain ⟨entries,t,hentries,hentry,hlive⟩ := redisLookup_eq_some.1 hlookup
      obtain ⟨entries',hentries',rfl⟩ := Option.map_eq_some_iff.1 hentries
      by_cases hkey : readKey config scope path range s = key
      · rw [hkey,update_self] at hentry
        cases hentry
        exact h.inserted halias hallows.1 hallows.2 hj hkey
      · rw [update_of_ne hkey] at hentry
        exact h.redis j range s v hj hcacheable
          (redisLookup_eq_some.2 ⟨entries',t,hentries',hentry,hlive⟩)
  | localGet key =>
    exact h.shrink hrefl (Nat.le_refl _) (fun _ _ hentry => lookup_entries hentry) rfl
  | innerPut path data => exact h.store e
  | innerDelete path => exact h.store e
  | invalidateIdentity path =>
    exact h.shrink hrefl (Nat.le_refl _) (fun _ _ hentry => (drop_entries hentry).2) rfl
  | invalidateSnapshot snapshot =>
    exact h.shrink hrefl (Nat.le_refl _) (fun _ _ hentry => (drop_entries hentry).2) rfl
  | setSnapshot snapshot =>
    exact h.shrink hrefl (Nat.le_refl _) (fun _ _ hentry => hentry) rfl
  | snapshotFor => exact h
  | redisGet key => exact h
  | innerGet path range => exact h

variable [DecidableEq ι]

theorem ghost (h : CacheFresh config scope slice path n w ghosts) {g : CacheGhost}
    (hcall : g.call = (ghosts i).call)
    (hpending : ∀ range v, g.call = .get path range → cacheable path = true → g.pending = some v →
      Since slice w path n range v) :
    CacheFresh config scope slice path n w (update ghosts i g) := by
  have hcalls (j : ι) : (update ghosts i g j).call = (ghosts j).call := by
    by_cases hj : j = i
    · subst hj
      rw [update_self,hcall]
    · rw [update_of_ne hj]
  refine ⟨h.written,?_,?_,?_⟩
  · intro j range s entry hj
    exact h.tier j range s entry (hcalls j ▸ hj)
  · intro j range s v hj
    exact h.redis j range s v (hcalls j ▸ hj)
  · intro j range v hj
    by_cases hji : j = i
    · subst hji
      rw [update_self] at hj ⊢
      exact hpending range v hj
    · rw [update_of_ne hji] at hj ⊢
      exact h.pending j range v hj

theorem answer (h : CacheFresh config scope slice path n w ghosts) (halias : Unaliased ghosts)
    (hallows : (ghosts i).Allows config scope op) (e : CacheStep) :
    CacheFresh config scope slice path n (w.answer config scope slice e op).2
      (update ghosts i ((ghosts i).track op (w.answer config scope slice e op).1)) := by
  refine (h.world halias hallows e).ghost (CacheGhost.call_track _ _ _) ?_
  intro range v hcall hcacheable hpending
  rw [CacheGhost.call_track] at hcall
  rcases (h.reply hallows e hcall).1 v hpending with hpending | hsince
  · exact (h.pending i range v hcall hcacheable hpending).mono (extends_answer e op)
  · exact hsince.mono (extends_answer e op)

end CacheFresh

/-- A write of the path drops all that can be read of it: live entries of byte ranges and of the
second tier, and inserts to come. -/
structure Quiet (config : CacheConfig) (scope path : String) (w : CacheWorld)
    (ghosts : ι → CacheGhost) : Prop where
  tier : ∀ i range s entry, (ghosts i).call = .get path (some range) →
    w.tier.entries (readKey config scope path (some range) s) = some entry →
    w.clock < entry.expiresAt →
    CacheWorld.dropped scope path (readKey config scope path (some range) s) = true
  redis : ∀ i range s, (ghosts i).call = .get path range →
    w.redisLookup (readKey config scope path range s) = none
  pending : ∀ i range, (ghosts i).call = .get path range → (ghosts i).pending = none

theorem Quiet.fresh (h : cacheable path = true → Quiet config scope path w ghosts)
    (hn : n < (w.history path).length) :
    CacheFresh config scope slice path n
      { w with tier := w.tier.drop (CacheWorld.dropped scope path) } ghosts := by
  refine ⟨hn,?_,?_,?_⟩
  · intro i range s entry hcall hcacheable hentry hlive
    obtain ⟨hkept,hentry⟩ := drop_entries hentry
    cases range with
    | none =>
      rw [dropped_readKey] at hkept
      cases hkept
    | some range =>
      rw [(h hcacheable).tier i range s entry hcall hentry hlive] at hkept
      cases hkept
  · intro i range s v hcall hcacheable hlookup
    cases ((h hcacheable).redis i range s hcall).symm.trans hlookup
  · intro i range v hcall hcacheable hpending
    cases ((h hcacheable).pending i range hcall).symm.trans hpending

end Fresh
end AiLake.Cache
