import AiLake.CachingStoreSpec

/-! Reads and writes of several instances, in any order of their steps. -/
namespace AiLake.Cache

open StoreProgram List Function Option

abbrev CachePool (ι : Type) := Pool ι CacheWorld cacheInterface StoreError (Option Bytes) CacheGhost

def CacheOp.written : CacheOp → Option String
  | .innerPut path _ | .innerDelete path => some path
  | _ => none

section Runs

variable {ι : Type} {config : CacheConfig} {scope path : String}
  {slice : Bytes → Nat × Nat → Option Bytes} {w₀ : CacheWorld} {calls : ι → CacheCall}
  {ghosts : ι → CacheGhost} {w : CacheWorld} {op : CacheOp} {n : Nat}
  {labels : List (ι × CacheStep)} {p : CachePool ι}

def cacheStart (config : CacheConfig) (scope : String) (w₀ : CacheWorld) (calls : ι → CacheCall) :
    CachePool ι where
  shared := w₀
  thread i := ⟨(calls i).program config scope, .init (calls i)⟩

/-- A write that is about to drop the entries of its path finds the others gone. -/
def WritesQuietly (config : CacheConfig) (scope : String) (p : CachePool ι) (i : ι) (e : CacheStep) :
    Prop :=
  ∀ path, (p.thread i).program.next = some (.invalidateIdentity path) → cacheable path = true →
    Quiet config scope path { p.shared with clock := p.shared.clock + e.elapsed } p.ghosts

variable [DecidableEq ι]

def cacheSteps (config : CacheConfig) (scope : String) (slice : Bytes → Nat × Nat → Option Bytes)
    (C : CachePool ι → ι → CacheStep → Prop) : CachePool ι → ι × CacheStep → CachePool ι → Prop :=
  Pool.Steps (cacheTracking config scope) (CacheWorld.perform config scope slice) C

/-- Once a write has returned, the reads that begin after it return the bytes of that write or of a
later one. -/
def ReadsFresh (config : CacheConfig) (scope : String) (slice : Bytes → Nat × Nat → Option Bytes)
    (C : CachePool ι → ι → CacheStep → Prop) (start : CachePool ι) : Prop :=
  ∀ labels p, History (cacheSteps config scope slice C) start labels p →
    -- the write of `path` by call `j`, as write number `n` of that path
    ∀ j e q path op, cacheSteps config scope slice C p (j, e) q →
    (p.thread j).program.next = some op → op.written = some path →
    -- it has returned
    ∀ labels' r, History (cacheSteps config scope slice C) q labels' r →
    (r.thread j).program = .done none →
    -- and a read that had not begun then has returned
    ∀ i range, r.thread i = start.thread i → (start.ghosts i).call = .get path range →
    ∀ labels'' t v, History (cacheSteps config scope slice C) r labels'' t →
    (t.thread i).program = .done (some v) →
    Since slice t.shared path (p.shared.history path).length range v

/-- No path that is read is another one that is read with a byte range after it. -/
def UnaliasedCalls (calls : ι → CacheCall) : Prop :=
  ∀ i j path range path' range', calls i = .get path range → calls j = .get path' range' →
    identityOf path range = identityOf path' range' → path = path' ∧ range = range'

theorem call_update (hcalls : ∀ i, (ghosts i).call = calls i) (i : ι) (op : CacheOp) (r : op.Reply)
    (j : ι) : (update ghosts i ((ghosts i).track op r) j).call = calls j := by
  by_cases hj : j = i
  · subst hj
    rw [update_self]
    exact (CacheGhost.call_track _ _ _).trans (hcalls j)
  · rw [update_of_ne hj]
    exact hcalls j

theorem cache_run {C : CachePool ι → ι → CacheStep → Prop}
    (h : History (cacheSteps config scope slice C) (cacheStart config scope w₀ calls) labels p) :
    (∀ i, (p.ghosts i).call = calls i) ∧ p.Tracked (cacheTracking config scope) CacheEnds := by
  refine Pool.tracked_invariant (fun _ ghosts => ∀ i, (ghosts i).call = calls i) ?_ h (fun _ => rfl)
    fun i => ensures_program (calls i)
  intro p i e op next hcalls _ _ _
  exact ⟨trivial, call_update hcalls i op _⟩

/-- What is known of the write number `n` of the path while call `j` makes it. -/
structure Writing (config : CacheConfig) (scope : String) (slice : Bytes → Nat × Nat → Option Bytes)
    (calls : ι → CacheCall) (path : String) (n : Nat) (j : ι) (w : CacheWorld)
    (ghosts : ι → CacheGhost) : Prop where
  calls : ∀ i, (ghosts i).call = calls i
  le : n ≤ (w.history path).length
  lt : (ghosts j).stage = .wrote → n < (w.history path).length
  fresh : (ghosts j).stage = .dropped → CacheFresh config scope slice path n w ghosts

omit [DecidableEq ι] in
theorem unaliased (halias : UnaliasedCalls calls) (hcalls : ∀ i, (ghosts i).call = calls i) :
    Unaliased ghosts :=
  fun i j path range path' range' hi hj => halias i j path range path' range' (hcalls i ▸ hi)
    (hcalls j ▸ hj)

omit [DecidableEq ι] in
theorem store_true {e : CacheStep} {path : String} {content : Option Bytes}
    (h : (w.store e path content).1 = true) :
    (w.history path).length < ((w.store e path content).2.history path).length := by
  unfold CacheWorld.store at h ⊢
  split
  · simp_all
  · split
    · simp_all
    · change _ < (update w.history path _ path).length
      rw [update_self,length_append]
      exact Nat.lt_succ_self _

theorem stage_track (g : CacheGhost) (hwritten : op.written = none)
    (hdrops : ∀ path, op ≠ .invalidateIdentity path) (r : op.Reply) :
    (g.track op r).stage = g.stage := by
  cases op with
  | innerPut path data => cases hwritten
  | innerDelete path => cases hwritten
  | invalidateIdentity path => exact absurd rfl (hdrops path)
  | localGet key => cases r <;> rfl
  | redisGet key => cases r <;> rfl
  | innerGet path range => cases r <;> rfl
  | snapshotFor => rfl
  | localInsert key value => rfl
  | redisPut key value => rfl
  | setSnapshot snapshot => rfl
  | invalidateSnapshot snapshot => rfl

theorem stage_wrote {g : CacheGhost} {e : CacheStep} (hallows : g.Allows config scope op)
    (hwrites : g.call.Writes path)
    (h : (g.track op (w.answer config scope slice e op).1).stage = .wrote) :
    g.stage = .wrote ∨ (w.history path).length <
      ((w.answer config scope slice e op).2.history path).length := by
  by_cases hdrops : ∃ path', op = .invalidateIdentity path'
  · obtain ⟨path',rfl⟩ := hdrops
    cases h
  · cases hwritten : op.written with
    | none => exact .inl ((stage_track g hwritten (fun p hp => hdrops ⟨p,hp⟩) _).symm.trans h)
    | some path' =>
      cases op with
      | innerPut path'' data =>
        rw [hallows.1] at hwrites
        cases hwrites
        cases hreply : (w.store e path (some data)).1 with
        | true => exact .inr (store_true hreply)
        | false =>
          change (g.track (.innerPut path data) (w.store e path (some data)).1).stage = _ at h
          rw [hreply] at h
          exact .inl h
      | innerDelete path'' =>
        rw [hallows.1] at hwrites
        cases hwrites
        cases hreply : (w.store e path none).1 with
        | true => exact .inr (store_true hreply)
        | false =>
          change (g.track (.innerDelete path) (w.store e path none).1).stage = _ at h
          rw [hreply] at h
          exact .inl h
      | _ => cases hwritten

theorem stage_dropped {g : CacheGhost} {r : op.Reply} (h : (g.track op r).stage = .dropped) :
    g.stage = .dropped ∨ ∃ path, op = .invalidateIdentity path := by
  by_cases hdrops : ∃ path', op = .invalidateIdentity path'
  · exact .inr hdrops
  · cases hwritten : op.written with
    | none => exact .inl ((stage_track g hwritten (fun p hp => hdrops ⟨p,hp⟩) _).symm.trans h)
    | some path' =>
      cases op with
      | innerPut path'' data =>
        cases r with
        | true => cases h
        | false => exact .inl h
      | innerDelete path'' =>
        cases r with
        | true => cases h
        | false => exact .inl h
      | _ => cases hwritten

theorem Writing.answer {i j : ι} (h : Writing config scope slice calls path n j w ghosts)
    (halias : UnaliasedCalls calls) (hwrites : (calls j).Writes path)
    (hallows : (ghosts i).Allows config scope op) (e : CacheStep)
    (hquiet : op = .invalidateIdentity path → cacheable path = true →
      Quiet config scope path w ghosts) :
    Writing config scope slice calls path n j (w.answer config scope slice e op).2
      (update ghosts i ((ghosts i).track op (w.answer config scope slice e op).1)) := by
  have hlength : (w.history path).length ≤
      ((w.answer config scope slice e op).2.history path).length :=
    (CacheFresh.extends_answer e op path).length_le
  have hfresh (hstage : (ghosts j).stage = .dropped) :=
    (h.fresh hstage).answer (unaliased halias h.calls) hallows e
  refine ⟨call_update h.calls i op _, h.le.trans hlength, fun hstage => ?_, fun hstage => ?_⟩
  · by_cases hj : j = i
    · subst hj
      rw [update_self] at hstage
      rcases stage_wrote hallows (h.calls j ▸ hwrites) hstage with hstage | hlt
      · exact Nat.lt_of_lt_of_le (h.lt hstage) hlength
      · exact Nat.lt_of_le_of_lt h.le hlt
    · rw [update_of_ne hj] at hstage
      exact Nat.lt_of_lt_of_le (h.lt hstage) hlength
  · by_cases hj : j = i
    · subst hj
      rw [update_self] at hstage
      rcases stage_dropped hstage with hstage | ⟨path',rfl⟩
      · exact hfresh hstage
      · -- the step by which the write comes to its end
        have hpath : path' = path := by
          have hcall := hallows.1
          rw [h.calls j] at hcall
          cases hput : calls j <;> rw [hput] at hcall hwrites <;> first | exact hcall.elim | skip
          · exact hcall.symm.trans hwrites
          · exact hcall.symm.trans hwrites
        subst hpath
        have hdropped : CacheFresh config scope slice path' n
            { w with tier := w.tier.drop (CacheWorld.dropped scope path') } ghosts :=
          Quiet.fresh (hquiet rfl) (h.lt hallows.2)
        exact hdropped.ghost rfl fun range v hcall hcacheable =>
          hdropped.pending j range v hcall hcacheable
    · rw [update_of_ne hj] at hstage
      exact hfresh hstage

omit [DecidableEq ι] in
theorem CacheFresh.wait (h : CacheFresh config scope slice path n w ghosts) (ms : Nat) :
    CacheFresh config scope slice path n { w with clock := w.clock + ms } ghosts :=
  h.shrink (fun _ => prefix_rfl) (Nat.le_add_right _ _) (fun _ _ hentry => hentry) rfl

theorem writing_run (halias : UnaliasedCalls calls) {j : ι} (hwrites : (calls j).Writes path)
    {q : CachePool ι}
    (h : History (cacheSteps config scope slice (WritesQuietly config scope)) p labels q)
    (hwriting : Writing config scope slice calls path n j p.shared p.ghosts)
    (htracked : p.Tracked (cacheTracking config scope) CacheEnds) :
    Writing config scope slice calls path n j q.shared q.ghosts ∧
      q.Tracked (cacheTracking config scope) CacheEnds := by
  refine Pool.tracked_invariant (Writing config scope slice calls path n j) ?_ h hwriting htracked
  intro p i e op next hwriting hprog hallows hquiet
  have hwait : Writing config scope slice calls path n j
      { p.shared with clock := p.shared.clock + e.elapsed } p.ghosts :=
    ⟨hwriting.calls, hwriting.le, hwriting.lt, fun hstage => (hwriting.fresh hstage).wait e.elapsed⟩
  refine ⟨trivial, hwait.answer halias hwrites hallows e fun hop => hquiet path ?_⟩
  rw [hprog,Script.next,hop]

theorem read_run (halias : UnaliasedCalls calls) {C : CachePool ι → ι → CacheStep → Prop} {i : ι}
    {range : Option (Nat × Nat)} (hcall : calls i = .get path range) {q : CachePool ι}
    (h : History (cacheSteps config scope slice C) p labels q)
    (hcalls : ∀ i, (p.ghosts i).call = calls i)
    (hfresh : CacheFresh config scope slice path n p.shared p.ghosts)
    (hgot : (p.ghosts i).got = none) (htracked : p.Tracked (cacheTracking config scope) CacheEnds) :
    (∀ v, (q.ghosts i).got = some v → Since slice q.shared path n range v) ∧
      q.Tracked (cacheTracking config scope) CacheEnds := by
  have hrun := Pool.tracked_invariant (fun w ghosts => (∀ i, (ghosts i).call = calls i) ∧
    CacheFresh config scope slice path n w ghosts ∧
    ∀ v, (ghosts i).got = some v → Since slice w path n range v) ?_ h
    ⟨hcalls, hfresh, fun v hv => nomatch hgot.symm.trans hv⟩ htracked
  · exact ⟨hrun.1.2.2,hrun.2⟩
  · intro p k e op next hI _ hallows _
    obtain ⟨hcalls,hfresh,hgot⟩ := hI
    have hwait := hfresh.wait e.elapsed
    have hextends : Extends p.shared (p.shared.perform config scope slice e op).2 :=
      CacheFresh.extends_answer (w := { p.shared with clock := p.shared.clock + e.elapsed }) e op
    refine ⟨trivial, call_update hcalls k op _, hwait.answer (unaliased halias hcalls) hallows e, ?_⟩
    intro v hv
    by_cases hk : i = k
    · subst hk
      rw [update_self] at hv
      rcases (hwait.reply hallows e ((hcalls i).trans hcall)).2 v hv with hv | hsince
      · exact (hgot v hv).mono hextends
      · exact hsince.mono hextends
    · rw [update_of_ne hk] at hv
      exact (hgot v hv).mono hextends

/-- In every run whose writes find the other entries of their paths gone, a read that begins after a
write has returned gets the bytes of that write or of a later one. -/
theorem readsFresh_of_quiet (config : CacheConfig) (scope : String)
    (slice : Bytes → Nat × Nat → Option Bytes) (w₀ : CacheWorld) {calls : ι → CacheCall}
    (halias : UnaliasedCalls calls) :
    ReadsFresh config scope slice (WritesQuietly config scope)
      (cacheStart config scope w₀ calls) := by
  intro labels p h j e q path op hq hnext hwritten labels' r hr hdone i range hi hcall labels'' t v ht
    hread
  obtain ⟨hcalls,htracked⟩ := cache_run h
  obtain ⟨op',next,hprog,-⟩ := Pool.step_eq_some.1 hq.1
  rw [hprog] at hnext
  cases hnext
  have hallows := htracked.allows hprog
  have hwrites : (calls j).Writes path ∧ (p.ghosts j).stage = .before := by
    rw [← hcalls j]
    cases op with
    | innerPut path' data =>
      cases hwritten
      have hput : (p.ghosts j).call = .put path data := hallows.1
      exact ⟨by rw [hput]; rfl, hallows.2⟩
    | innerDelete path' =>
      cases hwritten
      have hdelete : (p.ghosts j).call = .delete path := hallows.1
      exact ⟨by rw [hdelete]; rfl, hallows.2⟩
    | _ => cases hwritten
  have hstart : Writing config scope slice calls path (p.shared.history path).length j p.shared
      p.ghosts := by
    refine ⟨hcalls, Nat.le_refl _, fun hstage => ?_, fun hstage => ?_⟩
    · cases hwrites.2.symm.trans hstage
    · cases hwrites.2.symm.trans hstage
  obtain ⟨hwriting,htracked'⟩ := writing_run halias hwrites.1 ((History.start.step hq).trans hr) hstart
    htracked
  have hends := htracked' j
  rw [hdone] at hends
  have hfresh := hwriting.fresh (hends.2 path (hwriting.calls j ▸ hwrites.1) rfl)
  have hgot : (r.ghosts i).got = none := by
    rw [Pool.ghosts,hi]
    rfl
  obtain ⟨hsince,htracked''⟩ := read_run halias hcall ht hwriting.calls hfresh hgot htracked'
  have hends' := htracked'' i
  rw [hread] at hends'
  exact hsince v (hends'.1 v rfl)

end Runs

/-! Reads that are stale. -/

section Stale

variable {ι : Type} [DecidableEq ι]

theorem since_iff {slice : Bytes → Nat × Nat → Option Bytes} {w : CacheWorld} {path : String}
    {n : Nat} {range : Option (Nat × Nat)} {v : Bytes} : Since slice w path n range v ↔
      ∃ content ∈ (w.history path).drop n,
        (content.bind fun content => CacheWorld.part slice content range) = some v := by
  constructor
  · rintro ⟨k,content,hk,hcontent,hpart⟩
    refine ⟨some content, mem_iff_getElem?.2 ⟨k - n, ?_⟩, hpart⟩
    rw [getElem?_drop,Nat.add_sub_cancel' hk,hcontent]
  · rintro ⟨content,hmem,hpart⟩
    obtain ⟨k,hk⟩ := mem_iff_getElem?.1 hmem
    obtain ⟨content,rfl,hpart⟩ := bind_eq_some_iff.1 hpart
    rw [getElem?_drop] at hk
    exact ⟨n + k, content, Nat.le_add_right n k, hk, hpart⟩

def rangeOf (content : Bytes) (range : Nat × Nat) : Option Bytes :=
  some ((content.drop range.1).take (range.2 - range.1))

def demoConfig : CacheConfig := ⟨"ailake", 1000, 2000⟩

def atOnce : CacheStep := ⟨0, false, false⟩

def schedule (p : CachePool (Fin 3)) (order : List (Fin 3)) : Option (CachePool (Fin 3)) :=
  p.exec (cacheTracking demoConfig "t") (CacheWorld.perform demoConfig "t" rangeOf)
    (order.map fun i => (i, atOnce))

/-- Call 1 writes the path between `before` and `after`, and call 2 reads `v` after that, which is not
in what was written since. -/
def staleRead (start : CachePool (Fin 3)) (before after reads : List (Fin 3)) (path : String)
    (range : Option (Nat × Nat)) (v : Bytes) : Option Bool := do
  let p ← schedule start before
  let q ← schedule p [1]
  let r ← schedule q after
  let t ← schedule r reads
  return (p.thread 1).program.next.bind CacheOp.written = some path ∧
    (r.thread 1).program.result = some (.ok none) ∧
    (t.thread 2).program.result = some (.ok (some v)) ∧
    ∀ content ∈ (t.shared.history path).drop (p.shared.history path).length,
      (content.bind fun content => CacheWorld.part rangeOf content range) ≠ some v

theorem history_of_schedule {start p q : CachePool (Fin 3)} {labels : List (Fin 3 × CacheStep)}
    {order : List (Fin 3)}
    (h : History (cacheSteps demoConfig "t" rangeOf fun _ _ _ => True) start labels p)
    (hq : schedule p order = some q) :
    History (cacheSteps demoConfig "t" rangeOf fun _ _ _ => True) start
      (labels ++ order.map fun i => (i, atOnce)) q :=
  Pool.history_of_exec h hq

theorem thread_of_schedule {p q : CachePool (Fin 3)} {order : List (Fin 3)} {i : Fin 3}
    (hq : schedule p order = some q) (hi : i ∉ order) : q.thread i = p.thread i := by
  refine Pool.exec_thread_of_notMem hq fun a ha hai => hi ?_
  obtain ⟨k,hk,rfl⟩ := mem_map.1 ha
  exact hai ▸ hk

theorem not_readsFresh {start : CachePool (Fin 3)} (before after reads : List (Fin 3)) {path : String}
    {range : Option (Nat × Nat)} (v : Bytes) (hcall : (start.ghosts 2).call = .get path range)
    (hbefore : 2 ∉ before) (hafter : 2 ∉ after)
    (hstale : staleRead start before after reads path range v = some true) :
    ¬ReadsFresh demoConfig "t" rangeOf (fun _ _ _ => True) start := by
  intro h
  obtain ⟨p,hp,hstale⟩ := bind_eq_some_iff.1 hstale
  obtain ⟨q,hq,hstale⟩ := bind_eq_some_iff.1 hstale
  obtain ⟨r,hr,hstale⟩ := bind_eq_some_iff.1 hstale
  obtain ⟨t,ht,hstale⟩ := bind_eq_some_iff.1 hstale
  obtain ⟨hnext,hdone,hread,hnone⟩ := of_decide_eq_true (Option.some.inj hstale)
  obtain ⟨op,hop,hwritten⟩ := bind_eq_some_iff.1 hnext
  obtain ⟨q',hstep,hq'⟩ := bind_eq_some_iff.1 hq
  cases hq'
  have hunbegun : r.thread 2 = start.thread 2 := by
    rw [thread_of_schedule hr hafter,thread_of_schedule hq (by decide),
      thread_of_schedule hp hbefore]
  have hsince := h _ p (history_of_schedule .start hp) 1 atOnce q path op ⟨hstep,trivial⟩ hop hwritten _
    r (history_of_schedule .start hr) (Script.result_eq_ok.1 hdone) 2 range hunbegun hcall _ t v
    (history_of_schedule .start ht) (Script.result_eq_ok.1 hread)
  obtain ⟨content,hmem,hpart⟩ := since_iff.1 hsince
  exact hnone content hmem hpart

/-- A store in which every path has the content `1, 2`. -/
def demoWorld (redis : Option (String → Option (Bytes × Nat))) : CacheWorld :=
  ⟨fun _ => [some [1, 2]], ⟨fun _ => none, [], 0⟩, redis, none, 0⟩

def readWriteRead (redis : Option (String → Option (Bytes × Nat))) (path path' : String)
    (range range' : Option (Nat × Nat)) : CachePool (Fin 3) :=
  cacheStart demoConfig "t" (demoWorld redis) fun i =>
    match i with
    | 0 => .get path range
    | 1 => .put path' [9]
    | 2 => .get path' range'

theorem readWriteRead_unaliased : UnaliasedCalls fun i : Fin 3 =>
    match i with
    | 0 => .get "d" none
    | 1 => .put "d" [9]
    | 2 => .get "d" none := by
  intro i j path range path' range' hi hj _
  have hread {i : Fin 3} {path : String} {range : Option (Nat × Nat)} (h : (match i with
      | 0 => CacheCall.get "d" none
      | 1 => .put "d" [9]
      | 2 => .get "d" none) = .get path range) : path = "d" ∧ range = none := by
    split at h
    · cases h
      exact ⟨rfl,rfl⟩
    · cases h
    · cases h
      exact ⟨rfl,rfl⟩
  obtain ⟨rfl,rfl⟩ := hread hi
  obtain ⟨rfl,rfl⟩ := hread hj
  exact ⟨rfl,rfl⟩

theorem readsFresh_whole :
    ReadsFresh demoConfig "t" rangeOf (WritesQuietly demoConfig "t")
      (readWriteRead none "d" "d" none none) ∧
      (schedule (readWriteRead none "d" "d" none none) (List.replicate 6 0 ++ [1, 1] ++
        List.replicate 6 2)).map (fun p => (p.thread 2).program.result) =
        some (some (.ok (some [9]))) :=
  ⟨readsFresh_of_quiet demoConfig "t" rangeOf (demoWorld none) readWriteRead_unaliased,
    by decide +kernel⟩

/-- Bytes from before a write are read after it: of a range, of a read that inserts late, of the
second tier, and of a path whose range has this path's name. -/
theorem readsFresh_stale :
    ¬ReadsFresh demoConfig "t" rangeOf (fun _ _ _ => True)
      (readWriteRead none "d" "d" (some (0, 1)) (some (0, 1))) ∧
    ¬ReadsFresh demoConfig "t" rangeOf (fun _ _ _ => True) (readWriteRead none "d" "d" none none) ∧
    ¬ReadsFresh demoConfig "t" rangeOf (fun _ _ _ => True)
      (readWriteRead (some fun _ => none) "d" "d" none none) ∧
    ¬ReadsFresh demoConfig "t" rangeOf (fun _ _ _ => True)
      (readWriteRead none "d" "d#0-1" (some (0, 1)) none) := by
  refine ⟨?_,?_,?_,?_⟩
  · exact not_readsFresh [0,0,0,0,0,0] [1] [2,2] [1] rfl (by decide) (by decide) (by decide +kernel)
  · exact not_readsFresh [0,0,0,0] [1,0,0] [2,2] [1,2] rfl (by decide) (by decide) (by decide +kernel)
  · exact not_readsFresh [0,0,0,0,0,0] [1] [2,2,2,2] [1,2] rfl (by decide) (by decide) (by decide +kernel)
  · exact not_readsFresh [] [1,0,0,0,0,0,0] [2,2] [1] rfl (by decide) (by decide) (by decide +kernel)

end Stale
end AiLake.Cache
