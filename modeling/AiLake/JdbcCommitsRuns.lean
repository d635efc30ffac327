import AiLake.JdbcCommits

/-! Every run of commits and schema changes of a JDBC table ends as the calls that returned, made
one after another. A serial run makes a call once its swap has succeeded; an attempt in progress has
a world of its own, where it runs alone from the serial one it started at. -/
namespace AiLake

open StoreProgram PointerCatalog List Function

variable {ι : Type} {sqlError : String} {place : Place} {calls : ι → JdbcCall} {call : JdbcCall}
  {w₀ real real' v ws ws' : JdbcWorld} {S R R' : Set String} {i j : ι} {order : List (ι × Int)}
  {op : PointerOp (String × String) String} {a : Int} {next : op.Reply → JdbcScript Int}

/-- A world in which a caller that knows the names `S` cannot tell that it is not the real one. -/
structure Sees (place : Place) (real : JdbcWorld) (S : Set String) (v : JdbcWorld) : Prop where
  reliable : v.store.Reliable
  closed : ∀ k ∈ S, ∀ o, v.store.objects k = some o → objectRefs place o ⊆ S
  agree : ∀ k ∈ S, real.store.objects k = v.store.objects k
  stored : ∀ e : Draw, place.locate (metadataPath place e.uuid) ∈ S →
    v.store.objects (place.locate (metadataPath place e.uuid)) ≠ none
  kept : ∀ k, v.store.objects k ≠ none → real.store.objects k ≠ none

theorem Sees.frame (h : Sees place real S v)
    (hobj : ∀ k ∈ S, real'.store.objects k = real.store.objects k)
    (hkept : ∀ k, real.store.objects k ≠ none → real'.store.objects k ≠ none) :
    Sees place real' S v :=
  { h with
    agree := fun k hk => (hobj k hk).trans (h.agree k hk)
    kept := fun k hk => hkept k (h.kept k hk) }

theorem Sees.notMem_of_fresh (h : Sees place real S v) {e : Draw}
    (hfresh : real.store.objects (place.locate (metadataPath place e.uuid)) = none) :
    place.locate (metadataPath place e.uuid) ∉ S := by
  intro hmem
  exact h.kept _ (h.stored e hmem) hfresh

theorem Sees.perform {W : Set String} {op : Op String Object} (h : Sees place real S v)
    (hr : real.store.Reliable) (hop : (tableFootprint place W ∅).Allows S op)
    (hW : ∀ e : Draw, place.locate (metadataPath place e.uuid) ∉ W) :
    (op.perform real.store).1 = (op.perform v.store).1 ∧
      Sees place { real with store := (op.perform real.store).2 }
        (Footprint.track S op (op.perform v.store).1) { v with store := (op.perform v.store).2 } := by
  have hfaults : real.store.faults = v.store.faults := by
    funext n
    rw [hr n,h.reliable n]
  obtain ⟨-,hclosed,-,htrack⟩ := hop.perform h.closed
  obtain ⟨hreply,hagree⟩ := hop.perform_congr rfl hfaults h.agree
  refine ⟨hreply, h.reliable.perform op, hclosed, hagree, fun e he => ?_, fun k hk => ?_⟩
  · exact hop.perform_isSome (h.stored e ((htrack he).resolve_right (hW e)))
  · rcases hop.perform_objects (w := v.store) k with heq | hmem
    · rw [heq] at hk
      exact hop.perform_isSome (h.kept k hk)
    · rw [hagree k hmem]
      exact hk

theorem perform_putNew {w : JdbcWorld} (hr : w.store.Reliable) (e : Draw) (m : IcebergMetadata) :
    (jdbc sqlError).perform w e (.putNew place m) = (some (metadataPath place e.uuid),
      { w with store := w.store.write (place.locate (metadataPath place e.uuid)) (.metadata m) }) := by
  simp [PointerCatalog.perform,hr 0,World.tick_of_reliable hr]

theorem Sees.putNew (h : Sees place real S v) (e : Draw) {m : IcebergMetadata}
    (hm : objectRefs place (.metadata m) ⊆ S) :
    Sees place
      { real with store :=
          real.store.write (place.locate (metadataPath place e.uuid)) (.metadata m) }
      (insert (place.locate (metadataPath place e.uuid)) S)
      { v with store := v.store.write (place.locate (metadataPath place e.uuid)) (.metadata m) } where
  reliable := h.reliable.write _ _
  closed := Footprint.Closed.update (F := tableFootprint place ∅ ∅) h.closed hm
  agree k hk := by
    by_cases heq : k = place.locate (metadataPath place e.uuid)
    · simp [World.write,heq]
    · simpa [World.write,heq] using h.agree k (Set.mem_of_mem_insert_of_ne hk heq)
  stored e' he' := by
    by_cases heq : place.locate (metadataPath place e'.uuid) = place.locate (metadataPath place e.uuid)
    · simp [World.write,heq]
    · simpa [World.write,heq] using h.stored e' (Set.mem_of_mem_insert_of_ne he' heq)
  kept k hk := by
    by_cases heq : k = place.locate (metadataPath place e.uuid)
    · simp [World.write,heq]
    · have hk' : v.store.objects k ≠ none := by simpa [World.write,heq] using hk
      simpa [World.write,heq] using h.kept k hk'

/-- An attempt: the names it knows, the world it runs in and started at, the metadata it has
written; and what the call returned. -/
structure Attempt where
  known : Set String
  world : JdbcWorld
  base : JdbcWorld
  pending : Option Draw
  returned : Option Int

structure Attempt.Idle (x : Attempt) : Prop where
  known : x.known = ∅
  pending : x.pending = none

/-- The attempt started at what is still there, or does not know the metadata that is now current. -/
def Attempt.Current (place : Place) (real ws : JdbcWorld) (R : Set String) (x : Attempt) : Prop :=
  x.base = ws ∧ R ⊆ x.known ∨
    ∀ row, real.rows (place.tableNamespace, place.tableName) = some row → place.locate row.1 ∉ x.known

theorem Attempt.Current.extend {x x' : Attempt} (h : x.Current place real ws R)
    (hbase : x'.base = x.base) (hsub : x.known ⊆ x'.known)
    (hnew : ∀ k ∈ x'.known, k ∈ x.known ∨ k ∉ R) (hrows : real'.rows = real.rows)
    (hR : ∀ row, real.rows (place.tableNamespace, place.tableName) = some row →
      place.locate row.1 ∈ R) : x'.Current place real' ws R := by
  refine h.imp (fun h => ⟨hbase.trans h.1, h.2.trans hsub⟩) fun h row hrow hmem => ?_
  rw [hrows] at hrow
  exact (hnew _ hmem).elim (h row hrow) fun hout => hout (hR row hrow)

/-- What the call writes, or has written, is not known. -/
structure Attempt.Clear (place : Place) (call : JdbcCall) (x : Attempt) (S : Set String) : Prop where
  keys : ∀ k ∈ call.keys place, k ∉ S
  pending : ∀ e, x.pending = some e → place.locate (metadataPath place e.uuid) ∉ S

theorem Attempt.Clear.of_none {x x' : Attempt} (h : x.Clear place call S) (hx : x'.pending = none) :
    x'.Clear place call S := by
  refine ⟨h.keys, fun e he => ?_⟩
  rw [hx] at he
  cases he

/-- `q` is what is left of an attempt. -/
structure Attempting (sqlError : String) (place : Place) (call : JdbcCall) (real ws : JdbcWorld)
    (R : Set String) (x : Attempt) (q : JdbcScript (Option Int)) : Prop where
  sees : Sees place real x.known x.world
  rows : x.world.rows = x.base.rows
  reaches : Script.Reaches (jdbc sqlError).perform FreshDraw
    ((jdbc sqlError).swapAttempt place (call.change place)) x.base q x.world
  current : x.Current place real ws R
  keeps : q.Ensures (pointerTracking (jdbc sqlError) place some (call.keys place)) x.known
    fun _ _ => True

/-- What a call does with the outcome of an attempt. -/
def afterAttempt (sqlError : String) (place : Place) (call : JdbcCall) (n : Nat) :
    Option Int → JdbcScript Int
  | some a => pure a
  | none => (jdbc sqlError).swapLoop place call.name (call.change place) n

inductive Phase (sqlError : String) (place : Place) (call : JdbcCall) (real ws : JdbcWorld)
    (R : Set String) (x : Attempt) (program : JdbcScript Int) : Prop
  | won (a : Int) (hreturned : x.returned = some a) (hidle : x.Idle) (hprogram : program = .done a)
  | failed (e : AilakeError) (hreturned : x.returned = none) (hidle : x.Idle)
      (hprogram : program = .fail e)
  | waiting (n : Nat) (hreturned : x.returned = none) (hidle : x.Idle)
      (hprogram : program = (jdbc sqlError).swapLoop place call.name (call.change place) n)
  | preparing (n : Nat) (q : JdbcScript (Option Int)) (hreturned : x.returned = none)
      (hpending : x.pending = none) (hq : Preparing (jdbc sqlError) place q)
      (hattempt : Attempting sqlError place call real ws R x q)
      (hprogram : program = q >>= afterAttempt sqlError place call n)
  | swapping (n : Nat) (e : Draw) (seen : String) (a : Int) (hreturned : x.returned = none)
      (hpending : x.pending = some e)
      (hattempt : Attempting sqlError place call real ws R x
        (swapTail (jdbc sqlError) place (metadataPath place e.uuid) seen a))
      (hprogram : program = swapTail (jdbc sqlError) place (metadataPath place e.uuid) seen a >>=
        afterAttempt sqlError place call n)

theorem Phase.frame {x : Attempt} {program : JdbcScript Int}
    (h : Phase sqlError place call real ws R x program)
    (hobj : ∀ k ∈ x.known, real'.store.objects k = real.store.objects k)
    (hkept : ∀ k, real.store.objects k ≠ none → real'.store.objects k ≠ none)
    (hcurrent : x.Current place real ws R → x.Current place real' ws' R') :
    Phase sqlError place call real' ws' R' x program := by
  have hattempting (q : JdbcScript (Option Int)) (hq : Attempting sqlError place call real ws R x q) :
      Attempting sqlError place call real' ws' R' x q :=
    { hq with
      sees := hq.sees.frame hobj hkept
      current := hcurrent hq.current }
  cases h with
  | won a hreturned hidle hprogram => exact .won a hreturned hidle hprogram
  | failed e hreturned hidle hprogram => exact .failed e hreturned hidle hprogram
  | waiting n hreturned hidle hprogram => exact .waiting n hreturned hidle hprogram
  | preparing n q hreturned hpending hq hattempt hprogram =>
    exact .preparing n q hreturned hpending hq (hattempting q hattempt) hprogram
  | swapping n e seen a hreturned hpending hattempt hprogram =>
    exact .swapping n e seen a hreturned hpending (hattempting _ hattempt) hprogram

theorem Phase.result_eq {x : Attempt} {program : JdbcScript Int}
    (h : Phase sqlError place call real ws R x program) :
    program.result = some (.ok a) ↔ x.returned = some a := by
  cases h with
  | won b hreturned hidle hprogram => simp [hprogram,hreturned,Script.result]
  | failed e hreturned hidle hprogram => simp [hprogram,hreturned,Script.result]
  | waiting n hreturned hidle hprogram =>
    rw [hprogram,hreturned]
    cases n with
    | zero => simp [swapLoop,Script.result]
    | succ n => exact iff_of_false (Option.some_ne_none _).symm (Option.some_ne_none _).symm
  | preparing n q hreturned hpending hq hattempt hprogram =>
    rw [hprogram,hreturned]
    cases q with
    | done b => exact hq.elim
    | fail e => exact iff_of_false (fun h => by cases h) (Option.some_ne_none _).symm
    | call op next => exact iff_of_false (Option.some_ne_none _).symm (Option.some_ne_none _).symm
  | swapping n e seen b hreturned hpending hattempt hprogram =>
    rw [hprogram,hreturned]
    exact iff_of_false (Option.some_ne_none _).symm (Option.some_ne_none _).symm

theorem Phase.notMem_of_fresh {x : Attempt} {program : JdbcScript Int} {e : Draw}
    (h : Phase sqlError place call real ws R x program)
    (hfresh : real.store.objects (place.locate (metadataPath place e.uuid)) = none) :
    place.locate (metadataPath place e.uuid) ∉ x.known := by
  cases h with
  | won a hreturned hidle hprogram => simp [hidle.known]
  | failed e hreturned hidle hprogram => simp [hidle.known]
  | waiting n hreturned hidle hprogram => simp [hidle.known]
  | preparing n q hreturned hpending hq hattempt hprogram => exact hattempt.sees.notMem_of_fresh hfresh
  | swapping n e seen a hreturned hpending hattempt hprogram =>
    exact hattempt.sees.notMem_of_fresh hfresh

theorem Phase.pending_stored {x : Attempt} {program : JdbcScript Int} {e : Draw}
    (h : Phase sqlError place call real ws R x program) (he : x.pending = some e) :
    real.store.objects (place.locate (metadataPath place e.uuid)) ≠ none := by
  cases h with
  | won a hreturned hidle hprogram => simp [hidle.pending] at he
  | failed e hreturned hidle hprogram => simp [hidle.pending] at he
  | waiting n hreturned hidle hprogram => simp [hidle.pending] at he
  | preparing n q hreturned hpending hq hattempt hprogram => simp [hpending] at he
  | swapping n e' seen a hreturned hpending hattempt hprogram =>
    rw [hpending] at he
    cases he
    obtain ⟨⟨-,hknown,-⟩,-⟩ := hattempt.keeps
    exact hattempt.sees.kept _ (hattempt.sees.stored e hknown)

structure JdbcSound (sqlError : String) (place : Place) (calls : ι → JdbcCall) (w₀ : JdbcWorld)
    (p : JdbcPool ι) (order : List (ι × Int)) (ws : JdbcWorld) (R : Set String)
    (xs : ι → Attempt) : Prop where
  nodup : (order.map Prod.fst).Nodup
  returned : ∀ i a, (i, a) ∈ order ↔ (xs i).returned = some a
  serial : JdbcSerial sqlError place calls w₀ order ws
  rows : p.shared.rows = ws.rows
  reliable : p.shared.store.Reliable
  sees : Sees place p.shared R ws
  row : ∀ row, ws.rows (place.tableNamespace, place.tableName) = some row →
    row.2 = row.1 ∧ place.locate row.1 ∈ R
  clear : ∀ i, (xs i).returned = none → (xs i).Clear place (calls i) R
  apart : ∀ i, (xs i).returned = none → ∀ j ≠ i, (xs i).Clear place (calls i) (xs j).known
  phase : ∀ i, Phase sqlError place (calls i) p.shared ws R (xs i) (p.thread i).program

theorem JdbcSound.located {p : JdbcPool ι} {xs : ι → Attempt}
    (h : JdbcSound sqlError place calls w₀ p order ws R xs) (row : String × String)
    (hrow : p.shared.rows (place.tableNamespace, place.tableName) = some row) :
    place.locate row.1 ∈ R := by
  rw [h.rows] at hrow
  exact (h.row row hrow).2

theorem JdbcSound.serialised {p : JdbcPool ι} {xs : ι → Attempt}
    (h : JdbcSound sqlError place calls w₀ p order ws R xs) :
    JdbcSerialised sqlError place calls w₀ p order ws where
  nodup := h.nodup
  returned i a := (h.returned i a).trans (h.phase i).result_eq.symm
  serial := h.serial
  pointer := h.rows
  metadata row hrow := h.sees.agree _ (h.row row hrow).2
  table := pointerUnchanged_of_agree (W := ∅) h.sees.closed (fun row hrow => (h.row row hrow).2)
    (congrFun h.rows _) h.sees.agree

variable [DecidableEq ι] {p : JdbcPool ι} {xs : ι → Attempt} {x : Attempt} {program : JdbcScript Int}

theorem JdbcSound.advance (h : JdbcSound sqlError place calls w₀ p order ws R xs)
    (hreturned : x.returned = (xs i).returned) (hrows : real'.rows = p.shared.rows)
    (hreliable : real'.store.Reliable)
    (hobjR : ∀ k ∈ R, real'.store.objects k = p.shared.store.objects k)
    (hobj : ∀ j ≠ i, ∀ k ∈ (xs j).known, real'.store.objects k = p.shared.store.objects k)
    (hkept : ∀ k, p.shared.store.objects k ≠ none → real'.store.objects k ≠ none)
    (hclear : x.returned = none → x.Clear place (calls i) R ∧
      ∀ j ≠ i, x.Clear place (calls i) (xs j).known)
    (hapart : ∀ j ≠ i, (xs j).returned = none → (xs j).Clear place (calls j) x.known)
    (hphase : Phase sqlError place (calls i) real' ws R x program) :
    JdbcSound sqlError place calls w₀ ⟨real', update p.thread i ⟨program, ()⟩⟩ order ws R
      (update xs i x) where
  nodup := h.nodup
  returned j a := by
    rw [h.returned]
    by_cases hj : j = i
    · subst hj
      rw [update_self,hreturned]
    · rw [update_of_ne hj]
  serial := h.serial
  rows := hrows.trans h.rows
  reliable := hreliable
  sees := h.sees.frame hobjR hkept
  row := h.row
  clear := (forall_update_iff xs fun j y => y.returned = none → y.Clear place (calls j) R).2
    ⟨fun hx => (hclear hx).1, fun j _ => h.clear j⟩
  apart := by
    refine (forall_update_iff xs fun j y => y.returned = none →
      ∀ k ≠ j, y.Clear place (calls j) (update xs i x k).known).2 ⟨fun hx k hk => ?_,
        fun j hj hnone => ?_⟩
    · rw [update_of_ne hk]
      exact (hclear hx).2 k hk
    · refine (forall_update_iff xs fun k y => k ≠ j →
        (xs j).Clear place (calls j) y.known).2 ⟨fun _ => hapart j hj hnone, fun k _ => ?_⟩
      exact h.apart j hnone k
  phase := by
    refine (forall_update_iff xs fun j y => Phase sqlError place (calls j) real' ws R y
      (update p.thread i ⟨program, ()⟩ j).program).2 ⟨?_, fun j hj => ?_⟩
    · rw [update_self]
      exact hphase
    · rw [update_of_ne hj]
      refine (h.phase j).frame (hobj j hj) hkept fun hcurrent => ?_
      rw [Attempt.Current,hrows]
      exact hcurrent

theorem JdbcSound.stay (h : JdbcSound sqlError place calls w₀ p order ws R xs)
    (hreturned : x.returned = (xs i).returned) (hpending : x.pending = none)
    (hnone : (xs i).returned = none)
    (hknown : ∀ j ≠ i, (xs j).returned = none → (xs j).Clear place (calls j) x.known)
    (hphase : Phase sqlError place (calls i) p.shared ws R x program) :
    JdbcSound sqlError place calls w₀ ⟨p.shared, update p.thread i ⟨program, ()⟩⟩ order ws R
      (update xs i x) := by
  refine h.advance hreturned rfl h.reliable (fun _ _ => rfl) (fun _ _ _ _ => rfl) (fun _ hk => hk)
    (fun _ => ?_) hknown hphase
  exact ⟨(h.clear i hnone).of_none hpending, fun j hj => (h.apart i hnone j hj).of_none hpending⟩

/-- A swap that succeeds: the serial run makes the call, and ends in the world that the attempt saw. -/
theorem JdbcSound.commit (h : JdbcSound sqlError place calls w₀ p order ws R xs) {e : Draw}
    (hnone : (xs i).returned = none) (hpending : (xs i).pending = some e)
    (hsees : Sees place p.shared (xs i).known (xs i).world)
    (hcall : Script.Reaches (jdbc sqlError).perform FreshDraw ((calls i).program sqlError place) ws
      (.done a) ws') (hstore : ws'.store = (xs i).world.store) (hrows : real'.rows = ws'.rows)
    (hreal : real'.store = p.shared.store)
    (hrow : ws'.rows (place.tableNamespace, place.tableName) =
      some (metadataPath place e.uuid, metadataPath place e.uuid))
    (hknown : place.locate (metadataPath place e.uuid) ∈ (xs i).known) :
    JdbcSound sqlError place calls w₀ ⟨real', update p.thread i ⟨.done a, ()⟩⟩
      (order ++ [(i, a)]) ws' (xs i).known
      (update xs i ⟨∅, ws', ws', none, some a⟩) where
  nodup := by
    have hnew : i ∉ order.map Prod.fst := by
      intro hmem
      obtain ⟨⟨j,b⟩,hb,rfl⟩ := mem_map.1 hmem
      rw [(h.returned j b).1 hb] at hnone
      cases hnone
    rw [map_append,map_singleton]
    exact List.Nodup.append h.nodup (nodup_singleton i) (disjoint_singleton.2 hnew)
  returned j b := by
    rw [mem_append,mem_singleton,h.returned]
    by_cases hj : j = i
    · subst hj
      simp [hnone,eq_comm]
    · simp [hj]
  serial := h.serial.call hcall
  rows := hrows
  reliable := hreal ▸ h.reliable
  sees := by
    rcases hsees with ⟨hreliable,hclosed,hagree,hstored,hkept⟩
    rw [← hstore] at hreliable hclosed hagree hstored hkept
    rw [← hreal] at hagree hkept
    exact ⟨hreliable,hclosed,hagree,hstored,hkept⟩
  row row hr := by
    rw [hrow] at hr
    cases hr
    exact ⟨rfl,hknown⟩
  clear := (forall_update_iff xs
    fun j y => y.returned = none → y.Clear place (calls j) (xs i).known).2
      ⟨fun hx => (nomatch hx), fun j hj hj' => h.apart j hj' i hj.symm⟩
  apart := by
    refine (forall_update_iff xs fun j y => y.returned = none →
      ∀ k ≠ j, y.Clear place (calls j) (update xs i _ k).known).2
        ⟨fun hx => (nomatch hx), fun j hj hj' => ?_⟩
    refine (forall_update_iff xs fun k y => k ≠ j →
      (xs j).Clear place (calls j) y.known).2 ⟨fun _ => ?_, fun k _ => h.apart j hj' k⟩
    exact ⟨fun _ _ => Set.notMem_empty _, fun _ _ => Set.notMem_empty _⟩
  phase := by
    refine (forall_update_iff xs fun j y => Phase sqlError place (calls j) real' ws'
      (xs i).known y (update p.thread i ⟨.done a, ()⟩ j).program).2 ⟨?_, fun j hj => ?_⟩
    · rw [update_self]
      exact .won a rfl ⟨rfl,rfl⟩ rfl
    · rw [update_of_ne hj]
      refine (h.phase j).frame (fun k _ => by rw [hreal]) (fun k hk => by rwa [hreal])
        fun _ => .inr fun row hr => ?_
      -- the new metadata is known to nobody else
      rw [hrows,hrow] at hr
      cases hr
      exact (h.apart i hnone j hj).pending e hpending

/-! Steps. -/

theorem JdbcCall.metadataPath_notMem_keys (hlocate : KeepsApart place.locate) (call : JdbcCall)
    (e : Draw) : place.locate (metadataPath place e.uuid) ∉ call.keys place := by
  rintro ⟨q,hq,heq⟩
  cases call with
  | commit s => exact metadataPath_ne_key hlocate e s.snapshotId hq heq
  | evolve s => cases hq

omit [DecidableEq ι] in
theorem JdbcStart.keys_disjoint {R₀ : Set String} (h : JdbcStart place calls w₀ R₀) {k : String}
    (hij : i ≠ j) (hi : k ∈ (calls i).keys place) : k ∉ (calls j).keys place := by
  obtain ⟨q,hq,rfl⟩ := hi
  rintro ⟨q',hq',heq⟩
  cases (key_inj_of_keepsApart h.keepsApart).1 heq
  cases hci : calls i with
  | evolve s => simp [hci,JdbcCall.paths] at hq
  | commit s =>
    cases hcj : calls j with
    | evolve s' => simp [hcj,JdbcCall.paths] at hq'
    | commit s' =>
      rw [hci] at hq
      rw [hcj] at hq'
      exact hij (h.distinct i j s s' hci hcj (commitPaths_inj hq hq'))

theorem answered_eq {e : Draw} {r : op.Reply}
    (h : (jdbc sqlError).perform p.shared e op = (r, real')) :
    p.answered (.plain _) (jdbc sqlError).perform i e op next =
      ⟨real', update p.thread i ⟨next r, ()⟩⟩ := by
  simp only [Pool.answered,h]

theorem swapLoop_succ (n : Nat) :
    (jdbc sqlError).swapLoop place call.name (call.change place) (n + 1) =
      (jdbc sqlError).swapAttempt place (call.change place) >>= afterAttempt sqlError place call n := by
  rw [swapLoop]
  congr 1
  funext r
  cases r <;> rfl

variable {R₀ : Set String}

theorem JdbcSound.select (h : JdbcSound sqlError place calls w₀ p order ws R xs) {n : Nat}
    {e : Draw} (hnone : (xs i).returned = none) (hprogram : (p.thread i).program =
      (jdbc sqlError).swapLoop place (calls i).name ((calls i).change place) n)
    (hcall : (p.thread i).program = .call op next) : ∃ x, JdbcSound sqlError place calls w₀
      (p.answered (.plain _) (jdbc sqlError).perform i e op next) order ws R
      (update xs i x) := by
  cases n with
  | zero => cases hcall.symm.trans hprogram
  | succ n =>
    obtain ⟨attempt,heq,hmissing,hpreparing⟩ :=
      swapAttempt_eq (jdbc sqlError) place (calls i).plain_change
    rw [swapLoop_succ,heq] at hprogram
    cases hcall.symm.trans hprogram
    have hperform : (jdbc sqlError).perform p.shared e (.select ((jdbc sqlError).key place)) =
      (ws.rows ((jdbc sqlError).key place), p.shared) := by
      rw [← h.rows]
      rfl
    rw [answered_eq hperform]
    cases hrow : ws.rows ((jdbc sqlError).key place) with
    | none =>
      refine ⟨⟨∅,ws,ws,none,none⟩, h.stay hnone.symm rfl hnone (fun _ _ _ => ?_) ?_⟩
      · exact ⟨fun _ _ => Set.notMem_empty _, fun _ _ => Set.notMem_empty _⟩
      · refine .failed ((jdbc sqlError).notFound place) rfl ⟨rfl,rfl⟩ ?_
        rw [hmissing]
        rfl
    | some row =>
      have hkeeps : ((jdbc sqlError).swapAttempt place ((calls i).change place)).Ensures
          (pointerTracking (jdbc sqlError) place some ((calls i).keys place)) R fun _ _ => True :=
        (keeps_swapAttempt ((calls i).changes sqlError place)).mono fun _ _ _ => trivial
      have hreaches : Script.Reaches (jdbc sqlError).perform FreshDraw
          ((jdbc sqlError).swapAttempt place ((calls i).change place)) ws (attempt (some row)) ws := by
        rw [heq,← hrow]
        exact Script.Reaches.step (e := e) .start trivial
      rw [heq] at hkeeps
      refine ⟨⟨R,ws,ws,none,none⟩, h.stay hnone.symm rfl hnone (fun j _ hj => ?_) ?_⟩
      · exact h.clear j hj
      · refine .preparing n (attempt (some row)) rfl rfl (hpreparing row)
          ⟨h.sees, rfl, hreaches, .inl ⟨rfl,subset_rfl⟩, hkeeps.2 (some row) ?_⟩ rfl
        rintro _ ⟨⟩
        obtain ⟨hguard,hR⟩ := h.row row hrow
        refine ⟨hR,?_⟩
        rintro _ ⟨⟩
        rw [hguard]
        exact hR

variable {n : Nat} {e : Draw}

theorem JdbcSound.onStore (hstart : JdbcStart place calls w₀ R₀)
    (h : JdbcSound sqlError place calls w₀ p order ws R xs) {op : Op String Object}
    {rest : op.Reply → JdbcScript (Option Int)} (hnone : (xs i).returned = none)
    (hrest : ∀ r, Preparing (jdbc sqlError) place (rest r))
    (hattempt : Attempting sqlError place (calls i) p.shared ws R (xs i) (.call (.store op) rest)) :
    ∃ x, JdbcSound sqlError place calls w₀
      (p.answered (.plain _) (jdbc sqlError).perform i e (.store op)
        fun r => rest r >>= afterAttempt sqlError place (calls i) n) order ws R
      (update xs i x) := by
  obtain ⟨hallows,hnext⟩ := hattempt.keeps
  have hsees := hattempt.sees
  obtain ⟨hreply,hsees'⟩ := hsees.perform h.reliable hallows
    fun e => (calls i).metadataPath_notMem_keys hstart.keepsApart e
  obtain ⟨hexpects,-,-,htrack⟩ := hallows.perform hsees.closed
  obtain ⟨-,-,hother,-⟩ := hallows.perform (w := p.shared.store)
    (Footprint.Closed.congr hsees.closed hsees.agree)
  have hperform : (jdbc sqlError).perform p.shared e (.store op) =
      ((op.perform (xs i).world.store).1,
        { p.shared with store := (op.perform p.shared.store).2 }) := by
    rw [← hreply]
    rfl
  rw [answered_eq hperform]
  have hunseen (S : Set String) (hS : (xs i).Clear place (calls i) S) (k : String) (hk : k ∈ S) :
      (op.perform p.shared.store).2.objects k = p.shared.store.objects k :=
    hother k fun hmem => hS.keys k hmem hk
  refine ⟨⟨Footprint.track (xs i).known op (op.perform (xs i).world.store).1,
    { (xs i).world with store := (op.perform (xs i).world.store).2 }, (xs i).base, none, none⟩,
    h.advance hnone.symm rfl (h.reliable.perform op) (hunseen R (h.clear i hnone))
      (fun j hj => hunseen _ (h.apart i hnone j hj)) (fun k hk => hallows.perform_isSome hk)
      (fun _ => ?_) (fun j hj hj' => ?_) ?_⟩
  · exact ⟨(h.clear i hnone).of_none rfl, fun j hj => (h.apart i hnone j hj).of_none rfl⟩
  · have hapart := h.apart j hj' i hj.symm
    refine ⟨fun k hk hmem => ?_, fun e he hmem => ?_⟩
    · exact (htrack hmem).elim (hapart.keys k hk) (hstart.keys_disjoint hj hk)
    · exact (htrack hmem).elim (hapart.pending e he)
        ((calls i).metadataPath_notMem_keys hstart.keepsApart e)
  · refine .preparing n _ rfl rfl (hrest _) ⟨hsees', hattempt.rows, ?_, ?_, hnext _ hexpects⟩ rfl
    · exact hattempt.reaches.step (e := e) trivial
    · exact hattempt.current.extend rfl (Footprint.subset_track _ _ _)
        (fun k hk => (htrack hk).imp_right ((h.clear i hnone).keys k)) rfl h.located

theorem JdbcSound.now (h : JdbcSound sqlError place calls w₀ p order ws R xs)
    {rest : Int → JdbcScript (Option Int)} (hnone : (xs i).returned = none)
    (hpending : (xs i).pending = none) (hrest : ∀ r, Preparing (jdbc sqlError) place (rest r))
    (hattempt : Attempting sqlError place (calls i) p.shared ws R (xs i) (.call .now rest)) :
    ∃ x, JdbcSound sqlError place calls w₀
      (p.answered (.plain _) (jdbc sqlError).perform i e .now
        fun r => rest r >>= afterAttempt sqlError place (calls i) n) order ws R
      (update xs i x) := by
  have hperform : (jdbc sqlError).perform p.shared e .now = (e.nowMs, p.shared) := rfl
  rw [answered_eq hperform]
  refine ⟨xs i, h.stay rfl hpending hnone (fun j hj hj' => h.apart j hj' i hj.symm) ?_⟩
  refine .preparing n _ hnone hpending (hrest e.nowMs) ?_ rfl
  exact { hattempt with
    reaches := hattempt.reaches.step (e := e) trivial
    keeps := hattempt.keeps.2 e.nowMs trivial }

theorem JdbcSound.putNew (hstart : JdbcStart place calls w₀ R₀)
    (h : JdbcSound sqlError place calls w₀ p order ws R xs) {target : Place} {m : IcebergMetadata}
    {rest : Option String → JdbcScript (Option Int)} (hnone : (xs i).returned = none)
    (hrest : Preparing (jdbc sqlError) place (.call (.putNew target m) rest))
    (hattempt : Attempting sqlError place (calls i) p.shared ws R (xs i) (.call (.putNew target m) rest))
    (hfresh : FreshDraw p.shared e (.putNew target m)) :
    ∃ x, JdbcSound sqlError place calls w₀
      (p.answered (.plain _) (jdbc sqlError).perform i e (.putNew target m)
        fun r => rest r >>= afterAttempt sqlError place (calls i) n) order ws R
      (update xs i x) := by
  obtain ⟨⟨rfl,hm⟩,hnext⟩ := hattempt.keeps
  obtain ⟨-,seen,a,htail⟩ := hrest
  have hsees := hattempt.sees
  have hunused : p.shared.store.objects (target.locate (metadataPath target e.uuid)) = none := hfresh
  have hfreshAlone : (xs i).world.store.objects (target.locate (metadataPath target e.uuid)) = none := by
    by_contra hne
    exact hsees.kept _ hne hunused
  rw [answered_eq (perform_putNew h.reliable e m)]
  obtain ⟨k₀,hk₀⟩ : ∃ k₀, k₀ = target.locate (metadataPath target e.uuid) := ⟨_,rfl⟩
  have hnotR : k₀ ∉ R := hk₀ ▸ h.sees.notMem_of_fresh hunused
  have hnotKnown (j : ι) : k₀ ∉ (xs j).known := hk₀ ▸ (h.phase j).notMem_of_fresh hunused
  have hunseen (S : Set String) (hS : k₀ ∉ S) (k : String) (hk : k ∈ S) :
      (p.shared.store.write k₀ (.metadata m)).objects k = p.shared.store.objects k :=
    update_of_ne (ne_of_mem_of_not_mem hk hS) _ _
  have hkept (k : String) (hk : p.shared.store.objects k ≠ none) :
      (p.shared.store.write k₀ (.metadata m)).objects k ≠ none := by
    by_cases heq : k = k₀
    · simp [World.write,heq]
    · simpa [World.write,heq] using hk
  have hclear (S : Set String) (hS : (xs i).Clear target (calls i) S) (hk₀S : k₀ ∉ S) (x : Attempt)
      (hx : x.pending = some e) : x.Clear target (calls i) S := by
    refine ⟨hS.keys, fun e' he' => ?_⟩
    cases hx.symm.trans he'
    exact hk₀ ▸ hk₀S
  have hreaches := hattempt.reaches.step (e := e) hfreshAlone
  have hkeeps := hnext (some (metadataPath target e.uuid)) trivial
  have hsees' := hsees.putNew e hm
  rw [perform_putNew hsees.reliable,htail] at hreaches
  rw [htail] at hkeeps
  rw [← hk₀] at hreaches hsees' ⊢
  refine ⟨⟨insert k₀ (xs i).known, ⟨(xs i).world.store.write k₀ (.metadata m), (xs i).world.rows⟩,
    (xs i).base, some e, none⟩, h.advance hnone.symm rfl (h.reliable.write _ _) (hunseen R hnotR)
      (fun j _ => hunseen _ (hnotKnown j)) hkept (fun _ => ?_) (fun j hj hj' => ?_) ?_⟩
  · exact ⟨hclear R (h.clear i hnone) hnotR _ rfl,
      fun j hj => hclear _ (h.apart i hnone j hj) (hnotKnown j) _ rfl⟩
  · have hapart := h.apart j hj' i hj.symm
    refine ⟨fun k hk hmem => ?_, fun e' he' hmem => ?_⟩
    · rcases hmem with rfl | hmem
      · rw [hk₀] at hk
        exact (calls j).metadataPath_notMem_keys hstart.keepsApart e hk
      · exact hapart.keys k hk hmem
    · rcases hmem with heq | hmem
      · exact (h.phase j).pending_stored he' (by rw [heq,hk₀,hunused])
      · exact hapart.pending e' he' hmem
  · refine .swapping n e seen a rfl rfl ⟨hsees',hattempt.rows,hreaches,?_,?_⟩ (by rw [htail])
    · refine hattempt.current.extend rfl (Set.subset_insert _ _) (fun k hk => ?_) rfl h.located
      rcases hk with rfl | hk
      · exact .inr hnotR
      · exact .inl hk
    · rw [hk₀]
      exact hkeeps

variable (sqlError place) in
theorem perform_update (w : JdbcWorld) (e : Draw) (location seen : String) :
    ((∃ read, w.rows (place.tableNamespace, place.tableName) = some (read, seen)) ∧
      (jdbc sqlError).perform w e (.update ((jdbc sqlError).key place) location seen) =
        (true, ⟨w.store, update w.rows (place.tableNamespace, place.tableName)
          (some (location, location))⟩)) ∨
      (jdbc sqlError).perform w e (.update ((jdbc sqlError).key place) location seen) = (false, w) := by
  rcases hrow : w.rows (place.tableNamespace, place.tableName) with _ | ⟨read,current⟩
  · right
    simp only [PointerCatalog.perform,jdbc,hrow]
  · by_cases hcurrent : current = seen
    · left
      subst hcurrent
      refine ⟨⟨read,rfl⟩,?_⟩
      simp only [PointerCatalog.perform,jdbc,hrow,if_true]
    · right
      simp only [PointerCatalog.perform,jdbc,hrow,hcurrent,if_false]

theorem JdbcSound.swap (h : JdbcSound sqlError place calls w₀ p order ws R xs) {d : Draw}
    {seen : String} (hnone : (xs i).returned = none) (hpending : (xs i).pending = some d)
    (hattempt : Attempting sqlError place (calls i) p.shared ws R (xs i)
      (swapTail (jdbc sqlError) place (metadataPath place d.uuid) seen a)) :
    ∃ order' ws' R' xs', JdbcSound sqlError place calls w₀
      (p.answered (.plain _) (jdbc sqlError).perform i e
        (.update ((jdbc sqlError).key place) (metadataPath place d.uuid) seen)
        fun swapped => (if swapped then .done (some a) else .done none) >>=
          afterAttempt sqlError place (calls i) n) order' ws' R' xs' := by
  obtain ⟨⟨-,hknown,hseen⟩,-⟩ := hattempt.keeps
  rcases perform_update sqlError place p.shared e (metadataPath place d.uuid) seen with ⟨⟨read,hrow⟩,hperform⟩ | hperform
  · rw [answered_eq hperform]
    obtain ⟨hread,-⟩ := h.row _ (h.rows ▸ hrow)
    -- what was read is still current, so that the attempt started at the serial world
    obtain ⟨hbase,-⟩ := hattempt.current.resolve_right fun hstale => by
      refine hstale _ hrow ?_
      have hread' : seen = read := hread
      exact hread' ▸ hseen seen rfl
    have hrows : (xs i).world.rows = p.shared.rows := by rw [hattempt.rows,hbase,h.rows]
    have halone : (jdbc sqlError).perform (xs i).world e
        (.update ((jdbc sqlError).key place) (metadataPath place d.uuid) seen) =
        (true, ⟨(xs i).world.store, update p.shared.rows
          (place.tableNamespace, place.tableName)
          (some (metadataPath place d.uuid, metadataPath place d.uuid))⟩) := by
      rw [← hrows] at hrow ⊢
      simp only [PointerCatalog.perform,jdbc,hrow,if_true]
    have hreaches := hattempt.reaches.step (e := e) trivial
    rw [halone,hbase] at hreaches
    have hcall := hreaches.bind (afterAttempt sqlError place (calls i) 4)
    rw [← swapLoop_succ] at hcall
    have hprogram := JdbcCall.program_eq sqlError place (calls i)
    rw [maxRetries] at hprogram
    rw [← hprogram] at hcall
    exact ⟨_, _, _, _, h.commit hnone hpending hattempt.sees hcall rfl rfl rfl
      (update_self ..) hknown⟩
  · rw [answered_eq hperform]
    refine ⟨order, ws, R, _, h.stay (x := ⟨∅,ws,ws,none,none⟩) hnone.symm rfl hnone
      (fun _ _ _ => ⟨fun _ _ => Set.notMem_empty _, fun _ _ => Set.notMem_empty _⟩)
      (.waiting n rfl ⟨rfl,rfl⟩ rfl)⟩

theorem JdbcSound.step (hstart : JdbcStart place calls w₀ R₀)
    (h : JdbcSound sqlError place calls w₀ p order ws R xs)
    (hcall : (p.thread i).program = .call op next) (hfresh : FreshDraw p.shared e op) :
    ∃ order' ws' R' xs', JdbcSound sqlError place calls w₀
      (p.answered (.plain _) (jdbc sqlError).perform i e op next) order' ws' R' xs' := by
  cases h.phase i with
  | won a hreturned hidle hprogram => cases hcall.symm.trans hprogram
  | failed err hreturned hidle hprogram => cases hcall.symm.trans hprogram
  | waiting n hreturned hidle hprogram =>
    obtain ⟨x,hx⟩ := h.select (e := e) hreturned hprogram hcall
    exact ⟨_,_,_,_,hx⟩
  | preparing n q hreturned hpending hq hattempt hprogram =>
    cases q with
    | done b => exact hq.elim
    | fail err => cases hcall.symm.trans hprogram
    | call op' rest =>
      cases hcall.symm.trans hprogram
      cases op with
      | store op =>
        obtain ⟨x,hx⟩ := h.onStore (n := n) (e := e) hstart hreturned hq hattempt
        exact ⟨_,_,_,_,hx⟩
      | now =>
        obtain ⟨x,hx⟩ := h.now (n := n) (e := e) hreturned hpending hq hattempt
        exact ⟨_,_,_,_,hx⟩
      | putNew target m =>
        obtain ⟨x,hx⟩ := h.putNew (n := n) hstart hreturned hq hattempt hfresh
        exact ⟨_,_,_,_,hx⟩
      | select key => exact hq.elim
      | insert key location => exact hq.elim
      | update key location seen => exact hq.elim
  | swapping n d seen a hreturned hpending hattempt hprogram =>
    cases hcall.symm.trans hprogram
    exact h.swap hreturned hpending hattempt

omit [DecidableEq ι] in
theorem JdbcStart.sound (h : JdbcStart place calls w₀ R₀) :
    JdbcSound sqlError place calls w₀ (jdbcPool sqlError place calls w₀) [] w₀ R₀
      fun _ => ⟨∅, w₀, w₀, none, none⟩ where
  nodup := nodup_nil
  returned i a := by simp
  serial := .start
  rows := rfl
  reliable := h.reliable
  sees := ⟨h.reliable, h.closed, fun _ _ => rfl, h.stored, fun _ hk => hk⟩
  row := h.row
  clear i _ := by
    refine ⟨?_, fun e he => nomatch he⟩
    rintro k ⟨q,hq,rfl⟩
    exact h.unused i q hq
  apart i _ j _ := ⟨fun _ _ => Set.notMem_empty _, fun _ _ => Set.notMem_empty _⟩
  phase i := .waiting maxRetries rfl ⟨rfl,rfl⟩ ((calls i).program_eq sqlError place)

/-! Two schema changes that race. -/

theorem FreshDraw.of_next {ι : Type} {p : JdbcPool ι} {i : ι} {e : Draw}
    (hop : (p.thread i).program.next = some op) (h : FreshDraw p.shared e op) :
    ∀ op', (p.thread i).program.next = some op' → FreshDraw p.shared e op' := by
  intro op' hop'
  cases hop.symm.trans hop'
  exact h

def racePlace : Place := jdbcPlace "wh" id ⟨"ns", "t"⟩

/-- A table without snapshots, whose pointer is at its first metadata. -/
def raceStart : JdbcWorld where
  store := ⟨update (fun _ => none) (metadataPath racePlace "0")
    (some (.metadata (.new "wh/ns/t" 2 none none [] [] 0))), fun _ => false, false, fun _ => false⟩
  rows _ := some (metadataPath racePlace "0", metadataPath racePlace "0")

def raceCalls (process : Bool) : JdbcCall :=
  .evolve ⟨[], [], [(if process then "a" else "b", "")]⟩

def raceDraw (n : Nat) : Draw := ⟨n.repr, slashFree_repr_nat n, n⟩

theorem raceStart_metadata : raceStart.store.objects (metadataPath racePlace "0") =
    some (.metadata (.new "wh/ns/t" 2 none none [] [] 0)) := by
  simp [raceStart]

theorem jdbcStart_raceStart : JdbcStart racePlace raceCalls raceStart {metadataPath racePlace "0"} where
  reliable _ := rfl
  keepsApart := Function.injective_id.injOn
  row row hrow := by
    cases hrow
    exact ⟨rfl,rfl⟩
  closed k hk o ho := by
    rw [hk,raceStart_metadata] at ho
    cases ho
    rintro k ⟨snap,hsnap,-⟩
    cases hsnap
  stored e he := by
    have hname : racePlace.locate (metadataPath racePlace e.uuid) = metadataPath racePlace "0" := he
    rw [hname,raceStart_metadata]
    exact Option.some_ne_none _
  unused i p hp := nomatch hp
  distinct i j s s' hi := nomatch hi

theorem exists_race : ∃ p labels, History (Pool.Steps (.plain _) (jdbc "").perform
      fun p i e => ∀ op, (p.thread i).program.next = some op → FreshDraw p.shared e op)
      (jdbcPool "" racePlace raceCalls raceStart) labels p ∧
    (p.thread false).program.result = some (.ok 1) ∧ (p.thread true).program.result = some (.ok 2) := by
  have h₀ : History (Pool.Steps (.plain _) (jdbc "").perform
      fun p i e => ∀ op, (p.thread i).program.next = some op → FreshDraw p.shared e op)
      (jdbcPool "" racePlace raceCalls raceStart) [] (jdbcPool "" racePlace raceCalls raceStart) :=
    .start
  have h₁ := h₀.step (a := (false, raceDraw 0)) ⟨rfl, FreshDraw.of_next rfl trivial⟩
  have h₂ := h₁.step (a := (true, raceDraw 0)) ⟨rfl, FreshDraw.of_next rfl trivial⟩
  have h₃ := h₂.step (a := (false, raceDraw 0)) ⟨rfl, FreshDraw.of_next rfl trivial⟩
  have h₄ := h₃.step (a := (true, raceDraw 0)) ⟨rfl, FreshDraw.of_next rfl trivial⟩
  have h₅ := h₄.step (a := (false, raceDraw 0)) ⟨rfl, FreshDraw.of_next rfl trivial⟩
  have h₆ := h₅.step (a := (true, raceDraw 0)) ⟨rfl, FreshDraw.of_next rfl trivial⟩
  have h₇ := h₆.step (a := (false, raceDraw 1)) ⟨rfl, FreshDraw.of_next rfl rfl⟩
  have h₈ := h₇.step (a := (true, raceDraw 2)) ⟨rfl, FreshDraw.of_next rfl rfl⟩
  have h₉ := h₈.step (a := (false, raceDraw 0)) ⟨rfl, FreshDraw.of_next rfl trivial⟩
  have h₁₀ := h₉.step (a := (true, raceDraw 0)) ⟨rfl, FreshDraw.of_next rfl trivial⟩
  have h₁₁ := h₁₀.step (a := (true, raceDraw 0)) ⟨rfl, FreshDraw.of_next rfl trivial⟩
  have h₁₂ := h₁₁.step (a := (true, raceDraw 0)) ⟨rfl, FreshDraw.of_next rfl trivial⟩
  have h₁₃ := h₁₂.step (a := (true, raceDraw 0)) ⟨rfl, FreshDraw.of_next rfl trivial⟩
  have h₁₄ := h₁₃.step (a := (true, raceDraw 3)) ⟨rfl, FreshDraw.of_next rfl rfl⟩
  have h₁₅ := h₁₄.step (a := (true, raceDraw 0)) ⟨rfl, FreshDraw.of_next rfl trivial⟩
  exact ⟨_,_,h₁₅,rfl,rfl⟩

end AiLake
