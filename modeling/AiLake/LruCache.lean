import AiLake.CachingStoreSpec
import AiLake.StoreProgram.History
import Mathlib.Algebra.BigOperators.Group.List.Basic
import Mathlib.Data.List.Nodup

/-! The bookkeeping of the local tier: map, recency list and byte count over every sequence of calls. -/
namespace AiLake.Cache

open StoreProgram

def sizeIn (entries : String → Option Entry) (key : String) : Nat :=
  ((entries key).map (·.size)).getD 0

def totalSize (entries : String → Option Entry) (keys : List String) : Nat :=
  (keys.map (sizeIn entries)).sum

namespace LocalState

/-- `LocalState::default`. -/
def empty : LocalState := ⟨fun _ => none, [], 0⟩

/-- The order in which the hash map gives the stored keys that meet a condition. -/
structure Enumerates (s : LocalState) (c : String → Bool) (keys : List String) : Prop where
  nodup : keys.Nodup
  mem (key : String) : key ∈ keys ↔ (s.entries key).isSome ∧ c key

end LocalState

/-- The calls; a key is the text that `CacheManager::key` builds. -/
inductive TierCall where
  | put (key : String) (value : Bytes)
  | get (key : String)
  | invalidateSnapshot (scope : String) (snapshot : Int)
  | invalidateScope (scope : String)
  | invalidateIdentity (scope identity : String)
  deriving DecidableEq, Repr

/-- A call at a moment. The invalidations collect the keys first and then remove them one by one. -/
inductive TierStep (config : CacheConfig) : LocalState → Nat × TierCall → LocalState → Prop
  | put (s : LocalState) (now : Nat) (key : String) (value : Bytes) :
      TierStep config s (now, .put key value)
        (s.insert config.maxBytes key value (now + config.ttlMs))
  | get (s : LocalState) (now : Nat) (key : String) :
      TierStep config s (now, .get key) (s.lookup key now).2
  | invalidateSnapshot (s : LocalState) (now : Nat) (scope : String) (snapshot : Int)
      {keys : List String} (h : s.Enumerates (CacheWorld.outdated scope snapshot) keys) :
      TierStep config s (now, .invalidateSnapshot scope snapshot) (keys.foldl LocalState.remove s)
  | invalidateScope (s : LocalState) (now : Nat) (scope : String) {keys : List String}
      (h : s.Enumerates (fun key => containsText key (":" ++ scope ++ ":")) keys) :
      TierStep config s (now, .invalidateScope scope) (keys.foldl LocalState.remove s)
  | invalidateIdentity (s : LocalState) (now : Nat) (scope identity : String) {keys : List String}
      (h : s.Enumerates (CacheWorld.dropped scope identity) keys) :
      TierStep config s (now, .invalidateIdentity scope identity) (keys.foldl LocalState.remove s)

/-! What the three parts have to do with each other. -/

/-- A call that names a key in order to store it or to read it. -/
def TierCall.uses (key : String) : TierCall → Bool
  | .put key' _ | .get key' => key' == key
  | _ => false

/-- The number of the last call that used a key, counted from one. -/
def lastUse (calls : List (Nat × TierCall)) (key : String) : Nat :=
  calls.length - calls.reverse.findIdx (·.2.uses key)

structure Agrees (maxBytes : Nat) (calls : List (Nat × TierCall)) (s : LocalState) : Prop where
  nodup : s.order.Nodup
  stored (key : String) : key ∈ s.order ↔ (s.entries key).isSome
  recency : s.order.Pairwise fun a b => lastUse calls a < lastUse calls b
  sizes {key : String} {entry : Entry} (h : s.entries key = some entry) :
    entry.size = entry.value.length
  bytes {keys : List String} (h : s.Enumerates (fun _ => true) keys) :
    s.bytes = totalSize s.entries keys
  limit : s.bytes ≤ maxBytes

/-- Of the entries with the new one, least recently used first, an insertion drops the shortest
prefix without which the rest is within the limit. -/
def EvictsShortestPrefix (maxBytes : Nat) (s : LocalState) (key : String) (new : Entry)
    (t : LocalState) : Prop :=
  ∃ n, t.order = (s.order.filter (· ≠ key) ++ [key]).drop n ∧
    (∀ key', t.entries key' =
      if key' ∈ (s.order.filter (· ≠ key) ++ [key]).take n then none
      else Function.update s.entries key (some new) key') ∧
    totalSize t.entries t.order ≤ maxBytes ∧
    ∀ m < n, maxBytes <
      totalSize (Function.update s.entries key (some new)) ((s.order.filter (· ≠ key) ++ [key]).drop m)

section Sizes

variable {entries entries' : String → Option Entry} {key : String} {keys : List String}

theorem totalSize_cons : totalSize entries (key :: keys) = sizeIn entries key + totalSize entries keys :=
  List.sum_cons

theorem totalSize_append {keys' : List String} :
    totalSize entries (keys ++ keys') = totalSize entries keys + totalSize entries keys' := by
  simp [totalSize]

theorem totalSize_congr (h : ∀ key ∈ keys, entries key = entries' key) :
    totalSize entries keys = totalSize entries' keys := by
  unfold totalSize
  congr 1
  refine List.map_congr_left fun key hkey => ?_
  rw [sizeIn,sizeIn,h key hkey]

theorem totalSize_update_of_notMem {value : Option Entry} (h : key ∉ keys) :
    totalSize (Function.update entries key value) keys = totalSize entries keys := by
  refine totalSize_congr fun key' hkey' => Function.update_of_ne ?_ _ _
  rintro rfl
  exact h hkey'

theorem totalSize_perm {keys' : List String} (h : keys.Perm keys') :
    totalSize entries keys = totalSize entries keys' :=
  (h.map _).sum_eq

theorem perm_cons_filter_ne (hnodup : keys.Nodup) (hmem : key ∈ keys) :
    keys.Perm (key :: keys.filter (· ≠ key)) := by
  have herase : keys.filter (· ≠ key) = keys.erase key := by
    rw [hnodup.erase_eq_filter]
    exact List.filter_congr fun key' _ => by simp [bne,beq_eq_decide]
  rw [herase]
  exact List.perm_cons_erase hmem

theorem totalSize_filter_ne (hnodup : keys.Nodup) (habsent : key ∉ keys → entries key = none) :
    totalSize entries (keys.filter (· ≠ key)) + sizeIn entries key = totalSize entries keys := by
  by_cases hmem : key ∈ keys
  · rw [Nat.add_comm,← totalSize_cons]
    exact totalSize_perm (perm_cons_filter_ne hnodup hmem).symm
  · have hsize : sizeIn entries key = 0 := by rw [sizeIn,habsent hmem]; rfl
    rw [hsize,Nat.add_zero,List.filter_eq_self.2]
    intro key' hkey'
    exact decide_eq_true fun heq : key' = key => hmem (heq ▸ hkey')

end Sizes

structure Balanced (s : LocalState) : Prop where
  nodup : s.order.Nodup
  stored (key : String) : key ∈ s.order ↔ (s.entries key).isSome
  bytes : s.bytes = totalSize s.entries s.order

namespace Balanced

variable {s : LocalState} {key : String}

theorem absent (h : Balanced s) (hkey : key ∉ s.order) : s.entries key = none := by
  rw [h.stored] at hkey
  simpa using hkey

theorem bytes_sub (h : Balanced s) :
    s.bytes - sizeIn s.entries key = totalSize s.entries (s.order.filter (· ≠ key)) := by
  have hsum : totalSize s.entries (s.order.filter (· ≠ key)) + sizeIn s.entries key =
      totalSize s.entries s.order := totalSize_filter_ne h.nodup h.absent
  rw [h.bytes]
  omega

theorem enumerates (h : Balanced s) (c : String → Bool) : s.Enumerates c (s.order.filter c) :=
  ⟨h.nodup.filter c, fun key => by simp [h.stored]⟩

theorem perm_filter (h : Balanced s) {c : String → Bool} {keys : List String}
    (hkeys : s.Enumerates c keys) : keys.Perm (s.order.filter c) :=
  (List.perm_ext_iff_of_nodup hkeys.nodup (h.nodup.filter c)).2 fun key =>
    (hkeys.mem key).trans ((h.enumerates c).mem key).symm

theorem remove (h : Balanced s) (key : String) : Balanced (s.remove key) where
  nodup := h.nodup.filter _
  stored key' := by
    by_cases heq : key' = key
    · subst heq
      simp [LocalState.remove]
    · simp [LocalState.remove,h.stored,heq]
  bytes := by
    have hnot : key ∉ s.order.filter (· ≠ key) := by simp
    exact h.bytes_sub.trans (totalSize_update_of_notMem hnot).symm

theorem touch (h : Balanced s) (hkey : (s.entries key).isSome) :
    Balanced { s with order := s.order.filter (· ≠ key) ++ [key] } := by
  have hmem : key ∈ s.order := (h.stored key).2 hkey
  have hperm : (s.order.filter (· ≠ key) ++ [key]).Perm s.order :=
    (List.perm_append_singleton key _).trans (perm_cons_filter_ne h.nodup hmem).symm
  exact ⟨hperm.nodup_iff.2 h.nodup, fun key' => hperm.mem_iff.trans (h.stored key'),
    h.bytes.trans (totalSize_perm hperm).symm⟩

theorem store (h : Balanced s) (key : String) (new : Entry) :
    Balanced ⟨Function.update s.entries key (some new), s.order.filter (· ≠ key) ++ [key],
      s.bytes - sizeIn s.entries key + new.size⟩ where
  nodup := by
    refine List.nodup_append.2 ⟨h.nodup.filter _, List.nodup_singleton key, ?_⟩
    simp
  stored key' := by
    by_cases heq : key' = key
    · subst heq
      simp
    · simp [h.stored,heq]
  bytes := by
    have hnot : key ∉ s.order.filter (· ≠ key) := by simp
    have hlast : totalSize (Function.update s.entries key (some new)) [key] = new.size := by
      simp [totalSize,sizeIn]
    change _ = totalSize _ (s.order.filter (· ≠ key) ++ [key])
    rw [totalSize_append,totalSize_update_of_notMem hnot,hlast,h.bytes_sub]

end Balanced

theorem evict_spec (maxBytes : Nat) {entries : String → Option Entry} {bytes : Nat}
    {order : List String} (h : Balanced ⟨entries, order, bytes⟩) :
    ∃ n, LocalState.evict maxBytes entries bytes order =
        ⟨fun key => if key ∈ order.take n then none else entries key, order.drop n,
          totalSize entries (order.drop n)⟩ ∧
      totalSize entries (order.drop n) ≤ maxBytes ∧
      ∀ m < n, maxBytes < totalSize entries (order.drop m) := by
  induction order generalizing entries bytes with
  | nil =>
    have hbytes : bytes = 0 := h.bytes
    exact ⟨0, by simp [LocalState.evict,hbytes,totalSize], Nat.zero_le _, by simp⟩
  | cons oldest order ih =>
    have hbytes : bytes = totalSize entries (oldest :: order) := h.bytes
    by_cases hfull : bytes > maxBytes
    · obtain ⟨old,hold⟩ := Option.isSome_iff_exists.1 ((h.stored oldest).1 List.mem_cons_self)
      change entries oldest = some old at hold
      have hsplit := List.nodup_cons.1 h.nodup
      have hrest : Balanced ⟨Function.update entries oldest none, order, bytes - old.size⟩ := by
        have hfilter : (oldest :: order).filter (· ≠ oldest) = order := by
          rw [List.filter_cons_of_neg (by simp),List.filter_eq_self]
          intro key hkey
          exact decide_eq_true fun heq : key = oldest => hsplit.1 (heq ▸ hkey)
        simpa only [LocalState.remove,hfilter,hold,Option.map_some,Option.getD_some] using
          h.remove oldest
      obtain ⟨n,hn,hfits,hleast⟩ := ih hrest
      have hkeep (m : Nat) : totalSize (Function.update entries oldest none) (order.drop m) =
          totalSize entries (order.drop m) :=
        totalSize_update_of_notMem fun hmem => hsplit.1 (List.mem_of_mem_drop hmem)
      refine ⟨n + 1, ?_, ?_, ?_⟩
      · rw [LocalState.evict,if_pos hfull,hold]
        refine hn.trans ?_
        rw [hkeep]
        congr 1
        funext key
        by_cases heq : key = oldest
        · simp [heq]
        · simp [heq]
      · rw [List.drop_succ_cons,← hkeep]
        exact hfits
      · rintro (_ | m) hm
        · rw [List.drop_zero,← hbytes]
          exact hfull
        · rw [List.drop_succ_cons,← hkeep]
          exact hleast m (Nat.lt_of_succ_lt_succ hm)
    · refine ⟨0, ?_, ?_, by simp⟩
      · rw [LocalState.evict,if_neg hfull]
        simp [hbytes]
      · rw [List.drop_zero,← hbytes]
        exact Nat.le_of_not_lt hfull

theorem insert_spec {s : LocalState} (h : Balanced s) (maxBytes : Nat) (key : String) (value : Bytes)
    (expiresAt : Nat) :
    ∃ n, s.insert maxBytes key value expiresAt =
        ⟨fun key' => if key' ∈ (s.order.filter (· ≠ key) ++ [key]).take n then none
          else Function.update s.entries key (some ⟨value, expiresAt, value.length⟩) key',
          (s.order.filter (· ≠ key) ++ [key]).drop n,
          totalSize (Function.update s.entries key (some ⟨value, expiresAt, value.length⟩))
            ((s.order.filter (· ≠ key) ++ [key]).drop n)⟩ ∧
      totalSize (Function.update s.entries key (some ⟨value, expiresAt, value.length⟩))
        ((s.order.filter (· ≠ key) ++ [key]).drop n) ≤ maxBytes ∧
      ∀ m < n, maxBytes <
        totalSize (Function.update s.entries key (some ⟨value, expiresAt, value.length⟩))
          ((s.order.filter (· ≠ key) ++ [key]).drop m) :=
  evict_spec maxBytes (h.store key ⟨value,expiresAt,value.length⟩)

theorem Balanced.dropPrefix {s : LocalState} (h : Balanced s) (n : Nat) :
    Balanced ⟨fun key => if key ∈ s.order.take n then none else s.entries key, s.order.drop n,
      totalSize s.entries (s.order.drop n)⟩ := by
  have hapart : ∀ key ∈ s.order.drop n, key ∉ s.order.take n := by
    have hnodup := h.nodup
    rw [← List.take_append_drop n s.order] at hnodup
    intro key hdrop htake
    exact (List.nodup_append.1 hnodup).2.2 key htake key hdrop rfl
  refine ⟨h.nodup.sublist (List.drop_sublist n _), fun key => ?_, ?_⟩
  · by_cases htake : key ∈ s.order.take n
    · have hdrop : key ∉ s.order.drop n := fun hdrop => hapart key hdrop htake
      simp [htake,hdrop]
    · have hsplit : key ∈ s.order ↔ key ∈ s.order.drop n := by
        conv_lhs => rw [← List.take_append_drop n s.order]
        rw [List.mem_append,or_iff_right htake]
      simp [htake,← hsplit,h.stored]
  · exact totalSize_congr fun key hkey => (if_neg (hapart key hkey)).symm

/-! The order of last use. -/

section Recency

variable {calls : List (Nat × TierCall)} {now : Nat} {call : TierCall} {key : String}
  {keys : List String}

theorem lastUse_le_length : lastUse calls key ≤ calls.length := Nat.sub_le _ _

theorem lastUse_snoc_of_uses (h : call.uses key) :
    lastUse (calls ++ [(now, call)]) key = calls.length + 1 := by
  simp [lastUse,List.findIdx_cons,h]

theorem lastUse_snoc_of_not_uses (h : call.uses key = false) :
    lastUse (calls ++ [(now, call)]) key = lastUse calls key := by
  simp [lastUse,List.findIdx_cons,h]

theorem recency_snoc (h : keys.Pairwise fun a b => lastUse calls a < lastUse calls b)
    (hunused : ∀ key ∈ keys, call.uses key = false) :
    keys.Pairwise fun a b =>
      lastUse (calls ++ [(now, call)]) a < lastUse (calls ++ [(now, call)]) b := by
  refine h.imp_of_mem fun ha hb hlt => ?_
  rw [lastUse_snoc_of_not_uses (hunused _ ha),lastUse_snoc_of_not_uses (hunused _ hb)]
  exact hlt

theorem recency_touch (h : keys.Pairwise fun a b => lastUse calls a < lastUse calls b)
    (huses : ∀ key', call.uses key' = (key == key')) :
    (keys.filter (· ≠ key) ++ [key]).Pairwise fun a b =>
      lastUse (calls ++ [(now, call)]) a < lastUse (calls ++ [(now, call)]) b := by
  have hunused : ∀ key' ∈ keys.filter (· ≠ key), call.uses key' = false := by
    intro key' hkey'
    have hne : key' ≠ key := by simpa using (List.mem_filter.1 hkey').2
    rw [huses]
    exact beq_false_of_ne hne.symm
  refine List.pairwise_append.2
    ⟨recency_snoc (h.filter _) hunused, List.pairwise_singleton _ _, fun a ha b hb => ?_⟩
  obtain rfl := List.mem_singleton.1 hb
  rw [lastUse_snoc_of_not_uses (hunused a ha),lastUse_snoc_of_uses (by simp [huses])]
  exact Nat.lt_succ_of_le lastUse_le_length

end Recency

structure Kept (maxBytes : Nat) (calls : List (Nat × TierCall)) (s : LocalState) : Prop where
  balanced : Balanced s
  recency : s.order.Pairwise fun a b => lastUse calls a < lastUse calls b
  sizes {key : String} {entry : Entry} (h : s.entries key = some entry) :
    entry.size = entry.value.length
  limit : s.bytes ≤ maxBytes

namespace Kept

variable {maxBytes : Nat} {calls : List (Nat × TierCall)} {s : LocalState} {now : Nat}
  {call : TierCall} {key : String}

theorem remove (h : Kept maxBytes calls s) (key : String) : Kept maxBytes calls (s.remove key) where
  balanced := h.balanced.remove key
  recency := h.recency.filter _
  sizes {key' entry} hentry := by
    by_cases heq : key' = key
    · simp [LocalState.remove,heq] at hentry
    · exact h.sizes (by simpa [LocalState.remove,heq] using hentry)
  limit := (Nat.sub_le _ _).trans h.limit

theorem foldl_remove (h : Kept maxBytes calls s) (keys : List String) :
    Kept maxBytes calls (keys.foldl LocalState.remove s) := by
  induction keys generalizing s with
  | nil => exact h
  | cons key keys ih => exact ih (h.remove key)

theorem snoc (h : Kept maxBytes calls s) (hunused : ∀ key ∈ s.order, call.uses key = false) :
    Kept maxBytes (calls ++ [(now, call)]) s :=
  ⟨h.balanced, recency_snoc h.recency hunused, h.sizes, h.limit⟩

theorem insert (h : Kept maxBytes calls s) (key : String) (value : Bytes) (expiresAt : Nat) :
    Kept maxBytes (calls ++ [(now, .put key value)]) (s.insert maxBytes key value expiresAt) := by
  obtain ⟨n,hinsert,hfits,-⟩ := insert_spec h.balanced maxBytes key value expiresAt
  rw [hinsert]
  have htouched : (s.order.filter (· ≠ key) ++ [key]).Pairwise fun a b =>
      lastUse (calls ++ [(now, .put key value)]) a < lastUse (calls ++ [(now, .put key value)]) b :=
    recency_touch h.recency fun _ => rfl
  refine ⟨(h.balanced.store key ⟨value,expiresAt,value.length⟩).dropPrefix n,
    htouched.sublist (List.drop_sublist n _), fun {key' entry} hentry => ?_, hfits⟩
  -- an entry that is left is the new one or was there before
  dsimp only at hentry
  split at hentry
  · cases hentry
  · by_cases heq : key' = key
    · rw [heq,Function.update_self] at hentry
      cases hentry
      rfl
    · rw [Function.update_of_ne heq] at hentry
      exact h.sizes hentry

theorem lookup (h : Kept maxBytes calls s) (key : String) :
    Kept maxBytes (calls ++ [(now, .get key)]) (s.lookup key now).2 := by
  unfold LocalState.lookup
  split
  · -- nothing is stored under the key
    rename_i hnone
    refine h.snoc fun key' hkey' => beq_false_of_ne ?_
    rintro rfl
    have hstored := (h.balanced.stored _).1 hkey'
    rw [hnone] at hstored
    cases hstored
  · rename_i entry hentry
    split
    · have hstored : (s.entries key).isSome := by rw [hentry]; rfl
      exact ⟨h.balanced.touch hstored, recency_touch h.recency fun _ => rfl, h.sizes, h.limit⟩
    · -- an expired entry goes
      refine (h.remove key).snoc fun key' hkey' => beq_false_of_ne ?_
      rintro rfl
      simp [LocalState.remove] at hkey'

theorem step {config : CacheConfig} {t : LocalState} {label : Nat × TierCall}
    (h : Kept config.maxBytes calls s) (hstep : TierStep config s label t) :
    Kept config.maxBytes (calls ++ [label]) t := by
  cases hstep with
  | put now key value => exact h.insert key value _
  | get now key => exact h.lookup key
  | invalidateSnapshot now scope snapshot hkeys => exact (h.foldl_remove _).snoc fun _ _ => rfl
  | invalidateScope now scope hkeys => exact (h.foldl_remove _).snoc fun _ _ => rfl
  | invalidateIdentity now scope identity hkeys => exact (h.foldl_remove _).snoc fun _ _ => rfl

theorem history {config : CacheConfig} (h : History (TierStep config) .empty calls s) :
    Kept config.maxBytes calls s := by
  induction h with
  | start =>
    have hempty : Balanced .empty := ⟨List.nodup_nil, by simp [LocalState.empty], rfl⟩
    exact ⟨hempty, List.Pairwise.nil, by simp [LocalState.empty], Nat.zero_le _⟩
  | step _ hstep ih => exact ih.step hstep

theorem agrees (h : Kept maxBytes calls s) : Agrees maxBytes calls s where
  nodup := h.balanced.nodup
  stored := h.balanced.stored
  recency := h.recency
  sizes := h.sizes
  bytes hkeys := by
    rw [h.balanced.bytes,totalSize_perm (h.balanced.perm_filter hkeys),List.filter_true]
  limit := h.limit

end Kept

theorem Balanced.exists_step {s : LocalState} (h : Balanced s) (config : CacheConfig)
    (label : Nat × TierCall) : ∃ t, TierStep config s label t := by
  obtain ⟨now,call⟩ := label
  cases call with
  | put key value => exact ⟨_, .put s now key value⟩
  | get key => exact ⟨_, .get s now key⟩
  | invalidateSnapshot scope snapshot =>
    exact ⟨_, .invalidateSnapshot s now scope snapshot (h.enumerates _)⟩
  | invalidateScope scope => exact ⟨_, .invalidateScope s now scope (h.enumerates _)⟩
  | invalidateIdentity scope identity =>
    exact ⟨_, .invalidateIdentity s now scope identity (h.enumerates _)⟩

theorem Balanced.evictsShortestPrefix {s : LocalState} (h : Balanced s) (maxBytes : Nat) (key : String)
    (value : Bytes) (expiresAt : Nat) :
    EvictsShortestPrefix maxBytes s key ⟨value, expiresAt, value.length⟩
      (s.insert maxBytes key value expiresAt) := by
  obtain ⟨n,hinsert,hfits,hleast⟩ := insert_spec h maxBytes key value expiresAt
  have hbytes := ((h.store key ⟨value,expiresAt,value.length⟩).dropPrefix n).bytes
  refine ⟨n, congrArg LocalState.order hinsert, fun key' => ?_, ?_, hleast⟩
  · exact congrFun (congrArg LocalState.entries hinsert) key'
  · rw [hinsert]
    exact hbytes.symm.trans_le hfits

/-- After every sequence of calls the three parts agree and the limit is kept, every further call
returns, and an insertion evicts what it has to and no more. -/
theorem tier_bookkeeping (config : CacheConfig) {calls : List (Nat × TierCall)} {s : LocalState}
    (h : History (TierStep config) .empty calls s) :
    Agrees config.maxBytes calls s ∧ (∀ label, ∃ t, TierStep config s label t) ∧
      ∀ now key value t, TierStep config s (now, .put key value) t →
        EvictsShortestPrefix config.maxBytes s key ⟨value, now + config.ttlMs, value.length⟩ t := by
  have hkept := Kept.history h
  refine ⟨hkept.agrees, hkept.balanced.exists_step config, ?_⟩
  intro now key value t hstep
  cases hstep
  exact hkept.balanced.evictsShortestPrefix config.maxBytes key value _

theorem tier_bookkeeping_put :
    Agrees 4 [(0, .put "ailake:index:t:current:a" [1, 2, 3])]
      (LocalState.empty.insert 4 "ailake:index:t:current:a" [1, 2, 3] 5) :=
  (tier_bookkeeping ⟨"ailake",4,5⟩ (.step .start (.put _ 0 _ _))).1

/-! What is found: the tier only forgets entries of a map without a limit. -/

/-- The entries that a call takes out. -/
def TierCall.drops (key : String) : TierCall → Bool
  | .put .. | .get _ => false
  | .invalidateSnapshot scope snapshot => CacheWorld.outdated scope snapshot key
  | .invalidateScope scope => containsText key (":" ++ scope ++ ":")
  | .invalidateIdentity scope identity => CacheWorld.dropped scope identity key

/-- A map that evicts nothing and in which nothing expires. -/
def plainEntries (config : CacheConfig) (calls : List (Nat × TierCall)) : String → Option Entry :=
  calls.foldl (fun entries c => match c.2 with
    | .put key value => Function.update entries key (some ⟨value, c.1 + config.ttlMs, value.length⟩)
    | call => fun key => if call.drops key then none else entries key) fun _ => none

theorem foldl_remove_entries {s : LocalState} {keys : List String} {key : String} {entry : Entry}
    (h : (keys.foldl LocalState.remove s).entries key = some entry) :
    key ∉ keys ∧ s.entries key = some entry := by
  induction keys generalizing s with
  | nil => exact ⟨List.not_mem_nil, h⟩
  | cons k keys ih =>
    obtain ⟨hkeys,hentry⟩ := ih h
    obtain ⟨-,hnone⟩ | ⟨hne,hentry⟩ := update_eq_some.1 hentry
    · cases hnone
    · exact ⟨by simp [hne,hkeys], hentry⟩

theorem TierStep.entries {config : CacheConfig} {s t : LocalState} {label : Nat × TierCall}
    {calls : List (Nat × TierCall)} (hstep : TierStep config s label t)
    (h : ∀ key entry, s.entries key = some entry → plainEntries config calls key = some entry)
    (key : String) (entry : Entry) (hentry : t.entries key = some entry) :
    plainEntries config (calls ++ [label]) key = some entry := by
  have hdrop {c : String → Bool} {keys : List String} (hkeys : s.Enumerates c keys)
      (ht : (keys.foldl LocalState.remove s).entries key = some entry) :
      (if c key then none else plainEntries config calls key) = some entry := by
    obtain ⟨hnot,hs⟩ := foldl_remove_entries ht
    rw [hkeys.mem,hs] at hnot
    rw [if_neg (by simpa using hnot)]
    exact h key entry hs
  rw [plainEntries,List.foldl_append]
  cases hstep with
  | put now key' value =>
    obtain ⟨rfl,hnew⟩ | ⟨hne,hold⟩ := update_eq_some.1 (evict_entries hentry)
    · exact update_eq_some.2 (.inl ⟨rfl,hnew⟩)
    · exact update_eq_some.2 (.inr ⟨hne, h key entry hold⟩)
  | get now key' => exact h key entry (lookup_entries hentry)
  | invalidateSnapshot now scope snapshot hkeys => exact hdrop hkeys hentry
  | invalidateScope now scope hkeys => exact hdrop hkeys hentry
  | invalidateIdentity now scope identity hkeys => exact hdrop hkeys hentry

/-- After every sequence of calls, a lookup finds nothing, or the value that was last put under the
key, within its time to live and with no invalidation of the key since. -/
theorem tier_lookup_plain (config : CacheConfig) {calls : List (Nat × TierCall)} {s : LocalState}
    (h : History (TierStep config) .empty calls s) {key : String} {now : Nat} {value : Bytes}
    (hfound : (s.lookup key now).1 = some value) :
    ∃ entry, plainEntries config calls key = some entry ∧ entry.value = value ∧
      now < entry.expiresAt := by
  have hentries : ∀ key entry, s.entries key = some entry →
      plainEntries config calls key = some entry := by
    clear hfound
    induction h with
    | start => exact fun _ _ hnone => hnone
    | step _ hstep ih => exact hstep.entries ih
  unfold LocalState.lookup at hfound
  split at hfound
  · cases hfound
  · rename_i entry hentry
    split at hfound
    · exact ⟨entry, hentries key entry hentry, Option.some.inj hfound, ‹_›⟩
    · cases hfound

theorem tier_lookup_plain_put : ∃ entry, plainEntries ⟨"ailake", 4, 5⟩
    [(0, .put "ailake:index:t:current:a" [1, 2, 3])] "ailake:index:t:current:a" = some entry ∧
      entry.value = [1, 2, 3] ∧ 4 < entry.expiresAt :=
  tier_lookup_plain ⟨"ailake", 4, 5⟩ (.step .start (.put _ 0 _ _)) (by decide)

end AiLake.Cache
