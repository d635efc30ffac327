import AiLake.VectorWrites
import AiLake.ContentCommit
import AiLake.Listing

/-! What the write paths check, and what the files of a session hold. -/
namespace AiLake

open StoreProgram List

/-- The column has this many embeddings, of its dimension and of finite numbers. -/
structure VectorColumnBatch.Holds (c : VectorColumnBatch) (n : Nat) : Prop where
  count : c.embeddings.length = n
  dim : ∀ e ∈ c.embeddings, e.length = c.policy.dim
  finite : ∀ e ∈ c.embeddings, e.all F32.isFinite = true

/-- Every column is sound, and the raw column has the vectors of the first one, each in its place
and still finite. -/
structure VectorFile.Holds (q : Quantizer) (f : VectorFile) (n : Nat) : Prop where
  columns : ∀ c ∈ f.columns, c.Holds n
  raw : ∀ c ∈ f.columns.head?, ∀ raw ∈ f.raw,
    raw = c.embeddings.map (q.stored c.policy.precision) ∧
      ∀ v ∈ raw, v.all StoredNumber.isFinite = true

/-- No component is lost to infinity in the precision that the raw column has. -/
def VectorColumnBatch.InPrecision (q : Quantizer) (c : VectorColumnBatch) : Prop :=
  c.policy.keepRaw = true →
    ∀ e ∈ c.embeddings, (q.stored c.policy.precision e).all StoredNumber.isFinite = true

/-- The numbers of components can be told apart as `u32`s. -/
def VectorColumnBatch.Counted (c : VectorColumnBatch) : Prop :=
  ∀ e ∈ c.embeddings, e.length < 2 ^ 32

namespace WriteCall

def batch : WriteCall → RecordBatch
  | plain b _ | idempotent b _ _ | deferred b _ | ivfPq b _ _ | ivfPqDeferred b _ _ | auto b _
  | autoDeferred b _ | multi b _ | multiDeferred b _ => b

def columns (writer : VectorWriter) : WriteCall → List VectorColumnBatch
  | plain _ es | idempotent _ es _ | deferred _ es | ivfPq _ es _ | ivfPqDeferred _ es _
  | auto _ es | autoDeferred _ es => [⟨writer.policy, es⟩]
  | multi _ cs | multiDeferred _ cs => cs.map (·.column)

structure Sound (writer : VectorWriter) (q : Quantizer) (call : WriteCall) : Prop where
  columns : ∀ c ∈ call.columns writer, c.Holds call.batch.numRows
  raw : ∀ c ∈ (call.columns writer).head?, c.InPrecision q

/-- What the path of a call does not check by itself. -/
def Fits (writer : VectorWriter) (engine : VectorEngine) (call : WriteCall) : Prop :=
  let q := engine.quantizer
  match call with
  | plain _ es | idempotent _ es _ | deferred _ es =>
    (⟨writer.policy, es⟩ : VectorColumnBatch).Counted ∧
      (⟨writer.policy, es⟩ : VectorColumnBatch).InPrecision q
  | ivfPq .. | ivfPqDeferred .. | multiDeferred .. => call.Sound writer q
  | auto _ es | autoDeferred _ es =>
    if engine.recommendIvfPq es.length then call.Sound writer q
    else (⟨writer.policy, es⟩ : VectorColumnBatch).Counted ∧
      (⟨writer.policy, es⟩ : VectorColumnBatch).InPrecision q
  | multi b cs => (∀ c ∈ cs, c.column.Counted) ∧
    (∀ c ∈ cs.drop 1, c.embeddings.length = b.numRows) ∧
      ∀ c ∈ cs.head?, c.column.InPrecision q

/-- An idempotent call whose key is already there. -/
def Skipped (engine : VectorEngine) (answers : Answers) : WriteCall → Prop
  | idempotent _ _ batchId => ∃ existing, answers.listing = .ok existing ∧
    alreadyWritten engine batchId existing = true
  | _ => False

end WriteCall

/-! The file writer. -/

section FileWriter

variable {engine : VectorEngine} {q : Quantizer} {batch : RecordBatch}

theorem chunksExact_flatten {α : Type} {n : Nat} (hn : n ≠ 0) {ls : List (List α)}
    (h : ∀ l ∈ ls, l.length = n) : chunksExact n ls.flatten = ls := by
  have hlen : ls.flatten.length = ls.length * n := by
    rw [length_flatten,map_congr_left h,map_const',sum_replicate,
      smul_eq_mul]
  rw [chunksExact,hlen,Nat.mul_div_cancel _ (Nat.pos_of_ne_zero hn)]
  clear hlen
  induction ls with
  | nil => rfl
  | cons l ls ih =>
    have hl : l.length = n := h l mem_cons_self
    rw [length_cons,range_succ_eq_map,map_cons,map_map]
    congr 1
    · simp [← hl]
    · refine Eq.trans (map_congr_left fun i _ => ?_)
        (ih fun l' hl' => h l' (mem_cons_of_mem _ hl'))
      have hdrop : (i + 1) * n = l.length + i * n := by
        rw [hl]
        ring
      simp [hdrop,← drop_drop]

theorem length_stored (precision : VectorPrecision) (v : List F32) :
    (q.stored precision v).length = v.length := by
  cases precision <;> simp [Quantizer.stored]

theorem writeParquet_ok {c : VectorColumnBatch} {raw : Option (List (List StoredNumber))}
    (h : writeParquet q batch c = .ok raw) :
    c.embeddings.length = batch.numRows ∧ (raw = none ∨ c.policy.keepRaw = true ∧
      c.policy.dim ≠ 0 ∧ raw = some (chunksExact c.policy.dim
        (c.embeddings.flatMap (q.stored c.policy.precision)))) := by
  unfold writeParquet at h
  split at h
  · cases h
  rename_i hlen
  refine ⟨of_not_not hlen, ?_⟩
  split at h
  · cases h
    exact .inl rfl
  rename_i hkeep
  split at h
  · cases h
  rename_i hdim
  simp only at h
  split at h
  · cases h
  · cases h
    exact .inr ⟨by simpa using hkeep, hdim, rfl⟩

theorem rawColumn_of_holds {c : VectorColumnBatch} {n : Nat} (hc : c.Holds n)
    (hdim : c.policy.dim ≠ 0) :
    chunksExact c.policy.dim (c.embeddings.flatMap (q.stored c.policy.precision)) =
      c.embeddings.map (q.stored c.policy.precision) := by
  rw [flatMap_def]
  refine chunksExact_flatten hdim fun l hl => ?_
  obtain ⟨e,he,rfl⟩ := mem_map.1 hl
  rw [length_stored,hc.dim e he]

theorem VectorFile.Holds.of_columns {c : VectorColumnBatch} {rest : List VectorColumnBatch}
    {f : VectorFile} (hraw : writeParquet q batch c = .ok f.raw) (hcolumns : f.columns = c :: rest)
    (hholds : ∀ c' ∈ c :: rest, c'.Holds batch.numRows) (hprecision : c.InPrecision q) :
    f.Holds q batch.numRows := by
  refine ⟨fun c' hc' => hholds c' (hcolumns ▸ hc'), fun c' hc' raw hr => ?_⟩
  rw [hcolumns,head?_cons,Option.mem_some_iff] at hc'
  subst hc'
  obtain ⟨-, hnone | ⟨hkeep,hdim,hsome⟩⟩ := writeParquet_ok hraw
  · rw [hnone] at hr
    cases hr
  · rw [hsome,Option.mem_some_iff,
      rawColumn_of_holds (hholds c mem_cons_self) hdim] at hr
    refine ⟨hr.symm, fun v hv => ?_⟩
    rw [← hr] at hv
    obtain ⟨e,he,rfl⟩ := mem_map.1 hv
    exact hprecision hkeep e he

theorem writeMulti_ok {kind : IndexKind} {fts : Option FtsConfig} {c : VectorColumnBatch}
    {rest : List VectorColumnBatch} {f : VectorFile}
    (h : writeMulti engine batch kind fts (c :: rest) = .ok f) :
    writeParquet engine.quantizer batch c = .ok f.raw ∧ f.columns = c :: rest := by
  unfold writeMulti at h
  simp only at h
  split at h
  · cases h
  rename_i raw hraw
  split at h
  · cases h
    exact ⟨hraw,rfl⟩
  · cases h

theorem writeParquetOnly_ok {c : VectorColumnBatch} {rest : List VectorColumnBatch}
    {f : VectorFile} (h : writeParquetOnly engine batch c rest = .ok f) :
    writeParquet engine.quantizer batch c = .ok f.raw ∧ f.columns = c :: rest := by
  unfold writeParquetOnly at h
  split at h
  · cases h
  rename_i raw hraw
  cases h
  exact ⟨hraw,rfl⟩

theorem validateEmbeddingDim_ok {policy : VectorStoragePolicy} {es : List (List F32)}
    (h : validateEmbeddingDim policy es = .ok ()) :
    ∀ e ∈ es, actualDim e = policy.dim ∧ e.all F32.isFinite = true := by
  induction es with
  | nil =>
    intro e he
    cases he
  | cons e es ih =>
    rw [validateEmbeddingDim] at h
    split at h
    · cases h
    rename_i hdim
    split at h
    · rename_i hfinite
      exact forall_mem_cons.2 ⟨⟨of_not_not hdim, hfinite⟩, ih h⟩
    · cases h

theorem VectorColumnBatch.Holds.of_validated {c : VectorColumnBatch} {n : Nat}
    (h : validateEmbeddingDim c.policy c.embeddings = .ok ()) (hcounted : c.Counted)
    (hcount : c.embeddings.length = n) : c.Holds n := by
  refine ⟨hcount, fun e he => ?_, fun e he => (validateEmbeddingDim_ok h e he).2⟩
  rw [← (validateEmbeddingDim_ok h e he).1,actualDim,Nat.mod_eq_of_lt (hcounted e he)]

theorem validateColumns_ok {columns : List MultiVectorBatch} (h : validateColumns columns = .ok ()) :
    ∀ c ∈ columns, validateEmbeddingDim c.column.policy c.column.embeddings = .ok () := by
  induction columns with
  | nil =>
    intro c hc
    cases hc
  | cons c columns ih =>
    rw [validateColumns] at h
    split at h
    · cases h
    · rename_i u hc
      exact forall_mem_cons.2 ⟨hc, ih h⟩

end FileWriter

/-! The session. -/

section Session

variable {writer : VectorWriter} {engine : VectorEngine} {answers : Answers}
  {I : List (DataFileEntry × VectorFile) → Prop}

/-- An invariant of the pending files. -/
abbrev PendingKeeps {α : Type} (I : List (DataFileEntry × VectorFile) → Prop) (c : WriteStep α) :
    Prop := c.Keeps fun s => I s.pendingFiles

theorem keeps_ensureDeferredSupported : PendingKeeps I (ensureDeferredSupported writer) := by
  unfold ensureDeferredSupported
  split
  · exact .pure ()
  · exact .throw _

theorem keeps_captureSchema (batch : RecordBatch) : PendingKeeps I (captureSchema batch) :=
  fun _ hs => hs

theorem keeps_captureExtraPolicies (columns : List MultiVectorBatch) :
    PendingKeeps I (captureExtraPolicies columns) := by
  refine .modify fun s hs => ?_
  split <;> exact hs

theorem keeps_nextPartPath : PendingKeeps I (nextPartPath writer) := fun _ hs => hs

theorem keeps_putFile : PendingKeeps I (putFile answers) := by
  unfold putFile
  split
  · exact .pure ()
  · exact .throw _

theorem keeps_createJob : PendingKeeps I (createJob answers) := by
  unfold createJob
  split
  · exact .pure ()
  · exact .throw _

theorem keeps_updateBm25 (batch : RecordBatch) (path : String) :
    PendingKeeps I (updateBm25 writer engine answers batch path) := by
  unfold updateBm25
  split
  · exact .pure ()
  · split
    · split
      · exact .modify fun _ hs => hs
      · exact .pure ()
    · exact .throw _

theorem keeps_trainCodebook (config : IvfPqConfig) (es : List (List F32)) :
    PendingKeeps I (trainCodebook engine config es) := by
  refine .bind .get fun s _ => ?_
  split
  · exact .pure ()
  · split
    · exact .modify fun _ hs => hs
    · exact .throw _

variable {path : String} {file : VectorFile} {c : VectorColumnBatch}
  {rest : List VectorColumnBatch}

theorem keeps_stageFile {entry : DataFileEntry}
    (hI : ∀ l, I l → I (l ++ [(entry, file)])) : PendingKeeps I (stageFile entry file) :=
  .modify fun s hs => hI s.pendingFiles hs

theorem keeps_storeIndexed {batchId : Option String}
    (hI : ∀ l entry, entry.recordCount = c.embeddings.length → I l → I (l ++ [(entry, file)])) :
    PendingKeeps I (storeIndexed writer engine answers path file c rest batchId) := by
  refine .bind keeps_putFile fun _ _ => ?_
  split
  · exact keeps_stageFile fun l hl => hI l _ rfl hl
  · exact .throw _

theorem keeps_storeDeferred
    (hI : ∀ l entry, entry.recordCount = c.embeddings.length → I l → I (l ++ [(entry, file)])) :
    PendingKeeps I (storeDeferred writer engine answers path file c rest) :=
  .bind keeps_putFile fun _ _ =>
    .bind (keeps_stageFile fun l hl => hI l _ rfl hl) fun _ _ => keeps_createJob

/-- Staging a sound file keeps the invariant, where the call is sound. -/
def Admits (I : List (DataFileEntry × VectorFile) → Prop) (writer : VectorWriter) (q : Quantizer)
    (call : WriteCall) : Prop :=
  call.Sound writer q → ∀ l entry file, entry.recordCount = call.batch.numRows →
    file.Holds q call.batch.numRows → I l → I (l ++ [(entry, file)])

/-- A step that stages at most a sound file, and fails for a call that is not sound. -/
structure Guarded {α : Type} (writer : VectorWriter) (engine : VectorEngine) (call : WriteCall)
    (step : WriteStep α) : Prop where
  keeps : ∀ I, Admits I writer engine.quantizer call → PendingKeeps I step
  fails : ¬call.Sound writer engine.quantizer → step.Fails

namespace Guarded

variable {α β : Type} {call : WriteCall}

theorem bind {x : WriteStep α} {f : α → WriteStep β} (hx : ∀ I, PendingKeeps I x)
    (hf : ∀ a, x.Returns a → Guarded writer engine call (f a)) :
    Guarded writer engine call (x >>= f) :=
  ⟨fun I hI => .bind (hx I) fun a ha => (hf a ha).keeps I hI,
    fun h => .bind fun a ha => (hf a ha).fails h⟩

theorem andThen {x : WriteStep α} {f : α → WriteStep β} (hx : Guarded writer engine call x)
    (hf : ∀ a I, PendingKeeps I (f a)) : Guarded writer engine call (x >>= f) := by
  refine ⟨fun I hI => .bind (hx.keeps I hI) fun a _ => hf a I, fun h => .bind fun a ha => ?_⟩
  obtain ⟨s,hs⟩ := ha
  obtain ⟨e,he⟩ := hx.fails h s
  rw [hs] at he
  cases he

theorem throw (e : AilakeError) : Guarded writer engine call (throw e : WriteStep α) :=
  ⟨fun _ _ => .throw e, fun _ => .throw e⟩

theorem indexed {kind : IndexKind} {fts : Option FtsConfig} {batchId : Option String}
    (hcolumns : call.columns writer = c :: rest) (hsound : call.Sound writer engine.quantizer)
    (hfile : writeMulti engine call.batch kind fts (c :: rest) = .ok file) :
    Guarded writer engine call (storeIndexed writer engine answers path file c rest batchId) := by
  obtain ⟨hraw,hcs⟩ := writeMulti_ok hfile
  refine ⟨fun I hI => keeps_storeIndexed fun l entry hentry hl => ?_, fun h => absurd hsound h⟩
  refine hI hsound l entry file (hentry.trans (writeParquet_ok hraw).1) ?_ hl
  exact .of_columns hraw hcs (hcolumns ▸ hsound.columns) (hsound.raw c (by rw [hcolumns]; rfl))

theorem deferred (hcolumns : call.columns writer = c :: rest)
    (hsound : call.Sound writer engine.quantizer)
    (hfile : writeParquetOnly engine call.batch c rest = .ok file) :
    Guarded writer engine call (storeDeferred writer engine answers path file c rest) := by
  obtain ⟨hraw,hcs⟩ := writeParquetOnly_ok hfile
  refine ⟨fun I hI => keeps_storeDeferred fun l entry hentry hl => ?_, fun h => absurd hsound h⟩
  refine hI hsound l entry file (hentry.trans (writeParquet_ok hraw).1) ?_ hl
  exact .of_columns hraw hcs (hcolumns ▸ hsound.columns) (hsound.raw c (by rw [hcolumns]; rfl))

end Guarded

variable {batch : RecordBatch} {es : List (List F32)} {call : WriteCall}

section OneColumn

variable (hcolumns : call.columns writer = [⟨writer.policy, es⟩])
include hcolumns

section Fits

variable (hfits : (⟨writer.policy, es⟩ : VectorColumnBatch).Counted ∧
      (⟨writer.policy, es⟩ : VectorColumnBatch).InPrecision engine.quantizer)
include hfits

theorem WriteCall.sound_of_validated (hvalid : validateEmbeddingDim writer.policy es = .ok ())
    (hcount : es.length = call.batch.numRows) : call.Sound writer engine.quantizer := by
  constructor
  · rw [hcolumns]
    exact forall_mem_singleton.2 (.of_validated hvalid hfits.1 hcount)
  · rw [hcolumns]
    intro c hc
    cases hc
    exact hfits.2

theorem guarded_writeBatchWithId {batchId : Option String} :
    Guarded writer engine call (writeBatchWithId writer engine answers call.batch es batchId) := by
  refine .bind (fun I => .ofExcept _) fun _ hvalid => ?_
  refine .bind (fun I => keeps_captureSchema _) fun _ _ => ?_
  refine .bind (fun I => keeps_nextPartPath) fun path _ => ?_
  refine .bind (fun I => .ofExcept _) fun file hfile => ?_
  have hfile := Call.returns_ofExcept hfile
  have hsound := WriteCall.sound_of_validated hcolumns hfits (Call.returns_ofExcept hvalid)
    (writeParquet_ok (writeMulti_ok hfile).1).1
  exact .andThen (.indexed hcolumns hsound hfile) fun _ I => keeps_updateBm25 _ _

theorem guarded_writeBatchDeferred :
    Guarded writer engine call (writeBatchDeferred writer engine answers call.batch es) := by
  refine .bind (fun I => keeps_ensureDeferredSupported) fun _ _ => ?_
  refine .bind (fun I => .ofExcept _) fun _ hvalid => ?_
  refine .bind (fun I => keeps_captureSchema _) fun _ _ => ?_
  refine .bind (fun I => keeps_nextPartPath) fun path _ => ?_
  refine .bind (fun I => .ofExcept _) fun file hfile => ?_
  have hfile := Call.returns_ofExcept hfile
  have hsound := WriteCall.sound_of_validated hcolumns hfits (Call.returns_ofExcept hvalid)
    (writeParquet_ok (writeParquetOnly_ok hfile).1).1
  exact .andThen (.deferred hcolumns hsound hfile) fun _ I => keeps_updateBm25 _ _

end Fits

theorem guarded_writeBatchIvfPq {config : IvfPqConfig}
    (hsound : call.Sound writer engine.quantizer) :
    Guarded writer engine call (writeBatchIvfPq writer engine answers call.batch es config) := by
  refine .bind (fun I => keeps_captureSchema _) fun _ _ => ?_
  refine .bind (fun I => keeps_nextPartPath) fun path _ => ?_
  refine .bind (fun I => keeps_trainCodebook _ _) fun _ _ => ?_
  refine .bind (fun I => .ofExcept _) fun file hfile => ?_
  exact .indexed hcolumns hsound (Call.returns_ofExcept hfile)

theorem guarded_writeBatchIvfPqDeferred (hsound : call.Sound writer engine.quantizer) :
    Guarded writer engine call (writeBatchIvfPqDeferred writer engine answers call.batch es) := by
  refine .bind (fun I => keeps_ensureDeferredSupported) fun _ _ => ?_
  refine .bind (fun I => keeps_captureSchema _) fun _ _ => ?_
  refine .bind (fun I => keeps_nextPartPath) fun path _ => ?_
  refine .bind (fun I => .ofExcept _) fun file hfile => ?_
  exact .deferred hcolumns hsound (Call.returns_ofExcept hfile)

end OneColumn

theorem WriteCall.sound_of_validatedColumns {primary : MultiVectorBatch}
    {others : List MultiVectorBatch}
    (hfits : (multi batch (primary :: others)).Fits writer engine)
    (hvalid : validateColumns (primary :: others) = .ok ())
    (hcount : primary.embeddings.length = batch.numRows) :
    (multi batch (primary :: others)).Sound writer engine.quantizer := by
  obtain ⟨hcounted,hothers,hprecision⟩ := hfits
  constructor
  · intro column hcolumn
    obtain ⟨c,hc,rfl⟩ := mem_map.1 hcolumn
    refine .of_validated (validateColumns_ok hvalid c hc) (hcounted c hc) ?_
    rcases mem_cons.1 hc with rfl | hc
    · exact hcount
    · exact hothers c hc
  · intro c hc
    cases hc
    exact hprecision primary rfl

theorem guarded_writeBatchMulti {columns : List MultiVectorBatch}
    (hfits : (WriteCall.multi batch columns).Fits writer engine) :
    Guarded writer engine (.multi batch columns)
      (writeBatchMulti writer engine answers batch columns) := by
  refine .bind (fun I => keeps_captureSchema _) fun _ _ => ?_
  refine .bind (fun I => keeps_captureExtraPolicies _) fun _ _ => ?_
  cases columns with
  | nil => exact .throw _
  | cons primary others =>
    refine .bind (fun I => .ofExcept _) fun _ hvalid => ?_
    refine .bind (fun I => keeps_nextPartPath) fun path _ => ?_
    refine .bind (fun I => .ofExcept _) fun file hfile => ?_
    have hfile := Call.returns_ofExcept hfile
    exact .indexed rfl (WriteCall.sound_of_validatedColumns hfits (Call.returns_ofExcept hvalid)
      (writeParquet_ok (writeMulti_ok hfile).1).1) hfile

theorem guarded_writeBatchMultiDeferred {columns : List MultiVectorBatch}
    (hsound : (WriteCall.multiDeferred batch columns).Sound writer engine.quantizer) :
    Guarded writer engine (.multiDeferred batch columns)
      (writeBatchMultiDeferred writer engine answers batch columns) := by
  refine .bind (fun I => keeps_ensureDeferredSupported) fun _ _ => ?_
  cases columns with
  | nil => exact .throw _
  | cons primary others =>
    refine .bind (fun I => keeps_captureSchema _) fun _ _ => ?_
    refine .bind (fun I => keeps_captureExtraPolicies _) fun _ _ => ?_
    refine .bind (fun I => keeps_nextPartPath) fun path _ => ?_
    refine .bind (fun I => .ofExcept _) fun file hfile => ?_
    exact .deferred rfl hsound (Call.returns_ofExcept hfile)

theorem WriteCall.guarded_step (hfits : call.Fits writer engine)
    (hskip : ¬call.Skipped engine answers) :
    Guarded writer engine call (call.step writer engine answers) := by
  cases call with
  | plain b es => exact guarded_writeBatchWithId rfl hfits
  | idempotent b es batchId =>
    refine .bind (fun I => .ofExcept _) fun existing hlist => ?_
    split
    · exact absurd ⟨existing, Call.returns_ofExcept hlist, ‹_›⟩ hskip
    · exact guarded_writeBatchWithId rfl hfits
  | deferred b es => exact guarded_writeBatchDeferred rfl hfits
  | ivfPq b es config => exact guarded_writeBatchIvfPq rfl hfits
  | ivfPqDeferred b es config => exact guarded_writeBatchIvfPqDeferred rfl hfits
  | auto b es =>
    by_cases hrec : engine.recommendIvfPq es.length = true
    · simp only [Fits,if_pos hrec] at hfits
      simp only [step,writeBatchAuto,if_pos hrec]
      exact guarded_writeBatchIvfPq rfl hfits
    · simp only [Fits,if_neg hrec] at hfits
      simp only [step,writeBatchAuto,if_neg hrec]
      exact guarded_writeBatchWithId rfl hfits
  | autoDeferred b es =>
    by_cases hrec : engine.recommendIvfPq es.length = true
    · simp only [Fits,if_pos hrec] at hfits
      simp only [step,writeBatchAutoDeferred,if_pos hrec]
      exact guarded_writeBatchIvfPqDeferred rfl hfits
    · simp only [Fits,if_neg hrec] at hfits
      simp only [step,writeBatchAutoDeferred,if_neg hrec]
      exact guarded_writeBatchDeferred rfl hfits
  | multi b columns => exact guarded_writeBatchMulti hfits
  | multiDeferred b columns => exact guarded_writeBatchMultiDeferred hfits

theorem WriteCall.keeps_of_skipped (hskip : call.Skipped engine answers) :
    PendingKeeps I (call.step writer engine answers) := by
  cases call with
  | idempotent b es batchId =>
    obtain ⟨existing,hlist,hfound⟩ := hskip
    refine .bind (.ofExcept _) fun existing' hlist' => ?_
    have heq := (Call.returns_ofExcept hlist').symm.trans hlist
    cases heq
    rw [if_pos hfound]
    exact .pure _
  | _ => exact absurd hskip id

theorem WriteCall.keeps_step (hfits : call.Fits writer engine)
    (hI : Admits I writer engine.quantizer call) :
    PendingKeeps I (call.step writer engine answers) := by
  by_cases hskip : call.Skipped engine answers
  · exact keeps_of_skipped hskip
  · exact (guarded_step hfits hskip).keeps I hI

/-- Every pending file holds as many sound vectors as its entry says. -/
def WriteSession.Sound (engine : VectorEngine) (s : WriteSession) : Prop :=
  ∀ p ∈ s.pendingFiles, p.2.Holds engine.quantizer p.1.recordCount

theorem WriteSession.sound_after {calls : List (WriteCall × Answers)} {s : WriteSession}
    (hfits : ∀ c ∈ calls, c.1.Fits writer engine) (hs : s.Sound engine) :
    (s.after writer engine calls).Sound engine := by
  induction calls generalizing s with
  | nil => exact hs
  | cons c calls ih =>
    refine ih (fun c' hc' => hfits c' (mem_cons_of_mem _ hc')) ?_
    refine WriteCall.keeps_step
      (I := fun l => ∀ p ∈ l, p.2.Holds engine.quantizer p.1.recordCount)
      (hfits c mem_cons_self) ?_ s hs
    intro _ l entry file hentry hfile hl
    rw [forall_mem_append]
    exact ⟨hl, forall_mem_singleton.2 (by rw [hentry]; exact hfile)⟩

theorem WriteCall.refuses (hfits : call.Fits writer engine)
    (hunsound : ¬call.Sound writer engine.quantizer) (s : WriteSession) :
    ((call.step writer engine answers).outcome s).2.pendingFiles = s.pendingFiles ∧
      (call.Skipped engine answers ∨
        ∃ e, ((call.step writer engine answers).outcome s).1 = .error e) := by
  have hkeeps : PendingKeeps (· = s.pendingFiles) (call.step writer engine answers) :=
    keeps_step hfits fun hsound => absurd hsound hunsound
  refine ⟨hkeeps s rfl, ?_⟩
  by_cases hskip : call.Skipped engine answers
  · exact .inl hskip
  · exact .inr ((guarded_step hfits hskip).fails hunsound s)

end Session

section Commit

variable {site : Site} {w w' : Store} {m : IcebergMetadata} {views : List View}

theorem readOnly_currentSnapshotOrNone (site : Site) : (currentSnapshotOrNone site).ReadOnly := by
  refine Prog.ReadOnly.bind ?_ fun r => ?_
  · exact (readOnly_loadRawMetadata.bind fun m => Prog.readOnly_pure _).attempt
  · cases r <;> exact Prog.readOnly_pure _

theorem WriteSession.listed_of_commit {writer : VectorWriter} {s : WriteSession}
    {snapshotId id : SnapshotId} {nowMs : Int} (hst : Stored site w.objects m views)
    (hfresh : FreshSnapshot site w.objects m snapshotId)
    (hrun : (s.commit writer site snapshotId nowMs).run w = (.ok id, w')) :
    ∃ before after, ((listFiles site none).run w.reliably).1 = .ok before ∧
      ((listFiles site none).run w'.reliably).1 = .ok after ∧
      ∀ f ∈ after, f ∈ before ∨ ∃ p ∈ s.pendingFiles, Committed site m p.1 f := by
  have hbefore := (run_list_current w.reliable_reliably hst).1
  unfold commit at hrun
  split at hrun
  · have hobjects : w'.objects = w.objects := by
      have hread := ((readOnly_currentSnapshotOrNone site).bind fun current =>
        Prog.readOnly_pure (current.getD 0)).objects_run w
      rw [hrun] at hread
      exact hread
    have hst' : Stored site w'.objects m views := hobjects ▸ hst
    have hafter := (run_list_current w'.reliable_reliably hst').1
    exact ⟨_, _, congrArg Prod.fst hbefore, congrArg Prod.fst hafter, fun f hf => .inl hf⟩
  · obtain ⟨stats,pstats,-,hst',-⟩ := run_commitSnapshot_ok hst hfresh hrun
    have hafter := (run_list_current w'.reliable_reliably hst').1
    refine ⟨_, _, congrArg Prod.fst hbefore, congrArg Prod.fst hafter, fun f hf => ?_⟩
    rw [lastView_concat] at hf
    have hnew : f ∈ (newView site m (s.snapshot writer snapshotId)).files →
        ∃ p ∈ s.pendingFiles, Committed site m p.1 f := by
      intro hf
      obtain ⟨e,he,hcommitted⟩ :=
        exists_mem_of_forall₂ (forall₂_committedEntries (s.snapshot writer snapshotId).files) hf
      obtain ⟨p,hp,rfl⟩ := mem_map.1 he
      exact ⟨p,hp,hcommitted⟩
    unfold committedView at hf
    split at hf
    · rcases mem_append.1 hf with hf | hf
      · exact .inl hf
      · exact .inr (hnew hf)
    · exact .inr (hnew hf)

/-- What a session and its commit leave: every new file holds, for each column, as many sound
vectors as rows, and a call whose file would not is refused. -/
structure VectorsValidated (site : Site) (m : IcebergMetadata) (writer : VectorWriter)
    (engine : VectorEngine) (calls : List (WriteCall × Answers)) (w w' : Store) : Prop where
  visible : ∃ before after, ((listFiles site none).run w.reliably).1 = .ok before ∧
    ((listFiles site none).run w'.reliably).1 = .ok after ∧
    ∀ f ∈ after, f ∈ before ∨
      ∃ p ∈ (WriteSession.new.after writer engine calls).pendingFiles,
        Committed site m p.1 f ∧ p.2.Holds engine.quantizer f.recordCount
  refused : ∀ earlier call answers later, calls = earlier ++ (call, answers) :: later →
    ¬call.Sound writer engine.quantizer →
      ((call.step writer engine answers).outcome
        (WriteSession.new.after writer engine earlier)).2.pendingFiles =
          (WriteSession.new.after writer engine earlier).pendingFiles ∧
      (call.Skipped engine answers ∨ ∃ e, ((call.step writer engine answers).outcome
        (WriteSession.new.after writer engine earlier)).1 = .error e)

/-- Every session whose calls bring what their path does not check. -/
theorem session_vectorsValidated {writer : VectorWriter} {engine : VectorEngine}
    {calls : List (WriteCall × Answers)} {snapshotId id : SnapshotId} {nowMs : Int}
    (hst : Stored site w.objects m views) (hfresh : FreshSnapshot site w.objects m snapshotId)
    (hfits : ∀ c ∈ calls, c.1.Fits writer engine)
    (hrun : ((WriteSession.new.after writer engine calls).commit writer site snapshotId nowMs).run
      w = (.ok id, w')) :
    VectorsValidated site m writer engine calls w w' := by
  constructor
  · obtain ⟨before,after,hbefore,hafter,hfiles⟩ :=
      WriteSession.listed_of_commit hst hfresh hrun
    refine ⟨before, after, hbefore, hafter, fun f hf => ?_⟩
    rcases hfiles f hf with hf | ⟨p,hp,hcommitted⟩
    · exact .inl hf
    · have hempty : WriteSession.new.Sound engine := fun p hp => by cases hp
      refine .inr ⟨p,hp,hcommitted,?_⟩
      rw [hcommitted.recordCount]
      exact WriteSession.sound_after hfits hempty p hp
  · rintro earlier call answers later rfl hunsound
    exact WriteCall.refuses (hfits (call, answers) (by simp)) hunsound _

end Commit

/-! A session that stages one file with one vector. -/

def demoVectorPolicy : VectorStoragePolicy where
  columnName := "embedding"
  dim := 2
  precision := .f16
  keepRaw := true
  embeddingModel := none
  partitionValue := none

def demoVectorWriter : VectorWriter where
  policy := demoVectorPolicy
  fts := none
  session := "s"
  parentSnapshotId := none
  bm25TextColumn := none
  ivfResidual := false
  supportsInPlaceRewrite := true

/-- Every number but infinities and NaNs is stored as 0. -/
def demoVectorEngine : VectorEngine where
  quantizer := ⟨fun x => if F32.isFinite x then 0#16 else 0x7C00#16, fun _ _ => 0#8⟩
  trains := fun _ _ => true
  builds := fun _ _ => true
  ftsBuilds := fun _ => false
  readsBack := fun _ => true
  size := fun _ => 100
  indexOffset := fun _ i => 10 * i
  indexLen := fun _ _ => 5
  columnStats := fun _ => none
  centroid := fun _ _ => ⟨"", 0#32⟩
  bloom := fun _ _ => none
  decodeKeys := fun _ => none
  recommendIvfPq := fun _ => false
  forDataset := fun _ _ => ⟨16, 4, 4, 256, 25, false⟩

def demoAnswers : Answers := ⟨.ok [], true, true, true⟩

def demoOneRow : RecordBatch where
  schema := [⟨"id", .int64, false⟩]
  rows := [⟨0, [some (.int 7)]⟩]
  valid := by decide

def demoIvfPqConfig : IvfPqConfig := ⟨16, 4, 4, 256, 25, false⟩

def demoSession (call : WriteCall) : WriteSession :=
  WriteSession.new.after demoVectorWriter demoVectorEngine [(call, demoAnswers)]

def demoSessionCommit (call : WriteCall) : Except AilakeError SnapshotId × Store :=
  ((demoSession call).commit demoVectorWriter demoSite 1 0).run (demoTable 2)

theorem session_vectorsValidated_demo :
    VectorsValidated demoSite (demoMetadata 2) demoVectorWriter demoVectorEngine
      [(.plain demoOneRow [[0x3F800000#32, 0#32]], demoAnswers)] (demoTable 2)
      (demoSessionCommit (.plain demoOneRow [[0x3F800000#32, 0#32]])).2 := by
  refine session_vectorsValidated (stored_demoTable 2) ⟨by decide, by decide⟩ ?_
    (Prod.ext (by decide :
      (demoSessionCommit (.plain demoOneRow [[0x3F800000#32,0#32]])).1 = .ok 1) rfl)
  refine forall_mem_singleton.2 ⟨?_, fun _ => ?_⟩
  · exact forall_mem_singleton.2 (by decide)
  · exact forall_mem_singleton.2 (by decide)

/-- A vector that is not a number goes through `write_batch_ivf_pq_deferred` and is committed. -/
theorem ivfPqDeferred_commits_nan :
    let call : WriteCall := .ivfPqDeferred demoOneRow [[0x7FC00000#32,0#32]] demoIvfPqConfig
    ((call.step demoVectorWriter demoVectorEngine demoAnswers).outcome .new).1 = .ok ⟨⟩ ∧
      (demoSessionCommit call).1 = .ok 1 ∧
      ¬VectorsValidated demoSite (demoMetadata 2) demoVectorWriter demoVectorEngine
        [(call, demoAnswers)] (demoTable 2) (demoSessionCommit call).2 := by
  intro call
  refine ⟨by decide, by decide, fun h => ?_⟩
  have hunsound : ¬call.Sound demoVectorWriter demoVectorEngine.quantizer := by
    intro hsound
    have hfinite := (hsound.columns ⟨demoVectorPolicy,[[0x7FC00000#32,0#32]]⟩ mem_cons_self).finite
    revert hfinite
    decide
  have hrefused := (h.refused [] call demoAnswers [] rfl hunsound).1
  revert hrefused
  decide

end AiLake
