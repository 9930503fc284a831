import VersionChain.Proofs.Store.Rows
import VersionChain.Store.Tables
import VersionChain.Store.Transaction

/-!
# Reasoning about computations on a store

`Runs x s r Q` says that the computation `x`, begun in the store `s`, ends with the result `r` in a
store with the property `Q`. One lemma for each way of putting computations together, and one
for each access to a part of the store, are all that is needed to follow an operation. Where the
result is not known in advance, `Ends x s R` says what holds of it and of the store together, and
`Keeps x P` that a property of the store outlives the computation.
-/

namespace VersionChain.StoreM

variable {ρ α β : Type}

/-- Begun in this store, the computation ends with this result in a store with this property. -/
def Runs (x : StoreM ρ α) (s : Store ρ) (r : Except StoreError α) (Q : Store ρ → Prop) : Prop :=
  ∃ s', x s = (r, s') ∧ Q s'

variable {s : Store ρ} {P Q : Store ρ → Prop}

theorem Runs.imp {x : StoreM ρ α} {r : Except StoreError α} (h : Runs x s r P)
    (hPQ : ∀ s', P s' → Q s') : Runs x s r Q := by
  obtain ⟨s', hx, hs'⟩ := h
  exact ⟨s', hx, hPQ s' hs'⟩

theorem Runs.pure {a : α} (h : Q s) : Runs (Pure.pure a : StoreM ρ α) s (.ok a) Q := ⟨s, rfl, h⟩

theorem Runs.throw {e : StoreError} (h : Q s) :
    Runs (MonadExcept.throw e : StoreM ρ α) s (.error e) Q := ⟨s, rfl, h⟩

theorem Runs.and {x : StoreM ρ α} {r : Except StoreError α} (h : Runs x s r P) (h' : Runs x s r Q) :
    Runs x s r fun s' => P s' ∧ Q s' := by
  obtain ⟨s₁, hx, hs₁⟩ := h
  obtain ⟨s₂, hx', hs₂⟩ := h'
  cases hx.symm.trans hx'
  exact ⟨s₁, hx, hs₁, hs₂⟩

/-- A computation whose first step is known. -/
theorem bind_eq {x : StoreM ρ α} {f : α → StoreM ρ β} {a : α} {s' : Store ρ}
    (hx : x s = (.ok a, s')) : (x >>= f) s = f a s' := by
  show (ExceptT.bindCont f) (x s).1 (x s).2 = _
  rw [hx]
  rfl

theorem Runs.bind {x : StoreM ρ α} {f : α → StoreM ρ β} {a : α} {r : Except StoreError β}
    (hx : Runs x s (.ok a) P) (hf : ∀ s', P s' → Runs (f a) s' r Q) : Runs (x >>= f) s r Q := by
  obtain ⟨s', hx, hs'⟩ := hx
  obtain ⟨s'', hf, hs''⟩ := hf s' hs'
  exact ⟨s'', (bind_eq hx).trans hf, hs''⟩

/-- Going on from a first step that is known exactly. -/
theorem Runs.bind_of_eq {x : StoreM ρ α} {f : α → StoreM ρ β} {a : α} {s' : Store ρ}
    {r : Except StoreError β} (hx : x s = (.ok a, s')) (hf : Runs (f a) s' r Q) :
    Runs (x >>= f) s r Q := by
  refine Runs.bind (P := (· = s')) ⟨s', hx, rfl⟩ ?_
  rintro _ rfl
  exact hf

theorem bind_eq_error {x : StoreM ρ α} {f : α → StoreM ρ β} {e : StoreError} {s' : Store ρ}
    (hx : x s = (.error e, s')) : (x >>= f) s = (.error e, s') := by
  show (ExceptT.bindCont f) (x s).1 (x s).2 = _
  rw [hx]
  rfl

theorem Runs.bind_error {x : StoreM ρ α} {f : α → StoreM ρ β} {e : StoreError}
    (hx : Runs x s (.error e) Q) : Runs (x >>= f) s (.error e) Q := by
  obtain ⟨s', hx, hs'⟩ := hx
  exact ⟨s', bind_eq_error hx, hs'⟩

/-- Where nothing fails, there is nothing to be done about it. -/
theorem tryCatch_eq {x : StoreM ρ α} {handle : StoreError → StoreM ρ α} {a : α} {s' : Store ρ}
    (hx : x s = (.ok a, s')) : tryCatch x handle s = (.ok a, s') := by
  simp only [tryCatch, tryCatchThe, MonadExceptOf.tryCatch, ExceptT.tryCatch, ExceptT.mk, Bind.bind,
    StateT.bind, hx]
  rfl

theorem Runs.tryCatch_ok {x : StoreM ρ α} {handle : StoreError → StoreM ρ α} {a : α}
    (hx : Runs x s (.ok a) Q) : Runs (tryCatch x handle) s (.ok a) Q := by
  obtain ⟨s', hx, hs'⟩ := hx
  exact ⟨s', tryCatch_eq hx, hs'⟩

theorem tryCatch_eq_error {x : StoreM ρ α} {handle : StoreError → StoreM ρ α} {e : StoreError}
    {s' : Store ρ} (hx : x s = (.error e, s')) : tryCatch x handle s = handle e s' := by
  simp only [tryCatch, tryCatchThe, MonadExceptOf.tryCatch, ExceptT.tryCatch, ExceptT.mk, Bind.bind,
    StateT.bind, hx]

theorem Runs.tryCatch_error {x : StoreM ρ α} {handle : StoreError → StoreM ρ α} {e : StoreError}
    {r : Except StoreError α} (hx : Runs x s (.error e) P)
    (hhandle : ∀ s', P s' → Runs (handle e) s' r Q) : Runs (tryCatch x handle) s r Q := by
  obtain ⟨s', hx, hs'⟩ := hx
  obtain ⟨s'', hhandle, hs''⟩ := hhandle s' hs'
  exact ⟨s'', (tryCatch_eq_error hx).trans hhandle, hs''⟩

/-- The result of a computation that is known to run. -/
theorem Runs.eq {x : StoreM ρ α} {r : Except StoreError α} (h : Runs x s r Q) :
    (x s).1 = r ∧ Q (x s).2 := by
  obtain ⟨s', hx, hs'⟩ := h
  rw [hx]
  exact ⟨rfl, hs'⟩

/-! ## Any result -/

/-- Begun in this store, the computation ends with a result and in a store of which this holds. -/
def Ends (x : StoreM ρ α) (s : Store ρ) (Q : Except StoreError α → Store ρ → Prop) : Prop :=
  Q (x s).1 (x s).2

theorem Runs.ends {x : StoreM ρ α} {r : Except StoreError α}
    {R : Except StoreError α → Store ρ → Prop} (h : Runs x s r P) (hR : ∀ s', P s' → R r s') :
    Ends x s R := by
  obtain ⟨hresult, hs'⟩ := h.eq
  unfold Ends
  rw [hresult]
  exact hR _ hs'

theorem Ends.imp {x : StoreM ρ α} {R R' : Except StoreError α → Store ρ → Prop} (h : Ends x s R)
    (hR : ∀ r s', R r s' → R' r s') : Ends x s R' := hR _ _ h

theorem Ends.and {x : StoreM ρ α} {R R' : Except StoreError α → Store ρ → Prop} (h : Ends x s R)
    (h' : Ends x s R') : Ends x s fun r s' => R r s' ∧ R' r s' := ⟨h, h'⟩

/-- What comes after a first step depends on its result. -/
theorem Ends.bind {x : StoreM ρ α} {f : α → StoreM ρ β} {R : Except StoreError α → Store ρ → Prop}
    {R' : Except StoreError β → Store ρ → Prop} (hx : Ends x s R)
    (hok : ∀ a s', R (.ok a) s' → Ends (f a) s' R')
    (herror : ∀ e s', R (.error e) s' → R' (.error e) s') : Ends (x >>= f) s R' := by
  unfold Ends at hx ⊢
  cases hresult : x s with
  | mk result s' =>
    rw [hresult] at hx
    cases result with
    | error e =>
      rw [bind_eq_error hresult]
      exact herror e s' hx
    | ok a =>
      rw [bind_eq hresult]
      exact hok a s' hx

theorem Ends.bind_of_eq {x : StoreM ρ α} {f : α → StoreM ρ β} {a : α} {s' : Store ρ}
    {R : Except StoreError β → Store ρ → Prop} (hx : x s = (.ok a, s')) (hf : Ends (f a) s' R) :
    Ends (x >>= f) s R := by
  unfold Ends
  rw [bind_eq hx]
  exact hf

/-- A failure is handled in the store that it leaves. -/
theorem Ends.caught {x : StoreM ρ α} {handle : StoreError → StoreM ρ α}
    {R R' : Except StoreError α → Store ρ → Prop} (hx : Ends x s R)
    (hok : ∀ a s', R (.ok a) s' → R' (.ok a) s')
    (herror : ∀ e s', R (.error e) s' → Ends (handle e) s' R') :
    Ends (tryCatch x handle) s R' := by
  unfold Ends at hx
  cases hresult : x s with
  | mk result s' =>
    rw [hresult] at hx
    cases result with
    | ok a =>
      have hruns : Runs (tryCatch x handle) s (.ok a) (· = s') :=
        Runs.tryCatch_ok ⟨s', hresult, rfl⟩
      refine hruns.ends ?_
      rintro _ rfl
      exact hok a _ hx
    | error e =>
      have hruns : Runs (tryCatch x handle) s (handle e s').1 (· = (handle e s').2) := by
        refine Runs.tryCatch_error (P := (· = s')) ⟨s', hresult, rfl⟩ ?_
        rintro _ rfl
        exact ⟨_, rfl, rfl⟩
      refine hruns.ends ?_
      rintro _ rfl
      exact herror e s' hx

/-- Whatever comes out of the computation, the property outlives it. -/
def Keeps (x : StoreM ρ α) (P : Store ρ → Prop) : Prop := ∀ s, P s → P (x s).2

theorem Keeps.ends {x : StoreM ρ α} (h : Keeps x P) (hs : P s) : Ends x s fun _ => P := h s hs

theorem Keeps.of_runs {x : StoreM ρ α} (h : ∀ s, P s → ∃ r, Runs x s r P) : Keeps x P := by
  intro s hs
  obtain ⟨r, hruns⟩ := h s hs
  exact hruns.eq.2

theorem Keeps.pure (a : α) : Keeps (Pure.pure a : StoreM ρ α) P := fun _ hs => hs

theorem Keeps.throw (e : StoreError) : Keeps (MonadExcept.throw e : StoreM ρ α) P := fun _ hs => hs

theorem Keeps.bind {x : StoreM ρ α} {f : α → StoreM ρ β} (hx : Keeps x P)
    (hf : ∀ a, Keeps (f a) P) : Keeps (x >>= f) P := by
  intro s hs
  have hends : Ends (x >>= f) s fun _ => P :=
    (hx.ends hs).bind (fun a s' hs' => (hf a).ends hs') fun _ _ hs' => hs'
  exact hends

/-- Looking at the store changes nothing. -/
theorem Keeps.get : Keeps (MonadState.get : StoreM ρ (Store ρ)) P := fun _ hs => hs

/-! ## Access to the parts -/

theorem get_eq (s : Store ρ) : (MonadState.get : StoreM ρ (Store ρ)) s = (.ok s, s) := rfl

theorem runs_get (h : Q s) : Runs (MonadState.get : StoreM ρ (Store ρ)) s (.ok s) Q := ⟨s, rfl, h⟩

theorem runs_modify {f : Store ρ → Store ρ} (h : Q (f s)) :
    Runs (modify f : StoreM ρ PUnit) s (.ok ⟨⟩) Q := ⟨f s, rfl, h⟩

theorem sequences_eq (f : SequenceAllocator → α × SequenceAllocator) (s : Store ρ) :
    sequences f s = (.ok (f s.service.sequences).1,
      { s with service := { s.service with sequences := (f s.service.sequences).2 } }) := rfl

theorem runs_sequences {f : SequenceAllocator → α × SequenceAllocator}
    (h : Q { s with service := { s.service with sequences := (f s.service.sequences).2 } }) :
    Runs (sequences f) s (.ok (f s.service.sequences).1) Q := ⟨_, rfl, h⟩

theorem runs_locations {f : LocationIndex → α × LocationIndex}
    (h : Q { s with service := { s.service with locations := (f s.service.locations).2 } }) :
    Runs (locations f) s (.ok (f s.service.locations).1) Q := ⟨_, rfl, h⟩

theorem runs_content {f : ContentCache → α × ContentCache}
    (h : Q { s with service := { s.service with content := (f s.service.content).2 } }) :
    Runs (content f) s (.ok (f s.service.content).1) Q := ⟨_, rfl, h⟩

theorem staging_eq (f : StagingBuffer → α × StagingBuffer) (s : Store ρ) :
    staging f s = (.ok (f s.service.staging).1,
      { s with service := { s.service with staging := (f s.service.staging).2 } }) := rfl

theorem runs_staging {f : StagingBuffer → α × StagingBuffer}
    (h : Q { s with service := { s.service with staging := (f s.service.staging).2 } }) :
    Runs (staging f) s (.ok (f s.service.staging).1) Q := ⟨_, rfl, h⟩

theorem runs_scheduler {f : Scheduler → α × Scheduler}
    (h : Q { s with service := { s.service with scheduler := (f s.service.scheduler).2 } }) :
    Runs (scheduler f) s (.ok (f s.service.scheduler).1) Q := ⟨_, rfl, h⟩

theorem onRows_eq {activity : RowActivity} {action : RowM ρ α} {a : α} {rows : ρ}
    (haction : action s.rows = (.ok a, rows)) :
    onRows activity action s = (.ok a, { s with rows }) := by
  show ((action s.rows).1.mapError _, { s with rows := (action s.rows).2 }) = _
  rw [haction]
  rfl

theorem runs_onRows {activity : RowActivity} {action : RowM ρ α} {a : α} {rows : ρ}
    (haction : action s.rows = (.ok a, rows)) (h : Q { s with rows }) :
    Runs (onRows activity action) s (.ok a) Q := ⟨_, onRows_eq haction, h⟩

theorem runs_onRows_error {activity : RowActivity} {action : RowM ρ α} {e : RowError} {rows : ρ}
    (haction : action s.rows = (.error e, rows)) (h : Q { s with rows }) :
    Runs (onRows activity action) s (.error (.rows activity e)) Q := by
  refine ⟨{ s with rows }, ?_, h⟩
  show ((action s.rows).1.mapError _, { s with rows := (action s.rows).2 }) = _
  rw [haction]
  rfl

/-! ## What most operations start with -/

theorem fingerprint_eq {key : Key} {group : Fingerprint}
    (hkey : key.fingerprint s.unpacker = .ok group) : fingerprint key s = (.ok group, s) := by
  unfold fingerprint
  rw [bind_eq (get_eq s), hkey]
  rfl

theorem tableState_eq {table : TableId} {state : TableState}
    (htable : s.tables[table]? = some state) : tableState table s = (.ok state, s) := by
  unfold tableState
  rw [bind_eq (get_eq s), htable]
  rfl

theorem runs_fingerprint {key : Key} {group : Fingerprint}
    (hkey : key.fingerprint s.unpacker = .ok group) (h : Q s) :
    Runs (fingerprint key) s (.ok group) Q := ⟨s, fingerprint_eq hkey, h⟩

theorem runs_fingerprint_error {key : Key} {cause : KeyError}
    (hkey : key.fingerprint s.unpacker = .error cause) (h : Q s) :
    Runs (fingerprint key) s (.error (.key cause)) Q := by
  refine Runs.bind (P := (· = s)) (runs_get rfl) ?_
  rintro s' rfl
  rw [hkey]
  exact .throw h

theorem runs_tableState {table : TableId} {state : TableState} (htable : s.tables[table]? = some state)
    (h : Q s) : Runs (tableState table) s (.ok state) Q := ⟨s, tableState_eq htable, h⟩

theorem runs_tableState_error {table : TableId} (htable : s.tables[table]? = none) (h : Q s) :
    Runs (tableState table) s (.error (.noTable table)) Q := by
  refine Runs.bind (P := (· = s)) (runs_get rfl) ?_
  rintro s' rfl
  rw [htable]
  exact .throw h

end VersionChain.StoreM
