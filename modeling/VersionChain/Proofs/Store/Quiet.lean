import VersionChain.Proofs.Store.Places

/-!
# Steps that change nothing but caches

While versions are rebuilt, nothing changes but what is cached of contents and locations, the
scheduler and the counters of the rows; and every content that is cached is right.

* `Quiet` — nothing else differs;
* `Quiet.bind` — one quiet step after another;
* `runs_locate` — the row of a version is found quietly.
-/

namespace VersionChain.StoreM

open MemoryRows

/-- Nothing differs but the caches of contents and locations, the scheduler and the counters of the
rows, and the contents cached have a property. -/
structure Quiet (P : ContentKey → Bytes → Prop) (s s' : Store MemoryRows) : Prop where
  rest : { s' with
    service := { s'.service with
      content := s.service.content
      locations := s.service.locations
      scheduler := s.service.scheduler }
    rows := s.rows } = s
  rows : Recounted s.rows s'.rows
  serves : s'.service.content.Serves P
  sound : s.service.locations.Sound → s'.service.locations.Sound

variable {P : ContentKey → Bytes → Prop} {s s' s'' : Store MemoryRows} {α β : Type}

theorem quiet_refl (h : s.service.content.Serves P) : Quiet P s s := ⟨rfl, rfl, h, id⟩

theorem Quiet.codec (h : Quiet P s s') : s'.codec = s.codec := (congrArg Store.codec h.rest :)

theorem Quiet.unpacker (h : Quiet P s s') : s'.unpacker = s.unpacker :=
  (congrArg Store.unpacker h.rest :)

theorem Quiet.tables (h : Quiet P s s') : s'.tables = s.tables :=
  (congrArg Store.tables h.rest :)

theorem Quiet.staging (h : Quiet P s s') : s'.service.staging = s.service.staging :=
  (congrArg (fun x : Store MemoryRows => x.service.staging) h.rest :)

theorem Quiet.sequences (h : Quiet P s s') : s'.service.sequences = s.service.sequences :=
  (congrArg (fun x : Store MemoryRows => x.service.sequences) h.rest :)

theorem Quiet.trans (h : Quiet P s s') (h' : Quiet P s' s'') : Quiet P s s'' where
  rest := by
    have hs := congrArg (fun x : Store MemoryRows =>
      { x with
        service := { x.service with
          content := s.service.content
          locations := s.service.locations
          scheduler := s.service.scheduler }
        rows := s.rows }) h'.rest
    exact hs.trans h.rest
  rows := h.rows.trans h'.rows
  serves := h'.serves
  sound hs := h'.sound (h.sound hs)

/-- A quiet step before another one. -/
theorem Quiet.bind {x : StoreM MemoryRows α} {f : α → StoreM MemoryRows β} {a : α}
    {r : Except StoreError β} (hx : Runs x s (.ok a) (Quiet P s))
    (hf : ∀ s', Quiet P s s' → Runs (f a) s' r (Quiet P s')) : Runs (x >>= f) s r (Quiet P s) :=
  Runs.bind hx fun s' hs' => (hf s' hs').imp fun _ => hs'.trans

/-! ## Quiet steps -/

section Steps

variable (h : s.service.content.Serves P)

include h

theorem runs_content_get (key : ContentKey) :
    Runs (content (·.get key)) s (.ok (s.service.content.get key).1) (Quiet P s) :=
  runs_content ⟨rfl, rfl, (h.get key).2, id⟩

theorem runs_content_put {key : ContentKey} {value : Bytes} (hright : P key value) :
    Runs (content (·.put key value)) s (.ok (s.service.content.put key value).1) (Quiet P s) :=
  runs_content ⟨rfl, rfl, h.put hright, id⟩

theorem runs_recordLocation (location : Location) (v : VersionId) :
    Runs (recordLocation location v) s (.ok ()) (Quiet P s) :=
  runs_locations (f := fun x => ((), x.record location v))
    ⟨rfl, rfl, h, fun hx => hx.record location v⟩

end Steps

/-! ## Finding the row of a version -/

theorem readStable_quiet (P : ContentKey → Bytes → Prop) (s : Store MemoryRows) :
    ReadStable (Quiet P s) where
  with_locations _ _ hf hs := ⟨hs.rest, hs.rows, hs.serves, fun hx => hf _ (hs.sound hx)⟩
  with_rows _ _ hrows hs := ⟨hs.rest, hs.rows.trans hrows, hs.serves, hs.sound⟩

/-- However a row is found, nothing else changes. -/
theorem runs_locate (h : s.service.content.Serves P) {v : VersionId}
    {lookup : Nat → Option StoredRow} (hfinds : Finds s.rows v.toGroupId lookup) :
    Runs (locate v) s (.ok (lookup v.seq)) (Quiet P s) := by
  obtain ⟨s', hlocate, -⟩ := runs_locate_checked hfinds
  have hquiet := (readStable_quiet P s).keeps_locate v s (quiet_refl h)
  rw [hlocate] at hquiet
  exact ⟨s', hlocate, hquiet⟩

end VersionChain.StoreM
