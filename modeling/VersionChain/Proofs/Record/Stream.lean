import VersionChain.Proofs.Record.Parsing
import VersionChain.Proofs.Record.RoundTrip

/-!
# Steps read one at a time

A reader that is asked for one step after the other gives the steps whose bytes it was begun on.
Where the bytes go on with what is no step, it says so once and is then silent.

* `Op.Reader.Yields` — what a reader answers, however often it is asked;
* `Op.Reader.yields_bytes` — the steps that were written;
* `Op.exists_parse`, `Op.isPrefix_of_parse` — the longest beginning of any bytes that is made of
  steps;
* `Record.streams_bijective` — records and their headers and steps determine each other.
-/

namespace VersionChain

namespace Op

/-- The lengths of all steps fit into their fields. -/
def AllFit (ops : List Op) : Prop := ∀ op ∈ ops, op.Fits

theorem allFit_nil : AllFit [] := fun _ hmem => absurd hmem List.not_mem_nil

/-! ## What a reader answers -/

namespace Reader

/-- The reader once it has been asked so many times. -/
def after (r : Reader) : (turns : Nat) → Reader
  | 0 => r
  | turns + 1 => r.next.2.after turns

/-- Asked one time after the other, the reader gives these items, and then none any more. -/
def Yields (r : Reader) (items : List (Except RecordError Op)) : Prop :=
  ∀ turn : Nat, (r.after turn).next.1 = items[turn]?

variable {bytes rest : List UInt8} {items items' : List (Except RecordError Op)} {r : Reader}

theorem Yields.unique (h : r.Yields items) (h' : r.Yields items') : items = items' :=
  List.ext_getElem? fun turn => (h turn).symm.trans (h' turn)

/-- The first answer, and those of the reader that is left. -/
theorem yields_of_next {item : Except RecordError Op} {left : Reader}
    (hnext : r.next = (some item, left)) (hleft : left.Yields items) :
    r.Yields (item :: items) := by
  intro turn
  cases turn with
  | zero =>
    show r.next.1 = _
    rw [hnext]
    rfl
  | succ turn =>
    show ((r.next.2.after turn).next).1 = _
    rw [hnext]
    exact hleft turn

theorem next_of_read {op : Op} (h : read bytes = .ok (op, rest)) :
    (mk bytes).next = (some (.ok op), ⟨rest⟩) := by
  cases bytes with
  | nil => cases h
  | cons code tail => simp only [next, h]

theorem next_of_read_error {e : RecordError} (hbytes : bytes ≠ []) (h : read bytes = .error e) :
    (mk bytes).next = (some (.error e), ⟨[]⟩) := by
  cases bytes with
  | nil => exact absurd rfl hbytes
  | cons code tail => simp only [next, h]

/-- At the end of the bytes, a reader stays where it is. -/
theorem yields_nil : (mk []).Yields [] := by
  intro turn
  induction turn with
  | zero => rfl
  | succ turn ih => exact ih

theorem yields_error {e : RecordError} (hbytes : bytes ≠ []) (h : read bytes = .error e) :
    (mk bytes).Yields [.error e] :=
  yields_of_next (next_of_read_error hbytes h) yields_nil

/-- Steps whose bytes come first are given first. -/
theorem yields_append {ops : List Op} (hfit : AllFit ops) (hrest : (mk rest).Yields items) :
    (mk (ops.flatMap Op.bytes ++ rest)).Yields (ops.map .ok ++ items) := by
  induction ops with
  | nil => exact hrest
  | cons op ops ih =>
    have hread : read (op.bytes ++ (ops.flatMap Op.bytes ++ rest)) =
        .ok (op, ops.flatMap Op.bytes ++ rest) :=
      read_bytes_append op _ (hfit op List.mem_cons_self)
    rw [List.flatMap_cons, List.append_assoc]
    exact yields_of_next (next_of_read hread) (ih fun x hx => hfit x (List.mem_cons_of_mem op hx))

theorem yields_bytes {ops : List Op} (hfit : AllFit ops) :
    (mk (ops.flatMap Op.bytes)).Yields (ops.map .ok) := by
  have h := yields_append hfit yields_nil
  rwa [List.append_nil, List.append_nil] at h

end Reader

/-! ## The longest beginning made of steps -/

/-- Any bytes are the bytes of steps, up to where they end or go on with what is no step. -/
theorem exists_parse (bytes : List UInt8) :
    ∃ ops rest, AllFit ops ∧ bytes = ops.flatMap Op.bytes ++ rest ∧
      (rest = [] ∨ rest ≠ [] ∧ ∃ e, read rest = .error e) := by
  fun_induction readAll bytes with
  | case1 => exact ⟨[], [], allFit_nil, rfl, .inl rfl⟩
  | case2 code tail e herror =>
    exact ⟨[], code :: tail, allFit_nil, rfl, .inr ⟨List.cons_ne_nil code tail, e, herror⟩⟩
  | case3 code tail op rest hread ops stop hall ih =>
    obtain ⟨more, left, hfit, hrest, hstop⟩ := ih
    obtain ⟨hop, hbytes⟩ := read_eq_ok_iff.mp hread
    refine ⟨op :: more, left, List.forall_mem_cons.mpr ⟨hop, hfit⟩, ?_, hstop⟩
    rw [hbytes, hrest, List.flatMap_cons, List.append_assoc]

/-- Where no more steps can be read, all steps that the bytes begin with have been. -/
theorem isPrefix_of_parse {ops others : List Op} {rest tail : List UInt8}
    (hothers : AllFit others) (hfit : AllFit ops) (hrest : ∀ found, read rest ≠ .ok found)
    (h : others.flatMap Op.bytes ++ tail = ops.flatMap Op.bytes ++ rest) : others <+: ops := by
  induction others generalizing ops with
  | nil => exact List.nil_prefix
  | cons op others ih =>
    have hop : op.Fits := hothers op List.mem_cons_self
    rw [List.flatMap_cons, List.append_assoc] at h
    have hread := read_bytes_append op (others.flatMap Op.bytes ++ tail) hop
    rw [h] at hread
    cases ops with
    | nil => exact absurd hread (hrest _)
    | cons op' ops =>
      -- one step is read, so both lists begin with it
      rw [List.flatMap_cons, List.append_assoc,
        read_bytes_append op' _ (hfit op' List.mem_cons_self)] at hread
      obtain ⟨rfl, htail⟩ := Prod.mk.inj (Except.ok.inj hread)
      rw [List.prefix_cons_inj]
      refine ih (fun x hx => hothers x (List.mem_cons_of_mem _ hx))
        (fun x hx => hfit x (List.mem_cons_of_mem _ hx)) htail.symm

/-- A reader that gives steps only was begun on the bytes of these. -/
theorem Reader.complete_of_yields {bytes : List UInt8} {ops : List Op}
    (h : (Reader.mk bytes).Yields (ops.map .ok)) :
    AllFit ops ∧ bytes = ops.flatMap Op.bytes := by
  obtain ⟨found, rest, hfit, rfl, rfl | ⟨hne, e, herror⟩⟩ := exists_parse bytes
  · rw [List.append_nil] at h ⊢
    have hmap : ops.map Except.ok = found.map Except.ok := h.unique (Reader.yields_bytes hfit)
    rw [(List.map_inj_right fun _ _ heq => Except.ok.inj heq).mp hmap]
    exact ⟨hfit, rfl⟩
  · -- the error would be among the answers
    have hmap := h.unique (Reader.yields_append hfit (Reader.yields_error hne herror))
    have hmem : Except.error e ∈ ops.map Except.ok :=
      hmap ▸ List.mem_append_right _ List.mem_cons_self
    obtain ⟨op, -, hop⟩ := List.mem_map.mp hmem
    cases hop

/-- On other bytes a reader gives the steps they begin with, as many as there are, and one
error. -/
theorem Reader.yields_malformed {bytes : List UInt8}
    (hother : ¬ ∃ ops, AllFit ops ∧ bytes = ops.flatMap Op.bytes) :
    ∃ ops rest e, AllFit ops ∧ bytes = ops.flatMap Op.bytes ++ rest ∧
      (∀ others tail, AllFit others → bytes = others.flatMap Op.bytes ++ tail → others <+: ops) ∧
      (Reader.mk bytes).Yields (ops.map .ok ++ [.error e]) := by
  obtain ⟨ops, rest, hfit, rfl, rfl | ⟨hne, e, herror⟩⟩ := exists_parse bytes
  · exact absurd ⟨ops, hfit, List.append_nil _⟩ hother
  · refine ⟨ops, rest, e, hfit, rfl, fun others tail hothers h => ?_,
      Reader.yields_append hfit (Reader.yields_error hne herror)⟩
    refine isPrefix_of_parse hothers hfit (fun found hread => ?_) h.symm
    rw [herror] at hread
    cases hread

end Op

/-! ## Headers and steps of a record -/

/-- A record begins with the bytes of the header that is read from it. -/
theorem Header.eq_bytes_append_of_read {record body : List UInt8} {header : Header}
    (h : read record = .ok (header, body)) : record = header.bytes ++ body := by
  obtain ⟨wire, htag, rfl⟩ := read_eq_ok h
  have hwire : header.tag.toWire = wire := htag ▸ Tag.ofWire_toWire (.back wire)
  simp only [Record.layout, bytes, hwire, List.cons_append, List.append_assoc]

open Op in
/-- What is written is read back, the tag by way of the wire; what is read to the end is written
back; and of bytes that are not made of steps, the longest beginning that is gives its steps, and
then there is one error and nothing more. -/
theorem Record.streams_bijective :
    (∀ (header : Header) (ops : List Op), AllFit ops →
      ∃ body, Header.read (write header ops).toList =
          .ok ({ header with tag := .ofWire header.tag.toWire }, body) ∧
        (Reader.mk body).Yields (ops.map .ok)) ∧
    (∀ (record : Bytes) (header : Header) (body : List UInt8) (ops : List Op),
      Header.read record.toList = .ok (header, body) →
      (Reader.mk body).Yields (ops.map .ok) → write header ops = record) ∧
    ∀ bytes : List UInt8, (¬ ∃ ops, AllFit ops ∧ bytes = ops.flatMap Op.bytes) →
      ∃ ops rest e, AllFit ops ∧ bytes = ops.flatMap Op.bytes ++ rest ∧
        (∀ others tail, AllFit others → bytes = others.flatMap Op.bytes ++ tail → others <+: ops) ∧
        (Reader.mk bytes).Yields (ops.map .ok ++ [.error e]) := by
  refine ⟨fun header ops hfit => ?_, fun record header body ops hread hyields => ?_,
    fun bytes hother => Reader.yields_malformed hother⟩
  · exact ⟨ops.flatMap Op.bytes, read_write header ops, Reader.yields_bytes hfit⟩
  · obtain ⟨-, hbody⟩ := Reader.complete_of_yields hyields
    have hrecord : record.toList = header.bytes ++ ops.flatMap Op.bytes :=
      hbody ▸ Header.eq_bytes_append_of_read hread
    unfold write
    rw [← hrecord, Array.toArray_toList]

end VersionChain
