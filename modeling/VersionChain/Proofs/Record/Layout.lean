import VersionChain.Record.Codec

/-!
# Reading back what was written

The layout of a record loses nothing: a header and the steps behind it are read back as they
were written, whatever follows them.

* `Header.read_bytes_append` — a header is read back, its tag by way of the wire;
* `Op.read_bytes_append` — a step whose length field is large enough is read back;
* `Record.rebuild_write` — reading the steps one at a time carries them out.
-/

namespace VersionChain

/-! ## Numbers -/

theorem fieldRange_two : fieldRange 2 = UInt16.size := rfl

theorem fieldRange_four : fieldRange 4 = UInt32.size := rfl

/-- A 16-bit number survives its two bytes. -/
theorem ofNat_ofLittleEndian_two (n : UInt16) :
    UInt16.ofNat (ofLittleEndian (littleEndian 2 n.toNat)) = n := by
  rw [ofLittleEndian_littleEndian, fieldRange_two, Nat.mod_eq_of_lt n.toNat_lt]
  exact UInt16.ofNat_toNat

/-- A 32-bit number survives its four bytes. -/
theorem ofNat_ofLittleEndian_four (n : UInt32) :
    UInt32.ofNat (ofLittleEndian (littleEndian 4 n.toNat)) = n := by
  rw [ofLittleEndian_littleEndian, fieldRange_four, Nat.mod_eq_of_lt n.toNat_lt]
  exact UInt32.ofNat_toNat

/-- Splitting off the front part of a concatenation, its length given separately. -/
theorem splitExact?_append_of_length {n : Nat} {front : List UInt8} (h : front.length = n)
    (back : List UInt8) : splitExact? n (front ++ back) = some (front, back) := by
  subst h
  exact splitExact?_append front back

/-! ## Headers -/

/-- A stretch of a list between two others. -/
theorem extract_middle {front middle back : List UInt8} {start stop : Nat}
    (hstart : front.length = start) (hstop : start + middle.length = stop) :
    (front ++ (middle ++ back)).extract start stop = middle := by
  subst hstart hstop
  rw [List.extract_eq_take_drop, List.drop_left, Nat.add_sub_cancel_left, List.take_left]

/-- A header is read back from its bytes. The tag comes back as the wire knows it. -/
theorem Header.read_bytes_append (h : Header) (rest : List UInt8) :
    Header.read (h.bytes ++ rest) = .ok ({ h with tag := .ofWire h.tag.toWire }, rest) := by
  let tagBytes := littleEndian 2 h.tag.toWire.toNat
  let sizeBytes := littleEndian 4 h.targetLength.toNat
  let crcBytes := littleEndian 4 h.crc.toNat
  have tagPart : h.bytes.extract 1 3 = tagBytes := by
    have split : h.bytes = [recordMagic] ++ (tagBytes ++ (sizeBytes ++ crcBytes)) := by
      simp [Header.bytes, tagBytes, sizeBytes, crcBytes]
    rw [split]
    exact extract_middle rfl (by simp [tagBytes])
  have sizePart : h.bytes.extract 3 7 = sizeBytes := by
    have split : h.bytes = (recordMagic :: tagBytes) ++ (sizeBytes ++ crcBytes) := by
      simp [Header.bytes, tagBytes, sizeBytes, crcBytes]
    rw [split]
    exact extract_middle (by simp [tagBytes]) (by simp [sizeBytes])
  have crcPart : h.bytes.extract 7 11 = crcBytes := by
    have split : h.bytes = (recordMagic :: (tagBytes ++ sizeBytes)) ++ (crcBytes ++ []) := by
      simp [Header.bytes, tagBytes, sizeBytes, crcBytes]
    rw [split]
    exact extract_middle (by simp [tagBytes, sizeBytes]) (by simp [crcBytes])
  unfold Header.read
  rw [splitExact?_append_of_length (Header.length_bytes h)]
  simp only [tagPart, sizePart, crcPart, tagBytes, sizeBytes, crcBytes, ofNat_ofLittleEndian_two,
    ofNat_ofLittleEndian_four]
  exact if_pos rfl

/-! ## Steps -/

namespace Op

/-- Whether the length of what a step carries fits into its field. -/
def Fits : Op → Prop
  | copy .. => True
  | insert content => content.size < UInt32.size

theorem readNumber_append (n : Nat) (rest : List UInt8) :
    readNumber (littleEndian 4 n ++ rest) = .ok (n % UInt32.size, rest) := by
  unfold readNumber
  rw [splitExact?_append_of_length (length_littleEndian 4 n)]
  simp only [ofLittleEndian_littleEndian, fieldRange_four]

/-- A step is read back from its bytes. -/
theorem read_bytes_append (op : Op) (rest : List UInt8) (fits : op.Fits) :
    read (op.bytes ++ rest) = .ok (op, rest) := by
  cases op with
  | copy offset length =>
    have hoffset : offset.toNat % UInt32.size = offset.toNat := Nat.mod_eq_of_lt offset.toNat_lt
    have hlength : length.toNat % UInt32.size = length.toNat := Nat.mod_eq_of_lt length.toNat_lt
    simp only [bytes, List.cons_append, List.append_assoc, read, if_pos, readCopy,
      readNumber_append, hoffset, hlength, UInt32.ofNat_toNat]
  | insert content =>
    have hsize : content.size % UInt32.size = content.size := Nat.mod_eq_of_lt fits
    have hcode : insertCode ≠ copyCode := by decide
    simp only [bytes, List.cons_append, List.append_assoc, read, if_neg hcode, if_pos, readInsert,
      readNumber_append, hsize]
    rw [splitExact?_append_of_length (by simp)]

end Op

/-! ## Carrying out steps -/

namespace Op

/-- A step only appends. -/
theorem size_le_of_apply {base out result : Bytes} {op : Op} (h : op.apply base out = .ok result) :
    out.size ≤ result.size := by
  cases op with
  | copy offset length =>
    simp only [apply] at h
    split at h
    · cases h
      simp
    · cases h
  | insert content =>
    simp only [apply, Except.ok.injEq] at h
    subst h
    simp

theorem applyAll_cons (base out : Bytes) (op : Op) (ops : List Op) :
    applyAll base out (op :: ops) = (op.apply base out).bind fun out => applyAll base out ops :=
  rfl

/-- Steps that are carried out begin with one that is. -/
theorem applyAll_cons_eq_ok {base out result : Bytes} {op : Op} {ops : List Op} :
    applyAll base out (op :: ops) = .ok result ↔
      ∃ next, op.apply base out = .ok next ∧ applyAll base next ops = .ok result := by
  rw [applyAll_cons]
  cases op.apply base out with
  | error e => simp [Except.bind]
  | ok next => simp [Except.bind]

/-- Steps are carried out part by part. -/
theorem applyAll_append {base out middle : Bytes} {front : List Op} (back : List Op)
    (h : applyAll base out front = .ok middle) :
    applyAll base out (front ++ back) = applyAll base middle back := by
  induction front generalizing out with
  | nil =>
    cases h
    rfl
  | cons op ops ih =>
    obtain ⟨next, hop, hops⟩ := applyAll_cons_eq_ok.mp h
    rw [List.cons_append, applyAll_cons, hop]
    exact ih hops

theorem size_le_of_applyAll {base out result : Bytes} {ops : List Op}
    (h : applyAll base out ops = .ok result) : out.size ≤ result.size := by
  induction ops generalizing out with
  | nil =>
    cases h
    exact Nat.le_refl _
  | cons op ops ih =>
    obtain ⟨next, hop, hops⟩ := applyAll_cons_eq_ok.mp h
    exact Nat.le_trans (size_le_of_apply hop) (ih hops)

/-- What a step carries is part of the result. -/
theorem fits_of_apply {base out result : Bytes} {op : Op} (h : op.apply base out = .ok result)
    (bound : result.size < UInt32.size) : op.Fits := by
  cases op with
  | copy offset length => trivial
  | insert content =>
    simp only [apply, Except.ok.injEq] at h
    subst h
    simp only [Array.size_append] at bound
    exact Nat.lt_of_le_of_lt (Nat.le_add_left ..) bound

end Op

namespace Record

/-- Where no step can be read, nothing is rebuilt. -/
theorem rebuild_of_read_error {base out : Bytes} {expected : UInt32} {code : UInt8}
    {tail : List UInt8} {e : RecordError} (h : Op.read (code :: tail) = .error e) :
    rebuild base expected out (code :: tail) = .error e := by
  unfold rebuild
  split
  · rename_i e' herror
    rw [h] at herror
    cases herror
    rfl
  · rename_i op rest hok
    rw [h] at hok
    cases hok

/-- A step that can be read is carried out, and the length so far is looked at, before what
stands behind it. -/
theorem rebuild_of_read {base out : Bytes} {expected : UInt32} {bytes rest : List UInt8} {op : Op}
    (h : Op.read bytes = .ok (op, rest)) :
    rebuild base expected out bytes =
      (op.apply base out).bind fun next =>
        if expected.toNat < next.size then .error (.lengthMismatch expected next.size)
        else rebuild base expected next rest := by
  cases bytes with
  | nil => cases h
  | cons code tail =>
    conv => lhs; unfold rebuild
    split
    · rename_i e herror
      rw [h] at herror
      cases herror
    · rename_i op' rest' hok
      rw [h] at hok
      cases hok
      cases op.apply base out <;> rfl

/-- Steps that can be carried out are carried out one at a time from their bytes, as long as the
result is no longer than expected. -/
theorem rebuild_write {base out result : Bytes} {ops : List Op} {expected : UInt32}
    (h : Op.applyAll base out ops = .ok result) (bound : result.size ≤ expected.toNat) :
    rebuild base expected out (ops.flatMap Op.bytes) = .ok result := by
  induction ops generalizing out with
  | nil =>
    cases h
    rw [List.flatMap_nil, rebuild]
  | cons op ops ih =>
    obtain ⟨next, hop, hops⟩ := Op.applyAll_cons_eq_ok.mp h
    have shorter : next.size ≤ result.size := Op.size_le_of_applyAll hops
    have fits : op.Fits :=
      Op.fits_of_apply hop (by have := expected.toNat_lt; simp [UInt32.size]; omega)
    rw [List.flatMap_cons, rebuild_of_read (Op.read_bytes_append op _ fits), hop]
    simp only [Except.bind]
    rw [if_neg (by omega)]
    exact ih hops

end Record

end VersionChain
