import Std.Data.HashMap
import VersionChain.Record.Codec

/-!
# The difference codec

A target is written as runs copied from the base and literals between them. The base is
indexed by its windows of four bytes, each at its first place. Walking along the target,
the place in the base that lines up with the last copy is tried first and then the place
of the window; a run that is long enough becomes a copy. The extra pass also tries a
single changed stretch between a common beginning and a common ending, and keeps it if
that is strictly shorter.
-/

namespace VersionChain

/-- Width of the windows by which the base is indexed. -/
def windowWidth : Nat := 4

/-- The difference codec, with the length of the shortest run that it copies. -/
structure DiffCoder where
  minMatch : Nat := 12
  windowWidth_le : windowWidth ≤ minMatch := by decide

/-- The difference codec that copies runs of at least `n` bytes, and no run shorter than a
window. -/
def DiffCoder.withMinMatch (n : Nat) : DiffCoder := ⟨max n windowWidth, Nat.le_max_right ..⟩

namespace Diff

/-- The target as one literal; nothing for an empty target. -/
def literal (target : Bytes) : List Op :=
  if target.isEmpty then [] else [.insert target]

/-- First place of every window of the base. -/
abbrev WindowIndex := Std.HashMap UInt32 Nat

/-- The window index of a base. -/
def windowIndex (base : Bytes) : WindowIndex :=
  (List.range (base.size + 1 - windowWidth)).foldl
    (fun index place => index.insertIfNew (base.word32 place) place) ∅

/-- A run of the base that the target repeats. -/
structure Run where
  offset : Nat
  length : Nat
  deriving DecidableEq, Repr

/-- The run at one place of the base, if the place is inside and the run is long enough. -/
def runAt? (minMatch : Nat) (base target : Bytes) (place pos : Nat) : Option Run :=
  let length := base.commonPrefix place target pos
  if place < base.size ∧ minMatch ≤ length then some ⟨place, length⟩ else none

/-- The run to copy at position `pos` of the target: the one that lines up with the last
copy if it will do, else the one at the first place of the window. -/
def run? (minMatch : Nat) (base target : Bytes) (index : WindowIndex) (aligned pos : Nat) :
    Option Run :=
  (runAt? minMatch base target aligned pos).or <|
    index[target.word32 pos]?.bind fun place => runAt? minMatch base target place pos

theorem minMatch_le_of_runAt? {minMatch : Nat} {base target : Bytes} {place pos : Nat} {run : Run}
    (h : runAt? minMatch base target place pos = some run) : minMatch ≤ run.length := by
  simp only [runAt?, Option.ite_none_right_eq_some, Option.some.injEq] at h
  obtain ⟨⟨-, hlen⟩, rfl⟩ := h
  exact hlen

theorem minMatch_le_of_run? {minMatch : Nat} {base target : Bytes} {index : WindowIndex}
    {aligned pos : Nat} {run : Run}
    (h : run? minMatch base target index aligned pos = some run) : minMatch ≤ run.length := by
  rcases Option.or_eq_some_iff.mp h with h | ⟨-, h⟩
  · exact minMatch_le_of_runAt? h
  · obtain ⟨place, -, h⟩ := Option.bind_eq_some_iff.mp h
    exact minMatch_le_of_runAt? h

/-- The literal between two positions of the target; nothing if it would be empty. -/
def between (target : Bytes) (start stop : Nat) : List Op :=
  if start < stop then [.insert (target.extract start stop)] else []

/-- Walks along the target from `pos`. The bytes from `start` on are not yet written;
`cursor` is the place of the base that lines up with `start`, and `ops` is written so far,
the last step first. -/
def walk (coder : DiffCoder) (base target : Bytes) (index : WindowIndex)
    (pos start cursor : Nat) (ops : List Op) : List Op :=
  if pos + windowWidth ≤ target.size then
    match _h : run? coder.minMatch base target index (cursor + (pos - start)) pos with
    | some run =>
      walk coder base target index (pos + run.length) (pos + run.length)
        (run.offset + run.length)
        (.copy (.ofNat run.offset) (.ofNat run.length) :: (between target start pos ++ ops))
    | none => walk coder base target index (pos + 1) start cursor ops
  else between target start target.size ++ ops
  termination_by target.size - pos
  decreasing_by
    · have := minMatch_le_of_run? _h
      have := coder.windowWidth_le
      simp only [windowWidth] at *
      omega
    · simp only [windowWidth] at *
      omega

/-- The steps found by walking along the target. -/
def greedy (coder : DiffCoder) (base target : Bytes) : List Op :=
  if base.size < windowWidth ∨ target.size < windowWidth then literal target
  else (walk coder base target (windowIndex base) 0 0 0 []).reverse

/-- A copy step, unless it would copy nothing. -/
def copyOf (offset length : Nat) : List Op :=
  if 0 < length then [.copy (.ofNat offset) (.ofNat length)] else []

/-- The steps that keep a common beginning and a common ending and write what is between. -/
def trimmed (base target : Bytes) : List Op :=
  let front := base.commonPrefix 0 target 0
  let back := base.commonSuffix target front
  copyOf 0 front ++ between target front (target.size - back) ++ copyOf (base.size - back) back

/-- Length of the record that carries these steps. -/
def recordSize : List Op → Nat
  | [] => Header.size
  | op :: ops => op.size + recordSize ops

/-- The least length that does not fit into 32 bits. -/
def lengthLimit : Nat := 0x100000000

/-- The steps that the codec writes. -/
def steps (coder : DiffCoder) (tag : Tag) (base target : Bytes) (extraPass : Bool) : List Op :=
  if tag.isKeyframe then literal target
  else
    let greedy := greedy coder base target
    if extraPass then
      let trimmed := trimmed base target
      if recordSize trimmed < recordSize greedy then trimmed else greedy
    else greedy

end Diff

namespace DiffCoder

/-- The record of a target; refused if a length does not fit into 32 bits. -/
def encode (coder : DiffCoder) (tag : Tag) (base target : Bytes) (extraPass : Bool) : Encoded :=
  if target.size < Diff.lengthLimit ∧ base.size < Diff.lengthLimit then
    .record (Record.write ⟨tag, .ofNat target.size, checksum target⟩
      (Diff.steps coder tag base target extraPass))
  else .refused

/-- The difference codec as a codec. -/
def codec (coder : DiffCoder) : Codec where
  encode := coder.encode
  decode := Record.decode
  tagOf := Record.tagOf

end DiffCoder

end VersionChain
