import VersionChain.Proofs.Cache.Slots

/-!
# The order of use

The live slots of a bounded cache form one doubly linked list, from the least to the most
recently used. `Linked c order` says that `order` is that list: each slot in it knows its
neighbours, and the two ends are known to the cache.

* `Linked.unlink` — taking a slot out of the order joins its neighbours;
* `Linked.pushBack` — putting a slot behind the last makes it the last;
* `Linked.moveToBack` — both together make a slot the most recently used;
* `Relinked` — none of them touches anything but the links.
-/

namespace VersionChain

/-- What an entry holds besides its links. -/
def Entry.core {κ ν : Type} (e : Entry κ ν) : κ × ν × Nat := (e.key, e.value, e.bucket)

variable {κ ν : Type}

namespace BoundedCache

/-! ## Nothing but links -/

/-- `d` differs from `c` at most in the links of the entries and in the ends of the order. -/
structure Relinked (c d : BoundedCache κ ν) : Prop where
  rest : { d with slots := c.slots, head := c.head, tail := c.tail } = c
  size : d.slots.size = c.slots.size
  free : ∀ i, d.free? i = c.free? i
  core : ∀ i, (d.entry? i).map Entry.core = (c.entry? i).map Entry.core

theorem Relinked.refl (c : BoundedCache κ ν) : Relinked c c :=
  ⟨rfl, rfl, fun _ => rfl, fun _ => rfl⟩

theorem Relinked.trans {c d e : BoundedCache κ ν} (h : Relinked c d) (h' : Relinked d e) :
    Relinked c e where
  rest := by
    have hd := congrArg (fun x : BoundedCache κ ν =>
      { x with slots := c.slots, head := c.head, tail := c.tail }) h'.rest
    exact hd.trans h.rest
  size := h'.size.trans h.size
  free i := (h'.free i).trans (h.free i)
  core i := (h'.core i).trans (h.core i)

/-- An entry that differs from another in its links at most. -/
theorem Relinked.entry {c d : BoundedCache κ ν} (h : Relinked c d) {i : Nat} {e : Entry κ ν}
    (he : c.entry? i = some e) :
    ∃ e', d.entry? i = some e' ∧ e'.key = e.key ∧ e'.value = e.value ∧ e'.bucket = e.bucket := by
  have hcore := h.core i
  rw [he] at hcore
  obtain ⟨e', he', heq⟩ := Option.map_eq_some_iff.mp hcore
  simp only [Entry.core, Prod.mk.injEq] at heq
  exact ⟨e', he', heq⟩

/-- Links in an entry are no part of its core. -/
theorem relinked_modifyEntry (c : BoundedCache κ ν) (i : Nat) (f : Entry κ ν → Entry κ ν)
    (hf : ∀ e, (f e).core = e.core) : Relinked c (c.modifyEntry i f) where
  rest := rfl
  size := size_modifyEntry c i f
  free j := free?_modifyEntry c i j f
  core j := by
    rw [entry?_modifyEntry]
    split
    · rw [Option.map_map]
      congr 1
      funext e
      exact hf e
    · rfl

theorem relinked_linkNext (c : BoundedCache κ ν) (i next : Option Nat) :
    Relinked c (c.linkNext i next) := by
  cases i with
  | none => exact ⟨rfl, rfl, fun _ => rfl, fun _ => rfl⟩
  | some i => exact relinked_modifyEntry c i _ fun _ => rfl

theorem relinked_linkPrev (c : BoundedCache κ ν) (i prev : Option Nat) :
    Relinked c (c.linkPrev i prev) := by
  cases i with
  | none => exact ⟨rfl, rfl, fun _ => rfl, fun _ => rfl⟩
  | some i => exact relinked_modifyEntry c i _ fun _ => rfl

theorem relinked_unlink (c : BoundedCache κ ν) (i : Nat) : Relinked c (c.unlink i) := by
  unfold unlink
  split
  · refine Relinked.trans ?_ (relinked_linkPrev _ _ _)
    refine Relinked.trans ?_ (relinked_linkNext _ _ _)
    exact relinked_modifyEntry c i _ fun _ => rfl
  · exact .refl c

theorem relinked_pushBack (c : BoundedCache κ ν) (i : Nat) : Relinked c (c.pushBack i) := by
  have hlinks : Relinked c (c.modifyEntry i ({ · with prev := c.tail, next := none })) :=
    relinked_modifyEntry c i _ fun _ => rfl
  have h := hlinks.trans (relinked_linkNext _ c.tail (some i))
  exact ⟨h.rest, h.size, h.free, h.core⟩

theorem relinked_moveToBack (c : BoundedCache κ ν) (i : Nat) : Relinked c (c.moveToBack i) := by
  unfold moveToBack
  split
  · exact .refl c
  · exact (relinked_unlink c i).trans (relinked_pushBack _ i)

/-! ## The list of the links -/

/-- The slots in `order` are live and linked one behind the other, and `order` begins and ends
where the cache says. -/
structure Linked (c : BoundedCache κ ν) (order : List Nat) : Prop where
  head : c.head = order.head?
  tail : c.tail = order.getLast?
  nodup : order.Nodup
  link : ∀ front i back, order = front ++ i :: back →
    ∃ e, c.entry? i = some e ∧ e.prev = front.getLast? ∧ e.next = back.head?

theorem Linked.live {c : BoundedCache κ ν} {order : List Nat} (h : Linked c order) {i : Nat}
    (hi : i ∈ order) : ∃ e, c.entry? i = some e := by
  obtain ⟨front, back, rfl⟩ := List.append_of_mem hi
  obtain ⟨e, he, -⟩ := h.link front i back rfl
  exact ⟨e, he⟩

/-- The list of the links depends on the links and on the ends alone. -/
theorem Linked.congr {c d : BoundedCache κ ν} {order : List Nat} (h : Linked c order)
    (hlinks : ∀ i ∈ order, (d.entry? i).map Entry.links = (c.entry? i).map Entry.links)
    (hhead : d.head = c.head) (htail : d.tail = c.tail) : Linked d order where
  head := hhead.trans h.head
  tail := htail.trans h.tail
  nodup := h.nodup
  link front i back hsplit := by
    obtain ⟨e, he, hprev, hnext⟩ := h.link front i back hsplit
    have hi := hlinks i (by rw [hsplit]; simp)
    rw [he] at hi
    obtain ⟨e', he', heq⟩ := Option.map_eq_some_iff.mp hi
    simp only [Entry.links, Prod.mk.injEq] at heq
    exact ⟨e', he', heq.1.trans hprev, heq.2.trans hnext⟩

/-! ## Taking a slot out -/

theorem entry?_linkNext (c : BoundedCache κ ν) (i next : Option Nat) (j : Nat) :
    BoundedCache.entry? (c.linkNext i next) j =
      if i = some j then (c.entry? j).map ({ · with next }) else c.entry? j := by
  cases i with
  | none => rfl
  | some i =>
    show BoundedCache.entry? (c.modifyEntry i _) j = _
    rw [entry?_modifyEntry]
    by_cases h : j = i
    · subst h
      rw [if_pos rfl, if_pos rfl]
    · rw [if_neg h, if_neg (by simpa using Ne.symm h)]

theorem entry?_linkPrev (c : BoundedCache κ ν) (i prev : Option Nat) (j : Nat) :
    BoundedCache.entry? (c.linkPrev i prev) j =
      if i = some j then (c.entry? j).map ({ · with prev }) else c.entry? j := by
  cases i with
  | none => rfl
  | some i =>
    show BoundedCache.entry? (c.modifyEntry i _) j = _
    rw [entry?_modifyEntry]
    by_cases h : j = i
    · subst h
      rw [if_pos rfl, if_pos rfl]
    · rw [if_neg h, if_neg (by simpa using Ne.symm h)]

theorem head_linkNext (c : BoundedCache κ ν) (i next : Option Nat) :
    (c.linkNext i next).head = if i = none then next else c.head := by
  cases i <;> rfl

theorem tail_linkNext (c : BoundedCache κ ν) (i next : Option Nat) :
    (c.linkNext i next).tail = c.tail := by
  cases i <;> rfl

theorem head_linkPrev (c : BoundedCache κ ν) (i prev : Option Nat) :
    (c.linkPrev i prev).head = c.head := by
  cases i <;> rfl

theorem tail_linkPrev (c : BoundedCache κ ν) (i prev : Option Nat) :
    (c.linkPrev i prev).tail = if i = none then prev else c.tail := by
  cases i <;> rfl

/-- Taking a slot out changes its neighbours, each in the link that led to it. -/
theorem entry?_unlink {c : BoundedCache κ ν} {i j : Nat} {e : Entry κ ν}
    (he : c.entry? i = some e) (hj : j ≠ i) :
    BoundedCache.entry? (c.unlink i) j = (c.entry? j).map fun x =>
      { x with
        next := if e.prev = some j then e.next else x.next
        prev := if e.next = some j then e.prev else x.prev } := by
  unfold unlink
  rw [he]
  simp only
  rw [entry?_linkPrev, entry?_linkNext, entry?_modifyEntry_ne c _ hj]
  cases c.entry? j with
  | none => simp
  | some x =>
    by_cases hnext : e.next = some j <;> by_cases hprev : e.prev = some j <;>
      simp [hnext, hprev]

theorem head_unlink {c : BoundedCache κ ν} {i : Nat} {e : Entry κ ν} (he : c.entry? i = some e) :
    (c.unlink i).head = if e.prev = none then e.next else c.head := by
  unfold unlink
  rw [he]
  simp only
  rw [head_linkPrev, head_linkNext]
  rfl

theorem tail_unlink {c : BoundedCache κ ν} {i : Nat} {e : Entry κ ν} (he : c.entry? i = some e) :
    (c.unlink i).tail = if e.next = none then e.prev else c.tail := by
  unfold unlink
  rw [he]
  simp only
  rw [tail_linkPrev, tail_linkNext]
  rfl

theorem getLast?_ne_of_notMem {l : List Nat} {j : Nat} (h : j ∉ l) : l.getLast? ≠ some j :=
  fun hlast => h (List.mem_of_getLast? hlast)

theorem getLast?_append_cons (front : List Nat) (a : Nat) (rest : List Nat) :
    (front ++ a :: rest).getLast? = (a :: rest).getLast? := by
  rw [List.getLast?_append, List.getLast?_eq_some_getLast (List.cons_ne_nil a rest), Option.some_or]

theorem head?_ne_of_notMem {l : List Nat} {j : Nat} (h : j ∉ l) : l.head? ≠ some j :=
  fun hhead => h (List.mem_of_head? hhead)

/-- A slot behind the one taken out keeps its successor; its predecessor changes only if it was
the one taken out. -/
theorem Linked.link_behind {c : BoundedCache κ ν} {front between back : List Nat} {i j : Nat}
    (h : Linked c (front ++ i :: (between ++ j :: back))) :
    ∃ e, BoundedCache.entry? (c.unlink i) j = some e ∧ e.prev = (front ++ between).getLast? ∧
      e.next = back.head? := by
  obtain ⟨e, he, hprev, hnext⟩ := h.link front i _ rfl
  obtain ⟨x, hx, hxprev, hxnext⟩ := h.link (front ++ i :: between) j back (by simp)
  have hnodup := h.nodup
  rw [List.nodup_append, List.nodup_cons, List.nodup_append, List.nodup_cons] at hnodup
  obtain ⟨-, ⟨hi, -, -, hbetween⟩, hfront⟩ := hnodup
  have hj : j ≠ i := fun heq => hi (by simp [heq])
  have hjfront : j ∉ front := fun hmem => hfront j hmem j (by simp) rfl
  refine ⟨_, by rw [entry?_unlink he hj, hx]; rfl, ?_, ?_⟩
  · cases between with
    | nil =>
      simp only [List.nil_append, List.head?_cons] at hnext
      simp only [hnext, if_true, hprev, List.append_nil]
    | cons a rest =>
      have ha : a ≠ j := hbetween a (by simp) j (by simp)
      simp only [List.cons_append, List.head?_cons] at hnext
      simp only [hnext, Option.some.injEq, ha, if_false, hxprev]
      simp [List.getLast?_append]
  · simp only [hprev, getLast?_ne_of_notMem hjfront, if_false, hxnext]

/-- A slot before the one taken out keeps its predecessor; its successor changes only if it was
the one taken out. -/
theorem Linked.link_before {c : BoundedCache κ ν} {front between back : List Nat} {i j : Nat}
    (h : Linked c (front ++ j :: (between ++ i :: back))) :
    ∃ e, BoundedCache.entry? (c.unlink i) j = some e ∧ e.prev = front.getLast? ∧
      e.next = (between ++ back).head? := by
  obtain ⟨e, he, hprev, hnext⟩ := h.link (front ++ j :: between) i back (by simp)
  obtain ⟨x, hx, hxprev, hxnext⟩ := h.link front j _ rfl
  have hnodup := h.nodup
  rw [List.nodup_append, List.nodup_cons, List.nodup_append, List.nodup_cons] at hnodup
  obtain ⟨-, ⟨hnotMem, -, -, -⟩, -⟩ := hnodup
  have hj : j ≠ i := fun heq => hnotMem (by simp [heq])
  have hjback : j ∉ back := fun hmem => hnotMem (by simp [hmem])
  have hjbetween : j ∉ between := fun hmem => hnotMem (by simp [hmem])
  refine ⟨_, by rw [entry?_unlink he hj, hx]; rfl, ?_, ?_⟩
  · simp only [hnext, head?_ne_of_notMem hjback, if_false, hxprev]
  · cases between with
    | nil =>
      have hlast : e.prev = some j := by rw [hprev]; simp
      simp only [hlast, if_true, hnext, List.nil_append]
    | cons a rest =>
      have hlast : e.prev = (a :: rest).getLast? := by
        rw [hprev, show front ++ j :: a :: rest = (front ++ [j]) ++ a :: rest by simp]
        exact getLast?_append_cons (front ++ [j]) a rest
      simp only [hlast, getLast?_ne_of_notMem hjbetween, if_false, hxnext, List.cons_append,
        List.head?_cons]

/-- Taking a slot out of the order leaves the others linked, in the order they had. -/
theorem Linked.unlink {c : BoundedCache κ ν} {front back : List Nat} {i : Nat}
    (h : Linked c (front ++ i :: back)) : Linked (c.unlink i) (front ++ back) := by
  obtain ⟨e, he, hprev, hnext⟩ := h.link front i back rfl
  refine ⟨?_, ?_, ?_, ?_⟩
  · rw [head_unlink he, h.head, hprev, hnext]
    cases front with
    | nil => rfl
    | cons f fs => simp
  · rw [tail_unlink he, h.tail, hprev, hnext]
    cases back with
    | nil => simp
    | cons b bs => simp [List.getLast?_append]
  · exact h.nodup.sublist ((List.Sublist.refl front).append (List.sublist_cons_self i back))
  · intro front' j back' hsplit
    -- the slot stands behind the gap, right at it, or before it
    rcases List.append_eq_append_iff.mp hsplit with ⟨between, rfl, rfl⟩ | ⟨between, rfl, hback⟩
    · exact h.link_behind
    · cases between with
      | nil =>
        simp only [List.nil_append] at hback
        subst hback
        have hadjacent : Linked c (front' ++ i :: ([] ++ j :: back')) := by simpa using h
        have hlink := hadjacent.link_behind
        rwa [List.append_nil] at hlink
      | cons b bs =>
        simp only [List.cons_append, List.cons.injEq] at hback
        obtain ⟨rfl, rfl⟩ := hback
        exact Linked.link_before (by simpa using h)

/-! ## Putting a slot behind the last -/

/-- A place in an order with one slot more is that of the new slot, or one there was before. -/
theorem split_concat {order front back : List Nat} {i j : Nat}
    (h : order ++ [i] = front ++ j :: back) :
    (front = order ∧ j = i ∧ back = []) ∨
      ∃ rest, back = rest ++ [i] ∧ order = front ++ j :: rest := by
  rcases List.eq_nil_or_concat back with rfl | ⟨rest, last, rfl⟩
  · obtain ⟨horder, hlast⟩ := List.append_inj' h rfl
    cases hlast
    exact .inl ⟨horder.symm, rfl, rfl⟩
  · rw [List.concat_eq_append, ← List.cons_append, ← List.append_assoc] at h
    obtain ⟨horder, hlast⟩ := List.append_inj' h rfl
    cases hlast
    exact .inr ⟨rest, List.concat_eq_append, horder⟩

/-- Putting a slot behind the last links it to the one that was last. -/
theorem Linked.pushBack {c : BoundedCache κ ν} {order : List Nat} {i : Nat} {e : Entry κ ν}
    (h : Linked c order) (he : c.entry? i = some e) (hi : i ∉ order) :
    Linked (c.pushBack i) (order ++ [i]) := by
  have hentry : ∀ j, BoundedCache.entry? (c.pushBack i) j =
      if c.tail = some j then
        (BoundedCache.entry? (c.modifyEntry i ({ · with prev := c.tail, next := none })) j).map
          ({ · with next := some i })
      else BoundedCache.entry? (c.modifyEntry i ({ · with prev := c.tail, next := none })) j := by
    intro j
    exact entry?_linkNext _ c.tail (some i) j
  have hlast : c.tail ≠ some i := by
    rw [h.tail]
    exact getLast?_ne_of_notMem hi
  refine ⟨?_, ?_, ?_, ?_⟩
  · show ((c.modifyEntry i _).linkNext c.tail (some i)).head = _
    rw [head_linkNext]
    show (if c.tail = none then some i else c.head) = _
    rw [h.tail, h.head]
    cases order with
    | nil => rfl
    | cons a rest => simp
  · show some i = _
    simp
  · exact List.nodup_append.mpr ⟨h.nodup, by simp, by
      intro a ha b hb
      rw [List.mem_singleton.mp hb]
      exact fun heq => hi (heq ▸ ha)⟩
  · intro front j back hsplit
    rcases split_concat hsplit with ⟨rfl, rfl, rfl⟩ | ⟨rest, rfl, horder⟩
    · exact ⟨_, by rw [hentry, if_neg hlast, entry?_modifyEntry_self _ he], h.tail, rfl⟩
    · obtain ⟨x, hx, hxprev, hxnext⟩ := h.link front j rest horder
      have hj : j ≠ i := fun heq => hi (by rw [horder, heq]; simp)
      rw [hentry, entry?_modifyEntry_ne _ _ hj, hx, h.tail, horder]
      -- only the slot that was the last has a new successor
      cases rest with
      | nil => exact ⟨{ x with next := some i }, by simp, hxprev, rfl⟩
      | cons b bs =>
        have hnodup := h.nodup
        rw [horder, List.nodup_append, List.nodup_cons] at hnodup
        have hjlast : (b :: bs).getLast? ≠ some j := getLast?_ne_of_notMem hnodup.2.1.1
        refine ⟨x, ?_, hxprev, hxnext⟩
        rw [if_neg]
        simpa [List.getLast?_append] using hjlast

/-! ## Making a slot the most recently used -/

theorem Linked.moveToBack {c : BoundedCache κ ν} {front back : List Nat} {i : Nat}
    (h : Linked c (front ++ i :: back)) : Linked (c.moveToBack i) (front ++ back ++ [i]) := by
  unfold BoundedCache.moveToBack
  have hnodup := h.nodup
  rw [List.nodup_append, List.nodup_cons] at hnodup
  obtain ⟨-, ⟨hback, -⟩, hfront⟩ := hnodup
  split
  · rename_i hlast
    -- the slot is the last already
    have hempty : back = [] := by
      rw [h.tail] at hlast
      cases back with
      | nil => rfl
      | cons b bs =>
        have hmem : (b :: bs).getLast? = some i := by simpa [List.getLast?_append] using hlast
        exact absurd hmem (getLast?_ne_of_notMem hback)
    subst hempty
    simpa using h
  · obtain ⟨e, he, -⟩ := h.link front i back rfl
    obtain ⟨e', he', -⟩ := (relinked_unlink c i).entry he
    refine h.unlink.pushBack he' ?_
    rw [List.mem_append]
    rintro (hmem | hmem)
    · exact hfront i hmem i (by simp) rfl
    · exact hback hmem

end BoundedCache

end VersionChain
