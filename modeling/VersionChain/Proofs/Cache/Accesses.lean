import VersionChain.Proofs.Cache.Guarded

/-!
# Nothing breaks off

On a well-formed cache whose tombstones are counted, every operation that can break off comes to
its end, and gives what the operation gives that cannot.

* `unlink_eq`, `pushBack_eq` — the neighbours of a live slot are live;
* `probe_eq`, `reseatFrom_eq` — every occupied bucket leads to a live slot, and some bucket leads
  nowhere;
* `removeSlot_eq`, `seat_eq` — an entry that goes was counted, and so was a tombstone that is taken;
* `perform_eq` — every command.
-/

namespace VersionChain.BoundedCache

variable {κ ν : Type}

/-- A slot that is named, if any is, is live. -/
def Live (c : BoundedCache κ ν) (i : Option Nat) : Prop :=
  ∀ j, i = some j → ∃ e, c.entry? j = some e

theorem Live.modifyEntry {c : BoundedCache κ ν} {i : Option Nat} (h : Live c i) (j : Nat)
    (f : Entry κ ν → Entry κ ν) : Live (c.modifyEntry j f) i := by
  intro k hk
  obtain ⟨e, he⟩ := h k hk
  rw [entry?_modifyEntry, he]
  split
  · exact ⟨f e, rfl⟩
  · exact ⟨e, rfl⟩

theorem Live.linkNext {c : BoundedCache κ ν} {i : Option Nat} (h : Live c i)
    (j next : Option Nat) : Live (c.linkNext j next) i := by
  cases j with
  | none => exact h
  | some j => exact h.modifyEntry j _

/-- The neighbours of a slot in the order are live. -/
theorem Linked.neighbours {c : BoundedCache κ ν} {order : List Nat} (h : Linked c order) {i : Nat}
    (hi : i ∈ order) : ∃ e, c.entry? i = some e ∧ Live c e.prev ∧ Live c e.next := by
  obtain ⟨front, back, rfl⟩ := List.append_of_mem hi
  obtain ⟨e, he, hprev, hnext⟩ := h.link front i back rfl
  refine ⟨e, he, ?_, ?_⟩
  · intro j hj
    exact h.live (List.mem_append_left _ (List.mem_of_getLast? (hprev ▸ hj)))
  · intro j hj
    have hmem : j ∈ back := List.mem_of_mem_head? (hnext ▸ hj)
    exact h.live (List.mem_append_right _ (List.mem_cons_of_mem i hmem))

theorem Linked.live_tail {c : BoundedCache κ ν} {order : List Nat} (h : Linked c order) :
    Live c c.tail := by
  intro j hj
  exact h.live (List.mem_of_getLast? (h.tail ▸ hj))

namespace Guarded

/-! ## The order of use -/

theorem modifyEntry_eq {c : BoundedCache κ ν} {i : Nat} {e : Entry κ ν} (he : c.entry? i = some e)
    (f : Entry κ ν → Entry κ ν) : modifyEntry c i f = some (c.modifyEntry i f) := by
  unfold modifyEntry
  rw [he]
  rfl

theorem linkNext_eq {c : BoundedCache κ ν} {i : Option Nat} (h : Live c i) (next : Option Nat) :
    linkNext c i next = some (c.linkNext i next) := by
  cases i with
  | none => rfl
  | some i =>
    obtain ⟨e, he⟩ := h i rfl
    exact modifyEntry_eq he _

theorem linkPrev_eq {c : BoundedCache κ ν} {i : Option Nat} (h : Live c i) (prev : Option Nat) :
    linkPrev c i prev = some (c.linkPrev i prev) := by
  cases i with
  | none => rfl
  | some i =>
    obtain ⟨e, he⟩ := h i rfl
    exact modifyEntry_eq he _

/-- A slot with live neighbours is taken out of the order. -/
theorem unlink_eq {c : BoundedCache κ ν} {order : List Nat} {i : Nat} (h : Linked c order)
    (hi : i ∈ order) : unlink c i = some (c.unlink i) := by
  obtain ⟨e, he, hprev, hnext⟩ := h.neighbours hi
  unfold unlink BoundedCache.unlink
  rw [he]
  simp only [Option.bind_eq_bind, Option.bind_some, modifyEntry_eq he]
  rw [linkNext_eq (hprev.modifyEntry _ _), Option.bind_some,
    linkPrev_eq ((hnext.modifyEntry _ _).linkNext _ _)]

/-- A live slot is put behind a live one. -/
theorem pushBack_eq {c : BoundedCache κ ν} {i : Nat} {e : Entry κ ν} (he : c.entry? i = some e)
    (htail : Live c c.tail) : pushBack c i = some (c.pushBack i) := by
  unfold pushBack BoundedCache.pushBack
  simp only [Option.bind_eq_bind, modifyEntry_eq he, Option.bind_some]
  rw [linkNext_eq (htail.modifyEntry _ _), Option.bind_some]

theorem moveToBack_eq {c : BoundedCache κ ν} {order : List Nat} {i : Nat} (h : Linked c order)
    (hi : i ∈ order) : moveToBack c i = some (c.moveToBack i) := by
  obtain ⟨front, back, rfl⟩ := List.append_of_mem hi
  obtain ⟨e, he⟩ := h.live hi
  obtain ⟨u, hu, -⟩ := (relinked_unlink c i).entry he
  unfold moveToBack BoundedCache.moveToBack
  split
  · rfl
  · rw [unlink_eq h hi]
    exact pushBack_eq hu h.unlink.live_tail

/-- The way along the links ends after as many slots as there are. -/
theorem walk_eq {c : BoundedCache κ ν} {order front rest : List Nat} {steps : Nat}
    (h : Linked c order) (hsplit : order = front ++ rest) (hsteps : rest.length ≤ steps) :
    walk c steps rest.head? = some (c.walk steps rest.head?) := by
  induction rest generalizing front steps with
  | nil => cases steps <;> rfl
  | cons i rest ih =>
    obtain ⟨steps, rfl⟩ : ∃ m, steps = m + 1 := ⟨steps - 1, by simp at hsteps; omega⟩
    obtain ⟨e, he, -, hnext⟩ := h.link front i rest hsplit
    have hsplit' : order = (front ++ [i]) ++ rest := by simp [hsplit]
    have htail := ih hsplit' (Nat.le_of_succ_le_succ hsteps)
    simp only [List.head?_cons, walk, BoundedCache.walk, entry?_eq_some.mp he, he, hnext,
      Option.bind_eq_bind, Option.bind_some, htail]

theorem inOrder_eq {c : BoundedCache κ ν} {order : List Nat} (h : Linked c order) :
    inOrder c = some c.inOrder := by
  unfold inOrder BoundedCache.inOrder
  rw [h.head]
  exact walk_eq h (List.nil_append order).symm h.length_le

/-! ## Probing -/

theorem bucketAfter_lt (c : BoundedCache κ ν) (pos : Nat) (h : 0 < c.buckets.size) :
    c.bucketAfter pos < c.buckets.size :=
  Nat.mod_lt _ h

theorem probeVacant_eq {c : BoundedCache κ ν} {pos : Nat} (hpos : pos < c.buckets.size)
    (steps : Nat) : probeVacant c steps pos = some (c.probeVacant steps pos) := by
  induction steps generalizing pos with
  | zero => rfl
  | succ steps ih =>
    simp only [probeVacant, BoundedCache.probeVacant, Array.getElem?_eq_getElem hpos,
      Option.bind_eq_bind, Option.bind_some]
    cases c.buckets[pos] with
    | occupied slot => exact ih (bucketAfter_lt c pos (by omega))
    | empty => rfl
    | tombstone => rfl

theorem vacantBucket_eq {c : BoundedCache κ ν} (key : κ) (h : 0 < c.buckets.size) :
    vacantBucket c key = some (c.vacantBucket? key) := by
  unfold vacantBucket
  rw [if_neg (by omega)]
  exact probeVacant_eq (home_lt c key h) _

/-- A live slot is seated as long as there are more buckets than slots. -/
theorem reseat_eq {c : BoundedCache κ ν} {i : Nat} {e : Entry κ ν} (h : SeatedOn c (· < i))
    (he : c.entry? i = some e) (hsize : c.slots.size < c.buckets.size) :
    reseat c i e.key = some (c.reseat i e.key) := by
  obtain ⟨pos, hpos⟩ := h.exists_vacantBucket? hsize e.key
  unfold reseat BoundedCache.reseat
  rw [vacantBucket_eq e.key (by omega), hpos]
  have hset : BoundedCache.entry? { c with buckets := c.buckets.setIfInBounds pos (.occupied i) } i =
      some e := he
  exact modifyEntry_eq hset _

theorem reseatFrom_eq {c : BoundedCache κ ν} {n i : Nat} (h : SeatedOn c (· < i))
    (hsize : c.slots.size < c.buckets.size) (hn : i + n ≤ c.slots.size) :
    reseatFrom c n i = some (c.reseatFrom n i) := by
  induction n generalizing c i with
  | zero => rfl
  | succ n ih =>
    have hi : i < c.slots.size := by omega
    simp only [reseatFrom, BoundedCache.reseatFrom, BoundedCache.entry?,
      Array.getElem?_eq_getElem hi, Option.bind_eq_bind, Option.bind_some]
    cases hslot : c.slots[i] with
    | live e =>
      have he : c.entry? i = some e := by
        rw [entry?_eq_some, Array.getElem?_eq_getElem hi, hslot]
      have hre := reseated_reseat c i e.key
      simp only [reseat_eq h he hsize, Option.bind_some]
      exact ih (h.reseat he (liveSlots_le_of_lt hsize)) (by rw [hre.size, hre.bucketCount]; exact hsize)
        (by rw [hre.size]; omega)
    | free next =>
      have hfree : c.free? i = some next := by
        rw [free?_eq_some, Array.getElem?_eq_getElem hi, hslot]
      exact ih (h.pass (entry?_eq_none_of_free? hfree)) hsize (by omega)

/-- Where there are more buckets than slots, all buckets can be filled anew. -/
theorem sweep_eq {c : BoundedCache κ ν} (hsize : c.slots.size < c.buckets.size) :
    sweep c = some c.sweep := by
  unfold sweep BoundedCache.sweep BoundedCache.rebuild
  split
  · rw [if_neg (by omega)]
    exact reseatFrom_eq (seatedOn_cleared c) (by simpa using hsize) (by simp)
  · rfl

/-! ## Entries that go -/

/-- A live slot was counted, and its bucket is there. -/
theorem removeSlot_eq {c : BoundedCache κ ν} {order vacant : List Nat} {i : Nat} {e : Entry κ ν}
    (h : Valid c order vacant) (he : c.entry? i = some e) :
    removeSlot c i = some (c.removeSlot i) := by
  have hi := h.live i e he
  have hre := relinked_unlink c i
  obtain ⟨u, hu, hkey, hvalue, hbucket⟩ := hre.entry he
  have hlen : (c.unlink i).len = order.length :=
    (congrArg BoundedCache.len hre.rest :).trans h.len
  have hpositive := List.length_pos_of_mem hi
  have hbuckets : (c.unlink i).buckets = c.buckets := (congrArg BoundedCache.buckets hre.rest :)
  have hlt : e.bucket < c.buckets.size :=
    (Array.getElem?_eq_some_iff.mp (h.seated.on.seat i e trivial he)).1
  have hvacated := h.vacate he
  have hcapacity : 0 < (c.vacate i e).capacity := by
    have hslot := lt_of_entry he
    have hsize := h.size
    have hsame : (c.vacate i e).capacity = c.capacity :=
      (congrArg BoundedCache.capacity hre.rest :)
    omega
  rw [BoundedCache.removeSlot_eq he]
  unfold removeSlot
  rw [unlink_eq h.linked hi]
  simp only [Option.bind_eq_bind, Option.bind_some, hu, hbucket, hkey, hvalue]
  rw [if_neg (by rw [hlen, hbuckets]; omega)]
  have hswept : sweep (c.vacate i e) = some (c.vacate i e).sweep :=
    sweep_eq (hvacated.slots_lt_buckets hcapacity)
  unfold vacate at hswept ⊢
  simp only [hswept, Option.bind_some]
  rfl

theorem popOldest_eq {c : BoundedCache κ ν} {order vacant : List Nat} (h : Valid c order vacant) :
    popOldest c = some c.popOldest := by
  rcases Option.eq_none_or_eq_some c.head with hhead | ⟨i, hhead⟩
  · unfold popOldest BoundedCache.popOldest
    simp only [hhead]
  · have hguarded : popOldest c = removeSlot { c with evictions := c.evictions + 1 } i := by
      unfold popOldest
      simp only [hhead]
    have hplain : c.popOldest = BoundedCache.removeSlot { c with evictions := c.evictions + 1 } i := by
      unfold BoundedCache.popOldest
      simp only [hhead]
    obtain ⟨e, he⟩ := h.linked.live (List.mem_of_mem_head? (h.linked.head ▸ hhead))
    rw [hguarded, hplain]
    exact removeSlot_eq (h.count c.hits c.misses (c.evictions + 1)) he

theorem removeSlots_eq {c : BoundedCache κ ν} {order vacant doomed : List Nat}
    (h : Valid c order vacant) (hdoomed : doomed.Nodup) (hlive : ∀ i ∈ doomed, i ∈ order) :
    removeSlots c doomed = some (c.removeSlots doomed) := by
  induction doomed generalizing c order vacant with
  | nil => rfl
  | cons i rest ih =>
    obtain ⟨hi, hrest⟩ := List.nodup_cons.mp hdoomed
    obtain ⟨e, he⟩ := h.linked.live (hlive i List.mem_cons_self)
    have htail := ih (h.removeSlot he) hrest fun j hj => by
      have hne : j ≠ i := fun heq => hi (heq ▸ hj)
      exact List.mem_filter.mpr ⟨hlive j (List.mem_cons_of_mem i hj), by simpa using hne⟩
    simp only [removeSlots, BoundedCache.removeSlots, removeSlot_eq h he, Option.bind_eq_bind,
      Option.bind_some, htail]

theorem retain_eq {c : BoundedCache κ ν} {order vacant : List Nat} (h : Valid c order vacant)
    (keep : κ → ν → Bool) : retain c keep = some (c.retain keep) := by
  obtain ⟨hnodup, hlive⟩ := h.linked.doomed fun e => !keep e.key e.value
  unfold retain BoundedCache.retain
  simp only [inOrder_eq h.linked, Option.bind_eq_bind, Option.bind_some,
    removeSlots_eq h hnodup hlive]

/-! ## Entries that come -/

/-- The first free slot is there. -/
theorem allocate_eq {c : BoundedCache κ ν} {order vacant : List Nat} (h : Valid c order vacant)
    (entry : Entry κ ν) : allocate c entry = some (c.allocate entry) := by
  unfold allocate
  split
  · rename_i i hi
    have hchain := h.vacant.chain
    cases vacant with
    | nil =>
      rw [hi] at hchain
      cases hchain
    | cons j rest =>
      obtain ⟨hstart, next, hnext, -⟩ := hchain
      rw [hi] at hstart
      cases hstart
      rw [free?_eq_some.mp hnext]
      rfl
  · rfl

/-- A tombstone that is taken was counted. -/
theorem seat_eq {c : BoundedCache κ ν} {order vacant : List Nat} {key : κ} {pos : Nat}
    (h : Valid c order vacant) (htallied : Tallied c) (hroom : order.length < c.capacity)
    (hpos : c.vacantBucket? key = some pos) (value : ν) :
    seat c pos key value = some (c.seat pos key value) := by
  obtain ⟨-, b, hb, -⟩ := vacantBucket?_eq_some hpos
  obtain ⟨i, a, vacant', halloc, ha⟩ := h.allocate hroom { key, value, bucket := pos }
  have hbuckets : a.buckets = c.buckets := (congrArg BoundedCache.buckets ha.rest :)
  have htombstones : a.tombstones = c.tombstones := (congrArg BoundedCache.tombstones ha.rest :)
  rw [← hbuckets] at hb
  have hcounted : ¬(b = .tombstone ∧ a.tombstones = 0) := by
    rintro ⟨rfl, hzero⟩
    have hpositive : 0 < c.buckets.count .tombstone :=
      Array.count_pos_iff.mpr (Array.mem_of_getElem? (hbuckets ▸ hb))
    rw [htallied.count, ← htombstones, hzero] at hpositive
    exact Nat.lt_irrefl 0 hpositive
  let tombstones := if a.buckets[pos]? = some .tombstone then a.tombstones - 1 else a.tombstones
  have hentry : BoundedCache.entry? (a.occupy pos i tombstones) i =
      some { key, value, bucket := pos } := by
    have hself := ha.entry i
    rwa [if_pos rfl] at hself
  have htail : Live (a.occupy pos i tombstones) (a.occupy pos i tombstones).tail := by
    intro j hj
    have hsame : a.tail = c.tail := (congrArg BoundedCache.tail ha.rest :)
    obtain ⟨e, he⟩ := h.linked.live_tail j (hsame ▸ hj)
    have hj' := ha.entry j
    rw [he] at hj'
    split at hj'
    · exact ⟨_, hj'⟩
    · exact ⟨e, hj'⟩
  unfold seat BoundedCache.seat
  rw [allocate_eq h, halloc]
  simp only [Option.bind_eq_bind, Option.bind_some, hb]
  rw [if_neg hcounted]
  have hpushed := pushBack_eq hentry htail
  unfold occupy at hpushed
  simp only [tombstones, hb] at hpushed
  rw [hpushed]
  rfl

/-! ## Commands -/

variable [DecidableEq κ]

/-- Every occupied bucket leads to a slot that is there. -/
theorem probe_eq {c : BoundedCache κ ν} (h : Seated c) (key : κ) {pos : Nat}
    (hpos : pos < c.buckets.size) (steps : Nat) :
    probe c key steps pos = some (c.probe key steps pos) := by
  induction steps generalizing pos with
  | zero => rfl
  | succ steps ih =>
    have hnext := ih (bucketAfter_lt c pos (by omega))
    simp only [probe, BoundedCache.probe]
    cases hb : c.buckets[pos]? with
    | none => exact absurd (Array.getElem?_eq_none_iff.mp hb) (by omega)
    | some b =>
      cases b with
      | empty => rfl
      | tombstone => exact hnext
      | occupied slot =>
        obtain ⟨-, e, he, -⟩ := h.on.occupied pos slot hb
        simp only [Option.bind_eq_bind, Option.bind_some, entry?_eq_some.mp he, he, Option.any_some,
          decide_eq_true_eq, hnext, apply_ite some]

theorem find_eq {c : BoundedCache κ ν} (h : Seated c) (key : κ) :
    find c key = some (c.find? key) := by
  unfold find find?
  split
  · rename_i hsize
    rw [hsize]
    rfl
  · exact probe_eq h key (home_lt c key (by omega)) _

theorem update_eq {c : BoundedCache κ ν} {order vacant : List Nat} (h : Valid c order vacant)
    (key : κ) (f : ν → ν) : update c key f = some (c.update key f) := by
  unfold update BoundedCache.update
  rw [find_eq h.seated]
  simp only [Option.bind_eq_bind, Option.bind_some]
  cases hfind : c.find? key with
  | none => rfl
  | some i =>
    obtain ⟨e, he, -⟩ := probe_sound hfind
    have hcounted := h.count (c.hits + 1) c.misses c.evictions
    have hre := relinked_moveToBack { c with hits := c.hits + 1 } i
    obtain ⟨u, hu, -⟩ := hre.entry he
    simp only [moveToBack_eq hcounted.linked (h.live i e he), Option.bind_some,
      entry?_eq_some.mp hu]

theorem peek_eq {c : BoundedCache κ ν} {order vacant : List Nat} (h : Valid c order vacant)
    (key : κ) : peek c key = some (c.peek? key) := by
  unfold peek BoundedCache.peek?
  rw [find_eq h.seated]
  simp only [Option.bind_eq_bind, Option.bind_some]
  cases hfind : c.find? key with
  | none => rfl
  | some i =>
    obtain ⟨e, he, -⟩ := probe_sound hfind
    simp only [entry?_eq_some.mp he, Option.bind_some]

theorem remove_eq {c : BoundedCache κ ν} {order vacant : List Nat} (h : Valid c order vacant)
    (key : κ) : remove c key = some (c.remove key) := by
  unfold remove BoundedCache.remove
  rw [find_eq h.seated]
  simp only [Option.bind_eq_bind, Option.bind_some]
  cases hfind : c.find? key with
  | none => rfl
  | some i =>
    obtain ⟨e, he, -⟩ := probe_sound hfind
    simp only [removeSlot_eq h he, Option.bind_some]

/-- Where the key is not cached, there is room for it once the oldest entry of a full cache is
gone. -/
theorem makeRoom_eq {c : BoundedCache κ ν} (h : WellFormed c) (htallied : Tallied c) {key : κ}
    (hcapacity : c.capacity ≠ 0) (hfind : c.find? key = none) :
    ∃ evicted d order vacant, (if c.capacity ≤ c.len then c.popOldest else (none, c)) = (evicted, d) ∧
      makeRoom c = some (evicted, d) ∧ Valid d order vacant ∧ Tallied d ∧
      order.length < d.capacity := by
  obtain ⟨order, vacant, hvalid⟩ := id h
  have hlen := hvalid.length_pairs.trans hvalid.len.symm
  unfold makeRoom
  split
  · rename_i hfull
    have hpeek : c.toLru.peek? key = none := by
      rcases hvalid.find?_cases key with ⟨-, hpeek, -⟩ | ⟨i, e, hsome, -⟩
      · exact hpeek
      · rw [hfind] at hsome
        cases hsome
    obtain ⟨oldest, rest, hpairs⟩ : ∃ oldest rest, c.toLru.pairs = oldest :: rest :=
      List.exists_cons_of_length_pos (by omega)
    obtain ⟨-, -, hroom, -⟩ := h.room_popOldest hpairs hpeek
    obtain ⟨order', vacant', hpopped⟩ := h.popOldest.wellFormed
    rw [hpopped.length_pairs] at hroom
    exact ⟨_, _, order', vacant', rfl, popOldest_eq hvalid, hpopped, htallied.popOldest hvalid, hroom⟩
  · rename_i hfull
    refine ⟨_, _, order, vacant, rfl, rfl, hvalid, htallied, ?_⟩
    rw [← hvalid.len]
    omega

theorem insert_eq {c : BoundedCache κ ν} (h : WellFormed c) (htallied : Tallied c) (key : κ)
    (value : ν) : insert c key value = some (c.insert key value) := by
  obtain ⟨order, vacant, hvalid⟩ := id h
  unfold insert BoundedCache.insert
  split
  · rfl
  · rename_i hcapacity
    rw [find_eq hvalid.seated]
    simp only [Option.bind_eq_bind, Option.bind_some]
    cases hfind : c.find? key with
    | some i =>
      obtain ⟨e, he, -⟩ := probe_sound hfind
      obtain ⟨u, hu, -⟩ := (relinked_moveToBack c i).entry he
      simp only [moveToBack_eq hvalid.linked (hvalid.live i e he), Option.bind_some,
        entry?_eq_some.mp hu, hu]
    | none =>
      obtain ⟨evicted, d, order', vacant', htotal, hguarded, hvalid', htallied', hroom⟩ :=
        makeRoom_eq h htallied hcapacity hfind
      have hsize : 0 < d.buckets.size :=
        Nat.lt_of_le_of_lt (Nat.zero_le _) (hvalid'.slots_lt_buckets (by omega))
      simp only [htotal, hguarded, Option.bind_some, vacantBucket_eq key hsize]
      cases hpos : d.vacantBucket? key with
      | none => rfl
      | some pos =>
        simp only [seat_eq hvalid' htallied' hroom hpos, Option.bind_some]
        rcases d.seat pos key value with ⟨stored, d'⟩
        cases stored <;> rcases evicted with _ | ⟨oldKey, oldValue⟩ <;> rfl

/-- Every command comes to its end. -/
theorem perform_eq {c : BoundedCache κ ν} (h : WellFormed c) (htallied : Tallied c)
    (command : CacheCommand κ ν) : perform c command = some (c.perform command) := by
  obtain ⟨order, vacant, hvalid⟩ := id h
  cases command with
  | get key => exact congrArg (Option.map _) (update_eq hvalid key id)
  | update key f => exact congrArg (Option.map _) (update_eq hvalid key f)
  | peek key => exact congrArg (Option.map _) (peek_eq hvalid key)
  | contains key => exact congrArg (Option.map _) (find_eq hvalid.seated key)
  | insert key value => exact congrArg (Option.map _) (insert_eq h htallied key value)
  | remove key => exact congrArg (Option.map _) (remove_eq hvalid key)
  | popOldest => exact congrArg (Option.map _) (popOldest_eq hvalid)
  | retain keep => exact congrArg (Option.map _) (retain_eq hvalid keep)
  | clear => rfl

end Guarded

end VersionChain.BoundedCache
