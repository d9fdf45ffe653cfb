import Sexp.Exec
import Mathlib.Data.List.Nodup
import Mathlib.Data.Finite.Defs
import Mathlib.Data.FinEnum

/-! # The slab

`memory/slab.rs`: a dense arena of slots with a free list. A key is a `u32` offset into the slot
vector; the phantom type of the source keeps keys of different slabs apart and has no value, so it
is left out. Both vectors of the source grow and shrink at their end; the free list is kept here
with its top first. Capacities are performance hints and are left out. -/

namespace Sexp

/-- A key of a slab: a `u32` offset into the slot vector. -/
structure Key where
  /-- The offset. -/
  index : UInt32
  deriving DecidableEq, Repr

namespace Key

/-- The slot a key points to (`key.0 as usize`). -/
def slot (key : Key) : Nat := key.index.toNat

/-- Different keys point to different slots. -/
theorem slot_inj {a b : Key} : a.slot = b.slot ↔ a = b := by
  rcases a with ⟨a⟩
  rcases b with ⟨b⟩
  simp [slot, UInt32.toNat_inj]

/-- There are finitely many keys. -/
instance : Finite Key :=
  Finite.of_injective Key.index fun a b h => by cases a; cases b; simpa using h

end Key

/-- A dense, reuse-capable arena: a slot vector and a free list. -/
structure Slab (α : Type) where
  /-- The slots; a free slot holds `none`. -/
  slots : List (Option α)
  /-- The offsets of the free slots, the next one to be reused first. -/
  free : List UInt32
  deriving DecidableEq, Repr

namespace Slab

variable {α : Type}

/-- An empty slab. -/
def new : Slab α := ⟨[], []⟩

/-- Inserts a value and returns a key for it. The offset of a new slot is `slots.len() as u32`,
which wraps around from `2 ^ 32` slots on. -/
def insert (slab : Slab α) (value : α) : Exec (Slab α × Key) :=
  match slab.free with
  | idx :: free =>
      if idx.toNat < slab.slots.length then
        .ok (⟨slab.slots.set idx.toNat (some value), free⟩, ⟨idx⟩)
      else .error (.panic .indexOutOfBounds)
  | [] => .ok (⟨slab.slots ++ [some value], []⟩, ⟨UInt32.ofNat slab.slots.length⟩)

/-- Removes the value at `key` and returns it, or `none` if the key is stale. -/
def remove (slab : Slab α) (key : Key) : Slab α × Option α :=
  match slab.slots[key.slot]? with
  | some (some value) => (⟨slab.slots.set key.slot none, key.index :: slab.free⟩, some value)
  | _ => (slab, none)

/-- The value at `key`, or `none` if the key is stale. -/
def get (slab : Slab α) (key : Key) : Option α := (slab.slots[key.slot]?).join

/-- The number of live values in the slab. -/
def len (slab : Slab α) : Nat := slab.slots.length - slab.free.length

/-- `slab[key]`: panics if `key` is stale or out of range. -/
def index (slab : Slab α) (key : Key) : Exec α :=
  match slab.slots[key.slot]? with
  | none => .error (.panic .indexOutOfBounds)
  | some none => .error (.panic .staleKey)
  | some (some value) => .ok value

/-- The slab with the value at `key`, if there is one, replaced by its image under `f`. -/
def update (slab : Slab α) (key : Key) (f : α → α) : Slab α :=
  { slab with slots := slab.slots.modify key.slot (Option.map f) }

/-- An assignment to `slab[key]`: panics if `key` is stale or out of range. -/
def modify (slab : Slab α) (key : Key) (f : α → α) : Exec (Slab α) := do
  let _ ← slab.index key
  return slab.update key f

/-! ## Reading -/

/-- Indexing succeeds exactly on live keys. -/
theorem index_eq_ok {slab : Slab α} {key : Key} {value : α} :
    slab.index key = .ok value ↔ slab.get key = some value := by
  rw [index, get]
  rcases slab.slots[key.slot]? with _ | (_ | v) <;> simp

/-- Assigning succeeds exactly on live keys. -/
theorem modify_eq_ok {slab slab' : Slab α} {key : Key} {f : α → α} :
    slab.modify key f = .ok slab' ↔ (slab.get key).isSome ∧ slab' = slab.update key f := by
  rw [modify, Library.bind_eq_ok]
  simp only [index_eq_ok, Option.isSome_iff_exists, Library.pure_eq_ok, Except.ok.injEq]
  constructor
  · rintro ⟨a, ha, rfl⟩
    exact ⟨⟨a, ha⟩, rfl⟩
  · rintro ⟨⟨a, ha⟩, rfl⟩
    exact ⟨a, ha, rfl⟩

/-- What a key is bound to is in a slot. -/
theorem mem_slots {slab : Slab α} {key : Key} {value : α} (h : slab.get key = some value) :
    some value ∈ slab.slots :=
  List.mem_of_getElem? (Option.join_eq_some_iff.mp h)

/-- Reading after an update. -/
@[simp] theorem get_update (slab : Slab α) (key : Key) (f : α → α) (id : Key) :
    (slab.update key f).get id =
      (slab.get id).map fun value => if id = key then f value else value := by
  simp only [get, update, List.getElem?_modify, Key.slot_inj]
  by_cases h : key = id
  · subst h
    rcases slab.slots[key.slot]? with _ | (_ | v) <;> simp
  · rcases slab.slots[id.slot]? with _ | (_ | v) <;> simp [h, Ne.symm h]

/-- Reading after a removal. -/
theorem get_remove (slab : Slab α) (key id : Key) :
    (slab.remove key).1.get id = if id = key then none else slab.get id := by
  by_cases h : id = key
  · subst h
    rw [if_pos rfl, remove]
    rcases hs : slab.slots[id.slot]? with _ | (_ | v)
    · simp [get, hs]
    · simp [get, hs]
    · have := (List.getElem?_eq_some_iff.mp hs).1
      simp [get, this]
  · rw [if_neg h, remove]
    have hslot : ¬ key.slot = id.slot := fun heq => h (Key.slot_inj.mp heq.symm)
    rcases slab.slots[key.slot]? with _ | (_ | v) <;> simp [get, hslot]

/-- Removal returns the value that was bound to the key. -/
theorem remove_snd (slab : Slab α) (key : Key) : (slab.remove key).2 = slab.get key := by
  rw [remove, get]
  rcases slab.slots[key.slot]? with _ | (_ | v) <;> rfl

/-- Removing a key changes no number of slots. -/
@[simp] theorem length_remove (slab : Slab α) (key : Key) :
    (slab.remove key).1.slots.length = slab.slots.length := by
  rw [remove]
  rcases slab.slots[key.slot]? with _ | (_ | v) <;> simp

/-! ## Consistency of the free list -/

/-- **Consistency of a slab**: the free list holds each empty slot exactly once. -/
structure WellFormed (slab : Slab α) : Prop where
  /-- No slot is listed twice. -/
  nodup_free : slab.free.Nodup
  /-- The listed slots are the empty ones. -/
  mem_free : ∀ i : Nat, slab.slots[i]? = some none ↔ ∃ idx ∈ slab.free, idx.toNat = i

/-- The empty slab is consistent. -/
theorem wellFormed_new : (new : Slab α).WellFormed :=
  ⟨List.nodup_nil, fun i => by simp [new]⟩

namespace WellFormed

variable {slab slab' : Slab α} {key : Key} {value : α}

/-- A slot on the free list is in range. -/
theorem lt_length (h : slab.WellFormed) {idx : UInt32} (hidx : idx ∈ slab.free) :
    idx.toNat < slab.slots.length :=
  (List.getElem?_eq_some_iff.mp ((h.mem_free _).mpr ⟨idx, hidx, rfl⟩)).1

/-- Updates keep consistency. -/
theorem update (h : slab.WellFormed) (key : Key) (f : α → α) : (slab.update key f).WellFormed := by
  refine ⟨h.nodup_free, fun i => ?_⟩
  change _ ↔ ∃ idx ∈ slab.free, idx.toNat = i
  rw [← h.mem_free, Slab.update, List.getElem?_modify]
  rcases slab.slots[i]? with _ | (_ | v) <;> by_cases hi : key.slot = i <;> simp [hi]

/-- Removal keeps consistency. -/
theorem remove (h : slab.WellFormed) (key : Key) : (slab.remove key).1.WellFormed := by
  rw [Slab.remove]
  rcases hs : slab.slots[key.slot]? with _ | (_ | v)
  · exact h
  · exact h
  · have hlt := (List.getElem?_eq_some_iff.mp hs).1
    refine ⟨List.nodup_cons.mpr ⟨fun hmem => ?_, h.nodup_free⟩, fun i => ?_⟩
    · have := (h.mem_free key.slot).mpr ⟨_, hmem, rfl⟩
      simp [hs] at this
    · rw [List.getElem?_set, List.exists_mem_cons_iff]
      by_cases hi : key.slot = i
      · subst hi
        rw [if_pos rfl, if_pos hlt]
        exact iff_of_true rfl (.inl rfl)
      · rw [if_neg hi, h.mem_free]
        simp [show ¬ key.index.toNat = i from hi]

/-- Insertion never panics, and keeps consistency. -/
theorem insert (h : slab.WellFormed) (value : α) :
    ∃ slab' key, slab.insert value = .ok (slab', key) ∧ slab'.WellFormed := by
  rw [Slab.insert]
  split
  · rename_i idx free hfree
    -- the slot freed last is taken
    have hlt : idx.toNat < slab.slots.length := h.lt_length (by simp [hfree])
    rw [if_pos hlt]
    refine ⟨_, _, rfl, ?_, fun i => ?_⟩
    · exact (List.nodup_cons.mp (hfree ▸ h.nodup_free)).2
    · have hmem := h.mem_free i
      rw [hfree, List.exists_mem_cons_iff] at hmem
      rw [List.getElem?_set]
      by_cases hi : idx.toNat = i
      · subst hi
        simp only [if_pos, hlt, Option.some.injEq, reduceCtorEq, false_iff, not_exists, not_and]
        intro j hj heq
        rw [UInt32.toNat_inj] at heq
        exact (List.nodup_cons.mp (hfree ▸ h.nodup_free)).1 (heq ▸ hj)
      · rw [if_neg hi, hmem]
        simp [hi]
  · rename_i hfree
    -- no slot is free: the slab grows by one
    refine ⟨_, _, rfl, List.nodup_nil, fun i => ?_⟩
    have hmem := h.mem_free i
    rw [hfree] at hmem
    rw [List.getElem?_append]
    split
    · exact hmem
    · simp only [List.not_mem_nil, false_and, exists_false, iff_false]
      rw [List.getElem?_singleton]
      split <;> simp

/-- A consistent free list is no longer than the slab. -/
theorem length_free_le (h : slab.WellFormed) :
    slab.free.length ≤ slab.slots.length := by
  have hnodup : (slab.free.map UInt32.toNat).Nodup :=
    h.nodup_free.map fun a b heq => UInt32.toNat_inj.mp heq
  have hsub : slab.free.map UInt32.toNat ⊆ List.range slab.slots.length := by
    intro i hi
    obtain ⟨idx, hidx, rfl⟩ := List.mem_map.mp hi
    exact List.mem_range.mpr (h.lt_length hidx)
  simpa using (hnodup.subperm hsub).length_le

/-- Removing a live key leaves one live value less. -/
theorem len_remove (h : slab.WellFormed) {key : Key} (hlive : (slab.get key).isSome) :
    (slab.remove key).1.len + 1 = slab.len := by
  have hle := (h.remove key).length_free_le
  obtain ⟨v, hv⟩ := Option.isSome_iff_exists.mp hlive
  have hslot : slab.slots[key.slot]? = some (some v) := Option.join_eq_some_iff.mp hv
  simp only [Slab.remove, hslot, List.length_set, List.length_cons] at hle
  simp only [Slab.len, Slab.remove, hslot, List.length_set, List.length_cons]
  omega

end WellFormed

/-! ## Reading after an insertion -/

/-- An insertion adds at most one slot, and takes none away. -/
theorem length_insert {slab slab' : Slab α} {value : α} {key : Key}
    (h : slab.insert value = .ok (slab', key)) :
    slab.slots.length ≤ slab'.slots.length ∧ slab'.slots.length ≤ slab.slots.length + 1 := by
  rw [insert] at h
  split at h
  · split at h
    · simp only [Except.ok.injEq, Prod.mk.injEq] at h
      rw [← h.1]
      simp
    · simp at h
  · simp only [Except.ok.injEq, Prod.mk.injEq] at h
    rw [← h.1]
    simp

/-- Without free slots an insertion adds a slot. -/
theorem insert_of_free_eq_nil {slab slab' : Slab α} {value : α} {key : Key}
    (hfree : slab.free = []) (h : slab.insert value = .ok (slab', key)) :
    slab'.free = [] ∧ slab'.slots.length = slab.slots.length + 1 := by
  rw [insert, hfree, Except.ok.injEq, Prod.mk.injEq] at h
  rw [← h.1]
  simp

/-- Insertion keeps every live binding. -/
theorem get_insert_of_live {slab slab' : Slab α} {value : α} {key : Key}
    (hwf : slab.WellFormed) (h : slab.insert value = .ok (slab', key)) {id : Key} {v : α}
    (hid : slab.get id = some v) : slab'.get id = some v := by
  rw [insert] at h
  split at h
  · rename_i idx free hfree
    have hidx := (hwf.mem_free idx.toNat).mpr ⟨idx, by simp [hfree], rfl⟩
    have hne : ¬ idx.toNat = id.slot := fun heq => by simp [get, ← heq, hidx] at hid
    rw [if_pos (hwf.lt_length (by simp [hfree])), Except.ok.injEq, Prod.mk.injEq] at h
    rw [← h.1, get, List.getElem?_set, if_neg hne]
    exact hid
  · simp only [Except.ok.injEq, Prod.mk.injEq] at h
    have hlt : id.slot < slab.slots.length := by
      by_contra hge
      simp [get, List.getElem?_eq_none (Nat.le_of_not_lt hge)] at hid
    rw [← h.1, get, List.getElem?_append_left hlt]
    exact hid

/-- **The key of the slot that the next insertion fills**: the one freed last, or a new one. -/
def FillsNext (slab : Slab α) (key : Key) : Prop :=
  match slab.free with
  | idx :: _ => key.index = idx
  | [] => key.slot = slab.slots.length

/-- The slot that the next insertion fills is empty. -/
theorem FillsNext.vacant {slab : Slab α} {key : Key} (h : slab.FillsNext key)
    (hwf : slab.WellFormed) : slab.get key = none := by
  unfold FillsNext at h
  split at h
  · rename_i idx free hfree
    have hidx := (hwf.mem_free idx.toNat).mpr ⟨idx, by simp [hfree], rfl⟩
    rw [← h] at hidx
    simp [get, Key.slot, hidx]
  · simp [get, h]

/-- **Insertion fills one empty slot**: the next one. -/
theorem get_insert_of_vacant {slab slab' : Slab α} {value : α} {key : Key}
    (hwf : slab.WellFormed) (h : slab.insert value = .ok (slab', key)) {id : Key}
    (hid : slab.get id = none) : slab'.get id = none ↔ ¬ slab.FillsNext id := by
  unfold FillsNext
  rw [insert] at h
  split at h
  · rename_i idx free hfree
    have hlt : idx.toNat < slab.slots.length := hwf.lt_length (by simp [hfree])
    rw [if_pos hlt, Except.ok.injEq, Prod.mk.injEq] at h
    rw [← h.1, get, List.getElem?_set]
    by_cases heq : id.index = idx
    · subst heq
      simp [Key.slot, hlt]
    · have hne : ¬ idx.toNat = id.slot := fun hslot => heq (UInt32.toNat_inj.mp hslot.symm)
      rw [if_neg hne]
      exact iff_of_true hid heq
  · rename_i hfree
    rw [Except.ok.injEq, Prod.mk.injEq] at h
    -- no slot is free, so the key points behind the slots
    have hge : slab.slots.length ≤ id.slot := by
      by_contra hlt
      rw [get, List.getElem?_eq_getElem (Nat.lt_of_not_le hlt), Option.join_some] at hid
      have hmem := (hwf.mem_free id.slot).mp
        (by rw [List.getElem?_eq_getElem (Nat.lt_of_not_le hlt), hid])
      simp [hfree] at hmem
    rw [← h.1, get, List.getElem?_append_right hge, List.getElem?_singleton]
    by_cases heq : id.slot = slab.slots.length
    · simp [heq]
    · simp [heq, Nat.sub_ne_zero_of_lt (lt_of_le_of_ne hge (Ne.symm heq))]

/-- **Insertion in a slab of at most `2 ^ 32` slots** returns a key that was not live, binds it to
the value, and changes no other binding. -/
theorem get_insert {slab slab' : Slab α} {value : α} {key : Key} (hwf : slab.WellFormed)
    (h : slab.insert value = .ok (slab', key)) (hfits : slab'.slots.length ≤ 2 ^ 32) :
    slab.get key = none ∧ ∀ id, slab'.get id = if id = key then some value else slab.get id := by
  rw [insert] at h
  split at h
  · rename_i idx free hfree
    have hidx := (hwf.mem_free idx.toNat).mpr ⟨idx, by simp [hfree], rfl⟩
    have hlt : idx.toNat < slab.slots.length := hwf.lt_length (by simp [hfree])
    rw [if_pos hlt, Except.ok.injEq, Prod.mk.injEq] at h
    obtain ⟨rfl, rfl⟩ := h
    refine ⟨by simp [get, Key.slot, hidx], fun id => ?_⟩
    rw [get, List.getElem?_set]
    by_cases hid : id = ⟨idx⟩
    · subst hid
      simp [Key.slot, hlt]
    · have hne : ¬ idx.toNat = id.slot := fun heq => hid (Key.slot_inj.mp heq.symm)
      rw [if_neg hne, if_neg hid, get]
  · simp only [Except.ok.injEq, Prod.mk.injEq] at h
    obtain ⟨rfl, rfl⟩ := h
    -- the index of the new slot fits into a key
    have hlt : slab.slots.length < 2 ^ 32 := by
      rw [List.length_append, List.length_singleton] at hfits
      omega
    have hslot : (⟨UInt32.ofNat slab.slots.length⟩ : Key).slot = slab.slots.length :=
      UInt32.toNat_ofNat_of_lt' hlt
    refine ⟨by simp [get, hslot], fun id => ?_⟩
    by_cases hid : id = ⟨UInt32.ofNat slab.slots.length⟩
    · subst hid
      simp [get, hslot]
    · have hne : id.slot ≠ slab.slots.length := fun heq =>
        hid (Key.slot_inj.mp (heq.trans hslot.symm))
      rw [if_neg hid, get, get, List.getElem?_append]
      split
      · rfl
      · rename_i hge
        have h1 : id.slot - slab.slots.length ≠ 0 := by omega
        rw [List.getElem?_singleton, if_neg h1, List.getElem?_eq_none (by omega)]

end Slab

end Sexp
