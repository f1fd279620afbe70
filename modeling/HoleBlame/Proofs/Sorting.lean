import Mathlib.Data.Fin.Basic
import HoleBlame.Sorting

/-!
# Items sorted by counting

The items of a key are `row items key`, and they begin where all items with smaller keys end, at
position `below items key`.  These are the positions that adding up the counts gives
(`Shelf.get_positions_ofCounts`).

While items are placed, those placed so far stand in the stretches of their keys, in their order, and the
position of a key is behind the last of them (`Shelf.Holds`).  So the next item is placed inside the array
(`Shelf.Holds.position_lt`), if this has room for as many items as there are, and placing it keeps everything so
(`Shelf.Holds.place`), because the stretches of different keys do not meet.  In the end every stretch is
full, and what is cut at its ends is the row of the key (`get_rowsIn`).
-/

namespace HoleBlame.Sorting

variable {β : Type} {n : ℕ} {room : Array β} {items done rest : List (Fin n × β)} {item : Fin n × β}
  {key other : Fin n}

/-- The items of a key, in their order. -/
def row (items : List (Fin n × β)) (key : Fin n) : List β :=
  (items.filter (·.1 = key)).map (·.2)

/-- The number of items with a key below the given number. -/
def below (items : List (Fin n × β)) (k : ℕ) : ℕ :=
  items.countP (·.1.val < k)

/-! ## Stretches -/

theorem row_concat (done : List (Fin n × β)) (item : Fin n × β) (key : Fin n) :
    row (done ++ [item]) key = if item.1 = key then row done key ++ [item.2] else row done key := by
  by_cases same : item.1 = key <;> simp [row, same]

theorem length_row (items : List (Fin n × β)) (key : Fin n) :
    (row items key).length = items.countP (·.1.val = key.val) := by
  simp only [row, List.length_map, List.countP_eq_length_filter, Fin.ext_iff]

theorem length_row_le (h : done.Sublist items) (key : Fin n) :
    (row done key).length ≤ (row items key).length := by
  simpa only [length_row] using h.countP_le

/-- There is room for another item of a key. -/
theorem length_row_lt (split : items = done ++ item :: rest) :
    (row done item.1).length < (row items item.1).length := by
  have part : (done ++ [item]).Sublist items := by
    rw [split, List.append_cons done item rest]
    exact List.sublist_append_left _ _
  have le := length_row_le part item.1
  rw [row_concat, if_pos rfl, List.length_append] at le
  exact Nat.lt_of_succ_le le

theorem below_zero (items : List (Fin n × β)) : below items 0 = 0 := by
  simp [below]

theorem below_add_one (items : List (Fin n × β)) (k : ℕ) :
    below items (k + 1) = below items k + items.countP (·.1.val = k) := by
  induction items with
  | nil => rfl
  | cons item rest ih =>
    simp only [below, List.countP_cons, decide_eq_true_eq] at ih ⊢
    split_ifs <;> omega

theorem below_mono (items : List (Fin n × β)) {k m : ℕ} (h : k ≤ m) : below items k ≤ below items m := by
  refine List.countP_mono_left fun item _ lt => ?_
  rw [decide_eq_true_eq] at lt ⊢
  exact Nat.lt_of_lt_of_le lt h

theorem below_last (items : List (Fin n × β)) : below items n = items.length :=
  List.countP_eq_length.mpr fun item _ => decide_eq_true item.1.isLt

/-- The stretch of a key ends where that of any larger key begins, or before. -/
theorem below_add_length_le (items : List (Fin n × β)) {k : ℕ} (h : key.val < k) :
    below items key + (row items key).length ≤ below items k := by
  rw [length_row, ← below_add_one]
  exact below_mono items h

/-- The stretches of different keys do not meet. -/
theorem below_add_ne (ne : key ≠ other) {i j : ℕ} (hi : i < (row items key).length)
    (hj : j < (row items other).length) : below items key + i ≠ below items other + j := by
  rcases Fin.lt_or_lt_of_ne ne with lt | lt
  · have := below_add_length_le items (Fin.lt_def.mp lt)
    omega
  · have := below_add_length_le items (Fin.lt_def.mp lt)
    omega

/-! ## Positions -/

theorem get_counts (items : List (Fin n × β)) (k : Fin (n + 1)) :
    (counts items).get k = items.countP (·.1.val = k.val) := by
  have general (table : Vector ℕ (n + 1)) :
      (items.foldl count table).get k = table.get k + items.countP (·.1.val = k.val) := by
    induction items generalizing table with
    | nil => rfl
    | cons item rest ih =>
      rw [List.foldl_cons, ih, count, get_assign, List.countP_cons]
      by_cases same : k = item.1.castSucc
      · subst same
        simp [Nat.add_assoc, Nat.add_comm 1]
      · have apart : item.1.val ≠ k.val := fun e => same (Fin.ext e.symm)
        simp [same, apart]
  rw [counts, general, get_replicate, Nat.zero_add]

theorem getElem?_carryFrom (step : ℕ → ℕ → ℕ) (carried : ℕ) (xs : List ℕ) {i : ℕ} (h : i < xs.length) :
    (carryFrom step carried xs)[i]? = some ((xs.take i).foldl step carried) := by
  induction xs generalizing carried i with
  | nil => cases h
  | cons x rest ih =>
    cases i with
    | zero => rfl
    | succ i => exact ih (step carried x) (Nat.lt_of_succ_lt_succ h)

theorem get_carry (step : ℕ → ℕ → ℕ) (table : Vector ℕ n) (k : Fin n) :
    (carry step table).get k = (table.toList.take k).foldl step 0 := by
  have inside : k.val < table.toList.length := by
    rw [Vector.length_toList]
    exact k.isLt
  have found := getElem?_carryFrom step 0 table.toList inside
  rw [List.getElem?_eq_getElem (by rwa [length_carryFrom])] at found
  exact Option.some.inj found

theorem get_carry_zero (step : ℕ → ℕ → ℕ) (table : Vector ℕ (n + 1)) :
    (carry step table).get 0 = 0 := by
  rw [get_carry]
  rfl

theorem get_carry_succ (step : ℕ → ℕ → ℕ) (table : Vector ℕ (n + 1)) (k : Fin n) :
    (carry step table).get k.succ = step ((carry step table).get k.castSucc) (table.get k.castSucc) := by
  have inside : k.val < table.toList.length := by
    rw [Vector.length_toList]
    exact Nat.lt_succ_of_lt k.isLt
  rw [get_carry, get_carry, Fin.val_succ, List.take_succ_eq_append_getElem inside, List.foldl_append]
  rfl

/-- Adding up the counts gives the positions at which the keys begin. -/
theorem Shelf.get_positions_ofCounts (room : Array β) (items : List (Fin n × β)) (k : Fin (n + 1)) :
    (Shelf.ofCounts room items).positions.get k = below items k := by
  rw [Shelf.ofCounts, Shelf.ofTable]
  induction k using Fin.induction with
  | zero => rw [get_carry_zero, Fin.val_zero, below_zero]
  | succ k ih =>
    rw [get_carry_succ, ih, get_counts, Fin.val_castSucc, Fin.val_succ, below_add_one]

/-! ## Placing -/

/-- The items placed so far stand in the stretches of their keys. -/
structure Shelf.Holds (items done : List (Fin n × β)) (shelf : Shelf β n) : Prop where
  size : shelf.items.size = items.length
  positions : ∀ k : Fin (n + 1), shelf.positions.get k = below items k + done.countP (·.1.val = k.val)
  placed : ∀ key i, i < (row done key).length →
    shelf.items[below items key + i]? = (row done key)[i]?

namespace Shelf

theorem holds_ofCounts (fits : room.size = items.length) :
    (Shelf.ofCounts room items).Holds items [] where
  size := fits
  positions k := get_positions_ofCounts room items k
  placed key i h := by cases h

namespace Holds

variable {shelf : Shelf β n} (h : shelf.Holds items done)
include h

theorem position (key : Fin n) :
    shelf.positions.get key.castSucc = below items key + (row done key).length := by
  rw [h.positions, length_row]
  rfl

/-- **The next item is placed inside the array.** -/
theorem position_lt (split : items = done ++ item :: rest) :
    shelf.positions.get item.1.castSucc < shelf.items.size := by
  have room := length_row_lt split
  have le := below_add_length_le items item.1.isLt
  rw [below_last] at le
  rw [h.position, h.size]
  omega

theorem place (split : items = done ++ item :: rest) : (shelf.place item).Holds items (done ++ [item]) := by
  have inside := h.position_lt split
  have room := length_row_lt split
  have part : done.Sublist items := by
    rw [split]
    exact List.sublist_append_left _ _
  rw [h.position] at inside
  refine ⟨by simpa [Shelf.place] using h.size, fun k => ?_, fun key i hi => ?_⟩
  · rw [Shelf.place, get_assign, List.countP_append]
    by_cases same : k = item.1.castSucc
    · subst same
      rw [if_pos rfl, h.positions]
      simp [Nat.add_assoc]
    · have apart : item.1.val ≠ k.val := fun e => same (Fin.ext e.symm)
      rw [if_neg same, h.positions]
      simp [apart]
  · rw [Shelf.place, h.position, Array.getElem?_setIfInBounds]
    rw [row_concat] at hi ⊢
    by_cases same : item.1 = key
    · subst same
      rw [if_pos rfl] at hi ⊢
      by_cases last : i = (row done item.1).length
      · subst last
        simp [inside]
      · have earlier : i < (row done item.1).length := by
          rw [List.length_append, List.length_singleton] at hi
          omega
        rw [if_neg (by omega), h.placed item.1 i earlier, List.getElem?_append_left earlier]
    · rw [if_neg same] at hi ⊢
      have le := length_row_le part key
      rw [if_neg (below_add_ne same room (Nat.lt_of_lt_of_le hi le)), h.placed key i hi]

/-- Placing several items keeps everything in its place. -/
theorem foldl_place {more : List (Fin n × β)} (split : items = done ++ (more ++ rest)) :
    (more.foldl Shelf.place shelf).Holds items (done ++ more) := by
  induction more generalizing done shelf with
  | nil => rwa [List.append_nil]
  | cons item more ih =>
    have next := ih (h.place split) (by rw [split, List.append_assoc]; rfl)
    rwa [List.append_assoc] at next

end Holds

/-- What the shelf holds when some items have been placed. -/
theorem holds_foldl_place (fits : room.size = items.length) (split : items = done ++ rest) :
    (done.foldl Shelf.place (.ofCounts room items)).Holds items done :=
  (holds_ofCounts fits).foldl_place split

end Shelf

/-! ## Cutting -/

section Cutting

variable (fits : room.size = items.length)
include fits

theorem holds_filled : (items.foldl Shelf.place (.ofCounts room items)).Holds items items :=
  Shelf.holds_foldl_place fits (List.append_nil items).symm

theorem size_sorted : (sorted room items).items.size = items.length :=
  (holds_filled fits).size

/-- Moving the positions back gives those at which the keys begin. -/
theorem get_positions_sorted (k : Fin (n + 1)) : (sorted room items).positions.get k = below items k := by
  obtain ⟨size, filled, -⟩ := holds_filled fits
  unfold sorted Shelf.fill
  rw [get_assign]
  split_ifs with last
  · rw [size, last, Fin.val_last, below_last]
  · cases k using Fin.cases with
    | zero => rw [get_carry_zero, Fin.val_zero, below_zero]
    | succ k => rw [get_carry_succ, filled k.castSucc, Fin.val_castSucc, Fin.val_succ, below_add_one]

/-- The stretch of a key lies inside the array. -/
theorem stretch_le (key : Fin n) :
    (sorted room items).positions.get key.castSucc ≤ (sorted room items).positions.get key.succ ∧
      (sorted room items).positions.get key.succ ≤ (sorted room items).items.size := by
  rw [get_positions_sorted fits, get_positions_sorted fits, size_sorted fits, ← below_last items]
  exact ⟨below_mono items (Nat.le_succ _), below_mono items (Nat.succ_le_of_lt key.isLt)⟩

/-- **The items of a key are cut out in their order.** -/
theorem get_rowsIn (key : Fin n) : (rowsIn room items).get key = row items key := by
  have placed := (holds_filled fits).placed
  have ends : below items (key + 1) = below items key + (row items key).length := by
    rw [below_add_one, length_row]
  have inside := (stretch_le fits key).2
  rw [get_positions_sorted fits, Fin.val_succ] at inside
  unfold rowsIn Shelf.rows Shelf.cut
  rw [get_ofFn, get_positions_sorted fits, get_positions_sorted fits, Fin.val_castSucc, Fin.val_succ]
  refine List.ext_getElem? fun i => ?_
  rw [Array.getElem?_toList, Array.getElem?_extract]
  by_cases own : i < (row items key).length
  · rw [if_pos (by omega), ← placed key i own]
    rfl
  · rw [if_neg (by omega), List.getElem?_eq_none (Nat.le_of_not_lt own)]

end Cutting

example : (rowsIn (.replicate 4 '-') [(1, 'a'), (0, 'b'), (2, 'c'), (0, 'd')] : Vector (List Char) 3) =
    #v[['b', 'd'], ['a'], ['c']] := by
  decide +kernel

end HoleBlame.Sorting
