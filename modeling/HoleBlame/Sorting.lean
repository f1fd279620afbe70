import HoleBlame.Table

/-!
# Sorting by counting

Items with keys below `n` are sorted into one array, in which items of the same key keep their order.
They are counted by their keys, and adding up the counts gives the position at which every key begins.
Then one item after the other goes to the next position of its key.  When all items have been placed, the
next position of every key is where the key after it begins, and the positions are moved back by one.

`rowsIn` cuts the array at these positions.  The array has to have room for all items.  Where the items have
been counted already, the positions come from these counts (`Shelf.ofTable`).
-/

namespace HoleBlame.Sorting

variable {β : Type} {n : Nat}

/-- Counts one more item of a key. -/
def count (counts : Vector Nat (n + 1)) (item : Fin n × β) : Vector Nat (n + 1) :=
  assign counts item.1.castSucc (counts.get item.1.castSucc + 1)

/-- The number of items of every key.  A last entry, which belongs to no key, stays zero. -/
def counts (items : List (Fin n × β)) : Vector Nat (n + 1) :=
  items.foldl count (Vector.replicate (n + 1) 0)

/-- Replaces every number by what the numbers before it have made of the first argument but one. -/
def carryFrom (step : Nat → Nat → Nat) : Nat → List Nat → List Nat
  | _, [] => []
  | carried, x :: rest => carried :: carryFrom step (step carried x) rest

theorem length_carryFrom (step : Nat → Nat → Nat) (carried : Nat) (xs : List Nat) :
    (carryFrom step carried xs).length = xs.length := by
  induction xs generalizing carried with
  | nil => rfl
  | cons x rest ih => simp [carryFrom, ih]

/-- Replaces every entry by what the entries before it have made of zero. -/
def carry (step : Nat → Nat → Nat) (table : Vector Nat n) : Vector Nat n :=
  ⟨(carryFrom step 0 table.toList).toArray, by simp [length_carryFrom]⟩

/-- Items in one array, with a position for every key and one more. -/
structure Shelf (β : Type) (n : Nat) where
  /-- The items. -/
  items : Array β
  /-- The positions. -/
  positions : Vector Nat (n + 1)

/-- Puts an item at the position of its key, which moves on by one. -/
def Shelf.place (shelf : Shelf β n) (item : Fin n × β) : Shelf β n :=
  let position := shelf.positions.get item.1.castSucc
  ⟨shelf.items.setIfInBounds position item.2, assign shelf.positions item.1.castSucc (position + 1)⟩

/-- A shelf with the given room, with the positions at which keys with so many items will begin. -/
def Shelf.ofTable (room : Array β) (counts : Vector Nat (n + 1)) : Shelf β n :=
  ⟨room, carry (· + ·) counts⟩

/-- A shelf with the given room, with the positions at which the keys of the items will begin. -/
def Shelf.ofCounts (room : Array β) (items : List (Fin n × β)) : Shelf β n :=
  .ofTable room (counts items)

/-- Puts all items at the positions of their keys, and moves the positions back; the last position is the
end. -/
def Shelf.fill (shelf : Shelf β n) (items : List (Fin n × β)) : Shelf β n :=
  let filled := items.foldl Shelf.place shelf
  ⟨filled.items, assign (carry (fun _ next => next) filled.positions) (Fin.last n) filled.items.size⟩

/-- Cuts the items of a key out. -/
def Shelf.cut (shelf : Shelf β n) (key : Fin n) : List β :=
  (shelf.items.extract (shelf.positions.get key.castSucc) (shelf.positions.get key.succ)).toList

/-- The items of every key. -/
def Shelf.rows (shelf : Shelf β n) : Vector (List β) n :=
  .ofFn shelf.cut

/-- The items, sorted into an array, with the positions at which the keys begin. -/
def sorted (room : Array β) (items : List (Fin n × β)) : Shelf β n :=
  (Shelf.ofCounts room items).fill items

/-- The items of every key, in their order.  They are sorted into an array, whose entries they replace. -/
def rowsIn (room : Array β) (items : List (Fin n × β)) : Vector (List β) n :=
  (sorted room items).rows

end HoleBlame.Sorting
