import HoleBlame.Table

/-!
# Sets of states

A chain with `n` states numbers them from zero, so a state is a `Fin n` and a set of states is one bit
per state.  Everything about a set is said through membership: two sets with the same members are
equal (`StateSet.ext`), and each operation comes with the lemma that names its members.

`StateSet.absent` counts the states outside.  Searches that only ever add states end because it
drops.
-/

namespace HoleBlame

/-- A set of states of a chain with `n` states. -/
structure StateSet (n : Nat) where
  /-- One bit per state. -/
  bits : Vector Bool n
deriving DecidableEq

namespace StateSet

variable {n : Nat}

instance : Membership (Fin n) (StateSet n) where
  mem S s := S.bits.get s = true

instance (S : StateSet n) (s : Fin n) : Decidable (s ∈ S) :=
  inferInstanceAs (Decidable (S.bits.get s = true))

theorem mem_def {S : StateSet n} {s : Fin n} : s ∈ S ↔ S.bits.get s = true := Iff.rfl

/-- Sets with the same members are equal. -/
theorem ext {S T : StateSet n} (h : ∀ s, s ∈ S ↔ s ∈ T) : S = T := by
  cases S; cases T
  congr
  apply Vector.ext
  intro i hi
  exact Bool.eq_iff_iff.mpr (h ⟨i, hi⟩)

/-! ## Operations -/

/-- The states that pass a test. -/
def ofFn (p : Fin n → Bool) : StateSet n :=
  ⟨Vector.ofFn p⟩

@[simp] theorem mem_ofFn {p : Fin n → Bool} {s : Fin n} : s ∈ ofFn p ↔ p s = true := by
  simp [mem_def, ofFn]

/-- No states. -/
def empty (n : Nat) : StateSet n :=
  ⟨Vector.replicate n false⟩

@[simp] theorem not_mem_empty {s : Fin n} : s ∉ empty n := by
  simp [mem_def, empty]

/-- Adds a state. -/
def insert (S : StateSet n) (s : Fin n) : StateSet n :=
  ⟨assign S.bits s true⟩

@[simp] theorem mem_insert {S : StateSet n} {s t : Fin n} : t ∈ S.insert s ↔ t = s ∨ t ∈ S := by
  simp only [mem_def, insert, get_assign]
  split <;> simp_all

/-- The states outside. -/
def compl (S : StateSet n) : StateSet n :=
  ofFn fun s => !decide (s ∈ S)

@[simp] theorem mem_compl {S : StateSet n} {s : Fin n} : s ∈ S.compl ↔ s ∉ S := by
  simp [compl]

/-- The states in either set. -/
def union (S T : StateSet n) : StateSet n :=
  ofFn fun s => decide (s ∈ S) || decide (s ∈ T)

@[simp] theorem mem_union {S T : StateSet n} {s : Fin n} : s ∈ S.union T ↔ s ∈ S ∨ s ∈ T := by
  simp [union]

/-- The states in both sets. -/
def inter (S T : StateSet n) : StateSet n :=
  ofFn fun s => decide (s ∈ S) && decide (s ∈ T)

@[simp] theorem mem_inter {S T : StateSet n} {s : Fin n} : s ∈ S.inter T ↔ s ∈ S ∧ s ∈ T := by
  simp [inter]

/-- The states of a list. -/
def ofList (states : List (Fin n)) : StateSet n :=
  states.foldl insert (empty n)

theorem mem_foldl_insert {S : StateSet n} {states : List (Fin n)} {s : Fin n} :
    s ∈ states.foldl insert S ↔ s ∈ states ∨ s ∈ S := by
  induction states generalizing S with
  | nil => simp
  | cons t rest ih => simp [ih, or_left_comm, or_assoc]

@[simp] theorem mem_ofList {states : List (Fin n)} {s : Fin n} : s ∈ ofList states ↔ s ∈ states := by
  simp [ofList, mem_foldl_insert]

/-- The states of a set in ascending order. -/
def toList (S : StateSet n) : List (Fin n) :=
  (List.finRange n).filter (· ∈ S)

@[simp] theorem mem_toList {S : StateSet n} {s : Fin n} : s ∈ S.toList ↔ s ∈ S := by
  simp [toList]

/-- The same states in a larger chain. -/
def widen (S : StateSet n) (m : Nat) : StateSet m :=
  ofFn fun s => if h : s.val < n then decide ((⟨s.val, h⟩ : Fin n) ∈ S) else false

@[simp] theorem mem_widen {S : StateSet n} {m : Nat} {s : Fin m} :
    s ∈ S.widen m ↔ ∃ h : s.val < n, (⟨s.val, h⟩ : Fin n) ∈ S := by
  simp only [widen, mem_ofFn]
  split
  · next h => simp [h]
  · next h => simp [h]

/-! ## Counting the states outside -/

/-- How many states are not in the set. -/
def absent (S : StateSet n) : Nat :=
  S.bits.count false

theorem absent_insert {S : StateSet n} {s : Fin n} (h : s ∉ S) :
    (S.insert s).absent + 1 = S.absent := by
  have hs : S.bits[s.val] = false := by simpa [mem_def, get_eq_getElem] using h
  have hpos : 0 < S.bits.count false := by
    rw [Vector.count_pos_iff]
    exact hs ▸ Vector.getElem_mem s.isLt
  simp only [absent, insert, assign, Vector.count_set, hs]
  simp
  omega

end StateSet

end HoleBlame
