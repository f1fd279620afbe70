/-!
# Tables

A vector of length `n` is a table with an entry for each of `n` things, such as the states of a chain or
the holes of a sketch.  `Vector.get` looks an entry up and `assign` replaces one.
-/

namespace HoleBlame

variable {β : Type} {n : Nat}

/-- Replaces the entry of one thing. -/
@[inline] def assign (table : Vector β n) (i : Fin n) (x : β) : Vector β n :=
  table.set i x

/-- Looking an entry up by the number of the thing. -/
theorem get_eq_getElem (table : Vector β n) (i : Fin n) : table.get i = table[i.val] := rfl

theorem get_assign (table : Vector β n) (i j : Fin n) (x : β) :
    (assign table i x).get j = if j = i then x else table.get j := by
  simp only [assign, get_eq_getElem, Vector.getElem_set, Fin.ext_iff, eq_comm]

@[simp] theorem get_ofFn (f : Fin n → β) (i : Fin n) : (Vector.ofFn f).get i = f i := by
  simp [get_eq_getElem]

@[simp] theorem get_replicate (x : β) (i : Fin n) : (Vector.replicate n x).get i = x := by
  simp [get_eq_getElem]

/-- Tables with the same entries are equal. -/
theorem ext_get {s t : Vector β n} (h : ∀ i, s.get i = t.get i) : s = t :=
  Vector.ext fun i hi => h ⟨i, hi⟩

end HoleBlame
