import HoleBlame.Waves
import HoleBlame.Proofs.Paths
import Mathlib.Data.List.Nodup

/-!
# The exploration of a chain, step by step

A state is `Open` at a wave if all its holes are revealed up to that wave.  What the exploration of a
chain maintains is stated once (`Exploration.Invariant`): every state that has been found waits on the
stack, is blocked, or has been explored, and nowhere twice; the count of a blocked state is the number of
its hidden holes; what has been explored was reached along open states; and the waves that are over contain
exactly the states that open states lead to.

Each of the two kinds of steps preserves the invariant (`Invariant.visit`, `Invariant.openWave`), so it
holds when the search ends (`Invariant.run`), and then nothing is left on the stack or blocked
(`run_stack`, `run_waiting`).
-/

namespace HoleBlame

variable {α : Type} {n h : Nat}

namespace Exploration

/-- All holes of the state have been revealed up to the wave. -/
def Open (holes : Fin n → HoleSet h) (revealed : Vector (Option Nat) h) (wave : Nat) (s : Fin n) :
    Prop :=
  ∀ y ∈ holes s, ∃ j, revealed.get y = some j ∧ j ≤ wave

variable {holes : Fin n → HoleSet h} {revealed : Vector (Option Nat) h} {s t : Fin n}

theorem Open.mono {k l : Nat} (hkl : k ≤ l) (ho : Open holes revealed k s) :
    Open holes revealed l s := by
  intro y hy
  obtain ⟨j, hj, hjk⟩ := ho y hy
  exact ⟨j, hj, Nat.le_trans hjk hkl⟩

/-- The state has no hidden holes. -/
def isFree (holes : Fin n → HoleSet h) (revealed : Vector (Option Nat) h) (s : Fin n) : Bool :=
  hidden revealed (holes s) == 0

theorem isFree_iff : isFree holes revealed s = true ↔
    ∀ y ∈ holes s, (revealed.get y).isSome = true := by
  simp [isFree, hidden, List.countP_eq_zero, HoleSet.mem_def, Option.isSome_iff_ne_none]

theorem isFree_iff_open {wave : Nat} (hle : ∀ y j, revealed.get y = some j → j ≤ wave) :
    isFree holes revealed s = true ↔ Open holes revealed wave s := by
  rw [isFree_iff]
  constructor
  · intro hf y hy
    obtain ⟨j, hj⟩ := Option.isSome_iff_exists.mp (hf y hy)
    exact ⟨j, hj, hle y j hj⟩
  · intro ho y hy
    obtain ⟨j, hj, _⟩ := ho y hy
    rw [hj]
    rfl

/-! ## Counting hidden holes -/

theorem free_count (states : List (Fin n)) :
    free (count holes revealed states) = states.filter (isFree holes revealed) := by
  rw [free, count, List.filter_map, List.map_map]
  exact List.map_id _

theorem map_barred_count (states : List (Fin n)) :
    (barred (count holes revealed states)).map (·.1) = states.filter fun s => !isFree holes revealed s := by
  rw [barred, count, List.filter_map, List.map_map]
  exact List.map_id _

theorem eq_hidden_of_mem_barred {states : List (Fin n)} {e : Fin n × Nat}
    (he : e ∈ barred (count holes revealed states)) : e.2 = hidden revealed (holes e.1) := by
  obtain ⟨s, -, rfl⟩ := List.mem_map.mp (List.mem_filter.mp he).1
  rfl

/-! ## Revealing holes -/

theorem get_reveal {wave : Nat} {set : HoleSet h} {y : Fin h} :
    (reveal wave set revealed).get y =
      if revealed.get y = none ∧ y ∈ set then some wave else revealed.get y := by
  rw [reveal, get_ofFn]
  cases revealed.get y <;> simp

/-- Revealing holes at a later wave closes and opens no state at an earlier one. -/
theorem open_reveal {k wave : Nat} {set : HoleSet h} (hk : k < wave) :
    Open holes (reveal wave set revealed) k s ↔ Open holes revealed k s := by
  constructor
  · intro ho y hy
    obtain ⟨j, hj, hjk⟩ := ho y hy
    rw [get_reveal] at hj
    split at hj
    · cases hj
      exact absurd hk (Nat.not_lt.mpr hjk)
    · exact ⟨j, hj, hjk⟩
  · intro ho y hy
    obtain ⟨j, hj, hjk⟩ := ho y hy
    refine ⟨j, ?_, hjk⟩
    rw [get_reveal, if_neg (fun hn => by simp [hj] at hn), hj]

/-! ## The states that have been found -/

/-- The waves so far, the current one last. -/
def waves (x : Exploration n h) : List (List (Fin n)) :=
  (x.current.reverse :: x.finished).reverse

/-- The states explored so far, in the order of their exploration. -/
def explored (x : Exploration n h) : List (Fin n) :=
  x.waves.flatten

/-- The states that have been found, wherever they are. -/
def roster (x : Exploration n h) : List (Fin n) :=
  x.stack ++ x.waiting ++ x.explored

theorem waves_eq (x : Exploration n h) : x.waves = x.finished.reverse ++ [x.current.reverse] :=
  List.reverse_cons

theorem length_waves (x : Exploration n h) : x.waves.length = x.finished.length + 1 := by
  rw [waves, List.length_reverse, List.length_cons]

variable {next : Fin n → List (Fin n)} {x : Exploration n h} {stack : List (Fin n)}

theorem stack_visit : (x.visit next holes s stack).stack =
    ((Graph.fresh x.found (next s)).1.filter (isFree holes x.revealed)).reverse ++ stack := by
  rw [← free_count]
  rfl

theorem waiting_visit : (x.visit next holes s stack).waiting =
    x.waiting ++ (Graph.fresh x.found (next s)).1.filter fun t => !isFree holes x.revealed t := by
  rw [← map_barred_count]
  exact List.map_append

theorem stack_openWave : (x.openWave holes s).stack =
    (x.waiting.filter (isFree holes (x.openWave holes s).revealed)).reverse := by
  rw [← free_count]
  rfl

theorem waiting_openWave : (x.openWave holes s).waiting =
    x.waiting.filter fun t => !isFree holes (x.openWave holes s).revealed t := by
  rw [← map_barred_count]
  rfl

theorem waves_visit : (x.visit next holes s stack).waves =
    x.finished.reverse ++ [x.current.reverse ++ [s]] := by
  rw [waves_eq]
  simp [visit]

theorem explored_visit : (x.visit next holes s stack).explored = x.explored ++ [s] := by
  rw [explored, waves_visit, explored, waves_eq]
  simp

/-- The earlier waves are not changed by what is added to the current one. -/
theorem mem_take_visit {k : Nat} :
    t ∈ ((x.visit next holes s stack).waves.take (k + 1)).flatten ↔
      t ∈ (x.waves.take (k + 1)).flatten ∨ x.finished.length ≤ k ∧ t = s := by
  rw [waves_visit, waves_eq, List.take_append, List.take_append, List.length_reverse]
  by_cases hk : k < x.finished.length
  · have : k + 1 - x.finished.length = 0 := by omega
    simp [this, Nat.not_le.mpr hk]
  · have : k + 1 - x.finished.length = (k - x.finished.length) + 1 := by omega
    simp [this, Nat.not_lt.mp hk, or_assoc]

theorem waves_openWave : (x.openWave holes s).waves = x.waves ++ [[]] := by
  rw [waves_eq, waves]
  rfl

theorem explored_openWave : (x.openWave holes s).explored = x.explored := by
  rw [explored, waves_openWave, explored]
  simp

/-- A visit adds the states that are new, and moves the visited one. -/
theorem roster_visit (hs : x.stack = s :: stack) :
    (x.visit next holes s stack).roster.Perm ((Graph.fresh x.found (next s)).1 ++ x.roster) := by
  have split := List.filter_append_perm (isFree holes x.revealed) (Graph.fresh x.found (next s)).1
  rw [roster, roster, explored_visit, stack_visit, waiting_visit, hs]
  refine List.Perm.trans ?_ (split.append_right _)
  rw [List.perm_iff_count]
  intro t
  simp only [List.count_append, List.count_reverse, List.count_cons, List.count_nil]
  omega

/-- Opening a wave only moves states. -/
theorem roster_openWave (hs : x.stack = []) : (x.openWave holes s).roster.Perm x.roster := by
  have split := List.filter_append_perm (isFree holes (x.openWave holes s).revealed) x.waiting
  rw [roster, roster, explored_openWave, stack_openWave, waiting_openWave, hs, List.nil_append]
  refine List.Perm.append_right _ (List.Perm.trans ?_ split)
  exact (List.reverse_perm _).append_right _

/-! ## The invariant -/

/-- A path from the initial state leads to the state, and all states on it, the state itself included,
are open at the wave. -/
def Reveals (c : Chain α n) (holes : Fin n → HoleSet h) (revealed : Vector (Option Nat) h)
    (wave : Nat) (s : Fin n) : Prop :=
  c.Path (Open holes revealed wave) c.initial s ∧ Open holes revealed wave s

variable {c : Chain α n}

theorem Reveals.initial {wave : Nat} (ho : Open holes revealed wave c.initial) :
    Reveals c holes revealed wave c.initial :=
  ⟨.refl, ho⟩

theorem Reveals.successor {wave : Nat} (hr : Reveals c holes revealed wave s)
    (ht : t ∈ c.successors s) (ho : Open holes revealed wave t) :
    Reveals c holes revealed wave t :=
  ⟨hr.1.tail hr.2 ht, ho⟩

theorem Reveals.congr {k l : Nat} {other : Vector (Option Nat) h}
    (he : ∀ s, Open holes revealed k s ↔ Open holes other l s) :
    Reveals c holes revealed k s ↔ Reveals c holes other l s := by
  have : Open holes revealed k = Open holes other l := funext fun s => propext (he s)
  rw [Reveals, Reveals, this]

theorem Reveals.mono {k l : Nat} {other : Vector (Option Nat) h}
    (he : ∀ s, Open holes revealed k s → Open holes other l s)
    (hr : Reveals c holes revealed k s) : Reveals c holes other l s :=
  ⟨hr.1.mono he, he s hr.2⟩

/-- What every moment of an exploration has in common. -/
structure Invariant (c : Chain α n) (holes : Fin n → HoleSet h) (x : Exploration n h) : Prop where
  nodup : x.roster.Nodup
  mem_found : ∀ s, s ∈ x.found ↔ s ∈ x.roster
  initial : c.initial ∈ x.found
  closed : ∀ s ∈ x.explored, ∀ t ∈ c.successors s, t ∈ x.found
  origin : ∀ s ∈ x.found, s = c.initial ∨ ∃ r ∈ x.explored, s ∈ c.successors r
  wave_le : ∀ y j, x.revealed.get y = some j → j ≤ x.finished.length
  stack_free : ∀ s ∈ x.stack, isFree holes x.revealed s = true
  waiting_hidden : ∀ s ∈ x.waiting, isFree holes x.revealed s = false
  counted : ∀ e ∈ x.blocked, e.2 = hidden x.revealed (holes e.1)
  reveals : ∀ s ∈ x.explored, Reveals c holes x.revealed x.finished.length s
  past : ∀ k < x.finished.length, ∀ s,
    s ∈ (x.waves.take (k + 1)).flatten ↔ Reveals c holes x.revealed k s
  revealed_by : ∀ y j, x.revealed.get y = some j → ∃ s, y ∈ holes s ∧
    (s ∈ (x.waves.take (j + 1)).flatten ∨ j = x.finished.length ∧ s ∈ x.stack)

theorem stack_start {s : Fin n} :
    (start holes s).stack = [s].filter (isFree holes (.replicate h none)) :=
  free_count _

theorem waiting_start {s : Fin n} :
    (start holes s).waiting = [s].filter fun t => !isFree holes (.replicate h none) t :=
  map_barred_count _

theorem roster_start {s : Fin n} : (start holes s).roster = [s] := by
  rw [roster, stack_start, waiting_start]
  cases hf : isFree holes (.replicate h none) s <;> simp [explored, waves, start, hf]

theorem explored_start {s : Fin n} : (start holes s).explored = [] := rfl

theorem get_revealed_start {s : Fin n} {y : Fin h} : (start holes s).revealed.get y = none :=
  get_replicate none y

theorem invariant_start : Invariant c holes (start holes c.initial) where
  nodup := by
    rw [roster_start]
    exact List.nodup_singleton _
  mem_found s := by
    rw [roster_start, List.mem_singleton]
    simp [start]
  initial := by simp [start]
  closed s hs := by
    rw [explored_start] at hs
    cases hs
  origin s hs := by
    simp [start] at hs
    exact .inl hs
  wave_le y j hj := by
    rw [get_revealed_start] at hj
    cases hj
  stack_free s hs := by
    rw [stack_start] at hs
    exact (List.mem_filter.mp hs).2
  waiting_hidden s hs := by
    rw [waiting_start] at hs
    exact Bool.not_eq_true' _ ▸ (List.mem_filter.mp hs).2
  counted e he := eq_hidden_of_mem_barred he
  reveals s hs := by
    rw [explored_start] at hs
    cases hs
  past k hk := absurd hk (Nat.not_lt_zero k)
  revealed_by y j hj := by
    rw [get_revealed_start] at hj
    cases hj

namespace Invariant

variable (inv : Invariant c holes x)
include inv

theorem stack_found (hs : s ∈ x.stack) : s ∈ x.found :=
  (inv.mem_found s).mpr (List.mem_append_left _ (List.mem_append_left _ hs))

theorem isFree_iff_open : isFree holes x.revealed s = true ↔
    Open holes x.revealed x.finished.length s :=
  Exploration.isFree_iff_open inv.wave_le

/-- A state on the stack was reached along open states. -/
theorem reveals_of_stack (hs : s ∈ x.stack) :
    Reveals c holes x.revealed x.finished.length s := by
  have ho := inv.isFree_iff_open.mp (inv.stack_free s hs)
  rcases inv.origin s (inv.stack_found hs) with rfl | ⟨r, hr, hrs⟩
  · exact .initial ho
  · exact (inv.reveals r hr).successor hrs ho

theorem visit (hs : x.stack = s :: stack) :
    Invariant c holes (x.visit c.successors holes s stack) := by
  have perm : (x.visit c.successors holes s stack).roster.Perm
      ((Graph.fresh x.found (c.successors s)).1 ++ x.roster) := roster_visit hs
  have top : s ∈ x.stack := by
    rw [hs]
    exact List.mem_cons_self
  have seen (t : Fin n) : t ∈ (x.visit c.successors holes s stack).found ↔
      t ∈ x.found ∨ t ∈ c.successors s := Graph.mem_seen_fresh
  constructor
  case wave_le => exact inv.wave_le
  case nodup =>
    -- What is pushed or blocked now has not been found before.
    rw [perm.nodup_iff, List.nodup_append]
    refine ⟨Graph.nodup_fresh, inv.nodup, ?_⟩
    rintro t ht t' ht' rfl
    exact (Graph.mem_fresh.mp ht).2 ((inv.mem_found t).mpr ht')
  case mem_found =>
    intro t
    rw [seen, perm.mem_iff, List.mem_append, Graph.mem_fresh, ← inv.mem_found]
    by_cases ht : t ∈ x.found <;> simp [ht]
  case initial =>
    exact (seen _).mpr (.inl inv.initial)
  case closed =>
    intro r hr t ht
    rw [explored_visit] at hr
    rcases List.mem_append.mp hr with hr | hr
    · exact (seen t).mpr (.inl (inv.closed r hr t ht))
    · obtain rfl := List.mem_singleton.mp hr
      exact (seen t).mpr (.inr ht)
  case origin =>
    intro t ht
    rw [explored_visit]
    rcases (seen t).mp ht with ht | ht
    · rcases inv.origin t ht with rfl | ⟨r, hr, hrt⟩
      · exact .inl rfl
      · exact .inr ⟨r, List.mem_append_left _ hr, hrt⟩
    · exact .inr ⟨s, List.mem_append_right _ (List.mem_singleton_self s), ht⟩
  case stack_free =>
    intro t ht
    rw [stack_visit] at ht
    rcases List.mem_append.mp ht with ht | ht
    · exact (List.mem_filter.mp (List.mem_reverse.mp ht)).2
    · refine inv.stack_free t ?_
      rw [hs]
      exact List.mem_cons_of_mem _ ht
  case waiting_hidden =>
    intro t ht
    rw [waiting_visit] at ht
    rcases List.mem_append.mp ht with ht | ht
    · exact inv.waiting_hidden t ht
    · exact Bool.not_eq_true' _ ▸ (List.mem_filter.mp ht).2
  case counted =>
    -- A visit reveals nothing, so the earlier counts stay right.
    intro e he
    rcases List.mem_append.mp he with he | he
    · exact inv.counted e he
    · exact eq_hidden_of_mem_barred he
  case reveals =>
    intro t ht
    rw [explored_visit] at ht
    rcases List.mem_append.mp ht with ht | ht
    · exact inv.reveals t ht
    · obtain rfl := List.mem_singleton.mp ht
      exact inv.reveals_of_stack top
  case past =>
    intro k hk t
    rw [mem_take_visit]
    refine Iff.trans ?_ (inv.past k hk t)
    have hk' : ¬ x.finished.length ≤ k := Nat.not_le.mpr hk
    simp [hk']
  case revealed_by =>
    intro y j hj
    obtain ⟨t, hy, ht⟩ := inv.revealed_by y j hj
    refine ⟨t, hy, ?_⟩
    rw [mem_take_visit]
    rcases ht with ht | ⟨rfl, ht⟩
    · exact .inl (.inl ht)
    · rw [hs] at ht
      rcases List.mem_cons.mp ht with rfl | ht
      · exact .inl (.inr ⟨Nat.le_refl _, rfl⟩)
      · exact .inr ⟨rfl, List.mem_append_right _ ht⟩

/-- **Once nothing can be explored, exactly what open states lead to has been explored.** -/
theorem mem_explored_iff (hs : x.stack = []) :
    t ∈ x.explored ↔ Reveals c holes x.revealed x.finished.length t := by
  refine ⟨inv.reveals t, ?_⟩
  -- An open state that has been found is neither on the empty stack nor blocked.
  have settled : ∀ s ∈ x.found, Open holes x.revealed x.finished.length s → s ∈ x.explored := by
    intro s hf ho
    have hr := (inv.mem_found s).mp hf
    rw [roster, hs, List.nil_append] at hr
    rcases List.mem_append.mp hr with hb | he
    · have := inv.waiting_hidden s hb
      rw [inv.isFree_iff_open.mpr ho] at this
      cases this
    · exact he
  rintro ⟨path, ho⟩
  refine path.tailInduction
    (motive := fun s => Open holes x.revealed x.finished.length s → s ∈ x.explored)
    (settled c.initial inv.initial) ?_ ho
  intro r s _ hr hrs ih
  exact settled s (inv.closed r (ih hr) s hrs)

theorem openWave (hs : x.stack = []) (hb : s ∈ x.waiting) :
    Invariant c holes (x.openWave holes s) := by
  have perm : (x.openWave holes s).roster.Perm x.roster := roster_openWave hs
  -- Revealing holes now changes nothing about the waves that are complete.
  have later (k : Nat) (hk : k ≤ x.finished.length) (t : Fin n) :
      Open holes (x.openWave holes s).revealed k t ↔ Open holes x.revealed k t :=
    open_reveal (Nat.lt_succ_of_le hk)
  have waves (k : Nat) (hk : k ≤ x.finished.length) :
      (x.openWave holes s).waves.take (k + 1) = x.waves.take (k + 1) := by
    rw [waves_openWave, List.take_append_of_le_length]
    rw [length_waves]
    exact Nat.succ_le_succ hk
  have free (t : Fin n) : t ∈ (x.openWave holes s).stack ↔
      t ∈ x.waiting ∧ isFree holes (x.openWave holes s).revealed t = true := by
    rw [stack_openWave]
    exact List.mem_reverse.trans List.mem_filter
  constructor
  case initial => exact inv.initial
  case nodup =>
    rw [perm.nodup_iff]
    exact inv.nodup
  case mem_found =>
    intro t
    rw [perm.mem_iff]
    exact inv.mem_found t
  case closed =>
    rw [explored_openWave]
    exact inv.closed
  case origin =>
    rw [explored_openWave]
    exact inv.origin
  case wave_le =>
    intro y j hj
    change (reveal (x.finished.length + 1) (holes s) x.revealed).get y = some j at hj
    rw [get_reveal] at hj
    split at hj
    · cases hj
      exact Nat.le_refl _
    · exact Nat.le_succ_of_le (inv.wave_le y j hj)
  case stack_free =>
    intro t ht
    exact ((free t).mp ht).2
  case waiting_hidden =>
    intro t ht
    rw [waiting_openWave] at ht
    exact Bool.not_eq_true' _ ▸ (List.mem_filter.mp ht).2
  case counted =>
    -- All counts are new.
    intro e he
    exact eq_hidden_of_mem_barred he
  case reveals =>
    intro t ht
    rw [explored_openWave] at ht
    refine (inv.reveals t ht).mono fun r hr => ?_
    exact ((later _ (Nat.le_refl _) r).mpr hr).mono (Nat.le_succ _)
  case past =>
    intro k hk t
    have hk' : k ≤ x.finished.length := Nat.le_of_lt_succ hk
    rw [waves k hk', Reveals.congr (later k hk')]
    -- The wave that has just been completed contains what open states lead to, as the stack is empty.
    rcases Nat.lt_or_eq_of_le hk' with hk' | rfl
    · exact inv.past k hk' t
    · rw [← length_waves, List.take_length]
      exact inv.mem_explored_iff hs
  case revealed_by =>
    intro y j hj
    change (reveal (x.finished.length + 1) (holes s) x.revealed).get y = some j at hj
    rw [get_reveal] at hj
    split at hj
    · next hy =>
      cases hj
      refine ⟨s, hy.2, .inr ⟨rfl, (free s).mpr ⟨hb, ?_⟩⟩⟩
      exact beq_iff_eq.mpr (hidden_reveal _ _ _)
    · obtain ⟨t, hy, ht⟩ := inv.revealed_by y j hj
      refine ⟨t, hy, .inl ?_⟩
      rw [waves j (inv.wave_le y j hj)]
      rcases ht with ht | ⟨-, ht⟩
      · exact ht
      · rw [hs] at ht
        cases ht

end Invariant

/-! ## The run -/

theorem cheapest?_eq_none {counts : List (Fin n × Nat)} : cheapest? counts = none ↔ counts = [] := by
  cases counts with
  | nil => simp [cheapest?]
  | cons e rest =>
    unfold cheapest?
    split
    · simp
    · split <;> simp

/-- A step explores the state on top of the stack, or with an empty stack it opens a wave for the
candidate. -/
theorem step?_eq_some {y : Exploration n h} (e : x.step? next holes = some y) :
    (∃ s stack, x.stack = s :: stack ∧ y = x.visit next holes s stack) ∨
      (x.stack = [] ∧ ∃ s, x.candidate? = some s ∧ y = x.openWave holes s) := by
  unfold step? at e
  split at e
  · next s stack hs =>
    cases e
    exact .inl ⟨s, stack, hs, rfl⟩
  · next hs =>
    obtain ⟨s, hc, rfl⟩ := Option.map_eq_some_iff.mp e
    exact .inr ⟨hs, s, hc, rfl⟩

/-- The state that a wave is opened for is blocked. -/
theorem step?_cases {y : Exploration n h} (e : x.step? next holes = some y) :
    (∃ s stack, x.stack = s :: stack ∧ y = x.visit next holes s stack) ∨
      (x.stack = [] ∧ ∃ s ∈ x.waiting, y = x.openWave holes s) := by
  rcases step?_eq_some e with visit | ⟨hs, s, hc, rfl⟩
  · exact .inl visit
  · exact .inr ⟨hs, s, mem_waiting_of_candidate? hc, rfl⟩

/-- A property that every step preserves holds at the end of a search if it holds at its beginning. -/
theorem run_induction {motive : Exploration n h → Prop}
    (step : ∀ {x y}, motive x → x.step? next holes = some y → motive y) (hx : motive x) :
    motive (x.run next holes) := by
  induction x using run.induct next holes with
  | case1 x y e ih =>
    rw [Exploration.run, e]
    exact ih (step hx e)
  | case2 x e =>
    rw [Exploration.run, e]
    exact hx

/-- **Each step preserves the invariant.** -/
theorem Invariant.step {y : Exploration n h} (inv : Invariant c holes x)
    (e : x.step? c.successors holes = some y) : Invariant c holes y := by
  rcases step?_cases e with ⟨s, stack, hs, rfl⟩ | ⟨hs, s, hb, rfl⟩
  · exact inv.visit hs
  · exact inv.openWave hs hb

/-- **The invariant holds when the search ends.** -/
theorem Invariant.run (inv : Invariant c holes x) : Invariant c holes (x.run c.successors holes) :=
  run_induction Invariant.step inv

theorem step?_run : (x.run next holes).step? next holes = none := by
  induction x using run.induct next holes with
  | case1 x y e ih =>
    rw [Exploration.run, e]
    exact ih
  | case2 x e =>
    rw [Exploration.run, e]
    exact e

theorem step?_eq_none : x.step? next holes = none ↔ x.stack = [] ∧ x.blocked = [] := by
  unfold step?
  cases hs : x.stack with
  | nil => simp [candidate?, cheapest?_eq_none]
  | cons s stack => simp

/-- When the search ends, nothing is left that could be explored … -/
theorem run_stack : (x.run next holes).stack = [] :=
  (step?_eq_none.mp step?_run).1

/-- … and nothing is blocked. -/
theorem run_waiting : (x.run next holes).waiting = [] := by
  rw [waiting, (step?_eq_none.mp step?_run).2]
  rfl

end Exploration

end HoleBlame
