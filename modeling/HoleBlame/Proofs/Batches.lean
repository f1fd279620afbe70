import HoleBlame.Proofs.Answers
import HoleBlame.Proofs.Outcome
import HoleBlame.Proofs.Revelation
import HoleBlame.Proofs.Soundness
import Mathlib.Order.Nat

/-!
# Batches round up

The oracle may be asked after every wave or only when a batch of waves is complete, and at the latest after
the last wave (`Explanation.Asked`).  A search whose oracle answers stops at the first wave at which it is
asked and rejects the shortened chain (`Explanation.consult_eq_ok`), and which waves the oracle would reject
does not depend on the batches.  So a search in batches stops no earlier than a search wave by wave
(`Explanation.StopsAt.single`), whatever the oracle.

A rejection may be withdrawn as more states are expanded, and then the search in batches may miss it.  If
no rejection is ever withdrawn, it stops when the batch is complete in which the search wave by wave stops,
or at the last wave (`Explanation.StopsAt.round_up`).  This is so for a checker, when the threshold is zero
or one and no bound is known in advance (`Shortcut.Shortens.violates_of_subset`).
-/

namespace HoleBlame

variable {α : Type} {n h : Nat}

/-- The same options, but the oracle is asked after every wave. -/
def SearchOptions.single (o : SearchOptions) : SearchOptions :=
  ⟨1, o.onFailure, Nat.one_pos⟩

namespace Explanation

/-! ## When the oracle is asked -/

/-- Of a number of waves in batches of `b`, the wave is the last one of a batch or of all. -/
def Asked (b total wave : Nat) : Prop :=
  (wave + 1) % b = 0 ∨ wave + 1 = total

/-- Of the waves after which the oracle is asked, the given one is the first that is rejected. -/
structure StopsAt (b total : Nat) (rejected : Nat → Prop) (stop : Nat) : Prop where
  lt : stop < total
  asked : Asked b total stop
  stops : rejected stop
  first : ∀ wave < stop, Asked b total wave → ¬ rejected wave

section StopsAt

variable {b total stop stop' : Nat} {rejected : Nat → Prop}

theorem asked_single {wave : Nat} : Asked 1 total wave :=
  .inl (Nat.mod_one _)

theorem StopsAt.unique (hs : StopsAt b total rejected stop) (hs' : StopsAt b total rejected stop') :
    stop = stop' := by
  rcases Nat.lt_trichotomy stop stop' with hlt | heq | hgt
  · exact absurd hs.stops (hs'.first stop hlt hs.asked)
  · exact heq
  · exact absurd hs'.stops (hs.first stop' hgt hs'.asked)

/-- If some wave after which the oracle is asked is rejected, the search stops there or before. -/
theorem StopsAt.exists_le (lt : stop < total) (asked : Asked b total stop) (stops : rejected stop) :
    ∃ first ≤ stop, StopsAt b total rejected first := by
  classical
  have some : ∃ wave, Asked b total wave ∧ rejected wave := ⟨stop, asked, stops⟩
  have le : Nat.find some ≤ stop := Nat.find_min' some ⟨asked, stops⟩
  obtain ⟨asked', stops'⟩ := Nat.find_spec some
  refine ⟨Nat.find some, le, Nat.lt_of_le_of_lt le lt, asked', stops', ?_⟩
  intro wave hlt asked rejects
  exact Nat.find_min some hlt ⟨asked, rejects⟩

/-- **A search wave by wave stops no later than one in batches.** -/
theorem StopsAt.single (hs : StopsAt b total rejected stop) :
    ∃ first ≤ stop, StopsAt 1 total rejected first :=
  StopsAt.exists_le hs.lt asked_single hs.stops

/-- **If no rejection is withdrawn, a search in batches completes the batch, as far as there are waves.** -/
theorem StopsAt.round_up (hb : 0 < b)
    (mono : ∀ {i j}, i ≤ j → rejected i → rejected j) (hs : StopsAt 1 total rejected stop) :
    StopsAt b total rejected (min (total - 1) ((stop / b + 1) * b - 1)) := by
  have lt := hs.lt
  have below : stop / b * b ≤ stop := Nat.div_mul_le_self stop b
  have above : stop < (stop / b + 1) * b := by
    rw [Nat.mul_comm]
    exact Nat.lt_mul_div_succ stop hb
  constructor
  case lt => omega
  case asked =>
    by_cases last : total - 1 ≤ (stop / b + 1) * b - 1
    · rw [Nat.min_eq_left last]
      exact .inr (by omega)
    · rw [Nat.min_eq_right (by omega)]
      refine .inl ?_
      rw [Nat.sub_add_cancel (by omega), Nat.mul_mod_left]
  case stops => exact mono (by omega) hs.stops
  case first =>
    intro wave hlt asked
    refine hs.first wave ?_ asked_single
    rcases asked with complete | last
    · -- The batch that this wave completes is an earlier one.
      obtain ⟨batch, e⟩ := Nat.dvd_of_mod_eq_zero complete
      have earlier : b * batch < b * (stop / b + 1) := by
        rw [← e, Nat.mul_comm b]
        omega
      have le : batch ≤ stop / b := Nat.lt_succ_iff.mp (Nat.lt_of_mul_lt_mul_left earlier)
      have upTo : b * batch ≤ stop / b * b := by
        rw [Nat.mul_comm]
        exact Nat.mul_le_mul_right b le
      omega
    · omega

end StopsAt

/-! ## The course of a search -/

variable [Scalar α]

/-- The oracle gives a full result for the shortened chain. -/
def Answers (oracle : Shortcut α n → Answer α) (x : Shortcut α n) : Prop :=
  ∃ r, oracle x = .ok ⟨n + 2, r⟩

/-- The oracle finds that the shortened chain violates its property. -/
def Rejects (oracle : Shortcut α n → Answer α) (x : Shortcut α n) : Prop :=
  ∃ r, oracle x = .ok ⟨n + 2, r⟩ ∧ r.satisfies x.chain.initial x.property.bound = false

variable {oracle : Shortcut α n → Answer α} {o : SearchOptions} {a : Annotated α n h} {p : Property α}
  {x : Shortcut α n} {w : Waves n h}

section Step

variable {wave : Nat} (calls : Nat) {states : List (Fin n)} {rest : List (List (Fin n))}

omit [Scalar α] in
/-- The test by which the search goes on without a question. -/
theorem skips_iff : ((wave + 1) % o.batchSize != 0 && !rest.isEmpty) = true ↔
    ¬ Asked o.batchSize (wave + 1 + rest.length) wave := by
  cases rest with
  | nil => simp [Asked]
  | cons => simp [Asked]

/-- After most waves of a batch, no question is asked. -/
theorem search_of_not_asked {m : Type → Type} [Monad m] {ask : Nat → Shortcut α n → m (Reply α)}
    (h : ¬ Asked o.batchSize (wave + 1 + rest.length) wave) :
    search ask o wave calls x (states :: rest) =
      search ask o (wave + 1) calls (x.expand states) rest := by
  rw [search, if_pos (skips_iff.mpr h)]

theorem consultation_of_not_asked (h : ¬ Asked o.batchSize (wave + 1 + rest.length) wave) :
    consultation oracle o wave calls x (states :: rest) =
      consultation oracle o (wave + 1) calls (x.expand states) rest :=
  congrArg Id.run (search_of_not_asked calls h)

/-- An answer either ends the search or lets it go on. -/
theorem consultation_of_asked (h : Asked o.batchSize (wave + 1 + rest.length) wave)
    (answers : Answers oracle (x.expand states)) :
    (Rejects oracle (x.expand states) ∧
        consultation oracle o wave calls x (states :: rest) = .violated wave (calls + 1)) ∨
      (¬ Rejects oracle (x.expand states) ∧ consultation oracle o wave calls x (states :: rest) =
        consultation oracle o (wave + 1) (calls + 1) (x.expand states) rest) := by
  obtain ⟨r, hr⟩ := answers
  rw [consultation_cons, if_neg fun skips => skips_iff.mp skips h, hr]
  simp only [satisfies?_full]
  cases hs : r.satisfies (x.expand states).chain.initial (x.expand states).property.bound with
  | false => exact .inl ⟨⟨r, hr, hs⟩, rfl⟩
  | true =>
    refine .inr ⟨?_, rfl⟩
    rintro ⟨r', hr', hs'⟩
    rw [hr] at hr'
    cases hr'
    rw [hs] at hs'
    cases hs'

end Step

/-- The oracle rejects the chain in which the waves up to the given one are expanded. -/
def RejectsAt (oracle : Shortcut α n → Answer α) (x : Shortcut α n) (waves : List (List (Fin n)))
    (wave : Nat) : Prop :=
  Rejects oracle (x.expand (waves.take (wave + 1)).flatten)

/-- **The search ends at the first wave that is rejected, if there is one.**  The waves are split into those
that have been done and those that remain. -/
theorem consultation_cases {waves done rest : List (List (Fin n))} (e : waves = done ++ rest)
    (answers : ∀ states, Answers oracle (x.expand states))
    (past : ∀ wave < done.length, Asked o.batchSize waves.length wave →
      ¬ RejectsAt oracle x waves wave) :
    (consultation oracle o done.length (done.length / o.batchSize) (x.expand done.flatten) rest
        = .satisfied ∧
      ∀ wave < waves.length, Asked o.batchSize waves.length wave → ¬ RejectsAt oracle x waves wave) ∨
    ∃ stop, StopsAt o.batchSize waves.length (RejectsAt oracle x waves) stop ∧
      consultation oracle o done.length (done.length / o.batchSize) (x.expand done.flatten) rest
        = .violated stop (stop / o.batchSize + 1) := by
  induction rest generalizing done with
  | nil =>
    rw [List.append_nil] at e
    subst e
    exact .inl ⟨rfl, past⟩
  | cons states rest ih =>
    have total : waves.length = done.length + 1 + rest.length := by
      rw [e, List.length_append, List.length_cons]
      omega
    have expanded : (x.expand done.flatten).expand states =
        x.expand (waves.take (done.length + 1)).flatten := by
      rw [← Shortcut.expand_append, e, List.take_length_add_append]
      simp
    have expanded' : (x.expand done.flatten).expand states = x.expand (done ++ [states]).flatten := by
      rw [← Shortcut.expand_append]
      simp
    have past' (h : Asked o.batchSize waves.length done.length →
        ¬ RejectsAt oracle x waves done.length) :
        ∀ wave < done.length + 1, Asked o.batchSize waves.length wave →
          ¬ RejectsAt oracle x waves wave := by
      intro wave hlt
      rcases Nat.lt_succ_iff_lt_or_eq.mp hlt with hlt | rfl
      · exact past wave hlt
      · exact h
    have next := @ih (done ++ [states]) (by simp [e])
    rw [List.length_append, List.length_singleton, ← expanded'] at next
    by_cases asked : Asked o.batchSize waves.length done.length
    · have rejects_iff : RejectsAt oracle x waves done.length ↔
          Rejects oracle ((x.expand done.flatten).expand states) := by
        rw [RejectsAt, expanded]
      rcases consultation_of_asked (done.length / o.batchSize) (total ▸ asked)
        (expanded ▸ answers _) with ⟨rejects, ends⟩ | ⟨accepts, goesOn⟩
      · exact .inr ⟨done.length, ⟨by omega, asked, rejects_iff.mpr rejects, past⟩, ends⟩
      · rw [goesOn]
        have past' := past' fun _ => accepts ∘ rejects_iff.mp
        rcases asked with complete | last
        · rw [← Nat.succ_div_of_dvd (Nat.dvd_of_mod_eq_zero complete)]
          exact next past'
        · obtain rfl : rest = [] := List.eq_nil_of_length_eq_zero (by omega)
          exact .inl ⟨rfl, last ▸ past'⟩
    · rw [consultation_of_not_asked _ (total ▸ asked)]
      have incomplete : ¬ o.batchSize ∣ done.length + 1 :=
        fun complete => asked (.inl (Nat.mod_eq_zero_of_dvd complete))
      rw [← Nat.succ_div_of_not_dvd incomplete]
      exact next (past' fun h => absurd h asked)

section Consult

variable (hw : Waves.ofAnnotated a = .ok w) (hx : Shortcut.ofMember a.member a.priors p = .ok x)
  (answers : ∀ states, Answers oracle (x.expand states))
include hw hx answers

/-- **What is explained is the first wave that is rejected.** -/
theorem consult_eq_ok {e : Explanation h} : consult oracle o a p = .ok e ↔
    ∃ stop, StopsAt o.batchSize w.count (RejectsAt oracle x w.states) stop ∧
      e = ofWave w stop (stop / o.batchSize + 1) false := by
  have outcome : consult oracle o a p = conclude w p (consultation oracle o 0 0 x w.states) := by
    rw [consult_eq, hw, hx]
  have cases' := @consultation_cases α n _ oracle o x w.states [] w.states rfl answers
    fun wave hlt => absurd hlt (Nat.not_lt_zero wave)
  rw [List.length_nil, Nat.zero_div, List.flatten_nil] at cases'
  rw [outcome]
  rcases cases' with ⟨satisfied, none⟩ | ⟨stop, stops, violated⟩
  · rw [show consultation oracle o 0 0 x w.states = .satisfied from satisfied]
    constructor
    · intro he
      cases he
    · rintro ⟨stop, stops, -⟩
      exact absurd stops.stops (none stop stops.lt stops.asked)
  · rw [show consultation oracle o 0 0 x w.states = _ from violated]
    constructor
    · intro he
      cases he
      exact ⟨stop, stops, rfl⟩
    · rintro ⟨stop', stops', rfl⟩
      rw [stops'.unique stops]
      rfl

end Consult

/-- An oracle that always gives a full result. -/
def full (result : Shortcut α n → CheckResult α (n + 2)) (x : Shortcut α n) : Answer α :=
  .ok ⟨n + 2, result x⟩

/-! ## Checkers -/

section Checker

variable {k : Checker α}

theorem rejects_answerOf_iff : Rejects (answerOf k) x ↔ k.Violates x.chain x.property := by
  unfold Rejects answerOf
  constructor
  · rintro ⟨r, hr, hs⟩
    cases hc : k.check x.chain x.property with
    | error error =>
      rw [hc] at hr
      cases hr
    | ok r' =>
      rw [hc] at hr
      cases hr
      exact ⟨r, hc, hs⟩
  · rintro ⟨r, hr, hs⟩
    refine ⟨r, ?_, hs⟩
    rw [hr]
    rfl

variable {m : Member α n} {priors : Priors α}

/-- A property that the graph decides is a probability whose labels exist, once a member has been
shortened for it. -/
theorem exists_probability (hx : Shortcut.ofMember m priors p = .ok x) (extreme : p.Extreme) :
    ∃ constraint label b, p = ⟨.probability constraint label, b⟩ ∧
      (b.threshold == 0 || b.threshold == 1) = true ∧
      (Formula.probability constraint label).Known m.chain.labelling := by
  obtain ⟨known, -⟩ := Shortcut.known_of_ofMember hx
  obtain ⟨formula, b⟩ := p
  cases formula with
  | probability constraint label => exact ⟨constraint, label, b, rfl, extreme.2, known⟩
  | reward model label => exact absurd extreme.1 (by rintro ⟨⟩)

/-- A checker answers at every wave. -/
theorem answers_expand [Scalar.Ordered α] (hx : Shortcut.ofMember m priors p = .ok x)
    (extreme : p.Extreme) (states : List (Fin n)) : Answers (answerOf k) (x.expand states) := by
  obtain ⟨target, shortens, -⟩ := Shortcut.shortens_of_ofMember hx
  obtain ⟨constraint, label, b, rfl, threshold, known⟩ := exists_probability hx extreme
  obtain ⟨r, hr⟩ := (shortens.expand states).answers (k := k) known threshold
  refine ⟨r, ?_⟩
  rw [answerOf, hr]
  rfl

/-- A checker does not withdraw a rejection at a later wave. -/
theorem rejectsAt_mono [Scalar.Ordered α] (hx : Shortcut.ofMember m priors p = .ok x)
    (extreme : p.Extreme) (unbounded : ∀ q, priors.bound? q = none) {waves : List (List (Fin n))}
    {i j : Nat} (hij : i ≤ j) (hi : RejectsAt (answerOf k) x waves i) :
    RejectsAt (answerOf k) x waves j := by
  obtain ⟨target, shortens, -⟩ := Shortcut.shortens_of_ofMember hx
  obtain ⟨constraint, label, b, rfl, threshold, known⟩ := exists_probability hx extreme
  refine rejects_answerOf_iff.mpr ?_
  refine (shortens.expand _).violates_of_subset known threshold unbounded (shortens.expand _) ?_
    (rejects_answerOf_iff.mp hi)
  intro s hs
  rcases Shortcut.mem_expanded_expand.mp hs with hs | hs
  · obtain ⟨wave, hwave, hs⟩ := List.mem_flatten.mp hs
    have later := List.take_subset_take_left waves (Nat.succ_le_succ hij)
    exact Shortcut.mem_expanded_expand.mpr (.inl (List.mem_flatten.mpr ⟨wave, later hwave, hs⟩))
  · exact Shortcut.mem_expanded_expand.mpr (.inr hs)

end Checker

/-! ## Batches -/

/-- **Batches only round up.**  With any oracle that gives full results, a member that is explained in
batches is explained wave by wave, after the same wave or an earlier one, and by no other holes.  With a
checker, a threshold of zero or one, and no bounds known in advance, a member is explained in batches iff it
is explained wave by wave, and then the search in batches stops with the batch in which the other one stops,
or at the last wave. -/
theorem explain_batches (o : SearchOptions) (a : Annotated Float n h) (p : Property Float) :
    (∀ (result : Shortcut Float n → CheckResult Float (n + 2)) (e : Explanation h),
      consult (full result) o a p = .ok e →
        ∃ single, consult (full result) o.single a p = .ok single ∧
          single.stoppingWave ≤ e.stoppingWave ∧ ∀ y ∈ single.criticalHoles, y ∈ e.criticalHoles) ∧
    (p.Extreme → (∀ q, a.priors.bound? q = none) → ∀ k : Checker Float,
      ((∃ e, explain k o a p = .ok e) ↔ ∃ single, explain k o.single a p = .ok single) ∧
      ∀ e single, explain k o a p = .ok e → explain k o.single a p = .ok single →
        e.stoppingWave = min (e.numWaves - 1)
            ((single.stoppingWave / o.batchSize + 1) * o.batchSize - 1) ∧
          e.oracleCalls = e.stoppingWave / o.batchSize + 1) := by
  constructor
  case left =>
    intro result e he
    obtain ⟨w, x, hw, hx⟩ := exists_of_consult_ok he
    have answers (states : List (Fin n)) : Answers (full result) (x.expand states) := ⟨_, rfl⟩
    obtain ⟨stop, stops, rfl⟩ := (consult_eq_ok hw hx answers).mp he
    obtain ⟨first, le, stops'⟩ := stops.single
    exact ⟨_, (consult_eq_ok hw hx answers).mpr ⟨first, stops', rfl⟩, le,
      fun y => Waves.criticalHoles_mono le⟩
  case right =>
    intro extreme unbounded k
    have ends {o : SearchOptions} {w : Waves n h} {x : Shortcut Float n} {e : Explanation h}
        (hw : Waves.ofAnnotated a = .ok w) (hx : Shortcut.ofMember a.member a.priors p = .ok x) :
        explain k o a p = .ok e ↔
          ∃ stop, StopsAt o.batchSize w.count (RejectsAt (answerOf k) x w.states) stop ∧
            e = ofWave w stop (stop / o.batchSize + 1) false :=
      consult_eq_ok hw hx (answers_expand hx extreme)
    refine ⟨⟨?batches, ?waves⟩, ?rounded⟩
    case batches =>
      rintro ⟨e, he⟩
      obtain ⟨w, x, hw, hx⟩ := exists_of_explain_ok he
      obtain ⟨stop, stops, -⟩ := (ends hw hx).mp he
      obtain ⟨first, -, stops'⟩ := stops.single
      exact ⟨_, (ends hw hx).mpr ⟨first, stops', rfl⟩⟩
    case waves =>
      rintro ⟨single, hs⟩
      obtain ⟨w, x, hw, hx⟩ := exists_of_explain_ok hs
      obtain ⟨first, stops, -⟩ := (ends hw hx).mp hs
      have stops' := stops.round_up o.batchSize_pos (rejectsAt_mono hx extreme unbounded)
      exact ⟨_, (ends hw hx).mpr ⟨_, stops', rfl⟩⟩
    case rounded =>
      intro e single he hs
      obtain ⟨w, x, hw, hx⟩ := exists_of_explain_ok he
      obtain ⟨stop, stops, rfl⟩ := (ends hw hx).mp he
      obtain ⟨first, stops', rfl⟩ := (ends hw hx).mp hs
      have rounded := stops'.round_up o.batchSize_pos (rejectsAt_mono hx extreme unbounded)
      exact ⟨stops.unique rounded, rfl⟩

/-- An oracle that accepts as long as fewer than three states are expanded. -/
def patient (x : Shortcut Float n) : CheckResult Float (n + 2) :=
  .qualitative (.ofFn fun _ => x.numExpanded < 3)

/-- In batches of three waves, the fork is explained at its last wave, and wave by wave it is at the one
before, both by the patient oracle and by the checker. -/
theorem explain_batches_fork :
    (∃ e, consult (full patient) ⟨3, .fail, by decide⟩ fork ⟨.probability none "bad", ⟨.lessEqual, 0⟩⟩
        = .ok ⟨.ofList [0, 1], 2, 3, 1, false⟩ ∧
      consult (full patient) ⟨1, .fail, by decide⟩ fork ⟨.probability none "bad", ⟨.lessEqual, 0⟩⟩
        = .ok e ∧ e.stoppingWave ≤ 2) ∧
    explain .standard ⟨3, .fail, by decide⟩ fork ⟨.probability none "bad", ⟨.lessEqual, 0⟩⟩
      = .ok ⟨.ofList [0, 1], 2, 3, 1, false⟩ ∧
    explain .standard ⟨1, .fail, by decide⟩ fork ⟨.probability none "bad", ⟨.lessEqual, 0⟩⟩
      = .ok ⟨.ofList [0], 1, 3, 2, false⟩ ∧
    2 = min (3 - 1) ((1 / 3 + 1) * 3 - 1) ∧ 1 = 2 / 3 + 1 := by
  have heard : consult (full patient) ⟨3, .fail, by decide⟩ fork
      ⟨.probability none "bad", ⟨.lessEqual, 0⟩⟩ = .ok ⟨.ofList [0, 1], 2, 3, 1, false⟩ :=
    eq_ok_of_toOption (by decide +kernel)
  have batches : explain .standard ⟨3, .fail, by decide⟩ fork
      ⟨.probability none "bad", ⟨.lessEqual, 0⟩⟩ = .ok ⟨.ofList [0, 1], 2, 3, 1, false⟩ :=
    eq_ok_of_toOption (by decide +kernel)
  have waves : explain .standard ⟨1, .fail, by decide⟩ fork
      ⟨.probability none "bad", ⟨.lessEqual, 0⟩⟩ = .ok ⟨.ofList [0], 1, 3, 2, false⟩ :=
    eq_ok_of_toOption (by decide +kernel)
  have extreme : (⟨.probability none "bad", ⟨.lessEqual, 0⟩⟩ : Property Float).Extreme :=
    ⟨rfl, by decide +kernel⟩
  obtain ⟨anyOracle, checker⟩ := explain_batches ⟨3, .fail, by decide⟩ fork
    ⟨.probability none "bad", ⟨.lessEqual, 0⟩⟩
  obtain ⟨e, he, le, -⟩ := anyOracle patient _ heard
  obtain ⟨-, rounded⟩ := checker extreme Priors.bound?_unknown .standard
  exact ⟨⟨e, heard, he, le⟩, batches, waves, rounded _ _ batches waves⟩

end Explanation

end HoleBlame
