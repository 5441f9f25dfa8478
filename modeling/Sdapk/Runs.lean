/-
Runs of a machine given by a step function: the state after a list of
events (`run`), a property asked of every event in the state it meets
(`Along`), and the induction that carries an invariant from one step to the
whole run.
-/
import Mathlib.Data.List.Basic

namespace Runs

variable {σ ε : Type*}

/-- The state after the events. -/
def run (step : σ → ε → σ) (s : σ) (es : List ε) : σ := es.foldl step s

/-- `P` holds of every event of the run, asked in the state the event meets. -/
def Along (step : σ → ε → σ) (P : σ → ε → Prop) : σ → List ε → Prop
  | _, [] => True
  | s, e :: es => P s e ∧ Along step P (step s e) es

section

variable {step : σ → ε → σ} {P Q ok : σ → ε → Prop} {I : σ → Prop} {s : σ}

@[simp] theorem run_nil : run step s [] = s := rfl
@[simp] theorem run_cons {e es} : run step s (e :: es) = run step (step s e) es := rfl
@[simp] theorem run_append {es es'} : run step s (es ++ es') = run step (run step s es) es' := by
  simp [run]

@[simp] theorem along_nil : Along step P s [] := trivial
@[simp] theorem along_cons {e es} :
    Along step P s (e :: es) ↔ P s e ∧ Along step P (step s e) es := Iff.rfl

@[simp] theorem along_append {es es'} :
    Along step P s (es ++ es') ↔ Along step P s es ∧ Along step P (run step s es) es' := by
  induction es generalizing s with
  | nil => simp
  | cons e es ih => rw [List.cons_append, along_cons, along_cons, run_cons, ih, and_assoc]

instance decidableAlong [∀ s e, Decidable (P s e)] : ∀ (s : σ) (es : List ε), Decidable (Along step P s es)
  | _, [] => .isTrue trivial
  | s, e :: es =>
    have := decidableAlong (step s e) es
    inferInstanceAs (Decidable (_ ∧ _))

theorem Along.mono {es} (h : ∀ s e, P s e → Q s e) (hp : Along step P s es) : Along step Q s es := by
  induction es generalizing s with
  | nil => trivial
  | cons e es ih => exact ⟨h _ _ hp.1, ih hp.2⟩

theorem Along.and {es} (hp : Along step P s es) (hq : Along step Q s es) : Along step (fun s e => P s e ∧ Q s e) s es := by
  induction es generalizing s with
  | nil => trivial
  | cons e es ih => exact ⟨⟨hp.1, hq.1⟩, ih hp.2 hq.2⟩

/-- What holds of every event, whatever the state, holds along the run. -/
theorem Along.of_forall {p : ε → Prop} {es} (h : ∀ e ∈ es, p e) : Along step (fun _ e => p e) s es := by
  induction es generalizing s with
  | nil => trivial
  | cons e es ih => exact ⟨h e List.mem_cons_self, ih fun e' he => h e' (List.mem_cons_of_mem e he)⟩

/-- **The invariant rule.** What the start satisfies and every allowed step
keeps holds at the end of every run of allowed steps. -/
theorem Along.invariant {es} (hstep : ∀ s e, I s → ok s e → I (step s e)) (hi : I s) (hok : Along step ok s es) :
    I (run step s es) := by
  induction es generalizing s with
  | nil => exact hi
  | cons e es ih =>
    rw [run_cons]
    exact ih (hstep _ _ hi hok.1) hok.2

/-- What every step keeps holds at the end of every run. -/
theorem run_invariant (hstep : ∀ s e, I s → I (step s e)) (es : List ε) (hi : I s) : I (run step s es) := by
  induction es generalizing s with
  | nil => exact hi
  | cons e es ih => exact ih (hstep s e hi)

/-- **The invariant rule with a past.** What the start satisfies with no events,
and every step keeps with its event added to those before it, the end of a run
satisfies with all of them. -/
theorem run_past {J : List ε → σ → Prop} (hstep : ∀ past s e, J past s → J (past ++ [e]) (step s e)) (es : List ε)
    (h : J [] s) : J es (run step s es) := by
  have key : ∀ {past s}, J past s → J (past ++ es) (run step s es) := by
    induction es with
    | nil =>
      intro past s h
      rwa [List.append_nil]
    | cons e es ih =>
      intro past s h
      have hrest := ih (hstep past s e h)
      rwa [List.append_assoc, List.singleton_append] at hrest
  exact key h

/-- **The step rule.** What an invariant gives at each allowed step holds
along every run of allowed steps. -/
theorem Along.of_invariant {es} (hstep : ∀ s e, I s → ok s e → P s e ∧ I (step s e)) (hi : I s)
    (hok : Along step ok s es) : Along step P s es := by
  induction es generalizing s with
  | nil => trivial
  | cons e es ih =>
    obtain ⟨hp, hi⟩ := hstep _ _ hi hok.1
    exact ⟨hp, ih hi hok.2⟩

/-- **Two step properties agree along a run** when they agree wherever the
invariant holds and the second keeps the invariant: a run is either in step
with both, or leaves both at the same event. -/
theorem along_iff {es} (hiff : ∀ s e, I s → ok s e → (P s e ↔ Q s e))
    (hkeep : ∀ s e, I s → ok s e → Q s e → I (step s e)) (hi : I s) (hok : Along step ok s es) :
    Along step P s es ↔ Along step Q s es := by
  induction es generalizing s with
  | nil => exact Iff.rfl
  | cons e es ih =>
    simp only [along_cons, hiff s e hi hok.1]
    refine and_congr_right fun hq => ?_
    exact ih (hkeep s e hi hok.1 hq) hok.2

/-- What the events of a run emit, in order. -/
def emitted {ω : Type*} (step : σ → ε → σ) (emit : σ → ε → Option ω) : σ → List ε → List ω
  | _, [] => []
  | s, e :: es => (emit s e).toList ++ emitted step emit (step s e) es

theorem emitted_append {ω : Type*} {emit : σ → ε → Option ω} {es es'} :
    emitted step emit s (es ++ es') = emitted step emit s es ++ emitted step emit (run step s es) es' := by
  induction es generalizing s with
  | nil => rfl
  | cons e es ih => rw [List.cons_append, emitted, emitted, ih, List.append_assoc, run_cons]

/-- **The simulation rule.** Where every allowed step that emits an operation
does to the view what the operation does, and every other leaves the view as
it is, a run does to it what the emitted operations do one after the other. -/
theorem Along.simulates {τ ω : Type*} {emit : σ → ε → Option ω} {V : σ → τ} {apply : τ → ω → τ} {es}
    (hstep : ∀ s e, I s → ok s e → V (step s e) = (emit s e).toList.foldl apply (V s) ∧ I (step s e)) (hi : I s)
    (hok : Along step ok s es) : V (run step s es) = (emitted step emit s es).foldl apply (V s) := by
  induction es generalizing s with
  | nil => rfl
  | cons e es ih =>
    obtain ⟨hV, hi⟩ := hstep s e hi hok.1
    rw [run_cons, ih hi hok.2, hV, emitted, List.foldl_append]

/-- What is asked along a run of a machine that carries more than another is
asked along the run of the other. -/
theorem along_map {τ : Type*} {step' : τ → ε → τ} {P' : τ → ε → Prop} {f : σ → τ} {es}
    (hf : ∀ s e, f (step s e) = step' (f s) e) : Along step (fun s e => P' (f s) e) s es ↔ Along step' P' (f s) es := by
  induction es generalizing s with
  | nil => exact Iff.rfl
  | cons e es ih => rw [along_cons, along_cons, ih, hf]

/-- A run that leaves `P` leaves it at a first event. -/
theorem not_along {es} (h : ¬ Along step P s es) :
    ∃ pre e post, es = pre ++ e :: post ∧ Along step P s pre ∧ ¬ P (run step s pre) e := by
  induction es generalizing s with
  | nil => exact absurd trivial h
  | cons e es ih =>
    by_cases hp : P s e
    · have hrest : ¬ Along step P (step s e) es := fun ha => h ⟨hp, ha⟩
      obtain ⟨pre, e', post, rfl, hpre, hne⟩ := ih hrest
      exact ⟨e :: pre, e', post, rfl, ⟨hp, hpre⟩, hne⟩
    · exact ⟨[], e, es, rfl, trivial, hp⟩

/-- A property holds along a run exactly where it holds at every cut of it. -/
theorem along_iff_cut {es} : Along step P s es ↔ ∀ pre e post, es = pre ++ e :: post → P (run step s pre) e := by
  induction es generalizing s with
  | nil => exact ⟨fun _ pre e post h => by simp at h, fun _ => trivial⟩
  | cons e es ih =>
    rw [along_cons, ih]
    constructor
    · intro h pre e' post heq
      obtain ⟨hp, ha⟩ := h
      cases pre with
      | nil =>
        obtain ⟨rfl, -⟩ := List.cons.inj heq
        exact hp
      | cons d pre =>
        obtain ⟨rfl, hes⟩ := List.cons.inj heq
        exact ha pre e' post hes
    · intro h
      exact ⟨h [] e es rfl, fun pre e' post hes => h (e :: pre) e' post (by rw [hes]; rfl)⟩

/-- What comes to hold in a run comes to hold at some event. -/
theorem exists_first {p : σ → Prop} {es} (hs : ¬ p s) (hp : p (run step s es)) :
    ∃ pre e post, es = pre ++ e :: post ∧ ¬ p (run step s pre) ∧ p (step (run step s pre) e) := by
  induction es generalizing s with
  | nil => exact absurd hp hs
  | cons e es ih =>
    by_cases h : p (step s e)
    · exact ⟨[], e, es, rfl, hs, h⟩
    · obtain ⟨pre, e', post, rfl, hpre, hstep⟩ := ih h hp
      exact ⟨e :: pre, e', post, rfl, hpre, hstep⟩

end

end Runs
