import MeteredMap.Proofs.Steps
import MeteredMap.Session.Transcript

/-!
# Sessions and models

What every step of a session keeps the whole session keeps, and if no step faults the session ends
without a fault. A session is specified by a model: a machine with a state of its own that answers
every command. If every step of the session gives the answer of the model and leaves its state where
the model is, so does the whole session.

## Main definitions

* `MeteredMap.Transcript.play` : the answers of a model to a list of commands.
* `MeteredMap.Transcript.Agrees` : two steps side by side that a viewer cannot tell apart.

## Main results

* `MeteredMap.Transcript.finished_of_preserves_mem`, `MeteredMap.Transcript.finished_of_preserves` :
  from steps to sessions, for an invariant.
* `MeteredMap.Transcript.finished_of_simulates` : from steps to sessions, against a model.
* `MeteredMap.Transcript.run_agrees` : from steps to sessions, for two sessions side by side.
-/

namespace MeteredMap

namespace Transcript

variable {σ τ κ ρ : Type}

/-- The answers of a model to commands one after the other, and its last state. -/
def play (model : κ → τ → ρ × τ) : List κ → τ → List ρ × τ
  | [], state => ([], state)
  | command :: commands, state =>
    let (answer, next) := model command state
    let (answers, last) := play model commands next
    (answer :: answers, last)

theorem finished_cons {step : κ → σ → Except Fault (ρ × σ)} {command : κ} {state next : σ}
    {answer : ρ} (h : step command state = .ok (answer, next)) (commands : List κ) :
    (run step (command :: commands) state).finished =
      (fun rest => (answer :: rest.1, rest.2)) <$> (run step commands next).finished := by
  simp only [run, h, finished]
  cases (run step commands next).ending <;> rfl

/-- A change of the state that every step goes along with the whole session goes along with. -/
theorem finished_map {σ' : Type} {step : κ → σ → Except Fault (ρ × σ)}
    {step' : κ → σ' → Except Fault (ρ × σ')} {u : σ → σ'}
    (hstep : ∀ command state, step' command (u state) = Prod.map id u <$> step command state)
    (commands : List κ) (state : σ) :
    (run step' commands (u state)).finished =
      Prod.map id u <$> (run step commands state).finished := by
  induction commands generalizing state with
  | nil => rfl
  | cons command commands ih =>
    cases h : step command state with
    | error fault => simp only [run, hstep, h, finished]; rfl
    | ok next =>
      have h' : step' command (u state) = .ok (next.1, u next.2) := by
        rw [hstep, h]
        rfl
      rw [finished_cons h', finished_cons h, ih]
      cases (run step commands next.2).finished <;> rfl

/-- A session whose every step keeps an invariant keeps it to its end. Only the commands that are
given have to keep it. -/
theorem finished_of_preserves_mem {P : σ → Prop} {step : κ → σ → Except Fault (ρ × σ)}
    {commands : List κ}
    (hstep : ∀ command ∈ commands, ∀ state, P state →
      ∃ answer next, step command state = .ok (answer, next) ∧ P next) {state : σ} (h : P state) :
    ∃ answers last, (run step commands state).finished = .ok (answers, last) ∧ P last := by
  induction commands generalizing state with
  | nil => exact ⟨[], state, rfl, h⟩
  | cons command commands ih =>
    obtain ⟨answer, next, heq, hnext⟩ := hstep command List.mem_cons_self state h
    obtain ⟨answers, last, hrest, hlast⟩ :=
      ih (fun c hc => hstep c (List.mem_cons_of_mem command hc)) hnext
    refine ⟨answer :: answers, last, ?_, hlast⟩
    rw [finished_cons heq, hrest]
    rfl

/-- A session whose every step keeps an invariant keeps it to its end. -/
theorem finished_of_preserves {P : σ → Prop} {step : κ → σ → Except Fault (ρ × σ)}
    (hstep : ∀ command state, P state →
      ∃ answer next, step command state = .ok (answer, next) ∧ P next)
    (commands : List κ) {state : σ} (h : P state) :
    ∃ answers last, (run step commands state).finished = .ok (answers, last) ∧ P last :=
  finished_of_preserves_mem (fun command _ => hstep command) h

/-- A session whose every step gives the answer of a model and keeps a relation to its state gives
all answers of the model and keeps the relation. -/
theorem finished_of_simulates {R : σ → τ → Prop} {step : κ → σ → Except Fault (ρ × σ)}
    {model : κ → τ → ρ × τ}
    (hstep : ∀ command state m, R state m →
      ∃ next, step command state = .ok ((model command m).1, next) ∧ R next (model command m).2)
    (commands : List κ) {state : σ} {m : τ} (h : R state m) :
    ∃ last, (run step commands state).finished = .ok ((play model commands m).1, last) ∧
      R last (play model commands m).2 := by
  induction commands generalizing state m with
  | nil => exact ⟨state, rfl, h⟩
  | cons command commands ih =>
    obtain ⟨next, heq, hnext⟩ := hstep command state m h
    obtain ⟨last, hrest, hlast⟩ := ih hnext
    refine ⟨last, ?_, hlast⟩
    rw [finished_cons heq, hrest]
    rfl

/-- Two steps side by side: both end in the same fault, or their answers look the same to a viewer
and their states stand in a relation. -/
def Agrees {σ' ρ' ω : Type} (view : ρ → ω) (view' : ρ' → ω) (R : σ → σ' → Prop)
    (x : Except Fault (ρ × σ)) (y : Except Fault (ρ' × σ')) : Prop :=
  (∃ fault, x = .error fault ∧ y = .error fault) ∨
    ∃ answer state answer' state', x = .ok (answer, state) ∧ y = .ok (answer', state') ∧
      view answer = view' answer' ∧ R state state'

/-- Two sessions whose steps agree as long as their states stand in a relation agree from beginning
to end: they are answered alike, and they end in the same fault or in states that stand in the
relation. -/
theorem run_agrees {σ' ρ' ω : Type} {view : ρ → ω} {view' : ρ' → ω} {R : σ → σ' → Prop}
    {step : κ → σ → Except Fault (ρ × σ)} {step' : κ → σ' → Except Fault (ρ' × σ')}
    {commands : List κ}
    (hstep : ∀ command ∈ commands, ∀ state state', R state state' →
      Agrees view view' R (step command state) (step' command state'))
    {state : σ} {state' : σ'} (h : R state state') :
    (run step commands state).answers.map view = (run step' commands state').answers.map view' ∧
      ((∃ fault, (run step commands state).ending = .error fault ∧
          (run step' commands state').ending = .error fault) ∨
        ∃ last last', (run step commands state).ending = .ok last ∧
          (run step' commands state').ending = .ok last' ∧ R last last') := by
  induction commands generalizing state state' with
  | nil => exact ⟨rfl, Or.inr ⟨state, state', rfl, rfl, h⟩⟩
  | cons command commands ih =>
    rcases hstep command List.mem_cons_self state state' h with
      ⟨fault, heq, heq'⟩ | ⟨answer, next, answer', next', heq, heq', hview, hnext⟩
    · simp only [run, heq, heq']
      exact ⟨rfl, Or.inl ⟨fault, rfl, rfl⟩⟩
    · obtain ⟨hanswers, hending⟩ := ih (fun c hc => hstep c (List.mem_cons_of_mem _ hc)) hnext
      simp only [run, heq, heq', List.map_cons, hview, hanswers]
      exact ⟨trivial, hending⟩

end Transcript

end MeteredMap
