import MeteredMap.Fault

/-!
# Transcripts

A session is a list of commands run one after the other on a state. Each command is answered; a
fault ends the session, and the commands after it are not run.

## Main definitions

* `MeteredMap.Transcript` : the answers of a session and how it ended.
* `MeteredMap.Transcript.run` : the session of a list of commands.
-/

namespace MeteredMap

/-- What a session leaves: the answers up to its end, and the last state or the fault that ended
it. -/
structure Transcript (σ ρ : Type) where
  answers : List ρ
  ending : Except Fault σ

namespace Transcript

variable {σ κ ρ : Type}

/-- Runs commands one after the other, each on the state that the one before left. -/
def run (step : κ → σ → Except Fault (ρ × σ)) : List κ → σ → Transcript σ ρ
  | [], state => ⟨[], .ok state⟩
  | command :: commands, state =>
    match step command state with
    | .error fault => ⟨[], .error fault⟩
    | .ok (answer, state) =>
      let rest := run step commands state
      ⟨answer :: rest.answers, rest.ending⟩

/-- The answers and the last state of a session that no fault ended. -/
def finished (transcript : Transcript σ ρ) : Except Fault (List ρ × σ) := do
  return (transcript.answers, ← transcript.ending)

end Transcript

end MeteredMap
