import Lox.Session

/-!
# Histories of sessions

A history is a list of steps, each with the fuel it is given. A session plays a history as far as
its steps end: `Session.play` is the session after all of them, `Session.answers` lists what was
answered on the way.
-/

namespace Lox

/-- What a session is asked to do. -/
inductive Step where
  | run (source : String)
  | evaluate (source : String)

/-- Steps to take one after the other, each with its fuel. -/
abbrev History := List (Nat × Step)

namespace Session

/-- Take one step. -/
def perform (fuel : Nat) (s : Session) : Step → Option (Answer × Session)
  | .run source => s.run fuel source
  | .evaluate source => s.evaluate fuel source

/-- The session after a history, if all its steps end. -/
def play (s : Session) : History → Option Session
  | [] => some s
  | (fuel, step) :: rest =>
    match s.perform fuel step with
    | some (_, next) => next.play rest
    | none => none

/-- What every step of a history keeps, the history keeps. -/
theorem play_keeps {R : Session → Prop} {s next : Session} {history : History}
    (hplay : s.play history = some next) (hs : R s)
    (hkeep : ∀ entry ∈ history, ∀ s a next, R s → s.perform entry.1 entry.2 = some (a, next) →
      R next) : R next := by
  induction history generalizing s with
  | nil =>
    rw [Session.play, Option.some.injEq] at hplay
    exact hplay ▸ hs
  | cons entry rest ih =>
    obtain ⟨fuel, step⟩ := entry
    rw [Session.play] at hplay
    cases hstep : s.perform fuel step with
    | none => simp [hstep] at hplay
    | some result =>
      obtain ⟨a, middle⟩ := result
      rw [hstep] at hplay
      refine ih hplay (hkeep _ List.mem_cons_self s a middle hs hstep) ?_
      exact fun entry hentry => hkeep entry (List.mem_cons_of_mem _ hentry)

/-- The answers to the steps of a history, up to the first that does not end. -/
def answers (s : Session) : History → List Answer
  | [] => []
  | (fuel, step) :: rest =>
    match s.perform fuel step with
    | some (answer, next) => answer :: next.answers rest
    | none => []

end Session

end Lox
