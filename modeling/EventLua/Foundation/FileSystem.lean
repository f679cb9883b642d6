import EventLua.Foundation.LittleEndian

/-!
A file system as a map from paths to contents, and the steps that change it: write
a whole file, remove a file, and rename a file over another one. A crash between two
steps leaves what the steps before it made. A path that no step names keeps its
contents.
-/
namespace EventLua
open Function

abbrev FileSystem (π : Type) := π → Option Bytes

inductive FileStep (π : Type) where
  | remove (path : π)
  | write (path : π) (contents : Bytes)
  | rename (source target : π)

namespace FileStep
variable {π : Type} [DecidableEq π]

def apply (disk : FileSystem π) : FileStep π → FileSystem π
  | remove path => Function.update disk path none
  | write path contents => Function.update disk path (some contents)
  | rename source target =>
    match disk source with
    | none => disk
    | some contents => Function.update (Function.update disk source none) target (some contents)

def run (steps : List (FileStep π)) (disk : FileSystem π) : FileSystem π := steps.foldl apply disk

@[simp] theorem run_nil (disk : FileSystem π) : run [] disk = disk := rfl

@[simp] theorem run_cons (step : FileStep π) (steps : List (FileStep π)) (disk : FileSystem π) :
    run (step :: steps) disk = run steps (step.apply disk) := rfl

/-- The steps that a crash leaves done: a few first ones, and of a write behind them as many bytes
as are in the file by then. -/
def crash (steps : List (FileStep π)) (done : Nat) (bytes : Option Nat) : List (FileStep π) :=
  steps.take done ++ match steps[done]?, bytes with
    | some (.write path contents), some n => [.write path (contents.take n)]
    | _, _ => []

theorem run_append (steps more : List (FileStep π)) (disk : FileSystem π) :
    run (steps ++ more) disk = run more (run steps disk) := List.foldl_append

def Touches (path : π) : FileStep π → Prop
  | remove p => p = path
  | write p _ => p = path
  | rename source target => source = path ∨ target = path

theorem apply_of_not_touches {step : FileStep π} (h : ¬ step.Touches path) (disk : FileSystem π) :
    step.apply disk path = disk path := by
  cases step with
  | remove p | write p contents => exact update_of_ne (Ne.symm h) _ _
  | rename source target =>
    obtain ⟨hsource, htarget⟩ := not_or.mp h
    cases hfile : disk source with
    | none => simp only [apply, hfile]
    | some contents =>
      simp only [apply, hfile]
      rw [update_of_ne (Ne.symm htarget), update_of_ne (Ne.symm hsource)]

theorem run_of_not_touches {path : π} (h : ∀ step ∈ steps, ¬ step.Touches path)
    (disk : FileSystem π) : run steps disk path = disk path := by
  induction steps generalizing disk with
  | nil => rfl
  | cons step steps ih =>
    rw [run_cons, ih (fun s hs => h s (List.mem_cons_of_mem _ hs)),
      apply_of_not_touches (h step List.mem_cons_self)]

end FileStep

end EventLua
