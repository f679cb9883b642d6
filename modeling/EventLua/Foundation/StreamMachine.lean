import Mathlib.Data.List.Basic

/-!
Machines that take their input from a queue. More input never changes a step that was
already possible, so feeding chunk after chunk is draining the whole input at once.
-/
namespace EventLua
open List

structure Progress (σ α β : Type) where
  state : σ
  rest : List α
  out : List β

namespace Progress
variable {σ α β : Type}

def andThen (p : Progress σ α β) (next : σ → List α → Progress σ α β) : Progress σ α β :=
  let q := next p.state p.rest
  ⟨q.state, q.rest, p.out ++ q.out⟩

theorem andThen_assoc (p : Progress σ α β) (f g : σ → List α → Progress σ α β) :
    (p.andThen f).andThen g = p.andThen fun s q => (f s q).andThen g := by
  simp [andThen]

theorem mk_andThen (s : σ) (q : List α) (next : σ → List α → Progress σ α β) :
    (Progress.mk s q []).andThen next = next s q := by
  simp [andThen]

end Progress

structure StreamMachine (σ α β : Type) where
  step : σ → List α → Option (Progress σ α β)
  consumes : ∀ {s q p}, step s q = some p → p.rest.length < q.length
  stable : ∀ {s q p}, step s q = some p →
    ∀ more, step s (q ++ more) = some { p with rest := p.rest ++ more }

namespace StreamMachine
variable {σ α β : Type} (M : StreamMachine σ α β)

def drainWith : Nat → σ → List α → Progress σ α β
  | 0, s, q => ⟨s, q, []⟩
  | fuel + 1, s, q =>
    match M.step s q with
    | none => ⟨s, q, []⟩
    | some p => p.andThen (drainWith fuel)

/-- Step until no step is possible. Every step takes input away, so the length of
the queue bounds their number. -/
def drain (s : σ) (q : List α) : Progress σ α β := M.drainWith (q.length + 1) s q

theorem drainWith_fuel (fuel fuel' : Nat) (s : σ) (q : List α)
    (h : q.length < fuel) (h' : q.length < fuel') :
    M.drainWith fuel s q = M.drainWith fuel' s q := by
  induction fuel generalizing fuel' s q with
  | zero => cases h
  | succ fuel ih =>
    cases fuel' with
    | zero => cases h'
    | succ fuel' =>
      cases hs : M.step s q with
      | none => simp only [drainWith, hs]
      | some p =>
        have hlt := M.consumes hs
        simp [drainWith, hs, Progress.andThen, ih fuel' p.state p.rest (by omega) (by omega)]

theorem drain_of_none (h : M.step s q = none) : M.drain s q = ⟨s, q, []⟩ := by
  simp [drain, drainWith, h]

theorem drain_of_some (h : M.step s q = some p) : M.drain s q = p.andThen M.drain := by
  have hlt := M.consumes h
  have hfuel := M.drainWith_fuel q.length (p.rest.length + 1) p.state p.rest hlt
    (Nat.lt_succ_self _)
  rw [drain, drainWith, h]
  simp [Progress.andThen, hfuel, drain]

/-- Reason about a whole drain from its steps: a property of the quiet states that
every step carries back from its end to its start holds everywhere. -/
theorem drain_induction {motive : σ → List α → Prop} (quiet : ∀ s q, M.step s q = none → motive s q)
    (step : ∀ s q p, M.step s q = some p → motive p.state p.rest → motive s q)
    (s : σ) (q : List α) : motive s q := by
  induction hn : q.length using Nat.strongRecOn generalizing s q with
  | _ n ih =>
    cases hs : M.step s q with
    | none => exact quiet s q hs
    | some p =>
      have hlt : p.rest.length < n := hn ▸ M.consumes hs
      exact step s q p hs (ih p.rest.length hlt p.state p.rest rfl)

theorem step_drain (s : σ) (q : List α) : M.step (M.drain s q).state (M.drain s q).rest = none := by
  induction s, q using M.drain_induction with
  | quiet s q h => simpa only [M.drain_of_none h] using h
  | step s q p h ih => simpa only [M.drain_of_some h, Progress.andThen] using ih

theorem drain_append (s : σ) (q more : List α) :
    M.drain s (q ++ more) = (M.drain s q).andThen fun t rest => M.drain t (rest ++ more) := by
  induction s, q using M.drain_induction with
  | quiet s q h => rw [M.drain_of_none h, Progress.mk_andThen]
  | step s q p h ih =>
    rw [M.drain_of_some (M.stable h more), M.drain_of_some h, Progress.andThen_assoc]
    simp only [Progress.andThen] at ih ⊢
    rw [ih]

def feed : List (List α) → σ → List α → Progress σ α β
  | [], s, q => ⟨s, q, []⟩
  | chunk :: chunks, s, q => (M.drain s (q ++ chunk)).andThen (feed chunks)

theorem feed_eq_drain (chunks : List (List α)) (s : σ) (q : List α) (h : M.step s q = none) :
    M.feed chunks s q = M.drain s (q ++ chunks.flatten) := by
  induction chunks generalizing s q with
  | nil => simp only [feed, flatten_nil, append_nil, M.drain_of_none h]
  | cons chunk chunks ih =>
    have hnext := ih _ _ (M.step_drain s (q ++ chunk))
    have happ := M.drain_append s (q ++ chunk) chunks.flatten
    rw [append_assoc] at happ
    rw [feed, flatten_cons, happ]
    simp [Progress.andThen, hnext]

end StreamMachine

end EventLua
