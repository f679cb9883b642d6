import EventLua.Client.ReadPath

/-!
`read_complete` as a stream machine. One turn of the loop is one step of the machine.
-/
namespace EventLua.Client
open Option

open EventLua.Session

theorem wanted_pos (c : EvClient) : 0 < c.wanted := by
  rw [EvClient.wanted]
  split <;> omega

theorem readTurn_eq {Q : Type} (input : Input Q) (env : Surroundings) (c : EvClient) (q : Q) :
    (readTurn input env c q).map (fun t => (t.1, input.view t.2.1, t.2.2)) =
      if c.status = .running ∧ c.mark = false ∧ c.wanted ≤ (input.view q).length then
        some ((take env c ((input.view q).take c.wanted)).1, (input.view q).drop c.wanted,
          (take env c ((input.view q).take c.wanted)).2) else none := by
  by_cases hrun : c.status = .running ∧ c.mark = false
  · by_cases hlen : c.wanted ≤ (input.view q).length
    · obtain ⟨q', hread, hview⟩ := input.read_eq q c.wanted (input.size_eq q ▸ hlen)
      have hsize : ¬ input.size q < c.wanted := by rw [input.size_eq]; omega
      rw [readTurn, if_pos hrun, if_neg hsize, if_pos ⟨hrun.1, hrun.2, hlen⟩]
      simp [hread, hview]
    · have hsize : input.size q < c.wanted := by rw [input.size_eq]; omega
      rw [readTurn, if_pos hrun, if_pos hsize, if_neg fun h => hlen h.2.2, map_none]
  · rw [readTurn, if_neg hrun, if_neg fun h => hrun ⟨h.1, h.2.1⟩, map_none]

variable (env : Surroundings)

theorem readTurn_queue (c : EvClient) (q : Bytes) : readTurn queueInput env c q =
      if c.status = .running ∧ c.mark = false ∧ c.wanted ≤ q.length then
        some ((take env c (q.take c.wanted)).1, q.drop c.wanted, (take env c (q.take c.wanted)).2)
      else none :=
  map_id'.symm.trans (readTurn_eq queueInput env c q)

def machine (env : Surroundings) : StreamMachine EvClient UInt8 Event where
  step c q := (readTurn queueInput env c q).map fun t => ⟨t.1, t.2.1, t.2.2⟩
  consumes := by
    intro c q p h
    rw [readTurn_queue] at h
    split at h
    · next hcond =>
      have hpos := wanted_pos c
      simp only [Option.map_some, Option.some.injEq] at h
      rw [← h, List.length_drop]
      omega
    · cases h
  stable := by
    intro c q p h more
    rw [readTurn_queue] at h ⊢
    split at h
    · next hcond =>
      obtain ⟨hrun, hmark, hlen⟩ := hcond
      have hcond' : c.status = .running ∧ c.mark = false ∧ c.wanted ≤ (q ++ more).length :=
        ⟨hrun, hmark, by rw [List.length_append]; omega⟩
      simp only [Option.map_some, Option.some.injEq] at h
      rw [if_pos hcond', ← h, List.take_append_of_le_length hlen,
        List.drop_append_of_le_length hlen]
      rfl
    · cases h

theorem machine_step (c : EvClient) (q : Bytes)
    (hrun : c.status = .running) (hmark : c.mark = false) (hlen : c.wanted ≤ q.length) :
    (machine env).step c q = some ⟨(take env c (q.take c.wanted)).1, q.drop c.wanted,
        (take env c (q.take c.wanted)).2⟩ := by
  simp [machine, readTurn_queue, if_pos (And.intro hrun (And.intro hmark hlen))]

theorem machine_step_append (c : EvClient) (bytes rest : Bytes)
    (hrun : c.status = .running) (hmark : c.mark = false) (hlen : bytes.length = c.wanted) :
    (machine env).step c (bytes ++ rest) =
      some ⟨(take env c bytes).1, rest, (take env c bytes).2⟩ := by
  have hstep := machine_step env c (bytes ++ rest) hrun hmark (by simp [← hlen])
  simpa only [← hlen, List.take_left, List.drop_left] using hstep

theorem machine_stuck (c : EvClient) (q : Bytes)
    (h : c.status = .running → c.mark = false → q.length < c.wanted) :
    (machine env).step c q = none := by
  have hnot : ¬ (c.status = .running ∧ c.mark = false ∧ c.wanted ≤ q.length) :=
    fun hc => Nat.not_le.mpr (h hc.1 hc.2.1) hc.2.2
  simp [machine, readTurn_queue, if_neg hnot]

theorem readTurns_drain {Q : Type} (input : Input Q) (env : Surroundings) (fuel : Nat)
    (c : EvClient) (q : Q) (h : input.size q < fuel) : ∃ q', readTurns input env fuel c q =
        (((machine env).drain c (input.view q)).state, q',
          ((machine env).drain c (input.view q)).out) ∧
      input.view q' = ((machine env).drain c (input.view q)).rest := by
  induction fuel generalizing c q with
  | zero => cases h
  | succ fuel ih =>
    have hview := readTurn_eq input env c q
    rw [← readTurn_queue env c (input.view q)] at hview
    cases ht : readTurn input env c q with
    | none =>
      rw [ht, map_none] at hview
      have hstep : (machine env).step c (input.view q) = none := by
        simp [machine, ← hview]
      refine ⟨q, ?_, ?_⟩
      · simp [readTurns, ht, (machine env).drain_of_none hstep]
      · rw [(machine env).drain_of_none hstep]
    | some t =>
      obtain ⟨c₁, q₁, events⟩ := t
      rw [ht, map_some] at hview
      have hstep : (machine env).step c (input.view q) =
          some ⟨c₁, input.view q₁, events⟩ := by
        simp [machine, ← hview]
      have hless : (input.view q₁).length < (input.view q).length := (machine env).consumes hstep
      rw [← input.size_eq, ← input.size_eq] at hless
      obtain ⟨q', hturns, hrest⟩ := ih c₁ q₁ (by omega)
      refine ⟨q', ?_, ?_⟩
      · simp [readTurns, ht, hturns, (machine env).drain_of_some hstep, Progress.andThen]
      · rw [(machine env).drain_of_some hstep, hrest, Progress.andThen]

def idle (seed : UInt8) (order : UInt16) (calls : Nat) : EvClient :=
  ⟨0, false, seed, order, calls, .running⟩

theorem take_idle (seed : UInt8) (order : UInt16) (calls : Nat) (bytes : Bytes) :
    take env (idle seed order calls) bytes = takeHeader (idle seed order calls) bytes := rfl

def EvClient.Halted (c : EvClient) : Prop := c.status ≠ .running ∨ c.mark = true

variable {c : EvClient}

theorem not_halted (h : ¬ c.Halted) : c.status = .running ∧ c.mark = false := by
  simpa [EvClient.Halted] using h

theorem settle_of_halted (h : c.Halted) : c.settle.status ≠ .running := by
  by_cases hc : c.status = .running ∧ c.mark = true
  · simp [EvClient.settle, hc]
  · rw [EvClient.settle, if_neg hc]
    cases h with
    | inl hs => exact hs
    | inr hm => exact fun hrun => hc ⟨hrun, hm⟩

theorem settle_of_live (hmark : c.mark = false) : c.settle = c := by
  simp [EvClient.settle, hmark]

theorem machine_halted (c : EvClient) (q : Bytes) (h : c.Halted) :
    (machine env).step c q = none := by
  refine machine_stuck env c q fun hrun hmark => ?_
  cases h with
  | inl hs => exact absurd hrun hs
  | inr hm => rw [hmark] at hm; cases hm

variable (chunks : List Bytes)

theorem arriveAll_gone (c : EvClient) (b : EvBuffer)
    (h : c.status ≠ .running) : arriveAll env chunks c b = (c, []) := by
  induction chunks generalizing b with
  | nil => rfl
  | cons chunk chunks ih => simp only [arriveAll, arrive, if_neg h, ih, List.append_nil]

theorem arriveAll_feed (c : EvClient) (b : EvBuffer)
    (hrun : c.status = .running) (hmark : c.mark = false) : arriveAll env chunks c b =
      (((machine env).feed chunks c b.contents).state.settle,
        ((machine env).feed chunks c b.contents).out) := by
  induction chunks generalizing c b with
  | nil => rw [arriveAll, StreamMachine.feed, settle_of_live hmark]
  | cons chunk chunks ih =>
    obtain ⟨b', hturns, hrest⟩ := readTurns_drain sessionInput env
      (sessionInput.size (bufferAppend b (DataBuffer.ofChunk chunk)) + 1) c
      (bufferAppend b (DataBuffer.ofChunk chunk)) (Nat.lt_succ_self _)
    have hview : sessionInput.view (bufferAppend b (DataBuffer.ofChunk chunk)) =
        b.contents ++ chunk := by
      simp [sessionInput, contents_bufferAppend, DataBuffer.unread_ofChunk]
    rw [hview] at hturns hrest
    have harrive : arrive env c b chunk =
        (((machine env).drain c (b.contents ++ chunk)).state.settle, b',
          ((machine env).drain c (b.contents ++ chunk)).out) := by
      simp [arrive, if_pos hrun, readComplete, hturns]
    simp only [arriveAll, harrive, StreamMachine.feed, Progress.andThen, ← hrest]
    generalize (machine env).drain c (b.contents ++ chunk) = d at hrest ⊢
    by_cases hhalt : d.state.Halted
    · rw [(machine env).feed_eq_drain chunks _ _ (machine_halted env _ _ hhalt),
        (machine env).drain_of_none (machine_halted env _ _ hhalt),
        arriveAll_gone env chunks _ b' (settle_of_halted hhalt)]
    · obtain ⟨hrun', hmark'⟩ := not_halted hhalt
      rw [settle_of_live hmark', ih d.state b' hrun' hmark']
      rfl

theorem runChunks_drain : runChunks env chunks =
      (((machine env).drain EvClient.fresh chunks.flatten).state.settle,
        ((machine env).drain EvClient.fresh chunks.flatten).out) := by
  have hquiet : (machine env).step EvClient.fresh EvBuffer.empty.contents = none :=
    machine_stuck env _ _ fun _ _ => by decide
  rw [runChunks, arriveAll_feed env chunks _ _ rfl rfl,
    (machine env).feed_eq_drain chunks _ _ hquiet]
  rfl

/-- However the bytes of a peer are cut, the client does what it does when they come at once. -/
theorem runChunks_eq_whole : runChunks env chunks = runChunks env [chunks.flatten] := by
  rw [runChunks_drain, runChunks_drain, List.flatten_singleton]

end EventLua.Client
