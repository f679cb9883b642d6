import EventLua.Client.ReadMachine

/-!
What a hostile peer can do to the read path. `Tame` walks over the frames of a stream
as the client does and says which streams are handled: the headers zero, one and two
stop the process, and a frame that is too short for checksum, order and id is handed to
`data_func` when the bytes left in `CACHED_BUFFER` complete it.
-/
namespace EventLua.Client
open List

def frameData (env : Surroundings) (calls : Nat) (seed : UInt8) (raw : Bytes) : Bytes :=
  (unscramble seed raw).1 ++ (env.stale calls).drop (unscramble seed raw).1.length

def Accepted (env : Surroundings) (calls : Nat) (seed : UInt8) (order : UInt16)
    (raw : Bytes) : Prop :=
  checksum (unscramble seed raw).1 = 0 ∧
    UInt16.ofNat (halfword (frameData env calls seed raw) 2) = order
deriving Decidable

/-- No header below three is reached, and a frame with a header below eight is
reached only to be rejected. -/
def Tame (env : Surroundings) (calls : Nat) (seed : UInt8) (order : UInt16) (stream : Bytes) :
    Prop :=
  if _ : stream.length < 2 then True
  else
    let header := leNat (stream.take 2)
    let rest := stream.drop 2
    let raw := rest.take (header - 2)
    if header < 3 then False
    else if rest.length < header - 2 then True
    else if Accepted env calls seed order raw then
      8 ≤ header ∧ (env.closes calls = true ∨
        Tame env (calls + 1) (unscramble seed raw).2 (order + 1) (rest.drop (header - 2)))
    else True
termination_by stream.length
decreasing_by simp only [List.length_drop]; omega

/-- No assert fails, and every size handed to `data_func` is `need - 6` without
wrapping around. -/
structure Safe (run : EvClient × List Event) : Prop where
  status : ∀ fault, run.1.status ≠ .faulted fault
  sizes : ∀ id payload need size, Event.data id payload need size ∈ run.2 →
    6 ≤ need ∧ size = need - 6

def SafeFrom (env : Surroundings) (c : EvClient) (stream : Bytes) : Prop :=
  Safe (((machine env).drain c stream).state.settle, ((machine env).drain c stream).out)

theorem takeHeader_small (c : EvClient) {header : Bytes} (h : leNat header < 3) :
    takeHeader c header = ({ c with status := .faulted .aborted }, []) := by
  have hneed : (leNat header : Int) - 2 ≤ 0 := by omega
  simp only [takeHeader, if_pos hneed]

theorem takeHeader_large (c : EvClient) {header : Bytes} (h : ¬ leNat header < 3)
    (hlen : header.length = 2) :
    takeHeader c header = ({ c with need := leNat header - 2 }, []) := by
  have hlt := leNat_lt header
  rw [hlen] at hlt
  have hneed : ¬ (leNat header : Int) - 2 ≤ 0 := by omega
  have hmax : ¬ (leNat header : Int) - 2 > maxSegment := by rw [maxSegment]; omega
  have hnat : ((leNat header : Int) - 2).toNat = leNat header - 2 := by omega
  simp only [takeHeader, if_neg hneed, if_neg hmax, hnat]

theorem takeFrame_rejected (env : Surroundings) (c : EvClient) (raw : Bytes)
    (h : ¬ Accepted env c.calls c.seed c.order raw) : takeFrame env c raw =
      ({ c with seed := (unscramble c.seed raw).2, status := .closed }, [.closed]) := by
  have hbad : checksum (unscramble c.seed raw).1 ≠ 0 ∨
      UInt16.ofNat (halfword (frameData env c.calls c.seed raw) 2) ≠ c.order := by
    rw [← not_and_or]
    exact h
  rw [frameData] at hbad
  simp [takeFrame, if_pos hbad]

theorem takeFrame_accepted (env : Surroundings) (c : EvClient) (raw : Bytes)
    (h : Accepted env c.calls c.seed c.order raw) : ∃ id payload, takeFrame env c raw = ({ c with
          seed := (unscramble c.seed raw).2, order := c.order + 1, mark := env.closes c.calls
          calls := c.calls + 1, need := 0 },
        [.data id payload c.need (toUnsigned 64 ((c.need : Int) - 6))]) := by
  have hgood : ¬ (checksum (unscramble c.seed raw).1 ≠ 0 ∨
      UInt16.ofNat (halfword (frameData env c.calls c.seed raw) 2) ≠ c.order) := by
    rw [← not_and_or, not_not]
    exact h
  rw [frameData] at hgood
  refine ⟨halfword (frameData env c.calls c.seed raw) 4,
    ((frameData env c.calls c.seed raw).drop 6).take (toUnsigned 64 ((c.need : Int) - 6)), ?_⟩
  simp [takeFrame, if_neg hgood, frameData]

section
variable (env : Surroundings)

theorem settle_safe_of_stuck
    (hstuck : (machine env).step c stream = none) (hok : ∀ fault, c.status ≠ .faulted fault) :
    SafeFrom env c stream := by
  rw [SafeFrom, (machine env).drain_of_none hstuck]
  refine ⟨fun fault => ?_, fun _ _ _ _ hmem => by cases hmem⟩
  simp only [EvClient.settle]
  split
  · simp
  · exact hok fault

theorem safeFrom_step (hstep : (machine env).step c stream = some p) : SafeFrom env c stream ↔
      (∀ id payload need size, Event.data id payload need size ∈ p.out →
        6 ≤ need ∧ size = need - 6) ∧ SafeFrom env p.state p.rest := by
  simp only [SafeFrom, (machine env).drain_of_some hstep, Progress.andThen]
  constructor
  · intro h
    refine ⟨?_, h.status, ?_⟩
    · intro id payload need size hmem
      exact h.sizes id payload need size (mem_append_left _ hmem)
    · intro id payload need size hmem
      exact h.sizes id payload need size (mem_append_right _ hmem)
  · rintro ⟨hout, hrest⟩
    refine ⟨hrest.status, fun id payload need size hmem => ?_⟩
    cases mem_append.mp hmem with
    | inl hmem => exact hout id payload need size hmem
    | inr hmem => exact hrest.sizes id payload need size hmem

theorem safeFrom_header (seed : UInt8) (order : UInt16) (calls : Nat) (stream : Bytes)
    (hlen : ¬ stream.length < 2) : SafeFrom env (idle seed order calls) stream ↔
      ¬ leNat (stream.take 2) < 3 ∧
        SafeFrom env { idle seed order calls with need := leNat (stream.take 2) - 2 }
          (stream.drop 2) := by
  have hstep := machine_step env (idle seed order calls) stream rfl rfl (Nat.le_of_not_lt hlen)
  have hwanted : (idle seed order calls).wanted = 2 := rfl
  rw [hwanted, take_idle] at hstep
  rw [safeFrom_step env hstep]
  by_cases hsmall : leNat (stream.take 2) < 3
  · rw [takeHeader_small _ hsmall]
    refine ⟨fun h => ?_, fun h => absurd hsmall h.1⟩
    have hstuck : (machine env).step
        { idle seed order calls with status := .faulted .aborted } (stream.drop 2) = none :=
      machine_halted env _ _ (.inl (by simp))
    have hstatus := h.2.status .aborted
    rw [(machine env).drain_of_none hstuck] at hstatus
    exact absurd rfl hstatus
  · have htwo : (stream.take 2).length = 2 := by rw [length_take]; omega
    rw [takeHeader_large _ hsmall htwo]
    exact ⟨fun h => ⟨hsmall, h.2⟩, fun h => ⟨fun _ _ _ _ hmem => (by cases hmem), h.2⟩⟩

theorem safeFrom_frame (seed : UInt8) (order : UInt16) (calls need : Nat) (rest : Bytes)
    (hneed : 0 < need) (hlt : need < 65536) (hlen : need ≤ rest.length) :
    SafeFrom env { idle seed order calls with need := need } rest ↔
      (Accepted env calls seed order (rest.take need) → 6 ≤ need ∧ (env.closes calls = true ∨
          SafeFrom env (idle (unscramble seed (rest.take need)).2 (order + 1) (calls + 1))
            (rest.drop need))) := by
  let waiting := { idle seed order calls with need := need }
  have hwanted : waiting.wanted = need := if_neg hneed.ne'
  have hstep := machine_step env waiting rest rfl rfl (hwanted.symm ▸ hlen)
  have htake : take env waiting (rest.take need) = takeFrame env waiting (rest.take need) :=
    if_neg hneed.ne'
  rw [hwanted, htake] at hstep
  rw [safeFrom_step env hstep]
  by_cases hacc : Accepted env calls seed order (rest.take need)
  · obtain ⟨id, payload, hframe⟩ := takeFrame_accepted env waiting (rest.take need) hacc
    have hsize : (∀ i p n size, Event.data i p n size ∈
          [Event.data id payload need (toUnsigned 64 ((need : Int) - 6))] →
          6 ≤ n ∧ size = n - 6) ↔ 6 ≤ need := by
      refine ⟨fun h => (h id payload need _ mem_cons_self).1, fun hsix i p n size hmem => ?_⟩
      cases mem_singleton.mp hmem
      refine ⟨hsix, ?_⟩
      rw [toUnsigned_of_range 64 _ (by omega) (by omega)]
      omega
    rw [hframe]
    rw [hsize]
    refine ⟨fun h _ => ⟨h.1, ?_⟩, fun h => ⟨(h hacc).1, ?_⟩⟩
    · cases hclose : env.closes calls with
      | true => exact .inl rfl
      | false => exact .inr (by simpa only [waiting, idle, hclose] using h.2)
    · cases hclose : env.closes calls with
      | true =>
        refine settle_safe_of_stuck env (machine_halted env _ _ (.inr hclose)) fun fault => ?_
        simp [waiting, idle]
      | false =>
        have := (h hacc).2.resolve_left (by simp [hclose])
        simpa only [waiting, idle, hclose] using this
  · rw [takeFrame_rejected env waiting (rest.take need) hacc]
    refine ⟨fun _ h => absurd h hacc, fun _ => ⟨?_, ?_⟩⟩
    · intro _ _ _ _ hmem
      cases mem_singleton.mp hmem
    · exact settle_safe_of_stuck env (machine_halted env _ _ (.inl (by simp))) (by simp)

theorem safeFrom_idle (calls : Nat) (seed : UInt8) (order : UInt16) (stream : Bytes) :
    SafeFrom env (idle seed order calls) stream ↔ Tame env calls seed order stream := by
  induction hn : stream.length using Nat.strongRecOn generalizing calls seed order stream with
  | _ n ih =>
    rw [Tame]
    by_cases hshort : stream.length < 2
    · rw [dif_pos hshort]
      have hstuck := machine_stuck env (idle seed order calls) stream fun _ _ => hshort
      exact iff_of_true (settle_safe_of_stuck env hstuck (by simp [idle])) trivial
    · rw [dif_neg hshort, safeFrom_header env seed order calls stream hshort]
      by_cases hsmall : leNat (stream.take 2) < 3
      · simp only [hsmall, not_true_eq_false, false_and, if_true]
      · have hlt := leNat_lt (stream.take 2)
        rw [length_take, Nat.min_eq_left (Nat.le_of_not_lt hshort)] at hlt
        simp only [hsmall, not_false_eq_true, true_and, if_false]
        by_cases hrest : (stream.drop 2).length < leNat (stream.take 2) - 2
        · rw [if_pos hrest]
          have hstuck := machine_stuck env
            { idle seed order calls with need := leNat (stream.take 2) - 2 } (stream.drop 2)
            fun _ _ => by rw [EvClient.wanted, if_neg (by simp only; omega)]; exact hrest
          exact iff_of_true (settle_safe_of_stuck env hstuck (by simp [idle])) trivial
        · rw [if_neg hrest, safeFrom_frame env seed order calls _ (stream.drop 2) (by omega)
            (by omega) (Nat.le_of_not_lt hrest)]
          by_cases hacc : Accepted env calls seed order
              ((stream.drop 2).take (leNat (stream.take 2) - 2))
          · have hnext := ih _ (by simp only [← hn, length_drop]; omega) (calls + 1)
              (unscramble seed ((stream.drop 2).take (leNat (stream.take 2) - 2))).2 (order + 1)
              ((stream.drop 2).drop (leNat (stream.take 2) - 2)) rfl
            have height : 6 ≤ leNat (stream.take 2) - 2 ↔ 8 ≤ leNat (stream.take 2) := by omega
            simp only [hacc, true_implies, hnext, height, if_true]
          · simp only [hacc, false_implies, if_false]

end

/-- Over every stream, every way of splitting it and all surroundings. -/
theorem readPath_safe_iff (env : Surroundings) (chunks : List Bytes) :
    Safe (runChunks env chunks) ↔ Tame env 0 0 0 chunks.flatten := by
  rw [runChunks_drain]
  exact safeFrom_idle env 0 0 0 chunks.flatten

/-- The header zero runs into `assert(client->need > 0)`, and the four bytes of a
frame of two plain bytes are handed on with a size close to `2 ^ 64`. -/
theorem short_frames_not_safe :
    (runChunks ⟨fun _ => false, fun _ => []⟩ [[0, 0]]).1.status = .faulted .aborted ∧
      (runChunks ⟨fun _ => false, fun _ => []⟩ [[4, 0, 255, 0]]).2 = [.data 0 [] 2 (2 ^ 64 - 4)] ∧
      ¬ Safe (runChunks ⟨fun _ => false, fun _ => []⟩ [[0, 0]]) ∧
      ¬ Safe (runChunks ⟨fun _ => false, fun _ => []⟩ [[4, 0, 255, 0]]) := by
  have hassert : (runChunks ⟨fun _ => false, fun _ => []⟩ [[0, 0]]).1.status =
      .faulted .aborted := by decide +kernel
  have hwrap : (runChunks ⟨fun _ => false, fun _ => []⟩ [[4, 0, 255, 0]]).2 =
      [.data 0 [] 2 (2 ^ 64 - 4)] := by decide +kernel
  refine ⟨hassert, hwrap, fun h => h.status .aborted hassert, fun h => ?_⟩
  have hsizes := h.sizes 0 [] 2 (2 ^ 64 - 4) (by rw [hwrap]; exact mem_cons_self)
  exact absurd hsizes.1 (by decide)

end EventLua.Client
