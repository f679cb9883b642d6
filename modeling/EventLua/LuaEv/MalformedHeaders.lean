import EventLua.LuaEv.ReadPath

/-!
What `read_complete` does with a header that announces no possible packet. The limit is
checked only behind the wait for the packet, so a length over the limit is an error once the
whole packet is there, and a length below the header, or negative as an `int`, is waited for
without an end. `Upright` walks over the input of a call as the loop does.
-/
namespace EventLua.LuaEv.ReadPath
open List

open EventLua.Session

/-- The announced total is smaller than the header, or its packet is over the limit. -/
def Malformed (header : Header) (total : Nat) : Prop :=
  total < header.size ∨ (total : Int) - header.size > maxPacketSize
deriving Decidable

/-- What is due for a header: an end of the session when it is malformed, and otherwise a
length within the bounds. -/
def Answered (header : Header) (total : Nat) (need : Int) (rejected : Prop) : Prop :=
  if Malformed header total then rejected else 0 ≤ need ∧ need ≤ maxPacketSize

section
variable (closes : Nat → Bool)

/-- The headers that the turns of a call take: what each of them announces, and the `need`
that follows. -/
def headersTaken : Nat → Reader → EvBuffer → List (Nat × Int)
  | 0, _, _ => []
  | fuel + 1, c, b =>
    match readTurn closes c b with
    | none => []
    | some (c', b', _) =>
      if c.state = .head then
        (leNat (b.contents.take c.header.size), c'.need) :: headersTaken fuel c' b'
      else headersTaken fuel c' b'

/-- Every malformed header that a call of `read_complete` takes is reported as an error and
the session destroyed in that call. -/
def CallRejects (c : Reader) (b : EvBuffer) : Prop :=
  ∀ entry ∈ headersTaken closes (rank c b + 1) c b,
    Answered c.header entry.1 entry.2
      (.error ∈ (readComplete closes c b).2.2 ∧
        (readComplete closes c b).1.status = .destroyed)

/-- The input of a call in front of a header: no malformed header is reached, or one whose
packet is too large and already there, and whose length is no negative `int`. -/
def Upright (header : Header) (calls : Nat) (input : Bytes) : Prop :=
  if _ : input.length < header.size ∨ header.size = 0 then True
  else
    let total := leNat (input.take header.size)
    let rest := input.drop header.size
    if Malformed header total then
      header.size ≤ total ∧ total < 2 ^ 31 + header.size ∧ total - header.size ≤ rest.length
    else if rest.length < total - header.size then True
    else closes calls = true ∨ Upright header (calls + 1) (rest.drop (total - header.size))
termination_by input.length
decreasing_by simp only [List.length_drop]; omega

/-- The input of a call in any state of the reader. A packet that is due comes first. -/
def Reader.Upright (c : Reader) (input : Bytes) : Prop :=
  match c.state with
  | .head => ReadPath.Upright closes c.header c.calls input
  | .body =>
    input.length < toUnsigned 64 c.need ∨ c.need > maxPacketSize ∨ closes c.calls = true ∨
      ReadPath.Upright closes c.header (c.calls + 1) (input.drop (toUnsigned 64 c.need))

/-- A property of every call of `read_complete` in a run, of the reader and of the buffer to
which the chunk has been appended. -/
def EveryCall (property : Reader → EvBuffer → Prop) :
    List Bytes → Reader → EvBuffer → Prop
  | [], _, _ => True
  | chunk :: chunks, c, b =>
    (c.status = .running → property c (bufferAppend b (DataBuffer.ofChunk chunk))) ∧
      EveryCall property chunks (arrive closes c b chunk).1 (arrive closes c b chunk).2.1

end

theorem header_le (header : Header) : header.size ≤ 4 := by
  cases header with
  | none | word | dword => decide

theorem need_eq (header : Header) (hnn : 0 ≤ total) (h : total < 2 ^ 32) :
    toSigned 32 (toSigned 32 total - header.size) =
      if total < 2 ^ 31 + header.size then total - header.size
      else total - header.size - 2 ^ 32 := by
  have hsize := header_le header
  simp only [toSigned, Int.bmod]
  omega

theorem total_lt {header : Header} {input : Bytes} (h : header.size ≤ input.length) :
    leNat (input.take header.size) < 2 ^ 32 := by
  have hlt := leNat_lt (input.take header.size)
  rw [length_take, Nat.min_eq_left h] at hlt
  cases header with
  | none | word | dword => exact Nat.lt_of_lt_of_le hlt (by decide)

theorem takeHeader_need (c : Reader) (header : Bytes) : (takeHeader c header).need =
      toSigned 32 (toSigned 32 (leNat header) - (takeHeader c header).header.size) := by
  simp [takeHeader]

theorem wait_eq (h : 0 ≤ n) (hlt : n < 2 ^ 31) : toUnsigned 64 n = n.toNat :=
  toUnsigned_of_range 64 n h (by omega)

theorem wait_negative (h : n < 0) (hge : -2 ^ 33 ≤ n) : 2 ^ 63 ≤ toUnsigned 64 n := by
  have hmod : n % 2 ^ 64 = n + 2 ^ 64 := by omega
  rw [toUnsigned, hmod]
  omega

section
variable (closes : Nat → Bool) {c c' : Reader} {b b' : EvBuffer}

/-- The headers of a call, against the state that its turns end in. -/
def TurnsReject (fuel : Nat) (c : Reader) (b : EvBuffer) : Prop :=
  ∀ entry ∈ headersTaken closes fuel c b,
    Answered c.header entry.1 entry.2 ((readTurns closes fuel c b).1.status = .destroyed)

variable (fuel : Nat)

theorem readTurns_of_none (h : readTurn closes c b = none) :
    readTurns closes fuel c b = (c, b, []) := by
  cases fuel with
  | zero => rfl
  | succ fuel => simp only [readTurns, h]

theorem turnsReject_of_none (h : readTurn closes c b = none) : TurnsReject closes fuel c b := by
  intro entry hentry
  cases fuel with
  | zero => cases hentry
  | succ fuel =>
    simp only [headersTaken, h] at hentry
    cases hentry

theorem turnsReject_header (hstate : c.state = .head)
    (h : readTurn closes c b = some (c', b', events)) (hheader : c'.header = c.header) :
    TurnsReject closes (fuel + 1) c b ↔
      Answered c.header (leNat (b.contents.take c.header.size)) c'.need
          ((readTurns closes fuel c' b').1.status = .destroyed) ∧
        TurnsReject closes fuel c' b' := by
  simp only [TurnsReject, headersTaken, readTurns, h, hstate, if_true, hheader, forall_mem_cons]

theorem turnsReject_packet (hstate : c.state = .body)
    (h : readTurn closes c b = some (c', b', events)) (hheader : c'.header = c.header) :
    TurnsReject closes (fuel + 1) c b ↔ TurnsReject closes fuel c' b' := by
  simp [TurnsReject, headersTaken, readTurns, h, hstate, hheader]

theorem error_iff_destroyed (hrun : c.status = .running) :
    .error ∈ (readTurns closes fuel c b).2.2 ↔
      (readTurns closes fuel c b).1.status = .destroyed := by
  induction fuel generalizing c b with
  | zero => simp [readTurns, hrun]
  | succ fuel ih =>
    cases hturn : readTurn closes c b with
    | none => simp [readTurns, hturn, hrun]
    | some t =>
      obtain ⟨c', b', events⟩ := t
      simp only [readTurns, hturn, mem_append]
      obtain ⟨_, hcases⟩ := readTurn_cases closes hturn
      rcases hcases with ⟨_, _, rfl, _, rfl⟩ | ⟨_, _, _, rfl, rfl, rfl⟩ |
        ⟨_, _, _, rfl, _, rfl⟩
      · simpa using ih (c := takeHeader c (b.contents.take c.header.size)) (b := b') hrun
      · have hhalted : readTurn closes { c with status := .destroyed } b' = none :=
          readTurn_halted closes fun hlive => by cases hlive.1
        rw [readTurns_of_none closes fuel hhalted]
        simp
      · have hrun' : ({ tell closes c with state := .head } : Reader).status = .running := hrun
        simpa using ih hrun'

theorem callRejects_iff (hrun : c.status = .running) (hheader : c.header ≠ .none) :
    CallRejects closes c b ↔ TurnsReject closes (rank c b + 1) c b := by
  have hiff := error_iff_destroyed closes (b := b) (rank c b + 1) hrun
  have hrejected : (.error ∈ (readComplete closes c b).2.2 ∧
      (readComplete closes c b).1.status = .destroyed) ↔
      (readTurns closes (rank c b + 1) c b).1.status = .destroyed := by
    simp only [readComplete, if_neg hheader]
    refine ⟨fun h => hiff.mp h.1, fun h => ⟨hiff.mpr h, ?_⟩⟩
    unfold Reader.settle
    split
    next => rfl
    next => exact h
  simp [CallRejects, TurnsReject, Answered, hrejected]

theorem readTurns_wait (hlive : c.Live) (hstate : c.state = .body)
    (h : b.contents.length < toUnsigned 64 c.need) :
    (readTurns closes fuel c b).1.status ≠ .destroyed ∧ TurnsReject closes fuel c b := by
  have hnone := readTurn_body_wait closes hlive hstate h
  refine ⟨?_, turnsReject_of_none closes fuel hnone⟩
  rw [readTurns_of_none closes fuel hnone, hlive.1]
  simp

theorem readTurns_large (hlive : c.Live) (hstate : c.state = .body)
    (h : toUnsigned 64 c.need ≤ b.contents.length) (hlarge : c.need > maxPacketSize) :
    (readTurns closes (fuel + 1) c b).1.status = .destroyed ∧
      TurnsReject closes (fuel + 1) c b := by
  have hturn := readTurn_large closes hlive hstate h hlarge
  have hhalted : readTurn closes { c with status := .destroyed } b = none :=
    readTurn_halted closes fun hlive => by cases hlive.1
  refine ⟨?_, (turnsReject_packet closes fuel hstate hturn rfl).mpr
    (turnsReject_of_none closes fuel hhalted)⟩
  simp [readTurns, hturn, readTurns_of_none closes fuel hhalted]

theorem turnsReject_behind (hlive : c.Live) (hheader : c.header ≠ .none)
    (hstate : c.state = .body) (h : toUnsigned 64 c.need ≤ b.contents.length)
    (hsmall : ¬ c.need > maxPacketSize) (hfuel : rank c b < fuel + 1) :
    ∃ b', b'.contents = b.contents.drop (toUnsigned 64 c.need) ∧
      rank { tell closes c with state := .head } b' < fuel ∧
      (TurnsReject closes (fuel + 1) c b ↔
        TurnsReject closes fuel { tell closes c with state := .head } b') := by
  obtain ⟨b', hturn, hcontents⟩ := readTurn_packet closes hlive hstate h hsmall
  have hrank := (readTurn_rank closes hheader hturn).2.resolve_left fun hgone => hgone hlive.1
  exact ⟨b', hcontents, by omega, turnsReject_packet closes fuel hstate hturn rfl⟩

theorem readTurn_closed (h : closes c.calls = true) :
    readTurn closes { tell closes c with state := .head } b = none := by
  refine readTurn_halted closes fun hlive => ?_
  have hmark : closes c.calls = false := hlive.2
  rw [h] at hmark
  cases hmark

/-- Behind a malformed header the session ends exactly when the packet is there and its
length is no negative `int`. The way back needs an input that a negative length, taken for a
`size_t`, is never covered by. -/
theorem turns_malformed (hlive : c.Live) (hstate : c.state = .body) {total : Nat}
    (htotal : total < 2 ^ 32) (hneed : c.need = toSigned 32 (toSigned 32 total - c.header.size))
    (hbad : Malformed c.header total) : (c.header.size ≤ total ∧ total < 2 ^ 31 + c.header.size ∧
          total - c.header.size ≤ b.contents.length →
        (readTurns closes (fuel + 1) c b).1.status = .destroyed ∧
          TurnsReject closes (fuel + 1) c b) ∧
      (b.contents.length < 2 ^ 63 → (readTurns closes (fuel + 1) c b).1.status = .destroyed →
        c.header.size ≤ total ∧ total < 2 ^ 31 + c.header.size ∧
          total - c.header.size ≤ b.contents.length) := by
  have hsize := header_le c.header
  rw [need_eq c.header (Int.natCast_nonneg total) (by omega)] at hneed
  by_cases hint : c.header.size ≤ total ∧ total < 2 ^ 31 + c.header.size
  · rw [if_pos (by omega)] at hneed
    have hlarge : c.need > maxPacketSize := by
      rw [hneed]
      exact hbad.resolve_left (by omega)
    have hwait : toUnsigned 64 c.need = total - c.header.size := by
      rw [hneed, wait_eq (by omega) (by omega)]
      omega
    by_cases hthere : total - c.header.size ≤ b.contents.length
    · exact ⟨fun _ => readTurns_large closes fuel hlive hstate (hwait ▸ hthere) hlarge,
        fun _ _ => ⟨hint.1, hint.2, hthere⟩⟩
    · have hstay := readTurns_wait closes (fuel + 1) hlive hstate
        (hwait.symm ▸ Nat.lt_of_not_le hthere)
      exact ⟨fun h => absurd h.2.2 hthere, fun _ h => absurd h hstay.1⟩
  · refine ⟨fun h => absurd ⟨h.1, h.2.1⟩ hint, fun hlen h => ?_⟩
    have hnegative : c.need < 0 ∧ -2 ^ 33 ≤ c.need := by
      rw [hneed]
      by_cases hcond : (total : Int) < 2 ^ 31 + c.header.size
      · rw [if_pos hcond]
        omega
      · rw [if_neg hcond]
        omega
    have hwait := wait_negative hnegative.1 hnegative.2
    have hstay := readTurns_wait closes (fuel + 1) hlive hstate
      (show b.contents.length < toUnsigned 64 c.need by omega)
    exact absurd h hstay.1

theorem need_of_wellFormed {total : Nat} (htotal : total < 2 ^ 32)
    (hneed : c.need = toSigned 32 (toSigned 32 total - c.header.size))
    (hgood : ¬ Malformed c.header total) :
    0 ≤ c.need ∧ c.need ≤ maxPacketSize ∧ toUnsigned 64 c.need = total - c.header.size := by
  obtain ⟨hsmall, hlarge⟩ := not_or.mp hgood
  rw [maxPacketSize] at hlarge ⊢
  rw [need_eq c.header (Int.natCast_nonneg total) (by omega), if_pos (by omega)] at hneed
  refine ⟨by omega, by omega, ?_⟩
  rw [hneed, wait_eq (by omega) (by omega)]
  omega

theorem turnsReject_iff_upright (hlive : c.Live) (hheader : c.header ≠ .none)
    (hstate : c.state = .head) (hfuel : rank c b < fuel) :
    (Upright closes c.header c.calls b.contents → TurnsReject closes fuel c b) ∧
      (b.contents.length < 2 ^ 63 → TurnsReject closes fuel c b →
        Upright closes c.header c.calls b.contents) := by
  induction hn : b.contents.length using Nat.strongRecOn generalizing c b fuel with
  | _ n ih =>
    subst hn
    rw [Upright]
    by_cases hshort : b.contents.length < c.header.size
    · have hnone := readTurn_head_wait closes hlive hstate hshort
      rw [dif_pos (.inl hshort)]
      exact ⟨fun _ => turnsReject_of_none closes fuel hnone, fun _ _ => trivial⟩
    · have hlong := Nat.le_of_not_lt hshort
      have hpos := header_pos hheader
      rw [dif_neg (not_or.mpr ⟨hshort, hpos.ne'⟩)]
      obtain ⟨b₁, hturn, hcontents⟩ := readTurn_header closes hlive hstate hlong
      have hrank := (readTurn_rank closes hheader hturn).2.resolve_left fun hgone => hgone hlive.1
      obtain ⟨fuel, rfl⟩ : ∃ fuel', fuel = fuel' + 1 + 1 := ⟨fuel - 2, by
        simp only [rank, takeHeader, if_true] at hrank hfuel
        omega⟩
      have htotal := total_lt hlong
      have hdrop : b₁.contents.length = b.contents.length - c.header.size := by
        rw [hcontents, length_drop]
      rw [turnsReject_header closes (fuel + 1) hstate hturn rfl, ← hcontents]
      by_cases hbad : Malformed c.header (leNat (b.contents.take c.header.size))
      · rw [Answered, if_pos hbad, if_pos hbad]
        have hend := turns_malformed closes fuel
          (c := takeHeader c (b.contents.take c.header.size)) (b := b₁) hlive rfl htotal
          (takeHeader_need c _) hbad
        exact ⟨hend.1, fun hlen h => hend.2 (by omega) h.1⟩
      · obtain ⟨hnn, hle, hwait⟩ := need_of_wellFormed
          (c := takeHeader c (b.contents.take c.header.size)) htotal (takeHeader_need c _) hbad
        have hanswered : ∀ rejected, Answered c.header
            (leNat (b.contents.take c.header.size))
            (takeHeader c (b.contents.take c.header.size)).need rejected := by
          intro rejected
          rw [Answered, if_neg hbad]
          exact ⟨hnn, hle⟩
        have hsize : (takeHeader c (b.contents.take c.header.size)).header = c.header := rfl
        rw [hsize] at hwait
        rw [if_neg hbad, and_iff_right (hanswered _)]
        by_cases hthere : b₁.contents.length <
            leNat (b.contents.take c.header.size) - c.header.size
        · rw [if_pos hthere]
          have hstay := readTurns_wait closes (fuel + 1)
            (c := takeHeader c (b.contents.take c.header.size)) (b := b₁) hlive rfl
            (hwait.symm ▸ hthere)
          exact ⟨fun _ => hstay.2, fun _ _ => trivial⟩
        · rw [if_neg hthere]
          have hnext := turnsReject_behind closes fuel
            (c := takeHeader c (b.contents.take c.header.size)) (b := b₁) hlive hheader rfl
            (hwait.symm ▸ Nat.le_of_not_lt hthere) (Int.not_lt.mpr hle) (by omega)
          rw [hwait] at hnext
          obtain ⟨b₂, hcontents₂, hfuel₂, hiff⟩ := hnext
          rw [hiff, ← hcontents₂]
          cases hclose : closes c.calls with
          | true =>
            have hhalted := readTurn_closed closes
              (c := takeHeader c (b.contents.take c.header.size)) (b := b₂) hclose
            exact ⟨fun _ => turnsReject_of_none closes fuel hhalted, fun _ _ => .inl rfl⟩
          | false =>
            have hless : b₂.contents.length < b.contents.length := by
              rw [hcontents₂, length_drop]
              omega
            have hwalk := ih b₂.contents.length hless fuel
              (c := { tell closes (takeHeader c (b.contents.take c.header.size)) with
                state := .head }) ⟨hlive.1, hclose⟩ hheader rfl hfuel₂ rfl
            simp only [reduceCtorEq, false_or]
            exact ⟨hwalk.1, fun hlen => hwalk.2 (by omega)⟩

theorem callRejects_iff_upright (hlive : c.Live) (hheader : c.header ≠ .none) :
    (c.Upright closes b.contents → CallRejects closes c b) ∧
      (b.contents.length < 2 ^ 63 → CallRejects closes c b → c.Upright closes b.contents) := by
  rw [callRejects_iff closes hlive.1 hheader, Reader.Upright]
  by_cases hstate : c.state = .head
  · rw [hstate]
    exact turnsReject_iff_upright closes _ hlive hheader hstate (Nat.lt_succ_self _)
  · have hbody := state_body hstate
    rw [hbody]
    by_cases hwait : b.contents.length < toUnsigned 64 c.need
    · have hstay := readTurns_wait closes (rank c b + 1) hlive hbody hwait
      exact ⟨fun _ => hstay.2, fun _ _ => .inl hwait⟩
    · by_cases hlarge : c.need > maxPacketSize
      · have hend := readTurns_large closes (rank c b) hlive hbody (Nat.le_of_not_lt hwait) hlarge
        exact ⟨fun _ => hend.2, fun _ _ => .inr (.inl hlarge)⟩
      · obtain ⟨b', hcontents, hrank, hiff⟩ := turnsReject_behind closes (rank c b) hlive hheader
          hbody (Nat.le_of_not_lt hwait) hlarge (Nat.lt_succ_self _)
        rw [hiff, ← hcontents]
        by_cases hclose : closes c.calls = true
        · exact ⟨fun _ => turnsReject_of_none closes _ (readTurn_closed closes hclose),
            fun _ _ => .inr (.inr (.inl hclose))⟩
        · have hlive' : ({ tell closes c with state := .head } : Reader).Live :=
            ⟨hlive.1, Bool.not_eq_true _ ▸ hclose⟩
          have hless : b'.contents.length ≤ b.contents.length := by
            rw [hcontents, length_drop]
            omega
          have hnext := turnsReject_iff_upright closes (rank c b) hlive' hheader rfl hrank
          refine ⟨fun h => hnext.1 ?_, fun hlen h => .inr (.inr (.inr (hnext.2 (by omega) h)))⟩
          exact ((h.resolve_left hwait).resolve_left hlarge).resolve_left hclose

theorem readTurns_keeps (hheader : c.header ≠ .none) :
    (readTurns closes fuel c b).1.header = c.header ∧
      (readTurns closes fuel c b).2.1.contents.length ≤ b.contents.length := by
  induction fuel generalizing c b with
  | zero => exact ⟨rfl, Nat.le_refl _⟩
  | succ fuel ih =>
    cases hturn : readTurn closes c b with
    | none =>
      rw [readTurns_of_none closes (fuel + 1) hturn]
      exact ⟨rfl, Nat.le_refl _⟩
    | some t =>
      obtain ⟨c', b', events⟩ := t
      have hheader' := (readTurn_rank closes hheader hturn).1
      have hless : b'.contents.length ≤ b.contents.length := by
        obtain ⟨_, hcases⟩ := readTurn_cases closes hturn
        rcases hcases with ⟨_, _, _, hcontents, _⟩ | ⟨_, _, _, _, rfl, _⟩ |
          ⟨_, _, _, _, hcontents, _⟩
        · rw [hcontents, length_drop]
          omega
        · exact Nat.le_refl _
        · rw [hcontents, length_drop]
          omega
      obtain ⟨hkeep, hlen⟩ := ih (c := c') (b := b') (hheader' ▸ hheader)
      simp only [readTurns, hturn]
      exact ⟨hkeep.trans hheader', Nat.le_trans hlen hless⟩

structure Resting (c : Reader) : Prop where
  header : c.header ≠ .none
  live : c.status = .running → c.Live

theorem resting_settle (hheader : c.header ≠ .none) : Resting c.settle := by
  rw [Reader.settle]
  split
  next => exact ⟨hheader, fun hrun => by cases hrun⟩
  next hmark =>
    refine ⟨hheader, fun hrun => ⟨hrun, ?_⟩⟩
    exact Bool.eq_false_iff.mpr fun htrue => hmark ⟨hrun, htrue⟩

theorem resting_arrive (h : Resting c) (chunk : Bytes) : Resting (arrive closes c b chunk).1 ∧
      (arrive closes c b chunk).2.1.contents.length ≤ b.contents.length + chunk.length := by
  by_cases hrun : c.status = .running
  · have hkeeps := readTurns_keeps closes (b := bufferAppend b (DataBuffer.ofChunk chunk))
      (rank c (bufferAppend b (DataBuffer.ofChunk chunk)) + 1) h.header
    rw [contents_bufferAppend, DataBuffer.unread_ofChunk, length_append] at hkeeps
    simp only [arrive, if_pos hrun, readComplete, if_neg h.header]
    exact ⟨resting_settle (hkeeps.1 ▸ h.header), hkeeps.2⟩
  · simp only [arrive, if_neg hrun]
    exact ⟨h, Nat.le_add_right _ _⟩

theorem everyCall_rejects (h : Resting c) (chunks : List Bytes) :
    (EveryCall closes (fun c b => c.Upright closes b.contents) chunks c b →
        EveryCall closes (CallRejects closes) chunks c b) ∧
      (b.contents.length + chunks.flatten.length < 2 ^ 63 →
        EveryCall closes (CallRejects closes) chunks c b →
        EveryCall closes (fun c b => c.Upright closes b.contents) chunks c b) := by
  induction chunks generalizing c b with
  | nil => exact ⟨id, fun _ => id⟩
  | cons chunk chunks ih =>
    obtain ⟨hrest, hlen⟩ := resting_arrive closes (b := b) h chunk
    obtain ⟨hto, hback⟩ := ih (b := (arrive closes c b chunk).2.1) hrest
    have happend : (bufferAppend b (DataBuffer.ofChunk chunk)).contents.length =
        b.contents.length + chunk.length := by
      rw [contents_bufferAppend, DataBuffer.unread_ofChunk, length_append]
    rw [flatten_cons, length_append]
    constructor
    · intro hall
      refine ⟨fun hrun => ?_, hto hall.2⟩
      exact (callRejects_iff_upright closes (h.live hrun) h.header).1 (hall.1 hrun)
    · intro hbound hall
      refine ⟨fun hrun => ?_, hback (by omega) hall.2⟩
      exact (callRejects_iff_upright closes (h.live hrun) h.header).2 (by omega) (hall.1 hrun)

end

/-- Over every stream, every way of splitting it and all answers of the callbacks: malformed
headers are rejected in the call that takes them when every call meets the condition, and,
on streams that a 64-bit machine can hold, only then. -/
theorem headers_rejected_iff (closes : Nat → Bool) (header : Header) (chunks : List Bytes)
    (hheader : header ≠ .none) :
    (EveryCall closes (fun c b => c.Upright closes b.contents) chunks (.fresh header) .empty →
        EveryCall closes (CallRejects closes) chunks (.fresh header) .empty) ∧
      (chunks.flatten.length < 2 ^ 63 →
        EveryCall closes (CallRejects closes) chunks (.fresh header) .empty →
        EveryCall closes (fun c b => c.Upright closes b.contents) chunks (.fresh header)
          .empty) := by
  have hfresh : Resting (Reader.fresh header) := ⟨hheader, fun _ => ⟨rfl, rfl⟩⟩
  have hiff := everyCall_rejects closes (b := EvBuffer.empty) hfresh chunks
  have hempty : EvBuffer.empty.contents.length = 0 := rfl
  rw [hempty, Nat.zero_add] at hiff
  exact hiff

/-- A packet of one byte and the beginning of the next header. -/
theorem packet_not_rejected :
    EveryCall (fun _ => false) (CallRejects fun _ => false) [[3, 0], [7, 5]] (.fresh .word)
      .empty := by
  refine (headers_rejected_iff (fun _ => false) .word [[3, 0], [7, 5]] (by decide)).1 ?_
  have htake : leNat (([3, 0] : Bytes).take Header.word.size) = 3 := rfl
  have hgood : ¬ Malformed .word 3 := by decide
  refine ⟨fun _ => ?_, fun _ => ?_, trivial⟩
  · change Upright _ .word 0 [3, 0]
    rw [Upright, dif_neg (by decide)]
    rw [htake, if_neg hgood, if_pos (by decide)]
    trivial
  · refine .inr (.inr (.inr ?_))
    rw [Upright, dif_pos (by decide)]
    trivial

/-- A header below itself is never answered, on either kind of session, nor is a length that
an `int` takes for a negative number; one over the limit is not answered before its packet. -/
theorem malformed_not_rejected :
    ¬ EveryCall (fun _ => false) (CallRejects fun _ => false) [[1, 0]] (.fresh .word) .empty ∧
      ¬ EveryCall (fun _ => false) (CallRejects fun _ => false) [[0, 0, 0, 0]] (.fresh .dword)
        .empty ∧
      ¬ EveryCall (fun _ => false) (CallRejects fun _ => false) [[0, 0, 0, 255]] (.fresh .dword)
        .empty ∧
      ¬ EveryCall (fun _ => false) (CallRejects fun _ => false) [[5, 0, 0, 1]] (.fresh .dword)
        .empty := by
  have hsilent : ∀ (header : Header) (chunk : Bytes) (entry : Nat × Int),
      entry ∈ headersTaken (fun _ => false)
        (rank (.fresh header) (bufferAppend .empty (DataBuffer.ofChunk chunk)) + 1)
        (.fresh header) (bufferAppend .empty (DataBuffer.ofChunk chunk)) →
      Malformed header entry.1 →
      (readComplete (fun _ => false) (.fresh header)
        (bufferAppend .empty (DataBuffer.ofChunk chunk))).1.status ≠ .destroyed →
      ¬ EveryCall (fun _ => false) (CallRejects fun _ => false) [chunk] (.fresh header)
        .empty := by
    intro header chunk entry hentry hbad hstatus h
    have hanswered := h.1 rfl entry hentry
    rw [Answered, if_pos (show Malformed (Reader.fresh header).header entry.1 from hbad)]
      at hanswered
    exact hstatus hanswered.2
  exact ⟨hsilent .word [1, 0] (1, -1) (by decide +kernel) (by decide) (by decide +kernel),
    hsilent .dword [0, 0, 0, 0] (0, -4) (by decide +kernel) (by decide) (by decide +kernel),
    hsilent .dword [0, 0, 0, 255] (255 * 2 ^ 24, -2 ^ 24 - 4) (by decide +kernel) (by decide)
      (by decide +kernel),
    hsilent .dword [5, 0, 0, 1] (2 ^ 24 + 5, 2 ^ 24 + 1) (by decide +kernel) (by decide)
      (by decide +kernel)⟩

end EventLua.LuaEv.ReadPath
