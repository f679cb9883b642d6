import EventLua.Redis.Popping

/-!
Runs of the collector over chunks that spare its weak points. The values it pops are
then those of the replies on the stream, however the stream is cut.
-/
namespace EventLua.Redis

def collect (p : Strtod) (fuel : Nat) :
    Outcome (Option Value × Collector) → List Value × Outcome Collector
  | .error fault => ([], .error fault)
  | .ok (none, col) => ([], .ok col)
  | .ok (some value, col) => (value :: (popAll p fuel col).1, (popAll p fuel col).2)

variable (p : Strtod)

theorem popAll_succ (fuel : Nat) (col : Collector) :
    popAll p (fuel + 1) col = collect p fuel (pop p col) := by
  rw [popAll]
  rfl

structure Waits (col : Collector) (s : Expecting) (q : Bytes) : Prop where
  holds : Holds col q
  parked : Parked col q s.wanted
  phase : col.phase = phaseOf s
  bounded : s.Bounded
  quiet : token s.wanted q = none

theorem fresh_waits : Waits Collector.fresh .reply [] :=
  ⟨⟨trivial, rfl, rfl⟩, rfl, rfl, trivial, rfl⟩

theorem collect_drain (s : Expecting) (q : Bytes) (col : Collector) (fuel : Nat)
    (h : Holds col q) (hr : Ready col q s.wanted) (hb : s.Bounded) (hfuel : q.length ≤ fuel)
    (hok : ((reader p).drain s q).state ≠ .broken) :
    ∃ col', collect p fuel (resume p s col) = (((reader p).drain s q).out, .ok col') ∧
      Waits col' ((reader p).drain s q).state ((reader p).drain s q).rest := by
  induction s, q using (reader p).drain_induction generalizing col fuel with
  | quiet s q hstep =>
    rw [(reader p).drain_of_none hstep] at hok ⊢
    have hquiet : token s.wanted q = none := Option.map_eq_none_iff.mp hstep
    obtain ⟨col', hresume, hholds, hparked, hphase⟩ := resume_stuck (p := p) h hr hb hquiet hok
    exact ⟨col', by rw [hresume]; rfl, hholds, hparked, hphase, hb, hquiet⟩
  | step s q next hstep ih =>
    obtain ⟨⟨t, rest⟩, ht, rfl⟩ := Option.map_eq_some_iff.mp hstep
    rw [(reader p).drain_of_some hstep] at hok ⊢
    have hshort := token_consumes ht
    have haccept : (accept p s t).1 ≠ .broken := by
      intro hbroken
      simp only [Progress.andThen, hbroken, drain_broken] at hok
      exact hok rfl
    obtain ⟨col', hholds, hfresh, hnext⟩ := resume_step h hr hb ht haccept
    have hbounded := accept_bounded p s t
    simp only [Progress.andThen] at hok ih ⊢
    cases hout : accept p s t with
    | mk s' out =>
      rw [hout] at hnext hbounded hok ih
      cases out with
      | nil =>
        obtain ⟨last, hcollect, hwaits⟩ := ih col' fuel hholds (hfresh.ready _ _) hbounded
          (by omega) hok
        refine ⟨last, ?_, hwaits⟩
        rw [show resume p s col = resume p s' col' from hnext, hcollect]
        rfl
      | cons value values =>
        obtain ⟨hreply, hanswer⟩ := hnext
        obtain ⟨rfl, hvalues⟩ := Prod.mk.inj hreply
        cases fuel with
        | zero => omega
        | succ fuel =>
          obtain ⟨last, hcollect, hwaits⟩ := ih { col' with phase := .begin } fuel
            (hholds.withPhase _) ((hfresh.ready _ _).withPhase _) hbounded (by omega) hok
          refine ⟨last, ?_, hwaits⟩
          have hpop := pop_eq_resume p (s := .reply)
            (show ({ col' with phase := .begin } : Collector).phase = _ from rfl) trivial
          rw [hanswer, collect, popAll_succ, hpop, hcollect, hvalues]
          rfl

variable {s : Expecting}

theorem receive_drain (h : Waits col s q) (hv : s.Visible) (hne : chunk ≠ []) (hz : ZeroSafe chunk)
    (hc : Completes s.wanted q chunk) (hok : ((reader p).drain s (q ++ chunk)).state ≠ .broken) :
    ∃ col', receive p col chunk = (((reader p).drain s (q ++ chunk)).out, .ok col') ∧
      Waits col' ((reader p).drain s (q ++ chunk)).state
        ((reader p).drain s (q ++ chunk)).rest := by
  have hwanted : s.wanted ≠ .nothing := by
    intro hw
    cases s with
    | broken => exact hv
    | _ => cases hw
  obtain ⟨hholds, hready⟩ := push_ready h.holds h.parked h.quiet hwanted hne hz hc
  have hpop : pop p (push col chunk) = resume p s (push col chunk) := pop_eq_resume p h.phase hv
  obtain ⟨col', hcollect, hwaits⟩ := collect_drain p s (q ++ chunk) (push col chunk)
    (push col chunk).total hholds hready h.bounded (Nat.le_of_eq hholds.total.symm) hok
  refine ⟨col', ?_, hwaits⟩
  rw [receive, popAll_succ, hpop, hcollect]

/-- Chunks that the collector copes with, from the place in the stream where the
reader stands: no chunk has a zero byte before its last byte; a line that the last
chunk has cut ends in the next one; and no chunk ends behind the size of an empty text
and before the line end that closes the text. -/
def Gentle (p : Strtod) : Expecting → Bytes → List Bytes → Prop
  | _, _, [] => True
  | s, q, chunk :: chunks =>
    ZeroSafe chunk ∧ Completes s.wanted q chunk ∧
      ((reader p).drain s (q ++ chunk)).state.Visible ∧
      Gentle p ((reader p).drain s (q ++ chunk)).state
        ((reader p).drain s (q ++ chunk)).rest chunks

instance decidableGentle (p : Strtod) :
    (s : Expecting) → (q : Bytes) → (chunks : List Bytes) → Decidable (Gentle p s q chunks)
  | _, _, [] => inferInstanceAs (Decidable True)
  | s, q, chunk :: chunks =>
    have := decidableGentle p ((reader p).drain s (q ++ chunk)).state
      ((reader p).drain s (q ++ chunk)).rest chunks
    inferInstanceAs (Decidable (_ ∧ _))

theorem Expecting.Visible.ne_broken (h : s.Visible) : s ≠ .broken := by
  rintro rfl
  exact h

theorem receiveAll_feed (chunks : List Bytes) (h : Waits col s q) (hv : s.Visible)
    (hne : ∀ c ∈ chunks, c ≠ []) (hg : Gentle p s q chunks) :
    ∃ col', receiveAll p chunks col = (((reader p).feed chunks s q).out, .ok col') ∧
      Waits col' ((reader p).feed chunks s q).state ((reader p).feed chunks s q).rest := by
  induction chunks generalizing col s q with
  | nil => exact ⟨col, rfl, h⟩
  | cons chunk chunks ih =>
    obtain ⟨hz, hc, hvisible, hrest⟩ := hg
    obtain ⟨mid, hreceive, hwaits⟩ := receive_drain p h hv (hne chunk List.mem_cons_self) hz hc
      hvisible.ne_broken
    obtain ⟨col', hall, hwaits'⟩ := ih hwaits hvisible
      (fun c hc => hne c (List.mem_cons_of_mem chunk hc)) hrest
    refine ⟨col', ?_, hwaits'⟩
    simp [receiveAll, hreceive, hall, StreamMachine.feed, Progress.andThen]

/-- The sizes and the totals of a collector are `int`s, which do not hold more than the stream. -/
structure Splits (replies : List Reply) (chunks : List Bytes) : Prop where
  flatten : chunks.flatten = encodeAll replies
  nonempty : ∀ c ∈ chunks, c ≠ []
  short : chunks.flatten.length < 2 ^ 31

theorem receiveAll_gentle
    (hvalid : ∀ r ∈ replies, r.Valid) (h : Splits replies chunks) (hg : Gentle p .reply [] chunks) :
    ∃ col, receiveAll p chunks Collector.fresh = (replies.map (Reply.value p), .ok col) ∧
      Waits col .reply [] := by
  obtain ⟨col, hall, hwaits⟩ := receiveAll_feed p chunks fresh_waits trivial h.nonempty hg
  rw [(reader p).feed_eq_drain chunks .reply [] rfl, List.nil_append, h.flatten,
    drain_encodeAll p replies hvalid] at hall hwaits
  exact ⟨col, hall, hwaits⟩

theorem popped_gentle
    (hvalid : ∀ r ∈ replies, r.Valid) (h : Splits replies chunks) (hg : Gentle p .reply [] chunks) :
    popped p chunks = replies.map (Reply.value p) := by
  obtain ⟨col, hall, -⟩ := receiveAll_gentle p hvalid h hg
  rw [popped, hall]

end EventLua.Redis
