import EventLua.Foundation.MachineInteger
import EventLua.MinHeap
import Mathlib.Data.Int.Interval
import Mathlib.Tactic.Module

/-!
The path search on a grid. The costs decide which cell the heap gives next and whether a cell that
is open gets another parent; the search is right whatever they decide, so both are parameters.
-/
namespace EventLua.Pathfinder
open List

abbrev Cell := Int × Int

structure Grid where
  width : Nat
  heigh : Nat
  block : Cell → Int

def Grid.Inside (g : Grid) (c : Cell) : Prop :=
  (0 ≤ c.1 ∧ c.1 < g.width) ∧ 0 ≤ c.2 ∧ c.2 < g.heigh
deriving Decidable

def Grid.Free (g : Grid) (c : Cell) : Prop := g.Inside c ∧ g.block c ≠ 0
deriving Decidable

def direction : List Cell :=
  [(-1, 0), (1, 0), (0, -1), (0, 1), (-1, -1), (-1, 1), (1, -1), (1, 1)]

/-- The nodes in the heap, those in the list of closed nodes, the last one first, and the
parents. -/
structure Finder where
  openlist : List Cell
  closelist : List Cell
  parent : Cell → Option Cell

/-- What the costs decide: the place in the heap of the node that `minheap_pop` returns, and
whether the way to an open node by the current one is shorter. -/
structure Costs where
  top : Finder → Nat
  shorter : Finder → Cell → Cell → Bool

def Finder.clean : Finder := ⟨[], [], fun _ => none⟩

def findNeighbors (g : Grid) (f : Finder) (node : Cell) : List Cell :=
  (direction.map (node + ·)).filter fun n => decide (n ∉ f.closelist ∧ g.Free n)

def visit (costs : Costs) (current : Cell) (f : Finder) (node : Cell) : Finder :=
  let parent := Function.update f.parent node (some current)
  if node ∈ f.openlist then
    if costs.shorter f current node then { f with parent := parent } else f
  else { f with openlist := node :: f.openlist, parent := parent }

def close (f : Finder) (current : Cell) : Finder :=
  { f with openlist := f.openlist.erase current, closelist := current :: f.closelist }

def searchLoop (g : Grid) (costs : Costs) (goal : Cell) : Nat → Finder → Option (Bool × Finder)
  | 0, _ => none
  | fuel + 1, f =>
    match f.openlist[costs.top f % f.openlist.length]? with
    | none => some (false, f)
    | some current =>
      let f := close f current
      if current = goal then some (true, f)
      else searchLoop g costs goal fuel
        ((findNeighbors g f current).foldl (visit costs current) f)

/-- The loop of `make_path`: the points that are still emitted behind a step by `d`. -/
def pathLoop (f : Finder) (start : Cell) : Nat → Cell → Cell → Option (List Cell)
  | 0, _, _ => none
  | fuel + 1, d, current =>
    if current ≠ start then
      match f.parent current with
      | some parent =>
        if d ≠ current - parent then
          (pathLoop f start fuel (current - parent) parent).map (current :: ·)
        else pathLoop f start fuel d parent
      | none => some [current]
    else some [current]

def makePath (f : Finder) (start goal : Cell) (fuel : Nat) : Outcome (Option (List Cell)) :=
  match f.parent goal with
  | none => .error .aborted
  | some parent => .ok ((pathLoop f start fuel (goal - parent) parent).map (goal :: ·))

def reset (f : Finder) : Finder :=
  ⟨[], [], fun c => if c ∈ f.openlist ++ f.closelist then none else f.parent c⟩

def finderFind (g : Grid) (costs : Costs) (f : Finder) (start goal : Cell) :
    Outcome (Option (List Cell) × Finder) :=
  if ¬ g.Inside start ∨ ¬ g.Inside goal ∨ start = goal ∨ g.block goal = 0 then
    .ok (none, f)
  else
    let fuel := g.width * g.heigh + 1
    match searchLoop g costs goal fuel { f with openlist := start :: f.openlist } with
    | none => .error .undefined
    | some (false, f) => .ok (none, reset f)
    | some (true, f) => do
      let points ← makePath f start goal fuel
      .ok (points, reset f)

def Step (g : Grid) (c n : Cell) : Prop := n - c ∈ direction ∧ g.Free n

/-- Two points on one row, column or diagonal, with free cells between them. -/
def Straight (g : Grid) (p q : Cell) : Prop :=
  ∃ d ∈ direction, ∃ n : Nat, p = q + (n + 1 : Int) • d ∧
    ∀ k : Nat, 0 < k → k ≤ n → g.Free (q + (k : Int) • d)

section

variable {g : Grid} {costs : Costs} {start goal current : Cell} {f : Finder}

/-- Every closed node but the start was closed after its parent, from which it is a step away. -/
def Chained (g : Grid) (start : Cell) (parent : Cell → Option Cell) : List Cell → Prop
  | [] => True
  | c :: rest =>
    (c = start ∨ ∃ p ∈ rest, parent c = some p ∧ Step g p c) ∧ Chained g start parent rest

structure Inv (g : Grid) (start : Cell) (f : Finder) : Prop where
  chained : Chained g start f.parent f.closelist
  opened : ∀ c ∈ f.openlist, c = start ∨ ∃ p ∈ f.closelist, f.parent c = some p ∧ Step g p c
  nodup : (f.openlist ++ f.closelist).Nodup
  inside : ∀ c ∈ f.openlist ++ f.closelist, g.Inside c
  started : start ∈ f.openlist ++ f.closelist
  parents : ∀ c, f.parent c ≠ none → c ∈ f.openlist ++ f.closelist

def Covered (g : Grid) (f : Finder) (c : Cell) : Prop :=
  ∀ n, Step g c n → n ∈ f.openlist ++ f.closelist

theorem mem_findNeighbors : n ∈ findNeighbors g f current ↔ n ∉ f.closelist ∧ Step g current n := by
  rw [findNeighbors, mem_filter, mem_map, decide_eq_true_iff, Step]
  constructor
  · rintro ⟨⟨d, hd, rfl⟩, hclosed, hfree⟩
    exact ⟨hclosed, by rwa [add_sub_cancel_left], hfree⟩
  · rintro ⟨hclosed, hd, hfree⟩
    exact ⟨⟨_, hd, add_sub_cancel current n⟩, hclosed, hfree⟩

variable {l : List Cell}

theorem Chained.congr (h : Chained g start parent l) (heq : ∀ c ∈ l, parent' c = parent c) :
    Chained g start parent' l := by
  induction l with
  | nil => trivial
  | cons c l ih =>
    refine ⟨?_, ih h.2 fun c' hc' => heq c' (mem_cons_of_mem c hc')⟩
    rw [heq c mem_cons_self]
    exact h.1

theorem Inv.visit (costs : Costs) (h : Inv g start f) (hcurrent : current ∈ f.closelist)
    (hnode : node ∉ f.closelist) (hstep : Step g current node) :
    Inv g start (visit costs current f node) ∧
      (visit costs current f node).closelist = f.closelist ∧
      node ∈ (visit costs current f node).openlist ∧
      ∀ c ∈ f.openlist, c ∈ (visit costs current f node).openlist := by
  have hchained : Chained g start (Function.update f.parent node (some current)) f.closelist :=
    h.chained.congr fun c hc => Function.update_of_ne (ne_of_mem_of_not_mem hc hnode) _ _
  have hopened : ∀ c, c = node ∨ c ∈ f.openlist → c = start ∨ ∃ p ∈ f.closelist,
      Function.update f.parent node (some current) c = some p ∧ Step g p c := by
    intro c hc
    by_cases heq : c = node
    · exact .inr ⟨current, hcurrent, by rw [heq, Function.update_self], heq ▸ hstep⟩
    · rw [Function.update_of_ne heq]
      exact h.opened c (hc.resolve_left heq)
  have hparents : ∀ c, Function.update f.parent node (some current) c ≠ none →
      c = node ∨ c ∈ f.openlist ++ f.closelist := by
    intro c hc
    by_cases heq : c = node
    · exact .inl heq
    · rw [Function.update_of_ne heq] at hc
      exact .inr (h.parents c hc)
  rw [Pathfinder.visit]
  by_cases hopen : node ∈ f.openlist
  · rw [if_pos hopen]
    split
    · refine ⟨⟨hchained, fun c hc => hopened c (.inr hc), h.nodup, h.inside, h.started,
        fun c hc => ?_⟩, rfl, hopen, fun _ hc => hc⟩
      rcases hparents c hc with rfl | hc
      · exact mem_append_left _ hopen
      · exact hc
    · exact ⟨h, rfl, hopen, fun _ hc => hc⟩
  · rw [if_neg hopen]
    refine ⟨⟨hchained, fun c hc => hopened c (mem_cons.mp hc), ?_, ?_, ?_,
      fun c hc => mem_cons.mpr (hparents c hc)⟩, rfl, mem_cons_self,
      fun _ hc => mem_cons_of_mem _ hc⟩
    · exact nodup_cons.mpr ⟨by simp [hopen, hnode], h.nodup⟩
    · intro c hc
      rcases mem_cons.mp hc with rfl | hc
      · exact hstep.2.1
      · exact h.inside c hc
    · exact mem_cons_of_mem _ h.started

theorem Inv.expand (costs : Costs) {nodes : List Cell} (h : Inv g start f)
    (hcurrent : current ∈ f.closelist) (hnodes : ∀ n ∈ nodes, n ∉ f.closelist ∧ Step g current n) :
    Inv g start (nodes.foldl (Pathfinder.visit costs current) f) ∧
      (nodes.foldl (Pathfinder.visit costs current) f).closelist = f.closelist ∧
      ∀ c, c ∈ nodes ∨ c ∈ f.openlist →
        c ∈ (nodes.foldl (Pathfinder.visit costs current) f).openlist := by
  induction nodes generalizing f with
  | nil => exact ⟨h, rfl, fun c hc => hc.resolve_left not_mem_nil⟩
  | cons node nodes ih =>
    obtain ⟨hclosed, hstep⟩ := hnodes node mem_cons_self
    obtain ⟨hinv, hsame, hnode, hkept⟩ := h.visit costs hcurrent hclosed hstep
    obtain ⟨hinv', hsame', hopen'⟩ := ih hinv (hsame ▸ hcurrent) fun n hn =>
      hsame ▸ hnodes n (mem_cons_of_mem node hn)
    refine ⟨hinv', hsame'.trans hsame, fun c hc => hopen' c ?_⟩
    rcases hc with hc | hc
    · rcases mem_cons.mp hc with rfl | hc
      · exact .inr hnode
      · exact .inl hc
    · exact .inr (hkept c hc)

theorem close_perm (hcurrent : current ∈ f.openlist) :
    ((close f current).openlist ++ (close f current).closelist).Perm (f.openlist ++ f.closelist) :=
  perm_middle.trans ((perm_cons_erase hcurrent).symm.append_right f.closelist)

theorem Inv.close (h : Inv g start f) (hcurrent : current ∈ f.openlist) :
    Inv g start (close f current) := by
  have hperm := close_perm hcurrent
  refine ⟨⟨h.opened current hcurrent, h.chained⟩, fun c hc => ?_, hperm.nodup_iff.mpr h.nodup,
    fun c hc => h.inside c (hperm.mem_iff.mp hc), hperm.mem_iff.mpr h.started,
    fun c hc => hperm.mem_iff.mpr (h.parents c hc)⟩
  rcases h.opened c (mem_of_mem_erase hc) with hstart | ⟨p, hp, hparent⟩
  · exact .inl hstart
  · exact .inr ⟨p, mem_cons_of_mem current hp, hparent⟩

theorem Inv.length_le (h : Inv g start f) : f.closelist.length ≤ g.width * g.heigh := by
  have hsub : f.closelist.toFinset ⊆
      Finset.Ico (0 : Int) g.width ×ˢ Finset.Ico (0 : Int) g.heigh := by
    intro c hc
    obtain ⟨hx, hz⟩ := h.inside c (mem_append_right _ (mem_toFinset.mp hc))
    exact Finset.mem_product.mpr ⟨Finset.mem_Ico.mpr hx, Finset.mem_Ico.mpr hz⟩
  have hcard := Finset.card_le_card hsub
  rwa [toFinset_card_of_nodup (nodup_append.mp h.nodup).2.1, Finset.card_product,
    Int.card_Ico, Int.card_Ico, Int.sub_zero, Int.sub_zero, Int.toNat_natCast,
    Int.toNat_natCast] at hcard

theorem Inv.reset (h : Inv g start f) : reset f = .clean := by
  rw [Pathfinder.reset, Finder.clean, Finder.mk.injEq]
  refine ⟨rfl, rfl, funext fun c => ?_⟩
  split
  · rfl
  · next hc => exact not_not.mp (mt (h.parents c) hc)

/-- What the loop comes to: the goal was closed last, or no more cells can be reached. -/
structure Ends (g : Grid) (start goal : Cell) (found : Bool) (f : Finder) : Prop where
  inv : Inv g start f
  reached : found = true → ∃ rest, f.closelist = goal :: rest
  exhausted : found = false → start ∈ f.closelist ∧ goal ∉ f.closelist ∧
    ∀ c ∈ f.closelist, ∀ n, Step g c n → n ∈ f.closelist

theorem searchLoop_ends (costs : Costs) (goal : Cell) (fuel : Nat) (h : Inv g start f)
    (hgoal : goal ∉ f.closelist) (hcovered : ∀ c ∈ f.closelist, Covered g f c)
    (hfuel : g.width * g.heigh < fuel + f.closelist.length) :
    ∃ found f', searchLoop g costs goal fuel f = some (found, f') ∧ Ends g start goal found f' := by
  induction fuel generalizing f with
  | zero => exact absurd h.length_le (by omega)
  | succ fuel ih =>
    rw [searchLoop]
    cases htop : f.openlist[costs.top f % f.openlist.length]? with
    | none =>
      have hempty : f.openlist = [] := by
        rw [getElem?_eq_none_iff] at htop
        by_contra hne
        exact absurd (Nat.mod_lt (costs.top f) (length_pos_of_ne_nil hne)) (by omega)
      have hstarted := h.started
      rw [hempty] at hstarted
      refine ⟨_, _, rfl, h, by simp, fun _ => ⟨hstarted, hgoal, fun c hc n hn => ?_⟩⟩
      have hmem := hcovered c hc n hn
      rwa [hempty] at hmem
    | some current =>
      have hcurrent := mem_of_getElem? htop
      have hclose := h.close hcurrent
      by_cases hfound : current = goal
      · simp only [if_pos hfound]
        exact ⟨_, _, rfl, hclose, fun _ => ⟨f.closelist, by rw [hfound]; rfl⟩, by simp⟩
      · simp only [if_neg hfound]
        obtain ⟨hinv, hsame, hopen⟩ := hclose.expand costs mem_cons_self
          fun n hn => mem_findNeighbors.mp hn
        refine ih hinv ?_ ?_ ?_
        · rw [hsame]
          intro hin
          rcases mem_cons.mp hin with heq | hin
          · exact hfound heq.symm
          · exact hgoal hin
        · intro c hc n hn
          rw [hsame] at hc ⊢
          rcases mem_cons.mp hc with rfl | hc
          · by_cases hclosed : n ∈ (close f c).closelist
            · exact mem_append_right _ hclosed
            · exact mem_append_left _ (hopen n (.inl (mem_findNeighbors.mpr ⟨hclosed, hn⟩)))
          · have hknown := (close_perm hcurrent).mem_iff.mpr (hcovered c hc n hn)
            rcases mem_append.mp hknown with hopened | hclosed
            · exact mem_append_left _ (hopen n (.inr hopened))
            · exact mem_append_right _ hclosed
        · rw [hsame]
          have hlen : (close f current).closelist.length = f.closelist.length + 1 := rfl
          omega

theorem Chained.reaches (h : Chained g start parent l) (hc : c ∈ l) :
    Relation.ReflTransGen (Step g) start c := by
  induction l generalizing c with
  | nil => cases hc
  | cons c' l ih =>
    rcases mem_cons.mp hc with rfl | hc
    · rcases h.1 with rfl | ⟨p, hp, -, hstep⟩
      · exact .refl
      · exact (ih h.2 hp).tail hstep
    · exact ih h.2 hc

theorem pathLoop_spec {fuel n : Nat} (h : Chained g start f.parent l) (hcurrent : current ∈ l)
    (hfuel : l.length ≤ fuel) (hd : d ∈ direction) (he : e = current + (n + 1 : Int) • d)
    (hfree : ∀ k : Nat, 0 < k → k ≤ n → g.Free (current + (k : Int) • d)) :
    ∃ path, pathLoop f start fuel d current = some path ∧
      (e :: path).IsChain (Straight g) ∧ path.getLast? = some start := by
  induction l generalizing fuel n d e current with
  | nil => cases hcurrent
  | cons c l ih =>
    have hstraight : Straight g e current := ⟨d, hd, n, he, hfree⟩
    rcases mem_cons.mp hcurrent with rfl | hin
    · obtain ⟨fuel, rfl⟩ : ∃ m, fuel = m + 1 := ⟨fuel - 1, by simp at hfuel; omega⟩
      rw [length_cons, Nat.add_le_add_iff_right] at hfuel
      rw [pathLoop]
      by_cases hstart : current = start
      · rw [if_neg (not_not.mpr hstart)]
        exact ⟨_, rfl, by simpa using hstraight, by rw [hstart]; rfl⟩
      rw [if_pos hstart]
      obtain ⟨p, hp, hparent, hdir, hfreeCurrent⟩ := h.1.resolve_left hstart
      rw [hparent]
      by_cases hturn : d = current - p
      · -- The step goes on in the same direction.
        have hcell : current = p + d := by rw [hturn, add_sub_cancel]
        obtain ⟨path, hpath, hchain, hlast⟩ := ih (n := n + 1) (e := e) h.2 hp hfuel hd
          (by rw [he, hcell]; push_cast; module) (fun k hpos hk => by
            obtain ⟨k, rfl⟩ : ∃ m, k = m + 1 := ⟨k - 1, by omega⟩
            have hnext : p + ((k + 1 : Nat) : Int) • d = current + (k : Int) • d := by
              rw [hcell]
              push_cast
              module
            rw [hnext]
            rcases Nat.eq_zero_or_pos k with rfl | hkpos
            · simpa using hfreeCurrent
            · exact hfree k hkpos (by omega))
        exact ⟨path, by simpa [hturn] using hpath, hchain, hlast⟩
      · obtain ⟨path, hpath, hchain, hlast⟩ := ih (n := 0) (e := current) h.2 hp hfuel hdir
          (by push_cast; module) (fun k hpos hk => by omega)
        refine ⟨current :: path, by simp [hturn, hpath], ?_, ?_⟩
        · exact hchain.cons_cons hstraight
        · rw [getLast?_cons, hlast]
          rfl
    · exact ih h.2 hin (by simp at hfuel; omega) hd he hfree

structure Correct (g : Grid) (start goal : Cell) (r : Option (List Cell)) : Prop where
  found : r.isSome ↔ start ≠ goal ∧ Relation.ReflTransGen (Step g) start goal
  points : ∀ points ∈ r, points.head? = some goal ∧ points.getLast? = some start ∧
    points.IsChain (Straight g)

theorem initial_inv (hstart : g.Inside start) :
    Inv g start { Finder.clean with openlist := [start] } where
  chained := trivial
  opened _ hc := .inl (mem_singleton.mp hc)
  nodup := nodup_singleton start
  inside _ hc := mem_singleton.mp hc ▸ hstart
  started := mem_singleton_self start
  parents _ hc := absurd rfl hc

theorem not_reaches (hstart : start ∈ l) (hgoal : goal ∉ l)
    (hclosed : ∀ c ∈ l, ∀ n, Step g c n → n ∈ l) : ¬ Relation.ReflTransGen (Step g) start goal := by
  intro hreach
  refine hgoal ?_
  induction hreach with
  | refl => exact hstart
  | @tail c n _ hstep ih =>
    by_cases hc : c ∈ l
    · exact hclosed c hc n hstep
    · exact absurd (ih hc) hc

theorem makePath_correct (h : Inv g start f) (hne : start ≠ goal)
    (hclosed : f.closelist = goal :: rest) :
    ∃ points, makePath f start goal (g.width * g.heigh + 1) = .ok (some points) ∧
      Correct g start goal (some points) := by
  have hchained := h.chained
  have hlength := h.length_le
  rw [hclosed] at hchained hlength
  obtain ⟨p, hp, hparent, hdir, -⟩ := hchained.1.resolve_left hne.symm
  rw [length_cons] at hlength
  obtain ⟨path, hpath, hchain, hlast⟩ := pathLoop_spec (n := 0) (e := goal) hchained.2 hp
    (show rest.length ≤ g.width * g.heigh + 1 by omega) hdir (by push_cast; module)
    (fun k hpos hk => by omega)
  refine ⟨goal :: path, by rw [makePath, hparent]; simp [hpath], ?_, ?_⟩
  · exact iff_of_true rfl ⟨hne, hchained.reaches mem_cons_self⟩
  · intro points hpoints
    cases hpoints
    exact ⟨rfl, by rw [getLast?_cons, hlast]; rfl, hchain⟩

/-- The search is sound and complete, what it emits is a way from the goal to the start, whatever
the costs are, and it leaves the finder as it was. -/
theorem finderFind_correct (costs : Costs) (hstart : g.Inside start) (hgoal : g.Inside goal) :
    ∃ r, finderFind g costs .clean start goal = .ok (r, .clean) ∧ Correct g start goal r := by
  rw [finderFind]
  by_cases htrivial : ¬ g.Inside start ∨ ¬ g.Inside goal ∨ start = goal ∨ g.block goal = 0
  · rw [if_pos htrivial]
    refine ⟨none, rfl, iff_of_false (by simp) ?_, by simp⟩
    rintro ⟨hne, hreach⟩
    obtain heq | ⟨c, -, hstep⟩ := hreach.cases_tail
    · exact hne heq.symm
    · rcases htrivial with h | h | h | h
      · exact h hstart
      · exact h hgoal
      · exact hne h
      · exact hstep.2.2 h
  · rw [if_neg htrivial]
    push Not at htrivial
    obtain ⟨found, f, hloop, hends⟩ := searchLoop_ends costs goal (g.width * g.heigh + 1)
      (initial_inv hstart) not_mem_nil (fun c hc => absurd hc not_mem_nil)
      (Nat.lt_succ_self _)
    rw [Finder.clean] at hloop ⊢
    simp only [hloop]
    cases found with
    | false =>
      obtain ⟨hclosed, hmissing, hsteps⟩ := hends.exhausted rfl
      have hreset : (Except.ok (none, reset f) : Outcome (Option (List Cell) × Finder)) =
          .ok (none, .clean) := by rw [hends.inv.reset]
      refine ⟨none, hreset, iff_of_false (by simp) ?_, by simp⟩
      exact fun h => not_reaches hclosed hmissing hsteps h.2
    | true =>
      obtain ⟨rest, hclosed⟩ := hends.reached rfl
      obtain ⟨points, hpath, hcorrect⟩ := makePath_correct hends.inv htrivial.2.2.1 hclosed
      exact ⟨some points, by simp only [hpath, Outcome.ok_bind, hends.inv.reset]; rfl, hcorrect⟩

def walled : Grid := ⟨3, 3, fun c => if c.1 = 1 then c.2 / 2 else 1⟩

theorem walled_correct : ∃ r,
    finderFind walled ⟨fun _ => 0, fun _ _ _ => false⟩ .clean (0, 0) (2, 0) = .ok (r, .clean) ∧
      Correct walled (0, 0) (2, 0) r :=
  finderFind_correct _ (by decide) (by decide)

open MinHeap
variable {κ : Type} {o : Less κ} {w : World Cell κ}

/-- The heap that holds the open nodes. -/
def HeapOf (w : World Cell κ) (f : Finder) : Prop := ∀ c, c ∈ w.held ↔ c ∈ f.openlist

/-- What the heap pops is one of the choices of `Costs.top`. -/
theorem HeapOf.top (h : HeapOf w f) (hq : PriorityQueue o w) : ∃ top,
    f.openlist[top % f.openlist.length]? = (minheapPop (w.less o) w.heap).1 := by
  cases hpop : (minheapPop (w.less o) w.heap).1 with
  | none =>
    have hempty : f.openlist = [] := eq_nil_iff_forall_not_mem.mpr fun c hc => by
      simpa [hq.empty.mp hpop] using (h c).mpr hc
    exact ⟨0, by rw [hempty]; rfl⟩
  | some c =>
    obtain ⟨i, hi, hc⟩ := getElem_of_mem ((h c).mp (hq.pops c hpop).1)
    exact ⟨i, by rw [Nat.mod_eq_of_lt hi, getElem?_eq_getElem hi, hc]⟩

theorem HeapOf.close (h : HeapOf w f) (hnodup : f.openlist.Nodup)
    (hpop : (minheapPop (w.less o) w.heap).1 = some current) :
    ∃ w', step o w .pop = some w' ∧ HeapOf w' (close f current) := by
  refine ⟨_, by rw [step], fun c => ?_⟩
  simp [Pathfinder.close, hpop, hnodup.mem_erase_iff, h c, and_comm]

theorem HeapOf.visit (h : HeapOf w f) (key : κ) (hnode : node ∉ f.openlist) :
    ∃ w', step o w (.push node key) = some w' ∧ HeapOf w' (visit costs current f node) := by
  refine ⟨_, by rw [step], fun c => ?_⟩
  simp [Pathfinder.visit, hnode, h c]

end

end EventLua.Pathfinder
