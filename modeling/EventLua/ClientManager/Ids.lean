import EventLua.ClientManager.Model

/-!
Ids that come back. As long as the counter times the offset fits into an `int`, the id that
`accept_func` was given leads back to its client while the client is there, and to none
afterwards.
-/
namespace EventLua.ClientManager
open List Option

section

theorem lt_ten_pow_digits (fuel n : Nat) (h : n < 10 ^ fuel) : n < 10 ^ digits fuel n := by
  induction fuel generalizing n with
  | zero => simpa [digits] using h
  | succ fuel ih =>
    unfold digits
    by_cases hn : 0 < n
    · have hdiv : n / 10 < 10 ^ fuel := by
        omega
      have := ih _ hdiv
      rw [if_pos hn, Nat.pow_succ]
      omega
    · rw [if_neg hn]
      omega

theorem toSigned_lt (n : Int) : -2 ^ 31 ≤ toSigned 32 n ∧ toSigned 32 n < 2 ^ 31 := by
  have hlo := Int.le_bmod (x := n) (m := 2 ^ 32) (by decide)
  have hhi := Int.bmod_lt (x := n) (m := 2 ^ 32) (by decide)
  unfold toSigned
  omega

theorem toSigned_le {n : Nat} : toSigned 32 n ≤ n := by
  unfold toSigned Int.bmod
  dsimp only
  split <;> omega

theorem toSigned_nat {n : Nat} (h : n < 2 ^ 31) : toSigned 32 n = n :=
  toSigned_of_range 31 n (by omega) (by omega)

theorem lt_of_survives {n : Nat} (h : toUnsigned 64 (toSigned 32 n) = n)
    (hn : n < 2 ^ 64 - 2 ^ 31) : n < 2 ^ 31 := by
  have hrange := toSigned_lt n
  unfold toUnsigned at h
  omega

end

def Live (w : World) (n : Nat) : Prop :=
  ∃ slot client, w.manager.container.mgr slot = some client ∧ client.serial = n

def Resolvable (w : World) : Prop :=
  ∀ n id, (n, id) ∈ w.reported →
    (Live w n → ∃ client, resolve w.manager id = some client ∧ client.serial = n) ∧
      ∀ client, resolve w.manager id = some client → client.serial = n

def FitsInt (w : World) : Action → Prop
  | .accept => ∀ slot ∈ w.manager.container.free.head?,
      w.manager.index * w.manager.maxOffset + slot < 2 ^ 31
  | .close _ => True

instance (w : World) (a : Action) : Decidable (FitsInt w a) := by
  cases a <;> unfold FitsInt <;> infer_instance

structure Intact (w : World) : Prop where
  valid : w.manager.container.Valid
  size : w.manager.container.size ≤ w.manager.maxOffset
  size_lt : w.manager.container.size < 2 ^ 31
  offset : 10 ≤ w.manager.maxOffset ∧ w.manager.maxOffset ≤ 10 ^ 19
  index : 1 ≤ w.manager.index ∧
    (w.manager.index = 1 ∨ (w.manager.index - 1) * w.manager.maxOffset < 2 ^ 31)
  clients : ∀ slot client, w.manager.container.mgr slot = some client →
    client.id % w.manager.maxOffset = slot ∧ (client.serial, (client.id : Int)) ∈ w.reported
  ids : ∀ n id, (n, id) ∈ w.reported → n < w.reported.length ∧ ∃ v : Nat, id = v ∧ v < 2 ^ 31 ∧
    v / w.manager.maxOffset < w.manager.index
  serial : ∀ n id id', (n, id) ∈ w.reported → (n, id') ∈ w.reported → id = id'
  unique : ∀ n n' id, (n, id) ∈ w.reported → (n', id) ∈ w.reported → n = n'

theorem sub_div_mul (id offset : Nat) : id - id / offset * offset = id % offset := by
  have := Nat.div_add_mod id offset
  rw [Nat.mul_comm] at this
  omega

variable {m : Manager}

theorem getClient_eq_some {id : Nat} : getClient m id = some client ↔
      m.container.get (toSigned 32 (id % m.maxOffset : Nat)) = some client ∧ client.id = id := by
  simp only [getClient, sub_div_mul, bind_eq_bind, bind_eq_some_iff]
  constructor
  · rintro ⟨found, hfound, hid⟩
    split at hid
    · cases hid
    · next hne =>
      cases hid
      exact ⟨hfound, not_not.mp hne⟩
  · rintro ⟨hfound, hid⟩
    exact ⟨client, hfound, by rw [if_neg (not_not.mpr hid)]⟩

theorem Intact.resolve_iff {w : World} (h : Intact w) {v : Nat} (hv : v < 2 ^ 31) :
    resolve w.manager v = some client ↔
      w.manager.container.mgr (v % w.manager.maxOffset) = some client ∧ client.id = v := by
  have hunsigned : toUnsigned 64 (v : Int) = v := by
    rw [toUnsigned_of_range 64 v (Int.natCast_nonneg v) (by omega), Int.toNat_natCast]
  have hslot : v % w.manager.maxOffset < 2 ^ 31 := (Nat.mod_le _ _).trans_lt hv
  rw [resolve, hunsigned, getClient_eq_some, toSigned_nat hslot, Container.get, Int.toNat_natCast]
  refine and_congr_left fun _ => ?_
  split
  · next hout =>
    refine ⟨fun hnone => (by cases hnone), fun hsome => ?_⟩
    have := h.valid.used _ _ hsome
    omega
  · exact Iff.rfl

theorem Intact.resolvable {w : World} (h : Intact w) : Resolvable w := by
  intro n id hmem
  obtain ⟨-, v, rfl, hv, -⟩ := h.ids n id hmem
  constructor
  · rintro ⟨slot, client, hclient, rfl⟩
    obtain ⟨hslot, hrep⟩ := h.clients slot client hclient
    obtain hid : (client.id : Int) = v := h.serial _ _ _ hrep hmem
    have hid : client.id = v := Int.ofNat.inj hid
    refine ⟨client, (h.resolve_iff hv).mpr ⟨?_, hid⟩, rfl⟩
    rw [← hid, hslot]
    exact hclient
  · intro client hresolve
    obtain ⟨hclient, hid⟩ := (h.resolve_iff hv).mp hresolve
    obtain ⟨-, hrep⟩ := h.clients _ client hclient
    rw [hid] at hrep
    exact h.unique _ _ _ hrep hmem

section

theorem accept_cases (w : World) : (w.manager.container.free = [] ∧ accept w = w) ∨
      ∃ slot rest container, w.manager.container.free = slot :: rest ∧ w.manager.container.add
            ⟨(w.manager.index * w.manager.maxOffset + slot) % 2 ^ 64, w.reported.length⟩ =
          some (slot, container) ∧ accept w =
          { manager := { w.manager with container, index := (w.manager.index + 1) % 2 ^ 32 }
            reported := (w.reported.length,
              toSigned 32 ((w.manager.index * w.manager.maxOffset + slot) % 2 ^ 64 : Nat)) ::
                w.reported } := by
  cases hfree : w.manager.container.free with
  | nil =>
    left
    simp [accept, acceptClient, hfree]
  | cons slot rest =>
    right
    obtain ⟨container, hadd⟩ : ∃ container, w.manager.container.add
        ⟨(w.manager.index * w.manager.maxOffset + slot) % 2 ^ 64, w.reported.length⟩ =
          some (slot, container) := by
      simp only [Container.add, hfree]
      exact ⟨_, rfl⟩
    exact ⟨slot, rest, container, rfl, hadd, by simp only [accept, acceptClient, hfree, hadd]⟩

theorem Intact.next_lt {w : World} (h : Intact w) {slot : Nat}
    (hslot : slot < w.manager.container.size) :
    w.manager.index * w.manager.maxOffset + slot < 2 ^ 64 - 2 ^ 31 := by
  have hsize := h.size_lt
  obtain ⟨-, hoffset⟩ := h.offset
  obtain ⟨hindex, hfirst | hlater⟩ := h.index
  · rw [hfirst]
    omega
  · obtain ⟨k, hk⟩ : ∃ k, w.manager.index = k + 1 := ⟨w.manager.index - 1, by omega⟩
    rw [hk] at hlater ⊢
    rw [Nat.add_sub_cancel] at hlater
    rw [Nat.add_mul]
    omega

theorem next_index (hoffset : 10 ≤ offset) (hslot : slot < offset)
    (hfits : index * offset + slot < 2 ^ 31) :
    (index + 1) % 2 ^ 32 = index + 1 ∧ (index * offset + slot) % 2 ^ 64 = index * offset + slot ∧
      (index * offset + slot) / offset = index ∧ (index * offset + slot) % offset = slot := by
  have hle : index ≤ index * offset := Nat.le_mul_of_pos_right _ (by omega)
  refine ⟨Nat.mod_eq_of_lt (by omega), Nat.mod_eq_of_lt (by omega), ?_, ?_⟩
  · rw [Nat.mul_comm, Nat.mul_add_div (by omega), Nat.div_eq_of_lt hslot, Nat.add_zero]
  · rw [Nat.mul_comm, Nat.mul_add_mod, Nat.mod_eq_of_lt hslot]

theorem Intact.accept {w : World} (h : Intact w) (hfits : FitsInt w .accept) :
    Intact (accept w) := by
  rcases accept_cases w with ⟨-, heq⟩ | ⟨slot, rest, container, hfree, hadd, heq⟩
  · rw [heq]
    exact h
  obtain ⟨hvalid, hslot, hnone⟩ := h.valid.add hadd
  obtain ⟨rest', -, hcontainer⟩ := Container.add_eq_some hadd
  have hv : w.manager.index * w.manager.maxOffset + slot < 2 ^ 31 := hfits slot (by simp [hfree])
  obtain ⟨hindex, hid, hdiv, hmod⟩ := next_index h.offset.1 (hslot.trans_le h.size) hv
  rw [hid] at heq hcontainer
  rw [hindex, toSigned_nat hv] at heq
  rw [heq]
  -- the new id is above all ids so far
  have hfresh : ∀ n, (n, ((w.manager.index * w.manager.maxOffset + slot : Nat) : Int)) ∉
      w.reported := by
    intro n hmem
    obtain ⟨-, v, hveq, -, hlt⟩ := h.ids n _ hmem
    rw [← Int.ofNat.inj hveq, hdiv] at hlt
    exact absurd hlt (Nat.lt_irrefl _)
  have hnew : ∀ id, (w.reported.length, id) ∉ w.reported := fun id hmem =>
    absurd (h.ids _ _ hmem).1 (Nat.lt_irrefl _)
  have hsize : container.size = w.manager.container.size := by rw [hcontainer]
  refine ⟨hvalid, hsize ▸ h.size, hsize ▸ h.size_lt, h.offset, ⟨by simp, Or.inr ?_⟩,
    fun j client hj => ?_, fun n id hmem => ?_, fun n id id' hmem hmem' => ?_,
    fun n n' id hmem hmem' => ?_⟩
  · simp only [Nat.add_sub_cancel]
    omega
  · simp only [hcontainer] at hj
    by_cases hji : j = slot
    · rw [if_pos hji] at hj
      cases hj
      exact ⟨hmod.trans hji.symm, mem_cons_self⟩
    · rw [if_neg hji] at hj
      obtain ⟨hs, hrep⟩ := h.clients j client hj
      exact ⟨hs, mem_cons_of_mem _ hrep⟩
  · rcases mem_cons.mp hmem with heq | hmem
    · cases heq
      exact ⟨by simp, _, rfl, hv, by simp only [hdiv]; omega⟩
    · obtain ⟨hlt, v, rfl, hv31, hk⟩ := h.ids n id hmem
      exact ⟨by simp only [length_cons]; omega, v, rfl, hv31, by simp only []; omega⟩
  · rcases mem_cons.mp hmem with heq | hmem
    · cases heq
      rcases mem_cons.mp hmem' with heq' | hmem'
      · cases heq'
        rfl
      · exact absurd hmem' (hnew id')
    · rcases mem_cons.mp hmem' with heq' | hmem'
      · cases heq'
        exact absurd hmem (hnew id)
      · exact h.serial n id id' hmem hmem'
  · rcases mem_cons.mp hmem with heq | hmem
    · cases heq
      rcases mem_cons.mp hmem' with heq' | hmem'
      · cases heq'
        rfl
      · exact absurd hmem' (hfresh n')
    · rcases mem_cons.mp hmem' with heq' | hmem'
      · cases heq'
        exact absurd hmem (hfresh n)
      · exact h.unique n n' id hmem hmem'

theorem Intact.accept_lost {w : World} (h : Intact w) (hfits : ¬ FitsInt w .accept) :
    ¬ Resolvable (ClientManager.accept w) := by
  rcases accept_cases w with ⟨hnil, -⟩ | ⟨slot, rest, container, hfree, hadd, heq⟩
  · exact absurd (fun slot hslot => by simp [hnil] at hslot) hfits
  obtain ⟨-, hslot, -⟩ := h.valid.add hadd
  obtain ⟨rest', -, hcontainer⟩ := Container.add_eq_some hadd
  have hbound := h.next_lt hslot
  have hid : (w.manager.index * w.manager.maxOffset + slot) % 2 ^ 64 =
      w.manager.index * w.manager.maxOffset + slot := Nat.mod_eq_of_lt (by omega)
  rw [hid] at heq hcontainer
  intro hresolvable
  rw [heq] at hresolvable
  obtain ⟨client, hresolve, hserial⟩ := (hresolvable _ _ mem_cons_self).1
    ⟨slot, ⟨_, _⟩, by rw [hcontainer]; exact if_pos rfl, rfl⟩
  obtain ⟨hget, hclient⟩ := getClient_eq_some.mp hresolve
  -- the client with the new number is the new client
  have hnew : client.id = w.manager.index * w.manager.maxOffset + slot := by
    rw [hcontainer, Container.get] at hget
    split at hget
    · cases hget
    · simp only [] at hget
      split at hget
      · cases hget
        rfl
      · have hold := (h.ids _ _ (h.clients _ client hget).2).1
        rw [hserial] at hold
        exact absurd hold (Nat.lt_irrefl _)
  have hsurvives := lt_of_survives (hclient.symm.trans hnew) hbound
  refine hfits fun slot' hslot' => ?_
  rw [hfree] at hslot'
  cases hslot'
  exact hsurvives

end

theorem Intact.close {w : World} (h : Intact w)
    (hslot : w.manager.container.mgr slot = some client) :
    ∃ m, closeClient w.manager client = .ok m ∧ Intact { w with manager := m } ∧
      m.container.free = slot :: w.manager.container.free ∧ m.index = w.manager.index ∧
      m.maxOffset = w.manager.maxOffset := by
  obtain ⟨hmod, hrep⟩ := h.clients slot client hslot
  have hlt := h.valid.used slot client hslot
  have hsmall := h.size_lt
  obtain ⟨container, hremove, hvalid, hsize, hfree, hmgr⟩ := h.valid.remove hslot
  refine ⟨{ w.manager with container }, ?_, ⟨hvalid, hsize ▸ h.size, hsize ▸ h.size_lt, h.offset,
    h.index, fun j c hj => ?_, h.ids, h.serial, h.unique⟩, hfree, rfl, rfl⟩
  · simp only [closeClient, sub_div_mul, hmod, toSigned_nat (show slot < 2 ^ 31 by omega), hremove,
      Outcome.ok_bind]
    rfl
  · simp only [hmgr] at hj
    split at hj
    · cases hj
    · exact h.clients j c hj

theorem create_intact {max : Nat} (hmax : max < 2 ^ 64)
    (h : clientManagerCreate max = .ok m) : Intact { manager := m, reported := [] } := by
  simp only [clientManagerCreate, Outcome.bind_eq_ok] at h
  obtain ⟨container, hcreate, h⟩ := h
  obtain ⟨hvalid, hsize, hmgr⟩ := Container.create_valid hcreate
  have hrange := toSigned_lt max
  have hle := toSigned_le (n := max)
  have hdigits := lt_ten_pow_digits 20 max (by omega)
  have hpos : 0 < max := by
    unfold Container.create at hcreate
    split at hcreate
    · cases hcreate
    · omega
  split at h
  · next hpow =>
    cases h
    refine ⟨hvalid, ?_, ?_, ⟨?_, ?_⟩, ⟨le_refl _, Or.inl rfl⟩, fun slot client hs => ?_,
      fun n id hmem => ?_, fun n id id' hmem => ?_, fun n n' id hmem => ?_⟩
    · simp only []
      omega
    · simp only []
      omega
    · have hone : digits 20 max = digits 19 (max / 10) + 1 := if_pos hpos
      have : 0 < 10 ^ digits 19 (max / 10) := by positivity
      simp only [hone, Nat.pow_succ]
      omega
    · by_contra hbig
      have hlong : 20 ≤ digits 20 max := by
        by_contra hshort
        exact hbig (Nat.pow_le_pow_right (by decide) (by omega))
      have := Nat.pow_le_pow_right (show 0 < 10 by decide) hlong
      omega
    · rw [hmgr] at hs
      cases hs
    · cases hmem
    · cases hmem
    · cases hmem
  · cases h

theorem Intact.step (h : Intact w) (hfits : FitsInt w a) (hstep : (machine m).step w a = some w') :
    Intact w' := by
  cases a with
  | accept =>
    cases hstep
    exact h.accept hfits
  | close slot =>
    obtain ⟨client, hslot, hrest⟩ := bind_eq_some_iff.mp hstep
    obtain ⟨m', hclose, hintact, -⟩ := h.close hslot
    rw [hclose] at hrest
    cases hrest
    exact hintact

/-- The ids resolve throughout a run exactly if every new id fits into an `int`. -/
theorem ids_resolvable_iff (max : Nat) (hmax : max < 2 ^ 64) (m : Manager)
    (hcreate : clientManagerCreate max = .ok m) (actions : List Action) (w : World)
    (hrun : (machine m).run actions = some w) :
    (machine m).Throughout Resolvable actions (machine m).init ↔
      (machine m).Along FitsInt actions (machine m).init := by
  have hbreak : ∀ w a w', Intact w → True → ¬ FitsInt w a → (machine m).step w a = some w' →
      ¬ Resolvable w' := by
    intro w a w' h _ hfits hstep
    cases a with
    | accept =>
      cases hstep
      exact h.accept_lost hfits
    | close slot => exact absurd trivial hfits
  exact Machine.throughout_iff_along (fun _ h => h.resolvable)
    (fun w a w' h _ hfits hstep => h.step hfits hstep) hbreak (create_intact hmax hcreate)
    (Machine.along_trivial actions _) hrun

def nineClients : Manager where
  container := { size := 9, mgr := fun _ => none, free := [8, 7, 6, 5, 4, 3, 2, 1, 0] }
  maxOffset := 10
  index := 1

theorem reusedSlots_resolvable : clientManagerCreate 9 = .ok nineClients ∧
      (machine nineClients).Throughout Resolvable [.accept, .accept, .close 8, .accept, .close 7]
        (machine nineClients).init :=
  ⟨rfl, (ids_resolvable_iff 9 (by decide) nineClients rfl
    [.accept, .accept, .close 8, .accept, .close 7] _ rfl).mpr (by decide)⟩

def oneByOne (slot : Nat) : Nat → List Action
  | 0 => []
  | n + 1 => .accept :: .close slot :: oneByOne slot n

section
variable {w : World}

theorem Intact.round (h : Intact w) (hfree : w.manager.container.free = slot :: rest)
    (hfits : w.manager.index * w.manager.maxOffset + slot < 2 ^ 31) :
    ∃ w', (machine m).runFrom [.accept, .close slot] w = some w' ∧ Intact w' ∧
      w'.manager.container.free = slot :: rest ∧ w'.manager.index = w.manager.index + 1 ∧
      w'.manager.maxOffset = w.manager.maxOffset := by
  have hcond : FitsInt w .accept := fun s hs => by
    rw [hfree] at hs
    cases hs
    exact hfits
  rcases accept_cases w with ⟨hnil, -⟩ | ⟨slot', rest', container, hfree', hadd, heq⟩
  · rw [hnil] at hfree
    cases hfree
  cases hfree.symm.trans hfree'
  obtain ⟨-, hslot, -⟩ := h.valid.add hadd
  obtain ⟨rest', hsplit, hcontainer⟩ := Container.add_eq_some hadd
  cases hfree.symm.trans hsplit
  obtain ⟨hindex, -⟩ := next_index h.offset.1 (hslot.trans_le h.size) hfits
  have haccept := h.accept hcond
  have hclient : ∃ client, (ClientManager.accept w).manager.container.mgr slot = some client := by
    rw [heq, hcontainer]
    exact ⟨_, if_pos rfl⟩
  obtain ⟨client, hclient⟩ := hclient
  obtain ⟨m', hclose, hintact, hfree', hindex', hoffset'⟩ := haccept.close hclient
  have hstep : (machine m).step (ClientManager.accept w) (.close slot) =
      some { ClientManager.accept w with manager := m' } :=
    bind_eq_some_iff.mpr ⟨client, hclient, by rw [hclose]; rfl⟩
  refine ⟨{ ClientManager.accept w with manager := m' }, ?_, hintact, ?_, ?_, ?_⟩
  · exact bind_eq_some_iff.mpr ⟨_, rfl, bind_eq_some_iff.mpr ⟨_, hstep, rfl⟩⟩
  · rw [heq, hcontainer] at hfree'
    exact hfree'
  · rw [heq] at hindex'
    exact hindex'.trans hindex
  · rw [heq] at hoffset'
    exact hoffset'

theorem Intact.oneByOne (n : Nat) (h : Intact w) (hfree : w.manager.container.free = slot :: rest)
    (hfits : (w.manager.index + n) * w.manager.maxOffset + slot < 2 ^ 31 + w.manager.maxOffset) :
    ∃ w', (machine m).runFrom (oneByOne slot n) w = some w' ∧ Intact w' ∧
      w'.manager.container.free = slot :: rest ∧ w'.manager.index = w.manager.index + n ∧
      w'.manager.maxOffset = w.manager.maxOffset := by
  induction n generalizing w with
  | zero => exact ⟨w, rfl, h, hfree, rfl, rfl⟩
  | succ n ih =>
    have hfirst : w.manager.index * w.manager.maxOffset + slot < 2 ^ 31 := by
      have hsum : (w.manager.index + (n + 1)) * w.manager.maxOffset =
          w.manager.index * w.manager.maxOffset + n * w.manager.maxOffset +
            w.manager.maxOffset := by ring
      omega
    obtain ⟨mid, hmid, hintact, hfree', hindex, hoffset⟩ := h.round (m := m) hfree hfirst
    obtain ⟨w', hrun, hintact', hfree'', hindex', hoffset'⟩ := ih hintact hfree' (by
      rw [hindex, hoffset, Nat.add_assoc, Nat.add_comm 1 n]
      exact hfits)
    refine ⟨w', ?_, hintact', hfree'', by omega, hoffset'.trans hoffset⟩
    have hsplit : ClientManager.oneByOne slot (n + 1) =
        [.accept, .close slot] ++ ClientManager.oneByOne slot n := rfl
    rw [hsplit, Machine.runFrom_append, hmid]
    exact hrun

end

def thousandClients : Manager where
  container := { size := 1000, mgr := fun _ => none, free := (List.range 1000).reverse }
  maxOffset := 10 ^ 4
  index := 1

/-- The 214749th client of a manager for a thousand of them cannot be found with the id that
was reported for it. -/
theorem longUptime_not_resolvable : clientManagerCreate 1000 = .ok thousandClients ∧
      ∃ w, (machine thousandClients).run (oneByOne 999 214748 ++ [.accept]) = some w ∧
        ¬ Resolvable w := by
  have hcreate : clientManagerCreate 1000 = .ok thousandClients := rfl
  have hlast : ∀ n k, n = k + 1 → (List.range n).reverse = k :: (List.range k).reverse := by
    rintro n k rfl
    rw [range_succ, reverse_append, reverse_singleton, singleton_append]
  have hfree : thousandClients.container.free = 999 :: (List.range 999).reverse := by
    simp only [thousandClients]
    exact hlast 1000 999 rfl
  obtain ⟨w, hrun, hintact, hfree', hindex, hoffset⟩ :=
    (create_intact (by decide) hcreate).oneByOne (m := thousandClients) 214748 hfree (by decide)
  refine ⟨hcreate, accept w, ?_, hintact.accept_lost fun hfits => ?_⟩
  · rw [Machine.run, Machine.runFrom_append]
    exact bind_eq_some_iff.mpr ⟨w, hrun, rfl⟩
  · have := hfits 999 (by rw [hfree']; rfl)
    rw [hindex, hoffset] at this
    exact absurd this (by decide)

end EventLua.ClientManager
