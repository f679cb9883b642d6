import EventLua.Class.Model
import Mathlib.Data.Fintype.Option
import Mathlib.Data.Fintype.Powerset

/-!
When every look-up is right after classes have been loaded again. `inherit` keeps this if
`__childs` tells it all classes below; the table that it makes has no children itself, until they
are loaded again too.
-/
namespace EventLua.Class
open Function Option Finset

section
variable {ν μ φ : Type} {w w' : World ν μ φ}

/-- Worlds with the same classes, which may differ in what look-ups have stored, and in the
objects. -/
structure Shape (w w' : World ν μ φ) : Prop where
  classCtx : w'.classCtx = w.classCtx
  next : w'.next = w.next
  parent : ∀ a, (w'.tables a).parent = (w.tables a).parent
  childs : ∀ a, (w'.tables a).childs = (w.tables a).childs
  methods : ∀ a, (w'.tables a).methods = (w.tables a).methods
  index : ∀ a, (w'.tables a).index = (w.tables a).index

theorem Shape.refl (w : World ν μ φ) : Shape w w :=
  ⟨rfl, rfl, fun _ => rfl, fun _ => rfl, fun _ => rfl, fun _ => rfl⟩

theorem Shape.trans (h : Shape w₁ w₂) (h' : Shape w₂ w₃) : Shape w₁ w₃ where
  classCtx := h'.classCtx.trans h.classCtx
  next := h'.next.trans h.next
  parent a := (h'.parent a).trans (h.parent a)
  childs a := (h'.childs a).trans (h.childs a)
  methods a := (h'.methods a).trans (h.methods a)
  index a := (h'.index a).trans (h.index a)

theorem Shape.resolves (hs : Shape w w') (h : Resolves w c m r) : Resolves w' c m r := by
  induction h with
  | own hc hm => exact .own (hs.classCtx ▸ hc) ((congrFun (hs.methods _) _).trans hm)
  | top hc hm hp =>
    exact .top (hs.classCtx ▸ hc) ((congrFun (hs.methods _) _).trans hm) ((hs.parent _).trans hp)
  | up hc hm hp _ ih =>
    exact .up (hs.classCtx ▸ hc) ((congrFun (hs.methods _) _).trans hm) ((hs.parent _).trans hp) ih

theorem parentOf_eq {c : ν} {a : Nat} (hc : w.classCtx c = some a) :
    w.parentOf c = (w.tables a).parent := by
  rw [World.parentOf, hc]
  rfl

structure Inv (w : World ν μ φ) : Prop where
  lt : ∀ c a, w.classCtx c = some a → a < w.next
  inj : ∀ c d a, w.classCtx c = some a → w.classCtx d = some a → c = d
  linked : ∀ c p a, w.classCtx c = some a → (w.tables a).parent = some p →
    ∃ b, w.classCtx p = some b ∧ (w.tables a).index = some b
  top : ∀ c a, w.classCtx c = some a → (w.tables a).parent = none → (w.tables a).index = none
  memo : ∀ c a m f, w.classCtx c = some a → (w.tables a).memo m = some f → Resolves w c m (some f)
  total : ∀ c a m, w.classCtx c = some a → ∃ r, Resolves w c m r
  later : ∀ c d a b, w.classCtx c = some a → d ∈ (w.tables a).childs → w.classCtx d = some b → a < b
  objects : ∀ o ∈ w.objects, w.classCtx o.type = some o.index

theorem Inv.of_shape (hw : Inv w) (hs : Shape w w')
    (hobjects : ∀ o ∈ w'.objects, w.classCtx o.type = some o.index)
    (hmemo : ∀ c a m f, w.classCtx c = some a → (w'.tables a).memo m = some f →
      Resolves w c m (some f)) : Inv w' := by
  constructor
  case lt =>
    rw [hs.classCtx, hs.next]
    exact hw.lt
  case inj =>
    rw [hs.classCtx]
    exact hw.inj
  case linked =>
    intro c p a hc hp
    rw [hs.classCtx] at hc ⊢
    rw [hs.index]
    exact hw.linked c p a hc ((hs.parent a).symm.trans hp)
  case top =>
    intro c a hc hp
    rw [hs.classCtx] at hc
    rw [hs.index]
    exact hw.top c a hc ((hs.parent a).symm.trans hp)
  case memo =>
    intro c a m f hc hm
    exact hs.resolves (hmemo c a m f (hs.classCtx ▸ hc) hm)
  case total =>
    intro c a m hc
    obtain ⟨r, hr⟩ := hw.total c a m (hs.classCtx ▸ hc)
    exact ⟨r, hs.resolves hr⟩
  case later =>
    intro c d a b hc hd hb
    rw [hs.classCtx] at hc hb
    exact hw.later c d a b hc (hs.childs a ▸ hd) hb
  case objects =>
    rw [hs.classCtx]
    exact hobjects

end

section
variable {ν μ φ : Type} [DecidableEq μ] {w w' : World ν μ φ}

theorem shape_setMemo (w : World ν μ φ) (a : Nat) (m : μ) (f : Option φ) :
    Shape w (w.setMemo a m f) := by
  have htables : ∀ b, (w.setMemo a m f).tables b =
      if b = a then { w.tables a with memo := update (w.tables a).memo m f }
      else w.tables b :=
    fun b => update_apply _ _ _ _
  refine ⟨rfl, rfl, fun b => ?_, fun b => ?_, fun b => ?_, fun b => ?_⟩
  all_goals
    rw [htables]
    split
    · next heq => rw [heq]
    · rfl

theorem memo_setMemo (w : World ν μ φ) (a : Nat) (m : μ) (f : Option φ) (b : Nat) (m' : μ) :
    ((w.setMemo a m f).tables b).memo m' = if b = a ∧ m' = m then f else (w.tables b).memo m' := by
  rw [World.setMemo]
  by_cases hb : b = a
  · subst hb
    dsimp only
    rw [update_self]
    dsimp only
    rw [update_apply]
    simp
  · dsimp only
    rw [update_of_ne hb, if_neg fun h => hb h.1]

theorem Inv.lookup (hw : Inv w) {fuel a : Nat} {m : μ} {r : Option φ}
    (h : Class.lookup fuel w a m = some (r, w')) :
    Shape w w' ∧ w'.objects = w.objects ∧ (∀ c, w.classCtx c = some a → Resolves w c m r) ∧
      ∀ c b m' f, w.classCtx c = some b → (w'.tables b).memo m' = some f →
        Resolves w c m' (some f) := by
  induction fuel generalizing a r w' with
  | zero => cases h
  | succ fuel ih =>
    rw [Class.lookup] at h
    cases hraw : ((w.tables a).methods m).or ((w.tables a).memo m) with
    | some f =>
      rw [hraw] at h
      cases h
      refine ⟨.refl w, rfl, fun c hc => ?_, hw.memo⟩
      cases hm : (w.tables a).methods m with
      | some g =>
        rw [hm] at hraw
        cases hraw
        exact .own hc hm
      | none =>
        rw [hm, none_or] at hraw
        exact hw.memo c a m f hc hraw
    | none =>
      rw [hraw] at h
      have hm : (w.tables a).methods m = none := (or_eq_none_iff.mp hraw).1
      cases hindex : (w.tables a).index with
      | none =>
        rw [hindex] at h
        cases h
        refine ⟨.refl w, rfl, fun c hc => ?_, hw.memo⟩
        cases hp : (w.tables a).parent with
        | none => exact .top hc hm hp
        | some p =>
          obtain ⟨b, -, hb⟩ := hw.linked c p a hc hp
          cases hb.symm.trans hindex
      | some b =>
        rw [hindex] at h
        obtain ⟨⟨r', w₁⟩, hup, heq⟩ := map_eq_some_iff.mp h
        cases heq
        obtain ⟨hs, hobjects, hres, hmemo⟩ := ih hup
        -- the value that is stored is the one the class resolves to
        have hown : ∀ c, w.classCtx c = some a → Resolves w c m r' := by
          intro c hc
          cases hp : (w.tables a).parent with
          | none => cases (hw.top c a hc hp).symm.trans hindex
          | some p =>
            obtain ⟨b', hb', hlink⟩ := hw.linked c p a hc hp
            cases hlink.symm.trans hindex
            exact .up hc hm hp (hres p hb')
        refine ⟨hs.trans (shape_setMemo _ _ _ _), hobjects, hown, fun c b' m' f hc hf => ?_⟩
        rw [memo_setMemo] at hf
        split at hf
        · next hsame =>
          obtain ⟨rfl, rfl⟩ := hsame
          subst hf
          exact hown c hc
        · exact hmemo c b' m' f hc hf

theorem Inv.lookup_ends (hw : Inv w) {c : ν} {m : μ} {r : Option φ} (h : Resolves w c m r) {a : Nat}
    (hc : w.classCtx c = some a) : ∃ fuel r' w', Class.lookup fuel w a m = some (r', w') := by
  induction h generalizing a with
  | own hc' hm =>
    cases hc.symm.trans hc'
    exact ⟨1, _, w, by rw [Class.lookup, hm]; rfl⟩
  | top hc' hm hp =>
    obtain rfl := some.inj (hc.symm.trans hc')
    refine ⟨1, ?_⟩
    rw [Class.lookup, hm, none_or, hw.top _ a hc hp]
    cases (w.tables a).memo _ with
    | none => exact ⟨none, w, rfl⟩
    | some f => exact ⟨some f, w, rfl⟩
  | up hc' hm hp _ ih =>
    obtain rfl := some.inj (hc.symm.trans hc')
    obtain ⟨b, hb, hindex⟩ := hw.linked _ _ a hc hp
    obtain ⟨fuel, r', w', hup⟩ := ih hb
    refine ⟨fuel + 1, ?_⟩
    rw [Class.lookup, hm, none_or, hindex]
    cases (w.tables a).memo _ with
    | none => exact ⟨r', _, by dsimp only; rw [hup]; rfl⟩
    | some f => exact ⟨some f, w, rfl⟩

theorem Inv.upToDate (hw : Inv w) : UpToDate w := by
  have hfinds : ∀ c a, w.classCtx c = some a → ∀ m, Finds w c a m := by
    intro c a hc m
    obtain ⟨r, hr⟩ := hw.total c a m hc
    obtain ⟨fuel, r', w', hlookup⟩ := hw.lookup_ends hr hc
    exact ⟨r', (hw.lookup hlookup).2.2.1 c hc, fuel, w', hlookup⟩
  exact ⟨hfinds, fun o ho m => hfinds o.type o.index (hw.objects o ho) m⟩

end

section
variable {ν μ φ : Type} [DecidableEq ν] (w : World ν μ φ) (a : Nat)

theorem tables_enterClass (name parent : ν) (parentAt : Nat) (methods : μ → Option φ) :
    (enterClass w name parent parentAt methods).tables a =
      if a = w.next then ⟨some parent, ∅, methods, fun _ => none, some parentAt⟩ else w.tables a :=
  update_apply _ _ _ _

theorem tables_cleanClsFunc (old : Nat) : (cleanClsFunc w old).tables a = { w.tables a with
        memo := if Among w.classCtx (reached w w.next old) a then fun _ => none
          else (w.tables a).memo } := by
  rw [cleanClsFunc]
  dsimp only
  split <;> rfl

omit [DecidableEq ν] in
theorem tables_adopt (old new : Nat) : (adopt w old new).tables a = { w.tables a with
        index := if Among w.classCtx (w.tables old).childs a then some new
          else (w.tables a).index } := by
  rw [adopt]
  dsimp only
  split <;> rfl

theorem tables_addChild (parentAt : Nat) (name : ν) : (addChild w parentAt name).tables a =
      { w.tables a with
        childs := if a = parentAt then insert name (w.tables a).childs
          else (w.tables a).childs } := by
  rw [addChild]
  dsimp only
  rw [update_apply]
  split
  · next h => rw [h]
  · rfl

variable (name parent : ν) (parentAt : Nat) (methods : μ → Option φ)

theorem tables_inherit_new (h : w.classCtx name = none) :
    (inherit w name parent parentAt methods).tables a =
      let t := (enterClass w name parent parentAt methods).tables a
      { t with childs := if a = parentAt then insert name t.childs else t.childs } := by
  rw [inherit, h]
  exact tables_addChild _ a parentAt name

theorem tables_inherit_reload (h : w.classCtx name = some old) :
    (inherit w name parent parentAt methods).tables a =
      let entered := enterClass w name parent parentAt methods
      let t := entered.tables a
      { t with
        childs := if a = parentAt then insert name t.childs else t.childs
        memo := if Among entered.classCtx (reached entered entered.next old) a then fun _ => none
          else t.memo
        index := if Among entered.classCtx (entered.tables old).childs a then some w.next
          else t.index } := by
  rw [inherit, h]
  refine (tables_addChild _ a parentAt name).trans ?_
  dsimp only [resetObjectMeta]
  rw [tables_adopt, tables_cleanClsFunc, tables_cleanClsFunc]
  rfl

theorem classCtx_inherit : (inherit w name parent parentAt methods).classCtx =
      update w.classCtx name (some w.next) := by
  rw [inherit]
  cases w.classCtx name with
  | none | some old => rfl

theorem next_inherit : (inherit w name parent parentAt methods).next = w.next + 1 := by
  rw [inherit]
  cases w.classCtx name with
  | none | some old => rfl

theorem methods_inherit : ((inherit w name parent parentAt methods).tables a).methods =
      ((enterClass w name parent parentAt methods).tables a).methods := by
  cases h : w.classCtx name with
  | none => rw [tables_inherit_new w a name parent parentAt methods h]
  | some old => rw [tables_inherit_reload w a name parent parentAt methods h]

theorem parent_inherit : ((inherit w name parent parentAt methods).tables a).parent =
      ((enterClass w name parent parentAt methods).tables a).parent := by
  cases h : w.classCtx name with
  | none => rw [tables_inherit_new w a name parent parentAt methods h]
  | some old => rw [tables_inherit_reload w a name parent parentAt methods h]

theorem childs_inherit : ((inherit w name parent parentAt methods).tables a).childs =
      let childs := ((enterClass w name parent parentAt methods).tables a).childs
      if a = parentAt then insert name childs else childs := by
  cases h : w.classCtx name with
  | none => rw [tables_inherit_new w a name parent parentAt methods h]
  | some old => rw [tables_inherit_reload w a name parent parentAt methods h]

end

section
variable {ν μ φ : Type} [DecidableEq ν] {w : World ν μ φ} {name parent : ν} {methods : μ → Option φ}

variable {c : ν} {a : Nat}

theorem Inv.enterClass_old (hw : Inv w) (hc : w.classCtx c = some a) :
    (enterClass w name parent parentAt methods).tables a = w.tables a := by
  have hlt := hw.lt c a hc
  rw [tables_enterClass, if_neg (by omega)]

theorem classCtx_enterClass_of_ne (h : c ≠ name) :
    (enterClass w name parent parentAt methods).classCtx c = w.classCtx c :=
  update_of_ne h _ _

omit [DecidableEq ν] in
theorem Inv.not_own_child (hw : Inv w) (hc : w.classCtx c = some a) : c ∉ (w.tables a).childs :=
  fun hmem => absurd (hw.later c c a a hc hmem hc) (lt_irrefl a)

theorem current_inherit (hw : Inv w)
    (hc : (inherit w name parent parentAt methods).classCtx c = some a) :
    c = name ∧ a = w.next ∨ c ≠ name ∧ w.classCtx c = some a ∧
      (enterClass w name parent parentAt methods).tables a = w.tables a := by
  rw [classCtx_inherit] at hc
  by_cases heq : c = name
  · rw [heq, update_self] at hc
    exact .inl ⟨heq, (some.inj hc).symm⟩
  · rw [update_of_ne heq] at hc
    exact .inr ⟨heq, hc, hw.enterClass_old hc⟩

theorem classCtx_inherit_self (w : World ν μ φ) (name parent : ν) (parentAt : Nat)
    (methods : μ → Option φ) :
    (inherit w name parent parentAt methods).classCtx name = some w.next := by
  rw [classCtx_inherit, update_self]

theorem classCtx_inherit_of_ne (h : c ≠ name) :
    (inherit w name parent parentAt methods).classCtx c = w.classCtx c := by
  rw [classCtx_inherit, update_of_ne h]

theorem enterClass_self (w : World ν μ φ) (name parent : ν) (parentAt : Nat)
    (methods : μ → Option φ) : (enterClass w name parent parentAt methods).tables w.next =
      ⟨some parent, ∅, methods, fun _ => none, some parentAt⟩ := by
  rw [tables_enterClass, if_pos rfl]

section
variable (hw : Inv w)
include hw

theorem Inv.kept (hc : w.classCtx c = some a) (hne : c ≠ name) :
    (inherit w name parent parentAt methods).classCtx c = some a ∧
      ((inherit w name parent parentAt methods).tables a).methods = (w.tables a).methods ∧
      ((inherit w name parent parentAt methods).tables a).parent = (w.tables a).parent := by
  rw [classCtx_inherit_of_ne hne, methods_inherit, parent_inherit, hw.enterClass_old hc]
  exact ⟨hc, rfl, rfl⟩

theorem Inv.resolves_inherit (h : Resolves w c m r) (hnot : ¬ w.Below c name) :
    Resolves (inherit w name parent parentAt methods) c m r := by
  have hne : ∀ {c}, ¬ w.Below c name → c ≠ name := fun hnot heq => hnot (heq ▸ .refl)
  induction h with
  | own hc hm =>
    obtain ⟨hc', hmethods, -⟩ := hw.kept hc (hne hnot)
    exact .own hc' ((congrFun hmethods _).trans hm)
  | top hc hm hp =>
    obtain ⟨hc', hmethods, hparent⟩ := hw.kept hc (hne hnot)
    exact .top hc' ((congrFun hmethods _).trans hm) (hparent.trans hp)
  | up hc hm hp _ ih =>
    obtain ⟨hc', hmethods, hparent⟩ := hw.kept hc (hne hnot)
    exact .up hc' ((congrFun hmethods _).trans hm) (hparent.trans hp)
      (ih fun hbelow => hnot (.head ((parentOf_eq hc).trans hp) hbelow))

theorem Inv.resolves_new (hparent : w.classCtx parent = some parentAt)
    (htree : ¬ w.Below parent name) (m : μ) :
    ∃ r, Resolves (inherit w name parent parentAt methods) name m r := by
  have hself := classCtx_inherit_self w name parent parentAt methods
  cases hm : methods m with
  | some f =>
    refine ⟨some f, .own hself ?_⟩
    rw [methods_inherit, enterClass_self]
    exact hm
  | none =>
    obtain ⟨r, hr⟩ := hw.total parent parentAt m hparent
    refine ⟨r, .up hself ?_ ?_ (hw.resolves_inherit hr htree)⟩
    · rw [methods_inherit, enterClass_self]
      exact hm
    · rw [parent_inherit, enterClass_self]

theorem Inv.total_inherit (hparent : w.classCtx parent = some parentAt)
    (htree : ¬ w.Below parent name) (h : Resolves w c m r) :
    ∃ r', Resolves (inherit w name parent parentAt methods) c m r' := by
  by_cases heq : c = name
  · exact heq ▸ hw.resolves_new hparent htree m
  · induction h with
    | own hc hm =>
      obtain ⟨hc', hmethods, -⟩ := hw.kept hc heq
      exact ⟨_, .own hc' ((congrFun hmethods _).trans hm)⟩
    | top hc hm hp =>
      obtain ⟨hc', hmethods, hparent'⟩ := hw.kept hc heq
      exact ⟨none, .top hc' ((congrFun hmethods _).trans hm) (hparent'.trans hp)⟩
    | @up c p a m r hc hm hp _ ih =>
      obtain ⟨hc', hmethods, hparent'⟩ := hw.kept hc heq
      have hup : ∃ r', Resolves (inherit w name parent parentAt methods) p m r' := by
        by_cases hp' : p = name
        · exact hp' ▸ hw.resolves_new hparent htree m
        · exact ih hp'
      obtain ⟨r', hr'⟩ := hup
      exact ⟨r', .up hc' ((congrFun hmethods _).trans hm) (hparent'.trans hp) hr'⟩

theorem Inv.reached_enterClass (hold : w.classCtx name = some old) (fuel : Nat)
    (hc : w.classCtx c = some a) (hle : old ≤ a) :
    reached (enterClass w name parent parentAt methods) fuel a = reached w fuel a := by
  induction fuel generalizing c a with
  | zero => rfl
  | succ fuel ih =>
    rw [reached, reached, hw.enterClass_old hc]
    congr 1
    refine biUnion_congr rfl fun d hd => ?_
    have hne : d ≠ name := by
      rintro rfl
      have := hw.later c d a old hc hd hold
      omega
    rw [classCtx_enterClass_of_ne hne]
    cases hb : w.classCtx d with
    | none => rfl
    | some b =>
      have hlater := hw.later c d a b hc hd hb
      exact ih hb (by omega)

theorem Inv.mem_reached (hold : w.classCtx name = some old)
    (hlisted : Listed w (.inherit name parent methods)) (fuel : Nat) (hd : w.Below d name)
    (ha : w.classCtx d = some a) (hfuel : w.next ≤ a + fuel) (hc : w.Below c d) (hne : c ≠ d) :
    c ∈ reached w fuel a := by
  induction fuel generalizing d a with
  | zero =>
    have hlt := hw.lt d a ha
    omega
  | succ fuel ih =>
    obtain heq | ⟨e, hce, hparent⟩ := Relation.ReflTransGen.cases_tail hc
    · exact absurd heq.symm hne
    · have hmem := (hlisted old hold).2 e d a hd ha hparent
      obtain ⟨b, hb, -⟩ := bind_eq_some_iff.mp hparent
      have hlater := hw.later d e a b ha hmem hb
      rw [reached]
      by_cases heq : c = e
      · exact mem_union_left _ (heq ▸ hmem)
      · refine mem_union_right _ (mem_biUnion.mpr ⟨e, hmem, ?_⟩)
        rw [hb]
        exact ih (Relation.ReflTransGen.head hparent hd) hb (by omega) hce heq

section
variable (hlisted : Listed w (.inherit name parent methods)) (hc : w.classCtx c = some a)
  (hne : c ≠ name)
include hlisted hc hne

theorem Inv.memo_inherit (h : ((inherit w name parent parentAt methods).tables a).memo m = some f) :
    (w.tables a).memo m = some f ∧ ¬ w.Below c name := by
  have htables : (enterClass w name parent parentAt methods).tables a = w.tables a :=
    hw.enterClass_old hc
  cases hold : w.classCtx name with
  | none =>
    rw [tables_inherit_new w a name parent parentAt methods hold, htables] at h
    refine ⟨h, fun hbelow => ?_⟩
    -- nobody has a parent that is not there
    obtain heq | ⟨d, -, hd⟩ := Relation.ReflTransGen.cases_tail hbelow
    · exact hne heq.symm
    · obtain ⟨b, hb, hp⟩ := bind_eq_some_iff.mp hd
      obtain ⟨b', hb', -⟩ := hw.linked d name b hb hp
      cases hb'.symm.trans hold
  | some old =>
    rw [tables_inherit_reload w a name parent parentAt methods hold] at h
    dsimp only at h
    rw [htables] at h
    split at h
    · cases h
    · next hclean =>
      refine ⟨h, fun hbelow => hclean ⟨c, ?_, ?_⟩⟩
      · rw [hw.reached_enterClass hold _ hold le_rfl]
        refine hw.mem_reached hold hlisted _ .refl hold ?_ hbelow hne
        show w.next ≤ old + (w.next + 1)
        omega
      · exact (classCtx_enterClass_of_ne hne).trans hc

theorem Inv.index_inherit : ((inherit w name parent parentAt methods).tables a).index =
      if (w.tables a).parent = some name then some w.next else (w.tables a).index := by
  cases hold : w.classCtx name with
  | none =>
    rw [tables_inherit_new w a name parent parentAt methods hold, hw.enterClass_old hc, if_neg]
    intro hp
    obtain ⟨b, hb, -⟩ := hw.linked c name a hc hp
    cases hb.symm.trans hold
  | some old =>
    rw [tables_inherit_reload w a name parent parentAt methods hold]
    dsimp only
    rw [hw.enterClass_old hc, hw.enterClass_old hold]
    congr 1
    refine propext ⟨?_, fun hp => ⟨c, ?_, (classCtx_enterClass_of_ne hne).trans hc⟩⟩
    · rintro ⟨d, hd, hda⟩
      have hdne : d ≠ name := by
        rintro rfl
        exact hw.not_own_child hold hd
      obtain rfl := hw.inj d c a ((classCtx_enterClass_of_ne hdne).symm.trans hda) hc
      exact (parentOf_eq hc).symm.trans ((hlisted old hold).1 d hd)
    · exact (hlisted old hold).2 c name old .refl hold ((parentOf_eq hc).trans hp)

end

theorem Inv.new_table :
    ((inherit w name parent parentAt methods).tables w.next).index = some parentAt ∧
      ∀ m, ((inherit w name parent parentAt methods).tables w.next).memo m = none := by
  have hself := enterClass_self w name parent parentAt methods
  cases hold : w.classCtx name with
  | none =>
    rw [tables_inherit_new w _ name parent parentAt methods hold, hself]
    exact ⟨rfl, fun _ => rfl⟩
  | some old =>
    rw [tables_inherit_reload w _ name parent parentAt methods hold]
    dsimp only
    rw [hself, hw.enterClass_old hold]
    refine ⟨if_neg ?_, fun m => ?_⟩
    · rintro ⟨d, hd, hda⟩
      by_cases hne : d = name
      · subst hne
        exact hw.not_own_child hold hd
      · have hda' := (classCtx_enterClass_of_ne hne).symm.trans hda
        exact absurd (hw.lt d w.next hda') (lt_irrefl _)
    · split <;> rfl

theorem Inv.objects_inherit : ∀ o ∈ (inherit w name parent parentAt methods).objects,
      (inherit w name parent parentAt methods).classCtx o.type = some o.index := by
  intro o ho
  cases hold : w.classCtx name with
  | none =>
    have hobjects : (inherit w name parent parentAt methods).objects = w.objects := by
      rw [inherit, hold]
      rfl
    have hctx := hw.objects o (hobjects ▸ ho)
    rw [classCtx_inherit_of_ne]
    · exact hctx
    · rintro rfl
      cases hctx.symm.trans hold
  | some old =>
    have hobjects : (inherit w name parent parentAt methods).objects =
        w.objects.map fun o => if o.type = name then { o with index := w.next } else o := by
      rw [inherit, hold]
      dsimp only [addChild, resetObjectMeta, adopt, cleanClsFunc, enterClass]
    rw [hobjects] at ho
    obtain ⟨o', ho', rfl⟩ := List.mem_map.mp ho
    split
    · next heq =>
      rw [heq, classCtx_inherit_self]
    · next hne =>
      rw [classCtx_inherit_of_ne hne]
      exact hw.objects o' ho'

theorem Inv.inherit (hparent : w.classCtx parent = some parentAt)
    (htree : ¬ w.Below parent name) (hlisted : Listed w (.inherit name parent methods)) :
    Inv (Class.inherit w name parent parentAt methods) := by
  have hparentlt := hw.lt parent parentAt hparent
  have hparentNe : parent ≠ name := fun heq => htree (heq ▸ .refl)
  constructor
  case lt =>
    intro c a hc
    rw [next_inherit]
    obtain ⟨-, rfl⟩ | ⟨-, hc, -⟩ := current_inherit hw hc
    · exact Nat.lt_succ_self _
    · exact (hw.lt c a hc).trans (Nat.lt_succ_self _)
  case inj =>
    intro c d a hc hd
    obtain ⟨rfl, rfl⟩ | ⟨-, hc, -⟩ := current_inherit hw hc
    · obtain ⟨rfl, -⟩ | ⟨-, hd, -⟩ := current_inherit hw hd
      · rfl
      · exact absurd (hw.lt d _ hd) (lt_irrefl _)
    · obtain ⟨-, rfl⟩ | ⟨-, hd, -⟩ := current_inherit hw hd
      · exact absurd (hw.lt c _ hc) (lt_irrefl _)
      · exact hw.inj c d a hc hd
  case linked =>
    intro c p a hc hp
    obtain ⟨rfl, rfl⟩ | ⟨hne, hc, htables⟩ := current_inherit hw hc
    · rw [parent_inherit, enterClass_self] at hp
      cases hp
      exact ⟨parentAt, (classCtx_inherit_of_ne hparentNe).trans hparent, hw.new_table.1⟩
    · rw [parent_inherit, htables] at hp
      rw [hw.index_inherit hlisted hc hne, hp]
      by_cases heq : p = name
      · rw [heq, if_pos rfl, classCtx_inherit_self]
        exact ⟨w.next, rfl, rfl⟩
      · rw [if_neg fun h => heq (some.inj h), classCtx_inherit_of_ne heq]
        exact hw.linked c p a hc hp
  case top =>
    intro c a hc hp
    obtain ⟨rfl, rfl⟩ | ⟨hne, hc, htables⟩ := current_inherit hw hc
    · rw [parent_inherit, enterClass_self] at hp
      cases hp
    · rw [parent_inherit, htables] at hp
      rw [hw.index_inherit hlisted hc hne, hp, if_neg fun h => (by cases h)]
      exact hw.top c a hc hp
  case memo =>
    intro c a m f hc hf
    obtain ⟨rfl, rfl⟩ | ⟨hne, hc, -⟩ := current_inherit hw hc
    · cases (hw.new_table.2 m).symm.trans hf
    · obtain ⟨hf, hnot⟩ := hw.memo_inherit hlisted hc hne hf
      exact hw.resolves_inherit (hw.memo c a m f hc hf) hnot
  case total =>
    intro c a m hc
    obtain ⟨rfl, -⟩ | ⟨-, hc, -⟩ := current_inherit hw hc
    · exact hw.resolves_new hparent htree m
    · obtain ⟨r, hr⟩ := hw.total c a m hc
      exact hw.total_inherit hparent htree hr
  case later =>
    intro c d a b hc hd hb
    rw [childs_inherit] at hd
    obtain ⟨rfl, rfl⟩ | ⟨-, hc, htables⟩ := current_inherit hw hc
    · rw [enterClass_self, if_neg (by omega)] at hd
      exact absurd hd (notMem_empty d)
    · have halt := hw.lt c a hc
      obtain ⟨-, rfl⟩ | ⟨hne, hb, -⟩ := current_inherit hw hb
      · exact halt
      · rw [htables] at hd
        refine hw.later c d a b hc ?_ hb
        split at hd
        · exact mem_of_mem_insert_of_ne hd hne
        · exact hd
  case objects => exact hw.objects_inherit

end

end

section
variable {ν μ φ : Type} [DecidableEq ν] [DecidableEq μ]

omit [DecidableEq μ] in
theorem inv_initial (root : ν) (methods : μ → Option φ) : Inv (initial root methods) := by
  have hroot : ∀ {c a}, (initial root methods).classCtx c = some a → c = root ∧ a = 0 := by
    intro c a hc
    obtain ⟨heq, ha⟩ := of_guard hc
    exact ⟨heq, ha.symm⟩
  constructor
  case lt => exact fun c a hc => (hroot hc).2 ▸ Nat.one_pos
  case inj => exact fun c d a hc hd => (hroot hc).1.trans (hroot hd).1.symm
  case linked => exact fun c p a _ hp => (by cases hp)
  case top => exact fun c a _ _ => rfl
  case memo => exact fun c a m f _ hf => (by cases hf)
  case total =>
    intro c a m hc
    cases hm : methods m with
    | none => exact ⟨none, .top hc hm rfl⟩
    | some f => exact ⟨some f, .own hc hm⟩
  case later => exact fun c d a b _ hd _ => absurd hd (notMem_empty d)
  case objects => exact fun o ho => absurd ho List.not_mem_nil

theorem Inv.step {w w' : World ν μ φ} {a : Action ν μ φ} (hw : Inv w)
    (hc : Tree w a ∧ Listed w a) (h : Class.step w a = some w') : Inv w' := by
  cases a with
  | inherit name parent methods =>
    rw [Class.step] at h
    split at h
    · cases h
    · obtain ⟨parentAt, hparent, rfl⟩ := map_eq_some_iff.mp h
      exact hw.inherit hparent hc.1 hc.2
  | newObject name =>
    obtain ⟨a, ha, rfl⟩ := map_eq_some_iff.mp h
    have hs : Shape w { w with objects := ⟨name, a⟩ :: w.objects } :=
      ⟨rfl, rfl, fun _ => rfl, fun _ => rfl, fun _ => rfl, fun _ => rfl⟩
    refine hw.of_shape hs (fun o ho => ?_) hw.memo
    obtain rfl | ho := List.mem_cons.mp ho
    · exact ha
    · exact hw.objects o ho
  | lookup fuel a m =>
    obtain ⟨⟨r, w₁⟩, hlookup, rfl⟩ := map_eq_some_iff.mp h
    obtain ⟨hs, hobjects, -, hmemo⟩ := hw.lookup hlookup
    exact hw.of_shape hs (hobjects ▸ hw.objects) hmemo

/-- As long as every class that is loaded again finds all classes below it in `__childs`, every
look-up is right. -/
theorem upToDate_of_listed (root : ν) (methods : μ → Option φ) {actions : List (Action ν μ φ)}
    {w : World ν μ φ} (h : (machine root methods).run actions = some w)
    (hc : (machine root methods).Along (fun w a => Tree w a ∧ Listed w a) actions
      (initial root methods)) : UpToDate w := by
  have hstep : ∀ (w : World ν μ φ) (a : Action ν μ φ) (w' : World ν μ φ), Inv w →
      Tree w a ∧ Listed w a → (machine root methods).step w a = some w' → Inv w' :=
    fun w a w' hw hc hs => hw.step hc hs
  exact (Machine.invariant_along hstep (inv_initial root methods) hc h).upToDate

/-- Classes that hold all classes below them, and among them the one that is loaded. -/
def Closed (w : World ν μ φ) (below : Finset ν) : Action ν μ φ → Prop
  | .inherit name parent _ =>
    name ∈ below ∧ parent ∉ below ∧ (∀ p ∈ below, ∀ c, w.parentOf c = some p → c ∈ below) ∧
      ∀ old ∈ w.classCtx name, (∀ c ∈ (w.tables old).childs, w.parentOf c = some name) ∧
        ∀ d ∈ below, ∀ a ∈ w.classCtx d, ∀ c, w.parentOf c = some d → c ∈ (w.tables a).childs
  | .newObject _ | .lookup _ _ _ => True

instance [Fintype ν] (w : World ν μ φ) (below : Finset ν) (a : Action ν μ φ) :
    Decidable (Closed w below a) := by
  unfold Closed
  split <;> infer_instance

variable {w : World ν μ φ}

omit [DecidableEq ν] [DecidableEq μ] in
theorem tree_listed_of_closed {below : Finset ν} {a : Action ν μ φ}
    (h : Closed w below a) : Tree w a ∧ Listed w a := by
  cases a with
  | inherit name parent methods =>
    obtain ⟨hname, hparent, hdown, hlisted⟩ := h
    have hbelow : ∀ d, w.Below d name → d ∈ below := by
      intro d hd
      induction hd using Relation.ReflTransGen.head_induction_on with
      | refl => exact hname
      | head hstep _ ih => exact hdown _ ih _ hstep
    refine ⟨fun hb => hparent (hbelow parent hb), fun old hold => ?_⟩
    obtain ⟨hchilds, hall⟩ := hlisted old hold
    exact ⟨hchilds, fun c d a hd ha hc => hall d (hbelow d hd) a ha c hc⟩
  | newObject name | lookup fuel a m => exact ⟨trivial, trivial⟩

omit [DecidableEq ν] in
theorem lookup_unique {fuel fuel' a : Nat} {m : μ}
    {r r' : Option φ × World ν μ φ} (h : Class.lookup fuel w a m = some r)
    (h' : Class.lookup fuel' w a m = some r') : r = r' := by
  induction fuel generalizing fuel' a r r' with
  | zero => cases h
  | succ fuel ih =>
    cases fuel' with
    | zero => cases h'
    | succ fuel' =>
      rw [Class.lookup] at h h'
      cases hraw : ((w.tables a).methods m).or ((w.tables a).memo m) with
      | some f =>
        rw [hraw] at h h'
        exact some.inj (h.symm.trans h')
      | none =>
        rw [hraw] at h h'
        cases hindex : (w.tables a).index with
        | none =>
          rw [hindex] at h h'
          exact some.inj (h.symm.trans h')
        | some b =>
          rw [hindex] at h h'
          obtain ⟨up, hup, rfl⟩ := map_eq_some_iff.mp h
          obtain ⟨up', hup', rfl⟩ := map_eq_some_iff.mp h'
          rw [ih hup hup']

def resolve (w : World ν μ φ) (m : μ) : Nat → ν → Option (Option φ)
  | 0, _ => none
  | fuel + 1, c =>
    (w.classCtx c).bind fun a =>
      match (w.tables a).methods m with
      | some f => some (some f)
      | none => (w.tables a).parent.elim (some none) (resolve w m fuel)

omit [DecidableEq ν] [DecidableEq μ] in
theorem Resolves.eq_resolve (h : Resolves w c m r) (h' : resolve w m fuel c = some r') :
    r' = r := by
  induction h generalizing fuel with
  | own hc hm =>
    cases fuel with
    | zero => cases h'
    | succ fuel =>
      rw [resolve, hc, bind_some, hm] at h'
      exact (some.inj h').symm
  | top hc hm hp =>
    cases fuel with
    | zero => cases h'
    | succ fuel =>
      rw [resolve, hc, bind_some, hm, hp] at h'
      exact (some.inj h').symm
  | up hc hm hp _ ih =>
    cases fuel with
    | zero => cases h'
    | succ fuel =>
      rw [resolve, hc, bind_some, hm, hp] at h'
      exact ih h'

def compare (w : World ν μ φ) (c : ν) (m : μ) : Option (Option φ × Option φ) :=
  (w.classCtx c).bind fun a => (lookup 9 w a m).bind fun found =>
    (resolve w m 9 c).map fun nearest => (found.1, nearest)

omit [DecidableEq ν] in
theorem not_upToDate_of_compare (h : compare w c m = some (found, nearest)) (hne : found ≠ nearest)
    : ¬ UpToDate w := by
  intro hw
  obtain ⟨a, ha, h⟩ := bind_eq_some_iff.mp h
  obtain ⟨r, hlookup, h⟩ := bind_eq_some_iff.mp h
  obtain ⟨r', hresolve, heq⟩ := map_eq_some_iff.mp h
  cases heq
  obtain ⟨r'', hres, fuel, w', hfound⟩ := hw.classes c a ha m
  obtain rfl := lookup_unique hlookup hfound
  exact hne (hres.eq_resolve hresolve).symm

end

abbrev Name := Option Bool

def base : Name := some false

def derived : Name := some true

def defining (f : Option Nat) : Unit → Option Nat := fun _ => f

def careful : List (Action Name Unit Nat) :=
  [.inherit base none (defining (some 1)), .inherit derived base (defining none),
    .newObject derived, .lookup 9 2 (), .inherit base none (defining (some 2)),
    .inherit derived base (defining none), .lookup 9 4 (), .inherit base none (defining (some 3))]

theorem careful_upToDate :
    ∃ w, (machine none (defining none)).run careful = some w ∧ UpToDate w := by
  have hrun : ((machine none (defining none)).run careful).isSome := by decide +kernel
  obtain ⟨w, hw⟩ := isSome_iff_exists.mp hrun
  have hclosed : (machine none (defining none)).Along (fun w a => ∃ below, Closed w below a)
      careful (initial none (defining none)) := by decide +kernel
  refine ⟨w, hw, upToDate_of_listed none (defining none) hw (hclosed.imp ?_)⟩
  rintro w a ⟨below, h⟩
  exact tree_listed_of_closed h

def twice : List (Action Name Unit Nat) :=
  [.inherit base none (defining (some 1)), .inherit derived base (defining none),
    .inherit base none (defining (some 2)), .inherit base none (defining (some 3))]

def moved : List (Action Name Unit Nat) :=
  [.inherit base none (defining (some 1)), .inherit derived base (defining none),
    .inherit derived none (defining none), .inherit base none (defining (some 2))]

theorem reloads_not_upToDate :
    (∃ w, (machine none (defining none)).run twice = some w ∧ ¬ UpToDate w) ∧
      ∃ w, (machine none (defining none)).run moved = some w ∧ ¬ UpToDate w := by
  constructor
  · have heval : ∃ w ∈ (machine none (defining none)).run twice,
        compare w derived () = some (some 2, some 3) := by decide +kernel
    obtain ⟨w, hw, hcompare⟩ := heval
    exact ⟨w, hw, not_upToDate_of_compare hcompare (by decide)⟩
  · have heval : ∃ w ∈ (machine none (defining none)).run moved,
        compare w derived () = some (some 2, none) := by decide +kernel
    obtain ⟨w, hw, hcompare⟩ := heval
    exact ⟨w, hw, not_upToDate_of_compare hcompare (by decide)⟩

end EventLua.Class
