import EventLua.Scene.Model

/-!
What the calls of a scene do to the view lists. If every id of a set leads to a fighter of
the scene, both parties of every pair are treated alike.
-/
namespace EventLua.Scene
open FastAoi
variable {F : Type} {s : ClsScene F}

def ClsScene.pairUp (inView : Bool) (self : Int) (objs : List Int) (s : ClsScene F) : ClsScene F :=
  { s with fighter := fun a => { s.fighter a with
      viewList := fun b =>
        if a = self ∧ b ∈ objs ∨ b = self ∧ a ∈ objs then inView
        else (s.fighter a).viewList b } }

def ClsScene.told (inView : Bool) (self : Int) (objs : List Int) (s : ClsScene F) : ClsScene F :=
  { s with fighter := fun a => { s.fighter a with
      viewList := fun b => if b = self ∧ a ∈ objs then inView else (s.fighter a).viewList b } }

theorem told_cons (inView : Bool) (self other : Int) (objs : List Int) (s : ClsScene F) :
    (s.setView inView other [self]).told inView self objs = s.told inView self (other :: objs) := by
  unfold ClsScene.told ClsScene.setView ClsScene.setFighter
  congr 1
  funext a
  by_cases ha : a = other
  · subst ha
    simp only [if_true, List.mem_cons, true_or, and_true]
    congr 1
    funext b
    by_cases hb : b = self <;> simp [hb]
  · simp [ha]

theorem tell_eq {inView : Bool} {self : Int} {set : List Int} {who : Int → Int}
    (h : ∀ v ∈ set, s.aoiCtx v = some (who v) ∧ s.fighterCtx (who v) = true) :
    s.tell inView self set = .ok (s.told inView self (set.map who), set.map who) := by
  induction set generalizing s with
  | nil =>
    simp [ClsScene.tell, ClsScene.told]
  | cons v set ih =>
    obtain ⟨hctx, hin⟩ := h v List.mem_cons_self
    have hrest := ih (s := s.setView inView (who v) [self])
      fun u hu => h u (List.mem_cons_of_mem _ hu)
    have hother : s.other v = .ok (who v) := by simp only [ClsScene.other, hctx, hin, if_true]
    simp only [ClsScene.tell, hother, hrest, Outcome.ok_bind, told_cons, List.map_cons]
    rfl

theorem setView_told (inView : Bool) (self : Int) (objs : List Int) (s : ClsScene F) :
    (s.told inView self objs).setView inView self objs = s.pairUp inView self objs := by
  unfold ClsScene.told ClsScene.setView ClsScene.setFighter ClsScene.pairUp
  congr 1
  funext a
  by_cases ha : a = self
  · subst ha
    simp only [if_true, true_and]
    congr 1
    funext b
    by_cases hb : b ∈ objs <;> simp [hb]
  · simp [ha]

end EventLua.Scene
