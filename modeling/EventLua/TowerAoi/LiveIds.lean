import EventLua.TowerAoi.Registration

/-!
Ids that are not in use. `get_object` compares the type of the slot and nothing else, and a slot
keeps its type when it is freed; those that were never handed out look like objects.
-/
namespace EventLua.TowerAoi
variable {F : Type}

end EventLua.TowerAoi
