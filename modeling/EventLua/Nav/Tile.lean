import EventLua.Nav.Mesh
import Mathlib.Data.Rat.Floor
import Mathlib.Algebra.Order.Floor.Semifield

/-!
The tiles of a mesh. `create_tile` enters a polygon into the tiles whose border it meets and into
those whose centre it contains, and `point_movable` then looks at the polygons of one tile only.
-/
namespace EventLua.Nav
open List

def crossProduct (v w : Vertex) : ℚ := v.z * w.x - v.x * w.z

def vector3Sub (a b : Vertex) : Vertex := ⟨a.x - b.x, a.y - b.y, a.z - b.z⟩

def intersect (a b c d : Vertex) : Bool :=
  max a.x b.x ≥ min c.x d.x && max a.z b.z ≥ min c.z d.z && max c.x d.x ≥ min a.x b.x &&
    max c.z d.z ≥ min a.z b.z &&
    crossProduct (vector3Sub a c) (vector3Sub d c) * crossProduct (vector3Sub d c) (vector3Sub b c)
      ≥ 0 &&
    crossProduct (vector3Sub c a) (vector3Sub b a) * crossProduct (vector3Sub b a) (vector3Sub d a)
      ≥ 0

def sides (poly : List Vertex) : List (Vertex × Vertex) := poly.zip (poly.tail ++ poly.take 1)

/-- The loop of `inside_poly`, with the side on which the point has been so far. -/
def insideLoop (p : Vertex) : List (Vertex × Vertex) → Int → Bool
  | [], _ => true
  | (v, w) :: rest, sign =>
    let dot := crossProduct ⟨w.x - v.x, 0, w.z - v.z⟩ ⟨p.x - v.x, 0, p.z - v.z⟩
    if dot = 0 then insideLoop p rest sign
    else if sign = 0 then insideLoop p rest (if dot > 0 then 1 else -1)
    else if sign == 1 && dot < 0 then false
    else if sign == -1 && dot > 0 then false
    else insideLoop p rest sign

structure Node where
  poly : List Vertex
  mask : Nat

def insideNode (node : Node) (x z : ℚ) : Bool := insideLoop ⟨x, 0, z⟩ (sides node.poly) 0

/-- A mesh after `load_mesh`; `mask` says which masks are enabled. -/
structure Mesh where
  box : Box
  nodes : List Node
  mask : Nat → Bool

namespace Mesh
variable (mesh : Mesh) (unit : Nat)

/-- A `uint32_t`, as are the sizes below. A side of 2^32 or more is undefined in C; here it is cut
off. -/
def width : Nat := ⌊mesh.box.brX - mesh.box.ltX⌋₊ % 2 ^ 32

def heigh : Nat := ⌊mesh.box.brZ - mesh.box.ltZ⌋₊ % 2 ^ 32

def tileWidth : Nat := (mesh.width / unit + 1) % 2 ^ 32

def tileHeigh : Nat := (mesh.heigh / unit + 1) % 2 ^ 32

def tileCount : Nat := mesh.tileWidth unit * mesh.tileHeigh unit % 2 ^ 32

/-- A point of the grid; the products are `uint32_t`. -/
def corner (x z : Nat) : Vertex :=
  ⟨mesh.box.ltX + (x * unit % 2 ^ 32 : Nat), 0, mesh.box.ltZ + (z * unit % 2 ^ 32 : Nat)⟩

def corners (x z : Nat) : List Vertex :=
  [mesh.corner unit x z, mesh.corner unit (x + 1) z, mesh.corner unit (x + 1) (z + 1),
    mesh.corner unit x (z + 1)]

def meets (x z : Nat) (node : Node) : Bool :=
  (sides (mesh.corners unit x z)).any fun (a, b) =>
    (sides node.poly).any fun (c, d) => intersect a b c d

def covers (x z : Nat) (node : Node) : Bool :=
  insideNode node (mesh.box.ltX + (x + 1 / 2) * unit) (mesh.box.ltZ + (z + 1 / 2) * unit)

def createTile : List (List Node) :=
  (List.range (mesh.tileCount unit)).map fun i =>
    mesh.nodes.filter fun node =>
      mesh.meets unit (i % mesh.tileWidth unit) (i / mesh.tileWidth unit) node ||
        mesh.covers unit (i % mesh.tileWidth unit) (i / mesh.tileWidth unit) node

def xIndex (x : ℚ) : Nat := ⌊(x - mesh.box.ltX) / unit⌋₊

def zIndex (z : ℚ) : Nat := ⌊(z - mesh.box.ltZ) / unit⌋₊

def tileIndex (x z : ℚ) : Nat := mesh.xIndex unit x + mesh.zIndex unit z * mesh.tileWidth unit

/-- The end of `point_movable`: the first polygon that contains the point, and its mask. -/
def movableAmong (nodes : List Node) (x z : ℚ) : Bool :=
  match nodes.find? fun node => insideNode node x z with
  | none => false
  | some node => mesh.mask node.mask

def Inside (x z : ℚ) : Prop :=
  mesh.box.ltX ≤ x ∧ x ≤ mesh.box.brX ∧ mesh.box.ltZ ≤ z ∧ z ≤ mesh.box.brZ
deriving Decidable

/-- `point_movable`, without tiles or with those of `create_tile`; `none` is a look-up outside
the array. -/
def pointMovable (tiles : Option (List (List Node))) (x z : ℚ) : Option Bool :=
  if mesh.Inside x z then
    match tiles with
    | none => some (mesh.movableAmong mesh.nodes x z)
    | some tiles => (tiles[mesh.tileIndex unit x z]?).map fun nodes => mesh.movableAmong nodes x z
  else some false

end Mesh

end EventLua.Nav
