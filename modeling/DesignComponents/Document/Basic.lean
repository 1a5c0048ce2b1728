import DesignComponents.Host.Snapshot
import DesignComponents.Scene.Tree

/-! Design documents. A document is a tree of nodes with their computed styles, together with
the display names of the design's variables. Loading lays the tree out as a scene, each node
before its children, and keeps the styles and names for later queries. -/

namespace DesignComponents

/-- A node of a document; the list of children may be missing. -/
inductive DocumentNode where
  | mk (node : Node) (css : Declarations) (children : Option (List DocumentNode))

namespace DocumentNode

def node : DocumentNode → Node
  | mk node _ _ => node

def css : DocumentNode → Declarations
  | mk _ css _ => css

def children : DocumentNode → Option (List DocumentNode)
  | mk _ _ children => children

/-- A node is a container if it lists children, or if its kind is one for containers and it has
no text. -/
def isContainer (n : DocumentNode) : Bool :=
  n.children.isSome || (n.node.kind.isContainer && n.node.characters.isNone)

/-- The node as it enters a scene, before its children. -/
def slot (n : DocumentNode) : Slot :=
  ⟨n.node, if n.isContainer then some [] else none⟩

mutual

/-- All nodes, each before its children. -/
def preorder : DocumentNode → List DocumentNode
  | mk node css none => [mk node css none]
  | mk node css (some children) => mk node css (some children) :: preorderAll children

def preorderAll : List DocumentNode → List DocumentNode
  | [] => []
  | n :: ns => preorder n ++ preorderAll ns

end

end DocumentNode

structure Document where
  root : Option DocumentNode
  variableNames : OrderedMap VariableId String

/-- A scene with the answers that were captured for it. -/
structure LoadedDocument where
  scene : Scene
  captured : Snapshot

namespace Document

/-- A scene that grows, and the styles of its nodes in order. -/
structure Growth where
  scene : Scene
  styles : Array Declarations

mutual

/-- Adds a node below a parent and then its children below it. -/
def place (parent : NodeId) : DocumentNode → Growth → Growth
  | .mk node css children, g =>
    let n := DocumentNode.mk node css children
    let id := g.scene.size
    let g := ⟨g.scene.addChild parent n.slot, g.styles.push css⟩
    match children with
    | none => g
    | some ns => placeAll id ns g

def placeAll (parent : NodeId) : List DocumentNode → Growth → Growth
  | [], g => g
  | n :: ns, g => placeAll parent ns (place parent n g)

end

/-- Lays out a whole tree, its first node as the root. -/
def plant (n : DocumentNode) : Growth :=
  placeAll 0 (n.children.getD []) ⟨Scene.empty.addRoot n.slot, #[n.css]⟩

def growth (d : Document) : Growth :=
  match d.root with
  | none => ⟨Scene.empty, #[]⟩
  | some n => plant n

/-- The styles by place. -/
def stylesOf (styles : List Declarations) : OrderedMap NodeId Declarations where
  entries := styles.zipIdx.map fun e => (e.2, e.1)
  nodup_keys := by
    rw [List.map_map]
    have h : (Prod.fst ∘ fun e : Declarations × Nat => (e.2, e.1)) = Prod.snd := rfl
    rw [h, List.zipIdx_map_snd]
    exact List.nodup_range'

def load (d : Document) : LoadedDocument :=
  let g := d.growth
  ⟨g.scene, stylesOf g.styles.toList, d.variableNames⟩

end Document

end DesignComponents
