import DesignComponents.Document.Basic
import DesignComponents.Host.Query
import DesignComponents.Payload.Source

/-! Generating payloads. A request asks the host about the tree below the root, compiles the
tree with the answers, and writes one payload for each wanted variant. A scene without a root
has nothing to generate. The request itself runs in no task, and ends with the query of the
root's style if that dies. -/

namespace DesignComponents

structure Payload where
  language : String
  title : String
  code : String
  deriving DecidableEq, Repr

namespace Payload

def ofComponents (v : Variant) (cs : List Component) : Payload :=
  ⟨v.label, v.title, source v cs⟩

def toJson (p : Payload) : Json :=
  .object [("language", .string p.language), ("title", .string p.title), ("code", .string p.code)]

end Payload

namespace Tree

/-- The components of a tree with their markup. -/
def rendered (o : Options) (s : Snapshot) (t : Tree) : List Payload.Component :=
  let names := t.plan o s
  (t.components o s).map fun d => Payload.Component.ofDescriptor d (d.render s names)

end Tree

namespace Scene

def rootTree (scene : Scene) : Except Failure Tree :=
  match scene.rootTree? with
  | some t => .ok t
  | none => .error .noRoot

/-- The components of a scene, with the answers of a snapshot. -/
def components (scene : Scene) (s : Snapshot) (o : Options) : Except Failure (List Descriptor) :=
  scene.rootTree.map fun t => t.components o s

/-- The payloads of a scene, with the answers of a snapshot. -/
def compile (scene : Scene) (s : Snapshot) (p : Preferences) : Except Failure (List Payload) :=
  scene.rootTree.map fun t => p.variants.map (Payload.ofComponents · (t.rendered p.options s))

/-- The answers of a host for the tree below the root. -/
def ask (scene : Scene) (h : Host) (schedule : Schedule) : Ending Snapshot := do
  let t ← .result scene.rootTree
  h.query schedule t

/-- The payloads of a scene, with the answers of a host. -/
def generate (scene : Scene) (h : Host) (schedule : Schedule) (p : Preferences) :
    Ending (List Payload) := do
  let s ← scene.ask h schedule
  .result (scene.compile s p)

/-- The components of a scene, with the answers of a host. -/
def analyze (scene : Scene) (h : Host) (schedule : Schedule) (p : Preferences) :
    Ending (List Descriptor) := do
  let s ← scene.ask h schedule
  .result (scene.components s p.options)

/-- The warnings of a request that went through. -/
def warnings (scene : Scene) (h : Host) : List Notice :=
  match scene.rootTree? with
  | some t => h.notices t
  | none => []

end Scene

end DesignComponents
